import BayesCircuit.Compiler.Files
import BayesCircuit.Proofs.Composition
import BayesCircuit.Proofs.Ordering.Files
import BayesCircuit.Proofs.Partition
import BayesCircuit.Proofs.PseudoTree.Grammar

/-!
# Reading artifacts

Whatever is done with the compilation of a network from outside, it keeps the network, its encoding
and partitions of it, and its orderings fit the partitions (`Of`, `Reachable.of`): a step is put
together from outcomes, which change nothing, and from changes that were checked before (`Keeps`).

Reading an artifact works out everything that its files say before the compilation is changed. So it
either succeeds and leaves such a compilation, or fails and leaves the compilation as it was
(`settles_receive`, `readArtifact_settles`). None of the readers and checks has a fault, with one
exception: the number zero in an index file of literals (`receive_listsZero`).
-/

namespace BayesCircuit

open Outcome

/-! ## Interactions -/

theorem Interaction.bind_assoc {α β γ : Type} {x : Interaction α} {f : α → Interaction β}
    {g : β → Interaction γ} : (x.bind f).bind g = x.bind fun a => (f a).bind g := by
  induction x with
  | done a => rfl
  | read path next ih => exact congrArg (Interaction.read path) (funext ih)
  | write path text next ih => exact congrArg (Interaction.write path text) (funext ih)
  | print text next ih => exact congrArg (Interaction.print text) ih
  | complain text next ih => exact congrArg (Interaction.complain text) ih
  | clock next ih => exact congrArg Interaction.clock (funext ih)

namespace Compiler.Compilation

variable {net : Network} {c c' : Compilation} {settings : Settings} {names : FileNames}
variable {file text : String} {ps : Partitions} {o : List Variable}
variable {sets os : List (List Variable)} {i : Nat}

/-! ## What is kept -/

/-- There are no orderings, or one of each partition that has its owned and cutset variables. -/
def Ordered (c : Compilation) : Prop :=
  c.orderings = #[] ∨
    List.Forall₂ (fun o p => o.Perm p.scope) c.orderings.toList c.partitions.parts.toList

/-- A compilation of a network, with partitions of it and orderings that fit. -/
structure Of (net : Network) (c : Compilation) : Prop where
  network : c.network = net
  encoding : Encoding.ofNetwork c.settings.encoding net = .ok c.encoding
  partitions : ∃ sets, Partitions.ofSets net sets = .ok c.partitions
  orderings : c.Ordered

/-- The parts of a compilation that fit each other. -/
def core (c : Compilation) :
    Network × EncodingOptions × Encoding × Partitions × Array (List Variable) :=
  (c.network, c.settings.encoding, c.encoding, c.partitions, c.orderings)

/-- Other parts do not matter. -/
theorem Of.of_core (hc : c.Of net) (h : c'.core = c.core) : c'.Of net := by
  simp only [core, Prod.mk.injEq] at h
  obtain ⟨hnetwork, hoptions, hencoding, hpartitions, horderings⟩ := h
  refine ⟨hnetwork.trans hc.network, ?_, hpartitions ▸ hc.partitions, ?_⟩
  · rw [hoptions, hencoding, hc.encoding]
  · rw [Ordered, horderings, hpartitions]
    exact hc.orderings

theorem of_start (h : start settings names net = .ok c) : c.Of net := by
  rw [start] at h
  obtain ⟨_, -, h⟩ := bind_eq_ok_iff.1 h
  obtain ⟨_, -, h⟩ := bind_eq_ok_iff.1 h
  obtain ⟨e, he, h⟩ := bind_eq_ok_iff.1 h
  obtain ⟨ps, hps, h⟩ := bind_eq_ok_iff.1 h
  cases h
  obtain ⟨p, hp, hps⟩ := bind_eq_ok_iff.1 hps
  cases hps
  exact ⟨rfl, he, ⟨_, Partitions.ofSets_eq_ok.2 (.cons hp .nil)⟩, Or.inl rfl⟩

/-- The check of orderings lets through those that fit, one for each partition. -/
theorem verifyOrderings_eq_ok_iff (h : Partitions.ofSets c.network sets = .ok c.partitions) :
    c.verifyOrderings os = .ok () ↔
      List.Forall₂ (fun o p => o.Perm p.scope) os c.partitions.parts.toList := by
  rw [verifyOrderings]
  split
  · rename_i hlength
    refine iff_of_false nofun fun hall => ?_
    have := hall.length_eq
    simp [Partitions.size, this] at hlength
  · rename_i hlength
    have hlength : os.length = c.partitions.parts.size := by
      rw [Partitions.size] at hlength
      simpa using hlength
    rw [forM_eq_ok_iff, List.forall₂_iff_get]
    constructor
    · intro hall
      refine ⟨by rw [hlength, Array.length_toList], fun i hi hi' => ?_⟩
      have hmem : (os[i], i) ∈ os.zipIdx := by
        simp [List.mem_zipIdx_iff_getElem?, hi]
      exact (Partitions.verifyOrdering_eq_ok_iff h (by simp)).1 (hall _ hmem)
    · rintro ⟨-, hall⟩ ⟨o, i⟩ hmem
      have hget := List.mem_zipIdx_iff_getElem?.1 hmem
      obtain ⟨hi, ho⟩ := List.getElem?_eq_some_iff.1 hget
      dsimp only at hi ho
      subst ho
      have hi' : i < c.partitions.parts.size := hlength ▸ hi
      exact (Partitions.verifyOrdering_eq_ok_iff h (Array.getElem?_eq_getElem hi')).2
        (hall i hi (by simpa using hi'))

theorem safe_verifyOrderings (hnet : c.network.Closed)
    (h : Partitions.ofSets c.network sets = .ok c.partitions) : Safe (c.verifyOrderings os) := by
  rw [verifyOrderings]
  split
  · exact Safe.fail
  · rename_i hlength
    refine Safe.forM fun q hq => ?_
    have hget := List.mem_zipIdx_iff_getElem?.1 hq
    have hlt := (List.getElem?_eq_some_iff.1 hget).1
    refine Partitions.safe_verifyOrdering hnet h ?_
    have hlength : os.length = c.partitions.size := by simpa using hlength
    exact hlength ▸ hlt

/-! ## Steps -/

theorem run_setPartitions : (setPartitions ps).run c = match ps.verify c.network with
    | .ok _ => .ok () { c with partitions := ps, orderings := #[], pseudoTrees := #[] }
    | .error f => .error f c := by
  unfold setPartitions
  simp only [EStateM.run_bind, EStateM.run_get, run_liftOutcome, EStateM.run_modify]
  cases ps.verify c.network <;> rfl

theorem run_setOrderings : (setOrderings os).run c = match c.verifyOrderings os with
    | .ok _ => .ok () { c with orderings := os.toArray }
    | .error f => .error f c := by
  unfold setOrderings
  simp only [EStateM.run_bind, EStateM.run_get, run_liftOutcome, EStateM.run_modify]
  cases c.verifyOrderings os <;> rfl

/-- The compilation that a step leaves, whether it fails or not. -/
def after {α : Type} (s : Step α) (c : Compilation) : Compilation :=
  match s.run c with
  | .ok _ c' => c'
  | .error _ c' => c'

/-- A step after which the compilation is one of the network if it was one before. -/
def Keeps {α : Type} (net : Network) (s : Step α) : Prop :=
  ∀ c : Compilation, c.Of net → (after s c).Of net

section

variable {α β : Type} {s : Step α} {f : α → Step β}

theorem Keeps.of_run (h : ∀ c : Compilation, c.Of net → match s.run c with
    | .ok _ c' => c'.Of net
    | .error _ c' => c'.Of net) : Keeps net s := by
  intro c hc
  have hrun := h c hc
  rw [after]
  split
  · rename_i hs
    rwa [hs] at hrun
  · rename_i hs
    rwa [hs] at hrun

theorem Keeps.bind (hs : Keeps net s) (hf : ∀ a, Keeps net (f a)) : Keeps net (s >>= f) := by
  intro c hc
  have hfirst := hs c hc
  rw [after] at hfirst ⊢
  rw [EStateM.run_bind]
  cases hrun : s.run c with
  | ok a c' =>
      rw [hrun] at hfirst
      exact hf a c' hfirst
  | error e c' =>
      rw [hrun] at hfirst
      exact hfirst

theorem Keeps.get {f : Compilation → Step β}
    (hf : ∀ c : Compilation, c.Of net → (after (f c) c).Of net) :
    Keeps net (MonadState.get >>= f) := fun c hc => hf c hc

theorem Keeps.pure {a : α} : Keeps net (pure a) := fun _ hc => hc

theorem Keeps.throw {e : Failure} : Keeps net (throw (m := Step) (α := α) e) := fun _ hc => hc

theorem Keeps.lift {x : Outcome α} : Keeps net (liftOutcome x) := by
  intro c hc
  cases x with
  | ok a => exact hc
  | error e => exact hc

theorem Keeps.liftBind {x : Outcome α} (hf : ∀ a, x = .ok a → Keeps net (f a)) :
    Keeps net (liftOutcome x >>= f) := by
  cases x with
  | ok a => exact hf a rfl
  | error e => exact fun c hc => hc

theorem Keeps.forM {γ : Type} {xs : List γ} {f : γ → Step Unit} (hf : ∀ x ∈ xs, Keeps net (f x)) :
    Keeps net (xs.forM f) := by
  induction xs with
  | nil => exact Keeps.pure
  | cons x xs ih =>
      obtain ⟨hx, hxs⟩ := List.forall_mem_cons.1 hf
      exact hx.bind fun _ => ih hxs

theorem Keeps.discard (hs : Keeps net s) : Keeps net (discard s) := hs.bind fun _ => Keeps.pure

theorem Keeps.modify {g : Compilation → Compilation} (hg : ∀ c, (g c).core = c.core) :
    Keeps net (modify (m := Step) g) := fun c hc => hc.of_core (hg c)

end

/-! ## Operations -/

theorem keeps_setPartitions (h : Partitions.ofSets net sets = .ok ps) :
    Keeps net (setPartitions ps) := by
  refine .of_run fun c hc => ?_
  rw [run_setPartitions]
  cases ps.verify c.network with
  | ok _ => exact ⟨hc.network, hc.encoding, ⟨sets, h⟩, Or.inl rfl⟩
  | error _ => exact hc

theorem keeps_setOrderings : Keeps net (setOrderings os) := by
  refine .of_run fun c hc => ?_
  rw [run_setOrderings]
  obtain ⟨sets, hsets⟩ := hc.partitions
  cases hos : c.verifyOrderings os with
  | ok _ =>
      have hperm := (verifyOrderings_eq_ok_iff (hc.network ▸ hsets)).1 hos
      exact ⟨hc.network, hc.encoding, ⟨sets, hsets⟩, Or.inr hperm⟩
  | error _ => exact hc

theorem verifyOrdering_of_search {p : Partition} (h : c.searchOrdering p i = .ok o) :
    c.partitions.verifyOrdering c.network i o = .ok () := by
  rw [searchOrdering] at h
  split at h
  · obtain ⟨_, h, -⟩ := bind_eq_ok_iff.1 h
    cases h
  · obtain ⟨_, -, h⟩ := bind_eq_ok_iff.1 h
    obtain ⟨o', -, h⟩ := bind_eq_ok_iff.1 h
    obtain ⟨_, hverify, h⟩ := bind_eq_ok_iff.1 h
    cases h
    exact hverify

theorem keeps_order : Keeps net order := by
  refine .get fun c hc => ?_
  obtain ⟨sets, hsets⟩ := hc.partitions
  split
  · rw [after, EStateM.run_bind, run_liftOutcome]
    generalize hfound : (List.mapM _ c.partitions.parts.toList.zipIdx : Outcome _) = found
    cases found with
    | ok found =>
        refine ⟨hc.network, hc.encoding, ⟨sets, hsets⟩, Or.inr ?_⟩
        obtain ⟨hlength, hall⟩ := List.forall₂_iff_get.1 (mapM_eq_ok_iff.1 hfound)
        rw [List.length_zipIdx] at hlength
        refine List.forall₂_iff_get.2 ⟨hlength.symm, fun i hi hi' => ?_⟩
        have hsearch := hall i (by rwa [List.length_zipIdx]) hi
        simp only [List.get_eq_getElem, List.getElem_zipIdx, Nat.zero_add] at hsearch ⊢
        exact (Partitions.verifyOrdering_eq_ok_iff (hc.network ▸ hsets) (by simp)).1
          (verifyOrdering_of_search hsearch)
    | error _ => exact hc
  · exact hc

theorem keeps_compose : Keeps net compose := by
  refine .get fun c hc => ?_
  split
  · refine Keeps.bind (.modify fun _ => by rfl) (fun _ => ?_) c hc
    exact Keeps.lift.bind fun ordering => Keeps.lift.bind fun tree =>
      Keeps.lift.discard.bind fun _ => .modify fun _ => by rfl
  · exact hc

theorem keeps_prepare : Keeps net prepare := keeps_order.bind fun _ => keeps_compose

theorem keeps_conjoin : Keeps net conjoin := by
  refine .get fun c hc => ?_
  refine Keeps.bind Keeps.lift (fun parts => Keeps.lift.bind fun manager => ?_) c hc
  split
  · exact Keeps.bind (.modify fun _ => by rfl) fun _ => Keeps.pure
  · exact Keeps.bind (.modify fun _ => by rfl) fun _ => Keeps.throw

theorem keeps_span : Keeps net span := by
  refine .get fun c hc => ?_
  exact Keeps.bind Keeps.lift (fun trees => .modify fun _ => by rfl) c hc

theorem keeps_unfold {W : Type} [DecidableEq W] [Hashable W] {label : EdgeLabel W} :
    Keeps net (unfold label) := by
  refine .get fun c hc => ?_
  exact Keeps.bind Keeps.lift
    (fun graphs => Keeps.bind (.modify fun _ => by rfl) fun _ => Keeps.pure) c hc

theorem keeps_compileCircuits : Keeps net compileCircuits := by
  refine .get fun c hc => ?_
  split
  · exact keeps_conjoin c hc
  · refine keeps_span.bind (fun _ => ?_) c hc
    split
    · exact keeps_unfold.bind fun _ => Keeps.pure
    · exact keeps_unfold.bind fun _ => Keeps.pure
  · refine keeps_span.bind (fun _ => ?_) c hc
    split
    · exact keeps_unfold.bind fun _ => Keeps.pure
    · exact keeps_unfold.bind fun _ => Keeps.pure

theorem keeps_compile : Keeps net compile := by
  refine keeps_prepare.bind fun _ => .get fun c hc => ?_
  split
  · exact keeps_compileCircuits.bind (fun circuits => .modify fun _ => by rfl) c hc
  · exact hc

/-! ## Files -/

/-- An index file with the number zero in it. -/
def Source.ListsZero (s : Source) : Prop := ∃ text numbers, s.content = .ok text ∧
  Ordering.parseIndices s.path text = .ok numbers ∧ 0 ∈ numbers

variable {s : Source} {files : List Source} {a : Artifact}

theorem safe_text : Safe s.text := by
  rw [Source.text]
  split
  · exact Safe.ok
  · exact Safe.fail

theorem content_of_text (h : s.text = .ok text) : s.content = .ok text := by
  rw [Source.text] at h
  split at h
  · cases h
    assumption
  · cases h

theorem safe_parseVariables : Safe (parseVariables net file text) := by
  refine Ordering.safe_parseIndices.bind fun o _ => ?_
  split
  · exact Safe.pure
  · exact Safe.fail

theorem safe_readPseudoTree : Safe (readPseudoTree s) := by
  refine safe_text.bind fun text _ => ?_
  have hsettled : PseudoTree.Settled s.path (PseudoTree.parse s.path text) :=
    PseudoTree.settled_parse
  obtain ⟨t, ht⟩ | ⟨reason, ht⟩ := hsettled
  · exact Safe.of_eq ht
  · rw [ht]
    exact Safe.fail

/-- Only the number zero among literals is a fault. -/
theorem readOrdering_abort (hc : c.Of net) {fault : Fault} (h : c.readOrdering a s = abort fault) :
    fault = .requirement ∧ a ≠ .elimination ∧ a ≠ .variableOrder ∧ s.ListsZero := by
  obtain h | ⟨text, htext, h⟩ := bind_eq_abort_iff.1 h
  · exact absurd h (safe_text fault)
  · split at h
    · exact absurd h (Ordering.safe_parseNames fault)
    · exact absurd h (safe_parseVariables fault)
    · rename_i helimination hvariables
      rw [parseLiterals] at h
      split at h
      · cases h
      · obtain h | ⟨numbers, hnumbers, h⟩ := bind_eq_abort_iff.1 h
        · exact absurd h (Ordering.safe_parseIndices fault)
        · obtain h | ⟨_, -, h⟩ := bind_eq_abort_iff.1 h
          · rw [require, ensure] at h
            split at h
            · cases h
            · rename_i hzero
              cases h
              exact ⟨rfl, helimination, hvariables, text, numbers, content_of_text htext, hnumbers,
                by simpa using hzero⟩
          · exact absurd h (Ordering.safe_collapse hc.encoding fault)

/-- How a reading of files ends: with a compilation of the network, or with a failure that leaves
the compilation as it was. A failure that is no error is the requirement that no literal is zero. -/
def Settles (net : Network) (c : Compilation) (a : Artifact) (files : List Source)
    (r : EStateM.Result Failure Compilation Unit) : Prop :=
  match r with
  | .ok _ c' => c'.Of net
  | .error (.error _) c' => c' = c
  | .error (.fault f) c' =>
      c' = c ∧ f = .requirement ∧ a = .literalOrder ∧ ∃ s ∈ files, s.ListsZero

theorem settles_liftOutcome {α : Type} {x : Outcome α} {f : α → Step Unit}
    (hx : ∀ fault, x = abort fault →
      fault = .requirement ∧ a = .literalOrder ∧ ∃ s ∈ files, s.ListsZero)
    (hf : ∀ b, x = .ok b → Settles net c a files ((f b).run c)) :
    Settles net c a files ((liftOutcome x >>= f).run c) := by
  rw [EStateM.run_bind, run_liftOutcome]
  cases x with
  | ok b => exact hf b rfl
  | error e =>
      cases e with
      | error e => rfl
      | fault fault => exact ⟨rfl, hx fault rfl⟩

theorem settles_safe {α : Type} {x : Outcome α} {f : α → Step Unit} (hx : Safe x)
    (hf : ∀ b, x = .ok b → Settles net c a files ((f b).run c)) :
    Settles net c a files ((liftOutcome x >>= f).run c) :=
  settles_liftOutcome (fun fault h => absurd h (hx fault)) hf

theorem settles_setPartitions (hc : c.Of net) (h : Partitions.ofSets net sets = .ok ps) :
    Settles net c a files ((setPartitions ps).run c) := by
  have hsafe := Partitions.safe_verify h
  rw [← hc.network] at hsafe
  rw [run_setPartitions]
  cases hverify : ps.verify c.network with
  | ok _ => exact ⟨hc.network, hc.encoding, ⟨sets, h⟩, Or.inl rfl⟩
  | error e =>
      cases e with
      | error _ => rfl
      | fault fault => exact absurd hverify (hsafe fault)

/-- After the orderings have been checked, nothing fails. -/
theorem settles_setOrderings (hnet : net.Closed) (hc : c.Of net) {f : Unit → Step Unit}
    (hf : ∀ c : Compilation, c.Of net → ∃ c', (f ()).run c = .ok () c' ∧ c'.Of net) :
    Settles net c a files ((setOrderings os >>= f).run c) := by
  obtain ⟨sets, hsets⟩ := hc.partitions
  have hsets' := hc.network ▸ hsets
  rw [EStateM.run_bind, run_setOrderings]
  cases hos : c.verifyOrderings os with
  | ok _ =>
      have hperm := (verifyOrderings_eq_ok_iff hsets').1 hos
      obtain ⟨c', hrun, hc'⟩ := hf { c with orderings := os.toArray }
        ⟨hc.network, hc.encoding, ⟨sets, hsets⟩, Or.inr hperm⟩
      dsimp only
      rw [hrun]
      exact hc'
  | error e =>
      cases e with
      | error _ => rfl
      | fault fault => exact absurd hos (safe_verifyOrderings (hc.network ▸ hnet) hsets' fault)

/-- The orderings that files describe are taken over. -/
theorem settles_orderings (hnet : net.Closed) (hc : c.Of net)
    (ha : a = .elimination ∨ a = .variableOrder ∨ a = .literalOrder) : Settles net c a files
      ((liftOutcome (files.mapM (c.readOrdering a)) >>= fun os => setOrderings os).run c) := by
  refine settles_liftOutcome (fun fault h => ?_) fun os _ => ?_
  · obtain ⟨s, hs, habort⟩ := exists_of_mapM_abort h
    obtain ⟨hfault, helimination, hvariables, hzero⟩ := readOrdering_abort hc habort
    exact ⟨hfault, (ha.resolve_left helimination).resolve_left hvariables, s, hs, hzero⟩
  · rw [← bind_pure_unit (x := setOrderings os)]
    exact settles_setOrderings hnet hc fun c hc => ⟨c, rfl, hc⟩

theorem forM_singleton {f : Source → Step Unit} : [s].forM f = f s := bind_pure_unit

/-- Reading an artifact settles. -/
theorem settles_receive (hnet : net.Closed) (hc : c.Of net)
    (hpaths : files.map (·.path) = c.sources a) :
    Settles net c a files ((receive a files).run c) := by
  have hsingle : a.isReadable = true → a.isPerPartition = false → ∃ s, files = [s] := by
    intro hreadable hwhole
    have hlength := congrArg List.length hpaths
    rw [sources, hreadable, hwhole, List.length_map] at hlength
    exact List.length_eq_one_iff.1 hlength
  unfold receive
  rw [EStateM.run_bind, EStateM.run_get]
  cases a with
  | partition =>
      obtain ⟨s, rfl⟩ := hsingle rfl rfl
      dsimp only
      rw [forM_singleton]
      refine settles_safe (safe_text.bind fun _ _ => Partitions.safe_parse) fun ps hps => ?_
      obtain ⟨text, -, hps⟩ := bind_eq_ok_iff.1 hps
      obtain ⟨sets, hsets⟩ := Partitions.ofSets_of_parse hps
      exact settles_setPartitions hc (hc.network ▸ hsets)
  | elimination => exact settles_orderings hnet hc (Or.inl rfl)
  | variableOrder => exact settles_orderings hnet hc (Or.inr (Or.inl rfl))
  | literalOrder => exact settles_orderings hnet hc (Or.inr (Or.inr rfl))
  | pseudoTree =>
      refine settles_safe (Safe.mapM fun s _ => safe_readPseudoTree) fun trees _ => ?_
      exact settles_setOrderings hnet hc fun c hc => ⟨_, rfl, hc.of_core rfl⟩
  | composition =>
      obtain ⟨s, rfl⟩ := hsingle rfl rfl
      dsimp only
      rw [forM_singleton]
      refine settles_safe (safe_text.bind fun _ _ => Ordering.safe_parseIndices) fun o _ => ?_
      exact hc.of_core rfl
  | circuit | mapping | drawing | spanning | exchange => rfl

/-- The number zero in an index file of literals is no error but a fault. -/
theorem receive_listsZero (hsize : c.partitions.size = 1) (hzero : s.ListsZero) :
    (receive .literalOrder [s]).run c = .error (.fault .requirement) c := by
  obtain ⟨text, numbers, hcontent, hnumbers, hmem⟩ := hzero
  have hread : c.readOrdering .literalOrder s = abort .requirement := by
    rw [readOrdering, Source.text, hcontent]
    refine bind_eq_abort_iff.2 (Or.inr ⟨text, rfl, ?_⟩)
    dsimp only
    rw [parseLiterals, if_neg (by simp [hsize])]
    refine bind_eq_abort_iff.2 (Or.inr ⟨numbers, hnumbers, bind_eq_abort_iff.2 (Or.inl ?_)⟩)
    simp [require, ensure, hmem]
  have hall : [s].mapM (c.readOrdering .literalOrder) = abort .requirement := by
    rw [List.mapM_cons, hread]
    rfl
  unfold receive
  rw [EStateM.run_bind, EStateM.run_get]
  dsimp only
  rw [hall]
  rfl

/-! ## Reachable compilations -/

theorem keeps_receive : Keeps net (receive a files) := by
  refine .get fun c hc => ?_
  cases a with
  | partition =>
      refine Keeps.forM (fun s _ => .liftBind fun ps hps => ?_) c hc
      obtain ⟨text, -, hps⟩ := bind_eq_ok_iff.1 hps
      obtain ⟨sets, hsets⟩ := Partitions.ofSets_of_parse hps
      exact keeps_setPartitions (hc.network ▸ hsets)
  | elimination | variableOrder | literalOrder =>
      exact Keeps.lift.bind (fun os => keeps_setOrderings) c hc
  | pseudoTree =>
      exact Keeps.lift.bind
        (fun trees => keeps_setOrderings.bind fun _ => .modify fun _ => by rfl) c hc
  | composition =>
      exact Keeps.forM (fun s _ => Keeps.lift.bind fun o => .modify fun _ => by rfl) c hc
  | circuit | mapping | drawing | spanning | exchange => exact hc

/-- The steps that can be taken from outside. Partitions are given as sets of variables. -/
inductive Public (net : Network) : Step Unit → Prop
  | setPartitions {sets : List (List Variable)} {ps : Partitions}
      (ofSets : Partitions.ofSets net sets = .ok ps) : Public net (setPartitions ps)
  | setOrderings (orderings : List (List Variable)) : Public net (setOrderings orderings)
  | receive (a : Artifact) (files : List Source) : Public net (receive a files)
  | prepare : Public net prepare
  | compile : Public net compile

/-- The compilations of a network that are started and taken further from outside, whether a step
fails or not. -/
inductive Reachable (net : Network) : Compilation → Prop
  | start {settings : Settings} {names : FileNames} {c : Compilation}
      (start : start settings names net = .ok c) : Reachable net c
  | rename {c : Compilation} (names : FileNames) (reached : Reachable net c) :
      Reachable net { c with files := names }
  | step {c : Compilation} {s : Step Unit} (step : Public net s) (reached : Reachable net c) :
      Reachable net (after s c)

theorem Public.keeps {s : Step Unit} (h : Public net s) : Keeps net s := by
  cases h with
  | setPartitions ofSets => exact keeps_setPartitions ofSets
  | setOrderings => exact keeps_setOrderings
  | receive => exact keeps_receive
  | prepare => exact keeps_prepare
  | compile => exact keeps_compile

theorem Reachable.of (h : Reachable net c) : c.Of net := by
  induction h with
  | start h => exact of_start h
  | rename names _ ih => exact ih.of_core rfl
  | step hs _ ih => exact hs.keeps _ ih

/-! ## Reading in a store -/

/-- Files are read one after the other. -/
theorem inStore_readSources {α : Type} {store : Store} {paths : List String}
    {f : List Source → Interaction α} : ((readSources paths).bind f).inStore store =
      (f (paths.map fun path => ⟨path, store.read path⟩)).inStore store := by
  induction paths generalizing f with
  | nil => rfl
  | cons path paths ih =>
      have hread : (readSources (path :: paths)).bind f = .read path fun content =>
          (readSources paths).bind fun rest => f (⟨path, content⟩ :: rest) := by
        refine congrArg (Interaction.read path) (funext fun content => ?_)
        exact Interaction.bind_assoc (x := readSources paths)
          (f := fun rest => .done (⟨path, content⟩ :: rest)) (g := f)
      rw [hread, Interaction.inStore, ih, List.map_cons]

/-- **Reading settles on every content of the files.** Whatever has been done with the compilation
of a network that was read from a file, reading an artifact changes no file. If it succeeds, there
are no orderings or those of the partitions; an error leaves the compilation as it was. There is one
fault, and it leaves the compilation as it was too: a file of literals lists the number zero. -/
theorem readArtifact_settles (h : Network.parse file text = .ok net) (hc : Reachable net c)
    (a : Artifact) (store : Store) :
    ((c.readArtifact a).inStore store).store = store ∧
      match ((c.readArtifact a).inStore store).result with
      | .ok _ c' => c'.network = net ∧ c'.Ordered
      | .error (.error _) c' => c' = c
      | .error (.fault f) c' => c' = c ∧ f = .requirement ∧ a = .literalOrder ∧
          ∃ path ∈ c.sources a, Source.ListsZero ⟨path, store.read path⟩ := by
  have hnet := (Network.accepted_of_parse h).closed
  have hread : (c.readArtifact a).inStore store = ⟨(receive a ((c.sources a).map fun path =>
      ⟨path, store.read path⟩)).run c, store, []⟩ :=
    inStore_readSources (f := fun files => .done ((receive a files).run c))
  have hpaths : ((c.sources a).map fun path => Source.mk path (store.read path)).map (·.path) =
      c.sources a := by
    rw [List.map_map]
    exact List.map_id' _
  have hsettles := settles_receive hnet hc.of hpaths
  rw [hread]
  refine ⟨rfl, ?_⟩
  dsimp only
  revert hsettles
  generalize (receive a _).run c = r
  intro hsettles
  match r, hsettles with
  | .ok _ _, hof => exact ⟨hof.network, hof.orderings⟩
  | .error (.error _) _, hsame => exact hsame
  | .error (.fault _) _, ⟨hsame, hfault, ha, s, hs, hzero⟩ =>
      obtain ⟨path, hpath, rfl⟩ := List.mem_map.1 hs
      exact ⟨hsame, hfault, ha, path, hpath, hzero⟩

end Compiler.Compilation
end BayesCircuit
