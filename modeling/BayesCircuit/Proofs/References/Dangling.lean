import BayesCircuit.Proofs.Decision.Driver
import BayesCircuit.Proofs.Decision.Forward
import BayesCircuit.Proofs.References.Session
import BayesCircuit.Proofs.References.Steady

/-!
# No handle dangles

In every state of the driver, the unique table lists nodes under their keys, what the pass has
recorded is a terminal or has a reference, and every edge leads to a node that is there
(`build_no_dangling`). A step keeps what is known of a state (`coherent_step`), so all states that
the driver reaches have it (`Coherent.reaches`).

A frame below the last one waits for a child of its node. `Waiting` says what the edges of these
nodes are meanwhile, and that the nodes are different ones: when a frame is done and its node is
freed for a twin, the nodes of the other frames are still there.
-/

namespace BayesCircuit.Decision

open Collection Decision.Action Driver

variable {σ : Type} {E : Engine σ} {I : σ → Prop} {m m' : Manager}
variable {ext : Handle → Nat} {old : Handle → Option Node.Key}
variable {s : Set Handle} {h c : Handle} {k : Node.Key} {table : Table} {found : Cofactor}
variable {slot : Slot} {below : List Frame} {level : Nat} {node root : Handle} {p : Progress σ}
variable {d : Driver σ} {ordering : List Literal} {collapse expired : Bool}

/-! ## Terminals -/

/-- The nodes of the terminals, as they are made. -/
def terminals (h : Handle) : Option Node :=
  if h = Handle.true' then some Node.trueNode
  else if h = Handle.false' then some Node.falseNode
  else none

theorem get?_start_eq (literalVariables : Array Variable) (bits : Nat) :
    (Manager.start literalVariables bits).arena.get? = terminals := by
  funext h
  exact Manager.get?_start

theorem bare_terminals : Bare terminals :=
  get?_start_eq #[] 0 ▸ Session.bare_start #[] 0

/-- The edges of the terminals lead to terminals. -/
theorem isTerminal_of_terminals {n : Node} (hn : terminals h = some n) :
    n.high.isTerminal = true ∧ n.low.isTerminal = true := by
  unfold terminals at hn
  split at hn
  · cases hn
    exact ⟨rfl, rfl⟩
  · split at hn
    · cases hn
      exact ⟨rfl, rfl⟩
    · cases hn

theorem exists_denotes_of_terminal {f : Handle → Option Node.Key} (hh : h.isTerminal = true) :
    ∃ D, Denotes f h D := by
  obtain rfl | rfl := isTerminal_iff.1 hh
  · exact ⟨_, .false'⟩
  · exact ⟨_, .true'⟩

/-- The nodes from before a pass are as they were, and the edges of terminals lead to terminals. -/
structure Founded (old : Handle → Option Node.Key) (m : Manager) : Prop where
  kept : ∀ {h k}, old h = some k → m.key? h = some k
  leaf : ∀ {h : Handle} {n : Node}, h.isTerminal = true → m.arena.get? h = some n →
    n.high.isTerminal = true ∧ n.low.isTerminal = true

theorem Steady.founded (S : Steady terminals ext old s table m) : Founded old m where
  kept := S.kept
  leaf {h n} hh hn := by
    obtain ⟨n', hn'⟩ := Option.isSome_iff_exists.1 (S.heap.terminal h hh)
    obtain rfl := Option.some.inj (hn.symm.trans (S.heap.kept hn'))
    exact isTerminal_of_terminals hn'

/-- The children of a diagram from before the pass are such diagrams. -/
theorem Founded.of_node (hR : Founded old m) {D : Diagram} (hD : Denotes old h D) {n : Node}
    (hn : m.node h = .ok n) : (∃ H, Denotes old n.high H) ∧ ∃ L, Denotes old n.low L := by
  have hget := Arena.get_eq_ok_iff.1 hn
  cases hh : h.isTerminal with
  | true =>
      obtain ⟨hhigh, hlow⟩ := hR.leaf hh hget
      exact ⟨exists_denotes_of_terminal hhigh, exists_denotes_of_terminal hlow⟩
  | false =>
      obtain ⟨k, H, L, hk, hH, hL, -⟩ := hD.cases_node hh
      obtain rfl := Option.some.inj ((hR.kept hk).symm.trans (key?_of_get? hget))
      exact ⟨⟨H, hH⟩, ⟨L, hL⟩⟩

/-! ## Engines -/

/-- While a condition holds of its state, an engine leaves the nodes alone and copies diagrams from
before the pass only. What it is given is what it records. -/
structure Engine.Grounded (E : Engine σ) (old : Handle → Option Node.Key) (I : σ → Prop) :
    Prop where
  condition : ∀ {e l following holds m}, I e → Founded old m →
    Gives (E.condition e l following holds) m fun r m' => Unmoved m m' ∧ I r.2.2
  undo : ∀ {e}, I e → I (E.undo e)
  trivial : ∀ {e c}, I e → E.trivial e = .ok c → ∃ D, Denotes old c D
  record : ∀ {e c m}, Gives (E.record e c) m fun _ m' => m'.arena = m.arena ∧
    ∀ {p : Handle × Handle} {v : Handle}, m'.products.entries[p]? = some v →
      m.products.entries[p]? = some v ∨ v = c

/-- What is recorded is referred to. -/
theorem Engine.Grounded.carries (hE : E.Grounded old I) {e : σ} (hc : m.Refers c) :
    Gives (E.record e c) m fun _ m' => m'.arena = m.arena ∧ Carries m m' := by
  refine Gives.mono hE.record fun _ m' hq => ?_
  obtain ⟨ha, hrec⟩ := hq
  refine ⟨ha, fun p v hv => ⟨(hrec hv).imp_right fun he => ?_, fun hrefs => hrefs.congr ha⟩⟩
  rw [he]
  exact hc.congr ha

theorem Rows.grounded (old : Handle → Option Node.Key) :
    Rows.engine.Grounded old fun _ => True where
  condition _ _ := Gives.mono Rows.passive.condition fun _ _ hq => ⟨hq.1, trivial⟩
  undo _ := trivial
  trivial _ hc := by
    cases hc
    exact ⟨_, .true'⟩
  record := Gives.pure ⟨rfl, fun hv => Or.inl hv⟩

namespace Product

variable {q q' : Product} {side : Side} {l : Literal} {steps : List Step}

/-- All nodes that the sides have reached are diagrams from before the pass. -/
def Stays (old : Handle → Option Node.Key) (q : Product) : Prop :=
  ∀ step ∈ q.steps, ∀ side, ∃ D, Denotes old (step.nodes.at' side) D

theorem exists_of_leftNode (hg : leftNode side steps = some h) :
    ∃ step ∈ steps, step.nodes.at' side = h := by
  induction steps with
  | nil => cases hg
  | cons step steps ih =>
      cases steps with
      | nil => cases hg
      | cons previous rest =>
          rw [leftNode] at hg
          split at hg
          · obtain ⟨step', hmem, hnode⟩ := ih hg
            exact ⟨step', List.mem_cons_of_mem _ hmem, hnode⟩
          · split at hg
            · exact ⟨previous, by simp, Option.some.inj hg⟩
            · cases hg

theorem exists_of_jumpFrom (hj : jumpFrom m side l steps = .ok (some h)) :
    ∃ step ∈ steps, step.nodes.at' side = h := by
  rw [jumpFrom_eq] at hj
  split at hj
  · cases hj
  · rename_i g hg
    obtain ⟨step, hmem, hnode⟩ := exists_of_leftNode hg
    refine ⟨step, hmem, ?_⟩
    cases hn : m.node g with
    | error e =>
        rw [hn] at hj
        cases hj
    | ok n =>
        rw [hn] at hj
        simp only [bind, Except.bind, pure, Except.pure, Except.ok.injEq] at hj
        split at hj
        · rw [hnode]
          exact Option.some.inj hj
        · cases hj

theorem Stays.advance (hq : q.Stays old) (hR : Founded old m) (hh : ∃ D, Denotes old h D)
    {ws : Weights} (hrun : q.advance m l side h = .ok (some (c, ws))) : ∃ D, Denotes old c D := by
  have hhigh : ∀ {g : Handle}, (∃ D, Denotes old g D) → (do
      let n ← m.node g
      return some (n.high, n.weights) : Outcome (Option (Handle × Weights))) = .ok (some (c, ws)) →
      ∃ D, Denotes old c D := by
    intro g hg hrun
    cases hn : m.node g with
    | error e =>
        rw [hn] at hrun
        cases hrun
    | ok n =>
        rw [hn] at hrun
        cases hrun
        obtain ⟨D, hD⟩ := hg
        exact (hR.of_node hD hn).1
  unfold Product.advance at hrun
  extract_lets next at hrun
  have hnext : ∀ tested, next tested = .ok (some (c, ws)) → ∃ D, Denotes old c D := by
    intro tested hrun
    simp only [next] at hrun
    split at hrun
    · exact hhigh hh hrun
    split at hrun
    · cases hjump : jumpFrom m side l q.steps with
      | error e =>
          rw [hjump] at hrun
          cases hrun
      | ok r =>
          rw [hjump] at hrun
          cases r with
          | none => cases hrun
          | some g =>
              obtain ⟨step, hmem, hnode⟩ := exists_of_jumpFrom hjump
              exact hhigh (hnode ▸ hq step hmem side) hrun
    · cases hrun
  split at hrun
  · exact hnext false hrun
  · cases hn : m.node h with
    | error e =>
        rw [hn] at hrun
        cases hrun
    | ok n =>
        rw [hn] at hrun
        exact hnext _ hrun

theorem exists_of_descend (hR : Founded old m) (hh : ∃ D, Denotes old h D) {b : Bool}
    (hrun : Product.descend m l h = .ok (c, b)) : ∃ D, Denotes old c D := by
  unfold Product.descend at hrun
  split at hrun
  · cases hrun
    exact hh
  cases hn : m.node h with
  | error e =>
      rw [hn] at hrun
      cases hrun
  | ok n =>
      rw [hn] at hrun
      simp only [bind, Except.bind, pure, Except.pure, Except.ok.injEq] at hrun
      split at hrun
      · cases hrun
        obtain ⟨D, hD⟩ := hh
        exact (hR.of_node hD hn).2
      · cases hrun
        exact hh

/-- A step to nodes from before the pass. -/
theorem Stays.push (hq : q.Stays old) {a b : Handle} (viaLow : Both Bool)
    (ha : ∃ D, Denotes old a D) (hb : ∃ D, Denotes old b D) : Stays old { q with steps := ⟨⟨a, b⟩, viaLow⟩ :: q.steps } := by
  intro step hstep side
  obtain rfl | hstep := List.mem_cons.1 hstep
  · cases side with
    | left => exact ha
    | right => exact hb
  · exact hq step hstep side

theorem Stays.of_top (hq : q.Stays old) {top : Step} (htop : q.top = .ok top) :
    ∀ side, ∃ D, Denotes old (top.nodes.at' side) D := by
  unfold Product.top at htop
  cases hsteps : q.steps with
  | nil =>
      rw [hsteps] at htop
      cases htop
  | cons step steps =>
      rw [hsteps] at htop
      cases htop
      exact hq _ (hsteps ▸ List.mem_cons_self)

theorem Stays.conditionHigh (hq : q.Stays old) (hR : Founded old m) :
    Gives (q.conditionHigh l) m fun r _ => r.2.2.Stays old := by
  unfold Product.conditionHigh
  refine Gives.get (Gives.lift fun top htop => Gives.lift fun left hleft =>
    Gives.lift fun right hright => ?_)
  split
  · exact Gives.pure hq
  have hnode := hq.of_top htop
  have hside : ∀ (side : Side) {r : Option (Handle × Weights)},
      q.advance m l side (top.nodes.at' side) = .ok r →
      ∃ D, Denotes old (r.elim (top.nodes.at' side) (·.1)) D := by
    intro side r hr
    cases r with
    | none => exact hnode side
    | some r => exact hq.advance hR (hnode side) hr
  have hpush := hq.push ⟨false, false⟩ (hside .left hleft) (hside .right hright)
  dsimp only
  split
  · exact Gives.pure hpush
  split
  · exact Gives.pure hpush
  refine Gives.bind (P := fun _ _ => True) (fun _ _ _ => True.intro) fun r m' _ => ?_
  split
  · exact Gives.pure hpush
  · split
    · exact Gives.pure hpush
    · exact Gives.pure hpush

theorem Stays.conditionLow (hq : q.Stays old) (hR : Founded old m) {following : Option Literal}
    (hrun : q.conditionLow m l following = .ok (found, q')) : q'.Stays old := by
  unfold Product.conditionLow at hrun
  simp only [bind, Except.bind] at hrun
  split at hrun
  · cases hrun
  rename_i top htop
  split at hrun
  · cases hrun
  rename_i left hleft
  split at hrun
  · cases hrun
  rename_i right hright
  split at hrun
  · cases hrun
  split at hrun
  · cases hrun
  cases hrun
  have hnode := hq.of_top htop
  exact hq.push _ (exists_of_descend hR (hnode .left) hleft)
    (exists_of_descend hR (hnode .right) hright)

theorem stays_start {a b : Handle} {A B : Diagram} {collapsed : Bool} (hA : Denotes old a A)
    (hB : Denotes old b B) : Stays old (.start a b collapsed) := by
  intro step hstep side
  obtain rfl := List.mem_singleton.1 hstep
  cases side with
  | left => exact ⟨A, hA⟩
  | right => exact ⟨B, hB⟩

theorem grounded (old : Handle → Option Node.Key) :
    Product.engine.Grounded old (Stays old) where
  condition {q l following holds m} hq hR := by
    refine Gives.mono (Gives.and Product.passive.condition ?_) fun _ _ hr => ⟨hr.1.1, hr.2⟩
    show Gives (Product.condition q l following holds) m _
    unfold Product.condition
    split
    · exact hq.conditionHigh hR
    · refine Gives.get (Gives.lift fun r hr => Gives.pure ?_)
      exact hq.conditionLow hR hr
  undo hq step hstep := hq step (List.mem_of_mem_tail hstep)
  trivial {q c} hq hc := by
    change Product.trivial q = .ok c at hc
    unfold Product.trivial at hc
    cases htop : q.top with
    | error e =>
        rw [htop] at hc
        cases hc
    | ok top =>
        rw [htop] at hc
        cases hc
        split
        · exact hq.of_top htop .right
        · exact hq.of_top htop .left
  record {q c m} := by
    show Gives (Product.record q c) m _
    unfold Product.record
    refine Gives.lift fun top _ => ?_
    intro _ _ hrun
    cases hrun
    refine ⟨rfl, fun {p v} hv => ?_⟩
    simp only [Memo.insertIfNew] at hv
    rw [Std.HashMap.getElem?_insertIfNew] at hv
    split at hv
    · exact Or.inr (Option.some.inj hv).symm
    · exact Or.inl hv

end Product

/-! ## The states of the driver -/

/-- What the edges of the nodes of waiting frames are, which are the nodes of the set. -/
inductive Waiting (m : Manager) : Slot → List Frame → Set Handle → Prop
  | root : Waiting m .root [] ∅
  | high {slot : Slot} {level : Nat} {h : Handle} {k : Node.Key} {below : List Frame}
      {s : Set Handle} : m.key? h = some k → k.high.isTerminal = true → k.low.isTerminal = true →
      h ∉ s → Waiting m slot below s →
      Waiting m (.high h) (⟨slot, level, h, .negative⟩ :: below) (insert h s)
  | low {slot : Slot} {level : Nat} {h : Handle} {k : Node.Key} {below : List Frame}
      {s : Set Handle} : m.key? h = some k → k.low.isTerminal = true →
      h ∉ s → Waiting m slot below s →
      Waiting m (.low h) (⟨slot, level, h, .canonical⟩ :: below) (insert h s)

theorem Waiting.congr (W : Waiting m slot below s) (hsame : ∀ {g}, g ∈ s → m'.key? g = m.key? g) :
    Waiting m' slot below s := by
  induction W with
  | root => exact .root
  | high hk hhigh hlow hs _ ih =>
      exact .high (by rw [hsame (Set.mem_insert _ _), hk]) hhigh hlow hs
        (ih fun hg => hsame (Set.mem_insert_of_mem _ hg))
  | low hk hlow hs _ ih =>
      exact .low (by rw [hsame (Set.mem_insert _ _), hk]) hlow hs
        (ih fun hg => hsame (Set.mem_insert_of_mem _ hg))

/-- What is known of a state between two steps. The holders change at the last step, when the
caller gets the root. -/
inductive Coherent (old : Handle → Option Node.Key)
    (I : σ → Prop) : Driver σ → Manager → Prop
  | done {ext : Handle → Nat} {p : Progress σ} {root : Handle} {m : Manager} :
      Steady terminals ext old ∅ p.table m → Coherent old I ⟨[], p, root⟩ m
  | positive {ext : Handle → Nat} {slot : Slot} {level : Nat} {node root : Handle}
      {below : List Frame} {s : Set Handle} {p : Progress σ} {m : Manager} :
      Waiting m slot below s → I p.engine → Steady terminals ext old s p.table m →
      Coherent old I ⟨⟨slot, level, node, .positive⟩ :: below, p, root⟩ m
  | negative {ext : Handle → Nat} {slot : Slot} {level : Nat} {h root : Handle} {k : Node.Key}
      {below : List Frame} {s : Set Handle} {p : Progress σ} {m : Manager} :
      m.key? h = some k → k.low.isTerminal = true → h ∉ s → Waiting m slot below s →
      I p.engine → Steady terminals ext old (insert h s) p.table m →
      Coherent old I ⟨⟨slot, level, h, .negative⟩ :: below, p, root⟩ m
  | canonical {ext : Handle → Nat} {slot : Slot} {level : Nat} {h root : Handle}
      {below : List Frame} {s : Set Handle} {p : Progress σ} {m : Manager} :
      h ∉ s → Waiting m slot below s → I p.engine →
      Steady terminals ext old (insert h s) p.table m →
      Coherent old I ⟨⟨slot, level, h, .canonical⟩ :: below, p, root⟩ m

/-- In every such state, some nodes are open. -/
theorem Coherent.steady (C : Coherent old I d m) :
    ∃ ext s, Steady terminals ext old s d.progress.table m := by
  cases C with
  | done S => exact ⟨_, _, S⟩
  | positive _ _ S => exact ⟨_, _, S⟩
  | negative _ _ _ _ _ S => exact ⟨_, _, S⟩
  | canonical _ _ _ S => exact ⟨_, _, S⟩

/-! ## Answers without a frame -/

/-- A child has been found for an open node. -/
structure Answered (ext : Handle → Nat)
    (old : Handle → Option Node.Key) (I : σ → Prop) (s : Set Handle) (h : Handle) (k : Node.Key)
    (m : Manager) (p : Progress σ) (m' : Manager) : Prop where
  key : m'.key? h = some k
  steady : Steady terminals ext old (insert h s) p.table m'
  engine : I p.engine
  continues : Continues s m m'

theorem answered_high (hE : E.Grounded old I) (hs : h ∉ s)
    (hk : m.key? h = some k) (hold : k.high.isTerminal = true) : ∀ {p : Progress σ},
    I p.engine → Steady terminals ext old (insert h s) p.table m →
    Gives (answerHigh E h found p) m fun p' m' =>
      ∃ c, Answered ext old I s h { k with high := c } m p' m'
  | ⟨table, engine, steps⟩, hI, S => by
      have hset : ∀ {c : Handle}, Gives (setHigh h c >>= fun _ =>
          pure (⟨table, E.undo engine, steps⟩ : Progress σ)) m fun p' m' =>
          ∃ c, Answered ext old I s h { k with high := c } m p' m' := by
        intro c
        refine Gives.bind (steady_setHigh bare_terminals S hs hk hold) fun _ m₁ hq => ?_
        obtain ⟨hkey, -, S₁, C₁⟩ := hq
        exact Gives.pure ⟨c, by rw [hkey, Function.update_self], S₁, hE.undo hI, C₁⟩
      cases found with
      | trivial =>
          refine Gives.lift fun root hroot => ?_
          obtain ⟨D, hD⟩ := hE.trivial hI hroot
          refine Gives.bind (steady_copy bare_terminals S hD) fun r m₁ C => ?_
          have C₁ := (C.continues S).mono (Set.subset_insert h s)
          refine Gives.bind (steady_setHigh bare_terminals C.steady hs (C.stays hk) hold) fun _ m₂ hq => ?_
          obtain ⟨hkey, hrefs, S₂, C₂⟩ := hq
          refine Gives.bind (hE.carries hrefs) fun _ m₃ hq => ?_
          obtain ⟨ha, hcarries⟩ := hq
          have hkey₃ : m₃.key? = m₂.key? := key?_congr ha
          refine Gives.pure ⟨r.1, ?_, S₂.congr ha, hE.undo hI,
            (C₁.trans C₂).trans ⟨hcarries, fun _ => by rw [hkey₃]⟩⟩
          rw [hkey₃, hkey, Function.update_self]
      | _ => exact hset

theorem answered_low (hE : E.Grounded old I) (hs : h ∉ s)
    (hk : m.key? h = some k) (hold : k.low.isTerminal = true) : ∀ {p : Progress σ},
    I p.engine → Steady terminals ext old (insert h s) p.table m →
    Gives (answerLow E h level found p) m fun p' m' =>
      ∃ c, Answered ext old I s h { k with low := c } m p' m'
  | ⟨table, engine, steps⟩, hI, S => by
      have hset : ∀ {c : Handle}, c.isTerminal = true → Gives (setLow h c >>= fun _ =>
          pure (⟨table, E.undo engine, steps⟩ : Progress σ)) m fun p' m' =>
          ∃ c, Answered ext old I s h { k with low := c } m p' m' := by
        intro c hc
        refine Gives.bind (steady_setLow_of_terminal bare_terminals S hs hk hold (Or.inl hc))
          fun _ m₁ hq => ?_
        obtain ⟨hkey, S₁, C₁⟩ := hq
        exact Gives.pure ⟨c, by rw [hkey, Function.update_self], S₁, hE.undo hI, C₁⟩
      cases found with
      | satisfiable => exact hset rfl
      | unsatisfiable => exact hset rfl
      | trivial =>
          refine Gives.lift fun root hroot => ?_
          obtain ⟨D, hD⟩ := hE.trivial hI hroot
          refine Gives.bind (steady_copy bare_terminals S hD) fun r m₁ C => ?_
          have C₁ := (C.continues S).mono (Set.subset_insert h s)
          refine Gives.bind (steady_setLow_of_terminal bare_terminals C.steady hs (C.stays hk) hold
            C.linkable.1) fun _ m₂ hq => ?_
          obtain ⟨hkey, S₂, C₂⟩ := hq
          exact Gives.pure ⟨r.1, by rw [hkey, Function.update_self], S₂, hE.undo hI, C₁.trans C₂⟩
      | _ => exact Gives.bind_throw

/-! ## One step -/

/-- A computation that starts in a state of the driver leads to such a state, and loses no
reference of what is recorded. -/
def Proceeds (old : Handle → Option Node.Key) (I : σ → Prop)
    (m : Manager) (x : Action (Driver σ)) : Prop :=
  Gives x m fun d' m' => Coherent old I d' m' ∧ Carries m m'

theorem coherent_stepPositive (hE : E.Grounded old I) {f : Frame}
    (W : Waiting m f.slot below s) (hI : I d.progress.engine)
    (S : Steady terminals ext old s d.progress.table m) (hf : f.phase = .positive) :
    Proceeds old I m (stepPositive E ordering expired f below d) := by
  obtain ⟨slot, level, node, phase⟩ := f
  obtain rfl : phase = .positive := hf
  unfold Proceeds stepPositive
  refine Gives.bind gives_tick fun steps m₀ hm₀ => ?_
  obtain rfl : m = m₀ := hm₀.symm
  split
  · exact Gives.throw
  rename_i l _
  refine Gives.bind (hE.condition hI S.founded) fun r m₁ hq => ?_
  obtain ⟨found, ws, engine⟩ := r
  obtain ⟨hu, hI₁⟩ := hq
  have S₁ := S.congr hu.arena
  have W₁ : Waiting m₁ slot below s := W.congr fun _ => by rw [hu.key?]
  have C₁ : Carries m m₁ := .of_unmoved hu
  have hmake : ∀ {ws : Weights} {next : Handle → Action (Driver σ)},
      (∀ h k m₂, m₂.key? h = some k → k.high.isTerminal = true → k.low.isTerminal = true → h ∉ s →
        Waiting m₂ slot below s → Steady terminals ext old (insert h s) d.progress.table m₂ →
        Proceeds old I m₂ (next h)) →
      Gives (create l ws >>= next) m₁ fun d' m' =>
        Coherent old I d' m' ∧ Carries m m' := by
    intro ws next hnext
    refine Gives.bind (steady_create bare_terminals S₁) fun h m₂ hq => ?_
    obtain ⟨-, hnone, hkey, S₂, C₂⟩ := hq
    refine Gives.mono (hnext h _ m₂ (by rw [hkey, Function.update_self]) rfl rfl
      (S₁.not_mem_of_dead hnone) (W₁.congr C₂.same) S₂) fun d' m' hq => ?_
    exact ⟨hq.1, (C₁.trans C₂.carries).trans hq.2⟩
  cases found with
  | redundant => exact Gives.pure ⟨.positive W₁ hI₁ S₁, C₁⟩
  | unsatisfied =>
      refine hmake fun h k m₂ hk hhigh hlow hs W₂ S₂ => Gives.pure ⟨?_, .refl _⟩
      exact .positive (.high hk hhigh hlow hs W₂) hI₁ S₂
  | _ =>
      refine hmake fun h k m₂ hk hhigh hlow hs W₂ S₂ => ?_
      refine Gives.bind (answered_high hE hs hk hhigh hI₁ S₂) fun p' m₃ hq => ?_
      obtain ⟨c, A⟩ := hq
      exact Gives.pure ⟨.negative A.key hlow hs (W₂.congr A.continues.same) A.engine A.steady,
        A.continues.carries⟩

theorem coherent_stepNegative (hE : E.Grounded old I) {f : Frame}
    (hk : m.key? f.node = some k) (hlow : k.low.isTerminal = true) (hs : f.node ∉ s)
    (W : Waiting m f.slot below s) (hI : I d.progress.engine)
    (S : Steady terminals ext old (insert f.node s) d.progress.table m) :
    Proceeds old I m (stepNegative E ordering expired f below d) := by
  unfold Proceeds stepNegative
  refine Gives.bind gives_tick fun steps m₀ hm₀ => ?_
  obtain rfl : m = m₀ := hm₀.symm
  refine Gives.lift fun l _ => ?_
  refine Gives.bind (hE.condition hI S.founded) fun r m₁ hq => ?_
  obtain ⟨found, ws, engine⟩ := r
  obtain ⟨hu, hI₁⟩ := hq
  have S₁ := S.congr hu.arena
  have W₁ : Waiting m₁ f.slot below s := W.congr fun _ => by rw [hu.key?]
  have C₁ : Carries m m₁ := .of_unmoved hu
  rw [← hu.key?] at hk
  cases found with
  | unsatisfied => exact Gives.pure ⟨.positive (.low hk hlow hs W₁) hI₁ S₁, C₁⟩
  | _ =>
      refine Gives.bind (answered_low hE hs hk hlow hI₁ S₁) fun p' m₂ hq => ?_
      obtain ⟨c, A⟩ := hq
      exact Gives.pure ⟨.canonical hs (W₁.congr A.continues.same) A.engine A.steady,
        C₁.trans A.continues.carries⟩

/-- The result for a frame goes to the frame below it, whose node it becomes a child of. -/
theorem coherent_deliver (hE : E.Grounded old I) (W : Waiting m slot below s)
    (hI : I p.engine) (S : Steady terminals ext old s p.table m) (hc : Own old s c) :
    Proceeds old I m (deliver E c slot ⟨below, p, root⟩) := by
  unfold Proceeds
  cases W with
  | root =>
      refine Gives.bind (steady_reference bare_terminals S) fun _ m₁ hq => ?_
      exact Gives.pure ⟨.done hq.1, hq.2⟩
  | @high slot level h k below s hk hhigh hlow hs W =>
      refine Gives.bind (steady_setHigh bare_terminals S hs hk hhigh) fun _ m₁ hq => ?_
      obtain ⟨hkey, hrefs, S₁, C₁⟩ := hq
      refine Gives.bind (hE.carries hrefs) fun _ m₂ hq => ?_
      obtain ⟨ha, hcarries⟩ := hq
      have hkey₂ : m₂.key? = m₁.key? := key?_congr ha
      have hk₂ : m₂.key? h = some { k with high := c } := by
        rw [hkey₂, hkey, Function.update_self]
      refine Gives.pure ⟨.negative hk₂ hlow hs (W.congr fun hg => ?_) (hE.undo hI) (S₁.congr ha),
        C₁.carries.trans hcarries⟩
      rw [hkey₂, C₁.same hg]
  | low hk hlow hs W =>
      refine Gives.bind (steady_setLow_of_terminal bare_terminals S hs hk hlow hc) fun _ m₁ hq => ?_
      obtain ⟨-, S₁, C₁⟩ := hq
      exact Gives.pure ⟨.canonical hs (W.congr C₁.same) (hE.undo hI) S₁, C₁.carries⟩

theorem coherent_stepCanonical (hE : E.Grounded old I) {f : Frame}
    (hs : f.node ∉ s) (W : Waiting m f.slot below s) (hI : I d.progress.engine)
    (S : Steady terminals ext old (insert f.node s) d.progress.table m) :
    Proceeds old I m (stepCanonical E collapse expired f below d) := by
  unfold Proceeds stepCanonical
  refine Gives.bind (steady_finish bare_terminals hs S) fun r m₁ hq => ?_
  obtain ⟨S₁, hown, hengine, C₁⟩ := hq
  refine Gives.mono (coherent_deliver hE (W.congr C₁.same) (hengine ▸ hI) S₁ hown)
    fun d' m' hq => ⟨hq.1, C₁.carries.trans hq.2⟩

theorem coherent_step (hE : E.Grounded old I) (C : Coherent old I d m) :
    Proceeds old I m (d.step E ordering collapse expired) := by
  cases C with
  | done S => exact Gives.pure ⟨.done S, .refl _⟩
  | positive W hI S => exact coherent_stepPositive hE W hI S rfl
  | negative hk hlow hs W hI S => exact coherent_stepNegative hE hk hlow hs W hI S
  | canonical hs W hI S => exact coherent_stepCanonical hE hs W hI S

/-! ## All states of a pass -/

/-- The driver keeps what is known of its states, and what the pass has recorded referred to. -/
theorem Coherent.reaches (hE : E.Grounded old I)
    {s t : Driver σ × Manager} (C : Coherent old I s.1 s.2)
    (hst : Reaches E ordering collapse expired s t) :
    Coherent old I t.1 t.2 ∧ Carries s.2 t.2 := by
  induction hst with
  | refl => exact ⟨C, .refl _⟩
  | tail _ hnext ih =>
      obtain ⟨C', hcarries⟩ := ih
      obtain ⟨C'', hcarries'⟩ := coherent_step hE C' _ _ hnext.2
      exact ⟨C'', hcarries.trans hcarries'⟩

/-- A pass starts without frames but the first one. -/
theorem coherent_start (H : Heap terminals ext m) (hnew : newTable.run m = .ok table m) {e : σ}
    (hI : I e) : Coherent m.key? I (Driver.start table e) m := by
  obtain ⟨-, hvalid, hempty⟩ := gives_newTable_empty table m hnew
  have hnone : ∀ {k c}, table.get? k ≠ some c := fun {k c} hc => by
    rw [hempty] at hc
    cases hc
  refine .positive .root hI ⟨.of_empty hvalid hempty, H, fun hc => absurd hc hnone,
    fun hg => absurd hg (Set.notMem_empty _), id, fun _ hnew hk => ?_⟩
  rw [hnew] at hk
  cases hk

/-- The unique table lists nodes under their keys, what was recorded after an earlier state is a
terminal or has a reference, and no edge leads to a free slot. -/
structure NoDangling (earlier now : Driver σ × Manager) : Prop where
  listed : ∀ {k c}, now.1.progress.table.get? k = some c →
    c.isTerminal = false ∧ now.2.key? c = some k
  recorded : ∀ {p : Handle × Handle} {c : Handle}, now.2.products.entries[p]? = some c →
    earlier.2.products.entries[p]? ≠ some c → now.2.Refers c
  edge : ∀ {h n}, now.2.arena.get? h = some n →
    (now.2.arena.get? n.high).isSome ∧ (now.2.arena.get? n.low).isSome

/-- Two states of a pass, of which the first is no later than the second. -/
def Passes (E : Engine σ) (e : σ) (ordering : List Literal) (collapse expired : Bool) (m : Manager)
    (earlier now : Driver σ × Manager) : Prop :=
  ∃ table, newTable.run m = .ok table m ∧
    Reaches E ordering collapse expired (Driver.start table e, m) earlier ∧
    Reaches E ordering collapse expired earlier now

theorem Steady.edge (S : Steady terminals ext old s table m) {n : Node}
    (hn : m.arena.get? h = some n) :
    (m.arena.get? n.high).isSome ∧ (m.arena.get? n.low).isSome := by
  have hterminal : ∀ {c : Handle}, c.isTerminal = true → (m.arena.get? c).isSome := by
    intro c hc
    obtain ⟨n', hn'⟩ := Option.isSome_iff_exists.1 (S.heap.terminal c hc)
    rw [S.heap.kept hn']
    rfl
  have hsound : ∀ {c : Handle}, Sound terminals m c → (m.arena.get? c).isSome := by
    intro c hc
    obtain ⟨n', hn'⟩ := S.heap.live hc
    rw [hn']
    rfl
  cases hh : h.isTerminal with
  | true =>
      obtain ⟨hhigh, hlow⟩ := S.founded.leaf hh hn
      exact ⟨hterminal hhigh, hterminal hlow⟩
  | false =>
      have hf := bare_terminals h hh
      exact ⟨hsound (S.heap.sound_high hn hf), hsound (S.heap.sound_low hn hf)⟩

theorem noDangling_of_passes (hE : E.Grounded m.key? I) (H : Heap terminals ext m) {e : σ}
    (hI : I e) {earlier now : Driver σ × Manager}
    (hpass : Passes E e ordering collapse expired m earlier now) : NoDangling earlier now := by
  obtain ⟨table, hnew, hearlier, hnow⟩ := hpass
  have C₀ := (Coherent.reaches hE (coherent_start H hnew hI) hearlier).1
  obtain ⟨C, hcarries⟩ := Coherent.reaches hE C₀ hnow
  obtain ⟨ext', s, S⟩ := C.steady
  refine ⟨S.entry, fun {p c} hc hnot => ?_, S.edge⟩
  exact (hcarries p c hc).1.resolve_left hnot

/-- In every state of a pass that builds the product of two diagrams or the diagram of a table, no
handle dangles. The manager must have its terminals and right counts, whoever holds what. -/
theorem build_no_dangling (H : Heap terminals ext m) (ordering : List Literal)
    (collapse expired : Bool) :
    (∀ (a b : Handle) (A B : Diagram) (collapsed : Bool) (earlier now : Driver Product × Manager),
      Denotes m.key? a A → Denotes m.key? b B →
      Passes Product.engine (.start a b collapsed) ordering collapse expired m earlier now →
      NoDangling earlier now) ∧
    ∀ (r : Rows) (earlier now : Driver Rows × Manager),
      Passes Rows.engine r ordering collapse expired m earlier now → NoDangling earlier now := by
  constructor
  · intro a b A B collapsed earlier now hA hB hpass
    exact noDangling_of_passes (Product.grounded m.key?) H (Product.stays_start hA hB) hpass
  · intro r earlier now hpass
    exact noDangling_of_passes (Rows.grounded m.key?) H trivial hpass

/-- The product of two tests is built, and no handle dangles in the end. -/
theorem build_no_dangling_twoTests : ∃ earlier now : Driver Product × Manager,
    Passes Product.engine (.start 2 3 true) [⟨1, by decide⟩, ⟨2, by decide⟩] true false
      Manager.twoTests earlier now ∧
    earlier.2 = Manager.twoTests ∧ now.1.frames = [] ∧ NoDangling earlier now := by
  have V : Manager.twoTests.Valid :=
    ((Manager.valid_start (by decide)).alloc (by decide) rfl).alloc (by decide) rfl
  have H : Heap terminals 0 Manager.twoTests := by
    have H₀ : Heap terminals 0 (Manager.start #[] 4) :=
      get?_start_eq #[] 4 ▸ Session.heap_start #[] 4
    exact ((H₀.alloc rfl (by decide) rfl rfl rfl rfl).2.2.1.alloc rfl (by decide) rfl rfl rfl
      rfl).2.2.1
  have ha : Manager.twoTests.Forward [⟨1, by decide⟩, ⟨2, by decide⟩] 2 :=
    .node [] rfl rfl rfl (.terminal rfl) (.terminal rfl)
  have hb : Manager.twoTests.Forward [⟨1, by decide⟩, ⟨2, by decide⟩] 3 :=
    .node [⟨1, by decide⟩] rfl rfl rfl (.terminal rfl) (.terminal rfl)
  obtain ⟨A, hA, hRA⟩ := ha.denotes (by decide)
  obtain ⟨B, hB, hRB⟩ := hb.denotes (by decide)
  have hother : Manager.twoTests.sameVariable 1 2 = false := rfl
  have hL : Layout (sameIf true Manager.twoTests.sameVariable)
      (singles [⟨1, by decide⟩, ⟨2, by decide⟩]) :=
    ⟨by decide, by simp [singles, Block.literals],
      by simp [singles, Block.literals, sameIf, hother]⟩
  obtain ⟨T, hT⟩ := Placed.exists_planned (Placed.between hL hRA) (Placed.between hL hRB)
  obtain ⟨c, m', hrun, -⟩ := conjoin_spec true V hL hA hB hRA hRB hT
  rw [flatten_singles] at hrun
  obtain ⟨table, m₀, hnew, rfl, -⟩ := V.newTable
  have hbuild : (build Product.engine (.start 2 3 true) [⟨1, by decide⟩, ⟨2, by decide⟩] true
      false).run Manager.twoTests = .ok c m' := hrun
  obtain ⟨d, hreach, hframes, -⟩ := (run_build_eq_ok_iff hnew).1 hbuild
  have hpass : Passes Product.engine (.start 2 3 true) [⟨1, by decide⟩, ⟨2, by decide⟩] true false
      Manager.twoTests (Driver.start table (.start 2 3 true), Manager.twoTests) (d, m') :=
    ⟨table, hnew, .refl, hreach⟩
  exact ⟨_, _, hpass, rfl, hframes,
    (build_no_dangling H _ true false).1 2 3 A B true _ _ hA hB hpass⟩

end BayesCircuit.Decision
