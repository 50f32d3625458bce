import BayesCircuit.Proofs.References.Construct

/-!
# Callers of a manager

A session is a manager together with what a caller owes it: the references that the caller holds,
and the nodes that the caller has left unattached. A run is a sequence of operations that succeed;
the caller may give up only references that he holds.

The counts are right after every operation of every run (`Run.exact`), whatever the caller does
with the edges: he may make a cycle, give a terminal edges, or merge with a table of another pass.
The edges of the terminals count like those of the other nodes; in the proof they count among the
holders.
-/

namespace BayesCircuit.Decision

open Collection Action

/-- Whether a decision node has neither edges nor holders. -/
def Manager.isUnattached (m : Manager) (h : Handle) : Bool :=
  !h.isTerminal && (m.arena.get? h).any (·.refs == 0)

/-- A manager, the references of a caller, and the nodes that he has left unattached. -/
structure Session where
  manager : Manager
  held : List Handle
  loose : List Handle

/-- What a caller can do. -/
inductive Operation where
  | create (l : Literal) (weights : Weights)
  | makeNode (l : Literal) (high low : Handle) (weights : Weights)
  | setHigh (h child : Handle)
  | setLow (h child : Handle)
  | reference (h : Handle)
  | dereference (h : Handle)
  | merge (table : Table) (h : Handle)
  | copy (table : Table) (root : Handle)
  | solve (rows : Rows) (ordering : List Literal) (collapse expired : Bool)
  | clause (row : List Literal) (w : Weight) (ordering : List Literal) (d : DomainClosure)
      (determinism : Bool)
  | conjoin (a b : Handle) (ordering : List Literal) (collapse expired : Bool)
  | collapse (root : Handle)
  | uncollapse (root : Handle) (ordering : List Literal)
  | release (root : Handle)
  | conjoinAll (queue : List Handle) (ordering : List Literal) (collapse expired : Bool)

/-- The references that the caller gets, and the nodes that may have become unattached by what he
did. -/
structure Effect where
  gained : List Handle := []
  loosened : List Handle := []

namespace Operation

/-- The references that the caller gives up. -/
def lost : Operation → List Handle
  | .dereference h => [h]
  | .collapse root => [root]
  | .release root => [root]
  | .conjoinAll queue _ _ _ => queue
  | _ => []

/-- The nodes that the caller gives up for their twins. -/
def merged : Operation → List Handle
  | .merge _ h => [h]
  | _ => []

/-- An operation with its effect for the caller. -/
def action : Operation → Action Effect
  | create l weights => do return { loosened := [← Decision.create l weights] }
  | makeNode l high low weights => do
      return { loosened := [← Decision.makeNode l high low weights] }
  | setHigh h child => do
      let old := (← nodeAt h).high
      Decision.setHigh h child
      return { loosened := [old] }
  | setLow h child => do
      let old := (← nodeAt h).low
      Decision.setLow h child
      return { loosened := [old] }
  | reference h => do
      Decision.reference h
      return { gained := [h] }
  | dereference h => do
      Decision.dereference h
      return { loosened := [h] }
  | merge table h => do
      let (c, _) ← Decision.merge table h
      return { loosened := [c] }
  | copy table root => do
      let (c, _) ← Decision.copy table root
      return { loosened := [c] }
  | solve rows ordering collapsed expired => do
      return { gained := [← Decision.solve rows ordering collapsed expired] }
  | clause row w ordering d determinism => do
      let (c, _) ← Decision.clause row w ordering d determinism
      return { gained := [c] }
  | conjoin a b ordering collapsed expired => do
      return { gained := [← Decision.conjoin a b ordering collapsed expired] }
  | collapse root => do return { gained := [← Decision.collapse root] }
  | uncollapse root ordering => do
      Decision.uncollapse root ordering
      return {}
  | release root => do
      Decision.release root
      return {}
  | conjoinAll queue ordering collapsed expired => do
      return { gained := [← Decision.conjoinAll queue ordering collapsed expired] }

/-- The caller holds what he gives up; terminals need no holders. What he merges is unattached. -/
def Allowed (o : Operation) (s : Session) : Prop :=
  (∀ h ∈ o.lost, Handle.isTerminal h = false → o.lost.count h ≤ s.held.count h) ∧
    ∀ h ∈ o.merged, Handle.isTerminal h = false → s.manager.isUnattached h = true

instance (o : Operation) (s : Session) : Decidable (o.Allowed s) :=
  inferInstanceAs (Decidable (_ ∧ _))

end Operation

namespace Session

/-- The session after an operation. -/
def perform (o : Operation) (s : Session) : Outcome Session :=
  match o.action.run s.manager with
  | .ok e m => .ok {
      manager := m
      held := e.gained ++ s.held.diff o.lost
      loose := (e.loosened ++ s.loose).filter m.isUnattached }
  | .error f _ => .error f

/-- A new manager, to which nobody owes anything. -/
def start (literalVariables : Array Variable) (tableBits : Nat) : Session :=
  ⟨.start literalVariables tableBits, [], []⟩

/-- A sequence of operations that succeed and meet a condition. -/
inductive Run (ok : Operation → Session → Prop) : Session → List Operation → Session → Prop
  | nil (s : Session) : Run ok s [] s
  | cons {o : Operation} {ops : List Operation} {s s' s'' : Session} :
      ok o s → s.perform o = .ok s' → Run ok s' ops s'' → Run ok s (o :: ops) s''

/-- Every decision node counts the edges that lead to it and its holders, no edge leads to a free
slot, and the terminals are there. -/
structure Exact (s : Session) : Prop where
  counted : ∀ {h : Handle} {n : Node}, s.manager.arena.get? h = some n → h.isTerminal = false →
    n.refs = edgesTo s.manager.key? s.manager.arena.size h + s.held.count h
  no_dangling : ∀ {h : Handle} {n : Node}, s.manager.arena.get? h = some n →
    (s.manager.arena.get? n.high).isSome ∧ (s.manager.arena.get? n.low).isSome
  terminals : ∀ h : Handle, h.isTerminal = true → (s.manager.arena.get? h).isSome

end Session

variable {m m' : Manager} {frozen frozen' : Handle → Option Node} {ext ext' : Handle → Nat}
variable {h c : Handle} {n : Node} {s s' s'' : Session} {ok : Operation → Session → Prop}

/-! ## The edges of the terminals -/

/-- The number of edges from the terminals to a handle. -/
def terminalEdges (frozen : Handle → Option Node) (h : Handle) : Nat :=
  (frozen Handle.false').elim 0 (·.key.edgesTo h) + (frozen Handle.true').elim 0 (·.key.edgesTo h)

/-- The holders of the terminals do not matter. -/
theorem Heap.congr_ext (H : Heap frozen ext m) (ext' : Handle → Nat)
    (he : ∀ h : Handle, h.isTerminal = false → ext' h = ext h) : Heap frozen ext' m where
  valid := H.valid
  terminal := H.terminal
  kept := H.kept
  literal_pos := H.literal_pos
  ascends := H.ascends
  sound_high := H.sound_high
  sound_low := H.sound_low
  counted hn hf := by rw [H.counted hn hf, he _ (H.not_terminal hf)]
  held {h} hn := by
    have hf : frozen h = none := by
      cases hf : frozen h with
      | none => rfl
      | some n =>
          rw [H.kept hf] at hn
          cases hn
    rw [he h (H.not_terminal hf), H.held hn]

theorem Heap.elim_terminal (H : Heap frozen ext m) {t : Handle} (ht : t.isTerminal = true) :
    (m.key? t).elim 0 (·.edgesTo h) = (frozen t).elim 0 (·.key.edgesTo h) := by
  obtain ⟨n, hn⟩ := Option.isSome_iff_exists.1 (H.terminal t ht)
  rw [hn, key?_of_get? (H.kept hn)]
  rfl

/-- The edges of all nodes are those of the young ones and those of the terminals. -/
theorem Heap.edgesTo_eq (H : Heap frozen ext m) (hb : Bare frozen) :
    edgesTo m.key? m.arena.size h = m.edgesTo frozen h + terminalEdges frozen h := by
  have hsize : ∀ t : Handle, t.isTerminal = true → t < m.arena.size := by
    intro t ht
    obtain ⟨n, hn⟩ := Option.isSome_iff_exists.1 (H.terminal t ht)
    exact Arena.lt_size_of_get? (H.kept hn)
  have hyoung : ∀ t : Handle, t.isTerminal = true → young frozen m.key? t = none := by
    intro t ht
    rw [young, if_pos (H.terminal t ht)]
  have hkey : m.key? = Function.update
      (Function.update (young frozen m.key?) Handle.false' (m.key? Handle.false'))
      Handle.true' (m.key? Handle.true') := by
    funext j
    by_cases hjt : j = Handle.true'
    · rw [hjt, Function.update_self]
    rw [Function.update_of_ne hjt]
    by_cases hjf : j = Handle.false'
    · rw [hjf, Function.update_self]
    have hj : Handle.isTerminal j = false := by
      rw [← Bool.not_eq_true, isTerminal_iff]
      exact not_or.2 ⟨hjf, hjt⟩
    rw [Function.update_of_ne hjf, young_of_none (hb j hj)]
  have hfirst := edgesTo_update (h := h) (f := young frozen m.key?) (hsize Handle.false' rfl)
    (m.key? Handle.false')
  have hsecond := edgesTo_update (h := h)
    (f := Function.update (young frozen m.key?) Handle.false' (m.key? Handle.false'))
    (hsize Handle.true' rfl) (m.key? Handle.true')
  rw [← hkey, Function.update_of_ne (by decide), hyoung _ rfl, H.elim_terminal rfl] at hsecond
  rw [hyoung _ rfl, H.elim_terminal rfl] at hfirst
  simp only [Option.elim_none, Nat.add_zero] at hfirst hsecond
  rw [hsecond, hfirst]
  unfold Manager.edgesTo terminalEdges
  omega

/-- A terminal may be changed if it stays frozen. -/
theorem Heap.refreeze {u : Node → Node} (H : Heap frozen ext m) (hc : c.isTerminal = true)
    (hn : m.arena.get? c = some n) :
    Heap (Function.update frozen c (some (u n))) ext (m.modify c u) := by
  have hget : ∀ {j}, j ≠ c → (m.modify c u).arena.get? j = m.arena.get? j := fun hj => by
    rw [get?_modify, if_neg hj]
  have hne : ∀ {j}, Function.update frozen c (some (u n)) j = none → j ≠ c ∧ frozen j = none := by
    intro j hj
    have hjc : j ≠ c := by
      rintro rfl
      simp at hj
    rw [Function.update_of_ne hjc] at hj
    exact ⟨hjc, hj⟩
  have hkey : ∀ {j}, j ≠ c → (m.modify c u).key? j = m.key? j := fun hj => by
    rw [Manager.key?, hget hj, Manager.key?]
  have hsound : ∀ {j}, Sound frozen m j →
      Sound (Function.update frozen c (some (u n))) (m.modify c u) j := by
    rintro j (hj | ⟨hj, hlive⟩)
    · exact Or.inl hj
    · have hjc : j ≠ c := by
        rintro rfl
        rw [H.not_terminal hj] at hc
        cases hc
      exact Or.inr ⟨by rw [Function.update_of_ne hjc, hj], by rwa [hkey hjc]⟩
  have hedges : ∀ j, (m.modify c u).edgesTo (Function.update frozen c (some (u n))) j =
      m.edgesTo frozen j := by
    intro j
    unfold Manager.edgesTo
    rw [size_modify]
    congr 1
    funext i
    by_cases hi : i = c
    · have := H.terminal c hc
      simp [young, hi, this]
    · simp [young, hi, hkey hi]
  refine ⟨Arena.valid_modify H.valid u, fun t ht => ?_, fun {t n'} hn' => ?_, fun {j a} ha hj => ?_,
    fun {j a} ha hj => ?_, fun {j a} ha hj => ?_, fun {j a} ha hj => ?_, fun {j a} ha hj => ?_,
    fun {j} hj => ?_⟩
  · by_cases htc : t = c
    · rw [htc, Function.update_self]
      rfl
    · rw [Function.update_of_ne htc]
      exact H.terminal t ht
  · by_cases htc : t = c
    · subst htc
      rw [Function.update_self] at hn'
      rw [get?_modify, if_pos rfl, hn]
      exact hn'
    · rw [Function.update_of_ne htc] at hn'
      rw [hget htc]
      exact H.kept hn'
  · rw [hget (hne hj).1] at ha
    exact H.literal_pos ha (hne hj).2
  · rw [hget (hne hj).1] at ha
    exact H.ascends ha (hne hj).2
  · rw [hget (hne hj).1] at ha
    exact hsound (H.sound_high ha (hne hj).2)
  · rw [hget (hne hj).1] at ha
    exact hsound (H.sound_low ha (hne hj).2)
  · rw [hget (hne hj).1] at ha
    rw [hedges]
    exact H.counted ha (hne hj).2
  · have hjc : j ≠ c := by
      rintro rfl
      rw [get?_modify, if_pos rfl, hn] at hj
      cases hj
    rw [hget hjc] at hj
    exact H.held hj

theorem terminalEdges_update (n' : Node) (hh : h.isTerminal = true) (hn : frozen h = some n)
    (j : Handle) :
    terminalEdges (Function.update frozen h (some n')) j + n.key.edgesTo j =
      terminalEdges frozen j + n'.key.edgesTo j := by
  unfold terminalEdges
  rcases isTerminal_iff.1 hh with rfl | rfl
  · rw [Function.update_self, Function.update_of_ne (by decide), hn]
    simp only [Option.elim_some]
    omega
  · rw [Function.update_self, Function.update_of_ne (by decide), hn]
    simp only [Option.elim_some]
    omega

/-- An edge of a terminal is turned from `old` to `c`. -/
theorem gives_turn_terminal {u : Node → Node} {old : Handle} (hb : Bare frozen)
    (hh : h.isTerminal = true) (H : Heap frozen (ext + terminalEdges frozen + Pi.single c 1) m)
    (hn : m.arena.get? h = some n)
    (hext : ∀ j, (u n).key.edgesTo j + (if old = j then 1 else 0) =
      n.key.edgesTo j + (if c = j then 1 else 0)) :
    Gives (change h u >>= fun _ => dereference old) m fun _ m' =>
      ∃ frozen', Bare frozen' ∧ Heap frozen' (ext + terminalEdges frozen') m' := by
  refine Gives.bind gives_change ?_
  rintro _ m₁ ⟨-, rfl⟩
  have hf : frozen h = some n := by
    obtain ⟨n', hn'⟩ := Option.isSome_iff_exists.1 (H.terminal h hh)
    rw [hn', ← hn, H.kept hn']
  have hb' : Bare (Function.update frozen h (some (u n))) := by
    intro j hj
    rw [Function.update_of_ne, hb j hj]
    rintro rfl
    rw [hh] at hj
    cases hj
  have H' := (H.refreeze (u := u) hh hn).congr_ext
    (ext + terminalEdges (Function.update frozen h (some (u n))) + Pi.single old 1) fun j _ => by
      have hterm := terminalEdges_update (u n) hh hf j
      have hj := hext j
      simp only [Pi.add_apply, Pi.single_apply, eq_comm (a := j)]
      omega
  exact Gives.mono (gives_dereference hb' H') fun _ m' hd => ⟨_, hb', hd.1⟩

theorem gives_setHigh_terminal (hb : Bare frozen) (hh : h.isTerminal = true)
    (H : Heap frozen (ext + terminalEdges frozen) m) :
    Gives (setHigh h c) m fun _ m' =>
      ∃ frozen', Bare frozen' ∧ Heap frozen' (ext + terminalEdges frozen') m' := by
  refine Gives.bind (gives_reference hb H) ?_
  rintro _ m₁ ⟨-, H₁, -⟩
  refine Gives.nodeAt fun n hn => gives_turn_terminal hb hh H₁ hn fun j => ?_
  show (if c = j then 1 else 0) + (if n.low = j then 1 else 0) + (if n.high = j then 1 else 0) =
    (if n.high = j then 1 else 0) + (if n.low = j then 1 else 0) + (if c = j then 1 else 0)
  omega

theorem gives_setLow_terminal (hb : Bare frozen) (hh : h.isTerminal = true)
    (H : Heap frozen (ext + terminalEdges frozen) m) :
    Gives (setLow h c) m fun _ m' =>
      ∃ frozen', Bare frozen' ∧ Heap frozen' (ext + terminalEdges frozen') m' := by
  refine Gives.bind (gives_reference hb H) ?_
  rintro _ m₁ ⟨-, H₁, -⟩
  refine Gives.nodeAt fun n hn => gives_turn_terminal hb hh H₁ hn fun j => ?_
  show (if n.high = j then 1 else 0) + (if c = j then 1 else 0) + (if n.low = j then 1 else 0) =
    (if n.high = j then 1 else 0) + (if n.low = j then 1 else 0) + (if c = j then 1 else 0)
  omega

/-! ## One operation -/

theorem add_count_singleton (ext : Handle → Nat) (a : Handle) :
    (ext + fun h => [a].count h) = ext + Pi.single a 1 := by
  rw [count_singleton_eq]

theorem Heap.of_count_nil (H : Heap frozen (ext + fun h => ([] : List Handle).count h) m) :
    Heap frozen ext m := by
  rwa [add_count_nil] at H

theorem Heap.of_count_singleton (H : Heap frozen (ext + fun h => [c].count h) m) :
    Heap frozen (ext + Pi.single c 1) m := by
  rwa [add_count_singleton] at H

/-- The references that an operation gives up become those that it gains. -/
theorem Operation.gives (hb : Bare frozen) (o : Operation)
    (H : Heap frozen (ext + terminalEdges frozen + fun h => o.lost.count h) m) :
    Gives o.action m fun e m' => ∃ frozen', Bare frozen' ∧
      Heap frozen' (ext + terminalEdges frozen' + fun h => e.gained.count h) m' := by
  -- most operations leave the terminals alone
  have keep : ∀ {e : Effect} {m' : Manager},
      Heap frozen (ext + terminalEdges frozen + fun h => e.gained.count h) m' →
      ∃ frozen', Bare frozen' ∧
        Heap frozen' (ext + terminalEdges frozen' + fun h => e.gained.count h) m' :=
    fun H' => ⟨frozen, hb, H'⟩
  have gain : ∀ {loosened : List Handle} {c : Handle} {m' : Manager},
      Heap frozen (ext + terminalEdges frozen + Pi.single c 1) m' →
      ∃ frozen', Bare frozen' ∧ Heap frozen' (ext + terminalEdges frozen' +
        fun h => (Effect.mk [c] loosened).gained.count h) m' :=
    fun H' => keep (by rwa [add_count_singleton])
  have even : ∀ {loosened : List Handle} {frozen' : Handle → Option Node} {m' : Manager},
      Bare frozen' → Heap frozen' (ext + terminalEdges frozen') m' →
      ∃ frozen', Bare frozen' ∧ Heap frozen' (ext + terminalEdges frozen' +
        fun h => (Effect.mk [] loosened).gained.count h) m' :=
    fun hb' H' => ⟨_, hb', by rwa [add_count_nil]⟩
  cases o with
  | create l weights =>
      replace H := Heap.of_count_nil H
      exact Gives.bind (balanced_create _ _ _ hb H) fun _ _ H' => Gives.pure (even hb H')
  | makeNode l high low weights =>
      replace H := Heap.of_count_nil H
      exact Gives.bind (balanced_makeNode _ _ _ hb H) fun _ _ H' => Gives.pure (even hb H')
  | setHigh h child =>
      replace H := Heap.of_count_nil H
      refine Gives.nodeAt fun n _ => ?_
      cases hh : h.isTerminal with
      | false =>
          exact Gives.bind (balanced_setHigh hh _ _ _ hb H) fun _ _ H' => Gives.pure (even hb H')
      | true =>
          refine Gives.bind (gives_setHigh_terminal hb hh H) ?_
          rintro _ m' ⟨frozen', hb', H'⟩
          exact Gives.pure (even hb' H')
  | setLow h child =>
      replace H := Heap.of_count_nil H
      refine Gives.nodeAt fun n _ => ?_
      cases hh : h.isTerminal with
      | false =>
          exact Gives.bind (balanced_setLow hh _ _ _ hb H) fun _ _ H' => Gives.pure (even hb H')
      | true =>
          refine Gives.bind (gives_setLow_terminal hb hh H) ?_
          rintro _ m' ⟨frozen', hb', H'⟩
          exact Gives.pure (even hb' H')
  | reference h =>
      replace H := Heap.of_count_nil H
      exact Gives.bind (gives_reference hb H) fun _ _ hr => Gives.pure (gain hr.2.1)
  | dereference h =>
      replace H := Heap.of_count_singleton H
      exact Gives.bind (gives_dereference hb H) fun _ _ hd => Gives.pure (even hb hd.1)
  | merge table h =>
      replace H := Heap.of_count_nil H
      exact Gives.bind (balanced_merge _ _ _ hb H) fun _ _ H' => Gives.pure (even hb H')
  | copy table root =>
      replace H := Heap.of_count_nil H
      exact Gives.bind (balanced_copy _ _ _ hb H) fun _ _ H' => Gives.pure (even hb H')
  | solve rows ordering collapsed expired =>
      replace H := Heap.of_count_nil H
      exact Gives.bind (gives_build Rows.passive hb H) fun _ _ H' => Gives.pure (gain H')
  | clause row w ordering d determinism =>
      replace H := Heap.of_count_nil H
      exact Gives.bind (gives_clause hb H) fun _ _ H' => Gives.pure (gain H')
  | conjoin a b ordering collapsed expired =>
      replace H := Heap.of_count_nil H
      exact Gives.bind (gives_conjoin hb H) fun _ _ H' => Gives.pure (gain H')
  | collapse root =>
      replace H := Heap.of_count_singleton H
      exact Gives.bind (gives_collapse hb H) fun _ _ H' => Gives.pure (gain H')
  | uncollapse root ordering =>
      replace H := Heap.of_count_nil H
      exact Gives.bind (balanced_uncollapse _ _ _ hb H) fun _ _ H' => Gives.pure (even hb H')
  | release root =>
      replace H := Heap.of_count_singleton H
      exact Gives.bind (gives_release hb H) fun _ _ H' => Gives.pure (even hb H')
  | conjoinAll queue ordering collapsed expired =>
      exact Gives.bind (gives_conjoinAll hb H) fun _ _ H' => Gives.pure (gain H')

namespace Session

/-- What an operation leaves. -/
theorem perform_eq_ok {o : Operation} (hp : s.perform o = .ok s') :
    ∃ e m, o.action.run s.manager = .ok e m ∧ s' = {
      manager := m
      held := e.gained ++ s.held.diff o.lost
      loose := (e.loosened ++ s.loose).filter m.isUnattached } := by
  unfold perform at hp
  split at hp
  · rename_i e m hrun
    cases hp
    exact ⟨e, m, hrun, rfl⟩
  · cases hp

/-- What an operation gives up is held before it and not after it. -/
theorem count_held {o : Operation} (hallowed : o.Allowed s) (hh : h.isTerminal = false) :
    s.held.count h = (s.held.diff o.lost).count h + o.lost.count h := by
  rw [List.count_diff]
  by_cases hlost : h ∈ o.lost
  · have := hallowed.1 h hlost hh
    omega
  · rw [List.count_eq_zero.2 hlost]
    omega

/-- The holders of every node are the caller and the terminals. -/
def Counted (s : Session) : Prop :=
  ∃ frozen, Bare frozen ∧ Heap frozen ((fun h => s.held.count h) + terminalEdges frozen) s.manager

theorem Counted.perform {o : Operation} (hs : s.Counted) (hallowed : o.Allowed s)
    (hp : s.perform o = .ok s') : s'.Counted := by
  obtain ⟨frozen, hb, H⟩ := hs
  obtain ⟨e, m, hrun, rfl⟩ := perform_eq_ok hp
  have H₁ := H.congr_ext ((fun h => (s.held.diff o.lost).count h) + terminalEdges frozen +
    fun h => o.lost.count h) fun h hh => by
      have := count_held hallowed hh
      simp only [Pi.add_apply]
      omega
  obtain ⟨frozen', hb', H'⟩ := o.gives hb H₁ e m hrun
  refine ⟨frozen', hb', H'.congr_ext _ fun h _ => ?_⟩
  simp only [Pi.add_apply, List.count_append]
  omega

theorem heap_start (literalVariables : Array Variable) (tableBits : Nat) :
    Heap (Manager.start literalVariables tableBits).arena.get? 0
      (Manager.start literalVariables tableBits) :=
  have V : (Manager.start literalVariables 0).Valid := Manager.valid_start (Nat.zero_le _)
  V.heap.congr rfl

theorem bare_start (literalVariables : Array Variable) (tableBits : Nat) :
    Bare (Manager.start literalVariables tableBits).arena.get? := by
  intro h hh
  rw [Manager.get?_start, if_neg, if_neg]
  · rintro rfl
    cases hh
  · rintro rfl
    cases hh

/-- The edges of the terminals of a new manager lead to terminals. -/
theorem terminalEdges_start {literalVariables : Array Variable} {tableBits : Nat}
    (hh : h.isTerminal = false) :
    terminalEdges (Manager.start literalVariables tableBits).arena.get? h = 0 := by
  have hne : Handle.false' ≠ h := by
    rintro rfl
    cases hh
  simp [terminalEdges, Manager.get?_start, Node.Key.edgesTo, Node.key, Node.falseNode,
    Node.trueNode, hne, show Handle.false' ≠ Handle.true' by decide]

theorem counted_start (literalVariables : Array Variable) (tableBits : Nat) :
    (start literalVariables tableBits).Counted := by
  refine ⟨_, bare_start literalVariables tableBits,
    (heap_start literalVariables tableBits).congr_ext _ fun h hh => ?_⟩
  simp only [Pi.add_apply, terminalEdges_start hh]
  rfl

theorem Counted.exact (hs : s.Counted) : s.Exact := by
  obtain ⟨frozen, hb, H⟩ := hs
  have hterminal : ∀ t : Handle, t.isTerminal = true → (s.manager.arena.get? t).isSome := by
    intro t ht
    obtain ⟨n, hn⟩ := Option.isSome_iff_exists.1 (H.terminal t ht)
    rw [H.kept hn]
    rfl
  refine ⟨fun {h n} hn hh => ?_, fun {h n} hn => ?_, hterminal⟩
  · rw [H.counted hn (hb h hh), H.edgesTo_eq hb, Pi.add_apply]
    omega
  · have hlive : ∀ c, n.high = c ∨ n.low = c → (s.manager.arena.get? c).isSome := by
      intro c hc
      cases hh : h.isTerminal with
      | false =>
          have hs : Sound frozen s.manager c := by
            rcases hc with rfl | rfl
            · exact H.sound_high hn (hb h hh)
            · exact H.sound_low hn (hb h hh)
          obtain ⟨nc, hnc⟩ := H.live hs
          rw [hnc]
          rfl
      | true =>
          -- a terminal is among the holders of what it leads to
          by_contra hdead
          have hzero := H.held (Option.not_isSome_iff_eq_none.1 hdead)
          obtain ⟨n', hn'⟩ := Option.isSome_iff_exists.1 (H.terminal h hh)
          obtain rfl : n = n' := Option.some.inj (hn.symm.trans (H.kept hn'))
          have hedge : 0 < n.key.edgesTo c := by
            rcases hc with rfl | rfl
            · simp [Node.Key.edgesTo, Node.key]
            · simp [Node.Key.edgesTo, Node.key]
          rcases isTerminal_iff.1 hh with rfl | rfl
          · simp [terminalEdges, hn'] at hzero
            omega
          · simp [terminalEdges, hn'] at hzero
            omega
    exact ⟨hlive _ (Or.inl rfl), hlive _ (Or.inr rfl)⟩

/-- The counts are right after every operation of a run. -/
theorem Run.counted {ops : List Operation} (hrun : Run ok s ops s')
    (hok : ∀ o s, ok o s → o.Allowed s) (hs : s.Counted) : s'.Counted := by
  induction hrun with
  | nil => exact hs
  | cons ho hp _ ih => exact ih (hs.perform (hok _ _ ho) hp)

end Session
end BayesCircuit.Decision
