import BayesCircuit.Decision.Manager
import BayesCircuit.Proofs.Collection.UniqueTable
import Mathlib.Algebra.BigOperators.Group.Finset.Basic
import Mathlib.Algebra.Group.Pi.Basic
import Mathlib.Algebra.GroupWithZero.Nat
import Mathlib.Algebra.Order.BigOperators.Group.Finset

/-!
# The heap of decision nodes

`Ends x m Q` says that the computation `x` started on the manager `m` has a value, and that `Q`
holds of the value and of the manager that is left. The rules below follow the way in which
computations are put together; a proof about an operation applies them from the first step to the
last one.

Some nodes of a manager are *frozen*: they belong to diagrams that an operation must not touch,
and the two terminals are always among them. The other nodes are *young*. `Heap frozen ext m` says
that the frozen nodes are as they were, that the edges of a young node lead to terminals and young
nodes, and that the count of a young node is the number of edges from young nodes to it plus the
number `ext` of its holders.

The lemmas of this file say what each primitive operation does to such a heap. Those that change
an edge come in two steps, as the operations do: `Heap.reference` gives a handle to the caller,
`Heap.setHigh` trades it for the handle that the edge had, and `Heap.dereference` gives that one
back.
-/

namespace BayesCircuit.Decision

/-- The manager with one node changed. -/
def Manager.modify (m : Manager) (h : Handle) (f : Node → Node) : Manager :=
  { m with arena := m.arena.modify h f }

namespace Action

variable {α β : Type} {m m' : Manager} {a : α} {x : Action α} {f : α → Action β}
variable {P Q : α → Manager → Prop} {R : β → Manager → Prop}

/-- The computation has a value, of which a condition holds. -/
def Ends (x : Action α) (m : Manager) (Q : α → Manager → Prop) : Prop :=
  ∃ a m', x.run m = .ok a m' ∧ Q a m'

theorem Ends.of_run (h : x.run m = .ok a m') (hQ : Q a m') : Ends x m Q := ⟨a, m', h, hQ⟩

theorem Ends.mono (hx : Ends x m P) (h : ∀ a m', P a m' → Q a m') : Ends x m Q := by
  obtain ⟨a, m', hrun, hP⟩ := hx
  exact ⟨a, m', hrun, h a m' hP⟩

theorem Ends.pure (h : Q a m) : Ends (pure a) m Q := ⟨a, m, rfl, h⟩

theorem Ends.bind (hx : Ends x m P) (hf : ∀ a m', P a m' → Ends (f a) m' R) :
    Ends (x >>= f) m R := by
  obtain ⟨a, m', hrun, hP⟩ := hx
  obtain ⟨b, m'', hrun', hR⟩ := hf a m' hP
  refine ⟨b, m'', ?_, hR⟩
  simp only [EStateM.run, Bind.bind, EStateM.bind] at hrun hrun' ⊢
  rw [hrun]
  exact hrun'

theorem Ends.tryCatch {g : Failure → Action α} (hx : Ends x m Q) : Ends (tryCatch x g) m Q := by
  obtain ⟨a, m', hrun, hQ⟩ := hx
  refine ⟨a, m', ?_, hQ⟩
  simp only [EStateM.run] at hrun
  calc (MonadExcept.tryCatch x g).run m = EStateM.tryCatch x g m := rfl
    _ = .ok a m' := by rw [EStateM.tryCatch, hrun]

/-- A first step whose result is known. -/
theorem Ends.step (hx : x.run m = .ok a m') (hf : Ends (f a) m' R) : Ends (x >>= f) m R :=
  Ends.bind (Ends.of_run (Q := fun b s => b = a ∧ s = m') hx ⟨rfl, rfl⟩) (by
    rintro _ _ ⟨rfl, rfl⟩
    exact hf)

theorem Ends.get {f : Manager → Action β} (h : Ends (f m) m R) : Ends (MonadState.get >>= f) m R :=
  Ends.step rfl h

theorem Ends.modify {g : Manager → Manager} {f : Unit → Action β} (h : Ends (f ()) (g m) R) :
    Ends (modify g >>= f) m R :=
  Ends.step rfl h

theorem Ends.lift {o : Outcome α} (ho : o = .ok a) (h : Ends (f a) m R) :
    Ends (Action.lift o >>= f) m R := by
  subst ho
  exact Ends.step rfl h

theorem run_nodeAt {h : Handle} {n : Node} (hn : m.arena.get? h = some n) :
    (nodeAt h).run m = .ok n m := by
  have hnode : m.node h = .ok n := Collection.Arena.get_eq_ok hn
  calc (nodeAt h).run m = (Action.lift (m.node h)).run m := rfl
    _ = .ok n m := by rw [hnode]; rfl

theorem Ends.nodeAt {h : Handle} {n : Node} {f : Node → Action β}
    (hn : m.arena.get? h = some n) (hf : Ends (f n) m R) : Ends (Decision.nodeAt h >>= f) m R :=
  Ends.step (run_nodeAt hn) hf

theorem run_modifyGet {g : Manager → α × Manager} :
    (modifyGet g : Action α).run m = .ok (g m).1 (g m).2 := rfl

theorem run_change {h : Handle} {n : Node} {g : Node → Node} (hn : m.arena.get? h = some n) :
    (change h g).run m = .ok () (m.modify h g) := by
  have hdiscard : (discard (nodeAt h)).run m = .ok () m := by
    calc (discard (nodeAt h)).run m = EStateM.map (Function.const Node ()) (nodeAt h) m := rfl
      _ = .ok () m := by rw [EStateM.map, show nodeAt h m = .ok n m from run_nodeAt hn]
  calc (change h g).run m = EStateM.bind (discard (nodeAt h))
        (fun _ => modify fun m => { m with arena := m.arena.modify h g }) m := rfl
    _ = .ok () (m.modify h g) := by
        rw [EStateM.bind, show discard (nodeAt h) m = .ok () m from hdiscard]; rfl

end Action
end BayesCircuit.Decision

/-! ## The heap of decision nodes -/

namespace BayesCircuit.Decision

open Collection

variable {m m' : Manager} {frozen : Handle → Option Node} {ext : Handle → Nat}
variable {h g c i : Handle} {n : Node} {k : Node.Key}

/-! ## Edges -/

/-- What makes the node with a given handle equal to another. -/
def Manager.key? (m : Manager) (h : Handle) : Option Node.Key := (m.arena.get? h).map Node.key

/-- The number of edges of a node that lead to a handle. -/
def Node.Key.edgesTo (k : Node.Key) (h : Handle) : Nat :=
  (if k.high = h then 1 else 0) + (if k.low = h then 1 else 0)

/-- The nodes that are not frozen. -/
def young (frozen : Handle → Option Node) (f : Handle → Option Node.Key) (i : Handle) :
    Option Node.Key :=
  if (frozen i).isSome then none else f i

/-- The number of edges that lead to a handle from the slots below a bound. -/
def edgesTo (f : Handle → Option Node.Key) (size : Nat) (h : Handle) : Nat :=
  ∑ i ∈ Finset.range size, (f i).elim 0 (·.edgesTo h)

/-- Some young node has an edge to the handle. -/
def Pointed (frozen : Handle → Option Node) (f : Handle → Option Node.Key) (h : Handle) : Prop :=
  ∃ i k, frozen i = none ∧ f i = some k ∧ (k.high = h ∨ k.low = h)

theorem young_of_none (hi : frozen i = none) (f : Handle → Option Node.Key) :
    young frozen f i = f i := by
  simp [young, hi]

theorem young_update (hi : frozen i = none) (f : Handle → Option Node.Key)
    (k? : Option Node.Key) :
    young frozen (Function.update f i k?) = Function.update (young frozen f) i k? := by
  funext j
  by_cases hj : j = i
  · subst hj
    simp [young, hi]
  · simp [young, hj]

variable {f : Handle → Option Node.Key} {size size' : Nat}

theorem edgesTo_of_le (hf : ∀ i, size ≤ i → f i = none) (hle : size ≤ size') :
    edgesTo f size' h = edgesTo f size h := by
  unfold edgesTo
  refine (Finset.sum_subset (Finset.range_subset_range.2 hle) ?_).symm
  intro i _ hi
  rw [hf i (by simpa using hi)]
  rfl

theorem edgesTo_update (hi : i < size) (k? : Option Node.Key) :
    edgesTo (Function.update f i k?) size h + (f i).elim 0 (·.edgesTo h) =
      edgesTo f size h + k?.elim 0 (·.edgesTo h) := by
  have hmem : i ∈ Finset.range size := Finset.mem_range.2 hi
  have hnew := Finset.add_sum_erase (Finset.range size)
    (fun j => (Function.update f i k? j).elim 0 (·.edgesTo h)) hmem
  have hold := Finset.add_sum_erase (Finset.range size) (fun j => (f j).elim 0 (·.edgesTo h)) hmem
  have hrest : ∑ j ∈ (Finset.range size).erase i,
        (Function.update f i k? j).elim 0 (·.edgesTo h) =
      ∑ j ∈ (Finset.range size).erase i, (f j).elim 0 (·.edgesTo h) := by
    refine Finset.sum_congr rfl fun j hj => ?_
    rw [Function.update_of_ne (Finset.ne_of_mem_erase hj)]
  simp only [Function.update_self] at hnew
  unfold edgesTo
  rw [← hnew, ← hold, hrest]
  omega

theorem edgesTo_eq_zero_iff :
    edgesTo f size h = 0 ↔ ∀ i < size, ∀ k, f i = some k → k.high ≠ h ∧ k.low ≠ h := by
  unfold edgesTo
  simp only [Finset.sum_eq_zero_iff, Finset.mem_range]
  refine forall₂_congr fun i _ => ?_
  cases f i with
  | none => simp
  | some k =>
      simp only [Option.elim_some, Node.Key.edgesTo, Option.some.injEq, forall_eq']
      split <;> split <;> simp_all

/-- The number of edges from young nodes to a handle. -/
def Manager.edgesTo (m : Manager) (frozen : Handle → Option Node) (h : Handle) : Nat :=
  Decision.edgesTo (young frozen m.key?) m.arena.size h

theorem key?_eq_none_of_size_le (hi : m.arena.size ≤ i) : m.key? i = none := by
  simp [Manager.key?, Arena.get?_eq_none_of_size_le hi]

theorem young_key?_of_size_le (hi : m.arena.size ≤ i) : young frozen m.key? i = none := by
  simp [young, key?_eq_none_of_size_le hi]

theorem Manager.edgesTo_eq_zero_iff :
    m.edgesTo frozen h = 0 ↔ ¬ Pointed frozen m.key? h := by
  unfold Manager.edgesTo Pointed
  rw [Decision.edgesTo_eq_zero_iff]
  constructor
  · rintro hno ⟨i, k, hi, hk, hkh⟩
    have hlt : i < m.arena.size := by
      by_contra hge
      rw [key?_eq_none_of_size_le (Nat.le_of_not_lt hge)] at hk
      cases hk
    have := hno i hlt k (by rw [young_of_none hi, hk])
    rcases hkh with hkh | hkh
    · exact this.1 hkh
    · exact this.2 hkh
  · intro hno i _ k hk
    unfold young at hk
    split at hk
    · cases hk
    · rename_i hi
      have hi : frozen i = none := by simpa using hi
      exact ⟨fun hh => hno ⟨i, k, hi, hk, Or.inl hh⟩, fun hh => hno ⟨i, k, hi, hk, Or.inr hh⟩⟩

/-- Replacing one young node changes the number of edges by those of this node. -/
theorem Manager.edgesTo_update {k? : Option Node.Key} (hi : frozen i = none)
    (hm' : m'.key? = Function.update m.key? i k?) :
    m'.edgesTo frozen h + (m.key? i).elim 0 (·.edgesTo h) =
      m.edgesTo frozen h + k?.elim 0 (·.edgesTo h) := by
  unfold Manager.edgesTo
  -- both sums run up to a common bound
  have hle : m.arena.size ≤ max (max m.arena.size m'.arena.size) (i + 1) := by omega
  have hle' : m'.arena.size ≤ max (max m.arena.size m'.arena.size) (i + 1) := by omega
  rw [← edgesTo_of_le (fun j => young_key?_of_size_le) hle,
    ← edgesTo_of_le (fun j => young_key?_of_size_le) hle', hm', young_update hi,
    ← young_of_none hi m.key?]
  exact Decision.edgesTo_update (Nat.lt_of_lt_of_le (Nat.lt_succ_self i) (Nat.le_max_right _ _)) k?

/-! ## The invariant -/

/-- Where an edge of a young node may lead. -/
def Sound (frozen : Handle → Option Node) (m : Manager) (c : Handle) : Prop :=
  c.isTerminal = true ∨ frozen c = none ∧ (m.key? c).isSome

/-- The frozen nodes are there, the young ones are closed and counted. -/
structure Heap (frozen : Handle → Option Node) (ext : Handle → Nat) (m : Manager) : Prop where
  valid : m.arena.Valid
  terminal : ∀ h, h.isTerminal = true → (frozen h).isSome
  kept : ∀ {h n}, frozen h = some n → m.arena.get? h = some n
  literal_pos : ∀ {h n}, m.arena.get? h = some n → frozen h = none → 0 < n.literal
  ascends : ∀ {h n}, m.arena.get? h = some n → frozen h = none → Weights.ascends n.weights = true
  sound_high : ∀ {h n}, m.arena.get? h = some n → frozen h = none → Sound frozen m n.high
  sound_low : ∀ {h n}, m.arena.get? h = some n → frozen h = none → Sound frozen m n.low
  counted : ∀ {h n}, m.arena.get? h = some n → frozen h = none →
    n.refs = m.edgesTo frozen h + ext h
  held : ∀ {h}, m.arena.get? h = none → ext h = 0

theorem key?_eq_some_iff : m.key? h = some k ↔ ∃ n, m.arena.get? h = some n ∧ n.key = k := by
  simp [Manager.key?]

theorem key?_of_get? (hn : m.arena.get? h = some n) : m.key? h = some n.key := by
  simp [Manager.key?, hn]

theorem key?_eq_none_iff : m.key? h = none ↔ m.arena.get? h = none := by
  simp [Manager.key?]

/-- Only the nodes of the arena matter, not the products. -/
theorem key?_congr (ha : m'.arena = m.arena) : m'.key? = m.key? := by
  funext j
  simp [Manager.key?, ha]

namespace Heap

theorem live (H : Heap frozen ext m) (hs : Sound frozen m c) :
    ∃ n, m.arena.get? c = some n := by
  rcases hs with hc | ⟨_, hc⟩
  · obtain ⟨n, hn⟩ := Option.isSome_iff_exists.1 (H.terminal c hc)
    exact ⟨n, H.kept hn⟩
  · obtain ⟨k, hk⟩ := Option.isSome_iff_exists.1 hc
    obtain ⟨n, hn, _⟩ := key?_eq_some_iff.1 hk
    exact ⟨n, hn⟩

theorem sound_of_pointed (H : Heap frozen ext m) (hp : Pointed frozen m.key? h) :
    Sound frozen m h := by
  obtain ⟨i, k, hi, hk, hkh⟩ := hp
  obtain ⟨n, hn, rfl⟩ := key?_eq_some_iff.1 hk
  rcases hkh with rfl | rfl
  · exact H.sound_high hn hi
  · exact H.sound_low hn hi

theorem not_pointed (H : Heap frozen ext m) (hh : m.arena.get? h = none) :
    ¬ Pointed frozen m.key? h := by
  intro hp
  obtain ⟨n, hn⟩ := H.live (H.sound_of_pointed hp)
  rw [hh] at hn
  cases hn

theorem not_terminal (H : Heap frozen ext m) (hf : frozen h = none) : h.isTerminal = false := by
  cases ht : h.isTerminal with
  | false => rfl
  | true =>
      have := H.terminal h ht
      simp [hf] at this

theorem refs_eq_zero_iff (H : Heap frozen ext m) (hn : m.arena.get? h = some n)
    (hf : frozen h = none) : n.refs = 0 ↔ ¬ Pointed frozen m.key? h ∧ ext h = 0 := by
  rw [H.counted hn hf, ← Manager.edgesTo_eq_zero_iff]
  omega

/-- Only the nodes of the arena matter, not the products. -/
theorem congr (H : Heap frozen ext m) (ha : m'.arena = m.arena) : Heap frozen ext m' := by
  have hkey : m'.key? = m.key? := key?_congr ha
  have hedges : ∀ j, m'.edgesTo frozen j = m.edgesTo frozen j := by
    intro j
    simp [Manager.edgesTo, hkey, ha]
  have hsound : ∀ j, Sound frozen m' j ↔ Sound frozen m j := by
    intro j
    simp [Sound, hkey]
  constructor
  · rw [ha]
    exact H.valid
  · exact H.terminal
  · rw [ha]
    exact H.kept
  · rw [ha]
    exact H.literal_pos
  · rw [ha]
    exact H.ascends
  · simp only [ha, hsound]
    exact H.sound_high
  · simp only [ha, hsound]
    exact H.sound_low
  · simp only [ha, hedges]
    exact H.counted
  · rw [ha]
    exact H.held

end Heap

/-! ## Counting -/

section modify

variable {u : Node → Node}

theorem get?_modify : (m.modify h u).arena.get? i =
    if i = h then (m.arena.get? i).map u else m.arena.get? i :=
  Arena.get?_modify u

theorem key?_modify_of_key (hu : ∀ n, (u n).key = n.key) : (m.modify h u).key? = m.key? := by
  funext j
  simp only [Manager.key?, get?_modify]
  split
  · cases m.arena.get? j <;> simp [hu]
  · rfl

theorem size_modify : (m.modify h u).arena.size = m.arena.size := by
  simp [Manager.modify, Arena.modify, Arena.size]

theorem edgesTo_modify_of_key (hu : ∀ n, (u n).key = n.key) :
    (m.modify h u).edgesTo frozen i = m.edgesTo frozen i := by
  unfold Manager.edgesTo
  rw [key?_modify_of_key hu, size_modify]

theorem sound_modify_of_key (hu : ∀ n, (u n).key = n.key) :
    Sound frozen (m.modify h u) c ↔ Sound frozen m c := by
  simp [Sound, key?_modify_of_key hu]

end modify

namespace Heap

/-- A young node is changed in its count only, together with the number of its holders. -/
theorem recount (H : Heap frozen ext m) {u : Node → Node} {ext' : Handle → Nat}
    (hc : frozen c = none) (hu : ∀ n, (u n).key = n.key)
    (hext : ∀ j, j ≠ c → ext' j = ext j)
    (hlive : (m.arena.get? c).isSome)
    (hcount : ∀ n, n.refs = m.edgesTo frozen c + ext c →
      (u n).refs = m.edgesTo frozen c + ext' c) :
    Heap frozen ext' (m.modify c u) := by
  -- a node of the new heap has the key and the holders of a node of the old one
  have hold : ∀ {h n}, (m.modify c u).arena.get? h = some n →
      ∃ n₀, m.arena.get? h = some n₀ ∧ n.key = n₀.key ∧ (h ≠ c → n = n₀) ∧ (h = c → n = u n₀) := by
    intro h n hn
    rw [get?_modify] at hn
    split at hn
    · obtain ⟨n₀, hn₀, rfl⟩ := Option.map_eq_some_iff.1 hn
      exact ⟨n₀, hn₀, hu n₀, fun hne => absurd ‹h = c› hne, fun _ => rfl⟩
    · exact ⟨n, hn, rfl, fun _ => rfl, fun he => absurd he ‹h ≠ c›⟩
  have hfield : ∀ {a b : Node}, a.key = b.key → a.literal = b.literal ∧ a.high = b.high ∧
      a.low = b.low ∧ a.weights = b.weights := by
    intro a b hab
    simpa [Node.key] using hab
  refine ⟨Arena.valid_modify H.valid u, H.terminal, ?_, ?_, ?_, ?_, ?_, ?_, ?_⟩
  · intro h n hn
    have hne : h ≠ c := by
      rintro rfl
      rw [hc] at hn
      cases hn
    rw [get?_modify, if_neg hne]
    exact H.kept hn
  · intro h n hn hf
    obtain ⟨n₀, hn₀, hkey, -⟩ := hold hn
    rw [(hfield hkey).1]
    exact H.literal_pos hn₀ hf
  · intro h n hn hf
    obtain ⟨n₀, hn₀, hkey, -⟩ := hold hn
    rw [(hfield hkey).2.2.2]
    exact H.ascends hn₀ hf
  · intro h n hn hf
    obtain ⟨n₀, hn₀, hkey, -⟩ := hold hn
    rw [(hfield hkey).2.1, sound_modify_of_key hu]
    exact H.sound_high hn₀ hf
  · intro h n hn hf
    obtain ⟨n₀, hn₀, hkey, -⟩ := hold hn
    rw [(hfield hkey).2.2.1, sound_modify_of_key hu]
    exact H.sound_low hn₀ hf
  · intro h n hn hf
    obtain ⟨n₀, hn₀, -, hne, heq⟩ := hold hn
    rw [edgesTo_modify_of_key hu]
    by_cases hh : h = c
    · subst hh
      rw [heq rfl]
      exact hcount n₀ (H.counted hn₀ hf)
    · rw [hne hh, hext h hh]
      exact H.counted hn₀ hf
  · intro h hn
    have hne : h ≠ c := by
      rintro rfl
      rw [get?_modify, if_pos rfl] at hn
      rw [Option.map_eq_none_iff] at hn
      simp [hn] at hlive
    rw [get?_modify, if_neg hne] at hn
    rw [hext h hne]
    exact H.held hn

/-- The number of holders of a frozen node is of no concern. -/
theorem hold_frozen (H : Heap frozen ext m) (hc : (frozen c).isSome) :
    Heap frozen (ext + Pi.single c 1) m := by
  obtain ⟨n, hn⟩ := Option.isSome_iff_exists.1 hc
  refine ⟨H.valid, H.terminal, H.kept, H.literal_pos, H.ascends, H.sound_high, H.sound_low, ?_, ?_⟩
  · intro h n' hn' hf
    have hne : h ≠ c := by
      rintro rfl
      simp [hf] at hc
    simp [hne, H.counted hn' hf]
  · intro h hh
    have hne : h ≠ c := by
      rintro rfl
      rw [H.kept hn] at hh
      cases hh
    simp [hne, H.held hh]

theorem unhold_frozen (H : Heap frozen (ext + Pi.single c 1) m) (hc : (frozen c).isSome) :
    Heap frozen ext m := by
  refine ⟨H.valid, H.terminal, H.kept, H.literal_pos, H.ascends, H.sound_high, H.sound_low, ?_, ?_⟩
  · intro h n' hn' hf
    have hne : h ≠ c := by
      rintro rfl
      simp [hf] at hc
    have := H.counted hn' hf
    simpa [hne] using this
  · intro h hh
    have := H.held hh
    simp only [Pi.add_apply] at this
    omega

/-- An edge of a young node is traded for a handle that the caller holds. -/
theorem rewire (H : Heap frozen ext m) {u : Node → Node} (ext' : Handle → Nat)
    (hn : m.arena.get? h = some n) (hf : frozen h = none)
    (hrefs : (u n).refs = n.refs) (hlit : (u n).literal = n.literal)
    (hweights : (u n).weights = n.weights)
    (hhigh : Sound frozen m (u n).high) (hlow : Sound frozen m (u n).low)
    (hext : ∀ j, n.key.edgesTo j + ext j = (u n).key.edgesTo j + ext' j)
    (hheld : ∀ j, m.arena.get? j = none → ext' j = 0) :
    Heap frozen ext' (m.modify h u) ∧
      (m.modify h u).key? = Function.update m.key? h (some (u n).key) := by
  have hkey : (m.modify h u).key? = Function.update m.key? h (some (u n).key) := by
    funext j
    by_cases hj : j = h
    · subst hj
      simp [Manager.key?, get?_modify, hn]
    · simp [Manager.key?, get?_modify, hj]
  have hsound : ∀ {j}, Sound frozen m j → Sound frozen (m.modify h u) j := by
    rintro j (hj | ⟨hj, hlive⟩)
    · exact Or.inl hj
    · refine Or.inr ⟨hj, ?_⟩
      rw [hkey]
      by_cases hjh : j = h
      · simp [hjh]
      · simpa [hjh] using hlive
  have hedges : ∀ j, (m.modify h u).edgesTo frozen j + n.key.edgesTo j =
      m.edgesTo frozen j + (u n).key.edgesTo j := by
    intro j
    have := Manager.edgesTo_update (h := j) hf hkey
    simpa [key?_of_get? hn] using this
  have hcase : ∀ {j a}, (m.modify h u).arena.get? j = some a →
      j = h ∧ a = u n ∨ j ≠ h ∧ m.arena.get? j = some a := by
    intro j a ha
    rw [get?_modify] at ha
    split at ha
    · rename_i hj
      subst hj
      rw [hn] at ha
      cases ha
      exact Or.inl ⟨rfl, rfl⟩
    · exact Or.inr ⟨‹_›, ha⟩
  refine ⟨⟨Arena.valid_modify H.valid u, H.terminal, ?_, ?_, ?_, ?_, ?_, ?_, ?_⟩, hkey⟩
  · intro j a ha
    have hne : j ≠ h := by
      rintro rfl
      rw [hf] at ha
      cases ha
    rw [get?_modify, if_neg hne]
    exact H.kept ha
  · intro j a ha hj
    rcases hcase ha with ⟨rfl, rfl⟩ | ⟨_, ha⟩
    · rw [hlit]
      exact H.literal_pos hn hf
    · exact H.literal_pos ha hj
  · intro j a ha hj
    rcases hcase ha with ⟨rfl, rfl⟩ | ⟨_, ha⟩
    · rw [hweights]
      exact H.ascends hn hf
    · exact H.ascends ha hj
  · intro j a ha hj
    rcases hcase ha with ⟨rfl, rfl⟩ | ⟨_, ha⟩
    · exact hsound hhigh
    · exact hsound (H.sound_high ha hj)
  · intro j a ha hj
    rcases hcase ha with ⟨rfl, rfl⟩ | ⟨_, ha⟩
    · exact hsound hlow
    · exact hsound (H.sound_low ha hj)
  · intro j a ha hj
    have h₁ := hedges j
    have h₂ := hext j
    rcases hcase ha with ⟨rfl, rfl⟩ | ⟨_, ha⟩
    · have h₃ := H.counted hn hf
      omega
    · have h₃ := H.counted ha hj
      omega
  · intro j hj
    refine hheld j ?_
    rw [get?_modify] at hj
    split at hj
    · simpa using hj
    · exact hj

/-! ## Making and freeing -/

/-- A new node to which no edge leads. -/
theorem alloc (H : Heap frozen ext m) (hrefs : n.refs = 0) (hpos : 0 < n.literal)
    (hasc : Weights.ascends n.weights = true) (hhigh : n.high.isTerminal = true)
    (hlow : n.low.isTerminal = true) {a : Arena Node} (ha : m.arena.alloc n = (h, a)) :
    m.key? h = none ∧ frozen h = none ∧ Heap frozen ext { m with arena := a } ∧
      ({ m with arena := a } : Manager).key? = Function.update m.key? h (some n.key) := by
  have hh : (m.arena.alloc n).1 = h := by rw [ha]
  have hget : ∀ j, a.get? j = if j = h then some n else m.arena.get? j := by
    intro j
    have := Arena.get?_alloc (x := n) (j := j) H.valid
    rwa [ha] at this
  have hnone : m.arena.get? h = none := by
    rw [← hh]
    exact Arena.get?_alloc_fst H.valid
  have hf : frozen h = none := by
    cases hfh : frozen h with
    | none => rfl
    | some n' =>
        rw [H.kept hfh] at hnone
        cases hnone
  have hkey : ({ m with arena := a } : Manager).key? = Function.update m.key? h (some n.key) := by
    funext j
    by_cases hj : j = h
    · subst hj
      simp [Manager.key?, hget]
    · simp [Manager.key?, hget, hj]
  have hsound : ∀ {j}, Sound frozen m j → Sound frozen { m with arena := a } j := by
    rintro j (hj | ⟨hj, hlive⟩)
    · exact Or.inl hj
    · refine Or.inr ⟨hj, ?_⟩
      rw [hkey]
      by_cases hjh : j = h
      · simp [hjh]
      · simpa [hjh] using hlive
  -- the edges of the new node lead to terminals, whose edges are not counted
  have hedges : ∀ j, frozen j = none →
      ({ m with arena := a } : Manager).edgesTo frozen j = m.edgesTo frozen j := by
    intro j hj
    have h₁ := Manager.edgesTo_update (h := j) hf hkey
    have hne : ∀ t : Handle, t.isTerminal = true → t ≠ j := by
      rintro t ht rfl
      have := H.terminal t ht
      simp [hj] at this
    have h₂ : n.key.edgesTo j = 0 := by
      simp [Node.Key.edgesTo, Node.key, hne _ hhigh, hne _ hlow]
    simpa [key?_eq_none_iff.2 hnone, h₂] using h₁
  have hunpointed : m.edgesTo frozen h = 0 := by
    rw [Manager.edgesTo_eq_zero_iff]
    exact H.not_pointed hnone
  have hvalid : a.Valid := by
    have := Arena.valid_alloc (x := n) H.valid
    rwa [ha] at this
  refine ⟨key?_eq_none_iff.2 hnone, hf, ⟨hvalid, H.terminal, ?_, ?_, ?_, ?_, ?_, ?_, ?_⟩, hkey⟩
  · intro j b hb
    have hne : j ≠ h := by
      rintro rfl
      rw [hf] at hb
      cases hb
    rw [hget, if_neg hne]
    exact H.kept hb
  · intro j b
    simp only [hget]
    split
    · rintro ⟨⟩ _
      exact hpos
    · exact H.literal_pos
  · intro j b
    simp only [hget]
    split
    · rintro ⟨⟩ _
      exact hasc
    · exact H.ascends
  · intro j b
    simp only [hget]
    split
    · rintro ⟨⟩ _
      exact Or.inl hhigh
    · exact fun hb hj => hsound (H.sound_high hb hj)
  · intro j b
    simp only [hget]
    split
    · rintro ⟨⟩ _
      exact Or.inl hlow
    · exact fun hb hj => hsound (H.sound_low hb hj)
  · intro j b
    simp only [hget]
    split
    · rename_i hj
      rintro ⟨⟩ _
      subst hj
      rw [hedges j hf, hunpointed, H.held hnone, hrefs]
    · intro hb hj
      rw [hedges j hj]
      exact H.counted hb hj
  · intro j hj
    simp only [hget] at hj
    split at hj
    · cases hj
    · exact H.held hj

/-- A young node to which nobody refers is freed; the caller gets what it held. -/
theorem free (H : Heap frozen ext m) (hn : m.arena.get? h = some n) (hf : frozen h = none)
    (hrefs : n.refs = 0) {a : Arena Node} (ha : m.arena.free h = .ok (n, a)) :
    Heap frozen (ext + Pi.single n.high 1 + Pi.single n.low 1) { m with arena := a } ∧
      ({ m with arena := a } : Manager).key? = Function.update m.key? h none := by
  obtain ⟨hunpointed, hext⟩ := (H.refs_eq_zero_iff hn hf).1 hrefs
  have hget : ∀ j, a.get? j = if j = h then none else m.arena.get? j :=
    fun j => Arena.get?_of_free ha
  have hkey : ({ m with arena := a } : Manager).key? = Function.update m.key? h none := by
    funext j
    by_cases hj : j = h
    · subst hj
      simp [Manager.key?, hget]
    · simp [Manager.key?, hget, hj]
  have hedges : ∀ j, ({ m with arena := a } : Manager).edgesTo frozen j + n.key.edgesTo j =
      m.edgesTo frozen j := by
    intro j
    have := Manager.edgesTo_update (h := j) hf hkey
    simpa [key?_of_get? hn] using this
  have hsingle : ∀ j, (Pi.single n.high 1 + Pi.single n.low 1 : Handle → Nat) j =
      n.key.edgesTo j := by
    intro j
    simp [Pi.single_apply, Node.Key.edgesTo, Node.key, eq_comm]
  -- no young node leads to the freed one
  have hsound : ∀ {i b c}, m.arena.get? i = some b → frozen i = none →
      (b.high = c ∨ b.low = c) → Sound frozen m c → Sound frozen { m with arena := a } c := by
    intro i b c hb hi hbc hs
    rcases hs with hc | ⟨hc, hlive⟩
    · exact Or.inl hc
    · refine Or.inr ⟨hc, ?_⟩
      have hne : c ≠ h := by
        rintro rfl
        exact hunpointed ⟨i, b.key, hi, key?_of_get? hb, hbc⟩
      rw [hkey]
      simpa [hne] using hlive
  refine ⟨⟨Arena.valid_of_free H.valid ha, H.terminal, ?_, ?_, ?_, ?_, ?_, ?_, ?_⟩, hkey⟩
  · intro j b hb
    have hne : j ≠ h := by
      rintro rfl
      rw [hf] at hb
      cases hb
    rw [hget, if_neg hne]
    exact H.kept hb
  · intro j b
    simp only [hget]
    split
    · rintro ⟨⟩
    · exact H.literal_pos
  · intro j b
    simp only [hget]
    split
    · rintro ⟨⟩
    · exact H.ascends
  · intro j b
    simp only [hget]
    split
    · rintro ⟨⟩
    · exact fun hb hj => hsound hb hj (Or.inl rfl) (H.sound_high hb hj)
  · intro j b
    simp only [hget]
    split
    · rintro ⟨⟩
    · exact fun hb hj => hsound hb hj (Or.inr rfl) (H.sound_low hb hj)
  · intro j b
    simp only [hget]
    split
    · rintro ⟨⟩
    · intro hb hj
      have h₁ := H.counted hb hj
      have h₂ := hedges j
      have h₃ := hsingle j
      simp only [Pi.add_apply] at h₃ ⊢
      omega
  · intro j hj'
    rw [add_assoc, Pi.add_apply, hsingle]
    by_cases hj : j = h
    · subst hj
      have := hedges j
      rw [Manager.edgesTo_eq_zero_iff.2 hunpointed] at this
      omega
    · simp only [hget, if_neg hj] at hj'
      have hunp : m.edgesTo frozen j = 0 := by
        rw [Manager.edgesTo_eq_zero_iff]
        exact H.not_pointed hj'
      have h₁ := hedges j
      have h₂ := H.held hj'
      omega

end Heap
end BayesCircuit.Decision
