import BayesCircuit.Proofs.Decision.Heap

/-!
# What the primitive operations do

Every operation on a heap is described by the nodes that it leaves (`Rekeys`); that the counts stay
right is part of `Heap`. None of the operations of this file touches the products, and none fails.
-/

namespace BayesCircuit.Decision

open Collection Action

variable {m m' m'' : Manager} {frozen : Handle → Option Node} {ext : Handle → Nat}
variable {h g c : Handle} {n : Node} {k : Node.Key} {f f' : Handle → Option Node.Key}

/-- The nodes have become those of `f`, and the rest is as it was. -/
structure Rekeys (m m' : Manager) (f : Handle → Option Node.Key) : Prop where
  key : m'.key? = f
  literalVariables : m'.literalVariables = m.literalVariables
  tableBits : m'.tableBits = m.tableBits
  products : m'.products = m.products

theorem Rekeys.refl (m : Manager) : Rekeys m m m.key? := ⟨rfl, rfl, rfl, rfl⟩

theorem Rekeys.trans (h₁ : Rekeys m m' f) (h₂ : Rekeys m' m'' f') : Rekeys m m'' f' :=
  ⟨h₂.key, h₂.literalVariables.trans h₁.literalVariables, h₂.tableBits.trans h₁.tableBits,
    h₂.products.trans h₁.products⟩

theorem Sound.congr (hs : Sound frozen m c) (hk : m'.key? c = m.key? c) : Sound frozen m' c := by
  rcases hs with hc | ⟨hc, hlive⟩
  · exact Or.inl hc
  · exact Or.inr ⟨hc, by rwa [hk]⟩

/-- A sound edge stays sound when nodes are only made or changed. -/
theorem Sound.of_update (hs : Sound frozen m c) (hm' : m'.key? = Function.update m.key? h (some k)) :
    Sound frozen m' c := by
  rcases hs with hc | ⟨hc, hlive⟩
  · exact Or.inl hc
  · refine Or.inr ⟨hc, ?_⟩
    rw [hm']
    by_cases hj : c = h
    · simp [hj]
    · simpa [hj] using hlive

theorem Sound.of_extends (hs : Sound frozen m c)
    (hext : ∀ h k, m.key? h = some k → m'.key? h = some k) : Sound frozen m' c := by
  rcases hs with hc | ⟨hc, hlive⟩
  · exact Or.inl hc
  · obtain ⟨k, hk⟩ := Option.isSome_iff_exists.1 hlive
    exact Or.inr ⟨hc, by rw [hext c k hk]; rfl⟩

/-! ## References -/

theorem reference_spec (H : Heap frozen ext m) (hs : Sound frozen m c) :
    Ends (reference c) m fun _ m' =>
      Heap frozen (ext + Pi.single c 1) m' ∧ Rekeys m m' m.key? := by
  unfold reference
  cases ht : c.isTerminal with
  | true => exact Ends.pure ⟨H.hold_frozen (H.terminal c ht), Rekeys.refl m⟩
  | false =>
      rcases hs with hc | ⟨hc, hlive⟩
      · rw [ht] at hc
        cases hc
      obtain ⟨n, hn⟩ := H.live (Or.inr ⟨hc, hlive⟩)
      refine Ends.of_run (run_change hn) ⟨H.recount hc (fun _ => rfl) ?_ (by simp [hn]) ?_, ?_⟩
      · intro j hj
        simp [hj]
      · intro n' hn'
        simp [hn']
        omega
      · exact ⟨key?_modify_of_key (fun _ => rfl), rfl, rfl, rfl⟩

theorem dereference_spec (H : Heap frozen (ext + Pi.single c 1) m) (hs : Sound frozen m c) :
    Ends (dereference c) m fun _ m' => Heap frozen ext m' ∧ Rekeys m m' m.key? := by
  unfold dereference
  cases ht : c.isTerminal with
  | true => exact Ends.pure ⟨H.unhold_frozen (H.terminal c ht), Rekeys.refl m⟩
  | false =>
      rcases hs with hc | ⟨hc, hlive⟩
      · rw [ht] at hc
        cases hc
      obtain ⟨n, hn⟩ := H.live (Or.inr ⟨hc, hlive⟩)
      have hrefs : 0 < n.refs := by
        rw [H.counted hn hc]
        simp
      simp only [Bool.false_eq_true, if_false]
      refine Ends.nodeAt hn (Ends.lift (a := ()) (by simp [require, ensure, hrefs]) ?_)
      refine Ends.of_run (run_change hn) ⟨H.recount hc (fun _ => rfl) ?_ (by simp [hn]) ?_, ?_⟩
      · intro j hj
        simp [hj]
      · intro n' hn'
        simp only [Pi.add_apply, Pi.single_eq_same] at hn'
        simp only
        omega
      · exact ⟨key?_modify_of_key (fun _ => rfl), rfl, rfl, rfl⟩

/-! ## Edges -/

theorem trade (a c j : Handle) :
    (if a = j then 1 else 0) + (ext + Pi.single c 1 : Handle → Nat) j =
      (if c = j then 1 else 0) + (ext + Pi.single a 1 : Handle → Nat) j := by
  simp only [Pi.add_apply, Pi.single_apply, eq_comm (a := j)]
  omega

/-- An edge of a node is traded for a handle that the caller holds, and what the edge led to is
given up. -/
theorem rewire_spec {u : Node → Node} {old : Handle} (H : Heap frozen (ext + Pi.single c 1) m)
    (hn : m.arena.get? h = some n) (hf : frozen h = none)
    (hrefs : (u n).refs = n.refs) (hlit : (u n).literal = n.literal)
    (hweights : (u n).weights = n.weights)
    (hhigh : Sound frozen m (u n).high) (hlow : Sound frozen m (u n).low)
    (hold : Sound frozen m old)
    (hext : ∀ j, n.key.edgesTo j + (ext + Pi.single c 1 : Handle → Nat) j =
      (u n).key.edgesTo j + (ext + Pi.single old 1 : Handle → Nat) j) :
    Ends (change h u >>= fun _ => dereference old) m fun _ m' => Heap frozen ext m' ∧
      Rekeys m m' (Function.update m.key? h (some (u n).key)) := by
  obtain ⟨H₁, hkey⟩ := H.rewire (ext + Pi.single old 1) hn hf hrefs hlit hweights hhigh hlow
    hext (by
      intro j hj
      have hne : j ≠ old := by
        rintro rfl
        obtain ⟨x, hx⟩ := H.live hold
        rw [hj] at hx
        cases hx
      have := H.held hj
      simp only [Pi.add_apply] at this
      simp [hne]
      omega)
  refine Ends.step (run_change hn) ?_
  refine Ends.mono (dereference_spec H₁ (hold.of_update hkey)) ?_
  rintro _ m' ⟨H', hr⟩
  exact ⟨H', hr.key.trans hkey, hr.literalVariables, hr.tableBits, hr.products⟩

theorem setHigh_spec (H : Heap frozen ext m) (hk : m.key? h = some k) (hf : frozen h = none)
    (hs : Sound frozen m c) :
    Ends (setHigh h c) m fun _ m' => Heap frozen ext m' ∧
      Rekeys m m' (Function.update m.key? h (some { k with high := c })) := by
  unfold setHigh
  refine Ends.bind (reference_spec H hs) ?_
  rintro _ m₁ ⟨H₁, hr₁⟩
  obtain ⟨n, hn, rfl⟩ := key?_eq_some_iff.1 (by rw [hr₁.key, hk] : m₁.key? h = some k)
  have hlow : Sound frozen m₁ n.low := H₁.sound_low hn hf
  refine Ends.nodeAt hn (Ends.mono (rewire_spec (u := fun n => { n with high := c }) H₁ hn hf
    rfl rfl rfl (hs.congr (by rw [hr₁.key])) hlow (H₁.sound_high hn hf) fun j => ?_) ?_)
  · show (if n.high = j then 1 else 0) + (if n.low = j then 1 else 0) + _ =
      (if c = j then 1 else 0) + (if n.low = j then 1 else 0) + _
    rw [add_right_comm, trade, add_right_comm]
  · rintro _ m₂ ⟨H₂, hr₂⟩
    refine ⟨H₂, hr₁.trans ⟨hr₂.key.trans ?_, hr₂.literalVariables, hr₂.tableBits, hr₂.products⟩⟩
    rw [hr₁.key]
    rfl

theorem setLow_spec (H : Heap frozen ext m) (hk : m.key? h = some k) (hf : frozen h = none)
    (hs : Sound frozen m c) :
    Ends (setLow h c) m fun _ m' => Heap frozen ext m' ∧
      Rekeys m m' (Function.update m.key? h (some { k with low := c })) := by
  unfold setLow
  refine Ends.bind (reference_spec H hs) ?_
  rintro _ m₁ ⟨H₁, hr₁⟩
  obtain ⟨n, hn, rfl⟩ := key?_eq_some_iff.1 (by rw [hr₁.key, hk] : m₁.key? h = some k)
  have hhigh : Sound frozen m₁ n.high := H₁.sound_high hn hf
  refine Ends.nodeAt hn (Ends.mono (rewire_spec (u := fun n => { n with low := c }) H₁ hn hf
    rfl rfl rfl hhigh (hs.congr (by rw [hr₁.key])) (H₁.sound_low hn hf) fun j => ?_) ?_)
  · show (if n.high = j then 1 else 0) + (if n.low = j then 1 else 0) + _ =
      (if n.high = j then 1 else 0) + (if c = j then 1 else 0) + _
    rw [add_assoc, trade, ← add_assoc]
  · rintro _ m₂ ⟨H₂, hr₂⟩
    refine ⟨H₂, hr₁.trans ⟨hr₂.key.trans ?_, hr₂.literalVariables, hr₂.tableBits, hr₂.products⟩⟩
    rw [hr₁.key]
    rfl

/-! ## Making nodes -/

theorem create_spec {l : Literal} {weights : Weights} (H : Heap frozen ext m)
    (hl : l.isPositive = true) (hw : Weights.ascends weights = true) :
    Ends (create l weights) m fun h m' => m.key? h = none ∧ frozen h = none ∧
      Heap frozen ext m' ∧ Rekeys m m' (Function.update m.key? h
        (some ⟨l.value, Handle.false', Handle.false', weights⟩)) := by
  unfold create
  refine Ends.lift (a := ()) (by simp [require, ensure, hl, hw]) ?_
  obtain ⟨h, a, ha⟩ : ∃ h a, m.arena.alloc
      ⟨l.value, Handle.false', Handle.false', weights, 0⟩ = (h, a) := ⟨_, _, rfl⟩
  have hpos : 0 < l.value := by simpa [Literal.isPositive] using hl
  obtain ⟨hnone, hf, H', hkey⟩ := H.alloc rfl hpos hw rfl rfl ha
  refine ⟨h, { m with arena := a }, ?_, hnone, hf, H', hkey, rfl, rfl, rfl⟩
  rw [run_modifyGet, ha]

theorem makeNode_spec {l : Literal} {weights : Weights} {high low : Handle}
    (H : Heap frozen ext m) (hl : l.isPositive = true) (hw : Weights.ascends weights = true)
    (hhigh : Sound frozen m high) (hlow : Sound frozen m low) :
    Ends (makeNode l high low weights) m fun h m' => m.key? h = none ∧ frozen h = none ∧
      Heap frozen ext m' ∧
      Rekeys m m' (Function.update m.key? h (some ⟨l.value, high, low, weights⟩)) := by
  unfold makeNode
  refine Ends.bind (create_spec H hl hw) ?_
  rintro h m₁ ⟨hnone, hf, H₁, hr₁⟩
  have hk₁ : m₁.key? h = some ⟨l.value, Handle.false', Handle.false', weights⟩ := by
    simp [hr₁.key]
  refine Ends.bind (setHigh_spec H₁ hk₁ hf (hhigh.of_update hr₁.key)) ?_
  rintro _ m₂ ⟨H₂, hr₂⟩
  have hk₂ : m₂.key? h = some ⟨l.value, high, Handle.false', weights⟩ := by
    simp [hr₂.key]
  have hlow₂ := (hlow.of_update hr₁.key).of_update hr₂.key
  refine Ends.bind (setLow_spec H₂ hk₂ hf hlow₂) ?_
  rintro _ m₃ ⟨H₃, hr₃⟩
  refine Ends.pure ⟨hnone, hf, H₃, (hr₁.trans hr₂).trans ⟨?_, hr₃.literalVariables, hr₃.tableBits,
    hr₃.products⟩⟩
  rw [hr₃.key, hr₂.key, hr₁.key]
  simp

/-! ## Freeing nodes -/

theorem free_spec (H : Heap frozen ext m) (hn : m.arena.get? h = some n) (hf : frozen h = none)
    (hrefs : n.refs = 0) :
    Ends (Decision.free h) m fun n' m' => n' = n ∧
      Heap frozen (ext + Pi.single n.high 1 + Pi.single n.low 1) m' ∧
      Rekeys m m' (Function.update m.key? h none) := by
  unfold Decision.free
  have ha := Arena.free_eq_ok hn
  obtain ⟨H', hkey⟩ := H.free hn hf hrefs ha
  refine Ends.nodeAt hn (Ends.modify (Ends.pure ?_))
  rw [ha]
  exact ⟨rfl, H', hkey, rfl, rfl, rfl⟩

/-- A node to which nobody refers is freed, and its children lose a reference; then the computation
goes on with `next`. -/
theorem free_dereference_spec {β : Type} {R : β → Manager → Prop} (next : Node → Action β)
    (H : Heap frozen ext m) (hn : m.arena.get? h = some n) (hf : frozen h = none)
    (hrefs : n.refs = 0)
    (hnext : ∀ m', Heap frozen ext m' → Rekeys m m' (Function.update m.key? h none) →
      Ends (next n) m' R) :
    Ends (do
      let n ← Decision.free h
      dereference n.high
      dereference n.low
      next n) m R := by
  obtain ⟨hunpointed, -⟩ := (H.refs_eq_zero_iff hn hf).1 hrefs
  -- the children of the freed node are other nodes
  have hsound : ∀ {c m₁}, Rekeys m m₁ (Function.update m.key? h none) →
      (n.high = c ∨ n.low = c) → Sound frozen m c → Sound frozen m₁ c := by
    intro c m₁ hr hc hs
    refine hs.congr ?_
    rw [hr.key, Function.update_of_ne]
    rintro rfl
    exact hunpointed ⟨c, n.key, hf, key?_of_get? hn, hc⟩
  refine Ends.bind (free_spec H hn hf hrefs) ?_
  rintro n' m₁ ⟨rfl, H₁, hr₁⟩
  rw [add_right_comm] at H₁
  refine Ends.bind (dereference_spec H₁ (hsound hr₁ (Or.inl rfl) (H.sound_high hn hf))) ?_
  rintro _ m₂ ⟨H₂, hr₂⟩
  have hr : Rekeys m m₂ (Function.update m.key? h none) :=
    hr₁.trans ⟨hr₂.key.trans hr₁.key, hr₂.literalVariables, hr₂.tableBits, hr₂.products⟩
  refine Ends.bind (dereference_spec H₂ (hsound hr (Or.inr rfl) (H.sound_low hn hf))) ?_
  rintro _ m₃ ⟨H₃, hr₃⟩
  exact hnext m₃ H₃
    (hr.trans ⟨hr₃.key.trans hr.key, hr₃.literalVariables, hr₃.tableBits, hr₃.products⟩)

/-- Freeing a node to which nobody refers takes it away and nothing else. -/
theorem forceDestroy_spec (H : Heap frozen ext m) (hn : m.arena.get? h = some n)
    (hf : frozen h = none) (hrefs : n.refs = 0) :
    Ends (forceDestroy h) m fun _ m' =>
      Heap frozen ext m' ∧ Rekeys m m' (Function.update m.key? h none) := by
  unfold forceDestroy
  simp only [H.not_terminal hf, Bool.false_eq_true, if_false]
  have hfree := free_dereference_spec (fun _ => pure ()) H hn hf hrefs fun m' H' hr =>
    Ends.pure (a := ()) (Q := fun _ m' => Heap frozen ext m' ∧
      Rekeys m m' (Function.update m.key? h none)) ⟨H', hr⟩
  simpa only [bind_pure_unit] using hfree

/-- A node to which nobody refers is freed. -/
theorem destroy_of_free (H : Heap frozen ext m) (hn : m.arena.get? h = some n)
    (hf : frozen h = none) (hrefs : n.refs = 0) :
    Ends (destroy h) m fun b m' => b = true ∧
      Heap frozen ext m' ∧ Rekeys m m' (Function.update m.key? h none) := by
  unfold destroy
  simp only [H.not_terminal hf, Bool.false_eq_true, if_false]
  refine Ends.nodeAt hn ?_
  simp only [hrefs, Nat.lt_irrefl, if_false]
  refine Ends.bind (forceDestroy_spec H hn hf hrefs) ?_
  rintro _ m₁ ⟨H₁, hr₁⟩
  exact Ends.pure ⟨rfl, H₁, hr₁⟩

/-- A node to which somebody refers stays, and so does a terminal. -/
theorem destroy_of_used (hn : m.arena.get? h = some n) (hrefs : h.isTerminal = true ∨ 0 < n.refs) :
    Ends (destroy h) m fun b m' => b = false ∧ m' = m := by
  unfold destroy
  cases ht : h.isTerminal with
  | true => exact Ends.pure ⟨rfl, rfl⟩
  | false =>
      rw [ht] at hrefs
      simp only [Bool.false_eq_true, false_or, if_false] at hrefs ⊢
      refine Ends.nodeAt hn ?_
      simp only [hrefs, if_true]
      exact Ends.pure ⟨rfl, rfl⟩

end BayesCircuit.Decision
