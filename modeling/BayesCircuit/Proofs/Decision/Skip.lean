import BayesCircuit.Proofs.Decision.Copy

/-!
# Leaving out low children

`collapseNode` on a pending node leaves out low children one after the other. On trees, this is
the function `Diagram.skip`: the high child and the weights of the node are those of the low child
that is left out, the literals belong to one variable, and the low edge of that child does not lead
to `true'`. `Skips` is the relation that also stops earlier.

A low child that is left out is freed if nothing else leads to it. No node is freed that was there,
attached, when the pending node was made: those nodes are `keep` in `collapseNode_spec`.
-/

namespace BayesCircuit.Decision

open Collection Action

variable {m m' : Manager} {frozen : Handle → Option Node} {pend : Set Handle} {table : Table}
variable {h g c : Handle} {k : Node.Key} {f : Handle → Option Node.Key} {D D' E : Diagram}
variable {same : Int → Int → Bool}

/-- Low children of the root are left out. -/
inductive Skips (same : Int → Int → Bool) : Diagram → Diagram → Prop
  | refl (D : Diagram) : Skips same D D
  | step {l l' : Int} {ws : Weights} {high low D : Diagram} : same l l' = true →
      low ≠ .leaf true → Skips same (.branch l ws high low) D →
      Skips same (.branch l ws high (.branch l' ws high low)) D

/-- What becomes of the low child of a node when low children are left out. -/
def Diagram.lowAfter (same : Int → Int → Bool) (l : Int) (ws : Weights) (H : Diagram) :
    Diagram → Diagram
  | .leaf b => .leaf b
  | .branch l' ws' H' Z =>
      if same l l' = true ∧ ws' = ws ∧ H' = H ∧ Z ≠ .leaf true then Diagram.lowAfter same l ws H Z
      else .branch l' ws' H' Z

/-- All low children of the root that can be left out are left out. -/
def Diagram.skip (same : Int → Int → Bool) : Diagram → Diagram
  | .leaf b => .leaf b
  | .branch l ws H L => .branch l ws H (Diagram.lowAfter same l ws H L)

theorem skip_step {l l' : Int} {ws : Weights} {Z : Diagram} (hs : same l l' = true)
    (hZ : Z ≠ .leaf true) : (Diagram.branch l ws D (.branch l' ws D Z)).skip same =
      (Diagram.branch l ws D Z).skip same := by
  rw [Diagram.skip, Diagram.lowAfter, if_pos ⟨hs, rfl, rfl, hZ⟩]
  rfl

theorem skips_skip (same : Int → Int → Bool) (D : Diagram) : Skips same D (D.skip same) := by
  have hlow : ∀ (L : Diagram) (l : Int) (ws : Weights) (H : Diagram),
      Skips same (.branch l ws H L) (.branch l ws H (Diagram.lowAfter same l ws H L)) := by
    intro L
    induction L with
    | leaf b => exact fun l ws H => .refl _
    | branch l' ws' H' Z _ ih =>
        intro l ws H
        rw [Diagram.lowAfter]
        split
        · rename_i h
          obtain ⟨hs, rfl, rfl, hZ⟩ := h
          exact .step hs hZ (ih l ws' H')
        · exact .refl _
  cases D with
  | leaf b => exact .refl _
  | branch l ws H L => exact hlow L l ws H

theorem depth_lowAfter_le {l : Int} {ws : Weights} {H L : Diagram} :
    (Diagram.lowAfter same l ws H L).depth ≤ L.depth := by
  induction L with
  | leaf b => exact Nat.le_refl _
  | branch l' ws' H' Z _ ih =>
      rw [Diagram.lowAfter]
      split
      · simp only [Diagram.depth]
        omega
      · exact Nat.le_refl _

/-! ## Which low children can be left out -/

theorem canCollapse_of_terminal {n : Node} (hh : h.isTerminal = false)
    (hn : m.arena.get? h = some n) (hl : n.low.isTerminal = true) :
    m.canCollapse h = .ok false := by
  simp [Manager.canCollapse, hh, Manager.node, Arena.get_eq_ok hn, hl, bind, Except.bind, pure,
    Except.pure]

theorem canCollapse_of_node {n low : Node} (hh : h.isTerminal = false)
    (hn : m.arena.get? h = some n) (hl : n.low.isTerminal = false)
    (hlow : m.arena.get? n.low = some low) :
    m.canCollapse h = .ok (low.low != Handle.true' && n.high == low.high &&
      n.weights == low.weights && m.sameVariable n.literal low.literal) := by
  simp [Manager.canCollapse, hh, Manager.node, Arena.get_eq_ok hn, Arena.get_eq_ok hlow, hl, bind,
    Except.bind, pure, Except.pure]

/-- The low child of a node says nothing new. -/
structure Skippable (m : Manager) (h : Handle) (k kg : Node.Key) (H Z : Diagram) : Prop where
  key : m.key? h = some k
  inner : k.low.isTerminal = false
  low : m.key? k.low = some kg
  high : kg.high = k.high
  weights : kg.weights = k.weights
  same : m.sameVariable k.literal kg.literal = true
  denotes_high : Denotes m.key? k.high H
  denotes_low : Denotes m.key? kg.low Z
  ne_true : Z ≠ .leaf true

/-- The low child of a young node says nothing new. -/
structure CanSkip (frozen : Handle → Option Node) (m : Manager) (h : Handle) (k kg : Node.Key)
    (H Z : Diagram) : Prop extends Skippable m h k kg H Z where
  young : frozen k.low = none

/-- The low child of a node has the high child of the node if it has its tree. -/
def SharesHigh (m : Manager) (h : Handle) : Prop :=
  ∀ {k kg : Node.Key} {H : Diagram}, m.key? h = some k → k.low.isTerminal = false →
    m.key? k.low = some kg → Denotes m.key? k.high H → Denotes m.key? kg.high H → kg.high = k.high

/-- Whether the low child of a node can be left out is seen from its tree. -/
theorem canCollapse_of_denotes (ht : h.isTerminal = false) (hD : Denotes m.key? h D) :
    ∃ b, m.canCollapse h = .ok b ∧ (b = true → ∃ k kg H Z, Skippable m h k kg H Z ∧
      D = .branch k.literal k.weights H (.branch kg.literal k.weights H Z)) ∧
      (b = false → SharesHigh m h → D.skip m.sameVariable = D) := by
  obtain ⟨k, H, L, hk, hH, hL, rfl⟩ := hD.cases_node ht
  obtain ⟨n, hn, rfl⟩ := key?_eq_some_iff.1 hk
  cases htl : n.low.isTerminal with
  | true =>
      refine ⟨false, canCollapse_of_terminal ht hn htl, ?_, fun _ _ => ?_⟩
      · rintro ⟨⟩
      · have hleaf := hL.isTerminal_eq.symm.trans htl
        cases L with
        | leaf b => rfl
        | branch => cases hleaf
  | false =>
      obtain ⟨kg, Hg, Z, hkg, hHg, hZ, rfl⟩ := hL.cases_node htl
      obtain ⟨low, hlow, rfl⟩ := key?_eq_some_iff.1 hkg
      refine ⟨_, canCollapse_of_node ht hn htl hlow, fun hb => ?_, fun hb hshares => ?_⟩
      swap
      · rw [Diagram.skip, Diagram.lowAfter, if_neg]
        rintro ⟨hsame, hweights, rfl, hZt⟩
        have hhigh := hshares hk htl hkg hH hHg
        rw [ne_eq, ← hZ.eq_true_iff] at hZt
        simp only [Node.key] at hhigh hweights hsame hZt
        simp [hhigh, hweights, hsame, hZt] at hb
      simp only [Bool.and_eq_true, bne_iff_ne, ne_eq, beq_iff_eq] at hb
      obtain ⟨⟨⟨htrue, hhigh⟩, hweights⟩, hsame⟩ := hb
      have hHg' : Denotes m.key? n.high Hg := by
        rw [hhigh]
        exact hHg
      obtain rfl := hH.unique hHg'
      refine ⟨n.key, low.key, H, Z,
        ⟨hk, htl, hkg, hhigh.symm, hweights.symm, hsame, hH, hZ, ?_⟩, ?_⟩
      · rwa [ne_eq, ← hZ.eq_true_iff]
      · simp [Node.key, hweights]

theorem canCollapse_spec {ext : Handle → Nat} (Hm : Heap frozen ext m) (hf : frozen h = none)
    (hD : Denotes m.key? h D) :
    ∃ b, m.canCollapse h = .ok b ∧ (b = true → ∃ k kg H Z, CanSkip frozen m h k kg H Z ∧
      D = .branch k.literal k.weights H (.branch kg.literal k.weights H Z)) ∧
      (b = false → SharesHigh m h → D.skip m.sameVariable = D) := by
  obtain ⟨b, hb, hcan, hstop⟩ := canCollapse_of_denotes (Hm.not_terminal hf) hD
  refine ⟨b, hb, fun hbt => ?_, hstop⟩
  obtain ⟨k, kg, H, Z, S, hbranch⟩ := hcan hbt
  have hyoung := (Hm.closed h k hf S.key).2.resolve_left (by simp [S.inner])
  exact ⟨k, kg, H, Z, ⟨S, hyoung⟩, hbranch⟩

/-! ## Forgetting a node -/

theorem getElem?_eraseValue {p : Handle × Handle} {r v : Handle}
    {memo : Memo (Handle × Handle) Handle} (h : (memo.eraseValue v).entries[p]? = some r) :
    memo.entries[p]? = some r ∧ r ≠ v := by
  simp only [Memo.eraseValue, Std.HashMap.getElem?_filter', Option.filter_eq_some_iff] at h
  exact ⟨h.1, by simpa using h.2⟩

theorem forget_spec (hvalid : table.Valid) (hk : m.key? g = some k)
    (hentry : ∀ {k' c}, table.get? k' = some c → m.key? c = some k') :
    Ends (forget table g) m fun table' m' =>
      m' = { m with products := m.products.eraseValue g } ∧ table'.Valid ∧
      ∀ {k' c}, table'.get? k' = some c ↔ table.get? k' = some c ∧ c ≠ g := by
  obtain ⟨n, hn, rfl⟩ := key?_eq_some_iff.1 hk
  unfold forget
  refine Ends.nodeAt hn (Ends.modify (Ends.pure ⟨rfl, ?_, ?_⟩))
  · split
    · exact UniqueTable.valid_erase hvalid
    · exact hvalid
  intro k' c
  -- an entry for the node stands under its own key
  have hown : table.get? k' = some c → c = g → k' = n.key := by
    intro hc hcg
    have := hentry hc
    rw [hcg, hk] at this
    exact (Option.some.inj this).symm
  split
  · rename_i hlisted
    rw [beq_iff_eq] at hlisted
    rw [UniqueTable.get?_erase hvalid]
    split
    · rename_i hkey
      subst hkey
      rw [hlisted]
      refine ⟨fun hc => ?_, fun hc => absurd (Option.some.inj hc.1).symm hc.2⟩
      cases hc
    · rename_i hkey
      exact ⟨fun hc => ⟨hc, fun hcg => hkey (hown hc hcg)⟩, And.left⟩
  · rename_i hnot
    refine ⟨fun hc => ⟨hc, fun hcg => hnot ?_⟩, And.left⟩
    rw [← hown hc hcg, hc, hcg]
    simp

/-! ## Past a low child -/

/-- A node leads past its low child, to which nothing else led and which is gone. -/
structure Freed (frozen : Handle → Option Node) (ext : Handle → Nat) (m : Manager) (table : Table)
    (h : Handle) (k kg : Node.Key) (m' : Manager) (table' : Table) : Prop where
  heap : Heap frozen ext m'
  closed : Closed frozen (Function.update m.key? h (some { k with low := kg.low }))
  unpointed : ¬ Pointed frozen (Function.update m.key? h (some { k with low := kg.low })) k.low
  key : m'.key? =
    Function.update (Function.update m.key? h (some { k with low := kg.low })) k.low none
  products : m'.products = m.products.eraseValue k.low
  literalVariables : m'.literalVariables = m.literalVariables
  tableBits : m'.tableBits = m.tableBits
  valid : table'.Valid
  entry : ∀ {k' c}, table'.get? k' = some c ↔ table.get? k' = some c ∧ c ≠ k.low

/-- One round of `collapseNode` at a node that is not in the table; the loop goes on with `next`.
The low child stays if something else leads to it or holds it. -/
theorem bypass_spec {β : Type} {R : β → Manager → Prop} {kg : Node.Key} {ext : Handle → Nat}
    (next : Table → Action β) (Hm : Heap frozen ext m) (hvalid : table.Valid)
    (hentry : ∀ {k' c}, table.get? k' = some c → m.key? c = some k' ∧ c ≠ h)
    (hf : frozen h = none) (hk : m.key? h = some k) (hg : m.key? k.low = some kg)
    (hgf : frozen k.low = none) (hne : k.low ≠ h)
    (hkept : ∀ m', Heap frozen ext m' →
      Rekeys m m' (Function.update m.key? h (some { k with low := kg.low })) →
      Pointed frozen m'.key? k.low ∨ 0 < ext k.low → Ends (next table) m' R)
    (hfreed : ∀ table' m', Freed frozen ext m table h k kg m' table' → ext k.low = 0 →
      Ends (next table') m' R) :
    Ends (do
      setLow h kg.low
      if (← nodeAt k.low).refs == 0 then do
          let table ← forget table k.low
          forceDestroy k.low
          next table
        else next table) m R := by
  refine Ends.bind (setLow_spec Hm hk hf (Hm.sound_of_key hgf hg).2) ?_
  rintro _ m₁ ⟨H₁, hr₁⟩
  have hg₁ : m₁.key? k.low = some kg := by rw [hr₁.key, Function.update_of_ne hne, hg]
  obtain ⟨ng, hng, -⟩ := key?_eq_some_iff.1 hg₁
  refine Ends.nodeAt hng ?_
  have hzero := H₁.refs_eq_zero_iff hng hgf
  by_cases hrefs : ng.refs = 0
  · obtain ⟨hunp, hext⟩ := hzero.1 hrefs
    simp only [hrefs, BEq.rfl, if_true]
    -- the entries of the table are nodes that the change of `h` did not touch
    refine Ends.bind (forget_spec hvalid hg₁ fun hc => ?_) ?_
    · obtain ⟨hck, hch⟩ := hentry hc
      rw [hr₁.key, Function.update_of_ne hch, hck]
    rintro table' m₂ ⟨rfl, hvalid', htable⟩
    have H₂ : Heap frozen ext { m₁ with products := m₁.products.eraseValue k.low } := H₁.congr rfl
    refine Ends.bind (forceDestroy_spec H₂ hng hgf hrefs) ?_
    rintro _ m₃ ⟨H₃, hr₃⟩
    refine hfreed table' m₃ ⟨H₃, hr₁.key ▸ H₁.closed, hr₁.key ▸ hunp, ?_, ?_,
      hr₃.literalVariables.trans hr₁.literalVariables, hr₃.tableBits.trans hr₁.tableBits, hvalid',
      htable⟩ hext
    · rw [hr₃.key, ← hr₁.key]
      rfl
    · rw [hr₃.products, ← hr₁.products]
  · have hbeq : (ng.refs == 0) = false := by simpa using hrefs
    simp only [hbeq, Bool.false_eq_true, if_false]
    refine hkept m₁ H₁ hr₁ ?_
    by_contra hnot
    rw [not_or] at hnot
    exact hrefs (hzero.2 ⟨hnot.1, by omega⟩)

/-! ## One low child less -/

/-- Every node of `keep` is there, and is pending or has an edge from another such node. -/
structure Keeps (frozen : Handle → Option Node) (pend : Set Handle)
    (keep : Handle → Option Node.Key) (m : Manager) : Prop where
  kept : ∀ {g k}, keep g = some k → m.key? g = some k
  attached : Attached frozen pend keep

/-- What leaving out low children does to the rest of the heap. -/
structure Shed (frozen : Handle → Option Node) (pend : Set Handle)
    (keep : Handle → Option Node.Key) (m m' : Manager) (table' : Table) : Prop where
  tidy : Tidy frozen pend m' table'
  kept : ∀ {g k}, keep g = some k → m'.key? g = some k
  thinned : ∀ {g k}, g ∉ pend → m'.key? g = some k → m.key? g = some k
  retains : Retains frozen pend m m'
  attached : ∀ s, Attached frozen s m.key? → Attached frozen s m'.key?
  literalVariables : m'.literalVariables = m.literalVariables
  tableBits : m'.tableBits = m.tableBits

variable {keep : Handle → Option Node.Key} {table' table'' : Table} {m'' : Manager}

theorem Shed.refl (T : Tidy frozen pend m table) (K : Keeps frozen pend keep m) :
    Shed frozen pend keep m m table :=
  ⟨T, K.kept, fun _ => id, Retains.refl m, fun _ ha => ha, rfl, rfl⟩

theorem Shed.trans (h₁ : Shed frozen pend keep m m' table')
    (h₂ : Shed frozen pend keep m' m'' table'') : Shed frozen pend keep m m'' table'' :=
  ⟨h₂.tidy, h₂.kept, fun hg hk => h₁.thinned hg (h₂.thinned hg hk), h₁.retains.trans h₂.retains,
    fun s ha => h₂.attached s (h₁.attached s ha), h₂.literalVariables.trans h₁.literalVariables,
    h₂.tableBits.trans h₁.tableBits⟩

/-- Past the low child `g` of the pending node `h`, whose high child is that of `h`, as long as
something else leads to `g`. -/
theorem Shed.of_pointed {kg : Node.Key} (T : Tidy frozen pend m table)
    (K : Keeps frozen pend keep m) (hh : h ∈ pend) (hkeep : keep h = none)
    (hk : m.key? h = some k) (hg : m.key? k.low = some kg) (hgf : frozen k.low = none)
    (H' : Heap frozen 0 m')
    (hr : Rekeys m m' (Function.update m.key? h (some { k with low := kg.low })))
    (hp : Pointed frozen m'.key? k.low) : Shed frozen pend keep m m' table := by
  have hhf := T.young hh
  have hneg : k.low ≠ h := fun he => T.unpointed hh ⟨h, k, hhf, hk, Or.inr he⟩
  refine ⟨T.set H' hr hh ?_ ?_, ?_, fun hj hkj => ?_, ?_, ?_, hr.literalVariables, hr.tableBits⟩
  · exact fun hc => T.unpointed hc ⟨h, k, hhf, hk, Or.inl rfl⟩
  · exact fun hc => T.unpointed hc ⟨k.low, kg, hgf, hg, Or.inr rfl⟩
  · intro j kj hj
    rw [hr.key, Function.update_of_ne, K.kept hj]
    rintro rfl
    rw [hkeep] at hj
    cases hj
  · rwa [hr.key, Function.update_of_ne] at hkj
    rintro rfl
    exact hj hh
  · intro p c hc
    rw [hr.products] at hc
    refine ⟨hc, fun D hcf hcp hD => ?_⟩
    rw [hr.key]
    exact hD.update_of_not_pointed T.heap.closed (T.unpointed hh) hcf (fun he => hcp (he ▸ hh))
  · intro s ha j kj hj hkj
    have hkh : m'.key? h = some { k with low := kg.low } := by simp [hr.key]
    have hlive : (m.key? j).isSome := by
      rw [hr.key] at hkj
      by_cases hjh : j = h
      · simp [hjh, hk]
      · rw [Function.update_of_ne hjh] at hkj
        simp [hkj]
    obtain ⟨k₀, hk₀⟩ := Option.isSome_iff_exists.1 hlive
    rcases ha j k₀ hj hk₀ with hs | ⟨i, ki, hi, hki, hkij⟩
    · exact Or.inl hs
    · refine Or.inr ?_
      by_cases hih : i = h
      · subst hih
        rw [hk] at hki
        cases hki
        rcases hkij with rfl | rfl
        · exact ⟨i, _, hi, hkh, Or.inl rfl⟩
        · exact hp
      · exact ⟨i, ki, hi, by rw [hr.key, Function.update_of_ne hih, hki], hkij⟩

/-- Past the low child `g` of the pending node `h`, whose high child is that of `h`, when nothing
else leads to `g` and it is freed. -/
theorem Shed.of_freed {kg : Node.Key} (T : Tidy frozen pend m table)
    (K : Keeps frozen pend keep m) (hh : h ∈ pend) (hkeep : keep h = none)
    (hk : m.key? h = some k) (hg : m.key? k.low = some kg) (hgf : frozen k.low = none)
    (hhigh : kg.high = k.high) (F : Freed frozen 0 m table h k kg m' table') :
    Shed frozen pend keep m m' table' := by
  have hhf := T.young hh
  have hneg : k.low ≠ h := fun he => T.unpointed hh ⟨h, k, hhf, hk, Or.inr he⟩
  have hgp : k.low ∉ pend := fun hc => T.unpointed hc ⟨h, k, hhf, hk, Or.inr rfl⟩
  have hhighp : k.high ∉ pend := fun hc => T.unpointed hc ⟨h, k, hhf, hk, Or.inl rfl⟩
  have hlowp : kg.low ∉ pend := fun hc => T.unpointed hc ⟨k.low, kg, hgf, hg, Or.inr rfl⟩
  have hother : ∀ {j}, j ≠ h → j ≠ k.low → m'.key? j = m.key? j := by
    intro j hjh hjg
    rw [F.key, Function.update_of_ne hjg, Function.update_of_ne hjh]
  have hkh : m'.key? h = some { k with low := kg.low } := by
    rw [F.key, Function.update_of_ne hneg.symm, Function.update_self]
  have hgone : m'.key? k.low = none := by rw [F.key, Function.update_self]
  refine ⟨⟨F.heap, F.valid, ?_, ?_, T.young, ?_, ?_⟩, ?_, fun {j kj} hj hkj => ?_, ?_, ?_,
    F.literalVariables, F.tableBits⟩
  · intro k' c hc
    obtain ⟨hc, hne⟩ := F.entry.1 hc
    obtain ⟨hck, hcf, hcp⟩ := T.entry hc
    have hch : c ≠ h := fun he => hcp (he ▸ hh)
    exact ⟨by rw [hother hch hne, hck], hcf, hcp⟩
  · intro j kj hf hj hkj
    have hjg : j ≠ k.low := by
      rintro rfl
      simp [F.key] at hkj
    have hjh : j ≠ h := by
      rintro rfl
      exact hj hh
    rw [hother hjh hjg] at hkj
    exact F.entry.2 ⟨T.complete hf hj hkj, hjg⟩
  · intro j hj
    have hjg : j ≠ k.low := fun he => hgp (he ▸ hj)
    by_cases hjh : j = h
    · simp [hjh, hkh]
    · rw [hother hjh hjg]
      exact T.live hj
  · intro j hj hpj
    rw [F.key] at hpj
    rcases hpj.of_update_none.of_update_some with hpj | rfl | rfl
    · exact T.unpointed hj hpj
    · exact hhighp hj
    · exact hlowp hj
  · intro j kj hj
    have hjh : j ≠ h := by
      rintro rfl
      rw [hkeep] at hj
      cases hj
    have hjg : j ≠ k.low := by
      -- a node of `keep` that is not pending has an edge from a node of `keep`, which is not `h`
      rintro rfl
      rcases K.attached _ kj hgf hj with hs | ⟨i, ki, hi, hki, hkij⟩
      · exact hgp hs
      · refine F.unpointed ⟨i, ki, hi, ?_, hkij⟩
        rw [Function.update_of_ne, K.kept hki]
        rintro rfl
        rw [hkeep] at hki
        cases hki
    rw [hother hjh hjg, K.kept hj]
  · have hjh : j ≠ h := by
      rintro rfl
      exact hj hh
    have hjg : j ≠ k.low := by
      rintro rfl
      rw [hgone] at hkj
      cases hkj
    rwa [hother hjh hjg] at hkj
  · intro p c hc
    rw [F.products] at hc
    obtain ⟨hc, hne⟩ := getElem?_eraseValue hc
    refine ⟨hc, fun D hcf hcp hD => ?_⟩
    have hch : c ≠ h := fun he => hcp (he ▸ hh)
    rw [F.key]
    exact (hD.update_of_not_pointed T.heap.closed (T.unpointed hh) hcf hch).update_of_not_pointed
      F.closed F.unpointed hcf hne
  · intro s ha j kj hj hkj
    have hjg : j ≠ k.low := by
      rintro rfl
      simp [F.key] at hkj
    have hlive : (m.key? j).isSome := by
      by_cases hjh : j = h
      · simp [hjh, hk]
      · rw [hother hjh hjg] at hkj
        simp [hkj]
    obtain ⟨k₀, hk₀⟩ := Option.isSome_iff_exists.1 hlive
    rcases ha j k₀ hj hk₀ with hs | ⟨i, ki, hi, hki, hkij⟩
    · exact Or.inl hs
    · refine Or.inr ?_
      by_cases hih : i = h
      · subst hih
        rw [hk] at hki
        cases hki
        rcases hkij with rfl | rfl
        · exact ⟨i, _, hi, hkh, Or.inl rfl⟩
        · exact absurd rfl hjg
      · by_cases hig : i = k.low
        · -- what the freed node led to, `h` leads to now
          subst hig
          rw [hg] at hki
          cases hki
          rcases hkij with rfl | rfl
          · exact ⟨h, _, hhf, hkh, Or.inl hhigh.symm⟩
          · exact ⟨h, _, hhf, hkh, Or.inr rfl⟩
        · exact ⟨i, ki, hi, by rw [hother hih hig, hki], hkij⟩

/-! ## The loop -/

/-- One round of `collapseNode` at a pending node whose low child can be left out; the loop goes on
with `next`. -/
theorem skip_spec {β : Type} {R : β → Manager → Prop} {kg : Node.Key} (next : Table → Action β)
    (T : Tidy frozen pend m table) (K : Keeps frozen pend keep m)
    (hh : h ∈ pend) (hkeep : keep h = none) (hk : m.key? h = some k)
    (hg : m.key? k.low = some kg) (hgf : frozen k.low = none) (hhigh : kg.high = k.high)
    (hnext : ∀ table' m', Shed frozen pend keep m m' table' →
      m'.key? h = some { k with low := kg.low } →
      (∀ c D, c ∉ pend → c ≠ k.low → (c.isTerminal = true ∨ frozen c = none) →
        Denotes m.key? c D → Denotes m'.key? c D) → Ends (next table') m' R) :
    Ends (do
      setLow h kg.low
      if (← nodeAt k.low).refs == 0 then do
          let table ← forget table k.low
          forceDestroy k.low
          next table
        else next table) m R := by
  have hhf := T.young hh
  have hneg : k.low ≠ h := fun he => T.unpointed hh ⟨h, k, hhf, hk, Or.inr he⟩
  have hdenotes : ∀ c D, c ∉ pend → (c.isTerminal = true ∨ frozen c = none) →
      Denotes m.key? c D →
      Denotes (Function.update m.key? h (some { k with low := kg.low })) c D :=
    fun c D hcp hc hD =>
      hD.update_of_not_pointed T.heap.closed (T.unpointed hh) hc (fun he => hcp (he ▸ hh))
  refine bypass_spec next T.heap T.valid (fun hc => ?_) hhf hk hg hgf hneg
    (fun m' H' hr hp => ?_) fun table' m' F _ => ?_
  · obtain ⟨hck, -, hcp⟩ := T.entry hc
    exact ⟨hck, fun he => hcp (he ▸ hh)⟩
  · have hpointed := hp.resolve_right (Nat.lt_irrefl 0)
    refine hnext table m' (Shed.of_pointed T K hh hkeep hk hg hgf H' hr hpointed) ?_ ?_
    · rw [hr.key, Function.update_self]
    · exact fun c D hcp _ hc hD => hr.key ▸ hdenotes c D hcp hc hD
  · refine hnext table' m' (Shed.of_freed T K hh hkeep hk hg hgf hhigh F) ?_ ?_
    · rw [F.key, Function.update_of_ne hneg.symm, Function.update_self]
    · intro c D hcp hcg hc hD
      rw [F.key]
      exact (hdenotes c D hcp hc hD).update_of_not_pointed F.closed F.unpointed hc hcg

/-- The children of a young node are finished. -/
theorem Tidy.ready_high (T : Tidy frozen pend m table) (hg : frozen g = none)
    (hk : m.key? g = some k) : Ready frozen pend k.high :=
  ⟨(T.heap.closed g k hg hk).1, fun hp => T.unpointed hp ⟨g, k, hg, hk, Or.inl rfl⟩⟩

theorem Tidy.ready_low (T : Tidy frozen pend m table) (hg : frozen g = none)
    (hk : m.key? g = some k) : Ready frozen pend k.low :=
  ⟨(T.heap.closed g k hg hk).2, fun hp => T.unpointed hp ⟨g, k, hg, hk, Or.inr rfl⟩⟩

/-- Finished nodes with one tree are one node. -/
theorem Tidy.eq_of_denotes (T : Tidy frozen pend m table) (hD : Denotes m.key? g D)
    (hD' : Denotes m.key? c D) (hg : Ready frozen pend g) (hc : Ready frozen pend c) : g = c := by
  have hyoung : ∀ {j : Handle}, Ready frozen pend j → j.isTerminal = false → frozen j = none :=
    fun hj ht => hj.young.resolve_left (by simp [ht])
  refine hD.eq_of_distinct hD' hg hc (fun hj ht hk => ?_) fun hi hj hti htj hki hkj => ?_
  · exact ⟨T.ready_high (hyoung hj ht) hk, T.ready_low (hyoung hj ht) hk⟩
  · exact T.eq_of_key (hyoung hi hti) (hyoung hj htj) hi.finished hj.finished hki hkj

theorem Tidy.sharesHigh (T : Tidy frozen pend m table) (hh : h ∈ pend) : SharesHigh m h := by
  intro k kg H hk hlow hkg hH hH'
  have hhf := T.young hh
  have hgf := (T.ready_low hhf hk).young.resolve_left (by simp [hlow])
  exact T.eq_of_denotes hH' hH (T.ready_high hgf hkg) (T.ready_high hhf hk)

theorem collapseNode_spec :
    ∀ {fuel m table D}, Tidy frozen pend m table → Keeps frozen pend keep m → h ∈ pend →
      keep h = none → Denotes m.key? h D → D.depth ≤ fuel →
      Ends (collapseNode fuel table h) m fun r m' => Shed frozen pend keep m m' r.2 ∧
        Denotes m'.key? h (D.skip m.sameVariable)
  | 0, m, table, D, T, K, hh, _, hD, hfuel => by
      obtain ⟨k, H, L, -, -, -, rfl⟩ := hD.cases_node (T.heap.not_terminal (T.young hh))
      exact absurd hfuel (Nat.not_succ_le_zero _)
  | fuel + 1, m, table, D, T, K, hh, hkeep, hD, hfuel => by
      unfold collapseNode
      have hhf := T.young hh
      obtain ⟨b, hb, hcan, hstop⟩ := canCollapse_spec T.heap hhf hD
      refine Ends.get (Ends.lift hb ?_)
      cases b with
      | false => exact Ends.pure ⟨Shed.refl T K, (hstop rfl (T.sharesHigh hh)).symm ▸ hD⟩
      | true =>
          obtain ⟨k, kg, H, Z, S, rfl⟩ := hcan rfl
          obtain ⟨n, hn, rfl⟩ := key?_eq_some_iff.1 S.key
          obtain ⟨ng, hng, rfl⟩ := key?_eq_some_iff.1 S.low
          simp only [Bool.not_true, Bool.false_eq_true, if_false]
          refine Ends.nodeAt hn (Ends.nodeAt hng ?_)
          refine skip_spec (fun table => collapseNode fuel table h >>= fun r => pure (true, r.2)) T K
            hh hkeep S.key S.low S.young S.high ?_
          intro table₁ m₁ S₁ hk₁ hden
          have hL : Denotes m.key? n.low (.branch ng.literal n.weights H Z) := by
            have := Denotes.node (T.heap.not_terminal S.young) S.low (S.high ▸ S.denotes_high)
              S.denotes_low
            rwa [S.weights] at this
          -- neither child of the new node is pending or is the one that was left out
          have hhigh : Denotes m₁.key? n.high H :=
            hden _ _ (fun hc => T.unpointed hc ⟨h, _, hhf, S.key, Or.inl rfl⟩)
              (S.denotes_high.ne_of_depth_lt hL (by simp only [Diagram.depth]; omega))
              (T.heap.closed h _ hhf S.key).1 S.denotes_high
          have hlow : Denotes m₁.key? ng.low Z :=
            hden _ _ (fun hc => T.unpointed hc ⟨n.low, _, S.young, S.low, Or.inr rfl⟩)
              (S.denotes_low.ne_of_depth_lt hL (by simp only [Diagram.depth]; omega))
              (T.heap.closed n.low _ S.young S.low).2 S.denotes_low
          have hD₁ : Denotes m₁.key? h (.branch n.literal n.weights H Z) :=
            .node (T.heap.not_terminal hhf) hk₁ hhigh hlow
          have hsame : m₁.sameVariable = m.sameVariable := by
            funext a b
            simp [Manager.sameVariable, Manager.variableOf?, S₁.literalVariables]
          refine Ends.bind (collapseNode_spec S₁.tidy ⟨S₁.kept, K.attached⟩ hh hkeep hD₁ ?_) ?_
          · simp only [Diagram.depth] at hfuel ⊢
            omega
          rintro ⟨_, table₂⟩ m₂ ⟨S₂, hD₂⟩
          rw [hsame] at hD₂
          exact Ends.pure ⟨S₁.trans S₂, (skip_step S.same S.ne_true).symm ▸ hD₂⟩

end BayesCircuit.Decision
