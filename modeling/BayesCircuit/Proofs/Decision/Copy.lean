import BayesCircuit.Decision.Collapse
import BayesCircuit.Proofs.Decision.Pass

/-!
# Copies and valid managers

A copy of a frozen diagram is a young node with the same tree (`copy_spec`). Nodes that are there
already stay what they are, and no product is touched.

A manager is valid if its terminals are there and its decision nodes are such as `create` makes.
Every operation takes the nodes that it finds as frozen and adds young ones, so it starts on a heap
without young nodes (`Valid.heap`) and leaves a valid manager (`Heap.valid_manager`).
-/

namespace BayesCircuit.Decision

open Collection Action

variable {m m' : Manager} {frozen : Handle → Option Node} {pend : Set Handle} {table : Table}
variable {h c : Handle} {D : Diagram}

/-- The decision nodes among the frozen ones are such as `create` makes. -/
def WellFormed (frozen : Handle → Option Node) : Prop :=
  ∀ {h n}, frozen h = some n → h.isTerminal = false →
    0 < n.literal ∧ Weights.ascends n.weights = true

/-- Where a finished diagram may stand: at a terminal, or at a young node that is not pending. -/
structure Ready (frozen : Handle → Option Node) (pend : Set Handle) (c : Handle) : Prop where
  young : c.isTerminal = true ∨ frozen c = none
  finished : c ∉ pend

/-- Every finished copy has the tree of its original. -/
def Copies (frozen : Handle → Option Node) (pend : Set Handle) (m : Manager)
    (finished : Std.HashMap Handle Handle) : Prop :=
  ∀ (h c : Handle), finished[h]? = some c → Ready frozen pend c ∧
    ∃ D, Denotes (frozenKey frozen) h D ∧ Denotes m.key? c D

theorem Copies.grows {finished : Std.HashMap Handle Handle}
    (hC : Copies frozen pend m finished) (hg : Grows m m') : Copies frozen pend m' finished := by
  intro h c hc
  obtain ⟨hr, D, hD, hDc⟩ := hC h c hc
  exact ⟨hr, D, hD, hg.denotes hDc⟩

theorem Copies.insert {finished : Std.HashMap Handle Handle}
    (hC : Copies frozen pend m finished) (hr : Ready frozen pend c)
    (hD : Denotes (frozenKey frozen) h D) (hDc : Denotes m.key? c D) :
    Copies frozen pend m (finished.insert h c) := by
  intro h' c' hc
  rw [Std.HashMap.getElem?_insert] at hc
  split at hc
  · rename_i hh
    cases hc
    rw [beq_iff_eq] at hh
    subst hh
    exact ⟨hr, D, hD, hDc⟩
  · exact hC h' c' hc

theorem sound_of_denotes (hc : c.isTerminal = true ∨ frozen c = none)
    (hD : Denotes m.key? c D) : Sound frozen m c := by
  rcases hc with hc | hc
  · exact Or.inl hc
  · cases hD with
    | false' => exact Or.inl rfl
    | true' => exact Or.inl rfl
    | node _ hk _ _ => exact Or.inr ⟨hc, by rw [hk]; rfl⟩

/-- The copy of a diagram, and what its making leaves. Every node that is new has a part of the
diagram as its tree, and therefore each property that the parts inherit from the diagram. -/
structure Copied (frozen : Handle → Option Node) (pend : Set Handle) (m : Manager) (D : Diagram)
    (c : Handle) (table : Table) (m' : Manager) : Prop where
  tidy : Tidy frozen pend m' table
  denotes : Denotes m'.key? c D
  ready : Ready frozen pend c
  grows : Grows m m'
  products : m'.products = m.products
  attached : ∀ s, Attached frozen s m.key? → Attached frozen (insert c s) m'.key?
  made : ∀ {P : Diagram → Prop} {g}, (∀ {l ws H L}, P (.branch l ws H L) → P H ∧ P L) → P D →
    (m'.key? g).isSome → (m.key? g).isSome ∨ ∃ E, Denotes m'.key? g E ∧ P E

theorem Tidy.ready_of_terminal (T : Tidy frozen pend m table) (hc : c.isTerminal = true) :
    Ready frozen pend c :=
  ⟨Or.inl hc, T.not_mem_of_terminal hc⟩

/-- A node over two copies is a copy. -/
theorem merge_makeNode_spec {l : Literal} {ws : Weights} {c₁ c₂ : Handle} {H L : Diagram}
    (T : Tidy frozen pend m table) (hl : l.isPositive = true) (hw : Weights.ascends ws = true)
    (hH : Denotes m.key? c₁ H) (hL : Denotes m.key? c₂ L)
    (hr₁ : Ready frozen pend c₁) (hr₂ : Ready frozen pend c₂) :
    Ends (makeNode l c₁ c₂ ws >>= merge table) m fun r m' =>
      Tidy frozen pend m' r.2 ∧ Denotes m'.key? r.1 (.branch l.value ws H L) ∧
      Ready frozen pend r.1 ∧ Grows m m' ∧ m'.products = m.products ∧
      (∀ s, Attached frozen (insert c₂ (insert c₁ s)) m.key? →
        Attached frozen (insert r.1 s) m'.key?) ∧
      ∀ g, (m'.key? g).isSome → (m.key? g).isSome ∨ g = r.1 := by
  have hs₁ : Sound frozen m c₁ := sound_of_denotes hr₁.young hH
  have hs₂ : Sound frozen m c₂ := sound_of_denotes hr₂.young hL
  refine Ends.bind (makeNode_spec T.heap hl hw hs₁ hs₂) ?_
  rintro h m₁ ⟨hnone, hf, H₁, hr⟩
  have T₁ := T.add H₁ hnone hf hr hs₁ hs₂ hr₁.finished hr₂.finished
  have hk₁ : m₁.key? h = some ⟨l.value, c₁, c₂, ws⟩ := by simp [hr.key]
  have hh : h ∉ pend := by
    intro hp
    have := T.live hp
    simp [hnone] at this
  have hgrow : ∀ {j k}, m.key? j = some k → m₁.key? j = some k := by
    intro j k hk
    rw [hr.key, Function.update_of_ne, hk]
    rintro rfl
    rw [hnone] at hk
    cases hk
  refine Ends.mono (merge_spec T₁ hk₁ hh) ?_
  rintro ⟨c, table'⟩ m₂ M
  have hg : Grows m m₂ := by
    refine ⟨fun {j k} hk => ?_, M.literalVariables.trans hr.literalVariables,
      M.tableBits.trans hr.tableBits⟩
    rw [M.others, hgrow hk]
    rintro rfl
    rw [hnone] at hk
    cases hk
  refine ⟨M.tidy, ?_, ⟨Or.inr M.young, M.finished⟩, hg, M.products.trans hr.products, ?_,
    fun g hlive => ?_⟩
  · exact .node (M.tidy.heap.not_terminal M.young) M.key (hg.denotes hH) (hg.denotes hL)
  · intro s ha
    refine M.attached s fun g k hgf hk => ?_
    -- the two copies are attached to the new node
    by_cases hgh : g = h
    · exact Or.inl (hgh ▸ Set.mem_insert _ _)
    rw [hr.key, Function.update_of_ne hgh] at hk
    rcases ha g k hgf hk with hs | ⟨i, ki, hi, hki, hkg⟩
    · rcases Set.mem_insert_iff.1 hs with rfl | hs
      · exact Or.inr ⟨h, _, hf, hk₁, Or.inr rfl⟩
      rcases Set.mem_insert_iff.1 hs with rfl | hs
      · exact Or.inr ⟨h, _, hf, hk₁, Or.inl rfl⟩
      · exact Or.inl (Set.mem_insert_of_mem _ hs)
    · exact Or.inr ⟨i, ki, hi, hgrow hki, hkg⟩
  · obtain ⟨k, hk⟩ := Option.isSome_iff_exists.1 hlive
    have hk₀ := M.thinned hk
    by_cases hgh : g = h
    · -- if the new node is still there, it is its own twin
      subst hgh
      obtain rfl := Option.some.inj (hk₁.symm.trans hk₀)
      exact Or.inr (M.tidy.eq_of_key hf M.young hh M.finished hk M.key)
    · rw [hr.key, Function.update_of_ne hgh] at hk₀
      exact Or.inl (by rw [hk₀]; rfl)

theorem copyFrom_spec (hw : WellFormed frozen) :
    ∀ {fuel h p m D}, Tidy frozen pend m p.table → Copies frozen pend m p.finished →
      Denotes (frozenKey frozen) h D → D.depth < fuel →
      Ends (copyFrom fuel h p) m fun r m' => Copied frozen pend m D r.1 r.2.table m' ∧
        Copies frozen pend m' r.2.finished
  | 0, _, _, _, _, _, _, _, hd => absurd hd (Nat.not_lt_zero _)
  | fuel + 1, h, p, m, D, T, hC, hD, hd => by
      unfold copyFrom
      cases ht : h.isTerminal with
      | true =>
          have hDm : Denotes m.key? h D := T.heap.denotes_of_frozen hD
          exact Ends.pure ⟨⟨T, hDm, T.ready_of_terminal ht, Grows.refl m, rfl,
            fun s ha => ha.mono (Set.subset_insert _ _), fun _ _ => Or.inl⟩, hC⟩
      | false =>
          simp only [Bool.false_eq_true, if_false]
          cases hfin : p.finished[h]? with
          | some c =>
              obtain ⟨hr, D', hD', hDc⟩ := hC h c hfin
              obtain rfl := hD.unique hD'
              exact Ends.pure ⟨⟨T, hDc, hr, Grows.refl m, rfl,
                fun s ha => ha.mono (Set.subset_insert _ _), fun _ _ => Or.inl⟩, hC⟩
          | none =>
              obtain ⟨k, H, L, hk, hH, hL, rfl⟩ := hD.cases_node ht
              obtain ⟨n, hn, rfl⟩ := Option.map_eq_some_iff.1 hk
              obtain ⟨hpos, hasc⟩ := hw hn ht
              simp only [Diagram.depth] at hd
              refine Ends.nodeAt (T.heap.kept hn) ?_
              refine Ends.bind (copyFrom_spec hw T hC hH (by omega)) ?_
              rintro ⟨c₁, p₁⟩ m₁ ⟨C₁, hC₁⟩
              refine Ends.bind (copyFrom_spec hw C₁.tidy hC₁ hL (by omega)) ?_
              rintro ⟨c₂, p₂⟩ m₂ ⟨C₂, hC₂⟩
              have hne : n.literal ≠ 0 := by omega
              refine Ends.lift (a := ⟨n.literal, hne⟩) (by simp [Literal.of, hne]) ?_
              have hmade := merge_makeNode_spec (l := ⟨n.literal, hne⟩) C₂.tidy
                (by simpa [Literal.isPositive] using hpos) hasc (C₂.grows.denotes C₁.denotes)
                C₂.denotes C₁.ready C₂.ready
              obtain ⟨⟨c, table'⟩, m₃, hrun, T₃, hDc, hr, hg, hprod, hatt, hnew⟩ := hmade
              have hall : Copied frozen pend m (.branch n.literal n.weights H L) c table' m₃ := by
                refine ⟨T₃, hDc, hr, (C₁.grows.trans C₂.grows).trans hg,
                  hprod.trans (C₂.products.trans C₁.products),
                  fun s ha => hatt s (C₂.attached _ (C₁.attached s ha)), fun hP hPD hlive => ?_⟩
                rcases hnew _ hlive with hlive | rfl
                · rcases C₂.made hP (hP hPD).2 hlive with hlive | ⟨E, hE, hPE⟩
                  · rcases C₁.made hP (hP hPD).1 hlive with hlive | ⟨E, hE, hPE⟩
                    · exact Or.inl hlive
                    · exact Or.inr ⟨E, hg.denotes (C₂.grows.denotes hE), hPE⟩
                  · exact Or.inr ⟨E, hg.denotes hE, hPE⟩
                · exact Or.inr ⟨_, hDc, hPD⟩
              have hend : Ends (pure (c, (⟨table', p₂.finished.insert h c⟩ : Pass))) m₃
                  fun r m' => Copied frozen pend m (.branch n.literal n.weights H L) r.1
                    r.2.table m' ∧ Copies frozen pend m' r.2.finished :=
                Ends.pure ⟨hall, (hC₂.grows hg).insert hr (.node ht hk hH hL) hDc⟩
              have := Ends.step
                (f := fun r => pure (r.1, (⟨r.2, p₂.finished.insert h r.1⟩ : Pass))) hrun hend
              rw [bind_assoc] at this
              exact this

/-- A copy of a frozen diagram has its tree. -/
theorem copy_spec (hw : WellFormed frozen) (T : Tidy frozen pend m table)
    (hD : Denotes (frozenKey frozen) h D) :
    Ends (copy table h) m fun r m' => Copied frozen pend m D r.1 r.2 m' := by
  unfold copy depthBound
  have hd : D.depth < m.arena.size + 1 :=
    Nat.lt_succ_of_le (T.heap.denotes_of_frozen hD).depth_le_size
  refine Ends.step (a := m.arena.size + 1) rfl ?_
  refine Ends.bind (copyFrom_spec hw (p := ⟨table, ∅⟩) T ?_ hD hd) ?_
  · intro h c hc
    simp at hc
  · rintro ⟨c, p⟩ m' ⟨C, _⟩
    exact Ends.pure C

end BayesCircuit.Decision

/-! ## Valid managers -/

namespace BayesCircuit.Decision

open Collection

variable {m m' : Manager} {ext : Handle → Nat} {frozen : Handle → Option Node}

/-- The nodes are in order, and there is room for unique tables. -/
structure Manager.Valid (m : Manager) : Prop where
  arena : m.arena.Valid
  terminal : ∀ h : Handle, h.isTerminal = true → (m.arena.get? h).isSome
  wellFormed : WellFormed m.arena.get?
  room : m.tableBits ≤ Arena.maxBits

theorem Manager.get?_start {literalVariables : Array Variable} {bits : Nat} {h : Handle} :
    (Manager.start literalVariables bits).arena.get? h =
      if h = Handle.true' then some Node.trueNode
      else if h = Handle.false' then some Node.falseNode else none := by
  have hv := Arena.valid_alloc (x := Node.falseNode) Arena.valid_empty
  show Arena.get? (Arena.alloc _ _).2 h = _
  rw [Arena.get?_alloc hv, Arena.get?_alloc Arena.valid_empty, Arena.get?_empty]
  rfl

/-- A new manager is valid. -/
theorem Manager.valid_start {literalVariables : Array Variable} {bits : Nat}
    (hb : bits ≤ Arena.maxBits) : (Manager.start literalVariables bits).Valid := by
  have hv := Arena.valid_alloc (x := Node.falseNode) Arena.valid_empty
  refine ⟨Arena.valid_alloc hv, fun h ht => ?_, fun {h n} hn ht => ?_, hb⟩
  · rw [Manager.get?_start]
    rcases isTerminal_iff.1 ht with rfl | rfl <;> rfl
  · rw [Manager.get?_start] at hn
    split at hn
    · rename_i he
      rw [he] at ht
      cases ht
    · split at hn
      · rename_i he
        rw [he] at ht
        cases ht
      · cases hn

/-- A node such as `create` makes may be added. -/
theorem Manager.Valid.alloc {n : Node} (V : m.Valid) (hpos : 0 < n.literal)
    (hasc : Weights.ascends n.weights = true) :
    ({ m with arena := (m.arena.alloc n).2 } : Manager).Valid where
  arena := Arena.valid_alloc V.arena
  terminal h ht := by
    rw [Arena.get?_alloc V.arena]
    split
    · rfl
    · exact V.terminal h ht
  wellFormed {h n'} hn ht := by
    rw [Arena.get?_alloc V.arena] at hn
    split at hn
    · cases hn
      exact ⟨hpos, hasc⟩
    · exact V.wellFormed hn ht
  room := V.room

theorem Manager.Valid.heap (V : m.Valid) : Heap m.arena.get? 0 m where
  valid := V.arena
  terminal := V.terminal
  kept hn := hn
  literal_pos hn hf := by simp [hn] at hf
  ascends hn hf := by simp [hn] at hf
  sound_high hn hf := by simp [hn] at hf
  sound_low hn hf := by simp [hn] at hf
  counted hn hf := by simp [hn] at hf
  held _ := rfl

theorem Heap.valid_manager (H : Heap m.arena.get? ext m') (V : m.Valid)
    (hb : m'.tableBits = m.tableBits) : m'.Valid where
  arena := H.valid
  terminal h ht := by
    obtain ⟨n, hn⟩ := Option.isSome_iff_exists.1 (V.terminal h ht)
    rw [H.kept hn]
    rfl
  wellFormed {h n} hn ht := by
    cases hf : m.arena.get? h with
    | some n' =>
        rw [H.kept hf] at hn
        cases hn
        exact V.wellFormed hf ht
    | none => exact ⟨H.literal_pos hn hf, H.ascends hn hf⟩
  room := hb ▸ V.room

/-- A pass starts with an empty table. -/
theorem Manager.Valid.newTable (V : m.Valid) :
    Action.Ends newTable m fun table m' => m' = m ∧ Tidy m.arena.get? ∅ m table := by
  have hsize : 0 < 2 ^ min m.tableBits UniqueTable.maxBucketBits := Nat.two_pow_pos _
  have htable : UniqueTable.empty m.tableBits = .ok (UniqueTable.ofBuckets
      (2 ^ min m.tableBits UniqueTable.maxBucketBits) : Table) := UniqueTable.empty_eq_ok V.room
  unfold Decision.newTable
  refine Action.Ends.get ?_
  rw [htable]
  refine Action.Ends.of_run rfl ⟨rfl, V.heap, UniqueTable.valid_ofBuckets hsize, ?_, ?_, ?_,
    ?_, ?_⟩
  · intro k c hk
    rw [UniqueTable.get?_ofBuckets hsize] at hk
    cases hk
  · intro h k hf _ hk
    rw [key?_eq_none_iff.2 hf] at hk
    cases hk
  all_goals exact fun hh => hh.elim

end BayesCircuit.Decision
