import BayesCircuit.Proofs.Decision.Diagram

/-!
# Passes

A pass makes young nodes with a unique table of its own. While it runs, some of the young nodes
are *pending*: they have been made, their edges are being set, and nothing leads to them.
`Tidy frozen pend m table` collects what holds between two steps of a pass: the table maps the keys
of all finished nodes to these nodes, and no young node leads to a pending one.

A node that is finished and not attached yet is *loose*. All other young nodes have an edge that
leads to them, and therefore a step that frees nodes frees none of them.

The main result is `merge_spec`: a node that is finished is replaced by the node of the table that
equals it, and this changes no other diagram.
-/

namespace BayesCircuit.Decision

open Collection Action

variable {m m' m'' : Manager} {frozen : Handle → Option Node} {pend : Set Handle} {table : Table}
variable {h g c : Handle} {k : Node.Key} {f f' : Handle → Option Node.Key} {D : Diagram}

/-- What holds between two steps of a pass. -/
structure Tidy (frozen : Handle → Option Node) (pend : Set Handle) (m : Manager) (table : Table) :
    Prop where
  heap : Heap frozen 0 m
  valid : table.Valid
  entry : ∀ {k c}, table.get? k = some c → m.key? c = some k ∧ frozen c = none ∧ c ∉ pend
  complete : ∀ {h k}, frozen h = none → h ∉ pend → m.key? h = some k → table.get? k = some h
  young : ∀ {h}, h ∈ pend → frozen h = none
  live : ∀ {h}, h ∈ pend → (m.key? h).isSome
  unpointed : ∀ {h}, h ∈ pend → ¬ Pointed frozen m.key? h

/-- Every young node is in the set or has an edge that leads to it. -/
def Attached (frozen : Handle → Option Node) (s : Set Handle) (f : Handle → Option Node.Key) :
    Prop :=
  ∀ g k, frozen g = none → f g = some k → g ∈ s ∨ Pointed frozen f g

/-- All nodes stay what they are. -/
structure Grows (m m' : Manager) : Prop where
  key : ∀ {h k}, m.key? h = some k → m'.key? h = some k
  literalVariables : m'.literalVariables = m.literalVariables
  tableBits : m'.tableBits = m.tableBits

/-- Every product that is left was there before, and means the same if it is not pending. -/
def Retains (frozen : Handle → Option Node) (pend : Set Handle) (m m' : Manager) : Prop :=
  ∀ (k : Handle × Handle) (c : Handle), m'.products.entries[k]? = some c →
    m.products.entries[k]? = some c ∧ ∀ D, (c.isTerminal = true ∨ frozen c = none) → c ∉ pend →
      Denotes m.key? c D → Denotes m'.key? c D

theorem Grows.refl (m : Manager) : Grows m m := ⟨id, rfl, rfl⟩

theorem Grows.trans (h₁ : Grows m m') (h₂ : Grows m' m'') : Grows m m'' :=
  ⟨fun hk => h₂.key (h₁.key hk), h₂.literalVariables.trans h₁.literalVariables,
    h₂.tableBits.trans h₁.tableBits⟩

theorem Grows.denotes (hg : Grows m m') (hD : Denotes m.key? h D) : Denotes m'.key? h D :=
  hD.mono fun _ _ => hg.key

theorem Grows.sound (hg : Grows m m') (hs : Sound frozen m c) : Sound frozen m' c :=
  hs.of_extends fun _ _ => hg.key

theorem Retains.refl (m : Manager) : Retains frozen pend m m :=
  fun _ _ hk => ⟨hk, fun _ _ _ hD => hD⟩

theorem Retains.trans (h₁ : Retains frozen pend m m') (h₂ : Retains frozen pend m' m'') :
    Retains frozen pend m m'' := by
  intro k c hk
  obtain ⟨hk', hD'⟩ := h₂ k c hk
  obtain ⟨hk, hD⟩ := h₁ k c hk'
  exact ⟨hk, fun D hc hp hDc => hD' D hc hp (hD D hc hp hDc)⟩

theorem Retains.of_grows (hg : Grows m m') (hp : m'.products = m.products) :
    Retains frozen pend m m' := by
  intro k c hk
  rw [hp] at hk
  exact ⟨hk, fun D _ _ hD => hg.denotes hD⟩

theorem Retains.subset {pend' : Set Handle} (hr : Retains frozen pend m m') (hp : pend ⊆ pend') :
    Retains frozen pend' m m' := by
  intro k c hk
  obtain ⟨hk', hD⟩ := hr k c hk
  exact ⟨hk', fun D hc hn => hD D hc fun hc' => hn (hp hc')⟩

/-! ## Edges after a change -/

theorem Pointed.of_update_none (hp : Pointed frozen (Function.update f h none) g) :
    Pointed frozen f g := by
  obtain ⟨i, k, hi, hk, hkg⟩ := hp
  by_cases hih : i = h
  · subst hih
    simp at hk
  · rw [Function.update_of_ne hih] at hk
    exact ⟨i, k, hi, hk, hkg⟩

theorem Pointed.of_update_some (hp : Pointed frozen (Function.update f h (some k)) g) :
    Pointed frozen f g ∨ k.high = g ∨ k.low = g := by
  obtain ⟨i, k', hi, hk, hkg⟩ := hp
  by_cases hih : i = h
  · subst hih
    simp only [Function.update_self, Option.some.injEq] at hk
    subst hk
    exact Or.inr hkg
  · rw [Function.update_of_ne hih] at hk
    exact Or.inl ⟨i, k', hi, hk, hkg⟩

theorem Heap.ne_of_dead {ext : Handle → Nat} (H : Heap frozen ext m) (hh : m.key? h = none)
    (hs : Sound frozen m c) : c ≠ h := by
  rintro rfl
  obtain ⟨n, hn⟩ := H.live hs
  rw [key?_of_get? hn] at hh
  cases hh

/-- The edges of a young node are sound. -/
theorem Heap.sound_of_key {ext : Handle → Nat} (H : Heap frozen ext m) (hf : frozen h = none)
    (hk : m.key? h = some k) : Sound frozen m k.high ∧ Sound frozen m k.low := by
  obtain ⟨n, hn, rfl⟩ := key?_eq_some_iff.1 hk
  exact ⟨H.sound_high hn hf, H.sound_low hn hf⟩

namespace Tidy

/-- Finished nodes that are equal are one node. -/
theorem eq_of_key (T : Tidy frozen pend m table) (hg : frozen g = none) (hh : frozen h = none)
    (hgp : g ∉ pend) (hhp : h ∉ pend) (hkg : m.key? g = some k) (hkh : m.key? h = some k) :
    g = h :=
  Option.some.inj ((T.complete hg hgp hkg).symm.trans (T.complete hh hhp hkh))

theorem not_mem_of_terminal (T : Tidy frozen pend m table) (hc : c.isTerminal = true) :
    c ∉ pend := by
  intro hp
  have := T.heap.terminal c hc
  simp [T.young hp] at this

/-- Only the nodes and the table matter. -/
theorem congr (T : Tidy frozen pend m table) (ha : m'.arena = m.arena) :
    Tidy frozen pend m' table := by
  have hkey : m'.key? = m.key? := key?_congr ha
  refine ⟨T.heap.congr ha, T.valid, ?_, ?_, T.young, ?_, ?_⟩
  · rw [hkey]
    exact T.entry
  · rw [hkey]
    exact T.complete
  · rw [hkey]
    exact T.live
  · rw [hkey]
    exact T.unpointed

/-- The edges of a pending node are set. -/
theorem set (T : Tidy frozen pend m table) (H' : Heap frozen 0 m')
    (hr : Rekeys m m' (Function.update m.key? h (some k))) (hh : h ∈ pend)
    (hhigh : k.high ∉ pend) (hlow : k.low ∉ pend) : Tidy frozen pend m' table := by
  refine ⟨H', T.valid, ?_, ?_, T.young, ?_, ?_⟩
  · intro k' c hk
    obtain ⟨hc, hf, hp⟩ := T.entry hk
    refine ⟨?_, hf, hp⟩
    rw [hr.key, Function.update_of_ne, hc]
    rintro rfl
    exact hp hh
  · intro g kg hf hg hkg
    have hgh : g ≠ h := by
      rintro rfl
      exact hg hh
    rw [hr.key, Function.update_of_ne hgh] at hkg
    exact T.complete hf hg hkg
  · intro g hg
    rw [hr.key]
    by_cases hgh : g = h
    · simp [hgh]
    · simpa [hgh] using T.live hg
  · intro g hg hp
    rw [hr.key] at hp
    rcases hp.of_update_some with hp | hp | hp
    · exact T.unpointed hg hp
    · exact hhigh (hp ▸ hg)
    · exact hlow (hp ▸ hg)

/-- A node is made, and becomes pending. -/
theorem add (T : Tidy frozen pend m table) (H' : Heap frozen 0 m') (hnone : m.key? h = none)
    (hf : frozen h = none) (hr : Rekeys m m' (Function.update m.key? h (some k)))
    (hhigh : Sound frozen m k.high) (hlow : Sound frozen m k.low)
    (hhigh' : k.high ∉ pend) (hlow' : k.low ∉ pend) :
    Tidy frozen (insert h pend) m' table := by
  refine ⟨H', T.valid, ?_, ?_, ?_, ?_, ?_⟩
  · intro k' c hk
    obtain ⟨hc, hfc, hp⟩ := T.entry hk
    have hne : c ≠ h := by
      rintro rfl
      rw [hnone] at hc
      cases hc
    refine ⟨by rw [hr.key, Function.update_of_ne hne, hc], hfc, ?_⟩
    rw [Set.mem_insert_iff]
    exact not_or.2 ⟨hne, hp⟩
  · intro g kg hfg hg hkg
    rw [Set.mem_insert_iff, not_or] at hg
    rw [hr.key, Function.update_of_ne hg.1] at hkg
    exact T.complete hfg hg.2 hkg
  · intro g hg
    rcases Set.mem_insert_iff.1 hg with rfl | hg
    · exact hf
    · exact T.young hg
  · intro g hg
    rw [hr.key]
    by_cases hgh : g = h
    · simp [hgh]
    · have := T.live ((Set.mem_insert_iff.1 hg).resolve_left hgh)
      simpa [hgh] using this
  · intro g hg hp
    rw [hr.key] at hp
    have hnot : ¬ Pointed frozen m.key? g := by
      rcases Set.mem_insert_iff.1 hg with rfl | hg
      · exact T.heap.not_pointed (key?_eq_none_iff.1 hnone)
      · exact T.unpointed hg
    rcases hp.of_update_some with hp | he | he
    · exact hnot hp
    · rcases Set.mem_insert_iff.1 hg with rfl | hg
      · exact T.heap.ne_of_dead hnone hhigh he
      · exact hhigh' (he ▸ hg)
    · rcases Set.mem_insert_iff.1 hg with rfl | hg
      · exact T.heap.ne_of_dead hnone hlow he
      · exact hlow' (he ▸ hg)

/-- A pending node is freed. -/
theorem remove (T : Tidy frozen (insert h pend) m table) (H' : Heap frozen 0 m')
    (hr : Rekeys m m' (Function.update m.key? h none)) (hh : h ∉ pend) :
    Tidy frozen pend m' table := by
  have hsub : ∀ {g}, g ∈ pend → g ∈ insert h pend := Set.mem_insert_of_mem h
  have hne : ∀ {g}, g ∈ pend → g ≠ h := by
    rintro g hg rfl
    exact hh hg
  refine ⟨H', T.valid, ?_, ?_, fun hg => T.young (hsub hg), ?_, ?_⟩
  · intro k c hk
    obtain ⟨hc, hf, hp⟩ := T.entry hk
    rw [Set.mem_insert_iff, not_or] at hp
    exact ⟨by rw [hr.key, Function.update_of_ne hp.1, hc], hf, hp.2⟩
  · intro g kg hf hg hkg
    have hgh : g ≠ h := by
      rintro rfl
      simp [hr.key] at hkg
    rw [hr.key, Function.update_of_ne hgh] at hkg
    exact T.complete hf (by simp [hgh, hg]) hkg
  · intro g hg
    rw [hr.key, Function.update_of_ne (hne hg)]
    exact T.live (hsub hg)
  · intro g hg hp
    rw [hr.key] at hp
    exact T.unpointed (hsub hg) hp.of_update_none

/-- A pending node is finished and enters the table. -/
theorem insert (T : Tidy frozen (insert h pend) m table) (hk : m.key? h = some k)
    (hh : h ∉ pend) (hnone : table.get? k = none) : Tidy frozen pend m (table.store k h) := by
  have hsub : ∀ {g}, g ∈ pend → g ∈ Insert.insert h pend := Set.mem_insert_of_mem h
  refine ⟨T.heap, UniqueTable.valid_store T.valid hnone, ?_, ?_, fun hg => T.young (hsub hg),
    fun hg => T.live (hsub hg), fun hg => T.unpointed (hsub hg)⟩
  · intro k' c hc
    rw [UniqueTable.get?_store T.valid hnone] at hc
    split at hc
    · rename_i hkk
      cases hc
      exact ⟨hkk ▸ hk, T.young (Set.mem_insert _ _), hh⟩
    · obtain ⟨hck, hcf, hcp⟩ := T.entry hc
      exact ⟨hck, hcf, fun hp => hcp (hsub hp)⟩
  · intro g kg hf hg hkg
    rw [UniqueTable.get?_store T.valid hnone]
    by_cases hgh : g = h
    · subst hgh
      rw [hk] at hkg
      rw [if_pos (Option.some.inj hkg).symm]
    · have hget := T.complete hf (by simp [hgh, hg]) hkg
      rw [if_neg, hget]
      rintro rfl
      rw [hnone] at hget
      cases hget

end Tidy

/-! ## Merging -/

theorem Attached.mono {s t : Set Handle} (ha : Attached frozen s f) (hst : s ⊆ t) :
    Attached frozen t f :=
  fun g k hg hk => (ha g k hg hk).imp_left (hst ·)

/-- What a finished node leads to, its twin leads to as well. -/
theorem Attached.remove_twin {s : Set Handle} (ha : Attached frozen (insert h s) f)
    (hk : f h = some k) (hc : f c = some k) (hf : frozen c = none) (hne : c ≠ h) :
    Attached frozen (insert c s) (Function.update f h none) := by
  intro g k' hg hk'
  have hgh : g ≠ h := by
    rintro rfl
    simp at hk'
  rw [Function.update_of_ne hgh] at hk'
  rcases ha g k' hg hk' with hs | ⟨i, ki, hi, hki, hkg⟩
  · exact Or.inl (Set.mem_insert_of_mem _ ((Set.mem_insert_iff.1 hs).resolve_left hgh))
  · refine Or.inr ?_
    by_cases hih : i = h
    · subst hih
      rw [hk] at hki
      cases hki
      exact ⟨c, k, hf, by rw [Function.update_of_ne hne, hc], hkg⟩
    · exact ⟨i, ki, hi, by rw [Function.update_of_ne hih, hki], hkg⟩

/-- A finished node becomes its twin: no other node changes. -/
structure Merged (frozen : Handle → Option Node) (pend : Set Handle) (m : Manager) (h : Handle)
    (k : Node.Key) (r : Handle × Table) (m' : Manager) : Prop where
  tidy : Tidy frozen pend m' r.2
  key : m'.key? r.1 = some k
  young : frozen r.1 = none
  finished : r.1 ∉ pend
  others : ∀ {g}, g ≠ h → m'.key? g = m.key? g
  thinned : ∀ {g k'}, m'.key? g = some k' → m.key? g = some k'
  attached : ∀ s, Attached frozen (insert h s) m.key? → Attached frozen (insert r.1 s) m'.key?
  literalVariables : m'.literalVariables = m.literalVariables
  tableBits : m'.tableBits = m.tableBits
  products : m'.products = m.products

theorem merge_spec (T : Tidy frozen (insert h pend) m table) (hk : m.key? h = some k)
    (hh : h ∉ pend) : Ends (merge table h) m (Merged frozen pend m h k) := by
  obtain ⟨n, hn, rfl⟩ := key?_eq_some_iff.1 hk
  have hmem : h ∈ insert h pend := Set.mem_insert _ _
  have hf := T.young hmem
  have hp := T.unpointed hmem
  have hrefs : n.refs = 0 := (T.heap.refs_eq_zero_iff hn hf).2 ⟨hp, rfl⟩
  unfold merge
  simp only [T.heap.not_terminal hf, Bool.false_eq_true, if_false]
  refine Ends.nodeAt hn ?_
  cases hc : table.get? n.key with
  | none =>
      simp only [UniqueTable.findOrInsert_of_none hc]
      exact Ends.pure
        ⟨T.insert hk hh hc, hk, hf, hh, fun _ => rfl, id, fun _ ha => ha, rfl, rfl, rfl⟩
  | some c =>
      simp only [UniqueTable.findOrInsert_of_some hc]
      obtain ⟨hck, hcf, hcp⟩ := T.entry hc
      rw [Set.mem_insert_iff, not_or] at hcp
      obtain ⟨hch, hcp⟩ := hcp
      have hbne : (c != h) = true := by simpa using hch
      simp only [hbne, if_true]
      refine Ends.bind (P := fun _ m' => Heap frozen 0 m' ∧
        Rekeys m m' (Function.update m.key? h none)) ?_ ?_
      · refine Ends.bind (destroy_of_free T.heap hn hf hrefs) ?_
        rintro b m' ⟨_, H', hr⟩
        exact Ends.pure ⟨H', hr⟩
      · rintro _ m' ⟨H', hr⟩
        refine Ends.pure ⟨T.remove H' hr hh, ?_, hcf, hcp, ?_, ?_, ?_, hr.literalVariables,
          hr.tableBits, hr.products⟩
        · rw [hr.key, Function.update_of_ne hch, hck]
        · intro g hg
          rw [hr.key, Function.update_of_ne hg]
        · intro g k' hg
          rw [hr.key] at hg
          by_cases hgh : g = h
          · simp [hgh] at hg
          · rwa [Function.update_of_ne hgh] at hg
        · intro s ha
          rw [hr.key]
          exact ha.remove_twin hk hck hcf hch

end BayesCircuit.Decision
