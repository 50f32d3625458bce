import BayesCircuit.Proofs.References.Construct

/-!
# Passes whose handles do not dangle

While a pass runs, its nodes are made, changed, merged and left out, and the slot of a freed node
is given to the next one. `Steady` says that the unique table nevertheless lists nodes under their
keys, and that no node from before the pass and no open node is ever freed. `Carries` says what
happens to the products: what is recorded by the pass has a reference, and keeps one as long as it
is recorded.

Nothing is assumed about the products from before the pass. They may be stale, so an edge that is
set to one of them can lead anywhere, even to an open node. That is why the graph of the nodes need
not stay free of cycles, and why only the low edges, which never come from a product, are known to
lead to finished nodes of the pass (`Steady.low`): a node that is left out is always one of these.
-/

namespace BayesCircuit.Decision

open Collection Action

variable {m m' m'' : Manager} {frozen : Handle → Option Node} {ext ext' : Handle → Nat}
variable {old f : Handle → Option Node.Key} {s t : Set Handle} {h g c : Handle}
variable {k k' : Node.Key} {table table' : Table}

/-! ## Recorded handles -/

/-- A handle is that of a terminal, or of a node to which somebody refers. -/
def Manager.Refers (m : Manager) (c : Handle) : Prop :=
  c.isTerminal = true ∨ ∃ n, m.arena.get? c = some n ∧ 0 < n.refs

theorem Heap.refers_iff (H : Heap frozen ext m) (hb : Bare frozen) :
    m.Refers c ↔ c.isTerminal = true ∨ Pointed frozen m.key? c ∨ 0 < ext c := by
  unfold Manager.Refers
  cases ht : c.isTerminal with
  | true => simp
  | false =>
      have hf := hb c ht
      simp only [Bool.false_eq_true, false_or]
      constructor
      · intro hrefs
        obtain ⟨n, hn, hpos⟩ := hrefs
        by_contra hno
        rw [not_or] at hno
        have hzero := (H.refs_eq_zero_iff hn hf).2 ⟨hno.1, by omega⟩
        omega
      · intro hheld
        have hlive : ∃ n, m.arena.get? c = some n := by
          apply Option.ne_none_iff_exists'.1
          intro hdead
          obtain hp | he := hheld
          · exact H.not_pointed hdead hp
          · have hzero := H.held hdead
            omega
        obtain ⟨n, hn⟩ := hlive
        refine ⟨n, hn, Nat.pos_of_ne_zero fun hrefs => ?_⟩
        obtain ⟨hp, he⟩ := (H.refs_eq_zero_iff hn hf).1 hrefs
        obtain hp' | he' := hheld
        · exact hp hp'
        · omega

theorem Manager.Refers.congr (hc : m.Refers c) (ha : m'.arena = m.arena) : m'.Refers c := by
  unfold Manager.Refers at hc ⊢
  rwa [ha]

/-- What is recorded later was recorded before or is referred to, and whatever is still recorded is
referred to if it was before. -/
def Carries (m m' : Manager) : Prop :=
  ∀ (p : Handle × Handle) (c : Handle), m'.products.entries[p]? = some c →
    (m.products.entries[p]? = some c ∨ m'.Refers c) ∧ (m.Refers c → m'.Refers c)

theorem Carries.refl (m : Manager) : Carries m m := fun _ _ hc => ⟨Or.inl hc, id⟩

theorem Carries.trans (h₁ : Carries m m') (h₂ : Carries m' m'') : Carries m m'' := by
  intro p c hc
  obtain ⟨hrec, hrefs⟩ := h₂ p c hc
  obtain hc' | hrefs' := hrec
  · obtain ⟨hrec', hrefs'⟩ := h₁ p c hc'
    exact ⟨hrec'.imp_right hrefs, fun hm => hrefs (hrefs' hm)⟩
  · exact ⟨Or.inr hrefs', fun _ => hrefs'⟩

theorem Carries.of_unmoved (hu : Unmoved m m') : Carries m m' := by
  intro p c hc
  rw [hu.entries] at hc
  exact ⟨Or.inl hc, fun hrefs => hrefs.congr hu.arena⟩

/-- Edges are only added, apart from those of handles that are referred to nevertheless or that are
forgotten. -/
theorem Carries.of_pointed (hb : Bare frozen) (H : Heap frozen ext m) (H' : Heap frozen ext' m')
    (he : ∀ c, ext c ≤ ext' c)
    (hrec : ∀ {p : Handle × Handle} {c : Handle}, m'.products.entries[p]? = some c →
      m.products.entries[p]? = some c ∧ (c.isTerminal = false → Pointed frozen m.key? c →
        m'.Refers c)) : Carries m m' := by
  intro p c hc
  obtain ⟨hold, hpointed⟩ := hrec hc
  refine ⟨Or.inl hold, fun hrefs => ?_⟩
  cases ht : c.isTerminal with
  | true => exact Or.inl ht
  | false =>
      obtain ht' | hp | hpos := (H.refers_iff hb).1 hrefs
      · rw [ht] at ht'
        cases ht'
      · exact hpointed ht hp
      · exact (H'.refers_iff hb).2 (Or.inr (Or.inr (lt_of_lt_of_le hpos (he c))))

/-- Edges are only added, and the record stays as it is. -/
theorem Carries.of_edges (hb : Bare frozen) (H : Heap frozen ext m) (H' : Heap frozen ext' m')
    (he : ∀ c, ext c ≤ ext' c) (hproducts : m'.products = m.products)
    (hedges : ∀ {c : Handle}, c.isTerminal = false → Pointed frozen m.key? c →
      Pointed frozen m'.key? c) : Carries m m' := by
  refine .of_pointed hb H H' he fun {p c} hc => ?_
  rw [hproducts] at hc
  exact ⟨hc, fun ht hp => (H'.refers_iff hb).2 (Or.inr (Or.inl (hedges ht hp)))⟩

/-- An edge stays unless its node is changed, and then if the node keeps it. -/
theorem Pointed.update_some (hp : Pointed frozen f c) (hf : frozen h = none)
    (hkeep : ∀ k₀, f h = some k₀ → k₀.high = c ∨ k₀.low = c → k.high = c ∨ k.low = c) :
    Pointed frozen (Function.update f h (some k)) c := by
  obtain ⟨i, k₀, hi, hk₀, hc⟩ := hp
  by_cases hih : i = h
  · subst hih
    exact ⟨i, k, hf, Function.update_self _ _ _, hkeep k₀ hk₀ hc⟩
  · exact ⟨i, k₀, hi, by rw [Function.update_of_ne hih, hk₀], hc⟩

/-- What a freed node led to is still led to if another node leads there too. -/
theorem Pointed.update_none (hp : Pointed frozen f c) {kg : Node.Key}
    (hg : f g = some kg) (hf : frozen h = none) (hk : f h = some k) (hne : h ≠ g)
    (hkeep : kg.high = c ∨ kg.low = c → k.high = c ∨ k.low = c) :
    Pointed frozen (Function.update f g none) c := by
  obtain ⟨i, k₀, hi, hk₀, hc⟩ := hp
  by_cases hig : i = g
  · subst hig
    obtain rfl := Option.some.inj (hg.symm.trans hk₀)
    exact ⟨h, k, hf, by rw [Function.update_of_ne hne, hk], hkeep hc⟩
  · exact ⟨i, k₀, hi, by rw [Function.update_of_ne hig, hk₀], hc⟩

/-! ## The invariant -/

/-- A terminal, or a node of the pass that is not open. -/
def Own (old : Handle → Option Node.Key) (s : Set Handle) (c : Handle) : Prop :=
  c.isTerminal = true ∨ old c = none ∧ c ∉ s

theorem Own.mono (hc : Own old s c) (hts : t ⊆ s) : Own old t c :=
  hc.imp_right fun hown => ⟨hown.1, fun hct => hown.2 (hts hct)⟩

theorem Own.insert (hc : Own old s c) (hne : c ≠ h) : Own old (insert h s) c := by
  refine hc.imp_right fun hown => ⟨hown.1, fun hcs => ?_⟩
  exact hcs.elim hne hown.2

/-- What holds between two steps of a pass which started with the nodes `old` and whose open nodes
are `s`. -/
structure Steady (frozen : Handle → Option Node) (ext : Handle → Nat)
    (old : Handle → Option Node.Key) (s : Set Handle) (table : Table) (m : Manager) : Prop
    extends Listed table m where
  heap : Heap frozen ext m
  own : ∀ {k c}, table.get? k = some c → Own old s c
  opened : ∀ {h}, h ∈ s → h.isTerminal = false ∧ (m.key? h).isSome ∧ old h = none
  kept : ∀ {h k}, old h = some k → m.key? h = some k
  low : ∀ {h k}, h.isTerminal = false → old h = none → m.key? h = some k → Own old s k.low

namespace Steady

/-- Some of the open nodes are no longer open. -/
theorem close (S : Steady frozen ext old s table m) (hts : t ⊆ s) :
    Steady frozen ext old t table m :=
  ⟨S.toListed, S.heap, fun hc => (S.own hc).mono hts, fun hh => S.opened (hts hh), S.kept,
    fun hh hnew hk => (S.low hh hnew hk).mono hts⟩

/-- The nodes stay, but their holders may change. -/
theorem with_heap (S : Steady frozen ext old s table m) (H' : Heap frozen ext' m')
    (hkey : m'.key? = m.key?) : Steady frozen ext' old s table m' := by
  refine ⟨⟨S.valid, ?_⟩, H', S.own, ?_, ?_, ?_⟩
  · rw [hkey]
    exact S.entry
  · rw [hkey]
    exact S.opened
  · rw [hkey]
    exact S.kept
  · rw [hkey]
    exact S.low

/-- Only the nodes matter, not the products. -/
theorem congr (S : Steady frozen ext old s table m) (ha : m'.arena = m.arena) :
    Steady frozen ext old s table m' :=
  S.with_heap (S.heap.congr ha) (key?_congr ha)

theorem not_old (S : Steady frozen ext old s table m) (hk : m.key? h = none) : old h = none := by
  cases hold : old h with
  | none => rfl
  | some k =>
      rw [S.kept hold] at hk
      cases hk

theorem not_mem_of_dead (S : Steady frozen ext old s table m) (hk : m.key? h = none) : h ∉ s := by
  intro hs
  have hlive := (S.opened hs).2.1
  rw [hk] at hlive
  cases hlive

/-- A node is made, which is open. -/
theorem add (S : Steady frozen ext old s table m) (hh : h.isTerminal = false)
    (hnone : m.key? h = none) (H' : Heap frozen ext m')
    (hkey : m'.key? = Function.update m.key? h (some k)) (hlow : k.low.isTerminal = true)
    (hb : Bare frozen) : Steady frozen ext old (insert h s) table m' := by
  have hother : ∀ {c : Handle}, c ≠ h → m'.key? c = m.key? c := fun hc => by
    rw [hkey, Function.update_of_ne hc]
  have hne : ∀ {c : Handle}, (m.key? c).isSome → c ≠ h := by
    intro c hc he
    rw [he, hnone] at hc
    cases hc
  refine ⟨⟨S.valid, fun hc => ?_⟩, H', fun hc => ?_, fun hg => ?_, fun {g k} hg => ?_,
    fun {g kg} hgt hnew hkg => ?_⟩
  · obtain ⟨hct, hck⟩ := S.entry hc
    exact ⟨hct, by rw [hother (hne (by rw [hck]; rfl)), hck]⟩
  · exact (S.own hc).insert (hne (by rw [(S.entry hc).2]; rfl))
  · obtain rfl | hg := hg
    · exact ⟨hh, by rw [hkey, Function.update_self]; rfl, S.not_old hnone⟩
    · obtain ⟨hgt, hlive, hnew⟩ := S.opened hg
      exact ⟨hgt, by rwa [hother (hne hlive)], hnew⟩
  · have hkg := S.kept hg
    rw [hother (hne (by rw [hkg]; rfl)), hkg]
  · by_cases hgh : g = h
    · subst hgh
      rw [hkey, Function.update_self] at hkg
      cases hkg
      exact Or.inl hlow
    · rw [hother hgh] at hkg
      -- the edges that were there do not lead to the new node
      obtain ht | ⟨-, hlive⟩ := (S.heap.sound_of_key (hb g hgt) hkg).2
      · exact Or.inl ht
      · exact (S.low hgt hnew hkg).insert (hne hlive)

/-- An open node is changed. -/
theorem change (S : Steady frozen ext old s table m) (hh : h ∈ s) (H' : Heap frozen ext m')
    (hkey : m'.key? = Function.update m.key? h (some k)) (hlow : Own old s k.low) :
    Steady frozen ext old s table m' := by
  obtain ⟨hht, hlive, hnew⟩ := S.opened hh
  have hother : ∀ {c : Handle}, c ≠ h → m'.key? c = m.key? c := fun hc => by
    rw [hkey, Function.update_of_ne hc]
  refine ⟨⟨S.valid, fun {k₀ c} hc => ?_⟩, H', S.own, fun {g} hg => ?_, fun {g k₀} hg => ?_,
    fun {g kg} hgt hgnew hkg => ?_⟩
  · obtain ⟨hct, hck⟩ := S.entry hc
    have hne : c ≠ h := by
      intro he
      obtain ht | ⟨-, hopen⟩ := S.own hc
      · rw [hct] at ht
        cases ht
      · exact hopen (he ▸ hh)
    exact ⟨hct, by rw [hother hne, hck]⟩
  · obtain ⟨hgt, hglive, hgnew⟩ := S.opened hg
    refine ⟨hgt, ?_, hgnew⟩
    by_cases hgh : g = h
    · rw [hgh, hkey, Function.update_self]
      rfl
    · rwa [hother hgh]
  · have hne : g ≠ h := by
      intro he
      rw [he, hnew] at hg
      cases hg
    rw [hother hne, S.kept hg]
  · by_cases hgh : g = h
    · subst hgh
      rw [hkey, Function.update_self] at hkg
      cases hkg
      exact hlow
    · rw [hother hgh] at hkg
      exact S.low hgt hgnew hkg

/-- A node of the pass that neither is open nor listed is freed. -/
theorem remove (S : Steady frozen ext old s table m) (hnew : old h = none) (hs : h ∉ s)
    (hlist : ∀ k, table.get? k ≠ some h) (H' : Heap frozen ext m')
    (hkey : m'.key? = Function.update m.key? h none) : Steady frozen ext old s table m' := by
  have hother : ∀ {c : Handle}, c ≠ h → m'.key? c = m.key? c := fun hc => by
    rw [hkey, Function.update_of_ne hc]
  refine ⟨⟨S.valid, fun {k₀ c} hc => ?_⟩, H', S.own, fun {g} hg => ?_, fun {g k₀} hg => ?_,
    fun {g kg} hgt hgnew hkg => ?_⟩
  · obtain ⟨hct, hck⟩ := S.entry hc
    have hne : c ≠ h := by
      intro he
      exact hlist k₀ (he ▸ hc)
    exact ⟨hct, by rw [hother hne, hck]⟩
  · have hne : g ≠ h := by
      intro he
      exact hs (he ▸ hg)
    rw [hother hne]
    exact S.opened hg
  · have hne : g ≠ h := by
      intro he
      rw [he, hnew] at hg
      cases hg
    rw [hother hne, S.kept hg]
  · have hne : g ≠ h := by
      intro he
      rw [he, hkey, Function.update_self] at hkg
      cases hkg
    rw [hother hne] at hkg
    exact S.low hgt hgnew hkg

/-- Entries of the table are forgotten. -/
theorem forget (S : Steady frozen ext old s table m) (hvalid : table'.Valid)
    (hentry : ∀ {k c}, table'.get? k = some c → table.get? k = some c) :
    Steady frozen ext old s table' m :=
  ⟨⟨hvalid, fun hc => S.entry (hentry hc)⟩, S.heap, fun hc => S.own (hentry hc), S.opened, S.kept,
    S.low⟩

/-- A finished node enters the table. -/
theorem store (S : Steady frozen ext old s table m) (hh : h.isTerminal = false)
    (hnew : old h = none) (hs : h ∉ s) (hk : m.key? h = some k) (hnone : table.get? k = none) :
    Steady frozen ext old s (table.store k h) m := by
  have hcase : ∀ {k₀ c}, (table.store k h).get? k₀ = some c →
      (k₀ = k ∧ c = h) ∨ table.get? k₀ = some c := by
    intro k₀ c hc
    rw [UniqueTable.get?_store S.valid hnone] at hc
    split at hc
    · cases hc
      exact Or.inl ⟨‹_›, rfl⟩
    · exact Or.inr hc
  refine ⟨⟨UniqueTable.valid_store S.valid hnone, fun hc => ?_⟩, S.heap, fun hc => ?_, S.opened,
    S.kept, S.low⟩
  · obtain ⟨rfl, rfl⟩ | hc := hcase hc
    · exact ⟨hh, hk⟩
    · exact S.entry hc
  · obtain ⟨rfl, rfl⟩ | hc := hcase hc
    · exact Or.inr ⟨hnew, hs⟩
    · exact S.own hc

end Steady

/-! ## Making nodes and setting edges -/

/-- What a part of a pass does to the rest of it: it keeps the nodes of a set as they are, and what
is recorded referred to. -/
structure Continues (s : Set Handle) (m m' : Manager) : Prop where
  carries : Carries m m'
  same : ∀ {g}, g ∈ s → m'.key? g = m.key? g

theorem Continues.refl (s : Set Handle) (m : Manager) : Continues s m m := ⟨.refl m, fun _ => rfl⟩

theorem Continues.trans (h₁ : Continues s m m') (h₂ : Continues s m' m'') : Continues s m m'' :=
  ⟨h₁.carries.trans h₂.carries, fun hg => (h₂.same hg).trans (h₁.same hg)⟩

theorem Continues.mono (hc : Continues s m m') (hts : t ⊆ s) : Continues t m m' :=
  ⟨hc.carries, fun hg => hc.same (hts hg)⟩

/-- A node is made or changed, and what its edges led to is a terminal or still led to. -/
theorem Continues.of_update (hb : Bare frozen) (H : Heap frozen ext m) (H' : Heap frozen ext m')
    (hh : h.isTerminal = false) (hs : h ∉ s)
    (hkey : m'.key? = Function.update m.key? h (some k)) (hproducts : m'.products = m.products)
    (hkeep : ∀ {c : Handle} {k₀ : Node.Key}, c.isTerminal = false → m.key? h = some k₀ →
      k₀.high = c ∨ k₀.low = c → k.high = c ∨ k.low = c) : Continues s m m' := by
  refine ⟨.of_edges hb H H' (fun _ => Nat.le_refl _) hproducts fun hc hp => ?_, fun {g} hg => ?_⟩
  · rw [hkey]
    exact hp.update_some (hb h hh) fun k₀ hk₀ => hkeep hc hk₀
  · rw [hkey, Function.update_of_ne]
    intro he
    exact hs (he ▸ hg)

theorem steady_create (hb : Bare frozen) {l : Literal} {ws : Weights}
    (S : Steady frozen ext old s table m) :
    Gives (create l ws) m fun h m' => h.isTerminal = false ∧ m.key? h = none ∧
      m'.key? = Function.update m.key? h (some ⟨l.value, Handle.false', Handle.false', ws⟩) ∧
      Steady frozen ext old (insert h s) table m' ∧ Continues s m m' := by
  refine Gives.mono (gives_create S.heap) fun h m' hq => ?_
  obtain ⟨hnone, hh, H', hr⟩ := hq
  refine ⟨hh, hnone, hr.key, S.add hh hnone H' hr.key rfl hb, ?_⟩
  refine .of_update hb S.heap H' hh (S.not_mem_of_dead hnone) hr.key hr.products
    fun {c k₀} _ hk₀ => ?_
  rw [hnone] at hk₀
  cases hk₀

/-- The caller takes a reference. -/
theorem steady_reference (hb : Bare frozen) (S : Steady frozen ext old s table m) :
    Gives (reference c) m fun _ m' =>
      Steady frozen (ext + Pi.single c 1) old s table m' ∧ Carries m m' := by
  refine Gives.mono (gives_reference hb S.heap) fun _ m' hq => ?_
  obtain ⟨-, H', hr⟩ := hq
  refine ⟨S.with_heap H' hr.key, ?_⟩
  refine .of_edges hb S.heap H' (fun _ => Nat.le_add_right _ _) hr.products fun _ hp => ?_
  rwa [hr.key]

/-- The high edge of an open node is set; it may lead anywhere. -/
theorem steady_setHigh (hb : Bare frozen) (S : Steady frozen ext old (insert h s) table m)
    (hs : h ∉ s) (hk : m.key? h = some k) (hold : k.high.isTerminal = true) :
    Gives (setHigh h c) m fun _ m' =>
      m'.key? = Function.update m.key? h (some { k with high := c }) ∧ m'.Refers c ∧
      Steady frozen ext old (insert h s) table m' ∧ Continues s m m' := by
  have hh : h ∈ insert h s := Set.mem_insert _ _
  have hht := (S.opened hh).1
  refine Gives.mono (gives_setHigh hb S.heap hht) fun _ m' hq => ?_
  obtain ⟨k', hk', -, H', hr⟩ := hq
  obtain rfl : k = k' := Option.some.inj (hk.symm.trans hk')
  have hlow := S.low hht (S.opened hh).2.2 hk
  refine ⟨hr.key, ?_, S.change hh H' hr.key hlow, ?_⟩
  · refine (H'.refers_iff hb).2 (Or.inr (Or.inl ⟨h, { k with high := c }, hb h hht, ?_, Or.inl rfl⟩))
    rw [hr.key, Function.update_self]
  · refine .of_update hb S.heap H' hht hs hr.key hr.products fun {v k₀} hvt hk₀ hedge => ?_
    obtain rfl := Option.some.inj (hk.symm.trans hk₀)
    obtain rfl | rfl := hedge
    · rw [hold] at hvt
      cases hvt
    · exact Or.inr rfl

/-- The low edge of an open node is set to a finished node of the pass. -/
theorem steady_setLow (hb : Bare frozen) (S : Steady frozen ext old (insert h s) table m)
    (hk : m.key? h = some k) (hc : Own old (insert h s) c) :
    Gives (setLow h c) m fun _ m' =>
      m'.key? = Function.update m.key? h (some { k with low := c }) ∧
      m'.products = m.products ∧ Steady frozen ext old (insert h s) table m' := by
  have hh : h ∈ insert h s := Set.mem_insert _ _
  refine Gives.mono (gives_setLow hb S.heap (S.opened hh).1) fun _ m' hq => ?_
  obtain ⟨k', hk', -, H', hr⟩ := hq
  obtain rfl : k = k' := Option.some.inj (hk.symm.trans hk')
  exact ⟨hr.key, hr.products, S.change hh H' hr.key hc⟩

/-- A low edge that led to a terminal is set. -/
theorem steady_setLow_of_terminal (hb : Bare frozen)
    (S : Steady frozen ext old (insert h s) table m) (hs : h ∉ s) (hk : m.key? h = some k)
    (hold : k.low.isTerminal = true) (hc : Own old (insert h s) c) :
    Gives (setLow h c) m fun _ m' =>
      m'.key? = Function.update m.key? h (some { k with low := c }) ∧
      Steady frozen ext old (insert h s) table m' ∧ Continues s m m' := by
  have hht := (S.opened (Set.mem_insert h s)).1
  refine Gives.mono (steady_setLow hb S hk hc) fun _ m' hq => ?_
  obtain ⟨hkey, hproducts, S'⟩ := hq
  refine ⟨hkey, S', ?_⟩
  refine .of_update hb S.heap S'.heap hht hs hkey hproducts fun {v k₀} hvt hk₀ hedge => ?_
  obtain rfl := Option.some.inj (hk.symm.trans hk₀)
  obtain rfl | rfl := hedge
  · exact Or.inl rfl
  · rw [hold] at hvt
    cases hvt

/-! ## Finishing nodes -/

/-- A finished node is replaced by its twin, which has the same children. -/
theorem steady_merge (hb : Bare frozen) (S : Steady frozen ext old s table m)
    (hh : h.isTerminal = false) (hnew : old h = none) (hs : h ∉ s) :
    Gives (merge table h) m fun r m' => Steady frozen ext old s r.2 m' ∧ Own old s r.1 ∧
      (m'.key? r.1).isSome ∧ (∀ {g}, g ≠ h → m'.key? g = m.key? g) ∧ Carries m m' := by
  unfold merge
  rw [if_neg (by simp [hh])]
  refine Gives.nodeAt fun n hn => ?_
  have hk := key?_of_get? hn
  cases hc : table.get? n.key with
  | none =>
      simp only [UniqueTable.findOrInsert_of_none hc]
      exact Gives.pure ⟨S.store hh hnew hs hk hc, Or.inr ⟨hnew, hs⟩, by rw [hk]; rfl,
        fun _ => rfl, .refl m⟩
  | some c =>
      simp only [UniqueTable.findOrInsert_of_some hc]
      obtain ⟨hct, hck⟩ := S.entry hc
      have hlive : (m.key? c).isSome := by rw [hck]; rfl
      by_cases hch : c = h
      · subst hch
        simp only [bne_self_eq_false, Bool.false_eq_true, if_false]
        exact Gives.pure ⟨S, S.own hc, hlive, fun _ => rfl, .refl m⟩
      simp only [bne_iff_ne.2 hch, if_true]
      -- the table has one node for each key, and under this key it is the twin
      have hlist : ∀ k, table.get? k ≠ some h := by
        intro k hk'
        obtain ⟨-, hkey⟩ := S.entry hk'
        obtain rfl := Option.some.inj (hk.symm.trans hkey)
        rw [hc] at hk'
        exact hch (Option.some.inj hk')
      have hdestroy : Gives (discard (destroy h)) m fun _ m' => Steady frozen ext old s table m' ∧
          (∀ {g}, g ≠ h → m'.key? g = m.key? g) ∧ Carries m m' := by
        refine Gives.discard (Gives.mono (gives_destroy hb S.heap) fun _ m' hq => ?_)
        obtain ⟨-, -, -, -, H', hr⟩ | ⟨-, rfl⟩ := hq
        · have hother : ∀ {g}, g ≠ h → m'.key? g = m.key? g := fun hg => by
            rw [hr.key, Function.update_of_ne hg]
          refine ⟨S.remove hnew hs hlist H' hr.key, hother, ?_⟩
          refine .of_edges hb S.heap H' (fun _ => Nat.le_refl _) hr.products fun _ hp => ?_
          rw [hr.key]
          exact hp.update_none hk (hb c hct) hck hch id
        · exact ⟨S, fun _ => rfl, .refl _⟩
      refine Gives.bind hdestroy fun _ m' hq => ?_
      obtain ⟨S', hother, hcarries⟩ := hq
      exact Gives.pure ⟨S', S.own hc, by rwa [hother hch], hother, hcarries⟩

/-- A node whose low child can be left out has the high child of that child. -/
theorem exists_of_canCollapse (hc : m.canCollapse h = .ok true) :
    ∃ n ng, m.arena.get? h = some n ∧ n.low.isTerminal = false ∧
      m.arena.get? n.low = some ng ∧ n.high = ng.high := by
  rw [Manager.canCollapse, if_neg (by simp [not_terminal_of_canCollapse hc])] at hc
  cases hn : m.node h with
  | error e =>
      rw [hn] at hc
      cases hc
  | ok n =>
      rw [hn] at hc
      simp only [bind, Except.bind] at hc
      split at hc
      · cases hc
      rename_i hlow
      cases hng : m.node n.low with
      | error e =>
          rw [hng] at hc
          cases hc
      | ok ng =>
          rw [hng] at hc
          simp only [pure, Except.pure, Except.ok.injEq, Bool.and_eq_true, beq_iff_eq] at hc
          exact ⟨n, ng, Arena.get_eq_ok_iff.1 hn, by simpa using hlow,
            Arena.get_eq_ok_iff.1 hng, hc.1.1.2⟩

/-- The low edge of an open node is turned from a node to the low child of that node, and the node
is freed and forgotten if nobody else refers to it. -/
theorem steady_splice {β : Type} {R : β → Manager → Prop} {kg : Node.Key}
    (next : Table → Action β) (hb : Bare frozen)
    (S : Steady frozen ext old (insert h s) table m) (hk : m.key? h = some k)
    (hgt : k.low.isTerminal = false) (hg : m.key? k.low = some kg) (hhigh : k.high = kg.high)
    (hnext : ∀ table' m', Steady frozen ext old (insert h s) table' m' →
      Carries m m' → (∀ {x}, x ∈ s → x ≠ h → m'.key? x = m.key? x) → Gives (next table') m' R) :
    Gives (do
      setLow h kg.low
      if (← nodeAt k.low).refs == 0 then do
          let table ← forget table k.low
          forceDestroy k.low
          next table
        else next table) m R := by
  have hht := (S.opened (Set.mem_insert h s)).1
  obtain ⟨hnew, hopen⟩ : old k.low = none ∧ k.low ∉ insert h s := by
    obtain ht | hown := S.low hht (S.opened (Set.mem_insert h s)).2.2 hk
    · rw [hgt] at ht
      cases ht
    · exact hown
  have hne : k.low ≠ h := by
    intro he
    exact hopen (he ▸ Set.mem_insert _ _)
  refine Gives.bind (steady_setLow hb S hk (S.low hgt hnew hg)) fun _ m₁ hq => ?_
  obtain ⟨hkey₁, hproducts₁, S₁⟩ := hq
  have hkh : m₁.key? h = some { k with low := kg.low } := by rw [hkey₁, Function.update_self]
  -- only the child that is left out loses an edge
  have hpointed : ∀ {v}, v ≠ k.low → Pointed frozen m.key? v → Pointed frozen m₁.key? v := by
    intro v hv hp
    rw [hkey₁]
    refine hp.update_some (hb h hht) fun k₀ hk₀ hedge => ?_
    obtain rfl := Option.some.inj (hk.symm.trans hk₀)
    exact hedge.imp_right fun he => absurd he.symm hv
  refine Gives.nodeAt fun ng hng => ?_
  have hkg : ng.key = kg := by
    have hkg₁ := key?_of_get? hng
    rw [hkey₁, Function.update_of_ne hne, hg] at hkg₁
    exact (Option.some.inj hkg₁).symm
  split
  · rename_i hrefs
    have hk₁ := key?_of_get? hng
    refine Gives.bind (Gives.of_ends (forget_spec S₁.valid hk₁ fun hc => (S₁.entry hc).2))
      fun table' m₂ hq => ?_
    obtain ⟨rfl, hvalid, hentry⟩ := hq
    have S₂ : Steady frozen ext old (insert h s) table'
        { m₁ with products := m₁.products.eraseValue k.low } :=
      (S₁.forget hvalid fun hc => (hentry.1 hc).1).congr rfl
    refine Gives.bind (Gives.of_ends (forceDestroy_spec S₂.heap hng (hb _ hgt)
      (beq_iff_eq.1 hrefs))) fun _ m₃ hq => ?_
    obtain ⟨H₃, hr₃⟩ := hq
    have hkey₃ : m₃.key? = Function.update m₁.key? k.low none := hr₃.key
    refine hnext table' m₃ (S₂.remove hnew hopen (fun _ hc => (hentry.1 hc).2 rfl) H₃ hkey₃) ?_
      fun {x} hx hxh => ?_
    · refine .of_pointed hb S.heap H₃ (fun _ => Nat.le_refl _) fun {p v} hv => ?_
      rw [hr₃.products] at hv
      obtain ⟨hv, hvne⟩ := getElem?_eraseValue hv
      rw [hproducts₁] at hv
      refine ⟨hv, fun _ hp => (H₃.refers_iff hb).2 (Or.inr (Or.inl ?_))⟩
      -- what the freed node led to, `h` leads to now
      rw [hkey₃]
      refine (hpointed hvne hp).update_none hk₁ (hb h hht) hkh hne.symm fun hedge => ?_
      rwa [hkg, ← hhigh] at hedge
    · rw [hkey₃, Function.update_of_ne, hkey₁, Function.update_of_ne hxh]
      intro he
      exact hopen (he ▸ Set.mem_insert_of_mem _ hx)
  · rename_i hrefs
    refine hnext table m₁ S₁ ?_ fun hx hxh => by rw [hkey₁, Function.update_of_ne hxh]
    refine .of_pointed hb S.heap S₁.heap (fun _ => Nat.le_refl _) fun {p v} hv => ?_
    rw [hproducts₁] at hv
    refine ⟨hv, fun _ hp => ?_⟩
    by_cases hvl : v = k.low
    · exact Or.inr ⟨ng, hvl ▸ hng, Nat.pos_of_ne_zero fun hz => hrefs (beq_iff_eq.2 hz)⟩
    · exact (S₁.heap.refers_iff hb).2 (Or.inr (Or.inl (hpointed hvl hp)))

theorem steady_collapseNode (hb : Bare frozen) (hs : h ∉ s) :
    ∀ {fuel : Nat} {table : Table} {m : Manager}, Steady frozen ext old (insert h s) table m →
      Gives (collapseNode fuel table h) m fun r m' =>
        Steady frozen ext old (insert h s) r.2 m' ∧ Continues s m m'
  | 0, table, m, S => Gives.pure ⟨S, .refl s m⟩
  | fuel + 1, table, m, S => by
      unfold collapseNode
      refine Gives.get (Gives.lift fun b hcan => ?_)
      cases b with
      | false => exact Gives.pure ⟨S, .refl s m⟩
      | true =>
          obtain ⟨n, ng, hn, hgt, hng, hhigh⟩ := exists_of_canCollapse hcan
          simp only [Bool.not_true, Bool.false_eq_true, if_false]
          refine Gives.nodeAt fun n' hn' => Gives.nodeAt fun ng' hng' => ?_
          obtain rfl := Option.some.inj (hn.symm.trans hn')
          obtain rfl := Option.some.inj (hng.symm.trans hng')
          refine steady_splice (fun table => collapseNode fuel table h >>= fun r => pure (true, r.2))
            hb S (key?_of_get? hn) hgt (key?_of_get? hng) hhigh
            fun table₁ m₁ S₁ hcarries hsame => ?_
          have C₁ : Continues s m m₁ := ⟨hcarries, fun hg => hsame hg fun he => hs (he ▸ hg)⟩
          refine Gives.bind (steady_collapseNode hb hs S₁) fun r m₂ hq => ?_
          exact Gives.pure ⟨hq.1, C₁.trans hq.2⟩

variable {σ : Type}

/-- An open node with both edges is collapsed if that is asked for, and merged. -/
theorem steady_finish (hb : Bare frozen) (hs : h ∉ s) {collapse expired : Bool} :
    ∀ {p : Progress σ} {m : Manager}, Steady frozen ext old (insert h s) p.table m →
      Gives (finish collapse expired h p) m fun r m' =>
        Steady frozen ext old s r.2.table m' ∧ Own old s r.1 ∧ r.2.engine = p.engine ∧
          Continues s m m'
  | ⟨table, engine, steps⟩, m, S => by
      have hmerge : ∀ {table' : Table} {m' : Manager} {steps' : Nat},
          Steady frozen ext old (insert h s) table' m' → Continues s m m' →
          Gives (merge table' h >>= fun r => pure (r.1, (⟨r.2, engine, steps'⟩ : Progress σ))) m'
            fun r m'' => Steady frozen ext old s r.2.table m'' ∧ Own old s r.1 ∧
              r.2.engine = engine ∧ Continues s m m'' := by
        intro table' m' steps' S' C'
        obtain ⟨hh, -, hnew⟩ := S'.opened (Set.mem_insert h s)
        refine Gives.bind (steady_merge hb (S'.close (Set.subset_insert h s)) hh hnew hs)
          fun r m'' hq => ?_
        obtain ⟨S'', hown, -, hother, hcarries⟩ := hq
        refine Gives.pure ⟨S'', hown, rfl, C'.trans ⟨hcarries, fun hg => hother fun he => ?_⟩⟩
        exact hs (he ▸ hg)
      unfold finish
      refine Gives.bind gives_tick fun steps' m' hm' => ?_
      obtain rfl : m = m' := hm'.symm
      split
      · unfold depthBound
        simp only [bind_assoc, pure_bind]
        refine Gives.get (Gives.bind (steady_collapseNode hb hs S) fun r m₁ hq => ?_)
        exact hmerge hq.1 hq.2
      · rw [pure_bind]
        exact hmerge S (.refl s m)

/-! ## Copies -/

/-- A node that a copy may lead to. -/
def Linkable (old : Handle → Option Node.Key) (s : Set Handle) (m : Manager) (c : Handle) : Prop :=
  Own old s c ∧ (c.isTerminal = true ∨ (m.key? c).isSome)

theorem Linkable.stays (hc : Linkable old s m c) (hst : Stays m m') : Linkable old s m' c := by
  refine ⟨hc.1, hc.2.imp_right fun hlive => ?_⟩
  obtain ⟨k, hk⟩ := Option.isSome_iff_exists.1 hlive
  rw [hst hk]
  rfl

/-- What a copy leaves. -/
structure Drawn (frozen : Handle → Option Node) (ext : Handle → Nat)
    (old : Handle → Option Node.Key) (s : Set Handle) (m : Manager) (c : Handle) (table : Table)
    (m' : Manager) : Prop where
  steady : Steady frozen ext old s table m'
  linkable : Linkable old s m' c
  stays : Stays m m'
  carries : Carries m m'

theorem Drawn.continues (D : Drawn frozen ext old s m c table m')
    (S : Steady frozen ext old s table' m) : Continues s m m' := by
  refine ⟨D.carries, fun {g} hg => ?_⟩
  obtain ⟨k, hk⟩ := Option.isSome_iff_exists.1 (S.opened hg).2.1
  rw [D.stays hk, hk]

/-- A node with finished children is made and merged. -/
theorem drawn_merge_makeNode (hb : Bare frozen) {l : Literal} {high low : Handle} {ws : Weights}
    (S : Steady frozen ext old s table m) (hlow : Linkable old s m low) :
    Gives (makeNode l high low ws >>= merge table) m fun r m' =>
      Drawn frozen ext old s m r.1 r.2 m' := by
  unfold makeNode
  simp only [bind_assoc, pure_bind]
  refine Gives.bind (steady_create hb S) fun h m₁ hq => ?_
  obtain ⟨hh, hnone, hkey₁, S₁, C₁⟩ := hq
  have hs := S.not_mem_of_dead hnone
  have hne : low ≠ h := by
    intro he
    obtain ht | hlive := hlow.2
    · rw [he, hh] at ht
      cases ht
    · rw [he, hnone] at hlive
      cases hlive
  refine Gives.bind (steady_setHigh hb S₁ hs (by rw [hkey₁, Function.update_self]) rfl)
    fun _ m₂ hq => ?_
  obtain ⟨hkey₂, -, S₂, C₂⟩ := hq
  refine Gives.bind (steady_setLow_of_terminal hb S₂ hs (by rw [hkey₂, Function.update_self]) rfl
    (hlow.1.insert hne)) fun _ m₃ hq => ?_
  obtain ⟨hkey₃, S₃, C₃⟩ := hq
  refine Gives.mono (steady_merge hb (S₃.close (Set.subset_insert h s)) hh (S.not_old hnone) hs)
    fun r m₄ hq => ?_
  obtain ⟨S₄, hown, hlive, hother, hcarries⟩ := hq
  refine ⟨S₄, ⟨hown, Or.inr hlive⟩, fun {g k} hk => ?_,
    ((C₁.carries.trans C₂.carries).trans C₃.carries).trans hcarries⟩
  have hgh : g ≠ h := by
    intro he
    rw [he, hnone] at hk
    cases hk
  rw [hother hgh, hkey₃, Function.update_of_ne hgh, hkey₂, Function.update_of_ne hgh, hkey₁,
    Function.update_of_ne hgh, hk]

/-- The nodes from before the pass are copied, which are as they were. -/
theorem steady_copyFrom (hb : Bare frozen) : ∀ {fuel : Nat} {h : Handle} {p : Pass} {m : Manager}
    {D : Diagram}, Steady frozen ext old s p.table m →
    (∀ {x c : Handle}, p.finished[x]? = some c → Linkable old s m c) →
    Denotes old h D → D.depth < fuel →
    Gives (copyFrom fuel h p) m fun r m' => Drawn frozen ext old s m r.1 r.2.table m' ∧
      ∀ {x c : Handle}, r.2.finished[x]? = some c → Linkable old s m' c
  | 0, _, _, _, _, _, _, _, hfuel => absurd hfuel (Nat.not_lt_zero _)
  | fuel + 1, h, p, m, D, S, hmemo, hD, hfuel => by
      unfold copyFrom
      split
      · rename_i ht
        exact Gives.pure ⟨⟨S, ⟨Or.inl ht, Or.inl ht⟩, id, .refl m⟩, hmemo⟩
      rename_i ht
      have hh : h.isTerminal = false := by simpa using ht
      split
      · rename_i r hr
        exact Gives.pure ⟨⟨S, hmemo hr, id, .refl m⟩, hmemo⟩
      obtain ⟨k, H, L, hk, hH, hL, rfl⟩ := hD.cases_node hh
      simp only [Diagram.depth] at hfuel
      refine Gives.nodeAt fun n hn => ?_
      obtain rfl := Option.some.inj ((S.kept hk).symm.trans (key?_of_get? hn))
      refine Gives.bind (steady_copyFrom hb S hmemo hH (by omega)) fun r₁ m₁ hq => ?_
      obtain ⟨C₁, hmemo₁⟩ := hq
      refine Gives.bind (steady_copyFrom hb C₁.steady hmemo₁ hL (by omega)) fun r₂ m₂ hq => ?_
      obtain ⟨C₂, hmemo₂⟩ := hq
      refine Gives.lift fun l _ => ?_
      rw [← bind_assoc]
      refine Gives.bind (drawn_merge_makeNode hb C₂.steady C₂.linkable) fun r m₃ C₃ => ?_
      refine Gives.pure ⟨⟨C₃.steady, C₃.linkable,
        fun hk => C₃.stays (C₂.stays (C₁.stays hk)),
        (C₁.carries.trans C₂.carries).trans C₃.carries⟩, fun {x y} hy => ?_⟩
      rw [Std.HashMap.getElem?_insert] at hy
      split at hy
      · cases hy
        exact C₃.linkable
      · exact (hmemo₂ hy).stays C₃.stays

theorem steady_copy (hb : Bare frozen) (S : Steady frozen ext old s table m)
    {D : Diagram} (hD : Denotes old h D) :
    Gives (copy table h) m fun r m' => Drawn frozen ext old s m r.1 r.2 m' := by
  have hdepth : D.depth ≤ m.arena.size := (hD.mono fun _ _ => S.kept).depth_le_size
  unfold copy depthBound
  refine Gives.get (Gives.bind (steady_copyFrom (p := ⟨table, ∅⟩) hb S
    (fun hc => by simp at hc) hD (Nat.lt_succ_of_le hdepth)) fun r m' hq => ?_)
  exact Gives.pure hq.1

end BayesCircuit.Decision
