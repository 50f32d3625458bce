import BayesCircuit.Proofs.References.Traced
import BayesCircuit.Proofs.Decision.Skip

/-!
# Passes that leave no trace

While a pass runs, some nodes are *open*: they have been made, their edges are being set, and
nothing leads to them. `Underway` says that the open nodes are what they should be, that the table
maps the keys of finished nodes to these nodes, and that the recorded products are alive if the
pass uses them (`reuse`). Open nodes are in neither place.

The open nodes are a parameter of the invariant. A step that keeps it for all open nodes therefore
leaves alone every node that its caller is still working on.
-/

namespace BayesCircuit.Decision

open Collection Action

variable {m m' m'' : Manager} {frozen : Handle → Option Node} {ext : Handle → Nat} {reuse : Prop}
variable {s t : Set Handle} {h g c : Handle} {k : Node.Key} {opened : Handle → Option Node.Key}
variable {table table' : Table}

/-- The table maps the keys of decision nodes to these nodes. -/
structure Listed (table : Table) (m : Manager) : Prop where
  valid : table.Valid
  entry : ∀ {k c}, table.get? k = some c → c.isTerminal = false ∧ m.key? c = some k

/-- What holds between two steps of a pass. -/
structure Underway (reuse : Prop) (frozen : Handle → Option Node) (ext : Handle → Nat)
    (s : Set Handle) (opened : Handle → Option Node.Key) (table : Table) (m : Manager) : Prop
    extends Traced frozen ext s m, Listed table m where
  not_listed : ∀ {k c}, table.get? k = some c → opened c = none
  recorded : reuse → ∀ {c}, m.Records c →
    (c.isTerminal = true ∨ (m.key? c).isSome) ∧ opened c = none
  open_node : ∀ {g k}, opened g = some k →
    g.isTerminal = false ∧ m.key? g = some k ∧ ¬ Pointed frozen m.key? g

namespace Underway

theorem traced (U : Underway reuse frozen ext s opened table m) : Traced frozen ext s m :=
  U.toTraced

theorem with_traced (U : Underway reuse frozen ext s opened table m) (T : Traced frozen ext t m) :
    Underway reuse frozen ext t opened table m :=
  ⟨T, U.toListed, U.not_listed, U.recorded, U.open_node⟩

theorem mono (U : Underway reuse frozen ext s opened table m) (hst : s ⊆ t) :
    Underway reuse frozen ext t opened table m :=
  U.with_traced (U.traced.mono hst)

/-- What an edge leads to is not open. -/
theorem not_open_of_pointed (U : Underway reuse frozen ext s opened table m)
    (hp : Pointed frozen m.key? c) : opened c = none := by
  cases hc : opened c with
  | none => rfl
  | some k => exact absurd hp (U.open_node hc).2.2

theorem not_open_of_terminal (U : Underway reuse frozen ext s opened table m)
    (hc : c.isTerminal = true) : opened c = none := by
  cases ho : opened c with
  | none => rfl
  | some k =>
      rw [(U.open_node ho).1] at hc
      cases hc

theorem not_open_of_dead (U : Underway reuse frozen ext s opened table m)
    (hc : m.key? c = none) : opened c = none := by
  cases ho : opened c with
  | none => rfl
  | some k =>
      rw [(U.open_node ho).2.1] at hc
      cases hc

/-- A step that touches the products only in ways that keep what is recorded alive. -/
theorem congr (U : Underway reuse frozen ext s opened table m) (ha : m'.arena = m.arena)
    (hrec : reuse → ∀ {c}, m'.Records c → m.Records c ∨ Pointed frozen m.key? c ∨
      c.isTerminal = true) : Underway reuse frozen ext s opened table m' := by
  have hkey : m'.key? = m.key? := key?_congr ha
  refine ⟨U.traced.congr ha, ⟨U.valid, hkey ▸ U.entry⟩, U.not_listed, fun hr c hc => ?_,
    hkey ▸ U.open_node⟩
  rw [hkey]
  rcases hrec hr hc with hc | hp | ht
  · exact U.recorded hr hc
  · refine ⟨?_, U.not_open_of_pointed hp⟩
    exact (U.traced.heap.sound_of_pointed hp).imp_right And.right
  · exact ⟨Or.inl ht, U.not_open_of_terminal ht⟩

theorem of_unmoved (U : Underway reuse frozen ext s opened table m) (hu : Unmoved m m') :
    Underway reuse frozen ext s opened table m' :=
  U.congr hu.arena fun _ c hc => Or.inl (by rwa [Manager.Records, hu.entries] at hc)

/-- A node that is open no longer. -/
theorem close (U : Underway reuse frozen ext s (Function.update opened h (some k)) table m)
    (hh : opened h = none) : Underway reuse frozen ext s opened table m := by
  have hsub : ∀ {g}, Function.update opened h (some k) g = none → opened g = none := by
    intro g hg
    by_cases hgh : g = h
    · rw [hgh, hh]
    · rwa [Function.update_of_ne hgh] at hg
  refine ⟨U.traced, U.toListed, fun hc => hsub (U.not_listed hc),
    fun hr _ hc => (U.recorded hr hc).imp_right hsub, fun {g} k' hg => U.open_node ?_⟩
  rw [Function.update_of_ne, hg]
  rintro rfl
  rw [hh] at hg
  cases hg

end Underway

/-! ## Open nodes -/

/-- A node that has been made is open. -/
theorem underway_create {l : Literal} {ws : Weights}
    (U : Underway reuse frozen ext s opened table m) :
    Gives (create l ws) m fun h m' => m.key? h = none ∧ h.isTerminal = false ∧
      opened h = none ∧ (∀ {g}, g ≠ h → m'.key? g = m.key? g) ∧ m'.products = m.products ∧
      Underway reuse frozen ext (insert h s)
        (Function.update opened h (some ⟨l.value, Handle.false', Handle.false', ws⟩)) table m' := by
  refine Gives.mono (traced_create U.traced) ?_
  rintro h m' ⟨hnone, hh, T', hr⟩
  have hterm : Sound frozen m Handle.false' := Or.inl rfl
  have hopen : opened h = none := U.not_open_of_dead hnone
  have hne : ∀ {c : Handle}, (m.key? c).isSome → c ≠ h := by
    rintro c hc rfl
    rw [hnone] at hc
    cases hc
  have hkey : ∀ {c : Handle}, c ≠ h → m'.key? c = m.key? c := fun hc => by
    rw [hr.key, Function.update_of_ne hc]
  refine ⟨hnone, hh, hopen, hkey, hr.products, T', ⟨U.valid, fun {k c} hc => ?_⟩,
    fun {k c} hc => ?_, fun hreuse c hc => ?_, fun {g k} hg => ?_⟩
  · obtain ⟨hct, hck⟩ := U.entry hc
    exact ⟨hct, by rw [hkey (hne (by rw [hck]; rfl)), hck]⟩
  · rw [Function.update_of_ne (hne (by rw [(U.entry hc).2]; rfl))]
    exact U.not_listed hc
  · rw [Manager.Records, hr.products] at hc
    obtain ⟨hlive, hco⟩ := U.recorded hreuse hc
    have hch : c ≠ h := by
      rcases hlive with ht | hlive
      · rintro rfl
        rw [hh] at ht
        cases ht
      · exact hne hlive
    rw [hkey hch, Function.update_of_ne hch]
    exact ⟨hlive, hco⟩
  · by_cases hgh : g = h
    · subst hgh
      rw [Function.update_self] at hg
      refine ⟨hh, by rw [hr.key, Function.update_self, hg], ?_⟩
      rw [hr.key]
      exact U.traced.not_pointed_of_create hnone hterm hterm
    · rw [Function.update_of_ne hgh] at hg
      obtain ⟨hgt, hgk, hgp⟩ := U.open_node hg
      refine ⟨hgt, by rw [hkey hgh, hgk], ?_⟩
      rw [hr.key]
      intro hp
      rcases hp.of_update_some with hp | he | he
      · exact hgp hp
      · rw [← show Handle.false' = g from he] at hgt
        cases hgt
      · rw [← show Handle.false' = g from he] at hgt
        cases hgt

/-- The edges of an open node are set. -/
theorem Underway.set {k' : Node.Key} (hb : Bare frozen)
    (U : Underway reuse frozen ext s opened table m)
    (T' : Traced frozen ext t m') (hr : Rekeys m m' (Function.update m.key? h (some k')))
    (hopen : opened h = some k)
    (hedge : ∀ j, k'.high = j ∨ k'.low = j → (k.high = j ∨ k.low = j) ∨ opened j = none) :
    Underway reuse frozen ext t (Function.update opened h (some k')) table m' := by
  obtain ⟨hh, hk, hp⟩ := U.open_node hopen
  have hkey : ∀ {c : Handle}, c ≠ h → m'.key? c = m.key? c := fun hc => by
    rw [hr.key, Function.update_of_ne hc]
  have hne : ∀ {c : Handle}, opened c = none → c ≠ h := by
    rintro c hc rfl
    rw [hopen] at hc
    cases hc
  refine ⟨T', ⟨U.valid, fun {k₀ c} hc => ?_⟩, fun {k₀ c} hc => ?_, fun hreuse c hc => ?_,
    fun {g k₀} hg => ?_⟩
  · obtain ⟨hct, hck⟩ := U.entry hc
    exact ⟨hct, by rw [hkey (hne (U.not_listed hc)), hck]⟩
  · rw [Function.update_of_ne (hne (U.not_listed hc))]
    exact U.not_listed hc
  · rw [Manager.Records, hr.products] at hc
    obtain ⟨hlive, hco⟩ := U.recorded hreuse hc
    rw [hkey (hne hco), Function.update_of_ne (hne hco)]
    exact ⟨hlive, hco⟩
  · -- no edge of the node leads to an open node, neither before nor after
    have hold : ∃ k₁, opened g = some k₁ := by
      by_cases hgh : g = h
      · exact ⟨k, hgh ▸ hopen⟩
      · exact ⟨k₀, by rwa [Function.update_of_ne hgh] at hg⟩
    obtain ⟨k₁, hk₁⟩ := hold
    obtain ⟨hgt, hgk, hgp⟩ := U.open_node hk₁
    refine ⟨hgt, ?_, ?_⟩
    · by_cases hgh : g = h
      · rw [hgh] at hg ⊢
        rw [hr.key, Function.update_self]
        rwa [Function.update_self] at hg
      · rw [Function.update_of_ne hgh, hk₁] at hg
        rw [hkey hgh, hgk, hg]
    · rw [hr.key]
      intro hpg
      rcases hpg.of_update_some with hpg | he
      · exact hgp hpg
      · rcases hedge g he with he | he
        · exact hgp ⟨h, k, hb h hh, hk, he⟩
        · rw [hk₁] at he
          cases he

/-- The high edge of an open node leads to a terminal; now it leads to a node that is not open. -/
theorem underway_setHigh (hb : Bare frozen)
    (U : Underway reuse frozen ext (insert c s) opened table m) (hopen : opened h = some k)
    (hold : k.high.isTerminal = true) (hc : opened c = none) :
    Gives (setHigh h c) m fun _ m' => (∀ {g}, g ≠ h → m'.key? g = m.key? g) ∧
      m'.products = m.products ∧ (c.isTerminal = true ∨ Pointed frozen m'.key? c) ∧
      Underway reuse frozen ext s (Function.update opened h (some { k with high := c }))
        table m' := by
  obtain ⟨hh, hk, hp⟩ := U.open_node hopen
  have hne : c ≠ h := by
    rintro rfl
    rw [hopen] at hc
    cases hc
  refine Gives.mono (traced_setHigh hb U.traced hh (Traced.not_below hb hp hne)) ?_
  rintro _ m' ⟨k', hk', hs, T', hr⟩
  obtain rfl : k = k' := by simpa [hk] using hk'
  refine ⟨fun hg => by rw [hr.key, Function.update_of_ne hg], hr.products, Or.inr ?_,
    U.set hb (T'.drop_terminal hold) hr hopen ?_⟩
  · exact ⟨h, _, hb h hh, by rw [hr.key, Function.update_self], Or.inl rfl⟩
  · rintro j (rfl | rfl)
    · exact Or.inr hc
    · exact Or.inl (Or.inr rfl)

theorem underway_setLow (hb : Bare frozen)
    (U : Underway reuse frozen ext (insert c s) opened table m) (hopen : opened h = some k)
    (hold : k.low.isTerminal = true) (hc : opened c = none) :
    Gives (setLow h c) m fun _ m' => (∀ {g}, g ≠ h → m'.key? g = m.key? g) ∧
      m'.products = m.products ∧
      Underway reuse frozen ext s (Function.update opened h (some { k with low := c }))
        table m' := by
  obtain ⟨hh, hk, hp⟩ := U.open_node hopen
  have hne : c ≠ h := by
    rintro rfl
    rw [hopen] at hc
    cases hc
  refine Gives.mono (traced_setLow hb U.traced hh (Traced.not_below hb hp hne)) ?_
  rintro _ m' ⟨k', hk', hs, T', hr⟩
  obtain rfl : k = k' := by simpa [hk] using hk'
  refine ⟨fun hg => by rw [hr.key, Function.update_of_ne hg], hr.products,
    U.set hb (T'.drop_terminal hold) hr hopen ?_⟩
  rintro j (rfl | rfl)
  · exact Or.inl (Or.inl rfl)
  · exact Or.inr hc

/-! ## Finished nodes -/

/-- A node that neither the table nor the products have. -/
structure Fresh (reuse : Prop) (table : Table) (m : Manager) (h : Handle) : Prop where
  not_listed : ∀ k, table.get? k ≠ some h
  not_recorded : reuse → ¬ m.Records h

theorem Underway.fresh (U : Underway reuse frozen ext s opened table m)
    (hopen : opened h = some k) : Fresh reuse table m h := by
  refine ⟨fun k hk => ?_, fun hr hc => ?_⟩
  · rw [U.not_listed hk] at hopen
    cases hopen
  · rw [(U.recorded hr hc).2] at hopen
    cases hopen

/-- A step that leaves alone the open nodes and those of the table, and that frees nothing that is
recorded. -/
theorem Underway.moved (U : Underway reuse frozen ext s opened table m)
    (T' : Traced frozen ext t m') (hp : m'.products = m.products)
    (hentry : ∀ {k c}, table.get? k = some c → m'.key? c = m.key? c)
    (hrec : reuse → ∀ {c}, m.Records c → (m.key? c).isSome → (m'.key? c).isSome)
    (hopen : ∀ {g k}, opened g = some k →
      m'.key? g = m.key? g ∧ (Pointed frozen m'.key? g → Pointed frozen m.key? g)) :
    Underway reuse frozen ext t opened table m' := by
  refine ⟨T', ⟨U.valid, fun hc => ?_⟩, U.not_listed, fun hreuse c hc => ?_, fun {g k} hg => ?_⟩
  · rw [hentry hc]
    exact U.entry hc
  · rw [Manager.Records, hp] at hc
    exact (U.recorded hreuse hc).imp_left fun hlive => hlive.imp_right (hrec hreuse hc)
  · obtain ⟨hgt, hgk, hgp⟩ := U.open_node hg
    obtain ⟨hsame, hpointed⟩ := hopen hg
    exact ⟨hgt, by rw [hsame, hgk], fun hpg => hgp (hpointed hpg)⟩

/-- A node to which no edge leads is freed. -/
theorem Underway.remove (U : Underway reuse frozen ext s opened table m)
    (T' : Traced frozen ext t m') (hr : Rekeys m m' (Function.update m.key? h none))
    (hopen : opened h = none) (hF : Fresh reuse table m h) :
    Underway reuse frozen ext t opened table m' := by
  have hkey : ∀ {c : Handle}, c ≠ h → m'.key? c = m.key? c := fun hc => by
    rw [hr.key, Function.update_of_ne hc]
  refine U.moved T' hr.products (fun hc => hkey ?_) (fun hreuse c hc hlive => ?_)
    fun hg => ⟨hkey ?_, fun hp => ?_⟩
  · rintro rfl
    exact hF.not_listed _ hc
  · rwa [hkey]
    rintro rfl
    exact hF.not_recorded hreuse hc
  · rintro rfl
    rw [hopen] at hg
    cases hg
  · rw [hr.key] at hp
    exact hp.of_update_none

/-- A finished node enters the table. -/
theorem Underway.store (U : Underway reuse frozen ext s opened table m) (hh : h.isTerminal = false)
    (hk : m.key? h = some k) (hopen : opened h = none) (hnone : table.get? k = none) :
    Underway reuse frozen ext s opened (table.store k h) m := by
  have hcase : ∀ {k₀ c}, (table.store k h).get? k₀ = some c →
      (k₀ = k ∧ c = h) ∨ table.get? k₀ = some c := by
    intro k₀ c hc
    rw [UniqueTable.get?_store U.valid hnone] at hc
    split at hc
    · cases hc
      exact Or.inl ⟨‹_›, rfl⟩
    · exact Or.inr hc
  refine ⟨U.traced, ⟨UniqueTable.valid_store U.valid hnone, fun hc => ?_⟩, fun hc => ?_, U.recorded,
    U.open_node⟩
  · rcases hcase hc with ⟨rfl, rfl⟩ | hc
    · exact ⟨hh, hk⟩
    · exact U.entry hc
  · rcases hcase hc with ⟨rfl, rfl⟩ | hc
    · exact hopen
    · exact U.not_listed hc

/-- What has become of a finished node. -/
structure Settled (reuse : Prop) (frozen : Handle → Option Node) (ext : Handle → Nat)
    (s : Set Handle) (opened : Handle → Option Node.Key) (m : Manager) (h : Handle)
    (r : Handle × Table) (m' : Manager) : Prop where
  underway : Underway reuse frozen ext (insert r.1 s) opened r.2 m'
  not_open : opened r.1 = none
  live : r.1.isTerminal = true ∨ (m'.key? r.1).isSome
  others : ∀ {g}, g ≠ h → m'.key? g = m.key? g
  products : m'.products = m.products

theorem underway_merge (hb : Bare frozen)
    (U : Underway reuse frozen ext (insert h s) opened table m) (hopen : opened h = none)
    (hrec : reuse → ¬ m.Records h) :
    Gives (merge table h) m (Settled reuse frozen ext s opened m h) := by
  unfold merge
  split
  · rename_i ht
    exact Gives.pure ⟨U, hopen, Or.inl ht, fun _ => rfl, rfl⟩
  rename_i ht
  have hh : h.isTerminal = false := by simpa using ht
  refine Gives.nodeAt fun n hn => ?_
  have hk := key?_of_get? hn
  cases hc : table.get? n.key with
  | none =>
      simp only [UniqueTable.findOrInsert_of_none hc]
      exact Gives.pure ⟨U.store hh hk hopen hc, hopen, Or.inr (by rw [hk]; rfl), fun _ => rfl, rfl⟩
  | some c =>
      simp only [UniqueTable.findOrInsert_of_some hc]
      obtain ⟨hct, hck⟩ := U.entry hc
      have hlive : (m.key? c).isSome := by rw [hck]; rfl
      by_cases hch : c = h
      · subst hch
        simp only [bne_self_eq_false, Bool.false_eq_true, if_false]
        exact Gives.pure ⟨U, hopen, Or.inr hlive, fun _ => rfl, rfl⟩
      simp only [bne_iff_ne.2 hch, if_true]
      have htwin : ∀ k, m.key? h = some k → m.key? c = some k := by
        intro k hk'
        rw [← hk', hk, hck]
      -- the table has one node for each key, and under this key it is the twin
      have hF : Fresh reuse table m h := by
        refine ⟨fun k hk' => ?_, hrec⟩
        obtain ⟨_, hkey⟩ := U.entry hk'
        rw [hk] at hkey
        cases hkey
        rw [hc] at hk'
        exact hch (Option.some.inj hk')
      refine Gives.bind (P := fun _ m' => Underway reuse frozen ext (insert c s) opened table m' ∧
        (∀ {g}, g ≠ h → m'.key? g = m.key? g) ∧ m'.products = m.products) ?_ ?_
      · refine Gives.discard (Gives.mono (traced_destroy_twin hb U.traced hch hct htwin) ?_)
        rintro _ m' ⟨T', rfl | ⟨_, _, _, hr⟩⟩
        · exact ⟨U.with_traced T', fun _ => rfl, rfl⟩
        · refine ⟨U.remove T' hr hopen hF, fun hg => ?_, hr.products⟩
          rw [hr.key, Function.update_of_ne hg]
      · rintro _ m' ⟨U', hothers, hp⟩
        exact Gives.pure ⟨U', U.not_listed hc, Or.inr (by rwa [hothers hch]), hothers, hp⟩

/-- A node with finished children is made, which nobody knows yet. -/
theorem underway_makeNode {l : Literal} {high low : Handle} {ws : Weights} (hb : Bare frozen)
    (U : Underway reuse frozen ext (insert high (insert low s)) opened table m)
    (hhigh : high.isTerminal = true ∨ (m.key? high).isSome)
    (hlow : low.isTerminal = true ∨ (m.key? low).isSome)
    (hhigh' : opened high = none) (hlow' : opened low = none) :
    Gives (makeNode l high low ws) m fun h m' => m.key? h = none ∧ opened h = none ∧
      Fresh reuse table m' h ∧ (∀ {g}, g ≠ h → m'.key? g = m.key? g) ∧
      m'.products = m.products ∧ Underway reuse frozen ext (insert h s) opened table m' := by
  unfold makeNode
  refine Gives.bind (underway_create U) ?_
  rintro h m₁ ⟨hnone, hh, hopen, hkey₁, hp₁, U₁⟩
  have hne : ∀ {c : Handle}, c.isTerminal = true ∨ (m.key? c).isSome → c ≠ h := by
    rintro c hc rfl
    rw [hh, hnone] at hc
    simp at hc
  rw [Set.insert_comm] at U₁
  refine Gives.bind (underway_setHigh hb U₁ (Function.update_self _ _ _) rfl
    (by rw [Function.update_of_ne (hne hhigh), hhigh'])) ?_
  rintro _ m₂ ⟨hkey₂, hp₂, -, U₂⟩
  rw [Function.update_idem, Set.insert_comm] at U₂
  refine Gives.bind (underway_setLow hb U₂ (Function.update_self _ _ _) rfl
    (by rw [Function.update_of_ne (hne hlow), hlow'])) ?_
  rintro _ m₃ ⟨hkey₃, hp₃, U₃⟩
  have hF := U₃.fresh (Function.update_self _ _ _)
  rw [Function.update_idem] at U₃
  exact Gives.pure ⟨hnone, hopen, hF, fun hg => by rw [hkey₃ hg, hkey₂ hg, hkey₁ hg],
    by rw [hp₃, hp₂, hp₁], U₃.close hopen⟩

end BayesCircuit.Decision
