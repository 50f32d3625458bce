import BayesCircuit.Proofs.References.Underway

/-!
# Splicing leaves no trace

`collapseNode` leaves out low children of a node. What is left out and has no other holder is
freed, and its children are then children of the node. `Spliced` says what becomes of the other
nodes, and that no node is on top of a deeper tree than before.
-/

namespace BayesCircuit.Decision

open Collection Action

variable {m m' m'' : Manager} {frozen : Handle → Option Node} {ext : Handle → Nat} {reuse : Prop}
variable {s t : Set Handle} {h g c x : Handle} {k k' : Node.Key}
variable {opened f f' f'' : Handle → Option Node.Key} {table table' table'' : Table}

/-! ## Depths -/

/-- No tree is deeper than it was. -/
def Shallower (f f' : Handle → Option Node.Key) : Prop :=
  ∀ x D', Denotes f' x D' → ∃ D, Denotes f x D ∧ D'.depth ≤ D.depth

theorem Shallower.refl (f : Handle → Option Node.Key) : Shallower f f :=
  fun _ _ hD => ⟨_, hD, Nat.le_refl _⟩

theorem Shallower.trans (h₁ : Shallower f f') (h₂ : Shallower f' f'') : Shallower f f'' := by
  intro x D'' hD''
  obtain ⟨D', hD', hle'⟩ := h₂ x D'' hD''
  obtain ⟨D, hD, hle⟩ := h₁ x D' hD'
  exact ⟨D, hD, hle'.trans hle⟩

theorem Shallower.remove (f : Handle → Option Node.Key) (h : Handle) :
    Shallower f (Function.update f h none) := by
  intro x D' hD'
  refine ⟨D', hD'.mono fun g k hg => ?_, Nat.le_refl _⟩
  by_cases hgh : g = h
  · rw [hgh, Function.update_self] at hg
    cases hg
  · rwa [Function.update_of_ne hgh] at hg

/-- The edges of a node are turned to nodes that are not above it and no deeper than those to which
they led. -/
theorem Unfolds.shallower_change (hU : Unfolds f) (k' : Node.Key) (hh : h.isTerminal = false)
    (hk : f h = some k)
    (hhigh : ¬ Below f k'.high h) (hlow : ¬ Below f k'.low h)
    {H L H' L' : Diagram} (hH : Denotes f k.high H) (hL : Denotes f k.low L)
    (hH' : Denotes f k'.high H') (hL' : Denotes f k'.low L')
    (hle : max H'.depth L'.depth ≤ max H.depth L.depth) :
    Shallower f (Function.update f h (some k')) := by
  have hE : Denotes (Function.update f h (some k')) h (.branch k'.literal k'.weights H' L') :=
    .node hh (Function.update_self _ _ _) (hH'.update_of_not_below hhigh)
      (hL'.update_of_not_below hlow)
  have hh' : Denotes f h (.branch k.literal k.weights H L) := .node hh hk hH hL
  intro x D' hD'
  have hD : ∃ D, Denotes f x D := by
    cases hD' with
    | false' => exact ⟨_, .false'⟩
    | true' => exact ⟨_, .true'⟩
    | node hx hkx _ _ =>
        by_cases hxh : x = h
        · exact ⟨_, hxh ▸ hh'⟩
        · rw [Function.update_of_ne hxh] at hkx
          exact hU x (by rw [hkx]; rfl)
  obtain ⟨D, hD⟩ := hD
  obtain ⟨D'', hD'', hdepth⟩ := hD.update hE
  refine ⟨D, hD, hD'.unique hD'' ▸ hdepth fun E' hE' => ?_⟩
  rw [hE'.unique hh']
  simp only [Diagram.depth]
  omega

/-! ## The effect on the nodes -/

/-- Low children of a node have been left out. -/
structure Spliced (m : Manager) (table : Table) (h : Handle) (m' : Manager) (table' : Table) :
    Prop where
  key : ∀ {k}, m.key? h = some k →
    ∃ low, Below m.key? k.low low ∧ m'.key? h = some { k with low }
  others : ∀ {k x}, m.key? h = some k → x ≠ h →
    m'.key? x = m.key? x ∨ m'.key? x = none ∧ Below m.key? k.low x
  entry : ∀ {k c}, table'.get? k = some c → table.get? k = some c
  records : ∀ {c}, m'.Records c → m.Records c
  shallower : Shallower m.key? m'.key?

theorem Spliced.refl (m : Manager) (table : Table) (h : Handle) : Spliced m table h m table where
  key hk := ⟨_, .refl, hk⟩
  others _ _ := Or.inl rfl
  entry := id
  records := id
  shallower := .refl _

/-- No path is new. -/
theorem Spliced.below (S : Spliced m table h m' table') (hk : m.key? h = some k)
    (hb : Below m'.key? g x) : Below m.key? g x := by
  obtain ⟨low, hlow, hk'⟩ := S.key hk
  induction hb with
  | refl => exact .refl
  | @tail y z _ he ih =>
      refine ih.trans ?_
      obtain ⟨hy, ky, hky, hz⟩ := he
      by_cases hyh : y = h
      · subst hyh
        rw [hk'] at hky
        cases hky
        rcases hz with rfl | rfl
        · exact .single ⟨hy, k, hk, Or.inl rfl⟩
        · exact .head ⟨hy, k, hk, Or.inr rfl⟩ hlow
      · rcases S.others hk hyh with hsame | ⟨hnone, _⟩
        · rw [hsame] at hky
          exact .single ⟨hy, ky, hky, hz⟩
        · rw [hnone] at hky
          cases hky

theorem Spliced.trans (S : Spliced m table h m' table') (S' : Spliced m' table' h m'' table'')
    (hk : m.key? h = some k) : Spliced m table h m'' table'' := by
  obtain ⟨low, hlow, hk'⟩ := S.key hk
  obtain ⟨low', hlow', hk''⟩ := S'.key hk'
  have hbelow : Below m.key? k.low low' := hlow.trans (S.below hk hlow')
  refine ⟨fun hk₀ => ?_, fun hk₀ hx => ?_, fun hc => S.entry (S'.entry hc),
    fun hc => S.records (S'.records hc), S.shallower.trans S'.shallower⟩
  · rw [hk] at hk₀
    cases hk₀
    exact ⟨low', hbelow, hk''⟩
  · rw [hk] at hk₀
    cases hk₀
    rcases S'.others hk' hx with hsame | ⟨hnone, hb⟩
    · rw [hsame]
      exact S.others hk hx
    · exact Or.inr ⟨hnone, hlow.trans (S.below hk hb)⟩

/-! ## The invariant of a pass -/

/-- The edges of a finished node that the table does not have are set. -/
theorem Underway.rewire (U : Underway reuse frozen ext s opened table m)
    (T' : Traced frozen ext t m') (hr : Rekeys m m' (Function.update m.key? h (some k')))
    (hopen : opened h = none) (hlist : ∀ k, table.get? k ≠ some h)
    (hedge : ∀ j, k'.high = j ∨ k'.low = j → opened j = none) :
    Underway reuse frozen ext t opened table m' := by
  have hkey : ∀ {c : Handle}, c ≠ h → m'.key? c = m.key? c := fun hc => by
    rw [hr.key, Function.update_of_ne hc]
  refine U.moved T' hr.products (fun hc => hkey ?_) (fun _ c _ hlive => ?_)
    fun {g k} hg => ⟨hkey ?_, fun hp => ?_⟩
  · rintro rfl
    exact hlist _ hc
  · by_cases hch : c = h
    · rw [hr.key, hch, Function.update_self]
      rfl
    · rwa [hkey hch]
  · rintro rfl
    rw [hopen] at hg
    cases hg
  · rw [hr.key] at hp
    refine hp.of_update_some.resolve_right fun he => ?_
    rw [hedge g he] at hg
    cases hg

/-- Entries and products are forgotten. -/
theorem Underway.forget (U : Underway reuse frozen ext s opened table m)
    (ha : m'.arena = m.arena) (hvalid : table'.Valid)
    (hentry : ∀ {k c}, table'.get? k = some c → table.get? k = some c)
    (hrec : ∀ {c}, m'.Records c → m.Records c) :
    Underway reuse frozen ext s opened table' m' := by
  have U' := U.congr ha fun _ _ hc => Or.inl (hrec hc)
  exact ⟨U'.traced, ⟨hvalid, fun hc => U'.entry (hentry hc)⟩, fun hc => U'.not_listed (hentry hc),
    U'.recorded, U'.open_node⟩

/-! ## Splicing -/

/-- The low edge of a node is turned from a node to the low child of that node, which has the same
high child. -/
theorem underway_skip (hb : Bare frozen) (U : Underway reuse frozen ext s opened table m)
    (hopen : opened h = none) (hlist : ∀ k, table.get? k ≠ some h) (hh : h.isTerminal = false)
    (hk : m.key? h = some k) (hgt : k.low.isTerminal = false) (hg : m.key? k.low = some k')
    (hhigh : k'.high = k.high) :
    Gives (setLow h k'.low) m fun _ m₁ =>
      Underway reuse frozen ext (insert k.low s) opened table m₁ ∧
        Rekeys m m₁ (Function.update m.key? h (some { k with low := k'.low })) ∧ k.low ≠ h ∧
        Shallower m.key? m₁.key? := by
  have hedge' : Edge m.key? k.low k'.low := ⟨hgt, k', hg, Or.inr rfl⟩
  obtain ⟨hnotHigh, hnotLow⟩ := U.traced.not_below_child hh hk
  have hnot : ¬ Below m.key? k'.low h := fun hbelow => hnotLow (.head hedge' hbelow)
  have hne : k.low ≠ h := by
    intro he
    rw [he] at hnotLow
    exact hnotLow .refl
  obtain ⟨H, hH⟩ := U.traced.denotes (U.heap.sound_of_key (hb h hh) hk).1
  obtain ⟨L, hL⟩ := U.traced.denotes (U.heap.sound_of_key (hb _ hgt) hg).2
  have hlow : Denotes m.key? k.low (.branch k'.literal k'.weights H L) :=
    .node hgt hg (hhigh ▸ hH) hL
  refine Gives.mono (traced_setLow hb (U.traced.mono (Set.subset_insert _ _)) hh hnot) ?_
  rintro _ m₁ ⟨k₁, hk₁, -, T₁, hr₁⟩
  obtain rfl : k = k₁ := by simpa [hk] using hk₁
  refine ⟨U.rewire T₁ hr₁ hopen hlist ?_, hr₁, hne, ?_⟩
  · rintro j (rfl | rfl)
    · exact U.not_open_of_pointed ⟨h, k, hb h hh, hk, Or.inl rfl⟩
    · exact U.not_open_of_pointed ⟨k.low, k', hb _ hgt, hg, Or.inr rfl⟩
  · rw [hr₁.key]
    have hle : max H.depth L.depth ≤
        max H.depth (Diagram.branch k'.literal k'.weights H L).depth := by
      simp only [Diagram.depth]
      omega
    exact U.unfolds.shallower_change { k with low := k'.low } hh hk hnotHigh hnot hH hlow hH hL hle

/-- A node to which no edge leads any more is forgotten and freed; its children are attached
elsewhere. -/
theorem underway_free {n : Node} (hb : Bare frozen)
    (U : Underway reuse frozen ext (insert g s) opened table m) (hgt : g.isTerminal = false)
    (hopen : opened g = none) (hn : m.arena.get? g = some n) (hrefs : n.refs = 0)
    (hchild : ∀ j, n.high = j ∨ n.low = j →
      Pointed frozen (Function.update m.key? g none) j) :
    Gives (do
      let table ← forget table g
      forceDestroy g
      pure table) m fun table' m' => Underway reuse frozen ext s opened table' m' ∧
        m'.key? = Function.update m.key? g none ∧
        (∀ {k c}, table'.get? k = some c → table.get? k = some c) ∧
        ∀ {c}, m'.Records c → m.Records c := by
  have hk := key?_of_get? hn
  obtain ⟨hunp, -⟩ := (U.heap.refs_eq_zero_iff hn (hb _ hgt)).1 hrefs
  refine Gives.bind (Gives.of_ends (forget_spec U.valid hk fun hc => (U.entry hc).2)) ?_
  rintro table' m₂ ⟨rfl, hvalid, htable⟩
  have hrec : ∀ {c}, Manager.Records { m with products := m.products.eraseValue g } c →
      m.Records c ∧ c ≠ g := by
    rintro c ⟨p, hc⟩
    obtain ⟨hc, hcg⟩ := getElem?_eraseValue hc
    exact ⟨⟨p, hc⟩, hcg⟩
  have U₂ : Underway reuse frozen ext (insert g s) opened table'
      { m with products := m.products.eraseValue g } :=
    U.forget rfl hvalid (fun hc => (htable.1 hc).1) fun hc => (hrec hc).1
  refine Gives.bind (Gives.of_ends (forceDestroy_spec U₂.heap hn (hb _ hgt) hrefs)) ?_
  rintro _ m₃ ⟨H₃, hr₃⟩
  have hkey₃ : m₃.key? = Function.update m.key? g none := hr₃.key
  have hrec₃ : ∀ {c}, m₃.Records c → m.Records c ∧ c ≠ g := fun hc => by
    rw [Manager.Records, hr₃.products] at hc
    exact hrec hc
  have T₃ : Traced frozen ext s m₃ := by
    obtain ⟨hU, hA⟩ := U₂.traced.remove hb hk hunp
    refine ((Traced.of_rekeys H₃ hr₃ hU hA).drop_pointed ?_).drop_pointed ?_
    · exact hkey₃ ▸ hchild _ (Or.inl rfl)
    · exact hkey₃ ▸ hchild _ (Or.inr rfl)
  exact Gives.pure ⟨U₂.remove T₃ hr₃ hopen
    ⟨fun _ hc => (htable.1 hc).2 rfl, fun _ hc => (hrec hc).2 rfl⟩, hkey₃,
    fun hc => (htable.1 hc).1, fun hc => (hrec₃ hc).1⟩

/-- A low child loses an edge. If it was the last one, the child is freed. -/
theorem underway_splice {β : Type} {R : β → Manager → Prop} {kg : Node.Key}
    (next : Table → Action β) (hb : Bare frozen) (U : Underway reuse frozen ext s opened table m)
    (hopen : opened h = none) (hlist : ∀ k, table.get? k ≠ some h) (hh : h.isTerminal = false)
    (hk : m.key? h = some k) (hgt : k.low.isTerminal = false) (hg : m.key? k.low = some kg)
    (hhigh : kg.high = k.high)
    (hnext : ∀ table' m', Underway reuse frozen ext s opened table' m' →
      Spliced m table h m' table' → Gives (next table') m' R) :
    Gives (do
      setLow h kg.low
      if (← nodeAt k.low).refs == 0 then do
          let table ← forget table k.low
          forceDestroy k.low
          next table
        else next table) m R := by
  refine Gives.bind (underway_skip hb U hopen hlist hh hk hgt hg hhigh) ?_
  rintro _ m₁ ⟨U₁, hr₁, hne, hsh₁⟩
  have hkh : m₁.key? h = some { k with low := kg.low } := by rw [hr₁.key, Function.update_self]
  have hkg : m₁.key? k.low = some kg := by rw [hr₁.key, Function.update_of_ne hne, hg]
  have hedge : Below m.key? k.low kg.low := .single ⟨hgt, kg, hg, Or.inr rfl⟩
  have hrec₁ : ∀ {c}, m₁.Records c → m.Records c := fun hc => by
    rwa [Manager.Records, hr₁.products] at hc
  refine Gives.nodeAt fun ng hng => ?_
  obtain rfl : ng.key = kg := Option.some.inj ((key?_of_get? hng).symm.trans hkg)
  split
  · rename_i hrefs
    have hkh₂ : Function.update m₁.key? k.low none h = some { k with low := ng.low } := by
      rw [Function.update_of_ne hne.symm, hkh]
      rfl
    have hfree := underway_free hb U₁ hgt (U.not_open_of_pointed ⟨h, k, hb h hh, hk, Or.inr rfl⟩)
      hng (beq_iff_eq.1 hrefs) ?_
    · have hbind := Gives.bind hfree (f := next) (R := R) ?_
      · simpa only [bind_assoc, pure_bind] using hbind
      rintro table' m₃ ⟨U₃, hkey₃, hentry, hrec⟩
      refine hnext table' m₃ U₃ ⟨fun hk₀ => ?_, fun {k₀ x} hk₀ hx => ?_, hentry,
        fun hc => hrec₁ (hrec hc), hsh₁.trans (hkey₃ ▸ .remove _ _)⟩
      · obtain rfl := Option.some.inj (hk.symm.trans hk₀)
        exact ⟨ng.low, hedge, by rw [hkey₃, hkh₂]⟩
      · obtain rfl := Option.some.inj (hk.symm.trans hk₀)
        by_cases hxk : x = k.low
        · subst hxk
          exact Or.inr ⟨by rw [hkey₃, Function.update_self], .refl⟩
        · refine Or.inl ?_
          rw [hkey₃, Function.update_of_ne hxk, hr₁.key, Function.update_of_ne hx]
    · -- what the freed node led to, `h` leads to now
      rintro j (rfl | rfl)
      · exact ⟨h, _, hb h hh, hkh₂, Or.inl hhigh.symm⟩
      · exact ⟨h, _, hb h hh, hkh₂, Or.inr rfl⟩
  · rename_i hrefs
    have hwhy : Pointed frozen m₁.key? k.low ∨ 0 < ext k.low := by
      by_contra hno
      rw [not_or] at hno
      refine hrefs (beq_iff_eq.2 ?_)
      exact (U₁.heap.refs_eq_zero_iff hng (hb _ hgt)).2 ⟨hno.1, by omega⟩
    have U₁' := U₁.with_traced (U₁.traced.drop (Or.inr (Or.inr (by tauto))))
    refine hnext table m₁ U₁' ⟨fun hk₀ => ?_, fun hk₀ hx => Or.inl ?_, id, hrec₁, hsh₁⟩
    · obtain rfl := Option.some.inj (hk.symm.trans hk₀)
      exact ⟨ng.low, hedge, hkh⟩
    · rw [hr₁.key, Function.update_of_ne hx]

theorem underway_collapseNode (hb : Bare frozen) (hopen : opened h = none)
    (hh : h.isTerminal = false) : ∀ {fuel : Nat} {table : Table} {m : Manager},
      Underway reuse frozen ext s opened table m → (∀ k, table.get? k ≠ some h) →
      (m.key? h).isSome →
      Gives (collapseNode fuel table h) m fun r m' =>
        Underway reuse frozen ext s opened r.2 m' ∧ Spliced m table h m' r.2
  | 0, table, m, U, _, _ => Gives.pure ⟨U, .refl m table h⟩
  | fuel + 1, table, m, U, hlist, hlive => by
      unfold collapseNode
      obtain ⟨D, hD⟩ := U.unfolds h hlive
      obtain ⟨b, hcan, hskip, -⟩ := canCollapse_spec U.heap (hb h hh) hD
      refine Gives.get (Gives.lift fun b' hb' => ?_)
      obtain rfl : b = b' := by simpa [hcan] using hb'
      cases b with
      | false => exact Gives.pure ⟨U, .refl m table h⟩
      | true =>
          obtain ⟨k, kg, H, Z, S, -⟩ := hskip rfl
          obtain ⟨n, hn, rfl⟩ := key?_eq_some_iff.1 S.key
          obtain ⟨ng, hng, rfl⟩ := key?_eq_some_iff.1 S.low
          have hgt := U.heap.not_terminal S.young
          simp only [Bool.not_true, Bool.false_eq_true, if_false]
          refine Gives.nodeAt fun n' hn' => Gives.nodeAt fun ng' hng' => ?_
          obtain rfl : n = n' := by simpa [hn] using hn'
          obtain rfl : ng = ng' := Option.some.inj (hng.symm.trans hng')
          refine underway_splice
            (fun table => collapseNode fuel table h >>= fun r => pure (true, r.2)) hb U hopen hlist hh S.key hgt S.low S.high fun table₁ m₁ U₁ S₁ => ?_
          obtain ⟨low, -, hk₁⟩ := S₁.key S.key
          refine Gives.bind (underway_collapseNode hb hopen hh U₁
            (fun k hk => hlist k (S₁.entry hk)) (by rw [hk₁]; rfl)) ?_
          rintro ⟨_, table₂⟩ m₂ ⟨U₂, S₂⟩
          exact Gives.pure ⟨U₂, S₁.trans S₂ S.key⟩

end BayesCircuit.Decision
