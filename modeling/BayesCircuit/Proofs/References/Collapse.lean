import BayesCircuit.Proofs.References.Splice

/-!
# Collapsing a diagram leaves no trace

`collapse` changes a diagram where it is, from the terminals up. A node is *done* when it has been
finished: its edges lead to nodes that are done, and it has a twin in the table or is in the table
itself. What is not done has not been touched (`Settles`), so the walk meets the same nodes as on
the way in; and no tree gets deeper, so the fuel of the walk is enough.

When an edge is turned to the twin of a node and the node is freed, its children are those of the
twin, so they stay attached.
-/

namespace BayesCircuit.Decision

open Collection Action

variable {m m' m'' : Manager} {frozen : Handle → Option Node} {ext : Handle → Nat}
variable {s t : Set Handle} {h g c x : Handle} {k k' : Node.Key} {p p' : Pass} {table : Table}

/-- A terminal or a node that has been finished. -/
def Pass.Done (p : Pass) (h : Handle) : Prop := h.isTerminal = true ∨ (p.finished[h]?).isSome

/-- What holds between two steps of the walk. -/
structure Collapsing (frozen : Handle → Option Node) (ext : Handle → Nat) (s : Set Handle)
    (p : Pass) (m : Manager) : Prop
    extends Underway False frozen ext s (fun _ => none) p.table m where
  canonical : ∀ {k : Node.Key} {c : Handle}, p.table.get? k = some c → p.finished[c]? = some c
  decision : ∀ {h c : Handle}, p.finished[h]? = some c →
    h.isTerminal = false ∧ c.isTerminal = false ∧ (p.finished[c]?).isSome
  twin : ∀ {h c : Handle} {k k' : Node.Key}, p.finished[h]? = some c → m.key? h = some k →
    m.key? c = some k' → k = k'
  closed : ∀ {h : Handle} {k : Node.Key}, (p.finished[h]?).isSome → m.key? h = some k →
    p.Done k.high ∧ p.Done k.low

/-- The nodes below a node are done; the others are as they were. -/
structure Settles (p : Pass) (m : Manager) (g : Handle) (p' : Pass) (m' : Manager) : Prop where
  finished : ∀ {x}, p.Done x → p'.Done x
  unchanged : ∀ {x}, ¬ p'.Done x → m'.key? x = m.key? x
  origin : ∀ {x}, p'.Done x → p.Done x ∨ Below m.key? g x
  shallower : Shallower m.key? m'.key?

theorem Settles.refl (p : Pass) (m : Manager) (g : Handle) : Settles p m g p m :=
  ⟨id, fun _ => rfl, Or.inl, .refl _⟩

namespace Collapsing

theorem underway (C : Collapsing frozen ext s p m) :
    Underway False frozen ext s (fun _ => none) p.table m :=
  C.toUnderway

/-- Below what is done everything is done. -/
theorem done_of_below (C : Collapsing frozen ext s p m) (hd : p.Done c) (hb : Below m.key? c x) :
    p.Done x := by
  induction hb with
  | refl => exact hd
  | tail _ he ih =>
      obtain ⟨hy, k, hk, hz⟩ := he
      rcases ih with ht | hf
      · rw [hy] at ht
        cases ht
      · obtain ⟨hhigh, hlow⟩ := C.closed hf hk
        rcases hz with rfl | rfl
        · exact hhigh
        · exact hlow

/-- The table has only nodes that are done. -/
theorem not_listed_of_not_done (C : Collapsing frozen ext s p m) (hh : ¬ p.Done h) :
    ∀ k, p.table.get? k ≠ some h :=
  fun _ hk => hh (Or.inr (by rw [C.canonical hk]; rfl))

/-- The finished nodes that are left are as they were. -/
theorem keep (C : Collapsing frozen ext s p m)
    (U' : Underway False frozen ext t (fun _ => none) table m')
    (hentry : ∀ {k c}, table.get? k = some c → p.table.get? k = some c)
    (hkeep : ∀ {x k}, (p.finished[x]?).isSome → m'.key? x = some k → m.key? x = some k) :
    Collapsing frozen ext t ⟨table, p.finished⟩ m' where
  toUnderway := U'
  canonical hc := C.canonical (hentry hc)
  decision := C.decision
  twin hc hk hk' :=
    C.twin hc (hkeep (by rw [hc]; rfl) hk) (hkeep (C.decision hc).2.2 hk')
  closed hf hk := C.closed hf (hkeep hf hk)

/-! ## Turning an edge -/

/-- An edge of a node that is not done has been turned to the twin of what it led to, which is
freed if that was the last edge. -/
theorem destroy_old (hb : Bare frozen) (C : Collapsing frozen ext s p m) (hh : h.isTerminal = false)
    (hnot : ¬ p.Done h) (hold : p.finished[g]? = some c) (hne : c ≠ g)
    (T' : Traced frozen ext (insert g s) m')
    (hr : Rekeys m m' (Function.update m.key? h (some k'))) (hc : k'.high = c ∨ k'.low = c) :
    Gives (discard (destroy g)) m' fun _ m'' => Collapsing frozen ext s p m'' ∧
      m''.key? h = some k' ∧ (∀ {x}, ¬ p.Done x → x ≠ h → m''.key? x = m.key? x) ∧
      Shallower m'.key? m''.key? := by
  obtain ⟨hgt, hct, hcf⟩ := C.decision hold
  have hgd : p.Done g := Or.inr (by rw [hold]; rfl)
  have hgh : g ≠ h := by
    rintro rfl
    exact hnot hgd
  have hkh : m'.key? h = some k' := by rw [hr.key, Function.update_self]
  have C' : Collapsing frozen ext (insert g s) p m' := by
    refine C.keep (C.underway.rewire T' hr rfl (C.not_listed_of_not_done hnot) fun _ _ => rfl) id ?_
    intro x k hx hk
    rwa [hr.key, Function.update_of_ne] at hk
    rintro rfl
    exact hnot (Or.inr hx)
  have hpointed : Pointed frozen m'.key? c := ⟨h, k', hb h hh, hkh, hc⟩
  have htwin : ∀ k, m'.key? g = some k → m'.key? c = some k := by
    intro k hk
    rcases C'.heap.sound_of_pointed hpointed with ht | ⟨_, hlive⟩
    · rw [hct] at ht
      cases ht
    · obtain ⟨k₁, hk₁⟩ := Option.isSome_iff_exists.1 hlive
      rw [hk₁, C'.twin hold hk hk₁]
  -- the node has a twin in the table, so it is not there itself
  have hF : Fresh False p.table m' g := by
    refine ⟨fun k hk => ?_, False.elim⟩
    rw [C.canonical hk] at hold
    exact hne (Option.some.inj hold).symm
  refine Gives.discard (Gives.mono (traced_destroy_twin hb T' hne hct htwin) ?_)
  rintro _ m'' ⟨T'', rfl | ⟨_, _, _, hr''⟩⟩
  · refine ⟨C'.keep (C'.underway.with_traced (T''.drop_pointed hpointed)) id fun _ hk => hk, hkh,
      fun _ hx => ?_, .refl _⟩
    rw [hr.key, Function.update_of_ne hx]
  · have hkh'' : m''.key? h = some k' := by rw [hr''.key, Function.update_of_ne hgh.symm, hkh]
    have U'' := C'.underway.remove (T''.drop_pointed ⟨h, k', hb h hh, hkh'', hc⟩) hr'' rfl hF
    refine ⟨C'.keep U'' id fun {x k} _ hk => ?_, hkh'', fun {x} hx hxh => ?_,
      hr''.key ▸ .remove _ _⟩
    · by_cases hxg : x = g
      · rw [hr''.key, hxg, Function.update_self] at hk
        cases hk
      · rwa [hr''.key, Function.update_of_ne hxg] at hk
    · have hxg : x ≠ g := by
        rintro rfl
        exact hx hgd
      rw [hr''.key, Function.update_of_ne hxg, hr.key, Function.update_of_ne hxh]

/-- The result for a child: the child itself, or its twin. -/
def Result (p : Pass) (g r : Handle) : Prop :=
  (r = g ∧ g.isTerminal = true) ∨ p.finished[g]? = some r

theorem Result.done {r : Handle} (C : Collapsing frozen ext s p m) (hr : Result p g r) :
    p.Done r := by
  rcases hr with ⟨rfl, ht⟩ | hf
  · exact Or.inl ht
  · exact Or.inr (C.decision hf).2.2

/-- A node and its twin have the same tree. -/
theorem denotes_twin (C : Collapsing frozen ext s p m) (hc : p.finished[g]? = some c)
    {D : Diagram} (hD : Denotes m.key? g D) (hlive : (m.key? c).isSome) : Denotes m.key? c D := by
  obtain ⟨hgt, hct, _⟩ := C.decision hc
  obtain ⟨k, H, L, hk, hH, hL, rfl⟩ := hD.cases_node hgt
  obtain ⟨k', hk'⟩ := Option.isSome_iff_exists.1 hlive
  obtain rfl := C.twin hc hk hk'
  exact .node hct hk' hH hL

/-- An edge of a node that is not done has been turned from `g` to its twin; then `g` is freed if
that was the last edge. -/
theorem destroy_turned (hb : Bare frozen) (C : Collapsing frozen ext s p m)
    (hh : h.isTerminal = false) (hnot : ¬ p.Done h) (hk : m.key? h = some k)
    (hold : p.finished[g]? = some c) (hne : c ≠ g) (hs : Sound frozen m c)
    (T' : Traced frozen ext (insert g s) m')
    (hr : Rekeys m m' (Function.update m.key? h (some k')))
    (hk' : k.high = g ∧ k' = { k with high := c } ∨ k.low = g ∧ k' = { k with low := c }) :
    Gives (discard (destroy g)) m' fun _ m'' => Collapsing frozen ext s p m'' ∧
      m''.key? h = some k' ∧ (∀ {x}, ¬ p.Done x → x ≠ h → m''.key? x = m.key? x) ∧
      Shallower m.key? m''.key? := by
  have hc : k'.high = c ∨ k'.low = c := by
    rcases hk' with ⟨_, rfl⟩ | ⟨_, rfl⟩
    · exact Or.inl rfl
    · exact Or.inr rfl
  refine Gives.mono (destroy_old hb C hh hnot hold hne T' hr hc) ?_
  rintro _ m₂ ⟨C₂, hk₂, hothers, hsh⟩
  refine ⟨C₂, hk₂, hothers, Shallower.trans ?_ hsh⟩
  have hlive : (m.key? c).isSome := by
    rcases hs with ht | hs
    · rw [(C.decision hold).2.1] at ht
      cases ht
    · exact hs.2
  have hbelow : ¬ Below m.key? c h := fun hbelow =>
    hnot (C.done_of_below (Or.inr (C.decision hold).2.2) hbelow)
  obtain ⟨hnotHigh, hnotLow⟩ := C.traced.not_below_child hh hk
  obtain ⟨hhigh, hlow⟩ := C.heap.sound_of_key (hb h hh) hk
  obtain ⟨H, hH⟩ := C.traced.denotes hhigh
  obtain ⟨L, hL⟩ := C.traced.denotes hlow
  rw [hr.key]
  rcases hk' with ⟨rfl, rfl⟩ | ⟨rfl, rfl⟩
  · exact C.unfolds.shallower_change { k with high := c } hh hk hbelow hnotLow hH hL
      (C.denotes_twin hold hH hlive) hL (Nat.le_refl _)
  · exact C.unfolds.shallower_change { k with low := c } hh hk hnotHigh hbelow hH hL hH
      (C.denotes_twin hold hL hlive) (Nat.le_refl _)

theorem turn_high (hb : Bare frozen) (C : Collapsing frozen ext s p m) (hh : h.isTerminal = false)
    (hnot : ¬ p.Done h) (hk : m.key? h = some k) (hres : Result p k.high c) :
    Gives (adjustHigh h c) m fun _ m' => Collapsing frozen ext s p m' ∧
      m'.key? h = some { k with high := c } ∧
      (∀ {x}, ¬ p.Done x → x ≠ h → m'.key? x = m.key? x) ∧ Shallower m.key? m'.key? := by
  unfold adjustHigh
  refine Gives.nodeAt fun n hn => ?_
  obtain rfl : k = n.key := Option.some.inj (hk.symm.trans (key?_of_get? hn))
  split
  · rename_i hne
    have hne : c ≠ n.high := by simpa using hne
    have hbelow : ¬ Below m.key? c h := fun hb => hnot (C.done_of_below (Result.done C hres) hb)
    unfold redirectHigh
    refine Gives.nodeAt fun n' hn' => ?_
    obtain rfl : n = n' := by simpa [hn] using hn'
    refine Gives.bind (traced_setHigh hb (C.traced.mono (Set.subset_insert _ _)) hh hbelow) ?_
    rintro _ m₁ ⟨k₁, hk₁, hs, T₁, hr₁⟩
    obtain rfl : n.key = k₁ := by simpa [hk] using hk₁
    exact destroy_turned hb C hh hnot hk (hres.resolve_left fun hr => hne hr.1) hne hs T₁ hr₁
      (Or.inl ⟨rfl, rfl⟩)
  · rename_i heq
    obtain rfl : c = n.high := by simpa using heq
    exact Gives.pure ⟨C, hk, fun _ _ => rfl, .refl _⟩

theorem turn_low (hb : Bare frozen) (C : Collapsing frozen ext s p m) (hh : h.isTerminal = false)
    (hnot : ¬ p.Done h) (hk : m.key? h = some k) (hres : Result p k.low c) :
    Gives (adjustLow h c) m fun _ m' => Collapsing frozen ext s p m' ∧
      m'.key? h = some { k with low := c } ∧
      (∀ {x}, ¬ p.Done x → x ≠ h → m'.key? x = m.key? x) ∧ Shallower m.key? m'.key? := by
  unfold adjustLow
  refine Gives.nodeAt fun n hn => ?_
  obtain rfl : k = n.key := Option.some.inj (hk.symm.trans (key?_of_get? hn))
  split
  · rename_i hne
    have hne : c ≠ n.low := by simpa using hne
    have hbelow : ¬ Below m.key? c h := fun hb => hnot (C.done_of_below (Result.done C hres) hb)
    unfold redirectLow
    refine Gives.nodeAt fun n' hn' => ?_
    obtain rfl : n = n' := by simpa [hn] using hn'
    refine Gives.bind (traced_setLow hb (C.traced.mono (Set.subset_insert _ _)) hh hbelow) ?_
    rintro _ m₁ ⟨k₁, hk₁, hs, T₁, hr₁⟩
    obtain rfl : n.key = k₁ := by simpa [hk] using hk₁
    exact destroy_turned hb C hh hnot hk (hres.resolve_left fun hr => hne hr.1) hne hs T₁ hr₁
      (Or.inr ⟨rfl, rfl⟩)
  · rename_i heq
    obtain rfl : c = n.low := by simpa using heq
    exact Gives.pure ⟨C, hk, fun _ _ => rfl, .refl _⟩

/-! ## Finishing a node -/

/-- What was finished before is what it was. -/
theorem finished_insert (hnot : ¬ p.Done h) (hx : (p.finished[x]?).isSome) :
    (p.finished.insert h c)[x]? = p.finished[x]? := by
  rw [Std.HashMap.getElem?_insert, if_neg]
  rw [beq_iff_eq]
  rintro rfl
  exact hnot (Or.inr hx)

theorem finished_cases (hx : (p.finished.insert h c)[x]? = some g) :
    x = h ∧ g = c ∨ p.finished[x]? = some g := by
  rw [Std.HashMap.getElem?_insert] at hx
  split at hx
  · rename_i he
    exact Or.inl ⟨(beq_iff_eq.1 he).symm, (Option.some.inj hx).symm⟩
  · exact Or.inr hx

/-- A node whose children are done gets a twin: one that is done, or itself if the table has got
it. -/
theorem enter (C : Collapsing frozen ext s p m) (hh : h.isTerminal = false) (hnot : ¬ p.Done h)
    (hk : m.key? h = some k) (hhigh : p.Done k.high) (hlow : p.Done k.low)
    (U : Underway False frozen ext s (fun _ => none) table m)
    (hentry : ∀ {k g}, table.get? k = some g → p.table.get? k = some g ∨ g = h ∧ c = h)
    (hct : c.isTerminal = false) (hck : m.key? c = some k)
    (hc : c = h ∨ (p.finished[c]?).isSome) :
    Collapsing frozen ext s ⟨table, p.finished.insert h c⟩ m := by
  have hsome : ∀ {x : Handle}, (p.finished[x]?).isSome →
      ((p.finished.insert h c)[x]?).isSome := fun hx => by rwa [finished_insert hnot hx]
  have hdone : ∀ {x : Handle}, p.Done x → Pass.Done ⟨table, p.finished.insert h c⟩ x :=
    fun hx => hx.imp_right hsome
  refine ⟨U, fun {k₀ x} hx => ?_, fun {x y} hy => ?_, fun {x y kx ky} hy hkx hky => ?_,
    fun {x kx} hx hkx => ?_⟩
  · rcases hentry hx with hx | ⟨rfl, rfl⟩
    · have hxf := C.canonical hx
      rw [finished_insert hnot (by rw [hxf]; rfl), hxf]
    · simp
  · rcases finished_cases hy with ⟨rfl, rfl⟩ | hy
    · refine ⟨hh, hct, ?_⟩
      rcases hc with rfl | hc
      · simp
      · exact hsome hc
    · obtain ⟨hxt, hyt, hyf⟩ := C.decision hy
      exact ⟨hxt, hyt, hsome hyf⟩
  · rcases finished_cases hy with ⟨rfl, rfl⟩ | hy
    · rw [hk] at hkx
      rw [hck] at hky
      exact Option.some.inj (hkx.symm.trans hky)
    · exact C.twin hy hkx hky
  · obtain ⟨y, hy⟩ := Option.isSome_iff_exists.1 hx
    rcases finished_cases hy with ⟨rfl, rfl⟩ | hy
    · obtain rfl := Option.some.inj (hk.symm.trans hkx)
      exact ⟨hdone hhigh, hdone hlow⟩
    · exact (C.closed (by rw [hy]; rfl) hkx).imp hdone hdone

theorem finish (C : Collapsing frozen ext s p m) (hh : h.isTerminal = false) (hnot : ¬ p.Done h)
    (hk : m.key? h = some k) (hhigh : p.Done k.high) (hlow : p.Done k.low) :
    Collapsing frozen ext s ⟨(p.table.findOrInsert k h).2,
      p.finished.insert h ((p.table.findOrInsert k h).1.getD h)⟩ m := by
  cases hc : p.table.get? k with
  | some c =>
      rw [UniqueTable.findOrInsert_of_some hc]
      obtain ⟨hct, hck⟩ := C.entry hc
      exact C.enter hh hnot hk hhigh hlow C.underway Or.inl hct hck
        (Or.inr (by rw [Option.getD_some, C.canonical hc]; rfl))
  | none =>
      rw [UniqueTable.findOrInsert_of_none hc]
      refine C.enter hh hnot hk hhigh hlow (C.underway.store hh hk rfl hc) (fun {k₀ g} hg => ?_)
        hh hk (Or.inl rfl)
      rw [UniqueTable.get?_store C.valid hc] at hg
      split at hg
      · cases hg
        exact Or.inr ⟨rfl, rfl⟩
      · exact Or.inl hg

/-- A node with finished children is finished. -/
theorem settleNode (hb : Bare frozen) (C : Collapsing frozen ext s p m) (hh : h.isTerminal = false)
    (hnot : ¬ p.Done h) (hk : m.key? h = some k) (hhigh : p.Done k.high) (hlow : p.Done k.low)
    {fuel : Nat} :
    Gives (settleNode fuel h p) m fun r m' => Collapsing frozen ext s r.2 m' ∧
      r.2.finished[h]? = some r.1 ∧ (∀ {x}, r.2.Done x ↔ x = h ∨ p.Done x) ∧
      (∀ {x}, ¬ p.Done x → x ≠ h → m'.key? x = m.key? x) ∧ Shallower m.key? m'.key? := by
  unfold Decision.settleNode
  refine Gives.bind (underway_collapseNode hb rfl hh C.underway (C.not_listed_of_not_done hnot)
    (by rw [hk]; rfl)) ?_
  rintro ⟨_, table⟩ m₁ ⟨U₁, S⟩
  obtain ⟨low, hbelow, hk₁⟩ := S.key hk
  have C₁ : Collapsing frozen ext s ⟨table, p.finished⟩ m₁ := by
    refine C.keep U₁ S.entry fun {x kx} hx hkx => ?_
    have hxh : x ≠ h := by
      rintro rfl
      exact hnot (Or.inr hx)
    rcases S.others hk hxh with hsame | ⟨hnone, _⟩
    · rwa [hsame] at hkx
    · rw [hnone] at hkx
      cases hkx
  refine Gives.nodeAt fun n hn => Gives.pure ?_
  obtain hn : n.key = { k with low } := Option.some.inj ((key?_of_get? hn).symm.trans hk₁)
  rw [hn]
  refine ⟨C₁.finish hh hnot hk₁ hhigh (C.done_of_below hlow hbelow), by simp, fun {x} => ?_,
    fun {x} hx hxh => ?_, S.shallower⟩
  · unfold Pass.Done
    simp only [Std.HashMap.getElem?_insert, beq_iff_eq]
    by_cases hxh : h = x
    · simp [hxh]
    · simp [hxh, Ne.symm hxh]
  · rcases S.others hk hxh with hsame | ⟨_, hb⟩
    · exact hsame
    · exact absurd (C.done_of_below hlow hb) hx

/-! ## The walk -/

/-- A path in the diagram after the high child of a node was turned to a node that is done, if it
leads to what is not done, was there before. -/
theorem below_of_turned (C : Collapsing frozen ext s p m') (hh : h.isTerminal = false)
    (hk : m.key? h = some k) (hk' : m'.key? h = some { k with high := c }) (hc : p.Done c)
    (hsame : ∀ {x}, ¬ p.Done x → x ≠ h → m'.key? x = m.key? x) (hx : ¬ p.Done x)
    (hb : Below m'.key? g x) : Below m.key? g x := by
  induction hb using Relation.ReflTransGen.head_induction_on with
  | refl => exact .refl
  | @head y z he hb ih =>
      refine .head ?_ ih
      have hz : ¬ p.Done z := fun hz => hx (C.done_of_below hz hb)
      have hy : ¬ p.Done y := fun hy => hz (C.done_of_below hy (.single he))
      obtain ⟨hyt, ky, hky, hkz⟩ := he
      by_cases hyh : y = h
      · subst hyh
        rw [hk'] at hky
        cases hky
        rcases hkz with rfl | rfl
        · exact absurd hc hz
        · exact ⟨hyt, k, hk, Or.inr rfl⟩
      · rw [hsame hy hyh] at hky
        exact ⟨hyt, ky, hky, hkz⟩

theorem collapseFrom (hb : Bare frozen) : ∀ {fuel : Nat} {h : Handle} {p : Pass} {m : Manager}
    {D : Diagram}, Collapsing frozen ext s p m → Denotes m.key? h D → D.depth < fuel →
    Gives (collapseFrom fuel h p) m fun r m' =>
      Collapsing frozen ext s r.2 m' ∧ Result r.2 h r.1 ∧ Settles p m h r.2 m'
  | 0, _, _, _, _, _, _, hfuel => absurd hfuel (Nat.not_lt_zero _)
  | fuel + 1, h, p, m, D, C, hD, hfuel => by
      cases hh : h.isTerminal with
      | true =>
          rw [Decision.collapseFrom, if_pos hh]
          exact Gives.pure ⟨C, Or.inl ⟨rfl, hh⟩, .refl p m h⟩
      | false =>
      cases hp : p.finished[h]? with
      | some r =>
          rw [Decision.collapseFrom, if_neg (by simp [hh])]
          simp only [hp]
          exact Gives.pure ⟨C, Or.inr hp, .refl p m h⟩
      | none =>
      rw [collapseFrom_of_none hh hp]
      have hnot : ¬ p.Done h := by
        rintro (ht | hf)
        · rw [hh] at ht
          cases ht
        · rw [hp] at hf
          cases hf
      obtain ⟨k, H, L, hk, hH, hL, rfl⟩ := hD.cases_node hh
      simp only [Diagram.depth] at hfuel
      refine Gives.nodeAt fun n hn => ?_
      obtain rfl : k = n.key := Option.some.inj (hk.symm.trans (key?_of_get? hn))
      obtain ⟨hnotHigh, hnotLow⟩ := C.traced.not_below_child hh hk
      -- the high child
      refine Gives.bind (Collapsing.collapseFrom hb C hH (by omega)) ?_
      rintro ⟨r₁, p₁⟩ m₁ ⟨C₁, hres₁, S₁⟩
      dsimp only at C₁ hres₁ S₁ ⊢
      have hnot₁ : ¬ p₁.Done h := fun hd => (S₁.origin hd).elim hnot hnotHigh
      have hk₁ : m₁.key? h = some n.key := by rw [S₁.unchanged hnot₁, hk]
      refine Gives.bind (C₁.turn_high hb hh hnot₁ hk₁ hres₁) ?_
      rintro _ m₂ ⟨C₂, hk₂, hothers₂, hsh₂⟩
      have hback : ∀ {x}, ¬ p₁.Done x → Below m₂.key? n.low x → Below m.key? n.low x :=
        fun hx => C₂.below_of_turned hh hk hk₂ (Result.done C₁ hres₁)
          (fun hx hxh => by rw [hothers₂ hx hxh, S₁.unchanged hx]) hx
      -- the low child
      refine Gives.nodeAt fun n₂ hn₂ => ?_
      have hkey₂ : n₂.key = { n.key with high := r₁ } :=
        Option.some.inj ((key?_of_get? hn₂).symm.trans hk₂)
      have hlow₂ : n₂.low = n.low := congrArg Node.Key.low hkey₂
      rw [hlow₂]
      obtain ⟨L₂, hL₂⟩ := C₂.traced.denotes (C₂.heap.sound_of_key (hb h hh) hk₂).2
      obtain ⟨L', hL', hle⟩ := S₁.shallower.trans hsh₂ _ _ hL₂
      obtain rfl := hL.unique hL'
      refine Gives.bind (Collapsing.collapseFrom hb C₂ hL₂ (by omega)) ?_
      rintro ⟨r₃, p₃⟩ m₃ ⟨C₃, hres₃, S₃⟩
      dsimp only at C₃ hres₃ S₃ ⊢
      have hnot₃ : ¬ p₃.Done h := fun hd =>
        (S₃.origin hd).elim hnot₁ (C₂.traced.not_below_child hh hk₂).2
      have hk₃ : m₃.key? h = some { n.key with high := r₁ } := by rw [S₃.unchanged hnot₃, hk₂]
      refine Gives.bind (C₃.turn_low hb hh hnot₃ hk₃ hres₃) ?_
      rintro _ m₄ ⟨C₄, hk₄, hothers₄, hsh₄⟩
      refine Gives.mono (C₄.settleNode hb hh hnot₃ hk₄ (S₃.finished (Result.done C₁ hres₁))
        (Result.done C₃ hres₃)) ?_
      rintro ⟨r, p'⟩ m' ⟨C', hres, hdone, hothers', hsh'⟩
      refine ⟨C', Or.inr hres, fun hx => hdone.2 (Or.inr (S₃.finished (S₁.finished hx))),
        fun {x} hx => ?_, fun {x} hx => ?_,
        (((S₁.shallower.trans hsh₂).trans S₃.shallower).trans hsh₄).trans hsh'⟩
      · obtain ⟨hxh, hx₃⟩ := not_or.1 fun hor => hx (hdone.2 hor)
        have hx₁ : ¬ p₁.Done x := fun hx₁ => hx₃ (S₃.finished hx₁)
        rw [hothers' hx₃ hxh, hothers₄ hx₃ hxh, S₃.unchanged hx₃, hothers₂ hx₁ hxh,
          S₁.unchanged hx₁]
      · rcases hdone.1 hx with rfl | hx₃
        · exact Or.inr .refl
        by_cases hx₁ : p₁.Done x
        · exact (S₁.origin hx₁).imp_right fun hb => .head ⟨hh, _, hk, Or.inl rfl⟩ hb
        · refine Or.inr (.head ⟨hh, _, hk, Or.inr rfl⟩ (hback hx₁ ?_))
          exact (S₃.origin hx₃).resolve_left hx₁

end Collapsing

/-! ## Whole diagrams -/

/-- A new table is empty. -/
theorem gives_newTable_empty : Gives newTable m fun table m' => m' = m ∧ table.Valid ∧
    ∀ k, table.get? k = none := by
  unfold newTable
  refine Gives.get (Gives.mono gives_lift ?_)
  rintro table m' ⟨ho, hm'⟩
  obtain rfl : m = m' := hm'.symm
  by_cases hbits : m.tableBits ≤ Arena.maxBits
  · rw [UniqueTable.empty_eq_ok hbits] at ho
    cases ho
    have hpos : 0 < Nat.pow 2 (min m.tableBits UniqueTable.maxBucketBits) :=
      Nat.pow_pos (by decide)
    exact ⟨rfl, UniqueTable.valid_ofBuckets hpos, fun _ => UniqueTable.get?_ofBuckets hpos⟩
  · simp [UniqueTable.empty, require, ensure, hbits, bind, Except.bind, abort] at ho

theorem Listed.of_empty (hvalid : table.Valid) (hempty : ∀ k, table.get? k = none) :
    Listed table m where
  valid := hvalid
  entry hc := by
    rw [hempty] at hc
    cases hc

/-- A pass starts without open nodes, and without products if it uses them. -/
theorem Traced.underway (T : Traced frozen ext s m) (reuse : Prop) (hL : Listed table m)
    (hrec : reuse → ∀ c, ¬ m.Records c) :
    Underway reuse frozen ext s (fun _ => none) table m where
  toTraced := T
  toListed := hL
  not_listed _ := rfl
  recorded hreuse c hc := absurd hc (hrec hreuse c)
  open_node hg := by cases hg

/-- The reference of the caller moves to the result. -/
theorem traced_collapse (hb : Bare frozen) (T : Traced frozen (ext + Pi.single h 1) s m) :
    Gives (collapse h) m fun c m' => Traced frozen (ext + Pi.single c 1) s m' := by
  unfold collapse depthBound
  refine Gives.get (Gives.bind gives_newTable_empty ?_)
  rintro table m' ⟨hm', hvalid, hempty⟩
  obtain rfl : m = m' := hm'.symm
  have hsound : h.isTerminal = true ∨ (m.key? h).isSome := by
    rw [or_iff_not_imp_right, Option.not_isSome_iff_eq_none]
    intro hnone
    have := T.heap.held (key?_eq_none_iff.1 hnone)
    simp at this
  obtain ⟨D, hD⟩ := T.denotes (hsound.elim Or.inl hb.sound)
  have hfinished : ∀ {x c : Handle}, (∅ : Std.HashMap Handle Handle)[x]? ≠ some c := by simp
  have C : Collapsing frozen (ext + Pi.single h 1) s ⟨table, ∅⟩ m := by
    refine ⟨T.underway False (.of_empty hvalid hempty) False.elim, fun hc => ?_,
      fun hc => absurd hc hfinished, fun hc => absurd hc hfinished, fun hx => ?_⟩
    · rw [hempty] at hc
      cases hc
    · obtain ⟨c, hc⟩ := Option.isSome_iff_exists.1 hx
      exact absurd hc hfinished
  refine Gives.bind (C.collapseFrom hb hD (Nat.lt_succ_of_le hD.depth_le_size)) ?_
  rintro ⟨c, p⟩ m₁ ⟨C₁, -, -⟩
  dsimp only
  split
  · refine Gives.bind (traced_reference hb (C₁.traced.mono (Set.subset_insert _ _))) ?_
    rintro _ m₂ ⟨T₂, -⟩
    rw [add_right_comm] at T₂
    exact Gives.bind (traced_release hb T₂) fun _ _ T₃ => Gives.pure T₃
  · rename_i hc
    obtain rfl : c = h := by simpa using hc
    exact Gives.pure C₁.traced

/-! ## Putting nodes back -/

/-- A new node takes over the edges of a node and becomes its low child. -/
theorem traced_insertBelow (hb : Bare frozen) {l : Literal} {n : Node} (T : Traced frozen ext s m)
    (hh : h.isTerminal = false) (hn : m.arena.get? h = some n) :
    Gives (do setLow h (← makeNode l n.high n.low n.weights)) m fun _ m' =>
      Traced frozen ext s m' := by
  have hk := key?_of_get? hn
  obtain ⟨hhigh, hlow⟩ := T.heap.sound_of_key (hb h hh) hk
  have hmore := T.mono ((Set.subset_insert n.low s).trans (Set.subset_insert n.high _))
  refine Gives.bind (traced_makeNode hb hmore (hhigh.imp_right And.right)
    (hlow.imp_right And.right)) ?_
  rintro x m₁ ⟨hnone, hx, T₁, hr₁⟩
  have hne : x ≠ h := by
    rintro rfl
    rw [hk] at hnone
    cases hnone
  have hk₁ : m₁.key? h = some n.key := by rw [hr₁.key, Function.update_of_ne hne.symm, hk]
  have hkx : m₁.key? x = some ⟨l.value, n.high, n.low, n.weights⟩ := by
    rw [hr₁.key, Function.update_self]
  obtain ⟨hnotHigh, hnotLow⟩ := T₁.not_below_child hh hk₁
  have hnot : ¬ Below m₁.key? x h := by
    intro hbelow
    rcases Relation.ReflTransGen.cases_head hbelow with rfl | ⟨y, ⟨-, ky, hky, hy⟩, hbelow⟩
    · exact hne rfl
    · obtain rfl := Option.some.inj (hkx.symm.trans hky)
      rcases hy with rfl | rfl
      · exact hnotHigh hbelow
      · exact hnotLow hbelow
  refine Gives.mono (traced_setLow hb T₁ hh hnot) ?_
  rintro _ m₂ ⟨k₂, hk₂, -, T₂, hr₂⟩
  obtain rfl := Option.some.inj (hk₁.symm.trans hk₂)
  refine T₂.drop_pointed ⟨x, ⟨l.value, n.high, n.low, n.weights⟩, hb x hx, ?_, Or.inr rfl⟩
  rw [hr₂.key, Function.update_of_ne hne, hkx]

theorem traced_uncollapseFrom (hb : Bare frozen) {next : List (Int × Literal)} :
    ∀ (fuel : Nat) (stack : List Handle) (visited : Std.HashSet Handle) {m : Manager},
      Traced frozen ext s m →
      Gives (uncollapseFrom next fuel stack visited) m fun _ m' => Traced frozen ext s m'
  | 0, _, _, _, T => Gives.pure T
  | _ + 1, [], _, _, T => Gives.pure T
  | fuel + 1, h :: stack, visited, m, T => by
      unfold uncollapseFrom
      split
      · exact traced_uncollapseFrom hb fuel _ _ T
      rename_i hvisit
      have hh : h.isTerminal = false := by
        cases ht : h.isTerminal with
        | false => rfl
        | true => simp [ht] at hvisit
      have hnext : ∀ {m' : Manager}, Traced frozen ext s m' → Gives (nodeAt h >>= fun n =>
          uncollapseFrom next fuel (n.high :: n.low :: stack) (visited.insert h)) m'
          fun _ m'' => Traced frozen ext s m'' := fun T' =>
        Gives.nodeAt fun _ _ => traced_uncollapseFrom hb fuel _ _ T'
      refine Gives.nodeAt fun n hn => ?_
      split
      · refine Gives.nodeAt fun low _ => ?_
        split
        · rw [← bind_assoc]
          exact Gives.bind (traced_insertBelow hb T hh hn) fun _ _ T₁ => hnext T₁
        · exact hnext T
      · exact hnext T

theorem traced_uncollapse (hb : Bare frozen) {ordering : List Literal} (T : Traced frozen ext s m) :
    Gives (uncollapse h ordering) m fun _ m' => Traced frozen ext s m' :=
  Gives.get (traced_uncollapseFrom hb _ _ _ T)

end BayesCircuit.Decision
