import BayesCircuit.Proofs.Decision.Shared

/-!
# Collapsing in place

`collapse` leaves out the low children of a diagram that was built before. It goes down the diagram
and finishes every node after its children; a finished node has the collapsed tree of the node that
it was (`Sweep.collapsed`), unless nothing led to it any more and it was freed.

Here the diagram must be such that no two of its nodes collapse to the same tree. Then no node is
replaced by another one: the root that comes back is the one that went in, and the collapsed diagram
is shared (`collapse_spec`).
-/

namespace BayesCircuit.Decision

open Collection Action

variable {m m' : Manager} {frozen : Handle → Option Node} {ext : Handle → Nat} {table : Table}
variable {f : Handle → Option Node.Key} {root g h c : Handle} {k : Node.Key} {D E T : Diagram}
variable {same : Int → Int → Bool} {busy done done' : Set Handle} {p : Pass}

/-! ## Depth -/

theorem depth_collapse_le : (D.collapse same).depth ≤ D.depth := by
  induction D with
  | leaf b => exact Nat.le_refl _
  | branch l ws H L ihH ihL =>
      have hlow : (Diagram.lowAfter same l ws (H.collapse same) (L.collapse same)).depth ≤
          (L.collapse same).depth := depth_lowAfter_le
      simp only [Diagram.collapse, Diagram.skip, Diagram.depth]
      omega

/-! ## What holds between two steps -/

/-- A diagram of which no two nodes collapse to the same tree. -/
structure Rigid (f : Handle → Option Node.Key) (same : Int → Int → Bool) (root : Handle)
    (T : Diagram) : Prop where
  denotes : Denotes f root T
  eq_of_collapse : ∀ {g h D E}, Below f root g → Below f root h → Denotes f g D → Denotes f h E →
    D.collapse same = E.collapse same → g = h

/-- Nodes that are finished, and terminals. -/
def Finished (done : Set Handle) (h : Handle) : Prop := h.isTerminal = true ∨ h ∈ done

theorem Finished.mono (hs : Finished done h) (hsub : done ⊆ done') : Finished done' h :=
  hs.imp_right (hsub ·)

/-- What holds while a diagram is collapsed in place: some nodes are done, at most one is busy, and
the others are as they were. -/
structure Sweep (frozen : Handle → Option Node) (ext : Handle → Nat)
    (f : Handle → Option Node.Key) (same : Int → Int → Bool) (root : Handle) (busy : Set Handle)
    (m : Manager) (table : Table) (done : Set Handle) : Prop where
  heap : Heap frozen ext m
  valid : table.Valid
  entry : ∀ {k c}, table.get? k = some c → m.key? c = some k ∧ c ∈ done
  below : ∀ {g}, g ∈ done → g.isTerminal = false ∧ frozen g = none ∧ Below f root g
  fresh : ∀ {g}, Below f root g → g.isTerminal = false → g ∉ done → g ∉ busy → m.key? g = f g
  collapsed : ∀ {g D}, g ∈ done → (m.key? g).isSome → Denotes f g D →
    Denotes m.key? g (D.collapse same)
  closed : ∀ {g k}, g ∈ done → m.key? g = some k → Finished done k.high ∧ Finished done k.low

theorem Below.exists_denotes (hb : Below f root g) (hD : Denotes f root D) :
    ∃ E, Denotes f g E := by
  obtain ⟨E, hE, -⟩ := hD.of_below hb
  exact ⟨E, hE⟩

/-- Nodes of one tree that are done are one node. -/
theorem Sweep.eq_of_denotes (S : Sweep frozen ext f same root busy m table done)
    (R : Rigid f same root T) (hg : Finished done g) (hh : Finished done h)
    (hD : Denotes m.key? g D) (hE : Denotes m.key? h D) : g = h := by
  cases D with
  | leaf b => rw [Denotes.leaf_iff.1 hD, Denotes.leaf_iff.1 hE]
  | branch l ws H L =>
      have hdone : ∀ {j : Handle}, Finished done j → Denotes m.key? j (.branch l ws H L) →
          ∃ E, Below f root j ∧ Denotes f j E ∧ E.collapse same = .branch l ws H L := by
        intro j hj hDj
        obtain ⟨ht, kj, hkj, -⟩ := hDj.cases_branch
        have hmem := hj.resolve_left (by simp [ht])
        obtain ⟨-, -, hb⟩ := S.below hmem
        obtain ⟨E, hE⟩ := hb.exists_denotes R.denotes
        exact ⟨E, hb, hE, (S.collapsed hmem (by simp [hkj]) hE).unique hDj⟩
      obtain ⟨G, hbg, hG, heg⟩ := hdone hg hD
      obtain ⟨G', hbh, hG', heh⟩ := hdone hh hE
      exact R.eq_of_collapse hbg hbh hG hG' (heg.trans heh.symm)

/-- What is done stays as it is when only other nodes change or are freed. -/
theorem Sweep.denotes_of_done (S : Sweep frozen ext f same root busy m table done)
    (H' : Heap frozen ext m') (hkey : ∀ {g}, g ∈ done → (m'.key? g).isSome → m'.key? g = m.key? g)
    (hg : Finished done g) (hs : Sound frozen m' g) (hD : Denotes m.key? g D) :
    Denotes m'.key? g D := by
  refine hD.transfer (P := fun j => Finished done j ∧ Sound frozen m' j) ⟨hg, hs⟩ ?_
  rintro j kj ⟨hj, hjs⟩ ht hkj
  have hmem := hj.resolve_left (by simp [ht])
  obtain ⟨hjf, hlive⟩ := hjs.resolve_left (by simp [ht])
  have hkj' : m'.key? j = some kj := (hkey hmem hlive).trans hkj
  obtain ⟨hhigh, hlow⟩ := S.closed hmem hkj
  obtain ⟨hhighs, hlows⟩ := H'.sound_of_key hjf hkj'
  exact ⟨hkj', ⟨hhigh, hhighs⟩, hlow, hlows⟩

/-- The busy node leads past its low child, which may be freed. -/
theorem Sweep.set {table' : Table}
    (S : Sweep frozen ext f same root {h} m table done) (hh : h ∉ done)
    (H' : Heap frozen ext m') (hvalid : table'.Valid)
    (hentry : ∀ {k' c}, table'.get? k' = some c → table.get? k' = some c ∧ (m'.key? c).isSome)
    (hkey : ∀ {g}, g ≠ h → (m'.key? g).isSome ∨ g ∉ done → m'.key? g = m.key? g) :
    Sweep frozen ext f same root {h} m' table' done := by
  have hdone : ∀ {g}, g ∈ done → (m'.key? g).isSome → m'.key? g = m.key? g := by
    intro g hg hlive
    refine hkey ?_ (Or.inl hlive)
    rintro rfl
    exact hh hg
  refine ⟨H', hvalid, fun hc => ?_, S.below, fun hb ht hg hgb => ?_, fun hg hlive hD => ?_,
    fun hg hk => ?_⟩
  · obtain ⟨hc, hlive⟩ := hentry hc
    obtain ⟨hck, hcd⟩ := S.entry hc
    exact ⟨(hdone hcd hlive).trans hck, hcd⟩
  · rw [hkey hgb (Or.inr hg), S.fresh hb ht hg hgb]
  · have hlive' := hlive
    rw [hdone hg hlive] at hlive'
    exact S.denotes_of_done H' hdone (Or.inr hg) (Or.inr ⟨(S.below hg).2.1, hlive⟩)
      (S.collapsed hg hlive' hD)
  · rw [hdone hg (by simp [hk])] at hk
    exact S.closed hg hk

/-! ## Leaving out low children -/

/-- One round of `collapseNode` at the busy node, whose low child is left out; the loop goes on with
`next`. -/
theorem Sweep.skip_spec {β : Type} {Q : β → Manager → Prop} {kg : Node.Key}
    (next : Table → Action β) (S : Sweep frozen ext f same root {h} m table done) (hh : h ∉ done)
    (hf : frozen h = none) (hk : m.key? h = some k) (hg : m.key? k.low = some kg)
    (hgd : k.low ∈ done)
    (hnext : ∀ table' m', Sweep frozen ext f same root {h} m' table' done →
      m'.key? h = some { k with low := kg.low } →
      (∀ {c D}, Finished done c → Sound frozen m' c → Denotes m.key? c D → Denotes m'.key? c D) →
      m'.literalVariables = m.literalVariables → Ends (next table') m' Q) :
    Ends (do
      setLow h kg.low
      if (← nodeAt k.low).refs == 0 then do
          let table ← forget table k.low
          forceDestroy k.low
          next table
        else next table) m Q := by
  have hne : ∀ {g}, g ∈ done → g ≠ h := by
    rintro g hg rfl
    exact hh hg
  refine bypass_spec next S.heap S.valid
    (fun hc => ⟨(S.entry hc).1, hne (S.entry hc).2⟩) hf hk hg (S.below hgd).2.1 (hne hgd)
    (fun m' H' hr _ => ?_) fun table' m' F _ => ?_
  · have hkey : ∀ {g}, g ≠ h → m'.key? g = m.key? g := fun hg => by
      rw [hr.key, Function.update_of_ne hg]
    have S' : Sweep frozen ext f same root {h} m' table done := by
      refine S.set hh H' S.valid (fun hc => ⟨hc, ?_⟩) fun hg _ => hkey hg
      rw [hkey (hne (S.entry hc).2), (S.entry hc).1]
      rfl
    refine hnext table m' S' (by rw [hr.key, Function.update_self]) ?_ hr.literalVariables
    exact fun hc hs hD => S.denotes_of_done H' (fun hg _ => hkey (hne hg)) hc hs hD
  · have hkey : ∀ {g}, g ≠ h → (m'.key? g).isSome ∨ g ∉ done → m'.key? g = m.key? g := by
      intro g hg hlive
      have hgl : g ≠ k.low := by
        rintro rfl
        rcases hlive with hlive | hlive
        · simp [F.key] at hlive
        · exact hlive hgd
      rw [F.key, Function.update_of_ne hgl, Function.update_of_ne hg]
    have S' : Sweep frozen ext f same root {h} m' table' done := by
      refine S.set hh F.heap F.valid (fun hc => ?_) hkey
      obtain ⟨hc, hcl⟩ := F.entry.1 hc
      refine ⟨hc, ?_⟩
      rw [F.key, Function.update_of_ne hcl, Function.update_of_ne (hne (S.entry hc).2),
        (S.entry hc).1]
      rfl
    refine hnext table' m' S' ?_ ?_ F.literalVariables
    · rw [F.key, Function.update_of_ne (hne hgd).symm, Function.update_self]
    · exact fun hc hs hD =>
        S.denotes_of_done F.heap (fun hg hlive => hkey (hne hg) (Or.inl hlive)) hc hs hD

/-- The busy node has a tree, and its children are finished. -/
structure Busy (done : Set Handle) (m : Manager) (h : Handle) (D : Diagram) : Prop where
  denotes : Denotes m.key? h D
  finished : ∀ {k}, m.key? h = some k → Finished done k.high ∧ Finished done k.low

theorem Sweep.collapseNode_spec (R : Rigid f same root T) (hh : h ∉ done) (hf : frozen h = none) :
    ∀ {fuel m table D}, Sweep frozen ext f same root {h} m table done → m.sameVariable = same →
      Busy done m h D → D.depth ≤ fuel →
      Ends (collapseNode fuel table h) m fun r m' =>
        Sweep frozen ext f same root {h} m' r.2 done ∧ Busy done m' h (D.skip same) ∧
        m'.literalVariables = m.literalVariables
  | 0, m, table, D, S, _, hB, hfuel => by
      obtain ⟨k, H, L, -, -, -, rfl⟩ := hB.denotes.cases_node (S.heap.not_terminal hf)
      exact absurd hfuel (Nat.not_succ_le_zero _)
  | fuel + 1, m, table, D, S, hsame, hB, hfuel => by
      unfold collapseNode
      have hshares : SharesHigh m h := by
        intro k kg H hk hlow hkg hH hH'
        obtain ⟨hhigh, hlows⟩ := hB.finished hk
        exact S.eq_of_denotes R (S.closed (hlows.resolve_left (by simp [hlow])) hkg).1 hhigh hH' hH
      obtain ⟨b, hb, hcan, hstop⟩ := canCollapse_spec S.heap hf hB.denotes
      rw [hsame] at hstop
      refine Ends.get (Ends.lift hb ?_)
      cases b with
      | false => exact Ends.pure ⟨S, (hstop rfl hshares).symm ▸ hB, rfl⟩
      | true =>
          obtain ⟨k, kg, H, Z, C, rfl⟩ := hcan rfl
          obtain ⟨n, hn, rfl⟩ := key?_eq_some_iff.1 C.key
          obtain ⟨ng, hng, rfl⟩ := key?_eq_some_iff.1 C.low
          simp only [Bool.not_true, Bool.false_eq_true, if_false]
          obtain ⟨hhigh, hlow⟩ := hB.finished C.key
          have hgd := hlow.resolve_left (by simp [S.heap.not_terminal C.young])
          have hnext := (S.closed hgd C.low).2
          refine Ends.nodeAt hn (Ends.nodeAt hng ?_)
          refine S.skip_spec (fun table => collapseNode fuel table h >>= fun r => pure (true, r.2)) hh
            hf C.key C.low hgd ?_
          intro table₁ m₁ S₁ hk₁ hden hvars
          obtain ⟨hhighs, hlows⟩ := S₁.heap.sound_of_key hf hk₁
          have hB₁ : Busy done m₁ h (.branch n.literal n.weights H Z) := by
            refine ⟨.node (S.heap.not_terminal hf) hk₁ (hden hhigh hhighs C.denotes_high)
              (hden hnext hlows C.denotes_low), fun hk => ?_⟩
            rw [hk₁] at hk
            cases hk
            exact ⟨hhigh, hnext⟩
          refine Ends.bind (collapseNode_spec R hh hf S₁ ((sameVariable_congr hvars).trans hsame)
            hB₁ ?_) ?_
          · simp only [Diagram.depth] at hfuel ⊢
            omega
          rintro ⟨_, table₂⟩ m₂ ⟨S₂, hB₂, hvars₂⟩
          exact Ends.pure ⟨S₂, (skip_step (hsame ▸ C.same) C.ne_true).symm ▸ hB₂,
            hvars₂.trans hvars⟩

/-! ## The walk -/

/-- The results that a pass keeps are the nodes that are done. -/
def Marks (p : Pass) (done : Set Handle) : Prop :=
  ∀ g r, p.finished[g]? = some r ↔ g ∈ done ∧ r = g

/-- Nobody is busy yet. -/
theorem Sweep.start (S : Sweep frozen ext f same root ∅ m table done) :
    Sweep frozen ext f same root {h} m table done :=
  ⟨S.heap, S.valid, S.entry, S.below, fun hb ht hg _ => S.fresh hb ht hg (Set.notMem_empty _),
    S.collapsed, S.closed⟩

/-- What a finished node has become. -/
theorem Sweep.denotes_finished (S : Sweep frozen ext f same root busy m table done)
    (hg : Finished done g) (hs : Sound frozen m g) (hD : Denotes f g D) :
    Denotes m.key? g (D.collapse same) := by
  cases ht : g.isTerminal with
  | true =>
      cases hD with
      | false' => exact .false'
      | true' => exact .true'
      | node ht' => simp [ht] at ht'
  | false =>
      exact S.collapsed (hg.resolve_left (by simp [ht])) (hs.resolve_left (by simp [ht])).2 hD

/-- The busy node is done when its low child cannot be left out; no node that is done equals it. -/
theorem Sweep.finish (R : Rigid f same root T) (S : Sweep frozen ext f same root {h} m table done)
    (hh : h ∉ done) (hf : frozen h = none) (hb : Below f root h) (hD : Denotes f h D)
    (hB : Busy done m h (D.collapse same)) (hk : m.key? h = some k) :
    table.get? k = none ∧ Sweep frozen ext f same root ∅ m (table.store k h) (insert h done) := by
  have ht := S.heap.not_terminal hf
  have hnone : table.get? k = none := by
    cases hc : table.get? k with
    | none => rfl
    | some c =>
        obtain ⟨hck, hcd⟩ := S.entry hc
        obtain ⟨hct, -, hcb⟩ := S.below hcd
        obtain ⟨E, hE⟩ := hcb.exists_denotes R.denotes
        obtain ⟨k', H, L, hk', hH, hL, he⟩ := hB.denotes.cases_node ht
        rw [hk] at hk'
        cases hk'
        have hcD : Denotes m.key? c (D.collapse same) := he ▸ .node hct hck hH hL
        have hEc := S.collapsed hcd (by simp [hck]) hE
        obtain rfl := R.eq_of_collapse hcb hb hE hD (hEc.unique hcD)
        exact absurd hcd hh
  have hsub : ∀ {g}, Finished done g → Finished (insert h done) g := fun hs =>
    hs.mono (Set.subset_insert h done)
  refine ⟨hnone, S.heap, UniqueTable.valid_store S.valid hnone, fun hc => ?_, fun hg => ?_,
    fun hb ht hg _ => ?_, fun hg hlive hE => ?_, fun hg hkg => ?_⟩
  · rw [UniqueTable.get?_store S.valid hnone] at hc
    split at hc
    · rename_i hkk
      cases hc
      exact ⟨hkk ▸ hk, Set.mem_insert _ _⟩
    · obtain ⟨hck, hcd⟩ := S.entry hc
      exact ⟨hck, Set.mem_insert_of_mem _ hcd⟩
  · rcases Set.mem_insert_iff.1 hg with rfl | hg
    · exact ⟨ht, hf, hb⟩
    · exact S.below hg
  · rw [Set.mem_insert_iff, not_or] at hg
    exact S.fresh hb ht hg.2 hg.1
  · rcases Set.mem_insert_iff.1 hg with rfl | hg
    · exact hE.unique hD ▸ hB.denotes
    · exact S.collapsed hg hlive hE
  · rcases Set.mem_insert_iff.1 hg with rfl | hg
    · exact (hB.finished hkg).imp hsub hsub
    · exact (S.closed hg hkg).imp hsub hsub

/-- What a walk down from a node does. -/
structure Swept (frozen : Handle → Option Node) (ext : Handle → Nat)
    (f : Handle → Option Node.Key) (same : Int → Int → Bool) (root : Handle) (m : Manager)
    (done : Set Handle) (h : Handle) (r : Handle × Pass) (m' : Manager) (done' : Set Handle) :
    Prop where
  result : r.1 = h
  sweep : Sweep frozen ext f same root ∅ m' r.2.table done'
  marks : Marks r.2 done'
  finished : Finished done' h
  subset : done ⊆ done'
  below : ∀ g ∈ done', g ∈ done ∨ Below f h g
  literalVariables : m'.literalVariables = m.literalVariables

/-- Walking down to a child leaves the node above alone. -/
theorem Swept.fresh {r : Handle × Pass} (W : Swept frozen ext f same root m done c r m' done')
    (hh : h ∉ done) (hb : Below f root h) (hD : Denotes f h D) (he : Edge f h c) :
    h ∉ done' ∧ m'.key? h = f h := by
  have hh' : h ∉ done' := fun hmem =>
    (W.below h hmem).elim hh (hD.not_below he)
  exact ⟨hh', W.sweep.fresh hb he.1 hh' (Set.notMem_empty _)⟩

/-- Read a node of which the key is known. -/
theorem nodeAt_spec {β : Type} {Q : β → Manager → Prop} {next : Node → Action β}
    (hk : m.key? h = some k) (hnext : ∀ n, n.key = k → Ends (next n) m Q) :
    Ends (nodeAt h >>= next) m Q := by
  obtain ⟨n, hn, hnk⟩ := key?_eq_some_iff.1 hk
  exact Ends.nodeAt hn (hnext n hnk)

/-- The node above two finished nodes becomes done. -/
theorem Sweep.last_spec {fuel : Nat} {H L : Diagram} (R : Rigid f same root T)
    (S : Sweep frozen ext f same root ∅ m p.table done) (hp : Marks p done)
    (hsame : m.sameVariable = same) (hh : h ∉ done) (hf : frozen h = none) (hb : Below f root h)
    (hk : f h = some k) (hH : Denotes f k.high H) (hL : Denotes f k.low L)
    (hhigh : Finished done k.high) (hlow : Finished done k.low)
    (hfuel : max H.depth L.depth ≤ fuel) :
    Ends (do
      let (_, table) ← collapseNode (fuel + 1) p.table h
      let (found, table) := table.findOrInsert (← nodeAt h).key h
      let canonical := found.getD h
      return (canonical, (⟨table, p.finished.insert h canonical⟩ : Pass))) m fun r m' =>
        r.1 = h ∧ Sweep frozen ext f same root ∅ m' r.2.table (insert h done) ∧
          Marks r.2 (insert h done) ∧ m'.literalVariables = m.literalVariables := by
  have ht := S.heap.not_terminal hf
  have hkm : m.key? h = some k := (S.fresh hb ht hh (Set.notMem_empty _)).trans hk
  obtain ⟨hhighs, hlows⟩ := S.heap.sound_of_key hf hkm
  have hB : Busy done m h (.branch k.literal k.weights (H.collapse same) (L.collapse same)) := by
    refine ⟨.node ht hkm (S.denotes_finished hhigh hhighs hH) (S.denotes_finished hlow hlows hL),
      fun hk' => ?_⟩
    rw [hkm] at hk'
    cases hk'
    exact ⟨hhigh, hlow⟩
  have hdepth : (Diagram.branch k.literal k.weights (H.collapse same) (L.collapse same)).depth ≤
      fuel + 1 := by
    have hH' : (H.collapse same).depth ≤ H.depth := depth_collapse_le
    have hL' : (L.collapse same).depth ≤ L.depth := depth_collapse_le
    simp only [Diagram.depth]
    omega
  refine Ends.bind (S.start.collapseNode_spec R hh hf hsame hB hdepth) ?_
  rintro ⟨_, table⟩ m₁ ⟨S₁, hB₁, hvars⟩
  obtain ⟨k₁, -, -, hk₁, -⟩ := hB₁.denotes.cases_node ht
  obtain ⟨hnone, S₂⟩ := S₁.finish R hh hf hb (.node ht hk hH hL) hB₁ hk₁
  refine nodeAt_spec hk₁ fun n hn => ?_
  rw [hn, UniqueTable.findOrInsert_of_none hnone]
  refine Ends.pure ⟨rfl, S₂, fun g r => ?_, hvars⟩
  simp only [Option.getD_none, Std.HashMap.getElem?_insert, beq_iff_eq, Set.mem_insert_iff]
  split
  · rename_i he
    subst he
    simp [eq_comm]
  · rename_i hne
    rw [hp g r, or_iff_right (Ne.symm hne)]

theorem Sweep.collapseFrom_spec (R : Rigid f same root T) :
    ∀ {fuel m p done h D}, Sweep frozen ext f same root ∅ m p.table done → Marks p done →
      m.sameVariable = same → Below f root h → Sound frozen m h → Denotes f h D →
      D.depth ≤ fuel → Ends (collapseFrom fuel h p) m fun r m' =>
        ∃ done', Swept frozen ext f same root m done h r m' done'
  | 0, m, p, done, h, D, S, hp, _, _, _, hD, hfuel => by
      have ht : h.isTerminal = true := by
        cases hD with
        | false' => rfl
        | true' => rfl
        | node => exact absurd hfuel (Nat.not_succ_le_zero _)
      exact Ends.pure ⟨done, rfl, S, hp, Or.inl ht, subset_rfl, fun g hg => Or.inl hg, rfl⟩
  | fuel + 1, m, p, done, h, D, S, hp, hsame, hb, hs, hD, hfuel => by
      unfold collapseFrom
      cases ht : h.isTerminal with
      | true =>
          simp only [if_true]
          exact Ends.pure ⟨done, rfl, S, hp, Or.inl ht, subset_rfl, fun g hg => Or.inl hg, rfl⟩
      | false =>
          simp only [Bool.false_eq_true, if_false]
          have hf := (hs.resolve_left (by simp [ht])).1
          cases hfin : p.finished[h]? with
          | some r =>
              obtain ⟨hmem, rfl⟩ := (hp h r).1 hfin
              exact Ends.pure
                ⟨done, rfl, S, hp, Or.inr hmem, subset_rfl, fun g hg => Or.inl hg, rfl⟩
          | none =>
              have hh : h ∉ done := fun hmem => by
                rw [(hp h h).2 ⟨hmem, rfl⟩] at hfin
                cases hfin
              obtain ⟨k, H, L, hk, hH, hL, rfl⟩ := hD.cases_node ht
              have hhigh : Edge f h k.high := ⟨ht, k, hk, Or.inl rfl⟩
              have hlow : Edge f h k.low := ⟨ht, k, hk, Or.inr rfl⟩
              simp only [Diagram.depth] at hfuel
              have hkm : m.key? h = some k := (S.fresh hb ht hh (Set.notMem_empty _)).trans hk
              simp only
              refine nodeAt_spec hkm fun n hn => ?_
              rw [show n.high = k.high from congrArg Node.Key.high hn]
              -- the high child
              refine Ends.bind (collapseFrom_spec R S hp hsame (hb.tail hhigh)
                (S.heap.sound_of_key hf hkm).1 hH (by omega)) ?_
              rintro ⟨_, p₁⟩ m₁ ⟨done₁, W₁⟩
              obtain rfl := W₁.result
              obtain ⟨hh₁, hkm₁⟩ := W₁.fresh hh hb hD hhigh
              rw [hk] at hkm₁
              refine nodeAt_spec hkm₁ fun n₁ hn₁ => ?_
              rw [show n₁.high = k.high from congrArg Node.Key.high hn₁]
              simp only [bne_self_eq_false, Bool.false_eq_true, if_false]
              refine nodeAt_spec hkm₁ fun n₂ hn₂ => ?_
              rw [show n₂.low = k.low from congrArg Node.Key.low hn₂]
              -- the low child
              have hsame₁ := (sameVariable_congr W₁.literalVariables).trans hsame
              refine Ends.bind (collapseFrom_spec R W₁.sweep W₁.marks hsame₁ (hb.tail hlow)
                (W₁.sweep.heap.sound_of_key hf hkm₁).2 hL (by omega)) ?_
              rintro ⟨_, p₂⟩ m₂ ⟨done₂, W₂⟩
              obtain rfl := W₂.result
              obtain ⟨hh₂, hkm₂⟩ := W₂.fresh hh₁ hb hD hlow
              rw [hk] at hkm₂
              refine nodeAt_spec hkm₂ fun n₃ hn₃ => ?_
              rw [show n₃.low = k.low from congrArg Node.Key.low hn₃]
              simp only [bne_self_eq_false, Bool.false_eq_true, if_false]
              have hsame₂ := (sameVariable_congr W₂.literalVariables).trans hsame₁
              refine Ends.mono (W₂.sweep.last_spec R W₂.marks hsame₂ hh₂ hf hb hk hH hL
                (W₁.finished.mono W₂.subset) W₂.finished (by omega)) ?_
              rintro r m₃ ⟨hr, S₃, hp₃, hvars⟩
              refine ⟨insert h done₂, hr, S₃, hp₃, Or.inr (Set.mem_insert _ _), ?_, ?_,
                hvars.trans (W₂.literalVariables.trans W₁.literalVariables)⟩
              · exact (W₁.subset.trans W₂.subset).trans (Set.subset_insert h done₂)
              · intro g hg
                rcases Set.mem_insert_iff.1 hg with rfl | hg
                · exact Or.inr .refl
                rcases W₂.below g hg with hg | hg
                · exact (W₁.below g hg).imp_right fun hg => .head hhigh hg
                · exact Or.inr (.head hlow hg)

/-! ## The whole diagram -/

/-- Nothing is done yet. -/
theorem sweep_empty (H : Heap frozen ext m) (hvalid : table.Valid)
    (hempty : ∀ k, table.get? k = none) : Sweep frozen ext m.key? same root ∅ m table ∅ := by
  refine ⟨H, hvalid, fun hc => ?_, fun hg => hg.elim, fun _ _ _ _ => rfl, fun hg => hg.elim,
    fun hg => hg.elim⟩
  rw [hempty] at hc
  cases hc

/-- What is below a finished node is finished and there. -/
theorem Sweep.finished_of_below (S : Sweep frozen ext f same root busy m table done)
    (hc : Finished done c ∧ Sound frozen m c) (hb : Below m.key? c g) :
    Finished done g ∧ Sound frozen m g := by
  induction hb with
  | refl => exact hc
  | tail _ he ih =>
      obtain ⟨ht, k, hk, hkh⟩ := he
      obtain ⟨hs, hf⟩ := ih
      obtain ⟨hhigh, hlow⟩ := S.closed (hs.resolve_left (by simp [ht])) hk
      obtain ⟨hhighs, hlows⟩ := S.heap.sound_of_key (hf.resolve_left (by simp [ht])).1 hk
      rcases hkh with rfl | rfl
      · exact ⟨hhigh, hhighs⟩
      · exact ⟨hlow, hlows⟩

/-- Collapsing in place keeps the root and leaves a shared diagram with the collapsed tree. -/
theorem collapse_spec (V : m.Valid) (H : Heap frozen ext m) (hs : Sound frozen m root)
    (hheld : root.isTerminal = true ∨ 0 < ext root) (R : Rigid m.key? m.sameVariable root T) :
    Ends (collapse root) m fun c m' => c = root ∧ Heap frozen ext m' ∧
      Denotes m'.key? root (T.collapse m.sameVariable) ∧ Shared m'.key? root ∧
      m'.literalVariables = m.literalVariables := by
  unfold collapse depthBound
  refine Ends.step (a := m.arena.size + 1) rfl (Ends.bind V.newTable ?_)
  rintro table _ ⟨rfl, hT⟩
  have hempty : ∀ k, table.get? k = none := by
    intro k
    cases hc : table.get? k with
    | none => rfl
    | some c =>
        obtain ⟨hk, hnone, -⟩ := hT.entry hc
        rw [key?_eq_none_iff.2 hnone] at hk
        cases hk
  refine Ends.bind (Sweep.collapseFrom_spec R (p := ⟨table, ∅⟩)
    (sweep_empty H hT.valid hempty) (fun g r => by simp) rfl .refl hs R.denotes
    (Nat.le_succ_of_le R.denotes.depth_le_size)) ?_
  rintro ⟨c, p⟩ m' ⟨done, W⟩
  obtain rfl : root = c := W.result.symm
  simp only [bne_self_eq_false, Bool.false_eq_true, if_false]
  have hs' : Sound frozen m' root := by
    rcases hheld with ht | he
    · exact Or.inl ht
    · exact W.sweep.heap.sound_of_held (hs.imp_right And.left) he
  refine Ends.pure ⟨rfl, W.sweep.heap, W.sweep.denotes_finished W.finished hs' R.denotes, ?_,
    W.literalVariables⟩
  intro g h D hg hh hD hE
  exact W.sweep.eq_of_denotes R (W.sweep.finished_of_below ⟨W.finished, hs'⟩ hg).1
    (W.sweep.finished_of_below ⟨W.finished, hs'⟩ hh).1 hD hE

end BayesCircuit.Decision
