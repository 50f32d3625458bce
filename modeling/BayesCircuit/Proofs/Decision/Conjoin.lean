import BayesCircuit.Proofs.Decision.Build
import BayesCircuit.Proofs.Decision.Product
import BayesCircuit.Proofs.Decision.Copy

/-!
# Conjunction

The engine of a conjunction follows `jointOutline` (`productFollows`), so that a conjunction builds
the planned tree, up to low children that are left out (`conjoin_spec`).

What the engine remembers is the tree of a pair of handles, in either order and at whatever level
of the ordering the pair is met again (`Recorded`).
-/

namespace BayesCircuit.Decision

open Collection Action Product

variable {m m' : Manager} {frozen : Handle → Option Node} {same : Int → Int → Bool}
variable {collapse : Bool} {pend : Set Handle} {p : Product} {a : Both Stand}
variable {l : Literal} {ls rest ordering : List Literal} {h c : Handle} {D T : Diagram}
variable {vars : Array Variable} {plain : Prop}

/-- No low child of the diagrams at which a side can stand can be left out. -/
abbrev Stand.Tight (same : Int → Int → Bool) (s : Stand) : Prop :=
  s.Has (fun _ => True) (Diagram.Tight same)

theorem inherited_tight : Inherited (fun _ => True) (Diagram.Tight same) :=
  fun h => ⟨trivial, h.1, h.2.1⟩

/-- The engine has reached a pair of stands in front of the rest of an ordering. -/
structure Reached (frozen : Handle → Option Node) (same : Int → Int → Bool) (collapse : Bool)
    (plain : Prop) (ordering ls : List Literal) (p : Product) (a : Both Stand) : Prop where
  collapsed : p.collapsed = collapse
  suffix : ls <:+ ordering
  left : Tracks frozen same ls .left p.steps a.left
  right : Tracks frozen same ls .right p.steps a.right
  placed_left : Placed same ls a.left
  placed_right : Placed same ls a.right
  tight : plain → a.left.Tight same ∧ a.right.Tight same

/-- What a recorded product means. -/
structure Recorded (frozen : Handle → Option Node) (same : Int → Int → Bool) (plain : Prop)
    (ordering : List Literal) (pend : Set Handle) (m : Manager) (k : Handle × Handle) (c : Handle) :
    Prop where
  ready : Ready frozen pend c
  tree : ∃ D, Denotes m.key? c D ∧ ∀ {A B ls T}, Denotes (frozenKey frozen) k.1 A →
    Denotes (frozenKey frozen) k.2 B → ls <:+ ordering → Placed same ls ⟨A, none⟩ →
    Placed same ls ⟨B, none⟩ → Planned same ls ⟨A, none⟩ ⟨B, none⟩ T → Shrinks same plain T D

/-- The products of a manager are those of frozen diagrams. -/
def Remembers (frozen : Handle → Option Node) (same : Int → Int → Bool) (plain : Prop)
    (ordering : List Literal) (pend : Set Handle) (m : Manager) : Prop :=
  ∀ k c, m.products.entries[k]? = some c → Recorded frozen same plain ordering pend m k c

theorem Reached.top (hR : Reached frozen same collapse plain ordering ls p a) :
    ∃ top steps, p.steps = top :: steps ∧
      Denotes (frozenKey frozen) top.nodes.left a.left.node ∧
      Denotes (frozenKey frozen) top.nodes.right a.right.node := by
  obtain ⟨top, htop, hD⟩ := hR.left.node
  obtain ⟨top', htop', hD'⟩ := hR.right.node
  obtain rfl : top = top' := Option.some.inj (htop.symm.trans htop')
  obtain ⟨steps, hsteps⟩ := List.head?_eq_some_iff.1 htop
  exact ⟨top, steps, hsteps, hD, hD'⟩

theorem top_eq_ok {top : Step} {steps : List Step} (h : p.steps = top :: steps) :
    p.top = .ok top := by
  rw [Product.top, h]
  rfl

/-! ## Conditioning on a literal that holds -/

theorem run_lookup (b : Both Handle) : ∃ m', (lookup b).run m = .ok m.products.entries[key b]? m' ∧
    Unmoved m m' := by
  unfold lookup
  rw [run_modifyGet]
  dsimp only [Memo.find]
  cases m.products.entries[key b]? <;> exact ⟨_, rfl, rfl, rfl, rfl, rfl⟩

/-- Both sides in front of a literal that holds. -/
structure Moves (frozen : Handle → Option Node) (m : Manager) (p : Product) (l : Literal)
    (a : Both Stand) (top : Step) (left right : Option (Handle × Weights)) : Prop where
  last : p.top = .ok top
  advance_left : p.advance m l .left top.nodes.left = .ok left
  advance_right : p.advance m l .right top.nodes.right = .ok right
  left_fires : Fires frozen top.nodes.left left (a.left.fire l)
  right_fires : Fires frozen top.nodes.right right (a.right.fire l)

theorem Reached.moves (hR : Reached frozen same collapse plain ordering (l :: ls) p a)
    (Hm : Heap frozen 0 m) (hsame : sameIf collapse m.sameVariable = same) :
    ∃ top steps left right, p.steps = top :: steps ∧ Moves frozen m p l a top left right := by
  obtain ⟨top, steps, hsteps, _, _⟩ := hR.top
  have hhead : p.steps.head? = some top := by rw [hsteps]; rfl
  obtain ⟨left, hl, hfl⟩ := hR.left.advance_spec Hm hsame hR.placed_left hR.collapsed hhead
  obtain ⟨right, hr, hfr⟩ := hR.right.advance_spec Hm hsame hR.placed_right hR.collapsed hhead
  exact ⟨top, steps, left, right, hsteps, top_eq_ok hsteps, hl, hr, hfl, hfr⟩

/-- A literal that matters to no side. -/
theorem conditionHigh_redundant (hR : Reached frozen same collapse plain ordering (l :: ls) p a)
    (Hm : Heap frozen 0 m) (hsame : sameIf collapse m.sameVariable = same)
    (hfire : a.left.fire l = none ∧ a.right.fire l = none) :
    (p.conditionHigh l).run m = .ok (.redundant, [], p) m := by
  obtain ⟨top, steps, left, right, hsteps, hM⟩ := hR.moves Hm hsame
  obtain rfl := hM.left_fires.isNone.2 hfire.1
  obtain rfl := hM.right_fires.isNone.2 hfire.2
  suffices h : Ends (p.conditionHigh l) m fun r m' => r = (.redundant, [], p) ∧ m' = m by
    obtain ⟨_, _, hrun, rfl, rfl⟩ := h
    exact hrun
  unfold conditionHigh
  refine Ends.get (Ends.lift hM.last (Ends.lift hM.advance_left (Ends.lift hM.advance_right ?_)))
  exact Ends.pure ⟨rfl, rfl⟩

/-- The answer to a literal that holds and leads both sides to the handles `b`. -/
structure HighAnswer (m : Manager) (p : Product) (b : Both Handle) (A B : Diagram)
    (weights : Weights) (r : Cofactor × Weights × Product) (m' : Manager) : Prop where
  unmoved : Unmoved m m'
  weights : r.2.1 = weights
  steps : r.2.2.steps = ⟨b, ⟨false, false⟩⟩ :: p.steps
  collapsed : r.2.2.collapsed = p.collapsed
  found : r.1 = highFound A B ∨ r.1 = .cached ∧ highFound A B ≠ .unsatisfiable ∧
    m.products.entries[key b]? = some r.2.2.found

/-- Look up a pair of which nothing is known yet. -/
theorem lookup_spec {b : Both Handle} {A B : Diagram} {weights : Weights} {found : Cofactor}
    (hfound : highFound A B = found) (hne : found ≠ .unsatisfiable) (q : Product)
    (hq : q.steps = ⟨b, ⟨false, false⟩⟩ :: p.steps) (hc : q.collapsed = p.collapsed) :
    Ends (do
      match ← lookup b with
      | some c => return (.cached, weights, { q with found := c })
      | none => return (found, weights, q)) m (HighAnswer m p b A B weights) := by
  obtain ⟨m', hrun, hu⟩ := run_lookup (m := m) b
  refine Ends.step hrun ?_
  cases he : m.products.entries[key b]? with
  | some c => exact Ends.pure ⟨hu, rfl, hq, hc, Or.inr ⟨rfl, hfound ▸ hne, he⟩⟩
  | none => exact Ends.pure ⟨hu, rfl, hq, hc, Or.inl hfound.symm⟩

/-- A literal that matters to a side. -/
theorem conditionHigh_spec {top : Step} {left right : Option (Handle × Weights)}
    (hR : Reached frozen same collapse plain ordering (l :: ls) p a)
    (hM : Moves frozen m p l a top left right)
    (hfire : ¬ (a.left.fire l = none ∧ a.right.fire l = none)) :
    Ends (p.conditionHigh l) m (HighAnswer m p
      ⟨left.elim top.nodes.left (·.1), right.elim top.nodes.right (·.1)⟩
      (firedNode (a.left.fire l) a.left) (firedNode (a.right.fire l) a.right)
      (firedWeights (a.left.fire l) (a.right.fire l))) := by
  have hne : (left.isNone && right.isNone) = false := by
    rw [Bool.eq_false_iff]
    simp only [ne_eq, Bool.and_eq_true, Option.isNone_iff_eq_none]
    rw [hM.left_fires.isNone, hM.right_fires.isNone]
    exact hfire
  obtain ⟨top', _, hsteps, hDl, hDr⟩ := hR.top
  obtain rfl : top = top' := Except.ok.inj (hM.last.symm.trans (top_eq_ok hsteps))
  have hA := hM.left_fires.denotes hDl
  have hB := hM.right_fires.denotes hDr
  have hweights : Weights.union (left.elim [] (·.2)) (right.elim [] (·.2)) =
      firedWeights (a.left.fire l) (a.right.fire l) := by
    rw [hM.left_fires.weights, hM.right_fires.weights]
    rfl
  unfold conditionHigh
  refine Ends.get (Ends.lift hM.last (Ends.lift hM.advance_left (Ends.lift hM.advance_right ?_)))
  rw [hne, hweights]
  simp only [Bool.false_eq_true, if_false]
  generalize left.elim top.nodes.left (·.1) = x at *
  generalize right.elim top.nodes.right (·.1) = y at *
  generalize firedNode (a.left.fire l) a.left = A at *
  generalize firedNode (a.right.fire l) a.right = B at *
  simp only [beq_iff_eq, Bool.or_eq_true, Bool.and_eq_true, hA.eq_false_iff, hB.eq_false_iff,
    hA.eq_true_iff, hB.eq_true_iff]
  split
  · rename_i hf
    exact Ends.pure ⟨⟨rfl, rfl, rfl, rfl⟩, rfl, rfl, rfl, Or.inl (if_pos hf).symm⟩
  · rename_i hf
    split
    · rename_i ht
      exact Ends.pure ⟨⟨rfl, rfl, rfl, rfl⟩, rfl, rfl, rfl,
        Or.inl ((if_neg hf).trans (if_pos ht)).symm⟩
    · rename_i ht
      split
      · rename_i htriv
        exact lookup_spec ((if_neg hf).trans ((if_neg ht).trans (if_pos htriv))) (by decide)
          ⟨_ :: p.steps, p.collapsed, p.found⟩ rfl rfl
      · rename_i htriv
        exact lookup_spec ((if_neg hf).trans ((if_neg ht).trans (if_neg htriv))) (by decide)
          ⟨_ :: p.steps, p.collapsed, p.found⟩ rfl rfl

/-! ## Conditioning on a literal that does not hold -/

/-- Whether a side can jump is what its stand keeps for the next literal. -/
theorem Tracks.canJump_spec {side : Side} {s : Stand} (Hm : Heap frozen 0 m)
    (hsame : sameIf collapse m.sameVariable = same) (h : Tracks frozen same rest side p.steps s)
    (hc : p.collapsed = collapse) :
    ∃ b, p.canJump m rest.head? side = .ok b ∧
      (s.node ≠ .leaf true → b = (s.settle same rest.head?).left.isSome) := by
  unfold canJump
  rw [hc]
  cases collapse with
  | false =>
      refine ⟨false, rfl, fun _ => ?_⟩
      have hnone : same = fun _ _ => false := by
        rw [← hsame]
        rfl
      subst hnone
      cases hl : s.left with
      | none => simp [Stand.settle, hl]
      | some q => cases rest.head? <;> simp [Stand.settle, hl]
  | true =>
      rw [sameIf_true] at hsame
      subst hsame
      cases rest with
      | nil =>
          refine ⟨false, rfl, fun _ => ?_⟩
          cases hl : s.left <;> simp [Stand.settle, hl]
      | cons next rest =>
          obtain ⟨r, hr⟩ := h.jumpFrom_ok Hm next
          refine ⟨r.isSome, ?_, fun ht => ?_⟩
          · simp [hr, bind, Except.bind, pure, Except.pure]
          · cases hl : s.left with
            | none =>
                rw [h.jumpFrom_of_none Hm ht hl (List.mem_cons_self ..)] at hr
                cases hr
                simp [Stand.settle, hl]
            | some q =>
                obtain ⟨n, ws, H⟩ := q
                obtain ⟨g, _, _, hjump⟩ := h.jumpFrom_of_some (l := next) Hm ht hl
                rw [hjump] at hr
                obtain rfl := Except.ok.inj hr
                cases hv : m.sameVariable n next.value <;> simp [Stand.settle, hl, hv]

/-- What is found about two handles is what is found about their stands. -/
theorem found_eq_lowFound {f : Handle → Option Node.Key} {x y : Handle} {jumpA jumpB : Bool}
    {s t : Stand} (hA : Denotes f x s.node) (hB : Denotes f y t.node)
    (hjA : s.node ≠ .leaf true → jumpA = s.left.isSome)
    (hjB : t.node ≠ .leaf true → jumpB = t.left.isSome) :
    (if x == Handle.false' && !jumpA || y == Handle.false' && !jumpB then Cofactor.unsatisfiable
    else if x == Handle.true' && y == Handle.true' then .satisfiable
    else if x == Handle.true' && !jumpB || y == Handle.true' && !jumpA then .trivial
    else .unsatisfied) = lowFound s t := by
  have hstuck : ∀ {r : Stand} {jump : Bool}, (r.node ≠ .leaf true → jump = r.left.isSome) →
      r.node ≠ .leaf true → (jump = false ↔ r.left = none) := by
    intro r jump hj ht
    rw [hj ht, Option.isSome_eq_false_iff, Option.isNone_iff_eq_none]
  have hfalse : ∀ {r : Stand} {jump : Bool}, (r.node ≠ .leaf true → jump = r.left.isSome) →
      (r.node = .leaf false ∧ jump = false ↔ r.node = .leaf false ∧ r.left = none) := by
    intro r jump hj
    exact and_congr_right fun hr => hstuck hj (by simp [hr])
  simp only [beq_iff_eq, Bool.or_eq_true, Bool.and_eq_true, Bool.not_eq_true', hA.eq_false_iff,
    hB.eq_false_iff, hA.eq_true_iff, hB.eq_true_iff, hfalse hjA, hfalse hjB, lowFound]
  split
  · rfl
  split
  · rfl
  · rename_i hne
    have h₁ : s.node = .leaf true ∧ jumpB = false ↔ s.node = .leaf true ∧ t.left = none :=
      and_congr_right fun hs => hstuck hjB fun ht => hne ⟨hs, ht⟩
    have h₂ : t.node = .leaf true ∧ jumpA = false ↔ t.node = .leaf true ∧ s.left = none :=
      and_congr_right fun ht => hstuck hjA fun hs => hne ⟨hs, ht⟩
    simp only [h₁, h₂]

/-- The answer to a literal that does not hold. -/
structure LowAnswer (frozen : Handle → Option Node) (same : Int → Int → Bool)
    (rest : List Literal) (p : Product) (s t : Stand) (r : Cofactor × Product) : Prop where
  found : r.1 = lowFound s t
  steps : r.2.steps.tail = p.steps
  collapsed : r.2.collapsed = p.collapsed
  left : Tracks frozen same rest .left r.2.steps s
  right : Tracks frozen same rest .right r.2.steps t

theorem conditionLow_spec (hR : Reached frozen same collapse plain ordering (l :: rest) p a)
    (Hm : Heap frozen 0 m) (hsame : sameIf collapse m.sameVariable = same) :
    ∃ r, p.conditionLow m l rest.head? = .ok r ∧
      LowAnswer frozen same rest p ((a.left.descend l).settle same rest.head?)
        ((a.right.descend l).settle same rest.head?) r := by
  obtain ⟨top, steps, hsteps, hDl, hDr⟩ := hR.top
  obtain ⟨x, lowA, hx, hA, hcaseA⟩ := descend_spec (l := l) Hm hDl
  obtain ⟨y, lowB, hy, hB, hcaseB⟩ := descend_spec (l := l) Hm hDr
  obtain ⟨steps', collapsed, found⟩ := p
  obtain rfl : steps' = top :: steps := hsteps
  have hleft : Tracks frozen same rest .left (⟨⟨x, y⟩, ⟨lowA, lowB⟩⟩ :: top :: steps)
      (a.left.descend l) := Tracks.descend hR.left hA hcaseA rfl rfl
  have hright : Tracks frozen same rest .right (⟨⟨x, y⟩, ⟨lowA, lowB⟩⟩ :: top :: steps)
      (a.right.descend l) := Tracks.descend hR.right hB hcaseB rfl rfl
  obtain ⟨jumpA, hjA, hsA⟩ := Tracks.canJump_spec
    (p := ⟨⟨⟨x, y⟩, ⟨lowA, lowB⟩⟩ :: top :: steps, collapsed, found⟩) Hm hsame hleft hR.collapsed
  obtain ⟨jumpB, hjB, hsB⟩ := Tracks.canJump_spec
    (p := ⟨⟨⟨x, y⟩, ⟨lowA, lowB⟩⟩ :: top :: steps, collapsed, found⟩) Hm hsame hright hR.collapsed
  refine ⟨(lowFound ((a.left.descend l).settle same rest.head?)
    ((a.right.descend l).settle same rest.head?),
    ⟨⟨⟨x, y⟩, ⟨lowA, lowB⟩⟩ :: top :: steps, collapsed, found⟩), ?_,
    rfl, rfl, rfl, hleft.settle hR.placed_left, hright.settle hR.placed_right⟩
  unfold conditionLow
  rw [top_eq_ok rfl]
  simp only [bind, Except.bind, hx, hy, hjA, hjB, pure, Except.pure]
  rw [← found_eq_lowFound (s := (a.left.descend l).settle same rest.head?)
    (t := (a.right.descend l).settle same rest.head?) hA hB hsA hsB]

/-! ## What is remembered -/

theorem Denotes.ascends (hw : WellFormed frozen) (hD : Denotes (frozenKey frozen) h D) :
    D.Ascends := by
  induction hD with
  | false' => trivial
  | true' => trivial
  | node ht hk _ _ ihH ihL =>
      obtain ⟨n, hn, rfl⟩ := Option.map_eq_some_iff.1 hk
      exact ⟨(hw hn ht).2, ihH, ihL⟩

/-- A recorded product is that of the pair in either order. -/
theorem Recorded.apply {b : Both Handle} {A B : Diagram} (hw : WellFormed frozen)
    (hr : Recorded frozen same plain ordering pend m (key b) c)
    (hA : Denotes (frozenKey frozen) b.left A) (hB : Denotes (frozenKey frozen) b.right B)
    (hls : ls <:+ ordering)
    (hPA : Placed same ls ⟨A, none⟩) (hPB : Placed same ls ⟨B, none⟩)
    (hT : Planned same ls ⟨A, none⟩ ⟨B, none⟩ T) :
    ∃ D, Denotes m.key? c D ∧ Shrinks same plain T D := by
  obtain ⟨D, hD, hred⟩ := hr.tree
  refine ⟨D, hD, ?_⟩
  rcases Nat.le_total b.left b.right with hle | hle
  · refine hred ?_ ?_ hls hPA hPB hT
    · rwa [show (key b).1 = b.left from Nat.min_eq_left hle]
    · rwa [show (key b).2 = b.right from Nat.max_eq_right hle]
  · have hasc : ∀ {h D}, Denotes (frozenKey frozen) h D → Stand.Ascends ⟨D, none⟩ :=
      fun hD => ⟨hD.ascends hw, fun hn => by cases hn⟩
    refine hred ?_ ?_ hls hPB hPA (hT.swap (hasc hA) (hasc hB))
    · rwa [show (key b).1 = b.right from Nat.min_eq_right hle]
    · rwa [show (key b).2 = b.left from Nat.max_eq_left hle]

/-- What is planned for a pair may be recorded. -/
theorem Recorded.of_planned {b : Both Handle} {A B : Diagram} (hw : WellFormed frozen)
    (hn : (ordering.map (·.value)).Nodup) (hA : Denotes (frozenKey frozen) b.left A)
    (hB : Denotes (frozenKey frozen) b.right B) (hls : ls <:+ ordering)
    (hPA : Placed same ls ⟨A, none⟩) (hPB : Placed same ls ⟨B, none⟩)
    (hT : Planned same ls ⟨A, none⟩ ⟨B, none⟩ T) (hc : Denotes m.key? c D)
    (hred : Shrinks same plain T D) (hready : Ready frozen pend c) :
    Recorded frozen same plain ordering pend m (key b) c := by
  refine ⟨hready, D, hc, ?_⟩
  intro A' B' ls' T' hA' hB' hls' hPA' hPB' hT'
  rcases Nat.le_total b.left b.right with hle | hle
  · rw [show (key b).1 = b.left from Nat.min_eq_left hle] at hA'
    rw [show (key b).2 = b.right from Nat.max_eq_right hle] at hB'
    obtain rfl := hA.unique hA'
    obtain rfl := hB.unique hB'
    obtain rfl := Planned.suffix hn hls hls' hPA hPB hPA' hPB' hT hT'
    exact hred
  · rw [show (key b).1 = b.right from Nat.min_eq_right hle] at hA'
    rw [show (key b).2 = b.left from Nat.max_eq_left hle] at hB'
    obtain rfl := hB.unique hA'
    obtain rfl := hA.unique hB'
    have hasc : ∀ {h D}, Denotes (frozenKey frozen) h D → Stand.Ascends ⟨D, none⟩ :=
      fun hD => ⟨hD.ascends hw, fun hn => by cases hn⟩
    obtain rfl := Planned.suffix hn hls hls' hPA hPB hPB' hPA' hT (hT'.swap (hasc hB) (hasc hA))
    exact hred

theorem Recorded.mono {pend' : Set Handle} {k : Handle × Handle}
    (hr : Recorded frozen same plain ordering pend m k c)
    (hm : ∀ D, (c.isTerminal = true ∨ frozen c = none) → c ∉ pend → Denotes m.key? c D →
      Denotes m'.key? c D)
    (hp : ∀ h ∈ pend', h ∈ pend ∨ m.key? h = none ∧ h.isTerminal = false) :
    Recorded frozen same plain ordering pend' m' k c := by
  obtain ⟨D, hD, hred⟩ := hr.tree
  refine ⟨⟨hr.ready.young, fun hc => ?_⟩, D, hm D hr.ready.young hr.ready.finished hD, hred⟩
  rcases hp c hc with hc | ⟨hk, ht⟩
  · exact hr.ready.finished hc
  · obtain ⟨k', _, _, hk', _⟩ := hD.cases_node ht
    rw [hk] at hk'
    cases hk'

/-! ## The engine follows the plan -/

/-- A side that reacts to a literal has the literal or its variable in a node. -/
theorem Tracks.fires {side : Side} {steps : List Step} {s : Stand} {ws : Weights} {H : Diagram}
    (hw : WellFormed frozen) (hpos : ∀ {a b}, same a b = true → 0 < b)
    (h : Tracks frozen same (l :: rest) side steps s) (hP : Placed same (l :: rest) s)
    (hf : s.fire l = some (ws, H)) : 0 < l.value ∧ Weights.ascends ws = true := by
  have hnode : ∀ {g n ws H E}, Denotes (frozenKey frozen) g (.branch n ws H E) →
      0 < n ∧ Weights.ascends ws = true := by
    intro g n ws H E hD
    obtain ⟨a, ha, rfl, rfl, _, _⟩ := frozen_of_denotes hD
    exact hw ha hD.cases_branch.1
  rcases fire_cases s l with ⟨ws', H', L, hs, hf', _⟩ | ⟨_, _, hf'⟩
  · obtain ⟨top, _, hD⟩ := h.node
    rw [hs] at hD
    rw [hf'] at hf
    cases hf
    exact hnode hD
  · rw [hf'] at hf
    split at hf
    · cases hf
    · rename_i ht
      obtain ⟨⟨n, ws', H'⟩, hl, he⟩ := Option.map_eq_some_iff.1 hf
      cases he
      obtain ⟨g, E, _, hD⟩ := h.left ht hl
      exact ⟨hpos (hP.head_same ht hl), (hnode hD).2⟩

theorem high_redundant_iff : ((jointOutline same).high a l rest.head?).1 = .redundant ↔
    a.left.fire l = none ∧ a.right.fire l = none := by
  constructor
  · intro h
    by_contra hfire
    rw [show a = ⟨a.left, a.right⟩ from rfl, joint_high hfire] at h
    exact highFound_ne_redundant h
  · intro h
    simp [jointOutline, h]

theorem Reached.alike {q : Product} (hR : Reached frozen same collapse plain ordering ls p a)
    (hq : q.steps = p.steps ∧ q.collapsed = p.collapsed) :
    Reached frozen same collapse plain ordering ls q a := by
  obtain ⟨hsteps, hc⟩ := hq
  exact ⟨hc.trans hR.collapsed, hR.suffix, hsteps ▸ hR.left, hsteps ▸ hR.right, hR.placed_left,
    hR.placed_right, hR.tight⟩

theorem Reached.skip (hR : Reached frozen same collapse plain ordering (l :: rest) p a)
    (hfire : a.left.fire l = none ∧ a.right.fire l = none) :
    Reached frozen same collapse plain ordering rest p a :=
  ⟨hR.collapsed, (List.suffix_cons ..).trans hR.suffix,
    hR.left.subset (List.subset_cons_self ..), hR.right.subset (List.subset_cons_self ..),
    hR.placed_left.skip hfire.1, hR.placed_right.skip hfire.2, hR.tight⟩

/-- After a literal that holds, the engine has reached what is to be built, unless that is
`false'`. -/
theorem Reached.high {top : Step} {left right : Option (Handle × Weights)} {q : Product}
    (hR : Reached frozen same collapse plain ordering (l :: rest) p a)
    (hM : Moves frozen m p l a top left right)
    (hq : q.steps = ⟨⟨left.elim top.nodes.left (·.1), right.elim top.nodes.right (·.1)⟩,
      ⟨false, false⟩⟩ :: p.steps) (hc : q.collapsed = p.collapsed)
    (hA : firedNode (a.left.fire l) a.left ≠ .leaf false)
    (hB : firedNode (a.right.fire l) a.right ≠ .leaf false) :
    Reached frozen same collapse plain ordering rest q
      (start (firedNode (a.left.fire l) a.left) (firedNode (a.right.fire l) a.right)) := by
  obtain ⟨top', steps, hsteps, _, _⟩ := hR.top
  obtain rfl : top = top' := Except.ok.inj (hM.last.symm.trans (top_eq_ok hsteps))
  have hl := hR.left
  have hr := hR.right
  rw [hsteps] at hl hr
  refine ⟨hc.trans hR.collapsed, (List.suffix_cons ..).trans hR.suffix, ?_, ?_,
    hR.placed_left.high, hR.placed_right.high, fun hp => ?_⟩
  · rw [hq, hsteps]
    exact hl.fire hM.left_fires rfl rfl hA
  · rw [hq, hsteps]
    exact hr.fire hM.right_fires rfl rfl hB
  · exact ⟨(hR.tight hp).1.fired inherited_tight, (hR.tight hp).2.fired inherited_tight⟩

theorem ne_false_of_found {A B : Diagram} (h : highFound A B ≠ .unsatisfiable) :
    A ≠ .leaf false ∧ B ≠ .leaf false := by
  rw [← not_or]
  exact fun hf => h (if_pos hf)

/-- The trivial cofactor is the diagram of the side that has not come to its end. -/
theorem Reached.trivial {b : Both Stand} (hR : Reached frozen same collapse plain ordering ls p b) :
    ∃ h, Product.engine.trivial p = .ok h ∧
      Denotes (frozenKey frozen) h ((jointOutline same).other b) ∧
      (plain → ((jointOutline same).other b).collapse same = (jointOutline same).other b) := by
  obtain ⟨top, steps, hsteps, hA, hB⟩ := hR.top
  refine ⟨if top.nodes.left == Handle.true' then top.nodes.right else top.nodes.left, ?_, ?_,
    fun hp => ?_⟩
  · simp [Product.engine, Product.trivial, top_eq_ok hsteps, bind, Except.bind, pure, Except.pure]
  · simp only [beq_iff_eq, hA.eq_true_iff, jointOutline]
    split
    · exact hB
    · exact hA
  · simp only [jointOutline]
    split
    · exact (hR.tight hp).2.node.collapse_eq
    · exact (hR.tight hp).1.node.collapse_eq

/-- Two engines have reached the same nodes. -/
def SameSteps (p q : Product) : Prop := q.steps = p.steps ∧ q.collapsed = p.collapsed

theorem condition_high_spec (hw : WellFormed frozen)
    (hsame : sameIf collapse m.sameVariable = same)
    (hR : Reached frozen same collapse plain ordering (l :: rest) p a)
    (hfire : ¬ (a.left.fire l = none ∧ a.right.fire l = none)) (Hm : Heap frozen 0 m)
    (hK : Remembers frozen same plain ordering pend m) :
    Ends (p.conditionHigh l) m fun r m' => Unmoved m m' ∧
      r.2.1 = firedWeights (a.left.fire l) (a.right.fire l) ∧
      Answers Product.engine (jointOutline same) frozen pend same plain
        (Reached frozen same collapse plain ordering) SameSteps rest p
        (highFound (firedNode (a.left.fire l) a.left) (firedNode (a.right.fire l) a.right))
        (start (firedNode (a.left.fire l) a.left) (firedNode (a.right.fire l) a.right))
        r.1 r.2.2 m := by
  obtain ⟨top, steps, left, right, hsteps, hM⟩ := hR.moves Hm hsame
  refine Ends.mono (conditionHigh_spec hR hM hfire) ?_
  rintro ⟨found, ws, q⟩ m' A
  have hreach : highFound (firedNode (a.left.fire l) a.left)
      (firedNode (a.right.fire l) a.right) ≠ .unsatisfiable →
      Reached frozen same collapse plain ordering rest q
        (start (firedNode (a.left.fire l) a.left) (firedNode (a.right.fire l) a.right)) := by
    intro hne
    obtain ⟨hA, hB⟩ := ne_false_of_found hne
    exact hR.high hM A.steps A.collapsed hA hB
  refine ⟨A.unmoved, A.weights, ?_, ?_, highFound_ne_redundant, ?_, ?_⟩
  · exact fun he => hreach (by rcases he with he | he <;> rw [he] <;> decide)
  · rintro t ⟨ht, htc⟩
    refine ⟨?_, htc.trans A.collapsed⟩
    rw [show (Product.engine.undo t).steps = t.steps.tail from rfl, ht, A.steps]
    rfl
  · refine A.found.imp_right fun ⟨hc, hne, hentry⟩ => ⟨hc, hne, fun T hT => ?_⟩
    have hq := hreach hne
    obtain ⟨top', _, hsteps', hDA, hDB⟩ := hq.top
    obtain ⟨rfl, _⟩ := List.cons.inj (A.steps.symm.trans hsteps')
    have hrec := hK _ _ hentry
    rw [← lowFound_start] at hT
    obtain ⟨D, hD, hred⟩ := hrec.apply hw hDA hDB hq.suffix hq.placed_left hq.placed_right hT
    exact ⟨D, hD, hred, hrec.ready⟩
  · intro htriv
    refine (hreach ?_).trivial
    rcases A.found with he | ⟨hc, _⟩
    · rw [← he, htriv]
      decide
    · rw [hc] at htriv
      cases htriv

theorem condition_low_spec (hsame : sameIf collapse m.sameVariable = same)
    (hR : Reached frozen same collapse plain ordering (l :: rest) p a) (Hm : Heap frozen 0 m) :
    Ends (do
      let (found, q) ← Action.lift (p.conditionLow (← get) l rest.head?)
      return (found, ([] : Weights), q)) m fun r m' => Unmoved m m' ∧
      r.1 = ((jointOutline same).low a l rest.head?).1 ∧ r.1 ≠ .cached ∧
      Answers Product.engine (jointOutline same) frozen ∅ same plain
        (Reached frozen same collapse plain ordering) SameSteps rest p
        ((jointOutline same).low a l rest.head?).1 ((jointOutline same).low a l rest.head?).2
        r.1 r.2.2 m := by
  obtain ⟨⟨found, q⟩, hrun, A⟩ := conditionLow_spec hR Hm hsame
  have hq : Reached frozen same collapse plain ordering rest q
      ((jointOutline same).low a l rest.head?).2 :=
    ⟨A.collapsed.trans hR.collapsed, (List.suffix_cons ..).trans hR.suffix, A.left, A.right,
      hR.placed_left.low, hR.placed_right.low, fun hp =>
        ⟨((hR.tight hp).1.descend inherited_tight).settle,
          ((hR.tight hp).2.descend inherited_tight).settle⟩⟩
  refine Ends.get (Ends.lift hrun (Ends.pure ?_))
  have hne : lowFound ((a.left.descend l).settle same rest.head?)
      ((a.right.descend l).settle same rest.head?) ≠ .redundant ∧
      lowFound ((a.left.descend l).settle same rest.head?)
      ((a.right.descend l).settle same rest.head?) ≠ .cached := by
    unfold lowFound
    repeat' split
    all_goals decide
  refine ⟨⟨rfl, rfl, rfl, rfl⟩, A.found, A.found ▸ hne.2, fun _ => hq, ?_, hne.1, Or.inl A.found,
    fun _ => hq.trivial⟩
  rintro t ⟨ht, htc⟩
  refine ⟨?_, htc.trans A.collapsed⟩
  rw [show (Product.engine.undo t).steps = t.steps.tail from rfl, ht, A.steps]

theorem record_spec {q : Product} {A B : Diagram} (hw : WellFormed frozen)
    (hn : (ordering.map (·.value)).Nodup)
    (hR : Reached frozen same collapse plain ordering rest q (start A B))
    (hK : Remembers frozen same plain ordering pend m)
    (hT : Planned same rest ⟨A, none⟩ ⟨B, none⟩ T) (hc : Denotes m.key? c D)
    (hred : Shrinks same plain T D) (hready : Ready frozen pend c) :
    Ends (q.record c) m fun _ m' => m'.arena = m.arena ∧
      m'.literalVariables = m.literalVariables ∧ m'.tableBits = m.tableBits ∧
      Remembers frozen same plain ordering pend m' := by
  obtain ⟨top, steps, hsteps, hA, hB⟩ := hR.top
  unfold Product.record
  refine Ends.lift (top_eq_ok hsteps) ?_
  refine Ends.of_run (a := ()) rfl ⟨rfl, rfl, rfl, ?_⟩
  intro k c' hk
  simp only [Memo.insertIfNew] at hk
  rw [Std.HashMap.getElem?_insertIfNew] at hk
  split at hk
  · rename_i hk'
    rw [beq_iff_eq] at hk'
    obtain ⟨rfl, _⟩ := hk'
    cases hk
    have hrec := Recorded.of_planned hw hn hA hB hR.suffix hR.placed_left hR.placed_right hT hc hred
      hready
    exact hrec.mono (fun D _ _ hD => hD) fun _ hh => Or.inl hh
  · exact (hK k c' hk).mono (fun D _ _ hD => hD) fun _ hh => Or.inl hh

/-- The engine of a conjunction follows the plan for two diagrams. It copies parts of them. -/
def productFollows (plain : Prop) (hw : WellFormed frozen) (hn : (ordering.map (·.value)).Nodup)
    (hsame : ∀ {m : Manager}, m.literalVariables = vars → sameIf collapse m.sameVariable = same)
    (hpos : ∀ {a b}, same a b = true → 0 < b) :
    Product.engine.Follows (jointOutline same) frozen vars same where
  Holds := Reached frozen same collapse plain ordering
  Known := Remembers frozen same plain ordering
  Alike := SameSteps
  Plain := plain
  alike_refl _ := ⟨rfl, rfl⟩
  alike_trans h₁ h₂ := ⟨h₂.1.trans h₁.1, h₂.2.trans h₁.2⟩
  holds_alike h hR := hR.alike h
  known_mono hK hr hp := fun k c hk => (hK k c (hr k c hk).1).mono (hr k c hk).2 hp
  skip hR hred := hR.skip (high_redundant_iff.1 hred)
  positive {l rest p a} hR hne := by
    rw [ne_eq, high_redundant_iff] at hne
    rw [show a = ⟨a.left, a.right⟩ from rfl, joint_high hne]
    have hside : ∀ {side s}, Tracks frozen same (l :: rest) side p.steps s →
        Placed same (l :: rest) s → Weights.ascends ((s.fire l).elim [] (·.1)) = true ∧
          (s.fire l ≠ none → 0 < l.value) := by
      intro side s h hP
      cases hf : s.fire l with
      | none => exact ⟨rfl, fun h => absurd rfl h⟩
      | some q =>
          obtain ⟨ws, H⟩ := q
          obtain ⟨hl, hws⟩ := h.fires hw hpos hP hf
          exact ⟨hws, fun _ => hl⟩
    obtain ⟨hwl, hl⟩ := hside hR.left hR.placed_left
    obtain ⟨hwr, hr⟩ := hside hR.right hR.placed_right
    refine ⟨?_, ascends_union hwl hwr⟩
    simp only [Literal.isPositive, decide_eq_true_eq]
    by_cases hfl : a.left.fire l = none
    · exact hr fun hfr => hne ⟨hfl, hfr⟩
    · exact hl hfl
  high_redundant hR hred Hm _ hv :=
    Ends.of_run (conditionHigh_redundant hR Hm (hsame hv) (high_redundant_iff.1 hred))
      ⟨⟨rfl, rfl, rfl, rfl⟩, rfl, rfl, rfl⟩
  high {l rest p a pend m} hR hne Hm hK hv := by
    rw [ne_eq, high_redundant_iff] at hne
    rw [show a = ⟨a.left, a.right⟩ from rfl, joint_high hne]
    refine Ends.mono (condition_high_spec hw (hsame hv) hR hne Hm hK) ?_
    exact fun r m' h => ⟨h.1, h.2.1, h.2.2⟩
  low hR _ Hm hv := by
    refine Ends.mono (condition_low_spec (hsame hv) hR Hm) ?_
    exact fun r m' h => ⟨h.1, h.2.1, h.2.2.1, h.2.2.2⟩
  record {l rest p t a pend m c T D} hR hfound hrest hK hT hD hred hready := by
    have hne : ¬ (a.left.fire l = none ∧ a.right.fire l = none) := by
      intro hfire
      have he : ((jointOutline same).high a l rest.head?).1 = .redundant :=
        high_redundant_iff.2 hfire
      rw [he] at hfound
      rcases hfound with h | h <;> cases h
    rw [show a = ⟨a.left, a.right⟩ from rfl, joint_high hne] at hrest hT
    rw [← lowFound_start] at hT
    exact record_spec hw hn hrest hK hT hD hred hready

/-! ## The product of two diagrams -/

/-- What a diagram that was built leaves: a tree at a handle that the caller holds. -/
structure Rooted (m : Manager) (D : Diagram) (c : Handle) (m' : Manager) : Prop where
  heap : Heap m.arena.get? (Pi.single c 1) m'
  denotes : Denotes m'.key? c D
  young : c.isTerminal = true ∨ m.arena.get? c = none
  literalVariables : m'.literalVariables = m.literalVariables
  tableBits : m'.tableBits = m.tableBits
  attached : Attached m.arena.get? {c} m'.key?
  canonical : ∀ {g h k}, m.arena.get? g = none → m.arena.get? h = none → m'.key? g = some k →
    m'.key? h = some k → g = h

theorem Rooted.valid (hR : Rooted m D c m') (V : m.Valid) : m'.Valid :=
  hR.heap.valid_manager V hR.tableBits

/-- A terminal is a root. -/
theorem Manager.Valid.rooted_terminal {b : Bool} (V : m.Valid) (hc : c.isTerminal = true)
    (hD : Denotes m.key? c (.leaf b)) : Rooted m (.leaf b) c m where
  heap := by
    simpa using V.heap.hold_frozen (V.terminal c hc)
  denotes := hD
  young := Or.inl hc
  literalVariables := rfl
  tableBits := rfl
  attached g k hg hk := by
    rw [key?_eq_none_iff.2 hg] at hk
    cases hk
  canonical hg _ hk _ := by
    rw [key?_eq_none_iff.2 hg] at hk
    cases hk

/-- A finished diagram becomes a root. -/
theorem reference_rooted {table : Table} (T : Tidy m.arena.get? ∅ m' table)
    (hD : Denotes m'.key? c D) (hr : Ready m.arena.get? ∅ c)
    (hv : m'.literalVariables = m.literalVariables) (hb : m'.tableBits = m.tableBits)
    (hA : Attached m.arena.get? {c} m'.key?) :
    Ends (reference c) m' fun _ m'' => Rooted m D c m'' := by
  refine Ends.mono (reference_spec T.heap (sound_of_denotes hr.young hD)) ?_
  rintro _ m'' ⟨H, hk⟩
  rw [zero_add] at H
  refine ⟨H, hk.key ▸ hD, hr.young, hk.literalVariables.trans hv, hk.tableBits.trans hb,
    hk.key ▸ hA, fun hg hh hkg hkh => ?_⟩
  rw [hk.key] at hkg hkh
  exact T.eq_of_key hg hh (Set.notMem_empty _) (Set.notMem_empty _) hkg hkh

/-- The variables of literals are those of the map of the manager. -/
theorem sameVariable_congr (hv : m'.literalVariables = m.literalVariables) :
    m'.sameVariable = m.sameVariable := by
  funext a b
  simp only [Manager.sameVariable, Manager.variableOf?, hv]

theorem pos_of_sameVariable {a b : Int} (h : m.sameVariable a b = true) : 0 < b := by
  by_contra hb
  have : m.variableOf? b = none := by
    unfold Manager.variableOf?
    rw [if_pos (by omega)]
  simp [Manager.sameVariable, this] at h

/-- A side that has made no step is at its diagram. -/
theorem tracks_start {side : Side} {step : Step}
    (hD : Denotes (frozenKey frozen) (step.nodes.at' side) D) :
    Tracks frozen same ls side [step] ⟨D, none⟩ := by
  have hleft : leftNode side [step] = none := rfl
  refine ⟨⟨step, rfl, hD⟩, fun hg => ?_, fun _ _ _ _ hg => ?_, fun _ _ _ _ hn => ?_⟩
  · rw [hleft] at hg
    cases hg
  · rw [hleft] at hg
    cases hg
  · cases hn

/-- In front of an ordering, the engine is at the two diagrams. -/
theorem reached_start {a b : Handle} {A B : Diagram} {bs : List Block} (hL : Layout same bs)
    (hA : Denotes (frozenKey frozen) a A) (hB : Denotes (frozenKey frozen) b B)
    (hRA : Regular .atEnd bs A) (hRB : Regular .atEnd bs B)
    (htight : plain → A.Tight same ∧ B.Tight same) :
    Reached frozen same collapse plain (flatten bs) (flatten bs) (.start a b collapse)
      (start A B) where
  collapsed := rfl
  suffix := List.suffix_refl _
  left := tracks_start hA
  right := tracks_start hB
  placed_left := .between hL hRA
  placed_right := .between hL hRB
  tight hp := ⟨⟨(htight hp).1, nofun⟩, ⟨(htight hp).2, nofun⟩⟩

/-- The root of a copy. -/
theorem copy_rooted (V : m.Valid) (hD : Denotes m.key? h D) :
    Ends (do
      let (c, _) ← copy (← newTable) h
      reference c
      return c) m (Rooted m D) := by
  refine Ends.bind V.newTable ?_
  rintro table _ ⟨rfl, T⟩
  refine Ends.bind (copy_spec V.wellFormed T hD) ?_
  rintro ⟨c, table'⟩ m' C
  have hA := C.attached ∅ fun g k hg hk => by
    rw [key?_eq_none_iff.2 hg] at hk
    cases hk
  refine Ends.bind (reference_rooted C.tidy C.denotes C.ready C.grows.literalVariables
    C.grows.tableBits (by simpa using hA)) ?_
  rintro _ m'' hR
  exact Ends.pure hR

/-- Build a diagram, and give back the engine. -/
def buildKeeping {σ : Type} (E : Engine σ) (engine : σ) (ordering : List Literal)
    (collapse expired : Bool) : Action (Handle × σ) := do
  let (root, p) ← buildFrom E collapse expired ordering 0 ⟨← newTable, engine, 0⟩
  reference root
  return (root, p.engine)

theorem build_eq_keeping {σ : Type} {E : Engine σ} {engine : σ} {expired : Bool} :
    build E engine ordering collapse expired =
      Prod.fst <$> buildKeeping E engine ordering collapse expired := by
  simp only [build, buildKeeping, map_bind, map_pure]

/-- The root of a diagram that an engine builds, and the engine. -/
theorem buildKeeping_rooted {σ α : Type} {E : Engine σ} {O : Outline α} {engine : σ} {a : α}
    (V : m.Valid) (F : E.Follows O m.arena.get? m.literalVariables same)
    (hsame : ∀ {m' : Manager}, m'.literalVariables = m.literalVariables →
      sameIf collapse m'.sameVariable = same)
    (hs : F.Holds ordering engine a) (hT : O.plan ordering a = some T) (hK : F.Known ∅ m) :
    Ends (buildKeeping E engine ordering collapse false) m fun r m' => ∃ D,
      Shrinks same F.Plain T D ∧ Rooted m D r.1 m' ∧ F.Alike engine r.2 := by
  unfold buildKeeping
  refine Ends.bind V.newTable ?_
  rintro table _ ⟨rfl, Tt⟩
  refine Ends.bind (buildFrom_spec (p := ⟨table, engine, 0⟩) F V.wellFormed hsame ordering 0 hs hT
    Tt hK ?_ rfl) ?_
  · intro g k hg hk
    rw [key?_eq_none_iff.2 hg] at hk
    cases hk
  rintro ⟨c, p⟩ m' B
  obtain ⟨D, hD, hred⟩ := B.denotes
  refine Ends.bind (reference_rooted B.tidy hD B.ready B.grows.literalVariables B.grows.tableBits
    (by simpa using B.attached)) ?_
  rintro _ m'' hR
  exact Ends.pure ⟨D, hred, hR, B.alike⟩

/-- The root of a diagram that an engine builds. -/
theorem build_rooted {σ α : Type} {E : Engine σ} {O : Outline α} {engine : σ} {a : α}
    (V : m.Valid) (F : E.Follows O m.arena.get? m.literalVariables same)
    (hsame : ∀ {m' : Manager}, m'.literalVariables = m.literalVariables →
      sameIf collapse m'.sameVariable = same)
    (hs : F.Holds ordering engine a) (hT : O.plan ordering a = some T) (hK : F.Known ∅ m) :
    Ends (build E engine ordering collapse false) m fun c m' => ∃ D,
      Shrinks same F.Plain T D ∧ Rooted m D c m' := by
  rw [build_eq_keeping]
  refine Ends.bind (buildKeeping_rooted V F hsame hs hT hK) ?_
  rintro ⟨c, engine'⟩ m' ⟨D, hred, hR, -⟩
  exact Ends.pure ⟨D, hred, hR⟩

/-- A conjunction builds the planned tree, up to low children that are left out. Of collapsed
diagrams it builds the collapsed tree. -/
theorem conjoin_spec (collapse : Bool) {a b : Handle} {A B : Diagram} {bs : List Block}
    (V : m.Valid) (hL : Layout (sameIf collapse m.sameVariable) bs) (hA : Denotes m.key? a A)
    (hB : Denotes m.key? b B) (hRA : Regular .atEnd bs A) (hRB : Regular .atEnd bs B)
    (hT : Planned (sameIf collapse m.sameVariable) (flatten bs) ⟨A, none⟩ ⟨B, none⟩ T) :
    Ends (conjoin a b (flatten bs) collapse false) m fun c m' => ∃ D,
      Shrinks (sameIf collapse m.sameVariable) (A.Tight (sameIf collapse m.sameVariable) ∧
        B.Tight (sameIf collapse m.sameVariable)) T D ∧ Rooted m D c m' := by
  unfold conjoin
  simp only [beq_iff_eq, Bool.or_eq_true, hA.eq_false_iff, hB.eq_false_iff, hA.eq_true_iff,
    hB.eq_true_iff]
  unfold Planned at hT
  rw [lowFound_start] at hT
  unfold highFound at hT
  split
  · rename_i hf
    rw [if_pos hf] at hT
    obtain rfl := Option.some.inj hT
    exact Ends.pure ⟨_, .leaf, V.rooted_terminal rfl .false'⟩
  rename_i hf
  rw [if_neg hf] at hT
  split
  · rename_i ht
    have hT' : T = if A = .leaf true then B else A := by
      split at hT
      · rename_i htt
        rw [if_pos htt.1, htt.2]
        exact (Option.some.inj hT).symm
      · exact (Option.some.inj hT).symm
    have hD : Denotes m.key? (if A = .leaf true then b else a) T := by
      rw [hT']
      split
      · exact hB
      · exact hA
    refine Ends.mono (copy_rooted V hD) fun c m' hR => ⟨T, .of_collapsed fun hp => ?_, hR⟩
    rw [hT']
    split
    · exact hp.2.collapse_eq
    · exact hp.1.collapse_eq
  · rename_i ht
    rw [if_neg fun h => ht (Or.inl h.1), if_neg ht] at hT
    have hsame : ∀ {m' : Manager}, m'.literalVariables = m.literalVariables →
        sameIf collapse m'.sameVariable = sameIf collapse m.sameVariable := by
      intro m' hv
      rw [sameVariable_congr hv]
    have hpos : ∀ {x y}, sameIf collapse m.sameVariable x y = true → 0 < y := by
      intro x y hxy
      exact pos_of_sameVariable (Bool.and_eq_true_iff.1 hxy).2
    refine Ends.modify ?_
    refine Ends.mono (build_rooted (m := { m with products := m.products.clear })
      ⟨V.arena, V.terminal, V.wellFormed, V.room⟩
      (productFollows (A.Tight (sameIf collapse m.sameVariable) ∧
        B.Tight (sameIf collapse m.sameVariable)) V.wellFormed hL.nodup hsame hpos) hsame
      (reached_start hL hA hB hRA hRB id) hT ?_) ?_
    · intro k c hk
      simp [Memo.clear] at hk
    · rintro c m' ⟨D, hred, hR⟩
      exact ⟨D, hred, hR.heap, hR.denotes, hR.young, hR.literalVariables, hR.tableBits,
        hR.attached, hR.canonical⟩

end BayesCircuit.Decision
