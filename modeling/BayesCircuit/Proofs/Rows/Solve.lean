import BayesCircuit.Proofs.Decision.Forward
import BayesCircuit.Proofs.Rows.Cofactors

/-!
# Solving a table represents the table

The engine of a table is its own outline: its answers depend on its state only. Along an ordering
that lists all literals of the table, the planned tree exists, and for every assignment it has the
weight of the row that the assignment selects (`plan_value`). The engine is given back as it was
(`solve_represents`).
-/

namespace BayesCircuit.Decision

open Collection Decision.Action

namespace Rows

variable {r r' : Rows} {l : Literal} {ls rest : List Literal} {first dim : Variable → Nat}
variable {u v : Nat} {ρ σ : Variable → Nat} {x : Literal → Bool} {D H L : Diagram}

/-! ## What the rest of an ordering offers -/

/-- A literal belongs to a variable of the table. -/
def owns (r : Rows) (l : Literal) : Bool := (r.position? l).isSome

/-- An ordering has all literals that are still needed, and no literal of the table twice. -/
structure Ahead (r : Rows) (first dim : Variable → Nat) (ls : List Literal) : Prop where
  positive : ∀ l ∈ ls, r.owns l = true → l.isNegative = false
  fresh : ∀ l ∈ ls, r.owns l = true → ∀ m ∈ r.heads, m.index ≠ l.index
  distinct : ls.Pairwise fun l l' => r.owns l = true → l.index ≠ l'.index
  covers : ∀ v u, r.scope[v]? = some u → r.chosen.getD v false = false →
    ∀ d ∈ r.unconstrained first dim u, ∃ l ∈ ls, l.index = first u + d

theorem Step.owns_eq {ns : List Literal} (hs : r.Step first dim l v ns r') : r'.owns = r.owns := by
  funext m
  rw [owns, owns, hs.position?_eq]

theorem Ahead.skip (h : r.Running first dim) (ha : r.Ahead first dim (l :: rest))
    (hl : ∀ v, r.position? l = some v → r.chosen.getD v false = true) :
    r.Ahead first dim rest := by
  refine ⟨fun m hm => ha.positive m (List.mem_cons_of_mem _ hm),
    fun m hm => ha.fresh m (List.mem_cons_of_mem _ hm), (List.pairwise_cons.1 ha.distinct).2,
    fun v u hu hfree d hd => ?_⟩
  obtain ⟨m, hm, hindex⟩ := ha.covers v u hu hfree d hd
  rcases List.mem_cons.1 hm with rfl | hm
  · have hlt := List.mem_range.1 (List.mem_filter.1 hd).1
    have hv := h.consistent.table.position?_run h.full.nodup hu (m := m) (by omega) (by omega)
    rw [hl v hv] at hfree
    cases hfree
  · exact ⟨m, hm, hindex⟩

theorem Ahead.step {m : Literal} {ns : List Literal} (h : r.Running first dim)
    (ha : r.Ahead first dim (l :: rest)) (hs : r.Step first dim m v ns r')
    (hm : m.index = l.index) : r'.Ahead first dim rest := by
  have hscope := hs.same.2.2.1
  have hlt := (h.consistent.index_lt hs.position).2.2
  have hv := position_lt hs.position
  obtain ⟨hconstrained, hchosen, -⟩ := hs.imposed_fields
  have hown : r.owns l = true := by
    rw [owns, show r.position? l = r.position? m from position?_congr (by rw [hm]), hs.position]
    rfl
  have hdistinct := List.pairwise_cons.1 ha.distinct
  refine ⟨fun k hk hown' => ?_, fun k hk hown' => ?_, ?_, fun w u hu hfree d hd => ?_⟩
  · rw [hs.owns_eq] at hown'
    exact ha.positive k (List.mem_cons_of_mem _ hk) hown'
  · rw [hs.owns_eq] at hown'
    rw [hs.heads_eq]
    refine List.forall_mem_cons.2 ⟨hm ▸ hdistinct.1 k hk hown, ?_⟩
    exact ha.fresh k (List.mem_cons_of_mem _ hk) hown'
  · rw [hs.owns_eq]
    exact hdistinct.2
  · rw [hscope] at hu
    rw [hchosen, chosen_imposed (h.consistent.chosen_size ▸ hv)] at hfree
    obtain ⟨hd, hnew⟩ := List.mem_filter.1 hd
    rw [hconstrained, constrained_imposed hlt] at hnew
    have hne : first u + d ≠ m.index := by
      intro he
      rw [if_pos he] at hnew
      cases hnew
    rw [if_neg hne] at hnew
    have hfree' : r.chosen.getD w false = false := by
      split at hfree
      · cases hfree
      · exact hfree
    obtain ⟨k, hk, hindex⟩ := ha.covers w u hu hfree' d (List.mem_filter.2 ⟨hd, hnew⟩)
    rcases List.mem_cons.1 hk with rfl | hk
    · exact absurd (hindex.symm.trans hm.symm) hne
    · exact ⟨k, hk, hindex⟩

/-- A literal that matters may be conditioned on while rows are pending. -/
theorem Running.allows (h : r.Running first dim) (hfresh : ∀ m ∈ r.heads, m.index ≠ l.index)
    (hfree : ∀ v, r.position? l = some v → r.chosen.getD v false = false)
    (hρ : r.Open dim ρ) : r.Allows l := by
  refine ⟨hfresh, fun v hl => ?_⟩
  obtain ⟨u, -, hu⟩ := position?_eq_some hl
  have hmem := List.mem_of_getElem? hu
  rw [h.exact.left v u hu (hfree v hl)]
  refine List.length_pos_of_mem (a := ρ u) (List.mem_filter.2
    ⟨List.mem_range.2 (hρ.assigns u hmem), ?_⟩)
  rw [h.exact.unconstrained_of_pending h.full h.consistent hρ.assigns hρ.pending hu (hfree v hl)]
  rfl

/-! ## The planned tree -/

/-- The engine is its own outline. -/
def outline : Outline Rows where
  high r l _ := match r.condition l with
    | .ok answer => answer
    | .error _ => (.redundant, [], r)
  low r l _ := match r.condition l.neg with
    | .ok (found, _, r') => (found, r')
    | .error _ => (.redundant, r)
  other _ := .leaf false

theorem outline_high {next : Option Literal} {answer : Cofactor × Weights × Rows}
    (h : r.condition l = .ok answer) : outline.high r l next = answer := by
  simp only [outline, h]

theorem outline_low {next : Option Literal} {found : Cofactor} {ws : Weights}
    (h : r.condition l.neg = .ok (found, ws, r')) : outline.low r l next = (found, r') := by
  simp only [outline, h]

/-- The value of a row with a weight. -/
def entryValue (determinism : Bool) (w : Weight) : Value :=
  if determinism && w == 0 then none else if determinism && w == 1 then some 0 else some {w}

theorem value_branch {ws : Weights} :
    Diagram.value x (singles (l :: ls)) (.branch l.value ws H L) =
      if x l then collect ws (H.value x (singles ls)) else L.value x (singles ls) := by
  rw [show singles (l :: ls) = ⟨l, []⟩ :: singles ls from rfl, Diagram.value, Block.literals,
    chainValue]
  simp [Stand.fire, Stand.descend, chainValue]

/-- A completed row leaves a leaf, and its weight on the edge. -/
theorem value_complete {determinism : Bool} {w : Weight} {s : Findings} {bs : List Block}
    (hs : s = Findings.complete determinism w ⟨.satisfiable, []⟩) :
    collect (nodeWeights s.found s.weights.mergeSort)
      (Diagram.value x bs (.leaf (s.found == .satisfiable))) = entryValue determinism w := by
  rw [hs, Findings.complete, entryValue]
  by_cases hzero : (determinism && w == 0) = true
  · rw [if_pos hzero, if_pos hzero]
    exact congrArg (collect _) value_false
  · rw [if_neg hzero, if_neg hzero]
    by_cases hone : (determinism && w == 1) = true
    · rw [if_pos hone, if_pos hone]
      simp [nodeWeights]
    · rw [if_neg hone, if_neg hone]
      simp [nodeWeights, collect]

theorem ascends_mergeSort {ws : Weights} : Weights.ascends ws.mergeSort = true := by
  rw [ascends_iff_pairwise]
  have htrans : ∀ a b c : Nat, decide (a ≤ b) = true → decide (b ≤ c) = true →
      decide (a ≤ c) = true := by
    intro a b c hab hbc
    simp only [decide_eq_true_eq] at *
    omega
  have htotal : ∀ a b : Nat, (decide (a ≤ b) || decide (b ≤ a)) = true := by
    intro a b
    simp only [Bool.or_eq_true, decide_eq_true_eq]
    omega
  exact (List.pairwise_mergeSort htrans htotal ws).imp fun h => of_decide_eq_true h

/-- A positive literal: what the high child is planned to be. -/
theorem Running.high_child (h : r.Running first dim) (ha : r.Allows l)
    (hl : r.position? l = some v) (hfree : r.chosen.getD v false = false)
    (hpos : l.isNegative = false) :
    ∃ ns found ws r', r.condition l = .ok (found, ws, r') ∧ r.Step first dim l v ns r' ∧
      (found = .satisfiable ∨ found = .unsatisfiable ∨ found = .unsatisfied ∧ 0 < r'.pending) ∧
      Weights.ascends ws = true ∧
      ∀ σ, r.Open dim σ → Shows r.scope first σ l.index →
        r.decided + 1 < r.scope.length ∧ r'.Open dim σ ∧ found = .unsatisfied ∧ ws = [] ∨
        r.decided + 1 = r.scope.length ∧ (found = .satisfiable ∨ found = .unsatisfiable) ∧
          ∀ (x : Literal → Bool) bs,
            collect (nodeWeights found ws) (Diagram.value x bs (.leaf (found == .satisfiable))) =
              entryValue r.determinism (r.weights.getD (r.rowOf dim σ) 0) := by
  obtain ⟨ns, s', r', hrun, hs, hs'⟩ := h.high ha hl hfree hpos
  have h' := hs.running h ha
  have hlt := (h.consistent.index_lt hl).2.1
  have hfound : s'.found = .satisfiable ∨ s'.found = .unsatisfiable := by
    rw [hs']
    exact foldl_complete_found (Or.inl rfl)
  refine ⟨ns, _, _, r', hrun, hs, ?_, ascends_mergeSort, fun σ hσ hshows => ?_⟩
  · unfold Findings.outcome
    by_cases hpending : r'.pending = 0
    · rcases hfound with hf | hf <;> simp [hf, hpending, Cofactor.combine, Cofactor.rank]
    · have hpos' : 0 < r'.pending := Nat.pos_of_ne_zero hpending
      rcases hfound with hf | hf <;> simp [hf, hpending, Cofactor.combine, Cofactor.rank, hpos']
  · have hiff := fun τ hτ => hs.pending_iff h.full h.consistent h.exact (ρ := τ) hτ
    simp only [hpos, Bool.false_eq_true, if_false] at hiff
    have hdecided := ((h.exact.pending_iff σ hσ.assigns).1 hσ.pending).2
    by_cases hlast : r.decided + 1 < r.scope.length
    · -- other variables are undecided, and the row is still pending
      left
      rw [h.completed_nil hlt hlast] at hs'
      have hopen : r'.Open dim σ :=
        ⟨hs.same.2.2.1 ▸ hσ.assigns, (hiff σ hσ.assigns).2 ⟨hσ.pending, hshows, hlast⟩⟩
      have hpending := Nat.ne_of_gt (h'.pending_pos_iff.2 ⟨σ, hopen⟩)
      refine ⟨hlast, hopen, ?_, by simp [hs']⟩
      simp [Findings.outcome, hs', hpending, Cofactor.combine, Cofactor.rank]
    · -- the row is completed, and no other one is pending
      right
      rw [h.completed_singleton hlt ha (by omega) hσ hshows] at hs'
      have hpending : r'.pending = 0 := by
        by_contra hne
        obtain ⟨τ, hτ⟩ := h'.pending_pos_iff.1 (Nat.pos_of_ne_zero hne)
        exact hlast ((hiff τ (hs.same.2.2.1 ▸ hτ.assigns)).1 hτ.pending).2.2
      have houtcome : s'.outcome r' = s'.found := by
        unfold Findings.outcome
        rcases hfound with hf | hf <;> simp [hf, hpending, Cofactor.combine, Cofactor.rank]
      rw [houtcome]
      exact ⟨by omega, hfound, fun x bs => value_complete hs'⟩

theorem index_neg : l.neg.index = l.index := Int.natAbs_neg _

theorem isNegative_neg (hpos : l.isNegative = false) : l.neg.isNegative = true := by
  have hne := l.value_ne_zero
  have hle : ¬ l.value < 0 := of_decide_eq_false hpos
  exact decide_eq_true (show -l.value < 0 by omega)

theorem position?_neg : r.position? l.neg = r.position? l := position?_congr (by rw [index_neg])

theorem Allows.neg (ha : r.Allows l) : r.Allows l.neg :=
  ⟨fun m hm => by rw [index_neg]; exact ha.fresh m hm,
    fun v hl => ha.left v (position?_neg.symm.trans hl)⟩

/-- A negative literal: what the low child is planned to be. -/
theorem Running.low_child (h : r.Running first dim) (ha : r.Allows l)
    (hl : r.position? l = some v) (hfree : r.chosen.getD v false = false)
    (hpos : l.isNegative = false) (hρ : r.Open dim ρ) :
    ∃ ns found ws r', r.condition l.neg = .ok (found, ws, r') ∧
      r.Step first dim l.neg v ns r' ∧
      (found = .unsatisfiable ∨ found = .unsatisfied ∧ 0 < r'.pending) ∧
      ∀ σ, r.Open dim σ → ¬ Shows r.scope first σ l.index →
        r'.Open dim σ ∧ found = .unsatisfied := by
  have hneg := isNegative_neg hpos
  obtain ⟨ns, ws, r', hrun, hs, hpending⟩ :=
    h.low ha.neg (position?_neg.trans hl) hfree hneg hρ
  refine ⟨ns, _, ws, r', hrun, hs, ?_, fun σ hσ hshows => ⟨⟨?_, ?_⟩, if_neg ?_⟩⟩
  · by_cases hone : r.valuesLeft.getD v 0 = 1
    · exact Or.inl (if_pos hone)
    · exact Or.inr ⟨if_neg hone, hpending hone⟩
  · rw [hs.same.2.2.1]
    exact hσ.assigns
  · rw [hs.pending_iff h.full h.consistent h.exact hσ.assigns, if_pos hneg, index_neg]
    exact ⟨hσ.pending, hshows⟩
  · -- the literal and that of the row are two values that are left
    obtain ⟨u, hvar, hu⟩ := position?_eq_some hl
    have hmem := List.mem_of_getElem? hu
    obtain ⟨hle, hlt⟩ := (h.consistent.table.literal u hmem l.index (index_pos l)).1 hvar
    have hne : σ u ≠ l.index - first u := fun he =>
      hshows ⟨u, hmem, by omega⟩
    have hsub : [σ u, l.index - first u] ⊆ r.unconstrained first dim u := by
      refine List.cons_subset.2 ⟨List.mem_filter.2 ⟨?_, ?_⟩, List.cons_subset.2
        ⟨List.mem_filter.2 ⟨?_, ?_⟩, List.nil_subset _⟩⟩
      · exact List.mem_range.2 (hσ.assigns u hmem)
      · rw [h.exact.unconstrained_of_pending h.full h.consistent hσ.assigns hσ.pending hu hfree]
        rfl
      · exact List.mem_range.2 (by omega)
      · rw [show first u + (l.index - first u) = l.index by omega, h.consistent.unconstrained ha]
        rfl
    have hnodup : [σ u, l.index - first u].Nodup := by simpa using hne
    have hlen := (hnodup.subperm hsub).length_le
    rw [← h.exact.left v u hu hfree] at hlen
    simp only [List.length_cons, List.length_nil] at hlen
    omega

/-- The part of an ordering that concerns a table. -/
def ownPart (r : Rows) (ls : List Literal) : List Literal := ls.filter r.owns

theorem Ahead.nodup (ha : r.Ahead first dim ls) : (r.ownPart ls).Nodup := by
  refine (List.pairwise_filter.2 (ha.distinct.imp ?_))
  intro a b hab hown _ he
  exact hab hown (congrArg Literal.index he)

/-! ## Down an ordering -/

/-- Rows are pending, and their literals lie ahead. -/
structure Solving (r : Rows) (first dim : Variable → Nat) (ls : List Literal) : Prop where
  running : r.Running first dim
  ahead : r.Ahead first dim ls
  pending : 0 < r.pending

/-- A literal that matters in front of the rest of an ordering: what is found for it and for its
negation, and what becomes of the pending rows. -/
structure Branching (r : Rows) (first dim : Variable → Nat) (l : Literal) (rest : List Literal)
    (found₁ : Cofactor) (ws : Weights) (r₁ : Rows) (found₂ : Cofactor) (r₂ : Rows) : Prop where
  owns : r.owns l = true
  positive : l.isNegative = false
  allows : r.Allows l
  high : r.condition l = .ok (found₁, ws, r₁)
  low : ∃ ws', r.condition l.neg = .ok (found₂, ws', r₂)
  high_step : ∃ v ns, r.Step first dim l v ns r₁
  low_step : ∃ v ns, r.Step first dim l.neg v ns r₂
  high_found : found₁ = .satisfiable ∨ found₁ = .unsatisfiable ∨
    found₁ = .unsatisfied ∧ r₁.Solving first dim rest
  low_found : found₂ = .unsatisfiable ∨ found₂ = .unsatisfied ∧ r₂.Solving first dim rest
  ascends : Weights.ascends ws = true
  shown : ∀ σ, r.Open dim σ → Shows r.scope first σ l.index →
    r.decided + 1 < r.scope.length ∧ r₁.Open dim σ ∧ found₁ = .unsatisfied ∧ ws = [] ∨
    r.decided + 1 = r.scope.length ∧ (found₁ = .satisfiable ∨ found₁ = .unsatisfiable) ∧
      ∀ (x : Literal → Bool) bs,
        collect (nodeWeights found₁ ws) (Diagram.value x bs (.leaf (found₁ == .satisfiable))) =
          entryValue r.determinism (r.weights.getD (r.rowOf dim σ) 0)
  other : ∀ σ, r.Open dim σ → ¬ Shows r.scope first σ l.index →
    r₂.Open dim σ ∧ found₂ = .unsatisfied

/-- A literal of another table or of a variable that has a value is skipped. -/
theorem Solving.skip (h : r.Solving first dim (l :: rest))
    (hl : ∀ v, r.position? l = some v → r.chosen.getD v false = true) :
    r.condition l = .ok (.redundant, [], r) ∧ r.Solving first dim rest :=
  ⟨condition_redundant hl, h.running, h.ahead.skip h.running hl, h.pending⟩

/-- A literal of a variable without a value branches. -/
theorem Solving.branching (h : r.Solving first dim (l :: rest)) (hl : r.position? l = some v)
    (hfree : r.chosen.getD v false = false) :
    ∃ found₁ ws r₁ found₂ r₂, r.Branching first dim l rest found₁ ws r₁ found₂ r₂ := by
  obtain ⟨ρ, hρ⟩ := h.running.pending_pos_iff.1 h.pending
  have hown : r.owns l = true := by rw [owns, hl]; rfl
  have hpos := h.ahead.positive l (List.mem_cons_self ..) hown
  have hallows := h.running.allows (h.ahead.fresh l (List.mem_cons_self ..) hown)
    (fun w hw => Option.some.inj (hl.symm.trans hw) ▸ hfree) hρ
  obtain ⟨ns₁, found₁, ws₁, r₁, hrun₁, hs₁, hfound₁, hascends, hhigh⟩ :=
    h.running.high_child hallows hl hfree hpos
  obtain ⟨ns₂, found₂, ws₂, r₂, hrun₂, hs₂, hfound₂, hlow⟩ :=
    h.running.low_child hallows hl hfree hpos hρ
  have hrest₁ : 0 < r₁.pending → r₁.Solving first dim rest := fun hpending =>
    ⟨hs₁.running h.running hallows, h.ahead.step h.running hs₁ rfl, hpending⟩
  have hrest₂ : 0 < r₂.pending → r₂.Solving first dim rest := fun hpending =>
    ⟨hs₂.running h.running hallows.neg, h.ahead.step h.running hs₂ index_neg, hpending⟩
  exact ⟨found₁, ws₁, r₁, found₂, r₂, hown, hpos, hallows, hrun₁, ⟨ws₂, hrun₂⟩,
    ⟨v, ns₁, hs₁⟩, ⟨v, ns₂, hs₂⟩,
    hfound₁.imp_right fun hf => hf.imp_right fun hf => ⟨hf.1, hrest₁ hf.2⟩,
    hfound₂.imp_right fun hf => ⟨hf.1, hrest₂ hf.2⟩, hascends, hhigh, hlow⟩

/-- A literal is skipped or branches. -/
theorem Solving.cases (h : r.Solving first dim (l :: rest)) :
    (r.condition l = .ok (.redundant, [], r) ∧ r.Solving first dim rest) ∨
      ∃ found₁ ws r₁ found₂ r₂, r.Branching first dim l rest found₁ ws r₁ found₂ r₂ := by
  by_cases hredundant : ∀ v, r.position? l = some v → r.chosen.getD v false = true
  · exact Or.inl (h.skip hredundant)
  · push Not at hredundant
    obtain ⟨v, hl, hfree⟩ := hredundant
    exact Or.inr (h.branching hl (by simpa using hfree))

section

variable {found₁ found₂ : Cofactor} {ws : Weights} {r₁ r₂ : Rows}
variable (B : r.Branching first dim l rest found₁ ws r₁ found₂ r₂)

include B

theorem Branching.high_ne : found₁ ≠ .redundant ∧ found₁ ≠ .trivial ∧ found₁ ≠ .cached := by
  rcases B.high_found with rfl | rfl | ⟨rfl, -⟩ <;> decide

theorem Branching.low_ne : found₂ ≠ .redundant ∧ found₂ ≠ .trivial ∧ found₂ ≠ .cached := by
  rcases B.low_found with rfl | ⟨rfl, -⟩ <;> decide

theorem Branching.solving_high (hf : found₁ = .unsatisfied) : r₁.Solving first dim rest := by
  rcases B.high_found with hf' | hf' | ⟨-, hrest⟩
  · cases hf'.symm.trans hf
  · cases hf'.symm.trans hf
  · exact hrest

theorem Branching.solving_low (hf : found₂ = .unsatisfied) : r₂.Solving first dim rest := by
  rcases B.low_found with hf' | ⟨-, hrest⟩
  · cases hf'.symm.trans hf
  · exact hrest

end

/-- A tree over some literals has for each pending row the value of that. -/
structure Values (r : Rows) (first dim : Variable → Nat) (part : List Literal) (D : Diagram) :
    Prop where
  regular : Regular .atEnd (singles part) D
  value : ∀ σ, r.Open dim σ → ∀ x : Literal → Bool,
    (∀ l ∈ part, x l = true ↔ Shows r.scope first σ l.index) →
    D.value x (singles part) = entryValue r.determinism (r.weights.getD (r.rowOf dim σ) 0)

/-- A literal of the table that does not matter may be put in front. -/
theorem Values.later (hD : r.Values first dim ls D) (hnodup : (l :: ls).Nodup) :
    r.Values first dim (l :: ls) D := by
  refine ⟨hD.regular.later (layout_singles hnodup), fun σ hσ x hx => ?_⟩
  rw [← hD.value σ hσ x fun m hm => hx m (List.mem_cons_of_mem l hm)]
  exact value_of_untested (hD.regular.untested (layout_singles hnodup))

/-- The nodes for a literal that matters. -/
theorem Branching.values {found₁ found₂ : Cofactor} {ws : Weights} {r₁ r₂ : Rows}
    (B : r.Branching first dim l rest found₁ ws r₁ found₂ r₂)
    (hH : found₁ = .unsatisfied ∧ r₁.Values first dim ls H ∨
      (found₁ = .satisfiable ∨ found₁ = .unsatisfiable) ∧ H = .leaf (found₁ == .satisfiable))
    (hL : found₂ = .unsatisfied ∧ r₂.Values first dim ls L ∨
      found₂ = .unsatisfiable ∧ L = .leaf false) :
    r.Values first dim (l :: ls) (.branch l.value (nodeWeights found₁ ws) H L) := by
  have hbelow : ∀ {m : Literal} {v : Nat} {ns : List Literal} {r' : Rows} {D : Diagram},
      r.Step first dim m v ns r' → r'.Values first dim ls D → ∀ σ, r'.Open dim σ →
      ∀ x : Literal → Bool, (∀ k ∈ l :: ls, x k = true ↔ Shows r.scope first σ k.index) →
      D.value x (singles ls) = entryValue r.determinism (r.weights.getD (r.rowOf dim σ) 0) := by
    intro m v ns r' D hs hD σ hσ x hx
    obtain ⟨hdeterminism, -, hscope, hweights, -⟩ := hs.same
    have := hD.value σ hσ x fun k hk => by
      rw [hscope]
      exact hx k (List.mem_cons_of_mem _ hk)
    rwa [hdeterminism, hweights, rowOf, hscope, ← rowOf] at this
  obtain ⟨v₁, ns₁, hs₁⟩ := B.high_step
  obtain ⟨v₂, ns₂, hs₂⟩ := B.low_step
  refine ⟨regular_branch ?_ ?_, fun σ hσ x hx => ?_⟩
  · rcases hH with ⟨-, hH⟩ | ⟨-, rfl⟩
    · exact hH.regular
    · exact regular_leaf
  · rcases hL with ⟨-, hL⟩ | ⟨-, rfl⟩
    · exact hL.regular
    · exact regular_leaf
  · rw [value_branch]
    by_cases hshows : Shows r.scope first σ l.index
    · rw [if_pos ((hx l (List.mem_cons_self ..)).2 hshows)]
      rcases B.shown σ hσ hshows with ⟨-, hopen, hfound, rfl⟩ | ⟨-, hfound, hvalue⟩
      · rcases hH with ⟨-, hH⟩ | ⟨hf, -⟩
        · rw [← hbelow hs₁ hH σ hopen x hx, nodeWeights, hfound]
          exact collect_nil
        · rcases hf with hf | hf <;> cases hf.symm.trans hfound
      · rcases hH with ⟨hf, -⟩ | ⟨-, rfl⟩
        · rcases hfound with hfound | hfound <;> cases hf.symm.trans hfound
        · exact hvalue x _
    · rw [if_neg fun h => hshows ((hx l (List.mem_cons_self ..)).1 h)]
      obtain ⟨hopen, hfound⟩ := B.other σ hσ hshows
      rcases hL with ⟨-, hL⟩ | ⟨hf, -⟩
      · exact hbelow hs₂ hL σ hopen x hx
      · cases hf.symm.trans hfound

/-- While rows are pending and their literals lie ahead, a tree is planned that has their values. -/
theorem plan_value : ∀ {ls : List Literal} {r : Rows}, r.Solving first dim ls →
    ∃ D, outline.plan ls r = some D ∧ r.Values first dim (r.ownPart ls) D
  | [], r, h => by
      obtain ⟨ρ, hρ⟩ := h.running.pending_pos_iff.1 h.pending
      obtain ⟨v, hv, hfree⟩ := h.running.exact.exists_undecided
        ((h.running.exact.pending_iff ρ hρ.assigns).1 hρ.pending).2
      have hu := List.getElem?_eq_getElem hv
      have hnew := h.running.exact.unconstrained_of_pending h.running.full h.running.consistent
        hρ.assigns hρ.pending hu hfree
      obtain ⟨l, hl, -⟩ := h.ahead.covers v _ hu hfree (ρ r.scope[v]) (List.mem_filter.2
        ⟨List.mem_range.2 (hρ.assigns _ (List.getElem_mem hv)), by rw [hnew]; rfl⟩)
      cases hl
  | l :: rest, r, h => by
      rcases h.cases with ⟨hrun, hrest⟩ | ⟨found₁, ws, r₁, found₂, r₂, B⟩
      · -- the literal is skipped, and the tree of the rest does not test it
        obtain ⟨D, hplan, hD⟩ := plan_value hrest
        refine ⟨D, ?_, ?_⟩
        · rw [Outline.plan, outline_high hrun, if_pos rfl]
          exact hplan
        · have hnodup := h.ahead.nodup
          by_cases hown : r.owns l = true
          · rw [ownPart, List.filter_cons_of_pos hown] at hnodup ⊢
            exact hD.later hnodup
          · rw [ownPart, List.filter_cons_of_neg hown]
            exact hD
      · have hpart : ∀ {m : Literal} {v : Nat} {ns : List Literal} {r' : Rows},
            r.Step first dim m v ns r' → r'.ownPart rest = r.ownPart rest := fun hs => by
          rw [ownPart, ownPart, hs.owns_eq]
        obtain ⟨v₁, ns₁, hs₁⟩ := B.high_step
        obtain ⟨v₂, ns₂, hs₂⟩ := B.low_step
        obtain ⟨ws₂, hlow⟩ := B.low
        obtain ⟨H, hplanH, hH⟩ : ∃ H, outline.child found₁ (outline.plan rest r₁) r₁ = some H ∧
            (found₁ = .unsatisfied ∧ r₁.Values first dim (r.ownPart rest) H ∨
              (found₁ = .satisfiable ∨ found₁ = .unsatisfiable) ∧
                H = .leaf (found₁ == .satisfiable)) := by
          rcases B.high_found with hf | hf | ⟨hf, hrest⟩
          · exact ⟨_, by rw [hf]; rfl, Or.inr ⟨Or.inl hf, by rw [hf]; rfl⟩⟩
          · exact ⟨_, by rw [hf]; rfl, Or.inr ⟨Or.inr hf, by rw [hf]; rfl⟩⟩
          · obtain ⟨D, hplan, hD⟩ := plan_value hrest
            exact ⟨D, by rw [hf]; exact hplan, Or.inl ⟨hf, hpart hs₁ ▸ hD⟩⟩
        obtain ⟨L, hplanL, hL⟩ : ∃ L, outline.child found₂ (outline.plan rest r₂) r₂ = some L ∧
            (found₂ = .unsatisfied ∧ r₂.Values first dim (r.ownPart rest) L ∨
              found₂ = .unsatisfiable ∧ L = .leaf false) := by
          rcases B.low_found with hf | ⟨hf, hrest⟩
          · exact ⟨_, by rw [hf]; rfl, Or.inr ⟨hf, rfl⟩⟩
          · obtain ⟨D, hplan, hD⟩ := plan_value hrest
            exact ⟨D, by rw [hf]; exact hplan, Or.inl ⟨hf, hpart hs₂ ▸ hD⟩⟩
        refine ⟨.branch l.value (nodeWeights found₁ ws) H L, ?_, ?_⟩
        · rw [Outline.plan, outline_high B.high, outline_low hlow, if_neg B.high_ne.1]
          simp only [hplanH, hplanL]
        · rw [ownPart, List.filter_cons_of_pos B.owns]
          exact B.values hH hL

/-! ## The engine -/

theorem ends_condition {m : Manager} {next : Option Literal} (holds : Bool)
    {answer : Cofactor × Weights × Rows} {Q : Cofactor × Weights × Rows → Manager → Prop}
    (h : r.condition (if holds then l else l.neg) = .ok answer) (hQ : Q answer m) :
    Ends (Rows.engine.condition r l next holds) m Q := by
  have hrun : (Rows.engine.condition r l next holds).run m = .ok answer m := by
    simp only [engine, h]
    rfl
  exact Ends.of_run hrun hQ

/-- The answer to a literal that is conditioned on, and what is left by taking it back. -/
theorem answers {frozen : Handle → Option Node} {pend : Set Handle} {same : Int → Int → Bool}
    {ns : List Literal} {k : Literal} {found : Cofactor} {m : Manager}
    (hr : r.Running first dim) (ha : r.Allows k) (hs : r.Step first dim k v ns r')
    (hne : found ≠ .redundant) (htrivial : found ≠ .trivial)
    (hrest : found = .unsatisfied → r'.Solving first dim rest) :
    Answers Rows.engine outline frozen pend same True
      (fun ls s a => s = a ∧ s.Solving first dim ls) (fun s t => t = s) rest r found r' found r'
      m where
  holds h := by
    rcases h with h | h
    · exact ⟨rfl, hrest h⟩
    · exact absurd h htrivial
  undo ht := by
    rw [ht]
    exact hs.undo_eq hr.consistent ha
  ne_redundant := hne
  agrees := Or.inl rfl
  trivial h := absurd h htrivial

/-- The engine follows its own answers. -/
def follows (frozen : Handle → Option Node) (vars : Array Variable) (same : Int → Int → Bool)
    (first dim : Variable → Nat) : Rows.engine.Follows outline frozen vars same where
  Holds ls s a := s = a ∧ s.Solving first dim ls
  Known _ _ := True
  Alike s t := t = s
  Plain := True
  alike_refl _ := rfl
  alike_trans h h' := h'.trans h
  holds_alike h hs := h ▸ hs
  known_mono _ _ _ := trivial
  skip {l rest s a} hs hred := by
    obtain ⟨rfl, hs⟩ := hs
    rcases hs.cases with ⟨-, hrest⟩ | ⟨_, _, _, _, _, B⟩
    · exact ⟨rfl, hrest⟩
    · rw [outline_high B.high] at hred
      exact absurd hred B.high_ne.1
  positive {l rest s a} hs hne := by
    obtain ⟨rfl, hs⟩ := hs
    rcases hs.cases with ⟨hrun, -⟩ | ⟨_, _, _, _, _, B⟩
    · rw [outline_high hrun] at hne
      exact absurd rfl hne
    · rw [outline_high B.high]
      refine ⟨?_, B.ascends⟩
      have hne' := l.value_ne_zero
      have hle : ¬ l.value < 0 := of_decide_eq_false B.positive
      exact decide_eq_true (show 0 < l.value by omega)
  high_redundant {l rest s a pend m} hs hred _ _ _ := by
    obtain ⟨rfl, hs⟩ := hs
    rcases hs.cases with ⟨hrun, -⟩ | ⟨_, _, _, _, _, B⟩
    · exact ends_condition true hrun ⟨⟨rfl, rfl, rfl, rfl⟩, rfl, rfl⟩
    · rw [outline_high B.high] at hred
      exact absurd hred B.high_ne.1
  high {l rest s a pend m} hs hne _ _ _ := by
    obtain ⟨rfl, hs⟩ := hs
    rcases hs.cases with ⟨hrun, -⟩ | ⟨found₁, ws, r₁, found₂, r₂, B⟩
    · rw [outline_high hrun] at hne
      exact absurd rfl hne
    · rw [outline_high B.high]
      obtain ⟨v, ns, hstep⟩ := B.high_step
      exact ends_condition true B.high ⟨⟨rfl, rfl, rfl, rfl⟩, rfl,
        answers hs.running B.allows hstep B.high_ne.1 B.high_ne.2.1 B.solving_high⟩
  low {l rest s a m} hs hne _ _ := by
    obtain ⟨rfl, hs⟩ := hs
    rcases hs.cases with ⟨hrun, -⟩ | ⟨found₁, ws, r₁, found₂, r₂, B⟩
    · rw [outline_high hrun] at hne
      exact absurd rfl hne
    · obtain ⟨ws₂, hlow⟩ := B.low
      rw [outline_low hlow]
      obtain ⟨v, ns, hstep⟩ := B.low_step
      exact ends_condition false hlow ⟨⟨rfl, rfl, rfl, rfl⟩, rfl, B.low_ne.2.2,
        answers hs.running B.allows.neg hstep B.low_ne.1 B.low_ne.2.1 B.solving_low⟩
  record _ _ _ _ _ _ _ _ := Ends.pure ⟨rfl, rfl, rfl, trivial⟩

end Rows

end BayesCircuit.Decision
