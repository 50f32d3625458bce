import BayesCircuit.Proofs.Rows.Cells
import Mathlib.Algebra.Order.BigOperators.Group.Finset

/-!
# Taking back what was conditioned on

Conditioning on a literal that matters marks it, sets aside the values that it excludes and
propagates all of them (`condition_step`). Of a literal that has not been marked, nothing can be
seen in the rows before, so taking it back restores them (`Step.undo_eq`). The engine stays
consistent on the way (`Step.consistent`): what resolved a row is in an entry, entries hold marked
literals only, and of a pending row everything is missing that has not been conditioned on.
-/

namespace BayesCircuit.Decision.Rows

variable {r r' : Rows} {l m : Literal} {first dim : Variable → Nat} {u v : Nat}

/-- The literals that have been conditioned on. -/
def heads (r : Rows) : List Literal := r.history.filterMap List.head?

/-- A literal may be conditioned on: nothing with its number has been, and its variable has a value
left. -/
structure Allows (r : Rows) (l : Literal) : Prop where
  fresh : ∀ m ∈ r.heads, m.index ≠ l.index
  left : ∀ v, r.position? l = some v → 0 < r.valuesLeft.getD v 0

/-- A literal has been conditioned on, or another value of its variable has been chosen. -/
def Marked (r : Rows) (l : Literal) : Prop :=
  r.constrained.getD l.index false = true ∨
    ∃ v, r.position? l = some v ∧ r.chosen.getD v false = true

/-- What holds of an engine between two calls. -/
structure Consistent (r : Rows) (first dim : Variable → Nat) : Prop where
  table : r.Table first dim
  missing_size : r.missing.size = r.weights.size
  resolvedBy_size : r.resolvedBy.size = r.weights.size
  valuesLeft_size : r.valuesLeft.size = r.scope.length
  chosen_size : r.chosen.size = r.scope.length
  constrained_size : r.constrained.size = r.literalVariables.size
  balanced : r.Balanced
  resolver : ∀ row, (r.cell row).resolver ≠ 0 →
    ∃ entry ∈ r.history, ∃ m ∈ entry, m.value = (r.cell row).resolver
  marked : ∀ entry ∈ r.history, ∀ m ∈ entry, r.Marked m
  constrained : ∀ i, r.constrained.getD i false = true → ∃ m ∈ r.heads, m.index = i
  nodup : (r.heads.map Literal.index).Nodup
  heads_lt : ∀ m ∈ r.heads, m.index < r.rowsOf.size
  missing : ∀ row < r.weights.size, (r.cell row).resolver = 0 →
    (r.cell row).missing + ((r.heads.filter (!·.isNegative)).map (r.uses · row)).sum =
      r.scope.length

/-! ## Positions -/

theorem position?_eq_some (h : r.position? l = some v) :
    ∃ u, r.literalVariables[l.index]? = some u ∧ r.scope[v]? = some u := by
  unfold position? at h
  obtain ⟨u, hu, h⟩ := Option.bind_eq_some_iff.1 h
  obtain ⟨last, hlast, h⟩ := Option.bind_eq_some_iff.1 h
  obtain ⟨hlt, hget, -⟩ := List.findIdx?_eq_some_iff_getElem.1 hlast
  obtain rfl := Option.some.inj h
  rw [List.length_reverse] at hlt
  refine ⟨u, hu, ?_⟩
  have hlt' : r.scope.length - 1 - last < r.scope.length := by omega
  rw [List.getElem_reverse] at hget
  rw [List.getElem?_eq_getElem hlt']
  simpa using hget

theorem position?_congr (h : r.literalVariables[l.index]? = r.literalVariables[m.index]?) :
    r.position? l = r.position? m := by
  rw [position?, position?, h]

theorem index_pos (l : Literal) : 0 < l.index := Int.natAbs_pos.2 l.value_ne_zero

theorem Table.position?_eq (ht : r.Table first dim) (h : r.position? l = some v)
    (hu : r.scope[v]? = some u) (hle : first u ≤ m.index) (hlt : m.index < first u + dim u) :
    r.position? m = some v := by
  obtain ⟨u', hvar, hu'⟩ := position?_eq_some h
  obtain rfl := Option.some.inj (hu'.symm.trans hu)
  rw [← h]
  refine position?_congr ?_
  rw [hvar]
  exact (ht.literal u' (List.mem_of_getElem? hu) _ (index_pos m)).2 ⟨hle, hlt⟩

/-! ## Imposing -/

theorem filterM_ok {α : Type} {f : α → Outcome Bool} {p : α → Bool} {xs : List α}
    (h : ∀ x ∈ xs, f x = .ok (p x)) : xs.filterM f = .ok (xs.filter p) := by
  have haux : ∀ acc, xs.filterAuxM f acc = .ok ((xs.filter p).reverse ++ acc) := by
    induction xs with
    | nil => exact fun acc => rfl
    | cons x xs ih =>
        intro acc
        obtain ⟨hx, hxs⟩ := List.forall_mem_cons.1 h
        rw [List.filterAuxM, hx]
        refine (ih hxs _).trans ?_
        by_cases hp : p x = true
        · simp [hp]
        · simp [hp]
  rw [List.filterM, haux, List.append_nil]
  exact congrArg Except.ok (List.reverse_reverse _)

/-- The literals that a value excludes. -/
theorem excluded_ok (ht : r.Table first dim) (hc : r.constrained.size = r.literalVariables.size)
    (hu : r.scope[v]? = some u) :
    ∃ ns, r.excluded v = .ok ns ∧ ns.Nodup ∧ ∀ m, m ∈ ns ↔ m.isNegative = true ∧
      first u ≤ m.index ∧ m.index < first u + dim u ∧
      r.constrained.getD m.index false = false := by
  have hmem := List.mem_of_getElem? hu
  have hpos := ht.first_pos u hmem
  have hfirst : r.firsts.getD v 0 = first u := by
    rw [ht.firsts, Array.getD_eq_getD_getElem?]
    simp [hu]
  have hdim : r.dims.getD v 0 = dim u := by
    rw [ht.dims, Array.getD_eq_getD_getElem?]
    simp [hu]
  let negative : Nat → Literal := fun i => ⟨-((first u - 1 + i + 1 : Nat) : Int), by omega⟩
  have hnegative : ∀ i, (negative i).index = first u + i := fun i => by
    simp only [negative, Literal.index]
    omega
  refine ⟨((List.range (dim u)).filter fun i => !r.constrained.getD (first u + i) false).map negative,
    ?_, ?_, fun m => ?_⟩
  · unfold excluded
    simp only [hfirst, hdim]
    have hfilter : (List.range (dim u)).filterM (fun i =>
        return !(← fetch r.constrained (first u + i))) =
        .ok ((List.range (dim u)).filter fun i => !r.constrained.getD (first u + i) false) := by
      refine filterM_ok fun i hi => ?_
      have hlt : first u + i < r.constrained.size := by
        have hget := (ht.literal u hmem (first u + i) (by omega)).2
          ⟨by omega, by have := List.mem_range.1 hi; omega⟩
        rw [hc]
        exact (Array.getElem?_eq_some_iff.1 hget).1
      simp [fetch, expect, Array.getD_eq_getD_getElem?, hlt, bind, Except.bind, pure, Except.pure]
    refine Outcome.bind_eq_ok_iff.2 ⟨_, hfilter, Outcome.mapM_ok fun i _ => ?_⟩
    have hne : ((first u + i : Nat) : Int) ≠ 0 := by omega
    simp only [Literal.of, hne, ne_eq, not_false_eq_true, dite_true, bind, Except.bind, pure,
      Except.pure]
    refine congrArg Except.ok ?_
    simp only [Literal.neg, negative, Literal.mk.injEq]
    omega
  · refine List.Nodup.map ?_ (List.nodup_range.filter _)
    intro i j hij
    have := congrArg Literal.index hij
    rw [hnegative, hnegative] at this
    omega
  · rw [List.mem_map]
    constructor
    · rintro ⟨i, hi, rfl⟩
      rw [List.mem_filter, List.mem_range] at hi
      rw [hnegative]
      refine ⟨?_, by omega, by omega, by simpa using hi.2⟩
      simp only [negative, Literal.isNegative]
      exact decide_eq_true (by omega)
    · rintro ⟨hn, hle, hlt, hfree⟩
      have hval : m.value < 0 := of_decide_eq_true hn
      refine ⟨m.index - first u, ?_, ?_⟩
      · rw [List.mem_filter, List.mem_range, show first u + (m.index - first u) = m.index by omega,
          hfree]
        exact ⟨by omega, rfl⟩
      · obtain ⟨x, hx⟩ := m
        simp only [Literal.index] at hval hle hlt ⊢
        simp only [negative, Literal.mk.injEq]
        omega

/-- The engine after a literal has been imposed on the variable at a position. -/
def imposed (r : Rows) (l : Literal) (v : Nat) : Rows :=
  if l.isNegative then
    { r with
      constrained := r.constrained.setIfInBounds l.index true
      valuesLeft := r.valuesLeft.setIfInBounds v (r.valuesLeft.getD v 0 - 1) }
  else
    { r with
      constrained := r.constrained.setIfInBounds l.index true
      chosen := r.chosen.setIfInBounds v true }

/-- What imposing a literal finds, before any row is looked at. -/
def imposedFound (r : Rows) (l : Literal) (v : Nat) : Cofactor :=
  if l.isNegative then if r.valuesLeft.getD v 0 - 1 == 0 then .unsatisfiable else .unsatisfied
  else .satisfiable

theorem imposedFound_ne : r.imposedFound l v ≠ .redundant := by
  unfold imposedFound
  split
  · split <;> decide
  · decide

/-- The literals that an entry sets aside: a positive literal excludes the other values of its
variable that have not been conditioned on. -/
def Excludes (r : Rows) (first dim : Variable → Nat) (l : Literal) (v : Nat)
    (ns : List Literal) : Prop :=
  ns.Nodup ∧ ∀ u, r.scope[v]? = some u → ∀ m, m ∈ ns ↔ l.isNegative = false ∧
    m.isNegative = true ∧ first u ≤ m.index ∧ m.index < first u + dim u ∧ m.index ≠ l.index ∧
    r.constrained.getD m.index false = false

theorem impose_ok (ht : r.Table first dim) (hc : r.constrained.size = r.literalVariables.size)
    (hl : r.position? l = some v) (hleft : 0 < r.valuesLeft.getD v 0) :
    ∃ ns, r.impose l v = .ok (r.imposedFound l v, l :: ns, r.imposed l v) ∧
      r.Excludes first dim l v ns := by
  obtain ⟨u, hvar, hu⟩ := position?_eq_some hl
  have hlt : l.index < r.constrained.size := by
    rw [hc]
    exact (Array.getElem?_eq_some_iff.1 hvar).1
  unfold impose imposed imposedFound
  by_cases hn : l.isNegative = true
  · have hminus : minus (r.valuesLeft.getD v 0) 1 = .ok (r.valuesLeft.getD v 0 - 1) := if_pos hleft
    simp only [hn, if_true, hminus, bind, Except.bind, pure, Except.pure]
    exact ⟨[], rfl, List.nodup_nil, fun u' _ m => by simp [hn]⟩
  · rw [if_neg hn, if_neg hn, if_neg hn]
    have htable : ({ r with constrained := r.constrained.setIfInBounds l.index true } : Rows).Table
        first dim := { ht with }
    obtain ⟨ns, hns, hnodup, hmem⟩ := excluded_ok htable
      (by rw [Array.size_setIfInBounds]; exact hc) hu
    refine ⟨ns, ?_, hnodup, fun u' hu' m => ?_⟩
    · simp only [hns, bind, Except.bind, pure, Except.pure]
    · obtain rfl := Option.some.inj (hu.symm.trans hu')
      rw [hmem, getD_setIfInBounds hlt]
      by_cases hml : m.index = l.index <;> simp [hml, hn]

/-- A literal that matters has been conditioned on: it was imposed on the variable at position `v`,
it excludes the literals `ns`, and the rows have been changed accordingly. -/
structure Step (r : Rows) (first dim : Variable → Nat) (l : Literal) (v : Nat) (ns : List Literal)
    (r' : Rows) : Prop where
  position : r.position? l = some v
  free : r.chosen.getD v false = false
  excludes : r.Excludes first dim l v ns
  moved : Moved (fun row c => c.touchAll (r.uses · row) (l :: ns))
    { r.imposed l v with history := (l :: ns) :: r.history } r'

/-! ## Conditioning -/

theorem Consistent.index_lt (h : r.Consistent first dim) (hl : r.position? l = some v) :
    l.index < r.literalVariables.size ∧ l.index < r.rowsOf.size ∧ l.index < r.constrained.size := by
  obtain ⟨u, hvar, -⟩ := position?_eq_some hl
  have hlt := (Array.getElem?_eq_some_iff.1 hvar).1
  exact ⟨hlt, h.table.size ▸ hlt, h.constrained_size ▸ hlt⟩

theorem position_lt (hl : r.position? l = some v) : v < r.scope.length := by
  obtain ⟨u, -, hu⟩ := position?_eq_some hl
  exact (List.getElem?_eq_some_iff.1 hu).1

/-- A literal that may be conditioned on has not been. -/
theorem Consistent.unconstrained (h : r.Consistent first dim) (ha : r.Allows l) :
    r.constrained.getD l.index false = false := by
  by_contra hne
  obtain ⟨m, hm, hindex⟩ := h.constrained l.index (by simpa using hne)
  exact ha.fresh m hm hindex

theorem Consistent.unmarked (h : r.Consistent first dim) (ha : r.Allows l)
    (hl : r.position? l = some v) (hfree : r.chosen.getD v false = false) : ¬ r.Marked l := by
  rintro (hmark | ⟨w, hw, hchosen⟩)
  · rw [h.unconstrained ha] at hmark
    cases hmark
  · obtain rfl := Option.some.inj (hl.symm.trans hw)
    rw [hfree] at hchosen
    cases hchosen

/-- The literals of an entry that is to be made have not been marked. -/
theorem Excludes.unmarked {ns : List Literal} (h : r.Consistent first dim)
    (he : r.Excludes first dim l v ns) (hl : r.position? l = some v)
    (hfree : r.chosen.getD v false = false) (hm : m ∈ ns) :
    ¬ r.Marked m ∧ r.position? m = some v ∧ m.isNegative = true := by
  obtain ⟨u, -, hu⟩ := position?_eq_some hl
  obtain ⟨-, hneg, hle, hlt, -, hnew⟩ := (he.2 u hu m).1 hm
  have hpos := h.table.position?_eq hl hu hle hlt
  refine ⟨?_, hpos, hneg⟩
  rintro (hmark | ⟨w, hw, hchosen⟩)
  · rw [hnew] at hmark
    cases hmark
  · obtain rfl := Option.some.inj (hpos.symm.trans hw)
    rw [hfree] at hchosen
    cases hchosen

theorem Excludes.self_notMem {ns : List Literal} (he : r.Excludes first dim l v ns)
    (hl : r.position? l = some v) : l ∉ ns := by
  obtain ⟨u, -, hu⟩ := position?_eq_some hl
  intro hmem
  exact ((he.2 u hu l).1 hmem).2.2.2.2.1 rfl

/-- Nothing that has not been marked has resolved a row. -/
theorem Consistent.resolver_ne (h : r.Consistent first dim) (hm : ¬ r.Marked m) (row : Nat) :
    (r.cell row).resolver ≠ m.value := by
  intro he
  obtain ⟨entry, hentry, m', hm', hvalue⟩ := h.resolver row (he ▸ m.value_ne_zero)
  obtain rfl : m' = m := by
    cases m
    cases m'
    cases hvalue.trans he
    rfl
  exact hm (h.marked entry hentry m' hm')

/-- A pending row misses a literal as often as it has it, if the literal has not been conditioned
on. -/
theorem Consistent.uses_le (h : r.Consistent first dim) (ha : r.Allows l)
    (hl : l.index < r.rowsOf.size) {row : Nat} (hrow : (r.cell row).resolver = 0) :
    r.uses l row ≤ (r.cell row).missing := by
  by_cases hlt : row < r.weights.size
  · have hmissing := h.missing row hlt hrow
    have hsum := h.table.literals row hlt
    let c : Nat → Nat := fun i => (r.rowsOf.getD i []).count row
    let positive := (r.heads.filter (!·.isNegative)).map Literal.index
    have hnodup : (l.index :: positive).Nodup := by
      refine List.nodup_cons.2 ⟨fun hmem => ?_, h.nodup.sublist ((List.filter_sublist).map _)⟩
      obtain ⟨m, hm, hindex⟩ := List.mem_map.1 hmem
      exact ha.fresh m (List.mem_filter.1 hm).1 hindex
    have hsub : (l.index :: positive).toFinset ⊆ Finset.range r.rowsOf.size := by
      intro i hi
      rw [List.mem_toFinset, List.mem_cons] at hi
      rw [Finset.mem_range]
      rcases hi with rfl | hi
      · exact hl
      · obtain ⟨m, hm, rfl⟩ := List.mem_map.1 hi
        exact h.heads_lt m (List.mem_filter.1 hm).1
    have hle : c l.index + (positive.map c).sum ≤ r.scope.length :=
      calc c l.index + (positive.map c).sum
          = ((l.index :: positive).map c).sum := by rw [List.map_cons, List.sum_cons]
        _ = ∑ i ∈ (l.index :: positive).toFinset, c i := (List.sum_toFinset c hnodup).symm
        _ ≤ ∑ i ∈ Finset.range r.rowsOf.size, c i := Finset.sum_le_sum_of_subset hsub
        _ = r.scope.length := hsum
    have hpositive : (positive.map c).sum =
        ((r.heads.filter (!·.isNegative)).map (r.uses · row)).sum := by
      rw [List.map_map]
      rfl
    have huses : r.uses l row = c l.index := rfl
    omega
  · -- no literal is in a row that is not there
    have hzero : r.uses l row = 0 := by
      refine List.count_eq_zero.2 fun hmem => hlt ?_
      exact h.table.row_lt l.index hl row hmem
    omega

/-- Imposing a literal leaves the rows alone. -/
theorem imposed_eq : ∃ constrained valuesLeft chosen,
    r.imposed l v = { r with constrained, valuesLeft, chosen } := by
  unfold imposed
  split <;> exact ⟨_, _, _, rfl⟩

/-- An entry that is to be made can be propagated. -/
theorem Excludes.fits {ns : List Literal}
    (h : r.Consistent first dim) (ha : r.Allows l) (hl : r.position? l = some v)
    (hfree : r.chosen.getD v false = false) (he : r.Excludes first dim l v ns) :
    r.Fits (l :: ns) := by
  have hbounds : ∀ m : Literal, r.position? m = some v →
      r.InBounds (r.rowsOf.getD m.index []) := by
    intro m hm row hrow
    have := h.table.row_lt m.index (h.index_lt hm).2.1 row hrow
    rw [h.missing_size, h.resolvedBy_size]
    exact ⟨this, this⟩
  have hns : ∀ m ∈ ns, r.position? m = some v ∧ m.isNegative = true := fun m hm =>
    (he.unmarked h hl hfree hm).2
  refine ⟨List.forall_mem_cons.2 ⟨hbounds l hl, fun m hm => hbounds m (hns m hm).1⟩,
    List.forall_mem_cons.2 ⟨fun _ row hrow => h.uses_le ha (h.index_lt hl).2.1 hrow,
      fun m hm hpos => absurd (hns m hm).2 (by simp [hpos])⟩, fun m hm => (hns m hm).2⟩

/-- What is left after a literal has been propagated. -/
def Findings.outcome (s : Findings) (r : Rows) : Cofactor :=
  s.found.combine (if r.pending == 0 then .satisfiable else .unsatisfied)

theorem Findings.outcome_ne {s : Findings} (h : s.found ≠ .redundant) :
    s.outcome r ≠ .redundant := by
  refine Cofactor.combine_ne_redundant h ?_
  split <;> decide

/-- A literal of another table, or of a variable whose value is known, does not matter. -/
theorem condition_redundant (h : ∀ v, r.position? l = some v → r.chosen.getD v false = true) :
    r.condition l = .ok (.redundant, [], r) := by
  unfold condition
  cases hl : r.position? l with
  | none => rfl
  | some v => exact if_pos (h v hl)

/-- A literal that matters is imposed and propagated. -/
theorem condition_matters (h : r.Consistent first dim) (ha : r.Allows l)
    (hl : r.position? l = some v) (hfree : r.chosen.getD v false = false) :
    ∃ ns s' r', r.condition l = .ok (s'.outcome r', s'.weights.mergeSort, r') ∧
      s'.found ≠ .redundant ∧ r.Step first dim l v ns r' ∧
      propagateAll (l :: ns) { r.imposed l v with history := (l :: ns) :: r.history }
        ⟨r.imposedFound l v, []⟩ = .ok (r', s') := by
  obtain ⟨ns, himpose, hexcludes⟩ := impose_ok h.table h.constrained_size hl (ha.left v hl)
  obtain ⟨_, _, _, heq⟩ := imposed_eq (r := r) (l := l) (v := v)
  have hfits : ({ r.imposed l v with history := (l :: ns) :: r.history } : Rows).Fits
      (l :: ns) := by
    rw [heq]
    exact { hexcludes.fits h ha hl hfree with }
  obtain ⟨r', s', hrun, hmoved, hfound⟩ :=
    moved_propagateAll (s := ⟨r.imposedFound l v, []⟩) hfits
  have huses : ({ r.imposed l v with history := (l :: ns) :: r.history } : Rows).uses =
      r.uses := by
    rw [heq]
    rfl
  have hhistory : (r.imposed l v).history = r.history := by rw [heq]
  rw [huses] at hmoved
  refine ⟨ns, s', r', ?_, hfound imposedFound_ne, ⟨hl, hfree, hexcludes, hmoved⟩, hrun⟩
  rw [← hhistory] at hrun
  simp only [condition, hl, hfree, Bool.false_eq_true, if_false]
  exact Outcome.bind_eq_ok_iff.2 ⟨_, himpose, Outcome.bind_eq_ok_iff.2 ⟨_, hrun, rfl⟩⟩

/-- A literal that may be conditioned on does not matter, or it is imposed and propagated. -/
theorem condition_step (h : r.Consistent first dim) (ha : r.Allows l) :
    r.condition l = .ok (.redundant, [], r) ∨
      ∃ found ws r' v ns, r.condition l = .ok (found, ws, r') ∧ found ≠ .redundant ∧
        r.Step first dim l v ns r' := by
  by_cases hredundant : ∀ v, r.position? l = some v → r.chosen.getD v false = true
  · exact Or.inl (condition_redundant hredundant)
  · push Not at hredundant
    obtain ⟨v, hl, hfree⟩ := hredundant
    obtain ⟨ns, s', r', hrun, hfound, hs, -⟩ := condition_matters h ha hl (by simpa using hfree)
    exact Or.inr ⟨_, _, r', v, ns, hrun, Findings.outcome_ne hfound, hs⟩

/-! ## Taking back -/

theorem ext_getD {α : Type} {xs ys : Array α} (d : α) (hsize : xs.size = ys.size)
    (h : ∀ i, xs.getD i d = ys.getD i d) : xs = ys := by
  refine Array.ext hsize fun i hi hi' => ?_
  have := h i
  rwa [Array.getD_eq_getD_getElem?, Array.getD_eq_getD_getElem?, Array.getElem?_eq_getElem hi,
    Array.getElem?_eq_getElem hi'] at this

/-- The rows are the same if what is known about each of them is. -/
theorem eq_of_cell {q : Rows} (hmissing : q.missing.size = r.missing.size)
    (hresolvedBy : q.resolvedBy.size = r.resolvedBy.size)
    (hcell : ∀ row, q.cell row = r.cell row) (hq : q.Balanced) (hr : r.Balanced) :
    q.missing = r.missing ∧ q.resolvedBy = r.resolvedBy ∧ q.pending = r.pending := by
  have hby : q.resolvedBy = r.resolvedBy :=
    ext_getD 0 hresolvedBy fun row => congrArg Cell.resolver (hcell row)
  refine ⟨ext_getD 0 hmissing fun row => congrArg Cell.missing (hcell row), hby, ?_⟩
  rw [hq, hr, hby]

theorem setIfInBounds_setIfInBounds {α : Type} {xs : Array α} {i : Nat} {x y : α} (d : α)
    (hi : i < xs.size) (h : xs.getD i d = y) :
    (xs.setIfInBounds i x).setIfInBounds i y = xs := by
  refine ext_getD d (by simp) fun j => ?_
  rw [getD_setIfInBounds (by simpa using hi), getD_setIfInBounds hi]
  split
  · rename_i hj
    rw [hj, h]
  · rfl

/-- Releasing a literal does not look at the rows. -/
theorem release_rows {missing : Array Nat} {resolvedBy : Array Int} {pending : Nat} :
    release { r with missing, resolvedBy, pending } l =
      { release r l with missing, resolvedBy, pending } := by
  have hposition : ∀ constrained, ({ r with missing, resolvedBy, pending, constrained } :
      Rows).position? l = ({ r with constrained } : Rows).position? l := fun _ => rfl
  unfold release
  simp only [hposition]
  split
  · rfl
  · split <;> rfl

/-- Releasing a literal undoes what imposing it did. -/
theorem release_imposed (h : r.Consistent first dim) (ha : r.Allows l)
    (hl : r.position? l = some v) (hfree : r.chosen.getD v false = false) :
    release (r.imposed l v) l = r := by
  have hindex := (h.index_lt hl).2.2
  have hnew := h.unconstrained ha
  have hconstrained : (r.constrained.setIfInBounds l.index true).setIfInBounds l.index false =
      r.constrained := setIfInBounds_setIfInBounds false hindex hnew
  unfold release imposed
  by_cases hn : l.isNegative = true
  · have hleft := ha.left v hl
    have hv : v < r.valuesLeft.size := h.valuesLeft_size ▸ position_lt hl
    have hvalues : (r.valuesLeft.setIfInBounds v (r.valuesLeft.getD v 0 - 1)).modify v (· + 1) =
        r.valuesLeft := by
      refine ext_getD 0 (by simp) fun j => ?_
      simp only [Array.getD_eq_getD_getElem?, Array.getElem?_modify]
      by_cases hj : v = j
      · subst hj
        simp [hv] at hleft ⊢
        omega
      · simp [hj]
    have hposition : ∀ constrained valuesLeft,
        ({ r with constrained, valuesLeft } : Rows).position? l = some v := fun _ _ => hl
    simp only [hn, if_true, hconstrained, hposition, hvalues]
  · have hv : v < r.chosen.size := h.chosen_size ▸ position_lt hl
    have hposition : ∀ constrained chosen,
        ({ r with constrained, chosen } : Rows).position? l = some v := fun _ _ => hl
    have hchosen := setIfInBounds_setIfInBounds (x := true) false hv hfree
    simp only [hn, if_false, Bool.false_eq_true, hconstrained, hposition, hchosen]

/-- Taking back a literal that was conditioned on restores the engine. -/
theorem Step.undo_eq {ns : List Literal} (hs : r.Step first dim l v ns r')
    (h : r.Consistent first dim) (ha : r.Allows l) : r'.undo = r := by
  obtain ⟨hl, hfree, hexcludes, hmoved⟩ := hs
  have hrelease := release_imposed h ha hl hfree
  obtain ⟨_, _, _, heq⟩ := imposed_eq (r := r) (l := l) (v := v)
  have hhistory : r'.history = (l :: ns) :: r.history := by rw [hmoved.rest]
  let q : Rows := { r with
    missing := r'.missing, resolvedBy := r'.resolvedBy, pending := r'.pending }
  have hq : release { r' with history := r.history } l = q := by
    have hr' : ({ r' with history := r.history } : Rows) = { r.imposed l v with
        missing := r'.missing, resolvedBy := r'.resolvedBy, pending := r'.pending } := by
      rw [hmoved.rest, heq]
    rw [hr', release_rows, hrelease]
  have hundo : r'.undo = ((l :: ns).reverse.foldl
      (fun r l => (r.rowsOf.getD l.index []).foldl (fun r row => restore l row r) r) q) := by
    rw [undo, hhistory]
    simp only [List.head?_cons, Option.elim_some, hq]
  have hfits := hexcludes.fits h ha hl hfree
  have hrows : r'.missing.size = r.missing.size ∧ r'.resolvedBy.size = r.resolvedBy.size := by
    refine ⟨hmoved.missing_size.trans ?_, hmoved.resolvedBy_size.trans ?_⟩ <;> rw [heq]
  have hbounds : ∀ m ∈ l :: ns, q.InBounds (q.rowsOf.getD m.index []) := by
    intro m hm row hrow
    rw [show q.missing.size = r.missing.size from hrows.1,
      show q.resolvedBy.size = r.resolvedBy.size from hrows.2]
    exact hfits.inBounds m hm row hrow
  have hback := moved_restoreAll hbounds
  rw [← hundo] at hback
  have hnew : ∀ m ∈ l :: ns, ¬ r.Marked m :=
    List.forall_mem_cons.2 ⟨h.unmarked ha hl hfree,
      fun m hm => (hexcludes.unmarked h hl hfree hm).1⟩
  have hnodup : (l :: ns).Nodup := List.nodup_cons.2 ⟨hexcludes.self_notMem hl, hexcludes.1⟩
  have hcell : ∀ row, r'.undo.cell row = r.cell row := by
    intro row
    have hbefore : ({ r.imposed l v with history := (l :: ns) :: r.history } : Rows).cell row =
        r.cell row := by rw [heq]; rfl
    have hq' : q.cell row = (r.cell row).touchAll (r.uses · row) (l :: ns) := by
      rw [← hbefore, ← hmoved.cell]
      rfl
    rw [hback.cell, hq']
    exact Cell.untouchAll_touchAll hnodup (fun m hm => h.resolver_ne (hnew m hm) row)
      (fun m hm hpos => hfits.missing m hm hpos row) hfits.tail
  have hbalanced : r'.Balanced := by
    refine hmoved.balanced ?_
    rw [heq]
    exact h.balanced
  obtain ⟨hm, hby, hp⟩ := eq_of_cell (hback.missing_size.trans hrows.1)
    (hback.resolvedBy_size.trans hrows.2) hcell (hback.balanced hbalanced) h.balanced
  rw [hback.rest, hm, hby, hp]

/-! ## Staying consistent -/

theorem imposed_sizes : (r.imposed l v).valuesLeft.size = r.valuesLeft.size ∧
    (r.imposed l v).chosen.size = r.chosen.size ∧
    (r.imposed l v).constrained.size = r.constrained.size := by
  unfold imposed
  split <;> simp

/-- Imposing a literal constrains it and nothing else. -/
theorem constrained_imposed (hl : l.index < r.constrained.size) (i : Nat) :
    (r.imposed l v).constrained.getD i false =
      if i = l.index then true else r.constrained.getD i false := by
  unfold imposed
  split <;> exact getD_setIfInBounds hl i

/-- Imposing a positive literal makes a choice for its variable. -/
theorem chosen_imposed (hv : v < r.chosen.size) (w : Nat) :
    (r.imposed l v).chosen.getD w false =
      if w = v ∧ l.isNegative = false then true else r.chosen.getD w false := by
  unfold imposed
  by_cases hn : l.isNegative = true
  · simp [hn]
  · have hn' : l.isNegative = false := by simpa using hn
    rw [if_neg hn]
    simp only [getD_setIfInBounds hv, hn', and_true]

theorem Step.consistent {ns : List Literal} (hs : r.Step first dim l v ns r')
    (h : r.Consistent first dim) (ha : r.Allows l) : r'.Consistent first dim := by
  obtain ⟨hl, hfree, hexcludes, hmoved⟩ := hs
  obtain ⟨constrained, valuesLeft, chosen, heq⟩ := imposed_eq (r := r) (l := l) (v := v)
  obtain ⟨hlt, hltRows, hltConstrained⟩ := h.index_lt hl
  have hv : v < r.chosen.size := h.chosen_size ▸ position_lt hl
  obtain ⟨hsizes, hsizes', hsizes''⟩ := imposed_sizes (r := r) (l := l) (v := v)
  have hconstrained := constrained_imposed (v := v) hltConstrained
  have hchosen := chosen_imposed (l := l) hv
  have hrest := hmoved.rest
  rw [heq] at hrest hsizes hsizes' hsizes'' hconstrained hchosen hmoved
  have hcell : ∀ row, r'.cell row = (r.cell row).touchAll (r.uses · row) (l :: ns) := hmoved.cell
  have hhistory : r'.history = (l :: ns) :: r.history := by rw [hrest]
  have hheads : r'.heads = l :: r.heads := by
    rw [heads, hhistory]
    rfl
  have hposition : ∀ m, r'.position? m = r.position? m := fun m => by rw [hrest]; rfl
  have hconstrained' : r'.constrained = constrained := by rw [hrest]
  have hchosen' : r'.chosen = chosen := by rw [hrest]
  have hweights : r'.weights = r.weights := by rw [hrest]
  have huses : r'.uses = r.uses := hmoved.uses
  have hrowsOf : r'.rowsOf = r.rowsOf := hmoved.rowsOf
  have hscope : r'.scope = r.scope := by rw [hrest]
  have hmarked : ∀ m, r.Marked m → r'.Marked m := by
    rintro m (hm | ⟨w, hw, hm⟩)
    · refine Or.inl ?_
      rw [hconstrained', hconstrained]
      split
      · rfl
      · exact hm
    · refine Or.inr ⟨w, (hposition m).trans hw, ?_⟩
      rw [hchosen', hchosen]
      split
      · rfl
      · exact hm
  have hfits := hexcludes.fits h ha hl hfree
  refine ⟨by rw [hrest]; exact { h.table with }, ?_, ?_, ?_, ?_, ?_, hmoved.balanced h.balanced,
    fun row hrow => ?_, fun entry hentry m hm => ?_, fun i hi => ?_, ?_, ?_, fun row hlt hrow => ?_⟩
  · rw [hmoved.missing_size, hweights]
    exact h.missing_size
  · rw [hmoved.resolvedBy_size, hweights]
    exact h.resolvedBy_size
  · rw [hrest]
    exact hsizes.trans h.valuesLeft_size
  · rw [hrest]
    exact hsizes'.trans h.chosen_size
  · rw [hrest]
    exact hsizes''.trans h.constrained_size
  · rw [hhistory]
    rw [hcell] at hrow ⊢
    rcases @Cell.touchAll_resolver (r.cell row) (r.uses · row) (l :: ns) with he | ⟨m, hm, he⟩
    · obtain ⟨entry, hentry, m, hm, hvalue⟩ := h.resolver row (he ▸ hrow)
      exact ⟨entry, List.mem_cons_of_mem _ hentry, m, hm, hvalue.trans he.symm⟩
    · exact ⟨_, List.mem_cons_self .., m, hm, he⟩
  · rw [hhistory] at hentry
    rcases List.mem_cons.1 hentry with rfl | hentry
    · rcases List.mem_cons.1 hm with rfl | hm
      · refine Or.inl ?_
        rw [hconstrained', hconstrained, if_pos rfl]
      · obtain ⟨u, -, hu⟩ := position?_eq_some hl
        have hpos := ((hexcludes.2 u hu m).1 hm).1
        refine Or.inr ⟨v, (hposition m).trans (hexcludes.unmarked h hl hfree hm).2.1, ?_⟩
        rw [hchosen', hchosen, if_pos ⟨rfl, hpos⟩]
    · exact hmarked m (h.marked entry hentry m hm)
  · rw [hconstrained', hconstrained] at hi
    rw [hheads]
    split at hi
    · rename_i hil
      exact ⟨l, List.mem_cons_self .., hil.symm⟩
    · obtain ⟨m, hm, hindex⟩ := h.constrained i hi
      exact ⟨m, List.mem_cons_of_mem _ hm, hindex⟩
  · rw [hheads, List.map_cons, List.nodup_cons]
    refine ⟨fun hmem => ?_, h.nodup⟩
    obtain ⟨m, hm, hindex⟩ := List.mem_map.1 hmem
    exact ha.fresh m hm hindex
  · rw [hheads, hrowsOf]
    exact List.forall_mem_cons.2 ⟨hltRows, h.heads_lt⟩
  · rw [hweights] at hlt
    rw [hcell, Cell.touchAll_cons] at hrow ⊢
    have htail : ∀ m ∈ ns, m.isNegative = true := hfits.tail
    rw [hscope, hheads, huses, Cell.touchAll_negative htail]
    have hafter := Cell.pending_of_touchAll hrow
    have hbefore : (r.cell row).resolver = 0 := by
      by_contra hne
      exact hne (Cell.touch_resolved (l := l) (k := r.uses l row) hne ▸ hafter)
    have hmissing := h.missing row hlt hbefore
    by_cases hn : l.isNegative = true
    · rw [Cell.touch_missing hn, List.filter_cons_of_neg (by simp [hn])]
      exact hmissing
    · have hn' : l.isNegative = false := by simpa using hn
      have := Cell.missing_touch hafter hn' (h.uses_le ha hltRows hbefore)
      rw [List.filter_cons_of_pos (by simp [hn']), List.map_cons, List.sum_cons]
      omega

theorem consistent_start (ht : r.Table first dim) (h : r.Fresh) : r.Consistent first dim := by
  have hheads : r.heads = [] := by
    rw [heads, h.history]
    rfl
  have hcell : ∀ row, (r.cell row).resolver = 0 := fun row => by
    simp only [cell, h.resolvedBy, Array.getD_eq_getD_getElem?, Array.getElem?_replicate]
    split <;> rfl
  refine ⟨ht, ?_, ?_, ?_, ?_, ?_, ?_, fun row hrow => absurd (hcell row) hrow,
    fun entry hentry => ?_, fun i hi => ?_, ?_, ?_, fun row hlt _ => ?_⟩
  · rw [h.missing, Array.size_replicate]
  · rw [h.resolvedBy, Array.size_replicate]
  · rw [h.valuesLeft, ht.dims]
    simp
  · rw [h.chosen, Array.size_replicate]
  · rw [h.constrained, Array.size_replicate]
  · rw [Balanced, h.pending, h.resolvedBy, Array.count_replicate_self]
  · rw [h.history] at hentry
    cases hentry
  · rw [h.constrained, Array.getD_eq_getD_getElem?, Array.getElem?_replicate] at hi
    split at hi <;> cases hi
  · rw [hheads]
    exact List.nodup_nil
  · rw [hheads]
    exact fun m hm => absurd hm List.not_mem_nil
  · rw [hheads]
    simp [cell, h.missing, hlt]

/-! ## Runs -/

/-- The states of an engine that is given literals it allows and takes them back. -/
inductive Reachable (start : Rows) : Rows → Prop
  | start : Reachable start start
  | condition {r r' : Rows} {l : Literal} {found : Cofactor} {ws : Weights} (h : Reachable start r)
      (allowed : r.Allows l) (run : r.condition l = .ok (found, ws, r')) : Reachable start r'
  | undo {r : Rows} (h : Reachable start r) : Reachable start r.undo

/-- The states of an engine that is given literals it allows and takes none back. -/
inductive Nested (first dim : Variable → Nat) (start : Rows) : Rows → Prop
  | start : Nested first dim start start
  | step {r r' : Rows} {l : Literal} {v : Nat} {ns : List Literal} (h : Nested first dim start r)
      (allowed : r.Allows l) (step : r.Step first dim l v ns r') : Nested first dim start r'

theorem Nested.consistent {r₀ : Rows} (h₀ : r₀.Consistent first dim)
    (h : Nested first dim r₀ r) : r.Consistent first dim := by
  induction h with
  | start => exact h₀
  | step _ ha hs ih => exact hs.consistent ih ha

/-- Taking back never leads to a new state. -/
theorem Reachable.nested {r₀ : Rows} (h₀ : r₀.Consistent first dim) (hhistory : r₀.history = [])
    (h : Reachable r₀ r) : Nested first dim r₀ r := by
  induction h with
  | start => exact .start
  | condition _ ha hrun ih =>
      rcases condition_step (ih.consistent h₀) ha with h | ⟨_, _, _, _, _, h, -, hs⟩
      · cases hrun.symm.trans h
        exact ih
      · cases hrun.symm.trans h
        exact .step ih ha hs
  | undo _ ih =>
      cases ih with
      | start =>
          rw [Rows.undo, hhistory]
          exact .start
      | step h ha hs =>
          rw [hs.undo_eq (h.consistent h₀) ha]
          exact h

/-- In every state that an engine can reach, the number of pending rows is right, and what a
literal does that may be conditioned on is undone exactly by taking it back. -/
theorem undo_condition {options : EncodingOptions} {net : Network} {e : Encoding} {f : Factor}
    {owner : Variable} {determinism : Bool} {r₀ : Rows}
    (he : Encoding.ofNetwork options net = .ok e) (hf : e.factor owner = .ok f)
    (hstart : start f e.literalVariables determinism = .ok r₀) (hr : Reachable r₀ r) :
    r.pending = r.resolvedBy.count 0 ∧ ∀ l, r.Allows l →
      ∃ found ws r', r.condition l = .ok (found, ws, r') ∧
        (found = .redundant → r' = r) ∧ (found ≠ .redundant → r'.undo = r) := by
  have hfresh := (start_ok hstart).1
  have htable := table_start (Encoding.laid_factor he hf).1 hstart
  have h₀ := consistent_start htable hfresh
  have h := (hr.nested h₀ hfresh.history).consistent h₀
  refine ⟨h.balanced, fun l ha => ?_⟩
  rcases condition_step h ha with hrun | ⟨found, ws, r', v, ns, hrun, hfound, hs⟩
  · exact ⟨_, _, _, hrun, fun _ => rfl, fun hne => absurd rfl hne⟩
  · exact ⟨_, _, _, hrun, fun hredundant => absurd hredundant hfound, fun _ => hs.undo_eq h ha⟩

/-- Every literal may be conditioned on at the start if all variables have values. -/
theorem Fresh.allows (h : r.Fresh) (ht : r.Table first dim) (hpos : ∀ u ∈ r.scope, 0 < dim u) :
    r.Allows l := by
  refine ⟨fun m hm => ?_, fun v hl => ?_⟩
  · rw [heads, h.history] at hm
    cases hm
  · obtain ⟨u, -, hu⟩ := position?_eq_some hl
    rw [h.valuesLeft, ht.dims, Array.getD_eq_getD_getElem?]
    simpa [hu] using hpos u (List.mem_of_getElem? hu)

/-- After the first coin has fallen on its first side, whatever the second coin is conditioned on
can be taken back. -/
theorem undo_condition_twoCoins : ∃ e f r₀ found ws r₁,
    Encoding.ofNetwork ⟨true, false⟩ twoCoins = .ok e ∧ e.factor 1 = .ok f ∧
    start f e.literalVariables true = .ok r₀ ∧ r₀.condition ⟨1, by decide⟩ = .ok (found, ws, r₁) ∧
    r₁.pending = r₁.resolvedBy.count 0 ∧ ∀ l, r₁.Allows l →
      ∃ found ws r', r₁.condition l = .ok (found, ws, r') ∧
        (found = .redundant → r' = r₁) ∧ (found ≠ .redundant → r'.undo = r₁) := by
  obtain ⟨e, he, -⟩ := Encoding.ofNetwork_spec ⟨true, false⟩ wellFormed_twoCoins
  obtain ⟨f, r₀, hf, hstart⟩ := start_wellFormed (v := 1) true wellFormed_twoCoins he
    (by decide)
  obtain ⟨hlaid, -, hlt⟩ := Encoding.laid_factor he hf
  obtain ⟨hfresh, -, -, -, hscope, -⟩ := start_ok hstart
  have ha : r₀.Allows ⟨1, by decide⟩ := hfresh.allows (table_start hlaid hstart) fun u hu =>
    wellFormed_twoCoins.dim_pos (hlt u (hscope ▸ hu))
  obtain ⟨-, hall⟩ := undo_condition he hf hstart .start
  obtain ⟨found, ws, r₁, hrun, -⟩ := hall _ ha
  exact ⟨e, f, r₀, found, ws, r₁, he, hf, hstart, hrun,
    undo_condition he hf hstart (.condition .start ha hrun)⟩

end BayesCircuit.Decision.Rows
