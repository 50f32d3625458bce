import BayesCircuit.Proofs.Rows.Pending

/-!
# What conditioning finds

While rows are pending, a positive literal leaves rows that agree with it, or it is that of the
last variable: then it completes the one row that agrees with everything
(`Running.completed_singleton`), and what is left is decided by the weight of that row. A negative
literal is impossible if its value is the last one of its variable, and otherwise leaves rows
pending (`Running.low`).
-/

namespace BayesCircuit.Decision.Rows

variable {r r' : Rows} {l m : Literal} {first dim : Variable → Nat} {u v : Nat}
variable {ρ σ : Variable → Nat} {s s' : Findings} {rows : List Nat} {entry : List Literal}

/-- The state of an engine over a table of different variables. -/
structure Running (r : Rows) (first dim : Variable → Nat) : Prop where
  full : r.Full first dim
  consistent : r.Consistent first dim
  exact : r.Exact first dim

theorem Step.running {ns : List Literal} (hs : r.Step first dim l v ns r')
    (h : r.Running first dim) (ha : r.Allows l) : r'.Running first dim :=
  ⟨hs.full h.full, hs.consistent h.consistent ha, hs.exact h.full h.consistent h.exact ha⟩

/-- An assignment whose row is pending. -/
structure Open (r : Rows) (dim ρ : Variable → Nat) : Prop where
  assigns : Assigns r.scope dim ρ
  pending : (r.cell (r.rowOf dim ρ)).resolver = 0

theorem Running.pending_pos_iff (h : r.Running first dim) :
    0 < r.pending ↔ ∃ ρ, r.Open dim ρ := by
  rw [h.consistent.balanced, Array.count_pos_iff]
  constructor
  · intro hmem
    obtain ⟨row, hrow, hzero⟩ := Array.mem_iff_getElem.1 hmem
    obtain ⟨ρ, hρ, rfl⟩ := h.full.exists_row row (h.consistent.resolvedBy_size ▸ hrow)
    refine ⟨ρ, hρ, ?_⟩
    simp [cell, Array.getD_eq_getD_getElem?, hrow, hzero]
  · rintro ⟨ρ, hρ, hpending⟩
    have hrow := h.full.row_lt ρ hρ
    rw [← h.consistent.resolvedBy_size] at hrow
    refine Array.mem_iff_getElem.2 ⟨_, hrow, ?_⟩
    simpa [cell, Array.getD_eq_getD_getElem?, hrow] using hpending

/-! ## Findings -/

theorem findings_negative (hl : l.isNegative = true)
    (h : propagate l rows r s = .ok (r', s')) : s' = s := by
  induction rows generalizing r with
  | nil =>
      cases h
      rfl
  | cons row rows ih =>
      rw [propagate, if_pos hl] at h
      exact ih h

theorem findings_negatives (hneg : ∀ m ∈ entry, m.isNegative = true)
    (h : propagateAll entry r s = .ok (r', s')) : s' = s := by
  induction entry generalizing r s with
  | nil =>
      cases h
      rfl
  | cons l entry ih =>
      obtain ⟨hl, hrest⟩ := List.forall_mem_cons.1 hneg
      obtain ⟨⟨r₁, s₁⟩, hrun, h⟩ := Outcome.bind_eq_ok_iff.1 h
      rw [ih hrest h, findings_negative hl hrun]

/-- A positive literal adds the rows that it completes, in their order. -/
theorem findings_positive (hl : l.isNegative = false) (hnodup : rows.Nodup)
    (hb : r.InBounds rows)
    (hk : ∀ row, (r.cell row).resolver = 0 → rows.count row ≤ (r.cell row).missing)
    (h : propagate l rows r s = .ok (r', s')) :
    s' = (rows.filter fun row => (r.cell row).Completes).foldl
      (fun s row => s.complete r.determinism (r.weights.getD row 0)) s := by
  induction rows generalizing r s with
  | nil =>
      cases h
      rfl
  | cons row rows ih =>
      obtain ⟨⟨hmissing, hrow⟩, hb'⟩ := List.forall_mem_cons.1 hb
      obtain ⟨hnot, hnodup'⟩ := List.nodup_cons.1 hnodup
      have hpos : r.resolvedBy.getD row 0 = 0 → 0 < r.missing.getD row 0 := by
        intro hpending
        have := hk row hpending
        rw [count_cons_eq, if_pos rfl] at this
        exact Nat.lt_of_lt_of_le (by omega) this
      obtain ⟨r₁, hadvance, hmoved⟩ := advance_eq (s := s) hl hmissing hrow hpos
      rw [propagate, if_neg (by simp [hl]), hadvance] at h
      have hsame : r₁.determinism = r.determinism ∧ r₁.weights = r.weights := by
        rw [hmoved.rest]
        exact ⟨rfl, rfl⟩
      have hother : ∀ σ ∈ rows, r₁.cell σ = r.cell σ := by
        intro σ hσ
        have hne : σ ≠ row := fun he => hnot (he ▸ hσ)
        rw [hmoved.cell, if_neg hne, Cell.touch_zero]
      have hk₁ : ∀ σ, (r₁.cell σ).resolver = 0 → rows.count σ ≤ (r₁.cell σ).missing := by
        intro σ hσ
        rw [hmoved.cell] at hσ ⊢
        refine Cell.le_missing_touch hσ fun h => ?_
        rw [← count_cons_eq]
        exact hk σ h
      rw [ih hnodup' (hmoved.inBounds hb') hk₁ h, hsame.1, hsame.2]
      have hfilter : rows.filter (fun σ => decide (r₁.cell σ).Completes) =
          rows.filter fun σ => decide (r.cell σ).Completes :=
        List.filter_congr fun σ hσ => by rw [hother σ hσ]
      rw [hfilter]
      by_cases hc : (r.cell row).Completes
      · rw [if_pos hc, List.filter_cons_of_pos (by simpa using hc), List.foldl_cons]
      · rw [if_neg hc, List.filter_cons_of_neg (by simpa using hc)]

/-- What is found for a positive literal, whatever rows it completes. -/
theorem foldl_complete_found {determinism : Bool} {weights : Nat → Weight}
    (h : s.found = .satisfiable ∨ s.found = .unsatisfiable) :
    (rows.foldl (fun s row => s.complete determinism (weights row)) s).found = .satisfiable ∨
      (rows.foldl (fun s row => s.complete determinism (weights row)) s).found =
        .unsatisfiable := by
  induction rows generalizing s with
  | nil => exact h
  | cons row rows ih =>
      refine ih (s := s.complete determinism (weights row)) ?_
      unfold Findings.complete
      split
      · refine Or.inr ?_
        rcases h with h | h <;> rw [h] <;> rfl
      · split <;> exact h

/-! ## Positive literals -/

/-- The rows that have a literal and miss nothing else. -/
def completed (r : Rows) (l : Literal) : List Nat :=
  (r.rowsOf.getD l.index []).filter fun row => (r.cell row).Completes

theorem Running.rows_nodup (h : r.Running first dim) (hl : l.index < r.rowsOf.size) :
    (r.rowsOf.getD l.index []).Nodup := by
  refine List.nodup_iff_count_le_one.2 fun row => ?_
  by_cases hrow : row < r.weights.size
  · obtain ⟨ρ, hρ, rfl⟩ := h.full.exists_row row hrow
    have := h.full.uses ρ hρ l hl
    rw [uses] at this
    rw [this]
    split <;> omega
  · rw [List.count_eq_zero.2 fun hmem => hrow (h.consistent.table.row_lt _ hl row hmem)]
    exact Nat.zero_le 1

/-- A positive literal that matters: what is found is up to the rows that it completes. -/
theorem Running.high (h : r.Running first dim) (ha : r.Allows l) (hl : r.position? l = some v)
    (hfree : r.chosen.getD v false = false) (hpos : l.isNegative = false) :
    ∃ (ns : List Literal) (s' : Findings) (r' : Rows),
      r.condition l = .ok (s'.outcome r', s'.weights.mergeSort, r') ∧
      r.Step first dim l v ns r' ∧
      s' = (r.completed l).foldl
        (fun (s : Findings) row => s.complete r.determinism (r.weights.getD row 0))
        ⟨.satisfiable, []⟩ := by
  obtain ⟨ns, s', r', hrun, -, hs, hpropagate⟩ := condition_matters h.consistent ha hl hfree
  refine ⟨ns, s', r', hrun, hs, ?_⟩
  have hlt := (h.consistent.index_lt hl).2.1
  have hfits := hs.excludes.fits h.consistent ha hl hfree
  obtain ⟨_, _, _, heq⟩ := imposed_eq (r := r) (l := l) (v := v)
  rw [heq, imposedFound, if_neg (by simp [hpos])] at hpropagate
  obtain ⟨⟨r₁, s₁⟩, hfirst, hrest⟩ := Outcome.bind_eq_ok_iff.1 hpropagate
  rw [findings_negatives hfits.tail hrest]
  refine (findings_positive hpos ?_ ?_ ?_ hfirst).trans rfl
  · exact h.rows_nodup hlt
  · exact hfits.inBounds l (List.mem_cons_self ..)
  · exact hfits.missing l (List.mem_cons_self ..) hpos

/-- As long as other variables are undecided, no row is completed. -/
theorem Running.completed_nil (h : r.Running first dim) (hl : l.index < r.rowsOf.size)
    (hdecided : r.decided + 1 < r.scope.length) : r.completed l = [] := by
  refine List.filter_eq_nil_iff.2 fun row hrow hc => ?_
  have hlt := h.consistent.table.row_lt l.index hl row hrow
  obtain ⟨ρ, hρ, rfl⟩ := h.full.exists_row row hlt
  obtain ⟨hpending, hmissing⟩ := of_decide_eq_true hc
  have := h.exact.missing_eq h.full h.consistent hρ hpending
  omega

/-- At the last variable, the literals of a pending row are given. -/
theorem Running.rowOf_eq (h : r.Running first dim)
    (ha : r.Allows l) (hdecided : r.decided + 1 = r.scope.length) (hρ : r.Open dim ρ)
    (hσ : r.Open dim σ) (hshowsρ : Shows r.scope first ρ l.index)
    (hshowsσ : Shows r.scope first σ l.index) : r.rowOf dim ρ = r.rowOf dim σ := by
  let given := l.index :: (r.heads.filter (!·.isNegative)).map Literal.index
  have hgiven : ∀ {τ}, r.Open dim τ → Shows r.scope first τ l.index →
      ∀ n ∈ given, Shows r.scope first τ n := by
    intro τ hτ hshows
    refine List.forall_mem_cons.2 ⟨hshows, fun n hn => ?_⟩
    obtain ⟨m, hm, rfl⟩ := List.mem_map.1 hn
    obtain ⟨hm, hpos⟩ := List.mem_filter.1 hm
    exact (((h.exact.pending_iff τ hτ.assigns).1 hτ.pending).1 m hm).2 (by simpa using hpos)
  have hnodup : given.Nodup := by
    refine List.nodup_cons.2 ⟨fun hmem => ?_, h.consistent.nodup.sublist (List.filter_sublist.map _)⟩
    obtain ⟨m, hm, hindex⟩ := List.mem_map.1 hmem
    exact ha.fresh m (List.mem_filter.1 hm).1 hindex
  -- the given literals are as many as the row of `σ` has, so they are all it has
  have hperm : given.Perm (r.scope.map fun u => first u + σ u) := by
    refine (hnodup.subperm fun n hn => ?_).perm_of_length_le ?_
    · obtain ⟨u, hu, rfl⟩ := hgiven hσ hshowsσ n hn
      exact List.mem_map_of_mem hu
    · rw [List.length_map, List.length_cons, List.length_map, ← decided]
      omega
  rw [rowOf, rowOf]
  congr 1
  refine List.map_congr_left fun u hu => ?_
  have hmem : first u + σ u ∈ given := hperm.mem_iff.2 (List.mem_map_of_mem hu)
  have hshows := hgiven hρ hshowsρ _ hmem
  have hσu := hσ.assigns u hu
  have := (h.consistent.table.shows_iff hρ.assigns hu (by omega) (by omega)).1 hshows
  omega

/-- At the last variable, a literal completes the pending row that has it. -/
theorem Running.completed_singleton (h : r.Running first dim) (hl : l.index < r.rowsOf.size)
    (ha : r.Allows l) (hdecided : r.decided + 1 = r.scope.length) (hσ : r.Open dim σ)
    (hshows : Shows r.scope first σ l.index) : r.completed l = [r.rowOf dim σ] := by
  have hmem : r.rowOf dim σ ∈ r.completed l := by
    refine List.mem_filter.2 ⟨?_, decide_eq_true ⟨hσ.pending, ?_⟩⟩
    · have := h.full.uses σ hσ.assigns l hl
      rw [if_pos hshows] at this
      exact List.count_pos_iff.1 (by rw [← uses, this]; exact Nat.zero_lt_one)
    · have := h.exact.missing_eq h.full h.consistent hσ.assigns hσ.pending
      omega
  have hall : ∀ row ∈ r.completed l, row = r.rowOf dim σ := by
    intro row hrow
    obtain ⟨hrow, hc⟩ := List.mem_filter.1 hrow
    obtain ⟨ρ, hρ, rfl⟩ := h.full.exists_row row (h.consistent.table.row_lt l.index hl row hrow)
    obtain ⟨hpending, -⟩ := of_decide_eq_true hc
    refine h.rowOf_eq ha hdecided ⟨hρ, hpending⟩ hσ ?_ hshows
    by_contra hnot
    have huses := h.full.uses ρ hρ l hl
    rw [if_neg hnot] at huses
    exact absurd (List.count_pos_iff.2 hrow) (by rw [← uses, huses]; exact Nat.lt_irrefl 0)
  have hnodup : (r.completed l).Nodup := (h.rows_nodup hl).filter _
  have hperm : [r.rowOf dim σ].Perm (r.completed l) :=
    (List.perm_ext_iff_of_nodup (List.nodup_singleton _) hnodup).2 fun row => by
      rw [List.mem_singleton]
      exact ⟨fun he => he ▸ hmem, hall row⟩
  exact List.singleton_perm.1 hperm |>.symm

/-! ## Negative literals -/

theorem exists_mem_ne {xs : List Nat} {d : Nat} (hnodup : xs.Nodup) (hlen : 1 < xs.length) :
    ∃ d' ∈ xs, d' ≠ d := by
  by_contra hall
  push Not at hall
  have hle := (hnodup.subperm fun d' hd' => List.mem_singleton.2 (hall d' hd')).length_le
  rw [List.length_singleton] at hle
  omega

/-- An undecided variable may have any of its values that are left. -/
theorem Running.open_update (h : r.Running first dim) {d : Nat} (hu : r.scope[v]? = some u)
    (hfree : r.chosen.getD v false = false) (hρ : r.Open dim ρ)
    (hd : d ∈ r.unconstrained first dim u) : r.Open dim (Function.update ρ u d) := by
  obtain ⟨hdlt, hdfree⟩ := List.mem_filter.1 hd
  rw [List.mem_range] at hdlt
  have hσ : Assigns r.scope dim (Function.update ρ u d) := by
    intro w hw
    by_cases hwu : w = u
    · subst hwu
      rw [Function.update_self]
      exact hdlt
    · rw [Function.update_of_ne hwu]
      exact hρ.assigns w hw
  obtain ⟨hagrees, hdecided⟩ := (h.exact.pending_iff ρ hρ.assigns).1 hρ.pending
  refine ⟨hσ, (h.exact.pending_iff _ hσ).2 ⟨fun m hm => ?_, hdecided⟩⟩
  obtain ⟨hconstrained, w, hw, hchosen⟩ := h.exact.head m hm
  obtain ⟨u', hvar', hu'⟩ := position?_eq_some hw
  have hmem' := List.mem_of_getElem? hu'
  obtain ⟨hle', hlt'⟩ := (h.consistent.table.literal u' hmem' m.index (index_pos m)).1 hvar'
  have hm := hagrees m hm
  rw [h.consistent.table.shows_iff hρ.assigns hmem' hle' hlt'] at hm
  rw [h.consistent.table.shows_iff hσ hmem' hle' hlt']
  by_cases hu'u : u' = u
  · -- the new value has not been conditioned on, and the variable is not decided
    subst hu'u
    have hwv := h.consistent.table.position?_run h.full.nodup hu hle' hlt'
    obtain rfl := Option.some.inj (hw.symm.trans hwv)
    rw [Function.update_self]
    refine iff_of_false (fun he => ?_) fun hpos => ?_
    · rw [he] at hconstrained
      simp [hconstrained] at hdfree
    · rw [hfree] at hchosen
      cases hchosen hpos
  · rw [Function.update_of_ne hu'u]
    exact hm

/-- If a variable has two values left, some pending row has another one than a given one. -/
theorem Running.exists_open_ne (h : r.Running first dim) (hl : r.position? l = some v)
    (hfree : r.chosen.getD v false = false) (hleft : 1 < r.valuesLeft.getD v 0)
    (hρ : r.Open dim ρ) : ∃ σ, r.Open dim σ ∧ ¬ Shows r.scope first σ l.index := by
  obtain ⟨u, hvar, hu⟩ := position?_eq_some hl
  have hmem := List.mem_of_getElem? hu
  obtain ⟨hle, hlt⟩ := (h.consistent.table.literal u hmem l.index (index_pos l)).1 hvar
  rw [h.exact.left v u hu hfree] at hleft
  obtain ⟨d, hd, hne⟩ := exists_mem_ne (d := l.index - first u) (List.nodup_range.filter _) hleft
  have hσ := h.open_update hu hfree hρ hd
  refine ⟨_, hσ, ?_⟩
  rw [h.consistent.table.shows_iff hσ.assigns hmem hle hlt, Function.update_self]
  omega

/-- A negative literal is impossible or leaves rows pending. -/
theorem Running.low (h : r.Running first dim) (ha : r.Allows l) (hl : r.position? l = some v)
    (hfree : r.chosen.getD v false = false) (hneg : l.isNegative = true) (hρ : r.Open dim ρ) :
    ∃ (ns : List Literal) (ws : Weights) (r' : Rows), r.condition l =
        .ok (if r.valuesLeft.getD v 0 = 1 then .unsatisfiable else .unsatisfied, ws, r') ∧
      r.Step first dim l v ns r' ∧ (r.valuesLeft.getD v 0 ≠ 1 → 0 < r'.pending) := by
  obtain ⟨ns, s', r', hrun, -, hs, hpropagate⟩ := condition_matters h.consistent ha hl hfree
  have hfits := hs.excludes.fits h.consistent ha hl hfree
  have hleft := ha.left v hl
  have hs' : s' = ⟨r.imposedFound l v, []⟩ :=
    findings_negatives (List.forall_mem_cons.2 ⟨hneg, hfits.tail⟩) hpropagate
  have houtcome : s'.outcome r' =
      if r.valuesLeft.getD v 0 = 1 then .unsatisfiable else .unsatisfied := by
    have hzero : (r.valuesLeft.getD v 0 - 1 == 0) = decide (r.valuesLeft.getD v 0 = 1) := by
      rw [Bool.beq_eq_decide_eq]
      exact decide_eq_decide.2 (by omega)
    rw [hs', Findings.outcome, imposedFound, if_pos hneg, hzero]
    by_cases hone : r.valuesLeft.getD v 0 = 1 <;> by_cases hpending : (r'.pending == 0) = true <;>
      simp only [hone, hpending, decide_true, decide_false, if_true, if_false] <;> rfl
  rw [houtcome] at hrun
  refine ⟨ns, _, r', hrun, hs, fun hne => ?_⟩
  obtain ⟨σ, hσ, hshows⟩ := h.exists_open_ne hl hfree (by omega) hρ
  refine (hs.running h ha).pending_pos_iff.2 ⟨σ, ?_, ?_⟩
  · rw [hs.same.2.2.1]
    exact hσ.assigns
  · rw [hs.pending_iff h.full h.consistent h.exact hσ.assigns, if_pos hneg]
    exact ⟨hσ.pending, hshows⟩

end BayesCircuit.Decision.Rows
