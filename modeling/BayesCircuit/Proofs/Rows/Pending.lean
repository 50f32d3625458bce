import BayesCircuit.Proofs.Rows.Undo

/-!
# Which rows are pending

In a table over different variables every row is that of an assignment, and it has exactly the
literals of the values that this gives (`Full`). While a variable has no value yet, the pending rows
are those that agree with all literals that have been conditioned on (`Exact`). So a positive
literal completes a row only when it is that of the last variable, and then one row at most; and as
long as a variable has two values left, excluding one of them leaves a row pending.
-/

namespace BayesCircuit.Decision.Rows

variable {r r' : Rows} {l m : Literal} {first dim : Variable → Nat} {u v w : Nat}
variable {ρ σ : Variable → Nat} {f : Factor} {literalVariables : Array Variable}
variable {determinism : Bool}

/-- An assignment gives each variable of a table one of its values. -/
def Assigns (scope : List Variable) (dim ρ : Variable → Nat) : Prop := ∀ u ∈ scope, ρ u < dim u

/-- The row of an assignment. -/
def rowOf (r : Rows) (dim ρ : Variable → Nat) : Nat :=
  Counter.number (r.scope.map dim) (r.scope.map ρ)

/-- A number is that of the literal of a value that an assignment gives. -/
def Shows (scope : List Variable) (first ρ : Variable → Nat) (n : Nat) : Prop :=
  ∃ u ∈ scope, n = first u + ρ u

instance (scope : List Variable) (first ρ : Variable → Nat) (n : Nat) :
    Decidable (Shows scope first ρ n) := inferInstanceAs (Decidable (∃ u ∈ scope, _))

/-- The rows of a table over different variables are those of the assignments. -/
structure Full (r : Rows) (first dim : Variable → Nat) : Prop where
  nodup : r.scope.Nodup
  row_lt : ∀ ρ, Assigns r.scope dim ρ → r.rowOf dim ρ < r.weights.size
  exists_row : ∀ row < r.weights.size, ∃ ρ, Assigns r.scope dim ρ ∧ r.rowOf dim ρ = row
  uses : ∀ ρ, Assigns r.scope dim ρ → ∀ l : Literal, l.index < r.rowsOf.size →
    r.uses l (r.rowOf dim ρ) = if Shows r.scope first ρ l.index then 1 else 0

/-! ## Literals of assignments -/

/-- The runs of two variables are apart. -/
theorem Table.eq_of_run (ht : r.Table first dim) {n : Nat} (hu : u ∈ r.scope) (hw : w ∈ r.scope)
    (hle : first u ≤ n) (hlt : n < first u + dim u) (hle' : first w ≤ n)
    (hlt' : n < first w + dim w) : u = w := by
  have hn : 0 < n := Nat.lt_of_lt_of_le (ht.first_pos u hu) hle
  exact Option.some.inj (((ht.literal u hu n hn).2 ⟨hle, hlt⟩).symm.trans
    ((ht.literal w hw n hn).2 ⟨hle', hlt'⟩))

/-- An assignment shows one literal of each variable. -/
theorem Table.shows_iff (ht : r.Table first dim) (hρ : Assigns r.scope dim ρ) (hu : u ∈ r.scope)
    {n : Nat} (hle : first u ≤ n) (hlt : n < first u + dim u) :
    Shows r.scope first ρ n ↔ n = first u + ρ u := by
  constructor
  · rintro ⟨w, hw, rfl⟩
    have hρw := hρ w hw
    rw [ht.eq_of_run hu hw hle hlt (Nat.le_add_right ..) (by omega)]
  · exact fun h => ⟨u, hu, h⟩

theorem full_start {r : Rows} (hlaid : f.Laid literalVariables first dim)
    (hnodup : f.scope.Nodup) (hpos : ∀ u ∈ f.scope, 0 < dim u)
    (h : start f literalVariables determinism = .ok r) : r.Full first dim := by
  have htable := table_start hlaid h
  obtain ⟨-, hlists, -, -, hscope, -, -, -⟩ := start_ok h
  have hdims : ∀ d ∈ f.scope.map dim, 0 < d := by
    intro d hd
    obtain ⟨u, hu, rfl⟩ := List.mem_map.1 hd
    exact hpos u hu
  have hwalk : f.counter.walk =
      (List.range (f.scope.map dim).prod).map fun n => ⟨Counter.wheelsOf (f.scope.map dim) n⟩ := by
    rw [Factor.counter, hlaid.dims, Counter.walk_zero hdims]
  have hsize : r.weights.size = (f.scope.map dim).prod := by
    rw [hlists.weights_size, hwalk]
    simp
  refine ⟨hscope ▸ hnodup, fun ρ hρ => ?_, fun row hrow => ?_, fun ρ hρ l hl => ?_⟩
  · rw [rowOf, hsize, hscope]
    exact Counter.number_lt (Counter.fits_map (hscope ▸ hρ))
  · rw [hsize] at hrow
    have hdigits := (Counter.valid_wheelsOf (n := row) hdims).digit_lt
    rw [Counter.map_radix_wheelsOf] at hdigits
    obtain ⟨ρ, hρ, hlt⟩ := Counter.exists_map_eq hnodup hdigits
    refine ⟨ρ, hscope ▸ hlt, ?_⟩
    rw [rowOf, hscope, hρ, Counter.number_digits_wheelsOf hrow]
  · have hfits := Counter.fits_map (hscope ▸ hρ)
    have hrow : r.rowOf dim ρ < (f.scope.map dim).prod := by
      rw [rowOf, hscope]
      exact Counter.number_lt hfits
    have hliterals : literalsOf f ⟨Counter.wheelsOf (f.scope.map dim) (r.rowOf dim ρ)⟩ =
        f.scope.map fun u => first u + ρ u := by
      rw [literalsOf, Counter.digits, rowOf, hscope, Counter.digits_wheelsOf_number hfits,
        hlaid.firsts]
      rw [List.zipWith_map, List.zipWith_self]
    have hcount := hlists.count l.index hl (r.rowOf dim ρ)
    rw [hwalk, List.getElem?_map, List.getElem?_range hrow, Option.map_some, Option.map_some,
      Option.getD_some, hliterals] at hcount
    rw [uses, hcount]
    have hnodup' : (f.scope.map fun u => first u + ρ u).Nodup := by
      refine List.Nodup.map_on (fun u hu w hw he => ?_) hnodup
      rw [← hscope] at hu hw
      have hρu := hρ u hu
      have hρw := hρ w hw
      exact htable.eq_of_run hu hw (n := first u + ρ u) (by omega) (by omega) (by omega) (by omega)
    rw [hnodup'.count]
    refine if_congr ?_ rfl rfl
    rw [hscope, List.mem_map]
    apply exists_congr
    intro u
    rw [eq_comm]

/-! ## Pending rows -/

/-- The literals of a variable that have not been conditioned on. -/
def unconstrained (r : Rows) (first dim : Variable → Nat) (u : Variable) : List Nat :=
  (List.range (dim u)).filter fun d => !r.constrained.getD (first u + d) false

/-- The number of variables that have a value. -/
def decided (r : Rows) : Nat := (r.heads.filter (!·.isNegative)).length

/-- An assignment agrees with the literals that have been conditioned on. -/
def Agrees (r : Rows) (first ρ : Variable → Nat) : Prop :=
  ∀ m ∈ r.heads, Shows r.scope first ρ m.index ↔ m.isNegative = false

/-- The counters say which rows are pending. -/
structure Exact (r : Rows) (first dim : Variable → Nat) : Prop where
  pending_iff : ∀ ρ, Assigns r.scope dim ρ →
    ((r.cell (r.rowOf dim ρ)).resolver = 0 ↔ r.Agrees first ρ ∧ r.decided < r.scope.length)
  head : ∀ m ∈ r.heads, r.constrained.getD m.index false = true ∧
    ∃ v, r.position? m = some v ∧ (m.isNegative = false → r.chosen.getD v false = true)
  chosen : ∀ v, r.chosen.getD v false = true →
    ∃ m ∈ r.heads, m.isNegative = false ∧ r.position? m = some v
  left : ∀ v u, r.scope[v]? = some u → r.chosen.getD v false = false →
    r.valuesLeft.getD v 0 = (r.unconstrained first dim u).length

theorem exact_start (ht : r.Table first dim) (h : r.Fresh)
    (hscope : r.scope ≠ []) : r.Exact first dim := by
  have hheads : r.heads = [] := by
    rw [heads, h.history]
    rfl
  refine ⟨fun ρ hρ => ?_, fun m hm => ?_, fun v hv => ?_, fun v u hu _ => ?_⟩
  · have hcell : (r.cell (r.rowOf dim ρ)).resolver = 0 := by
      simp only [cell, h.resolvedBy, Array.getD_eq_getD_getElem?, Array.getElem?_replicate]
      split <;> rfl
    refine iff_of_true hcell ⟨fun m hm => ?_, ?_⟩
    · rw [hheads] at hm
      cases hm
    · rw [decided, hheads]
      exact List.length_pos_iff.2 hscope
  · rw [hheads] at hm
    cases hm
  · simp only [h.chosen, Array.getD_eq_getD_getElem?, Array.getElem?_replicate] at hv
    split at hv <;> cases hv
  · have hnone : ∀ i, r.constrained.getD i false = false := fun i => by
      simp only [h.constrained, Array.getD_eq_getD_getElem?, Array.getElem?_replicate]
      split <;> rfl
    rw [h.valuesLeft, ht.dims, Array.getD_eq_getD_getElem?, unconstrained]
    simp [hu, hnone]

/-- The literals of a variable are those of its position. -/
theorem Table.position?_run (ht : r.Table first dim) (hnodup : r.scope.Nodup)
    (hu : r.scope[v]? = some u) (hle : first u ≤ m.index) (hlt : m.index < first u + dim u) :
    r.position? m = some v := by
  have hmem := List.mem_of_getElem? hu
  have hvar := (ht.literal u hmem _ (index_pos m)).2 ⟨hle, hlt⟩
  have hsome : ∃ w, r.position? m = some w := by
    obtain ⟨last, hlast⟩ : ∃ last, r.scope.reverse.findIdx? (· == u) = some last := by
      rw [← Option.isSome_iff_exists, List.findIdx?_isSome, List.any_eq_true]
      exact ⟨u, List.mem_reverse.2 hmem, beq_self_eq_true u⟩
    refine ⟨r.scope.length - 1 - last, ?_⟩
    rw [position?, hvar]
    simp [hlast]
  obtain ⟨w, hw⟩ := hsome
  obtain ⟨u', hvar', hu'⟩ := position?_eq_some hw
  obtain rfl := Option.some.inj (hvar.symm.trans hvar')
  obtain ⟨hwlt, hget⟩ := List.getElem?_eq_some_iff.1 hu'
  obtain ⟨hvlt, hget'⟩ := List.getElem?_eq_some_iff.1 hu
  rw [hw, (hnodup.getElem_inj_iff).1 (hget.trans hget'.symm)]

section

variable (hfull : r.Full first dim) (h : r.Consistent first dim) (he : r.Exact first dim)

include hfull h he

/-- The literal that a pending row has of an undecided variable has not been conditioned on. -/
theorem Exact.unconstrained_of_pending (hρ : Assigns r.scope dim ρ)
    (hpending : (r.cell (r.rowOf dim ρ)).resolver = 0) (hu : r.scope[v]? = some u)
    (hfree : r.chosen.getD v false = false) :
    r.constrained.getD (first u + ρ u) false = false := by
  by_contra hne
  obtain ⟨m, hm, hindex⟩ := h.constrained _ (by simpa using hne)
  have hmem := List.mem_of_getElem? hu
  have hshows : Shows r.scope first ρ m.index := ⟨u, hmem, hindex⟩
  have hpos := (((he.pending_iff ρ hρ).1 hpending).1 m hm).1 hshows
  obtain ⟨-, w, hw, hchosen⟩ := he.head m hm
  have hρu := hρ u hmem
  have hv := h.table.position?_run hfull.nodup hu (m := m) (by omega) (by omega)
  obtain rfl := Option.some.inj (hv.symm.trans hw)
  rw [hfree] at hchosen
  cases hchosen hpos

/-- A pending row misses one literal for each undecided variable. -/
theorem Exact.missing_eq (hρ : Assigns r.scope dim ρ)
    (hpending : (r.cell (r.rowOf dim ρ)).resolver = 0) :
    (r.cell (r.rowOf dim ρ)).missing + r.decided = r.scope.length := by
  have hmissing := h.missing _ (hfull.row_lt ρ hρ) hpending
  have hagrees := ((he.pending_iff ρ hρ).1 hpending).1
  have hsum : ((r.heads.filter (!·.isNegative)).map (r.uses · (r.rowOf dim ρ))).sum =
      r.decided := by
    have hone : (r.heads.filter (!·.isNegative)).map (r.uses · (r.rowOf dim ρ)) =
        (r.heads.filter (!·.isNegative)).map fun _ => 1 := by
      refine List.map_congr_left fun m hm => ?_
      obtain ⟨hm, hpos⟩ := List.mem_filter.1 hm
      rw [hfull.uses ρ hρ m (h.heads_lt m hm), if_pos ((hagrees m hm).2 (by simpa using hpos))]
    rw [hone, decided]
    simp
  omega

omit hfull h

/-- Some variable has no value yet, if fewer have than there are. -/
theorem Exact.exists_undecided (hdecided : r.decided < r.scope.length) :
    ∃ v < r.scope.length, r.chosen.getD v false = false := by
  by_contra hall
  push Not at hall
  have hsub : List.range r.scope.length ⊆
      (r.heads.filter (!·.isNegative)).map fun m => (r.position? m).getD 0 := by
    intro v hv
    obtain ⟨m, hm, hpos, hposition⟩ := he.chosen v (by simpa using hall v (List.mem_range.1 hv))
    exact List.mem_map.2 ⟨m, List.mem_filter.2 ⟨hm, by simp [hpos]⟩, by rw [hposition]; rfl⟩
  have hle := (List.nodup_range.subperm hsub).length_le
  rw [List.length_range, List.length_map, ← decided] at hle
  omega

end

/-! ## Steps -/

theorem Step.heads_eq {ns : List Literal} (hs : r.Step first dim l v ns r') :
    r'.heads = l :: r.heads := by
  rw [heads, show r'.history = (l :: ns) :: r.history by rw [hs.moved.rest]]
  rfl

theorem Step.cell_eq {ns : List Literal} (hs : r.Step first dim l v ns r') (row : Nat) :
    r'.cell row = (r.cell row).touchAll (r.uses · row) (l :: ns) := by
  obtain ⟨_, _, _, heq⟩ := imposed_eq (r := r) (l := l) (v := v)
  have hmoved := hs.moved
  rw [heq] at hmoved
  exact hmoved.cell row

/-- What a step does not change. -/
theorem Step.same {ns : List Literal} (hs : r.Step first dim l v ns r') :
    r'.determinism = r.determinism ∧ r'.literalVariables = r.literalVariables ∧
      r'.scope = r.scope ∧ r'.weights = r.weights ∧ r'.rowsOf = r.rowsOf := by
  obtain ⟨_, _, _, heq⟩ := imposed_eq (r := r) (l := l) (v := v)
  have hrest := hs.moved.rest
  rw [heq] at hrest
  rw [hrest]
  exact ⟨rfl, rfl, rfl, rfl, rfl⟩

/-- What a step changes besides the rows. -/
theorem Step.imposed_fields {ns : List Literal} (hs : r.Step first dim l v ns r') :
    r'.constrained = (r.imposed l v).constrained ∧ r'.chosen = (r.imposed l v).chosen ∧
      r'.valuesLeft = (r.imposed l v).valuesLeft := by
  rw [hs.moved.rest]
  exact ⟨rfl, rfl, rfl⟩

theorem Step.agrees_iff {ns : List Literal} (hs : r.Step first dim l v ns r') :
    r'.Agrees first ρ ↔
      (Shows r.scope first ρ l.index ↔ l.isNegative = false) ∧ r.Agrees first ρ := by
  rw [Agrees, hs.heads_eq, List.forall_mem_cons, hs.same.2.2.1, ← Agrees]

theorem Step.decided_eq {ns : List Literal} (hs : r.Step first dim l v ns r') :
    r'.decided = r.decided + if l.isNegative then 0 else 1 := by
  rw [decided, hs.heads_eq, decided]
  by_cases hn : l.isNegative = true
  · rw [if_pos hn, List.filter_cons_of_neg (by simp [hn]), Nat.add_zero]
  · rw [if_neg hn, List.filter_cons_of_pos (by simpa using hn), List.length_cons]

theorem Step.position?_eq {ns : List Literal} (hs : r.Step first dim l v ns r') (m : Literal) :
    r'.position? m = r.position? m := by
  obtain ⟨-, hvariables, hscope, -⟩ := hs.same
  rw [position?, position?, hvariables, hscope]

theorem Step.full {ns : List Literal} (hs : r.Step first dim l v ns r')
    (hfull : r.Full first dim) : r'.Full first dim := by
  obtain ⟨-, -, hscope, hweights, hrowsOf⟩ := hs.same
  have hrow : ∀ ρ, r'.rowOf dim ρ = r.rowOf dim ρ := fun ρ => by rw [rowOf, rowOf, hscope]
  refine ⟨hscope ▸ hfull.nodup, fun ρ hρ => ?_, fun row hrow' => ?_, fun ρ hρ m hm => ?_⟩
  · rw [hrow, hweights]
    exact hfull.row_lt ρ (hscope ▸ hρ)
  · rw [hweights] at hrow'
    obtain ⟨ρ, hρ, heq⟩ := hfull.exists_row row hrow'
    exact ⟨ρ, hscope ▸ hρ, (hrow ρ).trans heq⟩
  · rw [uses, hrowsOf, hrow, hscope]
    rw [hrowsOf] at hm
    exact hfull.uses ρ (hscope ▸ hρ) m hm

/-- Which rows are pending after a step. -/
theorem Step.pending_iff {ns : List Literal} (hs : r.Step first dim l v ns r')
    (hfull : r.Full first dim) (h : r.Consistent first dim) (he : r.Exact first dim)
    (hρ : Assigns r.scope dim ρ) :
    (r'.cell (r'.rowOf dim ρ)).resolver = 0 ↔ (r.cell (r.rowOf dim ρ)).resolver = 0 ∧
      if l.isNegative then ¬ Shows r.scope first ρ l.index
      else Shows r.scope first ρ l.index ∧ r.decided + 1 < r.scope.length := by
  have hrow : r'.rowOf dim ρ = r.rowOf dim ρ := by rw [rowOf, rowOf, hs.same.2.2.1]
  have hlt := (h.index_lt hs.position).2.1
  obtain ⟨u, -, hu⟩ := position?_eq_some hs.position
  have hmem := List.mem_of_getElem? hu
  rw [hrow, hs.cell_eq, Cell.touchAll_cons, Cell.touchAll_pending_iff fun m hm =>
    (hs.excludes.unmarked h hs.position hs.free hm).2.2, hfull.uses ρ hρ l hlt]
  by_cases hn : l.isNegative = true
  · have hns : ∀ m ∈ ns, r.uses m (r.rowOf dim ρ) = 0 := fun m hm => by
      have := ((hs.excludes.2 u hu m).1 hm).1
      rw [hn] at this
      cases this
    rw [if_pos hn, and_iff_left hns]
    by_cases hshows : Shows r.scope first ρ l.index
    · rw [if_pos hshows]
      exact iff_of_false (Cell.touch_negative_ne hn) fun hp => hp.2 hshows
    · rw [if_neg hshows, Cell.touch_zero]
      exact (and_iff_left hshows).symm
  · have hn' : l.isNegative = false := by simpa using hn
    rw [if_neg hn]
    have hrun := h.table.literal u hmem l.index (index_pos l)
    obtain ⟨u', hvar, hu'⟩ := position?_eq_some hs.position
    obtain rfl := Option.some.inj (hu.symm.trans hu')
    obtain ⟨hle, hltu⟩ := hrun.1 hvar
    have hρu := hρ u hmem
    by_cases hshows : Shows r.scope first ρ l.index
    · -- the row has none of the values that are excluded
      have hindex := (h.table.shows_iff hρ hmem hle hltu).1 hshows
      have hns : ∀ m ∈ ns, r.uses m (r.rowOf dim ρ) = 0 := fun m hm => by
        obtain ⟨-, -, hle', hltu', hne, -⟩ := (hs.excludes.2 u hu m).1 hm
        have hpos := (hs.excludes.unmarked h hs.position hs.free hm).2.1
        rw [hfull.uses ρ hρ m (h.index_lt hpos).2.1, if_neg]
        rw [h.table.shows_iff hρ hmem hle' hltu', ← hindex]
        exact hne
      rw [if_pos hshows, and_iff_left hns]
      by_cases hpending : (r.cell (r.rowOf dim ρ)).resolver = 0
      · have hmissing := he.missing_eq hfull h hρ hpending
        rw [Cell.touch_positive_iff hn' hpending]
        refine ⟨fun hlt => ⟨hpending, hshows, by omega⟩, fun ⟨_, _, hlt⟩ => by omega⟩
      · rw [Cell.touch_resolved hpending]
        exact ⟨fun hp => absurd hp hpending, fun hp => absurd hp.1 hpending⟩
    · -- the value that the row has instead is excluded
      rw [if_neg hshows, Cell.touch_zero]
      refine iff_of_false (fun ⟨hpending, hns⟩ => ?_) fun hp => hshows hp.2.1
      have hfirst := h.table.first_pos u hmem
      let m : Literal := ⟨-((first u + ρ u : Nat) : Int), by omega⟩
      have hindex : m.index = first u + ρ u := by
        simp only [m, Literal.index]
        omega
      have hm : m ∈ ns := by
        refine (hs.excludes.2 u hu m).2 ⟨hn', ?_, by omega, by omega, fun heq => ?_, ?_⟩
        · simp only [m, Literal.isNegative]
          exact decide_eq_true (by omega)
        · exact hshows ((h.table.shows_iff hρ hmem hle hltu).2 (heq.symm.trans hindex))
        · rw [hindex]
          exact he.unconstrained_of_pending hfull h hρ hpending hu hs.free
      have hpos := (hs.excludes.unmarked h hs.position hs.free hm).2.1
      have huses := hns m hm
      rw [hfull.uses ρ hρ m (h.index_lt hpos).2.1, if_pos ⟨u, hmem, hindex⟩] at huses
      cases huses

/-- The literals of a variable that have not been conditioned on are fewer after a step. -/
theorem length_filter_remove {n d : Nat} {p q : Nat → Bool} (hd : d < n) (hp : p d = true)
    (hq : ∀ i, q i = (p i && !(i == d))) :
    ((List.range n).filter q).length = ((List.range n).filter p).length - 1 := by
  have hqd : (List.range n).filter q = ((List.range n).filter p).erase d := by
    rw [(List.nodup_range.filter _).erase_eq_filter, List.filter_filter]
    refine List.filter_congr fun i _ => ?_
    rw [hq, Bool.and_comm]
    rfl
  rw [hqd, List.length_erase_of_mem]
  exact List.mem_filter.2 ⟨List.mem_range.2 hd, hp⟩

theorem Step.exact {ns : List Literal} (hs : r.Step first dim l v ns r')
    (hfull : r.Full first dim) (h : r.Consistent first dim) (he : r.Exact first dim)
    (ha : r.Allows l) : r'.Exact first dim := by
  obtain ⟨-, -, hscope, -, -⟩ := hs.same
  obtain ⟨hconstrained, hchosen, hvalues⟩ := hs.imposed_fields
  have hlt := (h.index_lt hs.position).2.2
  have hv := position_lt hs.position
  have hconstrained' := constrained_imposed (v := v) hlt
  have hchosen' := chosen_imposed (l := l) (h.chosen_size ▸ hv)
  rw [← hconstrained] at hconstrained'
  rw [← hchosen] at hchosen'
  refine ⟨fun ρ hρ => ?_, fun m hm => ?_, fun w hw => ?_, fun w u hu hfree => ?_⟩
  · rw [hs.pending_iff hfull h he (hscope ▸ hρ), he.pending_iff ρ (hscope ▸ hρ), hs.decided_eq,
      hs.agrees_iff, hscope]
    by_cases hn : l.isNegative = true
    · simp only [hn, if_true, Bool.true_eq_false, iff_false, Nat.add_zero]
      constructor
      · rintro ⟨⟨hagrees, hlt⟩, hshows⟩
        exact ⟨⟨hshows, hagrees⟩, hlt⟩
      · rintro ⟨⟨hshows, hagrees⟩, hlt⟩
        exact ⟨⟨hagrees, hlt⟩, hshows⟩
    · have hn' : l.isNegative = false := by simpa using hn
      simp only [hn', Bool.false_eq_true, if_false, iff_true]
      constructor
      · rintro ⟨⟨hagrees, -⟩, hshows, hlt⟩
        exact ⟨⟨hshows, hagrees⟩, hlt⟩
      · rintro ⟨⟨hshows, hagrees⟩, hlt⟩
        exact ⟨⟨hagrees, by omega⟩, hshows, hlt⟩
  · rw [hs.heads_eq] at hm
    rw [hconstrained', hs.position?_eq]
    rcases List.mem_cons.1 hm with rfl | hm
    · refine ⟨if_pos rfl, v, hs.position, fun hn => ?_⟩
      rw [hchosen', if_pos ⟨rfl, hn⟩]
    · obtain ⟨hmarked, w, hw, hpos⟩ := he.head m hm
      refine ⟨?_, w, hw, fun hn => ?_⟩
      · rw [hmarked]
        exact ite_self _
      · rw [hchosen', hpos hn]
        exact ite_self _
  · rw [hs.heads_eq]
    rw [hchosen'] at hw
    split at hw
    · rename_i hnew
      exact ⟨l, List.mem_cons_self .., hnew.2, (hs.position?_eq l).trans (hnew.1 ▸ hs.position)⟩
    · obtain ⟨m, hm, hpos, hposition⟩ := he.chosen w hw
      exact ⟨m, List.mem_cons_of_mem _ hm, hpos, (hs.position?_eq m).trans hposition⟩
  · rw [hscope] at hu
    obtain ⟨u₀, hvar, hu₀⟩ := position?_eq_some hs.position
    have hmem := List.mem_of_getElem? hu
    have hrun := (h.table.literal u₀ (List.mem_of_getElem? hu₀) l.index (index_pos l)).1 hvar
    have hfree' : r.chosen.getD w false = false := by
      rw [hchosen'] at hfree
      split at hfree
      · cases hfree
      · exact hfree
    have hleft := he.left w u hu hfree'
    by_cases hw : w = v
    · -- the literal is negative, and its variable has a value less
      subst hw
      obtain rfl := Option.some.inj (hu.symm.trans hu₀)
      have hn : l.isNegative = true := by
        by_contra hn
        rw [hchosen', if_pos ⟨rfl, by simpa using hn⟩] at hfree
        cases hfree
      have hwlt : w < r.valuesLeft.size := h.valuesLeft_size ▸ hv
      have hnew := h.unconstrained ha
      rw [hvalues, imposed, if_pos hn]
      simp only [getD_setIfInBounds hwlt, if_true]
      rw [hleft, unconstrained, unconstrained]
      refine (length_filter_remove (d := l.index - first u) (by omega) ?_ fun i => ?_).symm
      · rw [show first u + (l.index - first u) = l.index by omega, hnew]
        rfl
      · rw [hconstrained']
        by_cases hi : first u + i = l.index
        · have hd : i = l.index - first u := by omega
          rw [if_pos hi]
          simp [hd]
        · have hd : i ≠ l.index - first u := by omega
          rw [if_neg hi]
          simp [hd]
    · have hvalues' : r'.valuesLeft.getD w 0 = r.valuesLeft.getD w 0 := by
        rw [hvalues, imposed]
        split
        · simp only [getD_setIfInBounds (h.valuesLeft_size ▸ hv), if_neg hw]
        · rfl
      rw [hvalues', hleft, unconstrained, unconstrained]
      refine congrArg List.length (List.filter_congr fun i hi => ?_)
      rw [List.mem_range] at hi
      rw [hconstrained', if_neg]
      intro hindex
      have hsame := h.table.eq_of_run hmem (List.mem_of_getElem? hu₀) (n := l.index) (by omega)
        (by omega) hrun.1 hrun.2
      subst hsame
      obtain ⟨hwlt, hget⟩ := List.getElem?_eq_some_iff.1 hu
      obtain ⟨hvlt, hget'⟩ := List.getElem?_eq_some_iff.1 hu₀
      exact hw ((hfull.nodup.getElem_inj_iff).1 (hget.trans hget'.symm))

end BayesCircuit.Decision.Rows
