import BayesCircuit.Proofs.Tables.Table

/-!
# What the clauses of a table say

The literals of a table may be listed in any order. Down such an ordering the domain closure still
counts the literals that a variable has left, until its literal of the row has been met (`Poised`).
So the low edge of a literal of the row leads to `false'` only if every other literal of its
variable was tested before, and no assignment with a value for the variable takes it: the clause of
a row has the weight of the row where the assignment matches and nothing elsewhere
(`exists_draws`). The clauses of all rows are the table (`clauses_represent`).
-/

namespace BayesCircuit.Decision.Rows

open Collection Decision.Action

variable {row ls : List Literal} {varOf : Literal → Variable} {l k : Literal} {d : DomainClosure}
variable {D : Diagram} {w : Weight} {determinism : Bool} {x : Literal → Bool}

/-! ## The closure on the way down -/

/-- The literals of an ordering that belong to the variable of a literal. -/
def kin (varOf : Literal → Variable) (l : Literal) (ls : List Literal) : List Literal :=
  ls.filter fun k => varOf k = varOf l

/-- The closure in front of the rest of an ordering. Variables whose literal of the row is still to
come have the values of their literals left; the others have a value. -/
structure Poised (row : List Literal) (varOf : Literal → Variable) (ls : List Literal)
    (d : DomainClosure) : Prop where
  nodup : ls.Nodup
  literal : ∀ l ∈ ls, d.literalVariables[l.index]? = some (varOf l)
  counts : ∀ l ∈ ls, row.contains l = true → d.Counts (varOf l) (kin varOf l ls)
  chosen : ∀ l ∈ ls, (∀ k ∈ ls, row.contains k = true → varOf k ≠ varOf l) →
    d.chosen[varOf l]? = some true
  unique : ∀ k ∈ ls, ∀ l ∈ ls, row.contains k = true → row.contains l = true →
    varOf k = varOf l → k = l

theorem kin_cons (h : varOf k = varOf l) : kin varOf l (k :: ls) = k :: kin varOf l ls :=
  List.filter_cons_of_pos (by simpa using h)

theorem kin_cons_of_ne (h : varOf k ≠ varOf l) : kin varOf l (k :: ls) = kin varOf l ls :=
  List.filter_cons_of_neg (by simpa using h)

theorem kin_congr (h : varOf k = varOf l) : kin varOf k ls = kin varOf l ls := by
  rw [kin, kin, h]

section

variable (h : Poised row varOf (l :: ls) d)

include h

theorem Poised.unique_tail : ∀ k ∈ ls, ∀ k' ∈ ls, row.contains k = true → row.contains k' = true →
    varOf k = varOf k' → k = k' := fun k hk k' hk' =>
  h.unique k (List.mem_cons_of_mem l hk) k' (List.mem_cons_of_mem l hk')

theorem Poised.literal_tail : ∀ k ∈ ls, d.literalVariables[k.index]? = some (varOf k) :=
  fun k hk => h.literal k (List.mem_cons_of_mem l hk)

/-- Another variable keeps its count. -/
theorem Poised.counts_of_ne (hk : k ∈ ls) (hrow : row.contains k = true)
    (hne : varOf l ≠ varOf k) : d.Counts (varOf k) (kin varOf k ls) := by
  have := h.counts k (List.mem_cons_of_mem l hk) hrow
  rwa [kin_cons_of_ne hne] at this

/-- Another variable that has a value keeps it. -/
theorem Poised.chosen_of_ne (hk : k ∈ ls)
    (hno : ∀ j ∈ ls, row.contains j = true → varOf j ≠ varOf k)
    (hl : row.contains l = true → varOf l ≠ varOf k) : d.chosen[varOf k]? = some true :=
  h.chosen k (List.mem_cons_of_mem l hk) (List.forall_mem_cons.2 ⟨hl, hno⟩)

/-- Past a literal of the row, its variable has a value. -/
theorem Poised.choose (hl : row.contains l = true) : Poised row varOf ls (d.choose (varOf l)) where
  nodup := (List.nodup_cons.1 h.nodup).2
  literal := h.literal_tail
  counts k hk hrow := by
    have hne : varOf l ≠ varOf k := fun he => by
      obtain rfl := h.unique l (List.mem_cons_self ..) k (List.mem_cons_of_mem l hk) hl hrow he
      exact (List.nodup_cons.1 h.nodup).1 hk
    exact (h.counts_of_ne hk hrow hne).choose_of_ne hne.symm
  chosen k hk hno := by
    have C := h.counts l (List.mem_cons_self ..) hl
    obtain ⟨hlt, -⟩ := Array.getElem?_eq_some_iff.1 C.chosen
    by_cases he : varOf l = varOf k
    · rw [← he]
      simp [DomainClosure.choose, hlt]
    · rw [DomainClosure.choose, Array.getElem?_setIfInBounds_ne he]
      exact h.chosen_of_ne hk hno fun _ => he
  unique := h.unique_tail

/-- Past a literal before that of the row, its variable has one value less. -/
theorem Poised.exclude (hl : row.contains l = false) :
    Poised row varOf ls (d.exclude (varOf l) (kin varOf l ls).length) where
  nodup := (List.nodup_cons.1 h.nodup).2
  literal := h.literal_tail
  counts j hj hrow' := by
    by_cases he : varOf j = varOf l
    · have C := h.counts j (List.mem_cons_of_mem l hj) hrow'
      rw [kin_cons he.symm, he, kin_congr he] at C
      rw [he, kin_congr he]
      exact C.exclude
    · exact (h.counts_of_ne hj hrow' (Ne.symm he)).exclude_of_ne he
  chosen j hj hno := h.chosen_of_ne hj hno fun hin => by
    rw [hl] at hin
    cases hin
  unique := h.unique_tail

/-- A literal behind that of the row does not matter. -/
theorem Poised.skip (hl : row.contains l = false)
    (hno : ∀ k ∈ ls, row.contains k = true → varOf k ≠ varOf l) :
    Poised row varOf ls d ∧ d.condition l.neg = .ok (.redundant, d) := by
  have hnot : ∀ {p : Prop}, row.contains l = true → p := fun hin => by
    rw [hl] at hin
    cases hin
  refine ⟨⟨(List.nodup_cons.1 h.nodup).2, h.literal_tail, fun k hk hrow =>
    h.counts_of_ne hk hrow (hno k hk hrow).symm, fun k hk hno' => h.chosen_of_ne hk hno' hnot,
    h.unique_tail⟩, ?_⟩
  exact DomainClosure.condition_redundant (h.literal l (List.mem_cons_self ..))
    (h.chosen l (List.mem_cons_self ..) (List.forall_mem_cons.2 ⟨hnot, hno⟩))

end

/-! ## The value of a clause -/

/-- Every variable whose literal of the row is still to come has one literal left that holds. -/
def OneEach (row : List Literal) (varOf : Literal → Variable) (ls : List Literal)
    (x : Literal → Bool) : Prop :=
  ∀ l ∈ ls, row.contains l = true → ∃ k ∈ ls, varOf k = varOf l ∧ x k = true ∧
    ∀ j ∈ ls, varOf j = varOf l → x j = true → j = k

/-- The literals of the row hold. -/
def Matches (row ls : List Literal) (x : Literal → Bool) : Prop :=
  ∀ l ∈ ls, row.contains l = true → x l = true

/-- A tree has the weight of the row where its literals hold, and nothing elsewhere. -/
structure Tells (row : List Literal) (w : Weight) (determinism : Bool)
    (varOf : Literal → Variable) (ls : List Literal) (D : Diagram) : Prop where
  regular : Regular .atEnd (singles ls) D
  matching : ∀ x, OneEach row varOf ls x → Matches row ls x →
    D.value x (singles ls) = entryValue determinism w
  elsewhere : ∀ x, OneEach row varOf ls x → ¬ Matches row ls x → D.value x (singles ls) = some 0

theorem matches_cons : Matches row (l :: ls) x ↔
    (row.contains l = true → x l = true) ∧ Matches row ls x := List.forall_mem_cons

/-- The other variables do not notice that a literal has been passed. -/
theorem OneEach.tail (h : OneEach row varOf (l :: ls) x)
    (hne : ∀ k ∈ ls, row.contains k = true → varOf k = varOf l → x l = false) :
    OneEach row varOf ls x := by
  intro k hk hrow
  obtain ⟨j, hj, hvar, hx, hone⟩ := h k (List.mem_cons_of_mem l hk) hrow
  refine ⟨j, ?_, hvar, hx, fun i hi => hone i (List.mem_cons_of_mem l hi)⟩
  rcases List.mem_cons.1 hj with rfl | hj
  · rw [hne k hk hrow hvar.symm] at hx
    cases hx
  · exact hj

theorem collect_entry {bs : List Block} :
    collect (entry determinism w).1 ((entry determinism w).2.value x bs) =
      entryValue determinism w := by
  unfold entry entryValue
  split
  · rw [value_false]
    rfl
  · split
    · rw [value_true, collect_nil]
    · rw [value_true]
      rfl

/-- Where a literal of the row does not hold, the walk ends in `true'`. -/
theorem value_low (hone : OneEach row varOf (l :: ls) x) (hl : row.contains l = true)
    (hx : x l = false) :
    (Diagram.leaf !(kin varOf l ls).isEmpty).value x (singles ls) = some 0 := by
  obtain ⟨k, hk, hvar, hxk, -⟩ := hone l (List.mem_cons_self ..) hl
  have hmem : k ∈ kin varOf l ls := by
    rcases List.mem_cons.1 hk with rfl | hk
    · rw [hx] at hxk
      cases hxk
    · exact List.mem_filter.2 ⟨hk, by simpa using hvar⟩
  rw [List.isEmpty_eq_false_iff.2 (List.ne_nil_of_mem hmem), Bool.not_false, value_true]

theorem Tells.last (hl : row.contains l = true)
    (hno : ∀ k ∈ ls, row.contains k = false) :
    Tells row w determinism varOf (l :: ls) (.branch l.value (entry determinism w).1
      (entry determinism w).2 (.leaf !(kin varOf l ls).isEmpty)) := by
  have hmatches : ∀ {x}, Matches row (l :: ls) x ↔ x l = true := by
    intro x
    rw [matches_cons]
    refine ⟨fun h => h.1 hl, fun hx => ⟨fun _ => hx, fun k hk hrow => ?_⟩⟩
    rw [hno k hk] at hrow
    cases hrow
  refine ⟨regular_branch ?_ regular_leaf, fun x hone hx => ?_, fun x hone hx => ?_⟩
  · rcases entry_cases determinism w with he | he
    · rw [he]
      exact regular_leaf
    · rw [he]
      exact regular_leaf
  · rw [value_branch, hmatches.1 hx, if_pos rfl, collect_entry]
  · rw [hmatches, Bool.not_eq_true] at hx
    rw [value_branch, hx, if_neg Bool.false_ne_true, value_low hone hl hx]

theorem Tells.at (h : Poised row varOf (l :: ls) d) (hl : row.contains l = true)
    (hD : Tells row w determinism varOf ls D) :
    Tells row w determinism varOf (l :: ls)
      (.branch l.value [] D (.leaf !(kin varOf l ls).isEmpty)) := by
  have htail : ∀ {x}, OneEach row varOf (l :: ls) x → OneEach row varOf ls x := by
    refine fun hone => hone.tail fun k hk hrow he => ?_
    obtain rfl := h.unique k (List.mem_cons_of_mem l hk) l (List.mem_cons_self ..) hrow hl he
    exact absurd hk (List.nodup_cons.1 h.nodup).1
  refine ⟨regular_branch hD.regular regular_leaf, fun x hone hx => ?_, fun x hone hx => ?_⟩
  · obtain ⟨hxl, hx⟩ := matches_cons.1 hx
    rw [value_branch, hxl hl, if_pos rfl, collect_nil, hD.matching x (htail hone) hx]
  · rw [value_branch]
    cases hxl : x l with
    | false => exact value_low hone hl hxl
    | true =>
        rw [if_pos rfl, collect_nil]
        exact hD.elsewhere x (htail hone) fun hrest => hx (matches_cons.2 ⟨fun _ => hxl, hrest⟩)

theorem Tells.before (hl : row.contains l = false) (hk : k ∈ ls) (hrow : row.contains k = true)
    (hkl : varOf k = varOf l) (hD : Tells row w determinism varOf ls D) :
    Tells row w determinism varOf (l :: ls) (.branch l.value [] (.leaf true) D) := by
  have hmatches : ∀ {x}, Matches row (l :: ls) x ↔ Matches row ls x := by
    intro x
    rw [matches_cons, and_iff_right]
    intro hin
    rw [hl] at hin
    cases hin
  refine ⟨regular_branch regular_leaf hD.regular, fun x hone hx => ?_, fun x hone hx => ?_⟩
  · -- the literal of the row holds, so this one does not
    have hxl : x l = false := by
      by_contra hxl
      rw [Bool.not_eq_false] at hxl
      obtain ⟨j, -, -, -, hone⟩ := hone k (List.mem_cons_of_mem l hk) hrow
      have hlj := hone l (List.mem_cons_self ..) hkl.symm hxl
      have hkj := hone k (List.mem_cons_of_mem l hk) rfl (hmatches.1 hx k hk hrow)
      rw [hlj, ← hkj, hrow] at hl
      cases hl
    rw [value_branch, hxl, if_neg Bool.false_ne_true]
    exact hD.matching x (hone.tail fun _ _ _ _ => hxl) (hmatches.1 hx)
  · rw [value_branch]
    cases hxl : x l with
    | true => rw [if_pos rfl, value_true, collect_nil]
    | false =>
        rw [if_neg Bool.false_ne_true]
        exact hD.elsewhere x (hone.tail fun _ _ _ _ => hxl) fun hrest => hx (hmatches.2 hrest)

theorem Tells.skip (hn : (l :: ls).Nodup) (hl : row.contains l = false)
    (hno : ∀ k ∈ ls, row.contains k = true → varOf k ≠ varOf l)
    (hD : Tells row w determinism varOf ls D) : Tells row w determinism varOf (l :: ls) D := by
  have hL := layout_singles hn
  have hmatches : ∀ {x}, Matches row (l :: ls) x ↔ Matches row ls x := by
    intro x
    rw [matches_cons, and_iff_right]
    intro hin
    rw [hl] at hin
    cases hin
  have htail : ∀ {x}, OneEach row varOf (l :: ls) x → OneEach row varOf ls x :=
    fun hone => hone.tail fun k hk hrow he => absurd he (hno k hk hrow)
  have hvalue : ∀ {x}, D.value x (singles (l :: ls)) = D.value x (singles ls) :=
    value_of_untested (hD.regular.untested hL)
  refine ⟨hD.regular.later hL, fun x hone hx => ?_, fun x hone hx => ?_⟩
  · rw [hvalue, hD.matching x (htail hone) (hmatches.1 hx)]
  · rw [hvalue, hD.elsewhere x (htail hone) fun hrest => hx (hmatches.2 hrest)]

/-! ## The diagram of a clause -/

theorem upToLast_cons_of_exists (h : ∃ k ∈ ls, row.contains k = true) :
    upToLast row (l :: ls) = l :: upToLast row ls := by
  obtain ⟨k, hk, hrow⟩ := h
  have hne : (ls.reverse.dropWhile fun l => !row.contains l) ≠ [] := by
    rw [ne_eq, List.dropWhile_eq_nil_iff]
    intro hall
    have := hall k (List.mem_reverse.2 hk)
    rw [hrow] at this
    cases this
  rw [upToLast, List.reverse_cons, List.dropWhile_append,
    if_neg (by rwa [List.isEmpty_iff]), List.reverse_append]
  rfl

theorem upToLast_cons_of_forall (hl : row.contains l = true)
    (h : ∀ k ∈ ls, row.contains k = false) : upToLast row (l :: ls) = [l] := by
  have hnil : (ls.reverse.dropWhile fun l => !row.contains l) = [] := by
    rw [List.dropWhile_eq_nil_iff]
    intro k hk
    rw [h k (List.mem_reverse.1 hk)]
    rfl
  rw [upToLast, List.reverse_cons, List.dropWhile_append, hnil, List.isEmpty_nil, if_pos rfl,
    List.dropWhile_cons_of_neg (by rw [hl]; decide)]
  rfl

variable (w determinism) in
/-- Down an ordering and up again, a tree is drawn that tells the row. -/
theorem exists_draws (h : Poised row varOf ls d) (hrow : ∃ k ∈ ls, row.contains k = true) :
    upToLast row ls ≠ [] ∧ ∃ D, Draws row w determinism (upToLast row ls) d D ∧
      Tells row w determinism varOf ls D := by
  induction ls generalizing d with
  | nil =>
      obtain ⟨k, hk, -⟩ := hrow
      cases hk
  | cons l ls ih =>
      by_cases hmore : ∃ k ∈ ls, row.contains k = true
      · rw [upToLast_cons_of_exists hmore]
        refine ⟨List.cons_ne_nil _ _, ?_⟩
        cases hl : row.contains l with
        | true =>
            have C := h.counts l (List.mem_cons_self ..) hl
            rw [kin_cons rfl] at C
            obtain ⟨hne, D, hdraws, htells⟩ := ih (h.choose hl) hmore
            exact ⟨_, hdraws.at C hl hne, htells.at h hl⟩
        | false =>
            by_cases hown : ∃ k ∈ ls, row.contains k = true ∧ varOf k = varOf l
            · obtain ⟨k, hk, hin, hkl⟩ := hown
              have C := h.counts k (List.mem_cons_of_mem l hk) hin
              rw [kin_cons hkl.symm, hkl, kin_congr hkl] at C
              have hkin : kin varOf l ls ≠ [] :=
                List.ne_nil_of_mem (List.mem_filter.2 ⟨hk, by simpa using hkl⟩)
              obtain ⟨hne, D, hdraws, htells⟩ := ih (h.exclude hl) hmore
              exact ⟨_, hdraws.before C hkin hl hne, htells.before hl hk hin hkl⟩
            · have hno : ∀ k ∈ ls, row.contains k = true → varOf k ≠ varOf l :=
                fun k hk hin he => hown ⟨k, hk, hin, he⟩
              obtain ⟨hpoised, hredundant⟩ := h.skip hl hno
              obtain ⟨hne, D, hdraws, htells⟩ := ih hpoised hmore
              exact ⟨D, hdraws.skip hl hredundant hne, htells.skip h.nodup hl hno⟩
      · have hno : ∀ k ∈ ls, row.contains k = false := fun k hk => by
          by_contra hin
          exact hmore ⟨k, hk, by simpa using hin⟩
        have hl : row.contains l = true := by
          obtain ⟨k, hk, hin⟩ := hrow
          rcases List.mem_cons.1 hk with rfl | hk
          · exact hin
          · exact absurd ⟨k, hk, hin⟩ hmore
        have C := h.counts l (List.mem_cons_self ..) hl
        rw [kin_cons rfl] at C
        rw [upToLast_cons_of_forall hl hno]
        exact ⟨List.cons_ne_nil _ _, _, draws_last C hl, Tells.last hl hno⟩

/-! ## Orderings of a table -/

/-- An ordering lists the literals of a table, once each. -/
def Permutes (f : Factor) (ordering : List Literal) : Prop :=
  (ordering.map (·.value)).Perm (f.literals.map (Int.ofNat ·))

/-- A row has the literals of the values of an assignment. -/
def RowOf (first ρ : Variable → Nat) (scope : List Variable) (row : List Literal) : Prop :=
  (row.map Literal.value).Perm (scope.map fun u => ((first u + ρ u : Nat) : Int))

variable {f : Factor} {literalVariables : Array Variable} {first dim ρ σ : Variable → Nat}
variable {ordering : List Literal} {u : Variable} {e : Encoding}

/-- The variable of a literal. -/
def ownerOf (literalVariables : Array Variable) (l : Literal) : Variable :=
  literalVariables.getD l.index 0

theorem ValueOf.eq_of_index (hl : ValueOf first dim u l) (hk : ValueOf first dim u k)
    (h : l.index = k.index) : l = k := by
  have hl' : ¬ l.value < 0 := of_decide_eq_false hl.positive
  have hk' : ¬ k.value < 0 := of_decide_eq_false hk.positive
  have hindex : l.value.natAbs = k.value.natAbs := h
  exact value_injective (by omega)

section

variable (hlaid : f.Laid literalVariables first dim)

include hlaid

theorem ownerOf_eq (hu : u ∈ f.scope) (hl : ValueOf first dim u l) :
    ownerOf literalVariables l = u := by
  rw [ownerOf, Array.getD_eq_getD_getElem?, (variable_of_valueOf hlaid hu hl).2, Option.getD_some]

theorem contains_row_iff (hrow : RowOf first ρ f.scope row) (hρ : ∀ u ∈ f.scope, ρ u < dim u)
    (hu : u ∈ f.scope) (hl : ValueOf first dim u l) :
    row.contains l = true ↔ l.index = first u + ρ u := by
  have hnot : ¬ l.value < 0 := of_decide_eq_false hl.positive
  have hindex : l.value.natAbs = l.index := rfl
  rw [List.contains_iff_mem, ← List.mem_map_of_injective value_injective, hrow.mem_iff,
    List.mem_map]
  constructor
  · rintro ⟨u', hu', hvalue⟩
    have hlt := hρ u' hu'
    have hown' : ownerOf literalVariables l = u' :=
      ownerOf_eq hlaid hu' ⟨hl.positive, by omega, by omega⟩
    obtain rfl := (ownerOf_eq hlaid hu hl).symm.trans hown'
    omega
  · exact fun he => ⟨u, hu, by omega⟩

variable (hordering : Permutes f ordering)

include hordering

theorem valueOf_of_mem (hl : l ∈ ordering) : ∃ u ∈ f.scope, ValueOf first dim u l := by
  have hmem := hordering.mem_iff.1 (List.mem_map_of_mem hl)
  obtain ⟨n, hn, hvalue⟩ := List.mem_map.1 hmem
  obtain ⟨u, hu, hle, hlt⟩ := (mem_literals hlaid).1 hn
  have hindex : l.index = n := by
    rw [Literal.index, ← hvalue]
    rfl
  refine ⟨u, hu, ?_, by omega, by omega⟩
  exact decide_eq_false (by rw [← hvalue]; exact Int.not_lt.2 (Int.natCast_nonneg n))

theorem nodup_values (hnodup : f.scope.Nodup) : (ordering.map (·.value)).Nodup :=
  hordering.nodup_iff.2 ((nodup_literals hlaid hnodup).map fun _ _ hab => Int.ofNat.inj hab)

/-- The literals of a variable are all there. -/
theorem run_kin (hnodup : f.scope.Nodup) (hu : u ∈ f.scope) :
    Run first dim u (ordering.filter fun k => ownerOf literalVariables k = u) := by
  have hvalues := nodup_values hlaid hordering hnodup
  have hrange : ((List.range (dim u)).map fun d => ((first u + d : Nat) : Int)).Nodup :=
    List.nodup_range.map fun _ _ hab => by omega
  refine (List.perm_ext_iff_of_nodup (hvalues.sublist (List.filter_sublist.map _)) hrange).2 fun z =>
    ⟨fun hz => ?_, fun hz => ?_⟩
  · obtain ⟨l, hl, rfl⟩ := List.mem_map.1 hz
    obtain ⟨hl, hown⟩ := List.mem_filter.1 hl
    obtain ⟨u', hu', hvalue⟩ := valueOf_of_mem hlaid hordering hl
    rw [ownerOf_eq hlaid hu' hvalue, decide_eq_true_eq] at hown
    subst hown
    have hle := hvalue.le
    have hlt := hvalue.lt
    have hnot : ¬ l.value < 0 := of_decide_eq_false hvalue.positive
    have hindex : l.value.natAbs = l.index := rfl
    exact List.mem_map.2 ⟨l.index - first u', List.mem_range.2 (by omega), by omega⟩
  · obtain ⟨d, hd, rfl⟩ := List.mem_map.1 hz
    rw [List.mem_range] at hd
    have hmem : first u + d ∈ f.literals := (mem_literals hlaid).2 ⟨u, hu, by omega, by omega⟩
    obtain ⟨l, hl, hvalue⟩ := List.mem_map.1 (hordering.mem_iff.2 (List.mem_map_of_mem hmem))
    have hindex : l.index = first u + d := by
      rw [Literal.index, hvalue]
      rfl
    have hvalueOf : ValueOf first dim u l :=
      ⟨decide_eq_false (by rw [hvalue]; exact Int.not_lt.2 (Int.natCast_nonneg _)), by omega, by omega⟩
    refine List.mem_map.2 ⟨l, List.mem_filter.2 ⟨hl, ?_⟩, hvalue⟩
    rw [ownerOf_eq hlaid hu hvalueOf, decide_eq_true_eq]

theorem exists_literal (hnodup : f.scope.Nodup) (hu : u ∈ f.scope) {d : Nat} (hd : d < dim u) :
    ∃ l ∈ ordering, ValueOf first dim u l ∧ l.index = first u + d := by
  obtain ⟨l, hl, hindex⟩ := (run_kin hlaid hordering hnodup hu).exists_mem hd
  exact ⟨l, (List.mem_filter.1 hl).1, (run_kin hlaid hordering hnodup hu).valueOf hl, hindex⟩

omit hordering in
/-- Every table has an ordering of its literals, -/
theorem exists_permutes : ∃ ordering, Permutes f ordering :=
  (exists_factorLiterals hlaid).imp fun _ h => .of_eq h

omit hordering in
/-- and a row for every assignment. -/
theorem exists_rowOf (ρ : Variable → Nat) : ∃ row, RowOf first ρ f.scope row := by
  obtain ⟨row, hrow⟩ := exists_literals
    (f.scope.map fun u => ((first u + ρ u : Nat) : Int)) fun z hz => by
      obtain ⟨u, hu, rfl⟩ := List.mem_map.1 hz
      have := hlaid.first_pos u hu
      omega
  exact ⟨row, .of_eq hrow⟩

/-- At the start nothing has been conditioned on. -/
theorem poised_start (hnodup : f.scope.Nodup) (he : e.literalVariables = literalVariables)
    (hdims : ∀ u ∈ f.scope, e.dims[u]? = some (dim u) ∧ dim u < halfWordSize)
    (hρ : ∀ u ∈ f.scope, ρ u < dim u) (hrow : RowOf first ρ f.scope row) :
    Poised row (ownerOf literalVariables) ordering (DomainClosure.ofEncoding e) := by
  have hcases : ∀ {l}, l ∈ ordering → ∃ u ∈ f.scope, ValueOf first dim u l ∧
      ownerOf literalVariables l = u := fun hl => by
    obtain ⟨u, hu, hvalue⟩ := valueOf_of_mem hlaid hordering hl
    exact ⟨u, hu, hvalue, ownerOf_eq hlaid hu hvalue⟩
  refine ⟨List.Nodup.of_map _ (nodup_values hlaid hordering hnodup), fun l hl => ?_,
    fun l hl _ => ?_, fun l hl hno => ?_, fun k hk l hl hink hinl hkl => ?_⟩
  · obtain ⟨u, hu, hvalue, hown⟩ := hcases hl
    rw [hown]
    exact (congrArg (·[l.index]?) he).trans (variable_of_valueOf hlaid hu hvalue).2
  · obtain ⟨u, hu, -, hown⟩ := hcases hl
    rw [kin, hown]
    exact (run_kin hlaid hordering hnodup hu).counts hlaid hu he hdims
  · -- every variable has a literal of the row
    obtain ⟨u, hu, -, hown⟩ := hcases hl
    obtain ⟨k, hk, hvalue, hindex⟩ := exists_literal hlaid hordering hnodup hu (hρ u hu)
    refine absurd ?_ (hno k hk ((contains_row_iff hlaid hrow hρ hu hvalue).2 hindex))
    rw [hown, ownerOf_eq hlaid hu hvalue]
  · obtain ⟨u, hu, hvalue, hown⟩ := hcases hl
    obtain ⟨u', hu', hvalue', hown'⟩ := hcases hk
    obtain rfl : u' = u := hown'.symm.trans (hkl.trans hown)
    refine hvalue'.eq_of_index hvalue ?_
    rw [(contains_row_iff hlaid hrow hρ hu hvalue).1 hinl,
      (contains_row_iff hlaid hrow hρ hu hvalue').1 hink]

variable (hnodup : f.scope.Nodup) (hρ : ∀ u ∈ f.scope, ρ u < dim u)
variable (hrow : RowOf first ρ f.scope row) (hσ : ∀ u ∈ f.scope, σ u < dim u)
variable (hx : ∀ u ∈ f.scope, ∀ l, ValueOf first dim u l → (x l = true ↔ l.index = first u + σ u))

include hnodup hσ hx in
omit hρ hrow in
theorem oneEach_of_selects : OneEach row (ownerOf literalVariables) ordering x := by
  intro l hl _
  obtain ⟨u, hu, hvalue⟩ := valueOf_of_mem hlaid hordering hl
  obtain ⟨k, hk, hvalue', hindex⟩ := exists_literal hlaid hordering hnodup hu (hσ u hu)
  rw [ownerOf_eq hlaid hu hvalue]
  refine ⟨k, hk, ownerOf_eq hlaid hu hvalue', (hx u hu k hvalue').2 hindex, fun j hj hown hxj => ?_⟩
  obtain ⟨u', hu', hvalue''⟩ := valueOf_of_mem hlaid hordering hj
  obtain rfl : u' = u := (ownerOf_eq hlaid hu' hvalue'').symm.trans hown
  exact hvalue''.eq_of_index hvalue' (((hx u' hu' j hvalue'').1 hxj).trans hindex.symm)

include hnodup hρ hrow hx in
omit hσ in
theorem matches_iff : Matches row ordering x ↔ ∀ u ∈ f.scope, σ u = ρ u := by
  constructor
  · intro hmatches u hu
    obtain ⟨k, hk, hvalue, hindex⟩ := exists_literal hlaid hordering hnodup hu (hρ u hu)
    have hxk := hmatches k hk ((contains_row_iff hlaid hrow hρ hu hvalue).2 hindex)
    have := (hx u hu k hvalue).1 hxk
    omega
  · intro heq l hl hin
    obtain ⟨u, hu, hvalue⟩ := valueOf_of_mem hlaid hordering hl
    rw [hx u hu l hvalue, heq u hu]
    exact (contains_row_iff hlaid hrow hρ hu hvalue).1 hin

end

/-- A diagram that tells a row has the weight of the row for its assignment, and nothing for the
others. -/
theorem Tells.evaluate {m : Manager} {c : Handle}
    (hD : Tells row w determinism (ownerOf literalVariables) ordering D)
    (hdenotes : Denotes m.key? c D) (hlaid : f.Laid literalVariables first dim)
    (hordering : Permutes f ordering) (hnodup : f.scope.Nodup) (hρ : ∀ u ∈ f.scope, ρ u < dim u)
    (hrow : RowOf first ρ f.scope row) (hσ : ∀ u ∈ f.scope, σ u < dim u)
    (hx : ∀ u ∈ f.scope, ∀ l, ValueOf first dim u l → (x l = true ↔ l.index = first u + σ u)) :
    m.evaluate c ordering (fun l => .ok (x l)) false =
      .ok (if ∀ u ∈ f.scope, σ u = ρ u then entryWeights determinism w else some []) := by
  have hn : ordering.Nodup := List.Nodup.of_map _ (nodup_values hlaid hordering hnodup)
  have hone : OneEach row (ownerOf literalVariables) ordering x :=
    oneEach_of_selects hlaid hordering hnodup hσ hx
  have hmatches := matches_iff hlaid hordering hnodup hρ hrow hx
  rw [evaluate_forward hn hdenotes hD.regular]
  by_cases heq : ∀ u ∈ f.scope, σ u = ρ u
  · rw [if_pos heq, hD.matching x hone (hmatches.2 heq), sorted_entryValue]
  · rw [if_neg heq, hD.elsewhere x hone fun hx => heq (hmatches.1 hx)]
    simp [Value.sorted]

/-! ## The clauses of a network -/

/-- What paths collect together; nothing if one of them ends in `false'`. -/
def unite (found : List (Option Weights)) : Value :=
  found.foldr (fun ws v => Value.product (ws.map fun ws => (ws : Multiset Weight)) v) (some 0)

theorem product_zero {v : Value} : Value.product (some 0) v = v ∧ Value.product v (some 0) = v := by
  cases v <;> simp [Value.product]

/-- If only one path collects something, it is what all collect. -/
theorem unite_eq {ns : List Nat} {n : Nat} {ws : Option Weights} (hn : n ∈ ns) (hns : ns.Nodup) :
    unite (ns.map fun i => if n = i then ws else some []) =
      ws.map fun ws => (ws : Multiset Weight) := by
  have hnone : ∀ {is : List Nat}, n ∉ is →
      unite (is.map fun i => if n = i then ws else some []) = some 0 := by
    intro is his
    induction is with
    | nil => rfl
    | cons i is ih =>
        rw [List.mem_cons, not_or] at his
        rw [List.map_cons, if_neg his.1]
        exact (product_zero (v := _)).1.trans (ih his.2)
  induction ns with
  | nil => cases hn
  | cons i ns ih =>
      obtain ⟨hi, hns⟩ := List.nodup_cons.1 hns
      rw [List.map_cons]
      rcases List.mem_cons.1 hn with rfl | hn
      · rw [if_pos rfl]
        refine (congrArg (Value.product _) (hnone hi)).trans product_zero.2
      · have hne : n ≠ i := fun he => hi (he ▸ hn)
        rw [if_neg hne]
        exact (product_zero (v := _)).1.trans (ih hn hns)

section

variable {options : EncodingOptions} {net : Network} {e : Encoding}
variable (he : Encoding.ofNetwork options net = .ok e)
variable (hlaid : f.Laid e.literalVariables (e.firstLiterals.getD · 0) net.dimOf)

include he hlaid

/-- What is selected are the literals with the numbers of the values. -/
theorem index_of_selects (hlt : ∀ u ∈ f.scope, u < net.size) (hx : Selects e f.scope σ x) :
    ∀ u ∈ f.scope, ∀ l, ValueOf (e.firstLiterals.getD · 0) net.dimOf u l →
      (x l = true ↔ l.index = e.firstLiterals.getD u 0 + σ u) := by
  intro u hu l hl
  obtain ⟨hpositive, hvar⟩ := variable_of_valueOf hlaid hu hl
  have hof : e.variableOf l = .ok u := Encoding.fetch_eq_ok.2 hvar
  rw [hx u hu l hpositive hof, valueOf_eq_ok he (hlt u hu) hof hl.le]

end

/-- The clause of a row has one tree in all managers. -/
theorem exists_clause_tree {net : Network} {e : Encoding} (w : Weight) (determinism : Bool)
    (hlaid : f.Laid e.literalVariables (e.firstLiterals.getD · 0) net.dimOf)
    (hordering : Permutes f ordering) (hnodup : f.scope.Nodup) (hscope : f.scope ≠ [])
    (hdims : ∀ u ∈ f.scope, e.dims[u]? = some (net.dimOf u) ∧ net.dimOf u < halfWordSize)
    (hρ : Assigns f.scope net.dimOf ρ) (hrow : RowOf (e.firstLiterals.getD · 0) ρ f.scope row) :
    ∃ D, (∀ m : Manager, m.Valid →
      Ends (clause row w ordering (.ofEncoding e) determinism) m fun r m' =>
        r.2 = .ofEncoding e ∧ Rooted m D r.1 m') ∧
      Tells row w determinism (ownerOf e.literalVariables) ordering D := by
  have hpoised := poised_start hlaid hordering hnodup rfl hdims hρ hrow
  obtain ⟨u, hu⟩ := List.exists_mem_of_ne_nil _ hscope
  obtain ⟨k, hk, hvalue, hindex⟩ := exists_literal hlaid hordering hnodup hu (hρ u hu)
  obtain ⟨hne, D, hdraws, htells⟩ := exists_draws w determinism hpoised
    ⟨k, hk, (contains_row_iff hlaid hrow hρ hu hvalue).2 hindex⟩
  exact ⟨D, fun m V => hdraws.clause hne V, htells⟩

/-- Assignments of one row agree. -/
theorem number_eq_iff (hlaid : f.Laid literalVariables first dim) (hσ : Assigns f.scope dim σ)
    (hρ : Assigns f.scope dim ρ) :
    Counter.number f.dims (f.scope.map σ) = Counter.number f.dims (f.scope.map ρ) ↔
      ∀ u ∈ f.scope, σ u = ρ u := by
  refine ⟨fun h u hu => ?_, fun h => congrArg (Counter.number f.dims) (List.map_congr_left h)⟩
  have hdigits := Counter.number_injective (hlaid.dims ▸ Counter.fits_map hσ)
    (hlaid.dims ▸ Counter.fits_map hρ) h
  exact List.map_inj_left.1 hdigits u hu

/-- Computations with results that are known from labels. -/
theorem mapM_of_zip {α β γ : Type} {g : α → Outcome γ} {h : β → γ} {xs : List α} {ys : List β}
    (hlength : xs.length = ys.length) (hg : ∀ z ∈ xs.zip ys, g z.1 = .ok (h z.2)) :
    xs.mapM g = .ok (ys.map h) := by
  have hmapped := Outcome.mapM_ok hg
  rw [← Function.comp_def g, ← List.mapM_map, List.map_fst_zip hlength.le,
    ← Function.comp_def h, ← List.map_map, List.map_snd_zip hlength.ge] at hmapped
  exact hmapped

/-- Along every ordering of the literals of a table, the clause of a row has the weight of the row
where the assignment selects it and nothing elsewhere, and it leaves the closure as it was. So the
clauses of all rows have together, for every assignment, the weight of the row that is selected.
Numbers of values are 32-bit numbers. -/
theorem clauses_represent {options : EncodingOptions} {net : Network} {e : Encoding}
    (determinism : Bool) (hnet : net.WellFormed) (he : Encoding.ofNetwork options net = .ok e)
    (hsmall : ∀ u < net.size, net.dimOf u < halfWordSize) {owner : Variable}
    (howner : owner < net.size) :
    ∃ f, e.factor owner = .ok f ∧ ∀ ordering, Permutes f ordering → ∀ m : Manager, m.Valid →
      (∀ ρ row w, Assigns f.scope net.dimOf ρ → RowOf (e.firstLiterals.getD · 0) ρ f.scope row →
        ∃ c m', (clause row w ordering (.ofEncoding e) determinism).run m =
            .ok (c, .ofEncoding e) m' ∧
          ∀ σ x, Assigns f.scope net.dimOf σ → Selects e f.scope σ x →
            m'.evaluate c ordering (fun l => .ok (x l)) false =
              .ok (if ∀ u ∈ f.scope, σ u = ρ u then entryWeights determinism w else some [])) ∧
      ∃ hs m', (clauses f ordering (.ofEncoding e) determinism).run m = .ok hs m' ∧
        hs.length = f.dims.prod ∧
        ∀ σ x, Assigns f.scope net.dimOf σ → Selects e f.scope σ x → ∃ w found,
          f.weights[Counter.number f.dims (f.scope.map σ)]? = some w ∧
          hs.mapM (fun c => m'.evaluate c ordering (fun l => .ok (x l)) false) = .ok found ∧
          unite found = (entryWeights determinism w).map fun ws => (ws : Multiset Weight) := by
  obtain ⟨f, hf, hlaid, hnodup, hpos, hscope, hsize, hdims⟩ := exists_table hnet he hsmall howner
  obtain ⟨-, -, hlt⟩ := Encoding.laid_factor he hf
  refine ⟨f, hf, fun ordering hordering m V => ⟨fun ρ row w hρ hrow => ?_, ?_⟩⟩
  · obtain ⟨D, hclause, htells⟩ := exists_clause_tree w determinism hlaid hordering hnodup hscope
      hdims hρ hrow
    obtain ⟨⟨c, d⟩, m', hrun, rfl, hR⟩ := hclause m V
    exact ⟨c, m', hrun, fun σ x hσ hx => htells.evaluate hR.denotes hlaid hordering hnodup hρ hrow
      hσ (index_of_selects he hlaid hlt hx)⟩
  · -- the row of every number, and its tree
    have hrows : ∀ n ∈ List.range f.dims.prod, ∃ (D : Diagram) (ρ : Variable → Nat)
        (row : List Literal), ClausesHave f ordering determinism (.ofEncoding e) n D ∧
          Assigns f.scope net.dimOf ρ ∧ RowOf (e.firstLiterals.getD · 0) ρ f.scope row ∧
          Counter.number f.dims (f.scope.map ρ) = n ∧
          Tells row (f.weights.getD n 0) determinism (ownerOf e.literalVariables) ordering D := by
      intro n hn
      obtain ⟨ρ, row, hρ, hnumber, hliterals, hspells⟩ :=
        exists_row hlaid hnodup hpos (List.mem_range.1 hn)
      have hrow : RowOf (e.firstLiterals.getD · 0) ρ f.scope row := .of_eq hspells
      obtain ⟨D, hclause, htells⟩ := exists_clause_tree (f.weights.getD n 0) determinism hlaid
        hordering hnodup hscope hdims hρ hrow
      exact ⟨D, ρ, row, ⟨row, hliterals, hclause⟩, hρ, hrow, hnumber, htells⟩
    have : Nonempty Diagram := ⟨.leaf true⟩
    choose! D ρ row hclause hρ hrow hnumber htells using hrows
    obtain ⟨hs, m', hrun, hlength, H⟩ := clauses_held D V hlaid hpos hsize
      (List.forall₂_same.2 hclause)
    refine ⟨hs, m', hrun, by rw [hlength, List.length_range], fun σ x hσ hx => ?_⟩
    let n := Counter.number f.dims (f.scope.map σ)
    have hn : n < f.dims.prod := Counter.number_lt (hlaid.dims ▸ Counter.fits_map hσ)
    have hw : f.weights[n]? = some (f.weights.getD n 0) := by
      have hget : n < f.weights.size := Nat.lt_of_lt_of_le hn hsize
      rw [Array.getD_eq_getD_getElem?, Array.getElem?_eq_getElem hget, Option.getD_some]
    -- only the row that is selected collects something
    have heval : ∀ y ∈ hs.zip (List.range f.dims.prod),
        m'.evaluate y.1 ordering (fun l => .ok (x l)) false =
          .ok (if n = y.2 then entryWeights determinism (f.weights.getD n 0) else some []) := by
      intro y hy
      have hmem := (List.of_mem_zip hy).2
      have heq : (∀ u ∈ f.scope, σ u = ρ y.2 u) ↔ n = y.2 := by
        rw [← number_eq_iff hlaid hσ (hρ y.2 hmem), hnumber y.2 hmem]
      rw [(htells y.2 hmem).evaluate (H.denotes y hy) hlaid hordering hnodup (hρ y.2 hmem)
        (hrow y.2 hmem) hσ (index_of_selects he hlaid hlt hx)]
      simp only [heq]
      split
      · rename_i he
        rw [he]
      · rfl
    exact ⟨_, _, hw, mapM_of_zip hlength heval, unite_eq (List.mem_range.2 hn) List.nodup_range⟩

/-- The clauses of the second coin, and what they collect where both coins show tails. -/
theorem clauses_represent_twoCoins : ∃ e f ordering row c hs m m' w found,
    Encoding.ofNetwork ⟨true, false⟩ twoCoins = .ok e ∧ e.factor 1 = .ok f ∧
      Permutes f ordering ∧ RowOf (e.firstLiterals.getD · 0) (fun _ => 1) f.scope row ∧
      (clause row 7 ordering (.ofEncoding e) true).run (Manager.start e.literalVariables 4) =
        .ok (c, .ofEncoding e) m ∧
      m.evaluate c ordering (fun l => .ok (decide (e.valueOf l = .ok 1))) false =
        .ok (entryWeights true 7) ∧
      (clauses f ordering (.ofEncoding e) true).run (Manager.start e.literalVariables 4) =
        .ok hs m' ∧
      f.weights[Counter.number f.dims (f.scope.map fun _ => 1)]? = some w ∧
      hs.mapM (fun c => m'.evaluate c ordering (fun l => .ok (decide (e.valueOf l = .ok 1))) false) =
        .ok found ∧
      unite found = (entryWeights true w).map fun ws => (ws : Multiset Weight) := by
  obtain ⟨e, he, -⟩ := Encoding.ofNetwork_spec ⟨true, false⟩ wellFormed_twoCoins
  obtain ⟨f, hf, hall⟩ := clauses_represent true wellFormed_twoCoins he
    (by decide +kernel) (show 1 < twoCoins.size by decide)
  obtain ⟨hlaid, -, hlt⟩ := Encoding.laid_factor he hf
  obtain ⟨ordering, hordering⟩ := exists_permutes hlaid
  obtain ⟨row, hrow⟩ := exists_rowOf hlaid fun _ => 1
  have htails : ∀ u < twoCoins.size, 1 < twoCoins.dimOf u := by decide +kernel
  have hassigns : Assigns f.scope twoCoins.dimOf fun _ => 1 := fun u hu => htails u (hlt u hu)
  obtain ⟨hclause, hs, m', hrun', -, hvalues⟩ := hall ordering hordering
    (Manager.start e.literalVariables 4) (Manager.valid_start (by decide))
  obtain ⟨c, m, hrun, hvalue⟩ := hclause (fun _ => 1) row 7 hassigns hrow
  have hselects : Selects e f.scope (fun _ => 1) fun l => decide (e.valueOf l = .ok 1) :=
    fun u hu l hl hof => decide_eq_true_iff
  obtain ⟨w, found, hw, hfound, hunite⟩ := hvalues _ _ hassigns hselects
  have hmatch := hvalue _ _ hassigns hselects
  rw [if_pos fun _ _ => rfl] at hmatch
  exact ⟨e, f, ordering, row, c, hs, m, m', w, found, he, hf, hordering, hrow, hrun, hmatch, hrun',
    hw, hfound, hunite⟩

end BayesCircuit.Decision.Rows
