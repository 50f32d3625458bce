import BayesCircuit.Encoding.Basic
import BayesCircuit.Proofs.Counter
import BayesCircuit.Proofs.Network
import BayesCircuit.Proofs.Outcome
import Mathlib.Data.List.Sort

/-!
# The weights and the factors of an encoded network

An entry gets a reserved weight, the weight of an equal entry of its table or a new one; each of
them stands for the entry (`stands_weightOf`). Weights that have been handed out are kept, and a row
that has been written is not written again as long as the rows of the entries differ, so afterwards
every row holds its entry and a weight that stands for it (`foldl_put`).

The entry that an assignment selects in a table and the row that it selects in the factor are the
same number in two notations (`rowOf_entryIndex`). So the factor of a variable has, in the row of an
assignment, the entry that the table has for it and a weight that stands for this entry
(`factorOf_spec`). Every well-formed network can be encoded (`ofNetwork_spec`).

The literals of a variable are a run of numbers, and no number above zero belongs to two variables
(`getElem?_layout`). A factor lists for the variables of its scope where these runs begin and how
long they are (`laid_factor`). This needs no assumption about the network: parents may be listed
twice, and a table may have any length.
-/

namespace BayesCircuit.Encoding

variable {options : EncodingOptions} {literals : Nat} {values values' : Array Probability}
variable {rows : Rows} {w : Weight} {p : Probability}

/-- A weight stands for an entry: a reserved one for one or zero, another one for what is stored
for it. -/
inductive Stands (options : EncodingOptions) (literals : Nat) (values : Array Probability) :
    Weight → Probability → Prop
  | one {p : Probability} (determinism : options.determinism = true)
      (isOne : (p.toFloat == 1.0) = true) : Stands options literals values 1 p
  | zero {p : Probability} (determinism : options.determinism = true)
      (isZero : (p.toFloat == 0.0) = true) (notOne : (p.toFloat == 1.0) = false) :
      Stands options literals values 0 p
  | stored {p : Probability} {w : Weight} (lt : literals < w)
      (value : values[w - literals - 1]? = some p) : Stands options literals values w p

/-- No stored value is changed. -/
def Extends (values values' : Array Probability) : Prop :=
  ∀ (i : Nat) (p : Probability), values[i]? = some p → values'[i]? = some p

theorem Extends.refl : Extends values values := fun _ _ h => h

theorem Extends.trans {values'' : Array Probability} (h : Extends values values')
    (h' : Extends values' values'') : Extends values values'' := fun i p hp => h' i p (h i p hp)

theorem extends_push : Extends values (values.push p) := by
  intro i q hq
  obtain ⟨hi, _⟩ := Array.getElem?_eq_some_iff.1 hq
  rw [Array.getElem?_push_lt hi, ← hq, Array.getElem?_eq_getElem hi]

theorem Stands.mono (h : Stands options literals values w p) (he : Extends values values') :
    Stands options literals values' w p := by
  cases h with
  | one hd hp => exact .one hd hp
  | zero hd hp hn => exact .zero hd hp hn
  | stored hlt hvalue => exact .stored hlt (he _ _ hvalue)

theorem stands_fresh : Stands options literals (values.push p) (literals + values.size + 1) p := by
  refine .stored (by omega) ?_
  rw [show literals + values.size + 1 - literals - 1 = values.size by omega]
  exact Array.getElem?_push_size

/-- Entries that are known by their bits are stored. -/
def Known (literals : Nat) (rows : Rows) : Prop :=
  ∀ (p : Probability) (w : Weight), rows.shared[p]? = some w →
    literals < w ∧ rows.values[w - literals - 1]? = some p

/-- The weight of an entry stands for it, and rows are left alone. -/
theorem stands_weightOf (h : Known literals rows) :
    Stands options literals (rows.weightOf options literals p).2.values
        (rows.weightOf options literals p).1 p ∧
      Known literals (rows.weightOf options literals p).2 ∧
      Extends rows.values (rows.weightOf options literals p).2.values ∧
      (rows.weightOf options literals p).2.weights = rows.weights ∧
      (rows.weightOf options literals p).2.probabilities = rows.probabilities := by
  unfold Rows.weightOf
  split
  · rename_i hreserved
    simp only [Bool.and_eq_true, Bool.or_eq_true] at hreserved
    obtain ⟨hd, hp⟩ := hreserved
    refine ⟨?_, h, Extends.refl, rfl, rfl⟩
    by_cases hone : (p.toFloat == 1.0) = true
    · simp only [hone, if_true]
      exact .one hd hone
    · simp only [hone]
      exact .zero hd (hp.resolve_right hone) (by simpa using hone)
  · dsimp only
    split
    · split
      · rename_i w hw
        obtain ⟨hlt, hvalue⟩ := h p w hw
        exact ⟨.stored hlt hvalue, h, Extends.refl, rfl, rfl⟩
      · refine ⟨stands_fresh, fun q w hq => ?_, extends_push, rfl, rfl⟩
        rw [Std.HashMap.getElem?_insert] at hq
        split at hq
        · rename_i hbeq
          obtain rfl : p = q := by simpa using hbeq
          obtain rfl := Option.some.inj hq
          refine ⟨by omega, ?_⟩
          rw [show literals + rows.values.size + 1 - literals - 1 = rows.values.size by omega]
          exact Array.getElem?_push_size
        · obtain ⟨hlt, hvalue⟩ := h q w hq
          exact ⟨hlt, extends_push _ _ hvalue⟩
    · exact ⟨stands_fresh, fun q w hq => ⟨(h q w hq).1, extends_push _ _ (h q w hq).2⟩,
        extends_push, rfl, rfl⟩

/-! ## Rows -/

/-- A row holds an entry and a weight that stands for it. -/
def Holds (options : EncodingOptions) (literals : Nat) (rows : Rows) (row : Nat)
    (p : Probability) : Prop :=
  rows.probabilities[row]? = some p ∧
    ∃ w, rows.weights[row]? = some w ∧ Stands options literals rows.values w p

/-- What writing entries into rows leaves. -/
structure Written (options : EncodingOptions) (literals : Nat) (rowAt : Nat → Nat)
    (entries : List (Probability × Nat)) (rows rows' : Rows) : Prop where
  known : Known literals rows'
  grown : Extends rows.values rows'.values
  weights_size : rows'.weights.size = rows.weights.size
  probabilities_size : rows'.probabilities.size = rows.probabilities.size
  holds : ∀ q ∈ entries, Holds options literals rows' (rowAt q.2) q.1
  other : ∀ r, r ∉ entries.map (fun q => rowAt q.2) →
    rows'.weights[r]? = rows.weights[r]? ∧ rows'.probabilities[r]? = rows.probabilities[r]?

theorem written_put {rowAt : Nat → Nat} {i : Nat} (h : Known literals rows)
    (hweights : rowAt i < rows.weights.size) (hprobabilities : rowAt i < rows.probabilities.size) :
    Written options literals rowAt [(p, i)] rows (rows.put options literals (rowAt i) p) := by
  obtain ⟨hstands, hknown, hgrown, hkeep, hkeep'⟩ := @stands_weightOf options literals rows p h
  refine ⟨hknown, hgrown, ?_, ?_, ?_, ?_⟩
  · rw [Rows.put, Array.size_setIfInBounds, hkeep]
  · rw [Rows.put, Array.size_setIfInBounds, hkeep']
  · refine List.forall_mem_singleton.2 ⟨?_, _, ?_, hstands⟩
    · simp only [Rows.put, hkeep']
      rw [Array.getElem?_setIfInBounds_self_of_lt hprobabilities]
    · simp only [Rows.put, hkeep]
      rw [Array.getElem?_setIfInBounds_self_of_lt hweights]
  · intro r hr
    have hne : rowAt i ≠ r := fun he => hr (by simp [he])
    simp only [Rows.put, hkeep, hkeep']
    exact ⟨Array.getElem?_setIfInBounds_ne hne, Array.getElem?_setIfInBounds_ne hne⟩

/-- Rows that differ are written one after the other. -/
theorem foldl_put {rowAt : Nat → Nat} : ∀ {entries : List (Probability × Nat)} {rows : Rows},
    Known literals rows → (entries.map fun q => rowAt q.2).Nodup →
    (∀ q ∈ entries, rowAt q.2 < rows.weights.size ∧ rowAt q.2 < rows.probabilities.size) →
    Written options literals rowAt entries rows
      (entries.foldl (fun rows q => rows.put options literals (rowAt q.2) q.1) rows)
  | [], rows, h, _, _ =>
      ⟨h, Extends.refl, rfl, rfl, fun q hq => absurd hq List.not_mem_nil, fun _ _ => ⟨rfl, rfl⟩⟩
  | (p, i) :: entries, rows, h, hnodup, hlt => by
      rw [List.map_cons, List.nodup_cons] at hnodup
      obtain ⟨hw, hp⟩ := hlt (p, i) (List.mem_cons_self ..)
      have hfirst : Written options literals rowAt [(p, i)] rows
          (rows.put options literals (rowAt i) p) := written_put h hw hp
      have hrest := foldl_put hfirst.known hnodup.2 fun q hq => by
        rw [hfirst.weights_size, hfirst.probabilities_size]
        exact hlt q (List.mem_cons_of_mem _ hq)
      rw [List.foldl_cons]
      refine ⟨hrest.known, hfirst.grown.trans hrest.grown,
        hrest.weights_size.trans hfirst.weights_size,
        hrest.probabilities_size.trans hfirst.probabilities_size, ?_, fun r hr => ?_⟩
      · refine List.forall_mem_cons.2 ⟨?_, hrest.holds⟩
        obtain ⟨hprobability, w, hweight, hstands⟩ := hfirst.holds (p, i) (List.mem_singleton_self _)
        obtain ⟨hsame, hsame'⟩ := hrest.other (rowAt i) hnodup.1
        exact ⟨hsame'.trans hprobability, w, hsame.trans hweight, hstands.mono hrest.grown⟩
      · rw [List.map_cons, List.mem_cons, not_or] at hr
        obtain ⟨hsame, hsame'⟩ := hrest.other r hr.2
        obtain ⟨hsame₁, hsame₁'⟩ := hfirst.other r (by simpa using hr.1)
        exact ⟨hsame.trans hsame₁, hsame'.trans hsame₁'⟩

end BayesCircuit.Encoding

namespace BayesCircuit.Encoding

open Collection.Ascending InteractionGraph

variable {net : Network} {options : EncodingOptions} {v : Variable} {ρ σ : Variable → Nat}
variable {dim : Variable → Nat} {listed scope : List Variable}

/-! ## Entries and rows -/

/-- The digits of the table's counter are the values of the listed variables. -/
theorem digits_withValueLast (h : ∀ u ∈ listed, ρ u < dim u) :
    ((Counter.zero (listed.map dim)).withValueLast
      (Counter.number (listed.map dim).reverse (listed.map ρ).reverse)).digits = listed.map ρ := by
  have hlt : List.Forall₂ (· < ·) (listed.map ρ).reverse (listed.map dim).reverse :=
    List.forall₂_reverse_iff.2 (Counter.fits_map h)
  have hradices : (Counter.zero (listed.map dim)).reversed.radices = (listed.map dim).reverse := by
    simp [Counter.zero, Counter.reversed, Counter.radices, Function.comp_def]
  rw [Counter.withValueLast, Counter.withValue, hradices, Counter.wheelsOf_number hlt,
    Counter.digits, Counter.reversed, List.map_reverse, Counter.map_digit_zipWith hlt,
    List.reverse_reverse]

/-- The row of an entry is that of the assignment which selects the entry. -/
theorem rowOf_entryIndex (h : ∀ u ∈ listed, ρ u < dim u) (hscope : scope ⊆ listed) :
    rowOf (Counter.zero (listed.map dim)) (Counter.zero (scope.map dim))
        (Counter.projectionUnsorted listed scope)
        (Counter.number (listed.map dim).reverse (listed.map ρ).reverse) =
      Counter.number (scope.map dim) (scope.map ρ) := by
  have hdigits : ((Counter.projectionUnsorted listed scope).map fun i? =>
      (i?.bind ((listed.map ρ).toArray[·]?)).getD 0) = scope.map ρ := by
    rw [Counter.projectionUnsorted, List.map_map]
    refine List.map_congr_left fun u hu => ?_
    obtain ⟨q, hq⟩ := exists_findIdx? (hscope hu)
    obtain ⟨hlt, hget, _⟩ := List.findIdx?_eq_some_iff_getElem.1 hq
    have hget : listed[q] = u := by simpa using hget
    simp [Function.comp_apply, hq, hlt, hget]
  rw [rowOf, Counter.project, digits_withValueLast h, hdigits, Counter.value_withDigits]
  rw [List.length_map, List.length_map]

/-- Every entry of a table is selected by some assignment. -/
theorem exists_assignment {i : Nat} (hnodup : listed.Nodup) (hi : i < (listed.map dim).prod) :
    ∃ ρ : Variable → Nat, (∀ u ∈ listed, ρ u < dim u) ∧
      Counter.number (listed.map dim).reverse (listed.map ρ).reverse = i := by
  have hprod : i < (listed.map dim).reverse.prod := by rwa [List.prod_reverse]
  have hpos : ∀ r ∈ (listed.map dim).reverse, 0 < r := by
    refine List.prod_pos_iff_forall_pos_nat.1 ?_
    omega
  have hdigits := (Counter.valid_wheelsOf (n := i) hpos).digit_lt
  rw [Counter.map_radix_wheelsOf] at hdigits
  have hdigits' := List.forall₂_reverse_iff.2 hdigits
  rw [List.reverse_reverse] at hdigits'
  obtain ⟨ρ, hρ, hlt⟩ := Counter.exists_map_eq hnodup hdigits'
  refine ⟨ρ, hlt, ?_⟩
  rw [hρ, List.reverse_reverse, Counter.number_digits_wheelsOf hprod]

/-- Different entries are put into different rows. -/
theorem rowOf_injOn (hnodup : listed.Nodup) (hscope : ∀ u, u ∈ scope ↔ u ∈ listed) {i j : Nat}
    (hi : i < (listed.map dim).prod) (hj : j < (listed.map dim).prod)
    (h : rowOf (Counter.zero (listed.map dim)) (Counter.zero (scope.map dim))
        (Counter.projectionUnsorted listed scope) i =
      rowOf (Counter.zero (listed.map dim)) (Counter.zero (scope.map dim))
        (Counter.projectionUnsorted listed scope) j) : i = j := by
  obtain ⟨ρ, hρ, rfl⟩ := exists_assignment hnodup hi
  obtain ⟨σ, hσ, rfl⟩ := exists_assignment hnodup hj
  have hsub : scope ⊆ listed := fun u hu => (hscope u).1 hu
  rw [rowOf_entryIndex hρ hsub, rowOf_entryIndex hσ hsub] at h
  have hsame := Counter.number_injective (Counter.fits_map fun u hu => hρ u (hsub hu))
    (Counter.fits_map fun u hu => hσ u (hsub hu)) h
  have hagree : ∀ u ∈ listed, ρ u = σ u := fun u hu =>
    List.map_inj_left.1 hsame u ((hscope u).2 hu)
  rw [List.map_congr_left hagree]

/-! ## Factors -/

/-- A factor has in the row of every assignment the entry that the table has for it, and a weight
that stands for the entry. -/
structure Encodes (options : EncodingOptions) (net : Network) (literals : Nat)
    (values : Array Probability) (v : Variable) (f : Factor) : Prop where
  owner : f.owner = v
  scope : f.scope = (family net v).mergeSort
  dims : f.dims = f.scope.map net.dimOf
  size : f.weights.size = f.dims.prod
  row : ∀ ρ : Variable → Nat, (∀ u ∈ f.scope, ρ u < net.dimOf u) →
    f.probabilities[Counter.number f.dims (f.scope.map ρ)]? = some (net.entryAt v ρ) ∧
    ∃ w, f.weights[Counter.number f.dims (f.scope.map ρ)]? = some w ∧
      Stands options literals values w (net.entryAt v ρ)

theorem Encodes.mono {literals : Nat} {values values' : Array Probability} {f : Factor}
    (h : Encodes options net literals values v f) (he : Extends values values') :
    Encodes options net literals values' v f where
  owner := h.owner
  scope := h.scope
  dims := h.dims
  size := h.size
  row ρ hρ := by
    obtain ⟨hp, w, hw, hstands⟩ := h.row ρ hρ
    exact ⟨hp, w, hw, hstands.mono he⟩

theorem getElem?_dims (hv : v < net.size) : net.dims[v]? = some (net.dimOf v) := by
  have hlt : v < net.dims.size := by
    rw [Network.dims, Array.size_map]
    exact hv
  rw [Network.dimOf, Array.getD_eq_getD_getElem?, Array.getElem?_eq_getElem hlt, Option.getD_some]

theorem ofScope_eq {us : List Variable} (h : ∀ u ∈ us, u < net.size) :
    Counter.ofScope net.dims us = .ok (Counter.zero (us.map net.dimOf)) := by
  have hdims : us.mapM (fetch net.dims) = .ok (us.map net.dimOf) := by
    refine Outcome.mapM_ok fun u hu => ?_
    rw [fetch, getElem?_dims (h u hu), expect]
  rw [Counter.ofScope, hdims]
  rfl

/-! ## The rows of a table -/

/-- The row of a factor in which an entry of the table of a variable is put. -/
def tableRow (net : Network) (v : Variable) : Nat → Nat :=
  rowOf (Counter.zero ((family net v).map net.dimOf))
    (Counter.zero ((family net v).mergeSort.map net.dimOf))
    (Counter.projectionUnsorted (family net v) (family net v).mergeSort)

theorem mem_sorted_family {u : Variable} : u ∈ (family net v).mergeSort ↔ u ∈ family net v :=
  (List.mergeSort_perm (family net v) _).mem_iff

theorem prod_sorted_family :
    ((family net v).mergeSort.map net.dimOf).prod = ((family net v).map net.dimOf).prod :=
  ((List.mergeSort_perm (family net v) _).map net.dimOf).prod_eq

theorem strict_sorted_family (hnet : net.Linked) (hv : v < net.size) :
    Strict (family net v).mergeSort := by
  have hsorted : (family net v).mergeSort.Pairwise (· ≤ ·) :=
    List.pairwise_mergeSort' (· ≤ ·) (family net v)
  have hnodup : (family net v).mergeSort.Nodup :=
    (List.mergeSort_perm _ _).nodup_iff.2 (hnet.nodup_family hv)
  exact (hsorted.and hnodup).imp fun h => Nat.lt_of_le_of_ne h.1 h.2

theorem tableRow_entryIndex (h : ∀ u ∈ family net v, ρ u < net.dimOf u) :
    tableRow net v (net.entryIndex v ρ) =
      Counter.number ((family net v).mergeSort.map net.dimOf) ((family net v).mergeSort.map ρ) :=
  rowOf_entryIndex h fun _ hu => mem_sorted_family.1 hu

theorem entryIndex_lt (h : ∀ u ∈ family net v, ρ u < net.dimOf u) :
    net.entryIndex v ρ < ((family net v).map net.dimOf).prod := by
  rw [← List.prod_reverse]
  exact Counter.number_lt (List.forall₂_reverse_iff.2 (Counter.fits_map h))

theorem tableRow_lt (hnet : net.WellFormed) (hv : v < net.size) {i : Nat}
    (hi : i < ((family net v).map net.dimOf).prod) :
    tableRow net v i < ((family net v).map net.dimOf).prod := by
  obtain ⟨ρ, hρ, rfl⟩ := exists_assignment (hnet.nodup_family hv) hi
  rw [← prod_sorted_family]
  refine (tableRow_entryIndex hρ).trans_lt (Counter.number_lt (Counter.fits_map fun u hu => ?_))
  exact hρ u (mem_sorted_family.1 hu)

theorem tableRow_injOn (hnet : net.WellFormed) (hv : v < net.size) {i j : Nat}
    (hi : i < ((family net v).map net.dimOf).prod) (hj : j < ((family net v).map net.dimOf).prod)
    (h : tableRow net v i = tableRow net v j) : i = j :=
  rowOf_injOn (hnet.nodup_family hv) (fun _ => mem_sorted_family) hi hj h

/-- Every row holds an entry. -/
theorem exists_tableRow (hnet : net.WellFormed) (hv : v < net.size) {r : Nat}
    (hr : r < ((family net v).map net.dimOf).prod) :
    ∃ i < ((family net v).map net.dimOf).prod, tableRow net v i = r := by
  have hnodup := (strict_sorted_family hnet.linked hv).nodup
  rw [← prod_sorted_family] at hr
  have hpos : ∀ d ∈ (family net v).mergeSort.map net.dimOf, 0 < d := by
    refine List.prod_pos_iff_forall_pos_nat.1 ?_
    omega
  have hdigits := (Counter.valid_wheelsOf (n := r) hpos).digit_lt
  rw [Counter.map_radix_wheelsOf] at hdigits
  obtain ⟨ρ, hρ, hlt⟩ := Counter.exists_map_eq hnodup hdigits
  have hfit : ∀ u ∈ family net v, ρ u < net.dimOf u := fun u hu => hlt u (mem_sorted_family.2 hu)
  refine ⟨_, entryIndex_lt hfit, ?_⟩
  rw [tableRow_entryIndex hfit, hρ, Counter.number_digits_wheelsOf hr]

/-- The rows of a table before its entries are put there. -/
def emptyRows (size : Nat) (values : Array Probability) : Rows :=
  ⟨Array.replicate size 0, Array.replicate size .zero, values, ∅⟩

/-- The entries of a table are put into its rows. -/
def fillRows (options : EncodingOptions) (net : Network) (v : Variable) (literals : Nat)
    (entries : List (Probability × Nat)) (rows : Rows) : Rows :=
  entries.foldl (fun rows q => rows.put options literals (tableRow net v q.2) q.1) rows

variable {n : Network.Node} {literals : Nat} {values : Array Probability} {firsts : Array Nat}

theorem size_table (hnet : net.WellFormed) (hn : net.nodes[v]? = some n) :
    n.table.size = ((family net v).map net.dimOf).prod := by
  rw [(hnet.node v n hn).table, family_eq hn]

/-- An assignment selects an entry of a table. -/
theorem exists_entryAt (hnet : net.WellFormed) (hv : v < net.size)
    (hρ : ∀ u ∈ family net v, ρ u < net.dimOf u) : ∃ n, net.nodes[v]? = some n ∧
      n.table[net.entryIndex v ρ]? = some (net.entryAt v ρ) := by
  have hn := Array.getElem?_eq_getElem hv
  generalize net.nodes[v] = n at hn
  have hi : net.entryIndex v ρ < n.table.size := size_table hnet hn ▸ entryIndex_lt hρ
  refine ⟨n, hn, ?_⟩
  simp [Network.entryAt, hn, Array.getD_eq_getD_getElem?, Array.getElem?_eq_getElem hi]

/-- The entries are put into different rows, which are there. -/
theorem spread_table (hnet : net.WellFormed) (hn : net.nodes[v]? = some n) :
    (n.table.toList.zipIdx.map fun q => tableRow net v q.2).Nodup ∧
      ∀ q ∈ n.table.toList.zipIdx, tableRow net v q.2 < n.table.size := by
  have hv : v < net.size := (Array.getElem?_eq_some_iff.1 hn).1
  have hsize := size_table hnet hn
  constructor
  · have hrange : n.table.toList.zipIdx.map (fun q => tableRow net v q.2) =
        (List.range n.table.size).map (tableRow net v) := by
      rw [← Array.length_toList, List.range_eq_range', ← List.zipIdx_map_snd 0, List.map_map]
      rfl
    rw [hrange]
    refine List.Nodup.map_on (fun i hi j hj h => ?_) List.nodup_range
    exact tableRow_injOn hnet hv (hsize ▸ List.mem_range.1 hi) (hsize ▸ List.mem_range.1 hj) h
  · intro q hq
    have hget := List.mem_zipIdx_iff_getElem?.1 hq
    rw [hsize]
    exact tableRow_lt hnet hv (hsize ▸ (List.getElem?_eq_some_iff.1 hget).1)

/-- The factor of a variable is made from the rows of its table, which need not be as long as it
should be. -/
theorem factorOf_eq (options : EncodingOptions) (hlt : ∀ u ∈ family net v, u < net.size)
    (hpos : ∀ u ∈ family net v, 0 < net.dimOf u)
    (hn : net.nodes[v]? = some n) (hfirsts : firsts.size = net.size) (literals : Nat)
    (values : Array Probability) : ∃ ls rows,
    rows = fillRows options net v literals n.table.toList.zipIdx (emptyRows n.table.size values) ∧
    factorOf options net firsts literals values v =
      .ok (⟨v, (family net v).mergeSort, ls, (family net v).mergeSort.map net.dimOf, rows.weights,
        rows.probabilities⟩, rows.values) := by
  have hlt' : ∀ u ∈ (family net v).mergeSort, u < net.size :=
    fun u hu => hlt u (mem_sorted_family.1 hu)
  have hfetch : ∃ ls, (family net v).mergeSort.mapM (fetch firsts) = .ok ls := by
    refine ⟨_, Outcome.mapM_ok (g := (firsts.getD · 0)) fun u hu => ?_⟩
    have hlt : u < firsts.size := hfirsts ▸ hlt' u hu
    simp [fetch, expect, Array.getD_eq_getD_getElem?, Array.getElem?_eq_getElem hlt]
  obtain ⟨ls, hls⟩ := hfetch
  have hnonzero : ((family net v).map net.dimOf).all (· != 0) = true := by
    rw [List.all_map, List.all_eq_true]
    intro u hu
    simpa using Nat.ne_of_gt (hpos u hu)
  refine ⟨ls, _, rfl, ?_⟩
  simp only [factorOf, Network.node, fetch, hn, expect, bind, Except.bind]
  rw [← family_eq hn, ofScope_eq hlt]
  simp only []
  rw [ofScope_eq hlt']
  simp only [ensure, Counter.radices_zero, hnonzero, Bool.or_true, if_true, hls, pure, Except.pure]
  rfl

/-- The factor of a variable encodes its table. -/
theorem factorOf_spec (options : EncodingOptions) (hnet : net.WellFormed) (hv : v < net.size)
    {firsts : Array Nat} (hfirsts : firsts.size = net.size) (literals : Nat)
    (values : Array Probability) :
    ∃ f values', factorOf options net firsts literals values v = .ok (f, values') ∧
      Extends values values' ∧ Encodes options net literals values' v f := by
  have hn := Array.getElem?_eq_getElem hv
  generalize net.nodes[v] = n at hn
  have hsize := size_table hnet hn
  obtain ⟨hnodup, hbound⟩ := spread_table hnet hn
  obtain ⟨ls, rows, hrows, hfactor⟩ := factorOf_eq options (fun u => hnet.family_lt hv)
    (fun u hu => hnet.dim_pos (hnet.family_lt hv hu)) hn hfirsts literals values
  have hwritten : Written options literals (tableRow net v) n.table.toList.zipIdx
      (emptyRows n.table.size values) rows := by
    rw [hrows]
    refine foldl_put (fun p w h => by simp [emptyRows] at h) hnodup fun q hq => ?_
    simpa [emptyRows] using hbound q hq
  refine ⟨_, _, hfactor, hwritten.grown, rfl, rfl, rfl, ?_, fun ρ hρ => ?_⟩
  · rw [hwritten.weights_size, prod_sorted_family, ← hsize]
    simp [emptyRows]
  · have hρ' : ∀ u ∈ family net v, ρ u < net.dimOf u :=
      fun u hu => hρ u (mem_sorted_family.2 hu)
    have hq : (net.entryAt v ρ, net.entryIndex v ρ) ∈ n.table.toList.zipIdx := by
      obtain ⟨n', hn', hentry⟩ := exists_entryAt hnet hv hρ'
      obtain rfl := Option.some.inj (hn.symm.trans hn')
      rwa [List.mem_zipIdx_iff_getElem?, Array.getElem?_toList]
    have hholds := hwritten.holds _ hq
    rw [tableRow_entryIndex hρ'] at hholds
    exact hholds

/-! ## Networks -/

/-- Whatever the tables are, a factor has the variables of its table in ascending order. -/
theorem scope_of_factorOf {firsts : Array Nat} {literals : Nat} {values : Array Probability}
    {r : Factor × Array Probability} (h : factorOf options net firsts literals values v = .ok r) :
    r.1.scope = (family net v).mergeSort := by
  obtain ⟨n, hn, h⟩ := Outcome.bind_eq_ok_iff.1 h
  obtain ⟨_, -, h⟩ := Outcome.bind_eq_ok_iff.1 h
  obtain ⟨_, -, h⟩ := Outcome.bind_eq_ok_iff.1 h
  obtain ⟨_, -, h⟩ := Outcome.bind_eq_ok_iff.1 h
  obtain ⟨_, -, h⟩ := Outcome.bind_eq_ok_iff.1 h
  cases h
  rw [family_eq (Outcome.expect_eq_ok.1 hn)]

theorem scopes_of_factorsFrom {firsts : Array Nat} {literals : Nat} : ∀ {vs : List Variable}
    {values : Array Probability} {r}, factorsFrom options net firsts literals vs values = .ok r →
    r.1.map Factor.scope = vs.map fun v => (family net v).mergeSort
  | [], _, _, h => by
      cases h
      rfl
  | v :: vs, _, _, h => by
      obtain ⟨⟨f, values₁⟩, hf, h⟩ := Outcome.bind_eq_ok_iff.1 h
      obtain ⟨⟨fs, values₂⟩, hfs, h⟩ := Outcome.bind_eq_ok_iff.1 h
      cases h
      rw [List.map_cons, List.map_cons, scope_of_factorOf hf, scopes_of_factorsFrom hfs]

/-- The factors of an encoded network have the variables of its tables. -/
theorem scope_of_ofNetwork {e : Encoding} {f : Factor} (h : ofNetwork options net = .ok e)
    (hf : e.factor v = .ok f) : f.scope = (family net v).mergeSort := by
  obtain ⟨⟨fs, values⟩, hfs, h⟩ := Outcome.bind_eq_ok_iff.1 h
  cases h
  have hget : fs[v]? = some f := by
    simpa using Outcome.expect_eq_ok.1 hf
  have hscopes := congrArg (·[v]?) (scopes_of_factorsFrom hfs)
  simp only [List.getElem?_map, hget, Option.map_some] at hscopes
  obtain ⟨u, hu, hscope⟩ := Option.map_eq_some_iff.1 hscopes.symm
  obtain ⟨_, rfl⟩ := List.getElem?_eq_some_iff.1 hu
  rw [← hscope, List.getElem_range]

/-- An encoding that has a factor for the table of every variable. -/
structure Represents (options : EncodingOptions) (net : Network) (e : Encoding) : Prop where
  dims : e.dims = net.dims
  literalCount : e.literalCount = net.dims.sum
  size : e.factors.size = net.size
  factor : ∀ v < net.size, ∃ f, e.factor v = .ok f ∧
    Encodes options net e.literalCount e.weightValues v f

/-- There is a table for every factor, and the network has literals. -/
theorem row_of_factor {e : Encoding} {f : Factor} (hnet : net.WellFormed)
    (R : Represents options net e) (hf : e.factor v = .ok f) : 0 < e.literalCount ∧ v < net.size ∧
      Encodes options net e.literalCount e.weightValues v f := by
  have hlt : v < net.size := by
    rw [← R.size]
    unfold factor fetch at hf
    cases hget : e.factors[v]? with
    | none => simp [hget, expect, abort] at hf
    | some f => exact (Array.getElem?_eq_some_iff.1 hget).1
  obtain ⟨f', hf', E⟩ := R.factor v hlt
  obtain rfl := Except.ok.inj (hf.symm.trans hf')
  refine ⟨?_, hlt, E⟩
  rw [R.literalCount]
  have hdim := hnet.dim_pos hlt
  have hsize : v < net.dims.toList.length := by
    rw [Array.length_toList, Network.dims, Array.size_map]
    exact hlt
  have hget : net.dimOf v = net.dims.toList[v] := by
    rw [Network.dimOf, Array.getD_eq_getD_getElem?, ← Array.getElem?_toList,
      List.getElem?_eq_getElem hsize, Option.getD_some]
  have hmem : net.dimOf v ∈ net.dims.toList := hget ▸ List.getElem_mem hsize
  have hle := List.single_le_sum (fun _ _ => Nat.zero_le _) _ hmem
  rw [Array.sum_toList] at hle
  omega

theorem factorsFrom_spec (options : EncodingOptions) (hnet : net.WellFormed) {firsts : Array Nat}
    (hfirsts : firsts.size = net.size) (literals : Nat) :
    ∀ {vs : List Variable} (values : Array Probability), (∀ v ∈ vs, v < net.size) →
      ∃ fs values', factorsFrom options net firsts literals vs values = .ok (fs, values') ∧
        Extends values values' ∧ List.Forall₂ (Encodes options net literals values') vs fs
  | [], values, _ => ⟨[], values, rfl, Extends.refl, .nil⟩
  | v :: vs, values, hvs => by
      obtain ⟨f, values₁, hf, hgrown, hencodes⟩ :=
        factorOf_spec options hnet (hvs v (List.mem_cons_self ..)) hfirsts literals
          values
      obtain ⟨fs, values₂, hfs, hgrown', hall⟩ :=
        factorsFrom_spec options hnet hfirsts literals values₁ fun u hu =>
          hvs u (List.mem_cons_of_mem _ hu)
      refine ⟨f :: fs, values₂, ?_, hgrown.trans hgrown', .cons (hencodes.mono hgrown') hall⟩
      simp only [factorsFrom, hf, hfs, bind, Except.bind, pure, Except.pure]

/-- Factors can be made one after the other if each of them can be. -/
theorem exists_factorsFrom {vs : List Variable} (values : Array Probability)
    (hall : ∀ v ∈ vs, ∀ values, ∃ r, factorOf options net firsts literals values v = .ok r) :
    ∃ r, factorsFrom options net firsts literals vs values = .ok r := by
  induction vs generalizing values with
  | nil => exact ⟨_, rfl⟩
  | cons v vs ih =>
      obtain ⟨hv, hvs⟩ := List.forall_mem_cons.1 hall
      obtain ⟨⟨f, values₁⟩, hf⟩ := hv values
      obtain ⟨⟨fs, values₂⟩, hfs⟩ := ih values₁ hvs
      exact ⟨(f :: fs, values₂), by
        simp only [factorsFrom, hf, hfs, bind, Except.bind, pure, Except.pure]⟩

theorem length_firstLiteralsFrom {l : Nat} {dims : List Nat} :
    (firstLiteralsFrom l dims).length = dims.length := by
  induction dims generalizing l with
  | nil => rfl
  | cons d dims ih => rw [firstLiteralsFrom, List.length_cons, ih, List.length_cons]

theorem size_literalVariables (dims : Array Nat) :
    ((#[0] : Array Nat) ++ dims.toList.zipIdx.toArray.flatMap fun (dim, v) =>
      Array.replicate dim v).size - 1 = dims.sum := by
  have hlen : ∀ (ds : List Nat) (k : Nat),
      ((ds.zipIdx k).flatMap fun (dim, v) => List.replicate dim v).length = ds.sum := by
    intro ds
    induction ds with
    | nil => exact fun k => rfl
    | cons d ds ih =>
        intro k
        rw [List.zipIdx_cons, List.flatMap_cons, List.length_append, ih, List.sum_cons,
          List.length_replicate]
  have hflat : (dims.toList.zipIdx.toArray.flatMap fun (dim, v) => Array.replicate dim v).toList =
      dims.toList.zipIdx.flatMap fun (dim, v) => List.replicate dim v := by
    simp
  have hsize := congrArg List.length hflat
  rw [Array.length_toList, hlen] at hsize
  rw [Array.size_append, hsize]
  simp

theorem sumOf_toList (ns : Array Nat) : sumOf ns.toList = ns.sum := Array.sum_toList

theorem size_firstLiteralsFrom :
    (firstLiteralsFrom 1 net.dims.toList).toArray.size = net.size := by
  rw [List.size_toArray, length_firstLiteralsFrom, Array.length_toList, Network.dims,
    Array.size_map]
  rfl

/-- Every network can be encoded whose parents are there and have values, as long as every variable
has some. -/
theorem exists_ofNetwork (options : EncodingOptions) (hnet : net.Closed)
    (hpos : ∀ v < net.size, 0 < net.dimOf v) : ∃ e, ofNetwork options net = .ok e := by
  have hone : ∀ v ∈ List.range net.size, ∀ values, ∃ r, factorOf options net
      (firstLiteralsFrom 1 net.dims.toList).toArray (sumOf net.dims.toList) values v = .ok r := by
    intro v hv values
    have hv := List.mem_range.1 hv
    obtain ⟨ls, rows, -, h⟩ := factorOf_eq options (fun u => hnet.family_lt hv)
      (fun u hu => hpos u (hnet.family_lt hv hu)) (Array.getElem?_eq_getElem hv)
      size_firstLiteralsFrom (sumOf net.dims.toList) values
    exact ⟨_, h⟩
  obtain ⟨⟨fs, values⟩, hrun⟩ := exists_factorsFrom #[] hone
  exact ⟨_, Outcome.bind_eq_ok_iff.2 ⟨_, hrun, rfl⟩⟩

/-- A well-formed network can be encoded. -/
theorem ofNetwork_spec (options : EncodingOptions) (hnet : net.WellFormed) :
    ∃ e, ofNetwork options net = .ok e ∧ Represents options net e := by
  obtain ⟨fs, values, hrun, _, hall⟩ := factorsFrom_spec options hnet size_firstLiteralsFrom
    (sumOf net.dims.toList) #[] fun v (hv : v ∈ List.range net.size) => List.mem_range.1 hv
  have hlen : fs.length = net.size := by rw [← hall.length_eq, List.length_range]
  have hcount := size_literalVariables net.dims
  obtain ⟨e, he⟩ : ∃ e, ofNetwork options net = .ok e :=
    ⟨_, by simp only [ofNetwork, hrun, bind, Except.bind, pure, Except.pure]; rfl⟩
  refine ⟨e, he, ?_⟩
  simp only [ofNetwork, hrun, bind, Except.bind, pure, Except.pure] at he
  cases he
  refine ⟨rfl, hcount, by rw [List.size_toArray, hlen], fun v hv => ?_⟩
  have hv' : v < fs.length := hlen ▸ hv
  have hget := hall.get (i := v) (by rwa [List.length_range]) hv'
  refine ⟨fs[v], ?_, ?_⟩
  · simp [factor, fetch, expect, hv']
  · have hencodes : Encodes options net (sumOf net.dims.toList) values v fs[v] := by
      simpa using hget
    rw [sumOf_toList, ← hcount] at hencodes
    exact hencodes

end BayesCircuit.Encoding

/-! ## Where the literals of a factor lie -/

namespace BayesCircuit

/-- The literals of the variables in the scope of a factor are the runs that the factor lists. -/
structure Factor.Laid (f : Factor) (literalVariables : Array Variable)
    (first dim : Variable → Nat) : Prop where
  firsts : f.firsts = f.scope.map first
  dims : f.dims = f.scope.map dim
  first_pos : ∀ u ∈ f.scope, 0 < first u
  literal : ∀ u ∈ f.scope, ∀ n, 0 < n →
    (literalVariables[n]? = some u ↔ first u ≤ n ∧ n < first u + dim u)

namespace Encoding

variable {net : Network} {options : EncodingOptions} {e : Encoding} {f : Factor} {v : Variable}

/-- The literals of later variables come after those of earlier ones. -/
theorem le_first {dims : List Nat} {l i first : Nat}
    (h : (firstLiteralsFrom l dims)[i]? = some first) : l ≤ first := by
  induction dims generalizing l i with
  | nil => simp [firstLiteralsFrom] at h
  | cons d dims ih =>
      cases i with
      | zero =>
          have : l = first := by simpa [firstLiteralsFrom] using h
          omega
      | succ i =>
          have := ih (l := l + d) (by simpa [firstLiteralsFrom] using h)
          omega

/-- No variable begins after the last literal but one. -/
theorem first_le {dims : List Nat} {l i first : Nat}
    (h : (firstLiteralsFrom l dims)[i]? = some first) : first ≤ l + dims.sum := by
  induction dims generalizing l i with
  | nil => simp [firstLiteralsFrom] at h
  | cons d dims ih =>
      rw [List.sum_cons]
      cases i with
      | zero =>
          have : l = first := by simpa [firstLiteralsFrom] using h
          omega
      | succ i =>
          have := ih (l := l + d) (by simpa [firstLiteralsFrom] using h)
          omega

/-- The variables of the literals, from the literal `l` of variable number `k` on. -/
theorem getElem?_layout {dims : List Nat} {k l n u : Nat} :
    ((dims.zipIdx k).flatMap fun (dim, v) => List.replicate dim v)[n]? = some u ↔
      ∃ i first dim, u = k + i ∧ (firstLiteralsFrom l dims)[i]? = some first ∧
        dims[i]? = some dim ∧ first ≤ l + n ∧ l + n < first + dim := by
  induction dims generalizing k l n with
  | nil => simp [firstLiteralsFrom]
  | cons d dims ih =>
      rw [List.zipIdx_cons, List.flatMap_cons, firstLiteralsFrom]
      by_cases hn : n < d
      · rw [List.getElem?_append_left (by simpa using hn)]
        constructor
        · intro h
          have hu : k = u := by simpa [hn] using h
          exact ⟨0, l, d, by omega, rfl, rfl, by omega, by omega⟩
        · rintro ⟨i, first, dim, rfl, hfirst, hdim, hle, hlt⟩
          cases i with
          | zero => simp [hn]
          | succ i =>
              have := le_first (i := i) (l := l + d) (by simpa using hfirst)
              omega
      · rw [List.getElem?_append_right (by simpa using hn), List.length_replicate,
          ih (l := l + d)]
        constructor
        · rintro ⟨i, first, dim, rfl, hfirst, hdim, hle, hlt⟩
          exact ⟨i + 1, first, dim, by omega, by simpa using hfirst, by simpa using hdim,
            by omega, by omega⟩
        · rintro ⟨i, first, dim, rfl, hfirst, hdim, hle, hlt⟩
          cases i with
          | zero =>
              obtain rfl : l = first := by simpa using hfirst
              obtain rfl : d = dim := by simpa using hdim
              omega
          | succ i =>
              exact ⟨i, first, dim, by omega, by simpa using hfirst, by simpa using hdim,
                by omega, by omega⟩

theorem factorsFrom_ok {firsts : Array Nat} {literals : Nat} {vs : List Variable} {fs : List Factor}
    {values values' : Array Probability}
    (h : factorsFrom options net firsts literals vs values = .ok (fs, values')) :
    List.Forall₂ (fun v f => ∃ before after,
      factorOf options net firsts literals before v = .ok (f, after)) vs fs := by
  induction vs generalizing values fs with
  | nil =>
      cases h
      exact .nil
  | cons v vs ih =>
      rw [factorsFrom] at h
      obtain ⟨⟨f, values₁⟩, hf, h⟩ := Outcome.bind_eq_ok_iff.1 h
      obtain ⟨⟨fs', values₂⟩, hfs, h⟩ := Outcome.bind_eq_ok_iff.1 h
      cases h
      exact .cons ⟨_, _, hf⟩ (ih hfs)

theorem fetch_eq_ok {α : Type} {xs : Array α} {i : Nat} {x : α} :
    fetch xs i = .ok x ↔ xs[i]? = some x :=
  Outcome.expect_eq_ok

/-- The results of a list that are looked up. -/
theorem map_of_mapM_fetch {xs : Array Nat} {is ys : List Nat} (h : is.mapM (fetch xs) = .ok ys) :
    ys = is.map (xs.getD · 0) ∧ ∀ i ∈ is, i < xs.size := by
  have hall := Outcome.mapM_eq_ok_iff.1 h
  clear h
  induction hall with
  | nil => exact ⟨rfl, fun i hi => absurd hi List.not_mem_nil⟩
  | cons hy _ ih =>
      obtain ⟨hlt, hget⟩ := Array.getElem?_eq_some_iff.1 (fetch_eq_ok.1 hy)
      refine ⟨?_, List.forall_mem_cons.2 ⟨hlt, ih.2⟩⟩
      rw [List.map_cons, ← ih.1, Array.getD_eq_getD_getElem?, fetch_eq_ok.1 hy, Option.getD_some]

/-- What a factor lists about its scope. -/
theorem factorOf_ok {firsts : Array Nat} {literals : Nat} {before after : Array Probability}
    (h : factorOf options net firsts literals before v = .ok (f, after)) :
    f.firsts = f.scope.map (firsts.getD · 0) ∧ f.dims = f.scope.map net.dimOf ∧
      (∀ u ∈ f.scope, u < net.size) ∧ v ∈ f.scope := by
  unfold factorOf at h
  obtain ⟨node, _, h⟩ := Outcome.bind_eq_ok_iff.1 h
  obtain ⟨table, _, h⟩ := Outcome.bind_eq_ok_iff.1 h
  obtain ⟨ascending, hascending, h⟩ := Outcome.bind_eq_ok_iff.1 h
  obtain ⟨_, _, h⟩ := Outcome.bind_eq_ok_iff.1 h
  obtain ⟨ls, hls, h⟩ := Outcome.bind_eq_ok_iff.1 h
  cases h
  obtain ⟨rs, hrs, hzero⟩ := Outcome.bind_eq_ok_iff.1 hascending
  cases hzero
  obtain ⟨rfl, hlt⟩ := map_of_mapM_fetch hrs
  refine ⟨(map_of_mapM_fetch hls).1, Counter.radices_zero, fun u hu => ?_, ?_⟩
  · have := hlt u hu
    rwa [Network.dims, Array.size_map] at this
  · exact (List.mergeSort_perm (node.parents ++ [v]) _).mem_iff.2
      (List.mem_append_right _ (List.mem_singleton_self v))

theorem size_firstLiterals (he : ofNetwork options net = .ok e) :
    e.firstLiterals.size = net.size := by
  unfold ofNetwork at he
  obtain ⟨_, _, he⟩ := Outcome.bind_eq_ok_iff.1 he
  cases he
  rw [List.size_toArray, length_firstLiteralsFrom, Array.length_toList, Network.dims,
    Array.size_map]
  rfl

theorem first_pos (he : ofNetwork options net = .ok e) {u first : Nat}
    (h : e.firstLiterals[u]? = some first) : 0 < first := by
  unfold ofNetwork at he
  obtain ⟨_, _, he⟩ := Outcome.bind_eq_ok_iff.1 he
  cases he
  rw [List.getElem?_toArray] at h
  exact le_first h

/-- The literals of a variable are the run that begins with its first literal. -/
theorem getElem?_literalVariables (he : ofNetwork options net = .ok e) {l u : Nat} (hl : 0 < l) :
    e.literalVariables[l]? = some u ↔ ∃ first dim, e.firstLiterals[u]? = some first ∧
      net.dims[u]? = some dim ∧ first ≤ l ∧ l < first + dim := by
  unfold ofNetwork at he
  obtain ⟨_, _, he⟩ := Outcome.bind_eq_ok_iff.1 he
  cases he
  obtain ⟨n, rfl⟩ := Nat.exists_eq_add_of_lt hl
  have hget : ((#[0] : Array Nat) ++ net.dims.toList.zipIdx.toArray.flatMap fun (dim, v) =>
      Array.replicate dim v)[0 + n + 1]? =
      (net.dims.toList.zipIdx.flatMap fun (dim, v) => List.replicate dim v)[n]? := by
    rw [← Array.getElem?_toList]
    simp
  simp only [hget, List.getElem?_toArray]
  rw [getElem?_layout (l := 1)]
  constructor
  · rintro ⟨i, first, dim, rfl, hfirst, hdim, hle, hlt⟩
    rw [Nat.zero_add i]
    exact ⟨first, dim, hfirst, by rwa [← Array.getElem?_toList], by omega, by omega⟩
  · rintro ⟨first, dim, hfirst, hdim, hle, hlt⟩
    exact ⟨u, first, dim, (Nat.zero_add u).symm, hfirst, by rwa [Array.getElem?_toList],
      by omega, by omega⟩

theorem factor_eq_ok (he : ofNetwork options net = .ok e) (hf : e.factor v = .ok f) :
    f.firsts = f.scope.map (e.firstLiterals.getD · 0) ∧ f.dims = f.scope.map net.dimOf ∧
      (∀ u ∈ f.scope, u < net.size) ∧ v ∈ f.scope := by
  unfold ofNetwork at he
  obtain ⟨⟨fs, values⟩, hfs, he⟩ := Outcome.bind_eq_ok_iff.1 he
  cases he
  rw [factor, fetch_eq_ok, List.getElem?_toArray] at hf
  obtain ⟨hv, rfl⟩ := List.getElem?_eq_some_iff.1 hf
  have hall := factorsFrom_ok hfs
  have hlen : v < net.size := by
    rwa [← hall.length_eq, List.length_range] at hv
  obtain ⟨before, after, hfactor⟩ := hall.get (by rwa [List.length_range]) hv
  have hget : (List.range net.size).get ⟨v, by rwa [List.length_range]⟩ = v := by simp
  rw [hget] at hfactor
  exact factorOf_ok hfactor

/-- A factor of an encoding lists where the literals of its variables lie. -/
theorem laid_factor (he : ofNetwork options net = .ok e) (hf : e.factor v = .ok f) :
    f.Laid e.literalVariables (e.firstLiterals.getD · 0) net.dimOf ∧ v ∈ f.scope ∧
      ∀ u ∈ f.scope, u < net.size := by
  obtain ⟨hfirsts, hdims, hlt, hmem⟩ := factor_eq_ok he hf
  have hfirst : ∀ u ∈ f.scope, e.firstLiterals[u]? = some (e.firstLiterals.getD u 0) := by
    intro u hu
    have hu' : u < e.firstLiterals.size := size_firstLiterals he ▸ hlt u hu
    rw [Array.getD_eq_getD_getElem?, Array.getElem?_eq_getElem hu', Option.getD_some]
  have hdim : ∀ u ∈ f.scope, net.dims[u]? = some (net.dimOf u) :=
    fun u hu => getElem?_dims (hlt u hu)
  refine ⟨⟨hfirsts, hdims, fun u hu => first_pos he (hfirst u hu), fun u hu n hn => ?_⟩, hmem, hlt⟩
  rw [getElem?_literalVariables he hn, hfirst u hu, hdim u hu]
  constructor
  · rintro ⟨first, dim, hfirst, hdim, hle, hlt⟩
    obtain rfl := Option.some.inj hfirst
    obtain rfl := Option.some.inj hdim
    exact ⟨hle, hlt⟩
  · rintro ⟨hle, hlt⟩
    exact ⟨_, _, rfl, rfl, hle, hlt⟩

end Encoding
end BayesCircuit
