import BayesCircuit.Decision.Rows
import BayesCircuit.Proofs.Encoding.Factors
import Mathlib.Algebra.BigOperators.Group.Finset.Basic
import Mathlib.Data.Finset.Range

/-!
# What the engine of a table knows about its rows

When nothing has been conditioned on, an engine lists for every literal the rows that have it, once
for each variable of the table that shows it (`addRows_ok`). So the literals of a row, counted over
all numbers, are as many as the table has variables. Conditioning and taking back do not change any
of this (`Table`).
-/

namespace BayesCircuit

theorem Counter.length_incrementWheels {ws ws' : List Wheel} (h : incrementWheels ws = some ws') :
    ws'.length = ws.length := by
  induction ws generalizing ws' with
  | nil => cases h
  | cons w ws ih =>
      rw [incrementWheels] at h
      split at h
      · cases h
        rfl
      · obtain ⟨ws₁, h₁, rfl⟩ := Option.map_eq_some_iff.1 h
        rw [List.length_cons, List.length_cons, ih h₁]

/-- A counter keeps its number of wheels. -/
theorem Counter.size_of_mem_walkFrom {c c' : Counter} {fuel : Nat} (h : c' ∈ walkFrom fuel c) :
    c'.size = c.size := by
  induction fuel generalizing c with
  | zero =>
      obtain rfl := List.mem_singleton.1 h
      rfl
  | succ fuel ih =>
      rw [walkFrom] at h
      split at h
      · obtain rfl := List.mem_singleton.1 h
        rfl
      · rename_i next hnext
        obtain ⟨ws, hws, rfl⟩ := Option.map_eq_some_iff.1 hnext
        rcases List.mem_cons.1 h with rfl | h
        · rfl
        · exact (ih h).trans (length_incrementWheels hws)

namespace Decision.Rows

open Encoding

/-- The numbers of the literals of the row that a counter shows. -/
def literalsOf (f : Factor) (c : Counter) : List Nat := List.zipWith (· + ·) f.firsts c.digits

variable {f : Factor} {r : Rows} {literalVariables : Array Variable} {determinism : Bool}

/-! ## Adding rows -/

theorem addRow_ok {row : Nat} {ls : List Nat} {rowsOf rowsOf' : Array (List Nat)}
    (h : addRow row ls rowsOf = .ok rowsOf') :
    rowsOf'.size = rowsOf.size ∧ (∀ l ∈ ls, l < rowsOf.size) ∧
      ∀ i < rowsOf.size,
        rowsOf'.getD i [] = rowsOf.getD i [] ++ List.replicate (ls.count i) row := by
  induction ls generalizing rowsOf with
  | nil =>
      cases h
      exact ⟨rfl, fun l hl => absurd hl List.not_mem_nil, fun i _ => by simp⟩
  | cons l ls ih =>
      rw [addRow] at h
      obtain ⟨_, hensure, h⟩ := Outcome.bind_eq_ok_iff.1 h
      have hl : l < rowsOf.size := by
        by_contra hge
        simp [ensure, hge, abort] at hensure
      obtain ⟨hsize, hlt, hget⟩ := ih h
      rw [Array.size_modify] at hsize hlt hget
      refine ⟨hsize, List.forall_mem_cons.2 ⟨hl, hlt⟩, fun i hi => ?_⟩
      have hmodify : (rowsOf.modify l (· ++ [row])).getD i [] =
          rowsOf.getD i [] ++ if l = i then [row] else [] := by
        simp only [Array.getD_eq_getD_getElem?, Array.getElem?_modify,
          Array.getElem?_eq_getElem hi]
        split <;> simp
      rw [hget i hi, hmodify, List.append_assoc, List.count_cons]
      congr 1
      by_cases he : l = i
      · simp [he, List.replicate_succ]
      · simp [he]

/-- The rows that have been added are the last ones, in the order of the counters. -/
theorem addRows_ok {cs : List Counter} {weights weights' : Array Weight}
    {rowsOf rowsOf' : Array (List Nat)}
    (h : addRows f cs weights rowsOf = .ok (weights', rowsOf')) :
    weights'.size = weights.size + cs.length ∧ rowsOf'.size = rowsOf.size ∧
      (∀ c ∈ cs, ∀ l ∈ literalsOf f c, l < rowsOf.size) ∧
      (∀ ρ, weights'[ρ]? = if ρ < weights.size then weights[ρ]?
        else cs[ρ - weights.size]?.bind fun c => f.weights[c.value]?) ∧
      ∀ i < rowsOf.size, ∀ ρ, (rowsOf'.getD i []).count ρ = (rowsOf.getD i []).count ρ +
        if ρ < weights.size then 0
        else (cs[ρ - weights.size]?.map fun c => (literalsOf f c).count i).getD 0 := by
  induction cs generalizing weights rowsOf with
  | nil =>
      cases h
      refine ⟨rfl, rfl, fun c hc => absurd hc List.not_mem_nil, fun ρ => ?_, fun i _ ρ => ?_⟩
      · split <;> simp_all
      · split <;> simp
  | cons c cs ih =>
      rw [addRows] at h
      obtain ⟨w, hw, h⟩ := Outcome.bind_eq_ok_iff.1 h
      obtain ⟨rowsOf₁, hrow, h⟩ := Outcome.bind_eq_ok_iff.1 h
      obtain ⟨hsize₁, hlt₁, hget₁⟩ := addRow_ok hrow
      obtain ⟨hweights, hsize, hlt, hget, hcount⟩ := ih h
      rw [Array.size_push] at hweights
      rw [hsize₁] at hsize hlt
      refine ⟨by rw [hweights, List.length_cons]; omega, hsize,
        List.forall_mem_cons.2 ⟨hlt₁, hlt⟩, fun ρ => ?_, fun i hi ρ => ?_⟩
      · rw [hget ρ, Array.size_push]
        rcases Nat.lt_trichotomy ρ weights.size with hρ | rfl | hρ
        · rw [if_pos (Nat.lt_succ_of_lt hρ), if_pos hρ, Array.getElem?_push_lt hρ,
            Array.getElem?_eq_getElem hρ]
        · rw [if_pos (Nat.lt_succ_self _), if_neg (Nat.lt_irrefl _), Array.getElem?_push_size,
            Nat.sub_self]
          exact (fetch_eq_ok.1 hw).symm
        · have hsub : ρ - weights.size = ρ - (weights.size + 1) + 1 := by omega
          rw [if_neg (by omega), if_neg (by omega), hsub, List.getElem?_cons_succ]
      · rw [hcount i (hsize₁ ▸ hi) ρ, hget₁ i hi, List.count_append, List.count_replicate,
          Array.size_push, Nat.add_assoc]
        congr 1
        rcases Nat.lt_trichotomy ρ weights.size with hρ | rfl | hρ
        · have hne : (weights.size == ρ) = false := by simp; omega
          rw [if_neg (ne_true_of_eq_false hne), if_pos (Nat.lt_succ_of_lt hρ), if_pos hρ]
        · rw [if_pos (Nat.lt_succ_self _), if_neg (Nat.lt_irrefl _), Nat.sub_self]
          simp [literalsOf]
        · have hne : (weights.size == ρ) = false := by simp; omega
          have hsub : ρ - weights.size = ρ - (weights.size + 1) + 1 := by omega
          rw [if_neg (ne_true_of_eq_false hne), if_neg (by omega), if_neg (by omega), hsub,
            List.getElem?_cons_succ, Nat.zero_add]

/-! ## The table of an engine -/

/-- What never changes about an engine: where the literals of its variables lie, which rows have
them, and that every row has one for each variable. -/
structure Table (r : Rows) (first dim : Variable → Nat) : Prop where
  firsts : r.firsts = (r.scope.map first).toArray
  dims : r.dims = (r.scope.map dim).toArray
  first_pos : ∀ u ∈ r.scope, 0 < first u
  literal : ∀ u ∈ r.scope, ∀ n, 0 < n →
    (r.literalVariables[n]? = some u ↔ first u ≤ n ∧ n < first u + dim u)
  size : r.rowsOf.size = r.literalVariables.size
  row_lt : ∀ i < r.rowsOf.size, ∀ ρ ∈ r.rowsOf.getD i [], ρ < r.weights.size
  literals : ∀ ρ < r.weights.size,
    ∑ i ∈ Finset.range r.rowsOf.size, (r.rowsOf.getD i []).count ρ = r.scope.length

/-- Nothing has been conditioned on. -/
structure Fresh (r : Rows) : Prop where
  missing : r.missing = Array.replicate r.weights.size r.scope.length
  resolvedBy : r.resolvedBy = Array.replicate r.weights.size 0
  pending : r.pending = r.weights.size
  valuesLeft : r.valuesLeft = r.dims
  chosen : r.chosen = Array.replicate r.scope.length false
  constrained : r.constrained = Array.replicate r.literalVariables.size false
  history : r.history = []

/-- Which rows an engine starts with. -/
structure Lists (r : Rows) (f : Factor) (cs : List Counter) : Prop where
  weights_size : r.weights.size = cs.length
  weight : ∀ ρ : Nat, r.weights[ρ]? = cs[ρ]?.bind fun c : Counter => f.weights[c.value]?
  literals_lt : ∀ c ∈ cs, ∀ l ∈ literalsOf f c, l < r.rowsOf.size
  count : ∀ i < r.rowsOf.size, ∀ ρ, (r.rowsOf.getD i []).count ρ =
    (cs[ρ]?.map fun c => (literalsOf f c).count i).getD 0

theorem start_ok (h : start f literalVariables determinism = .ok r) :
    r.Fresh ∧ r.Lists f f.counter.walk ∧ r.determinism = determinism ∧
      r.literalVariables = literalVariables ∧ r.scope = f.scope ∧ r.firsts = f.firsts.toArray ∧
      r.dims = f.dims.toArray ∧ r.rowsOf.size = literalVariables.size := by
  unfold start at h
  obtain ⟨⟨weights, rowsOf⟩, hadd, h⟩ := Outcome.bind_eq_ok_iff.1 h
  cases h
  obtain ⟨hweights, hsize, hlt, hget, hcount⟩ := addRows_ok hadd
  rw [Array.size_replicate] at hsize hlt hcount
  rw [← hsize] at hlt
  refine ⟨⟨rfl, rfl, rfl, rfl, rfl, rfl, rfl⟩, ⟨?_, fun ρ => ?_, hlt, fun i hi ρ => ?_⟩,
    rfl, rfl, rfl, rfl, rfl, hsize⟩
  · simpa using hweights
  · simpa using hget ρ
  · have hi' : i < literalVariables.size := hsize ▸ hi
    have := hcount i hi' ρ
    simpa [Array.getD_eq_getD_getElem?, hi'] using this

/-- The engine of a factor whose literals are laid out starts with a table. -/
theorem table_start {first dim : Variable → Nat} (hlaid : f.Laid literalVariables first dim)
    (h : start f literalVariables determinism = .ok r) : r.Table first dim := by
  obtain ⟨-, hlists, -, rfl, hscope, hfirsts, hdims, hsize⟩ := start_ok h
  have hwheels : ∀ c ∈ f.counter.walk, (literalsOf f c).length = f.scope.length := by
    intro c hc
    have hc := Counter.size_of_mem_walkFrom hc
    have hdigits : c.digits.length = c.size := by rw [Counter.digits, List.length_map, Counter.size]
    rw [literalsOf, List.length_zipWith, hdigits, hc, hlaid.firsts]
    simp [Factor.counter, Counter.zero, Counter.size, hlaid.dims]
  refine ⟨by rw [hfirsts, hlaid.firsts, hscope], by rw [hdims, hlaid.dims, hscope],
    hscope ▸ hlaid.first_pos, hscope ▸ hlaid.literal, hsize, fun i hi ρ hρ => ?_, fun ρ hρ => ?_⟩
  · have hcount := hlists.count i hi ρ
    have hpos := List.count_pos_iff.2 hρ
    rw [hlists.weights_size]
    by_contra hge
    rw [List.getElem?_eq_none (by omega), Option.map_none, Option.getD_none] at hcount
    omega
  · rw [hlists.weights_size] at hρ
    have hget := List.getElem?_eq_getElem hρ
    calc ∑ i ∈ Finset.range r.rowsOf.size, (r.rowsOf.getD i []).count ρ
        = ∑ i ∈ Finset.range r.rowsOf.size, (literalsOf f f.counter.walk[ρ]).count i := by
          refine Finset.sum_congr rfl fun i hi => ?_
          rw [hlists.count i (Finset.mem_range.1 hi), hget]
          rfl
      _ = (literalsOf f f.counter.walk[ρ]).length := by
          have hmem : ∀ l ∈ (literalsOf f f.counter.walk[ρ] : Multiset Nat),
              l ∈ Finset.range r.rowsOf.size := fun l hl =>
            Finset.mem_range.2 (hlists.literals_lt _ (List.getElem_mem hρ) l hl)
          simpa using Multiset.sum_count_eq_card hmem
      _ = r.scope.length := by rw [hwheels _ (List.getElem_mem hρ), hscope]

/-! ## Starting -/

theorem addRow_total {ls : List Nat} {rowsOf : Array (List Nat)} (row : Nat)
    (h : ∀ l ∈ ls, l < rowsOf.size) : ∃ rowsOf', addRow row ls rowsOf = .ok rowsOf' := by
  induction ls generalizing rowsOf with
  | nil => exact ⟨rowsOf, rfl⟩
  | cons l ls ih =>
      obtain ⟨hl, hls⟩ := List.forall_mem_cons.1 h
      obtain ⟨rowsOf', hrun⟩ := @ih (rowsOf.modify l (· ++ [row]))
        (by simpa only [Array.size_modify] using hls)
      exact ⟨rowsOf', Outcome.bind_eq_ok_iff.2 ⟨(), if_pos (by simpa using hl), hrun⟩⟩

theorem addRows_total {cs : List Counter} {weights : Array Weight} {rowsOf : Array (List Nat)}
    (h : ∀ c ∈ cs, c.value < f.weights.size ∧ ∀ l ∈ literalsOf f c, l < rowsOf.size) :
    ∃ added, addRows f cs weights rowsOf = .ok added := by
  induction cs generalizing weights rowsOf with
  | nil => exact ⟨_, rfl⟩
  | cons c cs ih =>
      obtain ⟨⟨hvalue, hls⟩, hrest⟩ := List.forall_mem_cons.1 h
      obtain ⟨rowsOf₁, hrow⟩ := addRow_total weights.size hls
      obtain ⟨hsize, -, -⟩ := addRow_ok hrow
      obtain ⟨added, hrun⟩ := @ih (weights.push f.weights[c.value]) rowsOf₁
        (by simpa only [hsize] using hrest)
      refine ⟨added, Outcome.bind_eq_ok_iff.2 ⟨f.weights[c.value], ?_,
        Outcome.bind_eq_ok_iff.2 ⟨rowsOf₁, hrow, hrun⟩⟩⟩
      exact fetch_eq_ok.2 (Array.getElem?_eq_getElem hvalue)

/-- The literals of a row lie in the runs of its variables. -/
theorem mem_zipWith_add {first dim : Variable → Nat} {us : List Variable} {ds : List Nat} {l : Nat}
    (h : List.Forall₂ (· < ·) ds (us.map dim)) (hl : l ∈ List.zipWith (· + ·) (us.map first) ds) :
    ∃ u ∈ us, first u ≤ l ∧ l < first u + dim u := by
  induction us generalizing ds with
  | nil => simp at hl
  | cons u us ih =>
      rw [List.map_cons] at h
      cases h with
      | cons hd hds =>
          rw [List.map_cons, List.zipWith_cons_cons, List.mem_cons] at hl
          rcases hl with rfl | hl
          · exact ⟨u, List.mem_cons_self .., by omega, by omega⟩
          · obtain ⟨w, hw, hle⟩ := ih hds hl
            exact ⟨w, List.mem_cons_of_mem _ hw, hle⟩

/-- An engine can be started if all variables have values and the table has all its rows. -/
theorem start_total {first dim : Variable → Nat} (determinism : Bool)
    (hlaid : f.Laid literalVariables first dim) (hpos : ∀ u ∈ f.scope, 0 < dim u)
    (hsize : f.weights.size = f.dims.prod) :
    ∃ r, start f literalVariables determinism = .ok r := by
  have hdims : ∀ r ∈ f.dims, 0 < r := by
    rw [hlaid.dims]
    intro r hr
    obtain ⟨u, hu, rfl⟩ := List.mem_map.1 hr
    exact hpos u hu
  have hwalk := Counter.walk_zero hdims
  have hadd : ∃ added, addRows f f.counter.walk #[] (Array.replicate literalVariables.size []) =
      .ok added := by
    refine addRows_total fun c hc => ?_
    rw [Factor.counter, hwalk] at hc
    obtain ⟨n, hn, rfl⟩ := List.mem_map.1 hc
    rw [List.mem_range] at hn
    refine ⟨?_, fun l hl => ?_⟩
    · rw [Counter.value, Counter.value_wheelsOf hn, hsize]
      exact hn
    · have hdigits := (Counter.valid_wheelsOf (n := n) hdims).digit_lt
      rw [Counter.map_radix_wheelsOf] at hdigits
      nth_rewrite 2 [hlaid.dims] at hdigits
      rw [literalsOf, hlaid.firsts] at hl
      obtain ⟨u, hu, hle, hlt⟩ := mem_zipWith_add hdigits hl
      have hfirst := hlaid.first_pos u hu
      have hget := (hlaid.literal u hu l (by omega)).2 ⟨hle, hlt⟩
      rw [Array.size_replicate]
      exact (Array.getElem?_eq_some_iff.1 hget).1
  obtain ⟨⟨weights, rowsOf⟩, hadd⟩ := hadd
  exact ⟨_, Outcome.bind_eq_ok_iff.2 ⟨_, hadd, rfl⟩⟩

/-- The engine of a table of a well-formed network can be started. -/
theorem start_wellFormed {options : EncodingOptions} {net : Network} {e : Encoding} {v : Variable}
    (determinism : Bool) (hnet : net.WellFormed) (he : ofNetwork options net = .ok e)
    (hv : v < net.size) :
    ∃ f r, e.factor v = .ok f ∧ start f e.literalVariables determinism = .ok r := by
  obtain ⟨e', he', hrep⟩ := ofNetwork_spec options hnet
  cases he.symm.trans he'
  obtain ⟨f, hf, hencodes⟩ := hrep.factor v hv
  obtain ⟨hlaid, -, hlt⟩ := laid_factor he hf
  obtain ⟨r, hr⟩ := start_total determinism hlaid
    (fun u hu => hnet.dim_pos (hlt u hu)) hencodes.size
  exact ⟨f, r, hf, hr⟩

end Decision.Rows
end BayesCircuit
