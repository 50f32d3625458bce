import BayesCircuit.Proofs.Bound.Frontier
import BayesCircuit.Proofs.Encoding.Factors
import BayesCircuit.Proofs.Multigraph.Level
import BayesCircuit.Proofs.Multigraph.Layers
import BayesCircuit.Proofs.SpanningTree.Partition
import Mathlib.Algebra.Ring.PUnit

/-!
# The value of the multigraph of a partition

A `Faithful` valuation gives every table entry a value in a commutative semiring, so that an entry
with a reserved weight is worth one or zero. Under such a valuation a list of weights is worth
the product of its entries (`weighing_weights`), as is a label that is multiplied out without
rounding (`weighing_exact`).

For a chain or a tree of a partition of a well-formed network, compilation succeeds, and the value
of the multigraph for any evidence is the sum, over all assignments that agree with it, of the
products of the entries that the assignment selects in the tables which the partition owns
(`evaluate_partition`).
-/

namespace BayesCircuit.Multigraph

open Collection.Ascending Encoding InteractionGraph

variable {α W : Type} [CommSemiring α] {options : EncodingOptions} {net : Network} {p : Partition}
variable {e : Encoding} {val : Probability → α} {c : Nat} {f : Factor} {w : Weight}

/-- A valuation of table entries that respects the reserved weights. -/
structure Faithful (options : EncodingOptions) (val : Probability → α) : Prop where
  one : options.determinism = true → ∀ q : Probability, (q.toFloat == 1.0) = true → val q = 1
  zero : options.determinism = true → ∀ q : Probability, (q.toFloat == 0.0) = true →
    (q.toFloat == 1.0) = false → val q = 0

/-- The value of a weight; a reserved weight is its own value. -/
def weightWorth (e : Encoding) (val : Probability → α) (w : Weight) : α :=
  if e.isProbability w then val (e.weightValues.getD (w - e.literalCount - 1) .zero) else (w : α)

/-- The product of the values of weights. -/
def weightsWorth (e : Encoding) (val : Probability → α) (ws : Weights) : α :=
  (ws.map (weightWorth e val)).prod

/-- Labels that are multiplied out without rounding. -/
def exactLabel (val : Probability → α) : LabelAlgebra α where
  unit := 1
  zero := 0
  multiply f row x := x * val (f.probabilities.getD row .zero)

theorem weightsWorth_insert {ws : Weights} :
    weightsWorth e val (Weights.insert w ws) = weightWorth e val w * weightsWorth e val ws := by
  induction ws with
  | nil => rfl
  | cons x ws ih =>
      unfold Weights.insert
      split
      · simp only [weightsWorth, List.map_cons, List.prod_cons] at ih ⊢
        rw [ih, mul_left_comm]
      · rfl

/-- The value of a weight is that of the entry for which it stands. -/
theorem weightWorth_eq {q : Probability} (hval : Faithful options val)
    (hliterals : 0 < e.literalCount)
    (h : Stands options e.literalCount e.weightValues w q) : weightWorth e val w = val q := by
  cases h with
  | one hd hq =>
      have hreserved : e.isProbability 1 = false := by
        simp only [isProbability, decide_eq_false_iff_not]
        omega
      rw [weightWorth, hreserved, hval.one hd q hq]
      simp
  | zero hd hq hn =>
      rw [weightWorth, hval.zero hd q hq hn]
      simp [isProbability]
  | stored hlt hvalue =>
      have hstored : e.isProbability w = true := by simpa [isProbability] using hlt
      rw [weightWorth, hstored, if_pos rfl, Array.getD_eq_getD_getElem?, hvalue]
      rfl

/-! ## Factors of a partition -/

theorem encodes_of_scope (hnet : net.WellFormed) (hp : p.Proper net) (R : Represents options net e)
    (hc : (Bound.ofPartition net p).scope c ≠ []) : ∃ f, e.factor c = .ok f ∧
      Encodes options net e.literalCount e.weightValues c f ∧
      Tabulates net.dimOf ((Bound.ofPartition net p).scope c) f := by
  obtain ⟨u, hu⟩ := List.exists_mem_of_ne_nil _ hc
  have howned := ((Bound.mem_scope hp).1 hu).1
  have hlt := hp.owned_lt c howned
  obtain ⟨f, hf, E⟩ := R.factor c hlt
  refine ⟨f, hf, E, ?_, fun u => ?_, E.dims, E.size⟩
  · rw [E.scope]
    exact strict_sorted_family hnet.linked hlt
  · rw [E.scope, mem_sorted_family, Bound.mem_scope hp]
    simp [howned]

/-- Lists of weights are worth the products of the entries for which they stand. -/
theorem weighing_weights (hnet : net.WellFormed) (hp : p.Proper net)
    (R : Represents options net e) (hval : Faithful options val) :
    Weighing e (Bound.ofPartition net p).scope net.dimOf Weights.label.toLabelAlgebra
      (weightsWorth e val) fun c ρ => val (net.entryAt c ρ) where
  unit := rfl
  zero := by simp [Weights.label, weightsWorth, weightWorth, isProbability]
  factor hc := by
    obtain ⟨f, hf, _, T⟩ := encodes_of_scope hnet hp R hc
    exact ⟨f, hf, T⟩
  excluded {c f ρ} hf hρ hrow := by
    obtain ⟨hliterals, -, E⟩ := row_of_factor hnet R hf
    obtain ⟨_, w, hw, hstands⟩ := E.row ρ hρ
    obtain rfl := Option.some.inj (hrow.symm.trans hw)
    rw [← weightWorth_eq hval hliterals hstands]
    simp [weightWorth, isProbability]
  multiplied {c f ρ w x} hf hρ hrow _ := by
    obtain ⟨hliterals, -, E⟩ := row_of_factor hnet R hf
    obtain ⟨_, w', hw, hstands⟩ := E.row ρ hρ
    obtain rfl := Option.some.inj (hrow.symm.trans hw)
    have hget : f.weights.getD (Counter.number f.dims (f.scope.map ρ)) 0 = w := by
      rw [Array.getD_eq_getD_getElem?, hw, Option.getD_some]
    rw [← weightWorth_eq hval hliterals hstands]
    simp only [Weights.label, Weights.multiply, hget]
    split
    · rename_i hone
      obtain rfl : w = 1 := by simpa using hone
      have hreserved : e.isProbability 1 = false := by
        simp only [isProbability, decide_eq_false_iff_not]
        omega
      rw [weightWorth, hreserved]
      simp
    · rw [weightsWorth_insert, mul_comm]

/-- Labels that are multiplied out are worth the products of the entries. -/
theorem weighing_exact (hnet : net.WellFormed) (hp : p.Proper net)
    (R : Represents options net e) (hval : Faithful options val) :
    Weighing e (Bound.ofPartition net p).scope net.dimOf (exactLabel val) id
      fun c ρ => val (net.entryAt c ρ) where
  unit := rfl
  zero := rfl
  factor := (weighing_weights hnet hp R hval).factor
  excluded := (weighing_weights hnet hp R hval).excluded
  multiplied {c f ρ w x} hf hρ _ _ := by
    obtain ⟨hq, _⟩ := (row_of_factor hnet R hf).2.2.row ρ hρ
    simp only [exactLabel, Array.getD_eq_getD_getElem?, hq, Option.getD_some, id]

/-- Whatever labels are made of, they can be multiplied by the rows of an encoded network. -/
theorem weighing_trivial (hnet : net.WellFormed) (hp : p.Proper net)
    (R : Represents options net e) (labels : LabelAlgebra W) :
    Weighing e (Bound.ofPartition net p).scope net.dimOf labels (fun _ => PUnit.unit)
      fun _ _ => PUnit.unit where
  unit := rfl
  zero := rfl
  factor hc := by
    obtain ⟨f, hf, _, T⟩ := encodes_of_scope hnet hp R hc
    exact ⟨f, hf, T⟩
  excluded _ _ _ := rfl
  multiplied _ _ _ _ := rfl

end BayesCircuit.Multigraph

namespace BayesCircuit.Multigraph

open Arrangement Encoding PseudoTree SpanningTree

variable {W α : Type} [DecidableEq W] [Hashable W] [CommSemiring α] {net : Network} {p : Partition}
variable {ordering : List Variable} {shape : Shape} {options : EncodingOptions} {t : PseudoTree}
variable {e : Encoding} {st : SpanningTree} {labels : LabelAlgebra W} {weigh : W → α}
variable {entry : Variable → Assignment → α}

/-- The sum, over the assignments of a partition that agree with evidence, of the products of the
entries of its tables. -/
def partitionSum (net : Network) (p : Partition) (entry : Variable → Assignment → α)
    (evidence : Evidence) (ρ : Assignment) : α :=
  ((agreeing net.dimOf evidence p.scope ρ).map fun σ => (p.owned.map fun c => entry c σ).prod).sum

/-- A compiled tree of a partition has the sum of products as its value, whatever labels are worth
what the entries of the tables are. -/
theorem compile_partition (hnet : net.WellFormed) (hp : p.Proper net)
    (ht : build net p ordering shape = .ok t)
    (hst : ofPseudoTree (.ofPartition net p) t e = .ok st)
    (L : Weighing e (Bound.ofPartition net p).scope net.dimOf labels weigh entry)
    (hentry : ∀ c ∈ p.owned, Local (Bound.ofPartition net p).scope entry c)
    (sharing : Bool) (evidence : Evidence) (ρ : Assignment) :
    ∃ g, compile ⟨st, e, labels, sharing⟩ false = .ok g ∧
      g.evaluateWith (.exact α) weigh evidence = partitionSum net p entry evidence ρ := by
  obtain ⟨ws, hplan, hscope, hjoiner, hfits, htables⟩ := partition_planned hnet.valued hp ht hst
  let j : Job W α := ⟨⟨st, e, labels, sharing⟩, sourceOf net p e t, weigh, evidence, entry⟩
  obtain ⟨g, hg, hval⟩ := compile_eq (j := j) (ρ := ρ) hplan rfl hnet.dimOf_joiner L
  have hnodup : (preorderAll ws ++ [joiner]).Nodup := by
    refine List.nodup_append.2 ⟨hscope.nodup_iff.2 hp.strict_scope.nodup, List.nodup_singleton _,
      fun a ha b hb => ?_⟩
    obtain rfl := List.mem_singleton.1 hb
    exact fun he => hjoiner (he ▸ ha)
  refine ⟨g, hg, ?_⟩
  calc g.evaluateWith (.exact α) weigh evidence
      = totalAll net.dimOf evidence entry ρ ws := hval
    _ = sumOver net.dimOf evidence (preorderAll ws) (entries entry (tablesAll ws)) ρ :=
        totalAll_eq_sum (fun c hc => hentry c (htables.mem_iff.1 hc)) hfits hnodup
    _ = sumOver net.dimOf evidence p.scope (entries entry (tablesAll ws)) ρ :=
        sumOver_perm hscope (hscope.nodup_iff.2 hp.strict_scope.nodup)
    _ = partitionSum net p entry evidence ρ := by
        refine congrArg (fun f => sumOver net.dimOf evidence p.scope f ρ) (funext fun σ => ?_)
        exact (htables.map fun c => entry c σ).prod_eq

/-- An entry depends on the variables of its table. -/
theorem local_entryAt {α : Type} (hp : p.Proper net) (val : Probability → α) :
    ∀ c ∈ p.owned, Local (Bound.ofPartition net p).scope (fun c ρ => val (net.entryAt c ρ)) c := by
  intro c hc ρ σ h
  have hagree : ∀ u ∈ InteractionGraph.family net c, ρ u = σ u := fun u hu =>
    h u ((Bound.mem_scope hp).2 ⟨hc, hu⟩)
  simp only [Network.entryAt, Network.entryIndex, List.map_congr_left hagree]

/-- The multigraph of a partition is worth the sum of products of the partition, both with lists of
weights and with labels that are multiplied out; with other labels it can be compiled too. -/
theorem evaluate_partition [DecidableEq α] [Hashable α] {vs : List Variable} (hnet : net.WellFormed)
    (hp : Partition.ofOwned net vs = .ok p) (ht : build net p ordering shape = .ok t)
    (he : Encoding.ofNetwork options net = .ok e)
    (hst : ofPseudoTree (.ofPartition net p) t e = .ok st) {val : Probability → α}
    (hval : Faithful options val) (sharing : Bool) (evidence : Evidence) (ρ : Assignment) :
    (∃ g, compile ⟨st, e, Weights.label.toLabelAlgebra, sharing⟩ false = .ok g ∧
      g.evaluateWith (.exact α) (weightsWorth e val) evidence =
        partitionSum net p (fun c ρ => val (net.entryAt c ρ)) evidence ρ) ∧
    (∃ g, compile ⟨st, e, exactLabel val, sharing⟩ false = .ok g ∧
      g.evaluateWith (.exact α) id evidence =
        partitionSum net p (fun c ρ => val (net.entryAt c ρ)) evidence ρ) ∧
    ∀ labels : LabelAlgebra W, ∃ g, compile ⟨st, e, labels, sharing⟩ false = .ok g := by
  have hproper := Partition.proper_ofOwned hp
  obtain ⟨e', he', R⟩ := ofNetwork_spec options hnet
  obtain rfl := Except.ok.inj (he.symm.trans he')
  have hlocal := local_entryAt hproper val
  refine ⟨compile_partition hnet hproper ht hst (weighing_weights hnet hproper R hval) hlocal _ _ _,
    compile_partition hnet hproper ht hst (weighing_exact hnet hproper R hval) hlocal _ _ _,
    fun labels => ?_⟩
  obtain ⟨g, hg, _⟩ := compile_partition hnet hproper ht hst
    (weighing_trivial hnet hproper R labels) (fun _ _ _ _ _ => rfl) sharing [] fun _ => 0
  exact ⟨g, hg⟩

/-- The pattern of bits of an entry as a number, except that the reserved entries have their own
values. -/
def bitsOrReserved (q : Probability) : Nat :=
  if q.toFloat == 1.0 then 1 else if q.toFloat == 0.0 then 0 else q.bits.toNat

theorem faithful_bitsOrReserved : Faithful options bitsOrReserved where
  one _ q hq := by simp [bitsOrReserved, hq]
  zero _ q hq hn := by simp [bitsOrReserved, hq, hn]

theorem evaluate_partition_twoCoins : ∃ t e st,
    build twoCoins ⟨[0, 1], []⟩ [0, 1] .tree = .ok t ∧
    Encoding.ofNetwork ⟨true, true⟩ twoCoins = .ok e ∧
    ofPseudoTree (.ofPartition twoCoins ⟨[0, 1], []⟩) t e = .ok st ∧
    ∃ g, compile ⟨st, e, Weights.label.toLabelAlgebra, true⟩ false = .ok g ∧
      g.evaluateWith (.exact Nat) (weightsWorth e bitsOrReserved) [some 1] =
        partitionSum twoCoins ⟨[0, 1], []⟩ (fun c ρ => bitsOrReserved (twoCoins.entryAt c ρ))
          [some 1] fun _ => 0 := by
  have hp := Partition.proper_ofOwned ofOwned_twoCoins
  obtain ⟨t, ht⟩ := exists_build hp (show [0, 1].Perm _ by decide) .tree
  obtain ⟨e, he, R⟩ := ofNetwork_spec ⟨true, true⟩ wellFormed_twoCoins
  obtain ⟨st, hst⟩ := exists_ofPseudoTree wellFormed_twoCoins hp ht R (by decide +kernel)
  obtain ⟨hweights, _, _⟩ := evaluate_partition (W := Weights) wellFormed_twoCoins ofOwned_twoCoins
    ht he hst faithful_bitsOrReserved true [some 1] fun _ => 0
  exact ⟨t, e, st, ht, he, hst, hweights⟩

end BayesCircuit.Multigraph
