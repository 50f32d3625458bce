import BayesCircuit.Proofs.Decision.Diagram
import Mathlib.Data.Multiset.AddSub
import Mathlib.Data.List.Dedup

/-!
# The value of a diagram, variable by variable

An ordering lists the literals of a variable one after the other, as a `Block`. A diagram tests
the literals of a block along a chain of low edges. `Diagram.value` walks through the blocks: in
each block the first literal that holds takes the high edge of the node that tests it or, if the
chain does not test it, of the nearest node of the chain above.

A diagram that is not collapsed is the special case of blocks with one literal each.

`Regular` is the shape of the diagrams that are built: a chain starts with the first literal of its
block, high edges leave the block, and low edges stay in it or end in a terminal. Whether they may
also leave the block is up to an `Exit`.
-/

namespace BayesCircuit.Decision

/-- The literals of one variable, in the order in which they are tested. -/
structure Block where
  head : Literal
  tail : List Literal

/-- The literals of a block. -/
def Block.literals (b : Block) : List Literal := b.head :: b.tail

/-- The ordering that goes through blocks. -/
def flatten (blocks : List Block) : List Literal := blocks.flatMap Block.literals

/-- The blocks of an ordering in which each literal is its own variable. -/
def singles (ordering : List Literal) : List Block := ordering.map fun l => ⟨l, []⟩

@[simp]
theorem flatten_nil : flatten [] = [] := rfl

@[simp]
theorem flatten_cons (b : Block) (bs : List Block) :
    flatten (b :: bs) = b.head :: (b.tail ++ flatten bs) := rfl

theorem flatten_singles (ordering : List Literal) : flatten (singles ordering) = ordering := by
  induction ordering with
  | nil => rfl
  | cons l ls ih =>
      show l :: flatten (singles ls) = l :: ls
      rw [ih]

/-- Where a walk stands: at a node, below the node that it left last through its low edge, of which
the literal, the weights and the high child are given. -/
structure Stand where
  node : Diagram
  left : Option (Int × Weights × Diagram)

/-- The product of the weights of a path; nothing if the path ends in `false'`. -/
abbrev Value := Option (Multiset Weight)

/-- Collect weights in front of a value. -/
def collect (ws : Weights) (v : Value) : Value := v.map ((ws : Multiset Weight) + ·)

namespace Stand

/-- The weights and the high child that a literal which holds leads to. -/
def fire (l : Literal) (s : Stand) : Option (Weights × Diagram) :=
  match s.node with
  | .branch n ws high _ => if n = l.value then some (ws, high) else s.left.map (·.2)
  | .leaf true => none
  | .leaf false => s.left.map (·.2)

/-- Where a literal that does not hold leads to. -/
def descend (l : Literal) (s : Stand) : Stand :=
  match s.node with
  | .branch n ws high low => if n = l.value then ⟨low, some (n, ws, high)⟩ else s
  | .leaf _ => s

end Stand

/-- The value of a chain; `K` is the value of the diagrams that follow it. -/
def chainValue (K : Diagram → Value) (x : Literal → Bool) : List Literal → Stand → Value
  | [], s => K s.node
  | l :: ls, s =>
      if x l then
        match s.fire l with
        | some (ws, high) => collect ws (K high)
        | none => K s.node
      else chainValue K x ls (s.descend l)

/-- The value of a diagram for an assignment. -/
def Diagram.value (x : Literal → Bool) : List Block → Diagram → Value
  | [], D => if D = .leaf true then some 0 else none
  | b :: bs, D => chainValue (Diagram.value x bs) x b.literals ⟨D, none⟩

/-- Where the low edges of a chain may lead to a later block: nowhere, from the last literal of the
block only, or from every literal. -/
inductive Exit where
  | never
  | atEnd
  | anywhere
  deriving DecidableEq

/-- The rest of a chain whose literals are given; `K` is the shape of the diagrams that follow. -/
def Chain (e : Exit) (K : Diagram → Prop) : List Literal → Diagram → Prop
  | _, .leaf _ => True
  | [], .branch n ws high low => e ≠ .never ∧ K (.branch n ws high low)
  | l :: ls, .branch n ws high low =>
      if n = l.value then K high ∧ Chain e K ls low
      else (e ≠ .anywhere → n ∈ ls.map (·.value)) ∧ Chain e K ls (.branch n ws high low)

/-- The diagram tests chains of blocks from their heads on. -/
def Regular (e : Exit) : List Block → Diagram → Prop
  | _, .leaf _ => True
  | [], .branch .. => False
  | b :: bs, .branch n ws high low =>
      if n = b.head.value then Regular e bs high ∧ Chain e (Regular e bs) b.tail low
      else Regular e bs (.branch n ws high low)

/-- The literals of an ordering are different, and those of a block belong to one variable. -/
structure Layout (same : Int → Int → Bool) (blocks : List Block) : Prop where
  nodup : ((flatten blocks).map (·.value)).Nodup
  within : ∀ b ∈ blocks, b.literals.Pairwise fun l l' => same l.value l'.value = true
  across : blocks.Pairwise fun b b' =>
    ∀ l ∈ b.literals, ∀ l' ∈ b'.literals, same l.value l'.value = false

variable {e : Exit} {K : Diagram → Prop} {x : Literal → Bool} {same : Int → Int → Bool}
variable {b : Block} {bs : List Block} {l : Literal} {ls : List Literal} {D : Diagram}
variable {v : Value} {ws : Weights} {s : Stand}

/-! ## Leaves -/

@[simp]
theorem collect_none : collect ws none = none := rfl

@[simp]
theorem collect_nil : collect [] v = v := by
  cases v <;> simp [collect]

@[simp]
theorem fire_true {p : Option (Int × Weights × Diagram)} :
    Stand.fire l ⟨.leaf true, p⟩ = none := rfl

@[simp]
theorem descend_leaf {c : Bool} {p : Option (Int × Weights × Diagram)} :
    Stand.descend l ⟨.leaf c, p⟩ = ⟨.leaf c, p⟩ := rfl

@[simp]
theorem fire_false : Stand.fire l ⟨.leaf false, none⟩ = none := rfl

theorem chainValue_true {K : Diagram → Value} (hs : s.node = .leaf true) :
    chainValue K x ls s = K (.leaf true) := by
  obtain ⟨D, p⟩ := s
  obtain rfl : D = .leaf true := hs
  induction ls with
  | nil => rfl
  | cons l ls ih =>
      unfold chainValue
      simp only [fire_true, descend_leaf, ih, ite_self]

theorem chainValue_false {K : Diagram → Value} :
    chainValue K x ls ⟨.leaf false, none⟩ = K (.leaf false) := by
  induction ls with
  | nil => rfl
  | cons l ls ih =>
      unfold chainValue
      simp only [fire_false, descend_leaf, ih, ite_self]

@[simp]
theorem value_true : Diagram.value x bs (.leaf true) = some 0 := by
  induction bs with
  | nil => rfl
  | cons b bs ih => rw [Diagram.value, chainValue_true rfl, ih]

@[simp]
theorem value_false : Diagram.value x bs (.leaf false) = none := by
  induction bs with
  | nil => rfl
  | cons b bs ih => rw [Diagram.value, chainValue_false, ih]

@[simp]
theorem chain_leaf {c : Bool} : Chain e K ls (.leaf c) := by
  unfold Chain
  trivial

@[simp]
theorem regular_leaf {c : Bool} : Regular e bs (.leaf c) := by
  cases bs <;> trivial

/-! ## Diagrams that a block does not touch -/

/-- No literal of the list is tested by the root. -/
def Untested (ls : List Literal) (D : Diagram) : Prop := ∀ l ∈ ls, D.literal? ≠ some l.value

theorem Untested.tail (h : Untested (l :: ls) D) : Untested ls D :=
  fun l' hl' => h l' (List.mem_cons_of_mem _ hl')

theorem fire_of_untested (h : D.literal? ≠ some l.value) : Stand.fire l ⟨D, none⟩ = none := by
  cases D with
  | leaf c => cases c <;> rfl
  | branch n ws high low =>
      have hn : n ≠ l.value := by simpa [Diagram.literal?] using h
      simp [Stand.fire, hn]

theorem descend_of_untested {p : Option (Int × Weights × Diagram)}
    (h : D.literal? ≠ some l.value) : Stand.descend l ⟨D, p⟩ = ⟨D, p⟩ := by
  cases D with
  | leaf c => rfl
  | branch n ws high low =>
      have hn : n ≠ l.value := by simpa [Diagram.literal?] using h
      simp [Stand.descend, hn]

theorem chainValue_of_untested {K : Diagram → Value} (h : Untested ls D) :
    chainValue K x ls ⟨D, none⟩ = K D := by
  induction ls with
  | nil => rfl
  | cons l ls ih =>
      have hl := h l (List.mem_cons_self ..)
      unfold chainValue
      rw [fire_of_untested hl, descend_of_untested hl, ih h.tail]
      simp

theorem value_of_untested (h : Untested b.literals D) :
    Diagram.value x (b :: bs) D = Diagram.value x bs D := by
  rw [Diagram.value, chainValue_of_untested h]

/-! ## What a regular diagram tests -/

theorem Chain.literal_mem {n : Int} (hC : Chain e K ls D) (hn : D.literal? = some n)
    (hK : ∀ E, K E → E.literal? = some n → ∃ l ∈ flatten bs, l.value = n) :
    ∃ l ∈ ls ++ flatten bs, l.value = n := by
  induction ls with
  | nil =>
      cases D with
      | leaf c => cases hn
      | branch => simpa using hK _ hC.2 hn
  | cons l ls ih =>
      cases D with
      | leaf c => cases hn
      | branch n' ws high low =>
          unfold Chain at hC
          split at hC
          · rename_i hl
            simp only [Diagram.literal?, Option.some.injEq] at hn
            exact ⟨l, by simp, by rw [← hl, hn]⟩
          · obtain ⟨l', hl', he⟩ := ih hC.2
            exact ⟨l', by simpa using Or.inr (by simpa using hl'), he⟩

theorem Regular.literal_mem {n : Int} (hR : Regular e bs D) (hn : D.literal? = some n) :
    ∃ l ∈ flatten bs, l.value = n := by
  induction bs with
  | nil =>
      cases D with
      | leaf c => cases hn
      | branch => exact hR.elim
  | cons b bs ih =>
      cases D with
      | leaf c => cases hn
      | branch n' ws high low =>
          unfold Regular at hR
          split at hR
          · rename_i hb
            simp only [Diagram.literal?, Option.some.injEq] at hn
            exact ⟨b.head, by simp, by rw [← hb, hn]⟩
          · obtain ⟨l, hl, he⟩ := ih hR
            exact ⟨l, by simp [hl], he⟩

theorem Layout.tail (hL : Layout same (b :: bs)) : Layout same bs := by
  refine ⟨?_, fun b' hb' => hL.within b' (List.mem_cons_of_mem _ hb'), (List.pairwise_cons.1
    hL.across).2⟩
  have := hL.nodup
  simp only [flatten_cons, List.map_cons, List.map_append, List.nodup_cons] at this
  exact (List.nodup_append.1 this.2).2.1

/-- The literals of a block do not occur later. -/
theorem Layout.not_mem (hL : Layout same (b :: bs)) {l l' : Literal} (hl : l ∈ b.literals)
    (hl' : l' ∈ flatten bs) : l.value ≠ l'.value := by
  have hn := hL.nodup
  rw [show flatten (b :: bs) = b.literals ++ flatten bs from rfl, List.map_append] at hn
  exact (List.nodup_append.1 hn).2.2 _ (List.mem_map_of_mem hl) _ (List.mem_map_of_mem hl')

/-- A diagram of later blocks does not test the literals of an earlier one. -/
theorem Regular.untested (hR : Regular e bs D) (hL : Layout same (b :: bs)) :
    Untested b.literals D := by
  intro l hl hD
  obtain ⟨l', hl', he⟩ := hR.literal_mem hD
  exact hL.not_mem hl hl' he.symm

theorem Untested.subset {ls' : List Literal} (h : Untested ls D) (hs : ls' ⊆ ls) :
    Untested ls' D :=
  fun l hl => h l (hs hl)

end BayesCircuit.Decision
