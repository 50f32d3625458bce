import BayesCircuit.Decision.Build
import BayesCircuit.Proofs.Decision.Skip

/-!
# What an engine builds

An `Outline` is an engine without a heap: it conditions states that are not shared and does not
look anything up. `plan` runs it down an ordering and gives the tree that is to be built.

`Engine.Follows` says that an engine follows an outline: it finds the same cofactors, except that
it may know a cofactor already. What it knows is then the planned tree, up to low children that
were left out (`Reduces`). If the diagrams that it copies are collapsed (`Plain`), all low children
that can be left out are left out (`Shrinks`).
-/

namespace BayesCircuit.Decision

open Collection Action

variable {σ α : Type} {same : Int → Int → Bool} {D D' E E' : Diagram}

/-- Conditioning on trees instead of nodes. -/
structure Outline (α : Type) where
  /-- Condition on a literal, which is followed by another one. -/
  high : α → Literal → Option Literal → Cofactor × Weights × α
  /-- Condition on the negation of a literal. -/
  low : α → Literal → Option Literal → Cofactor × α
  /-- The diagram that a trivial cofactor equals. -/
  other : α → Diagram

/-- The tree of a cofactor; `below` is the one that the rest of the ordering gives. -/
def Outline.child (O : Outline α) (found : Cofactor) (below : Option Diagram) (a : α) :
    Option Diagram :=
  match found with
  | .unsatisfied => below
  | .trivial => some (O.other a)
  | .satisfiable => some (.leaf true)
  | .unsatisfiable => some (.leaf false)
  | _ => none

/-- The weights of a node. -/
def nodeWeights (found : Cofactor) (weights : Weights) : Weights :=
  if found == .unsatisfiable then [] else weights

/-- The tree that is built along an ordering; nothing if the ordering is too short. -/
def Outline.plan (O : Outline α) : List Literal → α → Option Diagram
  | [], _ => none
  | l :: rest, a =>
      if (O.high a l rest.head?).1 = .redundant then O.plan rest a
      else
        let found := (O.high a l rest.head?).1
        let a₁ := (O.high a l rest.head?).2.2
        let a₂ := (O.low a l rest.head?).2
        match O.child found (O.plan rest a₁) a₁,
            O.child (O.low a l rest.head?).1 (O.plan rest a₂) a₂ with
        | some high, some low =>
            some (.branch l.value (nodeWeights found (O.high a l rest.head?).2.1) high low)
        | _, _ => none

/-! ## Trees with low children left out -/

/-- Low children are left out, from the leaves up. -/
inductive Reduces (same : Int → Int → Bool) : Diagram → Diagram → Prop
  | refl (D : Diagram) : Reduces same D D
  | node {l : Int} {ws : Weights} {H H' L L' D : Diagram} : Reduces same H H' →
      Reduces same L L' → Skips same (.branch l ws H' L') D → Reduces same (.branch l ws H L) D

/-- All low children that can be left out are left out, from the leaves up. -/
def Diagram.collapse (same : Int → Int → Bool) : Diagram → Diagram
  | .leaf b => .leaf b
  | .branch l ws H L => (Diagram.branch l ws (H.collapse same) (L.collapse same)).skip same

/-- No low child can be left out. -/
def Diagram.Tight (same : Int → Int → Bool) : Diagram → Prop
  | .leaf _ => True
  | .branch l ws H L => H.Tight same ∧ L.Tight same ∧ Diagram.lowAfter same l ws H L = L

theorem Diagram.Tight.collapse_eq (h : D.Tight same) : D.collapse same = D := by
  induction D with
  | leaf b => rfl
  | branch l ws H L ihH ihL =>
      obtain ⟨hH, hL, hlow⟩ := h
      rw [Diagram.collapse, ihH hH, ihL hL, Diagram.skip, hlow]

/-- What was left out below a node is left out below every node that counts as the same. -/
theorem lowAfter_lowAfter {i j : Int} {ws : Weights} {H : Diagram} (h : ∀ x, same i x = same j x) :
    Diagram.lowAfter same i ws H (Diagram.lowAfter same j ws H D) =
      Diagram.lowAfter same i ws H D := by
  induction D with
  | leaf c => rfl
  | branch x v K Z _ ih =>
      rw [Diagram.lowAfter.eq_2 same j, Diagram.lowAfter.eq_2 same i, h x]
      split
      · exact ih
      · rename_i hkeep
        rw [Diagram.lowAfter, h x, if_neg hkeep]

theorem Diagram.Tight.lowAfter {i : Int} {ws : Weights} {H : Diagram} (h : D.Tight same) :
    (Diagram.lowAfter same i ws H D).Tight same := by
  induction D with
  | leaf b => trivial
  | branch l v K L _ ih =>
      rw [Diagram.lowAfter]
      split
      · exact ih h.2.1
      · exact h

theorem tight_collapse : (D.collapse same).Tight same := by
  induction D with
  | leaf b => trivial
  | branch l ws H L ihH ihL => exact ⟨ihH, ihL.lowAfter, lowAfter_lowAfter fun _ => rfl⟩

theorem collapse_collapse : (D.collapse same).collapse same = D.collapse same :=
  tight_collapse.collapse_eq

/-- What is built for a tree: low children are left out, all of them if `plain` holds. -/
structure Shrinks (same : Int → Int → Bool) (plain : Prop) (T D : Diagram) : Prop where
  reduces : Reduces same T D
  exact : plain → D = T.collapse same

theorem Shrinks.leaf {plain : Prop} {b : Bool} : Shrinks same plain (.leaf b) (.leaf b) :=
  ⟨.refl _, fun _ => rfl⟩

/-- A diagram that is copied. -/
theorem Shrinks.of_collapsed {plain : Prop} (h : plain → D.collapse same = D) :
    Shrinks same plain D D :=
  ⟨.refl _, fun hp => (h hp).symm⟩

theorem Shrinks.node {plain : Prop} {l : Int} {ws : Weights} {H H' L L' : Diagram}
    (hH : Shrinks same plain H H') (hL : Shrinks same plain L L') :
    Shrinks same plain (.branch l ws H L) ((Diagram.branch l ws H' L').skip same) := by
  refine ⟨.node hH.reduces hL.reduces (skips_skip same _), fun hp => ?_⟩
  rw [Diagram.collapse, hH.exact hp, hL.exact hp]

/-- The literals that count as one variable for a pass that collapses or does not. -/
def sameIf (collapse : Bool) (same : Int → Int → Bool) (a b : Int) : Bool := collapse && same a b

theorem sameIf_true : sameIf true same = same := by
  funext a b
  simp [sameIf]

theorem Skips.eq_of_false (h : Skips (sameIf false same) D D') : D' = D := by
  cases h with
  | refl => rfl
  | step hs _ _ => cases hs

theorem skip_of_false : D.skip (sameIf false same) = D := (skips_skip _ D).eq_of_false

theorem collapse_of_false : D.collapse (sameIf false same) = D := by
  induction D with
  | leaf b => rfl
  | branch l ws H L ihH ihL => rw [Diagram.collapse, ihH, ihL, skip_of_false]

/-- A pass that does not collapse builds what was planned. -/
theorem Reduces.eq_of_false (h : Reduces (sameIf false same) D D') : D' = D := by
  induction h with
  | refl => rfl
  | node _ _ hs ihH ihL =>
      subst ihH ihL
      exact hs.eq_of_false

theorem Skips.leaf_iff {b : Bool} (h : Skips same D E) : E = .leaf b ↔ D = .leaf b := by
  induction h with
  | refl => exact Iff.rfl
  | step _ _ _ ih => simpa using ih

theorem Reduces.leaf_iff {b : Bool} (h : Reduces same D E) : E = .leaf b ↔ D = .leaf b := by
  cases h with
  | refl => exact Iff.rfl
  | node _ _ hs =>
      rw [hs.leaf_iff]
      simp

/-! ## Engines that follow an outline -/

/-- The products of `m'` are those of `m`, and so are the nodes and all settings. -/
structure Unmoved (m m' : Manager) : Prop where
  arena : m'.arena = m.arena
  literalVariables : m'.literalVariables = m.literalVariables
  tableBits : m'.tableBits = m.tableBits
  entries : m'.products.entries = m.products.entries

/-- What the answer of an engine to a literal means. -/
structure Answers (E : Engine σ) (O : Outline α) (frozen : Handle → Option Node)
    (pend : Set Handle) (same : Int → Int → Bool) (plain : Prop)
    (Holds : List Literal → σ → α → Prop) (Alike : σ → σ → Prop) (rest : List Literal) (s : σ) (expected : Cofactor) (a : α)
    (found : Cofactor) (t : σ) (m : Manager) : Prop where
  holds : expected = .unsatisfied ∨ expected = .trivial → Holds rest t a
  undo : ∀ {t'}, Alike t t' → Alike s (E.undo t')
  ne_redundant : expected ≠ .redundant
  agrees : found = expected ∨ found = .cached ∧ expected ≠ .unsatisfiable ∧
    ∀ T, O.child expected (O.plan rest a) a = some T → ∃ D, Denotes m.key? (E.cached t) D ∧
      Shrinks same plain T D ∧ Ready frozen pend (E.cached t)
  trivial : found = .trivial →
    ∃ h, E.trivial t = .ok h ∧ Denotes (frozenKey frozen) h (O.other a) ∧
      (plain → (O.other a).collapse same = O.other a)

/-- The engine finds what the outline finds. -/
structure Engine.Follows (E : Engine σ) (O : Outline α) (frozen : Handle → Option Node)
    (literalVariables : Array Variable) (same : Int → Int → Bool) where
  /-- The engine and the outline are in the same state before a list of literals. -/
  Holds : List Literal → σ → α → Prop
  /-- What is known about the products of a manager with pending nodes. -/
  Known : Set Handle → Manager → Prop
  /-- Two states differ only in what was looked up. -/
  Alike : σ → σ → Prop
  /-- The diagrams that the engine copies are collapsed. -/
  Plain : Prop
  alike_refl : ∀ s, Alike s s
  alike_trans : ∀ {s t u}, Alike s t → Alike t u → Alike s u
  holds_alike : ∀ {ls s t a}, Alike s t → Holds ls s a → Holds ls t a
  known_mono : ∀ {pend pend' m m'}, Known pend m → Retains frozen pend m m' →
    (∀ h ∈ pend', h ∈ pend ∨ m.key? h = none ∧ h.isTerminal = false) → Known pend' m'
  skip : ∀ {l rest s a}, Holds (l :: rest) s a → (O.high a l rest.head?).1 = .redundant →
    Holds rest s a
  positive : ∀ {l rest s a}, Holds (l :: rest) s a → (O.high a l rest.head?).1 ≠ .redundant →
    l.isPositive = true ∧ Weights.ascends (O.high a l rest.head?).2.1 = true
  high_redundant : ∀ {l rest s a pend m}, Holds (l :: rest) s a →
    (O.high a l rest.head?).1 = .redundant → Heap frozen 0 m → Known pend m →
    m.literalVariables = literalVariables →
    Ends (E.condition s l rest.head? true) m fun r m' =>
      Unmoved m m' ∧ r.1 = .redundant ∧ Alike s r.2.2
  high : ∀ {l rest s a pend m}, Holds (l :: rest) s a →
    (O.high a l rest.head?).1 ≠ .redundant → Heap frozen 0 m → Known pend m →
    m.literalVariables = literalVariables →
    Ends (E.condition s l rest.head? true) m fun r m' =>
      Unmoved m m' ∧ r.2.1 = (O.high a l rest.head?).2.1 ∧
      Answers E O frozen pend same Plain Holds Alike rest s (O.high a l rest.head?).1
        (O.high a l rest.head?).2.2 r.1 r.2.2 m
  low : ∀ {l rest s a m}, Holds (l :: rest) s a →
    (O.high a l rest.head?).1 ≠ .redundant → Heap frozen 0 m →
    m.literalVariables = literalVariables →
    Ends (E.condition s l rest.head? false) m fun r m' =>
      Unmoved m m' ∧ r.1 = (O.low a l rest.head?).1 ∧ r.1 ≠ .cached ∧
      Answers E O frozen ∅ same Plain Holds Alike rest s (O.low a l rest.head?).1
        (O.low a l rest.head?).2 r.1 r.2.2 m
  record : ∀ {l rest s t a pend m c T D}, Holds (l :: rest) s a →
    (O.high a l rest.head?).1 = .unsatisfied ∨ (O.high a l rest.head?).1 = .trivial →
    Holds rest t (O.high a l rest.head?).2.2 → Known pend m →
    O.child (O.high a l rest.head?).1 (O.plan rest (O.high a l rest.head?).2.2)
      (O.high a l rest.head?).2.2 = some T →
    Denotes m.key? c D → Shrinks same Plain T D → Ready frozen pend c →
    Ends (E.record t c) m fun _ m' => m'.arena = m.arena ∧
      m'.literalVariables = m.literalVariables ∧ m'.tableBits = m.tableBits ∧ Known pend m'

end BayesCircuit.Decision
