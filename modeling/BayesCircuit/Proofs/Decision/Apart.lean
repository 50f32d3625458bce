import BayesCircuit.Proofs.Decision.Joint
import BayesCircuit.Proofs.Decision.Placement
import Mathlib.Order.Lattice

/-!
# When a conjunction is the product

The product of two values collects the weights of both (`Value.product`). What a conjunction builds
has at least these weights (`joint_le`), and it has more of them, or no value at all, only where a
literal takes the high edge of a chain that one side has left for `true'`. `Harmless` says that all
such edges collect nothing; this is exactly the condition under which the conjunction is the
product (`joint_eq_product_iff`).

If one side leaves a chain early, for `true'`, while the other side has not been touched by the
block, the conjunction puts a copy of the other side into the chain. `Apart` says that this does
not happen on any path. The conjunction of two such diagrams is regular again (`plan_regular`) and
has the product of their values (`Apart.joint_eq_product`). Otherwise it is regular in a weaker
sense, with chains that are left before their last literal.

Two diagrams are apart if each literal is its own variable (`apart_singles`).
-/

/-! ## Harmless edges -/

namespace BayesCircuit.Decision

/-- The product of two values. -/
def Value.product (u v : Value) : Value := Option.map₂ (· + ·) u v

/-- The literals at which a chain that has ended is taken up again collect nothing; `K` says the
same of the diagrams that follow, and `V` is their value. -/
def HarmlessChain (K : Diagram → Diagram → Prop) (V : Diagram → Value) (x : Literal → Bool) :
    List Literal → Stand → Stand → Prop
  | [], s, t => K s.node t.node
  | l :: ls, s, t =>
      if x l then
        if s.fire l = none ∧ t.fire l = none then
          match s.ended t, t.ended s with
          | some (ws, high), _ => ws = [] ∧ V high = some 0 ∧ K high t.node
          | none, some (ws, high) => ws = [] ∧ V high = some 0 ∧ K s.node high
          | none, none => K s.node t.node
        else K (firedNode (s.fire l) s) (firedNode (t.fire l) t)
      else HarmlessChain K V x ls (s.descend l) (t.descend l)

/-- The conjunction of two diagrams collects nothing that the two do not collect. -/
def Harmless (x : Literal → Bool) : List Block → Diagram → Diagram → Prop
  | [], _, _ => True
  | b :: bs, A, B => HarmlessChain (Harmless x bs) (Diagram.value x bs) x b.literals
      ⟨A, none⟩ ⟨B, none⟩

variable {x : Literal → Bool} {b : Block} {bs : List Block} {l : Literal} {ls : List Literal}
variable {A B : Diagram} {s t : Stand} {u v : Value} {ws : Weights}
variable {K : Diagram → Diagram → Value} {V : Diagram → Value} {P : Diagram → Diagram → Prop}

@[simp]
theorem product_none_left : Value.product none v = none := rfl

@[simp]
theorem product_none_right : Value.product u none = none := by
  cases u <;> rfl

theorem product_eq_some {W : Multiset Weight} :
    u.product v = some W ↔ ∃ U U', u = some U ∧ v = some U' ∧ U + U' = W := by
  simp [Value.product, Option.map₂_eq_some_iff, eq_comm]

theorem collect_eq_some {W : Multiset Weight} :
    collect ws v = some W ↔ ∃ U, v = some U ∧ (ws : Multiset Weight) + U = W := by
  simp [collect]

/-- What a side collects at a literal that holds, whether it reacts to it or not. -/
theorem chainValue_holds (hx : x l = true) :
    chainValue V x (l :: ls) s = collect ((s.fire l).elim [] (·.1)) (V (firedNode (s.fire l) s)) := by
  rw [chainValue, if_pos hx]
  cases s.fire l <;> simp

theorem coe_firedWeights (p q : Option (Weights × Diagram)) :
    (firedWeights p q : Multiset Weight) = (p.elim [] (·.1) : Weights) + (q.elim [] (·.1) : Weights) := by
  rw [Multiset.coe_add]
  exact Multiset.coe_eq_coe.2 (List.merge_perm_append _)

theorem node_of_ended {p : Weights × Diagram} (h : s.ended t = some p) : s.node = .leaf true := by
  unfold Stand.ended at h
  split at h
  · rename_i hs
    exact hs.1
  · cases h

/-- The cases of `jointChain` at a literal that holds. -/
theorem jointChain_holds (K : Diagram → Diagram → Value) (ls : List Literal) (s t : Stand)
    (hx : x l = true) :
    (∃ ws H, s.node = .leaf true ∧ s.fire l = none ∧ t.fire l = none ∧ s.ended t = some (ws, H) ∧
      jointChain K x (l :: ls) s t = collect ws (K H t.node)) ∨
    (∃ ws H, t.node = .leaf true ∧ s.fire l = none ∧ t.fire l = none ∧ s.ended t = none ∧
      t.ended s = some (ws, H) ∧ jointChain K x (l :: ls) s t = collect ws (K s.node H)) ∨
    ((s.fire l = none ∧ t.fire l = none → s.ended t = none ∧ t.ended s = none) ∧
      jointChain K x (l :: ls) s t = collect (firedWeights (s.fire l) (t.fire l))
        (K (firedNode (s.fire l) s) (firedNode (t.fire l) t))) := by
  rw [jointChain_cons, if_pos hx]
  by_cases hfire : s.fire l = none ∧ t.fire l = none
  · rw [if_pos hfire]
    cases hs : s.ended t with
    | some p => exact Or.inl ⟨_, _, node_of_ended hs, hfire.1, hfire.2, rfl, rfl⟩
    | none =>
        cases ht : t.ended s with
        | some p => exact Or.inr (Or.inl ⟨_, _, node_of_ended ht, hfire.1, hfire.2, rfl, rfl, rfl⟩)
        | none =>
            refine Or.inr (Or.inr ⟨fun _ => ⟨rfl, rfl⟩, ?_⟩)
            simp [hfire, firedWeights, union_nil]
  · rw [if_neg hfire]
    exact Or.inr (Or.inr ⟨fun h => absurd h hfire, rfl⟩)

/-- The conjunction of chains has at least the weights of both. -/
theorem jointChain_le (htrue : V (.leaf true) = some 0)
    (hK : ∀ {A B W}, K A B = some W → ∃ U U', V A = some U ∧ V B = some U' ∧ U + U' ≤ W) :
    ∀ {ls s t W}, jointChain K x ls s t = some W → ∃ U U', chainValue V x ls s = some U ∧
      chainValue V x ls t = some U' ∧ U + U' ≤ W
  | [], s, t, W, h => hK h
  | l :: ls, s, t, W, h => by
      cases hx : x l with
      | false =>
          rw [jointChain_cons, if_neg (by simp [hx])] at h
          rw [chainValue, chainValue, if_neg (by simp [hx]), if_neg (by simp [hx])]
          exact jointChain_le htrue hK h
      | true =>
          rw [chainValue_holds hx, chainValue_holds hx]
          rcases jointChain_holds K ls s t hx with
            ⟨ws, H, hs, hfs, hft, _, he⟩ | ⟨ws, H, ht, hfs, hft, _, _, he⟩ | ⟨_, he⟩
          · rw [he, collect_eq_some] at h
            obtain ⟨W', hW', rfl⟩ := h
            obtain ⟨U, U', _, hU', hle⟩ := hK hW'
            refine ⟨0, U', by simp [hfs, hs, htrue], by simp [hft, hU'], ?_⟩
            rw [zero_add]
            exact (le_add_of_nonneg_left (Multiset.zero_le _)).trans
              (hle.trans (le_add_of_nonneg_left (Multiset.zero_le _)))
          · rw [he, collect_eq_some] at h
            obtain ⟨W', hW', rfl⟩ := h
            obtain ⟨U, U', hU, _, hle⟩ := hK hW'
            refine ⟨U, 0, by simp [hfs, hU], by simp [hft, ht, htrue], ?_⟩
            rw [add_zero]
            exact (le_add_of_nonneg_right (Multiset.zero_le _)).trans
              (hle.trans (le_add_of_nonneg_left (Multiset.zero_le _)))
          · rw [he, collect_eq_some] at h
            obtain ⟨W', hW', rfl⟩ := h
            obtain ⟨U, U', hU, hU', hle⟩ := hK hW'
            refine ⟨_, _, collect_eq_some.2 ⟨U, hU, rfl⟩, collect_eq_some.2 ⟨U', hU', rfl⟩, ?_⟩
            rw [coe_firedWeights, add_add_add_comm]
            exact add_le_add_right hle _

/-- The conjunction of two diagrams has at least the weights of both. -/
theorem joint_le : ∀ {bs A B W}, joint x bs A B = some W → ∃ U U',
    A.value x bs = some U ∧ B.value x bs = some U' ∧ U + U' ≤ W
  | [], A, B, W, h => by
      unfold joint at h
      split at h
      · rename_i hAB
        obtain ⟨rfl, rfl⟩ := hAB
        exact ⟨0, 0, rfl, rfl, Multiset.zero_le _⟩
      · cases h
  | b :: bs, A, B, W, h => jointChain_le value_true joint_le h

/-- A chain that is taken up again adds nothing exactly if its high edge is empty. -/
theorem collect_eq_iff {W : Multiset Weight} {H : Diagram}
    (hle : ∀ {W'}, K H B = some W' → ∃ U U', V H = some U ∧ V B = some U' ∧ U + U' ≤ W')
    (hK : V H = some 0 → (K H B = some W ↔ P H B)) (hB : V B = some W) :
    collect ws (K H B) = some W ↔ ws = [] ∧ V H = some 0 ∧ P H B := by
  constructor
  · intro h
    obtain ⟨W', hW', he⟩ := collect_eq_some.1 h
    obtain ⟨U, U', hU, hU', hsum⟩ := hle hW'
    obtain rfl : W = U' := Option.some.inj (hB.symm.trans hU')
    -- the weights add up to no more than those of the other side
    have hcard := congrArg Multiset.card he
    have hcard' := Multiset.card_le_card hsum
    simp only [Multiset.card_add, Multiset.coe_card] at hcard hcard'
    obtain rfl : ws = [] := List.length_eq_zero_iff.1 (by omega)
    obtain rfl : U = 0 := Multiset.card_eq_zero.1 (by omega)
    refine ⟨rfl, hU, (hK hU).1 ?_⟩
    rwa [collect_nil] at h
  · rintro ⟨rfl, hH, hP⟩
    rw [collect_nil]
    exact (hK hH).2 hP

/-- Conjunctions of chains are products exactly if nothing is collected in between. -/
theorem jointChain_eq_iff (htrue : V (.leaf true) = some 0)
    (hle : ∀ {A B W}, K A B = some W → ∃ U U', V A = some U ∧ V B = some U' ∧ U + U' ≤ W)
    (hK : ∀ {A B U U'}, V A = some U → V B = some U' → (K A B = some (U + U') ↔ P A B)) :
    ∀ {ls s t U U'}, chainValue V x ls s = some U → chainValue V x ls t = some U' →
      (jointChain K x ls s t = some (U + U') ↔ HarmlessChain P V x ls s t)
  | [], s, t, U, U', hs, ht => hK hs ht
  | l :: ls, s, t, U, U', hs, ht => by
      cases hx : x l with
      | false =>
          rw [chainValue, if_neg (by simp [hx])] at hs ht
          rw [jointChain_cons, HarmlessChain, if_neg (by simp [hx]), if_neg (by simp [hx])]
          exact jointChain_eq_iff htrue hle hK hs ht
      | true =>
          rw [chainValue_holds hx] at hs ht
          rw [HarmlessChain, if_pos hx]
          rcases jointChain_holds K ls s t hx with
            ⟨ws, H, hn, hfs, hft, hended, he⟩ | ⟨ws, H, hn, hfs, hft, hended, hended', he⟩ |
            ⟨hidle, he⟩
          · -- the left side has come to its end, and its chain is taken up again
            rw [hfs, firedNode_none, hn, Option.elim_none, collect_nil, htrue] at hs
            rw [hft, firedNode_none, Option.elim_none, collect_nil] at ht
            obtain rfl : 0 = U := Option.some.inj hs
            rw [if_pos ⟨hfs, hft⟩, hended, he, zero_add]
            exact collect_eq_iff hle (fun hH => by simpa using hK hH ht) ht
          · rw [hft, firedNode_none, hn, Option.elim_none, collect_nil, htrue] at ht
            rw [hfs, firedNode_none, Option.elim_none, collect_nil] at hs
            obtain rfl : 0 = U' := Option.some.inj ht
            rw [if_pos ⟨hfs, hft⟩, hended, hended', he, add_zero]
            refine collect_eq_iff (K := fun A B => K B A) (P := fun A B => P B A) (fun hW => ?_)
              (fun hH => by simpa using hK hs hH) hs
            obtain ⟨U₁, U₂, h₁, h₂, hsum⟩ := hle hW
            exact ⟨U₂, U₁, h₂, h₁, by rwa [add_comm]⟩
          · obtain ⟨U₁, hU₁, rfl⟩ := collect_eq_some.1 hs
            obtain ⟨U₂, hU₂, rfl⟩ := collect_eq_some.1 ht
            have hgoal : jointChain K x (l :: ls) s t = some (((s.fire l).elim [] (·.1) : Weights) + U₁ +
                (((t.fire l).elim [] (·.1) : Weights) + U₂)) ↔
                P (firedNode (s.fire l) s) (firedNode (t.fire l) t) := by
              rw [he, ← hK hU₁ hU₂, collect_eq_some, coe_firedWeights, add_add_add_comm]
              constructor
              · rintro ⟨W, hW, hsum⟩
                rw [hW, add_left_cancel hsum]
              · exact fun hW => ⟨_, hW, rfl⟩
            rw [hgoal]
            by_cases hfire : s.fire l = none ∧ t.fire l = none
            · obtain ⟨h₁, h₂⟩ := hidle hfire
              rw [if_pos hfire, h₁, h₂, hfire.1, hfire.2]
              rfl
            · rw [if_neg hfire]

theorem joint_eq_some_iff : ∀ {bs A B U U'}, A.value x bs = some U → B.value x bs = some U' →
    (joint x bs A B = some (U + U') ↔ Harmless x bs A B)
  | [], A, B, U, U', hA, hB => by
      have hleaf : ∀ {D : Diagram} {W}, D.value x [] = some W → D = .leaf true ∧ W = 0 := by
        intro D W hD
        unfold Diagram.value at hD
        split at hD
        · rename_i ht
          exact ⟨ht, (Option.some.inj hD).symm⟩
        · cases hD
      obtain ⟨rfl, rfl⟩ := hleaf hA
      obtain ⟨rfl, rfl⟩ := hleaf hB
      simp [joint_nil, Harmless]
  | b :: bs, A, B, U, U', hA, hB =>
      jointChain_eq_iff value_true joint_le joint_eq_some_iff hA hB

/-- What is built for two diagrams has the product of their values exactly if the product is
nothing or the two are harmless. -/
theorem joint_eq_product_iff : joint x bs A B = (A.value x bs).product (B.value x bs) ↔
    (A.value x bs).product (B.value x bs) = none ∨ Harmless x bs A B := by
  cases hp : (A.value x bs).product (B.value x bs) with
  | none =>
      simp only [true_or, iff_true]
      cases hj : joint x bs A B with
      | none => rfl
      | some W =>
          obtain ⟨U, U', hU, hU', _⟩ := joint_le hj
          rw [hU, hU'] at hp
          cases hp
  | some W =>
      obtain ⟨U, U', hU, hU', rfl⟩ := product_eq_some.1 hp
      simpa using joint_eq_some_iff hU hU'

end BayesCircuit.Decision

/-! ## Diagrams whose chains do not get mixed up -/

namespace BayesCircuit.Decision

/-- One side has left a chain for `true'`, which the other side does not touch. -/
structure Meets (s t : Stand) : Prop where
  ended : s.node = .leaf true
  left : s.left ≠ none
  untouched : t.left = none
  node : t.node.literal? ≠ none

/-- Two chains do not get mixed up, and neither do the diagrams that follow, as `K` says. -/
def ApartChain (e : Exit) (K : Diagram → Diagram → Prop) : List Literal → Stand → Stand → Prop
  | [], s, t => (e = .never → ¬ Meets s t ∧ ¬ Meets t s) ∧ K s.node t.node
  | l :: ls, s, t => (¬ Meets s t ∧ ¬ Meets t s) ∧
      K (firedNode (s.fire l) s) (firedNode (t.fire l) t) ∧
      ApartChain e K ls (s.descend l) (t.descend l)

/-- No chain of one diagram ends before the other diagram reaches the block. The end of the last
literal of a block counts if no chain may be left there. -/
def Apart (e : Exit) : List Block → Diagram → Diagram → Prop
  | [], _, _ => True
  | b :: bs, A, B => ApartChain e (Apart e bs) b.literals ⟨A, none⟩ ⟨B, none⟩

/-- The shape that the operands of a conjunction need for a result of a given shape. -/
def Exit.operand : Exit → Exit
  | .never => .never
  | _ => .atEnd

variable {x : Literal → Bool} {e e' : Exit} {same : Int → Int → Bool} {b : Block} {bs : List Block}
variable {l : Literal} {ls : List Literal} {A B D T : Diagram} {s t : Stand}
variable {K : Diagram → Diagram → Prop}

/-! ## Weaker shapes -/

/-- Chains that may be left at some place may be left there. -/
structure Exit.Weakens (e e' : Exit) : Prop where
  never : e' = .never → e = .never
  anywhere : e = .anywhere → e' = .anywhere

theorem Exit.operand_weakens : Exit.Weakens e.operand e := by
  cases e <;> exact ⟨by simp [Exit.operand], by simp [Exit.operand]⟩

theorem Chain.weaken {K K' : Diagram → Prop} (h : e.Weakens e') (hK : ∀ {D}, K D → K' D) :
    ∀ {ls D}, Chain e K ls D → Chain e' K' ls D
  | _, .leaf _, _ => chain_leaf
  | [], .branch .., hC => ⟨fun he => hC.1 (h.never he), hK hC.2⟩
  | l :: ls, .branch n ws H L, hC => by
      unfold Chain at hC ⊢
      split
      · rename_i hn
        rw [if_pos hn] at hC
        exact ⟨hK hC.1, hC.2.weaken h hK⟩
      · rename_i hn
        rw [if_neg hn] at hC
        exact ⟨fun he => hC.1 fun he' => he (h.anywhere he'), hC.2.weaken h hK⟩

theorem Regular.weaken (h : e.Weakens e') : ∀ {bs D}, Regular e bs D → Regular e' bs D
  | _, .leaf _, _ => regular_leaf
  | [], .branch .., hD => hD.elim
  | b :: bs, .branch n ws H L, hD => by
      unfold Regular at hD ⊢
      split
      · rename_i hn
        rw [if_pos hn] at hD
        exact ⟨hD.1.weaken h, hD.2.weaken h (Regular.weaken h)⟩
      · rename_i hn
        rw [if_neg hn] at hD
        exact hD.weaken h

theorem Regular.later (hL : Layout same (b :: bs)) (hD : Regular e bs D) :
    Regular e (b :: bs) D := by
  cases D with
  | leaf c => exact regular_leaf
  | branch n ws high low =>
      unfold Regular
      rw [if_neg]
      · exact hD
      · rintro rfl
        exact hD.untested hL b.head (List.mem_cons_self ..) rfl

/-! ## The shape of conjunctions -/

/-- What is planned for later blocks is regular. Strict shapes need diagrams that are apart. -/
def RegularLater (e : Exit) (same : Int → Int → Bool) (bs : List Block) : Prop :=
  ∀ {A B T}, Regular e.operand bs A → Regular e.operand bs B → (e ≠ .anywhere → Apart e bs A B) →
    Planned same (flatten bs) ⟨A, none⟩ ⟨B, none⟩ T → Regular e bs T

theorem RegularLater.skip (hK : RegularLater e same bs) (hw : Within same bs ls)
    (hA : Regular e.operand bs A) (hB : Regular e.operand bs B)
    (hAB : e ≠ .anywhere → Apart e bs A B)
    (hT : Planned same (ls ++ flatten bs) ⟨A, none⟩ ⟨B, none⟩ T) : Regular e bs T :=
  hK hA hB hAB (hT.skip (hw.untested hA) (hw.untested hB))

theorem InBlock.regular_of_none (h : InBlock e same bs ls s) (hn : s.left = none) :
    Regular e bs s.node := by
  rcases h with ⟨_, _, _, hT⟩ | ⟨_, hR⟩
  · rw [hT.left] at hn
    cases hn
  · exact hR

/-- A diagram of later blocks may stand in a chain where the chain may be left. -/
theorem chain_of_later (hw : Within same bs ls) (hD : Regular e bs D)
    (h : e ≠ .anywhere → e = .never ∨ ls ≠ [] → D.literal? = none) :
    Chain e (Regular e bs) ls D := by
  cases D with
  | leaf c => exact chain_leaf
  | branch n ws H L =>
      induction ls with
      | nil =>
          refine ⟨?_, hD⟩
          rintro rfl
          cases h (by decide) (Or.inl rfl)
      | cons l ls ih =>
          have he : e = .anywhere := by
            by_contra he
            cases h he (Or.inr (by simp))
          have hn : n ≠ l.value := by
            rintro rfl
            exact hw.untested hD l (List.mem_cons_self ..) rfl
          unfold Chain
          rw [if_neg hn]
          exact ⟨fun h => absurd he h, ih hw.tail fun h => absurd he h⟩

/-- A side that has left its chain has come to its end. -/
theorem InBlock.literal_of_left (h : InBlock .never same bs [] s) (hs : s.left ≠ none) :
    s.node.literal? = none := by
  rcases h with ⟨_, _, _, hT⟩ | ⟨hn, _⟩
  · have hC := hT.chain
    cases hD : s.node with
    | leaf c => rfl
    | branch =>
        rw [hD] at hC
        exact absurd rfl hC.1
  · exact absurd hn hs

/-- After its last literal, a chain that may not be left has ended. -/
theorem literal_of_planned (hs : InBlock .never same bs [] s) (ht : InBlock .never same bs [] t)
    (hst : ¬ Meets s t) (hts : ¬ Meets t s) (htouched : s.left ≠ none ∨ t.left ≠ none)
    (hT : Planned same (flatten bs) ⟨s.node, none⟩ ⟨t.node, none⟩ T) : T.literal? = none := by
  rcases hT.cases_found with ⟨rfl, _⟩ | ⟨rfl, _, _⟩ | ⟨rfl, hsn, _, _⟩ | ⟨rfl, htn, _, _⟩ | ⟨hW, _⟩
  · rfl
  · rfl
  · by_contra hn
    have htl : t.left = none := by
      by_contra htl
      exact hn (ht.literal_of_left htl)
    exact hst ⟨hsn, htouched.resolve_right fun h => h htl, htl, hn⟩
  · by_contra hn
    have hsl : s.left = none := by
      by_contra hsl
      exact hn (hs.literal_of_left hsl)
    exact hts ⟨htn, htouched.resolve_left fun h => h hsl, hsl, hn⟩
  · have hleaf : ∀ {c : Bool}, s.node ≠ .leaf c ∧ t.node ≠ .leaf c := by
      intro c
      cases c with
      | false => exact ⟨fun h => hW.left_false h rfl, fun h => hW.right_false h rfl⟩
      | true => exact ⟨fun h => (hW.left_true h).2 rfl, fun h => (hW.right_true h).2 rfl⟩
    rcases htouched with h | h
    · have := hs.literal_of_left h
      cases hD : s.node with
      | leaf c => exact absurd hD hleaf.1
      | branch =>
          rw [hD] at this
          cases this
    · have := ht.literal_of_left h
      cases hD : t.node with
      | leaf c => exact absurd hD hleaf.2
      | branch =>
          rw [hD] at this
          cases this

/-- What is planned inside a block is a chain. -/
theorem chain_planned (hK : RegularLater e same bs) :
    ∀ {ls s t T}, Within same bs ls → InBlock e.operand same bs ls s →
      InBlock e.operand same bs ls t → (e ≠ .anywhere → ApartChain e (Apart e bs) ls s t) →
      s.left ≠ none ∨ t.left ≠ none →
      Planned same (ls ++ flatten bs) (s.settle same (ls ++ flatten bs).head?)
        (t.settle same (ls ++ flatten bs).head?) T →
      Chain e (Regular e bs) ls T
  | [], s, t, T, hw, hs, ht, hA, htouched, hT => by
      rw [List.nil_append, hs.settle_nil, ht.settle_nil] at hT
      refine chain_of_later hw (hK hs.regular ht.regular (fun h => (hA h).2) hT) fun he hend => ?_
      obtain rfl := hend.resolve_right fun h => h rfl
      obtain ⟨hst, hts⟩ := (hA he).1 rfl
      exact literal_of_planned hs ht hst hts htouched hT
  | l :: ls, s, t, T, hw, hs, ht, hA, htouched, hT => by
      rw [List.cons_append, List.head?_cons, hs.settle_cons, ht.settle_cons] at hT
      rcases hT.cases_found with ⟨rfl, _⟩ | ⟨rfl, _, _⟩ | ⟨rfl, hsn, _, htl⟩ |
        ⟨rfl, htn, _, hsl⟩ | ⟨hW, hplan⟩
      · exact chain_leaf
      · exact chain_leaf
      · refine chain_of_later hw ((ht.regular_of_none htl).weaken Exit.operand_weakens)
          fun he _ => ?_
        by_contra hn
        exact (hA he).1.1 ⟨hsn, htouched.resolve_right fun h => h htl, htl, hn⟩
      · refine chain_of_later hw ((hs.regular_of_none hsl).weaken Exit.operand_weakens)
          fun he _ => ?_
        by_contra hn
        exact (hA he).1.2 ⟨htn, htouched.resolve_left fun h => h hsl, hsl, hn⟩
      · obtain ⟨H, L, hH, hL, rfl⟩ := plan_node (hW.fires htouched) hplan
        simp only [Chain, if_true]
        exact ⟨hK.skip hw.tail (hs.fired hw) (ht.fired hw) (fun h => (hA h).2.1) hH,
          chain_planned hK hw.tail (hs.descend hw) (ht.descend hw) (fun h => (hA h).2.2)
            (htouched.imp left_descend left_descend) hL⟩

/-- The conjunction of regular diagrams is regular, and strictly so if they are apart. -/
theorem plan_regular : ∀ {bs}, Layout same bs → RegularLater e same bs
  | [], _, A, B, T, hA, hB, _, hT => by
      rcases hT.cases_found with ⟨rfl, _⟩ | ⟨rfl, _, _⟩ | ⟨rfl, _, _, _⟩ | ⟨rfl, _, _, _⟩ |
        ⟨_, hplan⟩
      · exact regular_leaf
      · exact regular_leaf
      · exact hB.weaken Exit.operand_weakens
      · exact hA.weaken Exit.operand_weakens
      · cases hplan
  | b :: bs, hL, A, B, T, hA, hB, hAB, hT => by
      have hK : RegularLater e same bs := plan_regular hL.tail
      rcases hT.cases_found with ⟨rfl, _⟩ | ⟨rfl, _, _⟩ | ⟨rfl, _, _, _⟩ | ⟨rfl, _, _, _⟩ |
        ⟨hW, hplan⟩
      · exact regular_leaf
      · exact regular_leaf
      · exact hB.weaken Exit.operand_weakens
      · exact hA.weaken Exit.operand_weakens
      · have hw := hL.within_literals
        obtain ⟨hsb, hsf⟩ := hA.descend_head hL
        obtain ⟨htb, htf⟩ := hB.descend_head hL
        have hfired := fun h => (hAB h).2.1
        by_cases hfire : Stand.fire b.head ⟨A, none⟩ = none ∧ Stand.fire b.head ⟨B, none⟩ = none
        · rw [hfire.1] at hsf hfired
          rw [hfire.2] at htf hfired
          exact (hK.skip hw hsf htf hfired hT).later hL
        · obtain ⟨H, L, hH, hlow, rfl⟩ := plan_node hfire hplan
          simp only [Regular, if_true]
          exact ⟨hK.skip hw.tail hsf htf hfired hH,
            chain_planned hK hw.tail hsb htb (fun h => (hAB h).2.2) (touched_head hfire) hlow⟩

/-! ## Products -/

/-- A chain that is taken up again meets the other side. -/
theorem meets_of_ended {p : Weights × Diagram} (h : s.ended t = some p) (ht : t.fire l = none)
    (hn : t.node ≠ .leaf false) : Meets s t := by
  unfold Stand.ended at h
  split at h
  · rename_i hst
    obtain ⟨q, hq, _⟩ := Option.map_eq_some_iff.1 h
    rcases fire_cases t l with ⟨_, _, _, _, hf, _⟩ | ⟨_, _, hf⟩
    · rw [hf] at ht
      cases ht
    · rw [hf, if_neg hst.2, Option.map_eq_none_iff] at ht
      refine ⟨hst.1, by simp [hq], ht, ?_⟩
      cases hD : t.node with
      | leaf c => cases c <;> simp_all
      | branch => simp [Diagram.literal?]
  · cases h

theorem HarmlessChain.of_apart {P : Diagram → Diagram → Prop} {V : Diagram → Value}
    (hfalse : V (.leaf false) = none)
    (hK : ∀ {A B}, K A B → V A ≠ none → V B ≠ none → P A B) :
    ∀ {ls s t}, ApartChain e K ls s t → chainValue V x ls s ≠ none → chainValue V x ls t ≠ none →
      HarmlessChain P V x ls s t
  | [], s, t, h, hs, ht => hK h.2 hs ht
  | l :: ls, s, t, ⟨⟨hst, hts⟩, hfired, hdesc⟩, hs, ht => by
      rw [HarmlessChain]
      cases hx : x l with
      | false =>
          rw [chainValue, if_neg (by simp [hx])] at hs ht
          exact HarmlessChain.of_apart hfalse hK hdesc hs ht
      | true =>
          rw [chainValue_holds hx] at hs ht
          have hvalue : ∀ {r : Stand}, collect ((r.fire l).elim [] (·.1))
              (V (firedNode (r.fire l) r)) ≠ none → V (firedNode (r.fire l) r) ≠ none := by
            intro r hr hn
            rw [hn] at hr
            exact hr rfl
          have hVs := hvalue hs
          have hVt := hvalue ht
          have hP := hK hfired hVs hVt
          rw [if_pos rfl]
          split
          · rename_i hfire
            rw [hfire.1, firedNode_none] at hVs hP
            rw [hfire.2, firedNode_none] at hVt hP
            split
            · rename_i he
              exact absurd (meets_of_ended he hfire.2 fun hn => hVt (hn ▸ hfalse)) hst
            · rename_i he
              exact absurd (meets_of_ended he hfire.1 fun hn => hVs (hn ▸ hfalse)) hts
            · exact hP
          · exact hP

theorem Apart.harmless : ∀ {bs A B}, Apart e bs A B → A.value x bs ≠ none → B.value x bs ≠ none →
    Harmless x bs A B
  | [], _, _, _, _, _ => trivial
  | _ :: _, _, _, h, hA, hB => HarmlessChain.of_apart value_false Apart.harmless h hA hB

/-- The conjunction of diagrams that are apart is the product. -/
theorem Apart.joint_eq_product (h : Apart e bs A B) :
    joint x bs A B = (A.value x bs).product (B.value x bs) := by
  refine joint_eq_product_iff.2 ?_
  cases hp : (A.value x bs).product (B.value x bs) with
  | none => exact Or.inl rfl
  | some W =>
      obtain ⟨U, U', hU, hU', _⟩ := product_eq_some.1 hp
      exact Or.inr (h.harmless (by simp [hU]) (by simp [hU']))

/-- Diagrams whose literals are variables of their own are apart. -/
theorem apart_singles {ordering : List Literal} : Apart .atEnd (singles ordering) A B := by
  have hno : ∀ {A B : Diagram}, ¬ Meets ⟨A, none⟩ ⟨B, none⟩ := fun h => h.left rfl
  induction ordering generalizing A B with
  | nil => trivial
  | cons l ls ih => exact ⟨⟨hno, hno⟩, ih, nofun, ih⟩

end BayesCircuit.Decision
