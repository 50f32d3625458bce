import BayesCircuit.Proofs.Decision.Pass
import BayesCircuit.Proofs.References.Gives
import Mathlib.Logic.Relation

/-!
# The graph of the decision nodes

The decision nodes and their edges form a graph without cycles if every node unfolds to a tree
(`Unfolds`): a node below another one has a tree of smaller depth, so no edge leads back. What is
below a node decides its tree, and a change elsewhere leaves the tree alone.

The rest of this file says which changes of a single node keep the graph free of cycles and every
node attached.
-/

namespace BayesCircuit.Decision

variable {frozen : Handle → Option Node} {f : Handle → Option Node.Key} {s : Set Handle}
variable {g h c : Handle} {k k' : Node.Key} {k? : Option Node.Key} {D E : Diagram}

/-- An edge of a decision node. -/
def Edge (f : Handle → Option Node.Key) (g h : Handle) : Prop :=
  g.isTerminal = false ∧ ∃ k, f g = some k ∧ (k.high = h ∨ k.low = h)

/-- A path leads from a node down to another one. -/
def Below (f : Handle → Option Node.Key) : Handle → Handle → Prop := Relation.ReflTransGen (Edge f)

/-- Every node unfolds to a tree. -/
def Unfolds (f : Handle → Option Node.Key) : Prop := ∀ h, (f h).isSome → ∃ D, Denotes f h D

theorem Pointed.edge {m : Manager} {ext : Handle → Nat} (H : Heap frozen ext m)
    (hp : Pointed frozen m.key? h) : ∃ g, Edge m.key? g h := by
  obtain ⟨i, k, hi, hk, hkh⟩ := hp
  exact ⟨i, H.not_terminal hi, k, hk, hkh⟩

theorem Edge.pointed (hb : Bare frozen) (he : Edge f g h) : Pointed frozen f h := by
  obtain ⟨hg, k, hk, hkh⟩ := he
  exact ⟨g, k, hb g hg, hk, hkh⟩

/-! ## Trees -/

theorem Denotes.of_edge (hD : Denotes f g D) (he : Edge f g h) :
    ∃ E, Denotes f h E ∧ E.depth < D.depth := by
  obtain ⟨hg, k, hk, hkh⟩ := he
  obtain ⟨k', H, L, hk', hH, hL, rfl⟩ := hD.cases_node hg
  rw [hk] at hk'
  cases hk'
  simp only [Diagram.depth]
  rcases hkh with rfl | rfl
  · exact ⟨H, hH, by omega⟩
  · exact ⟨L, hL, by omega⟩

theorem Denotes.of_below (hD : Denotes f g D) (hb : Below f g h) :
    ∃ E, Denotes f h E ∧ E.depth ≤ D.depth := by
  induction hb with
  | refl => exact ⟨D, hD, Nat.le_refl _⟩
  | tail _ he ih =>
      obtain ⟨E, hE, hle⟩ := ih
      obtain ⟨E', hE', hlt⟩ := hE.of_edge he
      exact ⟨E', hE', by omega⟩

/-- No path leads back over an edge. -/
theorem Denotes.not_below (hD : Denotes f g D) (he : Edge f g h) : ¬ Below f h g := by
  intro hb
  obtain ⟨E, hE, hlt⟩ := hD.of_edge he
  obtain ⟨D', hD', hle⟩ := hE.of_below hb
  rw [hD.unique hD'] at hlt
  omega

/-- Nothing but a node itself is above it if no edge leads to it. -/
theorem not_below_of_not_edge (hno : ∀ g, ¬ Edge f g h) (hc : c ≠ h) : ¬ Below f c h := by
  intro hb
  rcases Relation.ReflTransGen.cases_tail hb with he | ⟨g, _, he⟩
  · exact hc he.symm
  · exact hno g he

theorem Denotes.update_of_not_below (hD : Denotes f c D) (hc : ¬ Below f c h) :
    Denotes (Function.update f h k?) c D := by
  induction hD with
  | false' => exact .false'
  | true' => exact .true'
  | @node c k H L ht hk hH hL ihH ihL =>
      have hne : c ≠ h := by
        rintro rfl
        exact hc .refl
      refine .node ht (by rw [Function.update_of_ne hne, hk]) (ihH fun hb => hc ?_)
        (ihL fun hb => hc ?_)
      · exact .head ⟨ht, k, hk, Or.inl rfl⟩ hb
      · exact .head ⟨ht, k, hk, Or.inr rfl⟩ hb

/-- If a changed node unfolds, all nodes do; their trees get no deeper if its tree does not. -/
theorem Denotes.update (hD : Denotes f g D) (hE : Denotes (Function.update f h (some k)) h E) :
    ∃ D', Denotes (Function.update f h (some k)) g D' ∧
      ((∀ E', Denotes f h E' → E.depth ≤ E'.depth) → D'.depth ≤ D.depth) := by
  induction hD with
  | false' => exact ⟨_, .false', fun _ => Nat.le_refl _⟩
  | true' => exact ⟨_, .true', fun _ => Nat.le_refl _⟩
  | @node g kg H L ht hk hH hL ihH ihL =>
      by_cases hg : g = h
      · subst hg
        exact ⟨E, hE, fun hle => hle _ (.node ht hk hH hL)⟩
      · obtain ⟨H', hH', hleH⟩ := ihH
        obtain ⟨L', hL', hleL⟩ := ihL
        refine ⟨_, .node ht (by rw [Function.update_of_ne hg, hk]) hH' hL', fun hle => ?_⟩
        have := hleH hle
        have := hleL hle
        simp only [Diagram.depth]
        omega

/-! ## Unfolding after a change -/

theorem Unfolds.add (hU : Unfolds f) (hnone : f h = none) (hh : h.isTerminal = false)
    (hhigh : ∃ D, Denotes f k.high D) (hlow : ∃ D, Denotes f k.low D) :
    Unfolds (Function.update f h (some k)) := by
  have hmono : ∀ g kg, f g = some kg → Function.update f h (some k) g = some kg := by
    intro g kg hg
    rw [Function.update_of_ne, hg]
    rintro rfl
    rw [hnone] at hg
    cases hg
  intro g hg
  by_cases hgh : g = h
  · subst hgh
    obtain ⟨H, hH⟩ := hhigh
    obtain ⟨L, hL⟩ := hlow
    exact ⟨_, .node hh (by simp) (hH.mono hmono) (hL.mono hmono)⟩
  · rw [Function.update_of_ne hgh] at hg
    obtain ⟨D, hD⟩ := hU g hg
    exact ⟨D, hD.mono hmono⟩

/-- The edges of a node may lead to whatever it is not below. -/
theorem Unfolds.change (hU : Unfolds f) (hh : h.isTerminal = false)
    (hhigh : ∃ D, Denotes f k.high D) (hlow : ∃ D, Denotes f k.low D)
    (hhigh' : ¬ Below f k.high h) (hlow' : ¬ Below f k.low h) :
    Unfolds (Function.update f h (some k)) := by
  obtain ⟨H, hH⟩ := hhigh
  obtain ⟨L, hL⟩ := hlow
  have hE := Denotes.node hh (Function.update_self h (some k) f) (hH.update_of_not_below hhigh')
    (hL.update_of_not_below hlow')
  intro g hg
  by_cases hgh : g = h
  · rw [hgh]
    exact ⟨_, hE⟩
  · rw [Function.update_of_ne hgh] at hg
    obtain ⟨D, hD⟩ := hU g hg
    obtain ⟨D', hD', _⟩ := hD.update hE
    exact ⟨D', hD'⟩

theorem Unfolds.remove (hU : Unfolds f) (hno : ∀ g, ¬ Edge f g h) :
    Unfolds (Function.update f h none) := by
  intro g hg
  have hgh : g ≠ h := by
    rintro rfl
    simp at hg
  rw [Function.update_of_ne hgh] at hg
  obtain ⟨D, hD⟩ := hU g hg
  exact ⟨D, hD.update_of_not_below (not_below_of_not_edge hno hgh)⟩

/-! ## Attached nodes after a change -/

theorem Attached.add (ha : Attached frozen s f) (hnone : f h = none) :
    Attached frozen (insert h s) (Function.update f h (some k)) := by
  intro g kg hg hk
  by_cases hgh : g = h
  · exact Or.inl (hgh ▸ Set.mem_insert _ _)
  rw [Function.update_of_ne hgh] at hk
  rcases ha g kg hg hk with hs | ⟨i, ki, hi, hki, hkg⟩
  · exact Or.inl (Set.mem_insert_of_mem _ hs)
  · refine Or.inr ⟨i, ki, hi, ?_, hkg⟩
    rw [Function.update_of_ne, hki]
    rintro rfl
    rw [hnone] at hki
    cases hki

/-- An edge is turned to `c`; what it led to must be attached otherwise. -/
theorem Attached.change (ha : Attached frozen (insert c s) f) (hh : frozen h = none)
    (hk : f h = some k) (hc : k'.high = c ∨ k'.low = c)
    (hold : ∀ j, frozen j = none → k.high = j ∨ k.low = j →
      (k'.high = j ∨ k'.low = j) ∨ j ∈ s) :
    Attached frozen s (Function.update f h (some k')) := by
  intro g kg hg hkg
  have hnew : ∀ j, k'.high = j ∨ k'.low = j → Pointed frozen (Function.update f h (some k')) j :=
    fun j hj => ⟨h, k', hh, by simp, hj⟩
  have hlive : ∃ k₀, f g = some k₀ := by
    by_cases hgh : g = h
    · exact ⟨k, hgh ▸ hk⟩
    · rw [Function.update_of_ne hgh] at hkg
      exact ⟨kg, hkg⟩
  obtain ⟨k₀, hk₀⟩ := hlive
  rcases ha g k₀ hg hk₀ with hs | ⟨i, ki, hi, hki, hkig⟩
  · rcases Set.mem_insert_iff.1 hs with rfl | hs
    · exact Or.inr (hnew g hc)
    · exact Or.inl hs
  · by_cases hih : i = h
    · subst hih
      rw [hk] at hki
      cases hki
      exact (hold g hg hkig).symm.imp_right (hnew g)
    · exact Or.inr ⟨i, ki, hi, by rw [Function.update_of_ne hih, hki], hkig⟩

/-- A node is freed; its children must be attached otherwise. -/
theorem Attached.remove (ha : Attached frozen (insert h s) f) (hk : f h = some k)
    (hc : ∀ j, k.high = j ∨ k.low = j → frozen j = none →
      ∀ kj, Function.update f h none j = some kj →
        j ∈ s ∨ Pointed frozen (Function.update f h none) j) :
    Attached frozen s (Function.update f h none) := by
  intro g kg hg hkg
  have hgh : g ≠ h := by
    rintro rfl
    simp at hkg
  have hkg' := hkg
  rw [Function.update_of_ne hgh] at hkg
  rcases ha g kg hg hkg with hs | ⟨i, ki, hi, hki, hkig⟩
  · exact Or.inl ((Set.mem_insert_iff.1 hs).resolve_left hgh)
  · by_cases hih : i = h
    · subst hih
      rw [hk] at hki
      cases hki
      exact hc g hkig hg kg hkg'
    · exact Or.inr ⟨i, ki, hi, by rw [Function.update_of_ne hih, hki], hkig⟩

end BayesCircuit.Decision
