import BayesCircuit.Compiler.Compilation
import BayesCircuit.Proofs.Bound.Tally
import BayesCircuit.Proofs.Collection.Ascending
import BayesCircuit.Proofs.Network
import BayesCircuit.Proofs.Outcome
import Mathlib.Algebra.BigOperators.Group.List.Lemmas

/-!
# Which partitions can be joined

A join is drawn with the number of assignments of its context, which has to fit a machine word.
Nothing else can keep partitions from being joined in the order in which they come
(`compose_ok_iff`), so all goes well if the shared variables have few enough assignments together
(`compose_ok`).
-/

namespace BayesCircuit

open Collection Collection.Ascending

theorem Outcome.exists_append_ok_iff {x y : Outcome String} :
    (∃ s, (do let a ← x; return a ++ (← y)) = .ok s) ↔ (∃ a, x = .ok a) ∧ ∃ b, y = .ok b := by
  cases x <;> cases y <;> simp [bind, Except.bind, pure, Except.pure]

namespace Tally

/-- A product of positive numbers is found in machine words just if it fits. -/
theorem isSome_foldlM_word : ∀ {dims : List Nat} {k : Nat}, (∀ d ∈ dims, 0 < d) →
    k < wordSize → ((dims.foldlM Tally.word.mul? k).isSome ↔ k * dims.prod < wordSize)
  | [], k, _, hk => by simpa using hk
  | d :: dims, k, hpos, hk => by
      obtain ⟨hd, hpos⟩ := List.forall_mem_cons.1 hpos
      rw [List.prod_cons, ← Nat.mul_assoc, List.foldlM_cons]
      by_cases h : k * d < wordSize
      · rw [word_mul h]
        exact isSome_foldlM_word hpos h
      · have hle := Nat.le_mul_of_pos_right (k * d) (List.prod_pos_iff_forall_pos_nat.2 hpos)
        have hnone : Tally.word.mul? k d = none := if_neg h
        rw [hnone]
        exact iff_of_false (by simp) fun hlt => h (Nat.lt_of_le_of_lt hle hlt)

end Tally

namespace Composition

variable {c : Composition} {chain : Bool}

mutual

/-- The contexts of a join and of those below it. -/
def Join.contexts : Join → List (List Variable)
  | .mk _ context js => context :: contextsAll js

/-- The contexts of joins and of those below them. -/
def contextsAll : List Join → List (List Variable)
  | [] => []
  | j :: js => j.contexts ++ contextsAll js

end

/-- The number of assignments of a context. -/
def assignments (c : Composition) (context : List Variable) : Nat :=
  (context.map (c.dims.getD · 0)).prod

/-! ## Drawing -/

/-- A line can be drawn if the number of assignments can be written down. -/
theorem drawJoin_ok_iff {margin : String} {last : Bool} {p : Nat} {context : List Variable} :
    (∃ s, c.drawJoin margin last p context = .ok s) ↔ (width .word c context).isSome := by
  unfold drawJoin
  cases width .word c context with
  | none => simp [expect, abort]
  | some n => simp [expect]

mutual

theorem draw_ok_iff (c : Composition) : ∀ (margin : String) (last : Bool) (j : Join),
    (∃ s, c.draw margin last j = .ok s) ↔ ∀ ctx ∈ j.contexts, (width .word c ctx).isSome
  | margin, last, .mk p context js => by
      rw [Join.contexts, List.forall_mem_cons, ← drawJoin_ok_iff,
        ← drawAll_ok_iff c (margin ++ if last then "    " else "│   ") js, draw]
      exact Outcome.exists_append_ok_iff

theorem drawAll_ok_iff (c : Composition) : ∀ (margin : String) (js : List Join),
    (∃ s, c.drawAll margin js = .ok s) ↔ ∀ ctx ∈ contextsAll js, (width .word c ctx).isSome
  | margin, [] => by simp [drawAll, contextsAll]
  | margin, j :: js => by
      rw [contextsAll, List.forall_mem_append, ← draw_ok_iff c margin js.isEmpty j,
        ← drawAll_ok_iff c margin js, drawAll]
      exact Outcome.exists_append_ok_iff

end

theorem toAscii_ok_iff {t : Tree} :
    (∃ s, c.toAscii t = .ok s) ↔ ∀ ctx ∈ contextsAll t.roots, (width .word c ctx).isSome := by
  rw [← drawAll_ok_iff c ""]
  exact (Outcome.exists_append_ok_iff (x := .ok "(*)\n")).trans (by simp)

/-! ## Contexts -/

theorem mem_contextsAll {ctx : List Variable} : ∀ {js : List Join},
    ctx ∈ contextsAll js ↔ ∃ j ∈ js, ctx ∈ j.contexts
  | [] => by simp [contextsAll]
  | j :: js => by
      rw [contextsAll, List.mem_append, mem_contextsAll, List.exists_mem_cons_iff]

theorem Join.context_mem_contexts : ∀ j : Join, j.context ∈ j.contexts
  | .mk p context js => by
      rw [Join.contexts]
      exact List.mem_cons_self ..

/-- A set of shared variables. -/
structure IsContext (c : Composition) (ctx : List Variable) : Prop where
  strict : Strict ctx
  shared : ∀ v ∈ ctx, ∃ p, v ∈ c.sharedOf p

theorem isContext_nil : c.IsContext [] := ⟨List.Pairwise.nil, by simp⟩

theorem isContext_union {xs ys : List Variable} (hx : c.IsContext xs) (hy : c.IsContext ys) :
    c.IsContext (union xs ys) where
  strict := strict_union hx.strict
  shared v hv := (mem_union.1 hv).elim (hx.shared v) (hy.shared v)

theorem isContext_foldl_union {contexts : List (List Variable)} {ctx : List Variable}
    (h : c.IsContext ctx) (hall : ∀ ctx' ∈ contexts, c.IsContext ctx') :
    c.IsContext (contexts.foldl union ctx) := by
  induction contexts generalizing ctx with
  | nil => exact h
  | cons ctx' contexts ih =>
      obtain ⟨h', hall⟩ := List.forall_mem_cons.1 hall
      exact ih (isContext_union h h') hall

theorem isContext_close : ∀ {vs : List Variable} {open' : Array Nat} {ctx : List Variable},
    (∀ v ∈ vs, ∃ p, v ∈ c.sharedOf p) → c.IsContext ctx → c.IsContext (close vs open' ctx).2
  | [], _, _, _, h => h
  | v :: vs, open', ctx, hvs, h => by
      obtain ⟨hv, hvs⟩ := List.forall_mem_cons.1 hvs
      rw [close]
      refine isContext_close hvs ?_
      split
      · exact ⟨strict_erase h.strict, fun u hu => h.shared u (mem_erase.1 hu).1⟩
      · refine ⟨strict_insert h.strict, fun u hu => ?_⟩
        rcases mem_insert.1 hu with rfl | hu
        · exact hv
        · exact h.shared u hu

theorem mem_takeUp {α : Type} {context : α → List Variable} {shared : List Variable}
    {roots : List α} {a : α} :
    a ∈ (takeUp context chain shared roots).1 ∨ a ∈ (takeUp context chain shared roots).2 ↔
      a ∈ roots := by
  unfold takeUp
  split
  · simp
  · simp only [List.partition_eq_filter_filter, List.mem_filter, Function.comp_apply]
    cases related shared (context a) <;> simp

/-- All contexts of a tree are sets of shared variables. -/
theorem isContext_joinFrom : ∀ {ps : List Nat} {open' : Array Nat} {roots : List Join},
    (∀ ctx ∈ contextsAll roots, c.IsContext ctx) →
      ∀ ctx ∈ contextsAll (joinFrom c chain ps open' roots), c.IsContext ctx
  | [], _, _, h => h
  | p :: ps, open', roots, h => by
      have hroots : ∀ j ∈ roots, ∀ ctx ∈ j.contexts, c.IsContext ctx :=
        fun j hj ctx hctx => h ctx (mem_contextsAll.2 ⟨j, hj, hctx⟩)
      have htaken := @mem_takeUp chain _ Join.context (c.sharedOf p) roots
      rw [joinFrom]
      generalize takeUp Join.context chain (c.sharedOf p) roots = taken at htaken ⊢
      obtain ⟨below, rest⟩ := taken
      refine isContext_joinFrom fun ctx hctx => ?_
      obtain ⟨j, hj, hctx⟩ := mem_contextsAll.1 hctx
      rcases List.mem_append.1 hj with hj | hj
      · exact hroots j (htaken.1 (.inr hj)) ctx hctx
      obtain rfl := List.mem_singleton.1 hj
      rw [Join.contexts, List.mem_cons] at hctx
      rcases hctx with rfl | hctx
      · refine isContext_close (fun v hv => ⟨p, hv⟩) (isContext_foldl_union isContext_nil ?_)
        rintro _ h'
        obtain ⟨j, hj, rfl⟩ := List.mem_map.1 h'
        exact hroots j (htaken.1 (.inl hj)) _ j.context_mem_contexts
      · obtain ⟨j, hj, hctx⟩ := mem_contextsAll.1 hctx
        exact hroots j (htaken.1 (.inl hj)) ctx hctx

/-! ## Numbers of assignments -/

/-- The variables that more than one partition mentions. -/
def sharedVariables (c : Composition) : List Variable :=
  (List.range c.dims.size).filter fun v => 1 < c.occurrences.getD v 0

section Partitions

variable {net : Network} {ps : Partitions} {v : Variable} {ctx : List Variable}

theorem mem_sharedVariables {p : Nat} (hv : v ∈ (ofPartitions net.dims ps).sharedOf p) :
    v ∈ (ofPartitions net.dims ps).sharedVariables := by
  have hshared : 1 < (ofPartitions net.dims ps).occurrences.getD v 0 := by
    simp only [ofPartitions, sharedOf, Array.getD_eq_getD_getElem?, Array.getElem?_map] at hv ⊢
    cases hp : ps.parts[p]? with
    | none => simp [hp] at hv
    | some part =>
        simp only [hp, Option.map_some, Option.getD_some, List.mem_filter] at hv
        simpa using hv.2
  refine List.mem_filter.2 ⟨List.mem_range.2 ?_, by simpa using hshared⟩
  by_contra hsize
  have hnone : (ofPartitions net.dims ps).occurrences[v]? = none := by
    simpa [ofPartitions] using hsize
  rw [Array.getD_eq_getD_getElem?, hnone] at hshared
  simp at hshared

theorem dim_pos_of_shared (hnet : net.WellFormed)
    (hv : v ∈ (ofPartitions net.dims ps).sharedVariables) :
    0 < (ofPartitions net.dims ps).dims.getD v 0 := by
  refine hnet.dim_pos ?_
  simpa [ofPartitions, Network.dims, Network.size] using List.mem_range.1 (List.mem_filter.1 hv).1

theorem dims_pos (hnet : net.WellFormed) (hctx : (ofPartitions net.dims ps).IsContext ctx) :
    ∀ d ∈ ctx.map ((ofPartitions net.dims ps).dims.getD · 0), 0 < d := by
  intro d hd
  obtain ⟨v, hv, rfl⟩ := List.mem_map.1 hd
  obtain ⟨p, hp⟩ := hctx.shared v hv
  exact dim_pos_of_shared hnet (mem_sharedVariables hp)

theorem isSome_width_iff (hnet : net.WellFormed)
    (hctx : (ofPartitions net.dims ps).IsContext ctx) :
    (width .word (ofPartitions net.dims ps) ctx).isSome ↔
      (ofPartitions net.dims ps).assignments ctx < wordSize := by
  rw [assignments, ← Nat.one_mul (List.prod _)]
  exact Tally.isSome_foldlM_word (dims_pos hnet hctx) (by decide)

/-- A context has no more assignments than the shared variables. -/
theorem assignments_le (hnet : net.WellFormed) (hctx : (ofPartitions net.dims ps).IsContext ctx) :
    (ofPartitions net.dims ps).assignments ctx ≤
      (ofPartitions net.dims ps).assignments (ofPartitions net.dims ps).sharedVariables := by
  have hsub : ctx ⊆ (ofPartitions net.dims ps).sharedVariables := by
    intro v hv
    obtain ⟨p, hp⟩ := hctx.shared v hv
    exact mem_sharedVariables hp
  obtain ⟨l, hperm, hl⟩ := List.subperm_of_subset hctx.strict.nodup hsub
  refine Nat.le_of_dvd (List.prod_pos_iff_forall_pos_nat.2 fun d hd => ?_) ?_
  · obtain ⟨v, hv, rfl⟩ := List.mem_map.1 hd
    exact dim_pos_of_shared hnet hv
  · rw [assignments, ← (hperm.map _).prod_eq]
    exact (hl.map _).prod_dvd_prod

end Partitions

/-- The partitions can be joined in every order. -/
theorem build_perm {ordering : List Nat} (h : ordering.Perm (List.range c.size)) (chain : Bool) :
    c.build ordering chain =
      .ok ⟨ordering, joinFrom c chain ordering.reverse c.occurrences []⟩ := by
  have hcheck : checkOrdering c.size ordering = .ok () := by
    have hlength : ordering.length = c.size := by rw [h.length_eq, List.length_range]
    have hany : ordering.any (c.size ≤ ·) = false := by
      rw [h.any_eq, List.any_eq_false]
      intro p hp
      simpa using List.mem_range.1 hp
    simp [checkOrdering, hany, h.nodup_iff.2 List.nodup_range, hlength]
  rw [build, hcheck]
  rfl

theorem build_range (c : Composition) (chain : Bool) :
    c.build (List.range c.size) chain =
      .ok ⟨List.range c.size, joinFrom c chain (List.range c.size).reverse c.occurrences []⟩ :=
  build_perm (.refl _) chain

end Composition

namespace Compiler.Compilation

open Composition

/-- The variables that the partitions share. -/
def shared (c : Compilation) : Composition := .ofPartitions c.network.dims c.partitions

/-- The joins of the partitions in the order in which they come. -/
def joins (c : Compilation) : List Join :=
  joinFrom c.shared (c.settings.diagram == .chain) (List.range c.shared.size).reverse
    c.shared.occurrences []

variable {c : Compilation}

/-- Partitions that are joined in the order in which they come. -/
structure Unjoined (c : Compilation) : Prop where
  composition : c.composition = none
  composing : c.composing = none
  inOrder : c.settings.cheapestComposition = false

theorem run_liftOutcome {α : Type} (x : Outcome α) :
    (liftOutcome x).run c = match x with | .ok a => .ok a c | .error f => .error f c := by
  cases x <;> rfl

theorem run_discard {α : Type} (x : Outcome α) :
    (discard (liftOutcome x)).run c =
      match x with | .ok _ => .ok () c | .error f => .error f c := by
  cases x <;> rfl

theorem Unjoined.compositionOrdering_eq (h : c.Unjoined) :
    c.compositionOrdering c.shared = .ok (List.range c.shared.size) := by
  have hsize : c.shared.size = c.partitions.size := by
    simp [shared, Composition.size, ofPartitions, Partitions.size]
  simp [compositionOrdering, h.composing, h.inOrder, hsize]

/-- Only the drawing can fail. -/
theorem run_compose (h : c.Unjoined) (hsize : 1 < c.partitions.size) :
    (∃ c', compose.run c = .ok () c') ↔
      ∃ s, c.shared.toAscii ⟨List.range c.shared.size, c.joins⟩ = .ok s := by
  have hcond : (1 < c.partitions.size && c.composition.isNone) = true := by
    simp [hsize, h.composition]
  have hbuild := build_range c.shared (c.settings.diagram == .chain)
  have hord := h.compositionOrdering_eq
  unfold compose
  simp only [EStateM.run_bind, EStateM.run_get, hcond, if_true, EStateM.run_modify,
    run_liftOutcome, run_discard]
  simp only [joins, shared] at hord hbuild ⊢
  simp only [hord, hbuild]
  cases (ofPartitions c.network.dims c.partitions).toAscii _ with
  | ok s => simp
  | error f => simp

/-- Partitions can be joined if each context has few enough assignments to be written down. -/
theorem compose_ok_iff (hnet : c.network.WellFormed) (h : c.Unjoined)
    (hsize : 1 < c.partitions.size) :
    (∃ c', compose.run c = .ok () c') ↔
      ∀ ctx ∈ contextsAll c.joins, c.shared.assignments ctx < wordSize := by
  rw [run_compose h hsize, toAscii_ok_iff]
  refine forall₂_congr fun ctx hctx => isSome_width_iff hnet ?_
  exact isContext_joinFrom (by simp [contextsAll]) ctx hctx

/-- Partitions can be joined if the variables that they share have few enough assignments. -/
theorem compose_ok (hnet : c.network.WellFormed) (h : c.Unjoined)
    (hshared : c.shared.assignments c.shared.sharedVariables < wordSize) :
    ∃ c', compose.run c = .ok () c' := by
  rcases Nat.lt_or_ge 1 c.partitions.size with hsize | hsize
  · refine (compose_ok_iff hnet h hsize).2 fun ctx hctx => Nat.lt_of_le_of_lt ?_ hshared
    exact assignments_le hnet (isContext_joinFrom (by simp [contextsAll]) ctx hctx)
  · refine ⟨c, ?_⟩
    unfold compose
    simp [EStateM.run_bind, EStateM.run_get, Nat.not_lt.2 hsize]

end Compiler.Compilation
end BayesCircuit
