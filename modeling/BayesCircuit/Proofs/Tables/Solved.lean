import BayesCircuit.Proofs.Rows.Represents
import BayesCircuit.Proofs.Tables.Tree

/-!
# The tree of a solved table

Along an ordering that lists the literals of a table variable by variable, the engine of the table
plans the tree of all its rows (`plan_tree`). At each literal of a variable without a value, the
high child is planned for the values that the literal and the path so far give, and the low child
for the literals of the variable that are left. A literal of the last variable completes a row.
-/

namespace BayesCircuit.Decision.Rows

open Collection Decision.Action

variable {r r' : Rows} {l m : Literal} {ls rest b : List Literal} {first dim : Variable → Nat}
variable {u w : Variable} {us : List Variable} {v : Nat} {ρ σ : Variable → Nat}
variable {bs : List (List Literal)}

/-! ## Runs of literals -/

/-- The literals of the values of a variable, once each. -/
def Run (first dim : Variable → Nat) (u : Variable) (b : List Literal) : Prop :=
  (b.map Literal.value).Perm ((List.range (dim u)).map fun d => ((first u + d : Nat) : Int))

/-- A positive literal of a variable. -/
structure ValueOf (first dim : Variable → Nat) (u : Variable) (l : Literal) : Prop where
  positive : l.isNegative = false
  le : first u ≤ l.index
  lt : l.index < first u + dim u

theorem Run.valueOf (h : Run first dim u b) (hl : l ∈ b) : ValueOf first dim u l := by
  have hmem : l.value ∈ b.map Literal.value := List.mem_map_of_mem hl
  rw [h.mem_iff, List.mem_map] at hmem
  obtain ⟨d, hd, hvalue⟩ := hmem
  rw [List.mem_range] at hd
  have hindex : l.index = first u + d := by
    rw [Literal.index, ← hvalue]
    rfl
  refine ⟨?_, by omega, by omega⟩
  rw [Literal.isNegative, ← hvalue]
  exact decide_eq_false (by omega)

theorem Run.exists_mem {d : Nat} (h : Run first dim u b) (hd : d < dim u) :
    ∃ l ∈ b, l.index = first u + d := by
  have hmem : ((first u + d : Nat) : Int) ∈ b.map Literal.value :=
    h.mem_iff.2 (List.mem_map.2 ⟨d, List.mem_range.2 hd, rfl⟩)
  obtain ⟨l, hl, hvalue⟩ := List.mem_map.1 hmem
  exact ⟨l, hl, by rw [Literal.index, hvalue]; rfl⟩

theorem Run.ne_nil (h : Run first dim u b) (hdim : 0 < dim u) : b ≠ [] := by
  obtain ⟨l, hl, -⟩ := h.exists_mem hdim
  exact List.ne_nil_of_mem hl

/-- A variable of the table has no value yet. -/
def Undecided (r : Rows) (u : Variable) : Prop :=
  ∃ v, r.scope[v]? = some u ∧ r.chosen.getD v false = false

theorem Undecided.mem (h : r.Undecided u) : u ∈ r.scope := by
  obtain ⟨v, hu, -⟩ := h
  exact List.mem_of_getElem? hu

/-- The literals of a variable are conditioned on while it has no value. -/
theorem Running.position_valueOf (h : r.Running first dim) (hu : r.Undecided u)
    (hl : ValueOf first dim u l) :
    ∃ v, r.scope[v]? = some u ∧ r.position? l = some v ∧ r.chosen.getD v false = false := by
  obtain ⟨v, hv, hfree⟩ := hu
  exact ⟨v, hv, h.consistent.table.position?_run h.full.nodup hv hl.le hl.lt, hfree⟩

/-- Two variables without a value are not decided. -/
theorem Running.decided_lt (h : r.Running first dim) (hρ : r.Open dim ρ) (hu : r.Undecided u)
    (hw : r.Undecided w) (hne : u ≠ w) : r.decided + 1 < r.scope.length := by
  have hagrees := ((h.exact.pending_iff ρ hρ.assigns).1 hρ.pending).1
  let shown := (r.heads.filter (!·.isNegative)).map Literal.index
  -- the literals that a pending row has of undecided variables are no heads
  have hnot : ∀ {z}, r.Undecided z → first z + ρ z ∉ shown := by
    rintro z ⟨v, hz, hfree⟩ hmem
    obtain ⟨m, hm, hindex⟩ := List.mem_map.1 hmem
    have hmarked := (h.exact.head m (List.mem_filter.1 hm).1).1
    rw [hindex, h.exact.unconstrained_of_pending h.full h.consistent hρ.assigns hρ.pending hz
      hfree] at hmarked
    cases hmarked
  have hrow : (r.scope.map fun z => first z + ρ z).length = r.scope.length := List.length_map _
  have hapart : first u + ρ u ≠ first w + ρ w := by
    intro he
    have hρu := hρ.assigns u hu.mem
    have hρw := hρ.assigns w hw.mem
    exact hne (h.consistent.table.eq_of_run hu.mem hw.mem (n := first u + ρ u) (by omega)
      (by omega) (by omega) (by omega))
  have hnodup : ((first u + ρ u) :: (first w + ρ w) :: shown).Nodup := by
    refine List.nodup_cons.2 ⟨?_, List.nodup_cons.2 ⟨hnot hw, ?_⟩⟩
    · rw [List.mem_cons, not_or]
      exact ⟨hapart, hnot hu⟩
    · exact h.consistent.nodup.sublist (List.filter_sublist.map _)
  have hsub : (first u + ρ u) :: (first w + ρ w) :: shown ⊆ r.scope.map fun z => first z + ρ z := by
    refine List.cons_subset.2 ⟨List.mem_map_of_mem hu.mem, List.cons_subset.2
      ⟨List.mem_map_of_mem hw.mem, fun n hn => ?_⟩⟩
    obtain ⟨m, hm, rfl⟩ := List.mem_map.1 hn
    obtain ⟨hm, hpos⟩ := List.mem_filter.1 hm
    obtain ⟨z, hz, hindex⟩ := (hagrees m hm).2 (by simpa using hpos)
    exact List.mem_map.2 ⟨z, hz, hindex.symm⟩
  have hle := (hnodup.subperm hsub).length_le
  rw [hrow, List.length_cons, List.length_cons, List.length_map, ← decided] at hle
  omega

/-! ## Paths -/

/-- An assignment with the values that a path gives to some variables. -/
def along (first : Variable → Nat) : List Variable → List Literal → (Variable → Nat) →
    Variable → Nat
  | u :: us, l :: p, ρ => along first us p (Function.update ρ u (l.index - first u))
  | _, _, ρ => ρ

/-- The rows that agree with an assignment about all variables but some, by their paths along
these. -/
def excerpt (r : Rows) (first dim : Variable → Nat) (us : List Variable) (ρ : Variable → Nat) :
    Excerpt :=
  fun p => some (r.weights.getD (r.rowOf dim (along first us p ρ)) 0)

theorem excerpt_after : (r.excerpt first dim (u :: us) ρ).after l =
    r.excerpt first dim us (Function.update ρ u (l.index - first u)) := rfl

theorem Step.excerpt_eq {ns : List Literal} (hs : r.Step first dim l v ns r') :
    r'.excerpt first dim us ρ = r.excerpt first dim us ρ := by
  obtain ⟨-, -, hscope, hweights, -⟩ := hs.same
  funext p
  rw [excerpt, excerpt, rowOf, rowOf, hscope, hweights]

/-- The value of the variable itself does not matter. -/
theorem chain_excerpt_update {determinism : Bool} {d : Nat} :
    (r.excerpt first dim (u :: us) (Function.update ρ u d)).chain determinism bs ls =
      (r.excerpt first dim (u :: us) ρ).chain determinism bs ls := by
  unfold Excerpt.chain
  simp only [excerpt_after, Function.update_idem]

theorem Run.nonempty_blocks (hbs : List.Forall₂ (Run first dim) us bs)
    (hdim : ∀ u ∈ us, 0 < dim u) : ∀ b ∈ bs, b ≠ [] := by
  induction hbs with
  | nil => exact fun b hb => absurd hb List.not_mem_nil
  | cons hb _ ih =>
      obtain ⟨hu, hus⟩ := List.forall_mem_cons.1 hdim
      exact List.forall_mem_cons.2 ⟨hb.ne_nil hu, ih hus⟩

theorem Run.exists_of_mem (hbs : List.Forall₂ (Run first dim) us bs) (hl : l ∈ bs.flatten) :
    ∃ u ∈ us, ValueOf first dim u l := by
  induction hbs with
  | nil => exact absurd hl List.not_mem_nil
  | cons hb _ ih =>
      rcases List.mem_append.1 hl with hl | hl
      · exact ⟨_, List.mem_cons_self .., hb.valueOf hl⟩
      · obtain ⟨u, hu, hvalue⟩ := ih hl
        exact ⟨u, List.mem_cons_of_mem _ hu, hvalue⟩

/-! ## Steps -/

/-- A variable without a value has a literal ahead. -/
theorem Solving.exists_ahead (h : r.Solving first dim ls) (hu : r.Undecided u) :
    ∃ l ∈ ls, first u ≤ l.index ∧ l.index < first u + dim u := by
  obtain ⟨ρ, hρ⟩ := h.running.pending_pos_iff.1 h.pending
  have hlt := hρ.assigns u hu.mem
  obtain ⟨v, hv, hfree⟩ := hu
  have hnew := h.running.exact.unconstrained_of_pending h.running.full h.running.consistent
    hρ.assigns hρ.pending hv hfree
  obtain ⟨l, hl, hindex⟩ := h.ahead.covers v u hv hfree (ρ u) (List.mem_filter.2
    ⟨List.mem_range.2 hlt, by rw [hnew]; rfl⟩)
  exact ⟨l, hl, by omega, by omega⟩

/-- While rows are pending, some variable has no value. -/
theorem Solving.exists_undecided (h : r.Solving first dim ls) : ∃ u, r.Undecided u := by
  obtain ⟨ρ, hρ⟩ := h.running.pending_pos_iff.1 h.pending
  obtain ⟨v, hv, hfree⟩ := h.running.exact.exists_undecided
    ((h.running.exact.pending_iff ρ hρ.assigns).1 hρ.pending).2
  exact ⟨_, v, List.getElem?_eq_getElem hv, hfree⟩

/-- The value of a literal ahead may be chosen. -/
theorem Solving.open_update (h : r.Solving first dim ls) (hu : r.Undecided u) (hl : l ∈ ls)
    (hvalue : ValueOf first dim u l) (hρ : r.Open dim ρ) :
    r.Open dim (Function.update ρ u (l.index - first u)) ∧
      Shows r.scope first (Function.update ρ u (l.index - first u)) l.index := by
  obtain ⟨v, hv, hposition, hfree⟩ := h.running.position_valueOf hu hvalue
  have hown : r.owns l = true := by rw [owns, hposition]; rfl
  have hle := hvalue.le
  have hlt := hvalue.lt
  have hnew : r.constrained.getD l.index false = false := by
    by_contra hne
    obtain ⟨m, hm, hindex⟩ := h.running.consistent.constrained l.index (by simpa using hne)
    exact h.ahead.fresh l hl hown m hm hindex
  have hindex : first u + (l.index - first u) = l.index := by omega
  have hopen := h.running.open_update hv hfree hρ (d := l.index - first u) (List.mem_filter.2
    ⟨List.mem_range.2 (by omega), by rw [hindex, hnew]; rfl⟩)
  refine ⟨hopen, ?_⟩
  rw [h.running.consistent.table.shows_iff hopen.assigns hu.mem hle hlt, Function.update_self]
  omega

/-- Literals of a variable that has a value are skipped. -/
theorem Solving.plan_skip (h : r.Solving first dim (ls ++ rest)) (hv : r.scope[v]? = some u)
    (hchosen : r.chosen.getD v false = true) (hls : ∀ l ∈ ls, ValueOf first dim u l) :
    r.Solving first dim rest ∧ outline.plan (ls ++ rest) r = outline.plan rest r := by
  induction ls with
  | nil => exact ⟨h, rfl⟩
  | cons l ls ih =>
      obtain ⟨hl, hls⟩ := List.forall_mem_cons.1 hls
      have hposition := h.running.consistent.table.position?_run h.running.full.nodup hv hl.le hl.lt
      obtain ⟨hrun, hrest⟩ := h.skip fun w hw => by
        rw [← Option.some.inj (hposition.symm.trans hw), hchosen]
      obtain ⟨hsolving, hplan⟩ := ih hrest hls
      refine ⟨hsolving, ?_⟩
      rw [List.cons_append, Outline.plan, outline_high hrun, if_pos rfl, hplan]

/-- A step decides its own variable only, and only if the literal is positive. -/
theorem Step.undecided_iff {ns : List Literal} (hs : r.Step first dim l v ns r')
    (h : r.Running first dim) (hv : r.scope[v]? = some u) :
    r'.Undecided w ↔ r.Undecided w ∧ (w = u → l.isNegative = true) := by
  obtain ⟨-, hchosen, -⟩ := hs.imposed_fields
  have hlt := position_lt hs.position
  unfold Undecided
  rw [hs.same.2.2.1, hchosen]
  constructor
  · rintro ⟨z, hz, hfree⟩
    rw [chosen_imposed (h.consistent.chosen_size ▸ hlt)] at hfree
    split at hfree
    · cases hfree
    · rename_i hnot
      refine ⟨⟨z, hz, hfree⟩, fun he => ?_⟩
      subst he
      by_contra hpos
      obtain ⟨hzlt, hget⟩ := List.getElem?_eq_some_iff.1 hz
      obtain ⟨hvlt, hget'⟩ := List.getElem?_eq_some_iff.1 hv
      exact hnot ⟨h.full.nodup.getElem_inj_iff.1 (hget.trans hget'.symm), by simpa using hpos⟩
  · rintro ⟨⟨z, hz, hfree⟩, hsame⟩
    refine ⟨z, hz, ?_⟩
    rw [chosen_imposed (h.consistent.chosen_size ▸ hlt), if_neg, hfree]
    rintro ⟨rfl, hpos⟩
    rw [hsame (Option.some.inj (hz.symm.trans hv))] at hpos
    cases hpos

/-! ## The planned tree -/

/-- What a completed row leaves is told by its value. -/
theorem entry_of_value {determinism : Bool} {w : Weight} {found : Cofactor} {ws : Weights}
    (hfound : found = .satisfiable ∨ found = .unsatisfiable)
    (h : ∀ (x : Literal → Bool) bs, collect (nodeWeights found ws)
      (Diagram.value x bs (.leaf (found == .satisfiable))) = entryValue determinism w) :
    entry determinism w = (nodeWeights found ws, .leaf (found == .satisfiable)) := by
  have hvalue := h (fun _ => true) []
  unfold entryValue at hvalue
  unfold entry
  rcases hfound with rfl | rfl
  · have hws : collect ws (some 0) = some (ws : Multiset Weight) := by simp [collect]
    rw [show Diagram.value (fun _ => true) [] (.leaf (Cofactor.satisfiable == .satisfiable)) =
      some 0 from rfl, show nodeWeights .satisfiable ws = ws from rfl, hws] at hvalue
    split
    · rename_i hzero
      rw [if_pos hzero] at hvalue
      cases hvalue
    · rename_i hzero
      rw [if_neg hzero] at hvalue
      split
      · rename_i hone
        rw [if_pos hone] at hvalue
        have hnil : ws = [] := by simpa using hvalue
        rw [hnil]
        rfl
      · rename_i hone
        rw [if_neg hone] at hvalue
        have hsingle : ws = [w] := by simpa using hvalue
        rw [hsingle]
        rfl
  · have hnone : entryValue determinism w = none := hvalue.symm
    unfold entryValue at hnone
    split at hnone
    · rename_i hzero
      rw [if_pos hzero]
      rfl
    · split at hnone <;> cases hnone

/-- For the blocks of some variables, the tree of the pending rows is planned. -/
def PlansLater (first dim : Variable → Nat) (us : List Variable) (bs : List (List Literal)) :
    Prop :=
  ∀ {r : Rows} {ρ : Variable → Nat}, us ≠ [] → r.Solving first dim bs.flatten →
    (∀ w ∈ us, r.Undecided w) → r.Open dim ρ →
    outline.plan bs.flatten r = some ((r.excerpt first dim us ρ).tree r.determinism bs).2

/-- In front of the rest of the block of a variable, which has no value, and of later blocks. -/
structure Facing (r : Rows) (first dim : Variable → Nat) (u : Variable) (us : List Variable)
    (ls : List Literal) (bs : List (List Literal)) : Prop where
  block : ∀ l ∈ ls, ValueOf first dim u l
  later : List.Forall₂ (Run first dim) us bs
  fresh : u ∉ us
  solving : r.Solving first dim (ls ++ bs.flatten)
  undecided : r.Undecided u
  undecided_later : ∀ w ∈ us, r.Undecided w

section

variable {found₁ found₂ : Cofactor} {ws : Weights} {r₁ r₂ : Rows}

/-- The high child: the tree of the rows with the literal. -/
theorem Facing.plan_high (F : r.Facing first dim u us (l :: ls) bs)
    (hblocks : PlansLater first dim us bs)
    (B : r.Branching first dim l (ls ++ bs.flatten) found₁ ws r₁ found₂ r₂) (hρ : r.Open dim ρ) :
    outline.child found₁ (outline.plan (ls ++ bs.flatten) r₁) r₁ =
        some (((r.excerpt first dim (u :: us) ρ).after l).tree r.determinism bs).2 ∧
      nodeWeights found₁ ws =
        (((r.excerpt first dim (u :: us) ρ).after l).tree r.determinism bs).1 := by
  obtain ⟨hl, hls⟩ := List.forall_mem_cons.1 F.block
  obtain ⟨v, hv, hposition, hfree⟩ := F.solving.running.position_valueOf F.undecided hl
  obtain ⟨v₁, ns₁, hs₁⟩ := B.high_step
  obtain rfl := Option.some.inj (hposition.symm.trans hs₁.position)
  obtain ⟨hopen, hshows⟩ := F.solving.open_update F.undecided (List.mem_cons_self ..) hl hρ
  rcases B.shown _ hopen hshows with ⟨hlt, hopen₁, hfound, rfl⟩ | ⟨hlast, hfound, hvalue⟩
  · -- another variable is undecided, and the rest of this block is skipped
    have hsolving := B.solving_high hfound
    have hchosen : r₁.chosen.getD v false = true := by
      by_contra hnot
      have : r₁.Undecided u := ⟨v, hs₁.same.2.2.1 ▸ hv, by simpa using hnot⟩
      rw [hs₁.undecided_iff F.solving.running hv, hl.positive] at this
      cases this.2 rfl
    obtain ⟨hsolving', hplan⟩ := hsolving.plan_skip (hs₁.same.2.2.1 ▸ hv) hchosen hls
    have hus : us ≠ [] := by
      rintro rfl
      cases F.later
      obtain ⟨w, hw⟩ := hsolving'.exists_undecided
      obtain ⟨m, hm, -⟩ := hsolving'.exists_ahead hw
      cases hm
    have hplan' := hblocks hus hsolving' (fun w hw =>
      (hs₁.undecided_iff F.solving.running hv).2
        ⟨F.undecided_later w hw, fun he => absurd (he ▸ hw) F.fresh⟩) hopen₁
    refine ⟨?_, ?_⟩
    · rw [hfound, hplan, hplan', hs₁.excerpt_eq, hs₁.same.1]
      rfl
    · cases F.later with
      | nil => exact absurd rfl hus
      | cons => simp [Excerpt.tree_cons, nodeWeights]
  · -- the literal completes the row
    have hus : us = [] := by
      by_contra hne
      obtain ⟨w, hw⟩ := List.exists_mem_of_ne_nil us hne
      have := F.solving.running.decided_lt hρ F.undecided (F.undecided_later w hw) fun he =>
        F.fresh (he ▸ hw)
      omega
    subst hus
    cases F.later
    have hentry : ((r.excerpt first dim [u] ρ).after l).tree r.determinism [] =
        (nodeWeights found₁ ws, .leaf (found₁ == .satisfiable)) := entry_of_value hfound hvalue
    rw [hentry]
    rcases hfound with rfl | rfl
    · exact ⟨rfl, rfl⟩
    · exact ⟨rfl, rfl⟩

/-- The low child: the chain of the literals that are left. -/
theorem Facing.plan_low (F : r.Facing first dim u us (l :: ls) bs)
    (hls : ∀ {r' : Rows} {ρ' : Variable → Nat}, ls ≠ [] → r'.Facing first dim u us ls bs →
      r'.Open dim ρ' → outline.plan (ls ++ bs.flatten) r' =
        some ((r'.excerpt first dim (u :: us) ρ').chain r'.determinism bs ls))
    (B : r.Branching first dim l (ls ++ bs.flatten) found₁ ws r₁ found₂ r₂) (hρ : r.Open dim ρ) :
    outline.child found₂ (outline.plan (ls ++ bs.flatten) r₂) r₂ =
      some ((r.excerpt first dim (u :: us) ρ).chain r.determinism bs ls) := by
  obtain ⟨hl, hrest⟩ := List.forall_mem_cons.1 F.block
  obtain ⟨v, hv, hposition, hfree⟩ := F.solving.running.position_valueOf F.undecided hl
  obtain ⟨v₂, ns₂, hs₂⟩ := B.low_step
  obtain rfl := Option.some.inj (hposition.symm.trans (position?_neg.symm.trans hs₂.position))
  have hund : ∀ w, r.Undecided w → r₂.Undecided w := fun w hw =>
    (hs₂.undecided_iff F.solving.running hv).2 ⟨hw, fun _ => isNegative_neg hl.positive⟩
  have htable := F.solving.running.consistent.table
  cases ls with
  | nil =>
      -- no value is left
      rcases B.low_found with hfound | ⟨-, hsolving⟩
      · rw [hfound]
        rfl
      · obtain ⟨m, hm, hle, hlt⟩ := hsolving.exists_ahead (hund u F.undecided)
        obtain ⟨w, hw, hvalue⟩ := Run.exists_of_mem F.later hm
        have := htable.eq_of_run F.undecided.mem (F.undecided_later w hw).mem hle hlt hvalue.le
          hvalue.lt
        exact absurd (this ▸ hw) F.fresh
  | cons l' ls =>
      obtain ⟨hl', -⟩ := List.forall_mem_cons.1 hrest
      obtain ⟨hopen, hshows⟩ := F.solving.open_update F.undecided
        (List.mem_cons_of_mem _ (List.mem_cons_self ..)) hl' hρ
      have hindex : l.index ≠ l'.index :=
        (List.pairwise_cons.1 F.solving.ahead.distinct).1 l' (List.mem_cons_self ..) B.owns
      have hnot : ¬ Shows r.scope first (Function.update ρ u (l'.index - first u)) l.index := by
        intro hshown
        rw [htable.shows_iff hopen.assigns F.undecided.mem hl.le hl.lt] at hshown
        rw [htable.shows_iff hopen.assigns F.undecided.mem hl'.le hl'.lt] at hshows
        exact hindex (hshown.trans hshows.symm)
      obtain ⟨hopen₂, hfound⟩ := B.other _ hopen hnot
      have hplan := hls (by simp) ⟨hrest, F.later, F.fresh, B.solving_low hfound,
        hund u F.undecided, fun w hw => hund w (F.undecided_later w hw)⟩ hopen₂
      rw [hfound, hplan, hs₂.excerpt_eq, hs₂.same.1, chain_excerpt_update]
      rfl

end

/-- The chain of a variable without a value, from one of its literals on. -/
theorem Facing.plan (hblocks : PlansLater first dim us bs) (hne : ls ≠ [])
    (F : r.Facing first dim u us ls bs) (hρ : r.Open dim ρ) :
    outline.plan (ls ++ bs.flatten) r =
      some ((r.excerpt first dim (u :: us) ρ).chain r.determinism bs ls) := by
  induction ls generalizing r ρ with
  | nil => exact absurd rfl hne
  | cons l ls ih =>
      obtain ⟨v, -, hposition, hfree⟩ := F.solving.running.position_valueOf F.undecided
        (F.block l (List.mem_cons_self ..))
      obtain ⟨found₁, ws, r₁, found₂, r₂, B⟩ := F.solving.branching hposition hfree
      obtain ⟨ws₂, hlow⟩ := B.low
      obtain ⟨hhigh, hweights⟩ := F.plan_high hblocks B hρ
      have hblocks' : ∀ b ∈ bs, b ≠ [] := Run.nonempty_blocks F.later fun w hw =>
        Nat.lt_of_le_of_lt (Nat.zero_le _) (hρ.assigns w (F.undecided_later w hw).mem)
      have hoccupied : ((l :: ls).any fun l =>
          Excerpt.occupied bs ((r.excerpt first dim (u :: us) ρ).after l)) = true := by
        rw [List.any_cons, Excerpt.occupied_of_total hblocks' fun p => rfl, Bool.true_or]
      rw [List.cons_append, Outline.plan, outline_high B.high, outline_low hlow,
        if_neg B.high_ne.1, Excerpt.chain, chainOf_of_any hoccupied, ← hweights]
      simp only [hhigh, F.plan_low ih B hρ]
      rfl

/-- The tree of the pending rows is planned. -/
theorem plan_tree (hbs : List.Forall₂ (Run first dim) us bs) (hnodup : us.Nodup) :
    PlansLater first dim us bs := by
  induction hbs with
  | nil => exact fun hne => absurd rfl hne
  | cons hb hbs ih =>
      intro r ρ _ h hus hρ
      obtain ⟨hu, hnodup⟩ := List.nodup_cons.1 hnodup
      obtain ⟨hund, hus⟩ := List.forall_mem_cons.1 hus
      have F : r.Facing first dim _ _ _ _ := ⟨fun l hl => hb.valueOf hl, hbs, hu, h, hund, hus⟩
      refine F.plan (ih hnodup) ?_ hρ
      exact hb.ne_nil (Nat.lt_of_le_of_lt (Nat.zero_le _) (hρ.assigns _ hund.mem))

/-! ## Solving -/

variable {f : Factor} {literalVariables : Array Variable} {determinism : Bool} {m : Manager}

theorem Run.map_flatten (hbs : List.Forall₂ (Run first dim) us bs) :
    (bs.flatten.map Literal.value).Perm
      (us.flatMap fun u => (List.range (dim u)).map fun d => ((first u + d : Nat) : Int)) := by
  induction hbs with
  | nil => exact .nil
  | cons hb _ ih =>
      rw [List.flatten_cons, List.map_append, List.flatMap_cons]
      exact hb.append ih

theorem filter_blocks (hlaid : f.Laid literalVariables first dim) (hus : us.Perm f.scope)
    (hbs : List.Forall₂ (Run first dim) us bs) :
    bs.flatten.filter (fun l => f.literals.contains l.index) = bs.flatten := by
  rw [List.filter_eq_self]
  intro l hl
  obtain ⟨u, hu, hvalue⟩ := Run.exists_of_mem hbs hl
  exact List.contains_iff_mem.2
    ((mem_literals hlaid).2 ⟨u, hus.mem_iff.1 hu, hvalue.le, hvalue.lt⟩)

/-- Blocks for the variables of a table list its literals. -/
theorem listsOnce_blocks (hlaid : f.Laid literalVariables first dim) (hus : us.Perm f.scope)
    (hbs : List.Forall₂ (Run first dim) us bs) : ListsOnce f bs.flatten := by
  rw [ListsOnce, filter_blocks hlaid hus hbs, Factor.literals, hlaid.firsts, hlaid.dims,
    List.zip_map', List.flatMap_map, List.map_flatMap]
  refine ((Run.map_flatten hbs).trans (hus.flatMap_right _)).trans (.of_eq ?_)
  simp only [List.map_map]
  rfl

/-- Solving a table makes the tree of all its rows. -/
theorem solve_tree (hlaid : f.Laid literalVariables first dim) (hnodup : f.scope.Nodup)
    (hpos : ∀ u ∈ f.scope, 0 < dim u) (hscope : f.scope ≠ [])
    (hr : start f literalVariables determinism = .ok r) (hus : us.Perm f.scope)
    (hbs : List.Forall₂ (Run first dim) us bs) (collapse : Bool) (V : m.Valid) :
    Ends (solve r bs.flatten collapse false) m fun c m' =>
      Rooted m (((r.excerpt first dim us fun _ => 0).tree determinism bs).2.collapse
        (sameIf collapse m.sameVariable)) c m' := by
  have hsolving := solving_start hlaid hnodup hpos hscope hr (listsOnce_blocks hlaid hus hbs)
  have hopen := open_start hlaid hnodup hpos hr (ρ := fun _ => 0) hpos
  obtain ⟨hfresh, -, hdeterminism, -, hscope', -, -, -⟩ := start_ok hr
  have hundecided : ∀ w ∈ us, r.Undecided w := by
    intro w hw
    rw [hus.mem_iff, ← hscope'] at hw
    obtain ⟨v, hv⟩ := List.mem_iff_getElem?.1 hw
    refine ⟨v, hv, ?_⟩
    simp only [hfresh.chosen, Array.getD_eq_getD_getElem?, Array.getElem?_replicate]
    split <;> rfl
  have hplan := plan_tree hbs (hus.nodup_iff.2 hnodup) (fun he => hscope (he ▸ hus).symm.eq_nil)
    hsolving hundecided hopen
  have hsame : ∀ {m' : Manager}, m'.literalVariables = m.literalVariables →
      sameIf collapse m'.sameVariable = sameIf collapse m.sameVariable := by
    intro m' hv
    rw [sameVariable_congr hv]
  refine Ends.mono (build_rooted V (follows m.arena.get? m.literalVariables
    (sameIf collapse m.sameVariable) first dim) hsame ⟨rfl, hsolving⟩ hplan trivial) ?_
  rintro c m' ⟨D, hshrinks, hR⟩
  rw [hdeterminism] at hshrinks
  rwa [hshrinks.exact trivial] at hR

end BayesCircuit.Decision.Rows
