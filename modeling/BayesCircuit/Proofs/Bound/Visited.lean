import BayesCircuit.Proofs.Bound.Saturation

/-!
# The state of a walk after some variables

What is left to count after some variables have been visited does not depend on the order in which
they came (`Standing`): of each constraint the variables that have not been visited, of each variable
the constraints that are still open, and the visited variables of open constraints. So the walks along
two orders of the same variables end in one state, and a search may close a set of variables when it
has reached it once.
-/

namespace BayesCircuit.Bound

open Collection Collection.Ascending

variable {b : Bound} {e e' : Elimination} {c n : Nat} {u v : Variable}
variable {visited us vs xs : List Variable}

/-- Whether a constraint mentions a variable that has not been visited. -/
def isOpen (b : Bound) (visited : List Variable) (c : Nat) : Bool :=
  (b.scope c).any (!visited.contains ·)

/-- The number of constraints that visiting a variable after some others completes. -/
def completed (b : Bound) (visited : List Variable) (v : Variable) : Nat :=
  ((List.range b.scopes.size).filter fun c =>
    b.isOpen visited c && !b.isOpen (v :: visited) c).length

/-- The numbers of constraints that variables complete one after another, after some others. -/
def completions (b : Bound) : List Variable → List Variable → List Nat
  | _, [] => []
  | visited, v :: vs => b.completed visited v :: completions b (v :: visited) vs

/-- Where a walk stands when some variables have been visited, in whatever order. -/
structure Standing (b : Bound) (visited : List Variable) (e : Elimination) : Prop where
  size_unvisited : e.unvisited.size = b.scopes.size
  size_incomplete : e.incomplete.size = b.constraintsOf.size
  unvisited : ∀ c, e.unvisited.getD c 0 = ((b.scope c).filter (!visited.contains ·)).length
  incomplete : ∀ v, e.incomplete.getD v 0 = ((b.mentioning v).filter (b.isOpen visited)).length
  strict : Strict e.spanning
  mem_spanning : ∀ u, u ∈ e.spanning ↔ u ∈ visited ∧ ∃ c, u ∈ b.scope c ∧ b.isOpen visited c = true

/-- Visit variables one after another: the numbers of constraints that they complete, and the
state at the end. -/
def visitAll? (b : Bound) (e : Elimination) : List Variable → Outcome (List Nat × Elimination)
  | [] => .ok ([], e)
  | v :: vs => do
      let (completed, e) ← e.visit? b v
      let (rest, e) ← visitAll? b e vs
      return (completed :: rest, e)

@[simp]
theorem isOpen_iff : b.isOpen visited c = true ↔ ∃ u ∈ b.scope c, u ∉ visited := by
  simp [isOpen]

theorem isOpen_congr (h : ∀ u, u ∈ us ↔ u ∈ vs) : b.isOpen us = b.isOpen vs := by
  funext c
  rw [Bool.eq_iff_iff]
  simp only [isOpen_iff, h]

/-- Only which variables have been visited matters. -/
theorem Standing.congr (h : ∀ u, u ∈ us ↔ u ∈ vs) (S : Standing b us e) : Standing b vs e where
  size_unvisited := S.size_unvisited
  size_incomplete := S.size_incomplete
  unvisited c := by
    have hcontains : ∀ u, us.contains u = vs.contains u := fun u => by
      rw [Bool.eq_iff_iff, List.contains_iff_mem, List.contains_iff_mem, h]
    simpa only [hcontains] using S.unvisited c
  incomplete v := isOpen_congr (b := b) h ▸ S.incomplete v
  strict := S.strict
  mem_spanning u := by rw [S.mem_spanning, h, isOpen_congr h]

theorem eq_of_getD {ms ns : Array Nat} (hsize : ms.size = ns.size)
    (h : ∀ i, ms.getD i 0 = ns.getD i 0) : ms = ns := by
  refine Array.ext hsize fun i hi hi' => ?_
  have hi'' := h i
  simpa [Array.getD_eq_getD_getElem?, hi, hi'] using hi''

/-- The visited variables determine the state. -/
theorem Standing.unique (S : Standing b visited e) (S' : Standing b visited e') : e = e' := by
  have hunvisited : e.unvisited = e'.unvisited :=
    eq_of_getD (S.size_unvisited.trans S'.size_unvisited.symm) fun c => by
      rw [S.unvisited, S'.unvisited]
  have hincomplete : e.incomplete = e'.incomplete :=
    eq_of_getD (S.size_incomplete.trans S'.size_incomplete.symm) fun v => by
      rw [S.incomplete, S'.incomplete]
  have hspanning : e.spanning = e'.spanning :=
    S.strict.eq_of_mem S'.strict fun u => by rw [S.mem_spanning, S'.mem_spanning]
  cases e
  cases e'
  congr

/-! ## The counts keep their places -/

theorem size_complete : ∀ {xs : List Variable} {e : Elimination},
    (e.complete xs).incomplete.size = e.incomplete.size
  | [], _ => rfl
  | _ :: _, _ => by
      rw [Elimination.complete, size_complete]
      exact Array.size_setIfInBounds

theorem unvisited_complete : ∀ {xs : List Variable} {e : Elimination},
    (e.complete xs).unvisited = e.unvisited
  | [], _ => rfl
  | _ :: _, _ => by rw [Elimination.complete, unvisited_complete]

theorem size_visitConstraints : ∀ (cs : List Nat) (e : Elimination) (open? : Bool) (done : Nat),
    (Elimination.visitConstraints b cs e open? done).1.unvisited.size = e.unvisited.size ∧
    (Elimination.visitConstraints b cs e open? done).1.incomplete.size = e.incomplete.size
  | [], _, _, _ => ⟨rfl, rfl⟩
  | c :: cs, e, open?, done => by
      rw [Elimination.visitConstraints]
      split
      · obtain ⟨hunvisited, hincomplete⟩ := size_visitConstraints cs
          (Elimination.complete
            { e with unvisited := e.unvisited.setIfInBounds c (e.unvisited.getD c 0 - 1) }
            (b.scopes.getD c []))
          open? (done + 1)
        refine ⟨hunvisited.trans ?_, hincomplete.trans size_complete⟩
        rw [unvisited_complete]
        exact Array.size_setIfInBounds
      · obtain ⟨hunvisited, hincomplete⟩ := size_visitConstraints cs
          ({ e with unvisited := e.unvisited.setIfInBounds c (e.unvisited.getD c 0 - 1) })
          true done
        exact ⟨hunvisited.trans Array.size_setIfInBounds, hincomplete⟩

theorem size_visit : (e.visit b v).2.unvisited.size = e.unvisited.size ∧
    (e.visit b v).2.incomplete.size = e.incomplete.size := by
  have hsizes := size_visitConstraints (b := b) (b.constraintsOf.getD v []) e false 0
  rcases h : Elimination.visitConstraints b (b.constraintsOf.getD v []) e false 0 with
    ⟨e', open?, done⟩
  rw [h] at hsizes
  simp only [Elimination.visit, h]
  cases open? <;> exact hsizes

/-! ## What is still to come -/

/-- The variables that have not been visited. -/
def rest (n : Nat) (visited : List Variable) : List Variable :=
  (List.range n).filter (!visited.contains ·)

@[simp]
theorem mem_rest : u ∈ rest n visited ↔ u < n ∧ u ∉ visited := by
  simp [rest]

theorem nodup_rest : (rest n visited).Nodup := List.nodup_range.filter _

/-- The next variable leaves those that are still to come. -/
theorem rest_perm (hlt : v < n) (hv : v ∉ visited) :
    (rest n visited).Perm (v :: rest n (v :: visited)) := by
  have hnodup : (v :: rest n (v :: visited)).Nodup := List.nodup_cons.2 ⟨by simp, nodup_rest⟩
  refine (List.perm_ext_iff_of_nodup nodup_rest hnodup).2 fun u => ?_
  by_cases huv : u = v
  · subst huv
    simp [hlt, hv]
  · simp [huv]

variable (hlt : ∀ c, ∀ u ∈ b.scope c, u < n)

include hlt

theorem contains_rest (hu : u ∈ b.scope c) : (rest n visited).contains u = !visited.contains u := by
  have hun := hlt c u hu
  by_cases hvisited : u ∈ visited <;> simp [hun, hvisited]

/-- A constraint is open if it mentions a variable that is still to come. -/
theorem meets_rest : b.meets (rest n visited) = b.isOpen visited := by
  funext c
  rw [Bool.eq_iff_iff, meets_iff, isOpen_iff]
  constructor
  · rintro ⟨u, hu, hc⟩
    exact ⟨u, hc, (mem_rest.1 hu).2⟩
  · rintro ⟨u, hc, hu⟩
    exact ⟨u, mem_rest.2 ⟨hlt c u hc, hu⟩, hc⟩

/-- The constraints that end with a variable are those that it completes. -/
theorem length_ending (B : b.Indexed) (hvisited : v ∉ visited) :
    (b.ending v (rest n (v :: visited))).length = b.completed visited v := by
  have hnodup : ((List.range b.scopes.size).filter fun c =>
      b.isOpen visited c && !b.isOpen (v :: visited) c).Nodup := List.nodup_range.filter _
  refine ((List.perm_ext_iff_of_nodup (nodup_ending B) hnodup).2 fun c => ?_).length_eq
  have hopen : b.isOpen visited c = true ↔ v ∈ b.scope c ∨ b.isOpen (v :: visited) c = true := by
    simp only [isOpen_iff, List.mem_cons, not_or]
    constructor
    · rintro ⟨u, hu, hnot⟩
      by_cases huv : u = v
      · exact Or.inl (huv ▸ hu)
      · exact Or.inr ⟨u, hu, huv, hnot⟩
    · rintro (hmem | ⟨u, hu, -, hnot⟩)
      · exact ⟨v, hmem, hvisited⟩
      · exact ⟨u, hu, hnot⟩
  have hrange : v ∈ b.scope c → c < b.scopes.size := by
    intro hmem
    by_contra hge
    rw [scope, Array.getD_eq_getD_getElem?, Array.getElem?_eq_none (Nat.not_lt.1 hge)] at hmem
    exact absurd hmem List.not_mem_nil
  rw [mem_ending B, meets_rest hlt, List.mem_filter, List.mem_range, Bool.and_eq_true,
    Bool.not_eq_true', hopen]
  constructor
  · exact fun ⟨hmem, hclosed⟩ => ⟨hrange hmem, Or.inl hmem, hclosed⟩
  · rintro ⟨-, hmem | hopen, hclosed⟩
    · exact ⟨hmem, hclosed⟩
    · exact absurd (hopen.symm.trans hclosed) (by decide)

/-- What a walk knows about the variables to come, said of those that have been visited. -/
theorem Walked.standing (B : b.Indexed) (hu : e.unvisited.size = b.scopes.size)
    (hi : e.incomplete.size = b.constraintsOf.size) (W : Walked b (rest n visited) e) :
    Standing b visited e where
  size_unvisited := hu
  size_incomplete := hi
  unvisited c := by
    rw [W.unvisited, countIn]
    exact congrArg List.length (List.filter_congr fun u hu => contains_rest hlt hu)
  incomplete v := by rw [W.incomplete, countLive, meets_rest hlt]
  strict := W.spanning ▸ strict_frontier
  mem_spanning u := by
    rw [W.spanning, mem_frontier B, mem_rest, meets_rest hlt]
    constructor
    · rintro ⟨hnot, c, hopen, huc⟩
      exact ⟨by simpa [hlt c u huc] using hnot, c, huc, hopen⟩
    · rintro ⟨hmem, c, huc, hopen⟩
      exact ⟨fun h => h.2 hmem, c, hopen, huc⟩

/-- One more variable is visited. -/
theorem Walked.visit? (B : b.Indexed) (hdims : b.dims.size = n) (hv : v < n)
    (hvisited : v ∉ visited) (W : Walked b (rest n visited) e) :
    e.visit? b v = .ok (b.completed visited v, (e.visit b v).2) ∧
      Walked b (rest n (v :: visited)) (e.visit b v).2 := by
  have W' := W.perm B (rest_perm hv hvisited)
  have hnot : v ∉ rest n (v :: visited) := by simp
  obtain ⟨e', hvisit, hwalked⟩ := W'.visit B hnot
  have hadmits := W'.admits B hnot (hdims ▸ hv)
  refine ⟨?_, by rwa [hvisit]⟩
  rw [Elimination.visit?, hadmits, hdims, decide_eq_true hv, hvisit, length_ending hlt B hvisited]
  rfl

/-- A whole walk: each variable completes the constraints that it closes, and the state at the end
is that of the variables visited. -/
theorem visitAll?_walked (B : b.Indexed) (hdims : b.dims.size = n) :
    ∀ {vs visited : List Variable} {e : Elimination}, (∀ v ∈ vs, v < n) → vs.Nodup →
      (∀ v ∈ vs, v ∉ visited) → e.unvisited.size = b.scopes.size →
      e.incomplete.size = b.constraintsOf.size → Walked b (rest n visited) e →
      ∃ e', b.visitAll? e vs = .ok (b.completions visited vs, e') ∧
        Standing b (vs.reverse ++ visited) e'
  | [], visited, e, _, _, _, hu, hi, W => ⟨e, rfl, W.standing hlt B hu hi⟩
  | v :: vs, visited, e, hvs, hnodup, hfresh, hu, hi, W => by
      obtain ⟨hv, hvs⟩ := List.forall_mem_cons.1 hvs
      obtain ⟨hnot, hnodup⟩ := List.nodup_cons.1 hnodup
      obtain ⟨hvisited, hfresh⟩ := List.forall_mem_cons.1 hfresh
      obtain ⟨hvisit, W'⟩ := W.visit? hlt B hdims hv hvisited
      have hfresh' : ∀ w ∈ vs, w ∉ v :: visited := fun w hw hmem => by
        rcases List.mem_cons.1 hmem with rfl | hmem
        · exact hnot hw
        · exact hfresh w hw hmem
      obtain ⟨e', hrun, hstanding⟩ := visitAll?_walked B hdims hvs hnodup hfresh'
        (size_visit.1.trans hu) (size_visit.2.trans hi) W'
      refine ⟨e', ?_, by simpa using hstanding⟩
      rw [visitAll?, hvisit]
      simp only [bind, Except.bind, hrun]
      rfl

omit hlt

/-! ## The bounds of a network -/

/-- The bounds over a network: that of all tables, and those of the tables that partitions own. -/
inductive Over (net : Network) : Bound → Prop where
  | network : Over net (ofNetwork net)
  | partition (p : Partition) : Over net (ofPartition net p)

variable {net : Network}

/-- Each of these bounds enables some of the constraints. -/
theorem Over.eq_ofEnabled (hb : Over net b) : ∃ enabled size, b = ofEnabled net enabled size := by
  cases hb with
  | network => exact ⟨_, _, rfl⟩
  | partition p => exact ⟨_, _, rfl⟩

theorem Over.visitAll?_standing (hnet : net.Linked) (hb : Over net b)
    (hvs : ∀ v ∈ vs, v < net.size) (hnodup : vs.Nodup) :
    ∃ e, b.visitAll? (.start b) vs = .ok (b.completions [] vs, e) ∧ b.Standing vs e := by
  obtain ⟨enabled, size, rfl⟩ := hb.eq_ofEnabled
  have B := indexed_ofEnabled hnet enabled size
  have hlt : ∀ c, ∀ u ∈ (ofEnabled net enabled size).scope c, u < net.size :=
    fun c u hu => (lt_of_mem_scope hnet hu).2
  have hdims : (ofEnabled net enabled size).dims.size = net.size := Array.size_map
  have hstart : Walked (ofEnabled net enabled size) (rest net.size [])
      (.start (ofEnabled net enabled size)) :=
    walked_start B fun c u hu => mem_rest.2 ⟨hlt c u hu, List.not_mem_nil⟩
  obtain ⟨e, hrun, S⟩ := visitAll?_walked hlt B hdims hvs hnodup (fun _ _ => List.not_mem_nil)
    Array.size_map Array.size_map hstart
  exact ⟨e, hrun, S.congr fun u => by simp⟩

/-- Different variables of a network can be visited in any order. Each of them completes the
constraints that it closes, and the state at the end depends only on which variables they are. -/
theorem visitAll?_perm (hnet : net.Linked) (hb : Over net b) (hvs : ∀ v ∈ vs, v < net.size)
    (hnodup : vs.Nodup) :
    ∃ e, b.visitAll? (.start b) vs = .ok (b.completions [] vs, e) ∧ b.Standing vs e ∧
      ∀ us, us.Perm vs → b.visitAll? (.start b) us = .ok (b.completions [] us, e) := by
  obtain ⟨e, hrun, S⟩ := hb.visitAll?_standing hnet hvs hnodup
  refine ⟨e, hrun, S, fun us h => ?_⟩
  obtain ⟨e', hrun', S'⟩ := hb.visitAll?_standing hnet (fun v hv => hvs v (h.mem_iff.1 hv))
    (h.nodup_iff.2 hnodup)
  rw [hrun', (S'.congr fun _ => h.mem_iff).unique S]

/-- A variable with two children, which have a child of their own. -/
def diamond : Network where
  nodes := #[⟨"A", #["0", "1"], [], Array.replicate 2 .zero⟩,
    ⟨"B", #["0", "1"], [0], Array.replicate 4 .zero⟩,
    ⟨"C", #["0", "1"], [0], Array.replicate 4 .zero⟩,
    ⟨"D", #["0", "1", "2"], [1, 2], Array.replicate 12 .zero⟩]

theorem linked_diamond : diamond.Linked := by
  have hall : ∀ v, (hv : v < diamond.size) → (∀ p ∈ diamond.nodes[v].parents, p < diamond.size) ∧
      diamond.nodes[v].parents.Nodup ∧ v ∉ diamond.nodes[v].parents := by
    decide
  refine ⟨fun {v n} hn => ?_, fun {v n} hn => ?_, fun {v n} hn => ?_⟩
  all_goals obtain ⟨hv, rfl⟩ := Array.getElem?_eq_some_iff.1 hn
  · exact (hall v hv).1
  · exact (hall v hv).2.1
  · exact (hall v hv).2.2

/-- Without the table of the first variable, the walks over `D`, `A`, `B` and over `B`, `A`, `D`
leave the table of `C` open, and that of `D`, which needs `C`. -/
theorem visitAll?_diamond : ∃ e,
    (ofPartition diamond ⟨[1, 2, 3], [0]⟩).visitAll? (.start (ofPartition diamond ⟨[1, 2, 3], [0]⟩))
      [3, 0, 1] = .ok ([0, 0, 1], e) ∧
    (ofPartition diamond ⟨[1, 2, 3], [0]⟩).visitAll? (.start (ofPartition diamond ⟨[1, 2, 3], [0]⟩))
      [1, 0, 3] = .ok ([0, 1, 0], e) ∧
    e.unvisited.getD 2 0 = 1 ∧ e.incomplete.getD 2 0 = 2 ∧ 0 ∈ e.spanning ∧ 2 ∉ e.spanning := by
  have hnodup : [3, 0, 1].Nodup := by decide
  obtain ⟨e, hrun, S, hperm⟩ := visitAll?_perm linked_diamond (.partition ⟨[1, 2, 3], [0]⟩)
    (by decide) hnodup
  have hrun' := hperm [1, 0, 3] (by decide)
  have hcounts : (ofPartition diamond ⟨[1, 2, 3], [0]⟩).completions [] [3, 0, 1] = [0, 0, 1] := by
    decide +kernel
  have hcounts' : (ofPartition diamond ⟨[1, 2, 3], [0]⟩).completions [] [1, 0, 3] = [0, 1, 0] := by
    decide +kernel
  refine ⟨e, hcounts ▸ hrun, hcounts' ▸ hrun', ?_, ?_, ?_, ?_⟩
  · rw [S.unvisited]
    decide +kernel
  · rw [S.incomplete]
    decide +kernel
  · exact (S.mem_spanning 0).2 ⟨by decide, 2, by decide +kernel, by decide +kernel⟩
  · exact fun h => absurd ((S.mem_spanning 2).1 h).1 (by decide)

end BayesCircuit.Bound
