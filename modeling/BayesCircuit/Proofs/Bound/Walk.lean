import BayesCircuit.Proofs.Bound.Frontier
import BayesCircuit.Proofs.Bound.Tally

/-!
# Walking along an ordering

When some variables of an ordering are still to come, the spanning variables of the walk are their
frontier: a variable is kept as long as one of its constraints has a variable to come, which is what
the numbers of incomplete constraints tell (`Walked`). So the bound of an ordering is the cost of its
variables below each other (`exact_eq`), also in machine words if it fits (`compute_eq`).
-/

namespace BayesCircuit.Bound

open Collection Collection.Ascending Tally

variable {b : Bound} {e : Elimination} {c d : Nat} {cs : List Nat} {u v x : Variable}
variable {us vs xs : List Variable} {measure : Measure}

/-! ## Counting -/

/-- How many variables of a constraint are among some others. -/
def countIn (b : Bound) (vs : List Variable) (c : Nat) : Nat := ((b.scope c).filter vs.contains).length

/-- How many constraints of a variable are among some that are not completed. -/
def countLive (b : Bound) (live : Nat → Bool) (x : Variable) : Nat :=
  ((b.mentioning x).filter live).length

theorem countIn_eq_zero : b.countIn vs c = 0 ↔ b.meets vs c = false := by
  rw [countIn, List.length_eq_zero_iff, List.filter_eq_nil_iff, meets, List.any_eq_false]

/-- Each variable is mentioned at most once. -/
theorem countIn_cons (B : b.Indexed) (hv : v ∉ vs) :
    b.countIn (v :: vs) c = b.countIn vs c + if v ∈ b.scope c then 1 else 0 := by
  have hnodup := B.nodup_scope c
  unfold countIn
  generalize b.scope c = us at hnodup
  induction us with
  | nil => rfl
  | cons u us ih =>
      obtain ⟨hu, hus⟩ := List.nodup_cons.1 hnodup
      have ih := ih hus
      by_cases huv : u = v
      · subst huv
        have hin : (u :: vs).contains u = true := by simp
        have hout : ¬ vs.contains u = true := by simpa using hv
        rw [List.filter_cons_of_pos hin, List.filter_cons_of_neg hout, List.length_cons, ih]
        simp [hu]
      · have hmem : v ∈ u :: us ↔ v ∈ us := by simp [Ne.symm huv]
        have hin : (v :: vs).contains u = vs.contains u := by simp [huv]
        simp only [List.filter_cons, hin, hmem]
        split
        · rw [List.length_cons, List.length_cons, ih]
          omega
        · exact ih

theorem countLive_eq_zero {live : Nat → Bool} :
    b.countLive live x = 0 ↔ ∀ c ∈ b.mentioning x, live c = false := by
  rw [countLive, List.length_eq_zero_iff, List.filter_eq_nil_iff]
  simp

/-- One constraint that is completed counts for the variables that it mentions. -/
theorem countLive_complete (B : b.Indexed) {live live' : Nat → Bool} (hlive : live c = true)
    (hlive' : ∀ d, live' d = (live d && d != c)) :
    b.countLive live x = b.countLive live' x + if x ∈ b.scope c then 1 else 0 := by
  have hnodup := B.nodup_mentioning x
  simp only [← B.mem_mentioning x c]
  unfold countLive
  generalize b.mentioning x = ds at hnodup
  induction ds with
  | nil => rfl
  | cons d ds ih =>
      obtain ⟨hd, hds⟩ := List.nodup_cons.1 hnodup
      have ih := ih hds
      by_cases hdc : d = c
      · subst hdc
        have hout : ¬ live' d = true := by simp [hlive']
        rw [List.filter_cons_of_pos hlive, List.filter_cons_of_neg hout, List.length_cons, ih]
        simp [hd]
      · have hsame : live' d = live d := by simp [hlive', hdc]
        have hmem : c ∈ d :: ds ↔ c ∈ ds := by simp [Ne.symm hdc]
        simp only [List.filter_cons, hsame, hmem]
        split
        · rw [List.length_cons, List.length_cons, ih]
          omega
        · exact ih

/-! ## Completing a constraint -/

theorem getD_set {ns : Array Nat} {i j n : Nat} (hn : ns.size ≤ i → n = 0) :
    (ns.setIfInBounds i n).getD j 0 = if j = i then n else ns.getD j 0 := by
  rw [Array.getD_eq_getD_getElem?, Array.getElem?_setIfInBounds, Array.getD_eq_getD_getElem?]
  by_cases hj : i = j
  · subst hj
    rw [if_pos rfl, if_pos rfl]
    split
    · rfl
    · rename_i hi
      rw [hn (Nat.le_of_not_lt hi)]
      rfl
  · rw [if_neg hj, if_neg (Ne.symm hj)]

/-- Completing a constraint counts it off for its variables; those without further constraints are
spanning no more. -/
theorem complete_spec : ∀ {xs : List Variable} {e : Elimination}, xs.Nodup → Strict e.spanning →
    (e.complete xs).unvisited = e.unvisited ∧ Strict (e.complete xs).spanning ∧
    (∀ x, (e.complete xs).incomplete.getD x 0 =
      e.incomplete.getD x 0 - if x ∈ xs then 1 else 0) ∧
    ∀ u, u ∈ (e.complete xs).spanning ↔
      u ∈ e.spanning ∧ (u ∈ xs → (e.complete xs).incomplete.getD u 0 ≠ 0)
  | [], e, _, hstrict => by simp [Elimination.complete, hstrict]
  | x :: xs, e, hnodup, hstrict => by
      obtain ⟨hx, hxs⟩ := List.nodup_cons.1 hnodup
      rw [Elimination.complete]
      let spanning :=
        if e.incomplete.getD x 0 - 1 == 0 then Ascending.erase x e.spanning else e.spanning
      have hspanning : Strict spanning := by
        show Strict (if _ then _ else _)
        split
        · exact strict_erase hstrict
        · exact hstrict
      obtain ⟨hunvisited, hstrict', hcount, hmem⟩ := complete_spec
        (e := ⟨e.unvisited, e.incomplete.setIfInBounds x (e.incomplete.getD x 0 - 1), spanning⟩)
        hxs hspanning
      have hset : ∀ y, (e.incomplete.setIfInBounds x (e.incomplete.getD x 0 - 1)).getD y 0 =
          if y = x then e.incomplete.getD x 0 - 1 else e.incomplete.getD y 0 := fun y =>
        getD_set fun hsize => by simp [Array.getD_eq_getD_getElem?, Array.getElem?_eq_none hsize]
      have hcount' : ∀ y, (Elimination.complete ⟨e.unvisited,
          e.incomplete.setIfInBounds x (e.incomplete.getD x 0 - 1), spanning⟩ xs).incomplete.getD y
            0 = e.incomplete.getD y 0 - if y ∈ x :: xs then 1 else 0 := by
        intro y
        rw [hcount, hset]
        by_cases hy : y = x
        · subst hy
          simp [hx]
        · simp [hy]
      refine ⟨hunvisited, hstrict', hcount', fun u => ?_⟩
      rw [hmem]
      by_cases hu : u = x
      · subst hu
        have hleft := hcount' u
        rw [if_pos (List.mem_cons_self ..)] at hleft
        have hspan : u ∈ spanning ↔ u ∈ e.spanning ∧ e.incomplete.getD u 0 - 1 ≠ 0 := by
          show u ∈ (if _ then _ else _) ↔ _
          split
          · rename_i hzero
            have hzero := beq_iff_eq.1 hzero
            rw [mem_erase]
            tauto
          · rename_i hzero
            have hzero := mt beq_iff_eq.2 hzero
            tauto
        rw [hspan, hleft]
        simp [hx]
      · have hspan : u ∈ spanning ↔ u ∈ e.spanning := by
          show u ∈ (if _ then _ else _) ↔ _
          split
          · simp [hu]
          · rfl
        rw [hspan, List.mem_cons, or_iff_right hu]

/-! ## Visiting a variable -/

/-- Whether a constraint still has one of the variables `vs` to come, or is among `cs`, whose visit
is under way. -/
def live (b : Bound) (vs : List Variable) (cs : List Nat) (c : Nat) : Bool :=
  b.meets vs c || cs.contains c

theorem live_iff : b.live vs cs c = true ↔ (∃ x ∈ vs, x ∈ b.scope c) ∨ c ∈ cs := by
  simp [live]

/-- The state of a walk when the variables `vs` are still to come and the constraints `cs` of the
variable `v` before them have not been visited. -/
structure Visiting (b : Bound) (v : Variable) (vs : List Variable) (cs : List Nat)
    (e : Elimination) : Prop where
  unvisited : ∀ c, e.unvisited.getD c 0 = b.countIn vs c + if c ∈ cs then 1 else 0
  incomplete : ∀ x, e.incomplete.getD x 0 = b.countLive (b.live vs cs) x
  strict : Strict e.spanning
  mem_spanning : ∀ u, u ∈ e.spanning ↔ u ∉ v :: vs ∧ ∃ c, b.live vs cs c ∧ u ∈ b.scope c

/-- The state of a walk when the variables `vs` are still to come. -/
structure Walked (b : Bound) (vs : List Variable) (e : Elimination) : Prop where
  unvisited : ∀ c, e.unvisited.getD c 0 = b.countIn vs c
  incomplete : ∀ x, e.incomplete.getD x 0 = b.countLive (b.meets vs) x
  spanning : e.spanning = b.frontier vs

/-- A constraint that mentions a variable or one after it either still has one to come or is one of
the variable. -/
theorem live_mentioning (B : b.Indexed) : b.live vs (b.mentioning v) = b.meets (v :: vs) := by
  funext c
  rw [Bool.eq_iff_iff, live_iff, meets_iff, B.mem_mentioning]
  simp [or_comm]

theorem Walked.visiting (B : b.Indexed) (hv : v ∉ vs) (W : Walked b (v :: vs) e) :
    Visiting b v vs (b.mentioning v) e where
  unvisited c := by
    rw [W.unvisited, countIn_cons B hv]
    simp only [B.mem_mentioning]
  incomplete x := by rw [W.incomplete, live_mentioning B]
  strict := W.spanning ▸ strict_frontier
  mem_spanning u := by rw [W.spanning, mem_frontier B, live_mentioning B]

/-- Visiting a constraint counts off its variable. -/
theorem Visiting.count_off (V : Visiting b v vs (c :: cs) e) (hc : c ∉ cs) :
    e.unvisited.getD c 0 - 1 = b.countIn vs c ∧
      ∀ d, (e.unvisited.setIfInBounds c (e.unvisited.getD c 0 - 1)).getD d 0 =
        b.countIn vs d + if d ∈ cs then 1 else 0 := by
  have hleft : e.unvisited.getD c 0 = b.countIn vs c + 1 := by
    rw [V.unvisited, if_pos (List.mem_cons_self ..)]
  refine ⟨by omega, fun d => ?_⟩
  rw [getD_set fun hsize => by simp [Array.getD_eq_getD_getElem?, Array.getElem?_eq_none hsize]]
  by_cases hd : d = c
  · rw [if_pos hd, hd, if_neg hc]
    omega
  · have hmem : d ∈ c :: cs ↔ d ∈ cs := by simp [hd]
    simp only [if_neg hd, V.unvisited, hmem]

/-- A constraint that still has a variable to come goes on counting. -/
theorem Visiting.keep (V : Visiting b v vs (c :: cs) e) (hc : c ∉ cs)
    (hmeets : b.meets vs c = true) :
    Visiting b v vs cs
      { e with unvisited := e.unvisited.setIfInBounds c (e.unvisited.getD c 0 - 1) } := by
  have hlive : b.live vs (c :: cs) = b.live vs cs := by
    funext d
    by_cases hd : d = c
    · simp [live, hd, hmeets]
    · simp [live, hd]
  obtain ⟨-, hcount⟩ := V.count_off hc
  refine ⟨hcount, fun x => ?_, V.strict, fun u => ?_⟩
  · rw [← hlive]
    exact V.incomplete x
  · rw [← hlive]
    exact V.mem_spanning u

/-- A constraint without variables to come is completed. -/
theorem Visiting.complete (B : b.Indexed) (V : Visiting b v vs (c :: cs) e) (hc : c ∉ cs)
    (hmeets : b.meets vs c = false) :
    Visiting b v vs cs (Elimination.complete
      { e with unvisited := e.unvisited.setIfInBounds c (e.unvisited.getD c 0 - 1) }
      (b.scope c)) := by
  have hlive : ∀ d, b.live vs cs d = (b.live vs (c :: cs) d && d != c) := by
    intro d
    by_cases hd : d = c
    · simp [live, hd, hmeets, hc]
    · simp [live, hd]
  have hself : b.live vs (c :: cs) c = true := by simp [live]
  obtain ⟨-, hcount⟩ := V.count_off hc
  obtain ⟨hunvisited, hstrict, hincomplete, hmem⟩ := complete_spec
    (e := { e with unvisited := e.unvisited.setIfInBounds c (e.unvisited.getD c 0 - 1) })
    (B.nodup_scope c) V.strict
  have hincomplete' : ∀ x, (Elimination.complete
      { e with unvisited := e.unvisited.setIfInBounds c (e.unvisited.getD c 0 - 1) }
      (b.scope c)).incomplete.getD x 0 = b.countLive (b.live vs cs) x := by
    intro x
    rw [hincomplete, V.incomplete, countLive_complete B hself hlive]
    omega
  refine ⟨fun d => ?_, hincomplete', hstrict, fun u => ?_⟩
  · rw [hunvisited]
    exact hcount d
  · rw [hmem, V.mem_spanning, hincomplete', Ne, countLive_eq_zero]
    simp only [B.mem_mentioning, hlive, and_assoc]
    refine and_congr_right fun _ => ⟨?_, ?_⟩
    · rintro ⟨⟨d, hd, hud⟩, hkeep⟩
      by_cases hdc : d = c
      · subst hdc
        have hother := hkeep hud
        push Not at hother
        obtain ⟨d', hud', hd'⟩ := hother
        exact ⟨d', by simpa using hd', hud'⟩
      · exact ⟨d, by simp [hd, hdc], hud⟩
    · rintro ⟨d, hd, hud⟩
      refine ⟨⟨d, ?_, hud⟩, fun _ hnone => ?_⟩
      · simp only [Bool.and_eq_true] at hd
        exact hd.1
      · have hnone := hnone d hud
        simp only [hd] at hnone
        cases hnone

/-- Visiting the constraints of a variable: those that mention no variable to come are completed. -/
theorem visitConstraints_spec (B : b.Indexed) :
    ∀ {cs : List Nat} {e : Elimination} (open? : Bool) (done : Nat), cs.Nodup →
      Visiting b v vs cs e →
      ∃ e', Elimination.visitConstraints b cs e open? done =
        (e', open? || cs.any (b.meets vs), done + (cs.filter (!b.meets vs ·)).length) ∧
        Visiting b v vs [] e'
  | [], e, open?, done, _, V => ⟨e, by simp [Elimination.visitConstraints], V⟩
  | c :: cs, e, open?, done, hnodup, V => by
      obtain ⟨hc, hcs⟩ := List.nodup_cons.1 hnodup
      obtain ⟨hleft, -⟩ := V.count_off hc
      rw [Elimination.visitConstraints]
      cases hmeets : b.meets vs c with
      | true =>
          have hne : (e.unvisited.getD c 0 - 1 == 0) = false := by
            rw [hleft, beq_eq_false_iff_ne, Ne, countIn_eq_zero, hmeets]
            exact Bool.true_eq_false_eq_False
          obtain ⟨e', hrun, V'⟩ := visitConstraints_spec B true done hcs (V.keep hc hmeets)
          refine ⟨e', ?_, V'⟩
          simp only [hne, hrun]
          simp [hmeets]
      | false =>
          have heq : (e.unvisited.getD c 0 - 1 == 0) = true := by
            rw [hleft, beq_iff_eq, countIn_eq_zero, hmeets]
          obtain ⟨e', hrun, V'⟩ :=
            visitConstraints_spec B open? (done + 1) hcs (V.complete B hc hmeets)
          refine ⟨e', ?_, V'⟩
          rw [if_pos heq]
          have hscope : b.scopes.getD c [] = b.scope c := rfl
          simp only [hscope, hrun]
          simp [hmeets]
          omega

/-- Visiting a variable completes the constraints that end with it. -/
theorem Walked.visit (B : b.Indexed) (hv : v ∉ vs) (W : Walked b (v :: vs) e) :
    ∃ e', e.visit b v = ((b.ending v vs).length, e') ∧ Walked b vs e' := by
  obtain ⟨e', hrun, V⟩ :=
    visitConstraints_spec B false 0 (B.nodup_mentioning v) (W.visiting B hv)
  have hlive : b.live vs [] = b.meets vs := by
    funext c
    simp [live]
  have hconstraints : b.constraintsOf.getD v [] = b.mentioning v := rfl
  have hopen : (b.mentioning v).any (b.meets vs) = true ↔ ∃ c, b.meets vs c ∧ v ∈ b.scope c := by
    rw [List.any_eq_true]
    simp only [B.mem_mentioning, and_comm]
  have hspanning : (if (b.mentioning v).any (b.meets vs) then Ascending.insert v e'.spanning
      else e'.spanning) = b.frontier vs := by
    refine eq_frontier B ?_ fun u => ?_
    · split
      · exact strict_insert V.strict
      · exact V.strict
    · have hmem : u ∈ e'.spanning ↔ u ≠ v ∧ u ∉ vs ∧ ∃ c, b.meets vs c ∧ u ∈ b.scope c := by
        rw [V.mem_spanning, hlive, List.mem_cons, not_or, and_assoc]
      by_cases huv : u = v
      · subst huv
        rw [← hopen]
        split
        · rename_i h
          simp [h, hv]
        · rename_i h
          simp [h, hmem]
      · split
        · rw [mem_insert, hmem]
          simp [huv]
        · rw [hmem]
          simp [huv]
  refine ⟨⟨e'.unvisited, e'.incomplete, if (b.mentioning v).any (b.meets vs) then
    Ascending.insert v e'.spanning else e'.spanning⟩, ?_, fun c => ?_, fun x => ?_, hspanning⟩
  · rw [Elimination.visit, hconstraints, hrun]
    simp only [Bool.false_or, Nat.zero_add, ending, Prod.mk.injEq, true_and]
    split <;> rfl
  · have hcount := V.unvisited c
    rwa [if_neg List.not_mem_nil, Nat.add_zero] at hcount
  · rw [← hlive]
    exact V.incomplete x

/-- A walk starts with all variables to come. -/
theorem walked_start (B : b.Indexed) (h : ∀ c, b.scope c ⊆ vs) :
    Walked b vs (Elimination.start b) where
  unvisited c := by
    have hall : (b.scope c).filter vs.contains = b.scope c :=
      List.filter_eq_self.2 fun u hu => by simpa using h c hu
    rw [countIn, hall]
    simp only [Elimination.start, scope, Array.getD_eq_getD_getElem?, Array.getElem?_map]
    cases b.scopes[c]? <;> rfl
  incomplete x := by
    have hall : (b.mentioning x).filter (b.meets vs) = b.mentioning x := by
      refine List.filter_eq_self.2 fun c hc => meets_iff.2 ⟨x, ?_, (B.mem_mentioning x c).1 hc⟩
      exact h c ((B.mem_mentioning x c).1 hc)
    rw [countLive, hall]
    simp only [Elimination.start, mentioning, Array.getD_eq_getD_getElem?, Array.getElem?_map]
    cases b.constraintsOf[x]? <;> rfl
  spanning := by
    refine eq_frontier B List.Pairwise.nil fun u => iff_of_false List.not_mem_nil ?_
    rintro ⟨hu, c, _, huc⟩
    exact hu (h c huc)

/-- Where a walk stands depends only on which variables are still to come. -/
theorem Walked.perm (B : b.Indexed) (h : us.Perm vs) (W : Walked b us e) : Walked b vs e := by
  have hcontains : ∀ u, us.contains u = vs.contains u := fun u => by
    rw [Bool.eq_iff_iff, List.contains_iff_mem, List.contains_iff_mem, h.mem_iff]
  have hcount : b.countIn us = b.countIn vs := by
    funext c
    rw [countIn, countIn, funext hcontains]
  have hmeets : b.meets us = b.meets vs := by
    funext c
    rw [meets, meets, funext hcontains]
  exact ⟨fun c => hcount ▸ W.unvisited c, fun x => hmeets ▸ W.incomplete x,
    W.spanning.trans (frontier_perm B h)⟩

/-! ## Bounds -/

theorem levelCost_exact {dim ended width : Nat} :
    Elimination.levelCost .exact measure dim ended width = some (cost measure width dim ended) := by
  cases measure <;> rfl

/-- The bound of an ordering as a natural number. -/
theorem sumFrom_exact (B : b.Indexed) : ∀ {vs : List Variable} {e : Elimination} {k : Nat},
    vs.Nodup → Walked b vs e →
    sumFrom .exact measure b vs e k = some (k + b.pathCost measure vs)
  | [], e, k, _, _ => rfl
  | v :: vs, e, k, hnodup, W => by
      obtain ⟨hv, hvs⟩ := List.nodup_cons.1 hnodup
      obtain ⟨e', hvisit, W'⟩ := W.visit B hv
      have hwidth : e.width .exact b = some (b.widthAt (v :: vs)) := by
        rw [Elimination.width, Tally.widthFrom_eq, Tally.foldlM_exact, W.spanning]
        exact congrArg some (Nat.one_mul _)
      rw [sumFrom, Elimination.eliminate, hwidth]
      simp only [hvisit, levelCost_exact, exact_add]
      rw [sumFrom_exact B hvs W', pathCost, Nat.add_assoc]

/-- What the level of a variable multiplies out before the completed constraints are counted. -/
def factorAt (b : Bound) (measure : Measure) (v : Variable) (vs : List Variable) : Nat :=
  if measure = .nodes then b.widthAt (v :: vs) else b.widthAt (v :: vs) * b.dim v

theorem widthAt_le_factorAt (hdim : 0 < b.dim v) :
    b.widthAt (v :: vs) ≤ b.factorAt measure v vs := by
  rw [factorAt]
  split
  · exact Nat.le_refl _
  · exact Nat.le_mul_of_pos_right _ hdim

theorem levelCost_word (ended : Nat) (hfactor : b.factorAt measure v vs < wordSize)
    (hcost : cost measure (b.widthAt (v :: vs)) (b.dim v) ended < wordSize) :
    Elimination.levelCost .word measure (b.dim v) ended (b.widthAt (v :: vs)) =
      some (cost measure (b.widthAt (v :: vs)) (b.dim v) ended) := by
  have hmul : ∀ n, b.widthAt (v :: vs) * b.dim v * n < wordSize →
      Tally.word.mul? (b.widthAt (v :: vs) * b.dim v) n =
        some (b.widthAt (v :: vs) * b.dim v * n) := fun _ => word_mul
  cases measure with
  | nodes => rfl
  | edges => exact word_mul hfactor
  | weights => simp [Elimination.levelCost, cost, word_mul hfactor, hmul _ hcost]
  | operators => simp [Elimination.levelCost, cost, word_mul hfactor, hmul _ hcost]

/-- The bound of an ordering in machine words, if it fits and so does what each level multiplies
out. -/
theorem sumFrom_word (B : b.Regular) : ∀ {vs : List Variable} {e : Elimination} {k : Nat},
    vs.Nodup → (∀ v ∈ vs, 0 < b.dim v) → Walked b vs e →
    (∀ v us, v :: us <:+ vs → b.factorAt measure v us < wordSize) →
    k + b.pathCost measure vs < wordSize →
    sumFrom .word measure b vs e k = some (k + b.pathCost measure vs)
  | [], e, k, _, _, _, _, _ => rfl
  | v :: vs, e, k, hnodup, hpos, W, hfactors, h => by
      obtain ⟨hv, hvs⟩ := List.nodup_cons.1 hnodup
      obtain ⟨hdim, hpos⟩ := List.forall_mem_cons.1 hpos
      obtain ⟨e', hvisit, W'⟩ := W.visit B.toIndexed hv
      have hfactor := hfactors v vs List.suffix_rfl
      have hfactors' : ∀ u us, u :: us <:+ vs → b.factorAt measure u us < wordSize := fun u us hus =>
        hfactors u us (hus.trans (List.suffix_cons v vs))
      have hwidth : e.width .word b = some (b.widthAt (v :: vs)) := by
        have hsmall := (widthAt_le_factorAt hdim).trans_lt hfactor
        have hrun := Tally.foldlM_word ((b.frontier (v :: vs)).map b.dim) 1
          (List.forall_mem_map.2 fun u hu => frontier_pos B hu) (by rwa [Nat.one_mul])
        rw [Elimination.width, Tally.widthFrom_eq, W.spanning]
        rwa [Nat.one_mul] at hrun
      rw [pathCost] at h ⊢
      have hcost := levelCost_word (b.ending v vs).length hfactor (by omega)
      rw [sumFrom, Elimination.eliminate, hwidth]
      simp only [hvisit, hcost]
      rw [word_add (by omega)]
      simp only []
      rw [sumFrom_word B hvs hpos W' hfactors' (by omega), Nat.add_assoc]

theorem pathCost_le_of_suffix (h : us <:+ vs) : b.pathCost measure us ≤ b.pathCost measure vs := by
  obtain ⟨as, rfl⟩ := h
  induction as with
  | nil => exact Nat.le_refl _
  | cons a as ih => exact ih.trans (Nat.le_add_left _ _)

/-- No level multiplies out more than the edges of all levels. -/
theorem factorAt_le_edges (hpos : ∀ u ∈ vs, 0 < b.dim u) (h : v :: us <:+ vs) :
    b.factorAt measure v us ≤ b.pathCost .edges vs := by
  have hdim := hpos v (h.subset (List.mem_cons_self ..))
  refine le_trans ?_ ((Nat.le_add_right _ _).trans (pathCost_le_of_suffix h))
  rw [factorAt]
  split
  · exact Nat.le_mul_of_pos_right _ hdim
  · exact Nat.le_refl _

/-- The bound of an ordering is what its variables cost below each other. -/
theorem exact_eq (B : b.Indexed) {ordering : List Variable} (hnodup : ordering.Nodup)
    (hscope : ∀ c, b.scope c ⊆ ordering) :
    b.exact measure ordering = b.pathCost measure ordering := by
  rw [exact, sum?, sumFrom_exact B hnodup (walked_start B hscope)]
  exact Nat.zero_add _

/-- The bound in machine words, if it and the number of edges fit. -/
theorem compute_eq (B : b.Regular) {ordering : List Variable} (hnodup : ordering.Nodup)
    (hpos : ∀ v ∈ ordering, 0 < b.dim v) (hscope : ∀ c, b.scope c ⊆ ordering)
    (hedges : b.pathCost .edges ordering < wordSize)
    (hfits : b.pathCost measure ordering < wordSize) :
    b.compute measure ordering = b.pathCost measure ordering := by
  have hrun := sumFrom_word (k := 0) B hnodup hpos (walked_start B.toIndexed hscope)
    (fun v us hus => (factorAt_le_edges hpos hus).trans_lt hedges)
    (Nat.zero_add (b.pathCost measure ordering) ▸ hfits)
  rw [Nat.zero_add] at hrun
  rw [compute, checked?, sum?]
  exact congrArg (·.getD saturated) hrun

end BayesCircuit.Bound
