import BayesCircuit.Proofs.Decision.Build

/-!
# The driver builds what the recursion builds

A build succeeds if and only if steps of the driver lead to a state without frames, which has its
root and its manager; it fails if and only if a step fails in a state that the driver reaches
(`run_build_eq_ok_iff`, `run_build_eq_error_iff`). So the states of the driver are those through
which a build goes.

The simulation is by induction on the ordering. `Resumes x m r` says that the driver comes to the
result `r` once the computation `x` has given its state, so the recursion and the driver can be
compared step by step: each step of the driver is a first part of what the recursion does.
-/

namespace BayesCircuit.Decision.Driver

open Action

variable {σ α : Type} {E : Engine σ} {ordering : List Literal} {collapse expired : Bool}
variable {d d' : Driver σ} {m m' : Manager} {f : Frame} {below : List Frame} {h c root : Handle}
variable {p : Progress σ} {r r' : EStateM.Result Failure Manager (Driver σ)} {e : Failure}

/-- A step leads from a state to the next one. -/
def Next (E : Engine σ) (ordering : List Literal) (collapse expired : Bool)
    (s t : Driver σ × Manager) : Prop :=
  s.1.frames ≠ [] ∧ (s.1.step E ordering collapse expired).run s.2 = .ok t.1 t.2

/-- Steps lead from a state to a later one. -/
def Reaches (E : Engine σ) (ordering : List Literal) (collapse expired : Bool) :
    Driver σ × Manager → Driver σ × Manager → Prop :=
  Relation.ReflTransGen (Next E ordering collapse expired)

/-- What the driver comes to: the first state without frames, or the failure of a step. -/
inductive Yields (E : Engine σ) (ordering : List Literal) (collapse expired : Bool) :
    Driver σ → Manager → EStateM.Result Failure Manager (Driver σ) → Prop
  | done {d : Driver σ} {m : Manager} : d.frames = [] →
      Yields E ordering collapse expired d m (.ok d m)
  | fail {d : Driver σ} {m m' : Manager} {e : Failure} : d.frames ≠ [] →
      (d.step E ordering collapse expired).run m = .error e m' →
      Yields E ordering collapse expired d m (.error e m')
  | next {d d' : Driver σ} {m m' : Manager} {r : EStateM.Result Failure Manager (Driver σ)} :
      d.frames ≠ [] → (d.step E ordering collapse expired).run m = .ok d' m' →
      Yields E ordering collapse expired d' m' r → Yields E ordering collapse expired d m r

/-- The driver comes to a result after a computation that gives its state. -/
def Resumes (E : Engine σ) (ordering : List Literal) (collapse expired : Bool)
    (x : Action (Driver σ)) (m : Manager) (r : EStateM.Result Failure Manager (Driver σ)) : Prop :=
  match x.run m with
  | .ok d m' => Yields E ordering collapse expired d m' r
  | .error e m' => r = .error e m'

/-! ## What the driver comes to -/

theorem Yields.unique (hr : Yields E ordering collapse expired d m r)
    (hr' : Yields E ordering collapse expired d m r') : r = r' := by
  induction hr generalizing r' with
  | done hd =>
      cases hr' with
      | done => rfl
      | fail hne => exact absurd hd hne
      | next hne => exact absurd hd hne
  | fail hne hrun =>
      cases hr' with
      | done hd => exact absurd hd hne
      | fail _ hrun' =>
          rw [hrun] at hrun'
          cases hrun'
          rfl
      | next _ hrun' =>
          rw [hrun] at hrun'
          cases hrun'
  | next hne hrun _ ih =>
      cases hr' with
      | done hd => exact absurd hd hne
      | fail _ hrun' =>
          rw [hrun] at hrun'
          cases hrun'
      | next _ hrun' hnext =>
          rw [hrun] at hrun'
          cases hrun'
          exact ih hnext

theorem Yields.of_reaches {s t : Driver σ × Manager} (hst : Reaches E ordering collapse expired s t)
    (ht : Yields E ordering collapse expired t.1 t.2 r) :
    Yields E ordering collapse expired s.1 s.2 r := by
  induction hst using Relation.ReflTransGen.head_induction_on with
  | refl => exact ht
  | head hnext _ ih => exact .next hnext.1 hnext.2 ih

theorem yields_ok_iff : Yields E ordering collapse expired d m (.ok d' m') ↔
    Reaches E ordering collapse expired (d, m) (d', m') ∧ d'.frames = [] := by
  constructor
  · intro hr
    generalize hres : EStateM.Result.ok d' m' = r at hr
    induction hr with
    | done hd =>
        cases hres
        exact ⟨.refl, hd⟩
    | fail => cases hres
    | next hne hrun _ ih =>
        obtain ⟨hreach, hd⟩ := ih hres
        exact ⟨.head ⟨hne, hrun⟩ hreach, hd⟩
  · intro hr
    exact Yields.of_reaches hr.1 (.done hr.2)

theorem yields_error_iff : Yields E ordering collapse expired d m (.error e m') ↔
    ∃ s, Reaches E ordering collapse expired (d, m) s ∧ s.1.frames ≠ [] ∧
      (s.1.step E ordering collapse expired).run s.2 = .error e m' := by
  constructor
  · intro hr
    generalize hres : EStateM.Result.error e m' = r at hr
    induction hr with
    | done => cases hres
    | @fail d m _ _ hne hrun =>
        cases hres
        exact ⟨(d, m), .refl, hne, hrun⟩
    | next hne hrun _ ih =>
        obtain ⟨s, hreach, hs⟩ := ih hres
        exact ⟨s, .head ⟨hne, hrun⟩ hreach, hs⟩
  · intro hr
    obtain ⟨s, hreach, hne, hrun⟩ := hr
    exact Yields.of_reaches hreach (.fail hne hrun)

/-! ## Going on after a computation -/

theorem resumes_pure : Resumes E ordering collapse expired (pure d) m r ↔
    Yields E ordering collapse expired d m r := Iff.rfl

/-- In a state with frames, the driver goes on with a step. -/
theorem Resumes.step (hd : d.frames ≠ [])
    (hr : Resumes E ordering collapse expired (d.step E ordering collapse expired) m r) :
    Resumes E ordering collapse expired (pure d) m r := by
  unfold Resumes at hr
  rw [resumes_pure]
  split at hr
  · exact .next hd ‹_› hr
  · rw [hr]
    exact .fail hd ‹_›

theorem Resumes.bind_congr {x : Action α} {f g : α → Action (Driver σ)}
    (hfg : ∀ a m', Resumes E ordering collapse expired (f a) m' r →
      Resumes E ordering collapse expired (g a) m' r)
    (hx : Resumes E ordering collapse expired (x >>= f) m r) :
    Resumes E ordering collapse expired (x >>= g) m r := by
  unfold Resumes at hx ⊢
  rw [EStateM.run_bind] at hx ⊢
  cases hrun : x.run m with
  | ok a m' =>
      rw [hrun] at hx
      exact hfg a m' hx
  | error e m' =>
      rw [hrun] at hx
      exact hx

/-- What is done after a failure does not matter. -/
theorem Resumes.of_throw_bind {f : α → Action (Driver σ)}
    (hr : Resumes E ordering collapse expired ((throw e : Action α) >>= f) m r) :
    Resumes E ordering collapse expired (throw e) m r := hr

/-! ## The simulation -/

/-- What is left to do for a node with both edges. -/
theorem resumes_canonical {slot : Slot} {level : Nat}
    (hr : Resumes E ordering collapse expired (finish collapse expired h p >>= fun r =>
      deliver E r.1 slot ⟨below, r.2, root⟩) m r) :
    Resumes E ordering collapse expired
      (pure ⟨⟨slot, level, h, .canonical⟩ :: below, p, root⟩) m r :=
  Resumes.step (List.cons_ne_nil _ _) hr

/-- The recursion for a rest of the ordering does what the driver does for a frame at its level. -/
def Simulates (E : Engine σ) (ordering : List Literal) (collapse expired : Bool)
    (ls : List Literal) (level : Nat) : Prop :=
  ∀ (slot : Slot) (below : List Frame) (node root : Handle) (p : Progress σ) (m : Manager)
    (r : EStateM.Result Failure Manager (Driver σ)),
    Resumes E ordering collapse expired (buildFrom E collapse expired ls level p >>= fun r =>
      deliver E r.1 slot ⟨below, r.2, root⟩) m r →
    Resumes E ordering collapse expired
      (pure ⟨⟨slot, level, node, .positive⟩ :: below, p, root⟩) m r

variable {slot : Slot} {level : Nat} {l : Literal} {rest : List Literal}

/-- What is left to do for a node with a high edge. -/
theorem resumes_negative (hl : ordering[level]? = some l)
    (hnext : ordering[level + 1]? = rest.head?)
    (hbelow : Simulates E ordering collapse expired rest (level + 1))
    (hr : Resumes E ordering collapse expired (do
      let steps ← tick expired p.steps
      let (found, _, engine) ← E.condition p.engine l rest.head? false
      let p ← lowStep E (buildFrom E collapse expired rest (level + 1)) h level found
        ⟨p.table, engine, steps⟩
      let r ← finish collapse expired h p
      deliver E r.1 slot ⟨below, r.2, root⟩) m r) :
    Resumes E ordering collapse expired
      (pure ⟨⟨slot, level, h, .negative⟩ :: below, p, root⟩) m r := by
  refine Resumes.step (List.cons_ne_nil _ _) ?_
  have hstep : Driver.step E ordering collapse expired
      ⟨⟨slot, level, h, .negative⟩ :: below, p, root⟩ =
      stepNegative E ordering expired ⟨slot, level, h, .negative⟩ below
        ⟨⟨slot, level, h, .negative⟩ :: below, p, root⟩ := rfl
  have hlift : Action.lift (expect .outOfRange (some l)) = (pure l : Action Literal) := rfl
  rw [hstep, stepNegative, hl, hnext, hlift]
  simp only [pure_bind]
  refine Resumes.bind_congr (fun steps m₁ hr₁ => ?_) hr
  refine Resumes.bind_congr (fun answer m₂ hr₂ => ?_) hr₁
  obtain ⟨found, ws, engine⟩ := answer
  cases found with
  | unsatisfied =>
      apply hbelow
      simp only [lowStep, bind_assoc, pure_bind] at hr₂
      refine Resumes.bind_congr (fun result m₃ hr₃ => ?_) hr₂
      exact Resumes.bind_congr (fun _ m₄ hr₄ => resumes_canonical hr₄) hr₃
  | _ => exact Resumes.bind_congr (fun p' m₃ hr₃ => resumes_canonical hr₃) hr₂

/-- The recursion at a literal that matters. -/
theorem resumes_nodeStep (hl : ordering[level]? = some l)
    (hnext : ordering[level + 1]? = rest.head?)
    (hbelow : Simulates E ordering collapse expired rest (level + 1)) {found : Cofactor}
    {ws : Weights}
    (hr : Resumes E ordering collapse expired
      (nodeStep E collapse expired l rest level found ws p >>= fun r =>
        deliver E r.1 slot ⟨below, r.2, root⟩) m r) :
    Resumes E ordering collapse expired (do
      let h ← create l (nodeWeights found ws)
      let frames := ⟨slot, level, h, .negative⟩ :: below
      match found with
      | .unsatisfied => return ⟨.start (.high h) (level + 1) :: frames, p, root⟩
      | found => return ⟨frames, ← answerHigh E h found p, root⟩) m r := by
  unfold nodeStep at hr
  simp only [bind_assoc] at hr
  refine Resumes.bind_congr (fun h m₁ hr₁ => ?_) hr
  cases found with
  | unsatisfied =>
      apply hbelow
      simp only [highStep, bind_assoc, pure_bind] at hr₁
      refine Resumes.bind_congr (fun result m₂ hr₂ => ?_) hr₁
      refine Resumes.bind_congr (fun _ m₃ hr₃ => ?_) hr₂
      exact Resumes.bind_congr (fun _ m₄ hr₄ => resumes_negative hl hnext hbelow hr₄) hr₃
  | _ =>
      exact Resumes.bind_congr (fun p' m₂ hr₂ => resumes_negative hl hnext hbelow hr₂) hr₁

/-- The driver does for a frame what the recursion does for the rest of the ordering. -/
theorem simulates_drop : ∀ (ls : List Literal) (level : Nat), ordering.drop level = ls →
    Simulates E ordering collapse expired ls level
  | [], level, hdrop => by
      intro slot below node root p m r hr
      have hnone : ordering[level]? = none := by
        rw [List.getElem?_eq_none_iff, ← List.drop_eq_nil_iff, hdrop]
      refine Resumes.step (List.cons_ne_nil _ _) ?_
      show Resumes E ordering collapse expired (stepPositive E ordering expired _ below _) m r
      rw [stepPositive, hnone]
      simp only [buildFrom, Functor.discard, LawfulFunctor.map_const, Function.comp_apply,
        map_eq_pure_bind, bind_assoc, pure_bind] at hr
      exact Resumes.bind_congr (fun _ _ hr' => hr'.of_throw_bind) hr
  | l :: rest, level, hdrop => by
      intro slot below node root p m r hr
      have hl : ordering[level]? = some l := by
        rw [← List.head?_drop, hdrop, List.head?_cons]
      have hrest : ordering.drop (level + 1) = rest := by
        rw [← List.tail_drop, hdrop, List.tail_cons]
      have hnext : ordering[level + 1]? = rest.head? := by
        rw [← List.head?_drop, hrest]
      have hbelow := simulates_drop rest (level + 1) hrest
      refine Resumes.step (List.cons_ne_nil _ _) ?_
      show Resumes E ordering collapse expired (stepPositive E ordering expired _ below _) m r
      rw [stepPositive, hl, hnext]
      rw [buildFrom_cons] at hr
      simp only [bind_assoc] at hr
      refine Resumes.bind_congr (fun steps m₁ hr₁ => ?_) hr
      refine Resumes.bind_congr (fun answer m₂ hr₂ => ?_) hr₁
      obtain ⟨found, ws, engine⟩ := answer
      cases found with
      | redundant => exact hbelow _ _ _ _ _ _ _ hr₂
      | _ => exact resumes_nodeStep hl hnext hbelow hr₂

/-! ## Whole builds -/

/-- A build and the driver come to the same. -/
theorem yields_build (E : Engine σ) (ordering : List Literal) (collapse expired : Bool)
    {table : Table} (engine : σ) (hnew : newTable.run m = .ok table m) :
    ∃ r, Yields E ordering collapse expired (start table engine) m r ∧
      (build E engine ordering collapse expired).run m = match r with
        | .ok d m' => .ok d.root m'
        | .error e m' => .error e m' := by
  -- the caller of the recursion takes a reference to the root, and so does the driver
  obtain ⟨x, hx⟩ : ∃ x, x = (do
      let r ← buildFrom E collapse expired ordering 0 ⟨table, engine, 0⟩
      reference r.1
      return r) := ⟨_, rfl⟩
  have hbuild : (build E engine ordering collapse expired).run m =
      (x >>= fun r => pure r.1).run m := by
    rw [build, EStateM.run_bind, hnew, hx]
    simp only [bind_assoc, pure_bind]
  have hdriver : ∀ r, Resumes E ordering collapse expired
      (x >>= fun r => pure ⟨[], r.2, r.1⟩) m r →
      Yields E ordering collapse expired (start table engine) m r := by
    intro r hr
    refine resumes_pure.1 (simulates_drop ordering 0 List.drop_zero .root [] _ _ _ m r ?_)
    rw [hx] at hr
    simp only [bind_assoc, pure_bind] at hr
    exact hr
  rw [hbuild, EStateM.run_bind]
  cases hrun : x.run m with
  | ok a m' =>
      refine ⟨.ok ⟨[], a.2, a.1⟩ m', hdriver _ ?_, rfl⟩
      rw [Resumes, EStateM.run_bind, hrun]
      exact .done rfl
  | error e m' =>
      refine ⟨.error e m', hdriver _ ?_, rfl⟩
      rw [Resumes, EStateM.run_bind, hrun]

/-- A build succeeds if the driver comes to a state without frames. -/
theorem run_build_eq_ok_iff {table : Table} {engine : σ} (hnew : newTable.run m = .ok table m) :
    (build E engine ordering collapse expired).run m = .ok c m' ↔
      ∃ d, Reaches E ordering collapse expired (start table engine, m) (d, m') ∧ d.frames = [] ∧
        d.root = c := by
  obtain ⟨r, hr, hrun⟩ := yields_build E ordering collapse expired engine hnew
  rw [hrun]
  constructor
  · intro hok
    cases r with
    | ok d m₁ =>
        cases hok
        obtain ⟨hreach, hd⟩ := yields_ok_iff.1 hr
        exact ⟨d, hreach, hd, rfl⟩
    | error e m₁ => cases hok
  · intro hreach
    obtain ⟨d, hreach, hd, rfl⟩ := hreach
    obtain rfl := hr.unique (yields_ok_iff.2 ⟨hreach, hd⟩)
    rfl

/-- A build fails if a step of the driver does. -/
theorem run_build_eq_error_iff {table : Table} {engine : σ} (hnew : newTable.run m = .ok table m) :
    (build E engine ordering collapse expired).run m = .error e m' ↔
      ∃ s, Reaches E ordering collapse expired (start table engine, m) s ∧ s.1.frames ≠ [] ∧
        (s.1.step E ordering collapse expired).run s.2 = .error e m' := by
  obtain ⟨r, hr, hrun⟩ := yields_build E ordering collapse expired engine hnew
  rw [hrun]
  constructor
  · intro herror
    cases r with
    | ok d m₁ => cases herror
    | error e₁ m₁ =>
        cases herror
        exact yields_error_iff.1 hr
  · intro hfails
    obtain rfl := hr.unique (yields_error_iff.2 hfails)
    rfl

end BayesCircuit.Decision.Driver
