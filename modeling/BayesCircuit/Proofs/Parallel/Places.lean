import BayesCircuit.Proofs.Parallel.Pool

/-!
# Where the tasks of a pool are

Whatever steps the dispatcher and the workers have taken, a task waits to be handed out, is in a
channel or in the shared queue, is worked on, or has been worked on and its result sent. Nothing
else happens to a task, so the places of all tasks together hold what was given (`tasksAt`), and
the results are those of the tasks that were sent, in the order in which they were sent.

The invariants of the pool (`Sound`) say the rest: there is a task in the shared queue for each token
on its way and for each worker that has received one, nobody waits for ever, and when everybody has
stopped, all results are there.
-/

namespace BayesCircuit.Pool

variable {τ ρ : Type} {c : Setup} {f : τ → ρ} {given sent : List τ} {s s' : State τ ρ}
variable {task : τ}

/-- Where a task can be. -/
inductive Place where
  /-- The dispatcher has not put it anywhere. -/
  | undispatched
  /-- It is in the channel of a worker or in the shared queue. -/
  | queued
  /-- A worker works on it. -/
  | worked
  /-- Its result has been sent. -/
  | sent

/-- The tasks in a place, if the results of the tasks `sent` have been sent. -/
def State.tasksAt (s : State τ ρ) (sent : List τ) : Place → Multiset τ
  | .undispatched => s.pending + s.dispatcher.holding
  | .queued => total Multiset.ofList s.channels + s.queue
  | .worked => total Worker.doing s.workers
  | .sent => sent

/-- What was given is in the four places, and the results are those of the tasks sent. -/
structure Placed (f : τ → ρ) (given : List τ) (s : State τ ρ) (sent : List τ) : Prop where
  results : s.results = sent.map f
  everywhere : s.tasksAt sent .undispatched + s.tasksAt sent .queued + s.tasksAt sent .worked +
    s.tasksAt sent .sent = given

theorem placed_iff : Placed f given s sent ↔
    s.results = sent.map f ∧ s.left + (sent : Multiset τ) = given := by
  have hleft : s.left + (sent : Multiset τ) = s.tasksAt sent .undispatched +
      s.tasksAt sent .queued + s.tasksAt sent .worked + s.tasksAt sent .sent := by
    simp only [State.left, State.tasksAt]
    abel
  constructor
  · intro h
    exact ⟨h.results, hleft.trans h.everywhere⟩
  · intro h
    exact ⟨h.1, hleft.symm.trans h.2⟩

namespace Placed

theorem start : Placed f given (start c given : State τ ρ) [] := by
  rw [placed_iff]
  exact ⟨rfl, by simp [State.left, Pool.start, Dispatcher.holding, total_replicate, Worker.doing]⟩

/-- A step leaves the tasks that are sent alone, or sends the result of one more. -/
theorem step (S : Sound c f given s) (h : Step c f s s') (P : Placed f given s sent) :
    ∃ sent', Placed f given s' sent' := by
  rw [placed_iff] at P
  obtain ⟨hresults, hgiven⟩ := P
  rcases h.left S with ⟨hleft, hsame⟩ | ⟨task, hleft, hsame⟩
  · refine ⟨sent, placed_iff.2 ⟨hsame.trans hresults, ?_⟩⟩
    rw [hleft, hgiven]
  · refine ⟨sent ++ [task], placed_iff.2 ⟨?_, ?_⟩⟩
    · rw [hsame, hresults, List.map_append, List.map_singleton]
    · rw [← hgiven, hleft, ← Multiset.coe_add, Multiset.coe_singleton]
      abel

theorem follow : ∀ {ms : List Move} {s : State τ ρ} {sent : List τ}, Sound c f given s →
    Placed f given s sent → s.follow? c f ms = some s' → ∃ sent', Placed f given s' sent'
  | [], s, sent, _, P, h => by
      cases h
      exact ⟨sent, P⟩
  | m :: ms, s, sent, S, P, h => by
      rw [State.follow?] at h
      obtain ⟨s₁, hstep, h⟩ := Option.bind_eq_some_iff.1 h
      have hs := S.step_of hstep
      obtain ⟨sent₁, P₁⟩ := P.step S hs
      exact Placed.follow (S.step hs) P₁ h

/-- If no two tasks are the same, each of them is in one place only. -/
theorem exists_unique_place (P : Placed f given s sent) (hnodup : given.Nodup) (ht : task ∈ given) :
    ∃! p, task ∈ s.tasksAt sent p := by
  classical
  have hone := congrArg (Multiset.count task) P.everywhere
  rw [Multiset.coe_count, List.count_eq_one_of_mem hnodup ht] at hone
  simp only [Multiset.count_add] at hone
  have hmem : ∃ p, task ∈ s.tasksAt sent p := by
    by_contra hnone
    rw [not_exists] at hnone
    simp only [Multiset.count_eq_zero.2 (hnone _)] at hone
    omega
  obtain ⟨p, hp⟩ := hmem
  refine ⟨p, hp, fun q hq => ?_⟩
  have hp := Multiset.count_pos.2 hp
  have hq := Multiset.count_pos.2 hq
  by_contra hne
  cases p <;> cases q <;> simp at hne <;> omega

end Placed

/-- A worker that has received a token finds a task. -/
theorem Sound.queue_ne_nil (S : Sound c f given s) {w : Nat} (hw : s.workers[w]? = some .called) :
    s.queue ≠ [] := by
  intro hempty
  have hcounted := S.counted
  have hcalls := calls_pos hw
  rw [hempty, List.length_nil] at hcounted
  omega

/-- The steps that were taken and those that can be taken still are no more than those that could
be taken at first. -/
theorem Sound.length_follow : ∀ {ms : List Move} {s : State τ ρ}, Sound c f given s →
    s.follow? c f ms = some s' → ms.length + s'.work c ≤ s.work c
  | [], s, _, h => by
      cases h
      simp
  | m :: ms, s, S, h => by
      rw [State.follow?] at h
      obtain ⟨s₁, hstep, h⟩ := Option.bind_eq_some_iff.1 h
      have hs := S.step_of hstep
      have hfirst := hs.work_lt S
      have hrest := Sound.length_follow (S.step hs) h
      rw [List.length_cons]
      omega

/-- However the dispatcher and the workers of a pool take turns, each task is in exactly one place,
there is a task for each token, nobody waits for ever, and in the end there is one result for each
task. -/
theorem tasks_conserved {ms : List Move} (hworkers : 0 < c.workers) (hcapacity : 0 < c.capacity)
    (h : (start c given).follow? c f ms = some s) :
    (∃ sent, Placed f given s sent ∧
      (given.Nodup → ∀ task ∈ given, ∃! p, task ∈ s.tasksAt sent p)) ∧
    (c.kind = .shared → s.tokens + total Worker.calls s.workers ≤ s.queue.length) ∧
    (∀ w : Nat, s.workers[w]? = some .called → s.queue ≠ []) ∧
    ms.length < stepBound c given ∧
    ((∀ m, s.step? c f m = none) → s.isFinal c = true) ∧
    (s.isFinal c = true → (s.results : Multiset ρ) = (given : Multiset τ).map f) := by
  have S₀ : Sound c f given (start c given) := .start hworkers
  have S := S₀.follow h
  obtain ⟨sent, P⟩ := Placed.start.follow S₀ h
  refine ⟨⟨sent, P, fun hnodup task ht => P.exists_unique_place hnodup ht⟩, fun _ => ?_,
    fun w hw => S.queue_ne_nil hw, ?_, fun hstuck => ?_, fun hfinal => ?_⟩
  · have hcounted := S.counted
    omega
  · have hlength := S₀.length_follow h
    have hbound : (start c given : State τ ρ).work c < stepBound c given := work_start
    omega
  · by_contra hfinal
    obtain ⟨m, _, s', hm⟩ := S.exists_step hcapacity (Bool.eq_false_iff.2 hfinal)
    rw [hstuck m] at hm
    cases hm
  · rw [Multiset.map_coe]
    exact Multiset.coe_eq_coe.2 (S.perm_of_isFinal hfinal)

/-- Two workers share a queue with a bell that holds one token. One of three tasks has been worked
on, the first worker has received the token of the second one, and the dispatcher has put the third
one into the queue and not yet rung. -/
def threeTasks : State Nat Nat where
  pending := []
  dispatcher := .ringing
  next := 0
  channels := #[[], []]
  queue := [20, 30]
  tokens := 0
  workers := #[.called, .idle]
  results := [100]

theorem tasks_conserved_threeTasks :
    (start ⟨.shared, 2, 1⟩ [10, 20, 30]).follow? ⟨.shared, 2, 1⟩ (fun n => n * n)
        [.dispatch, .dispatch, .work 1, .dispatch, .work 1, .dispatch, .dispatch, .work 0, .work 1] =
      some threeTasks ∧
    (∃ sent, Placed (fun n => n * n) [10, 20, 30] threeTasks sent ∧
      ∀ task ∈ [10, 20, 30], ∃! p, task ∈ threeTasks.tasksAt sent p) ∧
    threeTasks.tokens + total Worker.calls threeTasks.workers ≤ threeTasks.queue.length ∧
    threeTasks.queue ≠ [] := by
  have hrun : (start ⟨.shared, 2, 1⟩ [10, 20, 30]).follow? ⟨.shared, 2, 1⟩ (fun n => n * n)
      [.dispatch, .dispatch, .work 1, .dispatch, .work 1, .dispatch, .dispatch, .work 0, .work 1] =
      some threeTasks := rfl
  obtain ⟨⟨sent, P, hunique⟩, htokens, hcalled, -⟩ :=
    tasks_conserved (by decide) (by decide) hrun
  exact ⟨hrun, ⟨sent, P, hunique (by decide)⟩, htokens rfl, hcalled 0 rfl⟩

end BayesCircuit.Pool
