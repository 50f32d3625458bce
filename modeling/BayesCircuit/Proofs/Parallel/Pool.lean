import BayesCircuit.Parallel.Pool
import Mathlib.Algebra.BigOperators.Group.Multiset.Basic
import Mathlib.Algebra.Group.Action.Defs
import Mathlib.Data.Multiset.MapFold
import Mathlib.Tactic.Abel

/-!
# What comes out of a pool

No task is lost or worked on twice, whatever the order in which the dispatcher and the workers take
their steps (`Sound`), and nobody stops as long as a task may come. Steps cannot go on for ever
(`work`), and as long as somebody has not stopped, somebody can take a step (`exists_step`). So every
run ends with the results of all tasks, in some order.
-/

namespace BayesCircuit.Pool

variable {τ ρ α : Type} {c : Setup} {f : τ → ρ} {given : List τ} {s s' : State τ ρ} {w : Nat}

/-! ## Sums over arrays -/

section Total

variable {M : Type} [AddCommMonoid M]

/-- The sum of what the elements of an array are worth. -/
def total (g : α → M) (xs : Array α) : M := (xs.toList.map g).sum

theorem total_replicate (g : α → M) (n : Nat) (a : α) : total g (Array.replicate n a) = n • g a := by
  simp [total]

theorem sum_set (g : α → M) : ∀ {xs : List α} {i : Nat} {a : α} (b : α), xs[i]? = some a →
    ((xs.set i b).map g).sum + g a = (xs.map g).sum + g b
  | x :: xs, 0, a, b, h => by
      obtain rfl := Option.some.inj h
      simp only [List.set_cons_zero, List.map_cons, List.sum_cons]
      rw [add_comm (g b), add_right_comm, add_comm _ (g x)]
  | x :: xs, i + 1, a, b, h => by
      have ih := sum_set g b (show xs[i]? = some a from h)
      simp only [List.set_cons_succ, List.map_cons, List.sum_cons]
      rw [add_assoc, ih, ← add_assoc]

/-- Only the element that is replaced changes a sum. -/
theorem total_set (g : α → M) {xs : Array α} {i : Nat} {a : α} (b : α) (h : xs[i]? = some a) :
    total g (xs.setIfInBounds i b) + g a = total g xs + g b := by
  rw [total, total, Array.toList_setIfInBounds]
  exact sum_set g b (by rwa [Array.getElem?_toList])

theorem total_eq_zero (g : α → M) {xs : Array α} (h : ∀ a ∈ xs, g a = 0) : total g xs = 0 := by
  refine List.sum_eq_zero fun m hm => ?_
  obtain ⟨a, ha, rfl⟩ := List.mem_map.1 hm
  exact h a (Array.mem_toList_iff.1 ha)

end Total

/-! ## What is left to do -/

/-- The task on which a worker works. -/
def Worker.doing : Worker τ → Multiset τ
  | .busy task => {task}
  | _ => 0

/-- The task that a dispatcher holds. -/
def Dispatcher.holding : Dispatcher τ → Multiset τ
  | .offering task _ => {task}
  | .waiting task => {task}
  | _ => 0

namespace State

/-- The tasks that have not been worked on. -/
def left (s : State τ ρ) : Multiset τ :=
  s.pending + s.dispatcher.holding + total Multiset.ofList s.channels + s.queue +
    total Worker.doing s.workers

end State

/-- Whether a worker has a token for which it has not taken a task. -/
def Worker.calls : Worker τ → Nat
  | .called => 1
  | _ => 0

/-- Whether a dispatcher has put a task into the queue without a token for it. -/
def Dispatcher.rings : Dispatcher τ → Nat
  | .ringing => 1
  | _ => 0

/-- Whether a dispatcher hands tasks to single workers. -/
def Dispatcher.offers : Dispatcher τ → Bool
  | .offering _ _ => true
  | .waiting _ => true
  | _ => false

/-- What is true of a pool at all times. -/
structure Sound (c : Setup) (f : τ → ρ) (given : List τ) (s : State τ ρ) : Prop where
  channels : s.channels.size = c.workers
  workers : s.workers.size = c.workers
  next : s.next < c.workers
  /-- Nobody stops before the dispatcher has hung up. -/
  listening : s.closed = false → ∀ w, s.deaf w = false
  /-- The dispatcher hangs up when all tasks are handed out. -/
  dispatched : s.closed = true → s.pending = []
  /-- Nobody stops while there is something for it. -/
  served : ∀ w, s.deaf w = true → s.tokens = 0 ∧ s.channels.getD w [] = []
  /-- There is a token for each task of the queue. -/
  counted : s.queue.length = s.tokens + total Worker.calls s.workers + s.dispatcher.rings
  perWorker : c.kind = .perWorker → s.queue = []
  shared : c.kind = .shared → s.dispatcher.offers = false ∧ ∀ w, s.channels.getD w [] = []
  /-- The results and what is left make up all tasks. -/
  conserved : (s.results : Multiset ρ) + s.left.map f = (given : Multiset τ).map f

/-- The steps that a sound pool can take. -/
inductive Step (c : Setup) (f : τ → ρ) (s : State τ ρ) : State τ ρ → Prop
  | hangUp (hd : s.dispatcher = .ready) (hp : s.pending = []) :
      Step c f s { s with dispatcher := .finished }
  | offer {task : τ} {rest : List τ} (hd : s.dispatcher = .ready) (hp : s.pending = task :: rest)
      (hk : c.kind = .perWorker) :
      Step c f s { s with pending := rest, dispatcher := .offering task 0 }
  | enqueue {task : τ} {rest : List τ} (hd : s.dispatcher = .ready) (hp : s.pending = task :: rest)
      (hk : c.kind = .shared) :
      Step c f s { s with pending := rest, queue := s.queue ++ [task], dispatcher := .ringing }
  | giveUp {task : τ} {offset : Nat} (hd : s.dispatcher = .offering task offset) :
      Step c f s { s with dispatcher := .waiting task }
  | skip {task : τ} {offset : Nat} (hd : s.dispatcher = .offering task offset)
      (hoffset : offset < c.workers) :
      Step c f s { s with dispatcher := .offering task (offset + 1) }
  | send {task : τ} {w : Nat} (hd : s.dispatcher.holding = {task})
      (hoffers : s.dispatcher.offers = true) (hw : w < c.workers) :
      Step c f s (s.send c w task)
  | ring (hd : s.dispatcher = .ringing) :
      Step c f s { s with tokens := s.tokens + 1, dispatcher := .ready }
  | receive {task : τ} {rest : List τ} {w : Nat} (hw : s.workers[w]? = some .idle)
      (hc : s.channels.getD w [] = task :: rest) :
      Step c f s ({ s with channels := s.channels.setIfInBounds w rest }.become w (.busy task))
  | call {left w : Nat} (hw : s.workers[w]? = some .idle) (ht : s.tokens = left + 1) :
      Step c f s ({ s with tokens := left }.become w .called)
  | take {task : τ} {rest : List τ} {w : Nat} (hw : s.workers[w]? = some .called)
      (hq : s.queue = task :: rest) : Step c f s ({ s with queue := rest }.become w (.busy task))
  | finish {task : τ} {w : Nat} (hw : s.workers[w]? = some (.busy task)) :
      Step c f s ({ s with results := s.results ++ [f task] }.become w .idle)
  | stop {w : Nat} (hw : s.workers[w]? = some .idle) (hclosed : s.closed = true)
      (ht : s.tokens = 0) (hc : s.channels.getD w [] = []) : Step c f s (s.become w .stopped)

theorem deaf_iff : s.deaf w = true ↔ s.workers[w]? = some .stopped := by
  unfold State.deaf
  split
  · simp_all
  · rename_i h
    simpa using fun he => h he

theorem calls_pos (hw : s.workers[w]? = some .called) : 0 < total Worker.calls s.workers := by
  have := total_set Worker.calls .idle hw
  simp only [Worker.calls] at this
  omega

namespace Sound

theorem start (h : 0 < c.workers) : Sound c f given (start c given : State τ ρ) where
  channels := by simp [Pool.start]
  workers := by simp [Pool.start]
  next := h
  listening _ w := by
    rw [← Bool.not_eq_true, deaf_iff]
    simp [Pool.start, Array.getElem?_replicate]
  dispatched h := by simp [State.closed, Pool.start] at h
  served w h := by
    rw [deaf_iff] at h
    simp [Pool.start, Array.getElem?_replicate] at h
  counted := by simp [Pool.start, total_replicate, Worker.calls, Dispatcher.rings]
  perWorker _ := rfl
  shared _ := by
    refine ⟨rfl, fun w => ?_⟩
    simp only [Pool.start, Array.getD_eq_getD_getElem?, Array.getElem?_replicate]
    split <;> rfl
  conserved := by
    simp [Pool.start, State.left, Dispatcher.holding, total_replicate, Worker.doing]

/-- Every worker has a channel. -/
theorem lt_channels (S : Sound c f given s) {a : Worker τ} (hw : s.workers[w]? = some a) :
    w < s.channels.size := by
  obtain ⟨hlt, _⟩ := Array.getElem?_eq_some_iff.1 hw
  rw [S.channels, ← S.workers]
  exact hlt

/-- A step of the dispatcher of a sound pool. -/
theorem step_dispatch (S : Sound c f given s) (h : s.dispatch? c = some s') : Step c f s s' := by
  have hpos : 0 < c.workers := Nat.zero_lt_of_lt S.next
  have hopen : ∀ {d}, s.dispatcher = d → (∀ he : d = .finished, False) → ∀ w, s.deaf w = false := by
    intro d hd hne
    refine S.listening ?_
    unfold State.closed
    cases hdispatcher : s.dispatcher <;> simp_all
  unfold State.dispatch? at h
  split at h
  · rename_i hd
    split at h
    · rename_i hp
      cases h
      exact .hangUp hd hp
    · rename_i hp hk
      cases h
      exact .offer hd hp hk
    · rename_i hp hk
      cases h
      exact .enqueue hd hp hk
  · rename_i task offset hd
    simp only at h
    split at h
    · cases h
      exact .giveUp hd
    · rename_i hoffset
      split at h
      · cases h
        exact .skip hd (by omega)
      · cases h
        exact .send (by simp [hd, Dispatcher.holding]) (by simp [hd, Dispatcher.offers])
          (Nat.mod_lt _ hpos)
  · rename_i task hd
    rw [hopen hd (by simp)] at h
    simp only [Bool.false_eq_true, if_false] at h
    split at h
    · cases h
    · cases h
      exact .send (by simp [hd, Dispatcher.holding]) (by simp [hd, Dispatcher.offers]) S.next
  · rename_i hd
    have hlistens : (List.range c.workers).all s.deaf = false := by
      rw [List.all_eq_false]
      exact ⟨0, List.mem_range.2 hpos, by simp [hopen hd]⟩
    rw [hlistens] at h
    simp only [Bool.false_eq_true, if_false] at h
    split at h
    · cases h
    · cases h
      exact .ring hd
  · cases h

/-- A step of a worker of a sound pool. -/
theorem step_work (S : Sound c f given s) (h : s.work? c f w = some s') : Step c f s s' := by
  unfold State.work? at h
  split at h
  · rename_i hw
    unfold State.receive? at h
    split at h
    · rename_i hk
      split at h
      · rename_i task rest hc
        cases h
        exact .receive hw hc
      · rename_i hc
        split at h
        · rename_i hclosed
          cases h
          have hcounted := S.counted
          rw [S.perWorker hk, List.length_nil] at hcounted
          exact .stop hw hclosed (by omega) hc
        · cases h
    · rename_i hk
      split at h
      · rename_i left ht
        cases h
        exact .call hw ht
      · rename_i ht
        split at h
        · rename_i hclosed
          cases h
          exact .stop hw hclosed ht ((S.shared hk).2 w)
        · cases h
  · rename_i hw
    split at h
    · rename_i task rest hq
      cases h
      exact .take hw hq
    · rename_i hq
      have hcounted := S.counted
      have hcalls := calls_pos hw
      rw [hq, List.length_nil] at hcounted
      omega
  · rename_i task hw
    cases h
    exact .finish hw
  · cases h

theorem step_of (S : Sound c f given s) {m : Move} (h : s.step? c f m = some s') :
    Step c f s s' := by
  cases m with
  | dispatch => exact S.step_dispatch h
  | work w => exact S.step_work h

end Sound

/-! ## What a step preserves -/

section Become

variable {M : Type} [AddCommMonoid M] {a b : Worker τ}

@[simp] theorem become_pending : (s.become w b).pending = s.pending := rfl

@[simp] theorem become_dispatcher : (s.become w b).dispatcher = s.dispatcher := rfl

@[simp] theorem become_closed : (s.become w b).closed = s.closed := rfl

@[simp] theorem become_next : (s.become w b).next = s.next := rfl

@[simp] theorem become_channels : (s.become w b).channels = s.channels := rfl

@[simp] theorem become_queue : (s.become w b).queue = s.queue := rfl

@[simp] theorem become_tokens : (s.become w b).tokens = s.tokens := rfl

@[simp] theorem become_results : (s.become w b).results = s.results := rfl

@[simp] theorem size_become : (s.become w b).workers.size = s.workers.size := by
  simp [State.become]

theorem total_become (g : Worker τ → M) (hw : s.workers[w]? = some a) :
    total g (s.become w b).workers + g a = total g s.workers + g b := total_set g b hw

/-- A worker that has stopped does not become anything else. -/
theorem deaf_become {v : Nat} (hw : s.workers[w]? = some a) (ha : a ≠ .stopped) (hb : b ≠ .stopped) :
    (s.become w b).deaf v = s.deaf v := by
  rw [Bool.eq_iff_iff, deaf_iff, deaf_iff, State.become, Array.getElem?_setIfInBounds]
  split
  · rename_i hv
    subst hv
    simp [hw, ha, hb]
  · rfl

end Become

theorem getD_setIfInBounds {xs : Array (List τ)} {i j : Nat} {ts : List τ} (hi : i < xs.size) :
    (xs.setIfInBounds i ts).getD j [] = if i = j then ts else xs.getD j [] := by
  simp only [Array.getD_eq_getD_getElem?, Array.getElem?_setIfInBounds, hi, if_true]
  split <;> rfl

theorem getElem?_channel {xs : Array (List τ)} (hw : w < xs.size) :
    xs[w]? = some (xs.getD w []) := by
  simp [hw]

theorem modify_eq {xs : Array (List τ)} {task : τ} (hw : w < xs.size) :
    xs.modify w (· ++ [task]) = xs.setIfInBounds w (xs.getD w [] ++ [task]) := by
  refine Array.ext_getElem? fun j => ?_
  rw [Array.getElem?_modify, Array.getElem?_setIfInBounds]
  split
  · rename_i hj
    subst hj
    simp [hw]
  · rfl

/-- A step finishes one task, or leaves as much to do as there was. -/
theorem Step.left (S : Sound c f given s) (h : Step c f s s') :
    s'.left = s.left ∧ s'.results = s.results ∨
      ∃ task, s.left = s'.left + {task} ∧ s'.results = s.results ++ [f task] := by
  have hbecome : ∀ {s : State τ ρ} {w : Nat} {a b : Worker τ}, s.workers[w]? = some a →
      a.doing = 0 → total Worker.doing (s.become w b).workers =
        total Worker.doing s.workers + b.doing := by
    intro s w a b hw ha
    simpa only [ha, add_zero] using total_become Worker.doing hw
  cases h with
  | hangUp hd hp => simp [State.left, hd, Dispatcher.holding]
  | offer hd hp hk =>
      refine Or.inl ⟨?_, rfl⟩
      simp only [State.left, hd, hp, Dispatcher.holding, ← Multiset.cons_coe,
        ← Multiset.singleton_add]
      abel
  | enqueue hd hp hk =>
      refine Or.inl ⟨?_, rfl⟩
      simp only [State.left, hd, hp, Dispatcher.holding, ← Multiset.coe_add, ← Multiset.cons_coe,
        ← Multiset.singleton_add, Multiset.coe_nil]
      abel
  | giveUp hd => simp [State.left, hd, Dispatcher.holding]
  | skip hd hoffset => simp [State.left, hd, Dispatcher.holding]
  | @send task w hd hoffers hw =>
      rw [← S.channels] at hw
      refine Or.inl ⟨?_, rfl⟩
      have htotal := total_set Multiset.ofList (s.channels.getD w [] ++ [task]) (getElem?_channel hw)
      rw [← modify_eq hw, ← Multiset.coe_add, ← add_assoc, add_right_comm] at htotal
      have htotal := add_right_cancel htotal
      simp only [State.left, State.send, htotal, hd]
      simp only [Dispatcher.holding, Multiset.coe_singleton]
      abel
  | ring hd => simp [State.left, hd, Dispatcher.holding]
  | @receive task rest w hw hc =>
      refine Or.inl ⟨?_, rfl⟩
      have hchannel := total_set Multiset.ofList rest (getElem?_channel (S.lt_channels hw))
      rw [hc, ← Multiset.cons_coe, ← Multiset.singleton_add, ← add_assoc] at hchannel
      have hchannel := add_right_cancel hchannel
      simp only [State.left, become_pending, become_dispatcher, become_channels, become_queue,
        hbecome (s := { s with channels := s.channels.setIfInBounds w rest }) (b := .busy task) hw
          rfl, Worker.doing, ← hchannel]
      abel
  | @call left w hw ht =>
      refine Or.inl ⟨?_, rfl⟩
      simp only [State.left, become_pending, become_dispatcher, become_channels, become_queue,
        hbecome (s := { s with tokens := left }) (b := .called) hw rfl, Worker.doing, add_zero]
  | @take task rest w hw hq =>
      refine Or.inl ⟨?_, rfl⟩
      simp only [State.left, become_pending, become_dispatcher, become_channels, become_queue, hq,
        hbecome (s := { s with queue := rest }) (b := .busy task) hw rfl, Worker.doing,
        ← Multiset.cons_coe, ← Multiset.singleton_add]
      abel
  | @finish task w hw =>
      refine Or.inr ⟨task, ?_, rfl⟩
      have htotal := total_become (s := { s with results := s.results ++ [f task] })
        (b := .idle) Worker.doing hw
      simp only [Worker.doing, add_zero] at htotal
      simp only [State.left, become_pending, become_dispatcher, become_channels, become_queue,
        ← htotal]
      abel
  | stop hw hclosed ht hc =>
      refine Or.inl ⟨?_, rfl⟩
      simp only [State.left, become_pending, become_dispatcher, become_channels, become_queue,
        hbecome hw (b := .stopped) rfl, Worker.doing, add_zero]

theorem closed_eq_false (hd : s.dispatcher ≠ .finished) : s.closed = false := by
  unfold State.closed
  split
  · contradiction
  · rfl

/-- A step of a sound pool leads to a sound one. -/
theorem Sound.step (S : Sound c f given s) (h : Step c f s s') : Sound c f given s' := by
  have hconserved : (s'.results : Multiset ρ) + s'.left.map f = (given : Multiset τ).map f := by
    rw [← S.conserved]
    rcases h.left S with ⟨hleft, hresults⟩ | ⟨task, hleft, hresults⟩
    · rw [hleft, hresults]
    · rw [hleft, hresults, Multiset.map_add, Multiset.map_singleton, ← Multiset.coe_add,
        Multiset.coe_singleton]
      abel
  have hopen : s.dispatcher ≠ .finished → ∀ w, s.deaf w = false := fun hd =>
    S.listening (closed_eq_false hd)
  have hoffers : c.kind = .shared → s.dispatcher.offers = true → False := fun hk ho => by
    simp [(S.shared hk).1] at ho
  have hcounted := S.counted
  cases h with
  | hangUp hd hp =>
      exact { S with
        listening := fun h => by simp [State.closed] at h
        dispatched := fun _ => hp
        counted := by rwa [hd] at hcounted
        shared := fun hk => ⟨rfl, (S.shared hk).2⟩
        conserved := hconserved }
  | offer hd hp hk =>
      exact { S with
        listening := fun _ => hopen (by simp [hd])
        dispatched := fun h => by simp [State.closed] at h
        counted := by rwa [hd] at hcounted
        shared := fun hk' => by simp [hk] at hk'
        conserved := hconserved }
  | enqueue hd hp hk =>
      exact { S with
        listening := fun _ => hopen (by simp [hd])
        dispatched := fun h => by simp [State.closed] at h
        counted := by
          rw [hd] at hcounted
          simpa [Dispatcher.rings] using hcounted
        perWorker := fun hk' => by simp [hk] at hk'
        shared := fun hk => ⟨rfl, (S.shared hk).2⟩
        conserved := hconserved }
  | giveUp hd =>
      exact { S with
        listening := fun _ => hopen (by simp [hd])
        dispatched := fun h => by simp [State.closed] at h
        counted := by rwa [hd] at hcounted
        shared := fun hk => (hoffers hk (by rw [hd]; rfl)).elim
        conserved := hconserved }
  | skip hd hoffset =>
      exact { S with
        listening := fun _ => hopen (by simp [hd])
        dispatched := fun h => by simp [State.closed] at h
        counted := by rwa [hd] at hcounted
        shared := fun hk => (hoffers hk (by rw [hd]; rfl)).elim
        conserved := hconserved }
  | @send task w hd hoffer hw =>
      have hnot : s.dispatcher ≠ .finished := fun he => by simp [he, Dispatcher.offers] at hoffer
      have hrings : s.dispatcher.rings = 0 := by
        unfold Dispatcher.rings
        split
        · rename_i he
          simp [he, Dispatcher.offers] at hoffer
        · rfl
      exact { S with
        channels := by simpa [State.send] using S.channels
        next := Nat.mod_lt _ (Nat.zero_lt_of_lt hw)
        listening := fun _ => hopen hnot
        dispatched := fun h => by simp [State.closed, State.send] at h
        served := fun v hv => (Bool.false_ne_true ((hopen hnot v).symm.trans hv)).elim
        counted := by rwa [hrings] at hcounted
        shared := fun hk => (hoffers hk hoffer).elim
        conserved := hconserved }
  | ring hd =>
      have hnot : s.dispatcher ≠ .finished := fun he => by simp [he] at hd
      exact { S with
        listening := fun _ => hopen hnot
        dispatched := fun h => by simp [State.closed] at h
        served := fun v hv => (Bool.false_ne_true ((hopen hnot v).symm.trans hv)).elim
        counted := by
          rw [hd] at hcounted
          simp only [Dispatcher.rings] at hcounted ⊢
          omega
        shared := fun hk => ⟨rfl, (S.shared hk).2⟩
        conserved := hconserved }
  | @receive task rest w hw hc =>
      have hdeaf : ∀ v, (({ s with channels := s.channels.setIfInBounds w rest } :
          State τ ρ).become w (.busy task)).deaf v = s.deaf v := fun v =>
        deaf_become hw (by simp) (by simp)
      have hcalls := total_become (s := { s with channels := s.channels.setIfInBounds w rest })
        (b := .busy task) Worker.calls hw
      have hwait : ∀ {v}, s.channels.getD v [] = [] →
          (s.channels.setIfInBounds w rest).getD v [] = [] := by
        intro v hv
        rw [getD_setIfInBounds (S.lt_channels hw), if_neg]
        · exact hv
        · rintro rfl
          simp [hc] at hv
      exact { S with
        channels := by simpa using S.channels
        workers := by simpa using S.workers
        listening := fun h v => (hdeaf v).trans (S.listening h v)
        served := fun v hv => by
          obtain ⟨ht, hempty⟩ := S.served v ((hdeaf v).symm.trans hv)
          exact ⟨ht, hwait hempty⟩
        counted := by
          simp only [Worker.calls, add_zero] at hcalls
          rw [hcalls]
          exact hcounted
        shared := fun hk => ⟨(S.shared hk).1, fun v => hwait ((S.shared hk).2 v)⟩
        conserved := hconserved }
  | @call left w hw ht =>
      have hdeaf : ∀ v, (({ s with tokens := left } : State τ ρ).become w .called).deaf v =
          s.deaf v := fun v => deaf_become hw (by simp) (by simp)
      have hcalls := total_become (s := { s with tokens := left }) (b := .called) Worker.calls hw
      simp only [Worker.calls, add_zero] at hcalls
      exact { S with
        workers := by simpa using S.workers
        listening := fun h v => (hdeaf v).trans (S.listening h v)
        served := fun v hv => by
          have hnone := (S.served v ((hdeaf v).symm.trans hv)).1
          omega
        counted := by
          rw [hcalls]
          simp only [become_queue, become_tokens, become_dispatcher]
          omega
        conserved := hconserved }
  | @take task rest w hw hq =>
      have hdeaf : ∀ v, (({ s with queue := rest } : State τ ρ).become w (.busy task)).deaf v =
          s.deaf v := fun v => deaf_become hw (by simp) (by simp)
      have hcalls := total_become (s := { s with queue := rest }) (b := .busy task) Worker.calls hw
      simp only [Worker.calls, add_zero] at hcalls
      rw [hq, List.length_cons] at hcounted
      exact { S with
        workers := by simpa using S.workers
        listening := fun h v => (hdeaf v).trans (S.listening h v)
        served := fun v hv => S.served v ((hdeaf v).symm.trans hv)
        counted := by
          simp only [become_queue, become_tokens, become_dispatcher]
          omega
        perWorker := fun hk => by simp [S.perWorker hk] at hq
        conserved := hconserved }
  | @finish task w hw =>
      have hdeaf : ∀ v, (({ s with results := s.results ++ [f task] } : State τ ρ).become w
          .idle).deaf v = s.deaf v := fun v => deaf_become hw (by simp) (by simp)
      have hcalls := total_become (s := { s with results := s.results ++ [f task] }) (b := .idle)
        Worker.calls hw
      simp only [Worker.calls, add_zero] at hcalls
      exact { S with
        workers := by simpa using S.workers
        listening := fun h v => (hdeaf v).trans (S.listening h v)
        served := fun v hv => S.served v ((hdeaf v).symm.trans hv)
        counted := by
          rw [hcalls]
          exact hcounted
        conserved := hconserved }
  | @stop w hw hclosed ht hc =>
      have hcalls := total_become (b := .stopped) Worker.calls hw
      simp only [Worker.calls, add_zero] at hcalls
      exact { S with
        workers := by simpa using S.workers
        listening := fun h => by simp [hclosed] at h
        served := fun v hv => by
          by_cases hvw : w = v
          · subst hvw
            exact ⟨ht, hc⟩
          · refine S.served v (deaf_iff.2 ?_)
            rw [deaf_iff, State.become, Array.getElem?_setIfInBounds, if_neg hvw] at hv
            exact hv
        counted := by
          rw [hcalls]
          exact hcounted
        conserved := hconserved }

/-! ## Steps come to an end -/

/-- How many more steps a worker can take for what it has begun. -/
def Worker.work : Worker τ → Nat
  | .idle => 1
  | .called => 3
  | .busy _ => 2
  | .stopped => 0

/-- How many more steps can be taken for what a dispatcher has begun. -/
def Dispatcher.work (workers : Nat) : Dispatcher τ → Nat
  | .ready => 1
  | .offering _ offset => workers - offset + 5
  | .waiting _ => 4
  | .ringing => 5
  | .finished => 0

/-- A bound on the number of steps that can be taken. -/
def State.work (c : Setup) (s : State τ ρ) : Nat :=
  s.pending.length * (c.workers + 6) + s.dispatcher.work c.workers +
    total (fun ts => 2 * ts.length) s.channels + 3 * s.tokens + total Worker.work s.workers

theorem work_start : (start c given : State τ ρ).work c < stepBound c given := by
  simp only [State.work, Pool.start, Dispatcher.work, total_replicate, Worker.work, stepBound,
    List.length_nil, smul_eq_mul]
  omega

/-- Each step brings the end nearer. -/
theorem Step.work_lt (S : Sound c f given s) (h : Step c f s s') : s'.work c < s.work c := by
  cases h with
  | hangUp hd hp => simp [State.work, hd, Dispatcher.work]
  | offer hd hp hk =>
      simp only [State.work, hd, hp, Dispatcher.work, List.length_cons, Nat.succ_mul]
      omega
  | enqueue hd hp hk =>
      simp only [State.work, hd, hp, Dispatcher.work, List.length_cons, Nat.succ_mul]
      omega
  | giveUp hd =>
      simp only [State.work, hd, Dispatcher.work]
      omega
  | skip hd hoffset =>
      simp only [State.work, hd, Dispatcher.work]
      omega
  | @send task w hd hoffer hw =>
      have hholds : 4 ≤ s.dispatcher.work c.workers := by
        unfold Dispatcher.work
        split <;> simp_all [Dispatcher.offers]
      have htotal : total (fun ts => 2 * ts.length) (s.channels.modify w (· ++ [task])) =
          total (fun ts => 2 * ts.length) s.channels + 2 := by
        have htotal := total_set (fun ts => 2 * ts.length) (s.channels.getD w [] ++ [task])
          (getElem?_channel (S.channels ▸ hw))
        rw [modify_eq (S.channels ▸ hw)]
        simp only [List.length_append, List.length_singleton] at htotal
        omega
      have hready : (.ready : Dispatcher τ).work c.workers = 1 := rfl
      simp only [State.work, State.send, hready, htotal]
      omega
  | ring hd =>
      simp only [State.work, hd, Dispatcher.work]
      omega
  | @receive task rest w hw hc =>
      have hworkers := total_become (s := { s with channels := s.channels.setIfInBounds w rest })
        (b := .busy task) Worker.work hw
      have hchannels := total_set (fun ts => 2 * ts.length) rest (getElem?_channel (S.lt_channels hw))
      simp only [Worker.work, hc, List.length_cons] at hworkers hchannels
      simp only [State.work, become_pending, become_dispatcher, become_channels, become_tokens]
      omega
  | @call left w hw ht =>
      have hworkers := total_become (s := { s with tokens := left }) (b := .called) Worker.work hw
      simp only [Worker.work] at hworkers
      simp only [State.work, become_pending, become_dispatcher, become_channels, become_tokens, ht]
      omega
  | @take task rest w hw hq =>
      have hworkers := total_become (s := { s with queue := rest }) (b := .busy task) Worker.work hw
      simp only [Worker.work] at hworkers
      simp only [State.work, become_pending, become_dispatcher, become_channels, become_tokens]
      omega
  | @finish task w hw =>
      have hworkers := total_become (s := { s with results := s.results ++ [f task] }) (b := .idle)
        Worker.work hw
      simp only [Worker.work] at hworkers
      simp only [State.work, become_pending, become_dispatcher, become_channels, become_tokens]
      omega
  | @stop w hw hclosed ht hc =>
      have hworkers := total_become (b := .stopped) Worker.work hw
      simp only [Worker.work] at hworkers
      simp only [State.work, become_pending, become_dispatcher, become_channels, become_tokens]
      omega

theorem mem_moves {m : Move} :
    m ∈ moves c ↔ m = .dispatch ∨ ∃ w < c.workers, m = .work w := by
  simp [moves, eq_comm]

/-- A worker that has not stopped can take a step, unless it waits in vain. -/
theorem Sound.exists_work (S : Sound c f given s) (hw : w < c.workers) (hdeaf : s.deaf w = false)
    (hidle : (s.receive? c w).isSome = true) : ∃ m ∈ moves c, ∃ s', s.step? c f m = some s' := by
  refine ⟨.work w, mem_moves.2 (Or.inr ⟨w, hw, rfl⟩), Option.isSome_iff_exists.1 ?_⟩
  obtain ⟨worker, hget⟩ : ∃ worker, s.workers[w]? = some worker :=
    ⟨_, Array.getElem?_eq_getElem (S.workers ▸ hw)⟩
  rw [State.step?, State.work?, hget]
  split
  · exact hidle
  · split <;> rfl
  · rfl
  · rename_i hidle hcalled hbusy
    have hstopped : s.workers[w]? = some .stopped := by
      rw [hget]
      cases worker <;> simp_all
    rw [← deaf_iff, hdeaf] at hstopped
    cases hstopped

/-- As long as somebody has not stopped, somebody can take a step. -/
theorem Sound.exists_step (S : Sound c f given s) (hcapacity : 0 < c.capacity)
    (h : s.isFinal c = false) : ∃ m ∈ moves c, ∃ s', s.step? c f m = some s' := by
  have hdispatch : (s.dispatch? c).isSome = true → ∃ m ∈ moves c, ∃ s', s.step? c f m = some s' :=
    fun hd => ⟨.dispatch, mem_moves.2 (Or.inl rfl), Option.isSome_iff_exists.1 hd⟩
  have hkind : c.kind = .perWorker ∨ c.kind = .shared := by
    cases c.kind <;> simp
  cases hd : s.dispatcher with
  | ready =>
      refine hdispatch ?_
      simp only [State.dispatch?, hd]
      split <;> rfl
  | offering task offset =>
      refine hdispatch ?_
      simp only [State.dispatch?, hd]
      split
      · rfl
      · split <;> rfl
  | waiting task =>
      have hlistens := S.listening (closed_eq_false (by simp [hd])) s.next
      by_cases hfull : s.full c s.next = true
      · refine S.exists_work S.next hlistens ?_
        rcases hkind with hk | hk
        · simp only [State.full, decide_eq_true_eq] at hfull
          obtain ⟨task, rest, hc⟩ := List.exists_cons_of_length_pos (by omega : 0 <
            (s.channels.getD s.next []).length)
          simp [State.receive?, hk, hc]
        · have := (S.shared hk).1
          simp [hd, Dispatcher.offers] at this
      · refine hdispatch ?_
        simp [State.dispatch?, hd, hlistens, hfull]
  | ringing =>
      have hlistens := S.listening (closed_eq_false (by simp [hd]))
      by_cases hfull : c.capacity ≤ s.tokens
      · refine S.exists_work S.next (hlistens _) ?_
        rcases hkind with hk | hk
        · have hcounted := S.counted
          simp only [S.perWorker hk, hd, Dispatcher.rings, List.length_nil] at hcounted
          omega
        · obtain ⟨left, ht⟩ := Nat.exists_eq_add_one.2 (by omega : 0 < s.tokens)
          simp [State.receive?, hk, ht]
      · refine hdispatch ?_
        simp only [State.dispatch?, hd, hfull, if_false]
        split <;> rfl
  | finished =>
      have hclosed : s.closed = true := by simp [State.closed, hd]
      rw [State.isFinal, hclosed, Bool.true_and, List.all_eq_false] at h
      obtain ⟨w, hw, hdeaf⟩ := h
      refine S.exists_work (List.mem_range.1 hw) (Bool.eq_false_iff.2 hdeaf) ?_
      unfold State.receive?
      split
      · split
        · rfl
        · simp [hclosed]
      · split
        · rfl
        · simp [hclosed]

/-- When everybody has stopped, there is nothing left to do. -/
theorem Sound.perm_of_isFinal (S : Sound c f given s) (h : s.isFinal c = true) :
    s.results.Perm (given.map f) := by
  rw [State.isFinal, Bool.and_eq_true, List.all_eq_true] at h
  obtain ⟨hclosed, hdeaf⟩ := h
  have hstopped : ∀ a ∈ s.workers, a = .stopped := by
    intro a ha
    obtain ⟨w, hw, rfl⟩ := Array.mem_iff_getElem.1 ha
    have := deaf_iff.1 (hdeaf w (List.mem_range.2 (S.workers ▸ hw)))
    rwa [Array.getElem?_eq_getElem hw, Option.some_inj] at this
  have hempty : ∀ ts ∈ s.channels, ts = [] := by
    intro ts hts
    obtain ⟨w, hw, rfl⟩ := Array.mem_iff_getElem.1 hts
    have := (S.served w (hdeaf w (List.mem_range.2 (S.channels ▸ hw)))).2
    simpa [hw] using this
  have hd : s.dispatcher = .finished := by
    unfold State.closed at hclosed
    split at hclosed
    · assumption
    · cases hclosed
  have hcalls : total Worker.calls s.workers = 0 :=
    total_eq_zero _ fun a ha => by rw [hstopped a ha]; rfl
  have htokens := (S.served 0 (hdeaf 0 (List.mem_range.2 (Nat.zero_lt_of_lt S.next)))).1
  have hqueue : s.queue = [] := by
    have hcounted := S.counted
    rw [hcalls, htokens, hd] at hcounted
    exact List.length_eq_zero_iff.1 hcounted
  have hleft : s.left = 0 := by
    have hchannels : total Multiset.ofList s.channels = 0 :=
      total_eq_zero _ fun ts hts => by rw [hempty ts hts]; rfl
    have hworkers : total Worker.doing s.workers = 0 :=
      total_eq_zero _ fun a ha => by rw [hstopped a ha]; rfl
    simp [State.left, S.dispatched hclosed, hd, Dispatcher.holding, hchannels, hqueue, hworkers]
  have hconserved := S.conserved
  rw [hleft, Multiset.map_zero, add_zero, Multiset.map_coe] at hconserved
  exact Multiset.coe_eq_coe.1 hconserved

/-! ## Runs -/

theorem Sound.follow : ∀ {ms : List Move} {s : State τ ρ}, Sound c f given s →
    s.follow? c f ms = some s' → Sound c f given s'
  | [], s, S, h => by
      cases h
      exact S
  | m :: ms, s, S, h => by
      rw [State.follow?] at h
      obtain ⟨s₁, hstep, h⟩ := Option.bind_eq_some_iff.1 h
      exact Sound.follow (S.step (S.step_of hstep)) h

/-- However the steps are taken, a pool stops with the results of all tasks. -/
theorem perm_follow {ms : List Move} (hworkers : 0 < c.workers)
    (h : (start c given).follow? c f ms = some s) (hfinal : s.isFinal c = true) :
    s.results.Perm (given.map f) :=
  ((Sound.start hworkers).follow h).perm_of_isFinal hfinal

/-- A run goes on until everybody has stopped. -/
theorem Sound.runFrom (hcapacity : 0 < c.capacity) : ∀ {fuel : Nat} {s : State τ ρ},
    Sound c f given s → s.work c < fuel →
    Sound c f given (runFrom c f fuel s) ∧ (runFrom c f fuel s).isFinal c = true
  | 0, _, _, h => absurd h (Nat.not_lt_zero _)
  | fuel + 1, s, S, h => by
      rw [Pool.runFrom]
      cases hstep : (moves c).findSome? (s.step? c f) with
      | none =>
          refine ⟨S, ?_⟩
          by_contra hfinal
          obtain ⟨m, hm, s', hs'⟩ := S.exists_step hcapacity (Bool.eq_false_iff.2 hfinal)
          have := List.findSome?_eq_none_iff.1 hstep m hm
          rw [hs'] at this
          cases this
      | some s' =>
          obtain ⟨m, _, hm⟩ := List.exists_of_findSome?_eq_some hstep
          have hs := S.step_of hm
          exact Sound.runFrom hcapacity (S.step hs) (by have := hs.work_lt S; omega)

/-- A run ends with the results of all tasks. -/
theorem perm_run (hworkers : 0 < c.workers) (hcapacity : 0 < c.capacity) :
    (run c f given).Perm (given.map f) := by
  obtain ⟨S, hfinal⟩ := Sound.runFrom hcapacity (Sound.start (f := f) hworkers) work_start
  exact S.perm_of_isFinal hfinal

end BayesCircuit.Pool
