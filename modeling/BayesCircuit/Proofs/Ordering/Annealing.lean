import BayesCircuit.Proofs.Ordering.Valid

/-!
# Annealing never worsens an ordering

A walk knows the energy of the ordering that it has reached and that of the best one it has met
(`Walk.Exact`): a step that is taken back returns to the ordering before it, and the best ordering is
noted before it is decided whether the step counts. If energies are compared by a linear order, the
energy of the best ordering never rises.

So whatever is drawn, whatever a step is accepted for and whenever the clock stops a walk, a walk
returns an ordering with its energy, and a search, which starts each of its runs from the best
ordering so far, returns a rearrangement that is no worse than what it was given.
-/

namespace BayesCircuit.Ordering.Annealing

open scoped List

variable {κ σ ε : Type} {look : StateM κ Bool} {p : Annealing} {d : Draws σ} {l : Landscape ε}
variable {w : Walk σ ε} {o start : List Variable} {heat : Float}

/-- Exchanging two elements again puts them back. -/
theorem exchange_exchange {xs : Array Variable} {i j : Nat} :
    exchange (exchange xs i j) i j = xs := by
  unfold exchange
  by_cases hi : i < xs.size
  · by_cases hj : j < xs.size
    · rw [Array.swapIfInBounds_def, Array.swapIfInBounds_def]
      simp [hi, hj]
    · simp [Array.swapIfInBounds_def, hj]
  · simp [Array.swapIfInBounds_def, hi]

/-! ## Energies that are known -/

/-- A walk knows the energies of its ordering and of the best one. -/
structure Walk.Exact (l : Landscape ε) (w : Walk σ ε) : Prop where
  energy : w.energy = l.energy w.ordering.toList
  best : w.bestEnergy = l.energy w.best.toList

namespace Walk.Exact

theorem step (W : w.Exact l) : (w.step d l heat).Exact l := by
  rw [Walk.step]
  generalize positions d w.ordering.size w.draws = drawn
  obtain ⟨i, j, s⟩ := drawn
  have hbest : (if l.le (l.energy (exchange w.ordering i j).toList) w.bestEnergy
      then (exchange w.ordering i j, l.energy (exchange w.ordering i j).toList)
      else (w.best, w.bestEnergy)).2 =
    l.energy (if l.le (l.energy (exchange w.ordering i j).toList) w.bestEnergy
      then (exchange w.ordering i j, l.energy (exchange w.ordering i j).toList)
      else (w.best, w.bestEnergy)).1.toList := by
    split
    · rfl
    · exact W.best
  simp only []
  split
  · exact ⟨rfl, hbest⟩
  · split
    · exact ⟨rfl, hbest⟩
    · -- the step is taken back
      refine ⟨?_, hbest⟩
      rw [exchange_exchange]
      exact W.energy

theorem steps : ∀ {n : Nat} {w : Walk σ ε}, w.Exact l → (Walk.steps d l heat n w).Exact l
  | 0, _, W => W
  | _ + 1, _, W => W.step.steps

end Walk.Exact

theorem cool_exact : ∀ {n : Nat} {heat : Float} {w : Walk σ ε}, w.Exact l →
    Always (Timed.cool look p d l n heat w) (Walk.Exact l)
  | 0, _, _, W => .pure W
  | n + 1, heat, w, W => by
      rw [Timed.cool]
      refine .ite (fun _ => .step fun expired => ?_) fun _ => .pure W
      exact .ite (fun _ => .pure W) fun _ => cool_exact W.steps

/-- A walk returns an ordering with its energy. -/
theorem walk_exact {seed : Nat} :
    Always (Timed.walk look p d l o seed) fun r => r.2 = l.energy r.1 := by
  rw [Timed.walk]
  exact (cool_exact ⟨rfl, rfl⟩).bind fun _ W => .pure W.best

theorem walks_exact {base : Nat} : ∀ {n : Nat},
    Always (Timed.walks look p d l o base n) fun r => r.2 = l.energy r.1
  | 0 => walk_exact
  | n + 1 => by
      rw [Timed.walks]
      refine walks_exact.bind fun first hfirst => walk_exact.bind fun next hnext => .pure ?_
      split
      · exact hnext
      · exact hfirst

/-! ## Energies in a linear order -/

variable [LinearOrder ε] {energy : List Variable → ε} {greatest : ε}
variable {acceptance : Float → ε → ε → Float}

/-- Energies that are compared as a linear order says. What a step is accepted for is up to the
caller. -/
def Landscape.ofOrder (energy : List Variable → ε) (greatest : ε)
    (acceptance : Float → ε → ε → Float) : Landscape ε where
  energy
  greatest
  lt a b := decide (a < b)
  le a b := decide (a ≤ b)
  same a b := decide (a = b)
  acceptance

theorem Walk.bestEnergy_step_le :
    (w.step d (.ofOrder energy greatest acceptance) heat).bestEnergy ≤ w.bestEnergy := by
  rw [Walk.step]
  generalize positions d w.ordering.size w.draws = drawn
  obtain ⟨i, j, s⟩ := drawn
  generalize hx : exchange w.ordering i j = x
  have hbest : (if energy x.toList ≤ w.bestEnergy then (x, energy x.toList)
      else (w.best, w.bestEnergy)).2 ≤ w.bestEnergy := by
    split
    · rename_i hle
      exact hle
    · exact le_refl _
  simp only [hx, Landscape.ofOrder, decide_eq_true_eq]
  split
  · exact hbest
  · split
    · exact hbest
    · exact hbest

theorem Walk.bestEnergy_steps_le : ∀ {n : Nat} {w : Walk σ ε},
    (Walk.steps d (.ofOrder energy greatest acceptance) heat n w).bestEnergy ≤ w.bestEnergy
  | 0, _ => le_refl _
  | n + 1, w => by
      rw [Walk.steps]
      exact bestEnergy_steps_le.trans bestEnergy_step_le

theorem cool_le {e : ε} : ∀ {n : Nat} {heat : Float} {w : Walk σ ε}, w.bestEnergy ≤ e →
    Always (Timed.cool look p d (.ofOrder energy greatest acceptance) n heat w) (·.bestEnergy ≤ e)
  | 0, _, _, hw => .pure hw
  | n + 1, heat, w, hw => by
      rw [Timed.cool]
      refine .ite (fun _ => .step fun expired => ?_) fun _ => .pure hw
      exact .ite (fun _ => .pure hw) fun _ => cool_le (Walk.bestEnergy_steps_le.trans hw)

/-- The energy that a walk returns is at most that of the first ordering. -/
theorem walk_le {seed : Nat} :
    Always (Timed.walk look p d (.ofOrder energy greatest acceptance) o seed) (·.2 ≤ energy o) := by
  rw [Timed.walk]
  exact (cool_le (le_refl _)).bind fun _ hw => .pure hw

theorem runFrom_le {workers : Nat} {e : ε} : ∀ {fuel run : Nat} {o : List Variable}
    {stable : ε × Nat}, energy o ≤ e →
    Always (Timed.runFrom look p d (.ofOrder energy greatest acceptance) workers fuel run o stable)
      (energy · ≤ e)
  | 0, _, _, _, ho => .pure ho
  | fuel + 1, run, o, stable, ho => by
      rw [Timed.runFrom]
      refine walks_exact.bind fun found hfound => ?_
      have hnext : energy (if (Landscape.ofOrder energy greatest acceptance).le found.2
          ((Landscape.ofOrder energy greatest acceptance).energy o) then found.1 else o) ≤ e := by
        split
        · -- the energy that was compared is that of what was found
          rename_i hle
          have hle : found.2 ≤ energy o := of_decide_eq_true hle
          have hfound : found.2 = energy found.1 := hfound
          exact (hfound ▸ hle).trans ho
        · exact ho
      refine .ite (fun _ => .pure hnext) fun _ => .step fun expired => ?_
      exact .ite (fun _ => .pure hnext) fun _ => runFrom_le hnext

theorem search_le {processors : Nat} :
    Always (Timed.search look p d (.ofOrder energy greatest acceptance) processors o)
      (energy · ≤ energy o) := by
  rw [Timed.search]
  exact .ite (fun _ => .pure (le_refl _)) fun _ => runFrom_le (le_refl _)

/-- Annealing never worsens an ordering. With energies in a linear order, whatever is drawn,
whatever steps are accepted and whatever the looks at the clock say, a search with any number of runs
and of walks side by side returns a rearrangement of the ordering whose energy is at most that of the
ordering. A walk returns a rearrangement with exactly its energy, which is no more than that of the
ordering either, after any number of temperatures. -/
theorem search_never_worsens (p : Annealing) (b : Bound) (energy : Bound → List Variable → ε)
    (greatest : ε) (acceptance : Float → ε → ε → Float) (processors : Nat) (o : List Variable) :
    (∀ {κ σ : Type} (look : StateM κ Bool) (d : Draws σ),
      Always (Timed.search look p d (.ofOrder (energy b) greatest acceptance) processors o)
        (fun o' => o' ~ o ∧ energy b o' ≤ energy b o) ∧
      (∀ seed, Always (Timed.walk look p d (.ofOrder (energy b) greatest acceptance) o seed)
        fun r => r.1 ~ o ∧ r.2 = energy b r.1 ∧ r.2 ≤ energy b o) ∧
      ∀ seed temperatures heat, Always (Timed.cool look p d
          (.ofOrder (energy b) greatest acceptance) temperatures heat
          ⟨d.ofSeed seed, o.toArray, energy b o, o.toArray, energy b o⟩)
        fun w => w.best.toList ~ o ∧ w.bestEnergy = energy b w.best.toList ∧
          w.bestEnergy ≤ energy b o) ∧
    ∀ {σ : Type} (d : Draws σ) (expired : Bool),
      p.search d (.ofOrder (energy b) greatest acceptance) processors expired o ~ o ∧
      energy b (p.search d (.ofOrder (energy b) greatest acceptance) processors expired o) ≤
        energy b o := by
  have hsearch : ∀ {κ σ : Type} (look : StateM κ Bool) (d : Draws σ),
      Always (Timed.search look p d (.ofOrder (energy b) greatest acceptance) processors o)
        (fun o' => o' ~ o ∧ energy b o' ≤ energy b o) :=
    fun look d k => ⟨search_always k, search_le k⟩
  refine ⟨fun look d => ⟨hsearch look d, fun seed k => ⟨walk_always k, walk_exact k, walk_le k⟩,
    fun seed temperatures heat k => ?_⟩, fun d expired => ?_⟩
  · have hstart : Walk.Exact (.ofOrder (energy b) greatest acceptance)
        ⟨d.ofSeed seed, o.toArray, energy b o, o.toArray, energy b o⟩ := ⟨rfl, rfl⟩
    exact ⟨(cool_always ⟨.refl _, .refl _⟩ k).best, (cool_exact hstart k).best, cool_le le_rfl k⟩
  · -- a clock that gives one answer
    have h := hsearch (pure expired : StateM Unit Bool) d
    rw [Timed.search_pure] at h
    exact h ()

end BayesCircuit.Ordering.Annealing
