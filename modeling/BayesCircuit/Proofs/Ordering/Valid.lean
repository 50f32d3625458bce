import BayesCircuit.Proofs.Ordering.Interrupted
import BayesCircuit.Proofs.Ordering.Timed

/-!
# Every strategy orders the partition

A step of a walk exchanges two positions, so whatever is drawn and whenever the clock stops it, an
annealed ordering is a rearrangement of the one it starts from.

Carrying out any strategy on a partition of an acyclic network lists its owned variables and its
cutset, each once, at whatever moment the time is over and whatever is drawn when annealing. The
strategies that look for a topological sort return one.
-/

namespace BayesCircuit.Ordering.Annealing

open scoped List

variable {κ σ ε : Type} {look : StateM κ Bool} {p : Annealing} {d : Draws σ} {l : Landscape ε}
variable {w : Walk σ ε} {o start : List Variable} {heat : Float}

theorem exchange_perm {xs : Array Variable} {i j : Nat} :
    (exchange xs i j).toList ~ xs.toList := by
  rw [exchange, Array.swapIfInBounds]
  split
  · split
    · exact (Array.swap_perm _ _).toList
    · exact .refl _
  · exact .refl _

/-- A walk has only rearranged an ordering. -/
structure Walk.Rearranges (w : Walk σ ε) (start : List Variable) : Prop where
  ordering : w.ordering.toList ~ start
  best : w.best.toList ~ start

namespace Walk.Rearranges

theorem step (W : w.Rearranges start) : (w.step d l heat).Rearranges start := by
  rw [Walk.step]
  generalize positions d w.ordering.size w.draws = drawn
  obtain ⟨i, j, s⟩ := drawn
  have hexchange : (exchange w.ordering i j).toList ~ start := exchange_perm.trans W.ordering
  have hbest : (if l.le (l.energy (exchange w.ordering i j).toList) w.bestEnergy
      then (exchange w.ordering i j, l.energy (exchange w.ordering i j).toList)
      else (w.best, w.bestEnergy)).1.toList ~ start := by
    split
    · exact hexchange
    · exact W.best
  simp only []
  split
  · exact ⟨hexchange, hbest⟩
  · split
    · exact ⟨hexchange, hbest⟩
    · exact ⟨exchange_perm.trans hexchange, hbest⟩

theorem steps : ∀ {n : Nat} {w : Walk σ ε}, w.Rearranges start →
    (Walk.steps d l heat n w).Rearranges start
  | 0, _, W => W
  | _ + 1, _, W => W.step.steps

end Walk.Rearranges

theorem cool_always : ∀ {n : Nat} {heat : Float} {w : Walk σ ε}, w.Rearranges start →
    Always (Timed.cool look p d l n heat w) (·.Rearranges start)
  | 0, _, _, W => .pure W
  | n + 1, heat, w, W => by
      rw [Timed.cool]
      refine .ite (fun _ => .step fun expired => ?_) fun _ => .pure W
      exact .ite (fun _ => .pure W) fun _ => cool_always W.steps

theorem walk_always {seed : Nat} : Always (Timed.walk look p d l o seed) (·.1 ~ o) := by
  rw [Timed.walk]
  exact (cool_always ⟨.refl _, .refl _⟩).bind fun _ W => .pure W.best

theorem walks_always {base : Nat} : ∀ {n : Nat},
    Always (Timed.walks look p d l o base n) (·.1 ~ o)
  | 0 => walk_always
  | n + 1 => by
      rw [Timed.walks]
      refine walks_always.bind fun first hfirst => walk_always.bind fun next hnext => .pure ?_
      split
      · exact hnext
      · exact hfirst

theorem runFrom_always {workers : Nat} : ∀ {fuel run : Nat} {o : List Variable} {stable : ε × Nat},
    o ~ start → Always (Timed.runFrom look p d l workers fuel run o stable) (· ~ start)
  | 0, _, _, _, ho => .pure ho
  | fuel + 1, run, o, stable, ho => by
      rw [Timed.runFrom]
      refine walks_always.bind fun found hfound => ?_
      have hnext : (if l.le found.2 (l.energy o) then found.1 else o) ~ start := by
        split
        · exact hfound.trans ho
        · exact ho
      refine .ite (fun _ => .pure hnext) fun _ => .step fun expired => ?_
      exact .ite (fun _ => .pure hnext) fun _ => runFrom_always hnext

/-- An annealed ordering is a rearrangement. -/
theorem search_always {processors : Nat} :
    Always (Timed.search look p d l processors o) (· ~ o) := by
  rw [Timed.search]
  exact .ite (fun _ => .pure (.refl _)) fun _ => runFrom_always (.refl _)

theorem annealFrom_always {t : Task} {options : Options} {energy : Energy}
    (ho : o ~ t.scope) : Always (Timed.annealFrom look d t options energy o) (· ~ t.scope) := by
  rw [Timed.annealFrom]
  refine search_always.mono fun o' ho' => ho'.trans ?_
  split
  · exact .refl _
  · exact ho

end BayesCircuit.Ordering.Annealing

namespace BayesCircuit.Ordering

open Ordering.Task
open scoped List

variable {net : Network} {p : Partition} {owned o : List Variable} {log : Float → Float}
variable {κ σ : Type} {look : StateM κ Bool} {d : Annealing.Draws σ} {options : Options}

/-- An ordering of a partition. Some strategies place the owned variables after their parents. -/
structure Valid (net : Network) (p : Partition) (s : Strategy) (o : List Variable) : Prop where
  perm : o ~ p.owned ++ p.cutset
  follows : s ∈ [.topological, .components, .allTopological] →
    ∀ v ∈ p.owned, ∀ u, net.Parent u v → [u, v] <+ o

variable {expired : Bool}

theorem scope_perm_append (hp : p.Proper net) : p.scope ~ p.owned ++ p.cutset := by
  have hscope : (ofPartition net p false id).scope ~ p.scope := scope_perm hp
  exact hscope.symm.trans List.perm_append_comm

/-- A sort of the partition is valid for every strategy. -/
theorem Valid.of_sorted (hp : p.Proper net) {s : Strategy}
    (h : Sorted p.scope (ownedParents net p) o) : Valid net p s o where
  perm := h.perm.trans (scope_perm_append hp)
  follows _ v hv u hu := by
    have hin : v ∈ o := h.perm.mem_iff.2 (hp.mem_scope.2 ⟨v, hv, self_mem_family⟩)
    exact h.follows v hin u (mem_ownedParents.2 ⟨hv, hu⟩)

theorem Valid.of_perm (hp : p.Proper net) {s : Strategy}
    (hs : s ∉ [Strategy.topological, .components, .allTopological]) (h : o ~ p.scope) :
    Valid net p s o where
  perm := h.trans (scope_perm_append hp)
  follows hin := absurd hin hs

theorem run_valid (hnet : net.Linked) (hacyclic : net.Acyclic) (hp : p.Proper net)
    (hlog : ∀ v ∈ p.scope, log (Float.ofNat (net.dimOf v)) ≤ 64) :
    Always (Timed.run look d (ofPartition net p expired log) options)
      (Valid net p options.strategy) := by
  have S : (ofPartition net p expired log).Sound := sound_ofPartition hnet hp
  have D : (ofPartition net p expired log).Directed p.scope (ownedParents net p) :=
    directed_ofPartition hnet hacyclic hp
  have hscope : (ofPartition net p expired log).scope ~ p.scope := scope_perm hp
  have hscore : ∀ roots, roots ~ (ofPartition net p expired log).roots →
      (ofPartition net p expired log).bound.score
        ((ofPartition net p expired log).depthFirst roots) log < maxScore :=
    fun _ hroots => score_depthFirst_lt hnet hacyclic hp hlog hroots
  have htop : Always (Timed.topological look (ofPartition net p expired log))
      (Sorted p.scope (ownedParents net p)) := topological_sorted D hscore
  have htop' : Always (Timed.topological look (ofPartition net p expired log))
      (· ~ (ofPartition net p expired log).scope) :=
    htop.mono fun o ho => ho.perm.trans hscope.symm
  have hperm : ∀ {s o}, s ∉ [Strategy.topological, .components, .allTopological] →
      o ~ (ofPartition net p expired log).scope → Valid net p s o := fun hs ho =>
    .of_perm hp hs (ho.trans hscope)
  rw [Timed.run]
  cases options.strategy with
  | topological => exact htop.mono fun _ ho => .of_sorted hp ho
  | breadthFirst => exact .pure (.of_perm hp (by decide) (breadthFirst_perm D))
  | reverseTopological =>
      exact htop.bind fun o ho => .pure (.of_perm hp (by decide) (o.reverse_perm.trans ho.perm))
  | bestFirst => exact (bestFirst_always S htop').mono fun _ => hperm (by decide)
  | bruteForce => exact (bruteForce_always S htop').mono fun _ => hperm (by decide)
  | components => exact (components_sorted D hscore).mono fun _ ho => .of_sorted hp ho
  | lookahead => exact (lookahead_always S).mono fun _ => hperm (by decide)
  | anneal =>
      refine htop'.bind fun o ho => ?_
      exact (Annealing.annealFrom_always ho).mono fun _ => hperm (by decide)
  | allTopological =>
      exact (allTopological_sorted D hscope S.size_eq hscore).mono fun _ ho => .of_sorted hp ho
  | annealMinFill =>
      have hfill : (ofPartition net p expired log).minFill ~
          (ofPartition net p expired log).scope :=
        InteractionGraph.minFill_perm.trans hscope.symm
      exact (Annealing.annealFrom_always hfill).mono fun _ => hperm (by decide)
  | minFill => exact .pure (.of_perm hp (by decide) InteractionGraph.minFill_perm)

/-- A valid ordering passes the check on its length. -/
theorem Valid.check {s : Strategy} (h : Valid net p s o) :
    (do require (o.length == (ofPartition net p expired log).size); return o : Outcome _) =
      .ok o := by
  have hlength : o.length = (ofPartition net p expired log).size :=
    h.perm.length_eq.trans List.length_append
  rw [beq_iff_eq.2 hlength]
  rfl

/-- On every partition of an acyclic network every strategy returns an ordering of the partition,
whatever the looks at the clock say and whatever is drawn. The logarithms of the domain sizes only
have to be at most `64`. In particular, a strategy that is given all of its time or none does. -/
theorem generate_valid (hnet : net.Linked) (hacyclic : net.Acyclic)
    (hp : Partition.ofOwned net owned = .ok p) (options : Options) (log : Float → Float)
    (hlog : ∀ v ∈ p.scope, log (Float.ofNat (net.dimOf v)) ≤ 64) :
    (∀ {κ σ : Type} (look : StateM κ Bool) (d : Annealing.Draws σ) (clock : κ),
      ∃ o, ((Timed.generate look d net p options log).run clock).1 = .ok o ∧
        Valid net p options.strategy o) ∧
    ∃ o, (ofPartition net p options.expired log).generate options = .ok o ∧
      Valid net p options.strategy o := by
  have hproper := Partition.proper_ofOwned hp
  have hall : ∀ {κ σ : Type} (look : StateM κ Bool) (d : Annealing.Draws σ),
      Always (Timed.generate look d net p options log) fun r =>
        ∃ o, r = .ok o ∧ Valid net p options.strategy o := fun look d => by
    rw [Timed.generate]
    exact (run_valid hnet hacyclic hproper hlog).bind fun o ho => .pure ⟨o, ho.check, ho⟩
  refine ⟨fun look d clock => hall look d clock, ?_⟩
  have hplain : Always (pure ((ofPartition net p options.expired log).generate options) :
      StateM Unit _) fun r => ∃ o, r = .ok o ∧ Valid net p options.strategy o := by
    rw [← Timed.generate_pure]
    exact hall _ _
  exact hplain ()

/-- A clock that counts looks down; with none left the time is over. -/
def countdown : StateM Nat Bool := fun n => (n == 0, n - 1)

theorem generate_valid_twoCoins : ∃ o,
    ((Timed.generate countdown .keystream twoCoins ⟨[1], [0]⟩
      ⟨.allTopological, 1, .standard, 1, false⟩ fun _ => 0.6931471805599453).run 3).1 = .ok o ∧
      Valid twoCoins ⟨[1], [0]⟩ .allTopological o :=
  (generate_valid wellFormed_twoCoins.linked acyclic_twoCoins
    (show Partition.ofOwned twoCoins [1] = .ok ⟨[1], [0]⟩ from rfl)
    ⟨.allTopological, 1, .standard, 1, false⟩ (fun _ => 0.6931471805599453)
    fun v _ => by decide +kernel).1 countdown .keystream 3

end BayesCircuit.Ordering
