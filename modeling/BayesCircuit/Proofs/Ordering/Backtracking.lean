import BayesCircuit.Ordering.Backtracking
import BayesCircuit.Proofs.Ordering.Valid

/-!
# The search of all topological sorts

Trying every variable that is ready, one after the other, comes upon every topological sort
(`Sorts.mem_ready`), so a search that has the time for it finds one with the least bound on nodes
(`allFrom_surveys`).

The search that changes one state in place finds the same sort. Placing a variable counts down those
that come after it, and none of these has a count of zero; so counting up again restores the counts,
and a visit leaves everything but the best sort as it was (`visit_eq`). This does not depend on what
the looks at the clock say.
-/

namespace BayesCircuit.Ordering

open Ordering.Task
open scoped List

variable {ns us ready placed o rest : List Nat} {before : Nat → List Nat} {waiting : Nat → Nat}
variable {v : Nat}

/-- What comes before a number in a list without repetitions. -/
theorem mem_of_pair_sublist {u : Nat} (hnodup : (us ++ v :: rest).Nodup)
    (h : [u, v] <+ us ++ v :: rest) : u ∈ us := by
  obtain ⟨l₁, l₂, heq, hleft, hright⟩ := List.sublist_append_iff.1 h
  cases l₁ with
  | cons w l₁ =>
      obtain ⟨rfl, -⟩ := List.cons.inj heq
      exact hleft.subset (List.mem_cons_self ..)
  | nil =>
      -- both would stand in the second part, the number itself behind its first place
      rw [List.nil_append] at heq
      have hrest : v ∈ rest := by
        rw [← heq] at hright
        cases hright with
        | cons _ h => exact h.subset (List.mem_cons_of_mem _ (List.mem_singleton_self v))
        | cons_cons _ h => exact h.subset (List.mem_singleton_self _)
      exact absurd hrest (List.nodup_cons.1 (List.nodup_append.1 hnodup).2.1).1

/-- The next number of a sort is ready. -/
theorem Sorts.mem_ready (hns : ns.Nodup) (K : Sorts ns before waiting ready placed)
    (ho : Sorted ns before (placed.reverse ++ v :: rest)) : v ∈ ready := by
  have hnodup := ho.perm.nodup_iff.2 hns
  have hv : v ∈ placed.reverse ++ v :: rest := List.mem_append_right _ (List.mem_cons_self ..)
  have hin := ho.perm.mem_iff.1 hv
  have hnew : v ∉ placed := fun h =>
    (List.nodup_append.1 hnodup).2.2 v (List.mem_reverse.2 h) v (List.mem_cons_self ..) rfl
  have hbefore : before v ⊆ placed := fun u hu =>
    List.mem_reverse.1 (mem_of_pair_sublist hnodup (ho.follows v hv u hu))
  have hzero : waiting v = 0 := by
    rw [K.waits v hin, List.length_eq_zero_iff, List.eq_nil_iff_forall_not_mem]
    exact fun u hu => (mem_openBefore.1 hu).2 (hbefore (mem_openBefore.1 hu).1)
  exact (List.mem_append.1 ((K.free v hin).2 hzero)).resolve_right hnew

namespace Task

variable {t : Task} {counts : Array Nat} {best b : List Variable × Nat}

/-! ## Every sort is tried -/

/-- What trying the sorts with a given beginning makes of the best one: it has its bound, and neither
the best one before nor any of these sorts has a smaller one. -/
structure Surveys (t : Task) (ns : List Variable) (before : Variable → List Variable)
    (beginning : List Variable) (best b : List Variable × Nat) : Prop where
  bound : b.2 = t.bound.compute .nodes b.1
  le : b.2 ≤ best.2
  least : ∀ o, Sorted ns before (beginning ++ o) → b.2 ≤ t.bound.compute .nodes (beginning ++ o)

/-- Trying one continuation after the other. -/
theorem surveys_foldl {f : List Variable × Nat → Variable → List Variable × Nat}
    {beginning : List Variable} : ∀ {vs : List Variable} {best : List Variable × Nat},
    (∀ v ∈ vs, ∀ best, best.2 = t.bound.compute .nodes best.1 →
      Surveys t ns before (beginning ++ [v]) best (f best v)) →
    best.2 = t.bound.compute .nodes best.1 →
    (vs.foldl f best).2 = t.bound.compute .nodes (vs.foldl f best).1 ∧
      (vs.foldl f best).2 ≤ best.2 ∧
      ∀ v ∈ vs, ∀ o, Sorted ns before (beginning ++ v :: o) →
        (vs.foldl f best).2 ≤ t.bound.compute .nodes (beginning ++ v :: o)
  | [], best, _, hbest => ⟨hbest, le_refl _, fun v hv => absurd hv List.not_mem_nil⟩
  | v :: vs, best, hone, hbest => by
      have hfirst := hone v (List.mem_cons_self ..) best hbest
      obtain ⟨hbound, hle, hleast⟩ :=
        surveys_foldl (fun w hw => hone w (List.mem_cons_of_mem _ hw)) hfirst.bound
      rw [List.foldl_cons]
      refine ⟨hbound, hle.trans hfirst.le, fun w hw o ho => ?_⟩
      rcases List.mem_cons.1 hw with rfl | hw
      · rw [List.append_cons] at ho ⊢
        exact hle.trans (hfirst.least o ho)
      · exact hleast w hw o ho

/-- With enough time, all sorts with a given beginning are tried. -/
theorem allFrom_surveys (D : t.Directed ns before) (hscope : t.scope ~ ns)
    (htime : t.expired = false) : ∀ {fuel : Nat} {counts : Array Nat}
    {ready placed : List Variable} {best : List Variable × Nat},
    Sorts ns before (counts.getD · 0) ready placed → ns.length < fuel + placed.length →
    best.2 = t.bound.compute .nodes best.1 →
    Surveys t ns before placed.reverse best (t.allFrom fuel counts placed best)
  | 0, counts, ready, placed, best, K, hfuel, _ => by
      have hlength := K.length_le
      omega
  | fuel + 1, counts, ready, placed, best, K, hfuel, hbest => by
      have hnext : ∀ {v o}, Sorted ns before (placed.reverse ++ v :: o) → v ∈ ready :=
        fun ho => K.mem_ready D.nodup ho
      rw [allFrom, htime, if_neg (by decide)]
      simp only []
      split
      · rename_i hnone
        have hready : ready = [] := List.eq_nil_iff_forall_not_mem.2 fun v hv =>
          List.not_mem_nil (List.isEmpty_iff.1 hnone ▸ (mem_free hscope K).2 hv)
        have hall : ∀ o, Sorted ns before (placed.reverse ++ o) → o = [] := fun o ho => by
          cases o with
          | nil => rfl
          | cons v o => exact absurd (hready ▸ hnext ho) List.not_mem_nil
        split
        · rename_i hlt
          refine ⟨rfl, le_of_lt hlt, fun o ho => ?_⟩
          rw [hall o ho, List.append_nil]
        · rename_i hle
          refine ⟨hbest, le_refl _, fun o ho => ?_⟩
          rw [hall o ho, List.append_nil]
          exact Nat.le_of_not_lt hle
      · rename_i hsome
        have hone : ∀ v ∈ t.scope.filter (fun v => counts.getD v 0 == 0 && !placed.contains v),
            ∀ best, best.2 = t.bound.compute .nodes best.1 →
            Surveys t ns before (placed.reverse ++ [v]) best (t.allFrom fuel
              ((t.childrenOf v).foldl (fun w c => w.modify c (· - 1)) counts) (v :: placed) best) :=
          fun v hv best hbest => by
            obtain ⟨ready', K'⟩ := sorts_place D K ((mem_free hscope K).1 hv)
            rw [← List.reverse_cons]
            refine allFrom_surveys D hscope htime K' ?_ hbest
            rw [List.length_cons]
            omega
        obtain ⟨hbound, hle, hleast⟩ := surveys_foldl hone hbest
        refine ⟨hbound, hle, fun o ho => ?_⟩
        cases o with
        | cons v o => exact hleast v ((mem_free hscope K).2 (hnext ho)) o ho
        | nil =>
            -- a variable that is ready is missing in what has been placed
            obtain ⟨v, hv⟩ := List.exists_mem_of_ne_nil _ (mt List.isEmpty_iff.2 hsome)
            have hv := (mem_free hscope K).1 hv
            have hplaced : v ∈ placed := by
              rw [← List.mem_reverse, ← List.append_nil placed.reverse, ho.perm.mem_iff]
              exact K.subset (List.mem_append_left _ hv)
            exact absurd rfl ((List.nodup_append.1 K.nodup).2.2 v hv v hplaced)

end Task

/-! ## One state -/

namespace Backtracking

variable {t : Task} {s : Backtracking} {counts : Array Nat} {cs ready : List Variable}
variable {best : List Variable × Nat}

theorem getElem?_foldl_modify {f : Nat → Nat} {i : Nat} : ∀ (cs : List Variable) (counts : Array Nat),
    cs.Nodup → (cs.foldl (fun w c => w.modify c f) counts)[i]? =
      if i ∈ cs then counts[i]?.map f else counts[i]?
  | [], _, _ => by simp
  | c :: cs, counts, hnodup => by
      obtain ⟨hc, hcs⟩ := List.nodup_cons.1 hnodup
      rw [List.foldl_cons, getElem?_foldl_modify cs _ hcs, Array.getElem?_modify]
      by_cases hi : c = i
      · subst hi
        simp [hc]
      · simp [hi, Ne.symm hi]

/-- Counting down and up again restores counts that are not zero. -/
theorem foldl_succ_foldl_pred (hcs : cs.Nodup) (hpos : ∀ c ∈ cs, counts.getD c 0 ≠ 0) :
    cs.foldl (fun w c => w.modify c (· + 1)) (cs.foldl (fun w c => w.modify c (· - 1)) counts) =
      counts := by
  refine Array.ext_getElem? fun i => ?_
  rw [getElem?_foldl_modify cs _ hcs, getElem?_foldl_modify cs _ hcs]
  split
  · rename_i hi
    have hpos := hpos i hi
    rw [Array.getD_eq_getD_getElem?] at hpos
    cases hget : counts[i]? with
    | none => rfl
    | some k =>
        rw [hget, Option.getD_some] at hpos
        simp only [Option.map_some, Option.some.injEq]
        omega
  · rfl

/-- Where a search stands: its counts are those of a sort, and the variables that have been placed
are marked. -/
structure Stands (ns : List Variable) (before : Variable → List Variable) (s : Backtracking)
    (ready : List Variable) : Prop where
  sorts : Sorts ns before (s.waiting.getD · 0) ready s.placed
  marks : ∀ v ∈ ns, s.visited.getD v true = s.placed.contains v

namespace Stands

theorem start (D : t.Directed ns before) : Stands ns before (start t best) t.roots where
  sorts := D.sorts_start (.refl _)
  marks v hv := by
    have hlt := D.lt v hv
    simp [Backtracking.start, Array.getD_eq_getD_getElem?, hlt]

/-- Another best sort changes nothing. -/
theorem with_best (S : Stands ns before s ready) (best : List Variable × Nat) :
    Stands ns before { s with best } ready :=
  ⟨S.sorts, S.marks⟩

theorem isFree_eq (S : Stands ns before s ready) (hv : v ∈ ns) :
    s.isFree v = (s.waiting.getD v 0 == 0 && !s.placed.contains v) := by
  rw [isFree, S.marks v hv]

theorem not_mem_placed (S : Stands ns before s ready) (hv : v ∈ ready) : v ∉ s.placed :=
  fun h => (List.nodup_append.1 S.sorts.nodup).2.2 v hv v h rfl

theorem mem (S : Stands ns before s ready) (hv : v ∈ ready) : v ∈ ns :=
  S.sorts.subset (List.mem_append_left _ hv)

theorem place (D : t.Directed ns before) (S : Stands ns before s ready) (hv : v ∈ ready) :
    ∃ ready', Stands ns before (s.place t v) ready' := by
  obtain ⟨ready', K⟩ := Task.sorts_place D S.sorts hv
  refine ⟨ready', K, fun w hw => ?_⟩
  have hmark := S.marks w hw
  rw [Array.getD_eq_getD_getElem?] at hmark
  simp only [Backtracking.place, Array.getD_eq_getD_getElem?, Array.getElem?_setIfInBounds,
    List.contains_cons]
  by_cases hwv : v = w
  · subst hwv
    simp
    split <;> rfl
  · simp [hwv, Ne.symm hwv, hmark]

/-- A variable that was placed is withdrawn without a trace. -/
theorem withdraw_place (D : t.Directed ns before) (S : Stands ns before s ready) (hv : v ∈ ready) :
    withdraw t v { s.place t v with best } = { s with best } := by
  have hin := S.mem hv
  have hwaits : ∀ c ∈ t.childrenOf v, s.waiting.getD c 0 ≠ 0 := fun c hc => by
    obtain ⟨hc, hbefore⟩ := (D.children v hin c).1 hc
    exact (S.sorts.perm_ready (List.perm_cons_erase hv).symm).waits_of_mem hc hbefore
  have hunmarked : s.visited.getD v true = false := by
    rw [S.marks v hin, ← Bool.not_eq_true, List.contains_iff_mem]
    exact S.not_mem_placed hv
  have hvisited : (s.visited.setIfInBounds v true).setIfInBounds v false = s.visited := by
    refine Array.ext_getElem? fun i => ?_
    rw [Array.getD_eq_getD_getElem?] at hunmarked
    rw [Array.getElem?_setIfInBounds, Array.getElem?_setIfInBounds, Array.size_setIfInBounds]
    by_cases hi : v = i
    · subst hi
      cases hget : s.visited[v]? with
      | none => simp [hget] at hunmarked
      | some b =>
          obtain ⟨hlt, -⟩ := Array.getElem?_eq_some_iff.1 hget
          simp_all
    · simp [hi]
  rw [withdraw, Backtracking.place]
  simp only [foldl_succ_foldl_pred (D.nodup_children v hin) hwaits, hvisited, List.tail_cons]

end Stands

/-! ## A visit leaves no trace -/

variable {m : Type → Type} [Monad m] [LawfulMonad m] {look : m Bool}

/-- Trying variables one after the other, each of which is withdrawn before the next one. -/
theorem foldlM_visit (D : t.Directed ns before) (hscope : t.scope ~ ns)
    (S : Stands ns before s ready) {fuel : Nat}
    (hvisit : ∀ v ∈ ready, ∀ best, visit look t fuel ({ s with best }.place t v) =
      (fun best => { s.place t v with best }) <$>
        Timed.allFrom look t fuel (s.place t v).waiting (v :: s.placed) best) :
    ∀ (vs : List Variable), vs ⊆ t.scope → ∀ (best : List Variable × Nat) (extended : Bool),
    vs.foldlM (fun (s, extended) v =>
        if s.isFree v then do
          let s ← visit look t fuel (s.place t v)
          pure (s.withdraw t v, true)
        else pure (s, extended)) ({ s with best }, extended) =
      (fun best => ({ s with best }, extended || !(vs.filter fun v =>
          s.waiting.getD v 0 == 0 && !s.placed.contains v).isEmpty)) <$>
        (vs.filter fun v => s.waiting.getD v 0 == 0 && !s.placed.contains v).foldlM
          (fun best v => Timed.allFrom look t fuel
            ((t.childrenOf v).foldl (fun w c => w.modify c (· - 1)) s.waiting) (v :: s.placed) best)
          best
  | [], _, best, extended => by simp
  | v :: vs, hsub, best, extended => by
      obtain ⟨hv, hvs⟩ := List.cons_subset.1 hsub
      have hin := hscope.mem_iff.1 hv
      have ih := foldlM_visit D hscope S hvisit vs hvs
      rw [List.foldlM_cons, List.filter_cons]
      simp only [(S.with_best best).isFree_eq hin]
      split
      · rename_i hfree
        have hready : v ∈ ready :=
          (Task.mem_free hscope S.sorts).1 (List.mem_filter.2 ⟨hv, hfree⟩)
        simp only [hvisit v hready, bind_map_left, bind_assoc, pure_bind, S.withdraw_place D hready,
          ih, List.foldlM_cons, map_bind]
        simp [Backtracking.place]
      · simp only [pure_bind, ih]

/-- Whatever the looks at the clock say, a visit changes nothing but the best sort, which becomes
the one that the search with a state for each beginning finds. -/
theorem visit_eq (D : t.Directed ns before) (hscope : t.scope ~ ns) :
    ∀ {fuel : Nat} {s : Backtracking} {ready : List Variable}, Stands ns before s ready →
      visit look t fuel s = (fun best => { s with best }) <$>
        Timed.allFrom look t fuel s.waiting s.placed s.best
  | 0, s, ready, _ => by
      rw [visit, Timed.allFrom, map_pure, note]
      split <;> rfl
  | fuel + 1, s, ready, S => by
      have hvisit : ∀ v ∈ ready, ∀ best, visit look t fuel ({ s with best }.place t v) =
          (fun best => { s.place t v with best }) <$>
            Timed.allFrom look t fuel (s.place t v).waiting (v :: s.placed) best :=
        fun v hv best => by
          obtain ⟨ready', S'⟩ := (S.with_best best).place D hv
          exact visit_eq D hscope S'
      have hfold := foldlM_visit D hscope S hvisit t.scope (fun _ h => h) s.best false
      rw [visit, Timed.allFrom, map_bind]
      refine bind_congr fun expired => ?_
      cases expired with
      | true => simp
      | false =>
          simp only [Bool.false_eq_true, if_false]
          rw [hfold, bind_map_left]
          split
          · rename_i hnone
            rw [List.isEmpty_iff.1 hnone]
            simp only [List.foldlM_nil, pure_bind, map_pure, note]
            congr 1
            simp only [List.isEmpty_nil, Bool.not_true, Bool.or_self, Bool.false_eq_true, if_false]
            split <;> rfl
          · rename_i hsome
            simp only [hsome, Bool.not_false, Bool.or_true, if_true, bind_pure_comp]

/-- Both searches find the same sort. -/
theorem allTopological_eq (D : t.Directed ns before) (hscope : t.scope ~ ns) :
    allTopological look t = Timed.allTopological look t := by
  rw [allTopological, Timed.allTopological]
  refine bind_congr fun first => ?_
  rw [visit_eq D hscope (Stands.start D), bind_map_left]
  rfl

/-- The states in which a search visits: the first one, and those in which a variable that can be
tried has been placed, whatever the best sort is by then. -/
inductive Reached (t : Task) : Backtracking → Prop
  | start (best : List Variable × Nat) : Reached t (start t best)
  | place {s : Backtracking} {v : Variable} (hs : Reached t s) (hv : v ∈ t.scope)
      (hfree : s.isFree v = true) (best : List Variable × Nat) :
      Reached t ({ s with best }.place t v)

theorem Reached.stands (D : t.Directed ns before) (hscope : t.scope ~ ns) (hs : Reached t s) :
    ∃ ready, Stands ns before s ready := by
  induction hs with
  | start best => exact ⟨_, .start D⟩
  | place _ hv hfree best ih =>
      obtain ⟨ready, S⟩ := ih
      rw [S.isFree_eq (hscope.mem_iff.1 hv)] at hfree
      have hready := (Task.mem_free hscope S.sorts).1 (List.mem_filter.2 ⟨hv, hfree⟩)
      exact (S.with_best best).place D hready

end Backtracking

/-! ## The best sort of a partition -/

variable {net : Network} {p : Partition} {owned : List Variable} {log : Float → Float}

/-- A topological sort of a partition lists its owned variables and its cutset, and every owned
variable after its parents. -/
structure TopologicalSort (net : Network) (p : Partition) (o : List Variable) : Prop where
  perm : o ~ p.owned ++ p.cutset
  follows : ∀ v ∈ p.owned, ∀ u, net.Parent u v → [u, v] <+ o

theorem topologicalSort_iff (hp : p.Proper net) :
    TopologicalSort net p o ↔ Sorted p.scope (ownedParents net p) o := by
  have hscope := scope_perm_append hp
  refine ⟨fun h => ⟨h.perm.trans hscope.symm, fun v _ u hu => ?_⟩, fun h =>
    ⟨h.perm.trans hscope, fun v hv u hu => h.follows v ?_ u (mem_ownedParents.2 ⟨hv, hu⟩)⟩⟩
  · obtain ⟨hv, hu⟩ := mem_ownedParents.1 hu
    exact h.follows v hv u hu
  · exact h.perm.mem_iff.2 (hp.mem_scope.2 ⟨v, hv, self_mem_family⟩)

/-- The search of all topological sorts is optimal and restores its state. On a partition of an
acyclic network, if the time is never over, it returns a topological sort with the least saturated
bound on nodes among all of them; so does the search that changes one state in place. Each visit of
the latter, whatever the looks at the clock say, leaves the counts, the marks and the placed
variables as it found them. The logarithms of the domain sizes only have to be at most `64`. -/
theorem allTopological_least (hnet : net.Linked) (hacyclic : net.Acyclic)
    (hp : Partition.ofOwned net owned = .ok p) (log : Float → Float)
    (hlog : ∀ v ∈ p.scope, log (Float.ofNat (net.dimOf v)) ≤ 64) :
    (∃ o, (ofPartition net p false log).allTopological = o ∧
      (∀ {m : Type → Type} [Monad m] [LawfulMonad m],
        Backtracking.allTopological (pure false : m Bool) (ofPartition net p false log) =
          pure o) ∧
      TopologicalSort net p o ∧ ∀ o', TopologicalSort net p o' →
        (Bound.ofPartition net p).compute .nodes o ≤
          (Bound.ofPartition net p).compute .nodes o') ∧
    ∀ {κ : Type} (look : StateM κ Bool) (fuel : Nat) (s : Backtracking),
      Backtracking.Reached (ofPartition net p false log) s →
      Always (Backtracking.visit look (ofPartition net p false log) fuel s) fun s' =>
        s'.waiting = s.waiting ∧ s'.visited = s.visited ∧ s'.placed = s.placed := by
  have hproper := Partition.proper_ofOwned hp
  have D : (ofPartition net p false log).Directed p.scope (ownedParents net p) :=
    directed_ofPartition hnet hacyclic hproper
  have hscope : (ofPartition net p false log).scope ~ p.scope := scope_perm hproper
  have hsize : (ofPartition net p false log).size =
      (ofPartition net p false log).scope.length :=
    (sound_ofPartition hnet hproper).size_eq
  have hpure : ∀ {m : Type → Type} [Monad m] [LawfulMonad m],
      Timed.allTopological (pure false : m Bool) (ofPartition net p false log) =
        pure (ofPartition net p false log).allTopological :=
    Timed.allTopological_pure (t := ofPartition net p false log)
  refine ⟨⟨_, rfl, fun {m} _ _ => ?_, ?_, fun o' ho' => ?_⟩, fun look fuel s hs => ?_⟩
  · rw [Backtracking.allTopological_eq D hscope, hpure]
  · have hsorted : Always (Timed.allTopological (pure false : StateM Unit Bool)
        (ofPartition net p false log)) (Sorted p.scope (ownedParents net p)) :=
      allTopological_sorted D hscope hsize
        fun roots hroots => score_depthFirst_lt hnet hacyclic hproper hlog hroots
    rw [hpure] at hsorted
    exact (topologicalSort_iff hproper).2 (hsorted ())
  · have hfuel : p.scope.length <
        (ofPartition net p false log).size + 1 + ([] : List Variable).length := by
      rw [hsize, hscope.length_eq]
      exact Nat.lt_succ_self _
    have hbest := allFrom_surveys D hscope rfl (D.sorts_start (.refl _)) hfuel
      (rfl : ((ofPartition net p false log).topological, (ofPartition net p false log).bound.compute
        .nodes (ofPartition net p false log).topological).2 = _)
    have hleast := hbest.least o' ((topologicalSort_iff hproper).1 ho')
    rwa [hbest.bound] at hleast
  · obtain ⟨ready, S⟩ := hs.stands D hscope
    rw [Backtracking.visit_eq D hscope S]
    exact fun k => ⟨rfl, rfl, rfl⟩

theorem allTopological_least_twoCoins : ∃ o,
    (ofPartition twoCoins ⟨[1], [0]⟩ false fun _ => 0.6931471805599453).allTopological = o ∧
      TopologicalSort twoCoins ⟨[1], [0]⟩ o := by
  obtain ⟨⟨o, ho, -, hsort, -⟩, -⟩ :=
    allTopological_least wellFormed_twoCoins.linked acyclic_twoCoins
      (show Partition.ofOwned twoCoins [1] = .ok ⟨[1], [0]⟩ from rfl)
      (fun _ => 0.6931471805599453) fun v _ => by decide +kernel
  exact ⟨o, ho, hsort⟩

end BayesCircuit.Ordering
