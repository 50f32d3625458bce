import BayesCircuit.Proofs.Ordering.Topological
import Mathlib.Algebra.Order.BigOperators.Group.List

/-!
# Breadth-first search and components

A search along the edges of a task from its roots meets every variable. Its fuel covers the queue
and the edges of the variables that have not been visited (`edgesFrom`).

The component of a root are the variables that it reaches first. A search from every root labels
them, and counts how often a component meets each of its variables: once at the root, and once for
each parent of the same component (`Labelled`). An edge between components leads back to a component
that was searched before, to which a link is kept.
-/

namespace BayesCircuit.Ordering.Task

open Collection BayesCircuit.Bound
open scoped List

variable {t : Task} {ns queue done : List Variable} {before : Variable → List Variable}
variable {v : Variable}

/-! ## Fuel -/

/-- The number of edges that leave variables of which a condition holds. -/
def edgesFrom (t : Task) (ns : List Variable) (holds : Variable → Bool) : Nat :=
  ((ns.filter holds).map fun v => (t.childrenOf v).length).sum

theorem Directed.edgesFrom_le (D : t.Directed ns before) {holds : Variable → Bool} :
    t.edgesFrom ns holds ≤ t.edgeCount := by
  have hall : t.children.toList.map (·.length) =
      (List.range t.net.size).map fun v => (t.childrenOf v).length := by
    refine List.ext_getElem? fun i => ?_
    rw [← D.size]
    simp only [List.getElem?_map, Array.getElem?_toList, childrenOf, Array.getD_eq_getD_getElem?]
    rcases Nat.lt_or_ge i t.children.size with hi | hi
    · rw [List.getElem?_range hi, Array.getElem?_eq_getElem hi]
      simp [hi]
    · simp [hi]
  have hsub : ns.filter holds <+~ List.range t.net.size :=
    List.subperm_of_subset (D.nodup.filter _) fun v hv =>
      List.mem_range.2 (D.lt v (List.mem_filter.1 hv).1)
  obtain ⟨vs, hperm, hsublist⟩ := hsub
  rw [edgesFrom, edgeCount, sumOf_eq, hall, ← (hperm.map _).sum_eq]
  exact (hsublist.map _).sum_le_sum fun _ _ => Nat.zero_le _

/-- Visiting a variable takes its edges out. -/
theorem Directed.edgesFrom_visit (D : t.Directed ns before) (holds holds' : Variable → Bool)
    (hv : v ∈ ns) (hopen : holds v = true)
    (h : ∀ x ∈ ns, holds' x = true ↔ holds x = true ∧ x ≠ v) :
    (t.childrenOf v).length + t.edgesFrom ns holds' = t.edgesFrom ns holds := by
  have hperm : ns.filter holds ~ v :: ns.filter holds' := by
    have hout : v ∉ ns.filter holds' := fun hin =>
      ((h v hv).1 (List.mem_filter.1 hin).2).2 rfl
    refine (List.perm_ext_iff_of_nodup (D.nodup.filter _)
      (List.nodup_cons.2 ⟨hout, D.nodup.filter _⟩)).2 fun x => ?_
    rw [List.mem_cons, List.mem_filter, List.mem_filter]
    by_cases hx : x = v
    · subst hx
      simp [hv, hopen]
    · rw [or_iff_right hx]
      exact and_congr_right fun hin => by rw [h x hin, and_iff_left hx]
  rw [edgesFrom, edgesFrom, (hperm.map _).sum_eq, List.map_cons, List.sum_cons]

/-! ## The search -/

/-- Where a breadth-first search stands: `done` lists what has been placed. -/
structure Visits (t : Task) (ns : List Variable) (placed : Array Bool)
    (queue done : List Variable) : Prop where
  size : placed.size = t.net.size
  marked : ∀ v ∈ ns, placed.getD v true = true ↔ v ∈ done
  nodup : done.Nodup
  done_subset : done ⊆ ns
  queue_subset : queue ⊆ ns
  roots : ∀ r ∈ t.roots, r ∈ done ∨ r ∈ queue
  closed : ∀ u ∈ done, ∀ c ∈ t.childrenOf u, c ∈ done ∨ c ∈ queue

namespace Visits

variable {placed : Array Bool}

theorem skip (V : t.Visits ns placed (v :: queue) done) (hv : placed.getD v true = true) :
    t.Visits ns placed queue done := by
  have hdone : v ∈ done := (V.marked v (V.queue_subset (List.mem_cons_self ..))).1 hv
  have hrest : ∀ c, c ∈ done ∨ c ∈ v :: queue → c ∈ done ∨ c ∈ queue := by
    rintro c (hc | hc)
    · exact Or.inl hc
    · rcases List.mem_cons.1 hc with rfl | hc
      · exact Or.inl hdone
      · exact Or.inr hc
  exact { V with
    queue_subset := (List.cons_subset.1 V.queue_subset).2
    roots := fun r hr => hrest r (V.roots r hr)
    closed := fun u hu c hc => hrest c (V.closed u hu c hc) }

theorem visit (D : t.Directed ns before) (V : t.Visits ns placed (v :: queue) done)
    (hv : ¬ placed.getD v true = true) :
    t.Visits ns (placed.setIfInBounds v true) (queue ++ t.childrenOf v) (v :: done) := by
  obtain ⟨hin, hqueue⟩ := List.cons_subset.1 V.queue_subset
  have hrest : ∀ c, c ∈ done ∨ c ∈ v :: queue →
      c ∈ v :: done ∨ c ∈ queue ++ t.childrenOf v := by
    intro c hc
    simp only [List.mem_cons, List.mem_append] at hc ⊢
    tauto
  refine ⟨?_, fun x hx => ?_, ?_, ?_, ?_, fun r hr => hrest r (V.roots r hr), fun u hu c hc => ?_⟩
  · rw [Array.size_setIfInBounds, V.size]
  · have hlt : v < placed.size := V.size ▸ D.lt v hin
    rw [Array.getD_eq_getD_getElem?, Array.getElem?_setIfInBounds, List.mem_cons, ← V.marked x hx,
      Array.getD_eq_getD_getElem?]
    by_cases hxv : v = x
    · simp [hxv, hxv ▸ hlt]
    · simp [hxv, Ne.symm hxv]
  · exact List.nodup_cons.2 ⟨fun hdone => hv ((V.marked v hin).2 hdone), V.nodup⟩
  · exact List.cons_subset.2 ⟨hin, V.done_subset⟩
  · exact List.append_subset.2 ⟨hqueue, fun c hc => ((D.children v hin c).1 hc).1⟩
  · rcases List.mem_cons.1 hu with rfl | hu
    · exact Or.inr (List.mem_append_right _ hc)
    · exact hrest c (V.closed u hu c hc)

/-- A search whose queue is empty has met everything. -/
theorem complete (D : t.Directed ns before) (V : t.Visits ns placed [] done) : done ~ ns := by
  refine (List.perm_ext_iff_of_nodup V.nodup D.nodup).2 fun v =>
    ⟨fun hv => V.done_subset hv, fun hv => ?_⟩
  refine D.grounded.all D.subset (fun v hv hbefore => ?_) v hv
  cases hparents : before v with
  | nil => exact (V.roots v ((D.roots v).2 ⟨hv, hparents⟩)).resolve_right List.not_mem_nil
  | cons u us =>
      have hu : u ∈ before v := hparents ▸ List.mem_cons_self ..
      have hchild := (D.children u (D.subset v hv hu) v).2 ⟨hv, hu⟩
      exact (V.closed u (hbefore u hu) v hchild).resolve_right List.not_mem_nil

end Visits

theorem placeQueue_perm (D : t.Directed ns before) :
    ∀ {fuel : Nat} {placed : Array Bool} {queue done : List Variable},
      t.Visits ns placed queue done →
      queue.length + t.edgesFrom ns (!done.contains ·) ≤ fuel →
      t.placeQueue fuel placed queue ++ done ~ ns
  | 0, placed, queue, done, V, hfuel => by
      obtain rfl : queue = [] := List.length_eq_zero_iff.1 (by omega)
      exact V.complete D
  | fuel + 1, placed, [], done, V, _ => V.complete D
  | fuel + 1, placed, v :: queue, done, V, hfuel => by
      rw [List.length_cons] at hfuel
      have hin := V.queue_subset (List.mem_cons_self ..)
      rw [placeQueue]
      split
      · rename_i hv
        exact placeQueue_perm D (V.skip hv) (by omega)
      · rename_i hv
        have hopen : v ∉ done := fun hdone => hv ((V.marked v hin).2 hdone)
        have hedges := D.edgesFrom_visit (!done.contains ·) (!(v :: done).contains ·) hin
          (by simpa using hopen) fun x _ => by simp [and_comm]
        have hleft : (queue ++ t.childrenOf v).length +
            t.edgesFrom ns (!(v :: done).contains ·) ≤ fuel := by
          rw [List.length_append]
          omega
        have hperm := placeQueue_perm D (V.visit D hv) hleft
        exact List.perm_middle.symm.trans hperm

/-- A breadth-first search places every variable once. -/
theorem breadthFirst_perm (D : t.Directed ns before) : t.breadthFirst ~ ns := by
  have hqueue : ∀ v, v ∈ Ascending.ofList t.roots ↔ v ∈ t.roots := fun v => Ascending.mem_ofList
  have V : t.Visits ns (Array.replicate t.net.size false) (Ascending.ofList t.roots) [] := by
    refine ⟨Array.size_replicate, fun v hv => ?_, List.nodup_nil, List.nil_subset _, fun v hv => ?_,
      fun r hr => Or.inr ((hqueue r).2 hr), fun u hu => absurd hu List.not_mem_nil⟩
    · simp [Array.getD_eq_getD_getElem?, D.lt v hv]
    · exact ((D.roots v).1 ((hqueue v).1 hv)).1
  have hlength : (Ascending.ofList t.roots).length = t.roots.length :=
    (Ascending.ofList_perm D.nodup_roots).length_eq
  have hfuel : (Ascending.ofList t.roots).length +
      t.edgesFrom ns (!([] : List Variable).contains ·) ≤ t.roots.length + t.edgeCount := by
    rw [hlength]
    exact Nat.add_le_add_left D.edgesFrom_le _
  have hperm := placeQueue_perm D V hfuel
  rwa [List.append_nil] at hperm

end BayesCircuit.Ordering.Task

/-! ## Components -/

namespace BayesCircuit.Ordering.Task

open Collection BayesCircuit.Bound
open scoped List

variable {t : Task} {ns queue roots : List Variable} {before : Variable → List Variable}
variable {cs : Components} {u v x : Variable} {c d k : Nat}

namespace Components

/-- One more than the number of the root that reaches a variable first, zero before any does. -/
def label (cs : Components) (x : Variable) : Nat := cs.component.getD x 0

/-- How often a variable has been met by its component. -/
def met (cs : Components) (x : Variable) : Nat := cs.meetings.getD x 0

/-- The components that a component runs into. -/
def linked (cs : Components) (c : Nat) : List Nat := cs.links.getD c []

/-- The parents of a variable that belong to a component. -/
def within (cs : Components) (before : Variable → List Variable) (c : Nat) (x : Variable) :
    List Variable :=
  (before x).filter (cs.label · == c + 1)

theorem mem_within : u ∈ cs.within before c x ↔ u ∈ before x ∧ cs.label u = c + 1 := by
  rw [within, List.mem_filter, beq_iff_eq]

/-- A variable is reached for the first time. -/
def reach (cs : Components) (c : Nat) (v : Variable) : Components :=
  { cs with
    component := cs.component.setIfInBounds v (c + 1)
    meetings := cs.meetings.modify v (· + 1) }

/-- A variable is met again by its own component. -/
def meetAgain (cs : Components) (v : Variable) : Components :=
  { cs with meetings := cs.meetings.modify v (· + 1) }

/-- A component runs into another one. -/
def link (cs : Components) (c d : Nat) : Components :=
  { cs with links := cs.links.modify c fun ds => if ds.contains d then ds else ds ++ [d] }

theorem met_modify (hv : v < cs.meetings.size) :
    (cs.meetings.modify v (· + 1)).getD x 0 = if x = v then cs.met v + 1 else cs.met x := by
  rw [Array.getD_eq_getD_getElem?, Array.getElem?_modify, met, met, Array.getD_eq_getD_getElem?,
    Array.getD_eq_getD_getElem?]
  by_cases hx : v = x
  · subst hx
    simp [hv]
  · simp [hx, Ne.symm hx]

theorem met_reach (hv : v < cs.meetings.size) :
    (cs.reach c v).met x = if x = v then cs.met v + 1 else cs.met x := met_modify hv

theorem met_meetAgain (hv : v < cs.meetings.size) :
    (cs.meetAgain v).met x = if x = v then cs.met v + 1 else cs.met x := met_modify hv

theorem label_reach (hv : v < cs.component.size) :
    (cs.reach c v).label x = if x = v then c + 1 else cs.label x :=
  getD_set fun hsize => absurd hv (Nat.not_lt.2 hsize)

theorem linked_link (hc : c < cs.links.size) : (cs.link c v).linked d =
    if d = c then if (cs.linked c).contains v then cs.linked c else cs.linked c ++ [v]
    else cs.linked d := by
  rw [linked, link, Array.getD_eq_getD_getElem?, Array.getElem?_modify, linked, linked,
    Array.getD_eq_getD_getElem?, Array.getD_eq_getD_getElem?]
  by_cases hd : c = d
  · subst hd
    simp [hc]
  · simp [hd, Ne.symm hd]

theorem mem_linked_link (hc : c < cs.links.size) :
    k ∈ (cs.link c v).linked d ↔ k ∈ cs.linked d ∨ d = c ∧ k = v := by
  rw [linked_link hc]
  by_cases hd : d = c
  · subst hd
    by_cases hv : v ∈ cs.linked d
    · rw [if_pos rfl, if_pos (List.contains_iff_mem.2 hv)]
      refine ⟨Or.inl, ?_⟩
      rintro (hk | ⟨-, rfl⟩)
      · exact hk
      · exact hv
    · rw [if_pos rfl, if_neg (by simpa using hv), List.mem_append, List.mem_singleton,
        and_iff_right rfl]
  · simp [hd]

theorem nodup_linked_link (hc : c < cs.links.size) (h : (cs.linked d).Nodup) :
    ((cs.link c v).linked d).Nodup := by
  rw [linked_link hc]
  split
  · rename_i hd
    subst hd
    split
    · exact h
    · rename_i hv
      exact List.nodup_append.2 ⟨h, List.nodup_singleton v, by
        rintro x hx y hy rfl
        exact hv (List.contains_iff_mem.2 (List.mem_singleton.1 hy ▸ hx))⟩
  · exact h

/-- A variable that is reached for the first time is one more parent within its component. -/
theorem length_within_reach (hbefore : (before x).Nodup) (hv : v < cs.component.size)
    (hnew : cs.label v = 0) : ((cs.reach c v).within before d x).length =
      (cs.within before d x).length + if d = c ∧ v ∈ before x then 1 else 0 := by
  rw [within, within, ← List.countP_eq_length_filter, ← List.countP_eq_length_filter]
  generalize before x = us at hbefore ⊢
  induction us with
  | nil => simp
  | cons u us ih =>
      obtain ⟨hu, hus⟩ := List.nodup_cons.1 hbefore
      rw [List.countP_cons, List.countP_cons, ih hus, label_reach hv]
      by_cases huv : u = v
      · subst huv
        by_cases hd : d = c
        · simp [hu, hnew, hd]
        · simp [hu, hnew, hd, Ne.symm hd]
      · simp only [if_neg huv, List.mem_cons, Ne.symm huv, false_or]
        omega

end Components

/-! ## The search from one root -/

/-- The roots before number `k` have been searched from, the last of them except for what is in the
queue. -/
structure Labelled (t : Task) (ns : List Variable) (before : Variable → List Variable)
    (roots : List Variable) (k : Nat) (queue : List Variable) (cs : Components) : Prop where
  component_size : cs.component.size = t.net.size
  meetings_size : cs.meetings.size = t.net.size
  links_size : cs.links.size = roots.length
  queued : queue ⊆ ns
  le : ∀ x, cs.label x ≤ k
  met : ∀ x ∈ ns, cs.met x = 0 ↔ cs.label x = 0
  meets : ∀ x ∈ ns, ∀ c < k, cs.label x = c + 1 ∨ cs.label x = 0 ∧ c + 1 = k →
    cs.met x + (if c + 1 = k then queue.count x else 0) =
      (if roots[c]? = some x then 1 else 0) + (cs.within before c x).length
  started : ∀ c < k, ∀ r, roots[c]? = some r → cs.label r = c + 1 ∨ c + 1 = k ∧ r ∈ queue
  closed : ∀ u ∈ ns, ∀ v ∈ t.childrenOf u, ∀ c, cs.label u = c + 1 →
    c + 1 = k ∧ v ∈ queue ∨ cs.label v = c + 1 ∨ ∃ d ∈ cs.linked c, cs.label v = d + 1
  linked_lt : ∀ c, ∀ d ∈ cs.linked c, d < c
  nodup_linked : ∀ c, (cs.linked c).Nodup

namespace Labelled

/-- A root belongs to its own component. -/
theorem eq_root (L : t.Labelled ns before roots k queue cs) (hx : x ∈ ns) (hbefore : before x = [])
    (hlabel : cs.label x = c + 1) (hc : c + 1 < k) : roots[c]? = some x := by
  have hmeets := L.meets x hx c (by omega) (Or.inl hlabel)
  have hmet := L.met x hx
  have hwithin : cs.within before c x = [] := by rw [Components.within, hbefore, List.filter_nil]
  rw [if_neg (by omega), hwithin] at hmeets
  by_contra hroot
  rw [if_neg hroot] at hmeets
  simp only [List.length_nil] at hmeets
  omega

/-- A variable of the queue is reached for the first time. -/
theorem reach (D : t.Directed ns before) (L : t.Labelled ns before roots (c + 1) (v :: queue) cs)
    (hnew : cs.label v = 0) :
    t.Labelled ns before roots (c + 1) (queue ++ t.childrenOf v) (cs.reach c v) := by
  obtain ⟨hv, hqueue⟩ := List.cons_subset.1 L.queued
  have hlt := D.lt v hv
  have hlabel : ∀ {x}, (cs.reach c v).label x = if x = v then c + 1 else cs.label x :=
    Components.label_reach (L.component_size ▸ hlt)
  have hmet : ∀ {x}, (cs.reach c v).met x = if x = v then cs.met v + 1 else cs.met x :=
    Components.met_reach (L.meetings_size ▸ hlt)
  have hkeep : ∀ {x}, cs.label x ≠ 0 → (cs.reach c v).label x = cs.label x := fun {x} hx => by
    rw [hlabel, if_neg]
    rintro rfl
    exact hx hnew
  refine
    { component_size := (Array.size_setIfInBounds ..).trans L.component_size
      meetings_size := (Array.size_modify ..).trans L.meetings_size
      links_size := L.links_size
      queued := List.append_subset.2 ⟨hqueue, fun x hx => ((D.children v hv x).1 hx).1⟩
      le := fun x => ?_
      met := fun x hx => ?_
      meets := fun x hx d hd hcase => ?_
      started := fun d hd r hr => ?_
      closed := fun u hu w hw d hd => ?_
      linked_lt := L.linked_lt
      nodup_linked := L.nodup_linked }
  · rw [hlabel]
    split
    · exact Nat.le_refl _
    · exact L.le x
  · rw [hlabel, hmet]
    split
    · omega
    · exact L.met x hx
  · rw [hmet, Components.length_within_reach (D.nodup_before x) (L.component_size ▸ hlt) hnew]
    rw [hlabel] at hcase
    have hcount : (t.childrenOf v).count x = if v ∈ before x then 1 else 0 := by
      rw [(D.nodup_children v hv).count]
      simp only [D.children v hv, hx, true_and]
    by_cases hxv : x = v
    · subst hxv
      rw [if_pos rfl] at hcase
      obtain rfl : d = c := by omega
      have hmeets := L.meets x hx d hd (Or.inr ⟨hnew, rfl⟩)
      rw [if_pos rfl, List.count_cons_self] at hmeets
      rw [if_pos rfl, if_pos rfl, List.count_append, hcount]
      simp only [true_and]
      omega
    · rw [if_neg hxv] at hcase
      have hmeets := L.meets x hx d hd hcase
      rw [List.count_cons_of_ne (Ne.symm hxv)] at hmeets
      rw [if_neg hxv, List.count_append, hcount]
      by_cases hdc : d = c
      · subst hdc
        rw [if_pos rfl] at hmeets ⊢
        simp only [true_and]
        omega
      · have hnone : ¬ (d = c ∧ v ∈ before x) := fun h => hdc h.1
        rw [if_neg (by omega)] at hmeets ⊢
        rwa [if_neg hnone]
  · rcases L.started d hd r hr with hr | ⟨hd, hr⟩
    · exact Or.inl ((hkeep (by omega)).trans hr)
    · rcases List.mem_cons.1 hr with rfl | hr
      · exact Or.inl (by rw [hlabel, if_pos rfl, hd])
      · exact Or.inr ⟨hd, List.mem_append_left _ hr⟩
  · by_cases huv : u = v
    · subst huv
      rw [hlabel, if_pos rfl] at hd
      exact Or.inl ⟨hd.symm, List.mem_append_right _ hw⟩
    · rw [hlabel, if_neg huv] at hd
      rcases L.closed u hu w hw d hd with ⟨hd, hw⟩ | hw | ⟨e, he, hw⟩
      · rcases List.mem_cons.1 hw with rfl | hw
        · exact Or.inr (Or.inl (by rw [hlabel, if_pos rfl, hd]))
        · exact Or.inl ⟨hd, List.mem_append_left _ hw⟩
      · exact Or.inr (Or.inl ((hkeep (by omega)).trans hw))
      · exact Or.inr (Or.inr ⟨e, he, (hkeep (by omega)).trans hw⟩)

/-- A variable of the queue that the same search has reached before. -/
theorem meetAgain (D : t.Directed ns before)
    (L : t.Labelled ns before roots (c + 1) (v :: queue) cs) (hown : cs.label v = c + 1) :
    t.Labelled ns before roots (c + 1) queue (cs.meetAgain v) := by
  obtain ⟨hv, hqueue⟩ := List.cons_subset.1 L.queued
  have hmet : ∀ {x}, (cs.meetAgain v).met x = if x = v then cs.met v + 1 else cs.met x :=
    Components.met_meetAgain (L.meetings_size ▸ D.lt v hv)
  have hlabel : ∀ x, (cs.meetAgain v).label x = cs.label x := fun _ => rfl
  refine
    { component_size := L.component_size
      meetings_size := (Array.size_modify ..).trans L.meetings_size
      links_size := L.links_size
      queued := hqueue
      le := L.le
      met := fun x hx => ?_
      meets := fun x hx d hd hcase => ?_
      started := fun d hd r hr => ?_
      closed := fun u hu w hw d hd => ?_
      linked_lt := L.linked_lt
      nodup_linked := L.nodup_linked }
  · rw [hmet, hlabel]
    split
    · rename_i hxv
      rw [hxv]
      omega
    · exact L.met x hx
  · have hmeets := L.meets x hx d hd hcase
    change _ = _ + (cs.within before d x).length
    rw [hmet]
    by_cases hxv : x = v
    · subst hxv
      have hdc : d + 1 = c + 1 := by
        rw [hlabel] at hcase
        omega
      rw [if_pos hdc, List.count_cons_self] at hmeets
      rw [if_pos rfl, if_pos hdc]
      omega
    · rw [List.count_cons_of_ne (Ne.symm hxv)] at hmeets
      rwa [if_neg hxv]
  · rcases L.started d hd r hr with hr | ⟨hd, hr⟩
    · exact Or.inl hr
    · rcases List.mem_cons.1 hr with rfl | hr
      · exact Or.inl (hown.trans hd.symm)
      · exact Or.inr ⟨hd, hr⟩
  · rcases L.closed u hu w hw d hd with ⟨hdc, hw⟩ | hw
    · rcases List.mem_cons.1 hw with rfl | hw
      · exact Or.inr (Or.inl (hown.trans hdc.symm))
      · exact Or.inl ⟨hdc, hw⟩
    · exact Or.inr hw

/-- A variable of the queue that a search before has reached. -/
theorem link (hroots : roots.Nodup) (hsource : ∀ r ∈ roots, before r = [])
    (hc : c < roots.length) (L : t.Labelled ns before roots (c + 1) (v :: queue) cs)
    (hother : cs.label v = d + 1) (hd : d ≠ c) :
    t.Labelled ns before roots (c + 1) queue (cs.link c d) := by
  obtain ⟨hv, hqueue⟩ := List.cons_subset.1 L.queued
  have hle := L.le v
  have hlinked : ∀ {k e}, k ∈ (cs.link c d).linked e ↔ k ∈ cs.linked e ∨ e = c ∧ k = d :=
    Components.mem_linked_link (L.links_size ▸ hc)
  have hlabel : ∀ x, (cs.link c d).label x = cs.label x := fun _ => rfl
  refine
    { component_size := L.component_size
      meetings_size := L.meetings_size
      links_size := (Array.size_modify ..).trans L.links_size
      queued := hqueue
      le := L.le
      met := L.met
      meets := fun x hx e he hcase => ?_
      started := fun e he r hr => ?_
      closed := fun u hu w hw e he => ?_
      linked_lt := fun e k hk => ?_
      nodup_linked := fun e =>
        Components.nodup_linked_link (L.links_size ▸ hc) (L.nodup_linked e) }
  · have hmeets := L.meets x hx e he hcase
    by_cases hxv : v = x
    · subst hxv
      rw [hlabel] at hcase
      rw [if_neg (by omega)] at hmeets ⊢
      exact hmeets
    · rw [List.count_cons_of_ne hxv] at hmeets
      exact hmeets
  · rcases L.started e he r hr with hr | ⟨hec, hr'⟩
    · exact Or.inl hr
    · rcases List.mem_cons.1 hr' with rfl | hr'
      · have hfirst := L.eq_root hv (hsource r (List.mem_of_getElem? hr)) hother (by omega)
        obtain rfl := (List.getElem?_inj (List.getElem?_eq_some_iff.1 hr).1 hroots).1
          (hr.trans hfirst.symm)
        omega
      · exact Or.inr ⟨hec, hr'⟩
  · rcases L.closed u hu w hw e he with ⟨hec, hw⟩ | hw | ⟨k, hk, hw⟩
    · rcases List.mem_cons.1 hw with rfl | hw
      · exact Or.inr (Or.inr ⟨d, hlinked.2 (Or.inr ⟨by omega, rfl⟩), hother⟩)
      · exact Or.inl ⟨hec, hw⟩
    · exact Or.inr (Or.inl hw)
    · exact Or.inr (Or.inr ⟨k, hlinked.2 (Or.inl hk), hw⟩)
  · rcases hlinked.1 hk with hk | ⟨rfl, rfl⟩
    · exact L.linked_lt e k hk
    · omega

/-- The next root is put in the queue. -/
theorem enqueue (L : t.Labelled ns before roots k [] cs) (hv : v ∈ ns) (hk : roots[k]? = some v) :
    t.Labelled ns before roots (k + 1) [v] cs where
  component_size := L.component_size
  meetings_size := L.meetings_size
  links_size := L.links_size
  queued := List.cons_subset.2 ⟨hv, List.nil_subset _⟩
  le x := (L.le x).trans (Nat.le_succ k)
  met := L.met
  meets x hx c hc hcase := by
    have hle := L.le x
    by_cases hck : c = k
    · subst hck
      have hnew : cs.label x = 0 := by omega
      have hnone : cs.within before c x = [] := by
        refine List.filter_eq_nil_iff.2 fun u _ => ?_
        have hle := L.le u
        rw [beq_iff_eq]
        omega
      rw [(L.met x hx).2 hnew, hnone, if_pos rfl, hk, List.count_singleton]
      simp
    · have hmeets := L.meets x hx c (by omega) (by omega)
      rw [List.count_nil, ite_self] at hmeets
      rwa [if_neg (by omega)]
  started c hc r hr := by
    rcases Nat.lt_succ_iff_lt_or_eq.1 hc with hc | rfl
    · exact Or.inl ((L.started c hc r hr).resolve_right fun h => List.not_mem_nil h.2)
    · obtain rfl := Option.some.inj (hr.symm.trans hk)
      exact Or.inr ⟨rfl, List.mem_cons_self ..⟩
  closed u hu w hw c hc :=
    Or.inr ((L.closed u hu w hw c hc).resolve_left fun h => List.not_mem_nil h.2)
  linked_lt := L.linked_lt
  nodup_linked := L.nodup_linked

/-- When all roots have been searched from, every variable has been reached. -/
theorem label_ne_zero (D : t.Directed ns before) (hroots : roots ~ t.roots)
    (L : t.Labelled ns before roots roots.length [] cs) : ∀ v ∈ ns, cs.label v ≠ 0 := by
  refine D.grounded.all D.subset fun v hv hbefore => ?_
  cases hparents : before v with
  | nil =>
      obtain ⟨c, hc⟩ := List.getElem?_of_mem (hroots.mem_iff.2 ((D.roots v).2 ⟨hv, hparents⟩))
      have hstarted := L.started c (List.getElem?_eq_some_iff.1 hc).1 v hc
      have hlabel := hstarted.resolve_right fun h => List.not_mem_nil h.2
      omega
  | cons u us =>
      have hu : u ∈ before v := hparents ▸ List.mem_cons_self ..
      obtain ⟨c, hc⟩ := Nat.exists_eq_succ_of_ne_zero (hbefore u hu)
      have hchild := (D.children u (D.subset v hv hu) v).2 ⟨hv, hu⟩
      rcases L.closed u (D.subset v hv hu) v hchild c hc with ⟨-, hw⟩ | hw | ⟨d, -, hw⟩
      · exact absurd hw List.not_mem_nil
      all_goals omega

end Labelled

theorem label_spec (D : t.Directed ns before) (hroots : roots ~ t.roots) (hc : c < roots.length) :
    ∀ {fuel : Nat} {queue : List Variable} {cs : Components},
      t.Labelled ns before roots (c + 1) queue cs →
      queue.length + t.edgesFrom ns (cs.label · == 0) ≤ fuel →
      t.Labelled ns before roots (c + 1) [] (t.label c fuel queue cs)
  | 0, queue, cs, L, hfuel => by
      obtain rfl : queue = [] := List.length_eq_zero_iff.1 (by omega)
      exact L
  | fuel + 1, [], cs, L, _ => L
  | fuel + 1, v :: queue, cs, L, hfuel => by
      rw [List.length_cons] at hfuel
      have hv := L.queued (List.mem_cons_self ..)
      have hlabel : ∀ x, (cs.reach c v).label x = if x = v then c + 1 else cs.label x := fun x =>
        Components.label_reach (L.component_size ▸ D.lt v hv)
      rw [label]
      split
      · rename_i hnew
        have hedges := D.edgesFrom_visit (cs.label · == 0) ((cs.reach c v).label · == 0) hv hnew
          fun x _ => by
            rw [hlabel, beq_iff_eq, beq_iff_eq]
            split <;> simp_all
        refine label_spec D hroots hc (L.reach D (beq_iff_eq.1 hnew)) ?_
        change _ + t.edgesFrom ns ((cs.reach c v).label · == 0) ≤ fuel
        rw [List.length_append]
        omega
      · split
        · rename_i hown
          exact label_spec D hroots hc (L.meetAgain D (beq_iff_eq.1 hown)) (by
            change _ + t.edgesFrom ns (cs.label · == 0) ≤ fuel
            omega)
        · rename_i hnew hown
          obtain ⟨d, hd⟩ := Nat.exists_eq_succ_of_ne_zero (mt beq_iff_eq.2 hnew)
          have hother : d ≠ c := by
            rintro rfl
            exact hown (beq_iff_eq.2 hd)
          rw [hd, Nat.succ_sub_one]
          refine label_spec D hroots hc (L.link (hroots.nodup_iff.2 D.nodup_roots)
            (fun r hr => ((D.roots r).1 (hroots.mem_iff.1 hr)).2) hc hd hother) ?_
          change _ + t.edgesFrom ns (cs.label · == 0) ≤ fuel
          omega

/-- Before the first search nothing has been reached. -/
theorem labelled_start : t.Labelled ns before roots 0 []
    ⟨Array.replicate t.net.size 0, Array.replicate t.net.size 0,
      Array.replicate roots.length []⟩ := by
  have hzero : ∀ x, (Array.replicate t.net.size 0).getD x 0 = 0 := fun x => by
    rw [Array.getD_eq_getD_getElem?, Array.getElem?_replicate]
    split <;> rfl
  have hnone : ∀ c, (Array.replicate roots.length ([] : List Nat)).getD c [] = [] := fun c => by
    rw [Array.getD_eq_getD_getElem?, Array.getElem?_replicate]
    split <;> rfl
  refine
    { component_size := Array.size_replicate
      meetings_size := Array.size_replicate
      links_size := Array.size_replicate
      queued := List.nil_subset _
      le := fun x => (hzero x).le
      met := fun x _ => iff_of_true (hzero x) (hzero x)
      meets := fun _ _ _ hc => absurd hc (Nat.not_lt_zero _)
      started := fun _ hc => absurd hc (Nat.not_lt_zero _)
      closed := fun u _ _ _ c hc => absurd ((hzero u).symm.trans hc) (Nat.succ_ne_zero c).symm
      linked_lt := fun c d hd => ?_
      nodup_linked := fun c => ?_ }
  · rw [Components.linked, hnone] at hd
    exact absurd hd List.not_mem_nil
  · rw [Components.linked, hnone]
    exact List.nodup_nil

/-- The searches from the roots, one after the other. -/
theorem labelAll_spec (D : t.Directed ns before) (hroots : roots ~ t.roots) :
    t.Labelled ns before roots roots.length [] (t.labelAll roots) := by
  have hsearch : ∀ (rest : List Variable) (k : Nat) (cs : Components), roots.drop k = rest →
      t.Labelled ns before roots k [] cs →
      t.Labelled ns before roots (k + rest.length) []
        ((rest.zipIdx k).foldl (fun cs s => t.label s.2 (t.edgeCount + 1) [s.1] cs) cs) := by
    intro rest
    induction rest with
    | nil => exact fun _ _ _ L => L
    | cons r rest ih =>
        intro k cs hdrop L
        have hk : roots[k]? = some r := by
          have hhead := congrArg (·[0]?) hdrop
          simpa using hhead
        have hlt := (List.getElem?_eq_some_iff.1 hk).1
        have hr := ((D.roots r).1 (hroots.mem_iff.1 (List.mem_of_getElem? hk))).1
        have hnext : roots.drop (k + 1) = rest := by
          rw [← List.drop_drop, hdrop]
          rfl
        rw [List.zipIdx_cons, List.foldl_cons, List.length_cons, Nat.add_comm rest.length,
          ← Nat.add_assoc]
        refine ih (k + 1) _ hnext (label_spec D hroots hlt (L.enqueue hr hk) ?_)
        rw [List.length_singleton, Nat.add_comm]
        exact Nat.add_le_add_right D.edgesFrom_le 1
  have hall := hsearch roots 0 _ rfl labelled_start
  rwa [Nat.zero_add] at hall

end BayesCircuit.Ordering.Task
