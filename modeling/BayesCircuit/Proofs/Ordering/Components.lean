import BayesCircuit.Proofs.Ordering.Labels
import Mathlib.Data.List.Flatten

/-!
# The ordering by components

Each component is sorted by itself, its variables being counted down along the edges inside it. The
links lead from a component to some that were searched before, so the components can be sorted too,
and all of them are placed. Joining the components in this order sorts all variables.
-/

namespace BayesCircuit.Ordering.Task

open Collection BayesCircuit.Bound
open scoped List

variable {t : Task} {ns queue placed roots : List Variable} {before : Variable → List Variable}
variable {cs : Components} {u v x r : Variable} {c d n : Nat} {meetings component : Array Nat}

/-! ## Sorting one component -/

/-- The children that belong to a component are counted down. -/
theorem meet_spec (c : Nat) (component : Array Nat) : ∀ (xs : List Variable)
    (meetings : Array Nat), xs.Nodup →
    (∀ x ∈ xs, component.getD x 0 = c + 1 → meetings.getD x 0 ≠ 0) →
    CountsDown (meetings.getD · 0) ((meet c component xs meetings).1.getD · 0)
      (xs.filter (component.getD · 0 == c + 1)) (meet c component xs meetings).2
  | [], _, _, _ => .nil
  | x :: xs, meetings, hnodup, hpos => by
      obtain ⟨hx, hxs⟩ := List.nodup_cons.1 hnodup
      obtain ⟨hfirst, hpos⟩ := List.forall_mem_cons.1 hpos
      rw [meet]
      by_cases hin : component.getD x 0 = c + 1
      · have hrest := meet_spec c component xs
          (meetings.setIfInBounds x (meetings.getD x 0 - 1)) hxs fun y hy hyin => by
            rw [getD_countDown, if_neg]
            · exact hpos y hy hyin
            · rintro rfl
              exact hx hy
        simp only [getD_countDown] at hrest
        have hcons : CountsDown (meetings.getD · 0) _ (x :: _) (if meetings.getD x 0 = 1 then x :: _
            else _) := .cons (fun h => hx (List.mem_filter.1 h).1) hrest
        have hlast : (meetings.getD x 0 - 1 == 0) = decide (meetings.getD x 0 = 1) := by
          have hne := hfirst hin
          rw [Bool.eq_iff_iff, beq_iff_eq, decide_eq_true_eq]
          omega
        have htrue : (component.getD x 0 == c + 1) = true := beq_iff_eq.2 hin
        rw [List.filter_cons, if_pos htrue, if_pos htrue]
        simp only [hlast, decide_eq_true_eq]
        exact hcons
      · have hfalse : ¬ (component.getD x 0 == c + 1) = true := mt beq_iff_eq.1 hin
        rw [List.filter_cons, if_neg hfalse, if_neg hfalse]
        exact meet_spec c component xs meetings hxs hpos

/-- Other components are not counted. -/
theorem meet_other (hx : component.getD x 0 ≠ c + 1) :
    ∀ {xs : List Variable} {meetings : Array Nat},
    (meet c component xs meetings).1.getD x 0 = meetings.getD x 0
  | [], _ => rfl
  | y :: ys, meetings => by
      rw [meet]
      split
      · rename_i hy
        rw [meet_other hx, getD_countDown, if_neg]
        rintro rfl
        exact hx (beq_iff_eq.1 hy)
      · exact meet_other hx

theorem placeComponent_other (hx : component.getD x 0 ≠ c + 1) :
    ∀ {fuel : Nat} {queue : List Variable} {meetings : Array Nat},
      (t.placeComponent c component fuel queue meetings).2.getD x 0 = meetings.getD x 0
  | 0, _, _ => rfl
  | fuel + 1, [], _ => rfl
  | fuel + 1, v :: queue, meetings => by
      rw [placeComponent]
      exact (placeComponent_other hx).trans (meet_other hx)

/-- The variables of a component. -/
def Components.members (cs : Components) (ns : List Variable) (c : Nat) : List Variable :=
  ns.filter (cs.label · == c + 1)

theorem Components.mem_members : x ∈ cs.members ns c ↔ x ∈ ns ∧ cs.label x = c + 1 := by
  rw [members, List.mem_filter, beq_iff_eq]

/-- Where the sort of a component stands. Its root waits for nothing although it has been met. -/
abbrev SortsComponent (cs : Components) (ns : List Variable) (before : Variable → List Variable)
    (c : Nat) (root : Variable) (meetings : Array Nat) : List Variable → List Variable → Prop :=
  Sorts (cs.members ns c) (cs.within before c) fun x => if x ≠ root then meetings.getD x 0 else 0

/-- Placing a variable of a component. -/
theorem SortsComponent.place (D : t.Directed ns before) (hr : before r = [])
    (K : SortsComponent cs ns before c r meetings (v :: queue) placed) :
    SortsComponent cs ns before c r (meet c cs.component (t.childrenOf v) meetings).1
      (queue ++ (meet c cs.component (t.childrenOf v) meetings).2) (v :: placed) := by
  obtain ⟨hv, hlabel⟩ := Components.mem_members.1 (K.subset (List.mem_cons_self ..))
  have hmem : ∀ x, x ∈ (t.childrenOf v).filter (cs.component.getD · 0 == c + 1) ↔
      x ∈ cs.members ns c ∧ v ∈ cs.within before c x := fun x => by
    rw [List.mem_filter, D.children v hv, beq_iff_eq, Components.mem_members, Components.mem_within]
    change _ ∧ cs.label x = c + 1 ↔ _
    tauto
  have hdown := meet_spec c cs.component (t.childrenOf v) meetings
    (D.nodup_children v hv) fun x hx hin => by
      obtain ⟨hx, hafter⟩ := (hmem x).1 (List.mem_filter.2 ⟨hx, beq_iff_eq.2 hin⟩)
      have hwaits := K.waits_of_mem hx hafter
      exact fun hzero => hwaits (by rw [hzero, ite_self])
  refine (Sorts.place K (fun x => (D.nodup_before x).filter _) hmem
    (hdown.only (· ≠ r) fun x hx => ?_)).perm_ready List.perm_append_comm
  rintro rfl
  have hafter := (Components.mem_within.1 ((hmem x).1 hx).2).1
  rw [hr] at hafter
  exact List.not_mem_nil hafter

theorem placeComponent_spec (D : t.Directed ns before) (hr : before r = []) :
    ∀ {fuel : Nat} {queue placed : List Variable} {meetings : Array Nat},
      SortsComponent cs ns before c r meetings queue placed →
      (cs.members ns c).length ≤ fuel + placed.length →
      Sorted (cs.members ns c) (cs.within before c)
        (placed.reverse ++ (t.placeComponent c cs.component fuel queue meetings).1)
  | 0, queue, placed, meetings, K, hfuel => by
      rw [placeComponent, List.append_nil]
      exact K.complete_of_length (by rwa [Nat.zero_add] at hfuel)
  | fuel + 1, [], placed, meetings, K, _ => by
      have hground : Grounded (cs.members ns c) (cs.within before c) :=
        D.grounded.mono (List.filter_subset_self _) fun x _ => List.filter_subset_self _
      change Sorted _ _ (placed.reverse ++ [])
      rw [List.append_nil]
      refine K.complete (D.nodup.filter _) hground fun x hx u hu => ?_
      obtain ⟨hu, hlabel⟩ := Components.mem_within.1 hu
      exact Components.mem_members.2 ⟨D.subset x (Components.mem_members.1 hx).1 hu, hlabel⟩
  | fuel + 1, v :: queue, placed, meetings, K, hfuel => by
      have hleft : (cs.members ns c).length ≤ fuel + (v :: placed).length := by
        rw [List.length_cons]
        omega
      have hrest := placeComponent_spec D hr (K.place D hr) hleft
      rwa [List.reverse_cons, List.append_assoc] at hrest

/-- At first the root of a component is ready. -/
theorem Labelled.sortsComponent (D : t.Directed ns before)
    (L : t.Labelled ns before roots roots.length [] cs) (hroots : roots ~ t.roots)
    (hr : roots[c]? = some r) (hsame : ∀ x, cs.label x = c + 1 → meetings.getD x 0 = cs.met x) :
    SortsComponent cs ns before c r meetings [r] [] := by
  have hc : c < roots.length := (List.getElem?_eq_some_iff.1 hr).1
  obtain ⟨hin, hbefore⟩ := (D.roots r).1 (hroots.mem_iff.1 (List.mem_of_getElem? hr))
  have hlabel := (L.started c hc r hr).resolve_right fun h => List.not_mem_nil h.2
  have hwaits : ∀ x ∈ cs.members ns c,
      (if x ≠ r then meetings.getD x 0 else 0) = (cs.within before c x).length := by
    intro x hx
    obtain ⟨hx, hlabelx⟩ := Components.mem_members.1 hx
    split
    · rename_i hne
      have hmeets := L.meets x hx c hc (Or.inl hlabelx)
      have hroot : ¬ roots[c]? = some x := fun h => hne (Option.some.inj (h.symm.trans hr))
      rw [List.count_nil, ite_self, if_neg hroot] at hmeets
      rw [hsame x hlabelx]
      omega
    · rename_i hx
      obtain rfl := not_not.1 hx
      rw [Components.within, hbefore]
      rfl
  refine Sorts.start (List.nodup_singleton r) (fun x => ?_) hwaits
  rw [List.mem_singleton]
  constructor
  · rintro rfl
    refine ⟨Components.mem_members.2 ⟨hin, hlabel⟩, ?_⟩
    rw [Components.within, hbefore]
    rfl
  · rintro ⟨hx, hnone⟩
    by_contra hne
    have hzero := hwaits x hx
    obtain ⟨hx, hlabelx⟩ := Components.mem_members.1 hx
    rw [if_pos hne, hsame x hlabelx, hnone] at hzero
    have hmet := (L.met x hx).1 hzero
    omega

theorem Labelled.sorted_component (D : t.Directed ns before)
    (L : t.Labelled ns before roots roots.length [] cs) (hroots : roots ~ t.roots)
    (hr : roots[c]? = some r) (hsame : ∀ x, cs.label x = c + 1 → meetings.getD x 0 = cs.met x) :
    Sorted (cs.members ns c) (cs.within before c)
      (t.placeComponent c cs.component (t.net.size + 1) [r] meetings).1 := by
  have hfuel : (cs.members ns c).length ≤ t.net.size + 1 + ([] : List Variable).length :=
    (List.length_filter_le _ _).trans (D.length_le.trans (Nat.le_succ _))
  obtain ⟨-, hbefore⟩ := (D.roots r).1 (hroots.mem_iff.1 (List.mem_of_getElem? hr))
  exact placeComponent_spec D hbefore (L.sortsComponent D hroots hr hsame) hfuel

/-- The components are sorted one after the other. -/
theorem placeComponents_spec (D : t.Directed ns before)
    (L : t.Labelled ns before roots roots.length [] cs) (hroots : roots ~ t.roots) :
    ∀ {rs : List (Variable × Nat)} {meetings : Array Nat}, (rs.map (·.2)).Nodup →
      (∀ s ∈ rs, roots[s.2]? = some s.1) →
      (∀ s ∈ rs, ∀ x, cs.label x = s.2 + 1 → meetings.getD x 0 = cs.met x) →
      List.Forall₂
        (fun s order => Sorted (cs.members ns s.2) (cs.within before s.2) order) rs
        (t.placeComponents cs.component rs meetings)
  | [], _, _, _, _ => .nil
  | (r, c) :: rs, meetings, hnodup, hrs, hsame => by
      rw [List.map_cons, List.nodup_cons] at hnodup
      obtain ⟨hr, hrs⟩ := List.forall_mem_cons.1 hrs
      obtain ⟨hfirst, hsame⟩ := List.forall_mem_cons.1 hsame
      rw [placeComponents]
      refine .cons (L.sorted_component D hroots hr hfirst)
        (placeComponents_spec D L hroots hnodup.2 hrs fun s hs x hx => ?_)
      have hother : cs.label x ≠ c + 1 := fun hc =>
        hnodup.1 (List.mem_map.2 ⟨s, hs, Nat.succ_inj.1 (hx.symm.trans hc)⟩)
      have hkept : (t.placeComponent c cs.component (t.net.size + 1) [r] meetings).2.getD x 0 =
          meetings.getD x 0 := placeComponent_other hother
      exact hkept.trans (hsame s hs x hx)

/-! ## Sorting the components -/

/-- The components that run into a component. -/
def Components.priors (cs : Components) (n d : Nat) : List Nat :=
  (List.range n).filter fun c => d ∈ cs.linked c

theorem Components.mem_priors : c ∈ cs.priors n d ↔ c < n ∧ d ∈ cs.linked c := by
  rw [priors, List.mem_filter, List.mem_range, decide_eq_true_eq]

theorem Components.nodup_priors : (cs.priors n d).Nodup := List.nodup_range.filter _

/-- Links lead to components that were searched before. -/
theorem Labelled.grounded (L : t.Labelled ns before roots n queue cs) :
    Grounded (List.range n) (cs.priors n) := by
  intro ds _ hne
  obtain ⟨d, hd, hmax⟩ := ds.toFinset.exists_max_image id
    (List.toFinset_nonempty_iff ds |>.2 hne)
  refine ⟨d, List.mem_toFinset.1 hd, fun c hc hcd => ?_⟩
  have hlt := L.linked_lt c d (Components.mem_priors.1 hc).2
  have hle := hmax c (List.mem_toFinset.2 hcd)
  exact absurd hlt (Nat.not_lt.2 hle)

/-- A component that a placed one runs into is counted down. -/
def unlink (s : Array Nat × List Nat) (d : Nat) : Array Nat × List Nat :=
  let left := s.1.getD d 0 - 1
  (s.1.setIfInBounds d left, if left == 0 then s.2 ++ [d] else s.2)

theorem unlink_spec : ∀ (ds : List Nat) (waiting : Array Nat) (first : List Nat), ds.Nodup →
    (∀ d ∈ ds, waiting.getD d 0 ≠ 0) →
    ∃ free, (ds.foldl unlink (waiting, first)).2 = first ++ free ∧
      CountsDown (waiting.getD · 0) ((ds.foldl unlink (waiting, first)).1.getD · 0) ds free
  | [], _, first, _, _ => ⟨[], (List.append_nil first).symm, .nil⟩
  | d :: ds, waiting, first, hnodup, hpos => by
      obtain ⟨hd, hds⟩ := List.nodup_cons.1 hnodup
      obtain ⟨hfirst, hpos⟩ := List.forall_mem_cons.1 hpos
      obtain ⟨free, hfree, hrest⟩ := unlink_spec ds
        (waiting.setIfInBounds d (waiting.getD d 0 - 1))
        (if waiting.getD d 0 - 1 == 0 then first ++ [d] else first) hds fun e he => by
          rw [getD_countDown, if_neg]
          · exact hpos e he
          · rintro rfl
            exact hd he
      simp only [getD_countDown] at hrest
      have hcons : CountsDown (waiting.getD · 0) _ (d :: ds)
          (if waiting.getD d 0 = 1 then d :: free else free) := .cons hd hrest
      refine ⟨_, ?_, hcons⟩
      rw [List.foldl_cons]
      refine hfree.trans ?_
      by_cases hone : waiting.getD d 0 = 1
      · rw [if_pos hone, if_pos (by rw [hone]; rfl), List.append_assoc]
        rfl
      · rw [if_neg hone, if_neg (by rw [beq_iff_eq]; omega)]

theorem placeLinked_spec (L : t.Labelled ns before roots n queue cs) :
    ∀ {fuel : Nat} {waiting : Array Nat} {ready placed : List Nat},
      Sorts (List.range n) (cs.priors n) (waiting.getD · 0) ready placed →
      n ≤ fuel + placed.length →
      Sorted (List.range n) (cs.priors n)
        (placed.reverse ++ placeLinked cs.links fuel waiting ready)
  | 0, waiting, ready, placed, K, hfuel => by
      rw [placeLinked, List.append_nil]
      exact K.complete_of_length (by rwa [Nat.zero_add, ← List.length_range (n := n)] at hfuel)
  | fuel + 1, waiting, [], placed, K, _ => by
      change Sorted _ _ (placed.reverse ++ [])
      rw [List.append_nil]
      exact K.complete List.nodup_range L.grounded fun d _ c hc =>
        List.mem_range.2 (Components.mem_priors.1 hc).1
  | fuel + 1, waiting, c :: ready, placed, K, hfuel => by
      have hc : c < n := List.mem_range.1 (K.subset (List.mem_cons_self ..))
      have hmem : ∀ d, d ∈ cs.linked c ↔ d ∈ List.range n ∧ c ∈ cs.priors n d := fun d => by
        rw [Components.mem_priors, List.mem_range, and_iff_right hc]
        exact ⟨fun hd => ⟨(L.linked_lt c d hd).trans hc, hd⟩, fun hd => hd.2⟩
      obtain ⟨free, hfree, hdown⟩ := unlink_spec (cs.linked c) waiting [] (L.nodup_linked c)
        fun d hd => K.waits_of_mem ((hmem d).1 hd).1 ((hmem d).1 hd).2
      rw [List.nil_append] at hfree
      have hnext := (K.place (fun _ => Components.nodup_priors) hmem hdown).perm_ready
        List.perm_append_comm
      have hleft : n ≤ fuel + (c :: placed).length := by
        rw [List.length_cons]
        omega
      rw [← hfree] at hnext
      have hrest := placeLinked_spec L hnext hleft
      rwa [List.reverse_cons, List.append_assoc] at hrest

/-! ## Joining the components -/

theorem sum_count (hnodup : ∀ c, (cs.linked c).Nodup) (ns : List Nat) :
    (ns.map fun c => (cs.linked c).count d).sum = (ns.filter fun c => d ∈ cs.linked c).length := by
  induction ns with
  | nil => rfl
  | cons c ns ih =>
      rw [List.map_cons, List.sum_cons, ih, (hnodup c).count, List.filter_cons]
      by_cases hd : d ∈ cs.linked c
      · simp [hd, Nat.add_comm]
      · simp [hd]

/-- At first the components are ready to which no component runs. -/
theorem Labelled.sortsLinked (L : t.Labelled ns before roots n queue cs) (hn : n = roots.length) :
    let waiting := (Array.range n).map fun c => sumOf (cs.links.toList.map (·.count c))
    Sorts (List.range n) (cs.priors n) (waiting.getD · 0)
      ((List.range n).filter fun c => waiting.getD c 0 == 0) [] := by
  intro waiting
  have hlinks : cs.links.toList = (List.range n).map cs.linked := by
    refine List.ext_getElem? fun i => ?_
    have hsize : cs.links.size = n := L.links_size.trans hn.symm
    rw [Array.getElem?_toList, List.getElem?_map]
    rcases Nat.lt_or_ge i n with hi | hi
    · rw [List.getElem?_range hi, Option.map_some, Components.linked, Array.getD_eq_getD_getElem?]
      simp [hsize, hi]
    · rw [List.getElem?_eq_none (by rwa [List.length_range]),
        Array.getElem?_eq_none (by rwa [hsize])]
      rfl
  have hwaiting : ∀ d ∈ List.range n, waiting.getD d 0 = (cs.priors n d).length := by
    intro d hd
    have hget : waiting.getD d 0 = sumOf (cs.links.toList.map (·.count d)) := by
      simp [waiting, Array.getD_eq_getD_getElem?, List.mem_range.1 hd]
    rw [hget, sumOf_eq, hlinks, List.map_map]
    exact sum_count L.nodup_linked _
  refine Sorts.start (List.nodup_range.filter _) (fun d => ?_) hwaiting
  rw [List.mem_filter, beq_iff_eq]
  exact and_congr_right fun hd => by rw [hwaiting d hd, List.length_eq_zero_iff]

/-- Every root has its sorted component at its own number. -/
theorem Labelled.sorted_orders (D : t.Directed ns before)
    (L : t.Labelled ns before roots roots.length [] cs) (hroots : roots ~ t.roots)
    (hc : c < roots.length) : Sorted (cs.members ns c) (cs.within before c)
      ((t.placeComponents cs.component roots.zipIdx cs.meetings).toArray.getD c []) := by
  have hnodup : (roots.zipIdx.map (·.2)).Nodup := by
    change (roots.zipIdx.map Prod.snd).Nodup
    rw [List.zipIdx_map_snd]
    exact List.nodup_range'
  have hsorted := placeComponents_spec D L hroots hnodup
    (fun s hs => List.mk_mem_zipIdx_iff_getElem?.1 hs) fun _ _ _ _ => rfl
  have hlength := hsorted.length_eq
  rw [List.length_zipIdx] at hlength
  have hget := hsorted.get (by rwa [List.length_zipIdx]) (hlength ▸ hc)
  rw [List.get_eq_getElem, List.get_eq_getElem, List.getElem_zipIdx, Nat.zero_add] at hget
  rwa [Array.getD_eq_getD_getElem?, List.getElem?_toArray, List.getElem?_eq_getElem (hlength ▸ hc)]

variable {order : Nat → List Variable}

/-- Joining the sorted components in a sorted order: the parents of a variable come before it within
its component, or belong to a component that comes before. -/
theorem Labelled.sorted_join (D : t.Directed ns before) (L : t.Labelled ns before roots n [] cs)
    (hlabel : ∀ v ∈ ns, cs.label v ≠ 0)
    (horder : ∀ c < n, Sorted (cs.members ns c) (cs.within before c) (order c))
    (hplaced : Sorted (List.range n) (cs.priors n) placed) :
    Sorted ns before (placed.flatMap order) := by
  have hmem : ∀ {c v}, c < n → (v ∈ order c ↔ v ∈ ns ∧ cs.label v = c + 1) := fun hc =>
    (horder _ hc).perm.mem_iff.trans Components.mem_members
  have hcomponent : ∀ {v}, v ∈ ns → ∃ c < n, cs.label v = c + 1 := fun {v} hv => by
    obtain ⟨c, hc⟩ := Nat.exists_eq_succ_of_ne_zero (hlabel v hv)
    have hle := L.le v
    exact ⟨c, by omega, hc⟩
  have hjoin : (List.range n).flatMap order ~ ns := by
    refine (List.perm_ext_iff_of_nodup ?_ D.nodup).2 fun v => ?_
    · refine List.nodup_flatMap.2 ⟨fun c hc => ?_, ?_⟩
      · exact (horder c (List.mem_range.1 hc)).perm.nodup_iff.2 (D.nodup.filter _)
      · refine List.nodup_range.imp_of_mem fun {c d} hc hd hne v hv hw => hne ?_
        have hvc := ((hmem (List.mem_range.1 hc)).1 hv).2
        have hvd := ((hmem (List.mem_range.1 hd)).1 hw).2
        omega
    · rw [List.mem_flatMap]
      constructor
      · rintro ⟨c, hc, hv⟩
        exact ((hmem (List.mem_range.1 hc)).1 hv).1
      · intro hv
        obtain ⟨c, hc, hlabel⟩ := hcomponent hv
        exact ⟨c, List.mem_range.2 hc, (hmem hc).2 ⟨hv, hlabel⟩⟩
  have hperm := (hplaced.perm.flatMap_right order).trans hjoin
  refine ⟨hperm, fun v hv u hu => ?_⟩
  rw [hperm.mem_iff] at hv
  have hun := D.subset v hv hu
  obtain ⟨c, hc, hlabelu⟩ := hcomponent hun
  rcases L.closed u hun v ((D.children u hun v).2 ⟨hv, hu⟩) c hlabelu with
    ⟨-, hq⟩ | hsame | ⟨d, hd, hother⟩
  · exact absurd hq List.not_mem_nil
  · have hafter := (horder c hc).follows v ((hmem hc).2 ⟨hv, hsame⟩) u
      (Components.mem_within.2 ⟨hu, hlabelu⟩)
    have hin : c ∈ placed := hplaced.perm.mem_iff.2 (List.mem_range.2 hc)
    exact hafter.trans (List.sublist_flatten_of_mem (List.mem_map_of_mem hin))
  · have hdn := (L.linked_lt c d hd).trans hc
    have hin : d ∈ placed := hplaced.perm.mem_iff.2 (List.mem_range.2 hdn)
    have hafter := (hplaced.follows d hin c (Components.mem_priors.2 ⟨hc, hd⟩)).flatMap order
    refine List.Sublist.trans ?_ hafter
    rw [List.flatMap_cons, List.flatMap_cons]
    exact (List.singleton_sublist.2 ((hmem hc).2 ⟨hun, hlabelu⟩)).append
      ((List.singleton_sublist.2 ((hmem hdn).2 ⟨hv, hother⟩)).trans (List.sublist_append_left _ _))

/-- The ordering by components sorts all variables. -/
theorem componentOrdering_sorted (D : t.Directed ns before) (hroots : roots ~ t.roots) :
    Sorted ns before (t.componentOrdering roots) := by
  have L := labelAll_spec D hroots
  have hplaced := placeLinked_spec L (L.sortsLinked rfl) (Nat.le_add_right _ 0)
  rw [List.reverse_nil, List.nil_append] at hplaced
  -- Every component is placed, so no other is left.
  have hothers : ∀ placed, placed ~ List.range roots.length →
      placed ++ (List.range roots.length).filter (fun c => !placed.contains c) = placed := by
    intro placed hplaced
    rw [List.filter_eq_nil_iff.2 fun c hc => ?_, List.append_nil]
    rw [Bool.not_eq_true', Bool.not_eq_false, List.contains_iff_mem]
    exact hplaced.mem_iff.2 hc
  rw [componentOrdering, hothers _ hplaced.perm]
  exact L.sorted_join D (L.label_ne_zero D hroots) (fun c hc => L.sorted_orders D hroots hc) hplaced

end BayesCircuit.Ordering.Task
