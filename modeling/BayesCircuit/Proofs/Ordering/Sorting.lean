import Mathlib.Data.List.Basic
import Mathlib.Data.List.Perm.Subperm

/-!
# Sorting by counting predecessors

A sort places numbers one after the other. It counts, for each number, how many of those that have
to come before it are still to be placed, and a number that waits for none is ready (`Sorts`). When
a number is placed, what comes after it is counted down (`CountsDown`). So whatever is placed follows
all of its predecessors (`Follows`). If among any of the numbers there is one with no predecessor
among them (`Grounded`), then everything has been placed when nothing is ready.
-/

namespace BayesCircuit.Ordering

open scoped List

variable {ns ns' us vs cs ready ready' placed free free' : List Nat}
variable {before before' : Nat → List Nat} {waiting waiting' : Nat → Nat} {u v c x : Nat}

/-- What has to come before a number and has not been placed. -/
def openBefore (before : Nat → List Nat) (placed : List Nat) (v : Nat) : List Nat :=
  (before v).filter (!placed.contains ·)

/-- Among any of the numbers there is one with no predecessor among them. -/
def Grounded (ns : List Nat) (before : Nat → List Nat) : Prop :=
  ∀ us, us ⊆ ns → us ≠ [] → ∃ v ∈ us, ∀ u ∈ before v, u ∉ us

/-- Numbers are counted down by one; `free` are those that waited for one. -/
structure CountsDown (waiting waiting' : Nat → Nat) (cs free : List Nat) : Prop where
  nodup : free.Nodup
  mem : ∀ x, x ∈ free ↔ x ∈ cs ∧ waiting x = 1
  count : ∀ x, waiting' x = waiting x - if x ∈ cs then 1 else 0

/-- Numbers follow all of their predecessors. -/
def Follows (before : Nat → List Nat) (vs : List Nat) : Prop :=
  ∀ v ∈ vs, ∀ u ∈ before v, [u, v] <+ vs

/-- All numbers, each after its predecessors. -/
structure Sorted (ns : List Nat) (before : Nat → List Nat) (vs : List Nat) : Prop where
  perm : vs ~ ns
  follows : Follows before vs

/-- The state of a sort of `ns`: what is ready, and what has been placed, the last number first. -/
structure Sorts (ns : List Nat) (before : Nat → List Nat) (waiting : Nat → Nat)
    (ready placed : List Nat) : Prop where
  nodup : (ready ++ placed).Nodup
  subset : ready ++ placed ⊆ ns
  waits : ∀ v ∈ ns, waiting v = (openBefore before placed v).length
  free : ∀ v ∈ ns, v ∈ ready ++ placed ↔ waiting v = 0
  follows : Follows before placed.reverse

theorem mem_openBefore : u ∈ openBefore before placed v ↔ u ∈ before v ∧ u ∉ placed := by
  rw [openBefore, List.mem_filter, Bool.not_eq_true', ← Bool.not_eq_true, List.contains_iff_mem]

/-- Placing a number takes it out of what others wait for. -/
theorem length_openBefore (hu : u ∉ placed) : (openBefore before (u :: placed) v).length =
    (openBefore before placed v).length - (before v).count u := by
  have hfilter : openBefore before (u :: placed) v =
      (openBefore before placed v).filter (!· == u) := by
    rw [openBefore, openBefore, List.filter_filter]
    congr
    funext w
    rw [List.contains_cons, Bool.not_or]
  have hcount : (openBefore before placed v).count u = (before v).count u :=
    List.count_filter (by simpa using hu)
  have hlength := (openBefore before placed v).length_eq_countP_add_countP (· == u)
  rw [hfilter, ← hcount, ← List.countP_eq_length_filter, List.count]
  simp only [decide_not, Bool.decide_eq_true] at hlength
  omega

theorem openBefore_nil : openBefore before [] v = before v := List.filter_eq_self.2 fun _ _ => rfl

/-! ## Numbers with a first one -/

theorem Grounded.mono (h : Grounded ns before) (hns : ns' ⊆ ns)
    (hbefore : ∀ v ∈ ns', before' v ⊆ before v) : Grounded ns' before' := by
  intro us hus hne
  obtain ⟨v, hv, hnone⟩ := h us (fun _ hu => hns (hus hu)) hne
  exact ⟨v, hv, fun u hu => hnone u (hbefore v (hus hv) hu)⟩

/-- What holds of a number as soon as it holds of all of its predecessors holds of all. -/
theorem Grounded.all {P : Nat → Prop} (h : Grounded ns before) (hbefore : ∀ v ∈ ns, before v ⊆ ns)
    (hP : ∀ v ∈ ns, (∀ u ∈ before v, P u) → P v) : ∀ v ∈ ns, P v := by
  classical
  intro v hv
  by_contra hnot
  have hmem : ∀ w, w ∈ ns.filter (fun w => ¬ P w) ↔ w ∈ ns ∧ ¬ P w := fun w => by simp
  obtain ⟨w, hw, hfirst⟩ := h (ns.filter fun w => ¬ P w) (fun w hw => ((hmem w).1 hw).1)
    (List.ne_nil_of_mem ((hmem v).2 ⟨hv, hnot⟩))
  obtain ⟨hw, hfails⟩ := (hmem w).1 hw
  refine hfails (hP w hw fun u hu => ?_)
  by_contra hfails
  exact hfirst u hu ((hmem u).2 ⟨hbefore w hw hu, hfails⟩)

/-! ## Counting down -/

namespace CountsDown

theorem nil : CountsDown waiting waiting [] [] where
  nodup := List.nodup_nil
  mem x := by simp
  count x := by simp

theorem perm (h : CountsDown waiting waiting' cs free) (hfree : free' ~ free) :
    CountsDown waiting waiting' cs free' where
  nodup := hfree.nodup_iff.2 h.nodup
  mem x := hfree.mem_iff.trans (h.mem x)
  count := h.count

/-- Counting down one number before the others. -/
theorem cons (hc : c ∉ cs)
    (h : CountsDown (fun x => if x = c then waiting c - 1 else waiting x) waiting' cs free) :
    CountsDown waiting waiting' (c :: cs) (if waiting c = 1 then c :: free else free) := by
  have hmem : ∀ x, x ∈ free ↔ x ∈ cs ∧ waiting x = 1 := fun x => by
    rw [h.mem]
    refine and_congr_right fun hx => ?_
    rw [if_neg]
    rintro rfl
    exact hc hx
  refine ⟨?_, fun x => ?_, fun x => ?_⟩
  · split
    · exact List.nodup_cons.2 ⟨fun hfree => hc ((hmem c).1 hfree).1, h.nodup⟩
    · exact h.nodup
  · have hfree := hmem x
    by_cases hx : x = c
    · subst hx
      split <;> simp_all
    · split <;> simp [hx, hfree]
  · rw [h.count]
    by_cases hx : x = c
    · subst hx
      simp [hc]
    · simp [hx]

/-- Counting down without looking at other numbers. -/
theorem only (p : Nat → Prop) [DecidablePred p] (hp : ∀ x ∈ cs, p x)
    (h : CountsDown waiting waiting' cs free) :
    CountsDown (fun x => if p x then waiting x else 0) (fun x => if p x then waiting' x else 0)
      cs free where
  nodup := h.nodup
  mem x := by
    rw [h.mem]
    exact and_congr_right fun hx => by rw [if_pos (hp x hx)]
  count x := by
    rw [h.count]
    split
    · rfl
    · rw [Nat.zero_sub]

end CountsDown

/-! ## Placing -/

theorem Follows.concat (h : Follows before vs) (hv : before v ⊆ vs) :
    Follows before (vs ++ [v]) := by
  intro w hw u hu
  rcases List.mem_append.1 hw with hw | hw
  · exact (h w hw u hu).trans (List.sublist_append_left _ _)
  · obtain rfl := List.mem_singleton.1 hw
    exact (List.singleton_sublist.2 (hv hu)).append (.refl _)

namespace Sorts

/-- At first the numbers without predecessors are ready. -/
theorem start (hnodup : ready.Nodup) (hready : ∀ v, v ∈ ready ↔ v ∈ ns ∧ before v = [])
    (hwaits : ∀ v ∈ ns, waiting v = (before v).length) : Sorts ns before waiting ready [] where
  nodup := by rwa [List.append_nil]
  subset v hv := ((hready v).1 (by rwa [List.append_nil] at hv)).1
  waits v hv := by rw [hwaits v hv, openBefore_nil]
  free v hv := by
    rw [List.append_nil, hready, hwaits v hv, List.length_eq_zero_iff]
    exact and_iff_right hv
  follows _ hv := absurd hv List.not_mem_nil

theorem mem_before (K : Sorts ns before waiting (v :: ready) placed) : before v ⊆ placed := by
  have hv : v ∈ ns := K.subset (List.mem_cons_self ..)
  have hzero := (K.free v hv).1 (List.mem_cons_self ..)
  rw [K.waits v hv, List.length_eq_zero_iff] at hzero
  intro u hu
  by_contra hopen
  exact List.not_mem_nil (hzero ▸ mem_openBefore.2 ⟨hu, hopen⟩)

theorem perm_ready (K : Sorts ns before waiting ready placed) (h : ready' ~ ready) :
    Sorts ns before waiting ready' placed where
  nodup := (h.append_right placed).nodup_iff.2 K.nodup
  subset := fun _ hv => K.subset ((h.append_right placed).mem_iff.1 hv)
  waits := K.waits
  free v hv := (h.append_right placed).mem_iff.trans (K.free v hv)
  follows := K.follows

/-- What comes after a number that is ready is still waiting. -/
theorem waits_of_mem (K : Sorts ns before waiting (v :: ready) placed) (hc : c ∈ ns)
    (hbefore : v ∈ before c) : waiting c ≠ 0 := by
  have hnodup := K.nodup
  rw [List.cons_append, List.nodup_cons] at hnodup
  intro hzero
  rw [K.waits c hc, List.length_eq_zero_iff] at hzero
  exact List.not_mem_nil (hzero ▸ mem_openBefore.2
    ⟨hbefore, fun h => hnodup.1 (List.mem_append_right _ h)⟩)

/-- Placing what is ready. What is counted down to zero becomes ready. -/
theorem place (K : Sorts ns before waiting (v :: ready) placed) (hbefore : ∀ c, (before c).Nodup)
    (hcs : ∀ c, c ∈ cs ↔ c ∈ ns ∧ v ∈ before c) (h : CountsDown waiting waiting' cs free) :
    Sorts ns before waiting' (free ++ ready) (v :: placed) := by
  have hnodup := K.nodup
  rw [List.cons_append, List.nodup_cons] at hnodup
  obtain ⟨hout, -⟩ := hnodup
  have hv : v ∉ placed := fun h => hout (List.mem_append_right _ h)
  have hmiddle : ready ++ v :: placed ~ v :: ready ++ placed := List.perm_middle
  have hfree : ∀ c ∈ free, c ∈ ns ∧ v ∈ before c := fun c hc => (hcs c).1 ((h.mem c).1 hc).1
  refine ⟨?_, ?_, fun c hc => ?_, fun c hc => ?_, ?_⟩
  · rw [List.append_assoc]
    refine List.nodup_append.2 ⟨h.nodup, hmiddle.nodup_iff.2 K.nodup, ?_⟩
    rintro c hc d hd rfl
    obtain ⟨hc, hlate⟩ := hfree c hc
    exact K.waits_of_mem hc hlate ((K.free c hc).1 (hmiddle.mem_iff.1 hd))
  · rw [List.append_assoc]
    exact List.append_subset.2
      ⟨fun c hc => (hfree c hc).1, fun c hc => K.subset (hmiddle.mem_iff.1 hc)⟩
  · rw [h.count, K.waits c hc, length_openBefore hv, (hbefore c).count]
    simp only [hcs, hc, true_and]
  · rw [List.append_assoc, List.mem_append, h.mem, hmiddle.mem_iff, K.free c hc, h.count]
    by_cases hlate : c ∈ cs
    · have hwaits := K.waits_of_mem hc ((hcs c).1 hlate).2
      rw [if_pos hlate, and_iff_right hlate]
      omega
    · rw [if_neg hlate]
      simp [hlate]
  · rw [List.reverse_cons]
    exact K.follows.concat fun u hu => List.mem_reverse.2 (K.mem_before hu)

theorem length_le (K : Sorts ns before waiting ready placed) :
    ready.length + placed.length ≤ ns.length := by
  rw [← List.length_append]
  exact (List.subperm_of_subset K.nodup K.subset).length_le

/-- When nothing is ready, everything has been placed. -/
theorem complete (hns : ns.Nodup) (hground : Grounded ns before)
    (hbefore : ∀ v ∈ ns, before v ⊆ ns) (K : Sorts ns before waiting [] placed) :
    Sorted ns before placed.reverse := by
  have hnodup : placed.Nodup := K.nodup
  refine ⟨placed.reverse_perm.trans ?_, K.follows⟩
  refine (List.perm_ext_iff_of_nodup hnodup hns).2 fun v => ⟨fun hv => K.subset hv, fun hv => ?_⟩
  refine hground.all hbefore (fun w hw hplaced => ?_) v hv
  by_contra hopen
  refine hopen ((K.free w hw).2 ?_)
  rw [K.waits w hw, List.length_eq_zero_iff]
  exact List.eq_nil_iff_forall_not_mem.2 fun u hu =>
    (mem_openBefore.1 hu).2 (hplaced u (mem_openBefore.1 hu).1)

/-- When as many have been placed as there are, these are all. -/
theorem complete_of_length (K : Sorts ns before waiting ready placed)
    (h : ns.length ≤ placed.length) : Sorted ns before placed.reverse where
  perm := placed.reverse_perm.trans ((List.subperm_of_subset (List.nodup_append.1 K.nodup).2.1
    fun _ hv => K.subset (List.mem_append_right _ hv)).perm_of_length_le h)
  follows := K.follows

end Sorts

end BayesCircuit.Ordering
