import BayesCircuit.Proofs.Composition
import Mathlib.Data.List.Count
import Mathlib.Data.List.Perm.Basic

/-!
# The contexts of joins

Partitions are joined in turn. While some of them are still to be joined, a variable is mentioned in
at most one of the joins that nothing has been put on top of yet (`Joined.apart`), because a join
takes up all that share a variable with it. So the context of a join has exactly the variables that
are mentioned both in it, or below it, and elsewhere (`Join.Sound`), in whichever order partitions
are joined and also if every join is put on top of the one before (`Joined.run`).
-/

namespace BayesCircuit

open Collection Collection.Ascending
open scoped List

namespace Composition

variable {c : Composition} {chain : Bool} {p q : Nat} {u v : Variable}
variable {mentions : Nat → Variable → Bool} {order done todo : List Nat} {open' : Array Nat}
variable {j a b : Join} {js roots : List Join} {vs context : List Variable}

/-! ## Joins and what is below them -/

mutual

/-- A join and those below it, each before those that it is on top of. -/
def Join.subjoins : Join → List Join
  | .mk p context js => .mk p context js :: subjoinsAll js

/-- Joins and those below them. -/
def subjoinsAll : List Join → List Join
  | [] => []
  | j :: js => j.subjoins ++ subjoinsAll js

end

/-- The partitions of a join and of those below it. -/
def Join.members (j : Join) : List Nat := j.subjoins.map Join.partition

/-- The partitions of joins and of those below them. -/
def membersAll (js : List Join) : List Nat := (subjoinsAll js).map Join.partition

theorem subjoinsAll_append : ∀ {js ks : List Join},
    subjoinsAll (js ++ ks) = subjoinsAll js ++ subjoinsAll ks
  | [], _ => rfl
  | j :: js, ks => by
      rw [List.cons_append, subjoinsAll, subjoinsAll_append, subjoinsAll, List.append_assoc]

theorem mem_subjoinsAll : ∀ {js : List Join}, j ∈ subjoinsAll js ↔ ∃ k ∈ js, j ∈ k.subjoins
  | [] => by simp [subjoinsAll]
  | k :: js => by
      rw [subjoinsAll, List.mem_append, mem_subjoinsAll, List.exists_mem_cons_iff]

theorem Join.subjoins_eq (j : Join) : j.subjoins = j :: subjoinsAll j.operands := by
  cases j
  rfl

theorem Join.mem_subjoins (j : Join) : j ∈ j.subjoins := by
  rw [j.subjoins_eq]
  exact List.mem_cons_self ..

theorem subset_subjoinsAll : js ⊆ subjoinsAll js :=
  fun j hj => mem_subjoinsAll.2 ⟨j, hj, j.mem_subjoins⟩

theorem Join.operands_subset : j.operands ⊆ j.subjoins := by
  rw [j.subjoins_eq]
  exact List.subset_cons_of_subset _ subset_subjoinsAll

mutual

theorem Join.subjoins_trans : ∀ {j : Join}, a ∈ j.subjoins → b ∈ a.subjoins → b ∈ j.subjoins
  | .mk p context js, ha, hb => by
      rw [Join.subjoins, List.mem_cons] at ha
      rcases ha with rfl | ha
      · exact hb
      · rw [Join.subjoins]
        exact List.mem_cons_of_mem _ (subjoinsAll_trans ha hb)

theorem subjoinsAll_trans : ∀ {js : List Join}, a ∈ subjoinsAll js → b ∈ a.subjoins →
    b ∈ subjoinsAll js
  | [], ha, _ => absurd ha List.not_mem_nil
  | j :: js, ha, hb => by
      rw [subjoinsAll, List.mem_append] at ha ⊢
      rcases ha with ha | ha
      · exact .inl (Join.subjoins_trans ha hb)
      · exact .inr (subjoinsAll_trans ha hb)

end

mutual

theorem Join.contexts_eq : ∀ {j : Join}, j.contexts = j.subjoins.map Join.context
  | .mk p context js => by
      rw [Join.contexts, Join.subjoins, List.map_cons, contextsAll_eq]
      rfl

theorem contextsAll_eq : ∀ {js : List Join}, contextsAll js = (subjoinsAll js).map Join.context
  | [] => by
      rw [contextsAll]
      rfl
  | j :: js => by
      rw [contextsAll, subjoinsAll, List.map_append, Join.contexts_eq, contextsAll_eq]

end

theorem Join.members_eq (j : Join) : j.members = j.partition :: membersAll j.operands := by
  rw [members, j.subjoins_eq]
  rfl

theorem Join.partition_mem_members (j : Join) : j.partition ∈ j.members := by
  rw [j.members_eq]
  exact List.mem_cons_self ..

theorem mem_membersAll : q ∈ membersAll js ↔ ∃ j ∈ js, q ∈ j.members := by
  simp only [membersAll, Join.members, List.mem_map, mem_subjoinsAll]
  constructor
  · rintro ⟨k, ⟨j, hj, hk⟩, rfl⟩
    exact ⟨j, hj, k, hk, rfl⟩
  · rintro ⟨j, hj, k, hk, rfl⟩
    exact ⟨k, ⟨j, hj, hk⟩, rfl⟩

theorem Join.mem_members : q ∈ j.members ↔ q = j.partition ∨ ∃ k ∈ j.operands, q ∈ k.members := by
  rw [j.members_eq, List.mem_cons, mem_membersAll]

theorem membersAll_append {js ks : List Join} :
    membersAll (js ++ ks) = membersAll js ++ membersAll ks := by
  rw [membersAll, subjoinsAll_append, List.map_append]
  rfl

theorem subjoinsAll_eq : ∀ {js : List Join}, subjoinsAll js = js.flatMap Join.subjoins
  | [] => rfl
  | j :: js => by rw [subjoinsAll, subjoinsAll_eq, List.flatMap_cons]

theorem membersAll_perm {js ks : List Join} (h : js ~ ks) : membersAll js ~ membersAll ks := by
  rw [membersAll, membersAll, subjoinsAll_eq, subjoinsAll_eq]
  exact (h.flatMap_right Join.subjoins).map Join.partition

/-! ## Closing a join -/

theorem getD_close : ∀ {vs : List Variable} {open' : Array Nat} {context : List Variable},
    vs.Nodup → (close vs open' context).1.getD u 0 =
      if u ∈ vs then open'.getD u 0 - 1 else open'.getD u 0
  | [], open', context, _ => by simp [close]
  | v :: vs, open', context, h => by
      obtain ⟨hv, hvs⟩ := List.nodup_cons.1 h
      rw [close, getD_close hvs]
      by_cases huv : u = v
      · subst huv
        simp only [hv, if_false, List.mem_cons_self, if_true, Array.getD_eq_getD_getElem?]
        rw [Array.getElem?_setIfInBounds_self]
        split
        · rfl
        · rename_i hsize
          rw [Array.getElem?_eq_none (Nat.not_lt.1 hsize)]
          rfl
      · have hne : ¬ v = u := fun h => huv h.symm
        simp only [List.mem_cons, huv, false_or, Array.getD_eq_getD_getElem?,
          Array.getElem?_setIfInBounds_ne hne]

/-- The context of a join keeps those of its own shared variables that are still to come. -/
theorem mem_close : ∀ {vs : List Variable} {open' : Array Nat} {context : List Variable},
    vs.Nodup → (u ∈ (close vs open' context).2 ↔
      if u ∈ vs then open'.getD u 0 - 1 ≠ 0 else u ∈ context)
  | [], open', context, _ => by simp [close]
  | v :: vs, open', context, h => by
      obtain ⟨hv, hvs⟩ := List.nodup_cons.1 h
      rw [close, mem_close hvs]
      by_cases huv : u = v
      · subst huv
        simp only [hv, if_false, List.mem_cons_self, if_true]
        split
        all_goals
          rename_i hleft
          simpa using hleft
      · have hne : ¬ v = u := fun h => huv h.symm
        simp only [List.mem_cons, huv, false_or, Array.getD_eq_getD_getElem?,
          Array.getElem?_setIfInBounds_ne hne]
        split
        · rfl
        · split <;> simp [huv]

theorem mem_foldl_union : ∀ {contexts : List (List Variable)} {context : List Variable},
    u ∈ contexts.foldl union context ↔ u ∈ context ∨ ∃ ctx ∈ contexts, u ∈ ctx
  | [], context => by simp
  | ctx :: contexts, context => by
      rw [List.foldl_cons, mem_foldl_union, mem_union, List.exists_mem_cons_iff, or_assoc]

theorem mem_unite : u ∈ unite (js.map Join.context) ↔ ∃ j ∈ js, u ∈ j.context := by
  rw [unite, mem_foldl_union]
  simp

/-! ## The joins that a join takes up -/

theorem takeUp_perm {below rest : List Join}
    (h : takeUp Join.context chain vs roots = (below, rest)) : below ++ rest ~ roots := by
  unfold takeUp at h
  split at h
  · cases h
    rw [List.append_nil]
  · rw [List.partition_eq_filter_filter] at h
    cases h
    exact List.filter_append_perm _ _

/-- The joins that are left have none of the variables. -/
theorem takeUp_rest {below rest : List Join}
    (h : takeUp Join.context chain vs roots = (below, rest)) (hj : j ∈ rest) (hv : v ∈ vs) :
    v ∉ j.context := by
  unfold takeUp at h
  split at h
  · cases h
    exact absurd hj List.not_mem_nil
  · rw [List.partition_eq_filter_filter] at h
    cases h
    have hunrelated : related vs j.context = false := by simpa using (List.mem_filter.1 hj).2
    simp only [related, List.any_eq_false] at hunrelated
    simpa using hunrelated v hv

/-! ## What a join mentions -/

/-- The shared variables of partitions, and how often each of them is mentioned. -/
structure Shares (c : Composition) (mentions : Nat → Variable → Bool) : Prop where
  nodup : ∀ p, (c.sharedOf p).Nodup
  mem : ∀ {p v}, p < c.size → (v ∈ c.sharedOf p ↔
    mentions p v ∧ ∃ q < c.size, q ≠ p ∧ mentions q v)
  count : ∀ {p v}, v ∈ c.sharedOf p →
    c.occurrences.getD v 0 = (List.range c.size).countP (mentions · v)

/-- A join mentions the variables of its own partition and of those below it. -/
def Join.Mentions (mentions : Nat → Variable → Bool) (j : Join) (v : Variable) : Prop :=
  ∃ q ∈ j.members, mentions q v

/-- No variable is mentioned in both joins. -/
def Apart (mentions : Nat → Variable → Bool) (a b : Join) : Prop :=
  ∀ v, a.Mentions mentions v → ¬ b.Mentions mentions v

theorem Apart.symm (h : Apart mentions a b) : Apart mentions b a :=
  fun v hb ha => h v ha hb

instance : Std.Symm (Apart mentions) := ⟨fun _ _ => Apart.symm⟩

/-- What holds of a join of an order in which partitions are joined. -/
structure Join.Sound (mentions : Nat → Variable → Bool) (order : List Nat) (j : Join) : Prop where
  /-- The context is what is mentioned on both sides. -/
  mem_context : ∀ v, v ∈ j.context ↔
    j.Mentions mentions v ∧ ∃ q ∈ order, q ∉ j.members ∧ mentions q v
  /-- A variable leaves the contexts when nothing to come mentions it. -/
  later : ∀ v ∈ j.context, ∃ q ∈ order, mentions q v ∧ order.idxOf j.partition < order.idxOf q
  earlier : ∀ q ∈ membersAll j.operands, order.idxOf q < order.idxOf j.partition
  apart : j.operands.Pairwise (Apart mentions)

/-- The joins that nothing is on top of yet, after some partitions of an order have been joined. -/
structure Joined (c : Composition) (mentions : Nat → Variable → Bool)
    (order done todo : List Nat) (open' : Array Nat) (roots : List Join) : Prop where
  order_eq : order = done ++ todo
  left : ∀ {p v}, v ∈ c.sharedOf p → open'.getD v 0 = todo.countP (mentions · v)
  members : membersAll roots ~ done
  apart : roots.Pairwise (Apart mentions)
  sound : ∀ j ∈ subjoinsAll roots, j.Sound mentions order

theorem Join.mentions_iff : j.Mentions mentions v ↔
    mentions j.partition v ∨ ∃ k ∈ j.operands, k.Mentions mentions v := by
  constructor
  · rintro ⟨q, hq, hv⟩
    rcases Join.mem_members.1 hq with rfl | ⟨k, hk, hq⟩
    · exact .inl hv
    · exact .inr ⟨k, hk, q, hq, hv⟩
  · rintro (hv | ⟨k, hk, q, hq, hv⟩)
    · exact ⟨_, j.partition_mem_members, hv⟩
    · exact ⟨q, Join.mem_members.2 (.inr ⟨k, hk, hq⟩), hv⟩

theorem Shares.mem_of_mentions (hs : Shares c mentions) (hp : p < c.size) (hq : q < c.size)
    (hne : q ≠ p) (hpv : mentions p v) (hqv : mentions q v) : v ∈ c.sharedOf p :=
  (hs.mem hp).2 ⟨hpv, q, hq, hne, hqv⟩

theorem lt_size_of_mem_sharedOf (h : v ∈ c.sharedOf p) : p < c.size := by
  by_contra hp
  have hnone : c.shared[p]? = none := Array.getElem?_eq_none (Nat.not_lt.1 hp)
  rw [sharedOf, Array.getD_eq_getD_getElem?, hnone] at h
  exact List.not_mem_nil h

/-! ## One more join -/

section Step

variable {below rest : List Join}

theorem Joined.mem_order (h : Joined c mentions order done (p :: todo) open' roots) :
    q ∈ order ↔ q ∈ done ∨ q = p ∨ q ∈ todo := by
  rw [h.order_eq, List.mem_append, List.mem_cons]

theorem Joined.lt_size (h : Joined c mentions order done todo open' roots)
    (horder : order ~ List.range c.size) (hj : j ∈ roots) (hq : q ∈ j.members) :
    q < c.size := by
  have hdone : q ∈ done := h.members.mem_iff.1 (mem_membersAll.2 ⟨j, hj, hq⟩)
  refine List.mem_range.1 (horder.mem_iff.1 ?_)
  rw [h.order_eq]
  exact List.mem_append_left _ hdone

/-- The partition that is joined next is in no join yet. -/
theorem Joined.notMem_done (h : Joined c mentions order done (p :: todo) open' roots)
    (horder : order ~ List.range c.size) : p ∉ done ∧ p ∉ todo ∧ ∀ q ∈ todo, q ∉ done := by
  have hnodup : (done ++ p :: todo).Nodup := by
    rw [← h.order_eq]
    exact horder.nodup_iff.2 List.nodup_range
  obtain ⟨_, hcons, hdisjoint⟩ := List.nodup_append.1 hnodup
  refine ⟨fun hp => hdisjoint p hp p (List.mem_cons_self ..) rfl,
    (List.nodup_cons.1 hcons).1, fun q hq hdone => ?_⟩
  exact hdisjoint q hdone q (List.mem_cons_of_mem _ hq) rfl

theorem Joined.idxOf_lt (h : Joined c mentions order done (p :: todo) open' roots)
    (horder : order ~ List.range c.size) :
    (∀ q ∈ done, order.idxOf q < order.idxOf p) ∧ ∀ q ∈ todo, order.idxOf p < order.idxOf q := by
  obtain ⟨hpdone, hptodo, hdone⟩ := h.notMem_done horder
  have hp : order.idxOf p = done.length := by
    rw [h.order_eq, List.idxOf_append_of_notMem hpdone, List.idxOf_cons_self, Nat.add_zero]
  constructor
  · intro q hq
    rw [hp, h.order_eq, List.idxOf_append_of_mem hq]
    exact List.idxOf_lt_length_of_mem hq
  · intro q hq
    have hne : p ≠ q := by
      rintro rfl
      exact hptodo hq
    rw [hp, h.order_eq, List.idxOf_append_of_notMem (hdone q hq), List.idxOf_cons_ne _ hne]
    omega

variable (hs : Shares c mentions) (horder : order ~ List.range c.size)
variable (h : Joined c mentions order done (p :: todo) open' roots)
variable (htaken : takeUp Join.context chain (c.sharedOf p) roots = (below, rest))

include h htaken in
theorem Joined.members_taken : membersAll below ++ membersAll rest ~ done := by
  rw [← membersAll_append]
  exact (membersAll_perm (takeUp_perm htaken)).trans h.members

include h htaken in
theorem Joined.apart_taken : (below ++ rest).Pairwise (Apart mentions) :=
  ((takeUp_perm htaken).pairwise_iff Apart.symm).2 h.apart

include hs horder h htaken in
/-- A join that shares a variable with the partition would have been taken up. -/
theorem Joined.apart_rest (hj : j ∈ rest) : Apart mentions j (.mk p context below) := by
  intro v hv hnew
  have hroots : j ∈ roots := (takeUp_perm htaken).mem_iff.1 (List.mem_append_right _ hj)
  rcases Join.mentions_iff.1 hnew with hp | ⟨k, hk, hkv⟩
  · obtain ⟨q, hq, hqv⟩ := hv
    have hdone : q ∈ done := h.members.mem_iff.1 (mem_membersAll.2 ⟨j, hroots, hq⟩)
    have hpdone : p ∉ done := (h.notMem_done horder).1
    have hpsize : p < c.size :=
      List.mem_range.1 (horder.mem_iff.1 (h.mem_order.2 (.inr (.inl rfl))))
    have hshared : v ∈ c.sharedOf p :=
      hs.mem_of_mentions hpsize (h.lt_size horder hroots hq) (fun he => hpdone (he ▸ hdone)) hp hqv
    apply takeUp_rest htaken hj hshared
    refine ((h.sound j (subset_subjoinsAll hroots)).mem_context v).2
      ⟨⟨q, hq, hqv⟩, p, h.mem_order.2 (.inr (.inl rfl)), fun hmem => hpdone ?_, hp⟩
    exact h.members.mem_iff.1 (mem_membersAll.2 ⟨j, hroots, hmem⟩)
  · exact (List.pairwise_append.1 (h.apart_taken htaken)).2.2 k hk j hj v hkv hv

include hs horder h htaken in
/-- What else mentions a variable of the new join is still to come. -/
theorem Joined.mem_todo (hv : (Join.mk p context below).Mentions mentions v) (hq : q ∈ order)
    (hout : q ∉ (Join.mk p context below).members) (hqv : mentions q v) : q ∈ todo := by
  rw [Join.members_eq, List.mem_cons] at hout
  rcases h.mem_order.1 hq with hdone | rfl | htodo
  · rcases List.mem_append.1 ((h.members_taken htaken).mem_iff.2 hdone) with hbelow | hrest
    · exact absurd (.inr hbelow) hout
    · obtain ⟨j, hj, hqj⟩ := mem_membersAll.1 hrest
      exact absurd hv (h.apart_rest hs horder htaken hj v ⟨q, hqj, hqv⟩)
  · exact absurd (.inl rfl) hout
  · exact htodo

include horder h htaken in
theorem Joined.notMem_members (hq : q ∈ todo) : q ∉ (Join.mk p context below).members := by
  obtain ⟨_, hp, hdone⟩ := h.notMem_done horder
  rw [Join.members_eq, List.mem_cons]
  rintro (rfl | hbelow)
  · exact hp hq
  · exact hdone q hq ((h.members_taken htaken).mem_iff.1 (List.mem_append_left _ hbelow))

include hs horder h htaken in
/-- The context of the new join. -/
theorem Joined.mem_close_unite :
    v ∈ (close (c.sharedOf p) open' (unite (below.map Join.context))).2 ↔
      (Join.mk p context below).Mentions mentions v ∧ ∃ q ∈ todo, mentions q v := by
  have hbelow : ∀ {j}, j ∈ below → j ∈ roots :=
    fun hj => (takeUp_perm htaken).mem_iff.1 (List.mem_append_left _ hj)
  have hpsize : p < c.size :=
    List.mem_range.1 (horder.mem_iff.1 (h.mem_order.2 (.inr (.inl rfl))))
  rw [mem_close (hs.nodup p)]
  split
  · rename_i hshared
    have hp : mentions p v := ((hs.mem hpsize).1 hshared).1
    have hcount : (p :: todo).countP (mentions · v) = todo.countP (mentions · v) + 1 :=
      List.countP_cons_of_pos hp
    rw [h.left hshared, hcount, Nat.add_sub_cancel, ← Nat.pos_iff_ne_zero, List.countP_pos_iff]
    exact (and_iff_right (Join.mentions_iff.2 (.inl hp))).symm
  · rename_i hshared
    rw [mem_unite]
    constructor
    · rintro ⟨j, hj, hv⟩
      obtain ⟨hjv, q, hq, hout, hqv⟩ :=
        ((h.sound j (subset_subjoinsAll (hbelow hj))).mem_context v).1 hv
      have hnew : (Join.mk p context below).Mentions mentions v :=
        Join.mentions_iff.2 (.inr ⟨j, hj, hjv⟩)
      refine ⟨hnew, q, h.mem_todo hs horder htaken hnew hq ?_ hqv, hqv⟩
      rw [Join.mem_members]
      rintro (rfl | ⟨k, hk, hqk⟩)
      · obtain ⟨r, hr, hrv⟩ := hjv
        refine hshared (hs.mem_of_mentions hpsize (h.lt_size horder (hbelow hj) hr) ?_ hqv hrv)
        rintro rfl
        exact hout hr
      · have hkj : k ≠ j := by
          rintro rfl
          exact hout hqk
        have happart := (List.pairwise_append.1 (h.apart_taken htaken)).1
        exact happart.forall hk hj hkj v ⟨q, hqk, hqv⟩ hjv
    · rintro ⟨hv, q, hq, hqv⟩
      have hqorder : q ∈ order := h.mem_order.2 (.inr (.inr hq))
      rcases Join.mentions_iff.1 hv with hp | ⟨j, hj, hjv⟩
      · refine absurd (hs.mem_of_mentions hpsize ?_ ?_ hp hqv) hshared
        · exact List.mem_range.1 (horder.mem_iff.1 hqorder)
        · rintro rfl
          exact (h.notMem_done horder).2.1 hq
      · refine ⟨j, hj, ((h.sound j (subset_subjoinsAll (hbelow hj))).mem_context v).2
          ⟨hjv, q, hqorder, fun hmem => ?_, hqv⟩⟩
        exact (h.notMem_done horder).2.2 q hq
          (h.members.mem_iff.1 (mem_membersAll.2 ⟨j, hbelow hj, hmem⟩))

include hs horder h htaken in
/-- The context of the new join is what is mentioned on both sides. -/
theorem Joined.sound_join (hcontext : context =
    (close (c.sharedOf p) open' (unite (below.map Join.context))).2) :
    (Join.mk p context below).Sound mentions order where
  mem_context v := by
    show v ∈ context ↔ _
    rw [hcontext, h.mem_close_unite hs horder htaken]
    refine and_congr_right fun hv => ⟨?_, ?_⟩
    · rintro ⟨q, hq, hqv⟩
      exact ⟨q, h.mem_order.2 (.inr (.inr hq)), h.notMem_members horder htaken hq, hqv⟩
    · rintro ⟨q, hq, hout, hqv⟩
      exact ⟨q, h.mem_todo hs horder htaken hv hq hout hqv, hqv⟩
  later v hv := by
    change v ∈ context at hv
    rw [hcontext] at hv
    obtain ⟨_, q, hq, hqv⟩ : (Join.mk p context below).Mentions mentions v ∧
        ∃ q ∈ todo, mentions q v := (h.mem_close_unite hs horder htaken).1 hv
    exact ⟨q, h.mem_order.2 (.inr (.inr hq)), hqv, (h.idxOf_lt horder).2 q hq⟩
  earlier q hq := (h.idxOf_lt horder).1 q
    ((h.members_taken htaken).mem_iff.1 (List.mem_append_left _ hq))
  apart := (List.pairwise_append.1 (h.apart_taken htaken)).1

include hs horder h htaken in
/-- Joining one more partition. -/
theorem Joined.step {open₁ : Array Nat}
    (hclose : close (c.sharedOf p) open' (unite (below.map Join.context)) = (open₁, context)) :
    Joined c mentions order (done ++ [p]) todo open₁ (rest ++ [.mk p context below]) where
  order_eq := by
    rw [List.append_assoc]
    exact h.order_eq
  left {p' v} hshared := by
    have hopen : open₁ = (close (c.sharedOf p) open' (unite (below.map Join.context))).1 := by
      rw [hclose]
    rw [hopen, getD_close (hs.nodup p), h.left hshared]
    split
    · rename_i hv
      have hp : mentions p v := ((hs.mem (lt_size_of_mem_sharedOf hv)).1 hv).1
      rw [List.countP_cons_of_pos (p := (mentions · v)) hp, Nat.add_sub_cancel]
    · rename_i hv
      refine List.countP_cons_of_neg fun hp => hv ?_
      have hpsize : p < c.size :=
        List.mem_range.1 (horder.mem_iff.1 (h.mem_order.2 (.inr (.inl rfl))))
      obtain ⟨hp', q, hq, hne, hqv⟩ := (hs.mem (lt_size_of_mem_sharedOf hshared)).1 hshared
      by_cases heq : p' = p
      · exact heq ▸ hshared
      · exact hs.mem_of_mentions hpsize (lt_size_of_mem_sharedOf hshared) heq hp hp'
  members := by
    rw [membersAll_append]
    have hnew : membersAll [.mk p context below] = p :: membersAll below := by
      simp [membersAll, subjoinsAll, Join.subjoins, Join.partition]
    rw [hnew]
    refine List.perm_middle.trans (List.Perm.trans ?_ (List.perm_append_singleton p done).symm)
    exact (List.perm_append_comm.trans (h.members_taken htaken)).cons p
  apart := by
    refine List.pairwise_append.2 ⟨(List.pairwise_append.1 (h.apart_taken htaken)).2.1,
      List.pairwise_singleton _ _, fun j hj k hk => ?_⟩
    obtain rfl := List.mem_singleton.1 hk
    exact h.apart_rest hs horder htaken hj
  sound j hj := by
    have htake : ∀ {k}, k ∈ below ++ rest → k ∈ roots := (takeUp_perm htaken).mem_iff.1
    obtain ⟨k, hk, hjk⟩ := mem_subjoinsAll.1 hj
    rcases List.mem_append.1 hk with hk | hk
    · exact h.sound j (mem_subjoinsAll.2 ⟨k, htake (List.mem_append_right _ hk), hjk⟩)
    obtain rfl := List.mem_singleton.1 hk
    rw [Join.subjoins_eq, List.mem_cons] at hjk
    rcases hjk with rfl | hjk
    · exact h.sound_join hs horder htaken (by rw [hclose])
    · obtain ⟨k, hk, hjk⟩ := mem_subjoinsAll.1 hjk
      exact h.sound j (mem_subjoinsAll.2 ⟨k, htake (List.mem_append_left _ hk), hjk⟩)

end Step

/-- After all partitions of an order have been joined. -/
theorem Joined.run (hs : Shares c mentions) (horder : order ~ List.range c.size) :
    ∀ {todo done : List Nat} {open' : Array Nat} {roots : List Join},
      Joined c mentions order done todo open' roots →
      ∃ open₁, Joined c mentions order order [] open₁ (joinFrom c chain todo open' roots)
  | [], done, open', roots, h => by
      obtain rfl : order = done := by rw [h.order_eq, List.append_nil]
      exact ⟨open', h⟩
  | p :: todo, done, open', roots, h => by
      rw [joinFrom]
      exact Joined.run hs horder (h.step hs horder rfl rfl)

theorem joined_nil (hs : Shares c mentions) (horder : order ~ List.range c.size) :
    Joined c mentions order [] order c.occurrences [] where
  order_eq := rfl
  left hv := by rw [hs.count hv, horder.countP_eq]
  members := .refl _
  apart := .nil
  sound j hj := absurd hj List.not_mem_nil

/-- In the end, no variable is in the context of a join that nothing is on top of. -/
theorem Joined.notMem_context_root (h : Joined c mentions order order [] open' roots)
    (hj : j ∈ roots) : v ∉ j.context := by
  intro hv
  obtain ⟨hjv, q, hq, hout, hqv⟩ :=
    ((h.sound j (subset_subjoinsAll hj)).mem_context v).1 hv
  obtain ⟨k, hk, hqk⟩ := mem_membersAll.1 (h.members.mem_iff.2 hq)
  have hne : j ≠ k := by
    rintro rfl
    exact hout hqk
  exact h.apart.forall hj hk hne v hjv ⟨q, hqk, hqv⟩

/-- A variable stays in the contexts above a join up to the last partition that mentions it. -/
theorem Join.Sound.mem_context_of_operand {last : Nat} (ha : a.Sound mentions order)
    (hb : b.Sound mentions order) (hab : b ∈ a.operands) (hv : v ∈ b.context)
    (hlast : last ∈ order) (hlastv : mentions last v)
    (hmax : ∀ q ∈ order, mentions q v → order.idxOf q ≤ order.idxOf last)
    (hne : a.partition ≠ last) : v ∈ a.context := by
  have hbv : b.Mentions mentions v := ((hb.mem_context v).1 hv).1
  refine (ha.mem_context v).2
    ⟨Join.mentions_iff.2 (.inr ⟨b, hab, hbv⟩), last, hlast, fun hmem => ?_, hlastv⟩
  rcases Join.mem_members.1 hmem with heq | ⟨k, hk, hlastk⟩
  · exact hne heq.symm
  by_cases hkb : k = b
  · -- nothing in `b` is joined after `b`, but something to come mentions the variable
    subst hkb
    obtain ⟨q, hq, hqv, hlt⟩ := hb.later v hv
    have hle := hmax q hq hqv
    rw [Join.members_eq, List.mem_cons] at hlastk
    rcases hlastk with heq | hbelow
    · rw [heq] at hle
      omega
    · have hearlier := hb.earlier last hbelow
      omega
  · exact ha.apart.forall hk hab hkb v ⟨last, hlastk, hlastv⟩ hbv

end Composition

/-! ## Partitions -/

namespace Partitions

/-- Whether a partition owns a variable or has it in its cutset. -/
def mentions (ps : Partitions) (p : Nat) (v : Variable) : Bool := ps.parts[p]?.any (·.contains v)

variable {ps : Partitions} {part : Partition} {net : Network} {sets : List (List Variable)}
variable {p : Nat} {v : Variable}

theorem mentions_iff : ps.mentions p v ↔ ∃ part, ps.parts[p]? = some part ∧ v ∈ part.scope := by
  rw [mentions]
  cases ps.parts[p]? with
  | none => simp
  | some part => simp [Partition.contains, Partition.scope]

/-- A variable is counted once for each partition that mentions it. -/
theorem occurrences_eq (hv : v < net.size) :
    (Composition.ofPartitions net.dims ps).occurrences.getD v 0 =
      (List.range ps.size).countP (ps.mentions · v) := by
  have hnumbered : (List.range ps.size).map (ps.parts[·]?) = ps.parts.toList.map some := by
    apply List.ext_getElem?
    intro i
    rw [List.getElem?_map, List.getElem?_map]
    by_cases hi : i < ps.parts.size
    · rw [size, List.getElem?_range hi]
      simp [hi]
    · rw [size, List.getElem?_eq_none (by simpa using hi)]
      simp [hi]
  have hcount : ∀ xs : List Partition,
      sumOf (xs.map fun part => if part.scope.contains v then 1 else 0) =
        (xs.map some).countP fun part => part.any (·.contains v) := by
    intro xs
    induction xs with
    | nil => rfl
    | cons part xs ih =>
        have hcontains : part.scope.contains v = part.contains v := by
          rw [Bool.eq_iff_iff]
          simp [Partition.contains, Partition.scope]
        rw [List.map_cons, sumOf_eq, List.sum_cons, ← sumOf_eq, ih, List.map_cons,
          List.countP_cons, hcontains, Nat.add_comm]
        rfl
  have hget : (Composition.ofPartitions net.dims ps).occurrences.getD v 0 =
      sumOf (ps.parts.toList.map fun part => if part.scope.contains v then 1 else 0) := by
    have hsize : v < net.dims.size := by simpa [Network.dims, Network.size] using hv
    simp [Composition.ofPartitions, Array.getD_eq_getD_getElem?, hsize, Function.comp_def]
  rw [hget, hcount, ← hnumbered, List.countP_map]
  rfl

theorem size_ofPartitions : (Composition.ofPartitions net.dims ps).size = ps.size := by
  simp [Composition.ofPartitions, Composition.size, size]

theorem mem_sharedOf : v ∈ (Composition.ofPartitions net.dims ps).sharedOf p ↔
    ps.mentions p v ∧ 1 < (Composition.ofPartitions net.dims ps).occurrences.getD v 0 := by
  rw [mentions_iff, Composition.sharedOf, Array.getD_eq_getD_getElem?]
  simp only [Composition.ofPartitions, Array.getElem?_map]
  cases ps.parts[p]? with
  | none => simp
  | some part => simp

/-- Something is counted more than once if it is counted at two places. -/
theorem one_lt_countP_iff {f : Nat → Bool} {n : Nat} (hp : p < n) (hf : f p) :
    1 < (List.range n).countP f ↔ ∃ q < n, q ≠ p ∧ f q := by
  have hperm := List.perm_cons_erase (List.mem_range.2 hp)
  rw [hperm.countP_eq, List.countP_cons_of_pos hf, Nat.lt_add_left_iff_pos, List.countP_pos_iff]
  simp only [List.nodup_range.mem_erase_iff, List.mem_range]
  constructor
  · rintro ⟨q, ⟨hne, hq⟩, hfq⟩
    exact ⟨q, hq, hne, hfq⟩
  · rintro ⟨q, hq, hne, hfq⟩
    exact ⟨q, ⟨hne, hq⟩, hfq⟩

theorem shares_ofPartitions (hnet : net.Closed) (h : ofSets net sets = .ok ps) :
    (Composition.ofPartitions net.dims ps).Shares ps.mentions where
  nodup p := by
    rw [Composition.sharedOf, Array.getD_eq_getD_getElem?]
    simp only [Composition.ofPartitions, Array.getElem?_map]
    cases hpart : ps.parts[p]? with
    | none => exact .nil
    | some part => exact (proper_ofSets h hpart).strict_scope.nodup.filter _
  mem {p v} hp := by
    rw [size_ofPartitions] at hp ⊢
    rw [mem_sharedOf]
    refine and_congr_right fun hv => ?_
    obtain ⟨part, hpart, hmem⟩ := mentions_iff.1 hv
    rw [occurrences_eq ((proper_ofSets h hpart).lt_of_mem_scope hnet hmem)]
    exact one_lt_countP_iff hp hv
  count {p v} hv := by
    obtain ⟨part, hpart, hmem⟩ := mentions_iff.1 (mem_sharedOf.1 hv).1
    rw [size_ofPartitions, occurrences_eq ((proper_ofSets h hpart).lt_of_mem_scope hnet hmem)]

end Partitions
end BayesCircuit
