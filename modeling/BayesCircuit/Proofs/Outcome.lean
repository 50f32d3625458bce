import BayesCircuit.Failure
import Mathlib.Data.List.Forall2

/-!
# Computations that succeed

A sequence of computations succeeds if each of them does, and then its results belong to its elements
one by one.
-/

namespace BayesCircuit

theorem exists_of_forall₂ {α β : Type} {R : α → β → Prop} {xs : List α} {ys : List β}
    (h : List.Forall₂ R xs ys) {y : β} (hy : y ∈ ys) : ∃ x ∈ xs, R x y := by
  induction h with
  | nil => exact absurd hy List.not_mem_nil
  | cons hxy _ ih =>
      rcases List.mem_cons.1 hy with rfl | hy
      · exact ⟨_, List.mem_cons_self .., hxy⟩
      · obtain ⟨x, hx, hxy⟩ := ih hy
        exact ⟨x, List.mem_cons_of_mem _ hx, hxy⟩

theorem pairwise_of_forall₂ {α β : Type} {R : α → β → Prop} {S : α → α → Prop} {T : β → β → Prop}
    {xs : List α} {ys : List β} (h : List.Forall₂ R xs ys) (hxs : xs.Pairwise S)
    (hST : ∀ {x x' y y'}, S x x' → R x y → R x' y' → T y y') : ys.Pairwise T := by
  induction h with
  | nil => exact .nil
  | cons hxy hrest ih =>
      obtain ⟨hx, hxs⟩ := List.pairwise_cons.1 hxs
      refine List.pairwise_cons.2 ⟨fun y' hy' => ?_, ih hxs⟩
      obtain ⟨x', hx', hxy'⟩ := exists_of_forall₂ hrest hy'
      exact hST (hx x' hx') hxy hxy'

namespace Outcome

variable {α β : Type} {x : Outcome α} {f g : α → Outcome β} {xs : List α} {ys : List β} {b : β}

theorem bind_eq_ok_iff : (x >>= f) = .ok b ↔ ∃ a, x = .ok a ∧ f a = .ok b := by
  cases x with
  | error e => exact ⟨fun h => (by cases h), fun ⟨_, h, _⟩ => by cases h⟩
  | ok a => exact ⟨fun h => ⟨a, rfl, h⟩, fun ⟨_, h, h'⟩ => by cases h; exact h'⟩

theorem expect_eq_ok {fault : Fault} {value : Option α} {a : α} :
    expect fault value = .ok a ↔ value = some a := by
  cases value <;> simp [expect, abort]

theorem mapM_eq_ok_iff : xs.mapM f = .ok ys ↔ List.Forall₂ (fun x y => f x = .ok y) xs ys := by
  induction xs generalizing ys with
  | nil =>
      constructor
      · intro h
        cases h
        exact .nil
      · intro h
        cases h
        rfl
  | cons x xs ih =>
      rw [List.mapM_cons, bind_eq_ok_iff]
      constructor
      · rintro ⟨y, hy, h⟩
        obtain ⟨ys, hys, h⟩ := bind_eq_ok_iff.1 h
        cases h
        exact .cons hy (ih.1 hys)
      · intro h
        cases h with
        | cons hy hys => exact ⟨_, hy, bind_eq_ok_iff.2 ⟨_, ih.2 hys, rfl⟩⟩

theorem length_of_mapM_ok (h : xs.mapM f = .ok ys) : ys.length = xs.length :=
  (mapM_eq_ok_iff.1 h).length_eq.symm

/-- The results of a list are those of its elements. -/
theorem mem_of_mapM_ok (h : xs.mapM f = .ok ys) :
    (∀ x ∈ xs, ∃ y ∈ ys, f x = .ok y) ∧ ∀ y ∈ ys, ∃ x ∈ xs, f x = .ok y := by
  have hall := mapM_eq_ok_iff.1 h
  clear h
  induction hall with
  | nil => simp
  | cons hy _ ih =>
      simp only [List.mem_cons, forall_eq_or_imp, exists_eq_or_imp, hy]
      exact ⟨⟨Or.inl trivial, fun a ha => Or.inr (ih.1 a ha)⟩, Or.inl trivial,
        fun b hb => Or.inr (ih.2 b hb)⟩

/-- A computation on each element that is known to succeed. -/
theorem mapM_ok {g : α → β} (h : ∀ x ∈ xs, f x = .ok (g x)) : xs.mapM f = .ok (xs.map g) := by
  refine mapM_eq_ok_iff.2 ?_
  rw [List.forall₂_map_right_iff, List.forall₂_same]
  exact h

theorem exists_mapM_ok (h : ∀ x ∈ xs, ∃ y, f x = .ok y) : ∃ ys, xs.mapM f = .ok ys := by
  induction xs with
  | nil => exact ⟨[], rfl⟩
  | cons x xs ih =>
      obtain ⟨hx, hxs⟩ := List.forall_mem_cons.1 h
      obtain ⟨y, hy⟩ := hx
      obtain ⟨ys, hys⟩ := ih hxs
      exact ⟨y :: ys, mapM_eq_ok_iff.2 (.cons hy (mapM_eq_ok_iff.1 hys))⟩

theorem mapM_congr (h : ∀ x ∈ xs, f x = g x) : xs.mapM f = xs.mapM g := by
  induction xs with
  | nil => rfl
  | cons x xs ih =>
      rw [List.mapM_cons, List.mapM_cons, h x (List.mem_cons_self ..),
        ih fun x hx => h x (List.mem_cons_of_mem _ hx)]

/-- Results that are all there, in any order. -/
theorem mapM_id_of_perm {rs : List (Outcome β)} (h : rs.Perm (ys.map .ok)) :
    ∃ zs, rs.mapM id = .ok zs ∧ zs.Perm ys := by
  refine ⟨rs.filterMap Except.toOption, ?_, ?_⟩
  · have hok : ∀ r ∈ rs, ∃ y, r = .ok y := by
      intro r hr
      obtain ⟨y, _, rfl⟩ := List.mem_map.1 (h.mem_iff.1 hr)
      exact ⟨y, rfl⟩
    clear h
    induction rs with
    | nil => rfl
    | cons r rs ih =>
        obtain ⟨y, rfl⟩ := hok r (List.mem_cons_self ..)
        rw [List.mapM_cons, ih fun r hr => hok r (List.mem_cons_of_mem _ hr)]
        rfl
  · have hfilter := h.filterMap Except.toOption
    rw [List.filterMap_map] at hfilter
    exact hfilter.trans (.of_eq (List.filterMap_some ..))

/-! ## Computations without faults -/

/-- A computation that ends with a value or with an error that its caller is told about. -/
def Safe (x : Outcome α) : Prop := ∀ fault, x ≠ abort fault

theorem Safe.ok {a : α} : Safe (.ok a) := nofun

theorem Safe.pure {a : α} : Safe (pure a) := Safe.ok

theorem Safe.fail {e : Error} : Safe (α := α) (fail e) := nofun

theorem Safe.of_eq {a : α} (h : x = .ok a) : Safe x := h ▸ Safe.ok

theorem bind_eq_abort_iff {fault : Fault} : (x >>= f) = abort fault ↔
    x = abort fault ∨ ∃ a, x = .ok a ∧ f a = abort fault := by
  cases x with
  | ok a => exact ⟨fun h => Or.inr ⟨a, rfl, h⟩, by rintro (h | ⟨_, h, hf⟩) <;> cases h; exact hf⟩
  | error e =>
      constructor
      · exact fun h => Or.inl (congrArg Except.error (Except.error.inj h))
      · rintro (h | ⟨_, h, -⟩)
        · exact congrArg Except.error (Except.error.inj h)
        · cases h

theorem Safe.bind (hx : Safe x) (hf : ∀ a, x = .ok a → Safe (f a)) : Safe (x >>= f) := by
  intro fault h
  obtain h | ⟨a, ha, h⟩ := bind_eq_abort_iff.1 h
  · exact hx fault h
  · exact hf a ha fault h

/-- A fault in a row of computations is one of them. -/
theorem exists_of_mapM_abort {fault : Fault} (h : xs.mapM f = abort fault) :
    ∃ x ∈ xs, f x = abort fault := by
  induction xs with
  | nil => cases h
  | cons x xs ih =>
      rw [List.mapM_cons] at h
      obtain h | ⟨_, -, h⟩ := bind_eq_abort_iff.1 h
      · exact ⟨x, List.mem_cons_self .., h⟩
      · obtain h | ⟨_, -, h⟩ := bind_eq_abort_iff.1 h
        · obtain ⟨y, hy, hfault⟩ := ih h
          exact ⟨y, List.mem_cons_of_mem _ hy, hfault⟩
        · cases h

theorem Safe.mapM (h : ∀ x ∈ xs, Safe (f x)) : Safe (xs.mapM f) := by
  intro fault hfault
  obtain ⟨x, hx, hfault⟩ := exists_of_mapM_abort hfault
  exact h x hx fault hfault

theorem Safe.forM {f : α → Outcome Unit} (h : ∀ x ∈ xs, Safe (f x)) : Safe (xs.forM f) := by
  induction xs with
  | nil => exact Safe.ok
  | cons x xs ih =>
      obtain ⟨hx, hxs⟩ := List.forall_mem_cons.1 h
      exact hx.bind fun _ _ => ih hxs

theorem forM_eq_ok_iff {f : α → Outcome Unit} :
    xs.forM f = .ok () ↔ ∀ x ∈ xs, f x = .ok () := by
  induction xs with
  | nil => exact iff_of_true rfl fun _ hx => absurd hx List.not_mem_nil
  | cons x xs ih =>
      have hcons : (x :: xs).forM f = f x >>= fun _ => xs.forM f := rfl
      rw [hcons, bind_eq_ok_iff, List.forall_mem_cons, ih]
      exact ⟨fun ⟨_, h⟩ => h, fun h => ⟨(), h⟩⟩

end Outcome
end BayesCircuit
