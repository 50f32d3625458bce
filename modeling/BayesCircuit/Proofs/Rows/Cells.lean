import BayesCircuit.Proofs.Rows.Table

/-!
# What the literals of an entry do to the rows

A literal that is propagated changes what is missing of the rows that have it and what resolved
them, and nothing else. Each row is changed on its own, according to how often it has the literal
(`moved_propagateAll`), and so it is when an entry is taken back (`moved_restoreAll`). The literals
of an entry do not meet each other on a row: what was done to it can be told from what resolved it,
so that taking back the literals in reverse order restores it (`untouchAll_touchAll`).
-/

namespace BayesCircuit.Decision

theorem Cofactor.combine_ne_redundant {a b : Cofactor} (ha : a ≠ redundant) (hb : b ≠ redundant) :
    a.combine b ≠ redundant := by
  unfold combine
  split <;> assumption

namespace Rows

/-- The number of missing literals of a row, and the literal that resolved it or zero. -/
@[ext]
structure Cell where
  missing : Nat
  resolver : Int

/-- What is known about a row. -/
def cell (r : Rows) (row : Nat) : Cell := ⟨r.missing.getD row 0, r.resolvedBy.getD row 0⟩

/-- How often a row has a literal or its negation. -/
def uses (r : Rows) (l : Literal) (row : Nat) : Nat := (r.rowsOf.getD l.index []).count row

/-- The number of pending rows is right. -/
def Balanced (r : Rows) : Prop := r.pending = r.resolvedBy.count 0

namespace Cell

/-- What propagating a literal does to a row that has it `k` times. -/
def touch (l : Literal) (k : Nat) (c : Cell) : Cell :=
  if k = 0 ∨ c.resolver ≠ 0 then c
  else if l.isNegative then { c with resolver := l.value }
  else if c.missing ≤ k then ⟨0, l.value⟩
  else { c with missing := c.missing - k }

/-- What taking back a literal does to a row that has it `k` times. -/
def untouch (l : Literal) (k : Nat) (c : Cell) : Cell :=
  if k = 0 then c
  else if l.isNegative then if c.resolver = l.value then { c with resolver := 0 } else c
  else if c.resolver = l.value ∧ c.missing = 0 then ⟨k, 0⟩
  else if c.resolver = 0 then { c with missing := c.missing + k }
  else c

variable {l : Literal} {c : Cell} {j k : Nat}

@[simp]
theorem touch_zero : c.touch l 0 = c := by simp [touch]

@[simp]
theorem untouch_zero : c.untouch l 0 = c := by simp [untouch]

theorem touch_resolved (h : c.resolver ≠ 0) : c.touch l k = c := by simp [touch, h]

theorem touch_pending (hl : l.isNegative = true) (hx : c.resolver = 0) :
    c.touch l 1 = { c with resolver := l.value } := by
  simp [touch, hl, hx]

theorem touch_open (hl : l.isNegative = false) (hx : c.resolver = 0) (hm : 1 < c.missing) :
    c.touch l 1 = { c with missing := c.missing - 1 } := by
  have hopen : ¬ c.missing ≤ 1 := by omega
  simp [touch, hl, hx, hopen]

theorem touch_last (hl : l.isNegative = false) (hx : c.resolver = 0) (hm : c.missing ≤ 1) :
    c.touch l 1 = ⟨0, l.value⟩ := by
  simp [touch, hl, hx, hm]

theorem touch_touch : (c.touch l j).touch l k = c.touch l (j + k) := by
  have hl := l.value_ne_zero
  obtain ⟨m, x⟩ := c
  by_cases hx : x = 0
  · subst hx
    by_cases hn : l.isNegative = true
    · by_cases hj : j = 0 <;> simp [touch, hn, hj, hl]
    · unfold touch
      grind
  · simp only [touch_resolved (c := ⟨m, x⟩) hx]

theorem untouch_untouch : (c.untouch l j).untouch l k = c.untouch l (j + k) := by
  have hl := l.value_ne_zero
  obtain ⟨m, x⟩ := c
  unfold untouch
  grind

theorem untouch_negative (hl : l.isNegative = true) (hx : c.resolver = l.value) :
    c.untouch l 1 = { c with resolver := 0 } := by
  simp [untouch, hl, hx]

theorem untouch_completed (hl : l.isNegative = false) (hx : c.resolver = l.value)
    (hm : c.missing = 0) : c.untouch l 1 = ⟨1, 0⟩ := by
  simp [untouch, hl, hx, hm]

theorem untouch_open (hl : l.isNegative = false) (hx : c.resolver = 0) :
    c.untouch l 1 = { c with missing := c.missing + 1 } := by
  have hne := l.value_ne_zero.symm
  simp [untouch, hl, hx, hne]

theorem untouch_negative_other (hl : l.isNegative = true) (hx : c.resolver ≠ l.value) :
    c.untouch l 1 = c := by
  simp [untouch, hl, hx]

theorem untouch_positive_other (hl : l.isNegative = false) (hx : c.resolver ≠ 0)
    (hm : ¬ (c.resolver = l.value ∧ c.missing = 0)) : c.untouch l 1 = c := by
  simp [untouch, hl, hx, hm]

/-- Taking back a literal restores a row, unless that was resolved by the literal before. -/
theorem untouch_touch (h : c.resolver ≠ l.value)
    (hk : l.isNegative = false → c.resolver = 0 → k ≤ c.missing) :
    (c.touch l k).untouch l k = c := by
  have hl := l.value_ne_zero
  obtain ⟨m, x⟩ := c
  unfold touch untouch
  grind

theorem touch_resolver : (c.touch l k).resolver = c.resolver ∨ (c.touch l k).resolver = l.value := by
  unfold touch
  grind

theorem touch_missing (h : l.isNegative = true) : (c.touch l k).missing = c.missing := by
  unfold touch
  grind

theorem touch_positive_iff (hl : l.isNegative = false) (hx : c.resolver = 0) :
    (c.touch l 1).resolver = 0 ↔ 1 < c.missing := by
  have hne := l.value_ne_zero
  unfold touch
  grind

theorem touch_negative_ne (hl : l.isNegative = true) : (c.touch l 1).resolver ≠ 0 := by
  have hne := l.value_ne_zero
  unfold touch
  grind

theorem le_missing_touch (h : (c.touch l j).resolver = 0)
    (hk : c.resolver = 0 → j + k ≤ c.missing) : k ≤ (c.touch l j).missing := by
  have hl := l.value_ne_zero
  unfold touch at h ⊢
  grind

/-- What propagating the literals of an entry does to a row, where `uses` says how often it has
each of them. -/
def touchAll (uses : Literal → Nat) (entry : List Literal) (c : Cell) : Cell :=
  entry.foldl (fun c l => c.touch l (uses l)) c

/-- What taking back the literals of an entry does to a row. -/
def untouchAll (uses : Literal → Nat) (entry : List Literal) (c : Cell) : Cell :=
  entry.foldr (fun l c => c.untouch l (uses l)) c

variable {uses : Literal → Nat} {entry : List Literal}

theorem touchAll_cons : touchAll uses (l :: entry) c = touchAll uses entry (c.touch l (uses l)) :=
  rfl

theorem touchAll_resolver : (touchAll uses entry c).resolver = c.resolver ∨
    ∃ m ∈ entry, m.value = (touchAll uses entry c).resolver := by
  induction entry generalizing c with
  | nil => exact Or.inl rfl
  | cons l entry ih =>
      rw [touchAll_cons]
      rcases ih (c := c.touch l (uses l)) with h | ⟨m, hm, h⟩
      · rw [h]
        rcases touch_resolver (c := c) (l := l) (k := uses l) with h' | h'
        · exact Or.inl h'
        · exact Or.inr ⟨l, List.mem_cons_self .., h'.symm⟩
      · exact Or.inr ⟨m, List.mem_cons_of_mem _ hm, h⟩

/-- A row that is pending afterwards was pending before. -/
theorem pending_of_touchAll (h : (touchAll uses entry c).resolver = 0) : c.resolver = 0 := by
  induction entry generalizing c with
  | nil => exact h
  | cons l entry ih =>
      by_contra hne
      exact hne (touch_resolved (l := l) (k := uses l) hne ▸ ih h)

theorem touchAll_negative (hneg : ∀ m ∈ entry, m.isNegative = true) :
    (touchAll uses entry c).missing = c.missing := by
  induction entry generalizing c with
  | nil => rfl
  | cons l entry ih =>
      obtain ⟨hl, hrest⟩ := List.forall_mem_cons.1 hneg
      rw [touchAll_cons, ih hrest, touch_missing hl]

/-- Negative literals leave a row pending if it has none of them. -/
theorem touchAll_pending_iff (hneg : ∀ m ∈ entry, m.isNegative = true) :
    (touchAll uses entry c).resolver = 0 ↔ c.resolver = 0 ∧ ∀ m ∈ entry, uses m = 0 := by
  induction entry generalizing c with
  | nil => simp [touchAll]
  | cons l entry ih =>
      obtain ⟨hl, hrest⟩ := List.forall_mem_cons.1 hneg
      have hne := l.value_ne_zero
      rw [touchAll_cons, ih hrest, List.forall_mem_cons, ← and_assoc]
      refine and_congr_left fun _ => ?_
      unfold touch
      grind

/-- A row that is still pending misses a positive literal less often than before. -/
theorem missing_touch (h : (c.touch l k).resolver = 0) (hl : l.isNegative = false)
    (hk : k ≤ c.missing) : (c.touch l k).missing + k = c.missing := by
  have hne := l.value_ne_zero
  unfold touch at h ⊢
  grind

theorem untouchAll_touchAll (hnodup : entry.Nodup) (hnew : ∀ m ∈ entry, c.resolver ≠ m.value)
    (hk : ∀ m ∈ entry, m.isNegative = false → c.resolver = 0 → uses m ≤ c.missing)
    (htail : ∀ m ∈ entry.tail, m.isNegative = true) :
    untouchAll uses entry (touchAll uses entry c) = c := by
  induction entry generalizing c with
  | nil => rfl
  | cons l entry ih =>
      obtain ⟨hl, hnodup⟩ := List.nodup_cons.1 hnodup
      rw [touchAll_cons, untouchAll, List.foldr_cons]
      have hrest : untouchAll uses entry (touchAll uses entry (c.touch l (uses l))) =
          c.touch l (uses l) := by
        refine ih hnodup (fun m hm he => ?_) (fun m hm hpos => ?_) fun m hm => ?_
        · rcases touch_resolver (c := c) (l := l) (k := uses l) with h | h
          · exact hnew m (List.mem_cons_of_mem _ hm) (h.symm.trans he)
          · have : l = m := by
              cases l
              cases m
              cases h.symm.trans he
              rfl
            exact hl (this ▸ hm)
        · exact absurd (htail m hm) (by simp [hpos])
        · exact htail m (List.mem_of_mem_tail hm)
      rw [← untouchAll, hrest]
      exact untouch_touch (hnew l (List.mem_cons_self ..)) (hk l (List.mem_cons_self ..))

end Cell

/-! ## Changes of the rows -/

/-- Only the rows have been changed, each of them as `φ` says. -/
structure Moved (φ : Nat → Cell → Cell) (r r' : Rows) : Prop where
  rest : r' = { r with missing := r'.missing, resolvedBy := r'.resolvedBy, pending := r'.pending }
  missing_size : r'.missing.size = r.missing.size
  resolvedBy_size : r'.resolvedBy.size = r.resolvedBy.size
  cell : ∀ row, r'.cell row = φ row (r.cell row)
  balanced : r.Balanced → r'.Balanced

namespace Moved

variable {φ ψ : Nat → Cell → Cell} {r r' r'' : Rows}

theorem refl : Moved (fun _ c => c) r r := ⟨rfl, rfl, rfl, fun _ => rfl, fun h => h⟩

theorem trans (h : Moved φ r r') (h' : Moved ψ r' r'') :
    Moved (fun row c => ψ row (φ row c)) r r'' where
  rest := by rw [h'.rest, h.rest]
  missing_size := h'.missing_size.trans h.missing_size
  resolvedBy_size := h'.resolvedBy_size.trans h.resolvedBy_size
  cell row := by rw [h'.cell, h.cell]
  balanced hr := h'.balanced (h.balanced hr)

theorem congr (h : Moved φ r r') (hφ : ∀ row, φ row (r.cell row) = ψ row (r.cell row)) :
    Moved ψ r r' :=
  ⟨h.rest, h.missing_size, h.resolvedBy_size, fun row => (h.cell row).trans (hφ row), h.balanced⟩

/-- A change of one row that is what `u` does there. -/
theorem single {row : Nat} {g : Cell → Cell} {u : Nat → Cell → Cell} (hu : ∀ c, u 0 c = c)
    (h : Moved (fun σ c => if σ = row then g c else c) r r')
    (hg : u 1 (r.cell row) = g (r.cell row)) :
    Moved (fun σ c => u (if σ = row then 1 else 0) c) r r' := by
  refine h.congr fun σ => ?_
  by_cases hσ : σ = row
  · rw [if_pos hσ, if_pos hσ, hσ, hg]
  · rw [if_neg hσ, if_neg hσ, hu]

/-- Nothing is changed where `u` does nothing. -/
theorem none {row : Nat} {u : Nat → Cell → Cell} (hu : ∀ c, u 0 c = c)
    (hg : u 1 (r.cell row) = r.cell row) :
    Moved (fun σ c => u (if σ = row then 1 else 0) c) r r := by
  refine single (g := id) hu (refl.congr fun σ => ?_) hg
  split <;> rfl

theorem rowsOf (h : Moved φ r r') : r'.rowsOf = r.rowsOf := by rw [h.rest]

theorem uses (h : Moved φ r r') : r'.uses = r.uses := by
  funext l row
  rw [Rows.uses, Rows.uses, h.rowsOf]

end Moved

variable {r r' : Rows} {l : Literal} {row : Nat} {rows : List Nat} {entry : List Literal}
variable {s : Findings}

theorem getD_setIfInBounds {α : Type} {xs : Array α} {i : Nat} {x d : α} (hi : i < xs.size)
    (j : Nat) : (xs.setIfInBounds i x).getD j d = if j = i then x else xs.getD j d := by
  by_cases hj : j = i
  · subst hj
    simp [Array.getD_eq_getD_getElem?, hi]
  · simp [Array.getD_eq_getD_getElem?, Array.getElem?_setIfInBounds_ne (Ne.symm hj), hj]

theorem count_setIfInBounds {xs : Array Int} {i : Nat} {x : Int} (hi : i < xs.size) :
    (xs.setIfInBounds i x).count 0 =
      xs.count 0 - (if xs.getD i 0 = 0 then 1 else 0) + if x = 0 then 1 else 0 := by
  rw [Array.setIfInBounds_def, dif_pos hi, Array.count_set hi]
  simp [Array.getD_eq_getD_getElem?, hi]

/-- Writing what resolved a row changes that row. -/
theorem moved_resolvedBy {x : Int} {pending : Nat} (hrow : row < r.resolvedBy.size)
    (hpending : r.Balanced → pending = r.resolvedBy.count 0 -
      (if r.resolvedBy.getD row 0 = 0 then 1 else 0) + if x = 0 then 1 else 0) :
    Moved (fun σ c => if σ = row then { c with resolver := x } else c) r
      { r with resolvedBy := r.resolvedBy.setIfInBounds row x, pending } where
  rest := rfl
  missing_size := rfl
  resolvedBy_size := Array.size_setIfInBounds
  cell σ := by
    simp only [cell, getD_setIfInBounds hrow]
    split <;> rfl
  balanced hr := by rw [Balanced, count_setIfInBounds hrow]; exact hpending hr

/-- Writing what is missing of a row changes that row. -/
theorem moved_missing {m : Nat} (hrow : row < r.missing.size) :
    Moved (fun σ c => if σ = row then { c with missing := m } else c) r
      { r with missing := r.missing.setIfInBounds row m } where
  rest := rfl
  missing_size := Array.size_setIfInBounds
  resolvedBy_size := rfl
  cell σ := by
    simp only [cell, getD_setIfInBounds hrow]
    split <;> rfl
  balanced hr := hr

/-! ## Propagating -/

theorem moved_kill (hl : l.isNegative = true) (hrow : row < r.resolvedBy.size) :
    Moved (fun σ c => c.touch l (if σ = row then 1 else 0)) r (kill l row r) := by
  have hne := l.value_ne_zero
  unfold kill
  by_cases h : r.resolvedBy.getD row 0 = 0
  · rw [if_pos (by simpa using h)]
    refine (moved_resolvedBy hrow fun hr => ?_).single (fun _ => Cell.touch_zero)
      (Cell.touch_pending hl h)
    rw [if_pos h, if_neg hne, hr]
    rfl
  · rw [if_neg (by simpa using h)]
    exact Moved.none (fun _ => Cell.touch_zero) (Cell.touch_resolved h)

/-- A literal completes a row that misses nothing else. -/
def Cell.Completes (c : Cell) : Prop := c.resolver = 0 ∧ c.missing ≤ 1

instance (c : Cell) : Decidable c.Completes := inferInstanceAs (Decidable (_ ∧ _))

/-- What a completed row adds to the findings. -/
def Findings.complete (determinism : Bool) (w : Weight) (s : Findings) : Findings :=
  if determinism && w == 0 then { s with found := s.found.combine .unsatisfiable }
  else if determinism && w == 1 then s
  else { s with weights := s.weights ++ [w] }

theorem Findings.complete_found {determinism : Bool} {w : Weight} (h : s.found ≠ .redundant) :
    (s.complete determinism w).found ≠ .redundant := by
  unfold complete
  by_cases hzero : (determinism && w == 0) = true
  · rw [if_pos hzero]
    exact Cofactor.combine_ne_redundant h (by decide)
  · rw [if_neg hzero]
    split <;> exact h

/-- A positive literal brings a pending row closer to completion. -/
theorem advance_eq (hl : l.isNegative = false) (hmissing : row < r.missing.size)
    (hrow : row < r.resolvedBy.size)
    (hk : r.resolvedBy.getD row 0 = 0 → 0 < r.missing.getD row 0) :
    ∃ r', advance l row r s = .ok (r', if (r.cell row).Completes
        then s.complete r.determinism (r.weights.getD row 0) else s) ∧
      Moved (fun σ c => c.touch l (if σ = row then 1 else 0)) r r' := by
  have hne := l.value_ne_zero
  unfold advance
  by_cases h : r.resolvedBy.getD row 0 = 0
  · have hpos := hk h
    have hminus : minus (r.missing.getD row 0) 1 = .ok (r.missing.getD row 0 - 1) := if_pos hpos
    rw [if_neg (by simpa using h), hminus]
    simp only [bind, Except.bind, pure, Except.pure]
    by_cases hleft : 0 < r.missing.getD row 0 - 1
    · have hopen : ¬ r.missing.getD row 0 ≤ 1 := by omega
      have hcompletes : ¬ (r.cell row).Completes := fun hc => hopen hc.2
      rw [if_pos hleft, if_neg hcompletes]
      exact ⟨_, rfl, (moved_missing hmissing).single (fun _ => Cell.touch_zero)
        (Cell.touch_open hl h (Nat.lt_of_not_le hopen))⟩
    · have hlast : r.missing.getD row 0 ≤ 1 := by omega
      have hzero : r.missing.getD row 0 - 1 = 0 := by omega
      have hcompletes : (r.cell row).Completes := ⟨h, hlast⟩
      rw [if_neg hleft, if_pos hcompletes]
      refine ⟨resolve { r with missing := r.missing.setIfInBounds row (r.missing.getD row 0 - 1) }
        row l, ?_, ?_⟩
      · simp only [Findings.complete, resolve]
        by_cases hw : (r.determinism && r.weights.getD row 0 == 0) = true
        · simp only [hw, if_true]
        · by_cases hw' : (r.determinism && r.weights.getD row 0 == 1) = true
          · simp only [hw, hw', if_true]
            rfl
          · simp only [hw, hw']
            rfl
      · refine (((moved_missing hmissing).trans
          (moved_resolvedBy (x := l.value) hrow fun hr => ?_)).congr fun σ => ?_).single
            (g := fun _ => ⟨0, l.value⟩) (fun _ => Cell.touch_zero) (Cell.touch_last hl h hlast)
        · rw [if_neg hne, if_pos h]
          exact congrArg (· - 1) hr
        · rw [hzero]
          split <;> rfl
  · have hcompletes : ¬ (r.cell row).Completes := fun hc => h hc.1
    rw [if_pos (by simpa using h), if_neg hcompletes]
    exact ⟨r, rfl, Moved.none (fun _ => Cell.touch_zero) (Cell.touch_resolved h)⟩

/-- Every row that has a literal is there. -/
def InBounds (r : Rows) (rows : List Nat) : Prop :=
  ∀ row ∈ rows, row < r.missing.size ∧ row < r.resolvedBy.size

theorem Moved.inBounds {φ : Nat → Cell → Cell} (h : Moved φ r r') (hb : r.InBounds rows) :
    r'.InBounds rows := fun row hrow => by
  rw [h.missing_size, h.resolvedBy_size]
  exact hb row hrow

theorem count_cons_eq (row σ : Nat) (rows : List Nat) :
    (row :: rows).count σ = (if σ = row then 1 else 0) + rows.count σ := by
  rw [List.count_cons, Nat.add_comm]
  congr 1
  by_cases h : σ = row
  · simp [h]
  · have : row ≠ σ := fun he => h he.symm
    simp [h, this]

/-- The literals of an entry are propagated to each row as often as the row has them. -/
theorem moved_propagate (hb : r.InBounds rows)
    (hk : l.isNegative = false → ∀ row, (r.cell row).resolver = 0 →
      rows.count row ≤ (r.cell row).missing) :
    ∃ r' s', propagate l rows r s = .ok (r', s') ∧
      Moved (fun row c => c.touch l (rows.count row)) r r' ∧
      (s.found ≠ .redundant → s'.found ≠ .redundant) := by
  induction rows generalizing r s with
  | nil => exact ⟨r, s, rfl, Moved.refl.congr fun σ => by simp, fun h => h⟩
  | cons row rows ih =>
      obtain ⟨⟨hmissing, hrow⟩, hb'⟩ := List.forall_mem_cons.1 hb
      by_cases hl : l.isNegative = true
      · have hkill := moved_kill hl hrow
        obtain ⟨r', s', hrun, hmoved, hfound⟩ := ih (s := s) (hkill.inBounds hb')
          fun h => absurd hl (by simp [h])
        refine ⟨r', s', by rw [propagate, if_pos hl, hrun], ?_, hfound⟩
        refine (hkill.trans hmoved).congr fun σ => ?_
        rw [Cell.touch_touch, count_cons_eq]
      · have hl' : l.isNegative = false := by simpa using hl
        have hpos : r.resolvedBy.getD row 0 = 0 → 0 < r.missing.getD row 0 := by
          intro h
          have := hk hl' row h
          rw [count_cons_eq, if_pos rfl] at this
          exact Nat.lt_of_lt_of_le (by omega) this
        obtain ⟨r₁, hadvance, hmoved₁⟩ := advance_eq (s := s) hl' hmissing hrow hpos
        have hk₁ : l.isNegative = false → ∀ σ, (r₁.cell σ).resolver = 0 →
            rows.count σ ≤ (r₁.cell σ).missing := by
          intro _ σ hσ
          rw [hmoved₁.cell] at hσ ⊢
          refine Cell.le_missing_touch hσ fun h => ?_
          rw [← count_cons_eq]
          exact hk hl' σ h
        obtain ⟨r', s', hrun, hmoved, hfound⟩ := ih (hmoved₁.inBounds hb') hk₁
        refine ⟨r', s', ?_, (hmoved₁.trans hmoved).congr fun σ => ?_, fun hs => hfound ?_⟩
        · rw [propagate, if_neg hl, hadvance]
          exact hrun
        · rw [Cell.touch_touch, count_cons_eq]
        · split
          · exact Findings.complete_found hs
          · exact hs

/-- The entry can be propagated: every row that has one of its literals is there, and only its
first literal may be positive, which pending rows must still miss. -/
structure Fits (r : Rows) (entry : List Literal) : Prop where
  inBounds : ∀ l ∈ entry, r.InBounds (r.rowsOf.getD l.index [])
  missing : ∀ l ∈ entry, l.isNegative = false → ∀ row, (r.cell row).resolver = 0 →
    r.uses l row ≤ (r.cell row).missing
  tail : ∀ l ∈ entry.tail, l.isNegative = true

theorem moved_propagateAll (h : r.Fits entry) :
    ∃ r' s', propagateAll entry r s = .ok (r', s') ∧
      Moved (fun row c => c.touchAll (r.uses · row) entry) r r' ∧
      (s.found ≠ .redundant → s'.found ≠ .redundant) := by
  induction entry generalizing r s with
  | nil => exact ⟨r, s, rfl, Moved.refl, fun h => h⟩
  | cons l entry ih =>
      obtain ⟨hl, hrest⟩ := List.forall_mem_cons.1 h.inBounds
      obtain ⟨r₁, s₁, hrun₁, hmoved₁, hfound₁⟩ := moved_propagate (s := s) hl
        (h.missing l (List.mem_cons_self ..))
      have hfits : r₁.Fits entry := by
        refine ⟨fun m hm => ?_, fun m hm hpos => ?_, fun m hm => ?_⟩
        · rw [hmoved₁.rowsOf]
          exact hmoved₁.inBounds (hrest m hm)
        · exact absurd (h.tail m hm) (by simp [hpos])
        · exact h.tail m (List.mem_of_mem_tail hm)
      obtain ⟨r', s', hrun, hmoved, hfound⟩ := ih (s := s₁) hfits
      refine ⟨r', s', ?_, (hmoved₁.trans hmoved).congr fun row => ?_, fun hs => hfound (hfound₁ hs)⟩
      · rw [propagateAll, hrun₁]
        exact hrun
      · rw [Cell.touchAll_cons, hmoved₁.uses]
        rfl

/-! ## Taking back -/

theorem moved_restore (hmissing : row < r.missing.size) (hrow : row < r.resolvedBy.size) :
    Moved (fun σ c => c.untouch l (if σ = row then 1 else 0)) r (restore l row r) := by
  have hne := l.value_ne_zero
  have hpending : ∀ {x : Int}, r.resolvedBy.getD row 0 = l.value → x = 0 → r.Balanced →
      r.pending + 1 = r.resolvedBy.count 0 -
        (if r.resolvedBy.getD row 0 = 0 then 1 else 0) + if x = 0 then 1 else 0 := by
    intro x hx hzero hr
    rw [if_neg (hx ▸ hne), if_pos hzero, hr]
    rfl
  unfold restore
  by_cases hn : l.isNegative = true
  · rw [if_pos hn]
    by_cases hx : r.resolvedBy.getD row 0 = l.value
    · rw [if_pos (by simpa using hx)]
      exact (moved_resolvedBy hrow (hpending hx rfl)).single (fun _ => Cell.untouch_zero)
        (Cell.untouch_negative hn hx)
    · rw [if_neg (by simpa using hx)]
      exact Moved.none (fun _ => Cell.untouch_zero) (Cell.untouch_negative_other hn hx)
  · have hn' : l.isNegative = false := by simpa using hn
    rw [if_neg hn]
    by_cases hx : r.resolvedBy.getD row 0 = l.value ∧ r.missing.getD row 0 = 0
    · obtain ⟨hx, hm⟩ := hx
      rw [if_pos (by simp [hx, hm]), hm]
      refine (((moved_resolvedBy hrow (hpending hx rfl)).trans
        (moved_missing hmissing)).congr fun σ => ?_).single (g := fun _ => ⟨1, 0⟩)
          (fun _ => Cell.untouch_zero) (Cell.untouch_completed hn' hx hm)
      split <;> rfl
    · rw [if_neg (by simpa using hx)]
      by_cases hzero : r.resolvedBy.getD row 0 = 0
      · rw [if_pos (by simpa using hzero)]
        exact (moved_missing hmissing).single (fun _ => Cell.untouch_zero)
          (Cell.untouch_open hn' hzero)
      · rw [if_neg (by simpa using hzero)]
        exact Moved.none (fun _ => Cell.untouch_zero)
          (Cell.untouch_positive_other hn' hzero hx)

/-- Take back a literal on some rows. -/
theorem moved_restoreRows (hb : r.InBounds rows) :
    Moved (fun row c => c.untouch l (rows.count row)) r
      (rows.foldl (fun r row => restore l row r) r) := by
  induction rows generalizing r with
  | nil => exact Moved.refl.congr fun σ => by simp
  | cons row rows ih =>
      obtain ⟨⟨hmissing, hrow⟩, hb⟩ := List.forall_mem_cons.1 hb
      have hmoved := moved_restore (l := l) hmissing hrow
      refine (hmoved.trans (ih (hmoved.inBounds hb))).congr fun σ => ?_
      rw [Cell.untouch_untouch, count_cons_eq]

/-- The literals of an entry are taken back from each row as often as the row has them. -/
theorem moved_restoreAll (hb : ∀ l ∈ entry, r.InBounds (r.rowsOf.getD l.index [])) :
    Moved (fun row c => c.untouchAll (r.uses · row) entry) r
      (entry.reverse.foldl
        (fun r l => (r.rowsOf.getD l.index []).foldl (fun r row => restore l row r) r) r) := by
  rw [List.foldl_reverse]
  induction entry with
  | nil => exact Moved.refl
  | cons l entry ih =>
      obtain ⟨hl, hrest⟩ := List.forall_mem_cons.1 hb
      have hmoved := ih hrest
      rw [List.foldr_cons]
      refine (hmoved.trans (moved_restoreRows ?_)).congr fun σ => ?_
      · rw [hmoved.rowsOf]
        exact hmoved.inBounds hl
      · rw [hmoved.rowsOf]
        rfl

end Rows
end BayesCircuit.Decision
