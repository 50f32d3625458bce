import BayesCircuit.Proofs.Counter

/-!
# Counters with held wheels

The wheels that are not held form a row of their own (`freeRow`). Counting moves that row and
nothing else (`Over.incrementFree?_fill`), wherever the held wheels stand and whatever they show. The
rows that agree on the held wheels are those that a row of the others fills up
(`Over.exists_fill_iff`), so counting goes through them as through all rows of a smaller counter.
-/

namespace BayesCircuit.Counter

variable {α β : Type} {held : List Bool} {ws fs gs : List Wheel} {xs : List α} {rs : List Nat}
  {c d f : Counter}

/-! ## Rows in rows -/

/-- The entries of a list at the positions that are not held. -/
def free (held : List Bool) (xs : List α) : List α :=
  (xs.zip held).filter (fun p => !p.2) |>.map (·.1)

/-- A row with other wheels at the positions that are not held. -/
def withFree : List Bool → List Wheel → List Wheel → List Wheel
  | true :: hs, w :: ws, fs => w :: withFree hs ws fs
  | false :: hs, _ :: ws, f :: fs => f :: withFree hs ws fs
  | _, _, _ => []

/-- The wheels have the radices that a row has at the positions that are not held. -/
inductive Fit : List Bool → List Wheel → List Wheel → Prop
  | nil : Fit [] [] []
  | held {hs : List Bool} {ws fs : List Wheel} {w : Wheel} :
      Fit hs ws fs → Fit (true :: hs) (w :: ws) fs
  | free {hs : List Bool} {ws fs : List Wheel} {w f : Wheel} :
      f.radix = w.radix → Fit hs ws fs → Fit (false :: hs) (w :: ws) (f :: fs)

theorem map_free (g : α → β) : (free held xs).map g = free held (xs.map g) := by
  induction held generalizing xs with
  | nil => simp [free]
  | cons h held ih =>
      cases xs with
      | nil => rfl
      | cons x xs =>
          cases h with
          | true => exact ih
          | false => exact congrArg (g x :: ·) ih

theorem exists_of_mem_free {x : α} (hx : x ∈ free held xs) :
    ∃ i : Nat, held[i]? = some false ∧ xs[i]? = some x := by
  induction held generalizing xs with
  | nil => simp [free] at hx
  | cons h held ih =>
      cases xs with
      | nil => exact absurd hx List.not_mem_nil
      | cons y xs =>
          cases h with
          | true =>
              obtain ⟨i, hi⟩ := ih hx
              exact ⟨i + 1, hi⟩
          | false =>
              rcases List.mem_cons.1 hx with rfl | hx
              · exact ⟨0, rfl, rfl⟩
              · obtain ⟨i, hi⟩ := ih hx
                exact ⟨i + 1, hi⟩

theorem mem_of_mem_free {x : α} (hx : x ∈ free held xs) : x ∈ xs := by
  obtain ⟨i, -, hi⟩ := exists_of_mem_free hx
  exact List.mem_of_getElem? hi

theorem fit_of_map_radix (hlen : held.length = ws.length)
    (h : fs.map (·.radix) = free held (ws.map (·.radix))) : Fit held ws fs := by
  induction held generalizing ws fs with
  | nil =>
      obtain rfl := List.length_eq_zero_iff.1 hlen.symm
      obtain rfl := List.map_eq_nil_iff.1 h
      exact .nil
  | cons b held ih =>
      cases ws with
      | nil => cases hlen
      | cons w ws =>
          cases b with
          | true => exact .held (ih (Nat.succ.inj hlen) h)
          | false =>
              obtain ⟨f, fs, rfl, hradix, hrest⟩ := List.map_eq_cons_iff.1 h
              exact .free hradix (ih (Nat.succ.inj hlen) hrest)

theorem Fit.free_withFree (h : Fit held ws fs) : Counter.free held (withFree held ws fs) = fs := by
  induction h with
  | nil => rfl
  | held _ ih => exact ih
  | @free _ _ _ _ f _ _ ih => exact congrArg (f :: ·) ih

theorem Fit.map_radix (h : Fit held ws fs) :
    (withFree held ws fs).map (·.radix) = ws.map (·.radix) := by
  induction h with
  | nil => rfl
  | @held _ _ _ w _ ih => exact congrArg (w.radix :: ·) ih
  | free hradix _ ih => exact congrArg₂ List.cons hradix ih

theorem Fit.valid (h : Fit held ws fs) (hws : Valid ws) (hfs : Valid fs) :
    Valid (withFree held ws fs) := by
  induction h with
  | nil => exact hws
  | held _ ih => exact List.forall_mem_cons.2 ⟨hws.head, ih hws.tail hfs⟩
  | free _ _ ih => exact List.forall_mem_cons.2 ⟨hfs.head, ih hws.tail hfs.tail⟩

theorem Fit.getElem?_withFree (h : Fit held ws fs) {i : Nat} (hi : held[i]? = some true) :
    (withFree held ws fs)[i]? = ws[i]? := by
  induction h generalizing i with
  | nil => cases hi
  | held _ ih =>
      cases i with
      | zero => rfl
      | succ i => exact ih hi
  | free _ _ ih =>
      cases i with
      | zero => cases hi
      | succ i => exact ih hi

/-- Moving the wheels that are not held moves the row that they form. -/
theorem Fit.incrementFreeWheels (h : Fit held ws fs) :
    incrementFreeWheels held (withFree held ws fs) =
      (incrementWheels fs).map (withFree held ws) := by
  induction h with
  | nil => rfl
  | held _ ih =>
      rw [withFree, Counter.incrementFreeWheels, if_pos rfl, ih, Option.map_map]
      rfl
  | free _ _ ih =>
      rw [withFree, Counter.incrementFreeWheels, if_neg Bool.false_ne_true, incrementWheels]
      split
      · rfl
      · rw [ih, Option.map_map, Option.map_map]
        rfl

/-- A row that agrees with another one on the held wheels is the other one with its own wheels at
the positions that are not held. -/
theorem withFree_free (hlen : held.length = ws.length)
    (hradices : gs.map (·.radix) = ws.map (·.radix))
    (hagree : ∀ i : Nat, held[i]? = some true → (gs.map (·.digit))[i]? = (ws.map (·.digit))[i]?) :
    withFree held ws (free held gs) = gs := by
  induction held generalizing ws gs with
  | nil =>
      obtain rfl := List.length_eq_zero_iff.1 hlen.symm
      exact (List.map_eq_nil_iff.1 hradices).symm
  | cons h held ih =>
      cases ws with
      | nil => cases hlen
      | cons w ws =>
          cases gs with
          | nil => cases hradices
          | cons g gs =>
              obtain ⟨hradix, hradices⟩ := List.cons.inj hradices
              have hrest := ih (Nat.succ.inj hlen) hradices fun i => hagree (i + 1)
              cases h with
              | true =>
                  have hdigit : g.digit = w.digit := Option.some.inj (hagree 0 rfl)
                  have hsame : w = g := congrArg₂ Wheel.mk hdigit.symm hradix.symm
                  exact congrArg₂ List.cons hsame hrest
              | false => exact congrArg (g :: ·) hrest

/-- The row of the wheels that are not held. -/
def freeRow (held : List Bool) (c : Counter) : Counter := ⟨free held c.wheels⟩

/-! ## Counting -/

/-- A counter that shows another row on the wheels that are not held. -/
def fill (held : List Bool) (c f : Counter) : Counter := ⟨withFree held c.wheels f.wheels⟩

/-- On the held wheels a row has the digits of another one. -/
def Agrees (held : List Bool) (c d : Counter) : Prop :=
  ∀ i : Nat, held[i]? = some true → d.digits[i]? = c.digits[i]?

theorem radices_freeRow : (freeRow held c).radices = free held c.radices := map_free _

theorem over_freeRow (h : Over rs c) : Over (free held rs) (freeRow held c) where
  valid w hw := h.valid w (mem_of_mem_free hw)
  radices := h.radices ▸ radices_freeRow

/-- Without the held wheels there is nothing else to count. -/
theorem freeStates?_eq : c.freeStates? held = (freeRow held c).states? := by
  rw [states?, states, radices_freeRow]
  rfl

theorem freeRow_eq_zero (h : ∀ i : Nat, held[i]? = some false → c.digits[i]? = some 0) :
    freeRow held c = zero (freeRow held c).radices := by
  refine congrArg Counter.mk ?_
  rw [radices, List.map_map]
  refine (List.map_id' _).symm.trans (List.map_congr_left fun w hw => ?_)
  obtain ⟨i, hi, hw⟩ := exists_of_mem_free hw
  have hdigit : some w.digit = some 0 := by
    rw [← h i hi, digits, List.getElem?_map, hw, Option.map_some]
  exact congrArg (Wheel.mk · w.radix) (Option.some.inj hdigit)

section

variable (hlen : held.length = rs.length) (hc : Over rs c)

include hlen hc

theorem Over.length_held : held.length = c.wheels.length := by
  rw [hlen, ← List.length_map Wheel.radix]
  exact congrArg List.length hc.radices.symm

theorem Over.fit (hf : Over (free held rs) f) : Fit held c.wheels f.wheels := by
  refine fit_of_map_radix (hc.length_held hlen) ?_
  rw [show c.wheels.map (·.radix) = rs from hc.radices]
  exact hf.radices

theorem Over.freeRow_fill (hf : Over (free held rs) f) : freeRow held (fill held c f) = f :=
  congrArg Counter.mk (hc.fit hlen hf).free_withFree

/-- The rows that agree on the held wheels differ in the others. -/
theorem Over.exists_fill_iff : (∃ f, Over (free held rs) f ∧ fill held c f = d) ↔
    Over rs d ∧ Agrees held c d := by
  constructor
  · rintro ⟨f, hf, rfl⟩
    have hfit := hc.fit hlen hf
    refine ⟨⟨hfit.valid hc.valid hf.valid, hfit.map_radix.trans hc.radices⟩, fun i hi => ?_⟩
    rw [digits, digits, List.getElem?_map, List.getElem?_map]
    exact congrArg (Option.map Wheel.digit) (hfit.getElem?_withFree hi)
  · rintro ⟨hd, hagree⟩
    refine ⟨freeRow held d, over_freeRow hd, congrArg Counter.mk ?_⟩
    exact withFree_free (hc.length_held hlen) (hd.radices.trans hc.radices.symm) hagree

/-- Counting moves the row of the wheels that are not held. -/
theorem Over.incrementFree?_fill (hf : Over (free held rs) f) :
    (fill held c f).incrementFree? held = f.increment?.map (·.map (fill held c)) := by
  have hfit := hc.fit hlen hf
  have hsize : (fill held c f).size = held.length := by
    rw [hc.length_held hlen, size, fill, ← List.length_map Wheel.radix, hfit.map_radix,
      List.length_map]
  have hfree : free held (fill held c f).wheels = f.wheels := hfit.free_withFree
  have hnext : (fill held c f).incrementFree held = f.increment.map (fill held c) := by
    rw [incrementFree, fill, hfit.incrementFreeWheels, increment, Option.map_map, Option.map_map]
    rfl
  change (require (held.length == (fill held c f).size) >>= fun _ =>
    checkDigits (free held (fill held c f).wheels) >>= fun _ =>
      pure ((fill held c f).incrementFree held)) = _
  rw [hsize, hfree, hnext, beq_self_eq_true, increment?]
  cases checkDigits f.wheels <;> rfl

end

theorem CountsThrough.map {next? next'? : Counter → Outcome (Option Counter)}
    {g : Counter → Counter} {cs : List Counter} (h : CountsThrough next? c cs)
    (hnext : ∀ d ∈ cs, next'? (g d) = (next? d).map (·.map g)) :
    CountsThrough next'? (g c) (cs.map g) := by
  induction h with
  | last hlast =>
      refine .last ?_
      rw [hnext _ (List.mem_singleton_self _), hlast]
      rfl
  | step hstep _ ih =>
      obtain ⟨hfirst, hrest⟩ := List.forall_mem_cons.1 hnext
      refine .step ?_ (ih hrest)
      rw [hfirst, hstep]
      rfl

/-- Who counts with some wheels held, from zeros on all others, goes once through the rows that have
the same digits on the held wheels, and stops at the last one. The number of these rows is computed
from the radices if it fits a word. -/
theorem incrementFree_counts (hpos : ∀ r ∈ rs, 0 < r) (hhalf : ∀ r ∈ rs, r < halfWordSize)
    (hlen : held.length = rs.length) (hc : Over rs c)
    (hzero : ∀ i : Nat, held[i]? = some false → c.digits[i]? = some 0) :
    ∃ cs, CountsThrough (incrementFree? held) c cs ∧ cs.Nodup ∧
      (∀ d, d ∈ cs ↔ Over rs d ∧ Agrees held c d) ∧ c.freeStates? held = word cs.length := by
  have hpos : ∀ r ∈ free held rs, 0 < r := fun r hr => hpos r (mem_of_mem_free hr)
  have hhalf : ∀ r ∈ free held rs, r < halfWordSize := fun r hr => hhalf r (mem_of_mem_free hr)
  have hradices : (freeRow held c).radices = free held rs := (over_freeRow hc).radices
  have hfirst : (freeRow held c).value = 0 := by rw [freeRow_eq_zero hzero, value_zero]
  obtain ⟨fs, hfs, hcount, hnodup, hover⟩ :=
    (countsUp_increment hpos hhalf).eachOnce (over_freeRow hc) hfirst
  have hback : ∀ f ∈ fs, freeRow held (fill held c f) = f := fun f hf =>
    hc.freeRow_fill hlen ((hover f).1 hf)
  have hstart : fill held c (freeRow held c) = c :=
    congrArg Counter.mk (withFree_free (hc.length_held hlen) rfl fun _ _ => rfl)
  refine ⟨fs.map (fill held c), ?_, ?_, fun d => ?_, ?_⟩
  · have hmap := hfs.map fun f hf => hc.incrementFree?_fill hlen ((hover f).1 hf)
    rwa [hstart] at hmap
  · refine hnodup.map_on fun f hf g hg heq => ?_
    rw [← hback f hf, heq, hback g hg]
  · rw [List.mem_map, ← hc.exists_fill_iff hlen]
    simp only [hover]
  · rw [freeStates?_eq, states?_eq (hradices ▸ hpos), hradices, List.length_map, hcount]

/-- The wheel in the middle shows its last digit and is held. -/
theorem incrementFree_counts_heldFull : (∀ r ∈ [2, 3, 2], 0 < r) ∧
    (∀ r ∈ [2, 3, 2], r < halfWordSize) ∧ [false, true, false].length = [2, 3, 2].length ∧
    Over [2, 3, 2] ⟨[⟨0, 2⟩, ⟨2, 3⟩, ⟨0, 2⟩]⟩ ∧
    (∀ i : Nat, [false, true, false][i]? = some false → [0, 2, 0][i]? = some 0) ∧
    ∃ cs, CountsThrough (incrementFree? [false, true, false]) ⟨[⟨0, 2⟩, ⟨2, 3⟩, ⟨0, 2⟩]⟩ cs ∧
      cs.length = 4 ∧ cs.Nodup ∧ (⟨[⟨1, 2⟩, ⟨2, 3⟩, ⟨1, 2⟩]⟩ : Counter) ∈ cs ∧
      (⟨[⟨1, 2⟩, ⟨0, 3⟩, ⟨1, 2⟩]⟩ : Counter) ∉ cs := by
  have hpos : ∀ r ∈ [2, 3, 2], 0 < r := by decide
  have hhalf : ∀ r ∈ [2, 3, 2], r < halfWordSize := by decide
  have hc : Over [2, 3, 2] ⟨[⟨0, 2⟩, ⟨2, 3⟩, ⟨0, 2⟩]⟩ := ⟨by decide, rfl⟩
  have hzero : ∀ i : Nat, [false, true, false][i]? = some false → [0, 2, 0][i]? = some 0
    | 0, _ | 2, _ => rfl
    | 1, h => by cases h
    | i + 3, h => by cases h
  obtain ⟨cs, hcs, hnodup, hmem, hlength⟩ := incrementFree_counts hpos hhalf rfl hc hzero
  have hfour : Except.ok 4 = word cs.length := hlength
  refine ⟨hpos, hhalf, rfl, hc, hzero, cs, hcs, ?_, hnodup, ?_, ?_⟩
  · unfold word at hfour
    split at hfour
    · exact (Except.ok.inj hfour).symm
    · cases hfour
  · refine (hmem _).2 ⟨⟨by decide, rfl⟩, fun i hi => ?_⟩
    match i with
    | 0 | 2 | _ + 3 => cases hi
    | 1 => rfl
  · intro hin
    cases ((hmem _).1 hin).2 1 rfl

/-- With five free wheels of `65536` digits there are more rows than a word can count, so their
number is not computed. -/
theorem freeStates_beyond_words : (∀ r ∈ List.replicate 5 65536, 0 < r ∧ r < halfWordSize) ∧
    Over (List.replicate 5 65536) (zero (List.replicate 5 65536)) ∧
    (zero (List.replicate 5 65536)).digits = List.replicate 5 0 ∧
    ∀ n, (zero (List.replicate 5 65536)).freeStates? (List.replicate 5 false) ≠ .ok n := by
  have hrun : (zero (List.replicate 5 65536)).freeStates? (List.replicate 5 false) =
    abort .overflow := rfl
  refine ⟨by decide, ⟨by decide, rfl⟩, rfl, fun n => ?_⟩
  rw [hrun]
  exact nofun

end BayesCircuit.Counter
