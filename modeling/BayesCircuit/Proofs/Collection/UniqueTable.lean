import BayesCircuit.Collection.UniqueTable
import BayesCircuit.Proofs.Collection.Arena

/-!
# Unique tables are finite maps

The cells in use whose keys belong to a bucket are those of its chain, which ends, and no two cells in
use have equal keys (`UniqueTable.Valid`). Then the search for a key ends at its only cell, or at the
end of the chain if there is none (`locate_spec`). What a chain leads to is said by `Path`: storing a
pair makes the chain of its bucket longer by a new cell, erasing a key takes its cell out of the
chain, and the other chains do not change. So

* `get?_store`: an offered value is stored for its key if the key had none, and the values of all
  other keys stay;
* `get?_erase`: a key that is erased has no value, and the values of all other keys stay.

Whatever is done to a table, it answers as a list of pairs with different keys does
(`answerAll_dictionary`). Keys are compared by `==`, which may not tell all keys apart; equal keys must
have the same fingerprint.
-/

namespace BayesCircuit.Collection

/-- Equal keys have the same fingerprint. -/
class LawfulFingerprint (κ : Type) [BEq κ] [Fingerprint κ] : Prop where
  fingerprint_eq : ∀ {k k' : κ}, (k == k') = true → fingerprint k = fingerprint k'

instance {κ : Type} [BEq κ] [LawfulBEq κ] [Fingerprint κ] : LawfulFingerprint κ :=
  ⟨fun h => congrArg fingerprint (eq_of_beq h)⟩

namespace UniqueTable

/-! ## Chains -/

section

variable {κ υ : Type} {a a' : Arena (Entry κ υ)} {e : Entry κ υ} {i j : Nat} {is js : List Nat}
variable {x y z : Option Nat}

/-- Following the links from `x` leads through some cells to `y`. -/
def Path (a : Arena (Entry κ υ)) : Option Nat → List Nat → Option Nat → Prop
  | x, [], y => x = y
  | x, i :: is, y => x = some i ∧ ∃ e, a.get? i = some e ∧ Path a e.next is y

theorem path_append : Path a x (is ++ js) z ↔ ∃ y, Path a x is y ∧ Path a y js z := by
  induction is generalizing x with
  | nil => simp [Path]
  | cons i is ih =>
      simp only [List.cons_append, Path, ih]
      constructor
      · rintro ⟨hx, e, he, y, hy, hz⟩
        exact ⟨y, ⟨hx, e, he, hy⟩, hz⟩
      · rintro ⟨y, ⟨hx, e, he, hy⟩, hz⟩
        exact ⟨hx, e, he, y, hy, hz⟩

theorem path_concat :
    Path a x (is ++ [i]) y ↔ Path a x is (some i) ∧ ∃ e, a.get? i = some e ∧ e.next = y := by
  rw [path_append]
  constructor
  · rintro ⟨z, hz, rfl, e, he, hy⟩
    exact ⟨hz, e, he, hy⟩
  · rintro ⟨hz, e, he, hy⟩
    exact ⟨some i, hz, rfl, e, he, hy⟩

/-- A path only depends on the cells that it leads through. -/
theorem Path.congr (h : ∀ i ∈ is, a'.get? i = a.get? i) (hp : Path a x is y) : Path a' x is y := by
  induction is generalizing x with
  | nil => exact hp
  | cons i is ih =>
      obtain ⟨hi, his⟩ := List.forall_mem_cons.1 h
      obtain ⟨hx, e, he, hp⟩ := hp
      exact ⟨hx, e, hi.trans he, ih his hp⟩

/-- A cell of a path is in use. -/
theorem Path.get?_of_mem (hp : Path a x is y) (hi : i ∈ is) : ∃ e, a.get? i = some e := by
  induction is generalizing x with
  | nil => exact absurd hi List.not_mem_nil
  | cons j is ih =>
      obtain ⟨-, e, he, hp⟩ := hp
      rcases List.mem_cons.1 hi with rfl | hi
      · exact ⟨e, he⟩
      · exact ih hp hi

/-- There is only one way to the end. -/
theorem Path.unique (hp : Path a x is none) (hq : Path a x js none) : is = js := by
  induction is generalizing x js with
  | nil =>
      cases js with
      | nil => rfl
      | cons j js => exact absurd (hp.symm.trans hq.1) (by simp)
  | cons i is ih =>
      obtain ⟨hx, e, he, hp⟩ := hp
      cases js with
      | nil => exact absurd (hx.symm.trans hq) (by simp)
      | cons j js =>
          obtain ⟨hx', e', he', hq⟩ := hq
          obtain rfl : i = j := Option.some.inj (hx.symm.trans hx')
          obtain rfl : e = e' := Option.some.inj (he.symm.trans he')
          rw [ih hp hq]

/-- A chain that ends does not come back to a cell: it would go on as it did there. -/
theorem Path.nodup (hp : Path a x is none) : is.Nodup := by
  induction is generalizing x with
  | nil => exact List.nodup_nil
  | cons i is ih =>
      have hwhole := hp
      obtain ⟨rfl, e, he, hp⟩ := hp
      refine List.nodup_cons.2 ⟨fun hi => ?_, ih hp⟩
      obtain ⟨before, after, rfl⟩ := List.append_of_mem hi
      obtain ⟨y, -, hback⟩ := path_append.1 hp
      obtain rfl := hback.1
      have hsame := congrArg List.length (hback.unique hwhole)
      simp only [List.length_cons, List.length_append] at hsame
      omega

/-- A chain that ends has no more cells than there are. -/
theorem Path.length_le (hp : Path a x is none) : is.length ≤ a.size := by
  have hrange : ∀ i ∈ is, i ∈ List.range a.size := fun i hi => by
    obtain ⟨e, he⟩ := hp.get?_of_mem hi
    exact List.mem_range.2 (Arena.lt_size_of_get? he)
  simpa using (hp.nodup.subperm hrange).length_le

/-- A new cell is on no path. -/
theorem path_ne_alloc (ha : a.Valid) (hp : Path a x is y) : ∀ i ∈ is, i ≠ (a.alloc e).1 := by
  rintro i hi rfl
  obtain ⟨f, hf⟩ := hp.get?_of_mem hi
  exact absurd ((Arena.get?_alloc_fst ha).symm.trans hf) (by simp)

theorem path_alloc (ha : a.Valid) (hp : Path a x is y) : Path (a.alloc e).2 x is y :=
  hp.congr fun i hi => Arena.get?_alloc_of_ne (path_ne_alloc ha hp i hi)

end

variable {κ υ : Type} {t : UniqueTable κ υ} {k k' : κ} {v w : υ} {i j b b' : Nat}
variable {is js : List Nat} {e : Entry κ υ} {x y last before : Option Nat}

/-- The pair in a cell. -/
def pair? (t : UniqueTable κ υ) (i : Nat) : Option (κ × υ) :=
  (t.cells.get? i).map fun e => (e.key, e.value)

theorem pair?_of_get? (h : t.cells.get? i = some e) : t.pair? i = some (e.key, e.value) := by
  rw [pair?, h, Option.map_some]

theorem exists_of_pair? {p : κ × υ} (h : t.pair? i = some p) :
    ∃ e, t.cells.get? i = some e ∧ (e.key, e.value) = p :=
  Option.map_eq_some_iff.1 h

/-! ## Changing a link -/

theorem get?_link : (t.link b before y).cells.get? j =
    if before = some j then (t.cells.get? j).map fun e => { e with next := y }
    else t.cells.get? j := by
  cases before with
  | none => simp [link]
  | some i =>
      rw [link, Arena.get?_modify]
      by_cases hij : j = i
      · simp [hij]
      · simp [hij, Ne.symm hij]

@[simp]
theorem pair?_link : (t.link b before y).pair? j = t.pair? j := by
  rw [pair?, get?_link, pair?]
  split
  · rw [Option.map_map]
    rfl
  · rfl

@[simp]
theorem size_heads_link : (t.link b before y).heads.size = t.heads.size := by
  cases before <;> simp [link]

theorem head_link (hb : b < t.heads.size) : (t.link b before y).head b' =
    if before = none ∧ b' = b then y else t.head b' := by
  cases before with
  | none =>
      simp only [link, head, Array.getD_eq_getD_getElem?, Array.getElem?_setIfInBounds, true_and]
      by_cases hbb : b' = b
      · subst hbb
        simp [hb]
      · simp [hbb, Ne.symm hbb]
  | some i => simp [link, head]

theorem valid_cells_link (ht : t.cells.Valid) : (t.link b before y).cells.Valid := by
  cases before with
  | none => exact ht
  | some i => exact Arena.valid_modify ht _

/-- The chain of a bucket goes on as it is told after the cells that it had. -/
theorem path_link (hb : b < t.heads.size) (hnodup : is.Nodup) (hp : Path t.cells (t.head b) is x) :
    Path (t.link b is.getLast? y).cells ((t.link b is.getLast? y).head b) is y := by
  rw [head_link hb]
  rcases is.eq_nil_or_concat with rfl | ⟨init, i, h⟩
  · simp [Path]
  · rw [List.concat_eq_append] at h
    subst h
    obtain ⟨hinit, e, he, -⟩ := path_concat.1 hp
    obtain ⟨-, -, hdisjoint⟩ := List.nodup_append.1 hnodup
    rw [List.getLast?_concat, if_neg (by simp), path_concat]
    refine ⟨hinit.congr fun j hj => ?_, { e with next := y }, ?_, rfl⟩
    · have hne : ¬ some i = some j := fun h => hdisjoint j hj i (by simp) (Option.some.inj h).symm
      rw [get?_link, if_neg hne]
    · rw [get?_link, if_pos rfl, he, Option.map_some]

/-- Paths elsewhere stay. -/
theorem Path.link (hbefore : ∀ i ∈ is, before ≠ some i) (hp : Path t.cells x is y) :
    Path (t.link b before z).cells x is y :=
  hp.congr fun i hi => by rw [get?_link, if_neg (hbefore i hi)]

/-! ## Taking a cell out of a chain -/

/-- A cell that a chain leads to is taken out of it and emptied. -/
theorem remove_eq (he : t.cells.get? i = some e) (hbefore : before ≠ some i) :
    ∃ cells, (t.link b before e.next).cells.free i = .ok (e, cells) ∧
      t.remove b before i e = { t.link b before e.next with cells } := by
  have hcell : (t.link b before e.next).cells.get? i = some e := by rw [get?_link, if_neg hbefore, he]
  refine ⟨_, Arena.free_eq_ok hcell, ?_⟩
  simp only [remove, Arena.free_eq_ok hcell]

theorem getLast?_ne_of_nodup (h : (is ++ i :: js).Nodup) : is.getLast? ≠ some i := by
  intro hlast
  obtain ⟨-, -, hdisjoint⟩ := List.nodup_append.1 h
  exact hdisjoint i (List.mem_of_getLast? hlast) i (List.mem_cons_self ..) rfl

/-- The chain of the bucket goes on after a cell that was taken out. -/
theorem path_remove (hb : b < t.heads.size) (hp : Path t.cells (t.head b) (is ++ i :: js) none)
    (he : t.cells.get? i = some e) :
    Path (t.remove b is.getLast? i e).cells ((t.remove b is.getLast? i e).head b) (is ++ js) none := by
  have hnodup := hp.nodup
  obtain ⟨cells, hfree, hremove⟩ := remove_eq (b := b) he (getLast?_ne_of_nodup hnodup)
  obtain ⟨y, hfront, rfl, e', he', hback⟩ := path_append.1 hp
  obtain rfl : e = e' := Option.some.inj (he.symm.trans he')
  obtain ⟨hnodup_is, hnodup_js, hdisjoint⟩ := List.nodup_append.1 hnodup
  have hlinked := path_link (y := e.next) hb hnodup_is hfront
  have hrest : Path (t.link b is.getLast? e.next).cells e.next js none :=
    hback.link fun j hj hlast =>
      hdisjoint j (List.mem_of_getLast? hlast) j (List.mem_cons_of_mem _ hj) rfl
  rw [hremove]
  refine (path_append.2 ⟨_, hlinked, hrest⟩).congr fun j hj => ?_
  have hne : j ≠ i := by
    rintro rfl
    rcases List.mem_append.1 hj with hj | hj
    · exact hdisjoint j hj j (List.mem_cons_self ..) rfl
    · exact (List.nodup_cons.1 hnodup_js).1 hj
  rw [Arena.get?_of_free hfree, if_neg hne]

theorem pair?_remove (he : t.cells.get? i = some e) (hbefore : before ≠ some i) :
    (t.remove b before i e).pair? j = if j = i then none else t.pair? j := by
  obtain ⟨cells, hfree, hremove⟩ := remove_eq (b := b) he hbefore
  rw [hremove, pair?, Arena.get?_of_free hfree]
  split
  · rfl
  · exact pair?_link

theorem size_heads_remove : (t.remove b before i e).heads.size = t.heads.size := by
  simp only [remove]
  split <;> exact size_heads_link

/-! ## The empty table -/

theorem empty_eq_ok {bits : Nat} (hb : bits ≤ Arena.maxBits) :
    (empty bits : Outcome (UniqueTable κ υ)) =
      .ok (ofBuckets (Nat.pow 2 (min bits maxBucketBits))) := by
  simp [empty, require, ensure, hb, bind, Except.bind, pure, Except.pure]

theorem pair?_ofBuckets (n : Nat) : (ofBuckets n : UniqueTable κ υ).pair? i = none := by
  rw [pair?, ofBuckets, Arena.get?_empty, Option.map_none]

/-! ## Buckets -/

section

variable [Fingerprint κ]

theorem bucketOf_lt (ht : 0 < t.heads.size) : t.bucketOf k < t.heads.size :=
  Nat.lt_of_le_of_lt Nat.and_le_right (by omega)

@[simp]
theorem bucketOf_remove : (t.remove b before i e).bucketOf k = t.bucketOf k := by
  rw [bucketOf, bucketOf, size_heads_remove]

/-- A new cell is taken for the pair, and the chain is linked to it. -/
theorem append_eq : t.append k v last =
    link { t with cells := (t.cells.alloc ⟨k, v, none⟩).2 } (t.bucketOf k) last
      (some (t.cells.alloc ⟨k, v, none⟩).1) :=
  rfl

theorem pair?_append (ht : t.cells.Valid) : (t.append k v last).pair? j =
    if j = (t.cells.alloc ⟨k, v, none⟩).1 then some (k, v) else t.pair? j := by
  rw [append_eq, pair?_link, pair?]
  simp only [Arena.get?_alloc ht]
  split <;> rfl

@[simp]
theorem size_heads_append : (t.append k v last).heads.size = t.heads.size := by
  rw [append_eq, size_heads_link]

@[simp]
theorem bucketOf_append : (t.append k v last).bucketOf k' = t.bucketOf k' := by
  rw [bucketOf, bucketOf, size_heads_append]

theorem head_append (hb : b ≠ t.bucketOf k) (ht : 0 < t.heads.size) :
    (t.append k v last).head b = t.head b := by
  have hlt : t.bucketOf k < t.heads.size := bucketOf_lt ht
  rw [append_eq]
  refine (head_link (t := { t with cells := (t.cells.alloc ⟨k, v, none⟩).2 }) hlt).trans ?_
  rw [if_neg fun h => hb h.2]
  rfl

/-- The chain of a bucket ends and has the cells of the keys of the bucket. -/
def Chain (t : UniqueTable κ υ) (b : Nat) (is : List Nat) : Prop :=
  Path t.cells (t.head b) is none ∧ ∀ i, i ∈ is ↔ ∃ p, t.pair? i = some p ∧ t.bucketOf p.1 = b

theorem Chain.apart (h : t.Chain b is) (h' : t.Chain b' js) (hb : b ≠ b') : ∀ i ∈ is, i ∉ js := by
  intro i hi hj
  obtain ⟨p, hp, hbucket⟩ := (h.2 i).1 hi
  obtain ⟨q, hq, hbucket'⟩ := (h'.2 i).1 hj
  obtain rfl : p = q := Option.some.inj (hp.symm.trans hq)
  exact hb (hbucket.symm.trans hbucket')

/-- A pair in a new cell makes the chain of its bucket longer. -/
theorem Chain.append (ht : t.cells.Valid) (hpos : 0 < t.heads.size)
    (h : t.Chain (t.bucketOf k) is) :
    (t.append k v is.getLast?).Chain (t.bucketOf k) (is ++ [(t.cells.alloc ⟨k, v, none⟩).1]) := by
  obtain ⟨hp, hmem⟩ := h
  have hlt : t.bucketOf k < t.heads.size := bucketOf_lt hpos
  have hne : ∀ i ∈ is, i ≠ (t.cells.alloc ⟨k, v, none⟩).1 := path_ne_alloc ht hp
  have hlinked := path_link (t := { t with cells := (t.cells.alloc ⟨k, v, none⟩).2 })
    (y := some (t.cells.alloc ⟨k, v, none⟩).1) hlt hp.nodup (path_alloc ht hp)
  refine ⟨path_concat.2 ⟨hlinked, ⟨k, v, none⟩, ?_, rfl⟩, fun i => ?_⟩
  · rw [append_eq, get?_link, if_neg fun hlast => hne _ (List.mem_of_getLast? hlast) rfl]
    exact Arena.get?_alloc_self ht
  · rw [List.mem_append, List.mem_singleton, hmem, pair?_append ht]
    simp only [bucketOf_append]
    split
    · rename_i hi
      simp [hi]
    · rename_i hi
      simp [hi]

/-- The chains of other buckets stay when a pair is stored. -/
theorem Chain.append_of_ne (ht : t.cells.Valid) (hpos : 0 < t.heads.size)
    (h : t.Chain (t.bucketOf k) is) (hb : b ≠ t.bucketOf k) (h' : t.Chain b js) :
    (t.append k v is.getLast?).Chain b js := by
  have hlast : ∀ i ∈ js, is.getLast? ≠ some i := fun i hi hlast =>
    h'.apart h hb i hi (List.mem_of_getLast? hlast)
  have hlinked := (path_alloc (e := ⟨k, v, none⟩) ht h'.1).link
    (t := { t with cells := (t.cells.alloc ⟨k, v, none⟩).2 }) (b := t.bucketOf k)
    (z := some (t.cells.alloc ⟨k, v, none⟩).1) hlast
  refine ⟨?_, fun i => ?_⟩
  · rw [head_append hb hpos]
    exact hlinked
  · rw [h'.2, pair?_append ht]
    simp only [bucketOf_append]
    split
    · rename_i hi
      have hnone : t.pair? i = none := by
        rw [pair?, hi, Arena.get?_alloc_fst ht, Option.map_none]
      simp [hnone, Ne.symm hb]
    · rfl

/-- A cell that is taken out makes its chain shorter. -/
theorem Chain.remove (hb : b < t.heads.size) (h : t.Chain b (is ++ i :: js))
    (he : t.cells.get? i = some e) : (t.remove b is.getLast? i e).Chain b (is ++ js) := by
  have hnodup := h.1.nodup
  obtain ⟨-, hnodup_js, hdisjoint⟩ := List.nodup_append.1 hnodup
  refine ⟨path_remove hb h.1 he, fun j => ?_⟩
  rw [pair?_remove he (getLast?_ne_of_nodup hnodup)]
  simp only [bucketOf_remove]
  split
  · rename_i hj
    subst hj
    simp only [reduceCtorEq, false_and, exists_false, iff_false, List.mem_append, not_or]
    exact ⟨fun h => hdisjoint j h j (List.mem_cons_self ..) rfl, (List.nodup_cons.1 hnodup_js).1⟩
  · rename_i hj
    rw [← h.2, List.mem_append, List.mem_append, List.mem_cons, or_iff_right hj]

/-- The chains of other buckets stay when a cell is taken out. -/
theorem Chain.remove_of_ne (hb : b < t.heads.size) (h : t.Chain b (is ++ i :: js))
    (he : t.cells.get? i = some e) (hbb : b' ≠ b) {ks : List Nat} (h' : t.Chain b' ks) :
    (t.remove b is.getLast? i e).Chain b' ks := by
  have hne := getLast?_ne_of_nodup h.1.nodup
  have hapart := h'.apart h hbb
  obtain ⟨cells, hfree, hremove⟩ := remove_eq (b := b) he hne
  have hi : ∀ j ∈ ks, j ≠ i := fun j hj hij => hapart j hj (hij ▸ by simp)
  refine ⟨?_, fun j => ?_⟩
  · have hlinked : Path (t.link b is.getLast? e.next).cells (t.head b') ks none :=
      h'.1.link fun j hj hlast =>
        hapart j hj (List.mem_append_left _ (List.mem_of_getLast? hlast))
    have hhead : (t.link b is.getLast? e.next).head b' = t.head b' := by
      rw [head_link hb, if_neg fun h => hbb h.2]
    rw [hremove]
    show Path cells ((t.link b is.getLast? e.next).head b') ks none
    rw [hhead]
    exact hlinked.congr fun j hj => by rw [Arena.get?_of_free hfree, if_neg (hi j hj)]
  · rw [h'.2, pair?_remove he hne]
    simp only [bucketOf_remove]
    split
    · rename_i hj
      have hnot : ¬ ∃ p, t.pair? j = some p ∧ t.bucketOf p.1 = b' := fun h => hi j ((h'.2 j).2 h) hj
      simp [hnot]
    · rfl

end

/-! ## Dictionaries -/

/-- What a table can be asked for. -/
inductive Request (κ υ : Type) where
  | offer (key : κ) (value : υ)
  | get (key : κ)
  | erase (key : κ)
  | clear

variable [BEq κ] {m : List (κ × υ)}

/-- What a list of pairs answers, and the list afterwards. -/
def dictionary (m : List (κ × υ)) : Request κ υ → Option υ × List (κ × υ)
  | .offer key value =>
      match m.lookup key with
      | some w => (some w, m)
      | none => (none, (key, value) :: m)
  | .get key => (m.lookup key, m)
  | .erase key => (m.lookup key, m.filter fun p => !(p.1 == key))
  | .clear => (none, [])

/-- All answers to some requests, and what there is afterwards. -/
def answerAll {σ ρ α : Type} (answer : σ → ρ → α × σ) : σ → List ρ → List α × σ
  | s, [] => ([], s)
  | s, r :: requests =>
      let rest := answerAll answer (answer s r).2 requests
      ((answer s r).1 :: rest.1, rest.2)

theorem lookup_eq_some_iff [EquivBEq κ] (h : m.Pairwise fun p q => (p.1 == q.1) = false) :
    m.lookup k = some v ↔ ∃ k', (k', v) ∈ m ∧ (k' == k) = true := by
  induction m with
  | nil => simp
  | cons p m ih =>
      obtain ⟨hhead, htail⟩ := List.pairwise_cons.1 h
      rw [List.lookup_cons]
      cases hk : k == p.1 with
      | true =>
          simp only [Option.some.injEq]
          constructor
          · rintro rfl
            exact ⟨p.1, List.mem_cons_self .., BEq.symm hk⟩
          · rintro ⟨k', hmem, hk'⟩
            rcases List.mem_cons.1 hmem with rfl | hmem
            · rfl
            · have hne := hhead _ hmem
              rw [BEq.trans (BEq.symm hk) (BEq.symm hk')] at hne
              cases hne
      | false =>
          simp only [ih htail]
          refine exists_congr fun k' => ⟨fun h => ⟨List.mem_cons_of_mem _ h.1, h.2⟩, ?_⟩
          rintro ⟨hmem, hk'⟩
          rcases List.mem_cons.1 hmem with rfl | hmem
          · rw [BEq.symm hk'] at hk
            cases hk
          · exact ⟨hmem, hk'⟩

/-! ## Finding a key -/

/-- Whether a cell has a key that equals a given one. -/
def Has (t : UniqueTable κ υ) (k : κ) (i : Nat) : Prop :=
  ∃ p, t.pair? i = some p ∧ (p.1 == k) = true

/-- The search along a chain stops at the first cell that has the key. -/
theorem follow_spec : ∀ {is : List Nat} {fuel : Nat} {x : Option Nat} (last : Option Nat),
    Path t.cells x is none → is.length ≤ fuel →
    (∃ front i back e, is = front ++ i :: back ∧ t.cells.get? i = some e ∧ (e.key == k) = true ∧
      t.follow k fuel last x = .ok (.found (front.getLast?.or last) i e)) ∨
    (∀ i ∈ is, ¬ t.Has k i) ∧ t.follow k fuel last x = .ok (.absent (is.getLast?.or last))
  | [], fuel, x, last, hp, _ => by
      obtain rfl : x = none := hp
      refine Or.inr ⟨fun i hi => absurd hi List.not_mem_nil, ?_⟩
      cases fuel <;> rfl
  | i :: is, 0, _, _, _, hfuel => absurd hfuel (by simp)
  | i :: is, fuel + 1, x, last, hp, hfuel => by
      obtain ⟨rfl, e, he, hp⟩ := hp
      have hcell : t.cells.get i = .ok e := Arena.get_eq_ok he
      have hstep : t.follow k (fuel + 1) last (some i) =
          if e.key == k then .ok (.found last i e) else t.follow k fuel (some i) e.next := by
        simp only [follow, hcell, bind, Except.bind, pure, Except.pure]
      have hor : ∀ l : List Nat, (i :: l).getLast?.or last = l.getLast?.or (some i) := fun l => by
        rw [List.getLast?_cons]
        cases l.getLast? <;> rfl
      cases hk : e.key == k with
      | true =>
          refine Or.inl ⟨[], i, is, e, rfl, he, hk, ?_⟩
          rw [hstep, hk]
          rfl
      | false =>
          have hnot : ¬ t.Has k i := by
            rintro ⟨p, hpair, hpk⟩
            rw [pair?_of_get? he, Option.some.injEq] at hpair
            rw [← hpair, hk] at hpk
            cases hpk
          rw [hk] at hstep
          rcases follow_spec (some i) hp (Nat.le_of_succ_le_succ hfuel) with
            ⟨front, j, back, f, rfl, hf, hkey, hrun⟩ | ⟨hnone, hrun⟩
          · refine Or.inl ⟨i :: front, j, back, f, rfl, hf, hkey, ?_⟩
            rw [hstep, hor]
            exact hrun
          · refine Or.inr ⟨List.forall_mem_cons.2 ⟨hnot, hnone⟩, ?_⟩
            rw [hstep, hor]
            exact hrun

variable [Fingerprint κ]

/-- Every bucket has a chain, and equal keys have one cell. -/
structure Valid (t : UniqueTable κ υ) : Prop where
  cells : t.cells.Valid
  heads_pos : 0 < t.heads.size
  chained : ∀ b < t.heads.size, ∃ is, t.Chain b is
  unique : ∀ {i j p q}, t.pair? i = some p → t.pair? j = some q → (p.1 == q.1) = true → i = j

theorem Valid.exists_chain (ht : t.Valid) : ∃ is, t.Chain (t.bucketOf k) is :=
  ht.chained _ (bucketOf_lt ht.heads_pos)

theorem valid_ofBuckets {n : Nat} (hn : 0 < n) : (ofBuckets n : UniqueTable κ υ).Valid where
  cells := Arena.valid_empty
  heads_pos := by simpa [ofBuckets] using hn
  chained b hb := by
    refine ⟨[], ?_, by simp [pair?_ofBuckets]⟩
    have hb : b < n := by simpa [ofBuckets] using hb
    simp [Path, ofBuckets, head, Array.getD_eq_getD_getElem?, hb]
  unique h := by simp [pair?_ofBuckets] at h

theorem valid_append [EquivBEq κ] (ht : t.Valid) (h : t.Chain (t.bucketOf k) is)
    (hnone : ∀ i, ¬ t.Has k i) : (t.append k v is.getLast?).Valid where
  cells := valid_cells_link (Arena.valid_alloc ht.cells)
  heads_pos := size_heads_append (t := t) ▸ ht.heads_pos
  chained b hb := by
    rw [size_heads_append] at hb
    by_cases hbk : b = t.bucketOf k
    · subst hbk
      exact ⟨_, h.append ht.cells ht.heads_pos⟩
    · obtain ⟨js, h'⟩ := ht.chained b hb
      exact ⟨js, h.append_of_ne ht.cells ht.heads_pos hbk h'⟩
  unique {i j p q} hi hj hpq := by
    rw [pair?_append ht.cells] at hi hj
    split at hi <;> split at hj
    · rename_i hi' hj'
      rw [hi', hj']
    · cases hi
      exact absurd ⟨q, hj, BEq.symm hpq⟩ (hnone j)
    · cases hj
      exact absurd ⟨p, hi, hpq⟩ (hnone i)
    · exact ht.unique hi hj hpq

theorem valid_remove (ht : t.Valid) (h : t.Chain (t.bucketOf k) (is ++ i :: js))
    (he : t.cells.get? i = some e) : (t.remove (t.bucketOf k) is.getLast? i e).Valid where
  cells := by
    obtain ⟨cells, hfree, hremove⟩ :=
      remove_eq (b := t.bucketOf k) he (getLast?_ne_of_nodup h.1.nodup)
    rw [hremove]
    exact Arena.valid_of_free (valid_cells_link ht.cells) hfree
  heads_pos := size_heads_remove (t := t) ▸ ht.heads_pos
  chained b hb := by
    rw [size_heads_remove] at hb
    have hlt := bucketOf_lt (k := k) ht.heads_pos
    by_cases hbk : b = t.bucketOf k
    · subst hbk
      exact ⟨_, h.remove hlt he⟩
    · obtain ⟨ks, h'⟩ := ht.chained b hb
      exact ⟨ks, h.remove_of_ne hlt he hbk h'⟩
  unique {j j' p q} hj hj' hpq := by
    rw [pair?_remove he (getLast?_ne_of_nodup h.1.nodup)] at hj hj'
    split at hj
    · cases hj
    · split at hj'
      · cases hj'
      · exact ht.unique hj hj' hpq

/-- Where a search ended: at the cell of the key, whose chain is taken apart there, or at the end of
the chain of the bucket, when no cell has the key. -/
inductive Located (t : UniqueTable κ υ) (k : κ) : Place κ υ → Prop where
  | found {front back : List Nat} {i : Nat} {e : Entry κ υ} :
      t.Chain (t.bucketOf k) (front ++ i :: back) →
      t.cells.get? i = some e → (e.key == k) = true → Located t k (.found front.getLast? i e)
  | absent {is : List Nat} :
      t.Chain (t.bucketOf k) is → (∀ i, ¬ t.Has k i) → Located t k (.absent is.getLast?)

/-- The table after a value has been offered. -/
def store (t : UniqueTable κ υ) (key : κ) (value : υ) : UniqueTable κ υ :=
  (t.findOrInsert key value).2

theorem findOrInsert_of_some (h : t.get? k = some w) : t.findOrInsert k v = (some w, t) := by
  unfold get? at h
  split at h
  · rename_i hrun
    rw [findOrInsert, hrun]
    exact congrArg (fun w => (w, t)) h
  · cases h

theorem findOrInsert_of_none (h : t.get? k = none) :
    t.findOrInsert k v = (none, t.store k v) := by
  unfold get? at h
  rw [store, findOrInsert]
  split <;> simp_all

/-- What a table answers, and the table afterwards. -/
def serve (t : UniqueTable κ υ) : Request κ υ → Option υ × UniqueTable κ υ
  | .offer key value => t.findOrInsert key value
  | .get key => (t.get? key, t)
  | .erase key => t.erase key
  | .clear => (none, t.clear)

/-- A list has the pairs that a table stores, and no two of them have equal keys. -/
structure Represents (t : UniqueTable κ υ) (m : List (κ × υ)) : Prop where
  valid : t.Valid
  distinct : m.Pairwise fun p q => (p.1 == q.1) = false
  stored : ∀ p, p ∈ m ↔ ∃ i, t.pair? i = some p

theorem represents_ofBuckets {n : Nat} (hn : 0 < n) :
    (ofBuckets n : UniqueTable κ υ).Represents [] where
  valid := valid_ofBuckets hn
  distinct := List.Pairwise.nil
  stored p := by simp [pair?_ofBuckets]

/-- The pairs of the list are those that the table enumerates, once each. -/
theorem Represents.toList_perm [EquivBEq κ] (h : t.Represents m) : t.toList.Perm m := by
  have htable : t.toList.Nodup := by
    refine List.Pairwise.map _ (fun _ _ h => h) (Arena.ascends_toList.imp_of_mem ?_)
    rintro ⟨i, e⟩ ⟨j, f⟩ hi hj hlt heq
    have hpair := (pair?_of_get? (Arena.mem_toList.1 hi)).trans (congrArg some heq)
    have hij := h.valid.unique hpair (pair?_of_get? (Arena.mem_toList.1 hj)) BEq.rfl
    exact Nat.ne_of_lt hlt hij
  have hlist : m.Nodup := h.distinct.imp fun hne heq => by
    rw [heq, BEq.rfl] at hne
    cases hne
  refine (List.perm_ext_iff_of_nodup htable hlist).2 fun p => ?_
  rw [h.stored, toList, List.mem_map]
  constructor
  · rintro ⟨⟨i, e⟩, he, rfl⟩
    exact ⟨i, pair?_of_get? (Arena.mem_toList.1 he)⟩
  · rintro ⟨i, hi⟩
    obtain ⟨e, he, rfl⟩ := exists_of_pair? hi
    exact ⟨(i, e), Arena.mem_toList.2 he, rfl⟩

theorem Represents.size_eq [EquivBEq κ] (h : t.Represents m) : t.size = m.length := by
  rw [size, h.valid.cells.used_eq, ← Arena.map_fst_toList, List.length_map, ← h.toList_perm.length_eq,
    toList, List.length_map]

variable [LawfulFingerprint κ]

theorem bucketOf_congr (h : (k == k') = true) : t.bucketOf k = t.bucketOf k' := by
  rw [bucketOf, bucketOf, LawfulFingerprint.fingerprint_eq h]

/-- Searching for a key succeeds: the chain ends, and its cells are in use. -/
theorem locate_spec (ht : t.Valid) (k : κ) : ∃ place, t.locate k = .ok place ∧ t.Located k place := by
  obtain ⟨is, hchain⟩ := ht.exists_chain (k := k)
  rcases follow_spec (k := k) none hchain.1 hchain.1.length_le with
    ⟨front, i, back, e, rfl, he, hk, hrun⟩ | ⟨hnone, hrun⟩
  · rw [Option.or_none] at hrun
    exact ⟨_, hrun, .found hchain he hk⟩
  · rw [Option.or_none] at hrun
    refine ⟨_, hrun, .absent hchain fun i hi => ?_⟩
    obtain ⟨p, hpair, hk⟩ := hi
    exact hnone i ((hchain.2 i).2 ⟨p, hpair, bucketOf_congr hk⟩) ⟨p, hpair, hk⟩

variable [EquivBEq κ]

theorem get?_eq_some_iff (ht : t.Valid) :
    t.get? k = some v ↔ ∃ i k', t.pair? i = some (k', v) ∧ (k' == k) = true := by
  obtain ⟨place, hrun, hplace⟩ := locate_spec ht k
  rw [get?, hrun]
  cases hplace with
  | @found front back i e hp he hk =>
      simp only [Option.some.injEq]
      have hpair := pair?_of_get? he
      constructor
      · rintro rfl
        exact ⟨i, e.key, hpair, hk⟩
      · rintro ⟨j, k', hj, hk'⟩
        obtain rfl := ht.unique hpair hj (BEq.trans hk (BEq.symm hk'))
        rw [hpair] at hj
        cases hj
        rfl
  | absent _ hnone =>
      simp only [reduceCtorEq, false_iff]
      rintro ⟨i, k', hi, hk'⟩
      exact hnone i ⟨_, hi, hk'⟩

theorem get?_eq_none_iff (ht : t.Valid) : t.get? k = none ↔ ∀ i, ¬ t.Has k i := by
  rw [Option.eq_none_iff_forall_ne_some]
  constructor
  · rintro h i ⟨⟨k', v⟩, hi, hk'⟩
    exact h v ((get?_eq_some_iff ht).2 ⟨i, k', hi, hk'⟩)
  · rintro h v hv
    obtain ⟨i, k', hi, hk'⟩ := (get?_eq_some_iff ht).1 hv
    exact h i ⟨_, hi, hk'⟩

theorem get?_ofBuckets {n : Nat} (hn : 0 < n) : (ofBuckets n : UniqueTable κ υ).get? k = none := by
  refine (get?_eq_none_iff (valid_ofBuckets hn)).2 fun i => ?_
  rintro ⟨p, hp, -⟩
  rw [pair?_ofBuckets] at hp
  cases hp

/-! ## Storing a value -/

/-- What is stored under a new key: a new cell holds the pair, and all others stay. -/
theorem store_spec (ht : t.Valid) (hk : t.get? k = none) : (t.store k v).Valid ∧
    ∃ new, t.pair? new = none ∧
      ∀ j, (t.store k v).pair? j = if j = new then some (k, v) else t.pair? j := by
  have hnone := (get?_eq_none_iff ht).1 hk
  obtain ⟨place, hrun, hplace⟩ := locate_spec ht k
  have hstore : t.store k v = (t.findOrInsert k v).2 := rfl
  rw [findOrInsert, hrun] at hstore
  cases hplace with
  | @found front back i e hp he hkey => exact absurd ⟨_, pair?_of_get? he, hkey⟩ (hnone i)
  | @absent is hchain _ =>
      have hstore : t.store k v = t.append k v is.getLast? := hstore
      rw [hstore]
      refine ⟨valid_append ht hchain hnone, _, ?_, fun j => pair?_append ht.cells⟩
      rw [pair?, Arena.get?_alloc_fst ht.cells, Option.map_none]

theorem valid_store (ht : t.Valid) (hk : t.get? k = none) : (t.store k v).Valid :=
  (store_spec ht hk).1

/-! ## Forgetting a key -/

theorem erase_of_none (ht : t.Valid) (h : t.get? k = none) : t.erase k = (none, t) := by
  obtain ⟨place, hrun, hplace⟩ := locate_spec ht k
  rw [erase, hrun]
  cases hplace with
  | @found front back i e hp he hk =>
      exact absurd ⟨_, pair?_of_get? he, hk⟩ ((get?_eq_none_iff ht).1 h i)
  | absent => rfl

omit [EquivBEq κ] in
/-- Forgetting a key that is there empties its cell. -/
theorem erase_spec (ht : t.Valid) (h : t.get? k = some v) :
    (t.erase k).1 = some v ∧ (t.erase k).2.Valid ∧
    ∃ i k', t.pair? i = some (k', v) ∧ (k' == k) = true ∧
      ∀ j, (t.erase k).2.pair? j = if j = i then none else t.pair? j := by
  obtain ⟨place, hrun, hplace⟩ := locate_spec ht k
  rw [get?, hrun] at h
  rw [erase, hrun]
  cases hplace with
  | @found front back i e hchain he hk =>
      have hvalue : e.value = v := Option.some.inj h
      have hpair := pair?_of_get? he
      rw [hvalue] at hpair
      exact ⟨h, valid_remove ht hchain he, i, e.key, hpair, hk, fun j =>
        pair?_remove he (getLast?_ne_of_nodup hchain.1.nodup)⟩
  | absent => cases h

theorem valid_erase (ht : t.Valid) : (t.erase k).2.Valid := by
  cases h : t.get? k with
  | none => exact erase_of_none ht h ▸ ht
  | some v => exact (erase_spec ht h).2.1

/-! ## Tables as dictionaries -/
theorem Represents.get?_eq (h : t.Represents m) : t.get? k = m.lookup k := by
  refine Option.ext fun w => ?_
  rw [get?_eq_some_iff h.valid, lookup_eq_some_iff h.distinct]
  simp only [h.stored]
  constructor
  · rintro ⟨i, k', hi, hk⟩
    exact ⟨k', ⟨i, hi⟩, hk⟩
  · rintro ⟨k', ⟨i, hi⟩, hk⟩
    exact ⟨i, k', hi, hk⟩

theorem Represents.key_ne (h : t.Represents m) (hk : t.get? k = none) :
    ∀ p ∈ m, (p.1 == k) = false := by
  intro p hp
  obtain ⟨i, hi⟩ := (h.stored p).1 hp
  exact Bool.eq_false_iff.2 fun hpk => (get?_eq_none_iff h.valid).1 hk i ⟨p, hi, hpk⟩

theorem Represents.store (h : t.Represents m) (hk : t.get? k = none) :
    (t.store k v).Represents ((k, v) :: m) := by
  obtain ⟨hvalid, new, hnew, hpair⟩ := store_spec (v := v) h.valid hk
  refine ⟨hvalid, List.pairwise_cons.2 ⟨fun p hp => ?_, h.distinct⟩, fun p => ?_⟩
  · rw [BEq.comm]
    exact h.key_ne hk p hp
  · simp only [List.mem_cons, h.stored, hpair]
    constructor
    · rintro (rfl | ⟨i, hi⟩)
      · exact ⟨new, if_pos rfl⟩
      · refine ⟨i, ?_⟩
        rw [if_neg, hi]
        rintro rfl
        rw [hnew] at hi
        cases hi
    · rintro ⟨i, hi⟩
      split at hi
      · exact Or.inl (Option.some.inj hi).symm
      · exact Or.inr ⟨i, hi⟩

theorem Represents.erase (h : t.Represents m) :
    (t.erase k).2.Represents (m.filter fun p => !(p.1 == k)) := by
  cases hk : t.get? k with
  | none =>
      have hall : m.filter (fun p => !(p.1 == k)) = m :=
        List.filter_eq_self.2 fun p hp => by rw [h.key_ne hk p hp, Bool.not_false]
      rw [erase_of_none h.valid hk, hall]
      exact h
  | some v =>
      obtain ⟨-, hvalid, i, k', hi, hk', hpair⟩ := erase_spec h.valid hk
      refine ⟨hvalid, h.distinct.filter _, fun p => ?_⟩
      simp only [List.mem_filter, h.stored, hpair, Bool.not_eq_true']
      constructor
      · rintro ⟨⟨j, hj⟩, hp⟩
        refine ⟨j, ?_⟩
        rw [if_neg, hj]
        rintro rfl
        obtain rfl : (k', v) = p := Option.some.inj (hi.symm.trans hj)
        rw [hk'] at hp
        cases hp
      · rintro ⟨j, hj⟩
        split at hj
        · cases hj
        · rename_i hji
          refine ⟨⟨j, hj⟩, Bool.eq_false_iff.2 fun hp => hji ?_⟩
          exact h.valid.unique hj hi (BEq.trans hp (BEq.symm hk'))

/-- A table and its list of pairs answer alike, and go on to be so. -/
theorem represents_serve (h : t.Represents m) (r : Request κ υ) :
    (t.serve r).1 = (dictionary m r).1 ∧ (t.serve r).2.Represents (dictionary m r).2 := by
  cases r with
  | offer k v =>
      rw [dictionary, serve, ← h.get?_eq]
      cases hk : t.get? k with
      | some w =>
          rw [findOrInsert_of_some hk]
          exact ⟨rfl, h⟩
      | none =>
          rw [findOrInsert_of_none hk]
          exact ⟨rfl, h.store hk⟩
  | get k => exact ⟨h.get?_eq, h⟩
  | erase k =>
      refine ⟨?_, h.erase⟩
      rw [dictionary, serve, ← h.get?_eq]
      cases hk : t.get? k with
      | none => rw [erase_of_none h.valid hk]
      | some v => exact (erase_spec h.valid hk).1
  | clear => exact ⟨rfl, represents_ofBuckets h.valid.heads_pos⟩

theorem represents_answerAll (h : t.Represents m) (requests : List (Request κ υ)) :
    (answerAll serve t requests).1 = (answerAll dictionary m requests).1 ∧
    (answerAll serve t requests).2.Represents (answerAll dictionary m requests).2 := by
  induction requests generalizing t m with
  | nil => exact ⟨rfl, h⟩
  | cons r requests ih =>
      obtain ⟨hanswer, hnext⟩ := represents_serve h r
      obtain ⟨hanswers, hlast⟩ := ih hnext
      exact ⟨congrArg₂ List.cons hanswer hanswers, hlast⟩

/-- A new table of any size answers all requests as a list of pairs with different keys does, which
starts without pairs. Afterwards the table has as many keys as the list, and enumerates its pairs; the
cells of every bucket form a chain that ends and does not come back to a cell; looking for a key comes
to an end; and the cells that are not in use are those that can be used again. -/
theorem answerAll_dictionary {bits : Nat} (hbits : bits ≤ Arena.maxBits)
    (requests : List (Request κ υ)) : ∃ new : UniqueTable κ υ, empty bits = .ok new ∧
    let (answers, t) := answerAll serve new requests
    let (expected, m) := answerAll dictionary [] requests
    answers = expected ∧ (m.Pairwise fun p q => (p.1 == q.1) = false) ∧
    t.size = m.length ∧ t.toList.Perm m ∧
    (∀ b < t.heads.size, ∃ is, t.Chain b is ∧ is.Nodup) ∧
    (∀ key, ∃ place, t.locate key = .ok place) ∧
    t.cells.vacant.Nodup ∧ ∀ i, i ∈ t.cells.vacant ↔ i < t.cells.size ∧ t.cells.get? i = none := by
  refine ⟨_, empty_eq_ok hbits, ?_⟩
  obtain ⟨hanswers, hlast⟩ := represents_answerAll
    (represents_ofBuckets (κ := κ) (υ := υ) (Nat.pow_pos (Nat.zero_lt_two))) requests
  refine ⟨hanswers, hlast.distinct, hlast.size_eq, hlast.toList_perm, fun b hb => ?_, fun key => ?_,
    hlast.valid.cells.nodup, hlast.valid.cells.mem_vacant⟩
  · obtain ⟨is, hchain⟩ := hlast.valid.chained b hb
    exact ⟨is, hchain, hchain.1.nodup⟩
  · obtain ⟨place, hrun, -⟩ := locate_spec hlast.valid key
    exact ⟨place, hrun⟩

/-- Of three keys in one chain the middle one is erased, and its cell is used for a fourth. -/
def oneBucket : List (Request (UInt64 × UInt64) Char) :=
  [.offer (1, 0) 'a', .offer (0, 1) 'b', .offer (1, 1) 'c', .offer (0, 1) 'd', .erase (0, 1),
    .get (1, 1), .get (0, 1), .offer (2, 2) 'e']

theorem answerAll_oneBucket : ∃ new : UniqueTable (UInt64 × UInt64) Char, empty 0 = .ok new ∧
    let (answers, t) := answerAll serve new oneBucket
    answers = [none, none, none, some 'b', some 'b', some 'c', none, none] ∧ t.size = 3 ∧
    t.toList.Perm [((2, 2), 'e'), ((1, 1), 'c'), ((1, 0), 'a')] := by
  have hbits : 0 ≤ Arena.maxBits := Nat.zero_le _
  obtain ⟨new, hnew, hanswers, -, hsize, hperm, -⟩ := answerAll_dictionary hbits oneBucket
  exact ⟨new, hnew, hanswers, hsize, hperm⟩

/-! ## Keys that are told apart -/

section

variable {κ υ : Type} [Fingerprint κ] [DecidableEq κ] {t : UniqueTable κ υ} {k k' : κ} {v : υ}

theorem get?_eq_some_iff_pair? (ht : t.Valid) : t.get? k = some v ↔ ∃ i, t.pair? i = some (k, v) := by
  rw [get?_eq_some_iff ht]
  constructor
  · rintro ⟨i, k', hi, hk⟩
    exact ⟨i, eq_of_beq hk ▸ hi⟩
  · rintro ⟨i, hi⟩
    exact ⟨i, k, hi, beq_self_eq_true k⟩

theorem get?_store (ht : t.Valid) (hk : t.get? k = none) :
    (t.store k v).get? k' = if k' = k then some v else t.get? k' := by
  obtain ⟨hvalid, new, hnew, hpair⟩ := store_spec (v := v) ht hk
  refine Option.ext fun w => ?_
  simp only [get?_eq_some_iff_pair? hvalid, hpair]
  by_cases hkk : k' = k
  · subst hkk
    have hnone : ∀ i, t.pair? i ≠ some (k', w) := fun i hi => by
      rw [(get?_eq_some_iff_pair? ht).2 ⟨i, hi⟩] at hk
      cases hk
    rw [if_pos rfl, Option.some.injEq]
    constructor
    · rintro ⟨i, hi⟩
      split at hi
      · cases hi
        rfl
      · exact absurd hi (hnone i)
    · rintro rfl
      exact ⟨new, if_pos rfl⟩
  · rw [if_neg hkk, get?_eq_some_iff_pair? ht]
    refine exists_congr fun i => ?_
    split
    · rename_i hi
      simp [hi, hnew, Ne.symm hkk]
    · rfl

theorem get?_erase (ht : t.Valid) :
    (t.erase k).2.get? k' = if k' = k then none else t.get? k' := by
  cases h : t.get? k with
  | none =>
      rw [erase_of_none ht h]
      split
      · rename_i hk
        rw [hk, h]
      · rfl
  | some v =>
      obtain ⟨-, hvalid, i, key, hi, hkey, hpair⟩ := erase_spec ht h
      obtain rfl := eq_of_beq hkey
      refine Option.ext fun w => ?_
      simp only [get?_eq_some_iff_pair? hvalid, hpair]
      by_cases hk : k' = key
      · subst hk
        simp only [if_true, reduceCtorEq, iff_false, not_exists]
        intro j hj
        split at hj
        · cases hj
        · rename_i hne
          exact hne (ht.unique hj hi (beq_self_eq_true k'))
      · rw [if_neg hk, get?_eq_some_iff_pair? ht]
        refine exists_congr fun j => ?_
        split
        · rename_i hj
          simp [hj, hi, Ne.symm hk]
        · rfl

end

end UniqueTable
end BayesCircuit.Collection
