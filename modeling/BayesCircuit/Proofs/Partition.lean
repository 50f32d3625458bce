import BayesCircuit.Partition
import BayesCircuit.Proofs.Encoding.Mapping
import BayesCircuit.Proofs.Network.Names

/-!
# Partitionings that are checked, written and read

The check of a partitioning lets through exactly those whose owned sets have every variable of the
network once (`verify_eq_ok_iff`). A set may be empty.

A partition file has one line for each partition. Its reader skips empty lines and cuts the others
at commas, and a name can hold a comma. So a partitioning that was checked is read from its file as
it was exactly if every partition owns something and no variable has a comma in its name
(`parse_toFileText_iff`).
-/

namespace BayesCircuit

open Collection Collection.Ascending
open Outcome (Safe bind_eq_ok_iff)
open Text (IsWord IsLine)

variable {net : Network} {p : Partition} {ps : Partitions} {file source text line : String}
variable {v : Variable} {vs us rest o : List Variable} {sets : List (List Variable)}
variable {names ls : List String} {parts : List Partition} {i k n : Nat}

/-! ## Owned sets -/

/-- A partition is determined by what it owns. -/
theorem Partition.ofOwned_owned (h : ofOwned net vs = .ok p) : ofOwned net p.owned = .ok p := by
  obtain ⟨parents, hparents, hp⟩ := bind_eq_ok_iff.1 h
  cases hp
  have howned : ofList (ofList vs) = ofList vs := ofList_eq strict_ofList fun _ => Iff.rfl
  rw [ofOwned, howned, hparents]
  rfl

namespace Partitions

theorem ofSets_eq_ok : ofSets net sets = .ok ps ↔
    List.Forall₂ (fun vs p => Partition.ofOwned net vs = .ok p) sets ps.parts.toList := by
  rw [ofSets, bind_eq_ok_iff]
  constructor
  · rintro ⟨parts, hparts, h⟩
    cases h
    exact Outcome.mapM_eq_ok_iff.1 hparts
  · intro h
    exact ⟨_, Outcome.mapM_eq_ok_iff.2 h, rfl⟩

/-- Partitions can be made again from what they own. -/
theorem ofSets_owned (h : ofSets net sets = .ok ps) :
    ofSets net (ps.parts.toList.map (·.owned)) = .ok ps := by
  rw [ofSets_eq_ok, List.forall₂_map_left_iff, List.forall₂_same]
  intro p hp
  obtain ⟨vs, -, hvs⟩ := exists_of_forall₂ (ofSets_eq_ok.1 h) hp
  exact Partition.ofOwned_owned hvs

theorem owned_lt (h : ofSets net sets = .ok ps) (hp : p ∈ ps.parts.toList) (hv : v ∈ p.owned) :
    v < net.size := by
  obtain ⟨i, hi⟩ := List.getElem?_of_mem hp
  exact (proper_ofSets h (by rwa [← Array.getElem?_toList])).owned_lt v hv

/-! ## The check -/

theorem erase_perm (hus : us.Nodup) (hv : v ∈ us) : us.Perm (v :: erase v us) := by
  have hnodup : (v :: erase v us).Nodup :=
    List.nodup_cons.2 ⟨fun h => (mem_erase.1 h).2 rfl, hus.filter _⟩
  refine (List.perm_ext_iff_of_nodup hus hnodup).2 fun u => ?_
  rw [List.mem_cons, mem_erase]
  by_cases hu : u = v
  · simp [hu, hv]
  · simp [hu]

/-- What is covered is taken out. -/
theorem perm_of_cover (hus : us.Nodup) (h : cover net i us vs = .ok rest) :
    us.Perm (vs ++ rest) := by
  induction vs generalizing us with
  | nil =>
      cases h
      exact .refl _
  | cons v vs ih =>
      rw [cover] at h
      split at h
      · obtain ⟨_, -, h⟩ := bind_eq_ok_iff.1 h
        cases h
      · rename_i hv
        have hv : v ∈ us := by simpa using hv
        exact (erase_perm hus hv).trans ((ih (hus.filter _) h).cons v)

/-- Different variables that are not covered are taken out. -/
theorem exists_cover (hus : us.Nodup) (h : us.Perm (vs ++ rest)) :
    ∃ rest', cover net i us vs = .ok rest' ∧ rest'.Perm rest := by
  induction vs generalizing us with
  | nil => exact ⟨us, rfl, h⟩
  | cons v vs ih =>
      have hv : v ∈ us := h.mem_iff.2 (List.mem_cons_self ..)
      have hrest := ((erase_perm hus hv).symm.trans h).cons_inv
      obtain ⟨rest', hcover, hperm⟩ := ih (hus.filter _) hrest
      refine ⟨rest', ?_, hperm⟩
      rw [cover, if_neg (by simpa using hv)]
      exact hcover

theorem perm_of_coverAll (hus : us.Nodup) (h : coverAll net us (parts.zipIdx k) = .ok rest) :
    us.Perm (parts.flatMap (·.owned) ++ rest) := by
  induction parts generalizing us k with
  | nil =>
      cases h
      exact .refl _
  | cons p parts ih =>
      rw [List.zipIdx_cons, coverAll] at h
      obtain ⟨left, hcover, h⟩ := bind_eq_ok_iff.1 h
      have hperm := perm_of_cover hus hcover
      have hleft : left.Nodup := (hperm.nodup_iff.1 hus).of_append_right
      rw [List.flatMap_cons, List.append_assoc]
      exact hperm.trans ((ih hleft h).append_left _)

theorem exists_coverAll (hus : us.Nodup) (h : us.Perm (parts.flatMap (·.owned) ++ rest)) :
    ∃ rest', coverAll net us (parts.zipIdx k) = .ok rest' ∧ rest'.Perm rest := by
  induction parts generalizing us k with
  | nil => exact ⟨us, rfl, h⟩
  | cons p parts ih =>
      rw [List.flatMap_cons, List.append_assoc] at h
      obtain ⟨left, hcover, hperm⟩ : ∃ left, cover net (k + 1) us p.owned = .ok left ∧
          left.Perm (parts.flatMap (·.owned) ++ rest) := exists_cover hus h
      have hleft : left.Nodup := hperm.nodup_iff.2 (h.nodup_iff.1 hus).of_append_right
      obtain ⟨rest', hall, hrest⟩ := ih hleft hperm (k := k + 1)
      exact ⟨rest', bind_eq_ok_iff.2 ⟨left, hcover, hall⟩, hrest⟩

/-- Partitions are let through exactly if every variable of the network is owned once. -/
theorem verify_eq_ok_iff : ps.verify net = .ok () ↔
    (ps.parts.toList.flatMap (·.owned)).Perm (List.range net.size) := by
  rw [verify, bind_eq_ok_iff]
  constructor
  · rintro ⟨rest, hcover, h⟩
    have hperm := perm_of_coverAll List.nodup_range hcover
    split at h
    · obtain ⟨_, -, h⟩ := bind_eq_ok_iff.1 h
      cases h
    · rename_i hempty
      obtain rfl : rest = [] := by simpa using hempty
      rw [List.append_nil] at hperm
      exact hperm.symm
  · intro hperm
    obtain ⟨rest, hcover, hrest⟩ := exists_coverAll (k := 0)
      List.nodup_range (hperm.symm.trans (.of_eq (List.append_nil _).symm))
    obtain rfl := hrest.eq_nil
    exact ⟨[], hcover, rfl⟩

/-- The check of an ordering lets through the rearrangements of the scope of its partition. -/
theorem verifyOrdering_eq_ok_iff (h : ofSets net sets = .ok ps) {p : Partition}
    (hp : ps.parts[i]? = some p) : ps.verifyOrdering net i o = .ok () ↔ o.Perm p.scope := by
  have hstrict : Strict p.scope := (proper_ofSets h hp).strict_scope
  have hget : ps.get i = .ok p := by
    rw [get, fetch, hp]
    rfl
  rw [verifyOrdering, hget]
  simp only [bind, Except.bind]
  split
  · rename_i hdiff
    refine iff_of_false (fun h => ?_) fun hperm => ?_
    · obtain ⟨_, -, h⟩ := bind_eq_ok_iff.1 h
      cases h
    · have hsame : ofList o = p.scope := ofList_eq hstrict fun u => hperm.mem_iff
      simp [hsame, hperm.length_eq] at hdiff
  · rename_i hsame
    obtain ⟨hsame, hlength⟩ : ofList o = p.scope ∧ o.length = p.scope.length := by
      simpa using hsame
    refine iff_of_true rfl ?_
    have hsub : p.scope ⊆ o := fun u hu => mem_ofList.1 (hsame ▸ hu)
    exact ((List.subperm_of_subset hstrict.nodup hsub).perm_of_length_le hlength.le).symm

/-! ## Lines of names -/

/-- A line with words between commas that find what a partition owns. -/
structure LineOf (net : Network) (p : Partition) (line : String) (names : List String) : Prop where
  eq : line = Text.join "," names
  words : ∀ w ∈ names, IsWord w
  finds : List.Forall₂ (fun v w => net.find? w = some v) p.owned names

namespace LineOf

theorem no_blank (h : LineOf net p line names) : ∀ c ∈ line.toList, Text.isBlank c = false := by
  have hcomma : ∀ c ∈ ",".toList, Text.isBlank c = false :=
    List.forall_mem_singleton.2 (by decide)
  rw [h.eq]
  exact Text.no_blank_join hcomma h.words

theorem isEmpty_iff (h : LineOf net p line names) : line.isEmpty = true ↔ p.owned = [] := by
  have hlength := h.finds.length_eq
  rw [h.eq, String.isEmpty_iff]
  match names, h.words with
  | [], _ => simpa [Text.join] using hlength
  | w :: names, hwords =>
      have hw := (hwords w (List.mem_cons_self ..)).ne_nil
      have hne : p.owned ≠ [] := List.ne_nil_of_length_pos (by simp [hlength])
      have hjoin : Text.join "," (w :: names) ≠ "" := by
        cases names with
        | nil => exact fun h => hw (by simpa [Text.join] using h)
        | cons v names => simp [Text.join]
      simp [hne, hjoin]

/-- A line that is not empty is read if there are no commas in the names. -/
theorem parseLine (h : LineOf net p line names) (howned : p.owned ≠ [])
    (hcomma : ∀ w ∈ names, ',' ∉ w.toList) :
    Partitions.parseLine net file k line = .ok p.owned := by
  have hne : names ≠ [] := by
    rintro rfl
    exact howned (List.forall₂_nil_right_iff.1 h.finds)
  have hsplit : Text.split ',' line = names := by
    rw [h.eq]
    exact Text.split_join hne hcomma
  have hfinds := (List.forall₂_and_left _ _).2 ⟨h.words, h.finds.flip⟩
  rw [Partitions.parseLine, hsplit, Outcome.mapM_eq_ok_iff]
  refine hfinds.imp fun w v hw => ?_
  simp only [hw.1.trim, hw.2]

end LineOf

/-- No variable is read from a line if it has a comma in its name. -/
theorem no_comma_of_parseLine (h : parseLine net file k line = .ok vs) (hv : v ∈ vs)
    {m : Network.Node} (hm : net.nodes[v]? = some m) : ',' ∉ m.name.toList := by
  obtain ⟨field, hfield, hfind⟩ := (Outcome.mem_of_mapM_ok h).2 v hv
  dsimp only at hfind
  split at hfind
  · rename_i u hu
    cases hfind
    obtain ⟨m', hm', hname⟩ := Network.find?_spec hu
    obtain rfl := Option.some.inj (hm.symm.trans hm')
    rw [hname]
    exact fun hmem => Text.not_mem_of_mem_split hfield (Text.mem_of_mem_trim hmem)
  · cases hfind

/-! ## Files -/

/-- The first line of a partition file. -/
def header (n : Nat) : String := s!"partition {n}"

theorem header_eq : header n = "partition " ++ toString n := rfl

theorem toList_header : (header n).toList = "partition".toList ++ (" " ++ toString n).toList := by
  rw [header_eq, String.toList_append, String.toList_append, ← List.append_assoc]
  rfl

theorem announced?_header (hn : n < wordSize) : announced? (header n) = some n := by
  have hafter : afterWord? "partition" (header n) = some (" " ++ toString n) := by
    have hprefix : "partition".toList.isPrefixOf (header n).toList = true := by
      rw [toList_header, List.isPrefixOf_iff_prefix]
      exact List.prefix_append _ _
    simp only [afterWord?, hprefix, if_true]
    rw [toList_header, List.drop_left, String.ofList_toList]
  have htrim : Text.trim (" " ++ toString n) = toString n := by
    have hdigits : (toString n).toList.dropWhile Text.isBlank = (toString n).toList :=
      Text.dropWhile_blank fun c hc =>
        Text.isWord_toString.no_blank c (List.mem_of_mem_head? hc)
    have hblank : Text.isBlank ' ' = true := by decide
    have htoList : (" " ++ toString n).toList = ' ' :: (toString n).toList := by simp
    have hdigits' := Text.isWord_toString (n := n) |>.trim
    rw [Text.trim, Text.trimChars, hdigits] at hdigits'
    rw [Text.trim, Text.trimChars, htoList, List.dropWhile_cons_of_pos hblank, hdigits, hdigits']
  rw [announced?, hafter, Option.bind_eq_bind, Option.bind_some, htrim]
  exact Text.unsigned?_toString hn

theorem trim_header : Text.trim (header n) = header n := by
  refine Text.trim_eq_self (fun c hc => ?_) fun c hc => ?_
  · rw [toList_header] at hc
    obtain rfl : 'p' = c := Option.some.inj hc
    decide
  · obtain ⟨d, hd⟩ := Option.ne_none_iff_exists'.1
      (mt List.getLast?_eq_none_iff.1 (Text.isWord_toString (n := n)).ne_nil)
    rw [header_eq, String.toList_append, List.getLast?_append, hd, Option.some_or] at hc
    obtain rfl := Option.some.inj hc
    exact Text.isWord_toString.no_blank d (List.mem_of_getLast? hd)

theorem isLine_header : IsLine (header n) := by
  rw [header_eq]
  exact IsLine.append ⟨by decide, by decide⟩ Text.isLine_toString

/-- A partition file has a line for each partition. -/
theorem exists_toFileText (hnet : net.Accepted) (hnamed : net.Named)
    (hps : ∀ p ∈ ps.parts.toList, ∀ v ∈ p.owned, v < net.size) :
    ∃ ls, ps.toFileText net = .ok (Encoding.unlines (header ps.size :: ls)) ∧
      List.Forall₂ (fun p l => ∃ names, LineOf net p l names) ps.parts.toList ls := by
  have hline : ∀ p ∈ ps.parts.toList, ∃ names, p.owned.mapM net.name = .ok names ∧
      (∀ w ∈ names, IsWord w) ∧ List.Forall₂ (fun v w => net.find? w = some v) p.owned names :=
    fun p hp => hnet.exists_names hnamed (hps p hp)
  choose! names hnames hwords hfinds using hline
  refine ⟨ps.parts.toList.map fun p => Text.join "," (names p), ?_, ?_⟩
  · have hall : ps.parts.toList.mapM (fun p => listNames net p.owned) =
        .ok (ps.parts.toList.map fun p => Text.join "," (names p)) := by
      refine Outcome.mapM_ok fun p hp => ?_
      rw [listNames, hnames p hp]
      rfl
    rw [toFileText, hall]
    rfl
  · rw [List.forall₂_map_right_iff, List.forall₂_same]
    exact fun p hp => ⟨names p, rfl, hwords p hp, hfinds p hp⟩

/-- The reader of a partition file sees its lines as they were written. -/
theorem lines_unlines (h : ∀ l ∈ ls, ∀ c ∈ l.toList, Text.isBlank c = false) :
    (Text.lines (Encoding.unlines (header n :: ls))).map Text.trim = header n :: ls := by
  have hline : ∀ l ∈ header n :: ls, IsLine l :=
    List.forall_mem_cons.2 ⟨isLine_header, fun l hl => Text.isLine_of_no_blank (h l hl)⟩
  have htrim : ∀ l ∈ header n :: ls, Text.trim l = l :=
    List.forall_mem_cons.2 ⟨trim_header, fun l hl => Text.trim_of_no_blank (h l hl)⟩
  rw [Text.lines_of_feeds Encoding.toList_unlines hline, List.map_congr_left htrim, List.map_id']

/-- The lines of a partition file that are read, with their numbers: the first ones that are not
empty. -/
def readLines (n : Nat) (ls : List String) : List (String × Nat) :=
  ((ls.zipIdx 2).filter (!·.1.isEmpty)).take n

/-- What a partition file has to be like to be read. -/
theorem parse_eq_ok (hlines : (Text.lines text).map Text.trim = header n :: ls)
    (hn : n < wordSize) (h2 : 2 ≤ n) (hle : n ≤ net.size) :
    parse net file text = .ok ps ↔ ∃ sets, sets.length = n ∧ ofSets net sets = .ok ps ∧
      List.Forall₂ (fun l vs => parseLine net file l.2 l.1 = .ok vs)
        (readLines n ls) sets := by
  have hrange : ¬ (n < 2 || net.size < n) = true := by
    simp
    omega
  rw [parse, hlines]
  simp only [announced?_header hn, if_neg hrange]
  rw [bind_eq_ok_iff]
  constructor
  · rintro ⟨sets, hsets, h⟩
    split at h
    · cases h
    · rename_i hlength
      exact ⟨sets, by simpa using hlength, h, Outcome.mapM_eq_ok_iff.1 hsets⟩
  · rintro ⟨sets, hlength, hps, hsets⟩
    refine ⟨sets, Outcome.mapM_eq_ok_iff.2 hsets, ?_⟩
    rw [if_neg (by simpa using hlength)]
    exact hps

theorem forall₂_zipIdx {α β : Type} {R : α → β → Prop} {xs : List α} {ys : List β}
    (h : List.Forall₂ R xs ys) : List.Forall₂ (fun q y => R q.1 y) (xs.zipIdx k) ys := by
  induction h generalizing k with
  | nil => exact .nil
  | cons hxy _ ih => exact .cons hxy ih

/-- As many lines can only be read as there are if none of them is empty. -/
theorem readLines_eq (hlength : ls.length = n) :
    (readLines n ls).length = n ↔ ∀ l ∈ ls, l.isEmpty = false := by
  have hall : (ls.zipIdx 2).length = n := by rw [List.length_zipIdx, hlength]
  have hle := List.length_filter_le (fun q : String × Nat => !q.1.isEmpty) (ls.zipIdx 2)
  have hkept : (readLines n ls).length = n ↔
      ((ls.zipIdx 2).filter (!·.1.isEmpty)).length = (ls.zipIdx 2).length := by
    rw [readLines, List.length_take]
    omega
  rw [hkept, List.length_filter_eq_length_iff, ← List.zipIdx_map_fst 2 ls, List.forall_mem_map]
  simp

theorem readLines_self (hlength : ls.length = n) (h : ∀ l ∈ ls, l.isEmpty = false) :
    readLines n ls = ls.zipIdx 2 := by
  have hkept : ∀ q ∈ ls.zipIdx 2, (!q.1.isEmpty) = true := by
    intro q hq
    simp [h q.1 (List.fst_mem_of_mem_zipIdx hq)]
  rw [readLines, List.filter_eq_self.2 hkept, List.take_of_length_le]
  rw [List.length_zipIdx, hlength]

/-- A checked partitioning of at least two and at most as many parts as variables is written, and
read from its file as it was exactly if every partition owns something and no variable has a comma
in its name. -/
theorem parse_toFileText_iff (h : Network.parse source text = .ok net) (hfit : net.size < wordSize)
    (hsets : ofSets net sets = .ok ps) (hverify : ps.verify net = .ok ()) (h2 : 2 ≤ ps.size)
    (hle : ps.size ≤ net.size) : ∃ t, ps.toFileText net = .ok t ∧
      ∀ file, parse net file t = .ok ps ↔ (∀ p ∈ ps.parts.toList, p.owned ≠ []) ∧
        ∀ (v : Variable) (m : Network.Node), net.nodes[v]? = some m → ',' ∉ m.name.toList := by
  have hnet := Network.accepted_of_parse h
  obtain ⟨ls, ht, hls⟩ := exists_toFileText hnet (Network.named_of_parse h)
    fun p hp v => owned_lt hsets hp
  have hlength : ls.length = ps.size := by rw [← hls.length_eq, Array.length_toList, size]
  refine ⟨_, ht, fun file => ?_⟩
  have hlines := @lines_unlines ls ps.size fun l hl => by
    obtain ⟨p, -, names, hline⟩ := exists_of_forall₂ hls hl
    exact hline.no_blank
  rw [parse_eq_ok hlines (hle.trans_lt hfit) h2 hle]
  constructor
  · rintro ⟨sets', hcount, hps, hread⟩
    refine ⟨fun p hp => ?_, fun v m hm => ?_⟩
    · obtain ⟨l, hl, names, hline⟩ := exists_of_forall₂ hls.flip hp
      have hsome := (readLines_eq hlength).1 (hread.length_eq.trans hcount) l hl
      rw [Ne, ← hline.isEmpty_iff, hsome]
      exact Bool.false_ne_true
    · -- The variable is owned by a partition, which was made from a line that was read.
      have hv := (Array.getElem?_eq_some_iff.1 hm).1
      obtain ⟨p, hp, hvp⟩ := List.mem_flatMap.1 <|
        (verify_eq_ok_iff.1 hverify).mem_iff.2 (List.mem_range.2 hv)
      obtain ⟨vs, hvs, hof⟩ := exists_of_forall₂ (ofSets_eq_ok.1 hps) hp
      obtain ⟨q, -, hline⟩ := exists_of_forall₂ hread hvs
      refine no_comma_of_parseLine hline ?_ hm
      obtain ⟨parents, -, hp⟩ := bind_eq_ok_iff.1 hof
      cases hp
      exact mem_ofList.1 hvp
  · rintro ⟨howned, hcomma⟩
    have hsome : ∀ l ∈ ls, l.isEmpty = false := by
      intro l hl
      obtain ⟨p, hp, names, hline⟩ := exists_of_forall₂ hls hl
      exact Bool.eq_false_iff.2 fun hempty => howned p hp (hline.isEmpty_iff.1 hempty)
    refine ⟨_, ?_, ofSets_owned hsets, ?_⟩
    · rw [List.length_map, Array.length_toList, size]
    · rw [readLines_self hlength hsome, List.forall₂_map_right_iff]
      have hread := (List.forall₂_and_left _ _).2 ⟨howned, hls⟩
      refine (forall₂_zipIdx hread.flip).imp fun q p hq => ?_
      obtain ⟨hne, names, hline⟩ := hq
      refine hline.parseLine hne fun w hw => ?_
      obtain ⟨v, -, hv⟩ := exists_of_forall₂ hline.finds hw
      obtain ⟨m, hm, rfl⟩ := Network.find?_spec hv
      exact hcomma v m hm

/-- A partition that owns nothing has an empty line, which is not counted. -/
example : (do
    let ps ← ofSets twoCoins [[0, 1], []]
    ps.verify twoCoins
    parse twoCoins "two.part" (← ps.toFileText twoCoins)) =
      fail (.parse "two.part" 0 "expected 2 partitions, found 1") := by
  decide +kernel

/-! ## Failures -/

theorem safe_name (h : v < net.size) : Safe (net.name v) := by
  rw [Network.name, Network.node, fetch, Array.getElem?_eq_getElem h]
  exact Safe.ok

theorem safe_listNames (h : ∀ v ∈ vs, v < net.size) : Safe (listNames net vs) :=
  (Safe.mapM fun v hv => safe_name (h v hv)).bind fun _ _ => Safe.pure

theorem safe_cover {us : List Variable} (h : ∀ v ∈ vs, v < net.size) :
    Safe (cover net i us vs) := by
  induction vs generalizing us with
  | nil => exact Safe.ok
  | cons v vs ih =>
      obtain ⟨hv, hvs⟩ := List.forall_mem_cons.1 h
      rw [cover]
      split
      · exact (safe_name hv).bind fun _ _ => Safe.fail
      · exact ih hvs

theorem safe_coverAll {us : List Variable} : ∀ {parts : List Partition} {k : Nat},
    (∀ p ∈ parts, ∀ v ∈ p.owned, v < net.size) → Safe (coverAll net us (parts.zipIdx k))
  | [], _, _ => Safe.ok
  | p :: parts, k, h => by
      obtain ⟨hp, hparts⟩ := List.forall_mem_cons.1 h
      rw [List.zipIdx_cons, coverAll]
      exact (safe_cover hp).bind fun _ _ => safe_coverAll hparts

/-- The check of partitions of a network fails with an error if it fails. -/
theorem safe_verify (h : ofSets net sets = .ok ps) : Safe (ps.verify net) := by
  have hcover : Safe (coverAll net (List.range net.size) ps.parts.toList.zipIdx) :=
    safe_coverAll fun p hp v => owned_lt h hp
  refine hcover.bind fun rest hrest => ?_
  have hperm := perm_of_coverAll List.nodup_range hrest
  split
  · refine (safe_listNames fun v hv => ?_).bind fun _ _ => Safe.fail
    exact List.mem_range.1 (hperm.mem_iff.2 (List.mem_append_right _ hv))
  · exact Safe.pure

theorem safe_ofSets (h : ∀ vs ∈ sets, ∀ v ∈ vs, v < net.size) : Safe (ofSets net sets) := by
  refine (Safe.mapM fun vs hvs => ?_).bind fun _ _ => Safe.pure
  refine (Safe.mapM fun v hv => ?_).bind fun _ _ => Safe.pure
  have hlt := h vs hvs v (mem_ofList.1 hv)
  rw [Network.parents, Network.node, fetch, Array.getElem?_eq_getElem hlt]
  exact Safe.ok

theorem safe_parseLine {k : Nat} {line : String} : Safe (parseLine net file k line) := by
  refine Safe.mapM fun field _ => ?_
  dsimp only
  split
  · exact Safe.ok
  · exact Safe.fail

theorem lt_of_parseLine {k : Nat} {line : String} (h : parseLine net file k line = .ok vs) :
    ∀ v ∈ vs, v < net.size := by
  intro v hv
  obtain ⟨field, -, hfind⟩ := (Outcome.mem_of_mapM_ok h).2 v hv
  dsimp only at hfind
  split at hfind
  · cases hfind
    exact Network.lt_of_find? ‹_›
  · cases hfind

theorem safe_parse : Safe (parse net file text) := by
  rw [parse]
  split
  · exact Safe.fail
  · split
    · split
      · exact Safe.fail
      · refine (Safe.mapM fun q _ => safe_parseLine).bind fun sets hsets => ?_
        split
        · exact Safe.fail
        · refine safe_ofSets fun vs hvs => ?_
          obtain ⟨q, -, hq⟩ := (Outcome.mem_of_mapM_ok hsets).2 vs hvs
          exact lt_of_parseLine hq
    · exact Safe.fail

theorem ofSets_of_parse (h : parse net file text = .ok ps) : ∃ sets, ofSets net sets = .ok ps := by
  rw [parse] at h
  split at h
  · cases h
  · split at h
    · split at h
      · cases h
      · obtain ⟨sets, -, h⟩ := bind_eq_ok_iff.1 h
        split at h
        · cases h
        · exact ⟨sets, h⟩
    · cases h

theorem safe_verifyOrdering (hnet : net.Closed) (h : ofSets net sets = .ok ps) (hi : i < ps.size) :
    Safe (ps.verifyOrdering net i o) := by
  have hp := Array.getElem?_eq_getElem hi
  have hget : ps.get i = .ok ps.parts[i] := by
    rw [get, fetch, hp]
    rfl
  rw [verifyOrdering, hget]
  refine Safe.ok.bind fun p heq => ?_
  cases heq
  dsimp only
  split
  · exact (safe_listNames fun v hv => (proper_ofSets h hp).lt_of_mem_scope hnet hv).bind
      fun _ _ => Safe.fail
  · exact Safe.pure

end Partitions
end BayesCircuit
