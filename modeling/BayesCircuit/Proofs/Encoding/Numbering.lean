import BayesCircuit.Proofs.Encoding.Factors

/-!
# How weights are numbered

The weights that are not reserved are numbered one after the other, table by table and in the order
of the entries of a table. `Issued` says which weights the entries of a table have got so far: a
weight belongs to the entries with its value, and two entries have one weight exactly if they are
equal and weights are shared. So the weights of a factor are a run of numbers (`Numbered`), and the
runs of the factors of a network follow each other (`NumberedFrom`).

The main result is `ofNetwork_faithful`: the factors of an encoding are the tables of the network in
another order, and what is known about a weight can be read off its number.
-/

namespace BayesCircuit.Encoding

open Float.Model.UnpackedFloat InteractionGraph

variable {net : Network} {options : EncodingOptions} {literals first last : Nat} {rows : Rows}
variable {log : List (Probability × Nat)} {p : Probability} {v : Variable} {f : Factor}
variable {e : Encoding} {w : Nat}

/-! ## Reserved weights -/

/-- Whether an entry has a reserved weight. -/
def reserves (options : EncodingOptions) (p : Probability) : Bool :=
  options.determinism && (p.toFloat == 0.0 || p.toFloat == 1.0)

/-- The reserved weight of an entry that is zero or one. -/
def reservedWeight (p : Probability) : Nat := if p.toFloat == 1.0 then 1 else 0

/-- No number is both zero and one. -/
theorem not_one_of_zero {x : Float} (h : (x == 0.0) = true) : (x == 1.0) = false := by
  have hzero : (0.0 : Float).toModel.unpack = .zero .positive := rfl
  have hone : (1.0 : Float).toModel.unpack = .finite .positive (2 ^ 52) (-52) (by decide) := rfl
  have hx : (x.toModel.unpack.compare (0.0 : Float).toModel.unpack == some .eq) = true := h
  show (x.toModel.unpack.compare (1.0 : Float).toModel.unpack == some .eq) = false
  rw [hzero] at hx
  rw [hone]
  -- only a zero equals zero
  cases hunpack : x.toModel.unpack with
  | notANumber => rfl
  | infinity s => cases s <;> rfl
  | zero s => rfl
  | finite s m e hm =>
      rw [hunpack] at hx
      cases s <;> cases hx

theorem weightOf_of_reserves (h : reserves options p = true) :
    rows.weightOf options literals p = (reservedWeight p, rows) :=
  if_pos h

theorem reservedWeight_eq_zero (h : reserves options p = true) :
    reservedWeight p = 0 ↔ options.determinism = true ∧ (p.toFloat == 0.0) = true := by
  simp only [reserves, Bool.and_eq_true, Bool.or_eq_true] at h
  rw [reservedWeight]
  split
  · rename_i hone
    refine ⟨fun hw => absurd hw (by decide), fun hp => ?_⟩
    rw [not_one_of_zero hp.2] at hone
    cases hone
  · rename_i hone
    exact ⟨fun _ => ⟨h.1, h.2.resolve_right hone⟩, fun _ => rfl⟩

theorem reservedWeight_eq_one (h : reserves options p = true) :
    reservedWeight p = 1 ↔ options.determinism = true ∧ (p.toFloat == 1.0) = true := by
  simp only [reserves, Bool.and_eq_true] at h
  rw [reservedWeight]
  split
  · rename_i hone
    exact ⟨fun _ => ⟨h.1, hone⟩, fun _ => rfl⟩
  · rename_i hone
    exact ⟨fun hw => absurd hw (by decide), fun hp => absurd hp.2 hone⟩

/-- A reserved weight is the number of its entry, up to the sign of zero. -/
theorem reservedWeight_value (h : reserves options p = true) :
    (p.toFloat == (reservedWeight p).toFloat) = true := by
  simp only [reserves, Bool.and_eq_true, Bool.or_eq_true] at h
  rw [reservedWeight]
  split
  · rename_i hone
    rwa [show (1 : Nat).toFloat = 1.0 by decide]
  · rename_i hone
    rw [show (0 : Nat).toFloat = 0.0 by decide]
    exact h.2.resolve_right hone

/-! ## The weights of a table -/

/-- The weights that the entries of a table have got so far, when `first` values were stored
before. -/
structure Issued (options : EncodingOptions) (literals first : Nat)
    (log : List (Probability × Nat)) (rows : Rows) : Prop where
  first_le : first ≤ rows.values.size
  reserved : ∀ a ∈ log, reserves options a.1 = true → a.2 = reservedWeight a.1
  new : ∀ a ∈ log, reserves options a.1 = false →
    literals + first < a.2 ∧ a.2 ≤ literals + rows.values.size
  stored : ∀ a ∈ log, reserves options a.1 = false →
    rows.values[a.2 - literals - 1]? = some a.1
  used : ∀ w, literals + first < w → w ≤ literals + rows.values.size → ∃ a ∈ log, a.2 = w
  shared : ∀ p w, rows.shared[p]? = some w ↔
    options.sharing = true ∧ reserves options p = false ∧ (p, w) ∈ log
  apart : log.Pairwise fun a b => reserves options a.1 = false → reserves options b.1 = false →
    (a.2 = b.2 ↔ options.sharing = true ∧ a.1 = b.1)

theorem issued_start (size : Nat) (values : Array Probability) :
    Issued options literals values.size [] (emptyRows size values) where
  first_le := Nat.le_refl _
  reserved := by simp
  new := by simp
  stored := by simp
  used w hlt hle := absurd hle (by simp only [emptyRows]; omega)
  shared p w := by simp [emptyRows]
  apart := .nil

namespace Issued

/-- Entries that are known by their bits are stored. -/
theorem known (h : Issued options literals first log rows) : Known literals rows := by
  intro p w hw
  obtain ⟨-, hp, hmem⟩ := (h.shared p w).1 hw
  have hnew := h.new _ hmem hp
  exact ⟨by omega, h.stored _ hmem hp⟩

/-- Only the values and the shared weights matter. -/
theorem congr {rows' : Rows} (h : Issued options literals first log rows)
    (hvalues : rows'.values = rows.values) (hshared : rows'.shared = rows.shared) :
    Issued options literals first log rows' where
  first_le := hvalues ▸ h.first_le
  reserved := h.reserved
  new := hvalues ▸ h.new
  stored := hvalues ▸ h.stored
  used := hvalues ▸ h.used
  shared := hshared ▸ h.shared
  apart := h.apart

/-- An entry gets a reserved weight. -/
theorem reserve (h : Issued options literals first log rows) (hp : reserves options p = true) :
    Issued options literals first (log ++ [(p, reservedWeight p)]) rows where
  first_le := h.first_le
  reserved := List.forall_mem_append.2 ⟨h.reserved, List.forall_mem_singleton.2 fun _ => rfl⟩
  new := List.forall_mem_append.2 ⟨h.new, List.forall_mem_singleton.2 fun hn => by simp [hp] at hn⟩
  stored :=
    List.forall_mem_append.2 ⟨h.stored, List.forall_mem_singleton.2 fun hn => by simp [hp] at hn⟩
  used w hlt hle := by
    obtain ⟨a, ha, hw⟩ := h.used w hlt hle
    exact ⟨a, List.mem_append_left _ ha, hw⟩
  shared q w := by
    rw [h.shared, List.mem_append, List.mem_singleton]
    refine and_congr_right fun _ => and_congr_right fun hq => ⟨Or.inl, fun hm => ?_⟩
    refine hm.resolve_right fun he => ?_
    rw [(Prod.mk.inj he).1, hp] at hq
    cases hq
  apart := by
    refine List.pairwise_append.2 ⟨h.apart, List.pairwise_singleton _ _, fun a _ b hb _ hn => ?_⟩
    rw [List.mem_singleton.1 hb, hp] at hn
    cases hn

/-- An entry gets the weight of an equal one. -/
theorem share (h : Issued options literals first log rows) (hw : rows.shared[p]? = some w) :
    Issued options literals first (log ++ [(p, w)]) rows := by
  obtain ⟨hsharing, hp, hmem⟩ := (h.shared p w).1 hw
  have hnot : reserves options p = true → w = reservedWeight p := fun hr => by simp [hp] at hr
  refine ⟨h.first_le, ?_, ?_, ?_, fun w hlt hle => ?_, fun q w' => ?_, ?_⟩
  · exact List.forall_mem_append.2 ⟨h.reserved, List.forall_mem_singleton.2 hnot⟩
  · exact List.forall_mem_append.2 ⟨h.new, List.forall_mem_singleton.2 (h.new _ hmem)⟩
  · exact List.forall_mem_append.2 ⟨h.stored, List.forall_mem_singleton.2 (h.stored _ hmem)⟩
  · obtain ⟨a, ha, haw⟩ := h.used w hlt hle
    exact ⟨a, List.mem_append_left _ ha, haw⟩
  · rw [h.shared, List.mem_append, List.mem_singleton]
    refine and_congr_right fun _ => and_congr_right fun _ => ⟨Or.inl, ?_⟩
    rintro (hq | hq)
    · exact hq
    · exact hq ▸ hmem
  · refine List.pairwise_append.2 ⟨h.apart, List.pairwise_singleton _ _, fun a ha b hb hna _ => ?_⟩
    obtain rfl := List.mem_singleton.1 hb
    constructor
    · -- one weight has one value
      intro he
      have hstored := h.stored a ha hna
      rw [he, h.stored _ hmem hp] at hstored
      exact ⟨hsharing, (Option.some.inj hstored).symm⟩
    · rintro ⟨-, he⟩
      have hknown := (h.shared a.1 a.2).2 ⟨hsharing, hna, ha⟩
      rw [he, hw] at hknown
      exact (Option.some.inj hknown).symm

/-- An entry gets a new weight. -/
theorem add {shared : Std.HashMap Probability Weight}
    (h : Issued options literals first log rows) (hp : reserves options p = false)
    (hnone : options.sharing = true → rows.shared[p]? = none)
    (hshared : shared = if options.sharing then
      rows.shared.insert p (literals + rows.values.size + 1) else rows.shared) :
    Issued options literals first (log ++ [(p, literals + rows.values.size + 1)])
      { rows with values := rows.values.push p, shared } := by
  have hfirst := h.first_le
  refine ⟨by simp only [Array.size_push]; omega, ?_, ?_, ?_, fun w hlt hle => ?_, fun q w => ?_, ?_⟩
  · exact List.forall_mem_append.2 ⟨h.reserved, List.forall_mem_singleton.2 fun hr => by
      simp [hp] at hr⟩
  · simp only [Array.size_push]
    refine List.forall_mem_append.2 ⟨fun a ha hna => ?_, List.forall_mem_singleton.2 fun _ => ?_⟩
    · have := h.new a ha hna
      exact ⟨this.1, by omega⟩
    · dsimp only
      exact ⟨by omega, by omega⟩
  · refine List.forall_mem_append.2 ⟨fun a ha hna => extends_push _ _ (h.stored a ha hna),
      List.forall_mem_singleton.2 fun _ => ?_⟩
    rw [show literals + rows.values.size + 1 - literals - 1 = rows.values.size by omega]
    exact Array.getElem?_push_size
  · simp only [Array.size_push] at hle
    by_cases hw : w = literals + rows.values.size + 1
    · exact ⟨_, List.mem_append_right _ (List.mem_singleton_self _), hw.symm⟩
    · obtain ⟨a, ha, haw⟩ := h.used w hlt (by omega)
      exact ⟨a, List.mem_append_left _ ha, haw⟩
  · rw [List.mem_append, List.mem_singleton, hshared]
    cases hsharing : options.sharing with
    | false =>
        have := h.shared q w
        simpa [hsharing] using this
    | true =>
        simp only [if_true, true_and]
        rw [Std.HashMap.getElem?_insert]
        by_cases hq : p = q
        · subst hq
          have hno : (p, w) ∉ log := fun hmem => by
            have := (h.shared p w).2 ⟨hsharing, hp, hmem⟩
            rw [hnone hsharing] at this
            cases this
          simp [hp, hno, eq_comm]
        · have := h.shared q w
          rw [hsharing] at this
          simp [hq, this, Ne.symm hq]
  · refine List.pairwise_append.2 ⟨h.apart, List.pairwise_singleton _ _, fun a ha b hb hna _ => ?_⟩
    obtain rfl := List.mem_singleton.1 hb
    have hle := (h.new a ha hna).2
    constructor
    · intro he
      have hnext : a.2 = literals + rows.values.size + 1 := he
      omega
    · rintro ⟨hsharing, he⟩
      have hknown := (h.shared a.1 a.2).2 ⟨hsharing, hna, ha⟩
      rw [show a.1 = p from he, hnone hsharing] at hknown
      cases hknown

/-- The next entry gets its weight. -/
theorem put (h : Issued options literals first log rows) (row : Nat) (p : Probability) :
    Issued options literals first (log ++ [(p, (rows.weightOf options literals p).1)])
      (rows.put options literals row p) := by
  suffices hnext : Issued options literals first
      (log ++ [(p, (rows.weightOf options literals p).1)])
      (rows.weightOf options literals p).2 from hnext.congr rfl rfl
  cases hp : reserves options p with
  | true =>
      rw [weightOf_of_reserves hp]
      exact h.reserve hp
  | false =>
      have hnot : ¬(options.determinism && (p.toFloat == 0.0 || p.toFloat == 1.0)) = true :=
        fun hr => absurd (hp.symm.trans hr) (by decide)
      unfold Rows.weightOf
      rw [if_neg hnot]
      dsimp only
      cases hsharing : options.sharing with
      | false => exact h.add hp (fun hs => by simp [hsharing] at hs) (by simp [hsharing])
      | true =>
          simp only [if_true]
          cases hw : rows.shared[p]? with
          | some w => exact h.share hw
          | none => exact h.add hp (fun _ => hw) (by simp [hsharing])

end Issued

/-- The entry that was put into a row, with the weight that it got. -/
def Logged (rowAt : Nat → Nat) (rows : Rows) (q : Probability × Nat) (a : Probability × Nat) :
    Prop :=
  a.1 = q.1 ∧ rows.probabilities[rowAt q.2]? = some a.1 ∧ rows.weights[rowAt q.2]? = some a.2

/-- All entries of a table get their weights. -/
theorem issued_foldl {rowAt : Nat → Nat} : ∀ {entries : List (Probability × Nat)} {rows : Rows}
    {log : List (Probability × Nat)}, Issued options literals first log rows →
    (entries.map fun q => rowAt q.2).Nodup →
    (∀ q ∈ entries, rowAt q.2 < rows.weights.size ∧ rowAt q.2 < rows.probabilities.size) →
    ∃ log', Issued options literals first (log ++ log')
        (entries.foldl (fun rows q => rows.put options literals (rowAt q.2) q.1) rows) ∧
      List.Forall₂ (Logged rowAt
        (entries.foldl (fun rows q => rows.put options literals (rowAt q.2) q.1) rows)) entries log'
  | [], rows, log, h, _, _ => ⟨[], by rwa [List.append_nil], .nil⟩
  | (p, i) :: entries, rows, log, h, hnodup, hlt => by
      rw [List.map_cons, List.nodup_cons] at hnodup
      obtain ⟨hw, hp⟩ := hlt (p, i) (List.mem_cons_self ..)
      have hput : Written options literals rowAt [(p, i)] rows
          (rows.put options literals (rowAt i) p) := written_put h.known hw hp
      have hbound : ∀ q ∈ entries,
          rowAt q.2 < (rows.put options literals (rowAt i) p).weights.size ∧
            rowAt q.2 < (rows.put options literals (rowAt i) p).probabilities.size := by
        intro q hq
        rw [hput.weights_size, hput.probabilities_size]
        exact hlt q (List.mem_cons_of_mem _ hq)
      obtain ⟨log', hissued, hlogged⟩ := issued_foldl (h.put (rowAt i) p) hnodup.2 hbound
      refine ⟨(p, (rows.weightOf options literals p).1) :: log', ?_, .cons ?_ hlogged⟩
      · rwa [List.append_assoc] at hissued
      · -- the row is not written again
        obtain ⟨hkept, hkept'⟩ := (foldl_put hput.known hnodup.2 hbound).other (rowAt i) hnodup.1
        obtain ⟨-, -, -, hweights, hprobabilities⟩ :=
          @stands_weightOf options literals rows p h.known
        refine ⟨rfl, hkept'.trans ?_, hkept.trans ?_⟩
        · simp only [Rows.put, hprobabilities]
          rw [Array.getElem?_setIfInBounds_self_of_lt hp]
        · simp only [Rows.put, hweights]
          rw [Array.getElem?_setIfInBounds_self_of_lt hw]

/-! ## The weights of a factor -/

/-- A row of a factor holds an entry and a weight. -/
structure Row (f : Factor) (r : Nat) (p : Probability) (w : Nat) : Prop where
  probability : f.probabilities[r]? = some p
  weight : f.weights[r]? = some w

/-- The weights of a factor that are not reserved are a run of numbers, and equal entries are told
apart by whether weights are shared. -/
structure Numbered (options : EncodingOptions) (literals first last : Nat) (f : Factor) : Prop where
  le : first ≤ last
  reserved : ∀ {r p w}, Row f r p w → reserves options p = true → w = reservedWeight p
  new : ∀ {r p w}, Row f r p w → reserves options p = false →
    literals + first < w ∧ w ≤ literals + last
  used : ∀ w, literals + first < w → w ≤ literals + last → ∃ r p, Row f r p w
  apart : ∀ {r r' p p' w w'}, r ≠ r' → Row f r p w → Row f r' p' w' →
    reserves options p = false → reserves options p' = false →
    (w = w' ↔ options.sharing = true ∧ p = p')

/-- The entries of a log that holds every row once have numbered weights. -/
theorem Issued.numbered (rowAt : Nat → Nat) (h : Issued options literals first log rows)
    (hfind : ∀ r p w, Row f r p w → ∃ i, ∃ hi : i < log.length, rowAt i = r ∧ log[i] = (p, w))
    (hlog : ∀ a ∈ log, ∃ r, Row f r a.1 a.2) :
    Numbered options literals first rows.values.size f := by
  have hmem : ∀ {r p w}, Row f r p w → (p, w) ∈ log := by
    intro r p w hrow
    obtain ⟨i, hi, -, hget⟩ := hfind r p w hrow
    rw [← hget]
    exact List.getElem_mem hi
  have hpair := List.pairwise_iff_getElem.1 h.apart
  refine ⟨h.first_le, fun {r p w} hrow => h.reserved (p, w) (hmem hrow),
    fun {r p w} hrow => h.new (p, w) (hmem hrow), fun w hlt hle => ?_,
    fun {r r' p p' w w'} hne hrow hrow' hp hp' => ?_⟩
  · obtain ⟨a, ha, rfl⟩ := h.used w hlt hle
    obtain ⟨r, hr⟩ := hlog a ha
    exact ⟨r, a.1, hr⟩
  · obtain ⟨i, hi, rfl, hget⟩ := hfind r p w hrow
    obtain ⟨j, hj, rfl, hget'⟩ := hfind r' p' w' hrow'
    rcases Nat.lt_trichotomy i j with hlt | rfl | hlt
    · have hij := hpair i j hi hj hlt
      rw [hget, hget'] at hij
      exact hij hp hp'
    · exact absurd rfl hne
    · have hji := hpair j i hj hi hlt
      rw [hget, hget'] at hji
      rw [eq_comm, hji hp' hp]
      exact and_congr_right fun _ => eq_comm

variable {n : Network.Node} {firsts : Array Nat} {values values' : Array Probability}

/-- The rows of a table hold its entries and the weights that they got. -/
theorem issued_fillRows (options : EncodingOptions) (hnet : net.WellFormed)
    (hn : net.nodes[v]? = some n) (literals : Nat) (values : Array Probability)
    (hrows : rows = fillRows options net v literals n.table.toList.zipIdx
      (emptyRows n.table.size values)) :
    rows.weights.size = n.table.size ∧ ∃ log, Issued options literals values.size log rows ∧
      List.Forall₂ (Logged (tableRow net v) rows) n.table.toList.zipIdx log := by
  obtain ⟨hnodup, hbound⟩ := spread_table hnet hn
  have hstart : Issued options literals values.size [] (emptyRows n.table.size values) :=
    issued_start n.table.size values
  have hbound' : ∀ q ∈ n.table.toList.zipIdx,
      tableRow net v q.2 < (emptyRows n.table.size values).weights.size ∧
        tableRow net v q.2 < (emptyRows n.table.size values).probabilities.size := fun q hq => by
    simpa [emptyRows] using hbound q hq
  have hwritten := @foldl_put options literals (tableRow net v) _ _ hstart.known hnodup hbound'
  obtain ⟨log, hissued, hlogged⟩ := issued_foldl hstart hnodup hbound'
  rw [hrows]
  refine ⟨hwritten.weights_size.trans ?_, log, hissued, hlogged⟩
  exact Array.size_replicate

/-- The weights of the factor of a variable come after those that were handed out before. -/
theorem numbered_factorOf (hnet : net.WellFormed) (hv : v < net.size)
    (hfirsts : firsts.size = net.size)
    (h : factorOf options net firsts literals values v = .ok (f, values')) :
    Numbered options literals values.size values'.size f := by
  have hn := Array.getElem?_eq_getElem hv
  generalize net.nodes[v] = n at hn
  obtain ⟨ls, rows, hrows, hfactor⟩ := factorOf_eq options (fun u => hnet.family_lt hv)
    (fun u hu => hnet.dim_pos (hnet.family_lt hv hu)) hn hfirsts literals values
  obtain ⟨hsize, log, hissued, hlogged⟩ := issued_fillRows options hnet hn literals values hrows
  obtain ⟨rfl, rfl⟩ := Prod.mk.inj (Except.ok.inj (hfactor.symm.trans h))
  have hlength : log.length = n.table.size := by
    rw [← hlogged.length_eq, List.length_zipIdx, Array.length_toList]
  refine hissued.numbered (tableRow net v) (fun r p w hrow => ?_) fun a ha => ?_
  · -- an entry was put into the row
    have hr : r < n.table.size := hsize ▸ (Array.getElem?_eq_some_iff.1 hrow.weight).1
    rw [size_table hnet hn] at hr
    obtain ⟨i, hi, rfl⟩ := exists_tableRow hnet hv hr
    rw [← size_table hnet hn, ← hlength] at hi
    obtain ⟨-, hp, hw⟩ := hlogged.get (i := i) (by rwa [hlogged.length_eq]) hi
    rw [List.get_eq_getElem, List.getElem_zipIdx, Nat.zero_add] at hp hw
    refine ⟨i, hi, rfl, Prod.ext ?_ ?_⟩
    · exact Option.some.inj (hp.symm.trans hrow.probability)
    · exact Option.some.inj (hw.symm.trans hrow.weight)
  · obtain ⟨i, hi, rfl⟩ := List.getElem_of_mem ha
    obtain ⟨-, hp, hw⟩ := hlogged.get (i := i) (by rwa [hlogged.length_eq]) hi
    exact ⟨_, hp, hw⟩

/-! ## The weights of a network -/

/-- The weights of factors follow each other. -/
inductive NumberedFrom (options : EncodingOptions) (literals : Nat) :
    Nat → List Factor → Nat → Prop
  | nil {n : Nat} : NumberedFrom options literals n [] n
  | cons {first mid last : Nat} {f : Factor} {fs : List Factor}
      (head : Numbered options literals first mid f)
      (tail : NumberedFrom options literals mid fs last) :
      NumberedFrom options literals first (f :: fs) last

namespace NumberedFrom

variable {fs : List Factor}

theorem le (h : NumberedFrom options literals first fs last) : first ≤ last := by
  induction h with
  | nil => exact Nat.le_refl _
  | cons head tail ih => exact head.le.trans ih

/-- The weights of each factor lie between the first and the last one. -/
theorem mem (h : NumberedFrom options literals first fs last) (hf : f ∈ fs) :
    ∃ first' last', first ≤ first' ∧ last' ≤ last ∧ Numbered options literals first' last' f := by
  induction h with
  | nil => cases hf
  | cons head tail ih =>
      rcases List.mem_cons.1 hf with rfl | hf
      · exact ⟨_, _, Nat.le_refl _, tail.le, head⟩
      · obtain ⟨first', last', hfirst, hlast, hnumbered⟩ := ih hf
        exact ⟨first', last', head.le.trans hfirst, hlast, hnumbered⟩

/-- Every weight between the first and the last one is that of some row. -/
theorem used (h : NumberedFrom options literals first fs last) (hlt : literals + first < w)
    (hle : w ≤ literals + last) : ∃ (i : Nat) (f : Factor) (r : Nat) (p : Probability),
      fs[i]? = some f ∧ Row f r p w := by
  induction h with
  | nil => omega
  | @cons first mid last f fs head tail ih =>
      by_cases hw : w ≤ literals + mid
      · obtain ⟨r, p, hrow⟩ := head.used w hlt hw
        exact ⟨0, f, r, p, rfl, hrow⟩
      · obtain ⟨i, f', r, p, hf', hrow⟩ := ih (by omega) hle
        exact ⟨i + 1, f', r, p, hf', hrow⟩

/-- The weights of later factors are greater. -/
theorem sorted (h : NumberedFrom options literals first fs last) :
    fs.Pairwise fun f f' => ∀ {r r' p p' w w'}, Row f r p w → Row f' r' p' w' →
      reserves options p = false → reserves options p' = false → w < w' := by
  induction h with
  | nil => exact .nil
  | cons head tail ih =>
      refine .cons (fun f' hf' r r' p p' w w' hrow hrow' hp hp' => ?_) ih
      obtain ⟨first', last', hfirst, -, hnumbered⟩ := tail.mem hf'
      have hle := (head.new hrow hp).2
      have hlt := (hnumbered.new hrow' hp').1
      omega

/-- Weights of different factors differ. -/
theorem apart (h : NumberedFrom options literals first fs last) {i j r r' : Nat} {f' : Factor}
    {p' : Probability} {w' : Nat} (hne : i ≠ j) (hf : fs[i]? = some f) (hf' : fs[j]? = some f')
    (hrow : Row f r p w) (hrow' : Row f' r' p' w') (hp : reserves options p = false)
    (hp' : reserves options p' = false) : w ≠ w' := by
  have hsorted := List.pairwise_iff_getElem.1 h.sorted
  obtain ⟨hi, rfl⟩ := List.getElem?_eq_some_iff.1 hf
  obtain ⟨hj, rfl⟩ := List.getElem?_eq_some_iff.1 hf'
  rcases Nat.lt_or_gt_of_ne hne with hlt | hlt
  · exact Nat.ne_of_lt (hsorted i j hi hj hlt hrow hrow' hp hp')
  · exact Nat.ne_of_gt (hsorted j i hj hi hlt hrow' hrow hp' hp)

end NumberedFrom

theorem numbered_factorsFrom (hnet : net.WellFormed) (hfirsts : firsts.size = net.size) :
    ∀ {vs : List Variable} {fs : List Factor} {values values' : Array Probability},
      (∀ v ∈ vs, v < net.size) →
      factorsFrom options net firsts literals vs values = .ok (fs, values') →
      NumberedFrom options literals values.size fs values'.size
  | [], fs, values, values', _, h => by
      cases h
      exact .nil
  | v :: vs, fs, values, values', hvs, h => by
      rw [factorsFrom] at h
      obtain ⟨⟨f, values₁⟩, hf, h⟩ := Outcome.bind_eq_ok_iff.1 h
      obtain ⟨⟨fs', values₂⟩, hfs, h⟩ := Outcome.bind_eq_ok_iff.1 h
      cases h
      exact .cons (numbered_factorOf hnet (hvs v (List.mem_cons_self ..)) hfirsts hf)
        (numbered_factorsFrom hnet hfirsts (fun u hu => hvs u (List.mem_cons_of_mem _ hu)) hfs)

/-- The weights of an encoding are numbered factor by factor. -/
theorem numbered_ofNetwork (hnet : net.WellFormed) (he : ofNetwork options net = .ok e) :
    NumberedFrom options e.literalCount 0 e.factors.toList e.weightCount := by
  have hfirsts := size_firstLiterals he
  unfold ofNetwork at he
  obtain ⟨⟨fs, values⟩, hfs, he⟩ := Outcome.bind_eq_ok_iff.1 he
  cases he
  have hnumbered := numbered_factorsFrom hnet hfirsts
    (fun v (hv : v ∈ List.range net.size) => List.mem_range.1 hv) hfs
  rw [sumOf_toList, ← size_literalVariables net.dims] at hnumbered
  exact hnumbered

/-! ## Faithful encodings -/

namespace Numbered

theorem one_lt_iff (h : Numbered options literals first last f) (hpos : 0 < literals)
    {r : Nat} (hrow : Row f r p w) : 1 < w ↔ reserves options p = false := by
  cases hp : reserves options p with
  | true =>
      have hle : reservedWeight p ≤ 1 := by
        rw [reservedWeight]
        split <;> decide
      rw [h.reserved hrow hp]
      simpa using hle
  | false =>
      have hlt := (h.new hrow hp).1
      exact iff_of_true (by omega) rfl

theorem eq_zero_iff (h : Numbered options literals first last f) (hpos : 0 < literals)
    {r : Nat} (hrow : Row f r p w) :
    w = 0 ↔ options.determinism = true ∧ (p.toFloat == 0.0) = true := by
  cases hp : reserves options p with
  | true =>
      rw [h.reserved hrow hp]
      exact reservedWeight_eq_zero hp
  | false =>
      have hlt := (h.one_lt_iff hpos hrow).2 hp
      refine iff_of_false (by omega) fun hzero => ?_
      simp [reserves, hzero.1, hzero.2] at hp

theorem eq_one_iff (h : Numbered options literals first last f) (hpos : 0 < literals)
    {r : Nat} (hrow : Row f r p w) :
    w = 1 ↔ options.determinism = true ∧ (p.toFloat == 1.0) = true := by
  cases hp : reserves options p with
  | true =>
      rw [h.reserved hrow hp]
      exact reservedWeight_eq_one hp
  | false =>
      have hlt := (h.one_lt_iff hpos hrow).2 hp
      refine iff_of_false (by omega) fun hone => ?_
      simp [reserves, hone.1, hone.2] at hp

/-- Weights of one factor tell its entries apart as far as weights are shared. -/
theorem eq_iff (h : Numbered options literals first last f) (hpos : 0 < literals) {r r' : Nat}
    {p' : Probability} {w' : Nat} (hne : r ≠ r') (hrow : Row f r p w) (hrow' : Row f r' p' w')
    (hw : 1 < w) : w = w' ↔ options.sharing = true ∧ p = p' := by
  have hp := (h.one_lt_iff hpos hrow).1 hw
  cases hp' : reserves options p' with
  | false => exact h.apart hne hrow hrow' hp hp'
  | true =>
      have hle : ¬1 < w' := fun hlt => by
        rw [(h.one_lt_iff hpos hrow').1 hlt] at hp'
        cases hp'
      refine iff_of_false (fun he => hle (he ▸ hw)) fun he => ?_
      rw [he.2, hp'] at hp
      cases hp

end Numbered

/-- A number that is shown for an entry: the entry, or a reserved number that equals it. -/
def Shows (options : EncodingOptions) (p : Probability) (x : Float) : Prop :=
  x = p.toFloat ∨ options.determinism = true ∧ (x = 0.0 ∨ x = 1.0) ∧ (p.toFloat == x) = true

/-- The value of a weight is the entry for which it stands, up to the sign of zero. -/
theorem weightValue_of_stands (hpos : 0 < e.literalCount)
    (h : Stands options e.literalCount e.weightValues w p) :
    ∃ x, e.weightValue w = .ok x ∧ Shows options p x := by
  have hone : (1 : Nat).toFloat = 1.0 := by decide
  have hzero : (0 : Nat).toFloat = 0.0 := by decide
  cases h with
  | one hd hp =>
      refine ⟨1.0, ?_, .inr ⟨hd, .inr rfl, hp⟩⟩
      simp [weightValue, isProbability, Nat.not_lt.2 hpos, hone]
  | zero hd hp hn =>
      refine ⟨0.0, ?_, .inr ⟨hd, .inl rfl, hp⟩⟩
      simp [weightValue, isProbability, hzero]
  | stored hlt hvalue =>
      refine ⟨p.toFloat, ?_, .inl rfl⟩
      simp [weightValue, isProbability, hlt, fetch, hvalue, expect, Except.map]

/-- The factor of a variable is its table in another order. -/
structure Reindexes (options : EncodingOptions) (net : Network) (e : Encoding) (v : Variable)
    (f : Factor) : Prop where
  owner : f.owner = v
  strict : Collection.Ascending.Strict f.scope
  mem_scope : ∀ u, u ∈ f.scope ↔ u ∈ family net v
  dims : f.dims = f.scope.map net.dimOf
  size : f.rows = (f.scope.map net.dimOf).prod
  row : ∀ ρ : Variable → Nat, (∀ u ∈ f.scope, ρ u < net.dimOf u) → ∃ n p w x,
    net.nodes[v]? = some n ∧ n.table[net.entryIndex v ρ]? = some p ∧
    Row f (f.counter.withDigits (f.scope.map ρ)).value p w ∧
    e.weightValue w = .ok x ∧ (x = p.toFloat ∨ (p.toFloat == x) = true) ∧
    (w = 0 ↔ options.determinism = true ∧ (p.toFloat == 0.0) = true) ∧
    (w = 1 ↔ options.determinism = true ∧ (p.toFloat == 1.0) = true)

/-- The tables of a network in another order, with weights that are shared within a table only. -/
structure Faithful (options : EncodingOptions) (net : Network) (e : Encoding) : Prop where
  factor : ∀ v < net.size, ∃ f, e.factor v = .ok f ∧ Reindexes options net e v f
  new : ∀ {v f r p w}, e.factor v = .ok f → Row f r p w → 1 < w →
    e.literalCount < w ∧ w ≤ e.literalCount + e.weightCount
  used : ∀ w, e.literalCount < w → w ≤ e.literalCount + e.weightCount →
    ∃ v f r p, v < net.size ∧ e.factor v = .ok f ∧ Row f r p w
  apart : ∀ {v v' f f' r r' p p' w w'}, v ≠ v' → e.factor v = .ok f → e.factor v' = .ok f' →
    Row f r p w → Row f' r' p' w' → 1 < w → w ≠ w'
  shared : ∀ {v f r r' p p' w w'}, e.factor v = .ok f → r ≠ r' → Row f r p w → Row f r' p' w' →
    1 < w → (w = w' ↔ options.sharing = true ∧ p = p')

theorem getElem?_of_factor (hf : e.factor v = .ok f) : e.factors.toList[v]? = some f := by
  rw [Array.getElem?_toList]
  exact fetch_eq_ok.1 hf

theorem reindexes_of_numbered (hnet : net.WellFormed) (R : Represents options net e)
    (hf : e.factor v = .ok f) (h : Numbered options e.literalCount first last f) :
    Reindexes options net e v f := by
  obtain ⟨hpos, hv, E⟩ := row_of_factor hnet R hf
  refine ⟨E.owner, ?_, fun u => ?_, E.dims, E.dims ▸ E.size, fun ρ hρ => ?_⟩
  · rw [E.scope]
    exact strict_sorted_family hnet.linked hv
  · rw [E.scope, mem_sorted_family]
  · obtain ⟨hp, w, hw, hstands⟩ := E.row ρ hρ
    obtain ⟨x, hx, hsame⟩ := weightValue_of_stands hpos hstands
    have hρ' : ∀ u ∈ family net v, ρ u < net.dimOf u := fun u hu => by
      refine hρ u ?_
      rwa [E.scope, mem_sorted_family]
    obtain ⟨n, hn, hentry⟩ := exists_entryAt hnet hv hρ'
    have hrow : Row f (f.counter.withDigits (f.scope.map ρ)).value (net.entryAt v ρ) w := by
      have hlength : (f.scope.map ρ).length = f.dims.length := by
        rw [E.dims, List.length_map, List.length_map]
      rw [Factor.counter, Counter.value_withDigits hlength]
      exact ⟨hp, hw⟩
    exact ⟨n, _, w, x, hn, hentry, hrow, hx, hsame.imp_right (·.2.2), h.eq_zero_iff hpos hrow,
      h.eq_one_iff hpos hrow⟩

/-- Encoding a network arranges its tables over ascending variables and does not lose an entry. -/
theorem ofNetwork_faithful (options : EncodingOptions) (hnet : net.WellFormed) :
    ∃ e, ofNetwork options net = .ok e ∧ Faithful options net e := by
  obtain ⟨e, he, R⟩ := ofNetwork_spec options hnet
  have hnumbered := numbered_ofNetwork hnet he
  -- the weights of one factor are numbered
  have hmem : ∀ {v f}, e.factor v = .ok f → 0 < e.literalCount ∧
      ∃ first last, last ≤ e.weightCount ∧ Numbered options e.literalCount first last f := by
    intro v f hf
    have hpos := (row_of_factor hnet R hf).1
    obtain ⟨first, last, -, hlast, h⟩ :=
      hnumbered.mem (List.mem_of_getElem? (getElem?_of_factor hf))
    exact ⟨hpos, first, last, hlast, h⟩
  refine ⟨e, he, fun v hv => ?_, fun {v f r p w} hf hrow hw => ?_, fun w hlt hle => ?_,
    fun {v v' f f' r r' p p' w w'} hne hf hf' hrow hrow' hw => ?_,
    fun {v f r r' p p' w w'} hf hne hrow hrow' hw => ?_⟩
  · obtain ⟨f, hf, -⟩ := R.factor v hv
    obtain ⟨-, first, last, -, h⟩ := hmem hf
    exact ⟨f, hf, reindexes_of_numbered hnet R hf h⟩
  · obtain ⟨hpos, first, last, hlast, h⟩ := hmem hf
    have hnew := h.new hrow ((h.one_lt_iff hpos hrow).1 hw)
    exact ⟨by omega, by omega⟩
  · obtain ⟨v, f, r, p, hf, hrow⟩ := hnumbered.used (by omega) hle
    have hf' : e.factor v = .ok f := by
      rw [Array.getElem?_toList] at hf
      exact fetch_eq_ok.2 hf
    exact ⟨v, f, r, p, (row_of_factor hnet R hf').2.1, hf', hrow⟩
  · obtain ⟨hpos, first, last, -, h⟩ := hmem hf
    obtain ⟨-, first', last', -, h'⟩ := hmem hf'
    by_cases hw' : 1 < w'
    · exact hnumbered.apart hne (getElem?_of_factor hf) (getElem?_of_factor hf') hrow hrow'
        ((h.one_lt_iff hpos hrow).1 hw) ((h'.one_lt_iff hpos hrow').1 hw')
    · omega
  · obtain ⟨hpos, first, last, -, h⟩ := hmem hf
    exact h.eq_iff hpos hne hrow hrow' hw

/-- If the first coin shows tails, then the second one shows heads: the entry for two tails has the
reserved weight zero. -/
theorem ofNetwork_faithful_twoCoins : ∃ e f r p, ofNetwork ⟨true, true⟩ twoCoins = .ok e ∧
    Faithful ⟨true, true⟩ twoCoins e ∧ e.factor 1 = .ok f ∧
    r = (f.counter.withDigits (f.scope.map fun _ => 1)).value ∧ Row f r p 0 := by
  obtain ⟨e, he, h⟩ := ofNetwork_faithful ⟨true, true⟩ wellFormed_twoCoins
  obtain ⟨f, hf, hindex⟩ := h.factor 1 (by decide)
  have hfamily : family twoCoins 1 = [0, 1] := rfl
  have hfit : ∀ u ∈ f.scope, 1 < twoCoins.dimOf u := by
    intro u hu
    rw [hindex.mem_scope, hfamily] at hu
    revert u
    decide +kernel
  obtain ⟨n, p, w, x, hn, hp, hrow, -, -, hzero, -⟩ := hindex.row (fun _ => 1) hfit
  have hentry : twoCoins.entryIndex 1 (fun _ => 1) = 3 := by decide +kernel
  obtain rfl : n = _ := (Option.some.inj hn).symm
  rw [hentry] at hp
  obtain rfl : p = _ := (Option.some.inj hp).symm
  obtain rfl : w = 0 := hzero.2 ⟨rfl, by decide⟩
  exact ⟨e, f, _, _, he, h, hf, rfl, hrow⟩

end BayesCircuit.Encoding
