import BayesCircuit.Encoding.Files
import BayesCircuit.Proofs.Encoding.Mapping
import BayesCircuit.Proofs.Encoding.Numbering
import Mathlib.Data.List.Induction

/-!
# Network exchange files

A factor is stored with the first variable of its scope as the least significant one, but its table
is written while the last wheel of its counter counts (`tableFrom_counter`). The row that is written
at the place of an assignment is the row in which the assignment is stored (`value_counterAt`), so
the table has the entry of every assignment at its place (`Tabulates`).

Numbers are printed without blanks, and a row of words is read as it was put together (`Reads`). So
the file of a network is read as the network (`read?_ofNetwork`), if numbers are read as they were
printed.
-/

namespace BayesCircuit

open InteractionGraph
open Text (IsWord)

/-! ## Readers -/

namespace Exchange

variable {α β : Type} {r : Reader α} {ws ws' : List String} {a : α} {b : β} {n : Nat}

/-- A reader takes these words, whatever comes after them. -/
def Reads (r : Reader α) (ws : List String) (a : α) : Prop :=
  ∀ rest, r (ws ++ rest) = some (a, rest)

theorem Reads.pure : Reads (Pure.pure a) [] a := fun _ => rfl

theorem Reads.bind {f : α → Reader β} (h : Reads r ws a) (h' : Reads (f a) ws' b) :
    Reads (r >>= f) (ws ++ ws') b := by
  intro rest
  have hfirst : r (ws ++ (ws' ++ rest)) = some (a, ws' ++ rest) := h _
  show (r (ws ++ ws' ++ rest)).bind (fun p => f p.1 p.2) = some (b, rest)
  rw [List.append_assoc, hfirst]
  exact h' rest

theorem reads_next {read? : String → Option α} {w : String} (h : read? w = some a) :
    Reads (next read?) [w] a := by
  intro rest
  show (read? w).map (·, rest) = some (a, rest)
  rw [h, Option.map_some]

theorem reads_keyword {w : String} : Reads (keyword w) [w] () := reads_next (if_pos rfl)

theorem reads_natural : Reads natural [toString n] n := reads_next Text.natural?_toString

/-- Things are read one after the other. -/
theorem reads_several {wss : List (List String)} {as : List α}
    (h : List.Forall₂ (Reads r) wss as) : Reads (several r as.length) wss.flatten as := by
  induction h with
  | nil => exact Reads.pure
  | @cons ws a wss as hfirst _ ih =>
      have hrest : Reads (several r as.length >>= fun as => Pure.pure (a :: as))
          (wss.flatten ++ []) (a :: as) := ih.bind Reads.pure
      rw [List.append_nil] at hrest
      exact hfirst.bind hrest

theorem reads_counted {wss : List (List String)} {as : List α}
    (h : List.Forall₂ (Reads r) wss as) :
    Reads (counted r) (toString as.length :: wss.flatten) as :=
  reads_natural.bind (reads_several h)

/-- Words that are read one by one. -/
theorem reads_counted_words {r : Reader α} {word : α → String} (as : List α)
    (h : ∀ a ∈ as, Reads r [word a] a) :
    Reads (counted r) (toString as.length :: as.map word) as := by
  have hall : List.Forall₂ (Reads r) (as.map fun a => [word a]) as := by
    rw [List.forall₂_map_left_iff, List.forall₂_same]
    exact h
  have hflat : (as.map fun a => [word a]).flatten = as.map word := by
    rw [← List.flatMap_def, List.map_eq_flatMap]
  exact hflat ▸ reads_counted hall

/-- The place of an assignment is a number with the last digit as the least significant one. -/
theorem place_eq {dims : List Nat} {scope : List Variable} {ρ : Variable → Nat} :
    place dims scope ρ =
      Counter.number (scope.map (dims.getD · 0)).reverse (scope.map ρ).reverse := by
  induction scope using List.reverseRec with
  | nil => rfl
  | append_singleton us u ih =>
      have hplace : place dims (us ++ [u]) ρ = place dims us ρ * dims.getD u 0 + ρ u := by
        rw [place, List.foldl_append]
        rfl
      rw [hplace, ih, List.map_append, List.map_append, List.reverse_append, List.reverse_append,
        Nat.mul_comm, Nat.add_comm]
      rfl

end Exchange

/-! ## Written tables -/

namespace Encoding

variable {options : EncodingOptions} {net : Network} {e : Encoding} {f : Factor} {v : Variable}
variable {ρ : Variable → Nat} {values : List Float} {text : String}

/-- The entry of a row, as it is written. -/
def rowValue (e : Encoding) (f : Factor) (c : Counter) : Outcome Float := do
  e.weightValue (← fetch f.weights c.value)

/-- A table is written while a counter walks, seen from its last wheel. -/
theorem tableFrom_eq : ∀ {fuel : Nat} {c : Counter}, tableFrom e f (fuel + 1) c =
    (Counter.walkFrom fuel c.reversed).mapM fun d => e.rowValue f d.reversed
  | 0, c => by
      rw [tableFrom, Counter.walkFrom, List.mapM_cons, Counter.reversed_reversed, rowValue, bind_assoc]
      refine bind_congr fun w => bind_congr fun x => ?_
      split
      · rfl
      · rfl
  | fuel + 1, c => by
      rw [tableFrom, Counter.walkFrom, Counter.incrementLast]
      cases hnext : c.reversed.increment with
      | none =>
          rw [List.mapM_cons, Counter.reversed_reversed, rowValue, bind_assoc]
          rfl
      | some d =>
          rw [List.mapM_cons, Counter.reversed_reversed, rowValue, bind_assoc]
          refine bind_congr fun w => bind_congr fun x => ?_
          dsimp only [Option.map_some]
          rw [tableFrom_eq, Counter.reversed_reversed]

/-- The counter of the row that is written at a place of a table. -/
def counterAt (f : Factor) (n : Nat) : Counter :=
  Counter.reversed ⟨Counter.wheelsOf f.dims.reverse n⟩

/-- The table of a factor has its rows in the order of a counter whose last wheel counts. -/
theorem tableFrom_counter (hpos : ∀ d ∈ f.dims, 0 < d) (hrows : f.rows = f.dims.prod) :
    tableFrom e f (max f.rows 1) f.counter =
      (List.range f.rows).mapM fun n => e.rowValue f (counterAt f n) := by
  have hpos' : ∀ d ∈ f.dims.reverse, 0 < d := fun d hd => hpos d (List.mem_reverse.1 hd)
  have hprod : f.dims.reverse.prod = f.rows := by rw [List.prod_reverse, hrows]
  have hrows_pos : 0 < f.rows := hprod ▸ List.prod_pos_iff_forall_pos_nat.2 hpos'
  have hstart : f.counter.reversed = Counter.zero f.dims.reverse := by
    rw [Factor.counter, Counter.reversed, Counter.zero, Counter.zero, List.map_reverse]
  have hwalk : Counter.walkFrom (f.rows - 1) (Counter.zero f.dims.reverse) =
      (List.range f.rows).map fun n => ⟨Counter.wheelsOf f.dims.reverse n⟩ := by
    have hzero : Counter.zero f.dims.reverse = ⟨Counter.wheelsOf f.dims.reverse 0⟩ := by
      rw [Counter.wheelsOf_zero]
      rfl
    rw [hzero, Counter.walkFrom_eq hpos' (hprod ▸ hrows_pos) (by omega), hprod, Nat.sub_zero,
      List.range_eq_range']
  obtain ⟨k, hk⟩ := Nat.exists_eq_add_one.2 hrows_pos
  rw [Nat.max_eq_left hrows_pos, hk, tableFrom_eq, hstart]
  rw [hk, Nat.add_sub_cancel] at hwalk
  rw [hwalk, List.mapM_map]
  rfl

theorem place_dims {scope : List Variable} : Exchange.place net.dims.toList scope ρ =
    Counter.number (scope.map net.dimOf).reverse (scope.map ρ).reverse := by
  have hdim : ∀ u, net.dims.toList.getD u 0 = net.dimOf u := by
    intro u
    rw [Network.dimOf, Array.getD_eq_getD_getElem?, List.getD_eq_getElem?_getD,
      Array.getElem?_toList]
  rw [Exchange.place_eq]
  simp only [hdim]

/-- The row at the place of an assignment is the row of the assignment. -/
theorem value_counterAt (hdims : f.dims = f.scope.map net.dimOf)
    (hρ : ∀ u ∈ f.scope, ρ u < net.dimOf u) :
    (counterAt f (Exchange.place net.dims.toList f.scope ρ)).value =
      Counter.number f.dims (f.scope.map ρ) := by
  have hfit : List.Forall₂ (· < ·) (f.scope.map ρ).reverse (f.scope.map net.dimOf).reverse :=
    List.forall₂_reverse_iff.2 (Counter.fits_map hρ)
  have hlength : (f.scope.map net.dimOf).length = (f.scope.map ρ).length := by
    rw [List.length_map, List.length_map]
  rw [counterAt, place_dims, hdims, Counter.wheelsOf_number hfit, ← List.reverse_zipWith hlength,
    Counter.reversed, List.reverse_reverse]
  rfl

/-- The table of a factor has an entry for every assignment. -/
structure Tabulates (options : EncodingOptions) (net : Network) (v : Variable) (f : Factor)
    (values : List Float) : Prop where
  length : values.length = f.rows
  shows : ∀ x ∈ values, ∃ ρ : Variable → Nat, (∀ u ∈ f.scope, ρ u < net.dimOf u) ∧
    Shows options (net.entryAt v ρ) x
  value : ∀ ρ : Variable → Nat, (∀ u ∈ f.scope, ρ u < net.dimOf u) →
    ∃ x, values[Exchange.place net.dims.toList f.scope ρ]? = some x ∧
      Shows options (net.entryAt v ρ) x

theorem exists_table (hnet : net.WellFormed) (R : Represents options net e)
    (hf : e.factor v = .ok f) : ∃ values, tableFrom e f (max f.rows 1) f.counter = .ok values ∧
      Tabulates options net v f values := by
  obtain ⟨hpos, hv, E⟩ := row_of_factor hnet R hf
  have hnodup : f.scope.Nodup := by
    rw [E.scope]
    exact (strict_sorted_family hnet.linked hv).nodup
  have hdim : ∀ d ∈ f.dims, 0 < d := by
    rw [E.dims, E.scope, List.forall_mem_map]
    exact fun u hu => hnet.dim_pos (hnet.family_lt hv (mem_sorted_family.1 hu))
  have hrows : f.rows = f.dims.prod := E.size
  have hrow : ∀ ρ : Variable → Nat, (∀ u ∈ f.scope, ρ u < net.dimOf u) → ∃ x,
      e.rowValue f (counterAt f (Exchange.place net.dims.toList f.scope ρ)) = .ok x ∧
      Shows options (net.entryAt v ρ) x := by
    intro ρ hρ
    obtain ⟨-, w, hw, hstands⟩ := E.row ρ hρ
    obtain ⟨x, hx, hshows⟩ := weightValue_of_stands hpos hstands
    refine ⟨x, ?_, hshows⟩
    rw [rowValue, value_counterAt E.dims hρ, fetch, hw]
    exact hx
  -- every place is that of an assignment
  have hplace : ∀ n < f.rows, ∃ ρ : Variable → Nat, (∀ u ∈ f.scope, ρ u < net.dimOf u) ∧
      Exchange.place net.dims.toList f.scope ρ = n := by
    intro n hn
    rw [hrows, E.dims] at hn
    obtain ⟨ρ, hρ, hnumber⟩ := exists_assignment hnodup hn
    exact ⟨ρ, hρ, place_dims.trans hnumber⟩
  obtain ⟨values, hvalues⟩ : ∃ values,
      (List.range f.rows).mapM (fun n => e.rowValue f (counterAt f n)) = .ok values := by
    refine Outcome.exists_mapM_ok fun n hn => ?_
    obtain ⟨ρ, hρ, rfl⟩ := hplace n (List.mem_range.1 hn)
    obtain ⟨x, hx, -⟩ := hrow ρ hρ
    exact ⟨x, hx⟩
  have hlength : values.length = f.rows := by
    rw [Outcome.length_of_mapM_ok hvalues, List.length_range]
  refine ⟨values, (tableFrom_counter hdim hrows).trans hvalues, hlength, fun x hx => ?_,
    fun ρ hρ => ?_⟩
  · obtain ⟨n, hn, hx⟩ := (Outcome.mem_of_mapM_ok hvalues).2 x hx
    obtain ⟨ρ, hρ, rfl⟩ := hplace n (List.mem_range.1 hn)
    obtain ⟨y, hy, hshows⟩ := hrow ρ hρ
    obtain rfl := Except.ok.inj (hx.symm.trans hy)
    exact ⟨ρ, hρ, hshows⟩
  · have hlt : Exchange.place net.dims.toList f.scope ρ < f.rows := by
      rw [place_dims, hrows, E.dims, ← List.prod_reverse]
      exact Counter.number_lt (List.forall₂_reverse_iff.2 (Counter.fits_map hρ))
    obtain ⟨x, hx, hshows⟩ := hrow ρ hρ
    have hget := (Outcome.mapM_eq_ok_iff.1 hvalues).get
      (i := Exchange.place net.dims.toList f.scope ρ) (by rwa [List.length_range]) (hlength ▸ hlt)
    rw [List.get_eq_getElem, List.getElem_range, hx] at hget
    refine ⟨x, ?_, hshows⟩
    rw [List.getElem?_eq_getElem (hlength ▸ hlt)]
    exact congrArg some (Except.ok.inj hget).symm

/-! ## Written files -/

theorem words_unlines {ls : List String} : Text.words (unlines ls) = ls.flatMap Text.words := by
  rw [Text.words, toList_unlines]
  induction ls with
  | nil => rfl
  | cons l ls ih =>
      rw [List.flatMap_cons, List.flatMap_cons, List.append_assoc, List.singleton_append,
        Text.wordsFrom_blank (by decide), ih]
      rfl

theorem words_spaced {ns : List Nat} : Text.words (spaced ns) = ns.map toString := by
  refine Text.words_join fun w hw => ?_
  obtain ⟨n, -, rfl⟩ := List.mem_map.1 hw
  exact Text.isWord_toString

/-- The line of a scope. -/
def scopeLine (f : Factor) : String := s!"{f.scope.length} " ++ spaced f.scope

theorem words_scopeLine :
    Text.words (scopeLine f) = toString f.scope.length :: f.scope.map toString := by
  have hline : scopeLine f = toString f.scope.length ++ " " ++ spaced f.scope := rfl
  rw [hline, Text.words_append_blank, Text.isWord_toString.words, words_spaced,
    List.singleton_append]

/-- The line of a table with these values. -/
def valuesLine (f : Factor) (values : List Float) : String :=
  toString f.rows ++ String.join (values.map fun x => " " ++ Decimal.source x)

theorem words_valuesLine :
    Text.words (valuesLine f values) = toString f.rows :: values.map Decimal.source := by
  have hjoin : ∀ s : String, Text.words (s ++ String.join (values.map fun x =>
      " " ++ Decimal.source x)) = Text.words s ++ values.map Decimal.source := by
    induction values with
    | nil =>
        intro s
        simp
    | cons x values ih =>
        intro s
        rw [List.map_cons, String.join_cons, ← String.append_assoc, ← String.append_assoc, ih,
          Text.words_append_blank, (Decimal.isWord_source x).words, List.append_assoc,
          List.singleton_append, List.map_cons]
  rw [valuesLine, hjoin, Text.isWord_toString.words, List.singleton_append]

/-- The words of a file with these tables. -/
theorem exists_toExchangeText {table : Factor → List Float}
    (h : ∀ f ∈ e.factors, tableFrom e f (max f.rows 1) f.counter = .ok (table f)) :
    ∃ text, e.toExchangeText = .ok text ∧ Text.words text =
      "BAYES" :: toString e.variableCount :: e.dims.toList.map toString ++
        toString e.factors.size ::
          e.factors.toList.flatMap (fun f => toString f.scope.length :: f.scope.map toString) ++
        e.factors.toList.flatMap fun f => toString f.rows :: (table f).map Decimal.source := by
  have htables : e.factors.toList.mapM e.tableLine =
      .ok (e.factors.toList.map fun f => valuesLine f (table f)) := by
    refine Outcome.mapM_ok fun f hf => ?_
    rw [tableLine, h f (Array.mem_toList_iff.1 hf)]
    rfl
  have hword : IsWord "BAYES" := by decide
  refine ⟨unlines (["BAYES", toString e.variableCount, spaced e.dims.toList,
    toString e.factors.size] ++ e.factors.toList.map scopeLine ++
      e.factors.toList.map fun f => valuesLine f (table f)),
    Outcome.bind_eq_ok_iff.2 ⟨_, htables, rfl⟩, ?_⟩
  rw [words_unlines, List.flatMap_append, List.flatMap_append, List.flatMap_map, List.flatMap_map]
  simp only [List.flatMap_cons, List.flatMap_nil, hword.words, Text.isWord_toString.words,
    words_spaced, words_valuesLine, words_scopeLine]
  simp

/-- The parts of a written file. -/
def exchange (e : Encoding) (table : Factor → List Float) : Exchange Float where
  dims := e.dims.toList
  functions := e.factors.toList.map fun f => ⟨f.scope, table f⟩

/-- A written file is read if the numbers in its tables are. -/
theorem exists_read?_toExchangeText (real? : String → Option Float) {table : Factor → List Float}
    (hdims : e.variableCount = e.dims.size)
    (htable : ∀ f ∈ e.factors, tableFrom e f (max f.rows 1) f.counter = .ok (table f) ∧
      (table f).length = f.rows ∧ ∀ x ∈ table f, real? (Decimal.source x) = some x) :
    ∃ text, e.toExchangeText = .ok text ∧
      Exchange.read? real? text = some (exchange e table) := by
  obtain ⟨text, htext, hwords⟩ := exists_toExchangeText fun f hf => (htable f hf).1
  have hdims : Exchange.Reads (Exchange.counted Exchange.natural)
      (toString e.variableCount :: e.dims.toList.map toString) e.dims.toList := by
    rw [hdims, ← Array.length_toList]
    exact Exchange.reads_counted_words _ fun _ _ => Exchange.reads_natural
  have hscopes : Exchange.Reads (Exchange.counted (Exchange.counted Exchange.natural))
      (toString e.factors.size ::
        e.factors.toList.flatMap fun f => toString f.scope.length :: f.scope.map toString)
      (e.factors.toList.map (·.scope)) := by
    have hall := Exchange.reads_counted (List.forall₂_map_right_iff.2 (List.forall₂_map_left_iff.2
      (List.forall₂_same.2 fun (f : Factor) (_ : f ∈ e.factors.toList) =>
        Exchange.reads_counted_words f.scope fun _ _ => Exchange.reads_natural)))
    rwa [List.length_map, Array.length_toList, ← List.flatMap_def] at hall
  have htables : Exchange.Reads (Exchange.several (Exchange.counted (Exchange.next real?))
      (e.factors.toList.map (·.scope)).length)
      (e.factors.toList.flatMap fun f => toString f.rows :: (table f).map Decimal.source)
      (e.factors.toList.map table) := by
    have hall := Exchange.reads_several (List.forall₂_map_right_iff.2 (List.forall₂_map_left_iff.2
      (List.forall₂_same.2 fun (f : Factor) (hf : f ∈ e.factors.toList) =>
        Exchange.reads_counted_words (table f) fun x hx => Exchange.reads_next
          ((htable f (Array.mem_toList_iff.1 hf)).2.2 x hx))))
    rw [List.length_map, ← List.flatMap_def] at hall
    rw [List.length_map]
    refine (congrArg (Exchange.Reads _ · _) ?_).mpr hall
    refine List.flatMap_congr fun f hf => ?_
    rw [(htable f (Array.mem_toList_iff.1 hf)).2.1]
  have hread : Exchange.Reads (Exchange.parts real?) _ ⟨e.dims.toList, List.zipWith
      Exchange.Function.mk (e.factors.toList.map (·.scope)) (e.factors.toList.map table)⟩ :=
    Exchange.reads_keyword.bind (hdims.bind (hscopes.bind (htables.bind Exchange.Reads.pure)))
  have hparts := hread []
  rw [List.zipWith_map, List.zipWith_self] at hparts
  refine ⟨text, htext, ?_⟩
  rw [Exchange.read?, hwords]
  simp only [List.append_nil, List.cons_append, List.nil_append, List.append_assoc] at hparts ⊢
  rw [hparts]
  rfl

/-! ## Files of networks -/

/-- A finite number equals itself. -/
theorem beq_self_of_isFinite {x : Float} (h : x.isFinite = true) : (x == x) = true := by
  have hx : x.toModel.unpack.isFinite = true := h
  show (x.toModel.unpack.compare x.toModel.unpack == some .eq) = true
  cases hunpack : x.toModel.unpack with
  | notANumber =>
      rw [hunpack] at hx
      cases hx
  | infinity s =>
      rw [hunpack] at hx
      cases hx
  | zero s => rfl
  | finite s m e hm =>
      have hsame : (compare e e).then (compare m m) = .eq := by
        rw [Std.ReflOrd.compare_self, Std.ReflOrd.compare_self, Ordering.eq_then]
      cases s with
      | positive =>
          show (some ((compare e e).then (compare m m)) == some .eq) = true
          rw [hsame]
          rfl
      | negative =>
          show (some ((compare e e).then (compare m m)).swap == some .eq) = true
          rw [hsame]
          rfl

/-- Every entry of a table is a finite number. -/
def FiniteEntries (net : Network) : Prop :=
  ∀ (v : Variable) (n : Network.Node), net.nodes[v]? = some n →
    ∀ p ∈ n.table, p.toFloat.isFinite = true

/-- The numbers that the file of a network may show are read as they were printed. -/
structure Legible (net : Network) (real? : String → Option Float) : Prop where
  zero : real? (Decimal.source 0.0) = some 0.0
  one : real? (Decimal.source 1.0) = some 1.0
  entry : ∀ (v : Variable) (n : Network.Node), net.nodes[v]? = some n →
    ∀ p ∈ n.table, real? (Decimal.source p.toFloat) = some p.toFloat

/-- A function of an exchange file is the table of a variable. -/
structure IsTable (options : EncodingOptions) (net : Network) (x : Exchange Float) (v : Variable)
    (g : Exchange.Function Float) : Prop where
  nodup : g.scope.Nodup
  mem_scope : ∀ u, u ∈ g.scope ↔ u ∈ family net v
  length : g.table.length = (g.scope.map net.dimOf).prod
  value : ∀ ρ : Variable → Nat, (∀ u ∈ family net v, ρ u < net.dimOf u) → ∃ n p y,
    net.nodes[v]? = some n ∧ n.table[net.entryIndex v ρ]? = some p ∧ x.value? g ρ = some y ∧
    (p.toFloat == y) = true ∧ (options.determinism = false → y = p.toFloat)

theorem read?_of_shows {real? : String → Option Float} {p : Probability} {x : Float}
    {n : Network.Node} (hreal : Legible net real?) (hn : net.nodes[v]? = some n)
    (hp : p ∈ n.table) (h : Shows options p x) : real? (Decimal.source x) = some x := by
  obtain rfl | ⟨-, rfl | rfl, -⟩ := h
  · exact hreal.entry v n hn p hp
  · exact hreal.zero
  · exact hreal.one

theorem isTable_of_tabulates {x : Exchange Float} (hnet : net.WellFormed)
    (hfinite : FiniteEntries net) (R : Represents options net e) (hf : e.factor v = .ok f)
    (hx : x.dims = net.dims.toList) (T : Tabulates options net v f values) :
    IsTable options net x v ⟨f.scope, values⟩ := by
  obtain ⟨-, hv, E⟩ := row_of_factor hnet R hf
  have hmem : ∀ u, u ∈ f.scope ↔ u ∈ family net v := by
    rw [E.scope]
    exact fun u => mem_sorted_family
  refine ⟨?_, hmem, ?_, fun ρ hρ => ?_⟩
  · rw [E.scope]
    exact (strict_sorted_family hnet.linked hv).nodup
  · rw [← E.dims, ← E.size]
    exact T.length
  · obtain ⟨n, hn, hentry⟩ := exists_entryAt hnet hv hρ
    obtain ⟨y, hy, hshows⟩ := T.value ρ fun u hu => hρ u ((hmem u).1 hu)
    refine ⟨n, _, y, hn, hentry, ?_, ?_, fun hd => ?_⟩
    · rw [Exchange.value?, hx]
      exact hy
    · obtain rfl | ⟨-, -, heq⟩ := hshows
      · exact beq_self_of_isFinite (hfinite v n hn _ (Array.mem_of_getElem? hentry))
      · exact heq
    · refine hshows.resolve_right fun h => ?_
      rw [hd] at h
      cases h.1

/-- The exchange file of a network is read as the network. -/
theorem read?_ofNetwork (options : EncodingOptions) (hnet : net.WellFormed)
    (hfinite : FiniteEntries net) {real? : String → Option Float} (hreal : Legible net real?) :
    ∃ e text x, ofNetwork options net = .ok e ∧ e.toExchangeText = .ok text ∧
      Exchange.read? real? text = some x ∧ x.dims = net.dims.toList ∧
      x.functions.length = net.size ∧
      ∀ v < net.size, ∃ g, x.functions[v]? = some g ∧ IsTable options net x v g := by
  obtain ⟨e, he, R⟩ := ofNetwork_spec options hnet
  have hexists : ∀ f, ∃ values, f ∈ e.factors → e.factor f.owner = .ok f ∧
      tableFrom e f (max f.rows 1) f.counter = .ok values ∧
        Tabulates options net f.owner f values := by
    intro f
    by_cases hf : f ∈ e.factors
    · obtain ⟨v, hv⟩ := Array.mem_iff_getElem?.1 hf
      have hv := fetch_eq_ok.2 hv
      obtain rfl : f.owner = v := (row_of_factor hnet R hv).2.2.owner
      obtain ⟨values, hvalues, T⟩ := exists_table hnet R hv
      exact ⟨values, fun _ => ⟨hv, hvalues, T⟩⟩
    · exact ⟨[], fun h => absurd h hf⟩
  choose table htable using hexists
  have hcount : e.variableCount = e.dims.size := by
    rw [variableCount, size_firstLiterals he, R.dims, Network.dims, Array.size_map]
    rfl
  obtain ⟨text, htext, hread⟩ := exists_read?_toExchangeText real? hcount
    fun f hf => by
      obtain ⟨hv, hvalues, T⟩ := htable f hf
      refine ⟨hvalues, T.length, fun x hx => ?_⟩
      obtain ⟨ρ, hρ, hshows⟩ := T.shows x hx
      obtain ⟨-, hlt, E⟩ := row_of_factor hnet R hv
      have hρ' : ∀ u ∈ family net f.owner, ρ u < net.dimOf u := fun u hu => by
        refine hρ u ?_
        rwa [E.scope, mem_sorted_family]
      obtain ⟨n, hn, hentry⟩ := exists_entryAt hnet hlt hρ'
      exact read?_of_shows hreal hn (Array.mem_of_getElem? hentry) hshows
  have hdims : (exchange e table).dims = net.dims.toList := congrArg Array.toList R.dims
  refine ⟨e, text, _, he, htext, hread, hdims, ?_, fun v hv => ?_⟩
  · rw [exchange, List.length_map, Array.length_toList, R.size]
  · obtain ⟨f, hf, E⟩ := R.factor v hv
    have hget := getElem?_of_factor hf
    obtain ⟨-, -, T⟩ := htable f (Array.mem_toList_iff.1 (List.mem_of_getElem? hget))
    refine ⟨⟨f.scope, table f⟩, ?_, isTable_of_tabulates hnet hfinite R hf hdims (E.owner ▸ T)⟩
    rw [exchange, List.getElem?_map, hget, Option.map_some]

/-- The number that a decimal numeral spells. -/
def decimal? (s : String) : Option Float := (Decimal.read? s).map (·.toFloat)

theorem finiteEntries_twoCoins : FiniteEntries twoCoins
  | 0, n, hn => by
      obtain rfl := Option.some.inj hn
      decide +kernel
  | 1, n, hn => by
      obtain rfl := Option.some.inj hn
      decide +kernel
  | v + 2, n, hn => by simp [twoCoins] at hn

theorem legible_twoCoins : Legible twoCoins decimal? where
  zero := by decide +kernel
  one := by decide +kernel
  entry
    | 0, n, hn => by
        obtain rfl := Option.some.inj hn
        decide +kernel
    | 1, n, hn => by
        obtain rfl := Option.some.inj hn
        decide +kernel
    | v + 2, n, hn => by simp [twoCoins] at hn

/-- The table of the second coin has the first coin as its most significant variable: two tails are
its last entry. -/
theorem read?_ofNetwork_twoCoins : twoCoins.WellFormed ∧ FiniteEntries twoCoins ∧
    Legible twoCoins decimal? ∧ ∃ e text x g y, ofNetwork ⟨true, true⟩ twoCoins = .ok e ∧
      e.toExchangeText = .ok text ∧ Exchange.read? decimal? text = some x ∧
      x.functions[1]? = some g ∧ IsTable ⟨true, true⟩ twoCoins x 1 g ∧
      x.value? g (fun _ => 1) = some y ∧ ((0.0 : Float) == y) = true := by
  obtain ⟨e, text, x, he, htext, hread, -, -, hall⟩ :=
    read?_ofNetwork ⟨true, true⟩ wellFormed_twoCoins finiteEntries_twoCoins legible_twoCoins
  obtain ⟨g, hg, htable⟩ := hall 1 (by decide)
  have hfit : ∀ u ∈ family twoCoins 1, 1 < twoCoins.dimOf u := by decide +kernel
  obtain ⟨n, p, y, hn, hp, hy, heq, -⟩ := htable.value (fun _ => 1) hfit
  have hentry : twoCoins.entryIndex 1 (fun _ => 1) = 3 := by decide +kernel
  obtain rfl : n = _ := (Option.some.inj hn).symm
  rw [hentry] at hp
  obtain rfl : p = _ := (Option.some.inj hp).symm
  exact ⟨wellFormed_twoCoins, finiteEntries_twoCoins, legible_twoCoins, e, text, x, g, y, he, htext,
    hread, hg, htable, hy, heq⟩

end Encoding
end BayesCircuit
