import BayesCircuit.Multigraph.Text
import BayesCircuit.Proofs.Encoding.Mapping
import BayesCircuit.Proofs.Multigraph.Closed
import BayesCircuit.Proofs.Multigraph.Search
import BayesCircuit.Proofs.Text
import Mathlib.Data.Set.Function

/-!
# Dumps are faithful

A `Dump` is what the text of a dumped multigraph says: a header, and a `Record` for each node with
the lines that its edges lead to and their labels. A `Spelling` says what is shown of a label and in
which words. Lists of weights are shown as they are (`Weights.spelling`); of a probability, its
decimal text is shown unless it is one (`Probability.spelling`). A dump that has been written in the
words of a spelling is read back (`Spelling.read?_text`).

The text of a multigraph is that of a dump with a record for each node below the root, in preorder.
Each edge of a record leads to the line of the node that the edge of the multigraph leads to, since
the lines are numbered as the nodes are found (`lineOf_of_getElem?`) and edges of a compiled
multigraph lead nowhere else (`compile_closed`). So the records are a graph that is isomorphic to the
part below the root (`Depicts`, `dump_depicts`).
-/

namespace BayesCircuit.Multigraph

variable {W L : Type}

/-- What the line of a node says: its variable, its kind, and for each edge the line that the edge
leads to and the label. -/
structure Record (L : Type) where
  owner : Variable
  kind : Kind
  edges : List (Nat × L)

/-- What a dump says. The record of a node that is described on line `k` comes after `k - 1` others,
since line zero is that of the terminal. -/
structure Dump (L : Type) where
  branches : Bool
  nodeCount : Nat
  edgeCount : Nat
  records : List (Record L)

/-- What is shown of the labels of edges, and the words for it, which stand after their number and
can be read back. -/
structure Spelling (label : EdgeLabel W) (L : Type) where
  shown : W → L
  words : L → List String
  read? : List String → Option L
  dump (w : W) : label.dump w = toString (words (shown w)).length :: words (shown w)
  isWord (w : W) : ∀ s ∈ words (shown w), Text.IsWord s
  read?_words (w : W) : read? (words (shown w)) = some (shown w)

/-! ## Writing -/

/-- The word for a kind. -/
def Kind.word : Kind → String
  | .and => "*"
  | .or => "+"

/-- The word that says whether some layer branches. -/
def shapeWord (branches : Bool) : String := if branches then "tree" else "chain"

/-- The words for an edge. -/
def edgeWords (words : L → List String) (e : Nat × L) : List String :=
  toString e.1 :: toString (words e.2).length :: words e.2

/-- The words of the line of a node. -/
def Record.words (words : L → List String) (r : Record L) : List String :=
  r.kind.word :: toString r.owner :: toString r.edges.length :: r.edges.flatMap (edgeWords words)

/-- The words of the header. -/
def Dump.header (d : Dump L) : List String :=
  ["multigraph", shapeWord d.branches, toString d.nodeCount, toString d.edgeCount]

/-- The words of the lines: those of the header, of the terminal and of the nodes. -/
def Dump.lines (words : L → List String) (d : Dump L) : List (List String) :=
  d.header :: ["0", "0"] :: d.records.map (Record.words words)

/-- The text of a dump. There is one blank between the words of a line. -/
def Dump.text (words : L → List String) (d : Dump L) : String :=
  Encoding.unlines ((d.lines words).map (Text.join " "))

/-! ## Reading -/

/-- Read a number. -/
def number? (s : String) : Option Nat := Text.natural? s.toList

/-- Read a kind. -/
def kind? (s : String) : Option Kind :=
  if s = Kind.and.word then some .and else if s = Kind.or.word then some .or else none

/-- Read whether some layer branches. -/
def branches? (s : String) : Option Bool :=
  if s = shapeWord true then some true else if s = shapeWord false then some false else none

/-- Read the given number of edges, and nothing after them. -/
def edges? (read? : List String → Option L) : Nat → List String → Option (List (Nat × L))
  | 0, [] => some []
  | n + 1, line :: count :: ws => do
      let line ← number? line
      let count ← number? count
      guard (count ≤ ws.length)
      let l ← read? (ws.take count)
      let rest ← edges? read? n (ws.drop count)
      return (line, l) :: rest
  | _, _ => none

/-- Read the line of a node. -/
def record? (read? : List String → Option L) : List String → Option (Record L)
  | kind :: owner :: count :: ws => do
      let kind ← kind? kind
      let owner ← number? owner
      let count ← number? count
      let edges ← edges? read? count ws
      return ⟨owner, kind, edges⟩
  | _ => none

/-- Read the lines of a dump. -/
def dump? (read? : List String → Option L) : List (List String) → Option (Dump L)
  | [word, shape, nodes, edges] :: terminal :: records => do
      guard (word = "multigraph" ∧ terminal = ["0", "0"])
      let branches ← branches? shape
      let nodeCount ← number? nodes
      let edgeCount ← number? edges
      let records ← records.mapM (record? read?)
      return ⟨branches, nodeCount, edgeCount, records⟩
  | _ => none

/-- Read a dump. -/
def Dump.read? (read? : List String → Option L) (text : String) : Option (Dump L) :=
  dump? read? ((Text.lines text).map Text.words)

/-! ## Reading what has been written -/

theorem number?_toString (n : Nat) : number? (toString n) = some n := Text.natural?_toString

theorem kind?_word (k : Kind) : kind? k.word = some k := by
  cases k <;> rfl

theorem branches?_shapeWord (b : Bool) : branches? (shapeWord b) = some b := by
  cases b <;> rfl

/-- Results that are read one by one from what has been written. -/
theorem mapM_map_eq_some {α β : Type} {write : α → β} {read? : β → Option α} :
    ∀ {xs : List α}, (∀ x ∈ xs, read? (write x) = some x) → (xs.map write).mapM read? = some xs
  | [], _ => rfl
  | x :: xs, h => by
      obtain ⟨hx, hxs⟩ := List.forall_mem_cons.1 h
      rw [List.map_cons, List.mapM_cons, hx, mapM_map_eq_some hxs]
      rfl

theorem isWord_word (k : Kind) : Text.IsWord k.word := by
  cases k <;> decide

theorem isWord_shapeWord (b : Bool) : Text.IsWord (shapeWord b) := by
  cases b <;> decide

namespace Spelling

variable {label : EdgeLabel W} (S : Spelling label L) {d : Dump L} {r : Record L}

/-- Whether all labels of some edges are shown labels. -/
def Covers (es : List (Nat × L)) : Prop := ∀ e ∈ es, ∃ w, S.shown w = e.2

theorem edges?_words : ∀ {es}, S.Covers es →
    edges? S.read? es.length (es.flatMap (edgeWords S.words)) = some es
  | [], _ => rfl
  | (line, l) :: es, h => by
      obtain ⟨⟨w, rfl⟩, hes⟩ := List.forall_mem_cons.1 h
      rw [List.flatMap_cons, edgeWords, List.length_cons]
      simp only [List.cons_append, edges?, number?_toString, Option.bind_eq_bind, Option.bind_some,
        List.length_append, Nat.le_add_right, guard_true, Option.pure_def, List.take_left,
        List.drop_left, S.read?_words w, edges?_words hes]

theorem record?_words (h : S.Covers r.edges) : record? S.read? (r.words S.words) = some r := by
  simp only [Record.words, record?, kind?_word, number?_toString, S.edges?_words h,
    Option.bind_eq_bind, Option.bind_some, Option.pure_def]

theorem dump?_lines (h : ∀ r ∈ d.records, S.Covers r.edges) :
    dump? S.read? (d.lines S.words) = some d := by
  have hrecords := mapM_map_eq_some fun r hr => S.record?_words (h r hr)
  simp only [Dump.lines, Dump.header, dump?, and_self, guard_true, branches?_shapeWord,
    number?_toString, hrecords, Option.bind_eq_bind, Option.bind_some, Option.pure_def]

theorem isWord_of_mem_words (h : S.Covers r.edges) : ∀ s ∈ r.words S.words, Text.IsWord s := by
  have hnumber : ∀ n : Nat, Text.IsWord (toString n) := fun _ => Text.isWord_toString
  have hedges : ∀ s ∈ r.edges.flatMap (edgeWords S.words), Text.IsWord s := by
    intro s hs
    obtain ⟨e, he, hs⟩ := List.mem_flatMap.1 hs
    obtain ⟨w, hw⟩ := h e he
    have hlabel : ∀ s ∈ S.words e.2, Text.IsWord s := hw ▸ S.isWord w
    exact List.forall_mem_cons.2 ⟨hnumber _, List.forall_mem_cons.2 ⟨hnumber _, hlabel⟩⟩ s hs
  exact List.forall_mem_cons.2 ⟨isWord_word r.kind, List.forall_mem_cons.2 ⟨hnumber _,
    List.forall_mem_cons.2 ⟨hnumber _, hedges⟩⟩⟩

theorem isWord_of_mem_lines (h : ∀ r ∈ d.records, S.Covers r.edges) :
    ∀ ws ∈ d.lines S.words, ∀ s ∈ ws, Text.IsWord s := by
  have hterminal : ∀ s ∈ ["0", "0"], Text.IsWord s := fun s hs => by
    obtain rfl : s = "0" := by simpa using hs
    decide
  have hheader : ∀ s ∈ d.header, Text.IsWord s := by
    intro s hs
    simp only [Dump.header, List.mem_cons, List.not_mem_nil, or_false] at hs
    rcases hs with rfl | rfl | rfl | rfl
    · decide
    · exact isWord_shapeWord d.branches
    · exact Text.isWord_toString
    · exact Text.isWord_toString
  exact List.forall_mem_cons.2 ⟨hheader, List.forall_mem_cons.2 ⟨hterminal,
    List.forall_mem_map.2 fun r hr => S.isWord_of_mem_words (h r hr)⟩⟩

/-- A dump that shows labels is read as it was written. -/
theorem read?_text (h : ∀ r ∈ d.records, S.Covers r.edges) :
    Dump.read? S.read? (d.text S.words) = some d := by
  have hwords := S.isWord_of_mem_lines h
  have hlines : Text.lines (d.text S.words) = (d.lines S.words).map (Text.join " ") := by
    refine Text.lines_of_feeds Encoding.toList_unlines (List.forall_mem_map.2 fun ws hws => ?_)
    exact Text.isLine_join fun s hs => (hwords ws hws s hs).isLine
  have hcut : ((d.lines S.words).map (Text.join " ")).map Text.words = d.lines S.words := by
    rw [List.map_map]
    exact (List.map_congr_left fun ws hws => Text.words_join (hwords ws hws)).trans (List.map_id _)
  rw [Dump.read?, hlines, hcut, S.dump?_lines h]

end Spelling

end BayesCircuit.Multigraph

/-! ## Labels -/

namespace BayesCircuit

open Multigraph

/-- Lists of weights are written as they are. -/
def Weights.spelling : Spelling Weights.label Weights where
  shown ws := ws
  words ws := ws.map toString
  read? := List.mapM number?
  dump ws := by rw [List.length_map]; rfl
  isWord ws := List.forall_mem_map.2 fun _ _ => Text.isWord_toString
  read?_words ws := mapM_map_eq_some fun w _ => number?_toString w

example : Dump.text Weights.spelling.words ⟨false, 4, 6, [⟨0, .or, [(2, [5]), (3, [6])]⟩,
    ⟨1, .or, [(0, [7]), (0, [8])]⟩, ⟨1, .or, [(0, [9]), (0, [10])]⟩]⟩ =
    "multigraph chain 4 6\n0 0\n+ 0 2 2 1 5 3 1 6\n+ 1 2 0 1 7 0 1 8\n+ 1 2 0 1 9 0 1 10\n" := by
  decide +kernel

/-- A probability is written as a decimal number unless it is one. -/
def Probability.spelling : Spelling Probability.label (Option String) where
  shown p := if p.toFloat == 1.0 then none else some p.source
  words := Option.toList
  read? ws := some ws.head?
  dump p := by
    have hone : toString 1 = "1" := by decide
    simp only [Probability.label]
    split
    · rfl
    · rw [Option.toList_some, List.length_singleton, hone]
  isWord p := by
    split
    · exact fun s hs => absurd hs List.not_mem_nil
    · exact List.forall_mem_singleton.2 (Decimal.isWord_source p.toFloat)
  read?_words p := by
    split <;> rfl

end BayesCircuit

namespace BayesCircuit.Multigraph

variable {W L : Type} {g : Multigraph W} {id a : NodeId} {lines : Array (Array Nat)} {k j : Nat}
variable {ids : List NodeId} {n : Node W} {label : EdgeLabel W}

/-! ## Line numbers -/

/-- Whether there is room for the line of a node. -/
def Holds (lines : Array (Array Nat)) (id : NodeId) : Prop :=
  ∃ row, lines[id.layer]? = some row ∧ id.index < row.size

/-- Set the line of a node. -/
def setLine (lines : Array (Array Nat)) (id : NodeId) (line : Nat) : Array (Array Nat) :=
  lines.modify id.layer (·.setIfInBounds id.index line)

theorem holds_setLine : Holds (setLine lines a k) id ↔ Holds lines id := by
  rw [Holds, setLine, Array.getElem?_modify]
  split
  · constructor
    · rintro ⟨_, hset, hindex⟩
      obtain ⟨row, hrow, rfl⟩ := Option.map_eq_some_iff.1 hset
      exact ⟨row, hrow, by simpa using hindex⟩
    · rintro ⟨row, hrow, hindex⟩
      exact ⟨_, Option.map_eq_some_iff.2 ⟨row, hrow, rfl⟩, by simpa using hindex⟩
  · rfl

theorem lineOf_setLine_self (h : Holds lines id) : lineOf (setLine lines id k) id = k := by
  obtain ⟨row, hrow, hindex⟩ := h
  simp [lineOf, setLine, Array.getD_eq_getD_getElem?, Array.getElem?_modify, hrow, hindex]

theorem lineOf_setLine_of_ne (h : id ≠ a) : lineOf (setLine lines a k) id = lineOf lines id := by
  simp only [lineOf, setLine, Array.getD_eq_getD_getElem?, Array.getElem?_modify]
  split
  · rename_i hlayer
    have hindex : a.index ≠ id.index := by
      intro hindex
      apply h
      cases id
      cases a
      simp_all
    cases lines[id.layer]? with
    | none => rfl
    | some row => simp [Array.getElem?_setIfInBounds_ne hindex]
  · rfl

/-- The lines after the nodes of a list are given numbers from `k + 1` on. -/
def numberFrom (k : Nat) (ids : List NodeId) (lines : Array (Array Nat)) : Array (Array Nat) :=
  (ids.zipIdx k).foldl (fun lines (id, i) => setLine lines id (i + 1)) lines

theorem lineOf_numberFrom_of_notMem : ∀ {ids : List NodeId} {k lines}, id ∉ ids →
    lineOf (numberFrom k ids lines) id = lineOf lines id
  | [], _, _, _ => rfl
  | a :: ids, k, lines, h => by
      obtain ⟨hne, hrest⟩ := not_or.1 (mt List.mem_cons.2 h)
      exact (lineOf_numberFrom_of_notMem hrest).trans (lineOf_setLine_of_ne hne)

theorem lineOf_numberFrom : ∀ {ids : List NodeId} {k lines j}, ids.Nodup →
    (∀ id ∈ ids, Holds lines id) → ids[j]? = some id → lineOf (numberFrom k ids lines) id = k + j + 1
  | [], _, _, j, _, _, hj => by simp at hj
  | a :: ids, k, lines, 0, hnodup, hholds, hj => by
      obtain rfl := Option.some.inj hj
      have hnew := (List.nodup_cons.1 hnodup).1
      exact (lineOf_numberFrom_of_notMem hnew).trans
        (lineOf_setLine_self (hholds a (List.mem_cons_self ..)))
  | a :: ids, k, lines, j + 1, hnodup, hholds, hj => by
      have hrest := @lineOf_numberFrom ids (k + 1) (setLine lines a (k + 1)) j
        (List.nodup_cons.1 hnodup).2
        (fun id hid => holds_setLine.2 (hholds id (List.mem_cons_of_mem _ hid))) hj
      rw [show k + (j + 1) + 1 = k + 1 + j + 1 by omega]
      exact hrest

/-- The nodes below the root are numbered as they are found. -/
theorem lineOf_of_getElem? (h : g.descendants[j]? = some id) : lineOf g.lineNumbers id = j + 1 := by
  obtain ⟨hnodup, hmem⟩ := g.descendants_spec
  have hline := @lineOf_numberFrom id g.descendants 0
    (g.levels.map fun l => Array.replicate l.nodes.size 0) j hnodup (fun id hid => ?_) h
  · rwa [Nat.zero_add] at hline
  · obtain ⟨l, hl, hindex⟩ := isSome_node?.1 ((hmem id).1 hid).inner.2
    rw [Array.getElem?_toList] at hl
    exact ⟨Array.replicate l.nodes.size 0, by simp [hl], by simpa using hindex⟩

/-- All other nodes have the line of the terminal. -/
theorem lineOf_of_notMem (h : id ∉ g.descendants) : lineOf g.lineNumbers id = 0 := by
  refine (lineOf_numberFrom_of_notMem h).trans ?_
  simp only [lineOf, Array.getD_eq_getD_getElem?, Array.getElem?_map]
  cases g.levels[id.layer]? with
  | none => rfl
  | some l =>
      rw [Option.map_some, Option.getD_some, Array.getElem?_replicate]
      split <;> rfl

/-! ## What is dumped -/

/-- The nodes that are dumped. -/
def dumped (g : Multigraph W) : List (Node W) := g.descendants.filterMap g.node?

/-- The record of a node. -/
def Spelling.recordOf (S : Spelling label L) (g : Multigraph W) (n : Node W) : Record L :=
  ⟨n.owner, n.kind, n.edges.map fun e => (lineOf g.lineNumbers e.target, S.shown e.label)⟩

/-- What the dump of a multigraph says. -/
def Spelling.dumpOf (S : Spelling label L) (g : Multigraph W) : Dump L where
  branches := g.branches
  nodeCount := g.dumped.length + 1
  edgeCount := (g.dumped.map fun n => n.edges.length).sum
  records := g.dumped.map (S.recordOf g)

/-- Counting nodes counts them and their edges. -/
theorem foldl_add (weightCount : W → Nat) : ∀ (ns : List (Node W)) (s : Size),
    (ns.foldl (Size.add weightCount) s).nodes = s.nodes + ns.length ∧
      (ns.foldl (Size.add weightCount) s).edges = s.edges + (ns.map fun n => n.edges.length).sum
  | [], s => ⟨rfl, rfl⟩
  | n :: ns, s => by
      obtain ⟨hnodes, hedges⟩ := foldl_add weightCount ns (s.add weightCount n)
      have hn : (s.add weightCount n).nodes = s.nodes + 1 ∧
          (s.add weightCount n).edges = s.edges + n.edges.length := by
        unfold Size.add
        cases n.kind <;> exact ⟨rfl, rfl⟩
      rw [List.foldl_cons, hnodes, hedges, hn.1, hn.2, List.length_cons, List.map_cons,
        List.sum_cons]
      omega

/-- The words of a node are those of its record. -/
theorem nodeWords_eq (S : Spelling label L) :
    nodeWords label g.lineNumbers n = (S.recordOf g n).words S.words := by
  simp only [nodeWords, Record.words, Spelling.recordOf, List.length_map, List.flatMap_map,
    edgeWords, S.dump]
  cases n.kind <;> rfl

/-- The size is that of the nodes that are dumped. -/
theorem size_dumped (weightCount : W → Nat) : (g.size weightCount).nodes = g.dumped.length ∧
    (g.size weightCount).edges = (g.dumped.map fun n => n.edges.length).sum := by
  obtain ⟨hnodes, hedges⟩ := foldl_add weightCount g.dumped ⟨0, 0, 0, 0, 0, 0⟩
  exact ⟨hnodes.trans (Nat.zero_add _), hedges.trans (Nat.zero_add _)⟩

/-- The text of a multigraph is that of its dump. -/
theorem toDumpText_eq (S : Spelling label L) :
    g.toDumpText label = (S.dumpOf g).text S.words := by
  obtain ⟨hnodes, hedges⟩ := g.size_dumped label.weightCount
  have hterminal : ("\n0 0\n" : String) = "\n" ++ Text.join " " ["0", "0"] ++ "\n" := by decide
  have hstart : "multigraph " ++ shapeWord g.branches ++ " " ++ toString (g.dumped.length + 1) ++
      " " ++ toString (S.dumpOf g).edgeCount ++ "\n0 0\n" =
        "" ++ Text.join " " (S.dumpOf g).header ++ "\n" ++ Text.join " " ["0", "0"] ++ "\n" := by
    rw [hterminal]
    simp [Dump.header, Text.join, Spelling.dumpOf, String.append_assoc]
  rw [Dump.text, Dump.lines, List.map_cons, List.map_cons, Encoding.unlines, List.foldl_cons,
    List.foldl_cons, ← hstart, Spelling.dumpOf, List.map_map, List.map_map, List.foldl_map]
  simp only [toDumpText, hnodes, hedges, nodeWords_eq S]
  rfl

/-- The labels of a dump are labels of the multigraph. -/
theorem covers_dumpOf (S : Spelling label L) : ∀ r ∈ (S.dumpOf g).records, S.Covers r.edges := by
  intro r hr
  obtain ⟨n, -, rfl⟩ := List.mem_map.1 hr
  exact List.forall_mem_map.2 fun e _ => ⟨e.label, rfl⟩

/-! ## Lines and nodes -/

/-- The node that is described on a line. -/
def nodeAt (g : Multigraph W) (k : Nat) : NodeId :=
  (g.terminal :: g.descendants).getD k g.terminal

theorem nodeAt_succ (h : g.descendants[k]? = some id) : g.nodeAt (k + 1) = id := by
  rw [nodeAt, List.getD_cons_succ, List.getD_eq_getElem?_getD, h, Option.getD_some]

/-- The nodes that are dumped are those below the root, one by one. -/
theorem map_node?_descendants : g.descendants.map g.node? = g.dumped.map some := by
  have hall : ∀ ids : List NodeId, (∀ id ∈ ids, (g.node? id).isSome = true) →
      ids.map g.node? = (ids.filterMap g.node?).map some := by
    intro ids
    induction ids with
    | nil => exact fun _ => rfl
    | cons id ids ih =>
        intro h
        obtain ⟨hid, hids⟩ := List.forall_mem_cons.1 h
        obtain ⟨n, hn⟩ := Option.isSome_iff_exists.1 hid
        rw [List.map_cons, List.filterMap_cons_some hn, List.map_cons, hn, ih hids]
  exact hall _ fun id hid => ((g.descendants_spec.2 id).1 hid).inner.2

theorem length_dumped : g.dumped.length = g.descendants.length := by
  rw [← List.length_map (f := some), ← map_node?_descendants, List.length_map]

theorem node?_of_dumped (h : g.dumped[k]? = some n) :
    ∃ id, g.descendants[k]? = some id ∧ g.node? id = some n := by
  have hk : (g.descendants.map g.node?)[k]? = some (some n) := by
    rw [map_node?_descendants, List.getElem?_map, h]
    rfl
  rw [List.getElem?_map] at hk
  exact Option.map_eq_some_iff.1 hk

theorem terminal_notMem : g.terminal ∉ g.descendants :=
  fun h => ((g.descendants_spec.2 _).1 h).inner.1 rfl

/-- The line of a node below the root, or of the terminal, is the one on which it is described. -/
theorem nodeAt_lineOf (h : id = g.terminal ∨ g.Reached id) :
    g.nodeAt (lineOf g.lineNumbers id) = id ∧ lineOf g.lineNumbers id < g.dumped.length + 1 := by
  rcases h with rfl | h
  · rw [lineOf_of_notMem terminal_notMem]
    exact ⟨rfl, Nat.zero_lt_succ _⟩
  · obtain ⟨j, hj⟩ := List.mem_iff_getElem?.1 ((g.descendants_spec.2 id).2 h)
    obtain ⟨hlt, -⟩ := List.getElem?_eq_some_iff.1 hj
    rw [lineOf_of_getElem? hj, length_dumped]
    exact ⟨nodeAt_succ hj, Nat.succ_lt_succ hlt⟩

/-- Lines and nodes below the root correspond. -/
theorem bijOn_nodeAt : Set.BijOn (fun k => g.nodeAt (k + 1)) {k | k < g.dumped.length}
    {id | g.Reached id} := by
  obtain ⟨hnodup, hmem⟩ := g.descendants_spec
  have hget : ∀ k, k < g.dumped.length → ∃ id, g.descendants[k]? = some id := fun k hk =>
    ⟨_, List.getElem?_eq_getElem (length_dumped ▸ hk)⟩
  refine ⟨fun k hk => ?_, fun j hj k hk he => ?_, fun id hid => ?_⟩
  · obtain ⟨id, hid⟩ := hget k hk
    show g.Reached (g.nodeAt (k + 1))
    rw [nodeAt_succ hid]
    exact (hmem id).1 (List.mem_of_getElem? hid)
  · obtain ⟨a, ha⟩ := hget j hj
    obtain ⟨b, hb⟩ := hget k hk
    have he : a = b := (nodeAt_succ ha).symm.trans (he.trans (nodeAt_succ hb))
    obtain ⟨hlt, -⟩ := List.getElem?_eq_some_iff.1 ha
    exact (List.getElem?_inj hlt hnodup).1 (ha.trans (he ▸ hb.symm))
  · obtain ⟨k, hk⟩ := List.mem_iff_getElem?.1 ((hmem id).2 hid)
    obtain ⟨hlt, -⟩ := List.getElem?_eq_some_iff.1 hk
    exact ⟨k, length_dumped ▸ hlt, nodeAt_succ hk⟩

theorem map_nodeAt : (List.range g.dumped.length).map (fun k => g.nodeAt (k + 1)) =
    g.descendants := by
  refine List.ext_getElem (by rw [List.length_map, List.length_range, length_dumped])
    fun k _ hk => ?_
  rw [List.getElem_map, List.getElem_range]
  exact nodeAt_succ (List.getElem?_eq_getElem hk)

/-! ## Dumps of multigraphs -/

/-- The records of a dump are a graph that is isomorphic to the part of a multigraph below the root:
`φ` takes line zero to the terminal, line one to the root and the other lines to the other nodes, one
to one, and it takes the edges of each record to those of the node. -/
structure Dump.Isomorphism (shown : W → L) (d : Dump L) (g : Multigraph W) (φ : Nat → NodeId) :
    Prop where
  terminal : φ 0 = g.terminal
  root : g.root = if d.records.isEmpty then none else some (φ 1)
  nodes : Set.BijOn (fun k => φ (k + 1)) {k | k < d.records.length} {id | g.Reached id}
  record : ∀ k r, d.records[k]? = some r → ∃ n, g.node? (φ (k + 1)) = some n ∧
    r.owner = n.owner ∧ r.kind = n.kind ∧
    r.edges.map (fun e => (φ e.1, e.2)) = n.edges.map fun e => (e.target, shown e.label)

/-- The text of a multigraph is that of a dump, and this dump is read from it. It has the right
header, its edges lead to its lines, and its records are those of the nodes below the root, in
preorder. -/
structure Depicts (S : Spelling label L) (g : Multigraph W) (d : Dump L) (φ : Nat → NodeId) :
    Prop where
  text : g.toDumpText label = d.text S.words
  read : Dump.read? S.read? (g.toDumpText label) = some d
  branches : d.branches = g.branches
  nodeCount : d.nodeCount = d.records.length + 1
  edgeCount : d.edgeCount = (d.records.map fun r => r.edges.length).sum
  line_lt : ∀ r ∈ d.records, ∀ e ∈ r.edges, e.1 < d.nodeCount
  preorder : ∀ order, Preorder g [] g.root.toList order ↔
    order = (List.range d.records.length).map fun k => φ (k + 1)
  isomorphism : d.Isomorphism S.shown g φ

/-- The root, if there is one, and whatever the edges of the nodes below it lead to are below the
root, except that edges may lead to the terminal. -/
structure Confined (g : Multigraph W) : Prop where
  root : ∀ id, g.root = some id → g.Inner id
  target : ∀ id n, g.Reached id → g.node? id = some n → ∀ e ∈ n.edges,
    e.target = g.terminal ∨ g.Reached e.target

/-- The first line of a node is that of the root. -/
theorem root_eq (h : ∀ id, g.root = some id → g.Inner id) :
    g.root = if g.descendants.isEmpty then none else some (g.nodeAt 1) := by
  have hpre : Preorder g [] g.root.toList g.descendants := preorder_descendants
  cases hroot : g.root with
  | none =>
      rw [hroot] at hpre
      rw [hpre.unique .nil]
      rfl
  | some id =>
      rw [hroot] at hpre
      obtain ⟨below, hbelow⟩ := hpre.head (h id hroot)
      have hfirst : g.descendants[0]? = some id := by
        rw [hbelow]
        rfl
      rw [nodeAt_succ hfirst, hbelow]
      rfl

/-- The records of the dump of a multigraph are isomorphic to what is dumped. -/
theorem isomorphism_dumpOf (G : g.Confined) (S : Spelling label L) :
    (S.dumpOf g).Isomorphism S.shown g g.nodeAt where
  terminal := rfl
  root := by
    have hempty : (S.dumpOf g).records.isEmpty = g.descendants.isEmpty := by
      rw [Bool.eq_iff_iff, List.isEmpty_iff_length_eq_zero, List.isEmpty_iff_length_eq_zero,
        Spelling.dumpOf, List.length_map, length_dumped]
    rw [hempty]
    exact root_eq G.root
  nodes := by
    rw [Spelling.dumpOf, List.length_map]
    exact bijOn_nodeAt
  record k r hr := by
    rw [Spelling.dumpOf, List.getElem?_map] at hr
    obtain ⟨n, hn, rfl⟩ := Option.map_eq_some_iff.1 hr
    obtain ⟨id, hid, hnode⟩ := node?_of_dumped hn
    have hreached := (g.descendants_spec.2 id).1 (List.mem_of_getElem? hid)
    refine ⟨n, by rw [nodeAt_succ hid, hnode], rfl, rfl, ?_⟩
    rw [Spelling.recordOf, List.map_map]
    refine List.map_congr_left fun e he => ?_
    exact congrArg (·, S.shown e.label) (nodeAt_lineOf (G.target id n hreached hnode e he)).1

theorem depicts_dumpOf (G : g.Confined) (S : Spelling label L) :
    Depicts S g (S.dumpOf g) g.nodeAt where
  text := toDumpText_eq S
  read := by rw [toDumpText_eq S, S.read?_text (covers_dumpOf S)]
  branches := rfl
  nodeCount := by rw [Spelling.dumpOf, List.length_map]
  edgeCount := by simp [Spelling.dumpOf, Spelling.recordOf, Function.comp_def]
  line_lt r hr e he := by
    obtain ⟨n, hn, rfl⟩ := List.mem_map.1 hr
    obtain ⟨edge, hedge, rfl⟩ := List.mem_map.1 he
    obtain ⟨id, hid, hnode⟩ := List.mem_filterMap.1 hn
    have hreached := (g.descendants_spec.2 id).1 hid
    exact (nodeAt_lineOf (G.target id n hreached hnode edge hedge)).2
  preorder order := by
    rw [Spelling.dumpOf, List.length_map, map_nodeAt]
    exact ⟨fun h => h.unique preorder_descendants, fun h => h ▸ preorder_descendants⟩
  isomorphism := isomorphism_dumpOf G S

variable [DecidableEq W] [Hashable W]

/-- The edges of a compiled multigraph stay below the root. -/
theorem confined_compile {p : Plan W} {b : Bound} {q : PseudoTree} {e : Encoding}
    {sharing expired : Bool} (ht : SpanningTree.ofPseudoTree b q e = .ok p.tree)
    (hg : compile (p.source sharing) expired = .ok g) : g.Confined := by
  obtain ⟨hroot, hclosed⟩ := compile_closed ht hg
  refine ⟨hroot, fun id n hid hn e he => (hclosed id n hn e he).imp_right fun hinner => ?_⟩
  have hedge : e ∈ g.edgesOf id := by
    rw [edgesOf, hn]
    exact he
  exact .edge hid hedge hinner

/-- The dump of a compiled spanning tree is faithful, whether the labels are lists of weights or
probabilities. -/
theorem compile_depicts {b : Bound} {q : PseudoTree} {e e' : Encoding} {t : SpanningTree}
    {sharing expired : Bool} (ht : SpanningTree.ofPseudoTree b q e' = .ok t) :
    (∀ g, compile ⟨t, e, Weights.label.toLabelAlgebra, sharing⟩ expired = .ok g →
      ∃ d φ, Depicts Weights.spelling g d φ) ∧
    (∀ g, compile ⟨t, e, Probability.label.toLabelAlgebra, sharing⟩ expired = .ok g →
      ∃ d φ, Depicts Probability.spelling g d φ) := by
  refine ⟨fun g hg => ?_, fun g hg => ?_⟩
  · have G : g.Confined := confined_compile (p := ⟨t, e, Weights.label.toLabelAlgebra⟩) ht hg
    exact ⟨_, _, depicts_dumpOf G Weights.spelling⟩
  · have G : g.Confined := confined_compile (p := ⟨t, e, Probability.label.toLabelAlgebra⟩) ht hg
    exact ⟨_, _, depicts_dumpOf G Probability.spelling⟩

/-- The dump of the tree of two coins. -/
theorem compile_depicts_twoCoins : ∃ q e t g d φ,
    PseudoTree.build twoCoins ⟨[0, 1], []⟩ [0, 1] .tree = .ok q ∧
    Encoding.ofNetwork ⟨true, true⟩ twoCoins = .ok e ∧
    SpanningTree.ofPseudoTree (.ofPartition twoCoins ⟨[0, 1], []⟩) q e = .ok t ∧
    compile ⟨t, e, Weights.label.toLabelAlgebra, true⟩ false = .ok g ∧
    Depicts Weights.spelling g d φ := by
  have hp := Partition.proper_ofOwned ofOwned_twoCoins
  obtain ⟨q, hq⟩ := PseudoTree.exists_build hp (show [0, 1].Perm _ by decide) .tree
  obtain ⟨e, he, R⟩ := Encoding.ofNetwork_spec ⟨true, true⟩ wellFormed_twoCoins
  obtain ⟨t, ht⟩ :=
    SpanningTree.exists_ofPseudoTree wellFormed_twoCoins hp hq R (by decide +kernel)
  obtain ⟨g, hg, -⟩ := compile_partition wellFormed_twoCoins hp hq ht
    (weighing_trivial wellFormed_twoCoins hp R Weights.label.toLabelAlgebra)
    (fun _ _ _ _ _ => rfl) true [] fun _ => 0
  obtain ⟨d, φ, h⟩ := (compile_depicts ht).1 g hg
  exact ⟨q, e, t, g, d, φ, hq, he, ht, hg, h⟩

end BayesCircuit.Multigraph
