import BayesCircuit.Decision.Text
import BayesCircuit.Proofs.Decision.Reach
import BayesCircuit.Proofs.Decision.Shared
import BayesCircuit.Proofs.Multigraph.Dump
import BayesCircuit.Proofs.References.Session

/-!
# Circuit files are faithful

A circuit file is the text of a `Circuit`, whose records are decision nodes with lines in place of
handles, and it is read back as it was written (`Circuit.read?_text`). The lines of the decision
nodes follow those of the terminals in preorder, so the circuit is isomorphic to the diagram below
the root (`presents_of_stored`), whatever a caller has done with the manager (`Run.presents`).

The header counts the nodes that are found. A terminal has a line in any case, but it is counted
only if some path ends in it, so the header tells the number of lines if both terminals are below
the root and a smaller number otherwise (`Presents.nodeCount_eq_iff`). Nothing in a file says which
terminal is meant if there is no decision node (`toCircuitText_of_isTerminal`).
-/

namespace BayesCircuit.Decision

open Collection

variable {f : Handle → Option Node.Key} {m : Manager} {root h : Handle} {order hs : List Handle}
variable {numbers : Array Nat} {i : Nat}

/-! ## Lines -/

/-- The line numbers after the nodes of a list are given those from `i + 2` on. -/
def numberFrom (i : Nat) (hs : List Handle) (numbers : Array Nat) : Array Nat :=
  (hs.zipIdx i).foldl (fun numbers (h, j) => numbers.setIfInBounds h (j + 2)) numbers

theorem getD_numberFrom_of_notMem : ∀ {hs i numbers}, h ∉ hs →
    (numberFrom i hs numbers).getD h 0 = numbers.getD h 0
  | [], _, _, _ => rfl
  | a :: hs, i, numbers, hnew => by
      obtain ⟨hne, hrest⟩ := not_or.1 (mt List.mem_cons.2 hnew)
      refine (getD_numberFrom_of_notMem hrest).trans ?_
      rw [Array.getD_eq_getD_getElem?, Array.getElem?_setIfInBounds_ne (Ne.symm hne),
        ← Array.getD_eq_getD_getElem?]

theorem getD_numberFrom : ∀ {hs i numbers j}, hs.Nodup → (∀ a ∈ hs, a < numbers.size) →
    hs[j]? = some h → (numberFrom i hs numbers).getD h 0 = i + j + 2
  | [], _, _, j, _, _, hj => by simp at hj
  | a :: hs, i, numbers, 0, hnodup, hlt, hj => by
      obtain rfl := Option.some.inj hj
      refine (getD_numberFrom_of_notMem (List.nodup_cons.1 hnodup).1).trans ?_
      rw [Array.getD_eq_getD_getElem?,
        Array.getElem?_setIfInBounds_self_of_lt (hlt a (List.mem_cons_self ..))]
      rfl
  | a :: hs, i, numbers, j + 1, hnodup, hlt, hj => by
      have hrest := @getD_numberFrom hs (i + 1) (numbers.setIfInBounds a (i + 2)) j
        (List.nodup_cons.1 hnodup).2
        (fun b hb => by
          rw [Array.size_setIfInBounds]
          exact hlt b (List.mem_cons_of_mem _ hb)) hj
      rw [show i + (j + 1) + 2 = i + 1 + j + 2 by omega]
      exact hrest

/-- The line of a node, if the decision nodes are written in the order of a list. -/
def Manager.lineOf (m : Manager) (hs : List Handle) (h : Handle) : Nat :=
  (m.circuitLines hs).getD h 0

/-- The decision nodes of a list. -/
def inner (order : List Handle) : List Handle := order.filter fun h => !h.isTerminal

theorem mem_inner : h ∈ inner order ↔ h ∈ order ∧ h.isTerminal = false := by
  simp [inner]

/-- Decision nodes have the lines behind those of the terminals. -/
theorem lineOf_of_getElem? (hnodup : hs.Nodup) (hlt : ∀ a ∈ hs, a < m.arena.size)
    (hi : hs[i]? = some h) : m.lineOf hs h = i + 2 := by
  have hline := @getD_numberFrom h hs 0
    ((Array.replicate m.arena.size 0).setIfInBounds Handle.true' 1) i hnodup (by simpa using hlt) hi
  rwa [Nat.zero_add] at hline

/-- The lines of the terminals are their handles. -/
theorem lineOf_of_isTerminal (hnew : h ∉ hs) (ht : h.isTerminal = true) (hlt : h < m.arena.size) :
    m.lineOf hs h = h := by
  refine (getD_numberFrom_of_notMem hnew).trans ?_
  rcases isTerminal_iff.1 ht with rfl | rfl
  · rw [Array.getD_eq_getD_getElem?, Array.getElem?_setIfInBounds_ne (by decide),
      Array.getElem?_replicate, if_pos hlt]
    rfl
  · rw [Array.getD_eq_getD_getElem?,
      Array.getElem?_setIfInBounds_self_of_lt (by rwa [Array.size_replicate])]
    rfl

/-! ## Circuits and their text -/

/-- What a circuit file says: a number of nodes, and the decision nodes, whose edges lead to
lines. -/
structure Circuit where
  nodeCount : Nat
  records : List Node.Key

/-- The words of the line of a terminal. -/
def terminalWords : List String := ["0", "0", "0", "0"]

/-- The words of the line of a decision node. -/
def Node.Key.words (k : Node.Key) : List String :=
  [toString k.literal, toString k.high, toString k.low, toString k.weights.length] ++
    k.weights.map toString

/-- A node whose edges lead elsewhere. -/
def Node.Key.move (φ : Handle → Handle) (k : Node.Key) : Node.Key :=
  { k with high := φ k.high, low := φ k.low }

namespace Circuit

open Multigraph (number? number?_toString mapM_map_eq_some)
open Text (IsWord)

/-- The words of the lines: those of the header, of the terminals and of the decision nodes. -/
def lines (c : Circuit) : List (List String) :=
  ["wpbdd", toString c.nodeCount] :: terminalWords :: terminalWords :: c.records.map Node.Key.words

/-- The text of a circuit. There is one blank between the words of a line. -/
def text (c : Circuit) : String := Encoding.unlines (c.lines.map (Text.join " "))

/-- The node that a line describes. The first two lines are those of the terminals. -/
def node? (c : Circuit) : Handle → Option Node.Key
  | line + 2 => c.records[line]?
  | _ => none

/-- Read a whole number. -/
def integer? (s : String) : Option Int :=
  match s.toList with
  | '-' :: cs => (Text.natural? cs).map fun n => -Int.ofNat n
  | cs => (Text.natural? cs).map Int.ofNat

/-- Read the line of a decision node. -/
def record? : List String → Option Node.Key
  | literal :: high :: low :: count :: ws => do
      let literal ← integer? literal
      let high ← number? high
      let low ← number? low
      let count ← number? count
      guard (ws.length = count)
      let weights ← ws.mapM number?
      return ⟨literal, high, low, weights⟩
  | _ => none

/-- Read the lines of a circuit. -/
def circuit? : List (List String) → Option Circuit
  | [word, nodes] :: first :: second :: records => do
      guard (word = "wpbdd" ∧ first = terminalWords ∧ second = terminalWords)
      let nodeCount ← number? nodes
      let records ← records.mapM record?
      return ⟨nodeCount, records⟩
  | _ => none

/-- Read a circuit. -/
def read? (text : String) : Option Circuit := circuit? ((Text.lines text).map Text.words)

theorem integer?_toString (n : Int) : integer? (toString n) = some n := by
  cases n with
  | ofNat n =>
      have htext : (toString (Int.ofNat n)).toList = (toString n).toList := rfl
      have hread := Text.natural?_toString (n := n)
      rw [integer?, htext]
      split
      · rename_i cs hcs
        have hmem : '-' ∈ (toString n).toList := hcs ▸ List.mem_cons_self ..
        exact absurd (Text.isDigit_of_mem_toString hmem) (by decide)
      · rw [hread]
        rfl
  | negSucc n =>
      have htext : (toString (Int.negSucc n)).toList = '-' :: (toString (n + 1)).toList :=
        String.toList_append
      have hread := Text.natural?_toString (n := n + 1)
      rw [integer?, htext]
      exact congrArg (Option.map fun n => -Int.ofNat n) hread

theorem record?_words (k : Node.Key) : record? k.words = some k := by
  have hweights : (k.weights.map toString).mapM number? = some k.weights :=
    mapM_map_eq_some fun w _ => number?_toString w
  simp only [Node.Key.words, List.cons_append, List.nil_append, record?, integer?_toString,
    number?_toString, hweights, List.length_map, guard_true, Option.bind_eq_bind, Option.bind_some,
    Option.pure_def]

theorem circuit?_lines (c : Circuit) : circuit? c.lines = some c := by
  have hrecords := mapM_map_eq_some fun k (_ : k ∈ c.records) => record?_words k
  simp only [lines, circuit?, and_self, guard_true, number?_toString, hrecords,
    Option.bind_eq_bind, Option.bind_some, Option.pure_def]

theorem isWord_of_mem_lines {c : Circuit} : ∀ ws ∈ c.lines, ∀ w ∈ ws, IsWord w := by
  have hnumber : ∀ n : Nat, IsWord (toString n) := fun _ => Text.isWord_toString
  have hterminal : ∀ w ∈ terminalWords, IsWord w := by decide
  have hrecord : ∀ k : Node.Key, ∀ w ∈ k.words, IsWord w := by
    intro k
    simp only [Node.Key.words, List.forall_mem_append, List.forall_mem_cons, List.forall_mem_map]
    exact ⟨⟨Decimal.isWord_toString_int _, hnumber _, hnumber _, hnumber _, by simp⟩,
      fun w _ => hnumber w⟩
  simp only [lines, List.forall_mem_cons, List.forall_mem_map]
  exact ⟨⟨by decide, hnumber _, by simp⟩, hterminal, hterminal, fun k _ => hrecord k⟩

/-- The lines of the text of a circuit. -/
theorem lines_text (c : Circuit) : Text.lines c.text = c.lines.map (Text.join " ") := by
  refine Text.lines_of_feeds Encoding.toList_unlines (List.forall_mem_map.2 fun ws hws => ?_)
  exact Text.isLine_join fun w hw => (isWord_of_mem_lines ws hws w hw).isLine

/-- A circuit is read as it was written. -/
theorem read?_text (c : Circuit) : read? c.text = some c := by
  have hcut : (c.lines.map (Text.join " ")).map Text.words = c.lines := by
    rw [List.map_map]
    have hwords := fun ws hws => Text.words_join (isWord_of_mem_lines (c := c) ws hws)
    exact (List.map_congr_left hwords).trans (List.map_id _)
  rw [read?, lines_text, hcut, circuit?_lines]

end Circuit

/-! ## What is written -/

/-- The file of the diagram below a root is the text of a circuit, which is read from it. Its first
line tells the number of nodes below the root. The decision nodes have lines in preorder; their
edges lead to lines of the file, and the circuit is isomorphic to the diagram, node by node. -/
structure Presents (m : Manager) (root : Handle) (order : List Handle) (c : Circuit)
    (φ : Handle → Handle) : Prop where
  text : m.toCircuitText root = .ok c.text
  read : Circuit.read? c.text = some c
  length_lines : (Text.lines c.text).length = 3 + c.records.length
  preorder : Preorder m.key? [] root order
  nodeCount : c.nodeCount = order.length
  lines : (inner order).map φ = List.range' 2 c.records.length
  line_lt : ∀ k ∈ c.records, k.high < 2 + c.records.length ∧ k.low < 2 + c.records.length
  line_root : φ root = if root.isTerminal then root else 2
  isomorphism : Isomorphism m.key? c.node? root (φ root) φ

/-- The circuit of some nodes. -/
def Manager.circuitOf (m : Manager) (key : Handle → Node.Key) (order : List Handle) : Circuit where
  nodeCount := order.length
  records := (inner order).map fun h => (key h).move (m.lineOf (inner order))

variable {key : Handle → Node.Key}

theorem decisions_eq_ok (hrun : m.reach root = .ok order) :
    m.decisions root = .ok (inner order) := by
  rw [Manager.decisions, hrun]
  rfl

theorem size_eq_ok (hrun : m.reach root = .ok order) : m.size root = .ok order.length := by
  rw [Manager.size, hrun]
  rfl

/-- The text of a circuit with its first lines written out. -/
theorem Circuit.text_eq (c : Circuit) :
    c.text = "wpbdd " ++ toString c.nodeCount ++ "\n0 0 0 0\n0 0 0 0\n" ++
      String.join (c.records.map fun k => Text.join " " k.words ++ "\n") := by
  have hterminal : (Text.join " " terminalWords).toList = "0 0 0 0".toList := by decide
  apply String.toList_inj.1
  simp [Circuit.text, Encoding.toList_unlines, Circuit.lines, hterminal, Text.join,
    List.flatMap_map]

/-- The text of a diagram is that of its circuit. -/
theorem toCircuitText_eq_ok (hrun : m.reach root = .ok order)
    (hkey : ∀ h ∈ inner order, m.key? h = some (key h)) :
    m.toCircuitText root = .ok (m.circuitOf key order).text := by
  let line : Handle → String := fun h =>
    Text.join " " ((key h).move (m.lineOf (inner order))).words ++ "\n"
  refine Outcome.bind_eq_ok_iff.2 ⟨_, decisions_eq_ok hrun, Outcome.bind_eq_ok_iff.2
    ⟨_, Outcome.mapM_ok (g := line) fun h hh => ?_, ?_⟩⟩
  · obtain ⟨n, hn, hkn⟩ := key?_eq_some_iff.1 (hkey h hh)
    have hnode : m.node h = .ok n := Arena.get_eq_ok hn
    have hline : line h = Text.join " " (n.key.move (m.lineOf (inner order))).words ++ "\n" := by
      rw [hkn]
    rw [hnode, hline]
    rfl
  · rw [size_eq_ok hrun, Circuit.text_eq, Manager.circuitOf, List.map_map]
    rfl

theorem Preorder.nodup_inner (P : Preorder f [] root order) : (inner order).Nodup :=
  P.nodup_of_root.filter _

theorem le_one_of_isTerminal (ht : h.isTerminal = true) : h ≤ 1 := by
  simpa [Handle.isTerminal] using ht

section
variable (S : Stored m root) (P : Preorder m.key? [] root order)
include S P

theorem lt_size_of_mem_inner : ∀ a ∈ inner order, a < m.arena.size :=
  fun _ ha => S.lt_size (P.mem_iff.1 (mem_inner.1 ha).1)

/-- Terminals keep their handles, and decision nodes have the lines behind them in preorder. -/
theorem lineOf_cases (hb : Below m.key? root h) :
    (h.isTerminal = true ∧ m.lineOf (inner order) h = h) ∨
      ∃ i, (inner order)[i]? = some h ∧ m.lineOf (inner order) h = i + 2 := by
  cases ht : h.isTerminal with
  | true =>
      have hnew : h ∉ inner order := fun hh => by
        rw [(mem_inner.1 hh).2] at ht
        cases ht
      exact Or.inl ⟨rfl, lineOf_of_isTerminal hnew ht (S.lt_size hb)⟩
  | false =>
      obtain ⟨i, hi⟩ := List.mem_iff_getElem?.1 (mem_inner.2 ⟨P.mem_iff.2 hb, ht⟩)
      exact Or.inr ⟨i, hi, lineOf_of_getElem? P.nodup_inner (lt_size_of_mem_inner S P) hi⟩

theorem lineOf_lt (hb : Below m.key? root h) :
    m.lineOf (inner order) h < 2 + (inner order).length := by
  rcases lineOf_cases S P hb with ⟨ht, hline⟩ | ⟨i, hi, hline⟩
  · have hle := le_one_of_isTerminal ht
    rw [hline]
    exact Nat.lt_add_right _ (Nat.lt_succ_of_le hle)
  · obtain ⟨hlt, -⟩ := List.getElem?_eq_some_iff.1 hi
    rw [hline, Nat.add_comm]
    exact Nat.add_lt_add_left hlt 2

theorem injOn_lineOf : Set.InjOn (m.lineOf (inner order)) {h | Below m.key? root h} := by
  intro g hg h hh he
  rcases lineOf_cases S P hg with ⟨ht, hline⟩ | ⟨i, hi, hline⟩ <;>
    rcases lineOf_cases S P hh with ⟨ht', hline'⟩ | ⟨j, hj, hline'⟩
  · exact hline.symm.trans (he.trans hline')
  · have hle : m.lineOf (inner order) g ≤ 1 := hline.trans_le (le_one_of_isTerminal ht)
    rw [he, hline'] at hle
    omega
  · have hle : m.lineOf (inner order) h ≤ 1 := hline'.trans_le (le_one_of_isTerminal ht')
    rw [← he, hline] at hle
    omega
  · obtain rfl : i = j := Nat.add_right_cancel (hline.symm.trans (he.trans hline'))
    exact Option.some.inj (hi.symm.trans hj)

/-- The root has the first line of a decision node unless it is a terminal. -/
theorem lineOf_root :
    m.lineOf (inner order) root = if root.isTerminal then root else 2 := by
  rcases lineOf_cases S P .refl with ⟨ht, hline⟩ | ⟨i, hi, hline⟩
  · rw [if_pos ht, hline]
  · have hroot := (mem_inner.1 (List.mem_of_getElem? hi)).2
    have hfirst : (inner order)[0]? = some root := by
      cases P with
      | old old => exact absurd old List.not_mem_nil
      | terminal ht => rw [ht] at hroot; cases hroot
      | node => simp [inner, hroot]
    obtain ⟨hlt, -⟩ := List.getElem?_eq_some_iff.1 hi
    obtain rfl := (List.getElem?_inj hlt P.nodup_inner).1 (hi.trans hfirst.symm)
    rw [hroot, hline]
    rfl

theorem map_lineOf_inner :
    (inner order).map (m.lineOf (inner order)) = List.range' 2 (inner order).length := by
  refine List.ext_getElem (by simp) fun i hi _ => ?_
  rw [List.length_map] at hi
  rw [List.getElem_map, List.getElem_range', Nat.one_mul, Nat.add_comm]
  exact lineOf_of_getElem? P.nodup_inner (lt_size_of_mem_inner S P) (List.getElem?_eq_getElem hi)

variable (hkey : ∀ h ∈ inner order, m.key? h = some (key h))
include hkey

/-- The records of the circuit lead to its lines. -/
theorem line_lt_of_mem_records : ∀ k ∈ (m.circuitOf key order).records,
    k.high < 2 + (inner order).length ∧ k.low < 2 + (inner order).length := by
  refine List.forall_mem_map.2 fun h hh => ?_
  obtain ⟨hmem, ht⟩ := mem_inner.1 hh
  have hb := P.mem_iff.1 hmem
  exact ⟨lineOf_lt S P (hb.tail ⟨ht, _, hkey h hh, Or.inl rfl⟩),
    lineOf_lt S P (hb.tail ⟨ht, _, hkey h hh, Or.inr rfl⟩)⟩

theorem isomorphism_circuitOf : Isomorphism m.key? (m.circuitOf key order).node? root
    (m.lineOf (inner order) root) (m.lineOf (inner order)) := by
  refine .of_injOn (injOn_lineOf S P) (fun {h} hb ht => ?_) fun {h} hb ht => ?_
  · rcases lineOf_cases S P hb with ⟨-, hline⟩ | ⟨i, hi, -⟩
    · exact hline
    · rw [(mem_inner.1 (List.mem_of_getElem? hi)).2] at ht
      cases ht
  · rcases lineOf_cases S P hb with ⟨ht', -⟩ | ⟨i, hi, hline⟩
    · rw [ht] at ht'
      cases ht'
    · refine ⟨?_, key h, hkey h (List.mem_of_getElem? hi), ?_⟩
      · rw [hline]
        simp [Handle.isTerminal]
      · rw [hline]
        show ((inner order).map fun h => (key h).move (m.lineOf (inner order)))[i]? = _
        rw [List.getElem?_map, hi]
        rfl

end

/-- What is below a root is written as it is, if it is stored. -/
theorem presents_of_stored (S : Stored m root) : ∃ order c φ, Presents m root order c φ := by
  obtain ⟨order, hrun, P⟩ := reach_eq_ok S
  obtain ⟨key, hkey⟩ : ∃ key : Handle → Node.Key, ∀ h ∈ inner order, m.key? h = some (key h) := by
    refine ⟨fun h => (m.key? h).getD ⟨0, 0, 0, []⟩, fun h hh => ?_⟩
    obtain ⟨k, hk⟩ := S.key h (P.mem_iff.1 (mem_inner.1 hh).1)
    simp [hk]
  have hlength : (m.circuitOf key order).records.length = (inner order).length := List.length_map _
  have hlines : (Text.lines (m.circuitOf key order).text).length =
      3 + (m.circuitOf key order).records.length := by
    simp [Circuit.lines_text, Circuit.lines]
    omega
  exact ⟨order, m.circuitOf key order, m.lineOf (inner order), {
    text := toCircuitText_eq_ok hrun hkey
    read := Circuit.read?_text _
    length_lines := hlines
    preorder := P
    nodeCount := rfl
    lines := hlength ▸ map_lineOf_inner S P
    line_lt := hlength ▸ line_lt_of_mem_records S P hkey
    line_root := lineOf_root S P
    isomorphism := isomorphism_circuitOf S P hkey }⟩

/-! ## The header -/

/-- Nodes are decision nodes or terminals. -/
theorem length_eq_inner (order : List Handle) : order.length =
    (inner order).length + order.count Handle.false' + order.count Handle.true' := by
  have hne : Handle.false' ≠ Handle.true' := by decide
  induction order with
  | nil => rfl
  | cons h order ih =>
      rw [inner, List.filter_cons, List.length_cons, ih, List.count_cons, List.count_cons, inner]
      cases ht : h.isTerminal with
      | true =>
          rcases isTerminal_iff.1 ht with rfl | rfl
          · simp [hne]
            omega
          · simp [hne.symm]
            omega
      | false =>
          have hfalse : h ≠ Handle.false' := fun he => by simp [isTerminal_iff.2 (Or.inl he)] at ht
          have htrue : h ≠ Handle.true' := fun he => by simp [isTerminal_iff.2 (Or.inr he)] at ht
          simp [hfalse, htrue]
          omega

namespace Presents

variable {circuit : Circuit} {φ : Handle → Handle} (C : Presents m root order circuit φ)
include C

/-- Each record is that of a decision node below the root. -/
theorem exists_of_mem_records : ∀ k ∈ circuit.records, ∃ h k', Below m.key? root h ∧
    h.isTerminal = false ∧ m.key? h = some k' ∧ k = k'.move φ := by
  intro k hk
  obtain ⟨i, hi⟩ := List.mem_iff_getElem?.1 hk
  obtain ⟨hlt, -⟩ := List.getElem?_eq_some_iff.1 hi
  have hline : ((inner order).map φ)[i]? = some (i + 2) := by
    rw [C.lines, List.getElem?_range' hlt, Nat.one_mul, Nat.add_comm]
  rw [List.getElem?_map] at hline
  obtain ⟨h, hh, hφ⟩ := Option.map_eq_some_iff.1 hline
  obtain ⟨hmem, ht⟩ := mem_inner.1 (List.mem_of_getElem? hh)
  have hb := C.preorder.mem_iff.1 hmem
  obtain ⟨-, k', hk', hnode⟩ := C.isomorphism.node hb ht
  rw [hφ] at hnode
  exact ⟨h, k', hb, ht, hk', Option.some.inj (hi.symm.trans hnode)⟩

/-- A terminal is counted once if it is below the root. -/
theorem count_eq (t : Handle) :
    (order.count t = 1 ∧ Below m.key? root t) ∨ (order.count t = 0 ∧ ¬ Below m.key? root t) := by
  have hnodup := C.preorder.nodup_of_root
  rw [← C.preorder.mem_iff]
  by_cases ht : t ∈ order
  · exact Or.inl ⟨List.count_eq_one_of_mem hnodup ht, ht⟩
  · exact Or.inr ⟨List.count_eq_zero.2 ht, ht⟩

theorem nodeCount_eq : circuit.nodeCount =
    circuit.records.length + order.count Handle.false' + order.count Handle.true' := by
  have hlength := congrArg List.length C.lines
  rw [List.length_map, List.length_range'] at hlength
  rw [C.nodeCount, length_eq_inner, hlength]

/-- The header tells the number of lines behind it if both terminals are below the root, and a
smaller number otherwise. -/
theorem nodeCount_eq_iff : circuit.nodeCount + 1 = (Text.lines circuit.text).length ↔
    Below m.key? root Handle.false' ∧ Below m.key? root Handle.true' := by
  rw [C.length_lines, C.nodeCount_eq]
  rcases C.count_eq Handle.false' with ⟨hf, hb⟩ | ⟨hf, hb⟩ <;>
    rcases C.count_eq Handle.true' with ⟨ht, hb'⟩ | ⟨ht, hb'⟩ <;>
    simp [hf, ht, hb, hb'] <;> omega

end Presents

example : (match (makeNode ⟨1, by decide⟩ Handle.true' Handle.true' [3]).run (.start #[] 4) with
    | .ok h m => m.toCircuitText h
    | .error f _ => .error f) = .ok "wpbdd 2\n0 0 0 0\n0 0 0 0\n1 1 1 1 3\n" := by
  decide +kernel

/-- The files of the two terminals are the same. -/
theorem toCircuitText_of_isTerminal (ht : root.isTerminal = true) :
    m.toCircuitText root = .ok "wpbdd 1\n0 0 0 0\n0 0 0 0\n" := by
  have hmark : (Array.replicate m.arena.size false).getD root false = false := by
    rw [Array.getD_eq_getD_getElem?, Array.getElem?_replicate]
    split <;> rfl
  have hrun : m.reach root = .ok [root] := by
    rw [Manager.reach, Manager.reachFrom, hmark, if_neg Bool.false_ne_true]
    dsimp only
    rw [if_pos ht]
    cases 2 * m.arena.used <;> rfl
  have hinner : inner [root] = [] := by simp [inner, ht]
  have hkey : ∀ h ∈ inner [root], m.key? h = some ⟨0, 0, 0, []⟩ := by simp [hinner]
  have htext : "wpbdd " ++ toString 1 ++ "\n0 0 0 0\n0 0 0 0\n" ++ String.join [] =
      "wpbdd 1\n0 0 0 0\n0 0 0 0\n" := by decide
  rw [toCircuitText_eq_ok hrun hkey, Circuit.text_eq, Manager.circuitOf, hinner, ← htext]
  rfl

/-! ## Managers in use -/

namespace Session

variable {s : Session} {literalVariables : Array Variable} {tableBits : Nat} {ops : List Operation}

theorem Counted.stored (hs : s.Counted) (hroot : (s.manager.arena.get? root).isSome = true) :
    Stored s.manager root := by
  have hvalid : s.manager.arena.Valid := by
    obtain ⟨frozen, -, H⟩ := hs
    exact H.valid
  refine ⟨hvalid, fun h hb => ?_⟩
  induction hb with
  | refl => 
      obtain ⟨n, hn⟩ := Option.isSome_iff_exists.1 hroot
      exact ⟨_, key?_of_get? hn⟩
  | tail _ he _ =>
      obtain ⟨-, k, hk, hc⟩ := he
      obtain ⟨n, hn, rfl⟩ := key?_eq_some_iff.1 hk
      obtain ⟨hhigh, hlow⟩ := hs.exact.no_dangling hn
      rcases hc with rfl | rfl
      · obtain ⟨n', hn'⟩ := Option.isSome_iff_exists.1 hhigh
        exact ⟨_, key?_of_get? hn'⟩
      · obtain ⟨n', hn'⟩ := Option.isSome_iff_exists.1 hlow
        exact ⟨_, key?_of_get? hn'⟩

/-- The records have positive literals and ascending weights, as the decision nodes do. -/
theorem Counted.ascends (hs : s.Counted) {circuit : Circuit} {φ : Handle → Handle}
    (C : Presents s.manager root order circuit φ) :
    ∀ k ∈ circuit.records, 0 < k.literal ∧ Weights.ascends k.weights = true := by
  intro k hk
  obtain ⟨h, k', -, ht, hk', rfl⟩ := C.exists_of_mem_records k hk
  obtain ⟨n, hn, rfl⟩ := key?_eq_some_iff.1 hk'
  obtain ⟨frozen, hb, H⟩ := hs
  exact ⟨H.literal_pos hn (hb h ht), H.ascends hn (hb h ht)⟩

/-- Whatever a caller has done, the file of every node is faithful. -/
theorem Run.presents (hrun : Run Operation.Allowed (start literalVariables tableBits) ops s)
    (hroot : (s.manager.arena.get? root).isSome = true) :
    ∃ order circuit φ, Presents s.manager root order circuit φ ∧
      ∀ k ∈ circuit.records, 0 < k.literal ∧ Weights.ascends k.weights = true := by
  have hs : s.Counted := hrun.counted (fun _ _ h => h) (counted_start literalVariables tableBits)
  obtain ⟨order, circuit, φ, C⟩ := presents_of_stored (hs.stored hroot)
  exact ⟨order, circuit, φ, C, hs.ascends C⟩

end Session

end BayesCircuit.Decision
