import BayesCircuit.Decision.Clause
import BayesCircuit.Decision.Domain
import BayesCircuit.Proofs.Decision.Shared
import BayesCircuit.Proofs.Rows.Solve
import BayesCircuit.Proofs.Tables.Tree

/-!
# The tree of a row

A domain closure counts for a variable the values that its literals have left. Excluding or choosing
a value and taking this back leaves the closure as it was.

The clause of a row makes the tree of the excerpt that has only this row (`clause_spec`). On the way
down the blocks, the domain closure counts the values of each variable; on the way up, every
literal of the row and every one before it in its block becomes a node, and the closure is taken
back to where it was (`Draws`). A node leads to the one before it, so no two nodes are equal
(`Strand.branch`).
-/

namespace BayesCircuit.Decision.DomainClosure

variable {d : DomainClosure} {l : Literal} {ls : List Literal} {u v : Variable} {n : Nat}

/-- A value of a variable is excluded, and `n` are left. -/
def exclude (d : DomainClosure) (u : Variable) (n : Nat) : DomainClosure :=
  { d with valuesLeft := d.valuesLeft.setIfInBounds u n }

/-- A variable has a value. -/
def choose (d : DomainClosure) (u : Variable) : DomainClosure :=
  { d with chosen := d.chosen.setIfInBounds u true }

/-- A variable without a value has the values of some literals left. -/
structure Counts (d : DomainClosure) (u : Variable) (ls : List Literal) : Prop where
  chosen : d.chosen[u]? = some false
  left : d.valuesLeft[u]? = some ls.length
  small : ls.length < halfWordSize
  literal : ∀ l ∈ ls, l.isPositive = true ∧ d.literalVariables[l.index]? = some u

theorem variableOf_neg : d.variableOf l.neg = d.variableOf l := by
  rw [variableOf, variableOf, Rows.index_neg]

theorem variableOf_eq (h : d.literalVariables[l.index]? = some u) : d.variableOf l = .ok u :=
  Encoding.fetch_eq_ok.2 h

/-- The literals of a variable that has a value do not matter. -/
theorem condition_redundant (hl : d.literalVariables[l.index]? = some u)
    (hu : d.chosen[u]? = some true) : d.condition l.neg = .ok (.redundant, d) := by
  have hchosen : fetch d.chosen u = .ok true := Encoding.fetch_eq_ok.2 hu
  simp only [condition, variableOf_neg, variableOf_eq hl, hchosen, bind, Except.bind, pure,
    Except.pure, if_true]

section

variable (h : d.Counts u (l :: ls))

include h

theorem Counts.isNegative_neg : l.neg.isNegative = true := by
  have hpos := (h.literal l (List.mem_cons_self ..)).1
  simp only [Literal.isPositive, decide_eq_true_eq] at hpos
  exact decide_eq_true (show -l.value < 0 by omega)

theorem Counts.isNegative : l.isNegative = false := by
  have hpos := (h.literal l (List.mem_cons_self ..)).1
  simp only [Literal.isPositive, decide_eq_true_eq] at hpos
  exact decide_eq_false (by omega)

theorem Counts.variableOf : d.variableOf l = .ok u :=
  variableOf_eq (h.literal l (List.mem_cons_self ..)).2

/-- A value is excluded; the last one must not be. -/
theorem Counts.condition_neg : d.condition l.neg =
    .ok (if ls.isEmpty then .unsatisfiable else .satisfiable, d.exclude u ls.length) := by
  have hleft : fetch d.valuesLeft u = .ok (ls.length + 1) := Encoding.fetch_eq_ok.2 h.left
  have hchosen : fetch d.chosen u = .ok false := Encoding.fetch_eq_ok.2 h.chosen
  have hminus : minus (ls.length + 1) 1 = .ok ls.length := by simp [minus]
  simp only [condition, variableOf_neg, h.variableOf, hchosen, hleft, hminus, h.isNegative_neg,
    bind, Except.bind, pure, Except.pure, Bool.false_eq_true, if_false, if_true]
  cases ls <;> rfl

/-- The exclusion of a value is taken back. -/
theorem Counts.undo_neg : (d.exclude u ls.length).undo l.neg = .ok d := by
  have hvar : (d.exclude u ls.length).variableOf l = .ok u := h.variableOf
  obtain ⟨hlt, hget⟩ := Array.getElem?_eq_some_iff.1 h.left
  have hleft : fetch (d.exclude u ls.length).valuesLeft u = .ok ls.length := by
    rw [Encoding.fetch_eq_ok, exclude]
    simp [hlt]
  have hsmall : ls.length + 1 < halfWordSize := h.small
  have hback : (d.valuesLeft.setIfInBounds u ls.length).setIfInBounds u (ls.length + 1) =
      d.valuesLeft := by
    rw [Array.setIfInBounds_setIfInBounds]
    refine Array.ext (by simp) fun i hi hi' => ?_
    rw [Array.getElem_setIfInBounds]
    split
    · rename_i he
      subst he
      rw [hget]
      rfl
    · rfl
  simp only [undo, variableOf_neg, hvar, hleft, h.isNegative_neg, ensure, hsmall, bind,
    Except.bind, pure, Except.pure, decide_true, if_true]
  rw [exclude, hback]

/-- A value is chosen. -/
theorem Counts.condition_pos : d.condition l = .ok (.satisfiable, d.choose u) := by
  have hchosen : fetch d.chosen u = .ok false := Encoding.fetch_eq_ok.2 h.chosen
  simp only [condition, h.variableOf, hchosen, h.isNegative, bind, Except.bind, pure, Except.pure,
    Bool.false_eq_true, if_false]
  rfl

/-- The choice of a value is taken back. -/
theorem Counts.undo_pos : (d.choose u).undo l = .ok d := by
  have hvar : (d.choose u).variableOf l = .ok u := h.variableOf
  obtain ⟨hlt, hget⟩ := Array.getElem?_eq_some_iff.1 h.chosen
  have hchosen : fetch (d.choose u).chosen u = .ok true := by
    rw [Encoding.fetch_eq_ok, choose]
    simp [hlt]
  have hback : (d.chosen.setIfInBounds u true).setIfInBounds u false = d.chosen := by
    rw [Array.setIfInBounds_setIfInBounds]
    refine Array.ext (by simp) fun i hi hi' => ?_
    rw [Array.getElem_setIfInBounds]
    split
    · rename_i he
      subst he
      rw [hget]
    · rfl
  simp only [undo, hvar, hchosen, h.isNegative, bind, Except.bind, pure, Except.pure, discard,
    Functor.discard, Functor.mapConst, Bool.false_eq_true, if_false]
  rw [choose, hback]
  rfl

/-- After a value has been chosen, the other literals of the variable do not matter. -/
theorem Counts.condition_chosen {l' : Literal} (hl : l' ∈ ls) :
    (d.choose u).condition l'.neg = .ok (.redundant, d.choose u) := by
  obtain ⟨hlt, -⟩ := Array.getElem?_eq_some_iff.1 h.chosen
  refine condition_redundant (h.literal l' (List.mem_cons_of_mem _ hl)).2 ?_
  simp [choose, hlt]

theorem Counts.exclude : (d.exclude u ls.length).Counts u ls := by
  obtain ⟨hlt, -⟩ := Array.getElem?_eq_some_iff.1 h.left
  refine ⟨h.chosen, ?_, Nat.lt_of_succ_lt h.small,
    fun l hl => h.literal l (List.mem_cons_of_mem _ hl)⟩
  simp [DomainClosure.exclude, hlt]

end

theorem Counts.exclude_of_ne (h : d.Counts u ls) (hne : u ≠ v) : (d.exclude v n).Counts u ls := by
  refine ⟨h.chosen, ?_, h.small, h.literal⟩
  rw [DomainClosure.exclude, Array.getElem?_setIfInBounds_ne hne.symm]
  exact h.left

theorem Counts.choose_of_ne (h : d.Counts u ls) (hne : u ≠ v) : (d.choose v).Counts u ls := by
  refine ⟨?_, h.left, h.small, h.literal⟩
  rw [DomainClosure.choose, Array.getElem?_setIfInBounds_ne hne.symm]
  exact h.chosen

end BayesCircuit.Decision.DomainClosure

namespace BayesCircuit.Decision

open Collection Decision.Action Excerpt

variable {m m₁ m' : Manager} {h root high low : Handle} {D H L : Diagram} {l : Literal}
variable {ws : Weights} {w : Weight} {determinism : Bool} {ls b post p q row : List Literal}
variable {bs : List (List Literal)} {d d₁ : DomainClosure} {u : Variable} {us : List Variable}

/-! ## Nodes on top of each other -/

/-- Nodes have been made, each on top of the last one, and nothing leads to the last one yet. -/
structure Strand (m : Manager) (D : Diagram) (root : Handle) (m' : Manager) : Prop where
  heap : Heap m.arena.get? 0 m'
  denotes : Denotes m'.key? root D
  young : root.isTerminal = true ∨ m.arena.get? root = none
  unpointed : ¬ Pointed m.arena.get? m'.key? root
  empty : root.isTerminal = true → ∀ g, m.arena.get? g = none → m'.key? g = none
  attached : Attached m.arena.get? {root} m'.key?
  canonical : ∀ {g h k}, m.arena.get? g = none → m.arena.get? h = none → m'.key? g = some k →
    m'.key? h = some k → g = h
  literalVariables : m'.literalVariables = m.literalVariables
  tableBits : m'.tableBits = m.tableBits

theorem Strand.start (V : m.Valid) : Strand m (.leaf true) Handle.true' m := by
  have hnone : ∀ g, m.arena.get? g = none → m.key? g = none := fun g hg => key?_eq_none_iff.2 hg
  refine ⟨V.heap, .true', Or.inl rfl, ?_, fun _ => hnone, fun g k hg hk => ?_, ?_, rfl, rfl⟩
  · rintro ⟨i, k, hi, hk, -⟩
    rw [hnone i hi] at hk
    cases hk
  · rw [hnone g hg] at hk
    cases hk
  · intro g h k hg _ hk
    rw [hnone g hg] at hk
    cases hk

/-- A node that differs from all others may be added. -/
theorem canonical_update {frozen : Handle → Option Node} {f : Handle → Option Node.Key}
    {key : Node.Key} {h : Handle}
    (hf : ∀ {g i k}, frozen g = none → frozen i = none → f g = some k → f i = some k → g = i)
    (hkey : ∀ {g}, frozen g = none → f g ≠ some key) {g i : Handle} {k : Node.Key}
    (hg : frozen g = none) (hi : frozen i = none)
    (hkg : Function.update f h (some key) g = some k)
    (hki : Function.update f h (some key) i = some k) : g = i := by
  by_cases hgh : g = h
  · subst hgh
    rw [Function.update_self] at hkg
    by_contra hne
    rw [Function.update_of_ne (Ne.symm hne), ← hkg] at hki
    exact hkey hi hki
  · rw [Function.update_of_ne hgh] at hkg
    by_cases hih : i = h
    · subst hih
      rw [Function.update_self] at hki
      exact absurd (hkg.trans hki.symm) (hkey hg)
    · rw [Function.update_of_ne hih] at hki
      exact hf hg hi hkg hki

/-- A node on top of a strand, each of whose edges leads to the strand or to a terminal. -/
theorem Strand.branch (S : Strand m D root m₁) (hl : l.isPositive = true)
    (hw : Weights.ascends ws = true) (hhigh : high = root ∨ high.isTerminal = true)
    (hlow : low = root ∨ low.isTerminal = true)
    (hroot : root.isTerminal = true ∨ high = root ∨ low = root)
    (hH : Denotes m₁.key? high H) (hL : Denotes m₁.key? low L) :
    Ends (makeNode l high low ws) m₁ fun h m' => Strand m (.branch l.value ws H L) h m' := by
  have hsound : ∀ {c E}, (c = root ∨ c.isTerminal = true) → Denotes m₁.key? c E →
      Sound m.arena.get? m₁ c := by
    rintro c E (rfl | hc) hE
    · exact sound_of_denotes S.young hE
    · exact Or.inl hc
  refine Ends.mono (makeNode_spec S.heap hl hw (hsound hhigh hH) (hsound hlow hL)) ?_
  rintro h m' ⟨hnone, hf, H', hr⟩
  have hterm := S.heap.not_terminal hf
  have hold : ∀ {g}, g ≠ h → m'.key? g = m₁.key? g := fun hg => by
    rw [hr.key, Function.update_of_ne hg]
  have hnew : m'.key? h = some ⟨l.value, high, low, ws⟩ := by rw [hr.key, Function.update_self]
  have hne : ∀ {c E}, Denotes m₁.key? c E → c ≠ h := by
    rintro c E hE rfl
    obtain ⟨k, -, -, hk, -⟩ := hE.cases_node hterm
    rw [hnone] at hk
    cases hk
  have hgrow : ∀ g k, m₁.key? g = some k → m'.key? g = some k := by
    intro g k hk
    rw [hold, hk]
    rintro rfl
    rw [hnone] at hk
    cases hk
  -- nothing but the new node leads to the root of the strand
  have hlone : ∀ {g}, m.arena.get? g = none →
      m₁.key? g ≠ some ⟨l.value, high, low, ws⟩ := by
    intro g hg hk
    rcases hroot with ht | he | he
    · rw [S.empty ht g hg] at hk
      cases hk
    · exact S.unpointed ⟨g, _, hg, hk, Or.inl he⟩
    · exact S.unpointed ⟨g, _, hg, hk, Or.inr he⟩
  refine ⟨H', .node hterm hnew (hH.mono hgrow) (hL.mono hgrow), Or.inr hf, ?_, ?_, ?_, ?_,
    hr.literalVariables.trans S.literalVariables, hr.tableBits.trans S.tableBits⟩
  · rintro hp
    rw [hr.key] at hp
    rcases hp.of_update_some with hp | he | he
    · exact S.heap.not_pointed (key?_eq_none_iff.1 hnone) hp
    · exact hne hH he
    · exact hne hL he
  · intro ht
    rw [hterm] at ht
    cases ht
  · intro g k hg hk
    by_cases hgh : g = h
    · exact Or.inl hgh
    rw [hold hgh] at hk
    refine Or.inr ?_
    rcases S.attached g k hg hk with rfl | ⟨i, ki, hi, hki, hkg⟩
    · rcases hroot with ht | he | he
      · rw [S.empty ht g hg] at hk
        cases hk
      · exact ⟨h, _, hf, hnew, Or.inl he⟩
      · exact ⟨h, _, hf, hnew, Or.inr he⟩
    · exact ⟨i, ki, hi, hgrow i ki hki, hkg⟩
  · intro g i k hg hi hkg hki
    rw [hr.key] at hkg hki
    exact canonical_update S.canonical hlone hg hi hkg hki

/-- A strand is a root for its holder. -/
theorem Strand.reference (S : Strand m D root m₁) :
    Ends (reference root) m₁ fun _ m' => Rooted m D root m' := by
  refine Ends.mono (reference_spec S.heap (sound_of_denotes S.young S.denotes)) ?_
  rintro _ m' ⟨H, hr⟩
  rw [zero_add] at H
  refine ⟨H, hr.key ▸ S.denotes, S.young, hr.literalVariables.trans S.literalVariables,
    hr.tableBits.trans S.tableBits, hr.key ▸ S.attached, fun hg hh hkg hkh => ?_⟩
  rw [hr.key] at hkg hkh
  exact S.canonical hg hh hkg hkh

/-! ## Single rows -/

namespace Excerpt

/-- The excerpt that has one row only. -/
def single (p : List Literal) (w : Weight) : Excerpt := fun q => if q = p then some w else none

theorem single_after : (single (l :: p) w).after l = single p w := by
  funext q
  simp [after, single]

theorem occupied_single_after {l' : Literal} (hne : l' ≠ l) :
    occupied bs ((single (l :: p) w).after l') = false := by
  rw [occupied_eq_false_iff]
  intro q _
  simp [after, single, hne]

theorem occupied_single (hp : Along bs p) : occupied bs (single p w) = true := by
  rw [occupied_iff]
  exact ⟨p, hp, by simp [single]⟩

/-- The chain in front of the literal of the row. -/
theorem chain_single_before {l' : Literal} (hbs : ∀ b ∈ bs, b ≠ []) (hne : l' ≠ l) (hl : l ∈ ls)
    (hp : Along bs p) : (single (l :: p) w).chain determinism bs (l' :: ls) =
      .branch l'.value [] (.leaf true) ((single (l :: p) w).chain determinism bs ls) := by
  have hany : ((l' :: ls).any fun m => occupied bs ((single (l :: p) w).after m)) = true := by
    rw [List.any_eq_true]
    exact ⟨l, List.mem_cons_of_mem _ hl, by rw [single_after, occupied_single hp]⟩
  rw [chain, chainOf_of_any hany, tree_of_empty hbs (occupied_single_after hne)]

/-- The chain from the literal of the row on. -/
theorem chain_single_at (hl : l ∉ ls) (hp : Along bs p) :
    (single (l :: p) w).chain determinism bs (l :: ls) =
      .branch l.value ((single p w).tree determinism bs).1 ((single p w).tree determinism bs).2
        (.leaf !ls.isEmpty) := by
  have hany : ((l :: ls).any fun m => occupied bs ((single (l :: p) w).after m)) = true := by
    rw [List.any_cons, single_after, occupied_single hp, Bool.true_or]
  rw [chain, chainOf_of_any hany, single_after]
  cases ls with
  | nil => rfl
  | cons l' ls =>
      rw [chainOf_of_none (by simp)]
      · rfl
      · rw [List.any_eq_false]
        intro m hm
        have hne : m ≠ l := by
          rintro rfl
          exact hl hm
        rw [occupied_single_after hne]
        decide

end Excerpt

/-! ## Down and up -/

theorem rowNodes_append {xs ys : List (Literal × Cofactor)} {last : Bool} {c : Handle} :
    rowNodes row w determinism last (xs ++ ys) c d =
      rowNodes row w determinism last xs c d >>= fun r =>
        rowNodes row w determinism (last && xs.isEmpty) ys r.1 r.2 := by
  induction xs generalizing last c d with
  | nil => simp [rowNodes]
  | cons x xs ih =>
      obtain ⟨l, found⟩ := x
      simp only [List.cons_append, rowNodes, ih, List.isEmpty_cons, Bool.and_false,
        Bool.false_and]
      split
      · simp only [bind_assoc]
      · split
        · simp only [bind_assoc]
        · rfl

/-- The nodes for a part of an ordering have the tree `D`, and the closure comes back as it was. -/
def Draws (row : List Literal) (w : Weight) (determinism : Bool) (path : List Literal)
    (d : DomainClosure) (D : Diagram) : Prop :=
  ∃ found d', conditionAll row d path = .ok (found, d') ∧ found.length = path.length ∧
    ∀ m : Manager, m.Valid →
      Ends (rowNodes row w determinism true found.reverse Handle.true' d') m fun r m' =>
        r.2 = d ∧ Strand m D r.1 m'

/-- One literal in front. -/
theorem Draws.cons {found : Cofactor} (hfound : d.condition (if row.contains l then l else l.neg) =
      .ok (found, d₁)) (hq : Draws row w determinism q d₁ D) (hne : q ≠ [])
    (hstep : ∀ m m₁ root, Strand m D root m₁ →
      Ends (rowNodes row w determinism false [(l, found)] root d₁) m₁ fun r m' =>
        r.2 = d ∧ Strand m H r.1 m') : Draws row w determinism (l :: q) d H := by
  obtain ⟨rest, d', hrest, hlen, hends⟩ := hq
  refine ⟨(l, found) :: rest, d', ?_, by rw [List.length_cons, List.length_cons, hlen], ?_⟩
  · simp only [conditionAll, hfound, hrest, bind, Except.bind, pure, Except.pure]
  · intro m V
    have hempty : rest.reverse.isEmpty = false := by
      rw [List.isEmpty_reverse, List.isEmpty_eq_false_iff, ← List.length_pos_iff, hlen]
      exact List.length_pos_iff.2 hne
    rw [List.reverse_cons, rowNodes_append, hempty, Bool.and_false]
    refine Ends.bind (hends m V) ?_
    rintro ⟨c, d''⟩ m₁ ⟨rfl, S⟩
    exact hstep m m₁ c S

/-- A literal of a variable that has a value gets no node. -/
theorem Draws.skip (hnot : row.contains l = false) (hl : d.condition l.neg = .ok (.redundant, d))
    (hq : Draws row w determinism q d D) (hne : q ≠ []) :
    Draws row w determinism (l :: q) d D := by
  refine hq.cons (by rw [hnot]; exact hl) hne fun m m₁ root S => ?_
  simp only [rowNodes, hnot, Bool.false_eq_true, if_false]
  exact Ends.pure ⟨rfl, S⟩

/-- A literal before that of the row leads to `true'`. -/
theorem Draws.before (C : d.Counts u (l :: ls)) (hls : ls ≠ []) (hnot : row.contains l = false)
    (hq : Draws row w determinism q (d.exclude u ls.length) D) (hne : q ≠ []) :
    Draws row w determinism (l :: q) d (.branch l.value [] (.leaf true) D) := by
  have hcondition := C.condition_neg
  rw [List.isEmpty_eq_false_iff.2 hls, if_neg Bool.false_ne_true] at hcondition
  refine hq.cons (by rw [hnot]; exact hcondition) hne fun m m₁ root S => ?_
  simp only [rowNodes, hnot, Bool.false_eq_true, if_false]
  refine Ends.lift C.undo_neg (Ends.bind (S.branch (C.literal l (List.mem_cons_self ..)).1 rfl
    (Or.inr rfl) (Or.inl rfl) (Or.inr (Or.inr rfl)) .true' S.denotes) ?_)
  exact fun h m' S' => Ends.pure ⟨rfl, S'⟩

theorem lowOf_choose (C : d.Counts u (l :: ls)) : lowOf l (d.choose u) =
    .ok (if ls.isEmpty then Handle.false' else Handle.true', d) := by
  simp only [lowOf, C.undo_pos, C.condition_neg, C.undo_neg, bind, Except.bind, pure, Except.pure]
  cases ls <;> rfl

theorem denotes_terminal {f : Handle → Option Node.Key} {c : Bool} :
    Denotes f (if c then Handle.false' else Handle.true') (.leaf !c) := by
  cases c
  · exact .true'
  · exact .false'

theorem terminal_ite {c : Bool} :
    Handle.isTerminal (if c then Handle.false' else Handle.true') = true := by
  cases c <;> rfl

/-- The literal of the row leads to what follows. -/
theorem Draws.at (C : d.Counts u (l :: ls)) (hin : row.contains l = true)
    (hq : Draws row w determinism q (d.choose u) D) (hne : q ≠ []) :
    Draws row w determinism (l :: q) d (.branch l.value [] D (.leaf !ls.isEmpty)) := by
  refine hq.cons (by rw [hin]; exact C.condition_pos) hne fun m m₁ root S => ?_
  simp only [rowNodes, hin, if_true, Bool.false_eq_true, if_false]
  refine Ends.lift (lowOf_choose C) (Ends.bind (S.branch (C.literal l (List.mem_cons_self ..)).1 rfl
    (Or.inl rfl) (Or.inr terminal_ite) (Or.inr (Or.inl rfl)) S.denotes denotes_terminal) ?_)
  exact fun h m' S' => Ends.pure ⟨rfl, S'⟩

theorem lastHigh_spec (w : Weight) (determinism : Bool) {f : Handle → Option Node.Key} :
    (lastHigh w determinism).2 = (entry determinism w).1 ∧
      (lastHigh w determinism).1.isTerminal = true ∧
      Denotes f (lastHigh w determinism).1 (entry determinism w).2 := by
  unfold lastHigh entry
  split
  · exact ⟨rfl, rfl, .false'⟩
  · split
    · exact ⟨rfl, rfl, .true'⟩
    · exact ⟨rfl, rfl, .true'⟩

/-- The last literal of the row has the weight of the row. -/
theorem draws_last (C : d.Counts u (l :: ls)) (hin : row.contains l = true) :
    Draws row w determinism [l] d
      (.branch l.value (entry determinism w).1 (entry determinism w).2 (.leaf !ls.isEmpty)) := by
  refine ⟨[(l, .satisfiable)], d.choose u, ?_, rfl, fun m V => ?_⟩
  · simp only [conditionAll, hin, if_true, C.condition_pos, bind, Except.bind, pure, Except.pure]
  · have S := Strand.start V
    obtain ⟨hweights, hterm, hhigh⟩ := lastHigh_spec w determinism
    simp only [List.reverse_singleton, rowNodes, hin, if_true]
    refine Ends.lift (lowOf_choose C) ?_
    dsimp only
    rw [hweights]
    refine Ends.bind (S.branch (C.literal l (List.mem_cons_self ..)).1 ascends_entry (Or.inr hterm)
      (Or.inr terminal_ite) (Or.inl rfl) hhigh denotes_terminal) ?_
    exact fun h m' S' => Ends.pure ⟨rfl, S'⟩

/-! ## Blocks -/

theorem draws_skip (hne : q ≠ []) (hls : ∀ l ∈ ls, row.contains l = false ∧
      d.condition l.neg = .ok (.redundant, d)) (hq : Draws row w determinism q d D) :
    Draws row w determinism (ls ++ q) d D := by
  induction ls with
  | nil => exact hq
  | cons l ls ih =>
      obtain ⟨hl, hls⟩ := List.forall_mem_cons.1 hls
      exact (ih hls).skip hl.1 hl.2 (List.append_ne_nil_of_right_ne_nil ls hne)

theorem DomainClosure.counts_exclude {n : Nat} (h : List.Forall₂ d.Counts us bs) (hu : u ∉ us) :
    List.Forall₂ (d.exclude u n).Counts us bs := by
  induction h with
  | nil => exact .nil
  | cons hb _ ih =>
      rw [List.mem_cons, not_or] at hu
      exact .cons (hb.exclude_of_ne (Ne.symm hu.1)) (ih hu.2)

theorem DomainClosure.counts_choose (h : List.Forall₂ d.Counts us bs) (hu : u ∉ us) :
    List.Forall₂ (d.choose u).Counts us bs := by
  induction h with
  | nil => exact .nil
  | cons hb _ ih =>
      rw [List.mem_cons, not_or] at hu
      exact .cons (hb.choose_of_ne (Ne.symm hu.1)) (ih hu.2)

/-- The literals of a block in front of that of the row. -/
theorem draws_before (hu : u ∉ us) (hbs : ∀ b ∈ bs, b ≠ []) (hp : Along bs p)
    (hat : ∀ d : DomainClosure, d.Counts u (l :: post) → List.Forall₂ d.Counts us bs →
      Draws row w determinism (l :: q) d ((single (l :: p) w).chain determinism bs (l :: post)))
    (hls : ∀ l' ∈ ls, row.contains l' = false ∧ l' ≠ l) (C : d.Counts u (ls ++ l :: post))
    (hlater : List.Forall₂ d.Counts us bs) :
    Draws row w determinism (ls ++ l :: q) d
      ((single (l :: p) w).chain determinism bs (ls ++ l :: post)) := by
  induction ls generalizing d with
  | nil => exact hat d C hlater
  | cons l' ls ih =>
      obtain ⟨hl', hls⟩ := List.forall_mem_cons.1 hls
      rw [List.cons_append, List.cons_append, chain_single_before hbs hl'.2 (by simp) hp]
      exact (ih hls C.exclude (DomainClosure.counts_exclude hlater hu)).before C (by simp) hl'.1
        (by simp)

theorem nonempty_of_along (hp : Along bs p) : ∀ b ∈ bs, b ≠ [] := by
  induction hp with
  | nil => exact fun b hb => absurd hb List.not_mem_nil
  | cons hl _ ih => exact List.forall_mem_cons.2 ⟨List.ne_nil_of_mem hl, ih⟩

theorem mem_flatten_of_along (hp : Along bs p) (hl : l ∈ p) : l ∈ bs.flatten := by
  induction hp with
  | nil => exact absurd hl List.not_mem_nil
  | cons hb _ ih =>
      rcases List.mem_cons.1 hl with rfl | hl
      · exact List.mem_append_left _ hb
      · exact List.mem_append_right _ (ih hl)

/-- An ordering is cut after the last literal of a row. -/
structure Cut (row : List Literal) (bs : List (List Literal)) (path : List Literal) : Prop where
  rest : ∃ post, bs.flatten = path ++ post ∧ ∀ l ∈ post, row.contains l = false
  last : ∃ x l, path = x ++ [l] ∧ row.contains l = true

theorem Cut.ne_nil {path : List Literal} (h : Cut row bs path) : path ≠ [] := by
  obtain ⟨x, l, rfl, -⟩ := h.last
  simp

theorem Cut.upToLast {path : List Literal} (h : Cut row bs path) :
    upToLast row bs.flatten = path := by
  obtain ⟨post, hflatten, hpost⟩ := h.rest
  obtain ⟨x, l, rfl, hl⟩ := h.last
  have hdrop : (post.reverse ++ l :: x.reverse).dropWhile (fun l => !row.contains l) =
      l :: x.reverse := by
    rw [List.dropWhile_append_of_pos]
    · rw [List.dropWhile_cons_of_neg (by rw [hl]; decide)]
    · intro k hk
      rw [hpost k (List.mem_reverse.1 hk)]
      rfl
  unfold Decision.upToLast
  rw [hflatten, List.reverse_append, List.reverse_append, List.reverse_singleton,
    List.singleton_append, hdrop, List.reverse_cons, List.reverse_reverse]

/-- Behind the literal of the row, the last block is not needed. -/
theorem Cut.singleton (hl : row.contains l = true) (hpost : ∀ l' ∈ post, row.contains l' = false) :
    Cut row [ls ++ l :: post] (ls ++ [l]) :=
  ⟨⟨post, by simp, hpost⟩, ls, l, rfl, hl⟩

/-- A block before the last one is needed as a whole. -/
theorem Cut.cons {path b : List Literal} (h : Cut row bs path) : Cut row (b :: bs) (b ++ path) := by
  obtain ⟨post, hflatten, hpost⟩ := h.rest
  obtain ⟨x, l, rfl, hl⟩ := h.last
  refine ⟨⟨post, ?_, hpost⟩, b ++ x, l, (List.append_assoc ..).symm, hl⟩
  rw [List.flatten_cons, hflatten, List.append_assoc b]

/-- A path has one literal of its first block. -/
theorem contains_block (hp : Along bs p) (hn : (ls ++ l :: post ++ bs.flatten).Nodup)
    (hrow : ∀ l' ∈ ls ++ l :: post ++ bs.flatten, row.contains l' = true ↔ l' ∈ l :: p) :
    (∀ l' ∈ ls, row.contains l' = false ∧ l' ≠ l) ∧ (∀ l' ∈ post, row.contains l' = false) ∧
      l ∉ post ∧ ∀ l' ∈ bs.flatten, row.contains l' = true ↔ l' ∈ p := by
  obtain ⟨hnb, hnbs, hapart⟩ := List.nodup_append.1 hn
  obtain ⟨-, hnpost, hls⟩ := List.nodup_append.1 hnb
  have hlpost := (List.nodup_cons.1 hnpost).1
  have hother : ∀ l' ∈ ls ++ l :: post, l' ≠ l → row.contains l' = false := by
    intro l' hl' hne
    by_contra hin
    rcases List.mem_cons.1 ((hrow l' (List.mem_append_left _ hl')).1 (by simpa using hin)) with
      he | hmem
    · exact hne he
    · exact hapart l' hl' l' (mem_flatten_of_along hp hmem) rfl
  refine ⟨fun l' hl' => ?_, fun l' hl' => ?_, hlpost, fun l' hl' => ?_⟩
  · have hne : l' ≠ l := hls l' hl' l (List.mem_cons_self ..)
    exact ⟨hother l' (List.mem_append_left _ hl') hne, hne⟩
  · have hmem : l' ∈ ls ++ l :: post := List.mem_append_right _ (List.mem_cons_of_mem _ hl')
    exact hother l' hmem fun he => hlpost (he ▸ hl')
  · have hl : l ∈ ls ++ l :: post := List.mem_append_right _ (List.mem_cons_self ..)
    rw [hrow l' (List.mem_append_right _ hl'), List.mem_cons, or_iff_right]
    rintro rfl
    exact hapart l' hl l' hl' rfl

variable (w determinism) in
/-- The nodes for a row have the tree of its excerpt. -/
theorem draws_tree (hp : Along bs p) (hne : bs ≠ [])
    (hrow : ∀ l ∈ bs.flatten, row.contains l = true ↔ l ∈ p) (hn : bs.flatten.Nodup) :
    ∃ path, Cut row bs path ∧ ∀ (d : DomainClosure) us, us.Nodup → List.Forall₂ d.Counts us bs →
      Draws row w determinism path d ((single p w).tree determinism bs).2 := by
  induction hp with
  | nil => exact absurd rfl hne
  | @cons l b p bs hl hp ih =>
      have hin : row.contains l = true :=
        (hrow l (List.mem_append_left _ hl)).2 (List.mem_cons_self ..)
      obtain ⟨ls, post, rfl⟩ := List.append_of_mem hl
      obtain ⟨hbefore, hafter, hlpost, hrow'⟩ := contains_block hp hn hrow
      cases bs with
      | nil =>
          cases hp
          refine ⟨ls ++ [l], .singleton hin hafter, fun d us _ C => ?_⟩
          obtain ⟨u, us, hC, hnil, rfl⟩ := List.forall₂_cons_right_iff.1 C
          cases hnil
          refine draws_before (by simp) (by simp) .nil (fun d C _ => ?_) hbefore hC .nil
          rw [chain_single_at hlpost .nil]
          have hsingle : (single [] w).tree determinism [] = entry determinism w := rfl
          rw [hsingle]
          exact draws_last C hin
      | cons b' bs =>
          obtain ⟨path, hcut, hdraws⟩ := ih (by simp) hrow' (List.nodup_append.1 hn).2.1
          refine ⟨ls ++ l :: post ++ path, hcut.cons, fun d us hus C => ?_⟩
          obtain ⟨u, us, hC, hlater, rfl⟩ := List.forall₂_cons_right_iff.1 C
          obtain ⟨hu, hus⟩ := List.nodup_cons.1 hus
          rw [List.append_assoc, List.cons_append]
          refine draws_before hu (nonempty_of_along hp) hp (fun d C hlater => ?_) hbefore hC hlater
          rw [chain_single_at hlpost hp]
          exact (draws_skip hcut.ne_nil (fun l' hl' => ⟨hafter l' hl', C.condition_chosen hl'⟩)
            (hdraws _ us hus (DomainClosure.counts_choose hlater hu))).at C hin
              (List.append_ne_nil_of_right_ne_nil post hcut.ne_nil)

/-- The clause of a row has the tree that is drawn for the part of the ordering that it needs, and
the closure comes back as it was. -/
theorem Draws.clause {ordering : List Literal}
    (h : Draws row w determinism (upToLast row ordering) d D) (hne : upToLast row ordering ≠ [])
    (V : m.Valid) : Ends (clause row w ordering d determinism) m fun r m' =>
      r.2 = d ∧ Rooted m D r.1 m' := by
  obtain ⟨found, d', hconditions, -, hends⟩ := h
  unfold Decision.clause
  split
  · rename_i hnil
    exact absurd hnil hne
  · refine Ends.lift hconditions (Ends.bind (hends m V) ?_)
    rintro ⟨root, d''⟩ m₁ ⟨rfl, S⟩
    exact Ends.bind S.reference fun _ m₂ hR => Ends.pure ⟨rfl, hR⟩

/-- The clause of a row is the tree of its excerpt, and the closure comes back as it was. -/
theorem clause_spec (V : m.Valid) (hp : Along bs p) (hne : bs ≠ []) (hn : bs.flatten.Nodup)
    (hrow : ∀ l ∈ bs.flatten, row.contains l = true ↔ l ∈ p) (hus : us.Nodup)
    (C : List.Forall₂ d.Counts us bs) :
    Ends (clause row w bs.flatten d determinism) m fun r m' =>
      r.2 = d ∧ Rooted m ((single p w).tree determinism bs).2 r.1 m' := by
  obtain ⟨path, hcut, hdraws⟩ := draws_tree w determinism hp hne hrow hn
  have h := hdraws d us hus C
  rw [← hcut.upToLast] at h
  exact h.clause (hcut.upToLast.symm ▸ hcut.ne_nil) V

end BayesCircuit.Decision
