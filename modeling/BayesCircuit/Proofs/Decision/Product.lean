import BayesCircuit.Proofs.Decision.Copy
import BayesCircuit.Proofs.Decision.Placement

/-!
# The engine of a conjunction

The engine keeps the nodes that its steps have reached. `Tracks` relates one side of these steps
to a `Stand`: the last step is at the node of the stand, and the node that was left last through
its low edge is found by going back over the steps (`leftNode`).

`advance_spec` and `descend_spec` say that both sides follow their stands when a literal holds and
when it does not. A side that jumps from `false'` to `false'` would lose track, but then the
cofactor is unsatisfiable and nothing is built below it.
-/

namespace BayesCircuit.Decision

open Collection Action Product

variable {m : Manager} {frozen : Handle → Option Node} {same : Int → Int → Bool}
variable {collapse : Bool} {side : Side} {steps : List Step} {p : Product}
variable {l : Literal} {ls rest : List Literal} {s t : Stand} {h c g : Handle} {D : Diagram}

namespace Product

/-- The node that a side left last, if that was through its low edge. The steps come with the last
one first. -/
def leftNode (side : Side) : List Step → Option Handle
  | step :: previous :: rest =>
      if step.nodes.at' side = previous.nodes.at' side then leftNode side (previous :: rest)
      else if step.viaLow.at' side then some (previous.nodes.at' side)
      else none
  | _ => none

theorem jumpFrom_eq : jumpFrom m side l steps = match leftNode side steps with
    | none => .ok none
    | some h => do return if m.sameVariable (← m.node h).literal l.value then some h else none := by
  induction steps with
  | nil => rfl
  | cons step steps ih =>
      cases steps with
      | nil => rfl
      | cons previous rest =>
          rw [jumpFrom, leftNode]
          by_cases hmove : step.nodes.at' side = previous.nodes.at' side
          · rw [if_pos hmove, if_pos (by simpa using hmove), ih]
          · rw [if_neg hmove, if_neg (by simpa using hmove)]
            split <;> rfl

end Product

/-- One side of the steps of an engine is where a stand says. -/
structure Tracks (frozen : Handle → Option Node) (same : Int → Int → Bool) (ls : List Literal)
    (side : Side) (steps : List Step) (s : Stand) : Prop where
  node : ∃ top, steps.head? = some top ∧ Denotes (frozenKey frozen) (top.nodes.at' side) s.node
  live : ∀ {g}, leftNode side steps = some g → ∃ n, frozen g = some n
  idle : s.node ≠ .leaf true → s.left = none → ∀ {g n}, leftNode side steps = some g →
    frozen g = some n → ∀ l ∈ ls, same n.literal l.value = false
  left : s.node ≠ .leaf true → ∀ {n ws H}, s.left = some (n, ws, H) → ∃ g E,
    leftNode side steps = some g ∧ Denotes (frozenKey frozen) g (.branch n ws H E)

theorem Tracks.top {top : Step} (h : Tracks frozen same ls side (top :: steps) s) :
    Denotes (frozenKey frozen) (top.nodes.at' side) s.node := by
  obtain ⟨top', htop, hD⟩ := h.node
  cases htop
  exact hD

theorem Tracks.subset {ls' : List Literal} (h : Tracks frozen same ls side steps s)
    (hs : ls' ⊆ ls) : Tracks frozen same ls' side steps s :=
  ⟨h.node, h.live, fun ht hn _ _ hg hf l hl => h.idle ht hn hg hf l (hs hl), h.left⟩

theorem frozen_of_denotes {n : Int} {ws : Weights} {H E : Diagram}
    (hD : Denotes (frozenKey frozen) h (.branch n ws H E)) : ∃ a, frozen h = some a ∧
      a.literal = n ∧ a.weights = ws ∧ Denotes (frozenKey frozen) a.high H ∧
      Denotes (frozenKey frozen) a.low E := by
  obtain ⟨_, k, hk, hn, hw, hH, hE⟩ := hD.cases_branch
  obtain ⟨a, ha, rfl⟩ := Option.map_eq_some_iff.1 hk
  exact ⟨a, ha, hn, hw, hH, hE⟩

/-- The child of a node is another handle. -/
theorem Denotes.ne_high {f : Handle → Option Node.Key} {n : Int} {ws : Weights} {H E : Diagram}
    (hD : Denotes f h (.branch n ws H E)) (hc : Denotes f c H) : c ≠ h :=
  hc.ne_of_depth_lt hD (by simp only [Diagram.depth]; omega)

theorem Denotes.ne_low {f : Handle → Option Node.Key} {n : Int} {ws : Weights} {H E : Diagram}
    (hD : Denotes f h (.branch n ws H E)) (hc : Denotes f c E) : c ≠ h :=
  hc.ne_of_depth_lt hD (by simp only [Diagram.depth]; omega)

/-! ## Jumps -/

section Jumps

variable (Hm : Heap frozen 0 m)

include Hm

theorem Tracks.jumpFrom_ok (h : Tracks frozen same ls side steps s) (l : Literal) :
    ∃ r, jumpFrom m side l steps = .ok r := by
  rw [jumpFrom_eq]
  cases hg : leftNode side steps with
  | none => exact ⟨_, rfl⟩
  | some g =>
      obtain ⟨n, hn⟩ := h.live hg
      have hnode : m.node g = .ok n := Arena.get_eq_ok (Hm.kept hn)
      simp only [hnode]
      exact ⟨_, rfl⟩

/-- A side that has not left a node stays where it is. -/
theorem Tracks.jumpFrom_of_none (h : Tracks frozen m.sameVariable ls side steps s)
    (ht : s.node ≠ .leaf true) (hn : s.left = none) (hl : l ∈ ls) :
    jumpFrom m side l steps = .ok none := by
  rw [jumpFrom_eq]
  cases hg : leftNode side steps with
  | none => rfl
  | some g =>
      obtain ⟨n, hf⟩ := h.live hg
      have hnode : m.node g = .ok n := Arena.get_eq_ok (Hm.kept hf)
      simp only [hnode]
      have := h.idle ht hn hg hf l hl
      simp [this, bind, Except.bind, pure, Except.pure]

/-- A side jumps from the node that it has left last. -/
theorem Tracks.jumpFrom_of_some {n : Int} {ws : Weights} {H : Diagram}
    (h : Tracks frozen same ls side steps s) (ht : s.node ≠ .leaf true)
    (hn : s.left = some (n, ws, H)) : ∃ g E, Denotes (frozenKey frozen) g (.branch n ws H E) ∧
      jumpFrom m side l steps = .ok (if m.sameVariable n l.value then some g else none) := by
  obtain ⟨g, E, hg, hD⟩ := h.left ht hn
  obtain ⟨a, ha, rfl, _, _, _⟩ := frozen_of_denotes hD
  refine ⟨g, E, hD, ?_⟩
  have hnode : m.node g = .ok a := Arena.get_eq_ok (Hm.kept ha)
  rw [jumpFrom_eq, hg]
  simp only [hnode, bind, Except.bind, pure, Except.pure]

end Jumps

/-! ## A literal that holds -/

variable {top : Step}

/-- The answer of a side at the handle `h` to a literal that holds, beside that of its stand. -/
inductive Fires (frozen : Handle → Option Node) (h : Handle) :
    Option (Handle × Weights) → Option (Weights × Diagram) → Prop
  | idle : Fires frozen h none none
  | moved {c : Handle} {ws : Weights} {H : Diagram} : Denotes (frozenKey frozen) c H →
      (c = h → H = .leaf false) → Fires frozen h (some (c, ws)) (some (ws, H))

/-- A side that has left a node can jump from it at the next literal. -/
theorem Placed.head_same {n : Int} {ws : Weights} {H : Diagram} (hP : Placed same (l :: rest) s)
    (ht : s.node ≠ .leaf true) (hl : s.left = some (n, ws, H)) : same n l.value = true := by
  generalize hls : l :: rest = ls' at hP
  cases hP with
  | ended => exact absurd rfl ht
  | between => cases hl
  | inside _ _ hB =>
      rw [List.cons_append, List.cons.injEq] at hls
      obtain ⟨rfl, rfl⟩ := hls
      rcases hB with ⟨n', ws', H', hT⟩ | ⟨hn, _⟩
      · rw [hT.left] at hl
        cases hl
        exact hT.within l (List.mem_cons_self ..)
      · rw [hn] at hl
        cases hl

/-- A side that jumps reaches another diagram, or stays at `false'`. -/
theorem Placed.jump_ne {n : Int} {ws : Weights} {H : Diagram} (hP : Placed same ls s)
    (hl : s.left = some (n, ws, H)) (hs : s.node = H) :
    H = .leaf true ∨ H = .leaf false := by
  cases hP with
  | ended => exact Or.inl hs.symm
  | between => cases hl
  | @inside l ls bs s hL hw hB =>
      rcases hB with ⟨n', ws', H', hT⟩ | ⟨hn, _⟩
      · rw [hT.left] at hl
        cases hl
        cases H with
        | leaf c => cases c <;> simp
        | branch n'' ws'' H'' L'' =>
            -- a node of the chain belongs to the block, the high child does not
            have hu := hw.untested hT.high
            have hchain := hT.chain
            rw [hs] at hchain
            unfold Chain at hchain
            split at hchain
            · rename_i he
              exact absurd (by rw [he]; rfl) (hu l (List.mem_cons_self ..))
            · obtain ⟨l', hl', he⟩ := List.mem_map.1 (hchain.1 (by decide))
              exact absurd (by rw [he]; rfl) (hu l' (List.mem_cons_of_mem _ hl'))
      · rw [hn] at hl
        cases hl

/-- A side whose node does not test a literal can only jump. -/
theorem advance_of_untested (Hm : Heap frozen 0 m) (hD : Denotes (frozenKey frozen) h D)
    (hl : D.literal? ≠ some l.value) :
    p.advance m l side h = if p.collapsed && h != Handle.true' then do
        match ← jumpFrom m side l p.steps with
        | some parent =>
            let n ← m.node parent
            return some (n.high, n.weights)
        | none => return none
      else .ok none := by
  unfold advance
  cases ht : h.isTerminal with
  | true => rfl
  | false =>
      obtain ⟨k, H, L, hk, _, _, rfl⟩ := hD.cases_node ht
      obtain ⟨a, ha, rfl⟩ := Option.map_eq_some_iff.1 hk
      have hnode : m.node h = .ok a := Arena.get_eq_ok (Hm.kept ha)
      have hne : (a.literal == l.value) = false := by
        simpa [Diagram.literal?, Node.key] using hl
      rw [hnode]
      simp only [bind, Except.bind, pure, Except.pure, hne]
      rfl

/-- Both sides of an engine react to a literal that holds as their stands do. -/
theorem Tracks.advance_spec (Hm : Heap frozen 0 m) (hsame : sameIf collapse m.sameVariable = same)
    (h : Tracks frozen same (l :: ls) side p.steps s) (hP : Placed same (l :: ls) s)
    (hc : p.collapsed = collapse) (htop : p.steps.head? = some top) :
    ∃ r, p.advance m l side (top.nodes.at' side) = .ok r ∧
      Fires frozen (top.nodes.at' side) r (s.fire l) := by
  obtain ⟨top', htop', hD⟩ := h.node
  obtain rfl : top = top' := Option.some.inj (htop.symm.trans htop')
  generalize top.nodes.at' side = g at hD
  rcases fire_cases s l with ⟨ws, H, L, hs, hf, _⟩ | ⟨hl, _, hf⟩
  · -- the node tests the literal
    rw [hs] at hD
    obtain ⟨a, ha, hlit, rfl, hH, _⟩ := frozen_of_denotes hD
    have hnode : m.node g = .ok a := Arena.get_eq_ok (Hm.kept ha)
    have hterm : g.isTerminal = false := hD.cases_branch.1
    refine ⟨some (a.high, a.weights), ?_, ?_⟩
    · simp [advance, hterm, hnode, hlit, bind, Except.bind, pure, Except.pure]
    · rw [hf]
      exact .moved hH fun he => absurd he (hD.ne_high hH)
  rw [advance_of_untested Hm hD hl, hf, hc]
  by_cases ht : s.node = .leaf true
  · obtain rfl := hD.eq_true_iff.2 ht
    rw [if_pos ht]
    exact ⟨none, by simp, .idle⟩
  have hg : (g != Handle.true') = true := by simpa [hD.eq_true_iff] using ht
  rw [if_neg ht]
  cases hleft : s.left with
  | none =>
      refine ⟨none, ?_, .idle⟩
      cases collapse with
      | false => simp
      | true =>
          rw [sameIf_true] at hsame
          subst hsame
          have hjump := h.jumpFrom_of_none Hm ht hleft (List.mem_cons_self ..)
          simp [hg, hjump, bind, Except.bind, pure, Except.pure]
  | some q =>
      obtain ⟨n, ws, H⟩ := q
      have hnl := hP.head_same ht hleft
      cases collapse with
      | false =>
          rw [← hsame] at hnl
          cases hnl
      | true =>
          rw [sameIf_true] at hsame
          subst hsame
          obtain ⟨g', E, hg', hjump⟩ := h.jumpFrom_of_some (l := l) Hm ht hleft
          rw [if_pos hnl] at hjump
          obtain ⟨a, ha, _, rfl, hH, _⟩ := frozen_of_denotes hg'
          have hnode : m.node g' = .ok a := Arena.get_eq_ok (Hm.kept ha)
          refine ⟨some (a.high, a.weights), ?_, .moved hH ?_⟩
          · simp [hg, hjump, hnode, bind, Except.bind, pure, Except.pure]
          · rintro rfl
            have hs := hD.unique hH
            exact (hP.jump_ne hleft hs).resolve_left (hs ▸ ht)

variable {r : Option (Handle × Weights)} {step : Step}

/-- Where a side stands after a literal that holds. -/
theorem Fires.denotes (hr : Fires frozen h r (s.fire l)) (hD : Denotes (frozenKey frozen) h s.node) :
    Denotes (frozenKey frozen) (r.elim h (·.1)) (firedNode (s.fire l) s) := by
  generalize s.fire l = q at hr
  cases hr with
  | idle => exact hD
  | moved hc _ => exact hc

theorem Fires.weights (hr : Fires frozen h r (s.fire l)) :
    r.elim [] (·.2) = (s.fire l).elim [] (·.1) := by
  generalize s.fire l = q at hr
  cases hr <;> rfl

theorem Fires.isNone (hr : Fires frozen h r (s.fire l)) : r = none ↔ s.fire l = none := by
  generalize s.fire l = q at hr
  cases hr <;> simp

/-- The step of a literal that holds. -/
theorem Tracks.fire (h : Tracks frozen same (l :: ls) side (top :: steps) s)
    (hr : Fires frozen (top.nodes.at' side) r (s.fire l))
    (hstep : step.nodes.at' side = r.elim (top.nodes.at' side) (·.1))
    (hlow : step.viaLow.at' side = false) (hne : firedNode (s.fire l) s ≠ .leaf false) :
    Tracks frozen same ls side (step :: top :: steps) ⟨firedNode (s.fire l) s, none⟩ := by
  have hnode := hr.denotes h.top
  rw [← hstep] at hnode
  cases hf : s.fire l with
  | none =>
      -- the side stays, and has left no node unless it has come to its end
      rw [hf] at hr hnode
      cases hr
      have hleft : leftNode side (step :: top :: steps) = leftNode side (top :: steps) := by
        rw [leftNode, if_pos (show _ = top.nodes.at' side from hstep)]
      refine ⟨⟨step, rfl, hnode⟩, fun hg => h.live (hleft ▸ hg), ?_, fun _ _ _ _ hn => by cases hn⟩
      intro ht _ g n hg hg' l' hl'
      rw [firedNode_none] at ht
      have hn : s.left = none := by
        rcases fire_cases s l with ⟨_, _, _, _, hf', _⟩ | ⟨_, _, hf'⟩
        · rw [hf'] at hf
          cases hf
        · rw [hf', if_neg ht, Option.map_eq_none_iff] at hf
          exact hf
      exact h.idle ht hn (hleft ▸ hg) hg' l' (List.mem_cons_of_mem _ hl')
  | some q =>
      rw [hf] at hr hnode hne
      cases hr with
      | @moved c ws H hH hc =>
          have hmove : step.nodes.at' side ≠ top.nodes.at' side := by
            intro he
            exact hne (hc (hstep.symm.trans he))
          have hleft : leftNode side (step :: top :: steps) = none := by
            rw [leftNode, if_neg hmove, if_neg (by simp [hlow])]
          refine ⟨⟨step, rfl, hnode⟩, fun hg => ?_, fun _ _ _ _ hg => ?_,
            fun _ _ _ _ hn => by cases hn⟩
          all_goals
            rw [hleft] at hg
            cases hg

/-- Where a literal that does not hold leads. -/
theorem descend_spec (Hm : Heap frozen 0 m) (hD : Denotes (frozenKey frozen) h s.node) :
    ∃ c b, descend m l h = .ok (c, b) ∧ Denotes (frozenKey frozen) c (s.descend l).node ∧
      (b = false ∧ c = h ∧ s.descend l = s ∨ b = true ∧ c ≠ h ∧ ∃ ws H L,
        s.node = .branch l.value ws H L ∧ s.descend l = ⟨L, some (l.value, ws, H)⟩) := by
  rcases fire_cases s l with ⟨ws, H, L, hs, _, hd⟩ | ⟨hl, hd, _⟩
  · rw [hs] at hD
    obtain ⟨a, ha, hlit, rfl, _, hL⟩ := frozen_of_denotes hD
    have hnode : m.node h = .ok a := Arena.get_eq_ok (Hm.kept ha)
    have hterm : h.isTerminal = false := hD.cases_branch.1
    refine ⟨a.low, true, ?_, by rwa [hd], Or.inr ⟨rfl, hD.ne_low hL, _, H, L, hs, hd⟩⟩
    simp [descend, hterm, hnode, hlit, bind, Except.bind, pure, Except.pure]
  · refine ⟨h, false, ?_, by rwa [hd], Or.inl ⟨rfl, rfl, hd⟩⟩
    cases ht : h.isTerminal with
    | true => simp [descend, ht, pure, Except.pure]
    | false =>
        obtain ⟨k, H, L, hk, _, _, he⟩ := hD.cases_node ht
        obtain ⟨a, ha, rfl⟩ := Option.map_eq_some_iff.1 hk
        have hnode : m.node h = .ok a := Arena.get_eq_ok (Hm.kept ha)
        have hne : a.literal ≠ l.value := by
          rw [he] at hl
          simpa [Diagram.literal?, Node.key] using hl
        simp [descend, ht, hnode, hne, bind, Except.bind, pure, Except.pure]

/-- The step of a literal that does not hold. -/
theorem Tracks.descend {b : Bool} (h : Tracks frozen same (l :: ls) side (top :: steps) s)
    (hD : Denotes (frozenKey frozen) c (s.descend l).node)
    (hb : b = false ∧ c = top.nodes.at' side ∧ s.descend l = s ∨
      b = true ∧ c ≠ top.nodes.at' side ∧ ∃ ws H L,
        s.node = .branch l.value ws H L ∧ s.descend l = ⟨L, some (l.value, ws, H)⟩)
    (hstep : step.nodes.at' side = c) (hlow : step.viaLow.at' side = b) :
    Tracks frozen same ls side (step :: top :: steps) (s.descend l) := by
  subst hstep hlow
  rcases hb with ⟨hlow, hc, hd⟩ | ⟨hlow, hc, ws, H, L, hs, hd⟩
  · have hleft : leftNode side (step :: top :: steps) = leftNode side (top :: steps) := by
      rw [leftNode, if_pos hc]
    rw [hd] at hD ⊢
    refine ⟨⟨step, rfl, hD⟩, fun hg => h.live (hleft ▸ hg), ?_, ?_⟩
    · intro ht hn g n hg hf l' hl'
      exact h.idle ht hn (hleft ▸ hg) hf l' (List.mem_cons_of_mem _ hl')
    · intro ht n ws H hn
      rw [hleft]
      exact h.left ht hn
  · have hleft : leftNode side (step :: top :: steps) = some (top.nodes.at' side) := by
      rw [leftNode, if_neg hc, if_pos hlow]
    have hDs := h.top
    rw [hs] at hDs
    rw [hd] at hD ⊢
    refine ⟨⟨step, rfl, hD⟩, ?_, ?_, ?_⟩
    · intro g hg
      rw [hleft] at hg
      cases hg
      obtain ⟨a, ha, _⟩ := frozen_of_denotes hDs
      exact ⟨a, ha⟩
    · intro _ hn
      cases hn
    · intro _ n ws' H' hn
      cases hn
      exact ⟨_, L, hleft, hDs⟩

/-- Nothing is forgotten but what the following literals do not need. -/
theorem Tracks.settle (h : Tracks frozen same ls side steps (s.descend l))
    (hP : Placed same (l :: ls) s) :
    Tracks frozen same ls side steps ((s.descend l).settle same ls.head?) := by
  refine ⟨h.node, h.live, ?_, ?_⟩
  · intro hne hn g n hg hf l' hl'
    cases hleft : (s.descend l).left with
    | none => exact h.idle hne hleft hg hf l' hl'
    | some q =>
        obtain ⟨n', ws, H⟩ := q
        obtain ⟨g', E, hg', hD⟩ := h.left hne hleft
        obtain ⟨a, ha, rfl, _⟩ := frozen_of_denotes hD
        rw [hg] at hg'
        cases hg'
        rw [hf] at ha
        cases ha
        exact hP.apart (fun he => hne (by rwa [descend_of_true he])) hleft hn l' hl'
  · intro hne n ws H hn
    obtain ⟨hn, _⟩ := Option.filter_eq_some_iff.1 hn
    exact h.left hne hn

end BayesCircuit.Decision
