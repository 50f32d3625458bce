import BayesCircuit.Proofs.Decision.Forward
import BayesCircuit.Proofs.Decision.Proper
import BayesCircuit.Proofs.Decision.Shared
import BayesCircuit.Proofs.Outcome

/-!
# Constructions are canonical

A diagram is *canonical* if no two of its decision nodes are equal, and *collapsed* if no low child
can be left out in it. Solving a table and conjoining two diagrams give canonical diagrams whenever
they give any. If they collapse, and if what they copy was canonical and collapsed, the result is
collapsed as well (`construction_canonical`).

A canonical diagram is collapsed if and only if its tree is `Tight`. This is the property that the
trees of all finished nodes have during a pass: a pass leaves out low children before it looks for
the twin of a node, and the twin is finished and has the same tree.
-/

namespace BayesCircuit.Decision

open Collection Action

variable {σ : Type} {E : Engine σ} {m m' : Manager} {frozen : Handle → Option Node}
variable {table : Table} {a b c g h : Handle} {f : Handle → Option Node.Key} {D : Diagram}
variable {P : Diagram → Prop} {same : Int → Int → Bool} {reuse plain : Prop}
variable {collapse expired : Bool} {ordering : List Literal}

/-- No two decision nodes of a diagram are equal. -/
def Manager.Canonical (m : Manager) (c : Handle) : Prop :=
  ∀ g h k, Below m.key? c g → Below m.key? c h → g.isTerminal = false → h.isTerminal = false →
    m.key? g = some k → m.key? h = some k → g = h

/-- No low child can be left out in a diagram. -/
def Manager.Collapsed (m : Manager) (c : Handle) : Prop :=
  ∀ g, Below m.key? c g → m.canCollapse g = .ok false

/-! ## Trees of collapsed diagrams -/

/-- What a tree hands down to its parts, it hands down to everything below its root. -/
theorem Denotes.inherits (hP : ∀ {l ws H L}, P (.branch l ws H L) → P H ∧ P L)
    (hD : Denotes f c D) (hPD : P D) (hb : Below f c g) : ∃ E, Denotes f g E ∧ P E := by
  induction hb with
  | refl => exact ⟨D, hD, hPD⟩
  | tail _ he ih =>
      obtain ⟨E, hE, hPE⟩ := ih
      obtain ⟨ht, k, hk, hkh⟩ := he
      obtain ⟨k', H, L, hk', hH, hL, rfl⟩ := hE.cases_node ht
      obtain rfl := Option.some.inj (hk.symm.trans hk')
      rcases hkh with rfl | rfl
      · exact ⟨H, hH, (hP hPE).1⟩
      · exact ⟨L, hL, (hP hPE).2⟩

theorem Diagram.Tight.children {l : Int} {ws : Weights} {H L : Diagram}
    (h : (Diagram.branch l ws H L).Tight same) : H.Tight same ∧ L.Tight same :=
  ⟨h.1, h.2.1⟩

theorem canCollapse_terminal (hc : c.isTerminal = true) : m.canCollapse c = .ok false := by
  rw [Manager.canCollapse, if_pos hc]
  rfl

theorem Manager.Collapsed.of_tight (hD : Denotes m.key? c D) (hT : D.Tight m.sameVariable) :
    m.Collapsed c := by
  intro g hg
  obtain ⟨E, hE, hTE⟩ := hD.inherits Diagram.Tight.children hT hg
  cases ht : g.isTerminal with
  | true => exact canCollapse_terminal ht
  | false =>
      obtain ⟨b, hb, hcan, -⟩ := canCollapse_of_denotes ht hE
      cases b with
      | false => exact hb
      | true =>
          obtain ⟨k, kg, H, Z, S, rfl⟩ := hcan rfl
          -- without the low child the tree would be smaller
          have hlow := hTE.2.2
          rw [Diagram.lowAfter, if_pos ⟨S.same, rfl, rfl, S.ne_true⟩] at hlow
          have hle : (Diagram.lowAfter m.sameVariable k.literal k.weights H Z).depth ≤ Z.depth :=
            depth_lowAfter_le
          rw [hlow] at hle
          simp only [Diagram.depth] at hle
          omega

/-- In a canonical diagram, a tree has one node only. -/
theorem Manager.Canonical.eq_of_denotes (hC : m.Canonical c) (hg : Below m.key? c g)
    (hh : Below m.key? c h) (hD : Denotes m.key? g D) (hE : Denotes m.key? h D) : g = h := by
  refine hD.eq_of_distinct hE hg hh (fun hi ht hk => ⟨?_, ?_⟩)
    fun hi hj hti htj hki hkj => hC _ _ _ hi hj hti htj hki hkj
  · exact hi.tail ⟨ht, _, hk, Or.inl rfl⟩
  · exact hi.tail ⟨ht, _, hk, Or.inr rfl⟩

theorem Manager.Collapsed.tight (hS : m.Collapsed c) (hC : m.Canonical c)
    (hD : Denotes m.key? c D) : D.Tight m.sameVariable := by
  suffices ∀ {g}, Denotes m.key? g D → Below m.key? c g → D.Tight m.sameVariable from
    this hD .refl
  intro g hg
  clear hD
  induction hg with
  | false' => exact fun _ => trivial
  | true' => exact fun _ => trivial
  | @node h k H L ht hk hH hL ihH ihL =>
      intro hb
      have hhigh : Below m.key? c k.high := hb.tail ⟨ht, k, hk, Or.inl rfl⟩
      have hlow : Below m.key? c k.low := hb.tail ⟨ht, k, hk, Or.inr rfl⟩
      obtain ⟨b, hcan, -, hstop⟩ := canCollapse_of_denotes ht (.node ht hk hH hL)
      obtain rfl : false = b := Except.ok.inj ((hS h hb).symm.trans hcan)
      have hshares : SharesHigh m h := by
        intro k' kg H' hk' hinner hkg hH' hHg
        obtain rfl := Option.some.inj (hk.symm.trans hk')
        exact hC.eq_of_denotes (hlow.tail ⟨hinner, kg, hkg, Or.inl rfl⟩) hhigh hHg hH'
      have hskip := hstop rfl hshares
      rw [Diagram.skip, Diagram.branch.injEq] at hskip
      exact ⟨ihH hhigh, ihL hlow, hskip.2.2.2⟩

/-- A finished node has a tight tree if its children have and it is collapsed. -/
theorem admissible_tight (hplain : plain → collapse = true) :
    Admissible (fun D => plain → D.Tight same) (sameIf collapse same) where
  leaf _ _ := trivial
  children hT := ⟨fun hp => (hT hp).1, fun hp => (hT hp).2.1⟩
  node hH hL hp := by
    rw [hplain hp, sameIf_true]
    exact ⟨hH hp, (hL hp).lowAfter, lowAfter_lowAfter fun _ => rfl⟩

/-- A node whose children are terminals is a canonical and collapsed diagram. -/
theorem canonical_of_terminal_children {n : Node} (hh : h.isTerminal = false)
    (hn : m.arena.get? h = some n) (hhigh : n.high.isTerminal = true)
    (hlow : n.low.isTerminal = true) : m.Canonical h ∧ m.Collapsed h := by
  have hbelow : ∀ {g}, Below m.key? h g → g = h ∨ g.isTerminal = true := by
    intro g hg
    induction hg with
    | refl => exact Or.inl rfl
    | tail _ he ih =>
        obtain ⟨ht, k, hk, hkh⟩ := he
        obtain rfl := ih.resolve_right (by simp [ht])
        obtain rfl := Option.some.inj ((key?_of_get? hn).symm.trans hk)
        refine Or.inr ?_
        rcases hkh with rfl | rfl
        · exact hhigh
        · exact hlow
  constructor
  · intro g g' k hg hg' ht ht' _ _
    exact ((hbelow hg).resolve_right (by simp [ht])).trans
      ((hbelow hg').resolve_right (by simp [ht'])).symm
  · intro g hg
    rcases hbelow hg with rfl | ht
    · exact canCollapse_of_terminal hh hn hlow
    · exact canCollapse_terminal ht

/-! ## Roots -/

/-- What a construction that started at `m` returns. -/
structure Constructed (P : Diagram → Prop) (m : Manager) (c : Handle) (m' : Manager) : Prop where
  canonical : m'.Canonical c
  tree : ∃ D, Denotes m'.key? c D ∧ P D
  literalVariables : m'.literalVariables = m.literalVariables

theorem Tidy.canonical (T : Tidy frozen ∅ m table) (hc : Standing frozen ∅ m c) :
    m.Canonical c := by
  intro g h k hg hh htg hth hkg hkh
  have hyoung : ∀ {j : Handle}, Below m.key? c j → j.isTerminal = false → frozen j = none :=
    fun hj ht => (T.heap.young_of_below hc.ready.young hj).resolve_left (by simp [ht])
  exact T.eq_of_key (hyoung hg htg) (hyoung hh hth) (Set.notMem_empty _) (Set.notMem_empty _) hkg
    hkh

/-- The caller gets a reference to what is finished. -/
theorem constructed_reference (A : Admissible P same)
    (S : Proper reuse P m.literalVariables frozen ∅ m' table) (hc : Standing frozen ∅ m' c) :
    Gives (reference c) m' fun _ m'' => Constructed P m c m'' := by
  refine Gives.mono (.of_ends (reference_spec S.tidy.heap hc.sound)) ?_
  rintro _ m'' ⟨-, hr⟩
  have hcan : m''.Canonical c := by
    unfold Manager.Canonical
    rw [hr.key]
    exact S.tidy.canonical hc
  exact ⟨hcan, hr.key ▸ S.exists_tree A hc, hr.literalVariables.trans S.literalVariables⟩

theorem constructed_build {I : σ → Prop} {engine : σ} (V : m.Valid)
    (A : Admissible P (sameIf collapse m.sameVariable)) (hE : E.Passive reuse)
    (hI : E.Supplies m.arena.get? P I) (hs : I engine) (hrec : reuse → ∀ c, ¬ m.Records c) :
    Gives (build E engine ordering collapse expired) m (Constructed P m) := by
  unfold build
  refine Gives.bind (.of_ends V.newTable) ?_
  rintro table m₀ ⟨hm, T⟩
  obtain rfl : m = m₀ := hm.symm
  have hsame : ∀ {m' : Manager}, m'.literalVariables = m.literalVariables →
      sameIf collapse m'.sameVariable = sameIf collapse m.sameVariable := by
    intro m' hv
    rw [sameVariable_congr hv]
  refine Gives.bind (proper_buildFrom V.wellFormed A hsame hE hI ordering 0 ∅ ⟨table, engine, 0⟩ m
    hs (T.proper hrec)) ?_
  rintro ⟨c, p⟩ m₁ ⟨S, hc, -⟩
  exact Gives.bind (constructed_reference A S hc) fun _ _ hr => Gives.pure hr

theorem constructed_copy (V : m.Valid) (A : Admissible P same) (hD : Denotes m.key? h D)
    (hP : P D) : Gives (do
      let (c, _) ← copy (← newTable) h
      reference c
      return c) m (Constructed P m) := by
  refine Gives.bind (.of_ends V.newTable) ?_
  rintro table m₀ ⟨hm, T⟩
  obtain rfl : m = m₀ := hm.symm
  have S₀ : Proper False P m.literalVariables m.arena.get? ∅ m table := T.proper False.elim
  refine Gives.bind (proper_copy V.wellFormed A S₀ hD hP) ?_
  rintro ⟨c, table'⟩ m₁ ⟨S, hc⟩
  exact Gives.bind (constructed_reference A S hc) fun _ _ hr => Gives.pure hr

/-! ## Tables -/

/-- The only diagram that the engine of a table copies is `true'`. -/
theorem Rows.supplies (A : Admissible P same) : Rows.engine.Supplies frozen P fun _ => True where
  condition _ _ := Gives.mono gives_lift fun _ _ _ => trivial
  undo _ := trivial
  trivial {s c} _ hc := by
    obtain rfl : Handle.true' = c := Except.ok.inj hc
    exact ⟨_, .true', A.leaf true⟩
  record := Gives.pure rfl

/-! ## Products -/

theorem Original.children (A : Admissible P same) (H : Heap frozen 0 m)
    (ho : Original frozen P c) (hc : c.isTerminal = false) {n : Node} (hn : m.node c = .ok n) :
    Original frozen P n.high ∧ Original frozen P n.low := by
  obtain ⟨D, hD, hP⟩ := ho
  obtain ⟨k, HD, LD, hk, hH, hL, rfl⟩ := hD.cases_node hc
  obtain ⟨n', hn', rfl⟩ := Option.map_eq_some_iff.1 hk
  obtain rfl : n' = n := Except.ok.inj ((node_eq_ok (H.kept hn')).symm.trans hn)
  obtain ⟨hPH, hPL⟩ := A.children hP
  exact ⟨⟨_, hH, hPH⟩, _, hL, hPL⟩

namespace Product

variable {p q : Product} {l : Literal} {side : Side} {steps : List Step}

/-- All steps are at frozen diagrams that have the property, and the low edges that they took are
those of decision nodes. -/
structure Rides (frozen : Handle → Option Node) (P : Diagram → Prop) (p : Product) : Prop where
  original : ∀ step ∈ p.steps, ∀ side : Side, Original frozen P (step.nodes.at' side)
  viaLow : p.steps.IsChain fun step previous => ∀ side : Side, step.viaLow.at' side = true →
    (previous.nodes.at' side).isTerminal = false

theorem rides_start (ha : Original frozen P a) (hb : Original frozen P b) :
    (Product.start a b collapse).Rides frozen P where
  original step hstep side := by
    rw [List.mem_singleton.1 hstep]
    cases side
    · exact ha
    · exact hb
  viaLow := List.isChain_singleton _

theorem Rides.push {top : Step} {via : Both Bool} (R : p.Rides frozen P) (htop : p.top = .ok top)
    (ha : Original frozen P a) (hb : Original frozen P b)
    (hvia : ∀ side : Side, via.at' side = true → (top.nodes.at' side).isTerminal = false) :
    ({ p with steps := ⟨⟨a, b⟩, via⟩ :: p.steps } : Product).Rides frozen P where
  original step hstep side := by
    rcases List.mem_cons.1 hstep with rfl | hstep
    · cases side
      · exact ha
      · exact hb
    · exact R.original step hstep side
  viaLow := by
    refine List.isChain_cons.2 ⟨fun previous hprevious => ?_, R.viaLow⟩
    obtain rfl := Option.some.inj ((Outcome.expect_eq_ok.1 htop).symm.trans hprevious)
    exact hvia

theorem Rides.top_original {top : Step} (R : p.Rides frozen P) (htop : p.top = .ok top)
    (side : Side) : Original frozen P (top.nodes.at' side) :=
  R.original top (List.mem_of_head? (Outcome.expect_eq_ok.1 htop)) side

theorem Rides.undo (R : p.Rides frozen P) : p.undo.Rides frozen P where
  original step hstep := R.original step (List.mem_of_mem_tail hstep)
  viaLow := R.viaLow.tail

/-- The node that a side left last is a decision node of its diagram. -/
theorem leftNode_spec (hvia : steps.IsChain fun step previous => ∀ side : Side,
      step.viaLow.at' side = true → (previous.nodes.at' side).isTerminal = false)
    (hg : leftNode side steps = some g) :
    g.isTerminal = false ∧ ∃ step ∈ steps, step.nodes.at' side = g := by
  induction steps with
  | nil => cases hg
  | cons step steps ih =>
      cases steps with
      | nil => cases hg
      | cons previous rest =>
          obtain ⟨hlow, hrest⟩ := List.isChain_cons_cons.1 hvia
          rw [leftNode] at hg
          split at hg
          · obtain ⟨ht, s, hs, he⟩ := ih hrest hg
            exact ⟨ht, s, List.mem_cons_of_mem _ hs, he⟩
          · split at hg
            · rename_i hvia
              obtain rfl := Option.some.inj hg
              exact ⟨hlow side hvia, previous, by simp, rfl⟩
            · cases hg

theorem Rides.of_jump (R : p.Rides frozen P) (hg : jumpFrom m side l p.steps = .ok (some g)) :
    g.isTerminal = false ∧ Original frozen P g := by
  rw [jumpFrom_eq] at hg
  split at hg
  · cases hg
  · rename_i left hleft
    obtain ⟨ht, step, hstep, rfl⟩ := leftNode_spec R.viaLow hleft
    obtain ⟨n, -, hg⟩ := Outcome.bind_eq_ok_iff.1 hg
    have hg := Except.ok.inj hg
    split at hg
    · obtain rfl := Option.some.inj hg
      exact ⟨ht, R.original step hstep side⟩
    · cases hg

/-- A literal that holds leads to an original. -/
theorem Rides.of_advance {ws : Weights} (R : p.Rides frozen P) (A : Admissible P same)
    (H : Heap frozen 0 m) (ho : Original frozen P h)
    (hadv : p.advance m l side h = .ok (some (c, ws))) : Original frozen P c := by
  obtain ⟨D, hD, hP⟩ := ho
  by_cases hl : D.literal? = some l.value
  · -- the node tests the literal
    cases D with
    | leaf => cases hl
    | branch =>
        obtain ⟨a, ha, hn, -⟩ := frozen_of_denotes hD
        have hlit : a.literal = l.value := hn.trans (Option.some.inj hl)
        have hnode : m.node h = .ok a := Arena.get_eq_ok (H.kept ha)
        have ht : h.isTerminal = false := hD.cases_branch.1
        have hmoves : p.advance m l side h = .ok (some (a.high, a.weights)) := by
          simp [advance, ht, hnode, hlit, bind, Except.bind, pure, Except.pure]
        cases hmoves.symm.trans hadv
        exact (Original.children A H ⟨_, hD, hP⟩ ht hnode).1
  rw [advance_of_untested H hD hl] at hadv
  split at hadv
  · obtain ⟨parent, hparent, hadv⟩ := Outcome.bind_eq_ok_iff.1 hadv
    cases parent with
    | none => cases hadv
    | some parent =>
        obtain ⟨n, hn, hadv⟩ := Outcome.bind_eq_ok_iff.1 hadv
        cases hadv
        obtain ⟨ht, ho⟩ := R.of_jump hparent
        exact (ho.children A H ht hn).1
  · cases hadv

/-- A literal that does not hold leads to an original, through the low edge of a decision node. -/
theorem original_of_descend {viaLow : Bool} (A : Admissible P same) (H : Heap frozen 0 m)
    (ho : Original frozen P h) (hdesc : descend m l h = .ok (c, viaLow)) :
    Original frozen P c ∧ (viaLow = true → h.isTerminal = false) := by
  unfold descend at hdesc
  split at hdesc
  · cases hdesc
    exact ⟨ho, by rintro ⟨⟩⟩
  rename_i ht
  have hh : h.isTerminal = false := by simpa using ht
  obtain ⟨n, hn, hdesc⟩ := Outcome.bind_eq_ok_iff.1 hdesc
  have hdesc := Except.ok.inj hdesc
  split at hdesc
  · cases hdesc
    exact ⟨(ho.children A H hh hn).2, fun _ => hh⟩
  · cases hdesc
    exact ⟨ho, by rintro ⟨⟩⟩

theorem gives_conditionHigh (A : Admissible P same) (H : Heap frozen 0 m)
    (R : p.Rides frozen P) : Gives (p.conditionHigh l) m fun r _ => r.2.2.Rides frozen P := by
  unfold conditionHigh
  refine Gives.get (Gives.lift fun top htop => Gives.lift fun left hleft =>
    Gives.lift fun right hright => ?_)
  split
  · exact Gives.pure R
  have hside : ∀ {side : Side} {h : Handle} {moved : Option (Handle × Weights)},
      Original frozen P h → p.advance m l side h = .ok moved →
      Original frozen P (moved.elim h (·.1)) := by
    intro side h moved ho hadv
    cases moved with
    | none => exact ho
    | some r => exact R.of_advance A H ho hadv
  have ha := hside (R.top_original htop .left) hleft
  have hb := hside (R.top_original htop .right) hright
  have hvia : ∀ s : Side, (⟨false, false⟩ : Both Bool).at' s = true →
      (top.nodes.at' s).isTerminal = false := by
    rintro ⟨⟩ ⟨⟩
  have R' := R.push htop ha hb hvia
  dsimp only
  split
  · exact Gives.pure R'
  split
  · exact Gives.pure R'
  refine Gives.bind gives_lookup fun r m' _ => ?_
  split
  · exact Gives.pure ⟨R'.original, R'.viaLow⟩
  split
  · exact Gives.pure R'
  · exact Gives.pure R'

theorem Rides.of_conditionLow {following : Option Literal} {found : Cofactor}
    (R : p.Rides frozen P) (A : Admissible P same) (H : Heap frozen 0 m)
    (hlow : p.conditionLow m l following = .ok (found, q)) : q.Rides frozen P := by
  unfold conditionLow at hlow
  obtain ⟨top, htop, hlow⟩ := Outcome.bind_eq_ok_iff.1 hlow
  obtain ⟨⟨a, lowA⟩, ha, hlow⟩ := Outcome.bind_eq_ok_iff.1 hlow
  obtain ⟨⟨b, lowB⟩, hb, hlow⟩ := Outcome.bind_eq_ok_iff.1 hlow
  obtain ⟨jumpA, -, hlow⟩ := Outcome.bind_eq_ok_iff.1 hlow
  obtain ⟨jumpB, -, hlow⟩ := Outcome.bind_eq_ok_iff.1 hlow
  cases hlow
  obtain ⟨hoa, hviaA⟩ := original_of_descend A H (R.top_original htop .left) ha
  obtain ⟨hob, hviaB⟩ := original_of_descend A H (R.top_original htop .right) hb
  refine R.push htop hoa hob fun side => ?_
  cases side
  · exact hviaA
  · exact hviaB

/-- The engine of a conjunction copies what is below the operands. -/
theorem supplies (A : Admissible P same) : engine.Supplies frozen P (Rides frozen P) where
  condition {p l following holds m} H R := by
    show Gives (condition p l following holds) m _
    unfold condition
    split
    · exact gives_conditionHigh A H R
    · exact Gives.get (Gives.lift fun _ hlow => Gives.pure (R.of_conditionLow A H hlow))
  undo R := R.undo
  trivial {p c} R hc := by
    obtain ⟨top, htop, hc⟩ := Outcome.bind_eq_ok_iff.1 hc
    obtain rfl := Except.ok.inj hc
    split
    · exact R.top_original htop .right
    · exact R.top_original htop .left
  record {p c m} := by
    show Gives (Product.record p c) m _
    unfold Product.record
    refine Gives.lift fun top _ => ?_
    rintro _ _ ⟨⟩
    rfl

end Product

/-! ## Constructions -/

theorem constructed_solve (V : m.Valid) (A : Admissible P (sameIf collapse m.sameVariable))
    (r : Rows) : Gives (solve r ordering collapse expired) m (Constructed P m) :=
  constructed_build V A Rows.passive (Rows.supplies A) trivial False.elim

theorem constructed_conjoin {A B : Diagram} (V : m.Valid)
    (hP : Admissible P (sameIf collapse m.sameVariable)) (hA : Denotes m.key? a A)
    (hB : Denotes m.key? b B) (hPA : P A) (hPB : P B) :
    Gives (conjoin a b ordering collapse expired) m (Constructed P m) := by
  unfold conjoin
  split
  · have hcan : m.Canonical Handle.false' := by
      intro g h k hg _ htg
      rcases Relation.ReflTransGen.cases_head hg with rfl | ⟨_, he, -⟩
      · cases htg
      · cases he.1
    exact Gives.pure ⟨hcan, ⟨_, .false', hP.leaf false⟩, rfl⟩
  split
  · split
    · exact constructed_copy V hP hB hPB
    · exact constructed_copy V hP hA hPA
  · -- the products of earlier conjunctions are forgotten
    have hempty : ∀ c, ¬ ({ m with products := m.products.clear } : Manager).Records c := by
      rintro c ⟨q, hq⟩
      simp [Memo.clear] at hq
    have hclear : Gives (build Product.engine (.start a b collapse) ordering collapse expired)
        { m with products := m.products.clear }
        (Constructed P { m with products := m.products.clear }) :=
      constructed_build ⟨V.arena, V.terminal, V.wellFormed, V.room⟩ hP Product.passive
        (Product.supplies hP) (Product.rides_start ⟨A, hA, hPA⟩ ⟨B, hB, hPB⟩) fun _ => hempty
    exact Gives.modify (Gives.mono hclear fun c m' hc =>
      ⟨hc.canonical, hc.tree, hc.literalVariables⟩)

/-- What is constructed is canonical, and collapsed if all its trees are tight. -/
theorem Constructed.canonical_collapsed
    (hC : Constructed (fun D => plain → D.Tight m.sameVariable) m c m') :
    m'.Canonical c ∧ (plain → m'.Collapsed c) := by
  refine ⟨hC.canonical, fun hp => ?_⟩
  obtain ⟨D, hD, hT⟩ := hC.tree
  refine .of_tight hD ?_
  rw [sameVariable_congr hC.literalVariables]
  exact hT hp

/-- The diagrams of tables and the products of diagrams that move forward are canonical. With
collapsing no low child can be left out in the diagram of a table, nor in the product of two
diagrams that are canonical and collapsed. -/
theorem construction_canonical (V : m.Valid) (ordering : List Literal) (collapse expired : Bool) :
    (∀ r c m', (solve r ordering collapse expired).run m = .ok c m' →
      m'.Canonical c ∧ (collapse = true → m'.Collapsed c)) ∧
    ∀ a b c m', m.Forward ordering a → m.Forward ordering b →
      (conjoin a b ordering collapse expired).run m = .ok c m' →
      m'.Canonical c ∧ (collapse = true → m.Canonical a ∧ m.Collapsed a →
        m.Canonical b ∧ m.Collapsed b → m'.Collapsed c) := by
  constructor
  · intro r c m' hrun
    exact (constructed_solve V (admissible_tight id) r c m' hrun).canonical_collapsed
  · intro a b c m' ha hb hrun
    obtain ⟨A, hA⟩ := ha.exists_tree
    obtain ⟨B, hB⟩ := hb.exists_tree
    have hplain : collapse = true ∧ (m.Canonical a ∧ m.Collapsed a) ∧
        (m.Canonical b ∧ m.Collapsed b) → collapse = true := And.left
    obtain ⟨hcan, hcol⟩ := (constructed_conjoin V (admissible_tight hplain) hA hB
      (fun hp => hp.2.1.2.tight hp.2.1.1 hA) (fun hp => hp.2.2.2.tight hp.2.2.1 hB)
      c m' hrun).canonical_collapsed
    exact ⟨hcan, fun hcollapse ha hb => hcol ⟨hcollapse, ha, hb⟩⟩

theorem construction_canonical_twoTests : ∃ c m',
    (conjoin 2 3 [⟨1, by decide⟩, ⟨2, by decide⟩] true false).run Manager.twoTests = .ok c m' ∧
      m'.Canonical c ∧ m'.Collapsed c := by
  have V : Manager.twoTests.Valid :=
    ((Manager.valid_start (by decide)).alloc (by decide) rfl).alloc (by decide) rfl
  have ha : Manager.twoTests.Forward [⟨1, by decide⟩, ⟨2, by decide⟩] 2 :=
    .node [] rfl rfl rfl (.terminal rfl) (.terminal rfl)
  have hb : Manager.twoTests.Forward [⟨1, by decide⟩, ⟨2, by decide⟩] 3 :=
    .node [⟨1, by decide⟩] rfl rfl rfl (.terminal rfl) (.terminal rfl)
  obtain ⟨A, hA, hRA⟩ := ha.denotes (by decide)
  obtain ⟨B, hB, hRB⟩ := hb.denotes (by decide)
  have hother : Manager.twoTests.sameVariable 1 2 = false := rfl
  have hL : Layout (sameIf true Manager.twoTests.sameVariable)
      (singles [⟨1, by decide⟩, ⟨2, by decide⟩]) :=
    ⟨by decide, by simp [singles, Block.literals],
      by simp [singles, Block.literals, sameIf, hother]⟩
  obtain ⟨T, hT⟩ := Placed.exists_planned (Placed.between hL hRA) (Placed.between hL hRB)
  obtain ⟨c, m', hrun, -⟩ := conjoin_spec true V hL hA hB hRA hRB hT
  rw [flatten_singles] at hrun
  obtain ⟨hcan, hcol⟩ := (construction_canonical V _ true false).2 2 3 c m' ha hb hrun
  exact ⟨c, m', hrun, hcan, hcol rfl (canonical_of_terminal_children rfl rfl rfl rfl)
    (canonical_of_terminal_children rfl rfl rfl rfl)⟩

end BayesCircuit.Decision
