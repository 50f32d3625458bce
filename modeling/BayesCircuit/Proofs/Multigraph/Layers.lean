import BayesCircuit.Proofs.Multigraph.Level
import BayesCircuit.Proofs.SpanningTree.Arrangement
import BayesCircuit.Proofs.SpanningTree.Layers

/-!
# Compiling the layers of a spanning tree

Layers that lay out a tree are compiled to levels of which the first has, for every context, a node
that is worth the sum of products of the tree (`Laid.compile`). The induction is on the tree: the
levels below a layer are there before it is compiled, each at the distance that its number says.

The trees below the root are compiled one after the other, and their roots have no spanning
variables, so slot zero of the level holds the only node for them. The value of the multigraph is
the product over these trees (`compile_eq`): there may be none, one that is the root itself, or
several that an and node joins.
-/

namespace BayesCircuit.Multigraph

open Arrangement SpanningTree

variable {W α : Type} [CommSemiring α]

/-- A compilation along a plan of layers, and what its result is evaluated with. -/
structure Job (W α : Type) where
  source : Source W
  plan : SpanningTree.Source
  weigh : W → α
  evidence : Evidence
  entry : Nat → Assignment → α

namespace Job

def dim (j : Job W α) : Variable → Nat := j.plan.bound.dim

/-- The values of the nodes of levels that are numbered from `index` on. -/
def values (j : Job W α) (index : Nat) (levels : List (Level W)) : List (Array α) :=
  valuesFrom (.exact α) j.weigh j.plan.terminal j.evidence index levels

/-- The sum of products of a tree. -/
def total (j : Job W α) (ρ : Assignment) (w : Arrangement) : α :=
  Arrangement.total j.dim j.evidence j.entry ρ w

/-- What is compiled is what has been planned, and its labels are worth what its tables say. -/
structure Sound (j : Job W α) : Prop where
  encoding : j.source.encoding = j.plan.encoding
  terminal : j.source.tree.terminal = j.plan.terminal
  weighing : Weighing j.plan.encoding j.plan.scope j.dim j.source.labels j.weigh j.entry

/-- Some layers are those of the tree that is compiled. -/
def Stored (j : Job W α) (ls : List Layer) : Prop :=
  ∀ l ∈ ls, j.source.tree.layer l.index = .ok l

/-- Of levels that are numbered from `index` on, that of a layer has for every context a node that
is worth the sum of products of a tree. -/
structure Serves (j : Job W α) (index : Nat) (levels : List (Level W)) (l : Layer)
    (w : Arrangement) : Prop where
  index_le : index ≤ l.index
  slot : ∀ ρ, (∀ u ∈ l.spanning, ρ u < j.dim u) → ∃ level i,
    levels[l.index - index]? = some level ∧
    level.slots[Counter.number (l.spanning.map j.dim) (l.spanning.map ρ)]? = some i ∧
    ((j.values index levels).getD (l.index - index) #[]).getD i 0 = j.total ρ w

/-- A layer below that of `v`. -/
structure Child (j : Job W α) (v : Variable) (above : List Variable) (index : Nat)
    (levels : List (Level W)) (c : Nat) (w : Arrangement) : Prop where
  ne_terminal : c ≠ j.plan.terminal
  layer : ∃ l, j.source.tree.layer c = .ok l ∧ l.index = c ∧
    Collection.Ascending.Strict l.spanning ∧ (∀ u ∈ l.spanning, 0 < j.dim u) ∧
    l.address = addressBelow j.plan.bound v above l.spanning ∧ l.spanning ⊆ v :: above ∧
    j.Serves index levels l w

end Job

variable {j : Job W α} {index : Nat} {levels more : List (Level W)} {l : Layer} {w : Arrangement}
variable {v : Variable} {above : List Variable} {cs : List Nat} {ws : List Arrangement}
variable {below : List (List Layer)} {c : Nat}

/-! ## Levels before others -/

theorem getD_values_append {k : Nat} (levels more : List (Level W)) (index : Nat) :
    (j.values index (more ++ levels)).getD (more.length + k) #[] =
      (j.values (index + more.length) levels).getD k #[] := by
  induction more generalizing index with
  | nil => rw [List.nil_append, List.length_nil, Nat.zero_add, Nat.add_zero]
  | cons m more ih =>
      have hnext := ih (index + 1)
      rw [Nat.add_right_comm] at hnext
      rw [List.cons_append, List.length_cons, Nat.add_right_comm]
      exact hnext

theorem Job.Serves.append (h : j.Serves (index + more.length) levels l w) :
    j.Serves index (more ++ levels) l w := by
  have hle := h.index_le
  obtain ⟨k, hk⟩ := Nat.exists_eq_add_of_le hle
  have hk₁ : l.index - (index + more.length) = k := by omega
  have hk₂ : l.index - index = more.length + k := by omega
  refine ⟨by omega, fun ρ hρ => ?_⟩
  obtain ⟨level, i, hlevel, hslot, hval⟩ := h.slot ρ hρ
  rw [hk₁] at hlevel hval
  refine ⟨level, i, ?_, hslot, ?_⟩
  · rw [hk₂, List.getElem?_append_right (Nat.le_add_right ..), Nat.add_sub_cancel_left, hlevel]
  · rw [hk₂, getD_values_append, hval]

theorem Job.Child.append (h : j.Child v above (index + more.length) levels c w) :
    j.Child v above index (more ++ levels) c w := by
  obtain ⟨l, hl, hc, hstrict, hpos, haddress, habove, hserves⟩ := h.layer
  exact ⟨h.ne_terminal, l, hl, hc, hstrict, hpos, haddress, habove, hserves.append⟩

/-! ## The nodes that edges lead to -/

/-- The setting in which a level on top of others is evaluated. -/
def Job.setting (j : Job W α) (v : Variable) (index : Nat) (levels : List (Level W)) :
    Setting W α :=
  ⟨j.weigh, (j.evidence[v]?).join, j.plan.terminal, index, j.values (index + 1) levels⟩

variable {context : List Nat} {value : Nat} {ρ : Assignment}

theorem Job.Child.target (J : j.Sound) (h : j.Child v l.spanning (index + 1) levels c w)
    (hindex : l.index = index) (C : Carries j.plan l v cs) (hvalue : value < j.dim v)
    (hc : ∃ ρ, Reads j.dim l.spanning context ρ) :
    ∃ id, target j.source l levels context value c = .ok id ∧ id.layer ≠ index ∧
      ∀ own ρ, Reads j.dim l.spanning context ρ →
        (j.setting v index levels).reading own id = j.total (Function.update ρ v value) w := by
  obtain ⟨l', hl', rfl, hstrict, _, haddress, habove, hserves⟩ := h.layer
  have hle := hserves.index_le
  have hctx : ∀ {ρ}, Reads j.dim l.spanning context ρ →
      childContext l'.address context value =
        Counter.number (l'.spanning.map j.dim) (l'.spanning.map (Function.update ρ v value)) := by
    intro ρ hρ
    rw [haddress, ← hρ.digits]
    exact childContext_eq C.strict hstrict C.notMem habove
  obtain ⟨ρ₀, hρ₀⟩ := hc
  obtain ⟨level, i, hlevel, hslot, _⟩ := hserves.slot _ (hρ₀.update_lt hvalue habove)
  have hterminal : (l'.index == j.source.tree.terminal) = false := by
    rw [J.terminal]
    simpa using h.ne_terminal
  refine ⟨⟨l'.index, i⟩, ?_, ?_, fun own ρ hρ => ?_⟩
  · rw [← hctx hρ₀] at hslot
    simp only [Multigraph.target, hterminal, Bool.false_eq_true, if_false, hindex, hlevel, expect,
      hl', fetch, hslot, bind, Except.bind, pure, Except.pure]
  · show l'.index ≠ index
    omega
  · obtain ⟨level', i', hlevel', hslot', hval'⟩ := hserves.slot _ (hρ.update_lt hvalue habove)
    obtain rfl : level = level' := Option.some.inj (hlevel.symm.trans hlevel')
    rw [← hctx hρ] at hslot'
    rw [← hctx hρ₀] at hslot
    obtain rfl : i = i' := Option.some.inj (hslot.symm.trans hslot')
    have hne : (l'.index == index) = false := by
      simpa using Nat.ne_of_gt hle
    have hterminal' : (l'.index == j.plan.terminal) = false := by simpa using h.ne_terminal
    rw [← hval', Setting.reading]
    simp only [Job.setting, hterminal', hne, Bool.false_eq_true, if_false]

/-- The nodes that an edge leads to are worth what the trees below are. -/
theorem targets_spec (J : j.Sound) (hindex : l.index = index) (C : Carries j.plan l v cs)
    (hvalue : value < j.dim v) (hc : ∃ ρ, Reads j.dim l.spanning context ρ) :
    ∀ {ids ws}, List.Forall₂ (j.Child v l.spanning (index + 1) levels) ids ws →
      ∃ targets, ids.mapM (target j.source l levels context value) = .ok targets ∧
        targets.length = ids.length ∧ (∀ id ∈ targets, id.layer ≠ index) ∧
        ∀ own ρ, Reads j.dim l.spanning context ρ →
          (targets.map ((j.setting v index levels).reading own)).prod =
            totalAll j.dim j.evidence j.entry (Function.update ρ v value) ws
  | _, _, .nil => by
      refine ⟨[], rfl, rfl, fun id hid => absurd hid List.not_mem_nil, fun own ρ _ => ?_⟩
      rw [totalAll, List.map_nil, List.prod_nil]
  | c :: ids, w :: ws, .cons h hrest => by
      obtain ⟨id, hid, hne, hworth⟩ := h.target J hindex C hvalue hc
      obtain ⟨targets, hrun, hlen, hnes, hprod⟩ := targets_spec J hindex C hvalue hc hrest
      refine ⟨id :: targets, ?_, by rw [List.length_cons, List.length_cons, hlen], ?_, ?_⟩
      · rw [List.mapM_cons, hid, hrun]
        rfl
      · intro id' hid'
        rcases List.mem_cons.1 hid' with rfl | hid'
        · exact hne
        · exact hnes id' hid'
      · intro own ρ hρ
        rw [List.map_cons, List.prod_cons, totalAll, hprod own ρ hρ, hworth own ρ hρ]
        rfl

/-- A layer over levels for the trees below it is prepared. -/
theorem prepared (J : j.Sound) (hindex : l.index = index) (C : Carries j.plan l v cs)
    (hchildren : l.children = j.plan.childrenOf index below) (hterminal : index ≠ j.plan.terminal)
    (hbelow : List.Forall₂ (j.Child v l.spanning (index + 1) levels)
      (firstIndices (index + 1) below) ws) :
    Prepared j.source (j.setting v index levels) j.dim j.evidence j.entry l levels v cs ws where
  index := hindex
  terminal := J.terminal
  ne_terminal := hterminal
  observed := rfl
  dim_eq := C.dim
  zero := J.weighing.zero
  label hc hvalue := by
    rw [J.encoding]
    rw [C.dim] at hvalue
    exact edgeLabel?_spec J.weighing C.strict hvalue C.messages C.mentions hc
  targets {context value} hc hvalue := by
    rw [C.dim] at hvalue
    obtain ⟨targets, hrun, hlen, hnes, hprod⟩ := targets_spec J hindex C hvalue hc hbelow
    rw [hchildren, Source.childrenOf]
    cases below with
    | nil =>
        -- only the terminal layer is below
        cases hbelow
        refine ⟨[terminalOf j.source.tree], ?_, by simp, by simp, ?_, fun own ρ _ => ?_⟩
        · have hself : (j.plan.terminal == j.source.tree.terminal) = true := by
            rw [J.terminal]
            exact beq_self_eq_true _
          simp only [List.isEmpty_nil, if_true, List.mapM_cons, List.mapM_nil, Multigraph.target,
            hself, bind, Except.bind, pure, Except.pure]
        · intro id hid
          obtain rfl := List.mem_singleton.1 hid
          show j.source.tree.terminal ≠ index
          rw [J.terminal]
          exact Ne.symm hterminal
        · rw [List.map_singleton, List.prod_singleton, totalAll]
          exact Setting.reading_terminal own _ J.terminal
    | cons ls rest =>
        rw [length_firstIndices, List.length_cons] at hlen
        refine ⟨targets, hrun, List.ne_nil_of_length_pos (by omega), fun hmany => ?_, hnes, hprod⟩
        rw [Layer.branches, hchildren, Source.childrenOf]
        simp only [List.isEmpty_cons, Bool.false_eq_true, if_false, length_firstIndices,
          decide_eq_true_eq]
        rw [List.length_cons]
        omega

/-! ## Trees -/

variable [DecidableEq W] [Hashable W]

mutual

/-- The layers of a tree are compiled to levels the first of which has the tree's values. -/
theorem Laid.compile (J : j.Sound) : ∀ {w : Arrangement} {index l} {ls rest : List Layer} {levels},
    Laid j.plan index w (l :: ls) → l.address.dims = l.spanning.map j.dim →
    j.Stored (l :: ls) → index + (l :: ls).length ≤ j.plan.terminal →
    compileLayers j.source false rest = .ok levels →
    ∃ more, more.length = (l :: ls).length ∧
      compileLayers j.source false (l :: ls ++ rest) = .ok (more ++ levels) ∧
      j.Serves index (more ++ levels) l w
  | .mk v cs ws, index, l, _, rest, levels, .mk C hindex hchildren hbelow, hdims, hstored,
      hterminal, hrest => by
      rw [List.length_cons] at hterminal
      obtain ⟨more, hlen, hrun, hchild⟩ := LaidAll.compile J hbelow
        (fun l' hl' => hstored l' (List.mem_cons_of_mem _ hl')) (by omega) hrest
      have P := prepared J hindex C hchildren (by omega) hchild
      obtain ⟨level, hlevel, howner, hslots⟩ := compileLayer_spec P ⟨C.strict.nodup, C.pos, hdims, C.contexts⟩
      refine ⟨level :: more, by rw [List.length_cons, List.length_cons, hlen], ?_, ?_⟩
      · simp only [List.cons_append, compileLayers, hrun, hlevel, bind, Except.bind, pure,
          Except.pure]
      · refine ⟨Nat.le_of_eq hindex.symm, fun ρ hρ => ?_⟩
        obtain ⟨i, hslot, hval⟩ := hslots ρ hρ
        refine ⟨level, i, ?_, hslot, ?_⟩
        · rw [hindex, Nat.sub_self]
          rfl
        · rw [hindex, Nat.sub_self]
          show (levelValues (.exact α) j.weigh j.plan.terminal index j.evidence level
            (j.values (index + 1) (more ++ levels))).getD i 0 = _
          rw [levelValues_eq, howner, C.label]
          exact hval

/-- The layers of trees that follow each other are compiled to levels for the trees. -/
theorem LaidAll.compile (J : j.Sound) : ∀ {ws : List Arrangement} {v above index below}
    {rest : List Layer} {levels},
    LaidAll j.plan v above index ws below → j.Stored below.flatten →
    index + below.flatten.length ≤ j.plan.terminal →
    compileLayers j.source false rest = .ok levels →
    ∃ more, more.length = below.flatten.length ∧
      compileLayers j.source false (below.flatten ++ rest) = .ok (more ++ levels) ∧
      List.Forall₂ (j.Child v above index (more ++ levels)) (firstIndices index below) ws
  | [], _, _, _, _, rest, levels, .nil, _, _, hrest => ⟨[], rfl, hrest, .nil⟩
  | w :: ws, v, above, index, _, rest, levels,
      @LaidAll.cons _ _ _ _ _ _ l ls below hfirst haddress habove hbelow, hstored, hterminal,
      hrest => by
      rw [List.flatten_cons, List.length_append] at hterminal
      have hstored₁ : j.Stored (l :: ls) := fun l' hl' =>
        hstored l' (List.mem_append_left _ hl')
      have hstored₂ : j.Stored below.flatten := fun l' hl' =>
        hstored l' (List.mem_append_right _ hl')
      obtain ⟨more, hlen, hrun, hchild⟩ := LaidAll.compile J hbelow hstored₂ (by omega) hrest
      have hdims : l.address.dims = l.spanning.map j.dim := by rw [haddress]; rfl
      obtain ⟨more', hlen', hrun', hserves⟩ :=
        Laid.compile J hfirst hdims hstored₁ (by omega) hrun
      refine ⟨more' ++ more, ?_, ?_, ?_⟩
      · rw [List.flatten_cons, List.length_append, List.length_append, hlen, hlen']
      · rw [List.flatten_cons, List.append_assoc, hrun', List.append_assoc]
      · rw [List.append_assoc, firstIndices]
        refine .cons ?_ ?_
        · cases hfirst with
          | mk C hindex _ _ =>
              refine ⟨by rw [List.length_cons] at hterminal; omega, l, ?_, hindex, C.strict,
                C.pos, haddress, habove, hserves⟩
              rw [← hindex]
              exact hstored₁ l (List.mem_cons_self ..)
        · refine hchild.imp fun _ _ h => Job.Child.append ?_
          rwa [hlen']

end

end BayesCircuit.Multigraph

/-! ## Compiling a spanning tree -/

namespace BayesCircuit.Multigraph

open Arrangement SpanningTree PseudoTree

variable {W α : Type} [CommSemiring α] {j : Job W α} {levels : List (Level W)}
variable {ids : List Nat} {w : Arrangement} {ws : List Arrangement} {c : Nat} {ρ : Assignment}
variable {id : NodeId} {own : Array α} {first : Level W}

/-! ## The roots -/

/-- The root of the tree whose first layer is `c`, where the levels below the joining root are
given. -/
def rootOf (levels : List (Level W)) (c : Nat) : Outcome NodeId := do
  let level ← expect .outOfRange levels[c - 1]?
  return NodeId.mk c (← fetch level.slots 0)

/-- The root of a tree is worth its sum of products. -/
structure Roots (j : Job W α) (levels : List (Level W)) (w : Arrangement) (id : NodeId) : Prop where
  layer_pos : 0 < id.layer
  ne_terminal : id.layer ≠ j.plan.terminal
  value : ∀ ρ, ((j.values 1 levels).getD (id.layer - 1) #[]).getD id.index 0 = j.total ρ w

theorem Job.Child.root (hjoiner : j.dim joiner = 0) (h : j.Child joiner [] 1 levels c w) :
    ∃ id, rootOf levels c = .ok id ∧ Roots j levels w id := by
  obtain ⟨l, _, rfl, _, hpos, _, habove, hserves⟩ := h.layer
  have hspanning : l.spanning = [] := by
    refine List.eq_nil_iff_forall_not_mem.2 fun u hu => ?_
    obtain rfl := List.mem_singleton.1 (habove hu)
    have := hpos _ hu
    omega
  have hslot : ∀ ρ, ∃ level i, levels[l.index - 1]? = some level ∧ level.slots[0]? = some i ∧
      ((j.values 1 levels).getD (l.index - 1) #[]).getD i 0 = j.total ρ w := by
    intro ρ
    have hserves := hserves.slot ρ
    rw [hspanning] at hserves
    exact hserves fun u hu => absurd hu List.not_mem_nil
  obtain ⟨level, i, hlevel, hi, _⟩ := hslot fun _ => 0
  refine ⟨⟨l.index, i⟩, ?_, hserves.index_le, h.ne_terminal, fun ρ => ?_⟩
  · simp only [rootOf, hlevel, expect, fetch, hi, bind, Except.bind, pure, Except.pure]
  · obtain ⟨level', i', hlevel', hi', hval⟩ := hslot ρ
    obtain rfl : level = level' := Option.some.inj (hlevel.symm.trans hlevel')
    obtain rfl : i = i' := Option.some.inj (hi.symm.trans hi')
    exact hval

theorem mapM_rootOf (hjoiner : j.dim joiner = 0)
    (h : List.Forall₂ (j.Child joiner [] 1 levels) ids ws) :
    ∃ roots, ids.mapM (rootOf levels) = .ok roots ∧ List.Forall₂ (Roots j levels) ws roots := by
  induction h with
  | nil => exact ⟨[], rfl, .nil⟩
  | cons hc _ ih =>
      obtain ⟨id, hid, hroot⟩ := hc.root hjoiner
      obtain ⟨roots, hrun, hroots⟩ := ih
      refine ⟨id :: roots, ?_, .cons hroot hroots⟩
      rw [List.mapM_cons, hid, hrun]
      rfl

theorem Roots.reading (h : Roots j levels w id) :
    (j.setting joiner 0 levels).reading own id = j.total ρ w := by
  have hpos := h.layer_pos
  have hterminal : (id.layer == j.plan.terminal) = false := by simpa using h.ne_terminal
  have hzero : (id.layer == 0) = false := by
    simpa using Nat.ne_of_gt hpos
  rw [← h.value ρ, Setting.reading]
  simp only [Job.setting, hterminal, hzero, Bool.false_eq_true, if_false]

theorem Roots.prod {roots : List NodeId} (h : List.Forall₂ (Roots j levels) ws roots) :
    (roots.map ((j.setting joiner 0 levels).reading own)).prod =
      totalAll j.dim j.evidence j.entry ρ ws := by
  induction h with
  | nil => rw [totalAll, List.map_nil, List.prod_nil]
  | cons hroot _ ih =>
      rw [List.map_cons, List.prod_cons, ih, hroot.reading (ρ := ρ), totalAll]
      rfl

theorem Roots.single (h : Roots j levels w id) :
    ((j.values 0 (first :: levels)).getD id.layer #[]).getD id.index 0 = j.total ρ w := by
  obtain ⟨k, hk⟩ : ∃ k, id.layer = 1 + k := Nat.exists_eq_add_of_le h.layer_pos
  have happend := getD_values_append (j := j) (k := k) levels [first] 0
  have hval := h.value ρ
  rw [hk] at hval ⊢
  rw [Nat.add_sub_cancel_left] at hval
  exact (congrArg (fun own => Array.getD own id.index 0) happend).trans hval

/-! ## The multigraph -/

variable {t : SpanningTree}

theorem Forall₂.filter_eq {v : Variable} {above : List Variable} {index : Nat}
    (h : List.Forall₂ (j.Child v above index levels) ids ws) :
    ids.filter (· != j.plan.terminal) = ids := by
  refine List.filter_eq_self.2 ?_
  induction h with
  | nil => exact fun c hc => absurd hc List.not_mem_nil
  | cons hc _ ih =>
      intro c hmem
      rcases List.mem_cons.1 hmem with rfl | hmem
      · simpa using hc.ne_terminal
      · exact ih c hmem

/-- The value of a node that joins several trees. -/
theorem value_joint {roots : List NodeId} {labels : LabelAlgebra W}
    (h : List.Forall₂ (Roots j levels) ws roots) :
    ((j.values 0 (⟨joiner, #[⟨joiner, .and, roots.map fun id => ⟨id, labels.unit⟩⟩], #[]⟩ ::
      levels)).getD 0 #[]).getD 0 0 = totalAll j.dim j.evidence j.entry ρ ws := by
  let joint : Node W := ⟨joiner, .and, roots.map fun id => ⟨id, labels.unit⟩⟩
  have hground : Grounded 0 0 joint := by
    intro e he hl
    obtain ⟨id, hid, rfl⟩ := List.mem_map.1 he
    have hpos : ∀ {ws roots}, List.Forall₂ (Roots j levels) ws roots → id ∈ roots →
        0 < id.layer := by
      intro ws roots hroots hid
      induction hroots with
      | nil => exact absurd hid List.not_mem_nil
      | cons hroot _ ih =>
          rcases List.mem_cons.1 hid with rfl | hid
          · exact hroot.layer_pos
          · exact ih hid
    exact absurd hl (Nat.ne_of_gt (hpos h hid))
  show (levelValues (.exact α) j.weigh j.plan.terminal 0 j.evidence ⟨joiner, #[joint], #[]⟩
    (j.values 1 levels)).getD 0 0 = _
  rw [levelValues_eq]
  show ((j.setting joiner 0 levels).values #[] [joint]).getD 0 0 = _
  have hget := (j.setting joiner 0 levels).values_get (n := joint)
    (show [joint][0]? = some joint from rfl) hground
  rw [hget, Setting.value, nodeValue_and rfl, List.map_map]
  exact Roots.prod h

theorem evaluateWith_some {g : Multigraph W} (hlen : j.plan.terminal = levels.length + 1)
    (hlevels : g.levels = (first :: levels ++ [terminalLevel]).toArray) (hroot : g.root = some id) :
    g.evaluateWith (.exact α) j.weigh j.evidence =
      ((j.values 0 (first :: levels)).getD id.layer #[]).getD id.index 0 := by
  have hterminal : g.terminal.layer = j.plan.terminal := by
    simp [terminal, hlevels, hlen]
  have htake : g.levels.toList.take j.plan.terminal = first :: levels := by
    simp [hlevels, hlen]
  simp only [evaluateWith, hroot, hterminal, htake]
  rfl

/-- The multigraph over levels for trees has the product of their values. -/
theorem assemble_eq {top : Layer} {below : List (List Layer)} (hjoiner : j.dim joiner = 0)
    (htop : t.layer 0 = .ok top) (hlabel : top.label = joiner)
    (hterminal : t.terminal = j.plan.terminal) (hlen : j.plan.terminal = levels.length + 1)
    (hchildren : top.children = j.plan.childrenOf 0 below)
    (h : List.Forall₂ (j.Child joiner [] 1 levels) (firstIndices 1 below) ws) :
    ∃ g, assemble j.source.labels t levels = .ok g ∧
      g.evaluateWith (.exact α) j.weigh j.evidence = totalAll j.dim j.evidence j.entry ρ ws := by
  have hids : top.children.filter (· != t.terminal) = firstIndices 1 below := by
    rw [hchildren, hterminal, Source.childrenOf]
    cases below with
    | nil => simp [firstIndices]
    | cons ls below => exact Forall₂.filter_eq h
  obtain ⟨roots, hrun, hroots⟩ := mapM_rootOf hjoiner h
  have hrun' : (firstIndices 1 below).mapM (fun c => do
      let level ← expect .outOfRange levels[c - 1]?
      return NodeId.mk c (← fetch level.slots 0)) = .ok roots := hrun
  simp only [assemble, htop, hids, hlabel, bind, Except.bind, pure, Except.pure] at hrun' ⊢
  rw [hrun']
  cases hroots with
  | nil => exact ⟨_, rfl, totalAll.eq_1 .. |>.symm⟩
  | cons hroot hmore =>
      cases hmore with
      | nil =>
          refine ⟨_, rfl, ?_⟩
          rw [evaluateWith_some hlen rfl rfl, hroot.single, totalAll, totalAll, mul_one]
          rfl
      | cons hother hmore =>
          refine ⟨_, rfl, ?_⟩
          rw [evaluateWith_some hlen rfl rfl]
          exact value_joint (.cons hroot (.cons hother hmore))

variable [DecidableEq W] [Hashable W]

/-- A spanning tree can be compiled, and its value is the product of the sums of products of the
trees below its root. -/
theorem compile_eq (hplan : Planned j.plan ws j.source.tree)
    (hencoding : j.source.encoding = j.plan.encoding) (hjoiner : j.dim joiner = 0)
    (L : Weighing j.plan.encoding j.plan.scope j.dim j.source.labels j.weigh j.entry) :
    ∃ g, compile j.source false = .ok g ∧
      g.evaluateWith (.exact α) j.weigh j.evidence = totalAll j.dim j.evidence j.entry ρ ws := by
  obtain ⟨top, below, hlayers, hlabel, hchildren, hlaid, hlen⟩ := hplan
  obtain ⟨hinner, hlast, htop, hlayer⟩ := layers_spec hlayers
  have hterminal : j.source.tree.terminal = j.plan.terminal := hlast.trans hlen.symm
  have hstored : j.Stored below.flatten := by
    intro l hl
    obtain ⟨i, hi⟩ := List.getElem?_of_mem hl
    rw [hlaid.numbered i l hi, Nat.add_comm]
    exact hlayer i l hi
  have hnil : compileLayers j.source false [] = .ok [] := rfl
  obtain ⟨levels, hlevels, hrun, hchild⟩ :=
    LaidAll.compile ⟨hencoding, hterminal, L⟩ hlaid hstored (by omega) hnil
  rw [List.append_nil] at hchild
  rw [List.append_nil, List.append_nil] at hrun
  obtain ⟨g, hg, hval⟩ := assemble_eq (ρ := ρ) hjoiner htop hlabel hterminal
    (by rw [hlen, hlevels]) hchildren hchild
  refine ⟨g, ?_, hval⟩
  rw [compile, hinner, hrun]
  exact hg

end BayesCircuit.Multigraph
