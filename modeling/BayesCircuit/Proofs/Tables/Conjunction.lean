import BayesCircuit.Compiler.Conjunction
import BayesCircuit.Proofs.Decision.Shared
import BayesCircuit.Proofs.References.Released
import BayesCircuit.Proofs.Tables.Table

/-!
# Conjoining the tables of a network

The diagram of a table is made by solving the table, or by conjoining the clauses of its rows and
collapsing the product. Both have the tree of the excerpt with all rows, which is full
(`Excerpt.full_tree`), and both are shared: they are isomorphic (`tableDiagram_isomorphic`).

The tables of all variables are solved along one ordering, and their diagrams are conjoined. Each
has the tree of a full table along some blocks of the ordering, collapsed or not
(`exists_full_solveTable`), so the result has their collapsed product, whatever the order of the
queue: the results for two orders are isomorphic (`conjoinAll_isomorphic`). In the end the caller
has a reference to the result instead of the references to the tables, and nothing else is left of
them (`tended_conjoinAll`).
-/

namespace BayesCircuit.Decision.Rows

open Collection Decision.Action Excerpt

variable {f : Factor} {literalVariables : Array Variable} {first dim : Variable → Nat}
variable {us : List Variable} {bs : List (List Literal)} {ordering : List Literal} {r : Rows}
variable {m m' : Manager} {determinism : Bool} {t : Excerpt} {d : DomainClosure}

/-- An ordering goes through the literals of variables one variable after the other. -/
def Contiguous (first dim : Variable → Nat) (vs : List Variable) (ordering : List Literal) : Prop :=
  ∃ us bs, us.Perm vs ∧ List.Forall₂ (Run first dim) us bs ∧ ordering = bs.flatten

/-! ## Both strategies -/

section

variable (hlaid : f.Laid literalVariables first dim) (hnodup : f.scope.Nodup)
variable (hpos : ∀ u ∈ f.scope, 0 < dim u) (hscope : f.scope ≠ []) (hus : us.Perm f.scope)
variable (hbs : List.Forall₂ (Run first dim) us bs)

include hlaid hnodup hpos hscope hus hbs

/-- Solving a table makes the tree of all its rows. -/
theorem solve_table (hr : start f literalVariables determinism = .ok r) (collapse : Bool)
    (V : m.Valid) : Ends (solve r bs.flatten collapse false) m fun c m' =>
      Rooted m (((tableExcerpt f first us).tree determinism bs).2.collapse
        (sameIf collapse m.sameVariable)) c m' := by
  have hrows : ∀ p, Along bs p →
      r.excerpt first dim us (fun _ => 0) p = tableExcerpt f first us p := by
    intro p hp
    have hrow := rowOfPath_lt hlaid hus hnodup hbs hp
    have hweight := weights_start hlaid hpos hr hrow
    obtain ⟨-, -, -, -, hscope', -, -, -⟩ := start_ok hr
    rw [excerpt, tableExcerpt, rowOf, hscope', ← hlaid.dims, Array.getD_eq_getD_getElem?,
      Array.getD_eq_getD_getElem?]
    exact congrArg (fun w => some (w.getD 0)) hweight
  have hspec := solve_tree hlaid hnodup hpos hscope hr hus hbs collapse V
  rwa [(tree_congr hrows).1] at hspec

/-- Conjoining the clauses of a table and collapsing the product makes it as well. -/
theorem conjoin_clauses (determinism collapse : Bool) (hsize : f.dims.prod ≤ f.weights.size)
    (C : List.Forall₂ d.Counts us bs) (V : m.Valid) (hm : m.literalVariables = literalVariables) :
    Ends (do
      let queue ← clauses f bs.flatten d determinism
      let root ← conjoinAll queue bs.flatten false false
      if collapse then Decision.collapse root else return root) m fun c m' =>
        Denotes m'.key? c (((tableExcerpt f first us).tree determinism bs).2.collapse
          (sameIf collapse m.sameVariable)) ∧ Shared m'.key? c := by
  have hn := nodup_blocks hlaid hus hbs hnodup
  have hne : bs ≠ [] := by
    rintro rfl
    cases hbs
    exact hscope hus.symm.eq_nil
  refine Ends.bind (clauses_parts V hlaid hus hnodup hbs hpos hne hn hsize C) ?_
  rintro _ m₁ ⟨queue, rfl, hqueue, hparts, H₁⟩
  refine Ends.bind (conjoin_parts V hn hqueue hparts H₁) ?_
  intro c m₂ H₂
  have hdenotes := H₂.denotes _ (List.mem_singleton_self _)
  have hshared : Shared m₂.key? c := H₂.shared _ (List.mem_singleton_self _)
  cases collapse with
  | false =>
      refine Ends.pure ⟨?_, hshared⟩
      rwa [collapse_of_false]
  | true =>
      have hsame : m₂.sameVariable = m.sameVariable := sameVariable_congr H₂.literalVariables
      have hvariables := H₂.literalVariables.trans hm
      have hfull : Decision.Full bs ((tableExcerpt f first us).tree determinism bs).2 :=
        full_tree (Run.nonempty_blocks hbs fun u hu => hpos u (hus.mem_iff.1 hu)) fun _ => rfl
      have hyoung := H₂.young _ (List.mem_singleton_self _)
      have hheap := H₂.heap
      refine Ends.mono (collapse_spec (H₂.valid V) hheap (sound_of_denotes hyoung hdenotes)
        (Or.inr ?_) (hfull.rigid (grouped_blocks hlaid hus hbs hnodup hvariables) hdenotes
          hshared)) ?_
      · simp [holders]
      · rintro c' m₃ ⟨rfl, -, hD, hS, -⟩
        rw [sameIf_true, ← hsame]
        exact ⟨hD, hS⟩

end

theorem exists_run {u : Variable} (hu : 0 < first u) : ∃ b, Run first dim u b := by
  obtain ⟨b, hb⟩ := exists_literals
    ((List.range (dim u)).map fun d => ((first u + d : Nat) : Int)) fun n hn => by
      obtain ⟨d, -, rfl⟩ := List.mem_map.1 hn
      omega
  exact ⟨b, .of_eq hb⟩

theorem exists_runs (hus : ∀ u ∈ us, 0 < first u) : ∃ bs, List.Forall₂ (Run first dim) us bs := by
  induction us with
  | nil => exact ⟨[], .nil⟩
  | cons u us ih =>
      obtain ⟨hu, hus⟩ := List.forall_mem_cons.1 hus
      obtain ⟨b, hb⟩ := exists_run hu
      obtain ⟨bs, hbs⟩ := ih hus
      exact ⟨b :: bs, .cons hb hbs⟩

/-- Some ordering lists the literals of a table one variable after the other. -/
theorem exists_contiguous (hlaid : f.Laid literalVariables first dim) :
    ∃ ordering, Contiguous first dim f.scope (Ordering.restrict f Literal.index ordering) := by
  obtain ⟨bs, hbs⟩ := exists_runs hlaid.first_pos
  refine ⟨bs.flatten, f.scope, bs, .refl _, hbs, List.filter_eq_self.2 fun l hl => ?_⟩
  obtain ⟨u, hu, hvalue⟩ := Run.exists_of_mem hbs hl
  exact (any_run_iff hlaid).2 ⟨u, hu, hvalue.le, hvalue.lt⟩

end BayesCircuit.Decision.Rows

namespace BayesCircuit.Compiler

open Collection Decision Decision.Action Decision.Rows

/-- Both strategies build isomorphic diagrams of a table. Numbers of values are 32-bit numbers. -/
theorem tableDiagram_isomorphic {net : Network} {s : Settings} {e : Encoding} {v : Variable}
    (hnet : net.WellFormed) (he : Encoding.ofNetwork s.encoding net = .ok e)
    (hsmall : ∀ u < net.size, net.dimOf u < halfWordSize) (hv : v < net.size)
    (htime : s.expired = false) :
    ∃ f, e.factor v = .ok f ∧ ∀ ordering, Contiguous (e.firstLiterals.getD · 0) net.dimOf f.scope
      (Ordering.restrict f Literal.index ordering) → ∀ method ≠ Method.hybrid,
      ∀ m m' : Manager, m.Valid → m'.Valid → m.literalVariables = e.literalVariables →
        m'.literalVariables = e.literalVariables → ∃ c c' m₁ m₁',
          (tableDiagram { s with method := .hybrid } e f ordering).run m = .ok c m₁ ∧
          (tableDiagram { s with method } e f ordering).run m' = .ok c' m₁' ∧
          Isomorphic m₁.key? m₁'.key? c c' := by
  obtain ⟨f, hf, hlaid, hnodup, hpos, hscope, hsize, hdims⟩ := exists_table hnet he hsmall hv
  refine ⟨f, hf, fun ordering hordering method hmethod m m' V V' hm hm' => ?_⟩
  obtain ⟨us, bs, hus, hbs, hflatten⟩ := hordering
  obtain ⟨f', r, hf', hr⟩ := start_wellFormed s.determinism hnet he hv
  obtain rfl := Except.ok.inj (hf.symm.trans hf')
  have C := counts_blocks hlaid hus hbs (e := e) rfl hdims
  have hsolved := solve_table hlaid hnodup hpos hscope hus hbs hr s.collapse V
  have hjoined := conjoin_clauses hlaid hnodup hpos hscope hus hbs s.determinism s.collapse hsize
    C V' hm'
  rw [← hflatten] at hsolved hjoined
  obtain ⟨c, m₁, hrun, hR⟩ : Ends (tableDiagram { s with method := .hybrid } e f ordering) m _ := by
    have htime' : Settings.expired { s with method := .hybrid } = false := htime
    unfold tableDiagram
    rw [htime']
    exact Ends.lift hr hsolved
  obtain ⟨c', m₁', hrun', hD', hS'⟩ :
      Ends (tableDiagram { s with method } e f ordering) m' _ := by
    have htime' : Settings.expired { s with method } = false := htime
    unfold tableDiagram
    rw [htime']
    cases method with
    | hybrid => exact absurd rfl hmethod
    | bottomUp => exact hjoined
    | topDown => exact hjoined
  have hsame : m'.sameVariable = m.sameVariable := sameVariable_congr (hm'.trans hm.symm)
  rw [hsame] at hD'
  exact ⟨c, c', m₁, m₁', hrun, hrun', Shared.isomorphic hR.shared hS' hR.denotes hD'⟩

/-- The table of the second coin, built from its rows and by solving it, and collapsed. -/
theorem tableDiagram_isomorphic_twoCoins : ∃ s e f ordering c c' m₁ m₁',
    s.collapse = true ∧ s.expired = false ∧ Encoding.ofNetwork (Settings.encoding s) twoCoins = .ok e ∧
      e.factor 1 = .ok f ∧ Contiguous (e.firstLiterals.getD · 0) twoCoins.dimOf f.scope
        (Ordering.restrict f Literal.index ordering) ∧
      (tableDiagram { s with method := .hybrid } e f ordering).run
        (Manager.start e.literalVariables 4) = .ok c m₁ ∧
      (tableDiagram { s with method := .bottomUp } e f ordering).run
        (Manager.start e.literalVariables 4) = .ok c' m₁' ∧
      Isomorphic m₁.key? m₁'.key? c c' := by
  let s : Settings := { Settings.standard with collapse := true, determinism := true }
  obtain ⟨e, he, -⟩ := Encoding.ofNetwork_spec s.encoding wellFormed_twoCoins
  obtain ⟨f, hf, hall⟩ := tableDiagram_isomorphic wellFormed_twoCoins he
    (by decide +kernel) (show 1 < twoCoins.size by decide) rfl
  obtain ⟨hlaid, -, -⟩ := Encoding.laid_factor he hf
  obtain ⟨ordering, hordering⟩ := exists_contiguous hlaid
  have V : (Manager.start e.literalVariables 4).Valid := Manager.valid_start (by decide)
  obtain ⟨c, c', m₁, m₁', hrun, hrun', hiso⟩ := hall ordering hordering .bottomUp nofun _ _ V V rfl
    rfl
  exact ⟨s, e, f, ordering, c, c', m₁, m₁', rfl, rfl, he, hf, hordering, hrun, hrun', hiso⟩

end BayesCircuit.Compiler

namespace BayesCircuit.Compiler

open Collection Decision Decision.Action Decision.Rows

variable {net : Network} {s : Settings} {e : Encoding} {v : Variable} {us : List Variable}
variable {bs : List (List Literal)} {ordering : List Literal} {m m' m₀ : Manager} {q : Session}
variable {frozen : Handle → Option Node} {ext : Handle → Nat} {t : Set Handle} {c : Handle}

/-- Solve the table of a variable. -/
def solveTable (s : Settings) (e : Encoding) (ordering : List Literal) (v : Variable) :
    Action Handle := do
  tableDiagram { s with method := .hybrid } e (← Action.lift (e.factor v)) ordering

/-- Solve the tables of all variables of a network. -/
def solveTables (s : Settings) (net : Network) (e : Encoding) (ordering : List Literal) :
    Action (List Handle) :=
  (List.range net.size).mapM (solveTable s e ordering)

/-! ## Trees -/

/-- The variables of a network are laid out. -/
theorem laidOut_network (hnet : net.WellFormed) (he : Encoding.ofNetwork s.encoding net = .ok e) :
    LaidOut e.literalVariables (e.firstLiterals.getD · 0) net.dimOf (List.range net.size) where
  first_pos u hu := by
    obtain ⟨f, -, hlaid, -, hmem, -⟩ := exists_factor hnet he (List.mem_range.1 hu)
    exact hlaid.first_pos u hmem
  literal u hu := by
    obtain ⟨f, -, hlaid, -, hmem, -⟩ := exists_factor hnet he (List.mem_range.1 hu)
    exact hlaid.literal u hmem

section

variable (hnet : net.WellFormed) (he : Encoding.ofNetwork s.encoding net = .ok e)
variable (htime : s.expired = false) (hus : us.Perm (List.range net.size))
variable (hbs : List.Forall₂ (Run (e.firstLiterals.getD · 0) net.dimOf) us bs)

include hnet he hus hbs

theorem uniform_blocks (hm : m.literalVariables = e.literalVariables) :
    Uniform m.sameVariable bs :=
  ((laidOut_network hnet he).mono hus.subset).uniform (hus.nodup_iff.2 List.nodup_range) hbs
    (fun _ hu => hnet.dim_pos (List.mem_range.1 (hus.subset hu))) hm

include htime

/-- A solved table has a full tree, which may have been collapsed. -/
theorem exists_full_solveTable (hv : v < net.size) :
    ∃ D : OrderedTree bs.flatten, Full bs D.1 ∧ ∀ m : Manager, m.Valid →
      m.literalVariables = e.literalVariables → Ends (solveTable s e bs.flatten v) m
        (Rooted m (collapsedTree s.collapse m D)) := by
  have hlaidOut := (laidOut_network hnet he).mono hus.subset
  have hnodup := hus.nodup_iff.2 List.nodup_range
  obtain ⟨f, hf, hlaid, hscope, hmem, hlt, -⟩ := exists_factor hnet he hv
  obtain ⟨f', r, hf', hr⟩ := start_wellFormed s.determinism hnet he hv
  obtain rfl := Except.ok.inj (hf.symm.trans hf')
  have hpos : ∀ u ∈ f.scope, 0 < net.dimOf u := fun u hu => hnet.dim_pos (hlt u hu)
  -- the part of the ordering that belongs to the table
  obtain ⟨bs', hsub, hbs', hrestrict⟩ := exists_restricted hlaidOut hlaid hbs
  have hperm : (us.filter (· ∈ f.scope)).Perm f.scope := perm_filter_scope hnodup hscope
    fun u hu => hus.symm.subset (List.mem_range.2 (hlt u hu))
  have hfull : Full bs ((tableExcerpt f (e.firstLiterals.getD · 0)
      (us.filter (· ∈ f.scope))).tree s.determinism bs').2 :=
    (Excerpt.full_tree (Run.nonempty_blocks hbs' fun u hu => hpos u (hperm.subset hu))
      fun _ => rfl).sublist hsub
  refine ⟨⟨_, hfull.ordered (hlaidOut.nodup_flatten hnodup hbs)⟩, hfull, fun m V hm => ?_⟩
  have hsolved := solve_table hlaid hscope hpos (List.ne_nil_of_mem hmem) hperm hbs' hr s.collapse V
  have htime' : Settings.expired { s with method := .hybrid } = false := htime
  rw [← hrestrict] at hsolved
  refine Ends.lift hf ?_
  unfold tableDiagram
  rw [htime']
  exact Ends.lift hr hsolved

/-- The diagrams of all tables are a queue of full trees. -/
theorem exists_full_solveTables (V : m₀.Valid) (hm : m₀.literalVariables = e.literalVariables) :
    ∃ trees : List (OrderedTree bs.flatten), (∀ D ∈ trees, Full bs D.1) ∧
      Ends (solveTables s net e bs.flatten) m₀ fun roots m => roots.length = trees.length ∧
        Held m₀ (collapsedTree s.collapse m₀) (roots.zip trees) m := by
  have htable : ∀ v ∈ List.range net.size, ∃ D : OrderedTree bs.flatten, Full bs D.1 ∧
      ∀ m : Manager, m.Valid → m.literalVariables = e.literalVariables →
        Ends (solveTable s e bs.flatten v) m (Rooted m (collapsedTree s.collapse m D)) :=
    fun v hv => exists_full_solveTable hnet he htime hus hbs (List.mem_range.1 hv)
  choose! D hfull hsolved using htable
  refine ⟨(List.range net.size).map D, List.forall_mem_map.2 hfull, ?_⟩
  refine Held.mapM V (List.forall₂_map_right_iff.2 (List.forall₂_same.2 fun v hv m V' hvars => ?_))
    (Held.start V)
  have hsame : m₀.sameVariable = m.sameVariable := sameVariable_congr hvars.symm
  unfold collapsedTree
  rw [hsame]
  exact hsolved v hv m V' (hvars.trans hm)

end

/-! ## Queues -/

/-- A queue in another order has the same labels. -/
theorem exists_zip_perm {ι : Type} {queue roots : List Handle} {trees : List ι}
    (hlength : roots.length = trees.length) (hp : queue.Perm roots) :
    ∃ labelled : List (Handle × ι), labelled.map (·.1) = queue ∧
      labelled.Perm (roots.zip trees) := by
  have hzip : List.Forall₂ (fun c (x : Handle × ι) => c = x.1) roots (roots.zip trees) := by
    rw [← List.forall₂_map_right_iff, List.map_fst_zip hlength.le]
    exact List.forall₂_refl roots
  obtain ⟨labelled, hqueue, hperm⟩ := List.perm_comp_forall₂ hp hzip
  have heq : List.Forall₂ (· = ·) queue (labelled.map (·.1)) := List.forall₂_map_right_iff.2 hqueue
  rw [List.forall₂_eq_eq_eq] at heq
  exact ⟨labelled, heq.symm, hperm⟩

/-- In every order, a queue of full trees is conjoined to their product. -/
theorem conjoinAll_perm {queue roots : List Handle} {trees : List (OrderedTree bs.flatten)}
    {collapse : Bool} (V : m₀.Valid) (hU : Uniform m₀.sameVariable bs)
    (hfull : ∀ D ∈ trees, Full bs D.1) (hlength : roots.length = trees.length)
    (H : Held m₀ (collapsedTree collapse m₀) (roots.zip trees) m) (hp : queue.Perm roots) :
    Ends (conjoinAll queue bs.flatten collapse false) m fun c m' =>
      Denotes m'.key? c (collapsedTree collapse m₀ trees.prod) ∧ Shared m'.key? c := by
  obtain ⟨labelled, rfl, hperm⟩ := exists_zip_perm hlength hp
  have hlabels : (labelled.map (·.2)).Perm trees := by
    have hzip := hperm.map (·.2)
    rwa [List.map_snd_zip hlength.ge] at hzip
  have hlabelled : ∀ D ∈ labelled.map (·.2), Full bs D.1 := fun D hD => hfull D (hlabels.subset hD)
  refine Ends.mono (conjoinAll_full V hU hlabelled (H.perm hperm)) ?_
  intro c m' H'
  rw [hlabels.prod_eq] at H'
  exact ⟨H'.denotes _ (List.mem_singleton_self _), H'.shared _ (List.mem_singleton_self _)⟩

/-! ## References -/

/-- The caller gets references to all solved tables. -/
theorem traced_solveTables (hb : Bare frozen) (T : Traced frozen ext t m) :
    Gives (solveTables s net e ordering) m fun roots m' =>
      Traced frozen (ext + fun h => roots.count h) t m' :=
  traced_mapM (fun _ _ _ T => Gives.lift fun _ _ => Gives.lift fun _ _ => traced_solve hb T) _ T

/-- The references to the tables become one to their product. -/
theorem tended_conjoinAll {queue roots : List Handle} {collapse expired : Bool} (hb : Bare frozen)
    (hq : q.Tended frozen)
    (hsolved : (solveTables s net e ordering).run q.manager = .ok roots m) (hp : queue.Perm roots)
    (hrun : (conjoinAll queue ordering collapse expired).run m = .ok c m') :
    Session.Tended frozen ⟨m', c :: q.held, q.loose⟩ := by
  have hcount : (fun h => roots.count h) = fun h => queue.count h := by
    funext h
    exact (hp.count_eq h).symm
  have T : Traced frozen ((fun h => q.held.count h) + fun h => roots.count h) {h | h ∈ q.loose} m :=
    traced_solveTables hb hq roots m hsolved
  rw [hcount] at T
  refine Traced.congr_ext (traced_conjoinAll hb T c m' hrun) _ fun h _ => ?_
  exact count_cons_apply c h q.held

/-! ## The result -/

/-- The diagrams of all tables are conjoined to isomorphic ones in every order. Of the tables, only
what is below the result is left, and the caller has one reference to it. -/
theorem conjoinAll_isomorphic {literalVariables : Array Variable} {bits : Nat}
    {ops : List Operation} (hnet : net.WellFormed)
    (he : Encoding.ofNetwork s.encoding net = .ok e) (htime : s.expired = false)
    (hordering : Contiguous (e.firstLiterals.getD · 0) net.dimOf (List.range net.size) ordering)
    (hq : Session.Run (fun o s => o.Allowed s ∧ o.Careful s)
      (Session.start literalVariables bits) ops q)
    (hvars : q.manager.literalVariables = e.literalVariables)
    (hroom : q.manager.tableBits ≤ Arena.maxBits) :
    ∃ roots m, (solveTables s net e ordering).run q.manager = .ok roots m ∧
      ∀ queue queue' : List Handle, queue.Perm roots → queue'.Perm roots → ∃ c c' m₁ m₁',
        (conjoinAll queue ordering s.collapse s.expired).run m = .ok c m₁ ∧
        (conjoinAll queue' ordering s.collapse s.expired).run m = .ok c' m₁' ∧
        Isomorphic m₁.key? m₁'.key? c c' ∧
        Session.Accounted ⟨m₁, c :: q.held, q.loose⟩ ∧
        Session.Accounted ⟨m₁', c' :: q.held, q.loose⟩ := by
  obtain ⟨us, bs, hus, hbs, rfl⟩ := hordering
  have hb := Session.bare_start literalVariables bits
  have hT := hq.tended hb (Session.tended_start literalVariables bits)
  have V := hT.valid hb hroom
  have hU := uniform_blocks hnet he hus hbs hvars
  obtain ⟨trees, hfull, roots, m, hsolved, hlength, H⟩ :=
    exists_full_solveTables hnet he htime hus hbs V hvars
  refine ⟨roots, m, hsolved, fun queue queue' hp hp' => ?_⟩
  rw [htime]
  obtain ⟨c, m₁, hrun, hD, hS⟩ := conjoinAll_perm V hU hfull hlength H hp
  obtain ⟨c', m₁', hrun', hD', hS'⟩ := conjoinAll_perm V hU hfull hlength H hp'
  exact ⟨c, c', m₁, m₁', hrun, hrun', Shared.isomorphic hS hS' hD hD',
    (tended_conjoinAll hb hT hsolved hp hrun).accounted,
    (tended_conjoinAll hb hT hsolved hp' hrun').accounted⟩

/-- The tables of two coins, conjoined in both orders. -/
theorem conjoinAll_isomorphic_twoCoins : ∃ s e ordering roots c c' m m₁ m₁',
    s.collapse = true ∧ s.expired = false ∧
      Encoding.ofNetwork (Settings.encoding s) twoCoins = .ok e ∧
      Contiguous (e.firstLiterals.getD · 0) twoCoins.dimOf (List.range 2) ordering ∧
      (solveTables s twoCoins e ordering).run (Manager.start e.literalVariables 4) =
        .ok roots m ∧
      (conjoinAll roots ordering true false).run m = .ok c m₁ ∧
      (conjoinAll roots.reverse ordering true false).run m = .ok c' m₁' ∧
      Isomorphic m₁.key? m₁'.key? c c' ∧ Session.Accounted ⟨m₁, [c], []⟩ ∧
      Session.Accounted ⟨m₁', [c'], []⟩ := by
  let s : Settings := { Settings.standard with collapse := true, determinism := true }
  obtain ⟨e, he, -⟩ := Encoding.ofNetwork_spec s.encoding wellFormed_twoCoins
  obtain ⟨bs, hbs⟩ := exists_runs (laidOut_network wellFormed_twoCoins he).first_pos
  have hordering : Contiguous (e.firstLiterals.getD · 0) twoCoins.dimOf (List.range twoCoins.size)
      bs.flatten := ⟨_, bs, .refl _, hbs, rfl⟩
  obtain ⟨roots, m, hsolved, hall⟩ := conjoinAll_isomorphic wellFormed_twoCoins he rfl hordering
    (.nil (Session.start e.literalVariables 4)) rfl (show 4 ≤ Arena.maxBits by decide)
  obtain ⟨c, c', m₁, m₁', hrun, hrun', hiso, hleft, hleft'⟩ :=
    hall roots roots.reverse (.refl _) (List.reverse_perm _)
  exact ⟨s, e, bs.flatten, roots, c, c', m, m₁, m₁', rfl, rfl, he, hordering, hsolved, hrun, hrun',
    hiso, hleft, hleft'⟩

end BayesCircuit.Compiler
