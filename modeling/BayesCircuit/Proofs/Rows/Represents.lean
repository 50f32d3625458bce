import BayesCircuit.Proofs.Rows.Solve

/-!
# Solving a table represents the table

Before anything has been conditioned on, all rows are pending, and an ordering that lists the
literals of the table lies ahead (`solving_start`). The literals of other tables in the ordering are
neither tested by the diagram nor looked at when it is evaluated (`evaluate_ownPart`). So the
diagram has for every assignment the weight of the row that is selected, and the engine is left as
it was (`solve_represents`).
-/

namespace BayesCircuit.Decision.Rows

open Collection Manager Decision.Action

variable {r : Rows} {f : Factor} {literalVariables : Array Variable} {first dim : Variable → Nat}
variable {determinism : Bool} {ordering ls : List Literal} {u v : Nat} {ρ : Variable → Nat}
variable {x : Literal → Bool} {m : Manager} {h : Handle} {D : Diagram} {l : Literal}

/-! ## Starting -/

/-- An ordering lists every literal of a factor once, besides literals of other variables. -/
def ListsOnce (f : Factor) (ordering : List Literal) : Prop :=
  ((ordering.filter fun l => f.literals.contains l.index).map (·.value)).Perm
    (f.literals.map (Int.ofNat ·))

theorem mem_literals (hlaid : f.Laid literalVariables first dim) {n : Nat} :
    n ∈ f.literals ↔ ∃ u ∈ f.scope, first u ≤ n ∧ n < first u + dim u := by
  rw [Factor.literals, hlaid.firsts, hlaid.dims, List.zip_map', List.flatMap_map, List.mem_flatMap]
  constructor
  · rintro ⟨u, hu, hn⟩
    obtain ⟨d, hd, rfl⟩ := List.mem_map.1 hn
    have := List.mem_range.1 hd
    exact ⟨u, hu, by omega, by omega⟩
  · rintro ⟨u, hu, hle, hlt⟩
    exact ⟨u, hu, List.mem_map.2 ⟨n - first u, List.mem_range.2 (by omega), by omega⟩⟩

theorem nodup_literals (hlaid : f.Laid literalVariables first dim) (hnodup : f.scope.Nodup) :
    f.literals.Nodup := by
  rw [Factor.literals, hlaid.firsts, hlaid.dims, List.zip_map', List.flatMap_map,
    List.nodup_flatMap]
  refine ⟨fun u _ => List.nodup_range.map (fun a b hab => Nat.add_left_cancel hab), ?_⟩
  refine hnodup.imp_of_mem fun {u w} hu hw hne n hn hn' => ?_
  obtain ⟨d, hd, rfl⟩ := List.mem_map.1 hn
  obtain ⟨d', hd', he⟩ := List.mem_map.1 hn'
  have hlt := List.mem_range.1 hd
  have hlt' := List.mem_range.1 hd'
  have hpos : 0 < first u + d := Nat.lt_of_lt_of_le (hlaid.first_pos u hu) (Nat.le_add_right ..)
  have hget := (hlaid.literal u hu _ hpos).2 ⟨by omega, by omega⟩
  have hget' := (hlaid.literal w hw _ hpos).2 ⟨by omega, by omega⟩
  exact hne (Option.some.inj (hget.symm.trans hget'))

/-- At the start the literals of a factor are those that its engine owns. -/
theorem owns_start (hlaid : f.Laid literalVariables first dim) (hnodup : f.scope.Nodup)
    (hr : start f literalVariables determinism = .ok r) (l : Literal) :
    r.owns l = f.literals.contains l.index := by
  have htable := table_start hlaid hr
  obtain ⟨-, -, -, -, hscope, -, -, -⟩ := start_ok hr
  rw [Bool.eq_iff_iff, List.contains_iff_mem, mem_literals hlaid, owns, Option.isSome_iff_exists]
  constructor
  · rintro ⟨v, hv⟩
    obtain ⟨u, hvar, hu⟩ := position?_eq_some hv
    have hmem := List.mem_of_getElem? hu
    exact ⟨u, hscope ▸ hmem, (htable.literal u hmem _ (index_pos l)).1 hvar⟩
  · rintro ⟨u, hu, hle, hlt⟩
    rw [← hscope] at hu
    obtain ⟨v, hv⟩ := List.mem_iff_getElem?.1 hu
    exact ⟨v, htable.position?_run (hscope ▸ hnodup) hv hle hlt⟩

/-- The rows of an engine have the weights that the factor gives them. -/
theorem weights_start (hlaid : f.Laid literalVariables first dim)
    (hpos : ∀ u ∈ f.scope, 0 < dim u) (hr : start f literalVariables determinism = .ok r)
    {row : Nat} (hrow : row < f.dims.prod) : r.weights[row]? = f.weights[row]? := by
  obtain ⟨-, hlists, -⟩ := start_ok hr
  have hdims : ∀ d ∈ f.dims, 0 < d := by
    rw [hlaid.dims]
    intro d hd
    obtain ⟨u, hu, rfl⟩ := List.mem_map.1 hd
    exact hpos u hu
  rw [hlists.weight, Factor.counter, Counter.walk_zero hdims, List.getElem?_map,
    List.getElem?_range hrow, Option.map_some, Option.bind_some, Counter.value,
    Counter.value_wheelsOf hrow]

/-- At the start every assignment has an open row. -/
theorem open_start (hlaid : f.Laid literalVariables first dim) (hnodup : f.scope.Nodup)
    (hpos : ∀ u ∈ f.scope, 0 < dim u) (hr : start f literalVariables determinism = .ok r)
    (hρ : Assigns f.scope dim ρ) : r.Open dim ρ := by
  obtain ⟨hfresh, -, -, -, hscope, -, -, -⟩ := start_ok hr
  rw [← hscope] at hρ
  have hrow := (full_start hlaid hnodup hpos hr).row_lt ρ hρ
  refine ⟨hρ, ?_⟩
  simp [cell, hfresh.resolvedBy, Array.getD_eq_getD_getElem?, hrow]

theorem solving_start (hlaid : f.Laid literalVariables first dim) (hnodup : f.scope.Nodup)
    (hpos : ∀ u ∈ f.scope, 0 < dim u) (hscope : f.scope ≠ [])
    (hr : start f literalVariables determinism = .ok r) (hordering : ListsOnce f ordering) :
    r.Solving first dim ordering := by
  have htable := table_start hlaid hr
  have hfull := full_start hlaid hnodup hpos hr
  have howns := owns_start hlaid hnodup hr
  obtain ⟨hfresh, -, -, -, hscope', -, -, -⟩ := start_ok hr
  have hheads : r.heads = [] := by
    rw [heads, hfresh.history]
    rfl
  have hfilter : ordering.filter (fun l => f.literals.contains l.index) =
      ordering.filter fun l => r.owns l := List.filter_congr fun l _ => (howns l).symm
  rw [ListsOnce, hfilter] at hordering
  have hpositive : ∀ l ∈ ordering, r.owns l = true → l.isNegative = false := by
    intro l hl hown
    have hmem := hordering.mem_iff.1 (List.mem_map_of_mem (List.mem_filter.2 ⟨hl, hown⟩))
    obtain ⟨n, -, hn⟩ := List.mem_map.1 hmem
    exact decide_eq_false (by rw [← hn]; exact Int.not_lt.2 (Int.natCast_nonneg n))
  have hdistinct : ((ordering.filter fun l => r.owns l).map (·.value)).Nodup :=
    hordering.nodup_iff.2 ((nodup_literals hlaid hnodup).map fun a b hab => Int.ofNat.inj hab)
  refine ⟨⟨hfull, consistent_start htable hfresh, exact_start htable hfresh (hscope' ▸ hscope)⟩,
    ⟨hpositive, fun l _ _ => ?_, ?_, fun v u hu _ d hd => ?_⟩, ?_⟩
  · rw [hheads]
    exact fun m hm => absurd hm List.not_mem_nil
  · -- two literals of the table with one number are one positive literal
    have hpairwise := List.pairwise_filter.1 (List.Nodup.of_map _ hdistinct)
    refine hpairwise.imp_of_mem fun {a b} ha hb hab hown he => ?_
    have hown' : r.owns b = true := by
      rw [howns, ← he, ← howns]
      exact hown
    refine hab hown hown' ?_
    have ha' : ¬ a.value < 0 := of_decide_eq_false (hpositive a ha hown)
    have hb' : ¬ b.value < 0 := of_decide_eq_false (hpositive b hb hown')
    have hvalue : a.value = b.value := by
      simp only [Literal.index] at he
      omega
    cases a
    cases b
    cases hvalue
    rfl
  · have hlt := List.mem_range.1 (List.mem_filter.1 hd).1
    have hmem : first u + d ∈ f.literals :=
      (mem_literals hlaid).2 ⟨u, hscope' ▸ List.mem_of_getElem? hu, by omega, by omega⟩
    obtain ⟨l, hl, hvalue⟩ := List.mem_map.1 (hordering.mem_iff.2 (List.mem_map_of_mem hmem))
    refine ⟨l, (List.mem_filter.1 hl).1, ?_⟩
    rw [Literal.index, hvalue]
    rfl
  · rw [hfresh.pending]
    exact Nat.lt_of_le_of_lt (Nat.zero_le _)
      (hfull.row_lt (fun _ => 0) fun u hu => hpos u (hscope' ▸ hu))

/-- An assignment makes, of the literals of each variable, the one of its value hold. -/
def Selects (e : Encoding) (scope : List Variable) (ρ : Variable → Nat) (x : Literal → Bool) :
    Prop :=
  ∀ u ∈ scope, ∀ l : Literal, l.isPositive = true → e.variableOf l = .ok u →
    (x l = true ↔ e.valueOf l = .ok (ρ u))

theorem valueOf_eq_ok {options : EncodingOptions} {net : Network} {e : Encoding} {d : Nat}
    (he : Encoding.ofNetwork options net = .ok e) (hu : u < net.size)
    (hl : e.variableOf l = .ok u) (hle : e.firstLiterals.getD u 0 ≤ l.index) :
    e.valueOf l = .ok d ↔ l.index = e.firstLiterals.getD u 0 + d := by
  have hlt : u < e.firstLiterals.size := (Encoding.size_firstLiterals he).symm ▸ hu
  have hfirst : e.firstLiteral u = .ok (e.firstLiterals.getD u 0) := by
    rw [Encoding.firstLiteral, Encoding.fetch_eq_ok, Array.getD_eq_getD_getElem?,
      Array.getElem?_eq_getElem hlt, Option.getD_some]
  have hvalue : e.valueOf l = .ok (l.index - e.firstLiterals.getD u 0) := by
    simp only [Encoding.valueOf, hl, hfirst, bind, Except.bind]
    exact if_pos hle
  rw [hvalue, Except.ok.injEq]
  omega

/-- The literal that an engine owns is the one of the value of its variable. -/
theorem selects_shows {options : EncodingOptions} {net : Network} {e : Encoding}
    (he : Encoding.ofNetwork options net = .ok e) (ht : r.Table (e.firstLiterals.getD · 0) dim)
    (hvariables : r.literalVariables = e.literalVariables) (hlt : ∀ u ∈ r.scope, u < net.size)
    (hρ : Assigns r.scope dim ρ) (hx : Selects e r.scope ρ x) (hl : l.isNegative = false)
    (hown : r.owns l = true) : x l = true ↔ Shows r.scope (e.firstLiterals.getD · 0) ρ l.index := by
  obtain ⟨v, hv⟩ := Option.isSome_iff_exists.1 hown
  obtain ⟨u, hvar, hu⟩ := position?_eq_some hv
  have hmem := List.mem_of_getElem? hu
  obtain ⟨hle, hltu⟩ := (ht.literal u hmem _ (index_pos l)).1 hvar
  have hof : e.variableOf l = .ok u := Encoding.fetch_eq_ok.2 (hvariables ▸ hvar)
  have hpositive : l.isPositive = true := by
    have hindex : 0 < l.value.natAbs := index_pos l
    have hnonneg : ¬ l.value < 0 := of_decide_eq_false hl
    exact decide_eq_true (by omega)
  rw [hx u hmem l hpositive hof,
    valueOf_eq_ok he (hlt u hmem) hof hle, ht.shows_iff hρ hmem hle hltu]

/-! ## Literals of other tables -/

/-- A tree does not test a literal. -/
def Avoids (n : Int) : Diagram → Prop
  | .leaf _ => True
  | .branch k _ H L => k ≠ n ∧ Avoids n H ∧ Avoids n L

theorem avoids_of_regular {e : Exit} {n : Int} (hn : ∀ l ∈ ls, l.value ≠ n) :
    ∀ {D : Diagram}, Regular e (singles ls) D → Avoids n D := by
  induction ls with
  | nil =>
      intro D hD
      cases D with
      | leaf c => trivial
      | branch => exact hD.elim
  | cons l ls ih =>
      obtain ⟨hl, hrest⟩ := List.forall_mem_cons.1 hn
      intro D hD
      cases D with
      | leaf c => trivial
      | branch k ws H L =>
          rw [show singles (l :: ls) = ⟨l, []⟩ :: singles ls from rfl, Regular] at hD
          split at hD
          · rename_i hk
            refine ⟨hk ▸ hl, ih hrest hD.1, ?_⟩
            cases L with
            | leaf c => trivial
            | branch => exact ih hrest hD.2.2
          · exact ih hrest hD

/-- A walk does not stop at literals that the diagram does not test. -/
theorem walk_filter {p : Literal → Bool} : ∀ {ls : List Literal} {w : Walk} {D : Diagram},
    Denotes m.key? w.current D → (∀ l ∈ ls, p l = false → Avoids l.value D) →
    m.walk (fun l => .ok (x l)) false ls w = m.walk (fun l => .ok (x l)) false (ls.filter p) w
  | [], _, _, _, _ => rfl
  | l :: ls, w, D, hD, havoid => by
      by_cases hw : w.current = Handle.true'
      · rw [walk_of_true hw, walk_of_true hw]
      · have hrest := fun k hk => havoid k (List.mem_cons_of_mem l hk)
        by_cases hl : D.literal? = some l.value
        · -- the node tests the literal, so it is kept
          cases D with
          | leaf c => cases hl
          | branch k ws H L =>
              obtain ⟨ht, key, hkey, hlit, -, hH, hL⟩ := hD.cases_branch
              obtain ⟨n, hn, rfl⟩ := key?_eq_some_iff.1 hkey
              have hk : k = l.value := Option.some.inj hl
              have hp : p l = true := by
                by_contra hp
                exact (havoid l (List.mem_cons_self ..) (by simpa using hp)).1 hk
              have hstep := walkOn_tested false ht hn (hlit.trans hk) (x l)
              rw [List.filter_cons_of_pos hp, walk_cons hw hstep, walk_cons hw hstep]
              cases hx : x l with
              | true => exact walk_filter (D := H) hH fun k hk hp => (hrest k hk hp).2.1
              | false => exact walk_filter (D := L) hL fun k hk hp => (hrest k hk hp).2.2
        · have hstep : m.walkOn false l (x l) w = .ok w := by
            rw [walkOn_missed hD hl]
            cases w.left <;> simp
          rw [walk_cons hw hstep, walk_filter hD hrest]
          by_cases hp : p l = true
          · rw [List.filter_cons_of_pos hp, walk_cons hw hstep]
          · rw [List.filter_cons_of_neg hp]

theorem evaluate_ownPart (hD : Denotes m.key? h D)
    (hR : Regular .atEnd (singles (r.ownPart ordering)) D) :
    m.evaluate h ordering (fun l => .ok (x l)) false =
      m.evaluate h (r.ownPart ordering) (fun l => .ok (x l)) false := by
  unfold evaluate
  rw [walk_filter (p := r.owns) (w := ⟨h, [], none⟩) hD fun l _ hl => ?_]
  · rfl
  · refine avoids_of_regular (fun k hk he => ?_) hR
    have hown := (List.mem_filter.1 hk).2
    have hindex : k.index = l.index := congrArg Int.natAbs he
    have hsame : r.owns k = r.owns l := by
      rw [owns, owns, position?_congr (m := l) (by rw [hindex])]
    cases hl.symm.trans (hsame.symm.trans hown)

/-! ## Solving -/

/-- Solve a table, and give back the engine. -/
def solveKeeping (r : Rows) (ordering : List Literal) (collapse expired : Bool) :
    Action (Handle × Rows) :=
  buildKeeping Rows.engine r ordering collapse expired

theorem solve_eq_keeping {collapse expired : Bool} :
    solve r ordering collapse expired = Prod.fst <$> solveKeeping r ordering collapse expired :=
  build_eq_keeping

/-- The weights on the path of an assignment that selects a row with a given weight. -/
def entryWeights (determinism : Bool) (w : Weight) : Option Weights :=
  if determinism && w == 0 then none else if determinism && w == 1 then some [] else some [w]

theorem sorted_entryValue {w : Weight} :
    (entryValue determinism w).sorted = entryWeights determinism w := by
  unfold entryValue entryWeights
  split
  · rfl
  · split <;> simp [Value.sorted]

theorem run_map {α β : Type} {a : α} {m' : Manager} {y : Action α} {g : α → β}
    (h : y.run m = .ok a m') : (g <$> y).run m = .ok (g a) m' := by
  simp only [EStateM.run] at h
  simp only [Functor.map, EStateM.run, EStateM.map, h]

/-- Solving a table along an ordering of its literals, in which literals of other variables may
occur as well, gives a diagram, and it leaves the engine as it was. For every assignment the
diagram has the weight of the row that is selected. -/
theorem solve_represents {options : EncodingOptions} {net : Network} {e : Encoding}
    (determinism : Bool) (hnet : net.WellFormed)
    (he : Encoding.ofNetwork options net = .ok e) {owner : Variable} (howner : owner < net.size) :
    ∃ f r, e.factor owner = .ok f ∧ start f e.literalVariables determinism = .ok r ∧
      ∀ ordering, ListsOnce f ordering → ∀ m : Manager, m.Valid →
        ∃ root m', (solve r ordering false false).run m = .ok root m' ∧
          (solveKeeping r ordering false false).run m = .ok (root, r) m' ∧
          ∀ ρ, Assigns f.scope net.dimOf ρ → ∀ x, Selects e f.scope ρ x →
            ∃ w, f.weights[Counter.number f.dims (f.scope.map ρ)]? = some w ∧
              m'.evaluate root ordering (fun l => .ok (x l)) false =
                .ok (entryWeights determinism w) := by
  obtain ⟨f, r, hf, hstart⟩ := start_wellFormed determinism hnet he howner
  refine ⟨f, r, hf, hstart, fun ordering hordering m V => ?_⟩
  obtain ⟨hlaid, hmem, hlt⟩ := Encoding.laid_factor he hf
  obtain ⟨e', he', hrep⟩ := Encoding.ofNetwork_spec options hnet
  obtain rfl := Except.ok.inj (he.symm.trans he')
  obtain ⟨f', hf', hencodes⟩ := hrep.factor owner howner
  obtain rfl := Except.ok.inj (hf.symm.trans hf')
  have hnodup : f.scope.Nodup := by
    rw [hencodes.scope]
    exact (List.mergeSort_perm _ _).nodup_iff.2 (hnet.nodup_family howner)
  have hpos : ∀ u ∈ f.scope, 0 < net.dimOf u := fun u hu => hnet.dim_pos (hlt u hu)
  have hsolving := solving_start hlaid hnodup hpos
    (List.ne_nil_of_mem hmem) hstart hordering
  obtain ⟨D, hplan, hvalues⟩ := plan_value hsolving
  have hkeep : ∀ {m' : Manager}, m'.literalVariables = m.literalVariables →
      sameIf false m'.sameVariable = fun _ _ => false := fun _ => rfl
  have hbuilt := buildKeeping_rooted V (follows m.arena.get? m.literalVariables _ _ _) hkeep
    ⟨rfl, hsolving⟩ hplan trivial
  obtain ⟨⟨root, r'⟩, m', hrun, D', hred, hR, halike⟩ := hbuilt
  obtain rfl : r' = r := halike
  have hplain : Reduces (sameIf false fun _ _ => false) D D' := hred.reduces
  obtain rfl : D' = D := hplain.eq_of_false
  refine ⟨root, m', ?_, hrun, fun ρ hρ x hx => ?_⟩
  · rw [solve_eq_keeping]
    exact run_map hrun
  · obtain ⟨-, -, hdeterminism, hvariables, hscope, -⟩ := start_ok hstart
    have htable := hsolving.running.consistent.table
    have hrow : Counter.number f.dims (f.scope.map ρ) < f.dims.prod := by
      rw [hlaid.dims]
      exact Counter.number_lt (Counter.fits_map hρ)
    have hlt' : Counter.number f.dims (f.scope.map ρ) < f.weights.size := by
      rw [hencodes.size]
      exact hrow
    refine ⟨_, Array.getElem?_eq_getElem hlt', ?_⟩
    have hopen := open_start hlaid hnodup hpos hstart hρ
    have hvalue := hvalues.value ρ hopen x fun l hl =>
      have hl := List.mem_filter.1 hl
      selects_shows he htable hvariables (hscope ▸ hlt) hopen.assigns (hscope ▸ hx)
        (hsolving.ahead.positive l hl.1 hl.2) hl.2
    have hweight := weights_start hlaid hpos hstart hrow
    rw [evaluate_ownPart hR.denotes hvalues.regular,
      evaluate_forward hsolving.ahead.nodup hR.denotes hvalues.regular, hvalue,
      sorted_entryValue, hdeterminism, rowOf, hscope, ← hlaid.dims,
      Array.getD_eq_getD_getElem?, hweight, Array.getElem?_eq_getElem hlt', Option.getD_some]

/-- There are literals with given values. -/
theorem exists_literals (zs : List Int) (hzs : ∀ z ∈ zs, z ≠ 0) :
    ∃ ls : List Literal, ls.map (·.value) = zs :=
  ⟨zs.pmap Literal.mk hzs, by rw [List.map_pmap, List.pmap_eq_map, List.map_id']⟩

theorem exists_factorLiterals (hlaid : f.Laid literalVariables first dim) :
    ∃ ordering : List Literal, ordering.map (·.value) = f.literals.map Int.ofNat := by
  refine exists_literals _ fun z hz => ?_
  obtain ⟨n, hn, rfl⟩ := List.mem_map.1 hz
  obtain ⟨u, hu, hle, -⟩ := (mem_literals hlaid).1 hn
  have := hlaid.first_pos u hu
  simp only [Int.ofNat_eq_natCast]
  omega

/-- Every factor has an ordering that lists its literals. -/
theorem exists_listsOnce (hlaid : f.Laid literalVariables first dim) :
    ∃ ordering, ListsOnce f ordering := by
  obtain ⟨ordering, hordering⟩ := exists_factorLiterals hlaid
  refine ⟨ordering, ?_⟩
  rw [ListsOnce, List.filter_eq_self.2 fun l hl => ?_, hordering]
  have hmem := hordering ▸ List.mem_map_of_mem hl
  obtain ⟨n, hn, hvalue⟩ := List.mem_map.1 hmem
  rw [List.contains_iff_mem, Literal.index, ← hvalue]
  exact hn

/-- Solving the table of the second coin, and reading it where both coins show tails. -/
theorem solve_represents_twoCoins : ∃ e f r ordering root m' w,
    Encoding.ofNetwork ⟨true, false⟩ twoCoins = .ok e ∧ e.factor 1 = .ok f ∧
      start f e.literalVariables true = .ok r ∧ ListsOnce f ordering ∧
      (solve r ordering false false).run (Manager.start e.literalVariables 4) = .ok root m' ∧
      f.weights[Counter.number f.dims (f.scope.map fun _ => 1)]? = some w ∧
      m'.evaluate root ordering (fun l => .ok (decide (e.valueOf l = .ok 1))) false =
        .ok (entryWeights true w) := by
  obtain ⟨e, he, -⟩ := Encoding.ofNetwork_spec ⟨true, false⟩ wellFormed_twoCoins
  obtain ⟨f, r, hf, hr, hall⟩ := solve_represents true wellFormed_twoCoins he
    (show 1 < twoCoins.size by decide)
  obtain ⟨hlaid, -, hlt⟩ := Encoding.laid_factor he hf
  obtain ⟨ordering, hordering⟩ := exists_listsOnce hlaid
  obtain ⟨root, m', hrun, -, hvalues⟩ := hall ordering hordering
    (Manager.start e.literalVariables 4) (valid_start (by decide))
  have htails : ∀ u < twoCoins.size, 1 < twoCoins.dimOf u := by decide +kernel
  obtain ⟨w, hw, hvalue⟩ := hvalues (fun _ => 1) (fun u hu => htails u (hlt u hu)) _
    fun u hu l hl hof => decide_eq_true_iff
  exact ⟨e, f, r, ordering, root, m', w, he, hf, hr, hordering, hrun, hw, hvalue⟩

end BayesCircuit.Decision.Rows
