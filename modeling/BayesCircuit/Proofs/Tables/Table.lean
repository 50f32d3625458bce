import BayesCircuit.Ordering.Text
import BayesCircuit.Proofs.Decision.FullProduct
import BayesCircuit.Proofs.Decision.Shared
import BayesCircuit.Proofs.Tables.Clause
import BayesCircuit.Proofs.Tables.Solved

/-!
# The rows of a table and their product

An ordering that lists the literals of some variables in turn has a block for each of them. No
literal belongs to two variables (`LaidOut`), so the blocks are uniform (`LaidOut.uniform`), and the
part of the ordering that belongs to a table goes through some of the blocks
(`exists_restricted`).

The excerpts of a queue have no common rows and are together a table. A conjunction replaces two of
them by their join (`Parts.join`). In the end one diagram is left, which has the tree of the whole
table and is shared (`conjoin_parts`).

Every assignment of the variables of a table spells a path, and every path along the blocks is
spelled by one (`Spells`). The clauses of all rows are a queue whose excerpts cut the table into
single rows (`clauses_parts`).
-/

/-! ## Blocks of variables -/

namespace BayesCircuit.Decision.Rows

open Collection Decision.Action

variable {f : Factor} {literalVariables : Array Variable} {first dim : Variable → Nat}
variable {us vs : List Variable} {bs : List (List Literal)} {b : List Literal} {u w : Variable}
variable {l l' : Literal} {m : Manager} {n : Nat}

/-! ## Literals of variables -/

/-- The literals of some variables are runs of numbers. -/
structure LaidOut (literalVariables : Array Variable) (first dim : Variable → Nat)
    (us : List Variable) : Prop where
  first_pos : ∀ u ∈ us, 0 < first u
  literal : ∀ u ∈ us, ∀ n, 0 < n →
    (literalVariables[n]? = some u ↔ first u ≤ n ∧ n < first u + dim u)

namespace LaidOut

/-- The variables of a table are laid out. -/
theorem of_laid (hlaid : f.Laid literalVariables first dim) :
    LaidOut literalVariables first dim f.scope :=
  ⟨hlaid.first_pos, hlaid.literal⟩

theorem mono (h : LaidOut literalVariables first dim vs) (hsub : us ⊆ vs) :
    LaidOut literalVariables first dim us :=
  ⟨fun u hu => h.first_pos u (hsub hu), fun u hu => h.literal u (hsub hu)⟩

section

variable (h : LaidOut literalVariables first dim us)

include h

theorem variable_eq (hu : u ∈ us) (hl : ValueOf first dim u l) :
    l.isPositive = true ∧ literalVariables[l.index]? = some u := by
  have hpos := h.first_pos u hu
  have hle := hl.le
  have hnot : ¬ l.value < 0 := of_decide_eq_false hl.positive
  refine ⟨decide_eq_true ?_, ?_⟩
  · have hindex : l.value.natAbs = l.index := rfl
    omega
  · exact (h.literal u hu _ (by omega)).2 ⟨hl.le, hl.lt⟩

/-- A manager knows the variable of a literal. -/
theorem variableOf?_eq (hm : m.literalVariables = literalVariables) (hu : u ∈ us)
    (hl : ValueOf first dim u l) : m.variableOf? l.value = some u := by
  obtain ⟨hpos, hvar⟩ := h.variable_eq hu hl
  have hpos' : 0 < l.value := of_decide_eq_true hpos
  have hindex : l.value.toNat = l.index := by
    have : l.value.natAbs = l.index := rfl
    omega
  have hne : ¬ m.literalVariables.isEmpty := by
    rw [hm, Array.isEmpty_iff]
    rintro rfl
    simp at hvar
  rw [Manager.variableOf?, if_neg (Int.not_le.2 hpos'), if_neg hne, hindex, hm, hvar]

theorem sameVariable_iff (hm : m.literalVariables = literalVariables) (hu : u ∈ us) (hw : w ∈ us)
    (hl : ValueOf first dim u l) (hl' : ValueOf first dim w l') :
    m.sameVariable l.value l'.value = true ↔ u = w := by
  rw [Manager.sameVariable, h.variableOf?_eq hm hu hl, h.variableOf?_eq hm hw hl']
  exact beq_iff_eq

variable (hnodup : us.Nodup) (hbs : List.Forall₂ (Run first dim) us bs)

include hnodup hbs

theorem nodup_flatten : bs.flatten.Nodup := by
  refine List.Nodup.of_map Literal.value ((Run.map_flatten hbs).nodup_iff.2 ?_)
  refine List.nodup_flatMap.2 ⟨fun u _ => ?_, hnodup.imp_of_mem fun {u w} hu hw hne => ?_⟩
  · exact List.nodup_range.map fun d d' he => by omega
  · -- a number that two variables share belongs to both of them
    rw [Function.onFun, List.disjoint_left]
    intro n hn hn'
    obtain ⟨d, hd, rfl⟩ := List.mem_map.1 hn
    obtain ⟨d', hd', he⟩ := List.mem_map.1 hn'
    rw [List.mem_range] at hd hd'
    have hpos := h.first_pos u hu
    have hvar := (h.literal u hu (first u + d) (by omega)).2 ⟨by omega, by omega⟩
    have hvar' := (h.literal w hw (first u + d) (by omega)).2 ⟨by omega, by omega⟩
    exact hne (Option.some.inj (hvar.symm.trans hvar'))

/-- The literals of a block belong to one variable. -/
theorem grouped (hm : m.literalVariables = literalVariables) : Grouped m.sameVariable bs where
  nodup := h.nodup_flatten hnodup hbs
  alike := by
    intro b hb l hl l' hl' i
    obtain ⟨u, hu, hrun⟩ := exists_of_forall₂ hbs hb
    rw [Manager.sameVariable, Manager.sameVariable, h.variableOf?_eq hm hu (hrun.valueOf hl),
      h.variableOf?_eq hm hu (hrun.valueOf hl')]

/-- Blocks of different variables are apart. -/
theorem uniform (hdim : ∀ u ∈ us, 0 < dim u) (hm : m.literalVariables = literalVariables) :
    Uniform m.sameVariable bs where
  toGrouped := h.grouped hnodup hbs hm
  across := by
    have hmem : us.Pairwise fun u w => u ∈ us ∧ w ∈ us ∧ u ≠ w :=
      hnodup.imp_of_mem fun hu hw hne => ⟨hu, hw, hne⟩
    refine pairwise_of_forall₂ hbs hmem fun ⟨hu, hw, hne⟩ hrun hrun' l hl l' hl' => ?_
    rw [← Bool.not_eq_true, h.sameVariable_iff hm hu hw (hrun.valueOf hl) (hrun'.valueOf hl')]
    exact hne
  nonempty := Run.nonempty_blocks hbs hdim
  within := by
    intro b hb l hl l' hl'
    obtain ⟨u, hu, hrun⟩ := exists_of_forall₂ hbs hb
    exact (h.sameVariable_iff hm hu hu (hrun.valueOf hl) (hrun.valueOf hl')).2 rfl

end

end LaidOut

/-! ## The part of a table -/

theorem any_run_iff (hlaid : f.Laid literalVariables first dim) :
    ((f.firsts.zip f.dims).any fun (first, dim) => first ≤ n && n < first + dim) = true ↔
      ∃ u ∈ f.scope, first u ≤ n ∧ n < first u + dim u := by
  rw [hlaid.firsts, hlaid.dims, List.zip_map', List.any_map, List.any_eq_true]
  simp

/-- The literals of a block belong to a table, or none of them does. -/
theorem restrict_block (h : LaidOut literalVariables first dim us)
    (hlaid : f.Laid literalVariables first dim) (hu : u ∈ us) (hb : Run first dim u b) :
    Ordering.restrict f Literal.index b = if u ∈ f.scope then b else [] := by
  unfold Ordering.restrict
  split
  · rename_i hmem
    refine List.filter_eq_self.2 fun l hl => (any_run_iff hlaid).2 ⟨u, hmem, ?_⟩
    exact ⟨(hb.valueOf hl).le, (hb.valueOf hl).lt⟩
  · rename_i hmem
    refine List.filter_eq_nil_iff.2 fun l hl => ?_
    rw [any_run_iff hlaid]
    rintro ⟨w, hw, hle, hlt⟩
    have hpos := hlaid.first_pos w hw
    have hvar := (hlaid.literal w hw l.index (by omega)).2 ⟨hle, hlt⟩
    obtain rfl : u = w := Option.some.inj ((h.variable_eq hu (hb.valueOf hl)).2.symm.trans hvar)
    exact hmem hw

/-- The part of an ordering that belongs to a table goes through some of the blocks. -/
theorem exists_restricted (h : LaidOut literalVariables first dim us)
    (hlaid : f.Laid literalVariables first dim) (hbs : List.Forall₂ (Run first dim) us bs) :
    ∃ bs', bs'.Sublist bs ∧ List.Forall₂ (Run first dim) (us.filter (· ∈ f.scope)) bs' ∧
      Ordering.restrict f Literal.index bs.flatten = bs'.flatten := by
  induction hbs with
  | nil => exact ⟨[], .slnil, .nil, rfl⟩
  | @cons u b us bs hb _ ih =>
      obtain ⟨bs', hsub, hbs', hrestrict⟩ := ih (h.mono (List.subset_cons_self u us))
      have happend : Ordering.restrict f Literal.index (b :: bs).flatten =
          (if u ∈ f.scope then b else []) ++ bs'.flatten := by
        rw [← restrict_block h hlaid (List.mem_cons_self ..) hb, ← hrestrict, List.flatten_cons]
        exact List.filter_append ..
      rw [happend]
      by_cases hu : u ∈ f.scope
      · have hfilter : (u :: us).filter (· ∈ f.scope) = u :: us.filter (· ∈ f.scope) :=
          List.filter_cons_of_pos (by simpa using hu)
        rw [if_pos hu, hfilter]
        exact ⟨b :: bs', hsub.cons_cons b, .cons hb hbs', rfl⟩
      · have hfilter : (u :: us).filter (· ∈ f.scope) = us.filter (· ∈ f.scope) :=
          List.filter_cons_of_neg (by simpa using hu)
        rw [if_neg hu, hfilter]
        exact ⟨bs', hsub.cons b, hbs', rfl⟩

theorem perm_filter_scope (hus : us.Nodup) (hscope : f.scope.Nodup) (hsub : f.scope ⊆ us) :
    (us.filter (· ∈ f.scope)).Perm f.scope := by
  refine (List.perm_ext_iff_of_nodup (hus.filter _) hscope).2 fun u => ?_
  rw [List.mem_filter, decide_eq_true_iff]
  exact ⟨And.right, fun hu => ⟨hsub hu, hu⟩⟩

end BayesCircuit.Decision.Rows

/-! ## The rows of a table and their product -/

namespace BayesCircuit.Decision

open Collection Decision.Action Excerpt

variable {m₀ m : Manager} {determinism : Bool} {bs : List (List Literal)}
variable {t t' full : Excerpt} {ts : List Excerpt}

/-! ## Excerpts without common rows -/

/-- Two excerpts have no common row. -/
def Excerpt.Disjoint (t t' : Excerpt) : Prop := ∀ p, t p = none ∨ t' p = none

/-- A table is cut into excerpts. -/
structure Parts (bs : List (List Literal)) (full : Excerpt) (ts : List Excerpt) : Prop where
  disjoint : ts.Pairwise Excerpt.Disjoint
  row : ∀ p, Along bs p → ∀ w, full p = some w ↔ ∃ t ∈ ts, t p = some w

theorem Excerpt.Disjoint.symm (h : t.Disjoint t') : t'.Disjoint t := fun p => (h p).symm

theorem join_eq_some_iff (h : t.Disjoint t') {p : List Literal} {w : Weight} :
    (t.join t') p = some w ↔ t p = some w ∨ t' p = some w := by
  rw [Excerpt.join]
  rcases h p with hp | hp
  · simp [hp]
  · simp [hp]

/-- Two excerpts become one, behind the others. -/
theorem Parts.join (h : Parts bs full (t :: t' :: ts)) : Parts bs full (ts ++ [t.join t']) := by
  obtain ⟨ht, hrest⟩ := List.pairwise_cons.1 h.disjoint
  obtain ⟨ht', hts⟩ := List.pairwise_cons.1 hrest
  have hdisjoint := ht t' (List.mem_cons_self ..)
  refine ⟨List.pairwise_append.2 ⟨hts, List.pairwise_singleton .., fun s hs s' hs' p => ?_⟩,
    fun p hp w => ?_⟩
  · rw [List.mem_singleton] at hs'
    subst hs'
    have h₁ := ht s (List.mem_cons_of_mem _ hs) p
    have h₂ := ht' s hs p
    rw [Excerpt.join]
    rcases h₁ with h₁ | h₁
    · rcases h₂ with h₂ | h₂
      · exact Or.inr (by rw [h₁, h₂]; rfl)
      · exact Or.inl h₂
    · exact Or.inl h₁
  · rw [h.row p hp w]
    constructor
    · rintro ⟨s, hs, hw⟩
      rcases List.mem_cons.1 hs with rfl | hs
      · exact ⟨_, List.mem_append_right _ (List.mem_singleton_self _),
          (join_eq_some_iff hdisjoint).2 (Or.inl hw)⟩
      rcases List.mem_cons.1 hs with rfl | hs
      · exact ⟨_, List.mem_append_right _ (List.mem_singleton_self _),
          (join_eq_some_iff hdisjoint).2 (Or.inr hw)⟩
      · exact ⟨s, List.mem_append_left _ hs, hw⟩
    · rintro ⟨s, hs, hw⟩
      rcases List.mem_append.1 hs with hs | hs
      · exact ⟨s, List.mem_cons_of_mem _ (List.mem_cons_of_mem _ hs), hw⟩
      · rw [List.mem_singleton] at hs
        subst hs
        rcases (join_eq_some_iff hdisjoint).1 hw with hw | hw
        · exact ⟨t, List.mem_cons_self .., hw⟩
        · exact ⟨t', List.mem_cons_of_mem _ (List.mem_cons_self ..), hw⟩

/-- The last excerpt is the table. -/
theorem Parts.eq_full (h : Parts bs full [t]) {p : List Literal} (hp : Along bs p) :
    t p = full p := by
  refine Option.ext fun w => ?_
  rw [h.row p hp w]
  simp

/-! ## Conjoining excerpts -/

theorem joins_excerpts (hn : bs.flatten.Nodup) :
    Joins m₀ (fun t : Excerpt => (t.tree determinism bs).2) Excerpt.join bs.flatten false
      (Parts bs full) where
  joined := Parts.join
  conjoined {t t' ts a b m} hparts V _ ha hb := by
    have hdisjoint := (List.pairwise_cons.1 hparts.disjoint).1 t' (List.mem_cons_self ..)
    have hplanned := (multiplies determinism hn hdisjoint).planned
    have hspec := conjoin_spec false V (layout_singles hn) ha hb (regular_tree hn)
      (regular_tree hn) (by rw [flatten_singles]; exact hplanned)
    rw [flatten_singles] at hspec
    refine Ends.mono hspec ?_
    rintro c m' ⟨D, hred, hR⟩
    obtain rfl := hred.reduces.eq_of_false
    exact hR

/-- A table that has been cut into parts is put together again. -/
theorem conjoin_parts {queue : List (Handle × Excerpt)} (V : m₀.Valid) (hn : bs.flatten.Nodup)
    (hne : queue ≠ []) (hparts : Parts bs full (queue.map (·.2)))
    (H : Held m₀ (fun t : Excerpt => (t.tree determinism bs).2) queue m) :
    Ends (conjoinAll (queue.map (·.1)) bs.flatten false false) m fun c m' =>
      Held m₀ (fun t : Excerpt => (t.tree determinism bs).2) [(c, full)] m' := by
  refine Ends.mono (conjoinAll_held V (joins_excerpts hn) hne hparts H) ?_
  rintro c m' ⟨t, ht, H'⟩
  exact H'.relabel (congrArg Prod.snd (tree_congr fun p hp => ht.eq_full hp).1)

end BayesCircuit.Decision

/-! ## The rows of a table -/

namespace BayesCircuit.Decision.Rows

open Collection Decision.Action Excerpt

variable {f : Factor} {literalVariables : Array Variable} {first dim : Variable → Nat}
variable {us : List Variable} {bs : List (List Literal)} {p q row : List Literal} {n : Nat}
variable {ρ σ : Variable → Nat} {u : Variable} {l : Literal} {m₀ m : Manager} {determinism : Bool}

/-! ## Tables of a network -/

/-- The table of a variable of a well-formed network. -/
theorem exists_factor {net : Network} {options : EncodingOptions} {e : Encoding} {v : Variable}
    (hnet : net.WellFormed) (he : Encoding.ofNetwork options net = .ok e) (hv : v < net.size) :
    ∃ f, e.factor v = .ok f ∧ f.Laid e.literalVariables (e.firstLiterals.getD · 0) net.dimOf ∧
      f.scope.Nodup ∧ v ∈ f.scope ∧ (∀ u ∈ f.scope, u < net.size) ∧
      f.dims.prod ≤ f.weights.size := by
  obtain ⟨e', he', hrep⟩ := Encoding.ofNetwork_spec options hnet
  obtain rfl := Except.ok.inj (he.symm.trans he')
  obtain ⟨f, hf, hencodes⟩ := hrep.factor v hv
  obtain ⟨hlaid, hmem, hlt⟩ := Encoding.laid_factor he hf
  refine ⟨f, hf, hlaid, ?_, hmem, hlt, hencodes.size.ge⟩
  rw [hencodes.scope]
  exact (List.mergeSort_perm _ _).nodup_iff.2 (hnet.nodup_family hv)

/-- What is known of the table of a variable whose numbers of values are small. -/
theorem exists_table {net : Network} {options : EncodingOptions} {e : Encoding} {v : Variable}
    (hnet : net.WellFormed) (he : Encoding.ofNetwork options net = .ok e)
    (hsmall : ∀ u < net.size, net.dimOf u < halfWordSize) (hv : v < net.size) :
    ∃ f, e.factor v = .ok f ∧ f.Laid e.literalVariables (e.firstLiterals.getD · 0) net.dimOf ∧
      f.scope.Nodup ∧ (∀ u ∈ f.scope, 0 < net.dimOf u) ∧ f.scope ≠ [] ∧
      f.dims.prod ≤ f.weights.size ∧
      ∀ u ∈ f.scope, e.dims[u]? = some (net.dimOf u) ∧ net.dimOf u < halfWordSize := by
  obtain ⟨f, hf, hlaid, hnodup, hmem, hlt, hsize⟩ := exists_factor hnet he hv
  refine ⟨f, hf, hlaid, hnodup, fun u hu => hnet.dim_pos (hlt u hu), List.ne_nil_of_mem hmem, hsize,
    fun u hu => ⟨?_, hsmall u (hlt u hu)⟩⟩
  obtain ⟨e', he', hrep⟩ := Encoding.ofNetwork_spec options hnet
  obtain rfl := Except.ok.inj (he.symm.trans he')
  rw [hrep.dims]
  exact Encoding.getElem?_dims (hlt u hu)

/-! ## Blocks of a table -/

section

variable (hlaid : f.Laid literalVariables first dim)

include hlaid

theorem variable_of_valueOf (hu : u ∈ f.scope) (hl : ValueOf first dim u l) :
    l.isPositive = true ∧ literalVariables[l.index]? = some u :=
  (LaidOut.of_laid hlaid).variable_eq hu hl

/-- A fresh closure counts all values of a variable. -/
theorem Run.counts {e : Encoding} {b : List Literal} (hrun : Run first dim u b) (hu : u ∈ f.scope)
    (he : e.literalVariables = literalVariables)
    (hdims : ∀ u ∈ f.scope, e.dims[u]? = some (dim u) ∧ dim u < halfWordSize) :
    (DomainClosure.ofEncoding e).Counts u b := by
  obtain ⟨hdim, hsmall⟩ := hdims u hu
  obtain ⟨hlt, -⟩ := Array.getElem?_eq_some_iff.1 hdim
  have hlength : b.length = dim u := by simpa using hrun.length_eq
  refine ⟨?_, hlength ▸ hdim, hlength ▸ hsmall, fun l hl => ?_⟩
  · simp [DomainClosure.ofEncoding, DomainClosure.start, hlt]
  · obtain ⟨hpos, hvar⟩ := variable_of_valueOf hlaid hu (hrun.valueOf hl)
    exact ⟨hpos, (congrArg (·[l.index]?) he).trans hvar⟩

variable (hus : us.Perm f.scope) (hbs : List.Forall₂ (Run first dim) us bs)

include hus hbs

theorem counts_blocks {e : Encoding} (he : e.literalVariables = literalVariables)
    (hdims : ∀ u ∈ f.scope, e.dims[u]? = some (dim u) ∧ dim u < halfWordSize) :
    List.Forall₂ (DomainClosure.ofEncoding e).Counts us bs := by
  have hsub : us ⊆ f.scope := hus.subset
  clear hus
  induction hbs with
  | nil => exact .nil
  | cons hrun _ ih =>
      obtain ⟨hu, hus⟩ := List.cons_subset.1 hsub
      exact .cons (hrun.counts hlaid hu he hdims) (ih hus)

theorem nodup_blocks (hnodup : f.scope.Nodup) : bs.flatten.Nodup :=
  ((LaidOut.of_laid hlaid).mono hus.subset).nodup_flatten (hus.nodup_iff.2 hnodup) hbs

/-- The literals of a block belong to one variable. -/
theorem grouped_blocks (hnodup : f.scope.Nodup) (hm : m.literalVariables = literalVariables) :
    Grouped m.sameVariable bs :=
  ((LaidOut.of_laid hlaid).mono hus.subset).grouped (hus.nodup_iff.2 hnodup) hbs hm

end

/-! ## Paths -/

/-- A path has the literals of the values that an assignment gives to some variables. -/
def Spells (first ρ : Variable → Nat) (us : List Variable) (p : List Literal) : Prop :=
  p.map Literal.value = us.map fun u => ((first u + ρ u : Nat) : Int)

theorem exists_path (hbs : List.Forall₂ (Run first dim) us bs) (hρ : ∀ u ∈ us, ρ u < dim u) :
    ∃ p, Along bs p ∧ Spells first ρ us p := by
  induction hbs with
  | nil => exact ⟨[], .nil, rfl⟩
  | @cons u b us bs hb _ ih =>
      obtain ⟨hu, hus⟩ := List.forall_mem_cons.1 hρ
      obtain ⟨p, hp, hspells⟩ := ih hus
      have hmem : ((first u + ρ u : Nat) : Int) ∈ b.map Literal.value :=
        hb.mem_iff.2 (List.mem_map.2 ⟨ρ u, List.mem_range.2 hu, rfl⟩)
      obtain ⟨l, hl, hvalue⟩ := List.mem_map.1 hmem
      refine ⟨l :: p, .cons hl hp, ?_⟩
      rw [Spells, List.map_cons, List.map_cons, hvalue, hspells]

/-- A path is spelled by the assignment that is read off it. -/
theorem spells_along (hbs : List.Forall₂ (Run first dim) us bs) (hp : Along bs p)
    (hus : us.Nodup) : Spells first (along first us p σ) us p ∧
      (∀ u ∈ us, along first us p σ u < dim u) ∧
      ∀ u, u ∉ us → along first us p σ u = σ u := by
  induction hbs generalizing p σ with
  | nil =>
      cases hp
      exact ⟨rfl, by simp, fun _ _ => rfl⟩
  | @cons u b us bs hb _ ih =>
      cases hp with
      | @cons l _ p _ hl hp =>
          obtain ⟨hu, hus⟩ := List.nodup_cons.1 hus
          obtain ⟨hspells, hlt, hother⟩ := ih (σ := Function.update σ u (l.index - first u)) hp hus
          have hvalue := hb.valueOf hl
          have hown : along first (u :: us) (l :: p) σ u = l.index - first u := by
            rw [along, hother u hu, Function.update_self]
          have hle := hvalue.le
          have hltu := hvalue.lt
          refine ⟨?_, List.forall_mem_cons.2 ⟨by rw [hown]; omega, hlt⟩, fun w hw => ?_⟩
          · have hnonneg : ¬ l.value < 0 := of_decide_eq_false hvalue.positive
            have hindex : l.value.natAbs = l.index := rfl
            rw [Spells, List.map_cons, List.map_cons, hown]
            refine congrArg₂ _ ?_ hspells
            omega
          · rw [List.mem_cons, not_or] at hw
            rw [along, hother w hw.2, Function.update_of_ne hw.1]

/-- Assignments that spell one path agree. -/
theorem Spells.eq_of_path (h : Spells first ρ us p) (h' : Spells first σ us p) :
    ∀ u ∈ us, ρ u = σ u := by
  rw [Spells, h', List.map_inj_left] at h
  intro u hu
  have := h u hu
  omega

/-- One assignment spells one path. -/
theorem Spells.unique (h : Spells first ρ us p) (h' : Spells first σ us q)
    (he : ∀ u ∈ us, ρ u = σ u) : p = q := by
  refine value_injective.list_map ?_
  rw [h, h']
  exact List.map_congr_left fun u hu => by rw [he u hu]

/-! ## Rows -/

/-- The row that has the literals of a path. -/
def rowOfPath (f : Factor) (first : Variable → Nat) (us : List Variable) (p : List Literal) : Nat :=
  Counter.number f.dims (f.scope.map (along first us p fun _ => 0))

/-- A table as an excerpt, which has all its rows. -/
def tableExcerpt (f : Factor) (first : Variable → Nat) (us : List Variable) : Excerpt := fun p =>
  some (f.weights.getD (rowOfPath f first us p) 0)

/-- An excerpt has one row of a table, and no other. -/
def IsRow (f : Factor) (first : Variable → Nat) (us : List Variable) (bs : List (List Literal))
    (n : Nat) (t : Excerpt) : Prop :=
  ∃ p, Along bs p ∧ rowOfPath f first us p = n ∧ t = single p (f.weights.getD n 0)

section

variable (hlaid : f.Laid literalVariables first dim) (hus : us.Perm f.scope)
variable (hnodup : f.scope.Nodup) (hbs : List.Forall₂ (Run first dim) us bs)

include hlaid hus hnodup hbs

theorem fits_along (hp : Along bs p) :
    List.Forall₂ (· < ·) (f.scope.map (along first us p fun _ => 0)) f.dims := by
  rw [hlaid.dims]
  refine Counter.fits_map fun u hu => ?_
  exact (spells_along hbs hp (hus.nodup_iff.2 hnodup)).2.1 u (hus.mem_iff.2 hu)

theorem rowOfPath_lt (hp : Along bs p) : rowOfPath f first us p < f.dims.prod :=
  Counter.number_lt (fits_along hlaid hus hnodup hbs hp)

theorem rowOfPath_injective (hp : Along bs p) (hq : Along bs q)
    (h : rowOfPath f first us p = rowOfPath f first us q) : p = q := by
  have hus' := hus.nodup_iff.2 hnodup
  have hdigits := Counter.number_injective (fits_along hlaid hus hnodup hbs hp)
    (fits_along hlaid hus hnodup hbs hq) h
  rw [List.map_inj_left] at hdigits
  exact (spells_along hbs hp hus').1.unique (spells_along hbs hq hus').1
    fun u hu => hdigits u (hus.mem_iff.1 hu)

omit hlaid

/-- The path of an assignment has its row. -/
theorem exists_path_row (hρ : ∀ u ∈ f.scope, ρ u < dim u) : ∃ p, Along bs p ∧ Spells first ρ us p ∧
    rowOfPath f first us p = Counter.number f.dims (f.scope.map ρ) := by
  obtain ⟨p, hp, hspells⟩ := exists_path hbs fun u hu => hρ u (hus.mem_iff.1 hu)
  refine ⟨p, hp, hspells, congrArg _ (List.map_congr_left fun u hu => ?_)⟩
  exact (spells_along hbs hp (hus.nodup_iff.2 hnodup)).1.eq_of_path hspells u (hus.mem_iff.2 hu)

end

theorem disjoint_rows {i j : Nat} {t t' : Excerpt} (hne : i ≠ j) (ht : IsRow f first us bs i t)
    (ht' : IsRow f first us bs j t') : t.Disjoint t' := by
  obtain ⟨p, -, rfl, rfl⟩ := ht
  obtain ⟨q, -, rfl, rfl⟩ := ht'
  intro k
  by_cases hk : k = p
  · subst hk
    refine Or.inr (if_neg ?_)
    rintro rfl
    exact hne rfl
  · exact Or.inl (if_neg hk)

/-- The rows cut a table into parts. -/
theorem parts_rows (hlaid : f.Laid literalVariables first dim) (hus : us.Perm f.scope)
    (hnodup : f.scope.Nodup) (hbs : List.Forall₂ (Run first dim) us bs) {ts : List Excerpt}
    (hts : List.Forall₂ (IsRow f first us bs) (List.range f.dims.prod) ts) :
    Parts bs (tableExcerpt f first us) ts := by
  refine ⟨pairwise_of_forall₂ hts List.nodup_range disjoint_rows, fun q hq w => ?_⟩
  rw [tableExcerpt, Option.some.injEq]
  constructor
  · rintro rfl
    have hrow := rowOfPath_lt hlaid hus hnodup hbs hq
    obtain ⟨t, ht, p, hp, hnumber, rfl⟩ := exists_of_forall₂ hts.flip (List.mem_range.2 hrow)
    obtain rfl := rowOfPath_injective hlaid hus hnodup hbs hp hq hnumber
    exact ⟨_, ht, if_pos rfl⟩
  · rintro ⟨t, ht, hw⟩
    obtain ⟨n, -, p, -, rfl, rfl⟩ := exists_of_forall₂ hts ht
    rw [single] at hw
    split at hw
    · rename_i hqp
      rw [hqp]
      exact Option.some.inj hw
    · cases hw

/-! ## Clauses -/

theorem mapM_literals (hpos : ∀ u ∈ us, 0 < first u) : ∃ row,
    (us.map fun u => (first u, ρ u)).mapM (fun (a, b) => Literal.of (a + b : Nat)) = .ok row ∧
      Spells first ρ us row := by
  induction us with
  | nil => exact ⟨[], rfl, rfl⟩
  | cons u us ih =>
      obtain ⟨hu, hus⟩ := List.forall_mem_cons.1 hpos
      obtain ⟨row, hrow, hspells⟩ := ih hus
      have hne : ((first u + ρ u : Nat) : Int) ≠ 0 := by omega
      have hof : Literal.of ((first u + ρ u : Nat) : Int) = .ok ⟨_, hne⟩ := dif_pos hne
      refine ⟨⟨_, hne⟩ :: row, ?_, ?_⟩
      · rw [List.map_cons, List.mapM_cons, hrow]
        simp only [hof, bind, Except.bind, pure, Except.pure]
      · rw [Spells, List.map_cons, List.map_cons, hspells]

/-- A row has the literals of its path. -/
theorem rowLiterals_eq (hlaid : f.Laid literalVariables first dim) {c : Counter}
    (hc : c.digits = f.scope.map ρ) :
    ∃ row, rowLiterals f c = .ok row ∧ Spells first ρ f.scope row := by
  obtain ⟨row, hrow, hspells⟩ := mapM_literals (ρ := ρ) hlaid.first_pos
  refine ⟨row, ?_, hspells⟩
  rw [rowLiterals, hc, hlaid.firsts, List.zip_map', hrow]

theorem contains_iff_path (hus : us.Perm f.scope) (hrow : Spells first ρ f.scope row)
    (hp : Spells first ρ us p) : row.contains l = true ↔ l ∈ p := by
  have hperm : (p.map Literal.value).Perm (row.map Literal.value) := by
    rw [hrow, hp]
    exact hus.map _
  rw [List.contains_iff_mem, ← List.mem_map_of_injective value_injective, ← hperm.mem_iff,
    List.mem_map_of_injective value_injective]

/-- The row that a number stands for has an assignment. -/
theorem exists_row (hlaid : f.Laid literalVariables first dim) (hnodup : f.scope.Nodup)
    (hpos : ∀ u ∈ f.scope, 0 < dim u) (hn : n < f.dims.prod) :
    ∃ ρ row, (∀ u ∈ f.scope, ρ u < dim u) ∧ Counter.number f.dims (f.scope.map ρ) = n ∧
      rowLiterals f ⟨Counter.wheelsOf f.dims n⟩ = .ok row ∧ Spells first ρ f.scope row := by
  have hdims : ∀ r ∈ f.dims, 0 < r := by
    rw [hlaid.dims]
    intro r hr
    obtain ⟨u, hu, rfl⟩ := List.mem_map.1 hr
    exact hpos u hu
  have hdigits := (Counter.valid_wheelsOf (n := n) hdims).digit_lt
  rw [Counter.map_radix_wheelsOf] at hdigits
  nth_rewrite 2 [hlaid.dims] at hdigits
  obtain ⟨ρ, hρ, hlt⟩ := Counter.exists_map_eq hnodup hdigits
  obtain ⟨row, hrow, hspells⟩ := rowLiterals_eq (ρ := ρ) hlaid
    (c := ⟨Counter.wheelsOf f.dims n⟩) hρ.symm
  exact ⟨ρ, row, hlt, by rw [hρ, Counter.number_digits_wheelsOf hn], hrow, hspells⟩

/-- The diagrams of the rows of a table have trees, and the closure comes back as it was. -/
def ClausesHave (f : Factor) (ordering : List Literal) (determinism : Bool) (d : DomainClosure)
    (n : Nat) (D : Diagram) : Prop :=
  ∃ row, rowLiterals f ⟨Counter.wheelsOf f.dims n⟩ = .ok row ∧ ∀ m : Manager, m.Valid →
    Ends (clause row (f.weights.getD n 0) ordering d determinism) m fun r m' =>
      r.2 = d ∧ Rooted m D r.1 m'

variable {ι : Type} {tree : ι → Diagram} {ordering : List Literal} {d : DomainClosure}

/-- The clauses of some rows join a queue. -/
theorem clausesOf_spec (V : m₀.Valid) (hsize : f.dims.prod ≤ f.weights.size) :
    ∀ {ns : List Nat} {ts : List ι} {queue : List (Handle × ι)} {m : Manager},
      (∀ n ∈ ns, n < f.dims.prod) →
      List.Forall₂ (fun n t => ClausesHave f ordering determinism d n (tree t)) ns ts →
      Held m₀ tree queue m →
      Ends (clausesOf f ordering determinism (ns.map fun n => ⟨Counter.wheelsOf f.dims n⟩) d) m
        fun hs m' => hs.length = ts.length ∧ Held m₀ tree (queue ++ hs.zip ts) m'
  | [], [], queue, m, _, _, H => Ends.pure ⟨rfl, by simpa using H⟩
  | n :: ns, t :: ts, queue, m, hns, hts, H => by
      obtain ⟨hn, hns⟩ := List.forall_mem_cons.1 hns
      obtain ⟨⟨row, hrow, hclause⟩, hts⟩ := List.forall₂_cons.1 hts
      have hfetch : fetch f.weights (Counter.value ⟨Counter.wheelsOf f.dims n⟩) =
          .ok (f.weights.getD n 0) := by
        have hget : n < f.weights.size := Nat.lt_of_lt_of_le hn hsize
        rw [Counter.value, Counter.value_wheelsOf hn, Encoding.fetch_eq_ok,
          Array.getD_eq_getD_getElem?, Array.getElem?_eq_getElem hget, Option.getD_some]
      rw [List.map_cons, clausesOf]
      refine Ends.lift hrow (Ends.lift hfetch (Ends.bind (hclause m (H.valid V)) ?_))
      rintro ⟨h, d'⟩ m₁ ⟨hd, hR⟩
      obtain rfl : d = d' := hd.symm
      refine Ends.bind (clausesOf_spec V hsize hns hts (H.push hR)) ?_
      rintro hs m₂ ⟨hlength, H₂⟩
      refine Ends.pure ⟨by rw [List.length_cons, List.length_cons, hlength], ?_⟩
      rwa [List.append_assoc] at H₂

variable (tree) in
/-- The clauses of all rows are a queue. -/
theorem clauses_held (V : m₀.Valid) (hlaid : f.Laid literalVariables first dim)
    (hpos : ∀ u ∈ f.scope, 0 < dim u) (hsize : f.dims.prod ≤ f.weights.size) {ts : List ι}
    (hts : List.Forall₂ (fun n t => ClausesHave f ordering determinism d n (tree t))
      (List.range f.dims.prod) ts) :
    Ends (clauses f ordering d determinism) m₀ fun hs m =>
      hs.length = ts.length ∧ Held m₀ tree (hs.zip ts) m := by
  have hdims : ∀ r ∈ f.dims, 0 < r := by
    rw [hlaid.dims]
    intro r hr
    obtain ⟨u, hu, rfl⟩ := List.mem_map.1 hr
    exact hpos u hu
  rw [clauses, Factor.counter, Counter.walk_zero hdims]
  exact clausesOf_spec V hsize (fun n hn => List.mem_range.1 hn) hts (Held.start V)

/-- The clauses of all rows cut the table into parts. -/
theorem clauses_parts (V : m₀.Valid) (hlaid : f.Laid literalVariables first dim)
    (hus : us.Perm f.scope) (hnodup : f.scope.Nodup) (hbs : List.Forall₂ (Run first dim) us bs)
    (hpos : ∀ u ∈ f.scope, 0 < dim u) (hne : bs ≠ []) (hn : bs.flatten.Nodup)
    (hsize : f.dims.prod ≤ f.weights.size) (C : List.Forall₂ d.Counts us bs) :
    Ends (clauses f bs.flatten d determinism) m₀ fun hs m =>
      ∃ queue : List (Handle × Excerpt), hs = queue.map (·.1) ∧ queue ≠ [] ∧
        Parts bs (tableExcerpt f first us) (queue.map (·.2)) ∧
        Held m₀ (fun t : Excerpt => (t.tree determinism bs).2) queue m := by
  have hrow : ∀ n ∈ List.range f.dims.prod, ∃ t, IsRow f first us bs n t ∧
      ClausesHave f bs.flatten determinism d n (t.tree determinism bs).2 := by
    intro n hmem
    obtain ⟨ρ, row, hlt, rfl, hrow, hspells⟩ := exists_row hlaid hnodup hpos (List.mem_range.1 hmem)
    obtain ⟨p, hp, hpath, hnumber⟩ := exists_path_row hus hnodup hbs hlt
    exact ⟨single p _, ⟨p, hp, hnumber, rfl⟩, row, hrow, fun m V => clause_spec V hp hne hn
      (fun l _ => contains_iff_path hus hspells hpath) (hus.nodup_iff.2 hnodup) C⟩
  choose! t ht using hrow
  have hrows : List.Forall₂ (IsRow f first us bs) (List.range f.dims.prod)
      ((List.range f.dims.prod).map t) :=
    List.forall₂_map_right_iff.2 (List.forall₂_same.2 fun n hn => (ht n hn).1)
  refine Ends.mono (clauses_held (fun t : Excerpt => (t.tree determinism bs).2) V hlaid hpos
    hsize (List.forall₂_map_right_iff.2 (List.forall₂_same.2 fun n hn => (ht n hn).2))) ?_
  rintro hs m ⟨hlength, H⟩
  have hsnd : (hs.zip ((List.range f.dims.prod).map t)).map (·.2) =
      (List.range f.dims.prod).map t := List.map_snd_zip hlength.ge
  refine ⟨_, (List.map_fst_zip hlength.le).symm, ?_, ?_, H⟩
  · have hprod : 0 < f.dims.prod := by
      rw [hlaid.dims]
      refine List.prod_pos fun r hr => ?_
      obtain ⟨u, hu, rfl⟩ := List.mem_map.1 hr
      exact hpos u hu
    rw [← List.length_pos_iff, List.length_zip, hlength, List.length_map, List.length_range,
      Nat.min_self]
    exact hprod
  · rw [hsnd]
    exact parts_rows hlaid hus hnodup hbs hrows

end BayesCircuit.Decision.Rows
