import BayesCircuit.Proofs.Bound.Frontier
import BayesCircuit.Proofs.PseudoTree.Legal

/-!
# Pseudo-trees along an ordering

`collect` puts every variable below its parent (`collect_spec`), so the trees that it finishes are
ranked if the parents are (`Hung.ranked`). Along the elimination of an interaction graph, a variable depends on
its neighbours at that time; eliminating it connects them, so the one that is eliminated next
depends on all others (`upward_eliminated`). In a chain, a variable depends on all before it
(`upward_predecessors`). Either way the tree is legal (`build_spec`), and there is one for every
permutation of the variables (`exists_build`).
-/

namespace BayesCircuit.PseudoTree

open Collection Node

variable {parents : List (Variable × Option Variable)} {above : Variable → List Variable}
variable {vs : List Variable} {v : Variable} {done : List (Option Variable × Node)}

/-! ## Collecting trees -/

/-- The parent that a list gives to a variable. -/
def parentOf (parents : List (Variable × Option Variable)) (v : Variable) : Option Variable :=
  (parents.lookup v).join

/-- Along a reversed ordering, the parent of a variable comes later, and what the variable depends on
besides, its parent depends on too. -/
structure Upward (parentOf : Variable → Option Variable) (above : Variable → List Variable)
    (vs : List Variable) : Prop where
  root : ∀ v ∈ vs, parentOf v = none → above v = []
  parent : ∀ as v bs q, vs = as ++ v :: bs → parentOf v = some q →
    q ∈ bs ∧ above v ⊆ q :: above q

theorem Upward.tail {parentOf : Variable → Option Variable} (h : Upward parentOf above (v :: vs)) :
    Upward parentOf above vs where
  root u hu := h.root u (List.mem_cons_of_mem _ hu)
  parent us u bs q hvs hq := h.parent (v :: us) u bs q (congrArg (v :: ·) hvs) hq

mutual

/-- Every tree within a tree hangs below the parent of its variable. -/
def Hung (parent : Variable → Option Variable) : Node → Prop
  | .mk v ns => (∀ n ∈ ns, parent n.label = some v) ∧ HungAll parent ns

def HungAll (parent : Variable → Option Variable) : List Node → Prop
  | [] => True
  | n :: ns => Hung parent n ∧ HungAll parent ns

end

theorem hungAll_iff {parent : Variable → Option Variable} {ns : List Node} :
    HungAll parent ns ↔ ∀ n ∈ ns, Hung parent n := by
  induction ns with
  | nil => simp [HungAll]
  | cons n ns ih => simp [HungAll, ih]

mutual

/-- Trees hung below parents are ranked, if the parent of a variable depends on what the variable
depends on besides. -/
theorem Hung.ranked {parent : Variable → Option Variable} : ∀ {n : Node}, Hung parent n →
    (∀ v ∈ n.preorder, ∀ q, parent v = some q → above v ⊆ q :: above q) → Ranked above n
  | .mk v ns, h, hparent => by
      have hbelow : ∀ u ∈ preorderAll ns, ∀ q, parent u = some q → above u ⊆ q :: above q :=
        fun u hu => hparent u (List.mem_cons_of_mem _ hu)
      refine ⟨fun n hn => ?_, HungAll.ranked h.2 hbelow⟩
      exact hbelow _ (mem_preorderAll.2 ⟨n, hn, label_mem_preorder⟩) v (h.1 n hn)

theorem HungAll.ranked {parent : Variable → Option Variable} : ∀ {ns : List Node},
    HungAll parent ns →
    (∀ v ∈ preorderAll ns, ∀ q, parent v = some q → above v ⊆ q :: above q) → RankedAll above ns
  | [], _, _ => trivial
  | _ :: _, h, hparent =>
      ⟨Hung.ranked h.1 fun v hv => hparent v (List.mem_append_left _ hv),
        HungAll.ranked h.2 fun v hv => hparent v (List.mem_append_right _ hv)⟩

end

/-- The trees that are finished when the variables `vs` are left hang together, and wait for the
parents of their roots. -/
structure Collected (parent : Variable → Option Variable) (vs : List Variable)
    (done : List (Option Variable × Node)) : Prop where
  hung : ∀ q ∈ done, Hung parent q.2
  parent : ∀ q ∈ done, q.1 = parent q.2.label
  waits : ∀ q ∈ done, ∀ w, q.1 = some w → w ∈ vs

theorem perm_preorderAll {ns ms : List Node} (h : ns.Perm ms) :
    (preorderAll ns).Perm (preorderAll ms) := by
  induction h with
  | nil => exact .refl _
  | cons n _ ih => exact ih.append_left _
  | swap n m ns =>
      simp only [preorderAll, ← List.append_assoc]
      exact List.perm_append_comm.append_right _
  | trans _ _ ih ih' => exact ih.trans ih'

theorem preorderAll_append {ns ms : List Node} :
    preorderAll (ns ++ ms) = preorderAll ns ++ preorderAll ms := by
  induction ns with
  | nil => rfl
  | cons n ns ih => rw [List.cons_append, preorderAll, ih, preorderAll, List.append_assoc]

theorem collect_spec : ∀ {vs done}, Upward (parentOf parents) above vs →
    Collected (parentOf parents) vs done →
      Collected (parentOf parents) [] (collect parents vs done) ∧
      (preorderAll ((collect parents vs done).map (·.2))).Perm
        (vs ++ preorderAll (done.map (·.2)))
  | [], done, _, h => ⟨h, .refl _⟩
  | v :: vs, done, hup, h => by
      let below := done.filter (·.1 == some v)
      let rest := done.filter (·.1 != some v)
      have hbelow : ∀ q ∈ below, q ∈ done ∧ q.1 = some v := by
        intro q hq
        simpa using List.mem_filter.1 hq
      have hrest : ∀ q ∈ rest, q ∈ done ∧ q.1 ≠ some v := by
        intro q hq
        simpa using List.mem_filter.1 hq
      have hstep : Collected (parentOf parents) vs
          ((parentOf parents v, .mk v (below.map (·.2))) :: rest) := by
        refine ⟨List.forall_mem_cons.2 ⟨⟨?_, hungAll_iff.2 ?_⟩, fun q hq => h.hung q (hrest q hq).1⟩,
          List.forall_mem_cons.2 ⟨rfl, fun q hq => h.parent q (hrest q hq).1⟩,
          List.forall_mem_cons.2 ⟨fun w hw => (hup.parent [] v vs w rfl hw).1, ?_⟩⟩
        · refine List.forall_mem_map.2 fun q hq => ?_
          rw [← h.parent q (hbelow q hq).1]
          exact (hbelow q hq).2
        · exact List.forall_mem_map.2 fun q hq => h.hung q (hbelow q hq).1
        · intro q hq w hw
          refine (List.mem_cons.1 (h.waits q (hrest q hq).1 w hw)).resolve_left ?_
          rintro rfl
          exact (hrest q hq).2 hw
      obtain ⟨hcollected, hperm⟩ := collect_spec hup.tail hstep
      refine ⟨hcollected, hperm.trans ?_⟩
      have hsplit : (preorderAll (below.map (·.2)) ++ preorderAll (rest.map (·.2))).Perm
          (preorderAll (done.map (·.2))) := by
        rw [← preorderAll_append, ← List.map_append]
        exact perm_preorderAll ((List.filter_append_perm _ done).map _)
      rw [List.map_cons, preorderAll, Node.preorder, List.cons_append]
      exact List.perm_middle.trans ((hsplit.append_left vs).cons v)

/-! ## Chains -/

/-- The variables after one in a list. -/
def after (vs : List Variable) (v : Variable) : List Variable := (vs.dropWhile (· != v)).tail

theorem after_eq {as bs : List Variable} (hv : v ∉ as) : after (as ++ v :: bs) v = bs := by
  have hdrop : (as ++ v :: bs).dropWhile (· != v) = v :: bs := by
    rw [List.dropWhile_append_of_pos fun u hu => by simpa using fun he : u = v => hv (he ▸ hu)]
    simp
  rw [after, hdrop, List.tail_cons]

theorem lookup_zip_predecessors {as bs : List Variable} {u : Variable} (hv : v ∉ as) :
    ((as ++ v :: bs).zip ((u :: (as ++ v :: bs)).map some)).lookup v =
      some (u :: as).getLast? := by
  induction as generalizing u with
  | nil => exact List.lookup_cons_self
  | cons w as ih =>
      obtain ⟨hvw, hvas⟩ := List.ne_and_not_mem_of_not_mem_cons hv
      have hne : (v == w) = false := by simpa using hvw
      rw [List.getLast?_cons_cons, ← ih hvas (u := w)]
      simp only [List.cons_append, List.map_cons, List.zip_cons_cons, List.lookup_cons, hne]

/-- In a chain, the parent of a variable is the one before it. -/
theorem parentOf_predecessors {as bs : List Variable} (hv : v ∉ as) :
    parentOf (predecessors (as ++ v :: bs)) v = as.getLast? := by
  cases as with
  | nil => simp [parentOf, predecessors]
  | cons u as =>
      obtain ⟨hvu, hvas⟩ := List.ne_and_not_mem_of_not_mem_cons hv
      have hne : (v == u) = false := by simpa using hvu
      simp only [parentOf, List.cons_append, predecessors, List.lookup_cons, hne,
        lookup_zip_predecessors hvas, Option.join_some]

theorem parentOf_predecessors_reverse {ordering as bs : List Variable}
    (hordering : ordering.reverse = as ++ v :: bs) (hv : v ∉ bs) :
    parentOf (predecessors ordering) v = bs.head? := by
  have hsplit : ordering = bs.reverse ++ v :: as.reverse := by
    rw [← List.reverse_reverse ordering, hordering]
    simp
  rw [hsplit, parentOf_predecessors (by simpa using hv), List.getLast?_reverse]

theorem nodup_split {as bs : List Variable} (h : (as ++ v :: bs).Nodup) : v ∉ as ∧ v ∉ bs := by
  obtain ⟨_, hrest, hdisjoint⟩ := List.nodup_append.1 h
  exact ⟨fun hv => hdisjoint v hv v (List.mem_cons_self ..) rfl, (List.nodup_cons.1 hrest).1⟩

/-- In a chain, a variable depends on all before it. -/
theorem upward_predecessors {ordering : List Variable} (hnodup : ordering.Nodup) :
    Upward (parentOf (predecessors ordering)) (after ordering.reverse) ordering.reverse where
  root v hv hnone := by
    obtain ⟨as, bs, hsplit⟩ := List.append_of_mem hv
    have hnodup' := List.nodup_reverse.2 hnodup
    rw [hsplit] at hnodup'
    obtain ⟨hvas, hvbs⟩ := nodup_split hnodup'
    rw [parentOf_predecessors_reverse hsplit hvbs, List.head?_eq_none_iff] at hnone
    rw [hsplit, after_eq hvas, hnone]
  parent as v bs q hsplit hq := by
    have hnodup' := List.nodup_reverse.2 hnodup
    rw [hsplit] at hnodup'
    obtain ⟨hvas, hvbs⟩ := nodup_split hnodup'
    rw [parentOf_predecessors_reverse hsplit hvbs] at hq
    obtain ⟨cs, rfl⟩ := List.head?_eq_some_iff.1 hq
    have hsplit' : ordering.reverse = (as ++ [v]) ++ q :: cs := by
      rw [hsplit, List.append_assoc, List.singleton_append]
    rw [show as ++ v :: q :: cs = (as ++ [v]) ++ q :: cs by simp] at hnodup'
    have hafter : after ordering.reverse q = cs := by
      rw [hsplit', after_eq (nodup_split hnodup').1]
    refine ⟨List.mem_cons_self .., ?_⟩
    rw [hafter, hsplit, after_eq hvas]
    exact List.Subset.refl _

/-- Variables below each other. -/
def path : List Variable → List Node
  | [] => []
  | v :: vs => [.mk v (path vs)]

theorem preorderAll_path {vs : List Variable} : preorderAll (path vs) = vs := by
  induction vs with
  | nil => rfl
  | cons v vs ih => rw [path, preorderAll, preorderAll, Node.preorder, ih, List.append_nil]

/-- When the variables `as` are left, those after them are below each other. -/
def pathAfter (as bs : List Variable) : List (Option Variable × Node) :=
  (path bs).map fun n => (as.getLast?, n)

theorem collect_predecessors {ordering : List Variable} (hnodup : ordering.Nodup) :
    ∀ {as bs}, ordering = as.reverse ++ bs →
      collect (predecessors ordering) as (pathAfter as.reverse bs) = pathAfter [] ordering
  | [], bs, h => by
      rw [h]
      rfl
  | a :: as, bs, h => by
      have hsplit : ordering = as.reverse ++ a :: bs := by
        rw [h, List.reverse_cons, List.append_assoc, List.singleton_append]
      have ha : a ∉ as.reverse := by
        rw [hsplit] at hnodup
        exact (nodup_split hnodup).1
      have hparent : ((predecessors ordering).lookup a).join = as.reverse.getLast? := by
        rw [hsplit]
        exact parentOf_predecessors ha
      have hall : ∀ q ∈ pathAfter (a :: as).reverse bs, q.1 = some a := by
        intro q hq
        obtain ⟨n, _, rfl⟩ := List.mem_map.1 hq
        rw [List.getLast?_reverse, List.head?_cons]
      have hbelow : (pathAfter (a :: as).reverse bs).filter (·.1 == some a) =
          pathAfter (a :: as).reverse bs :=
        List.filter_eq_self.2 fun q hq => by simp [hall q hq]
      have hrest : (pathAfter (a :: as).reverse bs).filter (·.1 != some a) = [] :=
        List.filter_eq_nil_iff.2 fun q hq => by simp [hall q hq]
      have hnodes : (pathAfter (a :: as).reverse bs).map (·.2) = path bs := by
        rw [pathAfter, List.map_map]
        exact List.map_id _
      rw [collect, hbelow, hrest, hnodes, hparent]
      exact collect_predecessors hnodup hsplit

/-! ## Elimination -/

/-- The graph after the elimination of some variables. -/
def eliminateAll (g : InteractionGraph) (vs : List Variable) : InteractionGraph :=
  vs.foldl InteractionGraph.eliminate g

/-- The neighbours that a variable has when it is eliminated. -/
def neighboursAt (g : InteractionGraph) (vs : List Variable) (v : Variable) : List Variable :=
  ((eliminated g vs).lookup v).getD []

variable {g : InteractionGraph}

theorem lookup_eliminated {as bs : List Variable} (hv : v ∉ as) :
    (eliminated g (as ++ v :: bs)).lookup v = some ((eliminateAll g as).adjacent v) := by
  induction as generalizing g with
  | nil => exact List.lookup_cons_self
  | cons u as ih =>
      obtain ⟨hvu, hvas⟩ := List.ne_and_not_mem_of_not_mem_cons hv
      have hne : (v == u) = false := by simpa using hvu
      rw [List.cons_append, eliminated, List.lookup_cons, hne]
      exact ih hvas

theorem neighboursAt_eq {as bs : List Variable} (hv : v ∉ as) :
    neighboursAt g (as ++ v :: bs) v = (eliminateAll g as).adjacent v := by
  rw [neighboursAt, lookup_eliminated hv, Option.getD_some]

theorem Spans.eliminateAll {as bs : List Variable} (h : g.Spans (as ++ bs)) :
    (eliminateAll g as).Spans bs := by
  induction as generalizing g with
  | nil => exact h
  | cons u as ih => exact ih h.eliminate

/-- Variables that are connected stay connected until one of them is eliminated. -/
theorem adjacent_eliminateAll {as bs : List Variable} {a b : Variable} (h : g.Spans (as ++ bs))
    (hb : b ∈ g.adjacent a) (haas : a ∉ as) (hbas : b ∉ as) :
    b ∈ (eliminateAll g as).adjacent a := by
  induction as generalizing g with
  | nil => exact hb
  | cons u as ih =>
      obtain ⟨hau, ha⟩ := List.ne_and_not_mem_of_not_mem_cons haas
      obtain ⟨hbu, hb'⟩ := List.ne_and_not_mem_of_not_mem_cons hbas
      exact ih h.eliminate
        ((InteractionGraph.adjacent_eliminate h).2 ⟨hau, hbu, Or.inl hb⟩) ha hb'

theorem lookup_map_snd {α β : Type} (f : α → β) (steps : List (Variable × α)) :
    (steps.map fun (v, a) => (v, f a)).lookup v = (steps.lookup v).map f := by
  induction steps with
  | nil => rfl
  | cons step steps ih =>
      obtain ⟨u, a⟩ := step
      simp only [List.map_cons, List.lookup_cons, ih]
      cases v == u <;> rfl

theorem parentOf_eliminated {ordering as bs : List Variable}
    (hordering : ordering.reverse = as ++ v :: bs) (hv : v ∉ as) :
    parentOf ((eliminated g ordering.reverse).map fun (v, ns) => (v, latest? ordering ns)) v =
      latest? ordering ((eliminateAll g as).adjacent v) := by
  rw [parentOf, lookup_map_snd, hordering, lookup_eliminated hv]
  rfl

/-- The variables up to one are none of those after it, so the latest of these is the first one after
it. -/
theorem latest?_eq {ordering as bs ns : List Variable} (hsplit : ordering.reverse = as ++ v :: bs)
    (hnodup : (as ++ v :: bs).Nodup) (hns : ∀ u ∈ ns, u ∈ bs) :
    latest? ordering ns = bs.find? ns.contains := by
  have hnone : (as ++ [v]).find? ns.contains = none := by
    refine List.find?_eq_none.2 fun u hu hmem => ?_
    have hubs := hns u (by simpa using hmem)
    rcases List.mem_append.1 hu with hu | hu
    · exact (List.nodup_append.1 hnodup).2.2 u hu u (List.mem_cons_of_mem _ hubs) rfl
    · exact (nodup_split hnodup).2 (List.mem_singleton.1 hu ▸ hubs)
  rw [latest?, hsplit, show as ++ v :: bs = (as ++ [v]) ++ bs by simp, List.find?_append, hnone,
    Option.none_or]

/-- Along an elimination, a variable depends on its neighbours at the time. Eliminating it connects
them, so the next one of them to be eliminated depends on the others. -/
theorem upward_eliminated {ordering : List Variable} (hnodup : ordering.Nodup)
    (h : g.Spans ordering.reverse) :
    Upward (parentOf ((eliminated g ordering.reverse).map
      fun (v, ns) => (v, latest? ordering ns))) (neighboursAt g ordering.reverse)
      ordering.reverse where
  root v hv hnone := by
    obtain ⟨as, bs, hsplit⟩ := List.append_of_mem hv
    have hnodup' := List.nodup_reverse.2 hnodup
    rw [hsplit] at hnodup' h
    obtain ⟨hvas, _⟩ := nodup_split hnodup'
    rw [parentOf_eliminated hsplit hvas, latest?, hsplit, List.find?_eq_none] at hnone
    rw [hsplit, neighboursAt_eq hvas]
    refine List.eq_nil_iff_forall_not_mem.2 fun u hu => ?_
    have hmem := ((Spans.eliminateAll h).mem hu).2.1
    exact hnone u (List.mem_append_right _ hmem) (by simpa using hu)
  parent as v bs q hsplit hq := by
    have hnodup' := List.nodup_reverse.2 hnodup
    rw [hsplit] at hnodup' h
    obtain ⟨hvas, hvbs⟩ := nodup_split hnodup'
    have hspans := Spans.eliminateAll h
    have hlater : ∀ u ∈ (eliminateAll g as).adjacent v, u ∈ bs ∧ u ≠ v := by
      intro u hu
      obtain ⟨_, huv, hne⟩ := hspans.mem hu
      exact ⟨(List.mem_cons.1 huv).resolve_left (Ne.symm hne), Ne.symm hne⟩
    rw [parentOf_eliminated hsplit hvas, latest?_eq hsplit hnodup' fun u hu => (hlater u hu).1] at hq
    obtain ⟨hfound, cs, ds, rfl, hbefore⟩ := List.find?_eq_some_iff_append.1 hq
    have hqmem : q ∈ (eliminateAll g as).adjacent v := by simpa using hfound
    have hnotmem : ∀ {u}, u ∈ (eliminateAll g as).adjacent v → u ∉ cs := fun hu huc =>
      absurd (hbefore _ huc) (by simpa using hu)
    refine ⟨(hlater q hqmem).1, fun u hu => ?_⟩
    rw [hsplit, neighboursAt_eq hvas] at hu
    by_cases huq : u = q
    · exact huq ▸ List.mem_cons_self ..
    have hedge : u ∈ ((eliminateAll g as).eliminate v).adjacent q :=
      (InteractionGraph.adjacent_eliminate hspans).2
        ⟨(hlater q hqmem).2, (hlater u hu).2, Or.inr ⟨hqmem, hu, Ne.symm huq⟩⟩
    have hsplit' : as ++ v :: (cs ++ q :: ds) = (as ++ v :: cs) ++ q :: ds := by simp
    have hall : eliminateAll g (as ++ v :: cs) =
        eliminateAll ((eliminateAll g as).eliminate v) cs := by
      simp only [eliminateAll, List.foldl_append, List.foldl_cons]
    rw [hsplit'] at hnodup'
    rw [hsplit, hsplit', neighboursAt_eq (nodup_split hnodup').1, hall]
    exact List.mem_cons_of_mem _
      (adjacent_eliminateAll hspans.eliminate hedge (hnotmem hqmem) (hnotmem hu))

/-! ## The tree of a partition -/

variable {net : Network} {p : Partition} {ordering : List Variable} {shape : Shape}
variable {t : PseudoTree}

/-- The parents of the variables of an ordering. -/
def parentsFor (net : Network) (p : Partition) (ordering : List Variable) :
    Shape → List (Variable × Option Variable)
  | .tree => (eliminated (.ofPartition net p) ordering.reverse).map
      fun (v, ns) => (v, latest? ordering ns)
  | .chain => predecessors ordering

/-- What the variables of an ordering depend on above them. -/
def aboveFor (net : Network) (p : Partition) (ordering : List Variable) :
    Shape → Variable → List Variable
  | .tree => neighboursAt (.ofPartition net p) ordering.reverse
  | .chain => after ordering.reverse

/-- The trees below the root. -/
def rootsFor (net : Network) (p : Partition) (ordering : List Variable) (shape : Shape) :
    List Node :=
  (collect (parentsFor net p ordering shape) ordering.reverse []).map (·.2)

theorem rootsFor_chain (hnodup : ordering.Nodup) :
    rootsFor net p ordering .chain = path ordering := by
  have hcollect := collect_predecessors hnodup
    (show ordering = ordering.reverse.reverse ++ [] by simp)
  rw [rootsFor, parentsFor]
  rw [show pathAfter ordering.reverse.reverse [] = [] from rfl] at hcollect
  rw [hcollect, pathAfter, List.map_map]
  exact List.map_id _

/-- The width of an ordering. -/
def widthOf (net : Network) (p : Partition) (ordering : List Variable) : Nat :=
  ((eliminated (.ofPartition net p) ordering.reverse).map (·.2.length)).foldl max 0

theorem build_eq : build net p ordering shape =
    if Ascending.ofList ordering != p.scope || ordering.length != p.scope.length then
      fail (.invalidOrdering
        (s!"pseudo-tree ordering lists {ordering.length} variables, partition has {p.scope.length}"))
    else .ok (ofRoot (.mk joiner (rootsFor net p ordering shape)) ordering
      (widthOf net p ordering)) := by
  cases shape
  all_goals
    simp only [build, bind, Except.bind, pure, Except.pure]
    split
    · rfl
    · rfl

/-- The tree of an ordering that lists the variables of the partition, each once. -/
theorem build_ok_iff (hp : p.Proper net) : build net p ordering shape = .ok t ↔
    ordering.Perm p.scope ∧
      t = ofRoot (.mk joiner (rootsFor net p ordering shape)) ordering (widthOf net p ordering) := by
  have hperm : (Ascending.ofList ordering != p.scope || ordering.length != p.scope.length) = false ↔
      ordering.Perm p.scope := by
    simp only [Bool.or_eq_false_iff, bne_eq_false_iff_eq]
    constructor
    · rintro ⟨hset, hlen⟩
      have hsub : p.scope.Subperm ordering := by
        refine List.subperm_of_subset hp.strict_scope.nodup fun u hu => ?_
        rw [← hset] at hu
        exact Ascending.mem_ofList.1 hu
      exact (hsub.perm_of_length_le hlen.le).symm
    · exact fun h => ⟨Ascending.ofList_eq hp.strict_scope fun u => h.mem_iff, h.length_eq⟩
  rw [build_eq, ← hperm]
  split
  · rename_i hbad
    rw [hbad]
    simp [fail]
  · rename_i hgood
    simp only [Bool.not_eq_true] at hgood
    simp [hgood, eq_comm]

theorem exists_build (hp : p.Proper net) (h : ordering.Perm p.scope) (shape : Shape) :
    ∃ t, build net p ordering shape = .ok t :=
  ⟨_, (build_ok_iff hp).2 ⟨h, rfl⟩⟩

/-- The interaction graph of a partition connects its variables. -/
theorem spans_ofPartition (hnet : net.Closed) (hp : p.Proper net)
    (h : ordering.Perm p.scope) : (InteractionGraph.ofPartition net p).Spans ordering.reverse := by
  have hfamily : ∀ w ∈ p.owned, ∀ b ∈ InteractionGraph.family net w, b < net.size :=
    fun w hw b hb => hnet.family_lt (hp.owned_lt w hw) hb
  have hmem : ∀ {a}, a ∈ ordering.reverse ↔ a ∈ p.scope := by
    intro a
    rw [List.mem_reverse, h.mem_iff]
  refine ⟨fun v hv => ?_, fun {a b} hb => ?_, fun {a b} hb => ?_⟩
  · rw [InteractionGraph.size_ofPartition]
    exact hp.lt_of_mem_scope hnet (hmem.1 hv)
  · obtain ⟨hne, w, hw, ha, hb⟩ := (InteractionGraph.adjacent_ofPartition hfamily).1 hb
    exact ⟨hmem.2 (hp.mem_scope.2 ⟨w, hw, ha⟩), hmem.2 (hp.mem_scope.2 ⟨w, hw, hb⟩), hne⟩
  · obtain ⟨hne, w, hw, ha, hb⟩ := (InteractionGraph.adjacent_ofPartition hfamily).1 hb
    exact (InteractionGraph.adjacent_ofPartition hfamily).2 ⟨Ne.symm hne, w, hw, hb, ha⟩

theorem upward_parentsFor (hnet : net.Closed) (hp : p.Proper net)
    (h : ordering.Perm p.scope) (shape : Shape) :
    Upward (parentOf (parentsFor net p ordering shape)) (aboveFor net p ordering shape)
      ordering.reverse := by
  have hnodup := h.nodup_iff.2 hp.strict_scope.nodup
  cases shape with
  | tree => exact upward_eliminated hnodup (spans_ofPartition hnet hp h)
  | chain => exact upward_predecessors hnodup

/-- Of two variables of a constraint, the one that is eliminated first depends on the other. -/
theorem mem_aboveFor (hnet : net.Closed) (hp : p.Proper net) (h : ordering.Perm p.scope)
    {as bs : List Variable} {u : Variable} {c : Nat} (hsplit : ordering.reverse = as ++ v :: bs)
    (hu : u ∈ bs) (huc : u ∈ (Bound.ofPartition net p).scope c)
    (hvc : v ∈ (Bound.ofPartition net p).scope c) (shape : Shape) :
    u ∈ aboveFor net p ordering shape v := by
  have hnodup := List.nodup_reverse.2 (h.nodup_iff.2 hp.strict_scope.nodup)
  have hspans := spans_ofPartition hnet hp h
  rw [hsplit] at hnodup hspans
  obtain ⟨hvas, hvbs⟩ := nodup_split hnodup
  have huas : u ∉ as := fun hmem =>
    (List.nodup_append.1 hnodup).2.2 u hmem u (List.mem_cons_of_mem _ hu) rfl
  cases shape with
  | chain => rwa [aboveFor, hsplit, after_eq hvas]
  | tree =>
      have hedge : u ∈ (InteractionGraph.ofPartition net p).adjacent v := by
        obtain ⟨hc, huc⟩ := (Bound.mem_scope hp).1 huc
        refine (InteractionGraph.adjacent_ofPartition fun w hw b hb =>
          hnet.family_lt (hp.owned_lt w hw) hb).2 ⟨?_, c, hc, ((Bound.mem_scope hp).1 hvc).2, huc⟩
        rintro rfl
        exact hvbs hu
      rw [aboveFor, hsplit, neighboursAt_eq hvas]
      exact adjacent_eliminateAll hspans hedge hvas huas

theorem related_aboveFor (hnet : net.Closed) (hp : p.Proper net) (h : ordering.Perm p.scope)
    (shape : Shape) :
    Related (Bound.ofPartition net p).scope (aboveFor net p ordering shape) := by
  intro c u hu v hv
  have hlisted : ∀ {w}, w ∈ (Bound.ofPartition net p).scope c → w ∈ ordering.reverse := by
    intro w hw
    rw [List.mem_reverse, h.mem_iff]
    exact hp.mem_scope.2 ⟨c, (Bound.mem_scope hp).1 hw⟩
  by_cases huv : u = v
  · exact Or.inl huv
  refine Or.inr ?_
  obtain ⟨as, bs, hsplit⟩ := List.append_of_mem (hlisted hv)
  have hu' := hlisted hu
  rw [hsplit, List.mem_append, List.mem_cons] at hu'
  rcases hu' with huas | rfl | hubs
  · obtain ⟨cs, ds, rfl⟩ := List.append_of_mem huas
    have hsplit' : ordering.reverse = cs ++ u :: (ds ++ v :: bs) := by simpa using hsplit
    exact Or.inr (mem_aboveFor hnet hp h hsplit' (by simp) hv hu shape)
  · exact absurd rfl huv
  · exact Or.inl (mem_aboveFor hnet hp h hsplit hubs hu hv shape)

/-- The trees below the root list the variables, each below its parent. -/
theorem hung_rootsFor (hnet : net.Closed) (hp : p.Proper net) (h : ordering.Perm p.scope)
    (shape : Shape) :
    HungAll (parentOf (parentsFor net p ordering shape)) (rootsFor net p ordering shape) ∧
      (∀ n ∈ rootsFor net p ordering shape,
        parentOf (parentsFor net p ordering shape) n.label = none) ∧
      (preorderAll (rootsFor net p ordering shape)).Perm ordering := by
  have hnone : Collected (parentOf (parentsFor net p ordering shape)) ordering.reverse [] :=
    ⟨by simp, by simp, by simp⟩
  obtain ⟨hdone, hperm⟩ := collect_spec (upward_parentsFor hnet hp h shape) hnone
  refine ⟨hungAll_iff.2 (List.forall_mem_map.2 hdone.hung), List.forall_mem_map.2 fun q hq => ?_, ?_⟩
  · rw [← hdone.parent q hq]
    cases hparent : q.1 with
    | none => rfl
    | some w => exact absurd (hdone.waits q hq w hparent) List.not_mem_nil
  · simp only [List.map_nil, preorderAll, List.append_nil] at hperm
    exact hperm.trans (List.reverse_perm _)

/-- The trees below the root are legal for the constraints of the partition. -/
theorem legal_rootsFor (hnet : net.Closed) (hp : p.Proper net) (h : ordering.Perm p.scope)
    (shape : Shape) {path : List Variable}
    (hpath : ∀ v ∈ preorderAll (rootsFor net p ordering shape), v ∉ path) (hnodup : path.Nodup) :
    LegalAll (Bound.ofPartition net p).scope path (rootsFor net p ordering shape) := by
  obtain ⟨hhung, hroots, hperm⟩ := hung_rootsFor hnet hp h shape
  have hup := upward_parentsFor hnet hp h shape
  have hlisted : ∀ {v}, v ∈ preorderAll (rootsFor net p ordering shape) → v ∈ ordering.reverse :=
    fun hv => List.mem_reverse.2 (hperm.mem_iff.1 hv)
  refine RankedAll.legal (related_aboveFor hnet hp h shape) (hhung.ranked fun v hv q hq => ?_)
    (fun n hn => ?_) ?_ ?_
  · obtain ⟨as, bs, hsplit⟩ := List.append_of_mem (hlisted hv)
    exact (hup.parent as v bs q hsplit hq).2
  · have hlabel := hlisted (mem_preorderAll.2 ⟨n, hn, label_mem_preorder⟩)
    rw [hup.root n.label hlabel (hroots n hn)]
    exact List.nil_subset _
  · refine List.nodup_append.2 ⟨(hperm.trans h).nodup_iff.2 hp.strict_scope.nodup, hnodup, ?_⟩
    exact fun a ha b hb he => hpath a ha (he ▸ hb)
  · intro v _ c u hu _
    exact (hperm.trans h).mem_iff.2 (hp.mem_scope.2 ⟨c, (Bound.mem_scope hp).1 hu⟩)

/-- The trees below the root are legal below it. -/
theorem build_spec (hnet : net.Valued) (hp : p.Proper net) (h : ordering.Perm p.scope)
    (shape : Shape) :
    LegalAll (Bound.ofPartition net p).scope [joiner] (rootsFor net p ordering shape) ∧
      joiner ∉ preorderAll (rootsFor net p ordering shape) ∧
      (preorderAll (rootsFor net p ordering shape)).Perm ordering := by
  obtain ⟨-, -, hperm⟩ := hung_rootsFor hnet.linked.closed hp h shape
  have hjoiner : joiner ∉ preorderAll (rootsFor net p ordering shape) := by
    intro hmem
    have hlt := hp.scope_lt hnet.linked ((hperm.trans h).mem_iff.1 hmem)
    exact absurd hnet.size_le (Nat.not_le_of_lt hlt)
  refine ⟨legal_rootsFor hnet.linked.closed hp h shape (fun v hv hmem => ?_)
    (List.nodup_singleton _), hjoiner, hperm⟩
  exact hjoiner (List.mem_singleton.1 hmem ▸ hv)

end BayesCircuit.PseudoTree
