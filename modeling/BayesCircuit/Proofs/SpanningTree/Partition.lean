import BayesCircuit.Proofs.Bound.Tally
import BayesCircuit.Proofs.Encoding.Factors
import BayesCircuit.Proofs.PseudoTree.Build
import BayesCircuit.Proofs.SpanningTree.Layers

/-!
# The spanning tree of a partition

The layers of a chain or a tree of a partition lay out all its variables, and every table that the
partition owns is completed by one of them (`partition_planned`).
-/

namespace BayesCircuit.SpanningTree

open Arrangement Collection.Ascending InteractionGraph PseudoTree

variable {net : Network} {p : Partition} {ordering : List Variable} {shape : Shape}
variable {t : PseudoTree} {e : Encoding} {st : SpanningTree}

/-- What the layers of a partition are made from. -/
def sourceOf (net : Network) (p : Partition) (e : Encoding) (t : PseudoTree) : Source :=
  ⟨.ofPartition net p, e, t.root.preorder.length⟩

theorem sound_sourceOf (hnet : net.Valued) (hp : p.Proper net) :
    (sourceOf net p e t).Sound where
  constraints _ _ := Bound.mem_mentioning hnet.linked
  pos c u hu := by
    obtain ⟨hc, hu⟩ := (Bound.mem_scope hp).1 hu
    exact hnet.dim_pos (hnet.linked.family_lt (hp.owned_lt c hc) hu)

/-- A tree of a partition is planned for its variables and tables. -/
theorem partition_planned (hnet : net.Valued) (hp : p.Proper net)
    (ht : build net p ordering shape = .ok t)
    (hst : ofPseudoTree (.ofPartition net p) t e = .ok st) :
    ∃ ws, Planned (sourceOf net p e t) ws st ∧ (preorderAll ws).Perm p.scope ∧
      joiner ∉ preorderAll ws ∧ FitsAll (Bound.ofPartition net p).scope [joiner] ws ∧
      (tablesAll ws).Perm p.owned := by
  obtain ⟨hordering, rfl⟩ := (build_ok_iff hp).1 ht
  obtain ⟨hlegal, hjoiner, hperm⟩ := build_spec hnet hp hordering shape
  obtain ⟨ws, waiting, hplan, hpreorder, hfits, htaken⟩ :=
    ofPseudoTree_spec rfl (sound_sourceOf hnet hp) rfl hlegal hjoiner hst
  have hscope := hperm.trans hordering
  rw [← hpreorder] at hscope hjoiner htaken
  refine ⟨ws, hplan, hscope, hjoiner, hfits, ?_⟩
  refine (List.perm_ext_iff_of_nodup htaken.nodup hp.strict.nodup).2 fun c => ?_
  rw [htaken.mem_iff]
  constructor
  · exact fun h => (Bound.enabled_iff hp).1 h.1
  · intro hc
    refine ⟨(Bound.enabled_iff hp).2 hc, c, hscope.mem_iff.2 ?_, ?_⟩
    · exact hp.mem_scope.2 ⟨c, hc, self_mem_family⟩
    · exact (Bound.mem_scope hp).2 ⟨hc, self_mem_family⟩

/-! ## Trees that can be laid out -/

variable {s : Source} {vs : List Variable} {waiting : Array Bool} {index : Nat} {v : Variable}
variable {below : List (List Layer)}

/-- Whatever variables of a list are spanning, their contexts can be numbered. -/
structure Countable (s : Source) (vs : List Variable) : Prop where
  scope : ∀ c, s.scope c ⊆ vs
  factor : ∀ c, s.scope c ≠ [] → ∃ f, s.encoding.factor c = .ok f
  count : ∀ v us, Strict us → us ⊆ vs → ∃ n, contextCount s.bound v us = .ok n

theorem exists_layersOver (S : s.Sound) (C : Countable s vs)
    (hbelow : ∀ ls ∈ below, spanningOf ls ⊆ vs) :
    ∃ ls waiting', layersOver s index v below waiting = .ok (ls, waiting') ∧
      spanningOf ls ⊆ vs := by
  have hsub : spanningOver s v (completed s.bound v waiting).1 below ⊆ vs := by
    intro u hu
    rcases (mem_spanningOver.1 hu).2 with ⟨ls, hls, hu⟩ | ⟨c, _, hu⟩
    · exact hbelow ls hls hu
    · exact C.scope c hu
  obtain ⟨n, hn⟩ := C.count v _ strict_spanningOver hsub
  have hfactor : ∀ c ∈ (completed s.bound v waiting).1, ∃ f, s.encoding.factor c = .ok f := by
    intro c hc
    refine C.factor c ?_
    unfold completed at hc
    split at hc
    · exact absurd hc List.not_mem_nil
    · have hmem := ((collect_spec _ _).2.1 c).1 hc
      exact List.ne_nil_of_mem ((S.constraints v c).1 hmem.1)
  have hmessages : ∃ ms, (completed s.bound v waiting).1.mapM (messageAt s.encoding v
      (spanningOver s v (completed s.bound v waiting).1 below)) = .ok ms := by
    generalize (completed s.bound v waiting).1 = cs at hfactor
    generalize spanningOver s v _ below = spanning
    clear hsub hn
    induction cs with
    | nil => exact ⟨[], rfl⟩
    | cons c cs ih =>
        obtain ⟨f, hf⟩ := hfactor c (List.mem_cons_self ..)
        obtain ⟨ms, hms⟩ := ih fun c hc => hfactor c (List.mem_cons_of_mem _ hc)
        have hm : ∃ m, messageAt s.encoding v spanning c = .ok m := by
          rw [messageAt, hf]
          exact ⟨_, rfl⟩
        obtain ⟨m, hm⟩ := hm
        exact ⟨m :: ms, by rw [List.mapM_cons, hm, hms]; rfl⟩
  obtain ⟨ms, hms⟩ := hmessages
  obtain ⟨⟨ls, waiting'⟩, hrun⟩ : ∃ r, layersOver s index v below waiting = .ok r := by
    refine ⟨_, Outcome.bind_eq_ok_iff.2 ⟨n, hn, Outcome.bind_eq_ok_iff.2 ⟨ms, hms, rfl⟩⟩⟩
  refine ⟨ls, waiting', hrun, ?_⟩
  obtain ⟨l, rfl, O, _⟩ := layersOver_ok hrun
  show l.spanning ⊆ vs
  rw [O.spanning]
  exact hsub

mutual

theorem exists_layersOf (S : s.Sound) (C : Countable s vs) : ∀ (n : PseudoTree.Node) index waiting,
    ∃ ls waiting', layersOf s index waiting n = .ok (ls, waiting') ∧ spanningOf ls ⊆ vs
  | .mk v ns, index, waiting => by
      obtain ⟨below, waiting₁, hbelow, hsub⟩ := exists_layersOfAll S C ns (index + 1) waiting
      rw [layersOf, hbelow]
      exact exists_layersOver S C hsub

theorem exists_layersOfAll (S : s.Sound) (C : Countable s vs) :
    ∀ (ns : List PseudoTree.Node) index waiting, ∃ below waiting',
      layersOfAll s index waiting ns = .ok (below, waiting') ∧ ∀ ls ∈ below, spanningOf ls ⊆ vs
  | [], index, waiting => ⟨[], waiting, rfl, fun ls hls => absurd hls List.not_mem_nil⟩
  | n :: ns, index, waiting => by
      obtain ⟨ls, waiting₁, hls, hsub⟩ := exists_layersOf S C n index waiting
      obtain ⟨rest, waiting₂, hrest, hsubs⟩ :=
        exists_layersOfAll S C ns (index + ls.length) waiting₁
      refine ⟨ls :: rest, waiting₂, ?_, List.forall_mem_cons.2 ⟨hsub, hsubs⟩⟩
      simp only [layersOfAll, hls, hrest, bind, Except.bind, pure, Except.pure]

end

theorem countable_sourceOf {options : EncodingOptions} (hnet : net.WellFormed) (hp : p.Proper net)
    (R : Encoding.Represents options net e)
    (hsmall : (p.scope.map net.dimOf).prod < halfWordSize - 1) :
    Countable (sourceOf net p e t) p.scope := by
  have hdim : ∀ u ∈ p.scope, 0 < net.dimOf u := fun u hu => hnet.dim_pos (hp.scope_lt hnet.linked hu)
  refine ⟨fun c u hu => ?_, fun c hc => ?_, fun v us hus hsub => ?_⟩
  · exact hp.mem_scope.2 ⟨c, (Bound.mem_scope hp).1 hu⟩
  · obtain ⟨u, hu⟩ := List.exists_mem_of_ne_nil _ hc
    obtain ⟨f, hf, _⟩ := R.factor c (hp.owned_lt c ((Bound.mem_scope hp).1 hu).1)
    exact ⟨f, hf⟩
  · have hle : (us.map net.dimOf).prod ≤ (p.scope.map net.dimOf).prod := by
      obtain ⟨ws, hperm, hsublist⟩ := List.subperm_of_subset hus.nodup hsub
      rw [← (hperm.map net.dimOf).prod_eq]
      exact (hsublist.map net.dimOf).prod_le_prod' (List.forall_mem_map.2 hdim)
    have hlt : (us.map net.dimOf).prod < halfWordSize - 1 := by omega
    have hword : halfWordSize < wordSize := by decide
    have hfold := Tally.foldlM_word (us.map net.dimOf) 1
      (List.forall_mem_map.2 fun u hu => hdim u (hsub hu)) (by omega)
    rw [Nat.one_mul] at hfold
    unfold contextCount
    split
    · exact ⟨0, rfl⟩
    · refine ⟨(us.map net.dimOf).prod, ?_⟩
      have hcount : (us.map (sourceOf net p e t).bound.dim).foldlM Tally.word.mul? 1 =
          some (us.map net.dimOf).prod := hfold
      simp only [hcount]
      exact if_pos hlt

/-- If the joint values of all variables of a partition can be numbered, its tree can be laid
out. -/
theorem exists_ofPseudoTree {options : EncodingOptions} (hnet : net.WellFormed) (hp : p.Proper net)
    (ht : build net p ordering shape = .ok t) (R : Encoding.Represents options net e)
    (hsmall : (p.scope.map net.dimOf).prod < halfWordSize - 1) :
    ∃ st, ofPseudoTree (.ofPartition net p) t e = .ok st := by
  obtain ⟨hordering, rfl⟩ := (build_ok_iff hp).1 ht
  obtain ⟨ls, waiting, hrun, _⟩ := exists_layersOf (sound_sourceOf hnet.valued hp)
    (countable_sourceOf hnet hp R hsmall)
    (ofRoot (.mk joiner (rootsFor net p ordering shape)) ordering (widthOf net p ordering)).root 0
    (Bound.ofPartition net p).enabled
  have hrange : (Node.mk joiner (rootsFor net p ordering shape)).preorder.all
      (fun v => v == joiner || v < (Bound.ofPartition net p).dims.size) = true := by
    obtain ⟨_, _, hperm⟩ := build_spec hnet.valued hp hordering shape
    refine List.all_eq_true.2 fun v hv => ?_
    rw [Node.preorder, List.mem_cons] at hv
    rcases hv with rfl | hv
    · simp
    · have hlt := hp.scope_lt hnet.linked ((hperm.trans hordering).mem_iff.1 hv)
      rw [Bound.size_dims]
      simp [hlt]
  have hensure : ensure .outOfRange ((Node.mk joiner (rootsFor net p ordering shape)).preorder.all
      (fun v => v == joiner || v < (Bound.ofPartition net p).dims.size)) = .ok () := by
    rw [hrange]
    rfl
  exact ⟨_, Outcome.bind_eq_ok_iff.2 ⟨(), hensure, Outcome.bind_eq_ok_iff.2 ⟨_, hrun, rfl⟩⟩⟩

end BayesCircuit.SpanningTree
