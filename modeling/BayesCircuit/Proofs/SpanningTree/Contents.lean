import BayesCircuit.Proofs.SpanningTree.Frontier

/-!
# What the layers of a partition hold

In the layers of a chain or a tree of a partition, each table that the partition owns is one
message, at the deepest of its variables. The spanning variables of a layer are those above it that
are in one table with a variable at or below it. So they suffice for the messages of the layer and
for the layers below, and the projections find their positions (`contents_ofPseudoTree`). Whether
the tables of the network have the right length does not matter.
-/

namespace BayesCircuit.SpanningTree

open Arrangement Collection.Ascending Encoding InteractionGraph PseudoTree Node

variable {s : Source} {st : SpanningTree} {b : Bound} {u v : Variable} {vs us : List Variable}
variable {c index : Nat} {n : Node} {ns : List Node}
variable {l l' : Layer} {ls ls' : List Layer}

/-! ## Projections -/

/-- The sources of some variables are their positions among the spanning variables of the layer of
`v`, which itself has no source. -/
def Finds (v : Variable) (spanning us : List Variable) (sources : Projection) : Prop :=
  List.Forall₂ (fun u source => if u = v then source = none
    else ∃ i, source = some i ∧ spanning[i]? = some u) us sources

theorem getElem?_of_findIdx? {i : Nat} (h : us.findIdx? (· == u) = some i) : us[i]? = some u := by
  obtain ⟨hi, hu, -⟩ := List.findIdx?_eq_some_iff_getElem.1 h
  rw [List.getElem?_eq_getElem hi, beq_iff_eq.1 hu]

theorem getElem?_position (hu : u ∈ us) (d : Nat) :
    us[(us.findIdx? (· == u)).getD d]? = some u := by
  obtain ⟨i, hi⟩ := exists_findIdx? hu
  rw [hi, Option.getD_some, getElem?_of_findIdx? hi]

theorem findIdx?_eq_none (hu : u ∉ us) : us.findIdx? (· == u) = none :=
  List.findIdx?_eq_none_iff.2 fun _ hx => beq_eq_false_iff_ne.2 fun hxu => hu (hxu ▸ hx)

theorem finds_projection (hvs : Strict vs) (hus : Strict us) (hv : v ∉ vs) (hsub : us ⊆ v :: vs) :
    Finds v vs us (Counter.projection vs us) := by
  rw [Finds, projection_eq hvs hus, Counter.projectionUnsorted, List.forall₂_map_right_iff,
    List.forall₂_same]
  intro u hu
  split
  · rename_i huv
    rw [huv, findIdx?_eq_none hv]
  · rename_i huv
    obtain ⟨i, hi⟩ := exists_findIdx? ((List.mem_cons.1 (hsub hu)).resolve_left huv)
    exact ⟨i, hi, getElem?_of_findIdx? hi⟩

/-! ## Layers below each other -/

/-- A layer takes its contexts from one above it: its spanning variables are among those of the
other one and its variable, and its address says where each of them is. -/
structure Takes (b : Bound) (l l' : Layer) : Prop where
  subset : l'.spanning ⊆ l.label :: l.spanning
  dims : l'.address.dims = l'.spanning.map b.dim
  sources : Finds l.label l.spanning l'.spanning l'.address.sources
  expand : l'.address.expand = true ↔ l.label ∉ l'.spanning
  position : if l.label ∈ l'.spanning then l'.spanning[l'.address.position]? = some l.label
    else l'.address.position = l'.spanning.length

theorem takes_of_address (hl : Strict l.spanning) (hl' : Strict l'.spanning)
    (hlabel : l.label ∉ l.spanning) (hsub : l'.spanning ⊆ l.label :: l.spanning)
    (haddress : l'.address = addressBelow b l.label l.spanning l'.spanning) : Takes b l l' := by
  refine ⟨hsub, ?_, ?_, ?_, ?_⟩ <;> rw [haddress]
  · rfl
  · exact finds_projection hl hl' hlabel hsub
  · simp [addressBelow]
  · split
    · rename_i hmem
      exact getElem?_position hmem _
    · rename_i hmem
      rw [addressBelow, findIdx?_eq_none hmem, Option.getD_none]

/-- The terminal layer can be below every other one. -/
theorem takes_terminalLayer (b : Bound) (l : Layer) (i : Nat) : Takes b l (terminalLayer i) where
  subset := List.nil_subset _
  dims := rfl
  sources := .nil
  expand := iff_of_true rfl List.not_mem_nil
  position := rfl

/-- Layers stand one after the other from number `index` on. -/
def Placed (st : SpanningTree) (index : Nat) (ls : List Layer) : Prop :=
  ∀ i l, ls[i]? = some l → st.layer (index + i) = .ok l

theorem Placed.head (h : Placed st index (l :: ls)) : st.layer index = .ok l := h 0 l rfl

theorem Placed.tail (h : Placed st index (l :: ls)) : Placed st (index + 1) ls := by
  intro i l' hl'
  rw [Nat.add_assoc, Nat.add_comm 1]
  exact h (i + 1) l' hl'

theorem Placed.left (h : Placed st index (ls ++ ls')) : Placed st index ls := by
  intro i l hl
  obtain ⟨hi, -⟩ := List.getElem?_eq_some_iff.1 hl
  exact h i l (by rw [List.getElem?_append_left hi, hl])

theorem Placed.right (h : Placed st index (ls ++ ls')) : Placed st (index + ls.length) ls' := by
  intro i l hl
  rw [Nat.add_assoc]
  refine h (ls.length + i) l ?_
  rw [List.getElem?_append_right (Nat.le_add_right _ _), Nat.add_sub_cancel_left, hl]

/-- The layer of a tree. -/
def HoldsTree (s : Source) (n : Node) (l : Layer) : Prop :=
  Holds s n.label (preorderAll n.children) l

theorem HoldsTree.spanning_eq (h : HoldsTree s n l) : l.spanning = s.bound.frontier n.preorder := by
  cases n
  exact h.spanning

theorem HoldsTree.strict (h : HoldsTree s n l) : Strict l.spanning := by
  rw [h.spanning_eq]
  exact Bound.strict_frontier

theorem HoldsTree.label_notMem (B : s.bound.Indexed) (h : HoldsTree s n l) :
    l.label ∉ l.spanning := by
  rw [h.label, h.spanning, Bound.mem_frontier B]
  exact fun hmem => hmem.1 (List.mem_cons_self ..)

/-- The layers below a layer: one for each tree below, or only the terminal one. -/
structure Under (s : Source) (st : SpanningTree) (l : Layer) (ns : List Node) (ls : List Layer) :
    Prop where
  children : List.Forall₂ (fun i l' => st.layer i = .ok l' ∧ Takes s.bound l l') l.children ls
  trees : ns = [] ∧ ls = [terminalLayer s.terminal] ∨ ns ≠ [] ∧ List.Forall₂ (HoldsTree s) ns ls

/-- The first layers of the trees below a layer. -/
theorem ShowsAll.heads (hl : Strict l.spanning) (hlabel : l.label ∉ l.spanning) :
    ∀ {ns index below}, ShowsAll s l.label l.spanning index ns below →
    Placed st index below.flatten →
    ∃ ls, List.Forall₂ (fun i l' => st.layer i = .ok l' ∧ Takes s.bound l l')
      (firstIndices index below) ls ∧ List.Forall₂ (HoldsTree s) ns ls
  | [], _, _, .nil, _ => ⟨[], .nil, .nil⟩
  | n :: ns, index, _, .cons (l := l') hfirst haddress habove hrest, hplaced => by
      rw [List.flatten_cons] at hplaced
      obtain ⟨ls, htakes, hholds⟩ := ShowsAll.heads hl hlabel hrest hplaced.right
      have hhold : HoldsTree s n l' := by
        cases hfirst with
        | mk H _ _ _ _ => exact H
      have htake := takes_of_address hl hhold.strict hlabel habove haddress
      exact ⟨l' :: ls, .cons ⟨hplaced.left.head, htake⟩ htakes, .cons hhold hholds⟩

theorem ShowsAll.under {below : List (List Layer)} (hl : Strict l.spanning)
    (hlabel : l.label ∉ l.spanning) (h : ShowsAll s l.label l.spanning (index + 1) ns below)
    (hchildren : l.children = s.childrenOf index below)
    (hplaced : Placed st (index + 1) below.flatten)
    (hterminal : st.layer s.terminal = .ok (terminalLayer s.terminal)) :
    ∃ ls, Under s st l ns ls := by
  obtain ⟨ls, htakes, hholds⟩ := ShowsAll.heads hl hlabel h hplaced
  cases h with
  | nil =>
      have hchild : l.children = [s.terminal] := hchildren
      have htake := takes_terminalLayer s.bound l s.terminal
      exact ⟨_, hchild ▸ .cons ⟨hterminal, htake⟩ .nil, Or.inl ⟨rfl, rfl⟩⟩
  | cons => exact ⟨ls, hchildren ▸ htakes, Or.inr ⟨List.cons_ne_nil _ _, hholds⟩⟩

/-- What the layer of a tree holds, and the layers below it. -/
structure Stands (s : Source) (st : SpanningTree) (n : Node) (l : Layer) : Prop where
  holds : HoldsTree s n l
  below : ∃ ls, Under s st l n.children ls

mutual

theorem Shows.stands (B : s.bound.Indexed)
    (hterminal : st.layer s.terminal = .ok (terminalLayer s.terminal)) :
    ∀ {n index ls}, Shows s index n ls → Placed st index ls →
    List.Forall₂ (Stands s st) n.subtrees ls
  | .mk v ns, index, _, .mk (l := l) H _ hchildren _ hrest, hplaced => by
      have hhold : HoldsTree s (.mk v ns) l := H
      have hrest' : ShowsAll s l.label l.spanning (index + 1) ns _ := H.label ▸ hrest
      have hunder := ShowsAll.under hhold.strict (hhold.label_notMem B) hrest' hchildren
        hplaced.tail hterminal
      exact .cons ⟨hhold, hunder⟩ (ShowsAll.stands B hterminal hrest hplaced.tail)

theorem ShowsAll.stands (B : s.bound.Indexed)
    (hterminal : st.layer s.terminal = .ok (terminalLayer s.terminal)) :
    ∀ {ns v above index below}, ShowsAll s v above index ns below →
    Placed st index below.flatten → List.Forall₂ (Stands s st) (subtreesAll ns) below.flatten
  | [], _, _, _, _, .nil, _ => .nil
  | n :: ns, _, _, _, _, .cons hfirst _ _ hrest, hplaced => by
      rw [List.flatten_cons] at hplaced ⊢
      exact List.rel_append (Shows.stands B hterminal hfirst hplaced.left)
        (ShowsAll.stands B hterminal hrest hplaced.right)

end

mutual

/-- The messages of the layers are the tables that are placed in the tree. -/
theorem Laid.owners : ∀ {w : Arrangement} {index ls}, Laid s index w ls →
    (ls.flatMap fun l => l.messages.map Message.owner) = w.tables
  | .mk v cs ws, _, _, .mk C _ _ hrest => by
      rw [List.flatMap_cons, (owners_of_mapM C.messages).1, LaidAll.owners hrest,
        Arrangement.tables]

theorem LaidAll.owners : ∀ {ws : List Arrangement} {v above index below},
    LaidAll s v above index ws below →
    (below.flatten.flatMap fun l => l.messages.map Message.owner) = tablesAll ws
  | [], _, _, _, _, .nil => rfl
  | w :: ws, _, _, _, _, .cons hfirst _ _ hrest => by
      rw [List.flatten_cons, List.flatMap_append, Laid.owners hfirst, LaidAll.owners hrest,
        tablesAll]

end

/-! ## Spanning variables and messages in legal trees -/

section

variable {roots : List Node}

/-- The spanning variables are the variables above that are in one table with one at or below. -/
theorem mem_frontier_iff_above (B : s.bound.Indexed) (hlegal : LegalAll s.scope [] roots)
    (hnodup : (preorderAll roots).Nodup) (hn : n ∈ subtreesAll roots) :
    u ∈ s.bound.frontier n.preorder ↔ Above roots u n.label ∧
      ∃ c, u ∈ s.scope c ∧ ∃ v ∈ n.preorder, v ∈ s.scope c := by
  obtain ⟨path, hpath, hdisjoint, habove⟩ := hlegal.exists_path (by rwa [List.append_nil]) hn
  simp only [List.not_mem_nil, false_or] at habove
  rw [Bound.mem_frontier B, ← habove]
  constructor
  · rintro ⟨hu, c, hmeets, huc⟩
    have hmem := (Legal.scope_subset hpath hmeets u huc).resolve_right hu
    exact ⟨hmem, c, huc, Bound.meets_iff.1 hmeets⟩
  · rintro ⟨hu, c, huc, hmeets⟩
    refine ⟨fun hmem => ?_, c, Bound.meets_iff.2 hmeets, huc⟩
    exact (List.nodup_append.1 hdisjoint).2.2 u hmem u hu rfl

/-- A layer completes the tables whose other variables are all above its own. -/
theorem mem_ending_iff_above (B : s.bound.Indexed) (hlegal : LegalAll s.scope [] roots)
    (hnodup : (preorderAll roots).Nodup) (hn : n ∈ subtreesAll roots) :
    c ∈ s.bound.ending n.label (preorderAll n.children) ↔ n.label ∈ s.scope c ∧
      ∀ u ∈ s.scope c, u ≠ n.label → Above roots u n.label := by
  obtain ⟨path, hpath, hdisjoint, habove⟩ := hlegal.exists_path (by rwa [List.append_nil]) hn
  simp only [List.not_mem_nil, false_or] at habove
  obtain ⟨v, ns⟩ := n
  obtain ⟨hv, hns⟩ := List.nodup_cons.1 hdisjoint
  rw [Bound.mem_ending B, ← Bool.not_eq_true, Bound.meets_iff]
  refine and_congr_right fun hvc => ?_
  constructor
  · intro hfree u huc huv
    rcases hpath.1 c hvc u huc with hu | hu
    · exact (habove u).1 ((List.mem_cons.1 hu).resolve_left huv)
    · exact absurd ⟨u, hu, huc⟩ hfree
  · rintro hall ⟨u, hu, huc⟩
    have huv : u ≠ v := fun he => hv (List.mem_append_left _ (he ▸ hu))
    exact (List.nodup_append.1 hns).2.2 u hu u ((habove u).2 (hall u huc huv)) rfl

end

/-! ## The layers of a partition -/

section

variable {net : Network} {p : Partition} {owned ordering : List Variable} {shape : Shape}
variable {t : PseudoTree} {e : Encoding} {options : EncodingOptions} {roots : List Node}
variable {m : Message}

/-- A message knows where the values of its table come from: the other variables are spanning
variables of its layer. -/
structure Delivers (net : Network) (e : Encoding) (l : Layer) (m : Message) : Prop where
  subset : ∀ u ∈ family net m.owner, u ≠ l.label → u ∈ l.spanning
  factor : ∃ f, e.factor m.owner = .ok f ∧ f.scope = (family net m.owner).mergeSort ∧
    f.scope[m.position]? = some l.label ∧ Finds l.label l.spanning f.scope m.sources

/-- The layers below the layer of some trees of a partition. -/
structure Leads (net : Network) (p : Partition) (st : SpanningTree) (l : Layer) (ns : List Node)
    (ls : List Layer) : Prop where
  children : List.Forall₂ (fun i l' => st.layer i = .ok l' ∧ Takes (.ofPartition net p) l l')
    l.children ls
  labels : ls.map Layer.label = if ns.isEmpty then [terminalLabel] else ns.map Node.label

/-- The layer of a tree among the trees of a partition. -/
structure Serves (net : Network) (p : Partition) (e : Encoding) (st : SpanningTree)
    (roots : List Node) (n : Node) (l : Layer) : Prop where
  label : l.label = n.label
  strict : Strict l.spanning
  spanning : ∀ u, u ∈ l.spanning ↔ Above roots u n.label ∧
    ∃ c ∈ p.owned, u ∈ family net c ∧ ∃ v ∈ n.preorder, v ∈ family net c
  contexts : l.contexts = (l.spanning.map net.dimOf).prod
  owners : ∀ c, c ∈ l.messages.map Message.owner ↔ c ∈ p.owned ∧ n.label ∈ family net c ∧
    ∀ u ∈ family net c, u ≠ n.label → Above roots u n.label
  messages : ∀ m ∈ l.messages, Delivers net e l m
  below : ∃ ls, Leads net p st l n.children ls

theorem Under.leads (h : Under (sourceOf net p e t) st l ns ls) : Leads net p st l ns ls where
  children := h.children
  labels := by
    rcases h.trees with ⟨rfl, rfl⟩ | ⟨hne, hholds⟩
    · rfl
    · have hlabels : List.Forall₂ (fun n l => n.label = l.label) ns ls :=
        hholds.imp fun _ _ H => H.label.symm
      rw [if_neg (by simpa using hne), ← List.forall₂_eq_eq_eq, List.forall₂_map_left_iff,
        List.forall₂_map_right_iff]
      exact hlabels.flip.imp fun _ _ => Eq.symm

theorem delivers_of_messageAt (hnet : net.Linked) (he : ofNetwork options net = .ok e)
    (hl : Strict l.spanning) (hlabel : l.label ∉ l.spanning) (howner : m.owner < net.size)
    (hmem : l.label ∈ family net m.owner)
    (hsub : ∀ u ∈ family net m.owner, u ≠ l.label → u ∈ l.spanning)
    (hm : messageAt e l.label l.spanning m.owner = .ok m) : Delivers net e l m := by
  obtain ⟨f, hf, hm⟩ := Outcome.bind_eq_ok_iff.1 hm
  have hscope := scope_of_ofNetwork he hf
  have hmessage := Except.ok.inj hm
  refine ⟨hsub, f, hf, hscope, ?_, ?_⟩
  · rw [← congrArg Message.position hmessage]
    exact getElem?_position (hscope ▸ mem_sorted_family.2 hmem) 0
  · rw [← congrArg Message.sources hmessage]
    refine finds_projection hl (hscope ▸ strict_sorted_family hnet howner) hlabel fun u hu => ?_
    rw [hscope, mem_sorted_family] at hu
    rw [List.mem_cons]
    exact or_iff_not_imp_left.2 (hsub u hu)

theorem Stands.serves (hnet : net.Valued) (hp : p.Proper net) (he : ofNetwork options net = .ok e)
    (hlegal : LegalAll (Bound.ofPartition net p).scope [] roots)
    (hnodup : (preorderAll roots).Nodup) (hn : n ∈ subtreesAll roots)
    (h : Stands (sourceOf net p e t) st n l) : Serves net p e st roots n l := by
  have B : (sourceOf net p e t).bound.Indexed := Bound.indexed_ofPartition hnet.linked
  obtain ⟨H, ls, hunder⟩ := h
  have hscope : ∀ {u c}, u ∈ (sourceOf net p e t).scope c ↔ c ∈ p.owned ∧ u ∈ family net c :=
    Bound.mem_scope hp
  have hspanning : ∀ u, u ∈ l.spanning ↔ Above roots u n.label ∧
      ∃ c ∈ p.owned, u ∈ family net c ∧ ∃ v ∈ n.preorder, v ∈ family net c := by
    intro u
    rw [H.spanning_eq, mem_frontier_iff_above B hlegal hnodup hn]
    simp only [hscope]
    refine and_congr_right fun _ => exists_congr fun c => ⟨?_, ?_⟩
    · rintro ⟨⟨hc, hu⟩, v, hv, -, hvc⟩
      exact ⟨hc, hu, v, hv, hvc⟩
    · rintro ⟨hc, hu, v, hv, hvc⟩
      exact ⟨⟨hc, hu⟩, v, hv, hc, hvc⟩
  have howners : ∀ c, c ∈ l.messages.map Message.owner ↔ c ∈ p.owned ∧ n.label ∈ family net c ∧
      ∀ u ∈ family net c, u ≠ n.label → Above roots u n.label := by
    intro c
    rw [H.owners.mem_iff, mem_ending_iff_above B hlegal hnodup hn]
    simp only [hscope, and_imp]
    rw [and_assoc]
    exact and_congr_right fun hc => and_congr_right fun _ =>
      ⟨fun hall u hu => hall u hc hu, fun hall u _ hu => hall u hu⟩
  refine ⟨H.label, H.strict, hspanning, ?_, howners, fun m hm => ?_, ls, hunder.leads⟩
  · rw [H.contexts, Bound.widthAt, ← H.spanning]
    rfl
  · obtain ⟨hc, hlabel, hall⟩ := (howners m.owner).1 (List.mem_map_of_mem hm)
    have hmessage := H.message m hm
    rw [← H.label] at hlabel hmessage
    refine delivers_of_messageAt hnet.linked he H.strict (H.label_notMem B) (hp.owned_lt _ hc) hlabel
      (fun u hu huv => ?_) hmessage
    rw [H.label] at hlabel huv
    exact (hspanning u).2 ⟨hall u hu huv, m.owner, hc, hu, n.label, label_mem_preorder, hlabel⟩

theorem legal_root (hnet : net.Closed) (hp : p.Proper net) (ht : build net p ordering shape = .ok t) :
    LegalAll (Bound.ofPartition net p).scope [] t.root.children ∧
      (preorderAll t.root.children).Nodup := by
  obtain ⟨hordering, rfl⟩ := (build_ok_iff hp).1 ht
  obtain ⟨-, -, hperm⟩ := hung_rootsFor hnet hp hordering shape
  exact ⟨legal_rootsFor hnet hp hordering shape (fun _ _ => List.not_mem_nil) List.nodup_nil,
    (hperm.trans hordering).nodup_iff.2 hp.strict_scope.nodup⟩

/-- The layer of the joining root, and those of the trees below it. -/
theorem stands_ofPseudoTree (hnet : net.Valued) (hp : p.Proper net)
    (ht : build net p ordering shape = .ok t)
    (hst : ofPseudoTree (.ofPartition net p) t e = .ok st) :
    ∃ top below ls, st.layer 0 = .ok top ∧ Joins (sourceOf net p e t) below top ∧
      Under (sourceOf net p e t) st top t.root.children ls ∧
      List.Forall₂ (Stands (sourceOf net p e t) st) (subtreesAll t.root.children)
        (Multigraph.innerLayers st) := by
  have B : (sourceOf net p e t).bound.Indexed := Bound.indexed_ofPartition hnet.linked
  have hroots : rootsFor net p ordering shape = t.root.children := by
    rw [((build_ok_iff hp).1 ht).2]
    rfl
  obtain ⟨top, below, hlayers, J, hshows, -⟩ := shows_ofPseudoTree hnet hp ht hst
  obtain ⟨ws, ⟨top', below', hlayers', -, -, -, hlength⟩, -⟩ := partition_planned hnet hp ht hst
  obtain ⟨hinner, -, htop, hlayer⟩ := layers_spec hlayers
  have hterminal := layer_last hlayers'
  rw [← hlength] at hterminal
  have hplaced : Placed st 1 below.flatten := fun i l hl => Nat.add_comm i 1 ▸ hlayer i l hl
  rw [hroots] at hshows
  have hbelow : ShowsAll _ top.label top.spanning 1 _ below := J.label ▸ hshows
  have hstrict : Strict top.spanning := J.spanning ▸ .nil
  have hlabel : top.label ∉ top.spanning := J.spanning ▸ List.not_mem_nil
  obtain ⟨ls, hunder⟩ := hbelow.under hstrict hlabel J.children hplaced hterminal
  exact ⟨top, below, ls, htop, J, hunder, hinner ▸ hshows.stands B hterminal hplaced⟩

/-- Every table of a partition is one message. -/
theorem owners_ofPseudoTree (hnet : net.Valued) (hp : p.Proper net)
    (ht : build net p ordering shape = .ok t)
    (hst : ofPseudoTree (.ofPartition net p) t e = .ok st) :
    ((Multigraph.innerLayers st).flatMap fun l => l.messages.map Message.owner).Perm p.owned := by
  obtain ⟨ws, ⟨_, _, hlayers, -, -, hlaid, -⟩, -, -, -, htables⟩ := partition_planned hnet hp ht hst
  rw [(layers_spec hlayers).1, hlaid.owners]
  exact htables

/-- Nothing is above the roots, so their layers have one context. -/
theorem Under.one_context (hnet : net.Linked)
    (hlegal : LegalAll (Bound.ofPartition net p).scope [] roots)
    (h : Under (sourceOf net p e t) st l roots ls) (hl : l' ∈ ls) :
    l'.spanning = [] ∧ l'.contexts = 1 := by
  have B : (sourceOf net p e t).bound.Indexed := Bound.indexed_ofPartition hnet
  rcases h.trees with ⟨-, rfl⟩ | ⟨-, hholds⟩
  · obtain rfl := List.mem_singleton.1 hl
    exact ⟨rfl, rfl⟩
  · obtain ⟨n, hn, H⟩ := exists_of_forall₂ hholds hl
    have hnil : l'.spanning = [] := by
      refine List.eq_nil_iff_forall_not_mem.2 fun u hu => ?_
      rw [H.spanning_eq, Bound.mem_frontier B] at hu
      obtain ⟨hu, c, hmeets, huc⟩ := hu
      have hmem := LegalAll.scope_subset (s := sourceOf net p e t) hlegal n hn hmeets u huc
      exact List.not_mem_nil (hmem.resolve_right hu)
    refine ⟨hnil, ?_⟩
    rw [H.contexts, Bound.widthAt, ← H.spanning, hnil]
    rfl

/-- The layers of a chain or a tree of a partition, and what each of them holds. Every table is one
message, at the deepest of its variables, and the layers below the joining root have one context. -/
theorem contents_ofPseudoTree (hnet : net.Valued) (hp : Partition.ofOwned net owned = .ok p)
    (he : ofNetwork options net = .ok e) (ht : build net p ordering shape = .ok t)
    (hst : ofPseudoTree (.ofPartition net p) t e = .ok st) :
    ((Multigraph.innerLayers st).flatMap fun l => l.messages.map Message.owner).Perm p.owned ∧
      List.Forall₂ (Serves net p e st t.root.children) (subtreesAll t.root.children)
        (Multigraph.innerLayers st) ∧
      ∃ top ls, st.layer 0 = .ok top ∧ top.label = joiner ∧ top.spanning = [] ∧ top.messages = [] ∧
        Leads net p st top t.root.children ls ∧ ∀ l ∈ ls, l.spanning = [] ∧ l.contexts = 1 := by
  have hproper := Partition.proper_ofOwned hp
  obtain ⟨hlegal, hnodup⟩ := legal_root hnet.linked.closed hproper ht
  obtain ⟨top, below, ls, htop, J, hunder, hstands⟩ := stands_ofPseudoTree hnet hproper ht hst
  refine ⟨owners_ofPseudoTree hnet hproper ht hst, ?_, top, ls, htop, J.label, J.spanning,
    J.messages, hunder.leads, fun l hl => hunder.one_context hnet.linked hlegal hl⟩
  have hmem : List.Forall₂ (fun n l => n ∈ subtreesAll t.root.children ∧
      Stands (sourceOf net p e t) st n l) (subtreesAll t.root.children) (Multigraph.innerLayers st) :=
    (List.forall₂_and_left _ _).2 ⟨fun _ hn => hn, hstands⟩
  exact hmem.imp fun n l h => h.2.serves hnet hproper he hlegal hnodup h.1

/-- If only the second coin is owned, the table of the first one is no message. -/
theorem contents_secondCoin : ∃ e t st, ofNetwork ⟨false, true⟩ twoCoins = .ok e ∧
    build twoCoins ⟨[1], [0]⟩ [0, 1] .tree = .ok t ∧
    ofPseudoTree (.ofPartition twoCoins ⟨[1], [0]⟩) t e = .ok st ∧
    (Multigraph.innerLayers st).flatMap (fun l => l.messages.map Message.owner) = [1] ∧
    List.Forall₂ (Serves twoCoins ⟨[1], [0]⟩ e st t.root.children)
      (subtreesAll t.root.children) (Multigraph.innerLayers st) := by
  have hp : Partition.ofOwned twoCoins [1] = .ok ⟨[1], [0]⟩ := rfl
  have hproper := Partition.proper_ofOwned hp
  obtain ⟨t, ht⟩ := exists_build hproper (show [0, 1].Perm _ by decide) .tree
  obtain ⟨e, he, R⟩ := ofNetwork_spec ⟨false, true⟩ wellFormed_twoCoins
  obtain ⟨st, hst⟩ := exists_ofPseudoTree wellFormed_twoCoins hproper ht R (by decide +kernel)
  obtain ⟨howners, hserves, -⟩ := contents_ofPseudoTree wellFormed_twoCoins.valued hp he ht hst
  exact ⟨e, t, st, he, ht, hst, List.perm_singleton.1 howners, hserves⟩

end

end BayesCircuit.SpanningTree
