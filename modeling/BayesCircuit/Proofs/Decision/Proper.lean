import BayesCircuit.Proofs.Decision.Build
import BayesCircuit.Proofs.Decision.Copy
import BayesCircuit.Proofs.References.Balanced

/-!
# Trees of finished nodes

Whatever an engine answers, the nodes that a pass has finished unfold to trees. `Proper` says this
of a pass and adds a property `P` that each of these trees has. The property must be one that a
tree hands down to its parts, and that a new node gets from its children when it is finished
(`Admissible`); the diagrams that the engine copies must have it, too (`Engine.Supplies`).

Unlike `buildFrom_spec`, the results here ask for no plan that the engine follows: they hold of
every run that has a value.
-/

namespace BayesCircuit.Decision

open Collection Action

variable {σ : Type} {E : Engine σ} {m m' : Manager} {frozen : Handle → Option Node}
variable {pend pend' : Set Handle} {table table' : Table} {h g c : Handle} {k : Node.Key}
variable {D H L : Diagram} {P : Diagram → Prop} {same : Int → Int → Bool} {vars : Array Variable}
variable {reuse : Prop}

/-- The leaves have the property, the parts of a tree inherit it, and a finished node gets it from
its children. -/
structure Admissible (P : Diagram → Prop) (same : Int → Int → Bool) : Prop where
  leaf : ∀ b, P (.leaf b)
  children : ∀ {l ws H L}, P (.branch l ws H L) → P H ∧ P L
  node : ∀ {l ws H L}, P H → P L → P ((Diagram.branch l ws H L).skip same)

/-- An edge of a pending node may lead to the handle. -/
structure Standing (frozen : Handle → Option Node) (pend : Set Handle) (m : Manager) (c : Handle) :
    Prop where
  sound : Sound frozen m c
  finished : c ∉ pend

/-- The trees of all finished nodes have the property, and the products are finished nodes if the
pass uses them. -/
structure Proper (reuse : Prop) (P : Diagram → Prop) (vars : Array Variable)
    (frozen : Handle → Option Node) (pend : Set Handle) (m : Manager) (table : Table) : Prop where
  tidy : Tidy frozen pend m table
  tree : ∀ {g}, frozen g = none → g ∉ pend → (m.key? g).isSome → ∃ D, Denotes m.key? g D ∧ P D
  recorded : reuse → ∀ {c}, m.Records c → Standing frozen pend m c
  literalVariables : m.literalVariables = vars

theorem Standing.ready (hc : Standing frozen pend m c) : Ready frozen pend c :=
  ⟨hc.sound.imp_right And.left, hc.finished⟩

theorem Tidy.standing_of_terminal (T : Tidy frozen pend m table) (hc : c.isTerminal = true) :
    Standing frozen pend m c :=
  ⟨Or.inl hc, T.not_mem_of_terminal hc⟩

/-- The children of a young node are finished. -/
theorem Tidy.standing_children (T : Tidy frozen pend m table) (hg : frozen g = none)
    (hk : m.key? g = some k) : Standing frozen pend m k.high ∧ Standing frozen pend m k.low := by
  obtain ⟨hhigh, hlow⟩ := T.heap.sound_of_key hg hk
  exact ⟨⟨hhigh, (T.ready_high hg hk).finished⟩, hlow, (T.ready_low hg hk).finished⟩

/-- A finished node has the tree that it had if no finished node has another key. -/
theorem Tidy.transfer (T : Tidy frozen pend m table) (T' : Tidy frozen pend' m' table')
    (hkeep : ∀ {j k k'}, j ∉ pend → m.key? j = some k → m'.key? j = some k' → k' = k)
    (hg : g ∉ pend) (hlive : Sound frozen m' g) (hD : Denotes m.key? g D) :
    Denotes m'.key? g D := by
  refine hD.transfer (P := fun j => Sound frozen m' j ∧ j ∉ pend) ⟨hlive, hg⟩ ?_
  rintro j k ⟨hj, hjp⟩ hjt hk
  rcases hj with ht | ⟨hjf, hj⟩
  · rw [hjt] at ht
    cases ht
  obtain ⟨k', hk'⟩ := Option.isSome_iff_exists.1 hj
  obtain rfl := hkeep hjp hk hk'
  obtain ⟨hhigh, hlow⟩ := T.standing_children hjf hk
  obtain ⟨hhigh', hlow'⟩ := T'.heap.sound_of_key hjf hk'
  exact ⟨hk', ⟨hhigh', hhigh.finished⟩, hlow', hlow.finished⟩

namespace Proper

/-- What an edge of a pending node may lead to has a tree with the property. -/
theorem exists_tree (S : Proper reuse P vars frozen pend m table) (A : Admissible P same)
    (hc : Standing frozen pend m c) : ∃ D, Denotes m.key? c D ∧ P D := by
  rcases hc.sound with ht | ⟨hf, hlive⟩
  · rcases isTerminal_iff.1 ht with rfl | rfl
    · exact ⟨_, .false', A.leaf false⟩
    · exact ⟨_, .true', A.leaf true⟩
  · exact S.tree hf hc.finished hlive

/-- A pending node unfolds to a tree whose two parts have the property. -/
theorem exists_branch (S : Proper reuse P vars frozen pend m table) (A : Admissible P same)
    (hh : h ∈ pend) : ∃ k H L, m.key? h = some k ∧
      Denotes m.key? h (.branch k.literal k.weights H L) ∧ P H ∧ P L := by
  have hf := S.tidy.young hh
  obtain ⟨k, hk⟩ := Option.isSome_iff_exists.1 (S.tidy.live hh)
  obtain ⟨hhigh, hlow⟩ := S.tidy.standing_children hf hk
  obtain ⟨H, hH, hPH⟩ := S.exists_tree A hhigh
  obtain ⟨L, hL, hPL⟩ := S.exists_tree A hlow
  exact ⟨k, H, L, hk, .node (S.tidy.heap.not_terminal hf) hk hH hL, hPH, hPL⟩

/-- A step that changes no finished node, and whose new nodes have trees with the property. -/
theorem step (S : Proper reuse P vars frozen pend m table) (A : Admissible P same)
    (T' : Tidy frozen pend' m' table') (hR : Retains frozen pend m m')
    (hv : m'.literalVariables = m.literalVariables)
    (hkeep : ∀ {j k k'}, j ∉ pend → m.key? j = some k → m'.key? j = some k' → k' = k)
    (hnew : ∀ {j}, frozen j = none → j ∉ pend' → (m'.key? j).isSome →
      (j ∉ pend ∧ (m.key? j).isSome) ∨ ∃ D, Denotes m'.key? j D ∧ P D)
    (hpend : ∀ {j}, Standing frozen pend m j → j ∉ pend') :
    Proper reuse P vars frozen pend' m' table' := by
  refine ⟨T', fun {j} hj hjp hlive => ?_, fun hreuse c ⟨q, hq⟩ => ?_, hv.trans S.literalVariables⟩
  · rcases hnew hj hjp hlive with ⟨hold, hlive₀⟩ | hD
    · obtain ⟨D, hD, hPD⟩ := S.tree hj hold hlive₀
      exact ⟨D, S.tidy.transfer T' hkeep hold (Or.inr ⟨hj, hlive⟩) hD, hPD⟩
    · exact hD
  · -- what is recorded is never freed
    obtain ⟨hq', hden⟩ := hR q c hq
    have hc := S.recorded hreuse ⟨q, hq'⟩
    obtain ⟨D, hD, -⟩ := S.exists_tree A hc
    have hyoung := hc.sound.imp_right And.left
    exact ⟨sound_of_denotes hyoung (hden D hyoung hc.finished hD), hpend hc⟩

/-- Only the nodes matter, and the products if the pass uses them. -/
theorem congr (S : Proper reuse P vars frozen pend m table) (ha : m'.arena = m.arena)
    (hv : m'.literalVariables = m.literalVariables)
    (hrec : reuse → ∀ {c}, m'.Records c → m.Records c ∨ Standing frozen pend m c) :
    Proper reuse P vars frozen pend m' table := by
  have hkey : m'.key? = m.key? := key?_congr ha
  refine ⟨S.tidy.congr ha, hkey ▸ S.tree, fun hreuse c hc => ?_, hv.trans S.literalVariables⟩
  have hstand := (hrec hreuse hc).elim (S.recorded hreuse) id
  exact ⟨hstand.sound.congr (by rw [hkey]), hstand.finished⟩

theorem of_unmoved (S : Proper reuse P vars frozen pend m table) (hu : Unmoved m m') :
    Proper reuse P vars frozen pend m' table :=
  S.congr hu.arena hu.literalVariables fun _ _ hc => Or.inl (by
    rwa [Manager.Records, hu.entries] at hc)

end Proper

/-! ## Making nodes -/

/-- A node that has been made is pending. -/
theorem proper_create {l : Literal} {ws : Weights} (A : Admissible P same)
    (S : Proper reuse P vars frozen pend m table) :
    Gives (create l ws) m fun h m' => h ∉ pend ∧
      (∀ {c}, Standing frozen pend m c → Standing frozen (insert h pend) m' c) ∧
      Proper reuse P vars frozen (insert h pend) m' table := by
  refine Gives.mono (gives_create S.tidy.heap) ?_
  rintro h m' ⟨hnone, -, H', hr⟩
  have T := S.tidy
  have hf : frozen h = none := by
    cases hf : frozen h with
    | none => rfl
    | some n =>
        rw [key?_of_get? (T.heap.kept hf)] at hnone
        cases hnone
  have hh : h ∉ pend := by
    intro hp
    have := T.live hp
    simp [hnone] at this
  have hkey : ∀ {j}, j ≠ h → m'.key? j = m.key? j := fun hj => by
    rw [hr.key, Function.update_of_ne hj]
  have hne : ∀ {j k}, m.key? j = some k → j ≠ h := by
    rintro j k hk rfl
    rw [hnone] at hk
    cases hk
  have hg : Grows m m' :=
    ⟨fun hk => (hkey (hne hk)).trans hk, hr.literalVariables, hr.tableBits⟩
  have hfalse : Sound frozen m Handle.false' := Or.inl rfl
  have hfalse' : Handle.false' ∉ pend := T.not_mem_of_terminal rfl
  have hpend : ∀ {j}, Standing frozen pend m j → j ∉ insert h pend := by
    intro j hj
    rw [Set.mem_insert_iff, not_or]
    exact ⟨T.heap.ne_of_dead hnone hj.sound, hj.finished⟩
  refine ⟨hh, fun hc => ⟨hg.sound hc.sound, hpend hc⟩,
    S.step A (T.add H' hnone hf hr hfalse hfalse hfalse' hfalse') (.of_grows hg hr.products)
      hr.literalVariables (fun _ hk hk' => ?_) (fun {j} _ hj hlive => Or.inl ?_) hpend⟩
  · rw [hg.key hk] at hk'
    exact (Option.some.inj hk').symm
  · rw [Set.mem_insert_iff, not_or] at hj
    exact ⟨hj.2, by rwa [hkey hj.1] at hlive⟩

/-- An edge of a pending node is set. -/
theorem Proper.set {k' : Node.Key} (S : Proper reuse P vars frozen pend m table)
    (A : Admissible P same) (H' : Heap frozen 0 m') (hh : h ∈ pend)
    (hr : Rekeys m m' (Function.update m.key? h (some k'))) (hhigh : k'.high ∉ pend)
    (hlow : k'.low ∉ pend) :
    Proper reuse P vars frozen pend m' table ∧
      ∀ {c}, Standing frozen pend m c → Standing frozen pend m' c := by
  have hkey : ∀ {j}, j ∉ pend → m'.key? j = m.key? j := by
    intro j hj
    rw [hr.key, Function.update_of_ne]
    rintro rfl
    exact hj hh
  refine ⟨S.step A (S.tidy.set H' hr hh hhigh hlow) (fun q c hq => ?_) hr.literalVariables
    (fun hj hk hk' => ?_) (fun _ hj hlive => Or.inl ⟨hj, by rwa [hkey hj] at hlive⟩)
    Standing.finished, fun hc => ⟨hc.sound.congr (hkey hc.finished), hc.finished⟩⟩
  · rw [hr.products] at hq
    refine ⟨hq, fun D hc hcp hD => ?_⟩
    rw [hr.key]
    refine hD.update_of_not_pointed S.tidy.heap.closed (S.tidy.unpointed hh) hc ?_
    rintro rfl
    exact hcp hh
  · rw [hkey hj, hk] at hk'
    exact (Option.some.inj hk').symm

theorem proper_setHigh (A : Admissible P same) (S : Proper reuse P vars frozen pend m table)
    (hh : h ∈ pend) (hc : Standing frozen pend m c) :
    Gives (setHigh h c) m fun _ m' =>
      Proper reuse P vars frozen pend m' table ∧ Standing frozen pend m' c := by
  have hf := S.tidy.young hh
  obtain ⟨k, hk⟩ := Option.isSome_iff_exists.1 (S.tidy.live hh)
  refine Gives.mono (.of_ends (setHigh_spec S.tidy.heap hk hf hc.sound)) ?_
  rintro _ m' ⟨H', hr⟩
  obtain ⟨S', hstand⟩ := S.set A H' hh hr hc.finished (S.tidy.ready_low hf hk).finished
  exact ⟨S', hstand hc⟩

theorem proper_setLow (A : Admissible P same) (S : Proper reuse P vars frozen pend m table)
    (hh : h ∈ pend) (hc : Standing frozen pend m c) :
    Gives (setLow h c) m fun _ m' => Proper reuse P vars frozen pend m' table := by
  have hf := S.tidy.young hh
  obtain ⟨k, hk⟩ := Option.isSome_iff_exists.1 (S.tidy.live hh)
  refine Gives.mono (.of_ends (setLow_spec S.tidy.heap hk hf hc.sound)) ?_
  rintro _ m' ⟨H', hr⟩
  exact (S.set A H' hh hr (S.tidy.ready_high hf hk).finished hc.finished).1

/-- The nodes of a copy have the parts of the original as their trees. -/
theorem proper_copy (hw : WellFormed frozen) (A : Admissible P same)
    (S : Proper reuse P vars frozen pend m table) (hD : Denotes (frozenKey frozen) h D)
    (hP : P D) : Gives (copy table h) m fun r m' =>
      Proper reuse P vars frozen pend m' r.2 ∧ Standing frozen pend m' r.1 := by
  refine Gives.mono (.of_ends (copy_spec hw S.tidy hD)) ?_
  rintro ⟨c, table'⟩ m' C
  refine ⟨S.step A C.tidy (.of_grows C.grows C.products) C.grows.literalVariables
    (fun _ hk hk' => ?_) (fun _ hj hlive => (C.made A.children hP hlive).imp_left (And.intro hj))
    Standing.finished, sound_of_denotes C.ready.young C.denotes, C.ready.finished⟩
  rw [C.grows.key hk] at hk'
  exact (Option.some.inj hk').symm

/-! ## Finishing nodes -/

/-- A pending node whose tree has the property is finished. -/
theorem proper_merge (A : Admissible P same)
    (S : Proper reuse P vars frozen (insert h pend) m table) (hh : h ∉ pend)
    (hD : Denotes m.key? h D) (hP : P D) : Gives (merge table h) m fun r m' =>
      Proper reuse P vars frozen pend m' r.2 ∧ Standing frozen pend m' r.1 := by
  have hmem : h ∈ insert h pend := Set.mem_insert _ _
  have hf := S.tidy.young hmem
  obtain ⟨k, H, L, hk, hH, hL, rfl⟩ := hD.cases_node (S.tidy.heap.not_terminal hf)
  refine Gives.mono (.of_ends (merge_spec S.tidy hk hh)) ?_
  rintro ⟨c, table'⟩ m' M
  have hkeep : ∀ {j k k'}, j ∉ insert h pend → m.key? j = some k → m'.key? j = some k' →
      k' = k := by
    intro j k k' _ hk hk'
    rw [M.thinned hk'] at hk
    exact Option.some.inj hk
  -- the children of the node are finished, and the twin has them, too
  have hchild : ∀ {j D}, Standing frozen (insert h pend) m j → Sound frozen m' j →
      Denotes m.key? j D → Denotes m'.key? j D := fun hj hlive hDj =>
    S.tidy.transfer M.tidy hkeep hj.finished hlive hDj
  obtain ⟨hhigh, hlow⟩ := S.tidy.standing_children hf hk
  obtain ⟨hhigh', hlow'⟩ := M.tidy.heap.sound_of_key M.young M.key
  have hDc : Denotes m'.key? c (.branch k.literal k.weights H L) :=
    .node (M.tidy.heap.not_terminal M.young) M.key (hchild hhigh hhigh' hH)
      (hchild hlow hlow' hL)
  refine ⟨S.step A M.tidy (M.retains S.tidy) M.literalVariables hkeep
    (fun {j} hj hjp hlive => ?_) fun hj hp => hj.finished (Set.mem_insert_of_mem _ hp),
    Or.inr ⟨M.young, by rw [M.key]; rfl⟩, M.finished⟩
  obtain ⟨kj, hkj⟩ := Option.isSome_iff_exists.1 hlive
  have hkj₀ := M.thinned hkj
  by_cases hjh : j = h
  · -- the node is still there, so it is its own twin
    subst hjh
    obtain rfl := Option.some.inj (hk.symm.trans hkj₀)
    have hjc : j = c := M.tidy.eq_of_key hj M.young hjp M.finished hkj M.key
    exact Or.inr ⟨_, hjc ▸ hDc, hP⟩
  · refine Or.inl ⟨?_, by rw [hkj₀]; rfl⟩
    rw [Set.mem_insert_iff, not_or]
    exact ⟨hjh, hjp⟩

/-- Low children of a pending node are left out. -/
theorem proper_collapseNode (A : Admissible P same) {fuel : Nat}
    (S : Proper reuse P vars frozen pend m table) (hh : h ∈ pend) (hD : Denotes m.key? h D)
    (hfuel : D.depth ≤ fuel) : Gives (collapseNode fuel table h) m fun r m' =>
      Proper reuse P vars frozen pend m' r.2 ∧ Denotes m'.key? h (D.skip m.sameVariable) := by
  have K : Keeps frozen pend (fun _ => none) m := by
    constructor
    · rintro g k ⟨⟩
    · rintro g k _ ⟨⟩
  refine Gives.mono (.of_ends (collapseNode_spec S.tidy K hh rfl hD hfuel)) ?_
  rintro ⟨_, table'⟩ m' ⟨R, hD'⟩
  refine ⟨S.step A R.tidy R.retains R.literalVariables (fun hj hk hk' => ?_)
    (fun {j} _ hj hlive => Or.inl ⟨hj, ?_⟩) Standing.finished, hD'⟩
  · rw [R.thinned hj hk'] at hk
    exact Option.some.inj hk
  · obtain ⟨k, hk⟩ := Option.isSome_iff_exists.1 hlive
    rw [R.thinned hj hk]
    rfl

theorem proper_finish {collapse expired : Bool} (A : Admissible P same)
    (hsame : ∀ {m : Manager}, m.literalVariables = vars → sameIf collapse m.sameVariable = same)
    (hh : h ∉ pend) : ∀ {p : Progress σ} {m : Manager},
      Proper reuse P vars frozen (insert h pend) m p.table →
      Gives (finish collapse expired h p) m fun r m' =>
        Proper reuse P vars frozen pend m' r.2.table ∧ Standing frozen pend m' r.1 ∧
          r.2.engine = p.engine
  | ⟨table, engine, steps⟩, m, S => by
      have hmem : h ∈ insert h pend := Set.mem_insert _ _
      obtain ⟨k, H, L, -, hD, hH, hL⟩ := S.exists_branch A hmem
      have hP : P ((Diagram.branch k.literal k.weights H L).skip
          (sameIf collapse m.sameVariable)) := by
        rw [hsame S.literalVariables]
        exact A.node hH hL
      unfold finish
      refine Gives.bind gives_tick ?_
      rintro steps' _ rfl
      cases collapse with
      | false =>
          rw [skip_of_false] at hP
          simp only [Bool.false_eq_true, if_false, pure_bind]
          refine Gives.bind (proper_merge A S hh hD hP) ?_
          rintro ⟨c, table'⟩ m' ⟨S', hc⟩
          exact Gives.pure ⟨S', hc, rfl⟩
      | true =>
          rw [sameIf_true] at hP
          unfold depthBound
          simp only [if_true, bind_assoc, pure_bind]
          refine Gives.get (Gives.bind (proper_collapseNode A S hmem hD
            (Nat.le_succ_of_le hD.depth_le_size)) ?_)
          rintro ⟨_, table₁⟩ m₁ ⟨S₁, hD₁⟩
          refine Gives.bind (proper_merge A S₁ hh hD₁ hP) ?_
          rintro ⟨c, table'⟩ m' ⟨S', hc⟩
          exact Gives.pure ⟨S', hc, rfl⟩

/-! ## Building -/

/-- A frozen diagram has the property. -/
def Original (frozen : Handle → Option Node) (P : Diagram → Prop) (c : Handle) : Prop :=
  ∃ D, Denotes (frozenKey frozen) c D ∧ P D

/-- An engine that stays in states from which it copies frozen diagrams that have the property. -/
structure Engine.Supplies (E : Engine σ) (frozen : Handle → Option Node) (P : Diagram → Prop)
    (I : σ → Prop) : Prop where
  condition : ∀ {s l following holds m}, Heap frozen 0 m → I s →
    Gives (E.condition s l following holds) m fun r _ => I r.2.2
  undo : ∀ {s}, I s → I (E.undo s)
  trivial : ∀ {s c}, I s → E.trivial s = .ok c → Original frozen P c
  record : ∀ {s c m}, Gives (E.record s c) m fun _ m' => m'.literalVariables = m.literalVariables

/-- What is built below a node is finished. -/
def Yields (reuse : Prop) (P : Diagram → Prop) (vars : Array Variable)
    (frozen : Handle → Option Node) (I : σ → Prop)
    (below : Progress σ → Action (Handle × Progress σ)) : Prop :=
  ∀ (pend : Set Handle) (p : Progress σ) (m : Manager), I p.engine →
    Proper reuse P vars frozen pend m p.table →
    Gives (below p) m fun r m' => Proper reuse P vars frozen pend m' r.2.table ∧
      Standing frozen pend m' r.1 ∧ I r.2.engine

variable {I : σ → Prop} {below : Progress σ → Action (Handle × Progress σ)} {found : Cofactor}
variable {collapse expired : Bool}

theorem Proper.record (S : Proper reuse P vars frozen pend m table) (hE : E.Passive reuse)
    (hI : E.Supplies frozen P I) {s : σ} (hc : Standing frozen pend m c) :
    Gives (E.record s c) m fun _ m' => Proper reuse P vars frozen pend m' table := by
  refine Gives.mono (hE.record.and hI.record) ?_
  rintro _ m' ⟨⟨ha, hrec⟩, hv⟩
  exact S.congr ha hv fun _ v hv => (hrec v hv).imp_right (by rintro rfl; exact hc)

theorem proper_highStep (hw : WellFormed frozen) (A : Admissible P same) (hE : E.Passive reuse)
    (hI : E.Supplies frozen P I) (hbelow : Yields reuse P vars frozen I below) (hh : h ∈ pend) :
    ∀ {p : Progress σ} {m : Manager}, I p.engine → Proper reuse P vars frozen pend m p.table →
      (found = .cached → Standing frozen pend m (E.cached p.engine)) →
      Gives (highStep E below h found p) m fun q m' =>
        Proper reuse P vars frozen pend m' q.table ∧ I q.engine
  | ⟨table, engine, steps⟩, m, hs, S, hcached => by
      have hset : ∀ {c}, Standing frozen pend m c → Gives (do
          setHigh h c
          return (⟨table, E.undo engine, steps⟩ : Progress σ)) m fun q m' =>
            Proper reuse P vars frozen pend m' q.table ∧ I q.engine := fun hc =>
        Gives.bind (proper_setHigh A S hh hc) fun _ _ hq => Gives.pure ⟨hq.1, hI.undo hs⟩
      cases found with
      | unsatisfied =>
          refine Gives.bind (hbelow _ _ _ hs S) ?_
          rintro ⟨c, p⟩ m₁ ⟨S₁, hc, hs₁⟩
          refine Gives.bind (proper_setHigh A S₁ hh hc) ?_
          rintro _ m₂ ⟨S₂, hc₂⟩
          exact Gives.bind (S₂.record hE hI hc₂) fun _ _ S₃ => Gives.pure ⟨S₃, hI.undo hs₁⟩
      | trivial =>
          refine Gives.lift fun root hroot => ?_
          obtain ⟨D, hD, hP⟩ := hI.trivial hs hroot
          refine Gives.bind (proper_copy hw A S hD hP) ?_
          rintro ⟨c, table'⟩ m₁ ⟨S₁, hc⟩
          refine Gives.bind (proper_setHigh A S₁ hh hc) ?_
          rintro _ m₂ ⟨S₂, hc₂⟩
          exact Gives.bind (S₂.record hE hI hc₂) fun _ _ S₃ => Gives.pure ⟨S₃, hI.undo hs⟩
      | cached => exact hset (hcached rfl)
      | satisfiable => exact hset (S.tidy.standing_of_terminal rfl)
      | unsatisfiable => exact hset (S.tidy.standing_of_terminal rfl)
      | redundant => exact hset (S.tidy.standing_of_terminal rfl)

theorem proper_lowStep (hw : WellFormed frozen) (A : Admissible P same)
    (hI : E.Supplies frozen P I) (hbelow : Yields reuse P vars frozen I below) (hh : h ∈ pend)
    {level : Nat} : ∀ {p : Progress σ} {m : Manager}, I p.engine →
      Proper reuse P vars frozen pend m p.table →
      Gives (lowStep E below h level found p) m fun q m' =>
        Proper reuse P vars frozen pend m' q.table ∧ I q.engine
  | ⟨table, engine, steps⟩, m, hs, S => by
      have hset : ∀ {c}, Standing frozen pend m c → Gives (do
          setLow h c
          return (⟨table, E.undo engine, steps⟩ : Progress σ)) m fun q m' =>
            Proper reuse P vars frozen pend m' q.table ∧ I q.engine := fun hc =>
        Gives.bind (proper_setLow A S hh hc) fun _ _ S' => Gives.pure ⟨S', hI.undo hs⟩
      cases found with
      | unsatisfied =>
          refine Gives.bind (hbelow _ _ _ hs S) ?_
          rintro ⟨c, p⟩ m₁ ⟨S₁, hc, hs₁⟩
          exact Gives.bind (proper_setLow A S₁ hh hc) fun _ _ S₂ => Gives.pure ⟨S₂, hI.undo hs₁⟩
      | trivial =>
          refine Gives.lift fun root hroot => ?_
          obtain ⟨D, hD, hP⟩ := hI.trivial hs hroot
          refine Gives.bind (proper_copy hw A S hD hP) ?_
          rintro ⟨c, table'⟩ m₁ ⟨S₁, hc⟩
          exact Gives.bind (proper_setLow A S₁ hh hc) fun _ _ S₂ => Gives.pure ⟨S₂, hI.undo hs⟩
      | satisfiable => exact hset (S.tidy.standing_of_terminal rfl)
      | unsatisfiable => exact hset (S.tidy.standing_of_terminal rfl)
      | redundant => exact Gives.bind_throw
      | cached => exact Gives.bind_throw

theorem proper_nodeStep (hw : WellFormed frozen) (A : Admissible P same)
    (hsame : ∀ {m : Manager}, m.literalVariables = vars → sameIf collapse m.sameVariable = same)
    (hE : E.Passive reuse) (hI : E.Supplies frozen P I) {l : Literal} {rest : List Literal}
    {level : Nat} {ws : Weights} {p : Progress σ}
    (hbelow : Yields reuse P vars frozen I (buildFrom E collapse expired rest (level + 1)))
    (hs : I p.engine) (S : Proper reuse P vars frozen pend m p.table)
    (hcached : found = .cached → Standing frozen pend m (E.cached p.engine)) :
    Gives (nodeStep E collapse expired l rest level found ws p) m fun r m' =>
      Proper reuse P vars frozen pend m' r.2.table ∧ Standing frozen pend m' r.1 ∧
        I r.2.engine := by
  unfold nodeStep
  refine Gives.bind (proper_create A S) ?_
  rintro h m₁ ⟨hh, hstand, S₁⟩
  have hmem : h ∈ insert h pend := Set.mem_insert _ _
  refine Gives.bind (proper_highStep hw A hE hI hbelow hmem hs S₁ fun hc => hstand (hcached hc)) ?_
  rintro ⟨table, engine, steps⟩ m₂ ⟨S₂, hs₂⟩
  refine Gives.bind gives_tick ?_
  rintro steps' _ rfl
  refine Gives.bind (hE.condition.and (hI.condition S₂.tidy.heap hs₂)) ?_
  rintro ⟨found', ws', engine'⟩ m₃ ⟨⟨hu, -⟩, hs₃⟩
  refine Gives.bind (proper_lowStep hw A hI hbelow hmem hs₃ (S₂.of_unmoved hu)) ?_
  rintro p' m₄ ⟨S₄, hs₄⟩
  refine Gives.mono (proper_finish A hsame hh S₄) ?_
  rintro ⟨c, p''⟩ m₅ ⟨S₅, hc, heng⟩
  exact ⟨S₅, hc, heng ▸ hs₄⟩

theorem proper_buildFrom (hw : WellFormed frozen) (A : Admissible P same)
    (hsame : ∀ {m : Manager}, m.literalVariables = vars → sameIf collapse m.sameVariable = same)
    (hE : E.Passive reuse) (hI : E.Supplies frozen P I) :
    ∀ ls level, Yields reuse P vars frozen I (buildFrom E collapse expired ls level)
  | [], level => by
      intro pend p m hs S
      unfold buildFrom exhausted
      exact Gives.bind_throw
  | l :: rest, level => by
      intro pend p m hs S
      have hbelow : Yields reuse P vars frozen I (buildFrom E collapse expired rest (level + 1)) :=
        proper_buildFrom hw A hsame hE hI rest (level + 1)
      rw [buildFrom_cons]
      refine Gives.bind gives_tick ?_
      rintro steps _ rfl
      refine Gives.bind (hE.condition.and (hI.condition S.tidy.heap hs)) ?_
      rintro ⟨found, ws, engine⟩ m₁ ⟨⟨hu, hcached⟩, hs₁⟩
      have S₁ := S.of_unmoved hu
      have hstand : found = .cached → Standing frozen pend m₁ (E.cached engine) := by
        intro hc
        rcases hcached rfl hc with ht | ⟨hreuse, hrec⟩
        · exact S₁.tidy.standing_of_terminal ht
        · exact S₁.recorded hreuse (by rwa [Manager.Records, hu.entries])
      cases found with
      | redundant => exact hbelow _ _ _ hs₁ S₁
      | _ => exact proper_nodeStep hw A hsame hE hI hbelow hs₁ S₁ hstand

/-- A pass that starts has finished no node. -/
theorem Tidy.proper (T : Tidy m.arena.get? ∅ m table)
    (hrec : reuse → ∀ c, ¬ m.Records c) :
    Proper reuse P m.literalVariables m.arena.get? ∅ m table := by
  refine ⟨T, fun hf _ hlive => ?_, fun hreuse c hc => absurd hc (hrec hreuse c), rfl⟩
  rw [key?_eq_none_iff.2 hf] at hlive
  cases hlive

end BayesCircuit.Decision
