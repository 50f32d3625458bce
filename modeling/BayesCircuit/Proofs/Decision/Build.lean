import BayesCircuit.Proofs.Decision.Outline

/-!
# Building what was planned

The main result is `buildFrom_spec`: an engine that follows an outline builds the planned tree, up
to low children that are left out when the pass collapses. The build touches no frozen node, frees
no node that was there before, and leaves the engine as it was.

The induction is on the ordering. At a literal that matters, the new node is pending while its two
children are built; `Making` is what holds in between.
-/

namespace BayesCircuit.Decision

open Collection Action

variable {σ α : Type} {E : Engine σ} {O : Outline α} {same : Int → Int → Bool}
variable {m m' : Manager} {frozen : Handle → Option Node} {pend : Set Handle} {table : Table}
variable {h c : Handle} {k : Node.Key} {f : Handle → Option Node.Key} {D : Diagram}
variable {m₀ : Manager} {vars : Array Variable}

theorem run_tick (steps : Nat) : (tick false steps).run m = .ok (steps + 1) m := by
  simp [tick, EStateM.run, pure, EStateM.pure]

/-! ## The steps at a literal -/

/-- The high child of a new node is found. -/
def highStep (E : Engine σ) (below : Progress σ → Action (Handle × Progress σ)) (h : Handle)
    (found : Cofactor) : Progress σ → Action (Progress σ)
  | ⟨table, engine, steps⟩ =>
      match found with
      | .unsatisfied => do
          let (c, p) ← below ⟨table, engine, steps⟩
          setHigh h c
          E.record p.engine c
          return p.undo E
      | .trivial => do
          let (c, table) ← copy table (← Action.lift (E.trivial engine))
          setHigh h c
          E.record engine c
          return ⟨table, E.undo engine, steps⟩
      | .cached => do
          setHigh h (E.cached engine)
          return ⟨table, E.undo engine, steps⟩
      | .satisfiable => do
          setHigh h Handle.true'
          return ⟨table, E.undo engine, steps⟩
      | _ => do
          setHigh h Handle.false'
          return ⟨table, E.undo engine, steps⟩

/-- The low child of a new node is found. -/
def lowStep (E : Engine σ) (below : Progress σ → Action (Handle × Progress σ)) (h : Handle)
    (level : Nat) (found : Cofactor) : Progress σ → Action (Progress σ)
  | ⟨table, engine, steps⟩ =>
      match found with
      | .unsatisfied => do
          let (c, p) ← below ⟨table, engine, steps⟩
          setLow h c
          return p.undo E
      | .trivial => do
          let (c, table) ← copy table (← Action.lift (E.trivial engine))
          setLow h c
          return ⟨table, E.undo engine, steps⟩
      | .satisfiable => do
          setLow h Handle.true'
          return ⟨table, E.undo engine, steps⟩
      | .unsatisfiable => do
          setLow h Handle.false'
          return ⟨table, E.undo engine, steps⟩
      | found => unexpected h level found

/-- A literal that matters gives a node. -/
def nodeStep (E : Engine σ) (collapse expired : Bool) (l : Literal) (rest : List Literal)
    (level : Nat) (found : Cofactor) (weights : Weights) (p : Progress σ) :
    Action (Handle × Progress σ) := do
  let h ← create l (nodeWeights found weights)
  let ⟨table, engine, steps⟩ ←
    highStep E (buildFrom E collapse expired rest (level + 1)) h found p
  let steps ← tick expired steps
  let (found, _, engine) ← E.condition engine l rest.head? false
  let p ← lowStep E (buildFrom E collapse expired rest (level + 1)) h level found
    ⟨table, engine, steps⟩
  finish collapse expired h p

theorem buildFrom_cons (collapse expired : Bool) (l : Literal) (rest : List Literal) (level : Nat)
    (p : Progress σ) :
    buildFrom E collapse expired (l :: rest) level p = (do
      let steps ← tick expired p.steps
      let (found, weights, engine) ← E.condition p.engine l rest.head? true
      match found with
      | .redundant => buildFrom E collapse expired rest (level + 1) ⟨p.table, engine, steps⟩
      | found =>
          nodeStep E collapse expired l rest level found weights ⟨p.table, engine, steps⟩) := by
  cases p
  rw [buildFrom]
  refine bind_congr fun steps => bind_congr fun r => ?_
  obtain ⟨found, weights, engine⟩ := r
  cases found <;> rfl

/-! ## A node in the making -/

/-- What holds while the children of the pending node `h` are built, which was made in `m₀`. -/
structure Making (F : E.Follows O frozen vars same) (pend : Set Handle) (m₀ : Manager)
    (h : Handle) (k : Node.Key) (m : Manager) (table : Table) : Prop where
  tidy : Tidy frozen (insert h pend) m table
  grows : Grows m₀ m
  start : Attached frozen pend m₀.key?
  new : m₀.key? h = none
  known : F.Known (insert h pend) m
  key : m.key? h = some k
  literalVariables : m.literalVariables = vars

variable {F : E.Follows O frozen vars same}

theorem Unmoved.key? (hu : Unmoved m m') : m'.key? = m.key? := key?_congr hu.arena

theorem Unmoved.retains (hu : Unmoved m m') : Retains frozen pend m m' := by
  intro k c hk
  rw [hu.entries] at hk
  exact ⟨hk, fun D _ _ hD => by rwa [hu.key?]⟩

theorem Engine.Follows.known_of_unmoved (F : E.Follows O frozen vars same)
    (hK : F.Known pend m) (hu : Unmoved m m') : F.Known pend m' :=
  F.known_mono hK hu.retains fun _ hh => Or.inl hh

theorem Making.congr (M : Making F pend m₀ h k m table) (ha : m'.arena = m.arena)
    (hv : m'.literalVariables = m.literalVariables) (hb : m'.tableBits = m.tableBits)
    (hK : F.Known (insert h pend) m') : Making F pend m₀ h k m' table := by
  have hkey : m'.key? = m.key? := key?_congr ha
  refine ⟨M.tidy.congr ha, M.grows.trans ⟨?_, hv, hb⟩, M.start, M.new, hK, ?_,
    hv.trans M.literalVariables⟩
  · rw [hkey]
    exact id
  · rw [hkey]
    exact M.key

/-- An edge of the pending node that led to a terminal is set to a finished diagram. -/
theorem Making.attach {k' : Node.Key} (M : Making F pend m₀ h k m table)
    (hA : Attached frozen (insert c (insert h pend)) m.key?) (H' : Heap frozen 0 m')
    (hr : Rekeys m m' (Function.update m.key? h (some k')))
    (hhigh : k'.high ∉ insert h pend) (hlow : k'.low ∉ insert h pend)
    (hc : k'.high = c ∨ k'.low = c)
    (hold : ∀ j, frozen j = none → k.high = j ∨ k.low = j → k'.high = j ∨ k'.low = j) :
    Making F pend m₀ h k' m' table ∧ Attached frozen (insert h pend) m'.key? := by
  have hh : h ∈ insert h pend := Set.mem_insert _ _
  have hhf := M.tidy.young hh
  have hother : ∀ {j}, j ≠ h → m'.key? j = m.key? j := by
    intro j hj
    rw [hr.key, Function.update_of_ne hj]
  have hkh : m'.key? h = some k' := by simp [hr.key]
  refine ⟨⟨M.tidy.set H' hr hh hhigh hlow, ⟨?_, hr.literalVariables.trans M.grows.literalVariables,
    hr.tableBits.trans M.grows.tableBits⟩, M.start, M.new, ?_, hkh,
    hr.literalVariables.trans M.literalVariables⟩, ?_⟩
  · intro j kj hj
    rw [hother, M.grows.key hj]
    rintro rfl
    rw [M.new] at hj
    cases hj
  · refine F.known_mono M.known ?_ fun _ hj => Or.inl hj
    intro p r hp
    rw [hr.products] at hp
    refine ⟨hp, fun D hrf hrp hD => ?_⟩
    rw [hr.key]
    exact hD.update_of_not_pointed M.tidy.heap.closed (M.tidy.unpointed hh) hrf
      (fun he => hrp (he ▸ hh))
  · intro j kj hj hkj
    by_cases hjh : j = h
    · exact Or.inl (hjh ▸ hh)
    rw [hother hjh] at hkj
    rcases hA j kj hj hkj with hs | ⟨i, ki, hi, hki, hkij⟩
    · rcases Set.mem_insert_iff.1 hs with rfl | hs
      · exact Or.inr ⟨h, k', hhf, hkh, hc⟩
      · exact Or.inl hs
    · refine Or.inr ?_
      by_cases hih : i = h
      · subst hih
        rw [M.key] at hki
        cases hki
        exact ⟨i, k', hhf, hkh, hold j hj hkij⟩
      · exact ⟨i, ki, hi, by rw [hother hih, hki], hkij⟩

/-- A finished diagram is attached to a pending node. -/
theorem Making.setHigh {l : Int} {ws : Weights} (M : Making F pend m₀ h ⟨l, Handle.false',
      Handle.false', ws⟩ m table)
    (hA : Attached frozen (insert c (insert h pend)) m.key?) (hD : Denotes m.key? c D)
    (hc : Ready frozen (insert h pend) c) :
    Ends (setHigh h c) m fun _ m' =>
      (Making F pend m₀ h ⟨l, c, Handle.false', ws⟩ m' table ∧
        Attached frozen (insert h pend) m'.key?) ∧ Denotes m'.key? c D := by
  have hh : h ∈ insert h pend := Set.mem_insert _ _
  have hfalse : Handle.false' ∉ insert h pend := M.tidy.not_mem_of_terminal rfl
  have hne : c ≠ h := fun he => hc.finished (he ▸ hh)
  refine Ends.mono (setHigh_spec M.tidy.heap M.key (M.tidy.young hh)
    (sound_of_denotes hc.young hD)) ?_
  rintro _ m' ⟨H', hr⟩
  refine ⟨M.attach hA H' hr hc.finished hfalse (Or.inl rfl) ?_, ?_⟩
  · rintro j hj (rfl | rfl)
    · have := M.tidy.heap.terminal _ (rfl : Handle.false'.isTerminal = true)
      simp [hj] at this
    · exact Or.inr rfl
  · rw [hr.key]
    exact hD.update_of_not_pointed M.tidy.heap.closed (M.tidy.unpointed hh) hc.young hne

theorem Making.setLow {l : Int} {ws : Weights} {high : Handle} {H : Diagram}
    (M : Making F pend m₀ h ⟨l, high, Handle.false', ws⟩ m table)
    (hA : Attached frozen (insert c (insert h pend)) m.key?) (hD : Denotes m.key? c D)
    (hc : Ready frozen (insert h pend) c) (hH : Denotes m.key? high H) :
    Ends (setLow h c) m fun _ m' => (Making F pend m₀ h ⟨l, high, c, ws⟩ m' table ∧
        Attached frozen (insert h pend) m'.key?) ∧ Denotes m'.key? h (.branch l ws H D) := by
  have hh : h ∈ insert h pend := Set.mem_insert _ _
  have hhf := M.tidy.young hh
  have hne : c ≠ h := fun he => hc.finished (he ▸ hh)
  have hhigh : high ∉ insert h pend := fun hp =>
    M.tidy.unpointed hp ⟨h, _, hhf, M.key, Or.inl rfl⟩
  refine Ends.mono (setLow_spec M.tidy.heap M.key hhf (sound_of_denotes hc.young hD)) ?_
  rintro _ m' ⟨H', hr⟩
  have M' := M.attach hA H' hr hhigh hc.finished (Or.inr rfl) (by
    rintro j hj (rfl | rfl)
    · exact Or.inl rfl
    · have := M.tidy.heap.terminal _ (rfl : Handle.false'.isTerminal = true)
      simp [hj] at this)
  refine ⟨M', .node (M.tidy.heap.not_terminal hhf) M'.1.key ?_ ?_⟩
  · rw [hr.key]
    exact hH.update_of_not_pointed M.tidy.heap.closed (M.tidy.unpointed hh)
      (M.tidy.heap.closed h _ hhf M.key).1 (fun he => hhigh (he ▸ hh))
  · rw [hr.key]
    exact hD.update_of_not_pointed M.tidy.heap.closed (M.tidy.unpointed hh) hc.young hne

/-! ## Finishing a node -/

/-- What has been built, and what its building leaves. -/
structure Built (F : E.Follows O frozen vars same) (pend : Set Handle) (m₀ : Manager) (T : Diagram)
    (s : σ) (r : Handle × Progress σ) (m : Manager) : Prop where
  tidy : Tidy frozen pend m r.2.table
  denotes : ∃ D, Denotes m.key? r.1 D ∧ Shrinks same F.Plain T D
  ready : Ready frozen pend r.1
  grows : Grows m₀ m
  known : F.Known pend m
  attached : Attached frozen (insert r.1 pend) m.key?
  alike : F.Alike s r.2.engine

theorem Merged.retains {r : Handle × Table} (M : Merged frozen pend m h k r m')
    (T : Tidy frozen (insert h pend) m table) : Retains frozen (insert h pend) m m' := by
  have hkey : m'.key? = Function.update m.key? h (m'.key? h) := by
    funext j
    by_cases hj : j = h
    · simp [hj]
    · rw [Function.update_of_ne hj, M.others hj]
  intro p c hc
  rw [M.products] at hc
  refine ⟨hc, fun D hcf hcp hD => ?_⟩
  rw [hkey]
  refine hD.update_of_not_pointed T.heap.closed (T.unpointed (Set.mem_insert _ _)) hcf ?_
  rintro rfl
  exact hcp (Set.mem_insert _ _)

theorem Making.merge (M : Making F pend m₀ h k m table) (hh : h ∉ pend)
    (hA : Attached frozen (insert h pend) m.key?) (hD : Denotes m.key? h D) :
    Ends (merge table h) m fun r m' => Tidy frozen pend m' r.2 ∧ Denotes m'.key? r.1 D ∧
      Ready frozen pend r.1 ∧ Grows m₀ m' ∧ F.Known pend m' ∧
      Attached frozen (insert r.1 pend) m'.key? := by
  have hmem : h ∈ insert h pend := Set.mem_insert _ _
  have hhf := M.tidy.young hmem
  refine Ends.mono (merge_spec M.tidy M.key hh) ?_
  rintro ⟨c, table'⟩ m' G
  have hkey : m'.key? = Function.update m.key? h (m'.key? h) := by
    funext j
    by_cases hj : j = h
    · simp [hj]
    · rw [Function.update_of_ne hj, G.others hj]
  -- the children of the node are other nodes, and they stay
  have hchild : ∀ {j D}, k.high = j ∨ k.low = j → Denotes m.key? j D → Denotes m'.key? j D := by
    intro j D hj hDj
    rw [hkey]
    refine hDj.update_of_not_pointed M.tidy.heap.closed (M.tidy.unpointed hmem) ?_ ?_
    · have := M.tidy.heap.closed h k hhf M.key
      rcases hj with rfl | rfl
      · exact this.1
      · exact this.2
    · rintro rfl
      exact M.tidy.unpointed hmem ⟨j, k, hhf, M.key, hj⟩
  refine ⟨G.tidy, ?_, ⟨Or.inr G.young, G.finished⟩, ?_, ?_, G.attached pend hA⟩
  · obtain ⟨k', H, L, hk', hH, hL, rfl⟩ := hD.cases_node (M.tidy.heap.not_terminal hhf)
    rw [M.key] at hk'
    cases hk'
    exact .node (G.tidy.heap.not_terminal G.young) G.key (hchild (Or.inl rfl) hH)
      (hchild (Or.inr rfl) hL)
  · refine ⟨fun {j kj} hj => ?_, G.literalVariables.trans M.grows.literalVariables,
      G.tableBits.trans M.grows.tableBits⟩
    rw [G.others, M.grows.key hj]
    rintro rfl
    rw [M.new] at hj
    cases hj
  · exact F.known_mono M.known (G.retains M.tidy) fun j hj => Or.inl (Set.mem_insert_of_mem _ hj)

theorem finish_spec {collapse : Bool} {engine : σ} {steps : Nat}
    (hsame : ∀ {m : Manager}, m.literalVariables = vars → sameIf collapse m.sameVariable = same)
    (M : Making F pend m₀ h k m table) (hh : h ∉ pend)
    (hA : Attached frozen (insert h pend) m.key?) (hD : Denotes m.key? h D) :
    Ends (finish collapse false h ⟨table, engine, steps⟩) m fun r m' =>
      Tidy frozen pend m' r.2.table ∧ Denotes m'.key? r.1 (D.skip same) ∧
      Ready frozen pend r.1 ∧ Grows m₀ m' ∧ F.Known pend m' ∧
      Attached frozen (insert r.1 pend) m'.key? ∧ r.2.engine = engine := by
  unfold finish
  refine Ends.step (run_tick steps) ?_
  have hmem : h ∈ insert h pend := Set.mem_insert _ _
  cases collapse with
  | false =>
      simp only [Bool.false_eq_true, if_false]
      refine Ends.step (a := table) rfl (Ends.bind (M.merge hh hA hD) ?_)
      rintro ⟨c, table'⟩ m' ⟨T', hD', hr, hg, hK, hA⟩
      have hskip : D.skip same = D := hsame M.literalVariables ▸ skip_of_false
      exact Ends.pure ⟨T', hskip.symm ▸ hD', hr, hg, hK, hA, rfl⟩
  | true =>
      simp only [if_true]
      refine Ends.step (a := m.arena.size + 1) rfl ?_
      have K : Keeps frozen (insert h pend) m₀.key? m :=
        ⟨M.grows.key, M.start.mono (Set.subset_insert _ _)⟩
      refine Ends.bind (collapseNode_spec M.tidy K hmem M.new hD
        (Nat.le_succ_of_le hD.depth_le_size)) ?_
      rintro ⟨b, table₁⟩ m₁ ⟨S, hD'⟩
      have hif : m.sameVariable = sameIf true m.sameVariable := sameIf_true.symm
      rw [hif, hsame M.literalVariables] at hD'
      have ht : h.isTerminal = false := M.tidy.heap.not_terminal (M.tidy.young hmem)
      obtain ⟨k₁, _, _, hk₁, _⟩ := hD'.cases_node ht
      have M₁ : Making F pend m₀ h k₁ m₁ table₁ :=
        ⟨S.tidy, ⟨S.kept, S.literalVariables.trans M.grows.literalVariables,
          S.tableBits.trans M.grows.tableBits⟩, M.start, M.new,
          F.known_mono M.known S.retains fun _ hj => Or.inl hj, hk₁,
          S.literalVariables.trans M.literalVariables⟩
      refine Ends.step (a := table₁) rfl (Ends.bind (M₁.merge hh (S.attached _ hA) hD') ?_)
      rintro ⟨c, table'⟩ m' ⟨T', hD'', hr, hg, hK, hA⟩
      exact Ends.pure ⟨T', hD'', hr, hg, hK, hA, rfl⟩

/-! ## The children of a node -/

/-- A computation builds what is planned for the rest of an ordering. -/
def Builds (F : E.Follows O frozen vars same)
    (below : Progress σ → Action (Handle × Progress σ)) (rest : List Literal) : Prop :=
  ∀ {pend m p a T}, F.Holds rest p.engine a → O.plan rest a = some T →
    Tidy frozen pend m p.table → F.Known pend m → Attached frozen pend m.key? →
    m.literalVariables = vars → Ends (below p) m (Built F pend m T p.engine)

variable {below : Progress σ → Action (Handle × Progress σ)} {rest : List Literal}
variable {l : Literal} {a a' : α} {s t : σ} {found expected : Cofactor} {ws : Weights}
variable {steps level : Nat} {T : Diagram}

/-- A pending node is still in the making after something was built beside it. -/
theorem Making.of_built {r : Handle × Progress σ} (M : Making F pend m₀ h k m table)
    (R : Built F (insert h pend) m T s r m') : Making F pend m₀ h k m' r.2.table :=
  ⟨R.tidy, M.grows.trans R.grows, M.start, M.new, R.known, R.grows.key M.key,
    R.grows.literalVariables.trans M.literalVariables⟩

theorem Making.of_copied {table' : Table} (M : Making F pend m₀ h k m table)
    (C : Copied frozen (insert h pend) m D c table' m') : Making F pend m₀ h k m' table' :=
  ⟨C.tidy, M.grows.trans C.grows, M.start, M.new,
    F.known_mono M.known (Retains.of_grows C.grows C.products) fun _ hj => Or.inl hj,
    C.grows.key M.key, C.grows.literalVariables.trans M.literalVariables⟩

theorem highStep_spec (hw : WellFormed frozen) (B : Builds F below rest)
    (hs : F.Holds (l :: rest) s a)
    (A : Answers E O frozen (insert h pend) same F.Plain F.Holds F.Alike rest s
      (O.high a l rest.head?).1 (O.high a l rest.head?).2.2 found t m)
    (M : Making F pend m₀ h ⟨l.value, Handle.false', Handle.false', ws⟩ m table)
    (hA : Attached frozen (insert h pend) m.key?)
    (hT : O.child (O.high a l rest.head?).1 (O.plan rest (O.high a l rest.head?).2.2)
      (O.high a l rest.head?).2.2 = some T) :
    Ends (highStep E below h found ⟨table, t, steps⟩) m fun p m' => ∃ c D,
      Making F pend m₀ h ⟨l.value, c, Handle.false', ws⟩ m' p.table ∧
      Attached frozen (insert h pend) m'.key? ∧ Denotes m'.key? c D ∧ Shrinks same F.Plain T D ∧
      F.Alike s p.engine := by
  have hagree : found ≠ .cached → (O.high a l rest.head?).1 = found := by
    intro hf
    rcases A.agrees with he | ⟨hc, _⟩
    · exact he.symm
    · exact absurd hc hf
  have hleaf : ∀ {b : Bool} {c : Handle}, c.isTerminal = true →
      Denotes m.key? c (.leaf b) → T = .leaf b →
      Ends (do setHigh h c; return ⟨table, E.undo t, steps⟩) m
        fun (p : Progress σ) m' => ∃ c D,
          Making F pend m₀ h ⟨l.value, c, Handle.false', ws⟩ m' p.table ∧
          Attached frozen (insert h pend) m'.key? ∧ Denotes m'.key? c D ∧ Shrinks same F.Plain T D ∧
          F.Alike s p.engine := by
    rintro b c hc hD rfl
    refine Ends.bind (M.setHigh (hA.mono (Set.subset_insert _ _)) hD
      (M.tidy.ready_of_terminal hc)) ?_
    rintro _ m' ⟨⟨M', hA'⟩, hD'⟩
    exact Ends.pure ⟨c, _, M', hA', hD', .leaf, A.undo (F.alike_refl t)⟩
  cases found with
  | unsatisfied =>
      have he := hagree (by decide)
      rw [he] at hT
      refine Ends.bind (B (A.holds (Or.inl he)) hT M.tidy M.known hA M.literalVariables) ?_
      rintro ⟨c, p⟩ m₁ R
      obtain ⟨D, hD, hred⟩ := R.denotes
      have M₁ := M.of_built R
      refine Ends.bind (M₁.setHigh R.attached hD R.ready) ?_
      rintro _ m₂ ⟨⟨M₂, hA₂⟩, hD₂⟩
      refine Ends.bind (F.record hs (Or.inl he) (F.holds_alike R.alike (A.holds (Or.inl he))) M₂.known
        (by rw [he]; exact hT) hD₂ hred R.ready) ?_
      rintro _ m₃ ⟨ha, hv, hb, hK⟩
      have M₃ := M₂.congr ha hv hb hK
      have hkey : m₃.key? = m₂.key? := key?_congr ha
      exact Ends.pure ⟨c, D, M₃, hkey ▸ hA₂, hkey ▸ hD₂, hred, A.undo R.alike⟩
  | trivial =>
      have he := hagree (by decide)
      obtain ⟨r, hr, hDr, hplain⟩ := A.trivial rfl
      have hT' : T = O.other (O.high a l rest.head?).2.2 := by
        rw [he] at hT
        exact (Option.some.inj hT).symm
      refine Ends.lift hr (Ends.bind (copy_spec hw M.tidy hDr) ?_)
      rintro ⟨c, table'⟩ m₁ C
      have M₁ := M.of_copied C
      refine Ends.bind (M₁.setHigh (C.attached _ hA) C.denotes C.ready) ?_
      rintro _ m₂ ⟨⟨M₂, hA₂⟩, hD₂⟩
      have hred : Shrinks same F.Plain T (O.other (O.high a l rest.head?).2.2) := by
        rw [hT']
        exact .of_collapsed hplain
      refine Ends.bind (F.record hs (Or.inr he) (A.holds (Or.inr he)) M₂.known hT hD₂ hred
        C.ready) ?_
      rintro _ m₃ ⟨ha, hv, hb, hK⟩
      have M₃ := M₂.congr ha hv hb hK
      have hkey : m₃.key? = m₂.key? := key?_congr ha
      exact Ends.pure ⟨c, _, M₃, hkey ▸ hA₂, hkey ▸ hD₂, hred, A.undo (F.alike_refl t)⟩
  | cached =>
      have hfound : ∃ D, Denotes m.key? (E.cached t) D ∧ Shrinks same F.Plain T D ∧
          Ready frozen (insert h pend) (E.cached t) := by
        rcases A.agrees with he | ⟨_, _, hc⟩
        · rw [← he] at hT
          cases hT
        · exact hc T hT
      obtain ⟨D, hD, hred, hready⟩ := hfound
      refine Ends.bind (M.setHigh (hA.mono (Set.subset_insert _ _)) hD hready) ?_
      rintro _ m' ⟨⟨M', hA'⟩, hD'⟩
      exact Ends.pure ⟨_, D, M', hA', hD', hred, A.undo (F.alike_refl t)⟩
  | satisfiable =>
      rw [hagree (by decide)] at hT
      exact hleaf rfl .true' (Option.some.inj hT).symm
  | unsatisfiable =>
      rw [hagree (by decide)] at hT
      exact hleaf rfl .false' (Option.some.inj hT).symm
  | redundant => exact absurd (hagree (by decide)) A.ne_redundant

theorem lowStep_spec {high : Handle} {H : Diagram} (hw : WellFormed frozen)
    (B : Builds F below rest)
    (A : Answers E O frozen ∅ same F.Plain F.Holds F.Alike rest s expected a' found t m)
    (hc : found ≠ .cached)
    (M : Making F pend m₀ h ⟨l.value, high, Handle.false', ws⟩ m table)
    (hA : Attached frozen (insert h pend) m.key?) (hH : Denotes m.key? high H)
    (hT : O.child expected (O.plan rest a') a' = some T) :
    Ends (lowStep E below h level found ⟨table, t, steps⟩) m fun p m' => ∃ k D,
      Making F pend m₀ h k m' p.table ∧ Attached frozen (insert h pend) m'.key? ∧
      Denotes m'.key? h (.branch l.value ws H D) ∧ Shrinks same F.Plain T D ∧
      F.Alike s p.engine := by
  have he : expected = found := by
    rcases A.agrees with he | ⟨hf, _⟩
    · exact he.symm
    · exact absurd hf hc
  subst he
  have hleaf : ∀ {b : Bool} {c : Handle}, c.isTerminal = true →
      Denotes m.key? c (.leaf b) → T = .leaf b →
      Ends (do setLow h c; return ⟨table, E.undo t, steps⟩) m
        fun (p : Progress σ) m' => ∃ k D, Making F pend m₀ h k m' p.table ∧
          Attached frozen (insert h pend) m'.key? ∧
          Denotes m'.key? h (.branch l.value ws H D) ∧ Shrinks same F.Plain T D ∧
          F.Alike s p.engine := by
    rintro b c hc hD rfl
    refine Ends.bind (M.setLow (hA.mono (Set.subset_insert _ _)) hD
      (M.tidy.ready_of_terminal hc) hH) ?_
    rintro _ m' ⟨⟨M', hA'⟩, hD'⟩
    exact Ends.pure ⟨_, _, M', hA', hD', .leaf, A.undo (F.alike_refl t)⟩
  cases expected with
  | unsatisfied =>
      refine Ends.bind (B (A.holds (Or.inl rfl)) hT M.tidy M.known hA M.literalVariables) ?_
      rintro ⟨c, p⟩ m₁ R
      obtain ⟨D, hD, hred⟩ := R.denotes
      refine Ends.bind ((M.of_built R).setLow R.attached hD R.ready (R.grows.denotes hH)) ?_
      rintro _ m₂ ⟨⟨M₂, hA₂⟩, hD₂⟩
      exact Ends.pure ⟨_, D, M₂, hA₂, hD₂, hred, A.undo R.alike⟩
  | trivial =>
      obtain ⟨r, hr, hDr, hplain⟩ := A.trivial rfl
      have hT' : T = O.other a' := (Option.some.inj hT).symm
      refine Ends.lift hr (Ends.bind (copy_spec hw M.tidy hDr) ?_)
      rintro ⟨c, table'⟩ m₁ C
      refine Ends.bind ((M.of_copied C).setLow (C.attached _ hA) C.denotes C.ready
        (C.grows.denotes hH)) ?_
      rintro _ m₂ ⟨⟨M₂, hA₂⟩, hD₂⟩
      subst hT'
      exact Ends.pure ⟨_, _, M₂, hA₂, hD₂, .of_collapsed hplain, A.undo (F.alike_refl t)⟩
  | cached => exact absurd rfl hc
  | satisfiable => exact hleaf rfl .true' (Option.some.inj hT).symm
  | unsatisfiable => exact hleaf rfl .false' (Option.some.inj hT).symm
  | redundant => exact absurd rfl A.ne_redundant

/-! ## The induction -/

/-- A young node that was made after the answer was given is not what the answer refers to. -/
theorem Answers.grows
    (A : Answers E O frozen pend same F.Plain F.Holds F.Alike rest s expected a' found t m)
    (hg : Grows m m') (hnone : m.key? h = none) (hf : h.isTerminal = false) :
    Answers E O frozen (insert h pend) same F.Plain F.Holds F.Alike rest s expected a' found t m' := by
  refine ⟨A.holds, A.undo, A.ne_redundant, ?_, A.trivial⟩
  rcases A.agrees with he | ⟨hc, hne, hT⟩
  · exact Or.inl he
  · refine Or.inr ⟨hc, hne, fun T hplan => ?_⟩
    obtain ⟨D, hD, hred, hready⟩ := hT T hplan
    refine ⟨D, hg.denotes hD, hred, hready.young, ?_⟩
    rw [Set.mem_insert_iff]
    rintro (he | hp)
    · rw [he] at hD
      obtain ⟨k, _, _, hk, _⟩ := hD.cases_node hf
      rw [hnone] at hk
      cases hk
    · exact hready.finished hp

/-- The tree of a literal that matters is put together from the trees of its cofactors. -/
theorem plan_cons (hne : (O.high a l rest.head?).1 ≠ .redundant)
    (hT : O.plan (l :: rest) a = some T) :
    ∃ H L, O.child (O.high a l rest.head?).1 (O.plan rest (O.high a l rest.head?).2.2)
        (O.high a l rest.head?).2.2 = some H ∧
      O.child (O.low a l rest.head?).1 (O.plan rest (O.low a l rest.head?).2)
        (O.low a l rest.head?).2 = some L ∧
      T = .branch l.value (nodeWeights (O.high a l rest.head?).1 (O.high a l rest.head?).2.1)
        H L := by
  simp only [Outline.plan, hne, if_false] at hT
  split at hT
  · rename_i H L hH hL
    exact ⟨H, L, hH, hL, (Option.some.inj hT).symm⟩
  · cases hT

theorem nodeStep_spec {collapse : Bool} {p : Progress σ} (hw : WellFormed frozen)
    (hsame : ∀ {m : Manager}, m.literalVariables = vars → sameIf collapse m.sameVariable = same)
    (B : Builds F (buildFrom E collapse false rest (level + 1)) rest)
    (hs : F.Holds (l :: rest) s a) (hne : (O.high a l rest.head?).1 ≠ .redundant)
    (hT : O.plan (l :: rest) a = some T) (Tt : Tidy frozen pend m p.table)
    (hK : F.Known pend m) (hA : Attached frozen pend m.key?) (hv : m.literalVariables = vars)
    (A : Answers E O frozen pend same F.Plain F.Holds F.Alike rest s (O.high a l rest.head?).1
      (O.high a l rest.head?).2.2 found p.engine m) :
    Ends (nodeStep E collapse false l rest level found (O.high a l rest.head?).2.1 p) m
      (Built F pend m T s) := by
  obtain ⟨H, L, hH, hL, rfl⟩ := plan_cons hne hT
  obtain ⟨hpos, hasc⟩ := F.positive hs hne
  have hweights : nodeWeights found (O.high a l rest.head?).2.1 =
      nodeWeights (O.high a l rest.head?).1 (O.high a l rest.head?).2.1 := by
    rcases A.agrees with he | ⟨hc, hu, _⟩
    · rw [he]
    · rw [hc]
      simp [nodeWeights, hu]
  unfold nodeStep
  rw [hweights]
  refine Ends.bind (create_spec Tt.heap hpos (by unfold nodeWeights; split; rfl; exact hasc)) ?_
  rintro h m₁ ⟨hnone, hf, H₁, hr₁⟩
  have hterm : h.isTerminal = false := Tt.heap.not_terminal hf
  have hfalse : Sound frozen m Handle.false' := Or.inl rfl
  have hfalse' : Handle.false' ∉ pend := Tt.not_mem_of_terminal rfl
  have hg₁ : Grows m m₁ := by
    refine ⟨fun {j k} hk => ?_, hr₁.literalVariables, hr₁.tableBits⟩
    rw [hr₁.key, Function.update_of_ne, hk]
    rintro rfl
    rw [hnone] at hk
    cases hk
  have M₁ : Making F pend m h ⟨l.value, Handle.false', Handle.false', nodeWeights
      (O.high a l rest.head?).1 (O.high a l rest.head?).2.1⟩ m₁ p.table :=
    ⟨Tt.add H₁ hnone hf hr₁ hfalse hfalse hfalse' hfalse', hg₁, hA, hnone,
      F.known_mono hK (Retains.of_grows hg₁ hr₁.products)
        (fun j hj => (Set.mem_insert_iff.1 hj).symm.imp_right (by rintro rfl; exact ⟨hnone, hterm⟩)),
      by simp [hr₁.key], hr₁.literalVariables.trans hv⟩
  have hA₁ : Attached frozen (insert h pend) m₁.key? := by
    intro j k hj hk
    by_cases hjh : j = h
    · exact Or.inl (hjh ▸ Set.mem_insert _ _)
    rw [hr₁.key, Function.update_of_ne hjh] at hk
    rcases hA j k hj hk with hs | ⟨i, ki, hi, hki, hkij⟩
    · exact Or.inl (Set.mem_insert_of_mem _ hs)
    · exact Or.inr ⟨i, ki, hi, hg₁.key hki, hkij⟩
  have hh : h ∉ pend := by
    intro hp
    have := Tt.live hp
    simp [hnone] at this
  obtain ⟨table, engine, steps⟩ := p
  refine Ends.bind (highStep_spec hw B hs (A.grows hg₁ hnone hterm) M₁ hA₁ hH) ?_
  rintro ⟨table₂, t₂, steps₂⟩ m₂ ⟨c, D₁, M₂, hA₂, hD₁, hred₁, halike₂⟩
  refine Ends.step (run_tick steps₂) ?_
  have hs₂ := F.holds_alike halike₂ hs
  refine Ends.bind (F.low hs₂ hne M₂.tidy.heap M₂.literalVariables) ?_
  rintro ⟨found₃, ws₃, t₃⟩ m₃ ⟨hu, hfound, hcached, A₃⟩
  have M₃ := M₂.congr hu.arena hu.literalVariables hu.tableBits (F.known_of_unmoved M₂.known hu)
  refine Ends.bind (lowStep_spec (m := m₃) (s := t₂) hw B
    ⟨A₃.holds, A₃.undo, A₃.ne_redundant, Or.inl hfound, A₃.trivial⟩ hcached M₃
    (hu.key? ▸ hA₂) (hu.key? ▸ hD₁) hL) ?_
  rintro ⟨table₄, t₄, steps₄⟩ m₄ ⟨k, D₂, M₄, hA₄, hD, hred₂, halike₄⟩
  refine Ends.mono (finish_spec hsame M₄ hh hA₄ hD) ?_
  rintro ⟨r, p⟩ m₅ ⟨T₅, hD', hready, hg, hK₅, hA₅, heng⟩
  refine ⟨T₅, ⟨_, hD', .node hred₁ hred₂⟩, hready, hg, hK₅, hA₅, ?_⟩
  rw [heng]
  exact F.alike_trans halike₂ halike₄

/-- An engine that follows an outline builds what the outline plans. -/
theorem buildFrom_spec {collapse : Bool} (F : E.Follows O frozen vars same)
    (hw : WellFormed frozen)
    (hsame : ∀ {m : Manager}, m.literalVariables = vars → sameIf collapse m.sameVariable = same) :
    ∀ ls level {pend m p a T}, F.Holds ls p.engine a → O.plan ls a = some T →
      Tidy frozen pend m p.table → F.Known pend m → Attached frozen pend m.key? →
      m.literalVariables = vars →
      Ends (buildFrom E collapse false ls level p) m (Built F pend m T p.engine)
  | [], level, _, _, _, _, _ => by
      intro _ hT
      cases hT
  | l :: rest, level, pend, m, p, a, T => by
      intro hs hT Tt hK hA hv
      have B : Builds F (buildFrom E collapse false rest (level + 1)) rest :=
        buildFrom_spec F hw hsame rest (level + 1)
      rw [buildFrom_cons]
      refine Ends.step (run_tick p.steps) ?_
      by_cases hred : (O.high a l rest.head?).1 = .redundant
      · refine Ends.bind (F.high_redundant hs hred Tt.heap hK hv) ?_
        rintro ⟨found, ws, t⟩ m₁ ⟨hu, rfl, halike⟩
        have hT' : O.plan rest a = some T := by
          simpa only [Outline.plan, hred, if_true] using hT
        have hhold := F.holds_alike halike (F.skip hs hred)
        refine Ends.mono (B (p := ⟨p.table, t, p.steps + 1⟩) hhold hT' (Tt.congr hu.arena)
          (F.known_of_unmoved hK hu) (hu.key? ▸ hA) (hu.literalVariables.trans hv)) ?_
        intro r m' R
        have hg : Grows m m₁ := ⟨by rw [hu.key?]; exact id, hu.literalVariables, hu.tableBits⟩
        exact ⟨R.tidy, R.denotes, R.ready, hg.trans R.grows, R.known, R.attached,
          F.alike_trans halike R.alike⟩
      · refine Ends.bind (F.high hs hred Tt.heap hK hv) ?_
        rintro ⟨found, ws, t⟩ m₁ ⟨hu, hws, A⟩
        dsimp only at hws A
        have hfound : found ≠ .redundant := by
          rcases A.agrees with he | ⟨hc, _⟩
          · rwa [he]
          · rw [hc]
            decide
        have A₁ : Answers E O frozen pend same F.Plain F.Holds F.Alike rest p.engine
            (O.high a l rest.head?).1 (O.high a l rest.head?).2.2 found t m₁ := by
          refine ⟨A.holds, A.undo, A.ne_redundant, ?_, A.trivial⟩
          rw [hu.key?]
          exact A.agrees
        have hnode := nodeStep_spec (p := ⟨p.table, t, p.steps + 1⟩) hw hsame B hs hred hT
          (Tt.congr hu.arena) (F.known_of_unmoved hK hu) (hu.key? ▸ hA)
          (hu.literalVariables.trans hv) A₁
        have hg : Grows m m₁ := ⟨by rw [hu.key?]; exact id, hu.literalVariables, hu.tableBits⟩
        have hmatch : ∀ x : Action (Handle × Progress σ), Ends x m₁ (Built F pend m₁ T p.engine) →
            Ends x m₁ (Built F pend m T p.engine) := by
          intro x hx
          refine Ends.mono hx ?_
          intro r m' R
          exact ⟨R.tidy, R.denotes, R.ready, hg.trans R.grows, R.known, R.attached, R.alike⟩
        subst hws
        cases found with
        | redundant => exact absurd rfl hfound
        | _ => exact hmatch _ hnode

end BayesCircuit.Decision
