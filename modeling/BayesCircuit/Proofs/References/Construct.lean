import BayesCircuit.Proofs.References.Collapse

/-!
# Construction leaves no trace

Copies, diagrams that an engine builds, products and clauses are made bottom-up. What is made is
either attached to the node above it or comes back to the caller, and what a merge frees has a
twin with the same children. So a construction adds to the nodes that somebody has to look after
only its result.
-/

namespace BayesCircuit.Decision

open Collection Action

variable {σ : Type} {m m' m'' : Manager} {frozen : Handle → Option Node} {ext : Handle → Nat}
variable {reuse : Prop} {s t : Set Handle} {h g c x : Handle} {k k' : Node.Key} {p p' : Pass}
variable {opened : Handle → Option Node.Key} {table table' : Table}

/-! ## Copies -/

/-- An edge may lead to the node. -/
structure Usable (opened : Handle → Option Node.Key) (m : Manager) (c : Handle) : Prop where
  live : c.isTerminal = true ∨ (m.key? c).isSome
  not_open : opened c = none

/-- No node has changed or gone. -/
def Stays (m m' : Manager) : Prop := ∀ {h k}, m.key? h = some k → m'.key? h = some k

theorem Usable.stays (hc : Usable opened m c) (hs : Stays m m') : Usable opened m' c := by
  refine ⟨hc.live.imp_right fun hlive => ?_, hc.not_open⟩
  obtain ⟨k, hk⟩ := Option.isSome_iff_exists.1 hlive
  rw [hs hk]
  rfl

/-- What a copy gives. -/
structure Imported (reuse : Prop) (frozen : Handle → Option Node) (ext : Handle → Nat)
    (s : Set Handle) (opened : Handle → Option Node.Key) (m : Manager) (c : Handle) (table : Table)
    (m' : Manager) : Prop where
  underway : Underway reuse frozen ext (insert c s) opened table m'
  usable : Usable opened m' c
  stays : Stays m m'
  products : m'.products = m.products

/-- The children of a node may be used. -/
theorem Underway.usable_children (U : Underway reuse frozen ext s opened table m) (hb : Bare frozen)
    (hh : h.isTerminal = false) (hk : m.key? h = some k) :
    Usable opened m k.high ∧ Usable opened m k.low := by
  obtain ⟨hhigh, hlow⟩ := U.heap.sound_of_key (hb h hh) hk
  exact ⟨⟨hhigh.imp_right And.right,
      U.not_open_of_pointed ⟨h, k, hb h hh, hk, Or.inl rfl⟩⟩,
    ⟨hlow.imp_right And.right, U.not_open_of_pointed ⟨h, k, hb h hh, hk, Or.inr rfl⟩⟩⟩

/-- A node with usable children is made and merged. -/
theorem imported_merge_makeNode {l : Literal} {high low : Handle} {ws : Weights} (hb : Bare frozen)
    (U : Underway reuse frozen ext (insert high (insert low s)) opened table m)
    (hhigh : Usable opened m high) (hlow : Usable opened m low) :
    Gives (makeNode l high low ws >>= merge table) m fun r m' =>
      Imported reuse frozen ext s opened m r.1 r.2 m' := by
  refine Gives.bind
    (underway_makeNode hb U hhigh.live hlow.live hhigh.not_open hlow.not_open) ?_
  rintro h m₁ ⟨hnone, hopen, hF, hothers, hp, U₁⟩
  refine Gives.mono (underway_merge hb U₁ hopen hF.not_recorded) ?_
  rintro ⟨c, table'⟩ m₂ S
  refine ⟨S.underway, ⟨S.live, S.not_open⟩, fun {g k} hk => ?_, by rw [S.products, hp]⟩
  have hne : g ≠ h := by
    rintro rfl
    rw [hnone] at hk
    cases hk
  rw [S.others hne, hothers hne, hk]

theorem underway_copyFrom (hb : Bare frozen) : ∀ {fuel : Nat} {h : Handle} {p : Pass}
    {m : Manager} {s : Set Handle}, Underway reuse frozen ext s opened p.table m →
    (∀ {x c : Handle}, p.finished[x]? = some c → Usable opened m c) →
    (fuel = 0 → Usable opened m h) →
    Gives (copyFrom fuel h p) m fun r m' => Imported reuse frozen ext s opened m r.1 r.2.table m' ∧
      ∀ {x c : Handle}, r.2.finished[x]? = some c → Usable opened m' c
  | 0, h, p, m, s, U, hmemo, huse =>
      Gives.pure ⟨⟨U.mono (Set.subset_insert _ _), huse rfl, id, rfl⟩, hmemo⟩
  | fuel + 1, h, p, m, s, U, hmemo, _ => by
      have U' := U.mono (Set.subset_insert h s)
      unfold copyFrom
      split
      · rename_i ht
        exact Gives.pure ⟨⟨U', ⟨Or.inl ht, U.not_open_of_terminal ht⟩, id, rfl⟩, hmemo⟩
      rename_i ht
      have hh : h.isTerminal = false := by simpa using ht
      split
      · rename_i r hr
        exact Gives.pure ⟨⟨U.mono (Set.subset_insert _ _), hmemo hr, id, rfl⟩, hmemo⟩
      refine Gives.nodeAt fun n hn => ?_
      have hk := key?_of_get? hn
      refine Gives.bind (underway_copyFrom hb U hmemo
        fun _ => (U.usable_children hb hh hk).1) ?_
      rintro ⟨c₁, p₁⟩ m₁ ⟨C₁, hmemo₁⟩
      refine Gives.bind (underway_copyFrom hb C₁.underway hmemo₁
        fun _ => (C₁.underway.usable_children hb hh (C₁.stays hk)).2) ?_
      rintro ⟨c₂, p₂⟩ m₂ ⟨C₂, hmemo₂⟩
      refine Gives.lift fun l _ => ?_
      have U₂ := C₂.underway
      rw [Set.insert_comm] at U₂
      rw [← bind_assoc]
      refine Gives.bind
        (imported_merge_makeNode hb U₂ (C₁.usable.stays C₂.stays) C₂.usable) ?_
      rintro ⟨c, table'⟩ m₃ C₃
      refine Gives.pure ⟨⟨C₃.underway, C₃.usable, fun hk => C₃.stays (C₂.stays (C₁.stays hk)), ?_⟩,
        fun {x y} hy => ?_⟩
      · rw [C₃.products, C₂.products, C₁.products]
      · rw [Std.HashMap.getElem?_insert] at hy
        split at hy
        · cases hy
          exact C₃.usable
        · exact (hmemo₂ hy).stays C₃.stays

theorem underway_copy (hb : Bare frozen) (U : Underway reuse frozen ext s opened table m) :
    Gives (copy table h) m fun r m' => Imported reuse frozen ext s opened m r.1 r.2 m' := by
  unfold copy depthBound
  refine Gives.get (Gives.bind (underway_copyFrom (p := ⟨table, ∅⟩) hb U
    (fun hc => by simp at hc) fun hfuel => absurd hfuel (Nat.succ_ne_zero _)) ?_)
  rintro ⟨c, p⟩ m' ⟨C, -⟩
  exact Gives.pure C

/-- Nobody refers to the copy yet. -/
theorem traced_copy (hb : Bare frozen) (T : Traced frozen ext s m) (hL : Listed table m) :
    Gives (copy table h) m fun r m' => Traced frozen ext (insert r.1 s) m' :=
  Gives.mono (underway_copy hb (T.underway False hL False.elim))
    fun _ _ C => C.underway.traced

/-- The twin takes the place of the node. -/
theorem traced_merge (hb : Bare frozen) (T : Traced frozen ext (insert h s) m)
    (hL : Listed table m) :
    Gives (merge table h) m fun r m' => Traced frozen ext (insert r.1 s) m' :=
  Gives.mono (underway_merge hb (T.underway False hL False.elim) rfl False.elim)
    fun _ _ S => S.underway.traced

/-! ## Building -/

variable {E : Engine σ} {below : Progress σ → Action (Handle × Progress σ)} {found : Cofactor}

/-- What is built below a node leaves no trace but its result. -/
def Constructs (reuse : Prop) (frozen : Handle → Option Node) (ext : Handle → Nat)
    (below : Progress σ → Action (Handle × Progress σ)) : Prop :=
  ∀ (s : Set Handle) (opened : Handle → Option Node.Key) (p : Progress σ) (m : Manager),
    Underway reuse frozen ext s opened p.table m →
    Gives (below p) m fun r m' =>
      Underway reuse frozen ext (insert r.1 s) opened r.2.table m' ∧ Usable opened m' r.1

/-- The result for a child is recorded once an edge leads to it. -/
theorem Underway.record (U : Underway reuse frozen ext s opened table m) (hE : E.Passive reuse)
    {e : σ} (hc : c.isTerminal = true ∨ Pointed frozen m.key? c) :
    Gives (E.record e c) m fun _ m' => Underway reuse frozen ext s opened table m' := by
  refine Gives.mono hE.record ?_
  rintro _ m' ⟨ha, hrec⟩
  refine U.congr ha fun _ v hv => ?_
  rcases hrec v hv with hv | rfl
  · exact Or.inl hv
  · exact Or.inr hc.symm

theorem underway_highStep (hE : E.Passive reuse) (hb : Bare frozen)
    (hbelow : Constructs reuse frozen ext below) (hopen : opened h = some k)
    (hold : k.high.isTerminal = true) : ∀ {p : Progress σ} {m : Manager},
    Underway reuse frozen ext s opened p.table m →
    (found = .cached → (E.cached p.engine).isTerminal = true ∨
      reuse ∧ m.Records (E.cached p.engine)) →
    Gives (highStep E below h found p) m fun q m' => ∃ c, Underway reuse frozen ext s
      (Function.update opened h (some { k with high := c })) q.table m'
  | ⟨table, engine, steps⟩, m, U, hcached => by
      have hset : ∀ {c}, opened c = none → Gives (setHigh h c) m fun _ m' =>
          Underway reuse frozen ext s (Function.update opened h (some { k with high := c }))
            table m' := fun hc =>
        Gives.mono (underway_setHigh hb (U.mono (Set.subset_insert _ _)) hopen hold hc)
          fun _ _ hq => hq.2.2.2
      cases found with
      | unsatisfied =>
          refine Gives.bind (hbelow _ _ _ _ U) ?_
          rintro ⟨c, p⟩ m₁ ⟨U₁, hc⟩
          refine Gives.bind (underway_setHigh hb U₁ hopen hold hc.not_open) ?_
          rintro _ m₂ ⟨-, -, hpc, U₂⟩
          exact Gives.bind (U₂.record hE hpc) fun _ m₃ U₃ => Gives.pure ⟨c, U₃⟩
      | trivial =>
          refine Gives.lift fun root _ => Gives.bind (underway_copy hb U) ?_
          rintro ⟨c, table'⟩ m₁ C
          refine Gives.bind (underway_setHigh hb C.underway hopen hold C.usable.not_open) ?_
          rintro _ m₂ ⟨-, -, hpc, U₂⟩
          exact Gives.bind (U₂.record hE hpc) fun _ m₃ U₃ => Gives.pure ⟨c, U₃⟩
      | cached =>
          have hc : opened (E.cached engine) = none := by
            rcases hcached rfl with ht | ⟨hreuse, hrec⟩
            · exact U.not_open_of_terminal ht
            · exact (U.recorded hreuse hrec).2
          exact Gives.bind (hset hc) fun _ _ U' => Gives.pure ⟨_, U'⟩
      | satisfiable =>
          exact Gives.bind (hset (U.not_open_of_terminal rfl)) fun _ _ U' => Gives.pure ⟨_, U'⟩
      | unsatisfiable =>
          exact Gives.bind (hset (U.not_open_of_terminal rfl)) fun _ _ U' => Gives.pure ⟨_, U'⟩
      | redundant =>
          exact Gives.bind (hset (U.not_open_of_terminal rfl)) fun _ _ U' => Gives.pure ⟨_, U'⟩

theorem underway_lowStep (hb : Bare frozen) (hbelow : Constructs reuse frozen ext below)
    (hopen : opened h = some k) (hold : k.low.isTerminal = true) {level : Nat} :
    ∀ {p : Progress σ} {m : Manager}, Underway reuse frozen ext s opened p.table m →
    Gives (lowStep E below h level found p) m fun q m' => ∃ c, Underway reuse frozen ext s
      (Function.update opened h (some { k with low := c })) q.table m'
  | ⟨table, engine, steps⟩, m, U => by
      have hset : ∀ {c}, opened c = none → Gives (setLow h c) m fun _ m' =>
          Underway reuse frozen ext s (Function.update opened h (some { k with low := c }))
            table m' := fun hc =>
        Gives.mono (underway_setLow hb (U.mono (Set.subset_insert _ _)) hopen hold hc)
          fun _ _ hq => hq.2.2
      cases found with
      | unsatisfied =>
          refine Gives.bind (hbelow _ _ _ _ U) ?_
          rintro ⟨c, p⟩ m₁ ⟨U₁, hc⟩
          exact Gives.bind (underway_setLow hb U₁ hopen hold hc.not_open)
            fun _ _ hq => Gives.pure ⟨c, hq.2.2⟩
      | trivial =>
          refine Gives.lift fun root _ => Gives.bind (underway_copy hb U) ?_
          rintro ⟨c, table'⟩ m₁ C
          exact Gives.bind (underway_setLow hb C.underway hopen hold C.usable.not_open)
            fun _ _ hq => Gives.pure ⟨c, hq.2.2⟩
      | satisfiable =>
          exact Gives.bind (hset (U.not_open_of_terminal rfl)) fun _ _ U' => Gives.pure ⟨_, U'⟩
      | unsatisfiable =>
          exact Gives.bind (hset (U.not_open_of_terminal rfl)) fun _ _ U' => Gives.pure ⟨_, U'⟩
      | redundant => exact Gives.bind_throw
      | cached => exact Gives.bind_throw

/-- An open node whose edges are set is finished. -/
theorem underway_finish (hb : Bare frozen) {collapse expired : Bool} (hopen : opened h = none) :
    ∀ {p : Progress σ} {m : Manager},
    Underway reuse frozen ext (insert h s) (Function.update opened h (some k)) p.table m →
    Gives (finish collapse expired h p) m fun r m' =>
      Underway reuse frozen ext (insert r.1 s) opened r.2.table m' ∧ Usable opened m' r.1
  | ⟨table, engine, steps⟩, m, U => by
      obtain ⟨hh, hk, -⟩ := U.open_node (Function.update_self h (some k) opened)
      have hF := U.fresh (Function.update_self h (some k) opened)
      have U' := U.close hopen
      unfold finish
      refine Gives.bind gives_tick ?_
      rintro steps' _ rfl
      split
      · unfold depthBound
        simp only [bind_assoc, pure_bind]
        refine Gives.get (Gives.bind
          (underway_collapseNode hb hopen hh U' hF.not_listed (by rw [hk]; rfl)) ?_)
        rintro ⟨_, table'⟩ m₁ ⟨U₁, S⟩
        refine Gives.bind (underway_merge hb U₁ hopen fun hreuse hrec =>
          hF.not_recorded hreuse (S.records hrec)) ?_
        rintro ⟨c, table''⟩ m₂ S₂
        exact Gives.pure ⟨S₂.underway, S₂.live, S₂.not_open⟩
      · rw [pure_bind]
        refine Gives.bind (underway_merge hb U' hopen hF.not_recorded) ?_
        rintro ⟨c, table''⟩ m₂ S₂
        exact Gives.pure ⟨S₂.underway, S₂.live, S₂.not_open⟩

theorem underway_nodeStep (hE : E.Passive reuse) (hb : Bare frozen) {collapse expired : Bool}
    {l : Literal} {rest : List Literal} {level : Nat} {ws : Weights} {p : Progress σ}
    (hbelow : Constructs reuse frozen ext (buildFrom E collapse expired rest (level + 1)))
    (U : Underway reuse frozen ext s opened p.table m)
    (hcached : found = .cached → (E.cached p.engine).isTerminal = true ∨
      reuse ∧ m.Records (E.cached p.engine)) :
    Gives (nodeStep E collapse expired l rest level found ws p) m fun r m' =>
      Underway reuse frozen ext (insert r.1 s) opened r.2.table m' ∧ Usable opened m' r.1 := by
  unfold nodeStep
  refine Gives.bind (underway_create U) ?_
  rintro h m₁ ⟨-, -, hopen, -, hp₁, U₁⟩
  refine Gives.bind (underway_highStep hE hb hbelow (Function.update_self _ _ _) rfl U₁ ?_) ?_
  · intro hc
    exact (hcached hc).imp_right fun hrec => by rwa [Manager.Records, hp₁]
  rintro ⟨table, engine, steps⟩ m₂ ⟨c₂, U₂⟩
  rw [Function.update_idem] at U₂
  refine Gives.bind gives_tick ?_
  rintro steps' _ rfl
  refine Gives.bind hE.condition ?_
  rintro ⟨found', ws', engine'⟩ m₃ ⟨hu, -⟩
  refine Gives.bind (underway_lowStep hb hbelow (Function.update_self _ _ _) rfl
    (U₂.of_unmoved hu)) ?_
  rintro p' m₄ ⟨c₄, U₄⟩
  rw [Function.update_idem] at U₄
  exact underway_finish hb hopen U₄

theorem underway_buildFrom (hE : E.Passive reuse) (hb : Bare frozen) {collapse expired : Bool} :
    ∀ ls level, Constructs reuse frozen ext (buildFrom E collapse expired ls level)
  | [], level => by
      intro s opened p m U
      unfold buildFrom exhausted
      exact Gives.bind_throw
  | l :: rest, level => by
      intro s opened p m U
      rw [buildFrom_cons]
      refine Gives.bind gives_tick ?_
      rintro steps _ rfl
      refine Gives.bind hE.condition ?_
      rintro ⟨found, ws, engine⟩ m₁ ⟨hu, hcached⟩
      have U₁ := U.of_unmoved hu
      have hbelow : Constructs reuse frozen ext (buildFrom E collapse expired rest (level + 1)) :=
        underway_buildFrom hE hb rest (level + 1)
      have hrec : found = .cached → (E.cached engine).isTerminal = true ∨
          reuse ∧ m₁.Records (E.cached engine) := by
        intro hc
        exact (hcached rfl hc).imp_right fun hr => by rwa [Manager.Records, hu.entries]
      cases found with
      | redundant => exact hbelow _ _ _ _ U₁
      | _ => exact underway_nodeStep hE hb hbelow U₁ hrec

/-- The caller gets a reference to the root. -/
theorem traced_build (hE : E.Passive reuse) (hb : Bare frozen) {engine : σ}
    {ordering : List Literal} {collapse expired : Bool} (T : Traced frozen ext s m)
    (hrec : reuse → ∀ c, ¬ m.Records c) :
    Gives (build E engine ordering collapse expired) m fun c m' =>
      Traced frozen (ext + Pi.single c 1) s m' := by
  unfold build
  refine Gives.bind gives_newTable_empty ?_
  rintro table m' ⟨hm', hvalid, hempty⟩
  obtain rfl : m = m' := hm'.symm
  refine Gives.bind (underway_buildFrom hE hb ordering 0 _ _ ⟨table, engine, 0⟩ _
    (T.underway reuse (.of_empty hvalid hempty) hrec)) ?_
  rintro ⟨root, p⟩ m₁ ⟨U₁, -⟩
  refine Gives.bind (traced_reference hb U₁.traced) ?_
  rintro _ m₂ ⟨T₂, -⟩
  exact Gives.pure T₂

theorem traced_solve (hb : Bare frozen) {r : Rows} {ordering : List Literal}
    {collapse expired : Bool} (T : Traced frozen ext s m) :
    Gives (solve r ordering collapse expired) m fun c m' =>
      Traced frozen (ext + Pi.single c 1) s m' :=
  traced_build Rows.passive hb T False.elim

/-! ## Products -/

/-- A terminal needs no reference. -/
theorem Traced.hold_terminal (T : Traced frozen ext s m) (hc : c.isTerminal = true) :
    Traced frozen (ext + Pi.single c 1) s m := by
  refine ⟨T.heap.hold_frozen (T.heap.terminal c hc), T.unfolds, T.attached.mono ?_⟩
  refine Set.union_subset_union_right _ fun g hg => ?_
  simp only [Set.mem_ofPred_eq, Pi.add_apply] at hg ⊢
  omega

/-- The caller gets a reference to the product. -/
theorem traced_conjoin (hb : Bare frozen) {a b : Handle} {ordering : List Literal}
    {collapse expired : Bool} (T : Traced frozen ext s m) :
    Gives (conjoin a b ordering collapse expired) m fun c m' =>
      Traced frozen (ext + Pi.single c 1) s m' := by
  unfold conjoin
  split
  · exact Gives.pure (T.hold_terminal rfl)
  split
  · refine Gives.bind gives_newTable_empty ?_
    rintro table m' ⟨hm', hvalid, hempty⟩
    obtain rfl : m = m' := hm'.symm
    refine Gives.bind (underway_copy hb (T.underway False
      (.of_empty hvalid hempty) False.elim)) ?_
    rintro ⟨c, table'⟩ m₁ C
    refine Gives.bind (traced_reference hb C.underway.traced) ?_
    rintro _ m₂ ⟨T₂, -⟩
    exact Gives.pure T₂
  · refine Gives.modify (traced_build Product.passive hb (T.congr rfl) ?_)
    rintro - c ⟨q, hq⟩
    simp [Memo.clear] at hq

/-- The references of the queue become one to the product. -/
theorem traced_conjoinFrom {ordering : List Literal} {collapse expired : Bool} (hb : Bare frozen) :
    ∀ (fuel : Nat) (queue : List Handle) {ext : Handle → Nat} {m : Manager},
      queue.length ≤ fuel + 1 → Traced frozen (ext + fun h => queue.count h) s m →
      Gives (conjoinFrom ordering collapse expired fuel queue) m fun c m' =>
        Traced frozen (ext + Pi.single c 1) s m'
  | fuel, [], ext, m, _, T => by
      have hpure : conjoinFrom ordering collapse expired fuel [] = pure Handle.true' := by
        cases fuel <;> rfl
      rw [hpure]
      exact Gives.pure (Traced.hold_terminal T rfl)
  | fuel, [a], ext, m, _, T => by
      have hpure : conjoinFrom ordering collapse expired fuel [a] = pure a := by
        cases fuel <;> rfl
      rw [hpure]
      rw [count_singleton_eq] at T
      exact Gives.pure T
  | 0, a :: b :: queue, _, _, hlen, _ => by simp at hlen
  | fuel + 1, a :: b :: queue, ext, m, hlen, T => by
      unfold conjoinFrom
      refine Gives.bind (Gives.tryCatch (traced_conjoin hb T) fun f m' => ?_) fun c m₁ T₁ => ?_
      · -- a conjunction that failed makes the whole fail
        dsimp only
        split
        · exact Gives.bind_throw
        · exact Gives.throw
      have hcount : (ext + (fun h => (a :: b :: queue).count h) + Pi.single c 1 : Handle → Nat) =
          ext + (fun h => (queue ++ [c]).count h) + Pi.single b 1 + Pi.single a 1 := by
        funext h
        simp only [Pi.add_apply, List.count_append, count_cons_apply, List.count_nil]
        omega
      rw [hcount] at T₁
      refine Gives.bind (traced_release hb T₁) fun _ m₂ T₂ => ?_
      refine Gives.bind (traced_release hb T₂) fun _ m₃ T₃ => ?_
      refine traced_conjoinFrom hb fuel _ ?_ T₃
      simpa using hlen

theorem traced_conjoinAll {queue : List Handle} {ordering : List Literal} {collapse expired : Bool}
    (hb : Bare frozen) (T : Traced frozen (ext + fun h => queue.count h) s m) :
    Gives (conjoinAll queue ordering collapse expired) m fun c m' =>
      Traced frozen (ext + Pi.single c 1) s m' :=
  traced_conjoinFrom hb _ _ (Nat.le_succ _) T

/-- The caller gets a reference to everything that is built one after the other. -/
theorem traced_mapM {α : Type} {act : α → Action Handle}
    (hact : ∀ x {ext m}, Traced frozen ext s m → Gives (act x) m fun c m' =>
      Traced frozen (ext + Pi.single c 1) s m') (xs : List α) (T : Traced frozen ext s m) :
    Gives (xs.mapM act) m fun hs m' => Traced frozen (ext + fun h => hs.count h) s m' := by
  induction xs generalizing ext m with
  | nil =>
      rw [List.mapM_nil]
      exact Gives.pure (by rwa [add_count_nil])
  | cons x xs ih =>
      rw [List.mapM_cons]
      refine Gives.bind (hact x T) fun c m₁ T₁ => Gives.bind (ih T₁) fun hs m₂ T₂ => ?_
      refine Gives.pure ?_
      have hcount : (ext + fun h => (c :: hs).count h) =
          ext + Pi.single c 1 + fun h => hs.count h := by
        funext h
        simp only [Pi.add_apply, count_cons_apply]
        omega
      rwa [hcount]

/-! ## Rows of tables -/

/-- The low edge of a node of a row leads to a terminal. -/
theorem lowOf_isTerminal {l : Literal} {d d' : DomainClosure} (hlow : lowOf l d = .ok (c, d')) :
    c.isTerminal = true := by
  unfold lowOf at hlow
  simp only [bind, Except.bind] at hlow
  split at hlow
  · cases hlow
  split at hlow
  · cases hlow
  split at hlow
  · cases hlow
  · cases hlow
    split <;> rfl

theorem lastHigh_isTerminal (w : Weight) (determinism : Bool) :
    (lastHigh w determinism).1.isTerminal = true := by
  unfold lastHigh
  split
  · rfl
  · split <;> rfl

theorem traced_rowNodes (hb : Bare frozen) {row : List Literal} {w : Weight} {determinism : Bool} :
    ∀ {last : Bool} {found : List (Literal × Cofactor)} {root : Handle} {d : DomainClosure}
      {m : Manager}, (last = true → root.isTerminal = true) →
      (root.isTerminal = true ∨ (m.key? root).isSome) → Traced frozen ext (insert root s) m →
      Gives (rowNodes row w determinism last found root d) m fun r m' =>
        Traced frozen ext (insert r.1 s) m'
  | _, [], _, _, _, _, _, T => Gives.pure T
  | last, (l, found) :: rest, root, d, m, hlast, hlive, T => by
      have hstep : ∀ {high low : Handle} {ws : Weights} {d : DomainClosure},
          (high.isTerminal = true ∨ (m.key? high).isSome) →
          (low.isTerminal = true ∨ (m.key? low).isSome) →
          Traced frozen ext (insert high (insert low s)) m →
          Gives (do
            let h ← makeNode l high low ws
            rowNodes row w determinism false rest h d) m fun r m' =>
          Traced frozen ext (insert r.1 s) m' := by
        intro high low ws d hhigh hlow T
        refine Gives.bind (traced_makeNode hb T hhigh hlow) ?_
        rintro h m₁ ⟨-, -, T₁, hr₁⟩
        refine traced_rowNodes hb (by rintro ⟨⟩) (Or.inr ?_) T₁
        rw [hr₁.key, Function.update_self]
        rfl
      have hmore : ∀ {c}, Traced frozen ext (insert root s) m →
          Traced frozen ext (insert root (insert c s)) m := fun T =>
        T.mono (Set.insert_subset_insert (Set.subset_insert _ _))
      unfold rowNodes
      split
      · refine Gives.lift fun r hr => ?_
        obtain ⟨low, d'⟩ := r
        have hlow : low.isTerminal = true := lowOf_isTerminal hr
        dsimp only
        cases last with
        | true =>
            -- the last literal of the row gets a terminal; what was below it is one, too
            have T' := (T.drop_terminal (hlast rfl)).mono
              ((Set.subset_insert low s).trans (Set.subset_insert (lastHigh w determinism).1 _))
            exact hstep (Or.inl (lastHigh_isTerminal w determinism)) (Or.inl hlow) T'
        | false => exact hstep hlive (Or.inl hlow) (hmore T)
      split
      · refine Gives.lift fun d' _ => hstep (Or.inl rfl) hlive ?_
        rw [Set.insert_comm]
        exact hmore T
      · exact traced_rowNodes hb (by rintro ⟨⟩) hlive T

/-- The caller gets a reference to the clause. -/
theorem traced_clause (hb : Bare frozen) {row : List Literal} {w : Weight} {ordering : List Literal}
    {d : DomainClosure} {determinism : Bool} (T : Traced frozen ext s m) :
    Gives (clause row w ordering d determinism) m fun r m' =>
      Traced frozen (ext + Pi.single r.1 1) s m' := by
  unfold clause
  split
  · exact Gives.pure (T.hold_terminal rfl)
  · refine Gives.lift fun found _ => ?_
    refine Gives.bind (traced_rowNodes hb (fun _ => rfl) (Or.inl rfl)
      (T.mono (Set.subset_insert _ _))) fun r m₁ T₁ => ?_
    refine Gives.bind (traced_reference hb T₁) ?_
    rintro _ m₂ ⟨T₂, -⟩
    exact Gives.pure T₂

end BayesCircuit.Decision
