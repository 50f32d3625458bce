import BayesCircuit.Decision.Clause
import BayesCircuit.Decision.Conjoin
import BayesCircuit.Decision.Rows
import BayesCircuit.Proofs.Decision.Conjoin
import BayesCircuit.Proofs.References.Gives

/-!
# Counts that stay right

An action is `Balanced` if it leaves the count of every node right: it gives up the references that
it takes, except for those that edges account for. Most operations are put together from balanced
ones. The others take references for the caller or give up those of the caller, and say so.
-/

namespace BayesCircuit.Decision

open Collection Action

variable {α β σ : Type} {m m' : Manager} {frozen : Handle → Option Node} {ext : Handle → Nat}
variable {x : Action α} {f : α → Action β} {h c : Handle}

/-- The counts stay right, whoever holds what. -/
def Balanced (x : Action α) : Prop :=
  ∀ (frozen : Handle → Option Node) (ext : Handle → Nat) (m : Manager), Bare frozen →
    Heap frozen ext m → Gives x m fun _ m' => Heap frozen ext m'

namespace Balanced

theorem pure {a : α} : Balanced (pure a) := fun _ _ _ _ H => Gives.pure H

theorem throw {e : Failure} : Balanced (throw e : Action α) := fun _ _ _ _ _ => Gives.throw

theorem bind (hx : Balanced x) (hf : ∀ a, Balanced (f a)) : Balanced (x >>= f) :=
  fun _ _ _ hb H => Gives.bind (hx _ _ _ hb H) fun a _ H' => hf a _ _ _ hb H'

/-- What does not touch the nodes is balanced. -/
theorem of_arena (hx : ∀ m, Gives x m fun _ m' => m'.arena = m.arena) : Balanced x :=
  fun _ _ m _ H => Gives.mono (hx m) fun _ _ ha => H.congr ha

theorem lift {o : Outcome α} : Balanced (Action.lift o) :=
  of_arena fun _ => Gives.mono gives_lift fun _ _ ho => ho.2 ▸ rfl

theorem nodeAt : Balanced (nodeAt h) :=
  of_arena fun _ => Gives.mono gives_nodeAt fun _ _ hn => hn.2 ▸ rfl

theorem get {f : Manager → Action β} (hf : ∀ m, Balanced (f m)) :
    Balanced (MonadState.get >>= f) :=
  fun _ _ m hb H => Gives.get (hf m _ _ _ hb H)

theorem ite {p : Prop} [Decidable p] {y : Action α} (hx : Balanced x) (hy : Balanced y) :
    Balanced (if p then x else y) := by
  split
  · exact hx
  · exact hy

end Balanced

/-! ## Edges and nodes -/

theorem balanced_setHigh (hh : h.isTerminal = false) : Balanced (setHigh h c) :=
  fun _ _ _ hb H => Gives.mono (gives_setHigh hb H hh) fun _ _ ⟨_, _, _, H', _⟩ => H'

theorem balanced_setLow (hh : h.isTerminal = false) : Balanced (setLow h c) :=
  fun _ _ _ hb H => Gives.mono (gives_setLow hb H hh) fun _ _ ⟨_, _, _, H', _⟩ => H'

/-- The node that is made is a decision node. -/
theorem Balanced.create {l : Literal} {ws : Weights} {f : Handle → Action β}
    (hf : ∀ h, h.isTerminal = false → Balanced (f h)) : Balanced (create l ws >>= f) :=
  fun _ _ _ hb H => Gives.bind (gives_create H) fun h _ ⟨_, hh, H', _⟩ => hf h hh _ _ _ hb H'

theorem balanced_create {l : Literal} {ws : Weights} : Balanced (create l ws) :=
  fun _ _ _ _ H => Gives.mono (gives_create H) fun _ _ ⟨_, _, H', _⟩ => H'

theorem balanced_makeNode {l : Literal} {high low : Handle} {ws : Weights} :
    Balanced (makeNode l high low ws) :=
  .create fun _ hh => .bind (balanced_setHigh hh) fun _ => .bind (balanced_setLow hh) fun _ => .pure

theorem balanced_destroy : Balanced (destroy h) :=
  fun _ _ _ hb H => Gives.mono (gives_destroy hb H) fun _ _ hd => by
    rcases hd with ⟨_, _, _, _, H', _⟩ | ⟨_, rfl⟩
    · exact H'
    · exact H

theorem balanced_discard (hx : Balanced x) : Balanced (discard x) :=
  fun _ _ _ hb H => .discard (hx _ _ _ hb H)

theorem balanced_merge {table : Table} : Balanced (merge table h) := by
  unfold merge
  refine .ite .pure (.bind .nodeAt fun n => ?_)
  split
  · exact .ite (.bind (balanced_discard balanced_destroy) fun _ => .pure) .pure
  · exact .pure

/-- The nodes to which nobody refers are freed from the root down. -/
theorem balanced_destroyAll : ∀ (fuel : Nat) (stack : List Handle), Balanced (destroyAll fuel stack)
  | 0, _ => .pure
  | _ + 1, [] => .pure
  | fuel + 1, h :: stack => by
      unfold destroyAll
      refine .get fun m₀ => ?_
      intro frozen ext m hb H
      split
      · exact balanced_destroyAll fuel stack _ _ _ hb H
      rename_i hused
      have hh : h.isTerminal = false := by
        cases ht : h.isTerminal with
        | false => rfl
        | true => simp [ht] at hused
      refine Gives.nodeAt fun n hn => ?_
      split
      · exact balanced_destroyAll fuel stack _ _ _ hb H
      rename_i hrefs
      refine Gives.bind (Gives.of_ends (free_spec H hn (hb h hh) (by omega))) ?_
      rintro _ m₁ ⟨rfl, H₁, -⟩
      rw [add_right_comm] at H₁
      refine Gives.bind (gives_dereference hb H₁) ?_
      rintro _ m₂ ⟨H₂, -⟩
      refine Gives.bind (gives_dereference hb H₂) ?_
      rintro _ m₃ ⟨H₃, -⟩
      exact balanced_destroyAll fuel _ _ _ _ hb H₃

/-- The caller loses a reference. -/
theorem gives_release (hb : Bare frozen) (H : Heap frozen (ext + Pi.single h 1) m) :
    Gives (release h) m fun _ m' => Heap frozen ext m' := by
  unfold release
  refine Gives.bind (gives_dereference hb H) ?_
  rintro _ m₁ ⟨H₁, -⟩
  exact Balanced.get (fun _ => balanced_destroyAll _ _) _ _ _ hb H₁

/-! ## Collapsing -/

theorem gives_forget {table : Table} :
    Gives (forget table h) m fun _ m' => m'.arena = m.arena := by
  unfold forget
  exact Gives.nodeAt fun n _ => Gives.modify (Gives.pure rfl)

theorem not_terminal_of_canCollapse (hc : m.canCollapse h = .ok true) : h.isTerminal = false := by
  cases ht : h.isTerminal with
  | false => rfl
  | true =>
      rw [Manager.canCollapse, if_pos ht] at hc
      cases hc

theorem gives_forceDestroy {n : Node} (hb : Bare frozen) (H : Heap frozen ext m)
    (hn : m.arena.get? h = some n) (hrefs : n.refs = 0) :
    Gives (forceDestroy h) m fun _ m' => Heap frozen ext m' := by
  cases ht : h.isTerminal with
  | false =>
      exact Gives.mono (Gives.of_ends (forceDestroy_spec H hn (hb h ht) hrefs)) fun _ _ hd => hd.1
  | true =>
      unfold forceDestroy
      rw [if_pos ht]
      exact Gives.pure H

theorem balanced_collapseNode :
    ∀ (fuel : Nat) (table : Table), Balanced (collapseNode fuel table h)
  | 0, _ => .pure
  | fuel + 1, table => by
      unfold collapseNode
      refine .get fun m₀ => ?_
      intro frozen ext m hb H
      refine Gives.lift fun b hc => ?_
      cases b with
      | false => exact Gives.pure H
      | true =>
          have hh := not_terminal_of_canCollapse hc
          have hnext : ∀ t, Balanced (collapseNode fuel t h >>= fun r => pure (true, r.2)) :=
            fun t => .bind (balanced_collapseNode fuel t) fun _ => .pure
          simp only [Bool.not_true, Bool.false_eq_true, if_false]
          refine Gives.nodeAt fun n _ => Gives.nodeAt fun low _ => ?_
          refine Gives.bind (balanced_setLow hh _ _ _ hb H) fun _ m₁ H₁ => ?_
          refine Gives.nodeAt fun low hlow => ?_
          split
          · rename_i hrefs
            rw [beq_iff_eq] at hrefs
            refine Gives.bind gives_forget fun t m₂ ha => ?_
            refine Gives.bind (gives_forceDestroy hb (H₁.congr ha) (ha ▸ hlow) hrefs) ?_
            exact fun _ _ H₃ => hnext t _ _ _ hb H₃
          · exact hnext table _ _ _ hb H₁

theorem balanced_redirectHigh (hh : h.isTerminal = false) : Balanced (redirectHigh h c) :=
  .bind .nodeAt fun _ => .bind (balanced_setHigh hh) fun _ => balanced_discard balanced_destroy

theorem balanced_redirectLow (hh : h.isTerminal = false) : Balanced (redirectLow h c) :=
  .bind .nodeAt fun _ => .bind (balanced_setLow hh) fun _ => balanced_discard balanced_destroy

/-- Let the high edge lead to a child unless it does already. -/
def adjustHigh (h child : Handle) : Action Unit := do
  if child != (← nodeAt h).high then redirectHigh h child

/-- Let the low edge lead to a child unless it does already. -/
def adjustLow (h child : Handle) : Action Unit := do
  if child != (← nodeAt h).low then redirectLow h child

/-- Finish a node whose children are finished. -/
def settleNode (fuel : Nat) (h : Handle) (p : Pass) : Action (Handle × Pass) := do
  let (_, table) ← collapseNode fuel p.table h
  let (found, table) := table.findOrInsert (← nodeAt h).key h
  return (found.getD h, ⟨table, p.finished.insert h (found.getD h)⟩)

/-- A node that is not finished is collapsed after its children. -/
theorem collapseFrom_of_none {fuel : Nat} {p : Pass} (hh : h.isTerminal = false)
    (hp : p.finished[h]? = none) :
    collapseFrom (fuel + 1) h p = (do
      let (high, p) ← collapseFrom fuel (← nodeAt h).high p
      adjustHigh h high
      let (low, p) ← collapseFrom fuel (← nodeAt h).low p
      adjustLow h low
      settleNode (fuel + 1) h p) := by
  rw [collapseFrom, if_neg (by simp [hh])]
  simp only [hp, adjustHigh, adjustLow, settleNode, bind_assoc]
  refine bind_congr fun n => bind_congr fun r => bind_congr fun n => ?_
  split
  · refine bind_congr fun _ => bind_congr fun n => bind_congr fun r => bind_congr fun n => ?_
    split
    · rfl
    · rw [pure_bind]
  · rw [pure_bind]
    refine bind_congr fun n => bind_congr fun r => bind_congr fun n => ?_
    split
    · rfl
    · rw [pure_bind]

theorem balanced_settleNode {fuel : Nat} {p : Pass} : Balanced (settleNode fuel h p) :=
  .bind (balanced_collapseNode _ _) fun _ => .bind .nodeAt fun _ => .pure

theorem balanced_collapseFrom :
    ∀ (fuel : Nat) (h : Handle) (p : Pass), Balanced (collapseFrom fuel h p)
  | 0, _, _ => .pure
  | fuel + 1, h, p => by
      cases hh : h.isTerminal with
      | true =>
          rw [collapseFrom, if_pos hh]
          exact .pure
      | false =>
          cases hp : p.finished[h]? with
          | some r =>
              rw [collapseFrom, if_neg (by simp [hh])]
              simp only [hp]
              exact .pure
          | none =>
              rw [collapseFrom_of_none hh hp]
              refine .bind .nodeAt fun n => .bind (balanced_collapseFrom fuel _ _) fun r => ?_
              refine .bind (.bind .nodeAt fun _ => .ite (balanced_redirectHigh hh) .pure)
                fun _ => ?_
              refine .bind .nodeAt fun n => .bind (balanced_collapseFrom fuel _ _) fun r => ?_
              refine .bind (.bind .nodeAt fun _ => .ite (balanced_redirectLow hh) .pure) fun _ => ?_
              exact balanced_settleNode

theorem gives_newTable : Gives newTable m fun _ m' => m' = m :=
  Gives.get (Gives.mono gives_lift fun _ _ h => h.2)

theorem balanced_newTable : Balanced newTable :=
  .of_arena fun _ => Gives.mono gives_newTable fun _ _ h => h ▸ rfl

theorem balanced_depthBound : Balanced depthBound := .get fun _ => .pure

/-- The reference of the caller moves to the result. -/
theorem gives_collapse (hb : Bare frozen) (H : Heap frozen (ext + Pi.single h 1) m) :
    Gives (collapse h) m fun c m' => Heap frozen (ext + Pi.single c 1) m' := by
  unfold collapse
  refine Gives.bind (balanced_depthBound _ _ _ hb H) fun fuel m₁ H₁ => ?_
  refine Gives.bind (balanced_newTable _ _ _ hb H₁) fun table m₂ H₂ => ?_
  refine Gives.bind (balanced_collapseFrom _ _ _ _ _ _ hb H₂) fun r m₃ H₃ => ?_
  obtain ⟨c, p⟩ := r
  dsimp only
  split
  · refine Gives.bind (gives_reference hb H₃) ?_
    rintro _ m₄ ⟨-, H₄, -⟩
    rw [add_right_comm] at H₄
    exact Gives.bind (gives_release hb H₄) fun _ m₅ H₅ => Gives.pure H₅
  · rename_i hc
    obtain rfl : c = h := by simpa using hc
    exact Gives.pure H₃

/-- Putting back the nodes of chains. -/
theorem balanced_uncollapseFrom {next : List (Int × Literal)} :
    ∀ (fuel : Nat) (stack : List Handle) (visited : Std.HashSet Handle),
      Balanced (uncollapseFrom next fuel stack visited)
  | 0, _, _ => .pure
  | _ + 1, [], _ => .pure
  | fuel + 1, h :: stack, visited => by
      unfold uncollapseFrom
      split
      · exact balanced_uncollapseFrom fuel _ _
      rename_i hvisit
      have hh : h.isTerminal = false := by
        cases ht : h.isTerminal with
        | false => rfl
        | true => simp [ht] at hvisit
      have hnext : Balanced (nodeAt h >>= fun n =>
          uncollapseFrom next fuel (n.high :: n.low :: stack) (visited.insert h)) :=
        .bind .nodeAt fun _ => balanced_uncollapseFrom fuel _ _
      refine .bind .nodeAt fun n => ?_
      split
      · refine .bind .nodeAt fun low => ?_
        split
        · exact .bind balanced_makeNode fun x => .bind (balanced_setLow hh) fun _ => hnext
        · exact hnext
      · exact hnext

theorem balanced_uncollapse {ordering : List Literal} : Balanced (uncollapse h ordering) :=
  .get fun _ => balanced_uncollapseFrom _ _ _

/-! ## Copies -/

theorem balanced_copyFrom : ∀ (fuel : Nat) (h : Handle) (p : Pass), Balanced (copyFrom fuel h p)
  | 0, _, _ => .pure
  | fuel + 1, h, p => by
      unfold copyFrom
      refine .ite .pure ?_
      split
      · exact .pure
      · exact .bind .nodeAt fun n => .bind (balanced_copyFrom fuel _ _) fun _ =>
          .bind (balanced_copyFrom fuel _ _) fun _ => .bind .lift fun _ =>
            .bind balanced_makeNode fun _ => .bind balanced_merge fun _ => .pure

theorem balanced_copy {table : Table} : Balanced (copy table h) :=
  .bind balanced_depthBound fun _ => .bind (balanced_copyFrom _ _ _) fun _ => .pure

/-! ## Building -/

/-- A recorded product. -/
def Manager.Records (m : Manager) (c : Handle) : Prop :=
  ∃ k : Handle × Handle, m.products.entries[k]? = some c

/-- An engine that does not touch the nodes. If it uses products (`reuse`), what it finds is a
recorded one, and only what was given to it is recorded. -/
structure Engine.Passive (E : Engine σ) (reuse : Prop) : Prop where
  condition : ∀ {s l following holds m}, Gives (E.condition s l following holds) m fun r m' =>
    Unmoved m m' ∧ (holds = true → r.1 = .cached →
      (E.cached r.2.2).isTerminal = true ∨ reuse ∧ m.Records (E.cached r.2.2))
  record : ∀ {s c m}, Gives (E.record s c) m fun _ m' => m'.arena = m.arena ∧
    ∀ v, m'.Records v → m.Records v ∨ v = c

variable {E : Engine σ} {reuse : Prop}

theorem gives_tick {expired : Bool} {steps : Nat} :
    Gives (tick expired steps) m fun _ m' => m' = m := by
  unfold tick
  split
  · exact Gives.throw
  · exact Gives.pure rfl

theorem balanced_tick {expired : Bool} {steps : Nat} : Balanced (tick expired steps) := by
  unfold tick
  split
  · exact .bind .throw fun _ => .pure
  · exact .pure

theorem balanced_condition (hE : E.Passive reuse) {s : σ} {l : Literal} {following : Option Literal}
    {holds : Bool} : Balanced (E.condition s l following holds) :=
  .of_arena fun _ => Gives.mono hE.condition fun _ _ h => h.1.arena

theorem balanced_record (hE : E.Passive reuse) {s : σ} : Balanced (E.record s c) :=
  .of_arena fun _ => Gives.mono hE.record fun _ _ h => h.1

theorem balanced_highStep (hE : E.Passive reuse) {below : Progress σ → Action (Handle × Progress σ)}
    (hbelow : ∀ p, Balanced (below p)) (hh : h.isTerminal = false) {found : Cofactor} :
    ∀ p, Balanced (highStep E below h found p)
  | ⟨table, engine, steps⟩ => by
      cases found with
      | unsatisfied =>
          exact .bind (hbelow _) fun _ => .bind (balanced_setHigh hh) fun _ =>
            .bind (balanced_record hE) fun _ => .pure
      | trivial =>
          exact .bind .lift fun _ => .bind balanced_copy fun _ => .bind (balanced_setHigh hh)
            fun _ => .bind (balanced_record hE) fun _ => .pure
      | _ => exact .bind (balanced_setHigh hh) fun _ => .pure

theorem balanced_lowStep {below : Progress σ → Action (Handle × Progress σ)}
    (hbelow : ∀ p, Balanced (below p)) (hh : h.isTerminal = false) {level : Nat}
    {found : Cofactor} : ∀ p, Balanced (lowStep E below h level found p)
  | ⟨table, engine, steps⟩ => by
      have hfail : Balanced (unexpected h level found : Action (Progress σ)) :=
        .bind .nodeAt fun _ => .throw
      cases found with
      | unsatisfied => exact .bind (hbelow _) fun _ => .bind (balanced_setLow hh) fun _ => .pure
      | trivial =>
          exact .bind .lift fun _ => .bind balanced_copy fun _ => .bind (balanced_setLow hh)
            fun _ => .pure
      | satisfiable => exact .bind (balanced_setLow hh) fun _ => .pure
      | unsatisfiable => exact .bind (balanced_setLow hh) fun _ => .pure
      | redundant => exact hfail
      | cached => exact hfail

theorem balanced_finish {collapse expired : Bool} :
    ∀ p : Progress σ, Balanced (finish collapse expired h p)
  | ⟨table, engine, steps⟩ => by
      refine .bind balanced_tick fun steps => ?_
      split
      · exact .bind balanced_depthBound fun _ => .bind (balanced_collapseNode _ _) fun _ =>
          .bind .pure fun _ => .bind balanced_merge fun _ => .pure
      · exact .bind .pure fun _ => .bind balanced_merge fun _ => .pure

theorem balanced_buildFrom (hE : E.Passive reuse) {collapse expired : Bool} :
    ∀ ls level p, Balanced (buildFrom E collapse expired ls level p)
  | [], level, p => by
      unfold buildFrom
      exact .bind (balanced_discard balanced_tick) fun _ => .throw
  | l :: rest, level, p => by
      have hbelow : ∀ p, Balanced (buildFrom E collapse expired rest (level + 1) p) :=
        balanced_buildFrom hE rest (level + 1)
      rw [buildFrom_cons]
      refine .bind balanced_tick fun _ => .bind (balanced_condition hE) fun r => ?_
      obtain ⟨found, weights, engine⟩ := r
      dsimp only
      have hnode : ∀ p, Balanced (nodeStep E collapse expired l rest level found weights p) :=
        fun p => .create fun h hh => .bind (balanced_highStep hE hbelow hh p) fun _ =>
          .bind balanced_tick fun _ => .bind (balanced_condition hE) fun _ =>
            .bind (balanced_lowStep hbelow hh _) fun _ => balanced_finish _
      cases found with
      | redundant => exact hbelow _
      | _ => exact hnode _

/-- The caller gets a reference to the root. -/
theorem gives_build (hE : E.Passive reuse) {engine : σ} {ordering : List Literal}
    {collapse expired : Bool} (hb : Bare frozen) (H : Heap frozen ext m) :
    Gives (build E engine ordering collapse expired) m fun c m' =>
      Heap frozen (ext + Pi.single c 1) m' := by
  unfold build
  refine Gives.bind (balanced_newTable _ _ _ hb H) fun table m₁ H₁ => ?_
  refine Gives.bind (balanced_buildFrom hE _ _ _ _ _ _ hb H₁) fun r m₂ H₂ => ?_
  obtain ⟨root, p⟩ := r
  refine Gives.bind (gives_reference hb H₂) ?_
  rintro _ m₃ ⟨-, H₃, -⟩
  exact Gives.pure H₃

theorem Rows.passive : Rows.engine.Passive False where
  condition := Gives.mono gives_lift fun _ _ h =>
    h.2 ▸ ⟨⟨rfl, rfl, rfl, rfl⟩, fun _ _ => Or.inl rfl⟩
  record := Gives.pure ⟨rfl, fun _ hv => Or.inl hv⟩

theorem Unmoved.refl (m : Manager) : Unmoved m m := ⟨rfl, rfl, rfl, rfl⟩

theorem Product.gives_lookup {b : Both Handle} : Gives (Product.lookup b) m fun r m' =>
    Unmoved m m' ∧ r = m.products.entries[Product.key b]? := by
  intro r m' hrun
  obtain ⟨m₁, hrun', hu⟩ := run_lookup (m := m) b
  rw [hrun'] at hrun
  cases hrun
  exact ⟨hu, rfl⟩

theorem Product.passive : Product.engine.Passive True where
  condition {p l following holds m} := by
    show Gives (Product.condition p l following holds) m _
    unfold Product.condition
    split
    · unfold Product.conditionHigh
      refine Gives.get (Gives.lift fun top _ => Gives.lift fun left _ =>
        Gives.lift fun right _ => ?_)
      split
      · exact Gives.pure ⟨Unmoved.refl m, by rintro _ ⟨⟩⟩
      dsimp only
      split
      · exact Gives.pure ⟨Unmoved.refl m, by rintro _ ⟨⟩⟩
      split
      · exact Gives.pure ⟨Unmoved.refl m, by rintro _ ⟨⟩⟩
      refine Gives.bind Product.gives_lookup ?_
      rintro r m' ⟨hu, hr⟩
      split
      · exact Gives.pure ⟨hu, fun _ _ => Or.inr ⟨True.intro, _, hr.symm⟩⟩
      · split
        · exact Gives.pure ⟨hu, by rintro _ ⟨⟩⟩
        · exact Gives.pure ⟨hu, by rintro _ ⟨⟩⟩
    · rename_i hholds
      exact Gives.get (Gives.lift fun _ _ =>
        Gives.pure ⟨Unmoved.refl m, fun hh => absurd hh hholds⟩)
  record {p c m} := by
    show Gives (Product.record p c) m _
    unfold Product.record
    refine Gives.lift fun top _ => ?_
    rintro _ _ ⟨⟩
    refine ⟨rfl, ?_⟩
    rintro v ⟨k, hv⟩
    simp only [Memo.insertIfNew] at hv
    rw [Std.HashMap.getElem?_insertIfNew] at hv
    split at hv
    · exact Or.inr (Option.some.inj hv).symm
    · exact Or.inl ⟨k, hv⟩

/-- The caller gets a reference to the product. -/
theorem gives_conjoin {a b : Handle} {ordering : List Literal} {collapse expired : Bool}
    (hb : Bare frozen) (H : Heap frozen ext m) :
    Gives (conjoin a b ordering collapse expired) m fun c m' =>
      Heap frozen (ext + Pi.single c 1) m' := by
  unfold conjoin
  split
  · exact Gives.pure (H.hold_frozen (H.terminal _ rfl))
  split
  · refine Gives.bind (balanced_newTable _ _ _ hb H) fun table m₁ H₁ => ?_
    refine Gives.bind (balanced_copy _ _ _ hb H₁) fun r m₂ H₂ => ?_
    refine Gives.bind (gives_reference hb H₂) ?_
    rintro _ m₃ ⟨-, H₃, -⟩
    exact Gives.pure H₃
  · exact Gives.modify (gives_build Product.passive hb (H.congr rfl))

theorem count_cons_apply (a h : Handle) (queue : List Handle) :
    (a :: queue).count h = queue.count h + (Pi.single a 1 : Handle → Nat) h := by
  by_cases hh : h = a
  · simp [hh]
  · simp [hh, List.count_cons_of_ne (Ne.symm hh)]

theorem add_count_nil (ext : Handle → Nat) :
    (ext + fun h => ([] : List Handle).count h) = ext := by
  funext h
  simp

theorem count_singleton_eq (a : Handle) : (fun h => [a].count h) = Pi.single a 1 := by
  funext h
  rw [count_cons_apply, List.count_nil, Nat.zero_add]

/-- The references of the queue become one to the product. -/
theorem gives_conjoinFrom {ordering : List Literal} {collapse expired : Bool} (hb : Bare frozen) :
    ∀ (fuel : Nat) (queue : List Handle) {ext : Handle → Nat} {m : Manager},
      queue.length ≤ fuel + 1 → Heap frozen (ext + fun h => queue.count h) m →
      Gives (conjoinFrom ordering collapse expired fuel queue) m fun c m' =>
        Heap frozen (ext + Pi.single c 1) m'
  | fuel, [], ext, m, _, H => by
      have hpure : conjoinFrom ordering collapse expired fuel [] = pure Handle.true' := by
        cases fuel <;> rfl
      rw [hpure]
      exact Gives.pure (Heap.hold_frozen H (H.terminal Handle.true' rfl))
  | fuel, [a], ext, m, _, H => by
      have hpure : conjoinFrom ordering collapse expired fuel [a] = pure a := by
        cases fuel <;> rfl
      rw [hpure]
      rw [count_singleton_eq] at H
      exact Gives.pure H
  | 0, a :: b :: queue, _, _, hlen, _ => by simp at hlen
  | fuel + 1, a :: b :: queue, ext, m, hlen, H => by
      unfold conjoinFrom
      refine Gives.bind (Gives.tryCatch (gives_conjoin hb H) fun f m' => ?_) fun c m₁ H₁ => ?_
      · -- a conjunction that failed makes the whole fail
        dsimp only
        split
        · exact Gives.bind_throw
        · exact Gives.throw
      have hcount : (ext + (fun h => (a :: b :: queue).count h) + Pi.single c 1 : Handle → Nat) =
          ext + (fun h => (queue ++ [c]).count h) + Pi.single b 1 + Pi.single a 1 := by
        funext h
        simp only [Pi.add_apply, List.count_append, count_cons_apply, List.count_nil]
        omega
      rw [hcount] at H₁
      refine Gives.bind (gives_release hb H₁) fun _ m₂ H₂ => ?_
      refine Gives.bind (gives_release hb H₂) fun _ m₃ H₃ => ?_
      refine gives_conjoinFrom hb fuel _ ?_ H₃
      simpa using hlen

theorem gives_conjoinAll {queue : List Handle} {ordering : List Literal} {collapse expired : Bool}
    (hb : Bare frozen) (H : Heap frozen (ext + fun h => queue.count h) m) :
    Gives (conjoinAll queue ordering collapse expired) m fun c m' =>
      Heap frozen (ext + Pi.single c 1) m' :=
  gives_conjoinFrom hb _ _ (Nat.le_succ _) H

/-! ## Rows of tables -/

theorem balanced_rowNodes {row : List Literal} {w : Weight} {determinism : Bool} :
    ∀ {last : Bool} {found : List (Literal × Cofactor)} {root : Handle} {d : DomainClosure},
      Balanced (rowNodes row w determinism last found root d)
  | _, [], _, _ => .pure
  | last, (l, found) :: rest, root, d => by
      unfold rowNodes
      refine .ite ?_ (.ite ?_ balanced_rowNodes)
      · exact .bind .lift fun _ => .bind balanced_makeNode fun _ => balanced_rowNodes
      · exact .bind .lift fun _ => .bind balanced_makeNode fun _ => balanced_rowNodes

/-- The caller gets a reference to the clause. -/
theorem gives_clause {row : List Literal} {w : Weight} {ordering : List Literal}
    {d : DomainClosure} {determinism : Bool} (hb : Bare frozen) (H : Heap frozen ext m) :
    Gives (clause row w ordering d determinism) m fun r m' =>
      Heap frozen (ext + Pi.single r.1 1) m' := by
  unfold clause
  split
  · exact Gives.pure (H.hold_frozen (H.terminal _ rfl))
  · refine Gives.lift fun found _ => ?_
    refine Gives.bind (balanced_rowNodes _ _ _ hb H) fun r m₁ H₁ => ?_
    refine Gives.bind (gives_reference hb H₁) ?_
    rintro _ m₂ ⟨-, H₂, -⟩
    exact Gives.pure H₂

end BayesCircuit.Decision
