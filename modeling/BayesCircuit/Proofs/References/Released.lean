import BayesCircuit.Proofs.References.Session

/-!
# Nothing is left behind

The operations of a manager keep every decision node attached, held, or among the nodes that the
caller himself has left unattached. So when the caller has released everything and left nothing
unattached, no decision node is live (`Session.references_exact`).

Counting references cannot reclaim everything. The caller has to keep the nodes a diagram
(`Operation.Careful`): without cycles and without edges of terminals, and with unique tables that
do not outlive the nodes that they list. `Session.leaks` shows what happens otherwise.
-/

namespace BayesCircuit.Decision

open Collection Action

variable {m m' : Manager} {frozen : Handle → Option Node} {ext ext' : Handle → Nat}
variable {t : Set Handle} {h c : Handle} {s s' : Session} {o : Operation}

/-- The caller gives edges to decision nodes only, lets them lead to nodes that exist and are not
above, and merges with tables that list the nodes that are there. -/
def Operation.Careful (o : Operation) (s : Session) : Prop :=
  match o with
  | .makeNode _ high low _ =>
      (s.manager.arena.get? high).isSome ∧ (s.manager.arena.get? low).isSome
  | .setHigh h child => h.isTerminal = false ∧ ¬ Below s.manager.key? child h
  | .setLow h child => h.isTerminal = false ∧ ¬ Below s.manager.key? child h
  | .merge table _ => Listed table s.manager
  | .copy table _ => Listed table s.manager
  | _ => True

/-- The holders of the terminals do not matter. -/
theorem Traced.congr_ext (T : Traced frozen ext t m) (ext' : Handle → Nat)
    (he : ∀ h : Handle, h.isTerminal = false → ext' h = ext h) : Traced frozen ext' t m := by
  refine ⟨T.heap.congr_ext _ he, T.unfolds, fun g k hg hk => ?_⟩
  rcases T.attached g k hg hk with (hs | he') | hp
  · exact Or.inl (Or.inl hs)
  · refine Or.inl (Or.inr ?_)
    rwa [Set.mem_ofPred_eq, he g (T.heap.not_terminal hg)]
  · exact Or.inr hp

theorem Traced.of_count_nil (T : Traced frozen (ext + fun h => ([] : List Handle).count h) t m) :
    Traced frozen ext t m := by
  rwa [add_count_nil] at T

theorem Traced.of_count_singleton (T : Traced frozen (ext + fun h => [c].count h) t m) :
    Traced frozen (ext + Pi.single c 1) t m := by
  rwa [add_count_singleton] at T

/-- Only nodes that are unattached need to be looked after. -/
theorem Traced.filter {loose : List Handle} (T : Traced frozen ext {h | h ∈ loose} m) :
    Traced frozen ext {h | h ∈ loose.filter m.isUnattached} m := by
  refine ⟨T.heap, T.unfolds, fun g k hg hk => ?_⟩
  obtain ⟨n, hn, -⟩ := key?_eq_some_iff.1 hk
  by_cases hrefs : n.refs = 0
  · refine (T.attached g k hg hk).imp_left fun hs => hs.imp_left fun hloose => ?_
    refine List.mem_filter.2 ⟨hloose, ?_⟩
    simp [Manager.isUnattached, hn, hrefs, T.heap.not_terminal hg]
  · have hwhy := mt (T.heap.refs_eq_zero_iff hn hg).2 hrefs
    by_cases hp : Pointed frozen m.key? g
    · exact Or.inr hp
    · exact Or.inl (Or.inr (Nat.pos_of_ne_zero fun he => hwhy ⟨hp, he⟩))

/-- What an operation leaves unattached is what the caller has loosened. -/
theorem Operation.traced (hb : Bare frozen) (hcare : o.Careful s)
    (T : Traced frozen (ext + fun h => o.lost.count h) t s.manager) :
    Gives o.action s.manager fun e m' =>
      Traced frozen (ext + fun h => e.gained.count h) ({h | h ∈ e.loosened} ∪ t) m' := by
  have gain : ∀ {c : Handle} {m' : Manager}, Traced frozen (ext + Pi.single c 1) t m' →
      Traced frozen (ext + fun h => (Effect.mk [c] []).gained.count h)
        ({h | h ∈ (Effect.mk [c] []).loosened} ∪ t) m' := fun T' => by
    rw [add_count_singleton]
    exact T'.mono Set.subset_union_right
  have even : ∀ {m' : Manager}, Traced frozen ext t m' →
      Traced frozen (ext + fun h => (Effect.mk [] []).gained.count h)
        ({h | h ∈ (Effect.mk [] []).loosened} ∪ t) m' := fun T' => by
    rw [add_count_nil]
    exact T'.mono Set.subset_union_right
  have loosen : ∀ {c : Handle} {m' : Manager}, Traced frozen ext (insert c t) m' →
      Traced frozen (ext + fun h => (Effect.mk [] [c]).gained.count h)
        ({h | h ∈ (Effect.mk [] [c]).loosened} ∪ t) m' := fun {c} {m'} T' => by
    rw [add_count_nil]
    refine T'.mono ?_
    rw [Set.insert_eq]
    exact Set.union_subset_union_left _ (by simp)
  have more : ∀ {c : Handle} {m' : Manager}, Traced frozen ext t m' →
      Traced frozen ext (insert c t) m' := fun T' => T'.mono (Set.subset_insert _ _)
  cases o with
  | create l weights =>
      replace T := Traced.of_count_nil T
      exact Gives.bind (traced_create T) fun _ _ hq => Gives.pure (loosen hq.2.2.1)
  | makeNode l high low weights =>
      replace T := Traced.of_count_nil T
      have hlive : ∀ {c : Handle}, (s.manager.arena.get? c).isSome →
          c.isTerminal = true ∨ (s.manager.key? c).isSome := fun hc =>
        Or.inr (by simpa [Manager.key?] using hc)
      exact Gives.bind (traced_makeNode hb (T.mono ((Set.subset_insert low t).trans
        (Set.subset_insert high _))) (hlive hcare.1) (hlive hcare.2))
        fun _ _ hq => Gives.pure (loosen hq.2.2.1)
  | setHigh h child =>
      replace T := Traced.of_count_nil T
      refine Gives.nodeAt fun n hn => Gives.bind (traced_setHigh hb (more T) hcare.1 hcare.2) ?_
      rintro _ m' ⟨k, hk, -, T', -⟩
      obtain rfl := Option.some.inj ((key?_of_get? hn).symm.trans hk)
      exact Gives.pure (loosen T')
  | setLow h child =>
      replace T := Traced.of_count_nil T
      refine Gives.nodeAt fun n hn => Gives.bind (traced_setLow hb (more T) hcare.1 hcare.2) ?_
      rintro _ m' ⟨k, hk, -, T', -⟩
      obtain rfl := Option.some.inj ((key?_of_get? hn).symm.trans hk)
      exact Gives.pure (loosen T')
  | reference h =>
      replace T := Traced.of_count_nil T
      exact Gives.bind (traced_reference hb (more T)) fun _ _ hq => Gives.pure (gain hq.1)
  | dereference h =>
      replace T := Traced.of_count_singleton T
      exact Gives.bind (traced_dereference hb T) fun _ _ hq => Gives.pure (loosen hq.1)
  | merge table h =>
      replace T := Traced.of_count_nil T
      exact Gives.bind (traced_merge hb (more T) hcare) fun _ _ T' => Gives.pure (loosen T')
  | copy table root =>
      replace T := Traced.of_count_nil T
      exact Gives.bind (traced_copy hb T hcare) fun _ _ T' => Gives.pure (loosen T')
  | solve rows ordering collapsed expired =>
      replace T := Traced.of_count_nil T
      exact Gives.bind (traced_solve hb T) fun _ _ T' => Gives.pure (gain T')
  | clause row w ordering d determinism =>
      replace T := Traced.of_count_nil T
      exact Gives.bind (traced_clause hb T) fun _ _ T' => Gives.pure (gain T')
  | conjoin a b ordering collapsed expired =>
      replace T := Traced.of_count_nil T
      exact Gives.bind (traced_conjoin hb T) fun _ _ T' => Gives.pure (gain T')
  | collapse root =>
      replace T := Traced.of_count_singleton T
      exact Gives.bind (traced_collapse hb T) fun _ _ T' => Gives.pure (gain T')
  | uncollapse root ordering =>
      replace T := Traced.of_count_nil T
      exact Gives.bind (traced_uncollapse hb T) fun _ _ T' => Gives.pure (even T')
  | release root =>
      replace T := Traced.of_count_singleton T
      exact Gives.bind (traced_release hb T) fun _ _ T' => Gives.pure (even T')
  | conjoinAll queue ordering collapsed expired =>
      exact Gives.bind (traced_conjoinAll hb T) fun _ _ T' => Gives.pure (gain T')

namespace Session

/-- Every node can be traced to the caller. -/
def Tended (frozen : Handle → Option Node) (s : Session) : Prop :=
  Traced frozen (fun h => s.held.count h) {h | h ∈ s.loose} s.manager

theorem Tended.perform (hb : Bare frozen) (hs : s.Tended frozen) (hallowed : o.Allowed s)
    (hcare : o.Careful s) (hp : s.perform o = .ok s') : s'.Tended frozen := by
  obtain ⟨e, m, hrun, rfl⟩ := perform_eq_ok hp
  have T := Traced.congr_ext hs
    ((fun h => (s.held.diff o.lost).count h) + fun h => o.lost.count h)
    fun h hh => (count_held hallowed hh).symm
  have T' := Operation.traced hb hcare T e m hrun
  refine Traced.filter (Traced.mono (Traced.congr_ext T' _ fun h _ => ?_) ?_)
  · simp only [Pi.add_apply, List.count_append]
    omega
  · intro g hg
    simpa [List.mem_append] using hg

theorem Run.mono {ok ok' : Operation → Session → Prop} {ops : List Operation}
    (hrun : Run ok s ops s') (hok : ∀ o s, ok o s → ok' o s) : Run ok' s ops s' := by
  induction hrun with
  | nil => exact .nil _
  | cons ho hp _ ih => exact .cons (hok _ _ ho) hp ih

theorem Run.tended {ops : List Operation} (hb : Bare frozen)
    (hrun : Run (fun o s => o.Allowed s ∧ o.Careful s) s ops s') (hs : s.Tended frozen) :
    s'.Tended frozen := by
  induction hrun with
  | nil => exact hs
  | cons ho hp _ ih => exact ih (hs.perform hb ho.1 ho.2 hp)

theorem tended_start (literalVariables : Array Variable) (tableBits : Nat) :
    (start literalVariables tableBits).Tended
      (Manager.start literalVariables tableBits).arena.get? := by
  have hnone : ∀ h : Handle, h.isTerminal = false →
      (Manager.start literalVariables tableBits).key? h = none := fun h hh =>
    key?_eq_none_iff.2 (bare_start literalVariables tableBits h hh)
  refine ⟨(heap_start literalVariables tableBits).congr_ext _ fun _ _ => rfl, fun h hlive => ?_,
    fun g k hg hk => ?_⟩
  · cases hh : h.isTerminal with
    | true =>
        rcases isTerminal_iff.1 hh with rfl | rfl
        · exact ⟨_, .false'⟩
        · exact ⟨_, .true'⟩
    | false =>
        have := hnone h hh
        simp only [start] at hlive
        rw [this] at hlive
        cases hlive
  · have hgt : g.isTerminal = false := (heap_start literalVariables tableBits).not_terminal hg
    have := hnone g hgt
    simp only [start] at hk
    rw [this] at hk
    cases hk

/-- The counts are right, and every decision node is below one that the caller holds or has left
unattached. -/
structure Accounted (s : Session) : Prop extends s.Exact where
  reached : ∀ {h : Handle} {n : Node}, s.manager.arena.get? h = some n → h.isTerminal = false →
    ∃ g, (g ∈ s.held ∨ g ∈ s.loose) ∧ Below s.manager.key? g h

theorem Tended.accounted {literalVariables : Array Variable} {tableBits : Nat}
    (hs : s.Tended (Manager.start literalVariables tableBits).arena.get?) : s.Accounted where
  toExact := by
    refine Counted.exact ⟨_, bare_start literalVariables tableBits, hs.heap.congr_ext _ ?_⟩
    intro h hh
    rw [Pi.add_apply, terminalEdges_start hh, Nat.add_zero]
  reached {h n} hn hh := by
    obtain ⟨g, -, hheld, hbelow⟩ := hs.exists_holder (bare_start literalVariables tableBits) hh
      (by rw [key?_of_get? hn]; rfl)
    exact ⟨g, hheld.symm.imp_left List.count_pos_iff.1, hbelow⟩

/-- The nodes of a caller are in order. -/
theorem Tended.valid (hb : Bare frozen) (hs : s.Tended frozen)
    (hroom : s.manager.tableBits ≤ Arena.maxBits) : s.manager.Valid where
  arena := hs.heap.valid
  terminal h ht := by
    obtain ⟨n, hn⟩ := Option.isSome_iff_exists.1 (hs.heap.terminal h ht)
    rw [hs.heap.kept hn]
    rfl
  wellFormed hn ht := ⟨hs.heap.literal_pos hn (hb _ ht), hs.heap.ascends hn (hb _ ht)⟩
  room := hroom

/-- After every operation of a run, every decision node counts the edges that lead to it and its
holders. If the caller has kept the nodes a diagram, holds nothing any more and has left nothing
unattached, all decision nodes are gone. -/
theorem references_exact {literalVariables : Array Variable} {tableBits : Nat}
    {ops : List Operation} {s : Session}
    (hrun : Run Operation.Allowed (start literalVariables tableBits) ops s) :
    s.Exact ∧
      (Run (fun o s => o.Allowed s ∧ o.Careful s) (start literalVariables tableBits) ops s →
        (∀ h ∈ s.held, Handle.isTerminal h = true) → s.loose = [] → s.manager.live = 0) := by
  refine ⟨?_, fun hcareful hheld hloose => ?_⟩
  · exact (hrun.counted (fun _ _ ho => ho) (counted_start literalVariables tableBits)).exact
  · have hb := bare_start literalVariables tableBits
    have T := hcareful.tended hb (tended_start literalVariables tableBits)
    rw [Tended, hloose] at T
    refine Traced.live_eq_zero (T.mono (by simp)) hb fun h hh => ?_
    refine List.count_eq_zero.2 fun hmem => ?_
    rw [hheld h hmem] at hh
    cases hh

/-- A node and one above it are made, held and released. -/
def twoNodes : List Operation :=
  [.makeNode ⟨1, by decide⟩ Handle.true' Handle.false' [7], .reference 2,
    .makeNode ⟨2, by decide⟩ 2 Handle.false' [], .reference 3, .release 2, .release 3]

theorem references_exact_twoNodes : ∃ s, Run Operation.Allowed (start #[] 4) twoNodes s ∧
    s.Exact ∧ s.manager.live = 0 := by
  obtain ⟨s, hcareful, hheld, hloose⟩ : ∃ s,
      Run (fun o s => o.Allowed s ∧ o.Careful s) (start #[] 4) twoNodes s ∧
        s.held = [] ∧ s.loose = [] :=
    ⟨_, .cons ⟨by decide, rfl, rfl⟩ rfl <| .cons ⟨by decide, trivial⟩ rfl <|
      .cons ⟨by decide, rfl, rfl⟩ rfl <| .cons ⟨by decide, trivial⟩ rfl <|
      .cons ⟨by decide, trivial⟩ rfl <| .cons ⟨by decide, trivial⟩ rfl <| .nil _, rfl, rfl⟩
  have hrun := hcareful.mono fun _ _ ho => ho.1
  exact ⟨s, hrun, (references_exact hrun).1,
    (references_exact hrun).2 hcareful (by simp [hheld]) hloose⟩

/-! ## Callers that are not careful -/

/-- An allowed run after which nothing is held and nothing was left unattached leaves a node. -/
def Leaks (ops : List Operation) : Prop :=
  ∃ s, Run Operation.Allowed (start #[] 4) ops s ∧ s.held = [] ∧ s.loose = [] ∧
    s.manager.live = 1

/-- A node leads to itself. -/
def cycle : List Operation :=
  [.create ⟨1, by decide⟩ [], .reference 2, .setHigh 2 2, .release 2]

/-- The child of a new node does not exist yet, and is the node itself. -/
def missingChild : List Operation :=
  [.makeNode ⟨1, by decide⟩ 2 Handle.false' [], .reference 2, .release 2]

/-- A terminal leads to a node. -/
def terminalEdge : List Operation :=
  [.makeNode ⟨1, by decide⟩ Handle.true' Handle.false' [], .reference 2,
    .setHigh Handle.false' 2, .release 2]

/-- A table lists a node under a key that the node no longer has, so what is merged with the table
is no twin of the node. -/
def staleTable : List Operation :=
  let table : Table := UniqueTable.ofBuckets 16
  [.makeNode ⟨2, by decide⟩ Handle.true' Handle.false' [],
    .makeNode ⟨1, by decide⟩ 2 Handle.false' [], .merge table 3, .reference 3, .setHigh 3 Handle.false',
    .makeNode ⟨1, by decide⟩ 2 Handle.false' [],
    .merge (table.store ⟨1, 2, Handle.false', []⟩ 3) 4, .release 3]

/-- A run of allowed operations, if all of them succeed. -/
def attempt : List Operation → Session → Option Session
  | [], s => some s
  | o :: ops, s =>
      if o.Allowed s then
        match s.perform o with
        | .ok s' => attempt ops s'
        | .error _ => none
      else none

theorem run_of_attempt : ∀ {ops : List Operation} {s s' : Session}, attempt ops s = some s' →
    Run Operation.Allowed s ops s'
  | [], s, s', h => by
      cases h
      exact .nil s
  | o :: ops, s, s', h => by
      unfold attempt at h
      split at h
      · rename_i hallowed
        split at h
        · rename_i s₁ hp
          exact .cons hallowed hp (run_of_attempt h)
        · cases h
      · cases h

theorem leaks_of_attempt {ops : List Operation}
    (h : (attempt ops (start #[] 4)).any
      (fun s => s.held.isEmpty && s.loose.isEmpty && s.manager.live == 1) = true) : Leaks ops := by
  obtain ⟨s, hs, hleft⟩ := (Option.any_eq_true _ _).1 h
  simp only [Bool.and_eq_true, List.isEmpty_iff, beq_iff_eq] at hleft
  exact ⟨s, run_of_attempt hs, hleft.1.1, hleft.1.2, hleft.2⟩

theorem leaks : Leaks cycle ∧ Leaks missingChild ∧ Leaks terminalEdge ∧ Leaks staleTable :=
  ⟨leaks_of_attempt (by decide +kernel), leaks_of_attempt (by decide +kernel),
    leaks_of_attempt (by decide +kernel), leaks_of_attempt (by decide +kernel)⟩

end Session
end BayesCircuit.Decision
