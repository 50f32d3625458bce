import BayesCircuit.Proofs.Decision.Primitive

/-!
# Computations that may fail

`Gives x m Q` says that `Q` holds of the value of the computation `x` started on the manager `m`
and of the manager that is left, if there is a value at all. Unlike `Ends` it says nothing about
when there is one, so the rules below ask for nothing that a successful run shows by itself: that
a handle that was read is in use, or that the literal of a new node is positive.

No decision node is frozen here (`Bare`): the edges and holders of all of them are counted.
-/

namespace BayesCircuit.Decision

open Collection Action

namespace Action

variable {α β : Type} {m m' : Manager} {a : α} {x : Action α} {f : α → Action β} {o : Outcome α}
variable {P Q : α → Manager → Prop} {R : β → Manager → Prop} {h : Handle}

/-- What holds of the value of a computation, if it has one. -/
def Gives (x : Action α) (m : Manager) (Q : α → Manager → Prop) : Prop :=
  ∀ a m', x.run m = .ok a m' → Q a m'

theorem Gives.mono (hx : Gives x m P) (h : ∀ a m', P a m' → Q a m') : Gives x m Q :=
  fun a m' hrun => h a m' (hx a m' hrun)

theorem Gives.and (hx : Gives x m P) (hx' : Gives x m Q) :
    Gives x m fun a m' => P a m' ∧ Q a m' :=
  fun a m' hrun => ⟨hx a m' hrun, hx' a m' hrun⟩

/-- A fact that has nothing to do with the result. -/
theorem Gives.const {p : Prop} (hp : p) : Gives x m fun _ _ => p := fun _ _ _ => hp

theorem Gives.pure (h : Q a m) : Gives (pure a) m Q := by
  intro b m' hrun
  cases hrun
  exact h

theorem Gives.throw {e : Failure} : Gives (throw e : Action α) m Q := by
  intro b m' hrun
  cases hrun

theorem Gives.bind (hx : Gives x m P) (hf : ∀ a m', P a m' → Gives (f a) m' R) :
    Gives (x >>= f) m R := by
  intro b m'' hrun
  simp only [EStateM.run, Bind.bind, EStateM.bind] at hrun
  split at hrun
  · rename_i a m' hx'
    exact hf a m' (hx a m' hx') b m'' hrun
  · cases hrun

/-- What fails after a computation gives nothing. -/
theorem Gives.bind_throw {e : α → Failure} {Q : β → Manager → Prop} :
    Gives (x >>= fun a => (MonadExcept.throw (e a) : Action β)) m Q :=
  Gives.bind (P := fun _ _ => True) (fun _ _ _ => trivial) fun _ _ _ => Gives.throw

theorem Gives.discard {Q : Unit → Manager → Prop} (hx : Gives x m fun _ m' => Q () m') :
    Gives (discard x) m Q := by
  intro u m' hrun
  have hmap : (Functor.discard x).run m = EStateM.map (Function.const α ()) x m := rfl
  rw [hmap, EStateM.map] at hrun
  split at hrun
  · rename_i a m₁ hrun'
    cases hrun
    exact hx a m' hrun'
  · cases hrun

/-- A handler that has a value at all has one that will do. -/
theorem Gives.tryCatch {g : Failure → Action α} (hx : Gives x m Q)
    (hg : ∀ e m', Gives (g e) m' Q) : Gives (tryCatch x g) m Q := by
  intro a m' hrun
  have hcatch : (tryCatchThe Failure x g).run m = match x.run m with
      | .error e m₁ => (g e).run m₁
      | .ok a m₁ => .ok a m₁ := by
    show EStateM.tryCatch x g m = _
    simp only [EStateM.tryCatch, EStateM.run]
    cases x m <;> rfl
  rw [show (MonadExcept.tryCatch x g : Action α) = tryCatchThe Failure x g from rfl, hcatch] at hrun
  split at hrun
  · rename_i e m₁ _
    exact hg e m₁ a m' hrun
  · rename_i hrun'
    cases hrun
    exact hx _ _ hrun'

theorem Gives.of_ends (hx : Ends x m Q) : Gives x m Q := by
  obtain ⟨a, m', hrun, hQ⟩ := hx
  intro b m'' hrun'
  rw [hrun] at hrun'
  cases hrun'
  exact hQ

theorem Gives.get {f : Manager → Action β} (h : Gives (f m) m R) :
    Gives (MonadState.get >>= f) m R :=
  Gives.bind (P := fun a m' => a = m ∧ m' = m) (by rintro _ _ ⟨⟩; exact ⟨rfl, rfl⟩)
    (by rintro _ _ ⟨rfl, rfl⟩; exact h)

theorem Gives.modify {g : Manager → Manager} {f : Unit → Action β} (h : Gives (f ()) (g m) R) :
    Gives (modify g >>= f) m R :=
  Gives.bind (P := fun _ m' => m' = g m) (by rintro _ _ ⟨⟩; rfl) (by rintro _ _ rfl; exact h)

theorem gives_lift : Gives (Action.lift o) m fun a m' => o = .ok a ∧ m' = m := by
  intro a m' hrun
  cases o with
  | ok b =>
      cases hrun
      exact ⟨rfl, rfl⟩
  | error e => cases hrun

theorem Gives.lift (h : ∀ a, o = .ok a → Gives (f a) m R) : Gives (Action.lift o >>= f) m R :=
  Gives.bind gives_lift (by rintro a _ ⟨ho, rfl⟩; exact h a ho)

theorem gives_nodeAt :
    Gives (Decision.nodeAt h) m fun n m' => m.arena.get? h = some n ∧ m' = m := by
  unfold Decision.nodeAt
  refine Gives.get fun n m' hrun => ?_
  obtain ⟨hn, rfl⟩ := gives_lift n m' hrun
  exact ⟨Arena.get_eq_ok_iff.1 hn, rfl⟩

theorem Gives.nodeAt {f : Node → Action β} (hf : ∀ n, m.arena.get? h = some n → Gives (f n) m R) :
    Gives (Decision.nodeAt h >>= f) m R :=
  Gives.bind gives_nodeAt (by rintro n _ ⟨hn, rfl⟩; exact hf n hn)

theorem gives_change {u : Node → Node} :
    Gives (change h u) m fun _ m' => (∃ n, m.arena.get? h = some n) ∧ m' = m.modify h u := by
  intro a m' hrun
  cases hn : m.arena.get? h with
  | some n =>
      rw [run_change hn] at hrun
      cases hrun
      exact ⟨⟨n, rfl⟩, rfl⟩
  | none =>
      -- the node is read before it is changed
      have hread : Gives (change h u) m fun _ _ => ∃ n, m.arena.get? h = some n := by
        refine Gives.bind (P := fun _ _ => ∃ n, m.arena.get? h = some n) ?_
          fun _ _ hn => Gives.const hn
        exact Gives.discard (Gives.mono gives_nodeAt fun n _ hn => ⟨n, hn.1⟩)
      obtain ⟨n, hn'⟩ := hread a m' hrun
      rw [hn] at hn'
      cases hn'

end Action

/-! ## The primitive operations -/

variable {m m' : Manager} {frozen : Handle → Option Node} {ext : Handle → Nat}
variable {h c : Handle} {k : Node.Key}

/-- No decision node is frozen. -/
def Bare (frozen : Handle → Option Node) : Prop :=
  ∀ h : Handle, h.isTerminal = false → frozen h = none

theorem Bare.sound (hb : Bare frozen) (hc : (m.key? c).isSome) : Sound frozen m c := by
  cases ht : c.isTerminal with
  | true => exact Or.inl ht
  | false => exact Or.inr ⟨hb c ht, hc⟩

theorem Bare.of_get? {n : Node} (hb : Bare frozen) (hn : m.arena.get? c = some n) :
    Sound frozen m c :=
  hb.sound (by rw [key?_of_get? hn]; rfl)

theorem gives_reference (hb : Bare frozen) (H : Heap frozen ext m) :
    Gives (reference c) m fun _ m' => Sound frozen m c ∧
      Heap frozen (ext + Pi.single c 1) m' ∧ Rekeys m m' m.key? := by
  have hs : Gives (reference c) m fun _ _ => Sound frozen m c := by
    unfold reference
    split
    · rename_i ht
      exact Gives.const (Or.inl ht)
    · exact Gives.mono gives_change fun _ _ hc => hb.of_get? hc.1.choose_spec
  intro a m' hrun
  have hs := hs a m' hrun
  exact ⟨hs, Gives.of_ends (reference_spec H hs) a m' hrun⟩

theorem gives_dereference (hb : Bare frozen) (H : Heap frozen (ext + Pi.single c 1) m) :
    Gives (dereference c) m fun _ m' => Heap frozen ext m' ∧ Rekeys m m' m.key? := by
  have hs : Gives (dereference c) m fun _ _ => Sound frozen m c := by
    unfold dereference
    split
    · rename_i ht
      exact Gives.const (Or.inl ht)
    · exact Gives.nodeAt fun n hn => Gives.const (hb.of_get? hn)
  intro a m' hrun
  exact Gives.of_ends (dereference_spec H (hs a m' hrun)) a m' hrun

theorem gives_setHigh (hb : Bare frozen) (H : Heap frozen ext m) (hh : h.isTerminal = false) :
    Gives (setHigh h c) m fun _ m' => ∃ k, m.key? h = some k ∧ Sound frozen m c ∧
      Heap frozen ext m' ∧ Rekeys m m' (Function.update m.key? h (some { k with high := c })) := by
  have hs : Gives (setHigh h c) m fun _ _ => Sound frozen m c ∧ ∃ k, m.key? h = some k := by
    refine Gives.bind (gives_reference hb H) ?_
    rintro _ m₁ ⟨hs, -, hr⟩
    exact Gives.nodeAt fun n hn => Gives.const ⟨hs, n.key, hr.key ▸ key?_of_get? hn⟩
  intro a m' hrun
  obtain ⟨hs, k, hk⟩ := hs a m' hrun
  exact ⟨k, hk, hs, Gives.of_ends (setHigh_spec H hk (hb h hh) hs) a m' hrun⟩

theorem gives_setLow (hb : Bare frozen) (H : Heap frozen ext m) (hh : h.isTerminal = false) :
    Gives (setLow h c) m fun _ m' => ∃ k, m.key? h = some k ∧ Sound frozen m c ∧
      Heap frozen ext m' ∧ Rekeys m m' (Function.update m.key? h (some { k with low := c })) := by
  have hs : Gives (setLow h c) m fun _ _ => Sound frozen m c ∧ ∃ k, m.key? h = some k := by
    refine Gives.bind (gives_reference hb H) ?_
    rintro _ m₁ ⟨hs, -, hr⟩
    exact Gives.nodeAt fun n hn => Gives.const ⟨hs, n.key, hr.key ▸ key?_of_get? hn⟩
  intro a m' hrun
  obtain ⟨hs, k, hk⟩ := hs a m' hrun
  exact ⟨k, hk, hs, Gives.of_ends (setLow_spec H hk (hb h hh) hs) a m' hrun⟩

theorem gives_create {l : Literal} {ws : Weights} (H : Heap frozen ext m) :
    Gives (create l ws) m fun h m' => m.key? h = none ∧ h.isTerminal = false ∧
      Heap frozen ext m' ∧ Rekeys m m' (Function.update m.key? h
        (some ⟨l.value, Handle.false', Handle.false', ws⟩)) := by
  have hl : Gives (create l ws) m fun _ _ => l.isPositive = true ∧ Weights.ascends ws = true := by
    unfold create
    refine Gives.lift fun _ ho => Gives.const ?_
    rw [← Bool.and_eq_true]
    cases hb : (l.isPositive && Weights.ascends ws) with
    | true => rfl
    | false =>
        rw [hb] at ho
        cases ho
  intro h m' hrun
  obtain ⟨hl, hw⟩ := hl h m' hrun
  obtain ⟨hnone, hf, H', hr⟩ := Gives.of_ends (create_spec H hl hw) h m' hrun
  exact ⟨hnone, H.not_terminal hf, H', hr⟩

/-- A node that is freed has neither edges nor holders; otherwise nothing happens. -/
theorem gives_destroy (hb : Bare frozen) (H : Heap frozen ext m) :
    Gives (destroy h) m fun _ m' =>
      ((∃ k, m.key? h = some k) ∧ h.isTerminal = false ∧ ¬ Pointed frozen m.key? h ∧ ext h = 0 ∧
        Heap frozen ext m' ∧ Rekeys m m' (Function.update m.key? h none)) ∨
      (h.isTerminal = true ∨ Pointed frozen m.key? h ∨ 0 < ext h) ∧ m' = m := by
  have hread : Gives (destroy h) m fun _ _ =>
      h.isTerminal = true ∨ ∃ n, m.arena.get? h = some n := by
    unfold destroy
    split
    · rename_i ht
      exact Gives.const (Or.inl ht)
    · exact Gives.nodeAt fun n hn => Gives.const (Or.inr ⟨n, hn⟩)
  intro a m' hrun
  cases ht : h.isTerminal with
  | true =>
      refine Or.inr ⟨Or.inl rfl, ?_⟩
      unfold destroy at hrun
      rw [if_pos ht] at hrun
      cases hrun
      rfl
  | false =>
      obtain ⟨n, hn⟩ := (hread a m' hrun).resolve_left (by simp [ht])
      have hf := hb h ht
      have hiff := H.refs_eq_zero_iff hn hf
      by_cases hrefs : n.refs = 0
      · obtain ⟨-, H', hr⟩ := Gives.of_ends (destroy_of_free H hn hf hrefs) a m' hrun
        obtain ⟨hp, he⟩ := hiff.1 hrefs
        exact Or.inl ⟨⟨n.key, key?_of_get? hn⟩, rfl, hp, he, H', hr⟩
      · obtain ⟨-, rfl⟩ :=
          Gives.of_ends (destroy_of_used hn (Or.inr (Nat.pos_of_ne_zero hrefs))) a m' hrun
        refine Or.inr ⟨Or.inr ?_, rfl⟩
        by_contra hno
        rw [not_or] at hno
        exact hrefs (hiff.2 ⟨hno.1, by omega⟩)

end BayesCircuit.Decision
