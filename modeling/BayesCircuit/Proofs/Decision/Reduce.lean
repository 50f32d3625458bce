import BayesCircuit.Proofs.Decision.Joint

/-!
# Leaving out low children keeps the value

A low child that `Skips` leaves out has the high child and the weights of the node above it, so a
literal that it tested jumps to the same place afterwards. A diagram that is reduced stays regular
and keeps its value (`Reduces.value_eq`), for chains that are never left and for chains that may be
left anywhere. It need not stay regular for chains that may be left at their end: without its last
literal, a chain is left earlier.
-/

namespace BayesCircuit.Decision

variable {e : Exit} {same : Int → Int → Bool} {x : Literal → Bool} {b : Block} {bs : List Block}
variable {l : Literal} {ls : List Literal} {T D D' H H' L L' Z : Diagram} {ws : Weights}
variable {n n' : Int} {V : Diagram → Value} {K : Diagram → Prop}

/-! ## Positions in a block -/

theorem Layout.ne_of_suffix (hL : Layout same (b :: bs)) (hs : l :: ls <:+ b.literals) :
    ∀ l' ∈ ls ++ flatten bs, l.value ≠ l'.value := by
  intro l' hl'
  rcases List.mem_append.1 hl' with h | h
  · have hn := hL.nodup
    rw [show flatten (b :: bs) = b.literals ++ flatten bs from rfl, List.map_append] at hn
    have hn' := ((List.nodup_append.1 hn).1).sublist (hs.sublist.map _)
    rw [List.map_cons, List.nodup_cons] at hn'
    exact fun he => hn'.1 (he ▸ List.mem_map_of_mem h)
  · exact hL.not_mem (hs.subset (List.mem_cons_self ..)) h

theorem suffix_of_cons (hs : l :: ls <:+ b.literals) : ls <:+ b.literals :=
  (List.suffix_cons l ls).trans hs

/-- The rest of a chain does not test a literal that came before. -/
theorem Chain.ne_literal (hL : Layout same (b :: bs)) (hs : l :: ls <:+ b.literals)
    (hC : Chain e (Regular e bs) ls D) : D.literal? ≠ some l.value := by
  intro hD
  obtain ⟨l', hl', he⟩ := hC.literal_mem hD fun E hE hn => hE.literal_mem hn
  exact hL.ne_of_suffix hs l' hl' he.symm

/-- A chain that is never left tests literals of its block. -/
theorem Chain.literal_mem_never (hC : Chain .never K ls D) (hD : D.literal? = some n) :
    n ∈ ls.map (·.value) := by
  cases D with
  | leaf c => cases hD
  | branch n' ws high low =>
      obtain rfl : n' = n := by simpa [Diagram.literal?] using hD
      cases ls with
      | nil => exact absurd rfl hC.1
      | cons l ls =>
          unfold Chain at hC
          split at hC
          · rename_i hn
            simp [hn]
          · exact List.mem_cons_of_mem _ (hC.1 (by decide))

/-- A chain may start later than it could. -/
theorem Chain.later (he : e ≠ .atEnd) (hC : Chain e K ls D) (hl : D.literal? ≠ some l.value) :
    Chain e K (l :: ls) D := by
  cases D with
  | leaf c => exact chain_leaf
  | branch n ws high low =>
      have hn : n ≠ l.value := by simpa [Diagram.literal?] using hl
      unfold Chain
      rw [if_neg hn]
      refine ⟨fun h => ?_, hC⟩
      cases e with
      | never => exact hC.literal_mem_never rfl
      | atEnd => exact absurd rfl he
      | anywhere => exact absurd rfl h

/-! ## The node that was left last -/

/-- Only the weights and the value of the high child of that node matter. -/
theorem chainValue_left (hH : V H = V H') (D : Diagram) :
    chainValue V x ls ⟨D, some (n, ws, H)⟩ = chainValue V x ls ⟨D, some (n', ws, H')⟩ := by
  induction ls generalizing D with
  | nil => rfl
  | cons l ls ih =>
      unfold chainValue
      cases D with
      | leaf c => cases c <;> simp only [Stand.fire, Option.map_some, descend_leaf, ih, hH]
      | branch m ws' high low =>
          by_cases hm : m = l.value
          · simp [Stand.fire, Stand.descend, hm]
          · simp only [Stand.fire, Stand.descend, hm, if_false, Option.map_some, ih, hH]

/-! ## One low child less -/

/-- The low child that is left out tests a literal of the block. -/
theorem Chain.mem_of_same (hL : Layout same (b :: bs)) (hl : l ∈ b.literals)
    (hsame : same l.value n = true) (hC : Chain e (Regular e bs) ls (.branch n ws H L)) :
    n ∈ ls.map (·.value) := by
  obtain ⟨l', hl', rfl⟩ := hC.literal_mem rfl fun E (hE : Regular e bs E) hn =>
    hE.literal_mem hn
  rcases List.mem_append.1 hl' with h | h
  · exact List.mem_map_of_mem h
  · rw [hL.within_literals.across l hl l' h] at hsame
    cases hsame

theorem Chain.skip (he : e ≠ .atEnd) (hL : Layout same (b :: bs)) :
    ∀ {ls}, ls <:+ b.literals → n ∈ ls.map (·.value) →
      Chain e (Regular e bs) ls (.branch n ws H Z) → Chain e (Regular e bs) ls Z
  | [], _, hn, _ => by cases hn
  | l :: ls, hs, hn, hC => by
      have htail : Chain e (Regular e bs) ls Z := by
        unfold Chain at hC
        split at hC
        · exact hC.2
        · rename_i hne
          refine Chain.skip he hL (suffix_of_cons hs) ?_ hC.2
          exact (List.mem_cons.1 hn).resolve_left hne
      exact htail.later he (htail.ne_literal hL hs)

/-- A literal of the low child that is left out jumps to where the low child led. -/
theorem chainValue_skip (he : e ≠ .atEnd) (hL : Layout same (b :: bs)) (hZ : Z ≠ .leaf true) :
    ∀ {ls}, ls <:+ b.literals → n' ∈ ls.map (·.value) → Chain e (Regular e bs) ls (.branch n' ws H Z) →
      chainValue V x ls ⟨.branch n' ws H Z, some (n, ws, H)⟩ =
        chainValue V x ls ⟨Z, some (n, ws, H)⟩
  | [], _, hn, _ => by cases hn
  | l :: ls, hs, hn, hC => by
      have hjump : ∀ {E : Diagram}, E ≠ .leaf true → E.literal? ≠ some l.value →
          Stand.fire l ⟨E, some (n, ws, H)⟩ = some (ws, H) := by
        intro E hE hl
        rcases fire_cases ⟨E, some (n, ws, H)⟩ l with ⟨_, _, _, hn, _, _⟩ | ⟨_, _, hf⟩
        · rw [show E = _ from hn] at hl
          exact absurd rfl hl
        · rw [hf, if_neg hE]
          rfl
      unfold Chain at hC
      unfold chainValue
      split at hC
      · rename_i hl
        have hne := hC.2.ne_literal hL hs
        rw [hjump hZ hne, descend_of_untested hne]
        simp only [Stand.fire, Stand.descend, hl, if_true]
        split
        · rfl
        · exact chainValue_left rfl Z
      · rename_i hl
        have hmem : n' ∈ ls.map (·.value) := (List.mem_cons.1 hn).resolve_left hl
        have hlit : (Diagram.branch n' ws H Z).literal? ≠ some l.value := by
          simpa [Diagram.literal?] using hl
        -- below the low child, nothing tests this literal either
        have hne : Z.literal? ≠ some l.value :=
          (hC.2.skip he hL (suffix_of_cons hs) hmem).ne_literal hL hs
        rw [hjump (by simp) hlit, hjump hZ hne, descend_of_untested hlit, descend_of_untested hne,
          chainValue_skip he hL hZ (suffix_of_cons hs) hmem hC.2]

/-! ## Keeping the value -/

/-- Wherever a tree stands in a regular diagram, another one may stand in its place. -/
structure Replaces (e : Exit) (same : Int → Int → Bool) (D T : Diagram) : Prop where
  regular : ∀ {bs}, Layout same bs → Regular e bs T →
    Regular e bs D ∧ ∀ x, D.value x bs = T.value x bs
  chain : ∀ {b bs ls}, Layout same (b :: bs) → ls <:+ b.literals → Chain e (Regular e bs) ls T →
    Chain e (Regular e bs) ls D ∧ ∀ x n ws H, chainValue (Diagram.value x bs) x ls
      ⟨D, some (n, ws, H)⟩ = chainValue (Diagram.value x bs) x ls ⟨T, some (n, ws, H)⟩

theorem Replaces.refl (T : Diagram) : Replaces e same T T :=
  ⟨fun _ hT => ⟨hT, fun _ => rfl⟩, fun _ _ hT => ⟨hT, fun _ _ _ _ => rfl⟩⟩

theorem Replaces.trans (h : Replaces e same D' D) (h' : Replaces e same D T) :
    Replaces e same D' T where
  regular hL hT := by
    obtain ⟨hD, hv⟩ := h'.regular hL hT
    obtain ⟨hD', hv'⟩ := h.regular hL hD
    exact ⟨hD', fun x => (hv' x).trans (hv x)⟩
  chain hL hs hT := by
    obtain ⟨hD, hv⟩ := h'.chain hL hs hT
    obtain ⟨hD', hv'⟩ := h.chain hL hs hD
    exact ⟨hD', fun x n ws H => (hv' x n ws H).trans (hv x n ws H)⟩

/-- Two nodes stand for each other if their children do at every place below the node. -/
theorem Replaces.of_children
    (hhigh : ∀ {bs}, Layout same bs → Regular e bs H →
      Regular e bs H' ∧ ∀ x, H'.value x bs = H.value x bs)
    (hlow : ∀ {b bs l ls}, Layout same (b :: bs) → l :: ls <:+ b.literals → l.value = n →
      Chain e (Regular e bs) ls L → Chain e (Regular e bs) ls L' ∧
        (Regular e bs H → ∀ x, chainValue (Diagram.value x bs) x ls ⟨L', some (n, ws, H')⟩ =
          chainValue (Diagram.value x bs) x ls ⟨L, some (n, ws, H)⟩)) :
    Replaces e same (.branch n ws H' L') (.branch n ws H L) := by
  -- what a literal that the node tests makes of it
  have hnode : ∀ {b bs l ls p}, Layout same (b :: bs) → l :: ls <:+ b.literals → l.value = n →
      Regular e bs H → Chain e (Regular e bs) ls L → ∀ x,
      chainValue (Diagram.value x bs) x (l :: ls) ⟨.branch n ws H' L', p⟩ =
        chainValue (Diagram.value x bs) x (l :: ls) ⟨.branch n ws H L, p⟩ := by
    intro b bs l ls p hL hs hl hH hC x
    simp only [chainValue, Stand.fire, Stand.descend, hl, if_true, (hhigh hL.tail hH).2 x,
      (hlow hL hs hl hC).2 hH x]
  have hregular : ∀ {bs}, Layout same bs → Regular e bs (.branch n ws H L) →
      Regular e bs (.branch n ws H' L') ∧
        ∀ x, (Diagram.branch n ws H' L').value x bs = (Diagram.branch n ws H L).value x bs := by
    intro bs hL hT
    induction bs with
    | nil => exact hT.elim
    | cons b bs ih =>
        unfold Regular at hT ⊢
        split at hT
        · rename_i hl
          have hs : b.head :: b.tail <:+ b.literals := List.suffix_refl _
          rw [if_pos hl]
          exact ⟨⟨(hhigh hL.tail hT.1).1, (hlow hL hs hl.symm hT.2).1⟩,
            hnode hL hs hl.symm hT.1 hT.2⟩
        · rename_i hl
          obtain ⟨hR, hv⟩ := ih hL.tail hT
          rw [if_neg hl]
          refine ⟨hR, fun x => ?_⟩
          rw [value_of_untested (hR.untested hL), value_of_untested (hT.untested hL), hv x]
  refine ⟨hregular, ?_⟩
  intro b bs ls hL hs hT
  induction ls with
  | nil =>
      obtain ⟨hR, hv⟩ := hregular hL.tail hT.2
      exact ⟨⟨hT.1, hR⟩, fun x _ _ _ => hv x⟩
  | cons l ls ih =>
      unfold Chain at hT ⊢
      split at hT
      · rename_i hl
        rw [if_pos hl]
        exact ⟨⟨(hhigh hL.tail hT.1).1, (hlow hL hs hl.symm hT.2).1⟩,
          fun x _ _ _ => hnode hL hs hl.symm hT.1 hT.2 x⟩
      · rename_i hl
        obtain ⟨hC, hv⟩ := ih (suffix_of_cons hs) hT.2
        rw [if_neg hl]
        refine ⟨⟨hT.1, hC⟩, fun x m us E => ?_⟩
        simp only [chainValue, Stand.fire, Stand.descend, hl, if_false, Option.map_some, hv]

theorem Replaces.node (hH : Replaces e same H' H) (hL : Replaces e same L' L) :
    Replaces e same (.branch n ws H' L') (.branch n ws H L) := by
  refine .of_children (fun hB => hH.regular hB) fun {b bs l ls} hB hs _ hC => ?_
  obtain ⟨hC', hv⟩ := hL.chain hB (suffix_of_cons hs) hC
  refine ⟨hC', fun hR x => ?_⟩
  rw [hv]
  exact chainValue_left ((hH.regular hB.tail hR).2 x) L

theorem Replaces.skip (he : e ≠ .atEnd) (hsame : same n n' = true) (hZ : Z ≠ .leaf true) :
    Replaces e same (.branch n ws H Z) (.branch n ws H (.branch n' ws H Z)) := by
  refine .of_children (fun _ hR => ⟨hR, fun _ => rfl⟩) fun {b bs l ls} hB hs hl hC => ?_
  subst hl
  have hmem := hC.mem_of_same hB (hs.subset (List.mem_cons_self ..)) hsame
  have hs' := suffix_of_cons hs
  exact ⟨hC.skip he hB hs' hmem, fun _ x => (chainValue_skip he hB hZ hs' hmem hC).symm⟩

theorem Skips.replaces (he : e ≠ .atEnd) (h : Skips same T D) : Replaces e same D T := by
  induction h with
  | refl T => exact .refl T
  | step hsame hZ _ ih => exact ih.trans (.skip he hsame hZ)

theorem Reduces.replaces (he : e ≠ .atEnd) (h : Reduces same T D) : Replaces e same D T := by
  induction h with
  | refl T => exact .refl T
  | node _ _ hs ihH ihL => exact (hs.replaces he).trans (.node ihH ihL)

/-- A reduced diagram is regular. -/
theorem Reduces.regular (h : Reduces same T D) (he : e ≠ .atEnd) (hL : Layout same bs)
    (hT : Regular e bs T) : Regular e bs D :=
  ((h.replaces he).regular hL hT).1

/-- A reduced diagram has the value of the diagram. -/
theorem Reduces.value_eq (h : Reduces same T D) (he : e ≠ .atEnd) (hL : Layout same bs)
    (hT : Regular e bs T) (x : Literal → Bool) : D.value x bs = T.value x bs :=
  ((h.replaces he).regular hL hT).2 x

end BayesCircuit.Decision
