import BayesCircuit.Proofs.Decision.Sweep

/-!
# Full trees

A full tree tests, variable by variable, every literal of a variable in a chain of low edges that
ends in `false'`, or none of them. Whatever is left out when such a tree is collapsed can be told
from the ordering, so two parts of full trees that collapse to one tree are equal
(`Inside.collapse_injective`): a shared diagram with a full tree is collapsed in place without any
of its nodes becoming equal (`Full.rigid`).
-/

namespace BayesCircuit.Decision

variable {same : Int → Int → Bool} {K : Diagram → Prop} {D E H L Z : Diagram} {ws v : Weights}
variable {l n : Literal} {ls b : List Literal} {bs : List (List Literal)} {i j : Int}

/-- A chain that tests all literals of a list and ends in `false'`. High edges to `false'` weigh
nothing. -/
inductive FullChain (K : Diagram → Prop) : List Literal → Diagram → Prop
  | nil : FullChain K [] (.leaf false)
  | cons {l : Literal} {ls : List Literal} {ws : Weights} {H L : Diagram} :
      Weights.ascends ws = true → (H = .leaf false → ws = []) → K H → FullChain K ls L →
      FullChain K (l :: ls) (.branch l.value ws H L)

/-- A tree that tests, block by block, all literals of the block or none of them. -/
def Full : List (List Literal) → Diagram → Prop
  | [], D => ∃ c, D = .leaf c
  | b :: bs, D => Full bs D ∨ FullChain (Full bs) b D

/-- A tree that occurs in a full tree. -/
def Inside : List (List Literal) → Diagram → Prop
  | [], D => ∃ c, D = .leaf c
  | b :: bs, D => Inside bs D ∨ ∃ ls, ls <:+ b ∧ FullChain (Full bs) ls D

/-- The literals of blocks are different, and those of one block are alike. -/
structure Grouped (same : Int → Int → Bool) (bs : List (List Literal)) : Prop where
  nodup : bs.flatten.Nodup
  alike : ∀ b ∈ bs, ∀ l ∈ b, ∀ l' ∈ b, ∀ i, same l.value i = same l'.value i

theorem Grouped.tail (h : Grouped same (b :: bs)) : Grouped same bs where
  nodup := (List.nodup_append.1 h.nodup).2.1
  alike b' hb' := h.alike b' (List.mem_cons_of_mem _ hb')

theorem full_leaf {c : Bool} : ∀ {bs : List (List Literal)}, Full bs (.leaf c)
  | [] => ⟨c, rfl⟩
  | _ :: _ => Or.inl full_leaf

theorem FullChain.mono {K' : Diagram → Prop} (hK : ∀ {D}, K D → K' D) (hD : FullChain K ls D) :
    FullChain K' ls D := by
  induction hD with
  | nil => exact .nil
  | cons hw hfalse hH _ ih => exact .cons hw hfalse (hK hH) ih

/-- A tree that tests some of the blocks tests the others not at all. -/
theorem Full.sublist {cs : List (List Literal)} (hsub : cs.Sublist bs) (hD : Full cs D) :
    Full bs D := by
  induction hsub generalizing D with
  | slnil => exact hD
  | cons b _ ih => exact Or.inl (ih hD)
  | cons_cons b _ ih => exact hD.imp ih fun hC => hC.mono ih

theorem value_injective : Function.Injective Literal.value := by
  intro a b h
  cases a
  cases b
  cases h
  rfl

/-! ## Leaves and roots -/

theorem literal_collapse : (D.collapse same).literal? = D.literal? := by
  cases D with
  | leaf c => rfl
  | branch l ws H L => rfl

theorem collapse_eq_leaf {c : Bool} : D.collapse same = .leaf c ↔ D = .leaf c := by
  cases D with
  | leaf c' => rfl
  | branch l ws H L => exact ⟨nofun, nofun⟩

/-! ## Chains -/

/-- The node that follows in a chain is left out, or is the next one that is kept. -/
theorem lowAfter_collapse_branch {j : Int} (h : ∀ x, same i x = same j x)
    (hlow : Diagram.lowAfter same j v (D.collapse same) (Z.collapse same) ≠ .leaf true) :
    Diagram.lowAfter same i ws H ((Diagram.branch j v D Z).collapse same) =
      if same i j = true ∧ v = ws ∧ D.collapse same = H then
        Diagram.lowAfter same i ws H (Z.collapse same)
      else .branch j v (D.collapse same)
        (Diagram.lowAfter same j v (D.collapse same) (Z.collapse same)) := by
  rw [Diagram.collapse, Diagram.skip, Diagram.lowAfter]
  by_cases hskip : same i j = true ∧ v = ws ∧ D.collapse same = H
  · obtain ⟨hs, rfl, rfl⟩ := hskip
    rw [if_pos ⟨hs, rfl, rfl, hlow⟩, if_pos ⟨hs, rfl, rfl⟩, lowAfter_lowAfter h]
  · rw [if_neg hskip, if_neg fun hskip' => hskip ⟨hskip'.1, hskip'.2.1, hskip'.2.2.1⟩]

/-- Below a node of its block, a full chain is collapsed to a chain or to `false'`. -/
theorem FullChain.lowAfter_cases (i : Int) (ws : Weights) (H : Diagram) (hC : FullChain K ls D)
    (h : ∀ l ∈ ls, ∀ x, same i x = same l.value x) :
    Diagram.lowAfter same i ws H (D.collapse same) = .leaf false ∨
      ∃ l ∈ ls, (Diagram.lowAfter same i ws H (D.collapse same)).literal? = some l.value := by
  induction hC generalizing i ws H with
  | nil => exact Or.inl rfl
  | @cons l ls v H' L _ _ _ _ ih =>
      obtain ⟨hl, hls⟩ := List.forall_mem_cons.1 h
      have hnext : ∀ m ∈ ls, ∀ x, same l.value x = same m.value x :=
        fun m hm x => (hl x).symm.trans (hls m hm x)
      have hlow : Diagram.lowAfter same l.value v (H'.collapse same) (L.collapse same) ≠
          .leaf true := by
        intro he
        rcases ih l.value v (H'.collapse same) hnext with hf | ⟨m, -, hm⟩
        · rw [he] at hf
          cases hf
        · rw [he] at hm
          cases hm
      rw [lowAfter_collapse_branch hl hlow]
      split
      · exact (ih i ws H hls).imp_right fun ⟨m, hm, he⟩ => ⟨m, List.mem_cons_of_mem _ hm, he⟩
      · exact Or.inr ⟨l, List.mem_cons_self .., rfl⟩

theorem FullChain.lowAfter_ne_true (hC : FullChain K ls D)
    (h : ∀ l ∈ ls, ∀ x, same i x = same l.value x) :
    Diagram.lowAfter same i ws H (D.collapse same) ≠ .leaf true := by
  intro he
  rcases hC.lowAfter_cases i ws H h with hf | ⟨m, -, hm⟩
  · rw [he] at hf
    cases hf
  · rw [he] at hm
    cases hm

/-- Below the same node, full chains that collapse to the same are equal. -/
theorem FullChain.lowAfter_injective
    (hK : ∀ {D E}, K D → K E → D.collapse same = E.collapse same → D = E) (hn : ls.Nodup)
    (h : ∀ l ∈ ls, ∀ x, same i x = same l.value x) (hD : FullChain K ls D) (hE : FullChain K ls E)
    (he : Diagram.lowAfter same i ws H (D.collapse same) =
      Diagram.lowAfter same i ws H (E.collapse same)) : D = E := by
  induction hD generalizing i ws H E with
  | nil =>
      cases hE
      rfl
  | @cons l ls v A Z _ _ hA hZ ih =>
      cases hE with
      | @cons _ _ v' A' Z' _ _ hA' hZ' =>
          obtain ⟨hl, hls⟩ := List.forall_mem_cons.1 h
          obtain ⟨hnot, hn⟩ := List.nodup_cons.1 hn
          have hnext : ∀ m ∈ ls, ∀ x, same l.value x = same m.value x :=
            fun m hm x => (hl x).symm.trans (hls m hm x)
          -- the literal of a node that is kept does not come again below
          have hapart : ∀ {C v₀ B M}, FullChain K ls C →
              Diagram.lowAfter same i ws H (C.collapse same) ≠ .branch l.value v₀ B M := by
            intro C v₀ B M hC heq
            rcases hC.lowAfter_cases i ws H hls with hf | ⟨m, hm, hlit⟩
            · rw [heq] at hf
              cases hf
            · rw [heq] at hlit
              obtain rfl : l = m := value_injective (Option.some.inj hlit)
              exact hnot hm
          rw [lowAfter_collapse_branch hl (hZ.lowAfter_ne_true hnext),
            lowAfter_collapse_branch hl (hZ'.lowAfter_ne_true hnext)] at he
          split at he
          · rename_i hskip
            obtain ⟨-, rfl, hhigh⟩ := hskip
            split at he
            · rename_i hskip'
              obtain ⟨-, rfl, hhigh'⟩ := hskip'
              rw [hK hA hA' (hhigh.trans hhigh'.symm), ih hn hls hZ' he]
            · exact absurd he (hapart hZ)
          · split at he
            · exact absurd he.symm (hapart hZ')
            · obtain ⟨-, rfl, hhigh, hlow⟩ := Diagram.branch.inj he
              obtain rfl := hK hA hA' hhigh
              rw [ih hn hnext hZ' hlow]

/-! ## Parts of full trees -/

theorem Full.inside : ∀ {bs : List (List Literal)} {D : Diagram}, Full bs D → Inside bs D
  | [], _, h => h
  | _ :: _, _, Or.inl h => Or.inl h.inside
  | b :: _, _, Or.inr h => Or.inr ⟨b, List.suffix_refl b, h⟩

theorem Inside.children : ∀ {bs : List (List Literal)}, Inside bs (.branch i ws H L) →
    Inside bs H ∧ Inside bs L
  | [], ⟨_, h⟩ => nomatch h
  | _ :: _, Or.inl h => h.children.imp Or.inl Or.inl
  | _ :: _, Or.inr ⟨_, hls, h⟩ => by
      cases h with
      | cons _ _ hH hL => exact ⟨Or.inl hH.inside, Or.inr ⟨_, (List.suffix_cons ..).trans hls, hL⟩⟩

theorem FullChain.literal {i : Int} (hC : FullChain K ls D) (h : D.literal? = some i) :
    ∃ l, ls.head? = some l ∧ i = l.value := by
  cases hC with
  | nil => cases h
  | cons => exact ⟨_, rfl, (Option.some.inj h).symm⟩

theorem Inside.literal {i : Int} : ∀ {bs : List (List Literal)} {D : Diagram}, Inside bs D →
    D.literal? = some i → ∃ l ∈ bs.flatten, i = l.value
  | [], _, ⟨_, rfl⟩, h => nomatch h
  | b :: bs, _, Or.inl hD, h => by
      obtain ⟨l, hl, hi⟩ := hD.literal h
      exact ⟨l, List.mem_append_right _ hl, hi⟩
  | b :: bs, _, Or.inr ⟨_, hls, hC⟩, h => by
      obtain ⟨l, hl, hi⟩ := hC.literal h
      exact ⟨l, List.mem_append_left _ (hls.subset (List.mem_of_head? hl)), hi⟩

/-- Suffixes with one head are equal. -/
theorem suffix_eq_of_head (hn : b.Nodup) {ls' : List Literal} (h : l :: ls <:+ b)
    (h' : l :: ls' <:+ b) : ls = ls' := by
  have hother : ∀ {xs ys : List Literal}, l :: ys <:+ b → l :: xs <:+ l :: ys → xs = ys := by
    intro xs ys hys hxy
    rcases List.suffix_cons_iff.1 hxy with he | hxy
    · exact (List.cons.inj he).2
    · have hnot := (List.nodup_cons.1 (hys.sublist.nodup hn)).1
      exact absurd (hxy.subset (List.mem_cons_self ..)) hnot
  rcases List.suffix_or_suffix_of_suffix h h' with hle | hle
  · exact hother h' hle
  · exact (hother h hle).symm

/-- Parts of full trees that collapse to the same are equal. -/
theorem Inside.collapse_injective : ∀ {bs : List (List Literal)}, Grouped same bs →
    ∀ {D E : Diagram}, Inside bs D → Inside bs E → D.collapse same = E.collapse same → D = E
  | [], _, _, _, ⟨_, rfl⟩, ⟨_, rfl⟩, he => he
  | b :: bs, hG, D, E, hD, hE, he => by
      have hlit : D.literal? = E.literal? := by
        rw [← literal_collapse (D := D), he, literal_collapse]
      have hapart : ∀ {l}, l ∈ b → l ∉ bs.flatten := fun hl hl' =>
        (List.nodup_append.1 hG.nodup).2.2 _ hl _ hl' rfl
      -- a chain of this block is no tree of later blocks
      have hmixed : ∀ {ls D E}, ls <:+ b → FullChain (Full bs) ls D → Inside bs E →
          D.literal? = E.literal? → D = .leaf false ∧ E.literal? = none := by
        intro ls D E hls hC hE hlit
        cases hC with
        | nil => exact ⟨rfl, hlit.symm⟩
        | @cons l ls _ _ _ _ _ _ _ =>
            obtain ⟨l', hl', hvalue⟩ := hE.literal hlit.symm
            obtain rfl := value_injective hvalue
            exact absurd hl' (hapart (hls.subset (List.mem_cons_self ..)))
      rcases hD with hD | ⟨ls, hls, hC⟩
      · rcases hE with hE | ⟨ls', hls', hC'⟩
        · exact hD.collapse_injective hG.tail hE he
        · obtain ⟨rfl, -⟩ := hmixed hls' hC' hD hlit.symm
          exact collapse_eq_leaf.1 he
      · rcases hE with hE | ⟨ls', hls', hC'⟩
        · obtain ⟨rfl, -⟩ := hmixed hls hC hE hlit
          exact (collapse_eq_leaf.1 he.symm).symm
        · cases hC with
          | nil => exact (collapse_eq_leaf.1 he.symm).symm
          | @cons l ls ws H L _ _ hH hL =>
              cases hC' with
              | nil => cases he
              | @cons l' ls' ws' H' L' _ _ hH' hL' =>
                  obtain ⟨hvalue, rfl, hhigh, hlow⟩ := Diagram.branch.inj he
                  obtain rfl := value_injective hvalue
                  have hnb := (List.nodup_append.1 hG.nodup).1
                  obtain rfl := suffix_eq_of_head hnb hls hls'
                  have hK : ∀ {D E}, Full bs D → Full bs E → D.collapse same = E.collapse same →
                      D = E := fun hD hE he => hD.inside.collapse_injective hG.tail hE.inside he
                  obtain rfl := hK hH hH' hhigh
                  have hb := hG.alike b (List.mem_cons_self ..)
                  rw [FullChain.lowAfter_injective hK ((hls.sublist.nodup hnb).of_cons)
                    (fun m hm => hb l (hls.subset (List.mem_cons_self ..)) m
                      (hls.subset (List.mem_cons_of_mem _ hm))) hL hL' hlow]

variable {f : Handle → Option Node.Key} {root g : Handle} {T : Diagram}

/-- What is below a diagram with a full tree is part of a full tree. -/
theorem Full.inside_of_below (hT : Full bs T) (hD : Denotes f root T) (hb : Below f root g) :
    ∃ E, Denotes f g E ∧ Inside bs E := by
  induction hb with
  | refl => exact ⟨T, hD, hT.inside⟩
  | tail _ he ih =>
      obtain ⟨E, hE, hin⟩ := ih
      obtain ⟨ht, k, hk, hkh⟩ := he
      obtain ⟨k', H, L, hk', hH, hL, rfl⟩ := hE.cases_node ht
      obtain rfl := Option.some.inj (hk'.symm.trans hk)
      rcases hkh with rfl | rfl
      · exact ⟨H, hH, hin.children.1⟩
      · exact ⟨L, hL, hin.children.2⟩

/-- No two nodes of a shared diagram with a full tree collapse to the same tree. -/
theorem Full.rigid (hG : Grouped same bs) (hT : Full bs T) (hD : Denotes f root T)
    (hs : Shared f root) : Rigid f same root T where
  denotes := hD
  eq_of_collapse := by
    intro g h A B hg hh hA hB he
    obtain ⟨A', hA', hinA⟩ := hT.inside_of_below hD hg
    obtain ⟨B', hB', hinB⟩ := hT.inside_of_below hD hh
    obtain rfl := hA.unique hA'
    obtain rfl := hB.unique hB'
    exact hs hg hh (hinA.collapse_injective hG hinB he ▸ hA) hB

end BayesCircuit.Decision
