import BayesCircuit.Multigraph.Compile
import BayesCircuit.Multigraph.Evaluate
import BayesCircuit.Proofs.Collection.Ascending
import Mathlib.Algebra.BigOperators.Group.List.Basic
import Mathlib.Algebra.BigOperators.Ring.List

/-!
# Sums of products along a tree

An `Arrangement` is a pseudo-tree in which every variable has the tables that its layer completes.
`total` sums the values of a variable and multiplies the tables and the trees below it. If the
variables of each table lie on the path to its place (`Fits`), this is the sum over all assignments
of the products of all tables (`total_eq_sum`): a table does not depend on the variables below its
place or beside it, so it can be taken out of their sums.

`Laid` says what the layers of a tree hold: the layer of a variable comes before those of the trees
below it, which follow each other; its tables are its messages, and its spanning variables suffice
for the tables and for the layers below.
-/

namespace BayesCircuit

open Multigraph (Evidence admits)

/-- A value for every variable. -/
abbrev Assignment := Variable → Nat

/-- The values of a variable that evidence admits. -/
def admitted (dim : Variable → Nat) (evidence : Evidence) (v : Variable) : List Nat :=
  (List.range (dim v)).filter (admits (evidence[v]?).join)

/-- The assignments of a list of variables that agree with evidence; the other variables keep their
values. -/
def agreeing (dim : Variable → Nat) (evidence : Evidence) :
    List Variable → Assignment → List Assignment
  | [], ρ => [ρ]
  | v :: vs, ρ => (admitted dim evidence v).flatMap fun k =>
      agreeing dim evidence vs (Function.update ρ v k)

/-- A variable, the tables that its layer completes, and the trees below. -/
inductive Arrangement where
  | mk (label : Variable) (tables : List Nat) (below : List Arrangement)

namespace Arrangement

def label : Arrangement → Variable
  | mk v _ _ => v

mutual

/-- The variables, each before those below it. -/
def preorder : Arrangement → List Variable
  | mk v _ ws => v :: preorderAll ws

def preorderAll : List Arrangement → List Variable
  | [] => []
  | w :: ws => w.preorder ++ preorderAll ws

end

mutual

/-- The tables of all layers. -/
def tables : Arrangement → List Nat
  | mk _ cs ws => cs ++ tablesAll ws

def tablesAll : List Arrangement → List Nat
  | [] => []
  | w :: ws => w.tables ++ tablesAll ws

end

mutual

/-- The variables of every table lie on the path to its place. -/
def Fits (scope : Nat → List Variable) (path : List Variable) : Arrangement → Prop
  | mk v cs ws => (∀ c ∈ cs, scope c ⊆ v :: path) ∧ FitsAll scope (v :: path) ws

def FitsAll (scope : Nat → List Variable) (path : List Variable) : List Arrangement → Prop
  | [] => True
  | w :: ws => w.Fits scope path ∧ FitsAll scope path ws

end

/-- The values of some variables do not matter to a function. -/
def Ignores {β : Type} (f : Assignment → β) (vs : List Variable) : Prop :=
  ∀ ρ σ : Assignment, (∀ u, u ∉ vs → ρ u = σ u) → f ρ = f σ

theorem Ignores.update {β : Type} {f : Assignment → β} {v : Variable} {vs : List Variable}
    {ρ : Assignment} (hf : Ignores f (v :: vs)) (k : Nat) : f (Function.update ρ v k) = f ρ := by
  refine hf _ _ fun u hu => Function.update_of_ne ?_ _ _
  rintro rfl
  exact hu (List.mem_cons_self ..)

theorem Ignores.subset {β : Type} {f : Assignment → β} {vs us : List Variable}
    (hf : Ignores f vs) (hs : us ⊆ vs) : Ignores f us :=
  fun ρ σ h => hf ρ σ fun u hu => h u fun hu' => hu (hs hu')

section Total

variable {α : Type} [CommSemiring α] (dim : Variable → Nat) (evidence : Evidence)
variable (entry : Nat → Assignment → α)

/-- The product of the entries of tables. -/
def entries (cs : List Nat) (ρ : Assignment) : α := (cs.map fun c => entry c ρ).prod

mutual

/-- The sum of products of a tree for the values of the variables above it. -/
def total (ρ : Assignment) : Arrangement → α
  | mk v cs ws => ((admitted dim evidence v).map fun k =>
      entries entry cs (Function.update ρ v k) * totalAll (Function.update ρ v k) ws).sum

def totalAll (ρ : Assignment) : List Arrangement → α
  | [] => 1
  | w :: ws => total ρ w * totalAll ρ ws

end

/-- The sum over the assignments of a list of variables. -/
def sumOver (vs : List Variable) (f : Assignment → α) (ρ : Assignment) : α :=
  ((agreeing dim evidence vs ρ).map f).sum

end Total

variable {α : Type} [CommSemiring α] {dim : Variable → Nat} {evidence : Evidence}
variable {entry : Nat → Assignment → α} {scope : Nat → List Variable} {path : List Variable}
variable {v : Variable} {vs us : List Variable} {cs : List Nat} {f g : Assignment → α}
variable {ρ : Assignment} {w : Arrangement} {ws : List Arrangement}

/-! ## Sums over assignments -/

theorem sumOver_nil : sumOver dim evidence [] f ρ = f ρ := by
  simp [sumOver, agreeing]

theorem sumOver_cons : sumOver dim evidence (v :: vs) f ρ =
    ((admitted dim evidence v).map fun k =>
      sumOver dim evidence vs f (Function.update ρ v k)).sum := by
  rw [sumOver, agreeing, List.map_flatMap, List.flatMap_def, List.sum_flatten, List.map_map]
  rfl

theorem sumOver_append :
    sumOver dim evidence (vs ++ us) f ρ =
      sumOver dim evidence vs (sumOver dim evidence us f) ρ := by
  induction vs generalizing ρ with
  | nil => rw [List.nil_append, sumOver_nil]
  | cons v vs ih =>
      rw [List.cons_append, sumOver_cons, sumOver_cons]
      simp only [ih]

/-- What the variables of a sum do not matter to can be taken out of it. -/
theorem sumOver_mul (hf : Ignores f vs) :
    sumOver dim evidence vs (fun σ => f σ * g σ) ρ = f ρ * sumOver dim evidence vs g ρ := by
  induction vs generalizing ρ with
  | nil => simp only [sumOver_nil]
  | cons v vs ih =>
      simp only [sumOver_cons, ih (hf.subset (List.subset_cons_self v vs)), hf.update,
        List.sum_map_mul_left]

/-- A sum does not depend on variables that are summed over or that its terms ignore. -/
theorem Ignores.sumOver (hg : Ignores g us) : Ignores (sumOver dim evidence vs g) us := by
  induction vs with
  | nil =>
      intro ρ σ h
      rw [sumOver_nil, sumOver_nil]
      exact hg ρ σ h
  | cons v vs ih =>
      intro ρ σ h
      rw [sumOver_cons, sumOver_cons]
      refine congrArg List.sum (List.map_congr_left fun k _ => ih _ _ fun u hu => ?_)
      by_cases huv : u = v
      · rw [huv, Function.update_self, Function.update_self]
      · rw [Function.update_of_ne huv, Function.update_of_ne huv, h u hu]

theorem sumOver_mul_sumOver (hf : Ignores f us) (hg : Ignores g vs) :
    sumOver dim evidence vs f ρ * sumOver dim evidence us g ρ =
      sumOver dim evidence (vs ++ us) (fun σ => f σ * g σ) ρ := by
  have hinner : sumOver dim evidence us (fun σ => f σ * g σ) =
      fun σ => sumOver dim evidence us g σ * f σ := by
    funext σ
    rw [sumOver_mul hf, mul_comm]
  rw [sumOver_append, hinner, sumOver_mul hg.sumOver, mul_comm]

theorem sum_sum_comm {as bs : List Nat} {h : Nat → Nat → α} :
    (as.map fun a => (bs.map fun b => h a b).sum).sum =
      (bs.map fun b => (as.map fun a => h a b).sum).sum := by
  induction as with
  | nil => simp
  | cons a as ih =>
      simp only [List.map_cons, List.sum_cons, ih]
      rw [← List.sum_map_add]

/-- The order of the variables of a sum does not matter. -/
theorem sumOver_perm (h : vs.Perm us) (hnodup : vs.Nodup) :
    sumOver dim evidence vs f ρ = sumOver dim evidence us f ρ := by
  induction h generalizing ρ with
  | nil => rfl
  | cons v _ ih =>
      simp only [sumOver_cons, ih (List.nodup_cons.1 hnodup).2]
  | swap u v vs =>
      have hne : v ≠ u := fun he => (List.nodup_cons.1 hnodup).1 (he ▸ List.mem_cons_self ..)
      simp only [sumOver_cons]
      rw [sum_sum_comm]
      simp only [Function.update_comm hne]
  | trans h _ ih ih' => rw [ih hnodup, ih' (h.nodup_iff.1 hnodup)]

/-! ## Tables and variables -/

mutual

theorem Fits.scope_subset : ∀ {w : Arrangement} {path}, w.Fits scope path →
    ∀ c ∈ w.tables, ∀ u ∈ scope c, u ∈ w.preorder ∨ u ∈ path
  | mk v cs ws, path, h, c, hc, u, hu => by
      rw [tables, List.mem_append] at hc
      rw [preorder, List.mem_cons]
      rcases hc with hc | hc
      · rcases List.mem_cons.1 (h.1 c hc hu) with rfl | hp
        · exact Or.inl (Or.inl rfl)
        · exact Or.inr hp
      · rcases FitsAll.scope_subset h.2 c hc u hu with hv | hp
        · exact Or.inl (Or.inr hv)
        · rcases List.mem_cons.1 hp with rfl | hp
          · exact Or.inl (Or.inl rfl)
          · exact Or.inr hp

theorem FitsAll.scope_subset : ∀ {ws : List Arrangement} {path}, FitsAll scope path ws →
    ∀ c ∈ tablesAll ws, ∀ u ∈ scope c, u ∈ preorderAll ws ∨ u ∈ path
  | [], _, _, _, hc, _, _ => by cases hc
  | w :: ws, path, h, c, hc, u, hu => by
      rw [tablesAll, List.mem_append] at hc
      rw [preorderAll, List.mem_append]
      rcases hc with hc | hc
      · exact (Fits.scope_subset h.1 c hc u hu).imp_left Or.inl
      · exact (FitsAll.scope_subset h.2 c hc u hu).imp_left Or.inr

end

/-- The entry that an assignment selects in a table depends on the variables of the table. -/
def Local (scope : Nat → List Variable) (entry : Nat → Assignment → α) (c : Nat) : Prop :=
  ∀ ρ σ : Assignment, (∀ u ∈ scope c, ρ u = σ u) → entry c ρ = entry c σ

/-- Tables ignore the variables that they do not mention. -/
theorem entries_ignores (hentry : ∀ c ∈ cs, Local scope entry c)
    (h : ∀ c ∈ cs, ∀ u ∈ scope c, u ∉ vs) : Ignores (entries entry cs) vs := by
  intro ρ σ hρ
  exact congrArg List.prod (List.map_congr_left fun c hc => hentry c hc ρ σ fun u hu =>
    hρ u (h c hc u hu))

theorem entries_append {cs ds : List Nat} :
    entries entry (cs ++ ds) ρ = entries entry cs ρ * entries entry ds ρ := by
  rw [entries, List.map_append, List.prod_append]
  rfl

/-! ## The sum of products -/

mutual

/-- The value of a tree is the sum over the assignments of its variables of the products of its
tables. -/
theorem total_eq_sum : ∀ {w : Arrangement} {path ρ}, (∀ c ∈ w.tables, Local scope entry c) →
    w.Fits scope path → (w.preorder ++ path).Nodup →
      total dim evidence entry ρ w = sumOver dim evidence w.preorder (entries entry w.tables) ρ
  | mk v cs ws, path, ρ, hentry, h, hn => by
      have hown := fun c hc => hentry c (List.mem_append_left _ hc)
      have hbelow := fun c hc => hentry c (List.mem_append_right _ hc)
      rw [preorder, List.cons_append, List.nodup_cons, List.mem_append, not_or] at hn
      have hn' : (preorderAll ws ++ v :: path).Nodup := by
        refine (List.perm_middle.nodup_iff).2 (List.nodup_cons.2 ⟨?_, hn.2⟩)
        rw [List.mem_append, not_or]
        exact hn.1
      have hignores : Ignores (entries entry cs) (preorderAll ws) := by
        refine entries_ignores hown fun c hc u hu hu' => ?_
        exact (List.nodup_append.1 hn').2.2 u hu' u (h.1 c hc hu) rfl
      rw [total, preorder, sumOver_cons]
      refine congrArg List.sum (List.map_congr_left fun k _ => ?_)
      rw [totalAll_eq_sum hbelow h.2 hn', ← sumOver_mul hignores, tables]
      exact congrArg (fun f => sumOver dim evidence (preorderAll ws) f (Function.update ρ v k))
        (funext fun σ => entries_append.symm)

theorem totalAll_eq_sum : ∀ {ws : List Arrangement} {path ρ},
    (∀ c ∈ tablesAll ws, Local scope entry c) → FitsAll scope path ws →
    (preorderAll ws ++ path).Nodup →
      totalAll dim evidence entry ρ ws =
        sumOver dim evidence (preorderAll ws) (entries entry (tablesAll ws)) ρ
  | [], path, ρ, _, _, _ => by simp [totalAll, preorderAll, tablesAll, sumOver_nil, entries]
  | w :: ws, path, ρ, hentry, h, hn => by
      have hfirst := fun c hc => hentry c (List.mem_append_left _ hc)
      have hothers := fun c hc => hentry c (List.mem_append_right _ hc)
      rw [preorderAll, List.append_assoc] at hn
      obtain ⟨hw, hrest, hdisjoint⟩ := List.nodup_append.1 hn
      have hpath := (List.nodup_append.1 hrest).2.2
      have hleft : Ignores (entries entry w.tables) (preorderAll ws) := by
        refine entries_ignores hfirst fun c hc u hu hu' => ?_
        rcases h.1.scope_subset c hc u hu with hv | hp
        · exact hdisjoint u hv u (List.mem_append_left _ hu') rfl
        · exact hpath u hu' u hp rfl
      have hright : Ignores (entries entry (tablesAll ws)) w.preorder := by
        refine entries_ignores hothers fun c hc u hu hu' => ?_
        rcases h.2.scope_subset c hc u hu with hv | hp
        · exact hdisjoint u hu' u (List.mem_append_left _ hv) rfl
        · exact hdisjoint u hu' u (List.mem_append_right _ hp) rfl
      have hn' : (w.preorder ++ path).Nodup := by
        refine List.nodup_append.2 ⟨hw, (List.nodup_append.1 hrest).2.1, fun u hu p hp => ?_⟩
        exact hdisjoint u hu p (List.mem_append_right _ hp)
      rw [totalAll, total_eq_sum hfirst h.1 hn', totalAll_eq_sum hothers h.2 hrest,
        sumOver_mul_sumOver hleft hright, preorderAll, tablesAll]
      exact congrArg (fun f => sumOver dim evidence (w.preorder ++ preorderAll ws) f ρ)
        (funext fun σ => entries_append.symm)

end

end Arrangement
end BayesCircuit

namespace BayesCircuit.SpanningTree

open Collection.Ascending

/-- The variables of a constraint. -/
def Source.scope (s : Source) (c : Nat) : List Variable := s.bound.scopes.getD c []

/-- The numbers of the layers below, of which there is at least the terminal one. -/
def Source.childrenOf (s : Source) (index : Nat) (below : List (List Layer)) : List Nat :=
  if below.isEmpty then [s.terminal] else firstIndices (index + 1) below

theorem length_firstIndices {index : Nat} {below : List (List Layer)} :
    (firstIndices index below).length = below.length := by
  induction below generalizing index with
  | nil => rfl
  | cons ls below ih => rw [firstIndices, List.length_cons, ih, List.length_cons]

/-- A layer of a variable that completes tables. -/
structure Carries (s : Source) (l : Layer) (v : Variable) (cs : List Nat) : Prop where
  label : l.label = v
  dim : l.dim = s.bound.dim v
  contexts : l.contexts = (l.spanning.map s.bound.dim).prod
  strict : Strict l.spanning
  notMem : v ∉ l.spanning
  pos : ∀ u ∈ l.spanning, 0 < s.bound.dim u
  messages : cs.mapM (messageAt s.encoding v l.spanning) = .ok l.messages
  mentions : ∀ c ∈ cs, v ∈ s.scope c ∧ s.scope c ⊆ v :: l.spanning

mutual

/-- The layers of a tree, numbered from `index` on. -/
inductive Laid (s : Source) : Nat → Arrangement → List Layer → Prop
  | mk {index : Nat} {v : Variable} {cs : List Nat} {ws : List Arrangement} {l : Layer}
      {below : List (List Layer)} (carries : Carries s l v cs) (number : l.index = index)
      (children : l.children = s.childrenOf index below)
      (rest : LaidAll s v l.spanning (index + 1) ws below) :
      Laid s index (.mk v cs ws) (l :: below.flatten)

/-- The layers of the trees below the layer of a variable, numbered from `index` on. -/
inductive LaidAll (s : Source) :
    Variable → List Variable → Nat → List Arrangement → List (List Layer) → Prop
  | nil {v : Variable} {above : List Variable} {index : Nat} : LaidAll s v above index [] []
  | cons {v : Variable} {above : List Variable} {index : Nat} {w : Arrangement}
      {ws : List Arrangement} {l : Layer} {ls : List Layer} {below : List (List Layer)}
      (first : Laid s index w (l :: ls))
      (address : l.address = addressBelow s.bound v above l.spanning)
      (above_of : l.spanning ⊆ v :: above)
      (rest : LaidAll s v above (index + (l :: ls).length) ws below) :
      LaidAll s v above index (w :: ws) ((l :: ls) :: below)

end

mutual

/-- There is one layer for each variable of a tree. -/
theorem Laid.labels {s : Source} : ∀ {w : Arrangement} {index ls}, Laid s index w ls →
    ls.map Layer.label = w.preorder
  | .mk _ _ _, _, _, .mk hcarries _ _ hrest => by
      rw [List.map_cons, hcarries.label, Arrangement.preorder, LaidAll.labels hrest]

theorem LaidAll.labels {s : Source} : ∀ {ws : List Arrangement} {v above index below},
    LaidAll s v above index ws below →
    below.flatten.map Layer.label = Arrangement.preorderAll ws
  | [], _, _, _, _, .nil => rfl
  | _ :: _, _, _, _, _, .cons hfirst _ _ hrest => by
      rw [List.flatten_cons, List.map_append, Arrangement.preorderAll, hfirst.labels,
        LaidAll.labels hrest]

end

theorem Laid.length_eq {s : Source} {w : Arrangement} {index : Nat} {ls : List Layer}
    (h : Laid s index w ls) : ls.length = w.preorder.length := by
  rw [← h.labels, List.length_map]

theorem LaidAll.length_eq {s : Source} {ws : List Arrangement} {v : Variable}
    {above : List Variable} {index : Nat} {below : List (List Layer)}
    (h : LaidAll s v above index ws below) :
    below.flatten.length = (Arrangement.preorderAll ws).length := by
  rw [← h.labels, List.length_map]

/-- Layers are numbered one after the other. -/
def NumberedFrom (index : Nat) (ls : List Layer) : Prop :=
  ∀ (i : Nat) (l : Layer), ls[i]? = some l → l.index = index + i

theorem NumberedFrom.nil {index : Nat} : NumberedFrom index [] := fun i l hl => by simp at hl

theorem NumberedFrom.cons {index : Nat} {l : Layer} {ls : List Layer} (hl : l.index = index)
    (hls : NumberedFrom (index + 1) ls) : NumberedFrom index (l :: ls)
  | 0, l', hl' => by
      obtain rfl := Option.some.inj hl'
      exact hl
  | i + 1, l', hl' => by
      rw [hls i l' hl']
      omega

theorem NumberedFrom.append {index : Nat} {ls ls' : List Layer} (h : NumberedFrom index ls)
    (h' : NumberedFrom (index + ls.length) ls') : NumberedFrom index (ls ++ ls') := by
  intro i l hl
  by_cases hi : i < ls.length
  · rw [List.getElem?_append_left hi] at hl
    exact h i l hl
  · rw [List.getElem?_append_right (Nat.le_of_not_lt hi)] at hl
    rw [h' _ l hl]
    omega

mutual

theorem Laid.numbered {s : Source} : ∀ {w : Arrangement} {index ls}, Laid s index w ls →
    NumberedFrom index ls
  | .mk _ _ _, _, _, .mk _ hnumber _ hrest => .cons hnumber (LaidAll.numbered hrest)

theorem LaidAll.numbered {s : Source} : ∀ {ws : List Arrangement} {v above index below},
    LaidAll s v above index ws below → NumberedFrom index below.flatten
  | [], _, _, _, _, .nil => .nil
  | _ :: _, _, _, _, _, .cons hfirst _ _ hrest =>
      .append (Laid.numbered hfirst) (LaidAll.numbered hrest)

end

/-- The layers of the variables stand between the one of the root and the terminal one. -/
theorem layers_spec {t : SpanningTree} {top last : Layer} {ls : List Layer}
    (h : t.layers.toList = top :: (ls ++ [last])) :
    Multigraph.innerLayers t = ls ∧ t.terminal = ls.length + 1 ∧ t.layer 0 = .ok top ∧
      ∀ i l, ls[i]? = some l → t.layer (i + 1) = .ok l := by
  have hsize : t.size = ls.length + 2 := by
    rw [SpanningTree.size, ← Array.length_toList, h]
    simp
  have hlayer : ∀ i l, (top :: (ls ++ [last]))[i]? = some l → t.layer i = .ok l := by
    intro i l hl
    rw [← h, Array.getElem?_toList] at hl
    simp only [SpanningTree.layer, fetch, hl, expect]
  refine ⟨?_, ?_, hlayer 0 top rfl, fun i l hl => hlayer (i + 1) l ?_⟩
  · rw [Multigraph.innerLayers, SpanningTree.variableCount, hsize, h]
    simp
  · rw [SpanningTree.terminal, hsize]
    rfl
  · obtain ⟨hi, _⟩ := List.getElem?_eq_some_iff.1 hl
    rw [List.getElem?_cons_succ, List.getElem?_append_left hi, hl]

theorem layer_last {t : SpanningTree} {top last : Layer} {ls : List Layer}
    (h : t.layers.toList = top :: (ls ++ [last])) : t.layer (ls.length + 1) = .ok last := by
  have hget : t.layers[ls.length + 1]? = some last := by
    rw [← Array.getElem?_toList, h]
    simp
  simp only [SpanningTree.layer, fetch, hget, expect]

end BayesCircuit.SpanningTree
