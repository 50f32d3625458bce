import BayesCircuit.Proofs.Collection.Ascending
import BayesCircuit.Proofs.Counter
import BayesCircuit.Proofs.Multigraph.Value
import BayesCircuit.Proofs.SpanningTree.Arrangement

/-!
# The levels of a multigraph

A context of a layer lists the values of its spanning variables. With the value of the layer's
variable, it determines the contexts of the layers below (`childContext_eq`) and the rows of the
tables that the layer completes (`rowOf_eq`): both are the numbers of the digits that the assignment
gives to the variables in question.

While the contexts of a layer are walked through, the level only grows, and its nodes are grounded:
an and node is stored before the or node that uses it. A node that is added has the value that its
edges give it, whether it is new or an equal one is shared (`Filling.add_spec`). The edges for the
values of a variable are worth the products of the tables that they complete and of what lies below
(`edgesFor_spec`), so the node of a context is worth the sum of these products
(`fillContext_spec`).

A label is multiplied by one row for each table that the edge completes, unless a row has the
reserved weight zero. Either way it is worth the product of the entries in these rows
(`edgeLabel?_spec`).

Every context of a layer gets a node that is worth the sum of products for all assignments that
the context stands for (`fillContext_spec`). The contexts are walked through in the order of their
numbers, so afterwards every slot of the level is filled, and the level has no more nodes than its
layer allows (`compileLayer_spec`).
-/

namespace BayesCircuit.Multigraph

/-! ## Contexts, rows and the assignments that they stand for -/

section

open Collection.Ascending

variable {v : Variable} {spanning target : List Variable} {ρ : Assignment} {value i p : Nat}
variable {dim : Variable → Nat}

theorem findIdx?_eq_some_iff (ht : target.Nodup) (hi : i < target.length) :
    target.findIdx? (· == v) = some i ↔ target[i] = v := by
  constructor
  · intro h
    obtain ⟨_, hv, _⟩ := List.findIdx?_eq_some_iff_getElem.1 h
    simpa using hv
  · intro h
    refine List.findIdx?_eq_some_iff_getElem.2 ⟨hi, by simpa using h, fun j hj => ?_⟩
    have hne : target[j] ≠ target[i] := by
      intro he
      exact absurd ((List.Nodup.getElem_inj_iff ht).1 he) (Nat.ne_of_lt hj)
    simpa [h] using hne

/-- The position at which a variable is looked for is that of the variable. -/
theorem beq_position (ht : target.Nodup) (hv : v ∈ target) (hi : i < target.length) :
    (i == (target.findIdx? (· == v)).getD p) = decide (target[i] = v) := by
  obtain ⟨q, hq⟩ := exists_findIdx? hv
  rw [hq, Option.getD_some]
  have hiff := findIdx?_eq_some_iff (v := v) ht hi
  rw [hq, Option.some.injEq] at hiff
  by_cases h : target[i] = v
  · simp [h, hiff.2 h]
  · have hne : i ≠ q := fun he => h (hiff.1 he.symm)
    simp [h, hne]

theorem length_projection (hs : Strict spanning) (ht : Strict target) :
    (Counter.projection spanning target).length = target.length := by
  rw [projection_eq hs ht, Counter.projectionUnsorted, List.length_map]

theorem getElem_projection (hs : Strict spanning) (ht : Strict target) (hi : i < target.length) :
    (Counter.projection spanning target)[i]? = some (spanning.findIdx? (· == target[i])) := by
  rw [projection_eq hs ht, Counter.projectionUnsorted, List.getElem?_map,
    List.getElem?_eq_getElem hi]
  rfl

/-- A list that is found position by position. -/
theorem zipIdx_map_eq {α β : Type} {g : α × Nat → β} {f : Variable → β} {xs : List α}
    (hlen : xs.length = target.length)
    (h : ∀ i (hi : i < target.length), ∀ x, xs[i]? = some x → g (x, i) = f target[i]) :
    xs.zipIdx.map g = target.map f := by
  refine List.ext_getElem (by simp [hlen]) fun i h₁ h₂ => ?_
  have hi : i < target.length := by simpa using h₂
  have hx : i < xs.length := by omega
  simp only [List.getElem_map, List.getElem_zipIdx, Nat.zero_add]
  exact h i hi xs[i] (List.getElem?_eq_getElem hx)

/-- The digits that an edge selects in a table. -/
theorem rowDigits_eq {owner : Variable} (hs : Strict spanning) (ht : Strict target)
    (hv : v ∈ target) (hsub : target ⊆ v :: spanning) :
    rowDigits ⟨owner, Counter.projection spanning target, (target.findIdx? (· == v)).getD 0⟩
      (spanning.map ρ) value = target.map (Function.update ρ v value) := by
  refine zipIdx_map_eq (length_projection hs ht) fun i hi source hsource => ?_
  rw [getElem_projection hs ht hi] at hsource
  obtain rfl := Option.some.inj hsource
  simp only [beq_position ht.nodup hv hi, decide_eq_true_eq]
  by_cases h : target[i] = v
  · rw [if_pos h, h, Function.update_self]
  · have hmem : target[i] ∈ spanning :=
      (List.mem_cons.1 (hsub (List.getElem_mem hi))).resolve_left h
    obtain ⟨q, hq⟩ := exists_findIdx? hmem
    rw [if_neg h, Function.update_of_ne h, hq, Option.elim_some, getD_of_findIdx? hq]

/-- The digits of the context that an edge leads to. -/
theorem childDigits_eq {b : Bound} (hs : Strict spanning) (ht : Strict target)
    (hv : v ∉ spanning) (hsub : target ⊆ v :: spanning) :
    childDigits (SpanningTree.addressBelow b v spanning target) (spanning.map ρ) value =
      target.map (Function.update ρ v value) := by
  refine zipIdx_map_eq (length_projection hs ht) fun i hi source hsource => ?_
  rw [show (SpanningTree.addressBelow b v spanning target).sources =
    Counter.projection spanning target from rfl, getElem_projection hs ht hi] at hsource
  obtain rfl := Option.some.inj hsource
  by_cases h : target[i] = v
  · have hnone : spanning.findIdx? (· == v) = none := by
      rw [List.findIdx?_eq_none_iff]
      intro u hu
      have : u ≠ v := fun he => hv (he ▸ hu)
      simpa using this
    have hmem : v ∈ target := h ▸ List.getElem_mem hi
    simp [SpanningTree.addressBelow, hnone, beq_position ht.nodup hmem hi, h, hmem]
  · have hmem : target[i] ∈ spanning :=
      (List.mem_cons.1 (hsub (List.getElem_mem hi))).resolve_left h
    obtain ⟨q, hq⟩ := exists_findIdx? hmem
    simp only [hq, Function.update_of_ne h, getD_of_findIdx? hq]

theorem rowOf_eq {owner : Variable} {f : Factor} (hs : Strict spanning) (ht : Strict f.scope)
    (hv : v ∈ f.scope) (hsub : f.scope ⊆ v :: spanning) (hd : f.dims = f.scope.map dim) :
    rowOf f ⟨owner, Counter.projection spanning f.scope, (f.scope.findIdx? (· == v)).getD 0⟩
      (spanning.map ρ) value =
        Counter.number f.dims (f.scope.map (Function.update ρ v value)) := by
  rw [rowOf, rowDigits_eq hs ht hv hsub, Factor.counter, Counter.value_withDigits]
  rw [hd, List.length_map, List.length_map]

theorem childContext_eq {b : Bound} (hs : Strict spanning) (ht : Strict target)
    (hv : v ∉ spanning) (hsub : target ⊆ v :: spanning) :
    childContext (SpanningTree.addressBelow b v spanning target) (spanning.map ρ) value =
      Counter.number (target.map b.dim) (target.map (Function.update ρ v value)) := by
  rw [childContext, childDigits_eq hs ht hv hsub, Counter.value_withDigits]
  · rfl
  · rw [List.length_map]
    exact (List.length_map ..).symm

end

/-! ## Filling a level -/

variable {W α : Type} [DecidableEq W] [Hashable W] [CommSemiring α]
variable {f f' f'' : Filling W} {n : Node W} {l : Layer} {i j k : Nat} {sharing : Bool}
variable {s : Setting W α}

namespace Filling

/-- The nodes that are known are there, and every node is grounded. -/
structure Sound (index : Nat) (f : Filling W) : Prop where
  known : ∀ {n : Node W} {i : Nat}, f.known[n]? = some i → f.nodes[i]? = some n
  grounded : ∀ {i : Nat} {n : Node W}, f.nodes[i]? = some n → Grounded index i n

/-- Up to `k` nodes have been added, and no slot has been filled. -/
structure Grown (k : Nat) (f f' : Filling W) : Prop where
  slots : f'.slots = f.slots
  nodes : ∃ ms, f'.nodes.toList = f.nodes.toList ++ ms ∧ ms.length ≤ k

/-- The values of the nodes that are there. -/
def values (s : Setting W α) (f : Filling W) : Array α := s.values #[] f.nodes.toList

theorem sound_start : (start l : Filling W).Sound i where
  known h := by simp [start] at h
  grounded h := by simp [start] at h

theorem Grown.refl (f : Filling W) : Grown 0 f f := ⟨rfl, [], by simp⟩

theorem Grown.trans (h : Grown j f f') (h' : Grown k f' f'') : Grown (j + k) f f'' := by
  obtain ⟨ms, hms, hlen⟩ := h.nodes
  obtain ⟨ms', hms', hlen'⟩ := h'.nodes
  refine ⟨h'.slots.trans h.slots, ms ++ ms', by rw [hms', hms, List.append_assoc], ?_⟩
  rw [List.length_append]
  omega

theorem Grown.mono (h : Grown j f f') (hjk : j ≤ k) : Grown k f f' := by
  obtain ⟨ms, hms, hlen⟩ := h.nodes
  exact ⟨h.slots, ms, hms, hlen.trans hjk⟩

theorem Grown.size_le (h : Grown k f f') : f.nodes.size ≤ f'.nodes.size ∧
    f'.nodes.size ≤ f.nodes.size + k := by
  obtain ⟨ms, hms, hlen⟩ := h.nodes
  rw [← Array.length_toList, ← Array.length_toList, hms, List.length_append]
  omega

/-- Nodes that are added do not change the values of those that are there. -/
theorem Grown.agree (h : Grown k f f') : Agree f.nodes.size (f'.values s) (f.values s) := by
  obtain ⟨ms, hms, _⟩ := h.nodes
  have := Setting.agree_append (s := s) #[] f.nodes.toList ms
  rw [← hms, Array.length_toList] at this
  intro i hi
  exact this i (by simpa using hi)

theorem size_values : (f.values s).size = f.nodes.size := by
  rw [values, Setting.size_values, Array.length_toList]
  exact Nat.zero_add _

/-- A node that is there has the value that its edges give it. -/
theorem Sound.value_eq (F : f.Sound s.index) (hn : f.nodes[i]? = some n) :
    (f.values s).getD i 0 = s.value (f.values s) n :=
  Setting.values_get (by rw [Array.getElem?_toList, hn]) (F.grounded hn)

/-- A node that is added, or an equal one, has the value that its edges give it. -/
theorem add_spec (sharing : Bool) (F : f.Sound s.index) (hn : Grounded s.index f.nodes.size n)
    (hroom : f.nodes.size < l.nodes) :
    ∃ i f', f.add sharing l n = .ok (i, f') ∧ f'.Sound s.index ∧ Grown 1 f f' ∧
      i < f'.nodes.size ∧ (f'.values s).getD i 0 = s.value (f'.values s) n := by
  unfold add
  cases hknown : (if sharing then f.known[n]? else none) with
  | some i =>
      have hget : f.nodes[i]? = some n := by
        cases sharing with
        | true => exact F.known hknown
        | false => cases hknown
      obtain ⟨hi, _⟩ := Array.getElem?_eq_some_iff.1 hget
      exact ⟨i, f, rfl, F, (Grown.refl f).mono (Nat.zero_le 1), hi, F.value_eq hget⟩
  | none =>
      have hfull : ¬ l.nodes ≤ f.nodes.size := Nat.not_le_of_lt hroom
      rw [if_neg hfull]
      have hlast : (f.nodes.push n)[f.nodes.size]? = some n := Array.getElem?_push_size
      have hF : Sound s.index { f with
          nodes := f.nodes.push n
          known := if sharing then f.known.insert n f.nodes.size else f.known } := by
        refine ⟨fun {n' i} hi => ?_, fun {i n'} hi => ?_⟩
        · have hold : f.known[n']? = some i → (f.nodes.push n)[i]? = some n' := by
            intro h
            have hget := F.known h
            obtain ⟨hlt, _⟩ := Array.getElem?_eq_some_iff.1 hget
            rw [Array.getElem?_push_lt hlt, ← hget, Array.getElem?_eq_getElem hlt]
          cases sharing with
          | false => exact hold hi
          | true =>
              rw [if_pos rfl, Std.HashMap.getElem?_insert] at hi
              split at hi
              · rename_i hbeq
                obtain rfl : n = n' := by simpa using hbeq
                obtain rfl := Option.some.inj hi
                exact hlast
              · exact hold hi
        · exact grounded_push F.grounded hn hi
      refine ⟨f.nodes.size, _, rfl, hF, ⟨rfl, [n], by simp, Nat.le_refl 1⟩, by simp,
        hF.value_eq hlast⟩

end Filling

/-! ## The edges of a context -/

/-- An assignment gives the spanning variables of a layer the values of a context. -/
structure Reads (dim : Variable → Nat) (spanning : List Variable) (context : List Nat)
    (ρ : Assignment) : Prop where
  digits : spanning.map ρ = context
  lt : ∀ u ∈ spanning, ρ u < dim u

/-- The number of and nodes for each edge of an or node. -/
def jointsPerEdge (l : Layer) : Nat := if l.branches then 1 else 0

variable {src : Source W} {dim : Variable → Nat} {evidence : Evidence}
variable {entry : Nat → Assignment → α} {below : List (Level W)} {v : Variable} {cs : List Nat}
variable {ws : List Arrangement} {context : List Nat} {ρ : Assignment}

open Arrangement

/-- The tables that a layer completes and the levels below it are worth what they should be. -/
structure Prepared (src : Source W) (s : Setting W α) (dim : Variable → Nat) (evidence : Evidence)
    (entry : Nat → Assignment → α) (l : Layer) (below : List (Level W)) (v : Variable)
    (cs : List Nat) (ws : List Arrangement) : Prop where
  index : l.index = s.index
  terminal : src.tree.terminal = s.terminal
  ne_terminal : s.index ≠ s.terminal
  observed : s.observed = (evidence[v]?).join
  dim_eq : l.dim = dim v
  zero : s.weigh src.labels.zero = 0
  label : ∀ {context value}, (∃ ρ, Reads dim l.spanning context ρ) → value < l.dim →
    ∃ r, edgeLabel? src.labels src.encoding l context value = .ok r ∧
      ∀ ρ, Reads dim l.spanning context ρ →
        r.elim 0 s.weigh = entries entry cs (Function.update ρ v value)
  targets : ∀ {context value}, (∃ ρ, Reads dim l.spanning context ρ) → value < l.dim →
    ∃ ids, l.children.mapM (target src l below context value) = .ok ids ∧ ids ≠ [] ∧
      (1 < ids.length → l.branches = true) ∧ (∀ id ∈ ids, id.layer ≠ s.index) ∧
      ∀ own ρ, Reads dim l.spanning context ρ →
        (ids.map (s.reading own)).prod = totalAll dim evidence entry (Function.update ρ v value) ws

/-- What the edge for a value is worth. -/
def edgeTotal (dim : Variable → Nat) (evidence : Evidence) (entry : Nat → Assignment → α)
    (v : Variable) (cs : List Nat) (ws : List Arrangement) (ρ : Assignment) (value : Nat) : α :=
  entries entry cs (Function.update ρ v value) *
    totalAll dim evidence entry (Function.update ρ v value) ws

/-- The edges for some values of the variable are there, and are worth what they should be. -/
structure Edges (src : Source W) (s : Setting W α) (dim : Variable → Nat) (evidence : Evidence)
    (entry : Nat → Assignment → α) (l : Layer) (v : Variable) (cs : List Nat)
    (ws : List Arrangement) (context : List Nat) (values : List Nat) (f : Filling W)
    (edges : List (Edge W)) (f' : Filling W) : Prop where
  sound : f'.Sound s.index
  grown : Filling.Grown (jointsPerEdge l * values.length) f f'
  grounded : ∀ e ∈ edges, e.target.layer = s.index → e.target.index < f'.nodes.size
  worth : ∀ own ρ, Agree f'.nodes.size own (f'.values s) → Reads dim l.spanning context ρ →
    edges.map (fun e => s.weigh e.label * s.reading own e.target) =
      values.map (edgeTotal dim evidence entry v cs ws ρ)

theorem Edges.cons {values : List Nat} {edges : List (Edge W)} {e : Edge W} {value : Nat}
    (h : Edges src s dim evidence entry l v cs ws context values f' edges f'')
    (hg : Filling.Grown k f f') (hk : k ≤ jointsPerEdge l)
    (he : e.target.layer = s.index → e.target.index < f'.nodes.size)
    (hworth : ∀ own ρ, Agree f'.nodes.size own (f'.values s) → Reads dim l.spanning context ρ →
      s.weigh e.label * s.reading own e.target = edgeTotal dim evidence entry v cs ws ρ value) :
    Edges src s dim evidence entry l v cs ws context (value :: values) f (e :: edges) f'' where
  sound := h.sound
  grown := by
    refine (hg.trans h.grown).mono ?_
    rw [List.length_cons, Nat.mul_succ]
    omega
  grounded e' he' hl := by
    rcases List.mem_cons.1 he' with rfl | he'
    · exact Nat.lt_of_lt_of_le (he hl) h.grown.size_le.1
    · exact h.grounded e' he' hl
  worth own ρ hown hρ := by
    have hown' : Agree f'.nodes.size own (f'.values s) := by
      intro j hj
      rw [hown j (Nat.lt_of_lt_of_le hj h.grown.size_le.1), h.grown.agree j hj]
    rw [List.map_cons, List.map_cons, h.worth own ρ hown hρ, hworth own ρ hown' hρ]

theorem edgesFor_spec (P : Prepared src s dim evidence entry l below v cs ws)
    (hc : ∃ ρ, Reads dim l.spanning context ρ) :
    ∀ {values f}, (∀ k ∈ values, k < l.dim) → f.Sound s.index →
      f.nodes.size + jointsPerEdge l * values.length ≤ l.nodes →
      ∃ edges f', edgesFor src l below context values f = .ok (edges, f') ∧
        Edges src s dim evidence entry l v cs ws context values f edges f'
  | [], f, _, F, _ => by
      refine ⟨[], f, rfl, F, (Filling.Grown.refl f).mono (Nat.zero_le _), ?_, ?_⟩
      · exact fun e he => absurd he List.not_mem_nil
      · exact fun _ _ _ _ => rfl
  | value :: values, f, hv, F, hroom => by
      have hvalue := hv value (List.mem_cons_self ..)
      have hv' := fun k hk => hv k (List.mem_cons_of_mem _ hk)
      have hroom' : f.nodes.size + jointsPerEdge l + jointsPerEdge l * values.length ≤ l.nodes := by
        rw [List.length_cons, Nat.mul_succ] at hroom
        omega
      obtain ⟨r, hr, hlabel⟩ := P.label hc hvalue
      obtain ⟨ids, hids, hne, hbranches, hlayer, htotal⟩ := P.targets hc hvalue
      unfold edgesFor
      rw [hr]
      cases r with
      | none =>
          obtain ⟨edges, f', hrun, E⟩ := edgesFor_spec P hc hv' F (by omega)
          refine ⟨⟨terminalOf src.tree, src.labels.zero⟩ :: edges, f',
            by simp only [bind, Except.bind, hrun, pure, Except.pure],
            E.cons (Filling.Grown.refl f) (Nat.zero_le _) ?_ ?_⟩
          · intro hl
            exact absurd (hl.symm.trans P.terminal) P.ne_terminal
          · intro own ρ _ hρ
            have hzero : entries entry cs (Function.update ρ v value) = 0 := (hlabel ρ hρ).symm
            rw [edgeTotal, hzero, zero_mul, P.zero, zero_mul]
      | some label =>
          have hentries : ∀ ρ, Reads dim l.spanning context ρ →
              s.weigh label = entries entry cs (Function.update ρ v value) := hlabel
          simp only [bind, Except.bind, hids]
          cases ids with
          | nil => exact absurd rfl hne
          | cons only more =>
              cases more with
              | nil =>
                  obtain ⟨edges, f', hrun, E⟩ := edgesFor_spec P hc hv' F (by omega)
                  refine ⟨⟨only, label⟩ :: edges, f', by simp only [hrun, pure, Except.pure],
                    E.cons (Filling.Grown.refl f) (Nat.zero_le _) ?_ ?_⟩
                  · exact fun hl => absurd hl (hlayer only (List.mem_cons_self ..))
                  · intro own ρ _ hρ
                    have h := htotal own ρ hρ
                    rw [List.map_singleton, List.prod_singleton] at h
                    rw [edgeTotal, hentries ρ hρ, h]
              | cons other more =>
                  -- several layers below are joined by an and node
                  have hjoint : jointsPerEdge l = 1 := by
                    rw [jointsPerEdge, if_pos (hbranches (by simp))]
                  let joint : Node W := ⟨l.label, .and,
                    (only :: other :: more).map fun id => ⟨id, src.labels.unit⟩⟩
                  have hground : Grounded s.index f.nodes.size joint := by
                    intro e he hl
                    obtain ⟨id, hid, rfl⟩ := List.mem_map.1 he
                    exact absurd hl (hlayer id hid)
                  obtain ⟨i, f', hadd, F', hgrown, hi, hval⟩ :=
                    Filling.add_spec (l := l) src.sharing F hground (by omega)
                  have hsize := hgrown.size_le.2
                  obtain ⟨edges, f'', hrun, E⟩ := edgesFor_spec P hc hv' F' (by omega)
                  refine ⟨⟨⟨l.index, i⟩, label⟩ :: edges, f'',
                    by simp only [hadd, hrun, pure, Except.pure, joint], E.cons hgrown (by omega) (fun _ => hi) ?_⟩
                  intro own ρ hown hρ
                  rw [P.index, Setting.reading_own P.ne_terminal, hown i hi, hval, Setting.value,
                    nodeValue_and rfl, List.map_map]
                  have h := htotal (f'.values s) ρ hρ
                  rw [edgeTotal, hentries ρ hρ, ← h]
                  rfl

end BayesCircuit.Multigraph

/-! ## Labels, contexts and layers -/

namespace BayesCircuit.Multigraph

open Arrangement Collection.Ascending SpanningTree

variable {W α : Type} [CommSemiring α]
variable {e : Encoding} {scope : Nat → List Variable} {dim : Variable → Nat}
variable {labels : LabelAlgebra W} {weigh : W → α} {entry : Nat → Assignment → α}
variable {v : Variable} {spanning : List Variable} {cs : List Nat} {ms : List Message}
variable {l : Layer} {context : List Nat} {value : Nat} {ρ : Assignment}

/-- A factor tabulates a function of the variables of a scope. -/
structure Tabulates (dim : Variable → Nat) (scope : List Variable) (f : Factor) : Prop where
  strict : Strict f.scope
  mem_iff : ∀ u, u ∈ f.scope ↔ u ∈ scope
  dims : f.dims = f.scope.map dim
  size : f.weights.size = f.dims.prod

/-- Labels that are multiplied by the rows of an encoding are worth what the rows are. -/
structure Weighing (e : Encoding) (scope : Nat → List Variable) (dim : Variable → Nat)
    (labels : LabelAlgebra W) (weigh : W → α) (entry : Nat → Assignment → α) : Prop where
  unit : weigh labels.unit = 1
  zero : weigh labels.zero = 0
  factor : ∀ {c : Nat}, scope c ≠ [] → ∃ f, e.factor c = .ok f ∧ Tabulates dim (scope c) f
  /-- Rows with the reserved weight zero have the entry zero. -/
  excluded : ∀ {c : Nat} {f : Factor} {ρ : Assignment}, e.factor c = .ok f →
    (∀ u ∈ f.scope, ρ u < dim u) →
    f.weights[Counter.number f.dims (f.scope.map ρ)]? = some 0 → entry c ρ = 0
  multiplied : ∀ {c : Nat} {f : Factor} {ρ : Assignment} {w : Weight} {x : W},
    e.factor c = .ok f → (∀ u ∈ f.scope, ρ u < dim u) →
    f.weights[Counter.number f.dims (f.scope.map ρ)]? = some w → w ≠ 0 →
    weigh (labels.multiply f (Counter.number f.dims (f.scope.map ρ)) x) = weigh x * entry c ρ

/-- The values of a context and of the layer's variable are values of the variables of a table. -/
theorem Reads.update_lt {us : List Variable} (hρ : Reads dim spanning context ρ)
    (hvalue : value < dim v) (hsub : us ⊆ v :: spanning) :
    ∀ u ∈ us, Function.update ρ v value u < dim u := by
  intro u hu
  by_cases huv : u = v
  · subst huv
    rwa [Function.update_self]
  · rw [Function.update_of_ne huv]
    exact hρ.lt u ((List.mem_cons.1 (hsub hu)).resolve_left huv)

theorem entries_cons {c : Nat} : entries entry (c :: cs) ρ = entry c ρ * entries entry cs ρ := by
  rw [entries, List.map_cons, List.prod_cons]
  rfl

theorem multiplyRows_spec (L : Weighing e scope dim labels weigh entry) (hs : Strict spanning)
    (hvalue : value < dim v) (hρ : Reads dim spanning context ρ) :
    ∀ {cs ms x}, cs.mapM (messageAt e v spanning) = .ok ms →
      (∀ c ∈ cs, v ∈ scope c ∧ scope c ⊆ v :: spanning) →
      ∃ r, multiplyRows labels e context value ms x = .ok r ∧
        r.elim 0 weigh = weigh x * entries entry cs (Function.update ρ v value)
  | [], ms, x, hms, _ => by
      obtain rfl : [] = ms := by simpa [pure, Except.pure] using hms
      refine ⟨some x, rfl, ?_⟩
      rw [entries, List.map_nil, List.prod_nil, mul_one]
      rfl
  | c :: cs, ms, x, hms, hc => by
      obtain ⟨hv, hsub⟩ := hc c (List.mem_cons_self ..)
      have hc' := fun d hd => hc d (List.mem_cons_of_mem _ hd)
      obtain ⟨f, hf, T⟩ := L.factor (List.ne_nil_of_mem hv)
      have hfv : v ∈ f.scope := (T.mem_iff v).2 hv
      have hfsub : f.scope ⊆ v :: spanning := fun u hu => hsub ((T.mem_iff u).1 hu)
      have hlt := hρ.update_lt hvalue hfsub
      -- the row is the one that the values select
      have hrow : rowOf f ⟨c, Counter.projection spanning f.scope,
          (f.scope.findIdx? (· == v)).getD 0⟩ context value =
          Counter.number f.dims (f.scope.map (Function.update ρ v value)) := by
        rw [← hρ.digits]
        exact rowOf_eq hs T.strict hfv hfsub T.dims
      have hnumber : Counter.number f.dims (f.scope.map (Function.update ρ v value)) <
          f.weights.size := by
        rw [T.size, T.dims]
        exact Counter.number_lt (Counter.fits_map hlt)
      rw [List.mapM_cons] at hms
      simp only [messageAt, hf, bind, Except.bind, pure, Except.pure] at hms
      split at hms
      · cases hms
      · rename_i ms' hms'
        obtain rfl := Except.ok.inj hms
        have hw := Array.getElem?_eq_getElem hnumber
        generalize f.weights[Counter.number f.dims
          (f.scope.map (Function.update ρ v value))] = w at hw
        unfold multiplyRows
        simp only [hf, bind, Except.bind, hrow, fetch, hw, expect]
        by_cases hzero : w = 0
        · subst hzero
          refine ⟨none, by simp only [beq_self_eq_true, if_true, pure, Except.pure], ?_⟩
          rw [entries_cons, L.excluded hf hlt hw, zero_mul, mul_zero]
          rfl
        · have hne : (w == 0) = false := by simpa using hzero
          obtain ⟨r, hr, hworth⟩ := multiplyRows_spec L hs hvalue hρ
            (x := labels.multiply f (Counter.number f.dims
              (f.scope.map (Function.update ρ v value))) x) hms' hc'
          refine ⟨r, by simpa only [hne, Bool.false_eq_true, if_false] using hr, ?_⟩
          rw [hworth, L.multiplied hf hlt hw hzero, entries_cons, mul_assoc]

/-- The label of an edge is worth the product of the entries that the edge completes. -/
theorem edgeLabel?_spec (L : Weighing e scope dim labels weigh entry) (hs : Strict l.spanning)
    (hvalue : value < dim v) (hms : cs.mapM (messageAt e v l.spanning) = .ok l.messages)
    (hc : ∀ c ∈ cs, v ∈ scope c ∧ scope c ⊆ v :: l.spanning)
    (hρ : ∃ ρ, Reads dim l.spanning context ρ) :
    ∃ r, edgeLabel? labels e l context value = .ok r ∧
      ∀ ρ, Reads dim l.spanning context ρ →
        r.elim 0 weigh = entries entry cs (Function.update ρ v value) := by
  obtain ⟨ρ₀, hρ₀⟩ := hρ
  obtain ⟨r, hr, _⟩ := multiplyRows_spec L hs hvalue hρ₀ (x := labels.unit) hms hc
  refine ⟨r, hr, fun ρ hρ => ?_⟩
  obtain ⟨r', hr', hworth⟩ := multiplyRows_spec L hs hvalue hρ (x := labels.unit) hms hc
  obtain rfl : r = r' := Except.ok.inj (hr.symm.trans hr')
  rw [hworth, L.unit, one_mul]

end BayesCircuit.Multigraph

namespace BayesCircuit.Multigraph

open Arrangement

variable {W α : Type} [DecidableEq W] [Hashable W] [CommSemiring α]
variable {f f' : Filling W} {l : Layer} {src : Source W} {s : Setting W α}
variable {dim : Variable → Nat} {evidence : Evidence} {entry : Nat → Assignment → α}
variable {below : List (Level W)} {v : Variable} {cs : List Nat} {ws : List Arrangement}
variable {context : List Nat} {ρ : Assignment} {n i : Nat}

/-- The edges of the admitted values, numbered by their position. -/
theorem filter_zipIdx {β γ : Type} {edges : List β} {g : β → γ} {h : Nat → γ} {q : Nat → Bool}
    (he : edges.map g = (List.range n).map h) :
    ((edges.zipIdx.filter fun p => q p.2).map fun p => g p.1) =
      ((List.range n).filter q).map h := by
  have hlen : edges.length = n := by
    have := congrArg List.length he
    simpa using this
  have hzip : edges.zipIdx.map (fun p => (g p.1, p.2)) = (List.range n).map fun i => (h i, i) := by
    refine List.ext_getElem (by simp [hlen]) fun i h₁ h₂ => ?_
    have hi : i < edges.length := by simpa using h₁
    have hget : g edges[i] = h i := by
      have := List.getElem_of_eq he (i := i) (by simpa using hi)
      simpa using this
    simp [hget]
  calc ((edges.zipIdx.filter fun p => q p.2).map fun p => g p.1)
      = ((edges.zipIdx.map fun p => (g p.1, p.2)).filter fun p => q p.2).map (·.1) := by
        rw [List.filter_map, List.map_map]
        rfl
    _ = ((List.range n).filter q).map h := by
        rw [hzip, List.filter_map, List.map_map]
        rfl

/-- The nodes that a context takes. -/
def nodesPerContext (l : Layer) : Nat := jointsPerEdge l * l.dim + 1

theorem fillContext_spec {c : Counter} (P : Prepared src s dim evidence entry l below v cs ws)
    (hc : ∃ ρ, Reads dim l.spanning c.digits ρ) (F : f.Sound s.index)
    (hroom : f.nodes.size + nodesPerContext l ≤ l.nodes) :
    ∃ i f' f'', fillContext src l below f c = .ok f' ∧
      f' = { f'' with slots := f''.slots.setIfInBounds c.value i } ∧ f''.Sound s.index ∧
      Filling.Grown (nodesPerContext l) f f'' ∧ i < f''.nodes.size ∧
      ∀ ρ, Reads dim l.spanning c.digits ρ →
        (f''.values s).getD i 0 = total dim evidence entry ρ (.mk v cs ws) := by
  unfold nodesPerContext at hroom
  obtain ⟨edges, f₁, hedges, E⟩ := edgesFor_spec P hc
    (fun k (hk : k ∈ List.range l.dim) => List.mem_range.1 hk) F (by rw [List.length_range]; omega)
  have hsize := E.grown.size_le.2
  rw [List.length_range] at hsize
  obtain ⟨i, f₂, hadd, F₂, hgrown, hi, hval⟩ := Filling.add_spec (l := l) src.sharing
    (n := ⟨l.label, .or, edges⟩) E.sound E.grounded (by omega)
  refine ⟨i, _, f₂, by simp only [fillContext, hedges, bind, Except.bind, hadd, pure, Except.pure],
    rfl, F₂, ?_, hi, fun ρ hρ => ?_⟩
  · have := E.grown.trans hgrown
    rwa [List.length_range] at this
  · have hworth := E.worth (f₂.values s) ρ hgrown.agree hρ
    rw [hval, Setting.value, nodeValue_or rfl, filter_zipIdx hworth, P.observed, P.dim_eq]
    rfl

/-! ## All contexts -/

/-- Digits that fit the domains are the values of some assignment. -/
theorem Reads.exists {us : List Variable} {ds : List Nat} (hnodup : us.Nodup)
    (h : List.Forall₂ (· < ·) ds (us.map dim)) : ∃ ρ, Reads dim us ds ρ := by
  obtain ⟨ρ, hρ, hlt⟩ := Counter.exists_map_eq hnodup h
  exact ⟨ρ, hρ, hlt⟩

/-- The first `n` slots are filled with nodes that are worth what they should be. -/
structure Filled (s : Setting W α) (dim : Variable → Nat) (evidence : Evidence)
    (entry : Nat → Assignment → α) (l : Layer) (w : Arrangement) (n : Nat) (f : Filling W) :
    Prop where
  sound : f.Sound s.index
  size : f.slots.size = l.contexts
  room : f.nodes.size ≤ n * nodesPerContext l
  slot : ∀ k, k < n → ∃ i, f.slots[k]? = some i ∧ i < f.nodes.size ∧
    ∀ ρ, Reads dim l.spanning ((Counter.wheelsOf l.address.dims k).map (·.digit)) ρ →
      (f.values s).getD i 0 = total dim evidence entry ρ w

/-- The contexts of a layer are numbered by the values of its spanning variables. -/
structure Numbered (dim : Variable → Nat) (l : Layer) : Prop where
  nodup : l.spanning.Nodup
  pos : ∀ u ∈ l.spanning, 0 < dim u
  dims : l.address.dims = l.spanning.map dim
  contexts : l.contexts = (l.spanning.map dim).prod

theorem nodes_eq : l.nodes = l.contexts * nodesPerContext l := by
  unfold Layer.nodes Layer.orNodes Layer.andNodes nodesPerContext jointsPerEdge
  split
  · rw [Nat.mul_add, Nat.one_mul, Nat.mul_one, Nat.add_comm]
  · rw [Nat.zero_mul, Nat.zero_add, Nat.mul_one, Nat.add_zero]

theorem Filled.step (P : Prepared src s dim evidence entry l below v cs ws)
    (N : Numbered dim l) (hn : n < l.contexts)
    (h : Filled s dim evidence entry l (.mk v cs ws) n f) :
    ∃ f', fillContext src l below f ⟨Counter.wheelsOf l.address.dims n⟩ = .ok f' ∧
      Filled s dim evidence entry l (.mk v cs ws) (n + 1) f' := by
  have hprod : n < l.address.dims.prod := by rwa [N.dims, ← N.contexts]
  have hvalue : (⟨Counter.wheelsOf l.address.dims n⟩ : Counter).value = n :=
    Counter.value_wheelsOf hprod
  have hreads : ∃ ρ, Reads dim l.spanning
      (⟨Counter.wheelsOf l.address.dims n⟩ : Counter).digits ρ := by
    refine Reads.exists N.nodup ?_
    have hvalid : Counter.Valid (Counter.wheelsOf l.address.dims n) := by
      apply Counter.valid_wheelsOf
      rw [N.dims]
      exact List.forall_mem_map.2 N.pos
    have hlt := hvalid.digit_lt
    rw [Counter.map_radix_wheelsOf] at hlt
    rw [← N.dims]
    exact hlt
  have hroom : f.nodes.size + nodesPerContext l ≤ l.nodes := by
    have hmul : (n + 1) * nodesPerContext l ≤ l.contexts * nodesPerContext l :=
      Nat.mul_le_mul_right _ hn
    have := h.room
    rw [Nat.succ_mul] at hmul
    rw [nodes_eq]
    omega
  obtain ⟨i, f', f'', hrun, rfl, F, hgrown, hi, hval⟩ := fillContext_spec P hreads h.sound hroom
  rw [hvalue] at hrun
  have hslots := hgrown.slots
  refine ⟨_, hrun, ⟨F.known, F.grounded⟩, ?_, ?_, ?_⟩
  · rw [Array.size_setIfInBounds, hslots, h.size]
  · have := hgrown.size_le.2
    have := h.room
    rw [Nat.succ_mul]
    show f''.nodes.size ≤ _
    omega
  · intro k hk
    by_cases hkn : k = n
    · subst hkn
      refine ⟨i, ?_, hi, hval⟩
      rw [Array.getElem?_setIfInBounds_self_of_lt]
      rw [hslots, h.size]
      exact hn
    · obtain ⟨i', hslot, hi', hval'⟩ := h.slot k (by omega)
      refine ⟨i', ?_, Nat.lt_of_lt_of_le hi' hgrown.size_le.1, fun ρ hρ => ?_⟩
      · rw [Array.getElem?_setIfInBounds_ne (Ne.symm hkn), hslots, hslot]
      · rw [← hval' ρ hρ]
        exact hgrown.agree i' hi'

/-- The first contexts of a layer. -/
theorem Filled.run (P : Prepared src s dim evidence entry l below v cs ws) (N : Numbered dim l) :
    ∀ n, n ≤ l.contexts → ∃ f,
      ((List.range n).map fun k => (⟨Counter.wheelsOf l.address.dims k⟩ : Counter)).foldlM
        (fillContext src l below) (.start l) = .ok f ∧
      Filled s dim evidence entry l (.mk v cs ws) n f := by
  intro n
  induction n with
  | zero =>
      intro _
      refine ⟨.start l, rfl, Filling.sound_start, Array.size_replicate, Nat.zero_le _, ?_⟩
      exact fun k hk => absurd hk (Nat.not_lt_zero k)
  | succ n ih =>
      intro hn
      obtain ⟨f, hrun, hf⟩ := ih (Nat.le_of_succ_le hn)
      obtain ⟨f', hstep, hf'⟩ := hf.step P N hn
      refine ⟨f', ?_, hf'⟩
      rw [List.range_succ, List.map_append, List.foldlM_append, hrun]
      simp only [bind, Except.bind, List.map_cons, List.map_nil, List.foldlM_cons, hstep,
        List.foldlM_nil, pure, Except.pure]

/-- A layer whose tables and lower levels are prepared can be compiled. The slot of a context holds
a node that is worth the sum of products for the assignments that the context stands for. -/
theorem compileLayer_spec (P : Prepared src s dim evidence entry l below v cs ws)
    (N : Numbered dim l) :
    ∃ level, compileLayer src false l below = .ok level ∧ level.owner = l.label ∧
      ∀ ρ, (∀ u ∈ l.spanning, ρ u < dim u) → ∃ i,
        level.slots[Counter.number (l.spanning.map dim) (l.spanning.map ρ)]? = some i ∧
        (s.values #[] level.nodes.toList).getD i 0 = total dim evidence entry ρ (.mk v cs ws) := by
  obtain ⟨f, hrun, hf⟩ := Filled.run P N l.contexts (Nat.le_refl _)
  have hwalk : l.counter.walk =
      (List.range l.contexts).map fun k => (⟨Counter.wheelsOf l.address.dims k⟩ : Counter) := by
    rw [Layer.counter, Counter.walk_zero, N.dims, N.contexts]
    rw [N.dims]
    exact List.forall_mem_map.2 N.pos
  refine ⟨⟨l.label, f.nodes, f.slots⟩, ?_, rfl, fun ρ hρ => ?_⟩
  · simp only [compileLayer, Bool.false_eq_true, if_false, hwalk, hrun, bind, Except.bind, pure,
      Except.pure]
  · have hlt := Counter.fits_map hρ
    have hnumber := Counter.number_lt hlt
    rw [← N.contexts] at hnumber
    obtain ⟨i, hslot, _, hval⟩ := hf.slot _ hnumber
    refine ⟨i, hslot, hval ρ ⟨?_, hρ⟩⟩
    rw [N.dims, Counter.digits_wheelsOf_number hlt]

end BayesCircuit.Multigraph
