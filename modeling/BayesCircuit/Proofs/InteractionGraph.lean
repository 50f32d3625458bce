import BayesCircuit.InteractionGraph
import BayesCircuit.Proofs.Collection.Ascending

/-!
# Eliminating variables from interaction graphs

Two variables are connected in the graph of a partition exactly if a table mentions both
(`adjacent_ofPartition`). Eliminating a variable keeps all other edges and connects its neighbours
(`adjacent_eliminate`). Eliminating all variables in a greedy order lists each of them once
(`minFill_perm`).
-/

namespace BayesCircuit.InteractionGraph

open Collection
open Collection.Ascending (mem_insert mem_erase)
open scoped List

variable {g : InteractionGraph} {a b u v : Variable} {vs ns ms : List Variable}

theorem adjacent_modify {f : List Variable → List Variable} (ha : a < g.neighbours.size) :
    (⟨g.neighbours.modify a f⟩ : InteractionGraph).adjacent u =
      if u = a then f (g.adjacent a) else g.adjacent u := by
  simp only [adjacent, Array.getD_eq_getD_getElem?, Array.getElem?_modify]
  by_cases hu : u = a
  · subst hu
    simp [Array.getElem?_eq_getElem ha]
  · simp [hu, Ne.symm hu]

/-! ## The graph of a partition -/

theorem size_connect : (g.connect a b).neighbours.size = g.neighbours.size := by
  unfold connect
  split
  · rfl
  · rw [Array.size_modify, Array.size_modify]

theorem adjacent_connect (ha : a < g.neighbours.size) (hb : b < g.neighbours.size) :
    v ∈ (g.connect a b).adjacent u ↔
      v ∈ g.adjacent u ∨ (u ≠ v ∧ ((u = a ∧ v = b) ∨ (u = b ∧ v = a))) := by
  unfold connect
  split
  · rename_i he
    obtain rfl : a = b := by simpa using he
    constructor
    · exact Or.inl
    · rintro (h | ⟨hne, ⟨rfl, rfl⟩ | ⟨rfl, rfl⟩⟩)
      · exact h
      · exact absurd rfl hne
      · exact absurd rfl hne
  · rename_i hne
    have hne : a ≠ b := by simpa using hne
    let g' : InteractionGraph := ⟨g.neighbours.modify a (Ascending.insert b)⟩
    have hb' : b < g'.neighbours.size := by
      rwa [Array.size_modify]
    show v ∈ (⟨g'.neighbours.modify b (Ascending.insert a)⟩ : InteractionGraph).adjacent u ↔ _
    rw [adjacent_modify hb', adjacent_modify ha, adjacent_modify ha, if_neg (Ne.symm hne)]
    by_cases hub : u = b
    · subst hub
      rw [if_pos rfl, mem_insert]
      constructor
      · rintro (rfl | h)
        · exact Or.inr ⟨Ne.symm hne, Or.inr ⟨rfl, rfl⟩⟩
        · exact Or.inl h
      · rintro (h | ⟨_, ⟨he, _⟩ | ⟨_, rfl⟩⟩)
        · exact Or.inr h
        · exact absurd he.symm hne
        · exact Or.inl rfl
    · rw [if_neg hub]
      by_cases hua : u = a
      · subst hua
        rw [if_pos rfl, mem_insert]
        constructor
        · rintro (rfl | h)
          · exact Or.inr ⟨hne, Or.inl ⟨rfl, rfl⟩⟩
          · exact Or.inl h
        · rintro (h | ⟨_, ⟨_, rfl⟩ | ⟨he, _⟩⟩)
          · exact Or.inr h
          · exact Or.inl rfl
          · exact absurd he hub
      · rw [if_neg hua]
        constructor
        · exact Or.inl
        · rintro (h | ⟨_, ⟨he, _⟩ | ⟨he, _⟩⟩)
          · exact h
          · exact absurd he hua
          · exact absurd he hub

theorem size_foldl_connect :
    (vs.foldl (fun g b => g.connect a b) g).neighbours.size = g.neighbours.size := by
  induction vs generalizing g with
  | nil => rfl
  | cons b vs ih => rw [List.foldl_cons, ih, size_connect]

theorem adjacent_foldl_connect (ha : a < g.neighbours.size)
    (hvs : ∀ b ∈ vs, b < g.neighbours.size) :
    v ∈ (vs.foldl (fun g b => g.connect a b) g).adjacent u ↔
      v ∈ g.adjacent u ∨ (u ≠ v ∧ ((u = a ∧ v ∈ vs) ∨ (u ∈ vs ∧ v = a))) := by
  induction vs generalizing g with
  | nil => simp
  | cons b vs ih =>
      have hb := hvs b (List.mem_cons_self ..)
      rw [List.foldl_cons, ih (by rwa [size_connect]) fun c hc => by
        rw [size_connect]
        exact hvs c (List.mem_cons_of_mem _ hc), adjacent_connect ha hb]
      simp only [List.mem_cons]
      tauto

theorem size_connectAll : (connectAll vs g).neighbours.size = g.neighbours.size := by
  induction vs generalizing g with
  | nil => rfl
  | cons a vs ih => rw [connectAll, ih, size_foldl_connect]

theorem adjacent_connectAll (hvs : ∀ b ∈ vs, b < g.neighbours.size) :
    v ∈ (connectAll vs g).adjacent u ↔ v ∈ g.adjacent u ∨ (u ≠ v ∧ u ∈ vs ∧ v ∈ vs) := by
  induction vs generalizing g with
  | nil => simp [connectAll]
  | cons a vs ih =>
      have ha := hvs a (List.mem_cons_self ..)
      have hvs' := fun c hc => hvs c (List.mem_cons_of_mem _ hc)
      rw [connectAll, ih fun c hc => by rw [size_foldl_connect]; exact hvs' c hc,
        adjacent_foldl_connect ha hvs']
      simp only [List.mem_cons]
      constructor
      · tauto
      · rintro (h | ⟨hne, rfl | hu, rfl | hv⟩)
        · exact Or.inl (Or.inl h)
        · exact absurd rfl hne
        · exact Or.inl (Or.inr ⟨hne, Or.inl ⟨rfl, hv⟩⟩)
        · exact Or.inl (Or.inr ⟨hne, Or.inr ⟨hu, rfl⟩⟩)
        · exact Or.inr ⟨hne, hu, hv⟩

/-- The variables of the table of a variable. -/
def family (net : Network) (v : Variable) : List Variable :=
  (net.nodes[v]?.map (·.parents)).getD [] ++ [v]

theorem adjacent_foldl_connectAll {net : Network}
    (hvs : ∀ w ∈ vs, ∀ b ∈ family net w, b < g.neighbours.size) :
    v ∈ (vs.foldl (fun g w => connectAll (family net w) g) g).adjacent u ↔
      v ∈ g.adjacent u ∨ (u ≠ v ∧ ∃ w ∈ vs, u ∈ family net w ∧ v ∈ family net w) := by
  induction vs generalizing g with
  | nil => simp
  | cons w vs ih =>
      have hw := hvs w (List.mem_cons_self ..)
      rw [List.foldl_cons, ih fun c hc b hb => by
        rw [size_connectAll]
        exact hvs c (List.mem_cons_of_mem _ hc) b hb, adjacent_connectAll hw]
      simp only [List.mem_cons, exists_eq_or_imp]
      tauto

theorem size_foldl_connectAll (net : Network) (vs : List Variable) :
    (vs.foldl (fun g w => connectAll (family net w) g) g).neighbours.size =
      g.neighbours.size := by
  induction vs generalizing g with
  | nil => rfl
  | cons w vs ih => rw [List.foldl_cons, ih, size_connectAll]

theorem size_ofPartition {net : Network} {p : Partition} :
    (ofPartition net p).neighbours.size = net.size := by
  have hsize := size_foldl_connectAll net p.owned
    (g := ⟨Array.replicate net.size []⟩)
  rw [Array.size_replicate] at hsize
  exact hsize

/-- Variables are connected exactly if the table of an owned variable mentions both. -/
theorem adjacent_ofPartition {net : Network} {p : Partition}
    (h : ∀ w ∈ p.owned, ∀ b ∈ family net w, b < net.size) :
    v ∈ (ofPartition net p).adjacent u ↔
      u ≠ v ∧ ∃ w ∈ p.owned, u ∈ family net w ∧ v ∈ family net w := by
  have hempty : ∀ u, (⟨Array.replicate net.size []⟩ : InteractionGraph).adjacent u = [] := by
    intro u
    simp only [adjacent, Array.getD_eq_getD_getElem?, Array.getElem?_replicate]
    split <;> rfl
  have hfold := adjacent_foldl_connectAll (u := u) (v := v) (g := ⟨Array.replicate net.size []⟩)
    fun w (hw : w ∈ p.owned) b (hb : b ∈ family net w) => by
      rw [Array.size_replicate]
      exact h w hw b hb
  rw [hempty] at hfold
  simpa [ofPartition, family] using hfold

/-! ## Elimination -/

/-- The edges of a graph connect different variables of a list. -/
structure Spans (g : InteractionGraph) (vs : List Variable) : Prop where
  range : ∀ v ∈ vs, v < g.neighbours.size
  mem : ∀ {a b}, b ∈ g.adjacent a → a ∈ vs ∧ b ∈ vs ∧ a ≠ b
  symm : ∀ {a b}, b ∈ g.adjacent a → a ∈ g.adjacent b

theorem mem_foldl_insert :
    b ∈ ns.foldl (fun as b => if a == b then as else Ascending.insert b as) ms ↔
      b ∈ ms ∨ (b ∈ ns ∧ a ≠ b) := by
  induction ns generalizing ms with
  | nil => simp
  | cons n ns ih =>
      rw [List.foldl_cons, ih, List.mem_cons]
      split
      · rename_i he
        obtain rfl : a = n := by simpa using he
        constructor
        · tauto
        · rintro (h | ⟨rfl | h, hne⟩)
          · exact Or.inl h
          · exact absurd rfl hne
          · exact Or.inr ⟨h, hne⟩
      · rename_i hne
        have hne : a ≠ n := by simpa using hne
        rw [mem_insert]
        constructor
        · rintro ((rfl | h) | h)
          · exact Or.inr ⟨Or.inl rfl, hne⟩
          · exact Or.inl h
          · exact Or.inr ⟨Or.inr h.1, h.2⟩
        · tauto

/-- Connect a neighbour of `v` with the others. -/
def bypass (v : Variable) (ns : List Variable) (g : InteractionGraph) (a : Variable) :
    InteractionGraph :=
  ⟨g.neighbours.modify a fun as =>
    ns.foldl (fun as b => if a == b then as else Ascending.insert b as) (Ascending.erase v as)⟩

theorem size_foldl_bypass (ns ms : List Variable) :
    (ms.foldl (bypass v ns) g).neighbours.size = g.neighbours.size := by
  induction ms generalizing g with
  | nil => rfl
  | cons m ms ih => rw [List.foldl_cons, ih, bypass, Array.size_modify]

theorem adjacent_foldl_bypass (ns : List Variable) (hms : ∀ m ∈ ms, m < g.neighbours.size) :
    b ∈ (ms.foldl (bypass v ns) g).adjacent a ↔
      if a ∈ ms then (b ∈ g.adjacent a ∧ b ≠ v) ∨ (b ∈ ns ∧ a ≠ b) else b ∈ g.adjacent a := by
  induction ms generalizing g with
  | nil => simp
  | cons m ms ih =>
      have hm := hms m (List.mem_cons_self ..)
      have hstep : b ∈ (bypass v ns g m).adjacent a ↔
          if a = m then (b ∈ g.adjacent a ∧ b ≠ v) ∨ (b ∈ ns ∧ a ≠ b) else b ∈ g.adjacent a := by
        rw [bypass, adjacent_modify hm]
        split
        · rename_i he
          subst he
          rw [mem_foldl_insert, mem_erase]
        · rfl
      rw [List.foldl_cons, ih fun c hc => by
        rw [bypass, Array.size_modify]
        exact hms c (List.mem_cons_of_mem _ hc), hstep]
      by_cases ham : a = m
      · subst ham
        by_cases hmem : a ∈ ms
        · simp only [if_pos hmem, List.mem_cons_self, if_true]
          tauto
        · simp only [if_neg hmem, List.mem_cons_self, if_true]
      · rw [if_neg ham]
        simp only [List.mem_cons, ham, false_or]

theorem size_eliminate : (g.eliminate v).neighbours.size = g.neighbours.size := by
  have hsize := size_foldl_bypass (v := v) (g.adjacent v) (g.adjacent v)
    (g := ⟨g.neighbours.setIfInBounds v []⟩)
  rw [Array.size_setIfInBounds] at hsize
  exact hsize

/-- Eliminating a variable keeps the edges between other variables and connects its neighbours. -/
theorem adjacent_eliminate (h : Spans g (v :: vs)) :
    b ∈ (g.eliminate v).adjacent a ↔ a ≠ v ∧ b ≠ v ∧
      (b ∈ g.adjacent a ∨ (a ∈ g.adjacent v ∧ b ∈ g.adjacent v ∧ a ≠ b)) := by
  have hv := h.range v (List.mem_cons_self ..)
  have hdetached : ∀ u, (⟨g.neighbours.setIfInBounds v []⟩ : InteractionGraph).adjacent u =
      if u = v then [] else g.adjacent u := by
    intro u
    simp only [adjacent, Array.getD_eq_getD_getElem?, Array.getElem?_setIfInBounds]
    by_cases hu : u = v
    · subst hu
      simp [hv]
    · simp [hu, Ne.symm hu]
  have hfold := adjacent_foldl_bypass (v := v) (g := ⟨g.neighbours.setIfInBounds v []⟩) (a := a) (b := b)
    (g.adjacent v) fun m (hm : m ∈ g.adjacent v) => by
      rw [Array.size_setIfInBounds]
      exact h.range m (h.mem hm).2.1
  rw [show (g.eliminate v).adjacent a =
    ((g.adjacent v).foldl (bypass v (g.adjacent v)) ⟨g.neighbours.setIfInBounds v []⟩).adjacent a
    from rfl, hfold, hdetached]
  by_cases hav : a = v
  · subst hav
    have hself : a ∉ g.adjacent a := fun hmem => (h.mem hmem).2.2 rfl
    simp [hself]
  · have hmem : b ∈ g.adjacent v → b ≠ v := fun hb => Ne.symm (h.mem hb).2.2
    have hsymm : v ∈ g.adjacent a → a ∈ g.adjacent v := fun hva => h.symm hva
    rw [if_neg hav]
    split
    · rename_i ha
      constructor
      · rintro (⟨hb, hne⟩ | ⟨hb, hne⟩)
        · exact ⟨hav, hne, Or.inl hb⟩
        · exact ⟨hav, hmem hb, Or.inr ⟨ha, hb, hne⟩⟩
      · rintro ⟨_, hne, hb | ⟨_, hb, hab⟩⟩
        · exact Or.inl ⟨hb, hne⟩
        · exact Or.inr ⟨hb, hab⟩
    · rename_i ha
      constructor
      · intro hb
        refine ⟨hav, ?_, Or.inl hb⟩
        rintro rfl
        exact ha (hsymm hb)
      · rintro ⟨_, _, hb | ⟨ha', _⟩⟩
        · exact hb
        · exact absurd ha' ha

theorem Spans.eliminate (h : Spans g (v :: vs)) : Spans (g.eliminate v) vs where
  range u hu := by
    rw [size_eliminate]
    exact h.range u (List.mem_cons_of_mem _ hu)
  mem {a b} hb := by
    obtain ⟨hav, hbv, hb⟩ := (adjacent_eliminate h).1 hb
    have hother : ∀ {u}, u ≠ v → u ∈ v :: vs → u ∈ vs :=
      fun hne hu => (List.mem_cons.1 hu).resolve_left hne
    rcases hb with hb | ⟨ha, hb, hab⟩
    · exact ⟨hother hav (h.mem hb).1, hother hbv (h.mem hb).2.1, (h.mem hb).2.2⟩
    · exact ⟨hother hav (h.mem ha).2.1, hother hbv (h.mem hb).2.1, hab⟩
  symm {a b} hb := by
    obtain ⟨hav, hbv, hb⟩ := (adjacent_eliminate h).1 hb
    refine (adjacent_eliminate h).2 ⟨hbv, hav, ?_⟩
    rcases hb with hb | ⟨ha, hb, hab⟩
    · exact Or.inl (h.symm hb)
    · exact Or.inr ⟨hb, ha, Ne.symm hab⟩

/-! ## Ascending neighbours -/

/-- Every variable has its neighbours in ascending order. -/
def Ascends (g : InteractionGraph) : Prop := ∀ a, Ascending.Strict (g.adjacent a)

theorem Ascends.modify {f : List Variable → List Variable} (h : g.Ascends)
    (hf : ∀ as, Ascending.Strict as → Ascending.Strict (f as)) :
    (⟨g.neighbours.modify a f⟩ : InteractionGraph).Ascends := by
  intro u
  by_cases ha : a < g.neighbours.size
  · rw [adjacent_modify ha]
    split
    · exact hf _ (h a)
    · exact h u
  · have hsame : g.neighbours.modify a f = g.neighbours := by
      refine Array.ext_getElem? fun i => ?_
      rw [Array.getElem?_modify]
      split
      · rename_i hi
        subst hi
        rw [Array.getElem?_eq_none (Nat.le_of_not_lt ha)]
        rfl
      · rfl
    rw [hsame]
    exact h u

theorem Ascends.foldl {β : Type} {f : InteractionGraph → β → InteractionGraph} :
    ∀ {xs : List β} {g : InteractionGraph}, g.Ascends →
    (∀ g x, Ascends g → (f g x).Ascends) → (xs.foldl f g).Ascends
  | [], _, h, _ => h
  | x :: _, g, h, hf => by
      rw [List.foldl_cons]
      exact Ascends.foldl (hf g x h) hf

theorem Ascends.connect (h : g.Ascends) : (g.connect a b).Ascends := by
  unfold InteractionGraph.connect
  split
  · exact h
  · exact (h.modify fun _ => Ascending.strict_insert).modify fun _ => Ascending.strict_insert

theorem Ascends.connectAll : ∀ {vs : List Variable} {g : InteractionGraph}, g.Ascends →
    (connectAll vs g).Ascends
  | [], _, h => h
  | _ :: _, _, h => by
      rw [InteractionGraph.connectAll]
      exact Ascends.connectAll (h.foldl fun _ _ h => h.connect)

theorem ascends_ofPartition {net : Network} {p : Partition} : (ofPartition net p).Ascends := by
  refine Ascends.foldl (fun a => ?_) fun _ _ h => h.connectAll
  simp only [adjacent, Array.getD_eq_getD_getElem?, Array.getElem?_replicate]
  split <;> exact List.Pairwise.nil

theorem Ascends.eliminate (h : g.Ascends) : (g.eliminate v).Ascends := by
  refine Ascends.foldl (fun a => ?_) fun g a h => h.modify fun as has => ?_
  · simp only [adjacent, Array.getD_eq_getD_getElem?, Array.getElem?_setIfInBounds]
    split
    · split <;> exact List.Pairwise.nil
    · have hstrict := h a
      rwa [adjacent, Array.getD_eq_getD_getElem?] at hstrict
  · refine List.foldlRecOn _ _ (motive := Ascending.Strict) (Ascending.strict_erase has) ?_
    intro bs hbs b _
    split
    · exact hbs
    · exact Ascending.strict_insert hbs

/-! ## Min-fill orderings -/

/-- Of some variables there is one that is eliminated first. -/
theorem first?_spec : ∀ {vs : List Variable}, vs ≠ [] → ∃ v ∈ vs, g.first? vs = some v
  | [], h => absurd rfl h
  | v :: vs, _ => by
      rw [first?]
      cases hrest : g.first? vs with
      | none => exact ⟨v, List.mem_cons_self .., rfl⟩
      | some w =>
          obtain ⟨w', hw', hfirst⟩ : ∃ w ∈ vs, g.first? vs = some w :=
            first?_spec fun hnone => by cases hnone ▸ hrest
          obtain rfl := Option.some.inj (hfirst.symm.trans hrest)
          by_cases hbefore : g.eliminatedBefore w' v
          · exact ⟨w', List.mem_cons_of_mem _ hw', if_pos hbefore⟩
          · exact ⟨v, List.mem_cons_self .., if_neg hbefore⟩

theorem eliminationFrom_perm {remaining done : List Variable} :
    g.eliminationFrom remaining done ~ remaining ++ done := by
  fun_induction eliminationFrom g remaining done with
  | case1 g remaining done hnone =>
      have hempty : remaining = [] := by
        by_contra hne
        obtain ⟨v, -, hfirst⟩ := first?_spec (g := g) hne
        cases hfirst.symm.trans hnone
      rw [hempty]
      exact .refl _
  | case2 g remaining done v hfirst hv ih =>
      exact ih.trans (List.perm_middle.trans ((List.perm_cons_erase hv).symm.append_right done))
  | case3 g remaining done v hfirst hv =>
      have hne : remaining ≠ [] := by
        rintro rfl
        cases hfirst
      obtain ⟨w, hw, hsame⟩ := first?_spec (g := g) hne
      exact absurd (Option.some.inj (hfirst.symm.trans hsame) ▸ hw) hv

/-- The min-fill ordering lists every variable of the partition once. -/
theorem minFill_perm {net : Network} {p : Partition} : minFill net p ~ p.scope := by
  have hperm : minFill net p ~ p.scope ++ [] := eliminationFrom_perm
  rwa [List.append_nil] at hperm

end BayesCircuit.InteractionGraph
