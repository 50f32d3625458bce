import BayesCircuit.Network.Reader
import BayesCircuit.Proofs.Encoding.Factors

/-!
# Networks that come from files

Whatever a file says, the network that is read from it has different names, at least one value for
every variable, parents that exist and tables of the right length (`Accepted`): a block adds a
variable with a new name or asks for a table between variables that are there, and a table that is
set has been counted. The reader does not look for a variable that is its own parent or is listed
twice. This is all that can be missing for the network to be well formed
(`Accepted.wellFormed_iff`).
-/

namespace BayesCircuit.Network

open InteractionGraph

/-- What every network has that is read from a file. -/
structure Accepted (net : Network) : Prop where
  names : ∀ {u v : Variable} {m n : Node}, net.nodes[u]? = some m → net.nodes[v]? = some n →
    m.name = n.name → u = v
  states : ∀ {v : Variable} {n : Node}, net.nodes[v]? = some n → 0 < n.states.size
  parents : ∀ {v : Variable} {n : Node}, net.nodes[v]? = some n → ∀ p ∈ n.parents, p < net.size
  table : ∀ {v : Variable} {n : Node}, net.nodes[v]? = some n →
    n.table.size = ((n.parents ++ [v]).map net.dimOf).prod

/-- A table between variables of a network. -/
def Potential.Within (net : Network) (p : Potential) : Prop :=
  ∀ v ∈ p.parents ++ [p.child], v < net.size

variable {net net' : Network} {u v : Variable} {m n : Node} {name : String} {c c' : Cursor}
variable {states : Array String} {child : Variable} {parents : List Variable}
variable {table : Array Probability} {p : Potential} {potentials potentials' : List Potential}
variable {line : Nat} {file : String}

/-! ## Names -/

theorem find?_spec (h : net.find? name = some v) : ∃ n, net.nodes[v]? = some n ∧ n.name = name := by
  have hany := List.find?_some h
  obtain ⟨n, hn, hname⟩ := Option.any_eq_true _ _ |>.1 hany
  exact ⟨n, hn, beq_iff_eq.1 hname⟩

theorem lt_of_find? (h : net.find? name = some v) : v < net.size := by
  obtain ⟨n, hn, -⟩ := find?_spec h
  exact (Array.getElem?_eq_some_iff.1 hn).1

theorem name_ne_of_find? (h : net.find? name = none) (hn : net.nodes[v]? = some n) :
    n.name ≠ name := by
  have hv : v < net.size := (Array.getElem?_eq_some_iff.1 hn).1
  have hmissed := List.find?_eq_none.1 h v (List.mem_reverse.2 (List.mem_range.2 hv))
  simpa [hn] using hmissed

/-- Every variable is found by its name. -/
theorem Accepted.find?_name (h : net.Accepted) (hn : net.nodes[v]? = some n) :
    net.find? n.name = some v := by
  cases hfind : net.find? n.name with
  | none => exact absurd rfl (name_ne_of_find? hfind hn)
  | some u =>
      obtain ⟨m, hm, hname⟩ := find?_spec hfind
      rw [h.names hm hn hname]

/-! ## What can be done with accepted networks -/

theorem Accepted.closed (h : net.Accepted) : net.Closed := fun _ _ hn => h.parents hn

theorem Accepted.dim_pos (h : net.Accepted) (hv : v < net.size) : 0 < net.dimOf v := by
  have hn := Array.getElem?_eq_getElem hv
  have hdim : net.dimOf v = net.nodes[v].states.size := by
    simp [dimOf, dims, Array.getD_eq_getD_getElem?, hn]
  rw [hdim]
  exact h.states hn

/-- Every accepted network can be encoded, one whose tables list a variable twice as well. -/
theorem Accepted.exists_ofNetwork (h : net.Accepted) (options : EncodingOptions) :
    ∃ e, Encoding.ofNetwork options net = .ok e :=
  Encoding.exists_ofNetwork options h.closed fun _ hv => h.dim_pos hv

/-! ## Adding variables -/

theorem accepted_empty : empty.Accepted where
  names h := by simp [empty] at h
  states h := by simp [empty] at h
  parents h := by simp [empty] at h
  table h := by simp [empty] at h

theorem size_addVariable : (net.addVariable name states).size = net.size + 1 := Array.size_push ..

theorem getElem?_addVariable (h : (net.addVariable name states).nodes[v]? = some n) :
    net.nodes[v]? = some n ∨ v = net.size ∧ n.name = name ∧ n.states = states ∧ n.parents = [] ∧
      n.table.size = max states.size 1 := by
  rw [addVariable, Array.getElem?_push] at h
  split at h
  · obtain rfl := Option.some.inj h
    exact Or.inr ⟨‹_›, rfl, rfl, rfl, Array.size_replicate⟩
  · exact Or.inl h

theorem dimOf_addVariable (hv : v < net.size) :
    (net.addVariable name states).dimOf v = net.dimOf v := by
  have hne : v ≠ net.nodes.size := Nat.ne_of_lt hv
  simp [dimOf, dims, addVariable, Array.getD_eq_getD_getElem?, Array.getElem?_push, hne]

theorem dimOf_size_addVariable : (net.addVariable name states).dimOf net.size = states.size := by
  rw [dimOf, dims, addVariable, Array.map_push, Array.getD_eq_getD_getElem?, size,
    ← Array.size_map (f := fun n : Node => n.states.size), Array.getElem?_push_size]
  rfl

/-- A variable with a new name and with values. -/
theorem Accepted.addVariable (h : net.Accepted) (hname : net.find? name = none)
    (hstates : 0 < states.size) : (net.addVariable name states).Accepted where
  names hm hn heq := by
    obtain hm | ⟨hu, hm, -⟩ := getElem?_addVariable hm
    · obtain hn | ⟨-, hn, -⟩ := getElem?_addVariable hn
      · exact h.names hm hn heq
      · exact absurd (heq.trans hn) (name_ne_of_find? hname hm)
    · obtain hn | ⟨hv, -, -⟩ := getElem?_addVariable hn
      · exact absurd (heq.symm.trans hm) (name_ne_of_find? hname hn)
      · exact hu.trans hv.symm
  states hn := by
    obtain hn | ⟨-, -, hn, -⟩ := getElem?_addVariable hn
    · exact h.states hn
    · rwa [hn]
  parents hn p hp := by
    rw [size_addVariable]
    obtain hn | ⟨-, -, -, hn, -⟩ := getElem?_addVariable hn
    · exact Nat.lt_succ_of_lt (h.parents hn p hp)
    · rw [hn] at hp
      exact absurd hp List.not_mem_nil
  table {v n} hn := by
    obtain hn | ⟨rfl, -, -, hparents, htable⟩ := getElem?_addVariable hn
    · have hv : v < net.size := (Array.getElem?_eq_some_iff.1 hn).1
      rw [h.table hn]
      refine congrArg List.prod (List.map_congr_left fun u hu => (dimOf_addVariable ?_).symm)
      rcases List.mem_append.1 hu with hu | hu
      · exact h.parents hn u hu
      · exact List.mem_singleton.1 hu ▸ hv
    · rw [htable, hparents, List.nil_append, List.map_singleton, dimOf_size_addVariable,
        List.prod_singleton]
      exact Nat.max_eq_left hstates

/-! ## Setting tables -/

/-- A table that is set has an entry for each combination of values. -/
theorem setPotential_eq_ok (hwithin : ∀ u ∈ parents ++ [child], u < net.size)
    (h : net.setPotential child parents table = .ok net') :
    table.size = ((parents ++ [child]).map net.dimOf).prod ∧
      net' = ⟨net.nodes.modify child fun n => { n with parents, table }⟩ := by
  rw [setPotential, Encoding.ofScope_eq hwithin] at h
  obtain ⟨counter, hcounter, h⟩ := Outcome.bind_eq_ok_iff.1 h
  obtain rfl := Except.ok.inj hcounter
  obtain ⟨expected, hexpected, h⟩ := Outcome.bind_eq_ok_iff.1 h
  have hcount : expected = ((parents ++ [child]).map net.dimOf).prod := by
    obtain ⟨_, -, hcount⟩ := Outcome.bind_eq_ok_iff.1 hexpected
    rw [Counter.states, Counter.radices_zero] at hcount
    exact (Except.ok.inj hcount).symm
  dsimp only at h
  split at h
  · obtain ⟨_, -, h⟩ := Outcome.bind_eq_ok_iff.1 h
    cases h
  · rename_i hsize
    exact ⟨by simpa [hcount] using hsize, (Except.ok.inj h).symm⟩

/-- A table changes nothing but the parents and the table of its variable. -/
theorem getElem?_setPotential
    (h : (net.nodes.modify child fun n => { n with parents, table })[v]? = some n) :
    ∃ m, net.nodes[v]? = some m ∧ n.name = m.name ∧ n.states = m.states ∧
      (n.parents = m.parents ∧ n.table = m.table ∨
        v = child ∧ n.parents = parents ∧ n.table = table) := by
  rw [Array.getElem?_modify] at h
  split at h
  · obtain ⟨m, hm, rfl⟩ := Option.map_eq_some_iff.1 h
    exact ⟨m, hm, rfl, rfl, Or.inr ⟨Eq.symm ‹_›, rfl, rfl⟩⟩
  · exact ⟨n, h, rfl, rfl, Or.inl ⟨rfl, rfl⟩⟩

theorem Accepted.setPotential (h : net.Accepted) (hwithin : ∀ u ∈ parents ++ [child], u < net.size)
    (hset : net.setPotential child parents table = .ok net') :
    net'.Accepted ∧ net'.size = net.size := by
  obtain ⟨hcount, rfl⟩ := setPotential_eq_ok hwithin hset
  have hsize : size ⟨net.nodes.modify child fun n => { n with parents, table }⟩ = net.size :=
    Array.size_modify ..
  have hdims : dimOf ⟨net.nodes.modify child fun n => { n with parents, table }⟩ = net.dimOf := by
    funext v
    rw [dimOf, dimOf, Array.getD_eq_getD_getElem?, Array.getD_eq_getD_getElem?, dims, dims,
      Array.getElem?_map, Array.getElem?_map, Array.getElem?_modify]
    split
    · rw [Option.map_map]
      rfl
    · rfl
  refine ⟨⟨fun hm hn heq => ?_, fun hn => ?_, fun hn p hp => ?_, fun hn => ?_⟩, hsize⟩
  · obtain ⟨m, hm, hmname, -⟩ := getElem?_setPotential hm
    obtain ⟨n, hn, hnname, -⟩ := getElem?_setPotential hn
    exact h.names hm hn (hmname.symm.trans (heq.trans hnname))
  · obtain ⟨m, hm, -, hstates, -⟩ := getElem?_setPotential hn
    rw [hstates]
    exact h.states hm
  · rw [hsize]
    obtain ⟨m, hm, -, -, ⟨hparents, -⟩ | ⟨-, hparents, -⟩⟩ := getElem?_setPotential hn
    · exact h.parents hm p (hparents ▸ hp)
    · exact hwithin p (List.mem_append_left _ (hparents ▸ hp))
  · rw [hdims]
    obtain ⟨m, hm, -, -, ⟨hparents, htable⟩ | ⟨rfl, hparents, htable⟩⟩ := getElem?_setPotential hn
    · rw [hparents, htable]
      exact h.table hm
    · rw [hparents, htable]
      exact hcount

theorem Accepted.applyPotential (h : net.Accepted) (hp : p.Within net)
    (happly : applyPotential file net p = .ok net') : net'.Accepted ∧ net'.size = net.size := by
  rw [Network.applyPotential] at happly
  split at happly
  · cases happly
  · exact h.setPotential hp happly

theorem Accepted.foldlM (h : net.Accepted) (hps : ∀ p ∈ potentials, p.Within net)
    (hall : potentials.foldlM (Network.applyPotential file) net = .ok net') : net'.Accepted := by
  induction potentials generalizing net with
  | nil => exact Except.ok.inj hall ▸ h
  | cons p ps ih =>
      obtain ⟨hp, hps⟩ := List.forall_mem_cons.1 hps
      rw [List.foldlM_cons] at hall
      obtain ⟨next, hnext, hall⟩ := Outcome.bind_eq_ok_iff.1 hall
      obtain ⟨h, hsize⟩ := h.applyPotential hp hnext
      exact ih h (fun q hq u hu => hsize.symm ▸ hps q hq u hu) hall

/-! ## Reading blocks -/

theorem readNode_accepted (h : net.Accepted) (hread : readNode net c = .ok (net', c')) :
    net'.Accepted ∧ net.size ≤ net'.size := by
  rw [readNode] at hread
  obtain ⟨⟨name, c⟩, -, hread⟩ := Outcome.bind_eq_ok_iff.1 hread
  dsimp only at hread
  split at hread
  · obtain ⟨_, hstop, -⟩ := Outcome.bind_eq_ok_iff.1 hread
    cases hstop
  · rename_i hname
    obtain ⟨⟨properties, c⟩, -, hread⟩ := Outcome.bind_eq_ok_iff.1 hread
    dsimp only at hread
    split at hread
    · obtain ⟨_, hstop, -⟩ := Outcome.bind_eq_ok_iff.1 hread
      cases hstop
    · rename_i hstates
      obtain ⟨rfl, -⟩ := Prod.mk.inj (Except.ok.inj hread)
      refine ⟨h.addVariable (Option.not_isSome_iff_eq_none.1 hname) ?_,
        size_addVariable ▸ Nat.le_succ _⟩
      rw [List.size_toArray, List.length_pos_iff]
      exact fun hnil => hstates (List.isEmpty_iff.2 hnil)

/-- The parents that are read are there. -/
theorem parentsToEnd_lt : ∀ {c : Cursor} {vs : List Variable},
    c.parentsToEnd net = .ok (vs, c') → ∀ v ∈ vs, v < net.size := by
  intro c
  induction c using Cursor.parentsToEnd.induct with
  | case1 c hend =>
      intro vs h
      rw [Cursor.parentsToEnd, if_pos hend] at h
      obtain ⟨_, -, h⟩ := Outcome.bind_eq_ok_iff.1 h
      obtain ⟨rfl, -⟩ := Prod.mk.inj (Except.ok.inj h)
      exact fun v hv => absurd hv List.not_mem_nil
  | case2 c hend ih =>
      intro vs h
      rw [Cursor.parentsToEnd, if_neg hend] at h
      obtain ⟨⟨name, rest⟩, -, h⟩ := Outcome.bind_eq_ok_iff.1 h
      dsimp only at h
      split at h
      · cases h
      · rename_i v hv
        split at h
        · rename_i hshorter
          obtain ⟨⟨more, _⟩, hmore, h⟩ := Outcome.bind_eq_ok_iff.1 h
          obtain ⟨rfl, rfl⟩ := Prod.mk.inj (Except.ok.inj h)
          exact List.forall_mem_cons.2 ⟨lt_of_find? hv, ih rest hshorter hmore⟩
        · cases h

theorem readPotential_within (h : readPotential net line c = .ok (p, c')) : p.Within net := by
  rw [readPotential] at h
  obtain ⟨c, -, h⟩ := Outcome.bind_eq_ok_iff.1 h
  obtain ⟨⟨name, c⟩, -, h⟩ := Outcome.bind_eq_ok_iff.1 h
  dsimp only at h
  split at h
  · cases h
  · rename_i child hchild
    -- Either way of giving the parents gives some that are there.
    have hgiven : ∃ parents c, (∀ v ∈ parents, v < net.size) ∧
        (Cursor.properties c >>= fun body =>
          readData body.2 ((body.1.filter (·.1 == "data")).flatMap (·.2)) >>= fun data =>
            .ok (⟨child, parents, data, line⟩, body.2)) = Except.ok (p, c') := by
      obtain ⟨_, hfound, h⟩ := Outcome.bind_eq_ok_iff.1 h
      obtain rfl := Except.ok.inj hfound
      split at h
      · obtain ⟨⟨parents, c⟩, hparents, h⟩ := Outcome.bind_eq_ok_iff.1 h
        obtain ⟨_, -, hparents⟩ := Outcome.bind_eq_ok_iff.1 hparents
        exact ⟨parents, c, parentsToEnd_lt hparents, h⟩
      · obtain ⟨⟨parents, last⟩, hparents, h⟩ := Outcome.bind_eq_ok_iff.1 h
        cases hend : Cursor.expectMark c ')' with
        | error _ =>
            rw [hend] at hparents
            cases hparents
        | ok rest =>
            rw [hend] at hparents
            obtain ⟨rfl, rfl⟩ := Prod.mk.inj (Except.ok.inj hparents)
            exact ⟨[], rest, fun v hv => absurd hv List.not_mem_nil, h⟩
    obtain ⟨parents, c, hparents, h⟩ := hgiven
    obtain ⟨⟨properties, c⟩, -, h⟩ := Outcome.bind_eq_ok_iff.1 h
    obtain ⟨data, -, h⟩ := Outcome.bind_eq_ok_iff.1 h
    obtain ⟨rfl, -⟩ := Prod.mk.inj (Except.ok.inj h)
    intro v hv
    rcases List.mem_append.1 hv with hv | hv
    · exact hparents v hv
    · exact List.mem_singleton.1 hv ▸ lt_of_find? hchild

theorem Potential.Within.mono (h : p.Within net) (hle : net.size ≤ net'.size) : p.Within net' :=
  fun v hv => (h v hv).trans_le hle

theorem readBlock_accepted (h : net.Accepted) (hps : ∀ p ∈ potentials, p.Within net)
    (hread : readBlock net potentials c = .ok (net', potentials', c')) :
    net'.Accepted ∧ ∀ p ∈ potentials', p.Within net' := by
  rw [readBlock] at hread
  obtain ⟨⟨keyword, c⟩, -, hread⟩ := Outcome.bind_eq_ok_iff.1 hread
  dsimp only at hread
  split at hread
  · obtain ⟨⟨_, _⟩, -, hread⟩ := Outcome.bind_eq_ok_iff.1 hread
    cases hread
    exact ⟨h, hps⟩
  · obtain ⟨⟨node, c⟩, -, hread⟩ := Outcome.bind_eq_ok_iff.1 hread
    dsimp only at hread
    split at hread
    · obtain ⟨_, hstop, -⟩ := Outcome.bind_eq_ok_iff.1 hread
      cases hstop
    · obtain ⟨⟨_, _⟩, hnode, hread⟩ := Outcome.bind_eq_ok_iff.1 hread
      cases hread
      obtain ⟨h, hle⟩ := readNode_accepted h hnode
      exact ⟨h, fun p hp => (hps p hp).mono hle⟩
  · obtain ⟨⟨_, _⟩, hnode, hread⟩ := Outcome.bind_eq_ok_iff.1 hread
    cases hread
    obtain ⟨h, hle⟩ := readNode_accepted h hnode
    exact ⟨h, fun p hp => (hps p hp).mono hle⟩
  · cases hread
  · obtain ⟨⟨q, _⟩, hq, hread⟩ := Outcome.bind_eq_ok_iff.1 hread
    cases hread
    refine ⟨h, fun p hp => ?_⟩
    rcases List.mem_append.1 hp with hp | hp
    · exact hps p hp
    · exact List.mem_singleton.1 hp ▸ readPotential_within hq
  · cases hread

/-- The rest of a file is read with whatever has been read. -/
theorem readBlocks_accepted : ∀ {net : Network} {potentials : List Potential} {c : Cursor},
    net.Accepted → (∀ p ∈ potentials, p.Within net) →
    readBlocks net potentials c = .ok (net', potentials') →
    net'.Accepted ∧ ∀ p ∈ potentials', p.Within net' := by
  intro net potentials c
  induction net, potentials, c using readBlocks.induct with
  | case1 net potentials c hend =>
      intro h hps hread
      rw [readBlocks, if_pos hend] at hread
      obtain ⟨rfl, rfl⟩ := Prod.mk.inj (Except.ok.inj hread)
      exact ⟨h, hps⟩
  | case2 net potentials c hmore ih =>
      intro h hps hread
      rw [readBlocks, if_neg hmore] at hread
      obtain ⟨⟨next, more, rest⟩, hblock, hread⟩ := Outcome.bind_eq_ok_iff.1 hread
      obtain ⟨h, hps⟩ := readBlock_accepted h hps hblock
      dsimp only at hread
      split at hread
      · exact ih next more rest ‹_› h hps hread
      · cases hread

/-- Every network that is read from a file is accepted. -/
theorem accepted_of_parse {text : String} (h : parse file text = .ok net) : net.Accepted := by
  rw [parse] at h
  split at h
  · cases h
  · obtain ⟨⟨start, potentials⟩, hread, h⟩ := Outcome.bind_eq_ok_iff.1 h
    obtain ⟨hstart, hps⟩ := readBlocks_accepted accepted_empty
      (fun p hp => absurd hp List.not_mem_nil) hread
    exact hstart.foldlM hps h

/-- What is read from a file is well formed unless a table lists a variable twice or there are more
variables than numbers for them. -/
theorem Accepted.wellFormed_iff (h : net.Accepted) : net.WellFormed ↔
    (∀ v < net.size, (family net v).Nodup) ∧ net.size ≤ PseudoTree.joiner := by
  refine ⟨fun hnet => ⟨fun v hv => hnet.nodup_family hv, hnet.size_le⟩, fun ⟨hnodup, hsize⟩ =>
    ⟨fun v n hn => ?_, hsize⟩⟩
  have hfamily := hnodup v (Array.getElem?_eq_some_iff.1 hn).1
  rw [family_eq hn, List.nodup_append] at hfamily
  exact ⟨h.states hn, h.parents hn, hfamily.1,
    fun hv => hfamily.2.2 v hv v (List.mem_singleton_self v) rfl, h.table hn⟩

/-- A variable that is its own parent. -/
example : (parse "loop.net" ("node A \x7b states = (\"a\" \"b\"); \x7d" ++
    "potential (A | A) \x7b data = (0.1 0.9 0.3 0.7); \x7d")).map (family · 0) = .ok [0, 0] := by
  decide +kernel

end BayesCircuit.Network
