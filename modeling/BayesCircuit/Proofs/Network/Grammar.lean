import BayesCircuit.Network.Reader
import BayesCircuit.Proofs.Counter
import BayesCircuit.Proofs.Network.Layout
import BayesCircuit.Proofs.Outcome

/-!
# Files that describe a network

A network is described by a list of variables with the names of their values and a list of tables
(`Description`). There are many sequences of tokens that describe it (`Blocks`): there may be
blocks and properties that say nothing about it, the numbers of a table may be in parentheses in any
way, and tables and variables may be mixed as long as variables are declared before they are used.
The reader finds the described network in every text that spells such a sequence
(`parse_describes`).
-/

namespace BayesCircuit.Network

open Token (Layout)

/-! ## Descriptions -/

/-- A variable and the names of its values. -/
structure Declaration where
  name : String
  states : List String

/-- The table of a variable under its parents, in reading order. -/
structure Conditional where
  child : Variable
  parents : List Variable
  data : List Probability

/-- The number of values of a variable that is declared. -/
def statesAt (ds : List Declaration) (v : Variable) : Nat := ds[v]?.elim 0 (·.states.length)

def nameAt (ds : List Declaration) (v : Variable) : String := ds[v]?.elim "" (·.name)

/-- A table is about declared variables and has one entry for each combination of their values; it
is not longer than a machine can count. -/
structure Conditional.Fits (p : Conditional) (ds : List Declaration) : Prop where
  child : p.child < ds.length
  parents : ∀ u ∈ p.parents, u < ds.length
  length : p.data.length = ((p.parents ++ [p.child]).map (statesAt ds)).prod
  counted : p.data.length < wordSize

/-- What a file says about a network. -/
structure Description where
  declarations : List Declaration
  tables : List Conditional
  nodup : (declarations.map (·.name)).Nodup
  states_ne_nil : ∀ d ∈ declarations, d.states ≠ []
  fits : ∀ p ∈ tables, p.Fits declarations

/-- A variable has its last table. Without one, it has no parents and its values are equally
likely. -/
def nodeOf (ps : List Conditional) (v : Variable) (d : Declaration) : Node :=
  match ps.reverse.find? (·.child == v) with
  | some p => ⟨d.name, d.states.toArray, p.parents, p.data.toArray⟩
  | none => ⟨d.name, d.states.toArray, [],
      Array.replicate d.states.length (.ofFloat (1.0 / d.states.length.toFloat))⟩

/-- The network of some variables and tables. -/
def ofTables (ds : List Declaration) (ps : List Conditional) : Network :=
  ⟨(ds.mapIdx (nodeOf ps)).toArray⟩

/-- The network that is described. -/
def Description.network (D : Description) : Network := ofTables D.declarations D.tables

/-! ## Tokens -/

/-- Values in parentheses next to each other, and the tokens inside. -/
inductive Values : List Token → List Token → Prop where
  | nil : Values [] []
  | leaf {t : Token} {ts leaves : List Token} : (∀ c, t ≠ .mark c) → Values ts leaves →
      Values (t :: ts) (t :: leaves)
  | group {inner ts leaves more : List Token} : Values inner leaves → Values ts more →
      Values (.mark '(' :: (inner ++ .mark ')' :: ts)) (leaves ++ more)

/-- The value of a property, and the tokens inside. -/
inductive Value : List Token → List Token → Prop where
  | leaf {t : Token} : (∀ c, t ≠ .mark c) → Value [t] [t]
  | group {inner leaves : List Token} : Values inner leaves →
      Value (.mark '(' :: (inner ++ [.mark ')'])) leaves

/-- Properties next to each other. -/
inductive Properties : List Token → List (String × List Token) → Prop where
  | nil : Properties [] []
  | cons {key : String} {value leaves ts : List Token} {properties : List (String × List Token)} :
      Value value leaves → Properties ts properties →
      Properties (.identifier key :: .mark '=' :: (value ++ .mark ';' :: ts))
        ((key, leaves) :: properties)

/-- The properties of a block in their braces. -/
def Body (ts : List Token) (properties : List (String × List Token)) : Prop :=
  ∃ inner, Properties inner properties ∧ ts = .mark '\x7b' :: (inner ++ [.mark '\x7d'])

/-- The only property of this name lists these tokens. -/
def Only (properties : List (String × List Token)) (key : String) (leaves : List Token) : Prop :=
  properties.filter (·.1 == key) = [(key, leaves)]

/-- How a node is announced. -/
inductive Announces : List Token → Prop where
  | node : Announces [.identifier "node"]
  | discrete : Announces [.identifier "discrete", .identifier "node"]

/-- What stands between a variable and the closing parenthesis before its table. -/
inductive Given (names : Variable → String) : List Variable → List Token → Prop where
  | none : Given names [] []
  | bar {parents : List Variable} :
      Given names parents (.mark '|' :: parents.map fun u => .identifier (names u))

/-- The blocks of a file from a place on at which the first `k` variables have been declared, and
the tables that follow. -/
inductive Blocks (ds : List Declaration) : Nat → List Conditional → List Token → Prop where
  | done : Blocks ds ds.length [] []
  | net {k : Nat} {ps : List Conditional} {body rest : List Token}
      {properties : List (String × List Token)} : Body body properties → Blocks ds k ps rest →
      Blocks ds k ps (.identifier "net" :: (body ++ rest))
  | node {k : Nat} {ps : List Conditional} {opening body rest : List Token} {d : Declaration}
      {properties : List (String × List Token)} : ds[k]? = some d → Announces opening →
      Body body properties → Only properties "states" (d.states.map .text) →
      Blocks ds (k + 1) ps rest →
      Blocks ds k ps (opening ++ .identifier d.name :: (body ++ rest))
  | potential {k : Nat} {p : Conditional} {ps : List Conditional} {given body rest : List Token}
      {properties : List (String × List Token)} : p.child < k → (∀ u ∈ p.parents, u < k) →
      Given (nameAt ds) p.parents given → Body body properties →
      Only properties "data" (p.data.map .number) → Blocks ds k ps rest →
      Blocks ds k (p :: ps) (.identifier "potential" :: .mark '(' ::
        .identifier (nameAt ds p.child) :: (given ++ .mark ')' :: (body ++ rest)))

/-- A text describes a network if it spells the blocks of a file that does. -/
def Description.Describes (D : Description) (text : String) : Prop :=
  ∃ ts, Blocks D.declarations 0 D.tables ts ∧ Layout ts text.toList

variable {ds : List Declaration} {ps qs : List Conditional} {k : Nat} {c : Cursor}
variable {ts us leaves : List Token} {properties : List (String × List Token)} {t : Token}
variable {d : Declaration} {p : Conditional} {v : Variable} {name : String} {file : String}

theorem Blocks.le (h : Blocks ds k ps ts) : k ≤ ds.length := by
  induction h with
  | done => exact Nat.le_refl _
  | net _ _ ih => exact ih
  | node _ _ _ _ _ ih => omega
  | potential _ _ _ _ _ _ ih => exact ih

/-! ## Networks of some variables and tables -/

theorem getElem?_ofTables : (ofTables ds ps).nodes[v]? = ds[v]?.map (nodeOf ps v) := by
  simp [ofTables]

@[simp] theorem size_ofTables : (ofTables ds ps).size = ds.length := by simp [ofTables, size]

theorem name_nodeOf : (nodeOf ps v d).name = d.name := by
  unfold nodeOf
  split <;> rfl

theorem states_nodeOf : (nodeOf ps v d).states = d.states.toArray := by
  unfold nodeOf
  split <;> rfl

theorem addVariable_ofTables (hd : d.states ≠ []) :
    (ofTables ds []).addVariable d.name d.states.toArray = ofTables (ds ++ [d]) [] := by
  have hpos : max d.states.length 1 = d.states.length := by
    have := List.length_pos_of_ne_nil hd
    omega
  simp [addVariable, ofTables, hpos, nodeOf, List.mapIdx_concat]

/-- A variable that is found has the name, and it is there unless no variable has. -/
theorem find?_ofTables_eq_some (h : (ofTables ds ps).find? name = some v) :
    nameAt ds v = name ∧ v < ds.length := by
  have hname := List.find?_some h
  rw [getElem?_ofTables] at hname
  obtain ⟨n, hn, hname⟩ := Option.any_eq_true _ _ |>.1 hname
  obtain ⟨d, hd, rfl⟩ := Option.map_eq_some_iff.1 hn
  rw [beq_iff_eq, name_nodeOf] at hname
  exact ⟨by rw [nameAt, hd, ← hname]; rfl, (List.getElem?_eq_some_iff.1 hd).1⟩

theorem nameAt_eq (hv : v < (ds.map (·.name)).length) : nameAt ds v = (ds.map (·.name))[v] := by
  rw [List.length_map] at hv
  rw [nameAt, List.getElem?_eq_getElem hv, List.getElem_map]
  rfl

theorem find?_ofTables (hnodup : (ds.map (·.name)).Nodup) (hv : v < ds.length) :
    (ofTables ds ps).find? (nameAt ds v) = some v := by
  cases hfind : (ofTables ds ps).find? (nameAt ds v) with
  | none =>
      have hmissed := List.find?_eq_none.1 hfind v (by simpa using hv)
      rw [getElem?_ofTables, List.getElem?_eq_getElem hv] at hmissed
      simp [name_nodeOf, nameAt, List.getElem?_eq_getElem hv] at hmissed
  | some u =>
      obtain ⟨hname, hu⟩ := find?_ofTables_eq_some hfind
      rw [← List.length_map (·.name)] at hu hv
      rw [nameAt_eq hu, nameAt_eq hv] at hname
      rw [(List.Nodup.getElem_inj_iff hnodup).1 hname]

theorem find?_ofTables_fresh (hname : name ∉ ds.map (·.name)) :
    (ofTables ds ps).find? name = none := by
  cases hfind : (ofTables ds ps).find? name with
  | none => rfl
  | some u =>
      obtain ⟨hu, hlt⟩ := find?_ofTables_eq_some hfind
      rw [← List.length_map (·.name)] at hlt
      rw [nameAt_eq hlt] at hu
      exact absurd (hu ▸ List.getElem_mem _) hname

/-! ## Tables -/

theorem nodeOf_concat : nodeOf (ps ++ [p]) v d = if p.child = v then
    ⟨d.name, d.states.toArray, p.parents, p.data.toArray⟩ else nodeOf ps v d := by
  by_cases hv : p.child = v
  · simp [nodeOf, hv]
  · simp [nodeOf, hv]

theorem dims_ofTables (hv : v < ds.length) : fetch (ofTables ds ps).dims v = .ok (statesAt ds v) := by
  rw [fetch, dims, Array.getElem?_map, getElem?_ofTables, statesAt, List.getElem?_eq_getElem hv]
  simp [states_nodeOf, expect]

/-- The entries of a table can be counted. -/
theorem states?_ofTables {vs : List Variable} (ps : List Conditional) (hpos : ∀ d ∈ ds, d.states ≠ [])
    (hvs : ∀ v ∈ vs, v < ds.length) (hcounted : (vs.map (statesAt ds)).prod < wordSize) :
    (Counter.ofScope (ofTables ds ps).dims vs >>= Counter.states?) =
      .ok (vs.map (statesAt ds)).prod := by
  have hradices : ∀ r ∈ vs.map (statesAt ds), 0 < r := by
    intro r hr
    obtain ⟨v, hv, rfl⟩ := List.mem_map.1 hr
    have hlt := hvs v hv
    rw [statesAt, List.getElem?_eq_getElem hlt]
    exact List.length_pos_of_ne_nil (hpos _ (List.getElem_mem hlt))
  rw [Counter.ofScope, Outcome.mapM_ok fun v hv => dims_ofTables (hvs v hv)]
  refine (Counter.states?_eq (Counter.radices_zero.symm ▸ hradices)).trans ?_
  rw [Counter.radices_zero, word, if_pos hcounted]

/-- A further table counts for its variable. -/
theorem setPotential_ofTables (ps : List Conditional) (hfits : p.Fits ds) (hpos : ∀ d ∈ ds, d.states ≠ []) :
    (ofTables ds ps).setPotential p.child p.parents p.data.toArray =
      .ok (ofTables ds (ps ++ [p])) := by
  have hmem : ∀ v ∈ p.parents ++ [p.child], v < ds.length := by
    intro v hv
    rcases List.mem_append.1 hv with hv | hv
    · exact hfits.parents v hv
    · exact List.mem_singleton.1 hv ▸ hfits.child
  have hcount := states?_ofTables ps hpos hmem (hfits.length ▸ hfits.counted)
  have hnodes : (ofTables ds ps).nodes.modify p.child
      (fun n => { n with parents := p.parents, table := p.data.toArray }) =
        (ofTables ds (ps ++ [p])).nodes := by
    refine Array.ext_getElem? fun v => ?_
    rw [Array.getElem?_modify, getElem?_ofTables, getElem?_ofTables]
    by_cases hv : p.child = v
    · rw [if_pos hv, Option.map_map]
      congr 1
      funext d
      rw [nodeOf_concat, if_pos hv, Function.comp_apply, name_nodeOf, states_nodeOf]
    · rw [if_neg hv]
      congr 1
      funext d
      rw [nodeOf_concat, if_neg hv]
  obtain ⟨c, hc, hstates⟩ := Outcome.bind_eq_ok_iff.1 hcount
  have hlength : (p.data.toArray.size != ((p.parents ++ [p.child]).map (statesAt ds)).prod) =
      false := by
    simpa using hfits.length
  simp only [setPotential, hc, bind, Except.bind, hstates, hlength]
  rw [hnodes]
  rfl

/-- All tables take effect. -/
theorem foldlM_applyPotential {potentials : List Potential} (file : String)
    (ps : List Conditional) (hpos : ∀ d ∈ ds, d.states ≠ [])
    (hfits : ∀ p ∈ potentials, Conditional.Fits ⟨p.child, p.parents, p.data⟩ ds) :
    potentials.foldlM (applyPotential file) (ofTables ds ps) = .ok (ofTables ds
      (ps ++ potentials.map fun p => ⟨p.child, p.parents, p.data⟩)) := by
  induction potentials generalizing ps with
  | nil => simp [pure, Except.pure]
  | cons p potentials ih =>
      rw [List.forall_mem_cons] at hfits
      have hset := setPotential_ofTables ps hfits.1 hpos
      rw [List.foldlM_cons, applyPotential, hset]
      simp only [bind, Except.bind]
      rw [ih _ hfits.2, List.map_cons, List.append_assoc]
      rfl

/-! ## Reading -/

namespace Cursor

/-- The tokens that remain. -/
def Shows (c : Cursor) (ts : List Token) : Prop := c.rest.map (·.token) = ts

theorem Shows.length (h : c.Shows ts) : c.rest.length = ts.length := by
  rw [← h, List.length_map]

theorem Shows.sees {m : Char} (h : c.Shows (t :: us)) : c.sees m = t.isMark m := by
  obtain ⟨l, rest, hrest, rfl, -⟩ := List.map_eq_cons_iff.1 h
  rw [sees, hrest]
  rfl

theorem Shows.next (h : c.Shows (t :: us)) : ∃ c', c.next = .ok (t, c') ∧ c'.Shows us := by
  obtain ⟨l, rest, hrest, rfl, hus⟩ := List.map_eq_cons_iff.1 h
  exact ⟨{ c with rest }, by rw [Cursor.next, hrest], hus⟩

theorem Shows.expectMark {m : Char} (h : c.Shows (.mark m :: us)) :
    ∃ c', c.expectMark m = .ok c' ∧ c'.Shows us := by
  obtain ⟨c', hnext, hus⟩ := h.next
  refine ⟨c', ?_, hus⟩
  rw [Cursor.expectMark, hnext]
  simp [bind, Except.bind, Token.isMark, pure, Except.pure]

theorem Shows.identifier (h : c.Shows (.identifier name :: us)) :
    ∃ c', c.identifier = .ok (name, c') ∧ c'.Shows us := by
  obtain ⟨c', hnext, hus⟩ := h.next
  exact ⟨c', by rw [Cursor.identifier, hnext]; rfl, hus⟩

variable {lastLine depth : Nat} {rest : List Lexeme}

/-- Values in parentheses are passed with the parentheses around them open. -/
theorem valueAt_values (depth : Nat) (h : Values ts leaves) (hrest : rest.map (·.token) = ts ++ us) :
    ∃ rest', rest'.map (·.token) = us ∧ valueAt file lastLine (depth + 1) rest =
      (valueAt file lastLine (depth + 1) rest').map fun read => (leaves ++ read.1, read.2) := by
  induction h generalizing depth rest us with
  | nil =>
      refine ⟨rest, hrest, ?_⟩
      cases valueAt file lastLine (depth + 1) rest <;> rfl
  | @leaf t ts leaves ht hts ih =>
      rw [List.cons_append] at hrest
      obtain ⟨l, rest, rfl, rfl, htail⟩ := List.map_eq_cons_iff.1 hrest
      obtain ⟨rest', hus, hvalue⟩ := ih depth htail
      refine ⟨rest', hus, ?_⟩
      rw [valueAt.eq_2]
      split
      · rename_i c hc
        exact absurd hc (ht c)
      · rw [if_neg (by simp), hvalue]
        cases valueAt file lastLine (depth + 1) rest' <;> rfl
  | @group inner ts leaves more hinner hts ihinner ihts =>
      rw [List.cons_append, List.append_assoc] at hrest
      obtain ⟨l, rest, rfl, hl, htail⟩ := List.map_eq_cons_iff.1 hrest
      obtain ⟨rest₁, hrest₁, hvalue⟩ := ihinner (depth + 1) htail
      obtain ⟨l', rest₂, rfl, hl', hrest₂⟩ := List.map_eq_cons_iff.1 hrest₁
      obtain ⟨rest', hus, hmore⟩ := ihts depth hrest₂
      refine ⟨rest', hus, ?_⟩
      have hopen : valueAt file lastLine (depth + 1) (l :: rest) =
          valueAt file lastLine (depth + 1 + 1) rest := by
        rw [valueAt.eq_2, hl]
        rfl
      have hclose : valueAt file lastLine (depth + 1 + 1) (l' :: rest₂) =
          valueAt file lastLine (depth + 1) rest₂ := by
        rw [valueAt.eq_2, hl']
        simp
      rw [hopen, hvalue, hclose, hmore]
      cases valueAt file lastLine (depth + 1) rest' <;> simp [Except.map]

theorem Shows.value {value : List Token} (hvalue : Value value leaves)
    (h : c.Shows (value ++ us)) : ∃ c', c.value = .ok (leaves, c') ∧ c'.Shows us := by
  unfold Cursor.value
  cases hvalue with
  | leaf ht =>
      obtain ⟨l, rest, hrest, rfl, hus⟩ := List.map_eq_cons_iff.1 h
      refine ⟨⟨c.file, rest, c.lastLine⟩, ?_, hus⟩
      rw [hrest, valueAt.eq_2]
      split
      · rename_i m hm
        exact absurd hm (ht m)
      · rfl
  | group hinner =>
      rw [List.cons_append, List.append_assoc] at h
      obtain ⟨l, rest, hrest, hl, hus⟩ := List.map_eq_cons_iff.1 h
      obtain ⟨rest₁, hrest₁, hread⟩ := valueAt_values 0 hinner hus
      obtain ⟨l', rest', rfl, hl', hus⟩ := List.map_eq_cons_iff.1 hrest₁
      refine ⟨⟨c.file, rest', c.lastLine⟩, ?_, hus⟩
      have hopen : valueAt c.file c.lastLine 0 (l :: rest) = valueAt c.file c.lastLine 1 rest := by
        rw [valueAt.eq_2, hl]
        rfl
      have hclose : valueAt c.file c.lastLine 1 (l' :: rest') =
          .ok ([], ⟨c.file, rest', c.lastLine⟩) := by
        rw [valueAt.eq_2, hl']
        rfl
      rw [hrest, hopen, hread, hclose]
      simp [Except.map]

theorem Shows.propertiesToEnd (hproperties : Properties ts properties)
    (h : c.Shows (ts ++ .mark '\x7d' :: us)) :
    ∃ c', c.propertiesToEnd = .ok (properties, c') ∧ c'.Shows us := by
  induction hproperties generalizing c with
  | nil =>
      obtain ⟨c', hmark, hus⟩ := h.expectMark
      refine ⟨c', ?_, hus⟩
      rw [Cursor.propertiesToEnd, h.sees, hmark]
      rfl
  | @cons key value leaves ts properties hvalue hts ih =>
      rw [List.cons_append, List.cons_append, List.append_assoc, List.cons_append] at h
      obtain ⟨c₁, hkey, h₁⟩ := h.identifier
      obtain ⟨c₂, hmark, h₂⟩ := h₁.expectMark
      obtain ⟨c₃, hread, h₃⟩ := h₂.value hvalue
      obtain ⟨c₄, hend, h₄⟩ := h₃.expectMark
      obtain ⟨c', hmore, hus⟩ := ih h₄
      have hshorter : c₄.rest.length < c.rest.length := by
        rw [h.length, h₄.length]
        simp only [List.length_cons, List.length_append]
        omega
      refine ⟨c', ?_, hus⟩
      rw [Cursor.propertiesToEnd, h.sees]
      simp only [Token.isMark, Bool.false_eq_true, if_false, hkey, hmark, hread, hend, hmore, bind,
        Except.bind, hshorter, dif_pos]
      rfl

theorem Shows.body {body : List Token} (hbody : Body body properties)
    (h : c.Shows (body ++ us)) : ∃ c', c.properties = .ok (properties, c') ∧ c'.Shows us := by
  obtain ⟨inner, hproperties, rfl⟩ := hbody
  rw [List.cons_append, List.append_assoc] at h
  obtain ⟨c₁, hmark, h₁⟩ := h.expectMark
  obtain ⟨c', hread, hus⟩ := h₁.propertiesToEnd hproperties
  exact ⟨c', by rw [Cursor.properties, hmark]; exact hread, hus⟩

theorem Shows.parentsToEnd {net : Network} {vs : List Variable} {names : Variable → String}
    (hfound : ∀ v ∈ vs, net.find? (names v) = some v)
    (h : c.Shows ((vs.map fun v => .identifier (names v)) ++ .mark ')' :: us)) :
    ∃ c', c.parentsToEnd net = .ok (vs, c') ∧ c'.Shows us := by
  induction vs generalizing c with
  | nil =>
      obtain ⟨c', hmark, hus⟩ := h.expectMark
      refine ⟨c', ?_, hus⟩
      rw [Cursor.parentsToEnd, h.sees, hmark]
      rfl
  | cons v vs ih =>
      rw [List.forall_mem_cons] at hfound
      obtain ⟨c₁, hname, h₁⟩ := h.identifier
      obtain ⟨c', hmore, hus⟩ := ih hfound.2 h₁
      have hshorter : c₁.rest.length < c.rest.length := by
        rw [h.length, h₁.length]
        exact Nat.lt_succ_self _
      refine ⟨c', ?_, hus⟩
      rw [Cursor.parentsToEnd, h.sees]
      simp only [Token.isMark, Bool.false_eq_true, if_false, hname, hfound.1, hmore, bind,
        Except.bind, hshorter, dif_pos]
      rfl

end Cursor

variable {net : Network} {body given rest opening : List Token} {line : Nat}
variable {potentials : List Potential}

theorem readNode_shows (hfresh : net.find? d.name = none) (hbody : Body body properties)
    (honly : Only properties "states" (d.states.map .text)) (hd : d.states ≠ [])
    (h : c.Shows (.identifier d.name :: (body ++ us))) :
    ∃ c', readNode net c = .ok (net.addVariable d.name d.states.toArray, c') ∧ c'.Shows us := by
  obtain ⟨c₁, hname, h₁⟩ := h.identifier
  obtain ⟨c', hread, hus⟩ := h₁.body hbody
  have hstates : (properties.filter (·.1 == "states")).flatMap (fun p => p.2.map stateName) =
      d.states := by
    rw [honly, List.flatMap_singleton, List.map_map]
    exact List.map_id _
  have hne : d.states.isEmpty = false := by simpa using hd
  refine ⟨c', ?_, hus⟩
  simp only [readNode, hname, hfresh, hread, hstates, hne, bind, Except.bind, Option.isSome_none,
    Bool.false_eq_true, if_false]
  rfl

theorem readData_number {xs : List Probability} : readData c (xs.map .number) = .ok xs := by
  rw [readData, Outcome.mapM_eq_ok_iff, List.forall₂_map_left_iff, List.forall₂_same]
  exact fun x _ => rfl

theorem readPotential_shows {names : Variable → String} (line : Nat)
    (hchild : net.find? (names p.child) = some p.child)
    (hparents : ∀ u ∈ p.parents, net.find? (names u) = some u) (hbody : Body body properties)
    (hgiven : Given names p.parents given)
    (honly : Only properties "data" (p.data.map .number))
    (h : c.Shows (.mark '(' :: .identifier (names p.child) ::
      (given ++ .mark ')' :: (body ++ us)))) :
    ∃ c', readPotential net line c = .ok (⟨p.child, p.parents, p.data, line⟩, c') ∧
      c'.Shows us := by
  obtain ⟨c₁, hmark, h₁⟩ := h.expectMark
  obtain ⟨c₂, hname, h₂⟩ := h₁.identifier
  have hhead : ∃ c₃, c₃.Shows (body ++ us) ∧
      ((c₂.sees '|' = false ∧ p.parents = [] ∧ c₂.expectMark ')' = .ok c₃) ∨
        (c₂.sees '|' = true ∧ ∃ t c₀, c₂.next = .ok (t, c₀) ∧
          c₀.parentsToEnd net = .ok (p.parents, c₃))) := by
    generalize p.parents = parents at hgiven hparents
    cases hgiven with
    | none =>
        obtain ⟨c₃, hend, h₃⟩ := h₂.expectMark
        exact ⟨c₃, h₃, .inl ⟨h₂.sees, rfl, hend⟩⟩
    | bar =>
        obtain ⟨c₀, hbar, h₀⟩ := h₂.next
        obtain ⟨c₃, hend, h₃⟩ := h₀.parentsToEnd hparents
        exact ⟨c₃, h₃, .inr ⟨h₂.sees, _, c₀, hbar, hend⟩⟩
  obtain ⟨c₃, h₃, hhead⟩ := hhead
  obtain ⟨c', hread, hus⟩ := h₃.body hbody
  have hdata : readData c' ((properties.filter (·.1 == "data")).flatMap (·.2)) = .ok p.data := by
    rw [honly, List.flatMap_singleton]
    exact readData_number
  refine ⟨c', ?_, hus⟩
  rcases hhead with ⟨hsees, hnil, hend⟩ | ⟨hsees, t, c₀, hbar, hend⟩
  · simp only [readPotential, hmark, hname, hchild, hsees, Bool.false_eq_true, if_false, hend,
      Except.map, hread, hdata, bind, Except.bind, hnil]
    rfl
  · simp only [readPotential, hmark, hname, hchild, hsees, if_true, hbar, hend, hread, hdata, bind,
      Except.bind]
    rfl

/-! ## Blocks -/

/-- The tables of potentials. -/
def tablesOf (potentials : List Potential) : List Conditional :=
  potentials.map fun p => ⟨p.child, p.parents, p.data⟩

/-- What a block has been read to, for the blocks that follow it. -/
theorem readBlocks_step {net' : Network} {read : List Potential} {c' : Cursor}
    (h : readBlock net potentials c = .ok (net', read, c'))
    (hshorter : c'.rest.length < c.rest.length) :
    readBlocks net potentials c = readBlocks net' read c' := by
  have hne : c.rest.isEmpty = false := by
    rw [List.isEmpty_eq_false_iff, ← List.length_pos_iff]
    omega
  rw [readBlocks, hne]
  simp only [Bool.false_eq_true, if_false, h, bind, Except.bind, hshorter, dif_pos]

theorem readBlock_net (potentials : List Potential) (hbody : Body body properties)
    (h : c.Shows (.identifier "net" :: (body ++ us))) :
    ∃ c', readBlock net potentials c = .ok (net, potentials, c') ∧ c'.Shows us := by
  obtain ⟨c₁, hname, h₁⟩ := h.identifier
  obtain ⟨c', hread, hus⟩ := h₁.body hbody
  refine ⟨c', ?_, hus⟩
  simp only [readBlock, hname, hread, bind, Except.bind]
  rfl

theorem readBlock_node (potentials : List Potential) (hopening : Announces opening)
    (hfresh : net.find? d.name = none)
    (hbody : Body body properties) (honly : Only properties "states" (d.states.map .text))
    (hd : d.states ≠ []) (h : c.Shows (opening ++ .identifier d.name :: (body ++ us))) :
    ∃ c', readBlock net potentials c =
      .ok (net.addVariable d.name d.states.toArray, potentials, c') ∧ c'.Shows us := by
  cases hopening with
  | node =>
      obtain ⟨c₁, hname, h₁⟩ := h.identifier
      obtain ⟨c', hread, hus⟩ := readNode_shows hfresh hbody honly hd h₁
      refine ⟨c', ?_, hus⟩
      simp only [readBlock, hname, hread, bind, Except.bind]
      rfl
  | discrete =>
      obtain ⟨c₁, hname, h₁⟩ := h.identifier
      obtain ⟨c₂, hnode, h₂⟩ := h₁.identifier
      obtain ⟨c', hread, hus⟩ := readNode_shows hfresh hbody honly hd h₂
      refine ⟨c', ?_, hus⟩
      simp only [readBlock, hname, hnode, hread, bind, Except.bind]
      rfl

theorem readBlock_potential {names : Variable → String} (potentials : List Potential)
    (hchild : net.find? (names p.child) = some p.child)
    (hparents : ∀ u ∈ p.parents, net.find? (names u) = some u) (hbody : Body body properties)
    (hgiven : Given names p.parents given)
    (honly : Only properties "data" (p.data.map .number))
    (h : c.Shows (.identifier "potential" :: .mark '(' :: .identifier (names p.child) ::
      (given ++ .mark ')' :: (body ++ us)))) :
    ∃ c', readBlock net potentials c =
      .ok (net, potentials ++ [⟨p.child, p.parents, p.data, c.line⟩], c') ∧ c'.Shows us := by
  obtain ⟨c₁, hname, h₁⟩ := h.identifier
  obtain ⟨c', hread, hus⟩ := readPotential_shows c.line hchild hparents hbody hgiven honly h₁
  refine ⟨c', ?_, hus⟩
  simp only [readBlock, hname, hread, bind, Except.bind]
  rfl

theorem nameAt_take (hv : v < k) : nameAt (ds.take k) v = nameAt ds v := by
  rw [nameAt, nameAt, List.getElem?_take_of_lt hv]

/-- The variables that have been declared are found by their names. -/
theorem find?_take (hnodup : (ds.map (·.name)).Nodup) (hk : k ≤ ds.length) (hv : v < k) :
    (ofTables (ds.take k) ps).find? (nameAt ds v) = some v := by
  rw [← nameAt_take hv]
  refine find?_ofTables ?_ (by rw [List.length_take, Nat.min_eq_left hk]; exact hv)
  rw [List.map_take]
  exact hnodup.sublist (List.take_sublist ..)

/-- The next variable has not been declared. -/
theorem find?_take_fresh (hnodup : (ds.map (·.name)).Nodup) (hd : ds[k]? = some d) :
    (ofTables (ds.take k) ps).find? d.name = none := by
  obtain ⟨hk, rfl⟩ := List.getElem?_eq_some_iff.1 hd
  refine find?_ofTables_fresh fun hmem => ?_
  obtain ⟨d', hd', hname⟩ := List.mem_map.1 hmem
  obtain ⟨i, hi, rfl⟩ := List.mem_iff_getElem.1 hd'
  rw [List.length_take] at hi
  have hlength : (ds.map (·.name)).length = ds.length := List.length_map ..
  have hi' : i < (ds.map (·.name)).length := by omega
  have hk' : k < (ds.map (·.name)).length := by omega
  have hsame : (ds.map (·.name))[i] = (ds.map (·.name))[k] := by
    rw [List.getElem_map, List.getElem_map, ← hname, List.getElem_take]
  have := (List.Nodup.getElem_inj_iff hnodup).1 hsame
  omega

/-- The blocks of a file declare the variables that are missing and list the tables. -/
theorem readBlocks_blocks (potentials : List Potential) (hnodup : (ds.map (·.name)).Nodup) (hstates : ∀ d ∈ ds, d.states ≠ [])
    (hblocks : Blocks ds k ps ts) (h : c.Shows ts) :
    ∃ added, readBlocks (ofTables (ds.take k) []) potentials c =
      .ok (ofTables ds [], potentials ++ added) ∧ tablesOf added = ps := by
  induction hblocks generalizing c potentials with
  | done =>
      have hend : c.rest.isEmpty = true := by
        rw [List.isEmpty_iff_length_eq_zero, h.length, List.length_nil]
      refine ⟨[], ?_, rfl⟩
      rw [readBlocks, hend, List.take_length, List.append_nil]
      rfl
  | net hbody _ ih =>
      obtain ⟨c', hread, hrest⟩ := readBlock_net potentials hbody h
      have hshorter : c'.rest.length < c.rest.length := by
        rw [h.length, hrest.length, List.length_cons, List.length_append]
        omega
      rw [readBlocks_step hread hshorter]
      exact ih _ hrest
  | @node k ps opening body rest d properties hd hopening hbody honly _ ih =>
      have hmem := List.mem_of_getElem? hd
      obtain ⟨c', hread, hrest⟩ := readBlock_node potentials hopening
        (find?_take_fresh hnodup hd) hbody honly (hstates d hmem) h
      have hshorter : c'.rest.length < c.rest.length := by
        rw [h.length, hrest.length, List.length_append, List.length_cons, List.length_append]
        omega
      have htake : ds.take (k + 1) = ds.take k ++ [d] := by
        rw [List.take_add_one, hd]
        rfl
      rw [addVariable_ofTables (hstates d hmem), ← htake] at hread
      rw [readBlocks_step hread hshorter]
      exact ih _ hrest
  | @potential k p ps given body rest properties hchild hparents hgiven hbody honly hblocks ih =>
      have hk := hblocks.le
      obtain ⟨c', hread, hrest⟩ := readBlock_potential potentials
        (find?_take hnodup hk hchild) (fun u hu => find?_take hnodup hk (hparents u hu)) hbody
        hgiven honly h
      have hshorter : c'.rest.length < c.rest.length := by
        rw [h.length, hrest.length]
        simp only [List.length_cons, List.length_append]
        omega
      obtain ⟨added, hadded, htables⟩ := ih _ hrest
      refine ⟨⟨p.child, p.parents, p.data, c.line⟩ :: added, ?_, ?_⟩
      · rw [readBlocks_step hread hshorter, hadded, List.append_assoc]
        rfl
      · rw [tablesOf, List.map_cons, ← tablesOf, htables]

/-- The reader accepts every text that describes a network, and it reads that network. -/
theorem parse_describes (D : Description) {text : String} (h : D.Describes text) (file : String) :
    parse file text = .ok D.network := by
  obtain ⟨ts, hblocks, hlayout⟩ := h
  obtain ⟨ls, hscan, hls⟩ := Token.scan_of_layout hlayout
  obtain ⟨potentials, hread, htables⟩ := readBlocks_blocks []
    (c := ⟨file, ls, (ls.getLast?.map (·.line)).getD 0⟩) D.nodup D.states_ne_nil hblocks hls
  have hfits : ∀ p ∈ potentials, Conditional.Fits ⟨p.child, p.parents, p.data⟩ D.declarations := by
    intro p hp
    exact D.fits _ (htables ▸ List.mem_map_of_mem hp)
  have happly := foldlM_applyPotential file [] D.states_ne_nil hfits
  rw [List.nil_append, ← tablesOf, htables] at happly
  have hempty : (ofTables (D.declarations.take 0) []) = empty := rfl
  rw [hempty] at hread
  simp only [parse, hscan, hread, bind, Except.bind]
  exact happly

theorem values_self (h : ∀ t ∈ leaves, ∀ c, t ≠ .mark c) : Values leaves leaves := by
  induction leaves with
  | nil => exact .nil
  | cons t leaves ih =>
      rw [List.forall_mem_cons] at h
      exact .leaf h.1 (ih h.2)

/-- A block with one property, which lists some tokens. -/
theorem body_list {key : String} (h : ∀ t ∈ leaves, ∀ c, t ≠ .mark c) :
    Body (.mark '\x7b' :: .identifier key :: .mark '=' :: .mark '(' ::
      (leaves ++ [.mark ')', .mark ';', .mark '\x7d'])) [(key, leaves)] :=
  ⟨_, .cons (.group (values_self h)) .nil, by simp⟩

/-- A fair coin. -/
def coin : Description where
  declarations := [⟨"coin", ["heads", "tails"]⟩]
  tables := [⟨0, [], [⟨0x3FE0000000000000⟩, ⟨0x3FE0000000000000⟩]⟩]
  nodup := by decide
  states_ne_nil := by decide
  fits := by
    intro p hp
    obtain rfl := List.mem_singleton.1 hp
    exact ⟨by decide, by decide, by decide, by decide⟩

/-- The pieces of a text that describes the coin. -/
def coinPieces : List (List Char × Token) :=
  [("node".toList, .identifier "node"), ("coin".toList, .identifier "coin"),
    (['\x7b'], .mark '\x7b'), ("states".toList, .identifier "states"), (['='], .mark '='),
    (['('], .mark '('), ("\"heads\"".toList, .text "heads"),
    ("\"tails\"".toList, .text "tails"), ([')'], .mark ')'), ([';'], .mark ';'),
    (['\x7d'], .mark '\x7d'), ("potential".toList, .identifier "potential"),
    (['('], .mark '('), ("coin".toList, .identifier "coin"), ([')'], .mark ')'),
    (['\x7b'], .mark '\x7b'), ("data".toList, .identifier "data"), (['='], .mark '='),
    (['('], .mark '('), ("0.5".toList, .number ⟨0x3FE0000000000000⟩),
    ("0.5".toList, .number ⟨0x3FE0000000000000⟩), ([')'], .mark ')'), ([';'], .mark ';'),
    (['\x7d'], .mark '\x7d')]

/-- A file with a comment in front of the coin. -/
theorem parse_describes_coin : parse "coin.net" ("% fair\n" ++
    "node coin \x7b states = ( \"heads\" \"tails\" ) ; \x7d " ++
    "potential ( coin ) \x7b data = ( 0.5 0.5 ) ; \x7d ") = .ok coin.network := by
  refine parse_describes coin ⟨coinPieces.map (·.2), ?_, ?_⟩ "coin.net"
  · have hstates : Body _ [("states", ["heads", "tails"].map Token.text)] := body_list (by simp)
    have hdata : Body _ [("data", [⟨0x3FE0000000000000⟩, ⟨0x3FE0000000000000⟩].map Token.number)] :=
      body_list (by simp)
    have htable : Blocks coin.declarations 1 coin.tables _ :=
      .potential (p := ⟨0, [], _⟩) (by decide) (by simp) .none hdata rfl .done
    exact .node (d := ⟨"coin", _⟩) rfl .node hstates rfl htable
  · have hgap : Token.Gap (" fair".toList.cons '%' ++ ['\n']) := .comment (by decide) .nil
    exact Token.layout_spaced (by decide +kernel) hgap

end BayesCircuit.Network
