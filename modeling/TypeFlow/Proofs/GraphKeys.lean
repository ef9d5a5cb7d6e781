import TypeFlow.Proofs.GraphConstruction
import TypeFlow.Proofs.GraphInversion

/-!
# What the construction of a graph collects

Work on a graph only adds to it: events that are about given nodes, and identities that are
canonical. It stops only at a name that means nothing but variables and means one of them twice.
-/

namespace TypeFlow

open DeclSet Identities List

/-! ### Identities -/

/-- Different declarations make a set of their number. -/
theorem DeclSet.size_ofList {ds : List DeclId} (h : ds.Nodup) : (ofList ds).size = ds.length := by
  have hnodup := (ofList ds).ascending.imp Nat.ne_of_lt
  exact ((perm_ext_iff_of_nodup hnodup h).mpr fun _ => mem_ofList).length_eq

namespace Identities

variable {ids ids' ids'' : Identities} {i : Identity} {key : Key}

/-- Sets have at least two members, and paths of members are not empty and start at an identity
that is not a path itself. -/
structure Canonical (ids : Identities) : Prop where
  set : ∀ ds, .set ds ∈ ids.keys → 2 ≤ ds.size
  member : ∀ base path, .member base path ∈ ids.keys →
    path ≠ [] ∧ ∃ i, ids.keys[base]? = some i ∧ ∀ root rest, i ≠ .member root rest

@[simp] theorem keys_empty : empty.keys = #[] := rfl

/-- The keys of identities stay. -/
def Extends (ids ids' : Identities) : Prop :=
  ∀ (key : Key) (i : Identity), ids.keys[key]? = some i → ids'.keys[key]? = some i

theorem Extends.refl (ids : Identities) : ids.Extends ids := fun _ _ => id

/-- Identities are added step by step. -/
theorem Extends.trans (h : ids.Extends ids') (h' : ids'.Extends ids'') : ids.Extends ids'' :=
  fun key i hi => h' key i (h key i hi)

variable {base : Key}

theorem fault?_member_eq_none_iff {path : List String} : ids.fault? (.member base path) = none ↔
      path ≠ [] ∧ ∃ i, ids.keys[base]? = some i ∧ ∀ root rest, i ≠ .member root rest := by
  cases path with
  | nil => simp [fault?]
  | cons name path =>
    simp only [fault?]
    cases hbase : ids.keys[base]? with
    | none => simp
    | some i => cases i <;> simp

/-- Nothing is wrong with any of the identities. -/
theorem canonical_iff : ids.Canonical ↔ ∀ i ∈ ids.keys, ids.fault? i = none := by
  refine ⟨fun h i hi => ?_, fun h => ⟨fun ds hds => ?_, fun base path hpath => ?_⟩⟩
  · cases i with
    | set ds => exact if_neg (Nat.not_lt.mpr (h.set ds hi))
    | member base path => exact fault?_member_eq_none_iff.mpr (h.member base path hi)
    | decl | literal | result | unknown => rfl
  · by_contra hlt
    have hfault := h _ hds
    rw [fault?, if_pos (Nat.not_le.mp hlt)] at hfault
    cases hfault
  · exact fault?_member_eq_none_iff.mp (h _ hpath)

theorem Extends.fault?_eq_none (h : ids.Extends ids') (hi : ids.fault? i = none) :
    ids'.fault? i = none := by
  cases i with
  | member base path =>
    obtain ⟨hpath, i, hbase, hi⟩ := fault?_member_eq_none_iff.mp hi
    exact fault?_member_eq_none_iff.mpr ⟨hpath, i, h base i hbase, hi⟩
  | decl | set | literal | result | unknown => exact hi

/-- An identity with which nothing is wrong gets a key. -/
theorem intern_of_fault? (hids : ids.Canonical) (hi : ids.fault? i = none) :
    ∃ key ids', ids.intern i = .ok (key, ids') ∧ ids.Extends ids' ∧ ids'.Canonical ∧
      ∀ j ∈ ids'.keys, j ∈ ids.keys ∨ j = i := by
  unfold intern
  rw [hi]
  dsimp only
  split
  · next key _ => exact ⟨key, ids, rfl, .refl ids, hids, fun _ => .inl⟩
  · next hnew =>
    have hextends : ids.Extends (ids.add i hnew) := by
      intro key j hj
      have hlt := (Array.getElem?_eq_some_iff.mp hj).1
      rw [add, Array.getElem?_push_lt hlt, ← Array.getElem?_eq_getElem hlt, hj]
    refine ⟨_, _, rfl, hextends, canonical_iff.mpr fun j hj => hextends.fault?_eq_none ?_,
      fun j => Array.mem_push.mp⟩
    rcases Array.mem_push.mp hj with hj | rfl
    · exact canonical_iff.mp hids j hj
    · exact hi

/-- A member of what has a key can get one. -/
theorem fault?_memberOf (hids : ids.Canonical) (hbase : ids.keys[base]? = some i)
    (property : String) : ids.fault? (ids.memberOf base property) = none := by
  unfold memberOf
  rw [get_of_getElem? hbase]
  cases i with
  | member root path =>
    obtain ⟨-, j, hroot, hj⟩ := hids.member root path (Array.mem_of_getElem? hbase)
    exact fault?_member_eq_none_iff.mpr ⟨by simp, j, hroot, hj⟩
  | decl | set | literal | result | unknown =>
    exact fault?_member_eq_none_iff.mpr ⟨by simp, _, hbase, by simp⟩

variable {found : List DeclId}

/-- Different declarations have an identity with which nothing is wrong. -/
theorem fault?_ofDecls (ids : Identities) (h : found.Nodup) :
    ids.fault? (ofDecls found) = none := by
  cases found with
  | nil => rfl
  | cons d found =>
    cases found with
    | nil => rfl
    | cons e found =>
      refine if_neg ?_
      rw [size_ofList h]
      simp

variable {ds : DeclSet}

theorem set_of_ofDecls (h : ofDecls found = .set ds) : ds = .ofList found := by
  unfold ofDecls at h
  split at h <;> simp_all

theorem memberOf_ne_set {property : String} : ids.memberOf base property ≠ .set ds := by
  unfold memberOf
  split <;> simp

end Identities

/-! ### Work that collects -/

/-- Between two states of the construction, events about some nodes and canonical identities have
been added, of which the sets are meant by names of the nodes. -/
structure Building.Gathers (p : Program) (nodes : List NodeId) (st st' : Building) : Prop where
  root : st'.graph.root = st.graph.root
  identities : st.graph.identities.Extends st'.graph.identities
  canonical : st'.graph.identities.Canonical
  sets : ∀ ds, .set ds ∈ st'.graph.identities.keys → .set ds ∈ st.graph.identities.keys ∨
    ∃ node ∈ nodes, ds = .ofList (p.lookup node)
  events : ∀ b, ∀ e ∈ (st'.graph.block b).events, e ∈ (st.graph.block b).events ∨ e.labels ⊆ nodes

/-- A name means nothing but variables, and one of them twice. -/
def Program.Repeats (p : Program) (node : NodeId) : Prop :=
  p.namesVariable node ∧ ¬ (p.lookup node).Nodup

/-- From a state on, the work collects events about some nodes, or stops because the name of one of
them means a variable twice. -/
def CollectsFrom {α : Type} (p : Program) (nodes : List NodeId) (st : Building) (work : Build α) :
    Prop :=
  (∃ a st', work st = .ok (a, st') ∧ st.Gathers p nodes st') ∨
    (∃ error, work st = .error error) ∧ ∃ node ∈ nodes, p.Repeats node

/-- The work collects events about some nodes, whatever has been collected before. -/
def Collects {α : Type} (p : Program) (nodes : List NodeId) (work : Build α) : Prop :=
  ∀ st, st.graph.identities.Canonical → CollectsFrom p nodes st work

section

open Build

variable {α β : Type} {p : Program} {nodes : List NodeId} {work : Build α} {st st' : Building}
  {next : Condition → Build β} {f : FlowBlock → FlowBlock} {e test : Expr NodeId} {node : NodeId}

/-- What follows may rely on the result and on the state in which it starts. -/
theorem CollectsFrom.bind {next : α → Build β} (h : CollectsFrom p nodes st work)
    (hnext : ∀ a st', work st = .ok (a, st') → st'.graph.identities.Canonical →
      CollectsFrom p nodes st' (next a)) : CollectsFrom p nodes st (work >>= next) := by
  rcases h with ⟨a, st', hrun, hgathers⟩ | ⟨⟨error, hrun⟩, hrepeats⟩
  · have hbind : (work >>= next) st = next a st' := by
      simp only [Bind.bind, StateT.bind, hrun, Except.bind]
    rcases hnext a st' hrun hgathers.canonical with ⟨b, st'', hrun', hgathers'⟩ | hstops
    · refine .inl ⟨b, st'', hbind.trans hrun', hgathers'.root.trans hgathers.root,
        hgathers.identities.trans hgathers'.identities, hgathers'.canonical,
        fun ds hds => (hgathers'.sets ds hds).elim (hgathers.sets ds) .inr, fun c e he => ?_⟩
      exact (hgathers'.events c e he).elim (hgathers.events c e) .inr
    · exact .inr (hbind ▸ hstops)
  · refine .inr ⟨⟨error, ?_⟩, hrepeats⟩
    simp only [Bind.bind, StateT.bind, hrun, Except.bind]

namespace Collects

variable {next : α → Build β}

theorem of_run (h : ∀ st, ∃ a st', work st = .ok (a, st') ∧
      st'.graph.root = st.graph.root ∧ st'.graph.identities = st.graph.identities ∧
      ∀ b, ∀ e ∈ (st'.graph.block b).events, e ∈ (st.graph.block b).events ∨ e.labels ⊆ nodes) :
    Collects p nodes work := by
  intro st hcanonical
  obtain ⟨a, st', hrun, hroot, hids, hevents⟩ := h st
  exact .inl ⟨a, st', hrun, hroot, hids ▸ .refl _, hids ▸ hcanonical,
    fun _ hds => .inl (hids ▸ hds), hevents⟩

theorem pure (a : α) : Collects p nodes (Pure.pure a : Build α) :=
  of_run fun st => ⟨a, st, rfl, rfl, rfl, fun _ _ => .inl⟩

theorem get : Collects p nodes (MonadState.get : Build Building) :=
  of_run fun st => ⟨st, st, rfl, rfl, rfl, fun _ _ => .inl⟩

theorem bind (h : Collects p nodes work) (hnext : ∀ a, Collects p nodes (next a)) :
    Collects p nodes (work >>= next) :=
  fun st hcanonical => (h st hcanonical).bind fun a st' _ hcanonical' => hnext a st' hcanonical'

end Collects

theorem collects_modifyGraph {f : Graph → Graph} (hroot : ∀ g, (f g).root = g.root)
    (hids : ∀ g, (f g).identities = g.identities) (hblocks : ∀ g, (f g).blocks = g.blocks) :
    Collects p nodes (modifyGraph f) := by
  refine .of_run fun st => ⟨(), _, rfl, hroot _, hids _, fun b e he => .inl ?_⟩
  simpa only [Graph.block, hblocks] using he

theorem collects_modifyBlock (hf : ∀ x, ∀ e ∈ (f x).events, e ∈ x.events ∨ e.labels ⊆ nodes)
    (b : BlockId) : Collects p nodes (modifyBlock b f) := by
  refine .of_run fun st => ⟨(), _, rfl, rfl, rfl, fun c e he => ?_⟩
  rw [Graph.block_modify] at he
  split at he
  · exact hf _ e he
  · exact .inl he

/-- A change of a block that keeps its events. -/
theorem collects_redirect (hf : ∀ x, (f x).events = x.events) (b : BlockId) :
    Collects p nodes (modifyBlock b f) :=
  collects_modifyBlock (fun x _ he => .inl (hf x ▸ he)) b

theorem collects_emit {e : Event} (he : e.labels ⊆ nodes) : Collects p nodes (emit e) := by
  refine Collects.get.bind fun st => collects_modifyBlock (fun x e' he' => ?_) _
  rcases mem_append.mp he' with he' | he'
  · exact .inl he'
  · exact .inr (mem_singleton.mp he' ▸ he)

theorem collects_newBlock (around : Surroundings) : Collects p nodes (newBlock around) := by
  refine .of_run fun st => ⟨_, _, rfl, rfl, rfl, fun b e he => .inl ?_⟩
  rwa [newBlock_block rfl] at he

theorem collects_enter (b : BlockId) : Collects p nodes (enter b) :=
  .of_run fun _ => ⟨(), _, rfl, rfl, rfl, fun _ _ => .inl⟩

theorem collects_link (source target : BlockId) : Collects p nodes (link source target) := by
  refine collects_redirect (fun x => ?_) _
  split <;> rfl

variable (target : BlockId)

theorem collects_goto : Collects p nodes (goto target) := by
  refine Collects.get.bind fun st => ?_
  simp only
  split
  · exact (collects_redirect (by intro x; rfl) _).bind fun _ => collects_link _ _
  · exact .pure _

theorem collects_branch {condition : Condition} (h : node :: condition.labels ⊆ nodes)
    (taken next : BlockId) : Collects p nodes (branch node condition taken next) :=
  (collects_emit h).bind fun _ => Collects.get.bind fun _ =>
    (collects_redirect (by intro x; rfl) _).bind fun _ =>
      (collects_link _ _).bind fun _ => collects_link _ _

theorem collects_mayThrow (h : node ∈ nodes) : Collects p nodes (mayThrow node) := by
  refine Collects.get.bind fun st => ?_
  split
  · exact .pure _
  · exact (collects_emit (by simpa [Event.labels] using h)).bind fun _ =>
      (collects_redirect (by intro x; rfl) _).bind fun _ => collects_link _ _

theorem collects_modifyScope (f : Building → List Key) :
    Collects p nodes (modify fun s => { s with scope := f s } : Build Unit) :=
  .of_run fun _ => ⟨(), _, rfl, rfl, rfl, fun _ _ => .inl⟩

/-! ### Names -/

theorem intern_run (i : Identity) (st : Building) :
    intern i st = (st.graph.identities.intern i).map fun out =>
      (out.1, { st with graph := { st.graph with identities := out.2 } }) := by
  change Except.bind (Except.bind (st.graph.identities.intern i) fun out => .ok (out, st)) _ = _
  cases st.graph.identities.intern i <;> rfl

/-- An identity is interned, or something is wrong with it. -/
theorem intern_cases (i : Identity) (hcanonical : st.graph.identities.Canonical)
    (hset : ∀ ds, i = .set ds → ∃ node ∈ nodes, ds = .ofList (p.lookup node)) :
    (∃ key st', intern i st = .ok (key, st') ∧ st.Gathers p nodes st') ∨
      (∃ error, intern i st = .error error) ∧ st.graph.identities.fault? i ≠ none := by
  rw [intern_run]
  cases hfault : st.graph.identities.fault? i with
  | none =>
    obtain ⟨key, ids, hintern, hextends, hids, hkeys⟩ := intern_of_fault? hcanonical hfault
    rw [hintern]
    exact .inl ⟨key, _, rfl, rfl, hextends, hids,
      fun ds hds => (hkeys _ hds).imp_right fun h => hset ds h.symm, fun _ _ => .inl⟩
  | some error =>
    rw [Identities.intern, hfault]
    exact .inr ⟨⟨error, rfl⟩, by simp⟩

theorem collects_intern {i : Identity} (hi : ∀ ids : Identities, ids.fault? i = none)
    (hset : ∀ ds, i ≠ .set ds) : Collects p nodes (intern i) := fun st hcanonical =>
  .inl ((intern_cases i hcanonical fun ds h => absurd h (hset ds)).resolve_right
    fun h => h.2 (hi st.graph.identities))

theorem collects_variableKey? (hnode : node ∈ nodes) : Collects p nodes (variableKey? p node) := by
  unfold variableKey?
  simp only
  split
  · exact .pure _
  · next hsome =>
    refine .bind (fun st hcanonical => ?_) fun _ => .pure _
    have hset (ds : DeclSet) (h : ofDecls (p.lookup node) = .set ds) :
        ∃ node ∈ nodes, ds = .ofList (p.lookup node) :=
      ⟨node, hnode, set_of_ofDecls h⟩
    refine (intern_cases _ hcanonical hset).imp_right
      fun ⟨herror, hfault⟩ => ⟨herror, node, hnode, ?_⟩
    refine ⟨?_, fun hnodup => hfault (st.graph.identities.fault?_ofDecls hnodup)⟩
    rw [Bool.not_eq_true, Bool.or_eq_false_iff, Bool.not_eq_false'] at hsome
    rw [Program.namesVariable, hsome.1, hsome.2]
    rfl

theorem intern_known {i : Identity} {key : Key} (h : intern i st = .ok (key, st')) :
    ∃ i, st'.graph.identities.keys[key]? = some i := by
  obtain ⟨ids, hids, rfl⟩ := intern_inv h
  exact ⟨i, getElem?_of_intern hids⟩

/-- A key that is found names something. -/
theorem keyOf?_known {key : Key} (h : keyOf? p e st = .ok (some key, st')) :
    ∃ i, st'.graph.identities.keys[key]? = some i := by
  have hvariable {node : NodeId} (h : variableKey? p node st = .ok (some key, st')) :
      ∃ i, st'.graph.identities.keys[key]? = some i := by
    unfold variableKey? at h
    split at h
    · cases h
    · obtain ⟨_, _, hintern, h⟩ := bind_inv h
      cases h
      exact intern_known hintern
  cases e with
  | ident id name => exact hvariable h
  | member id object property =>
    unfold keyOf? at h
    split at h
    · exact hvariable h
    · obtain ⟨base?, st₁, -, h⟩ := bind_inv h
      cases base? with
      | none => cases h
      | some base =>
        obtain ⟨_, _, hget, h⟩ := bind_inv h
        simp only at h
        split at h
        · obtain ⟨_, _, hintern, h⟩ := bind_inv h
          cases h
          exact intern_known hintern
        · cases h
  | literal id value =>
    obtain ⟨_, _, hintern, h⟩ := bind_inv h
    cases h
    exact intern_known hintern
  | _ => cases h

/-- The key of a member is that of a member of something with a key. -/
theorem collects_keyOf? : ∀ {e : Expr NodeId}, e.labels ⊆ nodes → Collects p nodes (keyOf? p e)
  | .ident id _, h => collects_variableKey? (h mem_cons_self)
  | .member id object property, h => by
    obtain ⟨hid, hobject⟩ := cons_subset.mp h
    unfold keyOf?
    split
    · exact collects_variableKey? hid
    refine fun st hcanonical =>
      (collects_keyOf? hobject st hcanonical).bind fun base? st' hbase hcanonical' => ?_
    cases base? with
    | none => exact Collects.pure none st' hcanonical'
    | some base =>
      obtain ⟨i, hi⟩ := keyOf?_known hbase
      have hfault := fault?_memberOf hcanonical' hi property
      refine (Collects.get st' hcanonical').bind fun s _ hget hcanonical' => ?_
      cases hget
      simp only
      split
      · refine CollectsFrom.bind (.inl ?_) fun key st'' _ => Collects.pure (some key) st''
        refine (intern_cases _ hcanonical' fun ds h => ?_).resolve_right fun h => h.2 hfault
        exact (memberOf_ne_set h).elim
      · exact Collects.pure none _ hcanonical'
  | .literal _ value, _ =>
    (collects_intern (fun _ => rfl) (by simp [ofLiteral])).bind fun _ => .pure _
  | .symbol .., _ | .self _, _ | .index .., _ | .call .., _ | .create .., _ | .unary .., _
  | .binary .., _ | .logical .., _ | .conditional .., _ | .array .., _ | .dictionary .., _
  | .cast .., _ | .instanceOf .., _ | .has .., _ => .pure _

/-- All steps of a construction collect what they should. -/
theorem collects_constructs (p : Program) (nodes : List NodeId) :
    Constructs (fun _ _ => Collects p nodes) p nodes where
  composes _ := ⟨.pure, .get, .bind⟩
  newBlock _ := (collects_newBlock _).bind
  enter _ := collects_enter _
  goto _ := collects_goto _
  branch h _ _ := collects_branch h _ _
  emit h _ := collects_emit h
  mayThrow := collects_mayThrow
  key := collects_keyOf?
  intern _ _ := collects_intern (fun _ => rfl) (by simp)
  note := collects_modifyGraph
  scope := collects_modifyScope

end

end TypeFlow
