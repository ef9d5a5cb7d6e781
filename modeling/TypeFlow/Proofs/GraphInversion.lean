import TypeFlow.Proofs.AscendingLists
import TypeFlow.Proofs.GraphComposition
import TypeFlow.Proofs.Executions

/-!
# Inverting the construction of graphs

A construction that succeeds consists of steps that succeed. What the steps find out is whether an
expression calls a function, and whether it is tracked.
-/

namespace TypeFlow

open Array Identities List Option

namespace Build

variable {α β : Type} {st st' : Building} {a : α} {x : Build α} {f : α → Build β} {r : β × Building}

/-- A sequence that succeeds consists of steps that succeed. -/
theorem bind_eq_ok : (x >>= f) st = .ok r ↔ ∃ a st', x st = .ok (a, st') ∧ f a st' = .ok r := by
  change (x st >>= fun out => f out.1 out.2) = .ok r ↔ _
  cases x st with
  | error e => simp [bind, Except.bind]
  | ok out => simp [bind, Except.bind, Prod.ext_iff]

theorem bind_inv (h : (x >>= f) st = .ok r) :
    ∃ a st', x st = .ok (a, st') ∧ f a st' = .ok r := bind_eq_ok.mp h

/-- Two ways of starting a sequence. -/
theorem ite_bind_inv {c : Prop} [Decidable c] {y : Build α}
    (h : (if c then x >>= f else y >>= f) st = .ok r) :
    ∃ a st', (if c then x else y) st = .ok (a, st') ∧ f a st' = .ok r := by
  split at h
  · next hc => simpa only [if_pos hc] using bind_inv h
  · next hc => simpa only [if_neg hc] using bind_inv h

/-- A sequence with a first step that may be left out. -/
theorem when_inv {c : Prop} [Decidable c] {x : Build Unit} {f : Unit → Build β}
    (h : (if c then x >>= f else f ()) st = .ok r) :
    ∃ st', (if c then x else pure ()) st = .ok ((), st') ∧ f () st' = .ok r := by
  split at h
  · next hc =>
    obtain ⟨⟨⟩, st', hx, h⟩ := bind_inv h
    exact ⟨st', by rwa [if_pos hc], h⟩
  · next hc => exact ⟨st, by rw [if_neg hc]; rfl, h⟩

theorem discard_inv {u : PUnit} (h : discard x st = .ok (u, st')) : ∃ a, x st = .ok (a, st') := by
  change (x >>= fun _ => pure PUnit.unit) st = _ at h
  obtain ⟨a, st₁, hx, h⟩ := bind_inv h
  cases h
  exact ⟨a, hx⟩

theorem pure_inv {b : α} (h : (pure a : Build α) st = .ok (b, st')) : b = a ∧ st' = st := by
  cases h
  exact ⟨rfl, rfl⟩

end Build

namespace Building

/-- The number of blocks. -/
def size (st : Building) : Nat := st.graph.blocks.size

/-- The identity of a node has been noted. -/
def Notes (st : Building) (node : NodeId) : Prop := (st.graph.nodeKeys.get? node).isSome

/-- Identities of some nodes have been noted at most, and none has been forgotten. -/
structure Noting (nodes : NodeId → Prop) (st st' : Building) : Prop where
  new : ∀ n, st'.Notes n → st.Notes n ∨ nodes n
  kept : ∀ n, st.Notes n → st'.Notes n

namespace Noting

variable {nodes nodes' : NodeId → Prop} {st st' st'' : Building}

theorem of_eq (h : st'.graph.nodeKeys = st.graph.nodeKeys) : Noting nodes st st' := by
  refine ⟨fun n hn => .inl ?_, fun n hn => ?_⟩
  · rwa [Notes, h] at hn
  · rwa [Notes, h]

theorem trans (h : Noting nodes st st') (h' : Noting nodes st' st'') : Noting nodes st st'' :=
  ⟨fun n hn => (h'.new n hn).elim (h.new n) .inr, fun n hn => h'.kept n (h.kept n hn)⟩

theorem mono (h : Noting nodes st st') (hnodes : ∀ n, nodes n → nodes' n) : Noting nodes' st st' :=
  { h with new := fun n hn => (h.new n hn).imp_right (hnodes n) }

theorem iff (h : Noting nodes st st') {n : NodeId} (hn : ¬ nodes n) : st'.Notes n ↔ st.Notes n :=
  ⟨fun hnoted => (h.new n hnoted).resolve_right hn, h.kept n⟩

end Noting

end Building

section

open Build

variable {st st' : Building} {e : Expr NodeId} {i : Identity} {key : Key} {node : NodeId}

theorem Graph.block_modify (g : Graph) (b c : BlockId) (f : FlowBlock → FlowBlock) :
    Graph.block { g with blocks := g.blocks.modify b f } c =
      if c = b ∧ c < g.blocks.size then f (g.block c) else g.block c := by
  simp only [Graph.block, Array.getD_eq_getD_getElem?, Array.getElem?_modify]
  split_ifs with hb hc hc
  · rw [Array.getElem?_eq_getElem hc.2]
    rfl
  · have hlt : g.blocks.size ≤ c := Nat.not_lt.mp fun h => hc ⟨hb.symm, h⟩
    simp [hlt]
  · exact absurd hc.1.symm hb
  · rfl

theorem newBlock_block {around : Surroundings} {b : BlockId}
    (h : newBlock around st = .ok (b, st')) (c : BlockId) :
    st'.graph.block c = st.graph.block c := by
  cases h
  simp only [Graph.block, getD_eq_getD_getElem?, getElem?_push]
  split
  · next hc => simp [hc, default]
  · rfl

theorem intern_inv (h : intern i st = .ok (key, st')) :
    ∃ ids, st.graph.identities.intern i = .ok (key, ids) ∧
      st' = { st with graph := { st.graph with identities := ids } } := by
  obtain ⟨s, _, hget, h⟩ := bind_inv h
  cases hget
  obtain ⟨out, st₁, hintern, h⟩ := bind_inv h
  cases hids : st.graph.identities.intern i with
  | error e =>
    rw [hids] at hintern
    cases hintern
  | ok found =>
    rw [hids] at hintern
    cases hintern
    cases h
    exact ⟨out.2, rfl, rfl⟩

theorem setNodeKey_notes (h : setNodeKey node key st = .ok ((), st')) (n : NodeId) :
    st'.Notes n ↔ n = node ∨ st.Notes n := by
  cases h
  simp only [Building.Notes, NumMap.get?_insert]
  split <;> simp [*]

/-! ### Names -/

variable {ids ids' : Identities} {α β : Type} {b : β} {work : Build α} {next : α → Build β}

/-- An identity with which nothing is wrong has its key or gets the next one. -/
theorem Identities.intern_inv (h : ids.intern i = .ok (key, ids')) :
    ids.fault? i = none ∧ (ids' = ids ∧ ids.keys[key]? = some i ∨
      ∃ hnew, key = ids.keys.size ∧ ids' = ids.add i hnew) := by
  unfold intern at h
  split at h
  · cases h
  · next hfault =>
    refine ⟨hfault, ?_⟩
    split at h
    · next hkey =>
      cases h
      exact .inl ⟨rfl, (ids.inStep i key).mp hkey⟩
    · next hnew =>
      cases h
      exact .inr ⟨hnew, rfl, rfl⟩

/-- No two keys have the same identity. -/
theorem Identities.key_unique {k : Key} (h : ids.keys[k]? = some i) (h' : ids.keys[key]? = some i) :
    k = key :=
  some.inj (((ids.inStep i k).mpr h).symm.trans ((ids.inStep i key).mpr h'))

/-- The key that an identity gets is its key. -/
theorem Identities.getElem?_of_intern (h : ids.intern i = .ok (key, ids')) :
    ids'.keys[key]? = some i := by
  obtain ⟨-, ⟨rfl, hkey⟩ | ⟨_, rfl, rfl⟩⟩ := intern_inv h
  · exact hkey
  · exact getElem?_push_size

theorem Identities.get_of_getElem? (h : ids.keys[key]? = some i) : ids.get key = i := by
  rw [get, getD_eq_getD_getElem?, h]
  rfl

theorem Identities.get_of_intern (h : ids.intern i = .ok (key, ids')) :
    ids'.get key = i := get_of_getElem? (getElem?_of_intern h)

theorem Identities.exists_memberOf_eq (ids : Identities) (base : Key) (property : String) :
    ∃ root path, ids.memberOf base property = .member root path := by
  unfold memberOf
  split <;> exact ⟨_, _, rfl⟩

variable {p : Program} {st st' : Building} {key? : Option Key}

theorem variableKey?_tracked (h : variableKey? p node st = .ok (key?, st')) :
    key?.any st'.graph.identities.isTracked = p.namesVariable node := by
  unfold variableKey? at h
  split at h
  · next hnone =>
    cases h
    rw [Bool.or_eq_true, Bool.not_eq_true'] at hnone
    simp only [any_none, Program.namesVariable]
    rcases hnone with hnone | hnone
    · simp [hnone]
    · rw [hnone, Bool.and_false]
  · next hsome =>
    obtain ⟨key, st₁, hintern, h⟩ := bind_inv h
    cases h
    obtain ⟨ids, hids, rfl⟩ := intern_inv hintern
    rw [Bool.not_eq_true, Bool.or_eq_false_iff, Bool.not_eq_false'] at hsome
    have hvariable : p.namesVariable node := by
      rw [Program.namesVariable, hsome.1, hsome.2]
      rfl
    have hfound : p.lookup node ≠ [] := by
      intro hnil
      simp [Program.namesVariable, hnil] at hvariable
    rw [hvariable, any_some, isTracked, get_of_intern hids]
    match hlookup : p.lookup node with
    | [] => exact absurd hlookup hfound
    | [d] => rfl
    | d :: e :: ds => rfl

/-- A key for which types are kept is found exactly for what is tracked. -/
theorem keyOf?_tracked : ∀ (e : Expr NodeId) {st st' : Building} {key? : Option Key},
    keyOf? p e st = .ok (key?, st') → key?.any st'.graph.identities.isTracked = p.tracks e
  | .ident id _, _, _, _, h => variableKey?_tracked h
  | .member id object property, _, st', key?, h => by
    unfold keyOf? at h
    unfold Program.tracks
    split at h
    · next hlookup =>
      rw [Bool.not_eq_true'] at hlookup
      rw [hlookup, variableKey?_tracked h]
      rfl
    · next hlookup =>
      rw [Bool.not_eq_true', Bool.not_eq_false] at hlookup
      rw [hlookup, if_pos rfl]
      obtain ⟨base?, st₁, hbase, h⟩ := bind_inv h
      rw [← keyOf?_tracked object hbase]
      cases base? with
      | none =>
        cases h
        rfl
      | some base =>
        obtain ⟨_, _, hget, h⟩ := bind_inv h
        cases hget
        simp only at h
        split at h
        · next htracked =>
          obtain ⟨key, st₂, hintern, h⟩ := bind_inv h
          cases h
          obtain ⟨ids, hids, rfl⟩ := intern_inv hintern
          obtain ⟨root, path, hmember⟩ := st₁.graph.identities.exists_memberOf_eq base property
          rw [any_some, any_some, htracked, isTracked, get_of_intern hids, hmember]
        · next htracked =>
          cases h
          rw [any_none, any_some, Bool.eq_false_iff.mpr htracked]
  | .literal _ value, _, st', key?, h => by
    obtain ⟨key, st₁, hintern, h⟩ := bind_inv h
    cases h
    obtain ⟨ids, hids, rfl⟩ := intern_inv hintern
    rw [any_some, isTracked, get_of_intern hids]
    rfl
  | .symbol .., _, _, _, h | .self _, _, _, _, h | .index .., _, _, _, h | .call .., _, _, _, h
  | .create .., _, _, _, h | .unary .., _, _, _, h | .binary .., _, _, _, h
  | .logical .., _, _, _, h | .conditional .., _, _, _, h | .array .., _, _, _, h
  | .dictionary .., _, _, _, h | .cast .., _, _, _, h | .instanceOf .., _, _, _, h
  | .has .., _, _, _, h => by
    cases h
    rfl

/-- The result of the work is known. -/
def Returns {α : Type} (a : α) (work : Build α) : Prop :=
  ∀ st b st', work st = .ok (b, st') → b = a

theorem Returns.pure (a : α) : Returns a (Pure.pure a : Build α) := fun _ _ _ h => (pure_inv h).1

theorem Returns.bind {a : α} (h : Returns a work) (hnext : Returns b (next a)) :
    Returns b (work >>= next) := by
  intro st c st'' hrun
  obtain ⟨d, st', hwork, hrun⟩ := bind_inv hrun
  exact hnext st' c st'' (h st d st' hwork ▸ hrun)

theorem Returns.after (hnext : ∀ a, Returns b (next a)) : Returns b (work >>= next) := by
  intro st c st'' hrun
  obtain ⟨d, st', -, hrun⟩ := bind_inv hrun
  exact hnext d st' c st'' hrun

mutual

theorem returns_buildExpr (p : Program) : ∀ e : Expr NodeId, Returns e.calls (buildExpr p e)
  | .literal .. | .symbol .. | .self _ => .pure _
  | .ident .. => .after fun _ => .pure _
  | .member _ object _ => (returns_buildExpr p object).bind (.after fun _ => .pure _)
  | .index _ object position =>
    (returns_buildExpr p object).bind ((returns_buildExpr p position).bind (.pure _))
  | .call id callee args => by
    have hrest : Returns true (do
        discard (buildExprs p args)
        addCall id (calleesOf p (p.lookup callee.id)) args
        return true) := .after fun _ => .after fun _ => .pure _
    cases callee with
    | member => exact .after fun _ => hrest
    | _ => exact hrest
  | .create .. => .after fun _ => .after fun _ => .pure _
  | .unary _ _ operand => returns_buildExpr p operand
  | .binary _ _ left right | .logical _ _ left right =>
    (returns_buildExpr p left).bind ((returns_buildExpr p right).bind (.pure _))
  | .conditional _ test yes no => (returns_buildExpr p test).bind
      ((returns_buildExpr p yes).bind ((returns_buildExpr p no).bind (.pure _)))
  | .array _ elements => returns_buildExprs p elements
  | .dictionary _ entries => returns_buildEntries p entries
  | .cast _ operand _ | .instanceOf _ operand _ => returns_buildExpr p operand
  | .has _ object _ => returns_buildExpr p object

theorem returns_buildExprs (p : Program) :
    ∀ es : List (Expr NodeId), Returns (callsAny es) (buildExprs p es)
  | [] => .pure _
  | e :: es => (returns_buildExpr p e).bind ((returns_buildExprs p es).bind (.pure _))

theorem returns_buildEntries (p : Program) : ∀ entries : List (Expr NodeId × Expr NodeId),
      Returns (callsAnyEntry entries) (buildEntries p entries)
  | [] => .pure _
  | (k, v) :: entries => (returns_buildExpr p k).bind
      ((returns_buildExpr p v).bind ((returns_buildEntries p entries).bind (.pure _)))

end

theorem returns_buildTarget (p : Program) (target : Expr NodeId) :
    Returns target.partsCall (buildTarget p target) := by
  cases target with
  | index _ object position =>
    exact (returns_buildExpr p object).bind ((returns_buildExpr p position).bind (.pure _))
  | member _ object _ => exact returns_buildExpr p object
  | _ => exact .pure _

end

end TypeFlow
