import TypeFlow.Proofs.Canonicity
import TypeFlow.Proofs.Worklist

/-!
# Identities with a declaration in common

A name may mean several declarations in one place and one of them in another, and then a variable
has several identities. A write sets the type of the written identity and forgets its members; it
does not reach the other identities of the variable.
-/

namespace TypeFlow

open NumMap Ty

namespace Identities

variable {ids : Identities} {k key : Key} {d : DeclId}

/-- A key names a declaration, alone or with others. -/
def Names (ids : Identities) (k : Key) (d : DeclId) : Prop :=
  ids.get k = .decl d ∨ ∃ ds, ids.get k = .set ds ∧ d ∈ ds

/-- Two keys name a declaration in common. -/
def Share (ids : Identities) (k key : Key) : Prop := ∃ d, ids.Names k d ∧ ids.Names key d

theorem Names.not_member (h : ids.Names k d) (base : Key) (path : List String) :
    ids.get k ≠ .member base path := by
  rcases h with h | ⟨ds, h, -⟩ <;> simp [h]

/-- What is written is no member, so exactly its members become obsolete. -/
theorem Names.isObsolete_iff (h : ids.Names key d) :
    ids.isObsolete k key ↔ ∃ path, ids.get k = .member key path := by
  unfold isObsolete
  cases ids.get k with
  | member base path => rcases h with h | ⟨ds, h, -⟩ <;> simp [h]
  | _ => simp

/-- What is not unknown has been given a key. -/
theorem getElem?_of_get {i : Identity} (h : ids.get k = i) (hi : i ≠ .unknown) :
    ids.keys[k]? = some i := by
  rw [get] at h
  cases hk : ids.keys[k]? with
  | none => simp [hk, hi.symm] at h
  | some j => simpa [hk] using h

/-- Different identities name a declaration in common only when one of them is a set. -/
theorem Share.exists_set (h : ids.Share k key) (hne : k ≠ key) :
    ∃ ds, .set ds ∈ ids.keys ∧ (ids.get k = .set ds ∨ ids.get key = .set ds) := by
  have hmem {k : Key} {ds : DeclSet} (h : ids.get k = .set ds) : .set ds ∈ ids.keys :=
    Array.mem_of_getElem? (getElem?_of_get h (by simp))
  obtain ⟨d, hk | ⟨ds, hk, -⟩, hkey | ⟨es, hkey, -⟩⟩ := h
  · exact absurd (key_unique (getElem?_of_get hk (by simp)) (getElem?_of_get hkey (by simp))) hne
  · exact ⟨es, hmem hkey, .inr hkey⟩
  · exact ⟨ds, hmem hk, .inl hk⟩
  · exact ⟨ds, hmem hk, .inl hk⟩

end Identities

namespace Pass

/-- A written type has reached an identity: what is still known about the identity allows for it,
and nothing is known about members of the identity. -/
def Reached (pass : Pass) (t : Ty) (state : TypeState) (k : Key) : Prop :=
  (∀ u, state.get? k = some u → t.subtype pass.table u) ∧
    ∀ m path, pass.graph.identities.get m = .member k path → state.get? m = none

/-- The state after a write to something other than the result, by its entries. -/
theorem get?_write (pass : Pass) {key : Key} (hkey : key ≠ Graph.resultKey) (state : TypeState)
    (node : NodeId) (source : Written) (r : Replay) (k : Key) :
    let value := (pass.writtenType state node source).run r
    ((pass.write state node key source).run r).1.get? k =
      if k = key then some ((pass.keptType node key source value.1.1).run value.2).1
      else if pass.graph.identities.isObsolete k key then none else value.1.2.get? k := by
  intro value
  have hwrite : ((pass.write state node key source).run r).1 =
      let kept := value.1.2.filter fun k _ => !pass.graph.identities.isObsolete k key
      if key = Graph.resultKey then kept
      else kept.insert key ((pass.keptType node key source value.1.1).run value.2).1 := rfl
  rw [hwrite]
  simp only [if_neg hkey, get?_insert, get?_filter]
  cases pass.graph.identities.isObsolete k key <;> cases value.1.2.get? k <;> rfl

end Pass

/-- A write to a variable sets the type of the written identity and forgets its members, and leaves
all else as the evaluation of the written value does. So the written type has reached another
identity of the variable only if it had done so before. There is another one only because one of the
two stands for several declarations, which a name of the root means. -/
theorem write_reaches_written {p : Program} {root : DeclId} (pass : Pass)
    (hgraph : p.graph root = .ok pass.graph) {key : Key} {d : DeclId}
    (hkey : pass.graph.identities.Names key d) (state : TypeState) (node : NodeId)
    (source : Written) (r : Replay) :
    let ids := pass.graph.identities
    let value := (pass.writtenType state node source).run r
    let t := ((pass.keptType node key source value.1.1).run value.2).1
    let after := ((pass.write state node key source).run r).1
    after.get? key = some t ∧ (∀ m path, ids.get m = .member key path → after.get? m = none) ∧
      (∀ k, k ≠ key → (∀ path, ids.get k ≠ .member key path) → after.get? k = value.1.2.get? k) ∧
      ∀ k, k ≠ key → ids.Share k key → (pass.Reached t after k ↔ pass.Reached t value.1.2 k) ∧
          ∃ ds, (ids.get k = .set ds ∨ ids.get key = .set ds) ∧ 2 ≤ ds.size ∧
            ∃ name ∈ p.rootLabels root, ds = DeclSet.ofList (p.lookup name) := by
  intro ids value t after
  have hkey : ids.Names key d := hkey
  rcases p.graph_collects root with
    ⟨g, hg, -, hcanonical, hresult, hsets, -⟩ | ⟨⟨error, herror⟩, -⟩
  swap
  · simp [hgraph] at herror
  obtain rfl : g = pass.graph := Except.ok.inj (hg.symm.trans hgraph)
  have hne : key ≠ Graph.resultKey := by
    rintro rfl
    rcases hkey with h | ⟨ds, h, -⟩ <;> cases h.symm.trans hresult
  have hafter (k : Key) : after.get? k =
      if k = key then some t else if ids.isObsolete k key then none else value.1.2.get? k :=
    pass.get?_write hne state node source r k
  have hmember (m : Key) (path : List String) (hm : ids.get m = .member key path) :
      after.get? m = none := by
    have hmkey : m ≠ key := fun h => hkey.not_member key path (h ▸ hm)
    simp [hafter, hmkey, hkey.isObsolete_iff.mpr ⟨path, hm⟩]
  have helse (k : Key) (hk : k ≠ key) (hpath : ∀ path, ids.get k ≠ .member key path) :
      after.get? k = value.1.2.get? k := by
    have hobsolete : ¬ids.isObsolete k key := fun h => (hkey.isObsolete_iff.mp h).elim hpath
    simp [hafter, hk, hobsolete]
  refine ⟨by simp [hafter], hmember, helse, fun k hk hshare => ⟨?_, ?_⟩⟩
  · obtain ⟨e, hke, -⟩ := hshare
    refine and_congr (by rw [helse k hk (hke.not_member key)]) (forall₃_congr fun m path hm => ?_)
    have hm : ids.get m = .member k path := hm
    rw [helse m (fun h => hkey.not_member k path (h ▸ hm)) fun path' => by simp [hm, hk]]
  · obtain ⟨ds, hmem, hds⟩ := hshare.exists_set hk
    exact ⟨ds, hds, hcanonical.set ds hmem, hsets ds hmem⟩

/-- Two modules of one name, each with a variable. A function of the first one writes its own
variable, which it names alone, and then the variable of the modules of that name. -/
def twinModules : Source :=
  .ofItems [ .module () "M" [.ofVar "x", .ofBody "f" [.set "x" (.number 5),
      .assign () (.member () (.ident () "M") "x") none (.literal () .null),
      .ret () (some (.ident () "x"))]],
    .module () "M" [.ofVar "x"]]

/-- The run of the function. -/
def twinPass (graph : Graph) : Pass :=
  { program := twinModules.program, config := {}, facts := {}, effects := {}, graph }

/-- The state after the second write, when the first one has left a type behind. -/
def twinState (graph : Graph) : TypeState :=
  (((twinPass graph).write (empty.insert 1 (number 5)) 8 2
    (.value (.literal 11 .null))).run { record := {} }).1

theorem twinModules_graph : ∃ graph, twinModules.program.graph 3 = .ok graph ∧
    graph.identities.Share 1 2 ∧ (twinState graph).get? 1 = some (number 5) ∧
    (twinState graph).get? 2 = some null ∧
    null.subtype (twinPass graph).table (number 5) = false := by
  obtain ⟨graph, hgraph, ⟨hdecl, hset⟩, hstate⟩ : ∃ graph, twinModules.program.graph 3 = .ok graph ∧
      (graph.identities.get 1 = .decl 2 ∧ graph.identities.get 2 = .set (.ofList [2, 5])) ∧
      (twinState graph).get? 1 = some (number 5) ∧ (twinState graph).get? 2 = some null ∧
      null.subtype (twinPass graph).table (number 5) = false := by decide +kernel
  exact ⟨graph, hgraph, ⟨2, .inl hdecl, .inr ⟨_, hset, by decide⟩⟩, hstate⟩

/-- What was known about the variable of the first module stays when that of both is written. -/
theorem write_reaches_written_twins : ∃ graph, twinModules.program.graph 3 = .ok graph ∧
    graph.identities.Share 1 2 ∧ (twinState graph).get? 1 = some (number 5) ∧
    ((twinPass graph).Reached null (twinState graph) 1 ↔
      (twinPass graph).Reached null (empty.insert 1 (number 5)) 1) := by
  obtain ⟨graph, hgraph, hshare, hone, htwo, -⟩ := twinModules_graph
  obtain ⟨d, -, hkey⟩ := id hshare
  obtain ⟨hkept, -, -, hothers⟩ := write_reaches_written (twinPass graph) hgraph hkey
    (empty.insert 1 (number 5)) 8 (.value (.literal 11 .null)) { record := {} }
  refine ⟨graph, hgraph, hshare, hone, ?_⟩
  rw [← Option.some.inj (hkept.symm.trans htwo)]
  exact (hothers 1 (by decide) hshare).1

/-- The variable of the first module is written, too, but its type does not allow for what is. -/
theorem not_reached_twins : ∃ graph, twinModules.program.graph 3 = .ok graph ∧
    graph.identities.Share 1 2 ∧ (twinState graph).get? 2 = some null ∧
    ¬(twinPass graph).Reached null (twinState graph) 1 := by
  obtain ⟨graph, hgraph, hshare, hone, htwo, hsub⟩ := twinModules_graph
  refine ⟨graph, hgraph, hshare, htwo, fun hreached => ?_⟩
  simp [hreached.1 _ hone] at hsub

end TypeFlow
