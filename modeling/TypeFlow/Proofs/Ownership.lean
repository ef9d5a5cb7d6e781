import TypeFlow.Proofs.Canonicity
import TypeFlow.Proofs.Freshness

/-!
# Whose nodes are typed

An evaluation notes all calls in its expression. A run records types for the nodes that the events
of its graph are about, which are nodes of its own root. No node belongs to two roots, so the
results of different roots have no node in common.
-/

namespace TypeFlow

open Analyzer List Option

theorem NumMap.mem_keys {α : Type} {m : NumMap α} {k : Nat} : k ∈ m.keys ↔ (m.get? k).isSome := by
  rw [keys, List.mem_map, isSome_iff_exists]
  refine ⟨fun ⟨e, he, hk⟩ => ⟨e.2, mem_entries.mp (hk ▸ he)⟩, fun ⟨x, hx⟩ => ?_⟩
  exact ⟨(k, x), mem_entries.mpr hx, rfl⟩

/-! ### Evaluation -/

mutual

/-- The nodes of all calls in an expression. -/
def Expr.callNodes {ι : Type} : Expr ι → List ι
  | .literal .. | .symbol .. | .self _ | .ident .. => []
  | .member _ object _ => object.callNodes
  | .index _ object position => object.callNodes ++ position.callNodes
  | .call id callee args => callee.callNodes ++ (callNodesOfExprs args ++ [id])
  | .create id cls args => cls.callNodes ++ (callNodesOfExprs args ++ [id])
  | .unary _ _ operand => operand.callNodes
  | .binary _ _ left right | .logical _ _ left right => left.callNodes ++ right.callNodes
  | .conditional _ test yes no => test.callNodes ++ (yes.callNodes ++ no.callNodes)
  | .array _ elements => callNodesOfExprs elements
  | .dictionary _ entries => callNodesOfEntries entries
  | .cast _ operand _ => operand.callNodes
  | .instanceOf _ operand cls => operand.callNodes ++ cls.callNodes
  | .has _ object _ => object.callNodes

def callNodesOfExprs {ι : Type} : List (Expr ι) → List ι
  | [] => []
  | e :: es => e.callNodes ++ callNodesOfExprs es

def callNodesOfEntries {ι : Type} : List (Expr ι × Expr ι) → List ι
  | [] => []
  | (k, v) :: entries => k.callNodes ++ (v.callNodes ++ callNodesOfEntries entries)

end

namespace Expr

variable {ι : Type}

theorem callNodesOfExprs_eq (es : List (Expr ι)) : callNodesOfExprs es = es.flatMap callNodes := by
  induction es with
  | nil => rfl
  | cons e es ih => rw [callNodesOfExprs, ih, flatMap_cons]

theorem callNodesOfEntries_eq (entries : List (Expr ι × Expr ι)) :
    callNodesOfEntries entries = (entries.flatMap fun e => [e.1, e.2]).flatMap callNodes := by
  induction entries with
  | nil => rfl
  | cons e entries ih => simp [callNodesOfEntries, ih]

end Expr

/-- The calls in an expression are those in its parts, and the expression itself if it is one. -/
theorem Context.callNodes_eq (e : Expr NodeId) :
    e.callNodes = e.parts.flatMap Expr.callNodes ++ ownCalls e := by
  cases e <;> simp [Expr.callNodes, Expr.parts, Expr.certainParts, Expr.guardedParts, ownCalls,
    Expr.callNodesOfExprs_eq, Expr.callNodesOfEntries_eq]

namespace Context

variable (ctx : Context) (env : TypeEnv) {e : Expr NodeId}

/-- An evaluation notes all calls in its expression. -/
theorem evaluate_calls (r : Record) {n : NodeId} (hn : n ∈ e.callNodes) :
    ∃ callees?, (n, callees?) ∈ (ctx.evaluate env r e).1.calls := by
  rw [evaluate_fst]
  induction e using Expr.parts_induction with
  | h e ih =>
    rw [callNodes_eq, mem_append, mem_flatMap] at hn
    rcases hn with ⟨part, hpart, hn⟩ | hn
    · obtain ⟨callees?, hcall⟩ := ih part hpart hn
      exact ⟨callees?, leaves_of_part (m := .call n callees?) hpart hcall⟩
    · exact (gathers_parts e).called .blank n hn

end Context

/-! ### Runs -/

/-- A run gives types to nodes that the events of the graph are about. -/
theorem Pass.mentions_of_propagate {pass : Pass} {out : Propagation}
    (hout : pass.propagate = .ok out) : ∀ n ∈ out.nodeTypes.keys, pass.Mentions n := by
  have hkeeps : pass.Keeps False fun r => ∀ n ∈ r.record.nodeTypes.keys, pass.Mentions n := by
    intro r f hr hf
    cases f with
    | mark m =>
      cases m with
      | node n t =>
        intro k hk
        simp only [Replay.leave, Record.mark, Record.node] at hk
        split at hk
        · rw [NumMap.mem_keys, NumMap.get?_insert] at hk
          split at hk
          · next heq => exact heq ▸ hf.2
          · exact hr k (NumMap.mem_keys.mpr hk)
        · exact hr k hk
      | diagnose n message =>
        simp only [Replay.leave, Record.mark, Record.diagnose]
        split
        · split <;> exact hr
        · exact hr
      | _ => exact hr
    | returned | written =>
      simp only [Replay.leave]
      split <;> exact hr
  cases hskipped : pass.isSkipped with
  | true =>
    obtain rfl := Except.ok.inj ((propagate_of_skipped hskipped).symm.trans hout)
    exact fun _ hn => absurd hn not_mem_nil
  | false =>
    obtain ⟨s, hsolve, rfl⟩ := solve_of_propagate hskipped hout
    exact recorded_of_solve pass.formed_of_nothing hkeeps (fun _ h => h)
      (fun _ hn => absurd hn not_mem_nil) hsolve

/-- A run of a root gives a result, whatever the settings, the facts and the effects are. -/
def Program.Finds (p : Program) (root : DeclId) (out : Propagation) : Prop :=
  ∃ pass : Pass, pass.program = p ∧ p.graph root = .ok pass.graph ∧ pass.propagate = .ok out

namespace Program

variable {p : Program} {root : DeclId} {g : Graph}

theorem graph_root (h : p.graph root = .ok g) : g.root = root := by
  rcases p.graph_collects root with ⟨g', hg', hroot, -⟩ | ⟨⟨error, herror⟩, -⟩
  · exact Except.ok.inj (h.symm.trans hg') ▸ hroot
  · cases h.symm.trans herror

/-- A root gives types to its own nodes. -/
theorem Finds.keys_subset {out : Propagation} (h : p.Finds root out) :
    out.nodeTypes.keys ⊆ p.rootLabels root := by
  obtain ⟨pass, -, hgraph, hout⟩ := h
  rcases p.graph_collects root with ⟨g, hg, -, -, -, -, hevents⟩ | ⟨⟨error, herror⟩, -⟩
  · obtain rfl := Except.ok.inj (hgraph.symm.trans hg)
    intro n hn
    obtain ⟨b, e, he, hlabel⟩ := Pass.mentions_of_propagate hout n hn
    exact hevents b e he hlabel
  · cases hgraph.symm.trans herror

theorem schedule_nodup (p : Program) : p.schedule.Nodup := by
  refine nodup_flatMap.mpr ⟨fun kind _ => (nodup_range.filter _).filter _, ?_⟩
  have hdisjoint {kind kind' : DeclKind} (hne : kind ≠ kind') :
      (p.roots.filter fun d => (p.decl d).kind = kind).Disjoint
        (p.roots.filter fun d => (p.decl d).kind = kind') := by
    intro d hd hd'
    exact hne ((of_decide_eq_true (mem_filter.mp hd).2).symm.trans
      (of_decide_eq_true (mem_filter.mp hd').2))
  simp [hdisjoint]

end Program

namespace Analyzer

variable {p : Program} {config : Config} {a : Analyzer}

/-- The graphs of an analysis are those of the roots of the program. -/
theorem ofProgram_graphs (h : ofProgram p config = .ok a) :
    a.graphs.map Graph.root = p.schedule ∧ ∀ g ∈ a.graphs, p.graph g.root = .ok g := by
  have hall {roots : List DeclId} {graphs : List Graph} (h : roots.mapM p.graph = .ok graphs) :
      graphs.map Graph.root = roots ∧ ∀ g ∈ graphs, p.graph g.root = .ok g := by
    induction roots generalizing graphs with
    | nil =>
      cases h
      simp
    | cons root roots ih =>
      rw [mapM_cons] at h
      cases hgraph : p.graph root with
      | error e => simp [hgraph, bind, Except.bind] at h
      | ok g =>
        cases hrest : roots.mapM p.graph with
        | error e => simp [hgraph, hrest, bind, Except.bind] at h
        | ok rest =>
          simp only [hgraph, hrest] at h
          cases h
          obtain ⟨hroots, hgraphs⟩ := ih hrest
          have hroot := Program.graph_root hgraph
          exact ⟨by rw [map_cons, hroots, hroot], forall_mem_cons.mpr ⟨hroot ▸ hgraph, hgraphs⟩⟩
  unfold ofProgram at h
  cases hgraphs : p.schedule.mapM p.graph with
  | error e => simp [hgraphs, bind, Except.bind] at h
  | ok graphs =>
    simp only [hgraphs] at h
    cases h
    exact hall hgraphs

/-- Every result is that of a run of its root. -/
theorem Reached.finds (h : ofProgram p config = .ok a) {s : Progress} {history : List RootRun}
    (hs : a.Reached s history) {root : DeclId} {out : Propagation}
    (hout : s.results.get? root = some out) : p.Finds root out := by
  induction hs generalizing root out with
  | start => cases hout
  | @run s history ran rest graph result _ _ hgraph hresult ih =>
    rw [finishRun_results, NumMap.get?_insert] at hout
    split at hout
    · next heq =>
      cases hout
      have hroot : graph.root = root := heq ▸ by simpa using find?_some hgraph
      refine ⟨a.pass s.facts graph, ofProgram_program h, ?_, hresult⟩
      exact hroot ▸ (ofProgram_graphs h).2 graph (mem_of_find?_eq_some hgraph)
    · exact ih hout
  | skip _ _ _ ih => exact ih hout

end Analyzer

/-- No node is typed by two roots, so none is met twice when the results of all roots are put
together. -/
theorem typed_nodes_disjoint (source : Source) :
    (∀ root root' out out', root ≠ root' → source.program.Finds root out →
      source.program.Finds root' out' → out.nodeTypes.keys.Disjoint out'.nodeTypes.keys) ∧
    ∀ config a s history, ofProgram source.program config = .ok a → a.Reached s history →
      (((a.graphs.map Graph.root).filterMap s.results.get?).flatMap
        fun out => out.nodeTypes.entries.map Prod.fst).Nodup := by
  have hdisjoint {root root' : DeclId} {out out' : Propagation} (hne : root ≠ root')
      (h : source.program.Finds root out) (h' : source.program.Finds root' out') :
      out.nodeTypes.keys.Disjoint out'.nodeTypes.keys := fun n hn hn' =>
    source.rootLabels_disjoint hne (h.keys_subset hn) (h'.keys_subset hn')
  refine ⟨fun root root' out out' => hdisjoint, fun config a s history ha hs => ?_⟩
  refine List.nodup_flatMap.mpr ⟨fun out _ => ?_, ?_⟩
  · exact List.pairwise_map.mpr (out.nodeTypes.ascending.imp Nat.ne_of_lt)
  · rw [(ofProgram_graphs ha).1, List.pairwise_filterMap]
    refine source.program.schedule_nodup.imp fun hne out hout out' hout' => ?_
    exact hdisjoint hne (hs.finds ha hout) (hs.finds ha hout')

/-- The module and its first function both give types to nodes, and the results of all roots are put
together after each of them has run. -/
theorem typed_nodes_disjoint_growingVar :
    (∃ out out', growingVar.program.Finds 0 out ∧ growingVar.program.Finds 2 out' ∧
      out.nodeTypes.keys = [2] ∧ out'.nodeTypes.keys = [7, 9] ∧
      out.nodeTypes.keys.Disjoint out'.nodeTypes.keys) ∧
    ∃ a s history, ofProgram growingVar.program {} = .ok a ∧ a.Reached s history ∧
      s.results.keys = [0, 2, 3] ∧
      (((a.graphs.map Graph.root).filterMap s.results.get?).flatMap
        fun out => out.nodeTypes.entries.map Prod.fst).Nodup := by
  obtain ⟨hdisjoint, hnodup⟩ := typed_nodes_disjoint growingVar
  constructor
  · obtain ⟨g, hg, out, hout, hkeys⟩ : ∃ g, growingVar.program.graph 0 = .ok g ∧
        ∃ out, Pass.propagate ⟨growingVar.program, {}, {}, {}, g⟩ = .ok out ∧
          out.nodeTypes.keys = [2] := by decide +kernel
    obtain ⟨g', hg', out', hout', hkeys'⟩ : ∃ g, growingVar.program.graph 2 = .ok g ∧
        ∃ out, Pass.propagate ⟨growingVar.program, {}, {}, {}, g⟩ = .ok out ∧
          out.nodeTypes.keys = [7, 9] := by decide +kernel
    have hfinds : growingVar.program.Finds 0 out := ⟨_, rfl, hg, hout⟩
    have hfinds' : growingVar.program.Finds 2 out' := ⟨_, rfl, hg', hout'⟩
    exact ⟨out, out', hfinds, hfinds', hkeys, hkeys',
      hdisjoint 0 2 out out' (by decide) hfinds hfinds'⟩
  · obtain ⟨a, ha, s, hs, hresults⟩ : ∃ a, ofProgram growingVar.program {} = .ok a ∧
        ∃ s, a.run = .ok s ∧ s.results.keys = [0, 2, 3] := by decide +kernel
    obtain ⟨-, history, hreached⟩ := reached_of_runWithin .start hs
    exact ⟨a, s, history, ha, hreached, hresults, hnodup {} a s history ha hreached⟩

end TypeFlow
