import TypeFlow.Proofs.Finalizers
import TypeFlow.Proofs.Ownership

/-!
# What handlers see

Inside an attempt every call is noted as something that may throw, and with the note the handler
gets the state before the call: what the call may write is forgotten only when it has come to its
end. On the way from there, the state does not keep the type of any variable that one of the called
functions may write.
-/

namespace TypeFlow

open List

/-! ### After calls -/

theorem TypeState.get?_widenAt_none {state : TypeState} {k : Nat} (h : state.get? k = none)
    (depth j : Nat) : (state.widenAt depth j).get? k = none := by
  unfold widenAt
  split
  · next t ht =>
    have hne : k ≠ j := by
      rintro rfl
      cases h.symm.trans ht
    rw [NumMap.get?_insert, if_neg hne, h]
  · exact h

namespace Pass

section

variable (pass : Pass) {state : TypeState} {key : Key} {call : NodeId × Option DeclSet}

/-- Nothing is added to what is kept after a call. -/
theorem afterCall_get?_none (h : pass.callTargets? call.1 call.2 = some [] → state.get? key = none)
    (hkept : (state.filter fun k _ =>
      pass.survives (pass.callTargets? call.1 call.2) k).get? key = none) :
    (pass.afterCall state call).get? key = none := by
  unfold afterCall
  split
  · next hlibrary => exact h hlibrary
  · split
    · exact foldl_invariant (P := fun s : TypeState => s.get? key = none)
        (fun _ hs k _ => TypeState.get?_widenAt_none hs 0 k) hkept
    · exact hkept

/-- A call gives no types. -/
theorem afterCall_of_none (h : state.get? key = none) (call : NodeId × Option DeclSet) :
    (pass.afterCall state call).get? key = none :=
  pass.afterCall_get?_none (fun _ => h) (by simp [h])

variable {targets : List DeclId} {f v : DeclId}

/-- What a function of the program may write is forgotten when it is called. -/
theorem afterCall_forgets (htargets : pass.callTargets? call.1 call.2 = some targets)
    (hf : f ∈ targets) (hwrites : pass.effects.mayWrite f v)
    (hv : v ∈ pass.graph.identities.nonlocalVars pass.program.toDeclarations key) :
    (pass.afterCall state call).get? key = none := by
  refine pass.afterCall_get?_none (fun hlibrary => ?_) ?_
  · obtain rfl := Option.some.inj (htargets.symm.trans hlibrary)
    simp at hf
  · have hdropped : pass.survives (some targets) key = false := by
      have hany : (pass.graph.identities.nonlocalVars pass.program.toDeclarations key).any
          (pass.mayWrite (some targets)) :=
        List.any_eq_true.mpr ⟨v, hv, List.any_eq_true.mpr ⟨f, hf, hwrites⟩⟩
      simp [survives, hany]
    rw [htargets, NumMap.get?_filter, hdropped]
    cases state.get? key <;> rfl

/-- After an evaluation, the state keeps nothing that one of its calls may have written. -/
theorem after_forgets {out : Evaluated} (hcall : call ∈ out.calls)
    (htargets : pass.callTargets? call.1 call.2 = some targets) (hf : f ∈ targets)
    (hwrites : pass.effects.mayWrite f v)
    (hv : v ∈ pass.graph.identities.nonlocalVars pass.program.toDeclarations key) :
    (pass.after state out).get? key = none := by
  obtain ⟨before, later, hcalls⟩ := append_of_mem hcall
  rw [after, hcalls, foldl_append, foldl_cons]
  exact foldl_invariant (P := fun s : TypeState => s.get? key = none)
    (fun _ hs call _ => pass.afterCall_of_none hs call)
    (pass.afterCall_forgets htargets hf hwrites hv)

end

/-! ### Before what may throw -/

/-- Replays an event that is not a condition: the states that are sent, and the state after it. -/
def step (pass : Pass) (b : FlowBlock) (state : TypeState) : Event → Replaying (Edges × TypeState)
  | .read node key => do return ([], ← Replaying.ofEvaluating (pass.read state node key))
  | .write node key source => do return ([], ← pass.write state node key source)
  | .run _ e => do return ([], (← pass.run state e).2)
  | .forget key => return ([], state.erase key)
  | .mayThrow _ => return (edge b.exception? (some state), state)
  | .test .. => return ([], state)

/-- Replays events that are no conditions. -/
def steps (pass : Pass) (b : FlowBlock) : TypeState → List Event → Replaying (Edges × TypeState)
  | state, [] => return ([], state)
  | state, e :: events => do
    let (sent, state) ← pass.step b state e
    let (more, state) ← pass.steps b state events
    return (sent ++ more, state)

variable (pass : Pass)

/-- A replay goes through the first events one by one and on from there. -/
theorem replayEvents_append (b : FlowBlock) {pre : List Event}
    (hpre : ∀ e ∈ pre, e.testNode? = none) (state : TypeState) (events : List Event) :
    pass.replayEvents b state (pre ++ events) = (do
      let (sent, mid) ← pass.steps b state pre
      return sent ++ (← pass.replayEvents b mid events)) := by
  induction pre generalizing state with
  | nil => simp [steps]
  | cons e pre ih =>
    obtain ⟨he, hpre⟩ := forall_mem_cons.mp hpre
    have ih := ih hpre
    rw [cons_append]
    cases e with
    | test => cases he
    | read | write | run | forget => simp [replayEvents, steps, step, ih]
    | mayThrow => simp only [replayEvents, steps, step, ih, bind_assoc, pure_bind, append_assoc]

theorem steps_cons (b : FlowBlock) (state : TypeState) (e : Event) (events : List Event)
    (r : Replay) :
    pass.steps b state (e :: events) r =
      let first := pass.step b state e r
      let rest := pass.steps b first.1.2 events first.2
      ((first.1.1 ++ rest.1.1, rest.1.2), rest.2) := rfl

/-- The last of several steps notes that something may throw: the state then is sent to the
handler. -/
theorem steps_mayThrow {b : FlowBlock} {handler : BlockId} (hhandler : b.exception? = some handler)
    (node : NodeId) (before : List Event) (state : TypeState) (r : Replay) :
    ∃ sent mid r', pass.steps b state (before ++ [.mayThrow node]) r =
      ((sent ++ [(handler, mid)], mid), r') := by
  induction before generalizing state r with
  | nil =>
    refine ⟨[], state, r, ?_⟩
    simp only [nil_append, steps, step, hhandler]
    rfl
  | cons e before ih =>
    obtain ⟨sent, mid, r', hsteps⟩ := ih (pass.step b state e r).1.2 (pass.step b state e r).2
    refine ⟨(pass.step b state e r).1.1 ++ sent, mid, r', ?_⟩
    rw [cons_append, steps_cons]
    simp only [hsteps, append_assoc]

/-- What a block sends on when something that may throw has been noted before some event: the last
state that is sent before the event goes to the handler, and the replay goes on from this state. -/
theorem replay_mayThrow {b handler : BlockId} {before events : List Event}
    (hevents : (pass.graph.block b).events = before ++ events)
    (hhandler : (pass.graph.block b).exception? = some handler) (hnoted : Noted before)
    (htests : ∀ e ∈ before, e.testNode? = none) (state : TypeState) (r : Replay) :
    ∃ sent mid r', pass.steps (pass.graph.block b) state before r =
        ((sent ++ [(handler, mid)], mid), r') ∧
      (pass.replay b state r).1 =
        sent ++ (handler, mid) :: (pass.replayEvents (pass.graph.block b) mid events r').1 := by
  obtain ⟨first, node, rfl⟩ := hnoted
  obtain ⟨sent, mid, r', hsteps⟩ := pass.steps_mayThrow hhandler node first state r
  refine ⟨sent, mid, r', hsteps, ?_⟩
  rw [replay, hevents, replayEvents_append pass _ htests]
  change (pass.steps (pass.graph.block b) state (first ++ [.mayThrow node]) r).1.1 ++ _ = _
  rw [hsteps, append_assoc]
  rfl

end Pass

/-! ### Blocks inside attempts -/

/-- The block to which exceptions in a block of a function's graph go, when it has been made for
statements inside an attempt. -/
def Program.handlerOf? (p : Program) (root : DeclId) (b : BlockId) : Option BlockId := do
  let f ← p.function? root
  let out ← (buildFunction p f { graph := .start root }).toOption
  out.2.handlerOf.getD b none

/-- All blocks of a function's graph suit their handlers. -/
theorem Program.graph_suits {p : Program} {root : DeclId} {f : Function NodeId} {g : Graph}
    (hkind : (p.decl root).kind = .function) (hf : p.function? root = some f)
    (hg : p.graph root = .ok g) (b : BlockId) : (g.outline b).Suits (p.handlerOf? root b) := by
  obtain ⟨st, hbuild, rfl⟩ := Program.graph_inv hg
  rw [Program.building_function hkind hf] at hbuild
  have hhandler : p.handlerOf? root b = st.handlerOf.getD b none := by
    simp [handlerOf?, hf, hbuild, Except.toOption]
  rw [hhandler]
  obtain ⟨_, hclosed⟩ := closed_function (a := ⟨st.graph, False, False, _⟩)
    (opened_start rfl False.elim) False.elim hbuild
  exact hclosed.waits.suits b

/-- When a call inside an attempt throws, the handler gets the state before the call: it is the last
one that is sent before the event with the call, which is replayed from the same state. So what the
call writes before it throws is not part of what the handler sees. On the other way, after the
evaluation of an expression, nothing is kept about a variable of a module or class that one of the
functions called in it may write. -/
theorem handler_state_before (source : Source) {root : DeclId} {f : Function NodeId} {pass : Pass}
    (hf : source.program.function? root = some f)
    (hg : source.program.graph root = .ok pass.graph) :
    (∀ b handler, source.program.handlerOf? root b = some handler → ∀ before e rest,
      (pass.graph.block b).events = before ++ e :: rest → e.calls = true → ∀ state r,
      ∃ sent mid r', pass.steps (pass.graph.block b) state before r =
          ((sent ++ [(handler, mid)], mid), r') ∧
        (pass.replay b state r).1 = sent ++ (handler, mid) ::
          (pass.replayEvents (pass.graph.block b) mid (e :: rest) r').1) ∧
    ∀ (state : TypeState) (r : Replay) (e : Expr NodeId),
      let out := (pass.evaluate state e r).1
      (∀ n ∈ e.callNodes, ∃ callees?, (n, callees?) ∈ out.calls) ∧
      ∀ call ∈ out.calls, ∀ targets, pass.callTargets? call.1 call.2 = some targets →
        ∀ function ∈ targets, ∀ v, pass.effects.mayWrite function v = true →
        ∀ key, v ∈ pass.graph.identities.nonlocalVars pass.program.toDeclarations key →
          (pass.run state e r).1.2.get? key = none := by
  refine ⟨fun b handler hb before e rest hevents hcalls => ?_,
    fun state r e => ⟨fun n hn => pass.context.evaluate_calls (pass.env state) r.record hn, ?_⟩⟩
  · have hsuits := Program.graph_suits (source.program_function?_kind hf) hf hg b
    have houtline : (pass.graph.outline b).events = before ++ e :: rest := hevents
    have hnoted := hsuits.guarded (by simp [hb]) before e rest hevents hcalls
    have hhandler : (pass.graph.block b).exception? = some handler := by
      obtain ⟨first, node, rfl⟩ := id hnoted
      obtain ⟨c, hc⟩ := Option.isSome_iff_exists.mp (hsuits.throws node (by simp [houtline]))
      exact hc.trans ((hsuits.exception c hc).symm.trans hb)
    refine pass.replay_mayThrow hevents hhandler hnoted fun e' he' => hsuits.tests e' ?_
    rw [houtline, List.dropLast_append_cons]
    exact List.mem_append_left _ he'
  · intro call hcall targets htargets function hfunction v hwrites key hv
    exact pass.after_forgets hcall htargets hfunction hwrites hv

/-- A function that clears a variable, and one that sets it and then attempts to call the first. -/
def clearing : Source :=
  .ofItems [.ofVar "g", .ofBody "clear" [.set "g" .null], .ofBody "f" [.attempt ()
      ⟨(), [.set "g" (.number 1), .expr () (.call () (.ident () "clear") [])]⟩
      [⟨(), "e", none, ⟨(), [.ret () (some (.ident () "g"))]⟩⟩] none]]

/-- The variable is set before the call, and it is forgotten after it. -/
theorem handler_state_before_clearing : ∃ f a graph before e rest,
    clearing.program.function? 3 = some f ∧ Analyzer.ofProgram clearing.program {} = .ok a ∧
    clearing.program.graph 3 = .ok graph ∧ clearing.program.handlerOf? 3 4 = some 2 ∧
    (graph.block 4).events = before ++ e :: rest ∧ e.calls = true ∧
    let pass := a.pass {} graph
    (∃ sent mid r', pass.steps (graph.block 4) {} before { record := {} } =
        ((sent ++ [(2, mid)], mid), r') ∧
      (pass.replay 4 {} { record := {} }).1 = sent ++ (2, mid) ::
        (pass.replayEvents (graph.block 4) mid (e :: rest) r').1) ∧
    let state : TypeState := NumMap.ofList [(1, Ty.number 1)]
    let value : Expr NodeId := .call 15 (.ident 16 "clear") []
    ∃ call ∈ (pass.evaluate state value { record := {} }).1.calls,
      pass.callTargets? call.1 call.2 = some [2] ∧ pass.effects.mayWrite 2 1 = true ∧
      (pass.run state value { record := {} }).1.2.get? 1 = none := by
  obtain ⟨a, ha, graph, hgraph, ⟨e, he, hcalls⟩, call, hcall, htargets, hwrites, hv⟩ :
      ∃ a, Analyzer.ofProgram clearing.program {} = .ok a ∧
      ∃ graph, clearing.program.graph 3 = .ok graph ∧
        (∃ e ∈ (graph.block 4).events, e.calls = true) ∧
        ∃ call ∈ ((a.pass {} graph).evaluate (NumMap.ofList [(1, Ty.number 1)])
            (.call 15 (.ident 16 "clear") []) { record := {} }).1.calls,
          (a.pass {} graph).callTargets? call.1 call.2 = some [2] ∧
          (a.pass {} graph).effects.mayWrite 2 1 = true ∧
          1 ∈ graph.identities.nonlocalVars a.program.toDeclarations 1 := by decide +kernel
  obtain ⟨before, rest, hevents⟩ := List.append_of_mem he
  have hfunction : (clearing.program.function? 3).isSome = true := by decide +kernel
  obtain ⟨f, hf⟩ := Option.isSome_iff_exists.mp hfunction
  have hhandler : clearing.program.handlerOf? 3 4 = some 2 := by decide +kernel
  have hg : clearing.program.graph 3 = .ok (a.pass {} graph).graph := hgraph
  obtain ⟨hstate, hafter⟩ := handler_state_before clearing hf hg
  refine ⟨f, a, graph, before, e, rest, hf, ha, hg, hhandler, hevents, hcalls,
    hstate 4 2 hhandler before e rest hevents hcalls {} _, call, hcall, htargets, hwrites, ?_⟩
  exact (hafter _ _ _).2 call hcall _ htargets 2 List.mem_cons_self 1 hwrites 1 hv

/-- The handler sees what the variable was set to before the call, although the call may clear it
and then throw. -/
theorem handler_sees_overwritten_clearing : ∃ a graph state,
    Analyzer.ofProgram clearing.program {} = .ok a ∧ clearing.program.graph 3 = .ok graph ∧
    (graph.calls.get? 15).map CallSite.callees = some (.known (DeclSet.one 2)) ∧
    a.effects.mayWrite 2 1 = true ∧
    1 ∈ graph.identities.nonlocalVars a.program.toDeclarations 1 ∧
    (graph.block 4).exception? = some 2 ∧ (2, state) ∈ (a.pass {} graph).edges 4 {} ∧
    state.get? 1 = some (Ty.number 1) := by
  obtain ⟨a, ha, graph, hgraph, hcall, hwrites, hv, hhandler, ⟨_, state⟩, hedge, rfl, hstate⟩ :
      ∃ a, Analyzer.ofProgram clearing.program {} = .ok a ∧
      ∃ graph, clearing.program.graph 3 = .ok graph ∧
        (graph.calls.get? 15).map CallSite.callees = some (.known (DeclSet.one 2)) ∧
        a.effects.mayWrite 2 1 = true ∧
        1 ∈ graph.identities.nonlocalVars a.program.toDeclarations 1 ∧
        (graph.block 4).exception? = some 2 ∧ ∃ edge ∈ (a.pass {} graph).edges 4 {},
          edge.1 = 2 ∧ edge.2.get? 1 = some (Ty.number 1) := by decide +kernel
  exact ⟨a, graph, state, ha, hgraph, hcall, hwrites, hv, hhandler, hedge, hstate⟩

end TypeFlow
