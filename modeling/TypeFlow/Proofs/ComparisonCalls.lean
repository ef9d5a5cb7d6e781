import TypeFlow.Proofs.EqualityBranches
import TypeFlow.Proofs.HandlerStates

/-!
# Comparisons that call functions

The operands of a comparison have the types of the state before its calls, and they are narrowed in
the state after them. So a variable that one of the calls may write is forgotten on both edges
unless it is compared itself: then it gets a type back that was found before the call.
-/

namespace TypeFlow

open DeclSet NumMap Option Ty

theorem Identities.isTracked_of_mem_nonlocalVars {ids : Identities} {ds : Declarations} {v : DeclId}
    {key : Key} (hv : v ∈ ids.nonlocalVars ds key) : ids.isTracked key := by
  unfold nonlocalVars at hv
  unfold isTracked
  cases hkey : ids.get key with
  | literal | unknown => simp [hkey] at hv
  | _ => rfl

namespace Pass

/-- The type that a comparison gives to what is compared: that of an operand, narrowed by the other
one. The right operand is narrowed last. -/
def comparedType? (pass : Pass) (leftKey? rightKey? : Option Key) (l r : Ty) (same : Bool)
    (key : Key) : Option Ty :=
  let restrict := if same then narrowEq pass.table else narrowNe pass.table
  if rightKey? = some key ∧ r.isNever = false then some (restrict l r)
  else if leftKey? = some key ∧ l.isNever = false then some (restrict r l)
  else none

variable {pass : Pass} {state next : TypeState} {key : Key} {l r : Ty}

theorem get?_narrow (hkey : pass.graph.identities.isTracked key) {key? : Option Key}
    {current narrowed : Ty} (h : pass.narrow key? current narrowed state = some next) :
    next.get? key =
      if key? = some key ∧ current.isNever = false then some narrowed else state.get? key := by
  unfold narrow at h
  cases hfilter : key?.filter pass.graph.identities.isTracked with
  | none =>
    have hne : key? ≠ some key := by
      rintro rfl
      simp [hkey] at hfilter
    rw [hfilter] at h
    rw [← some.inj h, if_neg fun hand => hne hand.1]
  | some k =>
    obtain ⟨rfl, -⟩ := filter_eq_some_iff.mp hfilter
    simp only [hfilter] at h
    split_ifs at h with hcurrent hnarrowed
    · rw [← some.inj h, if_neg (by simp [hcurrent])]
    · rw [← some.inj h]
      simp [eq_comm, Bool.eq_false_iff.mpr hcurrent]

theorem get?_equalsEdge (hkey : pass.graph.identities.isTracked key)
    {leftKey? rightKey? : Option Key} {same : Bool}
    (h : pass.equalsEdge state leftKey? rightKey? l r same = some next) :
    next.get? key = (pass.comparedType? leftKey? rightKey? l r same key).or (state.get? key) := by
  obtain ⟨mid, hmid, hnext⟩ := bind_eq_some_iff.mp h
  rw [get?_narrow hkey hnext, get?_narrow hkey hmid, comparedType?]
  split_ifs <;> rfl

theorem outcomes_eq_some {states : Option TypeState × Option TypeState} {test : Ty}
    {edge : Bool → Option TypeState} (hstates : states = outcomes test edge) {outcome : Bool}
    (h : (if outcome then states.1 else states.2) = some next) : edge outcome = some next := by
  subst hstates
  cases outcome <;>
  · simp only [outcomes, Bool.false_eq_true, if_false, if_true] at h
    split_ifs at h
    exact h

end Pass

/-- A variable that a function called in a comparison may write is known on an edge only as an
operand. If it is not compared, both edges of a test forget it. Otherwise they know it with the type
that the operand had before the call. In a case of a switch this holds for calls on the right. For
calls on the left, the right operand is evaluated after them, in a state that has forgotten the
variable, so only the left operand may get an earlier type back. -/
theorem branch_forgets_uncompared (pass : Pass) (state : TypeState) (left right : Expr NodeId)
    (equal : Bool) (leftKey? rightKey? : Option Key) (replay : Replay)
    (call : NodeId × Option DeclSet) {targets : List DeclId} {f v : DeclId} {key : Key}
    (htargets : pass.callTargets? call.1 call.2 = some targets) (hf : f ∈ targets)
    (hwrites : pass.effects.mayWrite f v = true)
    (hv : v ∈ pass.graph.identities.nonlocalVars pass.program.toDeclarations key) :
    (∀ whole, call ∈ (pass.evaluatedIn state whole).calls →
      let states := ((pass.branch state
        (.equals (some whole) left right equal leftKey? rightKey?)).run replay).1
      ∀ outcome next, (if outcome then states.1 else states.2) = some next →
        next.get? key = pass.comparedType? leftKey? rightKey? (pass.typeIn state left)
          (pass.typeIn state right) (outcome == equal) key) ∧
    let mid := pass.after state (pass.evaluatedIn state left)
    let states := ((pass.branch state
      (.equals none left right equal leftKey? rightKey?)).run replay).1
    ∀ outcome next, (if outcome then states.1 else states.2) = some next →
      let compared := pass.comparedType? leftKey? rightKey? (pass.typeIn state left)
        (pass.typeIn mid right) (outcome == equal) key
      (call ∈ (pass.evaluatedIn mid right).calls → next.get? key = compared) ∧
      (call ∈ (pass.evaluatedIn state left).calls → mid.get? key = none ∧
        next.get? key = compared.or ((pass.after mid (pass.evaluatedIn mid right)).get? key)) := by
  have hkey := Identities.isTracked_of_mem_nonlocalVars hv
  have hforgets (state : TypeState) {out : Evaluated} (hcall : call ∈ out.calls) :
      (pass.after state out).get? key = none :=
    pass.after_forgets hcall htargets hf hwrites hv
  constructor
  · intro whole hcall states outcome next hnext
    have hedge := Pass.outcomes_eq_some
      (pass.branch_test_run state left right equal leftKey? rightKey? replay whole) hnext
    rw [Pass.get?_equalsEdge hkey hedge, hforgets state hcall, or_none]
  · intro mid states outcome next hnext compared
    have hedge := Pass.outcomes_eq_some
      (pass.branch_case_run state left right equal leftKey? rightKey? replay) hnext
    have hget := Pass.get?_equalsEdge hkey hedge
    refine ⟨fun hcall => ?_, fun hcall => ⟨hforgets state hcall, hget⟩⟩
    rw [hget, hforgets mid hcall, or_none]

/-- A function that resets two variables, and one that sets them and then compares the first with
the result of the reset. -/
def resetting : Source :=
  .ofItems [.ofVar "g", .ofVar "h",
    .ofBody "reset" [.set "g" .null, .set "h" .null, .ret () (some (.literal () (.number 1)))] []
      (TypeSpec.ofNames ["Number"]),
    .ofBody "f" [.set "g" (.number 1), .set "h" (.number 2),
      .branch () (.binary () .eq (.ident () "g") (.call () (.ident () "reset") []))
        ⟨(), [.ret () (some (.ident () "g"))]⟩ none]]

/-- Both variables may be written by the call. The test forgets the one that it does not compare,
and a case that calls the function first compares the other one as the call leaves it. -/
theorem branch_forgets_uncompared_resetting : ∃ a graph taken next first,
    Analyzer.ofProgram resetting.program {} = .ok a ∧ resetting.program.graph 4 = .ok graph ∧
    let pass := a.pass { vars := ofList [(1, (number 1).union null)] } graph
    let state : TypeState := ofList [(1, number 1), (2, number 2)]
    let g : Expr NodeId := .ident 25 "g"
    let reset : Expr NodeId := .call 26 (.ident 27 "reset") []
    let mid := pass.after state (pass.evaluatedIn state reset)
    (pass.effects.mayWrite 3 1 = true ∧ pass.effects.mayWrite 3 2 = true) ∧
    ((pass.branch state (.equals (some (.binary 24 .eq g reset)) g reset true (some 1) none)).run
      { record := {} }).1 = (some taken, some next) ∧
    (taken.get? 2 = none ∧ next.get? 2 = none) ∧
    ((pass.branch state (.equals none reset g true none (some 1))).run { record := {} }).1.1 =
      some first ∧
    (mid.get? 1 = none ∧ pass.typeIn mid g = (number 1).union null) ∧
    first.get? 1 = some (narrowEq pass.table (pass.typeIn state reset) (pass.typeIn mid g)) := by
  obtain ⟨a, ha, graph, hgraph, ⟨hcall, hcall'⟩, htargets, ⟨hwrites, hwrites'⟩, ⟨hv, hv'⟩, htype,
    htest, hcase⟩ : ∃ a, Analyzer.ofProgram resetting.program {} = .ok a ∧
      ∃ graph, resetting.program.graph 4 = .ok graph ∧
        let pass := a.pass { vars := ofList [(1, (number 1).union null)] } graph
        let state : TypeState := ofList [(1, number 1), (2, number 2)]
        let g : Expr NodeId := .ident 25 "g"
        let reset : Expr NodeId := .call 26 (.ident 27 "reset") []
        let test := ((pass.branch state (.equals (some (.binary 24 .eq g reset)) g reset true
          (some 1) none)).run { record := {} }).1
        ((26, some (one 3)) ∈ (pass.evaluatedIn state (.binary 24 .eq g reset)).calls ∧
          (26, some (one 3)) ∈ (pass.evaluatedIn state reset).calls) ∧
        pass.callTargets? 26 (some (one 3)) = some [3] ∧
        (pass.effects.mayWrite 3 1 = true ∧ pass.effects.mayWrite 3 2 = true) ∧
        (1 ∈ graph.identities.nonlocalVars a.program.toDeclarations 1 ∧
          2 ∈ graph.identities.nonlocalVars a.program.toDeclarations 2) ∧
        pass.typeIn (pass.after state (pass.evaluatedIn state reset)) g = (number 1).union null ∧
        (test.1.isSome ∧ test.2.isSome) ∧
        ((pass.branch state (.equals none reset g true none (some 1))).run
          { record := {} }).1.1.isSome := by decide +kernel
  obtain ⟨⟨taken, htaken⟩, next, hnext⟩ := htest.imp isSome_iff_exists.mp isSome_iff_exists.mp
  obtain ⟨first, hfirst⟩ := isSome_iff_exists.mp hcase
  let pass := a.pass { vars := ofList [(1, (number 1).union null)] } graph
  let state : TypeState := ofList [(1, number 1), (2, number 2)]
  let g : Expr NodeId := .ident 25 "g"
  let reset : Expr NodeId := .call 26 (.ident 27 "reset") []
  obtain ⟨htest, -⟩ := branch_forgets_uncompared pass state g reset true (some 1) none
    { record := {} } (26, some (one 3)) htargets List.mem_cons_self hwrites' hv'
  obtain ⟨-, hcase⟩ := branch_forgets_uncompared pass state reset g true none (some 1)
    { record := {} } (26, some (one 3)) htargets List.mem_cons_self hwrites hv
  obtain ⟨hmid, hget⟩ := (hcase true first hfirst).2 hcall'
  refine ⟨a, graph, taken, next, first, ha, hgraph,
    ⟨hwrites, hwrites'⟩, Prod.ext htaken hnext, ⟨htest _ hcall true taken htaken,
    htest _ hcall false next hnext⟩, hfirst, ⟨hmid, htype⟩, ?_⟩
  have hnever : (pass.typeIn (pass.after state (pass.evaluatedIn state reset)) g).isNever = false :=
    htype ▸ rfl
  rw [hget, Pass.comparedType?, if_pos ⟨rfl, hnever⟩]
  rfl

/-- The variable that is compared is known as one on both edges, although the call may have reset
it. -/
theorem branch_revives_compared_resetting : ∃ a graph taken next,
    Analyzer.ofProgram resetting.program {} = .ok a ∧ resetting.program.graph 4 = .ok graph ∧
    (graph.calls.get? 26).map CallSite.callees = some (.known (one 3)) ∧
    a.effects.mayWrite 3 1 = true ∧
    1 ∈ graph.identities.nonlocalVars a.program.toDeclarations 1 ∧
    (a.pass {} graph).edges 0 {} = [(2, taken), (3, next)] ∧
    taken.get? 1 = some (number 1) ∧ next.get? 1 = some (number 1) := by
  let left : TypeState := ofList [(1, number 1)]
  suffices h : ∃ a, Analyzer.ofProgram resetting.program {} = .ok a ∧
      ∃ graph, resetting.program.graph 4 = .ok graph ∧
        (graph.calls.get? 26).map CallSite.callees = some (.known (one 3)) ∧
        a.effects.mayWrite 3 1 = true ∧
        1 ∈ graph.identities.nonlocalVars a.program.toDeclarations 1 ∧
        (a.pass {} graph).edges 0 {} = [(2, left), (3, left)] ∧
        left.get? 1 = some (number 1) ∧ left.get? 1 = some (number 1) by
    obtain ⟨a, ha, graph, hgraph, h⟩ := h
    exact ⟨a, graph, left, left, ha, hgraph, h⟩
  decide +kernel

end TypeFlow
