import TypeFlow.Analysis
import TypeFlow.Proofs.GraphInversion
import TypeFlow.Proofs.EqualityBranches

/-!
# Negated conditions

The branches of a negated condition are exchanged where the operand looks like a boolean. Such an
operand evaluates to booleans only, or to nothing at all, and its negation evaluates to the other
ones. So both ways to branch leave out the same edges, except that a test for equality or for a
class also leaves out an edge where narrowing leaves nothing of what it tests.
-/

namespace TypeFlow

open Build Graph List

namespace Ty

/-- The types without other values than booleans. -/
def booleans : List Ty := [never, bool false, bool true, boolean]

theorem ofVerdict_mem (verdict : Option Bool) : ofVerdict verdict ∈ booleans := by
  match verdict with
  | none | some true | some false => decide

variable {t : Ty}

theorem mem_of_eq_verdict (h : ∃ verdict, t = ofVerdict verdict) : t ∈ booleans :=
  h.elim fun verdict h => h ▸ ofVerdict_mem verdict

/-- What operators see of booleans are the booleans themselves, and `!` exchanges them. -/
theorem unary_not_of_mem (table : DeclTable) (h : t ∈ booleans) :
    ∃ negated, unary table .not t = negated ∧ negated ∈ booleans ∧ negated.isNever = t.isNever ∧
    negated.tags.contains .true = t.tags.contains .false ∧
    negated.tags.contains .false = t.tags.contains .true ∧
    negated.truthiness = t.truthiness.map not := by
  simp only [booleans, mem_cons, not_mem_nil, or_false] at h
  rcases h with rfl | rfl | rfl | rfl
  exacts [⟨never, rfl, by decide⟩, ⟨bool true, by cbv, by decide⟩, ⟨bool false, by cbv, by decide⟩,
    ⟨boolean, by cbv, by decide⟩]

theorem only_booleans (h : t ∈ booleans) :
    t.data = [] ∧ ∀ tag, t.tags.contains tag → tag = .false ∨ tag = .true := by
  simp only [booleans, mem_cons, not_mem_nil, or_false] at h
  rcases h with rfl | rfl | rfl | rfl <;> exact ⟨rfl, by intro tag; cases tag <;> decide⟩

theorem binary_mem {op : BinaryOp} (hop : op.isComparison) (l r : Ty) :
    binary table op l r ∈ booleans := by
  unfold binary
  split
  · exact mem_cons_self
  · exact ofVerdict_mem _

end Ty

open Ty

namespace Context

variable {ctx : Context}

/-- What looks like a boolean evaluates to booleans only. -/
theorem evalExpr_mem (env : TypeEnv) {e : Expr NodeId} (h : isBoolean e) (s : Evaluation) :
    ((ctx.evalExpr env e).run s).1 ∈ booleans := by
  have hrecorded (id : NodeId) (work : Evaluating Ty) (s : Evaluation) :
      ((recorded id work).run s).1 = (work.run s).1 := rfl
  have hbind {α : Type} (x : Evaluating α) (f : α → Evaluating Ty) (s : Evaluation) :
      ((x >>= f).run s) = (f (x.run s).1).run (x.run s).2 := rfl
  induction e using isBoolean.induct generalizing s with
  | case1 id op left right =>
    rw [evalExpr, hrecorded, hbind, hbind, binaryType_fst]
    exact binary_mem h _ _
  | case2 => exact mem_of_eq_verdict (instanceOf_eq_verdict _ _)
  | case3 => exact mem_of_eq_verdict (hasMember_eq_verdict _ _)
  | case4 => exact ofVerdict_mem _
  | case5 id operand ih =>
    obtain ⟨negated, heq, hmem, -⟩ := unary_not_of_mem ctx.table (ih h s)
    rw [evalExpr, hrecorded, hbind]
    exact heq ▸ hmem
  | case6 id b => exact ofVerdict_mem (some b)
  | case7 => simp [isBoolean] at h

end Context

/-- A boolean that may have an outcome has something left after it. -/
theorem Ty.narrowTruth_of_mem (table : DeclTable) {t : Ty} (h : t ∈ booleans)
    (hnever : t.isNever = false) {outcome : Bool} (hpossible : t.truthiness ≠ some !outcome) :
    (narrowTruth table outcome t).isNever = false := by
  obtain ⟨n, hn⟩ : ∃ n, comparisonBound table t never = n + 1 :=
    Nat.exists_eq_succ_of_ne_zero (by simp [comparisonBound])
  rw [narrowTruth, hn]
  simp only [booleans, mem_cons, not_mem_nil, or_false] at h
  rcases h with rfl | rfl | rfl | rfl <;> cases outcome
  all_goals first | exact absurd rfl hpossible | exact absurd hnever (by decide) | cbv

namespace Pass

variable (pass : Pass) (state : TypeState)

/-- The state of an outcome of a condition. -/
def edgeOf (outcome : Bool) (states : Option TypeState × Option TypeState) : Option TypeState :=
  if outcome then states.1 else states.2

/-- Narrowing leaves nothing of a value whose type is kept. -/
def Empties (key? : Option Key) (current narrowed : Ty) : Prop :=
  (key?.filter pass.graph.identities.isTracked).isSome = true ∧ current.isNever = false ∧
    narrowed.isNever = true

/-- Narrowing leaves nothing of what a condition tests in an outcome. -/
def Drops (outcome : Bool) : Condition → Prop
  | .equals _ left right equal leftKey? rightKey? =>
    let l := pass.typeIn state left
    let r := pass.typeIn state right
    let restrict := if outcome == equal then narrowEq pass.table else narrowNe pass.table
    pass.Empties leftKey? l (restrict r l) ∨ pass.Empties rightKey? r (restrict l r)
  | .instanceOf _ e classes key? =>
    let value := pass.typeIn state e
    let target := unionAll (classes.map pass.program.instanceType)
    target.isNever = false ∧ pass.Empties key? value
      (if outcome then value.meet pass.table target else pass.partsNotBelow value target)
  | _ => False

variable {pass state} {key? leftKey? rightKey? : Option Key} {outcome : Bool}

theorem narrow_isSome_iff {current narrowed : Ty} :
    (pass.narrow key? current narrowed state).isSome = true ↔
      ¬pass.Empties key? current narrowed := by
  unfold narrow Empties
  cases key?.filter pass.graph.identities.isTracked with
  | none => simp
  | some key => cases current.isNever <;> cases narrowed.isNever <;> simp

theorem equalsEdge_isSome_iff {l r : Ty} {same : Bool} :
    (pass.equalsEdge state leftKey? rightKey? l r same).isSome = true ↔
      ¬(pass.Empties leftKey? l ((if same then narrowEq pass.table else narrowNe pass.table) r l) ∨
        pass.Empties rightKey? r
          ((if same then narrowEq pass.table else narrowNe pass.table) l r)) := by
  dsimp only [equalsEdge]
  generalize (if same then narrowEq pass.table else narrowNe pass.table) = restrict
  have hleft : (pass.narrow leftKey? l (restrict r l) state).isSome = true ↔ _ := narrow_isSome_iff
  have hright (next : TypeState) :
      (pass.narrow rightKey? r (restrict l r) next).isSome = true ↔ _ := narrow_isSome_iff
  rw [not_or, ← hleft]
  cases pass.narrow leftKey? l (restrict r l) state with
  | none => simp
  | some next => simp [hright next]

theorem instanceEdge_isSome_iff {value target : Ty} :
    (pass.instanceEdge state key? value target outcome).isSome = true ↔
      ¬(target.isNever = false ∧ pass.Empties key? value
        (if outcome then value.meet pass.table target else pass.partsNotBelow value target)) := by
  unfold instanceEdge
  cases htarget : target.isNever with
  | true => simp
  | false => simp [narrow_isSome_iff]

theorem edgeOf_outcomes (test : Ty) (edge : Bool → Option TypeState) (outcome : Bool) :
    (edgeOf outcome (outcomes test edge)).isSome = true ↔
      test.truthiness ≠ some (!outcome) ∧ (edge outcome).isSome = true := by
  have hedge : edgeOf outcome (outcomes test edge) =
      if test.truthiness = some (!outcome) then none else edge outcome := by
    cases outcome <;> rfl
  rw [hedge]
  split
  · next himpossible => simp [himpossible]
  · next hpossible => simp [hpossible]

variable (pass state) (e : Expr NodeId) (key? : Option Key) (replay : Replay)

/-- The truth of a value is what it evaluates to. -/
theorem branch_truthy_run : ((pass.branch state (.truthy e key?)).run replay).1 =
    outcomes (pass.typeIn state e) fun outcome =>
      pass.narrow key? (pass.typeIn state e) (narrowTruth pass.table outcome (pass.typeIn state e))
        (pass.after state (pass.evaluatedIn state e)) := by
  obtain ⟨r, hrun⟩ := evaluate_run pass state e replay
  rw [branch, Pass.run, bind_assoc, run_bind_of_run hrun]
  rfl

/-- A test for classes compares what its operand is before it and narrows it after it. -/
theorem branch_instanceOf_run (whole : Expr NodeId) (classes : List DeclId) :
    ((pass.branch state (.instanceOf whole e classes key?)).run replay).1 =
      outcomes (pass.typeIn state whole)
        (pass.instanceEdge (pass.after state (pass.evaluatedIn state whole)) key?
          (pass.typeIn state e) (unionAll (classes.map pass.program.instanceType))) := by
  obtain ⟨r, hwhole⟩ := evaluate_run pass state whole replay
  obtain ⟨r', he⟩ := peek_run pass state e r
  rw [branch, run_bind_of_run hwhole, run_bind_of_run he]
  rfl

/-- What looks like a boolean has the type of some booleans. -/
theorem typeIn_mem {e : Expr NodeId} (h : isBoolean e) : pass.typeIn state e ∈ booleans :=
  pass.context.evalExpr_mem (pass.env state) h _

/-- The conditions for an expression that looks like a boolean have those outcomes that its type
allows, except those in which narrowing leaves nothing. -/
theorem branch_isSome_iff {p : Program} {e : Expr NodeId} {st st' : Building} {c : Condition}
    (h : conditionOf p e st = .ok (c, st')) (he : isBoolean e) (outcome : Bool) :
    (edgeOf outcome ((pass.branch state c).run replay).1).isSome = true ↔
      (pass.typeIn state e).truthiness ≠ some (!outcome) ∧ ¬pass.Drops state outcome c := by
  unfold conditionOf at h
  split at h
  · obtain ⟨leftKey?, _, -, h⟩ := bind_inv h
    obtain ⟨rightKey?, _, -, h⟩ := bind_inv h
    cases h
    rw [branch_test_run, edgeOf_outcomes, equalsEdge_isSome_iff]
    rfl
  · obtain ⟨leftKey?, _, -, h⟩ := bind_inv h
    obtain ⟨rightKey?, _, -, h⟩ := bind_inv h
    cases h
    rw [branch_test_run, edgeOf_outcomes, equalsEdge_isSome_iff]
    rfl
  · obtain ⟨key?, _, -, h⟩ := bind_inv h
    cases h
    rw [branch_instanceOf_run, edgeOf_outcomes, instanceEdge_isSome_iff]
    rfl
  · obtain ⟨key?, _, -, h⟩ := bind_inv h
    cases h
    rw [branch_truthy_run, edgeOf_outcomes, narrow_isSome_iff]
    refine and_congr_right fun hpossible => iff_of_true (fun hempties => ?_) id
    have hleft := narrowTruth_of_mem pass.table (typeIn_mem pass state he) hempties.2.1 hpossible
    cases hleft.symm.trans hempties.2.2

end Pass

/-- An expression that looks like a boolean evaluates to booleans, and its negation to the other
ones and with the same effects. So the branches of the negation are those of the expression,
exchanged, and the condition for the expression leaves out the edges that evaluating the negation
would, and those in which narrowing leaves nothing of what it tests. -/
theorem evaluate_not (ctx : Context) (env : TypeEnv) (record : Record) (id : NodeId)
    {e : Expr NodeId} (h : isBoolean e = true) :
    let out := (ctx.evaluate env record e).1
    let negated := (ctx.evaluate env record (.unary id .not e)).1
    (out.ty.data = [] ∧ ∀ tag, out.ty.tags.contains tag = true → tag = .false ∨ tag = .true) ∧
    negated.ty.isNever = out.ty.isNever ∧
    (negated.ty.data = [] ∧
      (∀ tag, negated.ty.tags.contains tag = true → tag = .false ∨ tag = .true) ∧
      negated.ty.tags.contains .true = out.ty.tags.contains .false ∧
      negated.ty.tags.contains .false = out.ty.tags.contains .true) ∧
    { negated with ty := out.ty } = out ∧
    (∀ around taken next, buildCondition around (.unary id .not e) taken next =
      buildCondition around e next taken) ∧
    (∀ p st, conditionOf p (.unary id .not e) st = .ok (.truthy (.unary id .not e) none, st)) ∧
    ∀ p st c st', conditionOf p e st = .ok (c, st') → ∀ (pass : Pass) state s outcome,
      (Pass.edgeOf outcome ((pass.branch state c).run s).1).isSome = true ↔ (Pass.edgeOf (!outcome)
          ((pass.branch state (.truthy (.unary id .not e) none)).run s).1).isSome = true ∧
        ¬pass.Drops state outcome c := by
  intro out negated
  have hout := ctx.evalExpr_mem env h { record }
  obtain ⟨t, rfl, hmem, hnever, htrue, hfalse, -⟩ := unary_not_of_mem ctx.table hout
  refine ⟨only_booleans hout, hnever,
    ⟨(only_booleans hmem).1, (only_booleans hmem).2, htrue, hfalse⟩, rfl, ?_, fun p st => rfl, ?_⟩
  · intro around taken next
    simp [buildCondition, h]
  · intro p st c st' hc pass state s outcome
    obtain ⟨t, ht, -, -, -, -, htruth⟩ := unary_not_of_mem pass.table (pass.typeIn_mem state h)
    have hnegated : pass.typeIn state (.unary id .not e) = t := ht
    have hpossible : t.truthiness ≠ some (!!outcome) ↔
        (pass.typeIn state e).truthiness ≠ some (!outcome) := by
      simp [htruth]
    rw [pass.branch_isSome_iff state s hc h, pass.branch_truthy_run, Pass.edgeOf_outcomes, hnegated,
      hpossible]
    simp [Pass.narrow]

/-- The test `!(1 < 2)` in an empty program. -/
theorem evaluate_not_less :
    let ctx : Context :=
      { program := Source.program { root := ⟨(), "", []⟩, withLibrary := false }
        config := {}, facts := {}, root := 0 }
    let e : Expr NodeId := .binary 2 .lt (.literal 3 (.number 1)) (.literal 4 (.number 2))
    let out := (ctx.evaluate (fun _ => none) {} e).1
    let negated := (ctx.evaluate (fun _ => none) {} (.unary 1 .not e)).1
    isBoolean e = true ∧ out.ty = Ty.bool true ∧ negated.ty.tags.contains .true = false ∧
      negated.ty.isNever = false := by
  intro ctx e out negated
  have hout : out.ty = Ty.bool true := by decide +kernel
  obtain ⟨-, hnever, ⟨-, -, htrue, -⟩, -⟩ :=
    evaluate_not ctx (fun _ => none) {} 1 (e := e) (by decide)
  exact ⟨by decide, hout, htrue.trans (by rw [hout]; rfl), hnever.trans (by rw [hout]; rfl)⟩

/-- A function that returns one if its parameter, which may be anything, is not equal to five, and
else two. -/
def unequal : Source :=
  let test : Expr Unit := .unary () .not (.binary () .eq (.ident () "x") (.literal () (.number 5)))
  .ofItems [ .ofBody "f" [.branch () test ⟨(), [.ret () (some (.literal () (.number 1)))]⟩ none,
      .ret () (some (.literal () (.number 2)))] [⟨(), "x", TypeSpec.ofNames ["Object"]⟩]]

/-- Whether the parameter is not equal to five is open, but the block that returns two is never
reached. -/
theorem not_same_edges_unequal : ∃ a graph state,
    Analyzer.ofProgram unequal.program {} = .ok a ∧ unequal.program.graph 1 = .ok graph ∧
    (graph.block entry).next? = some 2 ∧ (graph.block entry).taken? = some 3 ∧
    let pass := a.pass {} graph
    let e : Expr NodeId := .binary 8 .eq (.ident 9 "x") (.literal 10 (.number 5))
    pass.start.states.get? entry = some state ∧ isBoolean e = true ∧
      pass.typeIn state (.unary 7 .not e) = boolean ∧
      (pass.edges entry state).map Prod.fst = [2] ∧
      pass.propagate.toOption.map Propagation.returned = some (Ty.number 1) := by
  simp only [exists_and_left]
  decide +kernel

end TypeFlow
