import TypeFlow.Proofs.Agreement
import TypeFlow.Proofs.EqualityValues

/-!
# Branches on equality

A condition that compares two values leaves out the edge of equal values if the comparison is known
to fail, or if nothing is left of a type that it narrows. Neither happens if the types have a value
in common that narrowing looks for. The comparison itself sees the literals of members of
enumerations, which changes nothing for such a value.

What an expression evaluates to does not depend on what has been recorded before, so the types that
are compared are those of the operands in the state at the condition.
-/

namespace TypeFlow

open Value

namespace Ty

variable {table : DeclTable} {a b t : Ty} {v : Value}

/-- What operators see of an operand: typedefs are expanded, and members of enumerations are
replaced by their literals. -/
def operand (table : DeclTable) (t : Ty) : Ty := (t.expand table).enumToValue

theorem truthiness_ofVerdict (verdict : Option Bool) :
    (ofVerdict verdict).truthiness = verdict := by
  match verdict with
  | none | some true | some false => decide

/-- A test for equality or inequality is as decided as the equality of its operands. -/
theorem truthiness_binary (ha : a.isNever = false) (hb : b.isNever = false) (equal : Bool) :
    (binary table (if equal then .eq else .ne) a b).truthiness =
      (equalsCheck table (a.operand table) (b.operand table)).map (· == equal) := by
  unfold binary
  simp only [ha, hb]
  cases equal <;> simp [comparison, truthiness_ofVerdict, operand, BinaryOp.isComparison]

theorem operand_wellFormed (htable : table.WellFormed) (ht : t.WellFormed) :
    (t.operand table).WellFormed := (ht.expand htable).enumToValue

/-- An operand has all kinds of the expanded type but members of enumerations, also where typedefs
in their literals are expanded in turn. -/
theorem kinds_below_operand (htable : table.WellFormed) (ht : t.WellFormed) :
    (((t.expand table).without (.single .enum)).without (.single .synonym)).Below
      ((t.operand table).expand table) := by
  have ht' := ht.expand htable
  have hrest : ((t.expand table).without (.single .enum)).WellFormed := ht'.without _
  have hoperand : (t.operand table).WellFormed := operand_wellFormed htable ht
  exact (without_synonym_below htable hrest).trans (hrest.without _) (hrest.expand htable)
    (hoperand.expand htable) ((without_enum_below ht').expand htable hrest hoperand)

end Ty

open Ty

namespace Value

variable {table : DeclTable} {v : Value} {a b t : Ty}

section

variable (htable : table.WellFormed) (hv : v.Simple)

include htable hv

/-- A value is found in an operand where it is found in the type. -/
theorem InSlot.operand (ht : t.WellFormed) (h : v.InSlot table ((t.expand table).slot v.tag)) :
    v.InSlot table (((t.operand table).expand table).slot v.tag) := by
  have ht' := ht.expand htable
  refine .of_below (fun _ => hv.isValue) ((ht'.without _).without _)
    ((operand_wellFormed htable ht).expand htable) (kinds_below_operand htable ht) ?_
  rwa [slot_without, slot_without, if_neg (by simpa using v.tag_ne_synonym),
    if_neg (by simpa using hv.tag_ne_enum)]

omit hv in
theorem isPlainObject_operand (ht : t.WellFormed) (h : (t.expand table).isPlainObject) :
    ((t.operand table).expand table).isPlainObject := by
  have ht' := ht.expand htable
  refine isPlainObject_of_below ((ht'.without _).without _)
    ((operand_wellFormed htable ht).expand htable) (kinds_below_operand htable ht) ?_
  rw [isPlainObject_iff_slot] at h ⊢
  rwa [slot_without, slot_without, if_neg (by simp), if_neg (by simp)]

theorem Simple.operand (ht : t.WellFormed) (h : v.Inhabits table t) :
    v.Inhabits table (t.operand table) := by
  rw [hv.inhabits_iff, fits_iff] at h ⊢
  exact h.imp (.operand htable hv ht) (.imp_left (isPlainObject_operand htable ht))

theorem Sought.operand (ha : a.WellFormed) (hb : b.WellFormed) (h : v.Sought table a b) :
    v.Sought table (a.operand table) (b.operand table) :=
  h.imp (.operand htable hv hb) (isPlainObject_operand htable ha)

end

end Value

/-- A computation goes on from the result and the state of its first step. -/
theorem run_bind_of_run {σ α β : Type} {m : StateM σ α} {f : α → StateM σ β} {s s' : σ} {x : α}
    (h : m.run s = (x, s')) : (m >>= f).run s = (f x).run s' := by
  rw [StateT.run_bind, h]
  rfl

theorem Context.binaryType_fst (ctx : Context) (id : NodeId) (op : BinaryOp) (l r : Ty)
    (s : Evaluation) : ((ctx.binaryType id op l r).run s).1 = binary ctx.table op l r := by
  simp only [Context.binaryType]
  cases !op.isComparison && (binary ctx.table op l r).isAny <;> split <;> rfl

namespace Pass

variable (pass : Pass) (state : TypeState) (e : Expr NodeId) {l r : Ty}

/-- What an expression evaluates to in a state. -/
def evaluatedIn : Evaluated := (pass.context.evaluate (pass.env state) {} e).1

/-- The type of an expression in a state. -/
def typeIn : Ty := (pass.evaluatedIn state e).ty

/-- An evaluation does not depend on the record. -/
theorem evaluate_fst (record : Record) :
    (pass.context.evaluate (pass.env state) record e).1 = pass.evaluatedIn state e := by
  obtain ⟨out, log, -, -, hrun, -⟩ := evaluate_log pass.formed_of_nothing pass.lacksConstants_self
    state.formed_of_nothing { visits := 0 } e
  rw [evaluatedIn, hrun, hrun]

theorem evaluate_run (r : Replay) :
    ∃ r', (pass.evaluate state e).run r = (pass.evaluatedIn state e, r') := by
  rw [← evaluate_fst pass state e r.record]
  exact ⟨_, rfl⟩

theorem peek_run (r : Replay) :
    ∃ r', (pass.peek state e).run r = (pass.evaluatedIn state e, r') := by
  rw [← evaluate_fst pass state e (.ofConfig pass.config false)]
  exact ⟨_, rfl⟩

theorem evalExpr_run (s : Evaluation) :
    ∃ s', (pass.context.evalExpr (pass.env state) e).run s = (pass.typeIn state e, s') := by
  have htracks : pass.context.Tracks False pass.facts (Ty.Formed False)
      (pass.context.evalExpr (pass.env state) e)
      ((pass.context.withFacts pass.facts { visits := 0 }).evalExpr (pass.env state) e) :=
    Context.evalExpr_tracks ⟨pass.formed_of_nothing.context, pass.lacksConstants_self,
      env_formed state.formed_of_nothing⟩ e
  obtain ⟨t, log, -, -, hrun, -⟩ := htracks
  have ht : pass.typeIn state e = t := by
    rw [typeIn, evaluatedIn, evaluate_of_run hrun]
    rfl
  exact ⟨_, by rw [hrun, ht]⟩

theorem typeIn_binary (id : NodeId) (op : BinaryOp) (left right : Expr NodeId) :
    pass.typeIn state (.binary id op left right) =
      binary pass.table op (pass.typeIn state left) (pass.typeIn state right) := by
  obtain ⟨s, hleft⟩ := evalExpr_run pass state left { record := {} }
  obtain ⟨s', hright⟩ := evalExpr_run pass state right s
  change ((Context.evalExpr pass.context (pass.env state) (.binary id op left right)).run
    { record := {} }).1 = _
  rw [Context.evalExpr, Context.recorded, StateT.run_bind, run_bind_of_run hleft,
    run_bind_of_run hright]
  exact Context.binaryType_fst ..

/-- A condition that compares two values for equality, or for inequality if `equal` is false, as
tests and the cases of switches do. The types are those of the values, of which the left one is
narrowed at a key. -/
inductive Compares (pass : Pass) (state : TypeState) (equal : Bool) (leftKey? : Option Key) :
    Ty → Ty → Condition → Prop
  | test (id : NodeId) (left right : Expr NodeId) (rightKey? : Option Key) :
      Compares pass state equal leftKey? (pass.typeIn state left) (pass.typeIn state right)
        (.equals (some (.binary id (if equal then .eq else .ne) left right)) left right equal
          leftKey? rightKey?)
  | case (left right : Expr NodeId) (rightKey? : Option Key) :
      Compares pass state equal leftKey? (pass.typeIn state left)
        (pass.typeIn (pass.after state (pass.evaluatedIn state left)) right)
        (.equals none left right equal leftKey? rightKey?)

variable {pass state}

section

variable (pass state) (left right : Expr NodeId) (equal : Bool) (leftKey? rightKey? : Option Key)
  (replay : Replay)

/-- A test compares the types that its operands have before it and narrows them after it. -/
theorem branch_test_run (whole : Expr NodeId) :
    ((pass.branch state (.equals (some whole) left right equal leftKey? rightKey?)).run replay).1 =
      outcomes (pass.typeIn state whole) fun outcome =>
        pass.equalsEdge (pass.after state (pass.evaluatedIn state whole)) leftKey? rightKey?
          (pass.typeIn state left) (pass.typeIn state right) (outcome == equal) := by
  obtain ⟨r₁, hwhole⟩ := evaluate_run pass state whole replay
  obtain ⟨r₂, hleft⟩ := peek_run pass state left r₁
  obtain ⟨r₃, hright⟩ := peek_run pass state right r₂
  rw [branch, run_bind_of_run hwhole, run_bind_of_run hleft, run_bind_of_run hright]
  rfl

/-- A case of a switch evaluates its right operand after the left one. -/
theorem branch_case_run :
    let mid := pass.after state (pass.evaluatedIn state left)
    ((pass.branch state (.equals none left right equal leftKey? rightKey?)).run replay).1 =
      outcomes (binary pass.table (if equal then .eq else .ne) (pass.typeIn state left)
        (pass.typeIn mid right)) fun outcome =>
        pass.equalsEdge (pass.after mid (pass.evaluatedIn mid right)) leftKey? rightKey?
          (pass.typeIn state left) (pass.typeIn mid right) (outcome == equal) := by
  intro mid
  obtain ⟨r₁, hleft⟩ := peek_run pass state left replay
  obtain ⟨r₂, hright⟩ := evaluate_run pass mid right r₁
  have hrun : (pass.run mid right).run r₁ =
      ((pass.typeIn mid right, pass.after mid (pass.evaluatedIn mid right)), r₂) := by
    rw [Pass.run, run_bind_of_run hright]
    rfl
  rw [branch, run_bind_of_run hleft, run_bind_of_run hrun]
  rfl

end

variable {equal : Bool} {leftKey? : Option Key} {condition : Condition}

/-- The states of the outcomes of a comparison depend on the types that are compared. -/
theorem Compares.branch_run (h : pass.Compares state equal leftKey? l r condition)
    (replay : Replay) : ∃ next rightKey?, ((pass.branch state condition).run replay).1 =
      outcomes (binary pass.table (if equal then .eq else .ne) l r) fun outcome =>
        pass.equalsEdge next leftKey? rightKey? l r (outcome == equal) := by
  cases h with
  | test id left right rightKey? =>
    have hrun := pass.branch_test_run state left right equal leftKey? rightKey? replay
      (.binary id (if equal then .eq else .ne) left right)
    rw [typeIn_binary] at hrun
    exact ⟨_, rightKey?, hrun⟩
  | case left right rightKey? =>
    exact ⟨_, rightKey?, pass.branch_case_run state left right equal leftKey? rightKey? replay⟩

/-- Nothing is left out if something is left of what is tracked. -/
theorem narrow_isSome (state : TypeState) (current : Ty) {key? : Option Key} {narrowed : Ty}
    (h : (key?.filter pass.graph.identities.isTracked).isSome → narrowed.isNever = false) :
    ∃ next, pass.narrow key? current narrowed state = some next := by
  unfold narrow
  cases hkey : key?.filter pass.graph.identities.isTracked with
  | none => exact ⟨state, rfl⟩
  | some key =>
    rw [hkey] at h
    simp only [h rfl]
    split
    · exact ⟨state, rfl⟩
    · exact ⟨_, rfl⟩

/-- The edge of equal values is there if the comparison may succeed and the types that it narrows
keep something. -/
theorem Compares.isSome_branch (h : pass.Compares state equal leftKey? l r condition)
    (replay : Replay) (hl : l.isNever = false) (hr : r.isNever = false)
    (htest : equalsCheck pass.table (l.operand pass.table) (r.operand pass.table) ≠ some false)
    (hleft : (leftKey?.filter pass.graph.identities.isTracked).isSome → (narrowEq pass.table r
      l).isNever = false) (hright : (narrowEq pass.table l r).isNever = false) :
    let states := ((pass.branch state condition).run replay).1
    (if equal then states.1 else states.2).isSome := by
  obtain ⟨next, rightKey?, hrun⟩ := h.branch_run replay
  obtain ⟨narrowed, hnarrowed⟩ := narrow_isSome next l hleft
  obtain ⟨final, hfinal⟩ : ∃ final, pass.narrow rightKey? r (narrowEq pass.table l r) narrowed =
      some final := narrow_isSome narrowed r fun _ => hright
  have hedge : pass.equalsEdge next leftKey? rightKey? l r (equal == equal) = some final := by
    simp [equalsEdge, hnarrowed, hfinal]
  have hpossible :
      (binary pass.table (if equal then .eq else .ne) l r).truthiness ≠ some !equal := by
    rw [truthiness_binary hl hr]
    cases equal <;> simp [htest]
  intro states
  have hstates : (if equal then states.1 else states.2) = some final := by
    simp only [states, hrun]
    cases equal
    · exact (if_neg hpossible).trans hedge
    · exact (if_neg hpossible).trans hedge
  rw [hstates]
  rfl

end Pass

/-- Narrowing by equality keeps every null, boolean, integer, character, string and symbol that
belongs to both types, if it looks for it. So the types are not told apart, and a condition that
compares values of the types does not leave out the edge of equal values, if the left one is looked
for as well where it is narrowed. -/
theorem narrowEq_keeps_values (source : Source) {a b : Ty} (ha : a.WellFormed) (hb : b.WellFormed)
    {v : Value} (hv : v.Simple) (hva : v.Inhabits source.program.table a)
    (hvb : v.Inhabits source.program.table b) (hsought : v.Sought source.program.table a b) :
    let table := source.program.table
    (∀ n r, narrowEq? table n a b = some r → v.Inhabits table r) ∧
    (NarrowEqEnds table (a.expand table) (b.expand table) → equalsCheck table a b ≠ some false) ∧
    ∀ (pass : Pass) state equal leftKey? condition replay, pass.program = source.program →
      pass.Compares state equal leftKey? a b condition →
      NarrowEqEnds table ((a.operand table).expand table) ((b.operand table).expand table) →
      NarrowEqEnds table a b → NarrowEqEnds table b a →
      ((leftKey?.filter pass.graph.identities.isTracked).isSome = true → v.Sought table b a) →
      let states := ((pass.branch state condition).run replay).1
      (if equal then states.1 else states.2).isSome = true := by
  intro table
  have htable := source.program_table_wellFormed
  have hexpanded := source.program_table_expanded
  refine ⟨fun n r hr => hv.narrowEq? htable hexpanded ha hb hr hva hvb hsought,
    fun hends => hv.equalsCheck_ne htable hexpanded ha hb hends hva hvb hsought, ?_⟩
  intro pass state equal leftKey? condition replay hprogram hcompares hoperands hends hends' hleft
  have hpass : pass.table = table := congrArg Program.table hprogram
  refine hcompares.isSome_branch replay hva.isNever_eq_false hvb.isNever_eq_false ?_ ?_ ?_
  · rw [hpass]
    exact hv.equalsCheck_ne htable hexpanded (operand_wellFormed htable ha)
      (operand_wellFormed htable hb) hoperands (hv.operand htable ha hva)
      (hv.operand htable hb hvb) (hsought.operand htable hv ha hb)
  · intro htracked
    rw [hpass]
    exact hv.narrowEq_isNever htable hexpanded hb ha hends' hvb hva (hleft htracked)
  · rw [hpass]
    exact hv.narrowEq_isNever htable hexpanded ha hb hends hva hvb hsought

/-- A typedef for numbers and strings. -/
def labels : Source := .ofItems [.synonym () "Label" (.ofNames ["Number", "String"])]

/-- Two variables of the program, whose reads are the nodes one and two. -/
def labelsPass : Pass :=
  { program := labels.program
    config := {}
    facts := {}
    effects := {}
    graph :=
      { root := 0
        blocks := #[]
        identities := .add (.add (.add .empty .unknown rfl) (.decl 2) rfl) (.decl 3) rfl
        nodeKeys := .ofList [(1, 1), (2, 2)]
        calls := {}
        params := []
        nonlocals := [] } }

/-- The test whether the variables are equal. -/
def labelsTest : Condition :=
  let x := .ident 1 "x"
  let y := .ident 2 "y"
  .equals (some (.binary 0 .eq x y)) x y true (some 1) (some 2)

theorem labelsPass_compares {state : TypeState} {x y : Ty}
    (hx : labelsPass.typeIn state (.ident 1 "x") = x)
    (hy : labelsPass.typeIn state (.ident 2 "y") = y) :
    labelsPass.Compares state true (some 1) x y labelsTest := by
  subst hx hy
  exact .test 0 _ _ (some 2)

/-- The number five is a label, and it is kept beside the members of an enumeration. -/
theorem narrowEq_keeps_values_labels :
    let table := labels.program.table
    let label := Ty.exact (.synonym (.one 1))
    let mixed := (Ty.enumeration none (some (.exact (.string "a")))).union (.exact (.number 5))
    let state := NumMap.ofList [(1, label), (2, mixed)]
    let v := Value.scalar (.number 5)
    (v.Inhabits table label ∧ v.Inhabits table mixed) ∧
      (narrowEq? table 2 label mixed = some mixed ∧ v.Inhabits table mixed) ∧
      equalsCheck table label mixed ≠ some false ∧
      ((labelsPass.branch state labelsTest).run { record := {} }).1.1.isSome = true := by
  intro table label mixed state v
  have hinLabel : v.InSlot table ((label.expand table).slot v.tag) := by
    rw [slot_eq_bare_iff.mpr (by decide +kernel)]
    trivial
  have hinMixed : v.InSlot table ((mixed.expand table).slot v.tag) :=
    .of_payload (by decide +kernel) (.number 5)
  have hva : v.Inhabits table label := inhabits_iff.mpr (.inl (fits_iff.mpr (.inl hinLabel)))
  have hvb : v.Inhabits table mixed := inhabits_iff.mpr (.inl (fits_iff.mpr (.inl hinMixed)))
  obtain ⟨hkeeps, hundecided, hbranch⟩ :=
    narrowEq_keeps_values labels .ofDecls (by decide +kernel) (.number 5) hva hvb (.inl hinMixed)
  have hnarrowed : narrowEq? table 2 label mixed = some mixed := by decide +kernel
  have hcompares : labelsPass.Compares state true (some 1) label mixed labelsTest :=
    labelsPass_compares (by decide +kernel) (by decide +kernel)
  have hedge := hbranch labelsPass state true (some 1) labelsTest { record := {} } rfl hcompares
    (by decide +kernel) (by decide +kernel) (by decide +kernel) fun _ => .inl hinLabel
  simp only [if_true] at hedge
  exact ⟨⟨hva, hvb⟩, ⟨hnarrowed, hkeeps 2 mixed hnarrowed⟩, hundecided (by decide +kernel), hedge⟩

/-- The number five is lost where it is compared with the unqualified object: the object is narrowed
to nothing, and the edge of equal values is left out. -/
theorem not_narrowEq_keeps_values_object :
    let table := labels.program.table
    let five := Ty.exact (.number 5)
    let object := Ty.ofTags (Tags.single .object)
    let state := NumMap.ofList [(1, five), (2, object)]
    let v := Value.scalar (.number 5)
    (five.WellFormed ∧ object.WellFormed) ∧ v.Simple ∧
      (v.Inhabits table five ∧ v.Inhabits table object) ∧
      (narrowEq? table 1 five object = some never ∧ ¬v.Inhabits table never) ∧
      equalsCheck table five object = some false ∧
      (labelsPass.Compares state true (some 1) five object labelsTest ∧
        ((labelsPass.branch state labelsTest).run { record := {} }).1.1 = none) := by
  intro table five object state v
  have hobject : v.Inhabits table object := .objectLike (by decide +kernel) (by decide)
  refine ⟨⟨.literal, .ofTags _⟩, .number 5, ⟨.exact rfl (.number 5), hobject⟩,
    ⟨by decide +kernel, fun h => absurd h.isNever_eq_false (by decide)⟩, by decide +kernel,
    labelsPass_compares (by decide +kernel) (by decide +kernel), ?_⟩
  exact Option.isNone_iff_eq_none.mp (by decide +kernel)

end TypeFlow
