import TypeFlow.Eval.Expr
import TypeFlow.Proofs.FormedPrograms
import TypeFlow.Proofs.Trace

/-!
# Evaluation of expressions

One walk over the evaluator shows four things at once. What an evaluation gives does not depend on
what has been recorded before. The types that it gives and records are formed. It notes a fact
exactly as it found it. And another set of facts gives the same evaluation as long as it agrees on
the noted facts, and holds no fact about a constant with a declared type without one before.
-/

namespace TypeFlow

open Evaluating List Option Ty

/-- What one step of an evaluation leaves behind. -/
inductive Mark where
  | node (n : NodeId) (t : Ty)
  | diagnose (n : NodeId) (message : String)
  | note (d : DeclId) (t : Ty)
  | mayThrowIf (b : Bool)
  | refine (n : NodeId) (t : Ty)
  | call (n : NodeId) (callees? : Option DeclSet)

/-- The record after a step. -/
def Record.mark (r : Record) : Mark → Record
  | .node n t => r.node n t
  | .diagnose n message => r.diagnose n message
  | .note d t => r.note d t
  | _ => r

/-- The state of an evaluation after a step. -/
def Evaluation.mark (s : Evaluation) : Mark → Evaluation
  | .node n t => { s with record := s.record.node n t }
  | .diagnose n message => { s with record := s.record.diagnose n message }
  | .note d t => { s with record := s.record.note d t }
  | .mayThrowIf b => { s with mayThrow := s.mayThrow || b }
  | .refine n t => { s with refinements := s.refinements ++ [(n, t)] }
  | .call n callees? =>
    { s with sideEffects := true, mayThrow := true, calls := s.calls ++ [(n, callees?)] }

/-- The facts of two stores about a declaration are the same. -/
def Facts.SameAt (facts others : Facts) (d : DeclId) : Prop :=
  facts.vars.get? d = others.vars.get? d ∧ facts.returns.get? d = others.returns.get? d

/-- A fact that a run may read: the type of a variable, or that of the result of a function with a
body. A fact that is absent is empty. -/
def Context.IsFact (ctx : Context) (d : DeclId) (t : Ty) : Prop :=
  ((ctx.program.decl d).kind = .var ∧ t = (ctx.facts.vars.get? d).getD .never) ∨
    (ctx.program.hasBody d ∧ t = (ctx.facts.returns.get? d).getD .never)

/-- All types that an evaluation starts from are formed, and it only meets suitable declarations. -/
structure Context.Formed (strict : Demands) (ctx : Context) : Prop where
  vars : ∀ d t, ctx.facts.vars.get? d = some t → t.Formed strict
  returns : ∀ d t, ctx.facts.returns.get? d = some t → t.Formed strict
  table : ctx.table.Formed strict
  enumValues : ∀ d t, ctx.program.enumValues.get? d = some t → t.Formed strict
  lookup : ∀ node, ∀ d ∈ ctx.program.lookup node, strict.ok d
  members : ∀ scope name, ∀ d ∈ ctx.program.scopeMember scope name, strict.ok d
  ownClass : ∀ c, ctx.program.enclosingClass? ctx.root = some c → strict.ok c
  ownScope : strict.ok (ctx.program.enclosingScope ctx.root)

/-- The tracked types of expressions are formed. -/
def TypeEnv.Formed (strict : Demands) (env : TypeEnv) : Prop :=
  ∀ n t, env n = some t → t.Formed strict

/-- The types of an access are formed. -/
def MemberAccess.Formed (strict : Demands) (access : MemberAccess) : Prop :=
  access.ty.Formed strict ∧ MaybeFormed strict access.receiver?

/-- What is left behind is formed, and facts are noted as they are. -/
def Mark.Sound (strict : Demands) (ctx : Context) : Mark → Prop
  | .node _ t | .refine _ t => t.Formed strict
  | .note d t => ctx.IsFact d t
  | _ => True

/-- The types that an evaluation starts from are formed, and it may leave behind calls, findings and
facts as they are. -/
structure Context.Allows (strict : Demands) (sound : Mark → Prop)
    (ctx : Context) : Prop extends ctx.Formed strict where
  note : ∀ d t, ctx.IsFact d t → sound (.note d t)
  diagnose : ∀ n message, sound (.diagnose n message)
  mayThrowIf : ∀ b, sound (.mayThrowIf b)
  call : ∀ n callees?, sound (.call n callees?)

theorem Context.Formed.allows {strict : Demands} {ctx : Context}
    (h : ctx.Formed strict) : ctx.Allows strict (Mark.Sound strict ctx) :=
  { h with
    note := fun _ _ h => h
    diagnose := fun _ _ => trivial
    mayThrowIf := fun _ => trivial
    call := fun _ _ => trivial }

/-- Everything that an evaluation starts from is formed when nothing is asked for. -/
theorem Context.formed_of_nothing (ctx : Context) : ctx.Formed False where
  vars _ t _ := .of_nothing t
  returns _ t _ := .of_nothing t
  table e _ := .of_nothing e.2
  enumValues _ t _ := .of_nothing t
  lookup _ _ _ := trivial
  members _ _ _ _ := trivial
  ownClass _ _ := trivial
  ownScope := trivial

/-- A step that only notes a fact on which both stores agree. -/
def Mark.Same (facts others : Facts) : Mark → Prop
  | .note d _ => facts.SameAt others d
  | _ => True

/-- A finding, which is only kept while recording. -/
def Mark.IsFinding : Mark → Prop
  | .diagnose _ _ => True
  | _ => False

/-- The second store has no fact about a constant with a declared type about which the first has
none. -/
def Context.LacksConstants (ctx : Context) (others : Facts) : Prop :=
  ∀ d, (ctx.program.decl d).isConst → (ctx.program.decl d).spec?.isSome →
    ctx.facts.vars.get? d = none → others.vars.get? d = none

/-- A primitive step adds one entry. -/
theorem Mark.traced {sound same : Mark → Prop} (e : Mark) (h : sound e) :
    Traced Evaluation.mark sound same (fun _ => True) (modify (·.mark e)) (modify (·.mark e)) :=
  .entry h

/-- Limits that replace those of a configuration. -/
structure Limits where
  visits : Nat
  /-- The limit of runs, if it is replaced. -/
  runs? : Option Nat := none

/-- A number replaces the limit of visits. -/
instance : Coe Nat Limits := ⟨fun visits => { visits }⟩

/-- The same configuration with other limits. -/
def Config.withLimits (config : Config) (limits : Limits) : Config :=
  { config with
    maxBlockVisits := limits.visits
    maxRootRuns := limits.runs?.getD config.maxRootRuns }

namespace Context

/-- The same context with other facts, and with other limits, which no evaluation looks at. -/
def withFacts (ctx : Context) (facts : Facts) (limits : Limits) : Context :=
  { ctx with facts, config := ctx.config.withLimits limits }

section

variable (ctx : Context) (facts : Facts) (limits : Limits)

@[simp] theorem withFacts_program : (ctx.withFacts facts limits).program = ctx.program := rfl

@[simp] theorem withFacts_table : (ctx.withFacts facts limits).table = ctx.table := rfl

@[simp] theorem withFacts_printed : (ctx.withFacts facts limits).printed = ctx.printed := rfl

@[simp] theorem withFacts_receiverFor :
    (ctx.withFacts facts limits).receiverFor = ctx.receiverFor := rfl

@[simp] theorem withFacts_truth : (ctx.withFacts facts limits).truth = ctx.truth := rfl

end

/-- A step of an evaluation is traced, and compared with the same step for other facts. -/
abbrev Marks {α : Type} (sound : Mark → Prop) (ctx : Context) (others : Facts) (Q : α → Prop)
    (m m' : Evaluating α) : Prop :=
  Traced .mark sound (Mark.Same ctx.facts others) Q m m'

/-- A step is traced, and compared with the same step for other facts and limits. -/
abbrev Marked {α : Type} (sound : Mark → Prop) (ctx : Context) (others : Facts) (limits : Limits)
    (Q : α → Prop) (work : Context → Evaluating α) : Prop :=
  ctx.Marks sound others Q (work ctx) (work (ctx.withFacts others limits))

/-- What a step leaves behind is formed. -/
def Tracks {α : Type} (strict : Demands) (ctx : Context) (others : Facts)
    (Q : α → Prop) (m m' : Evaluating α) : Prop :=
  ctx.Marks (Mark.Sound strict ctx) others Q m m'

variable {strict : Demands} {sound : Mark → Prop} {ctx : Context}
  {others : Facts} {limits : Limits} {d : DeclId} {t : Ty}

theorem declaredType?_formed (hctx : ctx.Formed strict) (d : DeclId)
    (h : ctx.program.declaredType? d = some t) : t.Formed strict := by
  obtain ⟨spec, -, rfl⟩ := map_eq_some_iff.mp h
  exact Names.typeOfSpec_formed hctx.lookup spec

/-- The inferred type of a variable, if it has one and may use it. -/
def inferred? (ctx : Context) (d : DeclId) : Option Ty :=
  if (ctx.program.decl d).isConst || (ctx.program.decl d).spec?.isNone then ctx.facts.vars.get? d
  else none

theorem varType_of_inferred (h : ctx.inferred? d = some t) :
    ctx.varType d = (do note d t; return t) := by
  unfold inferred? at h
  simp only [varType, h]

theorem varType_of_declared {t : Ty} (h : ctx.inferred? d = none)
    (ht : ctx.program.declaredType? d = some t) : ctx.varType d = pure t := by
  unfold inferred? at h
  simp only [varType, h, ht]

theorem varType_of_unknown (h : ctx.inferred? d = none) (ht : ctx.program.declaredType? d = none) :
    ctx.varType d = (do note d .never; return .never) := by
  unfold inferred? at h
  simp only [varType, h, ht]

/-- A fact is noted, by both computations if they agree on it. -/
theorem noted_traced {m : Evaluating Ty} (hnote : sound (.note d t)) (ht : t.Formed strict)
    (h : ctx.facts.SameAt others d → m = (do note d t; return t)) :
    ctx.Marks sound others (Ty.Formed strict) (do note d t; return t) m := by
  refine ⟨t, [.note d t], ht, by simpa using hnote, fun _ => rfl, fun hsame _ => ?_⟩
  rw [h (hsame _ mem_cons_self)]
  rfl

/-- A variable is read from the facts, and noted, or has its declared type. -/
theorem varType_tracks (hctx : ctx.Allows strict sound) (hlacks : ctx.LacksConstants others)
    (hd : (ctx.program.decl d).kind = .var) :
    ctx.Marked sound others limits (Ty.Formed strict) (·.varType d) := by
  have hsame (h : ctx.facts.SameAt others d) :
      (ctx.withFacts others limits).inferred? d = ctx.inferred? d := by
    simp only [inferred?, h.1]
    rfl
  simp only [Marked]
  cases hinferred : ctx.inferred? d with
  | some t =>
    have hvar : ctx.facts.vars.get? d = some t := by
      unfold inferred? at hinferred
      split at hinferred
      · exact hinferred
      · simp at hinferred
    rw [varType_of_inferred hinferred]
    exact noted_traced (hctx.note d t (by simp [IsFact, hd, hvar])) (hctx.vars d t hvar) fun h =>
      varType_of_inferred ((hsame h).trans hinferred)
  | none =>
    cases hdeclared : ctx.program.declaredType? d with
    | some t =>
      have hspec : (ctx.program.decl d).spec?.isSome := by
        obtain ⟨spec, hspec, -⟩ := map_eq_some_iff.mp hdeclared
        simp [hspec]
      have hothers : (ctx.withFacts others limits).inferred? d = none := by
        unfold inferred? at hinferred ⊢
        cases hconst : (ctx.program.decl d).isConst with
        | false => simp [hconst, isSome_iff_ne_none.mp hspec]
        | true =>
          simp only [hconst] at hinferred
          simpa [withFacts, hconst] using hlacks d hconst hspec hinferred
      rw [varType_of_declared hinferred hdeclared, varType_of_declared hothers hdeclared]
      exact .pure (declaredType?_formed hctx.toFormed d hdeclared)
    | none =>
      have hvar : ctx.facts.vars.get? d = none := by
        have hspec : (ctx.program.decl d).spec? = none := by
          simpa [Program.declaredType?] using hdeclared
        simpa [inferred?, hspec] using hinferred
      rw [varType_of_unknown hinferred hdeclared]
      exact noted_traced (hctx.note d _ (by simp [IsFact, hd, hvar])) (.ofTags _) fun h =>
        varType_of_unknown ((hsame h).trans hinferred) hdeclared

/-! ### References to declarations -/

section

variable (hctx : ctx.Formed strict)

include hctx

theorem enumMemberType_formed (d : DeclId) : (ctx.enumMemberType d).Formed strict := by
  have hvalue : ((ctx.program.enumValues.get? d).getD (.ofTags (.single .number))).Formed
      strict := .getD (hctx.enumValues d)
  simp only [enumMemberType]
  split
  · exact iteInduction (fun _ => .enumeration fun u hu => some.inj hu ▸ hvalue) fun _ => hvalue
  · exact hvalue

theorem declaredOrAny_formed (d : DeclId) :
    ((ctx.program.declaredType? d).getD .any).Formed strict :=
  .getD fun _ => declaredType?_formed hctx d

theorem selfType_formed : ctx.selfType.Formed strict := by
  unfold selfType
  split
  · next c hc => exact .object (DeclSet.forall_mem_one (hctx.ownClass c hc))
  · exact .ofDecls trivial rfl rfl (DeclSet.forall_mem_one hctx.ownScope)

end

section

variable (hctx : ctx.Allows strict sound) (hlacks : ctx.LacksConstants others) {part object : Ty}
include hctx hlacks

theorem valueType_tracks {d : DeclId} (hd : strict.ok d) :
    ctx.Marked sound others limits (Ty.Formed strict) (·.valueType d) := by
  have hset {p : Payload Ty} (hproper : p.Proper) (hdecls : p.decls? = some (DeclSet.one d))
      (hcomponents : p.components = []) : (Ty.exact p).Formed strict :=
    .ofDecls hproper hdecls hcomponents (DeclSet.forall_mem_one hd)
  simp only [Marked, valueType, withFacts]
  cases hkind : (ctx.program.decl d).kind with
  | var => exact varType_tracks hctx hlacks hkind
  | param | localVar => exact .pure (declaredOrAny_formed hctx.toFormed d)
  | function | cls | module => exact .pure (hset trivial rfl rfl)
  | enumMember => exact .pure (enumMemberType_formed hctx.toFormed d)
  | enum | synonym => exact .pure (.ofTags _)

variable {ds : List DeclId}

theorem valueTypes_tracks (hds : ∀ d ∈ ds, strict.ok d) :
    ctx.Marked sound others limits (Ty.Formed strict) (·.valueTypes ds) :=
  .foldlM (fun _ hacc d hd =>
    (valueType_tracks hctx hlacks (hds d hd)).bind fun _ ht => .pure (hacc.union ht)) (.ofTags _)

omit hlacks in
/-- The result of a function is read from the facts, and noted, unless it is declared. -/
theorem returnType_tracks (d : DeclId) :
    ctx.Marked sound others limits (Ty.Formed strict) (·.returnType d) := by
  simp only [Marked, returnType, withFacts]
  split
  · next t ht => exact .pure (declaredType?_formed hctx.toFormed d ht)
  · refine .choice ?_ fun _ => .pure (.ofTags _)
    intro hbody
    exact noted_traced (hctx.note d _ (by simp [IsFact, hbody])) (.getD (hctx.returns d))
      fun h => by rw [h.2]

/-! ### Members -/

/-- An optional type is formed if there is one. -/
theorem foundType_tracks (hds : ∀ d ∈ ds, strict.ok d) :
    ctx.Marked sound others limits (MaybeFormed strict) (·.foundType ds) := by
  unfold foundType
  split
  · exact .pure maybeFormed_none
  · exact (valueTypes_tracks hctx hlacks hds).bind fun t ht => .pure (Ty.maybeFormed_some.mpr ht)

variable (property : String)

omit hlacks in
theorem instanceMembers_ok (c : DeclId) : ∀ d ∈ ctx.instanceMembers property c, strict.ok d := by
  unfold instanceMembers
  split
  · split
    · exact hctx.members _ _
    · simp
  · exact hctx.members _ _

theorem staticMember_tracks (scopes : DeclSet) (property : String) :
    ctx.Marked sound others limits (MaybeFormed strict) (·.staticMember scopes property) := by
  apply foundType_tracks hctx hlacks
  intro d hd
  obtain ⟨s, -, hd⟩ := mem_flatMap.mp hd
  exact hctx.members s property d hd

theorem objectMember_tracks (hpart : part.Formed strict) (property : String) :
    ctx.Marked sound others limits (MaybeFormed strict) (·.objectMember part property) := by
  unfold objectMember
  split
  · next classes shape hhead =>
    have hobject := hpart.payload (mem_of_head? hhead)
    split
    · next t ht =>
      obtain ⟨fields, rfl, ht⟩ := bind_eq_some_iff.mp ht
      refine .pure (maybeFormed_some.mpr (hobject.nested t ?_))
      exact List.mem_map_of_mem (mem_of_lookup ht)
    · apply foundType_tracks hctx hlacks
      intro d hd
      obtain ⟨c, -, hd⟩ := mem_flatMap.mp hd
      exact instanceMembers_ok hctx property c d hd
  · exact .pure (maybeFormed_some.mpr (.ofTags _))

theorem valueMember_tracks (tag : Tag) (property : String) :
    ctx.Marked sound others limits (MaybeFormed strict) (·.valueMember tag property) := by
  simp only [Marked, valueMember, withFacts]
  split
  · exact foundType_tracks hctx hlacks (hctx.members _ _)
  · exact .pure (maybeFormed_some.mpr (.ofTags _))

theorem partMember_tracks {inner inner' : Ty → Evaluating MemberAccess}
    (hinner : ∀ t, t.Formed strict → ctx.Marks sound others (MemberAccess.Formed strict)
      (inner t) (inner' t)) (tag : Tag) (hpart : part.Formed strict) (property : String) :
    ctx.Marks sound others (MaybeFormed strict) (ctx.partMember inner tag part property)
      ((ctx.withFacts others limits).partMember inner' tag part property) := by
  have hunknown : ctx.Marks sound others (MaybeFormed strict) (pure (some .any))
      (pure (some any)) := .pure (maybeFormed_some.mpr (.ofTags _))
  unfold partMember
  split
  · split
    · exact staticMember_tracks hctx hlacks _ property
    · exact hunknown
  · split
    · exact staticMember_tracks hctx hlacks _ property
    · exact hunknown
  · exact objectMember_tracks hctx hlacks hpart property
  · exact (hinner _ hpart.enumValue).bind fun access haccess =>
      .pure fun u hu => haccess.1.nonempty? hu
  · exact .pure maybeFormed_none
  · exact .pure maybeFormed_none
  · exact .pure maybeFormed_none
  · exact valueMember_tracks hctx hlacks tag property

theorem memberWithin_tracks (n : Nat) (hobject : object.Formed strict) :
    ctx.Marked sound others limits (MemberAccess.Formed strict)
      (·.memberWithin property n object) := by
  induction n generalizing object with
  | zero => exact .pure ⟨.ofTags _, maybeFormed_none⟩
  | succ n ih =>
    have hexpanded := hobject.expand hctx.table
    simp only [memberWithin]
    refine .choice (fun _ => .pure ⟨.ofTags _, maybeFormed_none⟩) ?_
    intro _
    have hstep (acc : Ty × Ty) (hacc : acc.1.Formed strict ∧ acc.2.Formed strict)
        (tag : Tag) : ctx.Marked sound others limits
          (fun acc : Ty × Ty => acc.1.Formed strict ∧ acc.2.Formed strict)
          fun c => c.addPart (c.memberWithin property n) (object.expand ctx.table) property acc
            tag := by
      have hpart := hexpanded.part tag
      apply (partMember_tracks hctx hlacks (fun t ht => ih ht) tag hpart property).bind
      intro t? ht
      cases t? with
      | none => exact .pure hacc
      | some t => exact .pure ⟨hacc.1.union (maybeFormed_some.mp ht), hacc.2.union hpart⟩
    refine (Traced.foldlM (fun acc hacc tag _ => hstep acc hacc tag) ⟨.ofTags _, .ofTags _⟩).bind ?_
    rintro ⟨ty, provided⟩ ⟨hty, hprovided⟩
    refine .choice (fun _ => .pure ⟨.ofTags _, maybeFormed_none⟩) fun _ => ?_
    refine .choice (fun _ => .pure ⟨hty, maybeFormed_none⟩) ?_
    intro _
    exact .pure ⟨hty, maybeFormed_some.mpr hprovided⟩

end

/-! ### Findings -/

/-- While nothing is recorded findings change nothing. -/
theorem foldl_findings {log : List Mark} (hlog : ∀ e ∈ log, e.IsFinding) {s : Evaluation}
    (hs : s.record.recording = false) : log.foldl .mark s = s := by
  induction log with
  | nil => rfl
  | cons e log ih =>
    rw [forall_mem_cons] at hlog
    have hkeep : s.mark e = s := by
      cases e with
      | diagnose n message =>
        simp only [Evaluation.mark, Record.diagnose, hs]
        cases s.record.severity? <;> rfl
      | _ => exact hlog.1.elim
    rw [foldl_cons, hkeep, ih hlog.2]

section

variable (hctx : ctx.Allows strict sound) {receiver? : Option (NodeId × Ty)} {args : List Ty}
  {callee cls : Ty}
include hctx

/-- Findings that are only looked for while recording. -/
theorem whenRecording_tracks {m m' : Evaluating Unit}
    (h : Traced .mark Mark.IsFinding (Mark.Same ctx.facts others) (fun _ => True) m m') :
    ctx.Marks sound others (fun _ => True)
      (do if (← get).record.recording then m) (do if (← get).record.recording then m') := by
  obtain ⟨a, log, -, hlog, hrun, hrun'⟩ := h
  have hwhen {m : Evaluating Unit} (hrun : ∀ s, m.run s = (a, log.foldl .mark s))
      (s : Evaluation) : (do if (← get).record.recording then m : Evaluating Unit).run s =
        (a, log.foldl .mark s) := by
    change (if s.record.recording = true then m else pure ()).run s = _
    cases hs : s.record.recording with
    | true => exact hrun s
    | false =>
      rw [foldl_findings hlog hs]
      rfl
  refine ⟨a, log, trivial, ?_, hwhen hrun, fun hsame => hwhen (hrun' hsame)⟩
  intro e he
  cases e with
  | diagnose n message => exact hctx.diagnose n message
  | _ => exact (hlog _ he).elim

variable (id : NodeId)

omit hctx in
theorem checkArgumentList_tracks (name : String) (i : Nat) (args : List (DeclId × Ty)) :
    Traced .mark Mark.IsFinding (Mark.Same ctx.facts others) (fun _ => True)
      (ctx.checkArgumentList id name i args)
      ((ctx.withFacts others limits).checkArgumentList id name i args) := by
  induction args generalizing i with
  | nil => exact .pure trivial
  | cons arg args ih =>
    obtain ⟨param, arg⟩ := arg
    simp only [checkArgumentList, withFacts]
    split
    · exact .choice (fun _ => (Mark.traced (.diagnose ..) trivial).bind fun _ _ => ih (i + 1))
        fun _ => ih (i + 1)
    · exact ih (i + 1)

theorem checkArguments_tracks (function : DeclId) (args : List Ty) :
    ctx.Marked sound others limits (fun _ => True) (·.checkArguments id function args) := by
  refine whenRecording_tracks hctx (.choice (fun _ => Mark.traced (.diagnose ..) trivial) ?_)
  intro _
  exact checkArgumentList_tracks id _ 1 _

theorem checkNullComparison_tracks (l r : Ty) :
    ctx.Marked sound others limits (fun _ => True) (·.checkNullComparison id l r) := by
  simp only [checkNullComparison]
  split
  · exact .pure trivial
  · exact .choice (fun _ => Mark.traced (.diagnose ..) (hctx.diagnose ..)) fun _ => .pure trivial

/-! ### Calls -/

omit hctx in
theorem receiverFor_formed (method : DeclId) {receiver : Ty} (hreceiver : receiver.Formed strict) :
    (ctx.receiverFor method receiver).Formed strict := by
  simp only [receiverFor]
  split
  · next tags _ =>
    cases h : (receiver.enumToValue.restrictedTo tags).nonempty? with
    | none => exact hreceiver
    | some t => exact (hreceiver.enumToValue.restrictedTo tags).nonempty? h
  · exact hreceiver

/-- A receiver at a node has a formed type, and may get another one. -/
def ReceiverFormed (strict : Demands) (sound : Mark → Prop)
    (receiver? : Option (NodeId × Ty)) : Prop :=
  ∀ r, receiver? = some r → r.2.Formed strict ∧ ∀ t, t.Formed strict → sound (.refine r.1 t)

section

variable (hreceiver : ReceiverFormed strict sound receiver?)
  (hargs : ∀ t ∈ args, t.Formed strict)
include hreceiver hargs

theorem callFunction_tracks (function : DeclId) : ctx.Marked sound others limits (Ty.Formed strict)
      (·.callFunction id receiver? args function) := by
  have hcall : BuiltinCall.Formed strict
      { table := ctx.table, receiver? := receiver?.map fun r => ctx.receiverFor function r.2,
        args } := by
    refine ⟨?_, hargs⟩
    intro t ht
    obtain ⟨r, hr, rfl⟩ := map_eq_some_iff.mp ht
    exact receiverFor_formed function (hreceiver r hr).1
  refine (checkArguments_tracks hctx id function args).bind ?_
  intro _ _
  simp only [withFacts_program, withFacts_table, withFacts_receiverFor]
  split
  · next effect heffect =>
    have hformed := Builtin.refine?_formed hcall heffect
    cases hgrown : effect.receiver? with
    | none => exact .pure hformed.result
    | some grown =>
      cases receiver? with
      | none => exact .pure hformed.result
      | some receiver =>
        have hrefine := (hreceiver _ rfl).2 _ (hformed.receiver grown hgrown)
        exact (Mark.traced (.refine ..) hrefine).bind fun _ _ => .pure hformed.result
  · exact returnType_tracks hctx function

theorem callFunctions_tracks (functions : DeclSet) {acc : Ty} (hacc : acc.Formed strict) :
    ctx.Marked sound others limits (Ty.Formed strict)
      (·.callFunctions id receiver? args functions acc) :=
  .foldlM (fun _ hacc d _ => (callFunction_tracks hctx id hreceiver hargs d).bind fun _ ht =>
    .pure (hacc.union ht)) hacc

theorem callPart_tracks (hcallee : callee.Formed strict) {acc : Ty × Option (List DeclId)}
    (hacc : acc.1.Formed strict) (tag : Tag) :
    ctx.Marked sound others limits (fun acc : Ty × Option (List DeclId) => acc.1.Formed strict)
      (·.callPart id receiver? args callee acc tag) := by
  unfold callPart
  split
  · exact (callFunctions_tracks hctx id hreceiver hargs _ hacc).bind fun t ht => .pure ht
  · next result hp =>
    have hresult := (hcallee.payload? hp).nested result (by simp)
    exact .pure (hacc.union hresult)
  · exact .choice (fun _ => .pure hacc) fun _ => .pure (hacc.union (.ofTags _))

theorem callValue_tracks (hcallee : callee.Formed strict) :
    ctx.Marked sound others limits (Ty.Formed strict) (·.callValue id receiver? args callee) := by
  have hexpanded := hcallee.expand hctx.table
  refine (Traced.foldlM
    (fun acc hacc tag _ => callPart_tracks hctx id hreceiver hargs hexpanded hacc tag)
    (.ofTags _)).bind ?_
  rintro ⟨result, functions?⟩ hresult
  exact (Mark.traced (.call ..) (hctx.call ..)).bind fun _ _ => .pure hresult

end

omit hctx in
theorem classesOf?_ok (hcls : cls.Formed strict) {classes : DeclSet}
    (h : classesOf? cls = some classes) : ∀ c ∈ classes.ids, strict.ok c := by
  unfold classesOf? at h
  split at h
  · next ds hp =>
    split at h
    · exact some.inj h ▸ (hcls.payload? hp).decls ds rfl
    · simp at h
  · simp at h

theorem createObject_tracks (hcls : cls.Formed strict) (args : List Ty) :
    ctx.Marked sound others limits (Ty.Formed strict) (·.createObject id cls args) := by
  unfold createObject
  split
  · exact (Mark.traced (.call ..) (hctx.call ..)).bind fun _ _ => .pure (.ofTags _)
  · next classes hclasses =>
    refine (Traced.forM fun d _ => checkArguments_tracks hctx id d args).bind ?_
    intro _ _
    exact (Mark.traced (.call ..) (hctx.call ..)).bind fun _ _ =>
      .pure (.object (classesOf?_ok hcls hclasses))

end

/-! ### Expressions -/

section

variable {env : TypeEnv} (hctx : ctx.Allows strict sound) (hlacks : ctx.LacksConstants others)
  (henv : env.Formed strict)
include hctx hlacks henv

theorem identType_tracks (id : NodeId) :
    ctx.Marked sound others limits (Ty.Formed strict) (·.identType env id) := by
  simp only [Marked, identType, withFacts_program]
  split
  · next t ht => exact .pure (henv id t ht)
  · split
    · exact .pure (.ofTags _)
    · exact valueTypes_tracks hctx hlacks (hctx.lookup id)

theorem memberType_tracks (id : NodeId) {objectId : NodeId}
    (hrefine : ∀ t, t.Formed strict → sound (.refine objectId t)) {object : Ty}
    (hobject : object.Formed strict) (property : String) :
    ctx.Marked sound others limits
      (fun r : Ty × Option Ty => r.1.Formed strict ∧ MaybeFormed strict r.2)
      (·.memberType env id objectId object property) := by
  simp only [Marked, memberType, withFacts_program]
  split
  · next t ht => exact .pure ⟨henv id t ht, maybeFormed_none⟩
  · split
    · refine (memberWithin_tracks hctx hlacks property _ hobject).bind ?_
      intro access haccess
      refine (Mark.traced (.mayThrowIf ..) (hctx.mayThrowIf _)).bind ?_
      intro _ _
      split
      · next receiver hreceiver =>
        exact (Mark.traced (.refine ..) (hrefine _ (haccess.2 receiver hreceiver))).bind fun _ _ =>
          .pure haccess
      · exact .pure haccess
    · exact (valueTypes_tracks hctx hlacks (hctx.lookup id)).bind fun t ht =>
        .pure ⟨ht, Ty.maybeFormed_none⟩

end

section

variable (hctx : ctx.Allows strict sound)
include hctx

theorem castType_tracks (id : NodeId) {value target : Ty} (hvalue : value.Formed strict)
    (htarget : target.Formed strict) :
    ctx.Marked sound others limits (Ty.Formed strict) (·.castType id value target) := by
  refine .choice ?_ fun _ => .pure (.meet hctx.table hvalue htarget)
  intro _
  exact (Mark.traced (.diagnose ..) (hctx.diagnose ..)).bind fun _ _ => .pure htarget

theorem binaryType_tracks (id : NodeId) (op : BinaryOp) (l r : Ty) :
    ctx.Marked sound others limits (Ty.Formed strict) (·.binaryType id op l r) := by
  have hresult : ctx.Marks sound others (Ty.Formed strict) (do
        if !op.isComparison && (Ty.binary ctx.table op l r).isAny then mayThrowIf true
        return .binary ctx.table op l r)
      (do
        if !op.isComparison && (Ty.binary ctx.table op l r).isAny then mayThrowIf true
        return .binary ctx.table op l r) :=
    .choice (fun _ => (Mark.traced (.mayThrowIf ..) (hctx.mayThrowIf _)).bind fun _ _ =>
      .pure (.binary op l r)) fun _ => .pure (.binary op l r)
  refine .choice ?_ fun _ => hresult
  intro _
  exact (checkNullComparison_tracks hctx id l r).bind fun _ _ => hresult

omit hctx in
theorem instanceOf_eq_verdict (value cls : Ty) :
    ∃ verdict, ctx.instanceOf value cls = .ofVerdict verdict := by
  simp only [instanceOf]
  repeat' split
  exacts [⟨none, rfl⟩, ⟨none, rfl⟩, ⟨some true, rfl⟩, ⟨some false, rfl⟩, ⟨none, rfl⟩]

omit hctx in
theorem hasMember_eq_verdict (object : Ty) (property : String) :
    ∃ verdict, ctx.hasMember object property = .ofVerdict verdict := by
  simp only [hasMember]
  repeat' split
  exacts [⟨none, rfl⟩, ⟨some true, rfl⟩, ⟨some false, rfl⟩, ⟨none, rfl⟩]

omit hctx in
theorem recorded_tracks {id : NodeId} {work work' : Evaluating Ty}
    (h : ctx.Tracks strict others (Ty.Formed strict) work work') :
    ctx.Tracks strict others (Ty.Formed strict) (recorded id work) (recorded id work') :=
  h.bind fun _ ht => (Mark.traced (.node ..) ht).bind fun _ _ => .pure ht

omit hctx in
theorem literal_formed (value : Literal) : value.ty.Formed strict := by
  cases value <;> first | exact .literal | exact .ofTags _

end

/-- What the evaluation of expressions needs. -/
structure Prepared (ctx : Context) (env : TypeEnv) (strict : Demands) (others : Facts) : Prop where
  context : ctx.Formed strict
  lacks : ctx.LacksConstants others
  known : env.Formed strict

variable {env : TypeEnv}

mutual

/-- The evaluation of an expression is traced. -/
theorem evalExpr_tracks (h : ctx.Prepared env strict others) : ∀ e : Expr NodeId,
    ctx.Tracks strict others (Ty.Formed strict) (ctx.evalExpr env e)
      ((ctx.withFacts others limits).evalExpr env e)
  | .literal id value => recorded_tracks (.pure (literal_formed value))
  | .symbol id name => recorded_tracks (.pure .literal)
  | .self id => recorded_tracks (.pure (selfType_formed h.context))
  | .ident id _ => recorded_tracks (identType_tracks h.context.allows h.lacks h.known id)
  | .member id object property => recorded_tracks <| (evalExpr_tracks h object).bind fun t ht =>
      (memberType_tracks h.context.allows h.lacks h.known id (fun _ h => h) ht property).bind
        fun _ hr => .pure hr.1
  | .index id object position => recorded_tracks <|
    (evalExpr_tracks h object).bind fun t ht => (evalExpr_tracks h position).bind fun i _ =>
      (Mark.traced (.mayThrowIf ..) trivial).bind fun _ _ => .pure (.indexed h.context.table ht i)
  | .call id callee args => by
    have hcallee := evalExpr_tracks h callee
    have hargs := evalExprs_tracks h args
    cases callee with
    | member calleeId object property =>
      refine recorded_tracks ((evalExpr_tracks h object).bind ?_)
      intro t ht
      refine (memberType_tracks h.context.allows h.lacks h.known calleeId (fun _ h => h) ht
        property).bind ?_
      rintro ⟨callee, narrowed?⟩ ⟨hcallee, hnarrowed⟩
      refine (Mark.traced (.node ..) hcallee).bind fun _ _ => hargs.bind ?_
      intro types htypes
      refine callValue_tracks h.context.allows id ?_ htypes hcallee
      intro r hr
      cases hr
      cases narrowed? with
      | none => exact ⟨ht, fun _ h => h⟩
      | some u => exact ⟨hnarrowed u rfl, fun _ h => h⟩
    | _ =>
      exact recorded_tracks <| hcallee.bind fun t ht => hargs.bind fun types htypes =>
        callValue_tracks h.context.allows id (by simp [ReceiverFormed]) htypes ht
  | .create id cls args => recorded_tracks <|
    (evalExpr_tracks h cls).bind fun t ht => (evalExprs_tracks h args).bind fun types _ =>
      createObject_tracks h.context.allows id ht types
  | .unary id op operand => recorded_tracks <|
    (evalExpr_tracks h operand).bind fun t ht => .pure (.unary h.context.table op ht)
  | .binary id op left right => recorded_tracks <|
    (evalExpr_tracks h left).bind fun l _ => (evalExpr_tracks h right).bind fun r _ =>
      binaryType_tracks h.context.allows id op l r
  | .logical id op left right => recorded_tracks <|
    (evalExpr_tracks h left).bind fun l _ => (evalExpr_tracks h right).bind fun r _ =>
      .pure (.ofVerdict _)
  | .conditional id test yes no => recorded_tracks <|
    (evalExpr_tracks h test).bind fun t _ => (evalExpr_tracks h yes).bind fun y hy =>
      (evalExpr_tracks h no).bind fun n hn => by
        simp only [withFacts_truth]
        split
        · exact .pure hy
        · exact .pure hn
        · exact .pure (hy.union hn)
  | .array id elements => recorded_tracks <|
    (evalExprs_tracks h elements).bind fun _ hts => .pure (.tuple hts)
  | .dictionary id entries => recorded_tracks <|
    (evalEntries_tracks h (.ofTags _) (.ofTags _) entries).bind fun _ hkv =>
      .pure (.dictionary hkv.1 hkv.2)
  | .cast id operand spec => recorded_tracks <| (evalExpr_tracks h operand).bind fun t ht =>
      castType_tracks h.context.allows id ht (Names.typeOfSpec_formed h.context.lookup spec)
  | .instanceOf id operand cls => recorded_tracks <|
    (evalExpr_tracks h operand).bind fun t _ => (evalExpr_tracks h cls).bind fun c _ =>
      .pure ((instanceOf_eq_verdict t c).elim fun _ h => h ▸ .ofVerdict _)
  | .has id object property => recorded_tracks <| (evalExpr_tracks h object).bind fun t _ =>
      .pure ((hasMember_eq_verdict t property).elim fun _ h => h ▸ .ofVerdict _)

theorem evalExprs_tracks (h : ctx.Prepared env strict others) : ∀ es : List (Expr NodeId),
    ctx.Tracks strict others (fun ts => ∀ t ∈ ts, t.Formed strict) (ctx.evalExprs env es)
      ((ctx.withFacts others limits).evalExprs env es)
  | [] => .pure (by simp)
  | e :: es => (evalExpr_tracks h e).bind fun t ht => (evalExprs_tracks h es).bind fun ts hts =>
      .pure (forall_mem_cons.mpr ⟨ht, hts⟩)

theorem evalEntries_tracks (h : ctx.Prepared env strict others) {key value : Ty}
    (hkey : key.Formed strict) (hvalue : value.Formed strict) :
    ∀ entries : List (Expr NodeId × Expr NodeId),
    ctx.Tracks strict others (fun kv : Ty × Ty => kv.1.Formed strict ∧ kv.2.Formed strict)
      (ctx.evalEntries env key value entries)
      ((ctx.withFacts others limits).evalEntries env key value entries)
  | [] => .pure ⟨hkey, hvalue⟩
  | (k, v) :: entries => (evalExpr_tracks h k).bind fun _ hkt =>
      (evalExpr_tracks h v).bind fun _ hvt =>
        evalEntries_tracks h (hkey.union hkt) (hvalue.union hvt) entries

end

end Context

end TypeFlow
