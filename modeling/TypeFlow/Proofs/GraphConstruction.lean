import TypeFlow.Proofs.GraphComposition
import TypeFlow.Proofs.Places

/-!
# Constructing statements

A property of works holds of the whole construction of a graph as soon as it holds of its single
steps. Control is only led to blocks that are known: those that have been opened before, and the
exit. Events are about nodes of the text.
-/

namespace TypeFlow

open List Build

/-! ### Events -/

/-- The node of an event that is a condition. -/
def Event.testNode? : Event → Option NodeId
  | .test node _ => some node
  | _ => none

/-! ### Steps -/

/-- A property that holds of the steps of a construction, in which some blocks are known. -/
structure Constructs (P : List BlockId → (α : Type) → Build α → Prop) (p : Program)
    (nodes : List NodeId) : Prop where
  composes (known : List BlockId) : Composes (P known)
  newBlock {α : Type} {known : List BlockId} {around : Surroundings} {next : BlockId → Build α}
    (h : ∀ b, around.handler? = some b → b ∈ known) (hnext : ∀ b, P (b :: known) α (next b)) :
    P known α (newBlock around >>= next)
  enter {known : List BlockId} {b : BlockId} (h : b ∈ known) : P known Unit (enter b)
  goto {known : List BlockId} {b : BlockId} (h : b ∈ Graph.exit :: known) : P known Unit (goto b)
  branch {known : List BlockId} {node : NodeId} {condition : Condition} {taken next : BlockId}
    (h : node :: condition.labels ⊆ nodes) (htaken : taken ∈ known) (hnext : next ∈ known) :
    P known Unit (branch node condition taken next)
  emit {known : List BlockId} {e : Event} (h : e.labels ⊆ nodes) (htest : e.testNode? = none) :
    P known Unit (emit e)
  mayThrow {known : List BlockId} {node : NodeId} (h : node ∈ nodes) : P known Unit (mayThrow node)
  key {known : List BlockId} {e : Expr NodeId} (h : e.labels ⊆ nodes) :
    P known (Option Key) (keyOf? p e)
  intern (known : List BlockId) (d : DeclId) : P known Key (intern (.decl d))
  note {known : List BlockId} {f : Graph → Graph} (hroot : ∀ g, (f g).root = g.root)
    (hids : ∀ g, (f g).identities = g.identities) (hblocks : ∀ g, (f g).blocks = g.blocks) :
    P known Unit (modifyGraph f)
  scope {known : List BlockId} (f : Building → List Key) :
    P known Unit (modify fun s => { s with scope := f s })

/-- The property is asked for what stands in some surroundings, of which the blocks are known. -/
structure ConstructsIn (P : List BlockId → (α : Type) → Build α → Prop) (nodes : List NodeId)
    (around : Surroundings) (known : List BlockId) : Prop extends
    Constructs P around.program nodes where
  leave : ∀ jump, around.jumps.head? = some jump → jump.leave ∈ known
  next : ∀ b, around.jumps.findSome? Jump.next? = some b → b ∈ known
  handler : ∀ b, around.handler? = some b → b ∈ known

section

variable {P : List BlockId → (α : Type) → Build α → Prop} {p : Program} {nodes : List NodeId}
  {known : List BlockId} {α β : Type}

namespace Constructs

variable (h : Constructs P p nodes) {e test : Expr NodeId} {node : NodeId}
  {next : Condition → Build α} {v : VarDecl NodeId}

include h

theorem bind {work : Build α} {next : α → Build β} (hwork : P known α work)
    (hnext : ∀ a, P known β (next a)) : P known β (work >>= next) :=
  (h.composes known).bind hwork hnext

theorem pure (a : α) : P known α (Pure.pure a) := (h.composes known).pure a

omit h in
theorem ite {c : Prop} [Decidable c] {yes no : Build α} (hyes : P known α yes)
    (hno : P known α no) : P known α (if c then yes else no) := by
  split
  · exact hyes
  · exact hno

/-- One of two works, and what follows both. -/
theorem either {c : Prop} [Decidable c] {first second : Build α} {next : α → Build β}
    (hfirst : P known α first) (hsecond : P known α second) (hnext : ∀ a, P known β (next a)) :
    P known β (if c then first >>= next else second >>= next) :=
  ite (h.bind hfirst hnext) (h.bind hsecond hnext)

theorem setNodeKey (node : NodeId) (key : Key) : P known Unit (setNodeKey node key) :=
  h.note (fun _ => rfl) (fun _ => rfl) fun _ => rfl

theorem addNonlocal (key : Key) : P known Unit (addNonlocal key) := by
  refine h.note (fun g => ?_) (fun g => ?_) fun g => ?_
  all_goals split <;> rfl

theorem declaredKey (node : NodeId) : P known (Option Key) (declaredKey? p node) := by
  unfold declaredKey?
  split
  · exact h.pure none
  · exact h.bind (h.intern known _) fun _ => h.pure _

theorem trackedKey (he : e.labels ⊆ nodes) : P known (Option Key) (trackedKey? p e) :=
  (h.composes known).trackedKey (h.key he) (h.setNodeKey e.id) h.addNonlocal

theorem readOf (he : e.labels ⊆ nodes) : P known (Option Key) (readOf p e) :=
  (h.composes known).reading (h.trackedKey he) fun _ =>
    h.emit (by simpa [Event.labels] using he e.id_mem_labels) rfl

theorem reads : ReadsIn (P known) p nodes :=
  ⟨fun _ _ _ => h.note (fun _ => rfl) (fun _ => rfl) fun _ => rfl, fun _ => h.readOf⟩

theorem expr (he : e.labels ⊆ nodes) : P known Bool (buildExpr p e) :=
  (h.composes known).expr e (h.reads.reads he)

/-- An expression that may throw is evaluated. -/
theorem evaluated (he : e.labels ⊆ nodes) (hnode : node ∈ nodes) {next : Build α}
    (hnext : P known α next) :
    P known α (do
      if ← buildExpr p e then Build.mayThrow node
      next) :=
  h.bind (h.expr he) fun _ => ite (h.bind (h.mayThrow hnode) fun _ => hnext) hnext

/-- Scopes end with events about no node. -/
theorem inScope {work : Build Unit} (hwork : P known Unit work) : P known Unit (inScope work) := by
  have hforget (keys : List Key) :
      P known Unit (keys.forM fun key => Build.emit (.forget key)) := by
    induction keys with
    | nil => exact h.pure _
    | cons key keys ih => exact h.bind (h.emit (nil_subset _) rfl) fun _ => ih
  have hget := (h.composes known).get
  exact h.bind hget fun _ => h.bind (h.scope _) fun _ => h.bind hwork fun _ =>
    h.bind hget fun _ => h.bind (hforget _) fun _ => h.scope _

theorem equality (whole? : Option (Expr NodeId)) {l r : Expr NodeId} {equal : Bool}
    (hl : l.labels ⊆ nodes) (hr : r.labels ⊆ nodes)
    (hwhole : labelsOfOption Expr.labels whole? ⊆ nodes)
    (hnext : ∀ condition, condition.labels ⊆ nodes → P known α (next condition)) :
    P known α (equalsCondition p whole? l r equal >>= next) := by
  have hlabels (leftKey? rightKey? : Option Key) :
      (Condition.equals whole? l r equal leftKey? rightKey?).labels ⊆ nodes :=
    append_subset.mpr ⟨hwhole, append_subset.mpr ⟨hl, hr⟩⟩
  unfold equalsCondition
  simp only [bind_assoc]
  exact h.bind (h.key hl) fun _ => h.bind (h.key hr) fun _ => hnext _ (hlabels _ _)

theorem conditionOf (htest : test.labels ⊆ nodes)
    (hnext : ∀ condition, condition.labels ⊆ nodes → P known α (next condition)) :
    P known α (conditionOf p test >>= next) := by
  unfold TypeFlow.conditionOf
  split
  · obtain ⟨hleft, hright⟩ := append_subset.mp (cons_subset.mp htest).2
    exact h.equality (some (.binary _ .eq _ _)) hleft hright htest hnext
  · obtain ⟨hleft, hright⟩ := append_subset.mp (cons_subset.mp htest).2
    exact h.equality (some (.binary _ .ne _ _)) hleft hright htest hnext
  · have hoperand := (append_subset.mp (cons_subset.mp htest).2).1
    simp only [bind_assoc]
    exact h.bind (h.key hoperand) fun _ => hnext _ (append_subset.mpr ⟨htest, hoperand⟩)
  · simp only [bind_assoc]
    exact h.bind (h.key htest) fun _ => hnext _ htest

theorem leaf {taken next : BlockId} (htest : test.labels ⊆ nodes) (htaken : taken ∈ known)
    (hnext : next ∈ known) : P known Unit (buildLeaf p test taken next) :=
  h.evaluated htest (htest test.id_mem_labels) <| h.conditionOf htest fun _ hcondition =>
    h.branch (cons_subset.mpr ⟨htest test.id_mem_labels, hcondition⟩) htaken hnext

theorem var (hv : v.labels ⊆ nodes) (key : Key) : P known Unit (buildVar p v key) := by
  obtain ⟨hid, hparts⟩ := cons_subset.mp hv
  have hinit := (append_subset.mp hparts).2
  unfold buildVar
  cases hv : v.init? with
  | none => exact h.emit (cons_subset.mpr ⟨hid, nil_subset _⟩) rfl
  | some init =>
    rw [hv] at hinit
    exact h.evaluated hinit hid (h.emit (cons_subset.mpr ⟨hid, hinit⟩) rfl)

end Constructs

variable {id : NodeId} {target value : Expr NodeId} {op? : Option BinaryOp}

/-- The write of an assignment is about parts of the assignment. -/
theorem assignedEvent?_labels {nodeKeys : NumMap Key} {key? : Option Key} {event : Event}
    (h : assignedEvent? nodeKeys id target op? value key? = some event) :
    event.labels ⊆ id :: (target.labels ++ value.labels) ∧ event.testNode? = none := by
  unfold assignedEvent? at h
  cases target with
  | index tid object position =>
    split at h
    · cases h
    · obtain ⟨key, -, rfl⟩ := Option.map_eq_some_iff.mp h
      exact ⟨by simp [Event.labels, Written.labels, Expr.labels], rfl⟩
  | ident | member =>
    obtain ⟨key, -, rfl⟩ := Option.map_eq_some_iff.mp h
    refine ⟨cons_subset_cons _ ?_, rfl⟩
    cases op? with
    | none => exact subset_append_right _ _
    | some op => exact .refl _
  | _ => cases h

theorem Constructs.assign (h : Constructs P p nodes)
    (hlabels : id :: (target.labels ++ value.labels) ⊆ nodes) :
    P known Unit (buildAssign p id target op? value) := by
  obtain ⟨hid, hparts⟩ := cons_subset.mp hlabels
  obtain ⟨htarget, hvalue⟩ := append_subset.mp hparts
  refine h.bind ((h.composes known).target target
    (h.reads.mono fun _ hn => htarget (mem_of_mem_tail hn))) fun targetCalls => ?_
  refine h.either (h.readOf htarget) (h.trackedKey htarget) fun key? => ?_
  refine h.bind (h.expr hvalue) fun valueCalls => ?_
  refine h.either (h.mayThrow hid) (h.pure ()) fun _ => h.bind (h.composes known).get fun st => ?_
  cases hevent : assignedEvent? st.graph.nodeKeys id target op? value key? with
  | some event =>
    obtain ⟨hevent, htest⟩ := assignedEvent?_labels hevent
    exact h.emit (Subset.trans hevent hlabels) htest
  | none => exact ite (h.emit (cons_subset.mpr ⟨hid, hvalue⟩) rfl) (h.pure _)

namespace ConstructsIn

variable {around : Surroundings} {b : BlockId} (h : ConstructsIn P nodes around known)

include h

theorem mono {known' : List BlockId} (hsub : known ⊆ known') : ConstructsIn P nodes around known' :=
  ⟨h.toConstructs, fun jump hj => hsub (h.leave jump hj), fun b hb => hsub (h.next b hb),
    fun b hb => hsub (h.handler b hb)⟩

theorem opening {next : BlockId → Build α}
    (hnext : ∀ b, ConstructsIn P nodes around (b :: known) → P (b :: known) α (next b)) :
    P known α (newBlock around >>= next) :=
  h.newBlock h.handler fun b => hnext b (h.mono (subset_cons_self b known))

theorem entering {next : Build α} (hnext : P known α next) (hb : b ∈ known := by simp) :
    P known α (do Build.enter b; next) := h.bind (h.enter hb) fun _ => hnext

theorem leading {next : Build α} (hnext : P known α next)
    (hb : b ∈ Graph.exit :: known := by simp) : P known α (do Build.goto b; next) :=
  h.bind (h.goto hb) fun _ => hnext

theorem abandon : P known Unit (abandon around) := h.opening fun _ h => h.enter mem_cons_self

/-- Inside an attempt. -/
theorem attempt (dispatch : BlockId) (hdispatch : dispatch ∈ known := by simp) :
    ConstructsIn P nodes { around with handler? := some dispatch } known :=
  ⟨h.toConstructs, h.leave, h.next, fun _ hb => Option.some.inj hb ▸ hdispatch⟩

/-- Inside a loop or switch. -/
theorem jump (after : BlockId) (next? : Option BlockId) (hafter : after ∈ known := by simp)
    (hnext : ∀ b, next? = some b → b ∈ known := by simp) :
    ConstructsIn P nodes { around with jumps := ⟨after, next?⟩ :: around.jumps } known where
  toConstructs := h.toConstructs
  leave := by simpa using hafter
  next b hb := by
    cases next? with
    | none => exact h.next b hb
    | some next => exact hnext b hb
  handler := h.handler

theorem condition {test : Expr NodeId} {taken next : BlockId} (htest : test.labels ⊆ nodes)
    (htaken : taken ∈ known := by simp) (hnext : next ∈ known := by simp) :
    P known Unit (buildCondition around test taken next) := by
  fun_induction buildCondition around test taken next generalizing known with
  | case1 taken next id left right ih₁ ih₂ | case2 taken next id left right ih₁ ih₂ =>
    obtain ⟨hleft, hright⟩ := append_subset.mp (cons_subset.mp htest).2
    refine h.opening fun rest h => h.bind (ih₁ rest h hleft ?_ ?_) fun _ =>
      h.entering (ih₂ h hright (mem_cons_of_mem _ htaken) (mem_cons_of_mem _ hnext))
    all_goals simp [htaken, hnext]
  | case3 taken next id operand hboolean ih => exact ih h (cons_subset.mp htest).2 hnext htaken
  | case4 | case5 => exact h.leaf htest htaken hnext

omit h in
theorem tests {subject : Expr NodeId} (hsubject : subject.labels ⊆ nodes) :
    ∀ {cases : List (Case NodeId (Stmt NodeId) × BlockId)} {known : List BlockId},
      ConstructsIn P nodes around known →
      (∀ c ∈ cases, c.1.id :: labelsOfOption Expr.labels c.1.test? ⊆ nodes ∧ c.2 ∈ known) →
      P known Unit (buildTests around subject cases)
  | [], _, h, _ => h.pure _
  | (case, body) :: rest, known, h, hcases => by
    obtain ⟨⟨hlabels, hbody⟩, hrest⟩ := forall_mem_cons.mp hcases
    obtain ⟨hid, htest⟩ := cons_subset.mp hlabels
    unfold buildTests
    cases hcase : case.test? with
    | none => exact tests hsubject h hrest
    | some test =>
      rw [hcase] at htest
      refine h.evaluated htest (htest test.id_mem_labels) (h.equality none hsubject
        htest (nil_subset _) fun condition hcondition => h.opening fun fail h => ?_)
      refine h.bind (h.branch (cons_subset.mpr ⟨hid, hcondition⟩) (mem_cons_of_mem _ hbody)
        mem_cons_self) fun _ => h.entering (tests hsubject h fun c hc => ?_)
      exact (hrest c hc).imp_right (mem_cons_of_mem _)

omit h in
/-- Blocks for several things are known together. -/
theorem newBlocks : ∀ {n : Nat} {known : List BlockId} {next : List BlockId → Build α},
    ConstructsIn P nodes around known →
    (∀ {known' : List BlockId} (blocks : List BlockId), blocks ⊆ known' → known ⊆ known' →
      ConstructsIn P nodes around known' → P known' α (next blocks)) →
      P known α (newBlocks around n >>= next)
  | 0, _, _, h, hnext => hnext [] (nil_subset _) (.refl _) h
  | n + 1, known, next, h, hnext => by
    have hassoc : TypeFlow.newBlocks around (n + 1) >>= next = (do
        let b ← Build.newBlock around
        let bs ← TypeFlow.newBlocks around n
        next (b :: bs)) := by
      simp only [TypeFlow.newBlocks, bind_assoc, pure_bind]
    rw [hassoc]
    refine h.opening fun b h => newBlocks h fun bs hbs hsub h => ?_
    obtain ⟨hb, hsub⟩ := cons_subset.mp hsub
    exact hnext (b :: bs) (cons_subset.mpr ⟨hb, hbs⟩) hsub h

end ConstructsIn

theorem labels_of_mem_cases {cases : List (Case NodeId (Stmt NodeId))}
    {c : Case NodeId (Stmt NodeId)} (hc : c ∈ cases) :
    c.id :: labelsOfOption Expr.labels c.test? ⊆ labelsOfCases cases := by
  induction cases with
  | nil => cases hc
  | cons case cases ih =>
    rcases mem_cons.mp hc with rfl | hc
    · exact cons_subset_cons _ (subset_append_left _ _)
    · intro n hn
      simp [labelsOfCases, ih hc hn]

/-! ### Statements -/

namespace ConstructsIn

mutual

/-- The property holds of the construction of every statement. -/
theorem stmt {known : List BlockId} {around : Surroundings} : ∀ s : Stmt NodeId, s.labels ⊆ nodes →
    ConstructsIn P nodes around known → P known Unit (buildStmt around s)
  | .var _ v, hs, h => by
    refine h.bind (h.declaredKey v.id) fun key? => ?_
    cases key? with
    | none => exact h.pure _
    | some key =>
      exact h.bind (h.setNodeKey _ _) fun _ => h.bind (h.scope _) fun _ =>
        h.var (cons_subset.mp hs).2 key
  | .expr id value, hs, h => by
    obtain ⟨hid, hvalue⟩ := cons_subset.mp hs
    exact h.bind (h.expr hvalue) fun _ => Constructs.ite
      (h.bind (h.mayThrow hid) fun _ => h.emit hs rfl) (h.pure _)
  | .assign .., hs, h => h.assign hs
  | .ret id value?, hs, h => by
    obtain ⟨hid, hvalue⟩ := cons_subset.mp hs
    cases value? with
    | none => exact h.bind (h.emit hs rfl) fun _ => h.leading h.abandon
    | some value =>
      exact h.evaluated hvalue hid <| h.bind (h.emit hs rfl) fun _ => h.leading h.abandon
  | .branch _ test yes no?, hs, h => by
    obtain ⟨htest, hboth⟩ := append_subset.mp (cons_subset.mp hs).2
    obtain ⟨hyes, hno⟩ := append_subset.mp hboth
    unfold buildStmt
    cases no? with
    | none =>
      simp only [pure_bind]
      exact h.opening fun inside h => h.opening fun merge h =>
        h.bind (h.condition htest) fun _ => h.entering <|
        h.bind (block yes hyes h) fun _ => h.leading (h.enter (by simp))
    | some no =>
      exact h.opening fun inside h => h.opening fun merge h => h.opening fun otherwise h =>
        h.bind (h.condition htest) fun _ => h.entering <|
        h.bind (block yes hyes h) fun _ => h.leading <| h.entering <|
        h.bind (block no hno h) fun _ => h.leading (h.enter (by simp))
  | .whileLoop _ test body, hs, h => by
    obtain ⟨htest, hbody⟩ := append_subset.mp (cons_subset.mp hs).2
    exact h.opening fun header h => h.opening fun inside h => h.opening fun after h =>
      h.leading <| h.entering <| h.bind (h.condition htest) fun _ => h.entering <|
      h.bind (block body hbody (h.jump after (some header))) fun _ =>
      h.leading (h.enter (by simp))
  | .doLoop _ body test, hs, h => by
    obtain ⟨htest, hbody⟩ := append_subset.mp (cons_subset.mp hs).2
    exact h.opening fun inside h => h.opening fun testing h => h.opening fun after h =>
      h.leading <| h.entering <| h.bind (block body hbody (h.jump after (some testing))) fun _ =>
      h.leading <| h.entering <| h.bind (h.condition htest) fun _ => h.enter (by simp)
  | .forLoop _ init test? update body, hs, h => by
    obtain ⟨hinit, hparts⟩ := append_subset.mp (cons_subset.mp hs).2
    obtain ⟨htest, hparts⟩ := append_subset.mp hparts
    obtain ⟨hupdate, hbody⟩ := append_subset.mp hparts
    refine h.inScope (h.bind (stmts init hinit h) fun _ => h.opening fun header h =>
      h.opening fun inside h => h.opening fun updating h => h.opening fun after h =>
      h.leading <| h.entering ?_)
    have hrest := h.entering (b := inside) <|
      h.bind (block body hbody (h.jump after (some updating))) fun _ =>
      h.leading (b := updating) <| h.entering (b := updating) <|
      h.bind (stmts update hupdate h) fun _ =>
      h.leading (b := header) (h.enter (by simp : after ∈ _))
    cases test? with
    | none => exact h.leading hrest
    | some test => exact h.bind (h.condition htest) fun _ => hrest
  | .switch _ subject cases, hs, h => by
    obtain ⟨hsubject, hcases⟩ := append_subset.mp (cons_subset.mp hs).2
    have hid := hsubject subject.id_mem_labels
    have htests {known : List BlockId} {bodies : List BlockId} (hbodies : bodies ⊆ known) :
        ∀ c ∈ cases.zip bodies,
          c.1.id :: labelsOfOption Expr.labels c.1.test? ⊆ nodes ∧ c.2 ∈ known := fun c hc =>
      ⟨Subset.trans (labels_of_mem_cases (of_mem_zip hc).1) hcases, hbodies (of_mem_zip hc).2⟩
    refine h.bind (h.expr hsubject) fun _ => Constructs.ite (h.bind (h.mayThrow hid) fun _ => h.bind
        (h.emit (cons_subset.mpr ⟨hid, hsubject⟩) rfl) fun _ => ?_) ?_
    all_goals
      refine h.opening fun after h => h.newBlocks fun bodies hbodies hsub h => ?_
      have hafter := hsub mem_cons_self
      refine h.bind (tests hsubject h (htests hbodies)) fun _ =>
        h.leading (h.bind (caseBodies after cases bodies hcases hafter hbodies
          (h.jump after none hafter)) fun _ => h.enter hafter) (mem_cons_of_mem _ ?_)
      cases hfind : (cases.zip bodies).find? fun c => c.1.test?.isNone with
      | none => exact hafter
      | some c => exact hbodies (of_mem_zip (mem_of_find?_eq_some hfind)).2
  | .leave _, _, h => by
    unfold buildStmt
    cases hjump : around.jumps.head? with
    | none => exact h.abandon
    | some jump => exact h.leading h.abandon (mem_cons_of_mem _ (h.leave jump hjump))
  | .next _, _, h => by
    unfold buildStmt
    cases hnext : around.jumps.findSome? Jump.next? with
    | none => exact h.abandon
    | some target => exact h.leading h.abandon (mem_cons_of_mem _ (h.next target hnext))
  | .raise _ value, hs, h => by
    obtain ⟨hid, hvalue⟩ := cons_subset.mp hs
    exact h.bind (h.bind (h.expr hvalue) fun _ => h.pure _) fun _ =>
      h.bind (h.mayThrow hid) fun _ => h.abandon
  | .attempt _ body handlers finalizer?, hs, h => by
    obtain ⟨hbody, hparts⟩ := append_subset.mp (cons_subset.mp hs).2
    obtain ⟨hhandlers, hfinalizer⟩ := append_subset.mp hparts
    exact h.opening fun dispatch h => h.opening fun after h =>
      (h.attempt dispatch).opening fun inside h' => by
        have h := h.mono (subset_cons_self inside _)
        exact h.leading <| h.entering <| h.bind (block body hbody h') fun _ => h.leading <|
          h.bind (handlerBodies after dispatch handlers hhandlers (by simp) (by simp) h) fun _ =>
          h.entering (block? finalizer? hfinalizer h)
  | .block _ body, hs, h => block body (cons_subset.mp hs).2 h

theorem stmts {known : List BlockId} {around : Surroundings} :
    ∀ ss : List (Stmt NodeId), labelsOfStmts ss ⊆ nodes → ConstructsIn P nodes around known →
      P known Unit (buildStmts around ss)
  | [], _, h => h.pure _
  | s :: ss, hs, h => by
    obtain ⟨hfirst, hrest⟩ := append_subset.mp hs
    exact h.bind (stmt s hfirst h) fun _ => stmts ss hrest h

theorem block {known : List BlockId} {around : Surroundings} : ∀ b : Braced NodeId (Stmt NodeId),
    labelsOfBlock b ⊆ nodes → ConstructsIn P nodes around known → P known Unit (buildBlock around b)
  | ⟨_, ss⟩, hs, h => h.inScope (stmts ss (cons_subset.mp hs).2 h)

theorem caseBodies {known : List BlockId} {around : Surroundings} (after : BlockId) :
    ∀ (cases : List (Case NodeId (Stmt NodeId))) (blocks : List BlockId),
      labelsOfCases cases ⊆ nodes → after ∈ known → blocks ⊆ known →
      ConstructsIn P nodes around known → P known Unit (buildCases around after cases blocks)
  | [], _, _, _, _, h | _ :: _, [], _, _, _, h => h.pure _
  | ⟨_, _, body⟩ :: cases, block :: blocks, hs, hafter, hblocks, h => by
    obtain ⟨-, hparts⟩ := append_subset.mp (cons_subset.mp hs).2
    obtain ⟨hbody, hcases⟩ := append_subset.mp hparts
    obtain ⟨hblock, hblocks⟩ := cons_subset.mp hblocks
    refine h.entering (h.bind (h.inScope (stmts body hbody h)) fun _ => h.leading
      (caseBodies after cases blocks hcases hafter hblocks h) (mem_cons_of_mem _ ?_)) hblock
    cases blocks with
    | nil => exact hafter
    | cons next blocks => exact hblocks mem_cons_self

theorem block? {known : List BlockId} {around : Surroundings} :
    ∀ b? : Option (Braced NodeId (Stmt NodeId)), labelsOfBlock? b? ⊆ nodes →
      ConstructsIn P nodes around known → P known Unit (buildBlock? around b?)
  | none, _, h => h.pure _
  | some b, hs, h => block b hs h

theorem handlerBodies {known : List BlockId} {around : Surroundings} (after unmatched : BlockId) :
    ∀ handlers : List (Handler NodeId (Stmt NodeId)), labelsOfHandlers handlers ⊆ nodes →
      after ∈ known → unmatched ∈ known → ConstructsIn P nodes around known →
      P known Unit (buildHandlers around after unmatched handlers)
  | [], _, _, hunmatched, h => by
    unfold buildHandlers
    cases houter : around.handler? with
    | none => exact h.pure _
    | some outer =>
      exact h.entering (h.goto (mem_cons_of_mem _ (h.handler outer houter))) hunmatched
  | ⟨id, _, cls?, body⟩ :: handlers, hs, hafter, hunmatched, h => by
    obtain ⟨hid, hparts⟩ := cons_subset.mp hs
    obtain ⟨hbody, hhandlers⟩ := append_subset.mp (append_subset.mp hparts).2
    have hown := cons_subset.mpr ⟨hid, nil_subset _⟩
    have hcaught {known : List BlockId} (h : ConstructsIn P nodes around known) :
        P known Unit (inScope do
          match ← declaredKey? around.program id with
          | some key =>
            declare key
            emit (.write id key (.caught cls?))
          | none => pure ()
          buildBlock around body) := by
      refine h.inScope (h.bind (h.declaredKey id) fun key? => ?_)
      cases key? with
      | none => exact block body hbody h
      | some key =>
        exact h.bind (h.scope _) fun _ => h.bind (h.emit hown rfl) fun _ => block body hbody h
    refine h.entering (h.opening fun inside h => ?_) hunmatched
    have hafter := mem_cons_of_mem inside hafter
    refine Constructs.ite ?_ (h.leading <| h.entering <| h.bind (hcaught h) fun _ =>
      h.leading (h.pure _) (mem_cons_of_mem _ hafter))
    refine h.opening fun fail h => h.bind (h.branch hown (by simp) (by simp)) fun _ =>
      h.entering <| h.bind (hcaught h) fun _ => h.leading
        (handlerBodies after fail handlers hhandlers (mem_cons_of_mem _ hafter) (by simp) h) ?_
    exact mem_cons_of_mem _ (mem_cons_of_mem _ hafter)

end

end ConstructsIn

end

/-! ### Roots -/

theorem Graph.start_block (root : DeclId) (b : BlockId) : (start root).block b = {} := by
  obtain _ | _ | _ := b <;> rfl

variable {p : Program} {root : DeclId}

theorem Program.graph_inv {g : Graph} (h : p.graph root = .ok g) :
    ∃ st, p.building root { graph := .start root } = .ok ((), st) ∧ st.graph = g := by
  unfold graph at h
  cases hbuild : p.building root { graph := .start root } with
  | error e => rw [hbuild] at h; cases h
  | ok out => rw [hbuild] at h; exact ⟨out.2, rfl, Except.ok.inj h⟩

theorem Program.building_function {f : Function NodeId} (hkind : (p.decl root).kind = .function)
    (hf : p.function? root = some f) : p.building root = buildFunction p f := by
  rw [building, if_pos hkind, hf]
  rfl

section

variable {P : List BlockId → (α : Type) → Build α → Prop} {p : Program} {nodes : List NodeId}
  {known : List BlockId} (h : Constructs P p nodes)

include h

theorem Constructs.params : ∀ params : List (Param NodeId), P known Unit (buildParams p params)
  | [] => h.pure _
  | param :: rest => by
    unfold buildParams
    cases p.declaredAt? param.id with
    | none => exact params rest
    | some d =>
      exact h.bind (h.intern known d) fun _ => h.bind (h.setNodeKey _ _) fun _ =>
        h.bind (h.note (by intro g; rfl) (by intro g; rfl) (by intro g; rfl)) fun _ =>
        params rest

theorem Constructs.function {f : Function NodeId} (hf : f.labels ⊆ nodes) :
    P known Unit (buildFunction p f) := by
  obtain ⟨hid, hparts⟩ := cons_subset.mp hf
  have hbody := (append_subset.mp (append_subset.mp hparts).2).2
  have hinside : ConstructsIn P nodes { program := p } known := ⟨h, by simp, by simp, by simp⟩
  exact h.bind (h.params f.params) fun _ => h.bind (hinside.block? f.body? hbody) fun _ =>
    h.bind (h.emit (cons_subset.mpr ⟨hid, nil_subset _⟩) rfl) fun _ => h.goto mem_cons_self

theorem Constructs.initializers : ∀ items : List (Item NodeId),
    (∀ v, .var v ∈ items → v.labels ⊆ nodes) → P known Unit (buildInitializers p items)
  | [], _ => h.goto mem_cons_self
  | item :: items, hitems => by
    have hrest := initializers items fun v hv => hitems v (mem_cons_of_mem _ hv)
    cases item with
    | var v =>
      refine h.bind (h.declaredKey v.id) fun key? => ?_
      cases key? with
      | none => exact hrest
      | some key =>
        exact h.bind (h.setNodeKey _ _) fun _ => h.bind (h.addNonlocal _) fun _ =>
          h.bind (h.var (hitems v mem_cons_self) key) fun _ => hrest
    | module | cls | function | enum | synonym => exact hrest

end

/-- The property holds of the construction of the graph of a root. -/
theorem Constructs.building {P : List BlockId → (α : Type) → Build α → Prop}
    (h : Constructs P p (p.rootLabels root)) : P [] Unit (p.building root) := by
  unfold Program.rootLabels at h
  unfold Program.building
  split at h
  · next hkind =>
    rw [if_pos hkind]
    cases hf : p.function? root with
    | none => exact h.goto mem_cons_self
    | some f => exact h.function (hf ▸ .refl _)
  · next hkind =>
    rw [if_neg hkind]
    exact h.initializers _ fun v hv n hn => mem_flatMap.mpr ⟨.var v, hv, hn⟩

end TypeFlow
