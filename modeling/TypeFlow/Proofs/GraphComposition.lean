import TypeFlow.Flow.Build
import TypeFlow.Proofs.SourceLabels

/-!
# Composing the construction of graphs

A property that sequences of works share holds of the whole construction of an expression as soon as
it holds of the readings and calls in it.
-/

namespace TypeFlow

open List Build

/-- A property of works that sequences of such works have, too. -/
structure Composes (P : (α : Type) → Build α → Prop) : Prop where
  pure {α : Type} (a : α) : P α (Pure.pure a)
  get : P Building MonadState.get
  bind {α β : Type} {work : Build α} {next : α → Build β} (h : P α work)
    (hnext : ∀ a, P β (next a)) : P β (work >>= next)

namespace Composes

variable {P : (α : Type) → Build α → Prop} (hP : Composes P)

include hP

theorem before_pure {α β : Type} {work : Build α} {f : α → β} (h : P α work) :
    P β (work >>= fun a => Pure.pure (f a)) := hP.bind h fun a => hP.pure (f a)

/-! ### Names -/

section

variable (hintern : ∀ i, P Key (intern i)) (p : Program)

include hintern

theorem variableKey (node : NodeId) : P (Option Key) (variableKey? p node) := by
  unfold variableKey?
  simp only
  split
  · exact hP.pure none
  · exact hP.before_pure (hintern _)

theorem declaredKey (node : NodeId) : P (Option Key) (declaredKey? p node) := by
  unfold declaredKey?
  split
  · exact hP.pure none
  · exact hP.before_pure (hintern _)

theorem key : ∀ e : Expr NodeId, P (Option Key) (keyOf? p e)
  | .ident id _ => hP.variableKey hintern p id
  | .member id object property => by
    unfold keyOf?
    split
    · exact hP.variableKey hintern p id
    · refine hP.bind (key object) fun base? => ?_
      cases base? with
      | none => exact hP.pure none
      | some base =>
        refine hP.bind hP.get fun st => ?_
        simp only
        split
        · exact hP.before_pure (hintern _)
        · exact hP.pure none
  | .literal _ value => hP.before_pure (hintern _)
  | .symbol .. | .self _ | .index .. | .call .. | .create .. | .unary .. | .binary .. | .logical ..
  | .conditional .. | .array .. | .dictionary .. | .cast .. | .instanceOf .. | .has .. =>
    hP.pure none

theorem equality (whole? : Option (Expr NodeId)) (left right : Expr NodeId) (equal : Bool) :
    P Condition (equalsCondition p whole? left right equal) :=
  hP.bind (hP.key hintern p left) fun _ => hP.before_pure (hP.key hintern p right)

theorem condition (test : Expr NodeId) : P Condition (conditionOf p test) := by
  unfold conditionOf
  split
  · exact hP.equality hintern p _ _ _ _
  · exact hP.equality hintern p _ _ _ _
  · exact hP.before_pure (hP.key hintern p _)
  · exact hP.before_pure (hP.key hintern p _)

end

variable {p : Program} {e : Expr NodeId}

theorem trackedKey (hkey : P (Option Key) (keyOf? p e))
    (hset : ∀ key, P Unit (setNodeKey e.id key)) (hnonlocal : ∀ key, P Unit (addNonlocal key)) :
    P (Option Key) (trackedKey? p e) := by
  refine hP.bind hkey fun key? => ?_
  cases key? with
  | none => exact hP.pure none
  | some key =>
    refine hP.bind hP.get fun st => ?_
    simp only
    split
    · refine hP.bind (hset key) fun _ => ?_
      split
      · exact hP.before_pure (hnonlocal key)
      · exact hP.pure _
    · exact hP.pure none

theorem reading (htracked : P (Option Key) (trackedKey? p e))
    (hemit : ∀ key, P Unit (emit (.read e.id key))) : P (Option Key) (readOf p e) := by
  refine hP.bind htracked fun key? => ?_
  cases key? with
  | none => exact hP.pure none
  | some key => exact hP.before_pure (hemit key)

end Composes

/-! ### Expressions -/

/-- The property holds of all readings that are about some nodes, and of calls. -/
structure ReadsIn (P : (α : Type) → Build α → Prop) (p : Program) (nodes : List NodeId) : Prop where
  call : ∀ id callees args, P Unit (addCall id callees args)
  read : ∀ e : Expr NodeId, e.labels ⊆ nodes → P (Option Key) (readOf p e)

/-- The property holds of the readings of an expression and of what is in it. -/
structure ReadsOf (P : (α : Type) → Build α → Prop) (p : Program) (e : Expr NodeId) : Prop where
  root : P (Option Key) (readOf p e)
  parts : ReadsIn P p e.labels.tail

section

variable {P : (α : Type) → Build α → Prop} {p : Program} {few many : List NodeId}

theorem ReadsIn.mono (h : ReadsIn P p many) (hsub : few ⊆ many) : ReadsIn P p few :=
  ⟨h.call, fun e he => h.read e (Subset.trans he hsub)⟩

theorem ReadsIn.reads {e : Expr NodeId} (h : ReadsIn P p many) (hsub : e.labels ⊆ many) :
    ReadsOf P p e :=
  ⟨h.read e hsub, h.mono fun _ hn => hsub (mem_of_mem_tail hn)⟩

end

namespace Composes

variable {P : (α : Type) → Build α → Prop} (hP : Composes P) {p : Program}

include hP

mutual

theorem expr : ∀ e : Expr NodeId, ReadsOf P p e → P Bool (buildExpr p e)
  | .literal .., _ | .symbol .., _ | .self _, _ => hP.pure false
  | .ident .., h => hP.before_pure (hP.before_pure h.root)
  | .member _ object _, h => hP.bind (expr object (h.parts.reads (.refl _))) fun _ =>
    hP.before_pure (hP.before_pure h.root)
  | .index _ object position, h =>
    hP.bind (expr object (h.parts.reads (subset_append_left _ _))) fun _ =>
      hP.before_pure (expr position (h.parts.reads (subset_append_right _ _)))
  | .call id callee args, h => by
    have hargs := exprs args (h.parts.mono (subset_append_right _ _))
    have hrest : P Bool (do
        discard (buildExprs p args)
        addCall id (calleesOf p (p.lookup callee.id)) args
        return true) :=
      hP.bind (hP.before_pure hargs) fun _ => hP.before_pure (h.parts.call _ _ _)
    unfold buildExpr
    cases callee with
    | member calleeId object property =>
      refine hP.bind (hP.before_pure (expr object (h.parts.reads ?_))) fun _ => hrest
      exact Subset.trans (subset_cons_self calleeId _) (subset_append_left _ _)
    | _ => exact hrest
  | .create _ _ args, h =>
    hP.bind (hP.before_pure (exprs args (h.parts.mono (subset_append_right _ _)))) fun _ =>
      hP.before_pure (h.parts.call _ _ _)
  | .unary _ _ operand, h => expr operand (h.parts.reads (.refl _))
  | .binary _ _ left right, h | .logical _ _ left right, h =>
    hP.bind (expr left (h.parts.reads (subset_append_left _ _))) fun _ =>
      hP.before_pure (expr right (h.parts.reads (subset_append_right _ _)))
  | .conditional _ test yes no, h => by
    have hboth := h.parts.mono (subset_append_right _ _)
    exact hP.bind (expr test (h.parts.reads (subset_append_left _ _))) fun _ =>
      hP.bind (expr yes (hboth.reads (subset_append_left _ _))) fun _ =>
        hP.before_pure (expr no (hboth.reads (subset_append_right _ _)))
  | .array _ elements, h => exprs elements h.parts
  | .dictionary _ rows, h => entries rows h.parts
  | .cast _ operand _, h | .instanceOf _ operand _, h =>
    expr operand (h.parts.reads (subset_append_left _ _))
  | .has _ object _, h => expr object (h.parts.reads (.refl _))

theorem exprs : ∀ es : List (Expr NodeId), ReadsIn P p (labelsOfExprs es) → P Bool (buildExprs p es)
  | [], _ => hP.pure false
  | e :: es, h => hP.bind (expr e (h.reads (subset_append_left _ _))) fun _ =>
    hP.before_pure (exprs es (h.mono (subset_append_right _ _)))

theorem entries : ∀ rows : List (Expr NodeId × Expr NodeId),
    ReadsIn P p (labelsOfEntries rows) → P Bool (buildEntries p rows)
  | [], _ => hP.pure false
  | (k, v) :: rows, h => by
    have hrest := h.mono (subset_append_right _ _)
    exact hP.bind (expr k (h.reads (subset_append_left _ _))) fun _ =>
      hP.bind (expr v (hrest.reads (subset_append_left _ _))) fun _ =>
        hP.before_pure (entries rows (hrest.mono (subset_append_right _ _)))

end

theorem target (e : Expr NodeId) (h : ReadsIn P p e.labels.tail) : P Bool (buildTarget p e) := by
  cases e with
  | index _ object position =>
    exact hP.bind (hP.expr object (h.reads (subset_append_left _ _))) fun _ =>
      hP.before_pure (hP.expr position (h.reads (subset_append_right _ _)))
  | member _ object _ => exact hP.expr object (h.reads (.refl _))
  | _ => exact hP.pure false

end Composes

end TypeFlow
