import Mathlib.Data.List.Pairwise
import TypeFlow.Flow.Propagate
import TypeFlow.Proofs.Evaluation
import TypeFlow.Proofs.SourceLabels

/-!
# Where refinements come from

An evaluation refines the types of objects whose members are used. It does so for all parts of an
expression, also for those that are evaluated only if another part comes out true or false. So the
refinements of these guarded parts are among those that hold after the whole expression, and the
others are about parts that are evaluated in any case.
-/

namespace TypeFlow

open Evaluation List

/-! ### Certain and guarded parts -/

namespace Expr

variable {ι : Type}

/-- The parts of an expression that are evaluated whenever it is. -/
def certainParts : Expr ι → List (Expr ι)
  | .literal .. | .symbol .. | .self _ | .ident .. => []
  | .member _ object _ => [object]
  | .index _ object position => [object, position]
  | .call _ callee args => callee :: args
  | .create _ cls args => cls :: args
  | .unary _ _ operand => [operand]
  | .binary _ _ left right => [left, right]
  | .logical _ _ left _ => [left]
  | .conditional _ test _ _ => [test]
  | .array _ elements => elements
  | .dictionary _ entries => entries.flatMap fun e => [e.1, e.2]
  | .cast _ operand _ => [operand]
  | .instanceOf _ operand cls => [operand, cls]
  | .has _ object _ => [object]

/-- The parts of an expression whose evaluation depends on the value of another part. -/
def guardedParts : Expr ι → List (Expr ι)
  | .logical _ _ _ right => [right]
  | .conditional _ _ yes no => [yes, no]
  | _ => []

/-- All parts of an expression. -/
def parts (e : Expr ι) : List (Expr ι) := e.certainParts ++ e.guardedParts

/-- An expression is evaluated whenever the other one is, in which it stands at any depth. -/
inductive Certain (part : Expr ι) : Expr ι → Prop
  | refl : Certain part part
  | inside {child e : Expr ι} (hchild : child ∈ e.certainParts) (h : Certain part child) :
      Certain part e

/-- The evaluation of an expression depends on the value of a part that is evaluated in any case. -/
def Guarded (part e : Expr ι) : Prop := ∃ c : Expr ι, c.Certain e ∧ part ∈ c.guardedParts

variable {part child c g e : Expr ι}

theorem labelsOfExprs_eq (es : List (Expr ι)) : labelsOfExprs es = es.flatMap labels := by
  induction es with
  | nil => rfl
  | cons e es ih => rw [labelsOfExprs, ih, flatMap_cons]

theorem labelsOfEntries_eq (entries : List (Expr ι × Expr ι)) :
    labelsOfEntries entries = (entries.flatMap fun e => [e.1, e.2]).flatMap labels := by
  induction entries with
  | nil => rfl
  | cons e entries ih => simp [labelsOfEntries, ih]

/-- An expression has its own label and those of its parts, each in its place. -/
theorem labels_sublist (e : Expr ι) : (e.id :: e.parts.flatMap labels).Sublist e.labels := by
  cases e with
  | cast id operand spec => simp [parts, certainParts, guardedParts, labels, Expr.id]
  | _ =>
    simp [parts, certainParts, guardedParts, labels, Expr.id, labelsOfExprs_eq, labelsOfEntries_eq]

theorem labels_subset_of_mem (h : part ∈ e.parts) : part.labels ⊆ e.labels := fun _ hn =>
  e.labels_sublist.subset (mem_cons_of_mem _ (mem_flatMap.mpr ⟨part, h, hn⟩))

theorem length_labels_lt (h : part ∈ e.parts) : part.labels.length < e.labels.length := by
  obtain ⟨before, later, hparts⟩ := append_of_mem h
  have hle := e.labels_sublist.length_le
  simp only [hparts, flatMap_append, flatMap_cons, length_cons, length_append] at hle
  omega

/-- What holds of an expression if it holds of its parts holds of all expressions. -/
theorem parts_induction {motive : Expr ι → Prop}
    (h : ∀ e, (∀ part ∈ e.parts, motive part) → motive e) (e : Expr ι) : motive e :=
  h e fun part _ => parts_induction h part
termination_by e.labels.length
decreasing_by exact length_labels_lt ‹_›

theorem mem_parts_of_certain (h : part ∈ e.certainParts) : part ∈ e.parts := mem_append_left _ h

theorem mem_parts_of_guarded (h : part ∈ e.guardedParts) : part ∈ e.parts := mem_append_right _ h

theorem guarded_iff :
    g.Guarded e ↔ g ∈ e.guardedParts ∨ ∃ child ∈ e.certainParts, g.Guarded child := by
  constructor
  · rintro ⟨c, hc, hg⟩
    cases hc with
    | refl => exact .inl hg
    | inside hchild h => exact .inr ⟨_, hchild, c, h, hg⟩
  · rintro (hg | ⟨child, hchild, c, hc, hg⟩)
    · exact ⟨e, .refl, hg⟩
    · exact ⟨c, .inside hchild hc, hg⟩

theorem Certain.labels_subset (h : part.Certain e) : part.labels ⊆ e.labels := by
  induction h with
  | refl => exact .refl _
  | inside hchild _ ih => exact Subset.trans ih (labels_subset_of_mem (mem_parts_of_certain hchild))

section

variable (hnodup : e.labels.Nodup)

include hnodup

theorem id_notMem_of_part (h : part ∈ e.parts) : e.id ∉ part.labels := fun hid =>
  (nodup_cons.mp (hnodup.sublist e.labels_sublist)).1 (mem_flatMap.mpr ⟨part, h, hid⟩)

theorem nodup_labels_parts : (∀ part ∈ e.parts, part.labels.Nodup) ∧
      e.parts.Pairwise fun p q => p.labels.Disjoint q.labels :=
  nodup_flatMap.mp (nodup_cons.mp (hnodup.sublist e.labels_sublist)).2

/-- With different labels for all of its parts, no label of an expression that is evaluated in any
case stands in a guarded one. -/
theorem Certain.id_notMem (hpart : part.Certain e) (hc : c.Certain e) (hg : g ∈ c.guardedParts) :
    part.id ∉ g.labels := by
  induction hc generalizing part with
  | refl =>
    cases hpart with
    | refl => exact id_notMem_of_part hnodup (mem_parts_of_guarded hg)
    | inside hchild h =>
      have hdisjoint := (pairwise_append.mp (nodup_labels_parts hnodup).2).2.2 _ hchild g hg
      exact fun hid => hdisjoint (h.labels_subset (id_mem_labels _)) hid
  | @inside child e hchild h ih =>
    have hchild' := mem_parts_of_certain hchild
    have hguarded := Subset.trans (labels_subset_of_mem (mem_parts_of_guarded hg)) h.labels_subset
    obtain ⟨hnodups, hpairwise⟩ := nodup_labels_parts hnodup
    cases hpart with
    | refl => exact fun hid => id_notMem_of_part hnodup hchild' (hguarded hid)
    | @inside other _ hother hinside =>
      by_cases heq : other = child
      · exact ih (hnodups child hchild') (heq ▸ hinside)
      · have hsymm : Std.Symm fun p q : Expr ι => p.labels.Disjoint q.labels :=
          ⟨fun _ _ => List.disjoint_comm.mp⟩
        have hdisjoint := hpairwise.forall (mem_parts_of_certain hother) hchild' heq
        exact fun hid => hdisjoint (hinside.labels_subset (id_mem_labels _)) (hguarded hid)

end

end Expr

/-! ### What an evaluation leaves behind -/

namespace Mark

/-- What a step leaves behind gives types to some nodes only, and refines some nodes only. -/
def In (nodes : List NodeId) : Mark → Prop
  | .node n _ | .refine n _ => n ∈ nodes
  | _ => True

/-- What two steps leave behind looks the same afterwards: types of one node, or the same refinement
or call. -/
def Alike : Mark → Mark → Prop
  | .node n _, .node n' _ => n' = n
  | .refine n t, .refine n' t' => n' = n ∧ t' = t
  | .call n callees?, .call n' callees?' => n' = n ∧ callees?' = callees?
  | _, _ => False

variable {nodes nodes' : List NodeId} {m m' : Mark}

theorem In.mono (h : m.In nodes) (hsub : nodes ⊆ nodes') : m.In nodes' := by
  cases m with
  | node | refine => exact hsub h
  | _ => trivial

theorem In.alike (h : m.In nodes) (halike : m.Alike m') : m'.In nodes := by
  cases m <;> cases m' <;> simp_all [Alike, In]

end Mark

namespace Evaluation

/-- A state that records, before anything is left behind. -/
abbrev blank : Evaluation := { record := { recording := true } }

/-- What a step leaves behind can be seen in a state: a type of a node, at least while recording, a
refinement or a call. -/
def Shows (s : Evaluation) : Mark → Prop
  | .node n _ => s.record.recording → (s.record.nodeTypes.get? n).isSome
  | .refine n t => (n, t) ∈ s.refinements
  | .call n callees? => (n, callees?) ∈ s.calls
  | _ => False

variable {s : Evaluation} {m m' : Mark} {log : List Mark}

theorem shows_mark : (s.mark m).Shows m' ↔ s.Shows m' ∨ m.Alike m' := by
  cases m with
  | node n t =>
    cases m' with
    | node n' t' =>
      cases hs : s.record.recording <;> by_cases hn : n' = n <;>
        simp [mark, Shows, Mark.Alike, Record.node, hs, hn]
    | _ => simp [mark, Shows, Mark.Alike]
  | diagnose n message =>
    have hdiagnose : (s.record.diagnose n message).recording = s.record.recording ∧
        (s.record.diagnose n message).nodeTypes = s.record.nodeTypes := by
      unfold Record.diagnose
      split
      · split <;> exact ⟨rfl, rfl⟩
      · exact ⟨rfl, rfl⟩
    cases m' <;> simp [mark, Shows, Mark.Alike, hdiagnose]
  | _ => cases m' <;> simp [mark, Shows, Mark.Alike, Record.note]

/-- What can be seen was there before or has been left behind. -/
theorem shows_foldl_mark : (log.foldl mark s).Shows m' ↔ s.Shows m' ∨ ∃ m ∈ log, m.Alike m' := by
  induction log generalizing s with
  | nil => simp
  | cons m log ih => rw [foldl_cons, ih, shows_mark]; simp [or_assoc]

/-- Only the record of an evaluation depends on the record that it starts from. -/
theorem foldl_mark (log : List Mark) (s : Evaluation) (r : Record) :
    log.foldl mark { s with record := r } =
      { log.foldl mark s with record := log.foldl .mark r } := by
  induction log generalizing s r with
  | nil => rfl
  | cons m log ih =>
    have hm : mark { s with record := r } m = { s.mark m with record := r.mark m } := by
      cases m <;> rfl
    rw [foldl_cons, hm]
    exact ih (s.mark m) (r.mark m)

theorem not_blank_shows : ¬blank.Shows m := by
  cases m <;> simp [Shows, show ∀ n, (∅ : NumMap Ty).get? n = none from fun _ => rfl]

end Evaluation

/-- What an evaluation gives when it leaves behind the given entries. -/
def Pass.evaluated (ty : Ty) (log : List Mark) : Evaluated :=
  let s := log.foldl mark { record := {} }
  ⟨ty, s.sideEffects, s.mayThrow, s.refinements, s.calls⟩

theorem Pass.evaluate_of_run {ctx : Context} {env : TypeEnv} {e : Expr NodeId} {t : Ty}
    {log : List Mark}
    (hrun : ∀ s, (ctx.evalExpr env e).run s = (t, log.foldl .mark s)) (record : Record) :
    ctx.evaluate env record e = (evaluated t log, log.foldl .mark record) := by
  simp only [Context.evaluate, hrun, foldl_mark log { record := {} } record]
  rfl

namespace Context

variable (ctx : Context) (env : TypeEnv)

/-- The evaluation of an expression leaves something behind. -/
def Leaves (e : Expr NodeId) (m : Mark) : Prop := ((ctx.evalExpr env e).run .blank).2.Shows m

/-- An evaluation gives the same and leaves the same behind whatever state it starts from. -/
theorem evalExpr_log (e : Expr NodeId) : ∃ (t : Ty) (log : List Mark),
    ∀ s, (ctx.evalExpr env e).run s = (t, log.foldl .mark s) := by
  have htracks : ctx.Tracks False ctx.facts (Ty.Formed False)
      (ctx.evalExpr env e) ((ctx.withFacts ctx.facts { visits := 0 }).evalExpr env e) :=
    evalExpr_tracks ⟨ctx.formed_of_nothing, fun _ _ _ h => h, fun _ t _ => .of_nothing t⟩ e
  obtain ⟨t, log, -, -, hrun, -⟩ := htracks
  exact ⟨t, log, hrun⟩

variable (record : Record)

theorem evaluate_fst (e : Expr NodeId) :
    (ctx.evaluate env record e).1 = (ctx.evaluate env Evaluation.blank.record e).1 := by
  obtain ⟨t, log, hrun⟩ := ctx.evalExpr_log env e
  rw [Pass.evaluate_of_run hrun, Pass.evaluate_of_run hrun]

/-- The work leaves behind what the evaluations of some expressions leave behind, and calls at some
nodes. All else that it leaves behind is about some nodes only. -/
structure Gathers {α : Type} (parts : List (Expr NodeId)) (calls nodes : List NodeId)
    (work : Evaluating α) : Prop where
  kept {s : Evaluation} {m : Mark} : s.Shows m → (work.run s).2.Shows m
  gained (s : Evaluation) {m : Mark} :
    ∀ part ∈ parts, ctx.Leaves env part m → (work.run s).2.Shows m
  called (s : Evaluation) : ∀ n ∈ calls, ∃ callees?, (n, callees?) ∈ (work.run s).2.calls
  added {s : Evaluation} {m : Mark} : (work.run s).2.Shows m →
    s.Shows m ∨ m.In nodes ∨ ∃ part ∈ parts, ctx.Leaves env part m

variable {ctx env}

theorem allows_in (nodes : List NodeId) : ctx.Allows False (Mark.In nodes) :=
  { ctx.formed_of_nothing with
    note := fun _ _ _ => trivial
    diagnose := fun _ _ => trivial
    mayThrowIf := fun _ => trivial
    call := fun _ _ => trivial }

theorem lacksConstants_self : ctx.LacksConstants ctx.facts := fun _ _ _ h => h

namespace Gathers

variable {α β : Type} {first second : List (Expr NodeId)} {calls calls' nodes : List NodeId}
  {work : Evaluating α} {next : α → Evaluating β} {Q : α → Prop}

theorem of_marks {work' : Evaluating α} (h : ctx.Marks (Mark.In nodes) ctx.facts Q work work') :
    ctx.Gathers env [] [] nodes work := by
  obtain ⟨a, log, -, hlog, hrun, -⟩ := h
  refine ⟨fun {s m} h => ?_, by simp, by simp, fun {s m} h => ?_⟩
  · rw [hrun]
    exact shows_foldl_mark.mpr (.inl h)
  · rw [hrun] at h
    refine (shows_foldl_mark.mp h).imp_right ?_
    rintro ⟨m', hm', halike⟩
    exact .inl ((hlog m' hm').alike halike)

theorem of_marked {work : Context → Evaluating α}
    (h : ctx.Marked (Mark.In nodes) ctx.facts { visits := 0 } Q work) :
    ctx.Gathers env [] [] nodes (work ctx) := of_marks h

theorem pure (a : α) : ctx.Gathers env [] [] nodes (Pure.pure a) :=
  of_marks (.pure (Q := fun _ => True) trivial)

theorem evalExpr (e : Expr NodeId) : ctx.Gathers env [e] [] nodes (ctx.evalExpr env e) := by
  obtain ⟨t, log, hrun⟩ := ctx.evalExpr_log env e
  have hshows (s : Evaluation) (m : Mark) :
      ((ctx.evalExpr env e).run s).2.Shows m ↔ s.Shows m ∨ ctx.Leaves env e m := by
    rw [Leaves, hrun, hrun, shows_foldl_mark, shows_foldl_mark, or_iff_right not_blank_shows]
  refine ⟨fun {s m} h => (hshows s m).mpr (.inl h), fun s m => ?_, by simp, fun {s m} h => ?_⟩
  · simpa using fun h => (hshows s m).mpr (.inr h)
  · exact ((hshows s m).mp h).imp_right fun h => .inr ⟨e, mem_singleton_self e, h⟩

theorem bind (h : ctx.Gathers env first calls nodes work)
    (hnext : ∀ a, ctx.Gathers env second calls' nodes (next a)) :
    ctx.Gathers env (first ++ second) (calls ++ calls') nodes (work >>= next) where
  kept hs := (hnext _).kept (h.kept hs)
  gained s m := forall_mem_append.mpr
    ⟨fun part hpart hm => (hnext _).kept (h.gained s part hpart hm), (hnext _).gained _⟩
  called s := forall_mem_append.mpr ⟨fun n hn => by
    obtain ⟨callees?, hcall⟩ := h.called s n hn
    exact ⟨callees?, (hnext _).kept (m := .call n callees?) hcall⟩, (hnext _).called _⟩
  added {s m} hm := by
    rcases (hnext _).added hm with hm | hm | ⟨part, hpart, hm⟩
    · rcases h.added hm with hm | hm | ⟨part, hpart, hm⟩
      · exact .inl hm
      · exact .inr (.inl hm)
      · exact .inr (.inr ⟨part, mem_append_left _ hpart, hm⟩)
    · exact .inr (.inl hm)
    · exact .inr (.inr ⟨part, mem_append_right _ hpart, hm⟩)

/-- No expression is evaluated last. -/
theorem followed (h : ctx.Gathers env first calls nodes work)
    (hnext : ∀ a, ctx.Gathers env [] calls' nodes (next a)) :
    ctx.Gathers env first (calls ++ calls') nodes (work >>= next) :=
  append_nil first ▸ h.bind hnext

theorem recorded {id : NodeId} {work : Evaluating Ty} (h : ctx.Gathers env first calls nodes work)
    (hid : id ∈ nodes) : ctx.Gathers env first calls nodes (Context.recorded id work) :=
  append_nil calls ▸ h.followed fun _ =>
    (of_marks (Mark.traced (.node ..) hid)).bind fun _ => .pure _

theorem evalExprs (es : List (Expr NodeId)) :
    ctx.Gathers env es [] nodes (ctx.evalExprs env es) := by
  induction es with
  | nil => exact .pure _
  | cons e es ih => exact (evalExpr e).bind fun _ => ih.followed fun _ => .pure _

theorem evalEntries (key value : Ty) (entries : List (Expr NodeId × Expr NodeId)) :
    ctx.Gathers env (entries.flatMap fun e => [e.1, e.2]) [] nodes
      (ctx.evalEntries env key value entries) := by
  induction entries generalizing key value with
  | nil => exact .pure _
  | cons e entries ih => exact (evalExpr e.1).bind fun _ => (evalExpr e.2).bind fun _ => ih _ _

variable (id : NodeId)

theorem identType : ctx.Gathers env [] [] nodes (ctx.identType env id) :=
  of_marked (identType_tracks (allows_in nodes) lacksConstants_self (fun _ t _ => .of_nothing t) id)

theorem memberType {objectId : NodeId} (hobject : objectId ∈ nodes) (object : Ty)
    (property : String) :
    ctx.Gathers env [] [] nodes (ctx.memberType env id objectId object property) :=
  of_marked (memberType_tracks (allows_in nodes) lacksConstants_self (fun _ t _ => .of_nothing t) id
    (fun _ _ => hobject) (.of_nothing object) property)

theorem callValue {receiver? : Option (NodeId × Ty)}
    (hreceiver : ∀ r, receiver? = some r → r.1 ∈ nodes) (args : List Ty) (callee : Ty) :
    ctx.Gathers env [] [id] nodes (ctx.callValue id receiver? args callee) :=
  { of_marked (callValue_tracks (allows_in nodes) id
      (fun r hr => ⟨.of_nothing _, fun _ _ => hreceiver r hr⟩) (fun t _ => .of_nothing t)
      (.of_nothing callee)) with
    called := fun _ => forall_mem_singleton.mpr ⟨_, mem_append_right _ (mem_singleton_self _)⟩ }

theorem createObject (cls : Ty) (args : List Ty) :
    ctx.Gathers env [] [id] nodes (ctx.createObject id cls args) := by
  refine { of_marked (createObject_tracks (allows_in nodes) id (.of_nothing cls) args) with
    called := fun s => forall_mem_singleton.mpr ?_ }
  unfold Context.createObject
  split <;> exact ⟨_, mem_append_right _ (mem_singleton_self _)⟩

end Gathers

/-- The nodes of an expression itself and of the object whose member it uses. -/
def ownNodes : Expr NodeId → List NodeId
  | .member id object _ | .call id (.member _ object _) _ => [id, object.id]
  | e => [e.id]

/-- The node of a call. -/
def ownCalls : Expr NodeId → List NodeId
  | .call id _ _ | .create id _ _ => [id]
  | _ => []

theorem exists_certain_of_ownNodes {e : Expr NodeId} {n : NodeId} (h : n ∈ ownNodes e) :
    ∃ part : Expr NodeId, part.Certain e ∧ n = part.id := by
  unfold ownNodes at h
  split at h
  · next id object property =>
    rcases mem_pair.mp h with rfl | rfl
    · exact ⟨_, .refl, rfl⟩
    · exact ⟨object, .inside mem_cons_self .refl, rfl⟩
  · next id calleeId object property args =>
    rcases mem_pair.mp h with rfl | rfl
    · exact ⟨_, .refl, rfl⟩
    · exact ⟨object, .inside mem_cons_self (.inside mem_cons_self .refl), rfl⟩
  · exact ⟨e, .refl, mem_singleton.mp h⟩

/-- A method is looked up like a member of its object. -/
theorem gathers_method {α : Type} (calleeId : NodeId) (object : Expr NodeId) (property : String)
    {others : List (Expr NodeId)} {calls nodes : List NodeId}
    {rest : Ty → Ty × Option Ty → Evaluating α}
    (hrest : ∀ t access, ctx.Gathers env others calls nodes (rest t access)) :
    ctx.Gathers env ([.member calleeId object property] ++ others) calls nodes (do
      let t ← ctx.evalExpr env object
      let access ← ctx.memberType env calleeId object.id t property
      Evaluating.node calleeId access.1
      rest t access) := by
  have hcallee : ctx.Gathers env [.member calleeId object property] [] nodes
      (ctx.evalExpr env (.member calleeId object property)) := .evalExpr _
  have hmethod : ctx.Gathers env [.member calleeId object property] [] nodes (do
      let t ← ctx.evalExpr env object
      let access ← ctx.memberType env calleeId object.id t property
      Evaluating.node calleeId access.1
      return (t, access)) := ⟨hcallee.kept, hcallee.gained, hcallee.called, hcallee.added⟩
  exact hmethod.bind fun found => hrest found.1 found.2

/-- An evaluation gathers what the evaluations of all parts of its expression leave behind. -/
theorem gathers_parts (e : Expr NodeId) :
    ctx.Gathers env e.parts (ownCalls e) (ownNodes e) (ctx.evalExpr env e) := by
  have hid : e.id ∈ ownNodes e := by
    unfold ownNodes
    split <;> exact mem_cons_self
  cases e with
  | literal | symbol | self => exact .recorded (.pure _) hid
  | ident id _ => exact .recorded (.identType id) hid
  | member id object property =>
    exact .recorded ((Gathers.evalExpr object).followed fun t =>
      (Gathers.memberType id (by simp [ownNodes]) t property).followed fun _ => .pure _) hid
  | index id object position =>
    exact .recorded ((Gathers.evalExpr object).bind fun _ => (Gathers.evalExpr position).followed
      fun _ => (Gathers.of_marks (Mark.traced (.mayThrowIf _) trivial)).followed fun _ => .pure _)
      hid
  | call id callee args =>
    rw [show (Expr.call id callee args).parts = [callee] ++ args from append_nil _]
    have hplain {nodes : List NodeId} (hid : id ∈ nodes) :
        ctx.Gathers env ([callee] ++ args) [id] nodes (recorded id do
          let t ← ctx.evalExpr env callee
          let types ← ctx.evalExprs env args
          ctx.callValue id none types t) :=
      .recorded ((Gathers.evalExpr callee).bind fun t => (Gathers.evalExprs args).followed
        fun types => .callValue id (by simp) types t) hid
    cases callee with
    | member calleeId object property =>
      exact .recorded (gathers_method calleeId object property fun t access =>
        (Gathers.evalExprs args).followed fun types =>
          .callValue id (by simp [ownNodes]) types access.1) hid
    | _ => exact hplain hid
  | create id cls args =>
    rw [show (Expr.create id cls args).parts = [cls] ++ args from append_nil _]
    exact .recorded ((Gathers.evalExpr cls).bind fun t => (Gathers.evalExprs args).followed
      fun types => .createObject id t types) hid
  | unary id _ operand => exact .recorded ((Gathers.evalExpr operand).followed fun _ => .pure _) hid
  | binary id op left right =>
    exact .recorded ((Gathers.evalExpr left).bind fun l =>
      (Gathers.evalExpr right).followed fun r =>
        .of_marked (binaryType_tracks (allows_in _) id op l r)) hid
  | logical id _ left right =>
    exact .recorded ((Gathers.evalExpr left).bind fun _ =>
      (Gathers.evalExpr right).followed fun _ => .pure _) hid
  | conditional id test yes no =>
    refine .recorded ((Gathers.evalExpr test).bind fun t => (Gathers.evalExpr yes).bind fun _ =>
      (Gathers.evalExpr no).followed fun _ => ?_) hid
    split <;> exact .pure _
  | array id elements =>
    rw [show (Expr.array id elements).parts = elements from append_nil _]
    exact .recorded ((Gathers.evalExprs elements).followed fun _ => .pure _) hid
  | dictionary id entries =>
    rw [show (Expr.dictionary id entries).parts = entries.flatMap fun e => [e.1, e.2] from
      append_nil _]
    exact .recorded ((Gathers.evalEntries _ _ entries).followed fun _ => .pure _) hid
  | cast id operand spec =>
    exact .recorded ((Gathers.evalExpr operand).followed fun t =>
      .of_marked (castType_tracks (allows_in _) id (.of_nothing t) (.of_nothing _))) hid
  | instanceOf id operand cls =>
    exact .recorded ((Gathers.evalExpr operand).bind fun _ =>
      (Gathers.evalExpr cls).followed fun _ => .pure _) hid
  | has id object _ => exact .recorded ((Gathers.evalExpr object).followed fun _ => .pure _) hid

variable {e part : Expr NodeId} {m : Mark}

theorem leaves_of_part (h : part ∈ e.parts) (hm : ctx.Leaves env part m) : ctx.Leaves env e m :=
  (gathers_parts e).gained .blank part h hm

/-- What is left behind comes from a part, or it is about the expression itself or about an object
whose member it uses. -/
theorem own_or_part (hm : ctx.Leaves env e m) :
    m.In (ownNodes e) ∨ ∃ part ∈ e.parts, ctx.Leaves env part m :=
  ((gathers_parts e).added hm).resolve_left not_blank_shows

theorem leaves_of_certain (h : part.Certain e) (hm : ctx.Leaves env part m) :
    ctx.Leaves env e m := by
  induction h with
  | refl => exact hm
  | inside hchild _ ih => exact leaves_of_part (Expr.mem_parts_of_certain hchild) ih

/-- An expression leaves behind types and refinements of what it contains only. -/
theorem Leaves.in_labels (hm : ctx.Leaves env e m) : m.In e.labels := by
  induction e using Expr.parts_induction with
  | h e ih =>
    rcases own_or_part hm with hown | ⟨part, hpart, hm⟩
    · refine hown.mono fun n hn => ?_
      obtain ⟨part, hpart, rfl⟩ := exists_certain_of_ownNodes hn
      exact hpart.labels_subset part.id_mem_labels
    · exact (ih part hpart hm).mono (Expr.labels_subset_of_mem hpart)

theorem in_labels_of_run {t : Ty} {log : List Mark}
    (hrun : ∀ s, (ctx.evalExpr env e).run s = (t, log.foldl .mark s)) :
    ∀ m ∈ log, m.In e.labels := by
  intro m hm
  have hleaves (halike : m.Alike m) : ctx.Leaves env e m := by
    rw [Leaves, hrun]
    exact shows_foldl_mark.mpr (.inr ⟨m, hm, halike⟩)
  cases m with
  | node n t => exact (hleaves rfl).in_labels
  | refine n t => exact (hleaves ⟨rfl, rfl⟩).in_labels
  | _ => trivial

/-- The refinements that the evaluation of an expression gives. -/
def refinementsOf (ctx : Context) (env : TypeEnv) (e : Expr NodeId) : List (NodeId × Ty) :=
  (ctx.evaluate env Evaluation.blank.record e).1.refinements

theorem evaluate_refinements (e : Expr NodeId) :
    (ctx.evaluate env record e).1.refinements = ctx.refinementsOf env e :=
  congrArg Evaluated.refinements (ctx.evaluate_fst env record e)

variable {r : NodeId × Ty}

theorem leaves_refine_iff : ctx.Leaves env e (.refine r.1 r.2) ↔ r ∈ ctx.refinementsOf env e := .rfl

theorem refinementsOf_guarded (h : part.Guarded e) :
    ctx.refinementsOf env part ⊆ ctx.refinementsOf env e := by
  obtain ⟨c, hc, hpart⟩ := h
  exact fun r hr => leaves_refine_iff.mp (leaves_of_certain hc
    (leaves_of_part (Expr.mem_parts_of_guarded hpart) (leaves_refine_iff.mpr hr)))

theorem refinementsOf_labels (hr : r ∈ ctx.refinementsOf env e) : r.1 ∈ e.labels :=
  (leaves_refine_iff.mpr hr).in_labels

/-- A refinement is about a part that is evaluated in any case, or it comes from a guarded part. -/
theorem certain_or_guarded (hr : r ∈ ctx.refinementsOf env e) :
    (∃ part : Expr NodeId, part.Certain e ∧ r.1 = part.id) ∨
      ∃ g : Expr NodeId, g.Guarded e ∧ r ∈ ctx.refinementsOf env g := by
  induction e using Expr.parts_induction with
  | h e ih =>
    rcases own_or_part (leaves_refine_iff.mpr hr) with hown | ⟨part, hpart, hr⟩
    · exact .inl (exists_certain_of_ownNodes hown)
    rcases mem_append.mp hpart with hcertain | hguarded
    · refine (ih part hpart hr).imp ?_ ?_
      · rintro ⟨p, hp, hid⟩
        exact ⟨p, .inside hcertain hp, hid⟩
      · rintro ⟨g, hg, hr⟩
        exact ⟨g, Expr.guarded_iff.mpr (.inr ⟨part, hcertain, hg⟩), hr⟩
    · exact .inr ⟨part, Expr.guarded_iff.mpr (.inl hguarded), hr⟩

end Context

open Context in
/-- An evaluation gives all refinements of the guarded parts of its expression. All others are about
parts that are evaluated in any case. So an expression whose nodes are different refines only what
is evaluated in any case if and only if its guarded parts refine nothing. -/
theorem refinements_certain_or_guarded (ctx : Context) (env : TypeEnv) (record : Record)
    (e : Expr NodeId) :
    let refinements (e : Expr NodeId) := (ctx.evaluate env record e).1.refinements
    (∀ r ∈ refinements e, (∃ part : Expr NodeId, part.Certain e ∧ r.1 = part.id) ∨
      ∃ g : Expr NodeId, g.Guarded e ∧ r ∈ refinements g) ∧
    (∀ g : Expr NodeId, g.Guarded e → refinements g ⊆ refinements e) ∧
    (e.labels.Nodup → ((∀ r ∈ refinements e, ∃ part : Expr NodeId, part.Certain e ∧ r.1 = part.id) ↔
        ∀ g : Expr NodeId, g.Guarded e → refinements g = [])) := by
  simp only [evaluate_refinements]
  refine ⟨fun r => certain_or_guarded, fun g => refinementsOf_guarded, fun hnodup => ⟨?_, ?_⟩⟩
  · intro hcertain g hg
    refine List.eq_nil_iff_forall_not_mem.mpr fun r hr => ?_
    obtain ⟨part, hpart, hid⟩ := hcertain r (refinementsOf_guarded hg hr)
    obtain ⟨c, hc, hguarded⟩ := hg
    exact hpart.id_notMem hnodup hc hguarded (hid ▸ refinementsOf_labels hr)
  · intro hguarded r hr
    refine (certain_or_guarded hr).resolve_right ?_
    rintro ⟨g, hg, hr⟩
    simp [hguarded g hg] at hr

/-- Two tests of a flag and of a member of an object that may be absent, in both orders. -/
def chained : Source :=
  .ofItems [.cls () "C" none [.ofVar "v" (TypeSpec.ofNames ["Number"])],
    .ofVar "flag" (TypeSpec.ofNames ["Boolean"]), .ofVar "x" (TypeSpec.ofNames ["C", "Null"]),
    .ofBody "f" [
      .ret () (some (.logical () .and (.ident () "flag") (.member () (.ident () "x") "v"))),
      .ret () (some (.logical () .and (.member () (.ident () "x") "v") (.ident () "flag")))]]

/-- What evaluations in the function see. -/
def chainedContext : Context := { program := chained.program, config := {}, facts := {}, root := 5 }

/-- Behind the test of the member nothing is refined, so the object is refined for certain. -/
theorem refinements_certain_or_guarded_chained :
    let e : Expr NodeId := .logical 20 .and (.member 21 (.ident 22 "x") "v") (.ident 23 "flag")
    let refinements := (chainedContext.evaluate (fun _ => none) {} e).1.refinements
    e.labels.Nodup ∧ refinements = [(22, Ty.object (DeclSet.one 1))] ∧
      ∀ r ∈ refinements, ∃ part : Expr NodeId, part.Certain e ∧ r.1 = part.id := by
  intro e refinements
  have hnodup : e.labels.Nodup := by decide
  have hguarded (g : Expr NodeId) (hg : g.Guarded e) :
      (chainedContext.evaluate (fun _ => none) {} g).1.refinements = [] := by
    have hobject : ¬g.Guarded (.ident 22 "x") := by
      rw [Expr.guarded_iff]
      simp [Expr.guardedParts, Expr.certainParts]
    have hmember : ¬g.Guarded (.member 21 (.ident 22 "x") "v") := by
      rw [Expr.guarded_iff]
      simpa [Expr.guardedParts, Expr.certainParts] using hobject
    rw [Expr.guarded_iff] at hg
    obtain rfl : g = .ident 23 "flag" := by
      simpa [e, Expr.guardedParts, Expr.certainParts, hmember] using hg
    decide +kernel
  obtain ⟨-, -, hiff⟩ := refinements_certain_or_guarded chainedContext (fun _ => none) {} e
  exact ⟨hnodup, by decide +kernel, (hiff hnodup).mpr hguarded⟩

/-- The object behind the test of the flag is refined too, although it may not be looked at. -/
theorem refinements_uncertain_chained :
    let e : Expr NodeId := .logical 15 .and (.ident 16 "flag") (.member 17 (.ident 18 "x") "v")
    chained.program.lookup 18 = [4] ∧ (18, Ty.object (DeclSet.one 1)) ∈
        (chainedContext.evaluate (fun _ => none) {} e).1.refinements ∧
      ¬∃ part : Expr NodeId, part.Certain e ∧ 18 = part.id := by
  intro e
  refine ⟨by decide +kernel, by decide +kernel, ?_⟩
  rintro ⟨part, hpart, hid⟩
  exact hpart.id_notMem (by decide) .refl (List.mem_singleton_self _) (hid ▸ by decide)

end TypeFlow
