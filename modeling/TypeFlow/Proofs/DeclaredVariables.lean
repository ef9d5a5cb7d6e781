import TypeFlow.Proofs.ProgramDeclarations
import TypeFlow.Proofs.SourceLabels

/-!
# Variables are declared

Every variable of a function has a declaration once names are resolved, however deep its statement
stands in the body.
-/

namespace TypeFlow

open List Option Stmt

/-! ### Statements inside statements -/

section

variable {ι : Type}

/-- The statements that stand directly inside a statement. -/
def Stmt.children : Stmt ι → List (Stmt ι)
  | .branch _ _ yes no? => yes.stmts ++ no?.elim [] Braced.stmts
  | .whileLoop _ _ body | .doLoop _ body _ => body.stmts
  | .forLoop _ init _ update body => init ++ (update ++ body.stmts)
  | .switch _ _ cases => cases.flatMap Case.body
  | .attempt _ body handlers finalizer? =>
    body.stmts ++ (handlers.flatMap (fun handler => handler.body.stmts) ++
      finalizer?.elim [] Braced.stmts)
  | .block _ body => body.stmts
  | _ => []

mutual

theorem Stmt.vars_subset : ∀ s : Stmt ι, s.vars ⊆ s.labels
  | .var _ v => by simp [vars, labels, VarDecl.labels]
  | .expr .. | .assign .. | .ret .. | .leave _ | .next _ | .raise .. => nil_subset _
  | .branch _ _ yes no? => by grind [vars, labels, varsOfBlock_subset yes, varsOfBlock?_subset no?]
  | .whileLoop _ _ body | .doLoop _ body _ | .block _ body => by
    grind [vars, labels, varsOfBlock_subset body]
  | .forLoop _ init _ update body => by
    grind [vars, labels, varsOfStmts_subset init, varsOfBlock_subset body,
      varsOfStmts_subset update]
  | .switch _ _ cases => by grind [vars, labels, varsOfCases_subset cases]
  | .attempt _ body handlers finalizer? => by
    grind [vars, labels, varsOfBlock_subset body, varsOfHandlers_subset handlers,
      varsOfBlock?_subset finalizer?]

theorem varsOfStmts_subset : ∀ ss : List (Stmt ι), varsOfStmts ss ⊆ labelsOfStmts ss
  | [] => nil_subset _
  | s :: ss => by grind [varsOfStmts, labelsOfStmts, s.vars_subset, varsOfStmts_subset ss]

theorem varsOfBlock_subset : ∀ b : Braced ι (Stmt ι), varsOfBlock b ⊆ labelsOfBlock b
  | ⟨_, stmts⟩ => subset_cons_of_subset _ (varsOfStmts_subset stmts)

theorem varsOfBlock?_subset : ∀ b? : Option (Braced ι (Stmt ι)), varsOfBlock? b? ⊆ labelsOfBlock? b?
  | none => nil_subset _
  | some b => varsOfBlock_subset b

theorem varsOfCases_subset : ∀ cases : List (Case ι (Stmt ι)),
    varsOfCases cases ⊆ labelsOfCases cases
  | [] => nil_subset _
  | ⟨_, _, body⟩ :: cases => by
    grind [varsOfCases, labelsOfCases, varsOfStmts_subset body, varsOfCases_subset cases]

theorem varsOfHandlers_subset : ∀ handlers : List (Handler ι (Stmt ι)),
    varsOfHandlers handlers ⊆ labelsOfHandlers handlers
  | [] => nil_subset _
  | ⟨_, _, _, body⟩ :: handlers => by
    grind [varsOfHandlers, labelsOfHandlers, varsOfBlock_subset body,
      varsOfHandlers_subset handlers]

end

end

variable {n : NodeId} {f : Function NodeId}

/-- A walk over items comes to everything in them. -/
theorem declares_items {items : List (Item NodeId)} {path : List Nat}
    (hf : ∀ site, Declares n (resolveFunction site f)) (h : itemAt? items path = some (.function f))
    (scope : DeclId) : Declares n (resolveItems scope items) := by
  have hmem {items : List (Item NodeId)} {i : Nat} {item : Item NodeId} (hi : items[i]? = some item)
      (hitem : ∀ scope, Declares n (resolveItem scope item)) (scope : DeclId) :
      Declares n (resolveItems scope items) := by
    induction items generalizing i with
    | nil => simp at hi
    | cons x xs ih =>
      cases i with
      | zero =>
        obtain rfl : x = item := by simpa using hi
        exact (hitem scope).bind fun _ => resolveItems_extends scope xs
      | succ i => exact .after (resolveItem_extends scope x) fun _ => ih (by simpa using hi)
  fun_induction itemAt? items path generalizing scope with
  | case1 => simp at h
  | case2 items i => exact hmem h (fun scope => hf { scope }) scope
  | case3 items i rest hrest ih =>
    obtain ⟨outer, houter, h⟩ := bind_eq_some_iff.mp h
    refine hmem houter (fun scope => ?_) scope
    cases outer with
    | module id name inner | cls id name extends? inner =>
      exact .after (declaredAt_extends id) fun d => ih _ h d
    | function | var | enum | synonym => simp [Item.items, itemAt?_nil] at h

/-- Every variable in the body of a function of a program has a declaration. -/
theorem Source.program_declaredAt? (source : Source) {d : DeclId}
    (hf : source.program.function? d = some f) (hn : n ∈ varsOfBlock? f.body?) :
    (source.program.declaredAt? n).isSome = true := by
  obtain ⟨path, -, hitem⟩ := bind_eq_some_iff.mp (Program.item?_of_function? hf)
  have hwalk : Declares n (do
      resolveSuperclasses 0 source.program.root.items
      resolveItems 0 source.program.root.items) :=
    .after (resolveSuperclasses_extends 0 _) fun _ =>
      declares_items (fun site => (resolves_function site f).declares n hn) hitem 0
  refine hwalk _ ?_
  rw [Module.size_declaredBy]
  have hlabels : n ∈ f.labels := by simp [Function.labels, varsOfBlock?_subset _ hn]
  have hroot : n ∈ source.program.root.labels :=
    mem_cons_of_mem _ ((labels_sublist_of_itemAt? hitem).subset hlabels)
  have hnumber : source.program.root.labels = List.range source.program.nodeCount :=
    source.completed.labels_number
  rwa [hnumber, mem_range] at hroot

end TypeFlow
