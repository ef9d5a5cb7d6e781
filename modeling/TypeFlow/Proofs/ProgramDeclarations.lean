import TypeFlow.Proofs.NameLookup
import TypeFlow.Proofs.PlacedDeclarations

/-!
# Declarations of a program

A program is built by two walks over its tree, the first of which collects the declarations while
the second resolves names. The second changes no declaration, and what a node means stays fair. So
what stands at the place of a declaration in the tree fits its kind.
-/

namespace TypeFlow

open Array Declarations

/-! ### Resolving names -/

/-- No scope has a declaration twice under one name, every node means different declarations or
imported ones, and superclasses are classes. -/
structure Names.Tidy (names : Names) : Prop where
  hasOnce : names.HasOnce
  fair : ∀ n, names.Fair (names.lookup n)
  classes : ∀ d, ∀ c ∈ names.superclasses.getD d [], (names.decl c).kind = .cls

/-- The meaning of one node is noted, and superclasses may have been found. -/
theorem Names.Tidy.record {names : Names} (h : names.Tidy) {found : List DeclId}
    (hfound : names.Fair found) (node : NodeId) {superclasses : Array (List DeclId)}
    (hclasses : ∀ d, ∀ c ∈ superclasses.getD d [], (names.decl c).kind = .cls) :
    Tidy { names with superclasses, lookups := names.lookups.setIfInBounds node found } where
  hasOnce := h.hasOnce
  classes := hclasses
  fair n := by
    simp only [lookup, getD_eq_getD_getElem?, getElem?_setIfInBounds]
    split
    · split
      · exact hfound
      · exact .inl .nil
    · rw [← getD_eq_getD_getElem?]
      exact h.fair n

namespace Resolution

variable {s s' : Resolution}

/-- Only variables of functions are added to the declarations, nodes that introduce declarations
keep doing so, and names are resolved fairly. -/
structure Extends (s s' : Resolution) : Prop where
  decls : ∃ locals : Array Decl, s'.decls = s.decls ++ locals ∧ ∀ x ∈ locals, x.path? = none
  nodes : s'.declaredBy.size = s.declaredBy.size
  declared : ∀ n, (s.declaredAt? n).isSome = true → (s'.declaredAt? n).isSome = true
  tidy : s.Tidy → s'.Tidy

/-- A change that keeps the declarations. -/
theorem Extends.of_decls (h : s'.decls = s.decls) (hnodes : s'.declaredBy = s.declaredBy)
    (htidy : s.Tidy → s'.Tidy) : Extends s s' where
  decls := ⟨#[], by simpa using h, by simp⟩
  nodes := congrArg size hnodes
  declared n hn := by rwa [Names.declaredAt?, hnodes]
  tidy := htidy

theorem Extends.of_eq (h : s'.toNames = s.toNames) : Extends s s' := by
  obtain ⟨names, frames⟩ := s
  cases h
  exact .of_decls rfl rfl fun htidy => ⟨htidy.hasOnce, htidy.fair, htidy.classes⟩

instance : IsPreorder Resolution Extends where
  refl _ := .of_eq rfl
  trans := by
    intro s s' s'' h h'
    obtain ⟨locals, hlocals, hnone⟩ := h.decls
    obtain ⟨locals', hlocals', hnone'⟩ := h'.decls
    refine ⟨⟨locals ++ locals', by rw [hlocals', hlocals, append_assoc], ?_⟩,
      h'.nodes.trans h.nodes, fun n hn => h'.declared n (h.declared n hn),
      fun htidy => h'.tidy (h.tidy htidy)⟩
    intro x hx
    rcases mem_append.mp hx with hx | hx
    · exact hnone x hx
    · exact hnone' x hx

end Resolution

section

open Resolution (Extends)
open Resolving

theorem record_extends (node : NodeId) {find : Resolution → List DeclId}
    (hfind : ∀ s : Resolution, s.HasOnce → s.Fair (find s)) :
    Relates Extends (do record node (find (← get))) := fun s =>
  .of_decls rfl rfl fun htidy => htidy.record (hfind s htidy.hasOnce) node htidy.classes

theorem declaredAt_extends (node : NodeId) : Relates Extends (declaredAt node) :=
  Relates.get.bind fun _ => .pure _

variable (site : Site)

theorem declareLocal_extends (name : String) (node : NodeId) (spec? : Option (TypeSpec NodeId))
    (isConst : Bool) : Relates Extends (declareLocal site name node spec? isConst) := by
  refine .change fun s => ⟨⟨#[_], push_eq_append, by simp⟩, size_setIfInBounds, ?_, ?_⟩
  · intro n hn
    simp only [Names.declaredAt?, getD_eq_getD_getElem?] at hn ⊢
    grind
  · -- A variable of a function has no members and is no class.
    refine fun htidy => ⟨fun scope member found hmember => ?_, htidy.fair, fun d c hc => ?_⟩
    · simp only [ownMember, decl, getD_eq_getD_getElem?, getElem?_push] at hmember
      split at hmember
      · simp at hmember
      · refine htidy.hasOnce scope member found ?_
        rwa [ownMember, decl, getD_eq_getD_getElem?]
    · have hcls := htidy.classes d c hc
      have hlt : c < s.decls.size := by
        by_contra hge
        simp [decl, hge, default] at hcls
      simpa [decl, hlt, Nat.lt_succ_of_lt hlt, getElem_push_lt] using hcls

theorem resolvePath_extends (path : Path NodeId) : Relates Extends (resolvePath site path) :=
  record_extends _ fun _ h => lookupPath_fair h _ _

mutual

theorem resolveRef_extends : ∀ ref : TypeRef NodeId, Relates Extends (resolveRef site ref)
  | .named path args => (resolvePath_extends site path).bind fun _ => resolveSpecs_extends args
  | .tuple _ slots => resolveSpecs_extends slots

theorem resolveSpec_extends :
    ∀ spec : Alternatives NodeId (TypeRef NodeId), Relates Extends (resolveSpec site spec)
  | ⟨_, parts⟩ => resolveRefs_extends parts

theorem resolveSpecs_extends : ∀ specs : List (Alternatives NodeId (TypeRef NodeId)),
      Relates Extends (resolveSpecs site specs)
  | [] => .pure _
  | s :: ss => (resolveSpec_extends s).bind fun _ => resolveSpecs_extends ss

theorem resolveRefs_extends :
    ∀ refs : List (TypeRef NodeId), Relates Extends (resolveRefs site refs)
  | [] => .pure _
  | r :: rs => (resolveRef_extends r).bind fun _ => resolveRefs_extends rs

end

mutual

theorem resolveExpr_extends : ∀ e : Expr NodeId, Relates Extends (resolveExpr site e)
  | .literal .. | .symbol .. | .self _ => .pure _
  | .ident id _ => record_extends id fun _ h => Resolution.meaning_fair h _ _
  | .member id object _ => (resolveExpr_extends object).bind fun _ =>
      record_extends id fun _ h => Resolution.memberMeaning_fair h _ _ _
  | .has _ object _ => resolveExpr_extends object
  | .index _ object position =>
    (resolveExpr_extends object).bind fun _ => resolveExpr_extends position
  | .call _ callee args => (resolveExpr_extends callee).bind fun _ => resolveExprs_extends args
  | .create _ cls args => (resolveExpr_extends cls).bind fun _ => resolveExprs_extends args
  | .unary _ _ operand => resolveExpr_extends operand
  | .binary _ _ left right | .logical _ _ left right =>
    (resolveExpr_extends left).bind fun _ => resolveExpr_extends right
  | .conditional _ test yes no => (resolveExpr_extends test).bind fun _ =>
      (resolveExpr_extends yes).bind fun _ => resolveExpr_extends no
  | .array _ elements => resolveExprs_extends elements
  | .dictionary _ entries => resolveEntries_extends entries
  | .cast _ operand spec =>
    (resolveExpr_extends operand).bind fun _ => resolveSpec_extends site spec
  | .instanceOf _ operand cls => (resolveExpr_extends operand).bind fun _ => resolveExpr_extends cls

theorem resolveExprs_extends : ∀ es : List (Expr NodeId), Relates Extends (resolveExprs site es)
  | [] => .pure _
  | e :: es => (resolveExpr_extends e).bind fun _ => resolveExprs_extends es

theorem resolveEntries_extends :
    ∀ entries : List (Expr NodeId × Expr NodeId), Relates Extends (resolveEntries site entries)
  | [] => .pure _
  | (k, v) :: entries => (resolveExpr_extends k).bind fun _ =>
      (resolveExpr_extends v).bind fun _ => resolveEntries_extends entries

end

theorem resolveSpec?_extends (spec? : Option (TypeSpec NodeId)) :
    Relates Extends (resolveSpec? site spec?) := by
  cases spec? with
  | none => exact .pure _
  | some spec => exact resolveSpec_extends site spec

theorem resolveExpr?_extends (e? : Option (Expr NodeId)) :
    Relates Extends (resolveExpr? site e?) := by
  cases e? with
  | none => exact .pure _
  | some e => exact resolveExpr_extends site e

/-! Variables of functions are declared, however deep their statements stand in the body. -/

mutual

/-- The nodes of the variables in a statement. -/
def Stmt.vars {ι : Type} : Stmt ι → List ι
  | .var _ decl => [decl.id]
  | .expr .. | .assign .. | .ret .. | .leave _ | .next _ | .raise .. => []
  | .branch _ _ yes no? => varsOfBlock yes ++ varsOfBlock? no?
  | .whileLoop _ _ body | .doLoop _ body _ | .block _ body => varsOfBlock body
  | .forLoop _ init _ update body => varsOfStmts init ++ (varsOfBlock body ++ varsOfStmts update)
  | .switch _ _ cases => varsOfCases cases
  | .attempt _ body handlers finalizer? =>
    varsOfBlock body ++ (varsOfHandlers handlers ++ varsOfBlock? finalizer?)

def varsOfStmts {ι : Type} : List (Stmt ι) → List ι
  | [] => []
  | s :: ss => s.vars ++ varsOfStmts ss

def varsOfBlock {ι : Type} : Braced ι (Stmt ι) → List ι
  | ⟨_, stmts⟩ => varsOfStmts stmts

def varsOfBlock? {ι : Type} : Option (Braced ι (Stmt ι)) → List ι
  | none => []
  | some b => varsOfBlock b

def varsOfCases {ι : Type} : List (Case ι (Stmt ι)) → List ι
  | [] => []
  | ⟨_, _, body⟩ :: cases => varsOfStmts body ++ varsOfCases cases

def varsOfHandlers {ι : Type} : List (Handler ι (Stmt ι)) → List ι
  | [] => []
  | ⟨_, _, _, body⟩ :: handlers => varsOfBlock body ++ varsOfHandlers handlers

end

/-- After the walk the node has a declaration. -/
def Declares {α : Type} (n : NodeId) (walk : Resolving α) : Prop :=
  ∀ s : Resolution, n < s.declaredBy.size → ((walk.run s).2.declaredAt? n).isSome = true

section

variable {α β : Type} {n : NodeId} {rest : α → Resolving β} {walk : Resolving α}

theorem Declares.bind (h : Declares n walk) (hrest : ∀ a, Relates Extends (rest a)) :
    Declares n (walk >>= rest) :=
  fun s hn => (hrest _ _).declared n (h s hn)

theorem Declares.after (hwalk : Relates Extends walk) (h : ∀ a, Declares n (rest a)) :
    Declares n (walk >>= rest) :=
  fun s hn => h _ _ ((hwalk s).nodes ▸ hn)

end

/-- A walk that declares some nodes. -/
structure Resolves {α : Type} (nodes : List NodeId) (walk : Resolving α) : Prop where
  relates : Relates Extends walk
  declares : ∀ n ∈ nodes, Declares n walk

namespace Resolves

variable {α β : Type} {nodes nodes' : List NodeId} {walk : Resolving α} {rest : α → Resolving β}

theorem of_relates (h : Relates Extends walk) : Resolves [] walk := ⟨h, by simp⟩

theorem bind (h : Resolves nodes walk) (hrest : ∀ a, Resolves nodes' (rest a)) :
    Resolves (nodes ++ nodes') (walk >>= rest) where
  relates := h.relates.bind fun a => (hrest a).relates
  declares := List.forall_mem_append.mpr
    ⟨fun n hn => (h.declares n hn).bind fun a => (hrest a).relates,
      fun n hn => .after h.relates fun a => (hrest a).declares n hn⟩

theorem after (h : Relates Extends walk) (hrest : ∀ a, Resolves nodes (rest a)) :
    Resolves nodes (walk >>= rest) := (of_relates h).bind hrest

theorem andThen (h : Resolves nodes walk) (hrest : ∀ a, Relates Extends (rest a)) :
    Resolves nodes (walk >>= rest) := by
  simpa using h.bind fun a => of_relates (hrest a)

theorem inFrame {walk : Resolving Unit} (frame : Frame) (h : Resolves nodes walk) :
    Resolves nodes (inFrame frame walk) :=
  .after (.change fun _ => .of_eq rfl) fun _ => h.andThen fun _ => .change fun _ => .of_eq rfl

end Resolves

theorem resolves_local (name : String) (node : NodeId) (spec? : Option (TypeSpec NodeId))
    (isConst : Bool) : Resolves [node] (declareLocal site name node spec? isConst) := by
  refine ⟨declareLocal_extends site name node spec? isConst, fun n hn s hsize => ?_⟩
  obtain rfl := List.mem_singleton.mp hn
  change (getD (s.declaredBy.setIfInBounds n _) n none).isSome = true
  simp [hsize]

mutual

theorem resolves_stmt : ∀ stmt : Stmt NodeId, Resolves stmt.vars (resolveStmt site stmt)
  | .var _ v => .after (resolveSpec?_extends site v.spec?) fun _ =>
      .after (resolveExpr?_extends site v.init?) fun _ => resolves_local site _ _ _ _
  | .expr _ value | .raise _ value => .of_relates (resolveExpr_extends site value)
  | .assign _ target _ value => .of_relates <|
    (resolveExpr_extends site value).bind fun _ => resolveExpr_extends site target
  | .ret _ value? => .of_relates (resolveExpr?_extends site value?)
  | .branch _ test yes no? => .after (resolveExpr_extends site test) fun _ =>
      (resolves_block yes).bind fun _ => resolves_block? no?
  | .whileLoop _ test body => .after (resolveExpr_extends site test) fun _ => resolves_block body
  | .doLoop _ body test => (resolves_block body).andThen fun _ => resolveExpr_extends site test
  | .forLoop _ init test? update body => .inFrame [] <|
      (resolves_stmts init).bind fun _ => .after (resolveExpr?_extends site test?) fun _ =>
        (resolves_block body).bind fun _ => resolves_stmts update
  | .switch _ subject cases =>
    .after (resolveExpr_extends site subject) fun _ => .inFrame [] (resolves_cases cases)
  | .leave _ | .next _ => .of_relates (.pure _)
  | .attempt _ body handlers finalizer? => (resolves_block body).bind fun _ =>
      (resolves_handlers handlers).bind fun _ => resolves_block? finalizer?
  | .block _ body => resolves_block body

theorem resolves_stmts :
    ∀ stmts : List (Stmt NodeId), Resolves (varsOfStmts stmts) (resolveStmts site stmts)
  | [] => .of_relates (.pure _)
  | s :: ss => (resolves_stmt s).bind fun _ => resolves_stmts ss

theorem resolves_block :
    ∀ block : Braced NodeId (Stmt NodeId), Resolves (varsOfBlock block) (resolveBlock site block)
  | ⟨_, stmts⟩ => .inFrame [] (resolves_stmts stmts)

theorem resolves_block? : ∀ block? : Option (Braced NodeId (Stmt NodeId)),
    Resolves (varsOfBlock? block?) (resolveBlock? site block?)
  | none => .of_relates (.pure _)
  | some b => resolves_block b

theorem resolves_cases : ∀ cases : List (Case NodeId (Stmt NodeId)),
    Resolves (varsOfCases cases) (resolveCases site cases)
  | [] => .of_relates (.pure _)
  | ⟨_, test?, body⟩ :: cases => .after (resolveExpr?_extends site test?) fun _ =>
      (resolves_stmts body).bind fun _ => resolves_cases cases

theorem resolves_handlers : ∀ handlers : List (Handler NodeId (Stmt NodeId)),
    Resolves (varsOfHandlers handlers) (resolveHandlers site handlers)
  | [] => .of_relates (.pure _)
  | ⟨_, _, none, body⟩ :: handlers =>
    (Resolves.inFrame [] <| .after (declareLocal_extends site _ _ _ _) fun _ =>
      resolves_block body).bind fun _ => resolves_handlers handlers
  | ⟨_, _, some path, body⟩ :: handlers => .after (resolvePath_extends site path) fun _ =>
    (Resolves.inFrame [] <| .after (declareLocal_extends site _ _ _ _) fun _ =>
      resolves_block body).bind fun _ => resolves_handlers handlers

end

theorem resolveParams_extends (ps : List (Param NodeId)) :
    Relates Extends (resolveParams site ps) := by
  induction ps with
  | nil => exact .pure _
  | cons p ps ih => exact (resolveSpec?_extends site p.spec?).bind fun _ => ih

theorem resolves_function (f : Function NodeId) :
    Resolves (varsOfBlock? f.body?) (resolveFunction site f) := by
  refine .after (declaredAt_extends f.id) fun d => .after (resolveParams_extends site f.params)
    fun _ => .after (resolveSpec?_extends site f.returns?) fun _ => ?_
  cases f.body? with
  | some body => exact .after .get fun s => .inFrame _ (resolves_block _ _)
  | none => exact .of_relates (.pure _)

theorem resolveEnumMembers_extends (members : List (EnumMember NodeId)) :
    Relates Extends (resolveEnumMembers site members) := by
  induction members with
  | nil => exact .pure _
  | cons e es ih => exact (resolveExpr?_extends site e.init?).bind fun _ => ih

mutual

theorem resolveItem_extends (scope : DeclId) :
    ∀ item : Item NodeId, Relates Extends (resolveItem scope item)
  | .module id _ items | .cls id _ _ items =>
    (declaredAt_extends id).bind fun d => resolveItems_extends d items
  | .function f => (resolves_function _ f).relates
  | .var v => (resolveSpec?_extends _ v.spec?).bind fun _ => resolveExpr?_extends _ v.init?
  | .enum e => resolveEnumMembers_extends _ e.members
  | .synonym _ _ spec => resolveSpec_extends _ spec

theorem resolveItems_extends (scope : DeclId) :
    ∀ items : List (Item NodeId), Relates Extends (resolveItems scope items)
  | [] => .pure _
  | item :: items => (resolveItem_extends scope item).bind fun _ => resolveItems_extends scope items

end

theorem resolveSuperclass_extends (scope d : DeclId) (path : Path NodeId) :
    Relates Extends (resolveSuperclass scope d path) := .change fun s =>
  .of_decls rfl rfl fun htidy => by
    refine htidy.record (lookupPath_fair htidy.hasOnce _ _) path.id fun e c hc => ?_
    have hold := htidy.classes e c
    simp only [getD_eq_getD_getElem?, getElem?_setIfInBounds] at hc hold
    split at hc
    · split at hc
      · exact of_decide_eq_true (Bool.and_eq_true_iff.mp (List.mem_filter.mp hc).2).1
      · simp at hc
    · exact hold hc

mutual

theorem resolveSuperclassesOf_extends (scope : DeclId) :
    ∀ item : Item NodeId, Relates Extends (resolveSuperclassesOf scope item)
  | .module id _ items => (declaredAt_extends id).bind fun d => resolveSuperclasses_extends d items
  | .cls id _ none items =>
    (declaredAt_extends id).bind fun d => resolveSuperclasses_extends d items
  | .cls id _ (some path) items => (declaredAt_extends id).bind fun d =>
      (resolveSuperclass_extends scope d path).bind fun _ => resolveSuperclasses_extends d items
  | .function _ | .var _ | .enum _ | .synonym .. => .pure _

theorem resolveSuperclasses_extends (scope : DeclId) :
    ∀ items : List (Item NodeId), Relates Extends (resolveSuperclasses scope items)
  | [] => .pure _
  | item :: items => (resolveSuperclassesOf_extends scope item).bind fun _ =>
      resolveSuperclasses_extends scope items

end

theorem Module.resolved_decls (root : Module NodeId) (nodes : Nat) (declared : Declared)
    (imports : List DeclId) : ∃ locals : Array Decl,
      (root.resolved nodes declared imports).decls = declared.decls ++ locals ∧
        ∀ x ∈ locals, x.path? = none := by
  have hwalk :=
    (resolveSuperclasses_extends 0 root.items).bind fun _ => resolveItems_extends 0 root.items
  exact (hwalk _).decls

end

/-! ### Programs -/

variable {f : Function NodeId}

theorem Program.item?_of_function? {p : Program} {d : DeclId} (h : p.function? d = some f) :
    p.item? d = some (.function f) := by
  unfold Program.function? at h
  split at h
  · next hitem => exact Option.some.inj h ▸ hitem
  · simp at h

namespace Source

variable {strict : Demands} {d : DeclId} (source : Source)

theorem program_enumValues_formed {t : Ty} (h : source.program.enumValues.get? d = some t) :
    t.Formed strict :=
  Module.declared_values _ _ h

/-- The expansions of a program satisfy what the parts of written types keep. -/
theorem program_table_closed {ok : DeclId → Prop} {C : Ty → Prop} (hC : Ty.Closed ok C)
    (hwithout : ∀ t, C t → C (t.without (Tags.single .synonym)))
    (hlookup : ∀ node, ∀ d ∈ source.program.lookup node, ok d) :
    ∀ e ∈ source.program.table.expansions, C e.2 := by
  have hdefinitions : ∀ e ∈ definitions source.program.toNames, C e.2 := by
    intro e he
    obtain ⟨d, -, he⟩ := List.mem_filterMap.mp he
    simp only at he
    split at he
    · cases he
      split
      · exact Names.typeOfSpec_closed hC hlookup _
      · exact hC.ofTags _
    · simp at he
  intro e he
  obtain ⟨e', he', rfl⟩ := List.mem_map.mp he
  exact Expansion.all_closed (hC.ofTags _) hC.union (fun e he => hwithout _ (hdefinitions e he))
    e' he'

theorem program_table_formed (hlookup : ∀ node, ∀ d ∈ source.program.lookup node, strict.ok d) :
    source.program.table.Formed strict :=
  source.program_table_closed (Ty.closed_formed strict) (fun _ ht => ht.without _) hlookup

/-- Variables of functions have no place, so what has a place was there before names were
resolved. -/
theorem program_decl_of_path? {path : List Nat} (h : (source.program.decl d).path? = some path) :
    source.program.decl d =
      (source.completed.number.1.declared source.completed.number.2).decl d := by
  let root := source.completed.number.1
  let declared := root.declared source.completed.number.2
  obtain ⟨locals, hdecls, hlocals⟩ := root.resolved_decls _ declared _
  have hdecl : source.program.decl d = ((declared.decls ++ locals)[d]?).getD default := by
    rw [← hdecls, ← getD_eq_getD_getElem?]
    rfl
  by_cases hd : d < declared.decls.size
  · rwa [getElem?_append_left hd, ← getD_eq_getD_getElem?] at hdecl
  · rw [getElem?_append_right (Nat.le_of_not_lt hd)] at hdecl
    rw [hdecl] at h
    cases hlocal : locals[d - declared.decls.size]? with
    | none => simp [hlocal] at h
    | some x => simp [hlocal, hlocals x (mem_of_getElem? hlocal)] at h

/-- What stands at the place of a declaration decides its kind. -/
theorem program_function?_kind (h : source.program.function? d = some f) :
    (source.program.decl d).kind = .function := by
  obtain ⟨path, hpath, hitem⟩ := Option.bind_eq_some_iff.mp (Program.item?_of_function? h)
  have hdecl := source.program_decl_of_path? hpath
  rw [hdecl] at hpath ⊢
  exact (Module.declared_placed _ _ hpath).2.2 f hitem

theorem program_hasBody_kind (h : source.program.hasBody d = true) :
    (source.program.decl d).kind = .function := by
  cases hfunction : source.program.function? d with
  | none => simp [Program.hasBody, hfunction] at h
  | some f => exact source.program_function?_kind hfunction

end Source

end TypeFlow
