import Mathlib.Data.List.Nodup
import TypeFlow.Flow.Event
import TypeFlow.Source.Traverse

/-!
# The labels of source trees

The labels of a tree are listed in the order in which a traversal visits them. The labels of a tree
that has been numbered are all numbers below the count, in ascending order, so no two nodes share
one, and without its labels the tree is what it was.
-/

namespace TypeFlow

open List Option

variable {ι : Type} {items : List (Item ι)} {item : Item ι}

/-! ### Listing labels -/

mutual

/-- The labels of one alternative of a written type. -/
def TypeRef.labels : TypeRef ι → List ι
  | .named path args => path.id :: labelsOfSpecs args
  | .tuple id slots => id :: labelsOfSpecs slots

def labelsOfSpec : Alternatives ι (TypeRef ι) → List ι
  | ⟨id, parts⟩ => id :: labelsOfRefs parts

def labelsOfSpecs : List (Alternatives ι (TypeRef ι)) → List ι
  | [] => []
  | s :: ss => labelsOfSpec s ++ labelsOfSpecs ss

def labelsOfRefs : List (TypeRef ι) → List ι
  | [] => []
  | r :: rs => r.labels ++ labelsOfRefs rs

end

mutual

/-- The labels of an expression. -/
def Expr.labels : Expr ι → List ι
  | .literal id _ | .symbol id _ | .ident id _ | .self id => [id]
  | .member id object _ => id :: object.labels
  | .index id object position => id :: (object.labels ++ position.labels)
  | .call id callee args => id :: (callee.labels ++ labelsOfExprs args)
  | .create id cls args => id :: (cls.labels ++ labelsOfExprs args)
  | .unary id _ operand => id :: operand.labels
  | .binary id _ left right | .logical id _ left right => id :: (left.labels ++ right.labels)
  | .conditional id test yes no => id :: (test.labels ++ (yes.labels ++ no.labels))
  | .array id elements => id :: labelsOfExprs elements
  | .dictionary id entries => id :: labelsOfEntries entries
  | .cast id operand spec => id :: (operand.labels ++ labelsOfSpec spec)
  | .instanceOf id operand cls => id :: (operand.labels ++ cls.labels)
  | .has id object _ => id :: object.labels

def labelsOfExprs : List (Expr ι) → List ι
  | [] => []
  | e :: es => e.labels ++ labelsOfExprs es

def labelsOfEntries : List (Expr ι × Expr ι) → List ι
  | [] => []
  | (k, v) :: entries => k.labels ++ (v.labels ++ labelsOfEntries entries)

end

theorem Expr.labels_eq (e : Expr ι) : e.labels = e.id :: e.labels.tail := by
  cases e <;> rfl

theorem Expr.id_mem_labels (e : Expr ι) : e.id ∈ e.labels := e.labels_eq ▸ mem_cons_self

/-- The labels of what may be absent. -/
def labelsOfOption {α : Type} (labels : α → List ι) (a? : Option α) : List ι := a?.elim [] labels

/-- The labels of a variable. -/
def VarDecl.labels (v : VarDecl ι) : List ι :=
  v.id :: (labelsOfOption labelsOfSpec v.spec? ++ labelsOfOption Expr.labels v.init?)

mutual

/-- The labels of a statement. -/
def Stmt.labels : Stmt ι → List ι
  | .var id decl => id :: decl.labels
  | .expr id value => id :: value.labels
  | .assign id target _ value => id :: (target.labels ++ value.labels)
  | .ret id value? => id :: labelsOfOption Expr.labels value?
  | .branch id test yes no? => id :: (test.labels ++ (labelsOfBlock yes ++ labelsOfBlock? no?))
  | .whileLoop id test body | .doLoop id body test => id :: (test.labels ++ labelsOfBlock body)
  | .forLoop id init test? update body =>
    id :: (labelsOfStmts init ++ (labelsOfOption Expr.labels test? ++
      (labelsOfStmts update ++ labelsOfBlock body)))
  | .switch id subject cases => id :: (subject.labels ++ labelsOfCases cases)
  | .leave id | .next id => [id]
  | .raise id value => id :: value.labels
  | .attempt id body handlers finalizer? =>
    id :: (labelsOfBlock body ++ (labelsOfHandlers handlers ++ labelsOfBlock? finalizer?))
  | .block id body => id :: labelsOfBlock body

def labelsOfStmts : List (Stmt ι) → List ι
  | [] => []
  | s :: ss => s.labels ++ labelsOfStmts ss

def labelsOfBlock : Braced ι (Stmt ι) → List ι
  | ⟨id, stmts⟩ => id :: labelsOfStmts stmts

def labelsOfBlock? : Option (Braced ι (Stmt ι)) → List ι
  | none => []
  | some b => labelsOfBlock b

def labelsOfCases : List (Case ι (Stmt ι)) → List ι
  | [] => []
  | ⟨id, test?, body⟩ :: cases =>
    id :: (labelsOfOption Expr.labels test? ++ (labelsOfStmts body ++ labelsOfCases cases))

def labelsOfHandlers : List (Handler ι (Stmt ι)) → List ι
  | [] => []
  | ⟨id, _, cls?, body⟩ :: handlers =>
    id :: (labelsOfOption (fun path => [path.id]) cls? ++
      (labelsOfBlock body ++ labelsOfHandlers handlers))

end

/-- The labels of a parameter. -/
def Param.labels (p : Param ι) : List ι := p.id :: labelsOfOption labelsOfSpec p.spec?

/-- The labels of a function. -/
def Function.labels (f : Function ι) : List ι :=
  f.id :: (f.params.flatMap Param.labels ++
    (labelsOfOption labelsOfSpec f.returns? ++ labelsOfBlock? f.body?))

/-- The labels of a member of an enumeration. -/
def EnumMember.labels (m : EnumMember ι) : List ι := m.id :: labelsOfOption Expr.labels m.init?

/-- The labels of an enumeration. -/
def EnumDecl.labels (e : EnumDecl ι) : List ι := e.id :: e.members.flatMap EnumMember.labels

mutual

/-- The labels of an item. -/
def Item.labels : Item ι → List ι
  | .module id _ items => id :: labelsOfItems items
  | .cls id _ extends? items =>
    id :: (labelsOfOption (fun path => [path.id]) extends? ++ labelsOfItems items)
  | .function decl | .var decl | .enum decl => decl.labels
  | .synonym id _ spec => id :: labelsOfSpec spec

def labelsOfItems : List (Item ι) → List ι
  | [] => []
  | i :: is => i.labels ++ labelsOfItems is

end

variable (p : Module ι)

/-- The labels of a program. -/
def Module.labels : List ι := p.id :: labelsOfItems p.items

/-! ### Numbering -/

/-- Gives the next number to a node. -/
abbrev numbering (_ : ι) : StateM Nat NodeId := fresh

/-- Takes the label off a node. -/
abbrev blank (_ : ι) : Id Unit := ()

/-- The walk uses up numbers one by one, and puts them behind those of `before` into the labels of
its result. What the result is without its labels is known. -/
def NumbersFrom {α γ : Type} (before : List NodeId) (walk : StateM Nat α)
    (labels : α → List NodeId) (bare : α → Id γ) (rest : Id γ) : Prop :=
  ∀ n, ∃ k, (walk n).2 = n + k ∧ labels (walk n).1 = before ++ range' n k ∧ bare (walk n).1 = rest

/-- The labels of the result of a walk are the numbers that it uses up. -/
abbrev Numbers {α γ : Type} (walk : StateM Nat α) (labels : α → List NodeId) (bare : α → Id γ)
    (rest : Id γ) : Prop :=
  NumbersFrom [] walk labels bare rest

namespace NumbersFrom

variable {α β γ δ : Type} {before : List NodeId} {walk : StateM Nat α} {labels : α → List NodeId}
  {labels' : β → List NodeId} {bare : α → Id γ} {bare' : β → Id δ} {x : Id γ} {y : Id δ}

theorem pure {a : α} (h : labels a = before) (hbare : bare a = x := by rfl) :
    NumbersFrom before (Pure.pure a) labels bare x :=
  fun _ => ⟨0, rfl, h.trans (append_nil _).symm, hbare⟩

/-- One walk after the other. -/
theorem bind {rest : α → StateM Nat β} (h : Numbers walk labels bare x)
    (hrest : ∀ a, bare a = x → NumbersFrom (before ++ labels a) (rest a) labels' bare' y) :
    NumbersFrom before (walk >>= rest) labels' bare' y := by
  intro n
  obtain ⟨k, hcount, hlabels, hbare⟩ := h n
  obtain ⟨j, hcount', hlabels', hbare'⟩ := hrest (walk n).1 hbare (walk n).2
  refine ⟨k + j, ?_, ?_, hbare'⟩
  · change (rest (walk n).1 (walk n).2).2 = _
    rw [hcount', hcount, Nat.add_assoc]
  · change labels' (rest (walk n).1 (walk n).2).1 = _
    rw [hlabels', hlabels, hcount, nil_append, append_assoc, range'_append_1]

/-- The label of a node comes first. -/
theorem node {rest : NodeId → StateM Nat β}
    (hrest : ∀ n, NumbersFrom [n] (rest n) labels' bare' y) :
    Numbers (fresh >>= rest) labels' bare' y := by
  have hfresh : Numbers fresh (fun n => [n]) blank () := fun _ => ⟨1, rfl, rfl, rfl⟩
  exact hfresh.bind fun n _ => hrest n

/-- The last part of a node. -/
theorem last {f : α → β} (h : Numbers walk labels bare x)
    (hlabels : ∀ a, labels' (f a) = before ++ labels a := by intro; rfl)
    (hbare : ∀ a, bare a = x → bare' (f a) = y := by
      intros
      simp only [traverseOption.eq_2, TypeRef.traverse, traverseSpec, traverseSpecs, traverseRefs,
        Expr.traverse, traverseExprs, traverseEntries, Stmt.traverse, traverseStmts, traverseBlock,
        traverseBlock?, traverseCases, traverseHandlers, traverseParams, traverseMembers,
        Item.traverse, traverseItems, *]) :
    NumbersFrom before (walk >>= fun a => .pure (f a)) labels' bare' y :=
  h.bind fun a ha => pure (hlabels a) (hbare a ha)

end NumbersFrom

theorem numbers_option {α β γ : Type} {walk : α → StateM Nat β} {labels : β → List NodeId}
    {bare : β → Id γ} {bare' : α → Id γ} (h : ∀ a, Numbers (walk a) labels bare (bare' a)) :
    ∀ a? : Option α, Numbers (traverseOption walk a?) (labelsOfOption labels)
      (traverseOption bare) (traverseOption bare' a?)
  | none => .pure rfl
  | some a => .last (h a)

theorem Path.numbers (p : Path ι) : Numbers (p.traverse numbering) (fun path => [path.id])
    (Path.traverse blank) (p.traverse blank) :=
  .node fun _ => .pure rfl

mutual

theorem TypeRef.numbers : ∀ r : TypeRef ι, Numbers (r.traverse numbering) TypeRef.labels
    (TypeRef.traverse blank) (r.traverse blank)
  | .named path args => .bind path.numbers fun _ _ => .last (numbers_specs args)
  | .tuple _ slots => .node fun _ => .last (numbers_specs slots)

theorem numbers_spec : ∀ s : Alternatives ι (TypeRef ι),
    Numbers (traverseSpec numbering s) labelsOfSpec (traverseSpec blank) (traverseSpec blank s)
  | ⟨_, parts⟩ => .node fun _ => .last (numbers_refs parts)

theorem numbers_specs : ∀ ss : List (Alternatives ι (TypeRef ι)),
    Numbers (traverseSpecs numbering ss) labelsOfSpecs
      (traverseSpecs blank) (traverseSpecs blank ss)
  | [] => .pure rfl
  | s :: ss => .bind (numbers_spec s) fun _ _ => .last (numbers_specs ss)

theorem numbers_refs : ∀ rs : List (TypeRef ι), Numbers (traverseRefs numbering rs) labelsOfRefs
      (traverseRefs blank) (traverseRefs blank rs)
  | [] => .pure rfl
  | r :: rs => .bind r.numbers fun _ _ => .last (numbers_refs rs)

end

mutual

theorem Expr.numbers : ∀ e : Expr ι, Numbers (e.traverse numbering) Expr.labels
    (Expr.traverse blank) (e.traverse blank)
  | .literal .. | .symbol .. | .ident .. | .self _ => .node fun _ => .pure rfl
  | .member _ object _ => .node fun _ => .last object.numbers
  | .index _ object position => .node fun _ => .bind object.numbers fun _ _ =>
      .last position.numbers
  | .call _ callee args => .node fun _ => .bind callee.numbers fun _ _ => .last (numbers_exprs args)
  | .create _ cls args => .node fun _ => .bind cls.numbers fun _ _ => .last (numbers_exprs args)
  | .unary _ _ operand => .node fun _ => .last operand.numbers
  | .binary _ _ left right | .logical _ _ left right =>
    .node fun _ => .bind left.numbers fun _ _ => .last right.numbers
  | .conditional _ test yes no => .node fun _ => .bind test.numbers fun _ _ =>
      .bind yes.numbers fun _ _ => .last no.numbers (by simp [Expr.labels])
  | .array _ elements => .node fun _ => .last (numbers_exprs elements)
  | .dictionary _ entries => .node fun _ => .last (numbers_entries entries)
  | .cast _ operand spec => .node fun _ => .bind operand.numbers fun _ _ =>
      .last (numbers_spec spec)
  | .instanceOf _ operand cls => .node fun _ => .bind operand.numbers fun _ _ => .last cls.numbers
  | .has _ object _ => .node fun _ => .last object.numbers

theorem numbers_exprs : ∀ es : List (Expr ι), Numbers (traverseExprs numbering es) labelsOfExprs
      (traverseExprs blank) (traverseExprs blank es)
  | [] => .pure rfl
  | e :: es => .bind e.numbers fun _ _ => .last (numbers_exprs es)

theorem numbers_entries : ∀ entries : List (Expr ι × Expr ι),
    Numbers (traverseEntries numbering entries) labelsOfEntries
      (traverseEntries blank) (traverseEntries blank entries)
  | [] => .pure rfl
  | (k, v) :: entries => .bind k.numbers fun _ _ => .bind v.numbers fun _ _ =>
      .last (numbers_entries entries) (by simp [labelsOfEntries])

end

theorem VarDecl.numbers (v : VarDecl ι) : Numbers (v.traverse numbering) VarDecl.labels
    (VarDecl.traverse blank) (v.traverse blank) :=
  .node fun _ => .bind (numbers_option numbers_spec v.spec?) fun _ _ =>
    .last (numbers_option Expr.numbers v.init?) (by intro; rfl)
      (by intros; simp only [VarDecl.traverse, *])

mutual

theorem Stmt.numbers : ∀ s : Stmt ι, Numbers (s.traverse numbering) Stmt.labels
    (Stmt.traverse blank) (s.traverse blank)
  | .var _ decl => .node fun _ => .last decl.numbers
  | .expr _ value => .node fun _ => .last value.numbers
  | .assign _ target _ value => .node fun _ => .bind target.numbers fun _ _ => .last value.numbers
  | .ret _ value? => .node fun _ => .last (numbers_option Expr.numbers value?)
  | .branch _ test yes no? => .node fun _ => .bind test.numbers fun _ _ =>
      .bind (numbers_block yes) fun _ _ => .last (numbers_block? no?) (by simp [Stmt.labels])
  | .whileLoop _ test body => .node fun _ => .bind test.numbers fun _ _ =>
      .last (numbers_block body)
  | .doLoop _ body test => .node fun _ => .bind test.numbers fun _ _ => .last (numbers_block body)
  | .forLoop _ init test? update body => .node fun _ => .bind (numbers_stmts init) fun _ _ =>
      .bind (numbers_option Expr.numbers test?) fun _ _ => .bind (numbers_stmts update) fun _ _ =>
        .last (numbers_block body) (by simp [Stmt.labels])
  | .switch _ subject cases => .node fun _ => .bind subject.numbers fun _ _ =>
      .last (numbers_cases cases)
  | .leave _ | .next _ => .node fun _ => .pure rfl
  | .raise _ value => .node fun _ => .last value.numbers
  | .attempt _ body handlers finalizer? => .node fun _ => .bind (numbers_block body) fun _ _ =>
      .bind (numbers_handlers handlers) fun _ _ =>
        .last (numbers_block? finalizer?) (by simp [Stmt.labels])
  | .block _ body => .node fun _ => .last (numbers_block body)

theorem numbers_stmts : ∀ ss : List (Stmt ι), Numbers (traverseStmts numbering ss) labelsOfStmts
      (traverseStmts blank) (traverseStmts blank ss)
  | [] => .pure rfl
  | s :: ss => .bind s.numbers fun _ _ => .last (numbers_stmts ss)

theorem numbers_block : ∀ b : Braced ι (Stmt ι), Numbers (traverseBlock numbering b) labelsOfBlock
      (traverseBlock blank) (traverseBlock blank b)
  | ⟨_, stmts⟩ => .node fun _ => .last (numbers_stmts stmts)

theorem numbers_block? : ∀ b? : Option (Braced ι (Stmt ι)),
    Numbers (traverseBlock? numbering b?) labelsOfBlock?
      (traverseBlock? blank) (traverseBlock? blank b?)
  | none => .pure rfl
  | some b => .last (numbers_block b)

theorem numbers_cases : ∀ cases : List (Case ι (Stmt ι)),
    Numbers (traverseCases numbering cases) labelsOfCases
      (traverseCases blank) (traverseCases blank cases)
  | [] => .pure rfl
  | ⟨_, test?, body⟩ :: cases => .node fun _ =>
      .bind (numbers_option Expr.numbers test?) fun _ _ => .bind (numbers_stmts body) fun _ _ =>
        .last (numbers_cases cases) (by simp [labelsOfCases])

theorem numbers_handlers : ∀ handlers : List (Handler ι (Stmt ι)),
    Numbers (traverseHandlers numbering handlers) labelsOfHandlers
      (traverseHandlers blank) (traverseHandlers blank handlers)
  | [] => .pure rfl
  | ⟨_, _, cls?, body⟩ :: handlers => .node fun _ =>
      .bind (numbers_option Path.numbers cls?) fun _ _ => .bind (numbers_block body) fun _ _ =>
        .last (numbers_handlers handlers) (by simp [labelsOfHandlers])

end

theorem Param.numbers (p : Param ι) : Numbers (p.traverse numbering) Param.labels
    (Param.traverse blank) (p.traverse blank) :=
  .node fun _ => .last (numbers_option numbers_spec p.spec?) (by intro; rfl)
    (by intros; simp only [Param.traverse, *])

theorem numbers_params : ∀ ps : List (Param ι),
    Numbers (traverseParams numbering ps) (flatMap Param.labels)
      (traverseParams blank) (traverseParams blank ps)
  | [] => .pure rfl
  | p :: ps => .bind p.numbers fun _ _ => .last (numbers_params ps) (by simp)

theorem Function.numbers (f : Function ι) : Numbers (f.traverse numbering) Function.labels
    (Function.traverse blank) (f.traverse blank) :=
  .node fun _ => .bind (numbers_params f.params) fun _ _ =>
    .bind (numbers_option numbers_spec f.returns?) fun _ _ =>
      .last (numbers_block? f.body?) (by simp [Function.labels])
        (by intros; simp only [Function.traverse, *])

theorem numbers_members : ∀ ms : List (EnumMember ι), Numbers (traverseMembers numbering ms)
      (flatMap EnumMember.labels) (traverseMembers blank) (traverseMembers blank ms)
  | [] => .pure rfl
  | m :: ms => .node fun _ => .bind (numbers_option Expr.numbers m.init?) fun _ _ =>
      .last (numbers_members ms) (by simp [EnumMember.labels])

theorem EnumDecl.numbers (e : EnumDecl ι) : Numbers (e.traverse numbering) EnumDecl.labels
    (EnumDecl.traverse blank) (e.traverse blank) :=
  .node fun _ => .last (numbers_members e.members) (by intro; rfl)
    (by intros; simp only [EnumDecl.traverse, *])

mutual

theorem Item.numbers : ∀ i : Item ι, Numbers (i.traverse numbering) Item.labels
    (Item.traverse blank) (i.traverse blank)
  | .module _ _ items => .node fun _ => .last (numbers_items items)
  | .cls _ _ extends? items => .node fun _ =>
      .bind (numbers_option Path.numbers extends?) fun _ _ => .last (numbers_items items)
  | .function decl | .var decl | .enum decl => .last decl.numbers
  | .synonym _ _ spec => .node fun _ => .last (numbers_spec spec)

theorem numbers_items : ∀ is : List (Item ι), Numbers (traverseItems numbering is) labelsOfItems
      (traverseItems blank) (traverseItems blank is)
  | [] => .pure rfl
  | i :: is => .bind i.numbers fun _ _ => .last (numbers_items is)

end

theorem Module.numbers : Numbers (p.traverse numbering) Module.labels
    (Module.traverse blank) (p.traverse blank) :=
  .node fun _ => .last (numbers_items p.items) (by intro; rfl)
    (by intros; simp only [Module.traverse, *])

/-- The labels of a program are numbered from zero, in the order of the traversal. -/
theorem Module.labels_number : p.number.1.labels = range p.number.2 := by
  obtain ⟨k, hcount, hlabels, -⟩ := p.numbers 0
  rw [Module.number, hcount, hlabels, range_eq_range', Nat.zero_add, nil_append]

theorem Module.labels_number_nodup : p.number.1.labels.Nodup := p.labels_number ▸ nodup_range

theorem labels_sublist_of_getElem? {i : Nat} (h : items[i]? = some item) :
    item.labels.Sublist (labelsOfItems items) := by
  induction items generalizing i with
  | nil => simp at h
  | cons x xs ih =>
    rw [labelsOfItems]
    cases i with
    | zero =>
      obtain rfl : x = item := by simpa using h
      exact sublist_append_left ..
    | succ i => exact (ih (by simpa using h)).trans (sublist_append_right ..)

theorem labelsOfItems_sublist (item : Item ι) : (labelsOfItems item.items).Sublist item.labels := by
  cases item <;> simp [Item.items, Item.labels, labelsOfItems]

/-- What stands at a place among items has part of their labels. -/
theorem labels_sublist_of_itemAt? {path : List Nat} (h : itemAt? items path = some item) :
    item.labels.Sublist (labelsOfItems items) := by
  fun_induction itemAt? items path with
  | case1 => simp at h
  | case2 items i => exact labels_sublist_of_getElem? h
  | case3 items i rest hrest ih =>
    obtain ⟨outer, houter, h⟩ := bind_eq_some_iff.mp h
    exact ((ih outer h).trans (labelsOfItems_sublist outer)).trans
      (labels_sublist_of_getElem? houter)

/-- Different items share no labels. -/
theorem labels_disjoint_of_getElem? (hnodup : (labelsOfItems items).Nodup) {i j : Nat}
    {x y : Item ι} (hx : items[i]? = some x) (hy : items[j]? = some y) (hij : i < j) :
    x.labels.Disjoint y.labels := by
  induction items generalizing i j with
  | nil => simp at hx
  | cons z zs ih =>
    rw [labelsOfItems, nodup_append'] at hnodup
    obtain ⟨j, rfl⟩ := Nat.exists_eq_succ_of_ne_zero (Nat.ne_zero_of_lt hij)
    rw [Nat.succ_eq_add_one, getElem?_cons_succ] at hy
    cases i with
    | zero =>
      obtain rfl : z = x := by simpa using hx
      exact disjoint_of_subset_right (labels_sublist_of_getElem? hy).subset hnodup.2.2
    | succ i => exact ih hnodup.2.1 (by simpa using hx) hy (Nat.lt_of_succ_lt_succ hij)

/-- The first position of a path chooses the item that the rest of it leads into. -/
theorem itemAt?_cons {i : Nat} {rest : List Nat} (h : itemAt? items (i :: rest) = some item) :
    ∃ outer, items[i]? = some outer ∧
      (rest = [] ∧ item = outer ∨ rest ≠ [] ∧ itemAt? outer.items rest = some item) := by
  cases rest with
  | nil => exact ⟨item, h, .inl ⟨rfl, rfl⟩⟩
  | cons j rest =>
    obtain ⟨outer, houter, h⟩ := bind_eq_some_iff.mp h
    exact ⟨outer, houter, .inr ⟨cons_ne_nil _ _, h⟩⟩

theorem itemAt?_nil (path : List Nat) : itemAt? ([] : List (Item ι)) path = none := by
  fun_cases itemAt? ([] : List (Item ι)) path <;> simp

/-- Different items that contain no others share no labels, wherever they stand. -/
theorem labels_disjoint_of_itemAt? (hnodup : (labelsOfItems items).Nodup) {path path' : List Nat}
    {item' : Item ι} (h : itemAt? items path = some item) (h' : itemAt? items path' = some item')
    (hleaf : item.items = []) (hleaf' : item'.items = []) (hne : path ≠ path') :
    item.labels.Disjoint item'.labels := by
  induction path generalizing items path' with
  | nil => simp [itemAt?] at h
  | cons i rest ih =>
    cases path' with
    | nil => simp [itemAt?] at h'
    | cons j rest' =>
      obtain ⟨outer, houter, hinner⟩ := itemAt?_cons h
      obtain ⟨outer', houter', hinner'⟩ := itemAt?_cons h'
      have hpart {x y : Item ι} {path : List Nat}
          (h : path = [] ∧ x = y ∨ path ≠ [] ∧ itemAt? y.items path = some x) :
          x.labels ⊆ y.labels := by
        rcases h with ⟨-, rfl⟩ | ⟨-, h⟩
        · exact .refl _
        · exact ((labels_sublist_of_itemAt? h).trans (labelsOfItems_sublist y)).subset
      rcases Nat.lt_trichotomy i j with hij | rfl | hij
      · exact disjoint_of_subset_left (hpart hinner) (disjoint_of_subset_right
          (hpart hinner') (labels_disjoint_of_getElem? hnodup houter houter' hij))
      · obtain rfl : outer = outer' := some.inj (houter.symm.trans houter')
        rcases hinner with ⟨rfl, rfl⟩ | ⟨-, hinner⟩ <;>
          rcases hinner' with ⟨rfl, rfl⟩ | ⟨-, hinner'⟩
        · exact absurd rfl hne
        · simp [hleaf, itemAt?_nil] at hinner'
        · simp [hleaf', itemAt?_nil] at hinner
        · have hnodup' := hnodup.sublist
            ((labelsOfItems_sublist outer).trans (labels_sublist_of_getElem? houter))
          exact ih hnodup' hinner hinner' fun heq => hne (heq ▸ rfl)
      · exact disjoint_of_subset_left (hpart hinner) (disjoint_of_subset_right
          (hpart hinner') (disjoint_comm.mp
            (labels_disjoint_of_getElem? hnodup houter' houter hij)))

/-! ### Events -/

/-- The labels in the source of a written value. -/
def Written.labels : Written → List NodeId
  | .value e => e.labels
  | .compound _ target operand => target.labels ++ operand.labels
  | .absent | .caught _ => []
  | .element container position e => container.labels ++ (position.labels ++ e.labels)
  | .returned value? => labelsOfOption Expr.labels value?

/-- The labels in a condition. -/
def Condition.labels : Condition → List NodeId
  | .equals whole? left right _ _ _ =>
    labelsOfOption Expr.labels whole? ++ (left.labels ++ right.labels)
  | .truthy e _ => e.labels
  | .instanceOf whole e _ _ => whole.labels ++ e.labels
  | .dispatch => []

/-- The labels of the nodes that an event is about. -/
def Event.labels : Event → List NodeId
  | .read node _ => [node]
  | .write node _ source => node :: source.labels
  | .run node e => node :: e.labels
  | .forget _ => []
  | .test node condition => node :: condition.labels
  | .mayThrow node => [node]

end TypeFlow
