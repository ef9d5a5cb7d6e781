import TypeFlow.Proofs.DeclaredVariables

/-!
# Places of declarations

No two declarations stand at one place, and the items at two places that contain no other items
share no labels. So the labels of different roots are different ones.
-/

namespace TypeFlow

open List Option

namespace Source

/-- Every place is that of one declaration, and not the place where all items stand. -/
theorem program_path?_inj (source : Source) {d e : DeclId} {path : List Nat}
    (hd : (source.program.decl d).path? = some path)
    (he : (source.program.decl e).path? = some path) : d = e ∧ path ≠ [] := by
  rw [source.program_decl_of_path? hd] at hd
  rw [source.program_decl_of_path? he] at he
  obtain ⟨hne, hunique, -⟩ := Module.declared_placed _ _ hd
  exact ⟨hunique e he, hne⟩

theorem program_tidy (source : Source) : source.program.Tidy := by
  obtain ⟨start, -, -, -, -, htidy, hspreads⟩ :=
    Module.declared_spreads source.completed.number.1 source.completed.number.2
  have hwalk : Relates Resolution.Extends (do
      resolveSuperclasses 0 source.program.root.items
      resolveItems 0 source.program.root.items) :=
    (resolveSuperclasses_extends 0 _).bind fun _ => resolveItems_extends 0 _
  refine (hwalk _).tidy ⟨fun scope name found hfound => ?_, fun n => .inl ?_, fun d c hc => ?_⟩
  · exact (hspreads.tidy htidy scope _ (mem_of_lookup hfound)).1
  · rw [Names.lookup, Array.getD_eq_getD_getElem?, Array.getElem?_replicate]
    split <;> exact .nil
  · rw [Array.getD_eq_getD_getElem?, Array.getElem?_replicate] at hc
    split at hc <;> cases hc

end Source

/-- The labels of what a root consists of: a function, or the variables of a module or class. -/
def Program.rootLabels (p : Program) (root : DeclId) : List NodeId :=
  if (p.decl root).kind = .function then labelsOfOption Function.labels (p.function? root)
  else (p.scopeItems root).flatMap fun
    | .var v => v.labels
    | _ => []

namespace Program

variable {p : Program} {root : DeclId}

/-- The items at a place are those of a module or class. -/
def StandsAt (p : Program) (root : DeclId) (place : List Nat) : Prop :=
  root = 0 ∧ place = [] ∨ (p.decl root).path? = some place

/-- The item at a place belongs to a root: it is the function itself, or a variable of the module or
class. -/
inductive Owns (p : Program) (root : DeclId) (path : List Nat) : Item NodeId → Prop
  | function (f : Function NodeId) (h : (p.decl root).path? = some path) :
    Owns p root path (.function f)
  | var (v : VarDecl NodeId) {outer : List Nat} {j : Nat} (h : path = outer ++ [j])
      (houter : p.StandsAt root outer) : Owns p root path (.var v)

theorem Owns.items_eq_nil {path : List Nat} {item : Item NodeId} (h : p.Owns root path item) :
    item.items = [] := by
  cases h <;> rfl

theorem mem_scopeItems {item : Item NodeId} (h : item ∈ p.scopeItems root) :
    root = 0 ∧ item ∈ p.root.items ∨ ∃ outer, p.item? root = some outer ∧ item ∈ outer.items := by
  unfold scopeItems moduleItems? classItems? at h
  split at h
  · next hroot => exact .inl ⟨hroot, h⟩
  · right
    cases houter : p.item? root with
    | none => simp [houter] at h
    | some outer =>
      refine ⟨outer, rfl, ?_⟩
      cases outer <;> simp [houter] at h
      all_goals exact h

/-- Every label of a root belongs to an item of it. -/
theorem owns_of_mem_rootLabels (hpath : (p.decl root).path? ≠ some []) {n : NodeId}
    (h : n ∈ p.rootLabels root) : ∃ path item, itemAt? p.root.items path = some item ∧
      p.Owns root path item ∧ n ∈ item.labels := by
  unfold rootLabels at h
  split at h
  · cases hf : p.function? root with
    | none => simp [hf, labelsOfOption] at h
    | some f =>
      obtain ⟨path, hplace, hitem⟩ := bind_eq_some_iff.mp (item?_of_function? hf)
      rw [hf] at h
      exact ⟨path, .function f, hitem, .function f hplace, h⟩
  · obtain ⟨item, hitem, hn⟩ := mem_flatMap.mp h
    cases item with
    | var v =>
      rcases mem_scopeItems hitem with ⟨hroot, hitem⟩ | ⟨outer, houter, hitem⟩
      · obtain ⟨j, hj⟩ := mem_iff_getElem?.mp hitem
        exact ⟨[j], .var v, hj, .var v (nil_append _).symm (.inl ⟨hroot, rfl⟩), hn⟩
      · obtain ⟨j, hj⟩ := mem_iff_getElem?.mp hitem
        obtain ⟨path, hplace, houter⟩ := bind_eq_some_iff.mp houter
        have hne : path ≠ [] := fun heq => hpath (heq ▸ hplace)
        refine ⟨path ++ [j], .var v, ?_, .var v rfl (.inr hplace), hn⟩
        rw [itemAt?_append _ hne, houter]
        exact hj
    | module | cls | function | enum | synonym => simp at hn

end Program

namespace Source

theorem program_standsAt_inj (source : Source) {d e : DeclId} {place : List Nat}
    (hd : source.program.StandsAt d place) (he : source.program.StandsAt e place) : d = e := by
  rcases hd with ⟨rfl, rfl⟩ | hd <;> rcases he with ⟨rfl, hplace⟩ | he
  · rfl
  · exact absurd rfl (source.program_path?_inj he he).2
  · exact absurd hplace (source.program_path?_inj hd hd).2
  · exact (source.program_path?_inj hd he).1

/-- Different roots have no labels in common. -/
theorem rootLabels_disjoint (source : Source) {root root' : DeclId} (hne : root ≠ root') :
    (source.program.rootLabels root).Disjoint (source.program.rootLabels root') := by
  intro n hn hn'
  have hpath (root : DeclId) : (source.program.decl root).path? ≠ some [] :=
    fun h => (source.program_path?_inj h h).2 rfl
  obtain ⟨path, item, hitem, howns, hn⟩ := Program.owns_of_mem_rootLabels (hpath root) hn
  obtain ⟨path', item', hitem', howns', hn'⟩ := Program.owns_of_mem_rootLabels (hpath root') hn'
  have hnodup := (nodup_cons.mp source.completed.labels_number_nodup).2
  obtain rfl : path = path' := by
    by_contra hpaths
    exact labels_disjoint_of_itemAt? hnodup hitem hitem' howns.items_eq_nil howns'.items_eq_nil
      hpaths hn hn'
  obtain rfl : item = item' := some.inj (hitem.symm.trans hitem')
  cases howns with
  | function f h =>
    cases howns' with
    | function _ h' => exact hne (source.program_path?_inj h h').1
  | var v h houter =>
    cases howns' with
    | var _ h' houter' =>
      obtain ⟨rfl, -⟩ := append_inj' (h.symm.trans h') rfl
      exact hne (source.program_standsAt_inj houter houter')

end Source

end TypeFlow
