import TypeFlow.Proofs.Inheritance
import TypeFlow.Proofs.Places

/-!
# Inherited members

A class has the members of the first class that declares them on a walk through its superclasses,
depth first and from left to right. The search for a name in a class is such a walk, which only goes
through classes and stops at the first one that declares the name.
-/

namespace TypeFlow

open List Relation

namespace Declarations

variable {ds : Declarations} {c : DeclId} {name : String}

/-- A search for a name in classes looks at the classes that a walk from left to right meets. -/
theorem searchMember_eq (hclasses : ∀ d, ∀ c ∈ ds.superclasses.getD d [], (ds.decl c).kind = .cls)
    {stack seen new : List DeclId} {n : Nat}
    (h : DepthFirst (fun c => ds.superclasses.getD c []) seen stack new)
    (hn : stepsLeft ds.superclasses stack seen ≤ n)
    (hstack : ∀ c ∈ stack, (ds.decl c).kind = .cls) :
    ds.searchMember name n stack seen = (new.findSome? fun s => ds.ownMember s name).getD [] := by
  induction h generalizing n with
  | done => cases n <;> rfl
  | @pass seen stack _ c hc _ ih =>
    obtain ⟨i, rfl⟩ := Nat.exists_eq_add_of_lt (stepsLeft_pass.trans_le hn)
    simpa [searchMember, hc] using ih (Nat.le_add_right _ i) (forall_mem_cons.mp hstack).2
  | @meet seen stack new c hc _ ih =>
    have hless : stepsLeft ds.superclasses (ds.superclasses.getD c [] ++ stack) (seen ++ [c]) <
        stepsLeft ds.superclasses (c :: stack) seen := stepsLeft_see hc (by simp)
    obtain ⟨i, rfl⟩ := Nat.exists_eq_add_of_lt (hless.trans_le hn)
    cases hown : ds.ownMember c name with
    | some found => simp [searchMember, hc, hown]
    | none =>
      obtain ⟨hkind, hrest⟩ := forall_mem_cons.mp hstack
      have hfound := ih (Nat.le_add_right _ i) (forall_mem_append.mpr ⟨hclasses c, hrest⟩)
      simpa [searchMember, hc, hown, hkind, pushAll_eq] using hfound

end Declarations

/-- The superclasses of a class are those that are reached from it, in every hierarchy. What a name
means in a class is what it means in the first of them that declares the name, depth first and from
left to right. -/
theorem Source.members_inherited (source : Source) (c : DeclId) :
    let p := source.program
    (∀ d, p.table.isSubclass c d = true ↔ ReflTransGen (fun a b => b ∈ p.table.parents a) c d) ∧
    p.table.isSubclass c c = true ∧
    (∀ d e, p.table.isSubclass c d = true → p.table.isSubclass d e = true →
      p.table.isSubclass c e = true) ∧
    ((p.decl c).kind = .cls → (∀ name, p.scopeMember c name ≠ [] ↔
        ∃ s, p.table.isSubclass c s = true ∧ (p.ownMember s name).isSome) ∧
      ∃ order, (∀ walk, DepthFirst p.table.parents [] [c] walk ↔ walk = order) ∧
        ∀ name before s after found, order = before ++ s :: after →
          (∀ b ∈ before, p.ownMember b name = none) → p.ownMember s name = some found →
          p.scopeMember c name = found) := by
  intro p
  refine ⟨fun d => DeclTable.isSubclass_iff, DeclTable.isSubclass_refl _ c,
    fun d e => DeclTable.isSubclass_trans, fun hc => ?_⟩
  have htidy := source.program_tidy
  obtain ⟨order, hwalk⟩ := DepthFirst.exists_new (fun _ => le_rfl) [] [c]
  have hmember (name : String) :
      p.scopeMember c name = (order.findSome? fun s => p.ownMember s name).getD [] :=
    Declarations.searchMember_eq htidy.classes hwalk (stepsLeft_nil _ _).le
      (forall_mem_singleton.mpr hc)
  refine ⟨fun name => ?_, order, fun walk => ⟨hwalk.unique, fun heq => heq ▸ hwalk⟩, ?_⟩
  · have hsubclass (s : DeclId) : p.table.isSubclass c s ↔ s ∈ order :=
      DeclTable.isSubclass_iff.trans hwalk.mem_iff.symm
    simp only [hmember, hsubclass]
    cases hfound : order.findSome? fun s => p.ownMember s name with
    | none => simpa using findSome?_eq_none_iff.mp hfound
    | some found =>
      obtain ⟨s, hs, hown⟩ := exists_of_findSome?_eq_some hfound
      exact ⟨fun _ => ⟨s, hs, by simp [hown]⟩, fun _ => (htidy.hasOnce s name found hown).1⟩
  · intro name before s after found horder hbefore hs
    rw [hmember, horder, findSome?_append, findSome?_eq_none_iff.mpr hbefore]
    simp [hs]

/-- A class with two superclasses, which inherits from the first one in a circle. -/
def entwined : Source :=
  .ofItems [.cls () "C" (some (.ofDotted "B")) [], .cls () "B" (some (.ofDotted "C")) [.ofVar "x"],
    .cls () "B" none [.ofVar "x", .ofVar "y"]]

/-- What both superclasses declare is found in the first one, and the rest in the other one. -/
theorem members_inherited_entwined :
    let p := entwined.program
    (p.decl 1).kind = .cls ∧ p.table.parents 1 = [2, 4] ∧ p.table.parents 2 = [1] ∧
      p.scopeMember 1 "x" = [3] ∧ p.scopeMember 1 "y" = [6] := by
  intro p
  have hkind : (p.decl 1).kind = .cls := by decide +kernel
  obtain ⟨-, -, -, hmembers⟩ := Source.members_inherited entwined 1
  obtain ⟨-, order, hwalk, hfirst⟩ := hmembers hkind
  have hparents :
      p.table.parents 1 = [2, 4] ∧ p.table.parents 2 = [1] ∧ p.table.parents 4 = [] := by
    decide +kernel
  have horder : order = [1, 2, 4] := by
    refine ((hwalk _).mp (.meet (by simp) ?_)).symm
    rw [hparents.1]
    refine .meet (by simp) ?_
    rw [hparents.2.1]
    refine .pass (by simp) (.meet (by simp) ?_)
    rw [hparents.2.2]
    exact .done _
  exact ⟨hkind, hparents.1, hparents.2.1,
    hfirst "x" [1] 2 [4] [3] horder (by decide +kernel) (by decide +kernel),
    hfirst "y" [1, 2] 4 [] [6] horder (by decide +kernel) (by decide +kernel)⟩

end TypeFlow
