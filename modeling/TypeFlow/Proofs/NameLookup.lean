import Mathlib.Data.List.Nodup
import TypeFlow.Program.Resolve
import TypeFlow.Proofs.Algebra

/-!
# What names mean

As long as no scope has a declaration twice under one name, a name means different declarations
wherever it is looked up in scopes. Only imports are taken as they are: what is imported twice is
found twice.
-/

namespace TypeFlow

namespace Declarations

variable {ds : Declarations} {scope : DeclId}

/-- No scope has a declaration twice under one name, or a name without declarations. -/
def HasOnce (ds : Declarations) : Prop :=
  ∀ scope name found, ds.ownMember scope name = some found → found ≠ [] ∧ found.Nodup

/-- The declarations are different, or they are some of the imported ones. -/
def Fair (ds : Declarations) (found : List DeclId) : Prop := found.Nodup ∨ found.Sublist ds.imports

/-- A search for a name gives what some scope itself has under it, or nothing. -/
theorem searchMember_cases (ds : Declarations) (name : String) (n : Nat)
    (stack seen : List DeclId) : ds.searchMember name n stack seen = [] ∨
      ∃ s, ds.ownMember s name = some (ds.searchMember name n stack seen) := by
  fun_induction searchMember ds name n stack seen with
  | case1 _ _ _ _ _ ih => exact ih
  | case2 _ s _ _ _ _ hown => exact .inr ⟨s, hown⟩
  | case3 _ _ _ _ _ _ _ ih => exact ih
  | case4 => exact .inl rfl

/-- A scope has no declaration twice under one name, inherited or not. -/
theorem scopeMember_nodup (h : ds.HasOnce) (scope : DeclId) (name : String) :
    (ds.scopeMember scope name).Nodup := by
  rcases ds.searchMember_cases name _ [scope] [] with hnone | ⟨s, hs⟩
  · rw [scopeMember, hnone]
    exact .nil
  · exact (h s name _ hs).2

theorem lookupFrom_fair (h : ds.HasOnce) (scope : DeclId) (name : String) :
    ds.Fair (ds.lookupFrom scope name) := by
  unfold lookupFrom
  generalize hfound : (ds.chain scope).findSome? _ = found?
  cases found? with
  | none => exact .inr List.filter_sublist
  | some found =>
    obtain ⟨s, -, hs⟩ := List.exists_of_findSome?_eq_some hfound
    split at hs
    · have hnodup := scopeMember_nodup h s name
      split at hs
      · simp at hs
      · cases hs
        exact .inl hnodup
    · simp at hs

theorem membersOf_nodup (ds : Declarations) (owners : List DeclId) (name : String) :
    (ds.membersOf owners name).Nodup := by
  unfold membersOf
  split
  · refine foldl_invariant ?_ .nil
    intro found hfound d _
    split
    · exact hfound
    · next hnew =>
      refine hfound.append (List.nodup_singleton d) (List.disjoint_singleton.mpr ?_)
      simpa using hnew
  · exact .nil

/-- What a longer path means is different in any case. -/
theorem lookupPath_fair (h : ds.HasOnce) (scope : DeclId) (path : List String) :
    ds.Fair (ds.lookupPath scope path) := by
  cases path with
  | nil => exact .inl .nil
  | cons first rest =>
    exact foldl_invariant
      (fun found _ name _ => .inl (ds.membersOf_nodup found name)) (lookupFrom_fair h scope first)

end Declarations

namespace Resolution

variable {s : Resolution}

theorem meaning_fair (h : s.HasOnce) (site : Site) (name : String) :
    s.Fair (s.meaning site name) := by
  unfold meaning
  split
  · exact .inl (List.nodup_singleton _)
  · exact Declarations.lookupFrom_fair h _ _

theorem memberMeaning_fair (h : s.HasOnce) (site : Site) (object : Expr NodeId)
    (property : String) : s.Fair (s.memberMeaning site object property) := by
  unfold memberMeaning
  split
  · split
    · exact .inl (Declarations.scopeMember_nodup h _ _)
    · exact .inl .nil
  · exact .inl (s.membersOf_nodup _ _)
  · exact .inl (s.membersOf_nodup _ _)
  · exact .inl .nil

end Resolution

end TypeFlow
