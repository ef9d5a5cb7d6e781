import Mathlib.Data.DFinsupp.WellFounded

/-!
# Values that improve

A value that appears and then goes down a well-founded relation changes only finitely often, and so
do finitely many such values, of which one changes at a time.
-/

namespace TypeFlow

variable {α ι : Type} {r : α → α → Prop}

/-- A value appears, or a lower one takes the place of the one that is there. -/
def Appears (r : α → α → Prop) : Option α → Option α → Prop
  | some new, some old => r new old
  | some _, none => True
  | none, _ => False

theorem appears_wellFounded (hr : WellFounded r) : WellFounded (Appears r) := by
  have hsome (a : α) : Acc (Appears r) (some a) := by
    induction a using hr.induction with
    | _ a ih =>
    refine ⟨_, fun new hnew => ?_⟩
    cases new with
    | none => exact hnew.elim
    | some b => exact ih b hnew
  refine ⟨fun old => ?_⟩
  cases old with
  | some a => exact hsome a
  | none =>
    refine ⟨_, fun new hnew => ?_⟩
    cases new with
    | none => exact hnew.elim
    | some b => exact hsome b

/-- One of the values goes down and all others are kept. -/
def OneLower (r : α → α → Prop) (new old : ι → α) : Prop :=
  ∃ i, r (new i) (old i) ∧ ∀ j, j ≠ i → new j = old j

theorem oneLower_wellFounded [Finite ι] (hr : WellFounded r) :
    WellFounded (OneLower r : (ι → α) → (ι → α) → Prop) := by
  -- Any order of the values will do.
  have hlex := Pi.Lex.wellFounded (WellOrderingRel : ι → ι → Prop) fun _ => hr
  refine Subrelation.wf ?_ hlex
  rintro new old ⟨i, hlower, hothers⟩
  refine ⟨i, fun j hj => hothers j ?_, hlower⟩
  rintro rfl
  exact irrefl_of WellOrderingRel j hj

end TypeFlow
