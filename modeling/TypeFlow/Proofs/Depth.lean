import Mathlib.Data.Nat.Init
import TypeFlow.Ty.Union

/-!
# Nesting of types

The depth of a type exceeds the depths of the components of its payloads, which gives an induction
over the levels of a type.
-/

namespace TypeFlow

open Payload

namespace Payload

variable {α : Type}

@[simp] theorem components_elements (t : α) : (elements t).components = [t] := rfl

@[simp] theorem components_tuple (ts : List α) : (tuple ts).components = ts := rfl

@[simp] theorem components_dictionary (k v : α) : (dictionary k v).components = [k, v] := rfl

@[simp] theorem components_method (args : List α) (r : α) :
    (method args r).components = args ++ [r] := rfl

@[simp] theorem components_enum (d : Option DeclId) (v : Option α) :
    (enum d v).components = v.toList := by
  cases v <;> rfl

end Payload

namespace Ty

variable {n : Nat} {p : Payload Ty}

/-- The depth of a list of types bounds the depth of its members, and is the least such bound. -/
theorem depthList_le_iff {ts : List Ty} : depthList ts ≤ n ↔ ∀ t ∈ ts, t.depth ≤ n := by
  induction ts with
  | nil => simp [depthList]
  | cons t ts ih => simp [depthList, Nat.max_le, ih]

theorem depthFields_le_iff {fields : List (String × Ty)} :
    depthFields fields ≤ n ↔ ∀ t ∈ fields.map Prod.snd, t.depth ≤ n := by
  induction fields with
  | nil => simp [depthFields]
  | cons f fields ih => simp only [depthFields, Nat.max_le, ih, List.map_cons, List.forall_mem_cons]

theorem depthData_le_iff {data : List (Payload Ty)} :
    depthData data ≤ n ↔ ∀ p ∈ data, depthPayload p ≤ n := by
  induction data with
  | nil => simp [depthData]
  | cons p data ih => simp [depthData, Nat.max_le, ih]

/-- Above zero the depth of a payload is decided by its components. -/
theorem depthPayload_le_succ_iff : depthPayload p ≤ n + 1 ↔ ∀ c ∈ p.components, c.depth ≤ n := by
  cases p with
  | tuple ts => simp [depthPayload, depthList_le_iff]
  | method args r =>
    simp only [depthPayload, components, Nat.add_le_add_iff_right, Nat.max_le,
      depthList_le_iff, List.mem_append, List.mem_singleton]
    exact ⟨fun h c hc => hc.elim (h.1 c) (· ▸ h.2),
      fun h => ⟨fun c hc => h c (.inl hc), h r (.inr rfl)⟩⟩
  | object ds shape =>
    cases shape with
    | none => simp [depthPayload, components]
    | some fields =>
      simp only [depthPayload, components, Nat.add_le_add_iff_right, depthFields_le_iff]
  | enum d value => cases value <;> simp [depthPayload]
  | _ => simp [depthPayload, components, Nat.max_le]

/-- A payload has depth zero when it holds no components. -/
theorem depthPayload_eq_zero_iff : depthPayload p = 0 ↔ p.isNested = false := by
  cases p with
  | object ds shape => cases shape <;> simp [depthPayload, isNested]
  | enum d value => cases value <;> simp [depthPayload, isNested]
  | _ => simp [depthPayload, isNested]

/-- Above zero the depth of a type is decided by the components of its payloads. -/
theorem depth_le_succ_iff {t : Ty} :
    t.depth ≤ n + 1 ↔ ∀ p ∈ t.data, ∀ c ∈ p.components, c.depth ≤ n := by
  obtain ⟨tags, data⟩ := t
  simp only [depth, depthData_le_iff, depthPayload_le_succ_iff]

/-- A type has depth zero when no payload holds components. -/
theorem depth_eq_zero_iff {t : Ty} : t.depth = 0 ↔ ∀ p ∈ t.data, p.isNested = false := by
  obtain ⟨tags, data⟩ := t
  rw [← Nat.le_zero, depth, depthData_le_iff]
  exact forall₂_congr fun p _ => by rw [Nat.le_zero, depthPayload_eq_zero_iff]

theorem components_of_not_isNested (h : p.isNested = false) : p.components = [] := by
  cases p with
  | object _ shape => cases shape <;> simp [isNested, components] at h ⊢
  | enum _ v => cases v <;> simp [isNested] at h ⊢
  | _ => simp [isNested, components] at h ⊢

/-- Components are nested less deeply than the type that holds them. -/
theorem depth_lt_of_mem_components {t c : Ty} (hp : p ∈ t.data) (hc : c ∈ p.components) :
    c.depth < t.depth := by
  obtain ⟨n, hn⟩ : ∃ n, t.depth = n := ⟨_, rfl⟩
  cases n with
  | zero => simp [components_of_not_isNested (depth_eq_zero_iff.mp hn p hp)] at hc
  | succ n =>
    have := depth_le_succ_iff.mp (Nat.le_of_eq hn) p hp c hc
    omega

/-- Induction over the levels of a type: what holds of a type when it holds of all components of its
payloads holds of every type. -/
theorem levelInduction {motive : Ty → Prop}
    (step : ∀ t : Ty, (∀ p ∈ t.data, ∀ c ∈ p.components, motive c) → motive t) (t : Ty) :
    motive t := by
  induction hn : t.depth using Nat.strong_induction_on generalizing t with
  | _ n ih =>
    refine step t fun p hp c hc => ih c.depth ?_ c rfl
    exact hn ▸ depth_lt_of_mem_components hp hc

end Ty

end TypeFlow
