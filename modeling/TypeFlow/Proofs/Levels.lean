import TypeFlow.Proofs.TypedefExpansion

/-!
# The levels of a type

Types are compared and intersected level by level, and typedefs are expanded where a level is
reached. `EveryLevel` says that something holds of all levels that are reached in this way, also of
those of typedefs that refer to themselves.

The unqualified object stands for values of many kinds, and members of enumerations stand for
literals. The conditions on a level say that these two rules do not compete with payloads, which
describe one kind each.
-/

namespace TypeFlow.Ty

open Tags

variable {table : DeclTable} {P C : Ty → Prop} {t u c : Ty} {p : Payload Ty}

theorem isNever_eq_false_iff : t.isNever = false ↔ ∃ tag, tag ∈ t.tags := by
  rw [← Bool.not_eq_true, isNever, Tags.isEmpty_iff]
  simp

theorem expand_of_isNever (h : t.isNever) : t.expand table = t :=
  expand_of_notMem (isEmpty_iff.mp h .synonym)

/-- The types that are met inside of a type, where typedefs are expanded on the way. -/
inductive Inside (table : DeclTable) (t : Ty) : Ty → Prop
  | self : Inside table t t
  | component {u c : Ty} {p : Payload Ty} (h : Inside table t u) (hp : p ∈ (u.expand table).data)
      (hc : c ∈ p.components) : Inside table t c

theorem Inside.trans (htu : Inside table t u) (huc : Inside table u c) : Inside table t c := by
  induction huc with
  | self => exact htu
  | component _ hp hc ih => exact ih.component hp hc

/-- The types that are met inside of a type, as far as a number of levels. -/
def levels (table : DeclTable) : Nat → Ty → List Ty
  | 0, t => [t]
  | n + 1, t => t :: (t.expand table).data.flatMap fun p => p.components.flatMap (levels table n)

/-- All levels that are met inside of a type satisfy `P`. -/
def EveryLevel (table : DeclTable) (P : Ty → Prop) (t : Ty) : Prop :=
  ∀ u, Inside table t u → P (u.expand table)

namespace EveryLevel

theorem level (h : t.EveryLevel table P) : P (t.expand table) := h t .self

theorem component (h : t.EveryLevel table P) (hp : p ∈ (t.expand table).data)
    (hc : c ∈ p.components) : c.EveryLevel table P :=
  fun u hu => h u (.trans (.component .self hp hc) hu)

/-- A condition holds of every level if it holds of the first one and inside of the components. -/
theorem of_components (hlevel : P (t.expand table))
    (hcomponents : ∀ p ∈ (t.expand table).data, ∀ c ∈ p.components, c.EveryLevel table P) :
    t.EveryLevel table P := by
  intro u hu
  suffices h : u = t ∨ u.EveryLevel table P from h.elim (· ▸ hlevel) level
  induction hu with
  | self => exact .inl rfl
  | component _ hp hc ih =>
    rcases ih with rfl | h
    · exact .inr (hcomponents _ hp _ hc)
    · exact .inr (h.component hp hc)

/-- A condition holds of every level if it holds of the first ones and no others are met. -/
theorem of_levels (n : Nat) (h : ∀ u ∈ t.levels table n, P (u.expand table) ∧
    ∀ p ∈ (u.expand table).data, ∀ c ∈ p.components, c ∈ t.levels table n) :
    t.EveryLevel table P := by
  intro u hu
  refine (h u ?_).1
  induction hu with
  | self => cases n <;> simp [levels]
  | component _ hp hc ih => exact (h _ ih).2 _ hp _ hc

/-- Expanding a type changes nothing about its levels. -/
theorem expand (htable : table.Expanded) (h : t.EveryLevel table P) :
    (t.expand table).EveryLevel table P := by
  refine of_components ((expand_expand htable t).symm ▸ h.level) ?_
  rw [expand_expand htable]
  exact fun p hp c hc => h.component hp hc

/-- Kinds without payloads are a single level. -/
theorem ofTags {tags : Tags} (hsynonym : .synonym ∉ tags) (h : P (ofTags tags)) :
    (ofTags tags).EveryLevel table P := by
  have heq : (Ty.ofTags tags).expand table = Ty.ofTags tags := expand_of_notMem hsynonym
  refine of_components (heq.symm ▸ h) ?_
  rw [heq]
  exact fun p hp => absurd hp List.not_mem_nil

end EveryLevel

/-! ### Conditions that components inherit -/

/-- A condition passes from a type to its expansion and to the components of that. -/
structure Hereditary (table : DeclTable) (C : Ty → Prop) : Prop where
  expand : ∀ {t : Ty}, C t → C (t.expand table)
  component : ∀ {t c : Ty} {p : Payload Ty}, C t → p ∈ (t.expand table).data →
    c ∈ p.components → C c

theorem Hereditary.everyLevel (htable : table.Expanded) (P : Ty → Prop) :
    Hereditary table (EveryLevel table P) where
  expand ht := ht.expand htable
  component ht hp hc := ht.component hp hc

/-- The literals behind members of an enumeration are a component, unless nothing is known about
them. -/
theorem enumValue_cases (t : Ty) :
    (∃ p ∈ t.data, t.enumValue ∈ p.components) ∨ t.enumValue = ofTags .enumValues := by
  unfold Ty.enumValue
  split
  · next hp => exact .inl ⟨_, payload?_mem hp, by simp⟩
  · exact .inr rfl

theorem enumValue_of_none (h : t.payload? .enum = none) :
    t.enumValue = ofTags .enumValues := by simp [enumValue, h]

/-- The payload of the members of an enumeration is made up of its declaration and its literals. -/
theorem exists_of_payload?_enum (h : t.payload? .enum = some p) :
    ∃ d v, p = .enum d v ∧ t.enumDecl? = d ∧ t.enumValue = v.getD (ofTags .enumValues) := by
  have htag := payload?_tag h
  cases p with
  | enum d v =>
    refine ⟨d, v, rfl, by simp [enumDecl?, h], ?_⟩
    cases v <;> simp [enumValue, h]
  | _ => simp [Payload.tag] at htag

theorem Hereditary.enumValue (hC : Hereditary table C) (hliterals : C (ofTags .enumValues))
    (ht : C t) : C (t.expand table).enumValue := by
  rcases (t.expand table).enumValue_cases with ⟨p, hp, hc⟩ | heq
  · exact hC.component ht hp hc
  · exact heq ▸ hliterals

/-! ### Conditions on a level -/

instance (tags : Tags) (P : Tag → Prop) [DecidablePred P] : Decidable (∀ tag ∈ tags, P tag) :=
  decidable_of_iff (∀ tag ∈ tags.toList, P tag) (by simp only [mem_toList])

theorem isPlainObject_iff : t.isPlainObject ↔ .object ∈ t.tags ∧ t.payload? .object = none := by
  simp [isPlainObject, mem_iff]

/-- Beside the unqualified object there are no payloads of the kinds that it stands for. -/
def LoneObject (t : Ty) : Prop := t.isPlainObject → ∀ tag ∈ objectLike, t.payload? tag = none

instance : DecidablePred LoneObject := fun t => inferInstanceAs (Decidable (t.isPlainObject → _))

/-- Beside members of a known enumeration, or with known literals, there are no kinds of
literals. -/
def LoneEnum (t : Ty) : Prop := (t.payload? .enum).isSome → ∀ tag ∈ enumValues, tag ∉ t.tags

instance : DecidablePred LoneEnum := fun t =>
  inferInstanceAs (Decidable ((t.payload? .enum).isSome → _))

/-- The type consists of kinds of literals that members of an enumeration may stand for. -/
@[mk_iff] structure IsLiteral (t : Ty) : Prop where
  isNever_eq_false : t.isNever = false
  tags : ∀ tag ∈ t.tags, tag ∈ enumValues

instance : DecidablePred IsLiteral := fun t => decidable_of_iff' _ (isLiteral_iff t)

/-- Members of an enumeration stand for literals. -/
def LiteralEnum (t : Ty) : Prop := t.enumValue.IsLiteral

instance : DecidablePred LiteralEnum := fun t => inferInstanceAs (Decidable t.enumValue.IsLiteral)

theorem isLiteral_enumValues : (ofTags enumValues).IsLiteral := ⟨by decide, fun _ => id⟩

theorem literalEnum_ofTags (tags : Tags) : (ofTags tags).LiteralEnum := isLiteral_enumValues

theorem IsLiteral.exists_mem (h : t.IsLiteral) : ∃ tag ∈ t.tags, tag ∈ enumValues := by
  obtain ⟨tag, htag⟩ := isNever_eq_false_iff.mp h.isNever_eq_false
  exact ⟨tag, htag, h.tags tag htag⟩

theorem IsLiteral.expand_eq (h : t.IsLiteral) : t.expand table = t :=
  expand_of_notMem fun hsynonym => absurd (h.tags _ hsynonym) (by decide)

end TypeFlow.Ty
