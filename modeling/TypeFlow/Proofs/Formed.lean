import TypeFlow.Proofs.AscendingLists
import TypeFlow.Proofs.Depth
import TypeFlow.Proofs.Slot

/-!
# Well-formed types

A level of a type is canonical when its payloads are in tag order, belong to tags of the type, are
no literals beside another kind of literal, and have parts that say something. A type is well formed
when all its levels are canonical.

`Ty.Formed` states this together with a condition on the declarations that a type names. What is
asked for besides is a parameter, so that the same lemmas also follow the declarations through types
of any form, or see to it that there are no payloads for methods.
-/

namespace TypeFlow

/-- A shape has fields, in ascending order of their names, and members of enums have an enum or a
value. -/
def Payload.Proper : Payload Ty → Prop
  | .object _ (some fields) => fields ≠ [] ∧ AscendingKeys fields
  | .enum none none => False
  | _ => True

namespace Ty

/-- One level of a type is in the form that the algebra keeps. -/
@[mk_iff] structure Canonical (t : Ty) : Prop where
  ordered : Ordered t.data
  tagged : ∀ p ∈ t.data, p.tag ∈ t.tags
  /-- Literals are dropped when two or more kinds of literals are present. -/
  literal : t.tags.ManyValues → ∀ p ∈ t.data, p.isValue = false
  proper : ∀ p ∈ t.data, p.Proper

end Ty

/-- What is asked of every level of a type. -/
structure Demands where
  /-- Levels are canonical. -/
  canonical : Prop
  /-- There are no payloads for methods. -/
  methodFree : Prop := False
  /-- The declarations that may be named. -/
  ok : DeclId → Prop := fun _ => True

/-- Levels are canonical and there are no payloads for methods. -/
abbrev Demands.full (ok : DeclId → Prop := fun _ => True) : Demands := ⟨True, True, ok⟩

/-- Declarations are among the first ones. -/
abbrev Demands.below (bound : Nat) : Demands := { canonical := False, ok := (· < bound) }

/-- A proposition says whether levels have to be canonical. -/
instance : Coe Prop Demands := ⟨fun canonical => { canonical }⟩

namespace Ty

/-- All levels are as strict as is asked for, and name suitable declarations only. -/
@[mk_iff] inductive Formed (strict : Demands) : Ty → Prop
  | intro {t : Ty} (canonical : strict.canonical → t.Canonical)
      (methodFree : strict.methodFree → ∀ p ∈ t.data, p.tag ≠ .method)
      (decls : ∀ p ∈ t.data, ∀ ds, p.decls? = some ds → ∀ d ∈ ds.ids, strict.ok d)
      (nested : ∀ p ∈ t.data, ∀ c ∈ p.components, Formed strict c) : Formed strict t

/-- All levels are canonical. -/
abbrev WellFormed (t : Ty) : Prop := Formed True t

/-- All levels are canonical and have no payloads for methods. -/
abbrev Full (t : Ty) : Prop := Formed .full t

/-- No level has a payload for methods. -/
abbrev MethodFree (t : Ty) : Prop := Formed ⟨False, True, fun _ => True⟩ t

end Ty

/-- A payload that a formed type may hold. -/
structure Payload.Formed (strict : Demands) (p : Payload Ty) : Prop where
  proper : strict.canonical → p.Proper
  methodFree : strict.methodFree → p.tag ≠ .method
  decls : ∀ ds, p.decls? = some ds → ∀ d ∈ ds.ids, strict.ok d
  nested : ∀ c ∈ p.components, Ty.Formed strict c

/-- Methods name no declarations. -/
theorem Payload.tag_ne_method_of_decls {p : Payload Ty} {ds : DeclSet} (h : p.decls? = some ds) :
    p.tag ≠ .method := by
  cases p <;> simp [Payload.decls?, Payload.tag] at h ⊢

/-- Methods have a type that they return. -/
theorem Payload.tag_ne_method_of_components {p : Payload Ty} (h : p.components = []) :
    p.tag ≠ .method := by
  cases p <;> simp [Payload.tag] at h ⊢

namespace Ty

section

variable {strict : Demands} {t : Ty} {p : Payload Ty}

/-- Formed types are canonical where this is asked for. -/
theorem Formed.canonical (h : t.Formed strict) (hstrict : strict.canonical) : t.Canonical := by
  obtain ⟨hcanonical, -, -, -⟩ := h
  exact hcanonical hstrict

theorem WellFormed.canonical (h : t.WellFormed) : t.Canonical := Formed.canonical h trivial

/-- The payloads of a formed type are formed. -/
theorem Formed.payload (h : t.Formed strict) (hp : p ∈ t.data) : p.Formed strict := by
  obtain ⟨hcanonical, hmethodFree, hdecls, hnested⟩ := h
  exact ⟨fun hstrict => (hcanonical hstrict).proper p hp, fun hstrict => hmethodFree hstrict p hp,
    hdecls p hp, hnested p hp⟩

/-- A type is formed when its payloads are and, where that is asked for, its tags and payloads suit
each other. -/
theorem Formed.of_payloads
    (hlevel : strict.canonical → Ordered t.data ∧ (∀ p ∈ t.data, p.tag ∈ t.tags) ∧
      (t.tags.ManyValues → ∀ p ∈ t.data, p.isValue = false))
    (hpayloads : ∀ p ∈ t.data, p.Formed strict) : t.Formed strict :=
  ⟨fun hstrict => ⟨(hlevel hstrict).1, (hlevel hstrict).2.1, (hlevel hstrict).2.2,
      fun p hp => (hpayloads p hp).proper hstrict⟩,
    fun hstrict p hp => (hpayloads p hp).methodFree hstrict,
    fun p hp => (hpayloads p hp).decls, fun p hp => (hpayloads p hp).nested⟩

/-- Ordered parts make a formed type. -/
theorem Formed.ofParts {tags : Tags} {data : List (Payload Ty)}
    (hordered : strict.canonical → Ordered data)
    (hpayloads : ∀ p ∈ data, p.Formed strict) : (ofParts tags data).Formed strict := by
  refine .of_payloads (fun hstrict => ⟨ofParts_ordered (hordered hstrict), ?_, ?_⟩) ?_
  · intro p hp
    exact (mem_ofParts_data.mp hp).2.1
  · intro hmany p hp
    exact (mem_ofParts_data.mp hp).2.2 hmany
  · intro p hp
    exact hpayloads p (mem_ofParts_data.mp hp).1

@[simp] theorem Formed.ofTags (tags : Tags) : (ofTags tags).Formed strict :=
  .of_payloads (fun _ => ⟨.nil, by simp [Ty.ofTags], by simp [Ty.ofTags]⟩) (by simp [Ty.ofTags])

/-- A type that may be absent is formed together with what stands for it. -/
theorem Formed.getD {t? : Option Ty} {tags : Tags} (h : ∀ t, t? = some t → t.Formed strict) :
    (t?.getD (.ofTags tags)).Formed strict := by
  cases t? with
  | none => exact .ofTags _
  | some t => exact h t rfl

private theorem not_manyValues_single (tag : Tag) : ¬(Tags.single tag).ManyValues := by
  cases tag <;> decide

/-- One payload alone makes a formed type. -/
theorem Formed.exact (hp : p.Formed strict) : (exact p).Formed strict :=
  .of_payloads (fun _ => ⟨List.pairwise_singleton _ _, by simp [Ty.exact],
      fun hmany => absurd hmany (not_manyValues_single p.tag)⟩)
    (by simpa [Ty.exact] using hp)

/-- A formed type is formed when less is asked for. -/
theorem Formed.mono {strict' : Demands} (h : t.Formed strict)
    (hcanonical : strict'.canonical → strict.canonical)
    (hmethodFree : strict'.methodFree → strict.methodFree)
    (hok : ∀ d, strict.ok d → strict'.ok d) : t.Formed strict' := by
  induction h with
  | intro hlevel hmethods hdecls _ ih =>
    refine ⟨fun hstrict => hlevel (hcanonical hstrict),
      fun hstrict => hmethods (hmethodFree hstrict), ?_, ih⟩
    exact fun p hp ds hds d hd => hok d (hdecls p hp ds hds d hd)

theorem Formed.wellFormed (h : t.Formed strict) (hstrict : strict.canonical) : t.WellFormed :=
  h.mono (fun _ => hstrict) False.elim fun _ _ => trivial

theorem MethodFree.of_formed (h : t.Formed strict) (hstrict : strict.methodFree) : t.MethodFree :=
  h.mono False.elim (fun _ => hstrict) fun _ _ => trivial

/-- Every type is formed when nothing is asked for. -/
theorem Formed.of_nothing (t : Ty) : t.Formed False := by
  induction t using levelInduction with
  | step t ih => exact ⟨False.elim, False.elim, fun _ _ _ _ _ _ => trivial, ih⟩

instance : DecidablePred Payload.Proper := fun p => by
  unfold Payload.Proper AscendingKeys
  split <;> infer_instance

instance (t : Ty) : Decidable t.Canonical :=
  haveI : Decidable (Ordered t.data) := inferInstanceAs (Decidable (List.Pairwise _ _))
  decidable_of_iff' _ (canonical_iff t)

/-- A type is formed as far as a number of levels. -/
def isFormed (strict : Demands) [Decidable strict.canonical] [Decidable strict.methodFree]
    [DecidablePred strict.ok] : Nat → Ty → Bool
  | 0, _ => false
  | n + 1, t => (strict.canonical → t.Canonical) ∧
    (strict.methodFree → ∀ p ∈ t.data, p.tag ≠ .method) ∧
    (∀ p ∈ t.data, ∀ ds ∈ p.decls?, ∀ d ∈ ds.ids, strict.ok d) ∧
    ∀ p ∈ t.data, ∀ c ∈ p.components, isFormed strict n c

variable [Decidable strict.canonical] [Decidable strict.methodFree] [DecidablePred strict.ok]

theorem isFormed_iff : ∀ (n : Nat) (t : Ty), t.depth < n → (isFormed strict n t ↔ t.Formed strict)
  | n + 1, t, h => by
    rw [formed_iff, isFormed, decide_eq_true_iff]
    refine and_congr_right' (and_congr_right' (and_congr_right' ?_))
    refine forall₂_congr fun p hp => forall₂_congr fun c hc => isFormed_iff n c ?_
    exact (depth_lt_of_mem_components hp hc).trans_le (Nat.le_of_lt_succ h)

instance : DecidablePred (Formed strict) := fun t =>
  decidable_of_iff _ (isFormed_iff (t.depth + 1) t t.depth.lt_succ_self)

end

/-- Well-formed types with the same slots are equal. -/
theorem Canonical.ext_slot {a b : Ty} (ha : a.Canonical) (hb : b.Canonical)
    (h : ∀ tag, a.slot tag = b.slot tag) : a = b := by
  have htags : a.tags = b.tags := Tags.ext_mem fun tag => by
    rw [← not_iff_not, ← slot_eq_absent_iff, ← slot_eq_absent_iff, h]
  have hdata : a.data = b.data := Ordered.ext ha.ordered hb.ordered fun tag =>
    payload?_eq_of_slot_eq ha.tagged hb.tagged (h tag)
  obtain ⟨s, d⟩ := a
  obtain ⟨t, e⟩ := b
  exact congrArg₂ Ty.mk htags hdata

/-- Beside another kind of literal a slot holds no literal. -/
theorem Canonical.slot_flattened {t : Ty} (ht : t.Canonical) (hmany : t.tags.ManyValues) {tag : Tag}
    (htag : tag ∈ Tags.valueTypes) : (t.slot tag).flattened = t.slot tag := by
  cases hslot : t.slot tag with
  | absent | bare => rfl
  | holds p =>
    obtain ⟨-, hp⟩ := slot_eq_holds_iff.mp hslot
    have hvalue := ht.literal hmany p (payload?_mem hp)
    rw [Payload.isValue, payload?_tag hp] at hvalue
    exact absurd (Tags.mem_iff.mp htag) (by simp [hvalue])

end Ty

end TypeFlow
