import TypeFlow.Proofs.EqualityValues
import TypeFlow.Proofs.BlockReplays

/-!
# What tests for classes and members may tell

A test tells an outcome only if all kinds of values that the tested type allows agree. Among the
declarations of one kind, however, it is enough that one of them has the member, and an instance of
one of several classes is taken for an instance of all of them. That a value is no instance is told
only if it is one of none of the classes: types of instances are flat, they have no payloads but
classes, and overlap grows with such types.
-/

namespace TypeFlow

open Context List Ty

namespace Ty

variable {table : DeclTable} {a b x : Ty} {R S : Ty → Ty → Prop}

/-! ### Flat types -/

/-- All payloads are those of objects. -/
def Flat (t : Ty) : Prop := ∀ p ∈ t.data, p.tag = .object

namespace Flat

theorem payload?_eq_none (h : a.Flat) {tag : Tag} (htag : tag ≠ .object) :
    a.payload? tag = none := by
  refine Option.eq_none_iff_forall_not_mem.mpr fun p hp => htag ?_
  rw [← payload?_tag hp, h p (payload?_mem hp)]

theorem ofTags (tags : Tags) : (Ty.ofTags tags).Flat := by simp [Flat, Ty.ofTags]

theorem union (ha : a.Flat) (hb : b.Flat) : (a.union b).Flat := by
  intro r hr
  rw [union_eq_unionStep] at hr
  rcases mem_unionStep_data hr with hr | hr | ⟨p, hp, q, -, hr⟩
  · exact ha r hr
  · exact hb r hr
  · exact (mergePayload_tag hr).1.trans (ha p hp)

theorem unionAll {ts : List Ty} (h : ∀ t ∈ ts, t.Flat) : (unionAll ts).Flat :=
  foldlRecOn ts Ty.union (.ofTags _) fun _ ha t ht => ha.union (h t ht)

theorem without (h : a.Flat) (tags : Tags) : (a.without tags).Flat :=
  fun p hp => h p (mem_filter.mp hp).1

theorem expand (h : a.Flat) (table : DeclTable) : (a.expand table).Flat := by
  unfold Ty.expand
  split
  · rw [h.payload?_eq_none (by decide)]
    exact (h.without _).union (.ofTags _)
  · exact h

theorem enumValue_eq (h : a.Flat) : a.enumValue = .ofTags .enumValues := by
  rw [enumValue, h.payload?_eq_none (by decide)]

theorem charOverlap_left (h : a.Flat) :
    charOverlap a x ↔ .char ∈ a.tags ∧ (.number ∈ x.tags ∨ .long ∈ x.tags) := by
  simp [charOverlap, h.payload?_eq_none, Tags.mem_iff]

theorem charOverlap_right (h : a.Flat) :
    charOverlap x a ↔ .char ∈ x.tags ∧ (.number ∈ a.tags ∨ .long ∈ a.tags) := by
  simp [charOverlap, h.payload?_eq_none, Tags.mem_iff]

end Flat

/-- A flat type and a larger one. -/
structure FlatBelow (a b : Ty) : Prop where
  left : a.WellFormed
  right : b.WellFormed
  flat : a.Flat
  flat' : b.Flat
  below : a.Below b

namespace FlatBelow

theorem expand (htable : table.WellFormed) (h : a.FlatBelow b) :
    (a.expand table).FlatBelow (b.expand table) where
  left := h.left.expand htable
  right := h.right.expand htable
  flat := h.flat.expand table
  flat' := h.flat'.expand table
  below := h.below.expand htable h.left h.right

theorem without_enum (h : a.FlatBelow b) :
    (a.without (.single .enum)).FlatBelow (b.without (.single .enum)) where
  left := h.left.without _
  right := h.right.without _
  flat := h.flat.without _
  flat' := h.flat'.without _
  below := by rw [Below, ← without_union h.left h.right (by decide), h.below]

theorem isNever_eq_false (h : a.FlatBelow b) (ha : a.isNever = false) : b.isNever = false := by
  obtain ⟨tag, htag⟩ := isNever_eq_false_iff.mp ha
  exact isNever_eq_false_iff.mpr ⟨tag, h.below.mem htag⟩

/-- What has an object in common with the smaller type has one in common with the larger one. -/
theorem shared (h : a.FlatBelow b) {tag : Tag} (hx : tag ∈ x.tags) (ha : tag ∈ a.tags)
    (hpayloads : ∀ p q, x.payload? tag = some p → a.payload? tag = some q → p.Overlaps table R q) :
    x.LevelOverlaps table S b := by
  refine .shared hx (h.below.mem ha) fun p r hp hr => ?_
  obtain ⟨q, hq, hmerge⟩ := h.below.exists_payload h.left h.right ha hr
  have hobject := h.flat q (payload?_mem hq)
  have hobject' := h.flat' r (payload?_mem hr)
  have hoverlaps := hpayloads p q hp hq
  cases hoverlaps with
  | value hvalue => exact absurd hvalue (by rw [Payload.isValue, hobject]; decide)
  | @object _ ds s s' hmeets =>
    obtain ⟨c, hc, d, hd, hsub⟩ := hmeets
    cases r with
    | object es s'' =>
      refine .object _ _ ⟨c, hc, d, ?_, hsub⟩
      have hes : ds.union es = es := by
        cases s' <;> cases s'' <;> simp_all [mergePayload]
      rw [← hes]
      exact DeclSet.mem_union.mpr (.inl hd)
    | _ => simp [Payload.tag] at hobject'
  | _ => simp [Payload.tag] at hobject

end FlatBelow

/-- What overlaps with a flat type overlaps with all larger flat types. -/
theorem Overlapped.mono_flat (htable : table.WellFormed) (hx : Overlapped table x a)
    (h : a.FlatBelow b) : Overlapped table x b := by
  refine overlapped_of_symmetrized
    (R := fun x b => ∃ a, Overlapped table x a ∧ a.FlatBelow b) ?_ ⟨a, hx, h⟩
  rintro x b ⟨a, ⟨R, hsymm, hR, hxa⟩, h⟩
  have hR' {t u : Ty} (htu : R t u) : Overlapped table t u := ⟨R, hsymm, hR, htu⟩
  obtain ⟨hx, ha, hlevel⟩ := hR x a hxa
  refine ⟨hx, h.isNever_eq_false ha, ?_⟩
  have h := h.expand htable
  have htags {tag : Tag} (htag : tag ∈ (a.expand table).tags) : tag ∈ (b.expand table).tags :=
    h.below.mem htag
  cases hlevel with
  | shared hx ha hpayloads => exact h.shared hx ha hpayloads
  | left hleft =>
    refine .left ?_
    cases hleft with
    | char hchar =>
      rw [h.flat.charOverlap_right] at hchar
      exact .char (h.flat'.charOverlap_right.mpr (hchar.imp_right (.imp htags htags)))
    | object hobject =>
      obtain ⟨hplain, tag, htag, hlike⟩ := objectOverlap_iff.mp hobject
      exact .object (objectOverlap_iff.mpr ⟨hplain, tag, htags htag, hlike⟩)
    | enum henum hrest hvalue =>
      exact .enum henum (h.without_enum.isNever_eq_false hrest)
        (.inl ⟨_, hR' hvalue, h.without_enum⟩)
  | right hright =>
    refine .right ?_
    cases hright with
    | char hchar =>
      rw [h.flat.charOverlap_left] at hchar
      exact .char (h.flat'.charOverlap_left.mpr (hchar.imp_left htags))
    | object hobject =>
      obtain ⟨hplain, hlike⟩ := objectOverlap_iff.mp hobject
      have hplain := isPlainObject_of_below h.left h.right h.below hplain
      exact .object (objectOverlap_iff.mpr ⟨hplain, hlike⟩)
    | enum henum hrest hvalue =>
      refine .enum (htags henum) hrest (.inr ⟨_, (hR' hvalue).symm, ?_⟩)
      rw [h.flat.enumValue_eq, h.flat'.enumValue_eq]
      have hvalues : (ofTags Tags.enumValues).WellFormed := .ofTags _
      exact ⟨hvalues, hvalues, .ofTags _, .ofTags _, .refl hvalues⟩

end Ty

theorem Program.instanceType_flat (program : Program) (c : DeclId) :
    (program.instanceType c).Flat := by
  simp only [instanceType]
  split
  · exact .ofTags _
  · simp [Flat, object, exact, Payload.tag]

namespace Context

variable {ctx : Context} {name : String}

/-! ### Tests for members -/

/-- Some of the declarations have the member, of their own or by inheritance. -/
def Provided (ctx : Context) (name : String) (ds : DeclSet) : Prop :=
  ∃ d ∈ ds, ctx.program.scopeMember d name ≠ []

/-- The payload is one of declarations that have the member, or its shape has it. -/
inductive Offers (ctx : Context) (name : String) : Payload Ty → Prop
  | module {ds : DeclSet} (h : ctx.Provided name ds) : Offers ctx name (.module ds)
  | cls {ds : DeclSet} (h : ctx.Provided name ds) : Offers ctx name (.cls ds)
  | object {ds : DeclSet} (shape : Option (List (String × Ty))) (h : ctx.Provided name ds) :
      Offers ctx name (.object ds shape)
  | field (ds : DeclSet) {fields : List (String × Ty)} (h : (fields.lookup name).isSome) :
      Offers ctx name (.object ds (some fields))

theorem provided_iff {ds : DeclSet} : ctx.Provided name ds ↔
    (ds.ids.any fun d => !(ctx.program.scopeMember d name).isEmpty) := by
  simp only [any_eq_true, Bool.not_eq_true', isEmpty_eq_false_iff]
  rfl

theorem payloadHas_eq_some_true_iff {tag : Tag} {p? : Option (Payload Ty)} :
    ctx.payloadHas name tag p? = some true ↔ ∃ p, p? = some p ∧ ctx.Offers name p := by
  constructor
  · intro h
    unfold payloadHas at h
    split at h
    · exact ⟨_, rfl, .module (provided_iff.mpr (by grind))⟩
    · exact ⟨_, rfl, .cls (provided_iff.mpr (by grind))⟩
    · next ds shape =>
      refine ⟨_, rfl, ?_⟩
      rw [Option.ite_none_right_eq_some, Bool.or_eq_true] at h
      rcases h.1 with hfield | hclass
      · cases shape with
        | none => cases hfield
        | some fields => exact .field ds hfield
      · exact .object shape (provided_iff.mpr hclass)
    · split at h <;> cases h
  · rintro ⟨p, rfl, h⟩
    cases h with
    | module h | cls h | object shape h => simp [payloadHas, provided_iff.mp h]
    | field ds h => simp [payloadHas, h]

/-- A member is there for certain if every kind of value offers it. -/
theorem hasMember_eq_true_iff {object : Ty} : ctx.hasMember object name = bool true ↔
      (object.expand ctx.table).isNever = false ∧ ∀ tag ∈ (object.expand ctx.table).tags,
          ∃ p, (object.expand ctx.table).payload? tag = some p ∧ ctx.Offers name p := by
  have hkind (t : Ty) (tag : Tag) : (∃ p, t.payload? tag = some p ∧ ctx.Offers name p) ↔
      ctx.payloadHas name tag (t.payload? tag) = some true := payloadHas_eq_some_true_iff.symm
  simp only [hasMember, isNever_eq_false_iff, hkind]
  generalize object.expand ctx.table = t
  generalize hverdicts : t.tags.toList.map (fun tag => ctx.payloadHas name tag (t.payload? tag)) =
    verdicts
  have hcontains (r : Option Bool) : verdicts.contains r ↔
      ∃ tag ∈ t.tags, ctx.payloadHas name tag (t.payload? tag) = r := by simp [← hverdicts]
  calc _ ↔ verdicts.contains (some true) ∧ ¬ verdicts.contains none ∧
        ¬ verdicts.contains (some false) := by
        cases verdicts.contains none <;> cases verdicts.contains (some true) <;>
          cases verdicts.contains (some false) <;> decide
    _ ↔ _ := by
      rw [hcontains, hcontains, hcontains]
      constructor
      · rintro ⟨⟨tag, htag, -⟩, hnone, hno⟩
        refine ⟨⟨tag, htag⟩, fun tag htag => ?_⟩
        cases hverdict : ctx.payloadHas name tag (t.payload? tag) with
        | none => exact absurd ⟨tag, htag, hverdict⟩ hnone
        | some r =>
          cases r with
          | true => rfl
          | false => exact absurd ⟨tag, htag, hverdict⟩ hno
      · rintro ⟨⟨tag, htag⟩, hall⟩
        refine ⟨⟨tag, htag, hall tag htag⟩, ?_, ?_⟩ <;>
        · rintro ⟨tag, htag, hverdict⟩
          simp [hall tag htag] at hverdict

theorem Offers.tag_ne_null {p : Payload Ty} (h : ctx.Offers name p) : p.tag ≠ .null := by
  cases h <;> simp [Payload.tag]

/-! ### Tests for classes -/

variable {value cls : Ty} {classes : DeclSet}

theorem subtype_of_instanceOf (hclasses : classesOf? cls = some classes)
    (h : ctx.instanceOf value cls = .bool true) :
    value.subtype ctx.table (.unionAll (classes.ids.map ctx.program.instanceType)) := by
  simp only [instanceOf, hclasses] at h
  split at h
  · exact absurd h (by decide)
  split at h
  · next hsubtype => exact hsubtype
  split at h <;> exact absurd h (by decide)

theorem not_overlap_of_instanceOf (hclasses : classesOf? cls = some classes)
    (h : ctx.instanceOf value cls = .bool false) :
    value.overlap ctx.table (.unionAll (classes.ids.map ctx.program.instanceType)) = false := by
  simp only [instanceOf, hclasses] at h
  split at h
  · exact absurd h (by decide)
  split at h
  · exact absurd h (by decide)
  split at h
  · next hapart => simpa using hapart
  · exact absurd h (by decide)

/-- What has nothing in common with all instances of some classes has nothing in common with the
instances of one of them. -/
theorem not_overlap_instanceType (htable : ctx.table.WellFormed) (hvalue : value.WellFormed)
    (h : value.overlap ctx.table (unionAll (classes.ids.map ctx.program.instanceType)) = false)
    {c : DeclId} (hc : c ∈ classes) :
    value.overlap ctx.table (ctx.program.instanceType c) = false := by
  have hformed (d : DeclId) : (ctx.program.instanceType d).WellFormed :=
    ctx.program.instanceType_formed trivial
  have hall : ∀ t ∈ classes.ids.map ctx.program.instanceType, t.WellFormed :=
    forall_mem_map.mpr fun d _ => hformed d
  have hflat : ∀ t ∈ classes.ids.map ctx.program.instanceType, t.Flat :=
    forall_mem_map.mpr fun d _ => ctx.program.instanceType_flat d
  have hbelow := below_unionAll hall (mem_map_of_mem hc)
  rw [Bool.eq_false_iff] at h ⊢
  intro hoverlap
  refine h ((overlap_iff_overlapped htable hvalue (.unionAll hall)).mpr ?_)
  exact ((overlap_iff_overlapped htable hvalue (hformed c)).mp hoverlap).mono_flat htable
    ⟨hformed c, .unionAll hall, ctx.program.instanceType_flat c, .unionAll hflat, hbelow⟩

end Context

/-- What tests tell holds of all that is possible. A value has a member for certain exactly if
modules, classes and objects are all that it can be, never null, and each of the three offers the
member. A value is an instance for certain only if it is one of some of the classes, so of the class
if there is only one, and it is no instance for certain only if it is one of none of them. -/
theorem tests_tell_agreed (source : Source) (ctx : Context) (hctx : ctx.program = source.program) :
    (∀ object name, let t := object.expand ctx.table
      (ctx.hasMember object name = Ty.bool true ↔ t.isNever = false ∧
        ∀ tag ∈ t.tags, ∃ p, t.payload? tag = some p ∧ ctx.Offers name p) ∧
      (ctx.hasMember object name = Ty.bool true → .null ∉ t.tags)) ∧
    ∀ value cls classes, value.WellFormed → classesOf? cls = some classes →
      (ctx.instanceOf value cls = Ty.bool true →
        value.subtype ctx.table (.unionAll (classes.ids.map ctx.program.instanceType)) = true ∧
        ∀ c, classes = .one c → value.subtype ctx.table (ctx.program.instanceType c) = true) ∧
      (ctx.instanceOf value cls = Ty.bool false →
        ∀ c ∈ classes, value.overlap ctx.table (ctx.program.instanceType c) = false) := by
  have htable : ctx.table.WellFormed := by
    rw [table, hctx]
    exact source.program_table_wellFormed
  refine ⟨fun object name => ⟨hasMember_eq_true_iff, fun h hnull => ?_⟩,
    fun value cls classes hvalue hclasses => ⟨fun h => ?_, fun h c hc => ?_⟩⟩
  · obtain ⟨p, hp, hoffers⟩ := (hasMember_eq_true_iff.mp h).2 .null hnull
    exact hoffers.tag_ne_null (Ty.payload?_tag hp)
  · have hsubtype := subtype_of_instanceOf hclasses h
    refine ⟨hsubtype, ?_⟩
    rintro c rfl
    have hone : Ty.never.union (ctx.program.instanceType c) = ctx.program.instanceType c :=
      Ty.never_below (ctx.program.instanceType_formed trivial)
    rw [← hone]
    exact hsubtype
  · exact not_overlap_instanceType htable hvalue (not_overlap_of_instanceOf hclasses h) hc

/-- Shapes with a size, one class of them, and a class of other things. -/
def sizedShapes : Source :=
  .ofItems [.cls () "Shape" none [.ofVar "size" (TypeSpec.ofNames ["Number"])],
    .cls () "Circle" (some (.ofDotted "Shape")) [], .cls () "Label" none []]

/-- A circle has a size, which it inherits, and is a shape. A label is neither a shape nor a
circle. -/
theorem tests_tell_agreed_shapes :
    let ctx : Context := ⟨sizedShapes.program, {}, {}, 0⟩
    let shape : DeclId := 1
    let circle : DeclId := 3
    let label : DeclId := 4
    let circles := Ty.object (.one circle)
    ctx.hasMember circles "size" = Ty.bool true ∧ .null ∉ (circles.expand ctx.table).tags ∧
      ctx.instanceOf circles (.exact (.cls (.one shape))) = Ty.bool true ∧
      circles.subtype ctx.table (ctx.program.instanceType shape) = true ∧
      ctx.instanceOf (.object (.one label)) (.exact (.cls (.ofList [shape, circle]))) =
        Ty.bool false ∧
      (Ty.object (.one label)).overlap ctx.table (ctx.program.instanceType circle) = false := by
  intro ctx shape circle label circles
  have hagreed := tests_tell_agreed sizedShapes ctx rfl
  have hobject (d : DeclId) : (Ty.object (.one d)).WellFormed := .object fun _ _ => trivial
  have hhas : ctx.hasMember circles "size" = Ty.bool true := by decide +kernel
  have hshape : ctx.instanceOf circles (.exact (.cls (.one shape))) = Ty.bool true := by
    decide +kernel
  have hapart : ctx.instanceOf (.object (.one label))
      (.exact (.cls (.ofList [shape, circle]))) = Ty.bool false := by decide +kernel
  refine ⟨hhas, (hagreed.1 circles "size").2 hhas, hshape, ?_, hapart, ?_⟩
  · exact ((hagreed.2 circles _ (.one shape) (hobject circle) rfl).1 hshape).2 shape rfl
  · exact (hagreed.2 _ _ (.ofList [shape, circle]) (hobject label) rfl).2 hapart circle (by decide)

/-- The class is that of shapes or that of labels, and what is known of one is told of both: that it
has a size, and that circles are its instances. -/
theorem not_agreed_shapes :
    let ctx : Context := ⟨sizedShapes.program, {}, {}, 0⟩
    let shape : DeclId := 1
    let circle : DeclId := 3
    let label : DeclId := 4
    let either := .exact (.cls (.ofList [shape, label]))
    ctx.hasMember either "size" = Ty.bool true ∧ ctx.program.scopeMember label "size" = [] ∧
      ctx.instanceOf (.object (.one circle)) either = Ty.bool true ∧
      (Ty.object (.one circle)).subtype ctx.table (ctx.program.instanceType label) = false := by
  decide +kernel

end TypeFlow
