import TypeFlow.Proofs.Widening
import TypeFlow.Ty.Meet

/-!
# What payloads have in common

The intersection of two payloads is made of what their components have in common. `Joint` says how,
one case for each pair of payloads of which something is left.
-/

namespace TypeFlow

open List Option

theorem DeclSet.mem_inter {s t : DeclSet} {d : DeclId} : d ∈ s.inter t ↔ d ∈ s ∧ d ∈ t := by
  change d ∈ s.ids.filter t.contains ↔ _
  rw [mem_filter, DeclSet.contains, contains_iff_mem]
  rfl

namespace Ty

variable {table : DeclTable} {meet : Ty → Ty → Option Ty} {t u : Ty} {p q r : Payload Ty}
  {name : String} {ts us : List Ty} {fields fs gs acc : List (String × Ty)} {ds es : DeclSet}

/-! ### Sets of declarations -/

theorem nonemptySet?_eq_some_iff : nonemptySet? ds = some es ↔ (∃ d, d ∈ ds) ∧ ds = es := by
  have hne : ds.isEmpty = false ↔ ∃ d, d ∈ ds := isEmpty_eq_false_iff_exists_mem
  unfold nonemptySet?
  split
  · next hempty => simp [← hne, hempty]
  · next hempty => simp [← hne, Bool.eq_false_iff.mpr hempty]

theorem nonemptySet?_of_mem {d : DeclId} (h : d ∈ ds) : nonemptySet? ds = some ds :=
  nonemptySet?_eq_some_iff.mpr ⟨⟨d, h⟩, rfl⟩

/-- Of two related classes the more derived one is in common. -/
theorem mem_meetClasses_iff {x : DeclId} : x ∈ meetClasses table ds es ↔
    ∃ y ∈ ds, ∃ z ∈ es, (table.isSubclass y z ∧ x = y) ∨
      (table.isSubclass y z = false ∧ table.isSubclass z y ∧ x = z) := by
  rw [meetClasses, DeclSet.mem_ofList, mem_flatMap]
  simp only [mem_filterMap]
  refine exists_congr fun y => and_congr Iff.rfl (exists_congr fun z => and_congr Iff.rfl ?_)
  grind

/-! ### Tuples -/

/-- Components have something in common. -/
def Shares (meet : Ty → Ty → Option Ty) (t u m : Ty) : Prop := meet t u = some m ∧ m.isNever = false

/-- The slots of two tuples have something in common one by one. -/
inductive SharesAll (meet : Ty → Ty → Option Ty) : List Ty → List Ty → List Ty → Prop
  | nil : SharesAll meet [] [] []
  | cons {t u m : Ty} {ts us ms : List Ty} (hfirst : Shares meet t u m)
      (hrest : SharesAll meet ts us ms) : SharesAll meet (t :: ts) (u :: us) (m :: ms)

/-- The first slots of two tuples are met first; nothing is left if they have nothing in common. -/
theorem meetSlots?_cons {found : Option (List Ty)}
    (h : meetSlots? meet (t :: ts) (u :: us) = some found) :
    ∃ m, meet t u = some m ∧ ((m.isNever ∧ found = none) ∨
      (m.isNever = false ∧ ∃ rest, meetSlots? meet ts us = some rest ∧
        found = rest.map (m :: ·))) := by
  simp only [meetSlots?, bind_eq_bind, bind_eq_some_iff] at h
  obtain ⟨m, hm, h⟩ := h
  refine ⟨m, hm, ?_⟩
  cases hnever : m.isNever with
  | true => simp_all [nonempty?]
  | false =>
    simp only [nonempty?, hnever, Bool.false_eq_true, if_false, bind_eq_some_iff] at h
    obtain ⟨rest, hrest, h⟩ := h
    exact .inr ⟨rfl, rest, hrest, (some.inj h).symm⟩

theorem sharesAll_of_meetSlots? {ms : List Ty} (hlength : ts.length = us.length)
    (h : meetSlots? meet ts us = some (some ms)) : SharesAll meet ts us ms := by
  induction ts generalizing us ms with
  | nil =>
    obtain rfl := eq_nil_of_length_eq_zero hlength.symm
    cases h
    exact .nil
  | cons t ts ih =>
    cases us with
    | nil => simp at hlength
    | cons u us =>
      obtain ⟨m, hm, ⟨-, hnone⟩ | ⟨hne, rest, hrest, hfound⟩⟩ := meetSlots?_cons h
      · cases hnone
      · obtain ⟨rest, rfl, rfl⟩ := map_eq_some_iff.mp hfound.symm
        exact .cons ⟨hm, hne⟩ (ih (by simpa using hlength) hrest)

/-! ### Shapes -/

theorem insertField_ne_nil : insertField name t fields ≠ [] := by
  unfold insertField
  split
  · simp
  · split
    · simp
    · split <;> simp

/-- The fields after one is set. -/
theorem mem_insertField {e : String × Ty} (h : e ∈ insertField name t fields) :
    e = (name, t) ∨ e ∈ fields := by
  induction fields with
  | nil => simpa [insertField] using h
  | cons f fields ih =>
    unfold insertField at h
    split at h
    · grind
    · split at h <;> grind

/-- Setting a field keeps fields in ascending order. -/
theorem insertField_ascending (h : AscendingKeys fields) :
    AscendingKeys (insertField name t fields) := by
  induction fields with
  | nil => exact pairwise_singleton _ _
  | cons e fields ih =>
    obtain ⟨m, u⟩ := e
    obtain ⟨hm, hfields⟩ := pairwise_cons.mp h
    unfold insertField
    split
    · next hname =>
      subst hname
      exact pairwise_cons.mpr ⟨hm, hfields⟩
    · next hne =>
      split
      · next hlt =>
        refine pairwise_cons.mpr ⟨?_, h⟩
        intro f hf
        rcases mem_cons.mp hf with rfl | hf
        · exact hlt
        · exact lt_trans hlt (hm f hf)
      · next hnlt =>
        refine pairwise_cons.mpr ⟨?_, ih hfields⟩
        intro f hf
        rcases mem_insertField hf with rfl | hf
        · exact lt_of_le_of_ne (not_lt.mp hnlt) (Ne.symm hne)
        · exact hm f hf

/-- A field is found after it has been set. -/
theorem lookup_insertField (name k : String) (t : Ty) (fields : List (String × Ty)) :
    (insertField name t fields).lookup k = if k = name then some t else fields.lookup k := by
  induction fields with
  | nil => rw [insertField, lookup_cons_eq_ite]
  | cons f fields ih =>
    obtain ⟨j, u⟩ := f
    unfold insertField
    by_cases hname : name = j
    · rw [if_pos hname, lookup_cons_eq_ite, lookup_cons_eq_ite, hname]
      split <;> rfl
    · rw [if_neg hname]
      split
      · rw [lookup_cons_eq_ite]
      · grind

/-- A field of a shape is met with that of the shape `fs`, if there is one. -/
def MeetsField (meet : Ty → Ty → Option Ty) (fs : List (String × Ty)) (g : String × Ty)
    (m : Ty) : Prop :=
  (∃ t, fs.lookup g.1 = some t ∧ meet t g.2 = some m) ∨ (fs.lookup g.1 = none ∧ m = g.2)

/-- The first field is met first; nothing is left if it has nothing in common with the shape. -/
theorem meetFields?_cons {g : String × Ty} {found : Option (List (String × Ty))}
    (h : meetFields? meet fs acc (g :: gs) = some found) :
    ∃ m, MeetsField meet fs g m ∧ ((m.isNever ∧ found = none) ∨
      (m.isNever = false ∧ meetFields? meet fs (insertField g.1 m acc) gs = some found)) := by
  obtain ⟨name, u⟩ := g
  simp only [meetFields?, bind_eq_bind] at h
  split at h
  · next t ht =>
    obtain ⟨m, hm, h⟩ := bind_eq_some_iff.mp h
    refine ⟨m, .inl ⟨t, ht, hm⟩, ?_⟩
    cases hnever : m.isNever <;> simp_all [nonempty?]
  · next hnone =>
    refine ⟨u, .inr ⟨hnone, rfl⟩, ?_⟩
    cases hnever : u.isNever <;> simp_all [nonempty?]

/-- All fields are met, and what their types have in common is set one after the other. -/
theorem meetFields?_steps {out : List (String × Ty)} {P : List (String × Ty) → Prop}
    (h : meetFields? meet fs acc gs = some (some out)) (hacc : P acc)
    (hstep : ∀ acc, ∀ g ∈ gs, ∀ m, MeetsField meet fs g m → m.isNever = false → P acc →
      P (insertField g.1 m acc)) :
    P out ∧ ∀ g ∈ gs, ∃ m, MeetsField meet fs g m ∧ m.isNever = false := by
  induction gs generalizing acc with
  | nil =>
    cases h
    exact ⟨hacc, nofun⟩
  | cons g gs ih =>
    obtain ⟨m, hm, ⟨-, hnone⟩ | ⟨hne, hrest⟩⟩ := meetFields?_cons h
    · cases hnone
    · obtain ⟨hout, hmet⟩ := ih hrest (hstep acc g mem_cons_self m hm hne hacc)
        fun acc g hg => hstep acc g (mem_cons_of_mem _ hg)
      exact ⟨hout, forall_mem_cons.mpr ⟨⟨m, hm, hne⟩, hmet⟩⟩

/-! ### Payloads -/

end Ty

open Ty in
/-- What is left of two payloads, where `meet` intersects components. -/
inductive Payload.Joint (table : DeclTable) (meet : Ty → Ty → Option Ty) :
    Payload Ty → Payload Ty → Payload Ty → Prop
  | value {p : Payload Ty} (h : p.isValue) : Joint table meet p p p
  | elements {t u m : Ty} (h : Shares meet t u m) :
      Joint table meet (.elements t) (.elements u) (.elements m)
  | tuple {ts us ms : List Ty} (h : SharesAll meet ts us ms) :
      Joint table meet (.tuple ts) (.tuple us) (.tuple ms)
  | slots {ts ms : List Ty} {u : Ty} (h : SharesAll meet ts (List.replicate ts.length u) ms) :
      Joint table meet (.tuple ts) (.elements u) (.tuple ms)
  | slots' {ts ms : List Ty} {u : Ty} (h : SharesAll meet ts (List.replicate ts.length u) ms) :
      Joint table meet (.elements u) (.tuple ts) (.tuple ms)
  | dictionary {k k' m v v' n : Ty} (hkey : Shares meet k k' m) (hvalue : Shares meet v v' n) :
      Joint table meet (.dictionary k v) (.dictionary k' v') (.dictionary m n)
  | method (args : List Ty) (r : Ty) (args' : List Ty) (r' : Ty) :
      Joint table meet (.method args r) (.method args' r') (.method args r)
  | module {ds es : DeclSet} (h : ∃ d, d ∈ ds.inter es) :
      Joint table meet (.module ds) (.module es) (.module (ds.inter es))
  | function {ds es : DeclSet} (h : ∃ d, d ∈ ds.inter es) :
      Joint table meet (.function ds) (.function es) (.function (ds.inter es))
  | cls {ds es : DeclSet} (h : ∃ d, d ∈ ds.inter es) :
      Joint table meet (.cls ds) (.cls es) (.cls (ds.inter es))
  | synonym {ds es : DeclSet} (h : ∃ d, d ∈ ds.inter es) :
      Joint table meet (.synonym ds) (.synonym es) (.synonym (ds.inter es))
  | object {ds es : DeclSet} {shape shape' shape'' : Option (List (String × Ty))}
      (h : ∃ d, d ∈ meetClasses table ds es)
      (hshape : (∃ fs gs out, shape = some fs ∧ shape' = some gs ∧ shape'' = some out ∧
          meetFields? meet fs fs gs = some (some out)) ∨
        (shape' = none ∧ shape'' = shape) ∨ (shape = none ∧ shape'' = shape')) :
      Joint table meet (.object ds shape) (.object es shape')
        (.object (meetClasses table ds es) shape'')
  | enum {d e : Option DeclId} {v w x : Option Ty} (hdecl : d = none ∨ e = none ∨ d = e)
      (hvalue : (∃ t u m, v = some t ∧ w = some u ∧ x = some m ∧ Shares meet t u m) ∨
        (w = none ∧ x = v) ∨ (v = none ∧ x = w)) :
      Joint table meet (.enum d v) (.enum e w) (.enum (d.or e) x)

namespace Ty

variable {table : DeclTable} {meet : Ty → Ty → Option Ty} {t u : Ty} {p q r : Payload Ty}
  {ts us : List Ty} {ds es : DeclSet}

/-- Components are intersected before a payload is made of what they have in common. -/
theorem shares_of_map {make : Ty → Payload Ty}
    (h : (do return (nonempty? (← meet t u)).map make) = some (some r)) :
    ∃ m, Shares meet t u m ∧ make m = r := by
  obtain ⟨m, hm, h⟩ := bind_eq_some_iff.mp h
  obtain ⟨m', hm', hr⟩ := map_eq_some_iff.mp (some.inj h)
  unfold nonempty? at hm'
  split at hm'
  · cases hm'
  · next hne =>
    cases hm'
    exact ⟨m, ⟨hm, Bool.eq_false_iff.mpr hne⟩, hr⟩

/-- The cases in which something is left of two payloads. -/
theorem joint_of_meetPayload? (h : meetPayload? table meet p q = some (some r)) :
    p.Joint table meet q r := by
  have hset {ds es : DeclSet} {make : DeclSet → Payload Ty}
      (h : some ((nonemptySet? (ds.inter es)).map make) = some (some r)) :
      (∃ d, d ∈ ds.inter es) ∧ make (ds.inter es) = r := by
    obtain ⟨s, hs, rfl⟩ := map_eq_some_iff.mp (some.inj h)
    obtain ⟨hd, rfl⟩ := nonemptySet?_eq_some_iff.mp hs
    exact ⟨hd, rfl⟩
  have hslots {ts us : List Ty} (hlength : ts.length = us.length)
      (h : (do return (← meetSlots? meet ts us).map .tuple) = some (some r)) :
      ∃ ms, SharesAll meet ts us ms ∧ .tuple ms = r := by
    obtain ⟨found, hfound, h⟩ := bind_eq_some_iff.mp h
    obtain ⟨ms, rfl, hr⟩ := map_eq_some_iff.mp (some.inj h)
    exact ⟨ms, sharesAll_of_meetSlots? hlength hfound, hr⟩
  unfold meetPayload? at h
  split at h
  · obtain ⟨m, hm, rfl⟩ := shares_of_map h
    exact .elements hm
  · split at h
    · next hlength =>
      obtain ⟨ms, hms, rfl⟩ := hslots hlength h
      exact .tuple hms
    · simp at h
  · obtain ⟨ms, hms, rfl⟩ := hslots (by simp) h
    exact .slots hms
  · obtain ⟨ms, hms, rfl⟩ := hslots (by simp) h
    exact .slots' hms
  · obtain ⟨key, hkey, h⟩ := bind_eq_some_iff.mp h
    unfold nonempty? at h
    split at h
    · simp at h
    · next m hsome =>
      split at hsome
      · cases hsome
      · next hne =>
        cases hsome
        obtain ⟨value, hvalue, rfl⟩ := shares_of_map h
        exact .dictionary ⟨hkey, Bool.eq_false_iff.mpr hne⟩ hvalue
  · cases h
    exact .method ..
  · obtain ⟨hd, rfl⟩ := hset h
    exact .module hd
  · obtain ⟨hd, rfl⟩ := hset h
    exact .function hd
  · obtain ⟨hd, rfl⟩ := hset h
    exact .cls hd
  · obtain ⟨hd, rfl⟩ := hset h
    exact .synonym hd
  · split at h
    · simp at h
    · next classes hclasses =>
      obtain ⟨hd, rfl⟩ := nonemptySet?_eq_some_iff.mp hclasses
      split at h
      · next fs gs =>
        obtain ⟨found, hfound, h⟩ := bind_eq_some_iff.mp h
        obtain ⟨out, rfl, rfl⟩ := map_eq_some_iff.mp (some.inj h)
        exact .object hd (.inl ⟨fs, gs, out, rfl, rfl, rfl, hfound⟩)
      · cases h
        exact .object hd (.inr (.inl ⟨rfl, rfl⟩))
      · cases h
        exact .object hd (.inr (.inr ⟨rfl, rfl⟩))
  · split at h
    · simp at h
    · next d v e w hdecl =>
      have hdecl : d = none ∨ e = none ∨ d = e := by cases d <;> cases e <;> simp_all
      split at h
      · next t u =>
        obtain ⟨m, hm, rfl⟩ := shares_of_map h
        exact .enum hdecl (.inl ⟨t, u, m, rfl, rfl, rfl, hm⟩)
      · cases h
        exact .enum hdecl (.inr (.inl ⟨rfl, rfl⟩))
      · cases h
        exact .enum hdecl (.inr (.inr ⟨rfl, rfl⟩))
  · obtain ⟨rfl, rfl⟩ : p = q ∧ p = r := by simpa using h
    exact .value (by cases p <;> grind [Payload.isValue, Payload.tag, Tags.contains_valueTypes])

/-- What two payloads have in common has their tag. -/
theorem meetPayload?_tag (h : meetPayload? table meet p q = some (some r)) : r.tag = p.tag := by
  cases joint_of_meetPayload? h <;> rfl

/-! ### Tags -/

variable {a b : Ty} {tag : Tag}

/-- What two types have in common about one tag, where `meet` intersects components. -/
def Slot.meet? (table : DeclTable) (meet : Ty → Ty → Option Ty) : Slot → Slot → Option Slot
  | .absent, _ | _, .absent => some .absent
  | .bare, s | s, .bare => some s
  | .holds p, .holds q => (meetPayload? table meet p q).map fun r => r.elim .absent .holds

@[simp] theorem Slot.absent_meet? (s : Slot) : Slot.meet? table meet .absent s = some .absent := by
  cases s <;> rfl

@[simp] theorem Slot.meet?_absent (s : Slot) : Slot.meet? table meet s .absent = some .absent := by
  cases s <;> rfl

section

variable (h : (a.slot tag).meet? table meet (b.slot tag) = some (.holds p))

include h

/-- A payload in common is what two payloads have in common, or the one of a type where the other
says nothing more. -/
theorem Slot.meet?_eq_holds :
    (tag ∈ a.tags ∧ tag ∈ b.tags) ∧ (a.payload? tag = some p ∨ b.payload? tag = some p ∨
      ∃ q r, a.payload? tag = some q ∧ b.payload? tag = some r ∧
        meetPayload? table meet q r = some (some p)) := by
  by_cases ha : tag ∈ a.tags
  · by_cases hb : tag ∈ b.tags
    · refine ⟨⟨ha, hb⟩, ?_⟩
      simp only [slot, ha, hb, if_true] at h
      cases hq : a.payload? tag with
      | none => cases hr : b.payload? tag <;> simp_all [Slot.meet?]
      | some q =>
        cases hr : b.payload? tag with
        | none => simp_all [Slot.meet?]
        | some r =>
          simp only [hq, hr, elim_some, Slot.meet?, map_eq_some_iff] at h
          obtain ⟨found, hfound, h⟩ := h
          cases found <;> simp_all
    · simp [slot_eq_absent_iff.mpr hb] at h
  · simp [slot_eq_absent_iff.mpr ha] at h

/-- A payload in common belongs to a tag of both types. -/
theorem Slot.meet?_tag : p.tag = tag ∧ tag ∈ a.tags ∧ tag ∈ b.tags := by
  obtain ⟨hmem, hp | hp | ⟨q, r, hq, -, hp⟩⟩ := Slot.meet?_eq_holds h
  · exact ⟨payload?_tag hp, hmem⟩
  · exact ⟨payload?_tag hp, hmem⟩
  · exact ⟨(meetPayload?_tag hp).trans (payload?_tag hq), hmem⟩

end

/-- The payload of a slot. -/
def Slot.payload? : Slot → Option (Payload Ty)
  | .holds p => some p
  | _ => none

theorem Slot.bind_payload?_eq_some_iff {s : Option Slot} :
    s.bind Slot.payload? = some p ↔ s = some (.holds p) := by
  cases s with
  | none => simp
  | some s => cases s <;> simp [payload?]

/-- The tags and payloads after one more slot is known. -/
private def record (acc : Tags × List (Payload Ty)) (tag : Tag) (s : Slot) :
    Tags × List (Payload Ty) :=
  (match s with
    | .absent => acc.1 \ .single tag
    | _ => acc.1, acc.2 ++ s.payload?.toList)

/-- Slots that are recorded one after the other make up the tags and payloads. -/
private theorem foldlM_record (slots : Tag → Option Slot)
    {f : Tags × List (Payload Ty) → Tag → Option (Tags × List (Payload Ty))} {tags : List Tag}
    (hf : ∀ acc, ∀ tag ∈ tags, f acc tag = (slots tag).map (record acc tag))
    {init final : Tags × List (Payload Ty)} (h : tags.foldlM f init = some final) :
    (∀ tag ∈ tags, (slots tag).isSome) ∧
      (∀ x, x ∈ final.1 ↔ x ∈ init.1 ∧ (x ∈ tags → slots x ≠ some .absent)) ∧
      final.2 = init.2 ++ tags.filterMap fun tag => (slots tag).bind Slot.payload? := by
  induction tags generalizing init with
  | nil =>
    obtain rfl : init = final := some.inj h
    simp
  | cons tag tags ih =>
    rw [foldlM_cons, hf init tag mem_cons_self, bind_eq_bind, bind_eq_some_iff] at h
    obtain ⟨next, hnext, h⟩ := h
    obtain ⟨s, hs, rfl⟩ := map_eq_some_iff.mp hnext
    obtain ⟨hsome, htags, hdata⟩ := ih (fun acc x hx => hf acc x (mem_cons_of_mem _ hx)) h
    refine ⟨forall_mem_cons.mpr ⟨by simp [hs], hsome⟩, fun x => ?_, ?_⟩
    · rw [htags]
      cases s <;> simp [record] <;> grind
    · rw [hdata]
      cases s <;> simp [record, hs, Slot.payload?]

/-- The common tags of two types and their payloads are those of the slots in common. -/
theorem exists_of_meetTags? (h : meetTags? table meet a b = some t) :
    ∃ tags, t = ofParts tags ((a.tags ∩ b.tags ∩ Tags.data).toList.filterMap fun tag =>
        ((a.slot tag).meet? table meet (b.slot tag)).bind Slot.payload?) ∧
      (∀ tag ∈ a.tags ∩ b.tags ∩ Tags.data, ((a.slot tag).meet? table meet (b.slot tag)).isSome) ∧
      ∀ tag, tag ∈ tags ↔ tag ∈ a.tags ∩ b.tags ∧
        (tag ∈ Tags.data → (a.slot tag).meet? table meet (b.slot tag) ≠ some .absent) := by
  simp only [meetTags?, bind_eq_bind, bind_eq_some_iff] at h
  obtain ⟨⟨tags, data⟩, hfold, h⟩ := h
  obtain ⟨hsome, htags, hdata⟩ :=
    foldlM_record (fun tag => (a.slot tag).meet? table meet (b.slot tag)) (by
      rintro ⟨tags, data⟩ tag htag
      have hmem : tag ∈ a.tags ∧ tag ∈ b.tags := by simp_all
      simp only [slot, hmem]
      cases hp : a.payload? tag with
      | none => cases hq : b.payload? tag <;> simp [Slot.meet?, record, Slot.payload?]
      | some p =>
        cases hq : b.payload? tag with
        | none => simp [Slot.meet?, record, Slot.payload?]
        | some q =>
          cases hr : meetPayload? table meet p q with
          | none => simp [Slot.meet?, hr]
          | some r => cases r <;> simp [Slot.meet?, record, hr, Slot.payload?]) hfold
  refine ⟨tags, ?_, ?_, ?_⟩
  · exact (some.inj h).symm.trans (congrArg _ hdata)
  · simpa using hsome
  · intro tag
    rw [htags]
    simp only [Tags.mem_toList, Tags.mem_inter]
    tauto

end Ty

end TypeFlow
