import TypeFlow.Proofs.PayloadMeet
import TypeFlow.Ty.Narrow

/-!
# The algebra keeps types formed

Restriction to tags, expansion of typedefs, intersection and narrowing give formed types when they
are given formed types and a table of formed expansions.
-/

namespace TypeFlow

open List Option Payload Tags

/-- All expansions of the table are formed. -/
def DeclTable.Formed (strict : Demands) (table : DeclTable) : Prop :=
  ∀ e ∈ table.expansions, e.2.Formed strict

variable {α β : Type} {f : β → α → β} {P : β → Prop} {xs : List α}

/-- What every step of a fold keeps holds of its result. -/
theorem foldl_invariant (hstep : ∀ acc, P acc → ∀ x ∈ xs, P (f acc x)) {init : β} (hinit : P init) :
    P (xs.foldl f init) := foldlRecOn xs f hinit hstep

/-- What one step of a fold brings about and all steps keep holds of its result. -/
theorem foldl_of_mem {x : α} (hx : x ∈ xs) (hmake : ∀ acc, P (f acc x))
    (hkeep : ∀ acc y, P acc → P (f acc y)) (init : β) : P (xs.foldl f init) := by
  induction xs generalizing init with
  | nil => simp at hx
  | cons y ys ih =>
    rw [foldl_cons]
    rcases mem_cons.mp hx with rfl | hx
    · exact foldl_invariant (fun acc hacc z _ => hkeep acc z hacc) (hmake init)
    · exact ih hx _

variable {strict : Demands} {p : Payload Ty}

/-- Literals are formed. -/
theorem Payload.Formed.of_isValue (h : p.isValue) : p.Formed strict := by
  cases p <;> first
    | (simp [isValue, tag, contains_valueTypes] at h; done)
    | exact ⟨fun _ => trivial, fun _ => tag_ne_method_of_components rfl, by simp [decls?],
        by simp [components]⟩

namespace Ty

variable {a b t : Ty} {table : DeclTable}

/-! ### Tags and payloads -/

section

variable (h : t.Formed strict) (tags : Tags)

include h tags

/-- Removing tags with their payloads keeps a type formed. -/
theorem Formed.without : (t.without tags).Formed strict := by
  refine .of_payloads (fun hstrict => ⟨?_, ?_, ?_⟩) ?_
  · exact (h.canonical hstrict).ordered.filter _
  · intro p hp
    obtain ⟨hp, hkept⟩ := mem_filter.mp hp
    have hnot : p.tag ∉ tags := by simpa [mem_iff] using hkept
    exact mem_sdiff.mpr ⟨(h.canonical hstrict).tagged p hp, hnot⟩
  · intro hmany p hp
    refine (h.canonical hstrict).literal (hmany.mono ?_) p (mem_filter.mp hp).1
    intro tag htag
    exact (mem_sdiff.mp htag).1
  · intro p hp
    exact h.payload (mem_filter.mp hp).1

/-- A type stays formed when it gets tags without payloads. -/
theorem Formed.withTags : (t.withTags tags).Formed strict :=
  .ofParts (fun hstrict => (h.canonical hstrict).ordered.filter _)
    fun _ hp => h.payload (mem_filter.mp hp).1

/-- A type stays formed when a payload is dropped. -/
theorem Formed.clearPayload : (t.clearPayload tags).Formed strict := by
  have hkept {p : Payload Ty} (hp : p ∈ (t.clearPayload tags).data) : p ∈ t.data :=
    (mem_filter.mp hp).1
  refine .of_payloads (fun hstrict => ⟨?_, ?_, ?_⟩) fun p hp => h.payload (hkept hp)
  · exact (h.canonical hstrict).ordered.filter _
  · exact fun p hp => (h.canonical hstrict).tagged p (hkept hp)
  · exact fun hmany p hp => (h.canonical hstrict).literal hmany p (hkept hp)

theorem Formed.restrictedTo : (t.restrictedTo tags).Formed strict := h.without _

end

theorem Formed.part (h : t.Formed strict) (tag : Tag) : (t.part tag).Formed strict :=
  h.restrictedTo _

variable {ts : List Ty}

theorem Formed.foldl_union (hts : ∀ u ∈ ts, u.Formed strict) (ht : t.Formed strict) :
    (ts.foldl .union t).Formed strict :=
  foldl_invariant (fun _ hacc u hu => hacc.union (hts u hu)) ht

theorem Formed.unionAll (hts : ∀ u ∈ ts, u.Formed strict) :
    (unionAll ts).Formed strict := .foldl_union hts (.ofTags _)

variable {tag : Tag}

/-- The payload of a tag is formed. -/
theorem Formed.payload? (h : t.Formed strict) (hp : t.payload? tag = some p) :
    p.Formed strict := h.payload (payload?_mem hp)

theorem Formed.enumValue (h : t.Formed strict) : t.enumValue.Formed strict := by
  unfold Ty.enumValue
  split
  · next hp => exact (h.payload? hp).nested _ (by simp)
  · exact .ofTags _

theorem Formed.enumToValue (h : t.Formed strict) : t.enumToValue.Formed strict := by
  unfold Ty.enumToValue
  split
  · exact (h.without _).union h.enumValue
  · exact h

variable {v : Option Ty}

/-- Members of an enum with a formed value are formed. -/
theorem Formed.enumeration {d : Option DeclId} (hv : ∀ u, v = some u → u.Formed strict) :
    (enumeration d v).Formed strict := by
  unfold Ty.enumeration
  split
  · exact .ofTags _
  · next hne =>
    refine .exact ⟨?_, fun _ => nofun, by simp [decls?], ?_⟩
    · intro _
      cases d <;> cases v <;> simp [Proper] at hne ⊢
    · intro c hc
      cases v with
      | none => simp at hc
      | some u =>
        obtain rfl : c = u := by simpa using hc
        exact hv c rfl

/-- Formed types have formed expansions. -/
theorem Formed.expand (h : t.Formed strict) (htable : table.Formed strict) :
    (t.expand table).Formed strict := by
  unfold Ty.expand
  split
  · have hrest := h.without (.single .synonym)
    split
    · exact foldl_invariant (fun acc hacc d _ => hacc.union (.getD fun u hu =>
        htable (d, u) (mem_of_lookup hu))) hrest
    · exact hrest.union (.ofTags _)
  · exact h

theorem Formed.nonempty? (h : t.Formed strict) {u : Ty} (hu : t.nonempty? = some u) :
    u.Formed strict := by
  unfold Ty.nonempty? at hu
  split at hu
  · simp at hu
  · exact some.inj hu ▸ h

/-! ### Intersection -/

section

/-- What two formed types have in common is formed. -/
def KeepsFormed (strict : Demands) (meet : Ty → Ty → Option Ty) : Prop :=
  ∀ a b c, a.Formed strict → b.Formed strict → meet a b = some c → c.Formed strict

variable {meet : Ty → Ty → Option Ty} {p q r : Payload Ty} {fields : List (String × Ty)}

theorem sharesAll_formed (hmeet : KeepsFormed strict meet) {us vs : List Ty}
    (hts : ∀ t ∈ ts, t.Formed strict) (hus : ∀ u ∈ us, u.Formed strict)
    (h : SharesAll meet ts us vs) : ∀ v ∈ vs, v.Formed strict := by
  induction h with
  | nil => exact nofun
  | cons hfirst _ ih =>
    rw [forall_mem_cons] at hts hus ⊢
    exact ⟨hmeet _ _ _ hts.1 hus.1 hfirst.1, ih hts.2 hus.2⟩

/-- The fields of a shape are in the form that the algebra keeps and have formed types. -/
def FieldsFormed (strict : Demands) (fields : List (String × Ty)) : Prop :=
  (strict.canonical → fields ≠ [] ∧ AscendingKeys fields) ∧ ∀ e ∈ fields, e.2.Formed strict

/-- A shape is formed when its fields are. -/
theorem formed_object_iff {classes : DeclSet} :
    (Payload.object classes (some fields)).Formed strict ↔
      (∀ d ∈ classes.ids, strict.ok d) ∧ FieldsFormed strict fields := by
  constructor
  · intro h
    exact ⟨h.decls classes rfl, h.proper, fun e he => h.nested e.2 (mem_map_of_mem he)⟩
  · rintro ⟨hclasses, hproper, hfields⟩
    refine ⟨hproper, fun _ => nofun, fun ds hds => some.inj hds ▸ hclasses, ?_⟩
    intro c hc
    obtain ⟨e, he, rfl⟩ := mem_map.mp hc
    exact hfields e he

theorem meetFields?_formed (hmeet : KeepsFormed strict meet)
    {fs gs acc out : List (String × Ty)} (hfs : FieldsFormed strict fs)
    (hgs : ∀ e ∈ gs, e.2.Formed strict) (hacc : FieldsFormed strict acc)
    (h : meetFields? meet fs acc gs = some (some out)) : FieldsFormed strict out := by
  refine (meetFields?_steps h hacc ?_).1
  intro acc g hg m hm _ hacc
  refine ⟨fun hstrict => ⟨insertField_ne_nil, insertField_ascending (hacc.1 hstrict).2⟩, ?_⟩
  intro f hf
  rcases mem_insertField hf with rfl | hf
  · obtain ⟨t, ht, hm⟩ | ⟨-, rfl⟩ := hm
    · exact hmeet t g.2 m (hfs.2 _ (mem_of_lookup ht)) (hgs g hg) hm
    · exact hgs g hg
  · exact hacc.2 f hf

/-- Members of an enum are formed when their value is and something is known about them. -/
theorem formed_enum_iff {d : Option DeclId} : (enum d v).Formed strict ↔
      (strict.canonical → d.isSome ∨ v.isSome) ∧ ∀ u, v = some u → u.Formed strict := by
  constructor
  · intro h
    refine ⟨?_, fun u hu => h.nested u (by simp [hu])⟩
    intro hstrict
    have := h.proper hstrict
    cases d <;> cases v <;> simp [Proper] at this ⊢
  · rintro ⟨hknown, hv⟩
    refine ⟨?_, fun _ => by simp [tag], by simp [decls?], ?_⟩
    · intro hstrict
      have := hknown hstrict
      cases d <;> cases v <;> simp [Proper] at this ⊢
    · intro c hc
      cases v with
      | none => simp at hc
      | some u => exact hv c (by simpa [eq_comm] using hc)

section

variable (hmeet : KeepsFormed strict meet)

include hmeet

/-- What two formed payloads have in common is formed. -/
theorem meetPayload?_formed (hp : p.Formed strict) (hq : q.Formed strict)
    (h : meetPayload? table meet p q = some (some r)) : r.Formed strict := by
  have hreplicate {u : Ty} (hu : u.Formed strict) (n : Nat) :
      ∀ v ∈ replicate n u, v.Formed strict := fun v hv => eq_of_mem_replicate hv ▸ hu
  have hset {d e : DeclSet} (hd : ∀ x ∈ d.ids, strict.ok x) {f : DeclSet → Payload Ty}
      (hdecls : (f (d.inter e)).decls? = some (d.inter e))
      (hcomponents : (f (d.inter e)).components = []) (hproper : (f (d.inter e)).Proper) :
      (f (d.inter e)).Formed strict :=
    ⟨fun _ => hproper, fun _ => tag_ne_method_of_decls hdecls,
      fun ds hds => some.inj (hdecls.symm.trans hds) ▸ fun x hx => hd x (mem_filter.mp hx).1,
      by simp [hcomponents]⟩
  cases joint_of_meetPayload? h with
  | value | method => exact hp
  | @elements t u m hm =>
    have hformed := hmeet t u m (hp.nested t (by simp)) (hq.nested u (by simp)) hm.1
    exact ⟨fun _ => trivial, fun _ => nofun, nofun, by simpa using hformed⟩
  | tuple hms =>
    exact ⟨fun _ => trivial, fun _ => nofun, nofun, sharesAll_formed hmeet hp.nested hq.nested hms⟩
  | @slots _ _ u hms =>
    exact ⟨fun _ => trivial, fun _ => nofun, nofun,
      sharesAll_formed hmeet hp.nested (hreplicate (hq.nested u (by simp)) _) hms⟩
  | @slots' _ _ u hms =>
    exact ⟨fun _ => trivial, fun _ => nofun, nofun,
      sharesAll_formed hmeet hq.nested (hreplicate (hp.nested u (by simp)) _) hms⟩
  | @dictionary k k' m v v' n hkey hvalue =>
    have hkeys := hmeet k k' m (hp.nested k (by simp)) (hq.nested k' (by simp)) hkey.1
    have hvalues := hmeet v v' n (hp.nested v (by simp)) (hq.nested v' (by simp)) hvalue.1
    exact ⟨fun _ => trivial, fun _ => nofun, nofun, by simpa using ⟨hkeys, hvalues⟩⟩
  | module | function | cls | synonym => exact hset (hp.decls _ rfl) rfl rfl trivial
  | @object ds es _ _ _ _ hshape =>
    have hdecls : ∀ x ∈ (meetClasses table ds es).ids, strict.ok x := by
      intro x hx
      obtain ⟨y, hy, z, hz, ⟨-, rfl⟩ | ⟨-, -, rfl⟩⟩ := mem_meetClasses_iff.mp hx
      · exact hp.decls ds rfl x hy
      · exact hq.decls es rfl x hz
    have hkept {classes : DeclSet} {shape : Option (List (String × Ty))}
        (hp : (Payload.object classes shape).Formed strict) :
        (Payload.object (meetClasses table ds es) shape).Formed strict :=
      ⟨by cases shape <;> exact hp.proper, fun _ => nofun, fun _ hds => some.inj hds ▸ hdecls,
        by cases shape <;> exact hp.nested⟩
    obtain ⟨fs, gs, out, rfl, rfl, rfl, hout⟩ | ⟨-, rfl⟩ | ⟨-, rfl⟩ := hshape
    · rw [formed_object_iff] at hp hq ⊢
      exact ⟨hdecls, meetFields?_formed hmeet hp.2 hq.2.2 hp.2 hout⟩
    · exact hkept hp
    · exact hkept hq
  | enum _ hvalue =>
    rw [formed_enum_iff] at hp hq ⊢
    obtain ⟨t, u, m, rfl, rfl, rfl, hm⟩ | ⟨-, rfl⟩ | ⟨-, rfl⟩ := hvalue
    · have hformed := hmeet t u m (hp.2 t rfl) (hq.2 u rfl) hm.1
      exact ⟨fun _ => .inr rfl, fun x hx => some.inj hx ▸ hformed⟩
    · exact ⟨fun hstrict => (hp.1 hstrict).imp_left fun hd => by simp [hd], hp.2⟩
    · exact ⟨fun hstrict => (hq.1 hstrict).imp_left fun he => by simp [he], hq.2⟩

theorem meetTags?_formed (ha : a.Formed strict) (hb : b.Formed strict)
    (h : meetTags? table meet a b = some t) : t.Formed strict := by
  obtain ⟨tags, rfl, -, -⟩ := exists_of_meetTags? h
  refine .ofParts (fun _ => Tagged.ordered (fun tag p hp => ?_) (toList_pairwise _)) ?_
  · exact (Slot.meet?_tag (Slot.bind_payload?_eq_some_iff.mp hp)).1
  · intro p hp
    obtain ⟨tag, -, hp⟩ := mem_filterMap.mp hp
    obtain ⟨-, hp | hp | ⟨q, r, hq, hr, hp⟩⟩ :=
      Slot.meet?_eq_holds (Slot.bind_payload?_eq_some_iff.mp hp)
    · exact ha.payload? hp
    · exact hb.payload? hp
    · exact meetPayload?_formed hmeet (ha.payload? hq) (hb.payload? hr) hp

theorem meetEnum?_formed {e other result : Ty} (he : e.Formed strict)
    (hother : other.Formed strict) (hresult : result.Formed strict)
    (h : meetEnum? meet e other result = some t) : t.Formed strict := by
  simp only [meetEnum?] at h
  split at h
  · exact some.inj h ▸ hresult
  · simp only [bind_eq_bind, bind_eq_some_iff] at h
    obtain ⟨m, hm, h⟩ := h
    split at h
    · exact some.inj h ▸ hresult
    · next value hvalue =>
      cases h
      have hformed := (hmeet _ _ m he.enumValue (hother.without _) hm).nonempty? hvalue
      exact hresult.union (.enumeration fun u hu => some.inj hu ▸ hformed)

end

end

/-- The intersection of formed types is formed. -/
theorem Formed.meetExpanded? (htable : table.Formed strict) (n : Nat) (a b c : Ty)
    (ha : a.Formed strict) (hb : b.Formed strict)
    (h : meetExpanded? table n a b = some c) : c.Formed strict := by
  induction n generalizing a b c with
  | zero => simp [Ty.meetExpanded?] at h
  | succ n ih =>
    simp only [Ty.meetExpanded?, bind_eq_bind, bind_eq_some_iff] at h
    obtain ⟨shared, hshared, both, hboth, h⟩ := h
    have hinner : ∀ x y z : Ty, x.Formed strict → y.Formed strict →
        (if x.isNever || y.isNever then some never
          else Ty.meetExpanded? table n (x.expand table) (y.expand table)) = some z →
        z.Formed strict := by
      intro x y z hx hy hz
      split at hz
      · exact some.inj hz ▸ .ofTags _
      · exact ih _ _ z (hx.expand htable) (hy.expand htable) hz
    have hshared := meetTags?_formed hinner ha hb hshared
    have hobject {x u : Ty} (hx : x.Formed strict) (hu : u.Formed strict) (p : Bool) :
        (if p then u.union (x.restrictedTo .objectLike) else u).Formed strict := by
      split
      · exact hu.union (hx.restrictedTo _)
      · exact hu
    refine meetEnum?_formed ih hb ha (meetEnum?_formed ih ha hb ?_ hboth) h
    exact hobject ha (hobject hb hshared _) _

theorem Formed.meet? (htable : table.Formed strict) {n : Nat} {c : Ty} (ha : a.Formed strict)
    (hb : b.Formed strict) (h : meet? table n a b = some c) : c.Formed strict := by
  unfold Ty.meet? at h
  split at h
  · exact some.inj h ▸ .ofTags _
  · exact .meetExpanded? htable n _ _ c (ha.expand htable) (hb.expand htable) h

/-- Formed types have formed intersections. -/
theorem Formed.meet (htable : table.Formed strict) (ha : a.Formed strict)
    (hb : b.Formed strict) : (meet table a b).Formed strict :=
  .getD fun _ => .meet? htable ha hb

/-! ### Narrowing -/

variable {n : Nat} {r : Ty} {truth : Bool}

@[simp] theorem union_never (a : Ty) : a.union never = a := union_of_isNever rfl

/-- The parts are what is kept of the kinds. -/
structure PartsOf (part? : Tag → Option Ty) (tags : List Tag) (parts : List Ty) : Prop where
  given : ∀ tag ∈ tags, ∃ part ∈ parts, part? tag = some part
  origin : ∀ part ∈ parts, ∃ tag ∈ tags, part? tag = some part

/-- What is kept of one kind after the other is joined. -/
theorem exists_parts_of_foldlM {part? : Tag → Option Ty} {tags : List Tag}
    (h : tags.foldlM (fun acc tag => (part? tag).map acc.union) a = some r) :
    ∃ parts, PartsOf part? tags parts ∧ parts.foldl .union a = r := by
  induction tags generalizing a with
  | nil => exact ⟨[], ⟨by simp, by simp⟩, some.inj h⟩
  | cons tag tags ih =>
    rw [foldlM_cons, bind_eq_bind, bind_eq_some_iff] at h
    obtain ⟨next, hnext, h⟩ := h
    obtain ⟨part, hpart, rfl⟩ := map_eq_some_iff.mp hnext
    obtain ⟨parts, ⟨hgiven, horigin⟩, rfl⟩ := ih h
    refine ⟨part :: parts, ⟨?_, ?_⟩, rfl⟩ <;> grind

variable {part : Ty}

/-- Members of an enumeration, of whose literals something may be left, are formed. -/
theorem Formed.members {value? : Option Ty} {d : Option DeclId}
    (hvalue : ∀ v, value? = some v → v.Formed strict)
    (h : (do match Ty.nonempty? (← value?) with
      | some v => pure (.enumeration d (some v))
      | none => pure never) = some part) :
    part.Formed strict := by
  obtain ⟨v, hv, h⟩ := bind_eq_some_iff.mp h
  split at h
  · next u hu =>
    cases h
    exact .enumeration fun w hw => some.inj hw ▸ (hvalue v hv).nonempty? hu
  · exact some.inj h ▸ .ofTags _

/-- A number in the representation of a tag is a literal. -/
theorem convert_isValue {q : Quantity} (h : q.convert tag = some p) : p.isValue := by
  have hvalue {p : Payload Ty} (htag : p.tag = tag)
      (hnumeric : tag = .number ∨ tag = .long ∨ tag = .char ∨ tag = .float ∨ tag = .double) :
      p.isValue := by
    rw [isValue, htag]
    rcases hnumeric with rfl | rfl | rfl | rfl | rfl <;> rfl
  unfold Quantity.convert at h
  split at h <;> grind [tag, map_eq_some_iff]

/-- The number of `a` of one kind as a number of the kind `tag`, if that is one of `part`. -/
def equalNumber (a part : Ty) (tag kind : Tag) : Ty :=
  match (a.quantity? kind).bind fun q => q.convert tag with
  | some candidate =>
    match part.payload? tag with
    | some p => if p = candidate then exact candidate else never
    | none => exact candidate
  | none => never

/-- Unless some number of `a` is not known, its numbers are tried one by one. -/
theorem numericEqual_eq (a part : Ty) (tag : Tag) : numericEqual a part tag =
    if (a.tags ∩ .comparable).toList.any fun kind => (a.quantity? kind).isNone then part
    else unionAll ((a.tags ∩ .comparable).toList.map (equalNumber a part tag)) := by
  unfold numericEqual unionAll
  rw [foldl_map]
  refine if_congr Iff.rfl rfl (congrFun (congrFun ?_ _) _)
  congr 1
  funext acc kind
  unfold equalNumber
  cases (a.quantity? kind).bind fun q => q.convert tag with
  | none => exact (union_never acc).symm
  | some candidate =>
    cases part.payload? tag with
    | none => rfl
    | some p =>
      simp only
      split
      · rfl
      · exact (union_never acc).symm

theorem Formed.equalNumber (a part : Ty) (tag kind : Tag) :
    (equalNumber a part tag kind).Formed strict := by
  unfold Ty.equalNumber
  split
  · next candidate hcandidate =>
    obtain ⟨q, -, hq⟩ := bind_eq_some_iff.mp hcandidate
    have hexact : (Ty.exact candidate).Formed strict := .exact (.of_isValue (convert_isValue hq))
    split
    · split
      · exact hexact
      · exact .ofTags _
    · exact hexact
  · exact .ofTags _

theorem Formed.numericEqual (hpart : part.Formed strict) (a : Ty) (tag : Tag) :
    (numericEqual a part tag).Formed strict := by
  rw [numericEqual_eq]
  split
  · exact hpart
  · exact .unionAll (forall_mem_map.mpr fun kind _ => .equalNumber a part tag kind)

theorem Formed.booleanEqual (a : Ty) (tag : Tag) : (booleanEqual a tag).Formed strict := by
  exact iteInduction (fun _ => .ofTags _) fun _ => .ofTags _

/-- What is kept of one kind of a type when its values equal one of `values`. -/
def equalPart? (table : DeclTable) (n : Nat) (values b : Ty) (tag : Tag) : Option Ty :=
  if tag = .enum then do
    match nonempty? (← narrowEq? table n values b.enumValue) with
    | some v => pure (enumeration b.enumDecl? (some v))
    | none => pure never
  else if comparable.contains tag then some (numericEqual values (b.part tag) tag)
  else if Tags.boolean.contains tag then some (booleanEqual values tag)
  else if values.tags.contains tag then
    meet? table (comparisonBound table (values.part tag) (b.part tag)) (values.part tag)
      (b.part tag)
  else some never

/-- Narrowing joins the parts that are kept of all kinds, and adds all that is not null if the other
type is the unqualified object. -/
theorem narrowEq?_succ (ha : a.isNever = false) (hb : b.isNever = false)
    (h : narrowEq? table (n + 1) a b = some r) : ∃ parts,
      PartsOf (equalPart? table n (a.expand table).enumToValue (b.expand table))
        (b.expand table).tags.toList parts ∧
      r = if (a.expand table).isPlainObject then
          (unionAll parts).union ((b.expand table).without (Tags.single .null))
        else unionAll parts := by
  rw [narrowEq?, ha, hb] at h
  simp only [Bool.or_self, Bool.false_eq_true, if_false, bind_eq_bind, bind_eq_some_iff] at h
  obtain ⟨kept, hfold, h⟩ := h
  obtain ⟨parts, hparts, rfl⟩ : ∃ parts,
      PartsOf (equalPart? table n (a.expand table).enumToValue (b.expand table))
        (b.expand table).tags.toList parts ∧ unionAll parts = kept := by
    refine exists_parts_of_foldlM (hfold ▸ congrFun (congrFun ?_ _) _)
    congr 1
    funext acc tag
    unfold equalPart?
    split
    · cases narrowEq? table n (a.expand table).enumToValue (b.expand table).enumValue with
      | none => rfl
      | some v => cases hv : v.nonempty? <;> simp [hv]
    · split
      · rfl
      · split
        · rfl
        · split
          · exact map_eq_bind
          · simp
  exact ⟨parts, hparts, (some.inj h).symm⟩

theorem Formed.equalPart? (htable : table.Formed strict) {values : Ty}
    (hvalues : values.Formed strict) (hb : b.Formed strict)
    (hmembers : ∀ v, narrowEq? table n values b.enumValue = some v → v.Formed strict)
    (h : equalPart? table n values b tag = some part) : part.Formed strict := by
  unfold Ty.equalPart? at h
  split at h
  · exact .members hmembers h
  split at h
  · exact some.inj h ▸ (hb.part tag).numericEqual _ _
  split at h
  · exact some.inj h ▸ .booleanEqual _ _
  split at h
  · exact .meet? htable (hvalues.part tag) (hb.part tag) h
  · exact some.inj h ▸ .ofTags _

/-- What is left of a formed type after a test for equality is formed. -/
theorem Formed.narrowEq? (htable : table.Formed strict) (n : Nat) (a b c : Ty)
    (ha : a.Formed strict) (hb : b.Formed strict) (h : narrowEq? table n a b = some c) :
    c.Formed strict := by
  induction n generalizing a b c with
  | zero => simp [Ty.narrowEq?] at h
  | succ n ih =>
    cases hne : a.isNever || b.isNever with
    | true =>
      rw [Ty.narrowEq?, if_pos hne] at h
      exact some.inj h ▸ .ofTags _
    | false =>
      obtain ⟨hna, hnb⟩ := Bool.or_eq_false_iff.mp hne
      obtain ⟨parts, hparts, rfl⟩ := narrowEq?_succ hna hnb h
      have ha := (ha.expand htable).enumToValue
      have hb := hb.expand htable
      have hkept : (Ty.unionAll parts).Formed strict := .unionAll fun part hpart => by
        obtain ⟨tag, -, htag⟩ := hparts.origin part hpart
        exact .equalPart? htable ha hb (fun v => ih _ _ v ha hb.enumValue) htag
      split
      · exact hkept.union (hb.without _)
      · exact hkept

theorem Formed.narrowEq (htable : table.Formed strict) (ha : a.Formed strict)
    (hb : b.Formed strict) : (narrowEq table a b).Formed strict :=
  .getD fun c => .narrowEq? htable _ a b c ha hb

theorem Formed.narrowNe (htable : table.Formed strict) (a : Ty) (hb : b.Formed strict) :
    (narrowNe table a b).Formed strict := by
  have hexpanded := hb.expand htable
  unfold Ty.narrowNe
  split
  · simp only
    split
    · exact hexpanded.without _
    · split
      · split
        · exact hexpanded.without _
        · exact hexpanded
      · exact hexpanded
  · exact hb

/-- What is kept of numbers or characters. An unknown one may be zero. -/
def truthNumber (truth : Bool) (part : Ty) (tag : Tag) : Ty :=
  match part.quantity? tag with
  | some q => if q.isZero != truth then part else never
  | none => if truth then part else ((Quantity.int 0).convert tag).elim never exact

/-- What is kept of one kind of a type when its values are truthy or falsy. -/
def truthPart? (table : DeclTable) (n : Nat) (truth : Bool) (t : Ty) (tag : Tag) : Option Ty :=
  let keepIf (b : Bool) : Ty := if b then t.part tag else never
  match tag with
  | .null | .false => some (keepIf (!truth))
  | .true => some (keepIf truth)
  | .number | .long | .float | .double | .char => some (truthNumber truth (t.part tag) tag)
  | .enum => do
    match nonempty? (← narrowTruth? table n truth t.enumValue) with
    | some v => pure (enumeration t.enumDecl? (some v))
    | none => pure never
  | .object => some (keepIf (truth || t.isPlainObject))
  | _ => some (keepIf truth)

/-- Narrowing joins the parts that are kept of all kinds. -/
theorem narrowTruth?_succ (table : DeclTable) (n : Nat) (truth : Bool) (t : Ty) :
    narrowTruth? table (n + 1) truth t = (t.expand table).tags.toList.foldlM
      (fun acc tag => (truthPart? table n truth (t.expand table) tag).map acc.union) never := by
  rw [narrowTruth?]
  congr 1
  funext acc tag
  have hkeep (b : Bool) : (if b then acc.union ((t.expand table).part tag) else acc) =
      acc.union (if b then (t.expand table).part tag else never) := by
    cases b <;> simp
  cases tag with
  | enum =>
    simp only [truthPart?]
    cases narrowTruth? table n truth (t.expand table).enumValue with
    | none => rfl
    | some v => cases hv : v.nonempty? <;> simp [hv]
  | number | long | float | double | char =>
    simp only [truthPart?, truthNumber]
    cases ((t.expand table).part _).quantity? _ with
    | some q => exact congrArg some (hkeep _)
    | none =>
      cases truth with
      | true => rfl
      | false => cases (Quantity.int 0).convert _ <;> simp
  | _ => exact congrArg some (hkeep _)

theorem Formed.truthPart? (ht : t.Formed strict)
    (hmembers : ∀ v, narrowTruth? table n truth t.enumValue = some v → v.Formed strict)
    (h : truthPart? table n truth t tag = some part) : part.Formed strict := by
  have hkeep (b : Bool) : (if b then t.part tag else never).Formed strict := by
    cases b
    · exact .ofTags _
    · exact ht.part tag
  have hnumber : (truthNumber truth (t.part tag) tag).Formed strict := by
    unfold truthNumber
    split
    · exact hkeep _
    · split
      · exact ht.part tag
      · cases hzero : (Quantity.int 0).convert tag with
        | none => exact .ofTags _
        | some zero => exact .exact (.of_isValue (convert_isValue hzero))
  cases tag with
  | enum => exact .members hmembers h
  | number | long | float | double | char => exact some.inj h ▸ hnumber
  | _ => exact some.inj h ▸ hkeep _

/-- The truthy or falsy values of a formed type are formed. -/
theorem Formed.narrowTruth? (htable : table.Formed strict) (n : Nat) (truth : Bool) (t c : Ty)
    (ht : t.Formed strict) (h : narrowTruth? table n truth t = some c) :
    c.Formed strict := by
  induction n generalizing t c with
  | zero => simp [Ty.narrowTruth?] at h
  | succ n ih =>
    rw [narrowTruth?_succ] at h
    obtain ⟨parts, hparts, rfl⟩ := exists_parts_of_foldlM h
    have ht := ht.expand htable
    refine .foldl_union (fun part hpart => ?_) (.ofTags _)
    obtain ⟨tag, -, htag⟩ := hparts.origin part hpart
    exact .truthPart? ht (fun v => ih _ v ht.enumValue) htag

theorem Formed.narrowTruth (htable : table.Formed strict) (truth : Bool)
    (ht : t.Formed strict) : (narrowTruth table truth t).Formed strict :=
  .getD fun c => .narrowTruth? htable _ truth t c ht

end Ty

end TypeFlow
