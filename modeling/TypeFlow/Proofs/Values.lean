import Mathlib.Data.List.Forall2
import TypeFlow.Proofs.TypedefExpansion
import TypeFlow.Proofs.Inheritance

/-!
# Values of a type

`Value.Inhabits` says which values belong to a type: those of a tag that the type holds without
payload or with a payload that they match, part by part. The unqualified object stands for most
values, and members of enumerations belong wherever their literal does. Typedefs are expanded where
a part of a value reaches them, so the relation follows the value and not the type.

`Ty.CoveredBy` says that each tag of one level of a type is accounted for by another type, up to a
relation between components. If the relation is right for the parts of a value, then a value of the
first type belongs to the second one.
-/

namespace TypeFlow

open List Option Tags

/-- A literal that a member of an enumeration may stand for. -/
inductive Scalar where
  | number (n : Int32)
  | long (n : Int64)
  | float (x : Single)
  | double (x : Double)
  | char (c : Char)
  | string (s : String)

/-- The kind of a literal. -/
def Scalar.tag : Scalar → Tag
  | number _ => .number
  | long _ => .long
  | float _ => .float
  | double _ => .double
  | char _ => .char
  | string _ => .string

/-- A value at run time. -/
inductive Value where
  | null
  | bool (b : Bool)
  | scalar (s : Scalar)
  | symbol (s : String)
  | array (items : List Value)
  | dictionary (entries : List (Value × Value))
  | module (d : DeclId)
  | function (d : DeclId)
  | cls (d : DeclId)
  /-- A method, about which nothing else is known. -/
  | method
  /-- An instance of a class with the values of its fields. -/
  | object (c : DeclId) (fields : List (String × Value))
  /-- A member of an enumeration with the literal that it stands for. -/
  | enum (d : DeclId) (s : Scalar)

namespace Value

/-- The kind of a value. -/
def tag : Value → Tag
  | null => .null
  | bool b => if b then .true else .false
  | scalar s => s.tag
  | symbol _ => .symbol
  | array _ => .array
  | dictionary _ => .dictionary
  | module _ => .module
  | function _ => .function
  | .cls _ => .cls
  | method => .method
  | object _ _ => .object
  | enum _ _ => .enum

mutual

/-- The value belongs to the type. -/
inductive Inhabits (table : DeclTable) : Value → Ty → Prop
  | bare {v : Value} {t : Ty} (htag : v.tag ∈ (t.expand table).tags)
      (hnone : (t.expand table).payload? v.tag = none) : Inhabits table v t
  | payload {v : Value} {t : Ty} {p : Payload Ty} (htag : v.tag ∈ (t.expand table).tags)
      (hp : (t.expand table).payload? v.tag = some p) (h : Matches table v p) : Inhabits table v t
  /-- The unqualified object stands for more than instances of classes. -/
  | objectLike {v : Value} {t : Ty} (ht : (t.expand table).isPlainObject)
      (hv : v.tag ∈ objectLike) : Inhabits table v t
  /-- A member of an enumeration may be used in place of its literal. -/
  | underlying {d : DeclId} {s : Scalar} {t : Ty} (h : Inhabits table (scalar s) t) :
      Inhabits table (enum d s) t

/-- The value is one of those that the payload describes. -/
inductive Matches (table : DeclTable) : Value → Payload Ty → Prop
  | number (n : Int32) : Matches table (scalar (.number n)) (.number n)
  | long (n : Int64) : Matches table (scalar (.long n)) (.long n)
  | float (x : Single) : Matches table (scalar (.float x)) (.float x)
  | double (x : Double) : Matches table (scalar (.double x)) (.double x)
  | char (c : Char) : Matches table (scalar (.char c)) (.char c)
  | string (s : String) : Matches table (scalar (.string s)) (.string s)
  | symbol (s : String) : Matches table (symbol s) (.symbol s)
  | elements {items : List Value} {t : Ty} (h : ∀ v ∈ items, Inhabits table v t) :
      Matches table (array items) (.elements t)
  | tuple {items : List Value} {ts : List Ty} (h : Forall₂ (Inhabits table) items ts) :
      Matches table (array items) (.tuple ts)
  | dictionary {entries : List (Value × Value)} {k v : Ty}
      (hkeys : ∀ e ∈ entries, Inhabits table e.1 k)
      (hvalues : ∀ e ∈ entries, Inhabits table e.2 v) :
      Matches table (dictionary entries) (.dictionary k v)
  | method (args : List Ty) (r : Ty) : Matches table method (.method args r)
  | module {d : DeclId} {ds : DeclSet} (h : d ∈ ds) : Matches table (module d) (.module ds)
  | function {d : DeclId} {ds : DeclSet} (h : d ∈ ds) : Matches table (function d) (.function ds)
  | cls {d : DeclId} {ds : DeclSet} (h : d ∈ ds) : Matches table (.cls d) (.cls ds)
  /-- An instance of a subclass that has all the fields of the shape. -/
  | object {c : DeclId} {fields : List (String × Value)} {classes : DeclSet}
      {shape : Option (List (String × Ty))}
      (hclass : ∃ d ∈ classes, table.isSubclass c d)
      (hknown : ∀ e ∈ shape.getD [], (fields.lookup e.1).isSome)
      (hfields : ∀ e ∈ shape.getD [], ∀ v, fields.lookup e.1 = some v → Inhabits table v e.2) :
      Matches table (object c fields) (.object classes shape)
  | enum {d : DeclId} {s : Scalar} {decl : Option DeclId} {value : Option Ty}
      (hdecl : ∀ e, decl = some e → d = e)
      (hvalue : ∀ t, value = some t → Inhabits table (scalar s) t) :
      Matches table (enum d s) (.enum decl value)

end

/-! ### Parts of values -/

/-- What a value is directly made of. -/
inductive Part : Value → Value → Prop
  | item {v : Value} {items : List Value} (h : v ∈ items) : Part v (array items)
  | key {k v : Value} {entries : List (Value × Value)} (h : (k, v) ∈ entries) :
      Part k (dictionary entries)
  | value {k v : Value} {entries : List (Value × Value)} (h : (k, v) ∈ entries) :
      Part v (dictionary entries)
  | field {name : String} {v : Value} {c : DeclId} {fields : List (String × Value)}
      (h : (name, v) ∈ fields) : Part v (object c fields)
  | underlying (d : DeclId) (s : Scalar) : Part (scalar s) (enum d s)

/-- Values are finite, so there is an induction from parts to values. -/
theorem part_wellFounded : WellFounded Part := by
  -- A member of an enumeration need not be larger than its literal, so it counts for more.
  let rank (v : Value) : Nat := 2 * sizeOf v + if v.tag = .enum then 1 else 0
  have hsize {v w : Value} (h : sizeOf v < sizeOf w) : rank v < rank w := by
    simp only [rank]
    split <;> split <;> omega
  refine Subrelation.wf (fun {v w} h => ?_) (measure rank).wf
  cases h with
  | item h =>
    have := sizeOf_lt_of_mem h
    refine hsize ?_
    simp only [array.sizeOf_spec]
    omega
  | key h | value h =>
    have := sizeOf_lt_of_mem h
    refine hsize ?_
    simp only [dictionary.sizeOf_spec, Prod.mk.sizeOf_spec] at this ⊢
    omega
  | field h =>
    have := sizeOf_lt_of_mem h
    refine hsize ?_
    simp only [object.sizeOf_spec, Prod.mk.sizeOf_spec] at this ⊢
    omega
  | underlying d s =>
    have htag : (scalar s).tag ≠ .enum := by cases s <;> simp [tag, Scalar.tag]
    change 2 * sizeOf (scalar s) + (if (scalar s).tag = .enum then 1 else 0) <
      2 * sizeOf (enum d s) + 1
    rw [if_neg htag, scalar.sizeOf_spec, enum.sizeOf_spec]
    omega

/-! ### Values of one level -/

/-- What one level of a type, without typedefs, says about a value. -/
def Fits (table : DeclTable) (v : Value) (t : Ty) : Prop :=
  (v.tag ∈ t.tags ∧ ∀ p, t.payload? v.tag = some p → Matches table v p) ∨
    (t.isPlainObject ∧ v.tag ∈ objectLike)

variable {table : DeclTable} {v : Value} {t : Ty}

theorem exists_eq_enum (h : v.tag = .enum) : ∃ d s, v = enum d s := by
  cases v with
  | enum d s => exact ⟨d, s, rfl⟩
  | bool b => cases b <;> simp [tag] at h
  | scalar s => cases s <;> simp [tag, Scalar.tag] at h
  | _ => simp [tag] at h

/-- A value belongs to a type if it fits its expansion or is a member of an enumeration with such a
literal. -/
theorem inhabits_iff : v.Inhabits table t ↔
    v.Fits table (t.expand table) ∨ ∃ d s, v = enum d s ∧ (scalar s).Inhabits table t := by
  constructor
  · intro h
    cases h with
    | bare htag hnone => exact .inl (.inl ⟨htag, by simp [hnone]⟩)
    | payload htag hp h =>
      refine .inl (.inl ⟨htag, fun q hq => ?_⟩)
      exact some.inj (hp.symm.trans hq) ▸ h
    | objectLike ht hv => exact .inl (.inr ⟨ht, hv⟩)
    | underlying h => exact .inr ⟨_, _, rfl, h⟩
  · rintro ((⟨htag, hmatch⟩ | ⟨ht, hv⟩) | ⟨d, s, rfl, h⟩)
    · cases hp : (t.expand table).payload? v.tag with
      | none => exact .bare htag hp
      | some p => exact .payload htag hp (hmatch p hp)
    · exact .objectLike ht hv
    · exact .underlying h

theorem scalar_inhabits_iff {s : Scalar} :
    (scalar s).Inhabits table t ↔ (scalar s).Fits table (t.expand table) := by
  rw [inhabits_iff]
  simp

/-- A type with values has tags. -/
theorem Inhabits.isNever_eq_false (hv : v.Inhabits table t) : t.isNever = false := by
  obtain ⟨w, hw⟩ : ∃ w : Value, w.Fits table (t.expand table) := by
    rcases inhabits_iff.mp hv with h | ⟨d, s, -, h⟩
    · exact ⟨v, h⟩
    · exact ⟨scalar s, scalar_inhabits_iff.mp h⟩
  refine Bool.eq_false_iff.mpr fun hnever => ?_
  have hnone := isEmpty_iff.mp hnever
  have hexpanded : t.Expanded := fun h => absurd (Ty.hasSynonym_iff.mp h) (hnone .synonym)
  rw [hexpanded.expand_eq] at hw
  rcases hw with ⟨htag, -⟩ | ⟨hplain, -⟩
  · exact hnone w.tag htag
  · exact hnone .object (mem_iff.mpr (Bool.and_eq_true_iff.mp hplain).1)

/-- Every literal may stand behind a member of an enumeration. -/
theorem scalar_inhabits_enumValues (table : DeclTable) (s : Scalar) :
    (scalar s).Inhabits table (Ty.ofTags enumValues) := by
  have hmem : (scalar s).tag ∈ enumValues := by
    cases s <;> simp only [tag, Scalar.tag] <;> decide
  exact .bare hmem rfl

/-- The literal of a member of an enumeration is one of the values that the type allows for it. -/
theorem scalar_inhabits_enumValue {d : DeclId} {s : Scalar}
    (h : ∀ p, t.payload? .enum = some p → Matches table (enum d s) p) :
    (scalar s).Inhabits table t.enumValue := by
  unfold Ty.enumValue
  split
  · next hp =>
    cases h _ hp with
    | enum hdecl hvalue => exact hvalue _ rfl
  · exact scalar_inhabits_enumValues table s

end Value

/-! ### Covering -/

/-- Each part of a payload is accounted for by another payload of the tag, where `R` relates
components. About methods nothing is asked, since nothing is known about their values. -/
inductive Payload.CoveredBy (table : DeclTable) (R : Ty → Ty → Prop) :
    Payload Ty → Payload Ty → Prop
  | value {p : Payload Ty} (h : p.isValue) : CoveredBy table R p p
  | elements {t u : Ty} (h : R t u) : CoveredBy table R (.elements t) (.elements u)
  | slots {ts : List Ty} {u : Ty} (h : ∀ t ∈ ts, R t u) :
      CoveredBy table R (.tuple ts) (.elements u)
  | tuple {ts us : List Ty} (h : Forall₂ R ts us) : CoveredBy table R (.tuple ts) (.tuple us)
  | dictionary {k v k' v' : Ty} (hkey : R k k') (hvalue : R v v') :
      CoveredBy table R (.dictionary k v) (.dictionary k' v')
  | method (args : List Ty) (r : Ty) (args' : List Ty) (r' : Ty) :
      CoveredBy table R (.method args r) (.method args' r')
  | module {ds es : DeclSet} (h : ∀ d ∈ ds, d ∈ es) : CoveredBy table R (.module ds) (.module es)
  | function {ds es : DeclSet} (h : ∀ d ∈ ds, d ∈ es) :
      CoveredBy table R (.function ds) (.function es)
  | cls {ds es : DeclSet} (h : ∀ d ∈ ds, d ∈ es) : CoveredBy table R (.cls ds) (.cls es)
  | synonym {ds es : DeclSet} (h : ∀ d ∈ ds, d ∈ es) : CoveredBy table R (.synonym ds) (.synonym es)
  | object {ds es : DeclSet} {shape shape' : Option (List (String × Ty))}
      (hclasses : ∀ c ∈ ds, ∃ d ∈ es, table.isSubclass c d)
      (hshape : ∀ gs, shape' = some gs → ∃ fs, shape = some fs ∧
        ∀ e ∈ gs, ∃ t, fs.lookup e.1 = some t ∧ R t e.2) :
      CoveredBy table R (.object ds shape) (.object es shape')
  | enum {d e : Option DeclId} {v w : Option Ty} (hdecl : e = none ∨ d = e)
      (hvalue : ∀ u, w = some u → R (v.getD (.ofTags .enumValues)) u) :
      CoveredBy table R (.enum d v) (.enum e w)

/-- Another type has the tag, too, without payload or with one that covers that of the type. -/
def Ty.TagCoveredBy (table : DeclTable) (R : Ty → Ty → Prop) (a b : Ty) (tag : Tag) : Prop :=
  tag ∈ b.tags ∧ ∀ q, b.payload? tag = some q → ∃ p, a.payload? tag = some p ∧ p.CoveredBy table R q

/-- Each tag of a type is accounted for by another type: by the same tag, by the unqualified object
or, for members of an enumeration, through their literals. -/
def Ty.CoveredBy (table : DeclTable) (R : Ty → Ty → Prop) (a b : Ty) : Prop :=
  ∀ tag ∈ a.tags, a.TagCoveredBy table R b tag ∨ (b.isPlainObject ∧ tag ∈ objectLike) ∨
    (tag = .enum ∧ R a.enumValue b)

namespace Value

variable {table : DeclTable} {R : Ty → Ty → Prop} {v : Value} {a b : Ty} {p q : Payload Ty}
  {P : Value → Ty → Prop} {items : List Value} {ts : List Ty}

private theorem exists_of_forall₂ (h : Forall₂ P items ts) {w : Value} (hw : w ∈ items) :
    ∃ t ∈ ts, P w t := by
  induction h with
  | nil => simp at hw
  | cons hhead _ ih =>
    rcases mem_cons.mp hw with rfl | hw
    · exact ⟨_, mem_cons_self, hhead⟩
    · obtain ⟨t, ht, hwt⟩ := ih hw
      exact ⟨t, mem_cons_of_mem _ ht, hwt⟩

private theorem forall₂_compose {us : List Ty} (h : Forall₂ P items ts) (hR : Forall₂ R ts us)
    (hstep : ∀ w ∈ items, ∀ t u, P w t → R t u → P w u) : Forall₂ P items us := by
  induction h generalizing us with
  | nil => cases hR; exact .nil
  | cons hhead _ ih =>
    rw [forall_mem_cons] at hstep
    cases hR with
    | cons hfirst hrest => exact .cons (hstep.1 _ _ hhead hfirst) (ih hrest hstep.2)

/-- A value that matches a payload matches one that covers it, if `R` is right for its parts. -/
theorem Matches.of_coveredBy (h : p.CoveredBy table R q)
    (hR : ∀ t u, R t u → ∀ w : Value, w.Part v → w.Inhabits table t → w.Inhabits table u)
    (hv : v.Matches table p) : v.Matches table q := by
  cases h
  case value => exact hv
  all_goals cases hv
  case elements.elements h _ hitems =>
    exact .elements fun w hw => hR _ _ h w (.item hw) (hitems w hw)
  case slots.tuple h _ hitems =>
    refine .elements fun w hw => ?_
    obtain ⟨t, ht, hwt⟩ := exists_of_forall₂ hitems hw
    exact hR t _ (h t ht) w (.item hw) hwt
  case tuple.tuple h _ hitems =>
    exact .tuple (forall₂_compose hitems h fun w hw t u hwt htu => hR t u htu w (.item hw) hwt)
  case dictionary.dictionary hkey hvalue _ hkeys hvalues =>
    exact .dictionary (fun e he => hR _ _ hkey e.1 (.key he) (hkeys e he))
      fun e he => hR _ _ hvalue e.2 (.value he) (hvalues e he)
  case method.method => exact .method ..
  case module.module h _ hd => exact .module (h _ hd)
  case function.function h _ hd => exact .function (h _ hd)
  case cls.cls h _ hd => exact .cls (h _ hd)
  case object.object shape hclasses hshape c fields hclass hknown hfields =>
    obtain ⟨d, hd, hsub⟩ := hclass
    obtain ⟨e, he, hsup⟩ := hclasses d hd
    have hfield : ∀ g ∈ shape.getD [], (fields.lookup g.1).isSome ∧
        ∀ w, fields.lookup g.1 = some w → w.Inhabits table g.2 := by
      intro g hg
      cases shape with
      | none => simp at hg
      | some gs =>
        obtain ⟨fs, rfl, hcover⟩ := hshape gs rfl
        obtain ⟨t, ht, htg⟩ := hcover g hg
        have hmem := mem_of_lookup ht
        refine ⟨hknown (g.1, t) hmem, fun w hw => ?_⟩
        exact hR t g.2 htg w (.field (mem_of_lookup hw)) (hfields (g.1, t) hmem w hw)
    exact .object ⟨e, he, DeclTable.isSubclass_trans hsub hsup⟩ (fun g hg => (hfield g hg).1)
      fun g hg => (hfield g hg).2
  case enum.enum value _ hdecl hvalue _ s hd hs =>
    have hscalar : (scalar s).Inhabits table (value.getD (.ofTags enumValues)) := by
      cases value with
      | none => exact scalar_inhabits_enumValues table s
      | some t => exact hs t rfl
    refine .enum ?_ fun u hu => hR _ u (hvalue u hu) _ (.underlying _ _) hscalar
    intro e he
    rcases hdecl with hnone | heq
    · simp [hnone] at he
    · exact hd e (heq.trans he)

/-- A value of a type belongs to a type that covers it, if `R` is right for its parts. -/
theorem Inhabits.of_coveredBy (h : (a.expand table).CoveredBy table R (b.expand table))
    (hb : (b.expand table).Expanded)
    (hR : ∀ t u, R t u → ∀ w : Value, w.Part v → w.Inhabits table t → w.Inhabits table u)
    (hself : ∀ w : Value, w.Part v → w.Inhabits table a → w.Inhabits table b)
    (hv : v.Inhabits table a) : v.Inhabits table b := by
  rw [inhabits_iff] at hv
  rcases hv with (⟨htag, hmatch⟩ | ⟨hplain, hlike⟩) | ⟨d, s, rfl, hs⟩
  · rcases h v.tag htag with ⟨htag', hcover⟩ | ⟨hplain, hlike⟩ | ⟨henum, hvalue⟩
    · refine inhabits_iff.mpr (.inl (.inl ⟨htag', ?_⟩))
      intro q hq
      obtain ⟨p, hp, hpq⟩ := hcover q hq
      exact (hmatch p hp).of_coveredBy hpq hR
    · exact .objectLike hplain hlike
    · -- The member of an enumeration is accounted for by what the other type says of its literal.
      obtain ⟨d, s, rfl⟩ := exists_eq_enum henum
      have hs := hR _ _ hvalue _ (.underlying d s) (scalar_inhabits_enumValue hmatch)
      rw [scalar_inhabits_iff, hb.expand_eq, ← scalar_inhabits_iff] at hs
      exact .underlying hs
  · have hobject : .object ∈ (a.expand table).tags ∧ (a.expand table).payload? .object = none := by
      simpa [Ty.isPlainObject, mem_iff] using hplain
    refine .objectLike ?_ hlike
    rcases h .object hobject.1 with ⟨hmem, hcover⟩ | ⟨hplain', -⟩ | ⟨henum, -⟩
    · have hnone : (b.expand table).payload? .object = none := by
        refine eq_none_iff_forall_ne_some.mpr fun q hq => ?_
        obtain ⟨p, hp, -⟩ := hcover q hq
        simp [hobject.2] at hp
      simpa [Ty.isPlainObject, mem_iff, hnone] using hmem
    · exact hplain'
    · cases henum
  · exact .underlying (hself _ (.underlying d s) hs)

end Value

end TypeFlow
