import TypeFlow.Analysis
import TypeFlow.Proofs.Overlapping

/-!
# Strict and lenient checks

A strict check asks for a subtype, a lenient one for an overlap. A subtype overlaps with its
supertypes if it is occupied: at each level there is a tag for which no component and no set of
declarations is empty. For the pairs of occupied subtypes and their supertypes form an overlap, so
nothing has to be known about the order in which the two tests go through recursive typedefs.

An empty container type, as that of an empty dictionary, is a subtype of all containers of its kind
and overlaps with none of them, so it passes strict checks only.
-/

namespace TypeFlow

open Ty

/-! ### Occupied types -/

/-- The payload describes some value, as far as `P` holds of types with values. -/
structure Payload.Occupied (P : Ty → Prop) (p : Payload Ty) : Prop where
  parts : ∀ c ∈ p.parts, P c
  decls : ∀ ds, p.decls? = some ds → ∃ d, d ∈ ds

namespace Ty

variable {table : DeclTable} {P : Ty → Prop} {a b t : Ty} {p q : Payload Ty}

/-- Some tag of the level has no payload or one that describes some value. -/
def LevelOccupied (P : Ty → Prop) (t : Ty) : Prop :=
  ∃ tag ∈ t.tags, ∀ p, t.payload? tag = some p → p.Occupied P

/-- Some tag describes a value at every level that is reached through such tags, also where
typedefs refer to themselves. -/
def Occupied (table : DeclTable) (t : Ty) : Prop :=
  ∃ P : Ty → Prop, (∀ u, P u → (u.expand table).LevelOccupied P) ∧ P t

namespace Occupied

theorem level (h : t.Occupied table) : (t.expand table).LevelOccupied (Occupied table) := by
  obtain ⟨P, hP, ht⟩ := h
  obtain ⟨tag, htag, hpayload⟩ := hP t ht
  refine ⟨tag, htag, fun p hp => ⟨fun c hc => ⟨P, hP, ?_⟩, (hpayload p hp).decls⟩⟩
  exact (hpayload p hp).parts c hc

theorem isNever_eq_false (h : t.Occupied table) : t.isNever = false := by
  refine Bool.eq_false_iff.mpr fun hnever => ?_
  obtain ⟨tag, htag, -⟩ := h.level
  rw [expand_of_isNever hnever] at htag
  exact Tags.isEmpty_iff.mp hnever tag htag

/-- A tag that describes a value at one level is enough if what it is made of is occupied. -/
theorem of_level (h : (t.expand table).LevelOccupied (Occupied table)) : t.Occupied table := by
  obtain ⟨tag, htag, hpayload⟩ := h
  refine ⟨fun u => u = t ∨ u.Occupied table, ?_, .inl rfl⟩
  have hmono {p : Payload Ty} (hp : p.Occupied (Occupied table)) :
      p.Occupied fun u => u = t ∨ u.Occupied table := ⟨fun c hc => .inr (hp.parts c hc), hp.decls⟩
  rintro u (rfl | hu)
  · exact ⟨tag, htag, fun p hp => hmono (hpayload p hp)⟩
  · obtain ⟨tag', htag', hpayload'⟩ := hu.level
    exact ⟨tag', htag', fun p hp => hmono (hpayload' p hp)⟩

/-- Kinds without payloads are occupied. -/
theorem ofTags {tags : Tags} (tag : Tag) (hsynonym : .synonym ∉ tags) (htag : tag ∈ tags) :
    (ofTags tags).Occupied table := by
  have heq : (Ty.ofTags tags).expand table = Ty.ofTags tags := expand_of_notMem hsynonym
  refine of_level ?_
  rw [heq]
  exact ⟨tag, htag, by simp [Ty.ofTags, payload?]⟩

/-- One payload alone is occupied if what it is made of is. -/
theorem exact (htag : p.tag ≠ .synonym) (hp : p.Occupied (Occupied table)) :
    (exact p).Occupied table := by
  have heq : (Ty.exact p).expand table = Ty.exact p := by
    refine expand_of_notMem ?_
    simpa [Ty.exact] using htag.symm
  refine of_level ?_
  rw [heq]
  exact ⟨p.tag, by simp [Ty.exact], by simpa [Ty.exact, payload?] using hp⟩

/-- The literals of an occupied enumeration are occupied. -/
theorem enumValue (h : ∀ p, t.payload? .enum = some p → p.Occupied (Occupied table)) :
    t.enumValue.Occupied table := by
  unfold Ty.enumValue
  split
  · next hp => exact (h _ hp).parts _ (by simp [Payload.parts])
  · exact ofTags .number (by decide) (by decide)

end Occupied

/-! ### Supertypes of occupied types -/

/-- The pairs of occupied subtypes and their supertypes. -/
def OccupiedBelow (table : DeclTable) (t u : Ty) : Prop :=
  t.Occupied table ∧ u.WellFormed ∧ Simulated table t u

/-- An occupied type overlaps with its supertypes at every level. -/
theorem occupiedBelow_isOverlap (htable : table.WellFormed) :
    IsOverlap table (OccupiedBelow table) := by
  rintro a b ⟨ha, hb, hab⟩
  have hb' : (b.expand table).WellFormed := hb.expand htable
  obtain ⟨hne, hcovered⟩ := (Simulated.isSimulation table a b hab).resolve_left
    (by simp [ha.isNever_eq_false])
  refine ⟨ha.isNever_eq_false, hne, ?_⟩
  obtain ⟨tag, htag, hpayload⟩ := ha.level
  rcases hcovered tag htag with ⟨htag', hcovers⟩ | ⟨htag', ⟨hplain, hlike⟩ | ⟨rfl, hvalue⟩⟩
  · refine .shared htag htag' fun p q hp hq => ?_
    obtain ⟨p', hp', hpq⟩ := hcovers q hq
    obtain rfl : p' = p := Option.some.inj (hp'.symm.trans hp)
    refine hpq.overlaps (hpayload _ hp).decls fun t ht u hu htu => ?_
    exact ⟨(hpayload _ hp).parts t ht, (hb'.payload (payload?_mem hq)).nested u hu, htu⟩
  · exact .right (.object (objectOverlap_iff.mpr ⟨hplain, tag, htag, hlike⟩))
  · have hoccupied : (a.expand table).enumValue.Occupied table := .enumValue hpayload
    have hwithout : (b.expand table).without (.single .enum) = b.expand table :=
      hb'.without_of_disjoint (by simpa using htag')
    have hrest : (b.expand table).isNever = false :=
      ((Simulated.isSimulation table _ _ hvalue).resolve_left
        (by simp [hoccupied.isNever_eq_false])).1
    refine .left (.enum htag ?_ ?_)
    · rwa [hwithout]
    · rw [hwithout]
      exact ⟨hoccupied, hb', hvalue⟩

/-- An occupied type overlaps with every type of which it is a subtype. -/
theorem overlap_of_subtype (htable : table.WellFormed) (ha : a.WellFormed) (hb : b.WellFormed)
    (hoccupied : a.Occupied table) (h : a.subtype table b) : a.overlap table b :=
  (overlap_iff_overlapped htable ha hb).mpr <|
    (occupiedBelow_isOverlap htable).overlapped ⟨hoccupied, hb, .of_subtype htable ha hb h⟩

end Ty

/-! ### Checks against declared types -/

/-- The context with another strictness of checks. -/
def Context.withStrictness (ctx : Context) (strictness : Strictness) : Context :=
  { ctx with config := { ctx.config with strictTypeCheck := strictness } }

theorem Context.accepts_withStrictness (ctx : Context) (strictness : Strictness)
    (value declared : Ty) :
    (ctx.withStrictness strictness).accepts value declared =
      (value.isNever || if strictness = .on then value.subtype ctx.table declared
        else value.overlap ctx.table declared) := by
  cases strictness <;> rfl

/-- What a strict check accepts lenient checks accept, too: in every program, if the type of the
value is well formed and is empty or occupied and the declared type is well formed, then a value
that may go where the type is declared under strict checks may go there under all checks. -/
theorem accepts_of_strict (source : Source) {ctx : Context} (hctx : ctx.program = source.program)
    {value declared : Ty} (hvalue : value.WellFormed) (hdeclared : declared.WellFormed)
    (hoccupied : value.isNever = false → value.Occupied source.program.table)
    (h : (ctx.withStrictness .on).accepts value declared = true) (strictness : Strictness) :
    (ctx.withStrictness strictness).accepts value declared = true := by
  have htable : ctx.table = source.program.table := congrArg Program.table hctx
  rw [Context.accepts_withStrictness, Bool.or_eq_true] at h ⊢
  cases hnever : value.isNever with
  | true => exact .inl rfl
  | false =>
    have hsubtype := h.resolve_left (by simp [hnever])
    refine .inr ?_
    split
    · exact hsubtype
    · rw [htable] at hsubtype ⊢
      exact overlap_of_subtype source.program_table_wellFormed hvalue hdeclared
        (hoccupied hnever) hsubtype

/-- Pairs of trees under a key are lists of forests under a key for all checks. -/
theorem accepts_of_strict_nestedLists :
    let ctx : Context := ⟨nestedLists.program, {}, {}, 0⟩
    let tree := exact (.synonym (.one 1))
    let forest := exact (.synonym (.one 2))
    let value := dictionary (.exact (.string "key")) (.tuple [tree, tree])
    let declared := dictionary (.ofTags (.single .string)) (.array forest)
    value.Occupied nestedLists.program.table ∧
      (ctx.withStrictness .on).accepts value declared = true ∧
      (ctx.withStrictness .on).accepts declared value = false ∧
      (ctx.withStrictness .default).accepts value declared = true := by
  intro ctx tree forest value declared
  have htree : tree.Occupied nestedLists.program.table := by
    -- Numbers are trees, so a tree needs no array inside of it.
    have hnumber : .number ∈ (tree.expand nestedLists.program.table).tags ∧
        (tree.expand nestedLists.program.table).payload? .number = none := by decide +kernel
    exact .of_level ⟨.number, hnumber.1, by simp [hnumber.2]⟩
  have hoccupied : value.Occupied nestedLists.program.table := by
    have hkey : (exact (.string "key")).Occupied nestedLists.program.table :=
      .exact (by simp [Payload.tag]) ⟨by simp [Payload.parts], by simp [Payload.decls?]⟩
    have hpair : (tuple [tree, tree]).Occupied nestedLists.program.table :=
      .exact (by simp [Payload.tag])
        ⟨by simpa [Payload.parts] using htree, by simp [Payload.decls?]⟩
    exact .exact (by simp [Payload.tag])
      ⟨by simpa [Payload.parts] using ⟨hkey, hpair⟩, by simp [Payload.decls?]⟩
  have hstrict : (ctx.withStrictness .on).accepts value declared = true := by decide +kernel
  exact ⟨hoccupied, hstrict, by decide +kernel,
    accepts_of_strict nestedLists rfl (by decide +kernel) (by decide +kernel) (fun _ => hoccupied)
      hstrict .default⟩

/-- A function that returns an empty dictionary as a dictionary of numbers. -/
def emptyTable : Source :=
  .ofItems [.ofBody "f" [.ret () (some (.dictionary () []))] []
    (some ⟨(), [.ofArgs "Dictionary" [["String"], ["Number"]]]⟩)]

/-- An empty dictionary is a dictionary of numbers for strict checks only, so the analysis reports
the function that returns it unless checks are strict. -/
theorem not_accepts_of_strict_emptyTable :
    let ctx : Context := ⟨emptyTable.program, {}, {}, 1⟩
    let empty := dictionary .never .never
    let numbers := dictionary (.ofTags (.single .string)) (.ofTags (.single .number))
    let findings (strictness : Strictness) :=
      (emptyTable.program.analyze { strictTypeCheck := strictness }).toOption.map
        fun analysis => analysis.diagnostics.length
    (empty.WellFormed ∧ numbers.WellFormed ∧ empty.isNever = false) ∧
      (ctx.withStrictness .on).accepts empty numbers = true ∧
      (ctx.withStrictness .off).accepts empty numbers = false ∧
      (ctx.withStrictness .default).accepts empty numbers = false ∧
      findings .on = some 0 ∧ findings .off = some 1 ∧ findings .default = some 1 := by
  decide +kernel

end TypeFlow
