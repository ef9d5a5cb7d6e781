import TypeFlow.Proofs.EqualityValues

/-!
# What intersections leave

If anything is left of an intersection, the two types overlap: the pairs of which something is left
pass one step of the test for overlap. The two tests differ in one place. The literals that members
of an enumeration stand for are intersected as they are, but compared after their typedefs have been
expanded, so the expansion must not change the payloads beside the typedefs.
-/

namespace TypeFlow

open Context Tags

namespace Ty

variable {table : DeclTable} {R S E : Ty → Ty → Prop} {a b m t u x y : Ty} {n : Nat} {tag : Tag}
  {tags : Tags}

/-! ### Typedefs beside payloads -/

/-- Expanding typedefs changes no payload that stands beside them, though it may drop one. -/
def Steady (table : DeclTable) (t : Ty) : Prop :=
  ∀ tag ∈ t.tags, tag ≠ .synonym → (t.expand table).payload? tag = t.payload? tag ∨
    tag ≠ .enum ∧ (t.expand table).payload? tag = none

instance : DecidablePred (Steady table) := fun t =>
  inferInstanceAs (Decidable (∀ tag ∈ t.tags, tag ≠ .synonym → _))

/-- What members of an enumeration stand for is steady. -/
def SteadyEnum (table : DeclTable) (t : Ty) : Prop := t.enumValue.Steady table

instance : DecidablePred (SteadyEnum table) := fun t =>
  inferInstanceAs (Decidable (t.enumValue.Steady table))

theorem Steady.of_notMem (h : .synonym ∉ t.tags) : t.Steady table := by
  intro tag _ _
  rw [expand_of_notMem h]
  exact .inl rfl

/-- Levels are well formed, and what members of enumerations stand for is steady. -/
def Orderly (table : DeclTable) (t : Ty) : Prop :=
  t.WellFormed ∧ t.EveryLevel table (SteadyEnum table)

theorem orderly_enumValues : (ofTags .enumValues).Orderly table :=
  ⟨.ofTags _, .ofTags (by decide) (.of_notMem (by decide))⟩

theorem Hereditary.orderly (htable : table.WellFormed)
    (hexpanded : table.Expanded) : Hereditary table (Orderly table) where
  expand ht := ⟨ht.1.expand htable, ht.2.expand hexpanded⟩
  component ht hp hc := ⟨((ht.1.expand htable).payload hp).nested _ hc, ht.2.component hp hc⟩

/-! ### One level -/

/-- Something is left of two types, or of literals behind an enumeration and some kinds of a
type. -/
inductive Leaves (table : DeclTable) (x y : Ty) : Prop
  | whole {n : Nat} (h : Met (meet? table n) x y)
  | literals {n : Nat} {tags : Tags} (hx : x.Steady table) (hsynonym : .synonym ∉ y.tags)
      (henum : .enum ∉ y.tags) (h : Met (meetExpanded? table n) x (y.without tags))

theorem LevelMeets.exists_mem (h : a.LevelMeets table R E b) :
    (∃ tag, tag ∈ a.tags) ∧ ∃ tag, tag ∈ b.tags := by
  have henum {e other : Ty} (h : EnumMeets E e other) :
      (∃ tag, tag ∈ e.tags) ∧ ∃ tag, tag ∈ other.tags := by
    obtain ⟨tag, htag⟩ := isNever_eq_false_iff.mp h.rest
    exact ⟨⟨_, h.mem⟩, tag, (mem_sdiff.mp htag).1⟩
  cases h with
  | shared ha hb => exact ⟨⟨_, ha⟩, _, hb⟩
  | left ha hb => exact ⟨⟨_, (isPlainObject_iff.mp ha).1⟩, _, hb⟩
  | right ha hb => exact ⟨⟨_, ha⟩, _, (isPlainObject_iff.mp hb).1⟩
  | leftEnum h => exact henum h
  | rightEnum h => exact (henum h).symm

/-- What two levels have in common is found in levels that say no more about their kinds. Typedefs
count only if both have them. -/
theorem LevelMeets.levelOverlaps (h : x.LevelMeets table R E y)
    (hx : ∀ tag ∈ x.tags, (tag = .synonym → tag ∈ y.tags) → tag ∈ a.tags ∧
      (a.payload? tag = x.payload? tag ∨ tag ≠ .enum ∧ a.payload? tag = none))
    (hy : ∀ tag ∈ y.tags, tag ∈ b.tags ∧ b.payload? tag = y.payload? tag)
    (hS : ∀ p ∈ a.data, ∀ q ∈ b.data, p.Overlaps table R q → p.Overlaps table S q)
    (hleft : EnumMeets E x y → StandsIn S a b) (hright : EnumMeets E y x → StandsIn S b a) :
    a.LevelOverlaps table S b := by
  cases h with
  | @shared tag htx hty h =>
    obtain ⟨hta, hpayload⟩ := hx tag htx fun _ => hty
    obtain ⟨htb, hpayload'⟩ := hy tag hty
    refine .shared hta htb fun p q hp hq => ?_
    have hpx : x.payload? tag = some p := by
      rcases hpayload with heq | ⟨-, hnone⟩
      · exact heq ▸ hp
      · cases hnone.symm.trans hp
    exact hS p (payload?_mem hp) q (payload?_mem hq) (h p q hpx (hpayload' ▸ hq)).overlaps
  | left hplain hty hlike =>
    obtain ⟨hobject, hnone⟩ := isPlainObject_iff.mp hplain
    obtain ⟨hta, hpayload⟩ := hx .object hobject (by simp)
    have hplain := isPlainObject_iff.mpr ⟨hta, hpayload.elim (·.trans hnone) (·.2)⟩
    exact .left (.object (objectOverlap_iff.mpr ⟨hplain, _, (hy _ hty).1, hlike⟩))
  | @right tag htx hplain hlike =>
    obtain ⟨hobject, hnone⟩ := isPlainObject_iff.mp hplain
    obtain ⟨htb, hpayload⟩ := hy .object hobject
    have hta := (hx tag htx (by rintro rfl; exact absurd hlike (by decide))).1
    have hplain := isPlainObject_iff.mpr ⟨htb, hpayload.trans hnone⟩
    exact .right (.object (objectOverlap_iff.mpr ⟨hplain, tag, hta, hlike⟩))
  | leftEnum h => exact .left (hleft h)
  | rightEnum h => exact .right (hright h)

theorem payload?_without (hnot : tag ∈ (t.without tags).tags) :
    (t.without tags).payload? tag = t.payload? tag := by
  have hslot := slot_without t tags tag
  rw [slot, slot] at hslot
  cases h : (t.without tags).payload? tag <;> cases h' : t.payload? tag <;>
    simp_all

/-! ### All levels -/

section

variable (htable : table.WellFormed) (hexpanded : table.Expanded)

include htable hexpanded

/-- Members of an enumeration overlap with a type if something is left of what they stand for. -/
theorem standsIn_of_met (hx : x.Orderly table) (hy : y.Orderly table)
    (henum : .enum ∈ (x.expand table).tags) (hnever : y.isNever = false)
    (hsynonym : .synonym ∉ y.tags) (hnot : .enum ∉ y.tags)
    (h : Met (meetExpanded? table n) (x.expand table).enumValue (y.without tags)) :
    StandsIn (fun t u => Leaves table t u ∧ t.Orderly table ∧ u.Orderly table) (x.expand table)
      y := by
  have heq := hy.1.without_of_disjoint fun tag htag => mem_single.mp htag ▸ hnot
  refine .enum henum (heq.symm ▸ hnever) (heq.symm ▸ ⟨.literals hx.2.level hsynonym hnot h, ?_, hy⟩)
  exact (Hereditary.orderly htable hexpanded).enumValue orderly_enumValues hx

theorem leaves_isOverlap :
    IsOverlap table fun x y => Leaves table x y ∧ x.Orderly table ∧ y.Orderly table := by
  have hC := Hereditary.orderly htable hexpanded
  have hcomponents {x y : Ty} {n : Nat} (hx : x.Orderly table) (hy : y.Orderly table) :
      ∀ p ∈ (x.expand table).data, ∀ q ∈ (y.expand table).data,
        p.Overlaps table (Met (meet? table n)) q →
        p.Overlaps table (fun t u => Leaves table t u ∧ t.Orderly table ∧ u.Orderly table) q := by
    intro p hp q hq h
    exact h.mono_on (fun c => hC.component hx hp) (fun c => hC.component hy hq)
      fun t u ht hu hmet => ⟨.whole hmet, ht, hu⟩
  rintro x y ⟨hleaves, hx, hy⟩
  have hwx := hx.1.expand htable
  have hwy := hy.1.expand htable
  cases hleaves with
  | @whole n h =>
    obtain ⟨m, hm, hne⟩ := h
    obtain ⟨hnx, hny, hm⟩ := exists_expanded_of_meet? hm hne
    cases n with
    | zero => cases hm
    | succ n =>
      have hlevel := levelMeets_of_meetExpanded? htable hwx hwy hm hne
      have hstands {x y : Ty} (hx : x.Orderly table) (hy : y.Orderly table)
          (h : EnumMeets (Met (meetExpanded? table n)) (x.expand table) (y.expand table)) :
          StandsIn (fun t u => Leaves table t u ∧ t.Orderly table ∧ u.Orderly table)
            (x.expand table) (y.expand table) := by
        obtain ⟨tag, htag⟩ := isNever_eq_false_iff.mp h.rest
        refine standsIn_of_met htable hexpanded hx (hC.expand hy) h.mem
          (isNever_eq_false_iff.mpr ⟨tag, (mem_sdiff.mp htag).1⟩) (fun hsynonym => ?_)
          h.notMem h.literals
        have hany := expand_expanded hexpanded y hsynonym
        exact h.notMem (hany ▸ (by decide : .enum ∈ any.tags))
      exact ⟨hnx, hny, hlevel.levelOverlaps (fun tag htag _ => ⟨htag, .inl rfl⟩)
        (fun tag htag => ⟨htag, rfl⟩) (hcomponents hx hy) (hstands hx hy) (hstands hy hx)⟩
  | @literals n tags hsteady hsynonym henum h =>
    obtain ⟨m, hm, hne⟩ := h
    cases n with
    | zero => cases hm
    | succ n =>
      have hlevel := levelMeets_of_meetExpanded? htable hx.1 (hy.1.without tags) hm hne
      obtain ⟨hnx, tag, htag⟩ := hlevel.exists_mem
      have hny := isNever_eq_false_iff.mpr ⟨tag, (mem_sdiff.mp htag).1⟩
      have hrelaxed (tag : Tag) (htag : tag ∈ x.tags)
          (h : tag = .synonym → tag ∈ (y.without tags).tags) : tag ∈ (x.expand table).tags ∧
          ((x.expand table).payload? tag = x.payload? tag ∨
            tag ≠ .enum ∧ (x.expand table).payload? tag = none) := by
        have hne : tag ≠ .synonym := by
          rintro rfl
          exact hsynonym (mem_sdiff.mp (h rfl)).1
        refine ⟨(without_synonym_below htable hx.1).mem ?_, hsteady tag htag hne⟩
        exact mem_sdiff.mpr ⟨htag, by simpa using hne⟩
      refine ⟨isNever_eq_false_iff.mpr hnx, hny, hlevel.levelOverlaps hrelaxed ?_
        (hcomponents hx hy) (fun h => ?_) fun h => ?_⟩
      · intro tag htag
        rw [expand_of_notMem hsynonym]
        exact ⟨(mem_sdiff.mp htag).1, (payload?_without htag).symm⟩
      · obtain ⟨hmem, hpayload⟩ := hrelaxed .enum h.mem (by simp)
        have hvalue : (x.expand table).enumValue = x.enumValue := by
          rw [enumValue, hpayload.resolve_right (by simp)]
          rfl
        rw [expand_of_notMem hsynonym]
        have hmet : Met (meetExpanded? table n) (x.expand table).enumValue
            (y.without (tags ∪ (x.tags ∪ .single .enum))) := by
          rw [hvalue, ← without_without]
          exact h.literals
        exact standsIn_of_met htable hexpanded hx hy hmem hny hsynonym henum hmet
      · exact absurd (mem_sdiff.mp h.mem).1 henum

/-- Types of whose intersection something is left overlap. -/
theorem overlap_of_meet? (ha : a.Orderly table) (hb : b.Orderly table)
    (h : meet? table n a b = some m) (hne : m.isNever = false) : a.overlap table b :=
  (overlap_iff_overlapped htable ha.1 hb.1).mpr
    ((leaves_isOverlap htable hexpanded).overlapped ⟨.whole ⟨m, h, hne⟩, ha, hb⟩)

end

end Ty

open Ty

/-- Overlap agrees with intersection: where something is left of an intersection, the types overlap,
so that a lenient check accepts the one where the other is declared, and the test for instances does
not fail for certain. What members of enumerations stand for has to be steady. -/
theorem overlap_of_nonempty_meet (source : Source) {a b m : Ty} {n : Nat} (ha : a.WellFormed)
    (hb : b.WellFormed)
    (ha' : a.EveryLevel source.program.table (SteadyEnum source.program.table))
    (hb' : b.EveryLevel source.program.table (SteadyEnum source.program.table))
    (h : meet? source.program.table n a b = some m) (hne : m.isNever = false) :
    a.overlap source.program.table b = true ∧ ∀ ctx : Context, ctx.program = source.program →
        (ctx.config.strict = false → ctx.accepts a b = true) ∧
        ∀ cls classes, classesOf? cls = some classes →
          unionAll (classes.ids.map source.program.instanceType) = b →
            ctx.instanceOf a cls ≠ Ty.bool false := by
  have hoverlap := overlap_of_meet? source.program_table_wellFormed source.program_table_expanded
    ⟨ha, ha'⟩ ⟨hb, hb'⟩ h hne
  refine ⟨hoverlap, fun ctx hctx => ⟨fun hlenient => ?_, fun cls classes hclasses htarget => ?_⟩⟩
  · rw [accepts, hlenient, table, hctx, hoverlap]
    simp
  · simp only [instanceOf, hclasses, table, hctx, htarget, hoverlap, Bool.not_true,
      Bool.false_eq_true, if_false]
    split
    · decide
    · split <;> decide

/-- Members of an enumeration that stand for trees or for five have something in common with strings
and five, and may go where those are declared. -/
theorem overlap_of_nonempty_meet_nestedLists :
    let table := nestedLists.program.table
    let tree := Ty.exact (.synonym (.one 1))
    let members := Ty.enumeration none (some (tree.union (.number 5)))
    let words := (Ty.number 5).union (.exact (.symbol "word"))
    meet? table 3 members words = some (.enumeration none (some (.number 5))) ∧
      members.overlap table words = true ∧
      (⟨nestedLists.program, {}, {}, 0⟩ : Context).accepts members words = true := by
  intro table tree members words
  have hmembers : members.EveryLevel table (SteadyEnum table) := .of_levels 3 (by decide +kernel)
  have hwords : words.EveryLevel table (SteadyEnum table) := .of_levels 0 (by decide +kernel)
  have hmeet : meet? table 3 members words = some (.enumeration none (some (.number 5))) := by
    decide +kernel
  obtain ⟨hoverlap, haccepts⟩ := overlap_of_nonempty_meet nestedLists (by decide +kernel)
    (by decide +kernel) hmembers hwords hmeet (by decide)
  exact ⟨hmeet, hoverlap, (haccepts ⟨nestedLists.program, {}, {}, 0⟩ rfl).1 (by decide)⟩

/-- Members of an enumeration that stand for trees or for the empty tuple: the tuple is left of the
intersection with arrays of strings, but the trees among them hide it from the test for overlap. -/
theorem not_overlap_of_nonempty_meet :
    let table := nestedLists.program.table
    let tree := Ty.exact (.synonym (.one 1))
    let members := Ty.enumeration none (some (tree.union (.tuple [])))
    let lists := Ty.array (.ofTags (.single .string))
    members.WellFormed ∧ lists.WellFormed ∧
      meet? table 3 members lists = some (.enumeration none (some (.tuple []))) ∧
      members.overlap table lists = false := by decide +kernel

end TypeFlow
