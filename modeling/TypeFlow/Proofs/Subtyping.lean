import TypeFlow.Proofs.Values

/-!
# Soundness of subtyping

A comparison that succeeds covers each tag of the smaller type, where components are related by
comparisons that succeed, too. A pair of types that is met again is taken to hold; this is right
because the comparison of the pair then concerns proper parts of the values for which it was begun.
So the induction runs on the values: every value of a subtype is a value of the larger type, however
the typedefs refer to each other.
-/

namespace TypeFlow

open List Option Value

/-! ### Checks that may give no answer -/

section

variable {α : Type} {f : α → Option Bool} {l : List α} {x y : Option Bool}

/-- A check of all members succeeds if it does so for each of them. -/
theorem allM_eq_some_true_iff : l.allM f = some true ↔ ∀ x ∈ l, f x = some true := by
  induction l with
  | nil => simp
  | cons x l ih =>
    rw [allM, forall_mem_cons, ← ih]
    cases hx : f x with
    | none => simp
    | some r => cases r <;> simp

/-- A check of all members is not refused if it is refused for none of them. -/
theorem allM_ne_some_false (h : ∀ x ∈ l, f x ≠ some false) : l.allM f ≠ some false := by
  induction l with
  | nil => simp
  | cons x l ih =>
    rw [forall_mem_cons] at h
    rw [allM]
    cases hx : f x with
    | none => simp
    | some r =>
      cases r with
      | false => exact absurd hx h.1
      | true => exact ih h.2

/-- Two checks one after the other succeed if both do. -/
theorem andThen_eq_some_true_iff :
    (do if ← x then y else pure false) = some true ↔ x = some true ∧ y = some true := by
  cases x with
  | none => simp
  | some r => cases r <;> simp

/-- Two checks one after the other are not refused if neither is. -/
theorem andThen_ne_some_false (hx : x ≠ some false) (hy : y ≠ some false) :
    (do if ← x then y else pure false) ≠ some false := by
  cases x with
  | none => simp
  | some r =>
    cases r with
    | false => exact absurd rfl hx
    | true => exact hy

end

theorem DeclSet.subset_iff {s t : DeclSet} : s.subset t ↔ ∀ d ∈ s, d ∈ t := by
  simp only [subset, contains, List.all_eq_true, contains_iff_mem]
  rfl

namespace Ty

variable {table : DeclTable} {le : Ty → Ty → Option Bool} {a b : Ty} {p q : Payload Ty} {n : Nat}
  {guard : List (Ty × Ty)}

/-! ### One level -/

private theorem forall₂_of_allM_zip {ts us : List Ty} (hlength : ts.length = us.length)
    (h : ((ts.zip us).allM fun (t, u) => le t u) = some true) :
    Forall₂ (fun t u => le t u = some true) ts us :=
  forall₂_iff_zip.mpr ⟨hlength, fun hmem => allM_eq_some_true_iff.mp h _ hmem⟩

theorem classesBelow_iff {d e : DeclSet} : classesBelow table d e ↔
    ∀ x ∈ d, ∃ y ∈ e, table.isSubclass x y := by
  simp only [classesBelow, List.all_eq_true, List.any_eq_true]
  rfl

/-- If a comparison of payloads succeeds, the larger one covers the smaller one. -/
theorem coveredBy_of_subtypePayload? (h : subtypePayload? table le p q = some true) :
    p.CoveredBy table (fun t u => le t u = some true) q := by
  unfold subtypePayload? at h
  split at h
  · exact .elements h
  · exact .slots (allM_eq_some_true_iff.mp h)
  · split at h
    · next hlength => exact .tuple (forall₂_of_allM_zip hlength h)
    · cases h
  · cases h
  · obtain ⟨hkey, hvalue⟩ := andThen_eq_some_true_iff.mp h
    exact .dictionary hkey hvalue
  · exact .method ..
  · exact .module (DeclSet.subset_iff.mp (some.inj h))
  · exact .function (DeclSet.subset_iff.mp (some.inj h))
  · exact .cls (DeclSet.subset_iff.mp (some.inj h))
  · exact .synonym (DeclSet.subset_iff.mp (some.inj h))
  · split at h
    · next d shape e shape' hclasses =>
      refine .object (classesBelow_iff.mp hclasses) ?_
      rintro gs rfl
      cases shape with
      | none => cases h
      | some fs =>
        refine ⟨fs, rfl, fun g hg => ?_⟩
        have hfield := allM_eq_some_true_iff.mp h g hg
        cases hlookup : fs.lookup g.1 with
        | none => simp [hlookup] at hfield
        | some t => exact ⟨t, rfl, by simpa [hlookup] using hfield⟩
    · cases h
  · split at h
    · next d v e w hdecl =>
      refine .enum (by simpa using hdecl) ?_
      rintro u rfl
      cases v with
      | none | some t => exact h
    · cases h
  · obtain rfl : p = q := by simpa using h
    -- All kinds of payloads other than literals are among the cases above.
    exact .value (by cases p <;> grind [Payload.isValue, Payload.tag, Tags.contains_valueTypes])

/-- Each tag of a type is accounted for by another type in the way that a comparison does it. The
unqualified object and the literals of members of an enumeration count for those tags only that the
other type does not have. -/
def StrictlyCoveredBy (table : DeclTable) (R : Ty → Ty → Prop) (a b : Ty) : Prop :=
  ∀ tag ∈ a.tags, a.TagCoveredBy table R b tag ∨
    (tag ∉ b.tags ∧ ((b.isPlainObject ∧ tag ∈ Tags.objectLike) ∨ (tag = .enum ∧ R a.enumValue b)))

theorem StrictlyCoveredBy.coveredBy {R : Ty → Ty → Prop} (h : a.StrictlyCoveredBy table R b) :
    a.CoveredBy table R b := fun tag htag => (h tag htag).imp_right And.right

/-- If a comparison of expanded types succeeds, the larger one covers the smaller one. -/
theorem strictlyCoveredBy_of_subtypeExpanded? (h : subtypeExpanded? table le a b = some true) :
    a.StrictlyCoveredBy table (fun t u => le t u = some true) b := by
  intro tag htag
  have hcheck := allM_eq_some_true_iff.mp h tag (Tags.mem_toList.mpr htag)
  split at hcheck
  · next hmem =>
    refine .inl ⟨Tags.mem_iff.mpr hmem, fun q hq => ?_⟩
    rw [hq] at hcheck
    cases hp : a.payload? tag with
    | none => simp [hp] at hcheck
    | some p => exact ⟨p, rfl, coveredBy_of_subtypePayload? (by simpa [hp] using hcheck)⟩
  · next hmem =>
    refine .inr ⟨hmem, ?_⟩
    split at hcheck
    · next hlike => exact .inl (by simpa [Tags.mem_iff] using hlike)
    · split at hcheck
      · next henum => exact .inr ⟨henum, hcheck⟩
      · cases hcheck

/-! ### All levels -/

/-- The pairs that are taken to hold while the components of `a` and `b` are compared. -/
def assumed (guard : List (Ty × Ty)) (a b : Ty) : List (Ty × Ty) :=
  if a.hasSynonym || b.hasSynonym then (a, b) :: guard else guard

theorem eq_or_mem_of_mem_assumed {e : Ty × Ty} (h : e ∈ assumed guard a b) :
    e = (a, b) ∨ e ∈ guard := by
  unfold assumed at h
  split at h
  · exact mem_cons.mp h
  · exact .inr h

/-- One step of a comparison looks at the expansions, unless one of the types is empty or the pair
is taken to hold. -/
theorem subtype?_succ (table : DeclTable) (n : Nat) (guard : List (Ty × Ty)) (a b : Ty) :
    subtype? table (n + 1) guard a b =
      if a.isNever then some true
      else if b.isNever then some false
      else if (a.hasSynonym || b.hasSynonym) && guard.contains (a, b) then some true
      else subtypeExpanded? table (subtype? table n (assumed guard a b)) (a.expand table)
        (b.expand table) := by
  rw [subtype?]
  by_cases hsynonym : (a.hasSynonym || b.hasSynonym)
  · simp only [hsynonym, assumed, if_true, Bool.true_and]
  · have hnone : a.hasSynonym = false ∧ b.hasSynonym = false := by simpa using hsynonym
    simp only [hsynonym, assumed, expand_of_not_hasSynonym hnone.1,
      expand_of_not_hasSynonym hnone.2, Bool.false_and, Bool.false_eq_true, if_false]

open Relation in
/-- If a comparison succeeds, the values of the smaller type are values of the larger one, provided
that this is so for the pairs that are taken to hold and all parts of the value. -/
theorem inhabits_of_subtype? (htable : table.Expanded) {v : Value}
    (hguard : ∀ e ∈ guard, ∀ w, ReflTransGen Part w v → w.Inhabits table e.1 → w.Inhabits table e.2)
    (h : subtype? table n guard a b = some true) (hv : v.Inhabits table a) :
    v.Inhabits table b := by
  induction v using part_wellFounded.transGen.induction generalizing n guard a b with
  | _ v ih =>
  cases n with
  | zero => cases h
  | succ n =>
    have hcall := h
    rw [subtype?_succ] at h
    split at h
    · next hnever => simp [hv.isNever_eq_false] at hnever
    split at h
    · cases h
    split at h
    · next hmet =>
      have hmem := contains_iff_mem.mp (Bool.and_eq_true_iff.mp hmet).2
      exact hguard _ hmem v .refl hv
    · refine hv.of_coveredBy (strictlyCoveredBy_of_subtypeExpanded? h).coveredBy
        (expand_expanded htable b) ?_ ?_
      · intro t u htu w hw
        -- The pair `(a, b)` holds for the parts of `w` by the same comparison.
        refine ih w (.single hw) ?_ htu
        intro e he w' hw'
        have hpart : TransGen Part w' v := .tail' hw' hw
        have hbelow {x : Value} (hx : ReflTransGen Part x w') : ReflTransGen Part x v :=
          hx.trans hpart.to_reflTransGen
        rcases eq_or_mem_of_mem_assumed he with rfl | he
        · exact ih w' hpart (fun e he x hx => hguard e he x (hbelow hx)) hcall
        · exact hguard e he w' hpart.to_reflTransGen
      · intro w hw
        exact ih w (.single hw) (fun e he x hx => hguard e he x (hx.tail hw)) hcall

/-- Values of a subtype are values of the larger type, if the expansions of the table refer to no
typedefs at the top level. -/
theorem inhabits_of_subtype (htable : table.Expanded) (h : a.subtype table b) {v : Value}
    (hv : v.Inhabits table a) : v.Inhabits table b := by
  have hsome : subtype? table (comparisonBound table a b) [] a b = some true := by
    unfold subtype at h
    cases hr : subtype? table (comparisonBound table a b) [] a b with
    | none => simp [hr] at h
    | some r => simpa [hr] using h
  exact inhabits_of_subtype? htable (by simp) hsome hv

end Ty

/-- Subtyping is sound: in every program, the values of a subtype are values of the larger type. -/
theorem subtype_sound (source : Source) {a b : Ty} (h : a.subtype source.program.table b = true)
    {v : Value} (hv : v.Inhabits source.program.table a) : v.Inhabits source.program.table b :=
  Ty.inhabits_of_subtype source.program_table_expanded h hv

/-- Trees of numbers, and forests of such trees, where both typedefs refer to themselves. -/
def nestedLists : Source :=
  .ofItems [ .synonym () "Tree" ⟨(), [.ofName "Number", .ofArgs "Array" [["Tree"]]]⟩,
    .synonym () "Forest" ⟨(), [.ofName "Null", .ofName "Number",
      .ofArgs "Array" [["Tree", "Forest"]]]⟩]

/-- Numbers are trees, and so are arrays of trees. -/
theorem nestedLists_tree :
    let table := nestedLists.program.table
    let tree := Ty.exact (.synonym (.one 1))
    (∀ n, (scalar (.number n)).Inhabits table tree) ∧
      ∀ items, (∀ v ∈ items, v.Inhabits table tree) → (array items).Inhabits table tree := by
  intro table tree
  have htags : .number ∈ (tree.expand table).tags ∧ .array ∈ (tree.expand table).tags := by
    decide +kernel
  have hpayloads : (tree.expand table).payload? .number = none ∧
      (tree.expand table).payload? .array = some (.elements tree) := by decide +kernel
  exact ⟨fun n => .bare htags.1 hpayloads.1,
    fun items h => .payload htags.2 hpayloads.2 (.elements h)⟩

/-- The tree `[[7], 3]` is a forest. -/
theorem subtype_sound_nestedLists :
    let table := nestedLists.program.table
    let tree := Ty.exact (.synonym (.one 1))
    let forest := Ty.exact (.synonym (.one 2))
    let v := Value.array [.array [.scalar (.number 7)], .scalar (.number 3)]
    tree.subtype table forest = true ∧ forest.subtype table tree = false ∧
      v.Inhabits table tree ∧ v.Inhabits table forest := by
  intro table tree forest v
  have hsub : tree.subtype table forest = true := by decide +kernel
  obtain ⟨hnumber, harray⟩ := nestedLists_tree
  have hv : v.Inhabits table tree := by
    refine harray _ ?_
    simpa using ⟨harray _ (by simpa using hnumber 7), hnumber 3⟩
  exact ⟨hsub, by decide +kernel, hv, subtype_sound nestedLists hsub hv⟩

end TypeFlow
