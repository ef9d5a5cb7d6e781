import TypeFlow.Proofs.Simulation

/-!
# Overlap is symmetric

A relation between types is an overlap when each pair of it has something in common at one level,
where the relation is taken for granted for components. Two types overlap if and only if a symmetric
relation of this kind relates them. One level looks the same from both sides, up to the order of the
components, so the test does not depend on which type comes first, whatever pairs of types with
typedefs it takes to hold on the way.
-/

namespace TypeFlow

open DeclSet List Tags Ty
open Option hiding or_assoc

section

variable {α : Type} {f : α → Option Bool} {l : List α}

/-- A search for a member succeeds only at one of them. -/
theorem exists_of_anyM_eq_some_true (h : l.anyM f = some true) : ∃ x ∈ l, f x = some true := by
  induction l with
  | nil => simp at h
  | cons x l ih =>
    cases hx : f x with
    | none => simp [hx] at h
    | some r =>
      cases r with
      | true => exact ⟨x, mem_cons_self, hx⟩
      | false =>
        obtain ⟨y, hy, hfy⟩ := ih (by simpa [hx] using h)
        exact ⟨y, mem_cons_of_mem x hy, hfy⟩

/-- A search for a member is not refused if one of them is not refused. -/
theorem anyM_ne_some_false {x : α} (hx : x ∈ l) (h : f x ≠ some false) : l.anyM f ≠ some false := by
  induction l with
  | nil => exact absurd hx not_mem_nil
  | cons y l ih =>
    rw [anyM]
    cases hy : f y with
    | none => simp
    | some r =>
      cases r with
      | true => simp
      | false =>
        have hmem := (mem_cons.mp hx).resolve_left fun heq => h (heq ▸ hy)
        exact ih hmem

end

theorem DeclSet.meets_iff {s t : DeclSet} : s.meets t ↔ ∃ d ∈ s, d ∈ t := by
  simp only [meets, isEmpty, inter, contains, Bool.not_eq_true',
    isEmpty_eq_false_iff_exists_mem, mem_filter, contains_iff_mem]
  rfl

/-! ### One level -/

/-- The types of what a value of the payload is made of. An object need not have the fields of its
shape for the test of overlap, and nothing is known about methods. -/
def Payload.parts : Payload Ty → List Ty
  | .elements t => [t]
  | .tuple ts => ts
  | .dictionary k v => [k, v]
  | .enum _ (some v) => [v]
  | _ => []

/-- Two payloads of one tag have a value in common, where `R` relates components. Nothing is asked
about methods and about the fields of objects. -/
inductive Payload.Overlaps (table : DeclTable) (R : Ty → Ty → Prop) : Payload Ty → Payload Ty → Prop
  | value {p : Payload Ty} (h : p.isValue) : Overlaps table R p p
  | elements {t u : Ty} (h : R t u) : Overlaps table R (.elements t) (.elements u)
  | tuple {ts us : List Ty} (h : Forall₂ R ts us) : Overlaps table R (.tuple ts) (.tuple us)
  | slots {ts : List Ty} {u : Ty} (h : ∀ t ∈ ts, R t u) : Overlaps table R (.tuple ts) (.elements u)
  | slots' {ts : List Ty} {u : Ty} (h : ∀ t ∈ ts, R t u) :
      Overlaps table R (.elements u) (.tuple ts)
  | dictionary {k v k' v' : Ty} (hkey : R k k') (hvalue : R v v') :
      Overlaps table R (.dictionary k v) (.dictionary k' v')
  | method (args : List Ty) (r : Ty) (args' : List Ty) (r' : Ty) :
      Overlaps table R (.method args r) (.method args' r')
  | module {ds es : DeclSet} (h : ∃ d ∈ ds, d ∈ es) : Overlaps table R (.module ds) (.module es)
  | function {ds es : DeclSet} (h : ∃ d ∈ ds, d ∈ es) :
      Overlaps table R (.function ds) (.function es)
  | cls {ds es : DeclSet} (h : ∃ d ∈ ds, d ∈ es) : Overlaps table R (.cls ds) (.cls es)
  | synonym {ds es : DeclSet} (h : ∃ d ∈ ds, d ∈ es) : Overlaps table R (.synonym ds) (.synonym es)
  | object {ds es : DeclSet} (shape shape' : Option (List (String × Ty)))
      (h : ∃ x ∈ ds, ∃ y ∈ es, table.isSubclass x y ∨ table.isSubclass y x) :
      Overlaps table R (.object ds shape) (.object es shape')
  | enum {d e : Option DeclId} {v w : Option Ty} (hdecl : d = none ∨ e = none ∨ d = e)
      (hvalue : ∀ t u, v = some t → w = some u → R t u) :
      Overlaps table R (.enum d v) (.enum e w)

namespace Payload.Overlaps

variable {table : DeclTable} {R S : Ty → Ty → Prop} {C : Ty → Prop} {p q : Payload Ty}

/-- The relation may be changed as long as this is justified by what holds of all components. -/
theorem mono_on (hp : ∀ t ∈ p.components, C t) (hq : ∀ t ∈ q.components, C t)
    (h : p.Overlaps table R q) (hRS : ∀ t u, C t → C u → R t u → S t u) :
    p.Overlaps table S q := by
  cases h with
  | value h => exact .value h
  | elements h => exact .elements (hRS _ _ (hp _ (by simp)) (hq _ (by simp)) h)
  | tuple h =>
    obtain ⟨hlength, hzip⟩ := forall₂_iff_zip.mp h
    refine .tuple (forall₂_iff_zip.mpr ⟨hlength, fun htu => ?_⟩)
    exact hRS _ _ (hp _ (of_mem_zip htu).1) (hq _ (of_mem_zip htu).2) (hzip htu)
  | slots h => exact .slots fun t ht => hRS _ _ (hp t ht) (hq _ (by simp)) (h t ht)
  | slots' h => exact .slots' fun t ht => hRS _ _ (hq t ht) (hp _ (by simp)) (h t ht)
  | dictionary hkey hvalue =>
    exact .dictionary (hRS _ _ (hp _ (by simp)) (hq _ (by simp)) hkey)
      (hRS _ _ (hp _ (by simp)) (hq _ (by simp)) hvalue)
  | method => exact .method ..
  | module h => exact .module h
  | function h => exact .function h
  | cls h => exact .cls h
  | synonym h => exact .synonym h
  | object _ _ h => exact .object _ _ h
  | enum hdecl hvalue =>
    refine .enum hdecl ?_
    rintro t u rfl rfl
    exact hRS t u (hp _ (by simp)) (hq _ (by simp)) (hvalue t u rfl rfl)

theorem mono (h : p.Overlaps table R q) (hRS : ∀ t u, R t u → S t u) : p.Overlaps table S q :=
  h.mono_on (C := fun _ => True) (by simp) (by simp) fun t u _ _ => hRS t u

/-- The slots of a tuple come first in a comparison with the elements of an array, so the relation
has to be symmetric although the payloads change places. -/
theorem symm (hR : Std.Symm R) (h : p.Overlaps table R q) : q.Overlaps table R p := by
  have hmeets {ds es : DeclSet} (h : ∃ d ∈ ds, d ∈ es) : ∃ d ∈ es, d ∈ ds := h.imp fun _ => And.symm
  cases h with
  | value h => exact .value h
  | elements h => exact .elements (hR.symm _ _ h)
  | tuple h => exact .tuple (Forall₂.flip (h.imp hR.symm))
  | slots h => exact .slots' h
  | slots' h => exact .slots h
  | dictionary hkey hvalue => exact .dictionary (hR.symm _ _ hkey) (hR.symm _ _ hvalue)
  | method => exact .method ..
  | module h => exact .module (hmeets h)
  | function h => exact .function (hmeets h)
  | cls h => exact .cls (hmeets h)
  | synonym h => exact .synonym (hmeets h)
  | object _ _ h =>
    obtain ⟨x, hx, y, hy, hxy⟩ := h
    exact .object _ _ ⟨y, hy, x, hx, hxy.symm⟩
  | enum hdecl hvalue =>
    refine .enum ?_ fun t u ht hu => hR.symm _ _ (hvalue u t hu ht)
    rcases hdecl with h | h | h
    · exact .inr (.inl h)
    · exact .inl h
    · exact .inr (.inr h.symm)

end Payload.Overlaps

namespace Payload

variable {table : DeclTable} {R S : Ty → Ty → Prop} {p q : Payload Ty}

theorem parts_subset : p.parts ⊆ p.components := by
  intro t ht
  unfold parts at ht
  split at ht <;> simp_all

/-- A payload that describes some value has it in common with all payloads that cover it. -/
theorem CoveredBy.overlaps (h : p.CoveredBy table R q) (hp : ∀ ds, p.decls? = some ds → ∃ d, d ∈ ds)
    (hRS : ∀ t ∈ p.parts, ∀ u ∈ q.components, R t u → S t u) : p.Overlaps table S q := by
  have hdecls {ds es : DeclSet} (hds : p.decls? = some ds) (h : ∀ d ∈ ds, d ∈ es) :
      ∃ d ∈ ds, d ∈ es := by
    obtain ⟨d, hd⟩ := hp ds hds
    exact ⟨d, hd, h d hd⟩
  cases h with
  | value h => exact .value h
  | elements h => exact .elements (hRS _ (by simp [parts]) _ (by simp) h)
  | slots h => exact .slots fun t ht => hRS t ht _ (by simp) (h t ht)
  | tuple h =>
    obtain ⟨hlength, hzip⟩ := forall₂_iff_zip.mp h
    refine .tuple (forall₂_iff_zip.mpr ⟨hlength, fun {t u} htu => ?_⟩)
    exact hRS t (of_mem_zip htu).1 u (of_mem_zip htu).2 (hzip htu)
  | dictionary hkey hvalue =>
    exact .dictionary (hRS _ (by simp [parts]) _ (by simp) hkey)
      (hRS _ (by simp [parts]) _ (by simp) hvalue)
  | method => exact .method ..
  | module h => exact .module (hdecls rfl h)
  | function h => exact .function (hdecls rfl h)
  | cls h => exact .cls (hdecls rfl h)
  | synonym h => exact .synonym (hdecls rfl h)
  | object hclasses =>
    obtain ⟨c, hc⟩ := hp _ rfl
    obtain ⟨d, hd, hcd⟩ := hclasses c hc
    exact .object _ _ ⟨c, hc, d, hd, .inl hcd⟩
  | enum hdecl hvalue =>
    refine .enum (.inr hdecl) ?_
    rintro t u rfl rfl
    exact hRS t (by simp [parts]) u (by simp) (hvalue u rfl)

end Payload

namespace Ty

variable {table : DeclTable} {meets : Ty → Ty → Option Bool} {R S : Ty → Ty → Prop} {a b : Ty}
  {p q : Payload Ty} {guard : List (Ty × Ty)} {n : Nat}

/-- A value of `a` may be a value of `b` although its tag is another one there: a character is an
integer, the unqualified object stands for it, or a member of an enumeration for its literal. -/
inductive StandsIn (R : Ty → Ty → Prop) (a b : Ty) : Prop
  | char (h : charOverlap a b)
  | object (h : objectOverlap a b)
  | enum (henum : .enum ∈ a.tags) (hrest : (b.without (.single .enum)).isNever = false)
      (h : R a.enumValue (b.without (.single .enum)))

/-- One level of two types, without typedefs, has a value in common, where `R` relates
components. -/
inductive LevelOverlaps (table : DeclTable) (R : Ty → Ty → Prop) (a b : Ty) : Prop
  | shared {tag : Tag} (ha : tag ∈ a.tags) (hb : tag ∈ b.tags)
      (h : ∀ p q, a.payload? tag = some p → b.payload? tag = some q → p.Overlaps table R q)
  | left (h : StandsIn R a b)
  | right (h : StandsIn R b a)

theorem StandsIn.mono (h : StandsIn R a b) (hRS : ∀ t u, R t u → S t u) : StandsIn S a b := by
  cases h with
  | char h => exact .char h
  | object h => exact .object h
  | enum henum hrest h => exact .enum henum hrest (hRS _ _ h)

theorem LevelOverlaps.mono (h : a.LevelOverlaps table R b) (hRS : ∀ t u, R t u → S t u) :
    a.LevelOverlaps table S b := by
  cases h with
  | shared ha hb h => exact .shared ha hb fun p q hp hq => (h p q hp hq).mono hRS
  | left h => exact .left (h.mono hRS)
  | right h => exact .right (h.mono hRS)

theorem LevelOverlaps.symm (hR : Std.Symm R) (h : a.LevelOverlaps table R b) :
    b.LevelOverlaps table R a := by
  cases h with
  | shared ha hb h => exact .shared hb ha fun q p hq hp => (h p q hp hq).symm hR
  | left h => exact .right h
  | right h => exact .left h

/-! ### What a test says about one level -/

theorem objectOverlap_iff : objectOverlap a b ↔
    a.isPlainObject ∧ ∃ tag ∈ b.tags, tag ∈ objectLike := by
  rw [objectOverlap, Bool.and_eq_true, intersects_iff]

/-- If the test of two payloads succeeds, they have a value in common. -/
theorem payloadOverlaps_of_overlapPayload? (h : overlapPayload? table meets p q = some true) :
    p.Overlaps table (fun t u => meets t u = some true) q := by
  have hdecls {ds es : DeclSet} (h : some (ds.meets es) = some true) : ∃ d ∈ ds, d ∈ es :=
    meets_iff.mp (some.inj h)
  unfold overlapPayload? at h
  split at h
  · exact .elements h
  · split at h
    · next hlength =>
      refine .tuple (forall₂_iff_zip.mpr ⟨hlength, fun htu => ?_⟩)
      exact allM_eq_some_true_iff.mp h _ htu
    · cases h
  · exact .slots (allM_eq_some_true_iff.mp h)
  · exact .slots' (allM_eq_some_true_iff.mp h)
  · obtain ⟨hkey, hvalue⟩ := andThen_eq_some_true_iff.mp h
    exact .dictionary hkey hvalue
  · exact .method ..
  · exact .module (hdecls h)
  · exact .function (hdecls h)
  · exact .cls (hdecls h)
  · exact .synonym (hdecls h)
  · refine .object _ _ ?_
    simp only [Option.some.injEq, List.any_eq_true, Bool.or_eq_true] at h
    exact h
  · split at h
    · next d v e w hdecl =>
      refine .enum (by simpa [or_assoc] using hdecl) ?_
      rintro t u rfl rfl
      exact h
    · cases h
  · obtain rfl : p = q := by simpa using h
    -- All kinds of payloads other than literals are among the cases above.
    exact .value (by cases p <;> grind [Payload.isValue, Payload.tag, contains_valueTypes])

/-- The test of two payloads that have a value in common is not refused if no test of components
is. -/
theorem overlapPayload?_ne_some_false (h : p.Overlaps table R q)
    (hR : ∀ t u, R t u → meets t u ≠ some false) :
    overlapPayload? table meets p q ≠ some false := by
  cases h with
  | value hvalue =>
    cases p <;> simp [overlapPayload?, Payload.isValue, Payload.tag, contains_valueTypes]
      at hvalue ⊢
  | elements h => exact hR _ _ h
  | tuple h =>
    obtain ⟨hlength, hzip⟩ := forall₂_iff_zip.mp h
    simp only [overlapPayload?, hlength]
    exact allM_ne_some_false fun e he => hR _ _ (hzip he)
  | slots h | slots' h => exact allM_ne_some_false fun t ht => hR t _ (h t ht)
  | dictionary hkey hvalue => exact andThen_ne_some_false (hR _ _ hkey) (hR _ _ hvalue)
  | method => simp [overlapPayload?]
  | module h | function h | cls h | synonym h => simp [overlapPayload?, meets_iff.mpr h]
  | @object ds es _ _ h =>
    have hany : (ds.ids.any fun x => es.ids.any fun y =>
        table.isSubclass x y || table.isSubclass y x) := by
      simp only [List.any_eq_true, Bool.or_eq_true]
      exact h
    simp [overlapPayload?, hany]
  | @enum d e v w hdecl hvalue =>
    have hdecl : (d.isNone || e.isNone || decide (d = e)) := by simpa [or_assoc] using hdecl
    simp only [overlapPayload?, hdecl]
    cases v with
    | none => simp
    | some t =>
      cases w with
      | none => simp
      | some u => exact hR t u (hvalue t u rfl rfl)

theorem standsIn_of_enumOverlap? (h : enumOverlap? meets a b = some true) :
    StandsIn (fun t u => meets t u = some true) a b := by
  unfold enumOverlap? at h
  dsimp only at h
  split at h
  · next hcond =>
    obtain ⟨henum, hrest⟩ := Bool.and_eq_true_iff.mp hcond
    exact .enum henum (by simpa using hrest) h
  · cases h

/-- If the test of two expanded types succeeds, they have a value in common. -/
theorem levelOverlaps_of_overlapExpanded? (h : overlapExpanded? table meets a b = some true) :
    a.LevelOverlaps table (fun t u => meets t u = some true) b := by
  obtain ⟨shared, hshared, h⟩ := bind_eq_some_iff.mp h
  cases shared with
  | true =>
    obtain ⟨tag, htag, hpayloads⟩ := exists_of_anyM_eq_some_true hshared
    obtain ⟨ha, hb⟩ := mem_inter.mp (mem_toList.mp htag)
    refine .shared ha hb fun p q hp hq => payloadOverlaps_of_overlapPayload? ?_
    simpa [hp, hq] using hpayloads
  | false =>
    split at h
    · next hapart =>
      simp only [Bool.false_or, Bool.or_eq_true] at hapart
      rcases hapart with ((h | h) | h) | h
      · exact .left (.char h)
      · exact .right (.char h)
      · exact .left (.object h)
      · exact .right (.object h)
    · obtain ⟨left, hleft, h⟩ := bind_eq_some_iff.mp h
      cases left with
      | true => exact .left (standsIn_of_enumOverlap? hleft)
      | false => exact .right (standsIn_of_enumOverlap? h)

/-- The test of two expanded types with a value in common is not refused if no test of components
is. -/
theorem overlapExpanded?_ne_some_false (h : a.LevelOverlaps table R b)
    (hR : ∀ t u, R t u → meets t u ≠ some false) :
    overlapExpanded? table meets a b ≠ some false := by
  have henum {a b : Ty} (henum : .enum ∈ a.tags)
      (hrest : (b.without (.single .enum)).isNever = false)
      (h : R a.enumValue (b.without (.single .enum))) :
      enumOverlap? meets a b ≠ some false := by
    simp only [enumOverlap?, mem_iff.mp henum, hrest]
    exact hR _ _ h
  intro hfalse
  obtain ⟨shared, hshared, hfalse⟩ := bind_eq_some_iff.mp hfalse
  split at hfalse
  · cases hfalse
  next hapart =>
  simp only [Bool.or_eq_true, not_or, Bool.not_eq_true] at hapart
  obtain ⟨⟨⟨⟨rfl, hchar⟩, hchar'⟩, hobject⟩, hobject'⟩ := hapart
  obtain ⟨left, hleft, hright⟩ := bind_eq_some_iff.mp hfalse
  cases left with
  | true => cases hright
  | false =>
    cases h with
    | @shared tag ha hb h =>
      have htag := mem_toList.mpr (mem_inter.mpr ⟨ha, hb⟩)
      refine anyM_ne_some_false htag ?_ hshared
      cases hp : a.payload? tag with
      | none => simp
      | some p =>
        cases hq : b.payload? tag with
        | none => simp
        | some q => exact overlapPayload?_ne_some_false (h p q hp hq) hR
    | left h =>
      cases h with
      | char h => simp [hchar] at h
      | object h => simp [hobject] at h
      | enum hmem hrest h => exact henum hmem hrest h hleft
    | right h =>
      cases h with
      | char h => simp [hchar'] at h
      | object h => simp [hobject'] at h
      | enum hmem hrest h => exact henum hmem hrest h hright

/-! ### All levels -/

/-- One step of a test for overlap succeeds if `R` holds of the components that it looks at. -/
structure Overlaps (table : DeclTable) (R : Ty → Ty → Prop) (a b : Ty) : Prop where
  left : a.isNever = false
  right : b.isNever = false
  level : (a.expand table).LevelOverlaps table R (b.expand table)

theorem Overlaps.mono (h : Overlaps table R a b) (hRS : ∀ t u, R t u → S t u) :
    Overlaps table S a b := ⟨h.left, h.right, h.level.mono hRS⟩

theorem Overlaps.symm (hR : Std.Symm R) (h : Overlaps table R a b) : Overlaps table R b a :=
  ⟨h.right, h.left, h.level.symm hR⟩

/-- All pairs of a relation pass one step of a test for overlap. -/
def IsOverlap (table : DeclTable) (R : Ty → Ty → Prop) : Prop := ∀ a b, R a b → Overlaps table R a b

/-- A relation, read from both sides. -/
def Symmetrized (R : Ty → Ty → Prop) (t u : Ty) : Prop := R t u ∨ R u t

theorem symmetrized_symm (R : Ty → Ty → Prop) : Std.Symm (Symmetrized R) := ⟨fun _ _ => Or.symm⟩

/-- Some symmetric relation of pairs that overlap relates the types. -/
def Overlapped (table : DeclTable) (a b : Ty) : Prop := ∃ R, Std.Symm R ∧ IsOverlap table R ∧ R a b

/-- It suffices that the pairs of a relation overlap when it is read from both sides. -/
theorem overlapped_of_symmetrized (hR : ∀ t u, R t u → Overlaps table (Symmetrized R) t u)
    (h : R a b) : Overlapped table a b := by
  refine ⟨Symmetrized R, symmetrized_symm R, ?_, .inl h⟩
  rintro t u (htu | htu)
  · exact hR t u htu
  · exact (hR u t htu).symm (symmetrized_symm R)

theorem IsOverlap.overlapped (hR : IsOverlap table R) (h : R a b) : Overlapped table a b :=
  overlapped_of_symmetrized (fun t u htu => (hR t u htu).mono fun _ _ => .inl) h

/-- The order of the types does not matter. -/
theorem Overlapped.symm (h : Overlapped table a b) : Overlapped table b a := by
  obtain ⟨R, hsymm, hR, hab⟩ := h
  exact ⟨R, hsymm, hR, hsymm.symm _ _ hab⟩

theorem overlap?_succ (table : DeclTable) (n : Nat) (guard : List (Ty × Ty)) (a b : Ty) :
    overlap? table (n + 1) guard a b =
      overlapStep table guard (overlap? table n (assumed guard a b)) a b := by
  simp only [overlap?_eq_answerWithin]
  rfl

/-- A test within a relation of pairs that overlap is not refused. -/
theorem overlap?_ne_some_false (hR : IsOverlap table R) (h : R a b) :
    overlap? table n guard a b ≠ some false := by
  induction n generalizing guard a b with
  | zero => simp [overlap?]
  | succ n ih =>
    obtain ⟨hleft, hright, hlevel⟩ := hR a b h
    rw [overlap?_succ, overlapStep, if_neg (by simp [hleft, hright])]
    split
    · simp
    · exact overlapExpanded?_ne_some_false hlevel fun t u htu => ih htu

/-- The pair is one of those that are taken to overlap, in one order or the other. -/
def Assumed (guard : List (Ty × Ty)) (a b : Ty) : Prop := (a, b) ∈ guard ∨ (b, a) ∈ guard

/-- The pairs on which a successful test relies pass one step of a test each, in both orders. -/
theorem holdsUpTo_of_overlap? (h : overlap? table n guard a b = some true) :
    HoldsUpTo (fun R => Overlaps table (Symmetrized R)) (Assumed guard) a b := by
  induction n generalizing guard a b with
  | zero => cases h
  | succ n ih =>
    rw [overlap?_succ, overlapStep] at h
    split at h
    · cases h
    next hnever =>
    obtain ⟨hleft, hright⟩ : a.isNever = false ∧ b.isNever = false := by simpa using hnever
    split at h
    · next hmet =>
      have hassumed : Assumed guard a b := by simpa [Assumed] using (Bool.and_eq_true_iff.mp hmet).2
      exact ⟨Assumed guard, fun t u => .inl, hassumed⟩
    · have hstep : Overlaps table (fun t u => overlap? table n (assumed guard a b) t u = some true)
          a b := ⟨hleft, hright, levelOverlaps_of_overlapExpanded? h⟩
      refine .discharge (fun hRS hpass => hpass.mono fun t u => .imp (hRS t u) (hRS u t))
        (fun t u htu => ?_) (hstep.mono fun t u htu => .inl (ih htu))
      rcases htu with he | he
      · refine (eq_or_mem_of_mem_assumed he).symm.imp .inl fun heq R hpass => ?_
        cases heq
        exact hpass
      · refine (eq_or_mem_of_mem_assumed he).symm.imp .inr fun heq R hpass => ?_
        cases heq
        exact hpass.symm (symmetrized_symm R)

/-- Overlap is the largest symmetric relation of pairs that pass one step of the test. -/
theorem overlap_iff_overlapped (htable : table.WellFormed) (ha : a.WellFormed)
    (hb : b.WellFormed) : a.overlap table b ↔ Overlapped table a b := by
  obtain ⟨r, hr⟩ := isSome_iff_exists.mp (overlap?_comparisonBound_isSome htable ha hb)
  have hoverlap : a.overlap table b = r := by rw [overlap, hr, getD_some]
  rw [hoverlap]
  constructor
  · rintro rfl
    obtain ⟨R, hR, hab⟩ := holdsUpTo_of_overlap? hr
    refine overlapped_of_symmetrized (fun t u htu => (hR t u htu).resolve_left ?_) hab
    simp [Assumed]
  · rintro ⟨R, -, hR, hab⟩
    cases r with
    | true => rfl
    | false => exact absurd hr (overlap?_ne_some_false hR hab)

end Ty

/-- Overlap is symmetric: in every program, whatever typedefs refer to themselves and whatever
classes inherit from each other, the test for overlap of two well-formed types gives the same answer
in both orders. -/
theorem overlap_symmetric (source : Source) {a b : Ty} (ha : a.WellFormed) (hb : b.WellFormed) :
    a.overlap source.program.table b = b.overlap source.program.table a := by
  have htable := source.program_table_wellFormed
  rw [Bool.eq_iff_iff, overlap_iff_overlapped htable ha hb, overlap_iff_overlapped htable hb ha]
  exact ⟨.symm, .symm⟩

/-- Two typedefs of nothing but arrays of each other. -/
def alternating : Source :=
  .ofItems [.synonym () "Even" ⟨(), [.ofArgs "Array" [["Odd"]]]⟩,
    .synonym () "Odd" ⟨(), [.ofArgs "Array" [["Even"]]]⟩]

/-- The two typedefs overlap because the test meets them again the other way round. A pair with a
number beside them overlaps with no array of them. -/
theorem overlap_symmetric_alternating :
    let table := alternating.program.table
    let even := exact (.synonym (.one 1))
    let odd := exact (.synonym (.one 2))
    let pair := tuple [odd, ofTags (Tags.single .number)]
    even.overlap table odd = true ∧ odd.overlap table even = true ∧
      pair.overlap table (array even) = false ∧ (array even).overlap table pair = false := by
  intro table even odd pair
  have hodd : even.overlap table odd = true := by decide +kernel
  have hfalse : pair.overlap table (array even) = false := by decide +kernel
  refine ⟨hodd, ?_, hfalse, ?_⟩
  · exact (overlap_symmetric alternating .ofDecls .ofDecls).trans hodd
  · exact (overlap_symmetric alternating (.array .ofDecls) (by decide +kernel)).trans hfalse

end TypeFlow
