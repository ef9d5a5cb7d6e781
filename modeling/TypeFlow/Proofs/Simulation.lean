import TypeFlow.Proofs.ComparisonEnds
import TypeFlow.Proofs.Levels

/-!
# Comparisons as simulations

A relation between types is a simulation when each pair of it is accounted for by one step of a
comparison that takes the relation for granted for components. A comparison succeeds if and only if
some simulation relates its two types: the pairs on which a successful comparison relies form a
simulation, and a comparison within a simulation is never refused. So what holds of subtypes is
proved one level at a time, and typedefs that refer to themselves need no induction of their own.

Payloads for methods are left out in one direction, since coverings say nothing about them.
-/

namespace TypeFlow

open List Tags

/-- A payload that is covered is covered with respect to another relation, too, if that one holds of
the components that are compared. Where the smaller payload leaves the literals of members of an
enumeration open, all literals are compared. -/
theorem Payload.CoveredBy.imp {table : DeclTable} {R S : Ty → Ty → Prop} {p q : Payload Ty}
    (h : p.CoveredBy table R q)
    (hRS : ∀ t u, t ∈ p.components ∨ t = .ofTags .enumValues → u ∈ q.components → R t u →
      S t u) : p.CoveredBy table S q := by
  cases h with
  | value h => exact .value h
  | elements h => exact .elements (hRS _ _ (by simp) (by simp) h)
  | slots h => exact .slots fun t ht => hRS t _ (.inl ht) (by simp) (h t ht)
  | tuple h =>
    obtain ⟨hlength, hzip⟩ := forall₂_iff_zip.mp h
    refine .tuple (forall₂_iff_zip.mpr ⟨hlength, fun {t u} htu => ?_⟩)
    obtain ⟨ht, hu⟩ := of_mem_zip htu
    exact hRS t u (.inl ht) hu (hzip htu)
  | dictionary hkey hvalue =>
    exact .dictionary (hRS _ _ (by simp) (by simp) hkey) (hRS _ _ (by simp) (by simp) hvalue)
  | method => exact .method ..
  | module h => exact .module h
  | function h => exact .function h
  | cls h => exact .cls h
  | synonym h => exact .synonym h
  | object hclasses hshape =>
    refine .object hclasses fun gs hgs => ?_
    subst hgs
    obtain ⟨fs, rfl, hfields⟩ := hshape gs rfl
    refine ⟨fs, rfl, fun e he => ?_⟩
    obtain ⟨t, ht, hte⟩ := hfields e he
    have ht' : t ∈ fs.map Prod.snd := mem_map.mpr ⟨_, mem_of_lookup ht, rfl⟩
    exact ⟨t, ht, hRS t e.2 (.inl ht') (mem_map_of_mem he) hte⟩
  | @enum d e v w hdecl hvalue =>
    refine .enum hdecl fun u hu => ?_
    subst hu
    refine hRS _ u ?_ (by simp) (hvalue u rfl)
    cases v with
    | none => exact .inr rfl
    | some t => exact .inl (by simp)

namespace Ty

variable {table : DeclTable} {le : Ty → Ty → Option Bool} {R S : Ty → Ty → Prop} {C : Ty → Prop}
  {a b t : Ty} {p q : Payload Ty} {guard : List (Ty × Ty)} {n : Nat}

/-! ### Types without payloads for methods -/

namespace MethodFree

theorem payload (h : t.MethodFree) : ∀ p ∈ t.data, p.tag ≠ .method := fun _ hp =>
  (Formed.payload h hp).methodFree trivial

theorem nested (h : t.MethodFree) : ∀ p ∈ t.data, ∀ c ∈ p.components, c.MethodFree := fun _ hp =>
  (Formed.payload h hp).nested

theorem closed : Closed (fun _ => True) MethodFree := closed_formed ⟨False, True, fun _ => True⟩

theorem expand (h : t.MethodFree) (htable : ∀ e ∈ table.expansions, e.2.MethodFree) :
    (t.expand table).MethodFree := Formed.expand h htable

end MethodFree

theorem Hereditary.methodFree (htable : ∀ e ∈ table.expansions, e.2.MethodFree) :
    Hereditary table MethodFree where
  expand ht := ht.expand htable
  component ht hp hc := (ht.expand htable).nested _ hp _ hc

/-! ### Simulations -/

/-- One step of a comparison succeeds if `R` holds of the components that it compares. -/
def Compared (table : DeclTable) (R : Ty → Ty → Prop) (a b : Ty) : Prop :=
  a.isNever ∨ (b.isNever = false ∧ (a.expand table).StrictlyCoveredBy table R (b.expand table))

/-- All pairs of a relation pass one step of a comparison. -/
def IsSimulation (table : DeclTable) (R : Ty → Ty → Prop) : Prop :=
  ∀ a b, R a b → Compared table R a b

/-- A step succeeds with respect to another relation, too, if that one holds of what is compared: of
components of the two expansions, of all literals on the left and of the whole type on the right. -/
theorem Compared.imp (h : Compared table R a b)
    (hRS : ∀ t u, (∃ p ∈ (a.expand table).data, t ∈ p.components) ∨ t = ofTags .enumValues →
      (∃ q ∈ (b.expand table).data, u ∈ q.components) ∨ u = b.expand table → R t u → S t u) :
    Compared table S a b := by
  refine h.imp_right fun ⟨hne, hcovered⟩ => ⟨hne, fun tag htag => ?_⟩
  rcases hcovered tag htag with ⟨htag', hpayload⟩ | ⟨htag', hplain | ⟨henum, hvalue⟩⟩
  · refine .inl ⟨htag', fun q hq => ?_⟩
    obtain ⟨p, hp, hpq⟩ := hpayload q hq
    refine ⟨p, hp, hpq.imp fun t u ht hu => hRS t u ?_ (.inl ⟨q, payload?_mem hq, hu⟩)⟩
    exact ht.imp_left fun ht => ⟨p, payload?_mem hp, ht⟩
  · exact .inr ⟨htag', .inl hplain⟩
  · exact .inr ⟨htag', .inr ⟨henum, hRS _ _ (enumValue_cases _) (.inr rfl) hvalue⟩⟩

theorem Compared.mono (h : Compared table R a b) (hRS : ∀ t u, R t u → S t u) :
    Compared table S a b := h.imp fun t u _ _ => hRS t u

/-- A condition on the smaller types may be added to a simulation. -/
theorem IsSimulation.and_left (hR : IsSimulation table R) (hC : Hereditary table C)
    (hliterals : C (ofTags .enumValues)) : IsSimulation table fun t u => R t u ∧ C t := by
  rintro a b ⟨h, ha⟩
  refine (hR a b h).imp fun t u ht _ htu => ⟨htu, ?_⟩
  rcases ht with ⟨p, hp, ht⟩ | rfl
  · exact hC.component ha hp ht
  · exact hliterals

/-- A condition on the larger types may be added to a simulation. -/
theorem IsSimulation.and_right (hR : IsSimulation table R) (hC : Hereditary table C) :
    IsSimulation table fun t u => R t u ∧ C u := by
  rintro a b ⟨h, hb⟩
  refine (hR a b h).imp fun t u _ hu htu => ⟨htu, ?_⟩
  rcases hu with ⟨q, hq, hu⟩ | rfl
  · exact hC.component hb hq hu
  · exact hC.expand hb

/-! ### Comparisons within a simulation -/

/-- A comparison of payloads is not refused if one covers the other and no comparison of components
is refused. -/
theorem subtypePayload?_ne_some_false (h : p.CoveredBy table R q) (hp : p.tag ≠ .method)
    (hR : ∀ t u, R t u → le t u ≠ some false) : subtypePayload? table le p q ≠ some false := by
  cases h with
  | value hvalue =>
    cases p <;> simp [subtypePayload?, Payload.isValue, Payload.tag, contains_valueTypes]
      at hvalue ⊢
  | elements h => exact hR _ _ h
  | slots h => exact allM_ne_some_false fun t ht => hR t _ (h t ht)
  | tuple h =>
    obtain ⟨hlength, hzip⟩ := forall₂_iff_zip.mp h
    simp only [subtypePayload?, hlength]
    exact allM_ne_some_false fun e he => hR _ _ (hzip he)
  | dictionary hkey hvalue => exact andThen_ne_some_false (hR _ _ hkey) (hR _ _ hvalue)
  | method => exact absurd rfl hp
  | module h | function h | cls h | synonym h => simp [subtypePayload?, DeclSet.subset_iff.mpr h]
  | @object d e shape shape' hclasses hshape =>
    simp only [subtypePayload?, classesBelow_iff.mpr hclasses]
    cases shape' with
    | none => simp
    | some gs =>
      obtain ⟨fs, rfl, hfields⟩ := hshape gs rfl
      refine allM_ne_some_false fun g hg => ?_
      obtain ⟨t, ht, htg⟩ := hfields g hg
      simpa [ht] using hR t g.2 htg
  | @enum d e v w hdecl hvalue =>
    have hdecl : (e.isNone || decide (d = e)) := by simpa using hdecl
    simp only [subtypePayload?, hdecl]
    cases w with
    | none => simp
    | some u =>
      have hle := hR _ u (hvalue u rfl)
      cases v with
      | none | some t => exact hle

/-- A comparison of expanded types is not refused if one covers the other and no comparison of
components is refused. -/
theorem subtypeExpanded?_ne_some_false (h : a.StrictlyCoveredBy table R b) (ha : a.MethodFree)
    (hR : ∀ t u, R t u → le t u ≠ some false) : subtypeExpanded? table le a b ≠ some false := by
  refine allM_ne_some_false fun tag htag => ?_
  rcases h tag (mem_toList.mp htag) with
    ⟨htag', hcovered⟩ | ⟨htag', ⟨hplain, hlike⟩ | ⟨rfl, hvalue⟩⟩
  · rw [if_pos (mem_iff.mp htag')]
    cases hq : b.payload? tag with
    | none => simp
    | some q =>
      obtain ⟨p, hp, hpq⟩ := hcovered q hq
      rw [hp]
      exact subtypePayload?_ne_some_false hpq (ha.payload p (payload?_mem hp)) hR
  · rw [if_neg (mt mem_iff.mpr htag'), if_pos (by simp [hplain, mem_iff.mp hlike])]
    simp
  · rw [if_neg (mt mem_iff.mpr htag')]
    split
    · simp
    · exact hR _ _ hvalue

/-- A comparison within a simulation is not refused. -/
theorem subtype?_ne_some_false (hR : IsSimulation table R)
    (hfree : ∀ a b, R a b → (a.expand table).MethodFree) (h : R a b) :
    subtype? table n guard a b ≠ some false := by
  induction n generalizing guard a b with
  | zero => simp [subtype?]
  | succ n ih =>
    rw [subtype?_succ]
    split
    · simp
    next hnever =>
    obtain ⟨hne, hcovered⟩ := (hR a b h).resolve_left hnever
    split
    · next hnever' => simp [hne] at hnever'
    split
    · simp
    · exact subtypeExpanded?_ne_some_false hcovered (hfree a b h) fun t u htu => ih htu

/-- Types that a simulation relates are subtypes. -/
theorem subtype_of_simulation (htable : table.WellFormed)
    (hmethods : ∀ e ∈ table.expansions, e.2.MethodFree) (hR : IsSimulation table R) (h : R a b)
    (ha : a.WellFormed) (hb : b.WellFormed) (hfree : a.MethodFree) : a.subtype table b := by
  obtain ⟨r, hr⟩ := Option.isSome_iff_exists.mp (subtype?_comparisonBound_isSome htable ha hb)
  have hne : r ≠ false := by
    rintro rfl
    have hR' := hR.and_left (.methodFree hmethods) (.ofTags _)
    exact subtype?_ne_some_false hR' (fun t u htu => htu.2.expand hmethods) ⟨h, hfree⟩ hr
  simpa [subtype, hr] using hne

/-! ### The largest simulation -/

/-- Some simulation relates the types. -/
def Simulated (table : DeclTable) (a b : Ty) : Prop := ∃ R, IsSimulation table R ∧ R a b

/-- The simulations make up a simulation. -/
theorem Simulated.isSimulation (table : DeclTable) : IsSimulation table (Simulated table) := by
  rintro a b ⟨R, hR, hab⟩
  exact (hR a b hab).mono fun t u htu => ⟨R, hR, htu⟩

/-- One step of a comparison may be added to a simulation. -/
theorem Compared.simulated (h : Compared table (Simulated table) a b) : Simulated table a b := by
  refine ⟨Compared table (Simulated table), ?_, h⟩
  exact fun t u htu => htu.mono (Simulated.isSimulation table)

/-- Expansions are related like the types, unless nothing is left of the larger one. -/
theorem Simulated.expand (htable : table.Expanded) (h : Simulated table a b)
    (hb : (b.expand table).isNever = false) :
    Simulated table (a.expand table) (b.expand table) := by
  refine Compared.simulated ?_
  rcases Simulated.isSimulation table a b h with hnever | ⟨-, hcovered⟩
  · refine .inl ?_
    rwa [expand_of_isNever hnever]
  · refine .inr ⟨hb, ?_⟩
    rwa [expand_expand htable, expand_expand htable]

/-- Some relation relates the types, all pairs of which pass one step of a test or are taken to
hold. -/
def HoldsUpTo (step : (Ty → Ty → Prop) → Ty → Ty → Prop) (taken : Ty → Ty → Prop) (a b : Ty) :
    Prop :=
  ∃ R : Ty → Ty → Prop, (∀ t u, R t u → taken t u ∨ step R t u) ∧ R a b

/-- A pair that is being tested need not be taken to hold, and no pair that passes with it. -/
theorem HoldsUpTo.discharge {step : (Ty → Ty → Prop) → Ty → Ty → Prop}
    {taken taken' : Ty → Ty → Prop}
    (hstep : ∀ {R S : Ty → Ty → Prop} {t u : Ty}, (∀ t u, R t u → S t u) → step R t u → step S t u)
    (htaken : ∀ t u, taken' t u → taken t u ∨ ∀ R, step R a b → step R t u)
    (h : step (HoldsUpTo step taken') a b) : HoldsUpTo step taken a b := by
  let R (t u : Ty) : Prop := (t = a ∧ u = b) ∨ HoldsUpTo step taken' t u
  have hab : step R a b := hstep (fun t u => .inr) h
  refine ⟨R, ?_, .inl ⟨rfl, rfl⟩⟩
  rintro t u (⟨rfl, rfl⟩ | ⟨S, hS, htu⟩)
  · exact .inr hab
  rcases hS t u htu with hmem | hpass
  · exact (htaken t u hmem).imp_right fun hpass => hpass R hab
  · exact .inr (hstep (fun t u htu => .inr ⟨S, hS, htu⟩) hpass)

/-- The pairs on which a successful comparison relies pass one step of a comparison each. -/
theorem holdsUpTo_of_subtype? (h : subtype? table n guard a b = some true) :
    HoldsUpTo (Compared table) (fun t u => (t, u) ∈ guard) a b := by
  induction n generalizing guard a b with
  | zero => cases h
  | succ n ih =>
    have hdischarge (h : Compared table (HoldsUpTo (Compared table)
        fun t u => (t, u) ∈ assumed guard a b) a b) :
        HoldsUpTo (Compared table) (fun t u => (t, u) ∈ guard) a b := by
      refine .discharge (fun hRS hpass => hpass.mono hRS) (fun t u htu => ?_) h
      refine (eq_or_mem_of_mem_assumed htu).symm.imp_right fun heq R hpass => ?_
      cases heq
      exact hpass
    rw [subtype?_succ] at h
    split at h
    · next hnever => exact hdischarge (.inl hnever)
    split at h
    · cases h
    next hne =>
    split at h
    · next hmet =>
      have hmem := contains_iff_mem.mp (Bool.and_eq_true_iff.mp hmet).2
      exact ⟨fun t u => (t, u) ∈ guard, fun t u => .inl, hmem⟩
    · have hstep : Compared table
          (fun t u => subtype? table n (assumed guard a b) t u = some true) a b :=
        .inr ⟨by simpa using hne, strictlyCoveredBy_of_subtypeExpanded? h⟩
      exact hdischarge (hstep.mono fun t u htu => ih htu)

/-- Subtypes are related by some simulation. -/
theorem Simulated.of_subtype (htable : table.WellFormed) (ha : a.WellFormed) (hb : b.WellFormed)
    (h : a.subtype table b) : Simulated table a b := by
  have hsome : subtype? table (comparisonBound table a b) [] a b = some true := by
    obtain ⟨r, hr⟩ := Option.isSome_iff_exists.mp (subtype?_comparisonBound_isSome htable ha hb)
    simpa [subtype, hr] using h
  obtain ⟨R, hR, hab⟩ := holdsUpTo_of_subtype? hsome
  exact ⟨R, fun t u htu => (hR t u htu).resolve_left not_mem_nil, hab⟩

/-- Subtyping is the largest simulation. -/
theorem subtype_iff_simulated (htable : table.WellFormed)
    (hmethods : ∀ e ∈ table.expansions, e.2.MethodFree) (ha : a.WellFormed) (hb : b.WellFormed)
    (hfree : a.MethodFree) : a.subtype table b ↔ Simulated table a b := by
  constructor
  · exact .of_subtype htable ha hb
  · rintro ⟨R, hR, hab⟩
    exact subtype_of_simulation htable hmethods hR hab ha hb hfree

end Ty

/-- The expansions of a program have no payloads for methods. -/
theorem Source.program_table_methodFree (source : Source) :
    ∀ e ∈ source.program.table.expansions, e.2.MethodFree :=
  source.program_table_closed Ty.MethodFree.closed (fun _ ht => ht.without _) fun _ _ _ => trivial

end TypeFlow
