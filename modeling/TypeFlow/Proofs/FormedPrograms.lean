import TypeFlow.Program.Basic
import TypeFlow.Proofs.Operators

/-!
# The types of a program are formed

Written types satisfy whatever the ways to write them keep, and so do the expansions of typedefs. In
particular they are formed, as are the values of members of enumerations.
-/

namespace TypeFlow

open Ty

variable {strict : Demands} {ok : DeclId → Prop} {p : Payload Ty}

/-- Declarations of one kind make a formed type. -/
theorem Ty.Formed.ofDecls {ds : DeclSet} (hproper : p.Proper := by trivial)
    (hdecls : p.decls? = some ds := by rfl) (hcomponents : p.components = [] := by rfl)
    (hds : ∀ d ∈ ds.ids, strict.ok d := by exact fun _ _ => trivial) : (Ty.exact p).Formed strict :=
  Formed.exact ⟨fun _ => hproper, fun _ => Payload.tag_ne_method_of_decls hdecls,
    fun es hes => Option.some.inj (hdecls.symm.trans hes) ▸ hds, by simp [hcomponents]⟩

/-- Instances of classes are formed. -/
theorem Ty.Formed.object {classes : DeclSet} (h : ∀ d ∈ classes.ids, strict.ok d) :
    (Ty.object classes).Formed strict := .ofDecls trivial rfl rfl h

variable {d : DeclId}

theorem DeclSet.forall_mem_one (h : ok d) : ∀ e ∈ (DeclSet.one d).ids, ok e := by
  simpa [DeclSet.one] using h

/-! ### Written types -/

/-- No written type describes the arguments of a method or the literals of an enumeration. -/
def Payload.Written : Payload Ty → Prop
  | method _ _ | enum _ (some _) => False
  | _ => True

theorem Payload.Written.tag_ne_method (h : p.Written) : p.tag ≠ .method := by
  cases p <;> simp_all [Written, tag]

/-- Whatever a written type is made of keeps `C`, if it names suitable declarations only. -/
structure Ty.Closed (ok : DeclId → Prop) (C : Ty → Prop) : Prop where
  ofTags : ∀ tags, C (ofTags tags)
  exact : ∀ p : Payload Ty, p.Written → p.Proper →
    (∀ ds, p.decls? = some ds → ∀ d ∈ ds.ids, ok d) → (∀ c ∈ p.components, C c) → C (exact p)
  union : ∀ a b, C a → C b → C (a.union b)

theorem Ty.closed_formed (strict : Demands) : Closed strict.ok (Formed strict) where
  ofTags := .ofTags
  exact _ hwritten hproper hdecls hnested :=
    .exact ⟨fun _ => hproper, fun _ => hwritten.tag_ne_method, hdecls, hnested⟩
  union _ _ := .union

namespace Ty.Closed

variable {C : Ty → Prop}

theorem unionAll (hC : Closed ok C) {ts : List Ty} (hts : ∀ t ∈ ts, C t) : C (unionAll ts) :=
  foldl_invariant (fun _ hacc t ht => hC.union _ _ hacc (hts t ht)) (hC.ofTags _)

/-- A payload that only names declarations. -/
theorem ofDecls (hC : Closed ok C) (hwritten : p.Written) (hproper : p.Proper)
    (hdecls : p.decls? = some (.one d) ∨ p.decls? = none) (hcomponents : p.components = [])
    (hd : ok d) : C (.exact p) := by
  refine hC.exact p hwritten hproper ?_ (by simp [hcomponents])
  intro ds hds
  rcases hdecls with hone | hnone
  · exact Option.some.inj (hone.symm.trans hds) ▸ DeclSet.forall_mem_one hd
  · simp [hnone] at hds

end Ty.Closed

namespace Names

variable {names : Names} {C : Ty → Prop}

theorem typeOfDecl_closed (hC : Closed ok C) (hd : ok d) : C (names.typeOfDecl d) := by
  unfold typeOfDecl
  split
  · exact hC.ofDecls trivial trivial (.inl rfl) rfl hd
  · exact hC.ofDecls trivial trivial (.inl rfl) rfl hd
  · exact hC.ofDecls trivial trivial (.inr rfl) rfl hd
  · exact hC.ofDecls trivial trivial (.inl rfl) rfl hd
  · exact hC.ofTags _

variable {args : List Ty}

theorem languageType_closed (hC : Closed ok C) {tags : Tags} (hargs : ∀ t ∈ args, C t) :
    C (languageType tags args) := by
  unfold languageType
  split
  · refine iteInduction (fun _ => ?_) fun _ => hC.ofTags _
    exact hC.exact _ trivial trivial (by simp [Payload.decls?]) hargs
  · refine iteInduction (fun _ => ?_) fun _ => hC.ofTags _
    exact hC.exact _ trivial trivial (by simp [Payload.decls?]) hargs
  · exact hC.ofTags _

/-- All declarations that names may mean are suitable. -/
def Finds (names : Names) (ok : DeclId → Prop) : Prop := ∀ node, ∀ d ∈ names.lookup node, ok d

theorem namedType_closed (hC : Closed ok C) (hlookup : names.Finds ok) {path : Path NodeId}
    (hargs : ∀ t ∈ args, C t) : C (names.namedType path args) := by
  unfold namedType
  split
  · exact languageType_closed hC hargs
  · split
    · exact hC.ofTags _
    · refine hC.unionAll ?_
      intro t ht
      obtain ⟨d, hd, rfl⟩ := List.mem_map.mp ht
      exact typeOfDecl_closed hC (hlookup path.id d hd)

mutual

/-- A written type satisfies whatever its parts keep. -/
theorem typeOfRef_closed (hC : Closed ok C) (hlookup : names.Finds ok) :
    ∀ r : TypeRef NodeId, C (names.typeOfRef r)
  | .named path args => by
    rw [typeOfRef]
    exact namedType_closed hC hlookup (typesOfSpecs_closed hC hlookup args)
  | .tuple _ slots =>
    hC.exact _ trivial trivial (by simp [Payload.decls?]) (typesOfSpecs_closed hC hlookup slots)

theorem typeOfSpec_closed (hC : Closed ok C) (hlookup : names.Finds ok) :
    ∀ s : Alternatives NodeId (TypeRef NodeId), C (names.typeOfSpec s)
  | ⟨_, parts⟩ => by
    rw [typeOfSpec]
    exact hC.unionAll (typesOfRefs_closed hC hlookup parts)

theorem typesOfSpecs_closed (hC : Closed ok C) (hlookup : names.Finds ok) :
    ∀ ss : List (Alternatives NodeId (TypeRef NodeId)), ∀ t ∈ names.typesOfSpecs ss, C t
  | [] => by simp [typesOfSpecs]
  | s :: ss => by
    rw [typesOfSpecs, List.forall_mem_cons]
    exact ⟨typeOfSpec_closed hC hlookup s, typesOfSpecs_closed hC hlookup ss⟩

theorem typesOfRefs_closed (hC : Closed ok C) (hlookup : names.Finds ok) :
    ∀ rs : List (TypeRef NodeId), ∀ t ∈ names.typesOfRefs rs, C t
  | [] => by simp [typesOfRefs]
  | r :: rs => by
    rw [typesOfRefs, List.forall_mem_cons]
    exact ⟨typeOfRef_closed hC hlookup r, typesOfRefs_closed hC hlookup rs⟩

end

/-- Written types denote formed types. -/
theorem typeOfSpec_formed (hlookup : names.Finds strict.ok)
    (s : Alternatives NodeId (TypeRef NodeId)) : (names.typeOfSpec s).Formed strict :=
  typeOfSpec_closed (closed_formed strict) hlookup s

end Names

/-! ### Expansions -/

namespace Expansion

variable {C : Ty → Prop} {raw : Definitions}

/-- All finished expansions satisfy `C`. -/
def FinishedIn (C : Ty → Prop) (done : Finished) : Prop := ∀ e ∈ done, C e.2.ty

/-- What an expansion gives satisfies `C`. -/
def OutcomeIn (C : Ty → Prop) (out : Unfolding × Finished) : Prop := C out.1.ty ∧ FinishedIn C out.2

variable {done : Finished}

theorem unfoldAll_closed (hunion : ∀ a b, C a → C b → C (a.union b))
    {unfold : DeclId → Finished → Unfolding × Finished}
    (hunfold : ∀ d done, FinishedIn C done → OutcomeIn C (unfold d done)) (stack ds : List DeclId)
    {acc : Unfolding} (hacc : C acc.ty) (hdone : FinishedIn C done) :
    OutcomeIn C (unfoldAll unfold stack ds acc done) := by
  induction ds generalizing acc done with
  | nil => exact ⟨hacc, hdone⟩
  | cons d ds ih =>
    unfold unfoldAll
    split
    · exact ih hacc hdone
    · obtain ⟨hinner, hnext⟩ := hunfold d done hdone
      exact ih (hunion _ _ hacc hinner) hnext

section

variable (hany : C .any) (hunion : ∀ a b, C a → C b → C (a.union b))
  (hraw : ∀ e ∈ raw, C (e.2.without (.single .synonym)))
include hany hunion hraw

theorem unfoldStep_closed {inner : List DeclId → DeclId → Finished → Unfolding × Finished}
    (hinner : ∀ stack d done, FinishedIn C done → OutcomeIn C (inner stack d done))
    (stack : List DeclId) (d : DeclId) (hdone : FinishedIn C done) :
    OutcomeIn C (unfoldStep raw inner stack d done) := by
  unfold unfoldStep
  split
  · next e he => exact ⟨hdone _ (mem_of_lookup he), hdone⟩
  · split
    · exact ⟨hany, hdone⟩
    · next t ht =>
      have hstart := hraw _ (mem_of_lookup ht)
      have hfinish (out : Unfolding × Finished) (hout : OutcomeIn C out) : OutcomeIn C
            (⟨out.1.ty, out.1.pending.filter (· != d)⟩,
              if (out.1.pending.filter (· != d)).isEmpty then
                (d, ⟨out.1.ty, out.1.pending.contains d || out.1.ty.mentions d⟩) :: out.2
              else out.2) := by
        refine ⟨hout.1, iteInduction ?_ fun _ => hout.2⟩
        intro _
        exact List.forall_mem_cons.mpr ⟨hout.1, hout.2⟩
      split
      · split
        · exact hfinish _ (unfoldAll_closed hunion (hinner _) _ _ hstart hdone)
        · exact hfinish (_, done) ⟨hunion _ _ hstart hany, hdone⟩
      · exact hfinish (_, done) ⟨hstart, hdone⟩

theorem unfoldOne_closed (n : Nat) (stack : List DeclId) (d : DeclId) (done : Finished)
    (hdone : FinishedIn C done) : OutcomeIn C (unfoldOne raw n stack d done) := by
  induction n generalizing stack d done with
  | zero => exact ⟨hany, hdone⟩
  | succ n ih => exact unfoldStep_closed hany hunion hraw ih stack d hdone

/-- Expansions satisfy what unions keep and the definitions satisfy without the typedefs that they
refer to. -/
theorem all_closed : FinishedIn C (all raw) := by
  have hdone : FinishedIn C
      (raw.foldl (fun done e => (unfoldOne raw (raw.length + 1) [] e.1 done).2) []) :=
    foldl_invariant (fun done hdone e _ => (unfoldOne_closed hany hunion hraw _ _ e.1 done hdone).2)
      (by simp [FinishedIn])
  intro e he
  obtain ⟨e', -, he⟩ := List.mem_filterMap.mp he
  obtain ⟨x, hx, rfl⟩ := Option.map_eq_some_iff.mp he
  exact hdone _ (mem_of_lookup hx)

end

end Expansion

/-! ### Values of enumeration members -/

theorem enumLiteral_formed {ι : Type} (e : Expr ι) : (enumLiteral e).Formed strict := by
  unfold enumLiteral
  split <;> first | exact .literal | exact .ofTags _

theorem enumSuccessor_formed (t : Ty) : (enumSuccessor t).Formed strict := by
  unfold enumSuccessor
  split
  · split
    · exact .literal
    · exact .ofTags _
  · split
    · exact iteInduction (fun _ => .literal) fun _ => .ofTags _
    · exact .ofTags _

end TypeFlow
