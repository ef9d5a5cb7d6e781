import TypeFlow.Analysis
import TypeFlow.Proofs.Agreement
import TypeFlow.Proofs.Rank

/-!
# What runs publish

A run notes the facts that it reads, and whether it has seen a payload. When its own facts are
published, a fact either stays as it is or has grown in a way that affects everyone who has seen it:
a fact without payloads cannot change unless its tags do.
-/

namespace TypeFlow

open List NumMap Option

/-! ### Growing facts -/

namespace Ty

/-- A type without payloads that gets no new tag stays as it is. -/
theorem widen_union_eq_of_tags {u t : Ty} {depth : Nat} (hdata : u.data = [])
    (htags : ((u.union t).widen depth).tags = u.tags) : (u.union t).widen depth = u := by
  rw [widen_tags] at htags
  have hordered : Ordered u.data := hdata ▸ .nil
  have hempty : (u.union t).data = [] := by
    apply eq_nil_iff_forall_not_mem.mpr
    intro p hp
    have hpayload := (payload?_eq_some_iff (union_ordered_of_tags htags hordered)).mpr ⟨hp, rfl⟩
    obtain ⟨q, hq, -⟩ := payload?_union_cases htags hpayload
    exact absurd (payload?_mem hq) (by simp [hdata])
  apply ext_parts ((widen_tags _ _).trans htags)
  rw [widen_eq, hempty, hdata]
  rfl

end Ty

namespace Facts

variable (table : DeclTable) (depth : Nat)

theorem grown_some (u t : Ty) : grown table depth (some u) t =
      if t.subtype table u then (u, .unchanged)
      else ((u.union t).widen depth,
        if ((u.union t).widen depth).tags = u.tags then .value else .type) := rfl

/-- A fact that is enlarged stays as it is or affects those who have seen as much of it as `kind`
says, if those who have not seen a payload have seen it all. -/
theorem grown_cases {old : Option Ty} (t : Ty) {kind : ReadKind}
    (hkind : kind = .type → ∀ u, old = some u → u.data = []) :
    old = some (grown table depth old t).1 ∨ (grown table depth old t).2.affects kind := by
  cases old with
  | none => exact .inr rfl
  | some u =>
    rw [grown_some]
    split
    · exact .inl rfl
    · by_cases htags : ((u.union t).widen depth).tags = u.tags
      · rw [if_pos htags]
        cases kind with
        | value => exact .inr rfl
        | type =>
          exact .inl (congrArg some (Ty.widen_union_eq_of_tags (hkind rfl u rfl) htags).symm)
      · rw [if_neg htags]
        exact .inr rfl

/-- The fact about a variable, or about the result of a function, has no payload. -/
def PlainAt (program : Program) (facts : Facts) (d : DeclId) : Prop :=
  ((program.decl d).kind = .var → ∀ t, facts.vars.get? d = some t → t.data = []) ∧
    ((program.decl d).kind = .function → ∀ t, facts.returns.get? d = some t → t.data = [])

variable {others facts : Facts} {d : DeclId}

theorem SameAt.trans {thirds : Facts} (h : facts.SameAt others d) (h' : others.SameAt thirds d) :
    facts.SameAt thirds d := ⟨h.1.trans h'.1, h.2.trans h'.2⟩

theorem PlainAt.of_sameAt {program : Program} (h : facts.PlainAt program d)
    (hsame : facts.SameAt others d) : others.PlainAt program d :=
  ⟨fun hkind => hsame.1 ▸ h.1 hkind, fun hkind => hsame.2 ▸ h.2 hkind⟩

variable {program : Program} {facts : Facts} {d e : DeclId} {kind : ReadKind}

/-- Enlarging the type of a variable affects everyone who has seen it, or changes nothing. -/
theorem growVar_cases (t : Ty) (he : (program.decl e).kind = .var)
    (hplain : kind = .type → facts.PlainAt program d) :
    facts.SameAt (facts.growVar table depth e t).1 d ∨
      d = e ∧ (facts.growVar table depth e t).2.affects kind := by
  by_cases hd : d = e
  · subst hd
    refine (grown_cases table depth t fun hkind => (hplain hkind).1 he).imp ?_
      fun haffects => ⟨rfl, haffects⟩
    intro hsame
    exact ⟨by simpa [growVar] using hsame, rfl⟩
  · exact .inl ⟨by simp [growVar, hd], rfl⟩

/-- Enlarging the type of a result affects everyone who has seen it, or changes nothing. -/
theorem growReturn_cases (t : Ty) (he : (program.decl e).kind = .function)
    (hplain : kind = .type → facts.PlainAt program d) :
    facts.SameAt (facts.growReturn table depth e t).1 d ∨
      d = e ∧ (facts.growReturn table depth e t).2.affects kind := by
  by_cases hd : d = e
  · subst hd
    refine (grown_cases table depth t fun hkind => (hplain hkind).2 he).imp ?_
      fun haffects => ⟨rfl, haffects⟩
    intro hsame
    exact ⟨rfl, by simpa [growReturn] using hsame⟩
  · exact .inl ⟨rfl, by simp [growReturn, hd]⟩

end Facts

/-! ### What a run notes and writes -/

/-- What a run notes and writes: it notes that it has seen no payload only where there is none, and
it only writes variables. -/
structure Propagation.Sound (program : Program) (facts : Facts) (out : Propagation) : Prop where
  reads : ∀ d, out.reads.get? d = some .type → facts.PlainAt program d
  writes : ∀ w ∈ out.writes.entries, (program.decl w.1).kind = .var

/-- A fact that is noted without a payload has none. -/
theorem Context.IsFact.plainAt {ctx : Context}
    (hbody : ∀ d, ctx.program.hasBody d → (ctx.program.decl d).kind = .function)
    {d : DeclId} {t : Ty} (h : ctx.IsFact d t) (hkind : Reads.kindOf t = .type) :
    ctx.facts.PlainAt ctx.program d := by
  have hdata : t.data = [] := by
    unfold Reads.kindOf at hkind
    split at hkind
    · next hempty => simpa using hempty
    · simp at hkind
  rcases h with ⟨hvar, rfl⟩ | ⟨hfunction, rfl⟩
  · refine ⟨?_, fun hfunction => absurd (hvar.symm.trans hfunction) (by simp)⟩
    intro _ u hu
    simpa [hu] using hdata
  · refine ⟨fun hvar => absurd (hvar.symm.trans (hbody d hfunction)) (by simp), ?_⟩
    intro _ u hu
    simpa [hu] using hdata

namespace Pass

variable {pass : Pass}

theorem keeps_reads (hbody : ∀ d, pass.program.hasBody d → (pass.program.decl d).kind = .function) :
    pass.Keeps False fun r => ∀ d, r.record.reads.get? d = some .type →
      pass.facts.PlainAt pass.program d := by
  intro r f hr hsound d hd
  rw [Replay.leave_reads] at hd
  cases f with
  | mark m =>
    cases m with
    | note e t =>
      simp only [Reads.mark, Reads.get?_note] at hd
      by_cases hde : d = e
      · subst hde
        have hfact := hsound.1
        apply hfact.plainAt hbody
        cases hread : r.record.reads.get? d with
        | none => simpa [hread] using hd
        | some kind => cases kind <;> cases hkind : Reads.kindOf t <;> simp_all [ReadKind.max]
      · exact hr d (by simpa [hde] using hd)
    | _ => exact hr d hd
  | _ => exact hr d hd

/-- All keys of a map are variables. -/
def WritesVars (program : Program) (writes : NumMap Ty) : Prop :=
  ∀ d t, writes.get? d = some t → (program.decl d).kind = .var

theorem WritesVars.insert {program : Program} {writes : NumMap Ty} (h : WritesVars program writes)
    {d : DeclId} (hd : (program.decl d).kind = .var) (t : Ty) :
    WritesVars program (writes.insert d t) := by
  intro e u hu
  rw [get?_insert] at hu
  split at hu
  · next hed => exact hed ▸ hd
  · exact h e u hu

theorem keeps_writes : pass.Keeps False fun r => WritesVars pass.program r.writes := by
  intro r f hr hsound
  match f with
  | .mark _ => exact hr
  | .returned t =>
    simp only [Replay.leave]
    split <;> exact hr
  | .written vars t =>
    simp only [Replay.leave]
    split
    · exact foldl_invariant (fun writes hwrites d hd => hwrites.insert (hsound.2 d hd) _) hr
    · exact hr

theorem skipped_writes : WritesVars pass.program pass.skipped.writes := by
  refine foldl_invariant ?_ fun d t hd => absurd hd (by simp)
  intro writes hwrites w hw
  obtain ⟨d, hd, rfl⟩ := List.mem_map.mp hw
  refine hwrites.insert ?_ _
  have hwritten : d ∈ pass.graph.writtenNonlocals pass.program.toDeclarations := hd
  rw [Graph.writtenNonlocals, DeclSet.mem_ofList] at hwritten
  obtain ⟨block, -, hblock⟩ := mem_flatMap.mp hwritten
  obtain ⟨event, -, hevent⟩ := mem_flatMap.mp hblock
  split at hevent
  · exact of_decide_eq_true (mem_filter.mp hevent).2
  · simp at hevent

theorem propagate_sound
    (hbody : ∀ d, pass.program.hasBody d → (pass.program.decl d).kind = .function)
    {out : Propagation} (hout : pass.propagate = .ok out) :
    out.Sound pass.program pass.facts := by
  cases hskipped : pass.isSkipped with
  | true =>
    obtain rfl := Except.ok.inj ((propagate_of_skipped hskipped).symm.trans hout)
    exact ⟨fun d hd => absurd hd (by simp [skipped, show (∅ : Reads).get? d = none from rfl]),
      fun w hw => skipped_writes w.1 w.2 (mem_entries.mp hw)⟩
  | false =>
    obtain ⟨s, hsolve, rfl⟩ := solve_of_propagate hskipped hout
    refine ⟨recorded_of_solve pass.formed_of_nothing (keeps_reads hbody) (fun _ h => h) ?_ hsolve,
      ?_⟩
    · intro d hd
      simp [Record.ofConfig, show (∅ : Reads).get? d = none from rfl] at hd
    · intro w hw
      refine recorded_of_solve pass.formed_of_nothing keeps_writes (fun _ h => h) ?_ hsolve w.1 w.2
        (mem_entries.mp hw)
      exact fun d t hd => absurd hd (by simp [show (∅ : NumMap Ty).get? d = none from rfl])

end Pass

namespace Analyzer

variable {a : Analyzer} {facts : Facts} {d : DeclId} {kind : ReadKind}

/-- A fact stays as it is while a run is published, or is among the facts that have grown and
affects those who have seen it. -/
def SameOrGrown (facts : Facts) (d : DeclId) (kind : ReadKind)
    (out : Facts × List (DeclId × Growth)) : Prop :=
  facts.SameAt out.1 d ∨ ∃ growth, (d, growth) ∈ out.2 ∧ growth.affects kind

theorem publishWrites_sameOrGrown {writes : List (DeclId × Ty)}
    (hwrites : ∀ w ∈ writes, (a.program.decl w.1).kind = .var)
    (hplain : kind = .type → facts.PlainAt a.program d) :
    SameOrGrown facts d kind (a.publishWrites facts writes) := by
  refine foldl_invariant ?_ (.inl ⟨rfl, rfl⟩)
  rintro ⟨mid, grown⟩ (hsame | ⟨growth, hmem, haffects⟩) ⟨e, t⟩ hwrite
  · rcases Facts.growVar_cases a.program.table a.config.wideningDepth t
      (hwrites (e, t) (mem_filter.mp hwrite).1)
      (fun hkind => (hplain hkind).of_sameAt hsame) with hkept | ⟨rfl, haffects⟩
    · exact .inl (hsame.trans hkept)
    · exact .inr ⟨_, mem_cons_self, haffects⟩
  · exact .inr ⟨growth, mem_cons_of_mem _ hmem, haffects⟩

theorem publish_sameOrGrown (root : DeclId) {result : Propagation}
    (hwrites : ∀ w ∈ result.writes.entries, (a.program.decl w.1).kind = .var)
    (hplain : kind = .type → facts.PlainAt a.program d) :
    SameOrGrown facts d kind (a.publish facts root result) := by
  have hvars := publishWrites_sameOrGrown hwrites hplain
  unfold publish
  dsimp only
  split
  · next hroot =>
      have hfunction : (a.program.decl root).kind = .function := by simp_all
      rcases hvars with hsame | ⟨growth, hmem, haffects⟩
      · rcases Facts.growReturn_cases a.program.table a.config.wideningDepth result.returned
          hfunction (fun hkind => (hplain hkind).of_sameAt hsame) with hkept | ⟨rfl, haffects⟩
        · exact .inl (hsame.trans hkept)
        · exact .inr ⟨_, by simp, haffects⟩
      · exact .inr ⟨growth, by simp [hmem], haffects⟩
  · exact hvars.imp id fun ⟨growth, hmem, haffects⟩ => ⟨growth, by simpa using hmem, haffects⟩

end Analyzer

/-! ### Readers -/

/-- A root is among the readers of a fact, and known to have seen a payload if it has. -/
def Readers.Has (readers : Readers) (root : DeclId) (kind : ReadKind) : Prop :=
  ∃ known, (root, known) ∈ readers ∧ (known = .type → kind = .type)

namespace Readers

variable {readers : Readers} {root other : DeclId} {kind seen : ReadKind}

theorem has_add (readers : Readers) (root : DeclId) (kind : ReadKind) :
    (Readers.add root kind readers).Has root kind := by
  induction readers with
  | nil => exact ⟨kind, mem_singleton_self _, id⟩
  | cons reader readers ih =>
    obtain ⟨r, known⟩ := reader
    unfold Readers.add
    split
    · next heq =>
        subst heq
        exact ⟨_, mem_cons_self, by cases known <;> cases kind <;> simp [ReadKind.max]⟩
    · obtain ⟨found, hmem, hfound⟩ := ih
      exact ⟨found, mem_cons_of_mem _ hmem, hfound⟩

theorem Has.add (h : readers.Has other seen) (root : DeclId) (kind : ReadKind) :
    (Readers.add root kind readers).Has other seen := by
  obtain ⟨known, hmem, hknown⟩ := h
  induction readers with
  | nil => simp at hmem
  | cons reader readers ih =>
    unfold Readers.add
    rcases mem_cons.mp hmem with heq | hmem
    · cases heq
      split
      · refine ⟨_, mem_cons_self, fun hmax => hknown ?_⟩
        cases known <;> cases kind <;> simp_all [ReadKind.max]
      · exact ⟨known, mem_cons_self, hknown⟩
    · split
      · exact ⟨known, mem_cons_of_mem _ hmem, hknown⟩
      · obtain ⟨found, hfound, hseen⟩ := ih hmem
        exact ⟨found, mem_cons_of_mem _ hfound, hseen⟩

end Readers

namespace Progress

/-- The roots that have read a fact. -/
def readersOf (s : Progress) (d : DeclId) : Readers := (s.readers.get? d).getD []

variable {s : Progress} {d : DeclId} {root other : DeclId} {kind : ReadKind}

/-- The readers of a fact after one more read has been noted. -/
private theorem getD_insert_add (readers : NumMap Readers) (root : DeclId)
    (read : DeclId × ReadKind) (d : DeclId) :
    ((readers.insert read.1 (Readers.add root read.2 ((readers.get? read.1).getD []))).get? d).getD
        [] =
      if d = read.1 then Readers.add root read.2 ((readers.get? d).getD [])
      else (readers.get? d).getD [] := by
  rw [get?_insert]
  split
  · next h => rw [h, getD_some]
  · rfl

theorem noteReads_keeps (root : DeclId) (reads : Reads) (h : (s.readersOf d).Has other kind) :
    ((s.noteReads root reads).readersOf d).Has other kind := by
  refine foldl_invariant (P := fun readers : NumMap Readers =>
    ((readers.get? d).getD []).Has other kind) ?_ h
  intro readers hreaders read _
  rw [getD_insert_add]
  split
  · exact hreaders.add root read.2
  · exact hreaders

theorem noteReads_has {reads : Reads} (h : reads.get? d = some kind) :
    ((s.noteReads root reads).readersOf d).Has root kind := by
  refine foldl_of_mem (P := fun readers : NumMap Readers =>
    ((readers.get? d).getD []).Has root kind) (mem_entries.mpr h) ?_
    ?_ _
  · intro readers
    rw [getD_insert_add, if_pos rfl]
    exact Readers.has_add _ root kind
  · intro readers read hreaders
    rw [getD_insert_add]
    split
    · exact hreaders.add root read.2
    · exact hreaders

private theorem mem_enqueue {waiting : List DeclId} {reader : DeclId} :
    other ∈ (if waiting.contains reader then waiting else waiting ++ [reader]) ↔
      other ∈ waiting ∨ other = reader := by
  split
  · next h =>
      have hreader : reader ∈ waiting := by simpa using h
      exact ⟨.inl, fun h => h.elim id fun h => h ▸ hreader⟩
  · simp

theorem requeue_keeps (fact : DeclId) (growth : Growth) (h : other ∈ s.waiting) :
    other ∈ (s.requeue fact growth).waiting :=
  foldl_invariant (P := fun waiting : List DeclId => other ∈ waiting)
    (fun _ hwaiting _ _ => mem_enqueue.mpr (.inl hwaiting)) h

variable {known : ReadKind} {growth : Growth}

/-- A reader that is affected by the growth of a fact waits. -/
theorem mem_requeue (h : (root, known) ∈ s.readersOf d) (haffects : growth.affects known) :
    root ∈ (s.requeue d growth).waiting :=
  foldl_of_mem (P := fun waiting : List DeclId => root ∈ waiting)
    (mem_filter.mpr ⟨h, haffects⟩) (fun _ => mem_enqueue.mpr (.inr rfl))
    (fun _ _ hwaiting => mem_enqueue.mpr (.inl hwaiting)) _

theorem foldl_requeue_keeps (grown : List (DeclId × Growth)) (h : other ∈ s.waiting) :
    other ∈ (grown.foldl (fun s growth => s.requeue growth.1 growth.2) s).waiting :=
  foldl_invariant (P := fun s : Progress => other ∈ s.waiting)
    (fun _ hs growth _ => requeue_keeps growth.1 growth.2 hs) h

theorem mem_foldl_requeue {grown : List (DeclId × Growth)} (hgrown : (d, growth) ∈ grown)
    (h : (root, known) ∈ s.readersOf d) (haffects : growth.affects known) :
    root ∈ (grown.foldl (fun s growth => s.requeue growth.1 growth.2) s).waiting := by
  induction grown generalizing s with
  | nil => simp at hgrown
  | cons first grown ih =>
    rcases mem_cons.mp hgrown with rfl | hgrown
    · exact foldl_requeue_keeps grown (mem_requeue h haffects)
    · exact ih hgrown h

end Progress

end TypeFlow
