import TypeFlow.Proofs.RefinementSources

/-!
# Replays of blocks

A replay is traced like an evaluation. The states that a block sends do not depend on what has been
recorded before, their types are formed, and other facts give the same replay as long as they agree
on the facts that it notes.
-/

namespace TypeFlow

open Context List NumMap Option Record Replay Replaying

/-! ### Reads -/

theorem ReadKind.max_assoc (a b c : ReadKind) : (a.max b).max c = a.max (b.max c) := by
  cases a <;> cases b <;> cases c <;> rfl

namespace Reads

/-- The reads after a step of an evaluation. -/
def mark (reads : Reads) : Mark → Reads
  | .note d t => reads.note d t
  | _ => reads

/-- The strongest of two uses, where there may be none. -/
abbrev joined (a b : Option ReadKind) : Option ReadKind := .merge ReadKind.max a b

theorem get?_note (reads : Reads) (d : DeclId) (t : Ty) (k : Nat) : (reads.note d t).get? k =
      joined (reads.get? k) (if k = d then some (kindOf t) else none) := by
  rw [note, get?_insertWith]
  by_cases hk : k = d
  · subst hk
    cases reads.get? k <;> simp
  · simp [hk]

private theorem get?_foldl_insertWith {entries : List (Nat × ReadKind)}
    (h : AscendingKeys entries) (reads : Reads) (k : Nat) :
    (entries.foldl (fun acc e => acc.insertWith ReadKind.max e.1 e.2) reads).get? k =
      joined (reads.get? k) (entries.lookup k) := by
  induction entries generalizing reads with
  | nil => simp
  | cons e rest ih =>
    obtain ⟨j, x⟩ := e
    have hrest := pairwise_cons.mp h
    rw [foldl_cons, ih hrest.2, get?_insertWith, lookup_cons_eq_ite]
    by_cases hk : k = j
    · subst hk
      have hnone : rest.lookup k = none := by
        apply eq_none_iff_forall_ne_some.mpr
        intro y hy
        exact lt_irrefl k (hrest.1 (k, y) (mem_of_lookup hy))
      cases reads.get? k <;> simp [hnone]
    · simp [hk]

theorem get?_merge (reads other : Reads) (k : Nat) :
    (reads.merge other).get? k = joined (reads.get? k) (other.get? k) :=
  get?_foldl_insertWith other.ascending reads k

theorem merge_note (reads other : Reads) (d : DeclId) (t : Ty) :
    reads.merge (other.note d t) = (reads.merge other).note d t := by
  apply ext_get?
  intro k
  have : Std.Associative ReadKind.max := ⟨ReadKind.max_assoc⟩
  simp only [get?_note, get?_merge]
  exact (Std.Associative.assoc _ _ _).symm

/-- To add reads one by one is to collect them first and add them together. -/
theorem merge_foldl_mark (reads other : Reads) (log : List Mark) :
    reads.merge (log.foldl mark other) = log.foldl mark (reads.merge other) := by
  induction log generalizing other with
  | nil => rfl
  | cons m log ih =>
    rw [foldl_cons, ih]
    cases m with
    | note d t => exact congrArg (log.foldl mark) (merge_note reads other d t)
    | _ => rfl

end Reads

/-! ### What steps leave behind -/

/-- What one step of a replay leaves behind. -/
inductive Footprint where
  | mark (m : Mark)
  | returned (t : Ty)
  | written (vars : List DeclId) (t : Ty)

/-- What replays have left behind after a step. -/
def Replay.leave (r : Replay) : Footprint → Replay
  | .mark m => { r with record := r.record.mark m }
  | .returned t => if r.record.recording then { r with returned := r.returned.union t } else r
  | .written vars t =>
    if r.record.recording then
      { r with writes := vars.foldl (fun writes d =>
        writes.insert d (((writes.get? d).getD .never).union t)) r.writes }
    else r

variable (log : List Mark) {strict : Demands} {ctx : Context}

theorem Evaluation.foldl_mark_refinements {log : List Mark}
    (hlog : ∀ m ∈ log, m.Sound strict ctx) {s : Evaluation}
    (hs : ∀ p ∈ s.refinements, p.2.Formed strict) :
    ∀ p ∈ (log.foldl .mark s).refinements, p.2.Formed strict := by
  refine foldl_invariant (P := fun s : Evaluation => ∀ p ∈ s.refinements, p.2.Formed strict) ?_ hs
  intro s hs m hm
  cases m with
  | refine n t =>
    intro p hp
    rcases mem_append.mp hp with hp | hp
    · exact hs p hp
    · exact mem_singleton.mp hp ▸ hlog _ hm
  | _ => exact hs

theorem Record.foldl_mark_reads (r : Record) :
    (log.foldl .mark r).reads = log.foldl Reads.mark r.reads := by
  induction log generalizing r with
  | nil => rfl
  | cons m log ih =>
    rw [foldl_cons, ih]
    cases m with
    | node n t =>
      simp only [mark, node]
      split <;> rfl
    | diagnose n message =>
      simp only [mark, diagnose]
      split
      · split <;> rfl
      · rfl
    | _ => rfl

theorem Replay.foldl_leave_marks (r : Replay) : (log.map Footprint.mark).foldl leave r =
      { r with record := log.foldl .mark r.record } := by
  induction log generalizing r with
  | nil => rfl
  | cons m log ih => exact ih _

/-- Whether a step only notes a fact. -/
def Mark.isNote : Mark → Bool
  | .note _ _ => true
  | _ => false

theorem Record.foldl_mark_notes (r : Record) : (log.filter Mark.isNote).foldl mark r =
      { r with reads := log.foldl Reads.mark r.reads } := by
  induction log generalizing r with
  | nil => rfl
  | cons m log ih => cases m <;> exact ih _

/-- Some event of the graph is about the node. -/
def Pass.Mentions (pass : Pass) (n : NodeId) : Prop :=
  ∃ b, ∃ e ∈ (pass.graph.block b).events, n ∈ e.labels

/-- A step gives types to some nodes only. -/
def Mark.Types (P : NodeId → Prop) : Mark → Prop
  | .node n _ => P n
  | _ => True

theorem Mark.In.types {m : Mark} {nodes : List NodeId} {P : NodeId → Prop} (h : m.In nodes)
    (hP : ∀ n ∈ nodes, P n) : m.Types P := by
  cases m with
  | node => exact hP _ h
  | _ => trivial

/-- What an evaluation leaves behind is sound, and types are given to nodes of the graph. -/
def Pass.SoundMark (strict : Demands) (pass : Pass) (m : Mark) : Prop :=
  m.Sound strict pass.context ∧ m.Types pass.Mentions

/-- What is left behind is formed, facts are noted as they are, and only variables of modules and
classes are written. -/
def Footprint.Sound (strict : Demands) (pass : Pass) : Footprint → Prop
  | .mark m => pass.SoundMark strict m
  | .returned t => t.Formed strict
  | .written vars t => t.Formed strict ∧ ∀ d ∈ vars, (pass.program.decl d).kind = .var

/-- A step that only notes a fact on which both stores agree. -/
def Footprint.Same (facts others : Facts) : Footprint → Prop
  | .mark m => m.Same facts others
  | _ => True

/-- The types of a state are formed. -/
def TypeState.Formed (strict : Demands) (state : TypeState) : Prop :=
  ∀ k t, state.get? k = some t → t.Formed strict

/-- The types of an evaluation are formed. -/
def Evaluated.Formed (strict : Demands) (out : Evaluated) : Prop :=
  out.ty.Formed strict ∧ ∀ p ∈ out.refinements, p.2.Formed strict

theorem Program.instanceType_formed (program : Program) {c : DeclId} (hc : strict.ok c) :
    (program.instanceType c).Formed strict := by
  simp only [instanceType]
  split
  · exact .ofTags _
  · exact .object (DeclSet.forall_mem_one hc)

namespace TypeState.Formed

variable {strict : Demands} {state : TypeState}

section

variable (h : state.Formed strict)

include h

theorem insert (k : Key) {t : Ty} (ht : t.Formed strict) : Formed strict (state.insert k t) := by
  intro j u hu
  rw [get?_insert] at hu
  split at hu
  · exact some.inj hu ▸ ht
  · exact h j u hu

theorem filter (keep : Key → Ty → Bool) : Formed strict (state.filter keep) := by
  intro j u hu
  rw [get?_filter, filter_eq_some_iff] at hu
  exact h j u hu.1

theorem widenAt (depth : Nat) (k : Key) : (state.widenAt depth k).Formed strict := by
  unfold TypeState.widenAt
  split
  · next t ht => exact h.insert k ((h k t ht).widen depth)
  · exact h

end

end TypeState.Formed

namespace Pass

/-- All types that a pass starts from are formed, and it only meets suitable declarations. -/
structure Formed (strict : Demands) (pass : Pass) : Prop where
  context : pass.context.Formed strict
  decls : ∀ key d, pass.graph.identities.get key = .decl d → strict.ok d
  sets : ∀ key ds, pass.graph.identities.get key = .set ds → ∀ d ∈ ds.ids, strict.ok d
  tests : ∀ b node whole e classes key?,
    .test node (.instanceOf whole e classes key?) ∈ (pass.graph.block b).events →
      ∀ c ∈ classes, strict.ok c

/-- The same pass with other facts and other limits. -/
def withFacts (pass : Pass) (facts : Facts) (limits : Limits) : Pass :=
  { pass with facts, config := pass.config.withLimits limits }

section

variable (pass : Pass) (facts : Facts) (limits : Limits)

@[simp] theorem withFacts_context :
    (pass.withFacts facts limits).context = pass.context.withFacts facts limits := rfl

@[simp] theorem withFacts_graph : (pass.withFacts facts limits).graph = pass.graph := rfl

@[simp] theorem withFacts_env : (pass.withFacts facts limits).env = pass.env := rfl

end

/-- A step of a replay is traced, and compared with the same step for other facts. -/
def Tracks {α : Type} (strict : Demands) (pass : Pass) (others : Facts)
    (Q : α → Prop) (m m' : Replaying α) : Prop :=
  Traced leave (Footprint.Sound strict pass) (Footprint.Same pass.facts others) Q m m'

variable {strict : Demands} {pass : Pass} {others : Facts} {limits : Limits}
  {state : TypeState}

theorem Formed.allows (h : pass.Formed strict) :
    pass.context.Allows strict (pass.SoundMark strict) :=
  { h.context with
    note := fun _ _ h => ⟨h, trivial⟩
    diagnose := fun _ _ => ⟨trivial, trivial⟩
    mayThrowIf := fun _ => ⟨trivial, trivial⟩
    call := fun _ _ => ⟨trivial, trivial⟩ }

theorem ofEvaluating_tracks {α : Type} {Q : α → Prop} {work work' : Evaluating α}
    (h : pass.context.Marks (pass.SoundMark strict) others Q work work') :
    pass.Tracks strict others Q (ofEvaluating work) (ofEvaluating work') := by
  obtain ⟨a, log, ha, hsound, hrun, hrun'⟩ := h
  have hlog {work : Evaluating α} (r : Replay) (hrun : ∀ s, work.run s = (a, log.foldl .mark s)) :
      (ofEvaluating work).run r = (a, (log.map .mark).foldl leave r) := by
    have hstep : (ofEvaluating work).run r = ((work.run { record := r.record }).1,
          { r with record := (work.run { record := r.record }).2.record }) := rfl
    rw [hstep, hrun, foldl_leave_marks, Evaluation.foldl_mark log { record := {} } r.record]
  exact ⟨a, log.map .mark, ha, forall_mem_map.mpr hsound, fun r => hlog r hrun,
    fun hsame r => hlog r (hrun' fun m hm => hsame _ (mem_map_of_mem hm))⟩

theorem env_formed (hstate : state.Formed strict) : (pass.env state).Formed strict := by
  intro node t ht
  obtain ⟨key, -, hkey⟩ := bind_eq_some_iff.mp ht
  exact hstate key t hkey

section

variable (hpass : pass.Formed strict) (hlacks : pass.context.LacksConstants others)
  {state : TypeState} (hstate : state.Formed strict)
include hpass hlacks hstate

/-- An evaluation leaves the same entries behind for every record. -/
theorem evaluate_log (limits : Limits) (e : Expr NodeId) :
    ∃ (out : Evaluated) (log : List Mark), out.Formed strict ∧
      (∀ m ∈ log, m.Sound strict pass.context ∧ m.In e.labels) ∧
      (∀ record, pass.context.evaluate (pass.env state) record e = (out, log.foldl .mark record)) ∧
      ((∀ m ∈ log, Mark.Same pass.facts others m) → ∀ record,
        (pass.context.withFacts others limits).evaluate (pass.env state) record e =
          (out, log.foldl .mark record)) := by
  have htracks : pass.context.Tracks strict others (Ty.Formed strict)
      (pass.context.evalExpr (pass.env state) e)
      ((pass.context.withFacts others limits).evalExpr (pass.env state) e) :=
    evalExpr_tracks ⟨hpass.context, hlacks, env_formed hstate⟩ e
  obtain ⟨t, log, ht, hsound, hrun, hrun'⟩ := htracks
  refine ⟨evaluated t log, log, ⟨ht, ?_⟩,
    fun m hm => ⟨hsound m hm, in_labels_of_run hrun m hm⟩, evaluate_of_run hrun,
    fun hsame => evaluate_of_run (hrun' hsame)⟩
  exact Evaluation.foldl_mark_refinements hsound (by simp)

variable {e : Expr NodeId}

theorem evaluate_tracks (he : ∀ n ∈ e.labels, pass.Mentions n) :
    pass.Tracks strict others (Evaluated.Formed strict) (pass.evaluate state e)
      ((pass.withFacts others limits).evaluate state e) := by
  obtain ⟨out, log, hout, hsound, hrun, hrun'⟩ := evaluate_log hpass hlacks hstate limits e
  have hstep (pass : Pass) (r : Replay) : (pass.evaluate state e).run r =
      ((pass.context.evaluate (pass.env state) r.record e).1,
        { r with record := (pass.context.evaluate (pass.env state) r.record e).2 }) := rfl
  refine ⟨out, log.map .mark, hout,
    forall_mem_map.mpr fun m hm => (hsound m hm).imp_right (·.types he), ?_, ?_⟩
  · intro r
    rw [hstep, hrun, foldl_leave_marks]
  · intro hsame r
    rw [hstep, withFacts_context, withFacts_env,
      hrun' fun m hm => hsame _ (mem_map_of_mem hm), foldl_leave_marks]

/-- Only the facts that are noted are left behind. -/
theorem peek_tracks (e : Expr NodeId) :
    pass.Tracks strict others (Evaluated.Formed strict) (pass.peek state e)
      ((pass.withFacts others limits).peek state e) := by
  obtain ⟨out, log, hout, hsound, hrun, hrun'⟩ := evaluate_log hpass hlacks hstate limits e
  let kept : List Footprint := (log.filter Mark.isNote).map .mark
  have hlog {pass : Pass} (r : Replay) (hrun : ∀ record,
      pass.context.evaluate (pass.env state) record e = (out, log.foldl mark record)) :
      (pass.peek state e).run r = (out, kept.foldl leave r) := by
    have hstep : (pass.peek state e).run r =
        let result := pass.context.evaluate (pass.env state) (.ofConfig pass.config false) e
        (result.1, { r with
          record := { r.record with reads := r.record.reads.merge result.2.reads } }) := rfl
    have hreads : r.record.reads.merge (log.foldl mark (.ofConfig pass.config false)).reads =
          log.foldl Reads.mark r.record.reads := by
      rw [foldl_mark_reads, Reads.merge_foldl_mark]
      rfl
    rw [hstep, hrun, foldl_leave_marks, foldl_mark_notes, ← hreads]
  refine ⟨out, kept, hout, ?_, fun r => hlog r hrun, fun hsame r => hlog r (hrun' ?_)⟩
  · refine forall_mem_map.mpr fun m hm => ?_
    obtain ⟨hm, hnote⟩ := mem_filter.mp hm
    exact ⟨(hsound m hm).1, by cases m <;> trivial⟩
  · intro m hm
    cases m with
    | note d t => exact hsame _ (mem_map_of_mem (mem_filter.mpr ⟨hm, rfl⟩))
    | _ => trivial

omit hpass hlacks in
theorem after_formed {out : Evaluated} (hout : out.Formed strict) :
    (pass.after state out).Formed strict := by
  refine foldl_invariant ?_ (foldl_invariant ?_ hstate)
  · intro state hstate call _
    unfold afterCall
    split
    · exact hstate
    · split
      · exact foldl_invariant (fun _ h k _ => h.widenAt 0 k) (hstate.filter _)
      · exact hstate.filter _
  · intro state hstate p hp
    unfold refined
    split
    · exact hstate.insert _ (hout.2 p hp)
    · exact hstate

theorem run_tracks (he : ∀ n ∈ e.labels, pass.Mentions n) : pass.Tracks strict others
      (fun result : Ty × TypeState => result.1.Formed strict ∧ result.2.Formed strict)
      (pass.run state e) ((pass.withFacts others limits).run state e) :=
  (evaluate_tracks hpass hlacks hstate he).bind fun _ hout =>
    .pure ⟨hout.1, after_formed hstate hout⟩

/-! ### Writes -/

omit hlacks hstate in
theorem caughtType_formed (cls? : Option (Path NodeId)) : (pass.caughtType cls?).Formed strict := by
  have hfound : ∀ d ∈ (cls?.map fun path => pass.program.lookup path.id).getD [], strict.ok d := by
    cases cls? with
    | none => simp
    | some path => exact hpass.context.lookup path.id
  simp only [caughtType]
  split
  · exact .ofTags _
  · refine .unionAll ?_
    intro t ht
    obtain ⟨c, hc, rfl⟩ := mem_map.mp ht
    exact Program.instanceType_formed _ (hfound c (mem_filter.mp hc).1)

variable {node : NodeId} {source : Written}

theorem writtenType_tracks (h : ∀ n ∈ node :: source.labels, pass.Mentions n) :
    pass.Tracks strict others
      (fun result : Ty × TypeState => result.1.Formed strict ∧ result.2.Formed strict)
      (pass.writtenType state node source)
      ((pass.withFacts others limits).writtenType state node source) := by
  obtain ⟨hnode, hsource⟩ := forall_mem_cons.mp h
  cases source with
  | value e => exact run_tracks hpass hlacks hstate hsource
  | compound op target value =>
    obtain ⟨htarget, hvalue⟩ := forall_mem_append.mp hsource
    refine (run_tracks hpass hlacks hstate htarget).bind ?_
    rintro ⟨t, state⟩ ⟨ht, hstate⟩
    refine (run_tracks hpass hlacks hstate hvalue).bind ?_
    rintro ⟨v, state⟩ ⟨hv, hstate⟩
    exact .pure ⟨.binary op t v, hstate⟩
  | absent => exact .pure ⟨.ofTags _, hstate⟩
  | caught cls? =>
    have hcaught := caughtType_formed hpass cls?
    refine (ofEvaluating_tracks (Mark.traced (.node ..) ⟨hcaught, hnode⟩)).bind ?_
    intro _ _
    exact .pure ⟨hcaught, hstate⟩
  | element container position value =>
    obtain ⟨hcontainer, hparts⟩ := forall_mem_append.mp hsource
    obtain ⟨hposition, hvalue⟩ := forall_mem_append.mp hparts
    refine (run_tracks hpass hlacks hstate hcontainer).bind ?_
    rintro ⟨c, state⟩ ⟨hc, hstate⟩
    refine (run_tracks hpass hlacks hstate hposition).bind ?_
    rintro ⟨i, state⟩ ⟨hi, hstate⟩
    refine (run_tracks hpass hlacks hstate hvalue).bind fun ⟨v, state⟩ ⟨hv, hstate⟩ => ?_
    exact .pure ⟨.storeElement hc hi hv, hstate⟩
  | returned value? =>
    cases value? with
    | none => exact .pure ⟨.ofTags _, hstate⟩
    | some e => exact run_tracks hpass hlacks hstate hsource

end

section

variable (hpass : pass.Formed strict) {t value : Ty}
include hpass

theorem declaredType?_formed (d : DeclId) (h : pass.program.declaredType? d = some t) :
    t.Formed strict :=
  Context.declaredType?_formed hpass.context d h

theorem expectation?_formed {key : Key} {declared : Ty} {message : String}
    (h : pass.expectation? key value = some (declared, message)) : declared.Formed strict := by
  simp only [expectation?] at h
  split at h
  · obtain ⟨t, ht, heq⟩ := bind_eq_some_iff.mp h
    obtain ⟨rfl, -⟩ := Prod.mk.inj (some.inj heq)
    exact declaredType?_formed hpass _ ht
  · obtain ⟨t, ht, heq⟩ := bind_eq_some_iff.mp h
    obtain ⟨rfl, -⟩ := Prod.mk.inj (some.inj heq)
    exact declaredType?_formed hpass _ ht
  · simp at h

theorem checkedType_tracks (node : NodeId) (key : Key) (hvalue : value.Formed strict) :
    pass.context.Marks (pass.SoundMark strict) others (Ty.Formed strict)
      (pass.checkedType node key value)
      ((pass.withFacts others limits).checkedType node key value) := by
  have hexpectation : (pass.withFacts others limits).expectation? = pass.expectation? := rfl
  simp only [checkedType, hexpectation]
  split
  · exact .pure hvalue
  · next declared message h =>
      have hdeclared := expectation?_formed hpass h
      refine .choice (fun _ => .pure ?_) ?_
      · exact iteInduction (fun _ => hdeclared) fun _ => .meet hpass.context.table hvalue hdeclared
      · intro _
        exact (Mark.traced (.diagnose ..) (hpass.allows.diagnose ..)).bind fun _ _ =>
          .pure hdeclared

theorem keptType_tracks (node : NodeId) (key : Key) (source : Written)
    (hvalue : value.Formed strict) :
    pass.Tracks strict others (Ty.Formed strict) (pass.keptType node key source value)
      ((pass.withFacts others limits).keptType node key source value) := by
  cases source with
  | absent => exact .pure hvalue
  | _ => exact ofEvaluating_tracks (checkedType_tracks hpass node key hvalue)

omit hpass in
theorem noteWrite_tracks (key : Key) (ht : t.Formed strict) :
    pass.Tracks strict others (fun _ => True) (pass.noteWrite key t)
      ((pass.withFacts others limits).noteWrite key t) := by
  let left : Footprint :=
    if key = Graph.resultKey then .returned t
    else .written (pass.graph.identities.nonlocalVars pass.program.toDeclarations key) t
  have hrun (r : Replay) : (pass.noteWrite key t).run r = ((), r.leave left) := by
    cases hrecording : r.record.recording <;> by_cases hkey : key = Graph.resultKey <;>
      simp [noteWrite, isRecording, left, leave, hrecording, hkey] <;> rfl
  refine ⟨(), [left], trivial, ?_, hrun, fun _ => hrun⟩
  rw [forall_mem_singleton]
  refine iteInduction (motive := Footprint.Sound strict pass) (fun _ => ht) fun _ => ⟨ht, ?_⟩
  exact fun d hd => of_decide_eq_true (mem_filter.mp hd).2

end

section

variable (hpass : pass.Formed strict) (hlacks : pass.context.LacksConstants others)
  {state : TypeState} (hstate : state.Formed strict)
include hpass hlacks hstate

theorem write_tracks {node : NodeId} {source : Written}
    (h : ∀ n ∈ node :: source.labels, pass.Mentions n) (key : Key) :
    pass.Tracks strict others (TypeState.Formed strict) (pass.write state node key source)
      ((pass.withFacts others limits).write state node key source) := by
  refine (writtenType_tracks hpass hlacks hstate h).bind ?_
  rintro ⟨value, state⟩ ⟨hvalue, hstate⟩
  refine (keptType_tracks hpass node key source hvalue).bind ?_
  intro t ht
  refine (noteWrite_tracks key ht).bind fun _ _ => .pure ?_
  exact iteInduction (fun _ => hstate.filter _) fun _ => (hstate.filter _).insert key ht

end

/-! ### Conditions -/

/-- The state of an outcome, if it is possible, is formed. -/
def MaybeState (strict : Demands) (state? : Option TypeState) : Prop :=
  ∀ state, state? = some state → state.Formed strict

theorem maybeState_some (h : state.Formed strict) :
    MaybeState strict (some state) := fun _ heq => some.inj heq ▸ h

theorem narrow_formed (hstate : state.Formed strict) {key? : Option Key} {current narrowed : Ty}
    (hnarrowed : narrowed.Formed strict) :
    MaybeState strict (pass.narrow key? current narrowed state) := by
  unfold narrow
  split
  · exact maybeState_some hstate
  · apply iteInduction (fun _ => maybeState_some hstate)
    intro _
    apply iteInduction (fun _ => by simp [MaybeState])
    intro _
    exact maybeState_some (hstate.insert _ hnarrowed)

theorem outcomes_formed {test : Ty} {edge : Bool → Option TypeState}
    (hedge : ∀ outcome, MaybeState strict (edge outcome)) :
    MaybeState strict (outcomes test edge).1 ∧ MaybeState strict (outcomes test edge).2 := by
  have hpossible (outcome : Bool) : MaybeState strict
      (if test.truthiness = some (!outcome) then none else edge outcome) :=
    iteInduction (fun _ => by simp [MaybeState]) fun _ => hedge outcome
  exact ⟨hpossible true, hpossible false⟩

section

variable (hpass : pass.Formed strict) {state : TypeState} (hstate : state.Formed strict)
include hpass hstate

theorem equalsEdge_formed {l r : Ty} (hl : l.Formed strict) (hr : r.Formed strict)
    (leftKey? rightKey? : Option Key) (same : Bool) :
    MaybeState strict (pass.equalsEdge state leftKey? rightKey? l r same) := by
  have hrestrict {t u : Ty} (ht : t.Formed strict) (hu : u.Formed strict) :
      ((if same then Ty.narrowEq pass.table else Ty.narrowNe pass.table) t u).Formed strict := by
    cases same with
    | true => exact .narrowEq hpass.context.table ht hu
    | false => exact .narrowNe hpass.context.table t hu
  intro final hfinal
  obtain ⟨next, hnext, hfinal⟩ := bind_eq_some_iff.mp hfinal
  have hnext := narrow_formed hstate (hrestrict hr hl) next hnext
  exact narrow_formed hnext (hrestrict hl hr) final hfinal

theorem instanceEdge_formed {value target : Ty} (hvalue : value.Formed strict)
    (htarget : target.Formed strict) (key? : Option Key) (outcome : Bool) :
    MaybeState strict (pass.instanceEdge state key? value target outcome) := by
  have hparts : (pass.partsNotBelow value target).Formed strict := by
    refine .unionAll ?_
    intro part hpart
    obtain ⟨tag, -, rfl⟩ := mem_map.mp (mem_filter.mp hpart).1
    exact hvalue.part tag
  refine iteInduction (fun _ => maybeState_some hstate) fun _ => narrow_formed hstate ?_
  exact iteInduction (fun _ => .meet hpass.context.table hvalue htarget) fun _ => hparts

theorem branch_tracks (hlacks : pass.context.LacksConstants others) {condition : Condition}
    (h : ∀ n ∈ condition.labels, pass.Mentions n)
    (hclasses : ∀ whole e classes key?, condition = .instanceOf whole e classes key? →
      ∀ c ∈ classes, strict.ok c) :
    pass.Tracks strict others (fun states : Option TypeState × Option TypeState =>
        MaybeState strict states.1 ∧ MaybeState strict states.2)
      (pass.branch state condition) ((pass.withFacts others limits).branch state condition) := by
  cases condition with
  | equals whole? left right equal leftKey? rightKey? =>
    obtain ⟨hwhole, hparts⟩ := forall_mem_append.mp h
    cases whole? with
    | some whole =>
      refine (evaluate_tracks hpass hlacks hstate hwhole).bind ?_
      intro out hout
      refine (peek_tracks hpass hlacks hstate left).bind ?_
      intro l hl
      refine (peek_tracks hpass hlacks hstate right).bind fun r hr => .pure ?_
      exact outcomes_formed fun outcome =>
        equalsEdge_formed hpass (after_formed hstate hout) hl.1 hr.1 _ _ _
    | none =>
      refine (peek_tracks hpass hlacks hstate left).bind fun l hl => ?_
      refine (run_tracks hpass hlacks (after_formed hstate hl)
        (forall_mem_append.mp hparts).2).bind ?_
      rintro ⟨r, state⟩ ⟨hr, hstate⟩
      exact .pure (outcomes_formed fun outcome => equalsEdge_formed hpass hstate hl.1 hr _ _ _)
  | truthy e key? =>
    refine (run_tracks hpass hlacks hstate h).bind ?_
    rintro ⟨t, state⟩ ⟨ht, hstate⟩
    exact .pure (outcomes_formed fun outcome =>
      narrow_formed hstate (.narrowTruth hpass.context.table outcome ht))
  | instanceOf whole e classes key? =>
    refine (evaluate_tracks hpass hlacks hstate (forall_mem_append.mp h).1).bind ?_
    intro out hout
    refine (peek_tracks hpass hlacks hstate e).bind fun value hvalue => .pure ?_
    refine outcomes_formed fun outcome =>
      instanceEdge_formed hpass (after_formed hstate hout) hvalue.1 (.unionAll ?_) _ _
    intro t ht
    obtain ⟨c, hc, rfl⟩ := mem_map.mp ht
    exact Program.instanceType_formed _ (hclasses whole e classes key? rfl c hc)
  | dispatch => exact .pure ⟨maybeState_some hstate, maybeState_some hstate⟩

end

/-! ### Blocks -/

/-- The states of edges are formed. -/
def EdgesFormed (strict : Demands) (edges : Edges) : Prop := ∀ e ∈ edges, e.2.Formed strict

theorem edge_formed (target? : Option BlockId) {state? : Option TypeState}
    (hstate : MaybeState strict state?) : EdgesFormed strict (edge target? state?) := by
  cases target? <;> cases state? <;> simp_all [edge, EdgesFormed, MaybeState]

theorem EdgesFormed.append {edges more : Edges} (h : EdgesFormed strict edges)
    (hmore : EdgesFormed strict more) : EdgesFormed strict (edges ++ more) :=
  forall_mem_append.mpr ⟨h, hmore⟩

section

variable (hpass : pass.Formed strict) (hlacks : pass.context.LacksConstants others)
  {state : TypeState}
include hpass hlacks

theorem initialType_tracks (key : Key) :
    pass.context.Marks (pass.SoundMark strict) others (Ty.MaybeFormed strict)
      (pass.initialType key) ((pass.withFacts others limits).initialType key) := by
  simp only [initialType, withFacts_graph]
  split
  · next d h =>
      exact (valueType_tracks hpass.allows hlacks (hpass.decls key d h)).bind
        fun t ht => .pure (Ty.maybeFormed_some.mpr ht)
  · next ds h =>
      exact (valueTypes_tracks hpass.allows hlacks (hpass.sets key ds h)).bind
        fun t ht => .pure (Ty.maybeFormed_some.mpr ht)
  · exact .pure Ty.maybeFormed_none

theorem addInitial_tracks (hstate : state.Formed strict) (key : Key) :
    pass.context.Marks (pass.SoundMark strict) others (TypeState.Formed strict)
      (pass.addInitial state key) ((pass.withFacts others limits).addInitial state key) := by
  refine (initialType_tracks hpass hlacks key).bind ?_
  intro initial? hinitial
  cases initial? with
  | none => exact .pure hstate
  | some t => exact .pure (hstate.insert key (hinitial t rfl))

theorem seed_tracks :
    pass.context.Marks (pass.SoundMark strict) others (TypeState.Formed strict) pass.seed
      (pass.withFacts others limits).seed := by
  refine .foldlM (fun state hstate key _ => addInitial_tracks hpass hlacks hstate key) ?_
  refine foldl_invariant ?_
    (by simp [TypeState.Formed, show ∀ k, (∅ : TypeState).get? k = none from fun _ => rfl])
  intro state hstate param _
  exact hstate.insert param.1 (declaredOrAny_formed hpass.context param.2)

theorem read_tracks (hstate : state.Formed strict) {node : NodeId} (hnode : pass.Mentions node)
    (key : Key) :
    pass.context.Marks (pass.SoundMark strict) others (TypeState.Formed strict)
      (pass.read state node key) ((pass.withFacts others limits).read state node key) := by
  refine .choice (fun _ => (Traced.pure hstate).bind ?_)
    fun _ => (addInitial_tracks hpass hlacks hstate key).bind ?_
  -- Whether or not the state had to be extended, the type is recorded if there is one.
  all_goals
    intro state hstate
    dsimp only
    split
    · next t ht =>
        exact (Mark.traced (.node ..) ⟨hstate key t ht, hnode⟩).bind fun _ _ => .pure hstate
    · exact .pure hstate

theorem replayEvents_tracks (b : FlowBlock) {events : List Event}
    (hevents : ∀ e ∈ events, ∃ b, e ∈ (pass.graph.block b).events)
    (hstate : state.Formed strict) :
    pass.Tracks strict others (EdgesFormed strict) (pass.replayEvents b state events)
      ((pass.withFacts others limits).replayEvents b state events) := by
  induction events generalizing state with
  | nil => exact .pure (edge_formed _ (maybeState_some hstate))
  | cons event events ih =>
    obtain ⟨⟨source, hevent⟩, hevents⟩ := forall_mem_cons.mp hevents
    have ih {state : TypeState} (hstate : state.Formed strict) := ih hevents hstate
    have hlabels : ∀ n ∈ event.labels, pass.Mentions n := fun n hn => ⟨source, event, hevent, hn⟩
    cases event with
    | read node key =>
      exact (ofEvaluating_tracks (read_tracks hpass hlacks hstate (hlabels node mem_cons_self)
        key)).bind fun _ h => ih h
    | write node key source =>
      exact (write_tracks hpass hlacks hstate hlabels key).bind fun _ h => ih h
    | run node e =>
      exact (run_tracks hpass hlacks hstate (forall_mem_cons.mp hlabels).2).bind fun _ h => ih h.2
    | forget key => exact ih (hstate.filter _)
    | mayThrow node =>
      exact (ih hstate).bind fun edges hedges =>
        .pure (.append (edge_formed _ (maybeState_some hstate)) hedges)
    | test node condition =>
      have hclasses whole e classes key? (h : condition = .instanceOf whole e classes key?) :=
        hpass.tests source node whole e classes key? (h ▸ hevent)
      refine (branch_tracks hpass hstate hlacks (forall_mem_cons.mp hlabels).2 hclasses).bind
        fun states hstates => .pure ?_
      exact .append (edge_formed _ hstates.1) (edge_formed _ hstates.2)

/-- Every replay of a block from a formed state sends the same formed states. -/
theorem replay_tracks (b : BlockId) (hstate : state.Formed strict) :
    pass.Tracks strict others (EdgesFormed strict) (pass.replay b state)
      ((pass.withFacts others limits).replay b state) :=
  replayEvents_tracks hpass hlacks _ (fun _ he => ⟨b, he⟩) hstate

end

end Pass

end TypeFlow
