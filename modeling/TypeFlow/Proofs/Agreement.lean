import TypeFlow.Proofs.Fixpoint

/-!
# Runs that agree

A run that propagates types through a graph notes the facts that it reads. What replays leave behind
is followed through the whole run: the start, the visits of blocks and the last replays, which
record. Another set of facts gives the same run when it agrees on the noted facts, and holds no fact
about a constant with a declared type about which there was none.
-/

namespace TypeFlow

open NumMap Pass Replaying

theorem TypeState.formed_of_nothing (state : TypeState) : state.Formed False :=
  fun _ t _ => .of_nothing t

/-- Every pass is formed when nothing is asked for. -/
theorem Pass.formed_of_nothing (pass : Pass) : pass.Formed False where
  context := pass.context.formed_of_nothing
  decls _ _ _ := trivial
  sets _ _ _ _ _ := trivial
  tests _ _ _ _ _ _ _ _ _ := trivial

namespace Replay

/-- A fact about the declaration has been noted. -/
def HasRead (r : Replay) (d : DeclId) : Prop := (r.record.reads.get? d).isSome

variable {r : Replay} {d : DeclId}

theorem leave_reads (r : Replay) (f : Footprint) : (r.leave f).record.reads =
    match f with
    | .mark m => r.record.reads.mark m
    | _ => r.record.reads := by
  cases f with
  | mark m => exact Record.foldl_mark_reads [m] r.record
  | returned t | written vars t => simp only [leave]; split <;> rfl

theorem HasRead.leave (h : r.HasRead d) (f : Footprint) : (r.leave f).HasRead d := by
  unfold HasRead at h ⊢
  rw [leave_reads]
  cases f with
  | mark m =>
    cases m with
    | note e t =>
      obtain ⟨kind, hkind⟩ := Option.isSome_iff_exists.mp h
      simp only [Reads.mark, Reads.get?_note, hkind]
      split <;> rfl
    | _ => exact h
  | _ => exact h

theorem hasRead_leave_note (r : Replay) (d : DeclId) (t : Ty) :
    (r.leave (.mark (.note d t))).HasRead d := by
  unfold HasRead
  rw [leave_reads]
  simp only [Reads.mark, Reads.get?_note]
  cases r.record.reads.get? d <;> rfl

theorem hasRead_of_note {log : List Footprint} {t : Ty} (h : .mark (.note d t) ∈ log) (r : Replay) :
    (log.foldl Replay.leave r).HasRead d :=
  foldl_of_mem (P := fun r : Replay => r.HasRead d) h (fun r => hasRead_leave_note r d t)
    (fun _ f hr => hr.leave f) r

end Replay

namespace Pass

/-- What each step of a replay keeps, if it leaves formed types behind. -/
def Keeps (strict : Demands) (pass : Pass) (P : Replay → Prop) : Prop :=
  ∀ r f, P r → Footprint.Sound strict pass f → P (r.leave f)

variable {strict : Demands} {pass : Pass} {others : Facts} {P : Replay → Prop}
  {limits : Limits} {s : Solving}

theorem keeps_hasRead (pass : Pass) (d : DeclId) : pass.Keeps strict fun r => r.HasRead d :=
  fun _ f h _ => h.leave f

namespace Tracks

variable {α : Type} {Q : α → Prop} {m m' : Replaying α} {r : Replay}

theorem keeps (h : pass.Tracks strict others Q m m') (hP : pass.Keeps strict P) (hr : P r) :
    P (m.run r).2 := by
  obtain ⟨a, log, -, hlog, hrun, -⟩ := h
  rw [hrun]
  exact foldl_invariant (fun r hr f hf => hP r f hr (hlog f hf)) hr

/-- A step does the same for other facts that agree on all that has been noted after it. -/
theorem run_eq (h : pass.Tracks strict others Q m m')
    (hsame : ∀ d, (m.run r).2.HasRead d → pass.facts.SameAt others d) : m'.run r = m.run r := by
  obtain ⟨a, log, -, -, hrun, hrun'⟩ := h
  rw [hrun] at hsame ⊢
  refine hrun' ?_ r
  intro f hf
  cases f with
  | mark m =>
    cases m with
    | note d t => exact hsame d (Replay.hasRead_of_note hf r)
    | _ => trivial
  | _ => trivial

end Tracks

variable {state : TypeState} {b : BlockId}

/-- A replay of a block, compared with the replay for other facts. -/
theorem replay_compares (hpass : pass.Formed strict)
    (hlacks : pass.context.LacksConstants others) (limits : Limits) (b : BlockId)
    (hstate : state.Formed strict) :
    pass.Tracks strict others (fun _ => True) (pass.replay b state)
      ((pass.withFacts others limits).replay b state) :=
  (replay_tracks hpass hlacks b hstate).mono fun _ _ => trivial

theorem foldl_send_replay (depth : Nat) (edges : Edges) (s : Solving) :
    (edges.foldl (Solving.send depth) s).replay = s.replay := by
  refine foldl_invariant (P := fun acc : Solving => acc.replay = s.replay) ?_ rfl
  intro acc hacc e _
  unfold Solving.send
  split
  · exact hacc
  · split
    · exact hacc
    · exact hacc

theorem visit_replay (hstate : s.states.get? b = some state) :
    (pass.visit s b).replay = ((pass.replay b state).run s.replay).2 := by
  simp only [visit, hstate]
  exact foldl_send_replay _ _ _

theorem visit_keeps (hpass : pass.Formed strict) (hP : pass.Keeps strict P)
    (hstates : ∀ b state, s.states.get? b = some state → state.Formed strict) (hs : P s.replay)
    (b : BlockId) : P (pass.visit s b).replay := by
  cases hstate : s.states.get? b with
  | none =>
    rw [visit_of_none hstate]
    exact hs
  | some state =>
    rw [visit_replay hstate]
    exact (replay_compares hpass pass.lacksConstants_self { visits := 0 } b
      (hstates b state hstate)).keeps hP hs

/-- A fact that has been noted stays noted. -/
theorem visit_hasRead {d : DeclId} (hs : s.replay.HasRead d) (b : BlockId) :
    (pass.visit s b).replay.HasRead d :=
  visit_keeps pass.formed_of_nothing (pass.keeps_hasRead d)
    (fun _ state _ => state.formed_of_nothing) hs b

theorem visit_agree (hlacks : pass.context.LacksConstants others)
    (hsame : ∀ d, (pass.visit s b).replay.HasRead d → pass.facts.SameAt others d) :
    (pass.withFacts others limits).visit s b = pass.visit s b := by
  cases hstate : s.states.get? b with
  | none => rw [visit_of_none hstate, visit_of_none hstate]
  | some state =>
    have hrun : ((pass.withFacts others limits).replay b state).run s.replay =
        (pass.replay b state).run s.replay := by
      refine (replay_compares pass.formed_of_nothing hlacks limits b
        state.formed_of_nothing).run_eq fun d hd => hsame d ?_
      rwa [visit_replay hstate]
    simp only [visit, hstate, hrun]
    rfl

theorem solveWithin_agree (hlacks : pass.context.LacksConstants others) {order : List BlockId}
    {n : Nat} {final : Solving} (h : pass.solveWithin order n s = .ok final)
    (hsame : ∀ d, final.replay.HasRead d → pass.facts.SameAt others d) :
    (pass.withFacts others limits).solveWithin order n s = .ok final := by
  induction n generalizing s with
  | zero =>
    cases hfind : order.find? s.pending.contains with
    | none => rw [solveWithin_of_none hfind] at h ⊢; exact h
    | some b => simp [solveWithin_zero hfind] at h
  | succ n ih =>
    cases hfind : order.find? s.pending.contains with
    | none => rw [solveWithin_of_none hfind] at h ⊢; exact h
    | some b =>
      rw [solveWithin_of_some hfind] at h ⊢
      rw [visit_agree hlacks fun d hd => hsame d ?_]
      · exact ih h
      · exact (solveWithin_invariant (P := fun s => s.replay.HasRead d)
          (fun s b hs _ _ => visit_hasRead hs b) hd h).1

/-! ### The start -/

/-- The start is a step of a replay. -/
theorem start_eq (pass : Pass) : pass.start =
    let out := (ofEvaluating pass.seed).run { record := .ofConfig pass.config false }
    { states := ofList [(Graph.entry, out.1)]
      pending := [Graph.entry]
      replay := out.2 } := rfl

theorem seed_compares (hpass : pass.Formed strict) (hlacks : pass.context.LacksConstants others)
    (limits : Limits) :
    pass.Tracks strict others (fun _ => True) (ofEvaluating pass.seed)
      (ofEvaluating (pass.withFacts others limits).seed) :=
  (ofEvaluating_tracks (seed_tracks hpass hlacks)).mono fun _ _ => trivial

theorem start_keeps (hpass : pass.Formed strict) (hP : pass.Keeps strict P)
    (hinit : P { record := .ofConfig pass.config false }) :
    P pass.start.replay :=
  (seed_compares hpass pass.lacksConstants_self { visits := 0 }).keeps hP hinit

theorem start_agree (hlacks : pass.context.LacksConstants others)
    (hsame : ∀ d, pass.start.replay.HasRead d → pass.facts.SameAt others d) :
    (pass.withFacts others limits).start = pass.start := by
  have hrun : (ofEvaluating (pass.withFacts others limits).seed).run
      { record := .ofConfig (pass.withFacts others limits).config false } =
        (ofEvaluating pass.seed).run { record := .ofConfig pass.config false } :=
    (seed_compares pass.formed_of_nothing hlacks limits).run_eq fun d hd =>
      hsame d (start_eq pass ▸ hd)
  simp only [start_eq, hrun]

/-! ### The last replays -/

theorem recordBlocks_compare (hpass : pass.Formed strict)
    (hlacks : pass.context.LacksConstants others) (limits : Limits) {states : NumMap TypeState}
    (hstates : ∀ b state, states.get? b = some state → state.Formed strict)
    (order : List BlockId) :
    pass.Tracks strict others (fun _ => True) (order.forM (pass.recordBlock states))
      (order.forM ((pass.withFacts others limits).recordBlock states)) := by
  refine .forM fun b _ => ?_
  unfold recordBlock
  cases hstate : states.get? b with
  | none => exact .pure trivial
  | some state =>
    exact (replay_compares hpass hlacks limits b (hstates b state hstate)).bind fun _ _ =>
      .pure trivial

theorem recorded_of_keeps (hpass : pass.Formed strict) (hP : pass.Keeps strict P)
    (hstates : ∀ b state, s.states.get? b = some state → state.Formed strict)
    (hopening : P { s.replay with record := { s.replay.record with recording := true } }) :
    P (pass.recorded s) :=
  (recordBlocks_compare hpass pass.lacksConstants_self { visits := 0 } hstates _).keeps hP hopening

/-- What steps keep, whatever they leave behind. -/
theorem recorded_keeps (hP : pass.Keeps False P)
    (hopening : P { s.replay with record := { s.replay.record with recording := true } }) :
    P (pass.recorded s) :=
  recorded_of_keeps pass.formed_of_nothing hP (fun _ state _ => state.formed_of_nothing) hopening

theorem recorded_agree (hlacks : pass.context.LacksConstants others)
    (hsame : ∀ d, (pass.recorded s).HasRead d → pass.facts.SameAt others d) :
    (pass.withFacts others limits).recorded s = pass.recorded s :=
  congrArg Prod.snd ((recordBlocks_compare pass.formed_of_nothing hlacks limits
    (fun _ state _ => state.formed_of_nothing) _).run_eq hsame)

/-- What steps keep, and what is kept when recording begins, holds at the end of a run. -/
theorem recorded_of_solve (hpass : pass.Formed strict) (hP : pass.Keeps strict P)
    (hopening : ∀ r : Replay, P r → P { r with record := { r.record with recording := true } })
    (hinit : P { record := .ofConfig pass.config false }) (hsolve : pass.solve = .ok s) :
    P (pass.recorded s) := by
  obtain ⟨hformed, hs⟩ := (solveWithin_invariant
    (P := fun s => s.Formed strict pass.graph.order ∧ P s.replay)
    (fun s b hs hb _ => ⟨visit_formed hpass hs.1 hb, visit_keeps hpass hP hs.1.states hs.2 b⟩)
    ⟨start_formed hpass, start_keeps hpass hP hinit⟩ hsolve).1
  exact recorded_of_keeps hpass hP hformed.states (hopening _ hs)

theorem solve_agree (hlacks : pass.context.LacksConstants others) (hsolve : pass.solve = .ok s)
    (hsame : ∀ d, s.replay.HasRead d → pass.facts.SameAt others d) :
    (pass.withFacts others pass.config.maxBlockVisits).solve = .ok s := by
  unfold solve
  rw [start_agree hlacks fun d hd => hsame d ?_]
  · exact solveWithin_agree hlacks hsolve hsame
  · exact (solveWithin_invariant (P := fun s => s.replay.HasRead d)
      (fun s b hs _ _ => visit_hasRead hs b) hd hsolve).1

end Pass

/-- Noted facts are all that a run depends on, except for constants with a declared type: facts that
agree on all that a run has noted give the same run, if they hold nothing about such a constant
about which nothing was held before. -/
theorem propagate_eq_of_sameAt (pass : Pass) (others : Facts) {out : Propagation}
    (hout : pass.propagate = .ok out)
    (hsame : ∀ d kind, out.reads.get? d = some kind → pass.facts.SameAt others d)
    (hlacks : pass.context.LacksConstants others) :
    propagate { pass with facts := others } = .ok out := by
  change (pass.withFacts others pass.config.maxBlockVisits).propagate = .ok out
  cases hskipped : pass.isSkipped with
  | true =>
    rw [propagate_of_skipped hskipped] at hout
    rw [← hout]
    exact propagate_of_skipped hskipped
  | false =>
    obtain ⟨s, hsolve, rfl⟩ := solve_of_propagate hskipped hout
    have hnoted (d : DeclId) (hd : (pass.recorded s).HasRead d) : pass.facts.SameAt others d := by
      obtain ⟨kind, hkind⟩ := Option.isSome_iff_exists.mp hd
      exact hsame d kind hkind
    have hsolve' := solve_agree hlacks hsolve fun d hd =>
      hnoted d (recorded_keeps (pass.keeps_hasRead d) hd)
    have hfound : (pass.withFacts others pass.config.maxBlockVisits).found s = pass.found s := by
      simp only [found, recorded_agree hlacks hnoted]
    exact hfound ▸ propagate_of_solve hskipped hsolve'

/-- A fact about the result of the function, which the function does not read, makes no difference.
-/
theorem propagate_eq_of_sameAt_returns : ∃ graph out, sharedVar.program.graph 2 = .ok graph ∧
    (sharedVarPass (Ty.number 3) graph).propagate = .ok out ∧
    out.reads.get? 1 = some .value ∧
    propagate { sharedVarPass (Ty.number 3) graph with
      facts := { vars := ofList [(1, Ty.number 3)]
                 returns := ofList [(2, Ty.any)] } } = .ok out := by
  obtain ⟨graph, hgraph, out, hout, hreads⟩ : ∃ graph, sharedVar.program.graph 2 = .ok graph ∧
      ∃ out, (sharedVarPass (Ty.number 3) graph).propagate = .ok out ∧
        out.reads.entries = [(1, .value)] := by decide +kernel
  have hread (d : DeclId) (kind : ReadKind) :
      out.reads.get? d = some kind ↔ (d, kind) = (1, .value) := by
    rw [← mem_entries, hreads, List.mem_singleton]
  refine ⟨graph, out, hgraph, hout, (hread 1 .value).mpr rfl,
    propagate_eq_of_sameAt _ _ hout ?_ fun _ _ _ h => h⟩
  intro d kind hd
  obtain ⟨rfl, -⟩ := Prod.mk.inj ((hread d kind).mp hd)
  exact ⟨rfl, rfl⟩

/-! ### A constant with a declared type -/

/-- A module with a constant of type `Number` and a function that returns it. -/
def typedConst : Source :=
  .ofItems [
    .var { id := (), name := "k", spec? := TypeSpec.ofNames ["Number"],
           init? := some (.literal () (.number 3)), isConst := true },
    .ofBody "f" [.ret () (some (.ident () "k"))]]

/-- The run of the function. -/
def typedConstPass (facts : Facts) (graph : Graph) : Pass :=
  { program := typedConst.program, config := {}, facts, effects := {}, graph }

/-- A run that finds no fact about a constant with a declared type does not note that it looked for
one, so a later fact changes the run although it notes nothing. -/
theorem propagate_ne_typedConst : ∃ graph out later, typedConst.program.graph 2 = .ok graph ∧
    (typedConstPass {} graph).propagate = .ok out ∧
    (∀ d kind, out.reads.get? d = some kind →
      Facts.SameAt {} { vars := ofList [(1, Ty.number 3)] } d) ∧
    (typedConstPass { vars := ofList [(1, Ty.number 3)] } graph).propagate = .ok later ∧
    later.returned ≠ out.returned := by
  obtain ⟨graph, hgraph, out, hout, hreads, later, hlater, hne⟩ :
      ∃ graph, typedConst.program.graph 2 = .ok graph ∧
      ∃ out, (typedConstPass {} graph).propagate = .ok out ∧ out.reads.entries = [] ∧
      ∃ later, (typedConstPass { vars := ofList [(1, Ty.number 3)] } graph).propagate = .ok later ∧
        later.returned ≠ out.returned := by decide +kernel
  refine ⟨graph, out, later, hgraph, hout, ?_, hlater, hne⟩
  intro d kind hd
  rw [← mem_entries, hreads] at hd
  exact absurd hd List.not_mem_nil

end TypeFlow
