import TypeFlow.Proofs.Convergence
import TypeFlow.Proofs.FiniteGrowth
import TypeFlow.Proofs.Freshness

/-!
# Analyses end

Each run of a root either enlarges a fact or leaves all facts as they are, and in the second case no
root is made to wait. Facts can be enlarged only finitely often, so that no root is waiting after
finitely many runs. Each of these runs needs finitely many visits.
-/

namespace TypeFlow

open Analyzer List Option Relation

namespace Pass

variable {strict : Demands} {pass : Pass} {others : Facts}
  {out : Propagation}

/-! ### One run -/

/-- A pass that is formed stays so with other facts. -/
theorem Formed.withFacts (h : pass.Formed strict) (hothers : others.Formed strict)
    (limits : Limits) :
    (pass.withFacts others limits).Formed strict where
  context :=
    { vars := fun d => hothers (.var d)
      returns := fun d => hothers (.result d)
      table := h.context.table
      enumValues := h.context.enumValues
      lookup := h.context.lookup
      members := h.context.members
      ownClass := h.context.ownClass
      ownScope := h.context.ownScope }
  decls := h.decls
  sets := h.sets
  tests := h.tests

/-- The types that a run returns and writes are formed. -/
def OutputFormed (strict : Demands) (returned : Ty) (writes : NumMap Ty) :
    Prop :=
  returned.Formed strict ∧ ∀ d t, writes.get? d = some t → t.Formed strict

theorem keeps_outputFormed :
    pass.Keeps strict fun r => OutputFormed strict r.returned r.writes := by
  rintro r f ⟨hreturned, hwrites⟩ hsound
  match f with
  | .mark _ => exact ⟨hreturned, hwrites⟩
  | .returned t =>
    simp only [Replay.leave]
    split
    · exact ⟨hreturned.union hsound, hwrites⟩
    · exact ⟨hreturned, hwrites⟩
  | .written vars t =>
    simp only [Replay.leave]
    split
    · refine ⟨hreturned, foldl_invariant
        (P := fun writes : NumMap Ty => ∀ d t, writes.get? d = some t → t.Formed strict) ?_
        hwrites⟩
      intro writes hwrites d _ e u hu
      rw [NumMap.get?_insert] at hu
      split at hu
      · cases hu
        exact .union (.getD (hwrites d)) hsound.1
      · exact hwrites e u hu
    · exact ⟨hreturned, hwrites⟩

theorem propagate_formed (hpass : pass.Formed strict) (hout : pass.propagate = .ok out) :
    OutputFormed strict out.returned out.writes := by
  cases hskipped : pass.isSkipped with
  | true =>
    obtain rfl := Except.ok.inj ((propagate_of_skipped hskipped).symm.trans hout)
    refine ⟨.ofTags _, foldl_invariant
      (P := fun writes : NumMap Ty => ∀ d t, writes.get? d = some t → t.Formed strict) ?_ ?_⟩
    · intro writes hwrites w hw e u hu
      obtain ⟨d, -, rfl⟩ := List.mem_map.mp hw
      rw [NumMap.get?_insert] at hu
      split at hu
      · exact some.inj hu ▸ .ofTags _
      · exact hwrites e u hu
    · exact fun d t hd => absurd hd (by simp)
  | false =>
    obtain ⟨s, hsolve, rfl⟩ := solve_of_propagate hskipped hout
    refine recorded_of_solve hpass keeps_outputFormed (fun _ h => h) ⟨.ofTags _, ?_⟩ hsolve
    exact fun d t hd => absurd hd (by simp [show (∅ : NumMap Ty).get? d = none from rfl])

/-- With enough visits propagation gives the same for all limits. -/
theorem exists_propagate (pass : Pass) : ∃ enough out, ∀ limits : Limits, enough ≤ limits.visits →
    (pass.withFacts pass.facts limits).propagate = .ok out := by
  cases hskipped : pass.isSkipped with
  | true => exact ⟨0, pass.skipped, fun limits _ => propagate_of_skipped hskipped⟩
  | false =>
    obtain ⟨bound, hpass⟩ := pass.eventually_formed.exists
    obtain ⟨enough, final, hfinal⟩ := exists_solveWithin hpass (start_formed hpass)
    refine ⟨enough, pass.found final, fun limits hlimits => ?_⟩
    have hsame (d : DeclId) : pass.facts.SameAt pass.facts d := ⟨rfl, rfl⟩
    have hsolve : (pass.withFacts pass.facts limits).solve = .ok final := by
      exact solveWithin_mono hlimits
        (solveWithin_agree pass.lacksConstants_self hfinal fun d _ => hsame d)
    have hfound : (pass.withFacts pass.facts limits).found final = pass.found final := by
      simp only [found, recorded_agree pass.lacksConstants_self fun d _ => hsame d]
    exact hfound ▸ propagate_of_solve hskipped hsolve

end Pass

namespace Progress

/-- Nobody is made to wait by a fact that has not grown. -/
theorem foldl_requeue_of_unchanged {s : Progress} {grown : List (DeclId × Growth)}
    (h : ∀ growth ∈ grown, growth.2 = .unchanged) :
    grown.foldl (fun s growth => s.requeue growth.1 growth.2) s = s := by
  refine foldl_invariant (P := fun acc : Progress => acc = s) ?_ rfl
  rintro acc rfl growth hgrowth
  rw [h growth hgrowth]
  simp [requeue, Growth.affects]

/-- The order in which runs go down: facts are enlarged, or these are kept and fewer roots wait. -/
def Nearer (bound depth : Nat) (new old : Progress) : Prop :=
  Prod.Lex (TransGen (Facts.Enlarged bound depth)) (· < ·) (new.facts, new.waiting.length)
    (old.facts, old.waiting.length)

theorem nearer_wellFounded (bound depth : Nat) : WellFounded (Nearer bound depth) :=
  InvImage.wf _ ((Facts.enlarged_wellFounded bound depth).transGen.prod_lex Nat.lt_wfRel.wf)

end Progress

namespace Analyzer

variable {a : Analyzer} {bound : Nat} {s : Progress} {root : DeclId} {graph : Graph}
  {result : Propagation} {rest : List DeclId} {history : List RootRun}

/-- The same analysis with other limits. -/
def withLimits (a : Analyzer) (limits : Limits) : Analyzer :=
  { a with config := a.config.withLimits limits }

/-- All types of an analysis without facts are as they should be, and only declarations below a
bound appear in them. -/
structure Fit (a : Analyzer) (bound : Nat) : Prop where
  pass : ∀ graph ∈ a.graphs, (a.pass {} graph).Formed (.full (· < bound))
  table : a.program.table.WellFormed
  methodFree : ∀ e ∈ a.program.table.expansions, e.2.MethodFree
  body : ∀ d, a.program.hasBody d → (a.program.decl d).kind = .function
  decl : ∀ d, (a.program.decl d).kind ≠ .module → d < bound

theorem Fit.withLimits (h : a.Fit bound) (limits : Limits) : (a.withLimits limits).Fit bound :=
  { h with pass := fun graph hgraph => (h.pass graph hgraph).withFacts .empty limits }

/-! ### What a run leaves behind -/

section

variable (ha : a.Fit bound) (hfacts : s.facts.Formed (.full (· < bound)))
  (hgraph : graph ∈ a.graphs) (hresult : (a.pass s.facts graph).propagate = .ok result)

include ha hfacts hgraph hresult

theorem publications_formed : ∀ write ∈ a.publications root result,
    write.1.decl < bound ∧ write.2.Formed (.full (· < bound)) := by
  have hpass := (ha.pass graph hgraph).withFacts hfacts a.config.maxBlockVisits
  obtain ⟨hreturned, hwrites⟩ := Pass.propagate_formed hpass hresult
  intro write hwrite
  rcases mem_append.mp hwrite with hwrite | hwrite
  · obtain ⟨w, hw, rfl⟩ := List.mem_map.mp hwrite
    have hw := (mem_filter.mp hw).1
    refine ⟨ha.decl w.1 ?_, hwrites w.1 w.2 (NumMap.mem_entries.mp hw)⟩
    have hvar := (Pass.propagate_sound ha.body hresult).writes w hw
    exact fun hmodule => absurd (hvar.symm.trans hmodule) (by simp)
  · split at hwrite
    · next hroot =>
      obtain rfl := mem_singleton.mp hwrite
      refine ⟨ha.decl root fun hmodule => ?_, hreturned⟩
      simp [hmodule] at hroot
    · cases hwrite

theorem finishRun_formed : (a.finishRun s root result).facts.Formed (.full (· < bound)) := by
  rw [finishRun_facts, publish_eq]
  exact hfacts.growAll fun write hwrite =>
    (publications_formed ha hfacts hgraph hresult write hwrite).2

variable (root) in
/-- A run enlarges facts, or keeps all of them and makes nobody wait. -/
theorem finishRun_cases : (a.finishRun s root result).facts = s.facts ∧
        (a.finishRun s root result).waiting = s.waiting ∨
      TransGen (Facts.Enlarged bound a.config.wideningDepth) (a.finishRun s root result).facts
        s.facts := by
  rw [finishRun_facts, publish_eq]
  refine (Facts.growAll_cases ha.table ha.methodFree hfacts
    (publications_formed ha hfacts hgraph hresult)).imp_left fun ⟨hgrowths, hsame⟩ => ⟨hsame, ?_⟩
  rw [finishRun_eq, publish_eq, Progress.foldl_requeue_of_unchanged hgrowths]
  rfl

end

/-! ### All runs -/

theorem runWithin_of_nil (h : s.waiting = []) (n : Nat) : a.runWithin n s = .ok s := by
  unfold runWithin
  rw [h]

theorem runWithin_of_cons (h : s.waiting = root :: rest) (n : Nat) :
    a.runWithin (n + 1) s = (a.step s root rest).bind (a.runWithin n) := by
  rw [runWithin, h]
  rfl

theorem step_of_none (h : a.graphs.find? (fun g => g.root = root) = none) :
    a.step s root rest = .ok { s with waiting := rest, runs := s.runs + 1 } := by
  simp only [step, h]
  rfl

theorem step_of_some (h : a.graphs.find? (fun g => g.root = root) = some graph)
    (hresult : (a.pass s.facts graph).propagate = .ok result) :
    a.step s root rest =
      .ok (a.finishRun { s with waiting := rest, runs := s.runs + 1 } root result) := by
  simp only [step, h, hresult]
  rfl

/-- No root is waiting after finitely many runs with finitely many visits. -/
theorem exists_runWithin (ha : a.Fit bound) (hfacts : s.facts.Formed (.full (· < bound))) :
    ∃ runs visits final, ∀ limits : Limits, visits ≤ limits.visits →
      (a.withLimits limits).runWithin runs s = .ok final := by
  induction s using (Progress.nearer_wellFounded bound a.config.wideningDepth).induction with
  | _ s ih =>
  cases hwaiting : s.waiting with
  | nil => exact ⟨0, 0, s, fun limits _ => runWithin_of_nil hwaiting 0⟩
  | cons root rest =>
    have hfewer : rest.length < s.waiting.length := by simp [hwaiting]
    cases hfind : a.graphs.find? fun g => g.root = root with
    | none =>
      obtain ⟨runs, visits, final, hfinal⟩ :=
        ih { s with waiting := rest, runs := s.runs + 1 } (.right _ hfewer) hfacts
      refine ⟨runs + 1, visits, final, fun limits hlimits => ?_⟩
      rw [runWithin_of_cons hwaiting, step_of_none (a := a.withLimits limits) hfind]
      exact hfinal limits hlimits
    | some graph =>
      have hgraph := mem_of_find?_eq_some hfind
      obtain ⟨enough, result, hresult⟩ := (a.pass s.facts graph).exists_propagate
      -- What holds of a run does not depend on the limits, so it is shown with enough visits.
      have ha' := ha.withLimits enough
      have hrun := hresult enough le_rfl
      let popped := { s with waiting := rest, runs := s.runs + 1 }
      have hnearer : Progress.Nearer bound a.config.wideningDepth
          (a.finishRun popped root result) s := by
        rcases finishRun_cases root (s := popped) ha' hfacts hgraph hrun with
          ⟨hkept, hwaits⟩ | henlarged
        · refine Prod.lex_iff.mpr (.inr ⟨hkept, ?_⟩)
          exact (congrArg List.length hwaits).trans_lt hfewer
        · exact .left _ _ henlarged
      obtain ⟨runs, visits, final, hfinal⟩ := ih (a.finishRun popped root result) hnearer
        (finishRun_formed (a := a.withLimits enough) ha' hfacts hgraph hrun)
      refine ⟨runs + 1, max enough visits, final, fun limits hlimits => ?_⟩
      rw [runWithin_of_cons hwaiting, step_of_some (a := a.withLimits limits) hfind
        (hresult limits ((le_max_left ..).trans hlimits))]
      exact hfinal limits ((le_max_right ..).trans hlimits)

/-- More runs than needed change nothing. -/
theorem runWithin_mono {n k : Nat} {final : Progress} (hle : n ≤ k)
    (h : a.runWithin n s = .ok final) : a.runWithin k s = .ok final := by
  induction n generalizing k s with
  | zero =>
    cases hwaiting : s.waiting with
    | nil => rwa [runWithin_of_nil hwaiting] at h ⊢
    | cons root rest => simp [runWithin, hwaiting] at h
  | succ n ih =>
    cases hwaiting : s.waiting with
    | nil => rwa [runWithin_of_nil hwaiting] at h ⊢
    | cons root rest =>
      obtain ⟨k, rfl⟩ : ∃ j, k = j + 1 := ⟨k - 1, by omega⟩
      rw [runWithin_of_cons hwaiting] at h ⊢
      cases hstep : a.step s root rest with
      | error e => simp [hstep, Except.bind] at h
      | ok next =>
        rw [hstep] at h
        exact ih (Nat.le_of_succ_le_succ hle) h

/-- Runs that end have been through all that is reached. -/
theorem Reached.length_le (h : a.Reached s history) {n : Nat} {final : Progress}
    (hfinal : a.runWithin n { waiting := a.graphs.map Graph.root } = .ok final) :
    ∃ left, history.length + left ≤ n ∧ a.runWithin left s = .ok final := by
  induction h with
  | start => exact ⟨n, by simp, hfinal⟩
  | @run s history root rest graph result h hwaiting hgraph hresult ih =>
    obtain ⟨left, hle, hleft⟩ := ih
    cases left with
    | zero => simp [runWithin, hwaiting] at hleft
    | succ left =>
      rw [runWithin_of_cons hwaiting, step_of_some hgraph hresult] at hleft
      exact ⟨left, by simp only [length_cons]; omega, hleft⟩
  | @skip s history root rest h hwaiting hgraph ih =>
    obtain ⟨left, hle, hleft⟩ := ih
    cases left with
    | zero => simp [runWithin, hwaiting] at hleft
    | succ left =>
      rw [runWithin_of_cons hwaiting, step_of_none hgraph] at hleft
      exact ⟨left, by omega, hleft⟩

/-- The facts are formed at all times, and so is all that is published. -/
theorem Reached.formed (ha : a.Fit bound) (h : a.Reached s history) :
    s.facts.Formed (.full (· < bound)) ∧ ∀ run ∈ history, run.facts.Formed (.full (· < bound)) ∧
      ∀ write ∈ a.publications run.root run.result, write.2.Formed (.full (· < bound)) := by
  induction h with
  | start => exact ⟨.empty, by simp⟩
  | @run s history root rest graph result h hwaiting hgraph hresult ih =>
    obtain ⟨hfacts, hhistory⟩ := ih
    have hmem := mem_of_find?_eq_some hgraph
    refine ⟨finishRun_formed ha hfacts hmem
      hresult, forall_mem_cons.mpr ⟨⟨hfacts, fun write hwrite => ?_⟩, hhistory⟩⟩
    exact (publications_formed ha hfacts hmem hresult write hwrite).2
  | skip h hwaiting hgraph ih => exact ih

end Analyzer

open Filter in
/-- The types of a program that is built from a source are as they should be. -/
theorem Source.exists_fit (source : Source) {config : Config} {a : Analyzer}
    (ha : ofProgram source.program config = .ok a) : ∃ bound, a.Fit bound := by
  have hprogram := ofProgram_program ha
  have hpasses : ∀ᶠ n in atTop, ∀ graph ∈ a.graphs, (a.pass {} graph).Formed (.below n) :=
    eventually_forall_mem fun graph _ => (a.pass {} graph).eventually_formed
  obtain ⟨bound, hpasses, hsize⟩ := (hpasses.and (eventually_ge_atTop a.program.decls.size)).exists
  refine ⟨bound, ?_⟩
  exact
    { pass := fun graph hgraph =>
        let hpass := hpasses graph hgraph
        { context :=
            { vars := fun _ _ h => by cases h
              returns := fun _ _ h => by cases h
              table := by
                have hlookup := hpass.context.lookup
                change ∀ node, ∀ d ∈ a.program.lookup node, d < bound at hlookup
                change a.program.table.Formed _
                rw [hprogram] at hlookup ⊢
                exact source.program_table_formed hlookup
              enumValues := by
                change ∀ d t, a.program.enumValues.get? d = some t → t.Formed _
                rw [hprogram]
                exact fun d t h => source.program_enumValues_formed h
              lookup := hpass.context.lookup
              members := hpass.context.members
              ownClass := hpass.context.ownClass
              ownScope := hpass.context.ownScope }
          decls := hpass.decls
          sets := hpass.sets
          tests := hpass.tests }
      table := hprogram ▸ source.program_table_wellFormed
      methodFree := hprogram ▸ source.program_table_methodFree
      body := hprogram ▸ fun _ h => source.program_hasBody_kind h
      decl := fun d hd => by
        by_contra hlt
        refine hd ?_
        have hle := hsize.trans (Nat.not_lt.mp hlt)
        have hnone : a.program.decls.getD d default = default := by
          rw [Array.getD_eq_getD_getElem?, Array.getElem?_eq_none hle, getD_none]
        rw [Declarations.decl, hnone]
        rfl }

/-- The graphs of a program do not depend on limits. -/
theorem Analyzer.ofProgram_withLimits (p : Program) (config : Config) (limits : Limits) :
    ofProgram p (config.withLimits limits) = (ofProgram p config).map (·.withLimits limits) := by
  unfold ofProgram
  cases p.schedule.mapM p.graph <;> rfl

namespace Program

variable (p : Program) {config : Config}
  (hruns : ∀ a, ofProgram p config = .ok a → ∃ final, a.run = .ok final)

include hruns

/-- An analysis whose runs end gives a result, unless there are no graphs. -/
theorem analyze_eq_error {e : AnalysisError} (h : p.analyze config = .error e) :
    ∃ cause, e = .identity cause := by
  unfold Program.analyze at h
  split at h
  · cases ha : ofProgram p config with
    | error cause =>
      simp only [ha, Except.mapError, bind, Except.bind, Except.error.injEq] at h
      exact ⟨cause, h.symm⟩
    | ok a =>
      obtain ⟨final, hfinal⟩ := hruns a ha
      simp [ha, hfinal, Except.mapError, bind, Except.bind, pure, Except.pure] at h
  · cases h

theorem analyze_ne_rootRunLimit (n : Nat) : p.analyze config ≠ .error (.rootRunLimit n) := by
  intro h
  obtain ⟨cause, hcause⟩ := p.analyze_eq_error hruns h
  cases hcause

theorem analyze_ne_blockVisitLimit (root : DeclId) (n : Nat) :
    p.analyze config ≠ .error (.blockVisitLimit root n) := by
  intro h
  obtain ⟨cause, hcause⟩ := p.analyze_eq_error hruns h
  cases hcause

end Program

/-- The analysis of a whole program converges: there are limits from which on it does not fail
because of the limits, and only so many roots run. The reason is that a run publishes its result in
a sequence of writes, each of which is reported to change nothing, is the first one for its fact, or
makes the fact strictly larger. -/
theorem analyze_converges (source : Source) (config : Config) :
    ∃ runs visits, ∀ maxRuns maxVisits, runs ≤ maxRuns → visits ≤ maxVisits →
      let limited := { config with maxRootRuns := maxRuns, maxBlockVisits := maxVisits }
      (∀ n, source.program.analyze limited ≠ .error (.rootRunLimit n)) ∧
      (∀ root n, source.program.analyze limited ≠ .error (.blockVisitLimit root n)) ∧
      ∀ a, Analyzer.ofProgram source.program limited = .ok a →
        ∀ s history, a.Reached s history → history.length ≤ runs ∧ ∀ run ∈ history,
          let table := a.program.table
          let depth := a.config.wideningDepth
          let writes := a.publications run.root run.result
          a.publish run.facts run.root run.result =
              (run.facts.growAll table depth writes, run.facts.growths table depth writes) ∧
            ∀ earlier write later, writes = earlier ++ write :: later →
              let before := run.facts.growAll table depth earlier
              let after := before.grow table depth write.1 write.2
              after.2 ≠ .unchanged → before.GrowsAt after.1 write.1 := by
  cases hanalyzer : Analyzer.ofProgram source.program config with
  | error cause =>
    refine ⟨0, 0, fun maxRuns maxVisits _ _ => ?_⟩
    intro limited
    have hnone (a : Analyzer) : Analyzer.ofProgram source.program limited ≠ .ok a := by
      have hmap := Analyzer.ofProgram_withLimits source.program config ⟨maxVisits, some maxRuns⟩
      rw [hanalyzer] at hmap
      exact fun ha => by cases hmap.symm.trans ha
    have hruns (a : Analyzer) (ha : Analyzer.ofProgram source.program limited = .ok a) :
        ∃ final, a.run = .ok final := absurd ha (hnone a)
    exact ⟨fun n => source.program.analyze_ne_rootRunLimit hruns n,
      fun root n => source.program.analyze_ne_blockVisitLimit hruns root n,
      fun a ha => absurd ha (hnone a)⟩
  | ok analyzer =>
    obtain ⟨bound, hfit⟩ := source.exists_fit hanalyzer
    obtain ⟨runs, visits, final, hfinal⟩ := Analyzer.exists_runWithin
      (s := { waiting := analyzer.graphs.map Graph.root }) hfit .empty
    refine ⟨runs, visits, fun maxRuns maxVisits hmax hvisits => ?_⟩
    intro limited
    -- All analyses with these limits have the same graphs and go the same way.
    have hsame (a : Analyzer) (ha : Analyzer.ofProgram source.program limited = .ok a) :
        a = analyzer.withLimits ⟨maxVisits, some maxRuns⟩ := by
      have hmap := Analyzer.ofProgram_withLimits source.program config ⟨maxVisits, some maxRuns⟩
      rw [hanalyzer] at hmap
      exact Except.ok.inj (ha.symm.trans hmap)
    have hwithin := hfinal ⟨maxVisits, some maxRuns⟩ hvisits
    have hruns (a : Analyzer) (ha : Analyzer.ofProgram source.program limited = .ok a) :
        ∃ final, a.run = .ok final := by
      obtain rfl := hsame a ha
      exact ⟨final, Analyzer.runWithin_mono hmax hwithin⟩
    refine ⟨fun n => source.program.analyze_ne_rootRunLimit hruns n,
      fun root n => source.program.analyze_ne_blockVisitLimit hruns root n, ?_⟩
    intro a ha s history hreached
    obtain rfl := hsame a ha
    obtain ⟨left, hlength, -⟩ := hreached.length_le hwithin
    refine ⟨by omega, fun run hrun => ⟨Analyzer.publish_eq .., ?_⟩⟩
    intro earlier write later hwrites before after hgrown
    obtain ⟨hfacts, hformed⟩ := (hreached.formed (hfit.withLimits _)).2 run hrun
    rw [hwrites, List.forall_mem_append, List.forall_mem_cons] at hformed
    have hbefore : before.Formed (.full (· < bound)) := hfacts.growAll hformed.1
    exact Facts.grow_growsAt (hfit.withLimits _).table (hfit.withLimits _).methodFree hbefore
      hformed.2.1 hgrown

/-- The roots of a module whose variable grows run more than three times, so a limit of three runs
is too low; other limits are not. -/
theorem analyze_converges_growingVar :
    growingVar.program.analyze { maxRootRuns := 3 } = .error (.rootRunLimit 4) ∧
      ∃ runs visits, ∀ maxRuns maxVisits, runs ≤ maxRuns → visits ≤ maxVisits →
        (∀ n, growingVar.program.analyze { maxRootRuns := maxRuns, maxBlockVisits := maxVisits } ≠
          .error (.rootRunLimit n)) ∧
        ∀ root n, growingVar.program.analyze
          { maxRootRuns := maxRuns, maxBlockVisits := maxVisits } ≠
            .error (.blockVisitLimit root n) := by
  have herror : (match growingVar.program.analyze { maxRootRuns := 3 } with
      | .error e => decide (e = .rootRunLimit 4)
      | .ok _ => false) = true := by decide +kernel
  constructor
  · cases h : growingVar.program.analyze { maxRootRuns := 3 } with
    | ok _ => simp [h] at herror
    | error e =>
      rw [h] at herror
      exact congrArg Except.error (of_decide_eq_true herror)
  · obtain ⟨runs, visits, h⟩ := analyze_converges growingVar {}
    refine ⟨runs, visits, fun maxRuns maxVisits hruns hvisits => ?_⟩
    obtain ⟨hruns, hvisits, -⟩ := h maxRuns maxVisits hruns hvisits
    exact ⟨hruns, hvisits⟩

end TypeFlow
