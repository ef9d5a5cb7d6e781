import TypeFlow.Proofs.PublishedFacts

/-!
# No run is stale

While roots run, a root whose last run has read a fact that is no longer the same is waiting to run
again. When no root is waiting, the last run of every root has seen the facts as they are in the
end.
-/

namespace TypeFlow

open Analyzer List Option

/-- A run of a root. -/
structure RootRun where
  root : DeclId
  /-- The facts that it has seen. -/
  facts : Facts
  result : Propagation

/-- The last run of a root among runs of which the latest comes first. -/
def lastRun? (history : List RootRun) (root : DeclId) : Option RootRun :=
  history.find? fun run => run.root = root

theorem lastRun?_root {history : List RootRun} {root : DeclId} {run : RootRun}
    (h : lastRun? history root = some run) : run.root = root := by
  simpa using find?_some h

namespace Analyzer

/-- What is known after a number of runs, of which the latest comes first. -/
inductive Reached (a : Analyzer) : Progress → List RootRun → Prop
  | start : Reached a { waiting := a.graphs.map Graph.root } []
  | run {s : Progress} {history : List RootRun} {root : DeclId} {rest : List DeclId}
      {graph : Graph} {result : Propagation} (h : Reached a s history)
      (hwaiting : s.waiting = root :: rest)
      (hgraph : a.graphs.find? (fun g => g.root = root) = some graph)
      (hresult : (a.pass s.facts graph).propagate = .ok result) :
      Reached a (a.finishRun { s with waiting := rest, runs := s.runs + 1 } root result)
        (⟨root, s.facts, result⟩ :: history)
  /-- A root without a graph has nothing to run. -/
  | skip {s : Progress} {history : List RootRun} {root : DeclId} {rest : List DeclId}
      (h : Reached a s history) (hwaiting : s.waiting = root :: rest)
      (hgraph : a.graphs.find? (fun g => g.root = root) = none) :
      Reached a { s with waiting := rest, runs := s.runs + 1 } history

variable {a : Analyzer} {history : List RootRun} {run : RootRun}

/-- Runs that end without an error leave no root waiting. -/
theorem reached_of_runWithin {n : Nat} {s final : Progress} (hs : a.Reached s history)
    (h : a.runWithin n s = .ok final) : final.waiting = [] ∧ ∃ later, a.Reached final later := by
  induction n generalizing s history with
  | zero =>
    unfold runWithin at h
    split at h
    · next hwaiting =>
        obtain rfl := Except.ok.inj h
        exact ⟨hwaiting, history, hs⟩
    · simp at h
  | succ n ih =>
    unfold runWithin at h
    split at h
    · next hwaiting =>
        obtain rfl := Except.ok.inj h
        exact ⟨hwaiting, history, hs⟩
    · next root rest hwaiting =>
        cases hgraph : a.graphs.find? fun g => g.root = root with
        | none =>
          simp only [step, hgraph] at h
          exact ih (.skip hs hwaiting hgraph) h
        | some graph =>
          cases hresult : (a.pass s.facts graph).propagate with
          | error e => simp [step, hgraph, hresult, bind, Except.bind] at h
          | ok result =>
            simp only [step, hgraph, hresult] at h
            exact ih (.run hs hwaiting hgraph hresult) h

/-! ### What the end of a run changes -/

/-- The progress before readers are made to wait. -/
def published (a : Analyzer) (s : Progress) (root : DeclId) (result : Propagation) : Progress :=
  { s.noteReads root result.reads with
    facts := (a.publish s.facts root result).1
    results := s.results.insert root result }

theorem finishRun_eq (a : Analyzer) (s : Progress) (root : DeclId) (result : Propagation) :
    a.finishRun s root result = (a.publish s.facts root result).2.foldl
      (fun s growth => s.requeue growth.1 growth.2) (a.published s root result) := rfl

theorem foldl_requeue_eq (grown : List (DeclId × Growth)) (s : Progress) :
    grown.foldl (fun s growth => s.requeue growth.1 growth.2) s =
      { s with waiting := (grown.foldl (fun s growth => s.requeue growth.1 growth.2) s).waiting } :=
  foldl_invariant (P := fun acc : Progress => acc = { s with waiting := acc.waiting })
    (fun acc hacc growth _ => by rw [hacc]; rfl) rfl

variable {s : Progress} {root other : DeclId} {result : Propagation}

theorem finishRun_facts :
    (a.finishRun s root result).facts = (a.publish s.facts root result).1 := by
  rw [finishRun_eq, foldl_requeue_eq]
  rfl

theorem finishRun_results : (a.finishRun s root result).results = s.results.insert root result := by
  rw [finishRun_eq, foldl_requeue_eq]
  rfl

theorem finishRun_readersOf (d : DeclId) : (a.finishRun s root result).readersOf d =
    (s.noteReads root result.reads).readersOf d := by
  rw [finishRun_eq, foldl_requeue_eq]
  rfl

theorem mem_finishRun_waiting (h : other ∈ s.waiting) :
    other ∈ (a.finishRun s root result).waiting :=
  Progress.foldl_requeue_keeps _ h

/-- A root whose reads have been noted waits, or all that it has read is the same after another run
as before. -/
theorem finishRun_sameAt (hresult : result.Sound a.program s.facts)
    (hrun : run.result.Sound a.program run.facts)
    (hreaders : ∀ d kind, run.result.reads.get? d = some kind →
      ((s.noteReads root result.reads).readersOf d).Has run.root kind)
    (hcurrent : ∀ d kind, run.result.reads.get? d = some kind → run.facts.SameAt s.facts d) :
    run.root ∈ (a.finishRun s root result).waiting ∨ ∀ d kind, run.result.reads.get? d = some kind →
        run.facts.SameAt (a.finishRun s root result).facts d := by
  apply or_iff_not_imp_left.mpr
  intro hidle d kind hd
  obtain ⟨known, hknown, hkind⟩ := hreaders d kind hd
  have hplain (h : known = .type) : s.facts.PlainAt a.program d :=
    (hrun.reads d (hkind h ▸ hd)).of_sameAt (hcurrent d kind hd)
  rw [finishRun_facts]
  rcases publish_sameOrGrown root hresult.writes hplain with hsame | ⟨growth, hgrown, haffects⟩
  · exact (hcurrent d kind hd).trans hsame
  · refine absurd ?_ hidle
    exact Progress.mem_foldl_requeue hgrown hknown haffects

/-- What holds of the last run of a root: its result and its reads are known, and the root waits or
has seen the facts as they are. -/
structure Followed (a : Analyzer) (s : Progress) (run : RootRun) : Prop where
  root : run.root ∈ a.graphs.map Graph.root
  sound : run.result.Sound a.program run.facts
  result : s.results.get? run.root = some run.result
  readers : ∀ d kind, run.result.reads.get? d = some kind → (s.readersOf d).Has run.root kind
  current : run.root ∈ s.waiting ∨
    ∀ d kind, run.result.reads.get? d = some kind → run.facts.SameAt s.facts d

theorem Followed.pop (h : a.Followed s run) {rest : List DeclId}
    (hwaiting : s.waiting = root :: rest) (hne : run.root ≠ root) :
    a.Followed { s with waiting := rest, runs := s.runs + 1 } run :=
  { h with
    current := h.current.imp_left fun hmem => (mem_cons.mp (hwaiting ▸ hmem)).resolve_left hne }

/-- A run of a root keeps the last runs of all other roots followed, and its own is. -/
theorem finishRun_followed (hroot : root ∈ a.graphs.map Graph.root)
    (hresult : result.Sound a.program s.facts)
    (hhistory : ∀ other run, other ≠ root → lastRun? history other = some run → a.Followed s run)
    (hlast : lastRun? (⟨root, s.facts, result⟩ :: history) other = some run) :
    a.Followed (a.finishRun s root result) run := by
  have hresults (d : DeclId) : (a.finishRun s root result).results.get? d =
      if d = root then some result else s.results.get? d := by
    rw [finishRun_results, NumMap.get?_insert]
  unfold lastRun? at hlast
  rw [find?_cons] at hlast
  split at hlast
  · cases hlast
    have hreaders (d : DeclId) (kind : ReadKind) (hd : result.reads.get? d = some kind) :
        ((s.noteReads root result.reads).readersOf d).Has root kind := Progress.noteReads_has hd
    exact
      { root := hroot
        sound := hresult
        result := by rw [hresults, if_pos rfl]
        readers := fun d kind hd => finishRun_readersOf d ▸ hreaders d kind hd
        current := finishRun_sameAt hresult hresult hreaders fun _ _ _ => ⟨rfl, rfl⟩ }
  · next hne =>
      have hother : other ≠ root := fun heq => by simp [heq] at hne
      have hrun := hhistory other run hother hlast
      replace hlast := lastRun?_root hlast
      have hreaders (d : DeclId) (kind : ReadKind) (hd : run.result.reads.get? d = some kind) :=
        Progress.noteReads_keeps root result.reads (hrun.readers d kind hd)
      refine
        { root := hrun.root
          sound := hrun.sound
          result := by rw [hresults, if_neg (hlast ▸ hother), hrun.result]
          readers := fun d kind hd => finishRun_readersOf d ▸ hreaders d kind hd
          current := ?_ }
      exact hrun.current.elim (fun hwaits => .inl (mem_finishRun_waiting hwaits))
        (finishRun_sameAt hresult hrun.sound hreaders)

theorem mem_roots_iff : root ∈ a.graphs.map Graph.root ↔
    ∃ graph, a.graphs.find? (fun g => g.root = root) = some graph := by
  rw [← isSome_iff_exists]
  simp

/-- The last run of every root is followed, and every root waits or has run. -/
theorem Reached.followed (hbody : ∀ d, a.program.hasBody d →
    (a.program.decl d).kind = .function) (h : a.Reached s history) :
    (∀ root run, lastRun? history root = some run → a.Followed s run) ∧
      ∀ root ∈ a.graphs.map Graph.root,
        root ∈ s.waiting ∨ ∃ run, lastRun? history root = some run := by
  induction h with
  | start => exact ⟨fun root run h => by simp [lastRun?] at h, fun root h => .inl h⟩
  | @run s history root rest graph result h hwaiting hgraph hresult ih =>
    obtain ⟨hfollowed, hroots⟩ := ih
    have hsound := Pass.propagate_sound hbody hresult
    have hpop (other : DeclId) (last : RootRun) (hne : other ≠ root)
        (hlast : lastRun? history other = some last) :
        a.Followed { s with waiting := rest, runs := s.runs + 1 } last :=
      (hfollowed other last hlast).pop hwaiting (lastRun?_root hlast ▸ hne)
    constructor
    · intro other last hlast
      exact finishRun_followed (mem_roots_iff.mpr ⟨graph, hgraph⟩) hsound hpop hlast
    · intro other hother
      by_cases heq : root = other
      · exact .inr ⟨_, by rw [lastRun?, find?_cons_of_pos (by simpa using heq)]⟩
      · refine (hroots other hother).imp (fun hmem => mem_finishRun_waiting ?_) ?_
        · exact (mem_cons.mp (hwaiting ▸ hmem)).resolve_left (Ne.symm heq)
        · rintro ⟨last, hlast⟩
          exact ⟨last, by rwa [lastRun?, find?_cons_of_neg (by simpa using heq)]⟩
  | @skip s history root rest h hwaiting hgraph ih =>
    obtain ⟨hfollowed, hroots⟩ := ih
    have hne {other : DeclId} (hother : other ∈ a.graphs.map Graph.root) : other ≠ root := by
      rintro rfl
      obtain ⟨graph, hfound⟩ := mem_roots_iff.mp hother
      exact absurd (hgraph.symm.trans hfound) (by simp)
    refine ⟨fun other last hlast => ?_, fun other hother => ?_⟩
    · have hrun := hfollowed other last hlast
      exact hrun.pop hwaiting (hne hrun.root)
    · exact (hroots other hother).imp_left fun hmem =>
        (mem_cons.mp (hwaiting ▸ hmem)).resolve_left (hne hother)

end Analyzer

variable {p : Program} {config : Config}

theorem Analyzer.ofProgram_program {a : Analyzer} (h : ofProgram p config = .ok a) :
    a.program = p := by
  unfold ofProgram at h
  cases hgraphs : p.schedule.mapM p.graph with
  | error e => simp [hgraphs, bind, Except.bind] at h
  | ok graphs =>
    simp only [hgraphs] at h
    obtain rfl := Except.ok.inj h
    rfl

/-- An analysis that trusts declared types gives what the runs of all roots have found out. -/
theorem Program.analyze_eq_ok {analysis : Analysis} (htrust : config.trustDeclaredTypes)
    (h : p.analyze config = .ok analysis) :
    ∃ a, ofProgram p config = .ok a ∧ ∃ final, a.run = .ok final ∧ a.collect final = analysis := by
  unfold Program.analyze at h
  rw [if_pos htrust] at h
  cases ha : ofProgram p config with
  | error e => simp [ha, Except.mapError, bind, Except.bind] at h
  | ok a =>
    cases hfinal : a.run with
    | error e => simp [ha, hfinal, Except.mapError, bind, Except.bind] at h
    | ok final => simpa [ha, hfinal, Except.mapError, bind, Except.bind, pure, Except.pure] using h

/-- No run is stale in the end: every root has run, and its last run, whose result is kept, has seen
the facts that it has read as they are when the analysis ends. -/
theorem analyze_reads_current (source : Source) (config : Config) {analysis : Analysis}
    (htrust : config.trustDeclaredTypes = true)
    (h : source.program.analyze config = .ok analysis) :
    ∃ (a : Analyzer) (final : Progress) (history : List RootRun),
      Analyzer.ofProgram source.program config = .ok a ∧ a.Reached final history ∧
      final.waiting = [] ∧ analysis = a.collect final ∧
      ∀ root ∈ a.graphs.map Graph.root, ∃ run, lastRun? history root = some run ∧
        final.results.get? root = some run.result ∧
        ∀ d kind, run.result.reads.get? d = some kind → run.facts.SameAt final.facts d := by
  obtain ⟨a, ha, final, hfinal, rfl⟩ := Program.analyze_eq_ok htrust h
  obtain ⟨hidle, history, hreached⟩ := Analyzer.reached_of_runWithin .start hfinal
  have hbody (d : DeclId) (hd : a.program.hasBody d = true) :
      (a.program.decl d).kind = .function := by
    rw [Analyzer.ofProgram_program ha] at hd ⊢
    exact source.program_hasBody_kind hd
  obtain ⟨hfollowed, hroots⟩ := hreached.followed hbody
  refine ⟨a, final, history, ha, hreached, hidle, rfl, ?_⟩
  intro root hroot
  obtain ⟨run, hrun⟩ := (hroots root hroot).resolve_left (by simp [hidle])
  have hlast := hfollowed root run hrun
  refine ⟨run, hrun, lastRun?_root hrun ▸ hlast.result, ?_⟩
  exact hlast.current.resolve_left (by simp [hidle])

/-- A module with a variable `x`, a function that writes and returns it, and a function that calls
the first one. -/
def growingVar : Source :=
  .ofItems [.ofVar "x" none (some (.literal () (.number 3))),
    .ofBody "f" [.set "x" (.string "three"), .ret () (some (.ident () "x"))],
    .ofBody "g" [.ret () (some (.call () (.ident () "f") []))]]

/-- Facts that grow after they have been read make roots run again. -/
theorem analyze_reads_current_growingVar : ∃ analysis a final history,
    growingVar.program.analyze {} = .ok analysis ∧ 3 < analysis.rootRuns ∧
    Analyzer.ofProgram growingVar.program {} = .ok a ∧ a.Reached final history ∧
    final.waiting = [] ∧ analysis = a.collect final ∧
    ∀ root ∈ a.graphs.map Graph.root, ∃ run, lastRun? history root = some run ∧
      final.results.get? root = some run.result ∧
      ∀ d kind, run.result.reads.get? d = some kind → run.facts.SameAt final.facts d := by
  obtain ⟨analysis, hanalysis, hruns⟩ :
      ∃ analysis, growingVar.program.analyze {} = .ok analysis ∧ 3 < analysis.rootRuns := by
    decide +kernel
  obtain ⟨a, final, history, hfinal⟩ := analyze_reads_current growingVar {} rfl hanalysis
  exact ⟨analysis, a, final, history, hanalysis, hruns, hfinal⟩

end TypeFlow
