import TypeFlow.Proofs.Attempts
import TypeFlow.Proofs.Worklist

/-!
# Control-flow graphs are faithful

What is read along the walks from the entry of the graph of a function to its exit is exactly what
is seen of the executions of the function. The construction of the graph lays out the statements of
the function; the state in which it ends is the complete graph.
-/

namespace TypeFlow

open Build Building Graph List Runs

section

variable {p : Program} {f : Function NodeId} {a : Account} {st st' : Building}

theorem adding_buildParams (params : List (Param NodeId)) :
    Adding Event.Plain (· ∈ params.flatMap Param.labels) (buildParams p params) := by
  induction params with
  | nil => exact .pure _
  | cons param params ih =>
    have hrest := ih.mono (fun _ h => h) fun n hn => (mem_append_right param.labels hn)
    unfold buildParams
    split
    · refine (adding_intern _).bind fun key => (adding_setNodeKey ?_ key).bind fun _ =>
        (adding_modifyGraph (by intro g; rfl) (by intro g; rfl)).bind fun _ => hrest
      simp [Param.labels]
    · exact hrest

theorem Graph.start_outline (root : DeclId) (b : BlockId) : (start root).outline b = {} :=
  congrArg FlowBlock.outline (start_block root b)

/-- Before the construction the entry is the current block, and both blocks are empty. -/
theorem opened_start {root : DeclId} {labels : List NodeId}
    (hstart : a.start = { graph := .start root }) (hlabels : a.exact → labels.Nodup) :
    Opened a labels none [] (entry, 0) True (a.exact → a.graph.outline exit = {})
      { graph := .start root } := by
  have houtline := start_outline root
  have hunseen (n : NodeId) : ¬ Building.Notes { graph := .start root } n := Bool.false_ne_true
  exact
    { waits := by
        refine ⟨rfl, fun b => houtline b ▸ .empty _, by simp, ?_, ?_, ?_⟩
        · simp [Building.size, start, entry]
        · simpa [houtline] using ⟨rfl, rfl, by simp⟩
        · simp [entry]
      exit := fun _ => by simp [Building.size, start, entry, exit]
      backed := by simp [start_block]
      unseen := fun hexact => ⟨hlabels hexact, fun n _ => hunseen n⟩
      fills := fun _ => hstart ▸ .of_eq fun _ => rfl
      sees := fun hsees hexact => (hsees.final hexact exit Nat.one_lt_two
        (by simp [entry, exit])).trans (houtline _)
      fresh := by simp
      place := rfl }

/-- A function is laid out between its entry and its exit. -/
theorem closed_function {q : Place} {K F : Prop} (hopened : Opened a f.labels none [] q K F st)
    (hplain : a.exact → f.attempts = false ∧ p.DeclaresAll (varsOfBlock? f.body?))
    (h : buildFunction p f st = .ok ((), st')) :
    ∃ k, Closed a [] [] (K ∧ k) (F ∧
      (a.exact → Splits (a.graph.rest q) (f.runs p) fun _ => a.graph.rest (exit, 0)) ∧
      ∀ t, PartOfAny (f.body?.elim [] Braced.stmts) t →
        ∃ around st st', LaidOut a.graph p around t st st') st' := by
  obtain ⟨⟨⟩, st₁, hparams, h⟩ := bind_inv h
  obtain ⟨⟨⟩, st₂, hbody, h⟩ := bind_inv h
  obtain ⟨⟨⟩, st₃, hemit, hgoto⟩ := bind_inv h
  have hlabels : Opened a (f.params.flatMap Param.labels ++ (labelsOfBlock? f.body? ++ [])) none []
      q K F st := by
    refine hopened.tail.relabel fun hnodup => ?_
    grind
  obtain ⟨k, hread⟩ := hlabels.reads (adding_buildParams f.params) hparams
  obtain ⟨k', r, hlaid⟩ := lays_block? { program := p } f.body? hplain hread hbody
  obtain ⟨k'', hwritten⟩ := hlaid.emit hemit rfl rfl nofun
  refine ⟨k ∧ k' ∧ k'', (hwritten.goto hgoto).mono (fun h => ⟨⟨⟨h.1, h.2.1⟩, h.2.2.1⟩, h.2.2.2⟩) ?_⟩
  rintro ⟨⟨⟨⟨hF, hparams⟩, hbody⟩, hwrite⟩, hgoes⟩
  refine ⟨hF, fun hexact => ?_, hbody.laid⟩
  rw [hparams.rest_eq]
  refine (hbody.splits hexact).bind fun ending => ?_
  cases ending with
  | done =>
    refine (rest_splits_perform hwrite.block hwrite.seen).weaken fun _ => ?_
    exact hgoes.rest_eq hexact ▸ Reading.delayed_noSooner _
  | returned => exact .pure _ (.refl _)
  | left | next => exact .stuck fun _ _ => id

end

section

variable {g : Graph}

/-- Nothing is left to read at an exit that nothing has been added to. -/
theorem rest_exit (hexit : g.outline exit = {}) {n : Nat} {steps : List Step} :
    g.rest (exit, 0) n steps ↔ n = 0 ∧ steps = [] := by
  have hevents : (g.block exit).events = [] := congrArg Outline.events hexit
  have hnext : (g.block exit).next? = none := congrArg Outline.next? hexit
  have hedges : (g.block exit).edges = [] := by
    simp [FlowBlock.edges, FlowBlock.testNode?, hevents, hnext]
  rw [rest_zero, walk_iff_of_edges hedges, FlowBlock.steps, hevents]
  rfl

end

/-- When a function handles no exceptions, what is read along the walks from the entry of its graph
to the exit is exactly what is seen of its executions. -/
theorem graph_faithful (source : Source) {root : DeclId} {f : Function NodeId} {g : Graph}
    (hf : source.program.function? root = some f) (hplain : f.attempts = false)
    (hg : source.program.graph root = .ok g) (steps : List Step) :
    f.runs source.program steps () ↔ ∃ n, g.Walk entry n steps exit := by
  have hnodup : f.labels.Nodup := by
    obtain ⟨path, -, hitem⟩ := Option.bind_eq_some_iff.mp (Program.item?_of_function? hf)
    have hroot := source.completed.labels_number_nodup
    exact (labels_sublist_of_itemAt? hitem).nodup (List.nodup_cons.mp hroot).2
  obtain ⟨st, hbuild, rfl⟩ := Program.graph_inv hg
  rw [Program.building_function (source.program_function?_kind hf) hf] at hbuild
  obtain ⟨_, hclosed⟩ := closed_function (a := ⟨st.graph, True, False, _⟩)
    (opened_start rfl fun _ => hnodup)
    (fun _ => ⟨hplain, fun n => source.program_declaredAt? hf⟩) hbuild
  obtain ⟨hexit, hsplits, -⟩ := hclosed.sees ⟨.refl _, fun _ _ _ _ => rfl⟩
  have hexit := hexit trivial
  have hsplits := hsplits trivial
  constructor
  · intro hruns
    have hend := (rest_exit hexit).mpr ⟨rfl, rfl⟩
    obtain ⟨n, hwalk⟩ := hsplits.complete steps () [] 0 hruns hend
    exact ⟨n, by rwa [List.append_nil] at hwalk⟩
  · rintro ⟨n, hwalk⟩
    obtain ⟨first, ⟨⟩, rest, hruns, rfl, m, -, hend⟩ := hsplits.sound n steps hwalk
    obtain ⟨-, rfl⟩ := (rest_exit hexit).mp hend
    rwa [List.append_nil]

/-- A loop around a switch whose cases go on with the loop, fall through and leave the switch. -/
def skippingLoop : Source :=
  .ofItems [ .ofBody "f" [ .whileLoop () (.logical () .and (.ident () "x")
          (.unary () .not (.binary () .eq (.ident () "x") (.literal () (.number 1)))))
        ⟨(), [.switch () (.ident () "x") [ ⟨(), some (.literal () (.number 2)), [.next ()]⟩,
          ⟨(), none, [.set "x" .null]⟩,
          ⟨(), some (.literal () (.number 3)), [.leave ()]⟩]]⟩] [⟨(), "x", none⟩]]

/-- Edges of the graph of the function: no case matches, the default falls through, the first case
goes on with the loop, and the condition fails at its left operand. -/
def skippingEdges : List (BlockId × List Step × BlockId) :=
  [(0, [], 2), (2, [.test 6 true], 5), (5, [.test 8 false], 3), (3, [.test 14 false], 10),
    (10, [.test 21 false], 11), (11, [], 8), (8, [.write 18], 9), (9, [], 6), (6, [], 2),
    (3, [.test 14 true], 7), (7, [], 2), (2, [.test 6 false], 4), (4, [.write 1], 1)]

/-- Two rounds of the loop. -/
theorem graph_faithful_skippingLoop : ∃ f g, skippingLoop.program.function? 1 = some f ∧
    f.attempts = false ∧ skippingLoop.program.graph 1 = .ok g ∧
    f.runs skippingLoop.program
      [.test 6 true, .test 8 false, .test 14 false, .test 21 false, .write 18,
        .test 6 true, .test 8 false, .test 14 true, .test 6 false, .write 1] () := by
  obtain ⟨f, hf, hplain⟩ : ∃ f, skippingLoop.program.function? 1 = some f ∧ f.attempts = false := by
    decide +kernel
  obtain ⟨g, hg, hedges, hsteps⟩ : ∃ g, skippingLoop.program.graph 1 = .ok g ∧
      (∀ e ∈ skippingEdges, e.2 ∈ (g.block e.1).edges) ∧ (g.block 1).steps = [] := by
    decide +kernel
  have hedge (b : BlockId) (first : List Step) (c : BlockId)
      (he : (b, first, c) ∈ skippingEdges) : (first, c) ∈ (g.block b).edges := hedges _ he
  have hexit : g.Walk 1 0 [] 1 := hsteps ▸ .stay 1
  have hsecond := Graph.Walk.edge (hedge 2 [.test 6 true] 5 (by decide)) <|
    .edge (hedge 5 [.test 8 false] 3 (by decide)) <|
    .edge (hedge 3 [.test 14 true] 7 (by decide)) <| .edge (hedge 7 [] 2 (by decide)) <|
    .edge (hedge 2 [.test 6 false] 4 (by decide)) <|
    .edge (hedge 4 [.write 1] 1 (by decide)) hexit
  have hfirst := Graph.Walk.edge (hedge 0 [] 2 (by decide)) <|
    .edge (hedge 2 [.test 6 true] 5 (by decide)) <|
    .edge (hedge 5 [.test 8 false] 3 (by decide)) <|
    .edge (hedge 3 [.test 14 false] 10 (by decide)) <|
    .edge (hedge 10 [.test 21 false] 11 (by decide)) <| .edge (hedge 11 [] 8 (by decide)) <|
    .edge (hedge 8 [.write 18] 9 (by decide)) <| .edge (hedge 9 [] 6 (by decide)) <|
    .edge (hedge 6 [] 2 (by decide)) hsecond
  exact ⟨f, g, hf, hplain, hg, (graph_faithful skippingLoop hf hplain hg _).mpr ⟨_, hfirst⟩⟩

end TypeFlow
