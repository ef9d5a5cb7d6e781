import TypeFlow.Proofs.ProgramDeclarations
import TypeFlow.Proofs.Worklist

/-!
# The final states of a graph

When no block is pending, every state that a block can still send has been absorbed by the state of
the block to which it is sent. The argument needs the laws of unions and so well-formed types.
-/

namespace TypeFlow

open List NumMap Option Ty

namespace TypeState

/-- All types of a state are well formed. -/
abbrev WellFormed (state : TypeState) : Prop := state.Formed True

/-- A state has absorbed another one: whatever it mentions the other one mentions too, with a type
that adds nothing. -/
def Absorbs (state incoming : TypeState) : Prop :=
  ∀ k u, state.get? k = some u → ∃ t, incoming.get? k = some t ∧ t.union u = u

variable {a b c : TypeState}

theorem Absorbs.refl (ha : a.WellFormed) : a.Absorbs a :=
  fun k t ht => ⟨t, ht, Ty.Below.refl (ha k t ht)⟩

theorem Absorbs.trans (ha : a.WellFormed) (hb : b.WellFormed) (hc : c.WellFormed)
    (hcb : c.Absorbs b) (hba : b.Absorbs a) : c.Absorbs a := by
  intro k u hu
  obtain ⟨t, ht, htu⟩ := hcb k u hu
  obtain ⟨v, hv, hvt⟩ := hba k t ht
  exact ⟨v, hv, Ty.Below.trans (ha k v hv) (hb k t ht) (hc k u hu) hvt htu⟩

section

variable (ha : a.WellFormed) (hb : b.WellFormed) (depth : Nat)
include ha hb

/-- A merge that has nothing to change has nothing left to absorb. -/
theorem absorbs_of_mergeChanges (h : a.mergeChanges depth b = false) : a.Absorbs b := by
  intro k t ht
  obtain ⟨u, hu, hunion, -⟩ := mergeChanges_eq_false_iff.mp h k t ht
  exact ⟨u, hu, (Ty.WellFormed.union_comm (hb k u hu) (ha k t ht)).trans hunion⟩

/-- The merge of two states absorbs both. -/
theorem merge_absorbs : (a.merge depth b).Absorbs a ∧ (a.merge depth b).Absorbs b := by
  have hmerged {k : Key} {w : Ty} (hw : (a.merge depth b).get? k = some w) :
      ∃ t u, a.get? k = some t ∧ b.get? k = some u ∧ t.Below w ∧ u.Below w := by
    rw [get?_merge] at hw
    obtain ⟨t, ht, hw⟩ := bind_eq_some_iff.mp hw
    obtain ⟨u, hu, rfl⟩ := map_eq_some_iff.mp hw
    have hunion := (ha k t ht).union (hb k u hu)
    have hwiden := below_widen hunion depth
    refine ⟨t, u, ht, hu, ?_, ?_⟩
    · exact (below_union_left (ha k t ht) (hb k u hu)).trans (ha k t ht) hunion
        (hunion.widen depth) hwiden
    · exact (below_union_right (ha k t ht) (hb k u hu)).trans (hb k u hu) hunion
        (hunion.widen depth) hwiden
  constructor
  · intro k w hw
    obtain ⟨t, -, ht, -, hbelow, -⟩ := hmerged hw
    exact ⟨t, ht, hbelow⟩
  · intro k w hw
    obtain ⟨-, u, -, hu, -, hbelow⟩ := hmerged hw
    exact ⟨u, hu, hbelow⟩

end

end TypeState

namespace Solving

/-- The states of blocks are well formed. -/
abbrev WellFormed (order : List BlockId) (s : Solving) : Prop := s.Formed True order

/-- The state of the block at the end of an edge has absorbed the state of the edge. -/
def Received (s : Solving) (edge : BlockId × TypeState) : Prop :=
  ∃ state, s.states.get? edge.1 = some state ∧ state.Absorbs edge.2

/-- States only absorb more, and a block that is not pending afterwards has kept its state. -/
structure Advances (s s' : Solving) : Prop where
  absorbs : ∀ b state, s.states.get? b = some state → s'.Received (b, state)
  settled : ∀ b, b ∉ s'.pending → b ∉ s.pending ∧ s'.states.get? b = s.states.get? b

variable {order : List BlockId} {s s' s'' : Solving} {edge : BlockId × TypeState}

section

variable (hs : s.WellFormed order)
include hs

theorem Advances.refl : s.Advances s where
  absorbs b state hstate := ⟨state, hstate, .refl (hs.states b state hstate)⟩
  settled _ hb := ⟨hb, rfl⟩

/-- What has been received stays received. -/
theorem Received.advance (hs' : s'.WellFormed order) (hedge : edge.2.WellFormed)
    (h : s.Received edge) (hadvances : s.Advances s') : s'.Received edge := by
  obtain ⟨state, hstate, habsorbs⟩ := h
  obtain ⟨state', hstate', habsorbs'⟩ := hadvances.absorbs _ state hstate
  exact ⟨state', hstate', .trans hedge (hs.states _ _ hstate) (hs'.states _ _ hstate')
    habsorbs' habsorbs⟩

/-- States advance step by step. -/
theorem Advances.trans (hs' : s'.WellFormed order) (hs'' : s''.WellFormed order)
    (h : s.Advances s') (h' : s'.Advances s'') : s.Advances s'' where
  absorbs b state hstate :=
    .advance hs' hs'' (hs.states b state hstate) (h.absorbs b state hstate) h'
  settled b hb := by
    obtain ⟨hpending, hstates⟩ := h'.settled b hb
    obtain ⟨hpending, hbefore⟩ := h.settled b hpending
    exact ⟨hpending, hstates.trans hbefore⟩

/-- A change to a state that absorbs the one before. -/
theorem change_advances {b : BlockId} (before? : Option TypeState)
    {after : TypeState} (h : ∀ state, s.states.get? b = some state → after.Absorbs state) :
    s.Advances (s.change b before? after) where
  absorbs c state hstate := by
    by_cases hc : c = b
    · subst hc
      exact ⟨after, by simp [change], h state hstate⟩
    · exact ⟨state, by simp [change, hc, hstate], .refl (hs.states c state hstate)⟩
  settled c hc := by
    rw [mem_change_pending, not_or] at hc
    exact ⟨hc.2, by simp [change, hc.1]⟩

/-- Sending a state advances, and the state is received. -/
theorem send_advances (hedge : edge.2.WellFormed) (depth : Nat) :
    s.Advances (s.send depth edge) ∧ (s.send depth edge).Received edge := by
  unfold send
  split
  · next hnone =>
      refine ⟨change_advances hs none (by simp [hnone]), edge.2, ?_, .refl hedge⟩
      simp [change]
  · next state hstate =>
      have hwf := hs.states _ state hstate
      split
      · have hmerge := TypeState.merge_absorbs hwf hedge depth
        refine ⟨change_advances hs _ ?_, _, ?_, hmerge.2⟩
        · intro old hold
          obtain rfl := some.inj (hstate.symm.trans hold)
          exact hmerge.1
        · simp [change]
      · next hchanges =>
          refine ⟨.refl hs, state, hstate, ?_⟩
          exact TypeState.absorbs_of_mergeChanges hwf hedge depth (by simpa using hchanges)

/-- Sending several states advances, and all of them are received. -/
theorem foldl_send_advances {edges : Edges}
    (hedges : ∀ edge ∈ edges, edge.1 ∈ order ∧ edge.2.WellFormed) (depth : Nat) :
    (edges.foldl (send depth) s).WellFormed order ∧ s.Advances (edges.foldl (send depth) s) ∧
      ∀ edge ∈ edges, (edges.foldl (send depth) s).Received edge := by
  induction edges generalizing s with
  | nil => exact ⟨hs, .refl hs, by simp⟩
  | cons edge edges ih =>
    obtain ⟨⟨htarget, hedge⟩, hrest⟩ := forall_mem_cons.mp hedges
    have hsent := hs.send depth htarget hedge
    obtain ⟨hadvances, hreceived⟩ := send_advances hs hedge depth
    obtain ⟨hfinal, hafter, hothers⟩ := ih hsent hrest
    refine ⟨hfinal, hadvances.trans hs hsent hfinal hafter, ?_⟩
    exact forall_mem_cons.mpr ⟨hreceived.advance hsent hfinal hedge hafter, hothers⟩

end

end Solving

namespace Pass

variable {pass : Pass} {s : Solving}

/-- Every block that is not pending has nothing left to send. -/
def Settled (pass : Pass) (s : Solving) : Prop :=
  ∀ b state, s.states.get? b = some state → b ∉ s.pending →
    ∀ edge ∈ pass.edges b state, s.Received edge

/-- A visit settles its block and keeps the other blocks settled. -/
theorem visit_settled (hpass : pass.Formed True)
    (hs : s.WellFormed pass.graph.order) (hsettled : pass.Settled s) {b : BlockId}
    (hb : b ∈ pass.graph.order) : pass.Settled (pass.visit s b) := by
  cases hstate : s.states.get? b with
  | none =>
    rw [visit_of_none hstate]
    intro c state hc hpending edge hedge
    have hne : c ≠ b := fun heq => by simp [taken, heq, hstate] at hc
    refine hsettled c state hc (fun hmem => hpending ?_) edge hedge
    exact mem_filter.mpr ⟨hmem, by simpa using hne⟩
  | some state =>
    rw [visit_of_state hpass hs hstate]
    have htaken := taken_formed hs b ((pass.replay b state).run s.replay).2
    obtain ⟨hfinal, hadvances, hreceived⟩ := Solving.foldl_send_advances htaken
      (edges_formed hpass hs hb hstate) pass.config.wideningDepth
    intro c other hother hpending edge hedge
    obtain ⟨hnotPending, hkept⟩ := hadvances.settled c hpending
    have hbefore := hkept.symm.trans hother
    by_cases hc : c = b
    · subst hc
      obtain rfl := some.inj (hstate.symm.trans hbefore)
      exact hreceived edge hedge
    · have hidle : c ∉ s.pending := fun hmem =>
        hnotPending (mem_filter.mpr ⟨hmem, by simpa using hc⟩)
      have hedge' := (replay_edges hpass c (hs.states c other hbefore)).1 edge hedge
      exact (hsettled c other hbefore hidle edge hedge).advance htaken hfinal hedge' hadvances

theorem start_settled (pass : Pass) : pass.Settled pass.start := by
  intro b state hstate hpending
  refine absurd ?_ hpending
  have hstates : pass.start.states = empty.insert Graph.entry
      (pass.seed.run { record := .ofConfig pass.config false }).1 := rfl
  rw [hstates, get?_insert] at hstate
  split at hstate
  · next hb => exact hb ▸ mem_singleton_self _
  · simp at hstate

/-- Whatever a block can still send from its state has been absorbed. -/
def AtFixpoint (pass : Pass) (s : Solving) : Prop :=
  ∀ b state, s.states.get? b = some state →
    ∀ r, ∀ edge ∈ ((pass.replay b state).run r).1, s.Received edge

/-- The worklist ends at a fixpoint. -/
theorem solve_atFixpoint (hpass : pass.Formed True) (hsolve : pass.solve = .ok s) :
    s.pending = [] ∧ pass.AtFixpoint s := by
  obtain ⟨⟨hs, hsettled⟩, hidle⟩ := solveWithin_invariant
    (P := fun s => s.WellFormed pass.graph.order ∧ pass.Settled s)
    (fun s b hs hb _ => ⟨visit_formed hpass hs.1 hb, visit_settled hpass hs.1 hs.2 hb⟩)
    ⟨start_formed hpass, start_settled pass⟩ hsolve
  have hnone : ∀ b, b ∉ s.pending := fun b hb => hidle b (hs.pending b hb) hb
  refine ⟨eq_nil_iff_forall_not_mem.mpr hnone, ?_⟩
  intro b state hstate r edge hedge
  rw [(replay_edges hpass b (hs.states b state hstate)).2] at hedge
  exact hsettled b state hstate (hnone b) edge hedge

end Pass

/-- All facts are well-formed types. -/
structure Facts.WellFormed (facts : Facts) : Prop where
  vars : ∀ d t, facts.vars.get? d = some t → t.WellFormed
  returns : ∀ d t, facts.returns.get? d = some t → t.WellFormed

/-- The types of a program that is built from a source are well formed. -/
theorem Source.pass_formed (source : Source) {pass : Pass}
    (hprogram : pass.program = source.program) (hfacts : pass.facts.WellFormed) :
    pass.Formed True where
  context :=
    { vars := hfacts.vars
      returns := hfacts.returns
      table := by
        change pass.program.table.Formed _
        exact hprogram ▸ source.program_table_formed fun _ _ _ => trivial
      enumValues := by
        change ∀ d t, pass.program.enumValues.get? d = some t → t.WellFormed
        exact hprogram ▸ fun d t h => source.program_enumValues_formed h
      lookup := fun _ _ _ => trivial
      members := fun _ _ _ _ => trivial
      ownClass := fun _ _ => trivial
      ownScope := trivial }
  decls _ _ _ := trivial
  sets _ _ _ _ _ := trivial
  tests _ _ _ _ _ _ _ _ _ := trivial

/-- Propagation through a graph ends at a fixpoint, for all facts that are well formed: a block that
has a state sends only what the states of its successors have absorbed. -/
theorem propagate_atFixpoint (source : Source) (config : Config) (facts : Facts)
    (effects : Effects) (graph : Graph) (hfacts : facts.WellFormed) {out : Propagation}
    (hskipped : Pass.isSkipped ⟨source.program, config, facts, effects, graph⟩ = false)
    (hout : Pass.propagate ⟨source.program, config, facts, effects, graph⟩ = .ok out) :
    ∃ s, Pass.solve ⟨source.program, config, facts, effects, graph⟩ = .ok s ∧ s.pending = [] ∧
      Pass.AtFixpoint ⟨source.program, config, facts, effects, graph⟩ s := by
  obtain ⟨s, hsolve, -⟩ := Pass.solve_of_propagate hskipped hout
  exact ⟨s, hsolve, Pass.solve_atFixpoint (source.pass_formed rfl hfacts) hsolve⟩

/-! ### A variable that a function returns -/

/-- A module with a variable `x` and a function that returns it. -/
def sharedVar : Source := .ofItems [.ofVar "x", .ofBody "f" [.ret () (some (.ident () "x"))]]

/-- The run of the function when the variable has a type. -/
def sharedVarPass (t : Ty) (graph : Graph) : Pass :=
  { program := sharedVar.program
    config := {}
    facts := { vars := .ofList [(1, t)] }
    effects := {}
    graph }

theorem propagate_atFixpoint_number : ∃ graph, sharedVar.program.graph 2 = .ok graph ∧
    ∃ s, (sharedVarPass (number 3) graph).solve = .ok s ∧ s.pending = [] ∧
      (sharedVarPass (number 3) graph).AtFixpoint s := by
  obtain ⟨graph, hgraph, hskipped, out, hout⟩ : ∃ graph, sharedVar.program.graph 2 = .ok graph ∧
      (sharedVarPass (number 3) graph).isSkipped = false ∧
      ∃ out, (sharedVarPass (number 3) graph).propagate = .ok out := by decide +kernel
  refine ⟨graph, hgraph, propagate_atFixpoint sharedVar _ _ _ graph ⟨?_, ?_⟩ hskipped hout⟩
  · decide +kernel
  · decide +kernel

/-- A fact with an empty shape is not well formed: the union of such a type with itself has no
shape, so the state that holds it has not absorbed itself. -/
theorem not_atFixpoint_emptyShape : ∃ graph s, sharedVar.program.graph 2 = .ok graph ∧
    (sharedVarPass (exact (.object (DeclSet.one 2) (some []))) graph).isSkipped = false ∧
    (sharedVarPass (exact (.object (DeclSet.one 2) (some []))) graph).solve = .ok s ∧
    ¬(sharedVarPass (exact (.object (DeclSet.one 2) (some []))) graph).AtFixpoint s := by
  obtain ⟨graph, hgraph, hskipped, s, hs, state, hstate, edge, hedge, final, hfinal, ⟨k, u⟩, hu, t,
    ht, hne⟩ : ∃ graph, sharedVar.program.graph 2 = .ok graph ∧
      let pass := sharedVarPass (exact (.object (DeclSet.one 2) (some []))) graph
      pass.isSkipped = false ∧ ∃ s, pass.solve = .ok s ∧ ∃ state, s.states.get? 0 = some state ∧
      ∃ edge ∈ pass.edges 0 state, ∃ final, s.states.get? edge.1 = some final ∧
      ∃ e ∈ final.entries, ∃ t, edge.2.get? e.1 = some t ∧ t.union e.2 ≠ e.2 := by decide +kernel
  refine ⟨graph, s, hgraph, hskipped, hs, ?_⟩
  intro hfix
  obtain ⟨final', hfinal', habsorbs⟩ := hfix 0 state hstate _ edge hedge
  obtain rfl := Option.some.inj (hfinal.symm.trans hfinal')
  obtain ⟨t', ht', heq⟩ := habsorbs k u (mem_entries.mp hu)
  obtain rfl := Option.some.inj (ht.symm.trans ht')
  exact hne heq

end TypeFlow
