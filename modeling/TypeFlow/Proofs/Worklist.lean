import TypeFlow.Proofs.Order
import TypeFlow.Proofs.BlockReplays

/-!
# Propagation step by step

What the worklist does to the states of blocks: they stay formed, only blocks of the order become
pending, and a run that ends leaves no block pending.
-/

namespace TypeFlow

open List NumMap Option

variable {strict : Demands}

namespace TypeState

variable {into other : TypeState}

theorem Formed.empty : Formed strict {} :=
  fun k t h => absurd h (by simp [show (∅ : TypeState).get? k = none from rfl])

theorem get?_merge (depth : Nat) (into other : TypeState) (k : Key) :
    (into.merge depth other).get? k = (into.get? k).bind fun t =>
      (other.get? k).map fun u => (t.union u).widen depth := by
  simp only [merge, get?_map, get?_filter, contains_eq_isSome]
  cases into.get? k <;> cases other.get? k <;> simp

theorem Formed.merge (hinto : into.Formed strict) (hother : other.Formed strict) (depth : Nat) :
    (into.merge depth other).Formed strict := by
  intro k t ht
  rw [get?_merge] at ht
  obtain ⟨u, hu, ht⟩ := bind_eq_some_iff.mp ht
  obtain ⟨v, hv, rfl⟩ := map_eq_some_iff.mp ht
  exact ((hinto k u hu).union (hother k v hv)).widen depth

/-- A merge changes nothing when everything is mentioned by the other state, whose types add
nothing to types that are not nested too deeply. -/
theorem mergeChanges_eq_false_iff {depth : Nat} :
    into.mergeChanges depth other = false ↔ ∀ k t, into.get? k = some t →
      ∃ u, other.get? k = some u ∧ t.union u = t ∧ t.widen depth = t := by
  simp only [mergeChanges, List.any_eq_false, Prod.forall, mem_entries]
  refine forall_congr' fun k => forall_congr' fun t => imp_congr_right ?_
  intro _
  cases other.get? k with
  | none => simp
  | some u =>
    simp only [Ty.unionInto_eq, Bool.or_eq_true, decide_eq_true_eq, not_or, not_not,
      Bool.not_eq_true, Ty.widenDrops_eq_false_iff, Option.some.injEq, exists_eq_left']
    exact ⟨fun h => ⟨h.1, by simpa [h.1] using h.2⟩, fun h => ⟨h.1, by simpa [h.1] using h.2⟩⟩

end TypeState

namespace Pass

/-- The states that a block sends when it is replayed from a state. -/
def edges (pass : Pass) (b : BlockId) (state : TypeState) : Edges :=
  ((pass.replay b state).run { record := {} }).1

theorem lacksConstants_self (pass : Pass) : pass.context.LacksConstants pass.facts :=
  fun _ _ _ h => h

variable {pass : Pass}

/-- What a block sends does not depend on what replays have left behind. -/
theorem replay_edges (hpass : pass.Formed strict) (b : BlockId) {state : TypeState}
    (hstate : state.Formed strict) :
    EdgesFormed strict (pass.edges b state) ∧
      ∀ r, ((pass.replay b state).run r).1 = pass.edges b state := by
  have htracks : pass.Tracks strict pass.facts _ (pass.replay b state)
      ((pass.withFacts pass.facts { visits := 0 }).replay b state) :=
    replay_tracks hpass pass.lacksConstants_self b hstate
  obtain ⟨sent, log, hsent, -, hrun, -⟩ := htracks
  have hedges : pass.edges b state = sent := by rw [edges, hrun]
  exact ⟨hedges ▸ hsent, fun r => by rw [hrun, hedges]⟩

end Pass

namespace Solving

/-- The states of blocks are formed and only blocks of the order are pending. -/
structure Formed (strict : Demands) (order : List BlockId) (s : Solving) : Prop where
  states : ∀ b state, s.states.get? b = some state → state.Formed strict
  pending : ∀ b ∈ s.pending, b ∈ order

variable {order : List BlockId} {s : Solving} {b : BlockId} {after : TypeState}

theorem mem_change_pending {c : BlockId} {before? : Option TypeState} :
    c ∈ (s.change b before? after).pending ↔ c = b ∨ c ∈ s.pending := by
  simp only [change]
  split
  · next h =>
      have hb : b ∈ s.pending := by simpa using h
      exact ⟨.inr, fun h => h.elim (fun h => h ▸ hb) id⟩
  · exact mem_cons

theorem Formed.change (h : s.Formed strict order) (hb : b ∈ order) (before? : Option TypeState)
    (hafter : after.Formed strict) : (s.change b before? after).Formed strict order where
  states c state hstate := by
    rw [Solving.change, get?_insert] at hstate
    split at hstate
    · exact some.inj hstate ▸ hafter
    · exact h.states c state hstate
  pending c hc := by
    rcases mem_change_pending.mp hc with rfl | hc
    · exact hb
    · exact h.pending c hc

theorem Formed.send (h : s.Formed strict order) (depth : Nat) {edge : BlockId × TypeState}
    (hedge : edge.1 ∈ order) (hstate : edge.2.Formed strict) :
    (s.send depth edge).Formed strict order := by
  unfold Solving.send
  split
  · exact h.change hedge none hstate
  · next state hfound =>
      refine iteInduction ?_ fun _ => h
      intro _
      exact h.change hedge _ ((h.states _ state hfound).merge hstate depth)

end Solving

namespace Pass

variable {pass : Pass} {s : Solving} {b : BlockId}

/-- The state of the worklist when a block is taken from it. -/
def taken (s : Solving) (b : BlockId) (replay : Replay) : Solving :=
  { s with pending := s.pending.filter fun c => c != b, visits := s.visits + 1, replay }

/-- A visit sends what the block sends from its state. -/
theorem visit_of_state (hpass : pass.Formed strict) {order : List BlockId}
    (hs : s.Formed strict order) {state : TypeState} (hstate : s.states.get? b = some state) :
    pass.visit s b = (pass.edges b state).foldl (Solving.send pass.config.wideningDepth)
      (taken s b ((pass.replay b state).run s.replay).2) := by
  rw [← (replay_edges hpass b (hs.states b state hstate)).2 s.replay]
  simp only [visit, hstate]
  rfl

theorem visit_of_none (hstate : s.states.get? b = none) : pass.visit s b = taken s b s.replay := by
  simp only [visit, hstate]
  rfl

theorem taken_formed {order : List BlockId} (hs : s.Formed strict order) (b : BlockId)
    (replay : Replay) : (taken s b replay).Formed strict order :=
  ⟨hs.states, fun c hc => hs.pending c (mem_filter.mp hc).1⟩

section

variable (hpass : pass.Formed strict) (hs : s.Formed strict pass.graph.order)
  (hb : b ∈ pass.graph.order)

include hpass hs hb

/-- A block of the order sends formed states to blocks of the order. -/
theorem edges_formed {state : TypeState} (hstate : s.states.get? b = some state) :
    ∀ edge ∈ pass.edges b state, edge.1 ∈ pass.graph.order ∧ edge.2.Formed strict :=
  fun edge hedge =>
    ⟨pass.graph.successor_mem_order hb (pass.replayEvents_targets _ _ state _ edge hedge),
      (replay_edges hpass b (hs.states b state hstate)).1 edge hedge⟩

theorem visit_formed : (pass.visit s b).Formed strict pass.graph.order := by
  cases hstate : s.states.get? b with
  | none => exact visit_of_none hstate ▸ taken_formed hs b _
  | some state =>
    rw [visit_of_state hpass hs hstate]
    have hedges := edges_formed hpass hs hb hstate
    exact foldl_invariant (fun s hs edge hedge => hs.send _ (hedges edge hedge).1
      (hedges edge hedge).2) (taken_formed hs b _)

end

theorem start_formed (hpass : pass.Formed strict) : pass.start.Formed strict pass.graph.order where
  states b state hstate := by
    have htracks : pass.context.Marks (pass.SoundMark strict) pass.facts _ pass.seed
        (pass.withFacts pass.facts { visits := 0 }).seed :=
      seed_tracks hpass pass.lacksConstants_self
    obtain ⟨first, log, hfirst, -, hrun, -⟩ := htracks
    have hstates : pass.start.states = empty.insert Graph.entry first := by
      simp only [start, hrun]
      rfl
    rw [hstates, get?_insert] at hstate
    split at hstate
    · exact some.inj hstate ▸ hfirst
    · simp at hstate
  pending b hb := by
    obtain rfl := mem_singleton.mp hb
    exact pass.graph.entry_mem_order

variable {order : List BlockId}

theorem solveWithin_of_none (h : order.find? s.pending.contains = none) (n : Nat) :
    pass.solveWithin order n s = .ok s := by
  unfold solveWithin
  rw [h]

theorem solveWithin_of_some (h : order.find? s.pending.contains = some b) (n : Nat) :
    pass.solveWithin order (n + 1) s = pass.solveWithin order n (pass.visit s b) := by
  rw [solveWithin, h]

theorem solveWithin_zero (h : order.find? s.pending.contains = some b) :
    pass.solveWithin order 0 s = .error (.blockVisitLimit pass.graph.root (s.visits + 1)) := by
  rw [solveWithin, h]

/-- What every visit of a pending block keeps holds at the end, when no block is pending. -/
theorem solveWithin_invariant {P : Solving → Prop}
    (hvisit : ∀ s b, P s → b ∈ order → b ∈ s.pending → P (pass.visit s b)) {n : Nat}
    {final : Solving} (hs : P s) (h : pass.solveWithin order n s = .ok final) :
    P final ∧ ∀ b ∈ order, b ∉ final.pending := by
  induction n generalizing s with
  | zero =>
    cases hfind : order.find? s.pending.contains with
    | none =>
      obtain rfl := Except.ok.inj ((solveWithin_of_none hfind 0).symm.trans h)
      exact ⟨hs, fun b hb => by simpa using find?_eq_none.mp hfind b hb⟩
    | some b => simp [solveWithin_zero hfind] at h
  | succ n ih =>
    cases hfind : order.find? s.pending.contains with
    | none =>
      obtain rfl := Except.ok.inj ((solveWithin_of_none hfind _).symm.trans h)
      exact ⟨hs, fun b hb => by simpa using find?_eq_none.mp hfind b hb⟩
    | some b =>
      rw [solveWithin_of_some hfind] at h
      refine ih (hvisit s b hs (mem_of_find?_eq_some hfind) ?_) h
      simpa using find?_some hfind

/-- What a run finds out once no block is pending. -/
def found (pass : Pass) (s : Solving) : Propagation :=
  let replay := pass.recorded s
  { returned := replay.returned
    writes := replay.writes
    nodeTypes := replay.record.nodeTypes
    diagnostics := replay.record.diagnostics
    reads := replay.record.reads
    changes := s.changes.reverse
    visits := s.visits }

theorem propagate_of_skipped (hskipped : pass.isSkipped) : pass.propagate = .ok pass.skipped := by
  simp only [propagate, hskipped]
  rfl

theorem propagate_of_solve (hskipped : pass.isSkipped = false) (hsolve : pass.solve = .ok s) :
    pass.propagate = .ok (pass.found s) := by
  simp only [propagate, hskipped, hsolve]
  rfl

theorem solve_of_propagate {out : Propagation} (hskipped : pass.isSkipped = false)
    (hout : pass.propagate = .ok out) : ∃ s, pass.solve = .ok s ∧ out = pass.found s := by
  cases hsolve : pass.solve with
  | error e => simp [propagate, hskipped, hsolve, bind, Except.bind] at hout
  | ok s => exact ⟨s, rfl, Except.ok.inj (hout.symm.trans (propagate_of_solve hskipped hsolve))⟩

end Pass

/-! ### Results of closed computations -/

section

variable {ε α : Type} {P : α → Prop} [DecidablePred P]

instance decidableExistsOk (x : Except ε α) : Decidable (∃ a, x = .ok a) :=
  decidable_of_iff x.toOption.isSome (by cases x <;> simp [Except.toOption])

instance decidableExistsOkAnd (x : Except ε α) : Decidable (∃ a, x = .ok a ∧ P a) :=
  decidable_of_iff (x.toOption.any P) (by cases x <;> simp [Except.toOption])

instance decidableExistsSomeAnd (x : Option α) : Decidable (∃ a, x = some a ∧ P a) :=
  decidable_of_iff (x.any P) (by cases x <;> simp)

end

end TypeFlow
