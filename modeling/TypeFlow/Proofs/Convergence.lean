import TypeFlow.Proofs.Agreement
import TypeFlow.Proofs.Bounded
import TypeFlow.Proofs.Descent

/-!
# Propagation converges

A merge reports a change exactly when it changes the state, and no state can be changed by merges
for ever. A visit therefore either changes nothing and leaves fewer blocks pending, or moves the
states of the blocks down a well-founded relation, so the worklist is empty after finitely many
visits.
-/

namespace TypeFlow

open Filter Pass

namespace TypeState

variable {bound depth : Nat} {into other : TypeState}

/-- A merge reports a change exactly when there is one. -/
theorem mergeChanges_eq_false_iff_merge_eq :
    into.mergeChanges depth other = false ↔ into.merge depth other = into := by
  rw [mergeChanges_eq_false_iff]
  constructor
  · intro h
    apply NumMap.ext_get?
    intro k
    rw [get?_merge]
    cases ht : into.get? k with
    | none => rfl
    | some t =>
      obtain ⟨u, hu, hunion, hwiden⟩ := h k t ht
      simp [hu, hunion, hwiden]
  · intro h k t ht
    have hmerge := get?_merge depth into other k
    rw [h, ht] at hmerge
    obtain ⟨u, hu, hwiden⟩ := Option.map_eq_some_iff.mp hmerge.symm
    have hunion := Ty.union_eq_of_widen hwiden
    exact ⟨u, hu, hunion, (congrArg (Ty.widen depth) hunion).symm.trans hwiden⟩

/-- A state is merged with another one and changes. -/
def Grows (bound depth : Nat) (new old : TypeState) : Prop :=
  old.Formed (.below bound) ∧ ∃ other : TypeState, other.Formed (.below bound) ∧
    old.mergeChanges depth other ∧ new = old.merge depth other

theorem grows_wellFounded (bound depth : Nat) : WellFounded (Grows bound depth) := by
  refine wellFounded_iff_isEmpty_descending_chain.mpr ⟨?_⟩
  rintro ⟨f, hf⟩
  have hsettles :=
    eventuallyConst_of_merges (hf 0).1 fun i => by
      obtain ⟨-, other, hother, -, hnext⟩ := hf i
      exact ⟨other, hother, hnext⟩
  obtain ⟨n, hn⟩ := eventuallyConst_atTop_nat.mp hsettles
  obtain ⟨-, other, -, hchanges, hnext⟩ := hf n
  have hsame := mergeChanges_eq_false_iff_merge_eq.mpr (hnext.symm.trans (hn n le_rfl))
  exact absurd (hsame.symm.trans hchanges) (by simp)

/-- A block that had no state has one, or its state has grown. -/
def Improves (bound depth : Nat) : Option TypeState → Option TypeState → Prop
  | some new, some old => new.Grows bound depth old
  | some _, none => True
  | none, _ => False

theorem improves_wellFounded (bound depth : Nat) : WellFounded (Improves bound depth) := by
  refine Subrelation.wf (fun {new old} h => ?_)
    (appears_wellFounded (grows_wellFounded bound depth))
  cases new <;> cases old <;> exact h

end TypeState

namespace Solving

/-- The states of the blocks of the order. -/
def profile (order : List BlockId) (s : Solving) (b : { b // b ∈ order }) : Option TypeState :=
  s.states.get? b

/-- The state of one block improves and all others are kept. -/
def ProfileImproves (bound depth : Nat) {order : List BlockId}
    (new old : { b // b ∈ order } → Option TypeState) : Prop :=
  ∃ b, TypeState.Improves bound depth (new b) (old b) ∧ ∀ c, c ≠ b → new c = old c

theorem profileImproves_wellFounded (bound depth : Nat) (order : List BlockId) :
    WellFounded (@ProfileImproves bound depth order) := by
  exact oneLower_wellFounded (TypeState.improves_wellFounded bound depth)

variable {bound depth : Nat} {order : List BlockId} {s : Solving}

/-- What is sent to a block changes nothing or improves the state of the block. -/
theorem send_improves (hs : s.Formed (.below bound) order) {edge : BlockId × TypeState}
    (hedge : edge.1 ∈ order) (hstate : edge.2.Formed (.below bound)) :
    s.send depth edge = s ∨
      ProfileImproves bound depth ((s.send depth edge).profile order) (s.profile order) := by
  have hchange {before? : Option TypeState} {after : TypeState}
      (h : TypeState.Improves bound depth (some after) (s.states.get? edge.1)) :
      ProfileImproves bound depth ((s.change edge.1 before? after).profile order)
        (s.profile order) := by
    refine ⟨⟨edge.1, hedge⟩, ?_, ?_⟩
    · simpa [profile, change] using h
    · intro c hc
      have hne : (c : BlockId) ≠ edge.1 := fun heq => hc (Subtype.ext heq)
      simp [profile, change, hne]
  unfold send
  split
  · next hnone => exact .inr (hchange (hnone ▸ trivial))
  · next state hfound =>
      split
      · next hchanges =>
          refine .inr (hchange (hfound ▸ ?_))
          exact ⟨hs.states _ state hfound, edge.2, hstate, hchanges, rfl⟩
      · exact .inl rfl

end Solving

namespace Pass

open Relation

variable {pass : Pass} {bound : Nat} {s : Solving}

/-- The order in which visits go down: the states of the blocks improve, or these are kept and fewer
blocks are pending. -/
def Nearer (pass : Pass) (bound : Nat) (new old : Solving) : Prop :=
  Prod.Lex (TransGen (Solving.ProfileImproves bound pass.config.wideningDepth)) (· < ·)
    (new.profile pass.graph.order, new.pending.length)
    (old.profile pass.graph.order, old.pending.length)

theorem nearer_wellFounded (pass : Pass) (bound : Nat) : WellFounded (pass.Nearer bound) :=
  InvImage.wf _ (WellFounded.prod_lex (Solving.profileImproves_wellFounded _ _ _).transGen
    Nat.lt_wfRel.wf)

/-- Sending changes nothing or improves the states. -/
theorem foldl_send_improves {edges : Edges} (hs : s.Formed (.below bound) pass.graph.order)
    (hedges : ∀ edge ∈ edges, edge.1 ∈ pass.graph.order ∧ edge.2.Formed (.below bound)) :
    edges.foldl (Solving.send pass.config.wideningDepth) s = s ∨
      TransGen (Solving.ProfileImproves bound pass.config.wideningDepth)
        ((edges.foldl (Solving.send pass.config.wideningDepth) s).profile pass.graph.order)
        (s.profile pass.graph.order) := by
  refine (foldl_invariant (P := fun acc : Solving =>
    acc.Formed (.below bound) pass.graph.order ∧
      (acc = s ∨ TransGen (Solving.ProfileImproves bound pass.config.wideningDepth)
        (acc.profile pass.graph.order) (s.profile pass.graph.order)))
    ?_ ⟨hs, .inl rfl⟩).2
  rintro acc ⟨hacc, hsofar⟩ edge hedge
  obtain ⟨htarget, hsent⟩ := hedges edge hedge
  refine ⟨hacc.send _ htarget hsent, ?_⟩
  rcases Solving.send_improves hacc htarget hsent with hkept | himproves
  · rwa [hkept]
  · rcases hsofar with rfl | hsofar
    · exact .inr (.single himproves)
    · exact .inr (.head himproves hsofar)

section

variable (hpass : pass.Formed (.below bound)) (hs : s.Formed (.below bound) pass.graph.order)

include hpass hs

/-- A visit of a pending block goes down. -/
theorem visit_nearer {b : BlockId} (hb : b ∈ pass.graph.order) (hpending : b ∈ s.pending) :
    pass.Nearer bound (pass.visit s b) s := by
  have htaken (replay : Replay) : (taken s b replay).pending.length < s.pending.length :=
    List.length_filter_lt_length_iff_exists.mpr ⟨b, hpending, by simp⟩
  cases hstate : s.states.get? b with
  | none =>
    rw [visit_of_none hstate]
    exact .right _ (htaken _)
  | some state =>
    rw [visit_of_state hpass hs hstate]
    rcases foldl_send_improves (taken_formed hs b ((pass.replay b state).run s.replay).2)
      (edges_formed hpass hs hb hstate) with hkept | himproves
    · rw [hkept]
      exact .right _ (htaken _)
    · exact .left _ _ himproves

/-- The worklist is empty after finitely many visits. -/
theorem exists_solveWithin : ∃ n final, pass.solveWithin pass.graph.order n s = .ok final := by
  induction s using (pass.nearer_wellFounded bound).induction with
  | _ s ih =>
  cases hfind : pass.graph.order.find? s.pending.contains with
  | none => exact ⟨0, s, solveWithin_of_none hfind 0⟩
  | some b =>
    have hb := List.mem_of_find?_eq_some hfind
    have hpending : b ∈ s.pending := by simpa using List.find?_some hfind
    obtain ⟨n, final, hfinal⟩ :=
      ih (pass.visit s b) (visit_nearer hpass hs hb hpending) (visit_formed hpass hs hb)
    exact ⟨n + 1, final, (solveWithin_of_some hfind n).trans hfinal⟩

end

/-- More visits than needed change nothing. -/
theorem solveWithin_mono {order : List BlockId} {n k : Nat} {final : Solving} (hle : n ≤ k)
    (h : pass.solveWithin order n s = .ok final) : pass.solveWithin order k s = .ok final := by
  induction k generalizing n s with
  | zero => rwa [Nat.le_zero.mp hle] at h
  | succ k ih =>
    cases hfind : order.find? s.pending.contains with
    | none => rwa [solveWithin_of_none hfind] at h ⊢
    | some b =>
      cases n with
      | zero => simp [solveWithin_zero hfind] at h
      | succ n =>
        rw [solveWithin_of_some hfind] at h ⊢
        exact ih (Nat.le_of_succ_le_succ hle) h

end Pass

/-- Propagation converges: whatever the program, the facts and the limit of nesting are, every limit
of visits from some number on is enough. The states of blocks can be changed only finitely often,
whatever sequence of states over finitely many declarations is merged into them. -/
theorem propagate_converges (pass : Pass) : (∃ enough, ∀ limit, enough ≤ limit → ∃ out,
      propagate { pass with config := { pass.config with maxBlockVisits := limit } } = .ok out) ∧
    ∀ (bound : Nat) (states incoming : ℕ → TypeState),
      (states 0).Formed (.below bound) → (∀ i, (incoming i).Formed (.below bound)) →
      (∀ i, states (i + 1) = (states i).merge pass.config.wideningDepth (incoming i)) →
      ∃ n, ∀ i, n ≤ i → (states i).mergeChanges pass.config.wideningDepth (incoming i) = false := by
  constructor
  · obtain ⟨bound, hpass⟩ := pass.eventually_formed.exists
    obtain ⟨enough, final, hfinal⟩ := exists_solveWithin hpass (start_formed hpass)
    refine ⟨enough, ?_⟩
    intro limit hlimit
    have hsolve : (pass.withFacts pass.facts limit).solve = .ok final := by
      have hagree : (pass.withFacts pass.facts limit).solveWithin pass.graph.order enough
          pass.start = .ok final :=
        solveWithin_agree pass.lacksConstants_self hfinal fun _ _ => ⟨rfl, rfl⟩
      unfold solve
      rw [start_agree pass.lacksConstants_self fun _ _ => ⟨rfl, rfl⟩]
      exact solveWithin_mono hlimit hagree
    cases hskipped : pass.isSkipped with
    | true => exact ⟨_, propagate_of_skipped hskipped⟩
    | false => exact ⟨_, propagate_of_solve hskipped hsolve⟩
  · intro bound states incoming hfirst hincoming hnext
    obtain ⟨n, hn⟩ := eventuallyConst_atTop_nat.mp
      (TypeState.eventuallyConst_of_merges hfirst fun i => ⟨incoming i, hincoming i, hnext i⟩)
    refine ⟨n, fun i hi => TypeState.mergeChanges_eq_false_iff_merge_eq.mpr ?_⟩
    rw [← hnext i]
    exact hn i hi

/-- A state in which the result is a literal. -/
def literalState (i : ℕ) : TypeState := NumMap.empty.insert Graph.resultKey (Ty.long (.ofNat i))

/-- The states of a block to which one literal after another is sent. -/
def countingStates (depth : Nat) : ℕ → TypeState
  | 0 => literalState 0
  | i + 1 => (countingStates depth i).merge depth (literalState i)

theorem literalState_formed (i bound : Nat) : (literalState i).Formed (.below bound) :=
  TypeState.Formed.empty.insert _ .literal

theorem propagate_converges_counting : ∃ graph, sharedVar.program.graph 2 = .ok graph ∧
    (∃ enough, ∀ limit, enough ≤ limit → ∃ out, propagate
      { sharedVarPass (Ty.number 3) graph with config := { maxBlockVisits := limit } } = .ok out) ∧
    ∃ n, ∀ i, n ≤ i → (countingStates 4 i).mergeChanges 4 (literalState i) = false := by
  obtain ⟨graph, hgraph⟩ : ∃ graph, sharedVar.program.graph 2 = .ok graph := by decide +kernel
  obtain ⟨hpropagate, hmerges⟩ := propagate_converges (sharedVarPass (Ty.number 3) graph)
  exact ⟨graph, hgraph, hpropagate,
    hmerges 0 (countingStates 4) literalState (literalState_formed 0 0)
      (fun i => literalState_formed i 0) fun _ => rfl⟩

end TypeFlow
