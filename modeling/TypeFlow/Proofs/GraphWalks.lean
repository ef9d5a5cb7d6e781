import TypeFlow.Proofs.Executions

/-!
# Walks through control-flow graphs

A walk reads the writes, the evaluations and the outcomes of the conditions of the blocks that it
goes through. A `Reading` is what is read from some place on to the exit, together with the number
of edges on the way.

`Splits X runs K` says that to read `X` is to execute `runs` and to read `K` of its result. That is
kept by sequences, and by loops in which every round crosses an edge: the number of edges sees to it
that a walk to the exit goes through finitely many rounds.
-/

namespace TypeFlow

open List Runs

/-- What can be seen of an event, apart from the outcome of a condition. -/
def Event.step? : Event → Option Step
  | .write node _ _ => some (.write node)
  | .run node _ => some (.run node)
  | _ => none

namespace FlowBlock

/-- What can be seen of a block before its condition. -/
def steps (b : FlowBlock) : List Step := b.events.filterMap Event.step?

/-- What is read when a block is left, and where control goes. -/
def edges (b : FlowBlock) : List (List Step × BlockId) :=
  match b.testNode? with
  | none => b.next?.toList.map fun c => (b.steps, c)
  | some node =>
    b.taken?.toList.map (fun c => (b.steps ++ [.test node true], c)) ++
      b.next?.toList.map (fun c => (b.steps ++ [.test node false], c))

end FlowBlock

/-- The walks from one block to another along a number of edges, with what is read on the way. -/
inductive Graph.Walk (g : Graph) : BlockId → Nat → List Step → BlockId → Prop
  | stay (b : BlockId) : Walk g b 0 (g.block b).steps b
  | edge {b c d : BlockId} {n : Nat} {first rest : List Step} (h : (first, c) ∈ (g.block b).edges)
      (hrest : Walk g c n rest d) : Walk g b (n + 1) (first ++ rest) d

/-! ### Readings -/

/-- What is read along some number of edges. -/
abbrev Reading := Nat → List Step → Prop

namespace Reading

/-- Nothing can be read. -/
def nothing : Reading := fun _ _ => False

/-- What is read after an edge. -/
def delayed (X : Reading) : Reading
  | 0, _ => False
  | n + 1, steps => X n steps

/-- The same is read, along no more edges. -/
structure NoSooner (X Y : Reading) : Prop where
  sound : ∀ n steps, X n steps → ∃ m ≤ n, Y m steps
  complete : ∀ m steps, Y m steps → ∃ n, X n steps

variable {X Y Z : Reading}

theorem NoSooner.refl (X : Reading) : X.NoSooner X :=
  ⟨fun n _ h => ⟨n, Nat.le_refl n, h⟩, fun m _ h => ⟨m, h⟩⟩

theorem NoSooner.trans (h : X.NoSooner Y) (h' : Y.NoSooner Z) : X.NoSooner Z where
  sound n steps hX := by
    obtain ⟨m, hm, hY⟩ := h.sound n steps hX
    obtain ⟨k, hk, hZ⟩ := h'.sound m steps hY
    exact ⟨k, Nat.le_trans hk hm, hZ⟩
  complete k steps hZ := by
    obtain ⟨m, hY⟩ := h'.complete k steps hZ
    exact h.complete m steps hY

theorem noSooner_nothing (h : ∀ n steps, ¬ X n steps) : X.NoSooner nothing :=
  ⟨fun n steps hX => absurd hX (h n steps), fun _ _ hX => hX.elim⟩

theorem delayed_noSooner (X : Reading) : X.delayed.NoSooner X where
  sound
    | 0, _, h => h.elim
    | n + 1, _, h => ⟨n, n.le_succ, h⟩
  complete m _ h := ⟨m + 1, h⟩

theorem NoSooner.delayed (h : X.NoSooner Y) : X.delayed.NoSooner Y.delayed where
  sound
    | 0, _, hX => hX.elim
    | n + 1, steps, hX => by
      obtain ⟨m, hm, hY⟩ := h.sound n steps hX
      exact ⟨m + 1, Nat.succ_le_succ hm, hY⟩
  complete
    | 0, _, hY => hY.elim
    | m + 1, steps, hY => by
      obtain ⟨n, hX⟩ := h.complete m steps hY
      exact ⟨n + 1, hX⟩

end Reading

/-- To read `X` is to execute `runs` and to read `K` of its result. -/
structure Splits {α : Type} (X : Reading) (runs : Runs α) (K : α → Reading) : Prop where
  sound : ∀ n steps, X n steps →
    ∃ first a rest, runs first a ∧ steps = first ++ rest ∧ ∃ m ≤ n, K a m rest
  complete : ∀ first a rest m, runs first a → K a m rest → ∃ n, X n (first ++ rest)

namespace Splits

variable {α β : Type} {X Y : Reading} {runs : Runs α} {K K' : α → Reading}

theorem of_noSooner (hX : Y.NoSooner X) (h : Splits X runs K) (hK : ∀ a, (K a).NoSooner (K' a)) :
    Splits Y runs K' where
  sound n steps hY := by
    obtain ⟨m, hm, hX⟩ := hX.sound n steps hY
    obtain ⟨first, a, rest, hrun, rfl, k, hk, hrest⟩ := h.sound m steps hX
    obtain ⟨j, hj, hrest⟩ := (hK a).sound k rest hrest
    exact ⟨first, a, rest, hrun, rfl, j, Nat.le_trans hj (Nat.le_trans hk hm), hrest⟩
  complete first a rest m hrun hrest := by
    obtain ⟨k, hrest⟩ := (hK a).complete m rest hrest
    obtain ⟨n, hX'⟩ := h.complete first a rest k hrun hrest
    exact hX.complete n _ hX'

theorem weaken (h : Splits X runs K) (hK : ∀ a, (K a).NoSooner (K' a)) : Splits X runs K' :=
  of_noSooner (.refl X) h hK

/-- Behind an edge the rest is behind an edge. -/
theorem delayed (h : Splits X runs K) : Splits X.delayed runs fun a => (K a).delayed where
  sound
    | 0, _, hX => hX.elim
    | n + 1, steps, hX => by
      obtain ⟨first, a, rest, hrun, hsteps, m, hm, hrest⟩ := h.sound n steps hX
      exact ⟨first, a, rest, hrun, hsteps, m + 1, Nat.succ_le_succ hm, hrest⟩
  complete first a rest m hrun hrest := by
    cases m with
    | zero => exact hrest.elim
    | succ m =>
      obtain ⟨n, hX⟩ := h.complete first a rest m hrun hrest
      exact ⟨n + 1, hX⟩

theorem pure (a : α) (h : X.NoSooner (K a)) : Splits X (Pure.pure a) K where
  sound n steps hX := by
    obtain ⟨m, hm, hrest⟩ := h.sound n steps hX
    exact ⟨[], a, steps, ⟨rfl, rfl⟩, rfl, m, hm, hrest⟩
  complete := by
    rintro _ _ rest m ⟨rfl, rfl⟩ hrest
    exact h.complete m rest hrest

theorem bind {next : α → Runs β} {L : β → Reading} (h : Splits X runs K)
    (hnext : ∀ a, Splits (K a) (next a) L) : Splits X (runs >>= next) L where
  sound n steps hX := by
    obtain ⟨first, a, rest, hrun, rfl, m, hm, hrest⟩ := h.sound n steps hX
    obtain ⟨second, b, last, hnext, rfl, k, hk, hlast⟩ := (hnext a).sound m rest hrest
    refine ⟨first ++ second, b, last, ⟨first, a, second, hrun, hnext, rfl⟩, ?_,
      k, Nat.le_trans hk hm, hlast⟩
    rw [append_assoc]
  complete := by
    rintro _ b last k ⟨first, a, second, hrun, hstep, rfl⟩ hlast
    obtain ⟨m, hrest⟩ := (hnext a).complete second b last k hstep hlast
    obtain ⟨n, hX⟩ := h.complete first a _ m hrun hrest
    exact ⟨n, by rwa [append_assoc]⟩

theorem stuck (h : ∀ n steps, ¬ X n steps) : Splits X Runs.stuck K where
  sound n steps hX := (h n steps hX).elim
  complete _ _ _ _ hrun := hrun.elim

/-- Rounds, each of which crosses an edge, go on until one of them gives a result. -/
theorem loop {round : Runs (Option α)} {L : Option α → Reading} (h : Splits X round L)
    (hagain : (L none).NoSooner X.delayed) (hends : ∀ a, (L (some a)).NoSooner (K a)) :
    Splits X (Runs.loop round) K where
  sound n := by
    induction n using Nat.strongRecOn with
    | _ n ih =>
    intro steps hX
    obtain ⟨first, result, rest, hround, rfl, m, hm, hrest⟩ := h.sound n steps hX
    cases result with
    | some a =>
      obtain ⟨k, hk, hrest⟩ := (hends a).sound m rest hrest
      exact ⟨first, a, rest, .ends hround, rfl, k, Nat.le_trans hk hm, hrest⟩
    | none =>
      obtain ⟨k, hk, hrest⟩ := hagain.sound m rest hrest
      cases k with
      | zero => exact hrest.elim
      | succ k =>
        obtain ⟨second, a, last, hloop, rfl, j, hj, hlast⟩ := ih k (by omega) rest hrest
        refine ⟨first ++ second, a, last, .again hround hloop, ?_, j, by omega, hlast⟩
        rw [append_assoc]
  complete first a rest m hloop hrest := by
    induction hloop with
    | ends hround =>
      obtain ⟨k, hrest⟩ := (hends _).complete m rest hrest
      exact h.complete _ _ rest k hround hrest
    | again hround _ ih =>
      obtain ⟨n, hX⟩ := ih hrest
      obtain ⟨k, hX⟩ := hagain.complete (n + 1) _ hX
      obtain ⟨j, hX⟩ := h.complete _ _ _ k hround hX
      exact ⟨j, by rwa [append_assoc]⟩

/-- Statements one after the other. Only what comes after the first ones differs. -/
theorem andThen {first second : Runs Ending} {K K' : Ending → Reading} (h : Splits X first K)
    (hdone : Splits (K .done) second K')
    (hends : ∀ ending, ending ≠ .done → (K ending).NoSooner (K' ending)) :
    Splits X (first.andThen second) K' := by
  refine h.bind fun ending => ?_
  cases ending with
  | done => exact hdone
  | returned | left | next => exact .pure _ (hends _ nofun)

end Splits

/-! ### What is read from a place in a block -/

/-- A place in a block, behind a number of its events. -/
abbrev Place := BlockId × Nat

namespace Graph

variable {g : Graph} {b c : BlockId} {n : Nat} {steps : List Step}

theorem Walk.inv (h : g.Walk b n steps c) (hne : b ≠ c) :
    ∃ m first d rest, n = m + 1 ∧ steps = first ++ rest ∧ (first, d) ∈ (g.block b).edges ∧
      g.Walk d m rest c := by
  cases h with
  | stay => exact absurd rfl hne
  | edge hedge hrest => exact ⟨_, _, _, _, rfl, rfl, hedge, hrest⟩

/-- Nothing but the block itself is seen where no edge leads on. -/
theorem walk_iff_of_edges (hedges : (g.block b).edges = []) :
    g.Walk b n steps b ↔ n = 0 ∧ steps = (g.block b).steps := by
  constructor
  · intro h
    cases h with
    | stay => exact ⟨rfl, rfl⟩
    | edge hedge hrest => simp [hedges] at hedge
  · rintro ⟨rfl, rfl⟩
    exact .stay b

/-- A walk starts with all that can be seen of the first block. -/
theorem Walk.exists_append (h : g.Walk b n steps c) :
    ∃ rest, steps = (g.block b).steps ++ rest := by
  cases h with
  | stay => exact ⟨[], (append_nil _).symm⟩
  | edge hedge hrest =>
    unfold FlowBlock.edges at hedge
    split at hedge
    · obtain ⟨d, -, heq⟩ := List.mem_map.mp hedge
      cases heq
      exact ⟨_, rfl⟩
    · rcases mem_append.mp hedge with hedge | hedge
      all_goals
        obtain ⟨d, -, heq⟩ := List.mem_map.mp hedge
        cases heq
        exact ⟨_, append_assoc ..⟩

/-- What can be seen of a block before a place. -/
def seen (g : Graph) (p : Place) : List Step :=
  ((g.block p.1).events.take p.2).filterMap Event.step?

/-- What is read on walks from a place to the exit. -/
def rest (g : Graph) (p : Place) : Reading := fun n steps => g.Walk p.1 n (g.seen p ++ steps) exit

theorem rest_zero (g : Graph) (b : BlockId) (n : Nat) (steps : List Step) :
    g.rest (b, 0) n steps ↔ g.Walk b n steps exit := .rfl

/-- What is read after a condition, depending on its outcome. -/
abbrev ways (g : Graph) (taken next : BlockId) (outcome : Bool) : Reading :=
  (g.rest (if outcome then taken else next, 0)).delayed

/-- Nothing more is seen of the block before its condition, and control goes to other blocks. -/
structure Ends (g : Graph) (p : Place) (test? : Option NodeId) (next? taken? : Option BlockId) :
    Prop where
  ne_exit : p.1 ≠ exit
  seen : g.seen p = (g.block p.1).steps
  test : (g.block p.1).testNode? = test?
  next : (g.block p.1).next? = next?
  taken : (g.block p.1).taken? = taken?

variable {p q : Place} {taken? : Option BlockId}

/-- At the end of a block without a condition control goes on to the next one. -/
theorem Ends.rest_eq_delayed (h : g.Ends p none (some c) taken?) :
    g.rest p = (g.rest (c, 0)).delayed := by
  have hedges : (g.block p.1).edges = [((g.block p.1).steps, c)] := by
    simp [FlowBlock.edges, h.test, h.next]
  funext n steps
  rw [rest, h.seen]
  apply propext
  constructor
  · intro hwalk
    obtain ⟨m, first, d, rest, rfl, hsteps, hedge, hrest⟩ := hwalk.inv h.ne_exit
    rw [hedges, mem_singleton] at hedge
    cases hedge
    exact append_cancel_left hsteps ▸ hrest
  · cases n with
    | zero => exact False.elim
    | succ n => exact fun h => .edge (hedges ▸ mem_singleton_self _) h

/-- At the end of a block with a condition both ways are open. -/
theorem Ends.splits_test {node : NodeId} {taken next : BlockId}
    (h : g.Ends p (some node) (some next) (some taken)) :
    Splits (g.rest p) (Runs.test node) (g.ways taken next) := by
  have hedges : (g.block p.1).edges = [((g.block p.1).steps ++ [.test node true], taken),
      ((g.block p.1).steps ++ [.test node false], next)] := by
    simp [FlowBlock.edges, h.test, h.taken, h.next]
  constructor
  · intro n steps hwalk
    rw [rest, h.seen] at hwalk
    obtain ⟨m, first, d, rest, rfl, hsteps, hedge, hrest⟩ := hwalk.inv h.ne_exit
    rw [hedges, mem_cons, mem_singleton] at hedge
    rcases hedge with hedge | hedge
    all_goals
      cases hedge
      rw [append_assoc] at hsteps
      exact ⟨[.test node _], _, rest, rfl, append_cancel_left hsteps, m + 1, Nat.le_refl _, hrest⟩
  · rintro _ outcome rest m rfl hrest
    cases m with
    | zero => exact hrest.elim
    | succ m =>
      refine ⟨m + 1, ?_⟩
      rw [Graph.rest, h.seen, ← append_assoc]
      refine .edge ?_ hrest
      cases outcome <;> simp [hedges]

/-- Nothing is read from a block that is never left. -/
theorem Ends.not_rest (h : g.Ends p none none taken?) : ¬ g.rest p n steps := by
  intro hwalk
  obtain ⟨m, first, d, rest, -, -, hedge, -⟩ := Walk.inv hwalk h.ne_exit
  simp [FlowBlock.edges, h.test, h.next] at hedge

/-- Steps in the middle of a block. -/
theorem rest_splits_perform {more : List Step} (hblock : q.1 = p.1)
    (hseen : g.seen q = g.seen p ++ more) :
    Splits (g.rest p) (perform more) fun _ => g.rest q := by
  obtain ⟨last, hlast⟩ : g.seen q <+: (g.block p.1).steps :=
    hblock ▸ ( take_prefix _ _).filterMap Event.step?
  constructor
  · intro n steps h
    obtain ⟨after, hafter⟩ := h.exists_append
    rw [← hlast, hseen, append_assoc, append_assoc] at hafter
    have hafter := append_cancel_left hafter
    refine ⟨more, (), last ++ after, rfl, hafter, n, Nat.le_refl n, ?_⟩
    rwa [rest, hblock, hseen, append_assoc, ← hafter]
  · rintro _ _ steps m rfl h
    rw [rest, hblock, hseen, append_assoc] at h
    exact ⟨m, h⟩

end Graph

end TypeFlow
