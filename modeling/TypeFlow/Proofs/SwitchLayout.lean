import TypeFlow.Proofs.BranchLayout

/-!
# Laying out switches

The tests of a switch lead to the blocks of its cases in order, and the last of them fails to the
first default or behind the switch. Each case goes on to the next one.
-/

namespace TypeFlow

open Bool Build Building List Option Runs

section

variable {a : Account} {around : Surroundings} {blocks : List BlockId} {after : BlockId}
  {cases : List (Case NodeId (Stmt NodeId))} {left : List NodeId} {W : Waiting} {K F : Prop}
  {st st' : Building}

/-- The labels in the tests of cases. -/
def labelsOfTests (cases : List (Case NodeId (Stmt NodeId))) : List NodeId :=
  cases.flatMap fun case => labelsOfOption Expr.labels case.test?

/-- The labels in the bodies of cases. -/
def labelsOfBodies (cases : List (Case NodeId (Stmt NodeId))) : List NodeId :=
  cases.flatMap fun case => labelsOfStmts case.body

/-- Tests and bodies come in another order in the graph than in the text. -/
theorem labelsOfCases_perm (cases : List (Case NodeId (Stmt NodeId))) : (labelsOfCases cases).Perm
      (cases.map Case.id ++ (labelsOfTests cases ++ labelsOfBodies cases)) := by
  rw [perm_iff_count]
  intro n
  induction cases with
  | nil => rfl
  | cons case cases ih =>
    simp only [labelsOfCases, labelsOfTests, labelsOfBodies, map_cons, flatMap_cons, count_cons,
      count_append] at ih ⊢
    omega

/-- Blocks for the cases. -/
theorem Opened.newBlocks {h? : Option BlockId} {p : Place} {n : Nat}
    (hopened : Opened a left h? W p K F st) (h : newBlocks around n st = .ok (blocks, st')) :
    blocks.length = n ∧ Opened a left h? (blocks.map (·, around.handler?) ++ W) p K F st' := by
  induction n generalizing blocks st W with
  | zero =>
    cases h
    exact ⟨rfl, hopened⟩
  | succ n ih =>
    obtain ⟨b, st₁, hnew, h⟩ := bind_inv h
    obtain ⟨bs, st₂, hmore, h⟩ := bind_inv h
    cases h
    obtain ⟨hlength, hall⟩ := ih (hopened.newBlock hnew) hmore
    exact ⟨congrArg Nat.succ hlength, { hall.toTrack.perm (.cons _ perm_middle) with
        fresh := fun w hw => hall.fresh w (perm_middle.mem_iff.mpr hw)
        place := hall.place }⟩

/-! ### Tests -/

/-- The tests of cases stand between two places. Control goes to the block of the first case that
matches, or goes on. -/
structure Tested (a : Account) (h? : Option BlockId) (cases : List (Case NodeId (Stmt NodeId)))
    (blocks : List BlockId) (after : BlockId) (k : Prop) (p q : Place) : Prop where
  splits : a.exact → Splits (a.graph.rest p) (firstMatch cases) fun
    | some i => a.graph.rest (blocks.getD i after, 0)
    | none => a.graph.rest q
  matched : p.1 ∈ a.graph.order → ∀ c ∈ cases.zip blocks, c.1.test?.isSome → c.2 ∈ a.graph.order
  failed : p.1 ∈ a.graph.order → q.1 ∈ a.graph.order
  thrown : (cases.any fun c => c.test?.any Expr.calls) → p.1 ∈ a.graph.order →
    ∀ b, h? = some b → b ∈ a.graph.order
  fills : p.1 ∈ a.graph.order → k

/-- A test that fails leads to a block of its own, in which the next test stands. -/
theorem lays_tests (subject : Expr NodeId) (after : BlockId)
    (hlength : blocks.length = cases.length) :
    Lays a around.handler? (labelsOfTests cases) (Tested a around.handler? cases blocks after)
      (buildTests around subject (cases.zip blocks)) := by
  induction cases generalizing blocks with
  | nil =>
    intro left W p K F st st' hopened h
    cases h
    refine ⟨True, p, hopened.mono And.left fun hF => ⟨hF, ?_⟩⟩
    exact ⟨fun _ => .pure _ (.refl _), fun _ => nofun, id, nofun, fun _ => trivial⟩
  | cons case cases ih =>
    obtain ⟨b, bs, rfl⟩ := exists_cons_of_length_eq_add_one hlength
    obtain ⟨id, test?, body⟩ := case
    intro left W p K F st st' hopened h
    have htail : bs.length = cases.length := Nat.succ_inj.mp hlength
    cases test? with
    | none =>
      obtain ⟨k, q, hlast⟩ := ih htail hopened h
      refine ⟨k, q, hlast.map fun hrest => ⟨fun hexact => ?_, fun hp => ?_, hrest.failed,
        by simpa using hrest.thrown, hrest.fills⟩⟩
      · refine (hrest.splits hexact).bind fun found? => ?_
        cases found? <;> exact .pure _ (.refl _)
      · exact forall_mem_cons.mpr ⟨nofun, hrest.matched hp⟩
    | some test =>
      obtain ⟨calls, st₁, hexpr, h⟩ := bind_inv h
      obtain ⟨st₂, hthrow, h⟩ := when_inv h
      simp only [bind_eq_ok] at h
      obtain ⟨condition, st₃, hcondition, fail, st₄, hnew, ⟨⟩, st₅, hbranch, ⟨⟩, _, henter, h⟩ := h
      have hlabels : Opened a (test.labels ++ (labelsOfTests cases ++ left)) _ W p K F st :=
        hopened.reorder (by simp [labelsOfTests, labelsOfOption])
      obtain ⟨⟨k, hevaluated⟩, hnoted⟩ := hlabels.evaluate hexpr hthrow
      obtain ⟨hstill, houtline⟩ := hevaluated.still
        (adding_composes.equality adding_intern _ none subject test true) hcondition
      obtain ⟨k', hdecided⟩ := (hstill.newBlock hnew).branch hbranch (by
        rwa [calls_of_equalsCondition hcondition, newBlock_outline hnew,
          (hstill.toTrack.newBlock hnew).2, houtline])
      obtain ⟨k'', q, hlast⟩ := ih htail (hdecided.enter [] henter) h
      refine ⟨(k ∧ k') ∧ k'', q, hlast.mono (by grind) ?_⟩
      rintro ⟨⟨⟨hF, hf⟩, hf'⟩, hrest⟩
      have htest := hf.decided hf'
      refine ⟨hF, fun hexact => ?_, fun hp => ?_, fun hp => hrest.failed (htest.next rfl hp),
        fun hcalls hp => ?_, fun hp => ⟨htest.fills hp, hrest.fills (htest.next rfl hp)⟩⟩
      · refine (htest.splits hexact).bind fun outcome => ?_
        cases outcome with
        | true => exact .pure _ (Reading.delayed_noSooner _)
        | false =>
          refine (hrest.splits hexact).delayed.bind fun found? => ?_
          cases found? <;> exact .pure _ (Reading.delayed_noSooner _)
      · exact forall_mem_cons.mpr ⟨fun _ => htest.taken hp, hrest.matched (htest.next rfl hp)⟩
      · rw [any_cons, or_eq_true] at hcalls
        exact hcalls.elim (fun h => htest.thrown (by simpa using h) hp)
          (hrest.thrown · (htest.next rfl hp))

/-- The block of the first default. -/
theorem getD_find?_default (hlength : blocks.length = cases.length) :
    (((cases.zip blocks).find? fun c => c.1.test?.isNone).map Prod.snd).getD after =
      blocks.getD (cases.findIdx fun case => case.test?.isNone) after := by
  induction cases generalizing blocks with
  | nil => simp [eq_nil_of_length_eq_zero hlength]
  | cons case cases ih =>
    obtain ⟨b, bs, rfl⟩ := exists_cons_of_length_eq_add_one hlength
    have htail : bs.length = cases.length := Nat.succ_inj.mp hlength
    cases htest : case.test?.isNone <;> simp [findIdx_cons, htest, ih htail]

/-! ### Bodies -/

/-- The blocks where the bodies of cases are come to can be reached. -/
structure Chosen (g : Graph) (cases : List (Case NodeId (Stmt NodeId))) (blocks : List BlockId)
    (after : BlockId) (fallen otherwise : Bool) : Prop where
  before : fallen → blocks.head?.getD after ∈ g.order
  tests : ∀ c ∈ cases.zip blocks, c.1.test?.isSome → c.2 ∈ g.order
  default : otherwise = false → ∀ b,
    ((cases.zip blocks).find? fun c => c.1.test?.isNone).map Prod.snd = some b → b ∈ g.order

namespace Chosen

variable {g : Graph} {case : Case NodeId (Stmt NodeId)} {b : BlockId} {bs : List BlockId}
  {fallen otherwise : Bool}

section

variable (h : Chosen g (case :: cases) (b :: bs) after fallen otherwise)

include h

theorem head (hreached : (fallen || case.test?.isSome || !otherwise)) : b ∈ g.order := by
  rw [or_eq_true, or_eq_true, not_eq_true'] at hreached
  rcases hreached with (hfallen | hsome) | hfirst
  · exact h.before hfallen
  · exact h.tests _ mem_cons_self hsome
  · cases htest : case.test? with
    | some test => exact h.tests _ mem_cons_self (by simp [htest])
    | none => exact h.default hfirst b (by simp [htest])

theorem tail {done : Bool} (hdone : done → bs.head?.getD after ∈ g.order) :
    Chosen g cases bs after done (otherwise || case.test?.isNone) where
  before := hdone
  tests c hc := h.tests c (mem_cons_of_mem _ hc)
  default hfirst b' hb' := by
    obtain ⟨hfirst, hsome⟩ := or_eq_false_iff.mp hfirst
    exact h.default hfirst b' (by simpa [hsome] using hb')

end

end Chosen

/-- The blocks of cases have been filled: from the block of a case on, the bodies of this and all
later cases are executed. -/
structure FilledCases (a : Account) (around : Surroundings)
    (cases : List (Case NodeId (Stmt NodeId))) (blocks : List BlockId) (after : BlockId)
    (k : Prop) : Prop where
  splits : a.exact → ∀ i, Splits (a.graph.rest (blocks.getD i after, 0))
    (runCases around.program cases i) (a.graph.onward around.jumps (a.graph.rest (after, 0)))
  arrives : ∀ fallen otherwise, Chosen a.graph cases blocks after fallen otherwise →
    Arrives a.graph around (exitsOfCases around.program cases fallen otherwise) after
  fills : ∀ fallen otherwise, Chosen a.graph cases blocks after fallen otherwise →
    liveCases around.program cases fallen otherwise → k
  laid : ∀ t, PartOfAny (cases.flatMap Case.body) t →
    ∃ around' st st', LaidOut a.graph around.program around' t st st'

theorem filled_cases (hbodies : ∀ case ∈ cases, LaysStmts a around case.body)
    (hlength : blocks.length = cases.length)
    (hclosed : Closed a (labelsOfBodies cases ++ left) (blocks.map (·, around.handler?) ++ W) K F
      st)
    (h : buildCases around after cases blocks st = .ok ((), st')) :
    ∃ k, Closed a left W (K ∧ k) (F ∧ FilledCases a around cases blocks after k) st' := by
  induction cases generalizing blocks st K F with
  | nil =>
    obtain rfl := eq_nil_of_length_eq_zero hlength
    cases h
    refine ⟨True, hclosed.mono And.left fun hF => ⟨hF, fun _ i => .pure _ (.refl _), ?_, ?_, ?_⟩⟩
    · exact fun fallen otherwise hchosen => { Arrives.none after with done := hchosen.before }
    · exact fun _ _ _ _ => trivial
    · simp [PartOfAny]
  | cons case cases ih =>
    obtain ⟨b, bs, rfl⟩ := exists_cons_of_length_eq_add_one hlength
    obtain ⟨id, test?, body⟩ := case
    simp only [buildCases, bind_eq_ok] at h
    obtain ⟨⟨⟩, st₁, henter, ⟨⟩, st₂, hbody, ⟨⟩, st₃, hgoto, h⟩ := h
    rw [labelsOfBodies, flatMap_cons, append_assoc] at hclosed
    obtain ⟨k, q, hfilled⟩ := (hbodies _ mem_cons_self).inScope (hclosed.enter [] henter) hbody
    obtain ⟨k', hall⟩ := ih (fun case hcase => hbodies case (mem_cons_of_mem _ hcase))
      (Nat.succ_inj.mp hlength) (hfilled.goto hgoto) h
    refine ⟨k ∧ k', hall.mono and_assoc.mpr ?_⟩
    rintro ⟨⟨⟨hF, hbody⟩, hgoes⟩, hrest⟩
    refine ⟨hF, fun hexact i => ?_, fun fallen otherwise hchosen => ?_,
      fun fallen otherwise hchosen hlive => ?_, fun t ht => ?_⟩
    · cases i with
      | succ i => exact hrest.splits hexact i
      | zero =>
        have hnext : bs.head?.getD after = bs.getD 0 after := by cases bs <;> rfl
        refine (hbody.splits_goto hgoes hexact).andThen (hnext ▸ (hrest.splits hexact
          0).delayed.weaken fun _ => Reading.delayed_noSooner _) fun ending hne => ?_
        exact a.graph.onward_eq around.jumps _ (a.graph.rest (after, 0)) hne ▸ .refl _
    · unfold exitsOfCases
      by_cases hreached : (fallen || test?.isSome || !otherwise)
      · have hout := hbody.arrives_goto hgoes (hchosen.head hreached)
        rw [if_pos hreached]
        exact .or { hout with done := fun h => absurd h false_ne_true }
          (hrest.arrives _ _ (hchosen.tail hout.done))
      · rw [if_neg hreached]
        exact .or (.none _) (hrest.arrives _ _ (hchosen.tail fun h => absurd h false_ne_true))
    · rw [liveCases, and_eq_true, and_eq_true] at hlive
      obtain ⟨⟨hreached, hlive⟩, hlive'⟩ := hlive
      have hstart := hchosen.head hreached
      exact ⟨hbody.fills hlive hstart,
        hrest.fills _ _ (hchosen.tail (hbody.arrives_goto hgoes hstart).done) hlive'⟩
    · exact (partOfAny_append.mp ht).elim (hbody.laid t) (hrest.laid t)

/-- The jumps out of the cases of a switch. -/
theorem Graph.onward_switch (g : Graph) (jumps : List Jump) (ending : Ending) :
    (g.onward (⟨after, none⟩ :: jumps) (g.rest (after, 0)) ending).NoSooner
      (g.onward jumps (g.rest (after, 0)) ending.ofSwitch) := by
  cases ending with
  | done | returned | left | next => exact .refl _

theorem Exits.evaluated_andThen (calls calls' : Bool) (x : Exits) :
    (evaluated calls).andThen ((evaluated calls').andThen x) =
      (evaluated (calls || calls')).andThen x := by
  simp [andThen, or, evaluated, Bool.or_assoc]

section

variable (hbodies : ∀ jumps, ∀ case ∈ cases, LaysStmts a { around with jumps } case.body)

include hbodies

/-- The subject has been evaluated, and the case where the switch starts is looked for. -/
theorem lays_cases (subject : Expr NodeId) :
    let x := exitsOfCases around.program cases false false
    Lays a around.handler? (labelsOfCases cases) (Laid a around
        (do return (← runCases around.program cases (← startingCase cases)).ofSwitch)
        ((Exits.evaluated (cases.any fun c => c.test?.any Expr.calls)).andThen
          { x with done := x.done || x.left || cases.all fun c => c.test?.isSome, left := false })
        (liveCases around.program cases false false) (cases.flatMap Case.body)) (do
        let after ← newBlock around
        let bodies ← newBlocks around cases.length
        buildTests around subject (cases.zip bodies)
        let otherwise := ((cases.zip bodies).find? fun c => c.1.test?.isNone).map Prod.snd
        goto (otherwise.getD after)
        buildCases { around with jumps := ⟨after, none⟩ :: around.jumps } after cases bodies
        enter after) := by
  intro x left W p K F st st' hopened h
  simp only [bind_eq_ok] at h
  obtain ⟨after, _, hafter, blocks, st₂, hblocks, ⟨⟩, st₃, htests, ⟨⟩, st₄, hgoto, ⟨⟩, st₅, hfill,
    hlast⟩ := h
  have hlabels : Opened a (labelsOfTests cases ++ (labelsOfBodies cases ++ left)) around.handler? W
      p K F st := by
    refine hopened.relabel fun hnodup => ?_
    have hperm := (labelsOfCases_perm cases).append_right left
    simp only [append_assoc] at hperm
    exact ⟨(nodup_append.mp (hperm.nodup hnodup)).2.1,
      Subset.trans (subset_append_right _ _) hperm.symm.subset⟩
  obtain ⟨hlength, hblocks⟩ := (hlabels.newBlock hafter).newBlocks hblocks
  obtain ⟨k, q, htested⟩ := lays_tests subject after hlength hblocks htests
  obtain ⟨k', hfilled⟩ := filled_cases (hbodies (⟨after, none⟩ :: around.jumps)) hlength
    (htested.goto hgoto) hfill
  refine ⟨_, _, (hfilled.enter [] hlast).mono and_assoc.mpr ?_⟩
  rintro ⟨⟨⟨hF, htests⟩, hgoes⟩, hcases⟩
  have hchosen (hp : p.1 ∈ a.graph.order) : Chosen a.graph cases blocks after false false := by
    refine ⟨nofun, htests.matched hp, fun _ b hb => ?_⟩
    have htarget := hgoes.reaches (htests.failed hp)
    rwa [hb] at htarget
  refine ⟨hF, fun hexact => ?_, fun hp => ?_, fun hlive hp => ?_, hcases.laid⟩
  · have hstarting : Splits (a.graph.rest p) (startingCase cases)
        fun i => a.graph.rest (blocks.getD i after, 0) := by
      refine (htests.splits hexact).bind fun found? => .pure _ ?_
      cases found? with
      | some i => exact .refl _
      | none =>
        rw [hgoes.rest_eq hexact, getD_find?_default hlength]
        exact Reading.delayed_noSooner _
    exact hstarting.bind fun i => (hcases.splits hexact i).bind fun ending =>
      .pure _ (a.graph.onward_switch _ ending)
  · have htested : Arrives a.graph around (.evaluated _) _ :=
      ⟨fun _ => htests.failed hp, nofun, nofun, (htests.thrown · hp)⟩
    refine htested.andThen fun hfailed => ?_
    have hx := hcases.arrives _ _ (hchosen hp)
    refine ⟨fun h => ?_, nofun, hx.next, hx.thrown⟩
    rcases or_eq_true_iff.mp h with h | hall
    · exact (or_eq_true_iff.mp h).elim hx.done fun h => hx.left h _ rfl
    · -- Without a default, control goes behind the switch when all tests fail.
      have hnone : ((cases.zip blocks).find? fun c => c.1.test?.isNone) = none := by
        refine find?_eq_none.mpr fun c hc => ?_
        have hsome := List.all_eq_true.mp hall c.1 (of_mem_zip hc).1
        simpa [isSome_iff_ne_none] using hsome
      have htarget := hgoes.reaches hfailed
      rwa [hnone] at htarget
  · exact ⟨htests.fills hp, hcases.fills _ _ (hchosen hp) hlive⟩

theorem lays_switch {id : NodeId} {subject : Expr NodeId} :
    LaysStmt a around (.switch id subject cases) := by
  intro left W p K F st st' hopened h
  obtain ⟨calls, st₁, hexpr, h⟩ := bind_inv h
  have hlabels : Opened a (subject.labels ++ (labelsOfCases cases ++ left)) _ W p K F st :=
    hopened.tail.reorder (by simp)
  obtain ⟨st₂, k, h, hevaluated⟩ := hlabels.evaluate_run hexpr h
  obtain ⟨k', q, hlast⟩ := lays_cases hbodies subject hevaluated h
  refine ⟨k ∧ k', q, hlast.gather fun hf hcases => ?_⟩
  rw [Stmt.exits, ← Exits.evaluated_andThen]
  exact hf.andThen hcases

end

end

end TypeFlow
