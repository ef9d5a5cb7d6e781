import TypeFlow.Proofs.StatementLayout

/-!
# Laying out branches and loops

Conditions are laid out as they are decided, and end in one of two blocks. Branches and loops open
some blocks, fill all of them but one, and go on in that one.
-/

namespace TypeFlow

open Bool Build Building Expr List Option Reading Runs

section

variable {a : Account} {around : Surroundings} {p : Program} {st st' : Building}
  {left right test : Expr NodeId} {condition : Condition} {taken next : BlockId}

/-! ### Conditions -/

theorem calls_of_equalsCondition {whole? : Option (Expr NodeId)} {equal : Bool}
    (h : equalsCondition p whole? left right equal st = .ok (condition, st')) :
    condition.calls = (whole?.getD right).calls := by
  obtain ⟨leftKey?, _, -, h⟩ := bind_inv h
  obtain ⟨rightKey?, _, -, h⟩ := bind_inv h
  cases h
  rfl

theorem calls_of_conditionOf (h : conditionOf p test st = .ok (condition, st')) :
    condition.calls = test.calls := by
  unfold conditionOf at h
  split at h
  · exact calls_of_equalsCondition h
  · exact calls_of_equalsCondition h
  · obtain ⟨key?, _, -, h⟩ := bind_inv h
    cases h
    rfl
  · obtain ⟨key?, _, -, h⟩ := bind_inv h
    cases h
    rfl

/-- Whatever has been found out before, the work finds out how a condition is decided. -/
def Decides (a : Account) (h? : Option BlockId) (labels : List NodeId) (runs : Runs Bool)
    (calls both : Bool) (taken next : BlockId) (work : Build Unit) : Prop :=
  ∀ ⦃left : List NodeId⦄ ⦃W : Waiting⦄ ⦃p : Place⦄ ⦃K F : Prop⦄ ⦃st st' : Building⦄,
    Opened a (labels ++ left) h? W p K F st → work st = .ok ((), st') →
      ∃ k, Closed a left W (K ∧ k) (F ∧ a.Decided h? runs calls both taken next k p) st'

/-- A condition that is not split. -/
theorem decides_leaf {h? : Option BlockId} (e : Expr NodeId) (taken next : BlockId) :
    Decides a h? e.labels (Runs.test e.id) e.calls true taken next (buildLeaf p e taken next) := by
  intro rest W q K F st st' hopened h
  obtain ⟨calls, st₁, hexpr, h⟩ := bind_inv h
  obtain ⟨st₂, hthrow, h⟩ := when_inv h
  obtain ⟨condition, st₃, hcondition, hbranch⟩ := bind_inv h
  obtain ⟨⟨k, hevaluated⟩, hnoted⟩ := hopened.evaluate hexpr hthrow
  obtain ⟨hstill, houtline⟩ :=
    hevaluated.still (adding_composes.condition adding_intern p e) hcondition
  obtain ⟨k', hdecided⟩ := hstill.branch hbranch
    (by rwa [calls_of_conditionOf hcondition, houtline])
  refine ⟨k ∧ k', hdecided.gather fun hf hf' => ?_⟩
  exact Bool.or_false e.calls ▸ hf.decided hf'

/-- The right operand is decided in a block of its own. -/
theorem Account.Decided.andThen {h? : Option BlockId} {first second runs : Runs Bool}
    {calls calls' : Bool} {yes no rest : BlockId} {k k' : Prop} {q : Place}
    (h : a.Decided h? first calls true yes no k q)
    (h' : a.Decided h? second calls' true taken next k' (rest, 0)) (hrest : rest = yes ∨ rest = no)
    (hruns : Splits (a.graph.rest q) first (a.graph.ways yes no) →
      Splits (a.graph.rest (rest, 0)).delayed second (a.graph.ways taken next) →
        Splits (a.graph.rest q) runs (a.graph.ways taken next)) :
    a.Decided h? runs (calls || calls') true taken next (k ∧ k') q := by
  have hreached (hq : q.1 ∈ a.graph.order) : rest ∈ a.graph.order :=
    hrest.elim (· ▸ h.taken hq) (· ▸ h.next rfl hq)
  exact
    { splits := fun hexact => hruns (h.splits hexact)
        ((h'.splits hexact).delayed.weaken fun _ => delayed_noSooner _)
      taken := fun hq => h'.taken (hreached hq)
      next := fun hboth hq => h'.next hboth (hreached hq)
      thrown := fun hcalls hq =>
        (or_eq_true_iff.mp hcalls).elim (h.thrown · hq) (h'.thrown · (hreached hq))
      fills := fun hq => ⟨h.fills hq, h'.fills (hreached hq)⟩ }

theorem decides_logical {yes no : BlockId → BlockId} {runs : Runs Bool} {id : NodeId}
    {op : LogicalOp} {first : BlockId → Build Unit}
    (hleft : ∀ rest, Decides a around.handler? left.labels left.decides left.calls true (yes rest)
      (no rest) (first rest))
    (hright : Decides a around.handler? right.labels right.decides right.calls true taken next
      (buildCondition around right taken next))
    (hrest : ∀ rest, rest = yes rest ∨ rest = no rest)
    (hruns : ∀ {X : Reading} {rest}, Splits X left.decides (a.graph.ways (yes rest) (no rest)) →
      Splits (a.graph.rest (rest, 0)).delayed right.decides (a.graph.ways taken next) →
        Splits X runs (a.graph.ways taken next)) :
    Decides a around.handler? (logical id op left right).labels runs
      (logical id op left right).calls true taken next (do
        let rest ← newBlock around
        first rest
        enter rest
        buildCondition around right taken next) := by
  intro more W q K F st st' hopened h
  simp only [bind_eq_ok] at h
  obtain ⟨rest, st₁, hnew, ⟨⟩, st₂, hfirst, ⟨⟩, st₃, henter, h⟩ := h
  have hlabels : Opened a (left.labels ++ (right.labels ++ more)) _ W q K F st :=
    hopened.tail.relabel fun hnodup => by simpa using hnodup
  obtain ⟨k, hdecided⟩ := hleft rest (hlabels.newBlock hnew) hfirst
  obtain ⟨k', hdecided'⟩ := hright (hdecided.enter [] henter) h
  exact ⟨k ∧ k', hdecided'.gather fun hf hf' => hf.andThen hf' (hrest rest) hruns⟩

/-- Conditions are laid out as they are decided. -/
theorem decides_condition (around : Surroundings) (e : Expr NodeId) (taken next : BlockId) :
    Decides a around.handler? e.labels e.decides e.calls true taken next
      (buildCondition around e taken next) := by
  fun_induction buildCondition around e taken next with
  | case1 id left right taken next hleft hright =>
    refine decides_logical hleft hright (fun _ => .inl rfl) fun hl hr => hl.bind fun outcome => ?_
    cases outcome with
    | true => exact hr
    | false => exact .pure _ (.refl _)
  | case2 id left right taken next hleft hright =>
    refine decides_logical hleft hright (fun _ => .inr rfl) fun hl hr => hl.bind fun outcome => ?_
    cases outcome with
    | true => exact .pure _ (.refl _)
    | false => exact hr
  | case3 id operand taken next hboolean ih =>
    intro more W q K F st st' hopened h
    obtain ⟨k, hdecided⟩ := ih hopened.tail h
    refine ⟨k, hdecided.mono (·) (.imp_right fun hf => ⟨fun hexact => ?_, hf.next rfl,
      fun _ => hf.taken, hf.thrown, hf.fills⟩)⟩
    rw [decides, if_pos hboolean]
    refine (hf.splits hexact).bind fun outcome => .pure _ ?_
    cases outcome <;> exact .refl _
  | case4 id operand taken next hboolean =>
    rw [decides, if_neg hboolean]
    exact decides_leaf _ taken next
  | case5 e taken next hand hor hnot =>
    rw [decides]
    · exact decides_leaf _ taken next
    all_goals assumption

end

/-! ### Branches -/

section

variable {a : Account} {around : Surroundings} {id : NodeId} {test : Expr NodeId}
  {yes no body : Block NodeId}

section

variable {runs : Runs Ending} {x : Exits} {live both calls : Bool} {parts : List (Stmt NodeId)}
  {k : Prop} {p q : Place} {target taken next : BlockId}

theorem Account.Decided.arrives {runs : Runs Bool}
    (h : a.Decided around.handler? runs calls both taken next k p) (hp : p.1 ∈ a.graph.order) :
    Arrives a.graph around (.evaluated calls) taken :=
  ⟨fun _ => h.taken hp, nofun, nofun, (h.thrown · hp)⟩

variable (h : Laid a around runs x live parts k p q) (hgoes : a.Goes q target)

include h hgoes

/-- Statements after which control goes to another block. -/
theorem Laid.splits_goto (hexact : a.exact) : Splits (a.graph.rest p) runs
    (a.graph.onward around.jumps (a.graph.rest (target, 0)).delayed) :=
  hgoes.rest_eq hexact ▸ h.splits hexact

theorem Laid.arrives_goto (hp : p.1 ∈ a.graph.order) : Arrives a.graph around x target :=
  { h.arrives hp with done := fun hdone => hgoes.reaches ((h.arrives hp).done hdone) }

end

/-- Without an alternative, the condition leads into the block or behind the statement. -/
theorem lays_branch_none (hyes : LaysBlock a around yes) :
    LaysStmt a around (.branch id test yes none) := by
  intro left W p K F st st' hopened h
  simp only [buildStmt, isSome_none, false_eq_true, if_false, bind_eq_ok] at h
  obtain ⟨inside, _, hinside, merge, _, hmerge, _, _, hpure, ⟨⟩, _, htest, ⟨⟩, _, henter, ⟨⟩, _,
    hwork, ⟨⟩, _, hgoto, hlast⟩ := h
  cases hpure
  have hlabels : Opened a (test.labels ++ (labelsOfBlock yes ++ left)) _ W p K F st :=
    hopened.tail.relabel fun hnodup => by simpa [labelsOfBlock?] using hnodup
  obtain ⟨k, hdecided⟩ := decides_condition around test inside merge
    ((hlabels.newBlock hinside).newBlock hmerge) htest
  obtain ⟨k', q, hfilled⟩ := hyes (hdecided.enter [_] henter) hwork
  refine ⟨_, _, ((hfilled.goto hgoto).enter [] hlast).mono and_assoc.mpr ?_⟩
  rintro ⟨⟨⟨hF, htest⟩, hyes⟩, hgoes⟩
  refine ⟨hF, fun hexact => ?_, fun hp => ?_, fun hlive hp => ?_, fun t ht => hyes.laid t ?_⟩
  · refine (htest.splits hexact).bind fun outcome => ?_
    cases outcome with
    | true => exact (hyes.splits_goto hgoes hexact).delayed.weaken (a.graph.onward_merges _ _)
    | false => exact .pure _ (delayed_noSooner _)
  · exact (htest.arrives hp).andThen fun hinside =>
      .or (hyes.arrives_goto hgoes hinside) (.of_done (htest.next rfl hp))
  · have hlive : liveBlock around.program yes := by simpa [Stmt.live, liveBlock?] using hlive
    exact ⟨htest.fills hp, hyes.fills hlive (htest.taken hp)⟩
  · simpa [Stmt.parts, Stmt.children] using ht

/-- Both alternatives go on behind the statement. -/
theorem lays_branch_some (hyes : LaysBlock a around yes) (hno : LaysBlock a around no) :
    LaysStmt a around (.branch id test yes (some no)) := by
  intro left W p K F st st' hopened h
  simp only [buildStmt, isSome_some, if_true, buildBlock?, bind_eq_ok] at h
  obtain ⟨inside, _, hinside, merge, _, hmerge, otherwise, _, hotherwise, ⟨⟩, _, htest, ⟨⟩, _,
    henter, ⟨⟩, _, hwork, ⟨⟩, _, hgoto, ⟨⟩, _, henter', ⟨⟩, _, hwork', ⟨⟩, _, hgoto', hlast⟩ := h
  have hlabels : Opened a (test.labels ++ (labelsOfBlock yes ++ (labelsOfBlock no ++ left))) _ W p
      K F st := hopened.tail.relabel fun hnodup => by simpa [labelsOfBlock?] using hnodup
  obtain ⟨k, hdecided⟩ := decides_condition around test inside otherwise
    (((hlabels.newBlock hinside).newBlock hmerge).newBlock hotherwise) htest
  obtain ⟨k', q, hfilled⟩ := hyes (hdecided.enter [_, _] henter) hwork
  obtain ⟨k'', q', hfilled'⟩ := hno ((hfilled.goto hgoto).enter [] henter') hwork'
  refine ⟨k ∧ k' ∧ k'', _, ((hfilled'.goto hgoto').enter [] hlast).mono
    (fun h => ⟨⟨⟨h.1, h.2.1⟩, h.2.2.1⟩, h.2.2.2⟩) ?_⟩
  rintro ⟨⟨⟨⟨⟨hF, htest⟩, hyes⟩, hgoes⟩, hno⟩, hgoes'⟩
  refine ⟨hF, fun hexact => ?_, fun hp => ?_, fun hlive hp => ?_,
    fun t ht => (partOfAny_append.mp ht).elim (hyes.laid t) (hno.laid t)⟩
  · refine (htest.splits hexact).bind fun outcome => ?_
    cases outcome with
    | true => exact (hyes.splits_goto hgoes hexact).delayed.weaken (a.graph.onward_merges _ _)
    | false => exact (hno.splits_goto hgoes' hexact).delayed.weaken (a.graph.onward_merges _ _)
  · exact (htest.arrives hp).andThen fun hinside =>
      .or (hyes.arrives_goto hgoes hinside) (hno.arrives_goto hgoes' (htest.next rfl hp))
  · obtain ⟨hlive, hlive'⟩ := and_eq_true_iff.mp hlive
    exact ⟨htest.fills hp, hyes.fills hlive (htest.taken hp), hno.fills hlive' (htest.next rfl hp)⟩

/-! ### Loops -/

/-- What is read after a round of a loop, which goes on or ends. -/
def Graph.afterRound (g : Graph) (jumps : List Jump) (again : Reading) (after : BlockId) :
    Option Ending → Reading
  | none => again
  | some ending => g.onward jumps (g.rest (after, 0)) ending

variable {g : Graph} {jumps : List Jump} {after : BlockId} {X : Reading}

/-- The jumps out of the body of a loop. -/
theorem Graph.onward_loop (g : Graph) (jumps : List Jump) {next : BlockId}
    (h : X.NoSooner (g.rest (next, 0))) (ending : Ending) :
    (g.onward (⟨after, some next⟩ :: jumps) X ending).NoSooner
      (g.afterRound jumps (g.rest (next, 0)) after ending.ofRound) := by
  cases ending with
  | done => exact h
  | returned | left | next => exact .refl _

theorem Graph.afterRound_delayed (g : Graph) (jumps : List Jump) (again : Reading) (after : BlockId)
    (result : Option Ending) :
    (g.afterRound jumps again after result).delayed.NoSooner
      (g.afterRound jumps again.delayed after result) := by
  cases result with
  | none => exact .refl _
  | some ending => exact delayed_noSooner _

/-- A loop is entered over an edge, and each of its rounds takes another one. -/
theorem Splits.rounds {round : Runs (Option Ending)}
    (h : Splits X round (g.afterRound jumps X.delayed after)) :
    Splits X.delayed (Runs.loop round) (g.onward jumps (g.rest (after, 0))) := by
  have hloop := h.loop (.refl _) fun _ => .refl _
  exact hloop.delayed.weaken fun _ => delayed_noSooner _

/-- A loop whose body may go on comes to its next round. -/
theorem Arrives.repeats {x : Exits} {next : BlockId}
    (h : Arrives g { around with jumps := ⟨after, some next⟩ :: jumps } x next)
    (hx : x.repeats) : next ∈ g.order :=
  (or_eq_true_iff.mp hx).elim h.done fun hnext => h.next hnext _ rfl

/-- The body goes back to the block where the condition starts. -/
theorem lays_while (hbody : ∀ jumps, LaysBlock a { around with jumps } body) :
    LaysStmt a around (.whileLoop id test body) := by
  intro left W p K F st st' hopened h
  simp only [buildStmt, bind_eq_ok] at h
  obtain ⟨header, _, hheader, inside, _, hinside, after, _, hafter, ⟨⟩, _, hstart, ⟨⟩, _, henter,
    ⟨⟩, _, htest, ⟨⟩, _, henter', ⟨⟩, _, hwork, ⟨⟩, _, hagain, hlast⟩ := h
  have hlabels : Opened a (test.labels ++ (labelsOfBlock body ++ left)) _ W p K F st :=
    hopened.tail.relabel fun hnodup => by simpa using hnodup
  have hnew := ((hlabels.newBlock hheader).newBlock hinside).newBlock hafter
  obtain ⟨k, hdecided⟩ := decides_condition around test inside after
    ((hnew.goto hstart).enter [_, _] henter) htest
  obtain ⟨k', q, hfilled⟩ :=
    hbody (⟨after, some header⟩ :: around.jumps) (hdecided.enter [_] henter') hwork
  refine ⟨_, _, ((hfilled.goto hagain).enter [] hlast).mono and_assoc.mpr ?_⟩
  rintro ⟨⟨⟨⟨hF, hstart⟩, htest⟩, hbody⟩, hagain⟩
  refine ⟨hF, fun hexact => ?_, fun hp => ?_, fun hlive hp => ?_, hbody.laid⟩
  · rw [hstart.rest_eq hexact]
    refine .rounds ((htest.splits hexact).bind fun outcome => ?_)
    cases outcome with
    | true =>
      -- The edge of the condition is the one that the next round needs.
      refine (hbody.splits_goto hagain hexact).delayed.bind fun ending => .pure _ ?_
      exact (a.graph.onward_loop _ (delayed_noSooner _) ending).delayed.trans
        (a.graph.afterRound_delayed _ _ _ _)
    | false => exact .pure _ (delayed_noSooner _)
  · have hheader := hstart.reaches hp
    refine { Arrives.of_done (htest.next rfl hheader) with thrown := fun h => ?_ }
    exact (or_eq_true_iff.mp h).elim (htest.thrown · hheader)
      (hbody.arrives (htest.taken hheader)).thrown
  · have hheader := hstart.reaches hp
    exact ⟨htest.fills hheader, hbody.fills hlive (htest.taken hheader)⟩

/-- The body is entered first, and the condition leads back to it. -/
theorem lays_do (hbody : ∀ jumps, LaysBlock a { around with jumps } body) :
    LaysStmt a around (.doLoop id body test) := by
  intro left W p K F st st' hopened h
  simp only [buildStmt, bind_eq_ok] at h
  obtain ⟨inside, _, hinside, testing, _, htesting, after, _, hafter, ⟨⟩, _, hstart, ⟨⟩, _,
    henter, ⟨⟩, _, hwork, ⟨⟩, _, hgoto, ⟨⟩, _, henter', ⟨⟩, _, htest, hlast⟩ := h
  have hlabels := hopened.tail.reorder (by simpa using perm_append_comm_assoc _ _ _)
  have hnew := ((hlabels.newBlock hinside).newBlock htesting).newBlock hafter
  obtain ⟨k, q, hfilled⟩ := hbody (⟨after, some testing⟩ :: around.jumps)
    ((hnew.goto hstart).enter [_, _] henter) hwork
  obtain ⟨k', hdecided⟩ := decides_condition around test inside after
    ((hfilled.goto hgoto).enter [_] henter') htest
  refine ⟨_, _, (hdecided.enter [] hlast).mono and_assoc.mpr ?_⟩
  rintro ⟨⟨⟨⟨hF, hstart⟩, hbody⟩, hgoto⟩, htest⟩
  refine ⟨hF, fun hexact => ?_, fun hp => ?_, fun hlive hp => ?_, hbody.laid⟩
  · rw [hstart.rest_eq hexact]
    have hround := (hbody.splits_goto hgoto hexact).weaken
      (a.graph.onward_loop around.jumps (delayed_noSooner _))
    refine .rounds (hround.bind fun ending => ?_)
    -- Only a body that goes on comes to the condition.
    cases ending with
    | done | next =>
      refine (htest.splits hexact).bind fun outcome => .pure _ ?_
      cases outcome with
      | true => exact .refl _
      | false => exact delayed_noSooner _
    | returned | left => exact .pure _ (.refl _)
  · have hround := hbody.arrives_goto hgoto (hstart.reaches hp)
    refine { Arrives.none after with done := fun h => ?_, thrown := fun h => ?_ }
    · refine (or_eq_true_iff.mp h).elim (fun h => hround.left h _ rfl) fun h => ?_
      exact htest.next rfl (hround.repeats h)
    · refine (or_eq_true_iff.mp h).elim hround.thrown fun h => ?_
      obtain ⟨hrepeats, hcalls⟩ := and_eq_true_iff.mp h
      exact htest.thrown hcalls (hround.repeats hrepeats)
  · obtain ⟨hlive, hrepeats⟩ := and_eq_true_iff.mp hlive
    have hround := hbody.arrives_goto hgoto (hstart.reaches hp)
    exact ⟨hbody.fills hlive (hstart.reaches hp), htest.fills (hround.repeats hrepeats)⟩

/-- A loop without a condition always goes on. -/
theorem decides_test? {test? : Option (Expr NodeId)} {inside : BlockId} {left : List NodeId}
    {W : Waiting} {p : Place} {K F : Prop} {st st'' : Building} {next : Unit → Build Unit}
    (hopened : Opened a (labelsOfOption labels test? ++ left) around.handler? W p K F st)
    (h : (match test? with
      | some test => buildCondition around test inside after >>= next
      | none => goto inside >>= next) st = .ok ((), st'')) :
    ∃ k st', Closed a left W (K ∧ k) (F ∧ a.Decided around.handler?
      (test?.elim (pure true) decides) (test?.any calls) test?.isSome inside after k p)
        st' ∧ next () st' = .ok ((), st'') := by
  cases test? with
  | some test =>
    obtain ⟨⟨⟩, st', htest, h⟩ := bind_inv h
    obtain ⟨k, hclosed⟩ := decides_condition around test inside after hopened htest
    exact ⟨k, st', hclosed, h⟩
  | none =>
    obtain ⟨⟨⟩, st', hgoto, h⟩ := bind_inv h
    refine ⟨True, st', (hopened.goto hgoto).mono And.left (.imp_right fun hgoes => ?_), h⟩
    exact ⟨fun hexact => .pure _ (hgoes.rest_eq hexact ▸ .refl _), hgoes.reaches, nofun, nofun,
      fun _ => trivial⟩

/-- Nothing has to be reached for no statements. -/
theorem LaysStmts.or_nil {ss : List (Stmt NodeId)} {left : List NodeId} {W : Waiting} {p : Place}
    {K F : Prop} {st st' : Building} (h : LaysStmts a around ss)
    (hopened : Opened a (labelsOfStmts ss ++ left) around.handler? W p K F st)
    (hrun : buildStmts around ss st = .ok ((), st')) :
    ∃ k q, (ss = [] → k) ∧ Opened a left around.handler? W q (K ∧ k)
      (F ∧ Laid a around (runStmts around.program ss) (exitsOfStmts around.program ss)
        (liveStmts around.program ss) ss k p q) st' := by
  obtain ⟨k, q, hlaid⟩ := h hopened hrun
  cases ss with
  | nil =>
    cases hrun
    exact ⟨True, p, fun _ => trivial, hopened.mono And.left (⟨·, .nothing a around true p⟩)⟩
  | cons s ss => exact ⟨k, q, nofun, hlaid⟩

variable {test? : Option (Expr NodeId)} {init update : List (Stmt NodeId)}

/-- The body goes on to the update, and the update to the condition. -/
theorem lays_rounds (hupdate : LaysStmts a around update)
    (hbody : ∀ jumps, LaysBlock a { around with jumps } body) :
    let x := exitsOfBlock around.program body
    let y := exitsOfStmts around.program update
    Lays a around.handler?
      (labelsOfOption labels test? ++ (labelsOfStmts update ++ labelsOfBlock body))
      (Laid a around (.loop do
          if ← (test?.elim (pure true) decides) then
            match (← runBlock around.program body).ofRound with
            | none =>
              match ← runStmts around.program update with
              | .done => return none
              | ending => return some ending
            | ending => return ending
          else return some .done)
        { done := test?.isSome || x.left
          left := x.repeats && y.left
          next := x.repeats && y.next
          thrown := test?.any calls || x.thrown || x.repeats && y.thrown }
        (liveBlock around.program body && liveStmts around.program update &&
          (update.isEmpty || x.repeats))
        (update ++ body.stmts)) (do
        let header ← newBlock around
        let inside ← newBlock around
        let updating ← newBlock around
        let after ← newBlock around
        goto header
        enter header
        match test? with
        | some test => buildCondition around test inside after
        | none => goto inside
        enter inside
        buildBlock { around with jumps := ⟨after, some updating⟩ :: around.jumps } body
        goto updating
        enter updating
        buildStmts around update
        goto header
        enter after) := by
  intro x y left W p K F st st' hopened h
  simp only [bind_eq_ok] at h
  obtain ⟨header, _, hheader, inside, _, hinside, updating, _, hupdating, after, _, hafter, ⟨⟩, _,
    hstart, ⟨⟩, _, henter, h⟩ := h
  have hlabels := hopened.reorder (by simpa using (perm_append_comm_assoc _ _ _).append_left _)
  have hnew := (((hlabels.newBlock hheader).newBlock hinside).newBlock hupdating).newBlock hafter
  obtain ⟨k, _, hdecided, h⟩ := decides_test? ((hnew.goto hstart).enter [_, _, _] henter) h
  simp only [bind_eq_ok] at h
  obtain ⟨⟨⟩, _, henter', ⟨⟩, _, hwork, ⟨⟩, _, hgoto, ⟨⟩, _, henter'', ⟨⟩, _, hwork', ⟨⟩, _,
    hagain, hlast⟩ := h
  obtain ⟨k', q, hfilled⟩ := hbody (⟨after, some updating⟩ :: around.jumps)
    (hdecided.enter [_, _] henter') hwork
  obtain ⟨k'', q', hempty, hfilled'⟩ :=
    hupdate.or_nil ((hfilled.goto hgoto).enter [_] henter'') hwork'
  refine ⟨k ∧ k' ∧ k'', _, ((hfilled'.goto hagain).enter [] hlast).mono
    (fun h => ⟨⟨⟨h.1, h.2.1⟩, h.2.2.1⟩, h.2.2.2⟩) ?_⟩
  rintro ⟨⟨⟨⟨⟨⟨hF, hstart⟩, htest⟩, hbody⟩, hgoto⟩, hupdate⟩, hagain⟩
  have hround (hp : p.1 ∈ a.graph.order) :=
    hbody.arrives_goto hgoto (htest.taken (hstart.reaches hp))
  have hupdated (hp : p.1 ∈ a.graph.order) (hrepeats : x.repeats) :=
    hupdate.arrives ((hround hp).repeats hrepeats)
  refine ⟨hF, fun hexact => ?_, fun hp => ⟨fun h => ?_, fun h => ?_, fun h => ?_, fun h => ?_⟩,
    fun hlive hp => ⟨htest.fills (hstart.reaches hp), ?_⟩,
    fun t ht => (partOfAny_append.mp ht).elim (hupdate.laid t) (hbody.laid t)⟩
  · rw [hstart.rest_eq hexact]
    refine .rounds ((htest.splits hexact).bind fun outcome => ?_)
    cases outcome with
    | false => exact .pure _ (delayed_noSooner _)
    | true =>
      have hround := (hbody.splits_goto hgoto hexact).delayed.weaken fun ending =>
        (delayed_noSooner _).trans (a.graph.onward_loop around.jumps (delayed_noSooner _) ending)
      refine hround.bind fun ending => ?_
      cases ending with
      | returned | left => exact .pure _ (.refl _)
      | done | next =>
        -- The jumps of the update are those around the loop.
        refine (hupdate.splits_goto hagain hexact).bind fun ending => ?_
        cases ending with
        | done | returned | left | next => exact .pure _ (.refl _)
  · exact (or_eq_true_iff.mp h).elim (htest.next · (hstart.reaches hp))
      fun h => (hround hp).left h _ rfl
  · obtain ⟨hrepeats, hleft⟩ := and_eq_true_iff.mp h
    exact (hupdated hp hrepeats).left hleft
  · obtain ⟨hrepeats, hnext⟩ := and_eq_true_iff.mp h
    exact (hupdated hp hrepeats).next hnext
  · refine (or_eq_true_iff.mp h).elim (fun h => ?_) fun h => ?_
    · exact (or_eq_true_iff.mp h).elim (htest.thrown · (hstart.reaches hp)) (hround hp).thrown
    · obtain ⟨hrepeats, hthrown⟩ := and_eq_true_iff.mp h
      exact (hupdated hp hrepeats).thrown hthrown
  · simp only [and_eq_true, or_eq_true, List.isEmpty_iff] at hlive
    obtain ⟨⟨hlive, hlive'⟩, hcome⟩ := hlive
    refine ⟨hbody.fills hlive (htest.taken (hstart.reaches hp)), hcome.elim hempty ?_⟩
    exact fun hrepeats => hupdate.fills hlive' ((hround hp).repeats hrepeats)

theorem lays_for (hinit : LaysStmts a around init) (hupdate : LaysStmts a around update)
    (hbody : ∀ jumps, LaysBlock a { around with jumps } body) :
    LaysStmt a around (.forLoop id init test? update body) := by
  intro left W p K F st st' hopened h
  refine Lays.inScope (.bind hinit (lays_rounds hupdate hbody) fun h h' => h.andThen h' ?_)
    (hopened.tail.reorder (by simp)) h
  intro hlive
  simp only [Stmt.live, and_eq_true] at hlive ⊢
  obtain ⟨⟨⟨⟨hinit, hdone⟩, hbody⟩, hupdate⟩, hcome⟩ := hlive
  exact ⟨hinit, .inr ⟨⟨⟨hbody, hupdate⟩, hcome⟩, hdone⟩⟩

end

end TypeFlow
