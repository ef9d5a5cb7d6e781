import TypeFlow.Proofs.SwitchLayout

/-!
# Laying out attempts and all statements

The block where exceptions arrive leads to the handlers in order, and what none of them takes goes
to the handlers around. The finalizer is laid out behind the block where the statements of the
attempt and those of its handlers end. By recursion, all statements are laid out as they are
executed; attempts are not executed, but it is known how control leaves them.
-/

namespace TypeFlow

open Bool Build Building List Runs

section

variable {a : Account} {around : Surroundings} {left : List NodeId} {W : Waiting} {K F : Prop}
  {st st' : Building} {h? : Option BlockId} {p : Place}

/-! ### Handlers -/

/-- Nodes are only told apart for exact accounts. -/
theorem Opened.unlabel (rest : List NodeId) (h : Opened a left h? W p K F st)
    (hexact : ¬ a.exact) : Opened a rest h? W p K F st :=
  { h with unseen := fun h => absurd h hexact }

variable {w : BlockId × Option BlockId}

/-- Another one of the waiting blocks is looked at. -/
theorem Closed.front (U : Waiting) (h : Closed a left (U ++ w :: W) K F st) :
    Closed a left (w :: (U ++ W)) K F st :=
  { h.toTrack.perm perm_middle with fresh := fun v hv => h.fresh v (perm_middle.mem_iff.mpr hv) }

/-- A waiting block is never filled. -/
theorem Closed.drop (h : Closed a left (w :: W) K F st) : Closed a left W K F st :=
  { (h.toTrack.step_still (.drop h.waits) (.of_eq rfl) (fun _ => rfl)
    fun _ => trivial).mono id And.left with
    fresh := fun v hv => h.fresh v (mem_cons_of_mem _ hv) }

/-- Exceptions that no handler takes go to the handlers around. -/
theorem laid_handlers_nil {unmatched after : BlockId} (hexact : ¬ a.exact)
    (hclosed : Closed a left ((unmatched, around.handler?) :: W) K F st)
    (h : buildHandlers around after unmatched [] st = .ok ((), st')) :
    Closed a left W K
      (F ∧ Laid a around stuck { thrown := true } true [] True (unmatched, 0) (after, 0)) st' := by
  have hlaid (hthrown : unmatched ∈ a.graph.order → ∀ b, around.handler? = some b →
      b ∈ a.graph.order) :
      Laid a around stuck { thrown := true } true [] True (unmatched, 0) (after, 0) :=
    ⟨fun h => absurd h hexact, fun hp => ⟨nofun, nofun, nofun, fun _ => hthrown hp⟩,
      fun _ _ => trivial, by simp [PartOfAny]⟩
  unfold buildHandlers at h
  cases houter : around.handler? with
  | some outer =>
    simp only [houter] at h
    obtain ⟨⟨⟩, st₁, henter, hgoto⟩ := bind_inv h
    refine ((hclosed.enter [] henter).goto hgoto).mono id (.imp_right fun hgoes => hlaid ?_)
    intro hp b hb
    obtain rfl := Option.some.inj (houter.symm.trans hb)
    exact hgoes.reaches hp
  | none =>
    simp only [houter] at h
    cases h
    exact hclosed.drop.mono id fun hF => ⟨hF, hlaid (by simp [houter])⟩

section

variable {id : NodeId} {name : String} {cls? : Option (Path NodeId)} {body : Block NodeId}
  {handlers : List (Handler NodeId (Stmt NodeId))} {unmatched after : BlockId}

/-- The exception is written to the variable of the handler. -/
theorem lays_handler (hexact : ¬ a.exact) (hbody : LaysBlock a around body) :
    Lays a around.handler? (labelsOfBlock body)
      (Laid a around stuck (exitsOfBlock around.program body) (liveBlock around.program body)
        body.stmts) (inScope do
        match ← declaredKey? around.program id with
        | some key =>
          declare key
          emit (.write id key (.caught cls?))
        | none => pure ()
        buildBlock around body) := by
  refine .inScope fun left W p K F st st' hopened h => ?_
  obtain ⟨key?, st₁, hkey, h⟩ := bind_inv h
  have hkeyed := (hopened.still (adding_declaredKey? _ id) hkey).1
  cases key? with
  | none =>
    obtain ⟨k, q, hlast⟩ := hbody hkeyed h
    exact ⟨k, q, hlast.map fun hf => { hf with splits := fun h => absurd h hexact }⟩
  | some key =>
    obtain ⟨⟨⟩, st₂, hdeclare, h⟩ := bind_inv h
    obtain ⟨⟨⟩, st₃, hemit, h⟩ := bind_inv h
    have hdeclared := (hkeyed.still (adding_modifyScope _) hdeclare).1
    obtain ⟨k, hwritten⟩ := hdeclared.emit hemit rfl rfl nofun
    obtain ⟨k', q, hlast⟩ := hbody hwritten h
    refine ⟨k ∧ k', q, hlast.gather fun hwrite hf => ?_⟩
    exact ⟨fun h => absurd h hexact, fun hp => hf.arrives (hwrite.block ▸ hp),
      fun hlive hp => ⟨hwrite.fills hp, hf.fills hlive (hwrite.block ▸ hp)⟩, hf.laid⟩

section

variable (hexact : ¬ a.exact) (hbody : LaysBlock a around body)

include hexact hbody

/-- All exceptions go to a handler without a class. -/
theorem laid_handlers_all (hclosed : Closed a left ((unmatched, around.handler?) :: W) K F st)
    (h : buildHandlers around after unmatched (⟨id, name, none, body⟩ :: handlers) st = .ok ((),
      st')) : ∃ k, Closed a left W (K ∧ k)
      (F ∧ Laid a around stuck (exitsOfBlock around.program body) (liveBlock around.program body)
        body.stmts k (unmatched, 0) (after, 0)) st' := by
  simp only [buildHandlers, Option.isSome_none, false_eq_true, if_false, bind_eq_ok] at h
  obtain ⟨⟨⟩, _, henter, inside, _, hinside, ⟨⟩, _, hgoto, _, _, hpure, ⟨⟩, _, henter', ⟨⟩, _,
    hwork, ⟨⟩, _, hgoto', h⟩ := h
  cases hpure
  cases h
  have hentered := (((hclosed.enter [] henter).newBlock hinside).goto hgoto).enter [] henter'
  obtain ⟨k, q, hfilled⟩ := lays_handler hexact hbody (hentered.unlabel _ hexact) hwork
  refine ⟨k, (hfilled.goto hgoto').mono (·) ?_⟩
  rintro ⟨⟨⟨hF, hgoes⟩, hbody⟩, hgoes'⟩
  exact ⟨hF, fun h => absurd h hexact, fun hp => hbody.arrives_goto hgoes' (hgoes.reaches hp),
    fun hlive hp => hbody.fills hlive (hgoes.reaches hp), hbody.laid⟩

/-- Exceptions of other classes go on to the other handlers. -/
theorem laid_handlers_some {cls : Path NodeId} {y : Exits} {live : Bool}
    {parts : List (Stmt NodeId)}
    (hrest : ∀ {unmatched : BlockId} {K F : Prop} {st : Building}, Closed a left ((unmatched,
      around.handler?) :: W) K F st → buildHandlers around after unmatched handlers st = .ok ((),
      st') → ∃ k, Closed a left W (K ∧ k) (F ∧ Laid a around stuck y live parts k (unmatched, 0)
      (after, 0)) st') (hclosed : Closed a left ((unmatched, around.handler?) :: W) K F st)
    (h : buildHandlers around after unmatched (⟨id, name, some cls, body⟩ :: handlers) st = .ok
      ((), st')) : ∃ k, Closed a left W (K ∧ k)
      (F ∧ Laid a around stuck ((exitsOfBlock around.program body).or y)
        (liveBlock around.program body && live) (body.stmts ++ parts) k (unmatched, 0)
        (after, 0)) st' := by
  simp only [buildHandlers, Option.isSome_some, if_true, bind_eq_ok] at h
  obtain ⟨⟨⟩, _, henter, inside, _, hinside, fail, _, hfail, ⟨⟩, _, hbranch, _, _, hpure, ⟨⟩, _,
    henter', ⟨⟩, _, hwork, ⟨⟩, _, hgoto, h⟩ := h
  cases hpure
  obtain ⟨k, hdecided⟩ :=
    (((hclosed.enter [] henter).newBlock hinside).newBlock hfail).branch hbranch
      fun h => absurd h false_ne_true
  obtain ⟨k', q, hfilled⟩ :=
    lays_handler hexact hbody ((hdecided.enter [_] henter').unlabel _ hexact) hwork
  obtain ⟨k'', hlast⟩ := hrest (hfilled.goto hgoto) h
  refine ⟨k ∧ k' ∧ k'', hlast.mono (fun h => ⟨⟨⟨h.1, h.2.1⟩, h.2.2.1⟩, h.2.2.2⟩) ?_⟩
  rintro ⟨⟨⟨⟨hF, htest⟩, hbody⟩, hgoes⟩, hrest⟩
  refine ⟨hF, fun h => absurd h hexact, fun hp => ?_, fun hlive hp => ⟨htest.fills hp, ?_⟩,
    fun t ht => (partOfAny_append.mp ht).elim (hbody.laid t) (hrest.laid t)⟩
  · exact (hbody.arrives_goto hgoes (htest.taken hp)).or (hrest.arrives (htest.next rfl hp))
  · obtain ⟨hlive, hlive'⟩ := and_eq_true_iff.mp hlive
    exact ⟨hbody.fills hlive (htest.taken hp), hrest.fills hlive' (htest.next rfl hp)⟩

end

end

theorem laid_handlers {after : BlockId} (hexact : ¬ a.exact) :
    ∀ {handlers : List (Handler NodeId (Stmt NodeId))} {unmatched : BlockId} {K F : Prop}
      {st : Building}, (∀ handler ∈ handlers, LaysBlock a around handler.body) →
      Closed a left ((unmatched, around.handler?) :: W) K F st →
      buildHandlers around after unmatched handlers st = .ok ((), st') →
      ∃ k, (handlers = [] → k) ∧ Closed a left W (K ∧ k)
        (F ∧ Laid a around stuck (exitsOfHandlers around.program handlers)
          (liveHandlers around.program handlers)
          ((effective handlers).flatMap fun handler => handler.body.stmts) k (unmatched, 0)
          (after, 0)) st'
  | [], _, _, _, _, _, hclosed, h =>
    ⟨True, fun _ => trivial, (laid_handlers_nil hexact hclosed h).mono And.left id⟩
  | ⟨_, _, none, _⟩ :: _, _, _, _, _, hbodies, hclosed, h => by
    obtain ⟨k, hlast⟩ := laid_handlers_all hexact (hbodies _ mem_cons_self) hclosed h
    refine ⟨k, nofun, hlast.mono id (.imp_right fun hf => ⟨hf.splits, hf.arrives, ?_, ?_⟩)⟩
    · simpa [liveHandlers] using hf.fills
    · simpa [effective] using hf.laid
  | ⟨_, _, some _, _⟩ :: handlers, _, _, _, _, hbodies, hclosed, h => by
    have hrest := forall_mem_cons.mp hbodies
    obtain ⟨k, hlast⟩ := laid_handlers_some hexact hrest.1
      (fun hclosed h => (laid_handlers hexact hrest.2 hclosed h).imp fun _ => And.right) hclosed h
    refine ⟨k, nofun, hlast.mono id (.imp_right fun hf => ⟨hf.splits, hf.arrives, ?_, ?_⟩)⟩
    · simpa [liveHandlers] using hf.fills
    · simpa [effective] using hf.laid

/-! ### Attempts -/

section

variable {id : NodeId} {body : Block NodeId} {handlers : List (Handler NodeId (Stmt NodeId))}
  (hexact : ¬ a.exact) (hbody : ∀ handler?, LaysBlock a { around with handler? } body)
  (hhandlers : ∀ handler ∈ handlers, LaysBlock a around handler.body)

include hexact hbody hhandlers

/-- The attempt before its finalizer. -/
theorem lays_attempt {labels : List NodeId} : Lays a around.handler? labels (Laid a around stuck
      ((exitsOfBlock around.program body).caughtBy (exitsOfHandlers around.program handlers))
      (liveBlock around.program body && liveHandlers around.program handlers &&
        (handlers.isEmpty || (exitsOfBlock around.program body).thrown))
      (body.stmts ++ (effective handlers).flatMap fun handler => handler.body.stmts))
      (buildStmt around (.attempt id body handlers none)) := by
  intro left W p K F st st' hopened h
  simp only [buildStmt, buildBlock?, bind_eq_ok] at h
  obtain ⟨dispatch, _, hdispatch, after, _, hafter, inside, st₃, hinside, ⟨⟩, _, hgoto, ⟨⟩, _,
    henter, ⟨⟩, _, hwork, ⟨⟩, _, hgoto', ⟨⟩, _, hcaught, ⟨⟩, _, hlast, h⟩ := h
  cases h
  have hnew := ((hopened.newBlock hdispatch).newBlock hafter).newBlock hinside
  obtain ⟨k, q, hfilled⟩ := hbody (some dispatch)
    (((hnew.goto hgoto).enter [] henter).unlabel (labelsOfBlock body ++ left) hexact) hwork
  obtain ⟨k', hempty, hhandled⟩ :=
    laid_handlers hexact hhandlers ((hfilled.goto hgoto').front [_]) hcaught
  refine ⟨k ∧ k', _, (hhandled.enter [] hlast).mono and_assoc.mpr ?_⟩
  rintro ⟨⟨⟨⟨hF, hgoes⟩, hbody⟩, hgoes'⟩, hrest⟩
  have hin (hp : p.1 ∈ a.graph.order) := hbody.arrives_goto hgoes' (hgoes.reaches hp)
  refine ⟨hF, fun h => absurd h hexact, fun hp => ?_, fun hlive hp => ?_,
    fun t ht => (partOfAny_append.mp ht).elim (hbody.laid t) (hrest.laid t)⟩
  · have hx := hin hp
    unfold Exits.caughtBy
    split
    · next hthrown =>
      exact .or { hx with thrown := (Arrives.none after).thrown }
        (hrest.arrives (hx.thrown hthrown _ rfl))
    · next hthrown => exact ⟨hx.done, hx.left, hx.next, fun h => absurd h hthrown⟩
  · simp only [and_eq_true, or_eq_true, List.isEmpty_iff] at hlive
    obtain ⟨⟨hlive, hlive'⟩, hcome⟩ := hlive
    refine ⟨hbody.fills hlive (hgoes.reaches hp), hcome.elim hempty fun hthrown => ?_⟩
    exact hrest.fills hlive' ((hin hp).thrown hthrown _ rfl)

theorem lays_attempt_none : LaysStmt a around (.attempt id body handlers none) := by
  refine (lays_attempt hexact hbody hhandlers).mono fun h => ⟨h.splits, ?_, ?_, ?_⟩
  · rw [Stmt.exits, exitsOfBlock?, Exits.andThen_done]
    exact h.arrives
  · simpa [Stmt.live, liveBlock?] using h.fills
  · simpa [Stmt.parts] using h.laid

omit hexact hbody hhandlers in
/-- The finalizer is laid out behind the rest of the attempt. -/
theorem buildStmt_attempt_some (finalizer : Block NodeId) :
    buildStmt around (.attempt id body handlers (some finalizer)) = (do
      buildStmt around (.attempt id body handlers none)
      buildBlock around finalizer) := by
  simp only [buildStmt, buildBlock?, bind_assoc, pure_bind]

theorem lays_attempt_some {finalizer : Block NodeId} (hfinalizer : LaysBlock a around finalizer) :
    LaysStmt a around (.attempt id body handlers (some finalizer)) := by
  intro left W p K F st st' hopened h
  rw [buildStmt_attempt_some] at h
  obtain ⟨⟨⟩, st₁, hattempt, hfinal⟩ := bind_inv h
  obtain ⟨k, q, hfirst⟩ := lays_attempt hexact hbody hhandlers
    (hopened.unlabel ([] ++ (labelsOfBlock finalizer ++ left)) hexact) hattempt
  obtain ⟨k', q', hlast⟩ := hfinalizer hfirst hfinal
  refine ⟨k ∧ k', q', hlast.gather fun hf hf' => ?_⟩
  have hboth := hf.andThen hf' fun (hlive : Stmt.live around.program
      (.attempt id body handlers (some finalizer)) = true) => by
    rw [Stmt.live, and_eq_true, and_eq_true] at hlive
    exact ⟨hlive.1.1, .inr ⟨hlive.1.2, hlive.2⟩⟩
  refine ⟨fun h => absurd h hexact, hboth.arrives, hboth.fills, ?_⟩
  simpa [Stmt.parts] using hboth.laid

end

end

/-! ### All statements -/

/-- Some nodes have declarations. -/
def Program.DeclaresAll (p : Program) (nodes : List NodeId) : Prop :=
  ∀ n ∈ nodes, (p.declaredAt? n).isSome = true

section

variable {a : Account} {around : Surroundings}

/-- The statement itself is laid out as well as its parts. -/
theorem Lays.whole {s : Stmt NodeId} (h : LaysStmt a around s) :
    Lays a around.handler? s.labels (Laid a around (runStmt around.program s)
      (s.exits around.program) (s.live around.program) [s]) (buildStmt around s) := by
  intro left W p K F st st' hopened hrun
  obtain ⟨k, q, hlast⟩ := h hopened hrun
  refine ⟨k, q, { hlast with sees := fun hsees => ?_ }⟩
  obtain ⟨hF, hf⟩ := hlast.sees hsees
  refine ⟨hF, { hf with laid := fun t ht => ?_ }⟩
  obtain ⟨u, hu, ht⟩ := ht
  obtain rfl := mem_singleton.mp hu
  cases ht with
  | refl => exact ⟨around, st, st', rfl, hopened.waits.sublist (by simp), hrun, hsees.grows⟩
  | inside hpart ht => exact hf.laid t ⟨_, hpart, ht⟩

theorem lays_nothing (live : Bool) :
    Lays a around.handler? [] (Laid a around (return .done) { done := true } live [])
      (pure ()) := by
  intro left W p K F st st' hopened hrun
  cases hrun
  exact ⟨True, p, hopened.mono And.left (⟨·, .nothing a around live p⟩)⟩

/-- Statements one after the other. The last one need not come to its end. -/
theorem lays_cons {s : Stmt NodeId} {ss : List (Stmt NodeId)} (hfirst : LaysStmt a around s)
    (hrest : LaysStmts a around ss) : LaysStmts a around (s :: ss) := by
  intro left W p K F st st' hopened hrun
  obtain ⟨⟨⟩, st₁, hstmt, hrun⟩ := bind_inv hrun
  rw [labelsOfStmts, append_assoc] at hopened
  obtain ⟨k, q, hstarted⟩ := hfirst.whole hopened hstmt
  obtain ⟨k', r, hempty, hlast⟩ := hrest.or_nil hstarted hrun
  refine ⟨k ∧ k', r, hlast.gather fun hf hf' => ?_⟩
  refine hf.andThen hf' fun hlive => ?_
  simp only [liveStmts, and_eq_true, or_eq_true, List.isEmpty_iff] at hlive
  exact ⟨hlive.1.1, hlive.2.imp hempty (⟨hlive.1.2, ·⟩)⟩

mutual

/-- Every statement is laid out as it is executed, whatever surrounds it. -/
theorem lays_stmt (around : Surroundings) : ∀ s : Stmt NodeId,
    (a.exact → s.attempts = false ∧ around.program.DeclaresAll s.vars) → LaysStmt a around s
  | .var id v, hplain => lays_var fun hexact => (hplain hexact).2 v.id mem_cons_self
  | .expr id value, _ => lays_expr id value
  | .assign .., _ => lays_assign
  | .ret id value?, _ => lays_ret id value?
  | .branch id test yes none, hplain => lays_branch_none (lays_block around yes (by
      simpa [Stmt.attempts, attemptsInBlock?, Stmt.vars, varsOfBlock?] using hplain))
  | .branch id test yes (some no), hplain => by
    simp only [Stmt.attempts] at hplain
    exact lays_branch_some (lays_block around yes (by grind [Program.DeclaresAll, Stmt.vars]))
      (lays_block around no (by
        grind [Program.DeclaresAll, Stmt.vars, varsOfBlock?, attemptsInBlock?]))
  | .whileLoop id test body, hplain =>
    lays_while fun jumps => lays_block { around with jumps } body hplain
  | .doLoop id body test, hplain =>
    lays_do fun jumps => lays_block { around with jumps } body hplain
  | .forLoop id init test? update body, hplain => by
    simp only [Stmt.attempts] at hplain
    exact lays_for (lays_stmts around init (by grind [Program.DeclaresAll, Stmt.vars]))
      (lays_stmts around update (by grind [Program.DeclaresAll, Stmt.vars]))
      fun jumps => lays_block { around with jumps } body (by grind [Program.DeclaresAll, Stmt.vars])
  | .switch id subject cases, hplain =>
    lays_switch fun jumps => lays_bodies { around with jumps } cases hplain
  | .leave id, _ => lays_leave id
  | .next id, _ => lays_next id
  | .raise id value, _ => lays_raise id value
  | .attempt id body handlers finalizer?, hplain => by
    have hexact : ¬ a.exact := fun h => absurd (hplain h).1 (by simp [Stmt.attempts])
    have hbody (handler? : Option BlockId) :=
      lays_block { around with handler? } body fun h => absurd h hexact
    have hhandlers := lays_handlers hexact around handlers
    match finalizer? with
    | none => exact lays_attempt_none hexact hbody hhandlers
    | some finalizer =>
      exact lays_attempt_some hexact hbody hhandlers
        (lays_block around finalizer fun h => absurd h hexact)
  | .block id body, hplain => (lays_block around body hplain).labeled

theorem lays_stmts (around : Surroundings) : ∀ ss : List (Stmt NodeId),
    (a.exact → attemptsInStmts ss = false ∧ around.program.DeclaresAll (varsOfStmts ss)) →
      LaysStmts a around ss
  | [], _ => lays_nothing true
  | s :: ss, hplain => by
    simp only [attemptsInStmts] at hplain
    exact lays_cons (lays_stmt around s (by grind [Program.DeclaresAll, varsOfStmts]))
      (lays_stmts around ss (by grind [Program.DeclaresAll, varsOfStmts]))

theorem lays_block (around : Surroundings) : ∀ b : Braced NodeId (Stmt NodeId),
    (a.exact → attemptsInBlock b = false ∧ around.program.DeclaresAll (varsOfBlock b)) →
      LaysBlock a around b
  | ⟨_, stmts⟩, hplain => (lays_stmts around stmts hplain).inScope.labeled

theorem lays_bodies (around : Surroundings) : ∀ cases : List (Case NodeId (Stmt NodeId)),
    (a.exact → attemptsInCases cases = false ∧ around.program.DeclaresAll (varsOfCases cases)) →
      ∀ case ∈ cases, LaysStmts a around case.body
  | [], _ => by simp
  | ⟨id, test?, body⟩ :: cases, hplain => by
    simp only [attemptsInCases] at hplain
    exact forall_mem_cons.mpr ⟨lays_stmts around body (by grind [Program.DeclaresAll, varsOfCases]),
        lays_bodies around cases (by grind [Program.DeclaresAll, varsOfCases])⟩

theorem lays_handlers (hexact : ¬ a.exact) (around : Surroundings) :
    ∀ handlers : List (Handler NodeId (Stmt NodeId)), ∀ handler ∈ handlers,
      LaysBlock a around handler.body
  | [] => by simp
  | ⟨_, _, _, body⟩ :: handlers => forall_mem_cons.mpr
    ⟨lays_block around body fun h => absurd h hexact, lays_handlers hexact around handlers⟩

end

theorem lays_block? (around : Surroundings) (b? : Option (Block NodeId))
    (hplain : a.exact → attemptsInBlock? b? = false ∧
      around.program.DeclaresAll (varsOfBlock? b?)) :
    Lays a around.handler? (labelsOfBlock? b?) (Laid a around (runBlock? around.program b?)
      (exitsOfBlock? around.program b?) (liveBlock? around.program b?)
      (b?.elim [] Braced.stmts)) (buildBlock? around b?) := by
  cases b? with
  | none => exact lays_nothing true
  | some b => exact lays_block around b hplain

end

end TypeFlow
