import TypeFlow.Proofs.BlockLayout

/-!
# Laying out simple statements

A statement is laid out between two places of the complete graph. What is read from the first place
on is what an execution of the statement does, followed by what is read where the execution goes on.
When the first place can be reached, so can the places where control may go, and the blocks to which
events are added as long as control may come to all parts of the statement.
-/

namespace TypeFlow

open Build Building Graph List Opened Option Runs

/-! ### Statements that are laid out -/

section

variable {ι : Type}

/-- The handlers that are laid out: none after one for all exceptions. -/
def effective : List (Handler ι (Stmt ι)) → List (Handler ι (Stmt ι))
  | [] => []
  | handler :: handlers =>
    if handler.cls?.isSome then handler :: effective handlers else [handler]

/-- The statements that are laid out directly inside a statement. -/
def Stmt.parts : Stmt ι → List (Stmt ι)
  | .attempt _ body handlers finalizer? =>
    body.stmts ++ ((effective handlers).flatMap (fun handler => handler.body.stmts) ++
      finalizer?.elim [] Braced.stmts)
  | s => s.children

/-- A statement is another one or is laid out somewhere inside it. -/
inductive Stmt.PartOf (s : Stmt ι) : Stmt ι → Prop
  | refl : PartOf s s
  | inside {t u : Stmt ι} (hpart : t ∈ u.parts) (h : PartOf s t) : PartOf s u

/-- A statement is laid out as one of some statements, or somewhere inside one of them. -/
def PartOfAny (ss : List (Stmt ι)) (s : Stmt ι) : Prop := ∃ t ∈ ss, s.PartOf t

theorem partOfAny_append {ss ts : List (Stmt ι)} {t : Stmt ι} :
    PartOfAny (ss ++ ts) t ↔ PartOfAny ss t ∨ PartOfAny ts t := by
  simp [PartOfAny, or_and_right, exists_or]

end

/-- In the construction of a graph of a program, a statement is laid out between two states. -/
structure LaidOut (g : Graph) (p : Program) (around : Surroundings) (s : Stmt NodeId)
    (st st' : Building) : Prop where
  program : around.program = p
  waits : st.Waits [(st.current, around.handler?)]
  run : buildStmt around s st = .ok ((), st')
  grows : st'.graph.Grows g

/-! ### Blocks that can be reached -/

/-- The ways of control lead to blocks that can be reached. -/
structure Arrives (g : Graph) (around : Surroundings) (x : Exits) (after : BlockId) : Prop where
  done : x.done → after ∈ g.order
  left : x.left → ∀ jump, around.jumps.head? = some jump → jump.leave ∈ g.order
  next : x.next → ∀ target, around.jumps.findSome? Jump.next? = some target → target ∈ g.order
  thrown : x.thrown → ∀ handler, around.handler? = some handler → handler ∈ g.order

namespace Arrives

variable {g : Graph} {around : Surroundings} {x y : Exits} {mid after : BlockId}

theorem none (after : BlockId) : Arrives g around {} after := ⟨nofun, nofun, nofun, nofun⟩

theorem of_done (h : after ∈ g.order) : Arrives g around { done := true } after :=
  { none after with done := fun _ => h }

theorem or (hx : Arrives g around x after) (hy : Arrives g around y after) :
    Arrives g around (x.or y) after where
  done h := (Bool.or_eq_true_iff.mp h).elim hx.done hy.done
  left h := (Bool.or_eq_true_iff.mp h).elim hx.left hy.left
  next h := (Bool.or_eq_true_iff.mp h).elim hx.next hy.next
  thrown h := (Bool.or_eq_true_iff.mp h).elim hx.thrown hy.thrown

theorem andThen (hx : Arrives g around x mid) (hy : mid ∈ g.order → Arrives g around y after) :
    Arrives g around (x.andThen y) after := by
  unfold Exits.andThen
  split
  · next hdone =>
    have hy := hy (hx.done hdone)
    exact
      { done := hy.done
        left := fun h => (Bool.or_eq_true_iff.mp h).elim hx.left hy.left
        next := fun h => (Bool.or_eq_true_iff.mp h).elim hx.next hy.next
        thrown := fun h => (Bool.or_eq_true_iff.mp h).elim hx.thrown hy.thrown }
  · next hdone => exact { hx with done := fun h => absurd h hdone }

end Arrives

theorem Exits.andThen_done (x : Exits) : x.andThen { done := true } = x := by
  cases x with
  | mk done => cases done <;> simp [andThen, or]

/-! ### What is read behind a statement -/

namespace Graph

/-- What is read after a statement, depending on how it ends. -/
def onward (g : Graph) (jumps : List Jump) (done : Reading) : Ending → Reading
  | .done => done
  | .returned => g.rest (exit, 0)
  | .left =>
    match jumps.head? with
    | some jump => g.rest (jump.leave, 0)
    | none => .nothing
  | .next =>
    match jumps.findSome? Jump.next? with
    | some target => g.rest (target, 0)
    | none => .nothing

variable (g : Graph) (jumps : List Jump)

theorem onward_noSooner {X Y : Reading} (h : X.NoSooner Y) (ending : Ending) :
    (g.onward jumps X ending).NoSooner (g.onward jumps Y ending) := by
  cases ending with
  | done => exact h
  | returned | left | next => exact .refl _

/-- Two edges lead to the same place. -/
theorem onward_merges (X : Reading) (ending : Ending) :
    (g.onward jumps X.delayed ending).delayed.NoSooner (g.onward jumps X ending) :=
  (Reading.delayed_noSooner _).trans (g.onward_noSooner _ (Reading.delayed_noSooner X) ending)

theorem onward_eq (X Y : Reading) {ending : Ending} (h : ending ≠ .done) :
    g.onward jumps X ending = g.onward jumps Y ending := by
  cases ending with
  | done => exact absurd rfl h
  | returned | left | next => rfl

end Graph

/-! ### Laid out between two places -/

/-- Executions are laid out between two places. Their ways lead to blocks that can be reached, and
so are the blocks that have got events, unless the executions are not `live`. -/
structure Laid (a : Account) (around : Surroundings) (runs : Runs Ending) (x : Exits) (live : Bool)
    (parts : List (Stmt NodeId)) (k : Prop) (p q : Place) : Prop where
  splits : a.exact → Splits (a.graph.rest p) runs (a.graph.onward around.jumps (a.graph.rest q))
  arrives : p.1 ∈ a.graph.order → Arrives a.graph around x q.1
  fills : live → p.1 ∈ a.graph.order → k
  laid : ∀ t, PartOfAny parts t → ∃ around' st st', LaidOut a.graph around.program around' t st st'

variable (a : Account)

/-- Whatever has been found out before, the work finds out about the place where it starts and the
one where it ends. -/
def Lays (h? : Option BlockId) (labels : List NodeId)
    (lay : Prop → Place → Place → Prop) (work : Build Unit) : Prop :=
  ∀ ⦃left : List NodeId⦄ ⦃W : Waiting⦄ ⦃p : Place⦄ ⦃K F : Prop⦄ ⦃st st' : Building⦄,
    Opened a (labels ++ left) h? W p K F st → work st = .ok ((), st') →
      ∃ k q, Opened a left h? W q (K ∧ k) (F ∧ lay k p q) st'

variable (around : Surroundings)

/-- A statement is laid out as it is executed. -/
abbrev LaysStmt (s : Stmt NodeId) : Prop :=
  Lays a around.handler? s.labels (Laid a around (runStmt around.program s)
    (s.exits around.program) (s.live around.program) s.parts) (buildStmt around s)

abbrev LaysStmts (ss : List (Stmt NodeId)) : Prop :=
  Lays a around.handler? (labelsOfStmts ss) (Laid a around (runStmts around.program ss)
    (exitsOfStmts around.program ss) (liveStmts around.program ss) ss) (buildStmts around ss)

abbrev LaysBlock (b : Block NodeId) : Prop :=
  Lays a around.handler? (labelsOfBlock b) (Laid a around (runBlock around.program b)
    (exitsOfBlock around.program b) (liveBlock around.program b) b.stmts) (buildBlock around b)

section

variable {a : Account} {around : Surroundings} {runs runs' : Runs Ending} {x y : Exits}
  {live live' live'' : Bool} {parts parts' : List (Stmt NodeId)} {k k' : Prop} {p q r : Place}
  {calls : Bool} {steps : List Step}

theorem Account.Performs.laid (h : a.Performs around.handler? calls steps k p q)
    (hruns : a.exact → runs = (do perform steps; return .done)) :
    Laid a around runs (.evaluated calls) live [] k p q where
  splits hexact := by
    rw [hruns hexact]
    exact (rest_splits_perform h.block h.seen).bind fun _ => .pure _ (.refl _)
  arrives hp := ⟨fun _ => h.block ▸ hp, nofun, nofun, fun hcalls => h.thrown hcalls hp⟩
  fills _ := h.fills
  laid := by simp [PartOfAny]

theorem Laid.nothing (a : Account) (around : Surroundings) (live : Bool) (p : Place) :
    Laid a around (return .done) { done := true } live [] True p p where
  splits _ := .pure _ (.refl _)
  arrives hp := .of_done hp
  fills _ _ := trivial
  laid := by simp [PartOfAny]

/-- Something is evaluated before. -/
theorem Account.Performs.andThen (h : a.Performs around.handler? calls steps k p q)
    (h' : Laid a around runs x live parts k' q r) :
    Laid a around (do perform steps; runs) ((Exits.evaluated calls).andThen x) live parts
      (k ∧ k') p r where
  splits hexact := (rest_splits_perform h.block h.seen).bind fun _ => h'.splits hexact
  arrives hp := by
    refine .andThen ⟨fun _ => ?_, nofun, nofun, fun hcalls => h.thrown hcalls hp⟩ h'.arrives
    exact h.block ▸ hp
  fills hlive hp := ⟨h.fills hp, h'.fills hlive (h.block ▸ hp)⟩
  laid := h'.laid

/-- Nothing is seen behind. -/
theorem Laid.before (h : Laid a around runs x live parts k p q)
    (h' : a.Performs around.handler? calls [] True q r) :
    Laid a around runs x live parts k p r where
  splits hexact := h'.rest_eq ▸ h.splits hexact
  arrives hp := h'.block ▸ h.arrives hp
  fills := h.fills
  laid := h.laid

/-- Statements one after the other. -/
theorem Laid.andThen (h : Laid a around runs x live parts k p q)
    (h' : Laid a around runs' y live' parts' k' q r)
    (hlive : live'' → live ∧ (k' ∨ live' ∧ x.done)) :
    Laid a around (runs.andThen runs') (x.andThen y) live'' (parts ++ parts') (k ∧ k') p r where
  splits hexact := (h.splits hexact).andThen (h'.splits hexact) fun _ hne =>
    a.graph.onward_eq around.jumps _ (a.graph.rest r) hne ▸ .refl _
  arrives hp := (h.arrives hp).andThen h'.arrives
  fills hl hp := by
    obtain ⟨hl, hk⟩ := hlive hl
    exact ⟨h.fills hl hp, hk.elim id fun h₁ => h'.fills h₁.1 ((h.arrives hp).done h₁.2)⟩
  laid t ht := (partOfAny_append.mp ht).elim (h.laid t) (h'.laid t)

end

/-! ### Works in sequence -/

section

variable {a : Account} {around : Surroundings} {labels labels' left : List NodeId} {W : Waiting}
  {K F : Prop} {p : Place} {st st₁ st' : Building} {h? : Option BlockId} {runs : Runs Ending}
  {x : Exits} {live : Bool} {parts : List (Stmt NodeId)} {work : Build Unit}
  {lay lay' lay'' : Prop → Place → Place → Prop} {e : Expr NodeId} {node : NodeId}

theorem Opened.tail {n : NodeId} (h : Opened a (n :: left) h? W p K F st) :
    Opened a left h? W p K F st :=
  h.relabel fun hnodup => ⟨(nodup_cons.mp hnodup).2, subset_cons_self _ _⟩

theorem Lays.labeled {n : NodeId} (h : Lays a h? labels lay work) :
    Lays a h? (n :: labels) lay work :=
  fun _ _ _ _ _ _ _ hopened hrun => h hopened.tail hrun

theorem Lays.bind {next : Unit → Build Unit} (h : Lays a h? labels lay work)
    (h' : Lays a h? labels' lay' (next ()))
    (hlay : ∀ {k k' p q r}, lay k p q → lay' k' q r → lay'' (k ∧ k') p r) :
    Lays a h? (labels ++ labels') lay'' (work >>= next) := by
  intro left W p K F st st' hopened hrun
  obtain ⟨⟨⟩, st₁, hwork, hnext⟩ := bind_inv hrun
  rw [append_assoc] at hopened
  obtain ⟨k, q, hfirst⟩ := h hopened hwork
  obtain ⟨k', r, hlast⟩ := h' hfirst hnext
  exact ⟨k ∧ k', r, hlast.gather hlay⟩

theorem Lays.mono (h : Lays a h? labels lay work) (hlay : ∀ {k p q}, lay k p q → lay' k p q) :
    Lays a h? labels lay' work := by
  intro left W p K F st st' hopened hrun
  obtain ⟨k, q, hlaid⟩ := h hopened hrun
  exact ⟨k, q, hlaid.mono id (.imp_right hlay)⟩

/-- What has been evaluated may throw if there is a call. -/
theorem Opened.throws {calls : Bool} (h : Opened a left h? W p K F st)
    (hrun : (if calls then Build.mayThrow node else pure ()) st = .ok ((), st')) :
    (∃ k, Opened a left h? W st'.place (K ∧ k) (F ∧ a.Performs h? calls [] k p st'.place) st') ∧
      (calls → h?.isSome → Noted (st'.graph.outline st'.current).events) := by
  cases calls with
  | true => exact ⟨(h.mayThrow hrun).1, fun _ => (h.mayThrow hrun).2⟩
  | false =>
    cases hrun
    exact ⟨⟨True, h.place.symm ▸ h.mono (·.1) fun hF => ⟨hF, .refl a h? p⟩⟩, by simp⟩

/-- An expression is evaluated, and may throw if there is a call. -/
theorem Opened.evaluate {p : Program} {q : Place} {calls : Bool}
    (h : Opened a (e.labels ++ left) h? W q K F st) (hexpr : buildExpr p e st = .ok (calls, st₁))
    (hthrow : (if calls then Build.mayThrow node else pure ()) st₁ = .ok ((), st')) :
    (∃ k, Opened a left h? W st'.place (K ∧ k) (F ∧ a.Performs h? e.calls [] k q st'.place) st') ∧
      (e.calls → h?.isSome → Noted (st'.graph.outline st'.current).events) := by
  obtain ⟨k, hread⟩ := h.reads (adding_buildExpr p e) hexpr
  obtain rfl := returns_buildExpr p e st calls st₁ hexpr
  obtain ⟨⟨k', hthrown⟩, hnoted⟩ := hread.throws hthrow
  exact ⟨⟨_, hthrown.merge⟩, hnoted⟩

/-- The variables of a scope are forgotten, which is not about any node. -/
theorem Opened.forgets : ∀ (keys : List Key) {p : Place} {F : Prop} {st : Building},
    Opened a left h? W p K F st →
    (keys.forM fun key => Build.emit (.forget key)) st = .ok ((), st') →
      Opened a left h? W st'.place K (F ∧ a.Performs h? false [] True p st'.place) st'
  | [], p, F, st, h, hrun => by
    cases hrun
    rw [h.place]
    exact h.mono id (⟨·, .refl a h? p⟩)
  | key :: keys, p, F, st, h, hrun => by
    obtain ⟨⟨⟩, st₁, hemit, hrun⟩ := bind_inv hrun
    have halters := alters_emit (N := (· ∈ ([] : List NodeId))) h.waits.current_lt hemit
    have hlabels := h
    have hfirst := hlabels.append halters (h.waits.current_suits.append
      h.waits.current_open.tests (by simp; exact ⟨rfl, rfl, rfl, rfl⟩)) (by simp [Event.testNode?])
      (fun _ b _ => ?_) fun _ => trivial
    · refine (forgets keys (hfirst.mono (⟨·, trivial⟩) id) hrun).mono id ?_
      rintro ⟨⟨hF, hf⟩, hf'⟩
      exact ⟨hF, { hf.trans hf' with fills := fun _ => trivial }⟩
    · by_cases hb : b = st.current
      · exact ⟨[.forget key], by simp [Event.labels], by rw [hb, halters.here]⟩
      · exact ⟨[], by simp [halters.others b hb]⟩

/-- Nothing is seen of scopes. -/
theorem Lays.inScope (h : Lays a around.handler? labels (Laid a around runs x live parts) work) :
    Lays a around.handler? labels (Laid a around runs x live parts) (inScope work) := by
  intro left W p K F st st' hopened hrun
  obtain ⟨outer, _, hget, hrun⟩ := bind_inv hrun
  cases hget
  obtain ⟨⟨⟩, st₁, hscope, hrun⟩ := bind_inv hrun
  obtain ⟨⟨⟩, st₂, hwork, hrun⟩ := bind_inv hrun
  obtain ⟨_, _, hget, hrun⟩ := bind_inv hrun
  cases hget
  obtain ⟨⟨⟩, st₃, hforget, hrestore⟩ := bind_inv hrun
  obtain ⟨k, q, hlaid⟩ := h (hopened.still (adding_modifyScope _) hscope).1 hwork
  have hlast := ((hlaid.forgets _ hforget).still (adding_modifyScope _) hrestore).1
  exact ⟨k, _, hlast.mono id fun h => ⟨h.1.1, h.1.2.before h.2⟩⟩

/-- What is evaluated for its calls is seen. -/
theorem Opened.evaluate_run {p : Program} {q : Place} {calls : Bool} {next : Build Unit}
    (h : Opened a (e.labels ++ left) h? W q K F st) (hexpr : buildExpr p e st = .ok (calls, st₁))
    (hrun : (if calls then do Build.mayThrow node; Build.emit (.run node e); next else next) st₁ =
      .ok ((), st')) :
    ∃ st₂ k, next st₂ = .ok ((), st') ∧ Opened a left h? W st₂.place (K ∧ k) (F ∧
      a.Performs h? e.calls (if e.calls then [.run node] else []) k q st₂.place) st₂ := by
  obtain ⟨k, hread⟩ := h.reads (adding_buildExpr p e) hexpr
  obtain rfl := returns_buildExpr p e st calls st₁ hexpr
  cases hcalls : e.calls with
  | false =>
    simp only [hcalls] at hrun
    exact ⟨st₁, k, hrun, hread⟩
  | true =>
    simp only [hcalls] at hrun
    obtain ⟨⟨⟩, st₂, hthrow, hrun⟩ := bind_inv hrun
    obtain ⟨⟨⟩, st₃, hemit, hrun⟩ := bind_inv hrun
    obtain ⟨⟨k₁, hthrown⟩, hnoted⟩ := hread.mayThrow hthrow
    obtain ⟨k₂, hevent⟩ := hthrown.merge.emit hemit rfl rfl fun _ => hnoted
    exact ⟨st₃, _, hrun, hevent.merge⟩

end

/-! ### Statements that go on -/

section

variable {a : Account} {around : Surroundings} {p : Program} {id : NodeId} {st st' : Building}
  {target value : Expr NodeId} {op? : Option BinaryOp} {key? : Option Key}

theorem lays_expr (id : NodeId) (value : Expr NodeId) : LaysStmt a around (.expr id value) := by
  intro left W p K F st st' hopened h
  obtain ⟨calls, st₁, hexpr, h⟩ := bind_inv h
  have hrun : (if calls then do mayThrow id; emit (.run id value); pure () else pure ()) st₁ =
      .ok ((), st') := by simpa only [bind_pure_unit] using h
  obtain ⟨st₂, k, hlast, hevaluated⟩ := hopened.tail.evaluate_run hexpr hrun
  cases hlast
  exact ⟨k, _, hevaluated.map (·.laid fun _ => rfl)⟩

/-- The write of an assignment is seen, and its calls are those of the assignment. -/
theorem assignedEvent?_eq_some {nodeKeys : NumMap Key} {event : Event}
    (h : assignedEvent? nodeKeys id target op? value key? = some event) :
    event.step? = some (.write id) ∧ event.testNode? = none ∧ event.throws? = none ∧
      (event.calls → (target.partsCall || value.calls)) := by
  unfold assignedEvent? at h
  cases target with
  | index tid object position =>
    split at h
    · cases h
    · obtain ⟨key, -, rfl⟩ := map_eq_some_iff.mp h
      exact ⟨rfl, rfl, rfl, fun hcalls => hcalls⟩
  | ident | member =>
    obtain ⟨key, -, rfl⟩ := map_eq_some_iff.mp h
    refine ⟨rfl, rfl, rfl, fun hcalls => ?_⟩
    cases op? with
    | none => exact (Bool.or_eq_true _ _).mpr (.inr hcalls)
    | some op => exact hcalls
  | _ => cases h

/-- The target is read if its old value is an operand. -/
theorem key?_adds (hlt : st.current < st.size)
    (h : (if op?.isSome then readOf p target else trackedKey? p target) st = .ok (key?, st')) :
    st.Adds Event.Plain (fun n => n = target.id ∧ p.tracks target) st' ∧
      key?.isSome = p.tracks target := by
  split at h
  · exact ⟨(readOf_adds hlt h).1, (readOf_adds hlt h).2.1⟩
  · have hadds := trackedKey?_adds (E := Event.Plain) hlt h
    exact ⟨hadds.1, hadds.2.1⟩

/-- A tracked expression has been noted once it is evaluated. -/
theorem buildExpr_notes {e : Expr NodeId} {calls : Bool} (hlt : st.current < st.size)
    (h : buildExpr p e st = .ok (calls, st')) (htracks : p.tracks e) : st'.Notes e.id := by
  cases e with
  | ident id name =>
    obtain ⟨_, st₁, hdiscard, h⟩ := bind_inv h
    obtain ⟨key?, hread⟩ := discard_inv hdiscard
    cases h
    exact (readOf_adds hlt hread).2.2 htracks
  | member id object property =>
    obtain ⟨_, st₀, hobject, h⟩ := bind_inv h
    obtain ⟨_, st₁, hdiscard, h⟩ := bind_inv h
    obtain ⟨key?, hread⟩ := discard_inv hdiscard
    cases h
    have hadds := adding_buildExpr p object st _ st₀ hlt hobject
    exact (readOf_adds (hadds.current_lt hlt) hread).2.2 htracks
  | _ => cases htracks

/-- After the parts of an element have been evaluated, the container is noted exactly when it is
tracked. -/
theorem notes_container {object position : Expr NodeId} {calls : Bool}
    (hnodup : (object.labels ++ position.labels).Nodup) (hunseen : ¬ st.Notes object.id)
    (hlt : st.current < st.size)
    (h : buildTarget p (.index id object position) st = .ok (calls, st')) :
    st'.Notes object.id ↔ p.tracks object := by
  obtain ⟨_, st₁, hobject, h⟩ := bind_inv h
  obtain ⟨_, st₂, hposition, h⟩ := bind_inv h
  cases h
  have hadds := adding_buildExpr_noted p object st _ st₁ hlt hobject
  have hadds' := adding_buildExpr p position st₁ _ st' (hadds.current_lt hlt) hposition
  rw [object.labels_eq, cons_append, nodup_cons, mem_append, not_or] at hnodup
  rw [hadds'.noting.iff hnodup.1.2]
  constructor
  · intro hnoted
    rcases hadds.noting.new _ hnoted with hnoted | hnoted | hnoted
    · exact absurd hnoted hunseen
    · exact absurd hnoted hnodup.1.1
    · exact hnoted.2
  · exact buildExpr_notes hlt hobject

theorem mayThrow_nodeKeys {node : NodeId} {calls : Bool}
    (h : (if calls then mayThrow node else pure ()) st = .ok ((), st')) :
    st'.graph.nodeKeys = st.graph.nodeKeys := by
  cases calls with
  | false =>
    cases h
    rfl
  | true =>
    obtain ⟨_, _, hget, h⟩ := bind_inv h
    cases hget
    cases hhandler : st.handlerOf.getD st.current none with
    | none | some =>
      simp only [hhandler] at h
      cases h
      rfl

/-- What is found tells whether something that is tracked gets a new value. -/
theorem assigned_isSome {st₁ st₂ st₃ st₄ : Building} {calls calls' : Bool}
    (hnodup : (target.labels ++ value.labels).Nodup)
    (hunseen : ∀ n ∈ target.labels, ¬ st.Notes n) (hlt : st.current < st.size)
    (htarget : buildTarget p target st = .ok (calls, st₁))
    (hkey : (if op?.isSome then readOf p target else trackedKey? p target) st₁ = .ok (key?, st₂))
    (hvalue : buildExpr p value st₂ = .ok (calls', st₃))
    (hkeys : st₄.graph.nodeKeys = st₃.graph.nodeKeys) :
    (assignedEvent? st₄.graph.nodeKeys id target op? value key?).isSome = p.assigns target op? := by
  have hlt₁ := (adding_buildTarget p target st _ st₁ hlt htarget).current_lt hlt
  obtain ⟨hadds₂, hsome⟩ := key?_adds hlt₁ hkey
  have hadds₃ := adding_buildExpr p value st₂ _ st₃ (hadds₂.current_lt hlt₁) hvalue
  cases target with
  | ident | member => simpa [assignedEvent?, Program.assigns] using hsome
  | index indexId object position =>
    have hobject : object.id ∈ object.labels ++ position.labels := by
      rw [object.labels_eq]
      exact mem_cons_self
    obtain ⟨hinside, -, hapart⟩ := nodup_append.mp hnodup
    obtain ⟨hindex, hinside⟩ := nodup_cons.mp hinside
    have hcontainer : st₃.Notes object.id ↔ p.tracks object := by
      rw [hadds₃.noting.iff fun hn => hapart _ (mem_cons_of_mem _ hobject) _ hn rfl,
        hadds₂.noting.iff]
      · exact notes_container hinside (hunseen _ (mem_cons_of_mem _ hobject)) hlt htarget
      · rintro ⟨heq, -⟩
        have heq : object.id = indexId := heq
        exact hindex (heq ▸ hobject)
    cases op? with
    | some op => rfl
    | none =>
      rw [Program.assigns, isNone_none, Bool.true_and, Bool.eq_iff_iff, ← hcontainer, hkeys]
      simp [assignedEvent?, Building.Notes]
  | _ => rfl

/-- The parts of an assignment are evaluated. -/
theorem Opened.evaluate_parts {left : List NodeId} {h? : Option BlockId} {W : Waiting} {K F : Prop}
    {q : Place} {st₁ st₂ st₃ : Building} {calls calls' : Bool}
    (h : Opened a ((target.labels ++ value.labels) ++ left) h? W q K F st)
    (htarget : buildTarget p target st = .ok (calls, st₁))
    (hkey : (if op?.isSome then readOf p target else trackedKey? p target) st₁ = .ok (key?, st₂))
    (hvalue : buildExpr p value st₂ = .ok (calls', st₃)) :
    ∃ k, Opened a left h? W st₃.place (K ∧ k) (F ∧ a.Performs h? false [] k q st₃.place) st₃ := by
  have hlabels : Opened a (target.labels.tail ++ ([target.id] ++ (value.labels ++ left))) h? W q K F
      st := h.relabel fun hnodup => by
    rw [target.labels_eq] at hnodup ⊢
    grind
  have hadding : Adding Event.Plain (· ∈ [target.id])
      (if op?.isSome then readOf p target else trackedKey? p target) :=
    fun _ _ _ hlt hrun => (key?_adds hlt hrun).1.mono (fun _ => (·)) fun _ hn => by simp [hn.1]
  obtain ⟨k₁, h₁⟩ := hlabels.reads (adding_buildTarget _ target) htarget
  obtain ⟨k₂, h₂⟩ := h₁.reads hadding hkey
  obtain ⟨k₃, h₃⟩ := h₂.merge.reads (adding_buildExpr _ value) hvalue
  exact ⟨_, h₃.merge⟩

theorem lays_assign : LaysStmt a around (.assign id target op? value) := by
  intro left W q K F st st' hopened h
  obtain ⟨calls, st₁, htarget, h⟩ := bind_inv h
  obtain ⟨key?, st₂, hkey, h⟩ := ite_bind_inv h
  obtain ⟨calls', st₃, hvalue, h⟩ := bind_inv h
  obtain rfl := returns_buildTarget _ target st calls st₁ htarget
  obtain rfl := returns_buildExpr _ value st₂ calls' st₃ hvalue
  obtain ⟨st₄, hthrow, h⟩ := when_inv h
  obtain ⟨_, _, hget, h⟩ := bind_inv h
  cases hget
  have hopened := hopened.tail
  obtain ⟨k, hread⟩ := hopened.evaluate_parts htarget hkey hvalue
  obtain ⟨⟨k', hthrown⟩, hnoted⟩ := hread.throws hthrow
  -- Whether the target is tracked can be told when its parts have not been noted before.
  have hassigns (hexact : a.exact) :
      (assignedEvent? st₄.graph.nodeKeys id target op? value key?).isSome =
        around.program.assigns target op? := by
    obtain ⟨hnodup, hunseen⟩ := hopened.unseen hexact
    exact assigned_isSome (nodup_append.mp hnodup).1 (fun n hn => hunseen n (by simp [hn]))
      hopened.waits.current_lt htarget hkey hvalue (mayThrow_nodeKeys hthrow)
  cases hevent : assignedEvent? st₄.graph.nodeKeys id target op? value key? with
  | some event =>
    rw [hevent] at h hassigns
    obtain ⟨hstep, htest, hthrows, hcalls⟩ := assignedEvent?_eq_some hevent
    obtain ⟨k'', hemitted⟩ := hthrown.merge.emit h htest hthrows fun hc => hnoted (hcalls hc)
    refine ⟨_, _, hemitted.merge.map fun hf => ?_⟩
    rw [hstep, Bool.or_false] at hf
    exact hf.laid fun hexact => by simp [runStmt, ← hassigns hexact]
  | none =>
    rw [hevent] at h hassigns
    cases hcalls : target.partsCall || value.calls with
    | true =>
      simp only [hcalls] at h
      obtain ⟨k'', hemitted⟩ := hthrown.merge.emit h rfl rfl fun _ => hnoted hcalls
      refine ⟨_, _, hemitted.merge.map fun hf => ?_⟩
      rw [Bool.or_false] at hf
      exact hf.laid fun hexact => by simp [runStmt, ← hassigns hexact, hcalls, Event.step?]
    | false =>
      simp only [hcalls] at h
      cases h
      refine ⟨_, _, hthrown.merge.map fun hf => ?_⟩
      exact hf.laid fun hexact => by simp [runStmt, ← hassigns hexact, hcalls]

theorem declaredKey?_isSome {node : NodeId} (h : declaredKey? p node st = .ok (key?, st')) :
    key?.isSome = (p.declaredAt? node).isSome := by
  unfold declaredKey? at h
  cases hdeclared : p.declaredAt? node with
  | none =>
    rw [hdeclared] at h
    cases h
    rfl
  | some d =>
    rw [hdeclared] at h
    obtain ⟨key, st₁, -, h⟩ := bind_inv h
    cases h
    rfl

/-- The first value of a variable is evaluated and written. -/
theorem Opened.var {left : List NodeId} {h? : Option BlockId} {W : Waiting} {K F : Prop} {q : Place}
    {v : VarDecl NodeId} {key : Key}
    (h : Opened a (labelsOfOption Expr.labels v.init? ++ left) h? W q K F st)
    (hrun : buildVar p v key st = .ok ((), st')) :
    ∃ k, Opened a left h? W st'.place (K ∧ k)
      (F ∧ a.Performs h? (v.init?.any Expr.calls) [.write v.id] k q st'.place) st' := by
  unfold buildVar at hrun
  cases hinit : v.init? with
  | none =>
    rw [hinit] at h hrun
    exact emit h hrun rfl rfl nofun
  | some init =>
    rw [hinit] at h hrun
    obtain ⟨calls, st₁, hexpr, hrun⟩ := bind_inv hrun
    obtain ⟨st₂, hthrow, hemit⟩ := when_inv hrun
    obtain ⟨⟨k, hevaluated⟩, hnoted⟩ := evaluate h hexpr hthrow
    obtain ⟨k', hwritten⟩ := hevaluated.emit hemit rfl rfl hnoted
    exact ⟨_, hwritten.merge.map fun hf => by rwa [Bool.or_false] at hf⟩

theorem lays_var {v : VarDecl NodeId}
    (hdeclared : a.exact → (around.program.declaredAt? v.id).isSome) :
    LaysStmt a around (.var id v) := by
  intro left W q K F st st' hopened h
  obtain ⟨key?, st₁, hkey, h⟩ := bind_inv h
  obtain ⟨hopened, -⟩ := hopened.still (adding_declaredKey? _ _) hkey
  have hsome := declaredKey?_isSome hkey
  unfold Stmt.exits
  rw [← hsome] at hdeclared ⊢
  cases key? with
  | none =>
    cases h
    have hleft :=
      hopened.relabel fun hnodup => ⟨(nodup_append.mp hnodup).2.1, subset_append_right _ _⟩
    exact ⟨True, q, hleft.mono (·.1) fun hF => ⟨hF, (Account.Performs.refl a _ q).laid fun hexact =>
      absurd (hdeclared hexact) (by simp)⟩⟩
  | some key =>
    obtain ⟨⟨⟩, st₂, hset, h⟩ := bind_inv h
    obtain ⟨⟨⟩, st₃, hdeclare, h⟩ := bind_inv h
    have hlabels :
        Opened a ([v.id] ++ (labelsOfOption Expr.labels v.init? ++ left)) _ W q K F st₁ :=
      hopened.relabel fun hnodup => by grind [Stmt.labels, VarDecl.labels]
    obtain ⟨k, hnoted⟩ := hlabels.reads (adding_setNodeKey mem_cons_self key) hset
    obtain ⟨k', hwritten⟩ := (hnoted.still (adding_modifyScope _) hdeclare).1.var h
    exact ⟨_, _, hwritten.merge.map (·.laid fun _ => rfl)⟩

/-! ### Statements that jump -/

/-- Control goes to another block for good, or does not get any further. -/
theorem Lays.jump (ending : Ending) {x : Exits} (target? : Option BlockId)
    (honward : ∀ X, a.graph.onward around.jumps X ending =
      target?.elim .nothing fun target => a.graph.rest (target, 0))
    (hx : (∀ target, target? = some target → target ∈ a.graph.order) →
      ∀ after, Arrives a.graph around x after) :
    Lays a around.handler? [] (Laid a around (pure ending) x true []) (target?.elim (abandon around)
      fun target => do goto target; abandon around) := by
  intro left W q K F st st' hopened h
  cases target? with
  | some target =>
    obtain ⟨⟨⟩, st₁, hgoto, habandon⟩ := bind_inv h
    obtain ⟨r, hlast⟩ := (goto hopened hgoto).abandon habandon
    refine ⟨True, r, hlast.mono (·.1) (.imp_right fun hf => ⟨fun hexact => .pure _ ?_,
      fun hq => ?_, fun _ _ => trivial, by simp [PartOfAny]⟩)⟩
    · rw [hf.rest_eq hexact, honward]
      exact Reading.delayed_noSooner _
    · exact hx (fun _ heq => some.inj heq ▸ hf.reaches hq) _
  | none =>
    obtain ⟨r, hlast⟩ := (stop hopened).abandon h
    refine ⟨True, r, hlast.mono (·.1) (.imp_right fun hf => ⟨fun hexact => .pure _ ?_,
      fun _ => ?_, fun _ _ => trivial, by simp [PartOfAny]⟩)⟩
    · rw [honward]
      exact Reading.noSooner_nothing fun _ _ => (hf hexact).not_rest
    · exact hx nofun _

theorem lays_leave (id : NodeId) : LaysStmt a around (.leave id) := by
  intro left W q K F st st' hopened h
  have hjump := Lays.jump (a := a) .left (x := { left := true }) (around.jumps.head?.map Jump.leave)
    (fun X => ?_) fun htarget after =>
      ⟨nofun, fun _ jump h => htarget _ (by rw [h]; rfl), nofun, nofun⟩
  · refine hjump hopened.tail ?_
    unfold buildStmt at h
    cases hhead : around.jumps.head? <;> rwa [hhead] at h
  · rw [onward.eq_def]
    cases around.jumps.head? <;> rfl

theorem lays_next (id : NodeId) : LaysStmt a around (.next id) := by
  intro left W q K F st st' hopened h
  have hjump := Lays.jump (a := a) .next (x := { next := true }) (around.jumps.findSome? Jump.next?)
    (fun X => ?_) fun htarget after => ⟨nofun, nofun, fun _ => htarget, nofun⟩
  · refine hjump hopened.tail ?_
    unfold buildStmt at h
    cases hnext : around.jumps.findSome? Jump.next? <;> rwa [hnext] at h
  · rw [onward.eq_def]
    cases around.jumps.findSome? Jump.next? <;> rfl

theorem lays_raise (id : NodeId) (value : Expr NodeId) : LaysStmt a around (.raise id value) := by
  intro left W q K F st st' hopened h
  obtain ⟨_, st₁, hdiscard, h⟩ := bind_inv h
  obtain ⟨calls, hexpr⟩ := discard_inv hdiscard
  obtain ⟨⟨⟩, st₂, hthrow, habandon⟩ := bind_inv h
  obtain ⟨k, hread⟩ := hopened.tail.reads (adding_buildExpr _ value) hexpr
  obtain ⟨⟨k', hthrown⟩, -⟩ := hread.mayThrow hthrow
  obtain ⟨r, hlast⟩ := hthrown.merge.stop.abandon habandon
  refine ⟨_, r, hlast.mono (·) ?_⟩
  rintro ⟨⟨hF, hf⟩, hends⟩
  refine ⟨hF, fun hexact => ?_, fun hq => ?_, fun _ => hf.fills, ?_⟩
  · rw [hf.rest_eq]
    exact .stuck fun _ _ => (hends hexact).not_rest
  · exact ⟨nofun, nofun, nofun, fun _ => hf.thrown rfl hq⟩
  · simp [Stmt.parts, Stmt.children, PartOfAny]

/-- The result is written, and control goes to the exit. -/
theorem Opened.ret {left : List NodeId} {W : Waiting} {K F : Prop} {q : Place}
    {value? : Option (Expr NodeId)} (h : Opened a left around.handler? W q K F st)
    (hrun : (do
      Build.emit (.write id resultKey (.returned value?))
      Build.goto exit
      Build.abandon around) st = .ok ((), st'))
    (hnoted : value?.any Expr.calls → around.handler?.isSome →
      Noted (st.graph.outline st.current).events) :
    ∃ k r, Opened a left around.handler? W r (K ∧ k)
      (F ∧ Laid a around (do perform [.write id]; return .returned) {} true [] k q r) st' := by
  obtain ⟨⟨⟩, st₁, hemit, hrun⟩ := bind_inv hrun
  obtain ⟨k, hwritten⟩ := h.emit hemit rfl rfl hnoted
  have hjump : Lays a _ [] (Laid a around (pure .returned) {} true []) _ :=
    Lays.jump .returned (some exit) (fun _ => rfl) fun _ => .none
  obtain ⟨k', r, hlast⟩ := hjump hwritten hrun
  refine ⟨k ∧ k', r, hlast.gather fun hf hf' => ?_⟩
  exact hf.andThen hf'

theorem lays_ret (id : NodeId) (value? : Option (Expr NodeId)) :
    LaysStmt a around (.ret id value?) := by
  intro left W q K F st st' hopened h
  cases value? with
  | none => exact ret hopened.tail h nofun
  | some value =>
    obtain ⟨calls, st₁, hexpr, h⟩ := bind_inv h
    obtain ⟨st₂, hthrow, h⟩ := when_inv h
    obtain ⟨⟨k, hevaluated⟩, hnoted⟩ := evaluate hopened.tail hexpr hthrow
    obtain ⟨k', r, hlast⟩ := hevaluated.ret h hnoted
    refine ⟨k ∧ k', r, hlast.gather fun hf hf' => ?_⟩
    have hexits : (Exits.evaluated value.calls).andThen {} = { thrown := value.calls } := by
      simp [Exits.evaluated, Exits.andThen, Exits.or]
    have hlaid := hf.andThen hf'
    rwa [perform_nil_bind, hexits] at hlaid

end

end TypeFlow
