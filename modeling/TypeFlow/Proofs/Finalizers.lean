import TypeFlow.Proofs.Faithful

/-!
# Finalizers that are come to

The finalizer of an attempt is laid out behind the block where the statements of the attempt and
those of its handlers end. So it is come to whenever any of them may come to their end, but not when
all of them return, leave a loop or throw.
-/

namespace TypeFlow

open List Build Building

variable {f : Function NodeId} {root : DeclId} {p : Program} {g : Graph}

/-- The construction can be followed from any state in which only the current block waits. -/
theorem Opened.of_waits {a : Account} {h? : Option BlockId} {st : Building} (left : List NodeId)
    (hexact : ¬ a.exact) (hbacked : ¬ a.backed) (hwaits : st.Waits [(st.current, h?)]) :
    Opened a left h? [] st.place False True st where
  waits := hwaits
  exit h := absurd h hexact
  backed h := absurd h hbacked
  unseen h := absurd h hexact
  fills := False.elim
  sees _ := trivial
  fresh := nofun
  place := rfl

/-- All statements of a function are laid out in its graph, except for those in handlers that no
exception comes to. -/
theorem Program.graph_laidOut {block : Block NodeId} (hkind : (p.decl root).kind = .function)
    (hf : p.function? root = some f) (hg : p.graph root = .ok g) (hblock : f.body? = some block)
    {s : Stmt NodeId} (hs : PartOfAny block.stmts s) :
    ∃ around st st', LaidOut g p around s st st' := by
  obtain ⟨st, hbuild, rfl⟩ := Program.graph_inv hg
  rw [Program.building_function hkind hf] at hbuild
  obtain ⟨_, hclosed⟩ := closed_function (a := ⟨st.graph, False, False, _⟩)
    (opened_start rfl False.elim) False.elim hbuild
  obtain ⟨-, -, hlaid⟩ := hclosed.sees ⟨.refl _, fun _ _ _ _ => rfl⟩
  rw [hblock] at hlaid
  exact hlaid s hs

/-- The finalizer of an attempt is come to whenever the attempt is and its statements or those of a
handler may come to their end: the finalizer starts in a block that can be reached, and so are the
blocks to which its events are added, as long as control may come to all of its parts. -/
theorem finalizer_reached (source : Source) {root : DeclId} {f : Function NodeId} {g : Graph}
    {block body finalizer : Block NodeId} {id : NodeId}
    {handlers : List (Handler NodeId (Stmt NodeId))}
    (hf : source.program.function? root = some f) (hg : source.program.graph root = .ok g)
    (hblock : f.body? = some block)
    (hpart : PartOfAny block.stmts (.attempt id body handlers (some finalizer)))
    (hends : ((exitsOfBlock source.program body).caughtBy
      (exitsOfHandlers source.program handlers)).done = true) :
    (∃ around st st',
      LaidOut g source.program around (.attempt id body handlers (some finalizer)) st st') ∧
    ∀ around st st',
      LaidOut g source.program around (.attempt id body handlers (some finalizer)) st st' →
      ∃ st₁, buildStmt around (.attempt id body handlers none) st = .ok ((), st₁) ∧
        buildBlock around finalizer st₁ = .ok ((), st') ∧
        (st.current ∈ g.order → st₁.current ∈ g.order ∧
          (liveBlock source.program finalizer = true → Fills g st₁ st')) := by
  have hkind := source.program_function?_kind hf
  refine ⟨Program.graph_laidOut hkind hf hg hblock hpart, fun around st st' hlaid => ?_⟩
  obtain ⟨hprogram, hwaits, hrun, hgrows⟩ := hlaid
  rw [buildStmt_attempt_some] at hrun
  obtain ⟨⟨⟩, st₁, hattempt, hfinalizer⟩ := bind_inv hrun
  let a : Account := ⟨g, False, False, st₁⟩
  have hexact : ¬ a.exact := not_false
  obtain ⟨_, q, hfirst⟩ := lays_attempt hexact
    (fun handler? => lays_block { around with handler? } body False.elim)
    (lays_handlers hexact around handlers)
    (.of_waits ([] ++ (labelsOfBlock finalizer ++ [])) hexact hexact hwaits) hattempt
  -- From here on, the events that the finalizer adds are looked at.
  have hstarted : Opened a _ _ _ q True _ st₁ :=
    { hfirst with fills := fun _ => .of_eq fun _ => rfl }
  obtain ⟨k, r, hlast⟩ := lays_block around finalizer False.elim hstarted hfinalizer
  obtain ⟨⟨-, hlaid⟩, hlaid'⟩ := hlast.sees ⟨hgrows, False.elim⟩
  rw [← hprogram] at hends ⊢
  refine ⟨st₁, hattempt, hfinalizer, fun hstart => ?_⟩
  have hreached := (hlaid.arrives hstart).done hends
  exact ⟨hfirst.current_eq ▸ hreached, fun hlive =>
    hlast.fills ⟨trivial, hlaid'.fills hlive hreached⟩⟩

/-- A function that attempts to return a value, with a finalizer that assigns a variable. -/
def attempting (value : Expr Unit) (handlers : List (Handler Unit (Stmt Unit))) : Source :=
  .ofItems [.ofVar "g", .ofBody "f" [.attempt () ⟨(), [.ret () (some value)]⟩ handlers
      (some ⟨(), [.set "g" (.number 2)]⟩)]]

/-- The value is returned by a call, and exceptions are dropped: the body never comes to its end,
but the handler does. -/
theorem finalizer_reached_dropping :
    let p := (attempting (.call () (.ident () "f") []) [⟨(), "e", none, ⟨(), []⟩⟩]).program
    let body : Block NodeId := ⟨5, [.ret 6 (some (.call 7 (.ident 8 "f") []))]⟩
    let handlers : List (Handler NodeId (Stmt NodeId)) := [⟨9, "e", none, ⟨10, []⟩⟩]
    let finalizer : Block NodeId :=
      ⟨11, [.assign 12 (.ident 13 "g") none (.literal 14 (.number 2))]⟩
    ∃ f g block, p.function? 2 = some f ∧ p.graph 2 = .ok g ∧ f.body? = some block ∧
      PartOfAny block.stmts (.attempt 4 body handlers (some finalizer)) ∧
      (exitsOfBlock p body).done = false ∧
      ((exitsOfBlock p body).caughtBy (exitsOfHandlers p handlers)).done = true ∧
      (∃ around st st', LaidOut g p around (.attempt 4 body handlers (some finalizer)) st st') ∧
      ∀ around st st', LaidOut g p around (.attempt 4 body handlers (some finalizer)) st st' →
        ∃ st₁, buildStmt around (.attempt 4 body handlers none) st = .ok ((), st₁) ∧
          buildBlock around finalizer st₁ = .ok ((), st') ∧
          (st.current ∈ g.order → st₁.current ∈ g.order ∧ Fills g st₁ st') := by
  intro p body handlers finalizer
  obtain ⟨g, hg⟩ : ∃ g, p.graph 2 = .ok g := by decide +kernel
  have hpart : PartOfAny [.attempt 4 body handlers (some finalizer)]
      (.attempt 4 body handlers (some finalizer)) := ⟨_, List.mem_cons_self, .refl⟩
  have hends : ((exitsOfBlock p body).caughtBy (exitsOfHandlers p handlers)).done = true := by
    decide +kernel
  obtain ⟨hlaid, hreached⟩ := finalizer_reached _ rfl hg rfl hpart hends
  refine ⟨_, g, _, rfl, hg, rfl, hpart, by decide +kernel, hends, hlaid, ?_⟩
  intro around st st' h
  obtain ⟨st₁, hattempt, hfinalizer, hstart⟩ := hreached around st st' h
  exact ⟨st₁, hattempt, hfinalizer, fun h => (hstart h).imp_right fun h => h (by decide +kernel)⟩

/-- The body returns and there is no handler: the attempt starts at the entry, but the assignment in
the finalizer is added to a block that is never come to. -/
theorem finalizer_unreached_returning :
    let p := (attempting (.literal () (.number 1)) []).program
    let body : Block NodeId := ⟨5, [.ret 6 (some (.literal 7 (.number 1)))]⟩
    let finalizer : Block NodeId := ⟨8, [.assign 9 (.ident 10 "g") none (.literal 11 (.number 2))]⟩
    (∃ f, p.function? 2 = some f ∧ f.params.length = 0 ∧
      (f.body?.map Braced.stmts = some [.attempt 4 body [] (some finalizer)])) ∧
    ∃ g b e, p.graph 2 = .ok g ∧ Graph.entry ∈ g.order ∧ e ∈ (g.block b).events ∧ 9 ∈ e.labels ∧
      b ∉ g.order := by
  intro p body finalizer
  refine ⟨⟨_, rfl, rfl, rfl⟩, ?_⟩
  obtain ⟨g, hg, hentry, b, -, ⟨e, he, hlabel⟩, hb⟩ : ∃ g, p.graph 2 = .ok g ∧
      Graph.entry ∈ g.order ∧ ∃ b ∈ List.range g.blocks.size,
        (∃ e ∈ (g.block b).events, 9 ∈ e.labels) ∧ b ∉ g.order := by decide +kernel
  exact ⟨g, b, e, hg, hentry, he, hlabel, hb⟩

end TypeFlow
