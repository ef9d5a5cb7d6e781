import TypeFlow.Proofs.Finalizers

/-!
# Graphs are well linked

The edges of a graph lead to its blocks, which know them as predecessors, and fit the events of the
blocks that they come from. That edges are known where they lead to is kept by every step of the
construction, since control is only led to blocks that are there. That nothing else is known there,
and that conditions come last, is found out when the construction is followed from block to block.
-/

namespace TypeFlow

open Build Building Graph List Nat Outline

/-- A block leads somewhere when a condition holds exactly if it has a condition, and then also when
the condition does not hold; and to a handler only if something may throw. -/
structure Outline.Formed (o : Outline) : Prop where
  taken : o.taken?.isSome ↔ ∃ e ∈ o.events, e.testNode?.isSome
  next : o.taken?.isSome → o.next?.isSome
  exception : o.exception?.isSome → ∃ node, .mayThrow node ∈ o.events

namespace Outline.Formed

variable {o : Outline} {e : Event} {target : BlockId}

theorem empty : ({} : Outline).Formed := ⟨by simp, by simp, by simp⟩

section

variable (h : o.Formed)

include h

theorem emit (he : e.testNode? = none) : Outline.Formed { o with events := o.events ++ [e] } where
  taken := h.taken.trans (by simp [he])
  next := h.next
  exception hsome := (h.exception hsome).imp fun _ => mem_append_left _

theorem goto : Outline.Formed { o with next? := some target } :=
  ⟨h.taken, fun _ => rfl, h.exception⟩

theorem branch (node : NodeId) (condition : Condition) (taken next : BlockId) :
    Outline.Formed { o with
      events := o.events ++ [.test node condition], taken? := some taken, next? := some next } where
  taken := by simp [Event.testNode?]
  next _ := rfl
  exception hsome := (h.exception hsome).imp fun _ => mem_append_left _

theorem mayThrow (node : NodeId) : Outline.Formed { o with
    events := o.events ++ [.mayThrow node], exception? := some target } :=
  { h.emit rfl with exception := fun _ => ⟨node, by simp⟩ }

/-- The condition of a block is its last event. -/
theorem getLast? {h? : Option BlockId} (hsuits : o.Suits h?) :
    o.taken?.isSome ↔ (o.events.getLast?.bind Event.testNode?).isSome := by
  have htests := hsuits.tests
  rw [h.taken]
  rcases eq_nil_or_concat o.events with hnil | ⟨before, e, hconcat⟩
  · simp [hnil]
  · simp only [hconcat] at htests ⊢
    simp +contextual [htests, or_and_right, exists_or]

end

end Outline.Formed

/-! ### Steps -/

/-- Edges lead to blocks that know them, and fit the events of the blocks that they come from. The
exit is never filled. -/
structure Building.Linked (st : Building) : Prop where
  exit : exit < st.size
  current : st.current < st.size ∧ st.current ≠ Graph.exit
  handlers : ∀ b h, st.handlerOf.getD b none = some h → h < st.size
  linked : ∀ b, ∀ c ∈ (st.graph.outline b).successors,
    c < st.size ∧ b ∈ (st.graph.block c).predecessors
  nodup : ∀ b, (st.graph.block b).predecessors.Nodup
  formed : ∀ b, (st.graph.outline b).Formed
  quiet : st.graph.outline Graph.exit = {}

/-- The work keeps edges linked as long as it leads control to known blocks. -/
def Keeps (known : List BlockId) (α : Type) (work : Build α) : Prop :=
  ∀ st r st', st.Linked → (∀ b ∈ known, b ≠ exit ∧ b < st.size) → work st = .ok (r, st') →
    st'.Linked ∧ st.size ≤ st'.size

section

variable {α β : Type} {known targets : List BlockId} {N : NodeId → Prop} {o : Outline}
  {st st' : Building}

theorem Building.Linked.of_eq (h : st.Linked) (hblocks : st'.graph.blocks = st.graph.blocks)
    (hcurrent : st'.current = st.current) (hhandlers : st'.handlerOf = st.handlerOf) :
    st'.Linked ∧ st.size ≤ st'.size := by
  obtain ⟨⟨⟩, _, _⟩ := st
  cases hblocks
  cases hcurrent
  cases hhandlers
  exact ⟨⟨h.exit, h.current, h.handlers, h.linked, h.nodup, h.formed, h.quiet⟩, le_refl _⟩

theorem Building.Linked.alter (h : st.Linked) (halters : Alters N targets o st st')
    (hsub : o.successors ⊆ (st.graph.outline st.current).successors ++ targets)
    (htargets : ∀ c ∈ targets, c < st.size) (ho : o.Formed) :
    st'.Linked ∧ st.size ≤ st'.size := by
  refine ⟨⟨?_, ?_, ?_, fun b c hc => ?_, fun b => halters.nodup b (h.nodup b), fun b => ?_, ?_⟩,
    halters.size.ge⟩
  · exact halters.size ▸ h.exit
  · rw [halters.size, halters.current]
    exact h.current
  · rw [halters.handlerOf, halters.size]
    exact h.handlers
  · rw [halters.size, halters.predecessors]
    by_cases hb : b = st.current
    · rw [hb, halters.here] at hc
      rcases mem_append.mp (hsub hc) with hc | hc
      · exact (hb ▸ h.linked _ c hc).imp_right .inl
      · exact ⟨htargets c hc, .inr ⟨hb, hc, htargets c hc⟩⟩
    · rw [halters.others b hb] at hc
      exact (h.linked b c hc).imp_right .inl
  · by_cases hb : b = st.current
    · exact hb ▸ halters.here ▸ ho
    · exact halters.others b hb ▸ h.formed b
  · exact (halters.others _ h.current.2.symm).trans h.quiet

theorem keeps_composes : Composes (Keeps known) where
  pure a st r st' h _ hrun := by
    cases hrun
    exact ⟨h, le_refl _⟩
  get st r st' h _ hrun := by
    cases hrun
    exact ⟨h, le_refl _⟩
  bind hwork hnext st r st' h hknown hrun := by
    obtain ⟨a, st₁, hfirst, hrun⟩ := bind_inv hrun
    obtain ⟨h₁, hle⟩ := hwork st a st₁ h hknown hfirst
    obtain ⟨h', hle'⟩ := hnext a st₁ r st' h₁
      (fun b hb => (hknown b hb).imp_right (lt_of_lt_of_le · hle)) hrun
    exact ⟨h', hle.trans hle'⟩

theorem keeps_intern (i : Identity) : Keeps known Key (intern i) := by
  intro st r st' h _ hrun
  obtain ⟨ids, -, rfl⟩ := intern_inv hrun
  exact h.of_eq rfl rfl rfl

theorem Building.Linked.newBlock {around : Surroundings} {b : BlockId} (h : st.Linked)
    (hhandler : ∀ b, around.handler? = some b → b < st.size)
    (hrun : Build.newBlock around st = .ok (b, st')) :
    st'.Linked ∧ b = st.size ∧ st'.size = st.size + 1 := by
  have hblock := newBlock_block hrun
  have houtline := newBlock_outline hrun
  cases hrun
  refine ⟨⟨?_, h.current.imp_left fun hlt => ?_, fun b handler hb => ?_, fun b c hc => ?_,
    fun b => hblock b ▸ h.nodup b, fun b => houtline b ▸ h.formed b, (houtline _).trans h.quiet⟩,
    rfl, Array.size_push _⟩
  all_goals simp only [Building.size, Array.size_push]
  · exact lt_succ_of_lt h.exit
  · exact lt_succ_of_lt hlt
  · refine lt_succ_of_lt ?_
    simp only [Array.getD_eq_getD_getElem?, Array.getElem?_push] at hb
    split at hb
    · exact hhandler handler hb
    · exact h.handlers b handler (by rwa [Array.getD_eq_getD_getElem?])
  · rw [hblock]
    exact (h.linked b c (houtline b ▸ hc)).imp_left lt_succ_of_lt

/-- All steps of a construction keep edges linked. -/
theorem keeps_constructs (p : Program) (nodes : List NodeId) : Constructs Keeps p nodes where
  composes _ := keeps_composes
  newBlock hhandler hnext st r st' h hknown hrun := by
    obtain ⟨b, st₁, hnew, hrun⟩ := bind_inv hrun
    obtain ⟨h₁, rfl, hsize⟩ := h.newBlock (fun b hb => (hknown b (hhandler b hb)).2) hnew
    have hle : st.size ≤ st₁.size := hsize ▸ le_succ _
    refine (hnext _ st₁ r st' h₁ (fun b hb => ?_) hrun).imp_right hle.trans
    rcases mem_cons.mp hb with rfl | hb
    · exact ⟨h.exit.ne', hsize ▸ lt_succ_self _⟩
    · exact (hknown b hb).imp_right (lt_of_lt_of_le · hle)
  enter hb st r st' h hknown hrun := by
    obtain ⟨hne, hlt⟩ := hknown _ hb
    cases hrun
    exact ⟨⟨h.exit, ⟨hlt, hne⟩, h.handlers, h.linked, h.nodup, h.formed, h.quiet⟩, le_refl _⟩
  goto hb st r st' h hknown hrun := by
    rcases goto_cases (N := fun _ => True) h.current.1 hrun with ⟨-, rfl⟩ | halters
    · exact ⟨h, le_refl _⟩
    · refine h.alter halters (fun c hc => ?_) ?_ (h.formed _).goto
      · simp only [successors, mem_append] at hc ⊢
        tauto
      · rcases mem_cons.mp hb with rfl | hb
        · simpa using h.exit
        · simpa using (hknown _ hb).2
  branch _ htaken hnext st r st' h hknown hrun := by
    refine h.alter (alters_branch (N := fun _ => True) h.current.1 hrun) (fun c hc => ?_) ?_
      ((h.formed _).branch _ _ _ _)
    · simp only [successors, Option.toList_some, mem_append] at hc ⊢
      simp only [mem_cons] at hc ⊢
      tauto
    · simpa using ⟨(hknown _ htaken).2, (hknown _ hnext).2⟩
  emit _ htest st r st' h _ hrun :=
    h.alter (alters_emit (N := fun _ => True) h.current.1 hrun) (subset_append_left _ _) (by simp)
      ((h.formed _).emit htest)
  mayThrow _ st r st' h _ hrun := by
    rcases mayThrow_cases (N := fun _ => True) h.current.1 rfl hrun with
      ⟨-, rfl⟩ | ⟨handler, hhandler, halters⟩
    · exact ⟨h, le_refl _⟩
    · refine h.alter halters (fun c hc => ?_) ?_ ((h.formed _).mayThrow _)
      · simp only [successors, mem_append] at hc ⊢
        tauto
      · simpa using h.handlers _ _ hhandler
  key _ := keeps_composes.key keeps_intern p _
  intern _ _ := keeps_intern _
  note _ _ hblocks st r st' h _ hrun := by
    cases hrun
    exact h.of_eq (hblocks _) rfl rfl
  scope _ st r st' h _ hrun := by
    cases hrun
    exact h.of_eq rfl rfl rfl

end

/-! ### Roots -/

section

variable {p : Program} {root : DeclId} {g : Graph} {a : Account} {st st' : Building}

theorem closed_initializers (hexact : ¬ a.exact) : ∀ (items : List (Item NodeId)) {q : Place}
    {K F : Prop} {st : Building}, Opened a [] none [] q K F st →
    buildInitializers p items st = .ok ((), st') → ∃ K' F', Closed a [] [] K' F' st'
  | [], _, _, _, _, hopened, h => ⟨_, _, hopened.goto h⟩
  | item :: items, _, _, _, _, hopened, h => by
    cases item with
    | var v =>
      obtain ⟨key?, st₁, hkey, h⟩ := bind_inv h
      obtain ⟨hopened, -⟩ := hopened.still (adding_declaredKey? _ _) hkey
      cases key? with
      | none => exact closed_initializers hexact items hopened h
      | some key =>
        obtain ⟨⟨⟩, st₂, hset, h⟩ := bind_inv h
        obtain ⟨⟨⟩, st₃, hadd, h⟩ := bind_inv h
        obtain ⟨⟨⟩, st₄, hvar, h⟩ := bind_inv h
        have hlabels :=
          hopened.unlabel ([v.id] ++ (labelsOfOption Expr.labels v.init? ++ [])) hexact
        obtain ⟨_, hnoted⟩ := hlabels.reads (adding_setNodeKey mem_cons_self key) hset
        obtain ⟨_, hwritten⟩ := (hnoted.still (adding_addNonlocal key) hadd).1.var hvar
        exact closed_initializers hexact items hwritten h
    | module | cls | function | enum | synonym => exact closed_initializers hexact items hopened h

/-- The construction of every root can be followed to its end. -/
theorem closed_building (h : p.building root { graph := .start root } = .ok ((), st)) :
    ∃ K F, Closed ⟨st.graph, False, True, { graph := .start root }⟩ [] [] K F st := by
  have hstart (labels : List NodeId) :
      Opened ⟨st.graph, False, True, { graph := .start root }⟩ labels _ _ _ _ _ _ :=
    opened_start rfl False.elim
  unfold Program.building at h
  split at h
  · cases hf : p.function? root with
    | none =>
      rw [hf] at h
      exact ⟨_, _, (hstart []).goto h⟩
    | some f =>
      rw [hf] at h
      obtain ⟨_, hclosed⟩ := closed_function (hstart f.labels) False.elim h
      exact ⟨_, _, hclosed⟩
  · exact closed_initializers not_false _ (hstart []) h

theorem linked_start (root : DeclId) : Building.Linked { graph := .start root } := by
  have houtline := start_outline root
  refine ⟨Nat.one_lt_two, ⟨Nat.zero_lt_two, Nat.zero_ne_one⟩, fun b h hb => ?_, fun b c hc => ?_,
    fun b => start_block root b ▸ nodup_nil, fun b => houtline b ▸ .empty, houtline _⟩
  · obtain _ | _ | _ := b <;> cases hb
  · rw [houtline] at hc
    cases hc

end

/-- The edges of a graph lead to its blocks and are known there, and fit the events of the blocks
that they come from. -/
structure Graph.WellLinked (g : Graph) : Prop where
  successors_lt : ∀ b, ∀ c ∈ (g.block b).successors, c < g.blocks.size
  nodup : ∀ b, (g.block b).predecessors.Nodup
  predecessors : ∀ b c, c ∈ (g.block b).predecessors ↔ b ∈ (g.block c).successors
  tests : ∀ b, ∀ e ∈ (g.block b).events.dropLast, e.testNode? = none
  taken : ∀ b, (g.block b).taken?.isSome ↔ (g.block b).testNode?.isSome
  next : ∀ b, (g.block b).taken?.isSome → (g.block b).next?.isSome
  exception : ∀ b, (g.block b).exception?.isSome ↔ ∃ node, .mayThrow node ∈ (g.block b).events
  exit_lt : exit < g.blocks.size
  exit_events : (g.block exit).events = []
  exit_successors : (g.block exit).successors = []

/-- All graphs are well linked: every edge leads to a block, which has the block it comes from as a
predecessor, once and for no other reason; a block has a condition at its end at most, and then two
edges out of it; it has an edge to a handler exactly if something in it may throw; and nothing
happens at the exit. -/
theorem graph_wellLinked {p : Program} {root : DeclId} {g : Graph} (h : p.graph root = .ok g) :
    g.WellLinked := by
  obtain ⟨st, hbuild, rfl⟩ := Program.graph_inv h
  obtain ⟨_, _, hclosed⟩ := closed_building hbuild
  obtain ⟨hlinked, -⟩ := (keeps_constructs p _).building _ _ _ (linked_start root) (by simp) hbuild
  exact {
    successors_lt := fun b c hc => (hlinked.linked b c hc).1
    nodup := hlinked.nodup
    predecessors := fun b c => ⟨hclosed.backed trivial b c, fun hc => (hlinked.linked c b hc).2⟩
    tests := fun b => (hclosed.waits.suits b).tests
    taken := fun b => by
      rw [FlowBlock.testNode?_eq]
      exact (hlinked.formed b).getLast? (hclosed.waits.suits b)
    next := fun b => (hlinked.formed b).next
    exception := fun b => ⟨(hlinked.formed b).exception, fun hthrows =>
      hthrows.elim (hclosed.waits.suits b).throws⟩
    exit_lt := hlinked.exit
    exit_events := congrArg events hlinked.quiet
    exit_successors := congrArg successors hlinked.quiet }

/-- A function that calls itself in an attempt with a finalizer and no handlers. -/
theorem graph_wellLinked_attempting : ∃ g,
    (attempting (.call () (.ident () "f") []) []).program.graph 2 = .ok g ∧
    (∃ b, (g.block b).exception?.isSome) ∧ g.WellLinked := by
  obtain ⟨g, hg, hexception⟩ :
      ∃ g, (attempting (.call () (.ident () "f") []) []).program.graph 2 = .ok g ∧
        (g.block 4).exception?.isSome := by decide +kernel
  exact ⟨g, hg, ⟨4, hexception⟩, graph_wellLinked hg⟩

end TypeFlow
