import TypeFlow.Proofs.GraphKeys
import TypeFlow.Proofs.Exits
import TypeFlow.Proofs.Order
import TypeFlow.Proofs.GraphWalks

/-!
# Blocks that are filled

While a graph is built, some blocks wait to be filled, and the current one is being filled. Whatever
is done to the current block only adds to it, and leaves the waiting ones as they are. The handler
of every waiting block is known, so what may throw leads to it, and inside an attempt every call is
noted as something that may throw.
-/

namespace TypeFlow

open Graph List Option

/-! ### Calls in events -/

/-- Whether a call is part of what is written. -/
def Written.calls : Written → Bool
  | .value e => e.calls
  | .compound _ target v => target.calls || v.calls
  | .absent | .caught _ => false
  | .element container position v => container.calls || position.calls || v.calls
  | .returned value? => value?.any Expr.calls

/-- Whether a condition is decided by a call. The subject of a switch is evaluated before its cases
are looked at. -/
def Condition.calls : Condition → Bool
  | .equals whole? _ right .. => (whole?.getD right).calls
  | .truthy e _ => e.calls
  | .instanceOf whole .. => whole.calls
  | .dispatch => false

namespace Event

/-- Whether an event calls a function. -/
def calls : Event → Bool
  | .write _ _ source => source.calls
  | .run _ e => e.calls
  | .test _ condition => condition.calls
  | .read .. | .forget _ | .mayThrow _ => false

/-- The node of what may throw. -/
def throws? : Event → Option NodeId
  | .mayThrow node => some node
  | _ => none

/-- An event that walks do not see, and that neither calls a function nor notes that something may
throw. -/
structure Plain (e : Event) : Prop where
  step : e.step? = none
  test : e.testNode? = none
  throws : e.throws? = none
  calls : e.calls = false

end Event

/-- The last event notes that something may throw. -/
def Noted (events : List Event) : Prop := ∃ before node, events = before ++ [.mayThrow node]

/-- What calls a function comes directly after the note that it may throw. -/
def Guarded (events : List Event) : Prop :=
  ∀ before e rest, events = before ++ e :: rest → e.calls → Noted before

namespace Guarded

variable {events new : List Event} {e : Event}

theorem nil : Guarded [] := by
  intro before e rest h
  simp at h

theorem concat (h : Guarded events) (he : e.calls → Noted events) : Guarded (events ++ [e]) := by
  intro before e' rest heq hcalls
  rcases eq_nil_or_concat rest with rfl | ⟨rest, last, rfl⟩
  · obtain ⟨rfl, hlast⟩ := append_inj' heq rfl
    cases hlast
    exact he hcalls
  · rw [concat_eq_append, ← cons_append, ← append_assoc] at heq
    exact h before e' rest (append_inj_left' heq rfl) hcalls

theorem append (h : Guarded events) (hnew : ∀ e ∈ new, e.calls = false) :
    Guarded (events ++ new) := by
  induction new generalizing events with
  | nil => rwa [append_nil]
  | cons e new ih =>
    obtain ⟨he, hnew⟩ := forall_mem_cons.mp hnew
    rw [append_cons]
    exact ih (h.concat (by simp [he])) hnew

end Guarded

/-! ### Outlines -/

/-- What control does in a block, and where it goes from there. -/
structure Outline where
  events : List Event := []
  next? : Option BlockId := none
  taken? : Option BlockId := none
  exception? : Option BlockId := none

namespace Outline

/-- Nothing leads out of the block at its end, and it has no condition. -/
structure IsOpen (o : Outline) : Prop where
  next : o.next? = none
  taken : o.taken? = none
  tests : ∀ e ∈ o.events, e.testNode? = none

/-- The blocks to which control may go. -/
def successors (o : Outline) : List BlockId :=
  o.taken?.toList ++ o.next?.toList ++ o.exception?.toList

/-- Events and edges are added. -/
structure Grows (o o' : Outline) : Prop where
  events : o.events <+: o'.events
  successors : o.successors ⊆ o'.successors

/-- A block with this outline suits its handler: at most the last event is a condition, what may
throw leads to the handler, and calls are noted when there is one. -/
structure Suits (o : Outline) (h? : Option BlockId) : Prop where
  tests : ∀ e ∈ o.events.dropLast, e.testNode? = none
  exception : ∀ b, o.exception? = some b → h? = some b
  throws : ∀ node, .mayThrow node ∈ o.events → o.exception?.isSome
  guarded : h?.isSome → Guarded o.events

theorem Grows.refl (o : Outline) : o.Grows o := ⟨prefix_refl _, .refl _⟩

theorem Grows.trans {o o' o'' : Outline} (h : o.Grows o') (h' : o'.Grows o'') : o.Grows o'' :=
  ⟨h.events.trans h'.events, Subset.trans h.successors h'.successors⟩

section

variable {o : Outline} {h? : Option BlockId}

theorem Suits.empty (h? : Option BlockId) : ({} : Outline).Suits h? where
  tests := by simp
  exception := by simp
  throws := by simp
  guarded _ := .nil

theorem Suits.append (h : o.Suits h?) (htests : ∀ e ∈ o.events, e.testNode? = none)
    {new : List Event} (hnew : ∀ e ∈ new, e.Plain) :
    Outline.Suits { o with events := o.events ++ new } h? where
  tests e he := by
    have hall := forall_mem_append.mpr ⟨htests, fun e he => (hnew e he).test⟩
    exact hall e (mem_of_mem_dropLast he)
  exception := h.exception
  throws node hnode := by
    rcases mem_append.mp hnode with hnode | hnode
    · exact h.throws node hnode
    · cases (hnew _ hnode).throws
  guarded hsome := (h.guarded hsome).append fun e he => (hnew e he).calls

/-- What is evaluated at the end has been noted. -/
theorem Suits.concat (h : o.Suits h?) (htests : ∀ e ∈ o.events, e.testNode? = none) {e : Event}
    (hthrows : e.throws? = none) (hcalls : e.calls → h?.isSome → Noted o.events)
    (next? taken? : Option BlockId) :
    Outline.Suits ⟨o.events ++ [e], next?, taken?, o.exception?⟩ h? where
  tests := by
    rw [dropLast_concat]
    exact htests
  exception := h.exception
  throws node hnode := by
    rcases mem_append.mp hnode with hnode | hnode
    · exact h.throws node hnode
    · rw [← mem_singleton.mp hnode] at hthrows
      cases hthrows
  guarded hsome := (h.guarded hsome).concat fun hc => hcalls hc hsome

/-- What may throw is noted. -/
theorem Suits.note {handler : BlockId} (h : o.Suits h?) (hhandler : h? = some handler)
    (htests : ∀ e ∈ o.events, e.testNode? = none) (node : NodeId) :
    Outline.Suits { o with events := o.events ++ [.mayThrow node], exception? := some handler }
      h? where
  tests := by
    rw [dropLast_concat]
    exact htests
  exception _ hb := hhandler.trans hb
  throws _ _ := rfl
  guarded hsome := (h.guarded hsome).append (by simp [Event.calls])

end

end Outline

/-- What control does in a block, and where it goes from there. -/
def FlowBlock.outline (b : FlowBlock) : Outline := ⟨b.events, b.next?, b.taken?, b.exception?⟩

namespace Graph

/-- What control does in a block, and where it goes from there. -/
def outline (g : Graph) (b : BlockId) : Outline := (g.block b).outline

/-- Events and edges are added. -/
def Grows (g g' : Graph) : Prop := ∀ b, (g.outline b).Grows (g'.outline b)

variable {g g' g'' : Graph}

theorem Grows.refl (g : Graph) : g.Grows g := fun b => .refl (g.outline b)

/-- Graphs grow step by step. -/
theorem Grows.trans (h : g.Grows g') (h' : g'.Grows g'') : g.Grows g'' :=
  fun b => (h b).trans (h' b)

theorem Grows.of_eq (h : ∀ b, g'.outline b = g.outline b) : g.Grows g' := fun b => h b ▸ .refl _

/-- An edge from a block that can be reached. -/
theorem Grows.reached (h : g.Grows g') {b c : BlockId} (hb : b ∈ g'.order)
    (hc : c ∈ (g.outline b).successors) : c ∈ g'.order :=
  g'.successor_mem_order hb ((h b).successors hc)

end Graph

namespace Building

/-- Blocks wait to be filled, each with its handler. All blocks suit their handlers. -/
structure Waits (W : List (BlockId × Option BlockId)) (st : Building) : Prop where
  handlers : st.handlerOf.size = st.size
  suits : ∀ b, (st.graph.outline b).Suits (st.handlerOf.getD b none)
  nodup : (W.map Prod.fst).Nodup
  lt : ∀ w ∈ W, w.1 < st.size
  isOpen : ∀ w ∈ W, (st.graph.outline w.1).IsOpen
  handler : ∀ w ∈ W, st.handlerOf.getD w.1 none = w.2

/-- The outline of the current block is replaced, the block becomes a predecessor of others, and
identities of some nodes may be noted. -/
structure Alters (nodes : NodeId → Prop) (targets : List BlockId) (o : Outline)
    (st st' : Building) : Prop where
  size : st'.size = st.size
  current : st'.current = st.current
  handlerOf : st'.handlerOf = st.handlerOf
  here : st'.graph.outline st.current = o
  others : ∀ b ≠ st.current, st'.graph.outline b = st.graph.outline b
  noting : st.Noting nodes st'
  predecessors : ∀ b c, c ∈ (st'.graph.block b).predecessors ↔
    c ∈ (st.graph.block b).predecessors ∨ c = st.current ∧ b ∈ targets ∧ b < st.size
  nodup : ∀ b, (st.graph.block b).predecessors.Nodup → (st'.graph.block b).predecessors.Nodup

variable {W V : List (BlockId × Option BlockId)} {st st' st'' : Building} {o o' : Outline}
  {h? : Option BlockId} {w : BlockId × Option BlockId} {nodes : NodeId → Prop}
  {targets targets' : List BlockId}

theorem Waits.sublist (h : st.Waits W) (hsub : V.Sublist W) : st.Waits V :=
  { h with
    nodup := (hsub.map Prod.fst).nodup h.nodup
    lt := fun w hw => h.lt w (hsub.subset hw)
    isOpen := fun w hw => h.isOpen w (hsub.subset hw)
    handler := fun w hw => h.handler w (hsub.subset hw) }

theorem Waits.perm (h : st.Waits W) (hperm : W.Perm V) : st.Waits V :=
  { h with
    nodup := (hperm.map Prod.fst).nodup_iff.mp h.nodup
    lt := fun w hw => h.lt w (hperm.mem_iff.mpr hw)
    isOpen := fun w hw => h.isOpen w (hperm.mem_iff.mpr hw)
    handler := fun w hw => h.handler w (hperm.mem_iff.mpr hw) }

theorem Waits.tail (h : st.Waits (w :: W)) : st.Waits W := h.sublist (sublist_cons_self _ _)

theorem Waits.current_notMem (h : st.Waits ((st.current, h?) :: W)) :
    ∀ w ∈ W, w.1 ≠ st.current := fun w hw heq =>
  (nodup_cons.mp h.nodup).1 (List.mem_map.mpr ⟨w, hw, heq⟩)

/-! ### Changes of the current block -/

namespace Alters

variable (h : Alters nodes targets o st st')
include h

theorem trans (h' : Alters nodes targets' o' st' st'') :
    Alters nodes (targets ++ targets') o' st st'' where
  size := h'.size.trans h.size
  current := h'.current.trans h.current
  handlerOf := h'.handlerOf.trans h.handlerOf
  here := h.current ▸ h'.here
  others b hb := (h'.others b (h.current.symm ▸ hb)).trans (h.others b hb)
  noting := h.noting.trans h'.noting
  predecessors b c := by
    rw [h'.predecessors, h.predecessors, h.current, h.size]
    grind
  nodup b hb := h'.nodup b (h.nodup b hb)

theorem outline_current : st'.graph.outline st'.current = o := h.current.symm ▸ h.here

theorem grows (ho : (st.graph.outline st.current).Grows o) : st.graph.Grows st'.graph := by
  intro b
  by_cases hb : b = st.current
  · rwa [hb, h.here]
  · exact h.others b hb ▸ .refl _

/-- The other waiting blocks wait on. -/
theorem waits (hwaits : st.Waits ((st.current, h?) :: W)) (ho : o.Suits h?) : st'.Waits W where
  handlers := by rw [h.handlerOf, h.size, hwaits.handlers]
  suits b := by
    rw [h.handlerOf]
    by_cases hb : b = st.current
    · rw [hb, h.here, hwaits.handler _ mem_cons_self]
      exact ho
    · rw [h.others b hb]
      exact hwaits.suits b
  nodup := hwaits.tail.nodup
  lt w hw := h.size ▸ hwaits.tail.lt w hw
  isOpen w hw := by
    rw [h.others _ (hwaits.current_notMem w hw)]
    exact hwaits.tail.isOpen w hw
  handler w hw := by
    rw [h.handlerOf]
    exact hwaits.tail.handler w hw

/-- The current block goes on waiting as long as nothing leads out of it. -/
theorem waits_open (hwaits : st.Waits ((st.current, h?) :: W)) (ho : o.Suits h?)
    (hopen : o.IsOpen) : st'.Waits ((st'.current, h?) :: W) := by
  have htail := h.waits hwaits ho
  refine { htail with
    nodup := h.current ▸ hwaits.nodup
    lt := forall_mem_cons.mpr ⟨?_, htail.lt⟩
    isOpen := forall_mem_cons.mpr ⟨?_, htail.isOpen⟩
    handler := forall_mem_cons.mpr ⟨?_, htail.handler⟩ }
  · rw [h.current, h.size]
    exact hwaits.lt _ mem_cons_self
  · rwa [h.current, h.here]
  · rw [h.current, h.handlerOf]
    exact hwaits.handler _ mem_cons_self

end Alters

section

variable (h : st.Waits ((st.current, h?) :: W))

include h

theorem Waits.current_open : (st.graph.outline st.current).IsOpen := h.isOpen _ mem_cons_self

theorem Waits.current_suits : (st.graph.outline st.current).Suits h? := by
  have hsuits := h.suits st.current
  rwa [h.handler _ mem_cons_self] at hsuits

theorem Waits.current_lt : st.current < st.size := h.lt _ mem_cons_self

end

end Building

section

open Build Building

variable {W : List (BlockId × Option BlockId)} {st st' : Building} {h? : Option BlockId}
  {target b : BlockId} {node : NodeId} {around : Surroundings} {N : NodeId → Prop}

theorem Graph.outline_modify (g : Graph) (b c : BlockId) (f : FlowBlock → FlowBlock) :
    outline { g with blocks := g.blocks.modify b f } c =
      if c = b ∧ c < g.blocks.size then (f (g.block c)).outline else g.outline c := by
  rw [outline, block_modify]
  split <;> rfl

/-- A change of the current block. -/
theorem alters_modifyBlock {f : FlowBlock → FlowBlock} {o : Outline} (hlt : st.current < st.size)
    (hf : (f (st.graph.block st.current)).outline = o)
    (hpredecessors : ∀ x, (f x).predecessors = x.predecessors)
    (h : modifyBlock st.current f st = .ok ((), st')) : Alters N [] o st st' := by
  cases h
  have hsame (b : BlockId) : (block { st.graph with
      blocks := st.graph.blocks.modify st.current f } b).predecessors =
        (st.graph.block b).predecessors := by
    rw [block_modify]
    split
    · exact hpredecessors _
    · rfl
  refine ⟨Array.size_modify, rfl, rfl, ?_, fun b hb => ?_, .of_eq rfl, fun b c => by simp [hsame],
    fun b hb => (hsame b).symm ▸ hb⟩
  · rw [outline_modify, if_pos ⟨rfl, hlt⟩, hf]
  · rw [outline_modify, if_neg fun h => hb h.1]

/-- Predecessors are no part of outlines. -/
theorem Building.Alters.link {o : Outline} {st₁ : Building} {targets : List BlockId}
    (halters : Alters N targets o st st₁) (h : Build.link st.current target st₁ = .ok ((), st')) :
    Alters N (targets ++ [target]) o st st' := by
  rw [← halters.current] at h
  cases h
  have houtline (b : BlockId) : outline { st₁.graph with
      blocks := st₁.graph.blocks.modify target fun x =>
        if x.predecessors.contains st₁.current then x
        else { x with predecessors := x.predecessors ++ [st₁.current] } } b =
          st₁.graph.outline b := by
    rw [outline_modify]
    split
    · split <;> rfl
    · rfl
  refine halters.trans ⟨Array.size_modify, rfl, rfl, (houtline _).trans halters.outline_current,
    fun b _ => houtline b, .of_eq rfl, fun b c => ?_, fun b hb => ?_⟩
  all_goals
    simp only [block_modify, Building.size]
    split
    · next hb => split <;> grind
    · next hb => grind

section

variable (hlt : st.current < st.size)

include hlt

theorem alters_emit {e : Event} (h : emit e st = .ok ((), st')) :
    Alters N [] { st.graph.outline st.current with
      events := (st.graph.outline st.current).events ++ [e] } st st' := by
  obtain ⟨_, _, hget, h⟩ := bind_inv h
  cases hget
  exact alters_modifyBlock hlt rfl (by intro x; rfl) h

/-- Control goes on to a block, unless the current block leads somewhere already. -/
theorem goto_cases (h : goto target st = .ok ((), st')) :
    ¬ ((st.graph.outline st.current).next? = none ∧ (st.graph.outline st.current).taken? = none) ∧
        st' = st ∨
      Alters N [target] { st.graph.outline st.current with next? := some target } st st' := by
  obtain ⟨_, _, hget, h⟩ := bind_inv h
  cases hget
  simp only [Bool.and_eq_true, isNone_iff_eq_none] at h
  split at h
  · obtain ⟨_, st₁, hmodify, hlink⟩ := bind_inv h
    exact .inr ((alters_modifyBlock hlt rfl (by intro x; rfl) hmodify).link hlink)
  · next hleads => exact .inl ⟨hleads, (pure_inv h).2⟩

theorem alters_branch {condition : Condition} {taken next : BlockId}
    (h : branch node condition taken next st = .ok ((), st')) :
    Alters N [taken, next] { st.graph.outline st.current with
      events := (st.graph.outline st.current).events ++ [.test node condition]
      taken? := some taken
      next? := some next } st st' := by
  obtain ⟨_, st₁, hemit, h⟩ := bind_inv h
  obtain ⟨_, _, hget, h⟩ := bind_inv h
  cases hget
  obtain ⟨_, st₂, hmodify, h⟩ := bind_inv h
  obtain ⟨_, st₃, hlink, hlink'⟩ := bind_inv h
  have hemitted := alters_emit (N := N) hlt hemit
  rw [hemitted.current] at hlink hlink'
  refine ((hemitted.trans (alters_modifyBlock ?_ ?_ (by intro x; rfl) hmodify)).link hlink).link
    hlink'
  · rw [hemitted.current, hemitted.size]
    exact hlt
  · exact congrArg (fun o : Outline => { o with taken? := some taken, next? := some next })
      hemitted.outline_current

theorem mayThrow_cases (hhandler : st.handlerOf.getD st.current none = h?)
    (h : mayThrow node st = .ok ((), st')) : h? = none ∧ st' = st ∨ ∃ handler, h? = some handler ∧
      Alters N [handler] { st.graph.outline st.current with
        events := (st.graph.outline st.current).events ++ [.mayThrow node]
        exception? := some handler } st st' := by
  obtain ⟨_, _, hget, h⟩ := bind_inv h
  cases hget
  simp only [hhandler] at h
  cases h? with
  | none =>
    cases h
    exact .inl ⟨rfl, rfl⟩
  | some handler =>
    obtain ⟨_, st₁, hemit, h⟩ := bind_inv h
    obtain ⟨_, st₂, hmodify, hlink⟩ := bind_inv h
    have hemitted := alters_emit (N := N) hlt hemit
    rw [← hemitted.current] at hmodify
    refine .inr ⟨handler, rfl, (hemitted.trans (alters_modifyBlock ?_ ?_ (by intro x; rfl)
      hmodify)).link hlink⟩
    · rw [hemitted.current, hemitted.size]
      exact hlt
    · exact congrArg (fun o : Outline => { o with exception? := some handler })
        hemitted.outline_current

end

/-- Inside an attempt, what may throw is noted last. -/
theorem mayThrow_noted (hwaits : st.Waits ((st.current, h?) :: W))
    (h : mayThrow node st = .ok ((), st')) (hsome : h?.isSome) :
    Noted (st'.graph.outline st'.current).events := by
  rcases mayThrow_cases (N := fun _ => False) hwaits.current_lt (hwaits.handler _ mem_cons_self)
    h with ⟨rfl, -⟩ | ⟨handler, -, halters⟩
  · cases hsome
  · rw [halters.outline_current]
    exact ⟨_, node, rfl⟩

theorem newBlock_outline (h : newBlock around st = .ok (b, st')) (c : BlockId) :
    st'.graph.outline c = st.graph.outline c := congrArg FlowBlock.outline (newBlock_block h c)

theorem Graph.outline_of_size_le (g : Graph) (hb : g.blocks.size ≤ b) : g.outline b = {} := by
  rw [outline, block, Array.getD_eq_getD_getElem?, Array.getElem?_eq_none hb]
  rfl

/-- A new block waits to be filled. -/
theorem newBlock_waits (hwaits : st.Waits W) (h : newBlock around st = .ok (b, st')) :
    st'.Waits ((b, around.handler?) :: W) ∧ st'.current = st.current := by
  have houtline := newBlock_outline h
  cases h
  have hhandler {c : BlockId} (hc : c < st.size) :
      (st.handlerOf.push around.handler?).getD c none = st.handlerOf.getD c none := by
    rw [Array.getD_eq_getD_getElem?, Array.getD_eq_getD_getElem?,
      Array.getElem?_push_lt (hwaits.handlers.symm ▸ hc), ← Array.getElem?_eq_getElem]
  have hlast : (st.handlerOf.push around.handler?).getD st.size none = around.handler? := by
    rw [Array.getD_eq_getD_getElem?, ← hwaits.handlers, Array.getElem?_push_size]
    rfl
  refine ⟨{
    handlers := ?_
    suits := fun c => ?_
    nodup := nodup_cons.mpr ⟨fun hmem => ?_, hwaits.nodup⟩
    lt := forall_mem_cons.mpr ⟨?_, fun w hw => ?_⟩
    isOpen := forall_mem_cons.mpr ⟨?_, fun w hw => houtline w.1 ▸ hwaits.isOpen w hw⟩
    handler := forall_mem_cons.mpr ⟨hlast, fun w hw => ?_⟩ }, rfl⟩
  · simp [Building.size, hwaits.handlers]
  · by_cases hc : c < st.size
    · rw [houtline, hhandler hc]
      exact hwaits.suits c
    · rw [houtline, outline_of_size_le _ (Nat.not_lt.mp hc)]
      exact .empty _
  · obtain ⟨w, hw, heq⟩ := List.mem_map.mp hmem
    exact absurd (heq ▸ hwaits.lt w hw) (Nat.lt_irrefl _)
  · simp [Building.size]
  · simpa [Building.size] using Nat.lt_succ_of_lt (hwaits.lt w hw)
  · rw [houtline, outline_of_size_le _ (Nat.le_refl _)]
    exact ⟨rfl, rfl, by simp⟩
  · exact (hhandler (hwaits.lt w hw)).trans (hwaits.handler w hw)

end

/-! ### Readings -/

namespace Building

/-- Events of a kind have been added to the current block. -/
def Adds (E : Event → Prop) (nodes : NodeId → Prop) (st st' : Building) : Prop :=
  ∃ new : List Event, (∀ e ∈ new, E e) ∧ Alters nodes [] { st.graph.outline st.current with
      events := (st.graph.outline st.current).events ++ new } st st'

variable {st st' st'' : Building} {E F : Event → Prop} {nodes nodes' : NodeId → Prop}

theorem Adds.of_eq (hblocks : st'.graph.blocks = st.graph.blocks)
    (hcurrent : st'.current = st.current) (hhandler : st'.handlerOf = st.handlerOf)
    (hnoting : st.Noting nodes st') : st.Adds E nodes st' := by
  have hblock (b : BlockId) : st'.graph.block b = st.graph.block b := by rw [block, hblocks, block]
  exact ⟨[], by simp, congrArg Array.size hblocks, hcurrent, hhandler,
    by simp [outline, hblock], fun b _ => congrArg _ (hblock b), hnoting, by simp [hblock],
    by simp [hblock]⟩

theorem Adds.refl (st : Building) : st.Adds E nodes st := .of_eq rfl rfl rfl (.of_eq rfl)

section

variable (h : st.Adds E nodes st')

include h

theorem Adds.trans (h' : st'.Adds E nodes st'') : st.Adds E nodes st'' := by
  obtain ⟨new, hnew, halters⟩ := h
  obtain ⟨new', hnew', halters'⟩ := h'
  rw [halters.outline_current, append_assoc] at halters'
  exact ⟨new ++ new', forall_mem_append.mpr ⟨hnew, hnew'⟩, halters.trans halters'⟩

theorem Adds.mono (hE : ∀ e, E e → F e) (hnodes : ∀ n, nodes n → nodes' n) :
    st.Adds F nodes' st' := by
  obtain ⟨new, hnew, halters⟩ := h
  exact ⟨new, fun e he => hE e (hnew e he), { halters with noting := halters.noting.mono hnodes }⟩

theorem Adds.noting : st.Noting nodes st' := by
  obtain ⟨new, -, halters⟩ := h
  exact halters.noting

theorem Adds.current_lt (hlt : st.current < st.size) : st'.current < st'.size := by
  obtain ⟨new, -, halters⟩ := h
  rwa [halters.current, halters.size]

end

end Building

/-- The work adds events of a kind to the current block at most, and notes the identities of some
nodes at most. -/
def Adding {α : Type} (E : Event → Prop) (nodes : NodeId → Prop) (work : Build α) : Prop :=
  ∀ st a st', st.current < st.size → work st = .ok (a, st') → st.Adds E nodes st'

namespace Adding

variable {α β : Type} {E F : Event → Prop} {nodes nodes' : NodeId → Prop} {work : Build α}

theorem pure (a : α) : Adding E nodes (Pure.pure a : Build α) := by
  intro st b st' _ h
  cases h
  exact .refl st

theorem get : Adding E nodes (MonadState.get : Build Building) := by
  intro st b st' _ h
  cases h
  exact .refl st

theorem bind {next : α → Build β} (h : Adding E nodes work) (hnext : ∀ a, Adding E nodes (next a)) :
    Adding E nodes (work >>= next) := by
  intro st b st' hlt hrun
  obtain ⟨a, st₁, hwork, hrun⟩ := Build.bind_inv hrun
  have hadds := h st a st₁ hlt hwork
  exact hadds.trans (hnext a st₁ b st' (hadds.current_lt hlt) hrun)

theorem mono (h : Adding E nodes work) (hE : ∀ e, E e → F e) (hnodes : ∀ n, nodes n → nodes' n) :
    Adding F nodes' work :=
  fun st a st' hlt hrun => (h st a st' hlt hrun).mono hE hnodes

end Adding

section

open Build Building

variable {E : Event → Prop} {N : NodeId → Prop}

theorem adding_modifyGraph {f : Graph → Graph} (hblocks : ∀ g, (f g).blocks = g.blocks)
    (hkeys : ∀ g, (f g).nodeKeys = g.nodeKeys) : Adding E N (modifyGraph f) := by
  intro st a st' _ h
  cases h
  exact .of_eq (hblocks _) rfl rfl (.of_eq (hkeys _))

theorem adding_modifyScope (f : Building → List Key) :
    Adding E N (modify fun s => { s with scope := f s } : Build Unit) := by
  intro st a st' _ h
  cases h
  exact .of_eq rfl rfl rfl (.of_eq rfl)

theorem adding_emit {e : Event} (he : E e) : Adding E N (emit e) :=
  fun _ _ _ hlt h => ⟨[e], by simpa using he, alters_emit hlt h⟩

theorem adding_intern (i : Identity) : Adding E N (intern i) := by
  intro st key st' _ h
  obtain ⟨ids, -, rfl⟩ := intern_inv h
  exact .of_eq rfl rfl rfl (.of_eq rfl)

theorem adding_addNonlocal (key : Key) : Adding E N (addNonlocal key) := by
  refine adding_modifyGraph (fun g => ?_) fun g => ?_
  all_goals split <;> rfl

theorem adding_addCall (id : NodeId) (callees : Callees) (args : List (Expr NodeId)) :
    Adding E N (addCall id callees args) := adding_modifyGraph (fun _ => rfl) fun _ => rfl

theorem adding_setNodeKey {node : NodeId} (hnode : N node) (key : Key) :
    Adding E N (setNodeKey node key) := by
  intro st a st' _ h
  have hnotes := setNodeKey_notes h
  cases h
  refine .of_eq rfl rfl rfl ⟨fun n hn => ?_, fun n hn => (hnotes n).mpr (.inr hn)⟩
  exact ((hnotes n).mp hn).elim (fun heq => .inr (heq ▸ hnode)) .inl

variable {p : Program} {st st' : Building} {e : Expr NodeId} {key? : Option Key}

theorem adding_composes : Composes fun _ => Adding E N := ⟨.pure, .get, .bind⟩

theorem adding_declaredKey? (p : Program) (node : NodeId) : Adding E N (declaredKey? p node) :=
  adding_composes.declaredKey adding_intern p node

/-- The identity of an expression is found and noted exactly when the expression is tracked. -/
theorem trackedKey?_adds (hlt : st.current < st.size) (h : trackedKey? p e st = .ok (key?, st')) :
    st.Adds E (fun n => n = e.id ∧ p.tracks e) st' ∧ key?.isSome = p.tracks e ∧
      (p.tracks e → st'.Notes e.id) := by
  obtain ⟨found?, st₁, hfound, h⟩ := bind_inv h
  have hadds : st.Adds E (fun n => n = e.id ∧ p.tracks e) st₁ :=
    adding_composes.key adding_intern p e st found? st₁ hlt hfound
  have htracked := keyOf?_tracked e hfound
  cases found? with
  | none =>
    cases h
    exact ⟨hadds, htracked, fun htracks => absurd (htracked.trans htracks) (by simp)⟩
  | some key =>
    obtain ⟨_, _, hget, h⟩ := bind_inv h
    cases hget
    rw [any_some] at htracked
    simp only [htracked] at h
    split at h
    · next htracks =>
      obtain ⟨⟨⟩, st₂, hset, h⟩ := bind_inv h
      have hlt₁ := hadds.current_lt hlt
      have hset' := adding_setNodeKey (E := E) (N := fun n => n = e.id ∧ p.tracks e)
        ⟨rfl, htracks⟩ key st₁ () st₂ hlt₁ hset
      have hnoted := (setNodeKey_notes hset e.id).mpr (.inl rfl)
      obtain ⟨st₃, hadd, h⟩ := when_inv h
      cases h
      have hlast : st₂.Adds E (fun n => n = e.id ∧ p.tracks e) st' := by
        split at hadd
        · exact adding_addNonlocal key st₂ () st' (hset'.current_lt hlt₁) hadd
        · obtain ⟨-, rfl⟩ := pure_inv hadd
          exact .refl st'
      exact ⟨(hadds.trans hset').trans hlast, htracks.symm, fun _ => hlast.noting.kept _ hnoted⟩
    · next htracks =>
      cases h
      exact ⟨hadds, (Bool.eq_false_iff.mpr htracks).symm, fun h => absurd h htracks⟩

theorem readOf_adds (hlt : st.current < st.size) (h : readOf p e st = .ok (key?, st')) :
    st.Adds Event.Plain (fun n => n = e.id ∧ p.tracks e) st' ∧ key?.isSome = p.tracks e ∧
      (p.tracks e → st'.Notes e.id) := by
  obtain ⟨found?, st₁, hfound, h⟩ := bind_inv h
  obtain ⟨hadds, hsome, hnoted⟩ := trackedKey?_adds (E := Event.Plain) hlt hfound
  cases found? with
  | none =>
    cases h
    exact ⟨hadds, hsome, hnoted⟩
  | some key =>
    obtain ⟨⟨⟩, st₂, hemit, h⟩ := bind_inv h
    cases h
    have hread := adding_emit (E := Event.Plain) (N := fun n => n = e.id ∧ p.tracks e)
      ⟨rfl, rfl, rfl, rfl⟩ st₁ () st' (hadds.current_lt hlt) hemit
    exact ⟨hadds.trans hread, hsome, fun htracks => hread.noting.kept _ (hnoted htracks)⟩

/-- The nodes of an expression whose identities may be noted. -/
def Program.noted (p : Program) (e : Expr NodeId) (n : NodeId) : Prop :=
  n ∈ e.labels.tail ∨ n = e.id ∧ p.tracks e

theorem Program.mem_labels_of_noted {n : NodeId} (h : p.noted e n) : n ∈ e.labels := by
  rw [e.labels_eq]
  exact h.elim (mem_cons_of_mem _) fun h => h.1 ▸ mem_cons_self

variable (p e)

theorem adding_readsIn (nodes : List NodeId) :
    ReadsIn (fun _ => Adding Event.Plain (· ∈ nodes)) p nodes :=
  ⟨adding_addCall, fun _ he _ _ _ hlt h => (readOf_adds hlt h).1.mono (fun _ => id) fun _ hn =>
    he (Program.mem_labels_of_noted (.inr hn))⟩

theorem adding_buildExpr_noted : Adding Event.Plain (p.noted e) (buildExpr p e) :=
  adding_composes.expr e ⟨fun _ _ _ hlt h => (readOf_adds hlt h).1.mono (fun _ => id) fun _ => .inr,
    adding_addCall, fun _ hpart =>
      ((adding_readsIn p e.labels.tail).read _ hpart).mono (fun _ => id) fun _ => .inl⟩

theorem adding_buildExpr : Adding Event.Plain (· ∈ e.labels) (buildExpr p e) :=
  (adding_buildExpr_noted p e).mono (fun _ => id) fun _ => Program.mem_labels_of_noted

theorem adding_buildTarget (target : Expr NodeId) :
    Adding Event.Plain (· ∈ target.labels.tail) (buildTarget p target) :=
  adding_composes.target target (adding_readsIn p _)

end

end TypeFlow
