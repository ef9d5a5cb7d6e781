import TypeFlow.Proofs.OpenBlocks

/-!
# Laying out blocks

While a graph is built, control is followed from one place to the next: within a block, where events
are added, and from block to block. What is found out on the way is about the graph that comes out
at the end. A block that has been left stays as it is, so that the complete graph is known there;
blocks that wait to be filled are empty.
-/

namespace TypeFlow

open Event List Option Outline Prod

/-- Blocks that wait to be filled, each with its handler. -/
abbrev Waiting := List (BlockId × Option BlockId)

/-- Events about nodes have been added to blocks that can be reached at most. -/
def Fills (g : Graph) (st st' : Building) : Prop :=
  ∀ b, b ∉ g.order → ∃ new : List Event, (∀ e ∈ new, e.labels = []) ∧
    (st'.graph.outline b).events = (st.graph.outline b).events ++ new

namespace Fills

variable {g : Graph} {st st' st'' : Building}

theorem of_eq (h : ∀ b, (st'.graph.outline b).events = (st.graph.outline b).events) :
    Fills g st st' :=
  fun b _ => ⟨[], by simp [h]⟩

theorem trans (h : Fills g st st') (h' : Fills g st' st'') : Fills g st st'' := by
  intro b hb
  obtain ⟨new, hnew, hevents⟩ := h b hb
  obtain ⟨new', hnew', hevents'⟩ := h' b hb
  refine ⟨new ++ new', forall_mem_append.mpr ⟨hnew, hnew'⟩, ?_⟩
  rw [hevents', hevents, append_assoc]

/-- The current block can be reached. -/
theorem of_current {nodes : NodeId → Prop} {targets : List BlockId} {o : Outline}
    (h : st.Alters nodes targets o st')
    (hcurrent : st.current ∈ g.order) : Fills g st st' := by
  intro b hb
  have hne : b ≠ st.current := fun heq => hb (heq ▸ hcurrent)
  exact ⟨[], by simp [h.others b hne]⟩

end Fills

/-- What the construction is followed for. -/
structure Account where
  /-- The graph that comes out at the end. -/
  graph : Graph
  /-- Whether blocks that have been left are known to stay as they are. -/
  exact : Prop
  /-- Whether predecessors are known to have been noted for edges only. -/
  backed : Prop
  /-- The state from which on events are looked at. -/
  start : Building

namespace Building

/-- The current place. -/
def place (st : Building) : Place := (st.current, (st.graph.outline st.current).events.length)

/-- The state becomes the complete graph, in which all but the waiting blocks stay as they are. -/
structure Sees (a : Account) (W : Waiting) (st : Building) : Prop where
  grows : st.graph.Grows a.graph
  final : a.exact → ∀ b < st.size, b ∉ W.map fst → a.graph.outline b = st.graph.outline b

/-- Construction goes on from one state to another, and from some waiting blocks to others. -/
structure Steps (W W' : Waiting) (st st' : Building) : Prop where
  waits : st'.Waits W'
  size : st.size ≤ st'.size
  waiting : ∀ b ∈ W'.map fst, b ∈ W.map fst ∨ st.size ≤ b
  kept : ∀ b ∉ W.map fst, st'.graph.outline b = st.graph.outline b
  grows : st.graph.Grows st'.graph
  backs : ∀ b, ∀ c ∈ (st'.graph.block b).predecessors,
    c ∈ (st.graph.block b).predecessors ∨ b ∈ (st'.graph.outline c).successors

variable {a : Account} {W W' : Waiting} {st st' : Building}

/-- A block does not wait any longer. -/
theorem Steps.drop {w : BlockId × Option BlockId} (h : st.Waits (w :: W)) :
    Steps (w :: W) W st st :=
  ⟨h.tail, Nat.le_refl _, fun _ hb => .inl (mem_cons_of_mem _ hb), fun _ _ => rfl, .refl _,
    fun _ _ => .inl⟩

theorem Steps.notMem (h : Steps W W' st st') {b : BlockId} (hlt : b < st.size)
    (hb : b ∉ W.map fst) : b ∉ W'.map fst :=
  fun hmem => (h.waiting b hmem).elim hb fun hle => Nat.lt_irrefl _ (Nat.lt_of_lt_of_le hlt hle)

theorem Steps.sees (h : Steps W W' st st') (hsees : st'.Sees a W') : st.Sees a W where
  grows := h.grows.trans hsees.grows
  final hexact b hlt hb :=
    (hsees.final hexact b (Nat.lt_of_lt_of_le hlt h.size) (h.notMem hlt hb)).trans (h.kept b hb)

end Building

open Building

/-- Construction has come to a state where some blocks wait. Identities of the nodes that are left
have not been noted. Events about nodes have been added to blocks that can be reached if `K` holds,
and `F` is what has been found out about the complete graph. -/
structure Track (a : Account) (left : List NodeId) (W : Waiting) (K F : Prop) (st : Building) :
    Prop where
  waits : st.Waits W
  exit : a.exact → Graph.exit < st.size ∧ Graph.exit ∉ W.map fst
  backed : a.backed → ∀ b, ∀ c ∈ (st.graph.block b).predecessors,
    b ∈ (st.graph.outline c).successors
  unseen : a.exact → left.Nodup ∧ ∀ n ∈ left, ¬ st.Notes n
  fills : K → Fills a.graph a.start st
  sees : st.Sees a W → F

/-- Control has come to the end of a block. -/
structure Closed (a : Account) (left : List NodeId) (W : Waiting) (K F : Prop) (st : Building) :
    Prop extends Track a left W K F st where
  fresh : ∀ w ∈ W, st.graph.outline w.1 = {}

/-- Control has come to a place in the current block. -/
structure Opened (a : Account) (left : List NodeId) (h? : Option BlockId) (W : Waiting) (p : Place)
    (K F : Prop) (st : Building) : Prop extends
    Track a left ((st.current, h?) :: W) K F st where
  fresh : ∀ w ∈ W, st.graph.outline w.1 = {}
  place : st.place = p

section

variable {a : Account} {labels left rest : List NodeId} {W W' : Waiting}
  {K K' F F' k k' f f' f'' : Prop}
  {st st' : Building} {h? : Option BlockId} {p : Place}

theorem Track.mono (h : Track a left W K F st) (hK : K' → K) (hF : F → F') :
    Track a left W K' F' st :=
  { h with fills := fun hk => h.fills (hK hk), sees := fun hs => hF (h.sees hs) }

theorem Track.step (h : Track a (labels ++ left) W K F st) (hsteps : st.Steps W W' st')
    (hnoting : st.Noting (· ∈ labels) st') (hfills : k → Fills a.graph st st')
    (hf : st'.Sees a W' → f) : Track a left W' (K ∧ k) (F ∧ f) st' where
  waits := hsteps.waits
  exit hexact := by
    obtain ⟨hlt, hnot⟩ := h.exit hexact
    exact ⟨Nat.lt_of_lt_of_le hlt hsteps.size, hsteps.notMem hlt hnot⟩
  backed hbacked b c hc :=
    (hsteps.backs b c hc).elim (fun hc => (hsteps.grows c).successors (h.backed hbacked b c hc)) id
  unseen hexact := by
    obtain ⟨hnodup, hunseen⟩ := h.unseen hexact
    refine ⟨(nodup_append.mp hnodup).2.1, fun n hn hnoted => ?_⟩
    rcases hnoting.new n hnoted with hnoted | hlabel
    · exact hunseen n (mem_append_right _ hn) hnoted
    · exact disjoint_of_nodup_append hnodup hlabel hn
  fills hk := (h.fills hk.1).trans (hfills hk.2)
  sees hs := ⟨h.sees (hsteps.sees hs), hf hs⟩

/-- No event is added to any block, and no identity is noted. -/
theorem Track.step_still (h : Track a left W K F st) (hsteps : st.Steps W W' st')
    (hnoting : st.Noting (· ∈ ([] : List NodeId)) st')
    (hevents : ∀ b, (st'.graph.outline b).events = (st.graph.outline b).events)
    (hf : st'.Sees a W' → f) : Track a left W' K (F ∧ f) st' := by
  have hstep := h
  exact (hstep.step hsteps hnoting (fun _ => .of_eq hevents) hf).mono (⟨·, trivial⟩) id

theorem Track.perm (h : Track a left W K F st) (hperm : W.Perm W') : Track a left W' K F st := by
  have hmem {b : BlockId} : b ∈ W'.map fst ↔ b ∈ W.map fst := (hperm.map fst).mem_iff.symm
  exact { h with
      waits := h.waits.perm hperm
      exit := fun hexact => (h.exit hexact).imp_right fun hnot hb => hnot (hmem.mp hb)
      sees := fun hs => h.sees ⟨hs.grows, fun hexact b hlt hb =>
        hs.final hexact b hlt fun hb' => hb (hmem.mp hb')⟩ }

theorem Closed.mono (h : Closed a left W K F st) (hK : K' → K) (hF : F → F') :
    Closed a left W K' F' st :=
  { h.toTrack.mono hK hF, h with }

theorem Opened.mono (h : Opened a left h? W p K F st) (hK : K' → K) (hF : F → F') :
    Opened a left h? W p K' F' st :=
  { h.toTrack.mono hK hF, h with }

theorem Opened.map (h : Opened a left h? W p K (F ∧ f) st) (hf : f → f') :
    Opened a left h? W p K (F ∧ f') st := h.mono id (.imp_right hf)

theorem Closed.gather (h : Closed a left W ((K ∧ k) ∧ k') ((F ∧ f) ∧ f') st)
    (hf : f → f' → f'') : Closed a left W (K ∧ k ∧ k') (F ∧ f'') st :=
  h.mono and_assoc.mpr fun h => ⟨h.1.1, hf h.1.2 h.2⟩

theorem Opened.gather (h : Opened a left h? W p ((K ∧ k) ∧ k') ((F ∧ f) ∧ f') st)
    (hf : f → f' → f'') : Opened a left h? W p (K ∧ k ∧ k') (F ∧ f'') st :=
  h.mono and_assoc.mpr fun h => ⟨h.1.1, hf h.1.2 h.2⟩

section

variable (h : Opened a left h? W p K F st)

include h

/-- The nodes that are left may be fewer. -/
theorem Opened.relabel (hrest : left.Nodup → rest.Nodup ∧ rest ⊆ left) :
    Opened a rest h? W p K F st :=
  { h with
    unseen := fun hexact => by
      obtain ⟨hnodup, hunseen⟩ := h.unseen hexact
      exact ⟨(hrest hnodup).1, fun n hn => hunseen n ((hrest hnodup).2 hn)⟩ }

theorem Opened.reorder (hperm : left.Perm rest) : Opened a rest h? W p K F st :=
  h.relabel fun hnodup => ⟨hperm.nodup hnodup, hperm.symm.subset⟩

theorem Opened.current_eq : st.current = p.1 := congrArg fst h.place

end

end

/-! ### Events -/

/-- Between two places in a block there are some steps, and what may throw leads to the handler.
Only this block has got events about nodes. -/
structure Account.Performs (a : Account) (h? : Option BlockId) (calls : Bool) (steps : List Step)
    (k : Prop) (p q : Place) : Prop where
  block : q.1 = p.1
  seen : a.graph.seen q = a.graph.seen p ++ steps
  thrown : calls → p.1 ∈ a.graph.order → ∀ b, h? = some b → b ∈ a.graph.order
  fills : p.1 ∈ a.graph.order → k

theorem Account.Performs.refl (a : Account) (h? : Option BlockId) (p : Place) :
    a.Performs h? false [] True p p :=
  ⟨rfl, (append_nil _).symm, by simp, fun _ => trivial⟩

/-- Steps are done one after the other. -/
theorem Account.Performs.trans {a : Account} {h? : Option BlockId} {calls calls' : Bool}
    {steps steps' : List Step} {k k' : Prop} {p q r : Place} (h : a.Performs h? calls steps k p q)
    (h' : a.Performs h? calls' steps' k' q r) :
    a.Performs h? (calls || calls') (steps ++ steps') (k ∧ k') p r where
  block := h'.block.trans h.block
  seen := by rw [h'.seen, h.seen, append_assoc]
  thrown hcalls hp :=
    (Bool.or_eq_true_iff.mp hcalls).elim (h.thrown · hp) (h'.thrown · (h.block ▸ hp))
  fills hp := ⟨h.fills hp, h'.fills (h.block ▸ hp)⟩

section

open Build

variable {α : Type} {a : Account} {labels left : List NodeId} {W W' : Waiting} {K F k : Prop}
  {st st' : Building} {h? : Option BlockId} {p : Place} {o : Outline} {N : NodeId → Prop}
  {new : List Event} {node : NodeId} {e : Event} {targets : List BlockId}

theorem Building.Alters.steps (h : st.Alters N targets o st') (hwaits : st'.Waits W')
    (hgrows : (st.graph.outline st.current).Grows o) (htargets : targets ⊆ o.successors)
    (hsub : W'.map fst ⊆ ((st.current, h?) :: W).map fst) :
    st.Steps ((st.current, h?) :: W) W' st' where
  waits := hwaits
  size := h.size.ge
  waiting _ hb := .inl (hsub hb)
  kept b hb := h.others b fun heq => hb (heq ▸ mem_cons_self)
  grows := h.grows hgrows
  backs b c hc := ((h.predecessors b c).mp hc).imp_right fun hnew => by
    rw [hnew.1, h.here]
    exact htargets hnew.2.1

theorem Opened.fresh_of_alters (h : Opened a left h? W p K F st)
    (halters : st.Alters N targets o st') : ∀ w ∈ W, st'.graph.outline w.1 = {} :=
  fun w hw => (halters.others _ (h.waits.current_notMem w hw)).trans (h.fresh w hw)

theorem Graph.Grows.seen_place {g : Graph} (h : st.graph.Grows g) :
    g.seen st.place = (st.graph.outline st.current).events.filterMap step? :=
  congrArg (filterMap step?) (prefix_iff_eq_take.mp (h st.current).events).symm

variable {calls : Bool} {work : Build α} {r : α}

section

variable (h : Opened a (labels ++ left) h? W p K F st)

include h

/-- Events are added to the current block. -/
theorem Opened.alter (halters : st.Alters (· ∈ labels) targets o st')
    (htargets : targets ⊆ o.successors)
    (hevents : o.events = (st.graph.outline st.current).events ++ new) (hopen : o.IsOpen)
    (hsuits : o.Suits h?) (hgrows : (st.graph.outline st.current).Grows o)
    (hcalls : calls → o.exception? = h?) (hfills : k → Fills a.graph st st')
    (hk : p.1 ∈ a.graph.order → k) : Opened a left h? W st'.place (K ∧ k)
      (F ∧ a.Performs h? calls (new.filterMap step?) k p st'.place) st' := by
  have hsteps : st.Steps ((st.current, h?) :: W) ((st'.current, h?) :: W) st' :=
    halters.steps (halters.waits_open h.waits hsuits hopen) hgrows htargets
      (by simp [halters.current])
  refine { h.toTrack.step hsteps halters.noting hfills fun hsees => ?_ with
    fresh := h.fresh_of_alters halters
    place := rfl }
  have hcurrent := halters.current.trans h.current_eq
  refine ⟨hcurrent, ?_, fun hc hp b hb => hsees.grows.reached hp ?_, hk⟩
  · rw [← h.place, hsees.grows.seen_place, (hsteps.sees hsees).grows.seen_place,
      halters.outline_current, hevents, filterMap_append]
  · rw [← hcurrent, halters.outline_current]
    exact mem_append_right _ (Option.mem_toList.mpr ((hcalls hc).trans hb))

/-- Events are added that note nothing that may throw. -/
theorem Opened.append
    (halters : st.Alters (· ∈ labels) [] { st.graph.outline st.current with events :=
      (st.graph.outline st.current).events ++ new } st')
    (hsuits : Outline.Suits { st.graph.outline st.current with events := (st.graph.outline
      st.current).events ++ new } h?) (htests : ∀ e ∈ new, e.testNode? = none)
    (hfills : k → Fills a.graph st st') (hk : p.1 ∈ a.graph.order → k) :
    Opened a left h? W st'.place (K ∧ k)
      (F ∧ a.Performs h? false (new.filterMap step?) k p st'.place) st' := by
  have hopen := h.waits.current_open
  exact h.alter halters (nil_subset _) rfl
    ⟨hopen.next, hopen.taken, forall_mem_append.mpr ⟨hopen.tests, htests⟩⟩ hsuits
    ⟨prefix_append _ _, .refl _⟩ (by simp) hfills hk

/-- Readings are added. -/
theorem Opened.reads (hwork : Adding Event.Plain (· ∈ labels) work)
    (hrun : work st = .ok (r, st')) :
    ∃ k, Opened a left h? W st'.place (K ∧ k) (F ∧ a.Performs h? false [] k p st'.place) st' := by
  obtain ⟨new, hnew, halters⟩ := hwork st r st' h.waits.current_lt hrun
  have hsteps := filterMap_eq_nil_iff.mpr fun e he => (hnew e he).step
  have hsuits := h.waits.current_suits.append h.waits.current_open.tests hnew
  exact ⟨_, hsteps ▸ h.append halters hsuits (fun e he => (hnew e he).test) id fun hp =>
    .of_current halters (h.current_eq ▸ hp)⟩

end

/-- Nothing is added. -/
theorem Opened.still (h : Opened a left h? W p K F st)
    (hwork : Adding (fun _ => False) (· ∈ ([] : List NodeId)) work)
    (hrun : work st = .ok (r, st')) :
    Opened a left h? W p K F st' ∧ st'.graph.outline st'.current = st.graph.outline st.current := by
  obtain ⟨new, hnew, halters⟩ := hwork st r st' h.waits.current_lt hrun
  obtain rfl := eq_nil_iff_forall_not_mem.mpr hnew
  rw [append_nil] at halters
  have hlabels := h
  have hplace : st'.place = p := by
    rw [← h.place, Building.place, Building.place, halters.outline_current, halters.current]
  have hopened := hlabels.alter halters (nil_subset _) (append_nil _).symm h.waits.current_open
    h.waits.current_suits (.refl _) (fun h : false = true => nomatch h) (fun _ => ?_)
    fun _ => trivial
  · exact ⟨hplace ▸ hopened.mono (⟨·, trivial⟩) (·.1), halters.outline_current⟩
  · refine .of_eq fun b => congrArg _ ?_
    by_cases hb : b = st.current
    · exact hb ▸ halters.here
    · exact halters.others b hb

theorem Opened.emit (h : Opened a left h? W p K F st) (hrun : emit e st = .ok ((), st'))
    (htest : e.testNode? = none) (hthrows : e.throws? = none)
    (hnoted : e.calls → h?.isSome → Noted (st.graph.outline st.current).events) :
    ∃ k, Opened a left h? W st'.place (K ∧ k)
      (F ∧ a.Performs h? false e.step?.toList k p st'.place) st' := by
  have hlabels := h
  have halters := alters_emit (N := (· ∈ ([] : List NodeId))) h.waits.current_lt hrun
  have hsteps : [e].filterMap step? = e.step?.toList := by cases hs : e.step? <;> simp [hs]
  exact ⟨_, hsteps ▸ hlabels.append halters
    (h.waits.current_suits.concat h.waits.current_open.tests hthrows hnoted _ _)
    (by simpa using htest) id fun hp => .of_current halters (h.current_eq ▸ hp)⟩

/-- Steps in the current block one after the other. -/
theorem Opened.merge {k' : Prop} {q r : Place} {calls' : Bool} {steps steps' : List Step}
    (h : Opened a left h? W r ((K ∧ k) ∧ k') ((F ∧ a.Performs h? calls steps k p q) ∧ a.Performs h?
      calls' steps' k' q r) st) : Opened a left h? W r (K ∧ k ∧ k')
      (F ∧ a.Performs h? (calls || calls') (steps ++ steps') (k ∧ k') p r) st :=
  h.gather .trans

/-- What may throw is noted. -/
theorem Opened.mayThrow (h : Opened a left h? W p K F st)
    (hrun : mayThrow node st = .ok ((), st')) :
    (∃ k, Opened a left h? W st'.place (K ∧ k) (F ∧ a.Performs h? true [] k p st'.place) st') ∧
      (h?.isSome → Noted (st'.graph.outline st'.current).events) := by
  refine ⟨?_, mayThrow_noted h.waits hrun⟩
  rcases mayThrow_cases (N := (· ∈ ([] : List NodeId))) h.waits.current_lt
    (h.waits.handler _ mem_cons_self) hrun with ⟨rfl, rfl⟩ | ⟨handler, rfl, halters⟩
  · refine ⟨True, h.place.symm ▸ h.mono (·.1) fun hF => ⟨hF, rfl, (append_nil _).symm, ?_, ?_⟩⟩
    · simp
    · exact fun _ => trivial
  · have hlabels := h
    have hopen := h.waits.current_open
    have hsuits := h.waits.current_suits
    refine ⟨_, hlabels.alter halters (by simp [successors]) rfl ⟨hopen.next, hopen.taken, ?_⟩
      (hsuits.note rfl hopen.tests node) ⟨prefix_append _ _, fun b hb => ?_⟩ (fun _ => rfl) id
      fun hp => .of_current halters (h.current_eq ▸ hp)⟩
    · exact forall_mem_append.mpr ⟨hopen.tests, by simp [testNode?]⟩
    · refine (mem_append.mp hb).elim (mem_append_left _) fun hb => mem_append_right _ ?_
      exact Option.mem_toList.mpr (hsuits.exception b (Option.mem_toList.mp hb))

end

/-! ### Edges -/

/-- From a place control goes to another block. -/
structure Account.Goes (a : Account) (p : Place) (c : BlockId) : Prop where
  reaches : p.1 ∈ a.graph.order → c ∈ a.graph.order
  ends : a.exact → a.graph.Ends p none (some c) none

/-- From a place on a condition is decided, and control goes to one of two blocks, or to the first
one unless `both` may be chosen. -/
structure Account.Decided (a : Account) (h? : Option BlockId) (runs : Runs Bool)
    (calls both : Bool) (taken next : BlockId) (k : Prop) (p : Place) : Prop where
  splits : a.exact → Splits (a.graph.rest p) runs (a.graph.ways taken next)
  taken : p.1 ∈ a.graph.order → taken ∈ a.graph.order
  next : both → p.1 ∈ a.graph.order → next ∈ a.graph.order
  thrown : calls → p.1 ∈ a.graph.order → ∀ b, h? = some b → b ∈ a.graph.order
  fills : p.1 ∈ a.graph.order → k

section

variable {a : Account} {h? : Option BlockId} {k k' : Prop} {p q : Place} {calls calls' both : Bool}
  {runs : Runs Bool} {taken next : BlockId}

theorem Account.Goes.rest_eq (h : a.Goes p next) (hexact : a.exact) :
    a.graph.rest p = (a.graph.rest (next, 0)).delayed := (h.ends hexact).rest_eq_delayed

/-- Nothing is seen between the places. -/
theorem Account.Performs.rest_eq (h : a.Performs h? calls [] k p q) :
    a.graph.rest p = a.graph.rest q := by
  have hseen := h.seen
  rw [append_nil] at hseen
  unfold Graph.rest
  rw [h.block, hseen]

theorem Account.Performs.decided (h : a.Performs h? calls [] k p q)
    (h' : a.Decided h? runs calls' both taken next k' q) :
    a.Decided h? runs (calls || calls') both taken next (k ∧ k') p where
  splits hexact := h.rest_eq ▸ h'.splits hexact
  taken hp := h'.taken (h.block ▸ hp)
  next hboth hp := h'.next hboth (h.block ▸ hp)
  thrown hcalls hp :=
    (Bool.or_eq_true_iff.mp hcalls).elim (h.thrown · hp) (h'.thrown · (h.block ▸ hp))
  fills hp := ⟨h.fills hp, h'.fills (h.block ▸ hp)⟩

end

section

open Build

variable {a : Account} {left : List NodeId} {W U : Waiting} {K F : Prop} {st st' : Building}
  {h? : Option BlockId} {p : Place} {b target taken next : BlockId} {node : NodeId}
  {around : Surroundings} {o : Outline} {test? : Option NodeId} {condition : Condition}

theorem FlowBlock.testNode?_eq (b : FlowBlock) :
    b.testNode? = b.events.getLast?.bind Event.testNode? := by
  unfold testNode?
  cases b.events.getLast? with
  | none => rfl
  | some e => cases e <;> rfl

theorem Outline.IsOpen.getLast? (h : o.IsOpen) : o.events.getLast?.bind testNode? = none := by
  cases hlast : o.events.getLast? with
  | none => rfl
  | some e => exact h.tests e (mem_of_getLast? hlast)

section

variable (h : Opened a left h? W p K F st)

include h

/-- The current block is left for good. -/
theorem Opened.ends (hexact : a.exact) (hgrows : st.graph.Grows a.graph)
    (ho : a.graph.outline st.current = o)
    (hsteps : o.events.filterMap Event.step? = (st.graph.outline st.current).events.filterMap
      Event.step?) (htest : o.events.getLast?.bind Event.testNode? = test?) :
    a.graph.Ends p test? o.next? o.taken? := by
  subst ho
  obtain rfl := h.place
  refine ⟨fun heq => (h.exit hexact).2 ?_, hgrows.seen_place.trans hsteps.symm,
    (FlowBlock.testNode?_eq _).trans htest, rfl, rfl⟩
  rw [← heq]
  exact mem_cons_self

theorem Opened.goto (hrun : goto target st = .ok ((), st')) :
    Closed a left W K (F ∧ a.Goes p target) st' := by
  have hopen := h.waits.current_open
  have hsuits := h.waits.current_suits
  have halters := (goto_cases (N := (· ∈ ([] : List NodeId))) h.waits.current_lt hrun).resolve_left
    fun hleads => hleads.1 ⟨hopen.next, hopen.taken⟩
  have hwaits := halters.waits h.waits ⟨hsuits.tests, hsuits.exception, hsuits.throws,
    hsuits.guarded⟩
  have hsteps : st.Steps ((st.current, h?) :: W) W st' := by
    refine halters.steps hwaits ⟨prefix_refl _, fun b hb => ?_⟩ (by simp [successors])
      (subset_cons_self _ _)
    simp only [successors, hopen.next, toList_none, append_nil, mem_append] at hb ⊢
    exact hb.imp_left .inl
  refine { h.toTrack.step_still hsteps halters.noting (fun b => ?_) fun hsees => ⟨?_, ?_⟩ with
    fresh := h.fresh_of_alters halters }
  · by_cases hb : b = st.current
    · rw [hb, halters.here]
    · rw [halters.others b hb]
  · refine fun hp => hsees.grows.reached hp ?_
    rw [← h.current_eq, halters.here]
    simp [successors]
  · intro hexact
    have hfinal := hsees.final hexact st.current (halters.size ▸ h.waits.current_lt)
      (nodup_cons.mp h.waits.nodup).1
    rw [halters.here] at hfinal
    have hends := h.ends hexact (hsteps.sees hsees).grows hfinal rfl hopen.getLast?
    exact ⟨hends.ne_exit, hends.seen, hends.test, hends.next, hends.taken.trans hopen.taken⟩

/-- The current block ends with a condition, whose calls have been noted. -/
theorem Opened.branch (hrun : branch node condition taken next st = .ok ((), st'))
    (hnoted : condition.calls → h?.isSome → Noted (st.graph.outline st.current).events) :
    ∃ k, Closed a left W (K ∧ k) (F ∧ a.Decided h? (Runs.test node) false true taken next k p)
      st' := by
  have hopen := h.waits.current_open
  have halters := alters_branch (N := (· ∈ ([] : List NodeId))) h.waits.current_lt hrun
  have hsuits := h.waits.current_suits.concat (e := .test node condition) hopen.tests rfl hnoted
  have hsteps : st.Steps ((st.current, h?) :: W) W st' := by
    refine halters.steps (halters.waits h.waits (hsuits _ _)) ⟨prefix_append _ _, fun b hb => ?_⟩
      (by simp [successors]) (subset_cons_self _ _)
    simp only [successors, hopen.next, hopen.taken] at hb
    exact mem_append_right _ hb
  have hlabels : Opened a ([] ++ left) h? W p K F st := h
  refine ⟨_, { hlabels.toTrack.step hsteps halters.noting id fun hsees => ?_ with
    fresh := h.fresh_of_alters halters }⟩
  have hreached {c : BlockId} (hc : c ∈ [taken, next]) (hp : p.1 ∈ a.graph.order) :
      c ∈ a.graph.order := by
    refine hsees.grows.reached hp ?_
    rw [← h.current_eq, halters.here]
    exact mem_append_left _ hc
  refine ⟨fun hexact => ?_, hreached mem_cons_self, fun _ => hreached (by simp), by simp,
    fun hp => .of_current halters (h.current_eq ▸ hp)⟩
  have hfinal := hsees.final hexact st.current (halters.size ▸ h.waits.current_lt)
    (nodup_cons.mp h.waits.nodup).1
  rw [halters.here] at hfinal
  have hends : a.graph.Ends p (some node) (some next) (some taken) :=
    h.ends hexact (hsteps.sees hsees).grows hfinal (by simp [step?]) (by simp [testNode?])
  exact hends.splits_test

end

/-! ### Blocks -/

theorem Track.newBlock (h : Track a left W K F st) (hrun : newBlock around st = .ok (b, st')) :
    Track a left ((b, around.handler?) :: W) K F st' ∧ st'.current = st.current := by
  have houtline := newBlock_outline hrun
  obtain ⟨hwaits, hcurrent⟩ := newBlock_waits h.waits hrun
  have hsteps : st.Steps W ((b, around.handler?) :: W) st' := by
    have hblock := newBlock_block hrun
    cases hrun
    exact ⟨hwaits, by simp [Building.size], forall_mem_cons.mpr ⟨.inr (Nat.le_refl _),
      fun _ => .inl⟩, fun c _ => houtline c, .of_eq houtline, fun c _ => hblock c ▸ .inl⟩
  have hnoting : st.Noting (· ∈ ([] : List NodeId)) st' := by
    cases hrun
    exact .of_eq rfl
  exact ⟨(h.step_still hsteps hnoting (fun c => congrArg _ (houtline c))
    fun _ => trivial).mono id (·.1), hcurrent⟩

theorem newBlock_fresh (hfresh : ∀ w ∈ W, st.graph.outline w.1 = {})
    (hrun : newBlock around st = .ok (b, st')) :
    ∀ w ∈ (b, around.handler?) :: W, st'.graph.outline w.1 = {} := by
  have houtline := newBlock_outline hrun
  refine forall_mem_cons.mpr ⟨?_, fun w hw => (houtline _).trans (hfresh w hw)⟩
  cases hrun
  exact (houtline _).trans (Graph.outline_of_size_le _ (Nat.le_refl _))

theorem Closed.newBlock (h : Closed a left W K F st) (hrun : newBlock around st = .ok (b, st')) :
    Closed a left ((b, around.handler?) :: W) K F st' :=
  { (h.toTrack.newBlock hrun).1 with fresh := newBlock_fresh h.fresh hrun }

theorem Opened.newBlock (h : Opened a left h? W p K F st)
    (hrun : newBlock around st = .ok (b, st')) :
    Opened a left h? ((b, around.handler?) :: W) p K F st' := by
  obtain ⟨htrack, hcurrent⟩ := h.toTrack.newBlock hrun
  rw [← hcurrent] at htrack
  refine { htrack.perm (.swap _ _ _) with fresh := newBlock_fresh h.fresh hrun, place := ?_ }
  rw [← h.place, Building.place, Building.place, hcurrent, newBlock_outline hrun]

/-- Control goes on in one of the waiting blocks. -/
theorem Closed.enter (U : Waiting) (h : Closed a left (U ++ (b, h?) :: W) K F st)
    (hrun : enter b st = .ok ((), st')) : Opened a left h? (U ++ W) (b, 0) K F st' := by
  have htrack := h.toTrack.perm perm_middle
  have hfresh : ∀ w ∈ (b, h?) :: (U ++ W), st.graph.outline w.1 = {} :=
    fun w hw => h.fresh w (perm_middle.mem_iff.mpr hw)
  have hwaits := htrack.waits
  cases hrun
  exact
    { waits := ⟨hwaits.handlers, hwaits.suits, hwaits.nodup, hwaits.lt, hwaits.isOpen,
        hwaits.handler⟩
      exit := htrack.exit
      backed := htrack.backed
      unseen := htrack.unseen
      fills := htrack.fills
      sees := fun hs => htrack.sees ⟨hs.grows, hs.final⟩
      fresh := (forall_mem_cons.mp hfresh).2
      place := congrArg (fun o : Outline => (b, o.events.length)) (hfresh _ mem_cons_self) }

/-- What follows goes to a block that nothing leads to. -/
theorem Closed.abandon (h : Closed a left W K F st) (hrun : abandon around st = .ok ((), st')) :
    ∃ q, Opened a left around.handler? W q K F st' := by
  obtain ⟨b, st₁, hnew, henter⟩ := bind_inv hrun
  exact ⟨_, (h.newBlock hnew).enter [] henter⟩

/-- Control does not get any further in the current block. -/
theorem Opened.stop (h : Opened a left h? W p K F st) :
    Closed a left W K (F ∧ (a.exact → a.graph.Ends p none none none)) st := by
  have hopen := h.waits.current_open
  refine { h.toTrack.step_still (.drop h.waits) (.of_eq rfl) (fun _ => rfl)
    fun hsees hexact => ?_ with fresh := h.fresh }
  have hfinal := hsees.final hexact st.current h.waits.current_lt (nodup_cons.mp h.waits.nodup).1
  have hends := h.ends hexact hsees.grows hfinal rfl hopen.getLast?
  exact ⟨hends.ne_exit, hends.seen, hends.test, hends.next.trans hopen.next,
    hends.taken.trans hopen.taken⟩

end

end TypeFlow
