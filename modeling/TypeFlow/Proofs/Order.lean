import Mathlib.Data.Finset.Card
import Mathlib.Logic.Relation
import TypeFlow.Flow.Propagate

/-!
# The order of blocks

The order in which blocks are replayed holds exactly the blocks to which control may come, each of
them once and the first block first. A block stands before its successors unless they come back to
it. So a block that is ever sent a state has its turn.
-/

namespace TypeFlow

open List Relation

variable {S : Finset Nat}

/-- The numbers of `S` that a walk has not met. -/
def unmet (S : Finset Nat) (met : List Nat) : Finset Nat := S.filter (· ∉ met)

theorem unmet_subset {met met' : List Nat} (h : ∀ b ∈ met, b ∈ met') : unmet S met' ⊆ unmet S met :=
  Finset.monotone_filter_right _ fun b _ hb hmem => hb (h b hmem)

theorem card_unmet_cons_lt {d : Nat} {met : List Nat} (hd : d ∈ S) (hmet : d ∉ met) :
    (unmet S (d :: met)).card < (unmet S met).card := by
  refine Finset.card_lt_card ⟨unmet_subset fun b hb => mem_cons_of_mem d hb, ?_⟩
  intro hsub
  have hmem := hsub (Finset.mem_filter.mpr ⟨hd, hmet⟩)
  exact (Finset.mem_filter.mp hmem).2 mem_cons_self

theorem card_unmet_nil_lt {n : Nat} (hS : S.card ≤ n) :
    (unmet S []).card < n + 1 := Nat.lt_succ_of_le ((Finset.card_filter_le _ _).trans hS)

/-- A number is reached from another one by steps to what is next. -/
abbrev Leads (next : Nat → List Nat) : Nat → Nat → Prop := ReflTransGen fun a b => b ∈ next a

namespace Retreat

variable {next : Nat → List Nat} {r r' r'' : Retreat} {starts starts' new new' : List Nat}

/-- A walk goes on from `r` to `r'` by way of some starts: it meets new numbers, each once, and
leaves them behind. What is next to a new number had been met before, is left behind before it, or
leads back to it. -/
structure Extends (next : Nat → List Nat) (starts : List Nat) (r : Retreat) (new : List Nat)
    (r' : Retreat) : Prop where
  met : ∀ b, b ∈ r'.met ↔ b ∈ new ∨ b ∈ r.met
  left : r'.left = new ++ r.left
  begun : ∀ d ∈ starts, d ∈ r'.met
  nodup : new.Nodup
  fresh : ∀ b ∈ new, b ∉ r.met
  reached : ∀ b ∈ new, ∃ d ∈ starts, Leads next d b
  ordered : ∀ u ∈ new, ∀ v ∈ next u, v ∈ r.met ∨ [u, v] <+ new ∨ v ∈ new ∧ Leads next v u

/-- Nothing is new when all starts have been met. -/
theorem Extends.refl (h : ∀ d ∈ starts, d ∈ r.met) : Extends next starts r [] r :=
  ⟨by simp, rfl, h, .nil, by simp, by simp, by simp⟩

theorem Extends.trans (h : Extends next starts r new r') (h' : Extends next starts' r' new' r'') :
    Extends next (starts ++ starts') r (new' ++ new) r'' where
  met b := by rw [h'.met, h.met, mem_append, or_assoc]
  left := by rw [h'.left, h.left, append_assoc]
  begun := forall_mem_append.mpr ⟨fun d hd => (h'.met d).mpr (.inr (h.begun d hd)), h'.begun⟩
  nodup := h'.nodup.append h.nodup fun b hb hmem => h'.fresh b hb ((h.met b).mpr (.inl hmem))
  fresh := forall_mem_append.mpr
    ⟨fun b hb hmem => h'.fresh b hb ((h.met b).mpr (.inr hmem)), h.fresh⟩
  reached b hb := by
    rcases mem_append.mp hb with hb | hb
    · exact (h'.reached b hb).imp fun d => .imp_left (mem_append_right _)
    · exact (h.reached b hb).imp fun d => .imp_left (mem_append_left _)
  ordered u hu v hv := by
    rcases mem_append.mp hu with hu | hu
    · rcases h'.ordered u hu v hv with hmet | hbefore | hback
      · refine ((h.met v).mp hmet).elim (fun hmem => .inr (.inl ?_)) .inl
        exact (singleton_sublist.mpr hu).append (singleton_sublist.mpr hmem)
      · exact .inr (.inl (hbefore.trans (sublist_append_left ..)))
      · exact .inr (.inr (hback.imp_left (mem_append_left _)))
    · refine (h.ordered u hu v hv).imp_right (.imp (fun hbefore => ?_) ?_)
      · exact hbefore.trans (sublist_append_right ..)
      · exact .imp_left (mem_append_right _)

/-- The step back from a number, after everything next to it has been met. -/
theorem Extends.leave {d : Nat} (hd : d ∉ r.met)
    (h : Extends next (next d) { r with met := d :: r.met } new r') :
    Extends next [d] r (d :: new) { r' with left := d :: r'.left } := by
  have hmet (b : Nat) : b ∈ r'.met ↔ b ∈ d :: new ∨ b ∈ r.met := by
    rw [h.met, mem_cons, mem_cons, or_left_comm, or_assoc]
  have hreached (b : Nat) (hb : b ∈ new) : Leads next d b := by
    obtain ⟨c, hc, hcb⟩ := h.reached b hb
    exact .head hc hcb
  refine ⟨hmet, congrArg (d :: ·) h.left, ?_, nodup_cons.mpr ⟨fun hmem => ?_, h.nodup⟩, ?_, ?_, ?_⟩
  · exact forall_mem_singleton.mpr ((hmet d).mpr (.inl mem_cons_self))
  · exact h.fresh d hmem mem_cons_self
  · exact forall_mem_cons.mpr ⟨hd, fun b hb hmem => h.fresh b hb (mem_cons_of_mem d hmem)⟩
  · exact fun b hb => ⟨d, mem_singleton_self d, (mem_cons.mp hb).elim (· ▸ .refl) (hreached b)⟩
  · refine forall_mem_cons.mpr ⟨fun v hv => ?_, fun u hu v hv => ?_⟩
    · rcases (hmet v).mp (h.begun v hv) with hmem | hmem
      · rcases mem_cons.mp hmem with rfl | hmem
        · exact .inr (.inr ⟨mem_cons_self, .refl⟩)
        · exact .inr (.inl ((singleton_sublist.mpr hmem).cons_cons d))
      · exact .inl hmem
    · rcases h.ordered u hu v hv with hmem | hbefore | hback
      · rcases mem_cons.mp hmem with rfl | hmem
        · exact .inr (.inr ⟨mem_cons_self, hreached u hu⟩)
        · exact .inl hmem
      · exact .inr (.inl (hbefore.cons d))
      · exact .inr (.inr (hback.imp_left (mem_cons_of_mem d)))

/-- A walk that may be deeper than there are numbers left to meet meets everything it can. -/
theorem retreatFrom_extends (hnext : ∀ b, b ∉ S → next b = []) (m : Nat) (r : Retreat) (d : Nat)
    (hm : (unmet S r.met).card < m) : ∃ new, Extends next [d] r new (retreatFrom next m r d) := by
  induction m generalizing r d with
  | zero => exact absurd hm (Nat.not_lt_zero _)
  | succ m ih =>
    -- Walks on from several numbers one after the other.
    have hfold (ds : List Nat) (r : Retreat) (hr : (unmet S r.met).card < m) :
        ∃ new, Extends next ds r new (ds.foldl (retreatFrom next m) r) := by
      induction ds generalizing r with
      | nil => exact ⟨[], .refl (by simp)⟩
      | cons d ds ihds =>
        obtain ⟨new, hstep⟩ := ih r d hr
        have hsub := unmet_subset (S := S) fun b hb => (hstep.met b).mpr (.inr hb)
        obtain ⟨new', hrest⟩ := ihds _ ((Finset.card_le_card hsub).trans_lt hr)
        exact ⟨_, hstep.trans hrest⟩
    by_cases hmet : d ∈ r.met
    · exact ⟨[], by simpa [retreatFrom, hmet] using .refl (by simpa using hmet)⟩
    · let opened : Retreat := { r with met := d :: r.met }
      obtain ⟨new, hstep⟩ : ∃ new, Extends next (next d) opened new
          ((next d).foldl (retreatFrom next m) opened) := by
        by_cases hd : d ∈ S
        · have hless : (unmet S opened.met).card < (unmet S r.met).card :=
            card_unmet_cons_lt hd hmet
          exact hfold (next d) opened (by omega)
        · rw [hnext d hd]
          exact ⟨[], .refl (by simp)⟩
      exact ⟨d :: new, by simpa [retreatFrom, hmet] using hstep.leave hmet⟩

end Retreat

section

variable {next : Nat → List Nat} {n d : Nat}

/-- A reverse postorder starts with its start and leaves it once and for all. -/
theorem reversePostorder_eq_cons (next : Nat → List Nat) (n d : Nat) :
    ∃ rest, reversePostorder next n d = d :: rest := by
  simp [reversePostorder, retreatFrom]

variable (hnext : ∀ b, b ∉ S → next b = []) (hS : S.card ≤ n)

include hnext hS

theorem retreatFrom_extends_nil : Retreat.Extends next [d] {} (reversePostorder next n d)
    (retreatFrom next (n + 1) {} d) := by
  obtain ⟨new, h⟩ := Retreat.retreatFrom_extends hnext (n + 1) {} d (card_unmet_nil_lt hS)
  rwa [reversePostorder, h.left, append_nil]

/-- The reverse postorder holds what its start leads to. -/
theorem mem_reversePostorder_iff {b : Nat} : b ∈ reversePostorder next n d ↔ Leads next d b := by
  have h := retreatFrom_extends_nil (d := d) hnext hS
  refine ⟨fun hb => ?_, fun hb => ?_⟩
  · obtain ⟨e, he, hleads⟩ := h.reached b hb
    exact mem_singleton.mp he ▸ hleads
  · induction hb with
    | refl => exact ((h.met d).mp (h.begun d (mem_singleton_self d))).resolve_right not_mem_nil
    | @tail u v _ hv hu =>
      rcases h.ordered u hu v hv with hmem | hbefore | hback
      · cases hmem
      · exact hbefore.subset (by simp)
      · exact hback.1

end

namespace Graph

variable (g : Graph)

/-- Control may go from one block to another. -/
abbrev Comes : BlockId → BlockId → Prop := Leads fun b => (g.block b).successors

theorem successors_of_size_le {b : BlockId} (hb : b ∉ Finset.range g.blocks.size) :
    (g.block b).successors = [] := by
  rw [block, Array.getD_eq_getD_getElem?, Array.getElem?_eq_none (by simpa using hb)]
  rfl

theorem mem_order_iff {b : BlockId} : b ∈ g.order ↔ g.Comes entry b :=
  mem_reversePostorder_iff (fun _ => g.successors_of_size_le) (Finset.card_range _).le

theorem entry_mem_order : entry ∈ g.order := g.mem_order_iff.mpr .refl

variable {g}

theorem successor_mem_order {b c : BlockId} (hb : b ∈ g.order)
    (hc : c ∈ (g.block b).successors) : c ∈ g.order :=
  g.mem_order_iff.mpr ((g.mem_order_iff.mp hb).tail hc)

end Graph

/-- States are sent to successors only. -/
theorem Pass.replayEvents_targets (pass : Pass) (b : FlowBlock) (events : List Event)
    (state : TypeState) (r : Replay) :
    ∀ edge ∈ ((pass.replayEvents b state events).run r).1, edge.1 ∈ b.successors := by
  have hedge (target? : Option BlockId) (state? : Option TypeState)
      (h : target?.toList ⊆ b.successors) :
      ∀ e ∈ edge target? state?, e.1 ∈ b.successors := by
    cases target? <;> cases state? <;> simp_all [edge]
  have htaken : b.taken?.toList ⊆ b.successors := by simp [FlowBlock.successors]
  have hfalls : b.next?.toList ⊆ b.successors := by simp [FlowBlock.successors]
  have hthrown : b.exception?.toList ⊆ b.successors := by simp [FlowBlock.successors]
  induction events generalizing state r with
  | nil => exact hedge _ _ hfalls
  | cons event events ih =>
    cases event with
    | read | write | run | forget => exact ih _ _
    | mayThrow => exact forall_mem_append.mpr ⟨hedge _ _ hthrown, ih _ _⟩
    | test => exact forall_mem_append.mpr ⟨hedge _ _ htaken, hedge _ _ hfalls⟩

/-- The order of a graph starts with the first block and lists exactly the blocks to which control
may come, each of them once. A block stands before every successor that does not come back to it. So
a block of the order sends states to blocks of the order only, whatever it is replayed from. -/
theorem Graph.order_reverse_postorder (g : Graph) :
    (∃ rest, g.order = entry :: rest) ∧ g.order.Nodup ∧ (∀ b, b ∈ g.order ↔ g.Comes entry b) ∧
    (∀ u ∈ g.order, ∀ v ∈ (g.block u).successors, ¬g.Comes v u → [u, v] <+ g.order) ∧
    ∀ pass : Pass, pass.graph = g → ∀ b ∈ g.order, ∀ state r,
      ∀ edge ∈ ((pass.replay b state).run r).1, edge.1 ∈ g.order := by
  have h := retreatFrom_extends_nil (d := entry) (fun _ => g.successors_of_size_le)
    (Finset.card_range g.blocks.size).le
  refine ⟨reversePostorder_eq_cons .., h.nodup, fun b => g.mem_order_iff, fun u hu v hv hback => ?_,
    ?_⟩
  · rcases h.ordered u hu v hv with hmem | hbefore | ⟨-, hreturn⟩
    · cases hmem
    · exact hbefore
    · exact absurd hreturn hback
  · rintro pass rfl b hb state r edge hedge
    exact successor_mem_order hb (pass.replayEvents_targets _ _ state r edge hedge)

end TypeFlow
