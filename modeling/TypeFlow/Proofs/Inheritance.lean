import Mathlib.Algebra.Order.BigOperators.Group.Finset
import TypeFlow.Proofs.Algebra
import TypeFlow.Proofs.Order

/-!
# Inheritance

A search through superclasses keeps a stack of classes that it has still to visit and a list of
those that it has seen. What it visits is described by a walk that goes to pending numbers from left
to right, depth first. The walk comes to an end, since every class puts its superclasses on the
stack once, and it meets exactly what can be reached, also where classes inherit from each other in
a circle. So being a subclass is reflexive and transitive whatever the hierarchy looks like.
-/

namespace TypeFlow

open List Relation

/-- The stack after some numbers have been put on it has the last one on top. -/
theorem pushAll_eq (stack ds : List Nat) : pushAll stack ds = ds.reverse ++ stack := by
  induction ds generalizing stack with
  | nil => rfl
  | cons d ds ih => simp [pushAll]

/-- Only the classes that a table lists have superclasses. -/
theorem getD_eq_nil {parents : Array (List DeclId)} {c : DeclId}
    (hc : c ∉ Finset.range parents.size) : parents.getD c [] = [] := by
  rw [Array.getD_eq_getD_getElem?, Array.getElem?_eq_none (by simpa using hc)]
  rfl

/-- The steps that a search has left: one for everything on its stack and for every superclass of a
class that has not been seen. -/
def stepsLeft (superclasses : Array (List DeclId)) (stack seen : List DeclId) : Nat :=
  stack.length + ∑ c ∈ unmet (Finset.range superclasses.size) seen, (superclasses.getD c []).length

section

variable {superclasses : Array (List DeclId)} {stack stack' seen : List DeclId} {c : DeclId}

/-- The steps that a search is given count the superclasses of every class. -/
theorem foldl_length (lists : List (List DeclId)) (n : Nat) :
    lists.foldl (fun n parents => n + parents.length) n =
      n + ∑ c ∈ Finset.range lists.length, (lists.getD c []).length := by
  induction lists generalizing n with
  | nil => simp
  | cons parents lists ih =>
    rw [foldl_cons, ih, length_cons, Finset.sum_range_succ']
    simp only [getD_cons_zero, getD_cons_succ]
    omega

/-- A search that begins has as many steps left as it is given. -/
theorem stepsLeft_nil (superclasses : Array (List DeclId)) (c : DeclId) :
    stepsLeft superclasses [c] [] = DeclTable.searchBound superclasses := by
  rw [DeclTable.searchBound, ← Array.foldl_toList, foldl_length]
  simp [stepsLeft, unmet]

/-- Passing by what is on the stack takes a step. -/
theorem stepsLeft_pass :
    stepsLeft superclasses stack seen < stepsLeft superclasses (c :: stack) seen := by
  simp [stepsLeft]

/-- Seeing a class takes a step, since its superclasses count no longer. -/
theorem stepsLeft_see (hc : c ∉ seen)
    (hstack : stack'.length ≤ (superclasses.getD c []).length + stack.length) :
    stepsLeft superclasses stack' (seen ++ [c]) < stepsLeft superclasses (c :: stack) seen := by
  have hunmet : unmet (Finset.range superclasses.size) (seen ++ [c]) =
      (unmet (Finset.range superclasses.size) seen).erase c := by
    ext d
    simp [unmet]
    tauto
  have hsum : (superclasses.getD c []).length +
      ∑ d ∈ (unmet (Finset.range superclasses.size) seen).erase c, (superclasses.getD d []).length =
      ∑ d ∈ unmet (Finset.range superclasses.size) seen, (superclasses.getD d []).length := by
    by_cases hlisted : c ∈ Finset.range superclasses.size
    · have hmem : c ∈ unmet (Finset.range superclasses.size) seen :=
        Finset.mem_filter.mpr ⟨hlisted, hc⟩
      exact Finset.add_sum_erase _ (fun d => (superclasses.getD d []).length) hmem
    · have hgone : c ∉ unmet (Finset.range superclasses.size) seen :=
        fun h => hlisted (Finset.mem_filter.mp h).1
      rw [getD_eq_nil hlisted, Finset.erase_eq_of_notMem hgone]
      exact Nat.zero_add _
  simp only [stepsLeft, hunmet, length_cons]
  omega

end

/-- A walk that has met some numbers goes to the pending ones from left to right, and where it comes
to a new number it goes on to everything next to that before the rest. It meets the numbers of `new`
in their order. -/
inductive DepthFirst (next : Nat → List Nat) : List Nat → List Nat → List Nat → Prop
  | done (met : List Nat) : DepthFirst next met [] []
  | pass {met pending new : List Nat} {d : Nat} (hd : d ∈ met)
      (h : DepthFirst next met pending new) : DepthFirst next met (d :: pending) new
  | meet {met pending new : List Nat} {d : Nat} (hd : d ∉ met)
      (h : DepthFirst next (met ++ [d]) (next d ++ pending) new) :
      DepthFirst next met (d :: pending) (d :: new)

namespace DepthFirst

variable {next : Nat → List Nat} {met pending new new' : List Nat} {c d : Nat}

/-- There is one such walk. -/
theorem unique (h : DepthFirst next met pending new) (h' : DepthFirst next met pending new') :
    new' = new := by
  induction h generalizing new' with
  | done => cases h'; rfl
  | pass hd _ ih =>
    cases h' with
    | pass _ h' => exact ih h'
    | meet hd' _ => exact absurd hd hd'
  | meet hd _ ih =>
    cases h' with
    | pass hd' _ => exact absurd hd' hd
    | meet _ h' => exact congrArg _ (ih h')

/-- A walk through superclasses comes to an end. -/
theorem exists_new {superclasses : Array (List DeclId)}
    (hnext : ∀ c, (next c).length ≤ (superclasses.getD c []).length) (met pending : List Nat) :
    ∃ new, DepthFirst next met pending new := by
  induction hn : stepsLeft superclasses pending met using Nat.strong_induction_on
    generalizing met pending with
  | h n ih =>
    subst hn
    cases pending with
    | nil => exact ⟨[], .done met⟩
    | cons d pending =>
      by_cases hd : d ∈ met
      · obtain ⟨new, h⟩ := ih _ stepsLeft_pass met pending rfl
        exact ⟨new, .pass hd h⟩
      · have hless : stepsLeft superclasses (next d ++ pending) (met ++ [d]) <
            stepsLeft superclasses (d :: pending) met := stepsLeft_see hd (by simpa using hnext d)
        obtain ⟨new, h⟩ := ih _ hless (met ++ [d]) (next d ++ pending) rfl
        exact ⟨d :: new, .meet hd h⟩

/-- A walk meets only what can be reached from the pending numbers. -/
theorem leads (h : DepthFirst next met pending new) (hd : d ∈ new) :
    ∃ c ∈ pending, Leads next c d := by
  induction h with
  | done => cases hd
  | pass _ _ ih =>
    obtain ⟨c, hc, hleads⟩ := ih hd
    exact ⟨c, mem_cons_of_mem _ hc, hleads⟩
  | meet _ _ ih =>
    rcases mem_cons.mp hd with rfl | hd
    · exact ⟨d, mem_cons_self, .refl⟩
    · obtain ⟨c, hc, hleads⟩ := ih hd
      rcases mem_append.mp hc with hc | hc
      · exact ⟨_, mem_cons_self, .head hc hleads⟩
      · exact ⟨c, mem_cons_of_mem _ hc, hleads⟩

/-- What is next to numbers that have been met has been met or is pending. So a walk meets whatever
can be reached. -/
theorem mem_of_leads (h : DepthFirst next met pending new)
    (hclosed : ∀ c ∈ met, ∀ d ∈ next c, d ∈ met ∨ d ∈ pending) (hc : c ∈ met ∨ c ∈ pending)
    (hleads : Leads next c d) : d ∈ met ∨ d ∈ new := by
  induction h with
  | done met =>
    refine .inl ?_
    induction hleads with
    | refl => exact hc.resolve_right not_mem_nil
    | tail _ hstep ih => exact (hclosed _ ih _ hstep).resolve_right not_mem_nil
  | @pass met pending _ b hb _ ih =>
    have hmem {d : Nat} (hd : d ∈ met ∨ d ∈ b :: pending) : d ∈ met ∨ d ∈ pending :=
      hd.elim .inl fun hd => (mem_cons.mp hd).imp_left fun heq : d = b => heq ▸ hb
    exact ih (fun c hc d hd => hmem (hclosed c hc d hd)) (hmem hc)
  | @meet met pending _ b _ _ ih =>
    have hmem {d : Nat} (hd : d ∈ met ∨ d ∈ b :: pending) :
        d ∈ met ++ [b] ∨ d ∈ next b ++ pending := by grind
    have hclosed' :=
      forall_mem_append.mpr ⟨fun c hc d hd => hmem (hclosed c hc d hd),
        forall_mem_singleton.mpr fun d hd => .inr (mem_append_left _ hd)⟩
    have hfound := ih hclosed' (hmem hc)
    grind

/-- A walk from a number meets what the number leads to. -/
theorem mem_iff (h : DepthFirst next [] [c] new) : d ∈ new ↔ Leads next c d := by
  refine ⟨fun hd => ?_, fun hleads => ?_⟩
  · obtain ⟨b, hb, hleads⟩ := h.leads hd
    exact mem_singleton.mp hb ▸ hleads
  · exact (h.mem_of_leads (by simp) (.inr mem_cons_self) hleads).resolve_left not_mem_nil

end DepthFirst

namespace DeclTable

variable {table : DeclTable} {sub sup c d : DeclId} {stack seen new : List DeclId} {n : Nat}

/-- A search for a class looks at the classes that a walk from right to left meets. -/
theorem search_iff (h : DepthFirst (fun c => (table.parents c).reverse) seen stack new)
    (hn : stepsLeft table.superclasses stack seen ≤ n) (hsup : sup ∉ seen) :
    table.search sup n stack seen ↔ sup ∈ new := by
  induction h generalizing n with
  | done => simp [search]
  | @pass seen stack _ c hc _ ih =>
    obtain ⟨i, rfl⟩ := Nat.exists_eq_add_of_lt (stepsLeft_pass.trans_le hn)
    have hne : c ≠ sup := fun heq => hsup (heq ▸ hc)
    simpa [search, hne, hc] using ih (Nat.le_add_right _ i) hsup
  | @meet seen stack new c hc _ ih =>
    have hless : stepsLeft table.superclasses ((table.parents c).reverse ++ stack) (seen ++ [c]) <
        stepsLeft table.superclasses (c :: stack) seen := stepsLeft_see hc (by simp [parents])
    obtain ⟨i, rfl⟩ := Nat.exists_eq_add_of_lt (hless.trans_le hn)
    by_cases heq : c = sup
    · simp [search, heq]
    · have hrest := ih (Nat.le_add_right _ i) (by simp [hsup, Ne.symm heq])
      simp [search, heq, hc, pushAll_eq, hrest, Ne.symm heq]

/-- A class is a subclass of what is reached from it through direct superclasses. -/
theorem isSubclass_iff : table.isSubclass sub sup ↔ Leads table.parents sub sup := by
  have hlength (c : DeclId) :
      (table.parents c).reverse.length ≤ (table.superclasses.getD c []).length := by simp [parents]
  obtain ⟨new, hwalk⟩ := DepthFirst.exists_new hlength [] [sub]
  rw [isSubclass, search_iff hwalk (stepsLeft_nil _ _).le not_mem_nil, hwalk.mem_iff]
  simp only [Leads, mem_reverse]

/-- Every class is a subclass of itself. -/
theorem isSubclass_refl (table : DeclTable) (c : DeclId) : table.isSubclass c c :=
  isSubclass_iff.mpr .refl

/-- A subclass of a subclass is a subclass. -/
theorem isSubclass_trans {e : DeclId} (h : table.isSubclass c d) (h' : table.isSubclass d e) :
    table.isSubclass c e :=
  isSubclass_iff.mpr ((isSubclass_iff.mp h).trans (isSubclass_iff.mp h'))

end DeclTable

end TypeFlow
