import Mathlib.Order.Filter.AtTopBot.Basic
import TypeFlow.Proofs.NameLookup
import TypeFlow.Proofs.UnionChains

/-!
# A pass names finitely many declarations

All data of a pass is finite, so every number above some bound is above the numbers of all
declarations that the pass can ever meet.
-/

namespace TypeFlow

open Array Filter

section

variable {α : Type} {P : α → ℕ → Prop}

theorem eventually_forall_mem {xs : List α} (h : ∀ x ∈ xs, ∀ᶠ n in atTop, P x n) :
    ∀ᶠ n in atTop, ∀ x ∈ xs, P x n :=
  (eventually_all_finite xs.finite_toSet).mpr h

theorem eventually_forall_lt (ds : List DeclId) : ∀ᶠ n in atTop, ∀ d ∈ ds, d < n :=
  eventually_forall_mem fun d _ => eventually_gt_atTop d

theorem eventually_forall_getD {xs : Array α} {fallback : α} (hfallback : ∀ n, P fallback n)
    (h : ∀ x ∈ xs, ∀ᶠ n in atTop, P x n) : ∀ᶠ n in atTop, ∀ i, P (xs.getD i fallback) n := by
  have hmem := eventually_forall_mem fun x hx => h x (mem_toList_iff.mp hx)
  filter_upwards [hmem] with n hn i
  by_cases hi : i < xs.size
  · rw [getD_eq_getD_getElem?, getElem?_eq_getElem hi]
    exact hn _ (mem_toList_iff.mpr (getElem_mem hi))
  · rw [getD_eq_getD_getElem?, getElem?_eq_none (by omega)]
    exact hfallback n

theorem eventually_forall_get? (m : NumMap α) (h : ∀ x, ∀ᶠ n in atTop, P x n) :
    ∀ᶠ n in atTop, ∀ k x, m.get? k = some x → P x n := by
  filter_upwards [eventually_forall_mem fun e (_ : e ∈ m.entries) => h e.2] with n hn k x hx
  exact hn (k, x) (NumMap.mem_entries.mpr hx)

end

theorem Ty.eventually_bounded (t : Ty) : ∀ᶠ n in atTop, t.Bounded n := by
  induction t using Ty.levelInduction with
  | step t ih =>
    have hdecls : ∀ᶠ n in atTop, ∀ p ∈ t.data, ∀ d ∈ (p.decls?.elim [] DeclSet.ids), d < n :=
      eventually_forall_mem fun p _ => eventually_forall_lt _
    have hnested : ∀ᶠ n in atTop, ∀ p ∈ t.data, ∀ c ∈ p.components, c.Bounded n :=
      eventually_forall_mem fun p hp => eventually_forall_mem (ih p hp)
    filter_upwards [hdecls, hnested] with n hdecls hnested
    refine .intro False.elim False.elim (fun p hp ds hds d hd => hdecls p hp d ?_) hnested
    rwa [hds]

theorem Declarations.eventually_scopeMember_lt (ds : Declarations) :
    ∀ᶠ n in atTop, ∀ scope name, ∀ d ∈ ds.scopeMember scope name, d < n := by
  have hown : ∀ᶠ n in atTop, ∀ s, ∀ e ∈ (ds.decl s).members, ∀ d ∈ e.2, d < n :=
    eventually_forall_getD (P := fun (decl : Decl) n => ∀ e ∈ decl.members, ∀ d ∈ e.2, d < n)
      (fun _ _ he => absurd he List.not_mem_nil)
      fun decl _ => eventually_forall_mem fun e _ => eventually_forall_lt e.2
  filter_upwards [hown] with n hn scope name d hd
  rcases ds.searchMember_cases name _ [scope] [] with hnone | ⟨s, hs⟩
  · rw [scopeMember, hnone] at hd
    cases hd
  · exact hn s (name, _) (mem_of_lookup hs) d hd

/-- The classes that an event tests for. -/
def Event.classes : Event → List DeclId
  | .test _ (.instanceOf _ _ classes _) => classes
  | _ => []

/-- The declarations that an identity stands for. -/
def Identity.decls : Identity → List DeclId
  | .decl d => [d]
  | .set ds => ds.ids
  | _ => []

/-- Every pass only ever meets declarations below some bound. -/
theorem Pass.eventually_formed (pass : Pass) : ∀ᶠ n in atTop, pass.Formed (.below n) := by
  have hvars := eventually_forall_get? pass.facts.vars Ty.eventually_bounded
  have hreturns := eventually_forall_get? pass.facts.returns Ty.eventually_bounded
  have henums := eventually_forall_get? pass.program.enumValues Ty.eventually_bounded
  have htable : ∀ᶠ n in atTop, ∀ e ∈ pass.program.table.expansions, e.2.Bounded n :=
    eventually_forall_mem fun e _ => e.2.eventually_bounded
  have hlookup : ∀ᶠ n in atTop, ∀ node, ∀ d ∈ pass.program.lookup node, d < n :=
    eventually_forall_getD
      (fun _ _ h => absurd h List.not_mem_nil) fun ds _ => eventually_forall_lt ds
  have hclass : ∀ᶠ n in atTop, ∀ c ∈ (pass.program.enclosingClass? pass.graph.root).toList, c < n :=
    eventually_forall_lt _
  have hidentities : ∀ᶠ n in atTop, ∀ key, ∀ d ∈ (pass.graph.identities.get key).decls, d < n :=
    eventually_forall_getD (P := fun (identity : Identity) n => ∀ d ∈ identity.decls, d < n)
      (fun _ _ h => absurd h List.not_mem_nil) fun identity _ => eventually_forall_lt identity.decls
  have hevents : ∀ᶠ n in atTop, ∀ b, ∀ event ∈ (pass.graph.block b).events,
      ∀ c ∈ event.classes, c < n :=
    eventually_forall_getD
      (P := fun (block : FlowBlock) n => ∀ event ∈ block.events, ∀ c ∈ event.classes, c < n)
      (fun _ _ h => absurd h List.not_mem_nil)
      fun block _ => eventually_forall_mem fun event _ => eventually_forall_lt event.classes
  filter_upwards [hvars, hreturns, henums, htable, hlookup, hclass, hidentities, hevents,
    pass.program.eventually_scopeMember_lt,
    eventually_gt_atTop (pass.program.enclosingScope pass.graph.root)]
    with n hvars hreturns henums htable hlookup hclass hidentities hevents hmembers hscope
  exact
    { context :=
        { vars := hvars
          returns := hreturns
          table := htable
          enumValues := henums
          lookup := hlookup
          members := hmembers
          ownClass := fun c hc => hclass c (Option.mem_toList.mpr hc)
          ownScope := hscope }
      decls := fun key d h => hidentities key d (by simp [h, Identity.decls])
      sets := fun key ds h d hd => hidentities key d (by simpa [h, Identity.decls] using hd)
      tests := fun b _ _ _ _ _ hmem => hevents b _ hmem }

end TypeFlow
