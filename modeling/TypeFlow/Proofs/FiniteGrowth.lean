import Mathlib.Data.Finite.Sum
import TypeFlow.Proofs.Bounded
import TypeFlow.Proofs.Descent
import TypeFlow.Proofs.FactGrowth
import TypeFlow.Proofs.Supertypes

/-!
# Facts are enlarged finitely often

Whether a fact grows is decided by a test for subtyping, while the fact itself is a union that is
widened. The two agree on types without payloads for methods: a write that is not reported as
unchanged adds something to its fact, or is the first one. Facts about finitely many declarations
can be enlarged in this way only finitely often.
-/

namespace TypeFlow

open Facts Filter Relation Ty

/-- A type over a bounded number of declarations is enlarged, and changes. -/
def Ty.Enlarged (bound depth : Nat) (new old : Ty) : Prop :=
  ClimbsWithin bound depth old new ∧ new ≠ old

theorem Ty.enlarged_wellFounded (bound depth : Nat) : WellFounded (Enlarged bound depth) := by
  refine wellFounded_iff_isEmpty_descending_chain.mpr ⟨?_⟩
  rintro ⟨f, hf⟩
  obtain ⟨n, hn⟩ := eventuallyConst_atTop_nat.mp (settles bound depth f fun i => (hf i).1)
  exact (hf n).2 (hn n le_rfl)

/-- The declaration that a fact is about. -/
def Subject.decl : Subject → DeclId
  | .var d | .result d => d

instance (bound : Nat) : Finite { s : Subject // s.decl < bound } := by
  let subject : Fin bound ⊕ Fin bound → { s : Subject // s.decl < bound } :=
    Sum.elim (fun d => ⟨.var d, d.2⟩) fun d => ⟨.result d, d.2⟩
  refine Finite.of_surjective subject ?_
  rintro ⟨d | d, hd⟩
  · exact ⟨.inl ⟨d, hd⟩, rfl⟩
  · exact ⟨.inr ⟨d, hd⟩, rfl⟩

namespace Facts

variable {table : DeclTable} {bound depth : Nat} {facts before after : Facts} {s : Subject}
  {t u : Ty} {writes : List (Subject × Ty)}

/-- The facts about declarations below a bound. -/
def profile (bound : Nat) (facts : Facts) (s : { s : Subject // s.decl < bound }) : Option Ty :=
  facts.fact? s

/-- One fact about a declaration below the bound appears or is enlarged, and all others are kept. -/
def Enlarged (bound depth : Nat) (after before : Facts) : Prop :=
  OneLower (Appears (Ty.Enlarged bound depth)) (after.profile bound) (before.profile bound)

theorem enlarged_wellFounded (bound depth : Nat) : WellFounded (Facts.Enlarged bound depth) :=
  InvImage.wf _ (oneLower_wellFounded (appears_wellFounded (Ty.enlarged_wellFounded bound depth)))

/-- The fact about a subject appears, or is strictly larger afterwards. -/
def GrowsAt (before after : Facts) (s : Subject) : Prop :=
  before.fact? s = none ∨ ∃ old new, before.fact? s = some old ∧ after.fact? s = some new ∧
    old.union new = new ∧ new ≠ old

/-! ### One write -/

section

variable (htable : table.WellFormed) (hmethods : ∀ e ∈ table.expansions, e.2.MethodFree)

include htable hmethods

/-- A fact that is not reported as unchanged is enlarged, and changes. -/
theorem grown_ne (hu : u.WellFormed) (ht : t.WellFormed) (hfree : t.MethodFree)
    (h : (grown table depth (some u) t).2 ≠ .unchanged) :
    (grown table depth (some u) t).1 = (u.union t).widen depth ∧
      (grown table depth (some u) t).1 ≠ u := by
  rw [grown_some] at h ⊢
  split at h
  · exact absurd rfl h
  · next hsub =>
    rw [if_neg hsub]
    refine ⟨rfl, fun heq => hsub ?_⟩
    have hsame := union_eq_of_widen heq
    have hbelow : t.Below u := by rw [Below, ht.union_comm hu, hsame]
    exact subtype_of_below htable hmethods ht hu hfree hbelow

section

variable (hfacts : facts.Formed (.full (· < bound))) (ht : t.Formed (.full (· < bound)))

include hfacts ht

theorem grow_growsAt (h : (facts.grow table depth s t).2 ≠ .unchanged) :
    facts.GrowsAt (facts.grow table depth s t).1 s := by
  have hgrowth : (facts.grow table depth s t).2 = (grown table depth (facts.fact? s) t).2 := by
    cases s <;> rfl
  cases hold : facts.fact? s with
  | none => exact .inl hold
  | some u =>
    rw [hgrowth, hold] at h
    have hu := (hfacts s u hold).wellFormed trivial
    have ht' := ht.wellFormed trivial
    have hunion := hu.union ht'
    have hwiden := hunion.widen depth
    obtain ⟨hnew, hne⟩ := grown_ne htable hmethods hu ht' (.of_formed ht trivial) h
    rw [hnew] at hne
    refine .inr ⟨u, (u.union t).widen depth, hold, ?_, ?_, hne⟩
    · rw [fact?_grow, if_pos rfl, hold, hnew]
    · exact (below_union_left hu ht').trans hu hunion hwiden (below_widen hunion depth)

/-- A write changes nothing, and is reported so, or enlarges one fact. -/
theorem grow_cases (hs : s.decl < bound) :
    (facts.grow table depth s t).2 = .unchanged ∧ (facts.grow table depth s t).1 = facts ∨
      Facts.Enlarged bound depth (facts.grow table depth s t).1 facts := by
  by_cases hgrowth : (facts.grow table depth s t).2 = .unchanged
  · exact .inl ⟨hgrowth, eq_of_grow_unchanged hgrowth⟩
  · refine .inr ⟨⟨s, hs⟩, ?_, fun other hne => ?_⟩
    · have hbounded {u : Ty} (hu : u.Formed (.full (· < bound))) : u.Bounded bound :=
        hu.mono False.elim False.elim fun _ => id
      rcases grow_growsAt htable hmethods hfacts ht hgrowth with
        hnone | ⟨old, new, hold, hnew, -, hne⟩
      · simp only [profile, fact?_grow, hnone]
        trivial
      · simp only [profile, hold, hnew]
        refine ⟨⟨hbounded (hfacts s old hold), t, hbounded ht, ?_⟩, hne⟩
        rw [fact?_grow, if_pos rfl, hold, Option.some.injEq, grown_some] at hnew
        split at hnew
        · exact absurd hnew.symm hne
        · exact hnew.symm
    · exact (fact?_grow ..).trans (if_neg fun heq => hne (Subtype.ext heq))

end

end

/-! ### Many writes -/

/-- How the facts grow by a sequence of writes. -/
def growths (table : DeclTable) (depth : Nat) : Facts → List (Subject × Ty) → List (DeclId × Growth)
  | _, [] => []
  | facts, (s, t) :: writes =>
    (s.decl, (facts.grow table depth s t).2) ::
      growths table depth (facts.grow table depth s t).1 writes

theorem growths_append (facts : Facts) (earlier later : List (Subject × Ty)) :
    facts.growths table depth (earlier ++ later) = facts.growths table depth earlier ++
      (facts.growAll table depth earlier).growths table depth later := by
  induction earlier generalizing facts with
  | nil => rfl
  | cons write earlier ih => exact congrArg (_ :: ·) (ih _)

theorem Formed.growAll {strict : Demands} (hfacts : facts.Formed strict)
    (hwrites : ∀ write ∈ writes, write.2.Formed strict) :
    (facts.growAll table depth writes).Formed strict :=
  foldl_invariant (fun _ hacc write hwrite => hacc.grow write.1 (hwrites write hwrite)) hfacts

/-- Writes change nothing, and are reported so, or enlarge facts. -/
theorem growAll_cases (htable : table.WellFormed)
    (hmethods : ∀ e ∈ table.expansions, e.2.MethodFree) (hfacts : facts.Formed (.full (· < bound)))
    (hwrites : ∀ write ∈ writes, write.1.decl < bound ∧ write.2.Formed (.full (· < bound))) :
    (∀ growth ∈ facts.growths table depth writes, growth.2 = .unchanged) ∧
        facts.growAll table depth writes = facts ∨
      TransGen (Facts.Enlarged bound depth) (facts.growAll table depth writes) facts := by
  induction writes generalizing facts with
  | nil => exact .inl ⟨by simp [growths], rfl⟩
  | cons write writes ih =>
    obtain ⟨s, t⟩ := write
    rw [List.forall_mem_cons] at hwrites
    obtain ⟨⟨hs, ht⟩, hwrites⟩ := hwrites
    have hgrown : (facts.grow table depth s t).1.Formed (.full (· < bound)) := hfacts.grow s ht
    have hrest := ih hgrown hwrites
    rcases grow_cases htable hmethods hfacts ht hs with ⟨hgrowth, hsame⟩ | henlarged
    · have hnext : facts.growAll table depth ((s, t) :: writes) =
          facts.growAll table depth writes :=
        congrArg (growAll table depth · writes) hsame
      rw [hnext]
      rw [hsame] at hrest
      refine hrest.imp_left fun ⟨hgrowths, hall⟩ => ⟨?_, hall⟩
      rw [growths, hsame, List.forall_mem_cons]
      exact ⟨hgrowth, hgrowths⟩
    · refine .inr ?_
      rcases hrest with ⟨-, hall⟩ | hall
      · exact .single (hall.symm ▸ henlarged)
      · exact hall.tail henlarged

end Facts

/-! ### What a run publishes -/

namespace Analyzer

/-- What a run of a root writes into facts, in this order. -/
def publications (a : Analyzer) (root : DeclId) (result : Propagation) : List (Subject × Ty) :=
  (result.writes.entries.filter fun w => a.program.isInferred w.1).map (fun w => (.var w.1, w.2)) ++
    if (a.program.decl root).kind = .function && (a.program.decl root).spec?.isNone then
      [(.result root, result.returned)]
    else []

variable {a : Analyzer}

theorem publishWrites_eq (a : Analyzer) (facts : Facts) (writes : List (DeclId × Ty)) :
    a.publishWrites facts writes =
      let written := (writes.filter fun w => a.program.isInferred w.1).map fun w => (.var w.1, w.2)
      (facts.growAll a.program.table a.config.wideningDepth written,
        (facts.growths a.program.table a.config.wideningDepth written).reverse) := by
  unfold publishWrites
  generalize (writes.filter fun w => a.program.isInferred w.1) = kept
  suffices hfold : ∀ (facts : Facts) (grown : List (DeclId × Growth)), kept.foldl (fun acc w =>
        let grown := acc.1.growVar a.program.table a.config.wideningDepth w.1 w.2
        (grown.1, (w.1, grown.2) :: acc.2)) (facts, grown) =
      (facts.growAll a.program.table a.config.wideningDepth (kept.map fun w => (.var w.1, w.2)),
        (facts.growths a.program.table a.config.wideningDepth
          (kept.map fun w => (.var w.1, w.2))).reverse ++ grown) by
    simpa using hfold facts []
  induction kept with
  | nil => exact fun _ _ => rfl
  | cons w kept ih =>
    intro facts grown
    rw [List.foldl_cons, ih]
    simp [growths, growAll, grow, Subject.decl]

/-- Publishing a run is a sequence of writes. -/
theorem publish_eq (a : Analyzer) (facts : Facts) (root : DeclId) (result : Propagation) :
    a.publish facts root result =
      (facts.growAll a.program.table a.config.wideningDepth (a.publications root result),
        facts.growths a.program.table a.config.wideningDepth (a.publications root result)) := by
  unfold publish publications
  rw [publishWrites_eq]
  dsimp only
  split
  · rw [growths_append]
    simp [growths, growAll, grow, Subject.decl]
  · simp

end Analyzer

end TypeFlow
