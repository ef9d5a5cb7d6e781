import Mathlib.Logic.Basic

/-!
# Computations that only add to a state

The evaluator writes to its state and hardly ever reads it: what a step gives does not depend on the
state, and its effect is a list of entries that are added one by one. `Traced` says this of a
computation, together with what holds of its result and of its entries. It also compares the
computation with a second one, which does the same as long as the entries mean the same to both.
-/

namespace TypeFlow

open List

variable {σ ε α β γ : Type}

/-- `m` gives one result, which satisfies `Q`, and adds one list of sound entries, whatever the
state is. If the entries mean the same to `m'`, it gives the same result and adds the same entries.
-/
def Traced (add : σ → ε → σ) (sound same : ε → Prop) (Q : α → Prop) (m m' : StateM σ α) : Prop :=
  ∃ (a : α) (log : List ε), Q a ∧ (∀ e ∈ log, sound e) ∧ (∀ s, m.run s = (a, log.foldl add s)) ∧
    ((∀ e ∈ log, same e) → ∀ s, m'.run s = (a, log.foldl add s))

namespace Traced

variable {add : σ → ε → σ} {sound same : ε → Prop} {Q : α → Prop} {R : β → Prop} {m m' : StateM σ α}

/-- A result without effect. -/
theorem pure {a : α} (ha : Q a) : Traced add sound same Q (Pure.pure a) (Pure.pure a) :=
  ⟨a, [], ha, by simp, fun _ => rfl, fun _ _ => rfl⟩

/-- One entry is added. -/
theorem entry {e : ε} (he : sound e) :
    Traced add sound same (fun _ : Unit => True) (modify fun s => add s e)
      (modify fun s => add s e) :=
  ⟨(), [e], trivial, by simpa using he, fun _ => rfl, fun _ _ => rfl⟩

/-- One computation after another. -/
theorem bind {f f' : α → StateM σ β} (hm : Traced add sound same Q m m')
    (hf : ∀ a, Q a → Traced add sound same R (f a) (f' a)) :
    Traced add sound same R (m >>= f) (m' >>= f') := by
  obtain ⟨a, log, ha, hlog, hrun, hrun'⟩ := hm
  obtain ⟨b, log', hb, hlog', hnext, hnext'⟩ := hf a ha
  refine ⟨b, log ++ log', hb, forall_mem_append.mpr ⟨hlog, hlog'⟩, ?_, ?_⟩
  · intro s
    rw [StateT.run_bind, hrun, foldl_append]
    exact hnext _
  · intro hsame s
    rw [forall_mem_append] at hsame
    rw [StateT.run_bind, hrun' hsame.1, foldl_append]
    exact hnext' hsame.2 _

theorem mono {Q' : α → Prop} (hm : Traced add sound same Q m m') (hQ : ∀ a, Q a → Q' a) :
    Traced add sound same Q' m m' := by
  obtain ⟨a, log, ha, rest⟩ := hm
  exact ⟨a, log, hQ a ha, rest⟩

/-- A choice that both computations make in the same way. -/
theorem choice {c : Prop} {hc hc' : Decidable c} {n n' : StateM σ α}
    (hm : c → Traced add sound same Q m m') (hn : ¬c → Traced add sound same Q n n') :
    Traced add sound same Q (@ite _ c hc m n) (@ite _ c hc' m' n') := by
  by_cases h : c
  · rw [if_pos h, if_pos h]
    exact hm h
  · rw [if_neg h, if_neg h]
    exact hn h

/-- A fold whose steps are traced. -/
theorem foldlM {f f' : β → γ → StateM σ β} {xs : List γ}
    (hf : ∀ b, R b → ∀ x ∈ xs, Traced add sound same R (f b x) (f' b x)) {b : β} (hb : R b) :
    Traced add sound same R (xs.foldlM f b) (xs.foldlM f' b) := by
  induction xs generalizing b with
  | nil => exact .pure hb
  | cons x xs ih =>
    refine (hf b hb x mem_cons_self).bind fun c hc => ih ?_ hc
    exact fun c hc y hy => hf c hc y (mem_cons_of_mem x hy)

/-- Traced steps one after another. -/
theorem forM {f f' : γ → StateM σ PUnit} {xs : List γ}
    (hf : ∀ x ∈ xs, Traced add sound same (fun _ => True) (f x) (f' x)) :
    Traced add sound same (fun _ => True) (xs.forM f) (xs.forM f') := by
  induction xs with
  | nil => exact .pure trivial
  | cons x xs ih =>
    refine (hf x mem_cons_self).bind fun _ _ => ih ?_
    exact fun y hy => hf y (mem_cons_of_mem x hy)

end Traced

end TypeFlow
