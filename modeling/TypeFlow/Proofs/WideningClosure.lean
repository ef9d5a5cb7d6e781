import TypeFlow.Proofs.Supertypes

/-!
# Widening as a closure

Widening to a depth leaves exactly the types alone that are not nested more deeply. So a second
widening adds nothing, and of two widenings the one to the smaller depth counts.
-/

namespace TypeFlow

namespace Ty

/-- Flattening forgets what a change has made of the components. -/
theorem flattenPayload_map (f : Ty → Ty) (p : Payload Ty) :
    flattenPayload (p.map f) = flattenPayload p := by
  cases p with
  | object _ shape => cases shape <;> rfl
  | enum d v => cases d <;> cases v <;> rfl
  | _ => rfl

/-- Of two widenings the one to the smaller depth counts. -/
theorem widen_widen (d e : Nat) (t : Ty) : (t.widen d).widen e = t.widen (min d e) := by
  induction d generalizing e t with
  | zero => exact widen_eq_self_iff.mpr ((depth_widen_le 0 t).trans e.zero_le)
  | succ d ih =>
    cases e with
    | zero => simp [widen, flattenPayload_map]
    | succ e =>
      have hmap (p : Payload Ty) : (p.map (widen d)).map (widen e) = p.map (widen (min d e)) :=
        Payload.ext_form (by simp) (by simp [ih])
      simp [widen, hmap]

end Ty

/-- Widening is a closure that tells what it does: it keeps the tags of a type, limits its nesting
and enlarges it, in the order of subtyping as well as in that of the union. It tells a change
exactly when it makes one, which is when the type was nested too deeply; a second widening makes
none, and of two depths the smaller one counts. -/
theorem widen_closure (source : Source) {t : Ty} (ht : t.WellFormed) (hfree : t.MethodFree)
    (depth : Nat) :
    let w := t.widen depth
    w.tags = t.tags ∧ w.depth ≤ depth ∧ t.subtype source.program.table w = true ∧ t.union w = w ∧
      (t.widenDrops depth = true ↔ w ≠ t) ∧ (w = t ↔ t.depth ≤ depth) ∧
      w.widen depth = w ∧ w.widenDrops depth = false ∧
      ∀ depth', w.widen depth' = t.widen (min depth depth') := by
  intro w
  have hdepth := Ty.depth_widen_le depth t
  have hagain := Ty.widen_eq_self_iff.mpr hdepth
  have hbelow := Ty.below_widen ht depth
  have hsub := Ty.subtype_of_below source.program_table_wellFormed
    source.program_table_methodFree ht (ht.widen depth) hfree hbelow
  refine ⟨Ty.widen_tags depth t, hdepth, hsub, hbelow, ?_, Ty.widen_eq_self_iff, hagain,
    Ty.widenDrops_eq_false_iff.mpr hagain, fun depth' => Ty.widen_widen depth depth' t⟩
  rw [ne_eq, ← Ty.widenDrops_eq_false_iff, Bool.not_eq_false]

/-- Lists of a type, nested as deeply as given. -/
def nestedArrays (element : Ty) : Nat → Ty
  | 0 => element
  | n + 1 => .array (nestedArrays element n)

/-- Of lists of lists of lists of nodes the innermost ones lose what they hold. -/
theorem widen_closure_nodes :
    let node := .exact (.synonym (.one 3))
    let rows := nestedArrays node 3
    rows.WellFormed ∧ rows.MethodFree ∧ rows.widen 2 = nestedArrays (.ofTags (.single .array)) 2 ∧
      rows.subtype tangled.program.table (rows.widen 2) = true ∧
      rows.union (rows.widen 2) = rows.widen 2 ∧ rows.widenDrops 2 = true ∧
      rows.widenDrops 3 = false ∧ (rows.widen 2).widen 1 = rows.widen 1 := by
  intro node rows
  have hrows : rows.WellFormed := by decide +kernel
  have hfree : rows.MethodFree := by decide +kernel
  obtain ⟨-, -, hsub, hunion, hdrops, -, -, -, hsmaller⟩ := widen_closure tangled hrows hfree 2
  exact ⟨hrows, hfree, by decide, hsub, hunion, hdrops.mpr (by decide), by decide, hsmaller 1⟩

end TypeFlow
