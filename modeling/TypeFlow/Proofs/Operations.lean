import TypeFlow.Proofs.Subtyping

/-!
# The form that operations keep

Equality of types, the literal of a type and the payload of a tag mean something only for types in
canonical form: at every level the payloads are in the order of their tags and belong to tags of the
type, no literal stands beside another kind of literal, shapes have fields, and members of an enum
have an enum or a value. Sets of declarations are ascending by their own type.

Every operation on well-formed types gives well-formed types, in every program. The searches for a
common part and for what a test leaves are bounded in the number of their nested steps, so what they
find is well formed within any bound.
-/

namespace TypeFlow

open Ty

/-- A payload that a well-formed type may hold. -/
abbrev Payload.WellFormed (p : Payload Ty) : Prop := Payload.Formed True p

/-- Operations on well-formed types give well-formed types. -/
theorem operations_wellFormed (source : Source) {a b c : Ty} {p : Payload Ty} (ha : a.WellFormed)
    (hb : b.WellFormed) (hc : c.WellFormed) (hp : p.WellFormed) :
    let table := source.program.table
    -- Tags and payloads.
    (∀ tags, (a.withTags tags).WellFormed ∧ (a.without tags).WellFormed ∧
        (a.restrictedTo tags).WellFormed ∧ (a.clearPayload tags).WellFormed) ∧
      (a.setPayload p).WellFormed ∧ a.enumToValue.WellFormed ∧ (a.expand table).WellFormed ∧
    -- The lattice.
    (a.unionInto b).1.WellFormed ∧ (∀ depth, (a.widen depth).WellFormed) ∧
      (a.meet table b).WellFormed ∧ (∀ n m, meet? table n a b = some m → m.WellFormed) ∧
    -- Tests.
    (narrowEq table a b).WellFormed ∧ (∀ n r, narrowEq? table n a b = some r → r.WellFormed) ∧
      (narrowNe table a b).WellFormed ∧
      (∀ truth, (narrowTruth table truth a).WellFormed ∧
        ∀ n r, narrowTruth? table n truth a = some r → r.WellFormed) ∧
    -- Operators and containers.
    (∀ op, (binary table op a b).WellFormed) ∧ (∀ op, (unary table op a).WellFormed) ∧
      (indexed table a b).ty.WellFormed ∧ (storeElement table a b c).WellFormed := by
  intro table
  have htable := source.program_table_wellFormed
  refine ⟨?tags, ha.setPayload hp, ha.enumToValue, ha.expand htable, ?join, ha.widen, ?meet, ?meet?,
    ?equal, ?equal?, ?unequal, ?truth, ?binary, ?unary, ?indexed, ?stored⟩
  case tags =>
    exact fun tags =>
      ⟨ha.withTags tags, ha.without tags, ha.restrictedTo tags, ha.clearPayload tags⟩
  case join =>
    rw [unionInto_eq]
    exact ha.union hb
  case meet => exact .meet htable ha hb
  case meet? => exact fun n m hm => .meet? htable ha hb hm
  case equal => exact .narrowEq htable ha hb
  case equal? => exact fun n r hr => .narrowEq? htable n a b r ha hb hr
  case unequal => exact .narrowNe htable a hb
  case truth =>
    exact fun truth =>
      ⟨.narrowTruth htable truth ha, fun n r hr => .narrowTruth? htable n truth a r ha hr⟩
  case binary => exact fun op => .binary op a b
  case unary => exact fun op => .unary htable op ha
  case indexed => exact .indexed htable ha b
  case stored => exact ha.storeElement hb hc

/-- An array of trees meets an array of zeros, is joined with it, takes a string as an element, and
gets an object with a known field beside it. -/
theorem operations_wellFormed_nestedLists :
    let table := nestedLists.program.table
    let tree := exact (.synonym (.one 1))
    let trees := exact (.elements tree)
    let zeros := exact (.elements (.exact (.number 0)))
    let leaf := exact (.string "leaf")
    let node := Payload.object (.one 0) (some [("left", tree)])
    (trees.WellFormed ∧ zeros.WellFormed ∧ leaf.WellFormed ∧ node.WellFormed) ∧
      (trees.meet table zeros = zeros ∧ (trees.meet table zeros).WellFormed) ∧
      (trees.unionInto zeros).1.WellFormed ∧
      (storeElement table trees zeros leaf = .exact (.elements (tree.union leaf)) ∧
        (storeElement table trees zeros leaf).WellFormed) ∧
      ((trees.setPayload node).data = [.elements tree, node] ∧
        (trees.setPayload node).WellFormed) := by
  intro table tree trees zeros leaf node
  have htrees : trees.WellFormed := by decide +kernel
  have hzeros : zeros.WellFormed := by decide +kernel
  have hleaf : leaf.WellFormed := .literal
  have hnode : node.WellFormed :=
    Formed.payload (t := exact node) (by decide +kernel) List.mem_cons_self
  obtain ⟨-, hset, -, -, hjoin, -, hmeet, -, -, -, -, -, -, -, -, hstored⟩ :=
    operations_wellFormed nestedLists htrees hzeros hleaf hnode
  exact ⟨⟨htrees, hzeros, hleaf, hnode⟩, ⟨by decide +kernel, hmeet⟩, hjoin,
    ⟨by decide +kernel, hstored⟩, by decide +kernel, hset⟩

end TypeFlow
