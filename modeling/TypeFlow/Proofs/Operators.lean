import TypeFlow.Builtin.Table
import TypeFlow.Eval.Container
import TypeFlow.Proofs.Algebra

/-!
# Operators keep types formed

The results of operators, of element access and of modelled library functions are formed when their
operands are.
-/

namespace TypeFlow

open List Option Payload

variable {strict : Demands} {table : DeclTable}

namespace Ty

variable {l r t : Ty} {p q : Payload Ty} {data : List (Payload Ty)}

/-- A payload without components and declarations is formed on its own. -/
theorem Formed.literal (hproper : p.Proper := by trivial) (hdecls : p.decls? = none := by rfl)
    (hcomponents : p.components = [] := by rfl) : (Ty.exact p).Formed strict :=
  Formed.exact ⟨fun _ => hproper, fun _ => tag_ne_method_of_components hcomponents,
    by simp [hdecls], by simp [hcomponents]⟩

@[simp] theorem Formed.bool (b : Bool) : (bool b).Formed strict := .ofTags _

@[simp] theorem Formed.ofVerdict (v : Option Bool) : (ofVerdict v).Formed strict := by
  cases v <;> exact .ofTags _

theorem Formed.toTy (x : Num) : x.toTy.Formed strict := by
  cases x <;> exact .literal

/-- An option that holds a formed type, if any. -/
def MaybeFormed (strict : Demands) (t? : Option Ty) : Prop := ∀ t, t? = some t → t.Formed strict

@[simp] theorem maybeFormed_none : MaybeFormed strict none := by simp [MaybeFormed]

@[simp] theorem maybeFormed_some : MaybeFormed strict (some t) ↔ t.Formed strict := by
  simp [MaybeFormed]

/-! ### Operators -/

variable (op : BinaryOp)

theorem numericPair_formed (lt : Tag) (l : Ty) (rt : Tag) (r : Ty) :
    MaybeFormed strict (numericPair op lt l rt r) := by
  simp only [numericPair]
  split
  · simp
  · split
    · simp
    · split
      · simpa using .toTy _
      · simp

theorem charPair_formed (lt : Tag) (l : Ty) (rt : Tag) (r : Ty) :
    MaybeFormed strict (charPair op lt l rt r) := by
  simp only [charPair]
  split
  · split
    · exact maybeFormed_some.mpr .literal
    · simp
  iterate 3
    split
    · apply maybeFormed_some.mpr
      split
      · exact iteInduction (fun _ => .literal) fun _ => .ofTags _
      · exact .ofTags _
    · simp
  · simp

theorem concat_formed (l r : Ty) : (concat l r).Formed strict := by
  unfold concat
  split
  · exact .literal
  · exact .ofTags _

theorem binaryPair_formed (lt : Tag) (l : Ty) (rt : Tag) (r : Ty) :
    MaybeFormed strict (binaryPair op lt l rt r) := by
  unfold binaryPair
  split
  · exact maybeFormed_some.mpr (.ofTags _)
  split
  · exact maybeFormed_some.mpr (concat_formed l r)
  split
  · exact numericPair_formed op lt l rt r
  split
  · exact charPair_formed op lt l rt r
  split
  · unfold booleanPair
    split <;> simp
  · simp

/-- The result of an operator with two operands is formed. -/
theorem Formed.binary (l r : Ty) : (binary table op l r).Formed strict := by
  unfold Ty.binary
  split
  · exact .ofTags _
  · split
    · exact .ofVerdict _
    · refine iteInduction (fun _ => .ofTags _) fun _ => .unionAll ?_
      intro u hu
      obtain ⟨lt, -, hu⟩ := mem_flatMap.mp hu
      obtain ⟨rt, -, hu⟩ := mem_filterMap.mp hu
      exact binaryPair_formed op lt _ rt _ u hu

theorem unaryPart_formed (op : UnaryOp) (tag : Tag) (ht : t.Formed strict) :
    MaybeFormed strict (unaryPart op tag t) := by
  have hobject : MaybeFormed strict
      (if tag = .object && t.data.isEmpty then some any else none) := by
    split
    · exact maybeFormed_some.mpr (.ofTags _)
    · simp
  cases op with
  | plus => exact iteInduction (fun _ => maybeFormed_some.mpr ht) fun _ => hobject
  | neg | bitNot =>
    refine iteInduction (fun _ => maybeFormed_some.mpr ?_) fun _ => hobject
    split <;> first | exact .literal | exact .ofTags _
  | not =>
    apply iteInduction (fun _ => maybeFormed_some.mpr (.bool _))
    intro _
    refine iteInduction (fun _ => maybeFormed_some.mpr ?_) fun _ => hobject
    split <;> first | exact .literal | exact .ofTags _

/-- The result of an operator with one operand is formed. -/
theorem Formed.unary (htable : table.Formed strict) (op : UnaryOp) (ht : t.Formed strict) :
    (unary table op t).Formed strict := by
  unfold Ty.unary
  split
  · exact .ofTags _
  · refine iteInduction (fun _ => .ofTags _) fun _ => .unionAll ?_
    intro u hu
    obtain ⟨tag, -, hu⟩ := mem_filterMap.mp hu
    exact unaryPart_formed op tag ((ht.expand htable).enumToValue.part tag) u hu

/-! ### Elements -/

theorem Formed.array (ht : t.Formed strict) : (array t).Formed strict :=
  .exact ⟨fun _ => trivial, fun _ => nofun, by simp [decls?], by simpa using ht⟩

theorem Formed.tuple {ts : List Ty} (hts : ∀ u ∈ ts, u.Formed strict) : (tuple ts).Formed strict :=
  .exact ⟨fun _ => trivial, fun _ => nofun, by simp [decls?], hts⟩

theorem Formed.dictionary {k v : Ty} (hk : k.Formed strict) (hv : v.Formed strict) :
    (dictionary k v).Formed strict :=
  .exact ⟨fun _ => trivial, fun _ => nofun, by simp [decls?], by simp [hk, hv]⟩

theorem elementUnion_formed (hp : p.Formed strict) : (elementUnion p).Formed strict :=
  elementUnionWith_closed (.ofTags _) (fun _ _ => .union) hp.nested

theorem Formed.arrayElements? (ht : t.Formed strict) : MaybeFormed strict t.arrayElements? := by
  unfold Ty.arrayElements?
  split
  · split
    · next p hp => exact maybeFormed_some.mpr (elementUnion_formed (ht.payload? hp))
    · exact maybeFormed_some.mpr (.ofTags _)
  · simp

theorem indexedPart_formed (index : Ty) (tag : Tag) (ht : t.Formed strict) :
    MaybeFormed strict (indexedPart index tag t).1 := by
  have hhead {p : Payload Ty} (hp : t.data.head? = some p) : p.Formed strict :=
    ht.payload (mem_of_head? hp)
  unfold indexedPart
  split
  · next slots hp =>
    split
    · split
      · next slot hslot =>
        exact maybeFormed_some.mpr ((hhead hp).nested slot (mem_of_getElem? hslot))
      · simp
    · exact maybeFormed_some.mpr (elementUnion_formed (hhead hp))
  · next element hp =>
    exact maybeFormed_some.mpr ((hhead hp).nested element (by simp))
  · next value hp =>
    refine maybeFormed_some.mpr (.union ?_ (.ofTags _))
    exact (hhead hp).nested value (by simp)
  · split
    · exact maybeFormed_some.mpr (.ofTags _)
    · simp

/-- What is read from a container is formed. -/
theorem Formed.indexed (htable : table.Formed strict) (ht : t.Formed strict) (index : Ty) :
    (indexed table t index).ty.Formed strict := by
  simp only [Ty.indexed]
  split
  · exact .ofTags _
  · apply Formed.unionAll
    intro u hu
    obtain ⟨_, hread, hu⟩ := mem_filterMap.mp hu
    obtain ⟨tag, -, rfl⟩ := List.mem_map.mp hread
    exact indexedPart_formed _ tag ((ht.expand htable).part tag) u hu

theorem mem_insertPayload (h : q ∈ insertPayload p data) : q = p ∨ q ∈ data := by
  induction data with
  | nil => simpa [insertPayload] using h
  | cons r data ih =>
    unfold insertPayload at h
    split at h
    · grind
    · split at h <;> grind

/-- A payload in its place keeps payloads ordered. -/
theorem insertPayload_ordered (h : Ordered data) : Ordered (insertPayload p data) := by
  induction data with
  | nil => exact pairwise_singleton _ _
  | cons q data ih =>
    obtain ⟨hq, hdata⟩ := pairwise_cons.mp h
    unfold insertPayload
    split
    · next htag => exact pairwise_cons.mpr ⟨fun r hr => htag ▸ hq r hr, hdata⟩
    · next hne =>
      split
      · next hlt =>
        refine pairwise_cons.mpr ⟨?_, h⟩
        intro r hr
        rcases mem_cons.mp hr with rfl | hr
        · exact hlt
        · exact lt_trans hlt (hq r hr)
      · next hnlt =>
        refine pairwise_cons.mpr ⟨?_, ih hdata⟩
        intro r hr
        rcases mem_insertPayload hr with rfl | hr
        · exact lt_of_le_of_ne (not_lt.mp hnlt) fun heq => hne (Tag.bit_injective heq.symm)
        · exact hq r hr

theorem Formed.setPayload (ht : t.Formed strict) (hp : p.Formed strict) :
    (t.setPayload p).Formed strict := by
  apply Formed.ofParts (fun hstrict => insertPayload_ordered (ht.canonical hstrict).ordered)
  intro q hq
  rcases mem_insertPayload hq with rfl | hq
  · exact hp
  · exact ht.payload hq

variable {index value : Ty}

theorem storedPayload?_formed (hindex : index.Formed strict) (hvalue : value.Formed strict)
    (hp : p.Formed strict) (h : storedPayload? table index value p = some q) :
    q.Formed strict := by
  unfold storedPayload? at h
  split at h
  · next element =>
    split at h
    · simp at h
    · cases h
      refine ⟨fun _ => trivial, fun _ => by simp [tag], by simp [decls?], ?_⟩
      have helement := hp.nested element (by simp)
      simpa using helement.union hvalue
  · next slots =>
    have hall : (elements (slots.foldl union value)).Formed strict :=
      ⟨fun _ => trivial, fun _ => by simp [tag], by simp [decls?],
        by simpa using .foldl_union hp.nested hvalue⟩
    split at h
    · split at h
      · cases h
        refine ⟨fun _ => trivial, fun _ => by simp [tag], by simp [decls?], ?_⟩
        intro c hc
        simp only [components] at hc
        obtain ⟨j, hj⟩ := mem_iff_getElem?.mp hc
        rw [getElem?_modify, Option.map_eq_map, map_eq_some_iff] at hj
        obtain ⟨slot, hslot, rfl⟩ := hj
        have hslot := hp.nested slot (mem_of_getElem? hslot)
        split
        · exact hslot.union hvalue
        · exact hslot
      · exact some.inj h ▸ hall
    · exact some.inj h ▸ hall
  · next key current =>
    cases h
    have hnested := hp.nested
    simp only [components, forall_mem_cons] at hnested
    refine ⟨fun _ => trivial, fun _ => by simp [tag], by simp [decls?], ?_⟩
    simpa using ⟨hnested.1.union hindex, hnested.2.1.union hvalue⟩
  · simp at h

/-- A container is formed after the store of an element. -/
theorem Formed.storeElement (ht : t.Formed strict) (hindex : index.Formed strict)
    (hvalue : value.Formed strict) : (storeElement table t index value).Formed strict := by
  refine foldl_invariant (fun acc hacc q hq => hacc.setPayload ?_) ht
  obtain ⟨p, hp, hq⟩ := mem_filterMap.mp hq
  exact storedPayload?_formed hindex.enumToValue hvalue (ht.payload hp) hq

end Ty

/-! ### Library functions -/

open Ty

/-- The operands of a call are formed. -/
structure BuiltinCall.Formed (strict : Demands) (call : BuiltinCall) : Prop where
  receiver : MaybeFormed strict call.receiver?
  args : ∀ t ∈ call.args, t.Formed strict

/-- The types that a call gives are formed. -/
structure BuiltinEffect.Formed (strict : Demands) (effect : BuiltinEffect) : Prop where
  result : effect.result.Formed strict
  receiver : MaybeFormed strict effect.receiver?

namespace Builtin

variable {call : BuiltinCall} {effect : BuiltinEffect}

/-- A library function that is given formed types gives formed types. -/
def Keeps (strict : Demands) (b : Builtin) : Prop :=
  ∀ call effect, call.Formed strict → b.effect? call = some effect → effect.Formed strict

theorem formed_result {t : Ty} (ht : t.Formed strict) :
    BuiltinEffect.Formed strict ⟨t, none⟩ := ⟨ht, maybeFormed_none⟩

theorem only?_formed (hcall : call.Formed strict) {tag : Tag} :
    MaybeFormed strict (call.only? tag) := fun t ht =>
  hcall.receiver t (filter_eq_some_iff.mp ht).1

theorem growElements_formed {receiver added : Ty} (hreceiver : receiver.Formed strict)
    (hadded : added.Formed strict) : (growElements table receiver added).Formed strict := by
  unfold growElements
  split
  · exact formed_result hreceiver
  · next p hp =>
    apply iteInduction (fun _ => formed_result hreceiver)
    intro _
    have hgrown := ((elementUnion_formed (hreceiver.payload? hp)).union hadded).array
    exact ⟨hgrown, maybeFormed_some.mpr hgrown⟩

theorem entryTypes?_formed (hcall : call.Formed strict) {k v : Ty}
    (h : entryTypes? call = some (k, v)) : k.Formed strict ∧ v.Formed strict := by
  simp only [entryTypes?, bind_eq_bind, bind_eq_some_iff] at h
  obtain ⟨receiver, hreceiver, h⟩ := h
  split at h
  · next hp =>
    obtain ⟨rfl, rfl⟩ := Prod.mk.inj (some.inj h)
    simpa using ((only?_formed hcall receiver hreceiver).payload? hp).nested
  · simp at h

/-- The methods of arrays and dictionaries keep types formed. -/
theorem collections_keep : ∀ b ∈ collections, b.Keeps strict := by
  simp only [collections, forall_mem_cons, not_mem_nil, false_implies, implies_true, and_true]
  refine ⟨?_, ?_, ?_, ?_, ?_, ?_, ?_, ?_⟩ <;> intro call effect hcall h
  all_goals
    simp only [arrayAdd, arrayAddAll, arraySlice, arrayReverse, dictionaryPut, dictionaryGet,
      dictionaryKeys, dictionaryValues, bind_eq_bind, bind_eq_some_iff, Option.pure_def,
      Option.some.injEq, Prod.exists] at h
  · obtain ⟨receiver, hreceiver, added, hadded, rfl⟩ := h
    exact growElements_formed (only?_formed hcall receiver hreceiver)
      (hcall.args added (mem_of_getElem? hadded))
  · obtain ⟨receiver, hreceiver, added, hadded, rfl⟩ := h
    exact growElements_formed (only?_formed hcall receiver hreceiver)
      (.getD (hcall.args added (mem_of_getElem? hadded)).arrayElements?)
  · obtain ⟨receiver, hreceiver, p, hp, rfl⟩ := h
    have hp := (only?_formed hcall receiver hreceiver).payload? hp
    exact formed_result (elementUnion_formed hp).array
  · obtain ⟨receiver, hreceiver, h⟩ := h
    have hreceiver := only?_formed hcall receiver hreceiver
    split at h
    · next slots hp =>
      cases h
      exact formed_result (.tuple fun u hu => (hreceiver.payload? hp).nested u (mem_reverse.mp hu))
    · next element hp =>
      cases h
      have helement := (hreceiver.payload? hp).nested element (by simp)
      exact formed_result helement.array
    · simp at h
  · obtain ⟨k, v, hentry, newKey, hkey, newValue, hvalue, h⟩ := h
    have hentry := entryTypes?_formed hcall hentry
    split at h
    · exact some.inj h ▸ formed_result (.ofTags _)
    · cases h
      refine ⟨.ofTags _, maybeFormed_some.mpr (.dictionary ?_ ?_)⟩
      · exact hentry.1.union (hcall.args newKey (mem_of_getElem? hkey))
      · exact hentry.2.union (hcall.args newValue (mem_of_getElem? hvalue))
  · obtain ⟨k, v, hentry, rfl⟩ := h
    have hentry := entryTypes?_formed hcall hentry
    refine formed_result (iteInduction ?_ fun _ => .ofTags _)
    intro _
    exact hentry.2.union (.ofTags _)
  · obtain ⟨k, v, hentry, rfl⟩ := h
    exact formed_result (entryTypes?_formed hcall hentry).1.array
  · obtain ⟨k, v, hentry, rfl⟩ := h
    exact formed_result (entryTypes?_formed hcall hentry).2.array

theorem decimal_formed (tags : Tags) (value : Option Double) :
    (decimal tags value).Formed strict := by
  unfold decimal
  split
  · refine iteInduction (fun _ => .literal) ?_
    intro _
    exact iteInduction (fun _ => .literal) fun _ => .ofTags _
  · exact .ofTags _

theorem absOf?_formed {t : Ty} (h : absOf? t = some effect) : effect.Formed strict := by
  simp only [absOf?, bind_eq_bind, bind_eq_some_iff, Option.pure_def, Option.some.injEq] at h
  obtain ⟨numeric, -, rfl⟩ := h
  apply formed_result
  split <;> first | exact .literal | exact .ofTags _

theorem realFunction_keeps (name : String) (f : Double → Double) :
    (realFunction name f).Keeps strict := by
  intro call effect _ h
  simp only [realFunction, bind_eq_bind, bind_eq_some_iff] at h
  obtain ⟨arg, -, h⟩ := h
  split at h
  · simp at h
  · exact some.inj h ▸ formed_result (decimal_formed _ _)

/-- The mathematical functions keep types formed. -/
theorem mathematical_keep : ∀ b ∈ mathematical, b.Keeps strict := by
  simp only [mathematical, forall_mem_append, List.forall_mem_map, forall_mem_cons,
    not_mem_nil, false_implies, implies_true, and_true]
  refine ⟨fun e _ => realFunction_keeps e.1 e.2, ?_, ?_⟩ <;> intro call effect _ h
  · simp only [absFunction, bind_eq_bind, bind_eq_some_iff] at h
    obtain ⟨arg, -, h⟩ := h
    exact absOf?_formed h
  · simp only [atan2, bind_eq_bind, bind_eq_some_iff] at h
    obtain ⟨y, -, x, -, h⟩ := h
    split at h
    · simp at h
    · exact some.inj h ▸ formed_result (decimal_formed _ _)

theorem converted?_formed (target : Tag) (t : Ty) : MaybeFormed strict (converted? target t) := by
  intro u h
  simp only [converted?, bind_eq_bind, bind_eq_some_iff] at h
  obtain ⟨real, -, h⟩ := h
  split at h <;> [split at h; split at h; split at h; skip] <;>
    exact some.inj h ▸ .literal

theorem conversion_keeps (className method : String) (target : Tag) :
    (conversion className method target).Keeps strict := by
  intro call effect _ h
  simp only [conversion, bind_eq_bind, bind_eq_some_iff, Option.pure_def, Option.some.injEq] at h
  obtain ⟨receiver, -, numeric, -, rfl⟩ := h
  exact formed_result (.getD (converted?_formed target numeric))

variable (className : String)

theorem toText_keeps : (toText className).Keeps strict := by
  intro call effect _ h
  simp only [toText, bind_eq_bind, bind_eq_some_iff] at h
  obtain ⟨receiver, -, h⟩ := h
  split at h
  · exact some.inj h ▸ formed_result .literal
  · exact some.inj h ▸ formed_result (.ofTags _)

theorem absMethod_keeps : (absMethod className).Keeps strict := by
  intro call effect _ h
  simp only [absMethod, bind_eq_bind, bind_eq_some_iff] at h
  obtain ⟨receiver, -, h⟩ := h
  exact absOf?_formed h

/-- The methods of strings and characters keep types formed. -/
theorem textual_keep : ∀ b ∈ textual, b.Keeps strict := by
  simp only [textual, forall_mem_cons, not_mem_nil, false_implies, implies_true, and_true]
  refine ⟨toText_keeps _, toText_keeps _, ?_, ?_, ?_, ?_⟩ <;> intro call effect _ h
  all_goals
    simp only [stringLength, stringUpper, stringLower, charNumber, bind_eq_bind,
      bind_eq_some_iff] at h
    obtain ⟨_, -, h⟩ := h
    try split at h
    all_goals first | exact some.inj h ▸ formed_result .literal | simp at h

/-- Every modelled library function keeps types formed. -/
theorem all_keep : ∀ b ∈ all, b.Keeps strict := by
  simp only [all, forall_mem_append]
  refine ⟨⟨⟨collections_keep, mathematical_keep⟩, ?_⟩, textual_keep⟩
  intro b hb
  obtain ⟨className, -, hb⟩ := mem_flatMap.mp hb
  have hmethods : ∀ b ∈ numberMethods className, b.Keeps strict := by
    simp only [numberMethods, forall_mem_cons, not_mem_nil, false_implies, implies_true, and_true]
    exact ⟨conversion_keeps _ _ _, conversion_keeps _ _ _, conversion_keeps _ _ _,
      conversion_keeps _ _ _, toText_keeps _, absMethod_keeps _⟩
  exact hmethods b hb

theorem refine?_formed {name : String} (hcall : call.Formed strict)
    (h : refine? name call = some effect) : effect.Formed strict := by
  obtain ⟨b, hb, h⟩ := bind_eq_some_iff.mp h
  exact all_keep b (mem_of_find?_eq_some hb) call effect hcall h

end Builtin

end TypeFlow
