import TypeFlow.Proofs.Absorption
import TypeFlow.Proofs.ElementStores

/-!
# Additions to arrays and dictionaries

The modelled methods that add to an array or a dictionary report a receiver that the old one lies
below, or none if the old one covers the addition already.
-/

namespace TypeFlow

open Ty

namespace Ty

variable {t : Ty} {p q : Payload Ty}

/-- A type of one kind lies below a payload that takes up its own. -/
theorem below_exact (ht : t.WellFormed) (hq : (exact q).WellFormed)
    (htags : t.tags = .single q.tag) (hp : t.payload? q.tag = some p)
    (h : mergePayload union p q = some q) : t.Below (exact q) := by
  refine below_of_slot_union ht hq fun tag => ?_
  by_cases htag : tag = q.tag
  · rw [htag, slot_exact, slot_eq_holds_iff.mpr ⟨by simp [htags], hp⟩, Slot.union, h]
  · rw [slot_eq_absent_iff.mpr (by simpa [htags] using htag), Slot.absent_union]

end Ty

namespace BuiltinEffect

/-- The receiver after a call. -/
def after (effect : BuiltinEffect) (receiver : Ty) : Ty := effect.receiver?.getD receiver

/-- A call leaves an array that covers the receiver and what is added to it. -/
structure Adds (table : DeclTable) (receiver added : Ty) (effect : BuiltinEffect) : Prop where
  widens : receiver.subtype table (effect.after receiver)
  records : ∃ element, (effect.after receiver).arrayElements? = some element ∧
    added.subtype table element
  /-- A tuple never stays as it is, since its length changes. -/
  untupled : effect.receiver? = none → ∀ slots, receiver.payload? .array ≠ some (.tuple slots)

/-- A call leaves a dictionary that covers the receiver and an entry that is put into it. -/
structure Puts (table : DeclTable) (receiver key value : Ty) (effect : BuiltinEffect) : Prop where
  widens : receiver.subtype table (effect.after receiver)
  records : ∃ keys values, (effect.after receiver).payload? .dictionary =
    some (.dictionary keys values) ∧ key.subtype table keys ∧ value.subtype table values

end BuiltinEffect

namespace Builtin

variable {table : DeclTable} {receiver added keys values key value : Ty} {p : Payload Ty}
  (htable : table.WellFormed) (hmethods : ∀ e ∈ table.expansions, e.2.MethodFree)

include htable hmethods

theorem subtype_of_full {a b : Ty} (ha : a.Full) (hb : b.Full) (h : a.Below b) :
    a.subtype table b :=
  subtype_of_below htable hmethods (ha.wellFormed trivial) (hb.wellFormed trivial)
    (.of_formed ha trivial) h

/-- A part that is joined with an addition covers both. -/
theorem union_covers {a b : Ty} (ha : a.Full) (hb : b.Full) :
    a.Below (a.union b) ∧ b.subtype table (a.union b) :=
  ⟨below_union_left (ha.wellFormed trivial) (hb.wellFormed trivial),
    subtype_of_full htable hmethods hb (ha.union hb)
      (below_union_right (ha.wellFormed trivial) (hb.wellFormed trivial))⟩

section

variable (hreceiver : receiver.Full) (hadded : added.Full) (htags : receiver.tags = .single .array)

include hreceiver hadded htags

/-- An array of any length that takes up the elements and the addition. -/
theorem grown_adds (hp : receiver.payload? .array = some p) :
    let grown := array ((elementUnion p).union added)
    BuiltinEffect.Adds table receiver added ⟨grown, some grown⟩ := by
  have hold := elementUnion_formed (hreceiver.payload? hp)
  obtain ⟨hleft, hright⟩ := union_covers htable hmethods hold hadded
  have hgrown := (hold.union hadded).array
  have hbelow := below_exact (hreceiver.wellFormed trivial) (hgrown.wellFormed trivial) htags hp
    (mergePayload_elements (payload?_tag hp) hleft)
  exact ⟨subtype_of_full htable hmethods hreceiver hgrown hbelow, ⟨_, rfl, hright⟩, by simp⟩

theorem growElements_adds : (growElements table receiver added).Adds table receiver added := by
  have hself := subtype_of_full htable hmethods hreceiver hreceiver
    (.refl (hreceiver.wellFormed trivial))
  unfold growElements
  cases hp : receiver.payload? .array with
  | none =>
    have helements : receiver.arrayElements? = some any := by simp [arrayElements?, htags, hp]
    have hany := subtype_of_full htable hmethods hadded (.ofTags _) (union_any added)
    exact ⟨hself, ⟨any, helements, hany⟩, by simp [hp]⟩
  | some p =>
    have helements : receiver.arrayElements? = some (elementUnion p) := by
      simp [arrayElements?, htags, hp]
    have hgrown := grown_adds htable hmethods hreceiver hadded htags hp
    dsimp only
    split
    -- only elements of any length can cover the addition
    · refine iteInduction (fun hcovered => ?_) fun _ => hgrown
      exact ⟨hself, ⟨_, helements, hcovered⟩, by simp [hp]⟩
    · exact hgrown

end

theorem dictionaryPut_puts (hreceiver : receiver.Full) (hkey : key.Full) (hvalue : value.Full)
    (htags : receiver.tags = Tags.single .dictionary)
    (hp : receiver.payload? .dictionary = some (.dictionary keys values)) (rest : List Ty) :
    ∃ effect, dictionaryPut.effect? ⟨table, some receiver, key :: value :: rest⟩ = some effect ∧
      effect.Puts table receiver key value := by
  have hentry : entryTypes? ⟨table, some receiver, key :: value :: rest⟩ = some (keys, values) := by
    simp [entryTypes?, BuiltinCall.only?, Option.filter, htags, hp]
  have heffect : dictionaryPut.effect? ⟨table, some receiver, key :: value :: rest⟩ = some
      (if key.subtype table keys && value.subtype table values then ⟨null, none⟩
        else ⟨null, some (dictionary (keys.union key) (values.union value))⟩) := by
    simp only [dictionaryPut, hentry, Option.bind_eq_bind, Option.bind_some,
      List.getElem?_cons_zero, List.getElem?_cons_succ]
    exact (apply_ite some _ _ _).symm
  refine ⟨_, heffect, iteInduction (fun hcovered => ?_) fun _ => ?_⟩
  · have hself := subtype_of_full htable hmethods hreceiver hreceiver
      (.refl (hreceiver.wellFormed trivial))
    exact ⟨hself, keys, values, hp, by simpa using hcovered⟩
  · have hnested := (hreceiver.payload? hp).nested
    simp only [Payload.components, List.forall_mem_cons] at hnested
    obtain ⟨hkeys, hvalues, -⟩ := hnested
    obtain ⟨hkeyLeft, hkeyRight⟩ := union_covers htable hmethods hkeys hkey
    obtain ⟨hvalueLeft, hvalueRight⟩ := union_covers htable hmethods hvalues hvalue
    have hgrown := Formed.dictionary (hkeys.union hkey) (hvalues.union hvalue)
    have hbelow := below_exact (hreceiver.wellFormed trivial) (hgrown.wellFormed trivial) htags hp
      (congrArg some (congrArg₂ Payload.dictionary hkeyLeft hvalueLeft))
    exact ⟨subtype_of_full htable hmethods hreceiver hgrown hbelow,
      _, _, rfl, hkeyRight, hvalueRight⟩

end Builtin

/-- Additions widen the receiver and record what is added: in every program, with types that are
well-formed and have no payloads for methods, `add` and `addAll` on an array and `put` on a
dictionary of known entries leave a receiver that covers the old one and the addition. -/
theorem additions_widen (source : Source) {receiver x y : Ty} (hreceiver : receiver.WellFormed)
    (hx : x.WellFormed) (hy : y.WellFormed) (hreceiverFree : receiver.MethodFree)
    (hxFree : x.MethodFree) (hyFree : y.MethodFree) (rest : List Ty) :
    let table := source.program.table
    let effect? (name : String) (args : List Ty) :=
      Builtin.refine? name ⟨table, some receiver, args⟩
    (receiver.tags = Tags.single .array →
      (∃ effect, effect? "Toybox.Lang.Array.add" (x :: rest) = some effect ∧
        effect.Adds table receiver x) ∧
      ∃ effect, effect? "Toybox.Lang.Array.addAll" (x :: rest) = some effect ∧
        effect.Adds table receiver (x.arrayElements?.getD any)) ∧
    ∀ keys values, receiver.tags = Tags.single .dictionary →
      receiver.payload? .dictionary = some (.dictionary keys values) →
      ∃ effect, effect? "Toybox.Lang.Dictionary.put" (x :: y :: rest) = some effect ∧
        effect.Puts table receiver x y := by
  have htable := source.program_table_wellFormed
  have hmethods := source.program_table_methodFree
  have hreceiver := hreceiverFree.full hreceiver
  have hx := hxFree.full hx
  have hy := hyFree.full hy
  refine ⟨fun htags => ?_, fun keys values htags hp =>
    Builtin.dictionaryPut_puts htable hmethods hreceiver hx hy htags hp rest⟩
  have helements : (x.arrayElements?.getD any).Full := .getD hx.arrayElements?
  refine ⟨⟨_, ?_, Builtin.growElements_adds htable hmethods hreceiver hx htags⟩,
    ⟨_, ?_, Builtin.growElements_adds htable hmethods hreceiver helements htags⟩⟩
  · show Builtin.arrayAdd.effect? _ = _
    simp [Builtin.arrayAdd, BuiltinCall.only?, Option.filter, htags]
  · show Builtin.arrayAddAll.effect? _ = _
    simp [Builtin.arrayAddAll, BuiltinCall.only?, Option.filter, htags]

/-- A pair loses its length to an addition that it covers, and a dictionary takes up a tree. -/
theorem additions_widen_nestedLists :
    let table := nestedLists.program.table
    let tree := Ty.exact (.synonym (.one 1))
    let number := Ty.ofTags (.single .number)
    let pair := Ty.tuple [number, tree]
    let rows := Ty.dictionary number number
    let add := Builtin.refine? "Toybox.Lang.Array.add" ⟨table, some pair, [tree]⟩
    let put := Builtin.refine? "Toybox.Lang.Dictionary.put" ⟨table, some rows, [number, tree]⟩
    (add.bind (·.receiver?) = some (array (number.union tree)) ∧
      ∃ effect, add = some effect ∧ effect.Adds table pair tree) ∧
    put.bind (·.receiver?) = some (dictionary number (number.union tree)) ∧
      ∃ effect, put = some effect ∧ effect.Puts table rows number tree := by
  intro table tree number pair rows add put
  have htree : tree.WellFormed := .ofDecls
  have hpair : pair.WellFormed ∧ pair.MethodFree := by decide +kernel
  have hrows : rows.WellFormed ∧ rows.MethodFree := by decide +kernel
  have hadd := (additions_widen nestedLists hpair.1 htree htree hpair.2 .ofDecls .ofDecls []).1 rfl
  have hnumber : number.WellFormed := .ofTags _
  have hput := (additions_widen nestedLists hrows.1 hnumber htree hrows.2 (.ofTags _) .ofDecls
    []).2 number number rfl rfl
  exact ⟨⟨by decide +kernel, hadd.1⟩, by decide +kernel, hput⟩

end TypeFlow
