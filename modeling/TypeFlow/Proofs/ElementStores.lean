import TypeFlow.Proofs.MeetByTag
import TypeFlow.Proofs.Supertypes

/-!
# Stores of elements

A store changes the payloads for arrays and dictionaries, each by itself, and nothing else. A
container lies below what a store makes of it, and reading at the same index gives back the value.
Typedefs are not looked through: what they stand for stays as it is.
-/

namespace TypeFlow

open List Option Tags Ty

namespace Ty

variable {table : DeclTable} {index value container e : Ty} {tag : Tag} {p q : Payload Ty}

/-- A store keeps the tag of a payload. -/
theorem storedPayload?_tag (h : storedPayload? table index value p = some q) : q.tag = p.tag := by
  cases p <;> simp only [storedPayload?, reduceCtorEq] at h
  case elements element =>
    split at h
    · simp at h
    · exact some.inj h ▸ rfl
  case tuple slots =>
    split at h
    · split at h <;> exact some.inj h ▸ rfl
    · exact some.inj h ▸ rfl
  case dictionary key current => exact some.inj h ▸ rfl

/-- A payload after the store of an element. -/
def stored (table : DeclTable) (index value : Ty) (p : Payload Ty) : Payload Ty :=
  (storedPayload? table index value p).getD p

/-- Payloads that are not stored to keep their tags, too. -/
theorem stored_tag : (stored table index value p).tag = p.tag := by
  unfold stored
  cases h : storedPayload? table index value p with
  | none => rfl
  | some q => exact storedPayload?_tag h

/-! ### The payloads of a container -/

/-- A payload takes the place of the one that has its tag. -/
theorem insertPayload_append {done rest : List (Payload Ty)} (h : Ordered (done ++ p :: rest))
    (htag : q.tag = p.tag) : insertPayload q (done ++ p :: rest) = done ++ q :: rest := by
  induction done with
  | nil => simp [insertPayload, htag]
  | cons r done ih =>
    obtain ⟨hr, hdone⟩ := pairwise_cons.mp h
    have hlt := htag ▸ hr p (by simp)
    have hne : q.tag ≠ r.tag := fun heq => lt_irrefl _ (heq ▸ hlt)
    rw [cons_append, insertPayload, if_neg hne, if_neg (lt_asymm hlt), ih hdone, cons_append]

theorem ofParts_eq {tags : Tags} {data : List (Payload Ty)}
    (h : ∀ p ∈ data, p.tag ∈ tags ∧ (tags.ManyValues → p.isValue = false)) :
    ofParts tags data = ⟨tags, data⟩ := by
  have hpresent := filter_eq_self.mpr fun p hp => (h p hp).1
  simp only [ofParts, hpresent, ite_eq_right_iff, mk.injEq, true_and, filter_eq_self]
  exact fun hmany p hp => by simp [(h p hp).2 hmany]

/-- Payloads that are replaced one after the other, each by one of its tag. -/
theorem foldl_setPayload {f : Payload Ty → Option (Payload Ty)} {tags : Tags}
    (hf : ∀ p q, f p = some q → q.tag = p.tag) :
    ∀ done rest : List (Payload Ty), Ordered (done ++ rest) →
      (∀ p ∈ done ++ rest, p.tag ∈ tags ∧ (tags.ManyValues → p.isValue = false)) →
      (rest.filterMap f).foldl setPayload ⟨tags, done ++ rest⟩ =
        ⟨tags, done ++ rest.map fun p => (f p).getD p⟩
  | done, [], _, _ => by simp
  | done, p :: rest, hordered, hlevel => by
    cases hp : f p with
    | none => simpa [hp] using
        foldl_setPayload hf (done ++ [p]) rest (by simpa using hordered) (by simpa using hlevel)
    | some q =>
      have htag := hf p q hp
      have hordered' : Ordered (done ++ q :: rest) := by
        simpa [Ordered, pairwise_append, htag] using hordered
      have hlevel' : ∀ r ∈ done ++ q :: rest,
          r.tag ∈ tags ∧ (tags.ManyValues → r.isValue = false) := by
        simpa [or_imp, forall_and, Payload.isValue, htag] using hlevel
      have hset : setPayload ⟨tags, done ++ p :: rest⟩ q = ⟨tags, done ++ q :: rest⟩ := by
        have htags : tags ∪ single q.tag = tags := ext_mem fun tag => by
          simpa using fun h : tag = q.tag => h ▸ (hlevel' q (by simp)).1
        rw [setPayload, htags, insertPayload_append hordered htag]
        exact ofParts_eq hlevel'
      simpa [hp, hset] using
        foldl_setPayload hf (done ++ [q]) rest (by simpa using hordered') (by simpa using hlevel')

section

variable (hcontainer : container.Canonical)

include hcontainer

/-- A store changes each payload by itself. -/
theorem storeElement_eq : storeElement table container index value =
      ⟨container.tags, container.data.map (stored table index.enumToValue value)⟩ := by
  obtain ⟨tags, data⟩ := container
  exact foldl_setPayload (fun _ _ => storedPayload?_tag) [] data hcontainer.ordered
    fun p hp => ⟨hcontainer.tagged p hp, fun hmany => hcontainer.literal hmany p hp⟩

@[simp] theorem storeElement_tags :
    (storeElement table container index value).tags = container.tags := by
  rw [storeElement_eq hcontainer]

theorem payload?_storeElement : (storeElement table container index value).payload? tag =
      (container.payload? tag).map (stored table index.enumToValue value) := by
  rw [storeElement_eq hcontainer, payload?, find?_map]
  simp only [Function.comp_def, stored_tag]
  rfl

end

/-- What a slot holds after a store. -/
def Slot.store (table : DeclTable) (index value : Ty) : Slot → Slot
  | .holds p => .holds (stored table index value p)
  | s => s

theorem slot_storeElement (hcontainer : container.Canonical) :
    (storeElement table container index value).slot tag =
      (container.slot tag).store table index.enumToValue value := by
  rw [slot, storeElement_tags hcontainer, payload?_storeElement hcontainer, slot]
  split
  · cases container.payload? tag <;> rfl
  · rfl

/-! ### A store only widens -/

theorem below_foldl_union {ts : List Ty} (hts : ∀ t ∈ ts, t.WellFormed)
    (hvalue : value.WellFormed) :
    value.Below (ts.foldl union value) ∧ ∀ t ∈ ts, t.Below (ts.foldl union value) :=
  (foldl_union_below_iff hts hvalue (.foldl_union hts hvalue)).mp (.refl (.foldl_union hts hvalue))

/-- Arrays are merged into the elements of any length that cover theirs. -/
theorem mergePayload_elements (hp : p.tag = .array) (h : (elementUnion p).Below e) :
    mergePayload union p (.elements e) = some (.elements e) := by
  rw [mergePayload_array hp rfl, mergeArray_eq_elements (agreed_none _)]
  exact congrArg (some ∘ Payload.elements) h

theorem mergePayload_stored (hp : p.Formed True) (hindex : index.WellFormed)
    (hvalue : value.WellFormed) :
    mergePayload union p (stored table index value p) = some (stored table index value p) := by
  have hself := joinOn_wellFormed.mergePayload_self hp.nested (hp.proper trivial)
  unfold stored
  cases h : storedPayload? table index value p with
  | none => exact hself
  | some q =>
  rw [getD_some]
  cases p <;> simp only [storedPayload?, reduceCtorEq] at h
  case elements element =>
    split at h
    · simp at h
    · obtain rfl := some.inj h
      exact mergePayload_elements rfl (below_union_left (hp.nested element (by simp)) hvalue)
  case tuple slots =>
    have hall :=
      (unionAll_below_iff hp.nested (.foldl_union hp.nested hvalue)).mpr
        (below_foldl_union hp.nested hvalue).2
    split at h
    · next i hi =>
      split at h
      · obtain rfl := some.inj h
        rw [mergePayload_array rfl rfl, mergeArray, if_pos (length_modify ..).symm]
        refine congrArg (some ∘ Payload.tuple) (ext_getElem? fun j => ?_)
        rw [getElem?_zipWith, getElem?_modify]
        cases hj : slots[j]? with
        | none => rfl
        | some slot =>
          have hslot : slot.WellFormed := hp.nested slot (mem_of_getElem? hj)
          by_cases hij : i = j
          · simpa [hij, Below] using below_union_left hslot hvalue
          · simpa [hij] using hslot.union_self
      · exact some.inj h ▸ mergePayload_elements rfl hall
    · exact some.inj h ▸ mergePayload_elements rfl hall
  case dictionary key current =>
    obtain rfl := some.inj h
    have hkey := hp.nested key (by simp)
    have hcurrent := hp.nested current (by simp)
    simp only [mergePayload]
    rw [below_union_left hkey hindex, below_union_left hcurrent hvalue]

/-- A container lies below what a store makes of it. -/
theorem below_storeElement (hcontainer : container.WellFormed) (hindex : index.WellFormed)
    (hvalue : value.WellFormed) : container.Below (storeElement table container index value) := by
  refine below_of_slot_union hcontainer (hcontainer.storeElement hindex hvalue) fun tag => ?_
  rw [slot_storeElement hcontainer.canonical]
  cases hslot : container.slot tag with
  | absent | bare => rfl
  | holds p =>
    have hp := hcontainer.payload (payload?_mem (slot_eq_holds_iff.mp hslot).2)
    simp [Slot.store, Slot.union, mergePayload_stored hp hindex.enumToValue hvalue]

/-! ### What is read after a store -/

theorem head?_part (t : Ty) (tag : Tag) : (t.part tag).data.head? = t.payload? tag := by
  rw [part, restrictedTo, without, head?_filter]
  refine congrArg (fun f => List.find? f t.data) (funext fun p => ?_)
  have hany : p.tag ∈ Tags.any := by cases p.tag <;> decide
  have hmem : p.tag ∈ Tags.any \ Tags.single tag ↔ p.tag ≠ tag := by simp [hany]
  rw [Bool.eq_iff_iff, Bool.not_eq_true', ← Bool.not_eq_true, ← mem_iff, hmem]
  simp

/-- What is read at an index from one kind of containers after a store at this index has the value
below it, or is the elements that cover the value already. -/
theorem below_or_covers_of_indexedPart (hcontainer : container.WellFormed)
    (hvalue : value.WellFormed)
    (h : (indexedPart index.enumToValue tag
      ((storeElement table container index value).part tag)).1 = some e) :
    value.Below e ∨ tag = .array ∧ value.subtype table e := by
  rw [indexedPart, head?_part, payload?_storeElement hcontainer.canonical] at h
  generalize index.enumToValue = index at h
  have hany (h : (if tag = .array || tag = .dictionary || tag = .object then (some any, true)
      else (none, true)).1 = some e) : value.Below e := by
    split at h
    · exact some.inj h ▸ union_any value
    · simp at h
  cases hp : container.payload? tag with
  | none => exact .inl (hany (by simpa [hp] using h))
  | some p =>
  have htag := payload?_tag hp
  have hnested := (hcontainer.payload (payload?_mem hp)).nested
  rw [hp, map_some, stored] at h
  cases p <;> simp only [storedPayload?] at h
  case elements element =>
    by_cases hsub : value.subtype table element
    · rw [if_pos hsub] at h
      obtain rfl := some.inj h
      exact .inr ⟨htag.symm, hsub⟩
    · rw [if_neg hsub] at h
      obtain rfl := some.inj h
      exact .inl (below_union_right (hnested element (by simp)) hvalue)
  case tuple slots =>
    have hall := (below_foldl_union hnested hvalue).1
    cases hi : index.position? with
    | none =>
      rw [hi] at h
      obtain rfl := some.inj h
      exact .inl hall
    | some i =>
      simp only [hi] at h
      by_cases hlt : i < slots.length
      · simp only [hlt, if_true, getD_some, getElem?_modify_eq, getElem?_eq_getElem] at h
        obtain rfl := some.inj h
        exact .inl (below_union_right (hnested slots[i] (getElem_mem hlt)) hvalue)
      · rw [if_neg hlt] at h
        obtain rfl := some.inj h
        exact .inl hall
  case dictionary key current =>
    obtain rfl := some.inj h
    have hcurrent := hnested current (by simp)
    have hnull : null.WellFormed := .ofTags _
    have hunion := hcurrent.union hvalue
    exact .inl ((below_union_right hcurrent hvalue).trans hvalue hunion (hunion.union hnull)
      (below_union_left hunion hnull))
  all_goals exact .inl (hany h)

/-- A union of what is read from several kinds of containers, where only arrays may give something
that a value does not lie below. -/
theorem unionAll_reads_cases {reads : Tag → Option Ty} (hvalue : value.WellFormed)
    (hreads : ∀ tag e, reads tag = some e → e.WellFormed)
    (h : ∀ tag e, reads tag = some e → value.Below e ∨ tag = .array) (tags : List Tag) :
    value.Below (unionAll (tags.filterMap reads)) ∨ unionAll (tags.filterMap reads) = never ∨
      reads .array = some (unionAll (tags.filterMap reads)) := by
  have hformed : ∀ e ∈ tags.filterMap reads, e.WellFormed := by
    intro e he
    obtain ⟨tag, -, he⟩ := mem_filterMap.mp he
    exact hreads tag e he
  by_cases harray : ∀ e ∈ tags.filterMap reads, reads .array = some e
  · right
    generalize tags.filterMap reads = es at *
    cases es with
    | nil => exact .inl rfl
    | cons e es =>
      have he := mem_cons_self (a := e) (l := es)
      -- All that is read is read from the arrays, so it is all the same.
      have hbelow : (unionAll (e :: es)).Below e := by
        refine (unionAll_below_iff hformed (hformed e he)).mpr fun u hu => ?_
        obtain rfl := some.inj ((harray u hu).symm.trans (harray e he))
        exact .refl (hformed u hu)
      rw [Below.antisymm (.unionAll hformed) (hformed e he) hbelow (below_unionAll hformed he)]
      exact .inr (harray e he)
  · left
    push Not at harray
    obtain ⟨e, hmem, hne⟩ := harray
    obtain ⟨tag, -, he⟩ := mem_filterMap.mp hmem
    have hbelow := (h tag e he).resolve_right fun htag => hne (htag ▸ he)
    exact hbelow.trans hvalue (hreads tag e he) (.unionAll hformed) (below_unionAll hformed hmem)

/-- Reading at the index of a store gives the value or more. -/
theorem subtype_indexed_storeElement (htable : table.WellFormed)
    (hmethods : ∀ d ∈ table.expansions, d.2.MethodFree) (hcontainer : container.WellFormed)
    (hindex : index.WellFormed) (hvalue : value.WellFormed) (hfree : value.MethodFree)
    (hsome : container.isNever = false) (hsynonym : container.hasSynonym = false) :
    value.subtype table (indexed table (storeElement table container index value) index).ty =
      true := by
  have hresult : (storeElement table container index value).WellFormed :=
    hcontainer.storeElement hindex hvalue
  have htags : (storeElement table container index value).tags = container.tags :=
    storeElement_tags hcontainer.canonical
  have hcovered {u : Ty} (hu : u.WellFormed) (h : value.Below u) : value.subtype table u :=
    subtype_of_below htable hmethods hvalue hu hfree h
  have hformed := hresult.indexed htable index
  have hcases := unionAll_reads_cases hvalue
    (fun tag => indexedPart_formed index.enumToValue tag (hresult.part tag))
    (fun tag e he => (below_or_covers_of_indexedPart hcontainer hvalue he).imp_right And.left)
    (storeElement table container index value).tags.toList
  rw [indexed, expand_of_not_hasSynonym (by rw [hasSynonym, htags]; exact hsynonym)] at hformed ⊢
  simp only [filterMap_map, Function.comp_def] at hformed ⊢
  split
  · exact hcovered .any (union_any value)
  · next hread =>
    rw [if_neg hread] at hformed
    rcases hcases with hbelow | hnever | harray
    · exact hcovered hformed hbelow
    · have hsome : (storeElement table container index value).isNever = false := by
        rw [isNever, htags]
        exact hsome
      simp only [hnever, hsome] at hread
      exact absurd rfl hread
    · rcases below_or_covers_of_indexedPart hcontainer hvalue harray with hbelow | ⟨-, hsub⟩
      · exact hcovered hformed hbelow
      · exact hsub

/-! ### Typedefs -/

theorem stored_eq (harray : p.tag ≠ .array) (hdictionary : p.tag ≠ .dictionary) :
    stored table index value p = p := by
  cases p <;> simp [Payload.tag] at harray hdictionary <;> rfl

/-- A store leaves other slots than those of arrays and dictionaries as they are. -/
theorem slot_storeElement_eq (hcontainer : container.Canonical)
    (h : tag = .array ∨ tag = .dictionary → container.payload? tag = none) :
    (storeElement table container index value).slot tag = container.slot tag := by
  rw [slot_storeElement hcontainer]
  cases hslot : container.slot tag with
  | absent | bare => rfl
  | holds p =>
    have hp := (slot_eq_holds_iff.mp hslot).2
    obtain rfl := payload?_tag hp
    simp only [hp, reduceCtorEq, imp_false, not_or] at h
    rw [Slot.store, stored_eq h.1 h.2]

theorem storeElement_without (ht : container.WellFormed) (tags : Tags) :
    (storeElement table container index value).without tags =
      storeElement table (container.without tags) index value := by
  have hwithout : (container.without tags).WellFormed := ht.without tags
  rw [storeElement_eq ht.canonical, storeElement_eq hwithout.canonical, without, without]
  simp only [List.filter_map, Function.comp_def, stored_tag]

/-- A store through a union with a type that says nothing about the contents of arrays and
dictionaries. -/
theorem storeElement_union (ht : container.WellFormed) (he : e.WellFormed)
    (hindex : index.WellFormed) (hvalue : value.WellFormed) (harray : e.payload? .array = none)
    (hdictionary : e.payload? .dictionary = none) :
    (storeElement table container index value).union e =
      storeElement table (container.union e) index value := by
  have hunion : (container.union e).WellFormed := ht.union he
  have hstored : (storeElement table container index value).WellFormed :=
    ht.storeElement hindex hvalue
  have hleft : ((storeElement table container index value).union e).WellFormed := hstored.union he
  have hright : (storeElement table (container.union e) index value).WellFormed :=
    hunion.storeElement hindex hvalue
  refine Canonical.ext_slot hleft.canonical hright.canonical fun tag => ?_
  rw [slot_union hstored.canonical he.canonical, storeElement_tags ht.canonical]
  by_cases htag : tag = .array ∨ tag = .dictionary
  · have hvalueTag : tag ∉ valueTypes := by rcases htag with rfl | rfl <;> decide
    have hnone : e.payload? tag = none := by rcases htag with rfl | rfl <;> assumption
    rw [if_neg fun h => hvalueTag h.2, slot_storeElement ht.canonical,
      slot_storeElement hunion.canonical, slot_union ht.canonical he.canonical,
      if_neg fun h => hvalueTag h.2]
    -- The slot of the second type is empty or takes up whatever stands beside it.
    have hslot : e.slot tag = .absent ∨ e.slot tag = .bare := by
      unfold slot
      split <;> simp [hnone]
    rcases hslot with hslot | hslot
    · rw [hslot, Slot.union_absent, Slot.union_absent]
    · rw [hslot]
      cases container.slot tag <;> rfl
  · rw [slot_storeElement_eq ht.canonical fun h => absurd h htag,
      slot_storeElement_eq hunion.canonical fun h => absurd h htag,
      slot_union ht.canonical he.canonical]

end Ty

/-- A store of an element only widens a container and is seen by a read at the same index: in every
program, for well-formed types without payloads for methods and containers that are inhabited and no
typedefs, the container keeps its tags and is a subtype of the result, and the value is a subtype of
what is read from the result. -/
theorem storeElement_widens (source : Source) {container index value : Ty}
    (hcontainer : container.WellFormed) (hindex : index.WellFormed) (hvalue : value.WellFormed)
    (hfree : container.MethodFree) (hvalueFree : value.MethodFree)
    (hsome : container.isNever = false) (hsynonym : container.hasSynonym = false) :
    let table := source.program.table
    let result := storeElement table container index value
    result.tags = container.tags ∧ container.subtype table result = true ∧
      value.subtype table (indexed table result index).ty = true := by
  intro table result
  have htable := source.program_table_wellFormed
  have hmethods := source.program_table_methodFree
  exact ⟨storeElement_tags hcontainer.canonical,
    subtype_of_below htable hmethods hcontainer (hcontainer.storeElement hindex hvalue) hfree
      (below_storeElement hcontainer hindex hvalue),
    subtype_indexed_storeElement htable hmethods hcontainer hindex hvalue hvalueFree hsome hsynonym⟩

/-- A store at the second slot of pairs, beside dictionaries of trees. -/
theorem storeElement_widens_nestedLists :
    let table := nestedLists.program.table
    let tree := exact (.synonym (.one 1))
    let number := ofTags (.single .number)
    let one := exact (.number 1)
    let text := exact (.string "x")
    let pair := tuple [number, tree]
    let rows := dictionary number tree
    let result := storeElement table (pair.union rows) one text
    result = (tuple [number, tree.union text]).union (dictionary number (tree.union text)) ∧
      result.subtype table (pair.union rows) = false ∧
      (result.tags = (pair.union rows).tags ∧ (pair.union rows).subtype table result = true ∧
        text.subtype table (indexed table result one).ty = true) := by
  intro table tree number one text pair rows result
  exact ⟨by decide +kernel, by decide +kernel, storeElement_widens nestedLists (by decide +kernel)
    .literal .literal (by decide +kernel) .literal (by decide +kernel) (by decide +kernel)⟩

/-- What a store does to a type with typedefs, in every program and for well-formed types: it
changes the rest of the type and leaves what the typedefs stand for as it is. That is what it does
to the expanded type if the typedefs say nothing about the contents of arrays and dictionaries. If
they alone do, it is so only for stores that change nothing. -/
theorem expand_storeElement (source : Source) {t index value : Ty} (ht : t.WellFormed)
    (hindex : index.WellFormed) (hvalue : value.WellFormed) :
    let table := source.program.table
    let definition := referred table (t.slot .synonym)
    let stored := (storeElement table t index value).expand table
    let expanded := storeElement table (t.expand table) index value
    stored = (storeElement table (t.without (.single .synonym)) index value).union definition ∧
      (definition.payload? .array = none → definition.payload? .dictionary = none →
        stored = expanded) ∧
      (t.payload? .array = none → t.payload? .dictionary = none →
        (stored = expanded ↔ expanded = t.expand table)) := by
  intro table definition stored expanded
  have htable : table.WellFormed := source.program_table_wellFormed
  have hwithout : (t.without (.single .synonym)).WellFormed := ht.without _
  have hdefinition : definition.WellFormed := referred_wellFormed htable _
  have hresult : (storeElement table t index value).WellFormed := ht.storeElement hindex hvalue
  have hstored : stored =
      (storeElement table (t.without (.single .synonym)) index value).union definition := by
    rw [← storeElement_without ht]
    exact (expand_eq hresult htable).trans (by rw [slot_storeElement_eq ht.canonical (by simp)])
  refine ⟨hstored, ?_, ?_⟩
  · intro harray hdictionary
    rw [hstored, storeElement_union hwithout hdefinition hindex hvalue harray hdictionary,
      ← expand_eq ht htable]
  · intro harray hdictionary
    have hsame : storeElement table t index value = t := by
      refine Ty.Canonical.ext_slot hresult.canonical ht.canonical fun tag => ?_
      refine slot_storeElement_eq ht.canonical ?_
      rintro (rfl | rfl) <;> assumption
    have heq : stored = t.expand table := congrArg (expand table) hsame
    rw [heq]
    exact eq_comm

/-- The store of a text among trees is lost, and that of a number changes nothing anyway. -/
theorem expand_storeElement_nestedLists :
    let table := nestedLists.program.table
    let tree := exact (.synonym (.one 1))
    let one := exact (.number 1)
    let text := exact (.string "x")
    ((storeElement table tree one text).expand table ≠
        storeElement table (tree.expand table) one text ∧
      storeElement table (tree.expand table) one text ≠ tree.expand table) ∧
      (storeElement table tree one one).expand table =
        storeElement table (tree.expand table) one one := by
  intro table tree one text
  have hchanged : storeElement table (tree.expand table) one text ≠ tree.expand table := by
    decide +kernel
  refine ⟨⟨fun heq => hchanged ?_, hchanged⟩, ?_⟩
  · exact ((expand_storeElement nestedLists .ofDecls .literal .literal).2.2 rfl rfl).mp heq
  · exact ((expand_storeElement nestedLists .ofDecls .literal .literal).2.2 rfl rfl).mpr
      (by decide +kernel)

/-- Null that is stored in a tree is not read from it. -/
theorem storeElement_misses_typedefs :
    let table := nestedLists.program.table
    let tree := exact (.synonym (.one 1))
    let zero := exact (.number 0)
    (tree.WellFormed ∧ zero.WellFormed ∧ null.WellFormed) ∧
      (storeElement table tree zero .null).expand table ≠
        storeElement table (tree.expand table) zero .null ∧
      subtype table .null (indexed table (storeElement table tree zero .null) zero).ty = false := by
  decide +kernel

end TypeFlow
