import Mathlib.Order.Defs.Unbundled
import TypeFlow.Proofs.FormedPrograms

/-!
# Placing declarations

The first of the two walks by which a program is built collects the declarations of its tree. Every
walk over a part of the tree places its declarations in a region of its own: below the item at hand,
or at it and behind it. What has been declared stays, functions are declared where functions stand
in the tree, the values of enumeration members are formed, and no scope gets a declaration twice
under one name.
-/

namespace TypeFlow

open Array List Nat Option

variable {path place : List Nat}

/-- Every run of a walk relates the state before it to the state after it. -/
def Relates {σ α : Type} (R : σ → σ → Prop) (walk : StateM σ α) : Prop := ∀ s, R s (walk.run s).2

namespace Relates

variable {σ α β : Type} {R : σ → σ → Prop} [IsPreorder σ R]

theorem pure (a : α) : Relates R (Pure.pure a) := fun s => refl_of R s

theorem get : Relates R (MonadState.get : StateM σ σ) := fun s => refl_of R s

theorem bind {walk : StateM σ α} {rest : α → StateM σ β} (h : Relates R walk)
    (hrest : ∀ a, Relates R (rest a)) : Relates R (walk >>= rest) :=
  fun s => trans_of R (h s) (hrest _ _)

omit [IsPreorder σ R] in
theorem change {f : σ → σ} (h : ∀ s, R s (f s)) : Relates R (modify f : StateM σ Unit) := h

end Relates

/-! ### Places in the tree -/

/-- The last position of a path chooses among what the item before it contains. -/
theorem itemAt?_append {ι : Type} (items : List (Item ι)) (hpath : path ≠ []) (j : Nat) :
    itemAt? items (path ++ [j]) = (itemAt? items path).bind fun item => item.items[j]? := by
  induction path generalizing items with
  | nil => exact absurd rfl hpath
  | cons i rest ih =>
    cases rest with
    | nil => cases h : items[i]? <;> simp [itemAt?]
    | cons k rest =>
      have hrest (items : List (Item ι)) := ih items (cons_ne_nil k rest)
      cases h : items[i]? with
      | none => simp [itemAt?, h]
      | some item => simpa [itemAt?, h] using hrest item.items

/-- Below a place, at position `i` or a later one. -/
def PlacedFrom (place : List Nat) (i : Nat) (path : List Nat) : Prop :=
  ∃ j rest, i ≤ j ∧ path = place ++ j :: rest

theorem PlacedFrom.ne {i : Nat} (h : PlacedFrom place i path) : path ≠ place := by
  obtain ⟨j, rest, -, rfl⟩ := h
  simp

/-- At a position or below it. -/
def PlacedAt (place : List Nat) (i : Nat) (path : List Nat) : Prop :=
  ∃ rest, path = place ++ i :: rest

theorem PlacedAt.not_from {i : Nat} (h : PlacedAt place i path) :
    ¬ PlacedFrom place (i + 1) path := by
  obtain ⟨rest, rfl⟩ := h
  rintro ⟨j, rest', hj, heq⟩
  have hij := (List.cons.inj (append_cancel_left heq)).1
  omega

/-! ### Collecting declarations -/

variable {d : DeclId}

/-- A name gets one more declaration. -/
theorem mem_addMember {name : String} {members : List (String × List DeclId)}
    {m : String × List DeclId} (h : m ∈ addMember name d members) :
    m ∈ members ∨ m.2 = [d] ∨ ∃ n ∈ members, m.2 = n.2 ++ [d] := by
  induction members with
  | nil =>
    obtain rfl := mem_singleton.mp h
    exact .inr (.inl rfl)
  | cons n members ih =>
    unfold addMember at h
    split at h
    · rcases mem_cons.mp h with rfl | h
      · exact .inr (.inr ⟨n, mem_cons_self, rfl⟩)
      · exact .inl (mem_cons_of_mem _ h)
    · rcases mem_cons.mp h with rfl | h
      · exact .inl mem_cons_self
      · rcases ih h with h | h | ⟨n', hn', h⟩
        · exact .inl (mem_cons_of_mem _ h)
        · exact .inr (.inl h)
        · exact .inr (.inr ⟨n', mem_cons_of_mem _ hn', h⟩)

namespace Declared

variable {items : List (Item NodeId)} {R R' : List Nat → Prop} {s s' s'' : Declared}

/-- The declaration with a number. -/
def decl (s : Declared) (d : DeclId) : Decl := s.decls.getD d default

theorem decl_of_size_le (h : s.decls.size ≤ d) : s.decl d = default := by simp [decl, h]

theorem decl_push (s : Declared) (new : Decl) (declaredBy : Array (Option DeclId)) (d : DeclId) :
    decl { s with decls := s.decls.push new, declaredBy } d =
      if d = s.decls.size then new else s.decl d := by
  simp only [decl, getD_eq_getD_getElem?, getElem?_push]
  split <;> rfl

theorem decl_modify (s : Declared) (e : DeclId) (f : Decl → Decl) (d : DeclId) :
    decl { s with decls := s.decls.modify e f } d =
      if d = e ∧ e < s.decls.size then f (s.decl d) else s.decl d := by
  simp only [decl, Array.getD_eq_getD_getElem?, Array.getElem?_modify]
  by_cases hd : e = d
  · subst hd
    by_cases hsize : e < s.decls.size <;> simp [hsize]
  · simp [hd, Ne.symm hd]

/-- The members of all scopes are declarations, and none is there twice under one name. -/
def Tidy (s : Declared) : Prop :=
  ∀ e, ∀ m ∈ (s.decl e).members, (m.2 ≠ [] ∧ m.2.Nodup) ∧ ∀ d ∈ m.2, d < s.decls.size

variable {f : Decl → Decl}

theorem Tidy.modify (h : s.Tidy) (e : DeclId) (hf : ∀ x, (f x).members = x.members) :
    Tidy { s with decls := s.decls.modify e f } := by
  intro d m hm
  have hmembers : (decl { s with decls := s.decls.modify e f } d).members = (s.decl d).members := by
    rw [decl_modify]
    split
    · exact hf _
    · rfl
  rw [hmembers] at hm
  simpa using h d m hm

/-- What has been declared stays, new declarations stand at different places of a region, among them
functions where functions stand in the tree, the values of enumeration members are formed, and
members stay tidy. -/
structure Spreads (items : List (Item NodeId)) (R : List Nat → Prop) (s s' : Declared) : Prop where
  size : s.decls.size ≤ s'.decls.size
  kept : ∀ d < s.decls.size,
    (s'.decl d).kind = (s.decl d).kind ∧ (s'.decl d).path? = (s.decl d).path?
  placed : ∀ d path, s.decls.size ≤ d → (s'.decl d).path? = some path →
    R path ∧ ∀ f, itemAt? items path = some (.function f) → (s'.decl d).kind = .function
  apart : ∀ d e path, s.decls.size ≤ d → s.decls.size ≤ e → (s'.decl d).path? = some path →
    (s'.decl e).path? = some path → d = e
  values : ∀ d t, s'.enumValues.get? d = some t →
    s.enumValues.get? d = some t ∨ ∀ strict, t.Formed strict
  nodes : s'.declaredBy.size = s.declaredBy.size
  tidy : s.Tidy → s'.Tidy

section

variable (h : Spreads items R s s')

include h

/-- Two walks that place declarations in different regions. -/
theorem Spreads.trans (h' : Spreads items R' s' s'') (hR : ∀ path, R path → ¬ R' path) :
    Spreads items (fun path => R path ∨ R' path) s s'' where
  size := h.size.trans h'.size
  kept d hd := by
    obtain ⟨hkind, hpath⟩ := h'.kept d (hd.trans_le h.size)
    exact ⟨hkind.trans (h.kept d hd).1, hpath.trans (h.kept d hd).2⟩
  placed d path hd hpath := by
    by_cases hsize : d < s'.decls.size
    · obtain ⟨hkind, hsame⟩ := h'.kept d hsize
      exact (h.placed d path hd (hsame ▸ hpath)).imp .inl fun hf f hitem => hkind.trans (hf f hitem)
    · exact (h'.placed d path (Nat.le_of_not_lt hsize) hpath).imp_left .inr
  apart d e path hd he hpath hpath' := by
    have hold {d : DeclId} (hd : s.decls.size ≤ d) (hsize : d < s'.decls.size)
        (hpath : (s''.decl d).path? = some path) : R path :=
      (h.placed d path hd ((h'.kept d hsize).2 ▸ hpath)).1
    have hnew {d : DeclId} (hsize : ¬ d < s'.decls.size)
        (hpath : (s''.decl d).path? = some path) : R' path :=
      (h'.placed d path (Nat.le_of_not_lt hsize) hpath).1
    by_cases hsize : d < s'.decls.size <;> by_cases hsize' : e < s'.decls.size
    · exact h.apart d e path hd he ((h'.kept d hsize).2 ▸ hpath) ((h'.kept e hsize').2 ▸ hpath')
    · exact absurd (hnew hsize' hpath') (hR path (hold hd hsize hpath))
    · exact absurd (hnew hsize hpath) (hR path (hold he hsize' hpath'))
    · exact h'.apart d e path (Nat.le_of_not_lt hsize) (Nat.le_of_not_lt hsize') hpath hpath'
  values d t ht := (h'.values d t ht).elim (h.values d t) .inr
  nodes := h'.nodes.trans h.nodes
  tidy htidy := h'.tidy (h.tidy htidy)

theorem Spreads.mono (hR : ∀ path, R path → R' path) : Spreads items R' s s' :=
  { h with placed := fun d path hd hpath => (h.placed d path hd hpath).imp_left (hR path) }

/-- A change that keeps kinds and places. -/
theorem Spreads.modify (e : DeclId) (hf : ∀ x, (f x).kind = x.kind ∧ (f x).path? = x.path?)
    (htidy : s.Tidy → Tidy { s' with decls := s'.decls.modify e f }) :
    Spreads items R s { s' with decls := s'.decls.modify e f } := by
  have hkept (d : DeclId) : (decl { s' with decls := s'.decls.modify e f } d).kind =
      (s'.decl d).kind ∧
        (decl { s' with decls := s'.decls.modify e f } d).path? = (s'.decl d).path? := by
    rw [decl_modify]
    split
    · exact hf _
    · exact ⟨rfl, rfl⟩
  exact {
    size := by simpa using h.size
    kept := fun d hd => ⟨(hkept d).1.trans (h.kept d hd).1, (hkept d).2.trans (h.kept d hd).2⟩
    placed := fun d path hd hpath => by
      rw [(hkept d).1]
      exact h.placed d path hd ((hkept d).2 ▸ hpath)
    apart := fun d d' path hd hd' hpath hpath' =>
      h.apart d d' path hd hd' ((hkept d).2 ▸ hpath) ((hkept d').2 ▸ hpath')
    values := h.values
    nodes := h.nodes
    tidy := htidy }

end

/-- A walk that places nothing. -/
abbrev Keeps (items : List (Item NodeId)) : Declared → Declared → Prop :=
  Spreads items fun _ => False

theorem Keeps.push (s : Declared) {new : Decl} (hpath : new.path? = none)
    (hmembers : new.members = []) {declaredBy : Array (Option DeclId)}
    (hnodes : declaredBy.size = s.declaredBy.size) :
    Keeps items s { s with decls := s.decls.push new, declaredBy } := by
  have hnone (d : DeclId) (hd : s.decls.size ≤ d) :
      (decl { s with decls := s.decls.push new, declaredBy } d).path? = none := by
    rw [decl_push]
    split
    · exact hpath
    · rw [decl_of_size_le hd]
      rfl
  refine ⟨by simp, fun d hd => by simp [decl_push, Nat.ne_of_lt hd],
    fun d path hd h => absurd h (by simp [hnone d hd]),
    fun d e path hd _ h => absurd h (by simp [hnone d hd]), fun _ _ => .inl, hnodes,
    fun htidy d m hm => ?_⟩
  rw [decl_push] at hm
  split at hm
  · simp [hmembers] at hm
  · obtain ⟨hnodup, hlt⟩ := htidy d m hm
    exact ⟨hnodup, fun x hx => (hlt x hx).trans (by simp)⟩

/-- The value of an enumeration member is noted. -/
theorem Keeps.of_values (s : Declared) {values : NumMap Ty} (hvalues : ∀ d t,
    values.get? d = some t → s.enumValues.get? d = some t ∨ ∀ strict, t.Formed strict) :
    Keeps items s { s with enumValues := values } := by
  have hnone (d : DeclId) (hd : s.decls.size ≤ d) : (s.decl d).path? = none := by
    rw [decl_of_size_le hd]
    rfl
  exact ⟨le_refl _, fun _ _ => ⟨rfl, rfl⟩,
    fun d path hd h => absurd ((hnone d hd).symm.trans h) (by simp),
    fun d e path hd _ h => absurd ((hnone d hd).symm.trans h) (by simp), hvalues, rfl, id⟩

instance : IsPreorder Declared (Keeps items) where
  refl s := .of_values s fun _ _ => .inl
  trans _ _ _ h h' := (h.trans h' fun _ h => h.elim).mono fun _ h => h.elim id id

theorem Keeps.spreads (h : Keeps items s s') (h' : Spreads items R s' s'') :
    Spreads items R s s'' :=
  (h.trans h' fun _ h => h.elim).mono fun _ h => h.resolve_left id

/-- The place of a new declaration is noted, of which nothing stands there yet. -/
theorem Spreads.locate (h : Spreads items R s s') {e : DeclId} {place : List Nat}
    (he : s.decls.size ≤ e) (hplace : ¬ R place)
    (hkind : ∀ f, itemAt? items place = some (.function f) → (s'.decl e).kind = .function) :
    Spreads items (fun path => R path ∨ path = place) s
      { s' with decls := s'.decls.modify e fun x => { x with path? := some place } } where
  size := by simpa using h.size
  kept d hd := by
    have hne : ¬(d = e ∧ e < s'.decls.size) := fun hde => absurd hd (Nat.not_lt_of_le (hde.1 ▸ he))
    rw [decl_modify, if_neg hne]
    exact h.kept d hd
  placed d path hd hpath := by
    rw [decl_modify] at hpath ⊢
    split at hpath
    · next hde =>
      cases hpath
      rw [if_pos hde]
      exact ⟨.inr rfl, fun f hf => hde.1 ▸ hkind f hf⟩
    · next hde =>
      rw [if_neg hde]
      exact (h.placed d path hd hpath).imp_left .inl
  apart d d' path hd hd' hpath hpath' := by
    rw [decl_modify] at hpath hpath'
    split at hpath <;> split at hpath'
    · next hde hde' => exact hde.1.trans hde'.1.symm
    · cases hpath
      exact absurd (h.placed d' _ hd' hpath').1 hplace
    · cases hpath'
      exact absurd (h.placed d _ hd hpath).1 hplace
    · exact h.apart d d' path hd hd' hpath hpath'
  values := h.values
  nodes := h.nodes
  tidy htidy := (h.tidy htidy).modify e fun _ => rfl

/-- A declaration that a scope does not have yet becomes a member of it. -/
theorem Keeps.register (h : Keeps items s s') (scope : DeclId) (name : String)
    (hd : d < s'.decls.size) (hnew : s.Tidy → ∀ m ∈ (s'.decl scope).members, d ∉ m.2) :
    Keeps items s { s' with decls := s'.decls.modify scope fun decl =>
      { decl with members := addMember name d decl.members } } := by
  refine h.modify scope (fun _ => ⟨rfl, rfl⟩) fun htidy e m hm => ?_
  rw [decl_modify] at hm
  rw [size_modify]
  split at hm
  · next he =>
    obtain ⟨rfl, -⟩ := he
    rcases mem_addMember hm with hm | hm | ⟨n, hn, hm⟩
    · exact h.tidy htidy e m hm
    · simp [hm, hd]
    · obtain ⟨hnodup, hlt⟩ := h.tidy htidy e n hn
      rw [hm]
      refine ⟨⟨by simp, hnodup.2.append (nodup_singleton d)
        (disjoint_singleton.mpr (hnew htidy n hn))⟩, ?_⟩
      exact forall_mem_append.mpr ⟨hlt, by simpa using hd⟩
  · exact h.tidy htidy e m hm

end Declared

namespace Declaring

open Declared (Keeps)

variable {items : List (Item NodeId)}

theorem update_keeps (d : DeclId) {f : Decl → Decl}
    (hf : ∀ x, (f x).kind = x.kind ∧ (f x).path? = x.path? ∧ (f x).members = x.members) :
    Relates (Keeps items) (update d f) := .change fun s =>
  (refl_of (Keeps items) s).modify d (fun x => ⟨(hf x).1, (hf x).2.1⟩) fun htidy =>
    htidy.modify d fun x => (hf x).2.2

theorem add_keeps (kind : DeclKind) (name : String) (node : NodeId) (parent : DeclId) :
    Relates (Keeps items) (add kind name node parent) :=
  fun s => .push s rfl rfl size_setIfInBounds

variable (kind : DeclKind) (name : String) (node : NodeId) (parent : DeclId)

/-- A new declaration gets the next number and the given kind. -/
theorem addMember_new (s : Declared) : ((addMember kind name node parent).run s).1 = s.decls.size ∧
      s.decls.size < ((addMember kind name node parent).run s).2.decls.size ∧
      (((addMember kind name node parent).run s).2.decl s.decls.size).kind = kind := by
  refine ⟨rfl, ?_, ?_⟩
  · change s.decls.size < ((s.decls.push _).modify parent _).size
    simp
  · change (Declared.decl { s with
      decls := (s.decls.push _).modify parent _, declaredBy := _ } _).kind = kind
    rw [Declared.decl_modify { s with decls := s.decls.push _, declaredBy := _ },
      Declared.decl_push, if_pos rfl]
    exact iteInduction (motive := fun decl : Decl => decl.kind = kind) (fun _ => rfl) fun _ => rfl

/-- A new declaration is a member of its parent only. -/
theorem addMember_members (s : Declared) {scope : DeclId} (hscope : scope ≠ parent) :
    ∀ m ∈ (((addMember kind name node parent).run s).2.decl scope).members,
      m ∈ (s.decl scope).members := by
  intro m hm
  change m ∈ (Declared.decl { s with
    decls := (s.decls.push _).modify parent _, declaredBy := _ } scope).members at hm
  rw [Declared.decl_modify { s with decls := s.decls.push _, declaredBy := _ },
    if_neg fun h => hscope h.1, Declared.decl_push] at hm
  split at hm
  · simp at hm
  · exact hm

theorem addMember_keeps : Relates (Keeps items) (addMember kind name node parent) := by
  intro s
  have hpushed : Keeps items s _ := add_keeps kind name node parent s
  refine hpushed.register parent name ?_ ?_
  · change s.decls.size < (s.decls.push _).size
    simp
  · intro htidy m hm hmem
    change m ∈ (Declared.decl { s with decls := s.decls.push _, declaredBy := _ } _).members at hm
    rw [Declared.decl_push] at hm
    split at hm
    · simp at hm
    · exact lt_irrefl _ ((htidy _ m hm).2 _ hmem)

end Declaring

section

open Declared (Keeps Spreads)
open Declaring

variable {items : List (Item NodeId)} {scope parent : DeclId} {rest : DeclId → Declaring Unit}
  {s : Declared}

theorem declareParams_keeps (function : DeclId) (ps : List (Param NodeId)) :
    Relates (Keeps items) (declareParams function ps) := by
  induction ps with
  | nil => exact .pure _
  | cons p ps ih =>
    exact (add_keeps _ _ _ _).bind fun d => (update_keeps d (by simp)).bind fun _ =>
      ih.bind fun _ => .pure _

/-- A function is declared as a function. -/
theorem declareFunction_keeps (scope : DeclId) (f : Function NodeId) (s : Declared) :
    Keeps items s ((declareFunction scope f).run s).2 ∧
      s.decls.size ≤ ((declareFunction scope f).run s).1 ∧
      (((declareFunction scope f).run s).2.decl ((declareFunction scope f).run s).1).kind =
        .function := by
  let added := (Declaring.addMember .function f.name f.id scope).run s
  have hadded : Keeps items s added.2 := addMember_keeps _ _ _ _ s
  obtain ⟨hnumber, hsize, hkind⟩ := addMember_new .function f.name f.id scope s
  have hrest : Relates (Keeps items) (do
      let params ← declareParams added.1 f.params
      update added.1 fun decl =>
        { decl with
          params, spec? := f.returns?, isStatic := f.isStatic, isExempt := f.isExempt }) :=
    (declareParams_keeps _ _).bind fun _ => update_keeps _ (by simp)
  refine ⟨trans_of (Keeps items) hadded (hrest added.2), hnumber.ge, ?_⟩
  exact ((hrest added.2).kept added.1 (hnumber ▸ hsize)).1.trans (hnumber ▸ hkind)

/-- The member of a named enumeration becomes a member of the scope around it as well. -/
theorem register_keeps {owner : DeclId} (hne : scope ≠ owner) (name : String) (node : NodeId) :
    Relates (Keeps items) (do
      let d ← Declaring.addMember .enumMember name node owner
      register scope name d) := by
  intro s
  obtain ⟨hnumber, hsize, -⟩ := addMember_new .enumMember name node owner s
  refine (addMember_keeps .enumMember name node owner s).register scope name
    (hnumber ▸ hsize) fun htidy m hm hmem => ?_
  have hold := addMember_members .enumMember name node owner s hne m hm
  exact lt_irrefl _ (hnumber ▸ (htidy scope m hold).2 _ hmem)

theorem declareEnumMembers_keeps {owner? : Option DeclId}
    (howner : ∀ owner, owner? = some owner → scope ≠ owner) (members : List (EnumMember NodeId))
    {next : Ty} (hnext : ∀ strict, next.Formed strict) :
    Relates (Keeps items) (declareEnumMembers scope owner? next members) := by
  induction members generalizing next with
  | nil => exact .pure _
  | cons e es ih =>
    have hrest (d : DeclId) {value : Ty} (hvalue : ∀ strict, value.Formed strict) :
        Relates (Keeps items) (do
          modify fun s : Declared => { s with enumValues := s.enumValues.insert d value }
          declareEnumMembers scope owner? (enumSuccessor value) es) := by
      refine (Relates.change fun s => .of_values s fun k t ht => ?_).bind fun _ =>
        ih fun strict => enumSuccessor_formed value
      rw [NumMap.get?_insert] at ht
      split at ht
      · exact .inr (some.inj ht ▸ hvalue)
      · exact .inl ht
    obtain ⟨id, name, init?⟩ := e
    cases owner? with
    | none =>
      refine (addMember_keeps _ _ _ _).bind fun d => hrest d fun strict => ?_
      cases init? with
      | none => exact hnext strict
      | some init => exact enumLiteral_formed init
    | some owner =>
      refine fun s => trans_of (Keeps items) (register_keeps (howner owner rfl) name id s)
        (hrest _ (fun strict => ?_) _)
      cases init? with
      | none => exact hnext strict
      | some init => exact enumLiteral_formed init

variable {R : List Nat → Prop} {kind : DeclKind} {name : String} {node : NodeId}

/-- A declaration followed by what belongs to it. -/
theorem declareWith_spreads
    (hrest : ∀ s' : Declared, s.decls.size < s'.decls.size → Spreads items R s' ((rest
      s.decls.size).run s').2) :
    let out := (do
      let d ← Declaring.addMember kind name node parent
      rest d
      return some d : Declaring (Option DeclId)).run s
    Spreads items R s out.2 ∧ ∀ d, out.1 = some d → s.decls.size ≤ d := by
  obtain ⟨hnumber, hsize, -⟩ := addMember_new kind name node parent s
  refine ⟨(addMember_keeps kind name node parent s).spreads ?_, fun d hd => ?_⟩
  · have hspreads := hrest _ hsize
    rwa [← hnumber] at hspreads
  · exact hnumber.symm.trans_le (some.inj hd).le

theorem declareWith_keeps (hrest : ∀ d, Relates (Keeps items) (rest d)) :
    let out := (do
      let d ← Declaring.addMember kind name node parent
      rest d
      return some d : Declaring (Option DeclId)).run s
    Spreads items R s out.2 ∧ ∀ d, out.1 = some d → s.decls.size ≤ d :=
  declareWith_spreads fun s' _ => (hrest _ s').mono fun _ => False.elim

theorem declareEnum_keeps (e : EnumDecl NodeId) (hscope : scope < s.decls.size) :
    Keeps items s ((declareEnum scope e).run s).2 ∧
      ∀ d, ((declareEnum scope e).run s).1 = some d → s.decls.size ≤ d := by
  have hzero (strict : Demands) : (Ty.number 0).Formed strict := .literal
  obtain ⟨id, name?, members⟩ := e
  cases name? with
  | none =>
    have hanonymous : ∀ owner, (none : Option DeclId) = some owner → scope ≠ owner := by simp
    exact ⟨declareEnumMembers_keeps hanonymous members hzero s, fun d hd => by cases hd⟩
  | some name =>
    refine declareWith_spreads fun s' _ => declareEnumMembers_keeps ?_ members hzero s'
    rintro owner ⟨⟩
    exact Nat.ne_of_lt hscope

mutual

theorem declareItem_spreads {scope : DeclId} (place : List Nat) : ∀ (item : Item NodeId)
    {s : Declared}, scope < s.decls.size →
    (∀ j, itemAt? items (place.reverse ++ [j]) = item.items[j]?) →
    (Spreads items (PlacedFrom place.reverse 0) s ((declareItem scope place item).run s).2 ∧
      ∀ d, ((declareItem scope place item).run s).1 = some d → s.decls.size ≤ d) ∧
    ∀ d f, ((declareItem scope place item).run s).1 = some d → item = .function f →
      (((declareItem scope place item).run s).2.decl d).kind = .function
  | .module _ _ inner, _, _, hplace | .cls _ _ _ inner, _, _, hplace =>
    ⟨declareWith_spreads fun _ hsize => declareItems_spreads place 0 inner hsize
      (by simpa [Item.items] using hplace), by simp⟩
  | .function f, s, _, _ => by
    obtain ⟨hkeeps, hnew, hkind⟩ := declareFunction_keeps scope f s
    refine ⟨⟨hkeeps.mono fun _ => False.elim, fun d hd => ?_⟩, fun d g hd _ => ?_⟩
    · exact hnew.trans (some.inj hd).le
    · exact some.inj hd ▸ hkind
  | .enum e, _, hscope, _ => by
    obtain ⟨hkeeps, hnew⟩ := declareEnum_keeps e hscope
    exact ⟨⟨hkeeps.mono fun _ => False.elim, hnew⟩, by simp⟩
  | .var v, _, _, _ | .synonym _ _ spec, _, _, _ =>
    ⟨declareWith_keeps fun d => update_keeps d (by simp), by simp⟩

theorem declareItems_spreads {scope : DeclId} (place : List Nat) (i : Nat) :
    ∀ (rest : List (Item NodeId)) {s : Declared}, scope < s.decls.size →
    (∀ j, itemAt? items (place.reverse ++ [i + j]) = rest[j]?) →
    Spreads items (PlacedFrom place.reverse i) s ((declareItems scope place i rest).run s).2
  | [], s, _, _ => (refl_of (Keeps items) s).mono fun _ => False.elim
  | item :: rest, s, hscope, hplace => by
    have hhere : itemAt? items (i :: place).reverse = some item := by simpa using hplace 0
    have hinner (j : Nat) : itemAt? items ((i :: place).reverse ++ [j]) = item.items[j]? := by
      rw [itemAt?_append items (by simp), hhere]
      rfl
    obtain ⟨⟨hitem, hnew⟩, hkind⟩ := declareItem_spreads (i :: place) item hscope hinner
    have hat {path : List Nat} (h : PlacedFrom (i :: place).reverse 0 path ∨
        path = (i :: place).reverse) : PlacedAt place.reverse i path := by
      rcases h with ⟨j, rest, -, rfl⟩ | rfl
      · exact ⟨j :: rest, by simp⟩
      · exact ⟨[], by simp⟩
    have hrest {s' : Declared} (hlocated : Spreads items (PlacedAt place.reverse i) s s') :
        Spreads items (PlacedFrom place.reverse i) s
          ((declareItems scope place (i + 1) rest).run s').2 := by
      have hmore := declareItems_spreads place (i + 1) rest (hscope.trans_le hlocated.size)
        fun j => by simpa [add_assoc, add_comm 1] using hplace (j + 1)
      refine (hlocated.trans hmore fun _ => PlacedAt.not_from).mono ?_
      rintro path (⟨rest, rfl⟩ | ⟨j, rest, hj, rfl⟩)
      · exact ⟨i, rest, le_refl _, rfl⟩
      · exact ⟨j, rest, le_of_succ_le hj, rfl⟩
    unfold declareItems
    rw [StateT.run_bind]
    generalize hout : (declareItem scope (i :: place) item).run s = out at hitem hnew hkind
    obtain ⟨result, after⟩ := out
    cases result with
    | none => exact hrest (hitem.mono fun _ h => hat (.inl h))
    | some d =>
      have hlocated := hitem.locate (hnew d rfl) (fun h => h.ne rfl) fun f hf =>
        hkind d f rfl (some.inj (hhere.symm.trans hf))
      exact hrest (hlocated.mono fun _ => hat)

end

end

namespace Module

variable (root : Module NodeId) (nodes : Nat)

/-- The declarations before the walk over the items: only the outermost module. -/
theorem declared_spreads : ∃ start : Declared,
    start.decls.size = 1 ∧ (start.decl 0).path? = none ∧ start.enumValues = {} ∧
      start.declaredBy.size = nodes ∧ start.Tidy ∧
      start.Spreads root.items (PlacedFrom [] 0) (root.declared nodes) := by
  refine ⟨_, rfl, rfl, rfl, by simp, fun e m hm => ?_,
    declareItems_spreads [] 0 root.items one_pos (by simp [itemAt?])⟩
  cases e with
  | zero => simp [Declared.decl] at hm
  | succ e => simp [Declared.decl, default] at hm

/-- Every place is that of one declaration and not the one where all items stand, and where a
function stands in the tree a function is declared. -/
theorem declared_placed (hpath : ((root.declared nodes).decl d).path? = some path) :
    path ≠ [] ∧ (∀ e, ((root.declared nodes).decl e).path? = some path → d = e) ∧
      ∀ f, itemAt? root.items path = some (.function f) →
        ((root.declared nodes).decl d).kind = .function := by
  obtain ⟨start, hsize, hstart, -, -, -, hspreads⟩ := declared_spreads root nodes
  -- The outermost module is the only declaration without a place that was there at the start.
  have hnew {d : DeclId} (hd : ((root.declared nodes).decl d).path? = some path) :
      start.decls.size ≤ d := by
    refine Nat.le_of_not_lt fun hlt => ?_
    obtain rfl : d = 0 := Nat.lt_one_iff.mp (hsize ▸ hlt)
    rw [(hspreads.kept 0 hlt).2, hstart] at hd
    cases hd
  obtain ⟨hplaced, hkind⟩ := hspreads.placed d path (hnew hpath) hpath
  exact ⟨hplaced.ne, fun e he => hspreads.apart d e path (hnew hpath) (hnew he) hpath he, hkind⟩

theorem declared_values {strict : Demands} {t : Ty}
    (h : (root.declared nodes).enumValues.get? d = some t) : t.Formed strict := by
  obtain ⟨start, -, -, hvalues, -, -, hspreads⟩ := declared_spreads root nodes
  rcases hspreads.values d t h with h | h
  · rw [hvalues] at h
    exact absurd h (by simp [show (∅ : NumMap Ty).get? d = none from rfl])
  · exact h strict

theorem size_declaredBy : (root.declared nodes).declaredBy.size = nodes := by
  obtain ⟨start, -, -, -, hnodes, -, hspreads⟩ := declared_spreads root nodes
  exact hspreads.nodes.trans hnodes

end Module

end TypeFlow
