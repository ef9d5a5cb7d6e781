import Mathlib
import TypeFlow.Proofs.GraphKeys

/-!
# Requests for keys

Keys are asked for one after the other: for identities, for names, for literals and for members of
what has a key. Whatever has been asked for, equal identities have the same key and different ones
have different keys, and these are numbered in the order in which the identities first appear. The
index has every identity under its key and nothing else.
-/

namespace TypeFlow

open DeclSet List

/-- A request for the key of an identity, of a name with its declarations, of a literal or of a
member of what another key names. -/
inductive Request where
  | identity (i : Identity)
  | name (found : List DeclId)
  | literal (value : Literal)
  | member (base : Key) (property : String)

/-- Literals of the same kind and text are the same. -/
theorem Literal.raw_inj {v w : Literal} : v.raw = w.raw ↔ v = w := by
  refine ⟨fun h => ?_, congrArg raw⟩
  cases v <;> cases w <;> simp [raw, Int.repr_inj, Nat.repr_inj] at h ⊢
  case bool.bool => revert h; decide +revert
  case number.number => exact Int32.toInt_inj.mp h
  case long.long => exact Int64.toInt_inj.mp h
  case float.float x y =>
    cases x
    exact congrArg Single.mk (UInt32.toNat_inj.mp h)
  case double.double x y =>
    cases x
    exact congrArg Double.mk (UInt64.toNat_inj.mp h)
  case char.char => exact Char.toNat_inj.mp h
  case string.string => exact h

namespace Identities

variable {ids : Identities} {i : Identity} {key : Key}

/-- The identity that a request is about. -/
def requested (ids : Identities) : Request → Identity
  | .identity i => i
  | .name found => ofDecls found
  | .literal value => ofLiteral value
  | .member base property => ids.memberOf base property

/-- The members by which a key is reached from its root. -/
def pathOf (ids : Identities) (k : Key) : List String :=
  match ids.get k with
  | .member _ path => path
  | _ => []

theorem memberOf_eq (ids : Identities) (base : Key) (property : String) :
    ids.memberOf base property = .member (ids.rootOf base) (ids.pathOf base ++ [property]) := by
  unfold memberOf rootOf pathOf
  split <;> simp_all

/-- The requests that have been answered, as identities with their keys, and what has been
collected. -/
structure History where
  answers : List (Identity × Key) := []
  ids : Identities := .empty

/-- Answers one more request, unless something is wrong with it. -/
def History.respond (h : History) (r : Request) : History :=
  match h.ids.intern (h.ids.requested r) with
  | .ok (key, ids) => ⟨h.answers ++ [(h.ids.requested r, key)], ids⟩
  | .error _ => h

/-- Answers some requests from the beginning. -/
def History.of (requests : List Request) : History := requests.foldl .respond {}

/-- The next request is answered with a key. -/
def History.Answers (h : History) (r : Request) (key : Key) : Prop :=
  (h.respond r).answers = h.answers ++ [(h.ids.requested r, key)]

/-- The identities are canonical and have been collected in the order in which they first appear,
the answers are their keys, and paths of members start at earlier keys. -/
structure History.Sound (h : History) : Prop where
  first : h.ids.keys.toList = (h.answers.map Prod.fst).eraseDups
  answers : ∀ e ∈ h.answers, h.ids.keys[e.2]? = some e.1
  canonical : h.ids.Canonical
  earlier : ∀ (key : Key) base path, h.ids.keys[key]? = some (.member base path) → base < key

variable {h : History} {found : List DeclId}

theorem History.Sound.respond (hsound : h.Sound) (r : Request) :
    (h.respond r).Sound ∧ h.ids.Extends (h.respond r).ids := by
  unfold History.respond
  generalize h.ids.requested r = i
  have hmem : i ∈ h.ids.keys ↔ i ∈ h.answers.map Prod.fst := by
    rw [← Array.mem_toList_iff, hsound.first, mem_eraseDups]
  split
  · next key ids hintern =>
    obtain ⟨hfault, hids⟩ := intern_inv hintern
    obtain ⟨_, _, hrun, hextends, hcanonical, -⟩ := intern_of_fault? hsound.canonical hfault
    cases hintern.symm.trans hrun
    refine ⟨⟨?_, ?_, hcanonical, fun k base path hpath => ?_⟩, hextends⟩
    · rw [map_append, eraseDups_append, ← hsound.first]
      rcases hids with ⟨rfl, hkey⟩ | ⟨hnew, rfl, rfl⟩
      · simp [removeAll, hmem.mp (Array.mem_of_getElem? hkey)]
      · have hmissing : i ∉ h.ids.keys := fun hi => by
          obtain ⟨key, hkey⟩ := Array.mem_iff_getElem?.mp hi
          simp [(h.ids.inStep i key).mpr hkey] at hnew
        simp [removeAll, mt hmem.mpr hmissing, eraseDups_cons, add]
    · exact forall_mem_append.mpr ⟨fun e he => hextends _ _ (hsound.answers e he),
        forall_mem_singleton.mpr (getElem?_of_intern hintern)⟩
    · rcases hids with ⟨rfl, -⟩ | ⟨_, rfl, rfl⟩
      · exact hsound.earlier k base path hpath
      · rw [add, Array.getElem?_push] at hpath
        split at hpath
        · next hlast =>
          cases hpath
          obtain ⟨-, j, hbase, -⟩ := fault?_member_eq_none_iff.mp hfault
          exact hlast ▸ (Array.getElem?_eq_some_iff.mp hbase).1
        · exact hsound.earlier k base path hpath
  · exact ⟨hsound, .refl _⟩

theorem History.sound_of (requests : List Request) : (History.of requests).Sound :=
  foldl_invariant (fun _ hsound r _ => (hsound.respond r).1)
    ⟨rfl, by simp, ⟨by simp, by simp⟩, by simp⟩

theorem History.extends_of (requests later : List Request) :
    (History.of requests).ids.Extends (History.of (requests ++ later)).ids := by
  rw [History.of, History.of, foldl_append]
  exact (foldl_invariant (P := fun h : History => h.Sound ∧ (History.of requests).ids.Extends h.ids)
    (fun _ h r _ => (h.1.respond r).imp_right h.2.trans) ⟨sound_of requests, .refl _⟩).2

theorem History.Sound.answers_iff (hsound : h.Sound) {r : Request} :
    (∃ key, h.Answers r key) ↔ h.ids.fault? (h.ids.requested r) = none := by
  unfold Answers History.respond
  cases hfault : h.ids.fault? (h.ids.requested r) with
  | none =>
    obtain ⟨key, ids, hrun, -⟩ := intern_of_fault? hsound.canonical hfault
    rw [hrun]
    exact ⟨fun _ => rfl, fun _ => ⟨key, rfl⟩⟩
  | some error =>
    rw [intern, hfault]
    simp

/-- Answers have the same key if they are for the same identity. -/
theorem History.Sound.key_eq_iff (hsound : h.Sound) {e e' : Identity × Key} (he : e ∈ h.answers)
    (he' : e' ∈ h.answers) : e.2 = e'.2 ↔ e.1 = e'.1 := by
  have hkey := hsound.answers e he
  have hkey' := hsound.answers e' he'
  constructor
  · intro heq
    rw [heq, hkey'] at hkey
    exact (Option.some_inj.mp hkey).symm
  · intro heq
    exact key_unique hkey (heq ▸ hkey')

/-- The index has exactly the answers. -/
theorem History.Sound.index_iff (hsound : h.Sound) :
    h.ids.index.lookup i = some key ↔ (i, key) ∈ h.answers := by
  rw [h.ids.inStep]
  refine ⟨fun hkey => ?_, hsound.answers (i, key)⟩
  have hmem := Array.mem_toList_iff.mpr (Array.mem_of_getElem? hkey)
  rw [hsound.first, mem_eraseDups] at hmem
  obtain ⟨⟨j, k⟩, he, rfl⟩ := mem_map.mp hmem
  exact key_unique (hsound.answers _ he) hkey ▸ he

/-- The identity of a name is that of the set of its declarations, if nothing is wrong with it. -/
theorem ofDecls_ofList (h : ids.fault? (ofDecls found) = none) :
    ofDecls (DeclSet.ofList found).ids = ofDecls found := by
  cases found with
  | nil => rfl
  | cons d found =>
    cases found with
    | nil => rfl
    | cons e found =>
      have hsize : ¬ (DeclSet.ofList (d :: e :: found)).size < 2 := fun hlt => by
        have hfault : ids.fault? (ofDecls (d :: e :: found)) = some _ := if_pos hlt
        cases hfault.symm.trans h
      have hsame : DeclSet.ofList (DeclSet.ofList (d :: e :: found)).ids =
          DeclSet.ofList (d :: e :: found) := DeclSet.ext_mem fun _ => DeclSet.mem_ofList
      unfold ofDecls
      split <;> simp_all [DeclSet.size]

/-- Names with which nothing is wrong have the same identity if they mean the same. -/
theorem ofDecls_eq_iff {found' : List DeclId} (h : ids.fault? (ofDecls found) = none)
    (h' : ids.fault? (ofDecls found') = none) :
    ofDecls found = ofDecls found' ↔ ∀ d, d ∈ found ↔ d ∈ found' := by
  constructor
  · intro heq d
    unfold ofDecls at heq
    split at heq <;> split at heq <;> simp_all
    rw [← mem_ofList, heq, mem_ofList]
  · intro hsame
    have hsets : ofList found = ofList found' := ext_mem fun d => by simp [hsame]
    rw [← ofDecls_ofList h, ← ofDecls_ofList h', hsets]

/-- Over any history, keys number the identities in the order in which these first appear, each
identity has one key for good, names are told apart by what they mean, and paths of members are
flat. -/
theorem interning_canonical (requests : List Request) :
    let h := History.of requests
    h.ids.keys.toList = (h.answers.map Prod.fst).eraseDups ∧
      (∀ e ∈ h.answers, h.ids.keys[e.2]? = some e.1) ∧
      (∀ i key, h.ids.index.lookup i = some key ↔ (i, key) ∈ h.answers) ∧
      (∀ e ∈ h.answers, ∀ e' ∈ h.answers, e.2 = e'.2 ↔ e.1 = e'.1) ∧
      (∀ v w, h.ids.requested (.literal v) = h.ids.requested (.literal w) ↔ v = w) ∧
      (∀ found found' k k', h.Answers (.name found) k → h.Answers (.name found') k' →
        (h.ids.requested (.name found) = h.ids.requested (.name found') ↔
          ∀ d, d ∈ found ↔ d ∈ found')) ∧
      (∀ (key : Key) base path, h.ids.keys[key]? = some (.member base path) →
        path ≠ [] ∧ base < key ∧ ∀ root rest, h.ids.get base ≠ .member root rest) ∧
      (∀ v, ∃ k, h.Answers (.literal v) k) ∧
      (∀ found, found.Nodup → ∃ k, h.Answers (.name found) k) ∧
      (∀ base < h.ids.size, ∀ p, ∃ k, h.Answers (.member base p) k) ∧
      (∀ r, (∀ k, ¬ h.Answers r k) → h.respond r = h) ∧
      (∀ later, ∀ key < h.ids.size, (History.of (requests ++ later)).ids.get key = h.ids.get key) ∧
      ∀ base p key, h.Answers (.member base p) key → ∀ later q,
        (History.of (requests ++ .member base p :: later)).ids.requested (.member key q) =
          .member (h.ids.rootOf base) (h.ids.pathOf base ++ [p, q]) := by
  intro h
  have hsound := History.sound_of requests
  refine ⟨hsound.first, hsound.answers, fun i key => hsound.index_iff, fun e he e' he' => ?_,
    fun v w => ?_, fun found found' k k' hk hk' => ?_, fun key base path hkey => ?_,
    fun v => hsound.answers_iff.mpr rfl,
    fun found hfound => hsound.answers_iff.mpr (h.ids.fault?_ofDecls hfound),
    fun base hbase p => ?_, fun r hr => ?_, fun later key hkey => ?_,
    fun base p key hkey later q => ?_⟩
  · exact hsound.key_eq_iff he he'
  · simp [requested, ofLiteral, ← Prod.ext_iff, Literal.raw_inj]
  · exact ofDecls_eq_iff (hsound.answers_iff.mp ⟨k, hk⟩) (hsound.answers_iff.mp ⟨k', hk'⟩)
  · obtain ⟨hpath, i, hbase, hi⟩ := hsound.canonical.member base path (Array.mem_of_getElem? hkey)
    exact ⟨hpath, hsound.earlier key base path hkey, get_of_getElem? hbase ▸ hi⟩
  · exact hsound.answers_iff.mpr
      (fault?_memberOf hsound.canonical (Array.getElem?_eq_getElem hbase) p)
  · unfold History.Answers History.respond at hr
    unfold History.respond
    split
    · next key ids hintern =>
      rw [hintern] at hr
      exact (hr key rfl).elim
    · rfl
  · have hold := Array.getElem?_eq_getElem hkey
    rw [get_of_getElem? hold, get_of_getElem? (History.extends_of requests later key _ hold)]
  · have hnew :=
      (hsound.respond (.member base p)).1.answers _ (hkey ▸ mem_append_right _ mem_cons_self)
    have hlater := History.extends_of (requests ++ [.member base p]) later key
      (h.ids.memberOf base p) (by rwa [History.of, foldl_append])
    rw [append_assoc, singleton_append] at hlater
    rw [requested, memberOf, get_of_getElem? hlater, memberOf_eq]
    simp

end Identities

end TypeFlow
