import TypeFlow.Analysis
import TypeFlow.Proofs.Inheritance
import TypeFlow.Proofs.Worklist

/-!
# Effects are closed under calls

A function calls those functions of the program that the call sites of its graph may reach. Its
effect is what it writes together with all functions that are reached by calls, however they call
each other, and it is unbounded exactly if one of these functions has a call that cannot be
resolved. The effects are computed for the strongly connected components of the call graph, callees
first.
-/

namespace TypeFlow

open DeclSet List NumMap Relation

namespace NumMap

variable {α : Type} {entries : List (Nat × α)} {k : Nat} {x : α}

/-- What the map of listed entries gives is listed. -/
theorem mem_of_get?_ofList (h : (ofList entries).get? k = some x) : (k, x) ∈ entries := by
  refine foldl_invariant (P := fun m : NumMap α => ∀ k x, m.get? k = some x → (k, x) ∈ entries)
    ?_ ?_ k x h
  · intro m hm e he j y hy
    rw [get?_insert] at hy
    split at hy
    · next hj => exact hj ▸ Option.some.inj hy ▸ he
    · exact hm j y hy
  · intro j y hy
    simp at hy

/-- The map of listed entries gives the value of a key if only one is listed. -/
theorem get?_ofList (h : (k, x) ∈ entries) (honly : ∀ y, (k, y) ∈ entries → y = x) :
    (ofList entries).get? k = some x := by
  have hsome : ((ofList entries).get? k).isSome := by
    refine foldl_of_mem (P := fun m : NumMap α => (m.get? k).isSome) h ?_ ?_ empty
    · simp
    · intro m e hm
      rw [get?_insert]
      split
      · rfl
      · exact hm
  obtain ⟨y, hy⟩ := Option.isSome_iff_exists.mp hsome
  rw [hy, honly y (mem_of_get?_ofList hy)]

end NumMap

/-- Some call of the graph cannot be resolved. -/
def Graph.CallsUnknown (g : Graph) : Prop :=
  ∃ node site, g.calls.get? node = some site ∧ site.callees = .unknown

namespace Effects

variable {ds : Declarations} {graphs : List Graph} {f g : DeclId} {graph : Graph}

/-- A graph of the function has a call that may reach the other one, which is no part of the
library. -/
def Calls (ds : Declarations) (graphs : List Graph) (f g : DeclId) : Prop :=
  ∃ graph ∈ graphs, graph.root = f ∧ ∃ node site functions, graph.calls.get? node = some site ∧
    site.callees = .known functions ∧ g ∈ functions ∧ ds.isLibrary g = false

/-- The graphs that a function runs, itself and through calls. -/
def Runs (ds : Declarations) (graphs : List Graph) (f : DeclId) (graph : Graph) : Prop :=
  graph ∈ graphs ∧ ReflTransGen (Calls ds graphs) f graph.root

theorem hasUnknownCall_iff : hasUnknownCall graph ↔ graph.CallsUnknown := by
  simp only [hasUnknownCall, List.any_eq_true, decide_eq_true_eq, Prod.exists,
    mem_entries, Graph.CallsUnknown]

theorem mem_calleesIn : g ∈ calleesIn ds graph ↔
    ∃ node site functions, graph.calls.get? node = some site ∧ site.callees = .known functions ∧
      g ∈ functions ∧ ds.isLibrary g = false := by
  simp only [calleesIn, mem_flatMap, Prod.exists, mem_entries]
  constructor
  · rintro ⟨node, site, hsite, hg⟩
    split at hg
    · next functions hcallees =>
      obtain ⟨hmem, hlibrary⟩ := mem_filter.mp hg
      exact ⟨node, site, functions, hsite, hcallees, hmem, by simpa using hlibrary⟩
    · exact absurd hg not_mem_nil
  · rintro ⟨node, site, functions, hsite, hcallees, hmem, hlibrary⟩
    refine ⟨node, site, hsite, ?_⟩
    simp only [hcallees]
    exact mem_filter.mpr ⟨hmem, by simp [hlibrary]⟩

/-! ### The call graph -/

namespace CallGraph

/-- The calls of a call graph are those of the graphs. -/
theorem mem_callees : g ∈ (ofGraphs ds graphs).callees f ↔ Calls ds graphs f g := by
  have hfold (m : NumMap (List DeclId)) : g ∈ ((graphs.foldl
        (fun m graph => m.insertWith (· ++ ·) graph.root (calleesIn ds graph)) m).get? f).getD [] ↔
      g ∈ (m.get? f).getD [] ∨ ∃ graph ∈ graphs, graph.root = f ∧ g ∈ calleesIn ds graph := by
    induction graphs generalizing m with
    | nil => simp
    | cons graph graphs ih =>
      have hstep : g ∈ ((m.insertWith (· ++ ·) graph.root (calleesIn ds graph)).get? f).getD [] ↔
          g ∈ (m.get? f).getD [] ∨ graph.root = f ∧ g ∈ calleesIn ds graph := by
        by_cases hroot : graph.root = f
        · subst hroot
          cases hget : m.get? graph.root <;> simp [insertWith, hget, get?_insert]
        · cases hget : m.get? graph.root <;>
            simp [insertWith, hget, get?_insert, Ne.symm hroot, hroot]
      rw [foldl_cons, ih, hstep, or_assoc]
      simp
  refine (hfold empty).trans ?_
  simp [Calls, mem_calleesIn]

/-- A function is unresolved if its graph has a call that cannot be resolved, and otherwise does
what its graph writes. -/
theorem own_root (hroots : (graphs.map Graph.root).Nodup) (hgraph : graph ∈ graphs) :
    ((ofGraphs ds graphs).own graph.root = .anything ↔ graph.CallsUnknown) ∧ (¬graph.CallsUnknown →
        (ofGraphs ds graphs).own graph.root = .only (graph.writtenNonlocals ds)) := by
  have hinj (graph' : Graph) (hgraph' : graph' ∈ graphs) (hroot : graph'.root = graph.root) :
      graph' = graph := inj_on_of_nodup_map hroots hgraph' hgraph hroot
  have hunresolved : graph.root ∈ (ofGraphs ds graphs).unresolved ↔ graph.CallsUnknown := by
    rw [ofGraphs, mem_map, ← hasUnknownCall_iff]
    constructor
    · rintro ⟨graph', hmem, hroot⟩
      obtain ⟨hgraph', hcall⟩ := mem_filter.mp hmem
      exact hinj graph' hgraph' hroot ▸ hcall
    · exact fun hcall => ⟨graph, mem_filter.mpr ⟨hgraph, hcall⟩, rfl⟩
  have hdirect :
      (ofGraphs ds graphs).direct.get? graph.root = some (graph.writtenNonlocals ds) := by
    refine get?_ofList (mem_map.mpr ⟨graph, hgraph, rfl⟩) fun vars hvars => ?_
    obtain ⟨graph', hgraph', heq⟩ := mem_map.mp hvars
    obtain ⟨hroot, rfl⟩ := Prod.mk.inj heq
    rw [hinj graph' hgraph' hroot]
  by_cases hcall : graph.CallsUnknown
  · simp [own, hcall, hunresolved.mpr hcall]
  · simp [own, hcall, mt hunresolved.mp hcall, hdirect]

/-- A function without a graph does nothing itself. -/
theorem own_of_notMem (h : ∀ graph ∈ graphs, graph.root ≠ f) :
    (ofGraphs ds graphs).own f = .only .empty := by
  have hunresolved : f ∉ (ofGraphs ds graphs).unresolved := by
    intro hf
    obtain ⟨graph, hmem, hroot⟩ := mem_map.mp hf
    exact h graph (mem_filter.mp hmem).1 hroot
  have hdirect : (ofGraphs ds graphs).direct.get? f = none := by
    refine Option.eq_none_iff_forall_ne_some.mpr fun vars hvars => ?_
    obtain ⟨graph, hgraph, heq⟩ := mem_map.mp (mem_of_get?_ofList hvars)
    exact h graph hgraph (Prod.mk.inj heq).1
  simp [own, hunresolved, hdirect]

variable {calls : CallGraph} {components : List (List DeclId)}

/-- The functions that a function reaches by calls. -/
abbrev Reaches (calls : CallGraph) : DeclId → DeclId → Prop := Leads calls.callees

/-- The strongly connected components of a call graph in an order in which callees come first. -/
structure CalleesFirst (calls : CallGraph) (components : List (List DeclId)) : Prop where
  covers : ∀ f ∈ calls.functions, ∃ component ∈ components, f ∈ component
  strong : ∀ component ∈ components, ∀ f ∈ component, ∀ g,
    g ∈ component ↔ calls.Reaches f g ∧ calls.Reaches g f
  earlier : ∀ before component after, components = before ++ component :: after →
    ∀ f ∈ component, ∀ g ∈ calls.callees f, g ∈ component ∨ ∃ c ∈ before, g ∈ c

end CallGraph

/-! ### Effects of components -/

/-- An effect is that of some functions together: it is unbounded if one of them is, and otherwise
consists of what they write themselves. -/
def Sums (calls : CallGraph) (P : DeclId → Prop) (effect : Effect) : Prop :=
  (∃ f, P f ∧ calls.own f = .anything) ∧ effect = .anything ∨
    (∀ f, P f → calls.own f ≠ .anything) ∧ ∃ vars, effect = .only vars ∧
      ∀ v, v ∈ vars ↔ ∃ f, P f ∧ (calls.own f).mayWrite v

section

variable {calls : CallGraph} {P Q : DeclId → Prop} {effect effect' : Effect} {effects : Effects}
  {component : List DeclId}

/-- Effects of the same functions. -/
theorem Sums.congr (h : Sums calls P effect) (hPQ : ∀ f, P f ↔ Q f) : Sums calls Q effect := by
  simpa only [Sums, hPQ] using h

/-- What one function does itself. -/
theorem sums_own (calls : CallGraph) (f : DeclId) : Sums calls (· = f) (calls.own f) := by
  cases hown : calls.own f with
  | anything => exact .inl ⟨⟨f, rfl, hown⟩, rfl⟩
  | only vars =>
    refine .inr ⟨fun g hg => by simp [hg, hown], vars, rfl, fun v => ?_⟩
    simp only [exists_eq_left, hown, Effect.mayWrite]
    exact contains_iff_mem.symm

/-- Effects join as the functions do. -/
theorem Sums.join (h : Sums calls P effect) (h' : Sums calls Q effect') :
    Sums calls (fun f => P f ∨ Q f) (effect.join effect') := by
  rcases h with ⟨⟨f, hf, hown⟩, rfl⟩ | ⟨hbounded, vars, rfl, hvars⟩
  · exact .inl ⟨⟨f, .inl hf, hown⟩, rfl⟩
  · rcases h' with ⟨⟨f, hf, hown⟩, rfl⟩ | ⟨hbounded', vars', rfl, hvars'⟩
    · exact .inl ⟨⟨f, .inr hf, hown⟩, rfl⟩
    · refine .inr ⟨fun f hf => hf.elim (hbounded f) (hbounded' f), _, rfl, fun v => ?_⟩
      rw [mem_union, hvars, hvars', ← exists_or]
      simp only [or_and_right]

/-- What is joined one after the other. -/
theorem Sums.foldl {step : Effect → DeclId → Effect} {R : DeclId → DeclId → Prop}
    {fs : List DeclId} (h : Sums calls P effect)
    (hstep : ∀ f ∈ fs, ∀ P effect, Sums calls P effect →
      Sums calls (fun g => P g ∨ R f g) (step effect f)) :
    Sums calls (fun g => P g ∨ ∃ f ∈ fs, R f g) (fs.foldl step effect) := by
  induction fs generalizing P effect with
  | nil => exact h.congr (by simp)
  | cons f fs ih =>
    obtain ⟨hfirst, hrest⟩ := forall_mem_cons.mp hstep
    exact (ih (hfirst P effect h) hrest).congr (by simp [or_assoc])

/-- The effect of a function has been found: it is that of everything that is reached by calls. -/
def Found (calls : CallGraph) (effects : Effects) (f : DeclId) : Prop :=
  ∃ effect, effects.get? f = some effect ∧ Sums calls (calls.Reaches f) effect

/-- A function of a component adds itself and what its calls reach outside of the component. -/
theorem Sums.joinFunction (h : Sums calls P effect)
    (hfound : ∀ g ∈ calls.callees f, g ∉ component → Found calls effects g) :
    Sums calls (fun h => P h ∨ h = f ∨ ∃ g ∈ calls.callees f, g ∉ component ∧ calls.Reaches g h)
      (joinFunction calls effects component effect f) := by
  refine ((h.join (sums_own calls f)).foldl fun g hg P effect h => ?_).congr fun _ => or_assoc
  split
  · next hmem => exact h.congr (by simp [contains_iff_mem.mp hmem])
  · next hmem =>
    have hout : g ∉ component := fun hg => hmem (contains_iff_mem.mpr hg)
    obtain ⟨e, he, hsums⟩ := hfound g hg hout
    simp only [joinEffectOf, he]
    exact (h.join hsums).congr (by simp [hout])

/-- The common effect of a component is that of everything that one of its functions reaches, if it
has been found for the callees outside of the component. -/
theorem sums_component (hstrong : ∀ f ∈ component, ∀ g ∈ component, calls.Reaches f g)
    (hfound : ∀ f ∈ component, ∀ g ∈ calls.callees f, g ∉ component → Found calls effects g)
    (hf : f ∈ component) : Sums calls (calls.Reaches f)
      (component.foldl (joinFunction calls effects component) (.only .empty)) := by
  have hnone : Sums calls (fun _ => False) (.only .empty) :=
    .inr ⟨fun _ => False.elim, .empty, rfl, fun v => iff_of_false not_mem_nil (by simp)⟩
  refine (hnone.foldl fun f hf P effect h => h.joinFunction (hfound f hf)).congr fun h => ?_
  rw [false_or]
  constructor
  · rintro ⟨g, hg, rfl | ⟨e, he, -, hreach⟩⟩
    · exact hstrong f hf h hg
    · exact (hstrong f hf g hg).trans (.head he hreach)
  · -- The last function of the component on the way calls what is outside.
    intro hreach
    induction hreach using ReflTransGen.head_induction_on with
    | refl => exact ⟨h, hf, .inl rfl⟩
    | @head f g hg hreach ih =>
      by_cases hmem : g ∈ component
      · exact ih hmem
      · exact ⟨f, hf, .inr ⟨g, hg, hmem, hreach⟩⟩

/-- A component is entered with its common effect, and what has been found before stays. -/
theorem get?_addComponent : (addComponent calls effects component).get? f =
    if f ∈ component then
      some (component.foldl (joinFunction calls effects component) (.only .empty))
    else effects.get? f := by
  unfold addComponent
  generalize component.foldl (joinFunction calls effects component) _ = effect
  induction component generalizing effects with
  | nil => simp
  | cons g component ih =>
    rw [foldl_cons, ih, get?_insert]
    by_cases hf : f = g <;> by_cases hmem : f ∈ component <;> simp [hf, hmem]

/-- Effects are found component by component, if callees come first. -/
theorem CallGraph.CalleesFirst.found {components before after : List (List DeclId)}
    (h : calls.CalleesFirst components) (hsplit : components = before ++ after) :
    ∀ f ∈ before.flatten, Found calls (ofComponents calls before) f := by
  induction before using List.reverseRecOn generalizing after with
  | nil => simp
  | append_singleton before component ih =>
    rw [append_assoc] at hsplit
    have hmem : component ∈ components := by simp [hsplit]
    have hstrong (f : DeclId) (hf : f ∈ component) (g : DeclId) (hg : g ∈ component) :
        calls.Reaches f g := ((h.strong component hmem f hf g).mp hg).1
    intro f hf
    rw [Found, ofComponents, foldl_append, foldl_cons, foldl_nil, get?_addComponent]
    split
    · next hf =>
      refine ⟨_, rfl, sums_component hstrong (fun f hf g hg hout => ih hsplit g ?_) hf⟩
      obtain ⟨c, hc, hgc⟩ := (h.earlier before component after hsplit f hf g hg).resolve_left hout
      exact mem_flatten.mpr ⟨c, hc, hgc⟩
    · next hout => exact ih hsplit f (by simpa [hout] using hf)

end

/-! ### Components -/

namespace CallGraph

variable {calls : CallGraph}

/-- Only functions with entries call others, so a walk finds everything that a function reaches. -/
theorem reach_spec (hf : f ∈ calls.functions) : ((calls.reached.get? f).getD []).Nodup ∧
      ∀ g, g ∈ (calls.reached.get? f).getD [] ↔ calls.Reaches f g := by
  have hget : calls.reached.get? f = some (reversePostorder calls.callees calls.calls.size f) := by
    refine get?_ofList (mem_map.mpr ⟨f, hf, rfl⟩) fun fs hfs => ?_
    obtain ⟨f', -, heq⟩ := mem_map.mp hfs
    cases heq
    rfl
  have hnext (g : DeclId) (hg : g ∉ calls.calls.keys.toFinset) : calls.callees g = [] := by
    cases hcalls : calls.calls.get? g with
    | none => simp [callees, hcalls]
    | some fs =>
      have hkey : g ∈ calls.calls.keys := mem_map.mpr ⟨(g, fs), mem_entries.mpr hcalls, rfl⟩
      exact absurd (mem_toFinset.mpr hkey) hg
  have hcard : calls.calls.keys.toFinset.card ≤ calls.calls.size :=
    (toFinset_card_le _).trans_eq (length_map _)
  rw [hget]
  exact ⟨(retreatFrom_extends_nil hnext hcard).nodup, fun g => mem_reversePostorder_iff hnext hcard⟩

section

variable {next reach : DeclId → List DeclId} {functions : List DeclId}
  (hnext : ∀ f ∈ functions, ∀ g ∈ next f, g ∈ functions)
  (hreach : ∀ f ∈ functions, (reach f).Nodup ∧ ∀ g, g ∈ reach f ↔ Leads next f g)

include hnext in
/-- Calls stay among functions. -/
theorem mem_of_leads (hf : f ∈ functions) (h : Leads next f g) : g ∈ functions := by
  induction h with
  | refl => exact hf
  | @tail g e _ he hg => exact hnext g hg e he

include hnext hreach

section

variable (hf : f ∈ functions)

include hf

theorem mem_componentOf : g ∈ componentOf functions reach f ↔ Leads next f g ∧ Leads next g f := by
  simp only [componentOf, mem_filter, Bool.and_eq_true, contains_iff_mem]
  constructor
  · rintro ⟨hg, hfg, hgf⟩
    exact ⟨((hreach f hf).2 g).mp hfg, ((hreach g hg).2 f).mp hgf⟩
  · rintro ⟨hfg, hgf⟩
    have hg := mem_of_leads hnext hf hfg
    exact ⟨hg, ((hreach f hf).2 g).mpr hfg, ((hreach g hg).2 f).mpr hgf⟩

/-- Functions of one component have the same component. -/
theorem componentOf_eq (hg : g ∈ componentOf functions reach f) :
    componentOf functions reach g = componentOf functions reach f := by
  obtain ⟨hfg, hgf⟩ := (mem_componentOf hnext hreach hf).mp hg
  refine filter_congr fun e he => Bool.eq_iff_iff.mpr ?_
  have hmem := mem_of_leads hnext hf hfg
  simp only [Bool.and_eq_true, contains_iff_mem, (hreach f hf).2, (hreach g hmem).2,
    (hreach e he).2]
  exact ⟨fun h => ⟨hfg.trans h.1, h.2.trans hgf⟩, fun h => ⟨hgf.trans h.1, h.2.trans hfg⟩⟩

/-- A function reaches as many functions as one that it reaches does, and more if it is not reached
in turn. -/
theorem length_reach_le (hfg : Leads next f g) : (reach g).length ≤ (reach f).length ∧
      (¬Leads next g f → (reach g).length < (reach f).length) := by
  have hg := mem_of_leads hnext hf hfg
  have hsub : reach g ⊆ reach f := fun e he =>
    ((hreach f hf).2 e).mpr (hfg.trans (((hreach g hg).2 e).mp he))
  refine ⟨((hreach g hg).1.subperm hsub).length_le, fun hback => ?_⟩
  have hcons := nodup_cons.mpr ⟨fun h => hback (((hreach g hg).2 f).mp h), (hreach g hg).1⟩
  have hself := ((hreach f hf).2 f).mpr .refl
  exact (hcons.subperm (cons_subset.mpr ⟨hself, hsub⟩)).length_le

theorem length_reach_eq (hg : g ∈ componentOf functions reach f) :
    (reach g).length = (reach f).length := by
  obtain ⟨hfg, hgf⟩ := (mem_componentOf hnext hreach hf).mp hg
  exact le_antisymm (length_reach_le hnext hreach hf hfg).1
    (length_reach_le hnext hreach (mem_of_leads hnext hf hfg) hgf).1

end

theorem mem_componentsBy {component : List DeclId} : component ∈ componentsBy functions reach ↔
      ∃ f ∈ functions, component = componentOf functions reach f := by
  simp only [componentsBy, mem_flatMap, mem_range, mem_map, mem_filter, Bool.and_eq_true,
    decide_eq_true_eq]
  constructor
  · rintro ⟨n, -, f, ⟨hf, -⟩, rfl⟩
    exact ⟨f, hf, rfl⟩
  · rintro ⟨f, hf, rfl⟩
    -- The component is listed at its first function.
    have hself := (mem_componentOf hnext hreach hf).mpr ⟨.refl, .refl⟩
    obtain ⟨g, rest, hcons⟩ := exists_cons_of_ne_nil (ne_nil_of_mem hself)
    have hg := hcons ▸ mem_cons_self
    have heq := componentOf_eq hnext hreach hf hg
    have hmem := (mem_filter.mp hg).1
    have hsub : reach g ⊆ functions := fun e he =>
      mem_of_leads hnext hmem (((hreach g hmem).2 e).mp he)
    have hbound := ((hreach g hmem).1.subperm hsub).length_le
    exact ⟨_, Nat.lt_succ_of_le hbound, g, ⟨hmem, rfl, by rw [heq, hcons]; rfl⟩, heq⟩

/-- The functions of components that are listed later reach no fewer functions. -/
theorem pairwise_componentsBy : (componentsBy functions reach).Pairwise fun c c' =>
    ∀ f ∈ c, ∀ g ∈ c', (reach f).length ≤ (reach g).length := by
  have hlevel (n : Nat) (component : List DeclId) (hc : component ∈ (functions.filter fun f =>
      (reach f).length = n && (componentOf functions reach f).head? = some f).map
        (componentOf functions reach)) (f : DeclId) (hf : f ∈ component) :
      (reach f).length = n := by
    obtain ⟨g, hg, rfl⟩ := mem_map.mp hc
    simp only [mem_filter, Bool.and_eq_true, decide_eq_true_eq] at hg
    rw [length_reach_eq hnext hreach hg.1 hf, hg.2.1]
  refine pairwise_flatMap.mpr ⟨fun n _ => ?_, pairwise_lt_range.imp fun {n m} hlt => ?_⟩
  · refine pairwise_of_forall_mem_list fun c hc c' hc' f hf g hg => ?_
    rw [hlevel n c hc f hf, hlevel n c' hc' g hg]
  · intro c hc c' hc' f hf g hg
    rw [hlevel n c hc f hf, hlevel m c' hc' g hg]
    exact hlt.le

end

/-- If calls lead to functions of the call graph, its components are listed with callees first. -/
theorem components_calleesFirst
    (hnext : ∀ f ∈ calls.functions.ids, ∀ g ∈ calls.callees f, g ∈ calls.functions.ids) :
    calls.CalleesFirst calls.components := by
  have hreach (f : DeclId) (hf : f ∈ calls.functions.ids) := reach_spec hf
  have hlisted {component : List DeclId} : component ∈ calls.components ↔
      ∃ f ∈ calls.functions.ids, component = componentOf _ _ f :=
    mem_componentsBy hnext hreach
  have hcovers (f : DeclId) (hf : f ∈ calls.functions.ids) :
      ∃ component ∈ calls.components, f ∈ component :=
    ⟨_, hlisted.mpr ⟨f, hf, rfl⟩, (mem_componentOf hnext hreach hf).mpr ⟨.refl, .refl⟩⟩
  have hstrong (component : List DeclId) (hc : component ∈ calls.components) (f : DeclId)
      (hf : f ∈ component) : f ∈ calls.functions.ids ∧
        ∀ g, g ∈ component ↔ calls.Reaches f g ∧ calls.Reaches g f := by
    obtain ⟨e, he, rfl⟩ := hlisted.mp hc
    have hmem := (mem_filter.mp hf).1
    refine ⟨hmem, fun g => ?_⟩
    rw [← componentOf_eq hnext hreach he hf]
    exact mem_componentOf hnext hreach hmem
  refine ⟨hcovers, fun c hc f hf => (hstrong c hc f hf).2, ?_⟩
  intro before component after hsplit f hf g hg
  obtain ⟨hmem, hiff⟩ := hstrong component (by simp [hsplit]) f hf
  refine or_iff_not_imp_left.mpr fun hout => ?_
  -- What is called outside of the component reaches fewer functions, so it is not listed behind.
  have hlt := (length_reach_le hnext hreach hmem (.single hg)).2 fun hback =>
    hout ((hiff g).mpr ⟨.single hg, hback⟩)
  obtain ⟨c, hc, hgc⟩ := hcovers g (hnext f hmem g hg)
  rw [hsplit, mem_append, mem_cons] at hc
  rcases hc with hc | rfl | hc
  · exact ⟨c, hc, hgc⟩
  · exact absurd hgc hout
  · have hordered := pairwise_componentsBy hnext hreach
    rw [show componentsBy _ _ = before ++ component :: after from hsplit] at hordered
    have hle := (pairwise_cons.mp (pairwise_append.mp hordered).2.1).1 c hc f hf g hgc
    exact absurd hlt (Nat.not_lt.mpr hle)

/-- The calls of some graphs lead to functions of their call graph. -/
theorem callee_mem_functions (hg : g ∈ (ofGraphs ds graphs).callees f) :
    g ∈ (ofGraphs ds graphs).functions.ids := by
  obtain ⟨graph, hgraph, -, hcall⟩ := mem_callees.mp hg
  exact mem_ofList.mpr (mem_flatMap.mpr
    ⟨graph, hgraph, mem_cons_of_mem _ (mem_calleesIn.mpr hcall)⟩)

/-- What reached functions do themselves is done by the graphs that are run. -/
theorem exists_reaches_iff {P : Effect → Prop} (hP : ¬P (.only .empty)) :
    (∃ g, (ofGraphs ds graphs).Reaches f g ∧ P ((ofGraphs ds graphs).own g)) ↔
      ∃ g, Runs ds graphs f g ∧ P ((ofGraphs ds graphs).own g.root) := by
  simp only [CallGraph.Reaches, Leads, mem_callees]
  constructor
  · rintro ⟨g, hreach, hg⟩
    by_cases hgraph : ∃ graph ∈ graphs, graph.root = g
    · obtain ⟨graph, hgraph, rfl⟩ := hgraph
      exact ⟨graph, ⟨hgraph, hreach⟩, hg⟩
    · rw [own_of_notMem fun graph hmem hroot => hgraph ⟨graph, hmem, hroot⟩] at hg
      exact (hP hg).elim
  · rintro ⟨graph, ⟨-, hreach⟩, hg⟩
    exact ⟨graph.root, hreach, hg⟩

end CallGraph

/-- The effect of a function is that of all functions that it reaches by calls: it is unbounded if
the graph of one of them has a call that cannot be resolved, and otherwise consists of exactly what
their graphs write. -/
def Closed (ds : Declarations) (graphs : List Graph) (effects : Effects) (f : DeclId) : Prop :=
  (effects.get? f = some .anything ↔ ∃ g, Runs ds graphs f g ∧ g.CallsUnknown) ∧
    ((¬∃ g, Runs ds graphs f g ∧ g.CallsUnknown) → ∃ vars, effects.get? f = some (.only vars) ∧
      ∀ v, v ∈ vars ↔ ∃ g, Runs ds graphs f g ∧ v ∈ g.writtenNonlocals ds)

/-- What has been found is closed under calls. -/
theorem Found.closed {effects : Effects} (hroots : (graphs.map Graph.root).Nodup)
    (h : Found (.ofGraphs ds graphs) effects f) : Closed ds graphs effects f := by
  have hunknown : (∃ g, (CallGraph.ofGraphs ds graphs).Reaches f g ∧
      (CallGraph.ofGraphs ds graphs).own g = .anything) ↔
      ∃ g, Runs ds graphs f g ∧ g.CallsUnknown := by
    rw [CallGraph.exists_reaches_iff (P := (· = .anything)) (by simp)]
    exact exists_congr fun g => and_congr_right fun hg => (CallGraph.own_root hroots hg.1).1
  obtain ⟨effect, heffect, ⟨hunbounded, rfl⟩ | ⟨hbounded, vars, rfl, hvars⟩⟩ := h
  · have hcalls := hunknown.mp hunbounded
    exact ⟨by simp [heffect, hcalls], fun hnot => absurd hcalls hnot⟩
  · have hnot : ¬∃ g, Runs ds graphs f g ∧ g.CallsUnknown := fun hcalls => by
      obtain ⟨g, hreach, hg⟩ := hunknown.mpr hcalls
      exact hbounded g hreach hg
    refine ⟨by simp [heffect, hnot], fun _ => ⟨vars, heffect, fun v => ?_⟩⟩
    rw [hvars, CallGraph.exists_reaches_iff (P := fun e => e.mayWrite v)
      (by simp [Effect.mayWrite, DeclSet.contains, DeclSet.empty])]
    refine exists_congr fun g => and_congr_right fun hg => ?_
    rw [(CallGraph.own_root hroots hg.1).2 fun hcall => hnot ⟨g, hg, hcall⟩]
    exact contains_iff_mem

/-- Effects are closed under calls: for graphs of different functions and for every list of the
strongly connected components of the call graph with callees first, and so for the list that is
used. -/
theorem ofGraphs_closed (ds : Declarations) {graphs : List Graph}
    (hroots : (graphs.map Graph.root).Nodup) {graph : Graph} (hgraph : graph ∈ graphs) :
    Closed ds graphs (ofGraphs ds graphs) graph.root ∧
    ∀ components, (CallGraph.ofGraphs ds graphs).CalleesFirst components →
      Closed ds graphs (ofComponents (.ofGraphs ds graphs) components) graph.root := by
  have hfunction : graph.root ∈ (CallGraph.ofGraphs ds graphs).functions :=
    mem_ofList.mpr (mem_flatMap.mpr ⟨graph, hgraph, mem_cons_self⟩)
  have hclosed (components : List (List DeclId))
      (h : (CallGraph.ofGraphs ds graphs).CalleesFirst components) :
      Closed ds graphs (ofComponents (.ofGraphs ds graphs) components) graph.root := by
    obtain ⟨component, hmem, hf⟩ := h.covers graph.root hfunction
    have hfound := h.found (append_nil _).symm graph.root (mem_flatten.mpr ⟨component, hmem, hf⟩)
    exact hfound.closed hroots
  refine ⟨hclosed _ (CallGraph.components_calleesFirst fun _ _ _ => ?_), hclosed⟩
  exact CallGraph.callee_mem_functions

end Effects

/-- Two functions that write a variable each and call each other, a function that calls one of them,
and a function that calls it, too, after something unknown. -/
def callingEachOther : Source :=
  let call (name : String) : Stmt Unit := .expr () (.call () (.ident () name) [])
  .ofItems [.ofVar "a", .ofVar "b", .ofBody "f" [.set "a" (.number 1), call "g"],
    .ofBody "g" [.set "b" (.number 1), call "f"],
    .ofBody "h" [call "g"],
    .ofBody "k" [call "nowhere", call "f"]]

/-- The third function runs both others and writes what they write. -/
theorem ofGraphs_closed_callingEachOther : ∃ graphs,
    [3, 4, 5, 6].mapM callingEachOther.program.graph = .ok graphs ∧
    let ds := callingEachOther.program.toDeclarations
    let effects := Effects.ofGraphs ds graphs
    effects.get? 5 = some (.only (.ofList [1, 2])) ∧
      (¬∃ g, Effects.Runs ds graphs 5 g ∧ g.CallsUnknown) ∧
      (∀ v, v ∈ ofList [1, 2] ↔ ∃ g, Effects.Runs ds graphs 5 g ∧ v ∈ g.writtenNonlocals ds) ∧
      effects.get? 6 = some .anything ∧ ∃ g, Effects.Runs ds graphs 6 g ∧ g.CallsUnknown := by
  obtain ⟨graphs, hgraphs, hroots, hfive, hsix⟩ :
      ∃ graphs, [3, 4, 5, 6].mapM callingEachOther.program.graph = .ok graphs ∧
        let effects := Effects.ofGraphs callingEachOther.program.toDeclarations graphs
        graphs.map Graph.root = [3, 4, 5, 6] ∧ effects.get? 5 = some (.only (.ofList [1, 2])) ∧
          effects.get? 6 = some .anything := by decide +kernel
  have hnodup : (graphs.map Graph.root).Nodup := by
    rw [hroots]
    decide
  have hgraph (d : DeclId) (hd : d ∈ [3, 4, 5, 6]) : ∃ graph ∈ graphs, graph.root = d := by
    rwa [← hroots, List.mem_map] at hd
  obtain ⟨five, hmem, hroot⟩ := hgraph 5 (by simp)
  obtain ⟨six, hmem', hroot'⟩ := hgraph 6 (by simp)
  have hclosed := (Effects.ofGraphs_closed callingEachOther.program.toDeclarations hnodup hmem).1
  have hclosed' := (Effects.ofGraphs_closed callingEachOther.program.toDeclarations hnodup hmem').1
  rw [hroot] at hclosed
  rw [hroot'] at hclosed'
  have hnot : ¬∃ g, Effects.Runs callingEachOther.program.toDeclarations graphs 5 g ∧
      g.CallsUnknown := by
    rw [← hclosed.1, hfive]
    simp
  obtain ⟨vars, heffect, hvars⟩ := hclosed.2 hnot
  obtain rfl : vars = .ofList [1, 2] := by
    rw [hfive] at heffect
    simpa using heffect.symm
  exact ⟨graphs, hgraphs, hfive, hnot, hvars, hsix, hclosed'.1.mp hsix⟩

end TypeFlow
