import TypeFlow.Proofs.GraphKeys

/-!
# What a graph is made of

The identities of a graph are canonical, and its events are about nodes of its root. The
construction fails only at a name of a variable that has been imported twice.
-/

namespace TypeFlow

open Graph List Option

/-- A graph has identities that are canonical, sets of them for names of the root, and
events about nodes of the root; or the construction fails because the name of a node of the root
means a variable twice. -/
theorem Program.graph_collects (p : Program) (root : DeclId) :
    (∃ g, p.graph root = .ok g ∧ g.root = root ∧ g.identities.Canonical ∧
      g.identities.get resultKey = .result ∧
      (∀ ds, .set ds ∈ g.identities.keys →
        ∃ node ∈ p.rootLabels root, ds = .ofList (p.lookup node)) ∧
      ∀ b, ∀ e ∈ (g.block b).events, e.labels ⊆ p.rootLabels root) ∨
    (∃ error, p.graph root = .error error) ∧ ∃ node ∈ p.rootLabels root, p.Repeats node := by
  have hwork := (collects_constructs p (p.rootLabels root)).building
  have hstart : (start root).identities.Canonical := by constructor <;> simp [start, Identities.add]
  unfold graph
  rcases hwork { graph := .start root } hstart with
    ⟨_, st, hrun, hgathers⟩ | ⟨⟨error, hrun⟩, hrepeats⟩
  · refine .inl ⟨st.graph, by rw [hrun]; rfl, hgathers.root, hgathers.canonical, ?_,
      fun ds hds => (hgathers.sets ds hds).resolve_left (by simp [start, Identities.add]), ?_⟩
    · exact Identities.get_of_getElem? (hgathers.identities resultKey .result rfl)
    intro b e he
    exact (hgathers.events b e he).resolve_left (by simp [start_block])
  · exact .inr ⟨⟨error, by rw [hrun]; rfl⟩, hrepeats⟩

/-- A graph can be built of every root, and its identities are canonical, as long as no variable has
been imported twice. -/
theorem graph_canonical (source : Source)
    (himports : ∀ d, (source.program.decl d).kind = .var ∨ (source.program.decl d).kind.isLocal →
      source.program.imports.count d ≤ 1) (root : DeclId) :
    ∃ g, source.program.graph root = .ok g ∧ g.identities.Canonical := by
  rcases source.program.graph_collects root with
      ⟨g, hg, -, hcanonical, -⟩ | ⟨-, node, -, hname, hrepeats⟩
  · exact ⟨g, hg, hcanonical⟩
  · refine absurd ?_ hrepeats
    rcases source.program_tidy.fair node with hnodup | himported
    · exact hnodup
    · refine List.nodup_iff_count_le_one.mpr fun d => ?_
      by_cases hd : d ∈ source.program.lookup node
      · have hvariable := List.all_eq_true.mp (Bool.and_eq_true_iff.mp hname).2 d hd
        exact (himported.count_le d).trans (himports d (by simpa using hvariable))
      · simp [List.count_eq_zero_of_not_mem hd]

/-- A function that reads a variable of a module, with imports. -/
def importing (imports : List String) : Source :=
  .ofItems [ .module () "M" [.ofVar "x" none (some (.literal () (.number 1)))],
    .ofBody "f" [.ret () (some (.ident () "x"))]] imports

/-- The variable and its module are imported, and a name that means nothing. -/
theorem graph_canonical_importing :
    (∀ d, ((importing ["M.x", "M", "N"]).program.decl d).kind = .var ∨
      ((importing ["M.x", "M", "N"]).program.decl d).kind.isLocal →
      (importing ["M.x", "M", "N"]).program.imports.count d ≤ 1) ∧
    ∃ g, (importing ["M.x", "M", "N"]).program.graph 3 = .ok g ∧ g.identities.Canonical := by
  have himports : (importing ["M.x", "M", "N"]).program.imports.Nodup := by decide +kernel
  have hcount (d : DeclId) (_ : ((importing ["M.x", "M", "N"]).program.decl d).kind = .var ∨
      ((importing ["M.x", "M", "N"]).program.decl d).kind.isLocal) :
      (importing ["M.x", "M", "N"]).program.imports.count d ≤ 1 :=
    List.nodup_iff_count_le_one.mp himports d
  exact ⟨hcount, graph_canonical _ hcount 3⟩

/-- The construction fails when the variable is imported twice. -/
theorem graph_fails_importing : ¬ ∃ g, (importing ["M.x", "M.x"]).program.graph 3 = .ok g := by
  have hfails : ((importing ["M.x", "M.x"]).program.graph 3).toOption.isNone = true := by
    decide +kernel
  rintro ⟨g, hg⟩
  simp [hg, Except.toOption] at hfails

end TypeFlow
