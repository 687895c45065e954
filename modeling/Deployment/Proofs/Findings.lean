import Deployment.Proofs.Checks

/-!
# What findings are about

The checks of models know names and paths only: every finding is about a type of the graph, or
about an instance of the forest (`TypeGraph.subject_of_mem_check`, `Forest.subject_of_mem_check`),
and does not tell where this was declared. The place that the source map has for it is thus the one
that the located diagnostic tells (`Finding.located_of_get?`, `Diagnostic.Placeless.find?_located`).
-/

namespace Deployment

/-- Whether a detail is neither a file nor a line. -/
def Detail.Placeless (x : Detail) : Prop := x.kind ≠ .file ∧ x.kind ≠ .line

theorem Subject.placeless_detail (s : Subject) : s.detail.Placeless := by
  cases s <;> simp [Subject.detail, Detail.Placeless]

namespace Diagnostic

variable {d : Diagnostic}

/-- Whether a diagnostic does not tell a place. -/
def Placeless (d : Diagnostic) : Prop := ∀ x ∈ d.details, x.Placeless

namespace Placeless

theorem find?_details (h : d.Placeless) {kind : DetailKind} (hkind : kind = .file ∨ kind = .line) :
    d.details.find? (·.kind = kind) = none := by
  refine List.find?_eq_none.2 fun x hx heq => ?_
  rcases hkind with rfl | rfl
  · exact (h x hx).1 (of_decide_eq_true heq)
  · exact (h x hx).2 (of_decide_eq_true heq)

theorem hasLocation (h : d.Placeless) : d.hasLocation = false := by
  rw [Diagnostic.hasLocation, find?, h.find?_details (.inl rfl)]
  rfl

/-- A place is told once it is added. -/
theorem find?_located (h : d.Placeless) (site : Site) :
    (d.located site).find? .file = some site.file.text ∧
      (d.located site).find? .line = some (toString site.line) := by
  constructor
  · rw [find?, located, add, add, List.find?_append, List.find?_append, h.find?_details (.inl rfl)]
    rfl
  · rw [find?, located, add, add, List.find?_append, List.find?_append, h.find?_details (.inr rfl)]
    rfl

end Placeless

end Diagnostic

namespace Finding

variable {f : Finding}

theorem placeless_about {subject : Subject} {code : Code} {details : List Detail}
    (h : ∀ x ∈ details, x.Placeless) : (about subject code details).diagnostic.Placeless :=
  List.forall_mem_cons.2 ⟨subject.placeless_detail, h⟩

/-- A finding that does not tell a place gets the one that is known of its subject. -/
theorem located_of_get? {m : SourceMap} {site : Site} (h : f.diagnostic.Placeless)
    (hsite : m.get? f.subject = some site) : f.located m = f.diagnostic.located site := by
  rw [located, hsite]
  dsimp only
  rw [h.hasLocation]
  rfl

end Finding

/-! ### Graphs -/

namespace TypeGraph

variable {g : TypeGraph} {f : Finding} {name : String}

theorem eq_of_mem_checkInstaller (h : f ∈ g.checkInstaller name) :
    f = .about (.component name) .emptyComponentInstaller [] ∨
      ∃ installer,
        f = .about (.component name) .rootInstallerMustBeTarget [⟨.value, installer⟩] := by
  rw [checkInstaller] at h
  split at h
  · exact .inl (List.mem_singleton.1 h)
  · split at h
    · exact .inr ⟨_, List.mem_singleton.1 h⟩
    · cases h

theorem eq_of_mem_checkImport {v : ImportedVariable} (h : f ∈ g.checkImport name v) :
    ∃ owner, f = .about (.component name) (g.unresolvedCode owner) [⟨.variable, v.name⟩] := by
  rw [checkImport] at h
  split at h
  · cases h
  · split at h
    · cases h
    · split at h
      · cases h
      · exact ⟨_, List.mem_singleton.1 h⟩

/-- What is found in a component: a missing or wrong installer, or an import that nothing
    exports. -/
theorem eq_of_mem_checkComponent {c : Component} (h : f ∈ g.checkComponent name c) :
    f = .about (.component name) .emptyComponentInstaller [] ∨
      (∃ installer, f = .about (.component name) .rootInstallerMustBeTarget [⟨.value, installer⟩]) ∨
      ∃ owner key, f = .about (.component name) (g.unresolvedCode owner) [⟨.variable, key⟩] := by
  rcases List.mem_append.1 h with h | h
  · exact (eq_of_mem_checkInstaller h).imp_right .inl
  · obtain ⟨v, -, h⟩ := List.mem_flatMap.1 h
    obtain ⟨owner, h⟩ := eq_of_mem_checkImport h
    exact .inr (.inr ⟨owner, v.name, h⟩)

/-- What is found in a facet: that nothing uses it. -/
theorem eq_of_mem_checkFacet {t : Facet} (h : f ∈ g.checkFacet name t) :
    f = .about (.facet name) .orphanFacet [] ∨
      f = .about (.facet name) .orphanFacetWithChildren [] := by
  rw [checkFacet] at h
  split at h
  · cases h
  · rw [List.mem_singleton.1 h]
    split
    · exact .inl rfl
    · exact .inr rfl

theorem subject_of_mem_checkComponent {c : Component} (h : f ∈ g.checkComponent name c) :
    f.subject = .component name ∧ f.diagnostic.Placeless := by
  rcases eq_of_mem_checkComponent h with rfl | ⟨installer, rfl⟩ | ⟨owner, key, rfl⟩
  · exact ⟨rfl, Finding.placeless_about (by simp)⟩
  · exact ⟨rfl, Finding.placeless_about (by simp [Detail.Placeless])⟩
  · exact ⟨rfl, Finding.placeless_about (by simp [Detail.Placeless])⟩

theorem subject_of_mem_checkFacet {t : Facet} (h : f ∈ g.checkFacet name t) :
    f.subject = .facet name ∧ f.diagnostic.Placeless := by
  rcases eq_of_mem_checkFacet h with rfl | rfl
  · exact ⟨rfl, Finding.placeless_about (by simp)⟩
  · exact ⟨rfl, Finding.placeless_about (by simp)⟩

/-- What is found in a graph is about one of its types, and tells no place. -/
theorem subject_of_mem_check (h : f ∈ g.check) :
    ((∃ name, f.subject = .component name ∧ g.components.contains name = true) ∨
      ∃ name, f.subject = .facet name ∧ g.facets.contains name = true) ∧
      f.diagnostic.Placeless := by
  have hkey : ∀ {α : Type} {t : Table String α} {p : String × α}, p ∈ t.entries →
      t.contains p.1 = true := fun hp => Table.contains_iff.2 (List.mem_map_of_mem hp)
  rcases List.mem_append.1 h with h | h
  · rcases List.mem_append.1 h with h | h
    · obtain ⟨p, hp, h⟩ := List.mem_flatMap.1 h
      obtain ⟨hsubject, hplaceless⟩ := subject_of_mem_checkComponent h
      exact ⟨.inl ⟨p.1, hsubject, hkey hp⟩, hplaceless⟩
    · obtain ⟨p, hp, h⟩ := List.mem_flatMap.1 h
      obtain ⟨hsubject, hplaceless⟩ := subject_of_mem_checkFacet h
      exact ⟨.inr ⟨p.1, hsubject, hkey hp⟩, hplaceless⟩
  · obtain ⟨name, hname, rfl⟩ := List.mem_map.1 h
    refine ⟨.inl ⟨name, rfl, Table.contains_iff.2 (List.mem_of_mem_filter hname)⟩, ?_⟩
    exact Finding.placeless_about (by simp)

end TypeGraph

/-! ### Forests -/

namespace Forest

variable {forest : Forest} {g : TypeGraph} {f : Finding}

theorem subject_of_mem_checkInstance {id : Nat} {body : Instance}
    (h : f ∈ forest.checkInstance g id body) :
    f.subject = .instanceAt (forest.path id) ∧ f.diagnostic.Placeless := by
  rcases List.mem_append.1 h with h | h
  · split at h
    · exact nomatch h
    · rw [List.mem_singleton.1 h]
      exact ⟨rfl, Finding.placeless_about (by simp [Detail.Placeless])⟩
  · obtain ⟨key, -, rfl⟩ := List.mem_map.1 h
    exact ⟨rfl, Finding.placeless_about (by simp [Detail.Placeless])⟩

/-- What is found in a forest is about one of its instances, and tells no place. -/
theorem subject_of_mem_check (h : f ∈ forest.check g) :
    (∃ id ∈ forest.all, f.subject = .instanceAt (forest.path id)) ∧ f.diagnostic.Placeless := by
  obtain ⟨id, hid, h⟩ := List.mem_flatMap.1 h
  split at h
  · exact nomatch h
  · split at h
    · obtain ⟨hsubject, hplaceless⟩ := subject_of_mem_checkInstance h
      exact ⟨⟨id, hid, hsubject⟩, hplaceless⟩
    · exact nomatch h

end Forest

end Deployment
