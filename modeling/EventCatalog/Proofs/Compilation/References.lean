import EventCatalog.Proofs.Compilation.Documents
import EventCatalog.Proofs.Projection.Unresolved
import EventCatalog.Proofs.Projection.WellFormed
import EventCatalog.Proofs.Validation.References

/-! # Graph and diagnostics agree on references

The unresolved nodes of the graph of linked documents are those that their definitions mint
(`SymbolTable.mem_unresolved_graph`), and the diagnostics of a compiled document are those of its
text, of validation and of loading (`diagnosticsFor_perm`).  So both sides of a compilation speak of
the same references (`compile_references`). -/

namespace EventCatalog

open Syntax Emission

namespace SymbolTable

variable {generation : Nat} {documents : List Document} {cycles : List Cycle} {id : String}

/-- Linked documents mint what their definitions mint. -/
theorem mints_documents {duplicates : List (Nat × Nat)}
    (hpaths : (documents.map Document.path).Nodup) :
    Mints (documents.flatMap
        (Projection.document ⟨link generation documents, cycles, duplicates⟩)) id ↔
      ∃ number doc, documents[number]? = some doc ∧ ∃ d ∈ doc.program.all,
        Mints (Projection.relationships ⟨link generation documents, cycles, duplicates⟩ number d)
          id := by
  have hdocument : ∀ number doc, documents[number]? = some doc →
      (Mints (Projection.document ⟨link generation documents, cycles, duplicates⟩ doc) id ↔
        ∃ d ∈ doc.program.all, Mints (Projection.relationships
          ⟨link generation documents, cycles, duplicates⟩ number d) id) := by
    intro number doc hdoc
    rw [Projection.document, documentAt?_link hpaths hdoc]
    simp only
    rw [Projection.definitions_eq_flatMap, mints_flatMap]
    simp only [Projection.mints_definition, Program.all, Definition.mem_allOf]
    constructor
    · rintro ⟨e, he, d, hd, h⟩
      exact ⟨d, ⟨e, he, hd⟩, h⟩
    · rintro ⟨d, ⟨e, he, hd⟩, h⟩
      exact ⟨e, he, d, hd, h⟩
  rw [mints_flatMap]
  constructor
  · rintro ⟨doc, hdoc, h⟩
    obtain ⟨number, hnumber⟩ := List.mem_iff_getElem?.mp hdoc
    exact ⟨number, doc, hnumber, (hdocument number doc hnumber).mp h⟩
  · rintro ⟨number, doc, hnumber, h⟩
    exact ⟨doc, List.mem_of_getElem? hnumber, (hdocument number doc hnumber).mpr h⟩

/-- The unresolved nodes of a graph are those that are minted. -/
theorem mem_unresolved_iff_mints :
    id ∈ (((link generation documents).graph cycles documents).nodesOf .unresolved).map Node.id ↔
      Mints (documents.flatMap (Projection.document ⟨link generation documents, cycles,
        (link generation documents).duplicates.map (·.symbol.key)⟩)) id := by
  have hgraph := graph_wellFormed generation documents cycles
  have hgrounded := documents_grounded generation documents cycles
    ((link generation documents).duplicates.map (·.symbol.key))
  rw [Graph.nodesOf, List.mem_map]
  simp only [List.mem_filter, beq_iff_eq]
  constructor
  · rintro ⟨n, ⟨hn, hkind⟩, hid⟩
    obtain ⟨n', hn', hbare⟩ := exists_emitted hn
    have hid' : n'.id = n.id := (congrArg Node.id hbare :)
    have hkind' : n'.kind = n.kind := (congrArg Node.kind hbare :)
    exact ⟨n', hn', hkind'.trans hkind, hid'.trans hid⟩
  · rintro ⟨n, hn, hkind, hid⟩
    obtain ⟨n', hn', hid'⟩ := List.mem_map.mp (mem_ids_build.mpr ⟨n, hn, hid⟩)
    have hsame : n'.kind = n.kind :=
      (hgraph.node_id n' hn').kind_eq (hgrounded.named n hn) (hid'.trans hid.symm)
    exact ⟨n', ⟨hn', hsame.trans hkind⟩, hid'⟩

/-- The unresolved nodes of a graph stand for the references that dangle, outside of duplicates. -/
theorem mem_unresolved_graph (hpaths : (documents.map Document.path).Nodup) :
    id ∈ (((link generation documents).graph cycles documents).nodesOf .unresolved).map Node.id ↔
      ∃ number doc, documents[number]? = some doc ∧ ∃ d ∈ doc.program.all,
        (number, d.id) ∉ (link generation documents).duplicates.map (·.symbol.key) ∧
          ∃ f ∈ d.fields, (link generation documents).Dangles number d f id := by
  rw [mem_unresolved_iff_mints, mints_documents hpaths]
  simp only [Projection.mints_relationships]

end SymbolTable

/-! ### Diagnostics of a document -/

namespace FileDiagnostic

theorem of_append (path : DocumentPath) (ds ds' : List FileDiagnostic) :
    of path (ds ++ ds') = of path ds ++ of path ds' := by
  rw [of, List.filter_append, List.map_append]
  rfl

theorem of_perm (path : DocumentPath) {ds ds' : List FileDiagnostic} (h : ds.Perm ds') :
    (of path ds).Perm (of path ds') :=
  (h.filter _).map _

theorem of_sort (path : DocumentPath) (ds : List FileDiagnostic) :
    (of path (sort ds)).Perm (of path ds) :=
  of_perm path (List.mergeSort_perm ds _)

theorem of_same (path : DocumentPath) (ds : List Diagnostic) :
    of path (ds.map (⟨path, ·⟩)) = ds := by
  simp [of, List.filter_map, Function.comp_def]

theorem of_other {path other : DocumentPath} (h : other ≠ path) (ds : List Diagnostic) :
    of path (ds.map (⟨other, ·⟩)) = [] := by
  simp [of, List.filter_map, Function.comp_def, h]

/-- Where documents have different paths, the diagnostics of a path are those of one document. -/
theorem of_flatMap {documents : List Document} (g : Document → List Diagnostic)
    (hpaths : (documents.map Document.path).Nodup) {doc : Document} (hdoc : doc ∈ documents) :
    of doc.path (documents.flatMap fun d => (g d).map (⟨d.path, ·⟩)) = g doc := by
  have hnone : ∀ others : List Document, doc.path ∉ others.map Document.path →
      of doc.path (others.flatMap fun d => (g d).map (⟨d.path, ·⟩)) = [] := by
    intro others hothers
    induction others with
    | nil => rfl
    | cons d others ih =>
      rw [List.map_cons, List.mem_cons, not_or] at hothers
      rw [List.flatMap_cons, of_append, of_other (Ne.symm hothers.1), ih hothers.2]
      rfl
  induction documents with
  | nil => cases hdoc
  | cons d documents ih =>
    rw [List.map_cons, List.nodup_cons] at hpaths
    rw [List.flatMap_cons, of_append]
    obtain rfl | hdoc := List.mem_cons.mp hdoc
    · rw [of_same, hnone documents hpaths.1, List.append_nil]
    · have hne : d.path ≠ doc.path := fun heq => hpaths.1 (heq ▸ List.mem_map_of_mem hdoc)
      rw [of_other hne, List.nil_append, ih hpaths.2 hdoc]

/-- The diagnostics of a linked document are what has been found in it. -/
theorem of_documentDiagnostics {documents : List Document}
    (hpaths : (documents.map Document.path).Nodup) (t : SymbolTable) (cycles : List Cycle)
    (rules : ValidationRules) {doc : Document} (hdoc : doc ∈ documents) :
    of doc.path (documents.flatMap (Linked.documentDiagnostics t cycles rules)) =
      (Linked.documentDiagnostics t cycles rules doc).map (·.diagnostic) := by
  have hlabelled : Linked.documentDiagnostics t cycles rules = fun d =>
      ((Linked.documentDiagnostics t cycles rules d).map (·.diagnostic)).map (⟨d.path, ·⟩) := by
    funext d
    simp only [Linked.documentDiagnostics, List.map_map]
    rfl
  rw [hlabelled, of_flatMap _ hpaths hdoc, List.map_map]
  exact (List.map_id _).symm

end FileDiagnostic

variable (config : Config) (resolver : Option ImportResolver) (sources : List (String × String))

/-- The diagnostics of a compiled document are those of its text, of validation, and of the imports
that could not be loaded for it. -/
theorem diagnosticsFor_perm {number : Nat} {doc : Document}
    (hdoc : (gather config resolver sources).1[number]? = some doc) :
    let t := SymbolTable.link 1 (gather config resolver sources).1
    ((compile config resolver sources).diagnosticsFor doc.path).Perm
      (doc.diagnostics ++ validate t t.cycles config.rules number doc.program ++
        FileDiagnostic.of doc.path (gather config resolver sources).2.failures) := by
  intro t
  have hpaths := nodup_paths_gather config resolver sources
  have hnumber : t.documentAt? doc.path = some number := SymbolTable.documentAt?_link hpaths hdoc
  have hfound : (Linked.documentDiagnostics t t.cycles config.rules doc).map (·.diagnostic) =
      doc.diagnostics ++ validate t t.cycles config.rules number doc.program := by
    simp only [Linked.documentDiagnostics, hnumber, List.map_map]
    exact List.map_id _
  have hlinked : (FileDiagnostic.of doc.path
      (Linked.link config 1 (gather config resolver sources).1).diagnostics).Perm
        (doc.diagnostics ++ validate t t.cycles config.rules number doc.program) := by
    have hof := FileDiagnostic.of_documentDiagnostics hpaths t t.cycles config.rules
      (List.mem_of_getElem? hdoc)
    exact hfound ▸ hof ▸ FileDiagnostic.of_sort doc.path _
  refine (FileDiagnostic.of_sort doc.path _).trans ?_
  rw [FileDiagnostic.of_append]
  exact hlinked.append_right _

/-- The graph has an unresolved node for exactly the references that dangle, and validation says of
each reference what its selector and its meaning call for, and nothing else about references. -/
theorem compile_references :
    let documents := (gather config resolver sources).1
    let t := SymbolTable.link 1 documents
    (∀ id, id ∈ ((compile config resolver sources).graph.nodesOf .unresolved).map Node.id ↔
      ∃ number doc, documents[number]? = some doc ∧ ∃ d ∈ doc.program.all,
        (number, d.id) ∉ t.duplicates.map (·.symbol.key) ∧
          ∃ f ∈ d.fields, t.Dangles number d f id) ∧
      ∀ number doc, documents[number]? = some doc →
        let found := validate t t.cycles config.rules number doc.program
        ((compile config resolver sources).diagnosticsFor doc.path).Perm
            (doc.diagnostics ++ found ++
              FileDiagnostic.of doc.path (gather config resolver sources).2.failures) ∧
        (∀ d ∈ doc.program.all, ∀ f ∈ d.fields, f.inlined = none →
          (Validation.reference t number f).map Validation.finding? =
            (Validation.expected? t number f).toList.map some) ∧
        found.filterMap Validation.finding? = doc.program.all.flatMap fun d =>
          (Validation.expectedVersion? d).toList ++
            (d.fields.filter (·.inlined.isNone)).filterMap (Validation.expected? t number) := by
  intro documents t
  constructor
  · intro id
    exact SymbolTable.mem_unresolved_graph (nodup_paths_gather config resolver sources)
  · intro number doc hdoc
    refine ⟨diagnosticsFor_perm config resolver sources hdoc, ?_, ?_⟩
    · intro d _ f _ _
      exact Validation.findings_reference t number f
    · exact findings_validate 1 documents t.cycles config.rules number doc.program

end EventCatalog
