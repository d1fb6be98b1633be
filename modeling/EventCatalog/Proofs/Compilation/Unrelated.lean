import EventCatalog.Proofs.Compilation.References
import EventCatalog.Proofs.Graph.Build
import EventCatalog.Proofs.Projection.Insertion

/-! # Adding an unrelated document

A document that the others have nothing to do with (`Unrelated`) is sorted in somewhere among them,
and from there on all numbers are shifted.  Still the others have the same diagnostics in the same
order, and the nodes and edges of their graph are there (`compile_unrelated`).  The new document may
itself import and refer to anything in the others. -/

namespace EventCatalog

open Syntax

/-! ### Diagnostics of one document -/

namespace FileDiagnostic

/-- In sorted diagnostics those of a document are in order, whatever the others are. -/
theorem of_sort_congr {path : DocumentPath} {ds ds' : List FileDiagnostic}
    (h : of path ds = of path ds') : of path (sort ds) = of path (sort ds') := by
  have hpicked : ∀ ds : List FileDiagnostic,
      ds.filter (·.path == path) = (of path ds).map (⟨path, ·⟩) := by
    intro ds
    rw [of, List.map_map]
    refine ((List.map_congr_left fun d hd => ?_).trans (List.map_id _)).symm
    obtain ⟨place, d⟩ := d
    obtain rfl : place = path := beq_iff_eq.mp (List.mem_filter.mp hd).2
    rfl
  rw [of, sort, filter_mergeSort order_trans order_total, hpicked, h, ← hpicked,
    ← filter_mergeSort order_trans order_total]
  rfl

end FileDiagnostic

/-! ### Graphs of more emissions -/

namespace Emission

variable {es es' : List Emission}

theorem ids_subset (h : es ⊆ es') :
    (build es).nodes.map Node.id ⊆ (build es').nodes.map Node.id := by
  intro id hid
  obtain ⟨n, hn, rfl⟩ := mem_ids_build.mp hid
  exact mem_ids_build.mpr ⟨n, h hn, rfl⟩

theorem edge_ids_subset (h : es ⊆ es') :
    (build es).edges.map Edge.id ⊆ (build es').edges.map Edge.id := by
  intro id hid
  rw [build_edges, mem_keys_firsts] at hid ⊢
  obtain ⟨e, he, rfl⟩ := List.mem_map.mp hid
  exact List.mem_map_of_mem (mem_edges.mpr (h (mem_edges.mp he)))

end Emission

/-! ### Linking -/

section

variable {before after : List Document} {doc : Document}
  (hpaths : ((before ++ doc :: after).map Document.path).Nodup) (config : Config) (generation : Nat)

include hpaths

theorem SymbolTable.documentAt?_insert {d : Document} (hd : d ∈ before ++ after) :
    ∃ n, (link generation (before ++ after)).documentAt? d.path = some n ∧
      (link generation (before ++ doc :: after)).documentAt? d.path =
        some (shifted before.length n) := by
  have hold : ((before ++ after).map Document.path).Nodup :=
    hpaths.sublist (((List.sublist_cons_self doc after).append_left before).map Document.path)
  obtain ⟨n, hn⟩ := List.mem_iff_getElem?.mp hd
  refine ⟨n, documentAt?_link hold hn, documentAt?_link hpaths ?_⟩
  rw [getElem?_insert, hn]

variable (h : Unrelated (before ++ after) doc)

include h

/-- The same is found in a document with and without an unrelated one. -/
theorem Linked.documentDiagnostics_insert {d : Document} (hd : d ∈ before ++ after) :
    let t := SymbolTable.link generation (before ++ after)
    let t' := SymbolTable.link generation (before ++ doc :: after)
    documentDiagnostics t' t'.cycles config.rules d =
      documentDiagnostics t t.cycles config.rules d := by
  intro t t'
  obtain ⟨n, hn, hn'⟩ := SymbolTable.documentAt?_insert hpaths generation hd
  have hvalidate := (SymbolTable.insertion_link generation h).validate config.rules n
    (h.referenced d hd)
  simp only [documentDiagnostics, t, t', hn, hn', hvalidate]

/-- The same is emitted for a document with and without an unrelated one. -/
theorem Projection.document_insert {d : Document} (hd : d ∈ before ++ after) :
    (SymbolTable.link generation (before ++ doc :: after)).projection.document d =
      (SymbolTable.link generation (before ++ after)).projection.document d := by
  obtain ⟨n, hn, hn'⟩ := SymbolTable.documentAt?_insert hpaths generation hd
  simp only [Projection.document, SymbolTable.projection, hn, hn']
  exact ((SymbolTable.insertion_link generation h).agrees n).definitions (h.referenced d hd)

/-- Linking one more document: the others are told the same, and their graph is a part of the
whole. -/
theorem Linked.link_insert :
    let linked := Linked.link config generation (before ++ after)
    let joined := Linked.link config generation (before ++ doc :: after)
    (∀ d ∈ before ++ after,
        FileDiagnostic.of d.path joined.diagnostics = FileDiagnostic.of d.path linked.diagnostics) ∧
      linked.graph.nodes.map Node.id ⊆ joined.graph.nodes.map Node.id ∧
      linked.graph.edges.map Edge.id ⊆ joined.graph.edges.map Edge.id := by
  intro linked joined
  have hsublist : (before ++ after).Sublist (before ++ doc :: after) :=
    (List.sublist_cons_self doc after).append_left before
  have hemitted : (before ++ after).flatMap
        (SymbolTable.link generation (before ++ after)).projection.document ⊆
      (before ++ doc :: after).flatMap
        (SymbolTable.link generation (before ++ doc :: after)).projection.document := by
    intro e he
    obtain ⟨d, hd, he⟩ := List.mem_flatMap.mp he
    rw [← Projection.document_insert hpaths generation h hd] at he
    exact List.mem_flatMap.mpr ⟨d, hsublist.subset hd, he⟩
  refine ⟨fun d hd => FileDiagnostic.of_sort_congr ?_, Emission.ids_subset hemitted,
    Emission.edge_ids_subset hemitted⟩
  rw [FileDiagnostic.of_documentDiagnostics hpaths _ _ _ (hsublist.subset hd),
    FileDiagnostic.of_documentDiagnostics (hpaths.sublist (hsublist.map _)) _ _ _ hd,
    Linked.documentDiagnostics_insert hpaths config generation h hd]

end

/-! ### Compiling -/

section

variable {before after : List (String × String)} {path : String}

/-- A path at which no document is read is that of no source. -/
theorem filter_eq_nil_of_readSources {sources : List (String × String)}
    (h : ∀ d ∈ readSources sources, d.path ≠ DocumentPath.ofString path) :
    sources.filter (fun s => DocumentPath.ofString s.1 == DocumentPath.ofString path) = [] := by
  cases hlast : lastText? sources (DocumentPath.ofString path) with
  | none => simpa [lastText?] using hlast
  | some text =>
    have hread : Document.read (DocumentPath.ofString path) text ∈ readSources sources :=
      (mem_readSources sources _).mpr ⟨text, hlast, rfl⟩
    exact (h _ hread rfl).elim

theorem lastText?_insert (text : String)
    (h : ∀ d ∈ readSources (before ++ after), d.path ≠ DocumentPath.ofString path)
    (p : DocumentPath) : lastText? (before ++ (path, text) :: after) p =
      if DocumentPath.ofString path = p then some text else lastText? (before ++ after) p := by
  have hnone := filter_eq_nil_of_readSources h
  rw [List.filter_append, List.append_eq_nil_iff] at hnone
  rw [lastText?, List.filter_append]
  split
  · rename_i hp
    subst hp
    rw [List.filter_cons_of_pos (by simp), hnone.1, hnone.2]
    rfl
  · rename_i hp
    rw [List.filter_cons_of_neg (by simpa using hp), ← List.filter_append]
    rfl

/-- A source for a new path is read in addition to the others. -/
theorem mem_readSources_insert (text : String)
    (h : ∀ d ∈ readSources (before ++ after), d.path ≠ DocumentPath.ofString path) (d : Document) :
    d ∈ readSources (before ++ (path, text) :: after) ↔
      d = Document.read (DocumentPath.ofString path) text ∨ d ∈ readSources (before ++ after) := by
  rw [mem_readSources, lastText?_insert text h]
  by_cases hp : DocumentPath.ofString path = d.path
  · have hold : d ∉ readSources (before ++ after) := fun hd => h d hd hp.symm
    rw [if_pos hp, or_iff_left hold, hp]
    constructor
    · rintro ⟨t, ht, hd⟩
      rw [hd, Option.some.inj ht]
      rfl
    · exact fun hd => ⟨text, rfl, hd⟩
  · have hnew : d ≠ Document.read (DocumentPath.ofString path) text := by
      rintro rfl
      exact hp rfl
    rw [if_neg hp, or_iff_right hnew, mem_readSources]

/-- It is sorted in somewhere. -/
theorem readSources_insert (text : String)
    (h : ∀ d ∈ readSources (before ++ after), d.path ≠ DocumentPath.ofString path) :
    ∃ front back, readSources (before ++ after) = front ++ back ∧
      readSources (before ++ (path, text) :: after) =
        front ++ Document.read (DocumentPath.ofString path) text :: back := by
  have hmem := mem_readSources_insert text h
  have hsorted := sorted_readSources (before ++ (path, text) :: after)
  obtain ⟨front, back, hsplit⟩ := List.append_of_mem ((hmem _).mpr (.inl rfl))
  rw [hsplit] at hmem hsorted
  have hdistinct : Document.read (DocumentPath.ofString path) text ∉ front ++ back :=
    (List.nodup_cons.mp (List.nodup_middle.mp hsorted.nodup_keys.of_map)).1
  refine ⟨front, back, (sorted_readSources _).eq_of_mem_iff ?_ fun d => ?_, hsplit⟩
  · exact hsorted.sublist ((List.sublist_cons_self _ back).append_left front)
  · have hmem := hmem d
    rw [List.perm_middle.mem_iff, List.mem_cons] at hmem
    by_cases hd : d = Document.read (DocumentPath.ofString path) text
    · subst hd
      exact iff_of_false (fun hold => h _ hold rfl) hdistinct
    · rwa [or_iff_right hd, or_iff_right hd, Iff.comm] at hmem

end

/-- A further document leaves all documents that have nothing to do with it as they were: they have
the same diagnostics, and all nodes and edges of their graph are there. -/
theorem compile_unrelated (config : Config) (before after : List (String × String))
    (path text : String)
    (h : Unrelated (gather config none (before ++ after)).1
      (Document.read (DocumentPath.ofString path) text)) :
    let alone := compile config none (before ++ after)
    let joined := compile config none (before ++ (path, text) :: after)
    (∀ d ∈ (gather config none (before ++ after)).1,
        joined.diagnosticsFor d.path = alone.diagnosticsFor d.path) ∧
      alone.graph.nodes.map Node.id ⊆ joined.graph.nodes.map Node.id ∧
      alone.graph.edges.map Edge.id ⊆ joined.graph.edges.map Edge.id := by
  intro alone joined
  rw [gather_none] at h ⊢
  obtain ⟨front, back, halone, hjoined⟩ := readSources_insert text h.path
  have hpaths := (sorted_readSources (before ++ (path, text) :: after)).nodup_keys
  rw [hjoined] at hpaths
  rw [halone] at h
  have hlink := Linked.link_insert hpaths config 1 h
  rw [← halone, ← hjoined] at hlink
  simp only [Compilation.diagnosticsFor, alone, joined, (compile_none config _ 1).1,
    (compile_none config _ 1).2]
  exact hlink

/-- A log of what is sent changes nothing for those who send and receive it. -/
theorem compile_unrelated_log :
    let orders := ("orders.ec", "event Placed\nservice Orders \x7b\n  sends event Placed\n\x7d\n")
    let billing := ("billing.ec", "import \x7b Placed \x7d from \"orders.ec\"\n" ++
      "service Billing \x7b\n  receives event Placed\n\x7d\n")
    let log := "service Log \x7b\n  receives event Placed\n\x7d\n"
    let alone := compile {} none [billing, orders]
    let joined := compile {} none [billing, ("log.ec", log), orders]
    Unrelated (gather {} none [billing, orders]).1
        (Document.read (DocumentPath.ofString "log.ec") log) ∧
      (∀ d ∈ (gather {} none [billing, orders]).1,
        joined.diagnosticsFor d.path = alone.diagnosticsFor d.path) ∧
      alone.graph.nodes.map Node.id ⊆ joined.graph.nodes.map Node.id ∧
      alone.graph.edges.map Edge.id ⊆ joined.graph.edges.map Edge.id := by
  intro orders billing log alone joined
  have h : Unrelated (gather {} none [billing, orders]).1
      (Document.read (DocumentPath.ofString "log.ec") log) := by
    rw [gather_none]
    exact {
      path := by decide +kernel
      source := by decide +kernel
      exported := by decide +kernel
      referenced := by decide +kernel
      imported := by decide +kernel }
  exact ⟨h, compile_unrelated {} [billing] [orders] "log.ec" log h⟩

end EventCatalog
