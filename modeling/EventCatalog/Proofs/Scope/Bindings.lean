import EventCatalog.Proofs.Scope.Resolve
import EventCatalog.Proofs.Selector.Choice
import EventCatalog.Proofs.Syntax.Entries
import Mathlib.Data.List.Induction
import Mathlib.Data.List.Nodup

/-! # What imports bind

Linking binds each imported name of a document once (`SymbolTable.nodup_imports_link`), and a binding
comes from an import of the document (`SymbolTable.exists_of_mem_imports`).  A reference without a
selector resolves exactly if one of the definitions that its name can mean is of an accepted kind
(`SymbolTable.exists_resolve_iff`). -/

namespace EventCatalog

open Syntax

namespace Document

/-- The names that a document imports, one after another, each with its statement. -/
def importedNames (d : Document) : List (Import × ImportedName) :=
  d.program.imports.flatMap fun i => i.names.map (i, ·)

/-- The import that a name is bound by in a document: the last one under that name. -/
def importOf? (d : Document) (name : String) : Option (Import × ImportedName) :=
  (d.importedNames.filter (·.2.localName.value == name)).getLast?

end Document

/-- Some of the definitions is of an accepted kind. -/
def Wanted.acceptsAny (wanted : Wanted) (symbols : List Symbol) : Bool :=
  symbols.any (wanted.accepts ·.kind)

namespace SymbolTable

/-! ### Imports -/

/-- What an imported name of a document is bound to. -/
def bindingOf (documents : List Document) (d : Document) (i : Import) (n : ImportedName) : Binding :=
  ⟨lastAt? documents (d.path.join i.source.value), n.name.value, n.localName.span⟩

theorem fst_bindImport (documents : List Document) (exports : List Symbol) (d : Document)
    (i : Import) : (bindImport documents exports d i).1 =
      i.names.map fun n => (n.localName.value, bindingOf documents d i n) := by
  rw [bindImport]
  cases hlast : lastAt? documents (d.path.join i.source.value) <;>
    simp only [bindingOf, hlast]

/-- What a name is bound to is imported under that name by some import. -/
theorem exists_of_mem_imports {documents : List Document} {exports : List Symbol} {d : Document}
    {x : String × Binding} (hx : x ∈ (scopeOf documents exports d).imports) :
    ∃ i ∈ d.program.imports, ∃ n ∈ i.names,
      n.localName.value = x.1 ∧ n.name.value = x.2.name := by
  have hbound := (Entries.mem_of_mem_foldl_put hx).resolve_left List.not_mem_nil
  obtain ⟨_, hmem, hx⟩ := List.mem_flatMap.mp hbound
  obtain ⟨i, hi, rfl⟩ := List.mem_map.mp hmem
  rw [fst_bindImport] at hx
  obtain ⟨n, hn, rfl⟩ := List.mem_map.mp hx
  exact ⟨i, hi, n, hn, rfl, rfl⟩

/-- The imports of a number are those of the document that has it. -/
theorem imports_link (generation : Nat) (documents : List Document) (number : Nat) :
    (link generation documents).imports number =
      (documents[number]?.map fun d =>
        (scopeOf documents (exportsOf 0 documents) d).imports).getD [] := by
  rw [imports, link, List.getElem?_map, Option.map_map]
  rfl

/-- A name is bound by the last import under that name. -/
theorem get?_imports_link (generation : Nat) {documents : List Document} {number : Nat}
    {d : Document} (hd : documents[number]? = some d) (name : String) :
    ((link generation documents).imports number).get? name =
      (d.importOf? name).map fun (i, n) => bindingOf documents d i n := by
  have hitems : (d.program.imports.map (bindImport documents (exportsOf 0 documents) d)).flatMap
      (·.1) = d.importedNames.map fun (i, n) => (n.localName.value, bindingOf documents d i n) := by
    simp [Document.importedNames, List.flatMap_map, List.map_flatMap, fst_bindImport,
      Function.comp_def]
  rw [imports_link, hd, Option.map_some, Option.getD_some, scopeOf, hitems,
    Entries.get?_foldl_put, List.filter_map, List.getLast?_map, Option.map_map]
  rfl

/-- A document binds each name once. -/
theorem nodup_imports_link (generation : Nat) (documents : List Document) (number : Nat) :
    (((link generation documents).imports number).map Prod.fst).Nodup := by
  rw [imports_link]
  cases documents[number]? with
  | none => exact List.nodup_nil
  | some d => exact Entries.nodup_keys_foldl_put _ List.nodup_nil

/-! ### Meanings -/

variable {t : SymbolTable} {document : Nat} {name : String} {r : Reference} {wanted : Wanted}
  {s : Symbol}

/-- The definitions that an imported name stands for. -/
def meant (t : SymbolTable) (b : Binding) : List Symbol :=
  let imported := match b.target with
    | some target => t.exportedBy target b.name
    | none => []
  if imported.isEmpty then t.lookup b.name else imported

theorem candidates_of_import {b : Binding} (h : (t.imports document).get? name = some b) :
    t.candidates document name = t.meant b := by
  rw [candidates, h]
  rfl

theorem candidates_of_not_import (h : (t.imports document).get? name = none) :
    t.candidates document name = t.lookup name := by
  rw [candidates, h]

/-- The definitions that compete: those of an accepted kind, the document's own first. -/
def competing (t : SymbolTable) (document : Nat) (r : Reference) (wanted : Wanted) : List Symbol :=
  let accepted := (t.candidates document r.name.value).filter (wanted.accepts ·.kind)
  accepted.filter (·.document == document) ++ accepted.filter (·.document != document)

theorem mem_competing : s ∈ t.competing document r wanted ↔
    s ∈ t.candidates document r.name.value ∧ wanted.accepts s.kind = true := by
  simp only [competing, List.mem_append, List.mem_filter, beq_iff_eq, bne_iff_ne]
  by_cases h : s.document = document <;> simp [h]

/-- Something competes exactly if a definition of an accepted kind can be meant. -/
theorem competing_ne_nil_iff : t.competing document r wanted ≠ [] ↔
    wanted.acceptsAny (t.candidates document r.name.value) = true := by
  simp only [Wanted.acceptsAny, List.any_eq_true, ← mem_competing, ne_eq,
    List.eq_nil_iff_forall_not_mem, not_forall, not_not]

/-- What resolving comes down to: the candidates, those that compete, and the one that is picked. -/
theorem resolve_cases (t : SymbolTable) (document : Nat) (r : Reference) (wanted : Wanted) :
    (t.candidates document r.name.value = [] ∧
      t.resolve document r wanted = .error .notFound) ∨
    (∃ first others, t.candidates document r.name.value = first :: others ∧
      t.competing document r wanted = [] ∧
      t.resolve document r wanted = .error (.kindMismatch first.kind)) ∨
    (t.competing document r wanted ≠ [] ∧
      r.selector.select Symbol.version (t.competing document r wanted) = none ∧
      t.resolve document r wanted = .error .noMatchingVersion) ∨
    ∃ s, r.selector.select Symbol.version (t.competing document r wanted) = some s ∧
      t.resolve document r wanted = .ok s := by
  unfold resolve competing
  cases t.candidates document r.name.value with
  | nil => exact .inl ⟨rfl, rfl⟩
  | cons first others =>
    simp only
    generalize (first :: others).filter (wanted.accepts ·.kind) = accepted
    right
    by_cases hnone : accepted = []
    · subst hnone
      exact .inl ⟨first, others, rfl, rfl, rfl⟩
    · have hsome : accepted.isEmpty = false := List.isEmpty_eq_false_iff.mpr hnone
      obtain ⟨a, ha⟩ := List.exists_mem_of_ne_nil accepted hnone
      have hne : accepted.filter (·.document == document) ++
          accepted.filter (·.document != document) ≠ [] := by
        refine List.ne_nil_of_mem (a := a) (List.mem_append.mpr ?_)
        by_cases hown : a.document = document
        · exact .inl (List.mem_filter.mpr ⟨ha, beq_iff_eq.mpr hown⟩)
        · exact .inr (List.mem_filter.mpr ⟨ha, bne_iff_ne.mpr hown⟩)
      right
      simp only [hsome, Bool.false_eq_true, if_false]
      cases hselect : r.selector.select Symbol.version (accepted.filter (·.document == document) ++
          accepted.filter (·.document != document)) with
      | none => exact .inl ⟨hne, rfl, rfl⟩
      | some s => exact .inr ⟨s, rfl, rfl⟩

theorem select_latest_ne_none {α : Type} {candidates : List α} (versionOf : α → Option String)
    (h : candidates ≠ []) : Selector.latest.select versionOf candidates ≠ none := by
  obtain ⟨a, ha⟩ := List.exists_mem_of_ne_nil candidates h
  rw [Ne, Selector.select_eq_none_iff]
  exact fun hnone => absurd (hnone a ha) nofun

/-- Without a selector any definition of an accepted kind will do. -/
theorem exists_resolve_iff (hselector : r.selector = .latest) :
    (∃ s, t.resolve document r wanted = .ok s) ↔
      wanted.acceptsAny (t.candidates document r.name.value) = true := by
  rw [← competing_ne_nil_iff]
  obtain ⟨hnone, h⟩ | ⟨first, others, -, hnone, h⟩ | ⟨hne, hselect, -⟩ | ⟨s, hselect, h⟩ :=
    resolve_cases t document r wanted
  · refine iff_of_false (by simp [h]) ?_
    simp [competing, hnone]
  · exact iff_of_false (by simp [h]) (not_not.mpr hnone)
  · rw [hselector] at hselect
    exact absurd hselect (select_latest_ne_none _ hne)
  · exact iff_of_true ⟨s, h⟩ (List.ne_nil_of_mem (Selector.mem_of_select hselect))

end SymbolTable

end EventCatalog
