import EventCatalog.Validation
import Mathlib.Data.List.Basic

/-! # What validation says of references

A complaint about a reference is told by its cause (`Validation.finding?`).  Each reference gets the
one complaint that its selector and its meaning call for, or none (`Validation.findings_reference`),
and the other checks of a linked document find causes of their own, malformed versions of definitions
apart (`findings_validate`). -/

namespace EventCatalog

open Syntax

namespace Validation

/-- A complaint about a reference or a version: how grave it is, its cause, and its place. -/
structure Finding where
  severity : Severity
  code : Diagnostic.Code
  place : Option Span
deriving DecidableEq, Repr

/-- The causes of complaints about references. -/
def referenceCodes : List Diagnostic.Code :=
  [.malformedVersion, .unresolvedReference, .noMatchingVersion, .kindMismatch]

/-- What a diagnostic finds if its cause is one of references. -/
def finding? (d : Diagnostic) : Option Finding :=
  (d.code.filter referenceCodes.contains).map fun code => ⟨d.severity, code, d.primarySpan⟩

/-- What is to be found about a reference in a document. -/
def expected? (t : SymbolTable) (document : Nat) (f : Field) : Option Finding :=
  let r := f.reference
  if r.selector.isMalformed then
    some ⟨.warning, .malformedVersion, some (r.selectorSpan.getD r.span)⟩
  else match t.resolve document r f.wanted with
    | .ok _ => none
    | .error .notFound => some ⟨.warning, .unresolvedReference, some r.name.span⟩
    | .error .noMatchingVersion => some ⟨.warning, .noMatchingVersion, some r.span⟩
    | .error (.kindMismatch _) => some ⟨.error, .kindMismatch, some r.name.span⟩

/-- What is to be found about the version of a definition. -/
def expectedVersion? (d : Definition) : Option Finding :=
  (d.version.filter fun v => (Version.coerce v.value).isNone).map fun v =>
    ⟨.warning, .malformedVersion, some v.span⟩

/-- A reference gets exactly the complaint it calls for. -/
theorem findings_reference (t : SymbolTable) (document : Nat) (f : Field) :
    (reference t document f).map finding? = (expected? t document f).toList.map some := by
  unfold reference expected?
  simp only
  split
  · rfl
  · cases t.resolve document f.reference f.wanted with
    | ok s => rfl
    | error e => cases e <;> rfl

theorem findings_version (rules : ValidationRules) (d : Definition) :
    (version rules d).filterMap finding? = (expectedVersion? d).toList := by
  unfold version expectedVersion?
  cases d.version with
  | none =>
    simp only
    split <;> rfl
  | some v =>
    simp only [Option.filter_some]
    split <;> rfl

theorem findings_definition (t : SymbolTable) (rules : ValidationRules) (document : Nat)
    (d : Definition) :
    (definition t rules document d).filterMap finding? =
      (expectedVersion? d).toList ++
        (d.fields.filter (·.inlined.isNone)).filterMap (expected? t document) := by
  have hreference : ∀ f : Field,
      (reference t document f).filterMap finding? = (expected? t document f).toList := by
    intro f
    have hid : (reference t document f).filterMap finding? =
        ((reference t document f).map finding?).filterMap id := by
      rw [List.filterMap_map]
      rfl
    rw [hid, findings_reference, List.filterMap_map]
    exact List.filterMap_some
  rw [definition, List.filterMap_append, findings_version, List.filterMap_flatMap,
    List.filterMap_eq_flatMap_toList]
  simp only [hreference]

/-! ### The other checks -/

/-- A diagnostic that is no finding. -/
theorem finding?_eq_none {d : Diagnostic} {code : Diagnostic.Code} (hcode : d.code = some code)
    (h : code ∉ referenceCodes) : finding? d = none := by
  rw [finding?, hcode, Option.filter_some, if_neg (by simpa using h)]
  rfl

theorem code_duplicate (t : SymbolTable) (d : Duplicate) :
    (duplicate t d).code = some .duplicateDefinition ∨
      (duplicate t d).code = some .duplicateExport := by
  unfold duplicate
  simp only
  split
  · exact .inl rfl
  · right
    cases t.pathOf? d.first.document <;> rfl

theorem code_cycle (t : SymbolTable) (c : Cycle) :
    (cycle t c).code = some .cyclicContainment := by
  unfold cycle
  -- The labels that are added along the cycle leave the cause as it is.
  refine List.foldlRecOn (motive := fun d : Diagnostic => d.code = some .cyclicContainment)
    c.others _ rfl fun d hd s _ => ?_
  simp only
  split
  · exact hd
  · cases t.pathOf? s.document <;> exact hd

theorem code_of_mem_bindImport {documents : List Document} {exports : List Symbol}
    {importer : Document} {i : Import} {d : Diagnostic}
    (hd : d ∈ (SymbolTable.bindImport documents exports importer i).2) :
    d.code = some .unresolvedImport ∨ d.code = some .nameNotExported := by
  unfold SymbolTable.bindImport at hd
  simp only at hd
  split at hd
  · obtain rfl := List.mem_singleton.mp hd
    left
    unfold SymbolTable.missingSource
    split <;> rfl
  · obtain ⟨n, -, rfl⟩ := List.mem_map.mp hd
    exact .inr rfl

theorem code_of_mem_linkDiagnostics {generation document : Nat} {documents : List Document}
    {d : Diagnostic}
    (hd : d ∈ (SymbolTable.link generation documents).linkDiagnostics document) :
    d.code = some .unresolvedImport ∨ d.code = some .nameNotExported := by
  rw [SymbolTable.linkDiagnostics, SymbolTable.link, List.getElem?_map] at hd
  cases hdocument : documents[document]? with
  | none => simp [hdocument] at hd
  | some importer =>
    simp only [hdocument, Option.map_some, Option.getD_some, SymbolTable.scopeOf,
      List.mem_flatMap, List.mem_map] at hd
    obtain ⟨_, ⟨i, -, rfl⟩, hd⟩ := hd
    exact code_of_mem_bindImport hd

end Validation

/-- Validating a linked document finds what is to be found about the version and the references of
each definition, and nothing else of that kind. -/
theorem findings_validate (generation : Nat) (documents : List Document) (cycles : List Cycle)
    (rules : ValidationRules) (document : Nat) (p : Program) :
    (validate (.link generation documents) cycles rules document p).filterMap Validation.finding? =
      p.all.flatMap fun d => (Validation.expectedVersion? d).toList ++
        (d.fields.filter (·.inlined.isNone)).filterMap
          (Validation.expected? (.link generation documents) document) := by
  let t := SymbolTable.link generation documents
  have hlink : (t.linkDiagnostics document).filterMap Validation.finding? = [] :=
    List.filterMap_eq_nil_iff.mpr fun d hd =>
      (Validation.code_of_mem_linkDiagnostics hd).elim
        (Validation.finding?_eq_none · (by decide)) (Validation.finding?_eq_none · (by decide))
  have hduplicates : (Validation.duplicates t document).filterMap Validation.finding? = [] := by
    rw [List.filterMap_eq_nil_iff]
    intro d hd
    obtain ⟨duplicate, -, rfl⟩ := List.mem_map.mp hd
    exact (Validation.code_duplicate t duplicate).elim
      (Validation.finding?_eq_none · (by decide)) (Validation.finding?_eq_none · (by decide))
  have hcycles : ((cycles.filter (·.first.document == document)).map
      (Validation.cycle t)).filterMap Validation.finding? = [] := by
    rw [List.filterMap_eq_nil_iff]
    intro d hd
    obtain ⟨c, -, rfl⟩ := List.mem_map.mp hd
    exact Validation.finding?_eq_none (Validation.code_cycle t c) (by decide)
  rw [validate, List.filterMap_append, List.filterMap_append, List.filterMap_append, hlink,
    hduplicates, hcycles, List.filterMap_flatMap, List.nil_append, List.nil_append, List.append_nil]
  simp only [Validation.findings_definition]

end EventCatalog
