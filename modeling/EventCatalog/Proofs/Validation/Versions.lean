import EventCatalog.Proofs.Scope.Bindings
import EventCatalog.Validation

/-! # The versions that a complaint offers

A reference for which no version is found is told which versions there are.  They are those of the
definitions that bear its name; the candidates of the reference are these definitions, or those of
them that stand in the document that the name is imported from (`Validation.versions_listed`).  Where
an import gives the name to a definition of another name, other versions are told than those that were
candidates, or none (`Validation.not_versions_of_candidates`). -/

namespace EventCatalog

open Syntax

namespace SymbolTable

variable {t : SymbolTable} {document : Nat} {name : String}

/-- No import of the document gives the name to definitions of another name. -/
def KeepsName (t : SymbolTable) (document : Nat) (name : String) : Prop :=
  ∀ b, (t.imports document).get? name = some b → b.name = name

/-- The linked document that a name is imported from, if it defines it. -/
def sourceOf? (t : SymbolTable) (document : Nat) (name : String) : Option Nat :=
  ((t.imports document).get? name).bind fun b =>
    b.target.filter fun target => !(t.exportedBy target b.name).isEmpty

/-- A name that is imported as it is means definitions of that name: all of them, or those in the
document that it is imported from. -/
theorem candidates_of_keepsName (h : t.KeepsName document name) :
    t.candidates document name =
      (t.lookup name).filter fun s => (t.sourceOf? document name).all (s.document == ·) := by
  have hall : t.sourceOf? document name = none → t.lookup name =
      (t.lookup name).filter fun s => (t.sourceOf? document name).all (s.document == ·) := by
    intro hnone
    simp [hnone]
  cases hget : (t.imports document).get? name with
  | none =>
    rw [candidates_of_not_import hget]
    exact hall (by simp [sourceOf?, hget])
  | some b =>
    have hname := h b hget
    rw [candidates_of_import hget, meant, hname]
    cases htarget : b.target with
    | none => exact hall (by simp [sourceOf?, hget, htarget])
    | some target =>
      simp only [List.isEmpty_iff]
      by_cases hempty : t.exportedBy target name = []
      · rw [if_pos hempty]
        exact hall (by simp [sourceOf?, hget, htarget, hname, hempty])
      · have hsource : t.sourceOf? document name = some target := by
          simp [sourceOf?, hget, htarget, hname, hempty]
        rw [if_neg hempty, hsource]
        rfl

end SymbolTable

namespace Validation

/-- The versions of definitions, as a complaint lists them. -/
def listing (symbols : List Symbol) : String :=
  "available versions: " ++ String.intercalate ", " (symbols.map fun s => s.version.getD "none")

/-- The complaint that there is no wanted version comes from resolving, and lists the versions of the
definitions that bear the name. -/
theorem of_code_noMatchingVersion {t : SymbolTable} {document : Nat} {f : Field} {d : Diagnostic}
    (hmem : d ∈ reference t document f) (hcode : d.code = some .noMatchingVersion) :
    t.resolve document f.reference f.wanted = .error .noMatchingVersion ∧
      d.help = some (listing ((t.lookup f.reference.name.value).filter (f.wanted.accepts ·.kind))) := by
  unfold reference at hmem
  simp only at hmem
  split at hmem
  · obtain rfl := List.mem_singleton.mp hmem
    cases hcode
  · cases hresolve : t.resolve document f.reference f.wanted with
    | ok s => simp [hresolve] at hmem
    | error e =>
      rw [hresolve] at hmem
      cases e with
      | noMatchingVersion =>
        obtain rfl := List.mem_singleton.mp hmem
        exact ⟨rfl, rfl⟩
      | _ =>
        obtain rfl := List.mem_singleton.mp hmem
        cases hcode

/-- The versions that are listed for a reference whose name no import gives to definitions of another
name.  They are those of the definitions of an accepted kind that bear the name, and there is at least
one.  The candidates of an accepted kind are these very definitions, unless the name is imported from a
linked document that defines it; then they are those of them that stand in that document. -/
theorem versions_listed {t : SymbolTable} {document : Nat} {f : Field} {d : Diagnostic}
    (hmem : d ∈ reference t document f) (hcode : d.code = some .noMatchingVersion)
    (hname : t.KeepsName document f.reference.name.value) :
    let name := f.reference.name.value
    let bearers := (t.lookup name).filter (f.wanted.accepts ·.kind)
    let considered := (t.candidates document name).filter (f.wanted.accepts ·.kind)
    t.resolve document f.reference f.wanted = .error .noMatchingVersion ∧
    d.help = some (listing bearers) ∧ bearers ≠ [] ∧ considered ≠ [] ∧
    (t.sourceOf? document name = none → considered = bearers) ∧
    ∀ target, t.sourceOf? document name = some target →
      considered = bearers.filter (·.document == target) := by
  intro name bearers considered
  obtain ⟨hresolve, hhelp⟩ := of_code_noMatchingVersion hmem hcode
  have hconsidered : considered =
      bearers.filter fun s => (t.sourceOf? document name).all (s.document == ·) := by
    simp only [considered, bearers]
    rw [SymbolTable.candidates_of_keepsName hname, List.filter_filter, List.filter_filter]
    exact List.filter_congr fun s _ => Bool.and_comm _ _
  have hne : considered ≠ [] := by
    obtain ⟨-, h⟩ | ⟨first, others, -, -, h⟩ | ⟨hcompeting, -, -⟩ | ⟨s, -, h⟩ :=
      SymbolTable.resolve_cases t document f.reference f.wanted
    · simp [hresolve] at h
    · simp [hresolve] at h
    · obtain ⟨s, hs⟩ := List.exists_mem_of_ne_nil _ hcompeting
      obtain ⟨hcandidate, haccepts⟩ := SymbolTable.mem_competing.mp hs
      exact List.ne_nil_of_mem (List.mem_filter.mpr ⟨hcandidate, haccepts⟩)
    · simp [hresolve] at h
  refine ⟨hresolve, hhelp, ?_, hne, ?_, ?_⟩
  · rintro hnil
    rw [hconsidered, hnil] at hne
    exact hne rfl
  · intro hsource
    rw [hconsidered]
    simp [hsource]
  · intro target hsource
    rw [hconsidered]
    simp [hsource]

/-- An event that is imported from one of two documents which define it: the versions in both are told,
and only the one in the first was a candidate. -/
theorem versions_listed_elsewhere :
    let sources := [(DocumentPath.ofString "a.ec",
        "import \x7b A \x7d from \"b.ec\"\nservice S \x7b\n  sends event A@^2\n\x7d\n"),
      (DocumentPath.ofString "b.ec", "event A \x7b\n  version 1.0.0\n\x7d\n"),
      (DocumentPath.ofString "c.ec", "event A \x7b\n  version 1.5.0\n\x7d\n")]
    let t := SymbolTable.linkTexts 1 sources
    let f : Field := .plain "sends" (.only .event) ⟨⟨"A", ⟨0, 1⟩⟩, Selector.parse "^2", none⟩
    let d := (reference t 0 f).headD (.plain .error "")
    d.help = some "available versions: 1.0.0, 1.5.0" ∧
      ((t.candidates 0 "A").filter (f.wanted.accepts ·.kind)).map (·.version) = [some "1.0.0"] := by
  intro sources t f d
  have hmem : d ∈ reference t 0 f := by decide +kernel
  have hcode : d.code = some .noMatchingVersion := by decide +kernel
  have hname : t.KeepsName 0 "A" := by
    have hget : ((t.imports 0).get? "A").map (·.name) = some "A" := by decide +kernel
    intro b hb
    simpa [hb] using hget
  obtain ⟨-, hhelp, -, -, -, hsource⟩ := versions_listed hmem hcode hname
  have hconsidered := hsource 1 (by decide +kernel)
  constructor
  · rw [hhelp]
    decide +kernel
  · refine (congrArg (List.map Symbol.version) hconsidered).trans ?_
    decide +kernel

/-! ### Another name -/

/-- A reference by an alias is told of no version, although there was a candidate. -/
theorem not_versions_of_candidates :
    ¬∀ (generation : Nat) (sources : List (DocumentPath × String)) (document : Nat)
      (path : DocumentPath) (source : String), sources[document]? = some (path, source) →
      let t := SymbolTable.linkTexts generation sources
      ∀ e ∈ (parse source).program.all, ∀ f ∈ e.fields, f.inlined.isNone = true →
        ∀ d ∈ reference t document f, d.code = some .noMatchingVersion →
          d.help = some (listing
            ((t.candidates document f.reference.name.value).filter (f.wanted.accepts ·.kind))) := by
  intro h
  let source := "import \x7b A as B \x7d from \"b.ec\"\nservice S \x7b\n  sends event B@2\n\x7d\n"
  let sources := [(DocumentPath.ofString "a.ec", source),
    (DocumentPath.ofString "b.ec", "event A \x7b\n  version 1.0.0\n\x7d\n")]
  have hall := h 1 sources 0 _ source rfl
  revert hall
  decide +kernel

end Validation

end EventCatalog
