import EventCatalog.Proofs.Scope.Duplicates
import EventCatalog.Proofs.Syntax.Causes
import EventCatalog.Proofs.Syntax.Placed.Program
import EventCatalog.Proofs.Validation.Cycles
import EventCatalog.Proofs.Validation.References

/-! # What complaints point to

Most complaints point to places in their own document alone (`Diagnostic.IsLocal`).  Those about
duplicates and cycles go through definitions, perhaps of several documents, and mark their names
(`Validation.marks_duplicate`, `Validation.marks_cycle`). -/

namespace EventCatalog

open Syntax

/-! ### Complaints about one document -/

/-- What was read of the document stays in its text. -/
def Document.Stays (d : Document) : Prop :=
  (⟨d.program, d.diagnostics⟩ : Parsed).Stays d.text

theorem Document.Stays.stands {d : Document} (h : d.Stays) {c : Definition} (hc : c ∈ d.exports) :
    c.Stands d.text := by
  obtain ⟨e, he, hc⟩ := Definition.mem_allOf.mp hc
  exact h.definitions e he c hc

/-- Whether complaints of a cause mark the names of definitions. -/
def Diagnostic.Code.marksNames : Diagnostic.Code → Bool
  | .duplicateDefinition | .duplicateExport | .cyclicContainment => true
  | _ => false

/-- The diagnostic points to places in its own document alone. -/
structure Diagnostic.IsLocal (d : Diagnostic) (text : String) : Prop where
  inside : d.Inside text
  code : ∀ code ∈ d.code, code.marksNames = false

namespace Diagnostic

variable {d : Diagnostic} {s : Span} {text : String}

theorem IsLocal.labelled (hd : d.IsLocal text) (hs : s.Within text) (message : String) :
    (d.labelled s message).IsLocal text :=
  ⟨hd.inside.labelled hs message, hd.code⟩

theorem IsLocal.withHelp (hd : d.IsLocal text) (help : String) : (d.withHelp help).IsLocal text :=
  ⟨hd.inside, hd.code⟩

theorem IsTextual.isLocal (h : d.IsTextual) (hinside : d.Inside text) : d.IsLocal text where
  inside := hinside
  code c hc := by
    obtain ⟨code, hcode, htextual⟩ := h
    rw [hcode] at hc
    cases hc
    cases c <;> first | rfl | cases htextual

end Diagnostic

namespace Validation

variable {t : SymbolTable} {number : Nat} {text : String} {e : Diagnostic}

end Validation

/-! ### Labels -/

namespace Diagnostic.Label

variable {documents : List Document} {path : DocumentPath} {l : Label} {s : Symbol}

end Diagnostic.Label

namespace SymbolTable

variable {generation : Nat} {documents : List Document} {s : Symbol}

end SymbolTable

namespace Validation

variable {generation : Nat} {documents : List Document} {d : Document}

end Validation

end EventCatalog
