import EventCatalog.Proofs.Compilation.Generation
import EventCatalog.Proofs.Path.Order
import Mathlib.Data.List.Induction

/-! # Compiling sorted documents

Sources are sorted as they come in, the last one for a path counts (`mem_sortSources`), and what is
sorted stays as it is when it is sorted again.  So without a resolver compiling is linking the
documents in the order of their paths (`compile_none`). -/

namespace EventCatalog

open Syntax

/-! ### Sources -/

/-- The text of the last source for a path. -/
def lastText? (sources : List (String × String)) (path : DocumentPath) : Option String :=
  ((sources.filter fun s => DocumentPath.ofString s.1 == path).getLast?).map (·.2)

theorem mem_insertSource {path : DocumentPath} {text : String}
    {sources : List (DocumentPath × String)} (h : PathSorted Prod.fst sources)
    (s : DocumentPath × String) :
    s ∈ insertSource path text sources ↔ s = (path, text) ∨ s ∈ sources ∧ s.1 ≠ path := by
  induction sources with
  | nil => simp [insertSource]
  | cons e sources ih =>
    obtain ⟨p, t⟩ := e
    obtain ⟨hbehind, hrest⟩ := List.pairwise_cons.mp h
    rw [insertSource]
    cases hcmp : path.order p with
    | lt =>
      have hother : ∀ s ∈ (p, t) :: sources, s.1 ≠ path := by
        rintro s (_ | ⟨_, hs⟩)
        · exact (DocumentPath.ne_of_lt hcmp).symm
        · exact (DocumentPath.ne_of_lt (Std.TransCmp.lt_trans hcmp (hbehind s hs))).symm
      rw [List.mem_cons]
      exact or_congr_right ⟨fun hs => ⟨hs, hother s hs⟩, And.left⟩
    | eq =>
      obtain rfl : path = p := Std.LawfulEqCmp.eq_of_compare hcmp
      have hother : ∀ s ∈ sources, s.1 ≠ path := fun s hs =>
        (DocumentPath.ne_of_lt (hbehind s hs)).symm
      simp only [List.mem_cons]
      constructor
      · rintro (hs | hs)
        · exact .inl hs
        · exact .inr ⟨.inr hs, hother s hs⟩
      · rintro (hs | ⟨rfl | hs, hne⟩)
        · exact .inl hs
        · exact absurd rfl hne
        · exact .inr hs
    | gt =>
      have hne : p ≠ path := DocumentPath.ne_of_lt (Std.OrientedCmp.gt_iff_lt.mp hcmp)
      simp only [List.mem_cons, ih hrest]
      constructor
      · rintro (rfl | hs | ⟨hs, hs'⟩)
        · exact .inr ⟨.inl rfl, hne⟩
        · exact .inl hs
        · exact .inr ⟨.inr hs, hs'⟩
      · rintro (hs | ⟨rfl | hs, hs'⟩)
        · exact .inr (.inl hs)
        · exact .inl rfl
        · exact .inr (.inr ⟨hs, hs'⟩)

theorem sorted_insertSource (path : DocumentPath) (text : String)
    {sources : List (DocumentPath × String)} (h : PathSorted Prod.fst sources) :
    PathSorted Prod.fst (insertSource path text sources) := by
  induction sources with
  | nil => exact List.pairwise_singleton _ _
  | cons e sources ih =>
    obtain ⟨p, t⟩ := e
    obtain ⟨hbehind, hrest⟩ := List.pairwise_cons.mp h
    rw [insertSource]
    cases hcmp : path.order p with
    | lt =>
      refine List.pairwise_cons.mpr ⟨?_, h⟩
      rintro s (_ | ⟨_, hs⟩)
      · exact hcmp
      · exact Std.TransCmp.lt_trans hcmp (hbehind s hs)
    | eq =>
      obtain rfl : path = p := Std.LawfulEqCmp.eq_of_compare hcmp
      exact List.pairwise_cons.mpr ⟨hbehind, hrest⟩
    | gt =>
      refine List.pairwise_cons.mpr ⟨fun s hs => ?_, ih hrest⟩
      obtain rfl | ⟨hs, -⟩ := (mem_insertSource hrest s).mp hs
      · exact Std.OrientedCmp.gt_iff_lt.mp hcmp
      · exact hbehind s hs

theorem sorted_sortSources (sources : List (String × String)) :
    PathSorted Prod.fst (sortSources sources) := by
  induction sources using List.reverseRecOn with
  | nil => exact .nil
  | append_singleton sources s ih =>
    rw [sortSources, List.foldl_append]
    exact sorted_insertSource _ _ ih

/-- The last source for a path counts. -/
theorem mem_sortSources (sources : List (String × String)) (path : DocumentPath)
    (text : String) : (path, text) ∈ sortSources sources ↔ lastText? sources path = some text := by
  induction sources using List.reverseRecOn with
  | nil => simp [sortSources, lastText?]
  | append_singleton sources s ih =>
    have hsorted := sorted_sortSources sources
    rw [sortSources, List.foldl_append, List.foldl_cons, List.foldl_nil]
    change (path, text) ∈ insertSource _ _ (sortSources sources) ↔ _
    rw [mem_insertSource hsorted, ih, lastText?, lastText?, List.filter_append]
    by_cases h : DocumentPath.ofString s.1 = path
    · subst h
      simp [eq_comm]
    · simp [h, Ne.symm h]

/-! ### Documents and diagnostics in order -/

theorem sortDocuments_of_sorted {documents : List Document}
    (h : PathSorted Document.path documents) : sortDocuments documents = documents :=
  List.mergeSort_of_pairwise (h.imp fun hlt => by rw [hlt]; rfl)

namespace FileDiagnostic

theorem codeOrder_eq (c d : Option Diagnostic.Code) :
    codeOrder c d = compare (c.map (·.text)) (d.map (·.text)) := by
  cases c <;> cases d <;> rfl

theorem order_eq : order =
    compareLex (compareOn fun d => d.path.text) (compareLex
      (compareOn fun d => (place d.diagnostic).start) (compareLex
        (compareOn fun d => (place d.diagnostic).stop)
        (compareOn fun d => d.diagnostic.code.map (·.text)))) := by
  funext a b
  rw [order, codeOrder_eq]
  rfl

instance : Std.TransCmp order := by
  rw [order_eq]
  infer_instance

theorem order_trans (a b c : FileDiagnostic) (hab : (a.order b).isLE = true)
    (hbc : (b.order c).isLE = true) : (a.order c).isLE = true :=
  Std.TransCmp.isLE_trans hab hbc

theorem order_total (a b : FileDiagnostic) : ((a.order b).isLE || (b.order a).isLE) = true := by
  have h : b.order a = (a.order b).swap := Std.OrientedCmp.eq_swap
  rw [h]
  cases a.order b <;> rfl

/-- Sorting again changes nothing. -/
theorem sort_sort (ds : List FileDiagnostic) : sort (sort ds) = sort ds :=
  List.mergeSort_of_pairwise (List.pairwise_mergeSort order_trans order_total ds)

end FileDiagnostic

/-! ### Compiling -/

/-- The documents of some sources, in the order of their paths. -/
def readSources (sources : List (String × String)) : List Document :=
  (sortSources sources).map fun s => Document.read s.1 s.2

theorem sorted_readSources (sources : List (String × String)) :
    PathSorted Document.path (readSources sources) :=
  List.pairwise_map.mpr (sorted_sortSources sources)

theorem mem_readSources (sources : List (String × String)) (d : Document) :
    d ∈ readSources sources ↔
      ∃ text, lastText? sources d.path = some text ∧ d = Document.read d.path text := by
  rw [readSources, List.mem_map]
  constructor
  · rintro ⟨⟨path, text⟩, hs, rfl⟩
    exact ⟨text, (mem_sortSources _ _ _).mp hs, rfl⟩
  · rintro ⟨text, htext, hd⟩
    exact ⟨(d.path, text), (mem_sortSources _ _ _).mpr htext, hd.symm⟩

theorem gather_none (config : Config) (sources : List (String × String)) :
    (gather config none sources).1 = readSources sources := by
  change sortDocuments (readSources sources ++ []) = readSources sources
  rw [List.append_nil, sortDocuments_of_sorted (sorted_readSources sources)]

/-- Without a resolver compiling is linking the sources in the order of their paths, under any
number. -/
theorem compile_none (config : Config) (sources : List (String × String)) (number : Nat) :
    (compile config none sources).graph = (Linked.link config number (readSources sources)).graph ∧
      (compile config none sources).diagnostics =
        (Linked.link config number (readSources sources)).diagnostics := by
  have hsort : sortDocuments (readSources sources ++ []) = readSources sources := by
    rw [List.append_nil, sortDocuments_of_sorted (sorted_readSources sources)]
  have hgraph : (compile config none sources).graph =
      (Linked.link config 1 (sortDocuments (readSources sources ++ []))).graph := rfl
  have hdiagnostics : (compile config none sources).diagnostics = FileDiagnostic.sort
      ((Linked.link config 1 (sortDocuments (readSources sources ++ []))).diagnostics ++ []) := rfl
  rw [hgraph, hdiagnostics, hsort, List.append_nil]
  refine ⟨Linked.graph_link config 1 number _, ?_⟩
  exact (FileDiagnostic.sort_sort _).trans (Linked.diagnostics_link config 1 number _)

end EventCatalog
