import EventCatalog.Scope

/-! # What a reference can mean

A reference means a definition of a linked document (`SymbolTable.mem_exports_of_resolve`), and the
exports of a table are the definitions of its documents (`SymbolTable.mem_exports_link`). -/

namespace EventCatalog

open Syntax

theorem Selector.mem_of_select {α : Type} {s : Selector} {versionOf : α → Option String}
    {candidates : List α} {a : α} (h : s.select versionOf candidates = some a) :
    a ∈ candidates := by
  have hfold : ∀ (others : List α) (first : α),
      others.foldl (newer versionOf) first ∈ first :: others := by
    intro others
    induction others with
    | nil => exact fun first => List.mem_cons_self
    | cons b others ih =>
      intro first
      rw [List.foldl_cons]
      obtain hnew | hin := List.mem_cons.mp (ih (newer versionOf first b))
      · rw [hnew, newer]
        split
        · exact List.mem_cons_of_mem _ List.mem_cons_self
        · exact List.mem_cons_self
      · exact List.mem_cons_of_mem _ (List.mem_cons_of_mem _ hin)
  rw [select] at h
  split at h
  · cases h
  · rename_i first others hfilter
    cases h
    have hmem := hfold others first
    rw [← hfilter] at hmem
    exact (List.mem_filter.mp hmem).1

namespace SymbolTable

variable {t : SymbolTable} {document : Nat} {r : Reference} {wanted : Wanted}

theorem mem_lookup {name : String} {s : Symbol} :
    s ∈ t.lookup name ↔ s ∈ t.exports ∧ s.name = name := by
  rw [lookup, List.mem_filter, beq_iff_eq]

theorem mem_symbols {s : Symbol} : s ∈ t.symbols ↔ s ∈ t.exports := by
  simp only [symbols, names, List.mem_flatMap, List.mem_eraseDups, List.mem_map, mem_lookup]
  constructor
  · rintro ⟨name, -, hs, -⟩
    exact hs
  · exact fun hs => ⟨s.name, ⟨s, hs, rfl⟩, hs, rfl⟩

theorem mem_exports_of_candidates {name : String} {s : Symbol}
    (h : s ∈ t.candidates document name) : s ∈ t.exports := by
  have hlookup : ∀ name, s ∈ t.lookup name → s ∈ t.exports := fun _ hs => (mem_lookup.mp hs).1
  unfold candidates at h
  split at h
  · simp only at h
    split at h
    · split at h
      · exact hlookup _ h
      · exact hlookup _ (List.mem_filter.mp h).1
    · exact hlookup _ h
  · exact hlookup _ h

/-- A reference means a definition of a linked document. -/
theorem mem_exports_of_resolve {s : Symbol} (h : t.resolve document r wanted = .ok s) :
    s ∈ t.exports := by
  unfold resolve at h
  split at h
  · cases h
  · rename_i first others hcandidates
    simp only at h
    split at h
    · cases h
    · split at h
      · rename_i s' hselect
        cases h
        have hmem := Selector.mem_of_select hselect
        simp only [List.mem_append, List.mem_filter, ← hcandidates] at hmem
        obtain hmem | hmem := hmem
        · exact mem_exports_of_candidates hmem.1.1
        · exact mem_exports_of_candidates hmem.1.1
      · cases h

/-- Where any kind will do, no kind is wrong. -/
theorem resolve_any_ne_kindMismatch (found : Kind) :
    t.resolve document r .any ≠ .error (.kindMismatch found) := by
  unfold resolve
  split
  · simp
  · rename_i first others hcandidates
    have haccepted : (first :: others).filter (fun s => Wanted.any.accepts s.kind) =
      first :: others := by simp [Wanted.accepts]
    simp only [haccepted, List.isEmpty_cons, Bool.false_eq_true, if_false]
    split <;> simp

theorem mem_exportsOf {number : Nat} {documents : List Document} {s : Symbol} :
    s ∈ exportsOf number documents ↔
      ∃ i d, documents[i]? = some d ∧ s.document = number + i ∧ s.definition ∈ d.exports := by
  induction documents generalizing number with
  | nil => simp [exportsOf]
  | cons d documents ih =>
    rw [exportsOf, List.mem_append, List.mem_map, ih]
    constructor
    · rintro (⟨e, he, rfl⟩ | ⟨i, d', hd, hs, he⟩)
      · exact ⟨0, d, rfl, rfl, he⟩
      · exact ⟨i + 1, d', hd, by omega, he⟩
    · rintro ⟨i, d', hd, hs, he⟩
      cases i with
      | zero =>
        cases hd
        exact .inl ⟨s.definition, he, by rw [← Nat.add_zero number, ← hs]⟩
      | succ i => exact .inr ⟨i, d', hd, by omega, he⟩

/-- The exports of a table are the definitions of its documents. -/
theorem mem_exports_link {generation : Nat} {documents : List Document} {s : Symbol} :
    s ∈ (link generation documents).exports ↔
      ∃ d, documents[s.document]? = some d ∧ s.definition ∈ d.exports := by
  rw [link, mem_exportsOf]
  constructor
  · rintro ⟨i, d, hd, hs, he⟩
    rw [Nat.zero_add] at hs
    exact ⟨d, hs ▸ hd, he⟩
  · rintro ⟨d, hd, he⟩
    exact ⟨s.document, d, hd, (Nat.zero_add _).symm, he⟩

/-- Texts that are read and linked. -/
abbrev linkTexts (generation : Nat) (sources : List (DocumentPath × String)) : SymbolTable :=
  link generation (sources.map fun (path, text) => Document.read path text)

end SymbolTable

end EventCatalog
