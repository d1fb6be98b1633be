import EventCatalog.Proofs.Scope.Picking
import EventCatalog.Proofs.Scope.Resolve
import EventCatalog.Proofs.Syntax.Fields
import EventCatalog.Proofs.Syntax.Numbering
import Mathlib.Data.List.Nodup

/-! # Keys of definitions

In a table that links documents that have been read, a definition is known by its key, and what is
written inside a definition of the table is in the table (`SymbolTable.regular_link_read`).  So what
a field points to is one definition (`SymbolTable.Regular.fieldTarget?_iff`).  The table lists the
definitions in the order of their keys (`SymbolTable.sorted_exports`). -/

namespace EventCatalog

open Syntax

/-! ### The order of definitions -/

namespace Symbol

theorem order_isLE_iff {s u : Symbol} : (s.order u).isLE = true ↔
    s.document < u.document ∨ s.document = u.document ∧ s.definition.id ≤ u.definition.id := by
  rw [order, Ordering.isLE_then_iff_and, Nat.isLE_compare, Nat.compare_eq_lt, Nat.isLE_compare]
  omega

theorem order_trans (s u v : Symbol) (hsu : (s.order u).isLE = true) (huv : (u.order v).isLE = true) :
    (s.order v).isLE = true := by
  rw [order_isLE_iff] at hsu huv ⊢
  omega

theorem order_total (s u : Symbol) : ((s.order u).isLE || (u.order s).isLE) = true := by
  rw [Bool.or_eq_true, order_isLE_iff, order_isLE_iff]
  omega

theorem order_eq_lt_iff {s u : Symbol} : s.order u = .lt ↔
    s.document < u.document ∨ s.document = u.document ∧ s.definition.id < u.definition.id := by
  rw [order, Ordering.then_eq_lt, Nat.compare_eq_lt, Nat.compare_eq_eq, Nat.compare_eq_lt]

theorem key_eq_iff {s u : Symbol} :
    s.key = u.key ↔ s.document = u.document ∧ s.definition.id = u.definition.id := by
  rw [key, key, Prod.mk.injEq]

theorem key_ne_of_lt {s u : Symbol} (h : s.order u = .lt) : s.key ≠ u.key := by
  rw [order_eq_lt_iff] at h
  rw [Ne, key_eq_iff]
  omega

end Symbol

namespace SymbolTable

/-- Definitions differ by their keys, and those inside a definition are there as well. -/
structure Regular (t : SymbolTable) : Prop where
  nodup_keys : (t.exports.map Symbol.key).Nodup
  nested_mem : ∀ s ∈ t.exports, ∀ d ∈ s.definition.nested, (⟨s.document, d⟩ : Symbol) ∈ t.exports

/-- The definition that a field of a definition in a document means: the one written in place of the
reference, or else the one that the reference resolves to. -/
def Means (t : SymbolTable) (document : Nat) (f : Field) (s : Symbol) : Prop :=
  match f.inlined with
  | some d => s = ⟨document, d⟩
  | none => t.resolve document f.reference f.wanted = .ok s

variable {t : SymbolTable}

/-- Name by name no definition comes twice either. -/
theorem nodup_symbols (h : t.exports.Nodup) : t.symbols.Nodup := by
  refine List.nodup_flatMap.mpr ⟨fun name _ => h.filter _, ?_⟩
  refine (nodup_eraseDups _).imp fun {name other} hne => ?_
  intro s hs hs'
  exact hne ((mem_lookup.mp hs).2.symm.trans (mem_lookup.mp hs').2)

theorem fieldTarget?_eq_some_iff {document : Nat} {f : Field} {key : Nat × Nat} :
    t.fieldTarget? document f = some key ↔ ∃ u, t.Means document f u ∧ u.key = key := by
  unfold fieldTarget? Means
  cases f.inlined with
  | some d => simp [Symbol.key]
  | none =>
    cases hr : t.resolve document f.reference f.wanted with
    | error e => simp [Except.toOption]
    | ok v => simp [Except.toOption]

namespace Regular

variable (ht : t.Regular)

include ht

theorem eq_of_key_eq {s u : Symbol} (hs : s ∈ t.exports) (hu : u ∈ t.exports)
    (h : s.key = u.key) : s = u :=
  List.inj_on_of_nodup_map ht.nodup_keys hs hu h

/-- What a field means is in the table. -/
theorem mem_of_means {s u : Symbol} (hs : s ∈ t.exports) {f : Field}
    (hf : f ∈ s.definition.fields) (h : t.Means s.document f u) : u ∈ t.exports := by
  unfold Means at h
  split at h
  · rename_i d hinlined
    rw [h]
    exact ht.nested_mem s hs d (Definition.nested_of_inlined hf hinlined)
  · exact mem_exports_of_resolve h

/-- The key that a field points to is that of the definition it means. -/
theorem fieldTarget?_iff {s u : Symbol} (hs : s ∈ t.exports) (hu : u ∈ t.exports) {f : Field}
    (hf : f ∈ s.definition.fields) :
    t.fieldTarget? s.document f = some u.key ↔ t.Means s.document f u := by
  rw [fieldTarget?_eq_some_iff]
  constructor
  · rintro ⟨v, hv, hvu⟩
    exact ht.eq_of_key_eq (ht.mem_of_means hs hf hv) hu hvu ▸ hv
  · exact fun h => ⟨u, h, rfl⟩

end Regular

theorem nodup_keys_exportsOf {number : Nat} {documents : List Document}
    (h : ∀ d ∈ documents, (d.exports.map (·.id)).Nodup) :
    ((exportsOf number documents).map Symbol.key).Nodup := by
  induction documents generalizing number with
  | nil => simp [exportsOf]
  | cons d documents ih =>
    rw [exportsOf, List.map_append, List.nodup_append]
    refine ⟨?_, ih fun e he => h e (List.mem_cons_of_mem _ he), ?_⟩
    · have hids := h d List.mem_cons_self
      rw [← List.nodup_map_iff (f := Prod.mk number) (fun _ _ h => (Prod.mk.inj h).2),
        List.map_map] at hids
      rw [List.map_map]
      exact hids
    · rintro _ hown _ hother rfl
      obtain ⟨s, hs, hkey⟩ := List.mem_map.mp hown
      obtain ⟨e, -, rfl⟩ := List.mem_map.mp hs
      obtain ⟨u, hu, huk⟩ := List.mem_map.mp hother
      obtain ⟨i, -, -, hdocument, -⟩ := mem_exportsOf.mp hu
      have hnumber : number = u.document := congrArg Prod.fst (hkey.trans huk.symm)
      omega

theorem regular_link {generation : Nat} {documents : List Document}
    (h : ∀ d ∈ documents, (d.exports.map (·.id)).Nodup) : (link generation documents).Regular where
  nodup_keys := nodup_keys_exportsOf h
  nested_mem s hs d hd := by
    obtain ⟨doc, hdoc, hdefinition⟩ := mem_exports_link.mp hs
    exact mem_exports_link.mpr ⟨doc, hdoc, Definition.mem_allOf_of_nested hdefinition hd⟩

theorem regular_link_read (generation : Nat) (sources : List (DocumentPath × String)) :
    (linkTexts generation sources).Regular := by
  refine regular_link fun d hd => ?_
  obtain ⟨⟨path, text⟩, -, rfl⟩ := List.mem_map.mp hd
  exact nodup_ids_parse text

theorem sorted_exportsOf {number : Nat} {documents : List Document}
    (h : ∀ d ∈ documents, (d.exports.map (·.id)).Pairwise (· < ·)) :
    (exportsOf number documents).Pairwise fun s u => s.order u = .lt := by
  induction documents generalizing number with
  | nil => exact .nil
  | cons d documents ih =>
    rw [exportsOf, List.pairwise_append, List.pairwise_map]
    refine ⟨?_, ih fun e he => h e (List.mem_cons_of_mem _ he), ?_⟩
    · refine (List.pairwise_map.mp (h d List.mem_cons_self)).imp ?_
      exact fun hlt => Symbol.order_eq_lt_iff.mpr (.inr ⟨rfl, hlt⟩)
    · intro s hs u hu
      obtain ⟨e, -, rfl⟩ := List.mem_map.mp hs
      obtain ⟨i, -, -, hdocument, -⟩ := mem_exportsOf.mp hu
      exact Symbol.order_eq_lt_iff.mpr (.inl (by change number < u.document; omega))

/-- A table of documents that have been read lists the definitions in order. -/
theorem sorted_exports (generation : Nat) (sources : List (DocumentPath × String)) :
    (linkTexts generation sources).exports.Pairwise fun s u => s.order u = .lt := by
  refine sorted_exportsOf fun d hd => ?_
  obtain ⟨⟨path, text⟩, -, rfl⟩ := List.mem_map.mp hd
  change ((parse text).program.all.map (·.id)).Pairwise (· < ·)
  rw [ids_parse]
  exact List.pairwise_lt_range

end SymbolTable

end EventCatalog
