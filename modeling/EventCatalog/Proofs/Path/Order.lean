import EventCatalog.DocumentPath
import Mathlib.Data.List.Sort

/-! # The order of paths

Paths are ordered by their texts, totally and strictly.  Lists that are sorted by the path of each
item are used for documents and for sources alike, so they are treated here for any key
(`PathSorted`): such a list is determined by its items (`PathSorted.eq_of_mem_iff`). -/

namespace EventCatalog

namespace DocumentPath

theorem text_injective {p q : DocumentPath} (h : p.text = q.text) : p = q := by
  cases p
  cases q
  cases h
  rfl

instance : Std.LawfulEqCmp order where
  compare_self := Std.ReflOrd.compare_self (α := String)
  eq_of_compare h := text_injective (Std.LawfulEqOrd.eq_of_compare h)

instance : Std.TransCmp order where
  eq_swap := Std.OrientedOrd.eq_swap (α := String)
  isLE_trans h h' := Std.TransOrd.isLE_trans (α := String) h h'

theorem ne_of_lt {p q : DocumentPath} (h : p.order q = .lt) : p ≠ q := by
  rintro rfl
  have hself : p.order p = .eq := Std.ReflCmp.compare_self
  rw [hself] at h
  cases h

/-- Every path is the path that some string names. -/
theorem exists_ofString (p : DocumentPath) : ∃ raw, ofString raw = p := by
  obtain ⟨text, raw, h⟩ := p
  refine ⟨String.ofList raw, text_injective ?_⟩
  rw [ofString, String.toList_ofList]
  exact h.symm

end DocumentPath

/-- Each item comes before those after it, by their paths. -/
def PathSorted {α : Type} (key : α → DocumentPath) (items : List α) : Prop :=
  items.Pairwise fun a b => (key a).order (key b) = .lt

namespace PathSorted

variable {α : Type} {key : α → DocumentPath} {items others : List α}

theorem nodup_keys (h : PathSorted key items) : (items.map key).Nodup :=
  List.pairwise_map.mpr (h.imp DocumentPath.ne_of_lt)

/-- Items stand in the order of their paths. -/
theorem lt_of_getElem? (h : PathSorted key items) {i j : Nat} (hij : i < j) {a b : α}
    (ha : items[i]? = some a) (hb : items[j]? = some b) : (key a).order (key b) = .lt := by
  obtain ⟨hi, rfl⟩ := List.getElem?_eq_some_iff.mp ha
  obtain ⟨hj, rfl⟩ := List.getElem?_eq_some_iff.mp hb
  exact List.pairwise_iff_getElem.mp h i j hi hj hij

/-- Sorted lists with the same items are equal. -/
theorem eq_of_mem_iff (h : PathSorted key items) (h' : PathSorted key others)
    (hmem : ∀ a, a ∈ items ↔ a ∈ others) : items = others := by
  have hperm : items.Perm others :=
    (List.perm_ext_iff_of_nodup h.nodup_keys.of_map h'.nodup_keys.of_map).mpr hmem
  refine hperm.eq_of_pairwise (fun a b _ _ hab hba => ?_) h h'
  have hasymm : (key b).order (key a) ≠ .lt := Std.OrientedCmp.not_lt_of_lt hab
  exact absurd hba hasymm

end PathSorted

end EventCatalog
