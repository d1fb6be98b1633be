import EventCatalog.Syntax
import Mathlib.Data.List.Induction
import Mathlib.Data.List.Nodup

/-! # Maps of entries

What a map holds, and what it holds after a value has been set: an entry comes from the map or is
the new one (`Entries.mem_of_mem_put`), keys stay distinct, and of several values set for one key
the last one counts (`Entries.get?_foldl_put`). -/

namespace EventCatalog.Entries

variable {α β : Type} {entries : Entries α} {key : String} {a : α}

theorem mem_of_get? (h : entries.get? key = some a) : (key, a) ∈ entries := by
  induction entries with
  | nil => cases h
  | cons e entries ih =>
    obtain ⟨k, b⟩ := e
    rw [get?, List.lookup_cons] at h
    cases hkey : key == k with
    | true =>
      rw [hkey] at h
      cases h
      rw [beq_iff_eq.mp hkey]
      exact List.mem_cons_self
    | false =>
      rw [hkey] at h
      exact List.mem_cons_of_mem _ (ih h)

theorem get?_of_mem (hkeys : (entries.map Prod.fst).Nodup) (h : (key, a) ∈ entries) :
    entries.get? key = some a := by
  induction entries with
  | nil => cases h
  | cons e entries ih =>
    obtain ⟨k, b⟩ := e
    obtain ⟨hfirst, hrest⟩ := List.nodup_cons.mp hkeys
    rw [get?, List.lookup_cons]
    rcases List.mem_cons.mp h with heq | h
    · cases heq
      rw [beq_self_eq_true]
    · have hne : key ≠ k := fun heq =>
        hfirst (List.mem_map.mpr ⟨(key, a), h, heq⟩)
      rw [beq_false_of_ne hne]
      exact ih hrest h

theorem mem_of_mem_put {x : String × α} (hx : x ∈ entries.put key a) :
    x = (key, a) ∨ x ∈ entries := by
  induction entries with
  | nil => exact .inl (List.mem_singleton.mp hx)
  | cons e entries ih =>
    rw [put] at hx
    split at hx
    · exact (List.mem_cons.mp hx).imp_right (List.mem_cons_of_mem _)
    · obtain hx | hx := List.mem_cons.mp hx
      · exact .inr (hx ▸ List.mem_cons_self)
      · exact (ih hx).imp_right (List.mem_cons_of_mem _)

theorem nodup_keys_put (hkeys : (entries.map Prod.fst).Nodup) :
    ((entries.put key a).map Prod.fst).Nodup := by
  induction entries with
  | nil => exact List.nodup_singleton _
  | cons e entries ih =>
    obtain ⟨k, b⟩ := e
    obtain ⟨hfirst, hrest⟩ := List.nodup_cons.mp hkeys
    rw [put]
    split
    · rename_i hkey
      exact List.nodup_cons.mpr ⟨hkey ▸ hfirst, hrest⟩
    · rename_i hkey
      refine List.nodup_cons.mpr ⟨fun hmem => ?_, ih hrest⟩
      obtain ⟨x, hx, hxk⟩ := List.mem_map.mp hmem
      obtain rfl | hx := mem_of_mem_put hx
      · exact hkey hxk.symm
      · exact hfirst (hxk ▸ List.mem_map_of_mem hx)

theorem mem_of_mem_foldl_put {items : List (String × α)} {x : String × α}
    (hx : x ∈ items.foldl (fun entries (key, b) => put key b entries) entries) :
    x ∈ entries ∨ x ∈ items := by
  induction items generalizing entries with
  | nil => exact .inl hx
  | cons item items ih =>
    obtain ⟨key, a⟩ := item
    obtain hx | hx := ih hx
    · obtain rfl | hx := mem_of_mem_put hx
      · exact .inr List.mem_cons_self
      · exact .inl hx
    · exact .inr (List.mem_cons_of_mem _ hx)

theorem nodup_keys_foldl_put (items : List (String × α)) (hkeys : (entries.map Prod.fst).Nodup) :
    ((items.foldl (fun entries (key, b) => put key b entries) entries).map Prod.fst).Nodup := by
  induction items generalizing entries with
  | nil => exact hkeys
  | cons item items ih => exact ih (nodup_keys_put hkeys)

theorem get?_put (key other : String) (a : α) (entries : Entries α) :
    (entries.put key a).get? other = if other = key then some a else entries.get? other := by
  induction entries with
  | nil =>
    rw [put, get?, List.lookup_cons]
    by_cases h : other = key
    · rw [h, beq_self_eq_true, if_pos rfl]
    · rw [beq_false_of_ne h, if_neg h]
      rfl
  | cons e entries ih =>
    obtain ⟨k, b⟩ := e
    rw [get?] at ih ⊢
    rw [get?, put]
    by_cases hk : k = key
    · subst hk
      rw [if_pos rfl, List.lookup_cons, List.lookup_cons]
      by_cases h : other = k
      · rw [h, beq_self_eq_true, if_pos rfl]
      · rw [beq_false_of_ne h, if_neg h]
    · rw [if_neg hk, List.lookup_cons, List.lookup_cons, ih]
      by_cases h : other = k
      · subst h
        simp only [beq_self_eq_true, if_neg hk]
      · simp only [beq_false_of_ne h, get?]

/-- Of several values that are set for a key the last one counts. -/
theorem get?_foldl_put (items : List (String × α)) (key : String) :
    get? (items.foldl (fun entries (key, b) => put key b entries) []) key =
      ((items.filter (·.1 == key)).getLast?).map (·.2) := by
  induction items using List.reverseRecOn with
  | nil => rfl
  | append_singleton items item ih =>
    rw [List.foldl_append, List.foldl_cons, List.foldl_nil, get?_put, ih, List.filter_append]
    by_cases h : item.1 = key
    · simp [h]
    · simp [h, Ne.symm h]

/-! ### Keys that are not there yet -/

theorem put_of_not_mem (h : key ∉ entries.map (·.1)) (value : α) :
    put key value entries = entries ++ [(key, value)] := by
  induction entries with
  | nil => rfl
  | cons e entries ih =>
    obtain ⟨k, v⟩ := e
    rw [List.map_cons, List.mem_cons, not_or] at h
    rw [put, if_neg (Ne.symm h.1), ih h.2, List.cons_append]

theorem get?_of_not_mem (h : key ∉ entries.map (·.1)) : get? entries key = none := by
  rw [get?, List.lookup_eq_none_iff]
  intro e he
  exact bne_iff_ne.mpr fun heq => h (heq ▸ List.mem_map_of_mem he)

theorem get?_append_self (h : key ∉ entries.map (·.1)) (v : α) :
    get? (entries ++ [(key, v)]) key = some v := by
  have hnone : entries.lookup key = none := get?_of_not_mem h
  rw [get?, List.lookup_append, hnone, Option.none_or, List.lookup_cons_self]

theorem put_append_self (h : key ∉ entries.map (·.1)) (v w : α) :
    put key w (entries ++ [(key, v)]) = entries ++ [(key, w)] := by
  induction entries with
  | nil => exact if_pos rfl
  | cons e entries ih =>
    obtain ⟨k, u⟩ := e
    rw [List.map_cons, List.mem_cons, not_or] at h
    rw [List.cons_append, put, if_neg (Ne.symm h.1), ih h.2, List.cons_append]

/-! ### Changing all values -/

theorem get?_map (g : α → β) (entries : Entries α) (key : String) :
    get? (entries.map fun (k, v) => (k, g v)) key = (get? entries key).map g := by
  induction entries with
  | nil => rfl
  | cons e entries ih =>
    obtain ⟨k, v⟩ := e
    simp only [get?, List.map_cons, List.lookup_cons] at ih ⊢
    cases key == k with
    | true => rfl
    | false => exact ih

theorem put_map (g : α → β) (key : String) (value : α) (entries : Entries α) :
    put key (g value) (entries.map fun (k, v) => (k, g v)) =
      (put key value entries).map fun (k, v) => (k, g v) := by
  induction entries with
  | nil => rfl
  | cons e entries ih =>
    obtain ⟨k, v⟩ := e
    simp only [List.map_cons, put]
    split
    · rfl
    · rw [ih, List.map_cons]

end EventCatalog.Entries
