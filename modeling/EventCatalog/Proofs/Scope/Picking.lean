import Mathlib.Logic.Function.Basic

/-! # Picking items of a list

Picking some items of a list leaves the order of those.  So it makes no difference whether items are
picked before or after repetitions are dropped (`filter_eraseDups`) or they are sorted
(`filter_mergeSort`), and the places of the picked items in the whole list tell them apart as their
places among the picked ones do (`exists_place`).  A list of entries that grows at its front is
read by one equation (`lookup_cons_eq`). -/

namespace EventCatalog

variable {α β : Type}

/-- What is found under a key is the first value that stands there. -/
theorem lookup_cons_eq [BEq α] [LawfulBEq α] [DecidableEq α] (key other : α) (value : β)
    (entries : List (α × β)) : ((key, value) :: entries).lookup other =
      if other = key then some value else entries.lookup other := by
  rw [List.lookup_cons]
  by_cases h : other = key
  · simp [h]
  · rw [beq_false_of_ne h, if_neg h]

/-- What can be told of a result from what it was made from can be picked before. -/
theorem filter_filterMap_eq {f : α → Option β} {p : β → Bool} {q : α → Bool}
    (h : ∀ a b, f a = some b → p b = q a) (items : List α) :
    (items.filterMap f).filter p = (items.filter q).filterMap f := by
  induction items with
  | nil => rfl
  | cons a items ih =>
    cases hf : f a with
    | none =>
      rw [List.filterMap_cons_none hf, ih, List.filter_cons]
      split
      · rw [List.filterMap_cons_none hf]
      · rfl
    | some b =>
      rw [List.filterMap_cons_some hf, List.filter_cons, List.filter_cons, h a b hf, ih]
      split
      · rw [List.filterMap_cons_some hf]
      · rfl

/-- What is picked by a property of picked items needs to be looked for among those alone. -/
theorem filter_filter_of_imp {p q : α → Bool} {items : List α}
    (h : ∀ a ∈ items, p a = true → q a = true) : (items.filter q).filter p = items.filter p := by
  rw [List.filter_filter]
  refine List.filter_congr fun a ha => ?_
  cases hp : p a with
  | false => rfl
  | true => rw [h a ha hp]; rfl

theorem find?_filter_of_imp {p q : α → Bool} {items : List α}
    (h : ∀ a ∈ items, p a = true → q a = true) : (items.filter q).find? p = items.find? p := by
  rw [← List.head?_filter, filter_filter_of_imp h, List.head?_filter]

theorem any_filter_of_imp {p q : α → Bool} {items : List α}
    (h : ∀ a ∈ items, p a = true → q a = true) : (items.filter q).any p = items.any p := by
  rw [← List.isSome_find?, find?_filter_of_imp h, List.isSome_find?]

theorem filter_comm (p q : α → Bool) (items : List α) :
    (items.filter q).filter p = (items.filter p).filter q := by
  rw [List.filter_filter, List.filter_filter]
  exact List.filter_congr fun a _ => Bool.and_comm _ _

/-- Items that give nothing need not be picked. -/
theorem flatMap_filter_of_nil {g : α → List β} {q : α → Bool} {items : List α}
    (h : ∀ a ∈ items, q a = false → g a = []) : (items.filter q).flatMap g = items.flatMap g := by
  induction items with
  | nil => rfl
  | cons a items ih =>
    have hrest := ih fun b hb => h b (List.mem_cons_of_mem _ hb)
    cases hq : q a with
    | true => rw [List.filter_cons_of_pos hq, List.flatMap_cons, List.flatMap_cons, hrest]
    | false =>
      rw [List.filter_cons_of_neg (by simp [hq]), List.flatMap_cons, h a List.mem_cons_self hq,
        hrest, List.nil_append]

/-! ### First occurrences -/

/-- Induction over a list where the hypothesis is about all parts of what follows an item. -/
@[elab_as_elim]
theorem filterInduction {motive : List α → Prop} (nil : motive [])
    (cons : ∀ a items, (∀ p : α → Bool, motive (items.filter p)) → motive (a :: items))
    (items : List α) : motive items := by
  induction hlength : items.length using Nat.strongRecOn generalizing items with
  | ind n ih =>
    cases items with
    | nil => exact nil
    | cons a items =>
      refine cons a items fun p => ih _ ?_ _ rfl
      rw [← hlength, List.length_cons]
      exact Nat.lt_succ_of_le (List.length_filter_le _ _)

/-- What is picked occurs first in the order in which it does among all items. -/
theorem filter_eraseDups [DecidableEq α] (p : α → Bool) (items : List α) :
    items.eraseDups.filter p = (items.filter p).eraseDups := by
  induction items using filterInduction with
  | nil => simp
  | cons a items ih =>
    have hrest : ((items.filter fun b => !b == a).eraseDups).filter p =
        ((items.filter p).filter fun b => !b == a).eraseDups := by
      rw [ih, filter_comm]
    rw [List.eraseDups_cons, List.filter_cons, List.filter_cons, hrest]
    split
    · rw [List.eraseDups_cons]
    · rename_i hp
      rw [filter_comm, filter_filter_of_imp]
      intro b _ hb
      have hne : b ≠ a := fun heq => hp (heq ▸ hb)
      simp [hne]

theorem nodup_eraseDups [DecidableEq α] (items : List α) : items.eraseDups.Nodup := by
  induction items using filterInduction with
  | nil => simp
  | cons a items ih =>
    rw [List.eraseDups_cons, List.nodup_cons]
    exact ⟨by simp, ih _⟩

theorem mem_of_mem_eraseDupsBy {r : α → α → Bool} {items : List α} {a : α}
    (h : a ∈ items.eraseDupsBy r) : a ∈ items := by
  induction items using filterInduction with
  | nil => exact h
  | cons b items ih =>
    rw [List.eraseDupsBy_cons] at h
    rcases List.mem_cons.mp h with rfl | h
    · exact List.mem_cons_self
    · exact List.mem_cons_of_mem _ (List.mem_filter.mp (ih _ h)).1

/-- Items that occur first by some key have the keys that occur first. -/
theorem map_eraseDupsBy [DecidableEq β] (f : α → β) (items : List α) :
    (items.eraseDupsBy fun a b => f a == f b).map f = (items.map f).eraseDups := by
  induction items using filterInduction with
  | nil => rfl
  | cons a items ih =>
    have hkeep : ((fun b => !b == f a) ∘ f) = fun b => decide ((f b == f a) = false) := by
      funext b
      cases hb : f b == f a <;> simp [hb]
    rw [List.eraseDupsBy_cons, List.map_cons, List.map_cons, List.eraseDups_cons, ih,
      List.filter_map, hkeep]

/-! ### Sorting -/

section

variable {le : α → α → Bool} (trans : ∀ a b c, le a b → le b c → le a c)
  (total : ∀ a b, le a b || le b a)

include trans total

/-- Sorting puts the first item between those that are smaller and those that are not. -/
theorem mergeSort_cons_eq (a : α) (items : List α) :
    items.mergeSort le =
        (items.mergeSort le).filter (!le a ·) ++ (items.mergeSort le).filter (le a) ∧
      (a :: items).mergeSort le =
        (items.mergeSort le).filter (!le a ·) ++ a :: (items.mergeSort le).filter (le a) := by
  obtain ⟨before, after, hcons, hitems, hbefore⟩ := List.mergeSort_cons trans total a items
  have hafter : ∀ b ∈ after, le a b = true := by
    have hsorted := List.pairwise_mergeSort trans total (a :: items)
    rw [hcons, List.pairwise_append] at hsorted
    exact fun b hb => List.rel_of_pairwise_cons hsorted.2.1 hb
  have hgreater : (before ++ after).filter (le a) = after := by
    rw [List.filter_append, List.filter_eq_self.mpr hafter, List.filter_eq_nil_iff.mpr,
      List.nil_append]
    exact fun b hb => by simpa using hbefore b hb
  have hsmaller : (before ++ after).filter (!le a ·) = before := by
    rw [List.filter_append, List.filter_eq_self.mpr hbefore, List.filter_eq_nil_iff.mpr,
      List.append_nil]
    exact fun b hb => by simp [hafter b hb]
  rw [hcons, hitems, hgreater, hsmaller]
  exact ⟨rfl, rfl⟩

/-- Sorting is stable, so what is picked before it comes out as what is picked after it. -/
theorem filter_mergeSort (p : α → Bool) (items : List α) :
    (items.mergeSort le).filter p = (items.filter p).mergeSort le := by
  induction items with
  | nil => simp
  | cons a items ih =>
    obtain ⟨hitems, hcons⟩ := mergeSort_cons_eq trans total a items
    rw [hcons, List.filter_append, List.filter_cons, List.filter_cons]
    split
    · rw [filter_comm, filter_comm p, ih, ← (mergeSort_cons_eq trans total a _).2]
    · rw [← List.filter_append, ← hitems, ih]

end

/-- The places of the picked items in the whole list. -/
theorem exists_place (old : α → Bool) (items : List α) : ∃ place : Nat → Nat,
    Function.Injective place ∧ ∀ p : α → Bool, (∀ a ∈ items, p a = true → old a = true) →
      items.findIdx? p = ((items.filter old).findIdx? p).map place := by
  induction items with
  | nil => exact ⟨id, Function.injective_id, fun _ _ => rfl⟩
  | cons a items ih =>
    obtain ⟨place, hinjective, hplace⟩ := ih
    cases hold : old a with
    | true =>
      refine ⟨fun i => i.casesOn 0 fun i => place i + 1, ?_, fun p hp => ?_⟩
      · intro i j hij
        cases i <;> cases j
        · rfl
        · cases hij
        · cases hij
        · exact congrArg _ (hinjective (Nat.succ.inj hij))
      · rw [List.filter_cons_of_pos hold, List.findIdx?_cons, List.findIdx?_cons,
          hplace p fun b hb => hp b (List.mem_cons_of_mem _ hb)]
        cases p a with
        | true => rfl
        | false => cases (items.filter old).findIdx? p <;> rfl
    | false =>
      refine ⟨fun i => place i + 1, fun i j hij => hinjective (Nat.succ.inj hij), fun p hp => ?_⟩
      have hpa : p a = false := by
        cases hpa : p a with
        | false => rfl
        | true => rw [hp a List.mem_cons_self hpa] at hold; cases hold
      rw [List.filter_cons_of_neg (by simp [hold]), List.findIdx?_cons, hpa,
        hplace p fun b hb => hp b (List.mem_cons_of_mem _ hb)]
      cases (items.filter old).findIdx? p <;> rfl

end EventCatalog
