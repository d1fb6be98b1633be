import EventCatalog.Text
import Mathlib.Data.List.Basic

/-! # Cutting at a separator

The pieces of a text hold characters of the text and no separator, and pieces without separators
that are joined by them are cut apart again (`split_intercalate`). -/

namespace EventCatalog.Text

variable {separator : Char}

theorem not_mem_of_mem_split {t piece : Text} (h : piece ∈ split separator t) :
    separator ∉ piece := by
  induction t generalizing piece with
  | nil =>
    obtain rfl : piece = [] := by simpa [split] using h
    simp
  | cons c t ih =>
    by_cases hc : c = separator
    · simp only [split, hc, if_true, List.mem_cons] at h
      rcases h with rfl | h
      · simp
      · exact ih h
    · simp only [split, hc, if_false] at h
      cases hs : split separator t with
      | nil => exact absurd hs (split_ne_nil _ _)
      | cons p ps =>
        rw [hs] at h ih
        rcases List.mem_cons.mp h with rfl | h
        · have hp := ih List.mem_cons_self
          simp [hp, Ne.symm hc]
        · exact ih (List.mem_cons_of_mem _ h)

theorem mem_of_mem_split {t piece : Text} {c : Char} (h : piece ∈ split separator t)
    (hc : c ∈ piece) : c ∈ t := by
  induction t generalizing piece with
  | nil =>
    obtain rfl : piece = [] := by simpa [split] using h
    cases hc
  | cons d t ih =>
    by_cases hd : d = separator
    · simp only [split, hd, if_true, List.mem_cons] at h
      rcases h with rfl | h
      · cases hc
      · exact List.mem_cons_of_mem _ (ih h hc)
    · simp only [split, hd, if_false] at h
      cases hs : split separator t with
      | nil => exact absurd hs (split_ne_nil _ _)
      | cons p ps =>
        rw [hs] at h ih
        rcases List.mem_cons.mp h with rfl | h
        · rcases List.mem_cons.mp hc with rfl | hc
          · exact List.mem_cons_self
          · exact List.mem_cons_of_mem _ (ih List.mem_cons_self hc)
        · exact List.mem_cons_of_mem _ (ih (List.mem_cons_of_mem _ h) hc)

theorem split_append {piece : Text} (h : separator ∉ piece) (t : Text) :
    split separator (piece ++ separator :: t) = piece :: split separator t := by
  induction piece with
  | nil => simp [split]
  | cons c piece ih =>
    rw [List.mem_cons, not_or] at h
    simp only [List.cons_append, split, if_neg (Ne.symm h.1), ih h.2]

/-- A separator cuts a text wherever it stands. -/
theorem split_append_cons (s t : Text) :
    split separator (s ++ separator :: t) = split separator s ++ split separator t := by
  induction s with
  | nil => simp [split]
  | cons c s ih =>
    by_cases hc : c = separator
    · simp [split, hc, ih]
    · simp only [List.cons_append, split, if_neg hc, ih]
      cases hs : split separator s with
      | nil => exact absurd hs (split_ne_nil _ _)
      | cons _ _ => rfl

/-- Texts agree on what stands before their first separators and behind them. -/
theorem eq_of_append_separator {s t u v : Text} (hs : separator ∉ s) (ht : separator ∉ t)
    (h : s ++ separator :: u = t ++ separator :: v) : s = t ∧ u = v := by
  have hpieces := congrArg (split separator) h
  rw [split_append hs, split_append ht] at hpieces
  obtain ⟨rfl, -⟩ := List.cons.inj hpieces
  exact ⟨rfl, (List.cons.inj (List.append_cancel_left h)).2⟩

theorem split_of_not_mem {piece : Text} (h : separator ∉ piece) :
    split separator piece = [piece] := by
  induction piece with
  | nil => rfl
  | cons c piece ih =>
    rw [List.mem_cons, not_or] at h
    simp only [split, if_neg (Ne.symm h.1), ih h.2]

/-- Pieces that are joined by separators are cut apart again. -/
theorem split_intercalate {pieces : List Text} (hne : pieces ≠ [])
    (h : ∀ p ∈ pieces, separator ∉ p) :
    split separator (List.intercalate [separator] pieces) = pieces := by
  induction pieces with
  | nil => exact absurd rfl hne
  | cons p pieces ih =>
    have hp := h p List.mem_cons_self
    cases pieces with
    | nil => rw [List.intercalate_singleton, split_of_not_mem hp]
    | cons q pieces =>
      rw [List.intercalate_cons_cons, List.append_assoc, List.singleton_append, split_append hp,
        ih (List.cons_ne_nil _ _) fun r hr => h r (List.mem_cons_of_mem _ hr)]

/-- Pieces are cut off with the separators that stand behind them. -/
theorem split_flatMap_append {pieces : List Text} (h : ∀ p ∈ pieces, separator ∉ p) (t : Text) :
    split separator (pieces.flatMap (· ++ [separator]) ++ t) = pieces ++ split separator t := by
  induction pieces with
  | nil => rfl
  | cons p pieces ih =>
    rw [List.forall_mem_cons] at h
    rw [List.flatMap_cons, List.append_assoc, List.append_assoc, List.singleton_append,
      split_append h.1, ih h.2, List.cons_append]

/-- A separator stands behind each piece but the last. -/
theorem intercalate_append (pieces : List Text) {rest : List Text} (hne : rest ≠ []) :
    List.intercalate [separator] (pieces ++ rest) =
      pieces.flatMap (· ++ [separator]) ++ List.intercalate [separator] rest := by
  induction pieces with
  | nil => rfl
  | cons p pieces ih =>
    obtain ⟨q, qs, hcons⟩ := List.exists_cons_of_ne_nil (List.append_ne_nil_of_right_ne_nil pieces hne)
    rw [List.cons_append, hcons, List.intercalate_cons_cons, ← hcons, ih, List.flatMap_cons]
    simp only [List.append_assoc]

/-- The pieces of a text that are joined by the separator are the text again. -/
theorem intercalate_split (separator : Char) (t : Text) :
    List.intercalate [separator] (split separator t) = t := by
  induction t with
  | nil => rfl
  | cons c t ih =>
    obtain ⟨p, ps, hpieces⟩ := List.exists_cons_of_ne_nil (split_ne_nil separator t)
    rw [hpieces] at ih
    by_cases hc : c = separator
    · rw [split, if_pos hc, hpieces, List.intercalate_cons_cons, ih, hc]
      rfl
    · have hsplit : split separator (c :: t) = (c :: p) :: ps := by
        simp only [split, if_neg hc, hpieces]
      rw [hsplit, ← ih]
      cases ps with
      | nil => simp
      | cons q ps => simp [List.intercalate_cons_cons]

/-- Pieces that are left out take their characters with them. -/
theorem intercalate_sublist {ps qs : List Text} (h : ps.Sublist qs) :
    (List.intercalate [separator] ps).Sublist (List.intercalate [separator] qs) := by
  induction h with
  | slnil => exact List.Sublist.refl _
  | @cons ps qs q _ ih =>
    refine ih.trans ?_
    cases qs with
    | nil => exact List.nil_sublist _
    | cons r qs =>
      rw [List.intercalate_cons_cons]
      exact List.sublist_append_right _ _
  | @cons_cons ps qs p hsub ih =>
    cases ps with
    | nil =>
      rw [List.intercalate_singleton]
      cases qs with
      | nil => rw [List.intercalate_singleton]
      | cons r qs =>
        rw [List.intercalate_cons_cons, List.append_assoc]
        exact List.sublist_append_left _ _
    | cons r ps =>
      obtain ⟨r', qs, rfl⟩ := List.exists_cons_of_ne_nil (List.ne_nil_of_length_pos
        (Nat.lt_of_lt_of_le (Nat.zero_lt_succ _) hsub.length_le))
      rw [List.intercalate_cons_cons, List.intercalate_cons_cons]
      exact ih.append_left _

theorem mem_intercalate {pieces : List Text} {c : Char}
    (h : c ∈ List.intercalate [separator] pieces) : c = separator ∨ ∃ p ∈ pieces, c ∈ p := by
  induction pieces with
  | nil => cases h
  | cons p pieces ih =>
    cases pieces with
    | nil =>
      rw [List.intercalate_singleton] at h
      exact .inr ⟨p, List.mem_cons_self, h⟩
    | cons q pieces =>
      rw [List.intercalate_cons_cons, List.append_assoc, List.singleton_append, List.mem_append,
        List.mem_cons] at h
      rcases h with h | h | h
      · exact .inr ⟨p, List.mem_cons_self, h⟩
      · exact .inl h
      · refine (ih h).imp_right ?_
        rintro ⟨r, hr, hc⟩
        exact ⟨r, List.mem_cons_of_mem _ hr, hc⟩

end EventCatalog.Text
