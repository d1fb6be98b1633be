import EventCatalog.Proofs.Text.Reflow
import Mathlib.Data.List.DropRight

/-! # Trimmed texts

Trimming takes blanks from the two ends of a text, and never any character between two that are not
blank: a beginning with ink at its end keeps what it has (`trimEnd_append_of_ink`), and the first
character of a trimmed text is known before its end is trimmed (`head?_trim`). -/

namespace EventCatalog.Text

theorem mem_of_mem_trimEnd {c : Char} {t : Text} (h : c ∈ trimEnd t) : c ∈ t :=
  (List.rdropWhile_prefix isBlank t).subset h

theorem not_blank_of_getLast?_trimEnd {c : Char} {t : Text}
    (h : (trimEnd t).getLast? = some c) : isBlank c = false := by
  have hne : trimEnd t ≠ [] := by
    rintro e
    rw [e] at h
    cases h
  rw [List.getLast?_eq_some_getLast hne, Option.some.injEq] at h
  have hlast := List.rdropWhile_last_not isBlank t hne
  rw [← h]
  exact Bool.eq_false_iff.mpr hlast

theorem trimEnd_trimEnd (t : Text) : trimEnd (trimEnd t) = trimEnd t :=
  List.rdropWhile_idempotent isBlank t

/-- Blanks are taken only from what stands behind an inked end. -/
theorem trimEnd_append_of_ink {s : Text} {c : Char} (hc : s.getLast? = some c)
    (hink : isBlank c = false) (t : Text) : trimEnd (s ++ t) = s ++ trimEnd t := by
  obtain ⟨s, rfl⟩ := List.getLast?_eq_some_iff.mp hc
  unfold trimEnd
  rw [List.reverse_append, List.dropWhile_append]
  split
  · rename_i hblank
    have hnil : t.reverse.dropWhile isBlank = [] := by simpa using hblank
    simp [hnil, hink]
  · simp

/-- A beginning with ink at both ends is not touched by trimming. -/
theorem trim_append_of_ink {s : Text} {b c : Char} (hb : s.head? = some b) (hc : s.getLast? = some c)
    (hinkb : isBlank b = false) (hinkc : isBlank c = false) (t : Text) :
    trim (s ++ t) = s ++ trimEnd t := by
  obtain ⟨s, rfl⟩ : ∃ s', s = b :: s' := by
    cases s with
    | nil => cases hb
    | cons a s => exact ⟨s, by simpa using hb⟩
  have hstart : trimStart (b :: s ++ t) = b :: s ++ t := by
    simp [trimStart, hinkb]
  rw [trim, hstart]
  exact trimEnd_append_of_ink hc hinkc t

/-- Trimming the end leaves what stands in front. -/
theorem head?_trim (t : Text) : (trim t).head? = (trimStart t).head? := by
  cases h : trimStart t with
  | nil =>
    rw [trim, h]
    rfl
  | cons c u =>
    have hink := not_blank_of_trimStart h
    have hkeep := trimEnd_append_of_ink (s := [c]) rfl hink u
    rw [trim, h, ← List.singleton_append, hkeep]
    rfl

theorem not_blank_of_head?_trim {c : Char} {t : Text} (h : (trim t).head? = some c) :
    isBlank c = false := by
  rw [head?_trim] at h
  obtain ⟨u, hu⟩ := List.head?_eq_some_iff.mp h
  exact not_blank_of_trimStart hu

theorem trimEnd_trim (t : Text) : trimEnd (trim t) = trim t := trimEnd_trimEnd (trimStart t)

/-- What a text without blanks at its end ends with has none there either. -/
theorem trimEnd_of_append {s t : Text} (h : trimEnd (s ++ t) = s ++ t) : trimEnd t = t := by
  refine List.rdropWhile_eq_self_iff.mpr fun hne => ?_
  have hlast := List.rdropWhile_eq_self_iff.mp h (List.append_ne_nil_of_right_ne_nil s hne)
  rwa [List.getLast_append_of_ne_nil _ hne] at hlast

/-- A text of which trimming leaves all characters is trimmed. -/
theorem trim_eq_self_of_length {t : Text} (h : t.length ≤ (trim t).length) :
    trim t = t := by
  obtain ⟨a, z, -, -, ht⟩ := exists_trim t
  have hlength := congrArg List.length ht
  rw [List.length_append, List.length_append] at hlength
  obtain rfl : a = [] := List.eq_nil_of_length_eq_zero (by omega)
  obtain rfl : z = [] := List.eq_nil_of_length_eq_zero (by omega)
  rw [List.nil_append, List.append_nil] at ht
  exact ht.symm

end EventCatalog.Text
