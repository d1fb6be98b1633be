import EventCatalog.Proofs.Text.Split
import EventCatalog.Proofs.Token.Boundary
import EventCatalog.Report
import Mathlib.Data.List.Induction
import Mathlib.Data.Prod.Lex
import Mathlib.Order.Monotone.Defs
import Mathlib.Order.Nat

/-! # Lines and columns

The line and column of an offset are those of a caret behind the characters before it (`caret`).
A line feed moves the caret to the beginning of the next line and any other character, also a
carriage return, one column on, so the caret only ever moves forward.  Hence lines and columns are
ordered like the boundaries of a text, and tell them apart (`strictMonoOn_lineColumn`). -/

namespace EventCatalog.Text

variable {s t : Text} {c : Char}

/-! ### The caret behind a text -/

/-- The line and column, counted from one, behind the last character of a text. -/
def caret (s : Text) : Nat × Nat :=
  ((split '\n' s).length, ((split '\n' s).getLast?.getD []).length + 1)

theorem takeBytes?_append (s t : Text) : takeBytes? (size s) (s ++ t) = some s := by
  induction s with
  | nil => cases t <;> rfl
  | cons c s ih =>
    have hc := c.utf8Size_pos
    obtain ⟨n, hn⟩ : ∃ n, size (c :: s) = n + 1 :=
      ⟨size (c :: s) - 1, by rw [size_cons]; omega⟩
    have hrest : n + 1 - c.utf8Size = size s := by
      rw [← hn, size_cons, Nat.add_sub_cancel_left]
    rw [hn, List.cons_append, takeBytes?, if_pos (by rw [size_cons] at hn; omega), hrest, ih]
    rfl

theorem lineColumn_append (s t : Text) : lineColumn (s ++ t) (size s) = caret s := by
  have hle : min (size s) (size (s ++ t)) = size s := by
    rw [size_append]
    omega
  rw [lineColumn, hle, takeBytes?_append]
  rfl

theorem split_append_singleton (hc : c ≠ '\n') (s : Text) :
    split '\n' (s ++ [c]) =
      (split '\n' s).dropLast ++ [(split '\n' s).getLast?.getD [] ++ [c]] := by
  induction s with
  | nil => simp [split, hc]
  | cons d s ih =>
    obtain ⟨piece, pieces, hpieces⟩ := List.exists_cons_of_ne_nil (split_ne_nil '\n' s)
    by_cases hd : d = '\n'
    · simp only [List.cons_append, split, hd, if_true, ih, hpieces, List.dropLast_cons_cons,
        List.getLast?_cons_cons]
    · simp only [List.cons_append, split, hd, if_false, ih, hpieces]
      cases pieces <;> simp

theorem caret_feed (s : Text) : caret (s ++ ['\n']) = ((caret s).1 + 1, 1) := by
  rw [caret, split_append_cons]
  simp [split, caret]

theorem caret_append_singleton (hc : c ≠ '\n') (s : Text) :
    caret (s ++ [c]) = ((caret s).1, (caret s).2 + 1) := by
  obtain ⟨piece, pieces, hpieces⟩ := List.exists_cons_of_ne_nil (split_ne_nil '\n' s)
  rw [caret, caret, split_append_singleton hc, hpieces]
  simp

/-! ### The order of places -/

/-- A character moves the caret forward. -/
theorem caret_lt_append_singleton (s : Text) (c : Char) :
    toLex (caret s) < toLex (caret (s ++ [c])) := by
  rw [Prod.Lex.toLex_lt_toLex]
  by_cases hc : c = '\n'
  · left
    rw [hc, caret_feed]
    exact Nat.lt_succ_self _
  · right
    rw [caret_append_singleton hc]
    exact ⟨rfl, Nat.lt_succ_self _⟩

theorem caret_lt_append (s : Text) (ht : t ≠ []) : toLex (caret s) < toLex (caret (s ++ t)) := by
  induction t using List.reverseRecOn with
  | nil => exact absurd rfl ht
  | append_singleton t c ih =>
    rw [← List.append_assoc]
    have hlast := caret_lt_append_singleton (s ++ t) c
    by_cases ht : t = []
    · rwa [ht, List.append_nil] at hlast ⊢
    · exact (ih ht).trans hlast

/-- The later of two boundaries has the greater line, or the greater column on the same line. -/
theorem strictMonoOn_lineColumn (t : Text) :
    StrictMonoOn (fun n => toLex (lineColumn t n)) {n | t.Boundary n} := by
  rintro m ⟨s, ⟨u, rfl⟩, rfl⟩ n ⟨s', ⟨u', hu'⟩, rfl⟩ h
  have hprefix : s <+: s' := by
    refine (List.prefix_or_prefix_of_prefix ⟨u, rfl⟩ ⟨u', hu'⟩).resolve_right ?_
    rintro ⟨v, rfl⟩
    rw [size_append] at h
    omega
  obtain ⟨v, rfl⟩ := hprefix
  have hv : v ≠ [] := by
    rintro rfl
    rw [List.append_nil] at h
    exact Nat.lt_irrefl _ h
  have hbefore : lineColumn (s ++ u) (size s) = caret s := lineColumn_append s u
  have hbehind : lineColumn (s ++ u) (size (s ++ v)) = caret (s ++ v) := by
    rw [← hu', lineColumn_append]
  simp only [hbefore, hbehind]
  exact caret_lt_append s hv

end EventCatalog.Text
