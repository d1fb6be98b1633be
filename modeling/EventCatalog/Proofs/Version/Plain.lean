import EventCatalog.Proofs.Version.Identity
import Mathlib.Algebra.Group.Nat.Defs

/-! # Plain versions

A plain version is one to three numbers in digits with dots between them, perhaps behind a `v` and
between blanks.  If its numbers are below the bound it denotes them, padded with zeros
(`Version.IsPlain.coerce_eq_some`), or else it denotes no version
(`Version.IsPlain.coerce_eq_none`).  So plain versions go by their numbers up to the bound, and
beyond it they are texts (`Version.plain_order`). -/

namespace EventCatalog.Version

/-- A text in which one to three runs of digits are written as a plain version. -/
structure IsPlain (raw : String) (runs : List Text) : Prop where
  areRuns : AreRuns runs
  length_le : runs.length ≤ 3
  written : ∃ front mark back, Text.AllBlank front ∧ Text.AllBlank back ∧
    (mark = [] ∨ mark = ['v'] ∨ mark = ['V']) ∧
    raw.toList = front ++ (mark ++ List.intercalate ['.'] runs) ++ back

/-- The number that a run of digits denotes, however many there are. -/
def number (run : Text) : Nat := Nat.ofDigitChars 10 run 0

/-- The numbers that runs of digits denote, padded with zeros to three. -/
def numbers (runs : List Text) : List Nat := (runs.map number).rightpad 3 0

theorem decimal_eq_number (run : Text) : Text.decimal run = number run :=
  Nat.ofDigitChars_eq_foldl.symm

theorem mapM_eq_none {α β : Type} {f : α → Option β} {xs : List α} {x : α} (hx : x ∈ xs)
    (h : f x = none) : xs.mapM f = none := by
  induction xs with
  | nil => cases hx
  | cons y xs ih =>
    rw [List.mapM_cons]
    obtain rfl | hx := List.mem_cons.mp hx
    · rw [h]
      rfl
    · rw [ih hx]
      cases f y <;> rfl

/-- The version of three numbers and no more. -/
def release (major minor patch : Nat) : Version := ⟨major, minor, patch, [], ""⟩

/-- One to three numbers that are padded make a version of their own. -/
theorem exists_release {runs : List Text} (hne : runs ≠ []) (hlength : runs.length ≤ 3) :
    ∃ major minor patch, numbers runs = [major, minor, patch] ∧
      (padded? (runs.map number)).bind (ofSuffix? · []) = some (release major minor patch) := by
  match runs, hne, hlength with
  | [_], _, _ => exact ⟨_, _, _, rfl, rfl⟩
  | [_, _], _, _ => exact ⟨_, _, _, rfl, rfl⟩
  | [_, _, _], _, _ => exact ⟨_, _, _, rfl, rfl⟩

/-- Versions of three numbers go by these. -/
theorem precedence_release (a b c x y z : Nat) :
    (release a b c).precedence (release x y z) =
      List.compareLex compare [a, b, c] [x, y, z] := by
  simp only [List.compareLex_cons_cons]
  rfl

namespace IsPlain

variable {raw : String} {runs : List Text}

theorem coerce_eq (h : IsPlain raw runs) : coerce raw =
    (runs.mapM component?).bind fun numbers => (padded? numbers).bind (ofSuffix? · []) := by
  obtain ⟨front, mark, back, hfront, hback, hmark, hraw⟩ := h.written
  refine h.areRuns.coerce_eq rfl (h.areRuns.bareText_eq hfront hback hmark (by simp) ?_)
  rw [List.append_nil, hraw]

/-- A plain version with numbers below the bound is read. -/
theorem coerce_eq_some (h : IsPlain raw runs) (hlt : ∀ run ∈ runs, number run < bound) :
    ∃ major minor patch, numbers runs = [major, minor, patch] ∧
      coerce raw = some (release major minor patch) := by
  have hread : ∀ run ∈ runs, component? run = some (number run) := fun run hrun => by
    rw [component?_of_digits (h.areRuns.run_ne_nil run hrun) (h.areRuns.isDigit run hrun),
      decimal_eq_number, if_pos (hlt run hrun)]
  rw [h.coerce_eq, mapM_eq_some_map hread]
  exact exists_release h.areRuns.ne_nil h.length_le

/-- One number beyond the bound is enough not to be read. -/
theorem coerce_eq_none (h : IsPlain raw runs) {run : Text} (hrun : run ∈ runs)
    (hle : bound ≤ number run) : coerce raw = none := by
  have hnone : component? run = none := by
    rw [component?_of_digits (h.areRuns.run_ne_nil run hrun) (h.areRuns.isDigit run hrun),
      decimal_eq_number, if_neg (not_lt.mpr hle)]
  rw [h.coerce_eq, mapM_eq_none hrun hnone]
  rfl

end IsPlain

/-- Plain versions with numbers below the bound go by their numbers, padded with zeros; one with a
greater number denotes no version and stands, as a text, below all that denote one. -/
theorem plain_order {raw other : String} {runs others : List Text} (h : IsPlain raw runs)
    (h' : IsPlain other others) :
    ((∀ run ∈ runs ++ others, number run < 2 ^ 64) →
      compareVersions (some raw) (some other) =
        List.compareLex compare (numbers runs) (numbers others)) ∧
    ((∃ run ∈ runs, 2 ^ 64 ≤ number run) →
      coerce raw = none ∧ Rank.of (some raw) = .text (Text.trimString raw) ∧
        ∀ text, (coerce text).isSome → compareVersions (some raw) (some text) = .lt) := by
  constructor
  · intro hlt
    rw [List.forall_mem_append] at hlt
    obtain ⟨a, b, c, hruns, hraw⟩ := h.coerce_eq_some hlt.1
    obtain ⟨x, y, z, hothers, hother⟩ := h'.coerce_eq_some hlt.2
    rw [compareVersions, Rank.of_eq_semantic hraw, Rank.of_eq_semantic hother, hruns, hothers]
    exact precedence_release a b c x y z
  · rintro ⟨run, hrun, hle⟩
    have hnone := h.coerce_eq_none hrun hle
    refine ⟨hnone, Rank.of_eq_text hnone, fun text htext => ?_⟩
    obtain ⟨v, hv⟩ := Option.isSome_iff_exists.mp htext
    rw [compareVersions, Rank.of_eq_text hnone, Rank.of_eq_semantic hv]
    rfl

/-- Zeros in front and blanks around make no difference, and the number 2^64 is too great. -/
theorem plain_order_bound :
    compareVersions (some " v007.1\t") (some "7.01.0") = .eq ∧
      coerce "1.18446744073709551616" = none ∧
        compareVersions (some "1.18446744073709551616") (some "0.0.1") = .lt := by
  have hblank : ∀ c : Char, Text.isBlank c = true → Text.AllBlank [c] := fun c hc =>
    Text.allBlank_cons.mpr ⟨hc, Text.allBlank_nil⟩
  have hmarked : IsPlain " v007.1\t" ["007".toList, "1".toList] :=
    ⟨⟨by decide, by decide, by simp [Text.isDigit]⟩, by decide,
      [' '], ['v'], ['\t'], hblank _ rfl, hblank _ rfl, by decide, by decide⟩
  have hfull : IsPlain "7.01.0" ["7".toList, "01".toList, "0".toList] :=
    ⟨⟨by decide, by decide, by simp [Text.isDigit]⟩, by decide,
      [], [], [], Text.allBlank_nil, Text.allBlank_nil, by decide, by decide⟩
  have hgreat : IsPlain "1.18446744073709551616" ["1".toList, "18446744073709551616".toList] :=
    ⟨⟨by decide, by decide, by simp [Text.isDigit]⟩, by decide,
      [], [], [], Text.allBlank_nil, Text.allBlank_nil, by decide, by decide⟩
  have hequal := (plain_order hmarked hfull).1 (by decide +kernel)
  obtain ⟨hnone, -, hbelow⟩ := (plain_order hgreat hfull).2
    ⟨_, List.mem_cons_of_mem _ List.mem_cons_self, by decide +kernel⟩
  exact ⟨hequal.trans (by decide +kernel), hnone, hbelow _ (by decide +kernel)⟩

end EventCatalog.Version
