import EventCatalog.Proofs.Printing.Writable

/-! # Names of annotations

Behind an at sign a word may be taken for a version selector: one that begins with `v` and a digit,
and `latest`, in any case of its letters.  An underscore ends a selector, so a word that goes on
with one behind `latest` is no annotation either.  All other names are names of annotations
(`IsAnnotationName.isNoteName`). -/

namespace EventCatalog

namespace Token

open Front

variable {s : String}

theorem forall_mem_of_le_hyphenatedLength {isPart : Char → Bool} {t : Text}
    (h : t.length ≤ hyphenatedLength isPart t) : ∀ c ∈ t, isPart c = true ∨ c = '-' := by
  induction t with
  | nil => nofun
  | cons c t ih =>
    unfold hyphenatedLength at h
    split at h
    · rename_i hc
      simp only [Bool.or_eq_true, Bool.and_eq_true, beq_iff_eq] at hc
      exact List.forall_mem_cons.mpr
        ⟨hc.imp_right And.left, ih (Nat.le_of_succ_le_succ h)⟩
    · cases h

theorem identifier?_of_word? {c : Char} {t : Text} {n : Nat}
    (h : word? c t = some (.token (.identifier s) n)) :
    Front.identifier? c t = some (.token (.identifier s) n) := by
  unfold word? at h
  obtain h | ⟨-, h⟩ := (Option.orElse_eq_some ..).mp h
  · simp only [selector?] at h
    split at h <;> cases h
  obtain h | ⟨-, h⟩ := (Option.orElse_eq_some ..).mp h
  · unfold version? at h
    split at h
    · cases h
    split at h
    · obtain ⟨length, -, h⟩ := Option.map_eq_some_iff.mp h
      cases h
    · cases h
  · exact h

/-- An identifier begins with a letter or an underscore, and goes on with characters of words and
with hyphens. -/
theorem IsLone.word (h : (identifier s).IsLone) :
    ∃ c t, s.toList = c :: t ∧ (Text.isLetter c = true ∨ c = '_') ∧
      ∀ d ∈ t, isWordChar d = true ∨ d = '-' := by
  obtain ⟨c, t, n, hspell, hscan, hle⟩ := scan_of_isLone h
  have hidentifier := identifier?_of_word? (word?_of_scan hscan rfl).2.2
  unfold Front.identifier? at hidentifier
  split at hidentifier
  · rename_i hc
    simp only [Option.some.injEq, Front.token.injEq] at hidentifier
    exact ⟨c, t, hspell, hc, forall_mem_of_le_hyphenatedLength (hidentifier.2 ▸ hle)⟩
  · cases hidentifier

end Token

namespace Syntax

open Token Front

/-- Whether a word begins with `v` and a digit, as versions may. -/
def startsLikeVersion (s : String) : Bool :=
  match s.toList with
  | c :: d :: _ => (c == 'v' || c == 'V') && Text.isDigit d
  | _ => false

/-- A name that is no version selector behind an at sign and does not begin like one. -/
def IsAnnotationName (s : String) : Prop :=
  IsName s ∧ Text.lowerAscii s.toList ≠ "latest".toList ∧
    ¬ "latest_".toList <+: Text.lowerAscii s.toList ∧ startsLikeVersion s = false

instance : DecidablePred IsAnnotationName := fun _ => inferInstanceAs (Decidable (_ ∧ _ ∧ _ ∧ _))

/-- Of the characters of words, only the underscore ends a selector. -/
theorem latest_of_takeWhile {t : Text} (hword : ∀ d ∈ t, isWordChar d = true ∨ d = '-')
    (h : Text.lowerAscii (t.takeWhile isSelectorChar) = "latest".toList) :
    Text.lowerAscii t = "latest".toList ∨ "latest_".toList <+: Text.lowerAscii t := by
  have hsplit := List.takeWhile_append_dropWhile (p := isSelectorChar) (l := t)
  cases hdrop : t.dropWhile isSelectorChar with
  | nil =>
    rw [hdrop, List.append_nil] at hsplit
    exact .inl (hsplit ▸ h)
  | cons d u =>
    have hd : isSelectorChar d = false := by
      have hhead := List.head?_dropWhile_not isSelectorChar t
      rw [hdrop] at hhead
      simpa using hhead
    have hmem : d ∈ t := (List.dropWhile_sublist _).subset (hdrop ▸ List.mem_cons_self)
    obtain rfl : d = '_' := by
      obtain hword | rfl := hword d hmem
      · simp only [isWordChar, Bool.or_eq_true, beq_iff_eq] at hword
        obtain hword | rfl := hword
        · simp [isSelectorChar, hword] at hd
        · rfl
      · cases hd
    have happend : Text.lowerAscii (t.takeWhile isSelectorChar ++ '_' :: u) =
        Text.lowerAscii (t.takeWhile isSelectorChar) ++ '_' :: Text.lowerAscii u := List.map_append
    refine .inr ⟨Text.lowerAscii u, ?_⟩
    rw [hdrop] at hsplit
    rw [← hsplit, happend, h]
    rfl

theorem isDigit_of_isLetter {c : Char} (h : Text.isLetter c = true) : Text.isDigit c = false := by
  simp only [Text.isLetter, Text.isDigit, Bool.or_eq_true, Bool.and_eq_true, decide_eq_true_eq,
    Bool.and_eq_false_iff, decide_eq_false_iff_not, Char.le_def, UInt32.le_iff_toNat_le] at h ⊢
  have hdigit : ('9' : Char).val.toNat = 57 := rfl
  have hlower : ('a' : Char).val.toNat = 97 := rfl
  have hupper : ('A' : Char).val.toNat = 65 := rfl
  omega

/-- Among selectors, words that begin with a letter are `latest` or begin like a version. -/
theorem isSelector_letter {c : Char} {t : Text} (hc : Text.isLetter c = true)
    (h : isSelector (c :: t) = true) :
    ((c = 'v' ∨ c = 'V') ∧ t.head?.any Text.isDigit = true) ∨
      Text.lowerAscii (c :: t) = "latest".toList := by
  have hoperator : ['^', '~', '<', '>', '=', '*'].contains c = false := by
    rw [List.contains_eq_mem, decide_eq_false_iff_not]
    intro hmem
    simp only [List.mem_cons, List.not_mem_nil, or_false] at hmem
    rcases hmem with rfl | rfl | rfl | rfl | rfl | rfl <;> cases hc
  simp only [isSelector, isDigit_of_isLetter hc, hoperator, Bool.false_or] at h
  split at h
  · exact .inl ⟨‹_›, h⟩
  · exact .inr (by simpa using h)

/-- Names of annotations are not taken for version selectors. -/
theorem IsAnnotationName.isNoteName {s : String} (h : IsAnnotationName s) : IsNoteName s := by
  obtain ⟨hname, hlatest, hunderscore, hversion⟩ := h
  refine ⟨hname.1, ?_⟩
  obtain ⟨c, t, hs, hc, ht⟩ := hname.1.word
  rw [startsLikeVersion, hs] at hversion
  rw [hs] at hlatest hunderscore ⊢
  obtain hletter | rfl := hc
  swap
  · rfl
  have hwords : ∀ d ∈ c :: t, isWordChar d = true ∨ d = '-' :=
    List.forall_mem_cons.mpr ⟨.inl (by simp [isWordChar, Text.isAlphanumeric, hletter]), ht⟩
  have hhead : (c :: t).takeWhile isSelectorChar = c :: t.takeWhile isSelectorChar :=
    List.takeWhile_cons_of_pos (by simp [isSelectorChar, Text.isAlphanumeric, hletter])
  refine Bool.eq_false_iff.mpr fun hselector => ?_
  rw [hhead] at hselector
  obtain ⟨hv, hdigit⟩ | hword := isSelector_letter hletter hselector
  · cases t with
    | nil => cases hdigit
    | cons d t =>
      have hd : Text.isDigit d = true := by
        by_cases hd : isSelectorChar d = true
        · rwa [List.takeWhile_cons_of_pos hd] at hdigit
        · rw [List.takeWhile_cons_of_neg hd] at hdigit
          cases hdigit
      obtain rfl | rfl := hv <;> simp [hd] at hversion
  · exact (latest_of_takeWhile hwords (hhead ▸ hword)).elim hlatest hunderscore

end Syntax

end EventCatalog
