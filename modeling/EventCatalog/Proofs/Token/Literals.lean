import EventCatalog.Proofs.Token.Places
import EventCatalog.Proofs.Token.Written
import Mathlib.Data.List.Induction
import Mathlib.Data.Nat.Digits.Defs

/-! # The grammar of string literals

A literal is a run of items between quotes (`Literal.Spells`), each of which denotes one character.
What cannot go on as an item or a closing quote is an offence of one kind (`Literal.Offends`).  The
grammar is told apart from how literals are scanned; `Literal.spelt_iff` and
`Literal.code?_scan_iff` say that scanning accepts its items and meets its offences, and
`tokenize_literal` that the first token of a text that starts with a quote is such a literal, or
that the first complaint is about the first offence. -/

namespace EventCatalog

open Text

namespace Literal

/-! ### The grammar -/

/-- The letters that make an escape, each with the character it stands for. -/
def letters : List (Char × Char) :=
  [('n', '\n'), ('r', '\r'), ('t', '\t'), ('\\', '\\'), ('\'', '\''), ('"', '"'), ('0', '\x00')]

/-- The value of a hexadecimal digit in either case. -/
def digit? (c : Char) : Option Nat := "0123456789abcdef".toList.idxOf? c.toLower

/-- One to six hexadecimal digits write a number. -/
def Numbers (digits : Text) (n : Nat) : Prop :=
  digits ≠ [] ∧ digits.length ≤ 6 ∧
    ∃ values, digits.mapM digit? = some values ∧ Nat.ofDigits 16 values.reverse = n

/-- How one character may be written between quotes. -/
inductive Spelt : Text → Char → Prop
  | plain {c : Char} (h : c ∉ ['"', '\\', '\n', '\r']) : Spelt [c] c
  | letter {c value : Char} (h : (c, value) ∈ letters) : Spelt ['\\', c] value
  | number {digits : Text} {value : Char} (h : Numbers digits value.toNat) :
      Spelt ('\\' :: 'u' :: '{' :: (digits ++ ['}'])) value

/-- A run of items, each with the character that it denotes, makes up a text and its value. -/
def Spells (body value : Text) : Prop :=
  ∃ items : List (Text × Char), (∀ i ∈ items, Spelt i.1 i.2) ∧
    body = items.flatMap Prod.fst ∧ value = items.map Prod.snd

/-- What stands at the front of the text begins no item and is no closing quote. -/
inductive Offends : Text → Diagnostic.Code → Prop
  | lineEnd {rest : Text} (h : ∀ c ∈ rest.head?, c = '\n' ∨ c = '\r') :
      Offends rest .unterminatedString
  | escape {rest : Text} (h : ∀ c ∈ rest.head?, c ≠ 'u' ∧ ∀ value, (c, value) ∉ letters) :
      Offends ('\\' :: rest) .invalidEscape
  | empty {rest : Text} (h : ∀ c ∈ rest.head?, digit? c = none) :
      Offends ('\\' :: 'u' :: '{' :: rest) .emptyUnicodeEscape
  | value {digits rest : Text} {n : Nat} (h : Numbers digits n) (hn : ∀ c : Char, c.toNat ≠ n) :
      Offends ('\\' :: 'u' :: '{' :: (digits ++ '}' :: rest)) .invalidCodePoint
  | unicode {rest : Text}
      (hempty : ∀ rest', rest = '{' :: rest' → ∃ c ∈ rest'.head?, digit? c ≠ none)
      (hnumber : ∀ digits rest' n, rest = '{' :: (digits ++ '}' :: rest') → ¬Numbers digits n) :
      Offends ('\\' :: 'u' :: rest) .invalidUnicodeEscape

/-! ### Letters and digits -/

theorem simple?_eq_some_iff {c value : Char} :
    Escape.simple? c = some value ↔ (c, value) ∈ letters := by
  constructor
  · intro h
    unfold Escape.simple? at h
    split at h <;> cases h <;> decide
  · intro h
    have hall : ∀ x ∈ letters, Escape.simple? x.1 = some x.2 := by decide
    exact hall _ h

theorem digit?_eq (c : Char) :
    digit? c = if Escape.isHexDigit c then some (Escape.hexValue c) else none := by
  by_cases h : c.toNat < 128
  · have hall : ∀ n < 128, digit? (Char.ofNat n) =
        if Escape.isHexDigit (Char.ofNat n) then some (Escape.hexValue (Char.ofNat n))
        else none := by
      decide +kernel
    have hc := hall c.toNat h
    rwa [Char.ofNat_toNat] at hc
  · -- Behind ASCII no letter has a lower case, and there is no digit.
    have hlarge : 128 ≤ c.val := UInt32.le_iff_toNat_le.mpr (Nat.le_of_not_lt h)
    have hlower : c.toLower = c := by
      refine dif_neg fun hupper => ?_
      exact absurd (UInt32.le_trans hlarge hupper.2) (by decide)
    have hnone : digit? c = none := by
      have hlist : ∀ d ∈ "0123456789abcdef".toList, d.toNat < 128 := by simp
      rw [digit?, hlower, List.idxOf?_eq_none_iff]
      exact fun hmem => h (hlist c hmem)
    have hdigit : ¬Escape.isHexDigit c = true := by
      simp only [Escape.isHexDigit, isDigit, Bool.or_eq_true, Bool.and_eq_true, decide_eq_true_eq]
      rintro ((⟨-, hle⟩ | ⟨-, hle⟩) | ⟨-, hle⟩)
      all_goals exact absurd (UInt32.le_trans hlarge hle) (by decide)
    rw [hnone, if_neg hdigit]

theorem digit?_eq_none_iff {c : Char} : digit? c = none ↔ Escape.isHexDigit c = false := by
  rw [digit?_eq]
  cases Escape.isHexDigit c <;> simp

theorem mapM_digit? {digits : Text} {values : List Nat} :
    digits.mapM digit? = some values ↔
      (∀ c ∈ digits, Escape.isHexDigit c = true) ∧ digits.map Escape.hexValue = values := by
  induction digits generalizing values with
  | nil => exact ⟨fun h => ⟨nofun, Option.some.inj h⟩, fun h => congrArg some h.2⟩
  | cons c digits ih =>
    rw [List.mapM_cons, digit?_eq]
    simp only [List.forall_mem_cons, List.map_cons]
    cases Escape.isHexDigit c with
    | false => simp
    | true =>
      simp only [if_true, true_and]
      constructor
      · intro h
        obtain ⟨v, hv, h⟩ := Option.bind_eq_some_iff.mp h
        obtain ⟨vs, hvs, h⟩ := Option.bind_eq_some_iff.mp h
        obtain ⟨hdigits, rfl⟩ := ih.mp hvs
        cases hv
        cases h
        exact ⟨hdigits, rfl⟩
      · rintro ⟨hdigits, rfl⟩
        rw [ih.mpr ⟨hdigits, rfl⟩]
        rfl

/-- Digits write the number that they are read as. -/
theorem ofDigits_hexValue (digits : Text) :
    Nat.ofDigits 16 (digits.map Escape.hexValue).reverse =
      digits.foldl (fun n c => 16 * n + Escape.hexValue c) 0 := by
  induction digits using List.reverseRecOn with
  | nil => rfl
  | append_singleton digits c ih =>
    rw [List.map_append, List.reverse_append, List.foldl_append, ← ih, List.map_singleton,
      List.reverse_singleton, List.singleton_append, Nat.ofDigits_cons, List.foldl_cons,
      List.foldl_nil, Nat.add_comm]

theorem numbers_iff {digits : Text} {n : Nat} :
    Numbers digits n ↔ digits ≠ [] ∧ digits.length ≤ 6 ∧
      (∀ c ∈ digits, Escape.isHexDigit c = true) ∧
        digits.foldl (fun n c => 16 * n + Escape.hexValue c) 0 = n := by
  simp only [Numbers, mapM_digit?, and_assoc, exists_and_left, exists_eq_left', ofDigits_hexValue]

theorem scalar?_eq_some_iff {digits : Text} {value : Char} :
    Escape.scalar? digits = some value ↔
      digits.foldl (fun n c => 16 * n + Escape.hexValue c) 0 = value.toNat := by
  unfold Escape.scalar?
  simp only
  constructor
  · intro h
    split at h
    · rename_i hvalid
      cases h
      rw [Char.ofNat, dif_pos hvalid]
      rfl
    · cases h
  · intro h
    have hvalid : value.toNat.isValidChar := value.valid
    rw [h, if_pos hvalid, Char.ofNat_toNat]

/-! ### Items -/

theorem spelt_iff {s : Text} {c : Char} : Spelt s c ↔ Item s c := by
  constructor
  · intro h
    cases h with
    | plain h =>
      simp only [List.mem_cons, List.not_mem_nil, or_false, not_or] at h
      exact .plain c h.1 h.2.1 h.2.2.1 h.2.2.2
    | letter h => exact .simple (simple?_eq_some_iff.mpr h)
    | number h =>
      obtain ⟨hne, hlength, hdigits, hvalue⟩ := numbers_iff.mp h
      exact .unicode hne hlength hdigits (scalar?_eq_some_iff.mpr hvalue)
  · intro h
    cases h with
    | plain c hquote hback hfeed hreturn => exact .plain (by simp [hquote, hback, hfeed, hreturn])
    | simple h => exact .letter (simple?_eq_some_iff.mp h)
    | unicode hne hlength hdigits hvalue =>
      exact .number (numbers_iff.mpr ⟨hne, hlength, hdigits, scalar?_eq_some_iff.mp hvalue⟩)

theorem spells_iff {body value : Text} : Spells body value ↔ Denotes body value := by
  constructor
  · rintro ⟨items, hitems, rfl, rfl⟩
    induction items with
    | nil => exact .nil
    | cons i items ih =>
      rw [List.forall_mem_cons] at hitems
      rw [List.flatMap_cons, List.map_cons]
      exact .cons (spelt_iff.mp hitems.1) (ih hitems.2)
  · intro h
    induction h with
    | nil => exact ⟨[], by simp, rfl, rfl⟩
    | @cons item body value c hitem hbody ih =>
      obtain ⟨items, hitems, rfl, rfl⟩ := ih
      exact ⟨(item, c) :: items, List.forall_mem_cons.mpr ⟨spelt_iff.mpr hitem, hitems⟩, rfl, rfl⟩

/-! ### Scanning -/

/-- An item is read as the character that it denotes. -/
theorem scan_item {s : Text} {c : Char} (h : Item s c) (u : Text) :
    scan (s ++ u) = (scan u).after c s.length := by
  cases h with
  | plain c hquote hback hfeed hreturn =>
    have hend : ¬(c = '\n' ∨ c = '\r') := not_or.mpr ⟨hfeed, hreturn⟩
    rw [List.singleton_append, scan, if_neg hquote, if_neg hend, if_neg hback]
    rfl
  | @simple d value h =>
    have hd : d ≠ 'u' := by
      rintro rfl
      cases h
    have hescape : Escape.scan (d :: u) = .char c 1 := by
      rw [Escape.scan, if_neg hd, h]
    rw [List.cons_append, List.singleton_append, scan, if_neg (by decide), if_neg (by decide),
      if_pos rfl, hescape]
    rfl
  | @unicode digits value hne hlength hdigits hvalue =>
    have hescape :
        Escape.scan ('u' :: '{' :: (digits ++ '}' :: u)) = .char c (3 + digits.length) := by
      rw [Escape.scan, if_pos rfl, Escape.scanUnicode_digits hne hlength hdigits hvalue]
    have hsplit : '\\' :: 'u' :: '{' :: (digits ++ ['}']) ++ u =
        '\\' :: 'u' :: '{' :: (digits ++ '}' :: u) := by simp
    have hdrop : ('u' :: '{' :: (digits ++ '}' :: u)).drop (3 + digits.length) = u := by
      have happend :
          'u' :: '{' :: (digits ++ '}' :: u) = ('u' :: '{' :: (digits ++ ['}'])) ++ u := by
        simp
      rw [happend, List.drop_left' (by simp; omega)]
    rw [hsplit, scan, if_neg (by decide), if_neg (by decide), if_pos rfl, hescape]
    simp only [hdrop]
    congr 1
    simp
    omega

/-- What ends a literal, if it is not its closing quote. -/
def code? : Literal → Option Diagnostic.Code
  | closed .. => none
  | unterminated _ => some .unterminatedString
  | broken code _ _ => some code

@[simp] theorem code?_after (c : Char) (n : Nat) (l : Literal) : (l.after c n).code? = l.code? := by
  cases l <;> rfl

/-- A literal is read up to the quote behind its items. -/
theorem scan_append_quote {body value : Text} (h : Denotes body value) (rest : Text) :
    scan (body ++ '"' :: rest) = .closed value (body.length + 1) := by
  induction h with
  | nil => rw [List.nil_append, scan, if_pos rfl, List.length_nil]
  | @cons item body value c hitem _ ih =>
    rw [List.append_assoc, scan_item hitem, ih, after, List.length_append, Nat.add_assoc]

/-- Items do not change how a literal ends. -/
theorem code?_scan_append {body value : Text} (h : Denotes body value) (rest : Text) :
    (scan (body ++ rest)).code? = (scan rest).code? := by
  induction h with
  | nil => rfl
  | @cons item body value c hitem _ ih => rw [List.append_assoc, scan_item hitem, code?_after, ih]

theorem scan_eq_closed_iff {t value : Text} {n : Nat} :
    scan t = .closed value n ↔
      ∃ body rest, t = body ++ '"' :: rest ∧ Spells body value ∧ n = body.length + 1 := by
  constructor
  · intro h
    obtain ⟨body, hbody, hdenotes⟩ := denotes_of_scan h
    have ht : t = body ++ '"' :: t.drop n := by
      rw [← List.singleton_append, ← List.append_assoc, ← hbody, List.take_append_drop]
    have hscan := scan_append_quote hdenotes (t.drop n)
    rw [← ht, h] at hscan
    exact ⟨body, t.drop n, ht, spells_iff.mpr hdenotes, (Literal.closed.inj hscan).2⟩
  · rintro ⟨body, rest, rfl, hspells, rfl⟩
    exact scan_append_quote (spells_iff.mp hspells) rest

/-! ### Offences -/

theorem scanUnicode_run {digits rest : Text}
    (hrun : ((digits ++ rest).take 6).takeWhile Escape.isHexDigit = digits) :
    Escape.scanUnicode ('{' :: (digits ++ rest)) =
      if digits = [] then .fault .emptyUnicodeEscape 2
      else if rest.head? ≠ some '}' then .fault .invalidUnicodeEscape (2 + digits.length)
      else match Escape.scalar? digits with
        | some c => .char c (3 + digits.length)
        | none => .fault .invalidCodePoint 1 := by
  rw [Escape.scanUnicode]
  simp only [hrun]
  cases Escape.scalar? digits <;> simp only [List.drop_left, List.isEmpty_iff]

/-- A run of digits is empty where no digit comes first. -/
theorem run_eq_nil_iff {t : Text} :
    (t.take 6).takeWhile Escape.isHexDigit = [] ↔ ∀ c ∈ t.head?, digit? c = none := by
  cases t with
  | nil => exact ⟨fun _ => nofun, fun _ => rfl⟩
  | cons c t =>
    rw [List.take_succ_cons, List.takeWhile_cons]
    simp [digit?_eq_none_iff]

/-- Digits that write no character number are not refused for another reason. -/
theorem scalar?_eq_none_iff {digits : Text} (hne : digits ≠ []) (hlength : digits.length ≤ 6)
    (hdigits : ∀ c ∈ digits, Escape.isHexDigit c = true) :
    Escape.scalar? digits = none ↔ ∃ n, Numbers digits n ∧ ∀ c : Char, c.toNat ≠ n := by
  rw [Option.eq_none_iff_forall_not_mem]
  constructor
  · intro h
    refine ⟨_, numbers_iff.mpr ⟨hne, hlength, hdigits, rfl⟩, fun c hc => h c ?_⟩
    exact scalar?_eq_some_iff.mpr hc.symm
  · rintro ⟨n, hn, hnone⟩ c hc
    obtain ⟨-, -, -, rfl⟩ := numbers_iff.mp hn
    exact hnone c (scalar?_eq_some_iff.mp hc).symm

/-- A Unicode escape with braces is refused for the offence in it. -/
theorem offends_of_scanUnicode {t : Text} {code : Diagnostic.Code} {n : Nat}
    (h : Escape.scanUnicode ('{' :: t) = .fault code n) :
    Offends ('\\' :: 'u' :: '{' :: t) code := by
  obtain ⟨digits, rest, hrun, rfl, hlength, hdigits⟩ := Escape.exists_run t
  rw [scanUnicode_run hrun] at h
  split at h
  · rename_i hnil
    cases h
    subst hnil
    exact .empty (run_eq_nil_iff.mp hrun)
  rename_i hne
  split at h
  · rename_i hclose
    cases h
    refine .unicode ?_ ?_
    · rintro rest' hrest'
      cases hrest'
      obtain ⟨d, digits, rfl⟩ := List.exists_cons_of_ne_nil hne
      refine ⟨d, rfl, fun hnone => ?_⟩
      rw [digit?_eq_none_iff, hdigits d List.mem_cons_self] at hnone
      cases hnone
    · -- All digits are in the run, so a brace behind some of them would stand behind the run.
      intro digits' rest' n hsplit hnumbers
      obtain ⟨-, hlength', hdigits', -⟩ := numbers_iff.mp hnumbers
      have hsplit := (List.cons.inj hsplit).2
      have hrun' := Escape.run_digits hlength' hdigits' rest'
      rw [← hsplit, hrun] at hrun'
      subst hrun'
      rw [List.append_cancel_left hsplit] at hclose
      exact hclose rfl
  · rename_i hclose
    obtain ⟨rest, rfl⟩ := List.head?_eq_some_iff.mp (Decidable.not_not.mp hclose)
    split at h
    · cases h
    · rename_i hscalar
      cases h
      obtain ⟨n, hn, hnone⟩ := (scalar?_eq_none_iff hne hlength hdigits).mp hscalar
      exact .value hn hnone

/-- An escape is refused for the offence in it. -/
theorem offends_of_scan {t : Text} {code : Diagnostic.Code} {n : Nat}
    (h : Escape.scan t = .fault code n) : Offends ('\\' :: t) code := by
  unfold Escape.scan at h
  split at h
  · cases h
    exact .escape (by simp)
  rename_i c t
  split at h
  · rename_i hc
    subst hc
    by_cases hbrace : t.head? = some '{'
    · obtain ⟨t, rfl⟩ := List.head?_eq_some_iff.mp hbrace
      exact offends_of_scanUnicode h
    · rw [Escape.scanUnicode_of_head? hbrace] at h
      cases h
      have hno : ∀ rest : Text, t ≠ '{' :: rest := by
        rintro rest rfl
        exact hbrace rfl
      exact .unicode (fun rest h => absurd h (hno _)) fun _ _ _ h => absurd h (hno _)
  · rename_i hc
    split at h
    · cases h
    · rename_i hsimple
      cases h
      refine .escape fun d hd => ?_
      cases hd
      refine ⟨hc, fun value hvalue => ?_⟩
      rw [simple?_eq_some_iff.mpr hvalue] at hsimple
      cases hsimple

theorem code?_scan_backslash {t : Text} {code : Diagnostic.Code} {n : Nat}
    (h : Escape.scan t = .fault code n) : (scan ('\\' :: t)).code? = some code := by
  rw [scan, if_neg (by decide), if_neg (by decide), if_pos rfl, h]
  rfl

/-- What offends is met as the offence that it is. -/
theorem code?_of_offends {rest : Text} {code : Diagnostic.Code} (h : Offends rest code) :
    (scan rest).code? = some code := by
  cases h with
  | @lineEnd rest h =>
    cases rest with
    | nil =>
      rw [scan]
      rfl
    | cons c t =>
      rw [scan_lineEnd (h c rfl)]
      rfl
  | @escape rest h =>
    refine code?_scan_backslash (n := 0) ?_
    cases rest with
    | nil => rfl
    | cons c t =>
      obtain ⟨hu, hletter⟩ := h c rfl
      have hsimple : Escape.simple? c = none :=
        Option.eq_none_iff_forall_not_mem.mpr fun value hvalue =>
          hletter value (simple?_eq_some_iff.mp hvalue)
      rw [Escape.scan, if_neg hu, hsimple]
  | @empty rest h =>
    refine code?_scan_backslash (n := 2) ?_
    have hrun : (([] ++ rest).take 6).takeWhile Escape.isHexDigit = [] := run_eq_nil_iff.mpr h
    rw [Escape.scan, if_pos rfl]
    exact (scanUnicode_run hrun).trans (if_pos rfl)
  | @value digits rest n h hn =>
    refine code?_scan_backslash (n := 1) ?_
    obtain ⟨hne, hlength, hdigits, -⟩ := numbers_iff.mp h
    have hscalar := (scalar?_eq_none_iff hne hlength hdigits).mpr ⟨n, h, hn⟩
    rw [Escape.scan, if_pos rfl, scanUnicode_run (Escape.run_digits hlength hdigits rest),
      if_neg hne, if_neg (by simp), hscalar]
  | @unicode rest hempty hnumber =>
    by_cases hbrace : rest.head? = some '{'
    · obtain ⟨t, rfl⟩ := List.head?_eq_some_iff.mp hbrace
      obtain ⟨digits, rest, hrun, rfl, hlength, hdigits⟩ := Escape.exists_run t
      have hne : digits ≠ [] := by
        rintro rfl
        obtain ⟨c, hc, hdigit⟩ := hempty _ rfl
        exact hdigit (run_eq_nil_iff.mp hrun c hc)
      have hclose : rest.head? ≠ some '}' := by
        intro hclose
        obtain ⟨rest, rfl⟩ := List.head?_eq_some_iff.mp hclose
        exact hnumber digits rest _ rfl (numbers_iff.mpr ⟨hne, hlength, hdigits, rfl⟩)
      refine code?_scan_backslash (n := 2 + digits.length) ?_
      rw [Escape.scan, if_pos rfl, scanUnicode_run hrun, if_neg hne, if_pos hclose]
    · refine code?_scan_backslash (n := 1) ?_
      rw [Escape.scan, if_pos rfl, Escape.scanUnicode_of_head? hbrace]

/-- A literal that is not closed has an offence behind its items. -/
theorem exists_of_code? {t : Text} {code : Diagnostic.Code} (h : (scan t).code? = some code) :
    ∃ body value rest, t = body ++ rest ∧ Denotes body value ∧ Offends rest code := by
  fun_induction scan t with
  | case1 =>
    cases h
    exact ⟨[], [], [], rfl, .nil, .lineEnd (by simp)⟩
  | case2 => cases h
  | case3 c t _ hend =>
    cases h
    refine ⟨[], [], c :: t, rfl, .nil, .lineEnd fun d hd => ?_⟩
    cases hd
    exact hend
  | case4 t c length hescape _ _ ih =>
    rw [code?_after] at h
    obtain ⟨body, value, rest, hsplit, hdenotes, hoffends⟩ := ih h
    refine ⟨'\\' :: t.take length ++ body, c :: value, rest, ?_,
      .cons (item_of_scan hescape) hdenotes, hoffends⟩
    rw [List.append_assoc, ← hsplit, List.cons_append, List.take_append_drop]
  | case5 t code' length hescape =>
    cases h
    exact ⟨[], [], _, rfl, .nil, offends_of_scan hescape⟩
  | case6 c t hquote hend hback ih =>
    rw [code?_after] at h
    obtain ⟨body, value, rest, rfl, hdenotes, hoffends⟩ := ih h
    have hplain : Item [c] c :=
      .plain c hquote hback (fun hc => hend (.inl hc)) fun hc => hend (.inr hc)
    exact ⟨[c] ++ body, c :: value, rest, rfl, .cons hplain hdenotes, hoffends⟩

/-- What follows an opening quote goes wrong: items, and then an offence. -/
def Fails (t : Text) (code : Diagnostic.Code) : Prop :=
  ∃ body value rest, t = body ++ rest ∧ Spells body value ∧ Offends rest code

theorem code?_scan_iff {t : Text} {code : Diagnostic.Code} :
    (scan t).code? = some code ↔ Fails t code := by
  constructor
  · intro h
    obtain ⟨body, value, rest, hsplit, hdenotes, hoffends⟩ := exists_of_code? h
    exact ⟨body, value, rest, hsplit, spells_iff.mpr hdenotes, hoffends⟩
  · rintro ⟨body, value, rest, rfl, hspells, hoffends⟩
    rw [code?_scan_append (spells_iff.mp hspells), code?_of_offends hoffends]

end Literal

/-! ### Texts -/

namespace Front

/-- What stands at the front of a text that starts with a quote. -/
theorem scan_quote (t : Text) :
    scan '"' t = match Literal.scan t with
      | .closed value length => .token (.stringLiteral (String.ofList value)) length
      | .unterminated length => .fault .unterminatedString 0 (1 + length)
      | .broken code before body => .fault code (1 + before) body := by
  have hcomment : comment? '"' t = none := comment?_eq_none nofun
  rw [scan, hcomment, literal?, if_pos rfl]
  cases Literal.scan t <;> rfl

/-- A literal that is not closed is an offence of its kind. -/
theorem exists_scan_quote {t : Text} {code : Diagnostic.Code}
    (h : (Literal.scan t).code? = some code) :
    ∃ lead body, scan '"' t = .fault code lead body := by
  rw [scan_quote]
  cases hscan : Literal.scan t with
  | closed => rw [hscan] at h; cases h
  | unterminated length => rw [hscan] at h; cases h; exact ⟨_, _, rfl⟩
  | broken code before body => rw [hscan] at h; cases h; exact ⟨_, _, rfl⟩

end Front

namespace Piece

/-- A piece behind others that take up some text starts behind the start of the text. -/
theorem start_ne_zero {s : Text} (hs : s ≠ []) {pieces : List Piece} {x : Located Token}
    (hx : x ∈ tokens (0 + size s) pieces) : x.span.start ≠ 0 := by
  have hpos := size_pos hs
  have hstart := (bounds_of_mem_tokens hx).1
  omega

end Piece

/-- A text that starts with a quote starts with the literal that its first items and the quote
behind them make up, or else no token starts there and the first diagnostic names the first offence
behind the items. -/
theorem tokenize_literal (t : Text) :
    let tokens := (tokenize (String.ofList ('"' :: t))).1
    let diagnostics := (tokenize (String.ofList ('"' :: t))).2
    (∀ value stop, tokens.head? = some ⟨.stringLiteral value, ⟨0, stop⟩⟩ ↔
      ∃ body rest, t = body ++ '"' :: rest ∧ Literal.Spells body value.toList ∧
        stop = size ('"' :: (body ++ ['"']))) ∧
    (∀ code, (∀ x ∈ tokens, x.span.start ≠ 0) ∧ diagnostics.head?.bind (·.code) = some code ↔
      Literal.Fails t code) ∧
    ((∃ value stop, tokens.head? = some ⟨.stringLiteral value, ⟨0, stop⟩⟩) ∨
      ∃ code, Literal.Fails t code) := by
  simp only [tokenize, String.toList_ofList]
  cases hcode : (Literal.scan t).code? with
  | none =>
    obtain ⟨value, n, hscan⟩ : ∃ value n, Literal.scan t = .closed value n := by
      cases hscan : Literal.scan t <;> rw [hscan] at hcode <;> cases hcode
      exact ⟨_, _, rfl⟩
    obtain ⟨body, rest, rfl, hspells, rfl⟩ := Literal.scan_eq_closed_iff.mp hscan
    have hfront := Front.scan_quote (body ++ '"' :: rest)
    rw [hscan] at hfront
    have htake : (body ++ '"' :: rest).take (body.length + 1) = body ++ ['"'] := by
      rw [← List.singleton_append, ← List.append_assoc, List.take_left' (by simp)]
    rw [Piece.ofText_token hfront, htake]
    refine ⟨fun value' stop => ?_, fun code => ?_, .inl ⟨_, _, rfl⟩⟩
    · constructor
      · intro h
        cases h
        exact ⟨body, rest, rfl, by rwa [String.toList_ofList], Nat.zero_add _⟩
      · rintro ⟨body', rest', hsplit, hspells', rfl⟩
        have hscan' := Literal.scan_append_quote (Literal.spells_iff.mp hspells') rest'
        rw [← hsplit, hscan] at hscan'
        obtain ⟨rfl, hlength⟩ := Literal.closed.inj hscan'
        obtain ⟨rfl, -⟩ := List.append_inj hsplit (Nat.succ.inj hlength)
        rw [String.ofList_toList, ← Nat.zero_add (size ('"' :: (body ++ ['"'])))]
        rfl
    · constructor
      · rintro ⟨hno, -⟩
        exact absurd rfl (hno _ List.mem_cons_self)
      · intro hfails
        rw [Literal.code?_scan_iff.mpr hfails] at hcode
        cases hcode
  | some code =>
    obtain ⟨lead, body, hfront⟩ := Front.exists_scan_quote hcode
    rw [Piece.ofText_fault hfront]
    have hno : ∀ x ∈ Piece.tokens 0 (Piece.fault code lead body ('"' :: t.take (lead + body)) ::
        Piece.ofText (t.drop (lead + body))), x.span.start ≠ 0 :=
      fun x hx => Piece.start_ne_zero (List.cons_ne_nil _ _) hx
    refine ⟨fun value stop => ?_, fun code' => ?_, .inr ⟨code, Literal.code?_scan_iff.mp hcode⟩⟩
    · constructor
      · intro h
        exact absurd rfl (hno _ (List.mem_of_mem_head? h))
      · rintro ⟨body, rest, rfl, hspells, -⟩
        rw [Literal.scan_append_quote (Literal.spells_iff.mp hspells)] at hcode
        cases hcode
    · rw [and_iff_right hno, ← Literal.code?_scan_iff, hcode]
      rfl

end EventCatalog
