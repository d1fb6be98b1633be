import EventCatalog.Proofs.Text.Reflow
import EventCatalog.Proofs.Text.Split
import EventCatalog.Proofs.Version.Order
import Mathlib.Data.Option.Basic

/-! # The identity of versions

What is read as a version is in order (`Version.IsRead`), and the written form of a version in order
is read as that version (`Version.coerce_toString`).  So texts that denote versions of equal
precedence, texts of one normal form and texts of one place in the order are the same texts. -/

namespace EventCatalog

namespace Text

theorem trim_of_not_blank {t : Text} (h : ∀ c ∈ t, isBlank c = false) : trim t = t := by
  have hkeep : ∀ u : Text, (∀ c ∈ u, isBlank c = false) → u.dropWhile isBlank = u := by
    intro u hu
    cases u with
    | nil => rfl
    | cons c u => rw [List.dropWhile_cons_of_neg (by simp [hu c List.mem_cons_self])]
  rw [trim, trimStart, hkeep t h, trimEnd, hkeep t.reverse fun c hc => h c (List.mem_reverse.mp hc),
    List.reverse_reverse]

theorem not_blank_of_isAlphanumeric {c : Char} (h : isAlphanumeric c = true) : isBlank c = false :=
  (isVisible_of_isAlphanumeric h).not_blank

/-! ### Decimal numbers -/

theorem isDigit_of_mem_repr {n : Nat} {c : Char} (h : c ∈ (Nat.repr n).toList) :
    isDigit c = true := by
  rw [Nat.toList_repr] at h
  exact Nat.isDigit_of_mem_toDigits (by decide) (by decide) h

theorem decimal_repr (n : Nat) : decimal (Nat.repr n).toList = n := by
  rw [decimal, Nat.toList_repr, ← Nat.ofDigitChars_eq_foldl]
  exact Nat.ofDigitChars_toDigits (by decide) (by decide)

/-- A number that is not zero is written without a leading zero. -/
theorem head?_repr_ne {n : Nat} (hn : 0 < n) : (Nat.repr n).toList.head? ≠ some '0' := by
  rw [Nat.toList_repr]
  induction n using Nat.strongRecOn with
  | ind n ih =>
    rw [Nat.toDigits_eq_if (by decide)]
    split
    · rename_i hlt
      have hdigit : ∀ m : Fin 10, m.val ≠ 0 → [Nat.digitChar m].head? ≠ some '0' := by decide
      exact hdigit ⟨n, hlt⟩ hn.ne'
    · have hne : Nat.toDigits 10 (n / 10) ≠ [] := Nat.toDigits_ne_nil
      rw [List.head?_append_of_ne_nil _ hne]
      exact ih (n / 10) (by omega) (by omega)

end Text

namespace PreRelease

/-- A part as it stands in a tag: a word is not empty, it has the characters of tags without the
dot, and not only digits. -/
def IsRead : PreRelease → Prop
  | number _ => True
  | word w => w.toList ≠ [] ∧ (∀ c ∈ w.toList, Version.isTagChar c = true ∧ c ≠ '.') ∧
      w.toList.all Text.isDigit = false

theorem isRead_of_ofText? {t : Text} {p : PreRelease} (hne : t ≠ [])
    (ht : ∀ c ∈ t, Version.isTagChar c = true ∧ c ≠ '.') (h : ofText? t = some p) : p.IsRead := by
  unfold ofText? at h
  split at h
  · split at h
    · cases h
    · cases h
      trivial
  · rename_i hdigits
    cases h
    simp only [IsRead, String.toList_ofList]
    exact ⟨hne, ht, by simpa using hdigits⟩

theorem toString_ne_nil {p : PreRelease} (h : p.IsRead) : p.toString.toList ≠ [] := by
  cases p with
  | number n =>
    rw [toString, Nat.toList_repr]
    exact Nat.toDigits_ne_nil
  | word w => exact h.1

theorem mem_toString {p : PreRelease} (h : p.IsRead) {c : Char} (hc : c ∈ p.toString.toList) :
    Version.isTagChar c = true ∧ c ≠ '.' := by
  cases p with
  | number n =>
    have hdigit := Text.isDigit_of_mem_repr hc
    constructor
    · simp [Version.isTagChar, Text.isAlphanumeric, hdigit]
    · rintro rfl
      cases hdigit
  | word w => exact h.2.1 c hc

theorem ofText?_toString {p : PreRelease} (h : p.IsRead) : ofText? p.toString.toList = some p := by
  cases p with
  | number n =>
    have hdigits : (Nat.repr n).toList.all Text.isDigit = true :=
      List.all_eq_true.mpr fun c hc => Text.isDigit_of_mem_repr hc
    have hzero : ¬(1 < (Nat.repr n).toList.length ∧ (Nat.repr n).toList.head? = some '0') := by
      rintro ⟨hlength, hhead⟩
      obtain rfl | hn := Nat.eq_zero_or_pos n
      · revert hlength
        decide
      · exact Text.head?_repr_ne hn hhead
    rw [toString, ofText?, if_pos hdigits, if_neg hzero, Text.decimal_repr]
  | word w =>
    rw [toString, ofText?, if_neg (by simp [h.2.2]), String.ofList_toList]

end PreRelease

namespace Version

/-- A version as it is read: its numbers are below the bound and its tag is in order. -/
structure IsRead (v : Version) : Prop where
  major_lt : v.major < bound
  minor_lt : v.minor < bound
  patch_lt : v.patch < bound
  pre : ∀ p ∈ v.pre, p.IsRead

/-! ### What is read -/

theorem lt_of_component? {t : Text} {n : Nat} (h : component? t = some n) : n < bound := by
  unfold component? at h
  split at h
  · cases h
  · split at h
    · rename_i hlt
      cases h
      exact hlt
    · cases h

theorem mem_of_readParts? {t rest : Text} {parts : List Text}
    (h : readParts? t = some (parts, rest)) {part : Text} (hpart : part ∈ parts) :
    part ≠ [] ∧ ∀ c ∈ part, isTagChar c = true ∧ c ≠ '.' := by
  unfold readParts? at h
  simp only at h
  split at h
  · rename_i hall
    cases h
    have hne := List.all_eq_true.mp hall part hpart
    refine ⟨by simpa using hne, fun c hc => ⟨?_, ?_⟩⟩
    · exact List.mem_takeWhile_imp (Text.mem_of_mem_split hpart hc)
    · rintro rfl
      exact Text.not_mem_of_mem_split hpart hc
  · cases h

theorem exists_of_mem_mapM {α β : Type} {f : α → Option β} {xs : List α} {ys : List β}
    (h : xs.mapM f = some ys) {y : β} (hy : y ∈ ys) : ∃ x ∈ xs, f x = some y := by
  induction xs generalizing ys with
  | nil =>
    cases h
    cases hy
  | cons x xs ih =>
    rw [List.mapM_cons] at h
    obtain ⟨z, hz, h⟩ := Option.bind_eq_some_iff.mp h
    obtain ⟨zs, hzs, h⟩ := Option.bind_eq_some_iff.mp h
    cases h
    obtain rfl | hy := List.mem_cons.mp hy
    · exact ⟨x, List.mem_cons_self, hz⟩
    · obtain ⟨x', hx', hf⟩ := ih hzs hy
      exact ⟨x', List.mem_cons_of_mem _ hx', hf⟩

theorem mapM_eq_some_map {α β : Type} {f : α → Option β} {g : α → β} {xs : List α}
    (h : ∀ x ∈ xs, f x = some (g x)) : xs.mapM f = some (xs.map g) := by
  induction xs with
  | nil => rfl
  | cons x xs ih =>
    rw [List.mapM_cons, h x List.mem_cons_self, ih fun y hy => h y (List.mem_cons_of_mem _ hy)]
    rfl

theorem mapM_map_of_inverse {α β : Type} {f : α → Option β} {g : β → α} {ys : List β}
    (h : ∀ y ∈ ys, f (g y) = some y) : (ys.map g).mapM f = some ys := by
  rw [List.mapM_map]
  exact (mapM_eq_some_map (g := id) h).trans (congrArg some (List.map_id ys))

theorem isRead_of_readPre? {t rest : Text} {pre : List PreRelease}
    (h : readPre? t = some (pre, rest)) : ∀ p ∈ pre, p.IsRead := by
  unfold readPre? at h
  split at h
  · obtain ⟨⟨parts, rest'⟩, hparts, h⟩ := Option.bind_eq_some_iff.mp h
    obtain ⟨tags, htags, h⟩ := Option.bind_eq_some_iff.mp h
    cases h
    intro p hp
    obtain ⟨part, hpart, hp⟩ := exists_of_mem_mapM htags hp
    obtain ⟨hne, hchars⟩ := mem_of_readParts? hparts hpart
    exact PreRelease.isRead_of_ofText? hne hchars hp
  · cases h
    intro p hp
    cases hp

/-- The text of a version without the blanks around it and the `v` before it. -/
def bareText (raw : String) : Text :=
  match Text.trim raw.toList with
  | 'v' :: t => t
  | 'V' :: t => t
  | t => t

/-- Characters before the tag and the build metadata. -/
def isCoreChar (c : Char) : Bool := c != '-' && c != '+'

/-- One to three numbers padded with zeros. -/
def padded? : List Nat → Option (Nat × Nat × Nat)
  | [a] => some (a, 0, 0)
  | [a, b] => some (a, b, 0)
  | [a, b, c] => some (a, b, c)
  | _ => none

/-- The version of some numbers and what is written behind them. -/
def ofSuffix? (numbers : Nat × Nat × Nat) (suffix : Text) : Option Version :=
  (readPre? suffix).bind fun (pre, rest) =>
    (readBuild? rest).bind fun (build, rest) =>
      if rest.isEmpty then some ⟨numbers.1, numbers.2.1, numbers.2.2, pre, build⟩ else none

/-- Reading a version is reading its numbers, padding them, and reading what is behind them. -/
theorem coerce_eq (raw : String) : coerce raw =
    ((Text.split '.' ((bareText raw).takeWhile isCoreChar)).mapM component?).bind fun numbers =>
      (padded? numbers).bind (ofSuffix? · ((bareText raw).dropWhile isCoreChar)) := by
  change Option.bind _ _ = Option.bind _ _
  congr 1
  funext numbers
  match numbers with
  | [] => rfl
  | [_] => rfl
  | [_, _] => rfl
  | [_, _, _] => rfl
  | _ :: _ :: _ :: _ :: _ => rfl

theorem lt_of_padded? {numbers : List Nat} {a b c : Nat} (h : padded? numbers = some (a, b, c))
    (hlt : ∀ n ∈ numbers, n < bound) : a < bound ∧ b < bound ∧ c < bound := by
  have hzero : 0 < bound := by decide
  unfold padded? at h
  split at h <;> cases h <;>
    simp only [List.mem_cons, List.not_mem_nil, or_false, forall_eq_or_imp, forall_eq] at hlt
  · exact ⟨hlt, hzero, hzero⟩
  · exact ⟨hlt.1, hlt.2, hzero⟩
  · exact hlt

theorem isRead_of_coerce {raw : String} {v : Version} (h : coerce raw = some v) : v.IsRead := by
  rw [coerce_eq] at h
  obtain ⟨numbers, hnumbers, h⟩ := Option.bind_eq_some_iff.mp h
  obtain ⟨⟨major, minor, patch⟩, hpadded, h⟩ := Option.bind_eq_some_iff.mp h
  obtain ⟨⟨pre, rest⟩, hpre, h⟩ := Option.bind_eq_some_iff.mp h
  obtain ⟨⟨build, rest'⟩, -, h⟩ := Option.bind_eq_some_iff.mp h
  have hlt : ∀ n ∈ numbers, n < bound := by
    intro n hn
    obtain ⟨t, -, hn⟩ := exists_of_mem_mapM hnumbers hn
    exact lt_of_component? hn
  obtain ⟨hmajor, hminor, hpatch⟩ := lt_of_padded? hpadded hlt
  obtain ⟨-, h⟩ := Option.ite_none_right_eq_some.mp h
  cases h
  exact ⟨hmajor, hminor, hpatch, isRead_of_readPre? hpre⟩

/-! ### Runs of digits -/

/-- Some runs of digits, as they stand between dots. -/
structure AreRuns (runs : List Text) : Prop where
  ne_nil : runs ≠ []
  run_ne_nil : ∀ run ∈ runs, run ≠ []
  isDigit : ∀ run ∈ runs, ∀ c ∈ run, Text.isDigit c = true

namespace AreRuns

variable {runs : List Text} {suffix : Text} {raw : String} (h : AreRuns runs)

include h

theorem isDigit_or_dot {c : Char} (hc : c ∈ List.intercalate ['.'] runs) :
    Text.isDigit c = true ∨ c = '.' := by
  obtain rfl | ⟨run, hrun, hc⟩ := Text.mem_intercalate hc
  · exact .inr rfl
  · exact .inl (h.isDigit run hrun c hc)

theorem not_blank {c : Char} (hc : c ∈ List.intercalate ['.'] runs) : Text.isBlank c = false := by
  obtain hdigit | rfl := h.isDigit_or_dot hc
  · exact Text.not_blank_of_isAlphanumeric (by simp [Text.isAlphanumeric, hdigit])
  · rfl

theorem isCoreChar {c : Char} (hc : c ∈ List.intercalate ['.'] runs) : isCoreChar c = true := by
  obtain hdigit | rfl := h.isDigit_or_dot hc
  · by_contra hcore
    simp only [Version.isCoreChar, Bool.and_eq_true, bne_iff_ne, not_and_or, not_not] at hcore
    obtain rfl | rfl := hcore <;> cases hdigit
  · rfl

/-- The first of them begins with a digit. -/
theorem exists_cons : ∃ c t, Text.isDigit c = true ∧ List.intercalate ['.'] runs = c :: t := by
  obtain ⟨run, others, rfl⟩ := List.exists_cons_of_ne_nil h.ne_nil
  obtain ⟨c, t, rfl⟩ := List.exists_cons_of_ne_nil (h.run_ne_nil run List.mem_cons_self)
  have hdigit := h.isDigit _ List.mem_cons_self c List.mem_cons_self
  cases others with
  | nil => exact ⟨c, t, hdigit, List.intercalate_singleton⟩
  | cons run others =>
    rw [List.intercalate_cons_cons, List.append_assoc, List.cons_append]
    exact ⟨c, _, hdigit, rfl⟩

/-- Blanks around a version and one `v` before it are taken away, and nothing else. -/
theorem bareText_eq {front mark back : Text} (hfront : Text.AllBlank front)
    (hback : Text.AllBlank back) (hmark : mark = [] ∨ mark = ['v'] ∨ mark = ['V'])
    (hsuffix : ∀ c ∈ suffix, Text.isBlank c = false)
    (hraw : raw.toList = front ++ (mark ++ (List.intercalate ['.'] runs ++ suffix)) ++ back) :
    bareText raw = List.intercalate ['.'] runs ++ suffix := by
  have hink : ∀ c ∈ mark ++ (List.intercalate ['.'] runs ++ suffix), Text.isBlank c = false := by
    intro c hc
    rcases List.mem_append.mp hc with hc | hc
    · rcases hmark with rfl | rfl | rfl
      · cases hc
      · cases List.mem_singleton.mp hc
        rfl
      · cases List.mem_singleton.mp hc
        rfl
    · exact (List.mem_append.mp hc).elim h.not_blank (hsuffix c)
  obtain ⟨c, t, hdigit, ht⟩ := h.exists_cons
  rw [bareText, hraw, Text.trim_append hfront hback, Text.trim_of_not_blank hink]
  rcases hmark with rfl | rfl | rfl
  · rw [List.nil_append, ht, List.cons_append]
    split
    · rename_i heq
      cases heq
      cases hdigit
    · rename_i heq
      cases heq
      cases hdigit
    · rfl
  · rfl
  · rfl

/-- The runs are read one by one, and then what stands behind them. -/
theorem coerce_eq (hsuffix : suffix.takeWhile Version.isCoreChar = [])
    (hbare : bareText raw = List.intercalate ['.'] runs ++ suffix) :
    coerce raw = (runs.mapM component?).bind fun numbers =>
      (padded? numbers).bind (ofSuffix? · suffix) := by
  have hdrop : suffix.dropWhile Version.isCoreChar = suffix := by
    have happend := @List.takeWhile_append_dropWhile _ Version.isCoreChar suffix
    rwa [hsuffix, List.nil_append] at happend
  have hsplit : Text.split '.' (List.intercalate ['.'] runs) = runs := by
    refine Text.split_intercalate h.ne_nil fun run hrun hdot => ?_
    cases h.isDigit run hrun '.' hdot
  rw [Version.coerce_eq, hbare, List.takeWhile_append_of_pos fun c => h.isCoreChar,
    List.dropWhile_append_of_pos fun c => h.isCoreChar, hsuffix, hdrop, List.append_nil, hsplit]

end AreRuns

/-! ### What is written is read again -/

/-- The written numbers of a version. -/
def coreText (v : Version) : Text :=
  List.intercalate ['.'] ([v.major, v.minor, v.patch].map fun n => (Nat.repr n).toList)

/-- The written tag of a version with the hyphen before it. -/
def tagText (v : Version) : Text :=
  if v.pre.isEmpty then []
  else '-' :: List.intercalate ['.'] (v.pre.map fun p => p.toString.toList)

theorem toList_toString {v : Version} (hbuild : v.build = "") :
    v.toString.toList = v.coreText ++ v.tagText := by
  have hcore : (Nat.repr v.major ++ "." ++ Nat.repr v.minor ++ "." ++ Nat.repr v.patch).toList =
      v.coreText := by
    simp [coreText, List.intercalate_cons_cons, List.intercalate_singleton]
  have htag : (if v.pre.isEmpty then "" else
      "-" ++ String.intercalate "." (v.pre.map PreRelease.toString)).toList = v.tagText := by
    unfold tagText
    split
    · rfl
    · simp [String.toList_intercalate, Function.comp_def]
  have hempty : ("" : String).isEmpty = true := rfl
  simp only [toString, hbuild, hempty, if_true, String.append_empty]
  rw [String.toList_append, hcore, htag]

theorem areRuns_coreText (v : Version) :
    AreRuns ([v.major, v.minor, v.patch].map fun n => (Nat.repr n).toList) where
  ne_nil := List.cons_ne_nil _ _
  run_ne_nil run hrun := by
    obtain ⟨n, -, rfl⟩ := List.mem_map.mp hrun
    rw [Nat.toList_repr]
    exact Nat.toDigits_ne_nil
  isDigit run hrun c hc := by
    obtain ⟨n, -, rfl⟩ := List.mem_map.mp hrun
    exact Text.isDigit_of_mem_repr hc

/-- A run of digits is read as its number, unless that is too great. -/
theorem component?_of_digits {run : Text} (hne : run ≠ [])
    (hdigits : ∀ c ∈ run, Text.isDigit c = true) :
    component? run = if Text.decimal run < bound then some (Text.decimal run) else none := by
  have hempty : run.isEmpty = false := List.isEmpty_eq_false_iff.mpr hne
  have hall : run.all Text.isDigit = true := List.all_eq_true.mpr hdigits
  rw [component?, hempty, hall]
  rfl

theorem component?_repr {n : Nat} (h : n < bound) : component? (Nat.repr n).toList = some n := by
  have hne : (Nat.repr n).toList ≠ [] := by
    rw [Nat.toList_repr]
    exact Nat.toDigits_ne_nil
  rw [component?_of_digits hne fun c hc => Text.isDigit_of_mem_repr hc, Text.decimal_repr, if_pos h]

theorem mapM_component?_repr {v : Version} (hv : v.IsRead) :
    ([v.major, v.minor, v.patch].map fun n => (Nat.repr n).toList).mapM component? =
      some [v.major, v.minor, v.patch] := by
  have hlt : ∀ n ∈ [v.major, v.minor, v.patch], n < bound := by
    simpa using ⟨hv.major_lt, hv.minor_lt, hv.patch_lt⟩
  exact mapM_map_of_inverse fun n hn => component?_repr (hlt n hn)

theorem readParts?_intercalate {parts : List Text} (hne : parts ≠ [])
    (h : ∀ part ∈ parts, part ≠ [] ∧ ∀ c ∈ part, isTagChar c = true ∧ c ≠ '.') :
    readParts? (List.intercalate ['.'] parts) = some (parts, []) := by
  have hchars : ∀ c ∈ List.intercalate ['.'] parts, isTagChar c = true := by
    intro c hc
    obtain rfl | ⟨part, hpart, hc⟩ := Text.mem_intercalate hc
    · rfl
    · exact ((h part hpart).2 c hc).1
  have hall : parts.all (fun part => !part.isEmpty) = true :=
    List.all_eq_true.mpr fun part hpart => by simpa using (h part hpart).1
  have hsplit := Text.split_intercalate hne fun part hpart hdot => ((h part hpart).2 '.' hdot).2 rfl
  rw [readParts?, List.takeWhile_eq_self_iff.mpr hchars, List.dropWhile_eq_nil_iff.mpr hchars,
    hsplit]
  exact if_pos hall

theorem readPre?_tagText {v : Version} (hv : v.IsRead) : readPre? v.tagText = some (v.pre, []) := by
  unfold tagText
  cases hpre : v.pre with
  | nil => rfl
  | cons p ps =>
    rw [if_neg (by simp), ← hpre, readPre?, readParts?_intercalate]
    · have htags : (v.pre.map fun p => p.toString.toList).mapM PreRelease.ofText? = some v.pre :=
        mapM_map_of_inverse fun p hp => PreRelease.ofText?_toString (hv.pre p hp)
      simp only [Option.bind_eq_bind, Option.bind_some, htags, Option.pure_def]
    · simp [hpre]
    · intro part hpart
      obtain ⟨q, hq, rfl⟩ := List.mem_map.mp hpart
      exact ⟨PreRelease.toString_ne_nil (hv.pre q hq),
        fun c hc => PreRelease.mem_toString (hv.pre q hq) hc⟩

theorem mem_tagText {v : Version} (hv : v.IsRead) {c : Char} (h : c ∈ v.tagText) :
    isTagChar c = true := by
  unfold tagText at h
  split at h
  · cases h
  · obtain rfl | h := List.mem_cons.mp h
    · rfl
    · obtain rfl | ⟨part, hpart, hc⟩ := Text.mem_intercalate h
      · rfl
      · obtain ⟨p, hp, rfl⟩ := List.mem_map.mp hpart
        exact (PreRelease.mem_toString (hv.pre p hp) hc).1

theorem not_blank_of_isTagChar {c : Char} (h : isTagChar c = true) : Text.isBlank c = false := by
  simp only [isTagChar, Bool.or_eq_true, beq_iff_eq] at h
  obtain (h | rfl) | rfl := h
  · exact Text.not_blank_of_isAlphanumeric h
  · rfl
  · rfl

/-- A version as it is read, without build metadata, is read from its written form. -/
theorem coerce_toString {v : Version} (hv : v.IsRead) (hbuild : v.build = "") :
    coerce v.toString = some v := by
  have htag : v.tagText.takeWhile isCoreChar = [] := by
    unfold tagText
    split <;> rfl
  have hbare : bareText v.toString = v.coreText ++ v.tagText :=
    (areRuns_coreText v).bareText_eq Text.allBlank_nil Text.allBlank_nil (.inl rfl)
      (fun c hc => not_blank_of_isTagChar (mem_tagText hv hc))
      (by rw [toList_toString hbuild, List.append_nil]; rfl)
  rw [(areRuns_coreText v).coerce_eq htag hbare, mapM_component?_repr hv]
  simp only [Option.bind_some, padded?, ofSuffix?, readPre?_tagText hv, readBuild?]
  rw [if_pos List.isEmpty_nil, ← hbuild]

/-! ### One identity -/

theorem coerce_trimString (raw : String) : coerce (Text.trimString raw) = coerce raw := by
  have hbare : bareText (Text.trimString raw) = bareText raw := by
    rw [bareText, bareText, Text.trimString, String.toList_ofList, Text.trim_trim]
  rw [coerce_eq, coerce_eq, hbare]

theorem isRead_withoutBuild {v : Version} (hv : v.IsRead) : v.withoutBuild.IsRead :=
  ⟨hv.major_lt, hv.minor_lt, hv.patch_lt, hv.pre⟩

theorem normalize_of_coerce {raw : String} {v : Version} (h : coerce raw = some v) :
    normalize raw = v.withoutBuild.toString := by
  simp only [normalize, h]

theorem normalize_of_not_coerce {raw : String} (h : coerce raw = none) :
    normalize raw = Text.trimString raw := by
  simp only [normalize, h]

/-- The normal form of a text denotes what the text denotes. -/
theorem coerce_normalize (raw : String) :
    coerce (normalize raw) = (coerce raw).map withoutBuild := by
  cases h : coerce raw with
  | none => rw [normalize_of_not_coerce h, coerce_trimString, h, Option.map_none]
  | some v =>
    rw [normalize_of_coerce h, coerce_toString (isRead_withoutBuild (isRead_of_coerce h)) rfl,
      Option.map_some]

theorem normalize_normalize (raw : String) : normalize (normalize raw) = normalize raw := by
  have hcoerce := coerce_normalize raw
  cases h : coerce raw with
  | none =>
    rw [h] at hcoerce
    rw [normalize_of_not_coerce hcoerce, normalize_of_not_coerce h, Text.trimString,
      Text.trimString, String.toList_ofList, Text.trim_trim]
  | some v =>
    rw [h] at hcoerce
    rw [normalize_of_coerce hcoerce, normalize_of_coerce h]
    rfl

/-- Texts of one normal form are texts of one rank. -/
theorem normalize_eq_iff {a b : String} :
    normalize a = normalize b ↔ Rank.of (some a) = Rank.of (some b) := by
  constructor
  · intro h
    have hcoerce : (coerce a).map withoutBuild = (coerce b).map withoutBuild := by
      rw [← coerce_normalize, ← coerce_normalize, h]
    cases ha : coerce a <;> cases hb : coerce b <;> rw [ha, hb] at hcoerce
    case none.none =>
      rw [normalize_of_not_coerce ha, normalize_of_not_coerce hb] at h
      rw [Rank.of_eq_text ha, Rank.of_eq_text hb, h]
    case some.some v w =>
      rw [Rank.of_eq_semantic ha, Rank.of_eq_semantic hb, Option.some.inj hcoerce]
    all_goals cases hcoerce
  · intro h
    cases ha : coerce a <;> cases hb : coerce b
    case none.none =>
      rw [Rank.of_eq_text ha, Rank.of_eq_text hb] at h
      rw [normalize_of_not_coerce ha, normalize_of_not_coerce hb, Rank.text.inj h]
    case some.some v w =>
      rw [Rank.of_eq_semantic ha, Rank.of_eq_semantic hb] at h
      rw [normalize_of_coerce ha, normalize_of_coerce hb, Rank.semantic.inj h]
    case none.some w =>
      rw [Rank.of_eq_text ha, Rank.of_eq_semantic hb] at h
      cases h
    case some.none v =>
      rw [Rank.of_eq_semantic ha, Rank.of_eq_text hb] at h
      cases h

/-- Texts that denote the same version are texts of one rank. -/
theorem same_iff {a b : String} : same a b = true ↔ Rank.of (some a) = Rank.of (some b) := by
  have hmixed : ∀ {c d : String}, (coerce c).isSome ≠ (coerce d).isSome →
      Text.trimString c ≠ Text.trimString d := by
    intro c d hcoerce htrim
    rw [← coerce_trimString c, ← coerce_trimString d, htrim] at hcoerce
    exact hcoerce rfl
  cases ha : coerce a <;> cases hb : coerce b <;> simp only [same, ha, hb, beq_iff_eq]
  case none.none => rw [Rank.of_eq_text ha, Rank.of_eq_text hb, Rank.text.injEq]
  case some.some v w =>
    rw [Rank.of_eq_semantic ha, Rank.of_eq_semantic hb, Rank.semantic.injEq, precedence_eq_eq]
  case none.some w =>
    rw [Rank.of_eq_text ha, Rank.of_eq_semantic hb]
    exact iff_of_false (hmixed (by simp [ha, hb])) Rank.noConfusion
  case some.none v =>
    rw [Rank.of_eq_semantic ha, Rank.of_eq_text hb]
    exact iff_of_false (hmixed (by simp [ha, hb])) Rank.noConfusion

/-- The three notions of one version are one notion, normal forms are normal and denote what they
stand for, and optional versions are totally preordered: no version, then texts that denote none,
then all others. -/
theorem identity_and_order :
    (∀ a b : String, (same a b = true ↔ normalize a = normalize b) ∧
      (normalize a = normalize b ↔ compareVersions (some a) (some b) = .eq)) ∧
    (∀ a : String, normalize (normalize a) = normalize a ∧
      ((coerce (normalize a)).isSome ↔ (coerce a).isSome)) ∧
    (∀ x y : Option String, ((compareVersions x y).isLE ∨ (compareVersions y x).isLE) ∧
      compareVersions x y = (compareVersions y x).swap) ∧
    (∀ x y z : Option String, (compareVersions x y).isLE → (compareVersions y z).isLE →
      (compareVersions x z).isLE) ∧
    (∀ x y : Option String, (compareVersions x y).isLE → (compareVersions y x).isLE →
      compareVersions x y = .eq) ∧
    (∀ a : String, coerce a = none → compareVersions none (some a) = .lt) ∧
    (∀ a b : String, coerce a = none → (coerce b).isSome →
      compareVersions (some a) (some b) = .lt) := by
  have hswap : ∀ x y : Option String, compareVersions x y = (compareVersions y x).swap :=
    fun x y => Std.OrientedCmp.eq_swap
  refine ⟨fun a b => ⟨?_, ?_⟩, fun a => ⟨normalize_normalize a, ?_⟩,
    fun x y => ⟨?_, hswap x y⟩, fun x y z => Std.TransCmp.isLE_trans, fun x y hxy hyx => ?_,
    fun a ha => ?_, fun a b ha hb => ?_⟩
  · rw [same_iff, normalize_eq_iff]
  · rw [normalize_eq_iff, compareVersions, Rank.order_of_eq_eq]
  · rw [coerce_normalize, Option.isSome_map]
  · rw [hswap y x]
    cases compareVersions x y <;> simp
  · exact Std.OrientedCmp.isLE_antisymm hxy hyx
  · rw [compareVersions, Rank.of_eq_text ha]
    rfl
  · obtain ⟨v, hv⟩ := Option.isSome_iff_exists.mp hb
    rw [compareVersions, Rank.of_eq_text ha, Rank.of_eq_semantic hv]
    rfl

/-- `v01.2+a` and ` 1.2.0 ` are one version, above the text `draft`. -/
theorem identity_and_order_partial :
    (same "v01.2+a" " 1.2.0 " = true ↔ normalize "v01.2+a" = normalize " 1.2.0 ") ∧
    coerce "draft" = none ∧ (coerce "v01.2+a").isSome ∧
    compareVersions none (some "draft") = .lt ∧
    compareVersions (some "draft") (some "v01.2+a") = .lt ∧
    (compareVersions none (some "v01.2+a")).isLE ∧
    (compareVersions (some "v01.2+a") (some " 1.2.0 ")).isLE ∧
    (compareVersions (some " 1.2.0 ") (some "v01.2+a")).isLE ∧
    compareVersions (some "v01.2+a") (some " 1.2.0 ") = .eq := by
  have hdraft : coerce "draft" = none := by decide +kernel
  have hversion : (coerce "v01.2+a").isSome := by decide +kernel
  have hle : (compareVersions (some "v01.2+a") (some " 1.2.0 ")).isLE := by decide +kernel
  have hge : (compareVersions (some " 1.2.0 ") (some "v01.2+a")).isLE := by decide +kernel
  obtain ⟨hsame, -, -, htrans, hantisymm, hmissing, htext⟩ := identity_and_order
  have hlow := hmissing _ hdraft
  have hhigh := htext _ _ hdraft hversion
  have hboth := htrans _ _ _ (congrArg Ordering.isLE hlow) (congrArg Ordering.isLE hhigh)
  exact ⟨(hsame _ _).1, hdraft, hversion, hlow, hhigh, hboth, hle, hge, hantisymm _ _ hle hge⟩

end Version

end EventCatalog
