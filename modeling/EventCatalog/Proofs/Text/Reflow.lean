import EventCatalog.Text
import Mathlib.Data.List.TakeWhile

/-! # Texts up to reflow

Trimming lines, dropping blank ones and indenting the others changes a text only in its
**gaps**: runs of blanks that hold a line feed, and the blanks at the end.  `Reflow` relates two
texts that differ in no other way; it is closed under what a scanner does.

* `Reflow.cons_inv`: what is not blank stands in both texts, and the rest is related again.
* `Reflow.takeWhile` and `Reflow.any_head?`: a run of characters none of which is blank, and a
  question about the next such character, have the same answer in both.
* `inkLines` lists the trimmed lines that are not blank; `reflow_inkLines` says that a text is a
  reflow of these lines alone, so texts with equal `inkLines` look alike to a scanner. -/

namespace EventCatalog.Text

/-! ### Blank texts -/

/-- The text consists of blanks. -/
def AllBlank (t : Text) : Prop := ∀ c ∈ t, isBlank c = true

/-- A run of blanks that breaks the line. -/
def Gap (t : Text) : Prop := AllBlank t ∧ hasBreak t = true

theorem allBlank_nil : AllBlank [] := by simp [AllBlank]

theorem allBlank_cons {c : Char} {t : Text} :
    AllBlank (c :: t) ↔ isBlank c = true ∧ AllBlank t := by simp [AllBlank]

theorem allBlank_append {s t : Text} : AllBlank (s ++ t) ↔ AllBlank s ∧ AllBlank t := by
  simp only [AllBlank, List.mem_append]
  exact ⟨fun h => ⟨fun c hc => h c (.inl hc), fun c hc => h c (.inr hc)⟩,
    fun ⟨hs, ht⟩ c hc => hc.elim (hs c) (ht c)⟩

theorem allBlank_takeWhile (t : Text) : AllBlank (t.takeWhile isBlank) :=
  fun _ hc => List.mem_takeWhile_imp hc

theorem allBlank_replicate (n : Nat) : AllBlank (List.replicate n ' ') := by
  intro c hc
  rw [List.eq_of_mem_replicate hc]
  decide

@[simp] theorem hasBreak_nil : hasBreak [] = false := rfl

@[simp] theorem hasBreak_cons (c : Char) (t : Text) :
    hasBreak (c :: t) = (c == '\n' || hasBreak t) := rfl

@[simp] theorem hasBreak_append (s t : Text) : hasBreak (s ++ t) = (hasBreak s || hasBreak t) :=
  List.any_append

theorem Gap.append_right {s t : Text} (hs : Gap s) (ht : AllBlank t) : Gap (s ++ t) :=
  ⟨allBlank_append.mpr ⟨hs.1, ht⟩, by simp [hs.2]⟩

theorem Gap.append_left {s t : Text} (hs : AllBlank s) (ht : Gap t) : Gap (s ++ t) :=
  ⟨allBlank_append.mpr ⟨hs, ht.1⟩, by simp [ht.2]⟩

theorem Gap.exists_cons {s : Text} (h : Gap s) :
    ∃ c t, s = c :: t ∧ isBlank c = true ∧ AllBlank t := by
  cases s with
  | nil => exact absurd h.2 (by simp)
  | cons c t =>
    obtain ⟨hc, ht⟩ := allBlank_cons.mp h.1
    exact ⟨c, t, rfl, hc, ht⟩

/-- Nothing but a blank can come next. -/
def StartsBlank (t : Text) : Prop := ∀ c, t.head? = some c → isBlank c = true

theorem AllBlank.startsBlank {t : Text} (h : AllBlank t) : StartsBlank t := by
  intro c hc
  exact h c (List.mem_of_mem_head? hc)

theorem Gap.startsBlank {s : Text} (h : Gap s) (t : Text) : StartsBlank (s ++ t) := by
  obtain ⟨c, s', rfl, hc, -⟩ := h.exists_cons
  intro d hd
  simp only [List.cons_append, List.head?_cons, Option.some.injEq] at hd
  exact hd ▸ hc

/-! ### Characters that are not blank -/

/-- The printable characters of ASCII without the space. -/
def IsVisible (c : Char) : Prop := 33 ≤ c.toNat ∧ c.toNat ≤ 126

theorem IsVisible.not_blank {c : Char} (h : IsVisible c) : isBlank c = false := by
  obtain ⟨hlo, hhi⟩ := h
  simp only [isBlank, Bool.or_eq_false_iff, Bool.and_eq_false_iff, decide_eq_false_iff_not,
    beq_eq_false_iff_ne]
  omega

theorem isVisible_of_isDigit {c : Char} (h : isDigit c = true) : IsVisible c := by
  simp only [isDigit, Bool.and_eq_true, decide_eq_true_eq, Char.le_def, UInt32.le_iff_toNat_le]
    at h
  have lo : ('0' : Char).val.toNat = 48 := rfl
  have hi : ('9' : Char).val.toNat = 57 := rfl
  have e : c.toNat = c.val.toNat := rfl
  constructor <;> omega

theorem isVisible_of_isLetter {c : Char} (h : isLetter c = true) : IsVisible c := by
  simp only [isLetter, Bool.or_eq_true, Bool.and_eq_true, decide_eq_true_eq, Char.le_def,
    UInt32.le_iff_toNat_le] at h
  have l₁ : ('a' : Char).val.toNat = 97 := rfl
  have l₂ : ('z' : Char).val.toNat = 122 := rfl
  have l₃ : ('A' : Char).val.toNat = 65 := rfl
  have l₄ : ('Z' : Char).val.toNat = 90 := rfl
  have e : c.toNat = c.val.toNat := rfl
  constructor <;> omega

theorem isVisible_of_isAlphanumeric {c : Char} (h : isAlphanumeric c = true) : IsVisible c := by
  simp only [isAlphanumeric, Bool.or_eq_true] at h
  exact h.elim isVisible_of_isLetter isVisible_of_isDigit

/-- A test that only visible characters pass is passed by no blank. -/
theorem eq_false_of_blank {p : Char → Bool} (hp : ∀ c, p c = true → IsVisible c) (c : Char)
    (hc : isBlank c = true) : p c = false := by
  cases h : p c with
  | false => rfl
  | true => simp [(hp c h).not_blank] at hc

/-! ### Reflow -/

/-- Two texts that differ in their gaps and at the end alone. -/
inductive Reflow : Text → Text → Prop
  | done {s t : Text} : AllBlank s → AllBlank t → Reflow s t
  | gap {s t u v : Text} : Gap s → Gap t → Reflow u v → Reflow (s ++ u) (t ++ v)
  | char (c : Char) {u v : Text} : Reflow u v → Reflow (c :: u) (c :: v)

namespace Reflow

theorem refl (t : Text) : Reflow t t := by
  induction t with
  | nil => exact .done allBlank_nil allBlank_nil
  | cons c t ih => exact .char c ih

theorem append_left (s : Text) {t u : Text} (h : Reflow t u) : Reflow (s ++ t) (s ++ u) := by
  induction s with
  | nil => exact h
  | cons c s ih => exact .char c ih

/-- Either the next character is the same on both sides, or no side has anything but a blank
next. -/
theorem cases_head {t u : Text} (h : Reflow t u) :
    (∃ c t' u', t = c :: t' ∧ u = c :: u' ∧ Reflow t' u') ∨ (StartsBlank t ∧ StartsBlank u) := by
  cases h with
  | done hs ht => exact .inr ⟨hs.startsBlank, ht.startsBlank⟩
  | gap hs ht _ => exact .inr ⟨hs.startsBlank _, ht.startsBlank _⟩
  | char c h => exact .inl ⟨c, _, _, rfl, rfl, h⟩

theorem cons_inv {c : Char} {t u : Text} (h : Reflow (c :: t) u) (hc : isBlank c = false) :
    ∃ u', u = c :: u' ∧ Reflow t u' := by
  obtain ⟨d, t', u', ht, rfl, h'⟩ | ⟨hs, -⟩ := h.cases_head
  · cases ht
    exact ⟨u', rfl, h'⟩
  · exact absurd (hs c rfl) (by simp [hc])

/-- A test that no blank passes gives the same answer on both sides. -/
theorem any_head? {t u : Text} (h : Reflow t u) {p : Char → Bool}
    (hp : ∀ c, isBlank c = true → p c = false) : t.head?.any p = u.head?.any p := by
  have stuck : ∀ s : Text, StartsBlank s → s.head?.any p = false := by
    intro s hs
    cases s with
    | nil => rfl
    | cons c s => exact hp c (hs c rfl)
  obtain ⟨c, t', u', rfl, rfl, -⟩ | ⟨ht, hu⟩ := h.cases_head
  · rfl
  · rw [stuck t ht, stuck u hu]

theorem head?_eq_some_iff {t u : Text} (h : Reflow t u) {c : Char} (hc : isBlank c = false) :
    t.head? = some c ↔ u.head? = some c := by
  have e := h.any_head? (p := (· == c)) fun d hd => by
    rw [beq_eq_false_iff_ne]
    rintro rfl
    simp [hd] at hc
  cases t with
  | nil => cases u <;> simp at e ⊢; exact e
  | cons a t => cases u <;> simp at e ⊢ <;> grind

end Reflow

/-- The texts begin with the same `n` characters and are related behind them. -/
def AgreeTo (n : Nat) (t u : Text) : Prop := t.take n = u.take n ∧ Reflow (t.drop n) (u.drop n)

namespace AgreeTo

theorem zero {t u : Text} (h : Reflow t u) : AgreeTo 0 t u := ⟨rfl, h⟩

theorem succ (c : Char) {n : Nat} {t u : Text} (h : AgreeTo n t u) :
    AgreeTo (n + 1) (c :: t) (c :: u) := ⟨by simp [h.1], h.2⟩

theorem add {m n : Nat} {t u : Text} (h : AgreeTo m t u) (h' : AgreeTo n (t.drop m) (u.drop m)) :
    AgreeTo (m + n) t u := by
  refine ⟨?_, ?_⟩
  · rw [List.take_add, List.take_add, h.1, h'.1]
  · simpa [List.drop_drop] using h'.2

end AgreeTo

namespace Reflow

theorem agreeTo_one {t u : Text} (h : Reflow t u) {c : Char} (hc : isBlank c = false)
    (ht : t.head? = some c) : AgreeTo 1 t u := by
  cases t with
  | nil => cases ht
  | cons d t =>
    obtain rfl : d = c := by simpa using ht
    obtain ⟨u', rfl, h'⟩ := h.cons_inv hc
    exact (AgreeTo.zero h').succ _

/-- The texts agree on a run of characters none of which is blank. -/
theorem takeWhile {t u : Text} (h : Reflow t u) {p : Char → Bool}
    (hp : ∀ c, isBlank c = true → p c = false) :
    t.takeWhile p = u.takeWhile p ∧ ∀ n ≤ (t.takeWhile p).length, AgreeTo n t u := by
  have stuck : ∀ s : Text, StartsBlank s → s.takeWhile p = [] := by
    intro s hs
    cases s with
    | nil => rfl
    | cons c s => exact List.takeWhile_cons_of_neg (by simp [hp c (hs c rfl)])
  induction t generalizing u with
  | nil =>
    obtain ⟨c, t', u', ht, -, -⟩ | ⟨-, hu⟩ := h.cases_head
    · cases ht
    · rw [stuck u hu]
      refine ⟨rfl, fun n hn => ?_⟩
      obtain rfl : n = 0 := by simpa using hn
      exact .zero h
  | cons c t ih =>
    obtain ⟨d, t', u', ht, rfl, h'⟩ | ⟨hs, hu⟩ := h.cases_head
    · cases ht
      obtain ⟨ihrun, ihdrop⟩ := ih h'
      by_cases hc : p c = true
      · refine ⟨by simp [hc, ihrun], fun n hn => ?_⟩
        cases n with
        | zero => exact .zero h
        | succ n =>
          rw [List.takeWhile_cons_of_pos hc, List.length_cons] at hn
          exact (ihdrop n (by omega)).succ c
      · refine ⟨by simp [hc], fun n hn => ?_⟩
        rw [List.takeWhile_cons_of_neg hc] at hn
        obtain rfl : n = 0 := by simpa using hn
        exact .zero h
    · rw [stuck _ hs, stuck _ hu]
      refine ⟨rfl, fun n hn => ?_⟩
      obtain rfl : n = 0 := by simpa using hn
      exact .zero h

/-- Without the blanks in front the texts are related still, and unless nothing is left there was
a line break among these blanks in both or in neither. -/
theorem trimStart {t u : Text} (h : Reflow t u) :
    Reflow (trimStart t) (trimStart u) ∧ (Text.trimStart t ≠ [] →
      hasBreak (t.takeWhile isBlank) = hasBreak (u.takeWhile isBlank)) := by
  induction h with
  | @done s t hs ht =>
    have e : ∀ s : Text, AllBlank s → Text.trimStart s = [] := fun s hs =>
      List.dropWhile_eq_nil_iff.mpr hs
    rw [e s hs, e t ht]
    exact ⟨.refl [], fun hne => absurd rfl hne⟩
  | gap hs ht _ ih =>
    simp only [Text.trimStart, List.dropWhile_append_of_pos hs.1,
      List.dropWhile_append_of_pos ht.1, List.takeWhile_append_of_pos hs.1,
      List.takeWhile_append_of_pos ht.1, hasBreak_append, hs.2, ht.2, Bool.true_or]
    exact ⟨ih.1, fun _ => trivial⟩
  | char c h ih =>
    by_cases hc : isBlank c = true
    · simp only [Text.trimStart, List.dropWhile_cons_of_pos hc, List.takeWhile_cons_of_pos hc,
        hasBreak_cons]
      refine ⟨ih.1, fun hne => ?_⟩
      rw [ih.2 hne]
    · simp only [Text.trimStart, List.dropWhile_cons_of_neg hc, List.takeWhile_cons_of_neg hc]
      exact ⟨.char c h, fun _ => trivial⟩

end Reflow

/-- Behind `n` and `m` characters the texts are related, and there was a line break in both
beginnings or in neither. -/
def Meets (n m : Nat) (t u : Text) : Prop :=
  hasBreak (t.take n) = hasBreak (u.take m) ∧ Reflow (t.drop n) (u.drop m)

theorem AgreeTo.meets {n : Nat} {t u : Text} (h : AgreeTo n t u) : Meets n n t u :=
  ⟨by rw [h.1], h.2⟩

theorem Meets.succ (c : Char) {n m : Nat} {t u : Text} (h : Meets n m t u) :
    Meets (n + 1) (m + 1) (c :: t) (c :: u) :=
  ⟨by simp [h.1], h.2⟩

/-- The ends of the first lines meet. -/
theorem Reflow.meets_lineEnd {t u : Text} (h : Reflow t u) :
    Meets (t.takeWhile (· != '\n')).length (u.takeWhile (· != '\n')).length t u := by
  have hbreak : ∀ s : Text, hasBreak (s.take (s.takeWhile (· != '\n')).length) = false := by
    intro s
    induction s with
    | nil => rfl
    | cons c s ih => by_cases hc : c = '\n' <;> simp [hc, ih]
  have hlen : ∀ s v : Text, hasBreak s = true → ((s ++ v).takeWhile (· != '\n')).length ≤ s.length ∧
      Text.hasBreak (s.drop ((s ++ v).takeWhile (· != '\n')).length) = true := by
    intro s v hs
    induction s with
    | nil => cases hs
    | cons c s ih =>
      by_cases hc : c = '\n'
      · simp [hc]
      · simpa [hc] using ih (by simpa [hc] using hs)
  refine ⟨by rw [hbreak t, hbreak u], ?_⟩
  induction h with
  | done hs ht =>
    exact .done (fun c hc => hs c (List.mem_of_mem_drop hc))
      (fun c hc => ht c (List.mem_of_mem_drop hc))
  | @gap s t u v hs ht h _ =>
    obtain ⟨hn, hnb⟩ := hlen s u hs.2
    obtain ⟨hm, hmb⟩ := hlen t v ht.2
    rw [List.drop_append_of_le_length hn, List.drop_append_of_le_length hm]
    exact .gap ⟨fun c hc => hs.1 c (List.mem_of_mem_drop hc), hnb⟩
      ⟨fun c hc => ht.1 c (List.mem_of_mem_drop hc), hmb⟩ h
  | char c h ih =>
    by_cases hc : c = '\n'
    · simpa [hc] using Reflow.char '\n' h
    · simpa [hc] using ih

/-- What a scanner has to know to go on in both texts: without the blanks in front they are
related, and unless nothing is left, a line break has been seen on both sides or on neither.  The
flags say whether one was seen before. -/
def Resumes (b c : Bool) (t u : Text) : Prop :=
  Reflow (trimStart t) (trimStart u) ∧ (trimStart t ≠ [] →
    (b || hasBreak (t.takeWhile isBlank)) = (c || hasBreak (u.takeWhile isBlank)))

theorem resumes_nil (b c : Bool) : Resumes b c [] [] := ⟨.refl [], fun h => absurd rfl h⟩

theorem Reflow.resumes {t u : Text} (h : Reflow t u) (b : Bool) : Resumes b b t u :=
  ⟨h.trimStart.1, fun hne => by rw [h.trimStart.2 hne]⟩

theorem Meets.resumes {n m : Nat} {t u : Text} (h : Meets n m t u) (b : Bool) :
    Resumes (b || hasBreak (t.take n)) (b || hasBreak (u.take m)) (t.drop n) (u.drop m) := by
  rw [h.1]
  exact h.2.resumes _

/-- One character more may be skipped, in whatever gap it stands. -/
theorem Reflow.resumes_tail {t u : Text} (h : Reflow t u) (b : Bool) :
    Resumes (b || hasBreak (t.take 1)) (b || hasBreak (u.take 1)) (t.drop 1) (u.drop 1) := by
  cases h with
  | done hs ht =>
    have e : ∀ {s : Text}, AllBlank s → Text.trimStart (s.drop 1) = [] := fun hs =>
      List.dropWhile_eq_nil_iff.mpr fun c hc => hs c (List.mem_of_mem_drop hc)
    refine ⟨?_, fun hne => absurd (e hs) hne⟩
    rw [e hs, e ht]
    exact .refl []
  | @gap s t u v hs ht h =>
    obtain ⟨c, s', rfl, -, hs'⟩ := hs.exists_cons
    obtain ⟨d, t', rfl, -, ht'⟩ := ht.exists_cons
    have hsb := hs.2
    have htb := ht.2
    simp only [hasBreak_cons] at hsb htb
    simp only [List.cons_append, List.drop_succ_cons, List.drop_zero, List.take_succ_cons,
      List.take_zero, hasBreak_cons, hasBreak_nil, Bool.or_false, Resumes, Text.trimStart,
      List.dropWhile_append_of_pos hs', List.dropWhile_append_of_pos ht',
      List.takeWhile_append_of_pos hs', List.takeWhile_append_of_pos ht', hasBreak_append]
    refine ⟨h.trimStart.1, fun _ => ?_⟩
    rw [Bool.or_assoc, ← Bool.or_assoc (c == '\n'), hsb, Bool.or_assoc,
      ← Bool.or_assoc (d == '\n'), htb]
    simp
  | char c h => exact h.resumes _

theorem Meets.resumes_succ {n m : Nat} {t u : Text} (h : Meets n m t u) (b : Bool) :
    Resumes (b || hasBreak (t.take (n + 1))) (b || hasBreak (u.take (m + 1)))
      (t.drop (n + 1)) (u.drop (m + 1)) := by
  have := h.2.resumes_tail (b || hasBreak (t.take n))
  rw [List.take_add, List.take_add, hasBreak_append, hasBreak_append, ← Bool.or_assoc,
    ← Bool.or_assoc, ← List.drop_drop, ← List.drop_drop]
  rw [h.1] at this ⊢
  exact this

/-! ### Trimming -/

/-- What trimming takes away are blanks on both sides. -/
theorem not_blank_of_trimStart {c : Char} {t u : Text} (h : trimStart t = c :: u) :
    isBlank c = false := by
  have hne : t.dropWhile isBlank ≠ [] := by
    rw [← trimStart, h]
    exact List.cons_ne_nil c u
  have hhead := List.head_dropWhile_not isBlank hne
  rw [trimStart] at h
  simpa only [h, List.head_cons] using hhead

theorem trimStart_eq_nil {t : Text} (h : StartsBlank (trimStart t)) : trimStart t = [] := by
  cases htrim : trimStart t with
  | nil => rfl
  | cons c u =>
    rw [htrim] at h
    have hblank := h c rfl
    rw [not_blank_of_trimStart htrim] at hblank
    cases hblank

theorem exists_trim (t : Text) : ∃ a z, AllBlank a ∧ AllBlank z ∧ t = a ++ trim t ++ z := by
  refine ⟨t.takeWhile isBlank, ((trimStart t).reverse.takeWhile isBlank).reverse,
    allBlank_takeWhile t, ?_, ?_⟩
  · intro c hc
    exact allBlank_takeWhile _ c (List.mem_reverse.mp hc)
  · rw [List.append_assoc, trim, trimEnd, ← List.reverse_append, List.takeWhile_append_dropWhile,
      List.reverse_reverse, trimStart, List.takeWhile_append_dropWhile]

theorem exists_trimEnd (t : Text) : ∃ z, AllBlank z ∧ t = trimEnd t ++ z := by
  refine ⟨(t.reverse.takeWhile isBlank).reverse, ?_, ?_⟩
  · intro c hc
    exact allBlank_takeWhile _ c (List.mem_reverse.mp hc)
  · rw [trimEnd, ← List.reverse_append, List.takeWhile_append_dropWhile, List.reverse_reverse]

theorem trimEnd_append {t z : Text} (hz : AllBlank z) : trimEnd (t ++ z) = trimEnd t := by
  have hz' : ∀ c ∈ z.reverse, isBlank c = true := fun c hc => hz c (List.mem_reverse.mp hc)
  rw [trimEnd, trimEnd, List.reverse_append, List.dropWhile_append_of_pos hz']

theorem trim_eq_nil_iff {t : Text} : trim t = [] ↔ AllBlank t := by
  constructor
  · intro h
    obtain ⟨a, z, ha, hz, e⟩ := exists_trim t
    rw [e, h, List.append_nil]
    exact allBlank_append.mpr ⟨ha, hz⟩
  · intro h
    rw [trim, trimStart, List.dropWhile_eq_nil_iff.mpr h]
    rfl

/-- Blanks on both sides make no difference to a trimmed text. -/
theorem trim_append {a z : Text} (ha : AllBlank a) (hz : AllBlank z) (t : Text) :
    trim (a ++ t ++ z) = trim t := by
  by_cases ht : AllBlank t
  · rw [trim_eq_nil_iff.mpr ht, trim_eq_nil_iff]
    exact allBlank_append.mpr ⟨allBlank_append.mpr ⟨ha, ht⟩, hz⟩
  · have hne : ((t.dropWhile isBlank).isEmpty) = false := by
      rw [List.isEmpty_eq_false_iff]
      exact fun e => ht (List.dropWhile_eq_nil_iff.mp e)
    rw [trim, trim, trimStart, List.append_assoc, List.dropWhile_append_of_pos ha,
      List.dropWhile_append, if_neg (by simp [hne]), trimEnd_append hz, trimStart]

theorem trim_trim (t : Text) : trim (trim t) = trim t := by
  obtain ⟨a, z, ha, hz, e⟩ := exists_trim t
  calc trim (trim t) = trim (a ++ trim t ++ z) := (trim_append ha hz _).symm
    _ = trim t := by rw [← e]

theorem trim_trimEnd (t : Text) : trim (trimEnd t) = trim t := by
  obtain ⟨z, hz, e⟩ := exists_trimEnd t
  calc trim (trimEnd t) = trim ([] ++ trimEnd t ++ z) := (trim_append allBlank_nil hz _).symm
    _ = trim t := by rw [List.nil_append, ← e]

theorem trimEnd_dropReturn (t : Text) : trimEnd (dropReturn t) = trimEnd t := by
  unfold dropReturn
  split
  · rename_i h
    have hne : t ≠ [] := by rintro rfl; simp at h
    have e : t = t.dropLast ++ ['\r'] := by
      rw [List.getLast?_eq_some_getLast hne, Option.some.injEq] at h
      rw [← h, List.dropLast_concat_getLast]
    have hr : AllBlank ['\r'] := by simp [AllBlank]; decide
    calc trimEnd t.dropLast = trimEnd (t.dropLast ++ ['\r']) := (trimEnd_append hr).symm
      _ = trimEnd t := by rw [← e]
  · rfl

theorem trim_dropReturn (t : Text) : trim (dropReturn t) = trim t := by
  rw [← trim_trimEnd, trimEnd_dropReturn, trim_trimEnd]

/-! ### Lines with ink -/

/-- The trimmed lines that hold more than blanks. -/
def inkLines (ls : List Text) : List Text := (ls.map trim).filter (!·.isEmpty)

/-- Lines each behind a line feed. -/
def behindBreaks (ls : List Text) : Text := ls.flatMap ('\n' :: ·)

@[simp] theorem inkLines_nil : inkLines [] = [] := rfl

theorem inkLines_cons_of_blank {l : Text} (h : trim l = []) (ls : List Text) :
    inkLines (l :: ls) = inkLines ls := by simp [inkLines, h]

theorem inkLines_cons_of_ink {l : Text} (h : trim l ≠ []) (ls : List Text) :
    inkLines (l :: ls) = trim l :: inkLines ls := by simp [inkLines, h]

@[simp] theorem inkLines_append (ls ms : List Text) :
    inkLines (ls ++ ms) = inkLines ls ++ inkLines ms := by simp [inkLines]

theorem inkLines_reverse (ls : List Text) : inkLines ls.reverse = (inkLines ls).reverse := by
  simp [inkLines]

/-- Only the trimmed form of a line matters. -/
theorem inkLines_cons_congr {l m : Text} {ls ms : List Text} (h : trim l = trim m)
    (hs : inkLines ls = inkLines ms) : inkLines (l :: ls) = inkLines (m :: ms) := by
  simpa [inkLines, h] using by
    simp only [List.filter_cons]
    rw [show (ls.map trim).filter (!·.isEmpty) = (ms.map trim).filter (!·.isEmpty) from hs]

/-- Lines between blanks are a reflow of the lines with ink in them. -/
theorem reflow_inkLines {s e : Text} (hs : AllBlank s) (he : AllBlank e) (ls : List Text) :
    Reflow (s ++ behindBreaks ls ++ e) (behindBreaks (inkLines ls)) := by
  induction ls generalizing s with
  | nil =>
    refine .done ?_ allBlank_nil
    simp only [behindBreaks, List.flatMap_nil, List.append_nil]
    exact allBlank_append.mpr ⟨hs, he⟩
  | cons l ls ih =>
    have hfeed : Gap ['\n'] := ⟨by simp [AllBlank]; decide, rfl⟩
    obtain ⟨a, z, ha, hz, el⟩ := exists_trim l
    by_cases h : trim l = []
    · rw [inkLines_cons_of_blank h]
      have hl : AllBlank l := trim_eq_nil_iff.mp h
      have hs' : AllBlank (s ++ '\n' :: l) :=
        allBlank_append.mpr ⟨hs, allBlank_cons.mpr ⟨by decide, hl⟩⟩
      have := ih hs'
      simpa [behindBreaks] using this
    · rw [inkLines_cons_of_ink h]
      have hgap : Gap (s ++ (['\n'] ++ a)) := Gap.append_left hs (hfeed.append_right ha)
      have := Reflow.gap hgap hfeed (Reflow.append_left (trim l) (ih hz))
      have e₁ : s ++ behindBreaks (l :: ls) ++ e =
          s ++ (['\n'] ++ a) ++ (trim l ++ (z ++ behindBreaks ls ++ e)) :=
        calc s ++ behindBreaks (l :: ls) ++ e
            = s ++ ('\n' :: (a ++ trim l ++ z) ++ behindBreaks ls) ++ e := by
              rw [← el]; simp [behindBreaks]
          _ = s ++ (['\n'] ++ a) ++ (trim l ++ (z ++ behindBreaks ls ++ e)) := by simp
      rw [e₁]
      simpa [behindBreaks] using this

theorem behindBreaks_split (t : Text) : behindBreaks (split '\n' t) = '\n' :: t := by
  induction t with
  | nil => rfl
  | cons c t ih =>
    by_cases h : c = '\n'
    · simp only [split, h, if_true]
      simpa [behindBreaks] using ih
    · simp only [split, h, if_false]
      cases hp : split '\n' t with
      | nil => exact absurd hp (split_ne_nil _ _)
      | cons piece pieces =>
        rw [hp] at ih
        simp only [behindBreaks, List.flatMap_cons, List.cons_append, List.cons.injEq,
          true_and] at ih ⊢
        rw [ih]

/-- A text behind a line feed is a reflow of its lines with ink. -/
theorem reflow_split (t : Text) :
    Reflow ('\n' :: t) (behindBreaks (inkLines (split '\n' t))) := by
  have := reflow_inkLines allBlank_nil allBlank_nil (split '\n' t)
  simpa [behindBreaks_split] using this

theorem inkLines_lines (t : Text) : inkLines (lines t) = inkLines (split '\n' t) := by
  have hmap : ∀ ls : List Text, inkLines (ls.map dropReturn) = inkLines ls := by
    intro ls
    simp only [inkLines, List.map_map]
    congr 1
    exact List.map_congr_left fun l _ => trim_dropReturn l
  have hne := split_ne_nil '\n' t
  have e : inkLines (split '\n' t) =
      inkLines (split '\n' t).dropLast ++ inkLines [(split '\n' t).getLast hne] := by
    rw [← inkLines_append, List.dropLast_concat_getLast]
  rw [e]
  simp only [lines, List.getLast?_eq_some_getLast hne]
  split
  · rename_i h
    simp only [Option.some.injEq] at h
    rw [hmap, h, inkLines_cons_of_blank (show trim [] = [] from rfl), inkLines_nil,
      List.append_nil]
  · rename_i last _ h
    simp only [Option.some.injEq] at h
    rw [inkLines_append, hmap, h]
  · rename_i h
    cases h

end EventCatalog.Text
