import EventCatalog.DocumentPath
import EventCatalog.Proofs.Text.Split
import EventCatalog.Proofs.Text.Trimming

/-! # Web addresses

A path is a web address if it begins with one of two schemes, in any case of the letters.
`IsAddress` takes such a path apart, and `IsAddress.normalText` says that normalization keeps scheme
and authority, so a web address stays one (`isRemote_normalText`).  The first slash of a web address
is followed by another (`exists_slashes_of_isRemote`), which tells other paths from it. -/

namespace EventCatalog

namespace DocumentPath

/-! ### Letters in lower case -/

/-- Capital letters alone have another character as their lower case. -/
theorem toLower_cases (c : Char) : c.toLower = c ∨
    65 ≤ c.toNat ∧ c.toNat ≤ 90 ∧ c.toLower.toNat = c.toNat + 32 := by
  unfold Char.toLower
  split
  · rename_i hupper
    right
    have hle : (65 : UInt32).toNat ≤ c.val.toNat ∧ c.val.toNat ≤ (90 : UInt32).toNat := hupper
    have hsum : (c.val + 32).toNat = (c.val.toNat + (32 : UInt32).toNat) % 2 ^ 32 :=
      UInt32.toNat_add _ _
    simp only [UInt32.reduceToNat] at hle hsum
    refine ⟨hle.1, hle.2, ?_⟩
    show (c.val + 32).toNat = c.val.toNat + 32
    omega
  · exact .inl rfl

/-- A text without letters is the lower case of no other text. -/
theorem eq_of_lowerAscii {s t : Text} (h : Text.lowerAscii s = t) (ht : ∀ c ∈ t, c.toNat < 97) :
    s = t := by
  subst h
  have hself : ∀ c ∈ s, id c = c.toLower := by
    intro c hc
    have hlt := ht _ (List.mem_map_of_mem hc)
    rcases toLower_cases c with hsame | ⟨hlo, -, hsum⟩
    · exact hsame.symm
    · omega
  exact (List.map_id s).symm.trans (List.map_congr_left hself)

theorem not_isBlank_of_toLower {c : Char} (h : c.toLower = 'h') : Text.isBlank c = false := by
  rcases toLower_cases c with hsame | ⟨hlo, hhi, -⟩
  · rw [← hsame, h]
    decide
  · exact Text.IsVisible.not_blank ⟨by omega, by omega⟩

/-! ### Parts of an address -/

/-- The schemes of web addresses. -/
def schemes : List Text := ["http".toList, "https".toList]

theorem scheme_spec : ∀ scheme ∈ schemes, scheme.head? = some 'h' ∧ ':' ∉ scheme ∧ '/' ∉ scheme := by
  decide

/-- A web address has a scheme in any case of the letters. -/
theorem isRemote_iff {path : Text} : isRemote path = true ↔
    ∃ scheme ∈ schemes, scheme ++ "://".toList <+: Text.lowerAscii (Text.trim path) := by
  have hschemes : ∀ p : Text → Prop, (∃ scheme ∈ schemes, p scheme) ↔
      p "http".toList ∨ p "https".toList := by simp [schemes]
  rw [hschemes, isRemote, Bool.or_eq_true, List.isPrefixOf_iff_prefix, List.isPrefixOf_iff_prefix]
  exact Iff.rfl

theorem isRemote_trim (t : Text) : isRemote (Text.trim t) = isRemote t := by
  rw [isRemote, isRemote, Text.trim_trim]

/-- The text is a web address, made up of a scheme, an authority and a path. -/
structure IsAddress (text scheme authority path : Text) : Prop where
  text_eq : text = scheme ++ "://".toList ++ (authority ++ path)
  scheme_mem : Text.lowerAscii scheme ∈ schemes
  slashless : '/' ∉ authority
  path_eq : path = [] ∨ path.head? = some '/'

/-- The authority of an address ends before the next slash. -/
theorem isAddress_of_scheme {scheme : Text} (h : Text.lowerAscii scheme ∈ schemes) (rest : Text) :
    IsAddress (scheme ++ "://".toList ++ rest) scheme (rest.takeWhile (· != '/'))
      (rest.dropWhile (· != '/')) := by
  constructor
  · rw [List.takeWhile_append_dropWhile]
  · exact h
  · intro hslash
    simpa using List.mem_takeWhile_imp hslash
  · cases hpath : rest.dropWhile (· != '/') with
    | nil => exact .inl rfl
    | cons c path =>
      have hhead := List.head_dropWhile_not (· != '/') (l := rest) (by simp [hpath])
      refine .inr ?_
      simpa [hpath] using hhead

/-- Web addresses are recognized by their schemes, in any case of the letters. -/
theorem exists_isAddress {raw : Text} (h : isRemote raw = true) :
    ∃ scheme authority path, IsAddress (Text.trim raw) scheme authority path := by
  obtain ⟨scheme, hmem, rest, hrest⟩ := isRemote_iff.mp h
  rw [List.append_assoc, Text.lowerAscii, eq_comm, List.map_eq_append_iff] at hrest
  obtain ⟨front, behind, htrim, hfront, hbehind⟩ := hrest
  rw [List.map_eq_append_iff] at hbehind
  obtain ⟨mark, rest, rfl, hmark, -⟩ := hbehind
  have hplain : ∀ c ∈ "://".toList, c.toNat < 97 := by simp
  obtain rfl : mark = "://".toList := eq_of_lowerAscii hmark hplain
  have hscheme : Text.lowerAscii front ∈ schemes := by
    rw [Text.lowerAscii, hfront]
    exact hmem
  refine ⟨front, rest.takeWhile (· != '/'), rest.dropWhile (· != '/'), ?_⟩
  rw [htrim, ← List.append_assoc]
  exact isAddress_of_scheme hscheme rest

namespace IsAddress

variable {text scheme authority path : Text}

theorem exists_cons_scheme (h : IsAddress text scheme authority path) :
    ∃ c s, scheme = c :: s ∧ c.toLower = 'h' := by
  have hhead := (scheme_spec _ h.scheme_mem).1
  rw [Text.lowerAscii, List.head?_map, Option.map_eq_some_iff] at hhead
  obtain ⟨c, hc, hlower⟩ := hhead
  obtain ⟨s, rfl⟩ := List.head?_eq_some_iff.mp hc
  exact ⟨c, s, rfl, hlower⟩

theorem colonless (h : IsAddress text scheme authority path) : ':' ∉ scheme := fun hcolon =>
  (scheme_spec _ h.scheme_mem).2.1 (List.mem_map_of_mem (f := Char.toLower) hcolon)

theorem slashless_scheme (h : IsAddress text scheme authority path) : '/' ∉ scheme := fun hslash =>
  (scheme_spec _ h.scheme_mem).2.2 (List.mem_map_of_mem (f := Char.toLower) hslash)

/-- A web address is one with blanks at its end as well. -/
theorem isRemote (h : IsAddress text scheme authority path) :
    DocumentPath.isRemote text = true := by
  obtain ⟨c, s, hscheme, hlower⟩ := h.exists_cons_scheme
  have hink := not_isBlank_of_toLower hlower
  have hhead : (scheme ++ "://".toList).head? = some c := by rw [hscheme]; rfl
  have hlast : (scheme ++ "://".toList).getLast? = some '/' :=
    List.getLast?_append_of_ne_nil scheme (by decide)
  refine isRemote_iff.mpr ⟨_, h.scheme_mem, ?_⟩
  rw [h.text_eq, Text.trim_append_of_ink hhead hlast hink (by decide)]
  simp only [Text.lowerAscii, List.map_append]
  exact List.prefix_append _ _

/-- What stands before the first colon of a web address is its scheme. -/
theorem takeWhile_colon (h : IsAddress text scheme authority path) :
    text.takeWhile (· != ':') = scheme := by
  have hfree : ∀ c ∈ scheme, (c != ':') = true := fun c hc =>
    bne_iff_ne.mpr (ne_of_mem_of_not_mem hc h.colonless)
  rw [h.text_eq, List.append_assoc, List.takeWhile_append_of_pos hfree]
  simp

theorem drop_scheme (h : IsAddress text scheme authority path) :
    (text.dropWhile (· != ':')).drop "://".length = authority ++ path := by
  have hfree : ∀ c ∈ scheme, (c != ':') = true := fun c hc =>
    bne_iff_ne.mpr (ne_of_mem_of_not_mem hc h.colonless)
  rw [h.text_eq, List.append_assoc, List.dropWhile_append_of_pos hfree]
  rfl

/-- The authority ends where the path begins. -/
theorem takeWhile_slash (h : IsAddress text scheme authority path) :
    (authority ++ path).takeWhile (· != '/') = authority := by
  have hfree : ∀ c ∈ authority, (c != '/') = true := fun c hc =>
    bne_iff_ne.mpr (ne_of_mem_of_not_mem hc h.slashless)
  rw [List.takeWhile_append_of_pos hfree]
  obtain rfl | hslash := h.path_eq
  · exact List.append_nil _
  · obtain ⟨path, rfl⟩ := List.head?_eq_some_iff.mp hslash
    simp

theorem dropWhile_slash (h : IsAddress text scheme authority path) :
    (authority ++ path).dropWhile (· != '/') = path := by
  have hsplit := List.takeWhile_append_dropWhile (p := (· != '/')) (l := authority ++ path)
  rw [h.takeWhile_slash] at hsplit
  exact List.append_cancel_left hsplit

/-- Normalization keeps scheme and authority. -/
theorem normalText {raw : Text} (h : IsAddress (Text.trim raw) scheme authority path) :
    IsAddress (normalText raw) scheme authority (normalize true path) := by
  have hremote : DocumentPath.isRemote (Text.trim raw) = true := h.isRemote
  constructor
  · rw [DocumentPath.normalText, if_pos hremote]
    simp only [h.takeWhile_colon, h.drop_scheme, h.takeWhile_slash, h.dropWhile_slash,
      List.append_assoc]
  · exact h.scheme_mem
  · exact h.slashless
  · simp only [normalize]
    split
    · exact .inr rfl
    · rename_i hnone
      refine .inl (List.isEmpty_iff.mp ?_)
      simp only [Bool.true_and, Bool.not_eq_true', Bool.not_eq_false, Bool.and_eq_true] at hnone
      exact hnone.1

end IsAddress

/-- A web address that is normalized is a web address. -/
theorem isRemote_normalText {raw : Text} (h : isRemote (Text.trim raw) = true) :
    isRemote (normalText raw) = true := by
  obtain ⟨scheme, authority, path, haddress⟩ := exists_isAddress h
  rw [Text.trim_trim] at haddress
  exact haddress.normalText.isRemote

/-! ### Paths that are no web addresses -/

/-- The first slash of a web address is followed by another. -/
theorem exists_slashes_of_isRemote {t : Text} (h : isRemote t = true) :
    ∃ front behind, '/' ∉ front ∧ t = front ++ '/' :: '/' :: behind := by
  obtain ⟨scheme, authority, path, haddress⟩ := exists_isAddress h
  obtain ⟨a, z, ha, -, ht⟩ := Text.exists_trim t
  refine ⟨a ++ scheme ++ [':'], authority ++ path ++ z, ?_, ?_⟩
  · have hblank : '/' ∉ a := fun hslash => absurd (ha _ hslash) (by decide)
    simp [hblank, haddress.slashless_scheme]
  · rw [haddress.text_eq] at ht
    rw [ht]
    simp

theorem not_isRemote_of_slashless {t : Text} (h : '/' ∉ t) : isRemote t = false := by
  by_contra hremote
  obtain ⟨front, behind, -, rfl⟩ := exists_slashes_of_isRemote (by simpa using hremote)
  exact h (by simp)

/-- A text is no web address if its first slash stands alone. -/
theorem not_isRemote_of_head? {front behind : Text} (hfront : '/' ∉ front)
    (hbehind : behind.head? ≠ some '/') : isRemote (front ++ '/' :: behind) = false := by
  by_contra hremote
  obtain ⟨front', behind', hfront', heq⟩ := exists_slashes_of_isRemote (by simpa using hremote)
  obtain ⟨-, rfl⟩ := Text.eq_of_append_separator hfront hfront' heq
  exact hbehind rfl

end DocumentPath

end EventCatalog
