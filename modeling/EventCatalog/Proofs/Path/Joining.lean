import EventCatalog.Proofs.Path.Stable

/-! # Joined paths

A relative specifier is put behind the directory of the document that it is written in, and the
directory is what stands before the last slash (`parent_of_last`).  The joined path begins at the root
if the document does, and is a web address of the same scheme and authority if the document is one
(`Beside`), but for four cases (`Strays`), and in all of these it is otherwise (`beside_join_iff`):
nothing is left before the slash of the root, so the directory of `/a.ec` is taken for none; the last
slash of an address without a path stands in front of its authority; and what a specifier or a
directory begins with counts as a slash once backslashes are turned and blanks are trimmed. -/

namespace EventCatalog

namespace DocumentPath

/-! ### Where a document stands -/

/-- The path begins at the root. -/
def IsAbsolute (p : DocumentPath) : Prop := p.text.toList.head? = some '/'

/-- The path is a web address. -/
def IsRemote (p : DocumentPath) : Prop := isRemote p.text.toList = true

instance (p : DocumentPath) : Decidable p.IsAbsolute := inferInstanceAs (Decidable (_ = _))

instance (p : DocumentPath) : Decidable p.IsRemote := inferInstanceAs (Decidable (_ = _))

/-- The scheme of a web address. -/
def scheme (p : DocumentPath) : Text := p.text.toList.takeWhile (· != ':')

/-- What stands behind the scheme of a web address. -/
def location (p : DocumentPath) : Text :=
  (p.text.toList.dropWhile (· != ':')).drop "://".length

/-- The authority of a web address. -/
def authority (p : DocumentPath) : Text := p.location.takeWhile (· != '/')

/-- The second document stands where the first one does: both at the root or neither, and on the web
at one authority or neither on the web. -/
structure Beside (p q : DocumentPath) : Prop where
  absolute : q.IsAbsolute ↔ p.IsAbsolute
  remote : q.IsRemote ↔ p.IsRemote
  address : p.IsRemote → q.scheme = p.scheme ∧ q.authority = p.authority

/-- The ways in which a specifier leads away from where a document stands, although it is relative. -/
inductive Strays (p : DocumentPath) (specifier : Text) : Prop
  /-- The document stands directly below the root, or is the root. -/
  | fromRoot : p.IsAbsolute → p.parent = [] → specifier.head? ≠ some '\\' → Strays p specifier
  /-- No directory stands before a backslash. -/
  | toRoot : ¬p.IsAbsolute → p.parent = [] → specifier.head? = some '\\' → Strays p specifier
  /-- The directory begins with a segment of blanks. -/
  | blank : ¬p.IsAbsolute → (Text.trimStart p.text.toList).head? = some '/' → Strays p specifier
  /-- The address has no path, and the specifier begins with another name than its authority. -/
  | bare : p.IsRemote → p.location = p.authority →
      specifier.takeWhile (· != '/') ≠ p.authority → Strays p specifier

variable {p : DocumentPath} {t u v : Text}

@[simp] theorem toList_text_ofText (raw : Text) : (ofText raw).text.toList = normalText raw :=
  String.toList_ofList

/-! ### Directories -/

/-- The directory of a document ends before the last slash of its path. -/
theorem parent_of_last (h : p.text.toList = u ++ '/' :: v) (hv : '/' ∉ v) : p.parent = u := by
  have hpieces : Text.split '/' p.text.toList = Text.split '/' u ++ [v] := by
    rw [h, Text.split_append_cons, Text.split_of_not_mem hv]
  unfold parent
  rw [hpieces]
  split
  · rename_i hnil
    exact absurd hnil (List.append_ne_nil_of_right_ne_nil _ (List.cons_ne_nil _ _))
  · rw [List.dropLast_concat, Text.intercalate_split]

theorem parent_of_slashless (h : '/' ∉ p.text.toList) : p.parent = [] := by
  unfold parent
  rw [Text.split_of_not_mem h]
  rfl

/-- A slash that stands in a text stands there for a last time. -/
theorem exists_last_slash (h : '/' ∈ t) : ∃ u v, t = u ++ '/' :: v ∧ '/' ∉ v := by
  obtain ⟨v, u, hreverse, hv⟩ := List.eq_append_cons_of_mem (List.mem_reverse.mpr h)
  refine ⟨u.reverse, v.reverse, ?_, fun hmem => hv (List.mem_reverse.mp hmem)⟩
  rw [← List.reverse_reverse t, hreverse]
  simp

/-- A directory stands before the last slash. -/
theorem exists_of_parent (h : p.parent ≠ []) :
    ∃ v, p.text.toList = p.parent ++ '/' :: v ∧ '/' ∉ v := by
  by_cases hslash : '/' ∈ p.text.toList
  · obtain ⟨u, v, htext, hv⟩ := exists_last_slash hslash
    rw [parent_of_last htext hv]
    exact ⟨v, htext, hv⟩
  · exact absurd (parent_of_slashless hslash) h

section Join

variable {specifier : String}

theorem join_of_parent_eq_nil (hslash : (Text.trim specifier.toList).head? ≠ some '/')
    (hlocal : isRemote (Text.trim specifier.toList) = false) (h : p.parent = []) :
    p.join specifier = ofText (Text.trim specifier.toList) := by
  simp [join, hslash, hlocal, h]

theorem join_of_parent_ne_nil (hslash : (Text.trim specifier.toList).head? ≠ some '/')
    (hlocal : isRemote (Text.trim specifier.toList) = false) (h : p.parent ≠ []) :
    p.join specifier = ofText (p.parent ++ '/' :: Text.trim specifier.toList) := by
  simp [join, hslash, hlocal, h]

end Join

/-! ### Documents that are not on the web -/

/-- A normal path begins at the root if its text begins with either slash. -/
theorem head?_normalText (h : isRemote (Text.trim t) = false) : (normalText t).head? = some '/' ↔
    (Text.trim t).head? = some '/' ∨ (Text.trim t).head? = some '\\' := by
  have hslashed : (slashed (Text.trim t)).head? = some '/' ↔
      (Text.trim t).head? = some '/' ∨ (Text.trim t).head? = some '\\' := by
    cases Text.trim t with
    | nil => simp [slashed]
    | cons c s => by_cases hc : c = '\\' <;> simp [slashed, hc]
  rw [normalText_of_local h, ← hslashed]
  constructor
  · intro hhead
    by_contra hrelative
    have hnormal : normalize ((slashed (Text.trim t)).head? == some '/') (slashed (Text.trim t)) =
        List.intercalate ['/'] (normalSegments false (slashed (Text.trim t))) := by
      rw [beq_eq_false_iff_ne.mpr hrelative]
      rfl
    rw [hnormal] at hhead
    exact head?_intercalate_normalSegments _ _ hhead
  · intro hhead
    obtain ⟨s, hs⟩ := List.head?_eq_some_iff.mp hhead
    rw [hs]
    simp [normalize]

/-- A specifier that is joined to a path within the workspace leads to such a path. -/
theorem isRemote_parent_append (hp : isRemote p.text.toList = false) (hdirectory : p.parent ≠ [])
    (ht : t.head? ≠ some '/') : isRemote (p.parent ++ '/' :: t) = false := by
  obtain ⟨v, htext, -⟩ := exists_of_parent hdirectory
  by_cases hslash : '/' ∈ p.parent
  · obtain ⟨front, behind, hparent, hfront⟩ := List.eq_append_cons_of_mem hslash
    obtain ⟨absolute, path, hnormal⟩ := exists_normalize hp
    rw [hparent, List.append_assoc, List.cons_append]
    refine not_isRemote_of_head? hfront ?_
    -- The first slash of the directory stands alone in the path of the document.
    have hfirst : normalize absolute path = front ++ '/' :: (behind ++ '/' :: v) := by
      rw [← hnormal, htext, hparent, List.append_assoc, List.cons_append]
    have halone := head?_behind_slash hfirst
    cases behind with
    | nil => exact absurd rfl halone
    | cons c behind => exact halone
  · exact not_isRemote_of_head? hslash ht

/-- Behind a directory the joined path begins as the document's does, without blanks. -/
theorem isAbsolute_ofText_parent (hp : isRemote p.text.toList = false) (hdirectory : p.parent ≠ [])
    (ht : t.head? ≠ some '/') : (ofText (p.parent ++ '/' :: t)).IsAbsolute ↔
      (Text.trimStart p.text.toList).head? = some '/' := by
  obtain ⟨v, htext, -⟩ := exists_of_parent hdirectory
  have hlocal : isRemote (Text.trim (p.parent ++ '/' :: t)) = false := by
    rw [isRemote_trim]
    exact isRemote_parent_append hp hdirectory ht
  have hhead : (Text.trimStart (p.parent ++ '/' :: t)).head? =
      (Text.trimStart p.text.toList).head? := by
    rw [htext, Text.trimStart, Text.trimStart, List.dropWhile_append, List.dropWhile_append]
    split
    · rfl
    · rename_i hink
      obtain ⟨c, s, hs⟩ := List.exists_cons_of_ne_nil fun hnil => hink (List.isEmpty_iff.mpr hnil)
      rw [hs]
      rfl
  have hbackslash : (Text.trimStart p.text.toList).head? ≠ some '\\' := by
    obtain ⟨raw, hraw, hremote⟩ := exists_local hp
    intro h
    have hmem := (List.dropWhile_suffix Text.isBlank).subset (List.mem_of_mem_head? h)
    rw [hraw] at hmem
    exact backslash_not_mem hremote hmem
  rw [IsAbsolute, toList_text_ofText, head?_normalText hlocal, Text.head?_trim, hhead]
  exact or_iff_left hbackslash

/-! ### Documents on the web -/

/-- The path of a document on the web is an address as it stands. -/
theorem exists_isAddress_text (h : p.IsRemote) :
    ∃ scheme authority path, IsAddress p.text.toList scheme authority path := by
  obtain ⟨text, raw, rfl⟩ := p
  rw [IsRemote, String.toList_ofList] at h
  rw [String.toList_ofList]
  cases hremote : isRemote (Text.trim raw) with
  | true =>
    obtain ⟨scheme, authority, path, haddress⟩ := exists_isAddress hremote
    rw [Text.trim_trim] at haddress
    exact ⟨scheme, authority, _, haddress.normalText⟩
  | false =>
    rw [normalText_of_local hremote, isRemote_normalize] at h
    cases h

namespace IsAddress

variable {scheme authority path : Text}

theorem scheme_eq (h : IsAddress p.text.toList scheme authority path) : p.scheme = scheme :=
  h.takeWhile_colon

theorem location_eq (h : IsAddress p.text.toList scheme authority path) :
    p.location = authority ++ path := h.drop_scheme

theorem authority_eq (h : IsAddress p.text.toList scheme authority path) :
    p.authority = authority := by
  rw [DocumentPath.authority, h.location_eq, h.takeWhile_slash]

/-- No blank and no slash stands in front of an address. -/
theorem head?_ne (h : IsAddress t scheme authority path) :
    t.head? ≠ some '/' ∧ (Text.trimStart t).head? ≠ some '/' := by
  obtain ⟨c, s, rfl, hlower⟩ := h.exists_cons_scheme
  have hc : c ≠ '/' := by
    rintro rfl
    exact absurd hlower (by decide)
  rw [h.text_eq, Text.trimStart]
  simp [not_isBlank_of_toLower hlower, hc]

/-- The directory of an address without a path ends within the mark behind the scheme. -/
theorem parent_bare (h : IsAddress p.text.toList scheme authority []) :
    p.parent = scheme ++ [':', '/'] := by
  refine parent_of_last ?_ h.slashless
  rw [h.text_eq]
  simp

/-- The directory of an address with a path is an address as well. -/
theorem exists_parent (h : IsAddress p.text.toList scheme authority path) (hne : path ≠ []) :
    ∃ above, p.parent = scheme ++ "://".toList ++ (authority ++ above) ∧
      (above = [] ∨ above.head? = some '/') := by
  have hhead := h.path_eq.resolve_left hne
  obtain ⟨above, v, rfl, hv⟩ := exists_last_slash (List.mem_of_mem_head? hhead)
  refine ⟨above, parent_of_last ?_ hv, ?_⟩
  · rw [h.text_eq]
    simp
  · cases above with
    | nil => exact .inl rfl
    | cons c above => exact .inr hhead

theorem parent_ne_nil (h : IsAddress p.text.toList scheme authority path) : p.parent ≠ [] := by
  by_cases hpath : path = []
  · subst hpath
    rw [h.parent_bare]
    exact List.append_ne_nil_of_right_ne_nil _ (List.cons_ne_nil _ _)
  · obtain ⟨above, hparent, -⟩ := h.exists_parent hpath
    rw [hparent]
    simp

/-- Nothing is trimmed from what is joined to the directory of an address. -/
theorem trim_parent_append (h : IsAddress p.text.toList scheme authority path)
    (ht : Text.trimEnd t = t) : Text.trim (p.parent ++ '/' :: t) = p.parent ++ '/' :: t := by
  obtain ⟨c, s, hscheme, hlower⟩ := h.exists_cons_scheme
  obtain ⟨v, htext, -⟩ := exists_of_parent h.parent_ne_nil
  have hhead : (p.parent ++ ['/']).head? = some c := by
    have hall : p.text.toList.head? = some c := by
      rw [h.text_eq, hscheme]
      rfl
    rw [htext] at hall
    cases hparent : p.parent with
    | nil => exact absurd hparent h.parent_ne_nil
    | cons d u =>
      rw [hparent] at hall
      exact hall
  have hkeep := Text.trim_append_of_ink hhead (List.getLast?_concat ..)
    (not_isBlank_of_toLower hlower) (by decide) t
  rw [ht, List.append_assoc, List.singleton_append] at hkeep
  exact hkeep

/-- What is joined to an address without a path brings its own authority. -/
theorem join_bare (h : IsAddress p.text.toList scheme authority []) (ht : Text.trimEnd t = t) :
    ∃ behind, IsAddress (ofText (p.parent ++ '/' :: t)).text.toList scheme
      (t.takeWhile (· != '/')) behind := by
  refine ⟨normalize true (t.dropWhile (· != '/')), ?_⟩
  rw [toList_text_ofText]
  refine normalText ?_
  rw [h.trim_parent_append ht, h.parent_bare]
  have haddress := isAddress_of_scheme h.scheme_mem t
  rw [List.append_assoc] at haddress ⊢
  exact haddress

/-- What is joined to an address with a path keeps its authority. -/
theorem join_path (h : IsAddress p.text.toList scheme authority path) (hne : path ≠ [])
    (ht : Text.trimEnd t = t) :
    ∃ behind, IsAddress (ofText (p.parent ++ '/' :: t)).text.toList scheme authority behind := by
  obtain ⟨above, hparent, habove⟩ := h.exists_parent hne
  refine ⟨normalize true (above ++ '/' :: t), ?_⟩
  rw [toList_text_ofText]
  refine normalText ?_
  rw [h.trim_parent_append ht]
  constructor
  · rw [hparent]
    simp
  · exact h.scheme_mem
  · exact h.slashless
  · cases above with
    | nil => exact .inr rfl
    | cons c above => exact .inr (habove.resolve_left (List.cons_ne_nil _ _))

theorem isRemote_path (h : IsAddress p.text.toList scheme authority path) : p.IsRemote :=
  h.isRemote

/-- Addresses of one scheme stand beside each other if they have one authority. -/
theorem beside_iff {q : DocumentPath} {authority' path' : Text}
    (hp : IsAddress p.text.toList scheme authority path)
    (hq : IsAddress q.text.toList scheme authority' path') : Beside p q ↔ authority' = authority := by
  constructor
  · intro h
    rw [← hp.authority_eq, ← hq.authority_eq]
    exact (h.address hp.isRemote_path).2
  · rintro rfl
    exact ⟨iff_of_false hq.head?_ne.1 hp.head?_ne.1, iff_of_true hq.isRemote_path hp.isRemote_path,
      fun _ => ⟨hq.scheme_eq.trans hp.scheme_eq.symm, hq.authority_eq.trans hp.authority_eq.symm⟩⟩

end IsAddress

/-! ### Relative specifiers -/

/-- Documents that are not on the web stand beside each other if both or neither stand at the root. -/
theorem beside_iff_of_local {q : DocumentPath} (hp : ¬p.IsRemote) (hq : ¬q.IsRemote) :
    Beside p q ↔ (q.IsAbsolute ↔ p.IsAbsolute) :=
  ⟨Beside.absolute, fun h => ⟨h, iff_of_false hq hp, fun hremote => absurd hremote hp⟩⟩

theorem not_isRemote_ofText {raw : Text} (h : isRemote raw = false) : ¬(ofText raw).IsRemote := by
  rw [← isRemote_trim] at h
  rw [IsRemote, toList_text_ofText, normalText_of_local h, isRemote_normalize]
  exact Bool.false_ne_true

/-- A path that begins with a slash behind blanks has a directory, unless it begins at the root. -/
theorem parent_ne_nil_of_blank (habsolute : ¬p.IsAbsolute)
    (h : (Text.trimStart p.text.toList).head? = some '/') : p.parent ≠ [] := by
  intro hparent
  have hslash : '/' ∈ p.text.toList :=
    (List.dropWhile_suffix Text.isBlank).subset (List.mem_of_mem_head? h)
  obtain ⟨u, v, htext, hv⟩ := exists_last_slash hslash
  rw [parent_of_last htext hv] at hparent
  rw [IsAbsolute, htext, hparent] at habsolute
  exact habsolute rfl

/-- On the web those stray that are put behind an address without a path, and are not its authority. -/
theorem strays_iff_of_remote (h : p.IsRemote) : Strays p t ↔
    p.location = p.authority ∧ t.takeWhile (· != '/') ≠ p.authority := by
  obtain ⟨scheme, authority, path, haddress⟩ := exists_isAddress_text h
  constructor
  · rintro (⟨-, hparent, -⟩ | ⟨-, hparent, -⟩ | ⟨-, hblank⟩ | ⟨-, hbare, hother⟩)
    · exact absurd hparent haddress.parent_ne_nil
    · exact absurd hparent haddress.parent_ne_nil
    · exact absurd hblank haddress.head?_ne.2
    · exact ⟨hbare, hother⟩
  · rintro ⟨hbare, hother⟩
    exact .bare h hbare hother

/-- Without a directory those stray that begin with a backslash, or at the root those that do not. -/
theorem strays_iff_of_parent_eq_nil (hremote : ¬p.IsRemote) (hdirectory : p.parent = []) :
    Strays p t ↔ ¬(t.head? = some '\\' ↔ p.IsAbsolute) := by
  constructor
  · rintro (⟨hroot, -, hback⟩ | ⟨hroot, -, hback⟩ | ⟨hroot, hblank⟩ | ⟨hweb, -, -⟩) hsame
    · exact hback (hsame.mpr hroot)
    · exact hroot (hsame.mp hback)
    · exact parent_ne_nil_of_blank hroot hblank hdirectory
    · exact hremote hweb
  · intro hother
    by_cases hroot : p.IsAbsolute
    · exact .fromRoot hroot hdirectory fun hback => hother (iff_of_true hback hroot)
    · refine .toRoot hroot hdirectory ?_
      by_contra hback
      exact hother (iff_of_false hback hroot)

/-- In a directory it is the path of the document that strays, and each specifier with it. -/
theorem strays_iff_of_parent_ne_nil (hremote : ¬p.IsRemote) (hdirectory : p.parent ≠ []) :
    Strays p t ↔ ¬p.IsAbsolute ∧ (Text.trimStart p.text.toList).head? = some '/' := by
  constructor
  · rintro (⟨-, hparent, -⟩ | ⟨-, hparent, -⟩ | ⟨hroot, hblank⟩ | ⟨hweb, -, -⟩)
    · exact absurd hparent hdirectory
    · exact absurd hparent hdirectory
    · exact ⟨hroot, hblank⟩
    · exact absurd hweb hremote
  · rintro ⟨hroot, hblank⟩
    exact .blank hroot hblank

section

variable {specifier : String}

/-- On the web a relative specifier leads away from an address without a path alone, which takes the
specifier for an authority. -/
theorem beside_join_of_remote (hremote : p.IsRemote)
    (hslash : (Text.trim specifier.toList).head? ≠ some '/')
    (hlocal : isRemote (Text.trim specifier.toList) = false) :
    Beside p (p.join specifier) ↔ ¬Strays p (Text.trim specifier.toList) := by
  obtain ⟨scheme, authority, path, haddress⟩ := exists_isAddress_text hremote
  have ht := Text.trimEnd_trim specifier.toList
  rw [join_of_parent_ne_nil hslash hlocal haddress.parent_ne_nil, strays_iff_of_remote hremote,
    haddress.location_eq, haddress.authority_eq, List.append_right_eq_self]
  by_cases hpath : path = []
  · subst hpath
    obtain ⟨behind, hjoined⟩ := haddress.join_bare ht
    rw [haddress.beside_iff hjoined]
    simp
  · obtain ⟨behind, hjoined⟩ := haddress.join_path hpath ht
    exact iff_of_true ((haddress.beside_iff hjoined).mpr rfl) fun h => hpath h.1

/-- In the workspace a relative specifier leads away from the root, to the root, or past blanks. -/
theorem beside_join_of_local (hremote : ¬p.IsRemote)
    (hslash : (Text.trim specifier.toList).head? ≠ some '/')
    (hlocal : isRemote (Text.trim specifier.toList) = false) :
    Beside p (p.join specifier) ↔ ¬Strays p (Text.trim specifier.toList) := by
  have hp : isRemote p.text.toList = false := by simpa [IsRemote] using hremote
  by_cases hdirectory : p.parent = []
  · have habsolute : (ofText (Text.trim specifier.toList)).IsAbsolute ↔
        (Text.trim specifier.toList).head? = some '\\' := by
      rw [IsAbsolute, toList_text_ofText, head?_normalText (by rw [isRemote_trim]; exact hlocal),
        Text.trim_trim]
      exact or_iff_right hslash
    rw [join_of_parent_eq_nil hslash hlocal hdirectory,
      beside_iff_of_local hremote (not_isRemote_ofText hlocal), habsolute,
      strays_iff_of_parent_eq_nil hremote hdirectory, not_not]
  · rw [join_of_parent_ne_nil hslash hlocal hdirectory,
      beside_iff_of_local hremote (not_isRemote_ofText (isRemote_parent_append hp hdirectory hslash)),
      isAbsolute_ofText_parent hp hdirectory hslash,
      strays_iff_of_parent_ne_nil hremote hdirectory]
    have hroot (h : p.IsAbsolute) : (Text.trimStart p.text.toList).head? = some '/' := by
      obtain ⟨s, hs⟩ := List.head?_eq_some_iff.mp h
      rw [hs]
      rfl
    constructor
    · rintro h ⟨habsolute, hblank⟩
      exact habsolute (h.mp hblank)
    · intro h
      refine ⟨fun hblank => ?_, hroot⟩
      by_contra habsolute
      exact h ⟨habsolute, hblank⟩

/-- A relative specifier leads to a document beside the one that it is written in, unless it is one of
those that stray; and those do not. -/
theorem beside_join_iff (p : DocumentPath) (specifier : String)
    (hslash : (Text.trim specifier.toList).head? ≠ some '/')
    (hlocal : isRemote (Text.trim specifier.toList) = false) :
    Beside p (p.join specifier) ↔ ¬Strays p (Text.trim specifier.toList) := by
  by_cases hremote : p.IsRemote
  · exact beside_join_of_remote hremote hslash hlocal
  · exact beside_join_of_local hremote hslash hlocal

theorem beside_join_iff_shared :
    let p := ofString "https://example.com/catalog/orders.ec"
    let specifier := "../shared/types.ec"
    (Text.trim specifier.toList).head? ≠ some '/' ∧ isRemote (Text.trim specifier.toList) = false ∧
      (Beside p (p.join specifier) ↔ ¬Strays p (Text.trim specifier.toList)) :=
  ⟨by decide, by decide, beside_join_iff _ _ (by decide) (by decide)⟩

/-- A document directly below the root has no directory that a specifier could be put behind. -/
theorem not_beside_join : ¬∀ (p : DocumentPath) (specifier : String),
    (Text.trim specifier.toList).head? ≠ some '/' →
    isRemote (Text.trim specifier.toList) = false → Beside p (p.join specifier) := by
  intro h
  have hroot := (h (ofString "/a.ec") "b.ec" (by decide) (by decide)).absolute
  exact absurd (hroot.mpr rfl) (by decide)

end

end DocumentPath

end EventCatalog
