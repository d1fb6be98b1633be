import EventCatalog.Proofs.Path.Normal

/-! # Normal forms are stable

Normalization leaves normal segments as they are (`normalSegments_intercalate`), so a normal path
within the workspace and the path behind an authority are not changed once more.  A text is trimmed
before its segments are looked at, however, and a segment that is left out may have kept blanks away
from an end: `./ a.ec` is the path ` a.ec` of another document than `a.ec`.  A path is its own normal
form exactly if there are no blanks at its ends (`ofString_text_iff`); that it cannot be otherwise is
a matter of length, since normalization only leaves characters out (`length_normalText_le`). -/

namespace EventCatalog

namespace DocumentPath

variable {absolute : Bool} {path : Text}

/-! ### Segments that are normal already -/

theorem addSegment_of_isStep {s : Text} (h : IsStep s) (before : List Text) :
    addSegment absolute before s = s :: before := by
  unfold addSegment
  rw [if_neg (not_or.mpr ⟨h.ne_nil, h.ne_point⟩), if_neg h.ne_up]

/-- Steps down are put on what stands before them. -/
theorem foldl_steps {steps : List Text} (h : ∀ s ∈ steps, IsStep s) (before : List Text) :
    steps.foldl (addSegment absolute) before = steps.reverse ++ before := by
  induction steps generalizing before with
  | nil => rfl
  | cons s steps ih =>
    rw [List.forall_mem_cons] at h
    rw [List.foldl_cons, addSegment_of_isStep h.1, ih h.2, List.reverse_cons, List.append_assoc,
      List.singleton_append]

/-- Segments that lead upwards gather at the start of a relative path. -/
theorem foldl_ups (n m : Nat) :
    (List.replicate n up).foldl (addSegment false) (List.replicate m up) =
      List.replicate (m + n) up := by
  induction n generalizing m with
  | zero => rfl
  | succ n ih =>
    have hadd : addSegment false (List.replicate m up) up = List.replicate (m + 1) up := by
      cases m with
      | zero => rfl
      | succ m => rfl
    rw [List.replicate_succ, List.foldl_cons, hadd, ih, Nat.add_assoc, Nat.add_comm 1]

/-- Normalization leaves normal segments as they are. -/
theorem normalSegments_intercalate {ups : Nat} {steps : List Text} (hsteps : ∀ s ∈ steps, IsStep s)
    (hups : absolute = true → ups = 0) :
    normalSegments absolute (List.intercalate ['/'] (List.replicate ups up ++ steps)) =
      List.replicate ups up ++ steps := by
  have hfold : (List.replicate ups up ++ steps).foldl (addSegment absolute) [] =
      (List.replicate ups up ++ steps).reverse := by
    have hstart : (List.replicate ups up).foldl (addSegment absolute) [] =
        List.replicate ups up := by
      cases absolute with
      | true =>
        rw [hups rfl]
        rfl
      | false => exact (foldl_ups ups 0).trans (by rw [Nat.zero_add])
    rw [List.foldl_append, hstart, foldl_steps hsteps, List.reverse_append, List.reverse_replicate]
  by_cases hnil : List.replicate ups up ++ steps = []
  · rw [hnil]
    rfl
  · have hslash : ∀ s ∈ List.replicate ups up ++ steps, '/' ∉ s := by
      intro s hs
      obtain hs | hs := List.mem_append.mp hs
      · rw [List.eq_of_mem_replicate hs]
        decide
      · exact (hsteps s hs).slashless
    rw [normalSegments, Text.split_intercalate hnil hslash, hfold, List.reverse_reverse]

theorem normalSegments_slash (absolute : Bool) (path : Text) :
    normalSegments absolute ('/' :: path) = normalSegments absolute path := rfl

/-- A path that is normalized is normal, with the slash that it may begin with or without one. -/
theorem normalize_normalize (absolute : Bool) (path : Text) :
    normalize ((normalize absolute path).head? == some '/') (normalize absolute path) =
      normalize absolute path := by
  obtain ⟨ups, steps, hsegments, hsteps, hups⟩ := reduced_normalSegments absolute path
  have hhead := head?_intercalate_normalSegments absolute path
  have hagain {a : Bool} (ha : a = true → ups = 0) :
      normalSegments a (List.intercalate ['/'] (normalSegments absolute path)) =
        normalSegments absolute path := by
    rw [hsegments]
    exact normalSegments_intercalate hsteps ha
  by_cases hslash : (absolute && !((List.intercalate ['/'] (normalSegments absolute path)).isEmpty &&
      path.isEmpty)) = true
  · have hnormal : normalize absolute path =
        '/' :: List.intercalate ['/'] (normalSegments absolute path) := if_pos hslash
    rw [Bool.and_eq_true] at hslash
    rw [hnormal, List.head?_cons, beq_self_eq_true, normalize, normalSegments_slash,
      hagain fun _ => hups hslash.1]
    simp
  · have hnormal : normalize absolute path =
        List.intercalate ['/'] (normalSegments absolute path) := if_neg hslash
    rw [hnormal, beq_eq_false_iff_ne.mpr hhead, normalize, hagain Bool.noConfusion]
    rfl

/-! ### Normalization only leaves characters out -/

theorem addSegment_sublist (absolute : Bool) (before : List Text) (s : Text) :
    (addSegment absolute before s).Sublist (s :: before) := by
  unfold addSegment
  split
  · exact List.sublist_cons_self _ _
  split
  · split
    · split
      · exact List.nil_sublist _
      · exact List.Sublist.refl _
    · rename_i last rest
      split
      · exact (List.sublist_cons_self _ _).trans (List.sublist_cons_self _ _)
      split
      · exact List.sublist_cons_self _ _
      · exact List.Sublist.refl _
  · exact List.Sublist.refl _

/-- The segments that survive stand in the path, in the order in which they stand there. -/
theorem normalSegments_sublist (absolute : Bool) (path : Text) :
    (normalSegments absolute path).Sublist (Text.split '/' path) := by
  have hfold : ∀ (segments before : List Text), (segments.foldl (addSegment absolute) before).Sublist
      (segments.reverse ++ before) := by
    intro segments
    induction segments with
    | nil => exact fun before => List.Sublist.refl _
    | cons s segments ih =>
      intro before
      rw [List.foldl_cons, List.reverse_cons, List.append_assoc, List.singleton_append]
      exact (ih _).trans ((addSegment_sublist absolute before s).append_left _)
  have hall := hfold (Text.split '/' path) []
  rw [List.append_nil] at hall
  have hforth := hall.reverse
  rw [List.reverse_reverse] at hforth
  exact hforth

theorem intercalate_normalSegments_sublist (absolute : Bool) (path : Text) :
    (List.intercalate ['/'] (normalSegments absolute path)).Sublist path := by
  have hsub : (List.intercalate ['/'] (normalSegments absolute path)).Sublist
      (List.intercalate ['/'] (Text.split '/' path)) :=
    Text.intercalate_sublist (normalSegments_sublist absolute path)
  rwa [Text.intercalate_split] at hsub

/-- The slash in front of an absolute path stands there already. -/
theorem normalize_sublist (h : absolute = true → path ≠ [] → path.head? = some '/') :
    (normalize absolute path).Sublist path := by
  have hjoined := intercalate_normalSegments_sublist absolute path
  simp only [normalize]
  split
  · rename_i hslash
    rw [Bool.and_eq_true, Bool.not_eq_true'] at hslash
    obtain ⟨rfl, hne⟩ := hslash
    have hpath : path ≠ [] := by
      rintro rfl
      rw [List.sublist_nil.mp hjoined] at hne
      cases hne
    obtain ⟨path, rfl⟩ := List.head?_eq_some_iff.mp (h rfl hpath)
    rw [normalSegments_slash]
    exact (intercalate_normalSegments_sublist true path).cons_cons '/'
  · exact hjoined

/-- A web address and a path within the workspace lose characters alike. -/
theorem length_normalText_le (raw : Text) : (normalText raw).length ≤ (Text.trim raw).length := by
  cases hremote : isRemote (Text.trim raw) with
  | false =>
    have hsub : (normalText raw).Sublist (slashed (Text.trim raw)) := by
      rw [normalText_of_local hremote]
      exact normalize_sublist fun h _ => by simpa using h
    exact hsub.length_le.trans (List.length_map _).le
  | true =>
    obtain ⟨scheme, authority, path, haddress⟩ := exists_isAddress hremote
    rw [Text.trim_trim] at haddress
    have hsub : (normalize true path).Sublist path :=
      normalize_sublist fun _ hne => haddress.path_eq.resolve_left hne
    rw [haddress.normalText.text_eq, haddress.text_eq]
    exact ((hsub.append_left _).append_left _).length_le

/-- A path within the workspace has no backslashes. -/
theorem backslash_not_mem {raw : Text} (h : isRemote (Text.trim raw) = false) :
    '\\' ∉ normalText raw := by
  intro hmem
  rw [normalText_of_local h] at hmem
  have hpath := (normalize_sublist fun h _ => by simpa using h).mem hmem
  obtain ⟨c, -, hc⟩ := List.mem_map.mp hpath
  split at hc
  · cases hc
  · rename_i hne
    exact hne hc

theorem slashed_of_not_mem {t : Text} (h : '\\' ∉ t) : slashed t = t := by
  have hself : ∀ c ∈ t, (if c = '\\' then '/' else c) = c := fun c hc =>
    if_neg (ne_of_mem_of_not_mem hc h)
  exact (List.map_congr_left hself).trans (List.map_id t)

/-! ### Paths that are no web addresses -/

/-- No two slashes stand next to each other in a path within the workspace. -/
theorem head?_behind_slash {front behind : Text}
    (h : normalize absolute path = front ++ '/' :: behind) : behind.head? ≠ some '/' := by
  have hjoined : ∀ front, List.intercalate ['/'] (normalSegments absolute path) =
      front ++ '/' :: behind → behind.head? ≠ some '/' := by
    intro front hfront hslash
    obtain ⟨behind, rfl⟩ := List.head?_eq_some_iff.mp hslash
    have hne : normalSegments absolute path ≠ [] := by
      intro hnil
      rw [hnil] at hfront
      exact absurd hfront.symm (by simp)
    -- Between the two slashes there would be an empty segment.
    have hpieces := split_intercalate_normalSegments hne
    rw [hfront, Text.split_append_cons] at hpieces
    have hempty : [] ∈ normalSegments absolute path := by
      rw [← hpieces]
      exact List.mem_append_right _ List.mem_cons_self
    exact (slashless_of_mem_normalSegments hempty).1 rfl
  simp only [normalize] at h
  split at h
  · cases front with
    | nil =>
      rw [List.nil_append, List.cons.injEq] at h
      rw [← h.2]
      exact head?_intercalate_normalSegments absolute path
    | cons c front =>
      rw [List.cons_append, List.cons.injEq] at h
      exact hjoined front h.2
  · exact hjoined front h

/-- A path within the workspace is no web address. -/
theorem isRemote_normalize (absolute : Bool) (path : Text) :
    isRemote (normalize absolute path) = false := by
  by_cases hslash : '/' ∈ normalize absolute path
  · obtain ⟨front, behind, htext, hfront⟩ := List.eq_append_cons_of_mem hslash
    rw [htext]
    exact not_isRemote_of_head? hfront (head?_behind_slash htext)
  · exact not_isRemote_of_slashless hslash

/-! ### Paths as their own normal forms -/

theorem normalText_normalText {raw : Text}
    (h : Text.trim (normalText raw) = normalText raw) :
    normalText (normalText raw) = normalText raw := by
  cases hremote : isRemote (Text.trim raw) with
  | false =>
    have hlocal : isRemote (Text.trim (normalText raw)) = false := by
      rw [h, normalText_of_local hremote]
      exact isRemote_normalize _ _
    rw [normalText_of_local hlocal, h, slashed_of_not_mem (backslash_not_mem hremote),
      normalText_of_local hremote]
    exact normalize_normalize _ _
  | true =>
    obtain ⟨scheme, authority, path, haddress⟩ := exists_isAddress hremote
    rw [Text.trim_trim] at haddress
    have hnormal := haddress.normalText
    have hpath : normalize true (normalize true path) = normalize true path := by
      obtain hnil | hslash := hnormal.path_eq
      · rw [hnil]
        rfl
      · have hagain := normalize_normalize true path
        rwa [hslash, beq_self_eq_true] at hagain
    have htrimmed := hnormal
    rw [← h] at htrimmed
    rw [htrimmed.normalText.text_eq, hpath, ← hnormal.text_eq]

/-- The normal form of a path is its own normal form if there are no blanks at its ends, and not
otherwise. -/
theorem ofString_text_iff (raw : String) : ofString (ofString raw).text = ofString raw ↔
    Text.trimString (ofString raw).text = (ofString raw).text := by
  have htext : (ofString raw).text = String.ofList (normalText raw.toList) := rfl
  have hagain : (ofString (ofString raw).text).text =
      String.ofList (normalText (normalText raw.toList)) := by
    rw [htext, ofString, String.toList_ofList]
    rfl
  constructor
  · intro hsame
    have hfixed : normalText (normalText raw.toList) = normalText raw.toList := by
      refine String.ofList_injective ?_
      rw [← hagain, ← htext, hsame]
    have hlength := length_normalText_le (normalText raw.toList)
    rw [hfixed] at hlength
    rw [Text.trimString, htext, String.toList_ofList, Text.trim_eq_self_of_length hlength]
  · intro htrim
    rw [Text.trimString, htext, String.toList_ofList] at htrim
    have hfixed := normalText_normalText (String.ofList_injective htrim)
    rw [ofString, htext, String.toList_ofList, ofText, ofString, ofText]
    simp only [hfixed]

/-- Normalization is not done once for all: leaving out a point can lay a blank bare. -/
theorem not_ofString_text : ¬∀ raw : String, ofString (ofString raw).text = ofString raw := by
  intro h
  have hpoint := h "./ a.ec"
  exact absurd hpoint (by decide)

end DocumentPath

end EventCatalog
