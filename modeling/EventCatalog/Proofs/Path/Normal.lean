import EventCatalog.Proofs.Path.Address

/-! # Normal forms of paths

The segments of a normal path that is not a web address lead upwards first and then only down
(`Reduced`), and those of an absolute path do not lead upwards at all.  One more segment keeps this
(`Reduced.addSegment`), so normalization ends with it whatever the path was (`reduced_normalSegments`).
What is not a web address is the normal form of a path within the workspace (`exists_normalize`). -/

namespace EventCatalog

namespace DocumentPath

/-! ### Segments -/

/-- The segment that leads upwards. -/
abbrev up : Text := ['.', '.']

/-- A segment that leads down by one name. -/
structure IsStep (segment : Text) : Prop where
  ne_nil : segment ≠ []
  ne_point : segment ≠ ['.']
  ne_up : segment ≠ up
  slashless : '/' ∉ segment

/-- Reversed segments: steps down on top of segments that lead upwards, of which an absolute path has
none. -/
def Reduced (absolute : Bool) (before : List Text) : Prop :=
  ∃ steps ups, before = steps ++ List.replicate ups up ∧ (∀ s ∈ steps, IsStep s) ∧
    (absolute = true → ups = 0)

variable {absolute : Bool}

theorem reduced_nil : Reduced absolute [] := ⟨[], 0, rfl, List.forall_mem_nil _, fun _ => rfl⟩

/-- A segment that leads upwards takes a step back, or goes further up from the start of a relative
path. -/
theorem Reduced.addUp {before : List Text} (h : Reduced absolute before) :
    Reduced absolute (addSegment absolute before up) := by
  obtain ⟨steps, ups, rfl, hsteps, hups⟩ := h
  have hadd : ∀ last rest, addSegment absolute (last :: rest) up =
      if last ≠ up then rest else if absolute then last :: rest else up :: last :: rest :=
    fun _ _ => rfl
  cases steps with
  | cons s steps =>
    have hs : s ≠ up := (hsteps s List.mem_cons_self).ne_up
    rw [List.cons_append, hadd, if_pos hs]
    exact ⟨steps, ups, rfl, fun s' h => hsteps s' (List.mem_cons_of_mem _ h), hups⟩
  | nil =>
    cases habsolute : absolute with
    | true =>
      obtain rfl := hups habsolute
      exact reduced_nil
    | false =>
      subst habsolute
      refine ⟨[], ups + 1, ?_, List.forall_mem_nil _, fun h => Bool.noConfusion h⟩
      cases ups with
      | zero => rfl
      | succ ups => simp [List.replicate_succ, hadd]

/-- One more segment keeps a path reduced. -/
theorem Reduced.addSegment {before : List Text} (h : Reduced absolute before) {segment : Text}
    (hslash : '/' ∉ segment) : Reduced absolute (addSegment absolute before segment) := by
  by_cases hup : segment = up
  · rw [hup]
    exact h.addUp
  · unfold DocumentPath.addSegment
    split
    · exact h
    · rename_i hname
      rw [not_or] at hname
      have hstep : IsStep segment := ⟨hname.1, hname.2, hup, hslash⟩
      obtain ⟨steps, ups, rfl, hsteps, hups⟩ := h
      exact ⟨segment :: steps, ups, rfl, List.forall_mem_cons.mpr ⟨hstep, hsteps⟩, hups⟩

/-- Normalization leaves segments that lead upwards first and then only down. -/
theorem reduced_normalSegments (absolute : Bool) (path : Text) :
    ∃ ups steps, normalSegments absolute path = List.replicate ups up ++ steps ∧
      (∀ s ∈ steps, IsStep s) ∧ (absolute = true → ups = 0) := by
  have hfold : ∀ (segments before : List Text), (∀ s ∈ segments, '/' ∉ s) →
      Reduced absolute before → Reduced absolute (segments.foldl (addSegment absolute) before) := by
    intro segments
    induction segments with
    | nil => exact fun before _ h => h
    | cons s segments ih =>
      intro before hslash h
      rw [List.forall_mem_cons] at hslash
      exact ih _ hslash.2 (h.addSegment hslash.1)
  obtain ⟨steps, ups, hsegments, hsteps, hups⟩ :=
    hfold _ _ (fun s hs => Text.not_mem_of_mem_split hs) (@reduced_nil absolute)
  refine ⟨ups, steps.reverse, ?_, fun s hs => hsteps s (List.mem_reverse.mp hs), hups⟩
  rw [normalSegments, hsegments, List.reverse_append, List.reverse_replicate]

/-! ### Texts of paths -/

theorem slashless_of_mem_normalSegments {path segment : Text}
    (h : segment ∈ normalSegments absolute path) : segment ≠ [] ∧ '/' ∉ segment := by
  obtain ⟨ups, steps, hsegments, hsteps, -⟩ := reduced_normalSegments absolute path
  rw [hsegments, List.mem_append] at h
  obtain h | h := h
  · rw [List.eq_of_mem_replicate h]
    exact ⟨nofun, by decide⟩
  · exact ⟨(hsteps segment h).ne_nil, (hsteps segment h).slashless⟩

/-- The surviving segments are those that their text is cut into. -/
theorem split_intercalate_normalSegments {path : Text} (hne : normalSegments absolute path ≠ []) :
    Text.split '/' (List.intercalate ['/'] (normalSegments absolute path)) =
      normalSegments absolute path :=
  Text.split_intercalate hne fun _ hs => (slashless_of_mem_normalSegments hs).2

theorem head?_intercalate_normalSegments (absolute : Bool) (path : Text) :
    (List.intercalate ['/'] (normalSegments absolute path)).head? ≠ some '/' := by
  cases hsegments : normalSegments absolute path with
  | nil => nofun
  | cons s segments =>
    have hs : s ∈ normalSegments absolute path := hsegments ▸ List.mem_cons_self
    obtain ⟨hne, hslash⟩ := slashless_of_mem_normalSegments hs
    obtain ⟨c, s, rfl⟩ := List.exists_cons_of_ne_nil hne
    have hc : c ≠ '/' := fun e => hslash (e ▸ List.mem_cons_self)
    cases segments with
    | nil => simpa using hc
    | cons _ _ => simpa [List.intercalate_cons_cons] using hc

/-- The slash in front of an absolute path is the only one there. -/
theorem dropWhile_normalize (absolute : Bool) (path : Text) :
    (normalize absolute path).dropWhile (· == '/') =
      List.intercalate ['/'] (normalSegments absolute path) := by
  have hjoined : (List.intercalate ['/'] (normalSegments absolute path)).dropWhile (· == '/') =
      List.intercalate ['/'] (normalSegments absolute path) := by
    have hhead := head?_intercalate_normalSegments absolute path
    cases hcut : List.intercalate ['/'] (normalSegments absolute path) with
    | nil => rfl
    | cons c joined =>
      rw [hcut] at hhead
      exact List.dropWhile_cons_of_neg (by simpa using hhead)
  simp only [normalize]
  split
  · rw [List.dropWhile_cons_of_pos (by decide), hjoined]
  · exact hjoined

/-- A normal path begins with a segment that leads upwards if it does so behind its leading slash,
which is to say that it is relative. -/
theorem head?_split_normalize (absolute : Bool) (path : Text) :
    (Text.split '/' (normalize absolute path)).head? = some up ↔
      (Text.split '/' ((normalize absolute path).dropWhile (· == '/'))).head? = some up := by
  rw [dropWhile_normalize]
  simp only [normalize]
  split
  · rename_i habsolute
    obtain ⟨ups, steps, hsegments, hsteps, hups⟩ := reduced_normalSegments absolute path
    have hsplit : (Text.split '/'
        (List.intercalate ['/'] (normalSegments absolute path))).head? ≠ some up := by
      by_cases hne : normalSegments absolute path = []
      · rw [hne]
        decide
      · rw [split_intercalate_normalSegments hne, hsegments,
          hups (Bool.and_eq_true_iff.mp habsolute).1]
        intro hhead
        exact (hsteps up (List.mem_of_mem_head? hhead)).ne_up rfl
    refine iff_of_false ?_ hsplit
    simp [Text.split, up]
  · exact Iff.rfl

/-! ### Paths within the workspace -/

/-- A relative path that leads down only: it has no slash in front, and no segment of it is empty, a
point or two points; the empty path leads nowhere. -/
structure Descends (path : Text) : Prop where
  relative : path.head? ≠ some '/'
  steps : path ≠ [] →
    ∀ segment ∈ Text.split '/' path, segment ≠ [] ∧ segment ≠ ['.'] ∧ segment ≠ ['.', '.']

/-- Without the slash in front, a normal path leads down unless it begins with a segment that leads
upwards. -/
theorem descends_of_normalize {absolute : Bool} {path : Text}
    (h : (Text.split '/' ((normalize absolute path).dropWhile (· == '/'))).head? ≠ some up) :
    Descends ((normalize absolute path).dropWhile (· == '/')) := by
  rw [dropWhile_normalize] at h ⊢
  refine ⟨head?_intercalate_normalSegments absolute path, fun hpath segment hsegment => ?_⟩
  have hne : normalSegments absolute path ≠ [] := fun e => hpath (by rw [e]; rfl)
  obtain ⟨ups, steps, hsegments, hsteps, -⟩ := reduced_normalSegments absolute path
  rw [split_intercalate_normalSegments hne] at h hsegment
  rw [hsegments] at h hsegment
  cases ups with
  | succ ups => exact absurd rfl h
  | zero =>
    have hstep := hsteps segment hsegment
    exact ⟨hstep.ne_nil, hstep.ne_point, hstep.ne_up⟩

/-- The text with slashes for backslashes. -/
def slashed (t : Text) : Text := t.map fun c => if c = '\\' then '/' else c

theorem normalText_of_local {raw : Text} (h : isRemote (Text.trim raw) = false) :
    normalText raw = normalize ((slashed (Text.trim raw)).head? == some '/')
      (slashed (Text.trim raw)) := by
  rw [normalText, if_neg (by simp [h])]
  rfl

/-- A path that is no web address is the normal form of a text that is none. -/
theorem exists_local {p : DocumentPath} (h : isRemote p.text.toList = false) :
    ∃ raw, p.text.toList = normalText raw ∧ isRemote (Text.trim raw) = false := by
  obtain ⟨text, raw, rfl⟩ := p
  rw [String.toList_ofList] at h ⊢
  refine ⟨raw, rfl, Bool.eq_false_iff.mpr fun hremote => ?_⟩
  rw [isRemote_normalText hremote] at h
  cases h

/-- A path that is no web address is the normal form of a path within the workspace. -/
theorem exists_normalize {p : DocumentPath} (h : isRemote p.text.toList = false) :
    ∃ absolute path, p.text.toList = normalize absolute path := by
  obtain ⟨raw, htext, hlocal⟩ := exists_local h
  exact ⟨_, _, htext.trans (normalText_of_local hlocal)⟩

end DocumentPath

end EventCatalog
