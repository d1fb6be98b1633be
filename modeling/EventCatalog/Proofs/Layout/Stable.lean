import EventCatalog.Layout
import EventCatalog.Proofs.Text.Split
import EventCatalog.Proofs.Text.Trimming

/-! # A layout is stable

Laying out a text that is laid out changes nothing (`format_format`).  A line is one step:
`State.emit` is what is written for it and `State.next` the state behind it.  Reading back what a
step wrote leads to the same state, but for a blank line that is still due
(`layLines_emit`), so the lines of a layout are laid out as they stand (`layLines_layLines`), and
they are what the layout is cut into again (`lines_unlines`). -/

namespace EventCatalog

namespace Text

/-! ### Lines of tidy texts -/

/-- The text holds no line feed, and no blank ends it. -/
structure Tidy (t : Text) : Prop where
  feedless : '\n' ∉ t
  inked : ∀ c, t.getLast? = some c → isBlank c = false

theorem tidy_nil : Tidy [] := ⟨by simp, by simp⟩

theorem tidy_trimEnd {t : Text} (h : '\n' ∉ t) : Tidy (trimEnd t) :=
  ⟨fun hc => h (mem_of_mem_trimEnd hc), fun _ hc => not_blank_of_getLast?_trimEnd hc⟩

/-- What stands before an inked end does not matter. -/
theorem Tidy.append {s t : Text} (hs : '\n' ∉ s) (ht : Tidy t) (hne : t ≠ []) : Tidy (s ++ t) := by
  constructor
  · simp [hs, ht.feedless]
  · intro c hc
    rw [List.getLast?_append_of_ne_nil s hne] at hc
    exact ht.inked c hc

theorem dropReturn_of_tidy {t : Text} (h : Tidy t) : dropReturn t = t := by
  unfold dropReturn
  split
  · rename_i hreturn
    have hblank := h.inked _ hreturn
    simp [isBlank] at hblank
  · rfl

theorem feedless_of_mem_lines {t line : Text} (h : line ∈ lines t) : '\n' ∉ line := by
  have hreturn : ∀ piece : Text, '\n' ∉ piece → '\n' ∉ dropReturn piece := by
    intro piece hp
    unfold dropReturn
    split
    · exact fun hc => hp ((List.dropLast_sublist _).subset hc)
    · exact hp
  have hmap : ∀ line ∈ (split '\n' t).dropLast.map dropReturn, '\n' ∉ line := by
    intro line hline
    obtain ⟨piece, hpiece, rfl⟩ := List.mem_map.mp hline
    exact hreturn piece (not_mem_of_mem_split ((List.dropLast_sublist _).subset hpiece))
  simp only [lines] at h
  split at h
  · exact hmap line h
  · rename_i last _ hlast
    rcases List.mem_append.mp h with h | h
    · exact hmap line h
    · obtain rfl := List.mem_singleton.mp h
      exact not_mem_of_mem_split (List.mem_of_getLast? hlast)
  · cases h

theorem split_flatMap_feed {ls : List Text} (h : ∀ l ∈ ls, '\n' ∉ l) :
    split '\n' (ls.flatMap (· ++ ['\n'])) = ls ++ [[]] := by
  induction ls with
  | nil => rfl
  | cons l ls ih =>
    rw [List.flatMap_cons, List.append_assoc, List.singleton_append,
      split_append (h l List.mem_cons_self),
      ih fun m hm => h m (List.mem_cons_of_mem _ hm), List.cons_append]

end Text

namespace Layout

open Text

/-- Tidy lines are what their text is cut into. -/
theorem lines_unlines {ls : List Text} (hne : ls ≠ []) (h : ∀ l ∈ ls, Tidy l) :
    lines (unlines ls) = ls := by
  have hsplit := split_flatMap_feed fun l hl => (h l hl).feedless
  have hreturn : ls.map dropReturn = ls :=
    (List.map_congr_left fun l hl => dropReturn_of_tidy (h l hl)).trans (List.map_id _)
  rw [unlines, if_neg (by simpa using hne), lines, hsplit]
  simp [hreturn]

/-! ### One line -/

namespace State

/-- The state behind a line. -/
def next (s : State) (raw : Text) : State :=
  if s.inComment then s.passComment (trimEnd raw)
  else if (trim raw).isEmpty then { s with blankDue := s.started }
  else s.pass (count .code (trim raw))

/-- What is written for a line. -/
def emit (width : Nat) (s : State) (raw : Text) : List Text :=
  if s.inComment then [trimEnd raw]
  else if (trim raw).isEmpty then []
  else (if s.blankDue then [[]] else []) ++ [indent width s.depth (trim raw)]

/-- The state in which no blank line is due. -/
def settled (s : State) : State := { s with blankDue := false }

/-- A blank line is due only behind something that has been written, and outside of comments. -/
def Sound (s : State) : Prop := s.blankDue = true → s.inComment = false ∧ s.started = true

theorem sound_next {s : State} (hs : s.Sound) (raw : Text) : (s.next raw).Sound := by
  unfold next
  split
  · rename_i hcomment
    have hdue : s.blankDue = false := by
      by_contra hdue
      have := (hs (Bool.not_eq_false _ ▸ hdue)).1
      simp [hcomment] at this
    unfold passComment
    split <;> simp [Sound, hdue]
  · rename_i hcode
    split
    · intro hdue
      exact ⟨by simpa using hcode, hdue⟩
    · simp [Sound, pass]

end State

theorem layLines_cons (width : Nat) (s : State) (raw : Text) (rest : List Text) :
    layLines width s (raw :: rest) = s.emit width raw ++ layLines width (s.next raw) rest := by
  simp only [layLines, State.emit, State.next]
  split
  · rfl
  · split
    · rfl
    · rw [List.append_assoc, List.singleton_append]

theorem trim_indent (width depth : Nat) (line : Text) :
    trim (indent width depth line) = trim line := by
  have h := trim_append (allBlank_replicate (width * (depth - leadingCloses line))) allBlank_nil line
  rw [List.append_nil] at h
  exact h

/-- A trimmed line that has been indented is written again as it stands. -/
theorem layLines_indent (width : Nat) {s : State} (hcomment : s.inComment = false) {raw : Text}
    (hink : (trim raw).isEmpty = false) (rest : List Text) :
    layLines width s (indent width s.depth (trim raw) :: rest) =
      s.emit width raw ++ layLines width (s.next raw) rest := by
  rw [layLines_cons]
  simp only [State.emit, State.next, hcomment, trim_indent, trim_trim, hink, Bool.false_eq_true,
    if_false]

/-- What is written for a line is written again, and leads to the state behind the line. -/
theorem layLines_emit (width : Nat) {s : State} (hs : s.Sound) (raw : Text) (rest : List Text) :
    layLines width s.settled (s.emit width raw ++ rest) =
      s.emit width raw ++ layLines width (s.next raw).settled rest := by
  cases hcomment : s.inComment with
  | true =>
    have hnext : s.settled.next (trimEnd raw) = (s.next raw).settled := by
      simp only [State.next, State.settled, State.passComment, State.pass, hcomment, if_true,
        trimEnd_trimEnd]
      split <;> rfl
    simp only [State.emit, hcomment, if_true, List.singleton_append]
    rw [layLines_cons, hnext]
    simp only [State.emit, State.settled, hcomment, if_true, trimEnd_trimEnd, List.singleton_append]
  | false =>
    cases hink : (trim raw).isEmpty with
    | true =>
      simp [State.emit, State.next, State.settled, hcomment, hink]
    | false =>
      have hsettled : (s.next raw).settled = s.next raw := by
        simp [State.next, State.settled, State.pass, hcomment, hink]
      rw [hsettled]
      cases hdue : s.blankDue with
      | false =>
        have hself : s.settled = s := by
          rw [State.settled, ← hdue]
        have hemit : s.emit width raw = [indent width s.depth (trim raw)] := by
          simp [State.emit, hcomment, hink, hdue]
        rw [hself, hemit, List.singleton_append, layLines_indent width hcomment hink, hemit]
      | true =>
        -- The blank line that is written makes one due again.
        have hself : s.settled.next [] = s := by
          have htrim : trim [] = [] := rfl
          obtain ⟨-, hstarted⟩ := hs hdue
          cases s
          simp_all [State.next, State.settled]
        have hemit : s.emit width raw = [] :: [indent width s.depth (trim raw)] := by
          simp [State.emit, hcomment, hink, hdue]
        have hblank : s.settled.emit width [] = [] := by
          have htrim : trim [] = [] := rfl
          simp [State.emit, State.settled, hcomment, htrim]
        rw [hemit, List.cons_append, layLines_cons, hblank, hself, List.nil_append,
          List.singleton_append, layLines_indent width hcomment hink, hemit]

/-! ### All lines -/

/-- The lines of a layout are laid out as they stand. -/
theorem layLines_layLines (width : Nat) {s : State} (hs : s.Sound) (ls : List Text) :
    layLines width s.settled (layLines width s ls) = layLines width s ls := by
  induction ls generalizing s with
  | nil => rfl
  | cons raw ls ih =>
    rw [layLines_cons, layLines_emit width hs, ih (State.sound_next hs raw)]

theorem layLines_append (width : Nat) (s : State) (ls ms : List Text) :
    layLines width s (ls ++ ms) =
      layLines width s ls ++ layLines width (ls.foldl State.next s) ms := by
  induction ls generalizing s with
  | nil => rfl
  | cons raw ls ih =>
    rw [List.cons_append, layLines_cons, layLines_cons, ih, List.append_assoc, List.foldl_cons]

/-- Every line that is written is tidy. -/
theorem tidy_of_mem_layLines {width : Nat} {s : State} {ls : List Text}
    (hls : ∀ l ∈ ls, '\n' ∉ l) {l : Text} (h : l ∈ layLines width s ls) : Tidy l := by
  induction ls generalizing s with
  | nil => cases h
  | cons raw ls ih =>
    rw [layLines_cons, List.mem_append] at h
    have hraw := hls raw List.mem_cons_self
    rcases h with h | h
    · unfold State.emit at h
      split at h
      · obtain rfl := List.mem_singleton.mp h
        exact tidy_trimEnd hraw
      · split at h
        · cases h
        · rename_i hink
          have hspaces : ∀ n, '\n' ∉ List.replicate n ' ' := fun n hc =>
            absurd (List.eq_of_mem_replicate hc) (by decide)
          have hstart : '\n' ∉ trimStart raw := fun hc =>
            hraw ((List.dropWhile_sublist isBlank).subset hc)
          rcases List.mem_append.mp h with h | h
          · split at h
            · obtain rfl := List.mem_singleton.mp h
              exact tidy_nil
            · cases h
          · obtain rfl := List.mem_singleton.mp h
            exact (tidy_trimEnd hstart).append (hspaces _) (by simpa using hink)
    · exact ih (fun m hm => hls m (List.mem_cons_of_mem _ hm)) h

/-- Blank lines are written as blank lines, if at all. -/
theorem blank_of_mem_layLines {width : Nat} {s : State} {ls : List Text} (hls : ∀ l ∈ ls, l = [])
    {l : Text} (h : l ∈ layLines width s ls) : l = [] := by
  induction ls generalizing s with
  | nil => cases h
  | cons raw ls ih =>
    obtain rfl := hls raw List.mem_cons_self
    rw [layLines_cons, List.mem_append] at h
    rcases h with h | h
    · have hend : trimEnd [] = [] := rfl
      have htrim : trim [] = [] := rfl
      unfold State.emit at h
      split at h
      · exact (List.mem_singleton.mp h).trans hend
      · simp [htrim] at h
    · exact ih (fun m hm => hls m (List.mem_cons_of_mem _ hm)) h

/-! ### The end of the text -/

theorem dropBlankEnd_dropBlankEnd (ls : List Text) :
    dropBlankEnd (dropBlankEnd ls) = dropBlankEnd ls :=
  List.rdropWhile_idempotent List.isEmpty ls

theorem dropBlankEnd_append {blanks : List Text} (h : ∀ l ∈ blanks, l = []) (ls : List Text) :
    dropBlankEnd (ls ++ blanks) = dropBlankEnd ls := by
  have hall : ∀ l ∈ blanks.reverse, l.isEmpty = true := by
    intro l hl
    simp [h l (List.mem_reverse.mp hl)]
  rw [dropBlankEnd, List.reverse_append, List.dropWhile_append_of_pos hall, dropBlankEnd]

theorem exists_blankEnd (ls : List Text) :
    ∃ blanks : List Text, (∀ l ∈ blanks, l = []) ∧ dropBlankEnd ls ++ blanks = ls := by
  refine ⟨ls.rtakeWhile List.isEmpty, fun l hl => ?_, List.rdropWhile_append_rtakeWhile⟩
  exact List.isEmpty_iff.mp (List.mem_rtakeWhile_imp hl)

/-- Without the blank lines at its end a layout is still laid out. -/
theorem dropBlankEnd_layLines (width : Nat) (ls : List Text) :
    dropBlankEnd (layLines width {} (dropBlankEnd (layLines width {} ls))) =
      dropBlankEnd (layLines width {} ls) := by
  obtain ⟨blanks, hblanks, hlines⟩ := exists_blankEnd (layLines width {} ls)
  have hstable : layLines width {} (layLines width {} ls) = layLines width {} ls :=
    layLines_layLines width (s := {}) (by simp [State.Sound]) ls
  generalize hkept : dropBlankEnd (layLines width {} ls) = kept at hlines
  rw [← hlines, layLines_append] at hstable
  calc dropBlankEnd (layLines width {} kept)
      = dropBlankEnd (kept ++ blanks) := by
        rw [← hstable, dropBlankEnd_append fun l hl => blank_of_mem_layLines hblanks hl]
    _ = dropBlankEnd kept := dropBlankEnd_append hblanks kept
    _ = kept := by rw [← hkept, dropBlankEnd_dropBlankEnd]

theorem formatText_formatText (width : Nat) (t : Text) :
    formatText width (formatText width t) = formatText width t := by
  have hstable := dropBlankEnd_layLines width (lines t)
  have htidy : ∀ l ∈ dropBlankEnd (layLines width {} (lines t)), Tidy l := fun l hl =>
    tidy_of_mem_layLines (fun m hm => feedless_of_mem_lines hm)
      ((List.rdropWhile_prefix List.isEmpty _).subset hl)
  unfold formatText
  generalize dropBlankEnd (layLines width {} (lines t)) = kept at hstable htidy
  by_cases hne : kept = []
  · subst hne
    rfl
  · rw [lines_unlines hne htidy, hstable]

/-- Laying out a layout of the same width changes nothing, whatever the text is. -/
theorem format_format (width : Nat) (source : String) :
    format width (format width source) = format width source := by
  simp only [format, String.toList_ofList, formatText_formatText]

end Layout

end EventCatalog
