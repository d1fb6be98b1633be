import EventCatalog.Layout
import EventCatalog.Proofs.Text.Reflow

/-! # A layout is a reflow

Whatever a line holds and in whatever state it is met, it is written with the same ink and only a
blank line may vanish (`inkLines_layLines`).  So the laid out text is a reflow of the source, and
the braces that the layout counts do not matter for that. -/

namespace EventCatalog.Layout

open Text

/-- Every line with ink is written again, trimmed to the same text. -/
theorem inkLines_layLines (width : Nat) (s : State) (ls : List Text) :
    inkLines (layLines width s ls) = inkLines ls := by
  induction ls generalizing s with
  | nil => rfl
  | cons raw ls ih =>
    simp only [layLines]
    split
    · exact inkLines_cons_congr (trim_trimEnd raw) (ih _)
    · split
      · rename_i h
        rw [ih, inkLines_cons_of_blank (by simpa using h)]
      · have hindent : ∀ d, trim (indent width d (trim raw)) = trim raw := by
          intro d
          have := trim_append (allBlank_replicate (width * (d - leadingCloses (trim raw))))
            allBlank_nil (trim raw)
          rw [List.append_nil, trim_trim] at this
          exact this
        have hblank : inkLines (if s.blankDue = true then [[]] else []) = [] := by
          split
          · exact inkLines_cons_of_blank rfl []
          · rfl
        rw [inkLines_append, hblank, List.nil_append]
        exact inkLines_cons_congr (hindent _) (ih _)

theorem inkLines_dropBlankEnd (ls : List Text) : inkLines (dropBlankEnd ls) = inkLines ls := by
  have hdrop : ∀ ls : List Text, inkLines (ls.dropWhile List.isEmpty) = inkLines ls := by
    intro ls
    induction ls with
    | nil => rfl
    | cons l ls ih =>
      by_cases h : l = []
      · subst h
        rw [List.dropWhile_cons_of_pos rfl, ih, inkLines_cons_of_blank rfl]
      · rw [List.dropWhile_cons_of_neg (by simpa using h)]
  rw [dropBlankEnd, inkLines_reverse, hdrop, inkLines_reverse, List.reverse_reverse]

theorem cons_flatMap_break (ls : List Text) :
    '\n' :: ls.flatMap (· ++ ['\n']) = behindBreaks ls ++ ['\n'] := by
  induction ls with
  | nil => rfl
  | cons l ls ih =>
    rw [List.flatMap_cons, List.append_assoc, List.singleton_append, ih]
    simp [behindBreaks]

theorem reflow_unlines (ls : List Text) :
    Reflow ('\n' :: unlines ls) (behindBreaks (inkLines ls)) := by
  have hfeed : AllBlank ['\n'] := by simp [AllBlank]; decide
  unfold unlines
  split
  · rename_i h
    obtain rfl : ls = [] := by simpa using h
    exact .done (allBlank_cons.mpr ⟨by decide, hfeed⟩) allBlank_nil
  · rw [cons_flatMap_break]
    exact reflow_inkLines allBlank_nil hfeed ls

/-- A laid out text looks to a scanner like the source at the start of a line. -/
theorem resumes_formatText (width : Nat) (t : Text) :
    ∃ u, Resumes true true (formatText width t) u ∧ Resumes true true t u := by
  have hstart : ∀ {s u : Text}, Reflow ('\n' :: s) u → Resumes true true s u := by
    intro s u h
    have hblank : isBlank '\n' = true := by decide
    have := h.trimStart.1
    rw [Text.trimStart, List.dropWhile_cons_of_pos hblank] at this
    exact ⟨this, fun _ => by simp⟩
  refine ⟨behindBreaks (inkLines (split '\n' t)), hstart ?_, hstart (reflow_split t)⟩
  have := reflow_unlines (dropBlankEnd (layLines width {} (lines t)))
  rw [inkLines_dropBlankEnd, inkLines_layLines, inkLines_lines] at this
  exact this

end EventCatalog.Layout
