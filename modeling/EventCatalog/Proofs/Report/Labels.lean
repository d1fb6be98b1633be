import EventCatalog.Proofs.Report.Positions
import EventCatalog.Proofs.Version.Identity
import Mathlib.Data.List.Forall2

/-! # Labels of reports

A report tells of each label of its diagnostic once: labels in the document itself are shown there,
and each of the others gets a line of advice (`Report.Tells`).  There is one report for each
diagnostic, in order, and where the text of the other document is known, the place in a line of
advice is that of its label and of no other (`labels_reported`). -/

namespace EventCatalog.Report

open Diagnostic (Label)

variable {sources : List (DocumentPath × String)} {path document : DocumentPath}

/-! ### Shown labels and notes -/

/-- Which labels are shown in the document at a path and which notes are made of the others, both in
the order of the labels. -/
inductive Tells (sources : List (DocumentPath × String)) (path : DocumentPath) :
    List Label → List ReportLabel → List String → Prop
  | nil : Tells sources path [] [] []
  /-- The label is in the document itself. -/
  | shown {l : Label} {ls : List Label} {shown : List ReportLabel} {notes : List String}
      (h : l.document = none ∨ l.document = some path)
      (others : Tells sources path ls shown notes) :
      Tells sources path (l :: ls)
        (⟨l.span.start, l.span.stop - l.span.start, l.message, l.primary⟩ :: shown) notes
  /-- The label is in another document, whose text is known. -/
  | placed {l : Label} {ls : List Label} {shown : List ReportLabel} {notes : List String}
      {document : DocumentPath} {text : String} {line column : Nat}
      (h : l.document = some document) (hne : document ≠ path)
      (htext : sources.lookup document = some text)
      (hplace : Text.lineColumn text.toList l.span.start = (line, column))
      (others : Tells sources path ls shown notes) :
      Tells sources path (l :: ls) shown
        (("note: " ++ (document.text ++ ":" ++ Nat.repr line ++ ":" ++ Nat.repr column) ++ ": " ++
          l.message) :: notes)
  /-- The label is in another document, whose text is not known. -/
  | named {l : Label} {ls : List Label} {shown : List ReportLabel} {notes : List String}
      {document : DocumentPath} (h : l.document = some document) (hne : document ≠ path)
      (htext : sources.lookup document = none) (others : Tells sources path ls shown notes) :
      Tells sources path (l :: ls) shown
        (("note: " ++ document.text ++ ": " ++ l.message) :: notes)

theorem isLocal_iff {l : Label} :
    isLocal path l = true ↔ l.document = none ∨ l.document = some path := by
  rw [isLocal]
  cases l.document <;> simp

theorem note?_of_isLocal {l : Label} (h : isLocal path l = true) :
    note? sources path l = none := by
  rw [note?]
  rcases isLocal_iff.mp h with h | h
  · rw [h]
  · rw [h]
    exact if_pos rfl

theorem exists_of_not_isLocal {l : Label} (h : isLocal path l = false) :
    ∃ document, l.document = some document ∧ document ≠ path := by
  have hneither := mt isLocal_iff.mpr (Bool.eq_false_iff.mp h)
  obtain ⟨document, hdocument⟩ :=
    Option.ne_none_iff_exists'.mp fun hnone => hneither (.inl hnone)
  exact ⟨document, hdocument, fun hpath => hneither (.inr (hpath ▸ hdocument))⟩

theorem note?_of_document {l : Label} (h : l.document = some document) (hne : document ≠ path) :
    note? sources path l =
      some ("note: " ++ location sources document l.span ++ ": " ++ l.message) := by
  rw [note?, h]
  exact if_neg hne

/-- A label that is not shown has a note, and one that is shown has none. -/
theorem tells_labels (sources : List (DocumentPath × String)) (path : DocumentPath)
    (ls : List Label) :
    Tells sources path ls
      ((ls.filter (isLocal path)).map fun l => ⟨l.span.start, l.span.length, l.message, l.primary⟩)
      (ls.filterMap (note? sources path)) := by
  induction ls with
  | nil => exact .nil
  | cons l ls ih =>
    cases hlocal : isLocal path l with
    | true =>
      rw [List.filter_cons_of_pos hlocal, List.filterMap_cons_none (note?_of_isLocal hlocal)]
      exact .shown (isLocal_iff.mp hlocal) ih
    | false =>
      obtain ⟨document, hdocument, hne⟩ := exists_of_not_isLocal hlocal
      rw [List.filter_cons_of_neg (Bool.eq_false_iff.mp hlocal),
        List.filterMap_cons_some (note?_of_document hdocument hne), location]
      cases htext : sources.lookup document with
      | some text => exact .placed hdocument hne htext rfl ih
      | none => exact .named hdocument hne htext ih

/-! ### Lines of advice -/

/-- The advice of a report has a line for each of the texts; it is split into these again unless one
of them holds a line feed. -/
structure Advises (lines : List String) (help : Option String) : Prop where
  none_iff : help = none ↔ lines = []
  joined : ∀ text ∈ help, text = String.intercalate "\n" lines
  split : (∀ line ∈ lines, '\n' ∉ line.toList) →
    ∀ text ∈ help, Text.split '\n' text.toList = lines.map String.toList

theorem advises (lines : List String) :
    Advises lines (if lines.isEmpty then none else some (String.intercalate "\n" lines)) := by
  cases lines with
  | nil =>
    constructor
    · exact iff_of_true rfl rfl
    · intro text htext
      cases htext
    · intro _ text htext
      cases htext
  | cons line lines =>
    constructor
    · exact iff_of_false (Option.some_ne_none _) (List.cons_ne_nil _ _)
    · intro text htext
      exact (Option.some.inj htext).symm
    · intro hlines text htext
      obtain rfl := Option.some.inj htext
      rw [String.toList_intercalate]
      refine Text.split_intercalate (List.cons_ne_nil _ _) ?_
      rw [List.forall_mem_map]
      exact hlines

/-! ### Reports -/

/-- A report of a diagnostic says what the diagnostic says and tells of all its labels. -/
structure Shows (sources : List (DocumentPath × String)) (d : FileDiagnostic) (r : Report) :
    Prop where
  message : r.message = d.diagnostic.message
  code : r.code = d.diagnostic.code.map (·.text)
  severity : r.severity = some d.diagnostic.severity
  hasSource : r.hasSource = true
  labels : ∃ notes, Tells sources d.path d.diagnostic.labels r.labels notes ∧
    Advises (d.diagnostic.help.toList ++ notes) r.help

theorem shows_ofDiagnostic (sources : List (DocumentPath × String)) (d : FileDiagnostic) :
    Shows sources d (ofDiagnostic sources d) where
  message := rfl
  code := rfl
  severity := rfl
  hasSource := rfl
  labels := ⟨_, tells_labels sources d.path d.diagnostic.labels, advises _⟩

theorem repr_injective : Function.Injective Nat.repr := by
  intro m n h
  rw [← Text.decimal_repr m, h, Text.decimal_repr]

theorem colon_not_mem_repr (n : Nat) : ':' ∉ (Nat.repr n).toList := by
  intro h
  have hdigit := Text.isDigit_of_mem_repr h
  exact absurd hdigit (by decide)

/-- The place of a label tells its start, if the text is known. -/
theorem location_eq_iff {text : String} (htext : sources.lookup document = some text)
    {s s' : Span} (hs : Text.Boundary text.toList s.start)
    (hs' : Text.Boundary text.toList s'.start) :
    location sources document s = location sources document s' ↔ s.start = s'.start := by
  constructor
  · intro h
    simp only [location, htext, String.append_assoc, String.append_right_inj] at h
    have hlists := congrArg String.toList h
    simp only [String.toList_append] at hlists
    obtain ⟨hline, hcolumn⟩ := Text.eq_of_append_separator (colon_not_mem_repr _)
      (colon_not_mem_repr _) hlists
    have hplaces := Prod.ext (repr_injective (String.toList_inj.mp hline))
      (repr_injective (String.toList_inj.mp hcolumn))
    exact (Text.strictMonoOn_lineColumn text.toList).injOn hs hs' (congrArg toLex hplaces)
  · intro h
    rw [location, location, h]

/-- Reports lose no label: there is one report for each diagnostic, in order, which shows each label
of the diagnostic once, there or as a note.  Of two boundaries of a text the later one has the
greater line and column, so notes on a known text have the same place only for labels that begin at
the same offset. -/
theorem labels_reported (sources : List (DocumentPath × String)) (ds : List FileDiagnostic) :
    List.Forall₂ (Shows sources) ds (ofDiagnostics sources ds) ∧
      (∀ text : Text,
        StrictMonoOn (fun offset => toLex (text.lineColumn offset)) {n | text.Boundary n}) ∧
      ∀ document text, sources.lookup document = some text → ∀ s s' : Span,
        Text.Boundary text.toList s.start → Text.Boundary text.toList s'.start →
          (location sources document s = location sources document s' ↔ s.start = s'.start) := by
  refine ⟨?_, Text.strictMonoOn_lineColumn, ?_⟩
  · rw [ofDiagnostics, List.forall₂_map_right_iff, List.forall₂_same]
    intro d _
    exact shows_ofDiagnostic sources d
  · intro document text htext s s' hs hs'
    exact location_eq_iff htext hs hs'

/-- A text with a character of two bytes and a carriage return. -/
def accentedText : String := "event É\r\nservice S"

/-- A label in the document itself, one in a document whose text is known, and one in another. -/
def exportedAgain : FileDiagnostic where
  path := .ofString "b.ec"
  diagnostic := (((Diagnostic.error .duplicateExport "`S` is exported by more than one document")
    |>.labelled ⟨8, 9⟩ "exported again here")
    |>.related (.ofString "a.ec") ⟨18, 19⟩ "first exported here")
    |>.related (.ofString "c.ec") ⟨0, 1⟩ "and here"

theorem labels_reported_accented :
    let a := DocumentPath.ofString "a.ec"
    let sources := [(a, accentedText)]
    sources.lookup a = some accentedText ∧
      Text.Boundary accentedText.toList 6 ∧ Text.Boundary accentedText.toList 18 ∧
      (location sources a ⟨6, 8⟩ = location sources a ⟨18, 19⟩ ↔ 6 = 18) ∧
      List.Forall₂ (Shows sources) [exportedAgain] (ofDiagnostics sources [exportedAgain]) ∧
      (ofDiagnostics sources [exportedAgain]).map (·.help) =
        [some "note: a.ec:2:9: first exported here\nnote: c.ec: and here"] :=
  have hlookup : [(DocumentPath.ofString "a.ec", accentedText)].lookup (.ofString "a.ec") =
      some accentedText := by decide +kernel
  have hevent : Text.Boundary accentedText.toList 6 := by decide +kernel
  have hservice : Text.Boundary accentedText.toList 18 := by decide +kernel
  have h := labels_reported [(DocumentPath.ofString "a.ec", accentedText)] [exportedAgain]
  ⟨hlookup, hevent, hservice, h.2.2 _ _ hlookup ⟨6, 8⟩ ⟨18, 19⟩ hevent hservice, h.1,
    by decide +kernel⟩

end EventCatalog.Report
