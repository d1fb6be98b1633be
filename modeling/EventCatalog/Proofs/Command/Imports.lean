import EventCatalog.Command.Imports
import EventCatalog.Proofs.FileTree.Write
import EventCatalog.Proofs.Path.Normal

/-! # Imports stay below their directory

An import that is looked for in files is not looked for, is refused before any file is touched, or is
read from one file whose path leads down from the directory (`KnownImports.answer_confined`).  It is
refused exactly if the joined path is no web address and begins by leading upwards; and a text that is
given stands in a file below the directory. -/

namespace EventCatalog

open DocumentPath

/-! ### Locations -/

namespace ImportLocation

variable {target : DocumentPath}

/-- The location of a document that is no web address. -/
theorem of_local (h : isRemote target.text.toList = false) :
    of target = if (Text.split '/' target.text.toList).head? = some up then .outside
      else .below (target.text.toList.dropWhile (· == '/')) := by
  obtain ⟨absolute, path, hpath⟩ := exists_normalize h
  simp only [of, h, Bool.false_eq_true, if_false]
  rw [hpath]
  simp only [head?_split_normalize]

/-- What is looked for below the directory is looked for at a path that leads down. -/
theorem descends_of_below {path : Text} (h : of target = .below path) : Descends path := by
  cases hremote : isRemote target.text.toList with
  | true => simp [of, hremote] at h
  | false =>
    obtain ⟨absolute, raw, hraw⟩ := exists_normalize hremote
    rw [of_local hremote] at h
    split at h
    · cases h
    · rename_i hup
      cases h
      rw [hraw, head?_split_normalize] at hup
      rw [hraw]
      exact descends_of_normalize hup

theorem of_eq_outside_iff : of target = .outside ↔
    isRemote target.text.toList = false ∧ (Text.split '/' target.text.toList).head? = some up := by
  cases hremote : isRemote target.text.toList with
  | true => simp [of, hremote]
  | false => simp [of_local hremote]

end ImportLocation

/-! ### Files below a directory -/

namespace FilePath

/-- The segments of a path in a directory come behind those of the directory, which may end with a
slash. -/
theorem split_join {root : Text} (hroot : root ≠ []) (path : Text) :
    ∃ above, Text.split '/' (join root path) = Text.split '/' above ++ Text.split '/' path ∧
      (root = above ∨ root = above ++ ['/']) := by
  unfold join
  by_cases hslash : root.getLast? = some '/'
  · obtain ⟨above, rfl⟩ := List.getLast?_eq_some_iff.mp hslash
    refine ⟨above, ?_, .inr rfl⟩
    rw [if_pos (by simp), List.append_assoc]
    exact Text.split_append_cons above path
  · refine ⟨root, ?_, .inl rfl⟩
    rw [if_neg (by simp [hroot, hslash])]
    exact Text.split_append_cons root path

end FilePath

namespace FileTree

variable {α : Type} {tree : FileTree α}

/-- Steps down lead below the place where they begin, which is a directory. -/
theorem follow_steps {here names : List String} {steps : List Text} (hne : steps ≠ [])
    (hsteps : ∀ s ∈ steps, s ≠ ['.', '.']) (h : follow tree here steps = .ok names) :
    here.reverse <+: names ∧ ∃ entries, node? here.reverse tree = some (directory entries) := by
  induction steps generalizing here with
  | nil => exact absurd rfl hne
  | cons s steps ih =>
    rw [List.forall_mem_cons] at hsteps
    unfold follow at h
    split at h
    · cases h
    · cases h
    · rename_i entries hentries
      refine ⟨?_, entries, hentries⟩
      have hrest : ∀ here', here.reverse <+: here'.reverse → follow tree here' steps = .ok names →
          here.reverse <+: names := by
        intro here' hbelow h
        by_cases hnil : steps = []
        · subst hnil
          cases h
          exact hbelow
        · exact hbelow.trans (ih hnil hsteps.2 h).1
      split at h
      · exact hrest here (List.prefix_refl _) h
      · rw [if_neg hsteps.1] at h
        split at h
        · cases h
        · refine hrest _ ?_ h
          rw [List.reverse_cons]
          exact List.prefix_append _ _

/-- A path in a directory begins where the path of the directory does. -/
theorem start_join {root : Text} (hroot : root ≠ []) (here : List String) (path : Text) :
    start here (FilePath.join root path) = start here root := by
  obtain ⟨c, root, rfl⟩ := List.exists_cons_of_ne_nil hroot
  unfold FilePath.join
  split <;> rfl

/-- A path that leads down from a directory leads to a place below it. -/
theorem prefix_of_follow_join {here : List String} {root path : Text} (hpath : Descends path)
    {names : List String} (h : follow tree (start here (FilePath.join root path))
      (Text.split '/' (FilePath.join root path)) = .ok names) :
    ∃ top, follow tree (start here root) (Text.split '/' root) = .ok top ∧ top <+: names := by
  have hsteps : ∀ s ∈ Text.split '/' path, s ≠ ['.', '.'] := by
    intro s hs
    by_cases hempty : path = []
    · subst hempty
      obtain rfl : s = [] := by simpa [Text.split] using hs
      simp
    · exact (hpath.steps hempty s hs).2.2
  -- Where a step leads on there is a directory, so a slash may end the path to it.
  have hslash : ∀ (above : List Text) (here top : List String),
      follow tree here above = .ok top → (∃ entries, node? top tree = some (directory entries)) →
      follow tree here (above ++ [[]]) = .ok top := by
    rintro above here top htop ⟨entries, hentries⟩
    have hname : FilePath.isName [] = false := rfl
    rw [follow_append, htop]
    simp only [Except.bind, follow, List.reverse_reverse, hentries, hname, Bool.not_false, if_true]
  by_cases hroot : root = []
  · subst hroot
    have hjoin : FilePath.join [] path = path := rfl
    rw [hjoin, start, if_neg hpath.relative] at h
    obtain ⟨hbelow, hentries⟩ := follow_steps (Text.split_ne_nil _ _) hsteps h
    exact ⟨here.reverse, hslash [] here here.reverse rfl hentries, hbelow⟩
  · rw [start_join hroot] at h
    obtain ⟨above, hjoin, hroot⟩ := FilePath.split_join hroot path
    rw [hjoin, follow_append] at h
    cases htop : follow tree (start here root) (Text.split '/' above) with
    | error e => simp [htop, Except.bind] at h
    | ok top =>
      rw [htop] at h
      obtain ⟨hbelow, hentries⟩ := follow_steps (Text.split_ne_nil _ _) hsteps h
      rw [List.reverse_reverse] at hbelow hentries
      refine ⟨top, ?_, hbelow⟩
      obtain rfl | hroot := hroot
      · exact htop
      · rw [hroot, Text.split_append_cons, ← hroot]
        exact hslash _ _ _ htop hentries

end FileTree

/-! ### Answers -/

namespace KnownImports

/-- The answer that the content of a file makes. -/
def ofContent (file : Text) : Except FileError String → ImportAnswer
  | .ok text => .text text
  | .error .notFound => .unknown
  | .error error => .failure ("failed to read `" ++ String.ofList file ++ "`: " ++ error.message)

/-- The answer for a path that leads above the directory. -/
def refusal (target : DocumentPath) : ImportAnswer :=
  .failure ("`" ++ target.text ++ "` is outside the import root")

theorem ofContent_ne_refusal (file : Text) (content : Except FileError String)
    (target : DocumentPath) : ofContent file content ≠ refusal target := by
  unfold ofContent
  split
  · nofun
  · nofun
  · intro h
    have htext := congrArg String.toList (ImportAnswer.failure.inj h)
    simp at htext

section

variable {m : Type → Type} [Monad m] [MonadFiles m]

/-- The answer is decided by the location, and asks for one file at most. -/
theorem answer_eq (directory : Text) (target : DocumentPath) :
    (answer directory target : m ImportAnswer) =
      match ImportLocation.of target with
      | .remote => pure .unknown
      | .outside => pure (refusal target)
      | .below path => do
        return ofContent (FilePath.join directory path)
          (← MonadFiles.readText (FilePath.join directory path)) := by
  unfold answer
  cases ImportLocation.of target with
  | remote => rfl
  | outside => rfl
  | below path =>
    refine congrArg (MonadFiles.readText _ >>= ·) (funext fun content => ?_)
    cases content with
    | ok text => rfl
    | error error => cases error <;> rfl

end

/-- Looking for an import in the files of a desk leaves the desk as it is. -/
theorem run_answer (root : Text) (target : DocumentPath) (desk : Desk) :
    (answer root target : StateM Desk ImportAnswer).run desk =
      (match ImportLocation.of target with
        | .remote => .unknown
        | .outside => refusal target
        | .below path => ofContent (FilePath.join root path)
            ((desk.read (FilePath.join root path)).bind MonadFiles.decode), desk) := by
  rw [answer_eq]
  cases ImportLocation.of target <;> rfl

/-- A document is refused exactly if it lies outside. -/
theorem run_answer_eq_refusal_iff (root : Text) (target : DocumentPath) (desk : Desk) :
    (answer root target : StateM Desk ImportAnswer).run desk = (refusal target, desk) ↔
      ImportLocation.of target = .outside := by
  have hpair : ∀ a : ImportAnswer, (a, desk) = (refusal target, desk) ↔ a = refusal target := by
    simp
  rw [run_answer]
  refine (hpair _).trans ?_
  cases ImportLocation.of target with
  | remote => simp [refusal]
  | outside => simp
  | below path => simp [ofContent_ne_refusal]

/-- A text that is given stands in a file below the directory. -/
theorem exists_file_of_run_answer {root : Text} {target : DocumentPath} {desk : Desk}
    {source : String} (h : ((answer root target : StateM Desk ImportAnswer).run desk).1 = .text source) :
    ∃ top names bytes,
      FileTree.follow desk.tree (FileTree.start desk.here root) (Text.split '/' root) = .ok top ∧
      top <+: names ∧ FileTree.node? names desk.tree = some (.file bytes) ∧
      String.fromUTF8? bytes = some source := by
  rw [run_answer] at h
  cases hlocation : ImportLocation.of target with
  | remote => simp [hlocation] at h
  | outside => simp [hlocation, refusal] at h
  | below path =>
    simp only [hlocation] at h
    cases hread : desk.read (FilePath.join root path) with
    | error error => cases error <;> simp [hread, Except.bind, ofContent] at h
    | ok bytes =>
      obtain ⟨-, names, hnames, hnode⟩ := FileTree.find_eq_ok (FileTree.read_eq_ok.mp hread)
      obtain ⟨top, htop, hbelow⟩ := FileTree.prefix_of_follow_join
        (ImportLocation.descends_of_below hlocation) hnames
      refine ⟨top, names, bytes, htop, hbelow, hnode, ?_⟩
      simp only [hread, Except.bind, MonadFiles.decode] at h
      cases htext : String.fromUTF8? bytes with
      | none => simp [htext, ofContent] at h
      | some text => simpa [htext, ofContent] using h

/-- Looking for an import stays below a directory.  For every importing document and specifier, it is
not looked for, or is refused without access to files, or one file is read, at a path that leads down
from the directory.  It is refused exactly if the joined path is no web address and its
first segment leads upwards; and a text that is given stands in a file below the directory. -/
theorem answer_confined {m : Type → Type} [Monad m] [MonadFiles m] (root : Text)
    (importer : DocumentPath) (specifier : String) :
    let target := importer.join specifier
    let found : m ImportAnswer := answer root target
    (found = pure .unknown ∨ found = pure (refusal target) ∨
      ∃ path, Descends path ∧ found = do
        return ofContent (FilePath.join root path)
          (← MonadFiles.readText (FilePath.join root path))) ∧
    (∀ desk : Desk, (answer root target : StateM Desk ImportAnswer).run desk =
        (refusal target, desk) ↔
      isRemote target.text.toList = false ∧
        (Text.split '/' target.text.toList).head? = some ['.', '.']) ∧
    ∀ (desk : Desk) (source : String),
      ((answer root target : StateM Desk ImportAnswer).run desk).1 = .text source →
      ∃ top names bytes,
        FileTree.follow desk.tree (FileTree.start desk.here root) (Text.split '/' root) = .ok top ∧
        top <+: names ∧ FileTree.node? names desk.tree = some (.file bytes) ∧
        String.fromUTF8? bytes = some source := by
  intro target found
  refine ⟨?_, fun desk => ?_, fun desk source h => exists_file_of_run_answer h⟩
  · have hfound : found = _ := answer_eq root target
    cases hlocation : ImportLocation.of target with
    | remote =>
      left
      rw [hfound, hlocation]
    | outside =>
      right
      left
      rw [hfound, hlocation]
    | below path =>
      right
      right
      refine ⟨path, ImportLocation.descends_of_below hlocation, ?_⟩
      rw [hfound, hlocation]
  · rw [run_answer_eq_refusal_iff]
    exact ImportLocation.of_eq_outside_iff

end KnownImports

end EventCatalog
