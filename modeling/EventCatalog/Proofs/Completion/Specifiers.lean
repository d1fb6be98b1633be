import EventCatalog.Completion
import EventCatalog.Proofs.Path.Joining
import EventCatalog.Proofs.Path.Order

/-! # Suggested specifiers

The specifier that is suggested for a document climbs out of the directory of another document up to
where their paths part, and goes down from there.  Put behind that directory, each climb takes one of
its steps back, so normalization is left with what the paths have in common and with the rest of the
one that is wanted: the specifier reaches the document (`join_relativeSpecifier`), for all documents
that stand below the root of the workspace (`WithinRoot`). -/

namespace EventCatalog

namespace DocumentPath

/-! ### Directories -/

/-- Segments with a slash behind each of them. -/
def directories (segments : List Text) : Text := segments.flatMap (· ++ ['/'])

theorem directories_append (segments segments' : List Text) :
    directories (segments ++ segments') = directories segments ++ directories segments' :=
  List.flatMap_append

theorem directories_concat (segments : List Text) (s : Text) :
    directories (segments ++ [s]) = List.intercalate ['/'] (segments ++ [s]) ++ ['/'] := by
  rw [Text.intercalate_append _ (List.cons_ne_nil _ _), List.intercalate_singleton]
  simp [directories]

/-- No slash stands in front of segments, or where there are none. -/
theorem head?_directories {segments : List Text} {t : Text}
    (h : ∀ s ∈ segments, s ≠ [] ∧ '/' ∉ s) (ht : t.head? ≠ some '/') :
    (directories segments ++ t).head? ≠ some '/' := by
  cases segments with
  | nil => exact ht
  | cons s segments =>
    obtain ⟨hne, hslash⟩ := h s List.mem_cons_self
    obtain ⟨c, s, rfl⟩ := List.exists_cons_of_ne_nil hne
    rw [List.mem_cons, not_or] at hslash
    simpa [directories] using Ne.symm hslash.1

/-- What stands in a directory of the workspace is not on the web. -/
theorem isRemote_directories {segments : List Text} {t : Text} (hne : segments ≠ [])
    (h : ∀ s ∈ segments, s ≠ [] ∧ '/' ∉ s) (ht : t.head? ≠ some '/') :
    isRemote (directories segments ++ t) = false := by
  obtain ⟨s, segments, rfl⟩ := List.exists_cons_of_ne_nil hne
  rw [List.forall_mem_cons] at h
  have hbehind := head?_directories h.2 ht
  have hsplit : directories (s :: segments) ++ t = s ++ '/' :: (directories segments ++ t) := by
    simp [directories]
  rw [hsplit]
  exact not_isRemote_of_head? h.1.2 hbehind

/-- The directories in front of a text are normalized with it. -/
theorem normalText_directories {segments : List Text} {t : Text} (hne : segments ≠ [])
    (h : ∀ s ∈ segments, s ≠ [] ∧ '/' ∉ s) (ht : t.head? ≠ some '/')
    (hback : '\\' ∉ directories segments ++ t)
    (htrim : Text.trim (directories segments ++ t) = directories segments ++ t) :
    normalText (directories segments ++ t) =
      List.intercalate ['/'] (normalSegments false (directories segments ++ t)) := by
  have hlocal : isRemote (Text.trim (directories segments ++ t)) = false := by
    rw [htrim]
    exact isRemote_directories hne h ht
  rw [normalText_of_local hlocal, htrim, slashed_of_not_mem hback,
    beq_eq_false_iff_ne.mpr (head?_directories h ht)]
  rfl

/-- A text keeps its ends behind directories if there are no blanks there. -/
theorem trim_directories {segments : List Text} {t : Text} (hne : segments ≠ [])
    (hstart : ∀ c ∈ (directories segments).head?, Text.isBlank c = false)
    (ht : Text.trimEnd t = t) :
    Text.trim (directories segments ++ t) = directories segments ++ t := by
  obtain rfl | ⟨above, last, rfl⟩ := List.eq_nil_or_concat' segments
  · exact absurd rfl hne
  · rw [directories_concat] at hstart ⊢
    obtain ⟨c, s, hs⟩ := List.exists_cons_of_ne_nil (List.append_ne_nil_of_right_ne_nil
      (List.intercalate ['/'] (above ++ [last])) (List.cons_ne_nil '/' []))
    have hhead : (List.intercalate ['/'] (above ++ [last]) ++ ['/']).head? = some c := by
      rw [hs]
      rfl
    rw [Text.trim_append_of_ink hhead (List.getLast?_concat ..) (hstart c hhead) (by decide), ht]

/-! ### Documents below the root -/

/-- A path that leads down from the root of the workspace, without blanks at its ends. -/
structure WithinRoot (p : DocumentPath) : Prop where
  not_remote : ¬p.IsRemote
  not_absolute : ¬p.IsAbsolute
  down : up ∉ Text.split '/' p.text.toList
  trimmed : Text.trimString p.text = p.text

namespace WithinRoot

variable {p : DocumentPath}

theorem trim_text (h : WithinRoot p) : Text.trim p.text.toList = p.text.toList := by
  have htrim := congrArg String.toList h.trimmed
  rwa [Text.trimString, String.toList_ofList] at htrim

theorem backslash_not_mem (h : WithinRoot p) : '\\' ∉ p.text.toList := by
  obtain ⟨raw, htext, hlocal⟩ := exists_local (Bool.eq_false_iff.mpr h.not_remote)
  rw [htext]
  exact DocumentPath.backslash_not_mem hlocal

/-- Such a path consists of steps down. -/
theorem exists_steps (h : WithinRoot p) :
    ∃ steps, p.text.toList = List.intercalate ['/'] steps ∧ ∀ s ∈ steps, IsStep s := by
  obtain ⟨absolute, path, htext⟩ := exists_normalize (Bool.eq_false_iff.mpr h.not_remote)
  have hrelative : p.text.toList = List.intercalate ['/'] (normalSegments absolute path) := by
    have hhead := h.not_absolute
    rw [IsAbsolute, htext] at hhead
    simp only [normalize] at htext hhead
    split at htext
    · rename_i hslash
      rw [if_pos hslash] at hhead
      exact absurd rfl hhead
    · exact htext
  obtain ⟨ups, steps, hsegments, hsteps, -⟩ := reduced_normalSegments absolute path
  refine ⟨steps, ?_, hsteps⟩
  cases ups with
  | zero =>
    rw [hrelative, hsegments]
    rfl
  | succ ups =>
    have hdown := h.down
    have hne : normalSegments absolute path ≠ [] := by
      rw [hsegments]
      exact List.cons_ne_nil _ _
    rw [hrelative, split_intercalate_normalSegments hne, hsegments] at hdown
    exact absurd List.mem_cons_self hdown

/-- The directory of such a document consists of steps down as well. -/
theorem exists_parent (h : WithinRoot p) : ∃ base name, p.text.toList = directories base ++ name ∧
    p.parent = List.intercalate ['/'] base ∧ ∀ s ∈ base, IsStep s := by
  obtain ⟨steps, htext, hsteps⟩ := h.exists_steps
  obtain rfl | ⟨base, name, rfl⟩ := List.eq_nil_or_concat' steps
  · exact ⟨[], [], htext, parent_of_slashless (by rw [htext]; exact List.not_mem_nil), nofun⟩
  · rw [Text.intercalate_append _ (List.cons_ne_nil _ _), List.intercalate_singleton] at htext
    have hname : '/' ∉ name := (hsteps name (by simp)).slashless
    refine ⟨base, name, htext, ?_, fun s hs => hsteps s (List.mem_append_left _ hs)⟩
    obtain rfl | ⟨above, last, rfl⟩ := List.eq_nil_or_concat' base
    · exact parent_of_slashless (by rw [htext]; exact hname)
    · refine parent_of_last (v := name) ?_ hname
      change p.text.toList = directories (above ++ [last]) ++ name at htext
      rw [htext, directories_concat, List.append_assoc, List.singleton_append]

/-- What is left of such a path behind some directories has no blanks at its end. -/
theorem trimEnd_drop (h : WithinRoot p) {steps : List Text}
    (htext : p.text.toList = List.intercalate ['/'] steps) (k : Nat) :
    Text.trimEnd (List.intercalate ['/'] (steps.drop k)) =
      List.intercalate ['/'] (steps.drop k) := by
  by_cases hnil : steps.drop k = []
  · rw [hnil]
    rfl
  · have hwhole := Text.trimEnd_trim p.text.toList
    rw [h.trim_text, htext, ← List.take_append_drop k steps, Text.intercalate_append _ hnil] at hwhole
    exact Text.trimEnd_of_append hwhole

end WithinRoot

theorem head?_intercalate_steps {steps : List Text} (h : ∀ s ∈ steps, IsStep s) :
    (List.intercalate ['/'] steps).head? ≠ some '/' := by
  have hsteps : normalSegments false (List.intercalate ['/'] (List.replicate 0 up ++ steps)) =
      List.replicate 0 up ++ steps := normalSegments_intercalate h fun _ => rfl
  have hsegments := head?_intercalate_normalSegments false (List.intercalate ['/'] steps)
  rw [List.replicate_zero, List.nil_append] at hsteps
  rwa [hsteps] at hsegments

/-- The segments of a text of steps are these steps. -/
theorem filter_split_intercalate {steps : List Text} (h : ∀ s ∈ steps, IsStep s) :
    (Text.split '/' (List.intercalate ['/'] steps)).filter (!·.isEmpty) = steps := by
  by_cases hne : steps = []
  · rw [hne]
    rfl
  · rw [Text.split_intercalate hne fun s hs => (h s hs).slashless]
    refine List.filter_eq_self.mpr fun s hs => ?_
    simp [(h s hs).ne_nil]

theorem foldl_split_intercalate {absolute : Bool} {steps : List Text} (h : ∀ s ∈ steps, IsStep s)
    (before : List Text) :
    (Text.split '/' (List.intercalate ['/'] steps)).foldl (addSegment absolute) before =
      steps.reverse ++ before := by
  by_cases hne : steps = []
  · rw [hne]
    rfl
  · rw [Text.split_intercalate hne fun s hs => (h s hs).slashless, foldl_steps h]

/-- A relative specifier is put behind the directory of the document. -/
theorem join_directories {p : DocumentPath} {specifier : String} {base : List Text}
    (hparent : p.parent = List.intercalate ['/'] base) (hbase : ∀ s ∈ base, IsStep s)
    (hslash : (Text.trim specifier.toList).head? ≠ some '/')
    (hlocal : isRemote (Text.trim specifier.toList) = false) :
    p.join specifier = ofText (directories base ++ Text.trim specifier.toList) := by
  obtain rfl | ⟨above, last, rfl⟩ := List.eq_nil_or_concat' base
  · rw [join_of_parent_eq_nil hslash hlocal hparent]
    rfl
  · have hne : p.parent ≠ [] := by
      rw [hparent, Text.intercalate_append _ (List.cons_ne_nil _ _), List.intercalate_singleton]
      exact List.append_ne_nil_of_right_ne_nil _ (hbase last (by simp)).ne_nil
    rw [join_of_parent_ne_nil hslash hlocal hne, hparent, directories_concat, List.append_assoc,
      List.singleton_append]

/-! ### Climbing -/

/-- The segments that lead up by some steps, and a point for none. -/
def climb (n : Nat) : List Text := if n = 0 then [['.']] else List.replicate n up

theorem mem_climb {n : Nat} {s : Text} (h : s ∈ climb n) : s = ['.'] ∨ s = up := by
  unfold climb at h
  split at h
  · exact .inl (List.mem_singleton.mp h)
  · exact .inr (List.eq_of_mem_replicate h)

theorem climb_ne_nil (n : Nat) : climb n ≠ [] := by
  unfold climb
  split
  · exact List.cons_ne_nil _ _
  · rename_i hn
    simpa using hn

theorem slashless_of_mem_climb {n : Nat} {s : Text} (h : s ∈ climb n) : s ≠ [] ∧ '/' ∉ s := by
  obtain rfl | rfl := mem_climb h <;> decide

theorem mem_directories_climb {n : Nat} {c : Char} (h : c ∈ directories (climb n)) :
    c = '.' ∨ c = '/' := by
  obtain ⟨s, hs, hc⟩ := List.mem_flatMap.mp h
  obtain rfl | rfl := mem_climb hs <;> simpa [up] using hc

theorem not_blank_of_climb {n : Nat} {c : Char} (h : (directories (climb n)).head? = some c) :
    Text.isBlank c = false := by
  obtain rfl | rfl := mem_directories_climb (List.mem_of_mem_head? h) <;> decide

/-- The directory begins as the path of its document does, which has no blanks in front. -/
theorem WithinRoot.not_blank_of_directories {p : DocumentPath} {base : List Text} {name : Text}
    {n : Nat} {c : Char} (h : WithinRoot p) (hname : p.text.toList = directories base ++ name)
    (hc : (directories (base ++ climb n)).head? = some c) : Text.isBlank c = false := by
  rw [directories_append, List.head?_append, Option.or_eq_some_iff] at hc
  obtain hc | ⟨-, hc⟩ := hc
  · refine Text.not_blank_of_head?_trim (t := p.text.toList) ?_
    rw [h.trim_text, hname, List.head?_append, hc]
    rfl
  · exact not_blank_of_climb hc

theorem WithinRoot.backslash_not_mem_directories {p : DocumentPath} {base : List Text} {name : Text}
    {n : Nat} (h : WithinRoot p) (hname : p.text.toList = directories base ++ name) :
    '\\' ∉ directories (base ++ climb n) := by
  rw [directories_append, List.mem_append]
  rintro (hmem | hmem)
  · exact h.backslash_not_mem (hname ▸ List.mem_append_left _ hmem)
  · obtain hback | hback := mem_directories_climb hmem <;> cases hback

/-- What climbs out of a directory is put behind it. -/
theorem join_climb {p : DocumentPath} {specifier : String} {base : List Text} {n : Nat} {rest : Text}
    (hparent : p.parent = List.intercalate ['/'] base) (hbase : ∀ s ∈ base, IsStep s)
    (hspecifier : specifier.toList = directories (climb n) ++ rest)
    (hhead : rest.head? ≠ some '/') (hend : Text.trimEnd rest = rest) :
    p.join specifier = ofText (directories (base ++ climb n) ++ rest) := by
  have htrim : Text.trim specifier.toList = directories (climb n) ++ rest := by
    rw [hspecifier]
    exact trim_directories (climb_ne_nil n) (fun _ hc => not_blank_of_climb hc) hend
  have hclimb : ∀ s ∈ climb n, s ≠ [] ∧ '/' ∉ s := fun s hs => slashless_of_mem_climb hs
  have hslash : (Text.trim specifier.toList).head? ≠ some '/' := by
    rw [htrim]
    exact head?_directories hclimb hhead
  have hlocal : isRemote (Text.trim specifier.toList) = false := by
    rw [htrim]
    exact isRemote_directories (climb_ne_nil n) hclimb hhead
  rw [join_directories hparent hbase hslash hlocal, htrim, directories_append, List.append_assoc]

/-- Each climb takes one step back. -/
theorem foldl_climb {absolute : Bool} {n : Nat} {before : List Text} (hn : n ≤ before.length)
    (h : ∀ s ∈ before, IsStep s) : (climb n).foldl (addSegment absolute) before = before.drop n := by
  have hups : (List.replicate n up).foldl (addSegment absolute) before = before.drop n := by
    induction n generalizing before with
    | zero => rfl
    | succ n ih =>
      obtain ⟨s, before, rfl⟩ := List.exists_cons_of_length_pos (Nat.zero_lt_of_lt hn)
      rw [List.forall_mem_cons] at h
      have hback : addSegment absolute (s :: before) up = before := if_pos h.1.ne_up
      rw [List.replicate_succ, List.foldl_cons, hback, List.drop_succ_cons]
      exact ih (Nat.le_of_succ_le_succ hn) h.2
  unfold climb
  split
  · rename_i hzero
    rw [hzero]
    rfl
  · exact hups

end DocumentPath

namespace Completion

open DocumentPath

theorem commonLength_le (base goal : List Text) : commonLength base goal ≤ base.length := by
  fun_induction commonLength base goal with
  | case1 as b bs ih => exact Nat.succ_le_succ ih
  | case2 => exact Nat.zero_le _
  | case3 => exact Nat.zero_le _

/-- Two paths agree up to where they part. -/
theorem take_commonLength (base goal : List Text) :
    base.take (commonLength base goal) = goal.take (commonLength base goal) := by
  fun_induction commonLength base goal with
  | case1 as b bs ih => rw [List.take_succ_cons, List.take_succ_cons, ih]
  | case2 => rfl
  | case3 => rfl

/-- A specifier climbs up to where the paths part, and goes down from there. -/
theorem toList_relativeSpecifier {source target : DocumentPath} {base goal : List Text}
    (hbase : (Text.split '/' source.parent).filter (!·.isEmpty) = base)
    (hgoal : (Text.split '/' target.text.toList).filter (!·.isEmpty) = goal) :
    (relativeSpecifier source target).toList =
      directories (climb (base.length - commonLength base goal)) ++
        List.intercalate ['/'] (goal.drop (commonLength base goal)) := by
  subst hbase hgoal
  simp only [relativeSpecifier, climb]
  split
  · rw [String.toList_ofList]
    rfl
  · rw [String.toList_ofList, directories, List.flatMap_replicate]
    rfl

/-- Normalization cancels the climbs against the directory. -/
theorem normalSegments_climb (absolute : Bool) {base goal : List Text}
    (hbase : ∀ s ∈ base, IsStep s) (hgoal : ∀ s ∈ goal, IsStep s) :
    normalSegments absolute (directories (base ++ climb (base.length - commonLength base goal)) ++
      List.intercalate ['/'] (goal.drop (commonLength base goal))) = goal := by
  have hslash : ∀ s ∈ base ++ climb (base.length - commonLength base goal), '/' ∉ s := by
    intro s hs
    obtain hs | hs := List.mem_append.mp hs
    · exact (hbase s hs).slashless
    · exact (slashless_of_mem_climb hs).2
  have hrest : ∀ s ∈ goal.drop (commonLength base goal), IsStep s := fun s hs =>
    hgoal s (List.mem_of_mem_drop hs)
  have hback : ∀ s ∈ base.reverse, IsStep s := fun s hs => hbase s (List.mem_reverse.mp hs)
  have hcommon : base.length - (base.length - commonLength base goal) = commonLength base goal :=
    Nat.sub_sub_self (commonLength_le base goal)
  rw [normalSegments, directories, Text.split_flatMap_append hslash, List.foldl_append,
    List.foldl_append, foldl_steps hbase, List.append_nil,
    foldl_climb (by rw [List.length_reverse]; exact Nat.sub_le _ _) hback,
    foldl_split_intercalate hrest, List.drop_reverse, hcommon, List.reverse_append,
    List.reverse_reverse, List.reverse_reverse, take_commonLength, List.take_append_drop]

/-- A suggested specifier reaches the document that it is suggested for. -/
theorem join_relativeSpecifier (source target : DocumentPath) (hsource : WithinRoot source)
    (htarget : WithinRoot target) : source.join (relativeSpecifier source target) = target := by
  obtain ⟨base, name, hname, hparent, hbase⟩ := hsource.exists_parent
  obtain ⟨goal, htext, hgoal⟩ := htarget.exists_steps
  have hspecifier := toList_relativeSpecifier (hparent ▸ filter_split_intercalate hbase)
    (htext ▸ filter_split_intercalate hgoal)
  have hnormal := normalSegments_climb false hbase hgoal
  generalize base.length - commonLength base goal = n at hspecifier hnormal
  generalize commonLength base goal = k at hspecifier hnormal
  have hrest : ∀ s ∈ goal.drop k, IsStep s := fun s hs => hgoal s (List.mem_of_mem_drop hs)
  have hend := htarget.trimEnd_drop htext k
  have hhead := head?_intercalate_steps hrest
  rw [join_climb hparent hbase hspecifier hhead hend]
  have hstart : ∀ c ∈ (directories (base ++ climb n)).head?, Text.isBlank c = false := fun _ hc =>
    hsource.not_blank_of_directories hname hc
  have hback : '\\' ∉ directories (base ++ climb n) ++ List.intercalate ['/'] (goal.drop k) := by
    rw [List.mem_append, not_or]
    refine ⟨hsource.backslash_not_mem_directories hname, fun h => ?_⟩
    exact htarget.backslash_not_mem
      (htext ▸ (Text.intercalate_sublist (List.drop_sublist k goal)).mem h)
  have hsegments : ∀ s ∈ base ++ climb n, s ≠ [] ∧ '/' ∉ s :=
    List.forall_mem_append.mpr ⟨fun s hs => ⟨(hbase s hs).ne_nil, (hbase s hs).slashless⟩,
      fun s hs => slashless_of_mem_climb hs⟩
  have hne : base ++ climb n ≠ [] := List.append_ne_nil_of_right_ne_nil _ (climb_ne_nil n)
  refine text_injective (String.toList_injective ?_)
  rw [toList_text_ofText, normalText_directories hne hsegments hhead hback
    (trim_directories hne hstart hend), hnormal, htext]

theorem join_relativeSpecifier_above :
    let source := DocumentPath.ofString "a/b/main.ec"
    let target := DocumentPath.ofString "a"
    WithinRoot source ∧ WithinRoot target ∧ source.join (relativeSpecifier source target) = target :=
  have hsource : WithinRoot (DocumentPath.ofString "a/b/main.ec") :=
    ⟨by decide, by decide, by decide, by decide⟩
  have htarget : WithinRoot (DocumentPath.ofString "a") :=
    ⟨by decide, by decide, by decide, by decide⟩
  ⟨hsource, htarget, join_relativeSpecifier _ _ hsource htarget⟩

end Completion

end EventCatalog
