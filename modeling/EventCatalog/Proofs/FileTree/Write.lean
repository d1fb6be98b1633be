import EventCatalog.FileTree
import EventCatalog.Proofs.Scope.Picking
import Mathlib.Data.List.DropRight

/-! # Writing to files

Where a file stands, writing gives it another content and changes nothing else: no name appears or
vanishes (`Alike`), and every other file keeps what it holds (`Rewritten`).  The path that a file is
read at is also the one it is written at (`write_of_find`), whatever detours the path makes. -/

namespace EventCatalog.FileTree

variable {α : Type}

/-! ### Entries -/

theorem lookup_setEntry (name other : String) (tree : FileTree α)
    (entries : List (String × FileTree α)) :
    (setEntry name tree entries).lookup other =
      if other = name then some tree else entries.lookup other := by
  induction entries with
  | nil => rw [setEntry, lookup_cons_eq]
  | cons entry entries ih =>
    obtain ⟨n, t⟩ := entry
    by_cases hn : n = name
    · subst hn
      simp only [setEntry, if_true, lookup_cons_eq]
      split <;> rfl
    · simp only [setEntry, if_neg hn, lookup_cons_eq, ih]
      split
      · rename_i h
        rw [if_neg (h ▸ hn)]
      · rfl

theorem outlineOf_setEntry {wanted : String → Bool} {name : String} {old new : FileTree α}
    {entries : List (String × FileTree α)} (h : entries.lookup name = some old)
    (hold : new.outline wanted = old.outline wanted) :
    outlineOf wanted (setEntry name new entries) = outlineOf wanted entries := by
  induction entries with
  | nil => cases h
  | cons entry entries ih =>
    obtain ⟨n, t⟩ := entry
    rw [lookup_cons_eq] at h
    by_cases hn : n = name
    · subst hn
      obtain rfl : t = old := by simpa using h
      simp only [setEntry, if_true, outlineOf, hold]
    · rw [if_neg (Ne.symm hn)] at h
      simp only [setEntry, if_neg hn, outlineOf, ih h]

/-! ### Putting a file -/

theorem node?_putFile (content : α) (names : List String) (tree : FileTree α) :
    node? names (putFile content names tree) = some (file content) := by
  induction names generalizing tree with
  | nil => rfl
  | cons name names ih =>
    cases tree with
    | file old => simpa [putFile, node?, lookup_cons_eq] using ih (.directory [])
    | directory entries => simpa [putFile, node?, lookup_setEntry] using ih _

/-- What leads on to a file is a directory, and the next name leads to an entry of it. -/
theorem entry_of_node? {name : String} {names : List String} {tree found : FileTree α}
    (h : node? (name :: names) tree = some found) :
    ∃ entries inner, tree = directory entries ∧ entries.lookup name = some inner ∧
      node? names inner = some found := by
  cases tree with
  | file old => cases h
  | directory entries =>
    obtain ⟨inner, hlookup, hinner⟩ := Option.bind_eq_some_iff.mp h
    exact ⟨entries, inner, rfl, hlookup, hinner⟩

theorem node?_putFile_of_ne {names other : List String} {tree : FileTree α} {old kept : α}
    (content : α) (hold : node? names tree = some (file old))
    (hkept : node? other tree = some (file kept)) (hne : other ≠ names) :
    node? other (putFile content names tree) = some (file kept) := by
  induction names generalizing other tree with
  | nil =>
    obtain rfl : tree = file old := by simpa [node?] using hold
    cases other with
    | nil => exact absurd rfl hne
    | cons _ _ => cases hkept
  | cons name names ih =>
    obtain ⟨entries, inner, rfl, hlookup, hinner⟩ := entry_of_node? hold
    cases other with
    | nil => cases hkept
    | cons n ns =>
      obtain ⟨_, inner', hdir, hlookup', hinner'⟩ := entry_of_node? hkept
      cases hdir
      simp only [putFile, node?, lookup_setEntry, hlookup, Option.getD_some]
      by_cases hn : n = name
      · subst hn
        obtain rfl : inner = inner' := by simpa [hlookup] using hlookup'
        simpa using ih hinner hinner' fun h => hne (h ▸ rfl)
      · simpa [hn, hlookup'] using hinner'

theorem outline_putFile {wanted : String → Bool} {names : List String} {tree : FileTree α} {old : α}
    (content : α) (hold : node? names tree = some (file old)) :
    (putFile content names tree).outline wanted = tree.outline wanted := by
  induction names generalizing tree with
  | nil =>
    obtain rfl : tree = file old := by simpa [node?] using hold
    rfl
  | cons name names ih =>
    obtain ⟨entries, inner, rfl, hlookup, hinner⟩ := entry_of_node? hold
    simp only [putFile, outline, hlookup, Option.getD_some]
    rw [outlineOf_setEntry hlookup (ih hinner)]

/-! ### Trees with the same names -/

/-- Whatever is wanted. -/
def anyName (_ : String) : Bool := true

mutual

/-- The tree of names tells which names are wanted. -/
theorem outline_outline (wanted : String → Bool) :
    ∀ t : FileTree α, (t.outline anyName).outline wanted = t.outline wanted
  | file _ => rfl
  | directory entries => by simp only [outline, outlineOf_outlineOf wanted entries]

theorem outlineOf_outlineOf (wanted : String → Bool) :
    ∀ entries : List (String × FileTree α),
      outlineOf wanted (outlineOf anyName entries) = outlineOf wanted entries
  | [] => rfl
  | (name, t) :: entries => by
    simp only [outlineOf, anyName, if_true, outline_outline wanted t,
      outlineOf_outlineOf wanted entries]

end

@[simp] theorem kind_outline (wanted : String → Bool) (t : FileTree α) :
    (t.outline wanted).kind = t.kind := by cases t <;> rfl

theorem lookup_outlineOf (entries : List (String × FileTree α)) (name : String) :
    (outlineOf anyName entries).lookup name = (entries.lookup name).map (outline anyName) := by
  induction entries with
  | nil => rfl
  | cons entry entries ih =>
    obtain ⟨n, t⟩ := entry
    simp only [outlineOf, anyName, if_true, lookup_cons_eq, ih]
    split <;> rfl

theorem node?_outline (names : List String) (t : FileTree α) :
    node? names (t.outline anyName) = (node? names t).map (outline anyName) := by
  induction names generalizing t with
  | nil => rfl
  | cons name names ih =>
    cases t with
    | file _ => rfl
    | directory entries =>
      simp only [outline, node?, lookup_outlineOf]
      cases entries.lookup name with
      | none => rfl
      | some inner => exact ih inner

/-- The same names stand at the same places in both trees. -/
def Alike (s t : FileTree α) : Prop := s.outline anyName = t.outline anyName

namespace Alike

variable {s t u : FileTree α}

theorem refl (t : FileTree α) : Alike t t := rfl

theorem trans (h : Alike s t) (h' : Alike t u) : Alike s u := Eq.trans h h'

theorem kind_eq (h : Alike s t) : s.kind = t.kind := by
  rw [← kind_outline anyName s, h, kind_outline]

theorem outline_eq (h : Alike s t) (wanted : String → Bool) :
    s.outline wanted = t.outline wanted := by
  rw [← outline_outline wanted s, h, outline_outline]

theorem node?_eq (h : Alike s t) (names : List String) :
    (node? names s).map (outline anyName) = (node? names t).map (outline anyName) := by
  rw [← node?_outline, h, node?_outline]

/-- Segments lead to the same names. -/
theorem follow_eq (h : Alike s t) (here : List String) (segments : List Text) :
    follow s here segments = follow t here segments := by
  induction segments generalizing here with
  | nil => rfl
  | cons segment segments ih =>
    have hnode := h.node?_eq here.reverse
    simp only [follow, ih]
    cases hs : node? here.reverse s with
    | none =>
      rw [hs, Option.map_none, eq_comm, Option.map_eq_none_iff] at hnode
      rw [hnode]
    | some a =>
      rw [hs, Option.map_some, eq_comm, Option.map_eq_some_iff] at hnode
      obtain ⟨b, hb, hab⟩ := hnode
      have hkind : b.kind = a.kind := kind_eq hab
      rw [hb]
      cases a <;> cases b <;> first | rfl | cases hkind

/-- What stands at a path is alike. -/
theorem find_eq (h : Alike s t) (here : List String) (path : Text) :
    (s.find here path).map (outline anyName) = (t.find here path).map (outline anyName) := by
  simp only [find, h.follow_eq]
  cases checkPath path with
  | error e => rfl
  | ok _ =>
    cases hnames : follow t (start here path) (Text.split '/' path) with
    | error e => rfl
    | ok names =>
      have hnode := h.node?_eq names
      simp only [bind, Except.bind]
      cases hs : node? names s with
      | none =>
        rw [hs, Option.map_none, eq_comm, Option.map_eq_none_iff] at hnode
        rw [hnode]
      | some a =>
        rw [hs, Option.map_some, eq_comm, Option.map_eq_some_iff] at hnode
        obtain ⟨b, hb, hab⟩ := hnode
        rw [hb]
        exact congrArg Except.ok hab.symm

end Alike

/-! ### Paths to files -/

variable {here : List String}

theorem find_eq_ok {tree found : FileTree α} {path : Text} (h : tree.find here path = .ok found) :
    checkPath path = .ok () ∧ ∃ names,
      follow tree (start here path) (Text.split '/' path) = .ok names ∧
      node? names tree = some found := by
  simp only [find, bind, Except.bind] at h
  cases hcheck : checkPath path with
  | error e => simp [hcheck] at h
  | ok _ =>
    cases hnames : follow tree (start here path) (Text.split '/' path) with
    | error e => simp [hcheck, hnames] at h
    | ok names =>
      refine ⟨rfl, names, rfl, ?_⟩
      simp only [hcheck, hnames] at h
      split at h
      · rename_i hnode
        cases h
        exact hnode
      · cases h

theorem find_of_node? {tree found : FileTree α} {path : Text} {names : List String}
    (hcheck : checkPath path = .ok ())
    (hnames : follow tree (start here path) (Text.split '/' path) = .ok names)
    (hnode : node? names tree = some found) : tree.find here path = .ok found := by
  simp [find, hcheck, hnames, hnode, bind, Except.bind]

theorem follow_append (tree : FileTree α) (here : List String) (segments more : List Text) :
    follow tree here (segments ++ more) =
      (follow tree here segments).bind fun names => follow tree names.reverse more := by
  induction segments generalizing here with
  | nil => simp [follow, Except.bind]
  | cons segment segments ih =>
    simp only [List.cons_append, follow, ih]
    repeat' split
    all_goals rfl

/-- Where a directory is, the directory above it is too. -/
theorem not_file_of_directory_below {tree : FileTree α} {above : List String} {name : String}
    {entries : List (String × FileTree α)} {content : α}
    (h : node? (above ++ [name]) tree = some (directory entries)) :
    node? above tree ≠ some (file content) := by
  intro hfile
  induction above generalizing tree with
  | nil =>
    obtain rfl : tree = file content := by simpa [node?] using hfile
    cases h
  | cons n above ih =>
    obtain ⟨es, inner, rfl, hlookup, hinner⟩ := entry_of_node? hfile
    simp only [List.cons_append, node?, hlookup, Option.bind_some] at h
    exact ih h hinner

/-- A path to a file ends with the name of the file in a directory. -/
theorem exists_name_of_file {tree : FileTree α} {segments : List Text} {names : List String}
    {content : α} (hne : segments ≠ []) (hnames : follow tree here segments = .ok names)
    (hfile : node? names tree = some (file content)) :
    ∃ before last above entries, segments = before ++ [last] ∧
      follow tree here before = .ok above ∧ node? above tree = some (directory entries) ∧
      FilePath.isName last = true ∧ last ≠ ['.', '.'] ∧ Text.size last ≤ 255 ∧
      names = above ++ [String.ofList last] := by
  obtain ⟨before, last, rfl⟩ := (List.eq_nil_or_concat' segments).resolve_left hne
  rw [follow_append] at hnames
  cases habove : follow tree here before with
  | error e => simp [habove, Except.bind] at hnames
  | ok above =>
    simp only [habove, Except.bind, follow, List.reverse_reverse] at hnames
    split at hnames
    · cases hnames
    · cases hnames
    · rename_i entries hentries
      split at hnames
      · cases hnames
        simp [hentries] at hfile
      · rename_i hname
        split at hnames
        · -- A segment that leads back leads to a directory.
          cases hnames
          obtain rfl | ⟨above', name, rfl⟩ := List.eq_nil_or_concat' above
          · rw [List.reverse_nil, List.tail_nil, List.reverse_nil, hentries] at hfile
            cases hfile
          · rw [List.reverse_append, List.reverse_singleton, List.singleton_append, List.tail_cons,
              List.reverse_reverse] at hfile
            exact absurd hfile (not_file_of_directory_below hentries)
        · rename_i hdots
          split at hnames
          · cases hnames
          · rename_i hsize
            cases hnames
            exact ⟨before, last, above, entries, rfl, habove, hentries, by simpa using hname, hdots,
              by omega, by simp⟩

theorem ne_nil_of_isName {segment : Text} (h : FilePath.isName segment = true) :
    segment ≠ [] ∧ segment ≠ ['.'] := by
  simpa [FilePath.isName] using h

/-- A file is written where it is read, and its path still leads there. -/
theorem write_of_find {tree : FileTree α} {path : Text} {old : α} (content : α)
    (h : tree.find here path = .ok (file old)) :
    ∃ names, follow tree (start here path) (Text.split '/' path) = .ok names ∧
      node? names tree = some (file old) ∧
      tree.write here path content = .ok (tree.putFile content names) := by
  obtain ⟨hcheck, names, hnames, hnode⟩ := find_eq_ok h
  refine ⟨names, hnames, hnode, ?_⟩
  obtain ⟨before, last, above, entries, hsegments, habove, hentries, hname, hdots, hsize, rfl⟩ :=
    exists_name_of_file (Text.split_ne_nil '/' path) hnames hnode
  have hlast := ne_nil_of_isName hname
  have hbare : ((before ++ [last]).reverse.dropWhile (·.isEmpty)).reverse = before ++ [last] := by
    have hempty : last.isEmpty = false := by simpa using hlast.1
    simp [hempty]
  have hdirectory : follow tree (start here path) (before ++ [['.']]) = .ok above := by
    have hpoint : FilePath.isName ['.'] = false := rfl
    rw [follow_append, habove]
    simp [Except.bind, follow, hentries, hpoint]
  simp only [write, hcheck, hsegments, hbare, List.dropLast_concat, List.getLast?_concat,
    Option.getD_some, hdirectory, bind, Except.bind]
  rw [if_neg (by simp [hlast.2, hdots]), if_neg (by omega), hnode]

/-! ### What a write changes -/

/-- The content of a file has been replaced, and nothing else is different. -/
structure Rewritten (here : List String) (old new : FileTree α) (path : Text) (content : α) :
    Prop where
  alike : Alike old new
  replaced : new.read here path = .ok content
  elsewhere : ∀ other kept, old.read here other = .ok kept →
    new.read here other = .ok kept ∨ new.read here other = .ok content

theorem read_eq_ok {tree : FileTree α} {path : Text} {content : α} :
    tree.read here path = .ok content ↔ tree.find here path = .ok (file content) := by
  simp only [read, bind, Except.bind]
  constructor
  · intro h
    split at h
    · cases h
    · rename_i found hfound
      split at h
      · cases h
        exact hfound
      · cases h
  · intro h
    rw [h]

theorem rewritten_write {tree new : FileTree α} {path : Text} {old content : α}
    (hread : tree.read here path = .ok old) (hwrite : tree.write here path content = .ok new) :
    Rewritten here tree new path content := by
  rw [read_eq_ok] at hread
  obtain ⟨names, hnames, hnode, hwritten⟩ := write_of_find content hread
  obtain rfl : new = tree.putFile content names := by
    rw [hwrite] at hwritten
    cases hwritten
    rfl
  have halike : Alike tree (tree.putFile content names) := (outline_putFile content hnode).symm
  have hfind : ∀ {other : Text} {names' : List String} {kept : α}, checkPath other = .ok () →
      follow tree (start here other) (Text.split '/' other) = .ok names' →
      node? names' (tree.putFile content names) = some (file kept) →
      (tree.putFile content names).read here other = .ok kept := by
    intro other names' kept hcheck hfollow hkept
    rw [halike.follow_eq] at hfollow
    exact read_eq_ok.mpr (find_of_node? hcheck hfollow hkept)
  refine ⟨halike, hfind (find_eq_ok hread).1 hnames (node?_putFile _ _ _), ?_⟩
  intro other kept hother
  obtain ⟨hcheck, names', hnames', hkept⟩ := find_eq_ok (read_eq_ok.mp hother)
  by_cases hsame : names' = names
  · subst hsame
    exact .inr (hfind hcheck hnames' (node?_putFile _ _ _))
  · exact .inl (hfind hcheck hnames' (node?_putFile_of_ne content hnode hkept hsame))

end EventCatalog.FileTree
