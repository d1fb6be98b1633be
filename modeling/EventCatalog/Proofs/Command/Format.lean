import EventCatalog.Command
import EventCatalog.Proofs.FileTree.Write
import EventCatalog.Proofs.Layout.Stable
import Mathlib.Control.Basic

/-! # Files stay laid out

A file is settled if it holds a text that is its own layout.  Laying files out in place settles each
of them and unsettles none (`Settles`): a text that is written is a layout, and the layout of a
layout is the same text.  So a check of the same paths finds nothing to object to
(`format_stable`).  Several paths may lead to one file, which is why writing to one of them has to be
followed through all others. -/

namespace EventCatalog

namespace MonadFiles

theorem decode_toUTF8 (text : String) : decode text.toUTF8 = .ok text := by
  have hvalid : String.fromUTF8? text.toUTF8 = some text := by
    rw [String.fromUTF8?, String.toUTF8_eq_toByteArray, dif_pos text.isValidUTF8]
    rfl
  rw [decode, hvalid]

end MonadFiles

namespace Command

open FileTree

/-- What an action gives on a desk, and the desk behind it. -/
def onDesk {α : Type} (action : Run (StateM Desk) α) (desk : Desk) : Except Failure α × Desk :=
  StateT.run (ExceptT.run action) desk

variable {α β : Type}

theorem onDesk_bind (x : Run (StateM Desk) α) (f : α → Run (StateM Desk) β) (desk : Desk) :
    onDesk (x >>= f) desk =
      match onDesk x desk with
      | (.ok a, desk') => onDesk (f a) desk'
      | (.error e, desk') => (.error e, desk') := by
  simp only [onDesk, ExceptT.run_bind, StateT.run_bind]
  change (match StateT.run (ExceptT.run x) desk with | (r, d) => _) = _
  cases h : StateT.run (ExceptT.run x) desk with
  | mk r d => cases r <;> rfl

/-- The first action succeeded if both together did. -/
theorem exists_of_onDesk_bind {x : Run (StateM Desk) α} {f : α → Run (StateM Desk) β}
    {desk desk' : Desk} {b : β} (h : onDesk (x >>= f) desk = (.ok b, desk')) :
    ∃ a mid, onDesk x desk = (.ok a, mid) ∧ onDesk (f a) mid = (.ok b, desk') := by
  rw [onDesk_bind] at h
  split at h
  · rename_i a mid hx
    exact ⟨a, mid, hx, h⟩
  · cases h

theorem onDesk_lift (action : StateM Desk α) (desk : Desk) :
    onDesk (liftM action) desk = (.ok (action.run desk).1, (action.run desk).2) := rfl

theorem onDesk_orFail {ε : Type} (failure : ε → Failure) (action : StateM Desk (Except ε α))
    (desk : Desk) :
    onDesk (orFail failure action) desk =
      ((action.run desk).1.mapError failure, (action.run desk).2) := by
  simp only [orFail, onDesk_bind, onDesk_lift]
  cases (action.run desk).1 <;> rfl

/-! ### Reading and listing -/

/-- The text of the file at a path. -/
def textAt (desk : Desk) (path : Text) : Except FileError String :=
  (desk.read path).bind MonadFiles.decode

theorem onDesk_readDocument (path : Text) (desk : Desk) :
    onDesk (readDocument path) desk =
      ((textAt desk path).mapError (Failure.unreadable path), desk) :=
  onDesk_orFail _ _ _

/-- What is found on the way to a path, if anything is. -/
def kindAt (desk : Desk) (path : Text) : Option EntryKind :=
  (desk.find path).toOption.map (·.kind)

/-- The documents that a path means. -/
def documentsAt (desk : Desk) (root : Text) : Except Failure (List Text) :=
  if kindAt desk root = some .file then .ok [root]
  else match (desk.find root).map (outline fun name => !isHidden name) with
    | .ok found => .ok (found.documents.map (entryPath root))
    | .error e => .error (.unlistable root ⟨root, e⟩)

theorem onDesk_discover (root : Text) (desk : Desk) :
    onDesk (discover root) desk = (documentsAt desk root, desk) := by
  have hkind : (MonadFiles.isFile root : StateM Desk Bool).run desk =
      (kindAt desk root == some .file, desk) := rfl
  have hlist : ∀ wanted, (MonadFiles.list wanted root : StateM Desk _).run desk =
      (((desk.find root).map (outline wanted)).mapError (⟨root, ·⟩), desk) := by
    intro wanted
    simp only [MonadFiles.list, StateT.run_bind, StateT.run_get, pure_bind, StateT.run_pure]
    cases desk.find root <;> rfl
  simp only [discover, onDesk_bind, onDesk_lift, hkind, documentsAt, beq_iff_eq]
  by_cases h : kindAt desk root = some .file
  · simp only [h, if_true]
    rfl
  · simp only [h, if_false, onDesk_bind, onDesk_orFail, hlist]
    cases desk.find root <;> rfl

/-- Work is done in the same directory, and the same names stand at the same places. -/
structure DeskAlike (old new : Desk) : Prop where
  here : old.here = new.here
  tree : Alike old.tree new.tree

namespace DeskAlike

variable {old new last : Desk}

theorem refl (desk : Desk) : DeskAlike desk desk := ⟨rfl, .refl _⟩

theorem trans (h : DeskAlike old new) (h' : DeskAlike new last) : DeskAlike old last :=
  ⟨h.here.trans h'.here, h.tree.trans h'.tree⟩

/-- Desks that are alike have the same documents. -/
theorem documentsAt_eq (h : DeskAlike old new) (root : Text) :
    documentsAt old root = documentsAt new root := by
  have hfind : (old.find root).map (outline anyName) = (new.find root).map (outline anyName) := by
    rw [Desk.find, Desk.find, ← h.here]
    exact h.tree.find_eq old.here root
  unfold documentsAt kindAt
  cases hs : old.find root with
  | error e =>
    cases ht : new.find root with
    | error e' =>
      rw [hs, ht] at hfind
      cases hfind
      rfl
    | ok b => simp [hs, ht, Except.map] at hfind
  | ok a =>
    cases ht : new.find root with
    | error e' => simp [hs, ht, Except.map] at hfind
    | ok b =>
      rw [hs, ht] at hfind
      have hab : Alike a b := Except.ok.inj hfind
      simp only [Except.toOption, Except.map, Option.map_some, hab.kind_eq, hab.outline_eq]
      rfl

end DeskAlike

/-! ### One file -/

variable (config : Config)

/-- The file at a path holds a text that is its own layout. -/
def Settled (desk : Desk) (path : Text) : Prop :=
  ∃ text, textAt desk path = .ok text ∧ Layout.format config.indentWidth text = text

/-- Nothing but contents has changed, and what was settled still is. -/
structure Settles (old new : Desk) : Prop where
  alike : DeskAlike old new
  settled : ∀ path, Settled config old path → Settled config new path

variable {config}

theorem Settles.refl (desk : Desk) : Settles config desk desk := ⟨.refl _, fun _ h => h⟩

theorem Settles.trans {a b c : Desk} (h : Settles config a b) (h' : Settles config b c) :
    Settles config a c :=
  ⟨h.alike.trans h'.alike, fun path hp => h'.settled path (h.settled path hp)⟩

/-- A check has nothing to object to in a settled file. -/
theorem onDesk_check {desk : Desk} {path : Text} (h : Settled config desk path) :
    onDesk (formatFile config .check path) desk = (.ok false, desk) := by
  obtain ⟨text, htext, hformat⟩ := h
  simp only [formatFile, onDesk_bind, onDesk_readDocument, htext, Except.mapError, hformat,
    bne_self_eq_false]
  rfl

theorem run_write (path : Text) (text : String) (desk : Desk) :
    (MonadFiles.write path text : StateM Desk (Except FileError Unit)).run desk =
      match desk.tree.write desk.here path text.toUTF8 with
      | .ok tree => (.ok (), { desk with tree })
      | .error e => (.error e, desk) := by
  simp only [MonadFiles.write, StateT.run_bind, StateT.run_get, pure_bind]
  cases desk.tree.write desk.here path text.toUTF8 <;> rfl

/-- Writing the layout of a file settles it. -/
theorem settles_write {desk : Desk} {path : Text} {text : String} {tree : FileTree ByteArray}
    (htext : textAt desk path = .ok text)
    (hwrite : desk.tree.write desk.here path (Layout.format config.indentWidth text).toUTF8 =
      .ok tree) :
    Settles config desk { desk with tree } ∧ Settled config { desk with tree } path := by
  obtain ⟨old, hread⟩ : ∃ old, desk.read path = .ok old := by
    cases hread : desk.read path with
    | ok old => exact ⟨old, rfl⟩
    | error e => simp [textAt, hread, Except.bind] at htext
  have hnew := rewritten_write hread hwrite
  have hsettled : ∀ other,
      tree.read desk.here other = .ok (Layout.format config.indentWidth text).toUTF8 →
      Settled config { desk with tree } other := by
    intro other hother
    refine ⟨Layout.format config.indentWidth text, ?_, Layout.format_format _ _⟩
    simp only [textAt, Desk.read, hother, Except.bind, MonadFiles.decode_toUTF8]
  refine ⟨⟨⟨rfl, hnew.alike⟩, ?_⟩, hsettled path hnew.replaced⟩
  rintro other ⟨kept, hkept, hformat⟩
  cases hbytes : desk.read other with
  | error e => simp [textAt, hbytes, Except.bind] at hkept
  | ok bytes =>
    rw [textAt, hbytes] at hkept
    rcases hnew.elsewhere other bytes hbytes with hsame | hsame
    · exact ⟨kept, by rw [textAt, Desk.read, hsame]; exact hkept, hformat⟩
    · exact hsettled other hsame

theorem settles_formatFile {desk desk' : Desk} {path : Text} {b : Bool}
    (h : onDesk (formatFile config .write path) desk = (.ok b, desk')) :
    b = false ∧ Settles config desk desk' ∧ Settled config desk' path := by
  obtain ⟨text, mid, hread, hrest⟩ := exists_of_onDesk_bind h
  rw [onDesk_readDocument] at hread
  obtain ⟨htext, rfl⟩ : textAt desk path = .ok text ∧ desk = mid := by
    cases hat : textAt desk path with
    | error e => simp [hat, Except.mapError] at hread
    | ok t =>
      rw [hat, Prod.mk.injEq] at hread
      exact ⟨congrArg Except.ok (Except.ok.inj hread.1), hread.2⟩
  by_cases hsame : Layout.format config.indentWidth text = text
  · simp only [hsame, bne_self_eq_false, Bool.false_eq_true, if_false] at hrest
    cases hrest
    exact ⟨rfl, .refl _, text, htext, hsame⟩
  · have hchanged : (Layout.format config.indentWidth text != text) = true := by simpa using hsame
    simp only [hchanged, if_true] at hrest
    obtain ⟨_, mid, hwritten, hdone⟩ := exists_of_onDesk_bind hrest
    rw [onDesk_orFail, run_write] at hwritten
    cases hdone
    cases hwrite : desk.tree.write desk.here path
        (Layout.format config.indentWidth text).toUTF8 with
    | error e =>
      rw [hwrite] at hwritten
      cases hwritten
    | ok tree =>
      rw [hwrite] at hwritten
      cases hwritten
      exact ⟨rfl, settles_write htext hwrite⟩

/-! ### All files -/

theorem settles_files {desk desk' : Desk} {files acc kept : List Text}
    (h : onDesk (files.filterAuxM (formatFile config .write) acc) desk = (.ok kept, desk')) :
    kept = acc ∧ Settles config desk desk' ∧ ∀ path ∈ files, Settled config desk' path := by
  induction files generalizing desk acc with
  | nil =>
    cases h
    exact ⟨rfl, .refl _, by simp⟩
  | cons path files ih =>
    obtain ⟨b, mid, hfile, hrest⟩ := exists_of_onDesk_bind h
    obtain ⟨rfl, hstep, hpath⟩ := settles_formatFile hfile
    obtain ⟨hkept, hothers, hfiles⟩ := ih hrest
    refine ⟨hkept, hstep.trans hothers, ?_⟩
    intro other hother
    rcases List.mem_cons.mp hother with rfl | hother
    · exact hothers.settled _ hpath
    · exact hfiles other hother

theorem onDesk_check_files {desk : Desk} {files : List Text}
    (h : ∀ path ∈ files, Settled config desk path) (acc : List Text) :
    onDesk (files.filterAuxM (formatFile config .check) acc) desk = (.ok acc, desk) := by
  induction files with
  | nil => rfl
  | cons path files ih =>
    rw [List.filterAuxM, onDesk_bind, onDesk_check (h path List.mem_cons_self)]
    exact ih fun other hother => h other (List.mem_cons_of_mem _ hother)

/-- All documents that a path means are settled. -/
def RootSettled (config : Config) (desk : Desk) (root : Text) : Prop :=
  ∃ files, documentsAt desk root = .ok files ∧ ∀ path ∈ files, Settled config desk path

theorem RootSettled.mono {old new : Desk} {root : Text} (h : RootSettled config old root)
    (hstep : Settles config old new) : RootSettled config new root := by
  obtain ⟨files, hfiles, hall⟩ := h
  refine ⟨files, ?_, fun path hpath => hstep.settled path (hall path hpath)⟩
  rw [← hfiles, hstep.alike.documentsAt_eq]

theorem settles_formatRoot {desk desk' : Desk} {root : Text} {kept : List Text}
    (h : onDesk (formatRoot config .write root) desk = (.ok kept, desk')) :
    kept = [] ∧ Settles config desk desk' ∧ RootSettled config desk' root := by
  obtain ⟨files, mid, hfound, hrest⟩ := exists_of_onDesk_bind h
  rw [onDesk_discover, Prod.mk.injEq] at hfound
  obtain ⟨hfound, rfl⟩ := hfound
  obtain ⟨reversed, last, haux, hdone⟩ := exists_of_onDesk_bind hrest
  obtain ⟨rfl, hstep, hall⟩ := settles_files haux
  cases hdone
  refine ⟨rfl, hstep, files, ?_, hall⟩
  rw [← hfound, hstep.alike.documentsAt_eq]

theorem onDesk_check_root {desk : Desk} {root : Text} (h : RootSettled config desk root) :
    onDesk (formatRoot config .check root) desk = (.ok [], desk) := by
  obtain ⟨files, hfiles, hall⟩ := h
  rw [formatRoot, onDesk_bind, onDesk_discover, hfiles]
  simp only [List.filterM, onDesk_bind, onDesk_check_files hall]
  rfl

theorem settles_roots {desk desk' : Desk} {roots : List Text} {kept : List (List Text)}
    (h : onDesk (roots.mapM (formatRoot config .write)) desk = (.ok kept, desk')) :
    kept.flatten = [] ∧ Settles config desk desk' ∧
      ∀ root ∈ roots, RootSettled config desk' root := by
  induction roots generalizing desk kept with
  | nil =>
    cases h
    exact ⟨rfl, .refl _, by simp⟩
  | cons root roots ih =>
    rw [List.mapM_cons] at h
    obtain ⟨kept₁, mid, hroot, hrest⟩ := exists_of_onDesk_bind h
    obtain ⟨kept₂, last, hroots, hdone⟩ := exists_of_onDesk_bind hrest
    obtain ⟨rfl, hstep, hsettled⟩ := settles_formatRoot hroot
    cases hdone
    obtain ⟨hkept, hothers, hall⟩ := ih hroots
    refine ⟨by simpa using hkept, hstep.trans hothers, ?_⟩
    intro other hother
    rcases List.mem_cons.mp hother with rfl | hother
    · exact hsettled.mono hothers
    · exact hall other hother

theorem onDesk_check_roots {desk : Desk} {roots : List Text}
    (h : ∀ root ∈ roots, RootSettled config desk root) :
    onDesk (roots.mapM (formatRoot config .check)) desk = (.ok (roots.map fun _ => []), desk) := by
  induction roots with
  | nil => rfl
  | cons root roots ih =>
    rw [List.mapM_cons, onDesk_bind, onDesk_check_root (h root List.mem_cons_self)]
    simp only [onDesk_bind, ih fun other hother => h other (List.mem_cons_of_mem _ hother)]
    rfl

/-- A check of paths whose documents are all settled has nothing to object to. -/
theorem onDesk_perform_check {desk : Desk} {roots : List Text}
    (h : ∀ root ∈ roots, RootSettled config desk root) :
    onDesk (perform config (.format roots .check)) desk = (.ok (), desk) := by
  have hnone : (roots.map fun _ => ([] : List Text)).flatten.isEmpty = true := by simp
  simp only [perform, onDesk_bind, onDesk_check_roots h, hnone]
  rfl

/-- Laying out a layout changes no text, so a check that follows the writing of layouts to the
documents of some paths ends as the writing ended and changes no file: it has nothing to object
to. -/
theorem format_stable :
    (∀ width source, Layout.format width (Layout.format width source) =
      Layout.format width source) ∧
    ∀ (config : Config) (paths : List Text) (desk : Desk),
      onDesk (do perform config (.format paths .write); perform config (.format paths .check)) desk =
        onDesk (perform config (.format paths .write)) desk := by
  refine ⟨Layout.format_format, fun config paths desk => ?_⟩
  rw [onDesk_bind]
  cases h : onDesk (perform config (.format paths .write)) desk with
  | mk result desk' =>
    cases result with
    | error e => rfl
    | ok _ =>
      obtain ⟨kept, mid, hroots, hdone⟩ := exists_of_onDesk_bind h
      obtain ⟨hkept, -, hsettled⟩ := settles_roots hroots
      rw [hkept] at hdone
      cases hdone
      exact onDesk_perform_check hsettled

end Command

end EventCatalog
