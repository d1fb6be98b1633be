import EventCatalog.Proofs.Workspace.Run

/-! # Edits that arrive in any order

Clients send each edit with the version it makes of its document, and edits may be delivered late,
in any order and more than once.  The version that a workspace holds for a path only grows, so what
is left in the end is the newest edit of each path (`Workspace.delivered_settled`), and two
workspaces that got the same edits are indistinguishable (`Workspace.edits_converge`). -/

namespace EventCatalog

namespace Workspace

/-! ### Edits -/

/-- An edit as a client sends it. -/
structure Edit where
  /-- The path as the client writes it. -/
  path : String
  text : String
  version : Nat
deriving DecidableEq, Repr

namespace Edit

/-- The path that is edited. -/
def target (e : Edit) : DocumentPath := .ofString e.path

/-- What is asked of a workspace when the edit is delivered. -/
def request (e : Edit) : Request := .update e.target e.text e.version

/-- Some edit of the highest version for its path. -/
structure IsNewest (edits : List Edit) (e : Edit) : Prop where
  mem : e ∈ edits
  le : ∀ f ∈ edits, f.target = e.target → f.version ≤ e.version

/-- Two texts of one document have two versions. -/
def Consistent (edits : List Edit) : Prop :=
  ∀ e ∈ edits, ∀ f ∈ edits, e.target = f.target → e.version = f.version → e.text = f.text

instance (edits : List Edit) : Decidable (Consistent edits) :=
  inferInstanceAs (Decidable (∀ e ∈ edits, ∀ f ∈ edits,
    e.target = f.target → e.version = f.version → e.text = f.text))

theorem IsNewest.of_mem_iff {edits edits' : List Edit} (hsame : ∀ e, e ∈ edits ↔ e ∈ edits')
    {e : Edit} (h : IsNewest edits e) : IsNewest edits' e where
  mem := (hsame e).mp h.mem
  le f hf hpath := h.le f ((hsame f).mpr hf) hpath

/-- The newest edits of a path have one text and one version. -/
theorem Consistent.eq_of_isNewest {edits : List Edit} (h : Consistent edits) {e f : Edit}
    (he : IsNewest edits e) (hf : IsNewest edits f) (hpath : e.target = f.target) :
    e.text = f.text ∧ e.version = f.version := by
  have hef := hf.le e he.mem hpath
  have hfe := he.le f hf.mem hpath.symm
  have hversion : e.version = f.version := by omega
  exact ⟨h e he.mem f hf.mem hpath hversion, hversion⟩

/-- An older edit changes nothing about which edits are newest. -/
theorem IsNewest.append_of_le {edits : List Edit} {e f : Edit} (h : IsNewest edits e)
    (hf : f.target = e.target → f.version ≤ e.version) : IsNewest (edits ++ [f]) e where
  mem := List.mem_append_left _ h.mem
  le g hg hpath := by
    rcases List.mem_append.mp hg with hg | hg
    · exact h.le g hg hpath
    · obtain rfl := List.mem_singleton.mp hg
      exact hf hpath

end Edit

open Edit

/-! ### Workspaces that hold the same texts -/

namespace Holds

variable {w w' : Workspace} {texts : OpenTexts}

theorem mem_paths (h : w.Holds texts) (path : DocumentPath) :
    path ∈ w.paths ↔ (texts path).isSome = true := by
  rw [← h.isOpen_eq, isOpen_iff h.sorted, paths, List.mem_map]

/-- The text at a path is the text that was opened there. -/
theorem text?_eq (h : w.Holds texts) (path : DocumentPath) : w.text? path = texts path := by
  have hopen := h.isOpen_eq path
  obtain ⟨before, d, after, hcut, hpath, hsearch⟩ | ⟨before, after, -, -, -, hsearch⟩ :=
    Position.search_spec h.sorted path
  · have hdocument : w.document? path = some d := by
      rw [document?, position, hsearch, hcut]
      simp
    have hd : d ∈ w.documents := by
      rw [hcut]
      exact List.mem_append_right _ List.mem_cons_self
    obtain ⟨text, htext, hread⟩ := (h.documents d).mp hd
    rw [text?, hdocument, ← hpath, htext, hread]
    rfl
  · rw [isOpen, position, hsearch] at hopen
    rw [text?, document?, position, hsearch]
    exact (Option.isNone_iff_eq_none.mp (Option.isSome_eq_false_iff.mp hopen.symm)).symm

/-- The documents are determined by the open texts. -/
theorem documents_unique (h : w.Holds texts) (h' : w'.Holds texts) :
    w.documents = w'.documents :=
  h.sorted.eq_of_mem_iff h'.sorted fun d => (h.documents d).trans (h'.documents d).symm

/-- So is what is answered from their link. -/
theorem answers_unique (h : w.Holds texts) (h' : w'.Holds texts) (hconfig : w.config = w'.config) :
    (w.perform .graph).1 = (w'.perform .graph).1 ∧
      ∀ path, (w.perform (.diagnostics path)).1 = (w'.perform (.diagnostics path)).1 := by
  obtain ⟨m, hlink⟩ := h.fst_link
  obtain ⟨n, hlink'⟩ := h'.fst_link
  rw [hconfig, h.documents_unique h'] at hlink
  have hgraph : w.link.1.graph = w'.link.1.graph := by
    rw [hlink, hlink']
    exact Linked.graph_link _ m n _
  have hdiagnostics : w.link.1.diagnostics = w'.link.1.diagnostics := by
    rw [hlink, hlink']
    exact Linked.diagnostics_link _ m n _
  exact ⟨congrArg Answer.graph hgraph,
    fun path => congrArg (fun ds => Answer.diagnostics (FileDiagnostic.of path ds)) hdiagnostics⟩

end Holds

/-! ### Delivering edits -/

/-- The workspace behind some edits. -/
def delivered (w : Workspace) (edits : List Edit) : Workspace := w.behind (edits.map request)

theorem delivered_append_singleton (w : Workspace) (edits : List Edit) (e : Edit) :
    w.delivered (edits ++ [e]) = (w.delivered edits).update e.target e.text e.version := by
  rw [delivered, List.map_append, behind_append]
  rfl

theorem version?_update_of_newer {w : Workspace} {path : DocumentPath} {text : String}
    {version : Nat} (hnewer : w.isNewer path version = true) (q : DocumentPath) :
    (w.update path text version).version? q = if q = path then some version else w.version? q := by
  rw [update, if_pos hnewer]
  change ((path, version) :: w.otherVersions path).lookup q = _
  rw [List.lookup_cons, Holds.lookup_otherVersions]
  by_cases hq : q = path
  · rw [if_pos hq, if_pos hq, hq, beq_self_eq_true]
  · rw [beq_false_of_ne hq, if_neg hq, if_neg hq]

/-- The text and the version at a path are those of its newest edit, and nothing is there if it was
not edited. -/
def Settled (edits : List Edit) (path : DocumentPath) (text : Option String)
    (version : Option Nat) : Prop :=
  (∃ e : Edit, e.IsNewest edits ∧ e.target = path ∧ text = some e.text ∧ version = some e.version) ∨
    (∀ e ∈ edits, e.target ≠ path) ∧ text = none ∧ version = none

namespace Settled

variable {edits edits' : List Edit} {path : DocumentPath} {text text' : Option String}
  {version version' : Option Nat}

/-- A path stays settled by an edit of another path and by one that is not newer than what is held. -/
theorem keep (h : Settled edits path text version) {e : Edit}
    (hold : e.target = path → ∃ held, version = some held ∧ e.version ≤ held) :
    Settled (edits ++ [e]) path text version := by
  obtain ⟨f, hf, hpath, htext, hversion⟩ | ⟨hnone, htext, hversion⟩ := h
  · refine .inl ⟨f, hf.append_of_le fun he => ?_, hpath, htext, hversion⟩
    obtain ⟨held, hheld, hle⟩ := hold (he.trans hpath)
    rw [hversion] at hheld
    exact Option.some.inj hheld ▸ hle
  · refine .inr ⟨List.forall_mem_append.mpr ⟨hnone, List.forall_mem_singleton.mpr fun he => ?_⟩,
      htext, hversion⟩
    obtain ⟨held, hheld, -⟩ := hold he
    rw [hversion] at hheld
    cases hheld

/-- An edit that is newer than what is held settles its path. -/
theorem replace {e : Edit} (h : Settled edits e.target text version)
    (hnewer : ∀ held, version = some held → held < e.version) :
    Settled (edits ++ [e]) e.target (some e.text) (some e.version) := by
  have hle : ∀ g ∈ edits, g.target = e.target → g.version ≤ e.version := by
    intro g hg hpath
    obtain ⟨f, hf, hf', -, hversion⟩ | ⟨hnone, -, -⟩ := h
    · exact (hf.le g hg (hpath.trans hf'.symm)).trans (hnewer _ hversion).le
    · exact absurd hpath (hnone g hg)
  refine .inl ⟨e, ⟨List.mem_append_right _ List.mem_cons_self, ?_⟩, rfl, rfl, rfl⟩
  exact List.forall_mem_append.mpr ⟨hle, List.forall_mem_singleton.mpr fun _ => le_rfl⟩

/-- One more edit settles its own path and leaves the others as they are. -/
theorem append_singleton {w : Workspace} {texts : OpenTexts} (h : w.Holds texts)
    (hsettled : ∀ path, Settled edits path (texts path) (w.version? path)) (e : Edit) :
    ∃ texts' : OpenTexts, (w.update e.target e.text e.version).Holds texts' ∧
      ∀ path, Settled (edits ++ [e]) path (texts' path)
        ((w.update e.target e.text e.version).version? path) := by
  cases hnewer : w.isNewer e.target e.version with
  | false =>
    rw [update_of_refused hnewer]
    refine ⟨texts, h, fun path => (hsettled path).keep ?_⟩
    rintro rfl
    cases hheld : w.version? e.target with
    | none =>
      rw [isNewer, hheld] at hnewer
      cases hnewer
    | some held =>
      rw [isNewer, hheld, Option.all_some, decide_eq_false_iff_not] at hnewer
      exact ⟨held, rfl, not_lt.mp hnewer⟩
  | true =>
    refine ⟨_, h.update_of_newer hnewer, fun path => ?_⟩
    rw [version?_update_of_newer hnewer]
    by_cases hpath : path = e.target
    · subst hpath
      rw [Function.update_self, if_pos rfl]
      refine (hsettled e.target).replace fun held hheld => ?_
      rw [isNewer, hheld, Option.all_some, decide_eq_true_iff] at hnewer
      exact hnewer
    · rw [Function.update_of_ne hpath, if_neg hpath]
      exact (hsettled path).keep fun heq => absurd heq.symm hpath

/-- Which edits there were settles a path, not the order they came in. -/
theorem unique (h : Settled edits path text version) (h' : Settled edits' path text' version')
    (hsame : ∀ e, e ∈ edits ↔ e ∈ edits') (hversions : Consistent edits) :
    text = text' ∧ version = version' := by
  obtain ⟨e, he, hpath, rfl, rfl⟩ | ⟨hnone, rfl, rfl⟩ := h <;>
    obtain ⟨f, hf, hpath', rfl, rfl⟩ | ⟨hnone', rfl, rfl⟩ := h'
  · have hf' : f.IsNewest edits := hf.of_mem_iff fun g => (hsame g).symm
    obtain ⟨htext, hversion⟩ := hversions.eq_of_isNewest he hf' (hpath.trans hpath'.symm)
    rw [htext, hversion]
    exact ⟨rfl, rfl⟩
  · exact absurd hpath (hnone' e ((hsame e).mp he.mem))
  · exact absurd hpath' (hnone f ((hsame f).mpr hf.mem))
  · exact ⟨rfl, rfl⟩

theorem isSome_iff (h : Settled edits path text version) :
    text.isSome = true ↔ ∃ e ∈ edits, e.target = path := by
  obtain ⟨e, he, hpath, rfl, -⟩ | ⟨hnone, rfl, -⟩ := h
  · exact ⟨fun _ => ⟨e, he.mem, hpath⟩, fun _ => rfl⟩
  · constructor
    · intro hsome
      cases hsome
    · rintro ⟨e, he, hpath⟩
      exact absurd hpath (hnone e he)

/-- The newest edit of a path is the one that is held. -/
theorem eq_of_isNewest {e : Edit} (h : Settled edits e.target text version)
    (hversions : Consistent edits) (he : e.IsNewest edits) :
    text = some e.text ∧ version = some e.version := by
  obtain ⟨f, hf, hpath, rfl, rfl⟩ | ⟨hnone, -, -⟩ := h
  · obtain ⟨htext, hversion⟩ := hversions.eq_of_isNewest hf he hpath
    rw [htext, hversion]
    exact ⟨rfl, rfl⟩
  · exact absurd rfl (hnone e he.mem)

end Settled

/-- Behind any edits of a new workspace, each path is settled. -/
theorem delivered_settled (config : Config) (edits : List Edit) :
    ∃ texts : OpenTexts, (delivered { config } edits).Holds texts ∧
      ∀ path, Settled edits path (texts path) ((delivered { config } edits).version? path) := by
  induction edits using List.reverseRecOn with
  | nil => exact ⟨_, .empty config, fun path => .inr ⟨by simp, rfl, rfl⟩⟩
  | append_singleton edits e ih =>
    obtain ⟨texts, h, hsettled⟩ := ih
    rw [delivered_append_singleton]
    exact Settled.append_singleton h hsettled e

/-! ### Convergence -/

/-- New workspaces that got the same edits, in whatever order and however often, have the same open
paths, texts, versions, graph and diagnostics, and each path that was edited holds the text and the
version of its newest edit.  A workspace that refuses an edit stays what it is. -/
theorem edits_converge (config : Config) (edits edits' : List Edit)
    (hsame : ∀ e, e ∈ edits ↔ e ∈ edits') (hversions : Consistent edits) :
    let w := delivered { config } edits
    let w' := delivered { config } edits'
    w.paths = w'.paths ∧
      (∀ path, w.text? path = w'.text? path ∧ w.version? path = w'.version? path) ∧
      (w.perform .graph).1 = (w'.perform .graph).1 ∧
      (∀ path, (w.perform (.diagnostics path)).1 = (w'.perform (.diagnostics path)).1) ∧
      (∀ path, path ∈ w.paths ↔ ∃ e ∈ edits, e.target = path) ∧
      (∀ e, IsNewest edits e →
        w.text? e.target = some e.text ∧ w.version? e.target = some e.version) ∧
      ∀ (v : Workspace) (e : Edit), (v.perform e.request).1 = .changed false →
        (v.perform e.request).2 = v := by
  intro w w'
  obtain ⟨texts, h, hsettled⟩ := delivered_settled config edits
  obtain ⟨texts', h', hsettled'⟩ := delivered_settled config edits'
  have hagree : ∀ path, texts path = texts' path ∧ w.version? path = w'.version? path :=
    fun path => (hsettled path).unique (hsettled' path) hsame hversions
  obtain rfl : texts = texts' := funext fun path => (hagree path).1
  have hconfig : w.config = w'.config := by
    exact (config_behind _ _).trans (config_behind _ _).symm
  obtain ⟨hgraph, hdiagnostics⟩ := h.answers_unique h' hconfig
  refine ⟨?_, fun path => ⟨?_, (hagree path).2⟩, hgraph, hdiagnostics, fun path => ?_,
    fun e he => ?_, fun v e hanswer => ?_⟩
  · rw [paths, paths, h.documents_unique h']
  · rw [h.text?_eq, h'.text?_eq]
  · rw [h.mem_paths, (hsettled path).isSome_iff]
  · rw [h.text?_eq]
    exact (hsettled e.target).eq_of_isNewest hversions he
  · exact update_of_refused (Answer.changed.inj hanswer)

/-- Edits of one document under two spellings of its path, and one of another document, arrive in
two orders: once the newer edit comes first and the older one is refused. -/
theorem edits_converge_late :
    let older : Edit := ⟨"a.ec", "event A\n", 1⟩
    let newer : Edit := ⟨"./b/../a.ec", "event B\n", 2⟩
    let other : Edit := ⟨"c.ec", "event C\n", 1⟩
    let w := delivered {} [older, other, newer]
    let w' := delivered {} [newer, older, other]
    w.paths = w'.paths ∧ (w.perform .graph).1 = (w'.perform .graph).1 ∧
      w'.text? older.target = some "event B\n" ∧ w'.version? older.target = some 2 := by
  intro older newer other w w'
  have hsame : ∀ e, e ∈ [newer, older, other] ↔ e ∈ [older, other, newer] := by
    intro e
    simp only [List.mem_cons, List.not_mem_nil, or_false]
    tauto
  have hversions : Consistent [newer, older, other] := by decide +kernel
  have hnewest : IsNewest [newer, older, other] newer := ⟨by decide +kernel, by decide +kernel⟩
  have htarget : newer.target = older.target := by decide +kernel
  obtain ⟨hpaths, -, hgraph, -, -, hheld, -⟩ :=
    edits_converge {} [newer, older, other] [older, other, newer] hsame hversions
  obtain ⟨htext, hversion⟩ := hheld newer hnewest
  rw [htarget] at htext hversion
  exact ⟨hpaths.symm, hgraph.symm, htext, hversion⟩

end Workspace

end EventCatalog
