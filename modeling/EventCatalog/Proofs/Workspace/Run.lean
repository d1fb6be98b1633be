import EventCatalog.Proofs.Compilation.Sources
import EventCatalog.Proofs.Workspace.Position

/-! # Runs of a workspace

What clients know of a workspace is what it answered: an edit that was taken opens a text, a
document that was closed has none (`OpenTexts.note`).  `Workspace.Holds` says that a workspace is
as its answers tell: its documents are those texts, sorted by path, it holds a version for each of
them and for no other path, and a link that it keeps is one of these documents.  Every request
preserves this (`Holds.perform`), so every run does (`Holds.behind`).

The main result is `Workspace.answers_eq_compile`: behind any run from an empty workspace, the graph
and the diagnostics are those of compiling the open texts. -/

namespace EventCatalog

/-- The text that is open at each path. -/
abbrev OpenTexts := DocumentPath → Option String

namespace OpenTexts

/-- What is open once a request has been answered. -/
def note (texts : OpenTexts) : Workspace.Request × Workspace.Answer → OpenTexts
  | (.update path text _, .changed true) => Function.update texts path (some text)
  | (.remove path, .changed true) => Function.update texts path none
  | _ => texts

end OpenTexts

namespace Workspace

/-- Requests made one after the other, each with its answer. -/
def exchange (w : Workspace) (requests : List Request) : List (Request × Answer) :=
  requests.zip ((w.run requests).map (·.1))

/-- The workspace behind requests that are made one after the other. -/
def behind (w : Workspace) (requests : List Request) : Workspace :=
  (((w.run requests).getLast?).map (·.2)).getD w

theorem exchange_cons (w : Workspace) (r : Request) (rs : List Request) :
    w.exchange (r :: rs) = (r, (w.perform r).1) :: (w.perform r).2.exchange rs := rfl

theorem behind_cons (w : Workspace) (r : Request) (rs : List Request) :
    w.behind (r :: rs) = (w.perform r).2.behind rs := by
  cases rs with
  | nil => rfl
  | cons s rs =>
    simp only [behind, run, List.getLast?_cons_cons]
    rfl

theorem behind_append (w : Workspace) (before after : List Request) :
    w.behind (before ++ after) = (w.behind before).behind after := by
  induction before generalizing w with
  | nil => rfl
  | cons r before ih => rw [List.cons_append, behind_cons, behind_cons, ih]

/-- What every request preserves, every run preserves. -/
theorem behind_of_perform {P : Workspace → Prop} (hstep : ∀ w r, P w → P (w.perform r).2)
    {w : Workspace} (h : P w) (requests : List Request) : P (w.behind requests) := by
  induction requests generalizing w with
  | nil => exact h
  | cons r rs ih =>
    rw [behind_cons]
    exact ih (hstep w r h)

/-- An edit that is refused leaves everything as it is. -/
theorem update_of_refused {w : Workspace} {path : DocumentPath} {text : String} {version : Nat}
    (hrefused : w.isNewer path version = false) : w.update path text version = w := by
  rw [update, if_neg (by simp [hrefused])]

/-- The workspace is as its answers tell. -/
structure Holds (w : Workspace) (texts : OpenTexts) : Prop where
  sorted : PathSorted Document.path w.documents
  documents : ∀ d, d ∈ w.documents ↔
    ∃ text, texts d.path = some text ∧ d = Document.read d.path text
  versions : ∀ path, (w.version? path).isSome = (texts path).isSome
  fresh : ∀ linked, w.linked = some linked →
    linked = Linked.link w.config w.generation w.documents

namespace Holds

variable {w : Workspace} {texts : OpenTexts}

theorem empty (config : Config) : Holds { config } fun _ => none where
  sorted := .nil
  documents d := by simp
  versions path := rfl
  fresh linked h := by cases h

/-! ### Edits -/

/-- A path is open if and only if its last edit that was taken opened a text. -/
theorem isOpen_eq (h : w.Holds texts) (path : DocumentPath) :
    w.isOpen path = (texts path).isSome := by
  rw [Bool.eq_iff_iff, isOpen_iff h.sorted]
  constructor
  · rintro ⟨d, hd, rfl⟩
    obtain ⟨text, htext, -⟩ := (h.documents d).mp hd
    rw [htext]
    rfl
  · intro hsome
    obtain ⟨text, htext⟩ := Option.isSome_iff_exists.mp hsome
    exact ⟨Document.read path text, (h.documents _).mpr ⟨text, htext, rfl⟩, rfl⟩

theorem lookup_otherVersions (w : Workspace) (path q : DocumentPath) :
    (w.otherVersions path).lookup q = if q = path then none else w.version? q := by
  rw [otherVersions, version?]
  induction w.versions with
  | nil => simp
  | cons e versions ih =>
    obtain ⟨p, version⟩ := e
    by_cases hp : p = path
    · subst hp
      rw [List.filter_cons_of_neg (by simp), ih]
      split
      · rfl
      · rw [List.lookup_cons, beq_false_of_ne ‹_›]
    · rw [List.filter_cons_of_pos (by simpa using hp), List.lookup_cons, List.lookup_cons, ih]
      by_cases hq : q = p
      · subst hq
        rw [beq_self_eq_true]
        exact (if_neg hp).symm
      · rw [beq_false_of_ne hq]

theorem update_of_newer (h : w.Holds texts) {path : DocumentPath} {text : String}
    {version : Nat} (hnewer : w.isNewer path version = true) :
    (w.update path text version).Holds (Function.update texts path (some text)) := by
  rw [update, if_pos hnewer]
  refine ⟨sorted_place h.sorted _, fun d => ?_, fun q => ?_, fun linked hlinked => by cases hlinked⟩
  · rw [mem_place h.sorted, h.documents]
    change d = Document.read path text ∨ _ ∧ d.path ≠ path ↔ _
    by_cases hpath : d.path = path
    · rw [hpath, Function.update_self]
      constructor
      · rintro (hd | ⟨-, hne⟩)
        · exact ⟨text, rfl, hd⟩
        · exact absurd rfl hne
      · rintro ⟨text', htext, hd⟩
        cases htext
        exact .inl hd
    · rw [Function.update_of_ne hpath]
      constructor
      · rintro (rfl | ⟨hd, -⟩)
        · exact absurd rfl hpath
        · exact hd
      · exact fun hd => .inr ⟨hd, hpath⟩
  · change (((path, version) :: w.otherVersions path).lookup q).isSome = _
    rw [List.lookup_cons, lookup_otherVersions]
    by_cases hq : q = path
    · subst hq
      rw [beq_self_eq_true, Function.update_self]
      rfl
    · rw [beq_false_of_ne hq, if_neg hq, Function.update_of_ne hq]
      exact h.versions q

theorem remove_of_open (h : w.Holds texts) {path : DocumentPath} (hopen : w.isOpen path = true) :
    (w.remove path).Holds (Function.update texts path none) := by
  have hsorted := sorted_remove h.sorted path
  have hmem := mem_remove h.sorted path
  obtain ⟨index, hposition⟩ : ∃ index, w.position path = .found index := by
    rw [isOpen] at hopen
    cases hposition : w.position path with
    | found index => exact ⟨index, rfl⟩
    | missing index => rw [hposition] at hopen; cases hopen
  rw [remove, hposition] at hsorted hmem ⊢
  refine ⟨hsorted, fun d => ?_, fun q => ?_, fun linked hlinked => by cases hlinked⟩
  · rw [hmem, h.documents]
    by_cases hpath : d.path = path
    · rw [hpath, Function.update_self]
      simp
    · rw [Function.update_of_ne hpath]
      exact and_iff_left hpath
  · change ((w.otherVersions path).lookup q).isSome = _
    rw [lookup_otherVersions]
    by_cases hq : q = path
    · rw [if_pos hq, hq, Function.update_self]
      rfl
    · rw [if_neg hq, Function.update_of_ne hq]
      exact h.versions q

theorem remove_of_closed {path : DocumentPath} (hclosed : w.isOpen path = false) :
    w.remove path = w := by
  rw [isOpen] at hclosed
  rw [remove]
  cases hposition : w.position path with
  | found index => rw [hposition] at hclosed; cases hclosed
  | missing index => rfl

/-! ### Links -/

theorem relink (h : w.Holds texts) : w.relink.2.Holds texts where
  sorted := h.sorted
  documents := h.documents
  versions := h.versions
  fresh _ hlinked := (Option.some.inj hlinked).symm

theorem link (h : w.Holds texts) : w.link.2.Holds texts := by
  rw [Workspace.link]
  cases hlinked : w.linked with
  | some linked => exact h
  | none => exact h.relink

/-- A query is answered from a link of the open documents, whether that is new or was kept. -/
theorem fst_link (h : w.Holds texts) :
    ∃ number, w.link.1 = Linked.link w.config number w.documents := by
  rw [Workspace.link]
  cases hlinked : w.linked with
  | some linked => exact ⟨_, h.fresh linked hlinked⟩
  | none => exact ⟨_, rfl⟩

/-! ### Requests -/

/-- Whatever is asked, the workspace stays as its answers tell. -/
theorem perform (h : w.Holds texts) (r : Request) :
    (w.perform r).2.Holds (texts.note (r, (w.perform r).1)) := by
  cases r with
  | update path text version =>
    change (w.update path text version).Holds
      (texts.note (.update path text version, .changed (w.isNewer path version)))
    cases hnewer : w.isNewer path version with
    | true => exact h.update_of_newer hnewer
    | false =>
      rw [update_of_refused hnewer]
      exact h
  | remove path =>
    change (w.remove path).Holds (texts.note (.remove path, .changed (w.isOpen path)))
    cases hopen : w.isOpen path with
    | true => exact h.remove_of_open hopen
    | false =>
      rw [remove_of_closed hopen]
      exact h
  | relink => exact h.relink
  | version path => exact h
  | text path => exact h
  | format path => exact h
  | diagnostics path => exact h.link
  | graph => exact h.link
  | table => exact h.link
  | complete path cursor => exact h.link

theorem behind (h : w.Holds texts) (requests : List Request) :
    (w.behind requests).Holds ((w.exchange requests).foldl OpenTexts.note texts) := by
  induction requests generalizing w texts with
  | nil => exact h
  | cons r rs ih =>
    rw [behind_cons, exchange_cons, List.foldl_cons]
    exact ih (h.perform r)

/-- The open texts can be written as sources. -/
theorem exists_sources (h : w.Holds texts) :
    ∃ sources, ∀ path, lastText? sources path = texts path := by
  choose raw hraw using DocumentPath.exists_ofString
  refine ⟨w.documents.map fun d => (raw d.path, d.text), fun path => Option.ext fun text => ?_⟩
  -- All sources for the path have the one text that is open there.
  have hunique : ∀ s ∈ (w.documents.map fun d => (raw d.path, d.text)).filter
      (fun s => DocumentPath.ofString s.1 == path), texts path = some s.2 := by
    intro s hs
    obtain ⟨hs, hpath⟩ := List.mem_filter.mp hs
    obtain ⟨d, hd, rfl⟩ := List.mem_map.mp hs
    rw [beq_iff_eq, hraw] at hpath
    obtain ⟨text', htext, hread⟩ := (h.documents d).mp hd
    rw [hread, ← hpath, htext]
    rfl
  rw [lastText?, Option.map_eq_some_iff]
  constructor
  · rintro ⟨s, hs, rfl⟩
    exact hunique s (List.mem_of_getLast? hs)
  · intro htext
    have hmem : (raw path, text) ∈ (w.documents.map fun d => (raw d.path, d.text)).filter
        (fun s => DocumentPath.ofString s.1 == path) := by
      refine List.mem_filter.mpr ⟨List.mem_map.mpr ⟨Document.read path text, ?_, rfl⟩, ?_⟩
      · exact (h.documents _).mpr ⟨text, htext, rfl⟩
      · rw [hraw, beq_self_eq_true]
    have hsome := List.getLast?_isSome.mpr (List.ne_nil_of_mem hmem)
    obtain ⟨s, hs⟩ := Option.isSome_iff_exists.mp hsome
    have heq := hunique s (List.mem_of_getLast? hs)
    rw [htext] at heq
    exact ⟨s, hs, (Option.some.inj heq).symm⟩

/-- The open documents are the open texts, read in the order of their paths. -/
theorem documents_eq (h : w.Holds texts) {sources : List (String × String)}
    (hsources : ∀ path, lastText? sources path = texts path) :
    w.documents = readSources sources := by
  refine h.sorted.eq_of_mem_iff (sorted_readSources sources) fun d => ?_
  rw [h.documents, mem_readSources, hsources]

end Holds

theorem config_link (w : Workspace) : w.link.2.config = w.config := by
  rw [link]
  cases w.linked <;> rfl

theorem config_perform (w : Workspace) (r : Request) : (w.perform r).2.config = w.config := by
  cases r with
  | update path text version =>
    change (w.update path text version).config = w.config
    rw [update]
    split <;> rfl
  | remove path =>
    change (w.remove path).config = w.config
    rw [remove]
    split <;> rfl
  | relink => rfl
  | version path => rfl
  | text path => rfl
  | format path => rfl
  | diagnostics path => exact w.config_link
  | graph => exact w.config_link
  | table => exact w.config_link
  | complete path cursor => exact w.config_link

theorem config_behind (w : Workspace) (requests : List Request) :
    (w.behind requests).config = w.config := by
  have hstep : ∀ (v : Workspace) r, v.config = w.config → (v.perform r).2.config = w.config :=
    fun v r h => (v.config_perform r).trans h
  exact behind_of_perform hstep rfl requests

/-! ### Compiling the open texts -/

/-- Behind every run from an empty workspace, however the open texts are listed as sources, the
graph and the diagnostics of each path are those of compiling them without a resolver. -/
theorem answers_eq_compile (config : Config) (requests : List Request) :
    let start : Workspace := { config }
    let texts := (start.exchange requests).foldl OpenTexts.note fun _ => none
    (∃ sources, ∀ path, lastText? sources path = texts path) ∧
      ∀ sources, (∀ path, lastText? sources path = texts path) →
        ((start.behind requests).perform .graph).1 =
          .graph (compile config none sources).graph ∧
        ∀ path, ((start.behind requests).perform (.diagnostics path)).1 =
          .diagnostics ((compile config none sources).diagnosticsFor path) := by
  intro start texts
  have h : (start.behind requests).Holds texts := (Holds.empty config).behind requests
  have hconfig : (start.behind requests).config = config := config_behind start requests
  refine ⟨h.exists_sources, fun sources hsources => ?_⟩
  obtain ⟨number, hlink⟩ := h.fst_link
  obtain ⟨hgraph, hdiagnostics⟩ := compile_none config sources number
  rw [hconfig, h.documents_eq hsources] at hlink
  refine ⟨?_, fun path => ?_⟩
  · rw [hgraph, ← hlink]
    rfl
  · rw [Compilation.diagnosticsFor, hdiagnostics, ← hlink]
    rfl

end Workspace

end EventCatalog
