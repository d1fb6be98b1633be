import EventCatalog.Proofs.Compilation.Sources

/-! # The documents of a compilation

The given documents have different paths, and a round of loading asks only for paths that are not
known and makes known what it gets (`Loads`).  So all documents that are linked have different paths
(`nodup_paths_gather`), and each of them is found under its own number (`documentAt?_link`). -/

namespace EventCatalog

open Syntax

namespace Import

/-- What has been loaded in a round is known since, was not known before, and came only once. -/
structure Loading.Loads (before : List DocumentPath) (s : Loading) : Prop where
  known : before ⊆ s.known
  loaded_known : ∀ l ∈ s.loaded, l.1 ∈ s.known
  fresh : ∀ l ∈ s.loaded, l.1 ∉ before
  nodup : (s.loaded.map Prod.fst).Nodup

namespace Loading

variable {before : List DocumentPath} {s : Loading}

theorem Loads.request (h : Loads before s) (resolve : ImportResolver) (c : Call) :
    Loads before (request resolve s c) := by
  unfold Loading.request
  simp only
  split
  · exact h
  · rename_i hnew
    have hnew : c.target ∉ s.known := by simpa using hnew
    have hknown : before ⊆ c.target :: s.known :=
      fun p hp => List.mem_cons_of_mem _ (h.known hp)
    split
    · rename_i source _
      refine ⟨hknown, ?_, ?_, ?_⟩
      · intro l hl
        obtain hl | hl := List.mem_append.mp hl
        · exact List.mem_cons_of_mem _ (h.loaded_known l hl)
        · obtain rfl := List.mem_singleton.mp hl
          exact List.mem_cons_self
      · intro l hl
        obtain hl | hl := List.mem_append.mp hl
        · exact h.fresh l hl
        · obtain rfl := List.mem_singleton.mp hl
          exact fun hbefore => hnew (h.known hbefore)
      · rw [List.map_append, List.nodup_append]
        refine ⟨h.nodup, List.nodup_singleton _, ?_⟩
        intro p hp q hq
        obtain ⟨l, hl, rfl⟩ := List.mem_map.mp hp
        obtain rfl := List.mem_singleton.mp hq
        intro heq
        have hmem := h.loaded_known l hl
        rw [heq] at hmem
        exact hnew hmem
    · exact ⟨h.known, h.loaded_known, h.fresh, h.nodup⟩
    · exact ⟨hknown, fun l hl => List.mem_cons_of_mem _ (h.loaded_known l hl), h.fresh, h.nodup⟩

/-- A round loads what was not known before it. -/
theorem loads_round (resolve : ImportResolver) (s : Loading) (pending : List Document) :
    Loads s.known (s.round resolve pending) := by
  have hstart : Loads s.known { s with loaded := [] } :=
    ⟨List.Subset.refl _, by simp, by simp, by simp⟩
  have hrun : ∀ (cs : List Call) (s' : Loading), Loads s.known s' →
      Loads s.known (cs.foldl (Loading.request resolve) s') := by
    intro cs
    induction cs with
    | nil => exact fun s' h => h
    | cons c cs ih => exact fun s' h => ih _ (h.request resolve c)
  exact hrun _ _ hstart

end Loading

/-- Loading gives documents of different paths that were not known before. -/
theorem nodup_paths_loadFrom (resolve : ImportResolver) (s : Loading) (pending : List Document)
    (rounds : Nat) :
    ((loadFrom resolve s pending rounds).1.map Document.path).Nodup ∧
      ∀ d ∈ (loadFrom resolve s pending rounds).1, d.path ∉ s.known := by
  induction rounds generalizing s pending with
  | zero => exact ⟨List.nodup_nil, by simp [loadFrom]⟩
  | succ rounds ih =>
    have hround := Loading.loads_round resolve s pending
    rw [loadFrom]
    simp only
    split
    · exact ⟨List.nodup_nil, by simp⟩
    · generalize s.round resolve pending = s' at hround ⊢
      let documents := s'.loaded.map fun l => Document.read l.1 l.2
      obtain ⟨hnodup, hfresh⟩ := ih s' documents
      have hpaths : documents.map Document.path = s'.loaded.map Prod.fst := by
        rw [List.map_map]
        rfl
      constructor
      · rw [List.map_append, List.nodup_append, hpaths]
        refine ⟨hround.nodup, hnodup, ?_⟩
        intro p hp q hq
        obtain ⟨l, hl, rfl⟩ := List.mem_map.mp hp
        obtain ⟨d, hd, rfl⟩ := List.mem_map.mp hq
        exact fun heq => hfresh d hd (heq ▸ hround.loaded_known l hl)
      · intro d hd
        obtain hd | hd := List.mem_append.mp hd
        · obtain ⟨l, hl, rfl⟩ := List.mem_map.mp hd
          exact hround.fresh l hl
        · exact fun hknown => hfresh d hd (hround.known hknown)

end Import

theorem nodup_paths_gather (config : Config) (resolver : Option ImportResolver)
    (sources : List (String × String)) :
    ((gather config resolver sources).1.map Document.path).Nodup := by
  have hgiven : ((readSources sources).map Document.path).Nodup :=
    (sorted_readSources sources).nodup_keys
  have hsort : ∀ documents : List Document, (documents.map Document.path).Nodup →
      ((sortDocuments documents).map Document.path).Nodup := fun documents h =>
    ((List.mergeSort_perm documents _).map Document.path).nodup_iff.mpr h
  cases resolver with
  | none =>
    refine hsort (readSources sources ++ []) ?_
    rw [List.append_nil]
    exact hgiven
  | some resolve =>
    refine hsort (readSources sources ++
      (Import.load resolve config.importRounds (readSources sources)).1) ?_
    obtain ⟨hnodup, hfresh⟩ := Import.nodup_paths_loadFrom resolve
      { known := (readSources sources).map Document.path } (readSources sources)
      config.importRounds
    rw [List.map_append, List.nodup_append]
    refine ⟨hgiven, hnodup, ?_⟩
    intro p hp q hq
    obtain ⟨d, hd, rfl⟩ := List.mem_map.mp hq
    rintro rfl
    exact hfresh d hd hp

theorem Import.read_of_mem_loadFrom {resolve : ImportResolver} {s : Loading}
    {pending : List Document} {rounds : Nat} {d : Document}
    (h : d ∈ (loadFrom resolve s pending rounds).1) : ∃ path text, d = Document.read path text := by
  induction rounds generalizing s pending with
  | zero => cases h
  | succ rounds ih =>
    rw [loadFrom] at h
    simp only at h
    split at h
    · cases h
    · obtain h | h := List.mem_append.mp h
      · obtain ⟨⟨path, text⟩, -, rfl⟩ := List.mem_map.mp h
        exact ⟨path, text, rfl⟩
      · exact ih h

/-- All documents that are linked have been read from some text. -/
theorem read_of_mem_gather {config : Config} {resolver : Option ImportResolver}
    {sources : List (String × String)} {d : Document} (h : d ∈ (gather config resolver sources).1) :
    ∃ path text, d = Document.read path text := by
  have hgiven : ∀ e ∈ readSources sources, ∃ path text, e = Document.read path text := by
    intro e he
    obtain ⟨⟨path, text⟩, -, rfl⟩ := List.mem_map.mp he
    exact ⟨path, text, rfl⟩
  cases resolver with
  | none =>
    have hmem : d ∈ readSources sources ++ [] := List.mem_mergeSort.mp h
    rw [List.append_nil] at hmem
    exact hgiven d hmem
  | some resolve =>
    have hmem : d ∈ readSources sources ++
        (Import.load resolve config.importRounds (readSources sources)).1 := List.mem_mergeSort.mp h
    obtain hmem | hmem := List.mem_append.mp hmem
    · exact hgiven d hmem
    · exact Import.read_of_mem_loadFrom hmem

/-- A linked document is found under its own number. -/
theorem SymbolTable.documentAt?_link {generation number : Nat} {documents : List Document}
    {d : Document} (h : (documents.map Document.path).Nodup) (hd : documents[number]? = some d) :
    (link generation documents).documentAt? d.path = some number := by
  obtain ⟨hnumber, rfl⟩ := List.getElem?_eq_some_iff.mp hd
  have hlength : (link generation documents).documents.length = documents.length :=
    List.length_map _
  have hpath : ∀ (j : Nat) (hj : j < (link generation documents).documents.length)
      (hj' : j < documents.length),
      (link generation documents).documents[j].path = documents[j].path := by
    intro j hj hj'
    simp only [link, List.getElem_map, scopeOf]
  rw [documentAt?, List.findIdx?_eq_some_iff_getElem]
  refine ⟨hlength ▸ hnumber, ?_, ?_⟩
  · rw [hpath number (hlength ▸ hnumber) hnumber, beq_self_eq_true]
  · intro j hj heq
    have hlt : j < documents.length := by omega
    rw [hpath j (hlength ▸ hlt) hlt, beq_iff_eq] at heq
    have hsame : documents[j] = documents[number] :=
      List.inj_on_of_nodup_map h (List.getElem_mem hlt) (List.getElem_mem hnumber) heq
    have hindex : j = number := h.of_map.getElem_inj_iff.mp hsame
    omega

end EventCatalog
