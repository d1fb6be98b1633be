import EventCatalog.Completion
import EventCatalog.Proofs.Scope.Bindings
import EventCatalog.Proofs.Scope.Picking
import EventCatalog.Proofs.Version.Order
import Mathlib.Data.List.Destutter

/-! # Versions that are offered

Behind a name and an at sign, completion offers the latest version and the versions of all
definitions of that name: they are sorted, the newest first, and of equal neighbours one stays.
Sorting compares what the texts denote and not the texts, so between two equal texts there may be
another spelling of the same version, and then both of them stay.  That is the only way in which a
version is offered twice (`Completion.versionItems_newest_first`). -/

namespace EventCatalog.Completion

variable {versions : List String} {v w : String}

/-! ### Neighbours that are equal -/

theorem dropRepeats_eq (versions : List String) :
    dropRepeats versions = versions.destutter (· ≠ ·) := by
  fun_induction dropRepeats versions with
  | case1 => rfl
  | case2 => rfl
  | case3 a rest ih =>
    rw [ih, List.destutter_cons_cons, if_neg (not_not.mpr rfl), List.destutter_cons']
  | case4 a b rest hne ih => rw [ih, List.destutter_cons_cons, if_pos hne, List.destutter_cons']

/-- What has no equal neighbours is not lost. -/
theorem sublist_dropRepeats {part : List String} (hpart : part.IsChain (· ≠ ·))
    (h : part.Sublist versions) : part.Sublist (dropRepeats versions) := by
  fun_induction dropRepeats versions generalizing part with
  | case1 => exact h
  | case2 => exact h
  | case3 a rest ih =>
    refine ih hpart ?_
    rcases List.sublist_cons_iff.mp h with hrest | ⟨others, rfl, hrest⟩
    · exact hrest
    · rcases List.sublist_cons_iff.mp hrest with hrest | ⟨_, rfl, -⟩
      · exact hrest.cons_cons a
      · exact absurd rfl (List.isChain_cons_cons.mp hpart).1
  | case4 a b rest hne ih =>
    rcases List.sublist_cons_iff.mp h with hrest | ⟨others, rfl, hrest⟩
    · exact (ih hpart hrest).cons a
    · exact (ih hpart.tail hrest).cons_cons a

theorem mem_dropRepeats : v ∈ dropRepeats versions ↔ v ∈ versions := by
  constructor
  · rw [dropRepeats_eq]
    exact fun h => (List.destutter_sublist _ _).subset h
  · intro h
    have hsub := sublist_dropRepeats (List.isChain_singleton v) (List.singleton_sublist.mpr h)
    exact List.singleton_sublist.mp hsub

/-- Where a text stands twice among texts of which no neighbours are equal, another one stands
between. -/
theorem exists_between (hchain : versions.IsChain (· ≠ ·)) (htwice : [v, v].Sublist versions) :
    ∃ w, w ≠ v ∧ [v, w, v].Sublist versions := by
  induction versions with
  | nil => cases htwice
  | cons a rest ih =>
    rcases List.sublist_cons_iff.mp htwice with h | ⟨_, hcons, h⟩
    · obtain ⟨w, hne, hsub⟩ := ih hchain.tail h
      exact ⟨w, hne, hsub.cons a⟩
    · cases hcons
      cases rest with
      | nil => cases h
      | cons w rest =>
        have hne : v ≠ w := (List.isChain_cons_cons.mp hchain).1
        have hv : v ∈ rest := (List.mem_cons.mp (List.singleton_sublist.mp h)).resolve_left hne
        exact ⟨w, hne.symm, ((List.singleton_sublist.mpr hv).cons_cons w).cons_cons v⟩

/-- A text stays once just if no other one stands between two of its places. -/
theorem count_dropRepeats_eq_one_iff (hv : v ∈ versions) :
    (dropRepeats versions).count v = 1 ↔ ∀ w, w ≠ v → ¬[v, w, v].Sublist versions := by
  have hpos : 0 < (dropRepeats versions).count v := List.count_pos_iff.mpr (mem_dropRepeats.mpr hv)
  constructor
  · intro hone w hne h
    have hbetween : [v, w, v].IsChain (· ≠ ·) := by simp [hne, hne.symm]
    have hcount : [v, w, v].count v ≤ 1 := hone ▸ (sublist_dropRepeats hbetween h).count_le v
    simp [hne] at hcount
  · intro hnone
    rw [dropRepeats_eq] at hpos ⊢
    by_contra hmany
    have htwice : [v, v].Sublist (versions.destutter (· ≠ ·)) :=
      List.replicate_sublist_iff.mpr (show 2 ≤ _ by omega)
    obtain ⟨w, hne, h⟩ := exists_between (List.isChain_destutter _ _) htwice
    exact hnone w hne (h.trans (List.destutter_sublist _ _))

/-! ### Sorting -/

/-- The order in which versions are listed. -/
def newestFirst (v w : String) : Bool := (compareVersions (some w) (some v)).isLE

theorem newestFirst_trans (u v w : String) (huv : newestFirst u v = true)
    (hvw : newestFirst v w = true) : newestFirst u w = true := by
  unfold newestFirst at *
  exact Std.TransCmp.isLE_trans hvw huv

theorem newestFirst_total (v w : String) : (newestFirst v w || newestFirst w v) = true := by
  have hswap : compareVersions (some w) (some v) = (compareVersions (some v) (some w)).swap :=
    Std.OrientedCmp.eq_swap
  rw [newestFirst, newestFirst, hswap]
  cases compareVersions (some v) (some w) <;> rfl

theorem pairwise_mergeSort_newestFirst (versions : List String) :
    (versions.mergeSort newestFirst).Pairwise fun v w => newestFirst v w = true :=
  List.pairwise_mergeSort newestFirst_trans newestFirst_total versions

/-- Whether two texts have one place in the order of versions. -/
def sameRank (v w : String) : Bool := compareVersions (some w) (some v) == .eq

theorem sameRank_iff : sameRank v w = true ↔ newestFirst v w = true ∧ newestFirst w v = true := by
  unfold sameRank newestFirst
  rw [beq_iff_eq]
  constructor
  · intro h
    rw [h, Std.OrientedCmp.eq_comm.mp h]
    exact ⟨rfl, rfl⟩
  · exact fun ⟨h, h'⟩ => Std.OrientedCmp.isLE_antisymm h h'

/-- Sorting leaves the versions of one rank in their order. -/
theorem filter_sameRank_mergeSort (v : String) (versions : List String) :
    (versions.mergeSort newestFirst).filter (sameRank v) = versions.filter (sameRank v) := by
  rw [filter_mergeSort newestFirst_trans newestFirst_total]
  refine List.mergeSort_of_pairwise (List.pairwise_of_forall_mem_list fun u hu w hw => ?_)
  have hu := sameRank_iff.mp (List.mem_filter.mp hu).2
  have hw := sameRank_iff.mp (List.mem_filter.mp hw).2
  exact newestFirst_trans u v w hu.2 hw.1

/-- So what stands between two places of a text after sorting is of the same rank and stood there
before. -/
theorem sublist_mergeSort_iff :
    [v, w, v].Sublist (versions.mergeSort newestFirst) ↔
      sameRank v w = true ∧ [v, w, v].Sublist versions := by
  have hself : sameRank v v = true := by
    simp [sameRank, Std.ReflCmp.compare_self]
  have hpart : sameRank v w = true → [v, w, v].filter (sameRank v) = [v, w, v] := fun h =>
    List.filter_eq_self.mpr (by simp [h, hself])
  have hkeep : sameRank v w = true → ∀ {us : List String}, [v, w, v].Sublist us →
      [v, w, v].Sublist (us.filter (sameRank v)) := fun h us hsub =>
    hpart h ▸ hsub.filter (sameRank v)
  constructor
  · intro h
    have hsorted := (pairwise_mergeSort_newestFirst versions).sublist h
    simp only [List.pairwise_cons, List.mem_cons, List.not_mem_nil, or_false] at hsorted
    have hrank : sameRank v w = true :=
      sameRank_iff.mpr ⟨hsorted.1 w (.inl rfl), hsorted.2.1 v rfl⟩
    have hsub := hkeep hrank h
    rw [filter_sameRank_mergeSort] at hsub
    exact ⟨hrank, hsub.trans List.filter_sublist⟩
  · rintro ⟨hrank, h⟩
    have hsub := hkeep hrank h
    rw [← filter_sameRank_mergeSort] at hsub
    exact hsub.trans List.filter_sublist

/-! ### Items -/

/-- The versions of the definitions of a name, in the order of the table. -/
def carried (t : SymbolTable) (name : String) : List String :=
  (t.lookup name).filterMap (·.version)

theorem mem_carried {t : SymbolTable} {name : String} :
    v ∈ carried t name ↔ ∃ s ∈ t.exports, s.name = name ∧ s.version = some v := by
  simp only [carried, List.mem_filterMap, SymbolTable.mem_lookup, and_assoc]

/-- A text comes back behind another spelling of the same version. -/
def ComesBack (versions : List String) (v : String) : Prop :=
  ∃ w, w ≠ v ∧ compareVersions (some w) (some v) = .eq ∧ [v, w, v].Sublist versions

/-- The latest version and some others as items. -/
def itemsOf (versions : List String) : List Item :=
  { label := "latest", kind := .version, detail := some "newest version" } ::
    versions.map fun v => { label := v, kind := .version }

theorem itemsOf_injective {us : List String} (h : itemsOf versions = itemsOf us) :
    versions = us := by
  have hlabels := congrArg (List.map Item.label) (List.cons.inj h).2
  rw [List.map_map, List.map_map] at hlabels
  exact (List.map_id versions).symm.trans (hlabels.trans (List.map_id us))

variable {t : SymbolTable} {name : String}

theorem versionItems_eq (t : SymbolTable) (name : String) : versionItems t name =
    itemsOf (dropRepeats ((carried t name).mergeSort newestFirst)) := rfl

/-- Behind an at sign nothing has been typed, and all versions are offered. -/
theorem complete_version {path : DocumentPath} {source : String} {cursor : Nat}
    (hsite : Site.classify (Text.upTo cursor source.toList) = (.version name, [])) :
    complete t path source cursor = versionItems t name := by
  have hall : ∀ items : List Item, items.filter (continues []) = items := fun items =>
    List.filter_eq_self.mpr fun _ _ => rfl
  rw [complete, hsite]
  exact hall _

/-- The versions of a name are offered, the newest first, and each of them once unless it comes
back in the table behind another spelling of it. -/
theorem versionItems_newest_first (t : SymbolTable) (name : String) :
    (∃ versions, versionItems t name = itemsOf versions ∧
      (∀ v, v ∈ versions ↔ ∃ s ∈ t.exports, s.name = name ∧ s.version = some v) ∧
      (∀ v ∈ versions, versions.count v = 1 ↔ ¬ComesBack (carried t name) v) ∧
      versions.Pairwise fun v w => compareVersions (some v) (some w) ≠ .lt) ∧
    ∀ path source cursor, Site.classify (Text.upTo cursor source.toList) = (.version name, []) →
      complete t path source cursor = versionItems t name := by
  refine ⟨⟨_, versionItems_eq t name, fun v => ?_, fun v hv => ?_, ?_⟩,
    fun path source cursor => complete_version⟩
  · rw [mem_dropRepeats, List.mem_mergeSort, mem_carried]
  · rw [mem_dropRepeats] at hv
    simp only [count_dropRepeats_eq_one_iff hv, sublist_mergeSort_iff, sameRank, beq_iff_eq,
      ComesBack, not_exists, not_and]
  · have hsub : (dropRepeats ((carried t name).mergeSort newestFirst)).Sublist
        ((carried t name).mergeSort newestFirst) := by
      rw [dropRepeats_eq]
      exact List.destutter_sublist _ _
    refine ((pairwise_mergeSort_newestFirst _).sublist hsub).imp fun {v w} hle hlt => ?_
    rw [newestFirst, Std.OrientedCmp.gt_iff_lt.mpr hlt] at hle
    cases hle

/-- Of two versions of an event the newer one is offered before the other. -/
theorem versionItems_newest_first_placed :
    let t := SymbolTable.linkTexts 1 [(DocumentPath.ofString "shop.ec",
      "event Placed \x7b\n  version 1.0.0\n\x7d\nevent Placed \x7b\n  version 1.1.0\n\x7d\n")]
    let source := "service Shop \x7b\n  sends event Placed@"
    Site.classify (Text.upTo 36 source.toList) = (.version "Placed", []) ∧
      complete t (.ofString "cart.ec") source 36 = itemsOf ["1.1.0", "1.0.0"] := by
  intro t source
  have hsite : Site.classify (Text.upTo 36 source.toList) = (.version "Placed", []) := by
    decide +kernel
  have hcarried : carried t "Placed" = ["1.0.0", "1.1.0"] := by decide +kernel
  have hnewer : newestFirst "1.0.0" "1.1.0" = false := by decide +kernel
  have hsorted : (carried t "Placed").mergeSort newestFirst = ["1.1.0", "1.0.0"] := by
    simp [hcarried, List.mergeSort, hnewer]
  refine ⟨hsite, ((versionItems_newest_first t "Placed").2 _ _ _ hsite).trans ?_⟩
  rw [versionItems_eq, hsorted]
  rfl

/-- Three documents define one event, and they write its versions `1`, `1.0.0` and `1`; under another
name two of them import the first one, as they may.  The version `1` is offered twice. -/
theorem not_versionItems_once :
    ¬∀ (t : SymbolTable) (path : DocumentPath) (source : String) (cursor : Nat) (name : String),
      Site.classify (Text.upTo cursor source.toList) = (.version name, []) →
        ∃ versions, complete t path source cursor = itemsOf versions ∧
          (∀ v, v ∈ versions ↔ ∃ s ∈ t.exports, s.name = name ∧ s.version = some v) ∧
          versions.Nodup ∧
          versions.Pairwise fun v w => compareVersions (some v) (some w) ≠ .lt := by
  intro h
  let source := "service S \x7b\n  sends event A@\n\x7d\n"
  let rename := "import \x7b A as B \x7d from \"a.ec\"\n"
  let t := SymbolTable.linkTexts 1 [
    (DocumentPath.ofString "a.ec", "event A \x7b\n  version 1\n\x7d\n"),
    (DocumentPath.ofString "b.ec", rename ++ "event A \x7b\n  version 1.0.0\n\x7d\n"),
    (DocumentPath.ofString "c.ec", rename ++ "event A \x7b\n  version 1\n\x7d\n"),
    (DocumentPath.ofString "d.ec", source)]
  have hsite : Site.classify (Text.upTo 28 source.toList) = (.version "A", []) := by decide +kernel
  have hcarried : carried t "A" = ["1", "1.0.0", "1"] := by decide +kernel
  have hsorted : (carried t "A").mergeSort newestFirst = ["1", "1.0.0", "1"] := by
    rw [hcarried]
    exact List.mergeSort_of_pairwise (by decide +kernel)
  obtain ⟨versions, hitems, -, hnodup, -⟩ := h t (.ofString "d.ec") source 28 "A" hsite
  rw [complete_version hsite, versionItems_eq, hsorted] at hitems
  rw [← itemsOf_injective hitems] at hnodup
  revert hnodup
  decide

end EventCatalog.Completion
