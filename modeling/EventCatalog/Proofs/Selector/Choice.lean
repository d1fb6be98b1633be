import EventCatalog.Proofs.Version.Order
import EventCatalog.Selector
import Mathlib.Data.List.Induction
import Mathlib.Order.Bounds.Basic

/-! # The candidate that a selector picks

A selector goes through the candidates once and keeps the best so far.  What it keeps in the end is
the foremost of those that it wants (`Selector.select_eq_some`): none before it is as new, and none
behind it is newer.  It picks nothing only if it wants none (`Selector.select_eq_none_iff`).  So it
picks the candidate at the first place at which none that is wanted is newer
(`Selector.select_earliest`). -/

namespace EventCatalog.Selector

variable {α : Type} {versionOf : α → Option String} {items : List α} {a : α}

/-- An item of the greatest version in a list, the first of those that have it. -/
def Foremost (versionOf : α → Option String) (items : List α) (a : α) : Prop :=
  ∃ before after, items = before ++ a :: after ∧
    (∀ b ∈ before, compareVersions (versionOf b) (versionOf a) = .lt) ∧
    ∀ b ∈ after, (compareVersions (versionOf b) (versionOf a)).isLE = true

theorem Foremost.mem (h : Foremost versionOf items a) : a ∈ items := by
  obtain ⟨before, after, rfl, -, -⟩ := h
  exact List.mem_append_right _ List.mem_cons_self

theorem Foremost.isLE (h : Foremost versionOf items a) {b : α} (hb : b ∈ items) :
    (compareVersions (versionOf b) (versionOf a)).isLE = true := by
  obtain ⟨before, after, rfl, hbefore, hafter⟩ := h
  rcases List.mem_append.mp hb with hb | hb
  · rw [hbefore b hb]
    rfl
  · rcases List.mem_cons.mp hb with rfl | hb
    · exact Std.ReflCmp.isLE_rfl
    · exact hafter b hb

/-- One more candidate behind the others replaces the foremost one only if it is newer. -/
theorem Foremost.newer (h : Foremost versionOf items a) (b : α) :
    Foremost versionOf (items ++ [b]) (newer versionOf a b) := by
  rw [Selector.newer]
  split
  · rename_i hgt
    have hlt : compareVersions (versionOf a) (versionOf b) = .lt :=
      Std.OrientedCmp.gt_iff_lt.mp (beq_iff_eq.mp hgt)
    exact ⟨items, [], rfl, fun c hc => Std.TransCmp.lt_of_isLE_of_lt (h.isLE hc) hlt,
      List.forall_mem_nil _⟩
  · rename_i hgt
    have hle : (compareVersions (versionOf b) (versionOf a)).isLE = true := by
      rwa [beq_iff_eq, Ordering.ne_gt_iff_isLE] at hgt
    obtain ⟨before, after, rfl, hbefore, hafter⟩ := h
    refine ⟨before, after ++ [b], by simp, hbefore, fun c hc => ?_⟩
    rcases List.mem_append.mp hc with hc | hc
    · exact hafter c hc
    · rwa [List.mem_singleton.mp hc]

theorem foremost_foldl (versionOf : α → Option String) (first : α) (others : List α) :
    Foremost versionOf (first :: others) (others.foldl (Selector.newer versionOf) first) := by
  induction others using List.reverseRecOn with
  | nil => exact ⟨[], [], rfl, List.forall_mem_nil _, List.forall_mem_nil _⟩
  | append_singleton others b ih =>
    rw [List.foldl_append, ← List.cons_append]
    exact ih.newer b

/-- What is picked is the foremost of the wanted candidates. -/
theorem select_eq_some {s : Selector} {candidates : List α}
    (h : s.select versionOf candidates = some a) :
    Foremost versionOf (candidates.filter fun c => s.admits (versionOf c)) a := by
  rw [select] at h
  split at h
  · cases h
  · rename_i first others hfilter
    rw [hfilter]
    cases h
    exact foremost_foldl versionOf first others

/-- Nothing is picked only where nothing is wanted. -/
theorem select_eq_none_iff {s : Selector} {candidates : List α} :
    s.select versionOf candidates = none ↔ ∀ c ∈ candidates, s.admits (versionOf c) = false := by
  have hfilter : s.select versionOf candidates = none ↔
      candidates.filter (fun c => s.admits (versionOf c)) = [] := by
    rw [select]
    cases candidates.filter fun c => s.admits (versionOf c) <;> simp
  simp only [hfilter, List.filter_eq_nil_iff, Bool.not_eq_true]

/-! ### The earliest of the greatest -/

/-- At a place of a list stands a wanted candidate such that no wanted one is newer. -/
def IsGreatestAt (s : Selector) (versionOf : α → Option String) (candidates : List α) (i : Nat) :
    Prop :=
  ∃ c, candidates[i]? = some c ∧ s.admits (versionOf c) = true ∧
    ∀ d ∈ candidates, s.admits (versionOf d) = true →
      (compareVersions (versionOf d) (versionOf c)).isLE = true

/-- What is picked stands at the first of these places. -/
theorem exists_isLeast_of_select {s : Selector} {candidates : List α}
    (h : s.select versionOf candidates = some a) :
    ∃ i, IsLeast {i | s.IsGreatestAt versionOf candidates i} i ∧ candidates[i]? = some a := by
  have hforemost := select_eq_some h
  obtain ⟨before, after, hfilter, hbefore, -⟩ := id hforemost
  obtain ⟨front, back, rfl, hfront, hback⟩ := List.filter_eq_append_iff.mp hfilter
  obtain ⟨unwanted, rest, rfl, hunwanted, hwanted, -⟩ := List.filter_eq_cons_iff.mp hback
  have ha : (front ++ (unwanted ++ a :: rest))[(front ++ unwanted).length]? = some a := by
    rw [← List.append_assoc, List.getElem?_append_right le_rfl, Nat.sub_self]
    rfl
  refine ⟨(front ++ unwanted).length, ⟨⟨a, ha, hwanted, fun d hd hadmits => ?_⟩, ?_⟩, ha⟩
  · exact hforemost.isLE (List.mem_filter.mpr ⟨hd, hadmits⟩)
  · rintro j ⟨c, hc, hadmits, hgreatest⟩
    by_contra hlt
    -- Whatever stands before it is not wanted, or else less new.
    rw [← List.append_assoc, List.getElem?_append_left (not_le.mp hlt)] at hc
    rcases List.mem_append.mp (List.mem_of_getElem? hc) with hmem | hmem
    · have hless := hbefore c (hfront ▸ List.mem_filter.mpr ⟨hmem, hadmits⟩)
      have hle := hgreatest a (List.mem_of_getElem? ha) hwanted
      rw [Std.OrientedCmp.gt_iff_lt.mpr hless] at hle
      cases hle
    · exact hunwanted c hmem hadmits

/-- Nothing is picked if nothing is wanted, or else the candidate at the first place at which none
that is wanted is newer; and candidates that are not wanted may come and go. -/
theorem select_earliest (s : Selector) (versionOf : α → Option String) (candidates : List α) :
    (s.select versionOf candidates = none ↔
      ∀ c ∈ candidates, s.admits (versionOf c) = false) ∧
    (∀ a, s.select versionOf candidates = some a ↔
      ∃ i, IsLeast {i | s.IsGreatestAt versionOf candidates i} i ∧ candidates[i]? = some a) ∧
    ∀ before unwanted after, candidates = before ++ after →
      (∀ c ∈ unwanted, s.admits (versionOf c) = false) →
        s.select versionOf (before ++ unwanted ++ after) = s.select versionOf candidates := by
  refine ⟨select_eq_none_iff, fun a => ⟨exists_isLeast_of_select, ?_⟩, ?_⟩
  · rintro ⟨i, hleast, ha⟩
    obtain ⟨c, hc, hadmits, -⟩ := hleast.1
    have hsome : s.select versionOf candidates ≠ none := fun hnone =>
      absurd hadmits (by simp [select_eq_none_iff.mp hnone c (List.mem_of_getElem? hc)])
    obtain ⟨b, hb⟩ := Option.ne_none_iff_exists'.mp hsome
    obtain ⟨j, hleast', hj⟩ := exists_isLeast_of_select hb
    rw [hleast.unique hleast', hj] at ha
    rw [hb, ha]
  · rintro before unwanted after rfl hunwanted
    have hnil : unwanted.filter (fun c => s.admits (versionOf c)) = [] :=
      List.filter_eq_nil_iff.mpr fun c hc => by simp [hunwanted c hc]
    simp only [select, List.filter_append, hnil, List.append_nil]

/-- Of three spellings of the greatest version below 2 the first is picked, and a version that is
not wanted makes no difference. -/
theorem select_earliest_spellings :
    let picked := (Selector.parse "^1").select some ["1.1", "1.2", "v1.2", "1.2.0", "draft"]
    picked = some "1.2" ∧
      (Selector.parse "^1").select some (["1.1"] ++ ["2.0"] ++ ["1.2", "v1.2", "1.2.0", "draft"]) =
        picked := by
  intro picked
  have hunwanted : ∀ c ∈ ["2.0"], (Selector.parse "^1").admits (some c) = false := by
    decide +kernel
  exact ⟨by decide +kernel, (select_earliest _ some _).2.2 ["1.1"] _ _ rfl hunwanted⟩

end EventCatalog.Selector
