import EventCatalog.Proofs.Path.Order
import EventCatalog.Workspace

/-! # Searching the open documents

On documents that are sorted by path the search finds the document at a path, and else the one
place where it can be put in (`Position.search_spec`).  So setting, inserting and removing leave the
documents before and after the path as they are (`Workspace.exists_sides`), and the documents stay
sorted. -/

namespace EventCatalog

namespace Position

/-- Where all documents in front come before the path and all behind the window come after it, the
search of the window leaves one place with nothing but such documents in front and behind. -/
theorem narrow_spec {documents : List Document} {path : DocumentPath}
    (h : PathSorted Document.path documents) (base size : Nat)
    (hsize : base + size ≤ documents.length)
    (hbefore : ∀ i < base, ∀ d, documents[i]? = some d → d.path.order path = .lt)
    (hafter : ∀ i ≥ base + size, ∀ d, documents[i]? = some d → path.order d.path = .lt) :
    narrow documents path base size < base + max size 1 ∧
      (∀ i < narrow documents path base size,
        ∀ d, documents[i]? = some d → d.path.order path = .lt) ∧
      ∀ i > narrow documents path base size,
        ∀ d, documents[i]? = some d → path.order d.path = .lt := by
  fun_induction narrow documents path base size with
  | case1 base size hlt hgt ih =>
    -- The middle comes after the path, and so does all behind it.
    obtain ⟨e, he, hpath⟩ := (Option.any_eq_true ..).mp hgt
    have hlt' : path.order e.path = .lt := Std.OrientedCmp.gt_iff_lt.mp (by simpa using hpath)
    obtain ⟨hfound, hspec⟩ := ih (by omega) hbefore fun i hi d hd => by
      rcases Nat.lt_or_eq_of_le (show base + size / 2 ≤ i by omega) with hmi | rfl
      · exact Std.TransCmp.lt_trans hlt' (h.lt_of_getElem? hmi he hd)
      · rw [he] at hd
        cases hd
        exact hlt'
    exact ⟨by omega, hspec⟩
  | case2 base size hlt hgt ih =>
    -- The middle does not come after the path, so all in front of it come before the path.
    obtain ⟨e, he⟩ : ∃ e, documents[base + size / 2]? = some e :=
      ⟨_, List.getElem?_eq_getElem (by omega)⟩
    have hle : (e.path.order path).isLE = true := by
      rw [he, Option.any_some] at hgt
      cases hcmp : e.path.order path with
      | gt => simp [hcmp] at hgt
      | _ => rfl
    obtain ⟨hfound, hspec⟩ := ih (by omega)
      (fun i hi d hd => Std.TransCmp.lt_of_lt_of_isLE (h.lt_of_getElem? hi hd he) hle)
      fun i hi => hafter i (by omega)
    exact ⟨by omega, hspec⟩
  | case3 base size hle =>
    exact ⟨by omega, hbefore, fun i hi => hafter i (by omega)⟩

/-- A place with only documents before the path in front of it, and only documents after the path
from it on, cuts the documents in two. -/
theorem exists_cut {documents : List Document} {path : DocumentPath} {place : Nat}
    (hplace : place ≤ documents.length)
    (hbefore : ∀ i < place, ∀ d, documents[i]? = some d → d.path.order path = .lt)
    (hafter : ∀ i ≥ place, ∀ d, documents[i]? = some d → path.order d.path = .lt) :
    ∃ before after, documents = before ++ after ∧ (∀ d ∈ before, d.path.order path = .lt) ∧
      (∀ d ∈ after, path.order d.path = .lt) ∧ place = before.length := by
  refine ⟨documents.take place, documents.drop place, (List.take_append_drop _ _).symm,
    fun d hd => ?_, fun d hd => ?_, (List.length_take_of_le hplace).symm⟩
  · obtain ⟨i, hi⟩ := List.mem_iff_getElem?.mp hd
    rw [List.getElem?_take] at hi
    split at hi
    · exact hbefore i ‹_› d hi
    · cases hi
  · obtain ⟨i, hi⟩ := List.mem_iff_getElem?.mp hd
    rw [List.getElem?_drop] at hi
    exact hafter _ (Nat.le_add_right _ _) d hi

/-- The search finds the document at the path, or else the place between those before the path and
those after it. -/
theorem search_spec {documents : List Document} (h : PathSorted Document.path documents)
    (path : DocumentPath) :
    (∃ before d after, documents = before ++ d :: after ∧ d.path = path ∧
        search documents path = .found before.length) ∨
      ∃ before after, documents = before ++ after ∧
        (∀ d ∈ before, d.path.order path = .lt) ∧ (∀ d ∈ after, path.order d.path = .lt) ∧
        search documents path = .missing before.length := by
  obtain ⟨hplace, hbefore, hafter⟩ := narrow_spec h 0 documents.length (by omega)
    (by omega) fun i hi (d : Document) hd => by
      rw [List.getElem?_eq_none (by omega)] at hd
      cases hd
  generalize hp : narrow documents path 0 documents.length = place at hplace hbefore hafter
  have hmissing : ∀ place' ≤ documents.length, search documents path = .missing place' →
      (∀ i < place', ∀ d, documents[i]? = some d → d.path.order path = .lt) →
      (∀ i ≥ place', ∀ d, documents[i]? = some d → path.order d.path = .lt) →
      ∃ before after, documents = before ++ after ∧
        (∀ d ∈ before, d.path.order path = .lt) ∧ (∀ d ∈ after, path.order d.path = .lt) ∧
        search documents path = .missing before.length := by
    intro place' hle hsearch hlt hgt
    obtain ⟨before, after, hcut, hb, ha, rfl⟩ := exists_cut hle hlt hgt
    exact ⟨before, after, hcut, hb, ha, hsearch⟩
  cases hd : documents[place]? with
  | none =>
    have hle : documents.length ≤ place := List.getElem?_eq_none_iff.mp hd
    refine .inr (hmissing place (by omega) (by simp only [search, hp, hd]) hbefore ?_)
    intro i hi d hd
    rw [List.getElem?_eq_none (by omega)] at hd
    cases hd
  | some d =>
    obtain ⟨hlt, rfl⟩ := List.getElem?_eq_some_iff.mp hd
    cases hcmp : documents[place].path.order path with
    | eq =>
      refine .inl ⟨documents.take place, documents[place], documents.drop (place + 1), ?_,
        Std.LawfulEqCmp.eq_of_compare hcmp, ?_⟩
      · rw [← List.drop_eq_getElem_cons, List.take_append_drop]
      · rw [List.length_take_of_le (by omega)]
        simp only [search, hp, hd, hcmp]
    | lt =>
      refine .inr (hmissing (place + 1) hlt (by simp only [search, hp, hd, hcmp]) ?_
        fun i hi => hafter i hi)
      intro i hi d hd'
      rcases Nat.lt_or_eq_of_le (Nat.le_of_lt_succ hi) with hlt' | rfl
      · exact hbefore i hlt' d hd'
      · rw [hd] at hd'
        cases hd'
        exact hcmp
    | gt =>
      refine .inr (hmissing place (Nat.le_of_lt hlt) (by simp only [search, hp, hd, hcmp])
        hbefore ?_)
      intro i hi d hd'
      rcases Nat.lt_or_eq_of_le hi with hlt' | rfl
      · exact hafter i hlt' d hd'
      · rw [hd] at hd'
        cases hd'
        exact Std.OrientedCmp.gt_iff_lt.mp hcmp

end Position

namespace Workspace

variable {w : Workspace}

theorem insertIdx_length_append {α : Type} (before after : List α) (a : α) :
    (before ++ after).insertIdx before.length a = before ++ a :: after := by
  induction before with
  | nil => rfl
  | cons b before ih => rw [List.cons_append, List.length_cons, List.insertIdx_succ_cons, ih]; rfl

/-- The open documents are those before a path, perhaps one at it, and those after it; edits at the
path change the middle alone. -/
theorem exists_sides (h : PathSorted Document.path w.documents) (path : DocumentPath) :
    ∃ before after, ∃ middle : Option Document,
      w.documents = before ++ (middle.toList ++ after) ∧
      (∀ d ∈ before, d.path.order path = .lt) ∧ (∀ d ∈ middle, d.path = path) ∧
      (∀ d ∈ after, path.order d.path = .lt) ∧ w.isOpen path = middle.isSome ∧
      (∀ d, d.path = path → w.place d = before ++ d :: after) ∧
      (w.remove path).documents = before ++ after := by
  obtain ⟨before, d, after, hcut, hpath, hsearch⟩ |
    ⟨before, after, hcut, hbefore, hafter, hsearch⟩ := Position.search_spec h path
  · rw [hcut] at h
    obtain ⟨-, hright, hleft⟩ := List.pairwise_append.mp h
    refine ⟨before, after, some d, hcut, fun e he => ?_, fun e he => ?_, fun e he => ?_, ?_,
      fun e he => ?_, ?_⟩
    · rw [← hpath]
      exact hleft e he d List.mem_cons_self
    · rw [← Option.some.inj he, hpath]
    · rw [← hpath]
      exact (List.pairwise_cons.mp hright).1 e he
    · rw [isOpen, position, hsearch]
      rfl
    · rw [place, position, he, hsearch, hcut]
      simp
    · rw [remove, position, hsearch, hcut]
      simp [List.eraseIdx_append_of_length_le]
  · refine ⟨before, after, none, hcut, hbefore, ?_, hafter, ?_, fun e he => ?_, ?_⟩
    · intro e he
      cases he
    · rw [isOpen, position, hsearch]
      rfl
    · rw [place, position, he, hsearch, hcut]
      exact insertIdx_length_append before after e
    · rw [remove, position, hsearch]
      exact hcut

theorem isOpen_iff (h : PathSorted Document.path w.documents) (path : DocumentPath) :
    w.isOpen path = true ↔ ∃ d ∈ w.documents, d.path = path := by
  obtain ⟨before, after, middle, hcut, hbefore, hmiddle, hafter, hopen, -, -⟩ :=
    exists_sides h path
  rw [hopen, hcut]
  constructor
  · intro hsome
    obtain ⟨d, rfl⟩ := Option.isSome_iff_exists.mp hsome
    exact ⟨d, by simp, hmiddle d rfl⟩
  · rintro ⟨d, hd, rfl⟩
    rw [List.mem_append, List.mem_append, Option.mem_toList] at hd
    obtain hd | hd | hd := hd
    · exact absurd rfl (DocumentPath.ne_of_lt (hbefore d hd))
    · rw [Option.mem_def.mp hd]
      rfl
    · exact absurd rfl (DocumentPath.ne_of_lt (hafter d hd))

/-- Nothing on either side of a path is at the path. -/
theorem mem_sides {before after : List Document} {middle : Option Document}
    {path : DocumentPath} (hbefore : ∀ d ∈ before, d.path.order path = .lt)
    (hmiddle : ∀ d ∈ middle, d.path = path) (hafter : ∀ d ∈ after, path.order d.path = .lt)
    (e : Document) :
    e ∈ before ++ (middle.toList ++ after) ∧ e.path ≠ path ↔ e ∈ before ++ after := by
  simp only [List.mem_append, Option.mem_toList]
  constructor
  · rintro ⟨he | he | he, hne⟩
    · exact .inl he
    · exact absurd (hmiddle e he) hne
    · exact .inr he
  · rintro (he | he)
    · exact ⟨.inl he, DocumentPath.ne_of_lt (hbefore e he)⟩
    · exact ⟨.inr (.inr he), (DocumentPath.ne_of_lt (hafter e he)).symm⟩

theorem mem_place (h : PathSorted Document.path w.documents) (d e : Document) :
    e ∈ w.place d ↔ e = d ∨ e ∈ w.documents ∧ e.path ≠ d.path := by
  obtain ⟨before, after, middle, hcut, hbefore, hmiddle, hafter, -, hplace, -⟩ :=
    exists_sides h d.path
  rw [hplace d rfl, hcut, mem_sides hbefore hmiddle hafter]
  simp only [List.mem_append, List.mem_cons]
  exact or_left_comm

theorem mem_remove (h : PathSorted Document.path w.documents) (path : DocumentPath)
    (e : Document) : e ∈ (w.remove path).documents ↔ e ∈ w.documents ∧ e.path ≠ path := by
  obtain ⟨before, after, middle, hcut, hbefore, hmiddle, hafter, -, -, hremove⟩ :=
    exists_sides h path
  rw [hremove, hcut, mem_sides hbefore hmiddle hafter]

theorem sorted_remove (h : PathSorted Document.path w.documents) (path : DocumentPath) :
    PathSorted Document.path (w.remove path).documents := by
  obtain ⟨before, after, middle, hcut, -, -, -, -, -, hremove⟩ := exists_sides h path
  rw [hremove]
  rw [hcut] at h
  exact h.sublist ((List.sublist_append_right _ _).append_left before)

theorem sorted_place (h : PathSorted Document.path w.documents) (d : Document) :
    PathSorted Document.path (w.place d) := by
  obtain ⟨before, after, middle, -, hbefore, -, hafter, -, hplace, hremove⟩ :=
    exists_sides h d.path
  have hrest := sorted_remove h d.path
  rw [hremove] at hrest
  obtain ⟨hb, ha, hba⟩ := List.pairwise_append.mp hrest
  rw [hplace d rfl]
  refine List.pairwise_append.mpr ⟨hb, List.pairwise_cons.mpr ⟨hafter, ha⟩, ?_⟩
  rintro e he x (_ | ⟨_, hx⟩)
  · exact hbefore e he
  · exact hba e he x hx

end Workspace

end EventCatalog
