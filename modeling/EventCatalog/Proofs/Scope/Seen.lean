import EventCatalog.Proofs.Scope.Duplicates

/-! # Finding duplicates in one go

Duplicates can be found by going through the definitions of each name in order and noting, for each
version that has been passed, the definition that came with it first (`SymbolTable.reuses`).  No
definition has to look for the first one like it, and the result is the same
(`SymbolTable.findDuplicates_eq`): what has been noted is what looking through the passed
definitions would find. -/

namespace EventCatalog

namespace Symbol

/-- The version up to spelling. -/
def edition (s : Symbol) : Option String := s.version.map Version.normalize

end Symbol

namespace SymbolTable

variable {t : SymbolTable}

/-! ### The search -/

/-- The first definition that has been passed with each version. -/
abbrev Seen := List (Option String × Symbol)

/-- Goes through definitions of one name, and gives those whose version has been passed before. -/
def reuses (t : SymbolTable) : Seen → List Symbol → List Duplicate
  | _, [] => []
  | seen, s :: rest =>
    match seen.lookup s.edition with
    | none => t.reuses ((s.edition, s) :: seen) rest
    | some first =>
      if t.exempt first s then t.reuses seen rest else ⟨s, first⟩ :: t.reuses seen rest

/-- Finds duplicates name by name, and puts them in the order of documents. -/
def findDuplicates (t : SymbolTable) : List Duplicate :=
  (t.names.flatMap fun name =>
    t.reuses [] ((t.lookup name).mergeSort fun s u => (s.order u).isLE)).mergeSort
      fun d e => (d.symbol.order e.symbol).isLE

/-! ### What has been passed -/

/-- For every version the first definition that has been passed with it is noted. -/
def Notes (seen : Seen) (passed : List Symbol) : Prop :=
  ∀ s : Symbol, seen.lookup s.edition = passed.find? (sameVersion s)

theorem sameVersion_self (s : Symbol) : sameVersion s s = true := beq_self_eq_true s.edition

/-- Definitions of one version are like the same ones. -/
theorem sameVersion_congr {s u : Symbol} (h : sameVersion u s = true) :
    sameVersion u = sameVersion s := by
  have hedition : u.edition = s.edition := beq_iff_eq.mp h
  funext v
  exact congrArg (· == v.edition) hedition

variable {seen : Seen} {passed : List Symbol} {s first : Symbol}

/-- A definition with a version that has not been passed is noted. -/
theorem Notes.note (h : Notes seen passed) (hs : seen.lookup s.edition = none) :
    Notes ((s.edition, s) :: seen) (passed ++ [s]) := by
  intro u
  rw [List.lookup_cons, List.find?_append, List.find?_singleton]
  change (bif sameVersion u s then some s else seen.lookup u.edition) = _
  cases hu : sameVersion u s with
  | false => simp [h u]
  | true =>
    rw [sameVersion_congr hu, ← h s, hs]
    rfl

/-- A definition with a version that has been passed changes nothing. -/
theorem Notes.skip (h : Notes seen passed) (hs : seen.lookup s.edition = some first) :
    Notes seen (passed ++ [s]) := by
  intro u
  rw [List.find?_append, List.find?_singleton, h u]
  cases hu : sameVersion u s with
  | false => simp
  | true =>
    rw [sameVersion_congr hu, ← h s, hs]
    rfl

/-! ### Duplicates of one name -/

/-- With the definitions of its name cut in front of it, a definition looks for the first one like it
among those that have been passed. -/
theorem firstLike?_of_lookup {rest : List Symbol} (h : t.lookup s.name = passed ++ s :: rest) :
    t.firstLike? s = some ((passed.find? (sameVersion s)).getD s) := by
  rw [firstLike?, h, List.find?_append, List.find?_cons_of_pos (sameVersion_self s)]
  cases passed.find? (sameVersion s) <;> rfl

theorem Notes.reuses_eq {name : String} {items : List Symbol}
    (hsorted : (t.lookup name).Pairwise fun s u => s.order u = .lt)
    (hitems : t.lookup name = passed ++ items) (h : Notes seen passed) :
    t.reuses seen items = items.filterMap t.duplicate? := by
  induction items generalizing seen passed with
  | nil => rfl
  | cons s rest ih =>
    have hmem : s ∈ t.lookup name := hitems ▸ List.mem_append_right _ List.mem_cons_self
    have hname : s.name = name := (mem_lookup.mp hmem).2
    have hrest : t.lookup name = (passed ++ [s]) ++ rest := by
      rw [hitems, List.append_assoc, List.singleton_append]
    have hfirst := firstLike?_of_lookup (hname.symm ▸ hitems)
    rw [List.filterMap_cons, reuses, duplicate?, hfirst]
    cases hseen : seen.lookup s.edition with
    | none =>
      have hnone := (h s).symm.trans hseen
      rw [hnone]
      simp only [Option.getD_none, beq_self_eq_true, Bool.true_or, if_true]
      exact ih hrest (h.note hseen)
    | some first =>
      have hsome := (h s).symm.trans hseen
      have hlt : first.order s = .lt := by
        rw [hitems, List.pairwise_append] at hsorted
        exact hsorted.2.2 first (List.mem_of_find?_eq_some hsome) s List.mem_cons_self
      have hkey : (first.key == s.key) = false := beq_eq_false_iff_ne.mpr (Symbol.key_ne_of_lt hlt)
      rw [hsome]
      simp only [Option.getD_some, hkey, Bool.false_or]
      rw [ih hrest (h.skip hseen)]
      split <;> rfl

/-! ### All duplicates -/

/-- Name by name there are the same definitions. -/
theorem perm_symbols (h : t.exports.Nodup) : t.symbols.Perm t.exports :=
  (List.perm_ext_iff_of_nodup (nodup_symbols h) h).mpr fun _ => mem_symbols

section

variable (hsorted : t.exports.Pairwise fun s u => s.order u = .lt)

include hsorted

/-- Name by name the search finds the duplicates. -/
theorem flatMap_reuses :
    (t.names.flatMap fun name =>
      t.reuses [] ((t.lookup name).mergeSort fun s u => (s.order u).isLE)) =
        t.symbols.filterMap t.duplicate? := by
  rw [symbols, List.filterMap_flatMap]
  refine congrArg (t.names.flatMap ·) (funext fun name => ?_)
  have hlookup : (t.lookup name).Pairwise fun s u => s.order u = .lt := hsorted.filter _
  have hnone : Notes [] [] := fun _ => rfl
  rw [List.mergeSort_of_pairwise (hlookup.imp fun hlt => by rw [hlt]; rfl)]
  exact hnone.reuses_eq hlookup rfl

/-- In tables of sorted definitions the search in one go finds the duplicates. -/
theorem findDuplicates_of_sorted : t.findDuplicates = t.duplicates := by
  have hduplicates := sorted_duplicates hsorted
  have hkeys : (t.duplicates.map fun d => d.symbol.key).Nodup :=
    List.pairwise_map.mpr (hduplicates.imp Symbol.key_ne_of_lt)
  have hnodup : t.exports.Nodup :=
    List.Nodup.of_map Symbol.key (List.pairwise_map.mpr (hsorted.imp Symbol.key_ne_of_lt))
  have hfound := (List.mergeSort_perm (t.symbols.filterMap t.duplicate?)
    fun d e => (d.symbol.order e.symbol).isLE).trans ((perm_symbols hnodup).filterMap t.duplicate?)
  have hsorts : ((t.symbols.filterMap t.duplicate?).mergeSort
      fun d e => (d.symbol.order e.symbol).isLE).Pairwise
        fun d e => (d.symbol.order e.symbol).isLE = true :=
    List.pairwise_mergeSort (fun d e f => Symbol.order_trans d.symbol e.symbol f.symbol)
      (fun d e => Symbol.order_total d.symbol e.symbol) _
  rw [findDuplicates, flatMap_reuses hsorted]
  refine hfound.eq_of_pairwise (fun d e hd he hle hge => ?_) hsorts
    (hduplicates.imp fun hlt => by rw [hlt]; rfl)
  refine List.inj_on_of_nodup_map hkeys (hfound.subset hd) he ?_
  rw [Symbol.order_isLE_iff] at hle hge
  exact Symbol.key_eq_iff.mpr (by omega)

end

/-- In every table of documents that have been read the search in one go finds the duplicates. -/
theorem findDuplicates_eq (generation : Nat) (sources : List (DocumentPath × String)) :
    (linkTexts generation sources).findDuplicates = (linkTexts generation sources).duplicates :=
  findDuplicates_of_sorted (sorted_exports generation sources)

end SymbolTable

end EventCatalog
