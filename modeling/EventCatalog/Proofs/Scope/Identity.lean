import EventCatalog.Proofs.Graph.Names
import EventCatalog.Proofs.Scope.Bindings
import EventCatalog.Proofs.Scope.Keys

/-! # Which definitions share an identifier

An identifier puts a name and a version together with an at sign between them, and both may hold at
signs themselves.  So it tells two definitions of one kind apart unless the name of one begins with
the name of the other and an at sign, and goes on as the other's version does (`Symbol.Mimics`).
Where no import is aliased and nothing is a duplicate, that is the only way to share an identifier
(`SymbolTable.nodeId_eq_iff_mimics`). -/

namespace EventCatalog

open Syntax

/-! ### Names with versions behind them -/

/-- Where one name goes on behind another, it does so with the other's version. -/
theorem exists_rest_of_append {a b : String} {v : Option String} {more m : List Char} (hne : a ≠ b)
    (hb : b.toList = a.toList ++ more) (hv : (versionMark v).toList = more ++ m) :
    ∃ rest, b = a ++ "@" ++ rest ∧ v = some (rest ++ String.ofList m) := by
  have hmore : more ≠ [] := by
    rintro rfl
    rw [List.append_nil, String.toList_inj] at hb
    exact hne hb.symm
  cases v with
  | none => exact absurd (List.append_eq_nil_iff.mp hv.symm).1 hmore
  | some version =>
    cases more with
    | nil => exact absurd rfl hmore
    | cons c rest =>
      rw [versionMark, String.toList_append, List.cons_append] at hv
      change '@' :: version.toList = _ at hv
      obtain ⟨rfl, hrest⟩ := List.cons.inj hv
      refine ⟨String.ofList rest, ?_, congrArg some ?_⟩
      · rw [← String.toList_inj, hb]
        simp
      · rw [← String.toList_inj]
        simpa using hrest

theorem append_versionMark_eq_iff {a b : String} {v w : Option String} (hne : a ≠ b) :
    a ++ versionMark v = b ++ versionMark w ↔
      (∃ rest, b = a ++ "@" ++ rest ∧ v = some (rest ++ versionMark w)) ∨
        ∃ rest, a = b ++ "@" ++ rest ∧ w = some (rest ++ versionMark v) := by
  constructor
  · intro h
    rw [← String.toList_inj, String.toList_append, String.toList_append,
      List.append_eq_append_iff] at h
    obtain ⟨more, hb, hv⟩ | ⟨more, ha, hw⟩ := h
    · obtain ⟨rest, hrest, hversion⟩ := exists_rest_of_append hne hb hv
      exact .inl ⟨rest, hrest, by rw [hversion, String.ofList_toList]⟩
    · obtain ⟨rest, hrest, hversion⟩ := exists_rest_of_append hne.symm ha hw
      exact .inr ⟨rest, hrest, by rw [hversion, String.ofList_toList]⟩
  · rintro (⟨rest, rfl, rfl⟩ | ⟨rest, rfl, rfl⟩) <;>
      simp [versionMark, String.append_assoc]

namespace Symbol

/-- The name of a definition is another one's name, an at sign and the beginning of its version, and
what is left of that version is all that the identifier says of the first one's version. -/
def Mimics (s u : Symbol) : Prop :=
  ∃ rest, s.name = u.name ++ "@" ++ rest ∧ u.version = some (rest ++ versionMark s.version)

variable {s u : Symbol}

theorem Mimics.name_ne (h : s.Mimics u) : s.name ≠ u.name := by
  obtain ⟨rest, hname, -⟩ := h
  intro heq
  rw [heq] at hname
  have hlength := congrArg String.length hname
  simp only [String.length_append] at hlength
  have hsign : "@".length = 1 := rfl
  omega

/-- A name without an at sign is no other name with a version. -/
theorem not_mimics_of_not_mem (h : '@' ∉ s.name.toList) : ¬s.Mimics u := by
  rintro ⟨rest, hname, -⟩
  rw [hname] at h
  simp at h

theorem nodeId_eq_iff_of_name_ne (hne : s.name ≠ u.name) :
    s.nodeId = u.nodeId ↔ s.kind = u.kind ∧ (s.Mimics u ∨ u.Mimics s) := by
  have hids : s.nodeId = u.nodeId ↔ s.kind = u.kind ∧
      s.name ++ versionMark s.version = u.name ++ versionMark u.version := by
    refine nodeId_eq_iff.trans (and_congr_left fun _ => ?_)
    exact ⟨NodeKind.definition.inj, congrArg NodeKind.definition⟩
  rw [hids, append_versionMark_eq_iff hne, or_comm]
  rfl

end Symbol

/-! ### Tables without duplicates -/

/-- No import gives a definition another name. -/
def Unaliased (sources : List (DocumentPath × String)) : Prop :=
  ∀ source ∈ sources, ∀ i ∈ (parse source.2).program.imports, ∀ n ∈ i.names,
    n.localName.value = n.name.value

instance (sources : List (DocumentPath × String)) : Decidable (Unaliased sources) :=
  inferInstanceAs (Decidable (∀ source ∈ sources, ∀ i ∈ (parse source.2).program.imports,
    ∀ n ∈ i.names, n.localName.value = n.name.value))

namespace SymbolTable

variable {t : SymbolTable} {s u : Symbol}

/-- Without aliases no definition may share name and version with another one. -/
theorem exempt_linkTexts {sources : List (DocumentPath × String)} (h : Unaliased sources)
    (generation : Nat) (s u : Symbol) : (linkTexts generation sources).exempt s u = false := by
  have hrenames : ∀ document source name,
      (linkTexts generation sources).renames document source name = false := by
    intro document source name
    refine List.any_eq_false.mpr fun x hx => ?_
    rw [imports_link, List.getElem?_map] at hx
    cases hsource : sources[document]? with
    | none =>
      rw [hsource] at hx
      cases hx
    | some source =>
      rw [hsource] at hx
      obtain ⟨i, hi, n, hn, hlocal, hname⟩ := exists_of_mem_imports hx
      have halias := h source (List.mem_of_getElem? hsource) i hi n hn
      rw [hlocal, hname] at halias
      simp +contextual [halias]
  rw [exempt, hrenames, hrenames, Bool.or_self, Bool.and_false]

/-- Where nothing is a duplicate and nothing may be, each definition is the first of its name and
version. -/
theorem Regular.firstLike?_eq (ht : t.Regular) (hexempt : ∀ s u, t.exempt s u = false)
    (hduplicates : t.duplicates = []) (hs : s ∈ t.exports) : t.firstLike? s = some s := by
  have hsome : (t.firstLike? s).isSome = true := by
    rw [firstLike?, List.find?_isSome]
    exact ⟨s, mem_lookup.mpr ⟨hs, rfl⟩, beq_self_eq_true _⟩
  obtain ⟨first, hfirst⟩ := Option.isSome_iff_exists.mp hsome
  have hnone : t.duplicate? s = none := List.filterMap_eq_nil_iff.mp hduplicates s hs
  rw [duplicate?, hfirst] at hnone
  simp only [hexempt, Bool.or_false] at hnone
  split at hnone
  · rename_i hkey
    have hmem := (mem_lookup.mp (List.mem_of_find?_eq_some hfirst)).1
    rw [hfirst, ht.eq_of_key_eq hmem hs (beq_iff_eq.mp hkey)]
  · cases hnone

/-- Then no two definitions have one name and one version. -/
theorem Regular.eq_of_same (ht : t.Regular) (hexempt : ∀ s u, t.exempt s u = false)
    (hduplicates : t.duplicates = []) (hs : s ∈ t.exports) (hu : u ∈ t.exports)
    (hname : s.name = u.name) (hversion : sameVersion s u = true) : s = u := by
  have hlike : sameVersion s = sameVersion u := by
    funext v
    rw [sameVersion, beq_iff_eq] at hversion
    rw [sameVersion, sameVersion, hversion]
  have hfirst : t.firstLike? s = t.firstLike? u := by
    rw [firstLike?, firstLike?, hname, hlike]
  rw [ht.firstLike?_eq hexempt hduplicates hs, ht.firstLike?_eq hexempt hduplicates hu] at hfirst
  exact Option.some.inj hfirst

/-- And only those share an identifier of which one mimics the other. -/
theorem Regular.nodeId_eq_iff_mimics (ht : t.Regular) (hexempt : ∀ s u, t.exempt s u = false)
    (hduplicates : t.duplicates = []) (hs : s ∈ t.exports) (hu : u ∈ t.exports) (hne : s ≠ u) :
    s.nodeId = u.nodeId ↔ s.kind = u.kind ∧ (s.Mimics u ∨ u.Mimics s) := by
  by_cases hname : s.name = u.name
  · refine iff_of_false (fun hid => ?_) ?_
    · have hmarks := (nodeId_eq_iff.mp hid).2
      change s.name ++ versionMark s.version = u.name ++ versionMark u.version at hmarks
      rw [hname, String.append_right_inj] at hmarks
      have hversion : sameVersion s u = true := by
        rw [sameVersion, versionMark_injective hmarks, beq_self_eq_true]
      exact hne (ht.eq_of_same hexempt hduplicates hs hu hname hversion)
    · rintro ⟨-, h | h⟩
      · exact h.name_ne hname
      · exact h.name_ne hname.symm
  · exact Symbol.nodeId_eq_iff_of_name_ne hname

end SymbolTable

end EventCatalog
