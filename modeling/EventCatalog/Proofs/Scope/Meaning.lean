import EventCatalog.Proofs.Scope.Bindings
import EventCatalog.Proofs.Scope.Keys
import EventCatalog.Proofs.Selector.Choice

/-! # What a reference means

The definitions that a name can mean in a document are told from the documents alone (`CanMean`):
those that the document imports under that name, or else all of the name.  A reference fails exactly
where there are none, where none is of an accepted kind, or where none of these has a wanted version;
and otherwise it means the one that is preferred to all others (`SymbolTable.resolve_exact`). -/

namespace EventCatalog

open Syntax

/-! ### Candidates -/

/-- What a name asks for in a document: a name, and the linked document that an import takes it
from. -/
def sought (documents : List Document) (number : Nat) (name : String) : String × Option Nat :=
  match documents[number]?.bind fun d => (d.importOf? name).map (d, ·) with
  | some (d, i, n) => (n.name.value, SymbolTable.lastAt? documents (d.path.join i.source.value))
  | none => (name, none)

/-- A definition is one of those that a name can mean in a document: it bears the name that is asked
for, and if it is asked for in a document that defines it, it stands there. -/
structure CanMean (documents : List Document) (number : Nat) (name : String) (s : Symbol) : Prop where
  exported : s ∈ SymbolTable.exportsOf 0 documents
  named : s.name = (sought documents number name).1
  placed : ∀ target, (sought documents number name).2 = some target →
    (∃ u ∈ SymbolTable.exportsOf 0 documents,
      u.document = target ∧ u.name = (sought documents number name).1) → s.document = target

/-- Of two definitions that a reference in a document can mean, the first is preferred to the second:
its version is greater, or the versions are equal and it alone is in the document, or else it comes
first. -/
def Preferred (document : Nat) (s u : Symbol) : Prop :=
  compareVersions u.version s.version = .lt ∨
    compareVersions u.version s.version = .eq ∧
      (s.document = document ∧ u.document ≠ document ∨
        (s.document = document ↔ u.document = document) ∧ s.order u = .lt)

theorem Preferred.asymm {document : Nat} {s u : Symbol} (h : Preferred document s u) :
    ¬Preferred document u s := by
  have hswap : compareVersions s.version u.version = (compareVersions u.version s.version).swap :=
    Std.OrientedCmp.eq_swap
  rintro (hlt | ⟨heq, hplace⟩) <;> obtain hlt' | ⟨heq', hplace'⟩ := h
  · rw [hswap, hlt'] at hlt
    cases hlt
  · rw [hswap, heq'] at hlt
    cases hlt
  · rw [hswap, hlt'] at heq
    cases heq
  · rw [Symbol.order_eq_lt_iff] at hplace hplace'
    omega

namespace SymbolTable

variable {t : SymbolTable} {document : Nat} {name : String} {r : Reference} {wanted : Wanted}
  {s : Symbol}

theorem mem_exportedBy {target : Nat} :
    s ∈ t.exportedBy target name ↔ s ∈ t.exports ∧ s.document = target ∧ s.name = name := by
  rw [exportedBy, List.mem_filter, mem_lookup, beq_iff_eq, and_assoc, and_comm (a := s.name = name)]

theorem exportedBy_eq_nil_iff {target : Nat} :
    t.exportedBy target name = [] ↔ ¬∃ u ∈ t.exports, u.document = target ∧ u.name = name := by
  simp only [List.eq_nil_iff_forall_not_mem, mem_exportedBy, not_exists]

/-- An imported name means what its target defines, or all definitions if that is nothing. -/
theorem mem_meant_iff {b : Binding} : s ∈ t.meant b ↔ s ∈ t.exports ∧ s.name = b.name ∧
    ∀ target, b.target = some target →
      (∃ u ∈ t.exports, u.document = target ∧ u.name = b.name) → s.document = target := by
  unfold meant
  cases b.target with
  | none => simp [mem_lookup]
  | some target =>
    simp only [Option.some.injEq, forall_eq', List.isEmpty_iff]
    split
    · rename_i hnone
      have hnone := exportedBy_eq_nil_iff.mp hnone
      rw [mem_lookup]
      exact and_congr_right fun _ => (and_iff_left fun hsome => absurd hsome hnone).symm
    · rename_i hsome
      have hsome := not_not.mp (mt exportedBy_eq_nil_iff.mpr hsome)
      rw [mem_exportedBy, and_comm (a := s.document = target)]
      exact and_congr_right fun _ => and_congr_right fun _ => ⟨fun h _ => h, fun h => h hsome⟩

/-- The candidates of a name are the definitions that it can mean. -/
theorem mem_candidates_iff (generation : Nat) (documents : List Document) :
    s ∈ (link generation documents).candidates document name ↔
      CanMean documents document name s := by
  have hmeans : CanMean documents document name s ↔ s ∈ (link generation documents).exports ∧
      s.name = (sought documents document name).1 ∧
        ∀ target, (sought documents document name).2 = some target →
          (∃ u ∈ (link generation documents).exports,
            u.document = target ∧ u.name = (sought documents document name).1) →
              s.document = target :=
    ⟨fun h => ⟨h.exported, h.named, h.placed⟩, fun ⟨h, h', h''⟩ => ⟨h, h', h''⟩⟩
  rw [hmeans, sought]
  cases hd : documents[document]? with
  | none =>
    have hbinding : ((link generation documents).imports document).get? name = none := by
      rw [imports_link, hd]
      rfl
    rw [candidates_of_not_import hbinding, mem_lookup]
    simp
  | some d =>
    have hbinding := get?_imports_link generation hd name
    cases himport : d.importOf? name with
    | none =>
      rw [himport] at hbinding
      rw [candidates_of_not_import hbinding, mem_lookup]
      simp [himport]
    | some x =>
      rw [himport] at hbinding
      rw [candidates_of_import hbinding, mem_meant_iff]
      simp [himport, bindingOf]

theorem sublist_candidates (t : SymbolTable) (document : Nat) (name : String) :
    (t.candidates document name).Sublist t.exports := by
  have hlookup : ∀ name, (t.lookup name).Sublist t.exports := fun _ => List.filter_sublist
  cases hbinding : (t.imports document).get? name with
  | none =>
    rw [candidates_of_not_import hbinding]
    exact hlookup name
  | some b =>
    rw [candidates_of_import hbinding, meant]
    cases b.target with
    | none => exact hlookup _
    | some target =>
      simp only
      split
      · exact hlookup _
      · exact List.filter_sublist.trans (hlookup _)

/-! ### The choice -/

/-- Of two definitions of equal versions the one that stands first is preferred. -/
theorem pairwise_competing (hsorted : t.exports.Pairwise fun s u => s.order u = .lt)
    (document : Nat) (r : Reference) (wanted : Wanted) :
    (t.competing document r wanted).Pairwise fun s u => s.document = document ∧
      u.document ≠ document ∨ (s.document = document ↔ u.document = document) ∧ s.order u = .lt := by
  have haccepted := hsorted.sublist ((List.filter_sublist (p := (wanted.accepts ·.kind))).trans
    (sublist_candidates t document r.name.value))
  refine List.pairwise_append.mpr ⟨?_, ?_, fun s hs u hu => .inl ⟨?_, ?_⟩⟩
  · refine (haccepted.filter _).imp_of_mem fun {s u} hs hu hlt => .inr ⟨?_, hlt⟩
    exact iff_of_true (beq_iff_eq.mp (List.mem_filter.mp hs).2)
      (beq_iff_eq.mp (List.mem_filter.mp hu).2)
  · refine (haccepted.filter _).imp_of_mem fun {s u} hs hu hlt => .inr ⟨?_, hlt⟩
    exact iff_of_false (bne_iff_ne.mp (List.mem_filter.mp hs).2)
      (bne_iff_ne.mp (List.mem_filter.mp hu).2)
  · exact beq_iff_eq.mp (List.mem_filter.mp hs).2
  · exact bne_iff_ne.mp (List.mem_filter.mp hu).2

/-- The foremost of the competing definitions is preferred to the others. -/
theorem preferred_of_foremost (hsorted : t.exports.Pairwise fun s u => s.order u = .lt)
    {p : Symbol → Bool}
    (h : Selector.Foremost Symbol.version ((t.competing document r wanted).filter p) s)
    {u : Symbol} (hu : u ∈ (t.competing document r wanted).filter p) (hne : u ≠ s) :
    Preferred document s u := by
  obtain ⟨before, after, hsplit, hbefore, hafter⟩ := h
  have hpairs := (pairwise_competing hsorted document r wanted).filter p
  rw [hsplit] at hu hpairs
  rcases List.mem_append.mp hu with hu | hu
  · exact .inl (hbefore u hu)
  · have hu := (List.mem_cons.mp hu).resolve_left hne
    cases hcompare : compareVersions u.version s.version with
    | lt => exact .inl hcompare
    | eq => exact .inr ⟨hcompare, List.rel_of_pairwise_cons (List.pairwise_append.mp hpairs).2.1 hu⟩
    | gt =>
      have hle := hafter u hu
      rw [hcompare] at hle
      cases hle

/-- What each outcome of resolving says of the candidates and of those that compete. -/
theorem resolve_eq_iffs (t : SymbolTable) (document : Nat) (r : Reference) (wanted : Wanted) :
    (t.resolve document r wanted = .error .notFound ↔
      t.candidates document r.name.value = []) ∧
    (∀ found, t.resolve document r wanted = .error (.kindMismatch found) ↔
      t.competing document r wanted = [] ∧
        ∃ first others, t.candidates document r.name.value = first :: others ∧ first.kind = found) ∧
    (t.resolve document r wanted = .error .noMatchingVersion ↔
      t.competing document r wanted ≠ [] ∧
        r.selector.select Symbol.version (t.competing document r wanted) = none) ∧
    ∀ s, t.resolve document r wanted = .ok s ↔
      r.selector.select Symbol.version (t.competing document r wanted) = some s := by
  obtain ⟨hnone, h⟩ | ⟨first, others, hfirst, hnone, h⟩ | ⟨hne, hselect, h⟩ | ⟨s, hselect, h⟩ :=
    resolve_cases t document r wanted
  · have hcompeting : t.competing document r wanted = [] := by simp [competing, hnone]
    rw [h, hnone, hcompeting]
    simp [Selector.select]
  · rw [h, hnone, hfirst]
    simp [Selector.select]
  · have hsome : t.candidates document r.name.value ≠ [] := fun hnil => hne (by simp [competing, hnil])
    rw [h, hselect]
    simp [hne, hsome]
  · have hne := List.ne_nil_of_mem (Selector.mem_of_select hselect)
    have hsome : t.candidates document r.name.value ≠ [] := fun hnil => hne (by simp [competing, hnil])
    rw [h, hselect]
    simp [hne, hsome]

/-- What is picked of the competing definitions is the one that is preferred to all others with a
wanted version: the foremost one is, and no two can be. -/
theorem select_eq_some_iff_preferred (hsorted : t.exports.Pairwise fun s u => s.order u = .lt) :
    r.selector.select Symbol.version (t.competing document r wanted) = some s ↔
      s ∈ (t.competing document r wanted).filter (r.selector.admits ·.version) ∧
        ∀ u ∈ (t.competing document r wanted).filter (r.selector.admits ·.version), u ≠ s →
          Preferred document s u := by
  constructor
  · intro h
    have hforemost := Selector.select_eq_some h
    exact ⟨hforemost.mem, fun u hu hne => preferred_of_foremost hsorted hforemost hu hne⟩
  · rintro ⟨hs, hbest⟩
    cases hselect : r.selector.select Symbol.version (t.competing document r wanted) with
    | none =>
      obtain ⟨hs, hadmits⟩ := List.mem_filter.mp hs
      rw [Selector.select_eq_none_iff.mp hselect s hs] at hadmits
      cases hadmits
    | some u =>
      have hforemost := Selector.select_eq_some hselect
      by_contra hne
      have hne : u ≠ s := fun heq => hne (congrArg some heq)
      exact (hbest u hforemost.mem hne).asymm (preferred_of_foremost hsorted hforemost hs hne.symm)

/-- The kind is complained about where there are candidates and none is of an accepted kind. -/
theorem exists_kindMismatch_iff (t : SymbolTable) (document : Nat) (r : Reference)
    (wanted : Wanted) :
    (∃ found, t.resolve document r wanted = .error (.kindMismatch found)) ↔
      (∃ s, s ∈ t.candidates document r.name.value) ∧
        ∀ s ∈ t.candidates document r.name.value, wanted.accepts s.kind = false := by
  have hkind := (resolve_eq_iffs t document r wanted).2.1
  constructor
  · rintro ⟨found, h⟩
    obtain ⟨hnone, first, others, hfirst, -⟩ := (hkind found).mp h
    refine ⟨⟨first, hfirst ▸ List.mem_cons_self⟩, fun s hs => ?_⟩
    rw [← Bool.not_eq_true]
    exact fun haccepts => List.eq_nil_iff_forall_not_mem.mp hnone s (mem_competing.mpr ⟨hs, haccepts⟩)
  · rintro ⟨⟨s, hs⟩, hnone⟩
    obtain ⟨first, others, hfirst⟩ := List.exists_cons_of_ne_nil (List.ne_nil_of_mem hs)
    refine ⟨first.kind, (hkind _).mpr ⟨?_, first, others, hfirst, rfl⟩⟩
    refine List.eq_nil_iff_forall_not_mem.mpr fun u hu => ?_
    obtain ⟨hu, haccepts⟩ := mem_competing.mp hu
    rw [hnone u hu] at haccepts
    cases haccepts

/-- The kind that is complained about is that of the first candidate. -/
theorem exists_first_of_kindMismatch (hsorted : t.exports.Pairwise fun s u => s.order u = .lt)
    {found : Kind} (h : t.resolve document r wanted = .error (.kindMismatch found)) :
    ∃ s ∈ t.candidates document r.name.value, s.kind = found ∧
      ∀ u ∈ t.candidates document r.name.value, u ≠ s → s.order u = .lt := by
  obtain ⟨-, first, others, hfirst, hfound⟩ :=
    ((resolve_eq_iffs t document r wanted).2.1 found).mp h
  have hpairs := hsorted.sublist (sublist_candidates t document r.name.value)
  rw [hfirst] at hpairs ⊢
  refine ⟨first, List.mem_cons_self, hfound, fun u hu hne => ?_⟩
  exact List.rel_of_pairwise_cons hpairs ((List.mem_cons.mp hu).resolve_left hne)

/-- No version is found where something competes and nothing that does has a wanted version. -/
theorem noMatchingVersion_iff (t : SymbolTable) (document : Nat) (r : Reference)
    (wanted : Wanted) :
    t.resolve document r wanted = .error .noMatchingVersion ↔
      (∃ s, s ∈ t.competing document r wanted) ∧
        ∀ s, s ∉ (t.competing document r wanted).filter (r.selector.admits ·.version) := by
  rw [(resolve_eq_iffs t document r wanted).2.2.1, Selector.select_eq_none_iff]
  simp only [Ne, List.eq_nil_iff_forall_not_mem, not_forall, not_not, List.mem_filter, not_and,
    Bool.not_eq_true]

/-- Resolution is exact.  It finds nothing if the name can mean nothing; it complains about the kind if
nothing that the name can mean is of an accepted one, and names the kind of the first of these
definitions; it finds no version if none of an accepted kind has a wanted one; and else it gives the
one of these that is preferred to all others. -/
theorem resolve_exact (generation : Nat) (sources : List (DocumentPath × String)) (document : Nat)
    (r : Reference) (wanted : Wanted) :
    let t := linkTexts generation sources
    let Meant := CanMean (sources.map fun (path, text) => Document.read path text) document
      r.name.value
    let Fits s := Meant s ∧ wanted.accepts s.kind = true ∧ r.selector.admits s.version = true
    (t.resolve document r wanted = .error .notFound ↔ ∀ s, ¬Meant s) ∧
    ((∃ found, t.resolve document r wanted = .error (.kindMismatch found)) ↔
      (∃ s, Meant s) ∧ ∀ s, Meant s → wanted.accepts s.kind = false) ∧
    (∀ found, t.resolve document r wanted = .error (.kindMismatch found) →
      ∃ s, Meant s ∧ s.kind = found ∧ ∀ u, Meant u → u ≠ s → s.order u = .lt) ∧
    (t.resolve document r wanted = .error .noMatchingVersion ↔
      (∃ s, Meant s ∧ wanted.accepts s.kind = true) ∧ ∀ s, ¬Fits s) ∧
    ∀ s, t.resolve document r wanted = .ok s ↔
      Fits s ∧ ∀ u, Fits u → u ≠ s → Preferred document s u := by
  intro t Meant Fits
  have hsorted : t.exports.Pairwise fun s u => s.order u = .lt := sorted_exports generation sources
  have hmeant : ∀ s, s ∈ t.candidates document r.name.value ↔ Meant s := fun s =>
    mem_candidates_iff generation _
  have hcompeting : ∀ s, s ∈ t.competing document r wanted ↔
      Meant s ∧ wanted.accepts s.kind = true := fun s => by rw [mem_competing, hmeant]
  have hfits : ∀ s, s ∈ (t.competing document r wanted).filter (r.selector.admits ·.version) ↔
      Fits s := fun s => by rw [List.mem_filter, hcompeting, and_assoc]
  obtain ⟨hnotFound, -, -, hok⟩ := resolve_eq_iffs t document r wanted
  refine ⟨?_, ?_, fun found h => ?_, ?_, fun s => ?_⟩
  · simp only [hnotFound, List.eq_nil_iff_forall_not_mem, hmeant]
  · simp only [exists_kindMismatch_iff, hmeant]
  · simpa only [hmeant] using exists_first_of_kindMismatch hsorted h
  · simp only [noMatchingVersion_iff, hcompeting, hfits]
  · simp only [hok, select_eq_some_iff_preferred hsorted, hfits]

end SymbolTable

end EventCatalog
