import EventCatalog.Completion
import EventCatalog.Proofs.Scope.Bindings
import EventCatalog.Proofs.Scope.Picking

/-! # Names that are offered and names that resolve

At a reference, completion offers the names of accepted kinds.  It looks at the first definition that
an imported name stands for and at all definitions that bear the name themselves
(`Completion.offers_complete_iff`); resolution looks at all definitions that the name stands for, and
at those that bear the name only if it is not imported.  So the two agree but for imported names that
hide a definition, and for those whose definition of an accepted kind stands behind another one
(`Completion.offers_iff_resolves`). -/

namespace EventCatalog

open Syntax

namespace SymbolTable

/-- An import hides a definition of an accepted kind: the definition bears the imported name, which
stands for definitions of other kinds only. -/
structure Hides (t : SymbolTable) (document : Nat) (wanted : Wanted) (name : String) : Prop where
  imported : ((t.imports document).get? name).isSome = true
  refused : wanted.acceptsAny (t.candidates document name) = false
  borne : wanted.acceptsAny (t.lookup name) = true

/-- An import has a definition of an accepted kind behind one of another kind, and no definition of
an accepted kind bears the imported name. -/
structure HoldsBack (t : SymbolTable) (document : Nat) (wanted : Wanted) (name : String) :
    Prop where
  imported : ((t.imports document).get? name).isSome = true
  first : wanted.acceptsAny (t.candidates document name).head?.toList = false
  later : wanted.acceptsAny (t.candidates document name) = true
  unborne : wanted.acceptsAny (t.lookup name) = false

variable (t : SymbolTable) (document : Nat) (wanted : Wanted) (name : String)

theorem hides_iff : t.Hides document wanted name ↔
    ((t.imports document).get? name).isSome = true ∧
      wanted.acceptsAny (t.candidates document name) = false ∧
      wanted.acceptsAny (t.lookup name) = true :=
  ⟨fun h => ⟨h.imported, h.refused, h.borne⟩,
    fun ⟨himported, hrefused, hborne⟩ => ⟨himported, hrefused, hborne⟩⟩

theorem holdsBack_iff : t.HoldsBack document wanted name ↔
    ((t.imports document).get? name).isSome = true ∧
      wanted.acceptsAny (t.candidates document name).head?.toList = false ∧
      wanted.acceptsAny (t.candidates document name) = true ∧
      wanted.acceptsAny (t.lookup name) = false :=
  ⟨fun h => ⟨h.imported, h.first, h.later, h.unborne⟩,
    fun ⟨himported, hfirst, hlater, hunborne⟩ => ⟨himported, hfirst, hlater, hunborne⟩⟩

instance : Decidable (t.Hides document wanted name) :=
  decidable_of_iff _ (t.hides_iff document wanted name).symm

instance : Decidable (t.HoldsBack document wanted name) :=
  decidable_of_iff _ (t.holdsBack_iff document wanted name).symm

end SymbolTable

namespace Completion

/-! ### Items that refer -/

/-- Whether an item is a name to refer to. -/
def isReference (i : Item) : Bool :=
  match i.kind with
  | .reference _ => true
  | _ => false

/-- A name is offered for a reference. -/
def Offers (items : List Item) (name : String) : Prop :=
  ∃ i ∈ items, i.label = name ∧ isReference i = true

variable {t : SymbolTable} {path : DocumentPath} {source : String} {wanted : Wanted}
  {document : Nat} {name : String}

/-- All names of accepted kinds are offered, whichever of them come first. -/
theorem offers_referenceItems :
    Offers (referenceItems t path source wanted) name ↔
      ∃ n ∈ names t path source, n.name = name ∧ wanted.accepts n.kind = true := by
  have hitem : ∀ {i : Item}, i ∈ (((names t path source).filter (wanted.accepts ·.kind)).map
      fun n => { label := n.name, kind := .reference n.kind, detail := some n.detail }) ↔
      ∃ n ∈ names t path source, wanted.accepts n.kind = true ∧
        { label := n.name, kind := .reference n.kind, detail := some n.detail } = i := by
    intro i
    simp only [List.mem_map, List.mem_filter, and_assoc]
  constructor
  · rintro ⟨i, hi, rfl, -⟩
    rw [referenceItems, Item.sort, List.mem_mergeSort] at hi
    obtain ⟨n, hn, haccepts, rfl⟩ := hitem.mp (mem_of_mem_eraseDupsBy hi)
    exact ⟨n, hn, rfl, haccepts⟩
  · rintro ⟨n, hn, rfl, haccepts⟩
    have hlabel := List.mem_map_of_mem (f := Item.label) (hitem.mpr ⟨n, hn, haccepts, rfl⟩)
    rw [← List.mem_eraseDups, ← map_eraseDupsBy] at hlabel
    obtain ⟨i, hi, hlabel⟩ := List.mem_map.mp hlabel
    obtain ⟨m, -, -, hm⟩ := hitem.mp (mem_of_mem_eraseDupsBy hi)
    refine ⟨i, List.mem_mergeSort.mpr hi, hlabel, ?_⟩
    rw [← hm]
    rfl

/-- At a reference of which nothing has been typed, all of these are offered, behind words that are
no names. -/
theorem offers_complete {cursor : Nat} {words : List String}
    (hsite : Site.classify (Text.upTo cursor source.toList) = (.reference wanted words, [])) :
    Offers (complete t path source cursor) name ↔
      Offers (referenceItems t path source wanted) name := by
  have hall : complete t path source cursor =
      words.map Item.keyword ++ referenceItems t path source wanted := by
    rw [complete, hsite]
    exact List.filter_eq_self.mpr fun i _ => rfl
  rw [hall]
  constructor
  · rintro ⟨i, hi, hlabel, hreference⟩
    rcases List.mem_append.mp hi with hi | hi
    · obtain ⟨word, -, rfl⟩ := List.mem_map.mp hi
      cases hreference
    · exact ⟨i, hi, hlabel, hreference⟩
  · rintro ⟨i, hi, h⟩
    exact ⟨i, List.mem_append_right _ hi, h⟩

/-! ### Names -/

/-- The kind of an imported name is that of the first definition that it stands for. -/
theorem importedKind?_eq (t : SymbolTable) (b : Binding) :
    importedKind? t b = (t.meant b).head?.map Symbol.kind := by
  rw [importedKind?, SymbolTable.meant]
  cases b.target with
  | none => rfl
  | some target =>
    simp only
    cases t.exportedBy target b.name <;> rfl

theorem exists_importedNames_iff (hpath : t.documentAt? path = some document)
    (hkeys : ((t.imports document).map Prod.fst).Nodup) :
    (∃ n ∈ importedNames t path, n.name = name ∧ wanted.accepts n.kind = true) ↔
      ∃ b, (t.imports document).get? name = some b ∧
        wanted.acceptsAny (t.meant b).head?.toList = true := by
  simp only [importedNames, hpath, List.mem_filterMap, importedKind?_eq, Option.map_map,
    Option.map_eq_some_iff, Function.comp_apply, Wanted.acceptsAny, List.any_eq_true,
    Option.mem_toList]
  constructor
  · rintro ⟨_, ⟨⟨localName, b⟩, hb, s, hs, rfl⟩, rfl, haccepts⟩
    exact ⟨b, Entries.get?_of_mem hkeys hb, s, hs, haccepts⟩
  · rintro ⟨b, hb, s, hs, haccepts⟩
    exact ⟨_, ⟨(name, b), Entries.mem_of_get? hb, s, hs, rfl⟩, rfl, haccepts⟩

/-- What is defined in a linked text is defined in the table. -/
theorem exists_names_iff (hpath : t.documentAt? path = some document)
    (hkeys : ((t.imports document).map Prod.fst).Nodup)
    (hsource : ∀ d ∈ (parse source).program.all, (⟨document, d⟩ : Symbol) ∈ t.exports) :
    (∃ n ∈ names t path source, n.name = name ∧ wanted.accepts n.kind = true) ↔
      (∃ b, (t.imports document).get? name = some b ∧
        wanted.acceptsAny (t.meant b).head?.toList = true) ∨
      wanted.acceptsAny (t.lookup name) = true := by
  rw [← exists_importedNames_iff hpath hkeys, Wanted.acceptsAny, List.any_eq_true]
  constructor
  · rintro ⟨n, hn, rfl, haccepts⟩
    rw [names, List.mem_append, List.mem_append] at hn
    rcases hn with (hn | hn) | hn
    · exact .inl ⟨n, hn, rfl, haccepts⟩
    · obtain ⟨s, hs, rfl⟩ := List.mem_map.mp hn
      exact .inr ⟨s, SymbolTable.mem_lookup.mpr ⟨SymbolTable.mem_symbols.mp hs, rfl⟩, haccepts⟩
    · obtain ⟨d, hd, rfl⟩ := List.mem_map.mp hn
      exact .inr ⟨⟨document, d⟩, SymbolTable.mem_lookup.mpr ⟨hsource d hd, rfl⟩, haccepts⟩
  · rintro (⟨n, hn, h⟩ | ⟨s, hs, haccepts⟩)
    · exact ⟨n, List.mem_append_left _ (List.mem_append_left _ hn), h⟩
    · obtain ⟨hexported, rfl⟩ := SymbolTable.mem_lookup.mp hs
      have hmem := List.mem_map_of_mem (f := fun s => (⟨s.name, s.kind, describeSymbol s⟩ : Name))
        (SymbolTable.mem_symbols.mpr hexported)
      exact ⟨_, List.mem_append_left _ (List.mem_append_right _ hmem), rfl, haccepts⟩

/-- Looking at the first definition that an import stands for and at those that bear the name comes
to looking at all candidates, but for what imports hide or hold back. -/
theorem acceptsAny_candidates_iff (t : SymbolTable) (document : Nat) (wanted : Wanted)
    (name : String) :
    ((∃ b, (t.imports document).get? name = some b ∧
        wanted.acceptsAny (t.meant b).head?.toList = true) ∨
      wanted.acceptsAny (t.lookup name) = true) ↔
      wanted.acceptsAny (t.candidates document name) = true ∧
          ¬t.HoldsBack document wanted name ∨ t.Hides document wanted name := by
  rw [SymbolTable.hides_iff, SymbolTable.holdsBack_iff]
  cases hget : (t.imports document).get? name with
  | none => simp [SymbolTable.candidates_of_not_import hget]
  | some b =>
    have hfirst : wanted.acceptsAny (t.meant b).head?.toList = true →
        wanted.acceptsAny (t.meant b) = true := by
      simp only [Wanted.acceptsAny, List.any_eq_true, Option.mem_toList]
      rintro ⟨s, hs, haccepts⟩
      exact ⟨s, List.mem_of_mem_head? hs, haccepts⟩
    rw [SymbolTable.candidates_of_import hget]
    simp only [Option.some.injEq, exists_eq_left', Option.isSome_some, true_and]
    -- Only the three answers matter now, of which the first gives the second.
    revert hfirst
    cases wanted.acceptsAny (t.meant b).head?.toList <;> cases wanted.acceptsAny (t.meant b) <;>
      cases wanted.acceptsAny (t.lookup name) <;> simp

/-! ### Linked texts -/

section Linked

variable {generation : Nat} {sources : List (DocumentPath × String)}

theorem mem_exports_linkTexts (htext : sources[document]? = some (path, source)) {d : Definition}
    (hd : d ∈ (parse source).program.all) :
    (⟨document, d⟩ : Symbol) ∈ (SymbolTable.linkTexts generation sources).exports := by
  refine SymbolTable.mem_exports_link.mpr ⟨Document.read path source, ?_, hd⟩
  rw [List.getElem?_map, htext]
  rfl

/-- In a linked text, completion offers a name if the first definition that it stands for as an
imported name is of an accepted kind, or any definition that bears it. -/
theorem offers_complete_iff {cursor : Nat} {words : List String} (name : String)
    (ht : t = SymbolTable.linkTexts generation sources) (hpath : t.documentAt? path = some document)
    (htext : sources[document]? = some (path, source))
    (hsite : Site.classify (Text.upTo cursor source.toList) = (.reference wanted words, [])) :
    Offers (complete t path source cursor) name ↔
      (∃ b, (t.imports document).get? name = some b ∧
        wanted.acceptsAny (t.meant b).head?.toList = true) ∨
      wanted.acceptsAny (t.lookup name) = true := by
  subst ht
  rw [offers_complete hsite, offers_referenceItems]
  exact exists_names_iff hpath (SymbolTable.nodup_imports_link _ _ _)
    fun d hd => mem_exports_linkTexts htext hd

/-- At a reference of which nothing has been typed, in a document whose text is linked, a name is
offered exactly if it resolves without a selector, but for two sorts of imported names: those that
hide a definition are offered as well, and those that hold one back are not. -/
theorem offers_iff_resolves {cursor : Nat} {words : List String}
    (ht : t = SymbolTable.linkTexts generation sources) (hpath : t.documentAt? path = some document)
    (htext : sources[document]? = some (path, source))
    (hsite : Site.classify (Text.upTo cursor source.toList) = (.reference wanted words, []))
    {r : Reference} (hselector : r.selector = .latest) :
    Offers (complete t path source cursor) r.name.value ↔
      (∃ s, t.resolve document r wanted = .ok s) ∧ ¬t.HoldsBack document wanted r.name.value ∨
        t.Hides document wanted r.name.value := by
  rw [SymbolTable.exists_resolve_iff hselector, ← acceptsAny_candidates_iff]
  exact offers_complete_iff r.name.value ht hpath htext hsite

end Linked

/-- A command that is imported under another name is offered where commands are received, and the
event beside it is not. -/
theorem offers_iff_resolves_alias :
    let source := "import \x7b Place as Order \x7d from \"catalog.ec\"\nservice Shop \x7b\n" ++
      "  receives command \n\x7d\n"
    let sources := [(DocumentPath.ofString "catalog.ec", "event Placed\ncommand Place\n"),
      (DocumentPath.ofString "shop.ec", source)]
    let t := SymbolTable.linkTexts 1 sources
    Offers (complete t (.ofString "shop.ec") source 78) "Order" ∧
      ¬Offers (complete t (.ofString "shop.ec") source 78) "Placed" := by
  intro source sources t
  have hpath : t.documentAt? (.ofString "shop.ec") = some 1 := by decide +kernel
  have htext : sources[1]? = some (.ofString "shop.ec", source) := rfl
  have hsite : Site.classify (Text.upTo 78 source.toList) = (.reference (.only .command) [], []) := by
    decide +kernel
  let reference (name : String) : Reference := ⟨⟨name, ⟨0, 0⟩⟩, .latest, none⟩
  have horder := offers_iff_resolves rfl hpath htext hsite (r := reference "Order") rfl
  have hplaced := offers_iff_resolves rfl hpath htext hsite (r := reference "Placed") rfl
  rw [SymbolTable.exists_resolve_iff rfl] at horder hplaced
  constructor
  · exact horder.mpr (by decide +kernel)
  · exact fun h => absurd (hplaced.mp h) (by decide +kernel)

/-! ### A hidden definition -/

/-- A name that is imported for an event hides a command of that name from references, and is offered
for it. -/
theorem not_offers_iff_resolves :
    ¬∀ (generation : Nat) (sources : List (DocumentPath × String)) (path : DocumentPath)
      (source : String) (document cursor : Nat) (wanted : Wanted) (words : List String)
      (r : Reference),
      let t := SymbolTable.linkTexts generation sources
      t.documentAt? path = some document → sources[document]? = some (path, source) →
        Site.classify (Text.upTo cursor source.toList) = (.reference wanted words, []) →
        r.selector = .latest →
        (Offers (complete t path source cursor) r.name.value ↔
          ∃ s, t.resolve document r wanted = .ok s) := by
  intro h
  let source := "import \x7b A as B \x7d from \"b.ec\"\nservice S \x7b\n  receives command \n\x7d\n"
  let sources := [(DocumentPath.ofString "a.ec", source),
    (DocumentPath.ofString "b.ec", "event A\ncommand B\n")]
  have hpath : (SymbolTable.linkTexts 1 sources).documentAt? (.ofString "a.ec") = some 0 := by
    decide +kernel
  have hsite : Site.classify (Text.upTo 61 source.toList) = (.reference (.only .command) [], []) := by
    decide +kernel
  have hiff := h 1 sources _ source 0 61 _ _ ⟨⟨"B", ⟨0, 0⟩⟩, .latest, none⟩ hpath rfl hsite rfl
  rw [offers_complete_iff "B" rfl hpath rfl hsite, SymbolTable.exists_resolve_iff rfl] at hiff
  exact absurd (hiff.mp (.inr (by decide +kernel))) (by decide +kernel)

end Completion

end EventCatalog
