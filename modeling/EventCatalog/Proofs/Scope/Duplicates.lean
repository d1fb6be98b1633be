import EventCatalog.Proofs.Scope.Identity
import Mathlib.Data.Finset.Card

/-! # Which definitions are duplicates

Definitions of one name whose versions are the same up to spelling make up a class, and so do those of
one name without a version.  The first of a class takes the name and the version.  Each other one is a
duplicate, unless it is in another document and an import of one of the two documents renames what
the other defines (`SymbolTable.duplicates_exact`). -/

namespace EventCatalog

open Syntax

section

variable {α β γ : Type}

/-- In an ordered list, the first item with a property is the one that comes before all others. -/
theorem find?_eq_some_iff_of_pairwise {R : α → α → Prop} {items : List α}
    (hpairs : items.Pairwise R) (hasymm : ∀ a b, R a b → ¬R b a) {p : α → Bool} {a : α} :
    items.find? p = some a ↔
      (a ∈ items ∧ p a = true) ∧ ∀ b ∈ items, p b = true → b ≠ a → R a b := by
  have hfirst : ∀ {a}, items.find? p = some a → ∀ b ∈ items, p b = true → b ≠ a → R a b := by
    intro a h b hb hp hne
    obtain ⟨-, before, after, rfl, hbefore⟩ := List.find?_eq_some_iff_append.mp h
    rcases List.mem_append.mp hb with hb | hb
    · have hp' := hbefore b hb
      rw [hp] at hp'
      cases hp'
    · exact List.rel_of_pairwise_cons (List.pairwise_append.mp hpairs).2.1
        ((List.mem_cons.mp hb).resolve_left hne)
  refine ⟨fun h => ⟨⟨List.mem_of_find?_eq_some h, List.find?_some h⟩, hfirst h⟩, ?_⟩
  rintro ⟨⟨ha, hp⟩, hothers⟩
  obtain ⟨b, hb⟩ := Option.isSome_iff_exists.mp (List.find?_isSome.mpr ⟨a, ha, hp⟩)
  by_cases hne : b = a
  · rwa [hne] at hb
  · exact absurd (hfirst hb a ha hp (Ne.symm hne))
      (hasymm _ _ (hothers b (List.mem_of_find?_eq_some hb) (List.find?_some hb) hne))

/-- There are as many first items of their class as there are classes. -/
theorem length_filter_first [DecidableEq β] [BEq β] [LawfulBEq β] [BEq γ] [LawfulBEq γ]
    {items : List α} {key : α → γ} (hkeys : (items.map key).Nodup) (f : α → β) :
    (items.filter fun a => (items.find? (f · == f a)).any (key · == key a)).length =
      (items.map f).toFinset.card := by
  have hfirst : ∀ a, a ∈ items.filter (fun a => (items.find? (f · == f a)).any (key · == key a)) ↔
      items.find? (f · == f a) = some a := by
    intro a
    rw [List.mem_filter, Option.any_eq_true]
    constructor
    · rintro ⟨ha, b, hb, hkey⟩
      have heq := List.inj_on_of_nodup_map hkeys (List.mem_of_find?_eq_some hb) ha (beq_iff_eq.mp hkey)
      rwa [heq] at hb
    · exact fun h => ⟨List.mem_of_find?_eq_some h, a, h, beq_self_eq_true _⟩
  rw [← List.length_map f, ← List.toFinset_card_of_nodup]
  · congr 1
    ext b
    simp only [List.mem_toFinset, List.mem_map, hfirst]
    constructor
    · rintro ⟨a, ha, rfl⟩
      exact ⟨a, List.mem_of_find?_eq_some ha, rfl⟩
    · rintro ⟨a, ha, rfl⟩
      have hsome : (items.find? (f · == f a)).isSome = true :=
        List.find?_isSome.mpr ⟨a, ha, beq_self_eq_true (f a)⟩
      obtain ⟨first, hfind⟩ := Option.isSome_iff_exists.mp hsome
      have hlike := List.find?_some hfind
      rw [beq_iff_eq] at hlike
      exact ⟨first, by rwa [hlike], hlike⟩
  · refine (hkeys.of_map.filter _).map_on fun a ha b hb heq => ?_
    have ha := (hfirst a).mp ha
    rw [heq, (hfirst b).mp hb] at ha
    exact (Option.some.inj ha).symm

end

namespace Symbol

/-- What the definitions of a class have in common: their name, and their version up to spelling. -/
def title (s : Symbol) : String × Option String := (s.name, s.version.map Version.normalize)

theorem title_eq_iff {s u : Symbol} :
    s.title = u.title ↔ s.name = u.name ∧ SymbolTable.sameVersion u s = true := by
  rw [title, title, Prod.mk.injEq, SymbolTable.sameVersion, beq_iff_eq]
  exact and_congr_right fun _ => eq_comm

end Symbol

namespace SymbolTable

variable {t : SymbolTable} {s first : Symbol}

/-! ### The first of a class -/

/-- The first definition with the title of another one. -/
structure FirstOf (t : SymbolTable) (s first : Symbol) : Prop where
  mem : first ∈ t.exports
  title_eq : first.title = s.title
  before : ∀ u ∈ t.exports, u.title = s.title → u ≠ first → first.order u = .lt

theorem firstLike?_eq (t : SymbolTable) (s : Symbol) :
    t.firstLike? s = t.exports.find? (·.title == s.title) := by
  rw [firstLike?, lookup, List.find?_filter]
  refine congrArg (List.find? · t.exports) (funext fun u => ?_)
  rw [Bool.eq_iff_iff]
  simp [Symbol.title_eq_iff]

theorem firstLike?_eq_some_iff (hsorted : t.exports.Pairwise fun s u => s.order u = .lt) :
    t.firstLike? s = some first ↔ t.FirstOf s first := by
  have hasymm : ∀ s u : Symbol, s.order u = .lt → ¬u.order s = .lt := by
    intro s u h h'
    rw [Symbol.order_eq_lt_iff] at h h'
    omega
  rw [firstLike?_eq, find?_eq_some_iff_of_pairwise hsorted hasymm]
  simp only [beq_iff_eq]
  constructor
  · rintro ⟨⟨hmem, htitle⟩, hbefore⟩
    exact ⟨hmem, htitle, hbefore⟩
  · exact fun h => ⟨⟨h.mem, h.title_eq⟩, h.before⟩

/-! ### Renaming imports -/

/-- A document imports a name from another document under a different local name.  Of several imports
under that local name the last one counts. -/
def Renames (documents : List Document) (document source : Nat) (name : String) : Prop :=
  ∃ d, documents[document]? = some d ∧ ∃ localName i n,
    d.importOf? localName = some (i, n) ∧ n.name.value = name ∧ localName ≠ name ∧
      lastAt? documents (d.path.join i.source.value) = some source

/-- Two definitions of a class may stand side by side: they are in different documents, and one of
these renames what the other defines. -/
def Exempt (documents : List Document) (first s : Symbol) : Prop :=
  first.document ≠ s.document ∧ (Renames documents first.document s.document s.name ∨
    Renames documents s.document first.document s.name)

theorem renames_link_iff (generation : Nat) (documents : List Document) {document source : Nat}
    {name : String} : (link generation documents).renames document source name = true ↔
      Renames documents document source name := by
  rw [renames, List.any_eq_true]
  cases hd : documents[document]? with
  | none => simp [Renames, imports_link, hd]
  | some d =>
    have hmem : ∀ localName b, (localName, b) ∈ (link generation documents).imports document ↔
        ∃ i n, d.importOf? localName = some (i, n) ∧ bindingOf documents d i n = b := by
      intro localName b
      have hentry : (localName, b) ∈ (link generation documents).imports document ↔
          ((link generation documents).imports document).get? localName = some b :=
        ⟨Entries.get?_of_mem (nodup_imports_link generation documents document),
          Entries.mem_of_get?⟩
      rw [hentry, get?_imports_link generation hd, Option.map_eq_some_iff, Prod.exists]
    simp only [Prod.exists, hmem, Renames, hd, Option.some.injEq, exists_eq_left']
    constructor
    · rintro ⟨localName, _, ⟨i, n, himport, rfl⟩, h⟩
      simp only [bindingOf, Bool.and_eq_true, beq_iff_eq, bne_iff_ne] at h
      exact ⟨localName, i, n, himport, h.1.2, h.2, h.1.1⟩
    · rintro ⟨localName, i, n, himport, hname, hlocal, hsource⟩
      refine ⟨localName, _, ⟨i, n, himport, rfl⟩, ?_⟩
      simp [bindingOf, hname, hlocal, hsource]

theorem exempt_link_iff (generation : Nat) (documents : List Document) {first s : Symbol} :
    (link generation documents).exempt first s = true ↔ Exempt documents first s := by
  rw [exempt, Bool.and_eq_true, bne_iff_ne, Bool.or_eq_true, renames_link_iff, renames_link_iff,
    Exempt]

/-! ### Duplicates -/

theorem duplicate?_eq_some_iff {d : Duplicate} : t.duplicate? s = some d ↔
    d.symbol = s ∧ t.firstLike? s = some d.first ∧ d.first.key ≠ s.key ∧
      t.exempt d.first s = false := by
  rw [duplicate?]
  cases t.firstLike? s with
  | none => simp
  | some first =>
    obtain ⟨symbol, taken⟩ := d
    simp only [Option.some.injEq]
    split
    · rename_i h
      rw [Bool.or_eq_true, beq_iff_eq] at h
      refine iff_of_false (by rintro ⟨⟩) ?_
      rintro ⟨rfl, rfl, hkey, hexempt⟩
      rw [hexempt] at h
      exact h.elim hkey (by rintro ⟨⟩)
    · rename_i h
      rw [Bool.or_eq_true, beq_iff_eq, not_or, Bool.not_eq_true] at h
      simp only [Option.some.injEq, Duplicate.mk.injEq]
      constructor
      · rintro ⟨rfl, rfl⟩
        exact ⟨rfl, rfl, h⟩
      · rintro ⟨rfl, rfl, -⟩
        exact ⟨rfl, rfl⟩

theorem mem_duplicates {d : Duplicate} :
    d ∈ t.duplicates ↔ d.symbol ∈ t.exports ∧ t.duplicate? d.symbol = some d := by
  rw [duplicates, List.mem_filterMap]
  constructor
  · rintro ⟨s, hs, hd⟩
    obtain rfl := (duplicate?_eq_some_iff.mp hd).1
    exact ⟨hs, hd⟩
  · rintro ⟨hs, hd⟩
    exact ⟨_, hs, hd⟩

/-- Where definitions are sorted, duplicates are in the order of them. -/
theorem sorted_duplicates (hsorted : t.exports.Pairwise fun s u => s.order u = .lt) :
    t.duplicates.Pairwise fun d e => d.symbol.order e.symbol = .lt := by
  refine List.pairwise_filterMap.mpr (hsorted.imp fun {s u} hlt d hd e he => ?_)
  rwa [(duplicate?_eq_some_iff.mp hd).1, (duplicate?_eq_some_iff.mp he).1]

/-- What is no duplicate where nothing is exempt is the first of its class. -/
theorem isSome_duplicate? (hexempt : ∀ s u, t.exempt s u = false) (hs : s ∈ t.exports) :
    (t.duplicate? s).isSome =
      !(t.exports.find? (·.title == s.title)).any (·.key == s.key) := by
  have hsome : (t.exports.find? (·.title == s.title)).isSome = true :=
    List.find?_isSome.mpr ⟨s, hs, beq_self_eq_true s.title⟩
  obtain ⟨first, hfirst⟩ := Option.isSome_iff_exists.mp hsome
  rw [duplicate?, firstLike?_eq, hfirst]
  simp only [hexempt, Bool.or_false, Option.any_some]
  split
  · rename_i hkey
    rw [hkey]
    rfl
  · rename_i hkey
    rw [Bool.not_eq_true] at hkey
    rw [hkey]
    rfl

/-- Where nothing is exempt, all but the first definitions of their classes are duplicates. -/
theorem Regular.length_duplicates (ht : t.Regular) (hexempt : ∀ s u, t.exempt s u = false) :
    t.duplicates.length + (t.exports.map Symbol.title).toFinset.card = t.exports.length := by
  have hduplicates : t.duplicates.length = (t.exports.filter fun s =>
      !(t.exports.find? (·.title == s.title)).any (·.key == s.key)).length := by
    rw [duplicates, List.length_filterMap_eq_countP, List.countP_eq_length_filter]
    exact congrArg _ (List.filter_congr fun s hs => isSome_duplicate? hexempt hs)
  rw [hduplicates, ← length_filter_first ht.nodup_keys, Nat.add_comm]
  exact (List.length_eq_length_filter_add _).symm

/-- Duplicate detection is exact.  A definition is reported if it is not the first of its class and it
is not exempt; the report names that first definition, and is made once, in the order of the
definitions.  Without aliases there is a report for each definition but one of each class. -/
theorem duplicates_exact (generation : Nat) (sources : List (DocumentPath × String)) :
    let documents := sources.map fun (path, text) => Document.read path text
    let t := linkTexts generation sources
    (∀ s ∈ t.exports, (∃ d ∈ t.duplicates, d.symbol = s) ↔
      ∃ first, t.FirstOf s first ∧ first ≠ s ∧ ¬Exempt documents first s) ∧
    (∀ d ∈ t.duplicates, d.symbol ∈ t.exports ∧ t.FirstOf d.symbol d.first) ∧
    (t.duplicates.Pairwise fun d e => d.symbol.order e.symbol = .lt) ∧
    (Unaliased sources →
      t.duplicates.length + (t.exports.map Symbol.title).toFinset.card = t.exports.length) := by
  intro documents t
  have hsorted : t.exports.Pairwise fun s u => s.order u = .lt := sorted_exports generation sources
  have ht : t.Regular := regular_link_read generation sources
  have hexempt : ∀ first s, t.exempt first s = false ↔ ¬Exempt documents first s := by
    intro first s
    rw [← exempt_link_iff generation, Bool.not_eq_true]
  refine ⟨fun s hs => ⟨?_, ?_⟩, fun d hd => ?_, sorted_duplicates hsorted, fun h => ?_⟩
  · rintro ⟨d, hd, rfl⟩
    obtain ⟨-, hfirst, hkey, hnot⟩ := duplicate?_eq_some_iff.mp (mem_duplicates.mp hd).2
    exact ⟨d.first, (firstLike?_eq_some_iff hsorted).mp hfirst,
      fun heq => hkey (congrArg Symbol.key heq), (hexempt _ _).mp hnot⟩
  · rintro ⟨first, hfirst, hne, hnot⟩
    have hkey : first.key ≠ s.key := fun heq => hne (ht.eq_of_key_eq hfirst.mem hs heq)
    refine ⟨⟨s, first⟩, mem_duplicates.mpr ⟨hs, duplicate?_eq_some_iff.mpr ?_⟩, rfl⟩
    exact ⟨rfl, (firstLike?_eq_some_iff hsorted).mpr hfirst, hkey, (hexempt _ _).mpr hnot⟩
  · obtain ⟨hs, hd⟩ := mem_duplicates.mp hd
    exact ⟨hs, (firstLike?_eq_some_iff hsorted).mp (duplicate?_eq_some_iff.mp hd).2.1⟩
  · exact ht.length_duplicates (exempt_linkTexts h generation)

/-- One event whose version is spelled in two ways is defined twice. -/
theorem duplicates_exact_spellings :
    let sources := [(DocumentPath.ofString "events.ec",
      "event A \x7b version 1 \x7d\nevent A \x7b version 1.0.0 \x7d\n")]
    (linkTexts 1 sources).duplicates.length = 1 := by
  intro sources
  have hcount := (duplicates_exact 1 sources).2.2.2 (by decide +kernel)
  have hclasses : ((linkTexts 1 sources).exports.map Symbol.title).toFinset.card = 1 := by
    decide +kernel
  have hdefinitions : (linkTexts 1 sources).exports.length = 2 := by decide +kernel
  omega

end SymbolTable

end EventCatalog
