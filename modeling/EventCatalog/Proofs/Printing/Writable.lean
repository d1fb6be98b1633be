import EventCatalog.Proofs.Printing.Writer
import EventCatalog.Proofs.Syntax.Definitions

/-! # Trees that can be written

What a tree needs to be written without loss (`Program.Writable`): names are words that are not
keywords, selectors are values of `Selector.parse`, attributes are those that the kind takes, lists
that cannot be written empty are not empty, and the definitions inside a definition stand in place
of its references, in order.  Strings are arbitrary.  Which words are names of annotations is left
open here.

Written trees are legible (`Program.legible_lines`): their tokens are all their spellings are read
as. -/

namespace EventCatalog

namespace Selector

/-- The text of a selector denotes the selector. -/
theorem parse_toString_parse (raw : String) : parse (parse raw).toString = parse raw := by
  have htrim : Text.trimString (Text.trimString raw) = Text.trimString raw := by
    rw [Text.trimString, Text.trimString, String.toList_ofList, Text.trim_trim]
  unfold parse
  simp only
  split
  · decide +kernel
  rename_i hlatest
  split
  · rename_i hexact
    rw [toString, text?, Option.getD_some, htrim, if_neg hlatest, if_pos hexact]
  rename_i hexact
  cases hrange : Requirement.parse? (Text.trimString raw) with
  | none =>
    simp only
    rw [toString, text?, Option.getD_some, htrim, if_neg hlatest, if_neg hexact, hrange]
  | some requirement =>
    simp only
    rw [toString, text?, Option.getD_some, htrim, if_neg hlatest, if_neg hexact, hrange]

/-- The selectors that texts denote are those that their own texts denote. -/
theorem exists_parse_iff {s : Selector} : (∃ raw, parse raw = s) ↔ parse s.toString = s :=
  ⟨by rintro ⟨raw, rfl⟩; exact parse_toString_parse raw, fun h => ⟨_, h⟩⟩

instance (s : Selector) : Decidable (∃ raw, parse raw = s) :=
  decidable_of_iff _ exists_parse_iff.symm

end Selector

namespace Syntax

open Token

/-! ### Names -/

/-- The words that have a meaning somewhere in the language. -/
def keywords : List String :=
  Kind.all.map (·.keyword) ++
    ["import", "from", "as", "version", "to", "and", "when", "true", "false", "sends", "receives",
      "owns", "subdomain", "writes-to", "reads-from", "reads-writes", "route", "parameter", "uses",
      "member", "input", "output", "contract", "name", "summary", "owner", "deprecated", "draft",
      "schema", "address", "protocol", "identifier", "aggregate-root", "container-type",
      "technology", "authoritative", "access-mode", "classification", "residency", "retention",
      "email", "role", "avatar", "slack", "description", "default", "enum", "examples"]

theorem isLone_of_mem_keywords : ∀ w ∈ keywords, (identifier w).IsLone := by
  decide +kernel

/-- A word that is no keyword. -/
def IsName (s : String) : Prop := (identifier s).IsLone ∧ s ∉ keywords

instance : DecidablePred IsName := fun _ => inferInstanceAs (Decidable (_ ∧ _))

theorem IsName.ne {s w : String} (hs : IsName s) (hw : w ∈ keywords) : s ≠ w :=
  fun heq => hs.2 (heq ▸ hw)

theorem mem_keywords_of_attributeShape? {k : Kind} {word : String} {shape : AttributeShape}
    (h : attributeShape? k word = some shape) : word ∈ keywords := by
  unfold attributeShape? at h
  split at h <;> first | decide | cases h

/-- Names open no attribute. -/
theorem IsName.attributeShape? {s : String} (hs : IsName s) (k : Kind) :
    attributeShape? k s = none := by
  cases h : Syntax.attributeShape? k s with
  | none => rfl
  | some shape => exact absurd (mem_keywords_of_attributeShape? h) hs.2

/-! ### Phrases and statements -/

/-- The name is a name, the selector is what some text denotes, and a selector other than the
latest has a place. -/
def Reference.Writable (r : Reference) : Prop :=
  IsName r.name.value ∧ (∃ raw, Selector.parse raw = r.selector) ∧
    (r.selectorSpan = none → r.selector = .latest)

instance : DecidablePred Reference.Writable := fun _ => inferInstanceAs (Decidable (_ ∧ _ ∧ _))

/-- Something is imported, under names. -/
def Import.Writable (i : Import) : Prop :=
  i.names ≠ [] ∧ ∀ n ∈ i.names, IsName n.name.value ∧ ∀ r ∈ n.renamed, IsName r.value

instance : DecidablePred Import.Writable := fun _ => inferInstanceAs (Decidable (_ ∧ _))

/-- The name is among the given ones and keys are words. -/
def Note.Writable (names : String → Prop) (a : Note) : Prop :=
  names a.name.value ∧ ∀ x ∈ a.arguments, ∀ key ∈ x.key, (identifier key).IsLone

instance (names : String → Prop) [DecidablePred names] : DecidablePred (Note.Writable names) :=
  fun _ => inferInstanceAs (Decidable (_ ∧ _))

/-- The kind is one of messages. -/
def Message.Writable (m : Message) : Prop :=
  m.kind.value.isMessage = true ∧ m.target.Writable ∧ ∀ c ∈ m.channels, c.Writable

instance : DecidablePred Message.Writable := fun _ => inferInstanceAs (Decidable (_ ∧ _ ∧ _))

/-- Whether the fields of a parameter include one of the key with such a value. -/
def parameterFits (field : String × AttributeValue) : Bool :=
  match field.2 with
  | .text _ => field.1 == "description" || field.1 == "default"
  | .list _ => field.1 == "enum" || field.1 == "examples"
  | .flag _ => false

/-- Every field is one of a parameter, and none is given twice. -/
def Parameter.Writable (p : Parameter) : Prop :=
  (p.attributes.map (·.1)).Nodup ∧ ∀ field ∈ p.attributes, parameterFits field = true

instance : DecidablePred Parameter.Writable := fun _ => inferInstanceAs (Decidable (_ ∧ _))

/-- The step is a label, or a reference that can be written. -/
def Step.Writable : Step → Prop
  | reference target _ => target.Writable
  | node _ => True

instance : DecidablePred Step.Writable
  | .reference target _ => inferInstanceAs (Decidable target.Writable)
  | .node _ => .isTrue trivial

/-- The target and what it leads to can be written. -/
def Action.Writable (a : Action) : Prop :=
  a.target.Writable ∧ ∀ o ∈ a.outputs, o.target.Writable

instance : DecidablePred Action.Writable := fun _ => inferInstanceAs (Decidable (_ ∧ _))

/-- There is a condition. -/
def Trigger.Writable (t : Trigger) : Prop :=
  t.conditions ≠ [] ∧ (∀ c ∈ t.conditions, c.Writable) ∧ ∀ a ∈ t.actions, a.Writable

instance : DecidablePred Trigger.Writable := fun _ => inferInstanceAs (Decidable (_ ∧ _ ∧ _))

/-- Keys of the contract are words, none of which is given twice. -/
def Product.Writable (p : Product) : Prop :=
  p.target.target.Writable ∧ (p.contract.map (·.1)).Nodup ∧
    ∀ field ∈ p.contract, (identifier field.1).IsLone

instance : DecidablePred Product.Writable := fun _ => inferInstanceAs (Decidable (_ ∧ _ ∧ _))

/-- Whether a kind has an attribute of the key for which one statement gives such a value; the
items of a list are given one by one. -/
def attributeFits (k : Kind) (key : String) (value : AttributeValue) : Bool :=
  match attributeShape? k (attributeWord key), value with
  | some .text, .text _ => true
  | some .flag, .flag _ => true
  | some (.list gathered), .list [_] => gathered == key
  | _, _ => false

namespace Statement

/-- The statement can be written in a block of the kind, where the given names are those of
annotations. -/
def Writable (names : String → Prop) (k : Kind) : Statement → Prop
  | note a => a.Writable names
  | version _ => True
  | .attribute key v => attributeFits k key v.value = true
  | member _ _ target _ => target.Writable
  | message _ m => m.Writable
  | owns r => r.target.Writable
  | reference _ r => r.Writable
  | parameter p => p.Writable
  | chain steps => steps ≠ [] ∧ ∀ s ∈ steps, s.Writable
  | trigger t => t.Writable
  | input r => r.target.Writable
  | output p => p.Writable
  | unknown _ _ => False

instance (names : String → Prop) [DecidablePred names] (k : Kind) :
    DecidablePred (Writable names k)
  | note a => inferInstanceAs (Decidable (a.Writable names))
  | version _ => .isTrue trivial
  | .attribute key v => inferInstanceAs (Decidable (attributeFits k key v.value = true))
  | member _ _ target _ => inferInstanceAs (Decidable target.Writable)
  | message _ m => inferInstanceAs (Decidable m.Writable)
  | owns r => inferInstanceAs (Decidable r.target.Writable)
  | reference _ r => inferInstanceAs (Decidable r.Writable)
  | parameter p => inferInstanceAs (Decidable p.Writable)
  | chain steps => inferInstanceAs (Decidable (steps ≠ [] ∧ ∀ s ∈ steps, s.Writable))
  | trigger t => inferInstanceAs (Decidable t.Writable)
  | input r => inferInstanceAs (Decidable r.target.Writable)
  | output p => inferInstanceAs (Decidable p.Writable)
  | unknown _ _ => .isFalse id

/-- A definition may stand in place of the reference of the statement: it has the name and the kind
that the statement says, and the reference asks for no version. -/
def Admits (s : Statement) (c : Definition) : Prop :=
  ∀ o ∈ s.opening?, o.kind = c.kind ∧ o.target.name.value = c.name.value ∧
    o.target.selector = .latest ∧ o.target.selectorSpan = none

instance (s : Statement) (c : Definition) : Decidable (s.Admits c) :=
  inferInstanceAs (Decidable (∀ o ∈ s.opening?, _))

end Statement

/-! ### Definitions and documents -/

/-- The definition itself can be written, those inside it aside: all its statements can, and those
inside it stand in place of its references, in the order of their identifiers. -/
structure Definition.Writable (names : String → Prop) (d : Definition) : Prop where
  name : IsName d.name.value
  keys : (d.attributes.map (·.1)).Nodup
  lists : ∀ e ∈ d.attributes, e.2.value ≠ .list []
  statements : ∀ s ∈ d.statements, s.Writable names d.kind
  increasing : ∀ group ∈ d.body.groups, (group.filterMap (·.inlined?)).Pairwise (· < ·)
  inlined : (d.body.groups.flatten.filterMap (·.inlined?)).Perm (d.nested.map (·.id))
  admitted : ∀ s ∈ d.body.groups.flatten, ∀ c ∈ d.nested, s.inlined? = some c.id → s.Admits c

instance (names : String → Prop) [DecidablePred names] :
    DecidablePred (Definition.Writable names) :=
  fun d => decidable_of_iff
    (IsName d.name.value ∧ (d.attributes.map (·.1)).Nodup ∧
      (∀ e ∈ d.attributes, e.2.value ≠ .list []) ∧
      (∀ s ∈ d.preamble ++ (d.body.groups.flatten ++ d.body.others), s.Writable names d.kind) ∧
      (∀ group ∈ d.body.groups, (group.filterMap (·.inlined?)).Pairwise (· < ·)) ∧
      (d.body.groups.flatten.filterMap (·.inlined?)).Perm (d.nested.map (·.id)) ∧
      ∀ s ∈ d.body.groups.flatten, ∀ c ∈ d.nested, s.inlined? = some c.id → s.Admits c)
    ⟨fun ⟨h₁, h₂, h₃, h₄, h₅, h₆, h₇⟩ =>
        ⟨h₁, h₂, h₃, fun s hs => h₄ s (d.statements_perm.mem_iff.mp hs), h₅, h₆, h₇⟩,
      fun h => ⟨h.name, h.keys, h.lists,
        fun s hs => h.statements s (d.statements_perm.mem_iff.mpr hs), h.increasing, h.inlined,
        h.admitted⟩⟩

/-- All parts of the document can be written, and its definitions are numbered in the order in
which they begin. -/
structure Program.Writable (names : String → Prop) (p : Program) : Prop where
  imports : ∀ i ∈ p.imports, i.Writable
  definitions : ∀ d ∈ p.all, d.Writable names
  ids : p.all.map (·.id) = List.range p.all.length

instance (names : String → Prop) [DecidablePred names] : DecidablePred (Program.Writable names) :=
  fun p => decidable_of_iff
    ((∀ i ∈ p.imports, i.Writable) ∧ (∀ d ∈ p.all, d.Writable names) ∧
      p.all.map (·.id) = List.range p.all.length)
    ⟨fun ⟨h₁, h₂, h₃⟩ => ⟨h₁, h₂, h₃⟩, fun h => ⟨h.imports, h.definitions, h.ids⟩⟩

/-! ### Legibility -/

theorem legible_word {s : String} {ts : List Token} (h : (identifier s).IsLone)
    (hts : Legible ts) : Legible (.identifier s :: ts) :=
  .cons rfl nofun (fun _ => h) hts

theorem legible_keyword {s : String} {ts : List Token} (h : s ∈ keywords) (hts : Legible ts) :
    Legible (.identifier s :: ts) :=
  legible_word (isLone_of_mem_keywords s h) hts

theorem legible_kind (k : Kind) {ts : List Token} (hts : Legible ts) :
    Legible (.identifier k.keyword :: ts) :=
  legible_keyword (List.mem_append_left _ (List.mem_map_of_mem (Kind.mem_all k))) hts

/-- A token that nothing prolongs needs no care. -/
theorem legible_mark {t : Token} {ts : List Token} (htrivia : t.isTrivia = false)
    (hsign : t ≠ .atSign) (hopen : t.isOpenEnded = false) (hts : Legible ts) :
    Legible (t :: ts) :=
  .cons htrivia hsign (fun h => absurd h (by rw [hopen]; decide)) hts

theorem legible_text (s : String) {ts : List Token} (hts : Legible ts) :
    Legible (.stringLiteral s :: ts) :=
  legible_mark rfl nofun rfl hts

theorem legible_joined {separator : Token} {items : List (List Token)}
    (hseparator : ∀ {ts}, Legible ts → Legible (separator :: ts))
    (h : ∀ item ∈ items, Legible item) : Legible (joined separator items) := by
  cases items with
  | nil => exact .nil
  | cons item items =>
    exact (h item List.mem_cons_self).append (Legible.flatMap fun next hnext =>
      hseparator (h next (List.mem_cons_of_mem item hnext)))

theorem legible_comma {ts : List Token} (hts : Legible ts) : Legible (.comma :: ts) :=
  legible_mark rfl nofun rfl hts

theorem legible_versionTokens (text : String) : Legible (versionTokens text) := by
  unfold versionTokens
  split
  · rename_i h
    exact .cons rfl nofun (fun _ => h) .nil
  · exact legible_text text .nil

theorem legible_labelTokens (label : Option (Located String)) : Legible (labelTokens label) := by
  cases label with
  | none => exact .nil
  | some label => exact legible_text _ .nil

theorem legible_stringsTokens (items : List String) : Legible (stringsTokens items) := by
  unfold stringsTokens
  refine Legible.append (legible_mark rfl nofun rfl (legible_joined legible_comma ?_))
    (legible_mark rfl nofun rfl .nil)
  intro item hitem
  obtain ⟨s, -, rfl⟩ := List.mem_map.mp hitem
  exact legible_text s .nil

theorem AttributeValue.legible_tokens (value : AttributeValue) : Legible value.tokens := by
  cases value with
  | text s => exact legible_text s .nil
  | flag b => cases b <;> exact legible_keyword (by decide) .nil
  | list items => exact legible_stringsTokens items

theorem legible_selectorTokens (text : String) : Legible (selectorTokens text) := by
  unfold selectorTokens
  split
  · rename_i h
    exact .cons rfl nofun (fun _ => h) .nil
  · exact .quoted .nil

theorem Reference.Writable.legible {r : Reference} (h : r.Writable) : Legible r.tokens := by
  refine legible_word h.1.1 ?_
  unfold selectorPart
  split
  · exact legible_selectorTokens _
  · exact .nil

theorem TypedReference.legible {r : TypedReference} (h : r.target.Writable) : Legible r.tokens :=
  legible_kind _ h.legible

theorem Import.Writable.legible {i : Import} (h : i.Writable) : Legible i.tokens := by
  unfold tokens
  refine Legible.append (legible_keyword (by decide) (legible_mark rfl nofun rfl
    (legible_joined legible_comma ?_)))
    (legible_mark rfl nofun rfl (legible_keyword (by decide) (legible_text _ .nil)))
  intro item hitem
  obtain ⟨n, hn, rfl⟩ := List.mem_map.mp hitem
  obtain ⟨hname, hrenamed⟩ := h.2 n hn
  refine legible_word hname.1 ?_
  split
  · rename_i renamed hr
    exact legible_keyword (by decide) (legible_word (hrenamed renamed hr).1 .nil)
  · exact .nil

/-- Words that are not taken for version selectors behind an at sign. -/
def IsNoteName (name : String) : Prop :=
  (identifier name).IsLone ∧
    Front.isSelector (name.toList.takeWhile Front.isSelectorChar) = false

theorem Note.Writable.legible {names : String → Prop} (hnames : ∀ n, names n → IsNoteName n)
    {a : Note} (h : a.Writable names) : Legible a.tokens := by
  obtain ⟨hlone, hselector⟩ := hnames _ h.1
  refine .note hlone hselector ?_
  split
  · exact .nil
  refine Legible.append (legible_mark rfl nofun rfl (legible_joined legible_comma ?_))
    (legible_mark rfl nofun rfl .nil)
  intro item hitem
  obtain ⟨x, hx, rfl⟩ := List.mem_map.mp hitem
  unfold Argument.tokens
  split
  · rename_i key hkey
    exact legible_word (h.2 x hx key hkey) (legible_mark rfl nofun rfl (legible_text _ .nil))
  · exact legible_text _ .nil

theorem mem_keywords_of_parameterFits {field : String × AttributeValue}
    (h : parameterFits field = true) : field.1 ∈ keywords := by
  unfold parameterFits at h
  split at h
  · simp only [Bool.or_eq_true, beq_iff_eq] at h
    obtain h | h := h <;> rw [h] <;> decide
  · simp only [Bool.or_eq_true, beq_iff_eq] at h
    obtain h | h := h <;> rw [h] <;> decide
  · cases h

theorem Parameter.Writable.legible {p : Parameter} (h : p.Writable) : Legible p.tokens := by
  refine legible_keyword (by decide) (legible_text _ ?_)
  split
  · exact .nil
  · refine Legible.append (legible_mark rfl nofun rfl (Legible.flatMap fun field hfield => ?_))
      (legible_mark rfl nofun rfl .nil)
    exact legible_keyword (mem_keywords_of_parameterFits (h.2 field hfield))
      (AttributeValue.legible_tokens field.2)

theorem Product.legible_contractTokens {p : Product} (h : p.Writable) :
    Legible (contractTokens p.contract) := by
  unfold contractTokens
  split
  · exact .nil
  · refine Legible.append (legible_mark rfl nofun rfl (legible_keyword (by decide)
      (legible_mark rfl nofun rfl (Legible.flatMap fun field hfield => ?_))))
      (legible_mark rfl nofun rfl (legible_mark rfl nofun rfl .nil))
    exact legible_word (h.2.2 field hfield) (legible_text _ .nil)

theorem Step.Writable.legible {s : Step} (h : s.Writable) : Legible s.tokens := by
  cases s with
  | reference target label =>
    exact (Reference.Writable.legible h).append (legible_labelTokens label)
  | node label => exact legible_text _ .nil

theorem Action.Writable.legible {a : Action} (h : a.Writable) : Legible a.tokens := by
  refine (h.1.legible.append (legible_labelTokens _)).append (Legible.flatMap fun o ho => ?_)
  refine legible_mark rfl nofun rfl ?_
  unfold Output.tokens
  split
  · exact legible_text _ (legible_mark rfl nofun rfl (h.2 o ho).legible)
  · exact (h.2 o ho).legible

theorem Trigger.Writable.legible {t : Trigger} (h : t.Writable) : Legible t.tokens := by
  unfold tokens
  refine Legible.append (legible_keyword (by decide)
    (legible_joined (legible_keyword (by decide)) ?_))
    (Legible.flatMap fun a ha => (h.2.2 a ha).legible)
  intro item hitem
  obtain ⟨c, hc, rfl⟩ := List.mem_map.mp hitem
  exact (h.2.1 c hc).legible

theorem Message.Writable.legible {m : Message} (h : m.Writable) (direction : Direction) :
    Legible (m.tokens direction) := by
  have hword : direction.word ∈ keywords := by cases direction <;> decide
  have hchannel : Statement.channelKeyword direction ∈ keywords := by
    cases direction <;> decide
  unfold tokens
  refine Legible.append (legible_keyword hword (legible_kind _ h.2.1.legible)) ?_
  split
  · exact .nil
  · refine legible_keyword hchannel (legible_joined legible_comma ?_)
    intro item hitem
    obtain ⟨c, hc, rfl⟩ := List.mem_map.mp hitem
    exact (h.2.2 c hc).legible

theorem mem_keywords_of_attributeFits {k : Kind} {key : String} {value : AttributeValue}
    (h : attributeFits k key value = true) : attributeWord key ∈ keywords := by
  cases hshape : attributeShape? k (attributeWord key) with
  | none => simp [attributeFits, hshape] at h
  | some shape => exact mem_keywords_of_attributeShape? hshape

theorem legible_attributeTokens (value : AttributeValue) : Legible (attributeTokens value) := by
  cases value with
  | list items =>
    have hitems : attributeTokens (.list items) = items.flatMap fun item => [.stringLiteral item] :=
      List.map_eq_flatMap
    rw [hitems]
    exact Legible.flatMap fun item _ => legible_text item .nil
  | text s => exact AttributeValue.legible_tokens (.text s)
  | flag b => exact AttributeValue.legible_tokens (.flag b)

theorem Role.legible_noise (k : Kind) (role : Role) {ts : List Token} (hts : Legible ts) :
    Legible (role.noise k ++ ts) := by
  refine Legible.append ?_ hts
  have hword : Legible (if k = .service then [.identifier "container"] else []) := by
    split
    · exact legible_keyword (by decide) .nil
    · exact .nil
  cases role <;> first | exact hword | exact .nil

theorem Statement.Writable.legible {names : String → Prop} (hnames : ∀ n, names n → IsNoteName n)
    {k : Kind} {s : Statement} (h : s.Writable names k) : Legible (s.tokens k) := by
  cases s with
  | note a => exact Note.Writable.legible hnames h
  | version v => exact legible_keyword (by decide) (legible_versionTokens _)
  | «attribute» key v =>
    exact legible_keyword (mem_keywords_of_attributeFits h) (legible_attributeTokens _)
  | member sort _ target _ =>
    have hword : sort.word ∈ keywords := by cases sort <;> decide
    exact legible_keyword hword (Reference.Writable.legible h)
  | message direction m => exact Message.Writable.legible h direction
  | owns r => exact legible_keyword (by decide) (TypedReference.legible h)
  | reference role r =>
    have hword : role.word ∈ keywords := by cases role <;> decide
    exact legible_keyword hword (role.legible_noise k (Reference.Writable.legible h))
  | parameter p => exact Parameter.Writable.legible h
  | chain steps =>
    refine legible_joined (legible_mark rfl nofun rfl) fun item hitem => ?_
    obtain ⟨step, hstep, rfl⟩ := List.mem_map.mp hitem
    exact (h.2 step hstep).legible
  | trigger t => exact Trigger.Writable.legible h
  | input r => exact legible_keyword (by decide) (TypedReference.legible h)
  | output p =>
    exact (legible_keyword (by decide) (TypedReference.legible h.1)).append
      (Product.legible_contractTokens h)
  | unknown _ _ => exact h.elim

theorem legible_weave {names : String → Prop} (hnames : ∀ n, names n → IsNoteName n)
    (depth : Nat) {k : Kind} {ss : List Statement} {bs : List (List Line)}
    (hss : ∀ s ∈ ss, s.Writable names k) (hbs : ∀ b ∈ bs, ∀ l ∈ b, Legible l.tokens) :
    ∀ l ∈ weave depth k ss bs, Legible l.tokens := by
  induction ss generalizing bs with
  | nil => nofun
  | cons s ss ih =>
    have hs := (hss s List.mem_cons_self).legible hnames
    have hrest {bs : List (List Line)} (hbs : ∀ b ∈ bs, ∀ l ∈ b, Legible l.tokens) :
        ∀ l ∈ weave depth k ss bs, Legible l.tokens :=
      ih (fun t ht => hss t (List.mem_cons_of_mem s ht)) hbs
    unfold weave
    split
    · rename_i block bs _
      intro l hl
      simp only [List.cons_append, List.mem_cons, List.mem_append] at hl
      obtain rfl | hl | rfl | hl := hl
      · exact hs.append (legible_mark rfl nofun rfl .nil)
      · exact hbs block List.mem_cons_self l hl
      · exact legible_mark rfl nofun rfl .nil
      · exact hrest (fun b hb => hbs b (List.mem_cons_of_mem block hb)) l hl
    · intro l hl
      obtain rfl | hl := List.mem_cons.mp hl
      · exact hs
      · exact hrest hbs l hl

namespace Definition

theorem block_eq (depth : Nat) (d : Definition) :
    d.block depth = weave depth d.kind d.statements (blocks (depth + 1) d.nested) := by
  cases d
  rw [block]

theorem blocks_eq_map (depth : Nat) (ds : List Definition) :
    blocks depth ds = ds.map (·.block depth) := by
  induction ds with
  | nil => rw [blocks, List.map_nil]
  | cons d ds ih => rw [blocks, ih, List.map_cons]

theorem legible_block {names : String → Prop} (hnames : ∀ n, names n → IsNoteName n)
    {d : Definition} (h : ∀ e ∈ d.all, e.Writable names) (depth : Nat) :
    ∀ l ∈ d.block depth, Legible l.tokens := by
  induction d using Definition.induction generalizing depth with
  | h d ih =>
    rw [block_eq, blocks_eq_map]
    refine legible_weave hnames depth (h d d.self_mem_all).statements fun b hb => ?_
    obtain ⟨c, hc, rfl⟩ := List.mem_map.mp hb
    refine ih c hc (fun e he => h e ?_) (depth + 1)
    rw [all_eq]
    exact List.mem_cons_of_mem d (mem_allOf.mpr ⟨c, hc, he⟩)

end Definition

/-- All lines of a document that can be written are legible. -/
theorem Program.legible_lines {names : String → Prop} (hnames : ∀ n, names n → IsNoteName n)
    {p : Program} (h : p.Writable names) : ∀ l ∈ p.lines, Legible l.tokens := by
  intro l hl
  obtain hl | hl := List.mem_append.mp hl
  · obtain ⟨i, hi, rfl⟩ := List.mem_map.mp hl
    exact (h.imports i hi).legible
  obtain ⟨d, hd, hl⟩ := List.mem_flatMap.mp hl
  have hall : ∀ e ∈ d.all, e.Writable names := fun e he =>
    h.definitions e (Definition.mem_allOf.mpr ⟨d, hd, he⟩)
  have hheader {ts : List Token} (hts : Legible ts) : Legible (d.headerTokens ++ ts) :=
    legible_kind _ (legible_word (hall d d.self_mem_all).name.1 hts)
  unfold Definition.lines at hl
  split at hl
  · obtain rfl := List.mem_singleton.mp hl
    simpa using hheader .nil
  · simp only [List.cons_append, List.mem_cons, List.mem_append, List.not_mem_nil, or_false] at hl
    obtain rfl | hl | rfl := hl
    · exact hheader (legible_mark rfl nofun rfl .nil)
    · exact Definition.legible_block hnames hall 1 l hl
    · exact legible_mark rfl nofun rfl .nil

end Syntax

end EventCatalog
