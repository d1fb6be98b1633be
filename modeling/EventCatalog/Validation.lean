import EventCatalog.Digraph
import EventCatalog.Scope

/-! # Validation

Checks of a linked catalog that change nothing in it: duplicate definitions, references that mean
nothing or the wrong thing, malformed and missing versions, and cycles of containment or ownership
among domains, services and entities. -/

namespace EventCatalog

open Syntax

/-- A cycle of definitions each of which contains or owns the next, and all definitions on a common
cycle with them. -/
structure Cycle where
  first : Symbol
  others : List Symbol
  members : List Symbol

namespace Cycle

/-- The definitions of the cycle in order. -/
def path (c : Cycle) : List Symbol := c.first :: c.others

/-- The names along the cycle, back to the first one. -/
def describe (c : Cycle) : String :=
  String.intercalate " -> " ((c.path ++ [c.first]).map (·.name))

end Cycle

namespace SymbolTable

/-! ### Cycles -/

/-- The kinds that can contain or own each other in a circle. -/
def canBeCyclic : Kind → Bool
  | .domain | .service | .entity => true
  | _ => false

/-- The definitions that can lie on a cycle. -/
def cyclicSymbols (t : SymbolTable) : List Symbol := t.symbols.filter (canBeCyclic ·.kind)

/-- The keys of what a definition contains or owns. -/
def structuralTargets (t : SymbolTable) (s : Symbol) : List (Nat × Nat) :=
  (s.definition.fields.filter Field.isStructural).filterMap (t.fieldTarget? s.document)

/-- The value of a key in a list of pairs, or the empty list. -/
def adjacent (edges : List ((Nat × Nat) × List (Nat × Nat))) (key : Nat × Nat) : List (Nat × Nat) :=
  (edges.lookup key).getD []

/-- The cycles of the catalog, one for each set of definitions that lie on common cycles, in the
order of their first definitions. -/
def cycles (t : SymbolTable) : List Cycle :=
  let symbols := t.cyclicSymbols
  let keys := symbols.map Symbol.key
  let next := adjacent (symbols.map fun s => (s.key, t.structuralTargets s))
  let reached := adjacent (keys.map fun k => (k, Digraph.reach keys next k))
  let ordered := symbols.mergeSort fun s u => (s.order u).isLE
  ordered.filterMap fun s =>
    let component := Digraph.component keys reached s.key
    match ordered.filter (component.contains ·.key) with
    | [] => none
    | first :: members =>
      if first.key != s.key then none
      else
        let walk := Digraph.shortestCycle component next s.key
        let path := walk.filterMap fun k => symbols.find? (·.key == k)
        some ⟨first, path.drop 1, first :: members⟩

end SymbolTable

/-- What validation insists on. -/
structure ValidationRules where
  requireVersions : Bool := false
deriving DecidableEq, Repr

namespace Validation

/-! ### Wording -/

/-- A kind with the indefinite article. -/
def withArticle (k : Kind) : String :=
  let vowel := match k.keyword.toList.head? with
    | some c => ['a', 'e', 'i', 'o', 'u'].contains c
    | none => false
  (if vowel then "an " else "a ") ++ k.keyword

/-- What a field expects. -/
def describe : Wanted → String
  | .only kind => withArticle kind
  | .any => "any definition"

/-- The versions of the definitions of a name and an accepted kind. -/
def availableVersions (t : SymbolTable) (name : String) (wanted : Wanted) : String :=
  String.intercalate ", "
    (((t.lookup name).filter (wanted.accepts ·.kind)).map fun s => s.version.getD "none")

/-! ### Checks -/

/-- The complaint about a definition whose name and version are taken. -/
def duplicate (t : SymbolTable) (d : Duplicate) : Diagnostic :=
  let name := d.symbol.definition.versionedName
  let place := d.symbol.definition.name.span
  let first := d.first.definition.name.span
  if d.first.document = d.symbol.document then
    (((Diagnostic.error .duplicateDefinition
      ("`" ++ name ++ "` is defined more than once")).labelled place "defined again here").also
        first "first defined here").withHelp
      "rename one of the definitions or give it a different version"
  else
    let d' := (Diagnostic.error .duplicateExport
      ("`" ++ name ++ "` is exported by more than one document")).labelled place
        "exported again here"
    let d' := match t.pathOf? d.first.document with
      | some path => d'.related path first "first exported here"
      | none => d'
    d'.withHelp "rename one of them or import it under an alias"

/-- The complaints about duplicates in a document. -/
def duplicates (t : SymbolTable) (document : Nat) : List Diagnostic :=
  (t.duplicates.filter (·.symbol.document == document)).map (duplicate t)

/-- The complaint about the version of a definition. -/
def version (rules : ValidationRules) (d : Definition) : List Diagnostic :=
  match d.version with
  | some v =>
    if (Version.coerce v.value).isNone then
      [((Diagnostic.warning .malformedVersion
        ("malformed version `" ++ v.value ++ "`")).labelled v.span
          "not a semantic version").withHelp "use a version such as `1.0.0`"]
    else []
  | none =>
    if rules.requireVersions && d.kind.requiresVersion then
      [((Diagnostic.error .missingVersion
        (d.kind.keyword ++ " `" ++ d.name.value ++ "` has no version")).labelled d.name.span
          "version required").withHelp "add a `version` statement"]
    else []

/-- The complaint about a reference in a document. -/
def reference (t : SymbolTable) (document : Nat) (f : Field) : List Diagnostic :=
  let r := f.reference
  let name := r.name.value
  if r.selector.isMalformed then
    [((Diagnostic.warning .malformedVersion
      ("malformed version selector `" ++ r.selector.toString ++ "` on `" ++ name ++ "`")).labelled
        (r.selectorSpan.getD r.span) "not a version or version range").withHelp
      "use an exact version, a range such as `^1`, or `latest`"]
  else match t.resolve document r f.wanted with
    | .ok _ => []
    | .error .notFound =>
      [((Diagnostic.warning .unresolvedReference ("cannot resolve `" ++ name ++ "`")).labelled
        r.name.span ("no definition named `" ++ name ++ "`")).withHelp
          "define it or import it from another document"]
    | .error .noMatchingVersion =>
      [((Diagnostic.warning .noMatchingVersion
        ("no version of `" ++ name ++ "` matches `" ++ r.selector.toString ++ "`")).labelled r.span
          "no matching version").withHelp
        ("available versions: " ++ availableVersions t name f.wanted)]
    | .error (.kindMismatch found) =>
      [((Diagnostic.error .kindMismatch
        ("`" ++ name ++ "` is " ++ withArticle found ++ ", but `" ++ f.word ++ "` expects " ++
          describe f.wanted)).labelled r.name.span
            ("resolves to " ++ found.keyword ++ " `" ++ name ++ "`")).withHelp
        ("reference " ++ describe f.wanted)]

/-- The complaints about one definition. -/
def definition (t : SymbolTable) (rules : ValidationRules) (document : Nat) (d : Definition) :
    List Diagnostic :=
  version rules d ++ (d.fields.filter (·.inlined.isNone)).flatMap (reference t document)

/-- The complaint about a cycle. -/
def cycle (t : SymbolTable) (c : Cycle) : Diagnostic :=
  let start := ((Diagnostic.error .cyclicContainment
    ("cyclic containment or ownership: " ++ c.describe)).labelled c.first.definition.name.span
      "cycle starts here").withHelp
    "a definition cannot directly or indirectly contain or own itself"
  c.others.foldl (fun d s =>
    let place := s.definition.name.span
    if s.document = c.first.document then d.also place "part of the cycle"
    else match t.pathOf? s.document with
      | some path => d.related path place "part of the cycle"
      | none => d) start

end Validation

/-- All complaints about a linked document: imports first, then duplicates, then definition by
definition, then the cycles that start in it. -/
def validate (t : SymbolTable) (cycles : List Cycle) (rules : ValidationRules) (document : Nat)
    (p : Program) : List Diagnostic :=
  t.linkDiagnostics document ++ Validation.duplicates t document ++
    p.all.flatMap (Validation.definition t rules document) ++
    (cycles.filter (·.first.document == document)).map (Validation.cycle t)

end EventCatalog
