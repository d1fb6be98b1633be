import EventCatalog.Document

/-! # Loading imports

An import may name a document that is not among the given ones.  A resolver is then asked for its
text.  Loading goes round by round: each round asks for the imports of the documents that the round
before it loaded, up to a number of rounds.  A document that is there or has failed is never asked
for again; one that the resolver does not know may be. -/

namespace EventCatalog

open Syntax

/-- What a resolver says about an import. -/
inductive ImportAnswer
  | text (source : String)
  | unknown
  | failure (message : String)
deriving DecidableEq, Repr

/-- Looks up the import that a document asks for with a specifier. -/
abbrev ImportResolver := DocumentPath → String → ImportAnswer

/-- A diagnostic and the document it is about. -/
structure FileDiagnostic where
  path : DocumentPath
  diagnostic : Diagnostic
deriving DecidableEq, Repr

namespace Import

/-- A call of a resolver: the document that asks, and the statement for which it does. -/
structure Call where
  path : DocumentPath
  statement : Syntax.Import
deriving DecidableEq, Repr

namespace Call

/-- What the document asks with. -/
def specifier (c : Call) : String := c.statement.source.value

/-- The document that is meant. -/
def target (c : Call) : DocumentPath := c.path.join c.specifier

end Call

/-- The calls that the import statements of documents could make, one after another. -/
def demands (ds : List Document) : List Call :=
  ds.flatMap fun d => d.program.imports.map (⟨d.path, ·⟩)

/-- The state of loading: the paths that need not be asked for, what has been loaded in this round,
the failures, and the calls of the resolver. -/
structure Loading where
  known : List DocumentPath
  loaded : List (DocumentPath × String) := []
  failures : List FileDiagnostic := []
  calls : List Call := []

namespace Loading

/-- The complaint that a resolver failed. -/
def failed (i : Syntax.Import) (message : String) : Diagnostic :=
  (Diagnostic.error .importFailure
    ("failed to load import `" ++ i.source.value ++ "`: " ++ message)).labelled i.source.span
      "imported here"

/-- Asks for one import of a document unless that is needless. -/
def request (resolve : ImportResolver) (s : Loading) (c : Call) : Loading :=
  if s.known.contains c.target then s
  else
    let s := { s with calls := s.calls ++ [c] }
    match resolve c.path c.specifier with
    | .text source =>
      { s with known := c.target :: s.known, loaded := s.loaded ++ [(c.target, source)] }
    | .unknown => s
    | .failure message =>
      { s with
        known := c.target :: s.known
        failures := s.failures ++ [⟨c.path, failed c.statement message⟩] }

/-- Asks for the imports of documents. -/
def round (resolve : ImportResolver) (s : Loading) (pending : List Document) : Loading :=
  (demands pending).foldl (request resolve) { s with loaded := [] }

end Loading

/-- Loads in at most so many rounds, starting with the imports of `pending`; gives the documents
loaded and the last state. -/
def loadFrom (resolve : ImportResolver) (s : Loading) (pending : List Document) :
    (rounds : Nat) → List Document × Loading
  | 0 => ([], s)
  | rounds + 1 =>
    let s := s.round resolve pending
    if s.loaded.isEmpty then ([], s)
    else
      let documents := s.loaded.map fun (path, source) => Document.read path source
      let (others, last) := loadFrom resolve s documents rounds
      (documents ++ others, last)

/-- Loads what documents import, and what that imports, in at most so many rounds. -/
def load (resolve : ImportResolver) (rounds : Nat) (documents : List Document) :
    List Document × Loading :=
  loadFrom resolve { known := documents.map (·.path) } documents rounds

end Import

end EventCatalog
