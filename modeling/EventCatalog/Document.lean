import EventCatalog.Syntax.Block

/-! # Documents

A document is a text at a path together with what was read of it.  Everything it defines, however
deeply nested, can be named from other documents. -/

namespace EventCatalog

open Syntax

/-- A document that has been read. -/
structure Document where
  path : DocumentPath
  text : String
  program : Program
  diagnostics : List Diagnostic
deriving Repr

namespace Document

/-- Reads the document at a path. -/
def read (path : DocumentPath) (text : String) : Document :=
  let parsed := parse text
  ⟨path, text, parsed.program, parsed.diagnostics⟩

/-- The definitions that other documents can name, each before those inside it. -/
def exports (d : Document) : List Definition := d.program.all

end Document

end EventCatalog
