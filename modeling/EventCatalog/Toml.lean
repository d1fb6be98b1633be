import EventCatalog.Text

/-! # TOML values

The values of TOML 1.1 and the rules by which the statements of a text build its table.  A table
remembers how it came to be, because that decides how it may grow:

* one that was written between braces never grows;
* one that has its own header gets keys under that header alone;
* one that was only passed on the way of a header may still get a header of its own;
* one that a dotted key made grows by dotted keys. -/

namespace EventCatalog

namespace Toml

/-- How a table came to be. -/
inductive Origin
  | braces
  | header
  | passed
  | dotted
deriving DecidableEq, Repr

end Toml

/-- A TOML value.  Of numbers with a fraction or exponent and of dates and times only the kind is
kept. -/
inductive Toml
  | text (value : String)
  | integer (value : Int)
  | float
  | flag (value : Bool)
  | moment
  | list (items : List Toml)
  | table (origin : Toml.Origin) (entries : List (String × Toml))
  /-- The tables under double headers of one name; the last one is still open. -/
  | tables (earlier : List (List (String × Toml))) (last : List (String × Toml))
deriving Repr

namespace Toml

/-- The keys of a table with their values. -/
abbrev Entries := List (String × Toml)

/-- Sets the value of a key to what `f` makes of the value before; fails if `f` does. -/
def alter? (f : Option Toml → Option Toml) (key : String) : Entries → Option Entries
  | [] => (f none).map fun value => [(key, value)]
  | (k, v) :: entries =>
    if k = key then (f (some v)).map fun value => (k, value) :: entries
    else (alter? f key entries).map ((k, v) :: ·)

/-- Whether a dotted key may lead into a table of this origin; `final` if the table is the last one
on the way. -/
def Origin.growsByDots (final : Bool) : Origin → Bool
  | .dotted => true
  | .passed => !final
  | .braces | .header => false

/-- Gives a value to the key `path.key`, which must not have one. -/
def assign? (key : String) (value : Toml) : (path : List String) → Entries → Option Entries
  | [], entries =>
    alter? (fun
      | none => some value
      | some _ => none) key entries
  | k :: path, entries =>
    alter? (fun
      | none => (assign? key value path []).map (.table .dotted)
      | some (.table origin inner) =>
        if origin.growsByDots path.isEmpty then
          (assign? key value path inner).map (.table origin)
        else none
      | some (.tables earlier last) =>
        if path.isEmpty then none else (assign? key value path last).map (.tables earlier)
      | some _ => none) k entries

/-- Changes the entries of the table that a header means by `path`; tables that are not there are
made. -/
def alterAt? (f : Entries → Option Entries) : (path : List String) → Entries → Option Entries
  | [], entries => f entries
  | k :: path, entries =>
    alter? (fun
      | none => (alterAt? f path []).map (.table .passed)
      | some (.table .braces _) => none
      | some (.table origin inner) => (alterAt? f path inner).map (.table origin)
      | some (.tables earlier last) => (alterAt? f path last).map (.tables earlier)
      | some _ => none) k entries

/-- Opens the table of a header: one that is new or that other headers have only passed. -/
def openTable? (key : String) : Entries → Option Entries :=
  alter? (fun
    | none => some (.table .header [])
    | some (.table .passed entries) => some (.table .header entries)
    | some _ => none) key

/-- Opens one more table of a double header. -/
def openNext? (key : String) : Entries → Option Entries :=
  alter? (fun
    | none => some (.tables [] [])
    | some (.tables earlier last) => some (.tables (earlier ++ [last]) [])
    | some _ => none) key

/-! ### Statements -/

/-- A key with dots: the parts before the last one, and the last one. -/
structure Key where
  path : List String
  last : String
deriving DecidableEq, Repr

/-- The names of a key. -/
def Key.names (k : Key) : List String := k.path ++ [k.last]

/-- A statement of a text. -/
inductive Statement
  | assignment (key : Key) (value : Toml)
  | header (key : Key)
  | doubleHeader (key : Key)
deriving Repr

/-- A table that is being built, and the names of the last header. -/
structure Building where
  entries : Entries := []
  current : List String := []
deriving Repr

/-- Carries a statement out, unless it gives something a second meaning. -/
def Building.step? (b : Building) : Statement → Option Building
  | .assignment key value =>
    (alterAt? (assign? key.last value key.path) b.current b.entries).map ({ b with entries := · })
  | .header key => (alterAt? (openTable? key.last) key.path b.entries).map (⟨·, key.names⟩)
  | .doubleHeader key => (alterAt? (openNext? key.last) key.path b.entries).map (⟨·, key.names⟩)

/-- The table that statements build. -/
def ofStatements? (statements : List Statement) : Option Entries :=
  (statements.foldlM Building.step? {}).map (·.entries)

/-- Carries out one assignment between braces. -/
def assignTo? (entries : Entries) (assignment : Key × Toml) : Option Entries :=
  assign? assignment.1.last assignment.2 assignment.1.path entries

/-- The table between braces that assignments build. -/
def ofAssignments? (assignments : List (Key × Toml)) : Option Toml :=
  (assignments.foldlM assignTo? []).map (.table .braces)

end Toml

end EventCatalog
