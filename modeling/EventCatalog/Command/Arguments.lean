import EventCatalog.Command

/-! # Arguments

What the words of a command line ask for.  Options may stand anywhere; one that its command does not
have makes the whole line unusable. -/

namespace EventCatalog

/-- The words and options of a command line. -/
structure Arguments where
  words : List Text := []
  settings? : Option Text := none
  output? : Option Text := none
  pretty : Bool := false
  write : Bool := false
  check : Bool := false
deriving DecidableEq, Repr

namespace Arguments

/-- How the program is called. -/
def usage : String :=
  "usage: ecdsl [--config PATH] COMMAND\n" ++
  "commands:\n" ++
  "  check [ROOT]\n" ++
  "  graph [ROOT] [--output PATH] [--pretty]\n" ++
  "  fmt PATH... [--write | --check]"

/-- Reads words and options. -/
def read? : Arguments → List String → Option Arguments
  | a, [] => some a
  | a, "--config" :: path :: rest => read? { a with settings? := some path.toList } rest
  | a, "-c" :: path :: rest => read? { a with settings? := some path.toList } rest
  | a, "--output" :: path :: rest => read? { a with output? := some path.toList } rest
  | a, "-o" :: path :: rest => read? { a with output? := some path.toList } rest
  | a, "--pretty" :: rest => read? { a with pretty := true } rest
  | a, "--write" :: rest => read? { a with write := true } rest
  | a, "--check" :: rest => read? { a with check := true } rest
  | a, word :: rest =>
    if word.toList.head? = some '-' then none
    else read? { a with words := a.words ++ [word.toList] } rest

/-- Whether only `fmt` has the options that are set. -/
def hasFormatOptions (a : Arguments) : Bool := a.write || a.check

/-- Whether only `graph` has the options that are set. -/
def hasGraphOptions (a : Arguments) : Bool := a.pretty || a.output?.isSome

/-- The one directory that is named, or else the one where the program runs. -/
def root? : List Text → Option Text
  | [] => some ['.']
  | [root] => some root
  | _ => none

/-- The command that is asked for. -/
def command? (a : Arguments) : Option Command :=
  match a.words with
  | [] => none
  | word :: words =>
    if word = "check".toList then
      if a.hasFormatOptions || a.hasGraphOptions then none else (root? words).map .check
    else if word = "graph".toList then
      if a.hasFormatOptions then none else (root? words).map (.graph · a.output? a.pretty)
    else if word = "fmt".toList then
      if a.hasGraphOptions || words.isEmpty || (a.write && a.check) then none
      else some (.format words (.ofFlags a.write a.check))
    else none

end Arguments

end EventCatalog
