import EventCatalog.Compilation
import EventCatalog.Toml.Content

/-! # Settings files

The settings of a catalog may be kept in a TOML text with three sections, `format`, `validation` and
`imports`, which have one setting each.  What is not there has its default, and other keys are
ignored, but a value of the wrong kind makes the text unusable.  A section may also be a list, whose
first item is its setting, or a date, which sets nothing. -/

namespace EventCatalog

namespace Setting

/-- A number of 64 bits without a sign. -/
def size? : Toml → Option Nat
  | .integer n => if 0 ≤ n ∧ n.toNat < Nat.pow 2 64 then some n.toNat else none
  | _ => none

/-- A truth value. -/
def flag? : Toml → Option Bool
  | .flag b => some b
  | _ => none

/-- The setting under a key, or the default if the key is not there. -/
def read? {α : Type} (value? : Toml → Option α) (default : α) (key : String)
    (entries : Toml.Entries) : Option α :=
  match entries.lookup key with
  | some v => value? v
  | none => some default

/-- The setting of a section. -/
def ofSection? {α : Type} (value? : Toml → Option α) (default : α) (key : String) :
    Toml → Option α
  | .table _ entries => read? value? default key entries
  | .list [] => some default
  | .list (v :: _) => value? v
  | .moment => some default
  | .text _ | .integer _ | .float | .flag _ | .tables _ _ => none

/-- The setting under a key of a section, or the default if either is not there. -/
def find? {α : Type} (value? : Toml → Option α) (default : α) (part key : String)
    (entries : Toml.Entries) : Option α :=
  read? (ofSection? value? default key) default part entries

end Setting

namespace Config

/-- The settings that a table gives. -/
def ofToml? (entries : Toml.Entries) : Option Config :=
  let standard : Config := {}
  match Setting.find? Setting.size? standard.indentWidth "format" "indent_width" entries,
      Setting.find? Setting.flag? standard.rules.requireVersions "validation" "require_versions"
        entries,
      Setting.find? Setting.size? standard.importRounds "imports" "max_depth" entries with
  | some indentWidth, some requireVersions, some importRounds =>
    some ⟨indentWidth, ⟨requireVersions⟩, importRounds⟩
  | _, _, _ => none

/-- The settings that a text gives. -/
def ofText? (t : Text) : Option Config := (Toml.ofText? t).bind ofToml?

end Config

end EventCatalog
