import EventCatalog.Token.Piece

/-! # Readers

A reader takes lexemes from the front of a list and returns a value and the rest, or fails and says
what it expected and which lexeme it found instead.  That the rest is never longer than the list is
part of the type, so every loop over a reader that takes something ends.

* `Reader.Strict p`: a success of `p` takes at least one lexeme.
* `Reader.optional` tries a reader and takes nothing if it fails.
* `Reader.iterate` runs a reader until it declines; `Reader.separated` is built on it. -/

namespace EventCatalog.Syntax

/-- What a reader wanted to find. -/
inductive Expected
  | mark (token : Token)
  | keyword (word : String)
  | identifier
  | stringLiteral
  | name
  | value
  | version
  | boolean
  | versionSelector
  | reference
  | definitionKind
  | messageKind
  | importPath
  | noteName
  | parameterField
  | contractField
  | definitionOrImport
  | definitionName
  | statement
  | flowStep
  | action
deriving DecidableEq, Repr

namespace Expected

/-- The words for an expectation. -/
def text : Expected → String
  | mark token => token.describe
  | keyword word => "`" ++ word ++ "`"
  | identifier => "identifier"
  | stringLiteral => "string literal"
  | name => "name"
  | value => "value"
  | version => "version"
  | boolean => "`true` or `false`"
  | versionSelector => "version selector"
  | reference => "reference"
  | definitionKind => "definition kind"
  | messageKind => "message kind (`event`, `command` or `query`)"
  | importPath => "import path"
  | noteName => "annotation name"
  | parameterField => "parameter field (`description`, `default`, `enum` or `examples`)"
  | contractField => "contract field"
  | definitionOrImport => "definition or `import`"
  | definitionName => "definition name"
  | statement => "statement"
  | flowStep => "flow step"
  | action => "action"

end Expected

/-- Why a reader failed: what it expected, and what stands there unless the text has ended. -/
structure Failure where
  expected : Expected
  found : Option Lexeme
deriving DecidableEq, Repr

namespace Failure

/-- The diagnostic of a failure in a text whose last lexeme ends at `finish`. -/
def diagnostic (f : Failure) (finish : Nat) : Diagnostic :=
  match f.found with
  | some t =>
    (Diagnostic.error .unexpectedToken
      ("expected " ++ f.expected.text ++ ", found " ++ t.token.describe)).labelled t.span
        Diagnostic.Code.unexpectedToken.description
  | none =>
    ((Diagnostic.error .incompleteInput
      ("expected " ++ f.expected.text ++ ", found end of input")).labelled ⟨finish, finish⟩
        Diagnostic.Code.incompleteInput.description).withHelp
      "the document ends in the middle of a statement"

end Failure

/-- A reader of lexemes that gives back at most what it was given. -/
structure Reader (α : Type) where
  run : List Lexeme → Except Failure (α × List Lexeme)
  rest_le : ∀ {ts a rest}, run ts = .ok (a, rest) → rest.length ≤ ts.length

namespace Reader

variable {α β : Type}

/-- Takes nothing. -/
protected def pure (a : α) : Reader α where
  run ts := .ok (a, ts)
  rest_le h := by cases h; exact Nat.le_refl _

/-- Runs a reader and then the one chosen by its value. -/
protected def bind (p : Reader α) (f : α → Reader β) : Reader β where
  run ts := match p.run ts with
    | .error e => .error e
    | .ok (a, rest) => (f a).run rest
  rest_le {ts b rest} h := by
    split at h
    · cases h
    · rename_i hp
      exact Nat.le_trans ((f _).rest_le h) (p.rest_le hp)

instance : Monad Reader where
  pure := Reader.pure
  bind := Reader.bind

/-- Fails at the next lexeme. -/
def fail (expected : Expected) : Reader α where
  run ts := .error ⟨expected, ts.head?⟩
  rest_le h := by cases h

/-- The next lexeme, which is not taken. -/
def next? : Reader (Option Lexeme) where
  run ts := .ok (ts.head?, ts)
  rest_le h := by cases h; exact Nat.le_refl _

/-- Whether a token comes next. -/
def nextIs (t : Token) : Reader Bool where
  run ts := .ok (ts.head?.any (·.token == t), ts)
  rest_le h := by cases h; exact Nat.le_refl _

/-- Takes the next lexeme if its token has a value, and fails there otherwise. -/
def token (expected : Expected) (value? : Token → Option α) : Reader (Located α) where
  run
    | [] => .error ⟨expected, none⟩
    | t :: ts => match value? t.token with
      | some a => .ok (⟨a, t.span⟩, ts)
      | none => .error ⟨expected, some t⟩
  rest_le {ts a rest} h := by
    cases ts with
    | nil => cases h
    | cons t ts =>
      simp only at h
      split at h
      · cases h; simp
      · cases h

/-- Names what a reader expects by its role. -/
def labelled (expected : Expected) (p : Reader α) : Reader α where
  run ts := match p.run ts with
    | .error e => .error { e with expected }
    | .ok r => .ok r
  rest_le {ts a rest} h := by
    split at h
    · cases h
    · rename_i hp
      cases h
      exact p.rest_le hp

/-- Runs a reader, or takes nothing where it fails. -/
def optional (p : Reader α) : Reader (Option α) where
  run ts := match p.run ts with
    | .error _ => .ok (none, ts)
    | .ok (a, rest) => .ok (some a, rest)
  rest_le {ts a rest} h := by
    split at h
    · cases h; exact Nat.le_refl _
    · rename_i hp
      cases h
      exact p.rest_le hp

/-- The values of a reader that is run until it declines or takes nothing. -/
def iterateRun (p : Reader (Option α)) (ts : List Lexeme) : Except Failure (List α × List Lexeme) :=
  match p.run ts with
  | .error e => .error e
  | .ok (none, rest) => .ok ([], rest)
  | .ok (some a, rest) =>
    if rest.length < ts.length then
      match iterateRun p rest with
      | .error e => .error e
      | .ok (as, last) => .ok (a :: as, last)
    else .ok ([a], rest)
termination_by ts.length

theorem iterateRun_rest_le (p : Reader (Option α)) (ts : List Lexeme) {as rest}
    (h : iterateRun p ts = .ok (as, rest)) : rest.length ≤ ts.length := by
  fun_induction iterateRun p ts generalizing as rest with
  | case1 => cases h
  | case2 ts rest hp => cases h; exact p.rest_le hp
  | case3 => cases h
  | case4 ts a rest hp hlt as last hi ih =>
    cases h
    exact Nat.le_trans (ih hi) (p.rest_le hp)
  | case5 ts a rest hp hlt => cases h; exact p.rest_le hp

/-- Runs a reader until it declines or takes nothing; a failure of it is a failure of all. -/
def iterate (p : Reader (Option α)) : Reader (List α) where
  run := iterateRun p
  rest_le h := iterateRun_rest_le p _ h

/-- One or more values with separators between them; a separator is taken only if a value follows
it. -/
def separated (p : Reader α) (separator : Reader β) : Reader (List α) := do
  let first ← p
  let others ← iterate (optional do
    let _ ← separator
    p)
  return first :: others

/-- Values with separators between them, perhaps none. -/
def separatedOrNone (p : Reader α) (separator : Reader β) : Reader (List α) := do
  return (← optional (separated p separator)).getD []

/-! ### Readers that take something -/

/-- A success takes at least one lexeme. -/
def Strict (p : Reader α) : Prop :=
  ∀ ts a rest, p.run ts = .ok (a, rest) → rest.length < ts.length

theorem Strict.bind {p : Reader α} (hp : p.Strict) (f : α → Reader β) : (p >>= f).Strict := by
  intro ts b rest h
  change (p.bind f).run ts = _ at h
  simp only [Reader.bind] at h
  split at h
  · cases h
  · rename_i hrun
    exact Nat.lt_of_le_of_lt ((f _).rest_le h) (hp _ _ _ hrun)

theorem Strict.bind_right {p : Reader α} {f : α → Reader β} (hf : ∀ a, (f a).Strict) :
    (p >>= f).Strict := by
  intro ts b rest h
  change (p.bind f).run ts = _ at h
  simp only [Reader.bind] at h
  split at h
  · cases h
  · rename_i hrun
    exact Nat.lt_of_lt_of_le (hf _ _ _ _ h) (p.rest_le hrun)

theorem Strict.map {p : Reader α} (hp : p.Strict) (f : α → β) : (f <$> p).Strict :=
  hp.bind _

theorem Strict.labelled {p : Reader α} (hp : p.Strict) (expected : Expected) :
    (p.labelled expected).Strict := by
  intro ts a rest h
  simp only [Reader.labelled] at h
  split at h
  · cases h
  · rename_i hrun
    cases h
    exact hp _ _ _ hrun

theorem strict_fail (expected : Expected) : (fail expected : Reader α).Strict := by
  intro ts a rest h
  cases h

theorem strict_token (expected : Expected) (value? : Token → Option α) :
    (token expected value?).Strict := by
  intro ts a rest h
  cases ts with
  | nil => cases h
  | cons t ts =>
    simp only [token] at h
    split at h
    · cases h; simp
    · cases h

/-- A value and what is left after it of a list that was not empty. -/
structure Taken (α : Type) (ts : List Lexeme) where
  value : α
  rest : List Lexeme
  rest_lt : rest.length < ts.length

/-- Runs a strict reader and keeps the proof that the rest is shorter. -/
def take (p : Reader α) (hp : p.Strict) (ts : List Lexeme) : Except Failure (Taken α ts) :=
  match h : p.run ts with
  | .error e => .error e
  | .ok (a, rest) => .ok ⟨a, rest, hp _ _ _ h⟩

end Reader

end EventCatalog.Syntax
