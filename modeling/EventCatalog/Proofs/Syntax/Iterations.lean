import EventCatalog.Proofs.Syntax.Recovery
import EventCatalog.Proofs.Syntax.Turns

/-! # Reading, iteration by iteration

Blocks stand in blocks, so reading a document is a loop over what stands at its top with a loop over
the statements of each block inside it.  `Stage.iterate` is one iteration of the innermost loop: it
ends this loop or goes on with it.  An iteration that goes on takes at least one lexeme
(`Stage.spends_of_goesOn`), also where a statement or a definition is dropped.

`Stage.run` goes on to the end and gives what `readProgram` gives (`Stage.run_readProgram`).  It
counts the iterations, the turns over actions among them.  Iterations, the turns of triggers that
are kept, and the end of each block make what is left smaller, if open blocks count as lexemes
(`Stage.size`), so the size bounds them (`Stage.kept_run_le`).  The turns of a trigger that is
dropped are undone: its lexemes may be read again, and the next trigger may undo the same ones.
With those the bound is quadratic (`Stage.total_run_le`), and it has to be more than the size
(`length_lt_undone`). -/

namespace EventCatalog.Syntax

open Reader

/-! ### What has been read -/

namespace Parsed

/-- A document that is one import. -/
def ofImport (i : Import) : Parsed := { program := { imports := [i] } }

/-- A document that is one definition. -/
def ofDefinition (d : Definition) : Parsed := { program := { definitions := [d] } }

/-- A document of which nothing is known but complaints. -/
def ofDiagnostics (ds : List Diagnostic) : Parsed := { diagnostics := ds }

theorem append_assoc (p q r : Parsed) : p ++ q ++ r = p ++ (q ++ r) := by
  change Parsed.mk ⟨_ ++ _ ++ _, _ ++ _ ++ _⟩ (_ ++ _ ++ _) = _
  rw [List.append_assoc, List.append_assoc, List.append_assoc]
  rfl

theorem append_ofDiagnostics_nil (p : Parsed) : p ++ ofDiagnostics [] = p := by
  change Parsed.mk ⟨_ ++ [], _ ++ []⟩ (_ ++ []) = _
  rw [List.append_nil, List.append_nil, List.append_nil]

theorem append_ofDiagnostics_append (p : Parsed) (ds es : List Diagnostic) :
    p ++ ofDiagnostics (ds ++ es) = p ++ ofDiagnostics ds ++ ofDiagnostics es := by
  rw [append_assoc]
  rfl

theorem append_withDefinition (p : Parsed) (d : Definition) (ds : List Diagnostic) (q : Parsed) :
    p ++ q.withDefinition d ds = p ++ ofDiagnostics ds ++ ofDefinition d ++ q := by
  rw [append_assoc, append_assoc]
  rfl

end Parsed

/-! ### Stages -/

/-- A block that is being read: where it was opened, and its definition as far as it has been
read. -/
structure OpenBlock where
  opened : Span
  definition : Definition

/-- Where reading stands between two iterations: at the top of the document, or inside a block.  The
blocks around this one wait for it with the statements in which their definitions are written. -/
inductive Stage
  | top (next : Nat) (parsed : Parsed) (rest : List Lexeme)
  | inside (block : OpenBlock) (around : List (Statement × OpenBlock)) (next : Nat)
      (parsed : Parsed) (rest : List Lexeme)

/-- How many iterations there are. -/
structure Tally where
  /-- At the top, in blocks, and over the actions of triggers that are kept; those that end a loop
  inside are among them. -/
  kept : Nat
  /-- Over the actions of triggers that are dropped, apart from the last of each. -/
  undone : Nat
  /-- The last ones over the actions of triggers that are dropped. -/
  failed : Nat
deriving DecidableEq, Repr

namespace Tally

/-- No iteration. -/
def none : Tally := ⟨0, 0, 0⟩

/-- One iteration without turns over actions. -/
def one : Tally := ⟨1, 0, 0⟩

/-- An iteration with a statement that is kept, and perhaps so many turns that go on with actions. -/
def ofKept (turns : Option Nat) : Tally := ⟨1 + (turns.map (· + 1)).getD 0, 0, 0⟩

/-- An iteration with a statement that is dropped, and perhaps so many turns that go on with
actions. -/
def ofDropped (turns : Option Nat) : Tally := ⟨1, turns.getD 0, (turns.map fun _ => 1).getD 0⟩

instance : Add Tally := ⟨fun a b => ⟨a.kept + b.kept, a.undone + b.undone, a.failed + b.failed⟩⟩

/-- All iterations. -/
def total (t : Tally) : Nat := t.kept + t.undone + t.failed

@[simp] theorem kept_add (a b : Tally) : (a + b).kept = a.kept + b.kept := rfl

@[simp] theorem total_add (a b : Tally) : (a + b).total = a.total + b.total := by
  change a.kept + b.kept + (a.undone + b.undone) + (a.failed + b.failed) = _
  simp only [total]
  omega

end Tally

/-- What an iteration does. -/
inductive Iteration
  /-- The loop goes on; turns of the loop over actions that are part of the iteration are counted
  with it. -/
  | goesOn (tally : Tally) (s : Stage)
  /-- The loop over the statements of a block ends. -/
  | ends (s : Stage)
  /-- The loop at the top ends, and reading with it. -/
  | finishes (p : Parsed)

namespace Stage

/-- The lexemes that have not been taken. -/
def rest : Stage → List Lexeme
  | top _ _ rest => rest
  | inside _ _ _ _ rest => rest

/-- How many blocks are open. -/
def depth : Stage → Nat
  | top .. => 0
  | inside _ around .. => around.length + 1

/-- A bound on the iterations to come. -/
def size (s : Stage) : Nat := s.rest.length + s.depth

/-- A definition is complete: it goes where it is written. -/
def complete (d : Definition) (next : Nat) (parsed : Parsed) (rest : List Lexeme) :
    List (Statement × OpenBlock) → Stage
  | [] => top next (parsed ++ .ofDefinition d) rest
  | (s, b) :: around => inside ⟨b.opened, b.definition.addInlined s d⟩ around next parsed rest

/-- The kind and name of a definition have been read: its block follows, or it is complete. -/
def begun (next : Nat) (d : Definition) (parsed : Parsed) : List Lexeme → Stage
  | [] => top (next + 1) (parsed ++ .ofDefinition d) []
  | u :: us =>
    if u.token = .leftBrace then inside ⟨u.span, d⟩ [] (next + 1) parsed us
    else top (next + 1) (parsed ++ .ofDefinition d) (u :: us)

/-- What stands at the top cannot be read. -/
def dropped (next : Nat) (parsed : Parsed) (complaint : Diagnostic) (t : Lexeme)
    (ts : List Lexeme) : Stage :=
  top next (parsed ++ .ofDiagnostics [complaint]) (Recovery.skipToDefinition t ts)

/-- An import or a definition is begun at the top. -/
def enter (last : Span) (next : Nat) (parsed : Parsed) (t : Lexeme) (ts : List Lexeme) : Stage :=
  if t.token = .identifier "import" then
    match Phrase.importStatement.run (t :: ts) with
    | .ok (i, rest) => top next (parsed ++ .ofImport i) rest
    | .error e => dropped next parsed (e.diagnostic last.stop) t ts
  else if Recovery.opensTopLevel t.token then
    match header.run (t :: ts) with
    | .ok ((kind, name), rest) =>
      begun next (Definition.start next kind.value kind.span name none) parsed rest
    | .error e => dropped next parsed (e.diagnostic last.stop) t ts
  else dropped next parsed (Failure.diagnostic ⟨.definitionOrImport, some t⟩ last.stop) t ts

/-- A statement has been read or dropped in a block, perhaps with so many turns over actions. -/
def follow (b : OpenBlock) (around : List (Statement × OpenBlock)) (next : Nat) (parsed : Parsed)
    (turns : Option Nat) {ts : List Lexeme} : Block.Turn ts → Iteration
  | .plain s rest _ =>
    .goesOn (.ofKept turns) (inside ⟨b.opened, b.definition.add s⟩ around next parsed rest)
  | .opens s o brace rest _ =>
    .goesOn (.ofKept turns)
      (inside ⟨brace, o.start next⟩ ((s, b) :: around) (next + 1) parsed rest)
  | .dropped complaint rest _ =>
    .goesOn (.ofDropped turns) (inside b around next (parsed ++ .ofDiagnostics [complaint]) rest)

/-- One iteration of the innermost loop.  `last` is the span of the last lexeme of the text. -/
def iterate (last : Span) : Stage → Iteration
  | top _ parsed [] => .finishes parsed
  | top next parsed (t :: ts) => .goesOn .one (enter last next parsed t ts)
  | inside b around next parsed [] =>
    .ends (complete (b.definition.closeAt last) next
      (parsed ++ .ofDiagnostics [Block.unclosed b.definition b.opened]) [] around)
  | inside b around next parsed (t :: ts) =>
    if t.token = .rightBrace then
      .ends (complete (b.definition.closeAt t.span) next parsed ts around)
    else
      follow b around next parsed (Statement.turns? b.definition.kind (t :: ts))
        (Block.turn last.stop b.definition.kind t ts)

end Stage

/-! ### What an iteration takes -/

section

variable {t u : Lexeme} {ts us rest : List Lexeme}

theorem Consumes.tail (h : Consumes ts (u :: us)) : Consumes ts us := by
  obtain ⟨taken, -, rfl⟩ := h
  exact ⟨taken ++ [u], by simp, by simp⟩

theorem Reader.Stable.consumes {α : Type} {p : Reader α} (hp : p.Stable) (hstrict : p.Strict)
    {a : α} (h : p.run ts = .ok (a, rest)) : Consumes ts rest := by
  obtain ⟨taken, htaken, -⟩ := hp _ _ _ h
  exact consumes_of_suffix ⟨taken, htaken.symm⟩ (hstrict _ _ _ h)

theorem consumes_of_skips (h : rest <:+ ts) (t : Lexeme) : Consumes (t :: ts) rest :=
  consumes_of_suffix (h.trans (List.suffix_cons t ts)) (Nat.lt_succ_of_le h.length_le)

end

namespace Stage

variable {last : Span} {s s' : Stage} {tally : Tally}

theorem rest_complete (d : Definition) (next : Nat) (parsed : Parsed) (rest : List Lexeme)
    (around : List (Statement × OpenBlock)) : (complete d next parsed rest around).rest = rest := by
  cases around <;> rfl

theorem depth_complete (d : Definition) (next : Nat) (parsed : Parsed) (rest : List Lexeme)
    (around : List (Statement × OpenBlock)) :
    (complete d next parsed rest around).depth = around.length := by
  cases around <;> rfl

/-- The iteration takes something of what there was.  It pays for itself, for the turns that are part
of it unless they are undone, and for a block that it opens. -/
structure Spends (s : Stage) (tally : Tally) (s' : Stage) : Prop where
  consumes : Consumes s.rest s'.rest
  kept_pos : 0 < tally.kept
  kept_le : tally.kept + s'.size ≤ s.size
  total_le : tally.total ≤ s.size

variable {next next' : Nat} {parsed parsed' : Parsed} {t : Lexeme} {ts rest : List Lexeme}

theorem spends_one (h : Consumes s.rest s'.rest) (hlt : s'.size < s.size) : s.Spends .one s' where
  consumes := h
  kept_pos := Nat.one_pos
  kept_le := by
    rw [Nat.add_comm]
    exact hlt
  total_le := Nat.one_le_of_lt hlt

theorem spends_top (h : Consumes ts rest) :
    (top next parsed ts).Spends .one (top next' parsed' rest) :=
  spends_one h h.length_lt

theorem spends_begun (d : Definition) (h : Consumes ts rest) :
    (top next parsed ts).Spends .one (begun next d parsed' rest) := by
  cases rest with
  | nil => exact spends_top h
  | cons u us =>
    simp only [begun]
    split
    · exact spends_one h.tail h.length_lt
    · exact spends_top h

theorem spends_dropped (complaint : Diagnostic) :
    (top next parsed (t :: ts)).Spends .one (dropped next parsed complaint t ts) :=
  spends_top (consumes_of_skips (Recovery.suffix_skipBlocks _ ts) t)

theorem spends_enter (last : Span) (next : Nat) (parsed : Parsed) (t : Lexeme)
    (ts : List Lexeme) :
    (top next parsed (t :: ts)).Spends .one (enter last next parsed t ts) := by
  unfold enter
  split
  · split
    · rename_i i rest himport
      exact spends_top (Phrase.stable_importStatement.consumes strict_importStatement himport)
    · exact spends_dropped _
  · split
    · split
      · rename_i kind name rest hheader
        exact spends_begun _ (definite_header.stable.consumes strict_header hheader)
      · exact spends_dropped _
    · exact spends_dropped _

/-- What a statement has taken pays for the iteration and its turns. -/
theorem kept_ofKept_le {k : Kind} {s : Statement}
    (h : (Statement.statement k).run ts = .ok (s, rest)) :
    (Tally.ofKept (Statement.turns? k ts)).kept + rest.length ≤ ts.length := by
  cases hturns : Statement.turns? k ts with
  | none =>
    have hlt := Statement.strict_statement k _ _ _ h
    simp only [Tally.ofKept, Option.map_none, Option.getD_none]
    omega
  | some n =>
    have hle := Statement.turns_add_le h hturns
    simp only [Tally.ofKept, Option.map_some, Option.getD_some]
    omega

/-- There are lexemes for the turns of a statement that is dropped, too. -/
theorem total_ofDropped_le (k : Kind) (t : Lexeme) (ts : List Lexeme) :
    (Tally.ofDropped (Statement.turns? k (t :: ts))).total ≤ (t :: ts).length := by
  cases hturns : Statement.turns? k (t :: ts) with
  | none => exact Nat.succ_le_of_lt (Nat.succ_pos _)
  | some n =>
    have hle := Statement.turns_le hturns
    simp only [Tally.total, Tally.ofDropped, Option.getD_some, Option.map_some]
    omega

theorem spends_follow (finish : Nat) (k : Kind) {b : OpenBlock}
    {around : List (Statement × OpenBlock)}
    (h : follow b around next parsed (Statement.turns? k (t :: ts)) (Block.turn finish k t ts) =
      .goesOn tally s') : (inside b around next parsed (t :: ts)).Spends tally s' := by
  have hreads := Block.reads_turn finish k t ts
  cases hturn : Block.turn finish k t ts with
  | plain s rest hlt =>
    rw [hturn] at hreads h
    cases h
    obtain ⟨-, hrun⟩ := hreads
    have hkept := kept_ofKept_le hrun
    refine ⟨(Statement.stable_statement k).consumes (Statement.strict_statement k) hrun,
      Nat.add_pos_left Nat.one_pos _, ?_, ?_⟩
    · simp only [size, Stage.rest, depth]
      omega
    · simp only [size, Stage.rest, Tally.total]
      simp only [Tally.ofKept] at hkept ⊢
      omega
  | opens s o brace rest hlt =>
    rw [hturn] at hreads h
    cases h
    obtain ⟨-, u, hrun⟩ := hreads
    have hkept := kept_ofKept_le hrun
    have hconsumes := (Statement.stable_statement k).consumes (Statement.strict_statement k) hrun
    rw [List.length_cons] at hkept
    refine ⟨hconsumes.tail, Nat.add_pos_left Nat.one_pos _, ?_, ?_⟩
    · simp only [size, Stage.rest, depth, List.length_cons] at hkept ⊢
      omega
    · simp only [size, Stage.rest, Tally.total]
      simp only [Tally.ofKept] at hkept ⊢
      omega
  | dropped complaint rest hlt =>
    rw [hturn] at hreads h
    cases h
    obtain ⟨-, rfl⟩ := hreads
    have htotal := total_ofDropped_le k t ts
    refine ⟨consumes_of_skips (Recovery.suffix_skipRest _ ts) t, Nat.one_pos, ?_, ?_⟩
    · simp only [size, Stage.rest, depth, Tally.ofDropped]
      omega
    · exact Nat.le_trans htotal (Nat.le_add_right _ _)

/-- An iteration that goes on with its loop takes something. -/
theorem spends_of_goesOn (h : s.iterate last = .goesOn tally s') : s.Spends tally s' := by
  cases s with
  | top next parsed rest =>
    cases rest with
    | nil => cases h
    | cons t ts =>
      cases h
      exact spends_enter last next parsed t ts
  | inside b around next parsed rest =>
    cases rest with
    | nil => cases h
    | cons t ts =>
      simp only [iterate] at h
      split at h
      · cases h
      · exact spends_follow _ _ h

theorem size_lt_of_goesOn (h : s.iterate last = .goesOn tally s') : s'.size < s.size := by
  have hspends := spends_of_goesOn h
  have hpos := hspends.kept_pos
  have hle := hspends.kept_le
  omega

theorem size_lt_of_ends (h : s.iterate last = .ends s') : s'.size < s.size := by
  cases s with
  | top next parsed rest => cases rest <;> cases h
  | inside b around next parsed rest =>
    cases rest with
    | nil =>
      cases h
      rw [size, size, rest_complete, depth_complete]
      exact Nat.lt_succ_self _
    | cons t ts =>
      simp only [iterate] at h
      split at h
      · cases h
        rw [size, size, rest_complete, depth_complete]
        simp only [Stage.rest, depth, List.length_cons]
        omega
      · cases hturn : Block.turn last.stop b.definition.kind t ts <;> rw [hturn] at h <;> cases h

end Stage

/-! ### Runs -/

namespace Stage

/-- Goes on to the end, and counts the iterations; the last one at the top does nothing. -/
def run (last : Span) (s : Stage) : Tally × Parsed :=
  match _ : s.iterate last with
  | .finishes p => (.none, p)
  | .ends s' => (.one + (run last s').1, (run last s').2)
  | .goesOn tally s' => (tally + (run last s').1, (run last s').2)
termination_by s.size
decreasing_by
  all_goals
    rename_i h
    first | exact size_lt_of_ends h | exact size_lt_of_goesOn h

variable {last : Span} {s s' : Stage} {tally : Tally} {p : Parsed}

theorem run_of_finishes (h : s.iterate last = .finishes p) : run last s = (.none, p) := by
  unfold run
  split <;> rename_i heq <;> rw [h] at heq <;> cases heq
  rfl

theorem run_of_ends (h : s.iterate last = .ends s') :
    run last s = (.one + (run last s').1, (run last s').2) := by
  conv_lhs => unfold run
  split <;> rename_i heq <;> rw [h] at heq <;> cases heq
  rfl

theorem run_of_goesOn (h : s.iterate last = .goesOn tally s') :
    run last s = (tally + (run last s').1, (run last s').2) := by
  conv_lhs => unfold run
  split <;> rename_i heq <;> rw [h] at heq <;> cases heq
  rfl

/-! ### Bounds -/

/-- What is left pays for all iterations but those that are undone. -/
theorem kept_run_le (last : Span) (s : Stage) : (run last s).1.kept ≤ s.size := by
  fun_induction run last s with
  | case1 => exact Nat.zero_le _
  | case2 s s' h ih =>
    have hlt := size_lt_of_ends h
    rw [Tally.kept_add]
    simp only [Tally.one]
    omega
  | case3 s tally s' h ih =>
    have hle := (spends_of_goesOn h).kept_le
    rw [Tally.kept_add]
    omega

/-- An iteration of at most so many adds them to the sum up to one less. -/
theorem two_mul_add_le {m n a b : Nat} (ha : a ≤ n) (hm : m < n) (hb : 2 * b ≤ m * (m + 1)) :
    2 * (a + b) ≤ n * (n + 1) := by
  obtain ⟨k, rfl⟩ := Nat.exists_eq_add_of_lt hm
  have hmul : m * (m + 1) ≤ (m + k) * (m + k + 1) :=
    Nat.mul_le_mul (Nat.le_add_right _ _) (Nat.succ_le_succ (Nat.le_add_right _ _))
  have hsum : (m + k + 1) * (m + k + 1 + 1) = (m + k) * (m + k + 1) + 2 * (m + k + 1) := by
    rw [← Nat.add_mul, Nat.mul_comm]
  omega

/-- Each iteration undoes no more turns than there are lexemes left. -/
theorem total_run_le (last : Span) (s : Stage) :
    2 * (run last s).1.total ≤ s.size * (s.size + 1) := by
  fun_induction run last s with
  | case1 => exact Nat.zero_le _
  | case2 s s' h ih =>
    have hlt := size_lt_of_ends h
    rw [Tally.total_add]
    exact two_mul_add_le (Nat.one_le_of_lt hlt) hlt ih
  | case3 s tally s' h ih =>
    rw [Tally.total_add]
    exact two_mul_add_le (spends_of_goesOn h).total_le (size_lt_of_goesOn h) ih

/-! ### What is read -/

/-- Where reading stands behind a block. -/
def closed {ts : List Lexeme} (block : Block ts) (parsed : Parsed)
    (around : List (Statement × OpenBlock)) : Stage :=
  complete block.definition block.next (parsed ++ .ofDiagnostics block.diagnostics) block.rest
    around

theorem closed_after {ts us : List Lexeme} (ds : List Diagnostic) (block : Block us)
    (parsed : Parsed) (around : List (Statement × OpenBlock)) (hle : us.length ≤ ts.length) :
    closed (block.after ds hle) parsed around =
      closed block (parsed ++ .ofDiagnostics ds) around := by
  rw [closed, closed, ← Parsed.append_ofDiagnostics_append]
  rfl

/-- A block is read to its end, whatever blocks there are around it. -/
theorem run_inside (last opened : Span) (next : Nat) (d : Definition) (ts : List Lexeme)
    (around : List (Statement × OpenBlock)) (parsed : Parsed) :
    (run last (inside ⟨opened, d⟩ around next parsed ts)).2 =
      (run last (closed (Block.read last opened next d ts) parsed around)).2 := by
  fun_induction Block.read last opened next d ts generalizing around parsed with
  | case1 opened next d => rw [run_of_ends rfl]; rfl
  | case2 opened next d t ts ht =>
    have hends : iterate last (inside ⟨opened, d⟩ around next parsed (t :: ts)) = .ends _ :=
      if_pos ht
    rw [closed, Parsed.append_ofDiagnostics_nil, run_of_ends hends]
  | case3 opened next d t ts ht s rest hlt hturn ih =>
    rw [closed_after, Parsed.append_ofDiagnostics_nil, ← ih, run_of_goesOn]
    rw [iterate, if_neg ht, hturn]
    rfl
  | case4 opened next d t ts ht complaint rest hlt hturn ih =>
    rw [closed_after, ← ih, run_of_goesOn]
    rw [iterate, if_neg ht, hturn]
    rfl
  | case5 opened next d t ts ht s o brace rest hlt hturn child ihchild =>
    rename_i ih
    have hopens : iterate last (inside ⟨opened, d⟩ around next parsed (t :: ts)) =
        .goesOn (.ofKept (Statement.turns? d.kind (t :: ts)))
          (inside ⟨brace, o.start next⟩ ((s, ⟨opened, d⟩) :: around) (next + 1) parsed rest) := by
      rw [iterate, if_neg ht, hturn]
      rfl
    -- The block around waits for the definition and goes on with it.
    have hwaits : closed child parsed ((s, ⟨opened, d⟩) :: around) =
        inside ⟨opened, d.addInlined s child.definition⟩ around child.next
          (parsed ++ .ofDiagnostics child.diagnostics) child.rest := rfl
    have hchild := ihchild ((s, ⟨opened, d⟩) :: around) parsed
    have hothers := ih around (parsed ++ .ofDiagnostics child.diagnostics)
    rw [run_of_goesOn hopens]
    refine (hchild.trans (congrArg (fun s => (run last s).2) hwaits)).trans (hothers.trans ?_)
    exact congrArg (fun s => (run last s).2) (closed_after _ _ parsed around
      (Nat.le_trans child.rest_le (Nat.le_of_lt hlt))).symm

/-- Where reading stands behind an import or a definition at the top. -/
def behind (next : Nat) (parsed : Parsed) {ts : List Lexeme} : Entry ts → Stage
  | .importing i rest _ => top next (parsed ++ .ofImport i) rest
  | .defining d next ds rest _ => top next (parsed ++ .ofDiagnostics ds ++ .ofDefinition d) rest
  | .dropped d rest _ => top next (parsed ++ .ofDiagnostics [d]) rest

theorem run_begun (last : Span) (next : Nat) (d : Definition) (parsed : Parsed)
    {ts : List Lexeme} (rest : List Lexeme) (hlt : rest.length < ts.length) :
    (run last (begun next d parsed rest)).2 =
      (run last (behind next parsed (Entry.define last next d rest hlt))).2 := by
  have hbare : parsed ++ .ofDiagnostics [] ++ .ofDefinition d = parsed ++ .ofDefinition d := by
    rw [Parsed.append_ofDiagnostics_nil]
  cases rest with
  | nil =>
    rw [begun, ← hbare]
    rfl
  | cons u us =>
    simp only [begun, Entry.define]
    by_cases hu : u.token = .leftBrace
    · rw [if_pos hu, if_pos hu]
      exact run_inside last u.span (next + 1) d us [] parsed
    · rw [if_neg hu, if_neg hu, ← hbare]
      rfl

theorem run_enter (last : Span) (next : Nat) (parsed : Parsed) (t : Lexeme) (ts : List Lexeme) :
    (run last (enter last next parsed t ts)).2 =
      (run last (behind next parsed (Entry.read last next t ts))).2 := by
  unfold enter
  simp only [Entry.read]
  by_cases himport : t.token = .identifier "import"
  · rw [if_pos himport, if_pos himport]
    cases hrun : Phrase.importStatement.run (t :: ts) with
    | error e => simp only [take_error _ hrun]; rfl
    | ok r => simp only [take_ok _ hrun]; rfl
  rw [if_neg himport, if_neg himport]
  by_cases hopens : Recovery.opensTopLevel t.token = true
  · rw [if_pos hopens, if_pos hopens]
    cases hrun : header.run (t :: ts) with
    | error e => simp only [take_error _ hrun]; rfl
    | ok r =>
      simp only [take_ok _ hrun]
      exact run_begun last next _ parsed _ _
  · rw [if_neg hopens, if_neg hopens]
    rfl

/-- Reading iteration by iteration gives the document. -/
theorem run_readProgram (last : Span) (next : Nat) (parsed : Parsed) (ts : List Lexeme) :
    (run last (top next parsed ts)).2 = parsed ++ readProgram last next ts := by
  fun_induction readProgram last next ts generalizing parsed with
  | case1 next =>
    rw [run_of_finishes rfl]
    exact (Parsed.append_ofDiagnostics_nil parsed).symm
  | case2 next t ts i rest hlt hread ih =>
    rw [run_of_goesOn rfl, run_enter, hread]
    exact (ih (parsed ++ .ofImport i)).trans (Parsed.append_assoc _ _ _)
  | case3 next t ts d next' ds rest hlt hread ih =>
    rw [run_of_goesOn rfl, run_enter, hread, Parsed.append_withDefinition]
    exact ih (parsed ++ .ofDiagnostics ds ++ .ofDefinition d)
  | case4 next t ts d rest hlt hread ih =>
    rw [run_of_goesOn rfl, run_enter, hread]
    exact (ih (parsed ++ .ofDiagnostics [d])).trans (Parsed.append_assoc _ _ _)

end Stage

/-! ### Progress -/

/-- The iterations in which a document is read, and what is read. -/
def Parsed.iterations (ts : List Lexeme) : Tally × Parsed :=
  Stage.run ((ts.getLast?.map (·.span)).getD ⟨0, 0⟩) (.top 0 {} ts)

/-- Reading makes progress, also where it recovers from errors.  An iteration at the top, in a block
or over the actions of a trigger takes at least one lexeme if it does not end its loop.  So the loop
over actions has at most as many turns as there are lexemes, and so many are all iterations together
but those over the actions of triggers that are dropped.  The lexemes of such a trigger may be read
again, and altogether there are at most half as many iterations as the number of lexemes times the
next number.  A statement that is dropped leaves the end of its block. -/
theorem reading_progresses :
    (∀ last s tally s', Stage.iterate last s = .goesOn tally s' → Consumes s.rest s'.rest) ∧
    (∀ ts a rest, (Statement.ifAction Phrase.action).run ts = .ok (some a, rest) →
      Consumes ts rest) ∧
    (∀ ts, loopTurns (Statement.ifAction Phrase.action) ts ≤ ts.length ∧
      (Statement.ifAction Phrase.action).Loops ts (loopTurns (Statement.ifAction Phrase.action) ts)
        ((iterate (Statement.ifAction Phrase.action)).run ts)) ∧
    (∀ ts, (Parsed.iterations ts).2 = Parsed.ofLexemes ts ∧
      (Parsed.iterations ts).1.kept ≤ ts.length ∧
      2 * (Parsed.iterations ts).1.total ≤ ts.length * (ts.length + 1)) ∧
    (∀ last opened next (d : Definition) t ts, t.token ≠ .rightBrace →
      Block.Drops d.kind (t :: ts) →
        ∃ skipped rest, Block.Resumes last opened next d t ts skipped rest) := by
  refine ⟨fun last s tally s' h => (Stage.spends_of_goesOn h).consumes,
    Statement.advances_action, fun ts => ⟨?_, ?_⟩, fun ts => ⟨?_, ?_, ?_⟩, ?_⟩
  · exact loopTurns_le Statement.advances_action ts
  · exact loops_loopTurns Statement.advances_action ts
  · exact Stage.run_readProgram _ 0 {} ts
  · exact Stage.kept_run_le _ (.top 0 {} ts)
  · exact Stage.total_run_le _ (.top 0 {} ts)
  · intro last opened next d t ts ht hdrops
    exact Block.exists_resumes_of_drops last opened next ht hdrops

/-- What follows the keyword of a trigger that is broken over two lines, and the end of its flow. -/
def brokenTrigger : List Lexeme :=
  Piece.lexemes 15 false (Piece.ofText " (\n  ) C\n\x7d".toList)

theorem reading_progresses_broken :
    let flow := Definition.start 0 .flow ⟨0, 4⟩ ⟨"F", ⟨5, 6⟩⟩ none
    let keyword : Lexeme := ⟨.identifier "when", ⟨11, 15⟩, true⟩
    let target : Reference := ⟨⟨"C", ⟨22, 23⟩⟩, .latest, none⟩
    Consumes (keyword :: brokenTrigger)
        (Stage.enter ⟨24, 25⟩ 0 {} keyword brokenTrigger).rest ∧
      ((Statement.ifAction Phrase.action).run (brokenTrigger.drop 2) =
          .ok (some ⟨target, none, []⟩, brokenTrigger.drop 3) ∧
        Consumes (brokenTrigger.drop 2) (brokenTrigger.drop 3)) ∧
      keyword.token ≠ .rightBrace ∧ Block.Drops flow.kind (keyword :: brokenTrigger) ∧
      ∃ skipped rest,
        Block.Resumes ⟨24, 25⟩ ⟨7, 8⟩ 1 flow keyword brokenTrigger skipped rest := by
  intro flow keyword target
  have haction : (Statement.ifAction Phrase.action).run (brokenTrigger.drop 2) =
      .ok (some ⟨target, none, []⟩, brokenTrigger.drop 3) := by decide +kernel
  have hfails : (Statement.statement .flow).run (keyword :: brokenTrigger) =
      .error ⟨.reference, some ⟨.leftParen, ⟨16, 17⟩, false⟩⟩ := by decide +kernel
  obtain ⟨hiterate, hconsumes, -, -, hresumes⟩ := reading_progresses
  refine ⟨hiterate ⟨24, 25⟩ (.top 0 {} (keyword :: brokenTrigger)) .one _ rfl,
    ⟨haction, hconsumes _ _ _ haction⟩, ?_⟩
  have hword : keyword.token ≠ .rightBrace := by decide
  have hdrops : Block.Drops flow.kind (keyword :: brokenTrigger) := .inl ⟨_, hfails⟩
  exact ⟨hword, hdrops, hresumes ⟨24, 25⟩ ⟨7, 8⟩ 1 flow keyword brokenTrigger hword hdrops⟩

/-- Triggers that end with an arrow.  Each takes the next keyword for an output and goes on with the
lines behind it, up to a parenthesis at which all of them fail. -/
def undoneTriggers : List Lexeme :=
  Piece.lexemes 0 true (Piece.ofText ("flow F \x7b\n" ++ "when A X ->\n" ++ "when A X ->\n" ++
    "when A X ->\n" ++ "when A X ->\n" ++ "when A X ->\n" ++ "when A X -> (\n\x7d\n").toList)

/-- What stands behind the keyword of a message with a parenthesis that is not closed, up to the end
of its block. -/
def unclosedMessage : List Lexeme :=
  Piece.lexemes 18 false (Piece.ofText " (\n  summary \"x\"\n\x7d\n".toList)

/-- Where triggers are dropped there may be more iterations than lexemes, and more turns over actions
alone.  A statement with an open parenthesis that is dropped takes the closing brace of its block
along. -/
theorem length_lt_undone :
    (undoneTriggers.length = 29 ∧ (Parsed.iterations undoneTriggers).1.undone = 30 ∧
      ¬ (Parsed.iterations undoneTriggers).1.total ≤ undoneTriggers.length) ∧
    ∃ keyword : Lexeme, Block.Drops .service (keyword :: unclosedMessage) ∧
      Closes unclosedMessage ∧ Recovery.skipStatement keyword unclosedMessage = [] := by
  have hlength : undoneTriggers.length = 29 := by decide +kernel
  have hundone : (Parsed.iterations undoneTriggers).1.undone = 30 := by decide +kernel
  have htotal : undoneTriggers.length < (Parsed.iterations undoneTriggers).1.total := by
    rw [hlength, Tally.total, hundone]
    omega
  refine ⟨⟨hlength, hundone, Nat.not_le_of_lt htotal⟩, ?_⟩
  have hfails : (Statement.statement .service).run
      (⟨.identifier "sends", ⟨13, 18⟩, true⟩ :: unclosedMessage) =
        .error ⟨.messageKind, some ⟨.leftParen, ⟨19, 20⟩, false⟩⟩ := by decide +kernel
  refine ⟨⟨.identifier "sends", ⟨13, 18⟩, true⟩, .inl ⟨_, hfails⟩, ?_, by decide +kernel⟩
  exact ⟨⟨.rightBrace, ⟨35, 36⟩, true⟩, by decide +kernel, rfl⟩

end EventCatalog.Syntax
