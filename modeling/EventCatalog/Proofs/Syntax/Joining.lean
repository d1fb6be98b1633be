import EventCatalog.Proofs.Syntax.Barred.Statement
import EventCatalog.Proofs.Syntax.Natural.Block
import EventCatalog.Proofs.Syntax.Numbering
import EventCatalog.Proofs.Token.Joining

/-! # Documents joined at a line break

Behind a document without complaints, with a top-level keyword next, a text is read as if it stood
alone (`parse_append_break`): only its spans and identifiers are moved.

Of a block without complaints the closing brace is there, and it stops all statements, so nothing
is read behind it (`Block.read_append`).  An import ends with a string literal and the head of a
definition with a name; what comes next is not the brace that a block would begin with
(`Entry.read_append`).  The lexemes of the second text are those it has alone, moved, so naturality
does the rest. -/

namespace EventCatalog.Syntax

open Reader

/-! ### Blocks -/

namespace Block

/-- The definition whose block begins behind a statement. -/
def openingAt (s : Statement) (rest : List Lexeme) : Option Statement.Opening :=
  if rest.head?.map (·.token) = some .leftBrace then s.opening? else none

variable {k : Kind} {t : Lexeme} {ts rest : List Lexeme} {s : Statement}

theorem turn_of_plain (finish : Nat)
    (h : (Statement.statement k).run (t :: ts) = .ok (s, rest))
    (hs : ∀ word span, s ≠ .unknown word span) (hrest : openingAt s rest = none) :
    ∃ h', turn finish k t ts = .plain s rest h' := by
  refine ⟨Statement.strict_statement k _ _ _ h, ?_⟩
  simp only [turn, take_ok _ h]
  rcases rest with _ | ⟨⟨token, span, startsLine⟩, us⟩
  · cases s <;> first | rfl | exact absurd rfl (hs _ _)
  cases s with
  | unknown word span => exact absurd rfl (hs word span)
  | member sort keyword target inlined => cases token <;> first | rfl | cases hrest
  | message direction m => cases token <;> first | rfl | cases hrest
  | _ => rfl

theorem turn_of_opening (finish : Nat) {o : Statement.Opening}
    (h : (Statement.statement k).run (t :: ts) = .ok (s, rest))
    (hrest : openingAt s rest = some o) :
    ∃ u us, rest = u :: us ∧ ∃ h', turn finish k t ts = .opens s o u.span us h' := by
  obtain ⟨hbrace, hs⟩ := Option.ite_none_right_eq_some.mp hrest
  rcases rest with _ | ⟨⟨token, span, startsLine⟩, us⟩
  · cases hbrace
  refine ⟨_, us, rfl, Nat.lt_trans (Nat.lt_succ_self _) (Statement.strict_statement k _ _ _ h), ?_⟩
  simp only [turn, take_ok _ h]
  cases Option.some.inj hbrace
  cases s <;> cases hs <;> rfl

/-- A turn that completes a statement and leaves a closing brace goes the same way with more
lexemes behind. -/
inductive Turn.Extends (more : List Lexeme) {ts us : List Lexeme} (longer : Turn us) :
    Turn ts → Prop
  | plain (s : Statement) (rest : List Lexeme) (h : rest.length < ts.length)
      (extended : Closes rest → Closes ts ∧ ∃ h', longer = .plain s (rest ++ more) h') :
      Extends more longer (.plain s rest h)
  | opens (s : Statement) (o : Statement.Opening) (brace : Span) (rest : List Lexeme)
      (h : rest.length < ts.length)
      (extended : Closes rest → Closes ts ∧ ∃ h', longer = .opens s o brace (rest ++ more) h') :
      Extends more longer (.opens s o brace rest h)
  | dropped (d : Diagnostic) (rest : List Lexeme) (h : rest.length < ts.length) :
      Extends more longer (.dropped d rest h)

theorem turn_append (finish finish' : Nat) (k : Kind) (t : Lexeme) (ts more : List Lexeme) :
    Turn.Extends more (turn finish' k t (ts ++ more)) (turn finish k t ts) := by
  cases h : (Statement.statement k).run (t :: ts) with
  | error e =>
    simp only [turn, take_error _ h]
    exact .dropped _ _ _
  | ok r =>
    obtain ⟨s, rest⟩ := r
    by_cases hs : ∃ word span, s = .unknown word span
    · obtain ⟨word, span, rfl⟩ := hs
      simp only [turn, take_ok _ h]
      exact .dropped _ _ _
    have hs' : ∀ word span, s ≠ .unknown word span := fun word span e => hs ⟨word, span, e⟩
    obtain ⟨taken, htaken, hstable⟩ := Statement.stable_statement k _ _ _ h
    -- What the statement leaves it leaves of the longer lexemes too, with the others behind.
    have hrun (hrest : Closes rest) :
        Closes (t :: ts) ∧ openingAt s (rest ++ more) = openingAt s rest ∧
          (Statement.statement k).run (t :: (ts ++ more)) = .ok (s, rest ++ more) := by
      have hts : Closes (t :: ts) := htaken ▸ hrest.append_right taken
      exact ⟨hts, by rw [openingAt, head?_append_of_closes hrest, openingAt], hstable hts more⟩
    cases hopening : openingAt s rest with
    | none =>
      obtain ⟨hlt, hturn⟩ := turn_of_plain finish h hs' hopening
      rw [hturn]
      refine .plain s rest hlt fun hrest => ?_
      obtain ⟨hts, hopening', hlonger⟩ := hrun hrest
      exact ⟨hts, turn_of_plain finish' hlonger hs' (hopening'.trans hopening)⟩
    | some o =>
      obtain ⟨u, us, rfl, hlt, hturn⟩ := turn_of_opening finish h hopening
      rw [hturn]
      refine .opens s o u.span us hlt fun hus => ?_
      obtain ⟨hts, hopening', hlonger⟩ := hrun (hus.append_right [u])
      obtain ⟨u', us', hrest', hturn'⟩ := turn_of_opening finish' hlonger
        (hopening'.trans hopening)
      obtain ⟨rfl, rfl⟩ := List.cons.inj hrest'
      exact ⟨hts, hturn'⟩

/-- The second block is the first, with more lexemes behind. -/
structure Extends (more : List Lexeme) {ts us : List Lexeme} (b : Block ts) (b' : Block us) :
    Prop where
  definition : b'.definition = b.definition
  next : b'.next = b.next
  diagnostics : b'.diagnostics = b.diagnostics
  rest : b'.rest = b.rest ++ more

theorem Extends.after {more ts us ts' us' : List Lexeme} {b : Block us} {b' : Block us'}
    (h : b.Extends more b') (ds : List Diagnostic) (hle : us.length ≤ ts.length)
    (hle' : us'.length ≤ ts'.length) : (b.after ds hle).Extends more (b'.after ds hle') :=
  ⟨h.definition, h.next, congrArg (ds ++ ·) h.diagnostics, h.rest⟩

/-- A block that goes on behind the block of a definition inside it. -/
theorem Extends.inlined {last last' opened : Span} {d : Definition} {s : Statement}
    {more ts us ts' us' : List Lexeme} {child : Block us} {child' : Block us'}
    (hchild : child.Extends more child')
    (hread : (read last opened child.next (d.addInlined s child.definition) child.rest).Extends more
      (read last' opened child.next (d.addInlined s child.definition) (child.rest ++ more)))
    (hle : child.rest.length ≤ ts.length) (hle' : child'.rest.length ≤ ts'.length) :
    ((read last opened child.next (d.addInlined s child.definition) child.rest).after
      child.diagnostics hle).Extends more
      ((read last' opened child'.next (d.addInlined s child'.definition) child'.rest).after
        child'.diagnostics hle') := by
  obtain ⟨d', next', diagnostics', rest', h'⟩ := child'
  obtain ⟨rfl, rfl, rfl, rfl⟩ := hchild
  exact hread.after child.diagnostics _ _

/-- A block without complaints has its closing brace, and is the same with more lexemes behind. -/
theorem read_append (last last' opened : Span) (next : Nat) (d : Definition) (ts more : List Lexeme)
    (hclean : (read last opened next d ts).diagnostics = []) :
    Closes ts ∧
      (read last opened next d ts).Extends more (read last' opened next d (ts ++ more)) := by
  fun_induction read last opened next d ts with
  | case1 opened next d => cases hclean
  | case2 opened next d t ts ht =>
    refine ⟨⟨t, List.mem_cons_self, ht⟩, ?_⟩
    rw [List.cons_append, read, if_pos ht]
    exact ⟨rfl, rfl, rfl, rfl⟩
  | case3 opened next d t ts ht s rest hlt hturn ih =>
    obtain ⟨hrest, hread⟩ := ih hclean
    have hstep := turn_append last.stop last'.stop d.kind t ts more
    rw [hturn] at hstep
    cases hstep with
    | plain s rest hlt extended =>
      obtain ⟨hts, hlt', hturn'⟩ := extended hrest
      refine ⟨hts, ?_⟩
      rw [List.cons_append, read, if_neg ht]
      simp only [hturn']
      exact hread.after [] _ _
  | case4 opened next d t ts ht complaint rest hlt hturn ih => cases hclean
  | case5 opened next d t ts ht s o brace rest hlt hturn child ihchild ih =>
    obtain ⟨hchild, hothers⟩ := List.append_eq_nil_iff.mp hclean
    obtain ⟨hrest, hread⟩ := ihchild hchild
    obtain ⟨-, hread'⟩ := ih hothers
    have hstep := turn_append last.stop last'.stop d.kind t ts more
    rw [hturn] at hstep
    cases hstep with
    | opens s o brace rest hlt extended =>
      obtain ⟨hts, hlt', hturn'⟩ := extended hrest
      refine ⟨hts, ?_⟩
      rw [List.cons_append, read, if_neg ht]
      simp only [hturn']
      exact hread.inlined hread' (Nat.le_trans child.rest_le (Nat.le_of_lt hlt))
        (Nat.le_trans (Block.rest_le _) (Nat.le_of_lt hlt'))

end Block

/-! ### Entries -/

theorem definite_header : header.Definite :=
  (definite_token _ _).bind fun _ => ((definite_token _ _).labelled _).bind fun _ => definite_pure _

namespace Entry

/-- An import, or a definition without complaints in its block, is the same with more lexemes
behind. -/
inductive Extends (more : List Lexeme) {ts us : List Lexeme} (longer : Entry us) : Entry ts → Prop
  | importing (i : Import) (rest : List Lexeme) (h : rest.length < ts.length)
      (extended : ∃ h', longer = .importing i (rest ++ more) h') :
      Extends more longer (.importing i rest h)
  | defining (d : Definition) (next : Nat) (ds : List Diagnostic) (rest : List Lexeme)
      (h : rest.length < ts.length)
      (extended : ds = [] → ∃ h', longer = .defining d next [] (rest ++ more) h') :
      Extends more longer (.defining d next ds rest h)
  | dropped (d : Diagnostic) (rest : List Lexeme) (h : rest.length < ts.length) :
      Extends more longer (.dropped d rest h)

variable {more : List Lexeme} (hmore : ∀ u ∈ more.head?, u.token ≠ .leftBrace)

theorem defining_of_extends {us us' ts' : List Lexeme} {b : Block us} {b' : Block us'}
    (h : b.Extends more b') (hlt' : b'.rest.length < ts'.length) (hclean : b.diagnostics = []) :
    ∃ h', (.defining b'.definition b'.next b'.diagnostics b'.rest hlt' : Entry ts') =
      .defining b.definition b.next [] (b.rest ++ more) h' := by
  obtain ⟨d', next', diagnostics', rest', h'⟩ := b'
  obtain ⟨rfl, rfl, rfl, rfl⟩ := h
  exact ⟨hlt', by simp only [hclean]⟩

include hmore

theorem define_append (last last' : Span) (next : Nat) (d : Definition) {ts us : List Lexeme}
    (rest : List Lexeme) (h : rest.length < ts.length) (h' : (rest ++ more).length < us.length) :
    Extends more (define last' next d (rest ++ more) h') (define last next d rest h) := by
  cases rest with
  | nil =>
    refine .defining d (next + 1) [] [] h fun _ => ⟨h', ?_⟩
    -- What comes next opens no block.
    cases more with
    | nil => rfl
    | cons u more => exact if_neg (hmore u rfl)
  | cons u rest =>
    simp only [List.cons_append, define]
    split
    · refine .defining _ _ _ _ _ fun hclean => ?_
      obtain ⟨-, hread⟩ := Block.read_append last last' u.span (next + 1) d rest more hclean
      exact defining_of_extends hread _ hclean
    · exact .defining d (next + 1) [] (u :: rest) h fun _ => ⟨h', rfl⟩

/-- An entry at the top of a document without complaints is the same with more lexemes behind,
unless they begin with a brace. -/
theorem read_append (last last' : Span) (next : Nat) (t : Lexeme) (ts : List Lexeme) :
    Extends more (read last' next t (ts ++ more)) (read last next t ts) := by
  simp only [read]
  split
  · cases h : Phrase.importStatement.run (t :: ts) with
    | error e =>
      simp only [take_error _ h]
      exact .dropped _ _ _
    | ok r =>
      obtain ⟨i, rest⟩ := r
      obtain ⟨taken, -, hstable⟩ := Phrase.stable_importStatement _ _ _ h
      have hlonger := hstable (Phrase.closing_importStatement _ _ _ h) more
      rw [List.cons_append] at hlonger
      simp only [take_ok _ h, take_ok _ hlonger]
      exact .importing i rest _ ⟨_, rfl⟩
  split
  · cases h : header.run (t :: ts) with
    | error e =>
      simp only [take_error _ h]
      exact .dropped _ _ _
    | ok r =>
      obtain ⟨⟨kind, name⟩, rest⟩ := r
      have hlonger := definite_header.run_append h more
      rw [List.cons_append] at hlonger
      simp only [take_ok _ h, take_ok _ hlonger]
      exact define_append hmore last last' next _ rest _ _
  · exact .dropped _ _ _

end Entry

/-! ### Documents -/

/-- One document behind another. -/
instance : Append Parsed where
  append p q := ⟨⟨p.program.imports ++ q.program.imports,
    p.program.definitions ++ q.program.definitions⟩, p.diagnostics ++ q.diagnostics⟩

theorem Definition.Numbered.length_all {next stop : Nat} {ds : List Definition}
    (h : Definition.Numbered next stop ds) : next + (Definition.allOf ds).length = stop := by
  have hlength := congrArg List.length h.ids
  rw [List.length_map, List.length_range'] at hlength
  rw [hlength, Nat.add_sub_cancel' h.le]

/-- Behind lexemes of a document without complaints, reading goes on as if from the beginning, with
the next free identifier. -/
theorem readProgram_append {more : List Lexeme} (hmore : ∀ u ∈ more.head?, u.token ≠ .leftBrace)
    (last last' : Span) (next : Nat) (ts : List Lexeme)
    (hclean : (readProgram last next ts).diagnostics = []) :
    readProgram last' next (ts ++ more) = readProgram last next ts ++
      readProgram last' (next + (readProgram last next ts).program.all.length) more := by
  fun_induction readProgram last next ts with
  | case1 next => rfl
  | case2 next t ts i rest hlt hread ih =>
    have hentry := Entry.read_append hmore last last' next t ts
    rw [hread] at hentry
    cases hentry with
    | importing i rest hlt extended =>
      obtain ⟨hlt', hread'⟩ := extended
      rw [List.cons_append, readProgram]
      simp only [hread', ih hclean]
      rfl
  | case3 next t ts d next' ds rest hlt hread ih =>
    obtain ⟨hds, hothers⟩ := List.append_eq_nil_iff.mp hclean
    have hnext := (Entry.read_numbered hread).length_all
    have hentry := Entry.read_append hmore last last' next t ts
    rw [hread] at hentry
    cases hentry with
    | defining d next' ds rest hlt extended =>
      obtain ⟨hlt', hread'⟩ := extended hds
      rw [List.cons_append, readProgram]
      have hcount (p : Parsed) : next + (p.withDefinition d ds).program.all.length =
          next' + p.program.all.length := by
        rw [← hnext, Nat.add_assoc, ← List.length_append]
        simp [Parsed.withDefinition, Program.all, Definition.allOf]
      rw [hcount, hds]
      simp only [hread', ih hothers]
      rfl
  | case4 next t ts d rest hlt hread ih => cases hclean

/-! ### Texts -/

theorem coherent_shift (bytes count : Nat) : (Relabelling.shift bytes count).Coherent where
  located _ := rfl
  union s t := by
    simp only [Relabelling.shift, Span.union, Span.ofBounds, Span.mk.injEq]
    omega
  stop _ := rfl
  succ n := Nat.add_right_comm n 1 count

theorem lexemes_shift (bytes count start : Nat) (broken : Bool) (ps : List Piece) :
    Piece.lexemes (start + bytes) broken ps =
      (Piece.lexemes start broken ps).map (·.relabel (.shift bytes count)) := by
  induction ps generalizing start broken with
  | nil => rfl
  | cons p ps ih =>
    cases p with
    | token tok t =>
      simp only [Piece.lexemes, Nat.add_right_comm start bytes]
      split
      · exact ih _ _
      · rw [ih, List.map_cons]
        rfl
    | fault code lead body t =>
      simp only [Piece.lexemes, Nat.add_right_comm start bytes]
      exact ih _ _

theorem diagnostics_shift (bytes count start : Nat) (ps : List Piece) :
    Piece.diagnostics (start + bytes) ps =
      (Piece.diagnostics start ps).map (·.relabel (.shift bytes count)) := by
  induction ps generalizing start with
  | nil => rfl
  | cons p ps ih =>
    cases p with
    | token tok t =>
      simp only [Piece.diagnostics, Nat.add_right_comm start bytes]
      exact ih _
    | fault code lead body t =>
      simp only [Piece.diagnostics, Nat.add_right_comm start bytes, ih, List.map_cons]
      simp [Piece.diagnostic, Diagnostic.relabel, Relabelling.shift, Nat.add_right_comm _ bytes]

theorem placeOrder_shift (bytes count : Nat) (d e : Diagnostic) :
    placeOrder (d.relabel (.shift bytes count)) (e.relabel (.shift bytes count)) =
      placeOrder d e := by
  have hspan (d : Diagnostic) : (d.relabel (.shift bytes count)).primarySpan =
      d.primarySpan.map fun s => ⟨s.start + bytes, s.stop + bytes⟩ := by
    simp [Diagnostic.primarySpan, Diagnostic.relabel, List.find?_map, Function.comp_def,
      Relabelling.shift]
  have hcompare (m n : Nat) : compare (m + bytes) (n + bytes) = compare m n := by
    simp [Nat.compare_eq_ite_lt]
  rw [placeOrder, placeOrder, hspan, hspan]
  cases d.primarySpan <;> cases e.primarySpan <;> simp [hcompare]

/-- Behind a document without complaints, lexemes that begin with a top-level keyword are read as
if they stood alone. -/
theorem ofLexemes_append {ts us : List Lexeme} (hclean : (Parsed.ofLexemes ts).diagnostics = [])
    (hopens : us.head?.any (Recovery.opensTopLevel ·.token) = true) (bytes : Nat) :
    let moving := Relabelling.shift bytes (Parsed.ofLexemes ts).program.all.length
    Parsed.ofLexemes (ts ++ us.map (·.relabel moving)) =
      Parsed.ofLexemes ts ++ (Parsed.ofLexemes us).relabel moving := by
  intro moving
  cases us with
  | nil => cases hopens
  | cons u us =>
    have hmore : ∀ v ∈ ((u :: us).map (·.relabel moving)).head?, v.token ≠ .leftBrace := by
      intro v hv hbrace
      obtain rfl : u.relabel moving = v := Option.some.inj hv
      rw [Lexeme.token_relabel] at hbrace
      have hopens : Recovery.opensTopLevel u.token = true := hopens
      rw [hbrace] at hopens
      cases hopens
    have hlast : ((ts ++ (u :: us).map (·.relabel moving)).getLast?.map (·.span)).getD ⟨0, 0⟩ =
        moving.whole (us.getLast?.getD u).span := by
      rw [List.getLast?_append, List.getLast?_map, List.getLast?_cons]
      rfl
    have hus : Parsed.ofLexemes (u :: us) =
        readProgram (us.getLast?.getD u).span 0 (u :: us) := by
      rw [Parsed.ofLexemes, List.getLast?_cons]
      rfl
    have hmoving : moving.Coherent := coherent_shift bytes _
    have hmoved := readProgram_relabel hmoving (us.getLast?.getD u).span 0 (u :: us)
    rw [Parsed.ofLexemes, hlast, readProgram_append hmore _ _ 0 ts hclean, hus]
    exact congrArg (Parsed.ofLexemes ts ++ ·) hmoved

/-- A document without complaints has neither lexical offences nor others. -/
theorem causes_of_clean {s : String} (hclean : (parse s).diagnostics = []) :
    Piece.causes (Piece.ofText s.toList) = [] ∧
      (Parsed.ofLexemes (Piece.lexemes 0 true (Piece.ofText s.toList))).diagnostics = [] := by
  have hperm := List.mergeSort_perm (Piece.diagnostics 0 (Piece.ofText s.toList) ++
    (Parsed.ofLexemes (Piece.lexemes 0 true (Piece.ofText s.toList))).diagnostics)
    fun d e => (placeOrder d e).isLE
  rw [show List.mergeSort _ _ = [] from hclean] at hperm
  obtain ⟨hlexical, hsyntax⟩ := List.append_eq_nil_iff.mp hperm.nil_eq.symm
  have h := Piece.map_diagnostics 0 (Piece.ofText s.toList)
  rw [hlexical] at h
  exact ⟨List.map_eq_nil_iff.mp h.symm, hsyntax⟩

/-- Moving diagnostics keeps the order of their places. -/
theorem mergeSort_shift (bytes count : Nat) (ds : List Diagnostic) :
    (ds.map (·.relabel (.shift bytes count))).mergeSort (fun d e => (placeOrder d e).isLE) =
      (ds.mergeSort fun d e => (placeOrder d e).isLE).map (·.relabel (.shift bytes count)) := by
  refine (List.map_mergeSort fun d _ e _ => ?_).symm
  rw [placeOrder_shift]

section

variable {s : Text} (hclean : Piece.causes (Piece.ofText s) = [])
  (hclosed : (Piece.ofText s).any Piece.isUnclosed = false) (t : Text) (count : Nat)

include hclean hclosed

theorem lexemes_append_break :
    Piece.lexemes 0 true (Piece.ofText (s ++ '\n' :: t)) =
      Piece.lexemes 0 true (Piece.ofText s) ++ (Piece.lexemes 0 true (Piece.ofText t)).map
        (·.relabel (.shift (Text.size s + 1) count)) := by
  rw [Piece.ofText_append_break hclean hclosed, Piece.lexemes_append_break, Piece.text_ofText,
    lexemes_shift _ count]

theorem diagnostics_append_break :
    Piece.diagnostics 0 (Piece.ofText (s ++ '\n' :: t)) =
      (Piece.diagnostics 0 (Piece.ofText t)).map
        (·.relabel (.shift (Text.size s + 1) count)) := by
  have hnone : Piece.diagnostics 0 (Piece.ofText s) = [] := by
    have h := Piece.map_diagnostics 0 (Piece.ofText s)
    rw [hclean] at h
    exact List.map_eq_nil_iff.mp h
  rw [Piece.ofText_append_break hclean hclosed, Piece.diagnostics_append, Piece.text_ofText, hnone,
    List.nil_append, Piece.diagnostics, ← diagnostics_shift]
  rfl

end

/-- A text with a top-level keyword next is read behind a text without complaints, which leaves no
comment open, as if it stood alone: its spans are moved by the bytes before it and its identifiers
by the definitions before it, and its complaints are all there are. -/
theorem parse_append_break (s t : String) (hclean : (parse s).diagnostics = [])
    (hclosed : (Piece.ofText s.toList).any Piece.isUnclosed = false)
    (hopens : (Piece.lexemes 0 true (Piece.ofText t.toList)).head?.any
      (Recovery.opensTopLevel ·.token) = true) :
    let joined := parse (s ++ "\n" ++ t)
    let moved := (parse t).relabel
      (.shift (Text.size s.toList + 1) (parse s).program.all.length)
    joined.program.imports = (parse s).program.imports ++ moved.program.imports ∧
      joined.program.definitions = (parse s).program.definitions ++ moved.program.definitions ∧
      joined.diagnostics = moved.diagnostics := by
  intro joined moved
  have htext : (s ++ "\n" ++ t).toList = s.toList ++ '\n' :: t.toList := by
    rw [String.toList_append, String.toList_append, List.append_assoc]
    rfl
  obtain ⟨hcauses, hnone⟩ := causes_of_clean hclean
  let bytes := Text.size s.toList + 1
  let count := (parse s).program.all.length
  have hlexemes := lexemes_append_break hcauses hclosed t.toList count
  have hlexical := diagnostics_append_break hcauses hclosed t.toList count
  rw [← htext] at hlexemes hlexical
  have hread := (congrArg Parsed.ofLexemes hlexemes).trans (ofLexemes_append hnone hopens bytes)
  refine ⟨congrArg (·.program.imports) hread, congrArg (·.program.definitions) hread, ?_⟩
  have hsyntax : (Parsed.ofLexemes
        (Piece.lexemes 0 true (Piece.ofText (s ++ "\n" ++ t).toList))).diagnostics =
      (Parsed.ofLexemes (Piece.lexemes 0 true (Piece.ofText t.toList))).diagnostics.map
        (·.relabel (.shift bytes count)) := by
    refine (congrArg Parsed.diagnostics hread).trans ?_
    change _ ++ _ = _
    rw [hnone, List.nil_append]
    rfl
  calc joined.diagnostics
      = ((Piece.diagnostics 0 (Piece.ofText t.toList) ++ (Parsed.ofLexemes
          (Piece.lexemes 0 true (Piece.ofText t.toList))).diagnostics).map
            (·.relabel (.shift bytes count))).mergeSort (fun d e => (placeOrder d e).isLE) := by
        rw [List.map_append, ← hlexical, ← hsyntax]
        rfl
    _ = moved.diagnostics := mergeSort_shift bytes count _

/-- A service that sends a message defined on the spot, with a comment at the end. -/
def wellFormedText : String :=
  "service Orders \x7b\n  sends event Placed \x7b summary \"new\" \x7d\n\x7d // all of it"

/-- A character that starts no token, an import without braces, and a block that nothing
closes. -/
def brokenText : String := "#\nimport A\nservice Pay \x7b version"

theorem parse_append_break_broken :
    let joined := parse (wellFormedText ++ "\n" ++ brokenText)
    let moved := (parse brokenText).relabel
      (.shift (Text.size wellFormedText.toList + 1) (parse wellFormedText).program.all.length)
    (parse wellFormedText).diagnostics = [] ∧
      (Piece.ofText wellFormedText.toList).any Piece.isUnclosed = false ∧
      (Piece.lexemes 0 true (Piece.ofText brokenText.toList)).head?.any
        (Recovery.opensTopLevel ·.token) = true ∧
      joined.program.imports = (parse wellFormedText).program.imports ++ moved.program.imports ∧
      joined.program.definitions =
        (parse wellFormedText).program.definitions ++ moved.program.definitions ∧
      joined.diagnostics = moved.diagnostics ∧ moved.program.definitions.map (·.id) = [2] :=
  have hclean : (parse wellFormedText).diagnostics = [] := by decide +kernel
  have hclosed : (Piece.ofText wellFormedText.toList).any Piece.isUnclosed = false := by
    decide +kernel
  have hopens : (Piece.lexemes 0 true (Piece.ofText brokenText.toList)).head?.any
      (Recovery.opensTopLevel ·.token) = true := by decide +kernel
  have h := parse_append_break wellFormedText brokenText hclean hclosed hopens
  ⟨hclean, hclosed, hopens, h.1, h.2.1, h.2.2, by decide +kernel⟩

end EventCatalog.Syntax
