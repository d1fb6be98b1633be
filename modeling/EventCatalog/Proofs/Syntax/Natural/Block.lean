import EventCatalog.Proofs.Syntax.Natural.Statement
import EventCatalog.Syntax.Block

/-! # Documents commute with relabelling

Recovery looks at tokens and line starts alone, as the readers do, so a block or a document that is
read from relabelled lexemes is the relabelled one, with the relabelled diagnostics
(`Block.read_relabel`, `Parsed.ofLexemes_relabel`).  Identifiers count from another number then. -/

namespace EventCatalog.Syntax

open Reader

namespace Reader

variable {α : Type}

theorem take_error {p : Reader α} (hp : p.Strict) {ts : List Lexeme} {e : Failure}
    (h : p.run ts = .error e) : p.take hp ts = .error e := by
  unfold take
  split
  · rename_i h'
    rw [h] at h'
    cases h'
    rfl
  · rename_i h'
    rw [h] at h'
    cases h'

theorem take_ok {p : Reader α} (hp : p.Strict) {ts rest : List Lexeme} {a : α}
    (h : p.run ts = .ok (a, rest)) : p.take hp ts = .ok ⟨a, rest, hp _ _ _ h⟩ := by
  unfold take
  split
  · rename_i h'
    rw [h] at h'
    cases h'
  · rename_i h'
    rw [h] at h'
    cases h'
    rfl

end Reader

variable {f : Relabelling}

namespace Failure

theorem diagnostic_relabel (hf : f.Coherent) (e : Failure) (last : Span) :
    (e.relabel f).diagnostic (f.whole last).stop = (e.diagnostic last.stop).relabel f := by
  obtain ⟨expected, found⟩ := e
  cases found with
  | none =>
    simp [relabel, diagnostic, Diagnostic.relabel, Diagnostic.labelled, Diagnostic.withHelp,
      Diagnostic.error, hf.stop]
  | some t =>
    simp [relabel, diagnostic, Diagnostic.relabel, Diagnostic.labelled, Diagnostic.error,
      Lexeme.relabel]

end Failure

/-! ### Recovery -/

namespace Recovery

theorem skipRest_relabel (depth : Nat) (ts : List Lexeme) :
    skipRest depth (ts.map (·.relabel f)) = (skipRest depth ts).map (·.relabel f) := by
  induction ts generalizing depth with
  | nil => rfl
  | cons t ts ih =>
    rw [List.map_cons, skipRest, skipRest, Lexeme.token_relabel, Lexeme.startsLine_relabel]
    split
    · rfl
    · exact ih _

theorem skipBlocks_relabel (depth : Nat) (ts : List Lexeme) :
    skipBlocks depth (ts.map (·.relabel f)) = (skipBlocks depth ts).map (·.relabel f) := by
  induction ts generalizing depth with
  | nil => rfl
  | cons t ts ih =>
    rw [List.map_cons, skipBlocks, skipBlocks, Lexeme.token_relabel, Lexeme.startsLine_relabel]
    split
    · rfl
    · exact ih _

end Recovery

/-! ### Blocks -/

namespace Block

/-- The second block is the first with all spans and identifiers changed. -/
structure Relabels (f : Relabelling) {ts us : List Lexeme} (b : Block ts) (b' : Block us) :
    Prop where
  definition : b'.definition = b.definition.relabel f
  next : b'.next = f.number b.next
  diagnostics : b'.diagnostics = b.diagnostics.map (·.relabel f)
  rest : b'.rest = b.rest.map (·.relabel f)

theorem Relabels.after {ts us ts' us' : List Lexeme} {b : Block us} {b' : Block us'}
    (h : b.Relabels f b') (ds : List Diagnostic) (hle : us.length ≤ ts.length)
    (hle' : us'.length ≤ ts'.length) :
    (b.after ds hle).Relabels f (b'.after (ds.map (·.relabel f)) hle') := by
  refine ⟨h.definition, h.next, ?_, h.rest⟩
  rw [Block.after, Block.after, h.diagnostics, List.map_append]

theorem unclosed_relabel (d : Definition) (opened : Span) :
    unclosed (d.relabel f) (f.whole opened) = (unclosed d opened).relabel f := by
  have hname : (d.relabel f).name.value = d.name.value := by
    rw [Definition.relabel_mk]
    rfl
  rw [unclosed, Definition.kind_relabel, hname]
  rfl

/-- The second turn is the first with all spans changed. -/
inductive Turn.Relabels (f : Relabelling) {ts us : List Lexeme} : Turn ts → Turn us → Prop
  | plain (s : Statement) (rest : List Lexeme) (h : rest.length < ts.length)
      (h' : (rest.map (·.relabel f)).length < us.length) :
      Relabels f (.plain s rest h) (.plain (s.relabel f) (rest.map (·.relabel f)) h')
  | opens (s : Statement) (o : Statement.Opening) (brace : Span) (rest : List Lexeme)
      (h : rest.length < ts.length) (h' : (rest.map (·.relabel f)).length < us.length) :
      Relabels f (.opens s o brace rest h)
        (.opens (s.relabel f) (o.relabel f) (f.whole brace) (rest.map (·.relabel f)) h')
  | dropped (d : Diagnostic) (rest : List Lexeme) (h : rest.length < ts.length)
      (h' : (rest.map (·.relabel f)).length < us.length) :
      Relabels f (.dropped d rest h) (.dropped (d.relabel f) (rest.map (·.relabel f)) h')

namespace Turn.Relabels

variable {ts us : List Lexeme} {rest : List Lexeme} {h : rest.length < ts.length} {turn : Turn us}

theorem of_plain {s : Statement} (hturn : Relabels f (.plain s rest h) turn) :
    ∃ h', turn = .plain (s.relabel f) (rest.map (·.relabel f)) h' := by
  cases hturn
  exact ⟨_, rfl⟩

theorem of_opens {s : Statement} {o : Statement.Opening} {brace : Span}
    (hturn : Relabels f (.opens s o brace rest h) turn) :
    ∃ h', turn =
      .opens (s.relabel f) (o.relabel f) (f.whole brace) (rest.map (·.relabel f)) h' := by
  cases hturn
  exact ⟨_, rfl⟩

theorem of_dropped {d : Diagnostic} (hturn : Relabels f (.dropped d rest h) turn) :
    ∃ h', turn = .dropped (d.relabel f) (rest.map (·.relabel f)) h' := by
  cases hturn
  exact ⟨_, rfl⟩

end Turn.Relabels

theorem turn_relabel (hf : f.Coherent) (last : Span) (k : Kind) (t : Lexeme)
    (ts : List Lexeme) :
    (turn last.stop k t ts).Relabels f
      (turn (f.whole last).stop k (t.relabel f) (ts.map (·.relabel f))) := by
  have hskip : Recovery.skipStatement (t.relabel f) (ts.map (·.relabel f)) =
      (Recovery.skipStatement t ts).map (·.relabel f) := Recovery.skipRest_relabel _ ts
  have hnatural := Statement.natural_statement hf k
  cases h : (Statement.statement k).run (t :: ts) with
  | error e =>
    have h' : (Statement.statement k).run (t.relabel f :: ts.map (·.relabel f)) =
      .error (e.relabel f) := hnatural.error h
    simp only [turn, take_error _ h, take_error _ h', hskip, Failure.diagnostic_relabel hf]
    exact .dropped _ _ _ _
  | ok r =>
    obtain ⟨s, rest⟩ := r
    have h' : (Statement.statement k).run (t.relabel f :: ts.map (·.relabel f)) =
      .ok (s.relabel f, rest.map (·.relabel f)) := hnatural.ok h
    simp only [turn, take_ok _ h, take_ok _ h', hskip]
    cases s with
    | unknown word span => exact .dropped (unknown k word span) _ _ _
    | member sort keyword target inlined =>
      rcases rest with _ | ⟨⟨token, brace, startsLine⟩, us⟩
      · exact .plain _ [] _ _
      · cases token with
        | leftBrace => exact .opens _ ⟨sort.kind, keyword, target⟩ brace us _ _
        | _ => exact .plain _ (_ :: us) _ _
    | message direction m =>
      rcases rest with _ | ⟨⟨token, brace, startsLine⟩, us⟩
      · exact .plain _ [] _ _
      · cases token with
        | leftBrace =>
          change Turn.Relabels f _ (.opens _ ⟨_, f.located m.kind.span, _⟩ _ _ _)
          rw [hf.located]
          exact .opens _ ⟨m.kind.value, m.kind.span, m.target⟩ brace us _ _
        | _ => exact .plain _ (_ :: us) _ _
    | _ =>
      rcases rest with _ | ⟨u, us⟩
      · exact .plain _ [] _ _
      · exact .plain _ (u :: us) _ _

/-- A block that goes on behind the block of a definition inside it. -/
theorem Relabels.inlined (hf : f.Coherent) {last opened : Span} {d : Definition} {s : Statement}
    {ts us ts' us' : List Lexeme} {child : Block us} {child' : Block us'}
    (hchild : child.Relabels f child')
    (hread : (read last opened child.next (d.addInlined s child.definition) child.rest).Relabels f
      (read (f.whole last) (f.whole opened) (f.number child.next)
        ((d.addInlined s child.definition).relabel f) (child.rest.map (·.relabel f))))
    (hle : child.rest.length ≤ ts.length) (hle' : child'.rest.length ≤ ts'.length) :
    ((read last opened child.next (d.addInlined s child.definition) child.rest).after
      child.diagnostics hle).Relabels f
      ((read (f.whole last) (f.whole opened) child'.next
        ((d.relabel f).addInlined (s.relabel f) child'.definition) child'.rest).after
        child'.diagnostics hle') := by
  obtain ⟨d', next', diagnostics', rest', h'⟩ := child'
  obtain ⟨rfl, rfl, rfl, rfl⟩ := hchild
  rw [Definition.relabel_addInlined hf] at hread
  exact hread.after child.diagnostics _ _

theorem read_relabel (hf : f.Coherent) (last opened : Span) (next : Nat) (d : Definition)
    (ts : List Lexeme) :
    (read last opened next d ts).Relabels f
      (read (f.whole last) (f.whole opened) (f.number next) (d.relabel f)
        (ts.map (·.relabel f))) := by
  fun_induction read last opened next d ts with
  | case1 opened next d =>
    rw [List.map_nil, read]
    exact ⟨(Definition.relabel_closeAt hf d last).symm, rfl,
      congrArg (fun c => [c]) (unclosed_relabel d opened), rfl⟩
  | case2 opened next d t ts ht =>
    rw [List.map_cons, read, Lexeme.token_relabel, if_pos ht]
    exact ⟨(Definition.relabel_closeAt hf d t.span).symm, rfl, rfl, rfl⟩
  | case3 opened next d t ts ht s rest hlt hturn ih =>
    have hstep := turn_relabel hf last d.kind t ts
    rw [hturn] at hstep
    obtain ⟨hlt', hturn'⟩ := hstep.of_plain
    rw [List.map_cons, read, Lexeme.token_relabel, if_neg ht]
    simp only [Definition.kind_relabel, hturn', ← Definition.relabel_add hf]
    exact ih.after [] _ _
  | case4 opened next d t ts ht complaint rest hlt hturn ih =>
    have hstep := turn_relabel hf last d.kind t ts
    rw [hturn] at hstep
    obtain ⟨hlt', hturn'⟩ := hstep.of_dropped
    rw [List.map_cons, read, Lexeme.token_relabel, if_neg ht]
    simp only [Definition.kind_relabel, hturn']
    exact ih.after [complaint] _ _
  | case5 opened next d t ts ht s o brace rest hlt hturn child ihchild ih =>
    have hstep := turn_relabel hf last d.kind t ts
    rw [hturn] at hstep
    obtain ⟨hlt', hturn'⟩ := hstep.of_opens
    rw [List.map_cons, read, Lexeme.token_relabel, if_neg ht]
    simp only [Definition.kind_relabel, hturn']
    rw [Statement.Opening.relabel_start hf, hf.succ] at ihchild
    exact ihchild.inlined hf ih (Nat.le_trans child.rest_le (Nat.le_of_lt hlt))
      (Nat.le_trans (Block.rest_le _) (Nat.le_of_lt hlt'))

end Block

/-! ### Documents -/

namespace Parsed

/-- What was read of a document, with all spans and identifiers changed. -/
def relabel (f : Relabelling) (p : Parsed) : Parsed :=
  ⟨p.program.relabel f, p.diagnostics.map (·.relabel f)⟩

theorem relabel_withImport (i : Import) (p : Parsed) :
    (p.withImport i).relabel f = (p.relabel f).withImport (i.relabel f) := rfl

theorem relabel_withDefinition (d : Definition) (ds : List Diagnostic) (p : Parsed) :
    (p.withDefinition d ds).relabel f =
      (p.relabel f).withDefinition (d.relabel f) (ds.map (·.relabel f)) := by
  simp [withDefinition, relabel, Program.relabel, Definition.relabelAll]

theorem relabel_withDiagnostic (d : Diagnostic) (p : Parsed) :
    (p.withDiagnostic d).relabel f = (p.relabel f).withDiagnostic (d.relabel f) := rfl

end Parsed

theorem natural_header (hf : f.Coherent) :
    Natural f (fun x => (x.1.relabel f, x.2.relabel f)) header header :=
  (Phrase.natural_kind hf).bind fun _ => ((Phrase.natural_name hf).labelled _).bind fun _ =>
    natural_pure rfl

namespace Entry

/-- The second entry is the first with all spans and identifiers changed. -/
inductive Relabels (f : Relabelling) {ts us : List Lexeme} : Entry ts → Entry us → Prop
  | importing (i : Import) (rest : List Lexeme) (h : rest.length < ts.length)
      (h' : (rest.map (·.relabel f)).length < us.length) :
      Relabels f (.importing i rest h) (.importing (i.relabel f) (rest.map (·.relabel f)) h')
  | defining (d : Definition) (next : Nat) (ds : List Diagnostic) (rest : List Lexeme)
      (h : rest.length < ts.length) (h' : (rest.map (·.relabel f)).length < us.length) :
      Relabels f (.defining d next ds rest h)
        (.defining (d.relabel f) (f.number next) (ds.map (·.relabel f))
          (rest.map (·.relabel f)) h')
  | dropped (d : Diagnostic) (rest : List Lexeme) (h : rest.length < ts.length)
      (h' : (rest.map (·.relabel f)).length < us.length) :
      Relabels f (.dropped d rest h) (.dropped (d.relabel f) (rest.map (·.relabel f)) h')

namespace Relabels

variable {ts us : List Lexeme} {rest : List Lexeme} {h : rest.length < ts.length} {entry : Entry us}

theorem of_importing {i : Import} (hentry : Relabels f (.importing i rest h) entry) :
    ∃ h', entry = .importing (i.relabel f) (rest.map (·.relabel f)) h' := by
  cases hentry
  exact ⟨_, rfl⟩

theorem of_defining {d : Definition} {next : Nat} {ds : List Diagnostic}
    (hentry : Relabels f (.defining d next ds rest h) entry) :
    ∃ h', entry = .defining (d.relabel f) (f.number next) (ds.map (·.relabel f))
      (rest.map (·.relabel f)) h' := by
  cases hentry
  exact ⟨_, rfl⟩

theorem of_dropped {d : Diagnostic} (hentry : Relabels f (.dropped d rest h) entry) :
    ∃ h', entry = .dropped (d.relabel f) (rest.map (·.relabel f)) h' := by
  cases hentry
  exact ⟨_, rfl⟩

end Relabels

theorem defining_relabel {ts us ts' us' : List Lexeme} {b : Block us} {b' : Block us'}
    (h : b.Relabels f b') (hlt : b.rest.length < ts.length) (hlt' : b'.rest.length < ts'.length) :
    Relabels f (.defining b.definition b.next b.diagnostics b.rest hlt)
      (.defining b'.definition b'.next b'.diagnostics b'.rest hlt') := by
  obtain ⟨d', next', diagnostics', rest', h'⟩ := b'
  obtain ⟨rfl, rfl, rfl, rfl⟩ := h
  exact .defining b.definition b.next b.diagnostics b.rest hlt hlt'

theorem define_relabel (hf : f.Coherent) (last : Span) (next : Nat) (d : Definition)
    {ts us : List Lexeme} (rest : List Lexeme) (h : rest.length < ts.length)
    (h' : (rest.map (·.relabel f)).length < us.length) :
    (define last next d rest h).Relabels f
      (define (f.whole last) (f.number next) (d.relabel f) (rest.map (·.relabel f)) h') := by
  cases rest with
  | nil =>
    simp only [define, ← hf.succ]
    exact .defining d (next + 1) [] [] _ _
  | cons u rest =>
    simp only [List.map_cons]
    simp only [define, Lexeme.token_relabel, ← hf.succ]
    split
    · exact defining_relabel (Block.read_relabel hf last u.span (next + 1) d rest) _ _
    · exact .defining d (next + 1) [] (u :: rest) _ _

theorem read_relabel (hf : f.Coherent) (last : Span) (next : Nat) (t : Lexeme)
    (ts : List Lexeme) :
    (read last next t ts).Relabels f
      (read (f.whole last) (f.number next) (t.relabel f) (ts.map (·.relabel f))) := by
  have hskip : Recovery.skipToDefinition (t.relabel f) (ts.map (·.relabel f)) =
      (Recovery.skipToDefinition t ts).map (·.relabel f) := Recovery.skipBlocks_relabel _ ts
  simp only [read, Lexeme.token_relabel, hskip]
  split
  · have himport := Phrase.natural_importStatement hf
    cases h : Phrase.importStatement.run (t :: ts) with
    | error e =>
      have h' : Phrase.importStatement.run (t.relabel f :: ts.map (·.relabel f)) =
        .error (e.relabel f) := himport.error h
      simp only [take_error _ h, take_error _ h', Failure.diagnostic_relabel hf]
      exact .dropped _ _ _ _
    | ok r =>
      obtain ⟨i, rest⟩ := r
      have h' : Phrase.importStatement.run (t.relabel f :: ts.map (·.relabel f)) =
        .ok (i.relabel f, rest.map (·.relabel f)) := himport.ok h
      simp only [take_ok _ h, take_ok _ h']
      exact .importing i rest _ _
  split
  · have hheader := natural_header hf
    cases h : header.run (t :: ts) with
    | error e =>
      have h' : header.run (t.relabel f :: ts.map (·.relabel f)) =
        .error (e.relabel f) := hheader.error h
      simp only [take_error _ h, take_error _ h', Failure.diagnostic_relabel hf]
      exact .dropped _ _ _ _
    | ok r =>
      obtain ⟨⟨kind, name⟩, rest⟩ := r
      have h' : header.run (t.relabel f :: ts.map (·.relabel f)) =
        .ok ((kind.relabel f, name.relabel f), rest.map (·.relabel f)) := hheader.ok h
      have hspan : (kind.relabel f).span = f.whole kind.span := hf.located kind.span
      have hdefine := define_relabel hf last next
        (Definition.start next kind.value kind.span name none) rest (strict_header _ _ _ h)
        (strict_header _ _ _ h')
      rw [Definition.relabel_start hf, Option.map_none, ← hspan] at hdefine
      simp only [take_ok _ h, take_ok _ h']
      exact hdefine
  · have h := Failure.diagnostic_relabel hf ⟨.definitionOrImport, some t⟩ last
    rw [Failure.relabel, Option.map_some] at h
    rw [h]
    exact .dropped _ _ _ _

end Entry

theorem readProgram_relabel (hf : f.Coherent) (last : Span) (next : Nat) (ts : List Lexeme) :
    readProgram (f.whole last) (f.number next) (ts.map (·.relabel f)) =
      (readProgram last next ts).relabel f := by
  fun_induction readProgram last next ts with
  | case1 next =>
    rw [List.map_nil, readProgram]
    rfl
  | case2 next t ts i rest hlt hread ih =>
    have hentry := Entry.read_relabel hf last next t ts
    rw [hread] at hentry
    obtain ⟨hlt', hread'⟩ := hentry.of_importing
    rw [List.map_cons, readProgram]
    simp only [hread', ih, Parsed.relabel_withImport]
  | case3 next t ts d next' ds rest hlt hread ih =>
    have hentry := Entry.read_relabel hf last next t ts
    rw [hread] at hentry
    obtain ⟨hlt', hread'⟩ := hentry.of_defining
    rw [List.map_cons, readProgram]
    simp only [hread', ih, Parsed.relabel_withDefinition]
  | case4 next t ts d rest hlt hread ih =>
    have hentry := Entry.read_relabel hf last next t ts
    rw [hread] at hentry
    obtain ⟨hlt', hread'⟩ := hentry.of_dropped
    rw [List.map_cons, readProgram]
    simp only [hread', ih, Parsed.relabel_withDiagnostic]

/-- A document read from relabelled lexemes is the relabelled document. -/
theorem Parsed.ofLexemes_relabel (hf : f.Coherent) (hzero : f.number 0 = 0) (ts : List Lexeme) :
    ofLexemes (ts.map (·.relabel f)) = (ofLexemes ts).relabel f := by
  rw [ofLexemes, ofLexemes, List.getLast?_map]
  cases ts with
  | nil =>
    rw [List.map_nil, readProgram, readProgram]
    rfl
  | cons t ts =>
    have h := readProgram_relabel hf ((ts.getLast?.getD t).span) 0 (t :: ts)
    rw [hzero] at h
    rw [List.getLast?_cons]
    exact h

end EventCatalog.Syntax
