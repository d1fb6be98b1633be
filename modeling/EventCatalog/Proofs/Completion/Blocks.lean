import EventCatalog.Proofs.Completion.Headers
import EventCatalog.Proofs.Syntax.Framed.Program
import EventCatalog.Proofs.Syntax.Joining

/-! # Blocks among the lexemes

The definitions of a text that is read without complaints stand among its lexemes, each one with its
header, and those inside it between its braces (`Holds`).  A block is followed through turn by turn:
what a turn takes is put before what the rest of the block holds (`Block.Closed`).  So the lexemes
of the document hold its definitions (`holds_parse`). -/

namespace EventCatalog

theorem Span.stop_le_union (s u : Span) : u.stop ≤ (s.union u).stop := by
  simp only [union, ofBounds]
  omega

namespace Completion

open Syntax

/-- The lexemes between the braces of a definition, or those of a document if it has no parent, hold
the definitions: besides them there are lexemes with balanced braces. -/
inductive Holds : Option Kind → List Lexeme → List Definition → Prop
  | nil {parent : Option Kind} : Holds parent [] []
  | balanced {parent : Option Kind} {ts us : List Lexeme} {ds : List Definition} (h : Shuts 0 ts)
      (hrest : Holds parent us ds) : Holds parent (ts ++ us) ds
  | bare {key name : Lexeme} {us : List Lexeme} {d : Definition} {ds : List Definition}
      (h : Heads none d.kind d.keywordSpan [key, name]) (hspan : d.span = key.span.union name.span)
      (hnested : d.nested = []) (hrest : Holds none us ds) :
      Holds none (key :: name :: us) (d :: ds)
  | block {parent : Option Kind} {header body us : List Lexeme} {opening closing : Lexeme}
      {d : Definition} {ds : List Definition} (h : Heads parent d.kind d.keywordSpan header)
      (hopen : opening.token = .leftBrace) (hclose : closing.token = .rightBrace)
      (hstop : closing.span.stop ≤ d.span.stop) (hbody : Holds (some d.kind) body d.nested)
      (hrest : Holds parent us ds) :
      Holds parent (header ++ opening :: (body ++ closing :: us)) (d :: ds)

theorem Holds.shuts {parent : Option Kind} {ts : List Lexeme} {ds : List Definition}
    (h : Holds parent ts ds) : Shuts 0 ts := by
  induction h with
  | nil => exact .nil
  | balanced h _ ih => exact h.append ih
  | bare h _ _ _ ih => exact h.flat.append_shuts ih
  | block h hopen hclose _ _ _ ihbody ih =>
    refine h.flat.append_shuts (.opening hopen ?_)
    have hbehind := ihbody.append (.closing hclose ih)
    rw [Nat.zero_add] at hbehind
    exact hbehind

end Completion

namespace Syntax

open Completion

namespace Block

variable {ts : List Lexeme}

/-- What a statement leads to in a block of a kind has taken balanced braces, or the header of a
definition and its opening brace. -/
def Turn.Braced (k : Kind) : Turn ts → Prop
  | plain _ rest _ => ∃ used, ts = used ++ rest ∧ Shuts 0 used
  | opens _ o _ rest _ => ∃ used opening, ts = used ++ opening :: rest ∧
      opening.token = .leftBrace ∧ Heads (some k) o.kind o.keyword used
  | dropped _ _ _ => True

theorem braced_turn (finish : Nat) (k : Kind) (t : Lexeme) (ts : List Lexeme) :
    (turn finish k t ts).Braced k := by
  unfold turn
  simp only
  split
  · trivial
  · trivial
  · rename_i s h _ hs
    obtain ⟨used, hused, hbraced⟩ := Statement.braced_statement (Reader.run_of_take hs)
    exact ⟨used, hused, hbraced.shuts⟩
  · rename_i s u us h _ hs
    obtain ⟨used, hused, hbraced⟩ := Statement.braced_statement (Reader.run_of_take hs)
    split
    · rename_i o hopening hbrace
      exact ⟨used, u, hused, hbrace, hbraced.heads o hopening⟩
    · exact ⟨used, hused, hbraced.shuts⟩

/-- The block of a definition has its closing brace, and the lexemes before it hold the definitions
that it adds to those already read. -/
structure Closed (d : Definition) (b : Block ts) : Prop where
  kind : b.definition.kind = d.kind
  keyword : b.definition.keywordSpan = d.keywordSpan
  body : ∃ body closing ds, ts = body ++ closing :: b.rest ∧ closing.token = .rightBrace ∧
    closing.span.stop ≤ b.definition.span.stop ∧ b.definition.nested = d.nested ++ ds ∧
    Holds (some d.kind) body ds

/-- A closed block stands behind the header of its definition and an opening brace. -/
theorem Closed.exists_holds {d : Definition} {b : Block ts} (h : b.Closed d) (hd : d.nested = [])
    {parent : Option Kind} {header : List Lexeme} {opening : Lexeme}
    (hheads : Heads parent d.kind d.keywordSpan header) (hopen : opening.token = .leftBrace) :
    ∃ body closing, ts = body ++ closing :: b.rest ∧ ∀ us ds, Holds parent us ds →
      Holds parent (header ++ opening :: (body ++ closing :: us)) (b.definition :: ds) := by
  obtain ⟨hkind, hkeyword, body, closing, ds, hts, hclose, hstop, hnested, hbody⟩ := h
  rw [hd, List.nil_append] at hnested
  rw [← hkind, ← hnested] at hbody
  rw [← hkind, ← hkeyword] at hheads
  exact ⟨body, closing, hts, fun us ds hus => .block hheads hopen hclose hstop hbody hus⟩

/-- A block without complaints is closed. -/
theorem closed_read (last opened : Span) (next : Nat) (d : Definition) (ts : List Lexeme)
    (hclean : (read last opened next d ts).diagnostics = []) :
    (read last opened next d ts).Closed d := by
  fun_induction read last opened next d ts with
  | case1 opened next d => cases hclean
  | case2 opened next d t ts ht =>
    exact ⟨rfl, rfl, [], t, [], rfl, ht, Span.stop_le_union d.span t.span,
      (List.append_nil _).symm, .nil⟩
  | case3 opened next d t ts ht s rest hlt hturn ih =>
    obtain ⟨hkind, hkeyword, body, closing, ds, hrest, hclose, hstop, hnested, hbody⟩ := ih hclean
    have hstep := braced_turn last.stop d.kind t ts
    rw [hturn] at hstep
    obtain ⟨used, hused, hshuts⟩ := hstep
    rw [Definition.kind_add] at hkind hbody
    rw [Definition.keywordSpan_add] at hkeyword
    rw [Definition.nested_add] at hnested
    refine ⟨hkind, hkeyword, used ++ body, closing, ds, ?_, hclose, hstop, hnested,
      .balanced hshuts hbody⟩
    rw [List.append_assoc]
    exact hused.trans (congrArg (used ++ ·) hrest)
  | case4 opened next d t ts ht complaint rest hlt hturn ih => cases hclean
  | case5 opened next d t ts ht s o brace rest hlt hturn child ihchild ih =>
    obtain ⟨hchild, hothers⟩ := List.append_eq_nil_iff.mp hclean
    obtain ⟨hkind, hkeyword, body, closing, ds, hrest, hclose, hstop, hnested, hbody⟩ := ih hothers
    have hstep := braced_turn last.stop d.kind t ts
    rw [hturn] at hstep
    obtain ⟨used, opening, hused, hopen, hheads⟩ := hstep
    have hstart : Heads (some d.kind) (o.start next).kind o.keyword used := by
      rw [show (o.start next).kind = o.kind from Body.kind_empty o.kind]
      exact hheads
    obtain ⟨body', closing', hchildBody, hholds⟩ := (ihchild hchild).exists_holds rfl hstart hopen
    have hsame : (d.addInlined s child.definition).kind = d.kind := Definition.kind_add d _
    rw [hsame] at hkind hbody
    rw [Definition.nested_addInlined, List.append_assoc, List.singleton_append] at hnested
    refine ⟨hkind, hkeyword.trans (Definition.keywordSpan_add d _),
      used ++ opening :: (body' ++ closing' :: body), closing, child.definition :: ds, ?_, hclose,
      hstop, hnested, hholds _ _ hbody⟩
    have hall : rest = body' ++ closing' :: (body ++ closing :: _) :=
      hchildBody.trans (congrArg (body' ++ closing' :: ·) hrest)
    rw [List.append_assoc, List.cons_append, List.append_assoc, List.cons_append]
    exact hused.trans (congrArg (used ++ opening :: ·) hall)

end Block

/-! ### Documents -/

/-- At the top of a document a definition begins with its kind and its name. -/
theorem exists_of_run_header {ts rest : List Lexeme} {kind : Located Kind} {name : Located String}
    (h : header.run ts = .ok ((kind, name), rest)) : ∃ key named, ts = key :: named :: rest ∧
      Heads none kind.value kind.span [key, named] ∧ name.span = named.span := by
  obtain ⟨kind', mid, hkind, h⟩ := Reader.run_bind_eq_ok h
  obtain ⟨name', mid', hname, h⟩ := Reader.run_bind_eq_ok h
  cases h
  obtain ⟨key, rfl, hvalue, hspan⟩ := Reader.run_token_eq_ok hkind
  obtain ⟨named, rfl, hnamed, hspan'⟩ := Reader.run_token_eq_ok (Reader.run_labelled_eq_ok hname)
  rw [hspan]
  exact ⟨key, named, rfl,
    heads_definition hvalue (flat_singleton (isBrace_of_token _ rfl rfl hnamed)), hspan'⟩

namespace Entry

/-- What comes next at the top of a document takes lexemes that hold its definition, if it is one
and there are no complaints about it. -/
def Prepends {ts : List Lexeme} : Entry ts → Prop
  | importing _ rest _ => ∀ ds, Holds none rest ds → Holds none ts ds
  | defining d _ complaints rest _ =>
    complaints = [] → ∀ ds, Holds none rest ds → Holds none ts (d :: ds)
  | dropped _ _ _ => True

theorem prepends_define (last : Span) (next id : Nat) {kind : Located Kind} {name : Located String}
    {ts rest : List Lexeme} (h : header.run ts = .ok ((kind, name), rest))
    (hlt : rest.length < ts.length) :
    (define last next (Definition.start id kind.value kind.span name none) rest hlt).Prepends := by
  obtain ⟨key, named, rfl, hheads, hname⟩ := exists_of_run_header h
  have hkey : key.span = kind.span := Option.some.inj hheads.keyword
  have hkind : (Definition.start id kind.value kind.span name none).kind = kind.value :=
    Body.kind_empty kind.value
  have hspan : (Definition.start id kind.value kind.span name none).span =
      key.span.union named.span := by
    rw [hkey, ← hname]
    rfl
  have hbare : ∀ ds, Holds none rest ds → Holds none (key :: named :: rest)
      (Definition.start id kind.value kind.span name none :: ds) := by
    intro ds hds
    rw [← hkind] at hheads
    exact .bare hheads hspan rfl hds
  unfold define
  split
  · exact fun _ => hbare
  · rename_i u us _
    split
    · rename_i hopen
      intro hclean ds hds
      rw [← hkind] at hheads
      obtain ⟨body, closing, hbody, hholds⟩ :=
        (Block.closed_read last u.span (next + 1) _ us hclean).exists_holds rfl hheads hopen
      have hwhole : key :: named :: u :: us = [key, named] ++ u :: (body ++ closing :: _) :=
        congrArg (key :: named :: u :: ·) hbody
      rw [hwhole]
      exact hholds _ ds hds
    · exact fun _ => hbare

theorem prepends_read (last : Span) (next : Nat) (t : Lexeme) (ts : List Lexeme) :
    (read last next t ts).Prepends := by
  unfold read
  simp only
  split
  · split
    · rename_i hread
      obtain ⟨used, hused, hshuts⟩ := Phrase.takesShut_importStatement _ _ _
        (Reader.run_of_take hread)
      intro ds hds
      rw [hused]
      exact .balanced hshuts hds
    · trivial
  · split
    · split
      · rename_i hread
        exact prepends_define last next next (Reader.run_of_take hread) _
      · trivial
    · trivial

end Entry

/-- The lexemes of a document without complaints hold its definitions. -/
theorem holds_readProgram (last : Span) (next : Nat) (ts : List Lexeme)
    (hclean : (readProgram last next ts).diagnostics = []) :
    Holds none ts (readProgram last next ts).program.definitions := by
  fun_induction readProgram last next ts with
  | case1 next => exact .nil
  | case2 next t ts i rest hlt hread ih =>
    have hentry := Entry.prepends_read last next t ts
    rw [hread] at hentry
    exact hentry _ (ih hclean)
  | case3 next t ts d next' ds rest hlt hread ih =>
    obtain ⟨hds, hothers⟩ := List.append_eq_nil_iff.mp hclean
    have hentry := Entry.prepends_read last next t ts
    rw [hread] at hentry
    exact hentry hds _ (ih hothers)
  | case4 next t ts d rest hlt hread ih => cases hclean

/-- The lexemes of a text without complaints hold the definitions of its document. -/
theorem holds_parse {source : String} (hclean : (parse source).diagnostics = []) :
    Holds none (Piece.lexemes 0 true (Piece.ofText source.toList))
      (parse source).program.definitions :=
  holds_readProgram _ 0 _ (causes_of_clean hclean).2

end Syntax

end EventCatalog
