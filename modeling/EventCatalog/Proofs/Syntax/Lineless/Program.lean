import EventCatalog.Proofs.Syntax.Joining
import EventCatalog.Proofs.Syntax.Lineless.Reader
import EventCatalog.Proofs.Token.LineBreaks

/-! # Line breaks do not matter outside flows

Besides labels in flows only recovery looks at line starts, and nothing is recovered from in a
document without complaints.  So such a document without flows is read alike from lexemes that
differ in line starts (`readProgram_alike`).  Spans are forgotten by naturality, and then nothing
but the tokens is left of the lexemes: texts with the same tokens mean the same
(`parse_respaced`). -/

namespace EventCatalog.Syntax

open Reader

/-- There is no flow in a definition. -/
def Definition.Flowless (d : Definition) : Prop := ∀ e ∈ d.all, e.kind ≠ .flow

theorem Definition.Flowless.nested {d c : Definition} (h : d.Flowless) (hc : c ∈ d.nested) :
    c.Flowless := by
  intro e he
  refine h e ?_
  rw [Definition.all_eq]
  exact List.mem_cons_of_mem _ (Definition.mem_allOf.mpr ⟨c, hc, he⟩)

theorem exists_of_inline {t : Lexeme} {ts us : List Lexeme}
    (h : us.map (·.inline) = (t :: ts).map (·.inline)) :
    ∃ u us', us = u :: us' ∧ u.token = t.token ∧ u.span = t.span ∧
      us'.map (·.inline) = ts.map (·.inline) := by
  obtain ⟨u, us', rfl, hu, hrest⟩ := List.map_eq_cons_iff.mp h
  obtain ⟨htoken, hspan⟩ := Lexeme.eq_of_inline hu
  exact ⟨u, us', rfl, htoken, hspan, hrest⟩

theorem head?_of_inline {ts us : List Lexeme} (h : us.map (·.inline) = ts.map (·.inline)) :
    us.head?.map (·.token) = ts.head?.map (·.token) := by
  have hhead := congrArg (fun vs => vs.head?.map Lexeme.token) h
  simp only [List.head?_map, Option.map_map] at hhead
  exact hhead

/-! ### Blocks -/

namespace Block

/-- The same block, with line starts of what follows it aside. -/
structure Alike {ts us : List Lexeme} (b : Block ts) (b' : Block us) : Prop where
  definition : b'.definition = b.definition
  next : b'.next = b.next
  diagnostics : b'.diagnostics = b.diagnostics
  rest : b'.rest.map (·.inline) = b.rest.map (·.inline)

theorem Alike.after {ts us ts' us' : List Lexeme} {b : Block us} {b' : Block us'}
    (h : b.Alike b') (ds : List Diagnostic) (hle : us.length ≤ ts.length)
    (hle' : us'.length ≤ ts'.length) : (b.after ds hle).Alike (b'.after ds hle') :=
  ⟨h.definition, h.next, congrArg (ds ++ ·) h.diagnostics, h.rest⟩

/-- A block that goes on behind the block of a definition inside it. -/
theorem Alike.inlined {last opened : Span} {d : Definition} {s : Statement}
    {ts us ts' us' : List Lexeme} {child : Block us} {child' : Block us'}
    (hchild : child.Alike child')
    (hread : ∀ {vs : List Lexeme}, vs.map (·.inline) = child.rest.map (·.inline) →
      (read last opened child.next (d.addInlined s child.definition) child.rest).Alike
        (read last opened child.next (d.addInlined s child.definition) vs))
    (hle : child.rest.length ≤ ts.length) (hle' : child'.rest.length ≤ ts'.length) :
    ((read last opened child.next (d.addInlined s child.definition) child.rest).after
      child.diagnostics hle).Alike
      ((read last opened child'.next (d.addInlined s child'.definition) child'.rest).after
        child'.diagnostics hle') := by
  obtain ⟨d', next', diagnostics', rest', h'⟩ := child'
  obtain ⟨rfl, rfl, rfl, hrest⟩ := hchild
  exact (hread hrest).after child.diagnostics _ _

theorem openingAt_of_inline {ts us : List Lexeme} (h : us.map (·.inline) = ts.map (·.inline))
    (s : Statement) : openingAt s us = openingAt s ts := by
  rw [openingAt, head?_of_inline h, openingAt]

/-- A turn that completes a statement goes the same way, with line starts of what is left
aside. -/
inductive Turn.Alike {ts us : List Lexeme} (other : Turn us) : Turn ts → Prop
  | plain (s : Statement) (rest : List Lexeme) (h : rest.length < ts.length)
      (alike : ∃ rest' h', other = .plain s rest' h' ∧
        rest'.map (·.inline) = rest.map (·.inline)) : Alike other (.plain s rest h)
  | opens (s : Statement) (o : Statement.Opening) (brace : Span) (rest : List Lexeme)
      (h : rest.length < ts.length)
      (alike : ∃ rest' h', other = .opens s o brace rest' h' ∧
        rest'.map (·.inline) = rest.map (·.inline)) : Alike other (.opens s o brace rest h)
  | dropped (d : Diagnostic) (rest : List Lexeme) (h : rest.length < ts.length) :
      Alike other (.dropped d rest h)

theorem turn_alike {k : Kind} (hk : k ≠ .flow) (finish : Nat) {t u : Lexeme} {ts us : List Lexeme}
    (hus : (u :: us).map (·.inline) = (t :: ts).map (·.inline)) :
    (turn finish k u us).Alike (turn finish k t ts) := by
  cases h : (Statement.statement k).run (t :: ts) with
  | error e =>
    simp only [turn, take_error _ h]
    exact .dropped _ _ _
  | ok r =>
    obtain ⟨s, rest⟩ := r
    by_cases hs : ∃ word span, s = .unknown word span
    · obtain ⟨word, span, rfl⟩ := hs
      simp only [turn, take_ok _ h]
      exact .dropped _ _ _
    have hs' : ∀ word span, s ≠ .unknown word span := fun word span e => hs ⟨word, span, e⟩
    obtain ⟨rest', h', hrest⟩ := (Statement.lineless_statement hk).ok hus h
    have hopening' := openingAt_of_inline hrest s
    cases hopening : openingAt s rest with
    | none =>
      obtain ⟨hlt, hturn⟩ := turn_of_plain finish h hs' hopening
      obtain ⟨hlt', hturn'⟩ := turn_of_plain finish h' hs' (hopening'.trans hopening)
      rw [hturn]
      exact .plain s rest hlt ⟨rest', hlt', hturn', hrest⟩
    | some o =>
      obtain ⟨v, vs, rfl, hlt, hturn⟩ := turn_of_opening finish h hopening
      obtain ⟨v', vs', rfl, hlt', hturn'⟩ := turn_of_opening finish h' (hopening'.trans hopening)
      obtain ⟨hv, hvs⟩ := List.cons.inj hrest
      rw [(Lexeme.eq_of_inline hv).2] at hturn'
      rw [hturn]
      exact .opens s o v.span vs hlt ⟨vs', hlt', hturn', hvs⟩

/-- A block keeps the kind of its definition and what is inside it already. -/
theorem read_keeps (last opened : Span) (next : Nat) (d : Definition) (ts : List Lexeme) :
    (read last opened next d ts).definition.kind = d.kind ∧
      d.nested ⊆ (read last opened next d ts).definition.nested := by
  fun_induction read last opened next d ts with
  | case1 opened next d => exact ⟨rfl, List.Subset.refl _⟩
  | case2 opened next d t ts ht => exact ⟨rfl, List.Subset.refl _⟩
  | case3 opened next d t ts ht s rest hlt hturn ih =>
    rw [Definition.kind_add, Definition.nested_add] at ih
    exact ih
  | case4 opened next d t ts ht complaint rest hlt hturn ih => exact ih
  | case5 opened next d t ts ht s o brace rest hlt hturn child ihchild ih =>
    rw [Definition.nested_addInlined] at ih
    refine ⟨ih.1.trans (Definition.kind_add d _), ?_⟩
    exact List.Subset.trans (List.subset_append_left _ _) ih.2

theorem kind_ne_flow {last opened : Span} {next : Nat} {d : Definition} {ts : List Lexeme}
    (h : (read last opened next d ts).definition.Flowless) : d.kind ≠ .flow := by
  rw [← (read_keeps last opened next d ts).1]
  exact h _ (Definition.self_mem_all _)

/-- The block of a definition without flows is read alike, if there is nothing to complain
about. -/
theorem read_alike (last opened : Span) (next : Nat) (d : Definition) (ts : List Lexeme)
    (hclean : (read last opened next d ts).diagnostics = [])
    (hflow : (read last opened next d ts).definition.Flowless) {us : List Lexeme}
    (hus : us.map (·.inline) = ts.map (·.inline)) :
    (read last opened next d ts).Alike (read last opened next d us) := by
  have hkind := kind_ne_flow hflow
  fun_induction read last opened next d ts generalizing us with
  | case1 opened next d => cases hclean
  | case2 opened next d t ts ht =>
    obtain ⟨u, us, rfl, htoken, hspan, hrest⟩ := exists_of_inline hus
    rw [read, htoken, if_pos ht, hspan]
    exact ⟨rfl, rfl, rfl, hrest⟩
  | case3 opened next d t ts ht s rest hlt hturn ih =>
    obtain ⟨u, us, rfl, htoken, -⟩ := exists_of_inline hus
    have hstep := turn_alike hkind last.stop hus
    rw [hturn] at hstep
    cases hstep with
    | plain s rest hlt alike =>
      obtain ⟨rest', hlt', hturn', hrest⟩ := alike
      rw [read, htoken, if_neg ht]
      simp only [hturn']
      have hflow' : (read last opened next (d.add s) rest).definition.Flowless := hflow
      exact (ih hclean hflow' hrest (kind_ne_flow hflow')).after [] _ _
  | case4 opened next d t ts ht complaint rest hlt hturn ih => cases hclean
  | case5 opened next d t ts ht s o brace rest hlt hturn child ihchild ih =>
    obtain ⟨u, us, rfl, htoken, -⟩ := exists_of_inline hus
    obtain ⟨hchild, hothers⟩ := List.append_eq_nil_iff.mp hclean
    have hstep := turn_alike hkind last.stop hus
    rw [hturn] at hstep
    cases hstep with
    | opens s o brace rest hlt alike =>
      obtain ⟨rest', hlt', hturn', hrest⟩ := alike
      -- The block inside stays inside, so there is no flow in it either.
      have hinside : child.definition.Flowless := hflow.nested <|
        (read_keeps last opened child.next (d.addInlined s child.definition) child.rest).2 <| by
          rw [Definition.nested_addInlined]
          exact List.mem_append_right _ (List.mem_singleton.mpr rfl)
      have halike := ihchild hchild hinside hrest (kind_ne_flow hinside)
      have hflow' : (read last opened child.next (d.addInlined s child.definition)
        child.rest).definition.Flowless := hflow
      rw [read, htoken, if_neg ht]
      simp only [hturn']
      exact halike.inlined (fun hvs => ih hothers hflow' hvs (kind_ne_flow hflow'))
        (Nat.le_trans child.rest_le (Nat.le_of_lt hlt))
        (Nat.le_trans (Block.rest_le _) (Nat.le_of_lt hlt'))

end Block

/-! ### Documents -/

theorem lineless_header : header.Lineless :=
  (lineless_token _ _).bind fun _ => ((lineless_token _ _).labelled _).bind fun _ =>
    lineless_pure _

namespace Entry

/-- An entry without complaints and flows is the same, with line starts of what is left aside. -/
inductive Alike {ts us : List Lexeme} (other : Entry us) : Entry ts → Prop
  | importing (i : Import) (rest : List Lexeme) (h : rest.length < ts.length)
      (alike : ∃ rest' h', other = .importing i rest' h' ∧
        rest'.map (·.inline) = rest.map (·.inline)) : Alike other (.importing i rest h)
  | defining (d : Definition) (next : Nat) (ds : List Diagnostic) (rest : List Lexeme)
      (h : rest.length < ts.length)
      (alike : ds = [] → d.Flowless → ∃ rest' h', other = .defining d next ds rest' h' ∧
        rest'.map (·.inline) = rest.map (·.inline)) : Alike other (.defining d next ds rest h)
  | dropped (d : Diagnostic) (rest : List Lexeme) (h : rest.length < ts.length) :
      Alike other (.dropped d rest h)

theorem defining_of_alike {us us' ts' : List Lexeme} {b : Block us} {b' : Block us'}
    (h : b.Alike b') (hlt' : b'.rest.length < ts'.length) :
    ∃ rest' h', (defining b'.definition b'.next b'.diagnostics b'.rest hlt' : Entry ts') =
      .defining b.definition b.next b.diagnostics rest' h' ∧
        rest'.map (·.inline) = b.rest.map (·.inline) := by
  obtain ⟨d', next', diagnostics', rest', h'⟩ := b'
  obtain ⟨rfl, rfl, rfl, hrest⟩ := h
  exact ⟨rest', hlt', rfl, hrest⟩

theorem define_alike (last : Span) (next : Nat) (d : Definition) {ts us rest rest' : List Lexeme}
    (hrest : rest'.map (·.inline) = rest.map (·.inline)) (h : rest.length < ts.length)
    (h' : rest'.length < us.length) :
    Alike (define last next d rest' h' : Entry us) (define last next d rest h) := by
  cases rest with
  | nil =>
    obtain rfl := List.map_eq_nil_iff.mp hrest
    exact .defining _ _ _ _ _ fun _ _ => ⟨[], h', rfl, rfl⟩
  | cons u rest =>
    obtain ⟨u', rest', rfl, htoken, hspan, hrest'⟩ := exists_of_inline hrest
    simp only [define, htoken, hspan]
    split
    · refine .defining _ _ _ _ _ fun hclean hflow => ?_
      exact defining_of_alike (Block.read_alike last u.span (next + 1) d rest hclean hflow hrest') _
    · exact .defining _ _ _ _ _ fun _ _ => ⟨_, _, rfl, hrest⟩

theorem read_alike (last : Span) (next : Nat) {t u : Lexeme} {ts us : List Lexeme}
    (hus : (u :: us).map (·.inline) = (t :: ts).map (·.inline)) :
    Alike (read last next u us) (read last next t ts) := by
  have htoken : u.token = t.token := (Lexeme.eq_of_inline (List.cons.inj hus).1).1
  simp only [read, htoken]
  split
  · cases h : Phrase.importStatement.run (t :: ts) with
    | error e =>
      simp only [take_error _ h]
      exact .dropped _ _ _
    | ok r =>
      obtain ⟨i, rest⟩ := r
      obtain ⟨rest', h', hrest⟩ := Phrase.lineless_importStatement.ok hus h
      simp only [take_ok _ h, take_ok _ h']
      exact .importing i rest _ ⟨rest', _, rfl, hrest⟩
  split
  · cases h : header.run (t :: ts) with
    | error e =>
      simp only [take_error _ h]
      exact .dropped _ _ _
    | ok r =>
      obtain ⟨⟨kind, name⟩, rest⟩ := r
      obtain ⟨rest', h', hrest⟩ := lineless_header.ok hus h
      simp only [take_ok _ h, take_ok _ h']
      exact define_alike last next _ hrest _ _
  · exact .dropped _ _ _

end Entry

/-- A document without complaints and flows is read alike from lexemes that differ in line
starts. -/
theorem readProgram_alike (last : Span) (next : Nat) (ts : List Lexeme)
    (hclean : (readProgram last next ts).diagnostics = [])
    (hflow : ∀ d ∈ (readProgram last next ts).program.definitions, d.Flowless)
    {us : List Lexeme} (hus : us.map (·.inline) = ts.map (·.inline)) :
    readProgram last next us = readProgram last next ts := by
  fun_induction readProgram last next ts generalizing us with
  | case1 next =>
    obtain rfl := List.map_eq_nil_iff.mp hus
    rw [readProgram]
  | case2 next t ts i rest hlt hread ih =>
    obtain ⟨u, us, rfl, -⟩ := exists_of_inline hus
    have hentry := Entry.read_alike last next hus
    rw [hread] at hentry
    cases hentry with
    | importing i rest hlt alike =>
      obtain ⟨rest', hlt', hread', hrest⟩ := alike
      rw [readProgram]
      simp only [hread', ih hclean hflow hrest]
  | case3 next t ts d next' ds rest hlt hread ih =>
    obtain ⟨u, us, rfl, -⟩ := exists_of_inline hus
    obtain ⟨hds, hothers⟩ := List.append_eq_nil_iff.mp hclean
    obtain ⟨hd, hrestflow⟩ := List.forall_mem_cons.mp hflow
    have hentry := Entry.read_alike last next hus
    rw [hread] at hentry
    cases hentry with
    | defining d next' ds rest hlt alike =>
      obtain ⟨rest', hlt', hread', hrest⟩ := alike hds hd
      rw [readProgram]
      simp only [hread', ih hothers hrestflow hrest]
  | case4 next t ts d rest hlt hread ih => cases hclean

theorem ofLexemes_alike {ts us : List Lexeme} (hclean : (Parsed.ofLexemes ts).diagnostics = [])
    (hflow : ∀ d ∈ (Parsed.ofLexemes ts).program.definitions, d.Flowless)
    (hus : us.map (·.inline) = ts.map (·.inline)) :
    Parsed.ofLexemes us = Parsed.ofLexemes ts := by
  have hlast : us.getLast?.map (·.span) = ts.getLast?.map (·.span) := by
    have hspan := congrArg (fun vs => vs.getLast?.map Lexeme.span) hus
    simp only [List.getLast?_map, Option.map_map] at hspan
    exact hspan
  rw [Parsed.ofLexemes, hlast]
  exact readProgram_alike _ 0 ts hclean hflow hus

/-! ### Texts -/

/-- What is left of lexemes without spans and line starts are their tokens. -/
theorem map_inline_relabel (ts : List Lexeme) :
    (ts.map (·.relabel .forgetSpans)).map (·.inline) =
      (ts.map (·.token)).map fun tok => ⟨tok, ⟨0, 0⟩, false⟩ := by
  rw [List.map_map, List.map_map]
  rfl

namespace Definition

theorem all_relabel (f : Relabelling) (d : Definition) :
    (d.relabel f).all = d.all.map (·.relabel f) := by
  induction d using induction with
  | h d ih =>
    have hnested : (d.relabel f).nested = d.nested.map (·.relabel f) := by
      rw [relabel_mk]
      exact relabelAll_eq_map _
    rw [all_eq, all_eq, hnested, List.map_cons, allOf_eq_flatMap, allOf_eq_flatMap,
      List.flatMap_map, List.map_flatMap]
    exact congrArg _ (List.flatMap_congr ih)

theorem Flowless.relabel {d : Definition} (h : d.Flowless) (f : Relabelling) :
    (d.relabel f).Flowless := by
  intro e he
  rw [all_relabel] at he
  obtain ⟨c, hc, rfl⟩ := List.mem_map.mp he
  rw [kind_relabel]
  exact h c hc

end Definition

/-- The tokens of a text that carry meaning, without their places. -/
def meaningful (source : String) : List Token :=
  ((tokenize source).1.filter fun t => !t.value.isTrivia).map (·.value)

theorem map_token_lexemes (source : String) :
    (Piece.lexemes 0 true (Piece.ofText source.toList)).map (·.token) = meaningful source := by
  rw [meaningful]
  simp only [tokenize]
  rw [Piece.filter_tokens 0 true, List.map_map]
  rfl

theorem clean_of_nil {source : String} (hlexical : (tokenize source).2 = [])
    (hgrammar : (Parsed.ofLexemes
      (Piece.lexemes 0 true (Piece.ofText source.toList))).diagnostics = []) :
    (parse source).diagnostics = [] := by
  have hlexical : Piece.diagnostics 0 (Piece.ofText source.toList) = [] := hlexical
  simp only [parse, hlexical, hgrammar, List.append_nil, List.mergeSort_nil]

/-- A text with the same tokens as a document without complaints and flows, and without lexical
offences of its own, has no complaints either and the same program, whatever white space, line
breaks and comments stand between the tokens. -/
theorem parse_respaced {s s' : String} (hlexical : (tokenize s').2 = [])
    (htokens : meaningful s' = meaningful s) (hclean : (parse s).diagnostics = [])
    (hflow : ∀ d ∈ (parse s).program.all, d.kind ≠ .flow) :
    (parse s').diagnostics = [] ∧
      (parse s').program.relabel .forgetSpans = (parse s).program.relabel .forgetSpans := by
  let ts := Piece.lexemes 0 true (Piece.ofText s.toList)
  let us := Piece.lexemes 0 true (Piece.ofText s'.toList)
  have hrelabel (vs : List Lexeme) :
      Parsed.ofLexemes (vs.map (·.relabel .forgetSpans)) = (Parsed.ofLexemes vs).relabel _ :=
    Parsed.ofLexemes_relabel Relabelling.coherent_forgetSpans rfl vs
  have hsame : (us.map (·.relabel .forgetSpans)).map (·.inline) =
      (ts.map (·.relabel .forgetSpans)).map (·.inline) := by
    rw [map_inline_relabel, map_inline_relabel, map_token_lexemes, map_token_lexemes, htokens]
  obtain ⟨-, hnone⟩ := causes_of_clean hclean
  have hrelabelled : (Parsed.ofLexemes (ts.map (·.relabel .forgetSpans))).diagnostics = [] := by
    rw [hrelabel]
    exact List.map_eq_nil_iff.mpr hnone
  have hflowless : ∀ d ∈ (Parsed.ofLexemes (ts.map (·.relabel .forgetSpans))).program.definitions,
      d.Flowless := by
    rw [hrelabel]
    intro d hd
    have hd : d ∈ Definition.relabelAll _ (Parsed.ofLexemes ts).program.definitions := hd
    rw [Definition.relabelAll_eq_map] at hd
    obtain ⟨c, hc, rfl⟩ := List.mem_map.mp hd
    refine Definition.Flowless.relabel (fun e he => hflow e ?_) _
    exact Definition.mem_allOf.mpr ⟨c, hc, he⟩
  have hread := ofLexemes_alike hrelabelled hflowless hsame
  rw [hrelabel, hrelabel] at hread
  refine ⟨?_, congrArg Parsed.program hread⟩
  have hdiagnostics : (Parsed.ofLexemes us).diagnostics = [] := by
    have h := congrArg Parsed.diagnostics hread
    rw [Parsed.relabel, Parsed.relabel, hnone] at h
    exact List.map_eq_nil_iff.mp h
  exact clean_of_nil hlexical hdiagnostics

/-- A service on lines of its own. -/
def spaced : String :=
  "service Orders \x7b\n  deprecated\n  sends event Placed \x7b summary \"new\" \x7d\n\x7d\n"

/-- The same service on one line, with a break where there was none. -/
def respaced : String :=
  "service/* here */Orders\x7bdeprecated sends event\nPlaced\x7bsummary\"new\"\x7d\x7d"

theorem parse_respaced_service :
    (tokenize respaced).2 = [] ∧ meaningful respaced = meaningful spaced ∧
      (parse spaced).diagnostics = [] ∧ (∀ d ∈ (parse spaced).program.all, d.kind ≠ .flow) ∧
      (parse respaced).diagnostics = [] ∧
      (parse respaced).program.relabel .forgetSpans =
        (parse spaced).program.relabel .forgetSpans :=
  have hlexical : (tokenize respaced).2 = [] := by decide +kernel
  have htokens : meaningful respaced = meaningful spaced := by decide +kernel
  have hclean : (parse spaced).diagnostics = [] := by decide +kernel
  have hflow : ∀ d ∈ (parse spaced).program.all, d.kind ≠ .flow := by decide +kernel
  ⟨hlexical, htokens, hclean, hflow, parse_respaced hlexical htokens hclean hflow⟩

end EventCatalog.Syntax
