import EventCatalog.Proofs.Syntax.Framed.Statement
import EventCatalog.Syntax.Block

/-! # Documents keep to the order of the text

Blocks are followed through turn by turn, with the definition that has been read so far as the
invariant (`Definition.Reading`).  A block ends with its closing brace, or with the last lexeme of
the text if it is not closed, and in both cases behind everything that was read before.  So what a
definition holds stands inside it, and what follows it stands behind it (`framed_parse`). -/

namespace EventCatalog

open Text EventCatalog.Span

namespace Span

/-- A span lies inside another. -/
def Contains (s u : Span) : Prop := s.start ≤ u.start ∧ u.stop ≤ s.stop

/-- No byte belongs to both spans. -/
def Apart (s u : Span) : Prop := s.stop ≤ u.start ∨ u.stop ≤ s.start

variable {s u v : Span}

theorem Contains.trans (h : s.Contains u) (h' : u.Contains v) : s.Contains v :=
  ⟨Nat.le_trans h.1 h'.1, Nat.le_trans h'.2 h.2⟩

theorem Apart.symm (h : s.Apart u) : u.Apart s := Or.symm h

theorem Apart.mono {s' u' : Span} (h : s.Apart u) (hs : s.Contains s') (hu : u.Contains u') :
    s'.Apart u' := by
  rcases h with h | h
  · exact .inl (Nat.le_trans hs.2 (Nat.le_trans h hu.1))
  · exact .inr (Nat.le_trans hu.2 (Nat.le_trans h hs.1))

end Span

namespace Syntax

open Lexeme Reader

variable {t : Text} {last : Span} {lo hi : Nat} {ts rest : List Lexeme}

theorem Reader.Gathers.take_ok {α : Type} {Q : Text → Nat → Nat → α → Prop} {p : Reader α}
    (hp : p.Gathers [] Q) (hstrict : p.Strict) (hrow : Row t last lo ts) {x : Taken α ts}
    (hx : p.take hstrict ts = .ok x) :
    ∃ hi, lo ≤ hi ∧ Q t lo hi x.value ∧ Row t last hi x.rest :=
  hp.value (Nat.le_refl _) allBetween_nil hrow (run_of_take hx)

/-! ### Blocks -/

/-- A definition has been read up to an offset, and those inside it are complete. -/
structure Definition.Reading (t : Text) (last : Span) (lo : Nat) (d : Definition) : Prop where
  upTo : d.FramedUpTo t lo
  start_le : d.span.start ≤ last.start
  nested : ∀ c ∈ allOf d.nested, c.Framed t

namespace Definition

variable {d c : Definition} {s : Statement}

theorem Reading.add (h : d.Reading t last lo) (hle : lo ≤ hi) (hs : s.Framed d.kind t lo hi) :
    (d.add s).Reading t last hi := by
  refine ⟨h.upTo.add hle hs.spans hs.fresh, ?_, ?_⟩
  · rw [span_add]
    exact h.start_le
  · rw [nested_add]
    exact h.nested

theorem Reading.addInlined (h : d.Reading t last lo) (hle : lo ≤ hi)
    (hs : s.Framed d.kind t lo hi) (hhost : s.IsHostedBy d.kind) (hstart : lo ≤ c.span.start)
    (hstop : c.span.stop ≤ hi) (hc : ∀ e ∈ c.all, e.Framed t) :
    (d.addInlined s c).Reading t last hi := by
  refine ⟨h.upTo.addInlined hle hs.spans hhost hstart hstop, ?_, ?_⟩
  · have hspan : (d.addInlined s c).span = d.span := span_add d _
    rw [hspan]
    exact h.start_le
  · rw [nested_addInlined, allOf_eq_flatMap, List.flatMap_append, ← allOf_eq_flatMap,
      List.flatMap_singleton]
    exact List.forall_mem_append.mpr ⟨h.nested, hc⟩

/-- A definition whose block has ended, and all those inside it, hold what stands inside them. -/
theorem Reading.closeAt (h : d.Reading t last lo) {stop : Span} (hslices : stop.Slices t)
    (hstart : d.span.start ≤ stop.start) (hle : lo ≤ stop.stop) :
    (d.closeAt stop).span = ⟨d.span.start, stop.stop⟩ ∧ ∀ c ∈ (d.closeAt stop).all, c.Framed t := by
  obtain ⟨hspan, hframed⟩ := h.upTo.closeAt hslices hstart hle
  refine ⟨hspan, ?_⟩
  rw [all_eq]
  exact List.forall_mem_cons.mpr ⟨hframed, h.nested⟩

end Definition

namespace Block

/-- What a statement leads to stands behind an offset. -/
def Turn.Framed {ts : List Lexeme} (k : Kind) (t : Text) (last : Span) (lo : Nat) :
    Turn ts → Prop
  | plain s rest _ => ∃ hi, lo ≤ hi ∧ s.Framed k t lo hi ∧ Row t last hi rest
  | opens s o brace rest _ => ∃ hi, lo ≤ hi ∧ s.Framed k t lo hi ∧ s.opening? = some o ∧
      hi < brace.stop ∧ hi ≤ last.start ∧ Row t last brace.stop rest
  | dropped _ rest _ => Row t last lo rest

theorem framed_turn (finish : Nat) (k : Kind) {x : Lexeme} (hrow : Row t last lo (x :: ts)) :
    (turn finish k x ts).Framed k t last lo := by
  have hskipped : Row t last lo (Recovery.skipStatement x ts) :=
    hrow.tail.of_suffix (Recovery.suffix_skipRest _ _)
  have hgathers := Statement.gathers_statement k
  unfold turn
  simp only
  split
  · exact hskipped
  · exact hskipped
  · rename_i s h _ hs
    exact hgathers.take_ok _ hrow hs
  · rename_i s u us h _ hs
    obtain ⟨hi, hle, hframed, hrest⟩ := hgathers.take_ok _ hrow hs
    split
    · rename_i o hopening _
      have hbrace := hrest.1.le_start
      refine ⟨hi, hle, hframed, hopening, ?_, ?_, hrest.2.2⟩
      · exact Nat.lt_of_le_of_lt hbrace hrest.1.start_lt
      · exact Nat.le_trans hbrace hrest.2.1
    · exact ⟨hi, hle, hframed, hrest⟩

/-- A definition whose block has been read, and all those inside it, hold what stands inside them,
and what follows stands behind it. -/
structure Framed (t : Text) (last : Span) (start hi : Nat) {ts : List Lexeme} (b : Block ts) :
    Prop where
  start : b.definition.span.start = start
  stop_le : b.definition.span.stop ≤ hi
  all : ∀ c ∈ b.definition.all, c.Framed t
  rest : Row t last hi b.rest

theorem framed_closeAt {d : Definition} (h : d.Reading t last lo) {stop : Span}
    (hslices : stop.Slices t) (hstart : d.span.start ≤ stop.start) (hle : lo ≤ stop.stop)
    {next : Nat} {ds : List Diagnostic} (hrest : Row t last stop.stop rest)
    (hlength : rest.length ≤ ts.length) :
    (⟨d.closeAt stop, next, ds, rest, hlength⟩ : Block ts).Framed t last d.span.start
      stop.stop := by
  obtain ⟨hspan, hall⟩ := h.closeAt hslices hstart hle
  refine ⟨?_, ?_, hall, hrest⟩
  · rw [hspan]
  · rw [hspan]

/-- Each turn keeps the order of the text, so the block does. -/
theorem exists_framed_read (hlast : last.Slices t) (opened : Span) (next : Nat) {d : Definition}
    (hd : d.Reading t last lo) (hrow : Row t last lo ts) :
    ∃ hi, lo ≤ hi ∧ (read last opened next d ts).Framed t last d.span.start hi := by
  fun_induction read last opened next d ts generalizing lo with
  | case1 opened next d =>
    -- The block is not closed: it ends with the last lexeme.
    have hrest : Row t last last.stop [] := Nat.le_refl last.stop
    exact ⟨last.stop, hrow, framed_closeAt hd hlast hd.start_le hrow hrest _⟩
  | case2 opened next d x ts hx =>
    have hstart : d.span.start ≤ x.span.start :=
      Nat.le_trans (Nat.le_of_lt hd.upTo.span.lt) hrow.1.le_start
    have hle : lo ≤ x.span.stop :=
      Nat.le_trans hrow.1.le_start (Nat.le_of_lt hrow.1.start_lt)
    exact ⟨x.span.stop, hle, framed_closeAt hd hrow.1.slices hstart hle hrow.2.2 _⟩
  | case3 opened next d x ts hx s rest hlt hturn ih =>
    have hframed := framed_turn last.stop d.kind hrow
    rw [hturn] at hframed
    obtain ⟨mid, hmid, hs, hrest⟩ := hframed
    obtain ⟨hi, hhi, hblock⟩ := ih (hd.add hmid hs) hrest
    rw [Definition.span_add] at hblock
    exact ⟨hi, Nat.le_trans hmid hhi, hblock.start, hblock.stop_le, hblock.all, hblock.rest⟩
  | case4 opened next d x ts hx complaint rest hlt hturn ih =>
    have hframed := framed_turn last.stop d.kind hrow
    rw [hturn] at hframed
    obtain ⟨hi, hhi, hblock⟩ := ih hd hframed
    exact ⟨hi, hhi, hblock.start, hblock.stop_le, hblock.all, hblock.rest⟩
  | case5 opened next d x ts hx s o brace rest hlt hturn child ihchild =>
    rename_i ih
    have hframed := framed_turn last.stop d.kind hrow
    rw [hturn] at hframed
    obtain ⟨mid, hmid, hs, ho, hbrace, hbefore, hrest⟩ := hframed
    obtain ⟨hstart, hupTo⟩ := hs.start ho next
    have hreading : (o.start next).Reading t last brace.stop := by
      refine ⟨hupTo.mono (Nat.le_of_lt hbrace), ?_, List.forall_mem_nil _⟩
      exact Nat.le_trans (Nat.le_of_lt hupTo.span.lt) hbefore
    obtain ⟨stop, hstop, hchild⟩ := ihchild hreading hrest
    have hle : mid ≤ stop := Nat.le_trans (Nat.le_of_lt hbrace) hstop
    have hchildStart : lo ≤ child.definition.span.start := by
      rw [hchild.start]
      exact hstart
    obtain ⟨hi, hhi, hblock⟩ := ih (hd.addInlined (Nat.le_trans hmid hle) (hs.mono hle)
      (hs.opening o ho).1 hchildStart hchild.stop_le hchild.all) hchild.rest
    have hspan : (d.addInlined s child.definition).span = d.span := Definition.span_add d _
    rw [hspan] at hblock
    exact ⟨hi, Nat.le_trans (Nat.le_trans hmid hle) hhi, hblock.start, hblock.stop_le,
      hblock.all, hblock.rest⟩

end Block

/-! ### Documents -/

/-- The span of the kind begins a header. -/
theorem gathers_header : header.Gathers [] fun t lo hi x =>
    lo ≤ x.1.span.start ∧ AllBetween [x.1.span, x.2.span] t x.1.span.start hi := by
  refine (takesOne_token _ _).bind_first fun kind => ?_
  refine ((Phrase.takesOne_name.labelled _).adds _).bind fun name => gathers_pure ?_
  rintro t lo hi h rfl lo' hlo
  obtain ⟨hname, hkind⟩ := allBetween_cons.mp h
  exact ⟨hlo, allBetween_cons.mpr ⟨(allBetween_cons.mp hkind).1, allBetween_cons.mpr
    ⟨hname, allBetween_nil⟩⟩⟩

namespace Entry

/-- What comes next at the top of a document stands behind an offset, and the rest behind that. -/
def Framed {ts : List Lexeme} (t : Text) (last : Span) (lo : Nat) : Entry ts → Prop
  | importing i rest _ => ∃ hi, lo ≤ hi ∧ i.Framed t lo hi ∧ Row t last hi rest
  | defining d _ _ rest _ => ∃ hi, lo ≤ d.span.start ∧ d.span.stop ≤ hi ∧
      (∀ c ∈ d.all, c.Framed t) ∧ Row t last hi rest
  | dropped _ rest _ => Row t last lo rest

theorem framed_define (hlast : last.Slices t) (next id : Nat) {kind : Located Kind}
    {name : Located String} (hlo : lo ≤ kind.span.start)
    (h : AllBetween [kind.span, name.span] t kind.span.start hi) (hrow : Row t last hi rest)
    (hlt : rest.length < ts.length) :
    (define last next (Definition.start id kind.value kind.span name none) rest hlt).Framed
      t last lo := by
  have hfirst : (Definition.start id kind.value kind.span name none).span.start = kind.span.start ∧
      (Definition.start id kind.value kind.span name none).FramedUpTo t hi :=
    Definition.framedUpTo_start id kind.value h
  obtain ⟨hstart, hupTo⟩ := hfirst
  have hsingle : ∀ c ∈ (Definition.start id kind.value kind.span name none).all, c.Framed t := by
    rw [Definition.all_eq]
    exact List.forall_mem_cons.mpr
      ⟨Definition.framed_start id kind.value h, List.forall_mem_nil _⟩
  have hlo' : lo ≤ (Definition.start id kind.value kind.span name none).span.start := by
    rw [hstart]
    exact hlo
  unfold define
  split
  · exact ⟨hi, hlo', hupTo.span.stop_le, hsingle, hrow⟩
  · rename_i u us _
    split
    · have hle := hrow.1.le_start
      have hreading : (Definition.start id kind.value kind.span name none).Reading t last
          u.span.stop := by
        refine ⟨hupTo.mono (Nat.le_trans hle (Nat.le_of_lt hrow.1.start_lt)), ?_,
          List.forall_mem_nil _⟩
        exact Nat.le_trans (Nat.le_of_lt hupTo.span.lt) (Nat.le_trans hle hrow.2.1)
      obtain ⟨stop, -, hblock⟩ :=
        Block.exists_framed_read hlast u.span (next + 1) hreading hrow.2.2
      refine ⟨stop, ?_, hblock.stop_le, hblock.all, hblock.rest⟩
      rw [hblock.start]
      exact hlo'
    · exact ⟨hi, hlo', hupTo.span.stop_le, hsingle, hrow⟩

theorem framed_read (hlast : last.Slices t) (next : Nat) {x : Lexeme}
    (hrow : Row t last lo (x :: ts)) : (read last next x ts).Framed t last lo := by
  have hskipped : Row t last lo (Recovery.skipToDefinition x ts) :=
    hrow.tail.of_suffix (Recovery.suffix_skipBlocks _ _)
  unfold read
  simp only
  split
  · split
    · exact Phrase.gathers_importStatement.take_ok _ hrow ‹_›
    · exact hskipped
  · split
    · split
      · rename_i kind name rest h hheader
        obtain ⟨hi, -, ⟨hlo, hspans⟩, hrest⟩ := gathers_header.take_ok _ hrow hheader
        exact framed_define hlast next next hlo hspans hrest _
      · exact hskipped
    · exact hskipped

end Entry

/-- The imports and definitions of a document stand behind an offset, one behind the other. -/
structure Program.Framed (t : Text) (lo : Nat) (p : Program) : Prop where
  imports : ∀ i ∈ p.imports, lo ≤ i.span.start ∧ ∃ hi, i.Framed t lo hi
  definitions : ∀ d ∈ p.definitions, lo ≤ d.span.start ∧ ∀ c ∈ d.all, c.Framed t
  ordered : p.definitions.Pairwise fun a b => a.span.stop ≤ b.span.start
  apart : ∀ i ∈ p.imports, ∀ d ∈ p.definitions, i.span.Apart d.span
  lined : p.imports.Pairwise fun i j => i.span.stop ≤ j.span.start

theorem Program.Framed.mono {p : Program} (h : p.Framed t hi) (hle : lo ≤ hi) : p.Framed t lo := by
  refine ⟨?_, ?_, h.ordered, h.apart, h.lined⟩
  · intro i hi'
    obtain ⟨hstart, stop, hframed⟩ := h.imports i hi'
    exact ⟨Nat.le_trans hle hstart, stop, hframed.span.mono hle (Nat.le_refl _), hframed.names,
      hframed.source⟩
  · intro d hd
    exact ⟨Nat.le_trans hle (h.definitions d hd).1, (h.definitions d hd).2⟩

theorem framed_readProgram (hlast : last.Slices t) (next : Nat) (hrow : Row t last lo ts) :
    (readProgram last next ts).program.Framed t lo := by
  fun_induction readProgram last next ts generalizing lo with
  | case1 next =>
    exact ⟨List.forall_mem_nil _, List.forall_mem_nil _, List.Pairwise.nil, List.forall_mem_nil _,
      List.Pairwise.nil⟩
  | case2 next x ts i rest hlt hread ih =>
    have hentry := Entry.framed_read hlast next hrow
    rw [hread] at hentry
    obtain ⟨hi, hle, hframed, hrest⟩ := hentry
    have hp := ih hrest
    have hp' := hp.mono hle
    refine ⟨?_, hp'.definitions, hp'.ordered, ?_, ?_⟩
    · exact List.forall_mem_cons.mpr
        ⟨⟨hframed.span.le_start, hi, hframed⟩, hp'.imports⟩
    · refine List.forall_mem_cons.mpr ⟨?_, hp'.apart⟩
      intro d hd
      exact .inl (Nat.le_trans hframed.span.stop_le (hp.definitions d hd).1)
    · refine List.Pairwise.cons ?_ hp'.lined
      intro j hj
      exact Nat.le_trans hframed.span.stop_le (hp.imports j hj).1
  | case3 next x ts d next' ds rest hlt hread ih =>
    have hentry := Entry.framed_read hlast next hrow
    rw [hread] at hentry
    obtain ⟨hi, hstart, hstop, hall, hrest⟩ := hentry
    have hlt := (hall d (Definition.self_mem_all d)).span.start_lt
    have hp := ih hrest
    have hp' := hp.mono (Nat.le_trans hstart (Nat.le_trans (Nat.le_of_lt hlt) hstop))
    refine ⟨hp'.imports, ?_, ?_, ?_, hp'.lined⟩
    · exact List.forall_mem_cons.mpr ⟨⟨hstart, hall⟩, hp'.definitions⟩
    · refine List.Pairwise.cons ?_ hp'.ordered
      intro e he
      exact Nat.le_trans hstop (hp.definitions e he).1
    · intro i hi'
      refine List.forall_mem_cons.mpr ⟨?_, hp'.apart i hi'⟩
      exact .inr (Nat.le_trans hstop (hp.imports i hi').1)
  | case4 next x ts d rest hlt hread ih =>
    have hentry := Entry.framed_read hlast next hrow
    rw [hread] at hentry
    exact ih hentry

/-- Lexemes that stand one behind the other make up a row that ends with the last of them. -/
theorem row_of_pairwise {x : Lexeme} (hlast : ts.getLast? = some x)
    (hpairwise : ts.Pairwise fun a b => a.span.stop ≤ b.span.start)
    (hspans : ∀ y ∈ ts, y.span.start < y.span.stop ∧ y.span.Slices t)
    (hlo : ∀ y ∈ ts, lo ≤ y.span.start) : Row t x.span lo ts := by
  induction ts generalizing lo with
  | nil => cases hlast
  | cons y ts ih =>
    obtain ⟨hlt, hslices⟩ := hspans y List.mem_cons_self
    have hle := hlo y List.mem_cons_self
    obtain ⟨hbehind, hrest⟩ := List.pairwise_cons.mp hpairwise
    cases ts with
    | nil =>
      cases hlast
      exact ⟨⟨hle, hlt, Nat.le_refl _, hslices⟩, Nat.le_refl _, Nat.le_refl _⟩
    | cons z ts =>
      have hrow := ih hlast hrest (List.forall_mem_cons.mp hspans).2 hbehind
      have hstop := hrow.le_stop
      have hstart := hbehind z List.mem_cons_self
      have hbefore := hrow.2.1
      exact ⟨⟨hle, hlt, hstop, hslices⟩, by omega, hrow⟩

/-- Lexemes stand one behind the other. -/
theorem pairwise_lexemes (t : Text) :
    (Piece.lexemes 0 true (Piece.ofText t)).Pairwise fun a b => a.span.stop ≤ b.span.start := by
  have h := (Piece.pairwise_tokens 0 (Piece.ofText t)).sublist
    (List.filter_sublist (p := fun x => !x.value.isTrivia))
  rw [Piece.filter_tokens 0 true] at h
  exact List.pairwise_map.mp h

/-- The lexemes of a text are a row. -/
theorem exists_row_lexemes (t : Text) :
    let ts := Piece.lexemes 0 true (Piece.ofText t)
    let last := (ts.getLast?.map (·.span)).getD ⟨0, 0⟩
    last.Slices t ∧ Row t last 0 ts := by
  intro ts last
  have hspans : ∀ x ∈ ts, x.span.start < x.span.stop ∧ x.span.Slices t := by
    intro x hx
    have hmem := Piece.mem_tokens_of_mem_lexemes hx
    exact ⟨Piece.start_lt_of_mem_tokens hmem, Piece.slices_of_mem_tokens hmem⟩
  cases hlast : ts.getLast? with
  | none =>
    have hnil : ts = [] := List.getLast?_eq_none_iff.mp hlast
    have hsame : last = ⟨0, 0⟩ := by
      simp only [last, hlast]
      rfl
    rw [hsame, hnil]
    exact ⟨⟨Nat.le_refl _, boundary_zero t, boundary_zero t⟩, Nat.le_refl 0⟩
  | some x =>
    have hsame : last = x.span := by
      simp only [last, hlast]
      rfl
    rw [hsame]
    refine ⟨(hspans x (List.mem_of_getLast? hlast)).2, ?_⟩
    exact row_of_pairwise hlast (pairwise_lexemes t) hspans fun _ _ => Nat.zero_le _

/-- The imports and definitions of a text hold what stands inside them. -/
theorem framed_parse (text : String) : (parse text).program.Framed text.toList 0 := by
  obtain ⟨hlast, hrow⟩ := exists_row_lexemes text.toList
  exact framed_readProgram hlast 0 hrow

/-- No import statement of a text is another one of it. -/
theorem nodup_imports_parse (text : String) : (parse text).program.imports.Nodup := by
  have hp := framed_parse text
  refine hp.lined.imp_of_mem ?_
  rintro i j hi - hle rfl
  obtain ⟨-, stop, hframed⟩ := hp.imports i hi
  have hlt := hframed.span.start_lt
  omega

end Syntax

end EventCatalog
