import EventCatalog.Proofs.Completion.Blocks
import EventCatalog.Proofs.Completion.Positions
import EventCatalog.Proofs.Token.Cutting

/-! # The block around a cursor

Completion finds the block around a cursor from the braces before it and the words on their lines,
without parsing.  If the header of each definition stands on one line (`Header.isTidy`), it finds
the block that the parser reads there (`classify_eq_enclosing`): along the definitions that the
lexemes hold, the enclosures behind a header are those before it and the definition that it belongs
to (`Holds.opens`), and the cursor cuts the lexemes off without changing those before it
(`InGap.classify`). -/

namespace EventCatalog.Completion

open Syntax Text

/-! ### Headers -/

/-- The definitions with those inside them, and whether they stand inside another one. -/
def headed (inner : Bool) (ds : List Definition) : List (Definition × Bool) :=
  ds.flatMap fun d => (d, inner) :: (Definition.allOf d.nested).map fun c => (c, true)

/-- The header of a definition: what stands before it, the lexemes from the first one of the
definition or its statement on, and the brace behind them. -/
structure Header where
  before : List Lexeme
  words : List Lexeme
  brace : Lexeme

namespace Header

/-- The header of a definition among lexemes, unless the definition ends before a brace. -/
def of? (ts : List Lexeme) (d : Definition) (inner : Bool) : Option Header :=
  let first := ts.findIdx (·.span == d.keywordSpan) - leadOf inner d.kind
  ((ts.drop first).find? (·.isBrace)).bind fun brace =>
    if brace.span.stop ≤ d.span.stop then
      some ⟨ts.take first, (ts.drop first).takeWhile (!·.isBrace), brace⟩
    else none

/-- The header stands on one line, on which nothing or a brace comes before it. -/
def isTidy (h : Header) : Bool :=
  (h.words.head?.any (·.startsLine) || h.before.getLast?.any (·.isBrace)) &&
    (h.words.tail ++ [h.brace]).all (!·.startsLine)

end Header

theorem headed_cons (inner : Bool) (d : Definition) (ds : List Definition) :
    headed inner (d :: ds) = (d, inner) :: (headed true d.nested ++ headed inner ds) := by
  have hnested : (Definition.allOf d.nested).map (fun c => (c, true)) = headed true d.nested := by
    rw [Definition.allOf_eq_flatMap, List.map_flatMap, headed]
    refine List.flatMap_congr fun c _ => ?_
    rw [Definition.all_eq, List.map_cons]
  rw [headed, List.flatMap_cons, hnested]
  rfl

/-- Lexemes stand one behind the other, and none is empty. -/
structure Ordered (ts : List Lexeme) : Prop where
  pairwise : ts.Pairwise fun a b => a.span.stop ≤ b.span.start
  start_lt : ∀ t ∈ ts, t.span.start < t.span.stop

variable {before header rest ts us : List Lexeme} {t u : Lexeme} {d : Definition}
  {parent : Option Kind}

theorem ordered_lexemes (t : Text) : Ordered (Piece.lexemes 0 true (Piece.ofText t)) := by
  constructor
  · exact pairwise_lexemes t
  · exact fun x hx => Piece.start_lt_of_mem_tokens (Piece.mem_tokens_of_mem_lexemes hx)

theorem Ordered.ne_of_mem (h : Ordered (ts ++ u :: us)) (ht : t ∈ ts) : t.span ≠ u.span := by
  intro hspan
  have hlt := h.start_lt t (List.mem_append_left _ ht)
  have hle := (List.pairwise_append.mp h.pairwise).2.2 t ht u List.mem_cons_self
  rw [hspan] at hlt hle
  omega

theorem Ordered.findIdx_span (h : Ordered (ts ++ u :: us)) :
    (ts ++ u :: us).findIdx (·.span == u.span) = ts.length := by
  have hnone : ts.findIdx (·.span == u.span) = ts.length :=
    List.findIdx_eq_length.mpr fun t ht => beq_eq_false_iff_ne.mpr (h.ne_of_mem ht)
  rw [List.findIdx_append, hnone, if_neg (Nat.lt_irrefl _), List.findIdx_cons, beq_self_eq_true]
  exact Nat.zero_add _

/-- The header of a definition begins where its words do. -/
theorem Header.of?_eq (horder : Ordered (before ++ (header ++ rest)))
    (hheads : Heads parent d.kind d.keywordSpan header) :
    of? (before ++ (header ++ rest)) d parent.isSome =
      (rest.find? (·.isBrace)).bind fun brace =>
        if brace.span.stop ≤ d.span.stop then
          some ⟨before, header ++ rest.takeWhile (!·.isBrace), brace⟩
        else none := by
  obtain ⟨u, hu, hspan⟩ := Option.map_eq_some_iff.mp hheads.keyword
  obtain ⟨hlt, hget⟩ := List.getElem?_eq_some_iff.mp hu
  have hsplit : before ++ (header ++ rest) =
      (before ++ header.take (leadOf parent.isSome d.kind)) ++
        u :: (header.drop (leadOf parent.isSome d.kind + 1) ++ rest) := by
    rw [List.append_assoc, ← List.cons_append, ← hget, ← List.drop_eq_getElem_cons hlt,
      ← List.append_assoc (header.take _), List.take_append_drop]
  have hfirst : (before ++ (header ++ rest)).findIdx (·.span == d.keywordSpan) -
      leadOf parent.isSome d.kind = before.length := by
    rw [hsplit] at horder ⊢
    rw [← hspan, horder.findIdx_span, List.length_append, List.length_take]
    omega
  have hflat : header.find? (·.isBrace) = none :=
    List.find?_eq_none.mpr fun t ht => by simp [hheads.flat t ht]
  unfold of?
  simp only [hfirst, List.drop_left, List.take_left, List.find?_append, hflat, Option.none_or]
  rw [List.takeWhile_append_of_pos fun t ht => by simp [hheads.flat t ht]]

/-- A definition whose brace is not its own has no header. -/
theorem Header.of?_bare {key name : Lexeme} (horder : Ordered (before ++ ([key, name] ++ rest)))
    (hheads : Heads none d.kind d.keywordSpan [key, name])
    (hspan : d.span = key.span.union name.span) :
    of? (before ++ ([key, name] ++ rest)) d false = none := by
  rw [show false = (none : Option Kind).isSome from rfl, of?_eq horder hheads]
  cases hbrace : rest.find? (·.isBrace) with
  | none => rfl
  | some brace =>
    refine if_neg fun hstop => ?_
    have hmem : brace ∈ rest := List.mem_of_find?_eq_some hbrace
    obtain ⟨-, hpairwise, -⟩ := List.pairwise_append.mp horder.pairwise
    obtain ⟨hhead, -, hbehind⟩ := List.pairwise_append.mp hpairwise
    have hkey := hbehind key (by simp) brace hmem
    have hname := hbehind name (by simp) brace hmem
    have hpos : ∀ t ∈ [key, name] ++ rest, t.span.start < t.span.stop := fun t ht =>
      horder.start_lt t (List.mem_append_right _ ht)
    have hlt := hpos brace (List.mem_append_right _ hmem)
    have hstart := hpos key (by simp)
    rw [hspan, Span.union_eq (Nat.le_of_lt hstart)] at hstop
    have hmax := Nat.max_le.mpr ⟨hkey, hname⟩
    simp only at hstop
    omega

/-! ### What is open behind a header -/

/-- The header stands among the lexemes, and behind it the innermost enclosure is a definition of
the kind. -/
structure Header.Opens (h : Header) (ts : List Lexeme) (k : Kind) : Prop where
  stands : ∃ rest, ts = h.before ++ (h.words ++ h.brace :: rest)
  innermost : (Position.behind (h.before ++ (h.words ++ [h.brace]))).enclosures.head? =
    some (.definition k)

theorem enclosures_behind_header {k : Kind} {s : Span} {brace : Lexeme}
    (hheads : Heads parent k s header) (hbrace : brace.token = .leftBrace)
    (htidy : (⟨before, header, brace⟩ : Header).isTidy = true)
    (hbefore : (Position.behind before).enclosures.head? = parent.map .definition) :
    (Position.behind (before ++ (header ++ [brace]))).enclosures =
      .definition k :: (Position.behind before).enclosures := by
  obtain ⟨hfirst, hline⟩ := Bool.and_eq_true_iff.mp htidy
  have hne : header ≠ [] := by
    rintro rfl
    exact absurd hheads.keyword (by simp)
  have hstart : (Position.behind before).line = [] ∨ ∀ t ∈ header.head?, t.startsLine = true := by
    rcases Bool.or_eq_true_iff.mp hfirst with hfirst | hlast
    · exact .inr fun t ht => by simpa [Option.mem_def.mp ht] using hfirst
    · obtain ⟨b, hb, hisBrace⟩ : ∃ b, before.getLast? = some b ∧ b.isBrace = true := by
        cases hb : before.getLast? with
        | none => simp [hb] at hlast
        | some b => exact ⟨b, rfl, by simpa [hb] using hlast⟩
      obtain ⟨front, rfl⟩ := List.getLast?_eq_some_iff.mp hb
      refine .inl ?_
      rw [Position.behind_concat]
      exact Position.line_pass_of_isBrace _ hisBrace
  have hrest : ∀ t ∈ header.tail ++ [brace], t.startsLine = false := by
    intro t ht
    simpa using List.all_eq_true.mp hline t ht
  rw [Position.behind_append, Position.enclosures_foldl_header hheads.flat hne hbrace hstart hrest,
    hbefore, hheads.opened]

/-- A definition with a block has the header before its brace. -/
theorem Header.of?_block {body : List Lexeme} {opening closing : Lexeme}
    (horder : Ordered (before ++ (header ++ opening :: (body ++ closing :: rest))))
    (hheads : Heads parent d.kind d.keywordSpan header) (hopen : opening.token = .leftBrace)
    (hstop : closing.span.stop ≤ d.span.stop) :
    of? (before ++ (header ++ opening :: (body ++ closing :: rest))) d parent.isSome =
      some ⟨before, header, opening⟩ := by
  have hbrace : opening.isBrace = true := by
    rw [Lexeme.isBrace, hopen]
    rfl
  have hle : opening.span.stop ≤ d.span.stop := by
    obtain ⟨-, hpairwise, -⟩ := List.pairwise_append.mp horder.pairwise
    obtain ⟨-, hpairwise, -⟩ := List.pairwise_append.mp hpairwise
    have hbefore := (List.pairwise_cons.mp hpairwise).1 closing (by simp)
    have hlt := horder.start_lt closing (by simp)
    omega
  rw [of?_eq horder hheads, List.find?_cons_of_pos hbrace, Option.bind_some, if_pos hle,
    List.takeWhile_cons_of_neg (by simp [hbrace]), List.append_nil]

/-- If the headers are tidy, the enclosures behind them are the definitions that they belong to, and
only definitions at the top may have no header. -/
theorem Holds.opens {ds : List Definition} {whole : List Lexeme} (h : Holds parent ts ds)
    (before after : List Lexeme) (hwhole : whole = before ++ (ts ++ after)) (horder : Ordered whole)
    (hbefore : (Position.behind before).enclosures.head? = parent.map .definition)
    (htidy : ∀ x ∈ headed parent.isSome ds, ∀ y, Header.of? whole x.1 x.2 = some y →
      y.isTidy = true) :
    ∀ x ∈ headed parent.isSome ds,
      (∃ y, Header.of? whole x.1 x.2 = some y ∧ y.Opens whole x.1.kind) ∨
        x.2 = false ∧ Header.of? whole x.1 x.2 = none := by
  induction h generalizing before after with
  | nil => exact List.forall_mem_nil _
  | @balanced parent ts us ds hts hrest ih =>
    refine ih (before ++ ts) after (by rw [hwhole]; simp) ?_ htidy
    rw [Position.behind_append, Position.enclosures_foldl hts, List.drop_zero, hbefore]
  | @bare key name us d ds hheads hspan hnested hrest ih =>
    rw [Option.isSome_none, headed_cons, hnested] at htidy ⊢
    have hnone : Header.of? whole d false = none := by
      rw [hwhole] at horder ⊢
      exact Header.of?_bare horder hheads hspan
    refine List.forall_mem_cons.mpr ⟨.inr ⟨rfl, hnone⟩, ?_⟩
    refine ih (before ++ [key, name]) after (by rw [hwhole]; simp) ?_
      (List.forall_mem_cons.mp htidy).2
    rw [Position.behind_append, Position.enclosures_foldl hheads.flat.shuts, List.drop_zero, hbefore]
  | @block parent header body us opening closing d ds hheads hopen hclose hstop hbody hrest ihbody
      ih =>
    rw [headed_cons] at htidy ⊢
    obtain ⟨htidyHere, htidy⟩ := List.forall_mem_cons.mp htidy
    obtain ⟨htidyBody, htidyRest⟩ := List.forall_mem_append.mp htidy
    have hsplit : whole = before ++ (header ++ opening :: (body ++ closing :: (us ++ after))) := by
      rw [hwhole]
      simp
    have hhere : Header.of? whole d parent.isSome = some ⟨before, header, opening⟩ := by
      rw [hsplit] at horder ⊢
      exact Header.of?_block horder hheads hopen hstop
    have hinside := enclosures_behind_header hheads hopen (htidyHere _ hhere) hbefore
    refine List.forall_mem_cons.mpr ⟨?_, List.forall_mem_append.mpr ⟨?_, ?_⟩⟩
    · exact .inl ⟨_, hhere, ⟨_, hsplit⟩, by rw [hinside]; rfl⟩
    · refine ihbody (before ++ (header ++ [opening])) (closing :: (us ++ after))
        (by rw [hsplit]; simp) ?_ htidyBody
      rw [hinside]
      rfl
    · -- The closing brace takes away what the opening brace put there.
      have hshuts : Shuts 1 (body ++ [closing]) := by
        have h := hbody.shuts.append (.closing hclose .nil)
        rw [Nat.zero_add] at h
        exact h
      refine ih (before ++ (header ++ [opening]) ++ (body ++ [closing])) after
        (by rw [hsplit]; simp) ?_ htidyRest
      rw [Position.behind_append, Position.enclosures_foldl hshuts, hinside, List.drop_succ_cons,
        List.drop_zero, hbefore]

/-! ### The text before the cursor -/

/-- A cursor behind a beginning of a text stands between the tokens of the text, behind a blank or a
brace, and nothing is written on its line since the last brace. -/
structure InGap (source : String) (before : Text) : Prop where
  apart : before.EndsApart
  free : StandsFree (size before) (tokenize source).1
  fresh : ∀ l, (Site.endingBy (size before)
      (Piece.lexemes 0 true (Piece.ofText source.toList))).getLast? = some l →
    l.isBrace = true ∨ (between l.span.stop (size before) before).hasBreak = true

theorem isVisible_of_isWordChar {c : Char} (h : Site.isWordChar c = true) :
    Text.IsVisible c := by
  simp only [Site.isWordChar, Bool.or_eq_true, beq_iff_eq] at h
  rcases h with (h | rfl) | rfl
  · exact isVisible_of_isAlphanumeric h
  all_goals
    unfold Text.IsVisible
    decide

theorem not_isWordChar_of_apart {c : Char} (h : isBlank c = true ∨ c = '{' ∨ c = '}') :
    Site.isWordChar c = false ∧ c ≠ '@' := by
  rcases h with h | rfl | rfl
  · refine ⟨eq_false_of_blank (fun _ => isVisible_of_isWordChar) c h, ?_⟩
    rintro rfl
    exact absurd h (by decide)
  · decide
  · decide

variable {v : Text}

theorem takeEndWhile_of_apart {t : Text} (h : t.EndsApart) :
    takeEndWhile Site.isWordChar t = [] := by
  rcases List.eq_nil_or_concat t with rfl | ⟨s, c, rfl⟩
  · rfl
  · rw [List.concat_eq_append] at h ⊢
    have hc := (not_isWordChar_of_apart (h c (by simp))).1
    rw [takeEndWhile, List.reverse_append, List.reverse_singleton, List.singleton_append,
      List.takeWhile_cons_of_neg (by simp [hc]), List.reverse_nil]

theorem unfinished?_of_cutOff {before : Text} (h : Piece.CutOff 0 true before v) :
    Site.unfinished? before (Piece.ofText before) = none := by
  unfold Site.unfinished?
  cases hlast : (Piece.ofText before).getLast? with
  | none => rfl
  | some p =>
    cases p with
    | token tok s =>
      have hcomment := h.last tok s hlast
      cases tok <;> first
        | rfl
        | cases hcomment
    | fault code lead body s =>
      obtain ⟨front, hpieces⟩ := List.getLast?_eq_some_iff.mp hlast
      have hclean := h.clean
      rw [hpieces, Piece.causes_append] at hclean
      exact absurd hclean (by simp [Piece.causes])

theorem endingBy_lexemes (t : Text) :
    Site.endingBy (size t) (Piece.lexemes 0 true (Piece.ofText t)) =
      Piece.lexemes 0 true (Piece.ofText t) := by
  refine List.filter_eq_self.mpr fun x hx => ?_
  have hbounds := (Piece.bounds_of_mem_tokens (Piece.mem_tokens_of_mem_lexemes hx)).2.2
  rw [Piece.text_ofText, Nat.zero_add] at hbounds
  exact decide_eq_true hbounds

theorem endingBy_of_cutOff {before : Text} (h : Piece.CutOff 0 true before v) :
    Site.endingBy (size before) (Piece.lexemes 0 true (Piece.ofText (before ++ v))) =
      Piece.lexemes 0 true (Piece.ofText before) := by
  obtain ⟨rest, hlexemes, hbehind⟩ := h.lexemes
  have hrest : Site.endingBy (size before) rest = [] := by
    refine List.filter_eq_nil_iff.mpr fun x hx => ?_
    have hmem : x ∈ Piece.lexemes 0 true (Piece.ofText (before ++ v)) := by
      rw [hlexemes]
      exact List.mem_append_right _ hx
    have hlt := (ordered_lexemes _).start_lt x hmem
    have hle := hbehind x hx
    simp only [decide_eq_true_eq]
    omega
  rw [hlexemes, Site.endingBy, List.filter_append]
  rw [Site.endingBy] at hrest
  rw [hrest, List.append_nil]
  exact endingBy_lexemes before

/-- If nothing is written on the line since the last brace, only the enclosures count. -/
theorem behind_of_fresh {before : Text}
    (hfresh : ∀ l, ts.getLast? = some l →
      l.isBrace = true ∨ (between l.span.stop (size before) before).hasBreak = true) :
    Site.behind ts (before.drop (upTo ((ts.getLast?.map (·.span.stop)).getD 0) before).length) =
      Site.ofPosition ⟨(Position.behind ts).enclosures, []⟩ := by
  rw [Site.behind]
  rcases List.eq_nil_or_concat ts with rfl | ⟨front, l, rfl⟩
  · simp [Position.behind]
  · rw [List.concat_eq_append] at hfresh ⊢
    have hlast : (front ++ [l]).getLast? = some l := List.getLast?_concat
    rcases hfresh l hlast with hbrace | hbreak
    · have hline := Position.line_pass_of_isBrace (Position.behind front) hbrace
      rw [← Position.behind_concat] at hline
      have hsame : ⟨(Position.behind (front ++ [l])).enclosures, []⟩ =
          Position.behind (front ++ [l]) := by
        rw [← hline]
      simp only [hsame, ite_self]
    · have hwhole : upTo (size before) before = before := by
        have h := upTo_size before []
        rw [List.append_nil] at h
        exact h
      rw [between, hwhole] at hbreak
      rw [hlast, Option.map_some, Option.getD_some, hbreak]
      simp

theorem classify_of_cutOff {before : Text} (hapart : before.EndsApart)
    (h : Piece.CutOff 0 true before v)
    (hfresh : ∀ l, (Piece.lexemes 0 true (Piece.ofText before)).getLast? = some l →
      l.isBrace = true ∨ (between l.span.stop (size before) before).hasBreak = true) :
    Site.classify before = (Site.ofPosition
      ⟨(Position.behind (Piece.lexemes 0 true (Piece.ofText before))).enclosures, []⟩, []) := by
  have hsign : before.getLast? ≠ some '@' := fun hlast =>
    (not_isWordChar_of_apart (hapart _ hlast)).2 rfl
  unfold Site.classify
  simp only [unfinished?_of_cutOff h, takeEndWhile_of_apart hapart, List.length_nil, Nat.sub_zero,
    List.take_length, if_neg hsign, endingBy_lexemes]
  rw [behind_of_fresh hfresh]

/-! ### The block around the cursor -/

theorem Ordered.eq_of_split {front front' after after' : List Lexeme}
    (h : Ordered (front ++ u :: after)) (hsplit : front ++ u :: after = front' ++ u :: after') :
    front = front' := by
  have hindex := h.findIdx_span
  have hindex' := (hsplit ▸ h : Ordered (front' ++ u :: after')).findIdx_span
  rw [hsplit, hindex'] at hindex
  exact (List.append_inj hsplit hindex.symm).1

/-- The innermost open brace belongs to the definition whose header it ends. -/
theorem Header.Opens.head?_enclosures {h : Header} {k : Kind} {front bs : List Lexeme}
    (hopens : h.Opens ts k) (horder : Ordered ts) (hts : ts = front ++ rest)
    (hbraces : openBraces front = h.brace :: bs) :
    (Position.behind front).enclosures.head? = some (.definition k) := by
  have hpairs := Position.forall₂_openBraces front
  rw [hbraces] at hpairs
  generalize (Position.behind front).enclosures = enclosures at hpairs
  cases hpairs with
  | cons hopened _ =>
    obtain ⟨before, inside, rfl, hinnermost⟩ := hopened
    obtain ⟨after, hstands⟩ := hopens.stands
    have hsplit : before ++ h.brace :: (inside ++ rest) =
        (h.before ++ h.words) ++ h.brace :: after := by
      rw [← List.cons_append, ← List.append_assoc, ← hts, hstands, List.append_assoc]
    have hfront : before = h.before ++ h.words := by
      refine Ordered.eq_of_split ?_ hsplit
      rw [hsplit, List.append_assoc, ← hstands]
      exact horder
    have hsame := hopens.innermost
    rw [← List.append_assoc, ← hfront, hinnermost] at hsame
    exact hsame

/-- A cursor between the tokens of a clean text cuts its lexemes in two, and completion sees the
enclosures behind the first of them. -/
theorem InGap.classify {source : String} {before : Text} (h : InGap source before)
    (hbefore : before <+: source.toList) (hclean : Piece.causes (Piece.ofText source.toList) = []) :
    let ts := Piece.lexemes 0 true (Piece.ofText source.toList)
    (∃ rest, ts = Site.endingBy (size before) ts ++ rest) ∧
      Site.classify before = (Site.ofPosition
        ⟨(Position.behind (Site.endingBy (size before) ts)).enclosures, []⟩, []) := by
  obtain ⟨v, hv⟩ := hbefore
  obtain ⟨hapart, hfree, hfresh⟩ := h
  rw [tokenize, ← hv] at hfree
  rw [← hv] at hclean hfresh ⊢
  have hcut : Piece.CutOff 0 true before v :=
    Piece.cutOff_of_between hapart hclean (by rw [Nat.zero_add]; exact hfree)
  obtain ⟨rest, hlexemes, -⟩ := hcut.lexemes
  simp only [endingBy_of_cutOff hcut] at hfresh ⊢
  exact ⟨⟨rest, hlexemes⟩, classify_of_cutOff hapart hcut hfresh⟩

/-- Completion sees the block that the parser reads around a cursor between two lines or behind a
brace: none if no brace is open there, and that of a definition if the innermost open brace ends the
header of this definition.  All definitions inside others have one. -/
theorem classify_eq_enclosing {source : String} (cursor : Nat)
    (hclean : (parse source).diagnostics = [])
    (htidy : ∀ x ∈ headed false (parse source).program.definitions,
      (Header.of? (Piece.lexemes 0 true (Piece.ofText source.toList)) x.1 x.2).all Header.isTidy)
    (hgap : InGap source (upTo cursor source.toList)) :
    let before := upTo cursor source.toList
    let ts := Piece.lexemes 0 true (Piece.ofText source.toList)
    let braces := openBraces (Site.endingBy (size before) ts)
    (braces = [] → Site.classify before = (.topLevel, [])) ∧
      ∀ x ∈ headed false (parse source).program.definitions,
        (x.2 = true → (Header.of? ts x.1 x.2).isSome) ∧
          ∀ h, Header.of? ts x.1 x.2 = some h → braces.head? = some h.brace →
            Site.classify before = (.statement x.1.kind, []) := by
  intro before ts braces
  have hbefore : before <+: source.toList := upTo_prefix cursor source.toList
  obtain ⟨⟨rest, hts⟩, hclassify⟩ := hgap.classify hbefore (causes_of_clean hclean).1
  rw [hclassify]
  have hpairs := Position.forall₂_openBraces (Site.endingBy (size before) ts)
  constructor
  · intro hnone
    rw [show openBraces _ = [] from hnone, List.forall₂_nil_left_iff] at hpairs
    rw [hpairs]
    rfl
  · intro x hx
    have hheader : (∃ y, Header.of? ts x.1 x.2 = some y ∧ y.Opens ts x.1.kind) ∨
        x.2 = false ∧ Header.of? ts x.1 x.2 = none := by
      refine (holds_parse hclean).opens [] [] ?_ (ordered_lexemes _) rfl (fun y hy g hg => ?_) x hx
      · rw [List.nil_append, List.append_nil]
      · have hall := htidy y hy
        rw [hg] at hall
        exact hall
    rcases hheader with ⟨y, hy, hopens⟩ | ⟨houter, hnone⟩
    · rw [hy]
      refine ⟨fun _ => rfl, fun h hh hbrace => ?_⟩
      cases hh
      obtain ⟨bs, hbraces⟩ := List.head?_eq_some_iff.mp hbrace
      have hinnermost := hopens.head?_enclosures (ordered_lexemes _) hts hbraces
      obtain ⟨es, hes⟩ := List.head?_eq_some_iff.mp hinnermost
      rw [hes]
      rfl
    · rw [hnone, houter]
      exact ⟨fun hinner => absurd hinner (by decide), fun h hh => absurd hh (by simp)⟩

/-- A message is defined where a member of a domain sends it, and a cursor stands in its block. -/
theorem classify_eq_enclosing_message :
    let source := "domain Shop \x7b\n  service Orders \x7b sends event Placed to orders \x7b\n" ++
      "    \n  \x7d \x7d\n\x7d\n"
    (parse source).diagnostics = [] ∧
      Site.classify (upTo 68 source.toList) = (.statement .event, []) := by
  intro source
  have hclean : (parse source).diagnostics = [] := by decide +kernel
  have hgap : InGap source (upTo 68 source.toList) := by
    constructor
    · have hlast : (upTo 68 source.toList).getLast? = some ' ' := by decide +kernel
      intro c hc
      rw [hlast] at hc
      cases hc
      decide
    · exact ⟨by decide +kernel, by decide +kernel⟩
    · show ∀ l ∈ (Site.endingBy _ _).getLast?, _
      decide +kernel
  have hinside : ∃ x ∈ headed false (parse source).program.definitions, x.1.kind = .event ∧
      ∃ h ∈ Header.of? (Piece.lexemes 0 true (Piece.ofText source.toList)) x.1 x.2,
        (openBraces (Site.endingBy (size (upTo 68 source.toList))
          (Piece.lexemes 0 true (Piece.ofText source.toList)))).head? = some h.brace := by
    decide +kernel
  obtain ⟨x, hx, hkind, h, hh, hbrace⟩ := hinside
  refine ⟨hclean, ?_⟩
  rw [← hkind]
  exact ((classify_eq_enclosing 68 hclean (by decide +kernel) hgap).2 x hx).2 h hh hbrace

end EventCatalog.Completion
