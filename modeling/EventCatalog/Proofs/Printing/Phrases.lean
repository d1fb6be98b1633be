import EventCatalog.Proofs.Printing.Writable
import EventCatalog.Proofs.Syntax.Barred.Reader
import EventCatalog.Proofs.Syntax.Entries
import EventCatalog.Proofs.Syntax.Natural.Reader

/-! # Written phrases are read back

What a reader gives for the lexemes of a written phrase with other lexemes behind them: the phrase
without its places, and those lexemes.  Each lemma says what must not follow: a reference must not
be followed by a selector (`NoSelector`), a step not by a string on its line (`NoLabel`), a list
not by another separator.

The lemmas on the combinators come first (`Reader.run_iterate`, `Reader.run_separated`), then one
for each phrase. -/

namespace EventCatalog

namespace Token

@[simp] theorem lexemes_nil (b : Bool) : lexemes b [] = [] := rfl

@[simp] theorem lexemes_cons (b : Bool) (t : Token) (ts : List Token) :
    lexemes b (t :: ts) = ⟨t, ⟨0, 0⟩, b⟩ :: lexemes false ts := rfl

@[simp] theorem lexemes_append (ts us : List Token) :
    lexemes false (ts ++ us) = lexemes false ts ++ lexemes false us := by
  induction ts with
  | nil => rfl
  | cons t ts ih => rw [List.cons_append, lexemes_cons, lexemes_cons, ih, List.cons_append]

/-- Only the first token of a line starts it. -/
theorem lexemes_append_of_ne_nil {ts : List Token} (h : ts ≠ []) (b : Bool) (us : List Token) :
    lexemes b (ts ++ us) = lexemes b ts ++ lexemes false us := by
  cases ts with
  | nil => exact absurd rfl h
  | cons t ts => rw [List.cons_append, lexemes_cons, lexemes_append, lexemes_cons, List.cons_append]

theorem lexemes_flatMap {α : Type} (f : α → List Token) (items : List α) :
    lexemes false (items.flatMap f) = items.flatMap fun a => lexemes false (f a) := by
  induction items with
  | nil => rfl
  | cons a items ih => rw [List.flatMap_cons, lexemes_append, ih, List.flatMap_cons]

end Token

namespace Syntax

open Token

theorem Reference.tokens_ne_nil (r : Reference) : r.tokens ≠ [] := List.cons_ne_nil _ _

theorem Step.tokens_ne_nil (s : Step) : s.tokens ≠ [] := by
  cases s <;> exact List.cons_ne_nil _ _

/-! ### Combinators -/

namespace Reader

variable {α β : Type} {p : Reader α} {ts rest : List Lexeme} {a : α}

theorem run_map_ok {f : α → β} (h : p.run ts = .ok (a, rest)) :
    (f <$> p).run ts = .ok (f a, rest) :=
  run_bind_ok h

theorem run_labelled_ok (h : p.run ts = .ok (a, rest)) (expected : Expected) :
    (p.labelled expected).run ts = .ok (a, rest) := by
  simp only [labelled, h]

theorem run_optional_ok (h : p.run ts = .ok (a, rest)) :
    (optional p).run ts = .ok (some a, rest) := by
  simp only [optional, h]

theorem run_optional_error (h : ∃ e, p.run ts = .error e) :
    (optional p).run ts = .ok (none, ts) := by
  obtain ⟨e, h⟩ := h
  simp only [optional, h]

theorem run_bind_error {f : α → Reader β} (h : ∃ e, p.run ts = .error e) :
    ∃ e, (p >>= f).run ts = .error e := by
  obtain ⟨e, h⟩ := h
  refine ⟨e, ?_⟩
  change (p.bind f).run ts = _
  simp only [Reader.bind, h]

theorem run_token_ok {t : Token} {span : Span} {b : Bool} {expected : Expected}
    {value? : Token → Option α} (h : value? t = some a) :
    (token expected value?).run (⟨t, span, b⟩ :: ts) = .ok (⟨a, span⟩, ts) := by
  simp only [token, h]

theorem run_token_error {expected : Expected} {value? : Token → Option α}
    (h : ∀ t ∈ ts.head?, value? t.token = none) :
    ∃ e, (token expected value?).run ts = .error e := by
  cases ts with
  | nil => exact ⟨_, rfl⟩
  | cons t ts =>
    refine ⟨⟨expected, some t⟩, ?_⟩
    simp only [token, h t rfl]

/-- A reader that takes one item after another reads them all, if each is followed by what may
follow an item and the reader declines what follows the last. -/
theorem run_iterate {ι : Type} {p : Reader (Option α)} {F : List Lexeme → Prop}
    {c : ι → List Lexeme} {v : ι → α} {items : List ι}
    (hitem : ∀ x ∈ items, ∀ us, F us → p.run (c x ++ us) = .ok (some (v x), us))
    (hchunk : ∀ x ∈ items, c x ≠ []) (hfollows : ∀ x ∈ items, ∀ us, F (c x ++ us))
    (hrest : F rest) (hstop : p.run rest = .ok (none, rest)) :
    (iterate p).run (items.flatMap c ++ rest) = .ok (items.map v, rest) := by
  change iterateRun p _ = _
  induction items with
  | nil =>
    rw [List.flatMap_nil, List.nil_append, iterateRun, hstop]
    rfl
  | cons x items ih =>
    have hnext : F (items.flatMap c ++ rest) := by
      cases items with
      | nil => exact hrest
      | cons y items =>
        rw [List.flatMap_cons, List.append_assoc]
        exact hfollows y (List.mem_cons_of_mem x List.mem_cons_self) _
    have hlt : (items.flatMap c ++ rest).length < (c x ++ (items.flatMap c ++ rest)).length := by
      have hpos := List.length_pos_iff.mpr (hchunk x List.mem_cons_self)
      simp only [List.length_append]
      omega
    have hrun := ih (fun y hy => hitem y (List.mem_cons_of_mem x hy))
      (fun y hy => hchunk y (List.mem_cons_of_mem x hy))
      (fun y hy => hfollows y (List.mem_cons_of_mem x hy))
    rw [List.flatMap_cons, List.append_assoc, iterateRun, hitem x List.mem_cons_self _ hnext]
    simp only [hlt, if_true, hrun, List.map_cons]

/-- One or more items with separators between them are read. -/
theorem run_separated {ι : Type} {q : Reader β} {t : Token} {s : β} {F : List Lexeme → Prop}
    {w : ι → List Token} {v : ι → α} {items : List ι} (hne : items ≠ [])
    (hitem : ∀ x ∈ items, ∀ us, F us → p.run (lexemes false (w x) ++ us) = .ok (v x, us))
    (hseparator : ∀ us, q.run (⟨t, ⟨0, 0⟩, false⟩ :: us) = .ok (s, us))
    (hfollows : ∀ us, F (⟨t, ⟨0, 0⟩, false⟩ :: us)) (hrest : F rest)
    (hstop : ∃ e, q.run rest = .error e) :
    (separated p q).run (lexemes false (joined t (items.map w)) ++ rest) =
      .ok (items.map v, rest) := by
  cases items with
  | nil => exact absurd rfl hne
  | cons x items =>
    let chunk (y : ι) : List Lexeme := ⟨t, ⟨0, 0⟩, false⟩ :: lexemes false (w y)
    have hothers : lexemes false ((items.map w).flatMap (t :: ·)) = items.flatMap chunk := by
      rw [List.flatMap_map, lexemes_flatMap]
      rfl
    have hnext : F (items.flatMap chunk ++ rest) := by
      cases items with
      | nil => exact hrest
      | cons y items => exact hfollows _
    have hiterate : (iterate (optional do let _ ← q; p)).run (items.flatMap chunk ++ rest) =
        .ok (items.map v, rest) :=
      run_iterate (F := F)
        (fun y hy us hus => run_optional_ok ((run_bind_ok (hseparator _)).trans
          (hitem y (List.mem_cons_of_mem x hy) us hus)))
        (fun _ _ => List.cons_ne_nil _ _) (fun _ _ _ => hfollows _) hrest
        (run_optional_error (run_bind_error hstop))
    rw [List.map_cons, joined, lexemes_append, hothers, List.append_assoc, separated,
      run_bind_ok (hitem x List.mem_cons_self _ hnext), run_bind_ok hiterate]
    rfl

end Reader

namespace Phrase

open Reader

variable {ts rest : List Lexeme} {b : Bool}

/-! ### Single lexemes -/

theorem run_mark (t : Token) : (mark t).run (⟨t, ⟨0, 0⟩, b⟩ :: rest) = .ok (⟨0, 0⟩, rest) :=
  run_map_ok (run_token_ok (if_pos rfl))

theorem run_mark_error {t : Token} (h : ∀ u ∈ ts.head?, u.token ≠ t) :
    ∃ e, (mark t).run ts = .error e :=
  run_bind_error (run_token_error fun u hu => if_neg (h u hu))

theorem run_keyword (word : String) :
    (keyword word).run (⟨.identifier word, ⟨0, 0⟩, b⟩ :: rest) = .ok (⟨0, 0⟩, rest) :=
  run_map_ok (run_token_ok (if_pos rfl))

theorem run_keyword_error {word : String} (h : ∀ u ∈ ts.head?, u.token ≠ .identifier word) :
    ∃ e, (keyword word).run ts = .error e :=
  run_bind_error (run_token_error fun u hu => if_neg (h u hu))

theorem run_identifier (s : String) :
    identifier.run (⟨.identifier s, ⟨0, 0⟩, b⟩ :: rest) = .ok (⟨s, ⟨0, 0⟩⟩, rest) :=
  run_token_ok rfl

theorem run_stringLiteral (s : String) :
    stringLiteral.run (⟨.stringLiteral s, ⟨0, 0⟩, b⟩ :: rest) = .ok (⟨s, ⟨0, 0⟩⟩, rest) :=
  run_token_ok rfl

theorem run_stringLiteral_error (h : ∀ u ∈ ts.head?, literal? u.token = none) :
    ∃ e, stringLiteral.run ts = .error e :=
  run_token_error h

theorem run_value (s : String) :
    value.run (⟨.stringLiteral s, ⟨0, 0⟩, b⟩ :: rest) = .ok (⟨s, ⟨0, 0⟩⟩, rest) :=
  run_token_ok rfl

theorem run_name (s : String) :
    name.run (⟨.identifier s, ⟨0, 0⟩, b⟩ :: rest) = .ok (⟨s, ⟨0, 0⟩⟩, rest) :=
  run_token_ok rfl

theorem run_quotedName (s : String) :
    name.run (⟨.stringLiteral s, ⟨0, 0⟩, b⟩ :: rest) = .ok (⟨s, ⟨0, 0⟩⟩, rest) :=
  run_token_ok rfl

theorem kind?_keyword (k : Kind) : kind? (.identifier k.keyword) = some k :=
  Kind.ofKeyword?_keyword k

theorem run_kind (k : Kind) :
    kind.run (⟨.identifier k.keyword, ⟨0, 0⟩, b⟩ :: rest) = .ok (⟨k, ⟨0, 0⟩⟩, rest) :=
  run_token_ok (kind?_keyword k)

theorem run_messageKind {k : Kind} (hk : k.isMessage = true) :
    messageKind.run (⟨.identifier k.keyword, ⟨0, 0⟩, b⟩ :: rest) = .ok (⟨k, ⟨0, 0⟩⟩, rest) :=
  run_token_ok (by rw [kind?_keyword, Option.filter_some, if_pos hk])

theorem run_version (text : String) :
    version.run (lexemes false (versionTokens text) ++ rest) = .ok (⟨text, ⟨0, 0⟩⟩, rest) := by
  unfold versionTokens
  split <;> exact run_token_ok rfl

/-! ### References -/

/-- No selector is read here. -/
def NoSelector (rest : List Lexeme) : Prop := selector.run rest = .ok (none, rest)

theorem noSelector_of_token (h : ∀ t ∈ rest.head?, selector? t.token = none ∧ t.token ≠ .atSign) :
    NoSelector rest := by
  rw [NoSelector, selector,
    run_bind_ok (run_optional_error (run_token_error fun t ht => (h t ht).1))]
  exact run_optional_error (run_bind_error (run_mark_error fun t ht => (h t ht).2))

theorem noSelector_cons {t : Lexeme} (hselector : selector? t.token = none)
    (hsign : t.token ≠ .atSign) : NoSelector (t :: rest) :=
  noSelector_of_token (by rintro _ ⟨⟩; exact ⟨hselector, hsign⟩)

/-- An annotation is no selector. -/
theorem noSelector_note (name : String) (b' : Bool) :
    NoSelector (⟨.atSign, ⟨0, 0⟩, b⟩ :: ⟨.identifier name, ⟨0, 0⟩, b'⟩ :: rest) := by
  have hselector : ∀ t ∈ (⟨.atSign, ⟨0, 0⟩, b⟩ :: (⟨.identifier name, ⟨0, 0⟩, b'⟩ : Lexeme) ::
      rest).head?, selector? t.token = none := by
    rintro _ ⟨⟩
    rfl
  have hstring : ∃ e, stringLiteral.run (⟨.identifier name, ⟨0, 0⟩, b'⟩ :: rest) = .error e :=
    run_stringLiteral_error (by rintro _ ⟨⟩; rfl)
  rw [NoSelector, selector, run_bind_ok (run_optional_error (run_token_error hselector))]
  refine run_optional_error ?_
  rw [run_bind_ok (run_mark .atSign)]
  exact run_bind_error hstring

theorem run_selector (text : String) :
    selector.run (lexemes false (selectorTokens text) ++ rest) =
      .ok (some ⟨text, ⟨0, 0⟩⟩, rest) := by
  unfold selectorTokens
  split
  · rw [selector, lexemes_cons, List.cons_append,
      run_bind_ok (run_optional_ok (run_token_ok (a := text) rfl))]
    rfl
  · have hselector : ∀ t ∈ (lexemes false [.atSign, .stringLiteral text] ++ rest).head?,
        selector? t.token = none := by
      rintro _ ⟨⟩
      rfl
    rw [selector, run_bind_ok (run_optional_error (run_token_error hselector))]
    refine run_optional_ok ?_
    rw [lexemes_cons, List.cons_append, run_bind_ok (run_mark .atSign), lexemes_cons,
      List.cons_append, run_bind_ok (run_stringLiteral text)]
    rfl

theorem run_reference {r : Reference} (hr : r.Writable) (hrest : NoSelector rest) :
    reference.run (lexemes b r.tokens ++ rest) = .ok (r.relabel .forgetSpans, rest) := by
  obtain ⟨⟨name, place⟩, sel, span⟩ := r
  obtain ⟨-, hparse, hlatest⟩ := hr
  rw [reference, Reference.tokens, lexemes_cons, List.cons_append,
    run_bind_ok (run_labelled_ok (run_name name) .reference)]
  cases span with
  | none =>
    obtain rfl : sel = .latest := hlatest rfl
    rw [Reference.selectorPart, lexemes_nil, List.nil_append, run_bind_ok hrest]
    rfl
  | some span =>
    have hparse : Selector.parse sel.toString = sel := Selector.exists_parse_iff.mp hparse
    rw [Reference.selectorPart, run_bind_ok (run_selector _)]
    simp only [hparse]
    rfl

theorem run_typedReference {r : TypedReference} (hr : r.target.Writable)
    (hrest : NoSelector rest) :
    typedReference.run (lexemes b r.tokens ++ rest) = .ok (r.relabel .forgetSpans, rest) := by
  rw [typedReference, TypedReference.tokens, lexemes_cons, List.cons_append,
    run_bind_ok (run_kind _), run_bind_ok (run_reference hr hrest)]
  rfl

/-! ### Lists -/

/-- Items between commas are read up to a closing mark; a comma behind the last may be left out. -/
theorem run_commas {α β ι : Type} {p : Reader α} {k : List α → Span → Reader β} {t : Token}
    {w : ι → List Token} {v : ι → α} {items : List ι} (ht : t ≠ .comma)
    (hempty : ∀ ts, ∃ e, p.run (⟨t, ⟨0, 0⟩, false⟩ :: ts) = .error e)
    (hitem : ∀ x ∈ items, ∀ us, p.run (lexemes false (w x) ++ us) = .ok (v x, us)) :
    (do
      let found ← separatedOrNone p (mark .comma)
      let _ ← optional (mark .comma)
      let span ← mark t
      k found span).run (lexemes false (joined .comma (items.map w)) ++
        (⟨t, ⟨0, 0⟩, false⟩ : Lexeme) :: rest) = (k (items.map v) ⟨0, 0⟩).run rest := by
  have hstop : ∃ e, (mark .comma).run (⟨t, ⟨0, 0⟩, false⟩ :: rest) = .error e :=
    run_mark_error (by rintro _ ⟨⟩; exact ht)
  have hitems : (separatedOrNone p (mark .comma)).run
      (lexemes false (joined .comma (items.map w)) ++ ⟨t, ⟨0, 0⟩, false⟩ :: rest) =
      .ok (items.map v, ⟨t, ⟨0, 0⟩, false⟩ :: rest) := by
    cases items with
    | nil => exact (run_bind_ok (run_optional_error (run_bind_error (hempty rest)))).trans rfl
    | cons item items =>
      exact (run_bind_ok (run_optional_ok (run_separated (F := fun _ => True)
        (List.cons_ne_nil _ _) (fun x hx us _ => hitem x hx us) (fun us => run_mark .comma)
        (fun _ => trivial) trivial hstop))).trans rfl
  rw [run_bind_ok hitems, run_bind_ok (run_optional_error hstop), run_bind_ok (run_mark t)]

theorem run_values (items : List String) :
    values.run (lexemes b (stringsTokens items) ++ rest) = .ok (items, rest) := by
  have hmap : (items.map fun item => (⟨item, ⟨0, 0⟩⟩ : Located String)).map (·.value) = items := by
    rw [List.map_map]
    exact List.map_id' items
  simp only [stringsTokens, List.cons_append, lexemes_cons, lexemes_append, lexemes_nil,
    List.append_assoc, List.nil_append]
  rw [values, run_bind_ok (run_mark .leftBracket)]
  refine (run_commas (p := value) (t := .rightBracket) (w := fun item => [.stringLiteral item])
    (v := fun item => ⟨item, ⟨0, 0⟩⟩) (by decide)
    (fun ts => run_token_error (by rintro _ ⟨⟩; rfl)) (fun x _ us => run_value x)).trans ?_
  rw [hmap]
  rfl

/-! ### Imports and annotations -/

theorem run_importedName (n : ImportedName) (hrest : ∀ t ∈ rest.head?, t.token ≠ .identifier "as") :
    importedName.run (lexemes b n.tokens ++ rest) =
      .ok (⟨n.name.relabel .forgetSpans, n.renamed.map (·.relabel .forgetSpans)⟩, rest) := by
  obtain ⟨exported, renamed⟩ := n
  rw [importedName, ImportedName.tokens, lexemes_cons, List.cons_append,
    run_bind_ok (run_name exported.value)]
  cases renamed with
  | none =>
    rw [lexemes_nil, List.nil_append,
      run_bind_ok (run_optional_error (run_bind_error (run_keyword_error hrest)))]
    rfl
  | some renamed =>
    simp only [lexemes_cons, lexemes_nil, List.cons_append, List.nil_append]
    rw [run_bind_ok (run_optional_ok ((run_bind_ok (run_keyword "as")).trans (run_name _)))]
    rfl

theorem run_importStatement {i : Import} (hi : i.names ≠ []) :
    importStatement.run (lexemes b i.tokens ++ rest) = .ok (i.relabel .forgetSpans, rest) := by
  have hbrace : ∀ ts : List Lexeme, ∀ t ∈ ((⟨.rightBrace, ⟨0, 0⟩, false⟩ : Lexeme) :: ts).head?,
      t.token = .rightBrace := by
    rintro ts _ ⟨⟩
    rfl
  have hnames : ∀ ts : List Lexeme, (separated importedName (mark .comma)).run
      (lexemes false (joined .comma (i.names.map (·.tokens))) ++
        (⟨.rightBrace, ⟨0, 0⟩, false⟩ : Lexeme) :: ts) =
      .ok (i.names.map fun n =>
          ⟨n.name.relabel .forgetSpans, n.renamed.map (·.relabel .forgetSpans)⟩,
        ⟨.rightBrace, ⟨0, 0⟩, false⟩ :: ts) := fun ts =>
    run_separated (F := fun us => ∀ t ∈ us.head?, t.token ≠ .identifier "as") hi
      (fun n _ us hus => run_importedName n hus) (fun us => run_mark .comma)
      (by rintro us _ ⟨⟩; decide) (fun t ht => by rw [hbrace ts t ht]; decide)
      (run_mark_error fun t ht => by rw [hbrace ts t ht]; decide)
  simp only [Import.tokens, List.cons_append, lexemes_cons, lexemes_append, lexemes_nil,
    List.append_assoc, List.nil_append]
  rw [importStatement, run_bind_ok (run_keyword "import"), run_bind_ok (run_mark .leftBrace),
    run_bind_ok (hnames _), run_bind_ok (run_optional_error (run_mark_error fun t ht => by
      rw [hbrace _ t ht]; decide)), run_bind_ok (run_mark .rightBrace),
    run_bind_ok (run_keyword "from"), run_bind_ok (run_labelled_ok (run_stringLiteral _) _)]
  rfl

theorem run_argument (a : Argument) :
    argument.run (lexemes b a.tokens ++ rest) = .ok (a, rest) := by
  obtain ⟨key, text⟩ := a
  cases key with
  | none =>
    have hkey : ∀ us : List Lexeme, ∃ e, (do
        let key ← identifier
        let _ ← mark .colon
        return key.value).run (⟨.stringLiteral text, ⟨0, 0⟩, b⟩ :: us) = .error e := fun us =>
      run_bind_error (run_token_error (by rintro _ ⟨⟩; rfl))
    simp only [Argument.tokens, lexemes_cons, lexemes_nil, List.cons_append, List.nil_append]
    rw [argument, run_bind_ok (run_optional_error (hkey _)), run_bind_ok (run_value text)]
    rfl
  | some key =>
    simp only [Argument.tokens, lexemes_cons, lexemes_nil, List.cons_append, List.nil_append]
    rw [argument, run_bind_ok (run_optional_ok ((run_bind_ok (run_identifier key)).trans
      (run_bind_ok (run_mark .colon)))), run_bind_ok (run_value text)]
    rfl

theorem argument_error (ts : List Lexeme) :
    ∃ e, argument.run (⟨.rightParen, ⟨0, 0⟩, false⟩ :: ts) = .error e := by
  have hkey : ∃ e, (do
      let key ← identifier
      let _ ← mark .colon
      return key.value).run (⟨.rightParen, ⟨0, 0⟩, false⟩ :: ts) = .error e :=
    run_bind_error (run_token_error (by rintro _ ⟨⟩; rfl))
  rw [argument, run_bind_ok (run_optional_error hkey)]
  exact run_bind_error (run_token_error (by rintro _ ⟨⟩; rfl))

theorem run_note (a : Note) (hrest : ∀ t ∈ rest.head?, t.token ≠ .leftParen) :
    note.run (lexemes b a.tokens ++ rest) = .ok (a.relabel .forgetSpans, rest) := by
  obtain ⟨name, arguments, span⟩ := a
  simp only [Note.tokens, lexemes_cons, List.cons_append]
  rw [note, run_bind_ok (run_mark .atSign), run_bind_ok (run_labelled_ok (run_identifier _) _)]
  split
  · rename_i hnil
    rw [lexemes_nil, List.nil_append, run_bind_ok (run_optional_error (run_mark_error hrest)),
      Note.relabel, hnil]
    rfl
  · simp only [List.cons_append, lexemes_cons, lexemes_append, lexemes_nil, List.append_assoc,
      List.nil_append]
    rw [run_bind_ok (run_optional_ok (run_mark .leftParen))]
    refine (run_commas (p := argument) (t := .rightParen) (w := Argument.tokens) (v := id)
      (by decide) argument_error (fun x _ us => run_argument x)).trans ?_
    rw [List.map_id]
    rfl

/-! ### Parameters and contracts -/

/-- Fields are read up to the closing brace. -/
theorem run_fields {α ι : Type} {p : Reader α} {w : ι → List Token} {v : ι → α} {items : List ι}
    (hitem : ∀ x ∈ items, ∀ us, p.run (lexemes false (w x) ++ us) = .ok (v x, us))
    (hword : ∀ x, ∃ s ts, w x = .identifier s :: ts) :
    (iterate (unlessClosed p)).run
      (lexemes false (items.flatMap w) ++ (⟨.rightBrace, ⟨0, 0⟩, false⟩ : Lexeme) :: rest) =
      .ok (items.map v, ⟨.rightBrace, ⟨0, 0⟩, false⟩ :: rest) := by
  rw [lexemes_flatMap]
  refine run_iterate (F := fun _ => True) (fun x hx us _ => ?_) (fun x _ => ?_)
    (fun _ _ _ => trivial) trivial rfl
  · have hopen : (nextIs .rightBrace).run (lexemes false (w x) ++ us) =
        .ok (false, lexemes false (w x) ++ us) := by
      obtain ⟨s, ts, hw⟩ := hword x
      rw [hw]
      rfl
    rw [unlessClosed, run_bind_ok hopen]
    exact (run_bind_ok (hitem x hx us)).trans rfl
  · obtain ⟨s, ts, hw⟩ := hword x
    rw [hw]
    exact List.cons_ne_nil _ _

theorem run_parameterField {field : String × AttributeValue} (h : parameterFits field = true) :
    parameterField.run (lexemes false (parameterFieldTokens field) ++ rest) =
      .ok (field, rest) := by
  obtain ⟨key, value⟩ := field
  rw [parameterField, parameterFieldTokens, lexemes_cons, List.cons_append]
  cases value with
  | text s =>
    simp only [parameterFits, Bool.or_eq_true, beq_iff_eq] at h
    have hkey : parameterField? (.identifier key) = some key ∧
        ¬ (key = "enum" ∨ key = "examples") := by
      obtain rfl | rfl := h <;> decide
    rw [run_bind_ok (run_token_ok hkey.1), if_neg hkey.2]
    exact (run_bind_ok (run_value s)).trans rfl
  | list items =>
    simp only [parameterFits, Bool.or_eq_true, beq_iff_eq] at h
    have hkey : parameterField? (.identifier key) = some key := by
      obtain rfl | rfl := h <;> decide
    rw [run_bind_ok (run_token_ok hkey), if_pos h]
    exact (run_bind_ok (run_values items)).trans rfl
  | flag _ => cases h

/-- Entries with different keys stay as they are written. -/
theorem entriesOf_of_nodup {α : Type} {items : List (String × α)}
    (h : (items.map (·.1)).Nodup) : entriesOf items = items := by
  have hfold : ∀ before : Entries α, ((before ++ items).map (·.1)).Nodup →
      items.foldl (fun entries item => Entries.put item.1 item.2 entries) before =
        before ++ items := by
    clear h
    induction items with
    | nil => exact fun before _ => (List.append_nil before).symm
    | cons item items ih =>
      intro before h
      have hnew : item.1 ∉ before.map (·.1) := by
        rw [List.map_append, List.map_cons] at h
        exact fun hmem => (List.nodup_append.mp h).2.2 _ hmem _ List.mem_cons_self rfl
      rw [List.foldl_cons, Entries.put_of_not_mem hnew, ih _ (by rwa [List.append_assoc]),
        List.append_assoc]
      rfl
  exact hfold [] h

theorem run_parameter {p : Parameter} (hp : p.Writable)
    (hrest : ∀ t ∈ rest.head?, t.token ≠ .leftBrace) :
    parameter.run (lexemes b p.tokens ++ rest) = .ok (p.relabel .forgetSpans, rest) := by
  obtain ⟨name, attributes, span⟩ := p
  simp only [Parameter.tokens, lexemes_cons, List.cons_append]
  rw [parameter, run_bind_ok (run_keyword "parameter"),
    run_bind_ok (run_quotedName name.value)]
  split
  · rename_i hnil
    rw [lexemes_nil, List.nil_append, run_bind_ok (run_optional_error (run_mark_error hrest)),
      Parameter.relabel, hnil]
    rfl
  · simp only [List.cons_append, lexemes_cons, lexemes_append, lexemes_nil, List.append_assoc,
      List.nil_append]
    rw [run_bind_ok (run_optional_ok (run_mark .leftBrace))]
    refine (run_bind_ok (run_fields (v := id) (fun field hfield us =>
      run_parameterField (hp.2 field hfield)) (fun field => ⟨_, _, rfl⟩))).trans ?_
    rw [List.map_id, run_bind_ok (run_mark .rightBrace), entriesOf_of_nodup hp.1]
    rfl

theorem run_contractField (field : String × String) :
    contractField.run (lexemes false (contractFieldTokens field) ++ rest) = .ok (field, rest) := by
  simp only [contractFieldTokens, lexemes_cons, lexemes_nil, List.cons_append, List.nil_append]
  rw [contractField, run_bind_ok (run_labelled_ok (run_identifier field.1) _),
    run_bind_ok (run_value field.2)]
  rfl

/-- A contract that is not empty is read. -/
theorem run_contract {entries : Entries String} (hkeys : (entries.map (·.1)).Nodup)
    (hne : entries ≠ []) :
    contract.run (lexemes false (contractTokens entries) ++ rest) = .ok (entries, rest) := by
  simp only [contractTokens, if_neg hne, List.cons_append, lexemes_cons, lexemes_append,
    lexemes_nil, List.append_assoc, List.nil_append]
  rw [contract, run_bind_ok (run_mark .leftBrace), run_bind_ok (run_keyword "contract"),
    run_bind_ok (run_mark .leftBrace), run_bind_ok (run_fields (v := id)
      (fun field _ us => run_contractField field) (fun field => ⟨_, _, rfl⟩)), List.map_id,
    run_bind_ok (run_mark .rightBrace), run_bind_ok (run_mark .rightBrace),
    entriesOf_of_nodup hkeys]
  rfl

/-! ### Flows -/

/-- No label is read here: a string, if one comes next, starts a line. -/
def NoLabel (rest : List Lexeme) : Prop :=
  ∀ t ∈ rest.head?, t.startsLine = false → literal? t.token = none

theorem run_sameLineLabel (label : Option (Located String)) (hrest : NoLabel rest) :
    sameLineLabel.run (lexemes false (labelTokens label) ++ rest) =
      .ok (label.map (·.relabel .forgetSpans), rest) := by
  have hnext : ∀ ts, (next? : Reader (Option Lexeme)).run ts = .ok (ts.head?, ts) := fun _ => rfl
  rw [sameLineLabel, run_bind_ok (hnext _)]
  cases label with
  | some label =>
    rw [labelTokens, lexemes_cons, List.cons_append, List.head?_cons]
    exact run_optional_ok (run_stringLiteral label.value)
  | none =>
    rw [labelTokens, lexemes_nil, List.nil_append]
    cases rest with
    | nil => rfl
    | cons t rest =>
      rw [List.head?_cons]
      simp only
      split
      · rfl
      · rename_i hline
        exact run_optional_error (run_stringLiteral_error fun u hu => by
          obtain rfl : t = u := by simpa using hu
          exact hrest t rfl (by simpa using hline))

/-- Behind a reference a string on its line is a label and no selector. -/
theorem noSelector_labelTokens (label : Option (Located String)) (hrest : NoSelector rest) :
    NoSelector (lexemes false (labelTokens label) ++ rest) := by
  cases label with
  | none => exact hrest
  | some label => exact noSelector_cons rfl nofun

theorem run_step {s : Step} (hs : s.Writable) (hselector : NoSelector rest)
    (hlabel : NoLabel rest) :
    step.run (lexemes b s.tokens ++ rest) = .ok (s.relabel .forgetSpans, rest) := by
  cases s with
  | node label =>
    rw [step, Step.tokens, lexemes_cons, List.cons_append,
      run_bind_ok (run_optional_ok (run_stringLiteral label.value))]
    rfl
  | reference target label =>
    have hname : ∃ e, stringLiteral.run
        (lexemes b target.tokens ++ (lexemes false (labelTokens label) ++ rest)) = .error e :=
      run_stringLiteral_error (by rintro _ ⟨⟩; rfl)
    have htarget : reference.run
        (lexemes b target.tokens ++ (lexemes false (labelTokens label) ++ rest)) =
        .ok (target.relabel .forgetSpans, lexemes false (labelTokens label) ++ rest) :=
      run_reference hs (noSelector_labelTokens label hselector)
    rw [step, Step.tokens, lexemes_append_of_ne_nil target.tokens_ne_nil,
      List.append_assoc,
      run_bind_ok (run_optional_error hname)]
    simp only
    rw [run_bind_ok (run_labelled_ok htarget _), run_bind_ok (run_sameLineLabel label hlabel)]
    rfl

theorem run_afterArrow {α : Type} {p : Reader α} {a : α} {us : List Lexeme}
    (h : p.run us = .ok (a, rest)) :
    (afterArrow p).run (⟨.arrow, ⟨0, 0⟩, b⟩ :: us) = .ok (some a, rest) := by
  rw [afterArrow, run_bind_ok (run_optional_ok (run_mark .arrow))]
  exact (run_bind_ok h).trans rfl

theorem run_afterArrow_none {α : Type} {p : Reader α} (h : ∀ t ∈ rest.head?, t.token ≠ .arrow) :
    (afterArrow p).run rest = .ok (none, rest) := by
  rw [afterArrow, run_bind_ok (run_optional_error (run_mark_error h))]
  rfl

/-- What may follow a phrase that arrows may prolong. -/
structure NoArrow (rest : List Lexeme) : Prop where
  selector : NoSelector rest
  label : NoLabel rest
  arrow : ∀ t ∈ rest.head?, t.token ≠ .arrow

/-- Items behind arrows are read. -/
theorem run_arrows {α ι : Type} {p : Reader α} {w : ι → List Token} {v : ι → α} (items : List ι)
    (hitem : ∀ x ∈ items, ∀ us, NoSelector us → NoLabel us →
      p.run (lexemes false (w x) ++ us) = .ok (v x, us)) (hrest : NoArrow rest) :
    (iterate (afterArrow p)).run (lexemes false (items.flatMap (.arrow :: w ·)) ++ rest) =
      .ok (items.map v, rest) := by
  rw [lexemes_flatMap]
  exact run_iterate (F := fun us => NoSelector us ∧ NoLabel us)
    (fun x hx us hus => run_afterArrow (hitem x hx us hus.1 hus.2))
    (fun _ _ => List.cons_ne_nil _ _)
    (fun _ _ us => ⟨noSelector_cons rfl nofun, by rintro _ ⟨⟩ _; rfl⟩)
    ⟨hrest.selector, hrest.label⟩ (run_afterArrow_none hrest.arrow)

/-- What may stand behind arrows may stand before them. -/
theorem follows_arrows {ι : Type} {w : ι → List Token} (items : List ι) (hrest : NoArrow rest) :
    NoSelector (lexemes false (items.flatMap (.arrow :: w ·)) ++ rest) ∧
      NoLabel (lexemes false (items.flatMap (.arrow :: w ·)) ++ rest) := by
  cases items with
  | nil => exact ⟨hrest.selector, hrest.label⟩
  | cons x items =>
    exact ⟨noSelector_cons rfl nofun, by rintro _ ⟨⟩ _; rfl⟩

theorem run_chain {steps : List Step} (hne : steps ≠ []) (hsteps : ∀ s ∈ steps, s.Writable)
    (hrest : NoArrow rest) :
    chain.run (lexemes b (joined .arrow (steps.map (·.tokens))) ++ rest) =
      .ok (steps.map (·.relabel .forgetSpans), rest) := by
  cases steps with
  | nil => exact absurd rfl hne
  | cons s steps =>
    have hothers := run_arrows (p := step) (w := Step.tokens) (v := (·.relabel .forgetSpans)) steps
      (fun x hx us hselector hlabel =>
        run_step (hsteps x (List.mem_cons_of_mem s hx)) hselector hlabel) hrest
    obtain ⟨hselector, hlabel⟩ := follows_arrows (w := Step.tokens) steps hrest
    rw [List.map_cons, joined, List.flatMap_map, lexemes_append_of_ne_nil s.tokens_ne_nil,
      List.append_assoc, chain,
      run_bind_ok (run_step (hsteps s List.mem_cons_self) hselector hlabel), run_bind_ok hothers]
    rfl

theorem run_output {o : Output} (ho : o.target.Writable) (hrest : NoSelector rest) :
    output.run (lexemes false o.tokens ++ rest) = .ok (o.relabel .forgetSpans, rest) := by
  obtain ⟨label, target⟩ := o
  cases label with
  | some label =>
    simp only [Output.tokens, lexemes_cons, List.cons_append]
    rw [output, run_bind_ok (run_optional_ok ((run_bind_ok (run_stringLiteral label.value)).trans
      (run_bind_ok (run_mark .colon)))), run_bind_ok (run_reference ho hrest)]
    rfl
  | none =>
    have hname : ∃ e, stringLiteral.run (lexemes false target.tokens ++ rest) = .error e :=
      run_stringLiteral_error (by rintro _ ⟨⟩; rfl)
    rw [Output.tokens, output, run_bind_ok (run_optional_error (run_bind_error hname)),
      run_bind_ok (run_reference ho hrest)]
    rfl

theorem run_action {a : Action} (ha : a.Writable) (hrest : NoArrow rest) :
    action.run (lexemes false a.tokens ++ rest) = .ok (a.relabel .forgetSpans, rest) := by
  obtain ⟨target, label, outputs⟩ := a
  have houtputs := run_arrows (p := output) (w := Output.tokens) (v := (·.relabel .forgetSpans))
    outputs (fun o ho us hselector _ => run_output (ha.2 o ho) hselector) hrest
  obtain ⟨hselector, hlabel⟩ := follows_arrows (w := Output.tokens) outputs hrest
  rw [Action.tokens, lexemes_append, lexemes_append, List.append_assoc, List.append_assoc, action,
    run_bind_ok (run_labelled_ok (run_reference ha.1 (noSelector_labelTokens label hselector)) _),
    run_bind_ok (run_sameLineLabel label hlabel), run_bind_ok houtputs]
  rfl

end Phrase
end Syntax
end EventCatalog
