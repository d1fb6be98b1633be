import EventCatalog.Proofs.Layout.Invisible
import EventCatalog.Proofs.Printing.Blocks
import EventCatalog.Proofs.Printing.NoteNames

/-! # Written documents are read back

A document that can be written is read back without complaint, as the tree it was written from,
places apart (`parse_print`): imports and definitions line by line, the blocks of definitions as
`Block.readAs_block` says.  That the names of annotations are not `latest` to the letter is not
enough for this (`not_recovered_latest`). -/

namespace EventCatalog.Syntax

open Token Reader Phrase

/-! ### Definitions and imports at the top -/

variable {names : String → Prop} {last : Span} {next stop : Nat} {rest : List Lexeme}

theorem run_header {d : Definition} {b : Bool} :
    header.run (lexemes b d.headerTokens ++ rest) =
      .ok ((⟨d.kind, ⟨0, 0⟩⟩, d.name.relabel .forgetSpans), rest) := by
  rw [Definition.headerTokens, lexemes_cons, List.cons_append, header,
    run_bind_ok (run_kind d.kind)]
  exact (run_bind_ok (run_labelled_ok (run_name d.name.value) .definitionName)).trans rfl

namespace Entry

variable {ts us : List Lexeme} {d e : Definition}

theorem define_plain (hlt : rest.length < ts.length)
    (hrest : ∀ t ∈ rest.head?, t.token ≠ .leftBrace) :
    define last next d rest hlt = .defining d (next + 1) [] rest hlt := by
  cases rest with
  | nil => rfl
  | cons u rest => exact if_neg (hrest u rfl)

theorem define_block {brace : Span} {b : Bool}
    (hlt : ((⟨.leftBrace, brace, b⟩ : Lexeme) :: us).length < ts.length)
    (h : Block.Gives last brace (next + 1) d us e stop rest) :
    ∃ hlt', define last next d (⟨.leftBrace, brace, b⟩ :: us) hlt =
      .defining e stop [] rest hlt' := by
  obtain ⟨rfl, rfl, hnone, rfl⟩ := h
  refine ⟨Nat.lt_of_le_of_lt (Block.rest_le _) (Nat.lt_trans (Nat.lt_succ_self _) hlt), ?_⟩
  rw [← hnone]
  unfold define
  exact if_pos rfl

theorem read_header (last : Span) (d : Definition) (rest : List Lexeme) (b : Bool) :
    ∃ t ts, ∃ hlt : rest.length < (t :: ts).length, lexemes b d.headerTokens ++ rest = t :: ts ∧
      read last d.id t ts = define last d.id d.begun rest hlt := by
  have hrun : header.run (⟨.identifier d.kind.keyword, ⟨0, 0⟩, b⟩ ::
      ⟨.identifier d.name.value, ⟨0, 0⟩, false⟩ :: rest) =
      .ok ((⟨d.kind, ⟨0, 0⟩⟩, d.name.relabel .forgetSpans), rest) := run_header
  refine ⟨_, _, strict_header _ _ _ hrun, rfl, ?_⟩
  have himport : Token.identifier d.kind.keyword ≠ .identifier "import" := by
    cases d.kind <;> decide
  have hopens : Recovery.opensTopLevel (.identifier d.kind.keyword) = true := by
    cases d.kind <;> decide
  simp only [read, if_neg himport, if_pos hopens, take_ok strict_header hrun]
  rfl

/-- A definition is read from its lines. -/
theorem read_lines (last : Span) (h : ∀ e ∈ d.all, e.Writable names)
    (hnumbered : Definition.Numbered (d.id + 1) stop d.nested)
    (hrest : ∀ t ∈ rest.head?, t.token ≠ .leftBrace) :
    ∃ t ts hlt, d.lines.flatMap Line.lexemes ++ rest = t :: ts ∧
      read last d.id t ts = .defining (d.relabel .forgetSpans) stop [] rest hlt := by
  have hblock : Block.Gives last ⟨0, 0⟩ (d.id + 1) d.begun (Block.closed (d.block 1) rest)
      (d.relabel .forgetSpans) stop rest := Block.readAs_block h 1 hnumbered rest
  unfold Definition.lines
  split
  · rename_i hempty
    -- the block would be empty, so nothing is in the definition
    rw [hempty] at hblock
    have hclose : Block.Gives last ⟨0, 0⟩ (d.id + 1) d.begun (Block.closed [] rest) d.begun
        (d.id + 1) rest := Block.gives_close _ _
    have hstop : stop = d.id + 1 := hblock.numbering.symm.trans hclose.numbering
    have hd : d.relabel .forgetSpans = d.begun := hblock.definition.symm.trans hclose.definition
    obtain ⟨t, ts, hlt, htext, hread⟩ := read_header last d rest true
    refine ⟨t, ts, hlt, htext, ?_⟩
    rw [hread, define_plain hlt hrest, hd, hstop]
  · obtain ⟨t, ts, hlt, htext, hread⟩ := read_header last d
      (⟨.leftBrace, ⟨0, 0⟩, false⟩ :: Block.closed (d.block 1) rest) true
    obtain ⟨hlt', hdefine⟩ := define_block hlt hblock
    refine ⟨t, ts, hlt', ?_, hread.trans hdefine⟩
    rw [← htext]
    simp [Block.closed, Line.lexemes, Definition.headerTokens]

/-- An import is read from its line. -/
theorem read_import (last : Span) (next : Nat) {i : Import} (hi : i.names ≠ []) (b : Bool) :
    ∃ t ts hlt, lexemes b i.tokens ++ rest = t :: ts ∧
      read last next t ts = .importing (i.relabel .forgetSpans) rest hlt := by
  have hrun : importStatement.run (lexemes b i.tokens ++ rest) =
      .ok (i.relabel .forgetSpans, rest) := run_importStatement hi
  obtain ⟨ts, hts⟩ : ∃ ts, lexemes b i.tokens ++ rest =
      ⟨.identifier "import", ⟨0, 0⟩, b⟩ :: ts := ⟨_, rfl⟩
  rw [hts] at hrun
  refine ⟨_, ts, strict_importStatement _ _ _ hrun, hts, ?_⟩
  simp only [read, if_true, take_ok strict_importStatement hrun]

end Entry

/-! ### Documents -/

/-- What follows a definition is no block. -/
theorem head?_lines (ds : List Definition) :
    ∀ t ∈ ((ds.flatMap (·.lines)).flatMap Line.lexemes).head?, t.token ≠ .leftBrace := by
  cases ds with
  | nil => nofun
  | cons d ds =>
    have hlines : ∃ ts ls, d.lines = ⟨0, .identifier d.kind.keyword :: ts⟩ :: ls := by
      unfold Definition.lines
      split <;> exact ⟨_, _, rfl⟩
    obtain ⟨ts, ls, hlines⟩ := hlines
    rw [List.flatMap_cons, hlines]
    rintro _ ⟨⟩
    nofun

/-- Definitions are read from their lines. -/
theorem readProgram_definitions (last : Span) {ds : List Definition}
    (h : ∀ e ∈ Definition.allOf ds, e.Writable names)
    (hnumbered : Definition.Numbered next stop ds) :
    readProgram last next ((ds.flatMap (·.lines)).flatMap Line.lexemes) =
      { program := { definitions := ds.map (·.relabel .forgetSpans) } } := by
  induction ds generalizing next with
  | nil => rw [List.flatMap_nil, List.flatMap_nil, readProgram]; rfl
  | cons d ds ih =>
    obtain ⟨mid, rfl, hinside, hbehind⟩ := hnumbered.of_cons
    obtain ⟨t, ts, hlt, htext, hread⟩ := Entry.read_lines last
      (fun e he => h e (Definition.mem_allOf.mpr ⟨d, List.mem_cons_self, he⟩)) hinside
      (head?_lines ds)
    have hrest := ih (fun e he => by
      obtain ⟨c, hc, he⟩ := Definition.mem_allOf.mp he
      exact h e (Definition.mem_allOf.mpr ⟨c, List.mem_cons_of_mem d hc, he⟩)) hbehind
    rw [List.flatMap_cons, List.flatMap_append, htext, readProgram, hread]
    simp only [hrest]
    rfl

/-- A document is read from its lines. -/
theorem readProgram_lines {p : Program} (h : p.Writable names) :
    readProgram last 0 (p.lines.flatMap Line.lexemes) =
      { program := p.relabel .forgetSpans } := by
  have hnumbered : Definition.Numbered 0 p.all.length p.definitions :=
    ⟨Nat.zero_le _, by rw [Nat.sub_zero, ← List.range_eq_range']; exact h.ids⟩
  obtain ⟨imports, definitions⟩ := p
  have himports : ∀ i ∈ imports, i.names ≠ [] := fun i hi => (h.imports i hi).1
  have hdefinitions := readProgram_definitions last h.definitions hnumbered
  simp only [Program.lines, Program.relabel, Definition.relabelAll_eq_map, List.flatMap_append,
    List.flatMap_map] at hdefinitions ⊢
  clear h hnumbered
  induction imports with
  | nil => exact hdefinitions
  | cons i imports ih =>
    have hrest := ih fun j hj => himports j (List.mem_cons_of_mem i hj)
    obtain ⟨t, ts, hlt, htext, hread⟩ :=
      Entry.read_import last 0 (himports i List.mem_cons_self) true
    rw [List.flatMap_cons, Line.lexemes, List.append_assoc, htext, readProgram, hread]
    simp only [hrest]
    rfl

/-- What is read from legible lines is what is read from their lexemes, places apart. -/
theorem parse_of_lexes {source : String} {ls : List Lexeme} (h : Lexes true source.toList ls) :
    (parse source).program.relabel .forgetSpans = (Parsed.ofLexemes ls).program ∧
      ((Parsed.ofLexemes ls).diagnostics = [] → (parse source).diagnostics = []) := by
  have hlexemes : (Piece.lexemes 0 true (Piece.ofText source.toList)).map
      (·.relabel .forgetSpans) = ls := by
    rw [← h.outline, ← Piece.map_lexemes 0, List.map_map]
    rfl
  have hparsed := Parsed.ofLexemes_relabel Relabelling.coherent_forgetSpans rfl
    (Piece.lexemes 0 true (Piece.ofText source.toList))
  rw [hlexemes] at hparsed
  refine ⟨(congrArg Parsed.program hparsed).symm, fun hnone => ?_⟩
  have hlexical : Piece.diagnostics 0 (Piece.ofText source.toList) = [] := by
    have hcodes := Piece.map_diagnostics 0 (Piece.ofText source.toList)
    rw [h.causes, List.map_nil] at hcodes
    exact List.map_eq_nil_iff.mp hcodes
  have hsyntactic := (congrArg Parsed.diagnostics hparsed).symm.trans hnone
  have hnil := List.map_eq_nil_iff.mp hsyntactic
  simp only [parse, hlexical, hnil, List.append_nil, List.mergeSort_nil]

/-- A document is read back from its text without complaint, as the tree it was written from. -/
theorem parse_print {p : Program} (h : p.Writable IsAnnotationName) :
    (parse p.print).diagnostics = [] ∧
      (parse p.print).program.relabel .forgetSpans = p.relabel .forgetSpans := by
  have hlegible := p.legible_lines (fun n hn => hn.isNoteName) h
  have hlexes : Lexes true p.print.toList (p.lines.flatMap Line.lexemes) := by
    rw [Program.print, String.toList_ofList]
    exact Line.lexes_text hlegible
  have hread : Parsed.ofLexemes (p.lines.flatMap Line.lexemes) =
      { program := p.relabel .forgetSpans } := readProgram_lines h
  obtain ⟨hprogram, hnone⟩ := parse_of_lexes hlexes
  rw [hread] at hprogram hnone
  exact ⟨hnone rfl, hprogram⟩

/-- A domain with a service in it, which sends a message that is defined on the spot, and a flow of
a chain and a trigger. -/
def shop : Program where
  imports := [⟨[⟨⟨"Payment", ⟨0, 0⟩⟩, some ⟨"Billing", ⟨0, 0⟩⟩⟩], ⟨"./pay.ec", ⟨0, 0⟩⟩, ⟨0, 0⟩⟩]
  definitions := [
    { id := 0, keywordSpan := ⟨0, 0⟩, name := ⟨"Shop", ⟨0, 0⟩⟩, version := some ⟨"1.0.0", ⟨0, 0⟩⟩
      attributes := [("owners", ⟨.list ["ada", "bob"], ⟨0, 0⟩⟩), ("draft", ⟨.flag false, ⟨0, 0⟩⟩)]
      annotations := [⟨⟨"badge", ⟨0, 0⟩⟩, [⟨none, "new \"shop\""⟩, ⟨some "color", "red"⟩], ⟨0, 0⟩⟩]
      body := .domain { services := [⟨⟨⟨"Orders", ⟨0, 0⟩⟩, .latest, none⟩, some 1⟩] }
      nested := [
        { id := 1, keywordSpan := ⟨0, 0⟩, name := ⟨"Orders", ⟨0, 0⟩⟩, version := none
          attributes := [], annotations := []
          body := .service { sends := [⟨⟨.event, ⟨0, 0⟩⟩, ⟨⟨"Placed", ⟨0, 0⟩⟩, .latest, none⟩,
            [⟨⟨"mail", ⟨0, 0⟩⟩, .parse "^1.2", some ⟨0, 0⟩⟩], some 2⟩] }
          nested := [
            { id := 2, keywordSpan := ⟨0, 0⟩, name := ⟨"Placed", ⟨0, 0⟩⟩, version := none
              attributes := [("summary", ⟨.text "an order", ⟨0, 0⟩⟩)], annotations := []
              body := .event, nested := [], span := ⟨0, 0⟩ }]
          span := ⟨0, 0⟩ }]
      span := ⟨0, 0⟩ },
    { id := 3, keywordSpan := ⟨0, 0⟩, name := ⟨"Checkout", ⟨0, 0⟩⟩, version := none
      attributes := [], annotations := []
      body := .flow {
        chains := [[.node ⟨"start", ⟨0, 0⟩⟩,
          .reference ⟨⟨"Orders", ⟨0, 0⟩⟩, .latest, none⟩ (some ⟨"takes it", ⟨0, 0⟩⟩)]]
        triggers := [⟨[⟨⟨"Placed", ⟨0, 0⟩⟩, .latest, none⟩], [⟨⟨⟨"Mailer", ⟨0, 0⟩⟩, .latest, none⟩,
          none, [⟨some ⟨"sent", ⟨0, 0⟩⟩, ⟨⟨"Letter", ⟨0, 0⟩⟩, .latest, none⟩⟩]⟩], ⟨0, 0⟩⟩] }
      nested := [], span := ⟨0, 0⟩ }]

theorem parse_print_shop :
    shop.Writable IsAnnotationName ∧ (parse shop.print).diagnostics = [] ∧
      (parse shop.print).program.relabel .forgetSpans = shop.relabel .forgetSpans :=
  have h : shop.Writable IsAnnotationName := by decide +kernel
  ⟨h, parse_print h⟩

/-- An entity with an annotation. -/
def annotated (name : String) : Program where
  definitions := [
    { id := 0, keywordSpan := ⟨0, 0⟩, name := ⟨"E", ⟨0, 0⟩⟩, version := none, attributes := []
      annotations := [⟨⟨name, ⟨0, 0⟩⟩, [], ⟨0, 0⟩⟩], body := .entity [], nested := []
      span := ⟨0, 0⟩ }]

/-- A name that is not `latest` to the letter and does not begin like a version. -/
def IsPlainName (s : String) : Prop := IsName s ∧ s ≠ "latest" ∧ startsLikeVersion s = false

instance : DecidablePred IsPlainName := fun _ => inferInstanceAs (Decidable (_ ∧ _ ∧ _))

/-- All names of the document are plain and it can be written, but its text is complained about and
read as another document. -/
def Program.Lost (p : Program) : Prop :=
  p.Writable IsPlainName ∧ (∀ d ∈ p.all, IsPlainName d.name.value) ∧
    (parse p.print).diagnostics ≠ [] ∧
    (parse p.print).program.relabel .forgetSpans ≠ p.relabel .forgetSpans

/-- It is not enough that names are plain: `@Latest` is read as a version selector, as is the
beginning of `@latest_fee`, and the annotation is lost. -/
theorem not_recovered_latest :
    (annotated "Latest").print = "entity E \x7b\n  @Latest\n\x7d\n" ∧
      (annotated "Latest").Lost ∧ (annotated "latest_fee").Lost := by
  have lost {name : String} (hwritable : (annotated name).Writable IsPlainName)
      (hdiagnostics : (parse (annotated name).print).diagnostics ≠ [])
      (hnotes : ((parse (annotated name).print).program.relabel .forgetSpans).definitions.map
        (·.annotations.length) ≠ [1]) : (annotated name).Lost := by
    have hplain : IsPlainName "E" := by decide +kernel
    exact ⟨hwritable, List.forall_mem_singleton.mpr hplain, hdiagnostics, fun h => hnotes (by rw [h]; rfl)⟩
  exact ⟨by decide +kernel, lost (by decide +kernel) (by decide +kernel) (by decide +kernel),
    lost (by decide +kernel) (by decide +kernel) (by decide +kernel)⟩

end EventCatalog.Syntax
