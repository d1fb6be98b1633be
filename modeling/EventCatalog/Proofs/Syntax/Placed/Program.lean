import EventCatalog.Proofs.Syntax.Placed.Statement
import EventCatalog.Syntax.Block

/-! # Documents stay in the text

Reading a document keeps to its text: its definitions and imports stand there, and so does what is
complained about while it is read (`stays_parse`).  Blocks are followed through turn by turn, with the
definition that has been read so far as the invariant. -/

namespace EventCatalog.Syntax

variable {text : String}

namespace Reader

variable {α : Type} {Q : α → Prop} {p : Reader α} {ts : List Lexeme}

theorem Gives.take_ok (h : p.Gives text Q) (hp : p.Strict) (hts : Lexeme.AllIn ts text)
    {x : Taken α ts} (hx : p.take hp ts = .ok x) : Q x.value ∧ Lexeme.AllIn x.rest text :=
  h.value hts (run_of_take hx)

theorem Gives.take_error (h : p.Gives text Q) (hp : p.Strict) (hts : Lexeme.AllIn ts text)
    {e : Failure} (he : p.take hp ts = .error e) : ∀ t ∈ e.found, t.StandsIn text := by
  unfold take at he
  split at he
  · rename_i hrun
    cases he
    exact h.found hts hrun
  · cases he

end Reader

/-- A failure is complained about where it was found, or at the end of the text. -/
theorem Failure.inside_diagnostic {f : Failure} {last : Span} (hlast : last.Within text)
    (hfound : ∀ t ∈ f.found, t.StandsIn text) : (f.diagnostic last.stop).Inside text := by
  unfold diagnostic
  cases h : f.found with
  | some t => exact (Diagnostic.inside_error _ _ _).labelled (hfound t h).within _
  | none => exact ((Diagnostic.inside_error _ _ _).labelled hlast.finish _).withHelp _

/-! ### Blocks -/

namespace Block

/-- What a statement leads to stays in the text. -/
def Turn.Stays {ts : List Lexeme} (text : String) : Turn ts → Prop
  | plain s rest _ => s.Placed text ∧ Lexeme.AllIn rest text
  | opens s o brace rest _ =>
    s.Placed text ∧ o.target.Placed text ∧ brace.Within text ∧ Lexeme.AllIn rest text
  | dropped d rest _ => d.Inside text ∧ Lexeme.AllIn rest text

theorem inside_unclosed (d : Definition) {opened : Span} (h : opened.Within text) :
    (unclosed d opened).Inside text :=
  ((Diagnostic.inside_error _ _ _).labelled h _).withHelp _

theorem inside_unknown (k : Kind) (word : String) {span : Span} (h : span.Within text) :
    (unknown k word span).Inside text :=
  ((Diagnostic.inside_error _ _ _).labelled h _).withHelp _

theorem stays_turn {last : Span} (hlast : last.Within text) (k : Kind) {t : Lexeme}
    {ts : List Lexeme} (hts : Lexeme.AllIn (t :: ts) text) :
    (turn last.stop k t ts).Stays text := by
  have hskipped : Lexeme.AllIn (Recovery.skipStatement t ts) text :=
    hts.tail.of_suffix (Recovery.suffix_skipRest _ _)
  have hgives := Statement.gives_statement text k
  unfold turn
  simp only
  split
  · rename_i e he
    exact ⟨Failure.inside_diagnostic hlast (hgives.take_error _ hts he), hskipped⟩
  · rename_i word span rest h hs
    obtain ⟨hplaced, -⟩ := hgives.take_ok _ hts hs
    exact ⟨inside_unknown k word (hplaced.places _ (List.mem_singleton_self _)), hskipped⟩
  · rename_i s h _ hs
    exact hgives.take_ok _ hts hs
  · rename_i s u us h _ hs
    obtain ⟨hplaced, hrest⟩ := hgives.take_ok _ hts hs
    split
    · rename_i o hopening _
      exact ⟨hplaced, hplaced.references _ (Statement.mem_references_of_opening? hopening),
        hrest.head.within, hrest.tail⟩
    · exact ⟨hplaced, hrest⟩

/-- A block and what there is to complain about it stay in the text. -/
structure Stays {ts : List Lexeme} (b : Block ts) (text : String) : Prop where
  definition : b.definition.Placed text
  diagnostics : ∀ e ∈ b.diagnostics, e.Inside text
  rest : Lexeme.AllIn b.rest text

theorem Stays.after {ts us : List Lexeme} {b : Block us} (h : b.Stays text)
    {ds : List Diagnostic} (hds : ∀ e ∈ ds, e.Inside text) (hle : us.length ≤ ts.length) :
    (b.after ds hle).Stays text :=
  ⟨h.definition, List.forall_mem_append.mpr ⟨hds, h.diagnostics⟩, h.rest⟩

/-- Each turn keeps to the text, so the block does. -/
theorem stays_read {last : Span} (hlast : last.Within text) {opened : Span}
    (hopened : opened.Within text) (next : Nat) {d : Definition} (hd : d.Placed text)
    {ts : List Lexeme} (hts : Lexeme.AllIn ts text) :
    (read last opened next d ts).Stays text := by
  fun_induction read last opened next d ts with
  | case1 opened next d =>
    exact ⟨hd.closeAt last, List.forall_mem_singleton.mpr (inside_unclosed d hopened), hts⟩
  | case2 opened next d t ts ht =>
    exact ⟨hd.closeAt t.span, List.forall_mem_nil _, hts.tail⟩
  | case3 opened next d t ts ht s rest hlt hturn ih =>
    have hstays := stays_turn hlast d.kind hts
    rw [hturn] at hstays
    exact (ih hopened (hd.add hstays.1) hstays.2).after (List.forall_mem_nil _) _
  | case4 opened next d t ts ht complaint rest hlt hturn ih =>
    have hstays := stays_turn hlast d.kind hts
    rw [hturn] at hstays
    exact (ih hopened hd hstays.2).after (List.forall_mem_singleton.mpr hstays.1) _
  | case5 opened next d t ts ht s o brace rest hlt hturn child ihchild =>
    rename_i ih
    have hstays := stays_turn hlast d.kind hts
    rw [hturn] at hstays
    obtain ⟨hs, ho, hbrace, hrest⟩ := hstays
    have hchild := ihchild hbrace (Statement.Opening.placed_start ho next) hrest
    exact (ih hopened (hd.addInlined hs hchild.definition) hchild.rest).after
      hchild.diagnostics (Nat.le_trans child.rest_le (Nat.le_of_lt hlt))

end Block

/-! ### Documents -/

namespace Entry

/-- What stands next at the top of a document stays in the text. -/
def Stays {ts : List Lexeme} (text : String) : Entry ts → Prop
  | importing i rest _ => i.Placed text ∧ Lexeme.AllIn rest text
  | defining d _ ds rest _ =>
    d.Placed text ∧ (∀ e ∈ ds, e.Inside text) ∧ Lexeme.AllIn rest text
  | dropped d rest _ => d.Inside text ∧ Lexeme.AllIn rest text

theorem stays_define {last : Span} (hlast : last.Within text) (next : Nat) {d : Definition}
    (hd : d.Placed text) {ts rest : List Lexeme} (hrest : Lexeme.AllIn rest text)
    (hlt : rest.length < ts.length) : (define last next d rest hlt).Stays text := by
  unfold define
  split
  · exact ⟨hd, List.forall_mem_nil _, List.forall_mem_nil _⟩
  · split
    · have hblock := Block.stays_read hlast hrest.head.within (next + 1) hd hrest.tail
      exact ⟨hblock.definition, hblock.diagnostics, hblock.rest⟩
    · exact ⟨hd, List.forall_mem_nil _, hrest⟩

theorem gives_header (text : String) :
    header.Gives text (·.2.Reads Phrase.name? text) :=
  (Reader.gives_token _ _).bind fun _ _ => ((Phrase.gives_name text).labelled _).bind
    fun _ hname => Reader.gives_pure hname

theorem stays_read {last : Span} (hlast : last.Within text) (next : Nat) {t : Lexeme}
    {ts : List Lexeme} (hts : Lexeme.AllIn (t :: ts) text) :
    (read last next t ts).Stays text := by
  have hskipped : Lexeme.AllIn (Recovery.skipToDefinition t ts) text :=
    hts.tail.of_suffix (Recovery.suffix_skipBlocks _ _)
  unfold read
  simp only
  split
  · split
    · rename_i i rest h hi
      exact (Phrase.gives_importStatement text).take_ok _ hts hi
    · rename_i e he
      exact ⟨Failure.inside_diagnostic hlast
        ((Phrase.gives_importStatement text).take_error _ hts he), hskipped⟩
  · split
    · split
      · rename_i kind name rest h hheader
        obtain ⟨hname, hrest⟩ := (gives_header text).take_ok _ hts hheader
        refine stays_define hlast next (Definition.placed_start next _ _ hname ?_) hrest _
        exact fun v hv => absurd hv (Option.not_mem_none v)
      · rename_i e he
        exact ⟨Failure.inside_diagnostic hlast ((gives_header text).take_error _ hts he),
          hskipped⟩
    · refine ⟨Failure.inside_diagnostic hlast fun u hu => ?_, hskipped⟩
      cases hu
      exact hts.head

end Entry

/-- What was read of a document stays in its text. -/
structure Parsed.Stays (p : Parsed) (text : String) : Prop where
  imports : ∀ i ∈ p.program.imports, i.Placed text
  definitions : ∀ d ∈ p.program.definitions, d.Placed text
  diagnostics : ∀ e ∈ p.diagnostics, e.Inside text

theorem stays_readProgram {last : Span} (hlast : last.Within text) (next : Nat)
    {ts : List Lexeme} (hts : Lexeme.AllIn ts text) : (readProgram last next ts).Stays text := by
  fun_induction readProgram last next ts with
  | case1 next => exact ⟨List.forall_mem_nil _, List.forall_mem_nil _, List.forall_mem_nil _⟩
  | case2 next t ts i rest hlt hread ih =>
    have hstays := Entry.stays_read hlast next hts
    rw [hread] at hstays
    obtain ⟨himports, hdefinitions, hdiagnostics⟩ := ih hstays.2
    exact ⟨List.forall_mem_cons.mpr ⟨hstays.1, himports⟩, hdefinitions, hdiagnostics⟩
  | case3 next t ts d next' ds rest hlt hread ih =>
    have hstays := Entry.stays_read hlast next hts
    rw [hread] at hstays
    obtain ⟨himports, hdefinitions, hdiagnostics⟩ := ih hstays.2.2
    exact ⟨himports, List.forall_mem_cons.mpr ⟨hstays.1, hdefinitions⟩,
      List.forall_mem_append.mpr ⟨hstays.2.1, hdiagnostics⟩⟩
  | case4 next t ts d rest hlt hread ih =>
    have hstays := Entry.stays_read hlast next hts
    rw [hread] at hstays
    obtain ⟨himports, hdefinitions, hdiagnostics⟩ := ih hstays.2
    exact ⟨himports, hdefinitions, List.forall_mem_cons.mpr ⟨hstays.1, hdiagnostics⟩⟩

/-- Reading a document stays in its text. -/
theorem stays_parse (text : String) : (parse text).Stays text := by
  let ts : List Lexeme := Piece.lexemes 0 true (Piece.ofText text.toList)
  have hts : Lexeme.AllIn ts text := fun _ ht => mem_tokenize_of_mem_lexemes ht
  have hlast : ((ts.getLast?.map Lexeme.span).getD ⟨0, 0⟩).Within text := by
    cases h : ts.getLast? with
    | none => exact Span.within_origin text
    | some t => exact (hts t (List.mem_of_getLast? h)).within
  obtain ⟨himports, hdefinitions, hdiagnostics⟩ := stays_readProgram hlast 0 hts
  refine ⟨himports, hdefinitions, fun e he => ?_⟩
  obtain he | he := List.mem_append.mp (List.mem_mergeSort.mp he)
  · exact inside_of_mem_tokenize he
  · exact hdiagnostics e he

end EventCatalog.Syntax
