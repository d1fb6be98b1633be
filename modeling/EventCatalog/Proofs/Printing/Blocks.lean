import EventCatalog.Proofs.Printing.Rebuilding
import EventCatalog.Proofs.Syntax.Natural.Block
import EventCatalog.Proofs.Syntax.Numbering

/-! # Written blocks are read back

The lines between the braces of a definition are read as the definition (`Block.readAs_block`).
They are read one by one: each statement is followed by what may follow it
(`Statement.precedes_line`), and behind the line of a statement with a definition in its place that
definition is read, by induction over definitions inside definitions. -/

namespace EventCatalog.Syntax

open Token Reader Phrase

/-! ### What follows a statement -/

namespace Statement

variable {names : String → Prop} {k : Kind} {s t : Statement} {rest : List Lexeme} {b : Bool}

theorem precedes_cons {u : Lexeme} (hselector : NoSelector (u :: rest))
    (hlabel : u.startsLine = false → literal? u.token = none)
    (hconnective : u.token ∉ [.arrow, .comma, .leftParen, .identifier "to", .identifier "from",
      .identifier "and"])
    (hbrace : s.opening? = none → u.token ≠ .leftBrace)
    (haction : s.isTrigger = true → startsAction u.token = false) : s.Precedes (u :: rest) where
  arrow := ⟨hselector, by rintro _ ⟨⟩; exact hlabel,
    by rintro _ ⟨⟩ heq; exact hconnective (heq ▸ List.mem_cons_self)⟩
  connective := by rintro _ ⟨⟩; exact fun h => hconnective (List.mem_cons_of_mem _ h)
  brace := by rintro h _ ⟨⟩; exact hbrace h
  action := by rintro _ rfl _ ⟨⟩; exact haction rfl

/-- A closing brace may follow every statement. -/
theorem precedes_rightBrace (s : Statement) : s.Precedes (⟨.rightBrace, ⟨0, 0⟩, b⟩ :: rest) :=
  precedes_cons (noSelector_cons rfl (by simp)) (fun _ => rfl) (by simp) (fun _ => by simp)
    (fun _ => rfl)

/-- The opening brace of a block may follow a statement that it belongs to. -/
theorem precedes_leftBrace (h : s.opening? ≠ none) :
    s.Precedes (⟨.leftBrace, ⟨0, 0⟩, b⟩ :: rest) :=
  precedes_cons (noSelector_cons rfl (by simp)) (fun _ => rfl) (by simp)
    (fun hs => absurd hs h) (fun _ => rfl)

theorem precedes_word {word : String} (hword : word ∉ ["to", "from", "and"])
    (htrigger : s.isTrigger = true → word = "when") :
    s.Precedes (⟨.identifier word, ⟨0, 0⟩, b⟩ :: rest) :=
  precedes_cons (noArrow_word word).selector (fun _ => rfl) (by simpa using hword)
    (fun _ => by simp) (fun hs => by rw [htrigger hs]; rfl)

theorem not_mem_of_isName {word : String} (h : IsName word) : word ∉ ["to", "from", "and"] := by
  intro hmem
  have hkeywords : ∀ w ∈ ["to", "from", "and"], w ∈ keywords := by decide
  exact h.2 (hkeywords word hmem)

theorem not_mem_of_attributeShape? {word : String} {shape : AttributeShape}
    (h : attributeShape? k word = some shape) : word ∉ ["to", "from", "and"] := by
  simp only [List.mem_cons, List.not_mem_nil, or_false, not_or]
  refine ⟨?_, ?_, ?_⟩ <;> rintro rfl <;> cases k <;> cases h

/-- The line of a statement may follow another statement, one of no trigger only one that is no
trigger itself. -/
theorem precedes_line (ht : t.Writable names k)
    (htrigger : s.isTrigger = true → t.isTrigger = true) :
    s.Precedes (lexemes true (t.tokens k) ++ rest) := by
  have hword {word : String} {ts : List Token} (hword : word ∉ ["to", "from", "and"])
      (htrigger : s.isTrigger = true → word = "when") :
      s.Precedes (lexemes true (.identifier word :: ts) ++ rest) := precedes_word hword htrigger
  have hnone {p : Prop} (h : t.isTrigger = false) : s.isTrigger = true → p := fun hs =>
    absurd (htrigger hs) (by rw [h]; decide)
  cases t with
  | note a =>
    exact precedes_cons (noSelector_note _ _) (fun hline => by cases hline) (by simp)
      (fun _ => by simp) (hnone rfl)
  | version v => exact hword (by decide) (hnone rfl)
  | «attribute» key v =>
    cases hshape : attributeShape? k (attributeWord key) with
    | none => simp [Writable, attributeFits, hshape] at ht
    | some shape => exact hword (not_mem_of_attributeShape? hshape) (hnone rfl)
  | member sort keyword target inlined => exact hword (by cases sort <;> decide) (hnone rfl)
  | message direction m => exact hword (by cases direction <;> decide) (hnone rfl)
  | owns r => exact hword (by decide) (hnone rfl)
  | reference role r => exact hword (by cases role <;> decide) (hnone rfl)
  | parameter p => exact hword (by decide) (hnone rfl)
  | chain steps =>
    obtain ⟨hne, hsteps⟩ := ht
    cases steps with
    | nil => exact absurd rfl hne
    | cons step steps =>
      cases step with
      | reference target label =>
        have hname : IsName target.name.value := (hsteps _ List.mem_cons_self).1
        exact hword (not_mem_of_isName hname) (hnone rfl)
      | node label =>
        exact precedes_cons (noSelector_cons rfl (by simp)) (fun hline => by cases hline) (by simp)
          (fun _ => by simp) (hnone rfl)
  | trigger t => exact hword (by decide) fun _ => rfl
  | input r => exact hword (by decide) (hnone rfl)
  | output p => exact hword (by decide) (hnone rfl)
  | unknown word span => exact ht.elim

end Statement

/-! ### Turns of a block -/

namespace Block

variable {last opened : Span} {next stop : Nat} {d e : Definition} {s : Statement}
  {ts us rest : List Lexeme}

/-- From these lexemes on, the block of a definition is read up to its end, as another definition,
with no complaint. -/
structure Gives (last opened : Span) (next : Nat) (d : Definition) (ts : List Lexeme)
    (e : Definition) (stop : Nat) (rest : List Lexeme) : Prop where
  definition : (read last opened next d ts).definition = e
  numbering : (read last opened next d ts).next = stop
  diagnostics : (read last opened next d ts).diagnostics = []
  remainder : (read last opened next d ts).rest = rest

theorem gives_close (span : Span) (b : Bool) :
    Gives last opened next d (⟨.rightBrace, span, b⟩ :: rest) (d.closeAt span) next rest := by
  constructor <;> rw [read, if_pos rfl]

/-- A statement begins with a lexeme that closes no block. -/
theorem cons_of_run_statement (h : (Statement.statement d.kind).run ts = .ok (s, us)) :
    ∃ t ts', ts = t :: ts' ∧ t.token ≠ .rightBrace := by
  cases ts with
  | nil => cases h
  | cons t ts =>
    refine ⟨t, ts, rfl, fun ht => ?_⟩
    have hstart : (Statement.statement d.kind).run (t :: ts) =
        (Statement.startingWith d.kind t.token).run (t :: ts) := rfl
    rw [hstart, ht] at h
    cases h

theorem turn_plain (finish : Nat) {k : Kind} {t : Lexeme}
    (hrun : (Statement.statement k).run (t :: ts) = .ok (s, us))
    (hknown : ∀ word span, s ≠ .unknown word span)
    (hplain : ∀ u ∈ us.head?, u.token ≠ .leftBrace) :
    ∃ hlt, turn finish k t ts = .plain s us hlt := by
  refine ⟨Statement.strict_statement k _ _ _ hrun, ?_⟩
  simp only [turn, take_ok _ hrun]
  split <;> rename_i heq <;> cases heq
  · exact absurd rfl (hknown _ _)
  · rfl
  · split
    · exact absurd ‹_› (hplain _ rfl)
    · rfl

theorem turn_opens (finish : Nat) {k : Kind} {t : Lexeme} {o : Statement.Opening} {brace : Span}
    {b : Bool}
    (hrun : (Statement.statement k).run (t :: ts) = .ok (s, ⟨.leftBrace, brace, b⟩ :: us))
    (ho : s.opening? = some o) : ∃ hlt, turn finish k t ts = .opens s o brace us hlt := by
  refine ⟨Nat.lt_trans (Nat.lt_succ_self _) (Statement.strict_statement k _ _ _ hrun), ?_⟩
  simp only [turn, take_ok _ hrun]
  split <;> rename_i heq <;> cases heq
  · cases ho
  · split
    · rename_i ho' _
      cases ho.symm.trans ho'
      rfl
    · rename_i hnone
      exact (hnone o ho rfl).elim

/-- Behind a statement that no block follows, reading goes on. -/
theorem gives_plain (hrun : (Statement.statement d.kind).run ts = .ok (s, us))
    (hknown : ∀ word span, s ≠ .unknown word span)
    (hplain : ∀ u ∈ us.head?, u.token ≠ .leftBrace)
    (h : Gives last opened next (d.add s) us e stop rest) :
    Gives last opened next d ts e stop rest := by
  obtain ⟨t, ts, rfl, ht⟩ := cons_of_run_statement hrun
  obtain ⟨hlt, hturn⟩ := turn_plain last.stop hrun hknown hplain
  have hread : read last opened next d (t :: ts) =
      (read last opened next (d.add s) us).after [] (Nat.le_of_lt hlt) := by
    rw [read, if_neg ht, hturn]
  constructor <;> rw [hread]
  · exact h.definition
  · exact h.numbering
  · exact h.diagnostics
  · exact h.remainder

/-- Behind a statement with a block, the definition of the block is read first. -/
theorem gives_opens {o : Statement.Opening} {brace : Span} {b : Bool} {child : Definition}
    {mid : Nat} {vs : List Lexeme}
    (hrun : (Statement.statement d.kind).run ts = .ok (s, ⟨.leftBrace, brace, b⟩ :: us))
    (ho : s.opening? = some o) (hchild : Gives last brace (next + 1) (o.start next) us child mid vs)
    (h : Gives last opened mid (d.addInlined s child) vs e stop rest) :
    Gives last opened next d ts e stop rest := by
  obtain ⟨t, ts, rfl, ht⟩ := cons_of_run_statement hrun
  obtain ⟨hlt, hturn⟩ := turn_opens last.stop hrun ho
  obtain ⟨rfl, rfl, hnone, rfl⟩ := hchild
  have hread : ∃ hle, read last opened next d (t :: ts) =
      (read last opened (read last brace (next + 1) (o.start next) us).next
        (d.addInlined s (read last brace (next + 1) (o.start next) us).definition)
        (read last brace (next + 1) (o.start next) us).rest).after
        (read last brace (next + 1) (o.start next) us).diagnostics hle := by
    refine ⟨Nat.le_trans (Block.rest_le _) (Nat.le_of_lt hlt), ?_⟩
    rw [read, if_neg ht, hturn]
  obtain ⟨hle, hread⟩ := hread
  rw [hnone] at hread
  constructor <;> rw [hread]
  · exact h.definition
  · exact h.numbering
  · exact h.diagnostics
  · exact h.remainder

end Block

/-! ### Lines of a block -/

namespace Statement

variable {names : String → Prop} {k : Kind} {s : Statement}

theorem withoutInlined_of_none (h : s.inlined? = none) : s.withoutInlined = s := by
  cases s with
  | member sort keyword target inlined =>
    obtain rfl : inlined = none := h
    rfl
  | message direction m =>
    obtain ⟨kind, target, channels, inlined⟩ := m
    obtain rfl : inlined = none := h
    rfl
  | _ => rfl

theorem withInlined_withoutInlined {n : Nat} (h : s.inlined? = some n) :
    s.withoutInlined.withInlined n = s := by
  cases s with
  | member sort keyword target inlined =>
    obtain rfl : inlined = some n := h
    rfl
  | message direction m =>
    obtain ⟨kind, target, channels, inlined⟩ := m
    obtain rfl : inlined = some n := h
    rfl
  | _ => cases h

theorem inlined?_relabel (s : Statement) :
    (s.relabel .forgetSpans).inlined? = s.inlined? := by
  cases s <;> first | rfl | exact Option.map_id'

theorem opening?_withoutInlined (s : Statement) :
    (s.relabel .forgetSpans).withoutInlined.opening? =
      s.opening?.map (Opening.relabel .forgetSpans) := by
  cases s <;> rfl

theorem opening?_isSome_of_inlined? {n : Nat} (h : s.inlined? = some n) :
    ∃ o, s.opening? = some o := by
  cases s <;> first | exact ⟨_, rfl⟩ | cases h

theorem Writable.tokens_ne_nil (h : s.Writable names k) : s.tokens k ≠ [] := by
  cases s with
  | chain steps =>
    cases steps with
    | nil => exact absurd rfl h.1
    | cons step steps => cases step <;> exact List.cons_ne_nil _ _
  | unknown word span => exact h.elim
  | _ => exact List.cons_ne_nil _ _

theorem Writable.ne_unknown (h : s.Writable names k) (word : String) (span : Span) :
    (s.relabel .forgetSpans).withoutInlined ≠ .unknown word span := by
  cases s <;> first | exact h.elim | nofun

/-- A statement begins a block of the definition that it admits. -/
theorem Admits.start {c : Definition} {o : Opening} (h : s.Admits c) (ho : s.opening? = some o) :
    (o.relabel .forgetSpans).start c.id = c.begun := by
  obtain ⟨kind, keyword, ⟨⟨name, span⟩, sel, place⟩⟩ := o
  obtain ⟨hkind, hname, hsel, hplace⟩ := h _ ho
  obtain rfl : kind = c.kind := hkind
  obtain rfl : name = c.name.value := hname
  obtain rfl : sel = .latest := hsel
  rfl

end Statement

/-- These statements make up a block of the kind, with these definitions in place of references. -/
structure Composes (names : String → Prop) (k : Kind) (ss : List Statement)
    (cs : List Definition) : Prop where
  statements : ∀ s ∈ ss, s.Writable names k ∧ s.fits k = true
  triggers : ss.Pairwise fun s t => s.isTrigger = true → t.isTrigger = true
  inlined : ss.filterMap (·.inlined?) = cs.map (·.id)
  admitted : ∀ s ∈ ss, ∀ c ∈ cs, s.inlined? = some c.id → s.Admits c

namespace Composes

variable {names : String → Prop} {k : Kind} {s : Statement} {ss : List Statement}
  {cs : List Definition}

theorem of_cons_none (h : Composes names k (s :: ss) cs) (hs : s.inlined? = none) :
    Composes names k ss cs where
  statements t ht := h.statements t (List.mem_cons_of_mem s ht)
  triggers := h.triggers.of_cons
  inlined := by rw [← h.inlined, List.filterMap_cons_none hs]
  admitted t ht := h.admitted t (List.mem_cons_of_mem s ht)

theorem of_cons_some {n : Nat} (h : Composes names k (s :: ss) cs) (hs : s.inlined? = some n) :
    ∃ c cs', cs = c :: cs' ∧ n = c.id ∧ s.Admits c ∧ Composes names k ss cs' := by
  have hinlined := h.inlined
  rw [List.filterMap_cons_some hs] at hinlined
  cases cs with
  | nil => cases hinlined
  | cons c cs =>
    obtain ⟨rfl, hothers⟩ := List.cons.inj hinlined
    exact ⟨c, cs, rfl, rfl, h.admitted s List.mem_cons_self c List.mem_cons_self hs,
      { statements := fun t ht => h.statements t (List.mem_cons_of_mem s ht)
        triggers := h.triggers.of_cons
        inlined := hothers
        admitted := fun t ht e he =>
          h.admitted t (List.mem_cons_of_mem s ht) e (List.mem_cons_of_mem c he) }⟩

end Composes

theorem Definition.Writable.composes {names : String → Prop} {d : Definition}
    (h : d.Writable names) (hids : (d.nested.map (·.id)).Pairwise (· ≤ ·)) :
    Composes names d.kind d.statements d.nested where
  statements s hs := ⟨h.statements s hs, fits_of_mem_statements hs⟩
  triggers := d.pairwise_isTrigger
  inlined := h.inlined_statements hids
  admitted s hs c hc hsome := h.admitted s (mem_groups_of_inlined? hs hsome) c hc hsome

namespace Block

variable {names : String → Prop} {last opened : Span} {k : Kind} {depth : Nat}

/-- The lexemes of the lines of a block up to its closing brace, and those behind it. -/
def closed (ls : List Line) (rest : List Lexeme) : List Lexeme :=
  ls.flatMap Line.lexemes ++ ⟨.rightBrace, ⟨0, 0⟩, true⟩ :: rest

theorem closed_weave_none {s : Statement} {ss : List Statement} {bs : List (List Line)}
    (h : s.inlined? = none) (rest : List Lexeme) :
    closed (weave depth k (s :: ss) bs) rest =
      lexemes true (s.tokens k) ++ closed (weave depth k ss bs) rest := by
  simp only [closed, weave, h]
  rw [List.flatMap_cons, List.append_assoc]
  rfl

theorem closed_weave_some {s : Statement} {ss : List Statement} {block : List Line}
    {bs : List (List Line)} {n : Nat} (hs : s.Writable names k) (h : s.inlined? = some n)
    (rest : List Lexeme) :
    closed (weave depth k (s :: ss) (block :: bs)) rest =
      lexemes true (s.tokens k) ++ ⟨.leftBrace, ⟨0, 0⟩, false⟩ ::
        closed block (closed (weave depth k ss bs) rest) := by
  simp [closed, weave, h, Line.lexemes, lexemes_append_of_ne_nil hs.tokens_ne_nil]

/-- What follows a statement in a block may follow it, and is no block if none belongs to it. -/
theorem follows_weave (depth : Nat) {s : Statement} {ss : List Statement} (bs : List (List Line))
    (hss : ∀ t ∈ ss, t.Writable names k)
    (htrigger : ∀ t ∈ ss, s.isTrigger = true → t.isTrigger = true) (rest : List Lexeme) :
    s.Precedes (closed (weave depth k ss bs) rest) ∧
      ∀ u ∈ (closed (weave depth k ss bs) rest).head?, u.token ≠ .leftBrace := by
  cases ss with
  | nil => exact ⟨s.precedes_rightBrace, by rintro _ ⟨⟩; simp⟩
  | cons t ss =>
    have ht := hss t List.mem_cons_self
    have hline : ∃ us, closed (weave depth k (t :: ss) bs) rest =
        lexemes true (t.tokens k) ++ us := by
      cases hsome : t.inlined? with
      | none => exact ⟨_, closed_weave_none hsome rest⟩
      | some n =>
        cases bs with
        | nil =>
          refine ⟨closed (weave depth k ss []) rest, ?_⟩
          simp only [closed, weave, hsome]
          rw [List.flatMap_cons, List.append_assoc]
          rfl
        | cons block bs => exact ⟨_, closed_weave_some ht hsome rest⟩
    obtain ⟨us, hline⟩ := hline
    -- a version, behind which no brace may stand, may stand here
    have hversion : (Statement.version ⟨"", ⟨0, 0⟩⟩).Precedes (lexemes true (t.tokens k) ++ us) :=
      Statement.precedes_line ht fun h => by cases h
    rw [hline]
    exact ⟨Statement.precedes_line ht (htrigger t List.mem_cons_self), hversion.brace rfl⟩

/-- A statement and the block of the definition in its place are read, if the block is. -/
theorem gives_inlined {inside behind rest : List Lexeme} {mid stop : Nat} {c d e : Definition}
    {s : Statement} (hs : s.Writable names d.kind) (hfits : s.fits d.kind = true)
    (hsome : s.inlined? = some c.id) (hadmits : s.Admits c)
    (hchild : Gives last ⟨0, 0⟩ (c.id + 1) c.begun inside (c.relabel .forgetSpans) mid behind)
    (h : Gives last opened mid ((d.add (s.relabel .forgetSpans)).withNested
      (d.nested ++ [c.relabel .forgetSpans])) behind e stop rest) :
    Gives last opened c.id d
      (lexemes true (s.tokens d.kind) ++ ⟨.leftBrace, ⟨0, 0⟩, false⟩ :: inside) e stop rest := by
  obtain ⟨o, ho⟩ := Statement.opening?_isSome_of_inlined? hsome
  have hid : (c.relabel .forgetSpans).id = c.id := by
    rw [Definition.relabel_mk]
    rfl
  have hinlined := (Statement.inlined?_relabel s).trans hsome
  rw [← hadmits.start ho] at hchild
  have hbrace : s.Precedes (⟨.leftBrace, ⟨0, 0⟩, false⟩ :: inside) :=
    Statement.precedes_leftBrace (by simp [ho])
  refine gives_opens (Statement.run_statement hs hfits hbrace)
    (by rw [Statement.opening?_withoutInlined, ho]; rfl) hchild ?_
  rw [Definition.addInlined, hid, Statement.withInlined_withoutInlined hinlined,
    Definition.nested_add]
  exact h

/-- In a block these lines are read as the definition, whatever follows the block. -/
def ReadAs (last : Span) (ls : List Line) (d : Definition) : Prop :=
  ∀ ⦃opened : Span⦄ ⦃stop : Nat⦄, Definition.Numbered (d.id + 1) stop d.nested →
    ∀ rest, Gives last opened (d.id + 1) d.begun (closed ls rest) (d.relabel .forgetSpans) stop rest

/-- The lines of a block are read, if the blocks in it are. -/
theorem gives_weave {rest : List Lexeme} {ss : List Statement} {cs : List Definition}
    (h : Composes names k ss cs) (hcs : ∀ c ∈ cs, ReadAs last (c.block (depth + 1)) c)
    {next stop : Nat} (hnumbered : Definition.Numbered next stop cs) {d : Definition}
    (hkind : d.kind = k) :
    Gives last opened next d (closed (weave depth k ss (cs.map (·.block (depth + 1)))) rest)
      ((((ss.map (·.relabel .forgetSpans)).foldl Definition.add d).withNested
        (d.nested ++ cs.map (·.relabel .forgetSpans))).closeAt ⟨0, 0⟩) stop rest := by
  induction ss generalizing cs next d with
  | nil =>
    obtain rfl : cs = [] := List.map_eq_nil_iff.mp h.inlined.symm
    obtain rfl := hnumbered.of_nil
    have hd := congrArg (·.closeAt ⟨0, 0⟩) (Definition.withNested_nested d)
    simp only [List.map_nil, List.append_nil, List.foldl_nil]
    rw [hd]
    exact gives_close _ _
  | cons s ss ih =>
    obtain ⟨hs, hfits⟩ := h.statements s List.mem_cons_self
    have hfollows := follows_weave depth (cs.map (·.block (depth + 1)))
      (fun t ht => (h.statements t (List.mem_cons_of_mem s ht)).1)
      (List.pairwise_cons.mp h.triggers).1 rest
    subst hkind
    cases hsome : s.inlined? with
    | none =>
      rw [closed_weave_none hsome]
      refine gives_plain (Statement.run_statement hs hfits hfollows.1) hs.ne_unknown hfollows.2 ?_
      rw [Statement.withoutInlined_of_none ((Statement.inlined?_relabel s).trans hsome)]
      have hnext := ih (d := d.add (s.relabel .forgetSpans)) (h.of_cons_none hsome) hcs hnumbered
        (Definition.kind_add d _)
      rwa [Definition.nested_add] at hnext
    | some n =>
      obtain ⟨c, cs, rfl, rfl, hadmits, hothers⟩ := h.of_cons_some hsome
      obtain ⟨mid, rfl, hinside, hbehind⟩ := hnumbered.of_cons
      rw [List.map_cons, closed_weave_some hs hsome]
      refine gives_inlined hs hfits hsome hadmits (hcs c List.mem_cons_self hinside _) ?_
      have hnext := ih (d := (d.add (s.relabel .forgetSpans)).withNested
        (d.nested ++ [c.relabel .forgetSpans])) hothers
        (fun e he => hcs e (List.mem_cons_of_mem c he)) hbehind (Definition.kind_add d _)
      rw [Definition.foldl_add_withNested] at hnext
      simpa [Definition.withNested] using hnext

/-- The lines between the braces of a definition are read as the definition. -/
theorem readAs_block {d : Definition} (h : ∀ e ∈ d.all, e.Writable names) (depth : Nat) :
    ReadAs last (d.block depth) d := by
  induction d using Definition.induction generalizing depth with
  | h d ih =>
    intro opened stop hnumbered rest
    have hd := h d d.self_mem_all
    have hinside : ∀ c ∈ d.nested, ∀ e ∈ c.all, e.Writable names := by
      intro c hc e he
      refine h e ?_
      rw [Definition.all_eq]
      exact List.mem_cons_of_mem d (Definition.mem_allOf.mpr ⟨c, hc, he⟩)
    have hresult : (((d.relabel .forgetSpans).withNested []).withNested
        ([] ++ d.nested.map (·.relabel .forgetSpans))).closeAt ⟨0, 0⟩ = d.relabel .forgetSpans := by
      rw [Definition.relabel_mk, Definition.relabelAll_eq_map]
      rfl
    rw [Definition.block_eq, Definition.blocks_eq_map, ← hresult,
      ← Definition.foldl_statements hd.keys hd.lists]
    exact gives_weave (hd.composes hnumbered.pairwise_ids)
      (fun c hc => ih c hc (hinside c hc) (depth + 1)) hnumbered (Body.kind_empty d.kind)

end Block

end EventCatalog.Syntax
