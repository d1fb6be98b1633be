import EventCatalog.Proofs.Printing.Phrases
import EventCatalog.Proofs.Syntax.Natural.Statement

/-! # Written statements are read back

`Statement.run_statement`: a statement that can be written in a block of a kind is read there as
the line it is written on, without its places, and without the definition that may follow in place
of its reference.  What must not follow a statement is gathered in `Statement.Precedes`; the first
token of the next line never does harm (`Statement.precedes_line`). -/

namespace EventCatalog.Syntax

open Token Reader Phrase

namespace Statement

/-- Whether blocks of a kind have such statements. -/
def fits (k : Kind) : Statement → Bool
  | note _ | version _ | .attribute _ _ => true
  | member _ _ _ _ => k == .domain
  | message _ _ => k == .domain || k == .service
  | owns _ => [Kind.domain, .service, .entity, .user, .team].contains k
  | reference role _ =>
    match role with
    | .writesTo | .readsFrom => k == .service || k == .container
    | .readsWrites | .entity => k == .service
    | .route => k == .channel
    | .uses => k == .actor || k == .externalSystem
    | .team => k == .user
    | .member => k == .team
  | parameter _ => k == .channel
  | chain _ | trigger _ => k == .flow
  | input _ | output _ => k == .dataProduct
  | unknown _ _ => false

/-- The statement without the definition in place of its reference. -/
def withoutInlined : Statement → Statement
  | member sort keyword target _ => member sort keyword target none
  | message direction m => message direction { m with inlined := none }
  | s => s

/-- What must not follow a statement: nothing that prolongs its last phrase, no brace unless it may
open a block, and no action behind a trigger. -/
structure Precedes (s : Statement) (rest : List Lexeme) : Prop where
  arrow : NoArrow rest
  connective : ∀ t ∈ rest.head?,
    t.token ∉ [.comma, .leftParen, .identifier "to", .identifier "from", .identifier "and"]
  brace : s.opening? = none → ∀ t ∈ rest.head?, t.token ≠ .leftBrace
  action : ∀ t, s = .trigger t → ∀ u ∈ rest.head?, startsAction u.token = false

namespace Precedes

variable {s : Statement} {rest : List Lexeme} (h : s.Precedes rest)

include h

theorem noSelector : NoSelector rest := h.arrow.selector

theorem token_ne {t : Token}
    (ht : t ∈ [Token.comma, .leftParen, .identifier "to", .identifier "from", .identifier "and"]) :
    ∀ u ∈ rest.head?, u.token ≠ t := fun u hu heq => h.connective u hu (heq ▸ ht)

end Precedes

/-! ### One statement after another -/

variable {k : Kind} {names : String → Prop} {rest : List Lexeme} {b : Bool}

theorem run_anyLexeme (t : Token) :
    anyLexeme.run (⟨t, ⟨0, 0⟩, b⟩ :: rest) = .ok (⟨0, 0⟩, rest) :=
  run_map_ok (run_token_ok (a := ()) rfl)

/-- A statement that a word opens is read as the word says. -/
theorem run_worded (word : String) :
    (statement k).run (⟨.identifier word, ⟨0, 0⟩, b⟩ :: rest) =
      (worded k word).run (⟨.identifier word, ⟨0, 0⟩, b⟩ :: rest) := rfl

/-- A word that opens no attribute opens a statement of the kind. -/
theorem run_special {word : String} (hversion : word ≠ "version")
    (hshape : attributeShape? k word = none) :
    (statement k).run (⟨.identifier word, ⟨0, 0⟩, b⟩ :: rest) =
      (special k word).run (⟨.identifier word, ⟨0, 0⟩, b⟩ :: rest) := by
  rw [run_worded, worded, if_neg hversion, hshape]

theorem run_note (a : Note) (h : (note a).Precedes rest) :
    (statement k).run (lexemes b a.tokens ++ rest) =
      .ok (.note (a.relabel .forgetSpans), rest) := by
  have hstart : (statement k).run (lexemes b a.tokens ++ rest) =
      (Statement.note <$> Phrase.note).run (lexemes b a.tokens ++ rest) := rfl
  rw [hstart]
  exact run_map_ok (Phrase.run_note a (h.token_ne (by decide)))

theorem run_version (v : Located String) :
    (statement k).run (lexemes b (tokens k (.version v)) ++ rest) =
      .ok (.version (v.relabel .forgetSpans), rest) := by
  rw [tokens, lexemes_cons, List.cons_append, run_worded, worded, if_pos rfl, versionStatement,
    run_bind_ok (run_anyLexeme _), run_bind_ok (Phrase.run_version v.value)]
  rfl

theorem attributeShape?_owner (k : Kind) : attributeShape? k "owner" = some (.list "owners") := by
  cases k <;> rfl

theorem attributeShape?_protocol (k : Kind) :
    attributeShape? k "protocol" = none ∨
      attributeShape? k "protocol" = some (.list "protocols") := by
  cases k <;> first | exact .inl rfl | exact .inr rfl

/-- Only lists are written under another word than their key. -/
theorem attributeWord_eq {key : String} {shape : AttributeShape}
    (h : attributeShape? k (attributeWord key) = some shape) (hshape : ∀ g, shape ≠ .list g) :
    attributeWord key = key := by
  unfold attributeWord at h ⊢
  split at h
  · rw [attributeShape?_owner] at h
    cases h
    exact absurd rfl (hshape _)
  split at h
  · obtain hp | hp := attributeShape?_protocol k <;> rw [hp] at h <;> cases h
    exact absurd rfl (hshape _)
  · rw [if_neg ‹_›, if_neg ‹_›]

theorem ne_version_of_attributeShape? {word : String} {shape : AttributeShape}
    (h : attributeShape? k word = some shape) : word ≠ "version" := by
  rintro rfl
  cases k <;> cases h

theorem run_attribute {key : String} {v : Located AttributeValue}
    (h : attributeFits k key v.value = true) :
    (statement k).run (lexemes b (tokens k (.attribute key v)) ++ rest) =
      .ok (.attribute key (v.relabel .forgetSpans), rest) := by
  obtain ⟨value, span⟩ := v
  change attributeFits k key value = true at h
  rw [tokens, lexemes_cons, List.cons_append, run_worded, worded]
  unfold attributeFits at h
  split at h
  · rename_i s hshape
    have hword := attributeWord_eq hshape nofun
    rw [if_neg (ne_version_of_attributeShape? hshape), hshape]
    simp only [attributeTokens, AttributeValue.tokens, lexemes_cons, lexemes_nil, List.cons_append,
      List.nil_append]
    rw [attributeStatement, run_bind_ok (run_anyLexeme _), run_bind_ok (run_value s), hword]
    rfl
  · rename_i flag hshape
    have hword := attributeWord_eq hshape nofun
    have hflag : (optional boolean).run (lexemes false (attributeTokens (.flag flag)) ++ rest) =
        .ok (some ⟨flag, ⟨0, 0⟩⟩, rest) := by
      cases flag <;> exact run_optional_ok (run_token_ok rfl)
    rw [if_neg (ne_version_of_attributeShape? hshape), hshape]
    simp only
    rw [attributeStatement, run_bind_ok (run_anyLexeme _), run_bind_ok hflag, hword]
    rfl
  · rename_i gathered item hshape
    obtain rfl : gathered = key := by simpa using h
    rw [if_neg (ne_version_of_attributeShape? hshape), hshape]
    simp only [attributeTokens, List.map_cons, List.map_nil, lexemes_cons, lexemes_nil,
      List.cons_append, List.nil_append]
    rw [attributeStatement, run_bind_ok (run_anyLexeme _), run_bind_ok (run_value item)]
    rfl
  · cases h

theorem run_member {sort : Section} {keyword : Span} {target : Reference} {inlined : Option Nat}
    (htarget : target.Writable) (hrest : NoSelector rest) :
    (statement .domain).run (lexemes b (tokens .domain (.member sort keyword target inlined)) ++
      rest) = .ok (.member sort ⟨0, 0⟩ (target.relabel .forgetSpans) none, rest) := by
  have hspecial : special .domain sort.word = memberStatement sort := by cases sort <;> rfl
  rw [tokens, lexemes_cons, List.cons_append, run_special (by cases sort <;> decide)
    (by cases sort <;> rfl), hspecial, memberStatement, run_bind_ok (run_anyLexeme _),
    run_bind_ok (run_reference htarget hrest)]
  rfl

theorem run_message {direction : Direction} {m : Message} (hm : m.Writable)
    (hk : k = .domain ∨ k = .service) (hrest : (message direction m).Precedes rest) :
    (statement k).run (lexemes b (m.tokens direction) ++ rest) =
      .ok (.message direction { m.relabel .forgetSpans with inlined := none }, rest) := by
  obtain ⟨kind, target, channels, inlined⟩ := m
  obtain ⟨hkind, htarget, hchannels⟩ := hm
  have hspecial : special k direction.word = messageStatement direction := by
    obtain rfl | rfl := hk <;> cases direction <;> rfl
  have hshape : attributeShape? k direction.word = none := by
    obtain rfl | rfl := hk <;> cases direction <;> rfl
  simp only [Message.tokens, List.cons_append, lexemes_cons, lexemes_append, List.append_assoc]
  rw [run_special (by cases direction <;> decide) hshape, hspecial, messageStatement,
    run_bind_ok (run_anyLexeme _), run_bind_ok (run_messageKind hkind)]
  split
  · rename_i hnil
    have hkeyword : ∃ e, (keyword (channelKeyword direction)).run rest = .error e :=
      run_keyword_error (hrest.token_ne (by cases direction <;> decide))
    rw [lexemes_nil, List.nil_append, run_bind_ok (run_reference htarget hrest.noSelector),
      run_bind_ok (run_optional_error hkeyword)]
    simp only [show channels = [] from hnil]
    rfl
  · rename_i hne
    have hselector : ∀ us, NoSelector
        (⟨.identifier (channelKeyword direction), ⟨0, 0⟩, false⟩ :: us) := fun us =>
      noSelector_cons rfl nofun
    have hlist : (separated Phrase.reference (mark .comma)).run
        (lexemes false (joined .comma (channels.map (·.tokens))) ++ rest) =
        .ok (channels.map (·.relabel .forgetSpans), rest) :=
      run_separated hne (fun c hc us hus => run_reference (hchannels c hc) hus)
        (fun us => run_mark .comma)
        (fun us => noSelector_cons rfl nofun) hrest.noSelector
        (run_mark_error (hrest.token_ne (by decide)))
    rw [lexemes_cons, List.cons_append, run_bind_ok (run_reference htarget (hselector _)),
      run_bind_ok (run_optional_ok (run_keyword _))]
    simp only
    rw [run_bind_ok hlist]
    rfl

theorem run_owns {r : TypedReference} (hr : r.target.Writable)
    (hfits : fits k (.owns r) = true) (hrest : NoSelector rest) :
    (statement k).run (lexemes b (tokens k (.owns r)) ++ rest) =
      .ok (.owns (r.relabel .forgetSpans), rest) := by
  have hspecial : special k "owns" = ownsStatement ∧ attributeShape? k "owns" = none := by
    simp only [fits, List.contains_iff_mem, List.mem_cons, List.not_mem_nil, or_false] at hfits
    rcases hfits with rfl | rfl | rfl | rfl | rfl <;> exact ⟨rfl, rfl⟩
  rw [tokens, lexemes_cons, List.cons_append, run_special (by decide) hspecial.2, hspecial.1,
    ownsStatement, run_bind_ok (run_anyLexeme _), run_bind_ok (run_typedReference hr hrest)]
  rfl

/-- The word for the kind of the target is read where it is written, and no name is taken for
it. -/
theorem run_after {role : Role} {noise : Option String} {written : List Token} {r : Reference}
    (word : String) (hr : r.Writable) (hrest : NoSelector rest)
    (hnoise : written = [] ∧ (∀ w ∈ noise, w ∈ keywords) ∨
      ∃ w, noise = some w ∧ written = [.identifier w]) :
    (after role noise).run
        (⟨.identifier word, ⟨0, 0⟩, b⟩ :: (lexemes false (written ++ r.tokens) ++ rest)) =
      .ok (.reference role (r.relabel .forgetSpans), rest) := by
  unfold after
  rw [run_bind_ok (run_anyLexeme _)]
  obtain ⟨rfl, hkeyword⟩ | ⟨w, rfl, rfl⟩ := hnoise
  · rw [List.nil_append]
    cases noise with
    | none => exact (run_bind_ok (run_reference hr hrest)).trans rfl
    | some w =>
      have hname : ∃ e, (keyword w).run (lexemes false r.tokens ++ rest) = .error e := by
        refine run_keyword_error ?_
        rintro _ ⟨⟩ heq
        have hword : r.name.value = w := Token.identifier.inj heq
        exact hr.1.2 (hword ▸ hkeyword w rfl)
      simp only
      rw [run_bind_ok (run_optional_error hname), run_bind_ok (run_reference hr hrest)]
      rfl
  · simp only [List.cons_append, List.nil_append, lexemes_cons]
    rw [run_bind_ok (run_optional_ok (run_keyword w)), run_bind_ok (run_reference hr hrest)]
    rfl

theorem run_roleReference {role : Role} {r : Reference} (hr : r.Writable)
    (hfits : fits k (.reference role r) = true) (hrest : NoSelector rest) :
    (statement k).run (lexemes b (tokens k (.reference role r)) ++ rest) =
      .ok (.reference role (r.relabel .forgetSpans), rest) := by
  have hrole : ∃ noise, special k role.word = after role noise ∧
      attributeShape? k role.word = none ∧ (role.noise k = [] ∧ (∀ w ∈ noise, w ∈ keywords) ∨
        ∃ w, noise = some w ∧ role.noise k = [.identifier w]) := by
    cases role <;> simp only [fits, Bool.or_eq_true, beq_iff_eq] at hfits
    case writesTo | readsFrom =>
      obtain rfl | rfl := hfits
      · exact ⟨some "container", rfl, rfl, .inr ⟨_, rfl, rfl⟩⟩
      · exact ⟨some "service", rfl, rfl, .inl ⟨rfl, by rintro _ ⟨⟩; decide⟩⟩
    case readsWrites =>
      subst hfits
      exact ⟨some "container", rfl, rfl, .inr ⟨_, rfl, rfl⟩⟩
    case uses => obtain rfl | rfl := hfits <;> exact ⟨none, rfl, rfl, .inl ⟨rfl, nofun⟩⟩
    all_goals
      subst hfits
      exact ⟨none, rfl, rfl, .inl ⟨rfl, nofun⟩⟩
  obtain ⟨noise, hspecial, hshape, hnoise⟩ := hrole
  rw [tokens, List.cons_append, lexemes_cons, List.cons_append,
    run_special (by cases role <;> decide) hshape, hspecial]
  exact run_after _ hr hrest hnoise

theorem run_parameter {p : Parameter} (hp : p.Writable) (hrest : (parameter p).Precedes rest) :
    (statement .channel).run (lexemes b p.tokens ++ rest) =
      .ok (.parameter (p.relabel .forgetSpans), rest) := by
  have hstart : (statement .channel).run (lexemes b p.tokens ++ rest) =
      (Statement.parameter <$> Phrase.parameter).run (lexemes b p.tokens ++ rest) :=
    run_special (by decide) rfl
  rw [hstart]
  exact run_map_ok (Phrase.run_parameter hp (hrest.brace rfl))

/-! ### Flows -/

theorem run_chainStatement {steps : List Step} (hne : steps ≠ [])
    (hsteps : ∀ s ∈ steps, s.Writable) (hrest : NoArrow rest) :
    (statement .flow).run (lexemes b (joined .arrow (steps.map (·.tokens))) ++ rest) =
      .ok (.chain (steps.map (·.relabel .forgetSpans)), rest) := by
  have hstart : (statement .flow).run (lexemes b (joined .arrow (steps.map (·.tokens))) ++ rest) =
      (Statement.chain <$> Phrase.chain).run
        (lexemes b (joined .arrow (steps.map (·.tokens))) ++ rest) := by
    cases steps with
    | nil => exact absurd rfl hne
    | cons s steps =>
      cases s with
      | node label => rfl
      | reference target label =>
        have hname : IsName target.name.value := (hsteps _ List.mem_cons_self).1
        have hflow : special .flow target.name.value = Statement.chain <$> Phrase.chain :=
          if_neg (hname.ne (by decide))
        rw [← hflow]
        exact run_special (hname.ne (by decide)) (hname.attributeShape? .flow)
  rw [hstart]
  exact run_map_ok (run_chain hne hsteps hrest)

theorem startsAction_of_isName {s : String} (hs : IsName s) :
    startsAction (.identifier s) = true := by
  simp [startsAction, hs.ne (show "when" ∈ keywords by decide),
    hs.ne (show "version" ∈ keywords by decide), hs.attributeShape? .flow]

theorem run_ifAction {α : Type} {p : Reader α} {a : α} {t : Lexeme} {ts : List Lexeme}
    (ht : startsAction t.token = true) (h : p.run (t :: ts) = .ok (a, rest)) :
    (ifAction p).run (t :: ts) = .ok (some a, rest) := by
  have hnext : (next? : Reader (Option Lexeme)).run (t :: ts) = .ok (some t, t :: ts) := rfl
  rw [ifAction, run_bind_ok hnext]
  simp only [ht, if_true]
  exact (run_bind_ok h).trans rfl

theorem run_ifAction_none {α : Type} {p : Reader α}
    (h : ∀ t ∈ rest.head?, startsAction t.token = false) :
    (ifAction p).run rest = .ok (none, rest) := by
  have hnext : (next? : Reader (Option Lexeme)).run rest = .ok (rest.head?, rest) := rfl
  rw [ifAction, run_bind_ok hnext]
  cases rest with
  | nil => rfl
  | cons t rest =>
    simp only [List.head?_cons, h t rfl]
    rfl

theorem noArrow_word (word : String) :
    NoArrow (⟨.identifier word, ⟨0, 0⟩, b⟩ :: rest) :=
  ⟨noSelector_cons rfl nofun, by rintro _ ⟨⟩ _; rfl,
    by rintro _ ⟨⟩; nofun⟩

/-- Actions are read one after another. -/
theorem run_actions {actions : List Action} (hactions : ∀ a ∈ actions, a.Writable)
    (hrest : NoArrow rest) (hstop : ∀ t ∈ rest.head?, startsAction t.token = false) :
    (iterate (ifAction action)).run (lexemes false (actions.flatMap (·.tokens)) ++ rest) =
      .ok (actions.map (·.relabel .forgetSpans), rest) := by
  rw [lexemes_flatMap]
  exact run_iterate (F := NoArrow)
    (fun a ha us hus => run_ifAction (startsAction_of_isName (hactions a ha).1.1)
      (run_action (hactions a ha) hus))
    (fun _ _ => List.cons_ne_nil _ _) (fun _ _ _ => noArrow_word _) hrest
    (run_ifAction_none hstop)

/-- Behind conditions come actions, which names open, or what follows the trigger. -/
theorem follows_conditions {actions : List Action} (hactions : ∀ a ∈ actions, a.Writable)
    (hrest : NoSelector rest) (hand : ∀ t ∈ rest.head?, t.token ≠ .identifier "and") :
    NoSelector (lexemes false (actions.flatMap (·.tokens)) ++ rest) ∧
      ∀ t ∈ (lexemes false (actions.flatMap (·.tokens)) ++ rest).head?,
        t.token ≠ .identifier "and" := by
  cases actions with
  | nil => exact ⟨hrest, hand⟩
  | cons a actions =>
    have hname : IsName a.target.name.value := (hactions a List.mem_cons_self).1.1
    refine ⟨noSelector_cons rfl nofun, ?_⟩
    rintro _ ⟨⟩ heq
    exact hname.ne (by decide) (Token.identifier.inj heq)

/-- Without places, a trigger ends where it starts. -/
theorem triggerSpan_eq (conditions : List Reference) (actions : List Action) :
    (actions.map (·.relabel .forgetSpans)).foldl (fun s a => s.union (actionEnd a))
      (match (conditions.map (·.relabel .forgetSpans)).getLast? with
      | some last => (⟨0, 0⟩ : Span).union last.span
      | none => ⟨0, 0⟩) = ⟨0, 0⟩ := by
  have hf := Relabelling.coherent_forgetSpans
  have hhead : (match (conditions.map (·.relabel .forgetSpans)).getLast? with
      | some last => (⟨0, 0⟩ : Span).union last.span
      | none => ⟨0, 0⟩) = (Relabelling.forgetSpans).whole ⟨0, 0⟩ := by
    rw [List.getLast?_map]
    cases conditions.getLast? with
    | none => rfl
    | some last =>
      rw [Option.map_some]
      simp only
      rw [span_relabel hf]
      rfl
  rw [hhead, foldl_actionEnd_relabel hf]
  rfl

theorem run_triggerClause {t : Trigger} (ht : t.Writable) (hrest : (trigger t).Precedes rest) :
    triggerClause.run (lexemes b t.tokens ++ rest) = .ok (t.relabel .forgetSpans, rest) := by
  obtain ⟨conditions, actions, span⟩ := t
  obtain ⟨hne, hconditions, hactions⟩ := ht
  have hand : ∀ us : List Lexeme, (keyword "and").run (⟨.identifier "and", ⟨0, 0⟩, false⟩ :: us) =
      .ok (⟨0, 0⟩, us) := fun us => run_keyword "and"
  obtain ⟨hselector, hstop⟩ := follows_conditions hactions hrest.noSelector
    (hrest.token_ne (by decide))
  simp only [Trigger.tokens, List.cons_append, lexemes_cons, lexemes_append, List.append_assoc]
  rw [triggerClause, run_bind_ok (run_keyword "when"),
    run_bind_ok (run_separated hne (fun c hc us hus => run_reference (hconditions c hc) hus) hand
      (fun us => (noArrow_word "and").selector) hselector (run_keyword_error hstop)),
    run_bind_ok (run_actions hactions hrest.arrow (hrest.action _ rfl))]
  exact congrArg (fun s => Except.ok ((⟨_, _, s⟩ : Trigger), rest))
    (triggerSpan_eq conditions actions)

theorem run_trigger {t : Trigger} (ht : t.Writable) (hrest : (trigger t).Precedes rest) :
    (statement .flow).run (lexemes b t.tokens ++ rest) =
      .ok (.trigger (t.relabel .forgetSpans), rest) := by
  have hstart : (statement .flow).run (lexemes b t.tokens ++ rest) =
      (Statement.trigger <$> triggerClause).run (lexemes b t.tokens ++ rest) :=
    run_special (by decide) rfl
  rw [hstart]
  exact run_map_ok (run_triggerClause ht hrest)

/-! ### Data products -/

theorem run_input {r : TypedReference} (hr : r.target.Writable) (hrest : NoSelector rest) :
    (statement .dataProduct).run (lexemes b (tokens .dataProduct (.input r)) ++ rest) =
      .ok (.input (r.relabel .forgetSpans), rest) := by
  have hspecial : special .dataProduct "input" = (do
      let _ ← anyLexeme
      return .input (← typedReference)) := rfl
  rw [tokens, lexemes_cons, List.cons_append, run_special (by decide) rfl, hspecial,
    run_bind_ok (run_anyLexeme _), run_bind_ok (run_typedReference hr hrest)]
  rfl

theorem run_outputStatement {p : Product} (hp : p.Writable) (hrest : (output p).Precedes rest) :
    (statement .dataProduct).run (lexemes b (tokens .dataProduct (.output p)) ++ rest) =
      .ok (.output (p.relabel .forgetSpans), rest) := by
  obtain ⟨target, entries⟩ := p
  obtain ⟨htarget, hkeys, -⟩ := hp
  have hspecial : special .dataProduct "output" = outputStatement := rfl
  have hnext : ∀ ts, (nextIs .leftBrace).run ts =
      .ok (ts.head?.any (·.token == .leftBrace), ts) := fun _ => rfl
  simp only [tokens, List.cons_append, lexemes_cons, lexemes_append, List.append_assoc]
  rw [run_special (by decide) rfl, hspecial, outputStatement, run_bind_ok (run_anyLexeme _)]
  by_cases hne : entries = []
  · have hbrace : rest.head?.any (·.token == .leftBrace) = false := by
      cases rest with
      | nil => rfl
      | cons t rest => simpa using hrest.brace rfl t rfl
    rw [hne, contractTokens, if_pos rfl, lexemes_nil, List.nil_append,
      run_bind_ok (run_typedReference htarget hrest.noSelector), run_bind_ok (hnext rest), hbrace]
    rfl
  · have hselector : NoSelector (lexemes false (contractTokens entries) ++ rest) := by
      rw [contractTokens, if_neg hne]
      exact noSelector_cons rfl (by simp)
    have hbrace : (lexemes false (contractTokens entries) ++ rest).head?.any
        (·.token == .leftBrace) = true := by
      rw [contractTokens, if_neg hne]
      rfl
    rw [run_bind_ok (run_typedReference htarget hselector), run_bind_ok (hnext _), hbrace]
    exact (run_bind_ok (run_contract hkeys hne)).trans rfl

/-! ### All statements -/

/-- A statement is read back from its line. -/
theorem run_statement {s : Statement} (h : s.Writable names k) (hfits : s.fits k = true)
    (hrest : s.Precedes rest) :
    (statement k).run (lexemes true (s.tokens k) ++ rest) =
      .ok ((s.relabel .forgetSpans).withoutInlined, rest) := by
  cases s with
  | note a => exact run_note a hrest
  | version v => exact run_version v
  | «attribute» key v => exact run_attribute h
  | member sort keyword target inlined =>
    obtain rfl : k = .domain := by simpa [fits] using hfits
    exact run_member h hrest.noSelector
  | message direction m =>
    exact run_message h (by simpa [fits] using hfits) hrest
  | owns r => exact run_owns h hfits hrest.noSelector
  | reference role r => exact run_roleReference h hfits hrest.noSelector
  | parameter p =>
    obtain rfl : k = .channel := by simpa [fits] using hfits
    exact run_parameter h hrest
  | chain steps =>
    obtain rfl : k = .flow := by simpa [fits] using hfits
    exact run_chainStatement h.1 h.2 hrest.arrow
  | trigger t =>
    obtain rfl : k = .flow := by simpa [fits] using hfits
    exact run_trigger h hrest
  | input r =>
    obtain rfl : k = .dataProduct := by simpa [fits] using hfits
    exact run_input h hrest.noSelector
  | output p =>
    obtain rfl : k = .dataProduct := by simpa [fits] using hfits
    exact run_outputStatement h hrest
  | unknown _ _ => exact h.elim

end Statement

end EventCatalog.Syntax
