import EventCatalog.Proofs.Workspace.Run

/-! # What a generation identifies

A workspace counts the links it makes.  A request keeps the workspace, or it changes the documents
and drops the link, or it makes a link under the next number (`Workspace.perform_cases`).  So a link
that is given up does not come back under its number (`Workspace.Since.behind`).

The main result is `Workspace.generation_identifies_link`: the generation grows exactly when a link
is made, one link stands behind all answers of one generation, and answers that follow a change are
of later generations. -/

namespace EventCatalog

namespace Workspace

/-- Whether a request is answered from a link. -/
def Request.isQuery : Request → Bool
  | .diagnostics _ | .graph | .table | .complete _ _ => true
  | .update .. | .remove _ | .relink | .version _ | .text _ | .format _ => false

/-- What a link tells a query. -/
def answerFrom (w : Workspace) (linked : Linked) : Request → Option Answer
  | .diagnostics path => some (.diagnostics (FileDiagnostic.of path linked.diagnostics))
  | .graph => some (.graph linked.graph)
  | .table => some (.table linked.table)
  | .complete path cursor => some (.items (w.itemsAt linked path cursor))
  | .update .. | .remove _ | .relink | .version _ | .text _ | .format _ => none

/-- A request builds a table if it leaves a link behind that was not there before. -/
def Builds (w : Workspace) (r : Request) : Prop :=
  ∃ linked, (w.perform r).2.linked = some linked ∧ w.linked ≠ some linked

/-! ### One request -/

/-- A workspace that holds a link is kept, and one that does not is relinked. -/
theorem link_cases (w : Workspace) :
    w.link.2.linked = some w.link.1 ∧ (w.link.2 = w ∨ w.linked = none ∧ w.link.2 = w.relink.2) := by
  unfold link
  cases hlinked : w.linked with
  | some linked => exact ⟨hlinked, .inl rfl⟩
  | none => exact ⟨rfl, .inr ⟨rfl, rfl⟩⟩

/-- What a request can do to a workspace. -/
inductive Outcome (w : Workspace) (r : Request) : Prop
  /-- Nothing happens. -/
  | kept (hstate : (w.perform r).2 = w) (hanswer : (w.perform r).1 ≠ .changed true)
  /-- The documents change, and no link is left. -/
  | changed (hlinked : (w.perform r).2.linked = none)
      (hgeneration : (w.perform r).2.generation = w.generation)
  /-- A link is made. -/
  | linked (hstate : (w.perform r).2 = w.relink.2) (hanswer : (w.perform r).1 ≠ .changed true)

theorem outcome_of_link {w : Workspace} {r : Request} (hstate : (w.perform r).2 = w.link.2)
    (hanswer : (w.perform r).1 ≠ .changed true) : w.Outcome r := by
  obtain ⟨-, hkept | ⟨-, hmade⟩⟩ := w.link_cases
  · exact .kept (hstate.trans hkept) hanswer
  · exact .linked (hstate.trans hmade) hanswer

theorem perform_cases (w : Workspace) (r : Request) : w.Outcome r := by
  cases r with
  | update path text version =>
    cases hnewer : w.isNewer path version with
    | false =>
      refine .kept (update_of_refused hnewer) ?_
      intro hanswer
      have hdone := Answer.changed.inj hanswer
      rw [hnewer] at hdone
      cases hdone
    | true =>
      have hstate : (w.perform (.update path text version)).2 = _ := if_pos hnewer
      exact .changed (by rw [hstate]) (by rw [hstate])
  | remove path =>
    cases hopen : w.isOpen path with
    | false =>
      refine .kept (Holds.remove_of_closed hopen) ?_
      intro hanswer
      have hdone := Answer.changed.inj hanswer
      rw [hopen] at hdone
      cases hdone
    | true =>
      rw [isOpen] at hopen
      cases hposition : w.position path with
      | missing index => rw [hposition] at hopen; cases hopen
      | found index =>
        have hstate : (w.perform (.remove path)).2 = w.remove path := rfl
        rw [remove, hposition] at hstate
        exact .changed (by rw [hstate]) (by rw [hstate])
  | relink => exact .linked rfl Answer.noConfusion
  | version path => exact .kept rfl Answer.noConfusion
  | text path => exact .kept rfl Answer.noConfusion
  | format path => exact .kept rfl Answer.noConfusion
  | diagnostics path => exact outcome_of_link rfl Answer.noConfusion
  | graph => exact outcome_of_link rfl Answer.noConfusion
  | table => exact outcome_of_link rfl Answer.noConfusion
  | complete path cursor => exact outcome_of_link rfl Answer.noConfusion

/-- A query is answered from the link that it leaves behind. -/
theorem exists_answerFrom (w : Workspace) {r : Request} (hquery : r.isQuery = true) :
    ∃ linked, (w.perform r).2.linked = some linked ∧
      some (w.perform r).1 = (w.perform r).2.answerFrom linked r := by
  have hheld := w.link_cases.1
  refine ⟨w.link.1, ?_, ?_⟩
  · cases r with
    | diagnostics path => exact hheld
    | graph => exact hheld
    | table => exact hheld
    | complete path cursor => exact hheld
    | _ => cases hquery
  · cases r with
    | diagnostics path => rfl
    | graph => rfl
    | table => rfl
    | complete path cursor => rfl
    | _ => cases hquery

/-- Where a held link carries the number of the workspace, that number grows by one exactly when a
table is built. -/
theorem generation_perform {w : Workspace} {texts : OpenTexts} (h : w.Holds texts) (r : Request) :
    w.Builds r ∧ (w.perform r).2.generation = w.generation + 1 ∨
      ¬ w.Builds r ∧ (w.perform r).2.generation = w.generation := by
  obtain ⟨hstate, -⟩ | ⟨hlinked, hgeneration⟩ | ⟨hstate, -⟩ := w.perform_cases r
  · refine .inr ⟨?_, by rw [hstate]⟩
    rintro ⟨linked, hafter, hbefore⟩
    rw [hstate] at hafter
    exact hbefore hafter
  · refine .inr ⟨?_, hgeneration⟩
    rintro ⟨linked, hafter, -⟩
    rw [hlinked] at hafter
    cases hafter
  · refine .inl ⟨⟨w.relink.1, by rw [hstate]; rfl, fun hbefore => ?_⟩, by rw [hstate]; rfl⟩
    -- The new table has a number that the held one does not have.
    have hfresh := congrArg (fun l => l.table.generation) (h.fresh _ hbefore)
    change w.generation + 1 = w.generation at hfresh
    omega

/-! ### Later requests -/

/-- What is known of a workspace that once had a generation and, with it, a link or none: it is
still of this generation and has that link or none, or its generation is later. -/
def Since (held : Option Linked) (generation : Nat) (w : Workspace) : Prop :=
  w.generation = generation ∧ (w.linked = held ∨ w.linked = none) ∨ generation < w.generation

namespace Since

variable {w : Workspace} {held : Option Linked} {generation : Nat}

theorem perform (h : w.Since held generation) (r : Request) :
    (w.perform r).2.Since held generation := by
  obtain ⟨hstate, -⟩ | ⟨hlinked, hgeneration⟩ | ⟨hstate, -⟩ := w.perform_cases r
  · rw [hstate]
    exact h
  · obtain ⟨heq, -⟩ | hlater := h
    · exact .inl ⟨hgeneration.trans heq, .inr hlinked⟩
    · exact .inr (by rw [hgeneration]; exact hlater)
  · have hnext : (w.perform r).2.generation = w.generation + 1 := by rw [hstate]; rfl
    refine .inr ?_
    obtain ⟨heq, -⟩ | hlater := h <;> omega

theorem behind (h : w.Since held generation) (requests : List Request) :
    (w.behind requests).Since held generation :=
  behind_of_perform (fun _ r h => h.perform r) h requests

end Since

theorem generation_le_behind (w : Workspace) (requests : List Request) :
    w.generation ≤ (w.behind requests).generation := by
  have h : w.Since w.linked w.generation := .inl ⟨rfl, .inl rfl⟩
  obtain ⟨heq, -⟩ | hlater := h.behind requests <;> omega

theorem behind_append_singleton (w : Workspace) (before : List Request) (r : Request) :
    w.behind (before ++ [r]) = ((w.behind before).perform r).2 :=
  w.behind_append before [r]

/-- Two links that are held at two places of one run under the same number are the same link. -/
theorem linked_unique (w : Workspace) {run before before' : List Request} {l l' : Linked}
    (hrun : before <+: run) (hrun' : before' <+: run) (hl : (w.behind before).linked = some l)
    (hl' : (w.behind before').linked = some l')
    (hgeneration : (w.behind before).generation = (w.behind before').generation) : l = l' := by
  wlog hprefix : before <+: before' generalizing before before' l l'
  · obtain hle | hle := List.prefix_or_prefix_of_prefix hrun hrun'
    · exact absurd hle hprefix
    · exact (this hrun' hrun hl' hl hgeneration.symm hle).symm
  obtain ⟨between, rfl⟩ := hprefix
  rw [behind_append] at hl' hgeneration
  have h : (w.behind before).Since (some l) (w.behind before).generation := .inl ⟨rfl, .inl hl⟩
  obtain ⟨-, heq | hnone⟩ | hlater := h.behind between
  · rw [hl'] at heq
    exact (Option.some.inj heq).symm
  · rw [hl'] at hnone
    cases hnone
  · omega

/-- A change leaves no link, so a link that is held later has a later number. -/
theorem generation_lt_of_changed {w : Workspace} {r : Request}
    (hchanged : (w.perform r).1 = .changed true) (requests : List Request) {linked : Linked}
    (hheld : (w.behind (r :: requests)).linked = some linked) :
    w.generation < (w.behind (r :: requests)).generation := by
  have hdropped : (w.perform r).2.Since none w.generation := by
    obtain ⟨-, hanswer⟩ | ⟨hlinked, hgeneration⟩ | ⟨-, hanswer⟩ := w.perform_cases r
    · exact absurd hchanged hanswer
    · exact .inl ⟨hgeneration, .inl hlinked⟩
    · exact absurd hchanged hanswer
  rw [behind_cons] at hheld ⊢
  obtain ⟨-, hnone | hnone⟩ | hlater := hdropped.behind requests
  · rw [hnone] at hheld
    cases hheld
  · rw [hnone] at hheld
    cases hheld
  · exact hlater

/-! ### Runs -/

/-- The queries of a run find one link for each generation. -/
theorem exists_links (w : Workspace) (run : List Request) :
    ∃ links : Nat → Linked, ∀ before q, before ++ [q] <+: run → q.isQuery = true →
      (w.behind (before ++ [q])).linked =
        some (links (w.behind (before ++ [q])).generation) := by
  have hone : ∀ generation, ∃ linked, ∀ before q, before ++ [q] <+: run → q.isQuery = true →
      generation = (w.behind (before ++ [q])).generation →
      (w.behind (before ++ [q])).linked = some linked := by
    intro generation
    by_cases hsome : ∃ before q, before ++ [q] <+: run ∧ q.isQuery = true ∧
      generation = (w.behind (before ++ [q])).generation
    · obtain ⟨before, q, hrun, hquery, rfl⟩ := hsome
      obtain ⟨linked, hlinked, -⟩ := exists_answerFrom (w.behind before) hquery
      rw [← behind_append_singleton] at hlinked
      refine ⟨linked, fun before' q' hrun' hquery' hgeneration => ?_⟩
      obtain ⟨linked', hlinked', -⟩ := exists_answerFrom (w.behind before') hquery'
      rw [← behind_append_singleton] at hlinked'
      rw [hlinked', linked_unique w hrun hrun' hlinked hlinked' hgeneration]
    · exact ⟨w.link.1, fun before q hrun hquery hgeneration =>
        absurd ⟨before, q, hrun, hquery, hgeneration⟩ hsome⟩
  choose links hlinks using hone
  exact ⟨links, fun before q hrun hquery => hlinks _ before q hrun hquery rfl⟩

/-- In every run from an empty workspace: the generation grows by one with each request that builds
a table, and with no other; there is one link for each generation, made of the documents that are
open when it answers, from which all queries of that generation are answered; and queries that
follow a change are answered from tables of later generations. -/
theorem generation_identifies_link (config : Config) (run : List Request) :
    let start : Workspace := { config }
    (∀ before r, before ++ [r] <+: run →
      let w := start.behind before
      w.Builds r ∧ (w.perform r).2.generation = w.generation + 1 ∨
        ¬ w.Builds r ∧ (w.perform r).2.generation = w.generation) ∧
    (∀ before after, before ++ after <+: run →
      (start.behind before).generation ≤ (start.behind (before ++ after)).generation) ∧
    ∃ links : Nat → Linked,
      (∀ before q, before ++ [q] <+: run → q.isQuery = true →
        let w := start.behind (before ++ [q])
        links w.generation = Linked.link config w.generation w.documents ∧
          some ((start.behind before).perform q).1 = w.answerFrom (links w.generation) q) ∧
      ∀ before r between q, before ++ r :: (between ++ [q]) <+: run → q.isQuery = true →
        ((start.behind before).perform r).1 = .changed true →
        (start.behind before).generation <
          (links (start.behind (before ++ r :: (between ++ [q]))).generation).table.generation := by
  intro start
  obtain ⟨links, hlinks⟩ := exists_links start run
  have hlink : ∀ before q, before ++ [q] <+: run → q.isQuery = true →
      links (start.behind (before ++ [q])).generation =
        Linked.link config (start.behind (before ++ [q])).generation
          (start.behind (before ++ [q])).documents := by
    intro before q hrun hquery
    have h := (Holds.empty config).behind (before ++ [q])
    have hfresh := h.fresh _ (hlinks before q hrun hquery)
    rw [config_behind] at hfresh
    exact hfresh
  refine ⟨fun before r hrun => ?_, fun before after hrun => ?_, links,
    fun before q hrun hquery => ⟨hlink before q hrun hquery, ?_⟩,
    fun before r between q hrun hquery hchanged => ?_⟩
  · have h := (Holds.empty config).behind before
    exact generation_perform h r
  · rw [behind_append]
    exact generation_le_behind _ after
  · obtain ⟨linked, hlinked, hanswer⟩ := exists_answerFrom (start.behind before) hquery
    rw [← behind_append_singleton] at hlinked hanswer
    have hheld := hlinks before q hrun hquery
    rw [hlinked] at hheld
    rw [← Option.some.inj hheld]
    exact hanswer
  · have hassoc : before ++ r :: (between ++ [q]) = (before ++ r :: between) ++ [q] := by simp
    rw [hassoc] at hrun
    have hheld := hlinks (before ++ r :: between) q hrun hquery
    have hmade := hlink (before ++ r :: between) q hrun hquery
    rw [← hassoc] at hheld hmade
    rw [hmade]
    change _ < (start.behind (before ++ r :: (between ++ [q]))).generation
    rw [behind_append] at hheld ⊢
    exact generation_lt_of_changed hchanged (between ++ [q]) hheld

end Workspace

end EventCatalog
