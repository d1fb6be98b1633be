import EventCatalog.Proofs.Syntax.Barred.Statement

/-! # Turns of the loop over actions

A trigger goes on with actions as long as one comes next.  Each action takes at least one lexeme
(`Reader.Advances`), so its loop ends of itself after at most as many turns as there are lexemes
(`Reader.loops_loopTurns`, `Reader.loopTurns_le`).

`Statement.turns?` says how often a statement goes on with this loop.  A statement that can be read
has taken a lexeme for each turn (`Statement.turns_add_le`).  For one that fails there are as many
lexemes to be taken (`Statement.turns_le`), but they are not: they are dropped or read again. -/

namespace EventCatalog.Syntax

open Reader

/-- At least one of the lexemes is taken and the others are the rest. -/
def Consumes (ts rest : List Lexeme) : Prop := ∃ taken, taken ≠ [] ∧ ts = taken ++ rest

theorem consumes_of_suffix {ts rest : List Lexeme} (h : rest <:+ ts)
    (hlt : rest.length < ts.length) : Consumes ts rest := by
  obtain ⟨taken, rfl⟩ := h
  refine ⟨taken, ?_, rfl⟩
  rintro rfl
  exact Nat.lt_irrefl _ hlt

theorem Consumes.length_lt {ts rest : List Lexeme} (h : Consumes ts rest) :
    rest.length < ts.length := by
  obtain ⟨taken, hne, rfl⟩ := h
  have hpos := List.length_pos_iff.mpr hne
  rw [List.length_append]
  omega

/-! ### Loops over a reader -/

namespace Reader

variable {α : Type} {p : Reader (Option α)} {ts rest : List Lexeme}

/-- A turn that gives a value takes at least one lexeme. -/
def Advances (p : Reader (Option α)) : Prop :=
  ∀ ts a rest, p.run ts = .ok (some a, rest) → Consumes ts rest

/-- The loop over a reader that goes on as long as there are values and nothing else ends: the
turns that give a value are counted. -/
inductive Loops (p : Reader (Option α)) :
    List Lexeme → Nat → Except Failure (List α × List Lexeme) → Prop
  | fails {ts : List Lexeme} {e : Failure} (h : p.run ts = .error e) : Loops p ts 0 (.error e)
  | ends {ts rest : List Lexeme} (h : p.run ts = .ok (none, rest)) : Loops p ts 0 (.ok ([], rest))
  | goesOn {ts mid : List Lexeme} {a : α} {n : Nat} {r : Except Failure (List α × List Lexeme)}
      (h : p.run ts = .ok (some a, mid)) (others : Loops p mid n r) :
      Loops p ts (n + 1) (r.map fun (as, rest) => (a :: as, rest))

/-- How many turns of the loop over a reader give a value, whether the loop fails then or not. -/
def loopTurns (p : Reader (Option α)) (ts : List Lexeme) : Nat :=
  match p.run ts with
  | .ok (some _, rest) => if rest.length < ts.length then loopTurns p rest + 1 else 1
  | _ => 0
termination_by ts.length

theorem loopTurns_goesOn {a : α} (h : p.run ts = .ok (some a, rest))
    (hlt : rest.length < ts.length) : loopTurns p ts = loopTurns p rest + 1 := by
  rw [loopTurns, h]
  exact if_pos hlt

/-- The loop takes a lexeme in each turn and ends of itself. -/
theorem loops_loopTurns (hp : p.Advances) (ts : List Lexeme) :
    Loops p ts (loopTurns p ts) ((iterate p).run ts) := by
  change Loops p ts (loopTurns p ts) (iterateRun p ts)
  fun_induction iterateRun p ts with
  | case1 ts e h =>
    rw [loopTurns, h]
    exact .fails h
  | case2 ts rest h =>
    rw [loopTurns, h]
    exact .ends h
  | case3 ts a rest h hlt e hi ih =>
    rw [loopTurns_goesOn h hlt]
    rw [hi] at ih
    exact .goesOn h ih
  | case4 ts a rest h hlt as last hi ih =>
    rw [loopTurns_goesOn h hlt]
    rw [hi] at ih
    exact .goesOn h ih
  | case5 ts a rest h hlt => exact absurd (hp ts a rest h).length_lt hlt

theorem loopTurns_le (hp : p.Advances) (ts : List Lexeme) : loopTurns p ts ≤ ts.length := by
  fun_induction loopTurns p ts with
  | case1 ts a rest h hlt ih => exact Nat.succ_le_of_lt (Nat.lt_of_le_of_lt ih hlt)
  | case2 ts a rest h hlt => exact absurd (hp ts a rest h).length_lt hlt
  | case3 => exact Nat.zero_le _

/-- What a loop that ends well has taken pays for its turns. -/
theorem loopTurns_add_le (hp : p.Advances) {as : List α}
    (h : (iterate p).run ts = .ok (as, rest)) : loopTurns p ts + rest.length ≤ ts.length := by
  change iterateRun p ts = .ok (as, rest) at h
  fun_induction iterateRun p ts generalizing as rest with
  | case1 => cases h
  | case2 ts last hrun =>
    cases h
    rw [loopTurns, hrun, Nat.zero_add]
    exact p.rest_le hrun
  | case3 => cases h
  | case4 ts a mid hrun hlt as' last hi ih =>
    cases h
    have hle := ih hi
    rw [loopTurns_goesOn hrun hlt]
    omega
  | case5 ts a mid hrun hlt => exact absurd (hp ts a mid hrun).length_lt hlt

end Reader

/-! ### Actions of a trigger -/

namespace Statement

open Phrase

variable {α : Type} {k : Kind} {ts rest : List Lexeme} {n : Nat}

theorem strict_action : action.Strict := (strict_reference.labelled _).bind _

theorem advances_ifAction {p : Reader α} (hstrict : p.Strict) (hbarred : p.Barred) :
    (ifAction p).Advances := by
  intro ts a rest h
  obtain ⟨taken, htaken, -⟩ := (barred_ifAction hbarred).taken h
  refine consumes_of_suffix ⟨taken, htaken.symm⟩ ?_
  obtain ⟨next, mid, hnext, h⟩ := run_bind_eq_ok h
  cases hnext
  cases ts with
  | nil => cases h
  | cons t ts =>
    change (if startsAction t.token then some <$> p else pure none).run (t :: ts) = _ at h
    split at h
    · obtain ⟨b, last, hrun, hpure⟩ := run_bind_eq_ok h
      cases hpure
      exact hstrict _ _ _ hrun
    · cases h

theorem advances_action : (ifAction action).Advances :=
  advances_ifAction strict_action barred_action

/-- The keyword and the conditions of a trigger, which come before its actions. -/
def triggerHead : Reader (Span × List Reference) := do
  let start ← keyword "when"
  let conditions ← separated Phrase.reference (keyword "and")
  return (start, conditions)

/-- A trigger with these actions behind its head. -/
def triggerOf (head : Span × List Reference) (actions : List Action) : Trigger :=
  let span := match head.2.getLast? with
    | some last => head.1.union last.span
    | none => head.1
  ⟨head.2, actions, actions.foldl (fun s a => s.union (actionEnd a)) span⟩

/-- Behind the head of a trigger there is the loop over its actions, which decides whether the
trigger can be read. -/
theorem run_triggerClause_of_head {head : Span × List Reference} {mid : List Lexeme}
    (hhead : triggerHead.run ts = .ok (head, mid)) :
    triggerClause.run ts = ((iterate (ifAction action)).run mid).map
      fun (actions, rest) => (triggerOf head actions, rest) := by
  obtain ⟨start, behind, hstart, h⟩ := run_bind_eq_ok hhead
  obtain ⟨conditions, last, hconditions, hpure⟩ := run_bind_eq_ok h
  cases hpure
  refine ((run_bind_ok hstart).trans (run_bind_ok hconditions)).trans ?_
  exact run_map (triggerOf (start, conditions)) (iterate (ifAction action)) mid

/-- How often reading a statement of a block goes on with the loop over the actions of a trigger, if
it comes to such a loop. -/
def turns? (k : Kind) (ts : List Lexeme) : Option Nat :=
  if k = .flow ∧ ts.head?.map Lexeme.token = some (.identifier "when") then
    match triggerHead.run ts with
    | .ok (_, rest) => some (loopTurns (ifAction action) rest)
    | .error _ => none
  else none

/-- The turns of a statement are those of the loop behind the head of a trigger, and its reading is
what this loop makes of it. -/
theorem turns?_eq_some (h : turns? k ts = some n) :
    ∃ head mid, triggerHead.run ts = .ok (head, mid) ∧ n = loopTurns (ifAction action) mid ∧
      (statement k).run ts = ((iterate (ifAction action)).run mid).map
        fun (actions, rest) => (trigger (triggerOf head actions), rest) := by
  unfold turns? at h
  split at h
  · rename_i hwhen
    split at h
    · rename_i head mid hhead
      cases h
      obtain ⟨rfl, hfirst⟩ := hwhen
      obtain ⟨t, ht, hword⟩ := Option.map_eq_some_iff.mp hfirst
      obtain ⟨us, rfl⟩ := List.head?_eq_some_iff.mp ht
      refine ⟨head, mid, hhead, rfl, ?_⟩
      have hclause : (statement .flow).run (t :: us) = (trigger <$> triggerClause).run (t :: us) := by
        change (startingWith .flow t.token).run (t :: us) = _
        rw [hword]
        rfl
      rw [hclause, run_map, run_triggerClause_of_head hhead]
      cases (iterate (ifAction action)).run mid <;> rfl
    · cases h
  · cases h

/-- The keyword and a condition take a lexeme each. -/
theorem add_two_le_of_triggerHead {head : Span × List Reference}
    (h : triggerHead.run ts = .ok (head, rest)) : rest.length + 2 ≤ ts.length := by
  obtain ⟨start, mid, hstart, h⟩ := run_bind_eq_ok h
  obtain ⟨conditions, last, hconditions, hpure⟩ := run_bind_eq_ok h
  cases hpure
  have hkeyword := strict_keyword "when" _ _ _ hstart
  have hcondition := strict_reference.bind _ _ _ _ hconditions
  omega

/-- For each turn there is a lexeme, and there are two more. -/
theorem turns_le (h : turns? k ts = some n) : n + 2 ≤ ts.length := by
  obtain ⟨head, mid, hhead, rfl, -⟩ := turns?_eq_some h
  have hle := loopTurns_le advances_action mid
  have hhead := add_two_le_of_triggerHead hhead
  omega

/-- A statement that can be read takes a lexeme for each turn, and two more. -/
theorem turns_add_le {s : Statement} (h : (statement k).run ts = .ok (s, rest))
    (hturns : turns? k ts = some n) : n + rest.length + 2 ≤ ts.length := by
  obtain ⟨head, mid, hhead, rfl, hrun⟩ := turns?_eq_some hturns
  rw [hrun] at h
  cases hloop : (iterate (ifAction action)).run mid with
  | error e =>
    rw [hloop] at h
    cases h
  | ok result =>
    rw [hloop] at h
    cases h
    have hle := loopTurns_add_le advances_action hloop
    have hhead := add_two_le_of_triggerHead hhead
    omega

end Statement

end EventCatalog.Syntax
