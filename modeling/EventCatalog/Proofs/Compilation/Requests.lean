import EventCatalog.Proofs.Compilation.Closure

/-! # What a resolver is asked for

Loading makes some of the calls that the statements of the documents it goes through could make, in
their order (`Loading.Asks`): one for every document that is not known, and no more for one whose
text or failure has been told.  The steps of a round put together make the round, and the rounds
make the whole (`asks_loadFrom`).  Answers that are not called for do not matter
(`loadFrom_congr`). -/

namespace EventCatalog.Import

open Syntax Loading

variable {answer : DocumentPath → ImportAnswer}

/-- The complaint about a call that the resolver fails on. -/
def Call.failure? (resolve : ImportResolver) (c : Call) : Option FileDiagnostic :=
  match resolve c.path c.specifier with
  | .failure message => some ⟨c.path, Loading.failed c.statement message⟩
  | _ => none

/-- Between two states the calls `asked` among `cs` have been made. -/
structure Loading.Asks (answer : DocumentPath → ImportAnswer) (s s' : Loading)
    (cs asked : List Call) : Prop where
  sublist : asked.Sublist cs
  calls : s'.calls = s.calls ++ asked
  failures : s'.failures = s.failures ++ asked.filterMap (Call.failure? (byTarget answer))
  /-- What is known stays known. -/
  known : ∀ p ∈ s.known, p ∈ s'.known
  /-- What is new has been asked for. -/
  known_of : ∀ p ∈ s'.known, p ∈ s.known ∨ p ∈ asked.map Call.target
  /-- Nothing known is asked for. -/
  fresh : ∀ c ∈ asked, c.target ∉ s.known
  /-- What has been answered is known. -/
  settled : ∀ c ∈ asked, answer c.target ≠ .unknown → c.target ∈ s'.known
  /-- What has been answered is not asked for again. -/
  once : asked.Pairwise fun c d => answer c.target ≠ .unknown → d.target ≠ c.target
  /-- All that is not known is asked for. -/
  complete : ∀ c ∈ cs, c.target ∈ s.known ∨ c.target ∈ asked.map Call.target

namespace Loading

theorem Asks.nil (answer : DocumentPath → ImportAnswer) (s : Loading) : Asks answer s s [] [] where
  sublist := List.Sublist.slnil
  calls := (List.append_nil _).symm
  failures := (List.append_nil _).symm
  known _ h := h
  known_of _ h := .inl h
  fresh _ h := by cases h
  settled _ h := by cases h
  once := .nil
  complete _ h := by cases h

/-- Runs one after another. -/
theorem Asks.append {s s' s'' : Loading} {cs ds asked asked' : List Call}
    (h : Asks answer s s' cs asked) (h' : Asks answer s' s'' ds asked') :
    Asks answer s s'' (cs ++ ds) (asked ++ asked') where
  sublist := h.sublist.append h'.sublist
  calls := by rw [h'.calls, h.calls, List.append_assoc]
  failures := by rw [h'.failures, h.failures, List.filterMap_append, List.append_assoc]
  known p hp := h'.known p (h.known p hp)
  known_of p hp := by
    rw [List.map_append, List.mem_append]
    obtain hp | hp := h'.known_of p hp
    · exact (h.known_of p hp).imp_right .inl
    · exact .inr (.inr hp)
  fresh x hx := by
    obtain hx | hx := List.mem_append.mp hx
    · exact h.fresh x hx
    · exact fun hknown => h'.fresh x hx (h.known _ hknown)
  settled x hx hanswer := by
    obtain hx | hx := List.mem_append.mp hx
    · exact h'.known _ (h.settled x hx hanswer)
    · exact h'.settled x hx hanswer
  once := by
    refine List.pairwise_append.mpr ⟨h.once, h'.once, fun x hx y hy hanswer heq => ?_⟩
    exact h'.fresh y hy (heq ▸ h.settled x hx hanswer)
  complete x hx := by
    rw [List.map_append, List.mem_append]
    obtain hx | hx := List.mem_append.mp hx
    · exact (h.complete x hx).imp_right .inl
    · obtain hknown | hasked := h'.complete x hx
      · exact (h.known_of _ hknown).imp_right .inl
      · exact .inr (.inr hasked)

theorem asks_of_known {s : Loading} {c : Call} (h : c.target ∈ s.known) :
    Asks answer s s [c] [] where
  sublist := List.nil_sublist _
  calls := (List.append_nil _).symm
  failures := (List.append_nil _).symm
  known _ hp := hp
  known_of _ hp := .inl hp
  fresh _ hd := by cases hd
  settled _ hd := by cases hd
  once := .nil
  complete d hd := by
    obtain rfl := List.mem_singleton.mp hd
    exact .inl h

theorem asks_of_new {s : Loading} {c : Call} (h : c.target ∉ s.known)
    (hcalls : (ask answer s c).calls = s.calls ++ [c])
    (hfailures : (ask answer s c).failures = s.failures ++ (c.failure? (byTarget answer)).toList) :
    Asks answer s (ask answer s c) [c] [c] where
  sublist := List.Sublist.refl _
  calls := hcalls
  failures := by
    rw [hfailures, List.filterMap_cons]
    cases c.failure? (byTarget answer) <;> rfl
  known p hp := (mem_known_ask s c p).mpr (.inl hp)
  known_of p hp := ((mem_known_ask s c p).mp hp).imp_right fun h => by simp [h.1]
  fresh d hd := by
    obtain rfl := List.mem_singleton.mp hd
    exact h
  settled d hd hanswer := by
    obtain rfl := List.mem_singleton.mp hd
    exact (mem_known_ask s d _).mpr (.inr ⟨rfl, hanswer⟩)
  once := List.pairwise_singleton _ _
  complete d hd := .inr (List.mem_map_of_mem hd)

/-- One call, or none. -/
theorem asks_ask (answer : DocumentPath → ImportAnswer) (s : Loading) (c : Call) :
    ∃ asked, Asks answer s (ask answer s c) [c] asked := by
  obtain ⟨h, e⟩ | ⟨hnew, text, h, e⟩ | ⟨hnew, h, e⟩ | ⟨hnew, message, h, e⟩ :=
    ask_cases answer s c
  · refine ⟨[], ?_⟩
    rw [e]
    exact asks_of_known h
  all_goals
    refine ⟨[c], asks_of_new hnew (by rw [e]) ?_⟩
    simp [e, Call.failure?, byTarget, show c.path.join c.specifier = c.target from rfl, h]

/-- Calls one after another. -/
theorem asks_foldl (answer : DocumentPath → ImportAnswer) (cs : List Call) (s : Loading) :
    ∃ asked, Asks answer s (cs.foldl (ask answer) s) cs asked := by
  induction cs generalizing s with
  | nil => exact ⟨[], .nil answer s⟩
  | cons c cs ih =>
    obtain ⟨first, hfirst⟩ := asks_ask answer s c
    obtain ⟨others, hothers⟩ := ih (ask answer s c)
    exact ⟨first ++ others, hfirst.append hothers⟩

theorem asks_round (answer : DocumentPath → ImportAnswer) (s : Loading)
    (pending : List Document) :
    ∃ asked, Asks answer s (s.round (byTarget answer) pending) (demands pending) asked := by
  obtain ⟨asked, h⟩ := asks_foldl answer (demands pending) { s with loaded := [] }
  rw [← round_eq] at h
  -- The round starts by forgetting what the one before it has loaded, which no field looks at.
  exact ⟨asked, h.sublist, h.calls, h.failures, h.known, h.known_of, h.fresh, h.settled, h.once,
    h.complete⟩

end Loading

/-- The documents whose imports are asked for in some rounds. -/
def asking (resolve : ImportResolver) (s : Loading) (pending : List Document) :
    Nat → List Document
  | 0 => []
  | rounds + 1 => pending ++ (loadFrom resolve s pending rounds).1

theorem asking_succ (resolve : ImportResolver) (s : Loading) (pending : List Document)
    (rounds : Nat) :
    asking resolve s pending (rounds + 1) = pending ++
      asking resolve (s.round resolve pending) (documentsOf (s.round resolve pending)) rounds := by
  cases rounds with
  | zero => rfl
  | succ rounds => rw [asking, loadFrom_succ, asking]

theorem asks_loadFrom (answer : DocumentPath → ImportAnswer) (rounds : Nat) (s : Loading)
    (pending : List Document) :
    ∃ asked, Asks answer s (loadFrom (byTarget answer) s pending rounds).2
      (demands (asking (byTarget answer) s pending rounds)) asked := by
  induction rounds generalizing s pending with
  | zero => exact ⟨[], .nil answer s⟩
  | succ rounds ih =>
    obtain ⟨first, hfirst⟩ := asks_round answer s pending
    obtain ⟨others, hothers⟩ := ih (s.round (byTarget answer) pending)
      (documentsOf (s.round (byTarget answer) pending))
    rw [asking_succ, demands_append, loadFrom_succ]
    exact ⟨first ++ others, hfirst.append hothers⟩

/-! ### Answers that matter -/

section

variable {resolve resolve' : ImportResolver} {s : Loading}

/-- Both resolvers answer a call alike. -/
def AnswerAlike (resolve resolve' : ImportResolver) (c : Call) : Prop :=
  resolve' c.path c.specifier = resolve c.path c.specifier

namespace Loading

theorem calls_request (resolve : ImportResolver) (s : Loading) (c : Call) :
    (request resolve s c).calls = s.calls ++ if s.known.contains c.target then [] else [c] := by
  unfold request
  split
  · rw [List.append_nil]
  · simp only
    split <;> rfl

theorem calls_prefix_foldl (resolve : ImportResolver) (s : Loading) (cs : List Call) :
    s.calls <+: (cs.foldl (request resolve) s).calls := by
  induction cs generalizing s with
  | nil => exact List.prefix_refl _
  | cons c cs ih =>
    refine List.IsPrefix.trans ?_ (ih _)
    rw [calls_request]
    exact List.prefix_append _ _

theorem request_congr {c : Call}
    (h : ∀ d ∈ (request resolve s c).calls, AnswerAlike resolve resolve' d) :
    request resolve' s c = request resolve s c := by
  rw [calls_request] at h
  unfold request
  split
  · rfl
  · rename_i hnew
    rw [if_neg hnew] at h
    simp only
    rw [h c (List.mem_append_right _ List.mem_cons_self)]

theorem foldl_request_congr {cs : List Call}
    (h : ∀ d ∈ (cs.foldl (request resolve) s).calls, AnswerAlike resolve resolve' d) :
    cs.foldl (request resolve') s = cs.foldl (request resolve) s := by
  induction cs generalizing s with
  | nil => rfl
  | cons c cs ih =>
    have hfirst : request resolve' s c = request resolve s c :=
      request_congr fun d hd => h d ((calls_prefix_foldl resolve _ cs).subset hd)
    rw [List.foldl_cons, List.foldl_cons, hfirst]
    exact ih h

end Loading

theorem calls_prefix_loadFrom (resolve : ImportResolver) (s : Loading) (pending : List Document)
    (rounds : Nat) : s.calls <+: (loadFrom resolve s pending rounds).2.calls := by
  induction rounds generalizing s pending with
  | zero => exact List.prefix_refl _
  | succ rounds ih =>
    rw [loadFrom_succ]
    exact (calls_prefix_foldl resolve { s with loaded := [] } _).trans (ih _ _)

/-- Loading does not depend on answers that it has not called for. -/
theorem loadFrom_congr {pending : List Document} {rounds : Nat}
    (h : ∀ c ∈ (loadFrom resolve s pending rounds).2.calls, AnswerAlike resolve resolve' c) :
    loadFrom resolve' s pending rounds = loadFrom resolve s pending rounds := by
  induction rounds generalizing s pending with
  | zero => rfl
  | succ rounds ih =>
    rw [loadFrom_succ] at h
    have hround : s.round resolve' pending = s.round resolve pending :=
      foldl_request_congr fun c hc => h c ((calls_prefix_loadFrom resolve _ _ rounds).subset hc)
    rw [loadFrom_succ, loadFrom_succ, hround]
    simp only
    rw [ih h]

end

end EventCatalog.Import
