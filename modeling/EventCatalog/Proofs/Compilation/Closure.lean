import EventCatalog.Proofs.Compilation.Documents

/-! # The closure of imports

An import statement demands the document that it means.  A resolver that answers by that document
alone makes loading a search in the graph of demands: a round settles what its documents demand
(`mem_known_round`, `mem_loaded_round`), and so many rounds load what chains of at most so many
statements lead to (`mem_load_iff`). -/

namespace EventCatalog.Import

open Syntax Loading

theorem mem_demands {ds : List Document} {c : Call} :
    c ∈ demands ds ↔ ∃ d ∈ ds, c.path = d.path ∧ c.statement ∈ d.program.imports := by
  obtain ⟨path, i⟩ := c
  simp only [demands, List.mem_flatMap, List.mem_map, Call.mk.injEq]
  refine exists_congr fun d => and_congr_right fun _ => ?_
  constructor
  · rintro ⟨i, hi, rfl, rfl⟩
    exact ⟨rfl, hi⟩
  · rintro ⟨rfl, hi⟩
    exact ⟨i, hi, rfl, rfl⟩

theorem mem_demands_of_import {ds : List Document} {d : Document} {i : Syntax.Import} (hd : d ∈ ds)
    (hi : i ∈ d.program.imports) : ⟨d.path, i⟩ ∈ demands ds :=
  mem_demands.mpr ⟨d, hd, rfl, hi⟩

theorem demands_append (ds es : List Document) : demands (ds ++ es) = demands ds ++ demands es :=
  List.flatMap_append

/-- The resolver answers by the document that is meant, however it is asked for. -/
def AnswersByTarget (resolve : ImportResolver) : Prop :=
  ∀ p q s t, p.join s = q.join t → resolve p s = resolve q t

/-- The resolver that gives these answers for the documents that are meant. -/
def byTarget (answer : DocumentPath → ImportAnswer) : ImportResolver :=
  fun path specifier => answer (path.join specifier)

theorem exists_byTarget {resolve : ImportResolver} (h : AnswersByTarget resolve) :
    ∃ answer, resolve = byTarget answer := by
  classical
  refine ⟨fun target => if hasked : ∃ p s, p.join s = target then
    resolve hasked.choose hasked.choose_spec.choose else .unknown, ?_⟩
  funext p s
  have hasked : ∃ q t, DocumentPath.join q t = p.join s := ⟨p, s, rfl⟩
  rw [byTarget, dif_pos hasked]
  exact h _ _ _ _ hasked.choose_spec.choose_spec.symm

variable {answer : DocumentPath → ImportAnswer} {given : List Document}

/-- Chains of import statements that begin in the given documents: each leads to a path that is
neither given nor on the chain, and the resolver knows its text.  The list holds the paths that a
chain has led to, the last one first. -/
inductive Chain (given : List Document) (resolve : ImportResolver) :
    List DocumentPath → Document → Prop
  | start {d : Document} : d ∈ given → Chain given resolve [] d
  | hop {visited : List DocumentPath} {d : Document} {i : Syntax.Import} {text : String} :
    Chain given resolve visited d → i ∈ d.program.imports →
    Call.target ⟨d.path, i⟩ ∉ given.map Document.path → Call.target ⟨d.path, i⟩ ∉ visited →
    resolve d.path i.source.value = .text text →
    Chain given resolve (Call.target ⟨d.path, i⟩ :: visited)
      (Document.read (Call.target ⟨d.path, i⟩) text)

/-! ### One round -/

/-- Asks for a document that is meant. -/
def ask (answer : DocumentPath → ImportAnswer) : Loading → Call → Loading :=
  request (byTarget answer)

theorem round_eq (s : Loading) (pending : List Document) :
    s.round (byTarget answer) pending =
      (demands pending).foldl (ask answer) { s with loaded := [] } := rfl

/-- What a call does: none is made if the document is known, and else what the answer calls for is
done. -/
theorem ask_cases (answer : DocumentPath → ImportAnswer) (s : Loading) (c : Call) :
    (c.target ∈ s.known ∧ ask answer s c = s) ∨
    (c.target ∉ s.known ∧ ∃ text, answer c.target = .text text ∧
      ask answer s c = ⟨c.target :: s.known, s.loaded ++ [(c.target, text)], s.failures,
        s.calls ++ [c]⟩) ∨
    (c.target ∉ s.known ∧ answer c.target = .unknown ∧
      ask answer s c = ⟨s.known, s.loaded, s.failures, s.calls ++ [c]⟩) ∨
    (c.target ∉ s.known ∧ ∃ message, answer c.target = .failure message ∧
      ask answer s c = ⟨c.target :: s.known, s.loaded,
        s.failures ++ [⟨c.path, failed c.statement message⟩], s.calls ++ [c]⟩) := by
  by_cases hknown : c.target ∈ s.known
  · exact .inl ⟨hknown, if_pos (List.contains_iff_mem.mpr hknown)⟩
  · have hask : ask answer s c = _ := if_neg (mt List.contains_iff_mem.mp hknown)
    have hanswered : byTarget answer c.path c.specifier = answer c.target := rfl
    rw [hanswered] at hask
    cases hanswer : answer c.target with
    | text text =>
      rw [hanswer] at hask
      exact .inr (.inl ⟨hknown, text, rfl, hask⟩)
    | unknown =>
      rw [hanswer] at hask
      exact .inr (.inr (.inl ⟨hknown, rfl, hask⟩))
    | failure message =>
      rw [hanswer] at hask
      exact .inr (.inr (.inr ⟨hknown, message, rfl, hask⟩))

theorem mem_known_ask (s : Loading) (c : Call) (p : DocumentPath) :
    p ∈ (ask answer s c).known ↔ p ∈ s.known ∨ p = c.target ∧ answer p ≠ .unknown := by
  obtain ⟨h, e⟩ | ⟨-, text, h, e⟩ | ⟨-, h, e⟩ | ⟨-, message, h, e⟩ := ask_cases answer s c <;>
    rw [e]
  case inl => exact ⟨.inl, fun hp => hp.elim id fun ⟨hp, _⟩ => hp ▸ h⟩
  case inr.inr.inl =>
    refine ⟨.inl, fun hp => hp.elim id ?_⟩
    rintro ⟨rfl, hp⟩
    exact absurd h hp
  all_goals
    rw [List.mem_cons, or_comm]
    refine or_congr_right ⟨fun hp => ⟨hp, ?_⟩, And.left⟩
    rw [hp, h]
    exact ImportAnswer.noConfusion

theorem mem_loaded_ask (s : Loading) (c : Call) (p : DocumentPath) (text : String) :
    (p, text) ∈ (ask answer s c).loaded ↔
      (p, text) ∈ s.loaded ∨ p ∉ s.known ∧ answer p = .text text ∧ p = c.target := by
  obtain ⟨h, e⟩ | ⟨hnew, text', h, e⟩ | ⟨-, h, e⟩ | ⟨-, message, h, e⟩ := ask_cases answer s c <;>
    rw [e]
  case inr.inl =>
    rw [List.mem_append, List.mem_singleton, Prod.mk.injEq]
    refine or_congr_right ⟨?_, ?_⟩
    · rintro ⟨rfl, rfl⟩
      exact ⟨hnew, h, rfl⟩
    · rintro ⟨-, hp, rfl⟩
      rw [h] at hp
      exact ⟨rfl, (ImportAnswer.text.inj hp).symm⟩
  case inl =>
    refine ⟨.inl, fun hp => hp.elim id ?_⟩
    rintro ⟨hnew, -, rfl⟩
    exact absurd h hnew
  all_goals
    refine ⟨.inl, fun hp => hp.elim id ?_⟩
    rintro ⟨-, hp, rfl⟩
    rw [h] at hp
    cases hp

/-- A round makes known what its documents demand and the resolver has an answer to. -/
theorem mem_known_round (s : Loading) (pending : List Document) (p : DocumentPath) :
    p ∈ (s.round (byTarget answer) pending).known ↔
      p ∈ s.known ∨ (∃ c ∈ demands pending, p = c.target) ∧ answer p ≠ .unknown := by
  have hrun : ∀ (cs : List Call) (s : Loading), p ∈ (cs.foldl (ask answer) s).known ↔
      p ∈ s.known ∨ (∃ c ∈ cs, p = c.target) ∧ answer p ≠ .unknown := by
    intro cs
    induction cs with
    | nil => simp
    | cons c cs ih =>
      intro s
      rw [List.foldl_cons, ih, mem_known_ask, or_assoc, ← or_and_right]
      simp only [List.mem_cons, exists_eq_or_imp]
  rw [round_eq]
  exact hrun _ _

/-- A round loads what its documents demand, was not known before, and has a text. -/
theorem mem_loaded_round (s : Loading) (pending : List Document) (p : DocumentPath)
    (text : String) :
    (p, text) ∈ (s.round (byTarget answer) pending).loaded ↔
      p ∉ s.known ∧ answer p = .text text ∧ ∃ c ∈ demands pending, p = c.target := by
  have hrun : ∀ (cs : List Call) (s : Loading), (p, text) ∈ (cs.foldl (ask answer) s).loaded ↔
      (p, text) ∈ s.loaded ∨ p ∉ s.known ∧ answer p = .text text ∧ ∃ c ∈ cs, p = c.target := by
    intro cs
    induction cs with
    | nil => simp
    | cons c cs ih =>
      intro s
      rw [List.foldl_cons, ih, mem_loaded_ask, mem_known_ask]
      simp only [List.mem_cons, exists_eq_or_imp]
      by_cases htext : answer p = .text text
      · -- A demand that has brought a text is known to those behind it.
        by_cases htarget : p = c.target
        · subst htarget
          simp [htext]
        · simp [htext, htarget]
      · simp [htext]
  rw [round_eq, hrun]
  simp

/-! ### All rounds -/

/-- The documents that a round has loaded. -/
def documentsOf (s : Loading) : List Document :=
  s.loaded.map fun (path, text) => Document.read path text

theorem loadFrom_nil (resolve : ImportResolver) {s : Loading} (h : s.loaded = []) (rounds : Nat) :
    loadFrom resolve s [] rounds = ([], s) := by
  have hround : s.round resolve [] = s := by
    obtain ⟨known, loaded, failures, calls⟩ := s
    cases h
    rfl
  cases rounds with
  | zero => rfl
  | succ rounds => simp only [loadFrom, hround, h, List.isEmpty_nil, if_true]

/-- The first round, and then the others from what it has loaded. -/
theorem loadFrom_succ (resolve : ImportResolver) (s : Loading) (pending : List Document)
    (rounds : Nat) :
    loadFrom resolve s pending (rounds + 1) =
      let s' := s.round resolve pending
      let rest := loadFrom resolve s' (documentsOf s') rounds
      (documentsOf s' ++ rest.1, rest.2) := by
  rw [loadFrom]
  simp only
  split
  · rename_i h
    have h := List.isEmpty_iff.mp h
    have hdocuments : documentsOf (s.round resolve pending) = [] := by rw [documentsOf, h]; rfl
    rw [hdocuments, loadFrom_nil resolve h, List.nil_append]
  · rfl

theorem mem_documentsOf {s : Loading} {d : Document} :
    d ∈ documentsOf s ↔ ∃ path text, (path, text) ∈ s.loaded ∧ d = Document.read path text := by
  simp only [documentsOf, List.mem_map, Prod.exists, eq_comm]

/-- One round more loads what the documents of so many rounds demand. -/
theorem read_mem_loadFrom {rounds : Nat} {s : Loading} {pending : List Document} {c : Call}
    {text : String} (hc : c ∈ demands (pending ++ (loadFrom (byTarget answer) s pending rounds).1))
    (htext : answer c.target = .text text) (hnew : c.target ∉ s.known) :
    Document.read c.target text ∈ (loadFrom (byTarget answer) s pending (rounds + 1)).1 := by
  rw [demands_append, List.mem_append] at hc
  induction rounds generalizing s pending with
  | zero =>
    have hc : c ∈ demands pending := hc.elim id fun h => by cases h
    rw [loadFrom_succ]
    refine List.mem_append_left _ (mem_documentsOf.mpr ⟨_, _, ?_, rfl⟩)
    exact (mem_loaded_round s pending _ _).mpr ⟨hnew, htext, c, hc, rfl⟩
  | succ rounds ih =>
    rw [loadFrom_succ] at hc ⊢
    simp only [demands_append, List.mem_append] at hc ⊢
    by_cases hround : ∃ y ∈ demands pending, c.target = y.target
    · refine .inl (mem_documentsOf.mpr ⟨_, _, ?_, rfl⟩)
      exact (mem_loaded_round s pending _ _).mpr ⟨hnew, htext, hround⟩
    · right
      have hc := hc.resolve_left fun h => hround ⟨c, h, rfl⟩
      refine ih hc ?_
      rw [mem_known_round]
      exact fun h => h.elim hnew fun h => hround h.1

/-- What rounds load is led to by chains, if what they start from is. -/
theorem exists_chain_of_mem_loadFrom {rounds length : Nat} {s : Loading} {pending : List Document}
    (hgiven : given.map Document.path ⊆ s.known)
    (hpending : ∀ d ∈ pending, ∃ visited, Chain given (byTarget answer) visited d ∧
      visited.length = length ∧ visited ⊆ s.known) {d : Document}
    (hd : d ∈ (loadFrom (byTarget answer) s pending rounds).1) :
    ∃ visited, Chain given (byTarget answer) visited d ∧ visited.length ≤ length + rounds := by
  induction rounds generalizing length s pending with
  | zero => cases hd
  | succ rounds ih =>
    have hknown : s.known ⊆ (s.round (byTarget answer) pending).known :=
      fun p hp => (mem_known_round s pending p).mpr (.inl hp)
    have hnext : ∀ e ∈ documentsOf (s.round (byTarget answer) pending),
        ∃ visited, Chain given (byTarget answer) visited e ∧ visited.length = length + 1 ∧
          visited ⊆ (s.round (byTarget answer) pending).known := by
      intro e he
      obtain ⟨p, text, hloaded, rfl⟩ := mem_documentsOf.mp he
      obtain ⟨hnew, htext, c, hc, rfl⟩ := (mem_loaded_round s pending p text).mp hloaded
      obtain ⟨e, he, hpath, hstatement⟩ := mem_demands.mp hc
      obtain ⟨visited, hchain, hlength, hvisited⟩ := hpending e he
      obtain ⟨path, i⟩ := c
      obtain rfl : path = e.path := hpath
      refine ⟨Call.target ⟨e.path, i⟩ :: visited, .hop hchain hstatement (fun h => hnew (hgiven h))
        (fun h => hnew (hvisited h)) htext, by rw [List.length_cons, hlength], ?_⟩
      refine List.cons_subset.mpr ⟨?_, List.Subset.trans hvisited hknown⟩
      refine (mem_known_round s pending _).mpr (.inr ⟨⟨_, hc, rfl⟩, ?_⟩)
      rw [htext]
      exact ImportAnswer.noConfusion
    rw [loadFrom_succ] at hd
    obtain hd | hd := List.mem_append.mp hd
    · obtain ⟨visited, hchain, hlength, -⟩ := hnext d hd
      exact ⟨visited, hchain, by omega⟩
    · obtain ⟨visited, hchain, hlength⟩ := ih (List.Subset.trans hgiven hknown) hnext hd
      exact ⟨visited, hchain, by omega⟩

theorem prefix_loadFrom_succ (resolve : ImportResolver) (s : Loading) (pending : List Document)
    (rounds : Nat) :
    (loadFrom resolve s pending rounds).1 <+: (loadFrom resolve s pending (rounds + 1)).1 := by
  induction rounds generalizing s pending with
  | zero => exact List.nil_prefix
  | succ rounds ih =>
    rw [loadFrom_succ, loadFrom_succ]
    exact (List.prefix_append_right_inj _).mpr (ih _ _)

theorem subset_load_of_le (resolve : ImportResolver) (given : List Document) {m n : Nat}
    (h : m ≤ n) : (load resolve m given).1 ⊆ (load resolve n given).1 := by
  induction h with
  | refl => exact List.Subset.refl _
  | step _ ih => exact List.Subset.trans ih (prefix_loadFrom_succ resolve _ _ _).subset

/-- The given documents and what so many rounds load are what chains of at most so many statements
lead to. -/
theorem mem_load_iff (rounds : Nat) (d : Document) :
    d ∈ given ++ (load (byTarget answer) rounds given).1 ↔
      ∃ visited, Chain given (byTarget answer) visited d ∧ visited.length ≤ rounds := by
  constructor
  · intro hd
    have hstart : ∀ e ∈ given, ∃ visited, Chain given (byTarget answer) visited e ∧ visited.length = 0 ∧
        visited ⊆ given.map Document.path :=
      fun e he => ⟨[], .start he, rfl, List.nil_subset _⟩
    obtain hd | hd := List.mem_append.mp hd
    · exact ⟨[], .start hd, Nat.zero_le _⟩
    · have h := exists_chain_of_mem_loadFrom (List.Subset.refl _) hstart hd
      simpa using h
  · rintro ⟨visited, hchain, hlength⟩
    have hrounds : d ∈ given ++ (load (byTarget answer) visited.length given).1 := by
      clear hlength
      induction hchain with
      | start hd => exact List.mem_append_left _ hd
      | hop _ hi hnew _ htext ih =>
        refine List.mem_append_right _ ?_
        exact read_mem_loadFrom (mem_demands_of_import ih hi) htext hnew
    obtain hd | hd := List.mem_append.mp hrounds
    · exact List.mem_append_left _ hd
    · exact List.mem_append_right _ (subset_load_of_le _ given hlength hd)

end EventCatalog.Import
