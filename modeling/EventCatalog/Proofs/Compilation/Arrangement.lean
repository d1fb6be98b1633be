import EventCatalog.Proofs.Compilation.Requests
import Mathlib.Data.List.FinRange

/-! # The order of sources

Sources are sorted by path before anything else looks at them, so compiling depends on the last text
for each path alone (`sortSources_congr`).  A rearrangement that keeps the order of the sources for
one path keeps these texts, and a source that another one for its path follows is none of them: the
graph, the diagnostics and the calls of the resolver stay the same (`compile_arrangement`). -/

namespace EventCatalog

open Syntax Import

/-! ### Calls of the resolver -/

namespace Import

variable (resolve : ImportResolver)

/-- The calls that are made where so many could be, one after another: none for what is known. -/
def callsFor : Loading → List Call → List Call
  | _, [] => []
  | s, c :: cs =>
    (if s.known.contains c.target then [] else [c]) ++ callsFor (s.request resolve c) cs

/-- The calls of so many rounds. -/
def callsFrom : Loading → List Document → Nat → List Call
  | _, _, 0 => []
  | s, pending, rounds + 1 =>
    let s' := s.round resolve pending
    callsFor resolve { s with loaded := [] } (demands pending) ++
      callsFrom s' (documentsOf s') rounds

theorem calls_foldl_request (cs : List Call) (s : Loading) :
    (cs.foldl (Loading.request resolve) s).calls = s.calls ++ callsFor resolve s cs := by
  induction cs generalizing s with
  | nil => exact (List.append_nil _).symm
  | cons c cs ih => rw [List.foldl_cons, ih, Loading.calls_request, callsFor, List.append_assoc]

/-- The calls that loading logs are those of its rounds. -/
theorem calls_loadFrom (rounds : Nat) (s : Loading) (pending : List Document) :
    (loadFrom resolve s pending rounds).2.calls =
      s.calls ++ callsFrom resolve s pending rounds := by
  induction rounds generalizing s pending with
  | zero => exact (List.append_nil _).symm
  | succ rounds ih =>
    have hround : (s.round resolve pending).calls =
        s.calls ++ callsFor resolve { s with loaded := [] } (demands pending) :=
      calls_foldl_request resolve (demands pending) { s with loaded := [] }
    rw [loadFrom_succ, callsFrom, ← List.append_assoc, ← hround]
    exact ih _ _

end Import

/-- The calls of the resolver when sources are compiled, in order. -/
def calls (config : Config) (resolver : Option ImportResolver) (sources : List (String × String)) :
    List Call :=
  match resolver with
  | some resolve =>
    callsFrom resolve { known := (readSources sources).map Document.path } (readSources sources)
      config.importRounds
  | none => []

/-- A compilation logs the calls of the resolver. -/
theorem calls_compile (config : Config) (resolver : Option ImportResolver)
    (sources : List (String × String)) :
    (compile config resolver sources).calls = calls config resolver sources := by
  cases resolver with
  | none => rfl
  | some resolve => exact calls_loadFrom resolve config.importRounds _ _

/-! ### Sources with the same last texts -/

variable {sources others : List (String × String)}

/-- Sorted sources are determined by the last text for each path. -/
theorem sortSources_congr (h : ∀ path, lastText? sources path = lastText? others path) :
    sortSources sources = sortSources others := by
  refine (sorted_sortSources sources).eq_of_mem_iff (sorted_sortSources others) ?_
  rintro ⟨path, text⟩
  rw [mem_sortSources, mem_sortSources, h]

/-- Compiling these sources gives what compiling those gives, and calls the resolver alike. -/
structure CompileAlike (config : Config) (resolver : Option ImportResolver)
    (sources others : List (String × String)) : Prop where
  compilation : compile config resolver sources = compile config resolver others
  calls : calls config resolver sources = calls config resolver others

/-- Nothing but the sorted sources is looked at. -/
theorem compileAlike_of_lastText? (config : Config) (resolver : Option ImportResolver)
    (h : ∀ path, lastText? sources path = lastText? others path) :
    CompileAlike config resolver sources others := by
  have hsorted := sortSources_congr h
  exact ⟨by simp only [compile, gather, hsorted], by simp only [calls, readSources, hsorted]⟩

/-! ### Rearrangements -/

section

variable {α : Type}

/-- The items with each one moved to another place. -/
def rearrange (items : List α) (σ : Equiv.Perm (Fin items.length)) : List α :=
  List.ofFn fun place => items.get (σ.symm place)

/-- A rearrangement does not change the order of those items that stay in order. -/
theorem filter_rearrange {items : List α} {σ : Equiv.Perm (Fin items.length)} {p : α → Bool}
    (h : ∀ i j, i < j → p (items.get i) = true → p (items.get j) = true → σ i < σ j) :
    (rearrange items σ).filter p = items.filter p := by
  let picked (i : Fin items.length) : Bool := p (items.get i)
  let places := List.finRange items.length
  have hmoved : rearrange items σ = (places.map σ.symm).map items.get := by
    rw [rearrange, List.ofFn_eq_map, List.map_map]
    rfl
  have hkept : items = places.map items.get := (List.map_get_finRange items).symm
  have hall : (places.map σ.symm).Perm places := by
    refine (List.perm_ext_iff_of_nodup ?_ (List.nodup_finRange _)).mpr fun i => ?_
    · exact (List.nodup_map_iff σ.symm.injective).mpr (List.nodup_finRange _)
    · exact iff_of_true (List.mem_map.mpr ⟨σ i, List.mem_finRange _, σ.symm_apply_apply i⟩)
        (List.mem_finRange i)
  have hplaces : (places.map σ.symm).filter picked = places.filter picked := by
    refine (hall.filter picked).eq_of_pairwise
      (fun i j _ _ (hij : i < j) (hji : j < i) => absurd hij hji.not_gt) ?_
      ((List.pairwise_lt_finRange _).filter _)
    -- The places come in the order of the rearrangement, which is their own where they are picked.
    have hsorted : (places.map σ.symm).Pairwise fun i j => σ i < σ j := by
      rw [List.pairwise_map]
      exact (List.pairwise_lt_finRange _).imp fun {i j} hij => by simpa using hij
    refine (hsorted.filter picked).imp_of_mem fun {i j} hi hj hij => ?_
    obtain hlt | rfl | hgt := lt_trichotomy i j
    · exact hlt
    · exact absurd hij (lt_irrefl _)
    · exact absurd hij (h j i hgt (List.mem_filter.mp hj).2 (List.mem_filter.mp hi).2).not_gt
  rw [hmoved, List.filter_map]
  conv_rhs => rw [hkept, List.filter_map]
  exact congrArg (List.map items.get) hplaces

end

/-- The path that a source is for. -/
def sourcePath (s : String × String) : DocumentPath := .ofString s.1

/-- A rearrangement of sources keeps the order of those for one path. -/
def KeepsOrder (sources : List (String × String)) (σ : Equiv.Perm (Fin sources.length)) : Prop :=
  ∀ i j, i < j → sourcePath (sources.get i) = sourcePath (sources.get j) → σ i < σ j

theorem KeepsOrder.lastText?_eq {σ : Equiv.Perm (Fin sources.length)} (h : KeepsOrder sources σ)
    (path : DocumentPath) : lastText? (rearrange sources σ) path = lastText? sources path := by
  have hfilter : (rearrange sources σ).filter (fun s => DocumentPath.ofString s.1 == path) =
      sources.filter fun s => DocumentPath.ofString s.1 == path := by
    refine filter_rearrange fun i j hij hi hj => h i j hij ?_
    exact (beq_iff_eq.mp hi).trans (beq_iff_eq.mp hj).symm
  rw [lastText?, hfilter, lastText?]

/-- A source that another one for its path follows is not the last one for any path. -/
theorem lastText?_of_followed {before after : List (String × String)} {s : String × String}
    (h : ∃ later ∈ after, sourcePath later = sourcePath s) (path : DocumentPath) :
    lastText? (before ++ s :: after) path = lastText? (before ++ after) path := by
  rw [lastText?, lastText?, List.filter_append, List.filter_append, List.filter_cons]
  split
  · rename_i hs
    obtain ⟨later, hlater, hsame⟩ := h
    have hpath : DocumentPath.ofString later.1 = path := hsame.trans (beq_iff_eq.mp hs)
    have hne : after.filter (fun s => DocumentPath.ofString s.1 == path) ≠ [] :=
      List.ne_nil_of_mem (List.mem_filter.mpr ⟨hlater, beq_iff_eq.mpr hpath⟩)
    rw [List.getLast?_append_of_ne_nil _ hne, List.getLast?_append_of_ne_nil _ (List.cons_ne_nil _ _),
      List.getLast?_cons_of_ne_nil hne]
  · rfl

/-- Compiling does not depend on the order of sources for different paths, and of several for one
path only the last one counts: graph, diagnostics and the calls of the resolver are the same. -/
theorem compile_arrangement (config : Config) (resolver : Option ImportResolver)
    (sources : List (String × String)) :
    (∀ σ : Equiv.Perm (Fin sources.length), KeepsOrder sources σ →
      CompileAlike config resolver (rearrange sources σ) sources) ∧
    (∀ before s after, sources = before ++ s :: after →
      (∃ later ∈ after, sourcePath later = sourcePath s) →
        CompileAlike config resolver sources (before ++ after)) ∧
    (compile config resolver sources).calls = calls config resolver sources := by
  refine ⟨fun σ hσ => ?_, fun before s after hsources hlater => ?_, calls_compile _ _ _⟩
  · exact compileAlike_of_lastText? config resolver hσ.lastText?_eq
  · subst hsources
    exact compileAlike_of_lastText? config resolver (lastText?_of_followed hlater)

/-- A draft of a document may come before or behind another document, or not at all, as long as the
document itself comes behind it under some spelling of the same path. -/
theorem compile_arrangement_draft :
    let draft := ("shop/../a.ec", "event Draft\n")
    let document := ("./a.ec", "import { B, C } from \"b.ec\"\nevent A\n")
    let other := ("b.ec", "import { C } from \"c.ec\"\nevent B\n")
    let resolver : Option ImportResolver := some fun _ _ => .unknown
    CompileAlike {} resolver [other, draft, document] [draft, other, document] ∧
      CompileAlike {} resolver [draft, other, document] [other, document] := by
  intro draft document other resolver
  obtain ⟨hmoved, hdropped, -⟩ := compile_arrangement {} resolver [draft, other, document]
  refine ⟨hmoved (Equiv.swap 0 1) ?_, hdropped [] draft [other, document] rfl ?_⟩
  · unfold KeepsOrder
    decide +kernel
  · exact ⟨document, List.mem_cons_of_mem _ List.mem_cons_self, by decide +kernel⟩

end EventCatalog
