import EventCatalog.Proofs.Projection.Agreement
import EventCatalog.Proofs.Validation.Insertion

/-! # The graph with one more document

The graph has the same of a document that has nothing to do with a new one, with and without it
(`SymbolTable.Insertion.agrees`).  Its references mean the same nodes, and its definitions are
duplicates if they were.  Places of cycles may change, for those of the new document stand between
the others; but these have no members elsewhere (`Insertion.document_of_mem_members`), so two old
definitions are on one cycle if they were. -/

namespace EventCatalog

open Syntax

namespace SymbolTable

/-- What the graph of a table is made from. -/
def projection (t : SymbolTable) : Projection := ⟨t, t.cycles, t.duplicates.map (·.symbol.key)⟩

namespace Insertion

variable {k : Nat} {fresh : List String} {t t' : SymbolTable} (h : Insertion k fresh t t')

include h

theorem target? (n : Nat) {r : Reference} (hname : r.name.value ∉ fresh)
    (inlined : Option Definition) (wanted : Wanted) :
    t'.projection.target? (shifted k n) r inlined wanted =
      t.projection.target? n r inlined wanted := by
  cases inlined with
  | some d => rfl
  | none =>
    simp only [Projection.target?, projection, h.resolve n hname]
    cases t.resolve n r wanted <;> rfl

theorem contains_duplicates (n id : Nat) :
    t'.projection.duplicates.contains (shifted k n, id) =
      t.projection.duplicates.contains (n, id) := by
  have hold : ((fun key : Nat × Nat => key.1 != k) ∘ fun d : Duplicate => d.symbol.key) =
      fun d => d.symbol.document != k := rfl
  have hkeys : t'.projection.duplicates.filter (·.1 != k) =
      t.projection.duplicates.map (Symbol.shiftKey k) := by
    simp only [projection]
    rw [List.filter_map, hold, h.duplicates, List.map_map, List.map_map]
    rfl
  rw [← Symbol.contains_map_shiftKey k t.projection.duplicates, ← hkeys, Bool.eq_iff_iff,
    List.contains_iff_mem, List.contains_iff_mem, List.mem_filter]
  exact (and_iff_left (bne_iff_ne.mpr (shifted_ne k n))).symm

/-- A cycle that starts in the new document stays in it. -/
theorem document_of_mem_members {c : Cycle} (hc : c ∈ t'.cycles) (hfirst : c.first.document = k)
    {u : Symbol} (hu : u ∈ c.members) : u.document = k := by
  by_contra hk
  rw [cycles_eq] at hc
  obtain ⟨s, -, hc⟩ := List.mem_filterMap.mp hc
  obtain ⟨hkey, hmembers⟩ := key_of_cycleFrom? hc
  rw [hmembers, SymbolTable.membersOf, List.mem_filter, List.contains_iff_mem] at hu
  have hback : s.key ∈ t'.reachedKeys u.key := (Digraph.mem_component.mp hu.2).2.2
  obtain ⟨m, hm⟩ := exists_shifted hk
  have hold : u.key = Symbol.shiftKey k (m, u.definition.id) := Prod.ext hm.symm rfl
  rw [hold, h.embeds_reached.next_map, ← hkey] at hback
  exact Symbol.ne_of_mem_map_shiftKey k hback hfirst

/-- The place of a cycle of old definitions is told by its place among the old cycles. -/
theorem cycleOf? : ∃ place : Nat → Nat, Function.Injective place ∧ ∀ key,
    t'.projection.cycleOf? (Symbol.shiftKey k key) = (t.projection.cycleOf? key).map place := by
  obtain ⟨place, hinjective, hplace⟩ := exists_place (·.first.document != k) t'.cycles
  refine ⟨place, hinjective, fun key => ?_⟩
  have hold : ∀ c ∈ t'.cycles, (c.members.any (·.key == Symbol.shiftKey k key)) = true →
      (c.first.document != k) = true := by
    intro c hc hmember
    obtain ⟨u, hu, hkey⟩ := List.any_eq_true.mp hmember
    refine bne_iff_ne.mpr fun hfirst => shifted_ne k key.1 ?_
    exact (congrArg Prod.fst (beq_iff_eq.mp hkey)).symm.trans
      (h.document_of_mem_members hc hfirst hu)
  have hmembers : ((fun c : Cycle => c.members.any (·.key == Symbol.shiftKey k key)) ∘
      Cycle.shift k) = fun c => c.members.any (·.key == key) := by
    funext c
    rw [Function.comp_apply, Cycle.shift, List.any_map]
    congr 1
    funext u
    exact Symbol.beq_shiftKey k u.key key
  have hfound := hplace _ hold
  rw [h.cycles, List.findIdx?_map, hmembers] at hfound
  exact hfound

/-- A field joins two definitions of one cycle if it did, whatever places the cycles have. -/
theorem closesCycle (n : Nat) (d : Definition) {f : Field}
    (hname : f.reference.name.value ∉ fresh) :
    t'.projection.closesCycle (shifted k n) d f = t.projection.closesCycle n d f := by
  obtain ⟨place, hinjective, hplace⟩ := h.cycleOf?
  have hown : t'.projection.cycleOf? (shifted k n, d.id) =
      (t.projection.cycleOf? (n, d.id)).map place := hplace (n, d.id)
  have htarget : (t'.fieldTarget? (shifted k n) f).bind t'.projection.cycleOf? =
      ((t.fieldTarget? n f).bind t.projection.cycleOf?).map place := by
    rw [h.fieldTarget? n hname]
    cases t.fieldTarget? n f with
    | none => rfl
    | some key => exact hplace key
  have hbeq : ∀ i j : Option Nat, (i.map place == j.map place) = (i == j) := by
    intro i j
    rw [Bool.eq_iff_iff, beq_iff_eq, beq_iff_eq, (Option.map_injective hinjective).eq_iff]
  simp only [Projection.closesCycle, hown, Option.isSome_map]
  exact congrArg _ ((congrArg (· == _) htarget).trans (hbeq _ _))

/-- The graph is told the same of a document by both tables. -/
theorem agrees (n : Nat) :
    t.projection.Agrees (· ∉ fresh) t'.projection n (shifted k n) where
  target? _ inlined wanted hname := h.target? n hname inlined wanted
  closesCycle d _ hname := h.closesCycle n d hname
  duplicate := h.contains_duplicates n

end Insertion

end SymbolTable

end EventCatalog
