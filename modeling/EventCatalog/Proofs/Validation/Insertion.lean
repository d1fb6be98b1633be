import EventCatalog.Proofs.Digraph.Embedding
import EventCatalog.Proofs.Scope.Insertion
import EventCatalog.Proofs.Validation.Cycles

/-! # Validation with one more document

Put among others that have nothing to do with it, a document changes nothing in what is found in
them (`SymbolTable.Insertion.validate`).  Duplicates and the meaning of references are a matter of
tables.  For cycles the new definitions are vertices that no edge from the others leads to, so the
graph of the others is a part of the larger one (`Insertion.embeds`), and their cycles are the old
ones in the old order, along the same ways (`Insertion.cycles`). -/

namespace EventCatalog

open Syntax

/-- The cycle once another document has been put in at `k`. -/
def Cycle.shift (k : Nat) (c : Cycle) : Cycle :=
  ⟨c.first.shift k, c.others.map (Symbol.shift k), c.members.map (Symbol.shift k)⟩

namespace SymbolTable

/-- Looking up an old key among edges of which the old ones are known. -/
theorem adjacent_shift {k : Nat} {edges edges' : List ((Nat × Nat) × List (Nat × Nat))}
    (h : edges'.filter (·.1.1 != k) =
      edges.map (Prod.map (Symbol.shiftKey k) (List.map (Symbol.shiftKey k)))) (key : Nat × Nat) :
    adjacent edges' (Symbol.shiftKey k key) = (adjacent edges key).map (Symbol.shiftKey k) := by
  have hold : ∀ edges' : List ((Nat × Nat) × List (Nat × Nat)),
      edges'.lookup (Symbol.shiftKey k key) =
        (edges'.filter (·.1.1 != k)).lookup (Symbol.shiftKey k key) := by
    intro edges'
    induction edges' with
    | nil => rfl
    | cons e edges' ih =>
      rw [List.lookup_cons, List.filter_cons]
      cases he : Symbol.shiftKey k key == e.1 with
      | true =>
        have hold : (e.1.1 != k) = true :=
          beq_iff_eq.mp he ▸ bne_iff_ne.mpr (shifted_ne k key.1)
        rw [if_pos hold, List.lookup_cons, he]
      | false =>
        rw [ih]
        by_cases hk : (e.1.1 != k) = true
        · rw [if_pos hk, List.lookup_cons, he]
        · rw [if_neg hk]
  have hmap : ∀ edges : List ((Nat × Nat) × List (Nat × Nat)),
      (edges.map (Prod.map (Symbol.shiftKey k) (List.map (Symbol.shiftKey k)))).lookup
        (Symbol.shiftKey k key) = (edges.lookup key).map (List.map (Symbol.shiftKey k)) := by
    intro edges
    induction edges with
    | nil => rfl
    | cons e edges ih =>
      rw [List.map_cons, List.lookup_cons, List.lookup_cons, Prod.map_fst, Symbol.beq_shiftKey, ih]
      cases key == e.1 <;> rfl
  rw [adjacent, hold, h, hmap, adjacent]
  cases edges.lookup key <;> rfl

namespace Insertion

variable {k : Nat} {fresh : List String} {t t' : SymbolTable} (h : Insertion k fresh t t')

include h

/-! ### Definitions that can lie on a cycle -/

theorem mem_fresh_iff {s : Symbol} (hs : s ∈ t'.exports) : s.name ∈ fresh ↔ s.document = k := by
  refine ⟨fun hname => ?_, h.new s hs⟩
  by_contra hk
  obtain ⟨u, hu, rfl⟩ := h.exists_shift hs hk
  exact h.exported u hu hname

/-- Old names occur first in the old order. -/
theorem names : t'.names.filter (!fresh.contains ·) = t.names := by
  have hold : ∀ s ∈ t'.exports, (!fresh.contains s.name) = (s.document != k) := by
    intro s hs
    rw [bne, Bool.eq_iff_iff, Bool.not_eq_true', Bool.not_eq_true', ← Bool.not_eq_true,
      ← Bool.not_eq_true, List.contains_iff_mem, beq_iff_eq, h.mem_fresh_iff hs]
  rw [SymbolTable.names, filter_eraseDups, List.filter_map, SymbolTable.names]
  simp only [Function.comp_def]
  rw [List.filter_congr hold, h.exports, List.map_map]
  rfl

/-- The definitions of the others come one after another as they did. -/
theorem symbols : t'.symbols.filter (·.document != k) = t.symbols.map (Symbol.shift k) := by
  have hold : ∀ name ∈ t.names,
      (t'.lookup name).filter (·.document != k) = (t.lookup name).map (Symbol.shift k) := by
    intro name hname
    rw [SymbolTable.names, List.mem_eraseDups] at hname
    obtain ⟨s, hs, rfl⟩ := List.mem_map.mp hname
    rw [h.lookup (h.exported s hs), Symbol.filter_map_shift]
  -- A fresh name may stand before old ones, but then all its definitions are new.
  have hnew : ∀ name ∈ t'.names, (!fresh.contains name) = false →
      (t'.lookup name).filter (·.document != k) = [] := by
    intro name _ hname
    refine List.filter_eq_nil_iff.mpr fun s hs => ?_
    obtain ⟨hexported, rfl⟩ := mem_lookup.mp hs
    have hfresh : s.name ∈ fresh := by simpa using hname
    simp [(h.mem_fresh_iff hexported).mp hfresh]
  rw [SymbolTable.symbols, List.filter_flatMap, ← flatMap_filter_of_nil hnew, h.names,
    SymbolTable.symbols, List.map_flatMap]
  exact List.flatMap_congr hold

theorem cyclicSymbols :
    t'.cyclicSymbols.filter (·.document != k) = t.cyclicSymbols.map (Symbol.shift k) := by
  rw [SymbolTable.cyclicSymbols, filter_comm, h.symbols, List.filter_map,
    SymbolTable.cyclicSymbols]
  rfl

theorem orderedSymbols :
    t'.orderedSymbols.filter (·.document != k) = t.orderedSymbols.map (Symbol.shift k) := by
  rw [SymbolTable.orderedSymbols, filter_mergeSort Symbol.order_trans Symbol.order_total,
    h.cyclicSymbols, SymbolTable.orderedSymbols, List.map_mergeSort]
  exact fun s _ u _ => congrArg Ordering.isLE (Symbol.order_shift k s u).symm

/-! ### The graph of containment and ownership -/

theorem structuralTargets {s : Symbol} (hs : s ∈ t.exports) :
    t'.structuralTargets (s.shift k) = (t.structuralTargets s).map (Symbol.shiftKey k) := by
  rw [SymbolTable.structuralTargets, SymbolTable.structuralTargets, List.map_filterMap]
  refine List.filterMap_congr fun f hf => ?_
  exact h.fieldTarget? s.document (h.referenced s hs f (List.mem_filter.mp hf).1)

theorem cyclicKeys :
    t'.cyclicKeys.filter (·.1 != k) = t.cyclicKeys.map (Symbol.shiftKey k) := by
  have hold : ((fun key : Nat × Nat => key.1 != k) ∘ Symbol.key) = fun s => s.document != k := rfl
  rw [SymbolTable.cyclicKeys, List.filter_map, hold, h.cyclicSymbols, SymbolTable.cyclicKeys,
    List.map_map, List.map_map]
  rfl

/-- The graph of the others is a part of the larger one, which no edge leaves. -/
theorem embeds :
    Digraph.Embeds (Symbol.shiftKey k) (·.1 != k) t.nextKeys t'.nextKeys where
  injective _ _ := (Symbol.shiftKey_inj k).mp
  old_map key := bne_iff_ne.mpr (shifted_ne k key.1)
  next_map := by
    refine adjacent_shift ?_
    have hold : ((fun e : (Nat × Nat) × List (Nat × Nat) => e.1.1 != k) ∘
        fun s => (s.key, t'.structuralTargets s)) = fun s => s.document != k := rfl
    rw [List.filter_map, hold, h.cyclicSymbols, List.map_map, List.map_map]
    refine List.map_congr_left fun s hs => Prod.ext rfl ?_
    exact h.structuralTargets (mem_cyclicSymbols.mp hs).exported

theorem embeds_reached :
    Digraph.Embeds (Symbol.shiftKey k) (·.1 != k) t.reachedKeys t'.reachedKeys where
  injective := h.embeds.injective
  old_map := h.embeds.old_map
  next_map := by
    refine adjacent_shift ?_
    have hold : ((fun e : (Nat × Nat) × List (Nat × Nat) => e.1.1 != k) ∘
        fun key => (key, Digraph.reach t'.cyclicKeys t'.nextKeys key)) =
          fun key => key.1 != k := rfl
    rw [List.filter_map, hold, h.cyclicKeys, List.map_map, List.map_map]
    exact List.map_congr_left fun key _ => Prod.ext rfl (h.embeds.reach_map h.cyclicKeys key)

theorem componentKeys (s : Symbol) :
    t'.componentKeys (s.shift k) = (t.componentKeys s).map (Symbol.shiftKey k) :=
  h.embeds_reached.component_map h.cyclicKeys s.key

theorem membersOf (s : Symbol) :
    t'.membersOf (s.shift k) = (t.membersOf s).map (Symbol.shift k) := by
  have hold : ∀ u ∈ t'.orderedSymbols,
      (t'.componentKeys (s.shift k)).contains u.key = true → (u.document != k) = true := by
    intro u _ hu
    rw [List.contains_iff_mem, h.componentKeys] at hu
    exact bne_iff_ne.mpr (Symbol.ne_of_mem_map_shiftKey k hu)
  rw [SymbolTable.membersOf, ← filter_filter_of_imp hold, h.orderedSymbols, List.filter_map,
    h.componentKeys, SymbolTable.membersOf]
  congr 2
  funext u
  exact Symbol.contains_map_shiftKey k (t.componentKeys s) u.key

theorem find?_key_shift (key : Nat × Nat) :
    t'.cyclicSymbols.find? (·.key == Symbol.shiftKey k key) =
      (t.cyclicSymbols.find? (·.key == key)).map (Symbol.shift k) := by
  have hold : ∀ u ∈ t'.cyclicSymbols,
      (u.key == Symbol.shiftKey k key) = true → (u.document != k) = true := by
    intro u _ hu
    have hdocument : u.document = shifted k key.1 := congrArg Prod.fst (beq_iff_eq.mp hu)
    exact bne_iff_ne.mpr (hdocument ▸ shifted_ne k key.1)
  rw [← find?_filter_of_imp hold, h.cyclicSymbols, List.find?_map]
  congr 2
  funext u
  exact Symbol.beq_shiftKey k u.key key

theorem pathFrom (s : Symbol) :
    t'.pathFrom (s.shift k) = (t.pathFrom s).map (Symbol.shift k) := by
  rw [SymbolTable.pathFrom, h.componentKeys, Symbol.key_shift, h.embeds.shortestCycle_map,
    List.filterMap_map, SymbolTable.pathFrom, List.map_filterMap]
  exact List.filterMap_congr fun key _ => h.find?_key_shift key

theorem cycleFrom? (s : Symbol) :
    t'.cycleFrom? (s.shift k) = (t.cycleFrom? s).map (Cycle.shift k) := by
  rw [SymbolTable.cycleFrom?, h.membersOf, h.pathFrom, SymbolTable.cycleFrom?]
  cases t.membersOf s with
  | nil => rfl
  | cons first members =>
    simp only [List.map_cons, Symbol.key_shift, bne, Symbol.beq_shiftKey]
    split
    · rfl
    · rw [← List.map_drop]
      rfl

omit h in
theorem key_of_cycleFrom? {s : Symbol} {c : Cycle} (hc : t.cycleFrom? s = some c) :
    c.first.key = s.key ∧ c.members = t.membersOf s := by
  rw [SymbolTable.cycleFrom?] at hc
  split at hc
  · cases hc
  · rename_i first members hmembers
    split at hc
    · cases hc
    · rename_i hkey
      cases hc
      exact ⟨by simpa using hkey, hmembers.symm⟩

/-- The cycles of the others are the old ones. -/
theorem cycles : t'.cycles.filter (·.first.document != k) = t.cycles.map (Cycle.shift k) := by
  have hfirst : ∀ s c, t'.cycleFrom? s = some c →
      (c.first.document != k) = (s.document != k) := by
    intro s c hc
    rw [(Symbol.key_eq_iff.mp (key_of_cycleFrom? hc).1).1]
  rw [cycles_eq, filter_filterMap_eq hfirst, h.orderedSymbols, List.filterMap_map, cycles_eq,
    List.map_filterMap]
  exact List.filterMap_congr fun s _ => h.cycleFrom? s

/-! ### Complaints -/

theorem duplicate (d : Duplicate) :
    Validation.duplicate t' (d.shift k) = Validation.duplicate t d := by
  have hsame : shifted k d.first.document = shifted k d.symbol.document ↔
      d.first.document = d.symbol.document := shifted_inj
  simp only [Validation.duplicate, Duplicate.shift, Symbol.document_shift, hsame, h.pathOf?]
  rfl

theorem duplicatesIn (n : Nat) :
    Validation.duplicates t' (shifted k n) = Validation.duplicates t n := by
  have hold : ∀ d ∈ t'.duplicates,
      (d.symbol.document == shifted k n) = true → (d.symbol.document != k) = true :=
    fun _ _ => bne_of_beq_shifted
  have hdocument : ((fun d : Duplicate => d.symbol.document == shifted k n) ∘ Duplicate.shift k) =
      fun d => d.symbol.document == n := funext fun d => beq_shifted k d.symbol.document n
  rw [Validation.duplicates, ← filter_filter_of_imp hold, h.duplicates, List.filter_map, hdocument,
    List.map_map, Validation.duplicates]
  exact List.map_congr_left fun d _ => h.duplicate d

theorem availableVersions {name : String} (hname : name ∉ fresh) (wanted : Wanted) :
    Validation.availableVersions t' name wanted = Validation.availableVersions t name wanted := by
  rw [Validation.availableVersions, h.lookup hname, List.filter_map, List.map_map]
  rfl

theorem reference (n : Nat) {f : Field} (hname : f.reference.name.value ∉ fresh) :
    Validation.reference t' (shifted k n) f = Validation.reference t n f := by
  simp only [Validation.reference, h.resolve n hname, h.availableVersions hname]
  cases t.resolve n f.reference f.wanted <;> rfl

theorem definition (rules : ValidationRules) (n : Nat) {d : Definition}
    (hnames : ∀ f ∈ d.fields, f.reference.name.value ∉ fresh) :
    Validation.definition t' rules (shifted k n) d = Validation.definition t rules n d := by
  rw [Validation.definition, Validation.definition]
  congr 1
  exact List.flatMap_congr fun f hf => h.reference n (hnames f (List.mem_filter.mp hf).1)

theorem cycle (c : Cycle) : Validation.cycle t' (c.shift k) = Validation.cycle t c := by
  have hdescribe : (c.shift k).describe = c.describe := by
    have hpath : (c.shift k).path ++ [(c.shift k).first] =
        (c.path ++ [c.first]).map (Symbol.shift k) := by
      simp [Cycle.path, Cycle.shift]
    rw [Cycle.describe, hpath, List.map_map, Cycle.describe]
    rfl
  have hsame : ∀ s : Symbol, shifted k s.document = shifted k c.first.document ↔
      s.document = c.first.document := fun _ => shifted_inj
  rw [Validation.cycle, hdescribe]
  simp only [Cycle.shift, List.foldl_map, Symbol.document_shift, hsame, h.pathOf?]
  rfl

theorem cyclesIn (n : Nat) :
    (t'.cycles.filter (·.first.document == shifted k n)).map (Validation.cycle t') =
      (t.cycles.filter (·.first.document == n)).map (Validation.cycle t) := by
  have hold : ∀ c ∈ t'.cycles,
      (c.first.document == shifted k n) = true → (c.first.document != k) = true :=
    fun _ _ => bne_of_beq_shifted
  have hdocument : ((fun c : Cycle => c.first.document == shifted k n) ∘ Cycle.shift k) =
      fun c => c.first.document == n := funext fun c => beq_shifted k c.first.document n
  rw [← filter_filter_of_imp hold, h.cycles, List.filter_map, hdocument, List.map_map]
  exact List.map_congr_left fun c _ => h.cycle c

/-- What is found in a document that refers to no fresh name is what was found before. -/
theorem validate (rules : ValidationRules) (n : Nat) {p : Program}
    (hnames : ∀ d ∈ p.all, ∀ f ∈ d.fields, f.reference.name.value ∉ fresh) :
    EventCatalog.validate t' t'.cycles rules (shifted k n) p =
      EventCatalog.validate t t.cycles rules n p := by
  rw [EventCatalog.validate, h.linkDiagnostics, h.duplicatesIn, h.cyclesIn, EventCatalog.validate]
  congr 2
  exact List.flatMap_congr fun d hd => h.definition rules n (hnames d hd)

end Insertion

end SymbolTable

end EventCatalog
