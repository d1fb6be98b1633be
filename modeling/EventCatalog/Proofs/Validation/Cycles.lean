import EventCatalog.Proofs.Digraph.Parents
import EventCatalog.Proofs.Scope.Keys
import EventCatalog.Proofs.Scope.Picking
import EventCatalog.Validation
import Mathlib.Data.Set.Subsingleton

/-! # Cycles of containment and ownership

`SymbolTable.Holds` is the relation of containing or owning between the domains, services and
entities of a table.  `SymbolTable.cycles` works on keys; the lemmas here read each of its steps back
as a statement about definitions, which needs that a definition is known by its key
(`SymbolTable.Regular`).

`SymbolTable.cycles_exact` is the result: the cycles are the strongly connected components with more
than one definition or with a definition that holds itself, one cycle for each, in order, and the
path of a cycle is a shortest one through its first definition. -/

namespace EventCatalog

open Syntax Relation

namespace SymbolTable

variable {t : SymbolTable}

/-! ### The relation -/

/-- A definition of the table whose kind lets it lie on a cycle. -/
structure Vertex (t : SymbolTable) (s : Symbol) : Prop where
  exported : s ∈ t.exports
  cyclic : canBeCyclic s.kind = true

/-- A definition contains or owns another one, and both can lie on a cycle. -/
structure Holds (t : SymbolTable) (s u : Symbol) : Prop where
  holder : t.Vertex s
  held : t.Vertex u
  field : ∃ f ∈ s.definition.fields, f.isStructural = true ∧ t.Means s.document f u

/-- A strongly connected component: what a definition leads to that leads back to it. -/
def IsComponent (t : SymbolTable) (component : Set Symbol) : Prop :=
  ∃ s, t.Vertex s ∧
    component = {u | t.Vertex u ∧ ReflTransGen t.Holds s u ∧ ReflTransGen t.Holds u s}

/-- Whether there is a cycle inside a component. -/
def IsCyclic (t : SymbolTable) (component : Set Symbol) : Prop :=
  component.Nontrivial ∨ ∃ s ∈ component, t.Holds s s

theorem vertex_of_transGen {s u : Symbol} (h : TransGen t.Holds s u) : t.Vertex s ∧ t.Vertex u := by
  induction h with
  | single h => exact ⟨h.holder, h.held⟩
  | tail _ h ih => exact ⟨ih.1, h.held⟩

/-- A component with a cycle inside is a component in the sense of ways of at least one edge. -/
theorem transGen_of_isCyclic {s : Symbol}
    (h : t.IsCyclic {u | t.Vertex u ∧ ReflTransGen t.Holds s u ∧ ReflTransGen t.Holds u s}) :
    TransGen t.Holds s s := by
  rcases h with ⟨u, ⟨-, hsu, hus⟩, v, ⟨-, hsv, hvs⟩, hne⟩ | ⟨u, ⟨-, hsu, hus⟩, hself⟩
  · rcases reflTransGen_iff_eq_or_transGen.mp hsu with rfl | hsu
    · rcases reflTransGen_iff_eq_or_transGen.mp hsv with rfl | hsv
      · exact absurd rfl hne
      · exact hsv.trans_left hvs
    · exact hsu.trans_left hus
  · exact (TransGen.trans_right hsu (.single hself)).trans_left hus

/-! ### The tables of the search -/

/-- The keys of the definitions that can lie on a cycle. -/
def cyclicKeys (t : SymbolTable) : List (Nat × Nat) := t.cyclicSymbols.map Symbol.key

/-- The keys that a definition with a key leads to. -/
def nextKeys (t : SymbolTable) : Nat × Nat → List (Nat × Nat) :=
  adjacent (t.cyclicSymbols.map fun s => (s.key, t.structuralTargets s))

/-- The keys that can be reached from a key. -/
def reachedKeys (t : SymbolTable) : Nat × Nat → List (Nat × Nat) :=
  adjacent (t.cyclicKeys.map fun k => (k, Digraph.reach t.cyclicKeys t.nextKeys k))

/-- The definitions that can lie on a cycle, in order. -/
def orderedSymbols (t : SymbolTable) : List Symbol :=
  t.cyclicSymbols.mergeSort fun s u => (s.order u).isLE

/-- The keys of the definitions on a common cycle with one. -/
def componentKeys (t : SymbolTable) (s : Symbol) : List (Nat × Nat) :=
  Digraph.component t.cyclicKeys t.reachedKeys s.key

/-- The definitions on a common cycle with one, in order. -/
def membersOf (t : SymbolTable) (s : Symbol) : List Symbol :=
  t.orderedSymbols.filter ((t.componentKeys s).contains ·.key)

/-- A shortest way from a definition back to it. -/
def pathFrom (t : SymbolTable) (s : Symbol) : List Symbol :=
  (Digraph.shortestCycle (t.componentKeys s) t.nextKeys s.key).filterMap fun k =>
    t.cyclicSymbols.find? (·.key == k)

/-- The cycle that starts with a definition. -/
def cycleFrom? (t : SymbolTable) (s : Symbol) : Option Cycle :=
  match t.membersOf s with
  | [] => none
  | first :: members =>
    if first.key != s.key then none
    else some ⟨first, (t.pathFrom s).drop 1, first :: members⟩

theorem cycles_eq (t : SymbolTable) : t.cycles = t.orderedSymbols.filterMap t.cycleFrom? := rfl

theorem mem_cyclicSymbols {s : Symbol} : s ∈ t.cyclicSymbols ↔ t.Vertex s := by
  rw [cyclicSymbols, List.mem_filter, mem_symbols]
  exact ⟨fun h => ⟨h.1, h.2⟩, fun h => ⟨h.1, h.2⟩⟩

theorem mem_orderedSymbols {s : Symbol} : s ∈ t.orderedSymbols ↔ t.Vertex s := by
  rw [orderedSymbols, List.mem_mergeSort, mem_cyclicSymbols]

theorem mem_cyclicKeys {s : Symbol} (hs : t.Vertex s) : s.key ∈ t.cyclicKeys :=
  List.mem_map_of_mem (mem_cyclicSymbols.mpr hs)

namespace Regular

variable (ht : t.Regular)

include ht

theorem nodup_keys_cyclicSymbols : t.cyclicKeys.Nodup := by
  have hsymbols : t.symbols.Nodup := nodup_symbols (List.Nodup.of_map _ ht.nodup_keys)
  refine List.Nodup.map_on ?_ (hsymbols.filter _)
  intro s hs u hu hkey
  exact ht.eq_of_key_eq (mem_cyclicSymbols.mp hs).exported (mem_cyclicSymbols.mp hu).exported hkey

omit ht in
theorem adjacent_map {α : Type} (key : α → Nat × Nat) (value : α → List (Nat × Nat))
    {items : List α} (h : (items.map key).Nodup) {a : α} (ha : a ∈ items) :
    adjacent (items.map fun b => (key b, value b)) (key a) = value a := by
  have hlookup : (items.map fun b => (key b, value b)).lookup (key a) = some (value a) := by
    induction items with
    | nil => cases ha
    | cons b items ih =>
      rw [List.map_cons, List.nodup_cons] at h
      rw [List.map_cons, List.lookup_cons]
      rcases List.mem_cons.mp ha with rfl | ha
      · rw [beq_self_eq_true]
      · have hne : (key a == key b) = false :=
          beq_eq_false_iff_ne.mpr fun heq => h.1 (heq ▸ List.mem_map_of_mem ha)
        rw [hne]
        exact ih h.2 ha
  rw [adjacent, hlookup]
  rfl

/-- An edge between keys is one between definitions. -/
theorem follows_iff {s : Symbol} (hs : t.Vertex s) {k : Nat × Nat} :
    Digraph.Follows t.nextKeys t.cyclicKeys s.key k ↔ ∃ u, t.Holds s u ∧ u.key = k := by
  have hnext : t.nextKeys s.key = t.structuralTargets s :=
    adjacent_map Symbol.key t.structuralTargets ht.nodup_keys_cyclicSymbols
      (mem_cyclicSymbols.mpr hs)
  rw [Digraph.Follows, hnext]
  constructor
  · rintro ⟨htarget, hk⟩
    obtain ⟨u, hu, rfl⟩ := List.mem_map.mp hk
    obtain ⟨f, hf, hmeans⟩ := List.mem_filterMap.mp htarget
    obtain ⟨hf, hstructural⟩ := List.mem_filter.mp hf
    have hu := mem_cyclicSymbols.mp hu
    exact ⟨u, ⟨hs, hu, f, hf, hstructural,
      (ht.fieldTarget?_iff hs.exported hu.exported hf).mp hmeans⟩, rfl⟩
  · rintro ⟨u, ⟨-, hu, f, hf, hstructural, hmeans⟩, rfl⟩
    exact ⟨List.mem_filterMap.mpr ⟨f, List.mem_filter.mpr ⟨hf, hstructural⟩,
      (ht.fieldTarget?_iff hs.exported hu.exported hf).mpr hmeans⟩, mem_cyclicKeys hu⟩

theorem transGen_iff {s : Symbol} (hs : t.Vertex s) {k : Nat × Nat} :
    TransGen (Digraph.Follows t.nextKeys t.cyclicKeys) s.key k ↔
      ∃ u, TransGen t.Holds s u ∧ u.key = k := by
  constructor
  · intro h
    induction h with
    | single h =>
      obtain ⟨u, hu, rfl⟩ := (ht.follows_iff hs).mp h
      exact ⟨u, .single hu, rfl⟩
    | tail _ h ih =>
      obtain ⟨u, hu, rfl⟩ := ih
      obtain ⟨v, hv, rfl⟩ := (ht.follows_iff (vertex_of_transGen hu).2).mp h
      exact ⟨v, hu.tail hv, rfl⟩
  · rintro ⟨u, hu, rfl⟩
    induction hu with
    | single h => exact .single ((ht.follows_iff hs).mpr ⟨_, h, rfl⟩)
    | tail _ h ih => exact ih.tail ((ht.follows_iff h.holder).mpr ⟨_, h, rfl⟩)

theorem mem_reachedKeys {s u : Symbol} (hs : t.Vertex s) (hu : t.Vertex u) :
    u.key ∈ t.reachedKeys s.key ↔ TransGen t.Holds s u := by
  have hreached : t.reachedKeys s.key = Digraph.reach t.cyclicKeys t.nextKeys s.key :=
    adjacent_map id (Digraph.reach t.cyclicKeys t.nextKeys)
      (by rw [List.map_id]; exact ht.nodup_keys_cyclicSymbols) (mem_cyclicKeys hs)
  rw [hreached, Digraph.mem_reach, ht.transGen_iff hs]
  constructor
  · rintro ⟨v, hv, hkey⟩
    exact ht.eq_of_key_eq (vertex_of_transGen hv).2.exported hu.exported hkey ▸ hv
  · exact fun h => ⟨u, h, rfl⟩

theorem mem_componentKeys {s u : Symbol} (hs : t.Vertex s) (hu : t.Vertex u) :
    u.key ∈ t.componentKeys s ↔ TransGen t.Holds s u ∧ TransGen t.Holds u s := by
  rw [componentKeys, Digraph.mem_component, ht.mem_reachedKeys hs hu, ht.mem_reachedKeys hu hs]
  exact and_iff_right (mem_cyclicKeys hu)

theorem mem_membersOf {s u : Symbol} (hs : t.Vertex s) :
    u ∈ t.membersOf s ↔ TransGen t.Holds s u ∧ TransGen t.Holds u s := by
  rw [membersOf, List.mem_filter, mem_orderedSymbols, List.contains_iff_mem]
  constructor
  · exact fun h => (ht.mem_componentKeys hs h.1).mp h.2
  · intro h
    have hu := (vertex_of_transGen h.1).2
    exact ⟨hu, (ht.mem_componentKeys hs hu).mpr h⟩

theorem sorted_orderedSymbols : t.orderedSymbols.Pairwise fun s u => s.order u = .lt := by
  have hsorted : t.orderedSymbols.Pairwise fun s u => (s.order u).isLE = true :=
    List.pairwise_mergeSort Symbol.order_trans Symbol.order_total _
  have hkeys : (t.orderedSymbols.map Symbol.key).Nodup :=
    ((List.mergeSort_perm _ _).map _).nodup_iff.mpr ht.nodup_keys_cyclicSymbols
  refine (hsorted.and (List.pairwise_map.mp hkeys)).imp fun {s u} h => ?_
  have hle := Symbol.order_isLE_iff.mp h.1
  have hne : ¬(s.document = u.document ∧ s.definition.id = u.definition.id) :=
    fun heq => h.2 (Symbol.key_eq_iff.mpr heq)
  rw [Symbol.order_eq_lt_iff]
  omega

/-! ### The path of a cycle -/

/-- Around a closed walk all definitions are in one component. -/
theorem mem_componentKeys_of_closedWalk {s u : Symbol} {walk : List Symbol}
    (hwalk : Digraph.ClosedWalk t.Holds s walk) (hu : u ∈ walk) : u.key ∈ t.componentKeys s := by
  obtain ⟨hsu, hus⟩ := hwalk.reaches hu
  have hs := (vertex_of_transGen hus).2
  exact (ht.mem_componentKeys hs (vertex_of_transGen hus).1).mpr
    ⟨(TransGen.trans_right hsu hus).trans_left hsu, hus⟩

/-- The keys along a closed walk are a closed walk. -/
theorem closedWalk_keys {s : Symbol} {walk : List Symbol}
    (hwalk : Digraph.ClosedWalk t.Holds s walk) :
    Digraph.ClosedWalk (Digraph.Follows t.nextKeys (t.componentKeys s)) s.key
      (walk.map Symbol.key) := by
  have hedges : Digraph.ClosedWalk
      (fun u v => Digraph.Follows t.nextKeys (t.componentKeys s) u.key v.key) s walk :=
    hwalk.mono fun u _ v hv huv =>
      ⟨((ht.follows_iff huv.holder).mpr ⟨v, huv, rfl⟩).1,
        ht.mem_componentKeys_of_closedWalk hwalk hv⟩
  refine ⟨by rw [List.head?_map, hwalk.1]; rfl, ?_⟩
  have hchain := List.isChain_map Symbol.key |>.mpr hedges.2
  rwa [List.map_append] at hchain

omit ht in
theorem exists_map_eq {keys : List (Nat × Nat)} (h : ∀ k ∈ keys, k ∈ t.cyclicKeys) :
    ∃ path : List Symbol, (∀ u ∈ path, t.Vertex u) ∧ path.map Symbol.key = keys := by
  induction keys with
  | nil => exact ⟨[], by simp, rfl⟩
  | cons k keys ih =>
    obtain ⟨path, hpath, rfl⟩ := ih fun k' hk => h k' (List.mem_cons_of_mem _ hk)
    obtain ⟨u, hu, rfl⟩ := List.mem_map.mp (h k List.mem_cons_self)
    refine ⟨u :: path, ?_, rfl⟩
    intro v hv
    rcases List.mem_cons.mp hv with rfl | hv
    · exact mem_cyclicSymbols.mp hu
    · exact hpath v hv

theorem find?_key {u : Symbol} (hu : t.Vertex u) :
    t.cyclicSymbols.find? (·.key == u.key) = some u := by
  cases hfind : t.cyclicSymbols.find? (·.key == u.key) with
  | none =>
    have hnone := List.find?_eq_none.mp hfind u (mem_cyclicSymbols.mpr hu)
    simp at hnone
  | some v =>
    have hv := mem_cyclicSymbols.mp (List.mem_of_find?_eq_some hfind)
    have hkey : v.key = u.key := by simpa using List.find?_some hfind
    rw [ht.eq_of_key_eq hv.exported hu.exported hkey]

/-- The way from a definition back to it is the one that a search with parents finds. -/
theorem pathFrom_eq_parentCycle {s : Symbol} (h : TransGen t.Holds s s) :
    t.pathFrom s = (Digraph.parentCycle (t.componentKeys s) t.nextKeys s.key).filterMap fun k =>
      t.cyclicSymbols.find? (·.key == k) := by
  have hs := (vertex_of_transGen h).1
  have hmember : s.key ∈ t.componentKeys s := (ht.mem_componentKeys hs hs).mpr ⟨h, h⟩
  have hmembers : (t.componentKeys s).Nodup := ht.nodup_keys_cyclicSymbols.filter _
  rw [pathFrom, Digraph.parentCycle_eq hmembers hmember]

/-- From a definition on a cycle there is a shortest closed walk, and it repeats nothing. -/
theorem pathFrom_spec {s : Symbol} (h : TransGen t.Holds s s) :
    Digraph.ClosedWalk t.Holds s (t.pathFrom s) ∧ ((t.pathFrom s).map Symbol.key).Nodup ∧
      ∀ walk, Digraph.ClosedWalk t.Holds s walk → (t.pathFrom s).length ≤ walk.length := by
  have hs := (vertex_of_transGen h).1
  have hmember : s.key ∈ t.componentKeys s := (ht.mem_componentKeys hs hs).mpr ⟨h, h⟩
  have hshort := fun walk (hwalk : Digraph.ClosedWalk t.Holds s walk) =>
    Digraph.shortestCycle_spec hmember (ht.closedWalk_keys hwalk)
  obtain ⟨some_walk, hsome⟩ := Digraph.exists_closedWalk h
  obtain ⟨hclosed, hdistinct, -⟩ := hshort some_walk hsome
  have hkeys : ∀ k ∈ Digraph.shortestCycle (t.componentKeys s) t.nextKeys s.key,
      k ∈ t.cyclicKeys := by
    intro k hk
    obtain ⟨rest, hrest⟩ := hclosed.exists_cons
    have hchain := hclosed.2
    rw [hrest] at hk hchain
    rcases List.mem_cons.mp hk with rfl | hk
    · exact mem_cyclicKeys hs
    · have := Digraph.mem_of_isChain hchain (List.mem_append_left _ hk)
      exact (Digraph.mem_component.mp this).1
  obtain ⟨path, hpath, heq⟩ := exists_map_eq hkeys
  have hfrom : t.pathFrom s = path := by
    rw [pathFrom, ← heq, List.filterMap_map]
    conv_rhs => rw [← List.filterMap_some (l := path)]
    exact List.filterMap_congr fun u hu => ht.find?_key (hpath u hu)
  rw [hfrom]
  rw [← heq] at hclosed hdistinct hshort
  refine ⟨⟨?_, ?_⟩, hdistinct, fun walk hwalk => ?_⟩
  · have hhead := hclosed.1
    rw [List.head?_map] at hhead
    obtain ⟨u, hu, hkey⟩ := Option.map_eq_some_iff.mp hhead
    have hvertex := hpath u (List.mem_of_mem_head? hu)
    rw [hu, ht.eq_of_key_eq hvertex.exported hs.exported hkey]
  · have hchain := hclosed.2
    have hcons : path.map Symbol.key ++ [s.key] = (path ++ [s]).map Symbol.key := by simp
    rw [hcons, List.isChain_map] at hchain
    refine List.IsChain.imp_of_mem_imp (fun u v hu hv huv => ?_) hchain
    have hall : ∀ w ∈ path ++ [s], t.Vertex w := by
      intro w hw
      rcases List.mem_append.mp hw with hw | hw
      · exact hpath w hw
      · exact List.mem_singleton.mp hw ▸ hs
    obtain ⟨w, hw, hkey⟩ :=
      (ht.follows_iff (hall u hu)).mp ⟨huv.1, mem_cyclicKeys (hall v hv)⟩
    exact ht.eq_of_key_eq hw.held.exported (hall v hv).exported hkey ▸ hw
  · have hle := (hshort walk hwalk).2.2
    rwa [List.length_map, List.length_map] at hle

end Regular

/-! ### The cycles -/

/-- What a cycle says of the table: its members are a component with a cycle inside, in order; its
path begins at the first of them, repeats nothing and leads back there, and no way is shorter. -/
structure Reports (t : SymbolTable) (c : Cycle) : Prop where
  isComponent : t.IsComponent {s | s ∈ c.members}
  isCyclic : t.IsCyclic {s | s ∈ c.members}
  sorted : c.members.Pairwise fun s u => s.order u = .lt
  first : c.members.head? = some c.first
  nodup : (c.path.map Symbol.key).Nodup
  closed : Digraph.ClosedWalk t.Holds c.first c.path
  shortest : ∀ walk, Digraph.ClosedWalk t.Holds c.first walk → c.path.length ≤ walk.length

namespace Regular

variable (ht : t.Regular)

include ht

theorem cycleFrom?_iff {s : Symbol} (hs : t.Vertex s) {c : Cycle} :
    t.cycleFrom? s = some c ↔
      (t.membersOf s).head? = some s ∧ c = ⟨s, (t.pathFrom s).drop 1, t.membersOf s⟩ := by
  unfold cycleFrom?
  split
  · rename_i hnil
    simp [hnil]
  · rename_i first members hcons
    have hfirst : t.Vertex first :=
      mem_orderedSymbols.mp (List.mem_filter.mp (hcons ▸ List.mem_cons_self)).1
    rw [hcons, List.head?_cons]
    split
    · rename_i hne
      refine ⟨nofun, fun h => ?_⟩
      obtain rfl := Option.some.inj h.1
      simp at hne
    · rename_i heq
      have hkey : first.key = s.key := by simpa using heq
      obtain rfl := ht.eq_of_key_eq hfirst.exported hs.exported hkey
      simp [eq_comm]

theorem mem_cycles {c : Cycle} :
    c ∈ t.cycles ↔ ∃ s, t.Vertex s ∧ (t.membersOf s).head? = some s ∧
      c = ⟨s, (t.pathFrom s).drop 1, t.membersOf s⟩ := by
  rw [cycles_eq, List.mem_filterMap]
  constructor
  · rintro ⟨s, hs, hc⟩
    have hs := mem_orderedSymbols.mp hs
    exact ⟨s, hs, (ht.cycleFrom?_iff hs).mp hc⟩
  · rintro ⟨s, hs, hc⟩
    exact ⟨s, mem_orderedSymbols.mpr hs, (ht.cycleFrom?_iff hs).mpr hc⟩

theorem transGen_of_head? {s : Symbol} (hs : t.Vertex s) (h : (t.membersOf s).head? = some s) :
    TransGen t.Holds s s :=
  ((ht.mem_membersOf hs).mp (List.mem_of_mem_head? h)).1

/-- The members on a cycle with a definition are its component. -/
theorem setOf_membersOf {s : Symbol} (h : TransGen t.Holds s s) :
    {u | u ∈ t.membersOf s} =
      {u | t.Vertex u ∧ ReflTransGen t.Holds s u ∧ ReflTransGen t.Holds u s} := by
  ext u
  simp only [Set.mem_ofPred_eq, ht.mem_membersOf (vertex_of_transGen h).1]
  constructor
  · exact fun hu => ⟨(vertex_of_transGen hu.1).2, hu.1.to_reflTransGen, hu.2.to_reflTransGen⟩
  · exact fun hu => ⟨h.trans_left hu.2.1, TransGen.trans_right hu.2.2 h⟩

/-- Definitions on a common cycle have the same members. -/
theorem membersOf_eq {s u : Symbol} (hu : u ∈ t.membersOf s) (hs : t.Vertex s) :
    t.membersOf u = t.membersOf s := by
  obtain ⟨hsu, hus⟩ := (ht.mem_membersOf hs).mp hu
  refine List.filter_congr fun v hv => ?_
  have hv := mem_orderedSymbols.mp hv
  rw [Bool.eq_iff_iff, List.contains_iff_mem, List.contains_iff_mem,
    ht.mem_componentKeys (vertex_of_transGen hsu).2 hv, ht.mem_componentKeys hs hv]
  exact ⟨fun h => ⟨hsu.trans h.1, h.2.trans hus⟩, fun h => ⟨hus.trans h.1, h.2.trans hsu⟩⟩

theorem isCyclic_of_transGen {s : Symbol} (h : TransGen t.Holds s s) :
    t.IsCyclic {u | u ∈ t.membersOf s} := by
  have hs := (vertex_of_transGen h).1
  have hmem : s ∈ t.membersOf s := (ht.mem_membersOf hs).mpr ⟨h, h⟩
  obtain ⟨u, hsu, hus⟩ := TransGen.head'_iff.mp h
  by_cases hne : s = u
  · exact .inr ⟨s, hmem, by rwa [← hne] at hsu⟩
  · exact .inl ⟨s, hmem, u, (ht.mem_membersOf hs).mpr
      ⟨.single hsu, TransGen.trans_right hus h⟩, hne⟩

/-- Every cycle reports a component with a cycle inside. -/
theorem reports {c : Cycle} (hc : c ∈ t.cycles) : t.Reports c := by
  obtain ⟨s, hs, hhead, rfl⟩ := ht.mem_cycles.mp hc
  have hself := ht.transGen_of_head? hs hhead
  obtain ⟨hclosed, hdistinct, hshort⟩ := ht.pathFrom_spec hself
  have hpath : (⟨s, (t.pathFrom s).drop 1, t.membersOf s⟩ : Cycle).path = t.pathFrom s := by
    obtain ⟨rest, hrest⟩ := hclosed.exists_cons
    rw [Cycle.path, hrest]
    rfl
  exact {
    isComponent := ⟨s, hs, ht.setOf_membersOf hself⟩
    isCyclic := ht.isCyclic_of_transGen hself
    sorted := ht.sorted_orderedSymbols.filter _
    first := hhead
    nodup := hpath ▸ hdistinct
    closed := hpath ▸ hclosed
    shortest := hpath ▸ hshort }

/-- Every component with a cycle inside is reported by one cycle. -/
theorem existsUnique_cycle {component : Set Symbol} (h : t.IsComponent component)
    (hcyclic : t.IsCyclic component) : ∃! c, c ∈ t.cycles ∧ {s | s ∈ c.members} = component := by
  obtain ⟨s, hs, rfl⟩ := h
  have hself := transGen_of_isCyclic hcyclic
  have hmembers := ht.setOf_membersOf hself
  have hmem : s ∈ t.membersOf s := (ht.mem_membersOf hs).mpr ⟨hself, hself⟩
  obtain ⟨first, others, hfirst⟩ := List.exists_cons_of_ne_nil (List.ne_nil_of_mem hmem)
  have hfirstmem : first ∈ t.membersOf s := hfirst ▸ List.mem_cons_self
  have heq := ht.membersOf_eq hfirstmem hs
  have hvertex := mem_orderedSymbols.mp (List.mem_filter.mp hfirstmem).1
  refine ⟨⟨first, (t.pathFrom first).drop 1, t.membersOf first⟩, ⟨?_, ?_⟩, ?_⟩
  · exact ht.mem_cycles.mpr ⟨first, hvertex, by rw [heq, hfirst]; rfl, rfl⟩
  · rw [← hmembers, ← heq]
  · rintro c ⟨hc, hsame⟩
    obtain ⟨u, hu, hhead, rfl⟩ := ht.mem_cycles.mp hc
    have humem : u ∈ t.membersOf s := by
      have hin : u ∈ {v | v ∈ t.membersOf u} := List.mem_of_mem_head? hhead
      rw [hsame, ← hmembers] at hin
      exact hin
    have hufirst : u = first := by
      rw [ht.membersOf_eq humem hs, hfirst, List.head?_cons] at hhead
      exact (Option.some.inj hhead).symm
    rw [hufirst]

theorem sorted_cycles : t.cycles.Pairwise fun c d => c.first.order d.first = .lt := by
  have hfirst : ∀ s ∈ t.orderedSymbols, ∀ c, t.cycleFrom? s = some c → c.first = s := by
    intro s hs c hc
    rw [((ht.cycleFrom?_iff (mem_orderedSymbols.mp hs)).mp hc).2]
  rw [cycles_eq, List.pairwise_filterMap]
  refine ht.sorted_orderedSymbols.imp_of_mem fun {s u} hs hu hlt c hc d hd => ?_
  rwa [hfirst s hs c hc, hfirst u hu d hd]

end Regular

/-- Cycle detection is exact: in the table of any documents that have been read, each cycle reports a
component with a cycle inside, each such component is reported by one cycle, and the cycles are in
the order of their first definitions. -/
theorem cycles_exact (generation : Nat) (sources : List (DocumentPath × String)) :
    let t := link generation (sources.map fun (path, text) => Document.read path text)
    (∀ c ∈ t.cycles, t.Reports c) ∧
      (∀ component, t.IsComponent component → t.IsCyclic component →
        ∃! c, c ∈ t.cycles ∧ {s | s ∈ c.members} = component) ∧
      t.cycles.Pairwise fun c d => c.first.order d.first = .lt := by
  intro t
  have ht : t.Regular := regular_link_read generation sources
  exact ⟨fun c hc => ht.reports hc, fun _ h hcyclic => ht.existsUnique_cycle h hcyclic,
    ht.sorted_cycles⟩

end SymbolTable

end EventCatalog
