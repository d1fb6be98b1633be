import EventCatalog.Proofs.Scope.Bindings
import EventCatalog.Proofs.Scope.Picking
import EventCatalog.Proofs.Syntax.Natural.Statement
import Mathlib.Data.List.Nodup

/-! # A document put among others

One more document in a list shifts the numbers of those behind it.  `SymbolTable.Insertion` relates
the tables of the two lists when no name that the new document defines is defined or imported by the
others: the definitions of the others are the old ones, shifted, in the old order.  So what the
tables are asked for one of the other documents has the same answer, shifted: what a name can mean,
what a reference means (`Insertion.resolve`), and which definitions are duplicates
(`Insertion.duplicates`).

`SymbolTable.insertion_link` says that linking gives such tables, if no other document imports the
new one. -/

namespace EventCatalog

open Syntax

/-- The names that a document defines. -/
def Document.names (d : Document) : List String := d.exports.map (·.name.value)

/-- Some documents have nothing to do with another one: it is at a path of its own, none of them
imports it, and they neither define nor refer to nor import a name that it defines. -/
structure Unrelated (documents : List Document) (doc : Document) : Prop where
  path : ∀ d ∈ documents, d.path ≠ doc.path
  source : ∀ d ∈ documents, ∀ i ∈ d.program.imports, d.path.join i.source.value ≠ doc.path
  exported : ∀ d ∈ documents, ∀ c ∈ d.exports, c.name.value ∉ doc.names
  referenced : ∀ d ∈ documents, ∀ c ∈ d.exports, ∀ f ∈ c.fields,
    f.reference.name.value ∉ doc.names
  imported : ∀ d ∈ documents, ∀ i ∈ d.program.imports, ∀ n ∈ i.names, n.name.value ∉ doc.names

/-! ### Shifted numbers -/

/-- The number of a document once another one has been put in at `k`. -/
def shifted (k n : Nat) : Nat := if n < k then n else n + 1

section

variable {k m n : Nat}

theorem shifted_lt_iff : shifted k m < shifted k n ↔ m < n := by
  unfold shifted
  split <;> split <;> omega

theorem shifted_inj : shifted k m = shifted k n ↔ m = n := by
  unfold shifted
  split <;> split <;> omega

theorem shifted_ne (k n : Nat) : shifted k n ≠ k := by
  unfold shifted
  split <;> omega

theorem exists_shifted (h : n ≠ k) : ∃ m, shifted k m = n := by
  by_cases hlt : n < k
  · exact ⟨n, if_pos hlt⟩
  · refine ⟨n - 1, ?_⟩
    rw [shifted, if_neg (by omega)]
    omega

theorem beq_shifted (k m n : Nat) : (shifted k m == shifted k n) = (m == n) := by
  rw [Bool.eq_iff_iff, beq_iff_eq, beq_iff_eq, shifted_inj]

theorem bne_of_beq_shifted (h : (m == shifted k n) = true) : (m != k) = true :=
  bne_iff_ne.mpr (beq_iff_eq.mp h ▸ shifted_ne k n)

theorem compare_shifted (k m n : Nat) : compare (shifted k m) (shifted k n) = compare m n := by
  simp only [Nat.compare_eq_ite_lt, shifted_lt_iff]

end

namespace Symbol

/-- The definition once another document has been put in at `k`. -/
def shift (k : Nat) (s : Symbol) : Symbol := ⟨shifted k s.document, s.definition⟩

/-- The key of the definition with a key once another document has been put in at `k`. -/
def shiftKey (k : Nat) (key : Nat × Nat) : Nat × Nat := (shifted k key.1, key.2)

variable (k : Nat) (s u : Symbol)

@[simp] theorem document_shift : (s.shift k).document = shifted k s.document := rfl

@[simp] theorem definition_shift : (s.shift k).definition = s.definition := rfl

@[simp] theorem name_shift : (s.shift k).name = s.name := rfl

@[simp] theorem kind_shift : (s.shift k).kind = s.kind := rfl

@[simp] theorem version_shift : (s.shift k).version = s.version := rfl

@[simp] theorem key_shift : (s.shift k).key = shiftKey k s.key := rfl

theorem order_shift : (s.shift k).order (u.shift k) = s.order u := by
  simp only [order, document_shift, definition_shift, compare_shifted]

theorem shiftKey_inj {key other : Nat × Nat} : shiftKey k key = shiftKey k other ↔ key = other := by
  simp only [shiftKey, Prod.ext_iff, shifted_inj]

theorem beq_shiftKey (key other : Nat × Nat) :
    (shiftKey k key == shiftKey k other) = (key == other) := by
  rw [Bool.eq_iff_iff, beq_iff_eq, beq_iff_eq, shiftKey_inj]

theorem ne_of_mem_map_shiftKey {key : Nat × Nat} {keys : List (Nat × Nat)}
    (h : key ∈ keys.map (shiftKey k)) : key.1 ≠ k := by
  obtain ⟨old, -, rfl⟩ := List.mem_map.mp h
  exact shifted_ne k old.1

theorem contains_map_shiftKey (keys : List (Nat × Nat)) (key : Nat × Nat) :
    (keys.map (shiftKey k)).contains (shiftKey k key) = keys.contains key := by
  rw [Bool.eq_iff_iff, List.contains_iff_mem, List.contains_iff_mem]
  exact List.mem_map_of_injective fun _ _ => (shiftKey_inj k).mp

/-- Shifted definitions are not in the new document. -/
theorem filter_map_shift (symbols : List Symbol) :
    (symbols.map (shift k)).filter (·.document != k) = symbols.map (shift k) := by
  refine List.filter_eq_self.mpr fun s hs => ?_
  obtain ⟨u, -, rfl⟩ := List.mem_map.mp hs
  exact bne_iff_ne.mpr (shifted_ne k u.document)

end Symbol

/-- The binding once another document has been put in at `k`. -/
def Binding.shift (k : Nat) (b : Binding) : Binding := { b with target := b.target.map (shifted k) }

/-- The scope once another document has been put in at `k`. -/
def DocumentScope.shift (k : Nat) (scope : DocumentScope) : DocumentScope :=
  { scope with imports := scope.imports.map fun (key, b) => (key, b.shift k) }

/-- The duplicate once another document has been put in at `k`. -/
def Duplicate.shift (k : Nat) (d : Duplicate) : Duplicate := ⟨d.symbol.shift k, d.first.shift k⟩

/-- Selecting by version looks at versions alone. -/
theorem Selector.select_map {α β : Type} (f : α → β) {versionOf : α → Option String}
    {versionOf' : β → Option String} (hf : ∀ a, versionOf' (f a) = versionOf a) (s : Selector)
    (candidates : List α) :
    s.select versionOf' (candidates.map f) = (s.select versionOf candidates).map f := by
  have hnewer : ∀ a b, newer versionOf' (f a) (f b) = f (newer versionOf a b) := by
    intro a b
    rw [newer, newer, hf, hf]
    split <;> rfl
  have hfold : ∀ (others : List α) (first : α), (others.map f).foldl (newer versionOf') (f first) =
      f (others.foldl (newer versionOf) first) := by
    intro others
    induction others with
    | nil => exact fun _ => rfl
    | cons b others ih => intro first; rw [List.map_cons, List.foldl_cons, hnewer, ih]; rfl
  have hadmits : (fun b => s.admits (versionOf' b)) ∘ f = fun a => s.admits (versionOf a) := by
    funext a
    rw [Function.comp_apply, hf]
  rw [select, select, List.filter_map, hadmits]
  cases candidates.filter fun a => s.admits (versionOf a) with
  | nil => rfl
  | cons first others => exact congrArg some (hfold others first)

namespace SymbolTable

/-- The second table is the first with one more document at `k`, all of whose names are fresh, and
nothing that the others define, refer to or import is. -/
structure Insertion (k : Nat) (fresh : List String) (t t' : SymbolTable) : Prop where
  exports : t'.exports.filter (·.document != k) = t.exports.map (Symbol.shift k)
  documents : ∀ n, t'.documents[shifted k n]? = t.documents[n]?.map (DocumentScope.shift k)
  new : ∀ s ∈ t'.exports, s.document = k → s.name ∈ fresh
  exported : ∀ s ∈ t.exports, s.name ∉ fresh
  referenced : ∀ s ∈ t.exports, ∀ f ∈ s.definition.fields, f.reference.name.value ∉ fresh
  imported : ∀ scope ∈ t.documents, ∀ x ∈ scope.imports, x.2.name ∉ fresh

namespace Insertion

variable {k : Nat} {fresh : List String} {t t' : SymbolTable} (h : Insertion k fresh t t')

include h

/-! ### Lookup -/

/-- What is true of no new definition picks the old ones. -/
theorem filter_exports {p : Symbol → Bool}
    (hp : ∀ s ∈ t'.exports, p s = true → s.document ≠ k) :
    t'.exports.filter p = (t.exports.filter (p ∘ Symbol.shift k)).map (Symbol.shift k) := by
  rw [← List.filter_map, ← h.exports, filter_filter_of_imp]
  exact fun s hs hps => bne_iff_ne.mpr (hp s hs hps)

/-- A definition outside of the new document is an old one. -/
theorem exists_shift {s : Symbol} (hs : s ∈ t'.exports) (hk : s.document ≠ k) :
    ∃ u ∈ t.exports, u.shift k = s := by
  have hmem : s ∈ t'.exports.filter (·.document != k) :=
    List.mem_filter.mpr ⟨hs, bne_iff_ne.mpr hk⟩
  rw [h.exports] at hmem
  exact List.mem_map.mp hmem

theorem lookup {name : String} (hname : name ∉ fresh) :
    t'.lookup name = (t.lookup name).map (Symbol.shift k) :=
  h.filter_exports fun s hs heq hk => hname (beq_iff_eq.mp heq ▸ h.new s hs hk)

theorem exportedBy (n : Nat) {name : String} (hname : name ∉ fresh) :
    t'.exportedBy (shifted k n) name = (t.exportedBy n name).map (Symbol.shift k) := by
  rw [SymbolTable.exportedBy, h.lookup hname, List.filter_map, SymbolTable.exportedBy]
  congr 2
  funext s
  exact beq_shifted k s.document n

theorem pathOf? (n : Nat) : t'.pathOf? (shifted k n) = t.pathOf? n := by
  rw [SymbolTable.pathOf?, h.documents, SymbolTable.pathOf?, Option.map_map]
  rfl

theorem linkDiagnostics (n : Nat) : t'.linkDiagnostics (shifted k n) = t.linkDiagnostics n := by
  rw [SymbolTable.linkDiagnostics, h.documents, SymbolTable.linkDiagnostics, Option.map_map]
  rfl

theorem imports (n : Nat) :
    t'.imports (shifted k n) = (t.imports n).map fun (key, b) => (key, b.shift k) := by
  rw [SymbolTable.imports, h.documents, SymbolTable.imports]
  cases t.documents[n]? <;> rfl

theorem not_fresh_of_imports {n : Nat} {x : String × Binding} (hx : x ∈ t.imports n) :
    x.2.name ∉ fresh := by
  rw [SymbolTable.imports] at hx
  cases hscope : t.documents[n]? with
  | none =>
    rw [hscope] at hx
    cases hx
  | some scope =>
    rw [hscope] at hx
    exact h.imported scope (List.mem_of_getElem? hscope) x hx

/-! ### Resolution -/

theorem candidates (n : Nat) {name : String} (hname : name ∉ fresh) :
    t'.candidates (shifted k n) name = (t.candidates n name).map (Symbol.shift k) := by
  rw [SymbolTable.candidates, SymbolTable.candidates, h.imports, Entries.get?_map]
  cases hget : (t.imports n).get? name with
  | none => exact h.lookup hname
  | some b =>
    have hb : b.name ∉ fresh := h.not_fresh_of_imports (Entries.mem_of_get? hget)
    cases htarget : b.target with
    | none => simp only [Option.map_some, Binding.shift, htarget, Option.map_none, h.lookup hb,
        List.isEmpty_nil, if_true]
    | some target =>
      simp only [Option.map_some, Binding.shift, htarget, h.lookup hb, h.exportedBy target hb,
        List.isEmpty_map]
      split <;> rfl

/-- A reference with an old name means what it meant. -/
theorem resolve (n : Nat) {r : Reference} (hname : r.name.value ∉ fresh) (wanted : Wanted) :
    t'.resolve (shifted k n) r wanted = (t.resolve n r wanted).map (Symbol.shift k) := by
  have hown : ((fun s : Symbol => s.document == shifted k n) ∘ Symbol.shift k) =
      fun s => s.document == n := funext fun s => beq_shifted k s.document n
  have hforeign : ((fun s : Symbol => s.document != shifted k n) ∘ Symbol.shift k) =
      fun s => s.document != n := funext fun s => congrArg not (beq_shifted k s.document n)
  have haccepted : ((fun s : Symbol => wanted.accepts s.kind) ∘ Symbol.shift k) =
      fun s => wanted.accepts s.kind := rfl
  rw [SymbolTable.resolve, SymbolTable.resolve, h.candidates n hname]
  cases t.candidates n r.name.value with
  | nil => rfl
  | cons first others =>
    simp only [List.map_cons]
    rw [← List.map_cons (f := Symbol.shift k), List.filter_map, haccepted, List.isEmpty_map]
    split
    · rfl
    · rw [List.filter_map, List.filter_map, hown, hforeign, ← List.map_append,
        Selector.select_map (Symbol.shift k) (Symbol.version_shift k)]
      cases r.selector.select Symbol.version _ <;> rfl

theorem fieldTarget? (n : Nat) {f : Field} (hname : f.reference.name.value ∉ fresh) :
    t'.fieldTarget? (shifted k n) f = (t.fieldTarget? n f).map (Symbol.shiftKey k) := by
  rw [SymbolTable.fieldTarget?, SymbolTable.fieldTarget?]
  cases f.inlined with
  | some d => rfl
  | none =>
    simp only [h.resolve n hname]
    cases t.resolve n f.reference f.wanted <;> rfl

/-! ### Duplicates -/

theorem renames (n source : Nat) (name : String) :
    t'.renames (shifted k n) (shifted k source) name = t.renames n source name := by
  have htarget : ∀ b : Binding,
      ((b.shift k).target == some (shifted k source)) = (b.target == some source) := by
    intro b
    cases htarget : b.target with
    | none => simp [Binding.shift, htarget]
    | some target => simp [Binding.shift, htarget, beq_shifted]
  rw [SymbolTable.renames, h.imports, List.any_map, SymbolTable.renames]
  congr 1
  funext x
  simp only [Function.comp_apply, htarget]
  rfl

theorem firstLike? {s : Symbol} (hs : s ∈ t.exports) :
    t'.firstLike? (s.shift k) = (t.firstLike? s).map (Symbol.shift k) := by
  rw [SymbolTable.firstLike?, Symbol.name_shift, h.lookup (h.exported s hs), List.find?_map]
  rfl

theorem exempt (s u : Symbol) : t'.exempt (s.shift k) (u.shift k) = t.exempt s u := by
  simp only [SymbolTable.exempt, Symbol.document_shift, Symbol.name_shift, h.renames, bne,
    beq_shifted]

omit h in
theorem symbol_of_duplicate? {s : Symbol} {d : Duplicate} (hd : t.duplicate? s = some d) :
    d.symbol = s := by
  rw [SymbolTable.duplicate?] at hd
  split at hd
  · split at hd
    · cases hd
    · cases hd
      rfl
  · cases hd

theorem duplicate? {s : Symbol} (hs : s ∈ t.exports) :
    t'.duplicate? (s.shift k) = (t.duplicate? s).map (Duplicate.shift k) := by
  rw [SymbolTable.duplicate?, SymbolTable.duplicate?, h.firstLike? hs]
  cases t.firstLike? s with
  | none => rfl
  | some first =>
    simp only [Option.map_some, Symbol.key_shift, Symbol.beq_shiftKey, h.exempt]
    split <;> rfl

/-- The duplicates among the old definitions are the old ones. -/
theorem duplicates :
    t'.duplicates.filter (·.symbol.document != k) = t.duplicates.map (Duplicate.shift k) := by
  have hsymbol : ∀ s d, t'.duplicate? s = some d →
      (d.symbol.document != k) = (s.document != k) := by
    intro s d hd
    rw [symbol_of_duplicate? hd]
  rw [SymbolTable.duplicates, filter_filterMap_eq hsymbol, h.exports, List.filterMap_map,
    SymbolTable.duplicates, List.map_filterMap]
  exact List.filterMap_congr fun s hs => h.duplicate? hs

end Insertion

/-! ### Linking with one more document -/

theorem exportsOf_eq_flatMap (number : Nat) (documents : List Document) :
    exportsOf number documents =
      (documents.zipIdx number).flatMap fun (d, i) => d.exports.map (⟨i, ·⟩) := by
  induction documents generalizing number with
  | nil => rfl
  | cons d documents ih => rw [exportsOf, ih, List.zipIdx_cons, List.flatMap_cons]

section

variable {before after : List Document} {doc : Document}

/-- The numbers of documents among which another one is put. -/
theorem zipIdx_insert : (before ++ doc :: after).zipIdx =
    before.zipIdx.map (Prod.map id (shifted before.length)) ++ (doc, before.length) ::
      (after.zipIdx before.length).map (Prod.map id (shifted before.length)) := by
  have hbefore : before.zipIdx.map (Prod.map id (shifted before.length)) = before.zipIdx := by
    refine (List.map_congr_left fun p hp => ?_).trans (List.map_id _)
    have hlt : shifted before.length p.2 = p.2 := if_pos (List.snd_lt_of_mem_zipIdx hp)
    exact Prod.ext rfl hlt
  have hafter : (after.zipIdx before.length).map (Prod.map id (shifted before.length)) =
      after.zipIdx (before.length + 1) := by
    rw [List.zipIdx_succ]
    refine List.map_congr_left fun p hp => ?_
    have hle : before.length ≤ p.2 := List.le_snd_of_mem_zipIdx hp
    exact Prod.ext rfl (if_neg (Nat.not_lt.mpr hle))
  rw [hbefore, hafter, List.zipIdx_append, List.zipIdx_cons, Nat.zero_add]

theorem exports_insert : exportsOf 0 (before ++ doc :: after) =
    (exportsOf 0 before).map (Symbol.shift before.length) ++
      (doc.exports.map (⟨before.length, ·⟩) ++
        (exportsOf before.length after).map (Symbol.shift before.length)) := by
  have hshift : ∀ numbered : List (Document × Nat),
      ((numbered.map (Prod.map id (shifted before.length))).flatMap
        fun (d, i) => d.exports.map (⟨i, ·⟩)) =
      (numbered.flatMap fun (d, i) => d.exports.map (⟨i, ·⟩)).map (Symbol.shift before.length) := by
    intro numbered
    rw [List.flatMap_map, List.map_flatMap]
    simp only [List.map_map]
    rfl
  simp only [exportsOf_eq_flatMap, zipIdx_insert, List.flatMap_append, List.flatMap_cons, hshift]

theorem exportsOf_append (before after : List Document) :
    exportsOf 0 (before ++ after) = exportsOf 0 before ++ exportsOf before.length after := by
  simp only [exportsOf_eq_flatMap, List.zipIdx_append, List.flatMap_append, Nat.zero_add]

theorem filter_exports_insert :
    (exportsOf 0 (before ++ doc :: after)).filter (·.document != before.length) =
      (exportsOf 0 (before ++ after)).map (Symbol.shift before.length) := by
  have hnew : (doc.exports.map fun d => (⟨before.length, d⟩ : Symbol)).filter
      (·.document != before.length) = [] := by
    refine List.filter_eq_nil_iff.mpr fun s hs => ?_
    obtain ⟨d, -, rfl⟩ := List.mem_map.mp hs
    simp
  rw [exports_insert, List.filter_append, List.filter_append, Symbol.filter_map_shift,
    Symbol.filter_map_shift, hnew, List.nil_append, exportsOf_append, List.map_append]

/-- At other paths the last documents are the old ones. -/
theorem lastAt?_insert {path : DocumentPath} (hpath : doc.path ≠ path) :
    lastAt? (before ++ doc :: after) path =
      (lastAt? (before ++ after) path).map (shifted before.length) := by
  have hfilter : (before ++ doc :: after).zipIdx.filter (·.1.path == path) =
      ((before ++ after).zipIdx.filter (·.1.path == path)).map
        (Prod.map id (shifted before.length)) := by
    rw [zipIdx_insert, List.filter_append, List.filter_cons_of_neg (by simpa using hpath),
      List.zipIdx_append, Nat.zero_add, List.filter_append, List.map_append, List.filter_map,
      List.filter_map]
    rfl
  rw [lastAt?, hfilter, List.getLast?_map, Option.map_map, lastAt?, Option.map_map]
  rfl

theorem getElem?_insert (n : Nat) :
    (before ++ doc :: after)[shifted before.length n]? = (before ++ after)[n]? := by
  unfold shifted
  split
  · rename_i hlt
    rw [List.getElem?_append_left hlt, List.getElem?_append_left hlt]
  · rename_i hle
    have hsub : n + 1 - before.length = n - before.length + 1 := by omega
    rw [List.getElem?_append_right (by omega), List.getElem?_append_right (by omega), hsub,
      List.getElem?_cons_succ]

/-- A definition is known outside of the new document if it was. -/
theorem any_exports_insert (number : Nat) (name : String) :
    ((exportsOf 0 (before ++ doc :: after)).any fun s =>
        s.document == shifted before.length number && s.name == name) =
      (exportsOf 0 (before ++ after)).any fun s => s.document == number && s.name == name := by
  have hold : ∀ s ∈ exportsOf 0 (before ++ doc :: after),
      (s.document == shifted before.length number && s.name == name) = true →
        (s.document != before.length) = true :=
    fun s _ hs => bne_of_beq_shifted (Bool.and_eq_true_iff.mp hs).1
  rw [← any_filter_of_imp hold, filter_exports_insert, List.any_map]
  congr 1
  funext s
  exact congrArg (· && s.name == name) (beq_shifted _ s.document number)

/-- What is not imported from the new document is bound as before. -/
theorem bindImport_insert {d : Document} {i : Import}
    (hsource : d.path.join i.source.value ≠ doc.path) :
    bindImport (before ++ doc :: after) (exportsOf 0 (before ++ doc :: after)) d i =
      let bound := bindImport (before ++ after) (exportsOf 0 (before ++ after)) d i
      (bound.1.map fun (key, b) => (key, b.shift before.length), bound.2) := by
  simp only [bindImport, lastAt?_insert hsource.symm]
  cases lastAt? (before ++ after) (d.path.join i.source.value) with
  | none =>
    simp only [Option.map_none, List.map_map]
    rfl
  | some number =>
    simp only [Option.map_some, List.map_map, any_exports_insert]
    rfl

theorem foldl_put_map {α : Type} (g : α → α) (items : List (String × α)) (entries : Entries α) :
    (items.map fun (key, b) => (key, g b)).foldl (fun entries (key, b) => Entries.put key b entries)
        (entries.map fun (key, b) => (key, g b)) =
      (items.foldl (fun entries (key, b) => Entries.put key b entries) entries).map
        fun (key, b) => (key, g b) := by
  induction items generalizing entries with
  | nil => rfl
  | cons x items ih =>
    obtain ⟨key, b⟩ := x
    rw [List.map_cons, List.foldl_cons, List.foldl_cons, ← ih]
    simp only [Entries.put_map]

/-- The scope of a document that does not import the new one is the old one. -/
theorem scopeOf_insert {d : Document}
    (hsource : ∀ i ∈ d.program.imports, d.path.join i.source.value ≠ doc.path) :
    scopeOf (before ++ doc :: after) (exportsOf 0 (before ++ doc :: after)) d =
      (scopeOf (before ++ after) (exportsOf 0 (before ++ after)) d).shift before.length := by
  have hbound : d.program.imports.map
      (bindImport (before ++ doc :: after) (exportsOf 0 (before ++ doc :: after)) d) =
      (d.program.imports.map (bindImport (before ++ after) (exportsOf 0 (before ++ after)) d)).map
        fun bound => (bound.1.map fun (key, b) => (key, b.shift before.length), bound.2) := by
    rw [List.map_map]
    exact List.map_congr_left fun i hi => bindImport_insert (hsource i hi)
  simp only [scopeOf, hbound, List.flatMap_map, DocumentScope.shift, ← List.map_flatMap]
  rw [← foldl_put_map]
  rfl

/-- Linking one more document that the others have nothing to do with. -/
theorem insertion_link (generation : Nat) (h : Unrelated (before ++ after) doc) :
    Insertion before.length doc.names (link generation (before ++ after))
      (link generation (before ++ doc :: after)) where
  exports := filter_exports_insert
  documents n := by
    simp only [link, List.getElem?_map, getElem?_insert, Option.map_map]
    refine Option.map_congr fun d hd => ?_
    exact scopeOf_insert (h.source d (List.mem_of_getElem? hd))
  new s hs hk := by
    obtain ⟨d, hd, hdefinition⟩ := mem_exports_link.mp hs
    rw [hk, List.getElem?_append_right (Nat.le_refl _), Nat.sub_self] at hd
    cases hd
    exact List.mem_map_of_mem hdefinition
  exported s hs := by
    obtain ⟨d, hd, hdefinition⟩ := mem_exports_link.mp hs
    exact h.exported d (List.mem_of_getElem? hd) _ hdefinition
  referenced s hs := by
    obtain ⟨d, hd, hdefinition⟩ := mem_exports_link.mp hs
    exact h.referenced d (List.mem_of_getElem? hd) _ hdefinition
  imported scope hscope x hx := by
    obtain ⟨d, hd, rfl⟩ := List.mem_map.mp hscope
    obtain ⟨i, hi, n, hn, -, hname⟩ := exists_of_mem_imports hx
    exact hname ▸ h.imported d hd i hi n hn

end

end SymbolTable

end EventCatalog
