import EventCatalog.Proofs.Syntax.Definitions
import EventCatalog.Syntax.Block

/-! # Identifiers of definitions

The definitions of a document are numbered in the order in which they begin
(`ids_parse`), so no two of them have the same identifier. -/

namespace EventCatalog.Syntax

namespace Definition

/-- Definitions with all those inside them bear the numbers from `next` on, up to `stop`. -/
structure Numbered (next stop : Nat) (ds : List Definition) : Prop where
  le : next ≤ stop
  ids : (allOf ds).map (·.id) = List.range' next (stop - next)

theorem Numbered.append {next mid stop : Nat} {ds es : List Definition}
    (h : Numbered next mid ds) (h' : Numbered mid stop es) : Numbered next stop (ds ++ es) := by
  have hle := h.le
  have hle' := h'.le
  refine ⟨Nat.le_trans hle hle', ?_⟩
  have hids : (allOf (ds ++ es)).map (·.id) =
      List.range' next (mid - next) ++ List.range' mid (stop - mid) := by
    rw [← h.ids, ← h'.ids]
    simp only [allOf_eq_flatMap, List.flatMap_append, List.map_append]
  have hmid : mid = next + 1 * (mid - next) := by omega
  have hstop : stop - next = (mid - next) + (stop - mid) := by omega
  rw [hids, hstop, ← List.range'_append, ← hmid]

theorem numbered_nil (next : Nat) : Numbered next next [] := by
  refine ⟨Nat.le_refl _, ?_⟩
  rw [Nat.sub_self, allOf]
  rfl

/-- A definition comes before those inside it. -/
theorem numbered_singleton {next stop : Nat} {d : Definition} (hid : d.id = next)
    (h : Numbered (next + 1) stop d.nested) : Numbered next stop [d] := by
  have hle := h.le
  refine ⟨Nat.le_of_succ_le hle, ?_⟩
  have hstop : stop - next = stop - (next + 1) + 1 := by omega
  rw [allOf_eq_flatMap, List.flatMap_singleton, all_eq, List.map_cons, h.ids, hstop,
    List.range'_succ, hid]

/-- The first of several definitions bears the first number, those inside it the next ones. -/
theorem Numbered.of_cons {next stop : Nat} {d : Definition} {ds : List Definition}
    (h : Numbered next stop (d :: ds)) :
    ∃ mid, d.id = next ∧ Numbered (next + 1) mid d.nested ∧ Numbered mid stop ds := by
  have hids := h.ids
  have hlength := congrArg List.length hids
  simp only [allOf_eq_flatMap, List.flatMap_cons, List.map_append, List.length_append,
    List.length_map, List.length_range'] at hids hlength
  rw [all_eq, ← allOf_eq_flatMap] at hids hlength
  have hstop : stop - next = (allOf d.nested).length + (allOf ds).length + 1 := by
    rw [← hlength, List.length_cons]
    omega
  rw [hstop, List.range'_succ, ← List.range'_append, List.map_cons, List.cons_append] at hids
  obtain ⟨hid, hids⟩ := List.cons.inj hids
  obtain ⟨hnested, hrest⟩ := List.append_inj hids (by simp)
  refine ⟨next + 1 + (allOf d.nested).length, hid, ⟨by omega, ?_⟩, ⟨by omega, ?_⟩⟩
  · rw [hnested, Nat.add_sub_cancel_left]
  · have hlast : stop - (next + 1 + (allOf d.nested).length) = (allOf ds).length := by omega
    rw [hrest, hlast, Nat.one_mul]

theorem Numbered.of_nil {next stop : Nat} (h : Numbered next stop []) : stop = next := by
  have hlength := congrArg List.length h.ids
  have hle := h.le
  rw [allOf, List.map_nil, List.length_nil, List.length_range'] at hlength
  omega

/-- The numbers of numbered definitions increase. -/
theorem Numbered.pairwise_ids {next stop : Nat} {ds : List Definition} (h : Numbered next stop ds) :
    (ds.map (·.id)).Pairwise (· ≤ ·) := by
  have hsublist : ds.Sublist (allOf ds) := by
    clear h
    induction ds with
    | nil => exact List.nil_sublist _
    | cons d ds ih =>
      rw [allOf, all_eq]
      exact (ih.trans (List.sublist_append_right _ _)).cons_cons d
  have hall : ((allOf ds).map (·.id)).Pairwise (· ≤ ·) := by
    rw [h.ids]
    exact List.pairwise_le_range' _
  exact hall.sublist (hsublist.map _)

theorem id_add (d : Definition) (s : Statement) : (d.add s).id = d.id := by
  cases s <;> rfl

theorem nested_add (d : Definition) (s : Statement) : (d.add s).nested = d.nested := by
  cases s <;> rfl

theorem kind_add (d : Definition) (s : Statement) : (d.add s).kind = d.kind := by
  rw [kind, kind]
  cases s <;> simp [add]

theorem id_addInlined (d : Definition) (s : Statement) (child : Definition) :
    (d.addInlined s child).id = d.id := id_add d _

theorem nested_addInlined (d : Definition) (s : Statement) (child : Definition) :
    (d.addInlined s child).nested = d.nested ++ [child] := by
  rw [addInlined, nested_add]

end Definition

open Definition

/-- What a block adds inside a definition is numbered from its first free identifier on. -/
theorem Block.read_numbered (last opened : Span) (next : Nat) (d : Definition)
    (ts : List Lexeme) {first : Nat} (h : Numbered first next d.nested) :
    (read last opened next d ts).definition.id = d.id ∧
      Numbered first (read last opened next d ts).next
        (read last opened next d ts).definition.nested := by
  fun_induction read last opened next d ts generalizing first with
  | case1 opened next d => exact ⟨rfl, h⟩
  | case2 opened next d t ts ht => exact ⟨rfl, h⟩
  | case3 opened next d t ts ht s rest hlt hturn ih =>
    rw [id_add, nested_add] at ih
    exact ih h
  | case4 opened next d t ts ht complaint rest hlt hturn ih => exact ih h
  | case5 opened next d t ts ht s o brace rest hlt hturn child ihchild =>
    rename_i ih
    obtain ⟨hid, hchild⟩ := ihchild (numbered_nil (next + 1))
    rw [id_addInlined, nested_addInlined] at ih
    exact ih (h.append (numbered_singleton hid hchild))

theorem Entry.define_numbered (last : Span) (next : Nat) {d : Definition} (hid : d.id = next)
    (hnested : d.nested = []) {ts rest : List Lexeme} (hlt : rest.length < ts.length)
    {e : Definition} {next' : Nat} {ds : List Diagnostic} {rest' : List Lexeme}
    {hlt' : rest'.length < ts.length}
    (h : define last next d rest hlt = .defining e next' ds rest' hlt') :
    Numbered next next' [e] := by
  have hd : Numbered (next + 1) (next + 1) d.nested := hnested ▸ numbered_nil _
  unfold define at h
  split at h
  · cases h
    exact numbered_singleton hid hd
  · split at h
    · cases h
      obtain ⟨hblock, hinside⟩ := Block.read_numbered last _ (next + 1) d _ hd
      exact numbered_singleton (hblock.trans hid) hinside
    · cases h
      exact numbered_singleton hid hd

theorem Entry.read_numbered {last : Span} {next : Nat} {t : Lexeme} {ts : List Lexeme}
    {d : Definition} {next' : Nat} {ds : List Diagnostic} {rest : List Lexeme}
    {hlt : rest.length < (t :: ts).length}
    (h : read last next t ts = .defining d next' ds rest hlt) : Numbered next next' [d] := by
  unfold read at h
  simp only at h
  split at h
  · split at h <;> cases h
  · split at h
    · split at h
      · exact define_numbered last next rfl rfl _ h
      · cases h
    · cases h

theorem readProgram_numbered (last : Span) (next : Nat) (ts : List Lexeme) :
    ∃ stop, Numbered next stop (readProgram last next ts).program.definitions := by
  fun_induction readProgram last next ts with
  | case1 next => exact ⟨next, numbered_nil next⟩
  | case2 next t ts i rest hlt hread ih => exact ih
  | case3 next t ts d next' ds rest hlt hread ih =>
    obtain ⟨stop, hrest⟩ := ih
    exact ⟨stop, (Entry.read_numbered hread).append hrest⟩
  | case4 next t ts d rest hlt hread ih => exact ih

/-- The definitions of a document are numbered from zero on, each before those inside it. -/
theorem ids_parse (source : String) :
    (parse source).program.all.map (·.id) = List.range (parse source).program.all.length := by
  obtain ⟨stop, h⟩ := readProgram_numbered
    (((Piece.lexemes 0 true (Piece.ofText source.toList)).getLast?.map (·.span)).getD ⟨0, 0⟩) 0
    (Piece.lexemes 0 true (Piece.ofText source.toList))
  have hids : (parse source).program.all.map (·.id) = List.range' 0 (stop - 0) := h.ids
  have hlength := congrArg List.length hids
  rw [List.length_map, List.length_range'] at hlength
  rw [hids, hlength, List.range_eq_range']

theorem nodup_ids_parse (source : String) : ((parse source).program.all.map (·.id)).Nodup := by
  rw [ids_parse]
  exact List.nodup_range

end EventCatalog.Syntax
