import EventCatalog.Proofs.Syntax.Framed.Program
import EventCatalog.Proofs.Syntax.Numbering
import Mathlib.Data.List.Pairwise

/-! # Nested definitions

Spans nest like the tree: what a definition holds stands inside it, and of two definitions one is
nested in the other or they have no byte in common (`nests_parse`).

Identifiers are the places of definitions in the text.  A definition stores the definitions inside
it once, in the order of the text, while its body knows them from the references that they are
written in place of, which stand in up to nine lists.  Looking these up and sorting what is found by
identifier gives back the stored list (`preorder_parse`). -/

namespace EventCatalog.Syntax

open Text EventCatalog.Span Definition

variable {t : Text}

/-! ### Trees of definitions -/

namespace Definition

variable {c d : Definition}

/-- A definition directly inside another one begins behind the start of this one. -/
theorem Framed.start_lt (h : d.Framed t) (hc : c ∈ d.nested) : d.span.start < c.span.start := by
  have hkeyword := (allBetween_cons.mp h.spans).1
  have hle := (h.inside c hc).1
  have hlt := hkeyword.start_lt
  have hstart := hkeyword.le_start
  omega

theorem Framed.contains_nested (h : d.Framed t) (hc : c ∈ d.nested) : d.span.Contains c.span :=
  ⟨Nat.le_of_lt (h.start_lt hc), (h.inside c hc).2⟩

theorem mem_all_of_nested {e : Definition} (hc : c ∈ d.nested) (he : e ∈ c.all) : e ∈ d.all := by
  rw [all_eq]
  exact List.mem_cons_of_mem _ (mem_allOf.mpr ⟨c, hc, he⟩)

theorem contains_of_mem_all (h : ∀ c ∈ d.all, c.Framed t) (hc : c ∈ d.all) :
    d.span.Contains c.span := by
  induction d using Definition.induction with
  | h d ih =>
    rw [all_eq] at hc
    rcases List.mem_cons.mp hc with rfl | hc
    · exact ⟨Nat.le_refl _, Nat.le_refl _⟩
    · obtain ⟨e, he, hce⟩ := mem_allOf.mp hc
      have hinside := ih e he (fun b hb => h b (mem_all_of_nested he hb)) hce
      exact ((h d (self_mem_all d)).contains_nested he).trans hinside

theorem eq_or_start_lt_of_mem_all (h : ∀ c ∈ d.all, c.Framed t) (hc : c ∈ d.all) :
    c = d ∨ d.span.start < c.span.start := by
  rw [all_eq] at hc
  rcases List.mem_cons.mp hc with rfl | hc
  · exact .inl rfl
  · obtain ⟨e, he, hce⟩ := mem_allOf.mp hc
    have hlt := (h d (self_mem_all d)).start_lt he
    have hle := (contains_of_mem_all (fun b hb => h b (mem_all_of_nested he hb)) hce).1
    exact .inr (Nat.lt_of_lt_of_le hlt hle)

/-- Two definitions directly inside another one have no byte in common. -/
theorem Framed.apart_nested {e : Definition} (h : d.Framed t) (hc : c ∈ d.nested)
    (he : e ∈ d.nested) : c = e ∨ c.span.Apart e.span := by
  refine List.Pairwise.forall_of_forall_of_flip (R := fun a b => a = b ∨ a.span.Apart b.span)
    (fun _ _ => .inl rfl) (h.apart.imp ?_) (h.apart.imp ?_) hc he
  · intro a b hle
    exact .inr (.inl hle)
  · intro a b hle
    exact .inr (.inr hle)

/-- One of two definitions is nested in the other, or they have no byte in common. -/
def Related (c d : Definition) : Prop := c ∈ d.all ∨ d ∈ c.all ∨ c.span.Apart d.span

theorem Related.symm (h : Related c d) : Related d c := by
  rcases h with h | h | h
  · exact .inr (.inl h)
  · exact .inl h
  · exact .inr (.inr h.symm)

/-- Definitions one behind the other are related if those in each of them are. -/
theorem related_allOf {ds : List Definition}
    (hordered : ds.Pairwise fun a b => a.span.stop ≤ b.span.start)
    (hframed : ∀ e ∈ ds, ∀ c ∈ e.all, c.Framed t)
    (hrelated : ∀ e ∈ ds, ∀ c ∈ e.all, ∀ d ∈ e.all, Related c d) :
    ∀ c ∈ allOf ds, ∀ d ∈ allOf ds, Related c d := by
  induction ds with
  | nil =>
    intro c hc
    cases hc
  | cons e ds ih =>
    obtain ⟨hbehind, hordered⟩ := List.pairwise_cons.mp hordered
    obtain ⟨hfirst, hframed⟩ := List.forall_mem_cons.mp hframed
    obtain ⟨hinside, hrelated⟩ := List.forall_mem_cons.mp hrelated
    have hapart : ∀ c ∈ e.all, ∀ d ∈ allOf ds, Related c d := by
      intro c hc d hd
      obtain ⟨e', he', hd⟩ := mem_allOf.mp hd
      have hspans : e.span.Apart e'.span := .inl (hbehind e' he')
      exact .inr (.inr (hspans.mono (contains_of_mem_all hfirst hc)
        (contains_of_mem_all (hframed e' he') hd)))
    intro c hc d hd
    rw [allOf] at hc hd
    rcases List.mem_append.mp hc with hc | hc
    · rcases List.mem_append.mp hd with hd | hd
      · exact hinside c hc d hd
      · exact hapart c hc d hd
    · rcases List.mem_append.mp hd with hd | hd
      · exact (hapart d hd c hc).symm
      · exact ih hordered hframed hrelated c hc d hd

theorem related_all (e : Definition) (h : ∀ c ∈ e.all, c.Framed t) :
    ∀ c ∈ e.all, ∀ d ∈ e.all, Related c d := by
  induction e using Definition.induction with
  | h e ih =>
    intro c hc d hd
    have hnested : ∀ b ∈ e.nested, ∀ c ∈ b.all, c.Framed t :=
      fun b hb c hc => h c (mem_all_of_nested hb hc)
    rw [all_eq] at hc hd
    rcases List.mem_cons.mp hc with rfl | hc
    · right
      left
      rw [all_eq]
      exact hd
    rcases List.mem_cons.mp hd with rfl | hd
    · left
      rw [all_eq]
      exact List.mem_cons_of_mem _ hc
    exact related_allOf (h e (self_mem_all e)).apart hnested
      (fun b hb => ih b hb (hnested b hb)) c hc d hd

/-- Definitions one behind the other begin in the order in which they are listed if those in each of
them do. -/
theorem pairwise_allOf {ds : List Definition}
    (hordered : ds.Pairwise fun a b => a.span.stop ≤ b.span.start)
    (hframed : ∀ e ∈ ds, ∀ c ∈ e.all, c.Framed t)
    (hpairwise : ∀ e ∈ ds, e.all.Pairwise fun a b => a.keywordSpan.start < b.keywordSpan.start) :
    (allOf ds).Pairwise fun a b => a.keywordSpan.start < b.keywordSpan.start := by
  rw [allOf_eq_flatMap]
  refine List.pairwise_flatMap.mpr ⟨hpairwise, hordered.imp_of_mem ?_⟩
  intro e e' he he' hle c hc d hd
  have hc' := hframed e he c hc
  have hd' := hframed e' he' d hd
  have hinside := contains_of_mem_all (hframed e he) hc
  have hinside' := contains_of_mem_all (hframed e' he') hd
  have hlt := hc'.span.start_lt
  rw [hc'.keyword, hd'.keyword]
  obtain ⟨-, hstop⟩ := hinside
  obtain ⟨hstart, -⟩ := hinside'
  omega

theorem pairwise_all (e : Definition) (h : ∀ c ∈ e.all, c.Framed t) :
    e.all.Pairwise fun a b => a.keywordSpan.start < b.keywordSpan.start := by
  induction e using Definition.induction with
  | h e ih =>
    have he := h e (self_mem_all e)
    have hnested : ∀ b ∈ e.nested, ∀ c ∈ b.all, c.Framed t :=
      fun b hb c hc => h c (mem_all_of_nested hb hc)
    rw [all_eq]
    refine List.Pairwise.cons ?_ ?_
    · intro d hd
      obtain ⟨b, hb, hd⟩ := mem_allOf.mp hd
      have hlt := he.start_lt hb
      obtain ⟨hle, -⟩ := contains_of_mem_all (hnested b hb) hd
      rw [he.keyword, (hnested b hb d hd).keyword]
      omega
    · exact pairwise_allOf he.apart hnested fun b hb => ih b hb (hnested b hb)

end Definition

namespace Program

variable {p : Program} {lo : Nat}

theorem Framed.all (h : p.Framed t lo) : ∀ d ∈ p.all, d.Framed t := by
  intro d hd
  obtain ⟨e, he, hd⟩ := mem_allOf.mp hd
  exact (h.definitions e he).2 d hd

theorem Framed.all_of_mem (h : p.Framed t lo) {d : Definition} (hd : d ∈ p.all) :
    ∀ c ∈ d.all, c.Framed t :=
  fun c hc => h.all c (mem_allOf_of_mem_all hd hc)

theorem Framed.related (h : p.Framed t lo) : ∀ c ∈ p.all, ∀ d ∈ p.all, Related c d :=
  related_allOf h.ordered (fun e he => (h.definitions e he).2)
    fun e he => related_all e (h.definitions e he).2

theorem Framed.pairwise (h : p.Framed t lo) :
    p.all.Pairwise fun a b => a.keywordSpan.start < b.keywordSpan.start :=
  pairwise_allOf h.ordered (fun e he => (h.definitions e he).2)
    fun e he => pairwise_all e (h.definitions e he).2

end Program

/-! ### Spans -/

/-- The spans in a document nest like its tree, and can all be cut out of the text. -/
structure Program.Nests (t : Text) (p : Program) : Prop where
  /-- A definition contains all spans stored in it and all definitions nested in it. -/
  contains : ∀ d ∈ p.all, (∀ s ∈ d.spans, d.span.Contains s) ∧
    ∀ c ∈ d.all, d.span.Contains c.span
  /-- Definitions of which neither is nested in the other have no byte in common. -/
  apart : ∀ c ∈ p.all, ∀ d ∈ p.all, c ∉ d.all → d ∉ c.all → c.span.Apart d.span
  /-- An import contains its names and its source, and has no byte in common with a definition. -/
  imports : ∀ i ∈ p.imports, (∀ n ∈ i.names, ∀ s ∈ n.spans, i.span.Contains s) ∧
    i.span.Contains i.source.span ∧ ∀ d ∈ p.all, i.span.Apart d.span
  /-- No span is empty, and all of them stand in the text, between characters. -/
  slices : (∀ d ∈ p.all, ∀ s ∈ d.span :: d.spans, s.start < s.stop ∧ s.Slices t) ∧
    ∀ i ∈ p.imports, ∀ s ∈ i.span :: i.source.span :: i.names.flatMap ImportedName.spans,
      s.start < s.stop ∧ s.Slices t

/-- Whatever the text, the spans of its document nest like the tree. -/
theorem nests_parse (text : String) : (parse text).program.Nests text.toList := by
  have hp := framed_parse text
  have hbetween : ∀ {s : Span} {lo hi : Nat}, s.Between text.toList lo hi →
      s.start < s.stop ∧ s.Slices text.toList := fun h => ⟨h.start_lt, h.slices⟩
  constructor
  case contains =>
    intro d hd
    refine ⟨?_, fun c hc => contains_of_mem_all (hp.all_of_mem hd) hc⟩
    intro s hs
    have hspan := (hp.all d hd).spans s hs
    exact ⟨hspan.le_start, hspan.stop_le⟩
  case apart =>
    intro c hc d hd hout hout'
    rcases hp.related c hc d hd with h | h | h
    · exact absurd h hout
    · exact absurd h hout'
    · exact h
  case imports =>
    intro i hi
    obtain ⟨-, hi', hframed⟩ := hp.imports i hi
    refine ⟨?_, ⟨hframed.source.le_start, hframed.source.stop_le⟩, ?_⟩
    · intro n hn s hs
      have hname := hframed.names s (List.mem_flatMap.mpr ⟨n, hn, hs⟩)
      exact ⟨hname.le_start, hname.stop_le⟩
    · intro d hd
      obtain ⟨e, he, hde⟩ := mem_allOf.mp hd
      have hinside := contains_of_mem_all (hp.definitions e he).2 hde
      exact (hp.apart i hi e he).mono ⟨Nat.le_refl _, Nat.le_refl _⟩ hinside
  case slices =>
    constructor
    · intro d hd
      have hframed := hp.all d hd
      exact List.forall_mem_cons.mpr
        ⟨hbetween hframed.span, fun s hs => hbetween (hframed.spans s hs)⟩
    · intro i hi
      obtain ⟨-, hi', hframed⟩ := hp.imports i hi
      refine List.forall_mem_cons.mpr ⟨hbetween hframed.span, List.forall_mem_cons.mpr
        ⟨hbetween hframed.source, fun s hs => hbetween (hframed.names s hs)⟩⟩

/-! ### Identifiers -/

/-- The definitions written in place of the references of a definition, gathered list by list and
sorted by identifier. -/
def Definition.gathered (d : Definition) : List Definition :=
  (d.body.inlined.filterMap d.child?).mergeSort fun a b => a.id ≤ b.id

/-- A definition is written inside another one, and no other definition of the document stands
between the two. -/
structure Program.DirectlyInside (p : Program) (c d : Definition) : Prop where
  ne : c ≠ d
  contains : d.span.Contains c.span
  closest : ∀ e ∈ p.all, e ≠ c → e.span.Contains c.span → e.span.Contains d.span

/-- Identifiers number the definitions of a document in the order in which they begin. -/
structure Program.Preordered (p : Program) : Prop where
  /-- The identifiers count up from zero. -/
  ids : p.all.map (·.id) = List.range p.all.length
  /-- The definitions inside a definition are those written in place of its references. -/
  gathered : ∀ d ∈ p.all, d.gathered = d.nested
  /-- They are listed in the order of the text. -/
  ordered : ∀ d ∈ p.all, d.nested.Pairwise fun a b => a.span.stop ≤ b.span.start
  /-- They are all that the text has directly inside the definition. -/
  nested : ∀ d ∈ p.all, ∀ c ∈ p.all, c ∈ d.nested ↔ p.DirectlyInside c d
  /-- Definitions are listed in the order of their keywords. -/
  keywords : p.all.Pairwise fun a b => a.keywordSpan.start < b.keywordSpan.start

namespace Program

variable {p : Program} {lo : Nat} {c d : Definition}

/-- The definitions stored inside a definition are those that stand directly inside it. -/
theorem Framed.mem_nested_iff (h : p.Framed t lo) (hd : d ∈ p.all) (hc : c ∈ p.all) :
    c ∈ d.nested ↔ p.DirectlyInside c d := by
  have hlt := (h.all c hc).span.start_lt
  have hapart : ∀ {e f : Definition}, e.span.Contains c.span → f.span.Contains c.span →
      ¬ e.span.Apart f.span := by
    rintro e f ⟨hstart, hstop⟩ ⟨hstart', hstop'⟩ (hle | hle) <;> omega
  constructor
  · intro hnested
    have hstart := (h.all d hd).start_lt hnested
    have hcontains := (h.all d hd).contains_nested hnested
    refine ⟨?_, hcontains, ?_⟩
    · rintro rfl
      exact absurd hstart (Nat.lt_irrefl _)
    intro e he hne hinside
    rcases h.related e he d hd with hmem | hmem | happ
    · -- No definition stands between the two, as what is directly inside does not overlap.
      rw [all_eq] at hmem
      rcases List.mem_cons.mp hmem with rfl | hmem
      · exact ⟨Nat.le_refl _, Nat.le_refl _⟩
      obtain ⟨f, hf, hef⟩ := mem_allOf.mp hmem
      have hf' : f ∈ p.all := mem_allOf_of_nested hd hf
      have houter := (contains_of_mem_all (h.all_of_mem hf') hef).trans hinside
      rcases (h.all d hd).apart_nested hf hnested with rfl | happ
      · rcases eq_or_start_lt_of_mem_all (h.all_of_mem hf') hef with heq | hlt'
        · exact absurd heq hne
        · exact absurd hinside.1 (Nat.not_le_of_lt hlt')
      · exact absurd happ (hapart houter ⟨Nat.le_refl _, Nat.le_refl _⟩)
    · exact contains_of_mem_all (h.all_of_mem he) hmem
    · exact absurd happ (hapart hinside hcontains)
  · intro hinside
    rcases h.related c hc d hd with hmem | hmem | happ
    · rw [all_eq] at hmem
      rcases List.mem_cons.mp hmem with heq | hmem
      · exact absurd heq hinside.ne
      obtain ⟨f, hf, hcf⟩ := mem_allOf.mp hmem
      have hf' : f ∈ p.all := mem_allOf_of_nested hd hf
      have hcontains := contains_of_mem_all (h.all_of_mem hf') hcf
      by_cases hsame : f = c
      · exact hsame ▸ hf
      · obtain ⟨hle, -⟩ := hinside.closest f hf' hsame hcontains
        have hstart := (h.all d hd).start_lt hf
        omega
    · rcases eq_or_start_lt_of_mem_all (h.all_of_mem hc) hmem with heq | hlt'
      · exact absurd heq.symm hinside.ne
      · exact absurd hinside.contains.1 (Nat.not_le_of_lt hlt')
    · exact absurd happ (hapart ⟨Nat.le_refl _, Nat.le_refl _⟩ hinside.contains)

/-- Where identifiers count up in the order of the text, definitions that begin further behind have
greater ones. -/
theorem id_lt_of_start_lt (hids : p.all.map (·.id) = List.range p.all.length)
    (hkeywords : p.all.Pairwise fun a b => a.keywordSpan.start < b.keywordSpan.start)
    (hc : c ∈ p.all) (hd : d ∈ p.all) (hlt : c.keywordSpan.start < d.keywordSpan.start) :
    c.id < d.id := by
  have hpairwise : p.all.Pairwise fun a b => a.id < b.id := by
    have hrange : (p.all.map (·.id)).Pairwise (· < ·) := by
      rw [hids]
      exact List.pairwise_lt_range
    exact List.pairwise_map.mp hrange
  refine List.Pairwise.forall_of_forall_of_flip
    (R := fun a b => a.keywordSpan.start < b.keywordSpan.start → a.id < b.id)
    ?_ (hpairwise.imp ?_) (hkeywords.imp ?_) hc hd hlt
  · intro a _ hself
    exact absurd hself (Nat.lt_irrefl _)
  · intro a b hid _
    exact hid
  · intro a b hbefore hbehind
    exact absurd hbehind (Nat.lt_asymm hbefore)

end Program

namespace Definition

variable {d : Definition}

theorem eq_of_id_eq {ds : List Definition} (h : ds.Pairwise fun a b => a.id < b.id)
    {a b : Definition} (ha : a ∈ ds) (hb : b ∈ ds) (hid : a.id = b.id) : a = b := by
  refine List.Pairwise.forall_of_forall_of_flip (R := fun a b => a.id = b.id → a = b)
    (fun _ _ _ => rfl) (h.imp ?_) (h.imp ?_) ha hb hid
  · intro a b hlt heq
    omega
  · intro a b hlt heq
    omega

/-- Identifiers that tell the definitions inside a definition apart find them all. -/
theorem filterMap_child? (h : d.nested.Pairwise fun a b => a.id < b.id) :
    (d.nested.map (·.id)).filterMap d.child? = d.nested := by
  have hfind : ∀ c ∈ d.nested, d.child? c.id = some c := by
    intro c hc
    unfold child?
    cases hfind : d.nested.find? (·.id == c.id) with
    | none =>
      have hno := List.find?_eq_none.mp hfind c hc
      exact absurd (beq_self_eq_true c.id) hno
    | some e =>
      have hid : e.id = c.id := by simpa using List.find?_some hfind
      rw [eq_of_id_eq h (List.mem_of_find?_eq_some hfind) hc hid]
  rw [List.filterMap_map]
  calc
    d.nested.filterMap (d.child? ∘ (·.id)) = d.nested.filterMap some :=
      List.filterMap_congr hfind
    _ = d.nested := List.filterMap_some

/-- What the body of a definition knows of those inside it comes to the list of these. -/
theorem Framed.gathered_eq (h : d.Framed t) (hids : d.nested.Pairwise fun a b => a.id < b.id) :
    d.gathered = d.nested := by
  have hperm : (d.body.inlined.filterMap d.child?).Perm d.nested := by
    have hfound := h.inlined.filterMap d.child?
    rwa [filterMap_child? hids] at hfound
  have hsorted : (d.gathered).Pairwise fun a b => decide (a.id ≤ b.id) = true := by
    refine List.pairwise_mergeSort ?_ ?_ _
    · intro a b c hab hbc
      simp only [decide_eq_true_eq] at hab hbc ⊢
      omega
    · intro a b
      simp only [Bool.or_eq_true, decide_eq_true_eq]
      omega
  have hperm' : d.gathered.Perm d.nested := (List.mergeSort_perm _ _).trans hperm
  refine List.Perm.eq_of_pairwise ?_ hsorted (hids.imp ?_) hperm'
  · intro a b ha hb hle hle'
    have hid : a.id = b.id :=
      Nat.le_antisymm (of_decide_eq_true hle) (of_decide_eq_true hle')
    exact eq_of_id_eq hids (hperm'.mem_iff.mp ha) hb hid
  · intro a b hlt
    exact decide_eq_true (Nat.le_of_lt hlt)

end Definition

/-- Whatever the text, the definitions of its document are numbered in the order in which they
begin, and each lists those inside it in this order. -/
theorem preorder_parse (text : String) : (parse text).program.Preordered := by
  have hp := framed_parse text
  have hids := ids_parse text
  refine ⟨hids, ?_, fun d hd => (hp.all d hd).apart, fun d hd c hc => hp.mem_nested_iff hd hc,
    hp.pairwise⟩
  intro d hd
  refine (hp.all d hd).gathered_eq ((hp.all d hd).apart.imp_of_mem ?_)
  intro a b ha hb hle
  have ha' : a ∈ (parse text).program.all := mem_allOf_of_nested hd ha
  have hb' : b ∈ (parse text).program.all := mem_allOf_of_nested hd hb
  refine Program.id_lt_of_start_lt hids hp.pairwise ha' hb' ?_
  have hlt := (hp.all a ha').span.start_lt
  rw [(hp.all a ha').keyword, (hp.all b hb').keyword]
  omega

end EventCatalog.Syntax
