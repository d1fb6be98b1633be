import EventCatalog.Syntax

/-! # Trees of definitions

`Definition.induction` is induction over a definition and all those inside it, and the lemmas on
`Definition.all` and `Definition.allOf` say what the lists of all definitions hold. -/

namespace EventCatalog.Syntax.Definition

/-- Induction over the definitions inside a definition. -/
@[elab_as_elim]
theorem induction {motive : Definition → Prop}
    (h : ∀ d, (∀ c ∈ d.nested, motive c) → motive d) (d : Definition) : motive d :=
  h d fun c _hc => induction h c
termination_by sizeOf d
decreasing_by
  have hlt := List.sizeOf_lt_of_mem _hc
  have hnested : sizeOf d.nested < sizeOf d := by
    cases d
    simp only [mk.sizeOf_spec]
    omega
  omega

theorem all_eq (d : Definition) : d.all = d :: allOf d.nested := by
  cases d
  rw [all]

theorem allOf_eq_flatMap (ds : List Definition) : allOf ds = ds.flatMap all := by
  induction ds with
  | nil => rw [allOf, List.flatMap_nil]
  | cons d ds ih => rw [allOf, ih, List.flatMap_cons]

theorem mem_allOf {d : Definition} {ds : List Definition} :
    d ∈ allOf ds ↔ ∃ e ∈ ds, d ∈ all e := by
  rw [allOf_eq_flatMap, List.mem_flatMap]

theorem self_mem_all (d : Definition) : d ∈ d.all := by
  rw [all_eq]
  exact List.mem_cons_self

theorem mem_allOf_of_mem {d : Definition} {ds : List Definition} (h : d ∈ ds) : d ∈ allOf ds :=
  mem_allOf.mpr ⟨d, h, self_mem_all d⟩

/-- With a definition, those inside it are among all definitions of a list. -/
theorem mem_allOf_of_nested {c d : Definition} {ds : List Definition} (hd : d ∈ allOf ds)
    (hc : c ∈ d.nested) : c ∈ allOf ds := by
  have hall : ∀ e : Definition, d ∈ e.all → c ∈ e.all := by
    intro e
    induction e using induction with
    | h e ih =>
      intro hd
      rw [all_eq] at hd ⊢
      rcases List.mem_cons.mp hd with rfl | hd
      · exact List.mem_cons_of_mem _ (mem_allOf_of_mem hc)
      · obtain ⟨b, hb, hdb⟩ := mem_allOf.mp hd
        exact List.mem_cons_of_mem _ (mem_allOf.mpr ⟨b, hb, ih b hb hdb⟩)
  obtain ⟨e, he, hde⟩ := mem_allOf.mp hd
  exact mem_allOf.mpr ⟨e, he, hall e hde⟩

/-- With a definition, all those nested in it are among all definitions of a list. -/
theorem mem_allOf_of_mem_all {c d : Definition} {ds : List Definition} (hd : d ∈ allOf ds)
    (hc : c ∈ d.all) : c ∈ allOf ds := by
  induction d using induction with
  | h d ih =>
    rw [all_eq] at hc
    rcases List.mem_cons.mp hc with rfl | hc
    · exact hd
    · obtain ⟨b, hb, hcb⟩ := mem_allOf.mp hc
      exact ih b hb (mem_allOf_of_nested hd hb) hcb

end EventCatalog.Syntax.Definition
