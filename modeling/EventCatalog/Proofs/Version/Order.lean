import EventCatalog.Version
import Mathlib.Data.List.Sort

/-! # The order of versions

The order of optional version texts is the order of their ranks, and that is a total preorder
(`Version.Rank.order` is a `Std.TransCmp`) in which texts of equal place have equal ranks
(`Version.Rank.order_of_eq_eq`). -/

namespace EventCatalog

namespace PreRelease

instance : Std.OrientedCmp order where
  eq_swap {p q} := by
    cases p <;> cases q
    case number.number => exact Std.OrientedOrd.eq_swap
    case word.word => exact Std.OrientedOrd.eq_swap
    all_goals rfl

instance : Std.TransCmp order where
  isLE_trans {p q r} hpq hqr := by
    cases p <;> cases q <;> cases r
    case number.number.number => exact Std.TransOrd.isLE_trans hpq hqr
    case word.word.word => exact Std.TransOrd.isLE_trans hpq hqr
    all_goals first
      | rfl
      | exact absurd hpq Bool.false_ne_true
      | exact absurd hqr Bool.false_ne_true

instance : Std.LawfulEqCmp order where
  compare_self {p} := by
    cases p
    · exact Std.ReflOrd.compare_self
    · exact Std.ReflOrd.compare_self
  eq_of_compare {p q} h := by
    cases p <;> cases q
    case number.number => exact congrArg number (Std.LawfulEqOrd.eq_of_compare h)
    case word.word => exact congrArg word (Std.LawfulEqOrd.eq_of_compare h)
    all_goals cases h

theorem parts_eq (ps qs : List PreRelease) :
    orderTags.parts ps qs = List.compareLex order ps qs := by
  induction ps generalizing qs with
  | nil => cases qs <;> rfl
  | cons p ps ih =>
    cases qs with
    | nil => rfl
    | cons q qs => rw [orderTags.parts, List.compareLex_cons_cons, ih]

/-- Tags before no tag, and among tags the lexicographic order. -/
theorem orderTags_eq :
    orderTags = compareLex (compareOn List.isEmpty) (List.compareLex order) := by
  funext ps qs
  cases ps <;> cases qs
  case cons.cons => exact parts_eq _ _
  all_goals rfl

instance : Std.TransCmp orderTags := by
  rw [orderTags_eq]
  infer_instance

instance : Std.LawfulEqCmp orderTags where
  compare_self := Std.ReflCmp.compare_self
  eq_of_compare {ps qs} h := by
    rw [orderTags_eq, compareLex_eq_eq] at h
    exact Std.LawfulEqCmp.eq_of_compare h.2

end PreRelease

namespace Version

theorem precedence_eq : precedence =
    compareLex (compareOn major) (compareLex (compareOn minor)
      (compareLex (compareOn patch) fun v w => PreRelease.orderTags v.pre w.pre)) := rfl

instance : Std.TransCmp fun v w : Version => PreRelease.orderTags v.pre w.pre where
  eq_swap := Std.OrientedCmp.eq_swap
  isLE_trans := Std.TransCmp.isLE_trans

instance : Std.TransCmp precedence := by
  rw [precedence_eq]
  infer_instance

/-- Versions of equal precedence differ in their build metadata alone. -/
theorem precedence_eq_eq {v w : Version} :
    v.precedence w = .eq ↔ v.withoutBuild = w.withoutBuild := by
  constructor
  · intro h
    simp only [precedence, Ordering.then_eq_eq] at h
    obtain ⟨hmajor, hminor, hpatch, hpre⟩ := h
    simp only [withoutBuild, mk.injEq, and_true]
    exact ⟨Std.LawfulEqOrd.eq_of_compare hmajor, Std.LawfulEqOrd.eq_of_compare hminor,
      Std.LawfulEqOrd.eq_of_compare hpatch, Std.LawfulEqCmp.eq_of_compare hpre⟩
  · intro h
    have hself : v.withoutBuild.precedence w.withoutBuild = .eq := by
      rw [h]
      exact Std.ReflCmp.compare_self
    exact hself

namespace Rank

instance : Std.OrientedCmp order where
  eq_swap {x y} := by
    cases x <;> cases y
    case text.text => exact Std.OrientedOrd.eq_swap
    case semantic.semantic => exact @Std.OrientedCmp.eq_swap _ precedence _ _ _
    all_goals rfl

instance : Std.TransCmp order where
  isLE_trans {x y z} hxy hyz := by
    cases x <;> cases y <;> cases z
    case text.text.text => exact Std.TransOrd.isLE_trans hxy hyz
    case semantic.semantic.semantic =>
      exact @Std.TransCmp.isLE_trans _ precedence _ _ _ _ hxy hyz
    all_goals first
      | rfl
      | exact absurd hxy Bool.false_ne_true
      | exact absurd hyz Bool.false_ne_true

theorem of_eq_semantic {raw : String} {v : Version} (h : coerce raw = some v) :
    of (some raw) = semantic v.withoutBuild := by
  simp only [of, h]

theorem of_eq_text {raw : String} (h : coerce raw = none) :
    of (some raw) = text (Text.trimString raw) := by
  simp only [of, h]

/-- The rank of a text has no build metadata, so only equal ranks stand at one place. -/
theorem order_of_eq_eq {x y : Option String} : (of x).order (of y) = .eq ↔ of x = of y := by
  constructor
  · intro h
    have hrank : ∀ z : Option String, of z = missing ∨ (∃ t, of z = text t) ∨
        ∃ v : Version, of z = semantic v.withoutBuild := by
      intro z
      cases z with
      | none => exact .inl rfl
      | some raw =>
        cases hraw : coerce raw with
        | none => exact .inr (.inl ⟨_, of_eq_text hraw⟩)
        | some v => exact .inr (.inr ⟨v, of_eq_semantic hraw⟩)
    obtain hx | ⟨s, hx⟩ | ⟨v, hx⟩ := hrank x <;> obtain hy | ⟨t, hy⟩ | ⟨w, hy⟩ := hrank y <;>
      rw [hx, hy] at h ⊢
    case inr.inl.inr.inl => exact congrArg text (Std.LawfulEqOrd.eq_of_compare h)
    case inr.inr.inr.inr => exact congrArg semantic (precedence_eq_eq.mp h)
    all_goals cases h
  · intro h
    rw [h]
    exact Std.ReflCmp.compare_self

end Rank

end Version

instance : Std.TransCmp compareVersions where
  eq_swap {x y} := @Std.OrientedCmp.eq_swap _ Version.Rank.order _ (.of x) (.of y)
  isLE_trans {x y z} := @Std.TransCmp.isLE_trans _ Version.Rank.order _ (.of x) (.of y) (.of z)

end EventCatalog
