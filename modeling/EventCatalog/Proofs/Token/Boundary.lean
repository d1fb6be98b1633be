import EventCatalog.Proofs.Token.LineBreaks

/-! # Character boundaries

Spans are pairs of byte offsets, but a text can only be cut between two characters.

* `Text.Boundary` holds of the offsets where it can: they are the sizes of its beginnings, and the
  valid positions of its UTF-8 form (`Text.boundary_iff_isValid`).
* `Text.floor` moves an offset back to the nearest boundary.  It is monotone and leaves boundaries
  where they are.
* `Span.Slices` holds of the spans that can be cut out of a text, and `Span.slice` cuts. -/

namespace EventCatalog

namespace Text

variable {t : Text} {m n : Nat}

/-! ### Boundaries -/

/-- An offset between two characters of a text, or at one of its ends. -/
def Boundary (t : Text) (n : Nat) : Prop := ∃ s, s <+: t ∧ size s = n

theorem boundary_size_append (s t : Text) : (s ++ t).Boundary (size s) :=
  ⟨s, List.prefix_append s t, rfl⟩

theorem boundary_zero (t : Text) : t.Boundary 0 := boundary_size_append [] t

/-- The size of a text is that of its UTF-8 form. -/
theorem utf8ByteSize_ofList (t : Text) : (String.ofList t).utf8ByteSize = size t := by
  induction t with
  | nil => rfl
  | cons c t ih =>
    rw [String.ofList_cons, String.utf8ByteSize_append, String.utf8ByteSize_singleton, ih,
      size_cons]

/-- The boundaries of a string are its valid positions. -/
theorem boundary_iff_isValid (s : String) (n : Nat) :
    Boundary s.toList n ↔ (⟨n⟩ : String.Pos.Raw).IsValid s := by
  rw [String.Pos.Raw.isValid_iff_exists_append]
  constructor
  · rintro ⟨t, ⟨u, htu⟩, rfl⟩
    refine ⟨String.ofList t, String.ofList u, ?_, ?_⟩
    · rw [← String.ofList_append, htu, String.ofList_toList]
    · rw [← utf8ByteSize_ofList]
      rfl
  · rintro ⟨t, u, rfl, hn⟩
    obtain rfl : n = size t.toList := by
      rw [← utf8ByteSize_ofList, String.ofList_toList]
      exact congrArg String.Pos.Raw.byteIdx hn
    rw [String.toList_append]
    exact boundary_size_append _ _

/-! ### The boundary before an offset -/

/-- The last boundary of a text that is not behind an offset. -/
def floor (t : Text) (n : Nat) : Nat := size (upTo n t)

theorem upTo_prefix (n : Nat) (t : Text) : upTo n t <+: t := by
  fun_induction upTo n t with
  | case1 => exact List.prefix_refl _
  | case2 n c t hle ih => exact List.cons_prefix_cons.mpr ⟨rfl, ih⟩
  | case3 => exact List.nil_prefix

theorem boundary_floor (t : Text) (n : Nat) : t.Boundary (t.floor n) :=
  ⟨upTo n t, upTo_prefix n t, rfl⟩

theorem floor_of_boundary (h : t.Boundary n) : t.floor n = n := by
  obtain ⟨s, ⟨u, rfl⟩, rfl⟩ := h
  rw [floor, upTo_size]

theorem boundary_iff_floor : t.Boundary n ↔ t.floor n = n :=
  ⟨floor_of_boundary, fun h => h ▸ boundary_floor t n⟩

instance (t : Text) (n : Nat) : Decidable (t.Boundary n) :=
  decidable_of_iff _ boundary_iff_floor.symm

theorem floor_mono (t : Text) (h : m ≤ n) : t.floor m ≤ t.floor n := by
  unfold floor
  induction t generalizing m n with
  | nil => exact Nat.le_refl _
  | cons c t ih =>
    unfold upTo
    split
    · rw [if_pos (by omega), size_cons, size_cons]
      have hrest := ih (Nat.sub_le_sub_right h c.utf8Size)
      omega
    · exact Nat.zero_le _

end Text

/-! ### Spans that can be cut out -/

namespace Span

/-- The span can be cut out of a text. -/
structure Slices (s : Span) (t : Text) : Prop where
  start_le : s.start ≤ s.stop
  start : t.Boundary s.start
  stop : t.Boundary s.stop

/-- The part of a text that a span covers. -/
def slice (s : Span) (t : Text) : Text := t.between s.start s.stop

theorem slices_append (before s behind : Text) :
    (⟨before.size, before.size + s.size⟩ : Span).Slices (before ++ s ++ behind) := by
  constructor
  · exact Nat.le_add_right _ _
  · rw [List.append_assoc]
    exact Text.boundary_size_append _ _
  · rw [← Text.size_append]
    exact Text.boundary_size_append _ _

theorem slice_append (before s behind : Text) :
    (⟨before.size, before.size + s.size⟩ : Span).slice (before ++ s ++ behind) = s := by
  rw [slice, ← Text.size_append]
  exact Text.between_append before s behind

end Span

end EventCatalog
