import EventCatalog.Proofs.Token.Boundary
import EventCatalog.Proofs.Token.Places
import EventCatalog.Proofs.Token.Written

/-! # Lexing covers the text

Every byte of a text belongs to a token or to a place that is complained about.

* `Piece.exists_of_mem_tokens` and `Piece.exists_of_mem_diagnostics` find the piece that a token or
  a diagnostic comes from, so the place of either is the size of what stands before the piece.
* `Span.IsGap` is a longest range of bytes without a token.  The piece of an offence is a range
  without tokens, and `Span.IsBare.exists_isGap` makes any such range as long as possible.
* `tokenize_covers` puts this together; `Span.Tiles` says what is left where nothing is complained
  about. -/

namespace EventCatalog

open Text

/-! ### Ranges without tokens -/

namespace Span

/-- Whether a byte belongs to one of the spans. -/
def Covered (spans : List Span) (n : Nat) : Prop := ∃ s ∈ spans, s.start ≤ n ∧ n < s.stop

/-- A range of bytes of a text of some size, at least one, of which none belongs to the spans. -/
structure IsBare (spans : List Span) (size : Nat) (g : Span) : Prop where
  start_lt : g.start < g.stop
  stop_le : g.stop ≤ size
  not_covered : ∀ n, g.start ≤ n → n < g.stop → ¬ Covered spans n

/-- A bare range that no other contains. -/
structure IsGap (spans : List Span) (size : Nat) (g : Span) : Prop
    extends IsBare spans size g where
  eq_of_le : ∀ h, IsBare spans size h → h.start ≤ g.start → g.stop ≤ h.stop → h = g

/-- The spans follow each other without a byte between them, from one offset to another. -/
def Tiles (start : Nat) : List Span → Nat → Prop
  | [], stop => start = stop
  | s :: spans, stop => s.start = start ∧ Tiles s.stop spans stop

variable {spans : List Span} {size : Nat} {g : Span}

/-- Two bare ranges with a byte in common make up a bare range. -/
theorem IsBare.union {h : Span} (hg : IsBare spans size g) (hh : IsBare spans size h)
    (hleft : g.start < h.stop) (hright : h.start < g.stop) : IsBare spans size (g.union h) := by
  have hlt := hg.start_lt
  rw [union_eq (Nat.le_of_lt hlt)]
  constructor
  · simp only
    omega
  · exact Nat.max_le.mpr ⟨hg.stop_le, hh.stop_le⟩
  · intro n hn hlt
    simp only at hn hlt
    by_cases hin : g.start ≤ n ∧ n < g.stop
    · exact hg.not_covered n hin.1 hin.2
    · exact hh.not_covered n (by omega) (by omega)

/-- A gap contains each bare range that shares a byte with it. -/
theorem IsGap.contains {h : Span} (hg : IsGap spans size g) (hh : IsBare spans size h)
    (hleft : g.start < h.stop) (hright : h.start < g.stop) :
    g.start ≤ h.start ∧ h.stop ≤ g.stop := by
  have hunion := hg.toIsBare.union hh hleft hright
  rw [union_eq (Nat.le_of_lt hg.start_lt)] at hunion
  have hsame := hg.eq_of_le _ hunion (Nat.min_le_left _ _) (Nat.le_max_left _ _)
  have hstart : min g.start h.start = g.start := congrArg Span.start hsame
  have hstop : max g.stop h.stop = g.stop := congrArg Span.stop hsame
  omega

/-- The bytes that are not covered reach back from an offset to a first one. -/
theorem exists_first (spans : List Span) (n : Nat) :
    ∃ a, a ≤ n ∧ (∀ m, a ≤ m → m < n → ¬ Covered spans m) ∧
      ∀ m, m < a → ∃ k, m ≤ k ∧ k < a ∧ Covered spans k := by
  induction n with
  | zero =>
    refine ⟨0, Nat.le_refl 0, ?_, ?_⟩
    · intro m _ hm
      exact absurd hm (Nat.not_lt_zero m)
    · intro m hm
      exact absurd hm (Nat.not_lt_zero m)
  | succ n ih =>
    by_cases hcovered : Covered spans n
    · refine ⟨n + 1, Nat.le_refl _, ?_, ?_⟩
      · intro m hm hlt
        omega
      · intro m hm
        exact ⟨n, Nat.le_of_lt_succ hm, Nat.lt_succ_self n, hcovered⟩
    · obtain ⟨a, ha, hbare, hfirst⟩ := ih
      refine ⟨a, Nat.le_succ_of_le ha, ?_, hfirst⟩
      intro m hm hlt
      rcases Nat.lt_succ_iff_lt_or_eq.mp hlt with hlt | rfl
      · exact hbare m hm hlt
      · exact hcovered

/-- The bytes that are not covered reach on from an offset to a last one before another offset. -/
theorem exists_last (spans : List Span) {n size : Nat} (hn : n ≤ size) :
    ∃ b, n ≤ b ∧ b ≤ size ∧ (∀ m, n ≤ m → m < b → ¬ Covered spans m) ∧
      ∀ m, b < m → m ≤ size → ∃ k, b ≤ k ∧ k < m ∧ Covered spans k := by
  obtain ⟨k, rfl⟩ := Nat.exists_eq_add_of_le hn
  clear hn
  induction k generalizing n with
  | zero =>
    refine ⟨n, Nat.le_refl n, Nat.le_refl n, ?_, ?_⟩
    · intro m hm hlt
      omega
    · intro m hm hle
      omega
  | succ k ih =>
    by_cases hcovered : Covered spans n
    · refine ⟨n, Nat.le_refl n, Nat.le_add_right _ _, ?_, ?_⟩
      · intro m hm hlt
        omega
      · intro m hm _
        exact ⟨n, Nat.le_refl n, hm, hcovered⟩
    · have hsize : n + (k + 1) = n + 1 + k := by omega
      rw [hsize]
      obtain ⟨b, hb, hle, hbare, hlast⟩ := ih (n := n + 1)
      refine ⟨b, Nat.le_of_succ_le hb, hle, ?_, hlast⟩
      intro m hm hlt
      rcases Nat.eq_or_lt_of_le hm with rfl | hm
      · exact hcovered
      · exact hbare m hm hlt

/-- Around a bare range there is a gap. -/
theorem IsBare.exists_isGap (hg : IsBare spans size g) :
    ∃ gap, IsGap spans size gap ∧ gap.start ≤ g.start ∧ g.stop ≤ gap.stop := by
  obtain ⟨a, ha, hbefore, hfirst⟩ := exists_first spans g.start
  obtain ⟨b, hb, hle, hbehind, hlast⟩ := exists_last spans hg.stop_le
  have hlt := hg.start_lt
  have hbare : IsBare spans size ⟨a, b⟩ := by
    constructor
    · exact Nat.lt_of_le_of_lt ha (Nat.lt_of_lt_of_le hlt hb)
    · exact hle
    · intro n hn hlt
      by_cases hbelow : n < g.start
      · exact hbefore n hn hbelow
      by_cases habove : g.stop ≤ n
      · exact hbehind n habove hlt
      · exact hg.not_covered n (by omega) (by omega)
  refine ⟨⟨a, b⟩, ⟨hbare, ?_⟩, ha, hb⟩
  intro h hh hstart hstop
  simp only at hstart hstop
  have hbounds := hh.stop_le
  -- A longer bare range would hold a covered byte next to the ends.
  have hsame : h.start = a := by
    by_contra hne
    obtain ⟨k, hk, hka, hcovered⟩ := hfirst h.start (by omega)
    exact hh.not_covered k hk (by omega) hcovered
  have hsame' : h.stop = b := by
    by_contra hne
    obtain ⟨k, hbk, hk, hcovered⟩ := hlast h.stop (by omega) hbounds
    exact hh.not_covered k (by omega) hk hcovered
  rw [← hsame, ← hsame']

end Span

/-! ### Offences begin in their pieces -/

namespace Literal

theorem eq_broken_of_after {a : Literal} {c : Char} {k before body : Nat} {code : Diagnostic.Code}
    (h : a.after c k = .broken code before body) :
    ∃ m, a = .broken code m body ∧ before = k + m := by
  cases a with
  | closed value n => cases h
  | unterminated n => cases h
  | broken code m body =>
    cases h
    exact ⟨m, rfl, rfl⟩

/-- A bad escape begins inside the text. -/
theorem before_lt_of_scan {t : Text} {code : Diagnostic.Code} {before body : Nat}
    (h : scan t = .broken code before body) : before < t.length := by
  fun_induction scan t generalizing before with
  | case1 | case2 | case3 => cases h
  | case4 t value length hescape _ _ ih =>
    obtain ⟨m, hm, rfl⟩ := eq_broken_of_after h
    have hlt := ih hm
    rw [List.length_drop] at hlt
    rw [List.length_cons]
    omega
  | case5 t code length hescape =>
    cases h
    exact Nat.zero_lt_succ _
  | case6 c t _ _ _ ih =>
    obtain ⟨m, hm, rfl⟩ := eq_broken_of_after h
    have hlt := ih hm
    rw [List.length_cons]
    omega

end Literal

/-- An offence begins inside the text that it stands at the front of. -/
theorem Front.lead_le_of_scan {c : Char} {t : Text} {code : Diagnostic.Code} {lead body : Nat}
    (h : scan c t = .fault code lead body) : lead ≤ t.length := by
  obtain h | ⟨-, rfl, -⟩ := fault_of_scan h
  · unfold literal? at h
    split at h
    · split at h <;> cases h
      case h_2 => exact Nat.zero_le _
      case h_3 hscan =>
        have hlt := Literal.before_lt_of_scan hscan
        omega
    · cases h
  · exact Nat.zero_le _

/-! ### Pieces in their places -/

namespace Piece

variable {start : Nat} {ps : List Piece} {t : Text}

theorem tokens_append (start : Nat) (ps qs : List Piece) :
    tokens start (ps ++ qs) = tokens start ps ++ tokens (start + size (ps.flatMap text)) qs := by
  induction ps generalizing start with
  | nil => rfl
  | cons p ps ih =>
    rw [List.flatMap_cons, size_append, ← Nat.add_assoc, List.cons_append]
    cases p with
    | token tok t =>
      rw [tokens, ih, tokens, List.cons_append]
      rfl
    | fault code lead body t => exact ih _

/-- The piece that a token comes from, and those that the tokens before it come from. -/
theorem exists_of_tokens {before after : List (Located Token)} {x : Located Token}
    (h : tokens start ps = before ++ x :: after) :
    ∃ front s behind, ps = front ++ token x.value s :: behind ∧ tokens start front = before ∧
      x.span =
        ⟨start + size (front.flatMap text), start + size (front.flatMap text) + size s⟩ := by
  induction ps generalizing start before with
  | nil => exact absurd h.symm (List.append_ne_nil_of_right_ne_nil before (List.cons_ne_nil _ _))
  | cons p ps ih =>
    cases p with
    | token tok t =>
      cases before with
      | nil =>
        obtain ⟨rfl, -⟩ := List.cons.inj h
        exact ⟨[], t, ps, rfl, rfl, rfl⟩
      | cons y before =>
        obtain ⟨rfl, htail⟩ := List.cons.inj h
        obtain ⟨front, s, behind, rfl, rfl, hspan⟩ := ih htail
        refine ⟨token tok t :: front, s, behind, rfl, rfl, ?_⟩
        rw [hspan, List.flatMap_cons, size_append, ← Nat.add_assoc]
        rfl
    | fault code lead body t =>
      obtain ⟨front, s, behind, rfl, rfl, hspan⟩ := ih h
      refine ⟨fault code lead body t :: front, s, behind, rfl, rfl, ?_⟩
      rw [hspan, List.flatMap_cons, size_append, ← Nat.add_assoc]
      rfl

/-- The piece that a token comes from. -/
theorem exists_of_mem_tokens {x : Located Token} (h : x ∈ tokens start ps) :
    ∃ before s behind, ps = before ++ token x.value s :: behind ∧ x.span =
      ⟨start + size (before.flatMap text), start + size (before.flatMap text) + size s⟩ := by
  obtain ⟨before, after, heq⟩ := List.append_of_mem h
  obtain ⟨front, s, behind, hps, -, hspan⟩ := exists_of_tokens heq
  exact ⟨front, s, behind, hps, hspan⟩

/-- The piece that a diagnostic comes from. -/
theorem exists_of_mem_diagnostics {d : Diagnostic} (h : d ∈ diagnostics start ps) :
    ∃ before code lead body s behind, ps = before ++ fault code lead body s :: behind ∧
      d = diagnostic (start + size (before.flatMap text)) code lead body s := by
  induction ps generalizing start with
  | nil => cases h
  | cons p ps ih =>
    cases p with
    | token tok t =>
      have h : d ∈ diagnostics (start + t.size) ps := h
      obtain ⟨before, code, lead, body, s, behind, rfl, hd⟩ := ih h
      refine ⟨token tok t :: before, code, lead, body, s, behind, rfl, ?_⟩
      rw [hd, List.flatMap_cons, size_append, ← Nat.add_assoc]
      rfl
    | fault code lead body t =>
      rcases List.mem_cons.mp h with rfl | h
      · exact ⟨[], code, lead, body, t, ps, rfl, rfl⟩
      · obtain ⟨before, code', lead', body', s, behind, rfl, hd⟩ := ih h
        refine ⟨fault code lead body t :: before, code', lead', body', s, behind, rfl, ?_⟩
        rw [hd, List.flatMap_cons, size_append, ← Nat.add_assoc]
        rfl

/-- The piece that a byte belongs to. -/
theorem exists_piece_at {n : Nat} (hstart : start ≤ n) (hlt : n < start + size (ps.flatMap text)) :
    ∃ before p behind, ps = before ++ p :: behind ∧ start + size (before.flatMap text) ≤ n ∧
      n < start + size (before.flatMap text) + size p.text := by
  induction ps generalizing start with
  | nil =>
    rw [List.flatMap_nil, size_nil] at hlt
    omega
  | cons p ps ih =>
    rw [List.flatMap_cons, size_append, ← Nat.add_assoc] at hlt
    by_cases hin : n < start + size p.text
    · exact ⟨[], p, ps, rfl, hstart, hin⟩
    · obtain ⟨before, q, behind, rfl, hle, hq⟩ := ih (Nat.le_of_not_lt hin) hlt
      refine ⟨p :: before, q, behind, rfl, ?_, ?_⟩
      · rw [List.flatMap_cons, size_append, ← Nat.add_assoc]
        exact hle
      · rw [List.flatMap_cons, size_append, ← Nat.add_assoc]
        exact hq

/-- What is known of a piece at its place in a text: a token is written there, and an offence
begins there. -/
def Fits (p : Piece) (behind : Text) : Prop :=
  p.text ≠ [] ∧ match p with
    | token tok s => tok.Written s behind
    | fault code lead body s =>
      lead < s.length ∧ (body = 0 → code = .unexpectedCharacter ∧ lead = 0)

theorem fits_of_ofText {before behind : List Piece} {p : Piece}
    (h : ofText t = before ++ p :: behind) : p.Fits (behind.flatMap text) := by
  fun_induction ofText t generalizing before with
  | case1 => exact absurd h (List.append_ne_nil_of_right_ne_nil before (List.cons_ne_nil _ _)).symm
  | case2 c t tok more hscan ih =>
    cases before with
    | nil =>
      obtain ⟨rfl, rfl⟩ := List.cons.inj h
      rw [text_ofText]
      exact ⟨List.cons_ne_nil _ _, Front.written_of_scan hscan⟩
    | cons q before => exact ih (List.cons.inj h).2
  | case3 c t code lead body hscan ih =>
    cases before with
    | nil =>
      obtain ⟨rfl, rfl⟩ := List.cons.inj h
      refine ⟨List.cons_ne_nil _ _, ?_, Front.unexpected_of_scan hscan⟩
      have hlead := Front.lead_le_of_scan hscan
      rw [List.length_cons, List.length_take]
      omega
    | cons q before => exact ih (List.cons.inj h).2

/-- Where the parts of a text stand that is cut. -/
theorem eq_append_of_ofText {before behind : List Piece} {p : Piece}
    (h : ofText t = before ++ p :: behind) :
    t = before.flatMap text ++ p.text ++ behind.flatMap text := by
  have hwhole := text_ofText t
  rw [h, List.flatMap_append, List.flatMap_cons, ← List.append_assoc] at hwhole
  exact hwhole.symm

/-- A token can be cut out of the text. -/
theorem slices_of_mem_tokens {x : Located Token} (h : x ∈ tokens 0 (ofText t)) :
    x.span.Slices t := by
  obtain ⟨before, s, behind, hpieces, hspan⟩ := exists_of_mem_tokens h
  rw [hspan, Nat.zero_add, eq_append_of_ofText hpieces]
  exact Span.slices_append _ _ _

theorem start_lt_of_mem_tokens {x : Located Token} (h : x ∈ tokens 0 (ofText t)) :
    x.span.start < x.span.stop := by
  obtain ⟨before, s, behind, hpieces, hspan⟩ := exists_of_mem_tokens h
  rw [hspan]
  exact Nat.lt_add_of_pos_right (size_pos (fits_of_ofText hpieces).1)

/-- The piece of an offence is bare. -/
theorem isBare_fault {before behind : List Piece} {code : Diagnostic.Code} {lead body : Nat}
    {s : Text} (h : ofText t = before ++ fault code lead body s :: behind) :
    Span.IsBare ((tokens 0 (ofText t)).map (·.span)) t.size
      ⟨size (before.flatMap text), size (before.flatMap text) + size s⟩ := by
  have hpos := size_pos (fits_of_ofText h).1
  constructor
  · exact Nat.lt_add_of_pos_right hpos
  · rw [eq_append_of_ofText h, size_append, size_append]
    exact Nat.le_add_right _ _
  · rintro n hn hlt ⟨_, hspan, hstart, hstop⟩
    obtain ⟨x, hx, rfl⟩ := List.mem_map.mp hspan
    simp only at hn hlt
    rw [h, tokens_append] at hx
    rcases List.mem_append.mp hx with hx | hx
    · have hbounds := bounds_of_mem_tokens hx
      omega
    · have hx : x ∈ tokens (0 + size (before.flatMap text) + size s) behind := hx
      have hbounds := bounds_of_mem_tokens hx
      omega

/-- An offence is labelled inside its piece. -/
theorem size_take_lead_lt {code : Diagnostic.Code} {lead body : Nat} {s behind : Text}
    (h : (fault code lead body s).Fits behind) : size (s.take lead) < size s := by
  have hsplit : size s = size (s.take lead) + size (s.drop lead) := by
    rw [← size_append, List.take_append_drop]
  have hrest : s.drop lead ≠ [] := fun hnil => by
    have hlead := h.2.1
    have hle := List.drop_eq_nil_iff.mp hnil
    omega
  have hpos := size_pos hrest
  omega

theorem pairwise_tokens (start : Nat) (ps : List Piece) :
    (tokens start ps).Pairwise fun x y => x.span.stop ≤ y.span.start := by
  induction ps generalizing start with
  | nil => exact List.Pairwise.nil
  | cons p ps ih =>
    cases p with
    | token tok t =>
      refine List.Pairwise.cons ?_ (ih _)
      intro y hy
      exact (bounds_of_mem_tokens hy).1
    | fault code lead body t => exact ih _

theorem tiles_tokens (h : diagnostics start ps = []) :
    Span.Tiles start ((tokens start ps).map (·.span)) (start + size (ps.flatMap text)) := by
  induction ps generalizing start with
  | nil => rfl
  | cons p ps ih =>
    rw [List.flatMap_cons, size_append, ← Nat.add_assoc]
    cases p with
    | token tok t => exact ⟨rfl, ih h⟩
    | fault code lead body t => cases h

end Piece

/-! ### Texts -/

/-- The tokens and the diagnostics of a text account for all of it. -/
structure Covers (t : Text) (tokens : List (Located Token)) (diagnostics : List Diagnostic) :
    Prop where
  /-- A token has characters to itself, and is what these say. -/
  written : ∀ x ∈ tokens, x.span.start < x.span.stop ∧ x.span.Slices t ∧
    x.value.Written (x.span.slice t) (t.between x.span.stop t.size)
  /-- The tokens stand in the order of the text and do not overlap. -/
  ordered : tokens.Pairwise fun x y => x.span.stop ≤ y.span.start
  /-- In each gap something is complained about. -/
  reported : ∀ g, Span.IsGap (tokens.map (·.span)) t.size g →
    ∃ d ∈ diagnostics, ∃ l ∈ d.labels, g.start ≤ l.span.start ∧ l.span.start < g.stop
  /-- Every complaint has one label, and it starts in a gap. -/
  labelled : ∀ d ∈ diagnostics, ∃ l, d.labels = [l] ∧
    ∃ g, Span.IsGap (tokens.map (·.span)) t.size g ∧ g.start ≤ l.span.start ∧
      l.span.start < g.stop
  /-- Without complaints the tokens are all of the text. -/
  tiles : diagnostics = [] → Span.Tiles 0 (tokens.map (·.span)) t.size

/-- Every byte of a text belongs to a token, which says what it is, or to a gap that is complained
about. -/
theorem tokenize_covers (text : String) :
    Covers text.toList (tokenize text).1 (tokenize text).2 := by
  constructor
  case written =>
    intro x hx
    have hlt := Piece.start_lt_of_mem_tokens hx
    have hslices := Piece.slices_of_mem_tokens hx
    obtain ⟨before, s, behind, hpieces, hspan⟩ := Piece.exists_of_mem_tokens hx
    have hfits := Piece.fits_of_ofText hpieces
    have hwhole := Piece.eq_append_of_ofText hpieces
    rw [Nat.zero_add] at hspan
    refine ⟨hlt, hslices, ?_⟩
    rw [hspan, hwhole]
    have hbehind := between_append (before.flatMap Piece.text ++ s) (behind.flatMap Piece.text) []
    rw [List.append_nil, size_append _ s] at hbehind
    simp only [Piece.text]
    rw [Span.slice_append, hbehind]
    exact hfits.2
  case ordered => exact Piece.pairwise_tokens 0 _
  case reported =>
    intro g hg
    have hlt := hg.start_lt
    have hin : g.start < 0 + size ((Piece.ofText text.toList).flatMap Piece.text) := by
      rw [Piece.text_ofText, Nat.zero_add]
      exact Nat.lt_of_lt_of_le hlt hg.stop_le
    obtain ⟨before, p, behind, hpieces, hle, hp⟩ := Piece.exists_piece_at (Nat.zero_le _) hin
    rw [Nat.zero_add] at hle hp
    cases p with
    | token tok s =>
      -- The first byte of a gap cannot stand in a token.
      refine absurd ?_ (hg.not_covered g.start (Nat.le_refl _) hlt)
      refine ⟨⟨size (before.flatMap Piece.text), size (before.flatMap Piece.text) + size s⟩,
        ?_, hle, hp⟩
      refine List.mem_map.mpr ⟨⟨tok, _⟩, ?_, rfl⟩
      rw [tokenize, hpieces, Piece.tokens_append, Nat.zero_add]
      exact List.mem_append_right _ List.mem_cons_self
    | fault code lead body s =>
      have hbare := Piece.isBare_fault hpieces
      have hlabel := Piece.size_take_lead_lt (Piece.fits_of_ofText hpieces)
      have hcontains := hg.contains hbare hp (Nat.lt_of_le_of_lt hle hlt)
      simp only at hcontains
      refine ⟨Piece.diagnostic (size (before.flatMap Piece.text)) code lead body s, ?_, _,
        List.mem_singleton.mpr rfl, ?_, ?_⟩
      · rw [tokenize, hpieces, Piece.diagnostics_append, Nat.zero_add]
        exact List.mem_append_right _ List.mem_cons_self
      · simp only
        omega
      · simp only
        omega
  case labelled =>
    intro d hd
    obtain ⟨before, code, lead, body, s, behind, hpieces, rfl⟩ :=
      Piece.exists_of_mem_diagnostics hd
    obtain ⟨g, hg, hstart, hstop⟩ := (Piece.isBare_fault hpieces).exists_isGap
    have hlabel := Piece.size_take_lead_lt (Piece.fits_of_ofText hpieces)
    refine ⟨_, rfl, g, hg, ?_, ?_⟩
    · simp only at hstart ⊢
      omega
    · simp only at hstop ⊢
      omega
  case tiles =>
    intro hclean
    have htiles : Span.Tiles 0 ((tokenize text).1.map (·.span)) _ := Piece.tiles_tokens hclean
    rw [Piece.text_ofText, Nat.zero_add] at htiles
    exact htiles

/-- What a string literal carries is not always what stands between its quotes. -/
theorem not_payload_between_quotes :
    ¬∀ (text value : String), ∀ x ∈ (tokenize text).1, x.value = .stringLiteral value →
      x.span.slice text.toList = '"' :: (value.toList ++ ['"']) := by
  intro h
  have hmem : ⟨.stringLiteral "a\tb", ⟨0, 6⟩⟩ ∈ (tokenize "\"a\\tb\"").1 := by decide +kernel
  exact absurd (h _ _ _ hmem rfl) (by decide +kernel)

end EventCatalog
