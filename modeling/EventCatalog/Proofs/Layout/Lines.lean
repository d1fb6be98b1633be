import EventCatalog.Proofs.Layout.Braces
import EventCatalog.Proofs.Layout.Stable
import EventCatalog.Proofs.Token.Coverage

/-! # Laying out by tokens

What `format` makes of a text can be said without its count of braces, in terms of the tokens of
the text alone.  `Line.ofText` places the lines; a line tells from the tokens how many braces it
holds (`Line.number`) and whether it begins within a block comment (`Line.isInside`), and
`Line.written` is what is to be written for it.

* `tells_ofText`: for a text without lexical offences the count of braces says of every line what
  the tokens say.  The induction is on the pieces of the text from the end (`Follows`), with one on
  the characters of a comment inside (`follows_comment`).
* `format_eq_written`: so the layout consists of what is to be written. -/

namespace EventCatalog

open Text

namespace Layout

/-! ### Lines and their tokens -/

/-- A line of a text, with the offset at which it begins. -/
structure Line where
  start : Nat
  text : Text
deriving DecidableEq, Repr

/-- Whether the token is a block comment. -/
def isBlockComment : Token → Bool
  | .blockComment _ => true
  | _ => false

namespace Line

/-- The lines that some pieces between line feeds make up from an offset on; there is none behind
the last line feed. -/
def place (start : Nat) : List Text → List Line
  | [] => []
  | piece :: pieces =>
    if piece = [] ∧ pieces = [] then []
    else ⟨start, piece⟩ :: place (start + piece.size + 1) pieces

/-- The lines of a text. -/
def ofText (t : Text) : List Line := place 0 (split '\n' t)

/-- The number of times that a token begins in the line. -/
def number (token : Token) (tokens : List (Located Token)) (line : Line) : Nat :=
  tokens.countP fun x => x.value = token ∧ line.start ≤ x.span.start ∧
    x.span.start < line.start + line.text.size

/-- Whether the line begins strictly inside a block comment. -/
def isInside (tokens : List (Located Token)) (line : Line) : Bool :=
  tokens.any fun x => isBlockComment x.value && x.span.start < line.start &&
    line.start < x.span.stop

/-- The number of open braces behind some lines, where no closing brace counts below zero. -/
def depthBehind (tokens : List (Located Token)) (depth : Nat) (lines : List Line) : Nat :=
  lines.foldl (fun d line => d + line.number .leftBrace tokens - line.number .rightBrace tokens)
    depth

/-- What is to be written for a line at a depth: the line without the blanks at its end if it
begins inside a comment, nothing if it is blank, and else the trimmed line behind so many spaces a
level, one level less for each closing brace that it begins with. -/
def written (width : Nat) (tokens : List (Located Token)) (depth : Nat) (line : Line) :
    Option Text :=
  if line.isInside tokens then some (trimEnd line.text)
  else if trim line.text = [] then none
  else
    let closes := ((trim line.text).takeWhile fun c => c == '}' || isBlank c).count '}'
    some (List.replicate (width * (depth - closes)) ' ' ++ trim line.text)

end Line

/-- The lines that are to be written, with one blank line for those between two of them; `due` tells
whether one is due before the next. -/
def spaced (due : Bool) : List (Option Text) → List Text
  | [] => []
  | none :: lines => spaced true lines
  | some line :: lines => (if due then [[]] else []) ++ line :: spaced false lines

variable {tokens : List (Located Token)} {x : Located Token} {token : Token}

/-! ### Counting tokens -/

namespace Line

/-- A token that begins before a line does not count there. -/
theorem number_cons_of_lt {line : Line} (h : x.span.start < line.start) :
    line.number token (x :: tokens) = line.number token tokens := by
  unfold number
  rw [List.countP_cons_of_neg]
  simp only [decide_eq_true_eq, not_and]
  omega

/-- The token that a line begins with counts there. -/
theorem number_cons_first {start stop : Nat} {word : Token} {c : Char} {l : Text} :
    number token (⟨word, ⟨start, stop⟩⟩ :: tokens) ⟨start, c :: l⟩ =
      number token tokens ⟨start, c :: l⟩ + if word = token then 1 else 0 := by
  have hc := c.utf8Size_pos
  have hin : start ≤ start ∧ start < start + size (c :: l) := by
    rw [size_cons]
    omega
  unfold number
  rw [List.countP_cons]
  simp only [hin, and_true, decide_eq_true_eq]

/-- Where the token does not begin nothing counts. -/
theorem number_append {start : Nat} {s : Text} (h : ∀ x ∈ tokens, x.value = token →
      x.span.start < start ∨ start + s.size ≤ x.span.start) (l : Text) :
    number token tokens ⟨start, s ++ l⟩ = number token tokens ⟨start + s.size, l⟩ := by
  unfold number
  refine List.countP_congr fun x hx => ?_
  have hx := h x hx
  simp only [size_append, decide_eq_true_eq]
  constructor <;> rintro ⟨hvalue, _, _⟩ <;> specialize hx hvalue <;>
    exact ⟨hvalue, by omega, by omega⟩

theorem number_of_empty (start : Nat) : number token tokens ⟨start, []⟩ = 0 := by
  unfold number
  rw [List.countP_eq_zero]
  intro x _ h
  obtain ⟨-, hle, hlt⟩ := of_decide_eq_true h
  exact Nat.not_lt_of_le hle hlt

/-- A token that ends before a line does not make it one inside a comment. -/
theorem isInside_cons_of_le {line : Line} (h : x.span.stop ≤ line.start) :
    line.isInside (x :: tokens) = line.isInside tokens := by
  have hstop : decide (line.start < x.span.stop) = false := decide_eq_false (by omega)
  unfold isInside
  rw [List.any_cons, hstop, Bool.and_false, Bool.false_or]

theorem isInside_of_mem {line : Line} (hx : x ∈ tokens) (hvalue : isBlockComment x.value = true)
    (hstart : x.span.start < line.start) (hstop : line.start < x.span.stop) :
    line.isInside tokens = true := by
  refine List.any_eq_true.mpr ⟨x, hx, ?_⟩
  rw [hvalue, decide_eq_true hstart, decide_eq_true hstop]
  rfl

theorem not_isInside {line : Line} (h : ∀ x ∈ tokens, isBlockComment x.value = true →
    line.start ≤ x.span.start) : line.isInside tokens = false := by
  refine List.any_eq_false.mpr fun x hx => ?_
  simp only [Bool.and_eq_true, decide_eq_true_eq]
  rintro ⟨⟨hvalue, hstart⟩, -⟩
  have := h x hx hvalue
  omega

theorem le_start_of_mem_place {start : Nat} {pieces : List Text} {line : Line}
    (h : line ∈ place start pieces) : start ≤ line.start := by
  induction pieces generalizing start with
  | nil => cases h
  | cons piece pieces ih =>
    rw [place] at h
    split at h
    · cases h
    · rcases List.mem_cons.mp h with rfl | h
      · exact Nat.le_refl _
      · have := ih h
        omega

end Line

/-! ### What counting braces tells -/

/-- How a line is counted that begins inside a comment or not. -/
def Mode.atStart (inComment : Bool) : Mode := if inComment then .comment else .code

/-- The count of braces says of every line what the tokens say of it. -/
def Tells (tokens : List (Located Token)) (inComment : Bool) : List Line → Prop
  | [] => True
  | line :: lines =>
    let braces := count (.atStart inComment) line.text
    line.isInside tokens = inComment ∧ line.number .leftBrace tokens = braces.opens ∧
      line.number .rightBrace tokens = braces.closes ∧ Tells tokens braces.openComment lines

/-- A token before the lines changes nothing. -/
theorem Tells.cons {inComment : Bool} {lines : List Line} (h : Tells tokens inComment lines)
    (hlines : ∀ line ∈ lines, x.span.start < line.start ∧ x.span.stop ≤ line.start) :
    Tells (x :: tokens) inComment lines := by
  induction lines generalizing inComment with
  | nil => trivial
  | cons line lines ih =>
    obtain ⟨hinside, hopens, hcloses, hrest⟩ := h
    rw [List.forall_mem_cons] at hlines
    obtain ⟨⟨hstart, hstop⟩, hlines⟩ := hlines
    refine ⟨?_, ?_, ?_, ih hrest hlines⟩
    · rw [Line.isInside_cons_of_le hstop, hinside]
    · rw [Line.number_cons_of_lt hstart, hopens]
    · rw [Line.number_cons_of_lt hstart, hcloses]

/-- From an offset on, where counting is in some mode, the count says what the tokens say: of the
braces in what is left of the line, and of the lines that follow. -/
def Follows (tokens : List (Located Token)) (start : Nat) (m : Mode) (u : Text) : Prop :=
  ∀ l ls, split '\n' u = l :: ls →
    Line.number .leftBrace tokens ⟨start, l⟩ = (count m l).opens ∧
      Line.number .rightBrace tokens ⟨start, l⟩ = (count m l).closes ∧
      Tells tokens (count m l).openComment (Line.place (start + l.size + 1) ls)

theorem follows_nil (start : Nat) (m : Mode) : Follows tokens start m [] := by
  intro l ls h
  obtain ⟨rfl, rfl⟩ := List.cons.inj h
  have hbraces : (count m []).opens = 0 ∧ (count m []).closes = 0 := by
    cases m <;> exact ⟨rfl, rfl⟩
  rw [hbraces.1, hbraces.2]
  exact ⟨Line.number_of_empty _, Line.number_of_empty _, trivial⟩

theorem split_append_of_feedless {s u l : Text} {ls : List Text} (hs : '\n' ∉ s)
    (h : split '\n' (s ++ u) = l :: ls) : ∃ l', l = s ++ l' ∧ split '\n' u = l' :: ls := by
  induction s generalizing l with
  | nil => exact ⟨l, rfl, h⟩
  | cons c s ih =>
    rw [List.mem_cons, not_or] at hs
    rw [List.cons_append, split, if_neg (Ne.symm hs.1)] at h
    split at h
    · rename_i hnil
      exact absurd hnil (split_ne_nil _ _)
    · rename_i piece pieces hsplit
      obtain ⟨rfl, rfl⟩ := List.cons.inj h
      obtain ⟨l', rfl, hu⟩ := ih hs.2 hsplit
      exact ⟨l', rfl, hu⟩

/-- Behind a line feed a line begins, and counting is in a comment there if it was. -/
theorem Follows.feed (inComment : Bool) {start : Nat} {u : Text}
    (h : Follows tokens (start + 1) (.atStart inComment) u)
    (hinside : u ≠ [] → ∀ l, Line.isInside tokens ⟨start + 1, l⟩ = inComment) :
    Follows tokens start (.atStart inComment) ('\n' :: u) := by
  intro l ls hsplit
  obtain ⟨rfl, rfl⟩ : [] = l ∧ split '\n' u = ls := List.cons.inj hsplit
  have hend : count (.atStart inComment) [] = { openComment := inComment } := by
    cases inComment <;> rfl
  rw [hend]
  refine ⟨Line.number_of_empty _, Line.number_of_empty _, ?_⟩
  cases hu : split '\n' u with
  | nil => trivial
  | cons l ls =>
    obtain ⟨hopens, hcloses, hrest⟩ := h l ls hu
    rw [size_nil, Nat.add_zero, Line.place]
    split
    · trivial
    · rename_i hlast
      refine ⟨hinside ?_ l, hopens, hcloses, hrest⟩
      rintro rfl
      obtain ⟨rfl, rfl⟩ := List.cons.inj hu
      exact hlast ⟨rfl, rfl⟩

/-- Characters within a line where no brace begins and that counting passes over. -/
theorem Follows.pass {start : Nat} {m n : Mode} {s u : Text} (hs : '\n' ∉ s)
    (htokens : ∀ x ∈ tokens, x.value = .leftBrace ∨ x.value = .rightBrace →
      x.span.start < start ∨ start + s.size ≤ x.span.start)
    (hcount : ∀ l ls, split '\n' u = l :: ls → count m (s ++ l) = count n l)
    (h : Follows tokens (start + s.size) n u) : Follows tokens start m (s ++ u) := by
  intro l ls hsplit
  obtain ⟨l, rfl, hu⟩ := split_append_of_feedless hs hsplit
  obtain ⟨hopens, hcloses, hrest⟩ := h l ls hu
  rw [hcount l ls hu, Line.number_append fun x hx hvalue => htokens x hx (.inl hvalue),
    Line.number_append fun x hx hvalue => htokens x hx (.inr hvalue), size_append, ← Nat.add_assoc]
  exact ⟨hopens, hcloses, hrest⟩

/-- A token that has ended changes nothing. -/
theorem Follows.cons {start : Nat} {m : Mode} {u : Text} (h : Follows tokens start m u)
    (hstart : x.span.start < start) (hstop : x.span.stop ≤ start) :
    Follows (x :: tokens) start m u := by
  intro l ls hsplit
  obtain ⟨hopens, hcloses, hrest⟩ := h l ls hsplit
  refine ⟨?_, ?_, hrest.cons fun line hline => ?_⟩
  · rw [Line.number_cons_of_lt hstart, hopens]
  · rw [Line.number_cons_of_lt hstart, hcloses]
  · have := Line.le_start_of_mem_place hline
    omega

/-- A brace counts in its line, for the tokens and for the count. -/
theorem Follows.brace {start : Nat} {c : Char} {u : Text} (hc : c ≠ '\n')
    (hlater : ∀ y ∈ tokens, start + c.utf8Size ≤ y.span.start)
    (hopens : ∀ l, (count .code (c :: l)).opens =
      (count .code l).opens + if token = .leftBrace then 1 else 0)
    (hcloses : ∀ l, (count .code (c :: l)).closes =
      (count .code l).closes + if token = .rightBrace then 1 else 0)
    (hcomment : ∀ l, (count .code (c :: l)).openComment = (count .code l).openComment)
    (h : Follows tokens (start + c.utf8Size) .code u) :
    Follows (⟨token, ⟨start, start + c.utf8Size⟩⟩ :: tokens) start .code (c :: u) := by
  have hpos := c.utf8Size_pos
  have hnumber : ∀ word l, Line.number word (⟨token, ⟨start, start + c.utf8Size⟩⟩ :: tokens)
      ⟨start, c :: l⟩ =
        Line.number word tokens ⟨start + c.utf8Size, l⟩ + if token = word then 1 else 0 := by
    intro word l
    have hcut : Line.number word tokens ⟨start, [c] ++ l⟩ = _ :=
      Line.number_append (fun y hy _ => .inr (hlater y hy)) l
    rw [Line.number_cons_first]
    exact congrArg (· + _) hcut
  intro l ls hsplit
  obtain ⟨l, rfl, hu⟩ := split_append_of_feedless (s := [c]) (by simpa using Ne.symm hc) hsplit
  obtain ⟨hopens', hcloses', hrest⟩ := h l ls hu
  rw [List.singleton_append, hnumber, hnumber, hopens', hcloses', hopens, hcloses, hcomment,
    size_cons, ← Nat.add_assoc]
  refine ⟨rfl, rfl, hrest.cons fun line hline => ?_⟩
  have hle := Line.le_start_of_mem_place hline
  simp only
  omega

theorem head?_of_split {t l : Text} {ls : List Text} {d : Char} (h : split '\n' t = l :: ls)
    (hd : l.head? = some d) : t.head? = some d := by
  cases t with
  | nil =>
    obtain ⟨rfl, -⟩ := List.cons.inj h
    cases hd
  | cons c t =>
    rw [split] at h
    split at h
    · obtain ⟨rfl, -⟩ := List.cons.inj h
      cases hd
    · split at h <;> obtain ⟨rfl, -⟩ := List.cons.inj h <;> exact hd

/-- Behind the mark that opens a block comment the count is in the comment until this is closed, and
each line that begins until then is inside the comment. -/
theorem follows_comment {body rest : Text} (hcloses : Front.Closes body rest) {start stop : Nat}
    (hx : x ∈ tokens) (hvalue : isBlockComment x.value = true) (hstart : x.span.start < start)
    (hstop : x.span.stop = stop) (hsize : start + body.size = stop + rest.size)
    (htokens : ∀ y ∈ tokens, y.value = .leftBrace ∨ y.value = .rightBrace →
      y.span.start < start ∨ stop ≤ y.span.start)
    (h : Follows tokens stop .code rest) : Follows tokens start .comment body := by
  induction hcloses generalizing start with
  | closed rest =>
    have hend : start + size ['*', '/'] = stop := by
      have hmark : size ('*' :: '/' :: rest) = size ['*', '/'] + size rest :=
        size_append ['*', '/'] rest
      omega
    rw [← hend] at htokens h
    exact Follows.pass (s := ['*', '/']) (by decide) htokens (fun l ls _ => rfl) h
  | unclosed => exact follows_nil start .comment
  | @skip c body rest hend hbody ih =>
    have hc := c.utf8Size_pos
    rw [size_cons] at hsize
    have hbehind : Follows tokens (start + c.utf8Size) .comment body := by
      refine ih (by omega) (by omega) (fun y hy hbrace => ?_) h
      exact (htokens y hy hbrace).imp_left (by omega)
    by_cases hfeed : c = '\n'
    · subst hfeed
      have hone : ('\n' : Char).utf8Size = 1 := rfl
      rw [hone] at hsize hbehind
      refine Follows.feed true hbehind fun hne l => ?_
      have hlt := hbody.size_lt hne
      refine Line.isInside_of_mem hx hvalue ?_ ?_
      · exact Nat.lt_succ_of_lt hstart
      · simp only
        omega
    · have hpast : ∀ l ls, split '\n' body = l :: ls →
          count .comment ([c] ++ l) = count .comment l := by
        intro l ls hsplit
        rw [List.singleton_append, count_comment_cons, if_neg]
        rintro ⟨hstar, hslash⟩
        exact hend ⟨hstar, head?_of_split hsplit hslash⟩
      have hle := hbody.size_le
      have hcut : ∀ y ∈ tokens, y.value = .leftBrace ∨ y.value = .rightBrace →
          y.span.start < start ∨ start + size [c] ≤ y.span.start := by
        intro y hy hbrace
        refine (htokens y hy hbrace).imp_right fun h => ?_
        rw [size_cons, size_nil]
        omega
      exact Follows.pass (by simpa using Ne.symm hfeed) hcut hpast hbehind

/-- Of the braces all but the first token stand behind it. -/
theorem behind_of_brace {tok : Token} {start stop : Nat} {later : List (Located Token)}
    (hopen : tok ≠ .leftBrace) (hclose : tok ≠ .rightBrace)
    (hlater : ∀ y ∈ later, stop ≤ y.span.start) :
    ∀ y ∈ ⟨tok, ⟨start, stop⟩⟩ :: later, y.value = .leftBrace ∨ y.value = .rightBrace →
      stop ≤ y.span.start := by
  intro y hy hbrace
  rcases List.mem_cons.mp hy with rfl | hy
  · exact absurd hbrace (not_or.mpr ⟨hopen, hclose⟩)
  · exact hlater y hy

/-- A block comment is passed over by its mark and what follows it. -/
theorem Follows.block {text : String} {body rest : Text} {start stop : Nat}
    {later : List (Located Token)} (hcloses : Front.Closes body rest)
    (hsize : start + size ['/', '*'] + size body = stop + size rest)
    (hlater : ∀ y ∈ later, stop ≤ y.span.start)
    (h : Follows (⟨.blockComment text, ⟨start, stop⟩⟩ :: later) stop .code rest) :
    Follows (⟨.blockComment text, ⟨start, stop⟩⟩ :: later) start .code ('/' :: '*' :: body) := by
  have hmark : 0 < size ['/', '*'] := size_pos (List.cons_ne_nil _ _)
  have hle := hcloses.size_le
  have hbraces : ∀ y ∈ ⟨.blockComment text, ⟨start, stop⟩⟩ :: later,
      y.value = .leftBrace ∨ y.value = .rightBrace → stop ≤ y.span.start :=
    behind_of_brace (by simp) (by simp) hlater
  refine Follows.pass (s := ['/', '*']) (n := .comment) (by decide) (fun y hy hbrace => ?_)
    (fun l ls _ => rfl) ?_
  · have hstop := hbraces y hy hbrace
    omega
  · exact follows_comment hcloses List.mem_cons_self rfl (Nat.lt_add_of_pos_right hmark) rfl hsize
      (fun y hy hbrace => .inr (hbraces y hy hbrace)) h

/-- From the start of a token on the count of braces says what the tokens say, if there are no
lexical offences. -/
theorem follows_ofText {start : Nat} {t : Text}
    (h : Piece.diagnostics start (Piece.ofText t) = []) :
    Follows (Piece.tokens start (Piece.ofText t)) start .code t := by
  fun_induction Piece.ofText t generalizing start with
  | case1 => exact follows_nil start .code
  | case3 => cases h
  | case2 c t tok n hscan ih =>
    have hwritten := Front.written_of_scan hscan
    have hparts : c :: t = (c :: t.take n) ++ t.drop n := by
      rw [List.cons_append, List.take_append_drop]
    have hpos : 0 < size (c :: t.take n) := size_pos (List.cons_ne_nil _ _)
    rw [Piece.tokens]
    have hrest := ih h
    have hlater : ∀ y ∈ Piece.tokens (start + size (c :: t.take n)) (Piece.ofText (t.drop n)),
        start + size (c :: t.take n) ≤ y.span.start :=
      fun y hy => (Piece.bounds_of_mem_tokens hy).1
    generalize Piece.tokens (start + size (c :: t.take n)) (Piece.ofText (t.drop n)) = later
      at hrest hlater
    have hbehind := hrest.cons (x := ⟨tok, ⟨start, start + size (c :: t.take n)⟩⟩)
      (Nat.lt_add_of_pos_right hpos) (Nat.le_refl _)
    by_cases hopen : tok = .leftBrace
    · subst hopen
      obtain ⟨rfl, htake⟩ : c = '{' ∧ t.take n = [] := List.cons.inj hwritten
      rw [htake] at hparts hrest hlater
      rw [htake, hparts]
      exact Follows.brace (by decide) hlater (fun l => rfl) (fun l => rfl) (fun l => rfl) hrest
    by_cases hclose : tok = .rightBrace
    · subst hclose
      obtain ⟨rfl, htake⟩ : c = '}' ∧ t.take n = [] := List.cons.inj hwritten
      rw [htake] at hparts hrest hlater
      rw [htake, hparts]
      exact Follows.brace (by decide) hlater (fun l => rfl) (fun l => rfl) (fun l => rfl) hrest
    by_cases hfeed : tok = .newline
    · subst hfeed
      obtain ⟨rfl, htake⟩ : c = '\n' ∧ t.take n = [] := List.cons.inj hwritten
      rw [htake] at hparts hlater hbehind
      rw [htake, hparts]
      refine Follows.feed false hbehind fun _ l => Line.not_isInside fun y hy hc => ?_
      rcases List.mem_cons.mp hy with rfl | hy
      · cases hc
      · exact hlater y hy
    by_cases hblock : ∃ text, tok = .blockComment text
    · obtain ⟨text, rfl⟩ := hblock
      obtain ⟨rfl, body, rfl, hcloses⟩ := Front.closes_of_scan hscan
      refine Follows.block hcloses ?_ hlater hbehind
      rw [Nat.add_assoc, Nat.add_assoc, ← size_append, ← size_append, ← hparts]
      rfl
    · obtain ⟨hline, hcount⟩ := Front.count_inline hscan hopen hclose hfeed fun text htext =>
        hblock ⟨text, htext⟩
      rw [hparts]
      exact Follows.pass hline
        (fun y hy hbrace => .inr (behind_of_brace hopen hclose hlater y hy hbrace)) hcount hbehind

/-- The count of braces says of every line of a text without lexical offences what the tokens say of
it. -/
theorem tells_ofText {source : String} (h : (tokenize source).2 = []) :
    Tells (tokenize source).1 false (Line.ofText source.toList) := by
  have hfollows := follows_ofText h
  unfold Line.ofText
  cases hlines : split '\n' source.toList with
  | nil => trivial
  | cons l ls =>
    obtain ⟨hopens, hcloses, hrest⟩ := hfollows l ls hlines
    rw [Line.place]
    split
    · trivial
    · exact ⟨Line.not_isInside fun x _ _ => Nat.zero_le _, hopens, hcloses, hrest⟩

/-! ### What is written -/

namespace Line

/-- What is to be written for some lines, at the depth that the lines before lead to. -/
def allWritten (width : Nat) (tokens : List (Located Token)) (depth : Nat) (lines : List Line) :
    List (Option Text) :=
  lines.mapIdx fun i line => line.written width tokens (depthBehind tokens depth (lines.take i))

theorem allWritten_cons (width depth : Nat) (line : Line) (lines : List Line) :
    allWritten width tokens depth (line :: lines) =
      line.written width tokens depth ::
        allWritten width tokens
          (depth + line.number .leftBrace tokens - line.number .rightBrace tokens) lines := by
  unfold allWritten
  rw [List.mapIdx_cons]
  rfl

end Line

theorem leadingCloses_eq (line : Text) :
    leadingCloses line = (line.takeWhile fun c => c == '}' || isBlank c).count '}' := by
  rw [leadingCloses, List.count_eq_countP, List.countP_eq_length_filter]

/-! ### One line of the layout -/

namespace State

variable {s : State} (width : Nat) (text : Text)

theorem passComment_eq (hcomment : s.inComment = true) :
    s.passComment text = { s.pass (count .comment text) with blankDue := s.blankDue } := by
  unfold passComment
  rw [count_comment]
  cases afterComment? text with
  | some rest => rfl
  | none => simp [pass, hcomment]

/-- A line that begins inside a comment. -/
theorem step_comment (hs : s.Sound) (hcomment : s.inComment = true) :
    s.blankDue = false ∧ s.emit width text = [trimEnd text] ∧
      s.next text = s.pass (count .comment text) := by
  have hdue : s.blankDue = false := by
    by_contra hdue
    have hcode := (hs (by simpa using hdue)).1
    exact Bool.noConfusion (hcomment.symm.trans hcode)
  refine ⟨hdue, ?_, ?_⟩
  · rw [emit, if_pos hcomment]
  · rw [next, if_pos hcomment, passComment_eq _ hcomment, count_trimEnd, hdue]
    rfl

/-- A blank line outside of comments. -/
theorem step_blank (hcode : s.inComment = false) (hblank : trim text = []) :
    s.emit width text = [] ∧ s.next text = { s with blankDue := s.started } ∧
      count .code text = {} := by
  refine ⟨?_, ?_, ?_⟩
  · simp [emit, hcode, hblank]
  · simp [next, hcode, hblank]
  · rw [← count_trim, hblank]
    rfl

/-- Any other line. -/
theorem step_ink (hcode : s.inComment = false) (hink : trim text ≠ []) :
    s.emit width text = (if s.blankDue then [[]] else []) ++ [indent width s.depth (trim text)] ∧
      s.next text = s.pass (count .code text) := by
  constructor
  · simp [emit, hcode, hink]
  · simp [next, hcode, hink, count_trim]

end State

/-! ### All lines of the layout -/

/-- Lines of which the count of braces tells what the tokens tell are laid out by the tokens. -/
theorem layLines_eq (width : Nat) {s : State} (hs : s.Sound) {lines : List Line}
    (h : Tells tokens s.inComment lines) :
    layLines width s (lines.map Line.text) =
      let written := Line.allWritten width tokens s.depth lines
      spaced s.blankDue (if s.started then written else written.dropWhile Option.isNone) := by
  induction lines generalizing s with
  | nil => simp [layLines, Line.allWritten, spaced]
  | cons line lines ih =>
    obtain ⟨hinside, hopens, hcloses, hrest⟩ := h
    have hnext := State.sound_next hs line.text
    rw [List.map_cons, layLines_cons, Line.allWritten_cons, hopens, hcloses]
    cases hcomment : s.inComment with
    | true =>
      rw [hcomment] at hinside hrest
      obtain ⟨hdue, hemit, hstate⟩ := State.step_comment width line.text hs hcomment
      have hwritten : line.written width tokens s.depth = some (trimEnd line.text) := by
        rw [Line.written, if_pos hinside]
      rw [hstate] at hnext ⊢
      rw [ih hnext hrest, hemit, hwritten, hdue]
      cases s.started <;> rfl
    | false =>
      rw [hcomment] at hinside hrest
      have hcode : ¬line.isInside tokens = true := by simp [hinside]
      by_cases hblank : trim line.text = []
      · obtain ⟨hemit, hstate, hcount⟩ := State.step_blank width line.text hcomment hblank
        have hwritten : line.written width tokens s.depth = none := by
          rw [Line.written, if_neg hcode, if_pos hblank]
        have hatStart : count (.atStart false) line.text = {} := hcount
        rw [hatStart] at hrest ⊢
        rw [hstate] at hnext ⊢
        rw [ih hnext (by rw [hcomment]; exact hrest), hemit, hwritten]
        -- A blank line makes one due, unless nothing has been written.
        cases hstarted : s.started with
        | true => rfl
        | false =>
          have hdue : s.blankDue = false := by
            by_contra hdue
            have hlate := (hs (by simpa using hdue)).2
            exact Bool.noConfusion (hstarted.symm.trans hlate)
          rw [hdue]
          rfl
      · obtain ⟨hemit, hstate⟩ := State.step_ink width line.text hcomment hblank
        have hwritten : line.written width tokens s.depth =
            some (indent width s.depth (trim line.text)) := by
          rw [Line.written, if_neg hcode, if_neg hblank, indent, leadingCloses_eq]
        rw [hstate] at hnext ⊢
        rw [ih hnext hrest, hemit, hwritten]
        cases s.started <;> cases s.blankDue <;> rfl

/-- Lines are laid out alike whatever blanks end them. -/
theorem layLines_congr (width : Nat) (s : State) {ls ms : List Text}
    (h : ls.map trimEnd = ms.map trimEnd) : layLines width s ls = layLines width s ms := by
  induction ls generalizing s ms with
  | nil =>
    obtain rfl := List.map_eq_nil_iff.mp h.symm
    rfl
  | cons l ls ih =>
    cases ms with
    | nil => cases h
    | cons m ms =>
      obtain ⟨hend, hrest⟩ := List.cons.inj h
      have htrim : trim l = trim m := by rw [← trim_trimEnd, hend, trim_trimEnd]
      have hemit : s.emit width l = s.emit width m := by
        rw [State.emit, State.emit, hend, htrim]
      have hnext : s.next l = s.next m := by
        rw [State.next, State.next, hend, htrim]
      rw [layLines_cons, layLines_cons, hemit, hnext, ih _ hrest]

theorem map_text_place (start : Nat) {pieces : List Text} (hne : pieces ≠ []) :
    (Line.place start pieces).map Line.text =
      if pieces.getLast? = some [] then pieces.dropLast else pieces := by
  induction pieces generalizing start with
  | nil => exact absurd rfl hne
  | cons piece pieces ih =>
    cases pieces with
    | nil => by_cases hempty : piece = [] <;> simp [Line.place, hempty]
    | cons next pieces =>
      rw [Line.place, if_neg (fun h => List.cons_ne_nil _ _ h.2), List.map_cons,
        ih _ (List.cons_ne_nil _ _), List.getLast?_cons_cons]
      split <;> rfl

/-- The lines that are laid out are those of the text, but for blanks that end them. -/
theorem map_trimEnd_lines (t : Text) :
    (lines t).map trimEnd = ((Line.ofText t).map Line.text).map trimEnd := by
  have hne := split_ne_nil '\n' t
  have hreturn : ∀ ls : List Text, (ls.map dropReturn).map trimEnd = ls.map trimEnd := by
    intro ls
    rw [List.map_map]
    exact List.map_congr_left fun l _ => trimEnd_dropReturn l
  obtain ⟨front, last, hpieces⟩ : ∃ front last, split '\n' t = front ++ [last] :=
    ⟨_, _, (List.dropLast_concat_getLast hne).symm⟩
  rw [Line.ofText, map_text_place 0 hne, lines]
  simp only [hpieces, List.getLast?_concat, List.dropLast_concat]
  cases last with
  | nil =>
    rw [if_pos rfl]
    exact hreturn front
  | cons c last => rw [if_neg (by simp), List.map_append, List.map_append, hreturn]

/-- The layout of a text without lexical offences, by its tokens: what is to be written for each line
at the depth that the tokens of the lines before lead to, with one blank line in place of those
between two written ones and none at either end. -/
theorem format_eq_written (width : Nat) (source : String) (h : (tokenize source).2 = []) :
    format width source = String.ofList (unlines (dropBlankEnd (spaced false
      ((Line.allWritten width (tokenize source).1 0 (Line.ofText source.toList)).dropWhile
        Option.isNone)))) := by
  have hsound : State.Sound {} := fun hdue => Bool.noConfusion hdue
  have hlines : layLines width {} (lines source.toList) = _ :=
    (layLines_congr width {} (map_trimEnd_lines source.toList)).trans
      (layLines_eq width hsound (tells_ofText h))
  rw [format, formatText, hlines]
  rfl

/-- Braces in comments and strings do not count, a line inside a comment keeps its blanks, and a
blank line stays. -/
theorem format_eq_written_commented :
    (tokenize "a \x7b/*\x7d\n x*/ b \"\x7d\" // \x7b\n\nc\n\x7d").2 = [] ∧
      format 2 "a \x7b/*\x7d\n x*/ b \"\x7d\" // \x7b\n\nc\n\x7d" =
        "a \x7b/*\x7d\n x*/ b \"\x7d\" // \x7b\n\n  c\n\x7d\n" :=
  ⟨by decide +kernel, (format_eq_written 2 _ (by decide +kernel)).trans (by decide +kernel)⟩

end Layout

end EventCatalog
