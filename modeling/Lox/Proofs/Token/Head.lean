import Lox.Proofs.Token.Join

/-!
# A head that counts lines

A text can also be read by a head that moves over it one character at a time, looks at most two
characters ahead and counts the line feeds as it passes them: between pieces, inside strings and inside
comments. It finds what scanning finds, and its count is always right.
-/

namespace Lox.Token

open Piece

/-- Something that was found in a text, from one position to another. -/
structure Placed (α : Type) where
  start : Nat
  stop : Nat
  value : α

/-- A head that reads a text. -/
structure Head where
  /-- The characters before the head. -/
  passed : List Char
  /-- The characters ahead of it. -/
  ahead : List Char
  /-- Where the current piece starts. -/
  start : Nat
  /-- The line that has been counted up to. -/
  line : Nat
  tokens : List (Placed Token)
  complaints : List (Placed Complaint)

namespace Head

variable {p : Char → Bool} {count level : Nat}

/-! ### Moves -/

def before (cs : List Char) : Head := ⟨[], cs, 0, 1, [], []⟩

def atEnd (h : Head) : Bool := h.ahead.isEmpty

/-- The next character; NUL stands for none. -/
def peek (h : Head) : Char := h.ahead.headD '\x00'

def peekNext (h : Head) : Char := (h.ahead.drop 1).headD '\x00'

/-- Whether the next character is the given one. -/
def meets (c : Char) (h : Head) : Bool := !h.atEnd && h.peek = c

/-- Moves past the next character. -/
def advance (h : Head) : Head :=
  match h.ahead with
  | [] => h
  | c :: cs => { h with passed := h.passed ++ [c], ahead := cs }

def nextLine (h : Head) : Head := { h with line := h.line + 1 }

/-- The characters of the current piece so far. -/
def lexeme (h : Head) : List Char := h.passed.drop h.start

/-- Delivers the current piece as a token. -/
def deliver (kind : Kind) (h : Head) : Head :=
  { h with tokens := h.tokens ++ [⟨h.start, h.passed.length, .ofLexeme kind h.lexeme h.line⟩] }

def complain (flaw : Flaw) (h : Head) : Head :=
  { h with complaints := h.complaints ++ [⟨h.start, h.passed.length, ⟨h.line, flaw⟩⟩] }

/-- Repeats a move while a test holds, at most `count` times. -/
def loop (test : Head → Bool) (move : Head → Head) : Nat → Head → Head
  | 0, h => h
  | count + 1, h => if test h then loop test move count (move h) else h

/-- Repeats a move while a test holds. Every move passes a character, so there are no more moves than
characters ahead. -/
def repeatWhile (test : Head → Bool) (move : Head → Head) (h : Head) : Head :=
  loop test move h.ahead.length h

/-! ### Pieces -/

/-- The rest of a string. Line feeds in it are counted. -/
def string (h : Head) : Head :=
  let h := h.repeatWhile (fun h => h.peek ≠ '"' && !h.atEnd)
    fun h => (if h.peek = '\n' then h.nextLine else h).advance
  if h.atEnd then h.complain .unterminatedString else h.advance.deliver .string

def digits (h : Head) : Head := h.repeatWhile (fun h => Decimal.isDigit h.peek) advance

/-- Moves past a point and digits, if a digit follows the point. -/
def fraction (h : Head) : Head :=
  if h.peek = '.' && Decimal.isDigit h.peekNext then h.advance.digits else h

def number (h : Head) : Head := h.digits.fraction.deliver .number

def name (h : Head) : Head :=
  let h := h.repeatWhile (fun h => isAlphanumeric h.peek) advance
  h.deliver (.ofWord h.lexeme)

/-- Moves on until `level` open comments are closed, with at most `count` moves; yields how many are open
at the end. Line feeds are counted. -/
def closeComments : Nat → Nat → Head → Nat × Head
  | 0, level, h => (level, h)
  | _ + 1, 0, h => (0, h)
  | count + 1, level + 1, h =>
    if h.atEnd then (level + 1, h)
    else if h.peek = '/' && h.peekNext = '*' then closeComments count (level + 2) h.advance.advance
    else if h.peek = '*' && h.peekNext = '/' then closeComments count level h.advance.advance
    else if h.peek = '\n' then closeComments count (level + 1) h.advance.nextLine
    else closeComments count (level + 1) h.advance

/-- The rest of a comment that may hold others. -/
def blockComment (h : Head) : Head :=
  let (level, h) := closeComments h.ahead.length 1 h
  if h.atEnd && 0 < level then h.complain .unterminatedComment else h

/-- What follows a slash. A comment up to the end of the line leaves the line feed unread. -/
def slash (h : Head) : Head :=
  if h.meets '/' then h.advance.repeatWhile (fun h => h.peek ≠ '\n' && !h.atEnd) advance
  else if h.meets '*' then h.advance.blockComment
  else h.deliver .slash

/-- What follows the first character of a piece. -/
def scanAfter (c : Char) (h : Head) : Head :=
  match single? c with
  | some kind => h.deliver kind
  | none =>
    match extensible? c with
    | some (alone, extended) => if h.meets '=' then h.advance.deliver extended else h.deliver alone
    | none =>
      if c = '/' then h.slash
      else if c = ' ' || c = '\r' || c = '\t' then h
      else if c = '\n' then h.nextLine
      else if c = '"' then h.string
      else if Decimal.isDigit c then h.number
      else if isAlpha c then h.name
      else h.complain (.unexpectedCharacter c)

def mark (h : Head) : Head := { h with start := h.passed.length }

/-- Reads the next piece. -/
def scanToken (h : Head) : Head := h.mark.advance.scanAfter h.peek

def run (cs : List Char) : Head := (before cs).repeatWhile (fun h => !h.atEnd) scanToken

/-! ### Passing a text -/

def past (h : Head) (text rest : List Char) : Head :=
  { h with passed := h.passed ++ text, ahead := rest, line := h.line + text.count '\n' }

theorem past_past (h : Head) (text text' rest rest' : List Char) :
    (h.past text rest).past text' rest' = h.past (text ++ text') rest' := by
  simp [past, List.count_append, Nat.add_assoc]

theorem past_nil {h : Head} {rest : List Char} (hr : h.ahead = rest) : h.past [] rest = h := by
  subst hr
  simp [past]

theorem advance_eq_past {h : Head} (ha : h.ahead = c :: cs) (hc : c ≠ '\n') :
    h.advance = h.past [c] cs := by
  have hcount : [c].count '\n' = 0 := by simp [hc]
  simp [advance, past, ha, hcount]

theorem advance_nextLine_eq_past {h : Head} (ha : h.ahead = '\n' :: cs) :
    h.advance.nextLine = h.past ['\n'] cs ∧ h.nextLine.advance = h.past ['\n'] cs := by
  simp [advance, nextLine, past, ha]

theorem loop_eq_past {test : Head → Bool} {move : Head → Head}
    (htest : ∀ h : Head, test h = h.ahead.head?.any p)
    (hmove : ∀ (h : Head) (c : Char) (cs : List Char), h.ahead = c :: cs → p c = true →
      move h = h.past [c] cs)
    {h : Head} (hc : h.ahead.length ≤ count) :
    loop test move count h = h.past (h.ahead.takeWhile p) (h.ahead.dropWhile p) := by
  induction count generalizing h with
  | zero =>
    have hnil : h.ahead = [] := List.length_eq_zero_iff.1 (Nat.le_zero.1 hc)
    rw [hnil]
    exact (past_nil hnil).symm
  | succ count ih =>
    rw [loop, htest]
    cases ha : h.ahead with
    | nil => exact (past_nil ha).symm
    | cons c cs =>
      rw [ha, List.length_cons] at hc
      by_cases hp : p c = true
      · rw [if_pos (by simpa using hp), hmove h c cs ha hp, ih (Nat.le_of_succ_le_succ hc),
          past_past, List.takeWhile_cons_of_pos hp, List.dropWhile_cons_of_pos hp]
        rfl
      · rw [if_neg (by simpa using hp), List.takeWhile_cons_of_neg hp, List.dropWhile_cons_of_neg hp,
          past_nil ha]

theorem repeatWhile_eq_past {test : Head → Bool} {move : Head → Head}
    (htest : ∀ h : Head, test h = h.ahead.head?.any p)
    (hmove : ∀ (h : Head) (c : Char) (cs : List Char), h.ahead = c :: cs → p c = true →
      move h = h.past [c] cs) (h : Head) :
    h.repeatWhile test move = h.past (h.ahead.takeWhile p) (h.ahead.dropWhile p) :=
  loop_eq_past htest hmove (Nat.le_refl _)

theorem repeatWhile_peek (hline : p '\n' = false) (hnul : p '\x00' = false) (h : Head) :
    h.repeatWhile (fun h => p h.peek) advance = h.past (h.ahead.takeWhile p) (h.ahead.dropWhile p) := by
  refine repeatWhile_eq_past ?_ ?_ h
  · intro h
    cases ha : h.ahead <;> simp [peek, ha, hnul]
  · intro h c cs ha hp
    refine advance_eq_past ha ?_
    rintro rfl
    simp [hline] at hp

theorem test_ne (stop : Char) (h : Head) :
    (h.peek ≠ stop && !h.atEnd) = h.ahead.head?.any (· ≠ stop) := by
  cases ha : h.ahead <;> simp [peek, atEnd, ha]

theorem meets_iff {h : Head} : h.meets c = true ↔ ∃ cs, h.ahead = c :: cs := by
  cases ha : h.ahead <;> simp [meets, peek, atEnd, ha]

/-! ### The rules -/

def note (p : Piece) (h : Head) : Head :=
  match p with
  | .token kind _ => h.deliver kind
  | .illegal c => h.complain (.unexpectedCharacter c)
  | .openString _ => h.complain .unterminatedString
  | .openComment _ => h.complain .unterminatedComment
  | _ => h

def passes (h : Head) (cut : Piece × List Char) : Head := (h.past cut.1.text cut.2).note cut.1

theorem lexeme_past (h : Head) (text rest : List Char) : (h.mark.past text rest).lexeme = text := by
  simp [lexeme, mark, past]

theorem ahead_past (h : Head) (text rest : List Char) : (h.past text rest).ahead = rest := rfl

variable {h : Head} {c : Char} {cs : List Char}

theorem operator_eq (alone extended : Kind) (hc : c ≠ '\n') (ha : h.ahead = c :: cs) :
    (if h.advance.meets '=' then h.advance.advance.deliver extended else h.advance.deliver alone) =
      h.passes (afterOperator c alone extended cs) := by
  rw [advance_eq_past ha hc]
  by_cases hm : (h.past [c] cs).meets '=' = true
  · obtain ⟨rest, rfl⟩ := meets_iff.1 hm
    rw [if_pos hm, advance_eq_past (ahead_past ..) (by decide), past_past]
    rfl
  · have halone : afterOperator c alone extended cs = (.token alone [c], cs) := by
      unfold afterOperator
      split
      · exact absurd (meets_iff.2 ⟨_, rfl⟩) hm
      · rfl
    rw [if_neg hm, halone]
    rfl

theorem string_eq (ha : h.ahead = '"' :: cs) : h.advance.string = h.passes (afterQuote cs) := by
  have hmove : ∀ (h : Head) (c : Char) (cs : List Char), h.ahead = c :: cs →
      decide (c ≠ '"') = true →
        (if h.peek = '\n' then h.nextLine else h).advance = h.past [c] cs := by
    intro h c cs ha _
    have hpeek : h.peek = c := by simp [peek, ha]
    rw [hpeek]
    split
    · rename_i hc
      subst hc
      exact (advance_nextLine_eq_past ha).2
    · rename_i hc
      exact advance_eq_past ha hc
  unfold string
  rw [repeatWhile_eq_past (test_ne '"') hmove, advance_eq_past ha (by decide), past_past]
  obtain ⟨rest, hrest⟩ : ∃ rest, cs.dropWhile (· ≠ '"') = rest := ⟨_, rfl⟩
  simp only [ahead_past, afterQuote, hrest]
  cases rest with
  | nil => rfl
  | cons d ds =>
    obtain rfl := eq_of_dropWhile_ne hrest
    rw [if_neg (by simp [atEnd, past]), advance_eq_past (ahead_past ..) (by decide), past_past]
    rfl

theorem name_eq (hc : c ≠ '\n') (ha : h.ahead = c :: cs) :
    h.mark.advance.name = h.mark.passes
      (.token (.ofWord (c :: cs.takeWhile isAlphanumeric)) (c :: cs.takeWhile isAlphanumeric),
        cs.dropWhile isAlphanumeric) := by
  have hadvance : h.mark.advance = h.mark.past [c] cs := advance_eq_past ha hc
  unfold name
  rw [hadvance, repeatWhile_peek rfl rfl, past_past]
  simp only [lexeme_past, ahead_past]
  rfl

theorem digits_eq (h : Head) :
    h.digits = h.past (h.ahead.takeWhile Decimal.isDigit) (h.ahead.dropWhile Decimal.isDigit) :=
  repeatWhile_peek rfl rfl h

theorem fraction_test (h : Head) :
    (h.peek = '.' && Decimal.isDigit h.peekNext) = true ↔
      ∃ d cs, h.ahead = '.' :: d :: cs ∧ Decimal.isDigit d = true := by
  have hnul : Decimal.isDigit '\x00' = false := rfl
  rcases ha : h.ahead with _ | ⟨c, _ | ⟨d, cs⟩⟩ <;> simp [peek, peekNext, ha, hnul]

theorem fraction_eq (h : Head) : ∃ rest, Piece.fraction h.ahead ++ rest = h.ahead ∧
    h.fraction = h.past (Piece.fraction h.ahead) rest := by
  unfold fraction
  by_cases htest : (h.peek = '.' && Decimal.isDigit h.peekNext) = true
  · obtain ⟨d, cs, ha, hd⟩ := (fraction_test h).1 htest
    have hfraction : Piece.fraction h.ahead = '.' :: (d :: cs).takeWhile Decimal.isDigit := by
      rw [ha, List.takeWhile_cons_of_pos hd]
      simp [Piece.fraction, hd]
    refine ⟨(d :: cs).dropWhile Decimal.isDigit, ?_, ?_⟩
    · rw [hfraction, ha, List.cons_append, List.takeWhile_append_dropWhile]
    · rw [if_pos htest, advance_eq_past ha (by decide), digits_eq, past_past, hfraction]
      rfl
  · have hnone : Piece.fraction h.ahead = [] := by
      unfold Piece.fraction
      split
      · rename_i d cs ha
        exact if_neg fun hd => htest ((fraction_test h).2 ⟨d, cs, ha, hd⟩)
      · rfl
    refine ⟨h.ahead, by rw [hnone, List.nil_append], ?_⟩
    rw [if_neg htest, hnone, past_nil rfl]

theorem number_eq (hc : Decimal.isDigit c = true) (ha : h.ahead = c :: cs) :
    h.advance.number = h.passes
      (.token .number (numeral (c :: cs)), (c :: cs).drop (numeral (c :: cs)).length) := by
  have hline : c ≠ '\n' := by
    rintro rfl
    exact absurd hc (by decide)
  have hdigits : h.advance.digits = h.past ((c :: cs).takeWhile Decimal.isDigit)
      ((c :: cs).dropWhile Decimal.isDigit) := by
    rw [digits_eq, advance_eq_past ha hline, past_past, ahead_past, List.takeWhile_cons_of_pos hc,
      List.dropWhile_cons_of_pos hc]
    rfl
  obtain ⟨rest, hrest, hfraction⟩ := fraction_eq h.advance.digits
  rw [hdigits, ahead_past] at hrest
  rw [hdigits, past_past, ahead_past] at hfraction
  have hsplit : numeral (c :: cs) ++ rest = c :: cs := by
    rw [numeral, List.append_assoc, hrest, List.takeWhile_append_dropWhile]
  have hdrop : (c :: cs).drop (numeral (c :: cs)).length = rest :=
    (congrArg (List.drop (numeral (c :: cs)).length) hsplit).symm.trans List.drop_left
  rw [number, hdigits, hfraction, hdrop]
  rfl

theorem closeComments_other (ha : h.ahead = c :: cs) (hopen : ∀ tail, c = '/' → cs ≠ '*' :: tail)
    (hclose : ∀ tail, c = '*' → cs ≠ '/' :: tail) :
    closeComments (count + 1) (level + 1) h = closeComments count (level + 1) (h.past [c] cs) := by
  have hpeek : h.peek = c := by simp [peek, ha]
  have hnext : ∀ d, h.peekNext = d → d ≠ '\x00' → ∃ tail, cs = d :: tail := by
    rintro d hd hnul
    cases cs with
    | nil => exact absurd (hd.symm.trans (by simp [peekNext, ha])) hnul
    | cons e es => exact ⟨es, by simpa [peekNext, ha] using hd⟩
  have htest : ¬(h.peek = '/' && h.peekNext = '*') = true := by
    simp only [Bool.and_eq_true, decide_eq_true_eq, hpeek]
    rintro ⟨hc, hn⟩
    obtain ⟨tail, htail⟩ := hnext '*' hn (by decide)
    exact hopen tail hc htail
  have htest' : ¬(h.peek = '*' && h.peekNext = '/') = true := by
    simp only [Bool.and_eq_true, decide_eq_true_eq, hpeek]
    rintro ⟨hc, hn⟩
    obtain ⟨tail, htail⟩ := hnext '/' hn (by decide)
    exact hclose tail hc htail
  rw [closeComments, if_neg (by simp [atEnd, ha]), if_neg htest, if_neg htest', hpeek]
  split
  · rename_i hc
    subst hc
    rw [(advance_nextLine_eq_past ha).1]
  · rename_i hc
    rw [advance_eq_past ha hc]

/-- With some comments open, the head moves past the body that was found, and none or at least one of
them is open at its end. -/
def ClosesAs (h : Head) (count level : Nat) : List Char × Option (List Char) → Prop
  | (body, some rest) => closeComments count level h = (0, h.past body rest)
  | (body, none) => ∃ left, closeComments count level h = (left + 1, h.past body [])

theorem ClosesAs.step {count' level' : Nat} {text rest body : List Char} {rest? : Option (List Char)}
    (hstep : closeComments count level h = closeComments count' level' (h.past text rest))
    (hb : (h.past text rest).ClosesAs count' level' (body, rest?)) :
    h.ClosesAs count level (text ++ body, rest?) := by
  cases rest? with
  | some after =>
    have hafter : closeComments count' level' _ = (0, (h.past text rest).past body after) := hb
    rw [past_past] at hafter
    exact hstep.trans hafter
  | none =>
    obtain ⟨left, hleft⟩ := hb
    rw [past_past] at hleft
    exact ⟨left, hstep.trans hleft⟩

theorem closeComments_eq (h : Head) (ha : h.ahead = cs) (hc : cs.length ≤ count) :
    h.ClosesAs count level (closeComment level cs) := by
  fun_induction closeComment level cs generalizing h count with
  | case1 cs =>
    change closeComments count 0 h = _
    rw [past_nil ha]
    cases count <;> rfl
  | case2 level =>
    refine ⟨level, ?_⟩
    rw [past_nil ha]
    cases count with
    | zero => rfl
    | succ count => rw [closeComments, if_pos (by simp [atEnd, ha])]
  | case3 level cs body rest? heq ih =>
    obtain ⟨count, rfl⟩ : ∃ n, count = n + 1 := ⟨count - 1, by simp at hc; omega⟩
    have hmove : h.advance.advance = h.past ['/', '*'] cs := by
      rw [advance_eq_past ha (by decide), advance_eq_past (ahead_past ..) (by decide), past_past]
      rfl
    have hstep : closeComments (count + 1) (level + 1) h =
        closeComments count (level + 2) (h.past ['/', '*'] cs) := by
      rw [closeComments, if_neg (by simp [atEnd, ha]), if_pos (by simp [peek, peekNext, ha]), hmove]
    exact .step hstep (heq ▸ ih (h.past ['/', '*'] cs) rfl (by simp at hc; omega))
  | case4 level cs body rest? heq ih =>
    obtain ⟨count, rfl⟩ : ∃ n, count = n + 1 := ⟨count - 1, by simp at hc; omega⟩
    have hmove : h.advance.advance = h.past ['*', '/'] cs := by
      rw [advance_eq_past ha (by decide), advance_eq_past (ahead_past ..) (by decide), past_past]
      rfl
    have hstep : closeComments (count + 1) (level + 1) h =
        closeComments count level (h.past ['*', '/'] cs) := by
      rw [closeComments, if_neg (by simp [atEnd, ha]), if_neg (by simp [peek, peekNext, ha]),
        if_pos (by simp [peek, peekNext, ha]), hmove]
    exact .step hstep (heq ▸ ih (h.past ['*', '/'] cs) rfl (by simp at hc; omega))
  | case5 level c cs hopen hclose body rest? heq ih =>
    obtain ⟨count, rfl⟩ : ∃ n, count = n + 1 := ⟨count - 1, by simp at hc; omega⟩
    exact .step (closeComments_other ha hopen hclose)
      (heq ▸ ih (h.past [c] cs) rfl (by simpa using hc))

theorem blockComment_eq (h : Head) (cs : List Char) :
    (h.past ['/', '*'] cs).blockComment = h.passes (afterSlash ('*' :: cs)) := by
  have hcloses : (h.past ['/', '*'] cs).ClosesAs cs.length 1 (closeComment 1 cs) :=
    closeComments_eq _ rfl (Nat.le_refl _)
  unfold blockComment afterSlash
  rw [ahead_past]
  rcases hcut : closeComment 1 cs with ⟨body, _ | rest⟩
  · rw [hcut] at hcloses
    obtain ⟨left, hleft⟩ := hcloses
    simp only [hcut, hleft, past_past]
    rfl
  · rw [hcut] at hcloses
    have hrest : closeComments cs.length 1 (h.past ['/', '*'] cs) =
        (0, (h.past ['/', '*'] cs).past body rest) := hcloses
    simp only [hcut, hrest, past_past, Nat.lt_irrefl, decide_false, Bool.and_false,
      Bool.false_eq_true, if_false]
    rfl

theorem slash_eq (ha : h.ahead = '/' :: cs) : h.advance.slash = h.passes (afterSlash cs) := by
  rw [advance_eq_past ha (by decide), slash]
  by_cases hline : (h.past ['/'] cs).meets '/' = true
  · obtain ⟨rest, rfl⟩ := meets_iff.1 hline
    have hmove : ∀ (h : Head) (c : Char) (cs : List Char), h.ahead = c :: cs →
        decide (c ≠ '\n') = true → h.advance = h.past [c] cs :=
      fun h c cs ha hc => advance_eq_past ha (of_decide_eq_true hc)
    rw [if_pos hline, advance_eq_past (ahead_past ..) (by decide),
      repeatWhile_eq_past (test_ne '\n') hmove, past_past, past_past]
    rfl
  rw [if_neg hline]
  by_cases hblock : (h.past ['/'] cs).meets '*' = true
  · obtain ⟨rest, rfl⟩ := meets_iff.1 hblock
    rw [if_pos hblock, advance_eq_past (ahead_past ..) (by decide), past_past]
    exact blockComment_eq h rest
  · have hslash : afterSlash cs = (.token .slash ['/'], cs) := by
      unfold afterSlash
      split
      · exact absurd (meets_iff.2 ⟨_, rfl⟩) hline
      · exact absurd (meets_iff.2 ⟨_, rfl⟩) hblock
      · rfl
    rw [if_neg hblock, hslash]
    rfl

theorem scanToken_eq (ha : h.ahead = c :: cs) : h.scanToken = h.mark.passes (next c cs) := by
  have hm : h.mark.ahead = c :: cs := ha
  have hpeek : h.peek = c := by simp [peek, ha]
  have halone : c ≠ '\n' → h.mark.advance = h.mark.past [c] cs := advance_eq_past hm
  rw [scanToken, hpeek]
  unfold scanAfter next
  cases hsingle : single? c with
  | some kind =>
    have hline : c ≠ '\n' := by
      rintro rfl
      cases hsingle
    rw [halone hline]
    rfl
  | none =>
    cases hextensible : extensible? c with
    | some pair =>
      have hline : c ≠ '\n' := by
        rintro rfl
        cases hextensible
      exact operator_eq pair.1 pair.2 hline hm
    | none =>
      dsimp only
      by_cases hslash : c = '/'
      · subst hslash
        exact slash_eq hm
      rw [if_neg hslash, if_neg hslash]
      by_cases hblank : isBlank c = true
      · rw [if_pos hblank]
        simp only [isBlank, Bool.or_eq_true, decide_eq_true_eq] at hblank
        rcases hblank with ((rfl | rfl) | rfl) | rfl
        · exact halone (by decide)
        · exact halone (by decide)
        · exact halone (by decide)
        · exact (advance_nextLine_eq_past hm).1
      have hline : c ≠ '\n' := by
        rintro rfl
        exact hblank rfl
      have hspace : ¬(c = ' ' || c = '\r' || c = '\t') = true := by
        intro h
        simp [isBlank, h] at hblank
      rw [if_neg hspace, if_neg hline, if_neg hblank]
      by_cases hquote : c = '"'
      · subst hquote
        exact string_eq hm
      rw [if_neg hquote, if_neg hquote]
      split
      · rename_i hdigit
        exact number_eq hdigit hm
      · split
        · exact name_eq hline ha
        · rw [halone hline]
          rfl

/-! ### What the head finds -/

theorem tokens_passes (h : Head) (cut : Piece × List Char) :
    (h.mark.passes cut).tokens.map Placed.value =
      h.tokens.map Placed.value ++ (cut.1.token? (cut.1.lineAfter h.line)).toList := by
  obtain ⟨p, rest⟩ := cut
  cases p <;> simp [passes, note, deliver, complain, token?, lexeme, past, mark, lineAfter]
  rfl

theorem complaints_passes (h : Head) (cut : Piece × List Char) :
    (h.mark.passes cut).complaints.map Placed.value =
      h.complaints.map Placed.value ++
        (cut.1.flaw?.map (Complaint.mk (cut.1.lineAfter h.line))).toList := by
  obtain ⟨p, rest⟩ := cut
  cases p <;> simp [passes, note, deliver, complain, flaw?, past, mark, lineAfter]

theorem ahead_passes (h : Head) (cut : Piece × List Char) : (h.passes cut).ahead = cut.2 := by
  obtain ⟨p, rest⟩ := cut
  cases p <;> rfl

theorem line_passes (h : Head) (cut : Piece × List Char) :
    (h.mark.passes cut).line = cut.1.lineAfter h.line := by
  obtain ⟨p, rest⟩ := cut
  cases p <;> rfl

theorem loop_scanToken (count : Nat) (h : Head) :
    let done := loop (fun h => !h.atEnd) scanToken count h
    done.tokens.map Placed.value =
        h.tokens.map Placed.value ++ Piece.tokens h.line (splitAtMost count h.ahead) ∧
      done.complaints.map Placed.value =
        h.complaints.map Placed.value ++ Piece.complaints h.line (splitAtMost count h.ahead) := by
  induction count generalizing h with
  | zero => simp [loop, splitAtMost, Piece.tokens, Piece.complaints]
  | succ count ih =>
    rw [loop]
    cases ha : h.ahead with
    | nil => simp [atEnd, ha, splitAtMost, Piece.tokens, Piece.complaints]
    | cons c cs =>
      obtain ⟨htokens, hcomplaints⟩ := ih (h.mark.passes (next c cs))
      rw [if_pos (by simp [atEnd, ha]), scanToken_eq ha]
      rw [tokens_passes, line_passes, ahead_passes] at htokens
      rw [complaints_passes, line_passes, ahead_passes] at hcomplaints
      refine ⟨htokens.trans ?_, hcomplaints.trans ?_⟩
      · simp only [splitAtMost, Piece.tokens]
        cases (next c cs).1.token? ((next c cs).1.lineAfter h.line) <;> simp
      · simp only [splitAtMost, Piece.complaints]
        cases (next c cs).1.flaw? <;> simp

end Head

/-! ### Where it finds it -/

/-- The line of a position: one more than the line feeds before it. -/
def lineAt (cs : List Char) (pos : Nat) : Nat := 1 + (cs.take pos).count '\n'

/-- The characters of a text from the one position to the other. -/
def Placed.stretch {α : Type} (cs : List Char) (p : Placed α) : List Char :=
  (cs.take p.stop).drop p.start

/-- A token was found where it is written, and has the line of its end. -/
structure Placed.IsToken (cs : List Char) (p : Placed Token) : Prop where
  start_lt : p.start < p.stop
  stop_le : p.stop ≤ cs.length
  stretch_eq : p.stretch cs = p.value.lexeme.toList
  line_eq : p.value.line = lineAt cs p.stop

/-- What a flaw says of the stretch of text that was read when it was noticed. -/
def Flaw.Describes (cs : List Char) (p : Placed Complaint) : Flaw → Prop
  | unexpectedCharacter c => p.stretch cs = [c]
  | unterminatedString => ['"'] <+: p.stretch cs ∧ p.stop = cs.length
  | unterminatedComment => ['/', '*'] <+: p.stretch cs ∧ p.stop = cs.length

/-- A complaint is about what was read when it was made, and has the line that had been reached. -/
structure Placed.IsComplaint (cs : List Char) (p : Placed Complaint) : Prop where
  start_lt : p.start < p.stop
  stop_le : p.stop ≤ cs.length
  describes : p.value.flaw.Describes cs p
  line_eq : p.value.line = lineAt cs p.stop

namespace Head

/-- Nothing of a text has been lost, all its line feeds so far have been counted, and what has been found
in it was found behind the head, in order. -/
structure Exact (cs : List Char) (h : Head) : Prop where
  text : h.passed ++ h.ahead = cs
  line_eq : h.line = 1 + h.passed.count '\n'
  tokens : ∀ t ∈ h.tokens, t.IsToken cs ∧ t.stop ≤ h.passed.length
  complaints : ∀ e ∈ h.complaints, e.IsComplaint cs
  ordered : h.tokens.Pairwise fun t u => t.stop ≤ u.start

theorem Exact.before (cs : List Char) : Exact cs (before cs) :=
  ⟨rfl, rfl, by simp [Head.before], by simp [Head.before], .nil⟩

variable {h : Head} {source text rest : List Char}

theorem Exact.past (hx : Exact source h) (ha : h.ahead = text ++ rest) :
    Exact source (h.mark.past text rest) where
  text := by
    have htext : (h.passed ++ text) ++ rest = source := by
      rw [List.append_assoc, ← ha, hx.text]
    exact htext
  line_eq := by
    have hline : h.line + text.count '\n' = 1 + (h.passed ++ text).count '\n' := by
      rw [hx.line_eq, List.count_append, Nat.add_assoc]
    exact hline
  tokens t ht := by
    have hlength : h.passed.length ≤ (h.passed ++ text).length := by simp
    exact ⟨(hx.tokens t ht).1, (hx.tokens t ht).2.trans hlength⟩
  complaints := hx.complaints
  ordered := hx.ordered

theorem Exact.take (hx : Exact source h) : source.take h.passed.length = h.passed := by
  rw [← hx.text, List.take_left]

theorem Exact.le (hx : Exact source h) : h.passed.length ≤ source.length := by
  rw [← hx.text]
  simp

theorem Exact.lineAt (hx : Exact source h) : h.line = lineAt source h.passed.length := by
  rw [Token.lineAt, hx.take, hx.line_eq]

theorem Exact.stretch {α : Type} (hx : Exact source h) (value : α) :
    (Placed.mk h.start h.passed.length value).stretch source = h.lexeme := by
  rw [Placed.stretch, hx.take]
  rfl

theorem Exact.deliver (hx : Exact source h) (hs : h.start < h.passed.length)
    (hbehind : ∀ t ∈ h.tokens, t.stop ≤ h.start) (kind : Kind) : Exact source (h.deliver kind) where
  text := hx.text
  line_eq := hx.line_eq
  tokens t ht := by
    rcases List.mem_append.1 ht with ht | ht
    · exact hx.tokens t ht
    · rw [List.mem_singleton] at ht
      subst ht
      refine ⟨⟨hs, hx.le, ?_, hx.lineAt⟩, Nat.le_refl _⟩
      rw [hx.stretch]
      exact String.toList_ofList.symm
  complaints := hx.complaints
  ordered := by
    refine List.pairwise_append.2 ⟨hx.ordered, List.pairwise_singleton .., fun t ht u hu => ?_⟩
    rw [List.mem_singleton] at hu
    subst hu
    exact hbehind t ht

theorem Exact.complain (hx : Exact source h) (hs : h.start < h.passed.length) {flaw : Flaw}
    (hf : flaw.Describes source ⟨h.start, h.passed.length, ⟨h.line, flaw⟩⟩) :
    Exact source (h.complain flaw) where
  text := hx.text
  line_eq := hx.line_eq
  tokens := hx.tokens
  complaints e he := by
    rcases List.mem_append.1 he with he | he
    · exact hx.complaints e he
    · rw [List.mem_singleton] at he
      subst he
      exact ⟨hs, hx.le, hf, hx.lineAt⟩
  ordered := hx.ordered

theorem Exact.scanToken (hx : Exact source h) {c : Char} {cs : List Char} (ha : h.ahead = c :: cs) :
    Exact source h.scanToken := by
  rw [scanToken_eq ha]
  obtain ⟨hcut, htext⟩ := cutsOff_next c cs
  generalize next c cs = cut at hcut htext ⊢
  obtain ⟨p, rest⟩ := cut
  have hpast : Exact source (h.mark.past p.text rest) := hx.past (ha.trans htext.symm)
  have hstart : h.passed.length < (h.passed ++ p.text).length := by
    have hpos : 0 < p.text.length := List.length_pos_iff.2 hcut.text_ne_nil
    rw [List.length_append]
    omega
  have hstretch {α : Type} (value : α) := (hpast.stretch value).trans (lexeme_past h p.text rest)
  cases hcut with
  | sign | name | number | string => exact hpast.deliver hstart (fun t ht => (hx.tokens t ht).2) _
  | blank | lineComment | blockComment => exact hpast
  | illegal => exact hpast.complain hstart (hstretch _)
  | openString | openComment =>
    refine hpast.complain hstart ⟨?_, ?_⟩
    · rw [hstretch]
      exact ⟨_, rfl⟩
    · rw [← hpast.text, ahead_past, List.append_nil]

/-- Reading on to the end of a text keeps the count right. -/
theorem Exact.loop (hx : Exact source h) {count : Nat} (hc : h.ahead.length ≤ count) :
    Exact source (loop (fun h => !h.atEnd) Head.scanToken count h) ∧
      (Head.loop (fun h => !h.atEnd) Head.scanToken count h).ahead = [] := by
  induction count generalizing h with
  | zero => exact ⟨hx, List.length_eq_zero_iff.1 (Nat.le_zero.1 hc)⟩
  | succ count ih =>
    rw [Head.loop]
    cases ha : h.ahead with
    | nil =>
      rw [if_neg (by simp [atEnd, ha])]
      exact ⟨hx, ha⟩
    | cons c cs =>
      rw [if_pos (by simp [atEnd, ha])]
      refine ih (hx.scanToken ha) ?_
      rw [scanToken_eq ha, ahead_passes]
      obtain ⟨hcut, htext⟩ := cutsOff_next c cs
      have hlength := congrArg List.length htext
      have hpos := List.length_pos_iff.2 hcut.text_ne_nil
      rw [ha] at hc
      rw [List.length_append] at hlength
      omega

end Head

/-- A head that counts the line feeds it passes finds the tokens of a text and the complaints about it. It
finds each token where it is written, and its line is that of the position it ends at. It complains of the
stretch it has just read, and the line of the complaint is that of the position it has reached. The end mark
has the line of the end of the text. -/
theorem scan_lines_exact (source : String) :
    (Head.run source.toList).tokens.map Placed.value = (scan source).tokens ∧
      (Head.run source.toList).complaints.map Placed.value = (scan source).complaints ∧
      (∀ t ∈ (Head.run source.toList).tokens, t.IsToken source.toList) ∧
      (Head.run source.toList).tokens.Pairwise (fun t u => t.stop ≤ u.start) ∧
      (∀ e ∈ (Head.run source.toList).complaints, e.IsComplaint source.toList) ∧
      (scan source).endMark.line = 1 + source.toList.count '\n' := by
  obtain ⟨htokens, hcomplaints⟩ :=
    Head.loop_scanToken source.toList.length (Head.before source.toList)
  obtain ⟨hexact, -⟩ := (Head.Exact.before source.toList).loop (Nat.le_refl source.toList.length)
  exact ⟨htokens, hcomplaints, fun t ht => (hexact.tokens t ht).1, hexact.ordered, hexact.complaints,
    scan_lastLine source⟩

end Lox.Token
