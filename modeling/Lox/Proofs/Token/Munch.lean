import Mathlib.Data.List.Forall2
import Mathlib.Data.List.TakeWhile
import Lox.Token.Scan

/-!
# Cutting a text into its longest pieces

What the pieces of a text are, said without the way they are found, and that scanning finds them.

## Design notes

`Cut` has one rule for each class of pieces. Which rule applies to a text is decided by its first
character, and where a piece of the class ends by its being the longest one; so a text is cut in one
way only.
-/

namespace Lox

namespace Piece

variable {l rest cs : List Char} {c : Char} {kind alone extended : Token.Kind} {ps : List Piece}

/-! ### Classes of lexemes -/

/-- The text `lexeme` is the longest start of `lexeme ++ rest` that has a property. -/
structure Longest (p : List Char → Prop) (lexeme rest : List Char) : Prop where
  holds : p lexeme
  longest : ∀ more, more <+: lexeme ++ rest → p more → more.length ≤ lexeme.length

/-- A letter and letters or digits. -/
def IsName (l : List Char) : Prop :=
  ∃ c cs, l = c :: cs ∧ isAlpha c = true ∧ ∀ d ∈ cs, isAlphanumeric d = true

def IsDigits (l : List Char) : Prop := l ≠ [] ∧ ∀ c ∈ l, Decimal.isDigit c = true

/-- Digits, or digits on both sides of a point. -/
def IsNumeral (l : List Char) : Prop :=
  IsDigits l ∨ ∃ whole frac, l = whole ++ '.' :: frac ∧ IsDigits whole ∧ IsDigits frac

def signs : List (List Char × Token.Kind) :=
  [(['('], .leftParen), ([')'], .rightParen), (['{'], .leftBrace), (['}'], .rightBrace),
    ([','], .comma), (['.'], .dot), (['-'], .minus), (['+'], .plus), ([';'], .semicolon),
    (['/'], .slash), (['*'], .star), (['!'], .bang), (['!', '='], .bangEqual), (['='], .equal),
    (['=', '='], .equalEqual), (['>'], .greater), (['>', '='], .greaterEqual), (['<'], .less),
    (['<', '='], .lessEqual)]

def IsSign (l : List Char) : Prop := ∃ kind, (l, kind) ∈ signs

def OpensComment (cs : List Char) : Prop := ['/', '/'] <+: cs ∨ ['/', '*'] <+: cs

/-- Whether a character starts a token, a blank or a comment. -/
def Starts (c : Char) : Prop :=
  isBlank c = true ∨ c = '"' ∨ Decimal.isDigit c = true ∨ isAlpha c = true ∨
    ∃ l kind, (c :: l, kind) ∈ signs

/-! ### Comments -/

/-- The signs of a text in which comments may be nested. -/
inductive Mark where
  | opening
  | closing
  | other (c : Char)
deriving DecidableEq, Repr

namespace Mark

/-- The signs of a text, read from left to right without overlap. -/
def read : List Char → List Mark
  | [] => []
  | '/' :: '*' :: cs => opening :: read cs
  | '*' :: '/' :: cs => closing :: read cs
  | c :: cs => other c :: read cs

/-- What a sign adds to the number of open comments. -/
def weight : Mark → Int
  | opening => 1
  | closing => -1
  | other _ => 0

/-- How many more comments are opened than closed. -/
def balance (ms : List Mark) : Int := ms.foldr (·.weight + ·) 0

@[simp] theorem balance_nil : balance [] = 0 := rfl

@[simp] theorem balance_cons (m : Mark) (ms : List Mark) :
    balance (m :: ms) = m.weight + balance ms := by
  simp [balance]

/-- Of `depth` open comments and those that the signs open, the last is closed at their end and not
before. -/
def Closes (depth : Nat) (ms : List Mark) : Prop :=
  depth + balance ms = 0 ∧ ∀ ns, ns <+: ms → ns ≠ ms → 0 < depth + balance ns

/-- Of `depth` open comments and those that the signs open, one is open throughout. -/
def StaysOpen (depth : Nat) (ms : List Mark) : Prop := ∀ ns, ns <+: ms → 0 < depth + balance ns

end Mark

/-! ### The rules -/

/-- The piece is cut off where `rest` follows: it is well formed, and as long as it can be. -/
inductive Cut : Piece → List Char → Prop
  | sign {kind : Token.Kind} {lexeme rest : List Char} (mem : (lexeme, kind) ∈ signs)
      (longest : Longest IsSign lexeme rest) (noComment : ¬OpensComment (lexeme ++ rest)) :
      Cut (.token kind lexeme) rest
  /-- A reserved word is a keyword, any other name an identifier. -/
  | name {kind : Token.Kind} {lexeme rest : List Char} (longest : Longest IsName lexeme rest)
      (reserved : Token.keywords.lookup lexeme = some kind ∨
        (∀ entry ∈ Token.keywords, lexeme ≠ entry.1) ∧ kind = .identifier) :
      Cut (.token kind lexeme) rest
  | number {lexeme rest : List Char} (longest : Longest IsNumeral lexeme rest) :
      Cut (.token .number lexeme) rest
  | string {body rest : List Char} (noQuote : '"' ∉ body) :
      Cut (.token .string ('"' :: body ++ ['"'])) rest
  | blank {c : Char} {rest : List Char} (mem : c ∈ [' ', '\r', '\t', '\n']) : Cut (.blank c) rest
  | lineComment {body rest : List Char} (sameLine : '\n' ∉ body)
      (ends : rest = [] ∨ ∃ cs, rest = '\n' :: cs) : Cut (.lineComment ('/' :: '/' :: body)) rest
  | blockComment {body rest : List Char} (closes : Mark.Closes 1 (Mark.read body)) :
      Cut (.blockComment ('/' :: '*' :: body)) rest
  | illegal {c : Char} {rest : List Char} (starts : ¬Starts c) : Cut (.illegal c) rest
  | openString {body : List Char} (noQuote : '"' ∉ body) : Cut (.openString ('"' :: body)) []
  | openComment {body : List Char} (staysOpen : Mark.StaysOpen 1 (Mark.read body)) :
      Cut (.openComment ('/' :: '*' :: body)) []

/-- The pieces of a text, one after the other. -/
inductive Cuts : List Piece → List Char → Prop
  | nil : Cuts [] []
  | cons {p : Piece} {ps : List Piece} {rest : List Char} (head : Cut p rest)
      (tail : Cuts ps rest) : Cuts (p :: ps) (p.text ++ rest)

/-! ### The longest start of a text -/

theorem Longest.unique {p : List Char → Prop} {l' rest' : List Char} (h : Longest p l rest)
    (h' : Longest p l' rest') (he : l ++ rest = l' ++ rest') : l = l' ∧ rest = rest' := by
  have hle := h'.longest l (he ▸ List.prefix_append l rest) h.holds
  have hge := h.longest l' (he ▸ List.prefix_append l' rest') h'.holds
  exact List.append_inj he (by omega)

theorem length_le_takeWhile {p : Char → Bool} (h : l <+: cs) (hp : ∀ c ∈ l, p c = true) :
    l.length ≤ (cs.takeWhile p).length := by
  obtain ⟨rest, rfl⟩ := h
  rw [List.takeWhile_append_of_pos hp, List.length_append]
  omega

theorem takeWhile_of_stop {p : Char → Bool} (hp : ∀ d ∈ l, p d = true) (hc : p c = false) :
    (l ++ c :: rest).takeWhile p = l ∧ (l ++ c :: rest).dropWhile p = c :: rest := by
  rw [List.takeWhile_append_of_pos hp, List.dropWhile_append_of_pos hp,
    List.takeWhile_cons_of_neg (by simp [hc]), List.dropWhile_cons_of_neg (by simp [hc])]
  exact ⟨List.append_nil l, rfl⟩

theorem takeWhile_ne {stop : Char} {body : List Char} (hb : stop ∉ body)
    (hr : rest = [] ∨ ∃ cs, rest = stop :: cs) :
    (body ++ rest).takeWhile (· ≠ stop) = body ∧ (body ++ rest).dropWhile (· ≠ stop) = rest := by
  have hbody : ∀ d ∈ body, decide (d ≠ stop) = true := by
    intro d hd
    exact decide_eq_true fun he => hb (he ▸ hd)
  rcases hr with rfl | ⟨cs, rfl⟩
  · rw [List.takeWhile_append_of_pos hbody, List.dropWhile_append_of_pos hbody]
    exact ⟨List.append_nil body, rfl⟩
  · exact takeWhile_of_stop hbody (decide_eq_false (not_not_intro rfl))

theorem eq_of_dropWhile_ne {stop d : Char} {ds : List Char} (h : cs.dropWhile (· ≠ stop) = d :: ds) :
    d = stop := by
  have hne : cs.dropWhile (· ≠ stop) ≠ [] := by
    rw [h]
    exact List.cons_ne_nil d ds
  have hhead := List.head_dropWhile_not (fun c => decide (c ≠ stop)) hne
  simp only [h, List.head_cons] at hhead
  simpa using hhead

theorem longest_name (hc : isAlpha c = true) (cs : List Char) :
    Longest IsName (c :: cs.takeWhile isAlphanumeric) (cs.dropWhile isAlphanumeric) where
  holds := ⟨c, _, rfl, hc, fun _ hd => List.mem_takeWhile_imp hd⟩
  longest := by
    rintro more hmore ⟨d, ds, rfl, -, hds⟩
    rw [List.cons_append, List.takeWhile_append_dropWhile] at hmore
    exact Nat.succ_le_succ (length_le_takeWhile (List.cons_prefix_cons.1 hmore).2 hds)

theorem fraction_prefix (cs : List Char) : fraction cs <+: cs := by
  unfold fraction
  split
  · split
    · simp only [List.cons_prefix_cons, true_and]
      exact List.takeWhile_prefix _
    · exact List.nil_prefix
  · exact List.nil_prefix

theorem isDigits_takeWhile (hc : Decimal.isDigit c = true) (cs : List Char) :
    IsDigits ((c :: cs).takeWhile Decimal.isDigit) := by
  refine ⟨?_, fun _ hd => List.mem_takeWhile_imp hd⟩
  rw [List.takeWhile_cons_of_pos hc]
  exact List.cons_ne_nil _ _

theorem isNumeral_numeral (hc : Decimal.isDigit c = true) (cs : List Char) :
    IsNumeral (numeral (c :: cs)) := by
  have hwhole := isDigits_takeWhile hc cs
  unfold numeral
  generalize (c :: cs).dropWhile Decimal.isDigit = after
  unfold fraction
  split
  · rename_i d ds
    split
    · rename_i hd
      refine .inr ⟨_, d :: ds.takeWhile Decimal.isDigit, rfl, hwhole, List.cons_ne_nil _ _, ?_⟩
      exact List.forall_mem_cons.2 ⟨hd, fun _ he => List.mem_takeWhile_imp he⟩
    · exact .inl (by simpa using hwhole)
  · exact .inl (by simpa using hwhole)

theorem IsNumeral.exists_cons (h : IsNumeral l) : ∃ c cs, l = c :: cs ∧ Decimal.isDigit c = true := by
  rcases h with h | ⟨whole, frac, rfl, h, -⟩
  · obtain ⟨c, cs, rfl⟩ := List.exists_cons_of_ne_nil h.1
    exact ⟨c, cs, rfl, h.2 c (by simp)⟩
  · obtain ⟨c, cs, rfl⟩ := List.exists_cons_of_ne_nil h.1
    exact ⟨c, _, rfl, h.2 c (by simp)⟩

theorem length_le_numeral {text more : List Char} (hmore : more <+: text) (h : IsNumeral more) :
    more.length ≤ (numeral text).length := by
  unfold numeral
  rw [List.length_append]
  rcases h with h | ⟨whole, frac, rfl, hwhole, hfrac⟩
  · have := length_le_takeWhile hmore h.2
    omega
  · obtain ⟨rest, rfl⟩ := hmore
    obtain ⟨d, ds, rfl⟩ := List.exists_cons_of_ne_nil hfrac.1
    -- The point ends the run of digits, so the whole part is all of it.
    have hpoint : Decimal.isDigit '.' = false := by decide
    rw [List.append_assoc, List.cons_append, (takeWhile_of_stop hwhole.2 hpoint).1,
      (takeWhile_of_stop hwhole.2 hpoint).2]
    have hd : Decimal.isDigit d = true := hfrac.2 d (by simp)
    have hds : ds.length ≤ ((ds ++ rest).takeWhile Decimal.isDigit).length :=
      length_le_takeWhile (List.prefix_append ds rest) fun c hc => hfrac.2 c (by simp [hc])
    simp only [fraction, hd, if_true, List.cons_append, List.length_append, List.length_cons]
    omega

theorem longest_numeral (hc : Decimal.isDigit c = true) (cs : List Char) :
    ∃ rest, numeral (c :: cs) ++ rest = c :: cs ∧ Longest IsNumeral (numeral (c :: cs)) rest := by
  obtain ⟨rest, hrest⟩ := fraction_prefix ((c :: cs).dropWhile Decimal.isDigit)
  have hsplit : numeral (c :: cs) ++ rest = c :: cs := by
    rw [numeral, List.append_assoc, hrest, List.takeWhile_append_dropWhile]
  refine ⟨rest, hsplit, isNumeral_numeral hc cs, fun more hmore h => ?_⟩
  rw [hsplit] at hmore
  exact length_le_numeral hmore h

/-! ### Signs -/

theorem sign_cases (h : (l, kind) ∈ signs) :
    (∃ c, l = [c] ∧ (single? c = some kind ∨ (∃ extended, extensible? c = some (kind, extended)) ∨
      c = '/' ∧ kind = .slash)) ∨
      ∃ c alone, l = [c, '='] ∧ extensible? c = some (alone, kind) := by
  have hall : ∀ entry ∈ signs,
      (∃ c, entry.1 = [c] ∧ (single? c = some entry.2 ∨
        (∃ extended, extensible? c = some (entry.2, extended)) ∨ c = '/' ∧ entry.2 = .slash)) ∨
      ∃ c alone, entry.1 = [c, '='] ∧ extensible? c = some (alone, entry.2) := by
    simp only [signs, List.forall_mem_cons, List.not_mem_nil, false_implies, implies_true, and_true]
    and_intros
    all_goals first
      | exact .inl ⟨_, rfl, .inl rfl⟩
      | exact .inl ⟨_, rfl, .inr (.inl ⟨_, rfl⟩)⟩
      | exact .inl ⟨_, rfl, .inr (.inr rfl)⟩
      | exact .inr ⟨_, _, rfl, rfl⟩
  exact hall (l, kind) h

theorem mem_signs_of_single? (h : single? c = some kind) :
    ([c], kind) ∈ signs ∧ extensible? c = none ∧ c ≠ '/' := by
  unfold single? at h
  split at h <;> cases h <;> exact ⟨by simp [signs], rfl, by decide⟩

theorem mem_signs_of_extensible? (h : extensible? c = some (alone, extended)) :
    ([c], alone) ∈ signs ∧ ([c, '='], extended) ∈ signs ∧ single? c = none ∧ c ≠ '/' := by
  unfold extensible? at h
  split at h <;> cases h <;> exact ⟨by simp [signs], by simp [signs], rfl, by decide⟩

theorem longest_sign (h : IsSign [c]) (hn : extensible? c = none ∨ ∀ tail, cs ≠ '=' :: tail) :
    Longest IsSign [c] cs := by
  refine ⟨h, fun more hmore ⟨kind, hmem⟩ => ?_⟩
  rcases sign_cases hmem with ⟨d, rfl, -⟩ | ⟨d, alone, rfl, hd⟩
  · exact Nat.le_refl 1
  · obtain ⟨tail, htail⟩ := hmore
    obtain ⟨rfl, rfl⟩ : d = c ∧ '=' :: tail = cs := by simpa using htail
    rcases hn with hn | hn
    · simp [hn] at hd
    · exact absurd rfl (hn tail)

theorem longest_extended (h : IsSign [c, '=']) : Longest IsSign [c, '='] cs := by
  refine ⟨h, fun more _ ⟨kind, hmem⟩ => ?_⟩
  rcases sign_cases hmem with ⟨d, rfl, -⟩ | ⟨d, alone, rfl, -⟩
  · exact Nat.le_succ 1
  · exact Nat.le_refl 2

theorem not_opensComment (hc : c ≠ '/') : ¬OpensComment (c :: cs) := by
  rintro (h | h) <;> exact hc (List.cons_prefix_cons.1 h).1.symm

/-! ### The class of a first character -/

/-- The class of a first character. -/
inductive Class (c : Char) : Prop
  | single {kind : Token.Kind} (h : single? c = some kind)
  | extensible {alone extended : Token.Kind} (h : extensible? c = some (alone, extended))
  | slash (h : c = '/')
  | blank (h : isBlank c = true)
  | quote (h : c = '"')
  | digit (h : Decimal.isDigit c = true)
  | letter (h : isAlpha c = true)
  | none (h : ¬Starts c)

theorem class_of (c : Char) : Class c := by
  by_cases h : Starts c
  · rcases h with h | h | h | h | ⟨l, kind, hmem⟩
    · exact .blank h
    · exact .quote h
    · exact .digit h
    · exact .letter h
    · rcases sign_cases hmem with ⟨d, hl, hd⟩ | ⟨d, alone, hl, hd⟩
      · obtain ⟨rfl, -⟩ := List.cons_eq_cons.1 hl
        rcases hd with hd | ⟨extended, hd⟩ | ⟨hd, -⟩
        · exact .single hd
        · exact .extensible hd
        · exact .slash hd
      · obtain ⟨rfl, -⟩ := List.cons_eq_cons.1 hl
        exact .extensible hd
  · exact .none h

theorem next_single (h : single? c = some kind) (cs : List Char) :
    next c cs = (token kind [c], cs) := by
  unfold next
  rw [h]

theorem next_extensible (h : extensible? c = some (alone, extended)) (cs : List Char) :
    next c cs = afterOperator c alone extended cs := by
  unfold next
  rw [(mem_signs_of_extensible? h).2.2.1, h]

theorem next_slash (cs : List Char) : next '/' cs = afterSlash cs := rfl

theorem next_quote (cs : List Char) : next '"' cs = afterQuote cs := rfl

theorem next_blank (h : isBlank c = true) (cs : List Char) : next c cs = (blank c, cs) := by
  simp only [isBlank, Bool.or_eq_true, decide_eq_true_eq] at h
  rcases h with ((rfl | rfl) | rfl) | rfl <;> rfl

/-- Names and numbers start with no character of another class. -/
theorem next_of_isAlphanumeric (h : isAlphanumeric c = true) (cs : List Char) :
    next c cs = if Decimal.isDigit c then
        (token .number (numeral (c :: cs)), (c :: cs).drop (numeral (c :: cs)).length)
      else
        (token (.ofWord (c :: cs.takeWhile isAlphanumeric)) (c :: cs.takeWhile isAlphanumeric),
          cs.dropWhile isAlphanumeric) := by
  have hsingle : single? c = none := by
    unfold single?
    split <;> first | rfl | exact absurd h (by decide)
  have hextensible : extensible? c = none := by
    unfold extensible?
    split <;> first | rfl | exact absurd h (by decide)
  have hne : ∀ d, isAlphanumeric d = false → c ≠ d := by
    rintro d hd rfl
    simp [h] at hd
  have hblank : isBlank c = false := by
    simp [isBlank, hne ' ' rfl, hne '\r' rfl, hne '\t' rfl, hne '\n' rfl]
  unfold next
  rw [hsingle, hextensible]
  dsimp only
  rw [if_neg (hne '/' rfl), if_neg (by simp [hblank]), if_neg (hne '"' rfl)]
  by_cases hd : Decimal.isDigit c = true
  · rw [if_pos hd, if_pos hd]
  · have halpha : isAlpha c = true := by simpa [isAlphanumeric, hd] using h
    rw [if_neg hd, if_neg hd, if_pos halpha]

theorem next_illegal (h : ¬Starts c) (cs : List Char) : next c cs = (illegal c, cs) := by
  have hsingle : single? c = none := by
    by_contra hsome
    obtain ⟨kind, hk⟩ := Option.ne_none_iff_exists'.1 hsome
    exact h (.inr (.inr (.inr (.inr ⟨[], kind, (mem_signs_of_single? hk).1⟩))))
  have hextensible : extensible? c = none := by
    by_contra hsome
    obtain ⟨⟨alone, extended⟩, hk⟩ := Option.ne_none_iff_exists'.1 hsome
    exact h (.inr (.inr (.inr (.inr ⟨[], alone, (mem_signs_of_extensible? hk).1⟩))))
  have hslash : c ≠ '/' := by
    rintro rfl
    exact h (.inr (.inr (.inr (.inr ⟨[], .slash, by simp [signs]⟩))))
  simp only [Starts, not_or] at h
  unfold next
  rw [hsingle, hextensible]
  dsimp only
  rw [if_neg hslash, if_neg h.1, if_neg h.2.1, if_neg h.2.2.1, if_neg h.2.2.2.1]

/-! ### Comments -/

namespace Mark

variable {depth : Nat}

theorem read_cons_other {c : Char} {cs : List Char} (h : ∀ tail, c = '/' → cs ≠ '*' :: tail)
    (h' : ∀ tail, c = '*' → cs ≠ '/' :: tail) : read (c :: cs) = other c :: read cs := by
  rw [read]
  · exact h
  · exact h'

/-- How many comments are open after a sign, of which there were `depth + 1` before it. -/
def after (depth : Nat) : Mark → Nat
  | opening => depth + 2
  | closing => depth
  | other _ => depth + 1

theorem succ_add_weight (depth : Nat) (m : Mark) :
    ((depth + 1 : Nat) : Int) + m.weight = m.after depth := by
  cases m <;> simp only [weight, after] <;> omega

theorem closes_nil : Closes depth [] ↔ depth = 0 := by
  simp [Closes]

theorem staysOpen_nil : StaysOpen depth [] ↔ 0 < depth := by
  simp [StaysOpen]

theorem closes_cons {m : Mark} {ms : List Mark} :
    Closes depth (m :: ms) ↔ ∃ d, depth = d + 1 ∧ Closes (m.after d) ms := by
  unfold Closes
  constructor
  · rintro ⟨hend, hbefore⟩
    have hpos : 0 < (depth : Int) := by simpa using hbefore [] List.nil_prefix (by simp)
    obtain ⟨d, rfl⟩ : ∃ d, depth = d + 1 := ⟨depth - 1, by omega⟩
    rw [balance_cons, ← Int.add_assoc, succ_add_weight] at hend
    refine ⟨d, rfl, hend, fun ns hns hne => ?_⟩
    have := hbefore (m :: ns) (List.cons_prefix_cons.2 ⟨rfl, hns⟩) (by simpa using hne)
    rwa [balance_cons, ← Int.add_assoc, succ_add_weight] at this
  · rintro ⟨d, rfl, hend, hbefore⟩
    rw [balance_cons, ← Int.add_assoc, succ_add_weight]
    refine ⟨hend, fun ns hns hne => ?_⟩
    rcases List.prefix_cons_iff.1 hns with rfl | ⟨ns', rfl, hns'⟩
    · rw [balance_nil]
      omega
    · rw [balance_cons, ← Int.add_assoc, succ_add_weight]
      exact hbefore ns' hns' (by simpa using hne)

theorem staysOpen_cons {m : Mark} {ms : List Mark} :
    StaysOpen depth (m :: ms) ↔ ∃ d, depth = d + 1 ∧ StaysOpen (m.after d) ms := by
  unfold StaysOpen
  constructor
  · intro h
    have hpos : 0 < (depth : Int) := by simpa using h [] List.nil_prefix
    obtain ⟨d, rfl⟩ : ∃ d, depth = d + 1 := ⟨depth - 1, by omega⟩
    refine ⟨d, rfl, fun ns hns => ?_⟩
    have := h (m :: ns) (List.cons_prefix_cons.2 ⟨rfl, hns⟩)
    rwa [balance_cons, ← Int.add_assoc, succ_add_weight] at this
  · rintro ⟨d, rfl, h⟩ ns hns
    rcases List.prefix_cons_iff.1 hns with rfl | ⟨ns', rfl, hns'⟩
    · rw [balance_nil]
      omega
    · rw [balance_cons, ← Int.add_assoc, succ_add_weight]
      exact h ns' hns'

end Mark

/-- What the body of a comment leaves, and how it ends. -/
theorem closeComment_spec (depth : Nat) (cs : List Char) :
    (∀ body rest, closeComment depth cs = (body, some rest) →
      cs = body ++ rest ∧ Mark.Closes depth (Mark.read body)) ∧
    ∀ body, closeComment depth cs = (body, none) →
      cs = body ∧ Mark.StaysOpen depth (Mark.read body) := by
  fun_induction closeComment depth cs with
  | case1 cs =>
    refine ⟨?_, nofun⟩
    rintro body rest ⟨⟩
    exact ⟨rfl, Mark.closes_nil.2 rfl⟩
  | case2 depth =>
    refine ⟨nofun, ?_⟩
    rintro body ⟨⟩
    exact ⟨rfl, Mark.staysOpen_nil.2 (Nat.succ_pos depth)⟩
  | case3 depth cs body' rest' heq ih | case4 depth cs body' rest' heq ih =>
    constructor
    · rintro body rest ⟨⟩
      obtain ⟨rfl, hcloses⟩ := ih.1 _ _ heq
      exact ⟨rfl, Mark.closes_cons.2 ⟨depth, rfl, hcloses⟩⟩
    · rintro body ⟨⟩
      obtain ⟨rfl, hopen⟩ := ih.2 _ heq
      exact ⟨rfl, Mark.staysOpen_cons.2 ⟨depth, rfl, hopen⟩⟩
  | case5 depth c cs h h' body' rest' heq ih =>
    constructor
    -- The body is a start of the text, so its second character is that of the text.
    · rintro body rest ⟨⟩
      obtain ⟨rfl, hcloses⟩ := ih.1 _ _ heq
      have hread : Mark.read (c :: body') = .other c :: Mark.read body' := by
        refine Mark.read_cons_other ?_ ?_
        · rintro tail rfl rfl
          exact h _ rfl rfl
        · rintro tail rfl rfl
          exact h' _ rfl rfl
      rw [hread]
      exact ⟨rfl, Mark.closes_cons.2 ⟨depth, rfl, hcloses⟩⟩
    · rintro body ⟨⟩
      obtain ⟨rfl, hopen⟩ := ih.2 _ heq
      rw [Mark.read_cons_other h h']
      exact ⟨rfl, Mark.staysOpen_cons.2 ⟨depth, rfl, hopen⟩⟩

theorem closeComment_of_closes {depth : Nat} {body : List Char}
    (h : Mark.Closes depth (Mark.read body)) (rest : List Char) :
    closeComment depth (body ++ rest) = (body, some rest) := by
  fun_induction Mark.read body generalizing depth with
  | case1 =>
    obtain rfl := Mark.closes_nil.1 h
    simp [closeComment]
  | case2 cs ih | case3 cs ih =>
    obtain ⟨d, rfl, hcloses⟩ := Mark.closes_cons.1 h
    rw [Mark.after] at hcloses
    simp only [List.cons_append, closeComment, ih hcloses]
  | case4 c cs h₁ h₂ ih =>
    obtain ⟨d, rfl, hcloses⟩ := Mark.closes_cons.1 h
    rw [Mark.after] at hcloses
    -- Something follows, since a comment is still open here.
    cases cs with
    | nil => exact absurd (Mark.closes_nil.1 hcloses) (Nat.succ_ne_zero d)
    | cons c' cs =>
      rw [List.cons_append, closeComment, ih hcloses]
      · rintro tail rfl ⟨⟩
        exact h₁ _ rfl rfl
      · rintro tail rfl ⟨⟩
        exact h₂ _ rfl rfl

theorem closeComment_of_staysOpen {depth : Nat} (h : Mark.StaysOpen depth (Mark.read cs)) :
    closeComment depth cs = (cs, none) := by
  fun_induction Mark.read cs generalizing depth with
  | case1 =>
    have hpos := Mark.staysOpen_nil.1 h
    obtain ⟨d, rfl⟩ : ∃ d, depth = d + 1 := ⟨depth - 1, by omega⟩
    rw [closeComment]
  | case2 cs ih | case3 cs ih =>
    obtain ⟨d, rfl, hopen⟩ := Mark.staysOpen_cons.1 h
    rw [Mark.after] at hopen
    simp only [closeComment, ih hopen]
  | case4 c cs h₁ h₂ ih =>
    obtain ⟨d, rfl, hopen⟩ := Mark.staysOpen_cons.1 h
    rw [Mark.after] at hopen
    rw [closeComment, ih hopen]
    · exact h₁
    · exact h₂

/-! ### The first piece of a text -/

theorem isDigit_of_isAlpha (h : isAlpha c = true) : Decimal.isDigit c = false := by
  by_contra hd
  simp only [isAlpha, Decimal.isDigit, Bool.or_eq_true, Bool.and_eq_true, decide_eq_true_eq,
    Bool.not_eq_false, Char.le_def, UInt32.le_iff_toNat_le] at h hd
  rcases h with (h | h) | rfl
  · exact absurd (Nat.le_trans h.1 hd.2) (by decide)
  · exact absurd (Nat.le_trans h.1 hd.2) (by decide)
  · exact absurd hd.2 (by decide)

theorem ofWord_cases (word : List Char) :
    Token.keywords.lookup word = some (.ofWord word) ∨
      (∀ entry ∈ Token.keywords, word ≠ entry.1) ∧ Token.Kind.ofWord word = .identifier := by
  unfold Token.Kind.ofWord
  cases h : Token.keywords.lookup word with
  | some kind => exact .inl rfl
  | none => exact .inr ⟨by simpa [List.lookup_eq_none_iff] using h, rfl⟩

theorem ofWord_eq {word : List Char} (h : Token.keywords.lookup word = some kind ∨
      (∀ entry ∈ Token.keywords, word ≠ entry.1) ∧ kind = .identifier) :
    Token.Kind.ofWord word = kind := by
  unfold Token.Kind.ofWord
  rcases h with h | ⟨h, rfl⟩
  · rw [h]
    rfl
  · have hnone : Token.keywords.lookup word = none := by
      simpa [List.lookup_eq_none_iff] using h
    rw [hnone]
    rfl

def CutsOff (cut : Piece × List Char) (cs : List Char) : Prop :=
  Cut cut.1 cut.2 ∧ cut.1.text ++ cut.2 = cs

theorem cutsOff_afterOperator (h : extensible? c = some (alone, extended)) (cs : List Char) :
    CutsOff (afterOperator c alone extended cs) (c :: cs) := by
  obtain ⟨halone, hextended, -, hslash⟩ := mem_signs_of_extensible? h
  unfold afterOperator
  split
  · exact ⟨.sign hextended (longest_extended ⟨_, hextended⟩) (not_opensComment hslash), rfl⟩
  · rename_i hne
    refine ⟨.sign halone (longest_sign ⟨_, halone⟩ (.inr ?_)) (not_opensComment hslash), rfl⟩
    exact fun tail htail => hne tail htail

theorem cutsOff_afterSlash (cs : List Char) : CutsOff (afterSlash cs) ('/' :: cs) := by
  unfold afterSlash
  split
  · rename_i cs
    refine ⟨.lineComment ?_ ?_, ?_⟩
    · intro hmem
      simpa using List.mem_takeWhile_imp hmem
    · cases hrest : cs.dropWhile (· ≠ '\n') with
      | nil => exact .inl rfl
      | cons d ds =>
        obtain rfl := eq_of_dropWhile_ne hrest
        exact .inr ⟨ds, rfl⟩
    · simp [text]
  · rename_i cs
    cases hclose : closeComment 1 cs with
    | mk body rest? =>
      cases rest? with
      | some rest =>
        obtain ⟨rfl, hcloses⟩ := (closeComment_spec 1 cs).1 body rest hclose
        exact ⟨.blockComment hcloses, rfl⟩
      | none =>
        obtain ⟨rfl, hopen⟩ := (closeComment_spec 1 cs).2 body hclose
        exact ⟨.openComment hopen, by simp [text]⟩
  · rename_i hline hblock
    have hmem : (['/'], Token.Kind.slash) ∈ signs := by simp [signs]
    refine ⟨.sign hmem (longest_sign ⟨_, hmem⟩ (.inl rfl)) ?_, rfl⟩
    rintro (⟨tail, htail⟩ | ⟨tail, htail⟩)
    · exact hline tail (by simpa using htail.symm)
    · exact hblock tail (by simpa using htail.symm)

theorem cutsOff_afterQuote (cs : List Char) : CutsOff (afterQuote cs) ('"' :: cs) := by
  have hbody : '"' ∉ cs.takeWhile (· ≠ '"') := by
    intro hmem
    simpa using List.mem_takeWhile_imp hmem
  have hsplit : cs.takeWhile (· ≠ '"') ++ cs.dropWhile (· ≠ '"') = cs :=
    List.takeWhile_append_dropWhile
  unfold afterQuote
  split
  · rename_i hrest
    rw [hrest] at hsplit
    exact ⟨.openString hbody, congrArg ('"' :: ·) hsplit⟩
  · rename_i d rest hrest
    obtain rfl := eq_of_dropWhile_ne hrest
    rw [hrest] at hsplit
    refine ⟨.string hbody, ?_⟩
    show '"' :: cs.takeWhile (· ≠ '"') ++ ['"'] ++ rest = '"' :: cs
    rw [List.append_assoc]
    exact congrArg ('"' :: ·) hsplit

theorem cutsOff_next (c : Char) (cs : List Char) : CutsOff (next c cs) (c :: cs) := by
  cases class_of c with
  | single h =>
    obtain ⟨hmem, hext, hslash⟩ := mem_signs_of_single? h
    rw [next_single h]
    exact ⟨.sign hmem (longest_sign ⟨_, hmem⟩ (.inl hext)) (not_opensComment hslash), rfl⟩
  | extensible h =>
    rw [next_extensible h]
    exact cutsOff_afterOperator h cs
  | slash h =>
    subst h
    exact cutsOff_afterSlash cs
  | blank h =>
    rw [next_blank h]
    exact ⟨.blank (by simpa [isBlank, or_assoc] using h), rfl⟩
  | quote h =>
    subst h
    exact cutsOff_afterQuote cs
  | digit h =>
    obtain ⟨rest, hsplit, hlongest⟩ := longest_numeral h cs
    have hdrop : (c :: cs).drop (numeral (c :: cs)).length = rest :=
      (congrArg (List.drop (numeral (c :: cs)).length) hsplit).symm.trans List.drop_left
    rw [next_of_isAlphanumeric (by simp [isAlphanumeric, h]), if_pos h, hdrop]
    exact ⟨.number hlongest, hsplit⟩
  | letter h =>
    rw [next_of_isAlphanumeric (by simp [isAlphanumeric, h]),
      if_neg (by simp [isDigit_of_isAlpha h])]
    exact ⟨.name (longest_name h cs) (ofWord_cases _), by simp [text]⟩
  | none h =>
    rw [next_illegal h]
    exact ⟨.illegal h, rfl⟩

theorem next_of_cut {p : Piece} (h : Cut p rest) :
    ∃ c cs, p.text ++ rest = c :: cs ∧ next c cs = (p, rest) := by
  cases h with
  | sign mem longest noComment =>
    rcases sign_cases mem with ⟨c, rfl, hc | ⟨extended, hc⟩ | ⟨rfl, rfl⟩⟩ | ⟨c, alone, rfl, hc⟩
    · exact ⟨c, rest, rfl, next_single hc rest⟩
    · refine ⟨c, rest, rfl, ?_⟩
      rw [next_extensible hc]
      unfold afterOperator
      split
      · rename_i cs
        have hsign : IsSign [c, '='] := ⟨extended, (mem_signs_of_extensible? hc).2.1⟩
        have := longest.longest [c, '='] ⟨cs, rfl⟩ hsign
        simp at this
      · rfl
    · refine ⟨'/', rest, rfl, ?_⟩
      rw [next_slash]
      unfold afterSlash
      split
      · rename_i cs
        exact absurd (.inl ⟨cs, rfl⟩) noComment
      · rename_i cs
        exact absurd (.inr ⟨cs, rfl⟩) noComment
      · rfl
    · refine ⟨c, '=' :: rest, rfl, ?_⟩
      rw [next_extensible hc]
      rfl
  | name longest reserved =>
    obtain ⟨c, cs, rfl, hc, -⟩ := longest.holds
    refine ⟨c, cs ++ rest, rfl, ?_⟩
    have hsame := (longest_name hc (cs ++ rest)).unique longest (by simp)
    rw [next_of_isAlphanumeric (by simp [isAlphanumeric, hc]),
      if_neg (by simp [isDigit_of_isAlpha hc]), hsame.1, hsame.2, ofWord_eq reserved]
  | number longest =>
    rename_i lexeme
    obtain ⟨c, cs, rfl, hc⟩ := longest.holds.exists_cons
    refine ⟨c, cs ++ rest, rfl, ?_⟩
    obtain ⟨rest', hsplit, hlongest⟩ := longest_numeral hc (cs ++ rest)
    have hsame := hlongest.unique longest (by rw [hsplit]; rfl)
    rw [next_of_isAlphanumeric (by simp [isAlphanumeric, hc]), if_pos hc, hsame.1]
    exact congrArg _ List.drop_left
  | @string body _ noQuote =>
    refine ⟨'"', body ++ '"' :: rest, by simp [text], ?_⟩
    obtain ⟨htake, hdrop⟩ := takeWhile_ne noQuote (.inr ⟨rest, rfl⟩)
    rw [next_quote, afterQuote, htake, hdrop]
  | blank mem => exact ⟨_, rest, rfl, next_blank (by simpa [isBlank, or_assoc] using mem) rest⟩
  | @lineComment body _ sameLine ends =>
    refine ⟨'/', '/' :: (body ++ rest), rfl, ?_⟩
    obtain ⟨htake, hdrop⟩ := takeWhile_ne sameLine ends
    rw [next_slash, afterSlash, htake, hdrop]
  | @blockComment body _ closes =>
    refine ⟨'/', '*' :: (body ++ rest), rfl, ?_⟩
    rw [next_slash, afterSlash, closeComment_of_closes closes]
  | illegal starts => exact ⟨_, rest, rfl, next_illegal starts rest⟩
  | @openString body noQuote =>
    refine ⟨'"', body ++ [], rfl, ?_⟩
    obtain ⟨htake, hdrop⟩ := takeWhile_ne noQuote (.inl rfl)
    rw [next_quote, afterQuote, htake, hdrop]
  | @openComment body staysOpen =>
    refine ⟨'/', '*' :: body, by simp [text], ?_⟩
    rw [next_slash, afterSlash, closeComment_of_staysOpen staysOpen]

/-! ### All pieces of a text -/

theorem Cut.text_ne_nil {p : Piece} (h : Cut p rest) : p.text ≠ [] := by
  cases h with
  | sign mem =>
    rcases sign_cases mem with ⟨c, rfl, -⟩ | ⟨c, alone, rfl, -⟩
    · exact List.cons_ne_nil c []
    · exact List.cons_ne_nil c ['=']
  | name longest =>
    obtain ⟨c, cs, rfl, -⟩ := longest.holds
    exact List.cons_ne_nil c cs
  | number longest =>
    obtain ⟨c, cs, rfl, -⟩ := longest.holds.exists_cons
    exact List.cons_ne_nil c cs
  | _ => exact List.cons_ne_nil _ _

theorem cuts_splitAtMost {count : Nat} (h : cs.length ≤ count) : Cuts (splitAtMost count cs) cs := by
  induction count generalizing cs with
  | zero =>
    obtain rfl := List.length_eq_zero_iff.1 (Nat.le_zero.1 h)
    exact .nil
  | succ count ih =>
    cases cs with
    | nil => exact .nil
    | cons c cs =>
      obtain ⟨hcut, hsplit⟩ := cutsOff_next c cs
      have hlen : ((next c cs).1.text ++ (next c cs).2).length = cs.length + 1 :=
        congrArg List.length hsplit
      have hpos := List.length_pos_iff.2 hcut.text_ne_nil
      rw [List.length_append] at hlen
      rw [List.length_cons] at h
      have htail := ih (show (next c cs).2.length ≤ count by omega)
      have hcons : Cuts ((next c cs).1 :: splitAtMost count (next c cs).2)
          ((next c cs).1.text ++ (next c cs).2) := .cons hcut htail
      rw [hsplit] at hcons
      exact hcons

theorem Cuts.eq_splitAtMost (h : Cuts ps cs) {count : Nat} (hc : cs.length ≤ count) :
    ps = splitAtMost count cs := by
  induction h generalizing count with
  | nil => cases count <;> rfl
  | @cons p ps rest head tail ih =>
    obtain ⟨c, cs, hsplit, hnext⟩ := next_of_cut head
    have hpos := List.length_pos_iff.2 head.text_ne_nil
    rw [List.length_append] at hc
    obtain ⟨count, rfl⟩ : ∃ n, count = n + 1 := ⟨count - 1, by omega⟩
    rw [hsplit, splitAtMost, hnext]
    exact congrArg (p :: ·) (ih (by omega))

theorem cuts_iff : Cuts ps cs ↔ ps = split cs := by
  constructor
  · intro h
    exact h.eq_splitAtMost (Nat.le_refl _)
  · rintro rfl
    exact cuts_splitAtMost (Nat.le_refl _)

example : split "1.x/*/**/*/>==".toList =
    [token .number ['1'], token .dot ['.'], token .identifier ['x'],
      blockComment "/*/**/*/".toList, token .greaterEqual ['>', '='], token .equal ['=']] := by
  decide +kernel

/-- Nothing of a text is lost. -/
theorem Cuts.flatMap_text (h : Cuts ps cs) : ps.flatMap text = cs := by
  induction h with
  | nil => rfl
  | cons _ _ ih => rw [List.flatMap_cons, ih]

theorem Cuts.exists_cut (h : Cuts ps cs) : ∀ p ∈ ps, ∃ rest, Cut p rest := by
  induction h with
  | nil => exact nofun
  | cons head _ ih => exact List.forall_mem_cons.2 ⟨⟨_, head⟩, ih⟩

/-! ### Tokens and complaints -/

def isToken : Piece → Bool
  | token .. => true
  | _ => false

def isFlawed : Piece → Bool
  | illegal _ | openString _ | openComment _ => true
  | _ => false

/-- A token and the piece it is made of: they have one kind and lexeme. A string stands for what is
between its quotes, a number for the double nearest to it, and other tokens for nothing. -/
structure Spells (p : Piece) (t : Token) : Prop where
  lexeme : p = token t.kind t.lexeme.toList
  string : t.kind = .string →
    ∃ body, t.lexeme.toList = '"' :: body ++ ['"'] ∧ t.literal = .text (String.ofList body)
  number : t.kind = .number → t.literal = .num (Decimal.readUnsigned t.lexeme.toList)
  other : t.kind ≠ .string → t.kind ≠ .number → t.literal = .nil

/-- A complaint and the piece it is about. -/
inductive Reports : Piece → Token.Complaint → Prop
  | illegal (c : Char) (line : Nat) : Reports (illegal c) ⟨line, .unexpectedCharacter c⟩
  | openString (text : List Char) (line : Nat) :
      Reports (openString text) ⟨line, .unterminatedString⟩
  | openComment (text : List Char) (line : Nat) :
      Reports (openComment text) ⟨line, .unterminatedComment⟩

/-- Signs and words are neither strings nor numbers, and nothing is written as the end mark. -/
theorem Cut.kind_cases {lexeme : List Char} (h : Cut (token kind lexeme) rest) :
    (kind = .string ∧ ∃ body, lexeme = '"' :: body ++ ['"']) ∨ kind = .number ∨
      kind ≠ .string ∧ kind ≠ .number ∧ kind ≠ .eof := by
  cases h with
  | sign mem =>
    have hkind : kind ∈ signs.map Prod.snd := List.mem_map_of_mem mem
    refine .inr (.inr ⟨?_, ?_, ?_⟩) <;> rintro rfl <;> simp [signs] at hkind
  | name longest reserved =>
    rcases reserved with hlookup | ⟨-, rfl⟩
    · obtain ⟨before, after, hwords, -⟩ := List.lookup_eq_some_iff.1 hlookup
      have hkind : kind ∈ Token.keywords.map Prod.snd := by
        rw [hwords]
        simp
      refine .inr (.inr ⟨?_, ?_, ?_⟩) <;> rintro rfl <;> simp [Token.keywords] at hkind
    · exact .inr (.inr ⟨nofun, nofun, nofun⟩)
  | number => exact .inr (.inl rfl)
  | string => exact .inl ⟨rfl, _, rfl⟩

theorem Cut.spells {lexeme : List Char} (h : Cut (token kind lexeme) rest) (line : Nat) :
    Spells (token kind lexeme) (.ofLexeme kind lexeme line) where
  lexeme := by simp [Token.ofLexeme]
  string hk := by
    obtain rfl : kind = .string := hk
    rcases h.kind_cases with ⟨-, body, rfl⟩ | hk' | ⟨hk', -⟩
    · exact ⟨body, by simp [Token.ofLexeme], by simp [Token.ofLexeme, Token.literalOf]⟩
    · cases hk'
    · exact absurd rfl hk'
  number hk := by
    obtain rfl : kind = .number := hk
    simp [Token.ofLexeme, Token.literalOf]
  other hs hn := by
    simp only [Token.ofLexeme] at hs hn ⊢
    unfold Token.literalOf
    split
    · exact absurd rfl hs
    · exact absurd rfl hn
    · rfl

theorem forall₂_tokens (h : ∀ p ∈ ps, ∃ rest, Cut p rest) (line : Nat) :
    List.Forall₂ Spells (ps.filter isToken) (tokens line ps) := by
  induction ps generalizing line with
  | nil => exact .nil
  | cons p ps ih =>
    obtain ⟨⟨rest, hp⟩, hps⟩ := List.forall_mem_cons.1 h
    cases p with
    | token kind lexeme => exact .cons (hp.spells _) (ih hps _)
    | _ => exact ih hps _

theorem mem_tokens {line : Nat} {t : Token} (h : t ∈ tokens line ps) :
    ∃ kind lexeme here, token kind lexeme ∈ ps ∧ t = .ofLexeme kind lexeme here := by
  induction ps generalizing line with
  | nil => cases h
  | cons p ps ih =>
    have hmore : ∀ {here}, t ∈ tokens here ps →
        ∃ kind lexeme here, token kind lexeme ∈ p :: ps ∧ t = .ofLexeme kind lexeme here := by
      intro here ht
      obtain ⟨kind, lexeme, here, hmem, heq⟩ := ih ht
      exact ⟨kind, lexeme, here, List.mem_cons_of_mem p hmem, heq⟩
    cases p with
    | token kind lexeme =>
      rcases List.mem_cons.1 h with heq | ht
      · exact ⟨kind, lexeme, _, List.mem_cons_self .., heq⟩
      · exact hmore ht
    | _ => exact hmore h

theorem forall₂_complaints (ps : List Piece) (line : Nat) :
    List.Forall₂ Reports (ps.filter isFlawed) (complaints line ps) := by
  induction ps generalizing line with
  | nil => exact .nil
  | cons p ps ih =>
    cases p with
    | illegal c => exact .cons (.illegal c _) (ih _)
    | openString text => exact .cons (.openString text _) (ih _)
    | openComment text => exact .cons (.openComment text _) (ih _)
    | _ => exact ih _

end Piece

namespace Token

open Piece

/-- A text is cut into pieces in one way: none is empty, none is shorter than it could be, and
together they are the text. Scanning yields the tokens among them, in order, and one end mark after
them; it complains of each piece that is no part of any program, in order, and of nothing else. -/
theorem scan_munch (source : String) :
    ∃ pieces, Cuts pieces source.toList ∧ (∀ ps, Cuts ps source.toList → ps = pieces) ∧
      pieces.flatMap Piece.text = source.toList ∧ (∀ p ∈ pieces, p.text ≠ []) ∧
      List.Forall₂ Spells (pieces.filter isToken) (scan source).tokens ∧
      (∀ t ∈ (scan source).tokens, t.kind ≠ .eof) ∧
      (scan source).all = (scan source).tokens ++ [⟨.eof, "", .nil, (scan source).lastLine⟩] ∧
      List.Forall₂ Reports (pieces.filter isFlawed) (scan source).complaints := by
  have hcuts : Cuts (split source.toList) source.toList := cuts_iff.2 rfl
  refine ⟨split source.toList, hcuts, fun ps => cuts_iff.1, hcuts.flatMap_text, fun p hp => ?_,
    forall₂_tokens hcuts.exists_cut 1, fun t ht => ?_, rfl, forall₂_complaints _ 1⟩
  · obtain ⟨rest, hcut⟩ := hcuts.exists_cut p hp
    exact hcut.text_ne_nil
  · obtain ⟨kind, lexeme, here, hmem, rfl⟩ := mem_tokens ht
    obtain ⟨rest, hcut⟩ := hcuts.exists_cut _ hmem
    show kind ≠ .eof
    rcases hcut.kind_cases with ⟨rfl, -⟩ | rfl | ⟨-, -, hne⟩
    · exact nofun
    · exact nofun
    · exact hne

end Token

end Lox
