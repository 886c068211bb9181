import Mathlib.Data.List.Nodup
import Lox.Proofs.Machine.Recast
import Lox.Proofs.Machine.Written
import Lox.Proofs.Token.Munch
import Lox.Tree.Outline

/-!
# Reading outlines back

An outline is a nest of forms, each in parentheses with its head first. No head, numeral or name holds
a blank or a parenthesis, so an outline falls apart into its forms in one way only. The head of a form
and the number of its parts then tell which node it is the outline of.

## Main definitions

* `Outline.Shape`: nested forms over numerals and names, with their text.
* `Node.shape`: the forms of a tree; `Outline.Shape.node`: the way back.

## Main statements

* `Outline.Shape.text_inj`: a text is the text of one shape at most, whatever follows it.
* `Tree.outline_determines`: trees that were read and have one outline differ in lines only.
-/

namespace Lox

/-! ### Spellings -/

namespace Token

variable {t : Token}

def Kind.spelling (kind : Kind) : List Char :=
  (((Piece.signs ++ keywords).find? fun entry => entry.2 = kind).map (·.1)).getD []

/-- The sign or keyword of a kind, without a line. -/
def fixed (kind : Kind) : Token := ⟨kind, String.ofList kind.spelling, .nil, 0⟩

/-- Whether a word starts with a letter, goes on with letters and digits and is not reserved. -/
def isName (word : List Char) : Bool :=
  word.head?.any Piece.isAlpha && word.all Piece.isAlphanumeric && (keywords.lookup word).isNone

/-- Whether a token is spelled as scanning leaves it. Texts and numerals are not looked at. -/
def isScanned (t : Token) : Bool :=
  match t.kind with
  | .string | .number => true
  | .identifier => isName t.lexeme.toList && t.literal = .nil
  | kind => t.relined (fun _ => 0) = fixed kind

theorem isName_of_cut {word rest : List Char} (h : Piece.Longest Piece.IsName word rest)
    (hfree : ∀ entry ∈ keywords, word ≠ entry.1) : isName word = true := by
  obtain ⟨c, cs, rfl, hc, hcs⟩ := h.holds
  have hlookup : keywords.lookup (c :: cs) = none := by
    rw [List.lookup_eq_none_iff]
    exact fun entry hentry => by simpa using hfree entry hentry
  simp only [isName, hlookup, List.head?_cons, Option.any_some, hc, List.all_cons,
    Piece.isAlphanumeric, Bool.true_or, Bool.true_and, Option.isNone_none, Bool.and_true,
    List.all_eq_true]
  exact hcs

theorem spelling_of_mem : ∀ entry ∈ Piece.signs ++ keywords, entry.2.spelling = entry.1 := by
  decide

theorem isScanned_of_mem {lexeme : List Char} {kind : Kind} {line : Nat}
    (h : (lexeme, kind) ∈ Piece.signs ++ keywords) : isScanned (ofLexeme kind lexeme line) = true := by
  have hspelling : kind.spelling = lexeme := spelling_of_mem _ h
  have hkind : kind ∈ (Piece.signs ++ keywords).map (·.2) := List.mem_map_of_mem h
  cases kind <;>
    first
    | exact absurd hkind (by decide)
    | simp [isScanned, ofLexeme, literalOf, relined, fixed, hspelling]

theorem isScanned_of_mem_scan {source : String} (ht : t ∈ (scan source).tokens) :
    isScanned t = true := by
  have hcuts : Piece.Cuts (Piece.split source.toList) source.toList := Piece.cuts_iff.2 rfl
  obtain ⟨kind, lexeme, here, hmem, rfl⟩ := Piece.mem_tokens ht
  obtain ⟨rest, hcut⟩ := hcuts.exists_cut _ hmem
  cases hcut with
  | sign mem => exact isScanned_of_mem (List.mem_append_left _ mem)
  | name longest reserved =>
    rcases reserved with hlookup | ⟨hfree, rfl⟩
    · obtain ⟨before, after, hwords, -⟩ := List.lookup_eq_some_iff.1 hlookup
      exact isScanned_of_mem (List.mem_append_right _ (by simp [hwords]))
    · simp [isScanned, ofLexeme, literalOf, isName_of_cut longest hfree]
  | number _ => rfl
  | string _ => rfl

theorem relined_eq_fixed (h : t.isScanned = true)
    (hk : t.kind ≠ .identifier ∧ t.kind ≠ .string ∧ t.kind ≠ .number) :
    t.relined (fun _ => 0) = fixed t.kind := by
  unfold isScanned at h
  cases hkind : t.kind <;> simp_all

theorem isName_of_isWord (h : isWord isScanned (.identifier, t) = true) :
    isName t.lexeme.toList = true ∧ t.relined (fun _ => 0) = ident t.lexeme 0 := by
  obtain ⟨kind, lexeme, literal, line⟩ := t
  simp only [isWord, Bool.and_eq_true, decide_eq_true_eq] at h
  obtain ⟨rfl, h⟩ := h
  simp only [isScanned, Bool.and_eq_true, decide_eq_true_eq] at h
  obtain ⟨hname, rfl⟩ := h
  exact ⟨hname, rfl⟩

end Token

/-! ### Shapes -/

namespace Outline

variable {head : Head} {cs : List Char}

inductive Head where
  | sign (kind : Token.Kind)
  | grouping | assign | call
  | expression | print | varDecl | block | ifThen | ifElse | whileLoop | breakOut | returnBack
deriving DecidableEq

namespace Head

def word : Head → List Char
  | sign kind => kind.spelling
  | grouping => "group".toList
  | assign => "=".toList
  | call => "call".toList
  | expression => "expr".toList
  | print => "print".toList
  | varDecl => "var".toList
  | block => "block".toList
  | ifThen => "if".toList
  | ifElse => "if-else".toList
  | whileLoop => "while".toList
  | breakOut => "break".toList
  | returnBack => "return".toList

def operators : List Token.Kind :=
  [.bang, .minus, .slash, .star, .plus, .greater, .greaterEqual, .less, .lessEqual, .bangEqual,
    .equalEqual, .kwAnd, .kwOr]

def ofExprs : List Head := operators.map sign ++ [grouping, assign, call]

def ofStmts : List Head :=
  [expression, print, varDecl, block, ifThen, ifElse, whileLoop, breakOut, returnBack]

end Head

/-- Whether a character ends a word of an outline. -/
def isDelimiter (c : Char) : Bool := c = ' ' || c = '(' || c = ')'

theorem Head.word_inj {head' : Head} (h : head ∈ ofExprs ++ ofStmts) (h' : head' ∈ ofExprs ++ ofStmts)
    (hword : head.word = head'.word) : head = head' := by
  have hnodup : ((ofExprs ++ ofStmts).map word).Nodup := by decide +kernel
  exact List.inj_on_of_nodup_map hnodup h h' hword

/-- Whether no character of a text ends a word. -/
def isSolid (cs : List Char) : Bool := cs.all (!isDelimiter ·)

theorem Head.isSolid_word (h : head ∈ ofExprs ++ ofStmts) : isSolid head.word = true := by
  have hall : ((ofExprs ++ ofStmts).all fun head => isSolid head.word) = true := by decide +kernel
  exact List.all_eq_true.1 hall head h

/-- What stands in an outline without parentheses. -/
inductive Atom where
  | nothing
  | number (x : Float)
  | name (word : String)

namespace Atom

def text : Atom → List Char
  | nothing => ['n', 'i', 'l']
  | number x => (Decimal.render x).toList
  | name word => word.toList

/-- Whether an atom is one that a node may have, with a number that passes a test. -/
def isFormed (p : Float → Bool) : Atom → Bool
  | nothing => true
  | number x => p x
  | name word => Token.isName word.toList

end Atom

inductive Shape where
  | atom (a : Atom)
  | form (head : Head) (parts : List Shape)

mutual

def Shape.text : Shape → List Char
  | .atom a => a.text
  | .form head parts => '(' :: (head.word ++ (Shape.texts parts ++ [')']))

/-- The texts of the parts of a form, each after a blank. -/
def Shape.texts : List Shape → List Char
  | [] => []
  | s :: ss => ' ' :: (s.text ++ Shape.texts ss)

end

mutual

/-- Whether the heads and atoms of a shape are those that nodes may have. -/
def Shape.isFormed (p : Float → Bool) : Shape → Bool
  | .atom a => a.isFormed p
  | .form head parts => (Head.ofExprs ++ Head.ofStmts).contains head && Shape.areFormed p parts

/-- Whether the heads and atoms of some shapes are those that nodes may have. -/
def Shape.areFormed (p : Float → Bool) : List Shape → Bool
  | [] => true
  | s :: ss => s.isFormed p && Shape.areFormed p ss

end

/-! ### Words -/

/-- A text that is empty or starts where a word ends. -/
def Ends (cs : List Char) : Prop := ∀ c ∈ cs.head?, isDelimiter c = true

theorem ends_nil : Ends [] := by simp [Ends]

theorem ends_cons {c : Char} (h : isDelimiter c = true) : Ends (c :: cs) := by
  simpa [Ends] using h

theorem append_inj_of_ends {word word' u v : List Char} (hw : isSolid word = true)
    (hw' : isSolid word' = true) (hu : Ends u) (hv : Ends v) (h : word ++ u = word' ++ v) :
    word = word' ∧ u = v := by
  simp only [isSolid, List.all_eq_true, Bool.not_eq_true'] at hw hw'
  induction word generalizing word' with
  | nil =>
    cases word' with
    | nil => exact ⟨rfl, h⟩
    | cons c word' =>
      have hc : isDelimiter c = true := hu c (by simp [show u = c :: (word' ++ v) from h])
      simp [hw' c (by simp)] at hc
  | cons c word ih =>
    cases word' with
    | nil =>
      have hc : isDelimiter c = true := hv c (by simp [← show c :: (word ++ u) = v from h])
      simp [hw c (by simp)] at hc
    | cons d word' =>
      obtain ⟨rfl, htail⟩ := List.cons.inj h
      obtain ⟨rfl, hrest⟩ :=
        ih htail (fun c hc => hw c (by simp [hc])) (fun c hc => hw' c (by simp [hc]))
      exact ⟨rfl, hrest⟩

theorem isSolid_of_isAlphanumeric (h : ∀ c ∈ cs, Piece.isAlphanumeric c = true) :
    isSolid cs = true := by
  refine List.all_eq_true.2 fun c hc => ?_
  have halnum := h c hc
  simp only [isDelimiter, Bool.not_or, Bool.and_eq_true, Bool.not_eq_true', decide_eq_false_iff_not]
  refine ⟨⟨?_, ?_⟩, ?_⟩ <;> rintro rfl <;> exact absurd halnum (by decide)

theorem isSolid_of_isDigit (h : ∀ c ∈ cs, Char.isDigit c = true) : isSolid cs = true := by
  refine isSolid_of_isAlphanumeric fun c hc => ?_
  have hdigit : Decimal.isDigit c = true := by
    simpa only [Decimal.isDigit, Char.isDigit, Char.le_def, ge_iff_le] using h c hc
  rw [Piece.isAlphanumeric, hdigit, Bool.or_true]

theorem isSolid_toDigits (n : Nat) : isSolid (Nat.toDigits 10 n) = true :=
  isSolid_of_isDigit fun _ hc => Nat.isDigit_of_mem_toDigits (by decide) (by decide) hc

theorem isSolid_replicate (n : Nat) : isSolid (List.replicate n '0') = true := by
  refine isSolid_of_isDigit fun c hc => ?_
  rw [List.eq_of_mem_replicate hc]
  rfl

theorem isSolid_shortest (b : Decimal.Binary) :
    isSolid ((Decimal.shortest b).digits.map Decimal.digitChar) = true := by
  refine isSolid_of_isDigit fun c hc => ?_
  obtain ⟨d, hd, rfl⟩ := List.mem_map.1 hc
  -- a digit of a coefficient is a character of it, counted from zero
  have hmem := List.mem_reverse.1 ((List.dropWhile_suffix _).subset (List.mem_reverse.1 hd))
  obtain ⟨c, hc', rfl⟩ := List.mem_map.1 hmem
  have hdigit : c.isDigit = true := Nat.isDigit_of_mem_toDigits (by decide) (by decide) hc'
  have hlow : '0'.toNat ≤ c.toNat := by
    simp only [Char.isDigit, Bool.and_eq_true, decide_eq_true_eq] at hdigit
    exact hdigit.1
  rwa [Decimal.digitChar, Nat.add_sub_cancel' hlow, Char.ofNat_toNat]

theorem isSolid_append {ds : List Char} (hc : isSolid cs = true) (hd : isSolid ds = true) :
    isSolid (cs ++ ds) = true := by
  rw [isSolid, List.all_append]
  exact Bool.and_eq_true_iff.2 ⟨hc, hd⟩

theorem isSolid_cons {c : Char} (hc : isDelimiter c = false) (h : isSolid cs = true) :
    isSolid (c :: cs) = true := by
  rw [isSolid, List.all_cons, hc]
  exact h

theorem isSolid_of_subset {ds : List Char} (h : isSolid cs = true) (hs : ds ⊆ cs) : isSolid ds = true :=
  List.all_eq_true.2 fun _ hc => List.all_eq_true.1 h _ (hs hc)

theorem isSolid_layout (layout : Decimal.Layout) {d : Decimal.Digits}
    (h : isSolid (d.digits.map Decimal.digitChar) = true) : isSolid (d.render layout) = true := by
  have hexponent : isSolid ('e' :: Decimal.renderExponent layout.exponentWidth d.exponent) = true := by
    refine isSolid_cons (by decide) (isSolid_cons ?_ (isSolid_append (isSolid_replicate _) (isSolid_toDigits _)))
    split <;> decide
  unfold Decimal.Digits.render
  generalize d.digits.map Decimal.digitChar = cs at h ⊢
  dsimp only
  split
  · split
    · exact isSolid_cons (by decide) (isSolid_cons (by decide) (isSolid_append (isSolid_replicate _) h))
    · refine isSolid_append (isSolid_append (isSolid_of_subset h (List.take_subset _ _))
        (isSolid_replicate _)) (isSolid_cons (by decide) ?_)
      split
      · decide
      · exact isSolid_of_subset h (List.drop_subset _ _)
  · split
    · exact isSolid_append h hexponent
    · next c rest _ =>
      have hc : isSolid [c] = true := isSolid_of_subset h (by simp)
      exact isSolid_append hc (isSolid_cons (by decide)
        (isSolid_append (isSolid_of_subset h (List.subset_cons_self _ _)) hexponent))
    · rfl

theorem isSolid_render (x : Float) : isSolid (Decimal.render x).toList = true := by
  unfold Decimal.render
  split
  · decide
  · rw [String.toList_ofList]
    refine isSolid_append ?_ ?_
    · split <;> decide
    · split
      · decide
      · split
        · decide
        · exact isSolid_layout _ (isSolid_shortest _)

/-- The numbers that pass a test are written with a digit or a minus sign first, and no two of them are
written alike. -/
structure Numerals (p : Float → Bool) : Prop where
  start (x : Float) (hx : p x = true) :
    ∃ c ∈ (Decimal.render x).toList.head?, c = '-' ∨ Decimal.isDigit c = true
  inj (x y : Float) (hx : p x = true) (hy : p y = true) (h : Decimal.render x = Decimal.render y) : x = y

variable {p : Float → Bool}

namespace Atom

variable {a : Atom}

theorem isSolid_text (h : a.isFormed p = true) : isSolid a.text = true := by
  cases a with
  | nothing => decide
  | number x => exact isSolid_render x
  | name word =>
    simp only [isFormed, Token.isName, Bool.and_eq_true, List.all_eq_true] at h
    exact isSolid_of_isAlphanumeric h.1.2

theorem not_isAlpha_of_isDigit {c : Char} (h : Decimal.isDigit c = true) : Piece.isAlpha c = false := by
  simp only [Decimal.isDigit, Bool.and_eq_true, decide_eq_true_eq] at h
  by_contra halpha
  simp only [Bool.not_eq_false, Piece.isAlpha, Bool.or_eq_true, Bool.and_eq_true, decide_eq_true_eq] at halpha
  have hlate : '9' < c := by
    rcases halpha with (h | h) | rfl
    · exact Std.lt_of_lt_of_le (by decide) h.1
    · exact Std.lt_of_lt_of_le (by decide) h.1
    · decide
  exact absurd h.2 (Char.not_le.2 hlate)

def isNumber : Atom → Bool
  | number _ => true
  | _ => false

/-- The first character tells numbers from words. -/
theorem start (hp : Numerals p) (h : a.isFormed p = true) :
    ∃ c ∈ a.text.head?, Piece.isAlpha c = !a.isNumber := by
  cases a with
  | nothing => exact ⟨'n', rfl, by decide⟩
  | number x =>
    obtain ⟨c, hc, hstart⟩ := hp.start x h
    refine ⟨c, hc, ?_⟩
    rcases hstart with rfl | hdigit
    · rfl
    · exact not_isAlpha_of_isDigit hdigit
  | name word =>
    simp only [isFormed, Token.isName, Bool.and_eq_true, Option.any_eq_true] at h
    obtain ⟨⟨⟨c, hc, halpha⟩, -⟩, -⟩ := h
    exact ⟨c, hc, halpha⟩

theorem name_ne_nothing {word : String} (h : (name word).isFormed p = true) :
    (name word).text ≠ nothing.text := by
  intro heq
  simp only [isFormed, Token.isName, Bool.and_eq_true] at h
  rw [show word.toList = ['n', 'i', 'l'] from heq] at h
  exact absurd h.2 (by decide)

theorem text_inj (hp : Numerals p) {b : Atom} (ha : a.isFormed p = true) (hb : b.isFormed p = true)
    (h : a.text = b.text) : a = b := by
  have hkind : a.isNumber = b.isNumber := by
    obtain ⟨c, hc, hca⟩ := start hp ha
    obtain ⟨d, hd, hdb⟩ := start hp hb
    rw [h, Option.mem_def.1 hd] at hc
    cases hc
    rwa [hca, Bool.not_inj_iff] at hdb
  cases a with
  | nothing =>
    cases b with
    | nothing => rfl
    | number y => cases hkind
    | name word => exact absurd h.symm (name_ne_nothing hb)
  | number x =>
    cases b with
    | number y => rw [hp.inj x y ha hb (String.toList_inj.1 h)]
    | nothing | name => cases hkind
  | name word =>
    cases b with
    | nothing => exact absurd h (name_ne_nothing ha)
    | number y => cases hkind
    | name word' => rw [String.toList_inj.1 h]

theorem text_ne_open (hp : Numerals p) (h : a.isFormed p = true) (u v : List Char) :
    a.text ++ u ≠ '(' :: v := by
  intro heq
  obtain ⟨c, hc, -⟩ := start hp h
  obtain ⟨rest, hrest⟩ := List.head?_eq_some_iff.1 hc
  rw [hrest] at heq
  cases heq
  have hsolid := List.all_eq_true.1 (isSolid_text h) '(' (by simp [hrest])
  exact absurd hsolid (by decide)

end Atom

/-! ### Unique readability -/

theorem ends_texts (parts : List Shape) (u : List Char) : Ends (Shape.texts parts ++ ')' :: u) := by
  cases parts with
  | nil => exact ends_cons (by decide)
  | cons s ss => exact ends_cons (by decide)

mutual

/-- A shape is told from what follows it. -/
theorem Shape.text_inj (hp : Numerals p) : ∀ (a b : Shape) {u v : List Char}, a.isFormed p = true →
    b.isFormed p = true → Ends u → Ends v → a.text ++ u = b.text ++ v → a = b ∧ u = v
  | .atom a, .atom b, u, v, ha, hb, hu, hv, h => by
    obtain ⟨htext, hrest⟩ :=
      append_inj_of_ends (Atom.isSolid_text ha) (Atom.isSolid_text hb) hu hv h
    exact ⟨congrArg Shape.atom (Atom.text_inj hp ha hb htext), hrest⟩
  | .atom a, .form head parts, u, v, ha, _, _, _, h => absurd h (Atom.text_ne_open hp ha u _)
  | .form head parts, .atom b, u, v, _, hb, _, _, h => absurd h.symm (Atom.text_ne_open hp hb v _)
  | .form head parts, .form head' parts', u, v, ha, hb, _, _, h => by
    simp only [Shape.isFormed, Bool.and_eq_true, List.contains_iff_mem] at ha hb
    simp only [Shape.text, List.cons_append, List.append_assoc, List.nil_append, List.cons.injEq,
      true_and] at h
    obtain ⟨hword, hrest⟩ := append_inj_of_ends (Head.isSolid_word ha.1)
      (Head.isSolid_word hb.1) (ends_texts parts u) (ends_texts parts' v) h
    obtain ⟨rfl, rfl⟩ := Shape.texts_inj hp parts parts' ha.2 hb.2 hrest
    exact ⟨congrArg (Shape.form · parts) (Head.word_inj ha.1 hb.1 hword), rfl⟩

/-- The parts of a form are told from each other and from what follows them. -/
theorem Shape.texts_inj (hp : Numerals p) : ∀ (as bs : List Shape) {u v : List Char},
    Shape.areFormed p as = true → Shape.areFormed p bs = true → Shape.texts as ++ ')' :: u = Shape.texts bs ++ ')' :: v →
    as = bs ∧ u = v
  | [], [], u, v, _, _, h => ⟨rfl, (List.cons.inj h).2⟩
  | [], b :: bs, u, v, _, _, h => by simp [Shape.texts] at h
  | a :: as, [], u, v, _, _, h => by simp [Shape.texts] at h
  | a :: as, b :: bs, u, v, ha, hb, h => by
    simp only [Shape.areFormed, Bool.and_eq_true] at ha hb
    simp only [Shape.texts, List.cons_append, List.append_assoc, List.cons.injEq, true_and] at h
    obtain ⟨rfl, hrest⟩ :=
      Shape.text_inj hp a b ha.1 hb.1 (ends_texts as u) (ends_texts bs v) h
    obtain ⟨rfl, rfl⟩ := Shape.texts_inj hp as bs ha.2 hb.2 hrest
    exact ⟨rfl, rfl⟩

end

/-- The text of a form, put together from the texts of its parts. -/
theorem form_eq {word : String} (h : word.toList = head.word) (parts : List Shape) :
    form word (parts.map fun s => String.ofList s.text) = String.ofList (Shape.form head parts).text := by
  have hjoin : ∀ word : String, (" ".intercalate (word :: parts.map fun s => String.ofList s.text)).toList =
      word.toList ++ Shape.texts parts := by
    induction parts with
    | nil => simp [Shape.texts]
    | cons s ss ih =>
      intro word
      rw [List.map_cons, String.intercalate_cons_cons, String.toList_append, ih]
      simp [Shape.texts]
  apply String.toList_inj.1
  simp only [form, String.toList_append, hjoin, h, Shape.text, String.toList_ofList]
  simp

end Outline

/-! ### The shapes of trees -/

open Outline

/-- Whether a node is an operation, a group, a variable, an assignment, a call, nothing or a number that
passes a test, or a statement that declares no function and no class. -/
def Node.isPlain (p : Float → Bool) : Node → Bool
  | .expr (.literal .nil) => true
  | .expr (.literal (.num x)) => p x
  | .expr (.unary ..) | .expr (.binary ..) | .expr (.logical ..) | .expr (.grouping _)
  | .expr (.variable ..) | .expr (.assign ..) | .expr (.call ..) => true
  | .stmt (.expression _) | .stmt (.print _) | .stmt (.varDecl ..) | .stmt (.block _)
  | .stmt (.ifStmt ..) | .stmt (.whileStmt ..) | .stmt (.breakStmt _) | .stmt (.returnStmt ..) => true
  | _ => false

def Node.outline : Node → Except Defect String
  | .expr e => e.outline
  | .stmt s => s.outline

mutual

def Expr.shape : Expr → Shape
  | .literal (.num x) => .atom (.number x)
  | .grouping body => .form .grouping [body.shape]
  | .unary op right => .form (.sign op.kind) [right.shape]
  | .binary left op right => .form (.sign op.kind) [left.shape, right.shape]
  | .logical left op right => .form (.sign op.kind) [left.shape, right.shape]
  | .variable name _ => .atom (.name name.lexeme)
  | .assign name _ value => .form .assign [.atom (.name name.lexeme), value.shape]
  | .call callee _ arguments => .form .call (callee.shape :: Expr.shapes arguments)
  | _ => .atom .nothing

def Expr.shapes : List Expr → List Shape
  | [] => []
  | e :: es => e.shape :: Expr.shapes es

def Stmt.shape : Stmt → Shape
  | .expression value => .form .expression [value.shape]
  | .print value => .form .print [value.shape]
  | .varDecl name none => .form .varDecl [.atom (.name name.lexeme)]
  | .varDecl name (some init) => .form .varDecl [.atom (.name name.lexeme), init.shape]
  | .block body => .form .block (Stmt.shapes body)
  | .ifStmt condition onTrue none => .form .ifThen [condition.shape, onTrue.shape]
  | .ifStmt condition onTrue (some onFalse) =>
    .form .ifElse [condition.shape, onTrue.shape, onFalse.shape]
  | .whileStmt condition body => .form .whileLoop [condition.shape, body.shape]
  | .breakStmt _ => .form .breakOut []
  | .returnStmt _ none => .form .returnBack []
  | .returnStmt _ (some value) => .form .returnBack [value.shape]
  | _ => .atom .nothing

def Stmt.shapes : List Stmt → List Shape
  | [] => []
  | s :: ss => s.shape :: Stmt.shapes ss

end

def Node.shape : Node → Shape
  | .expr e => e.shape
  | .stmt s => s.shape

namespace Outline

mutual

def Shape.expr : Shape → Expr
  | .atom .nothing => .literal .nil
  | .atom (.number x) => .literal (.num x)
  | .atom (.name word) => .variable (.ident word 0) .free
  | .form .grouping [body] => .grouping body.expr
  | .form .assign [.atom (.name word), value] => .assign (.ident word 0) .free value.expr
  | .form .call (callee :: arguments) =>
    .call callee.expr (.fixed .rightParen) (Shape.exprs arguments)
  | .form (.sign kind) [right] => .unary (.fixed kind) right.expr
  | .form (.sign kind) [left, right] =>
    if kind = .kwAnd ∨ kind = .kwOr then .logical left.expr (.fixed kind) right.expr
    else .binary left.expr (.fixed kind) right.expr
  | _ => .gap

def Shape.exprs : List Shape → List Expr
  | [] => []
  | s :: ss => s.expr :: Shape.exprs ss

end

mutual

def Shape.stmt : Shape → Stmt
  | .form .expression [value] => .expression value.expr
  | .form .print [value] => .print value.expr
  | .form .varDecl [.atom (.name word)] => .varDecl (.ident word 0) none
  | .form .varDecl [.atom (.name word), init] => .varDecl (.ident word 0) (some init.expr)
  | .form .block body => .block (Shape.stmts body)
  | .form .ifThen [condition, onTrue] => .ifStmt condition.expr onTrue.stmt none
  | .form .ifElse [condition, onTrue, onFalse] =>
    .ifStmt condition.expr onTrue.stmt (some onFalse.stmt)
  | .form .whileLoop [condition, body] => .whileStmt condition.expr body.stmt
  | .form .breakOut [] => .breakStmt (.fixed .kwBreak)
  | .form .returnBack [] => .returnStmt (.fixed .kwReturn) none
  | .form .returnBack [value] => .returnStmt (.fixed .kwReturn) (some value.expr)
  | _ => .gap

def Shape.stmts : List Shape → List Stmt
  | [] => []
  | s :: ss => s.stmt :: Shape.stmts ss

end

/-- The node of a shape, without lines: a statement if its head is one of a statement. -/
def Shape.node : Shape → Node
  | .atom a => .expr (Shape.atom a).expr
  | .form head parts =>
    if Head.ofStmts.contains head then .stmt (Shape.form head parts).stmt
    else .expr (Shape.form head parts).expr

theorem Head.sign_mem {kind : Token.Kind} (h : kind ∈ operators) : sign kind ∈ ofExprs ++ ofStmts :=
  List.mem_append_left _ (List.mem_append_left _ (List.mem_map_of_mem h))

theorem Shape.formed_form {head : Head} {parts : List Shape} (h : head ∈ Head.ofExprs ++ Head.ofStmts)
    (hp : Shape.areFormed p parts = true) : (Shape.form head parts).isFormed p = true := by
  rw [Shape.isFormed, hp, Bool.and_true]
  exact List.contains_iff_mem.2 h

/-! ### Outlines of forms -/

section Forms

variable {word : String} {head : Head} {x y : Except Defect String} {s t : Shape}

theorem outline_one (h : word.toList = head.word) (hx : x = .ok (String.ofList s.text)) :
    (do return form word [← x]) = Except.ok (String.ofList (Shape.form head [s]).text) := by
  subst hx
  exact congrArg Except.ok (form_eq h [s])

theorem outline_two (h : word.toList = head.word) (hx : x = .ok (String.ofList s.text))
    (hy : y = .ok (String.ofList t.text)) :
    (do return form word [← x, ← y]) = Except.ok (String.ofList (Shape.form head [s, t]).text) := by
  subst hx hy
  exact congrArg Except.ok (form_eq h [s, t])

theorem outline_name (h : word.toList = head.word) (name : Token) (hx : x = .ok (String.ofList s.text)) :
    (do return form word [name.lexeme, ← x]) =
      Except.ok (String.ofList (Shape.form head [.atom (.name name.lexeme), s]).text) := by
  have hname : (Except.ok name.lexeme : Except Defect String) =
      .ok (String.ofList (Shape.atom (.name name.lexeme)).text) :=
    congrArg Except.ok String.ofList_toList.symm
  exact outline_two h hname hx

end Forms

end Outline

structure Token.Fixed (t : Token) : Prop where
  relined : t.relined (fun _ => 0) = .fixed t.kind
  toList : t.lexeme.toList = t.kind.spelling

abbrev Token.IsScannedName (t : Token) : Prop := isWord isScanned (.identifier, t) = true

theorem Token.fixed_of_isScanned {t : Token} (h : t.isScanned = true)
    (hk : t.kind ≠ .identifier ∧ t.kind ≠ .string ∧ t.kind ≠ .number) : t.Fixed where
  relined := relined_eq_fixed h hk
  toList := by rw [← lexeme_relined (fun _ => 0), relined_eq_fixed h hk, fixed, String.toList_ofList]

theorem Token.fixed_of_isWord {t : Token} {kind : Token.Kind} (h : isWord isScanned (kind, t) = true)
    (hk : kind ≠ .identifier ∧ kind ≠ .string ∧ kind ≠ .number) :
    t.relined (fun _ => 0) = fixed kind := by
  simp only [isWord, Bool.and_eq_true, decide_eq_true_eq] at h
  obtain ⟨rfl, h⟩ := h
  exact relined_eq_fixed h hk

section Shown

variable (p : Float → Bool)

/-- An outline of an expression shows what the expression is. -/
structure Expr.Shown (e : Expr) : Prop where
  outline : e.outline = .ok (String.ofList e.shape.text)
  formed : e.shape.isFormed p = true
  expr : e.shape.expr = e.relined fun _ => 0

structure Expr.AllShown (es : List Expr) : Prop where
  outlines : Expr.outlines es = .ok ((Expr.shapes es).map fun s => String.ofList s.text)
  formed : Shape.areFormed p (Expr.shapes es) = true
  exprs : Shape.exprs (Expr.shapes es) = Expr.relinedAll (fun _ => 0) es

/-- An outline of a statement shows what the statement is. -/
structure Stmt.Shown (s : Stmt) : Prop where
  outline : s.outline = .ok (String.ofList s.shape.text)
  formed : s.shape.isFormed p = true
  stmt : s.shape.stmt = s.relined fun _ => 0

structure Stmt.AllShown (ss : List Stmt) : Prop where
  outlines : Stmt.outlines ss = .ok ((Stmt.shapes ss).map fun s => String.ofList s.text)
  formed : Shape.areFormed p (Stmt.shapes ss) = true
  stmts : Shape.stmts (Stmt.shapes ss) = Stmt.relinedAll (fun _ => 0) ss

end Shown

variable {p : Float → Bool}

namespace Expr

variable {body left right value callee : Expr} {arguments : List Expr} {op name paren : Token}

theorem Shown.number {x : Float} (h : p x = true) : (Expr.literal (.num x)).Shown p where
  outline := congrArg Except.ok String.ofList_toList.symm
  formed := h
  expr := rfl

theorem Shown.grouping (h : body.Shown p) : (Expr.grouping body).Shown p where
  outline := outline_one rfl h.outline
  formed := Shape.formed_form (by decide) (by simp [Shape.areFormed, h.formed])
  expr := congrArg Expr.grouping h.expr

theorem Shown.unary (hop : op.Fixed) (hk : op.kind ∈ Head.operators) (h : right.Shown p) :
    (Expr.unary op right).Shown p where
  outline := outline_one hop.toList h.outline
  formed := Shape.formed_form (Head.sign_mem hk) (by simp [Shape.areFormed, h.formed])
  expr := congrArg₂ Expr.unary hop.relined.symm h.expr

theorem formed_operation (hk : op.kind ∈ Head.operators) (hl : left.Shown p) (hr : right.Shown p) :
    (Shape.form (.sign op.kind) [left.shape, right.shape]).isFormed p = true :=
  Shape.formed_form (Head.sign_mem hk) (by simp [Shape.areFormed, hl.formed, hr.formed])

theorem Shown.binary (hop : op.Fixed) (hk : op.kind ∈ Head.operators)
    (hb : ¬(op.kind = .kwAnd ∨ op.kind = .kwOr)) (hl : left.Shown p) (hr : right.Shown p) :
    (Expr.binary left op right).Shown p where
  outline := outline_two hop.toList hl.outline hr.outline
  formed := formed_operation hk hl hr
  expr := by
    change _ = Expr.binary (left.relined _) (op.relined _) (right.relined _)
    rw [← hl.expr, ← hr.expr, hop.relined]
    exact if_neg hb

theorem Shown.logical (hop : op.Fixed) (hk : op.kind ∈ Head.operators)
    (hb : op.kind = .kwAnd ∨ op.kind = .kwOr) (hl : left.Shown p) (hr : right.Shown p) :
    (Expr.logical left op right).Shown p where
  outline := outline_two hop.toList hl.outline hr.outline
  formed := formed_operation hk hl hr
  expr := by
    change _ = Expr.logical (left.relined _) (op.relined _) (right.relined _)
    rw [← hl.expr, ← hr.expr, hop.relined]
    exact if_pos hb

theorem formed_name (hname : name.IsScannedName) : (Shape.atom (.name name.lexeme)).isFormed p = true :=
  (Token.isName_of_isWord hname).1

theorem Shown.variable (hname : name.IsScannedName) : (Expr.variable name .free).Shown p where
  outline := congrArg Except.ok String.ofList_toList.symm
  formed := formed_name hname
  expr := congrArg (Expr.variable · .free) (Token.isName_of_isWord hname).2.symm

theorem Shown.assign (hname : name.IsScannedName) (h : value.Shown p) :
    (Expr.assign name .free value).Shown p where
  outline := outline_name rfl name h.outline
  formed := Shape.formed_form (by decide) (by simp [Shape.areFormed, formed_name hname, h.formed])
  expr := congrArg₂ (Expr.assign · .free ·) (Token.isName_of_isWord hname).2.symm h.expr

theorem Shown.call (hparen : paren.relined (fun _ => 0) = .fixed .rightParen) (h : callee.Shown p)
    (ha : AllShown p arguments) : (Expr.call callee paren arguments).Shown p where
  outline := by
    rw [Expr.outline, h.outline, ha.outlines]
    exact congrArg Except.ok (form_eq rfl (callee.shape :: Expr.shapes arguments))
  formed := Shape.formed_form (by decide) (by simp [Shape.areFormed, h.formed, ha.formed])
  expr := by
    change _ = Expr.call (callee.relined _) (paren.relined _) (Expr.relinedAll _ arguments)
    rw [hparen, ← h.expr, ← ha.exprs]
    rfl

theorem AllShown.cons (h : value.Shown p) (hs : AllShown p arguments) :
    AllShown p (value :: arguments) where
  outlines := by
    rw [Expr.outlines, h.outline, hs.outlines]
    rfl
  formed := Bool.and_eq_true_iff.2 ⟨h.formed, hs.formed⟩
  exprs := congrArg₂ List.cons h.expr hs.exprs

end Expr

namespace Stmt

open Lox.Expr (formed_name)

variable {value condition : Expr} {onTrue onFalse body : Stmt} {ss : List Stmt} {name keyword : Token}

theorem Shown.expression (h : value.Shown p) : (Stmt.expression value).Shown p where
  outline := outline_one rfl h.outline
  formed := Shape.formed_form (by decide) (by simp [Shape.areFormed, h.formed])
  stmt := congrArg Stmt.expression h.expr

theorem Shown.print (h : value.Shown p) : (Stmt.print value).Shown p where
  outline := outline_one rfl h.outline
  formed := Shape.formed_form (by decide) (by simp [Shape.areFormed, h.formed])
  stmt := congrArg Stmt.print h.expr

theorem Shown.bareVarDecl (hname : name.IsScannedName) : (Stmt.varDecl name none).Shown p where
  outline := outline_one rfl (congrArg Except.ok String.ofList_toList.symm)
  formed := Shape.formed_form (by decide) (by simp [Shape.areFormed, formed_name hname])
  stmt := congrArg (Stmt.varDecl · none) (Token.isName_of_isWord hname).2.symm

theorem Shown.varDecl (hname : name.IsScannedName) (h : value.Shown p) :
    (Stmt.varDecl name (some value)).Shown p where
  outline := outline_name rfl name h.outline
  formed := Shape.formed_form (by decide) (by simp [Shape.areFormed, formed_name hname, h.formed])
  stmt := congrArg₂ (Stmt.varDecl · <| some ·) (Token.isName_of_isWord hname).2.symm h.expr

theorem Shown.block (h : AllShown p ss) : (Stmt.block ss).Shown p where
  outline := by
    rw [Stmt.outline, h.outlines]
    exact congrArg Except.ok (form_eq rfl (Stmt.shapes ss))
  formed := Shape.formed_form (by decide) h.formed
  stmt := congrArg Stmt.block h.stmts

theorem Shown.ifThen (hc : condition.Shown p) (ht : onTrue.Shown p) :
    (Stmt.ifStmt condition onTrue none).Shown p where
  outline := outline_two rfl hc.outline ht.outline
  formed := Shape.formed_form (by decide) (by simp [Shape.areFormed, hc.formed, ht.formed])
  stmt := congrArg₂ (Stmt.ifStmt · · none) hc.expr ht.stmt

theorem Shown.ifElse (hc : condition.Shown p) (ht : onTrue.Shown p) (hf : onFalse.Shown p) :
    (Stmt.ifStmt condition onTrue (some onFalse)).Shown p where
  outline := by
    rw [Stmt.outline, hc.outline, ht.outline, hf.outline]
    exact congrArg Except.ok (form_eq rfl [condition.shape, onTrue.shape, onFalse.shape])
  formed := Shape.formed_form (by decide) (by simp [Shape.areFormed, hc.formed, ht.formed, hf.formed])
  stmt := by
    change _ = Stmt.ifStmt (condition.relined _) (onTrue.relined _) (some (onFalse.relined _))
    rw [← hc.expr, ← ht.stmt, ← hf.stmt]
    rfl

theorem Shown.whileStmt (hc : condition.Shown p) (hb : body.Shown p) :
    (Stmt.whileStmt condition body).Shown p where
  outline := outline_two rfl hc.outline hb.outline
  formed := Shape.formed_form (by decide) (by simp [Shape.areFormed, hc.formed, hb.formed])
  stmt := congrArg₂ Stmt.whileStmt hc.expr hb.stmt

theorem Shown.breakStmt (hk : keyword.relined (fun _ => 0) = .fixed .kwBreak) :
    (Stmt.breakStmt keyword).Shown p where
  outline := congrArg Except.ok (form_eq rfl [])
  formed := Shape.formed_form (by decide) rfl
  stmt := congrArg Stmt.breakStmt hk.symm

theorem Shown.bareReturn (hk : keyword.relined (fun _ => 0) = .fixed .kwReturn) :
    (Stmt.returnStmt keyword none).Shown p where
  outline := congrArg Except.ok (form_eq rfl [])
  formed := Shape.formed_form (by decide) rfl
  stmt := congrArg (Stmt.returnStmt · none) hk.symm

theorem Shown.returnStmt (hk : keyword.relined (fun _ => 0) = .fixed .kwReturn) (h : value.Shown p) :
    (Stmt.returnStmt keyword (some value)).Shown p where
  outline := outline_one rfl h.outline
  formed := Shape.formed_form (by decide) (by simp [Shape.areFormed, h.formed])
  stmt := congrArg₂ (Stmt.returnStmt · <| some ·) hk.symm h.expr

theorem AllShown.cons (h : body.Shown p) (hs : AllShown p ss) : AllShown p (body :: ss) where
  outlines := by
    rw [Stmt.outlines, h.outline, hs.outlines]
    rfl
  formed := Bool.and_eq_true_iff.2 ⟨h.formed, hs.formed⟩
  stmts := congrArg₂ List.cons h.stmt hs.stmts

end Stmt

/-! ### Trees that were read -/

theorem Node.operator_fixed {kinds : List Token.Kind} {op : Token}
    (h : (kinds.contains op.kind && op.isScanned) = true) (hsub : kinds ⊆ Head.operators) :
    op.Fixed ∧ op.kind ∈ Head.operators ∧ op.kind ∈ kinds := by
  simp only [Bool.and_eq_true, List.contains_iff_mem] at h
  have hnames : ∀ kind ∈ Head.operators, kind ≠ .identifier ∧ kind ≠ .string ∧ kind ≠ .number := by decide
  exact ⟨Token.fixed_of_isScanned h.2 (hnames _ (hsub h.1)), hsub h.1, h.1⟩

/-- The word of a node that holds one. -/
theorem Node.word_of_isBuilt {node : Node} {word : Token.Kind × Token} (h : node.isBuilt Token.isScanned = true)
    (hw : word ∈ node.words) : Token.isWord Token.isScanned word = true := by
  simp only [Node.isBuilt, Node.isWorded, Bool.and_eq_true, List.all_eq_true] at h
  exact h.1.2 word hw

theorem Node.signed_of_isBuilt {node : Node} (h : node.isBuilt Token.isScanned = true) :
    node.isSigned Token.isScanned = true :=
  (Bool.and_eq_true_iff.1 h).2

mutual

theorem Expr.shown : ∀ e : Expr, e.all (Node.isPlain p) = true →
    e.all (Node.isBuilt Token.isScanned) = true → e.Shown p
  | .literal .nil, _, _ => ⟨rfl, rfl, rfl⟩
  | .literal (.num _), hp, _ => .number hp
  | .grouping body, hp, hb => by
    simp only [Expr.all, Bool.and_eq_true] at hp hb
    exact .grouping (body.shown hp.2 hb.2)
  | .unary op right, hp, hb => by
    simp only [Expr.all, Bool.and_eq_true] at hp hb
    obtain ⟨hop, hk, -⟩ := Node.operator_fixed (Node.signed_of_isBuilt hb.1) (by decide)
    exact .unary hop hk (right.shown hp.2 hb.2)
  | .binary left op right, hp, hb => by
    simp only [Expr.all, Bool.and_eq_true] at hp hb
    obtain ⟨hop, hk, hmem⟩ := Node.operator_fixed (Node.signed_of_isBuilt hb.1) (by decide)
    have hb' : ¬(op.kind = .kwAnd ∨ op.kind = .kwOr) := by
      rintro (h | h) <;> rw [h] at hmem <;> exact absurd hmem (by decide)
    exact .binary hop hk hb' (left.shown hp.2.1 hb.2.1) (right.shown hp.2.2 hb.2.2)
  | .logical left op right, hp, hb => by
    simp only [Expr.all, Bool.and_eq_true] at hp hb
    obtain ⟨hop, hk, hmem⟩ := Node.operator_fixed (Node.signed_of_isBuilt hb.1) (by decide)
    exact .logical hop hk (by simpa using hmem) (left.shown hp.2.1 hb.2.1) (right.shown hp.2.2 hb.2.2)
  | .variable name address, _, hb => by
    cases of_decide_eq_true (Node.signed_of_isBuilt hb)
    exact .variable (Node.word_of_isBuilt hb List.mem_cons_self)
  | .assign name address value, hp, hb => by
    simp only [Expr.all, Bool.and_eq_true] at hp hb
    cases of_decide_eq_true (Node.signed_of_isBuilt hb.1)
    exact .assign (Node.word_of_isBuilt hb.1 List.mem_cons_self) (value.shown hp.2 hb.2)
  | .call callee paren arguments, hp, hb => by
    simp only [Expr.all, Bool.and_eq_true] at hp hb
    exact .call (Token.fixed_of_isWord (Node.signed_of_isBuilt hb.1) (by decide)) (callee.shown hp.2.1 hb.2.1)
      (Expr.allShown arguments hp.2.2 hb.2.2)
  | .gap, hp, _ | .literal (.bool _), hp, _ | .literal (.text _), hp, _ | .literal (.int _), hp, _
  | .lambda .., hp, _ | .get .., hp, _ | .set .., hp, _ | .this .., hp, _ | .super .., hp, _
  | .inner .., hp, _ => by simp [Expr.all, Node.isPlain] at hp

theorem Expr.allShown : ∀ es : List Expr, Expr.allOf (Node.isPlain p) es = true →
    Expr.allOf (Node.isBuilt Token.isScanned) es = true → Expr.AllShown p es
  | [], _, _ => ⟨rfl, rfl, rfl⟩
  | e :: es, hp, hb => by
    simp only [Expr.allOf, Bool.and_eq_true] at hp hb
    exact .cons (e.shown hp.1 hb.1) (Expr.allShown es hp.2 hb.2)

end

mutual

theorem Stmt.shown : ∀ s : Stmt, s.all (Node.isPlain p) = true →
    s.all (Node.isBuilt Token.isScanned) = true → s.Shown p
  | .expression value, hp, hb => by
    simp only [Stmt.all, Bool.and_eq_true] at hp hb
    exact .expression (value.shown hp.2 hb.2)
  | .print value, hp, hb => by
    simp only [Stmt.all, Bool.and_eq_true] at hp hb
    exact .print (value.shown hp.2 hb.2)
  | .varDecl name none, _, hb => .bareVarDecl (Node.word_of_isBuilt hb List.mem_cons_self)
  | .varDecl name (some init), hp, hb => by
    simp only [Stmt.all, Bool.and_eq_true] at hp hb
    exact .varDecl (Node.word_of_isBuilt hb.1 List.mem_cons_self) (init.shown hp.2 hb.2)
  | .block body, hp, hb => by
    simp only [Stmt.all, Bool.and_eq_true] at hp hb
    exact .block (Stmt.allShown body hp.2 hb.2)
  | .ifStmt condition onTrue none, hp, hb => by
    simp only [Stmt.all, Bool.and_eq_true] at hp hb
    exact .ifThen (condition.shown hp.2.1 hb.2.1) (onTrue.shown hp.2.2 hb.2.2)
  | .ifStmt condition onTrue (some onFalse), hp, hb => by
    simp only [Stmt.all, Bool.and_eq_true] at hp hb
    exact .ifElse (condition.shown hp.2.1 hb.2.1) (onTrue.shown hp.2.2.1 hb.2.2.1) (onFalse.shown hp.2.2.2 hb.2.2.2)
  | .whileStmt condition body, hp, hb => by
    simp only [Stmt.all, Bool.and_eq_true] at hp hb
    exact .whileStmt (condition.shown hp.2.1 hb.2.1) (body.shown hp.2.2 hb.2.2)
  | .breakStmt keyword, _, hb =>
    .breakStmt (Token.fixed_of_isWord (Node.signed_of_isBuilt hb) (by decide))
  | .returnStmt keyword none, _, hb =>
    .bareReturn (Token.fixed_of_isWord (Node.signed_of_isBuilt hb) (by decide))
  | .returnStmt keyword (some value), hp, hb => by
    simp only [Stmt.all, Bool.and_eq_true] at hp hb
    exact .returnStmt (Token.fixed_of_isWord (Node.signed_of_isBuilt hb.1) (by decide)) (value.shown hp.2 hb.2)
  | .gap, hp, _ | .bare _, hp, _ | .funDecl _, hp, _ | .classDecl .., hp, _ => by
    simp [Stmt.all, Node.isPlain] at hp

theorem Stmt.allShown : ∀ ss : List Stmt, Stmt.allOf (Node.isPlain p) ss = true →
    Stmt.allOf (Node.isBuilt Token.isScanned) ss = true → Stmt.AllShown p ss
  | [], _, _ => ⟨rfl, rfl, rfl⟩
  | s :: ss, hp, hb => by
    simp only [Stmt.allOf, Bool.and_eq_true] at hp hb
    exact .cons (s.shown hp.1 hb.1) (Stmt.allShown ss hp.2 hb.2)

end

theorem Expr.node_shape (e : Expr) : e.shape.node = .expr e.shape.expr := by
  have hsign : ∀ kind, Head.ofStmts.contains (.sign kind) = false := fun kind => by simp [Head.ofStmts]
  cases e with
  | unary | binary | logical => simp only [Expr.shape, Shape.node, hsign, Bool.false_eq_true, if_false]
  | literal value => cases value <;> rfl
  | _ => rfl

theorem Stmt.node_shape (s : Stmt) (h : s.all (Node.isPlain p) = true) :
    s.shape.node = .stmt s.shape.stmt := by
  cases s with
  | gap | bare | funDecl | classDecl => simp [Stmt.all, Node.isPlain] at h
  | varDecl name init? => cases init? <;> rfl
  | ifStmt condition onTrue onFalse? => cases onFalse? <;> rfl
  | returnStmt keyword value? => cases value? <;> rfl
  | _ => rfl

/-- The trees that are read from a text: the statements of a program, and the expression at its start. -/
def Tree.readings (source : String) : List Node :=
  (parse (Token.scan source).tokens).statements.map .stmt ++
    (parseExpression (Token.scan source).tokens).expression?.toList.map .expr

theorem Tree.readings_built {source : String} {node : Node} (h : node ∈ readings source) :
    node.all (Node.isBuilt Token.isScanned) = true := by
  have hscanned : ∀ t ∈ (Token.scan source).tokens, t.isScanned = true := fun _ => Token.isScanned_of_mem_scan
  rcases List.mem_append.1 h with h | h
  · obtain ⟨s, hs, rfl⟩ := List.mem_map.1 h
    exact Stmt.allOf_iff.1 (parse_built hscanned) s hs
  · obtain ⟨e, he, rfl⟩ := List.mem_map.1 h
    exact parseExpression_built hscanned (Option.mem_toList.1 he)

/-- The outline of a plain tree that was read is the text of a shape that tells the tree. -/
theorem Tree.outline_of_readings {source : String} {node : Node} (h : node ∈ readings source)
    (hplain : node.all (Node.isPlain p) = true) :
    ∃ shape : Shape, node.outline = .ok (String.ofList shape.text) ∧ shape.isFormed p = true ∧
      shape.node = node.relined fun _ => 0 := by
  have hbuilt := readings_built h
  cases node with
  | expr e =>
    have he := e.shown hplain hbuilt
    exact ⟨e.shape, he.outline, he.formed, by rw [e.node_shape, he.expr]; rfl⟩
  | stmt s =>
    have hs := s.shown hplain hbuilt
    refine ⟨s.shape, hs.outline, hs.formed, ?_⟩
    change _ = Node.stmt (s.relined _)
    rw [← hs.stmt]
    exact s.node_shape hplain

/-- Plain trees that were read have outlines, and where the outlines are the same, so are the trees, up
to the lines of their tokens. -/
theorem Tree.outline_determines (hp : Numerals p) {source source' : String} {a b : Node}
    (ha : a ∈ readings source) (hb : b ∈ readings source') (hpa : a.all (Node.isPlain p) = true)
    (hpb : b.all (Node.isPlain p) = true) :
    (∃ text, a.outline = .ok text) ∧ (∃ text, b.outline = .ok text) ∧
      (a.outline = b.outline → a.relined (fun _ => 0) = b.relined fun _ => 0) := by
  obtain ⟨shape, houtline, hformed, hnode⟩ := outline_of_readings ha hpa
  obtain ⟨shape', houtline', hformed', hnode'⟩ := outline_of_readings hb hpb
  refine ⟨⟨_, houtline⟩, ⟨_, houtline'⟩, fun heq => ?_⟩
  rw [houtline, houtline'] at heq
  have htext : shape.text ++ [] = shape'.text ++ [] := by
    rw [List.append_nil, List.append_nil, ← String.ofList_inj]
    exact Except.ok.inj heq
  obtain ⟨rfl, -⟩ := Shape.text_inj hp shape shape' hformed hformed' ends_nil ends_nil htext
  rw [← hnode, hnode']

/-- The tokens of a minus sign, a name in parentheses, another minus sign and a numeral, the last two on a
line of their own. -/
def Tree.differenceTokens (numeral : String) (x : Float) (line : Nat) : List Token :=
  [⟨.minus, "-", .nil, 1⟩, ⟨.leftParen, "(", .nil, 1⟩, .ident "a" 1, ⟨.rightParen, ")", .nil, 1⟩,
    ⟨.minus, "-", .nil, line⟩, ⟨.number, numeral, .num x, line⟩, ⟨.semicolon, ";", .nil, line⟩]

def Tree.difference (x : Float) (line : Nat) : Stmt :=
  .expression (.binary (.unary ⟨.minus, "-", .nil, 1⟩ (.grouping (.variable (.ident "a" 1) .free)))
    ⟨.minus, "-", .nil, line⟩ (.literal (.num x)))

theorem Tree.outline_determines_difference :
    ∃ one : Float, .stmt (difference one 1) ∈ readings "-(a) - 1;" ∧
      .stmt (difference one 2) ∈ readings "-(a)\n- 1.0;" ∧
      Node.outline (.stmt (difference one 1)) = .ok "(expr (- (- (group a)) 1.0))" ∧
      Node.relined (fun _ => 0) (.stmt (difference one 1)) =
        Node.relined (fun _ => 0) (.stmt (difference one 2)) := by
  let one := Decimal.readUnsigned ['1']
  have hone : Decimal.render one = "1.0" := by decide +kernel
  have hp : Numerals fun x => decide (x = one) := by
    refine ⟨fun x hx => ?_, fun x y hx hy _ => ?_⟩
    · rw [of_decide_eq_true hx, hone]
      exact ⟨'1', rfl, .inr (by decide)⟩
    · rw [of_decide_eq_true hx, of_decide_eq_true hy]
  have hread : ∀ {source numeral line}, (Token.scan source).tokens = differenceTokens numeral one line →
      .stmt (difference one line) ∈ readings source := by
    intro source numeral line hscan
    have hparse : ∀ x, (parse (differenceTokens numeral x line)).statements = [difference x line] := by
      intro x
      rfl
    rw [readings, hscan, hparse]
    exact List.mem_append_left _ List.mem_cons_self
  have ha : (Token.scan "-(a) - 1;").tokens = differenceTokens "1" one 1 := by decide +kernel
  have hb : (Token.scan "-(a)\n- 1.0;").tokens = differenceTokens "1.0" one 2 := by decide +kernel
  have hplain : ∀ line, (Node.stmt (difference one line)).all (Node.isPlain fun x => decide (x = one)) = true :=
    fun _ => by simp [Node.all, difference, Stmt.all, Expr.all, Node.isPlain]
  have hdetermines := outline_determines hp (hread ha) (hread hb) (hplain 1) (hplain 2)
  refine ⟨one, hread ha, hread hb, ?_, hdetermines.2.2 rfl⟩
  have hdisplay : (Literal.num one).display = "1.0" := hone
  simp only [Node.outline, difference, Stmt.outline, Expr.outline, hdisplay]
  decide +kernel

end Lox
