import Lox.Proofs.Token.Munch
import Lox.Proofs.Tree.Lines

/-!
# Texts in a row

The pieces of a text that leaves nothing open are the same when a line feed and another text follow
it. So the tokens of two texts in a row are those of the first and those of the second, the latter on
later lines.
-/

namespace Lox

def Token.Complaint.relined (f : Nat → Nat) (c : Complaint) : Complaint := { c with line := f c.line }

namespace Piece

variable {c : Char} {cs rest l more : List Char} {ps : List Piece}

/-! ### A blank ends every piece -/

theorem start_of_not_mem {start : List Char} (h : start <+: cs ++ c :: rest) (hc : c ∉ start) :
    start <+: cs := by
  have hstop : cs ++ [c] <+: cs ++ c :: rest := ⟨rest, by simp⟩
  rcases List.prefix_or_prefix_of_prefix h hstop with hle | ⟨tail, hge⟩
  · rcases List.prefix_concat_iff.1 hle with heq | hle
    · exact absurd (heq ▸ by simp) hc
    · exact hle
  · exact absurd (hge ▸ by simp) hc

theorem Longest.append_line {p : List Char → Prop} {lexeme : List Char} (h : Longest p lexeme rest)
    (hp : ∀ l, p l → '\n' ∉ l) (more : List Char) :
    Longest p lexeme (rest ++ '\n' :: more) where
  holds := h.holds
  longest l hl hpl := by
    rw [← List.append_assoc] at hl
    exact h.longest l (start_of_not_mem hl (hp l hpl)) hpl

theorem isAlphanumeric_of_isBlank (h : isBlank c = true) : isAlphanumeric c = false := by
  simp only [isBlank, Bool.or_eq_true, decide_eq_true_eq] at h
  rcases h with ((rfl | rfl) | rfl) | rfl <;> rfl

theorem IsSign.not_mem (h : IsSign l) (hc : isBlank c = true) : c ∉ l := by
  obtain ⟨kind, hmem⟩ := h
  have hall : (signs.all fun entry => entry.1.all fun d => !isBlank d) = true := rfl
  intro hl
  have hno := List.all_eq_true.1 (List.all_eq_true.1 hall (l, kind) hmem) c hl
  simp [hc] at hno

theorem IsName.not_mem (h : IsName l) (hc : isBlank c = true) : c ∉ l := by
  obtain ⟨d, ds, rfl, hd, hds⟩ := h
  have hno := isAlphanumeric_of_isBlank hc
  intro hmem
  rcases List.mem_cons.1 hmem with rfl | hmem
  · simp [isAlphanumeric, hd] at hno
  · simp [hds _ hmem] at hno

theorem IsDigits.not_mem (h : IsDigits l) (hc : isBlank c = true) : c ∉ l := by
  have hno := isAlphanumeric_of_isBlank hc
  intro hmem
  simp [isAlphanumeric, h.2 _ hmem] at hno

theorem IsNumeral.not_mem (h : IsNumeral l) (hc : isBlank c = true) : c ∉ l := by
  rcases h with h | ⟨whole, frac, rfl, hwhole, hfrac⟩
  · exact h.not_mem hc
  · intro hmem
    rcases List.mem_append.1 hmem with hmem | hmem
    · exact hwhole.not_mem hc hmem
    · rcases List.mem_cons.1 hmem with rfl | hmem
      · exact absurd hc (by decide)
      · exact hfrac.not_mem hc hmem

theorem OpensComment.of_append_blank (hc : isBlank c = true) (h : OpensComment (cs ++ c :: more)) :
    OpensComment cs := by
  have hno : c ≠ '/' ∧ c ≠ '*' := by
    constructor <;> rintro rfl <;> exact absurd hc (by decide)
  exact h.imp (start_of_not_mem · (by simp [hno])) (start_of_not_mem · (by simp [hno]))

/-- Whether a piece reaches the end of the text because nothing closes it. -/
def isOpen : Piece → Bool
  | openString _ | openComment _ => true
  | _ => false

theorem isOpen_of_flaw? {p : Piece} (h : p.flaw? = none) : p.isOpen = false := by
  cases p with
  | openString text => cases h
  | openComment text => cases h
  | _ => rfl

theorem Cut.append_line {p : Piece} (h : Cut p rest) (hp : p.isOpen = false) (more : List Char) :
    Cut p (rest ++ '\n' :: more) := by
  cases h with
  | sign mem longest noComment =>
    refine .sign mem (longest.append_line (fun _ h => h.not_mem rfl) more) fun hopens => ?_
    rw [← List.append_assoc] at hopens
    exact noComment (hopens.of_append_blank rfl)
  | name longest reserved =>
    exact .name (longest.append_line (fun _ h => h.not_mem rfl) more) reserved
  | number longest => exact .number (longest.append_line (fun _ h => h.not_mem rfl) more)
  | string noQuote => exact .string noQuote
  | blank mem => exact .blank mem
  | lineComment sameLine ends =>
    refine .lineComment sameLine (.inr ?_)
    rcases ends with rfl | ⟨cs, rfl⟩
    · exact ⟨more, rfl⟩
    · exact ⟨cs ++ '\n' :: more, rfl⟩
  | blockComment closes => exact .blockComment closes
  | illegal starts => exact .illegal starts
  | openString noQuote => cases hp
  | openComment staysOpen => cases hp

theorem Cuts.append_line {qs : List Piece} (h : Cuts ps cs) (hp : ∀ p ∈ ps, p.isOpen = false)
    (hq : Cuts qs more) :
    Cuts (ps ++ blank '\n' :: qs) (cs ++ '\n' :: more) := by
  induction h with
  | nil => exact .cons (.blank (by simp)) hq
  | @cons p ps rest head tail ih =>
    rw [List.append_assoc]
    have hrest := ih fun q hq => hp q (List.mem_cons_of_mem p hq)
    exact .cons (head.append_line (hp p (List.mem_cons_self ..)) more) hrest

theorem split_append_line (hp : ∀ p ∈ split cs, p.isOpen = false) :
    split (cs ++ '\n' :: more) = split cs ++ blank '\n' :: split more :=
  (cuts_iff.1 ((cuts_iff.2 rfl).append_line hp (cuts_iff.2 rfl))).symm

/-! ### Lines -/

theorem flaw?_of_complaints {line : Nat} (h : complaints line ps = []) : ∀ p ∈ ps, p.flaw? = none := by
  induction ps generalizing line with
  | nil => nofun
  | cons q ps ih =>
    unfold complaints at h
    dsimp only at h
    cases hq : q.flaw? with
    | some flaw => simp [hq] at h
    | none =>
      rw [hq] at h
      exact List.forall_mem_cons.2 ⟨hq, ih h⟩

theorem tokens_append (line : Nat) (ps qs : List Piece) :
    tokens line (ps ++ qs) = tokens line ps ++ tokens (lastLine line ps) qs := by
  induction ps generalizing line with
  | nil => rfl
  | cons p ps ih =>
    simp only [List.cons_append, tokens, ih, lastLine, List.foldl_cons]
    cases p.token? (lineAfter line p) <;> rfl

theorem complaints_append (line : Nat) (ps qs : List Piece) :
    complaints line (ps ++ qs) = complaints line ps ++ complaints (lastLine line ps) qs := by
  induction ps generalizing line with
  | nil => rfl
  | cons p ps ih =>
    simp only [List.cons_append, complaints, ih, lastLine, List.foldl_cons]
    cases p.flaw? <;> rfl

theorem tokens_add (line shift : Nat) (ps : List Piece) :
    tokens (line + shift) ps = (tokens line ps).map (Token.relined (· + shift)) := by
  induction ps generalizing line with
  | nil => rfl
  | cons p ps ih =>
    have hline : lineAfter (line + shift) p = lineAfter line p + shift := by
      unfold lineAfter
      omega
    simp only [tokens, hline, ih]
    cases p <;> rfl

theorem lastLine_eq (line : Nat) (ps : List Piece) :
    lastLine line ps = line + (ps.flatMap text).count '\n' := by
  induction ps generalizing line with
  | nil => rfl
  | cons p ps ih =>
    rw [lastLine, List.foldl_cons]
    change lastLine (lineAfter line p) ps = _
    rw [ih, lineAfter, List.flatMap_cons, List.count_append, Nat.add_assoc]

theorem complaints_add (line shift : Nat) (ps : List Piece) :
    complaints (line + shift) ps = (complaints line ps).map (Token.Complaint.relined (· + shift)) := by
  induction ps generalizing line with
  | nil => rfl
  | cons p ps ih =>
    have hline : lineAfter (line + shift) p = lineAfter line p + shift := by
      unfold lineAfter
      omega
    simp only [complaints, hline, ih]
    cases p <;> rfl

theorem complaints_eq_nil (h : ∀ p ∈ ps, p.flaw? = none) (line : Nat) : complaints line ps = [] := by
  induction ps generalizing line with
  | nil => rfl
  | cons p ps ih =>
    obtain ⟨hp, hps⟩ := List.forall_mem_cons.1 h
    simp only [complaints, hp]
    exact ih hps _

/-- A piece that is left open is complained about. -/
theorem isOpen_of_complaints {line : Nat}
    (h : ∀ c ∈ complaints line ps, c.flaw ≠ .unterminatedString ∧ c.flaw ≠ .unterminatedComment) :
    ∀ p ∈ ps, p.isOpen = false := by
  induction ps generalizing line with
  | nil => exact nofun
  | cons p ps ih =>
    have hps : ∀ c ∈ complaints (lineAfter line p) ps,
        c.flaw ≠ .unterminatedString ∧ c.flaw ≠ .unterminatedComment := by
      intro c hc
      refine h c ?_
      unfold complaints
      dsimp only
      split
      · exact List.mem_cons_of_mem _ hc
      · exact hc
    refine List.forall_mem_cons.2 ⟨?_, ih hps⟩
    cases p with
    | openString text => exact absurd rfl (h _ (List.mem_cons_self ..)).1
    | openComment text => exact absurd rfl (h _ (List.mem_cons_self ..)).2
    | _ => rfl

end Piece

open Piece

theorem Token.scan_tokens (source : String) :
    (scan source).tokens = Piece.tokens 1 (split source.toList) := rfl

theorem Token.scan_complaints (source : String) :
    (scan source).complaints = Piece.complaints 1 (split source.toList) := rfl

theorem Token.scan_lastLine (source : String) :
    (scan source).lastLine = 1 + source.toList.count '\n' := by
  have hcuts : Cuts (split source.toList) source.toList := cuts_iff.2 rfl
  change lastLine 1 (split source.toList) = _
  rw [lastLine_eq, hcuts.flatMap_text]

/-- Two texts with a line feed between them, of which the first leaves nothing open: what is found in
the second stands on later lines. -/
theorem Token.scan_of_closed {source source' : String}
    (h : ∀ p ∈ split source.toList, p.isOpen = false) :
    scan (source ++ "\n" ++ source') =
      ⟨(scan source).tokens ++ (scan source').tokens.map (Token.relined (· + (scan source).lastLine)),
        (scan source').lastLine + (scan source).lastLine,
        (scan source).complaints ++
          (scan source').complaints.map (Complaint.relined (· + (scan source).lastLine))⟩ := by
  have hsplit : split (source ++ "\n" ++ source').toList =
      split source.toList ++ blank '\n' :: split source'.toList := by
    have hlist : (source ++ "\n" ++ source').toList = source.toList ++ '\n' :: source'.toList := by
      simp [String.toList_append]
    rw [hlist]
    exact split_append_line h
  have hline : lineAfter (lastLine 1 (split source.toList)) (blank '\n') =
      1 + lastLine 1 (split source.toList) := by
    simp [lineAfter, Piece.text, Nat.add_comm]
  change Scan.mk (scan _).tokens (scan _).lastLine (scan _).complaints = _
  rw [Scan.mk.injEq]
  refine ⟨?_, ?_, ?_⟩
  · rw [scan_tokens, hsplit, tokens_append]
    change tokens 1 (split source.toList) ++ tokens (lineAfter _ _) _ = _
    rw [hline, tokens_add]
    rfl
  · simp only [scan_lastLine, String.toList_append, List.count_append]
    change 1 + (_ + 1 + _) = _
    omega
  · rw [scan_complaints, hsplit, complaints_append]
    change complaints 1 (split source.toList) ++ complaints (lineAfter _ _) _ = _
    rw [hline, complaints_add]
    rfl

theorem Token.scan_append_line {source source' : String} (h : (scan source).complaints = [])
    (h' : (scan source').complaints = []) :
    (scan (source ++ "\n" ++ source')).complaints = [] ∧
      (scan (source ++ "\n" ++ source')).tokens = (scan source).tokens ++
        (scan source').tokens.map (Token.relined (· + (scan source).lastLine)) := by
  have hclosed : ∀ p ∈ split source.toList, p.isOpen = false := fun p hp =>
    isOpen_of_flaw? (flaw?_of_complaints h p hp)
  rw [scan_of_closed hclosed]
  exact ⟨by simp [h, h'], rfl⟩

/-- Scanning is compositional: if the first of two texts leaves no string and no comment open, then
with a line feed between them their tokens are those of the first without its end mark and those of
the second, and the complaints are those of the first and those of the second, the latter further
down by as many lines as the first text has. -/
theorem Token.scan_append (source source' : String)
    (h : ∀ c ∈ (scan source).complaints,
      c.flaw ≠ .unterminatedString ∧ c.flaw ≠ .unterminatedComment) :
    (scan (source ++ "\n" ++ source')).all = (scan source).all.dropLast ++
        (scan source').all.map (Token.relined (· + (1 + source.toList.count '\n'))) ∧
      (scan (source ++ "\n" ++ source')).complaints = (scan source).complaints ++
        (scan source').complaints.map (Complaint.relined (· + (1 + source.toList.count '\n'))) := by
  rw [← scan_lastLine, scan_of_closed (isOpen_of_complaints h)]
  refine ⟨?_, rfl⟩
  rw [Scan.all, Scan.all, Scan.all, List.dropLast_concat, List.map_append, List.append_assoc]
  rfl

/-- The first text has an illegal character and ends with a number and a point; the second begins with
a digit, which the point does not reach, and leaves a string open two lines further down. -/
theorem Token.scan_append_openString :
    (∀ c ∈ (scan "@ 1.").complaints,
      c.flaw ≠ .unterminatedString ∧ c.flaw ≠ .unterminatedComment) ∧
    (scan ("@ 1." ++ "\n" ++ "5;\n\"x")).all = (scan "@ 1.").all.dropLast ++
      (scan "5;\n\"x").all.map (Token.relined (· + (1 + "@ 1.".toList.count '\n'))) ∧
    (scan ("@ 1." ++ "\n" ++ "5;\n\"x")).complaints =
      [⟨1, .unexpectedCharacter '@'⟩, ⟨3, .unterminatedString⟩] := by
  have hclosed : ∀ c ∈ (scan "@ 1.").complaints,
      c.flaw ≠ .unterminatedString ∧ c.flaw ≠ .unterminatedComment := by
    have hfirst : (scan "@ 1.").complaints = [⟨1, .unexpectedCharacter '@'⟩] := rfl
    simp [hfirst]
  obtain ⟨hall, hcomplaints⟩ := scan_append "@ 1." "5;\n\"x" hclosed
  exact ⟨hclosed, hall, hcomplaints⟩

end Lox
