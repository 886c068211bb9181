import Lox.Proofs.Token.Join

/-!
# Tokens with spaces between them

Every token ends before a blank and is found again there. So the lexemes of a text, with single spaces
between them, are a text that has the same tokens and no flaws, whatever stood between them before.
-/

namespace Lox

namespace Piece

variable {rest cs : List Char} {ps : List Piece}

/-! ### Nothing or a blank -/

def Stops (rest : List Char) : Prop := ∀ c ∈ rest.head?, isBlank c = true

theorem longest_of_stops {p : List Char → Prop} {lexeme : List Char} (h : p lexeme)
    (hp : ∀ l c, p l → isBlank c = true → c ∉ l) (hrest : Stops rest) : Longest p lexeme rest := by
  refine ⟨h, fun more hmore hpm => ?_⟩
  cases rest with
  | nil =>
    rw [List.append_nil] at hmore
    exact hmore.length_le
  | cons c rest => exact (start_of_not_mem hmore (hp more c hpm (hrest c rfl))).length_le

theorem OpensComment.append (h : OpensComment cs) (rest : List Char) : OpensComment (cs ++ rest) :=
  h.imp (·.trans (List.prefix_append cs rest)) (·.trans (List.prefix_append cs rest))

theorem OpensComment.of_stops (h : OpensComment (cs ++ rest)) (hrest : Stops rest) : OpensComment cs := by
  cases rest with
  | nil => rwa [List.append_nil] at h
  | cons c rest => exact h.of_append_blank (hrest c rfl)

theorem Cut.of_stops {kind : Token.Kind} {lexeme rest' : List Char} (h : Cut (token kind lexeme) rest)
    (hrest : Stops rest') : Cut (token kind lexeme) rest' := by
  cases h with
  | sign mem longest noComment =>
    refine .sign mem (longest_of_stops longest.holds (fun _ _ => IsSign.not_mem) hrest) ?_
    intro hopens
    exact noComment ((hopens.of_stops hrest).append rest)
  | name longest reserved =>
    exact .name (longest_of_stops longest.holds (fun _ _ => IsName.not_mem) hrest) reserved
  | number longest =>
    exact .number (longest_of_stops longest.holds (fun _ _ => IsNumeral.not_mem) hrest)
  | string noQuote => exact .string noQuote

/-! ### Spaces between pieces -/

def IsLexed (p : Piece) : Prop := p.isToken = true ∧ ∃ rest, Cut p rest

theorem IsLexed.cut {p : Piece} (h : IsLexed p) (hrest : Stops rest) : Cut p rest := by
  obtain ⟨htoken, before, hcut⟩ := h
  cases p with
  | token kind lexeme => exact hcut.of_stops hrest
  | _ => cases htoken

theorem isLexed_of_cuts (h : Cuts ps cs) : ∀ p ∈ ps.filter isToken, IsLexed p := by
  intro p hp
  obtain ⟨hmem, htoken⟩ := List.mem_filter.1 hp
  exact ⟨htoken, h.exists_cut p hmem⟩

theorem cuts_intersperse (h : ∀ p ∈ ps, IsLexed p) :
    Cuts (ps.intersperse (blank ' ')) ([' '].intercalate (ps.map text)) := by
  induction ps with
  | nil => exact .nil
  | cons p ps ih =>
    obtain ⟨hp, hps⟩ := List.forall_mem_cons.1 h
    cases ps with
    | nil =>
      have hlast : Cuts [p] (p.text ++ []) := .cons (hp.cut nofun) .nil
      simpa [List.intercalate] using hlast
    | cons q ps =>
      have hspace : Stops (' ' :: [' '].intercalate ((q :: ps).map text)) := by
        rintro c ⟨⟩
        rfl
      have hrest : Cuts (blank ' ' :: (q :: ps).intersperse (blank ' '))
          (' ' :: [' '].intercalate ((q :: ps).map text)) := .cons (.blank (by simp)) (ih hps)
      rw [List.intersperse_cons_cons, List.map_cons, List.map_cons, List.intercalate_cons_cons,
        List.append_assoc]
      exact .cons (hp.cut hspace) hrest

theorem flaw?_intersperse (h : ∀ p ∈ ps, p.isToken = true) :
    ∀ p ∈ ps.intersperse (blank ' '), p.flaw? = none := by
  induction ps with
  | nil => exact nofun
  | cons p ps ih =>
    obtain ⟨hp, hps⟩ := List.forall_mem_cons.1 h
    have hflaw : p.flaw? = none := by
      cases p with
      | token kind lexeme => rfl
      | _ => cases hp
    cases ps with
    | nil => exact List.forall_mem_cons.2 ⟨hflaw, nofun⟩
    | cons q ps =>
      rw [List.intersperse_cons_cons]
      exact List.forall_mem_cons.2 ⟨hflaw, List.forall_mem_cons.2 ⟨rfl, ih hps⟩⟩

end Piece

/-! ### What a token is apart from its line -/

def Token.content (t : Token) : Token.Kind × String × Literal := (t.kind, t.lexeme, t.literal)

/-- The lexemes of a text with single spaces between them. -/
def Token.respaced (source : String) : String :=
  " ".intercalate ((scan source).tokens.map (·.lexeme))

namespace Piece

def content? : Piece → Option (Token.Kind × String × Literal)
  | token kind lexeme => some (kind, String.ofList lexeme, Token.literalOf kind lexeme)
  | _ => none

theorem map_content_tokens (line : Nat) (ps : List Piece) :
    (tokens line ps).map Token.content = ps.filterMap content? := by
  induction ps generalizing line with
  | nil => rfl
  | cons p ps ih =>
    cases p with
    | token kind lexeme => exact congrArg (_ :: ·) (ih _)
    | _ => exact ih _

theorem map_lexeme_tokens (line : Nat) (ps : List Piece) :
    (tokens line ps).map (·.lexeme.toList) = (ps.filter isToken).map text := by
  induction ps generalizing line with
  | nil => rfl
  | cons p ps ih =>
    cases p with
    | token kind lexeme =>
      have hlexeme : (Token.ofLexeme kind lexeme (lineAfter line (token kind lexeme))).lexeme.toList =
          lexeme := String.toList_ofList
      exact congrArg₂ (· :: ·) hlexeme (ih _)
    | _ => exact ih _

theorem filterMap_content?_filter (ps : List Piece) :
    (ps.filter isToken).filterMap content? = ps.filterMap content? := by
  rw [List.filterMap_filter]
  congr 1
  funext p
  cases p <;> rfl

theorem filterMap_content?_intersperse (ps : List Piece) :
    (ps.intersperse (blank ' ')).filterMap content? = ps.filterMap content? := by
  induction ps with
  | nil => rfl
  | cons p ps ih =>
    cases ps with
    | nil => rfl
    | cons q ps =>
      rw [List.intersperse_cons_cons, List.filterMap_cons, List.filterMap_cons, ih]
      rfl

end Piece

namespace Token

open Piece

theorem map_content_all (s : Scan) :
    s.all.map content = s.tokens.map content ++ [(.eof, "", .nil)] := by
  rw [Scan.all, List.map_append]
  rfl

theorem split_respaced (source : String) :
    split (respaced source).toList =
      ((split source.toList).filter isToken).intersperse (blank ' ') := by
  have hcuts : Cuts (split source.toList) source.toList := cuts_iff.2 rfl
  have htext : (respaced source).toList =
      [' '].intercalate (((split source.toList).filter isToken).map text) := by
    rw [respaced, scan_tokens, String.toList_intercalate, List.map_map, ← map_lexeme_tokens 1]
    rfl
  rw [htext]
  exact (cuts_iff.1 (cuts_intersperse (isLexed_of_cuts hcuts))).symm

/-- The lexemes of a text, flawed or not, with single spaces between them are a text without flaws,
and its tokens are those of the text in kind, lexeme and value. -/
theorem scan_respaced (source : String) :
    (scan (respaced source)).complaints = [] ∧
      (scan (respaced source)).all.map content = (scan source).all.map content := by
  constructor
  · rw [scan_complaints, split_respaced]
    exact complaints_eq_nil (flaw?_intersperse fun p hp => (List.mem_filter.1 hp).2) 1
  · have htokens : (scan (respaced source)).tokens.map content =
        (scan source).tokens.map content := by
      rw [scan_tokens, scan_tokens, split_respaced, map_content_tokens, map_content_tokens,
        filterMap_content?_intersperse, filterMap_content?_filter]
    rw [map_content_all, map_content_all, htokens]

end Token

end Lox
