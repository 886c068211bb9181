import Lox.Proofs.Machine.Written
import Lox.Proofs.Scope.Forms
import Lox.Proofs.Token.Munch

/-!
# Sessions that are given texts

A session to which only texts were given, and no trees, runs what texts can say.
-/

namespace Lox

theorem Token.not_reserved {source : String} {t : Token} (ht : t ∈ (scan source).tokens)
    (hk : t.kind = .identifier) : ∀ entry ∈ keywords, t.lexeme.toList ≠ entry.1 := by
  have hcuts : Piece.Cuts (Piece.split source.toList) source.toList := Piece.cuts_iff.2 rfl
  obtain ⟨kind, lexeme, here, hmem, rfl⟩ := Piece.mem_tokens ht
  obtain ⟨rest, hcut⟩ := hcuts.exists_cut _ hmem
  obtain rfl : kind = .identifier := hk
  cases hcut with
  | sign mem =>
    have hkind : Kind.identifier ∈ Piece.signs.map Prod.snd := List.mem_map_of_mem mem
    simp [Piece.signs] at hkind
  | name _ reserved =>
    rcases reserved with hlookup | ⟨hfree, -⟩
    · obtain ⟨before, after, hwords, -⟩ := List.lookup_eq_some_iff.1 hlookup
      have hkind : Kind.identifier ∈ keywords.map Prod.snd := by
        rw [hwords]
        simp
      simp [keywords] at hkind
    · simpa [ofLexeme] using hfree

theorem Token.keyword_lexeme {source : String} {t : Token} (ht : t ∈ (scan source).tokens) :
    ∀ entry ∈ keywords, t.kind = entry.2 → t.lexeme.toList = entry.1 := by
  intro entry hentry hk
  have hkind : t.kind ∈ keywords.map Prod.snd := hk ▸ List.mem_map_of_mem hentry
  have hcuts : Piece.Cuts (Piece.split source.toList) source.toList := Piece.cuts_iff.2 rfl
  obtain ⟨kind, lexeme, here, hmem, rfl⟩ := Piece.mem_tokens ht
  obtain ⟨rest, hcut⟩ := hcuts.exists_cut _ hmem
  change kind ∈ _ at hkind
  cases hcut with
  | sign mem =>
    have hdisjoint : ∀ k ∈ Piece.signs.map Prod.snd, k ∉ keywords.map Prod.snd := by decide
    exact absurd hkind (hdisjoint kind (List.mem_map_of_mem mem))
  | name _ reserved =>
    rcases reserved with hlookup | ⟨-, rfl⟩
    · obtain ⟨before, after, hwords, -⟩ := List.lookup_eq_some_iff.1 hlookup
      have hword : (lexeme, kind) ∈ keywords := by simp [hwords]
      have hinj : ∀ a ∈ keywords, ∀ b ∈ keywords, a.2 = b.2 → a.1 = b.1 := by decide
      simpa [ofLexeme] using hinj _ hword _ hentry hk
    · simp [keywords] at hkind
  | number _ => simp [keywords] at hkind
  | string _ => simp [keywords] at hkind

/-- No name in a text is a reserved word. -/
theorem Token.names_unreserved {words : List String} (hw : ∀ x ∈ words, ∃ kind, (x.toList, kind) ∈ keywords)
    {source : String} {t : Token} (ht : t ∈ (scan source).tokens) :
    Tree.Names (fun name => !words.contains name.lexeme) t := by
  intro hk
  have hfree : t.lexeme ∉ words := fun hmem =>
    let ⟨_, hkind⟩ := hw _ hmem
    not_reserved ht hk _ hkind rfl
  simpa using hfree

/-- A variable that a node binds is one of the names it is written with. -/
theorem Node.mem_words_of_bound {node : Node} {name : Token} (h : name ∈ node.bound) :
    (Token.Kind.identifier, name) ∈ node.words := by
  unfold bound at h
  split at h
  · exact List.mem_singleton.1 h ▸ List.mem_singleton.2 rfl
  · exact List.mem_singleton.1 h ▸ List.mem_singleton.2 rfl
  · exact List.mem_map_of_mem h
  · simpa [words] using h
  · rcases List.mem_cons.1 h with rfl | h
    · simp [words]
    · obtain ⟨f, hf, hparam⟩ := List.mem_flatMap.1 h
      exact List.mem_append_right _ (List.mem_flatMap.2 ⟨f, hf, List.mem_map_of_mem hparam⟩)
  · cases h

namespace Session

theorem this_reserved : ∀ x ∈ ["this"], ∃ kind, (x.toList, kind) ∈ Token.keywords := by
  intro x hx
  rw [List.mem_singleton.1 hx]
  exact ⟨.kwThis, by simp [Token.keywords]⟩

theorem texts_worded {good : Token → Bool}
    (h : ∀ source, ∀ t ∈ (Token.scan source).tokens, Tree.Names good t) :
    Texts fun node => node.all (Node.isWorded (Tree.isNameless good)) = true where
  parsed source :=
    Stmt.allOf_iff.1 (Tree.parse_worded fun t ht => Tree.isNameless_of_names (h source t ht))
  resolved {source _} hr := by
    have hparsed := Tree.parse_worded fun t ht => Tree.isNameless_of_names (h source t ht)
    exact Stmt.allOf_iff.1 (Scope.resolve_worded hparsed hr)
  echoed h := Node.all_part h (by simp [Node.parts])
  expression {source _} he :=
    Tree.parseExpression_worded (fun t ht => Tree.isNameless_of_names (h source t ht)) he

theorem Texts.mono {p q : Node → Bool} (ht : Texts fun node => node.all p = true)
    (h : ∀ node, p node = true → q node = true) : Texts fun node => node.all q = true where
  parsed source s hs := Node.all_mono h (ht.parsed source s hs)
  resolved hr s hs := Node.all_mono h (ht.resolved hr s hs)
  echoed hn := Node.all_part hn (by simp [Node.parts])
  expression he := Node.all_mono h (ht.expression he)

/-- What is read from a text gives no variable and no parameter a name that is a reserved word. -/
theorem texts_spared {words : List String} (hw : ∀ x ∈ words, ∃ kind, (x.toList, kind) ∈ Token.keywords) :
    Texts fun node => node.all (Node.spares words) = true :=
  (texts_worded fun _ _ ht => Token.names_unreserved hw ht).mono fun _ h =>
    List.all_eq_true.2 fun _ hn => Tree.good_of_isWorded h (Node.mem_words_of_bound hn)

theorem texts_written : Texts fun node => node.all Node.isWritten = true :=
  (texts_worded fun _ _ ht hk => by simpa using Token.names_unreserved this_reserved ht hk).mono
    fun _ => Tree.isNamed_of_isWorded

/-- The sessions that are reached by what a user may ask for with texts. -/
inductive Told : Session → Prop where
  | new (attached : Bool) (clock : Clock) : Told (new attached clock)
  | run {s : Session} (h : Told s) (source : String) (echoes : Bool) :
      Told (s.left (run source echoes))
  | runUnresolved {s : Session} (h : Told s) (source : String) :
      Told (s.left (runUnresolved source))
  | evaluate {s : Session} (h : Told s) (source : String) : Told (s.left (evaluate source))
  | prompt {s : Session} (h : Told s) (ending : Prompt.Ending) (lines : List String) :
      Told (s.left (prompt ending lines))
  | runScript {s : Session} (h : Told s) (path : String) (debug : Bool)
      (contents : Script.Contents) : Told (s.left (runScript path debug contents))
  | setDebug {s : Session} (h : Told s) (on : Bool) : Told (s.left (setDebug on))
  | clearFlags {s : Session} (h : Told s) : Told (s.left clearFlags)

/-- The machine has still run only nodes that pass a test. -/
def StaysRan (p : Node → Bool) (s s' : Session) : Prop := s.machine.Ran p → s'.machine.Ran p

section Ran

variable {p : Node → Bool} (ht : Texts fun node => node.all p = true)

include ht

theorem ran_law : Law (fun node => node.all p = true) (StaysRan p) where
  toTexts := ht
  refl _ hm := hm
  trans hs hs' hm := hs' (hs hm)
  node {node} hn := by
    intro s
    unfold runNode onMachine
    cases hrun : Eval.run Eval.bound node s.machine with
    | ok v m => exact fun hm => hm.ended hn (.inl ⟨v, hrun⟩)
    | error e m => exact fun hm => hm.ended hn (.inr ⟨e, hrun⟩)
  write _ _ hm := hm.aside rfl rfl rfl rfl
  note _ _ _ hm := hm
  start _ hm := hm

omit ht in
theorem ran_left {α : Type} {x : Step α} (hx : Step.Follows (StaysRan p) x) {s : Session}
    (hm : s.machine.Ran p) : (s.left x).machine.Ran p := by
  unfold left
  cases hrun : x s with
  | ok a s' => exact hx.ok hrun hm
  | error e s' => exact hx.error hrun hm

/-- A session that is given texts runs only nodes that pass a test, if what is read from texts does. -/
theorem Told.ran {s : Session} (hs : s.Told) : s.machine.Ran p := by
  have hlaw := ran_law ht
  have hdebug : ∀ on, Step.Follows (StaysRan p) (Session.setDebug on) :=
    fun _ _ hm => hm.aside rfl rfl rfl rfl
  induction hs with
  | new attached clock => exact .start false clock
  | run _ source echoes ih => exact ran_left (follows_run hlaw source echoes) ih
  | runUnresolved _ source ih => exact ran_left (follows_runUnresolved hlaw source) ih
  | evaluate _ source ih => exact ran_left (follows_evaluate hlaw source) ih
  | prompt _ ending lines ih => exact ran_left (follows_prompt hlaw ending lines) ih
  | runScript _ path debug contents ih =>
    exact ran_left (follows_runScript hlaw hdebug path debug contents) ih
  | setDebug _ on ih => exact ran_left (hdebug on) ih
  | clearFlags _ ih => exact ih

end Ran

/-- A session that is given texts has run nothing that binds a variable called `this`. -/
theorem Told.spared {s : Session} (hs : s.Told) : s.machine.Ran (Node.spares ["this"]) :=
  hs.ran (texts_spared this_reserved)

theorem Told.written {s : Session} (hs : s.Told) : s.machine.Written := (hs.ran texts_written).written

end Session

end Lox
