import Lox.Proofs.Nested
import Lox.Proofs.Outcome
import Lox.Proofs.Table
import Lox.Scope.Resolve
import Mathlib.Data.List.Forall2

/-!
# Walking a program with open scopes

Resolving a tree in which nothing is missing always succeeds, whatever is wrong with its names. An
expression leaves the names in the open scopes as they are, a statement adds the names it declares to the
innermost one, and either leaves the registers of the walk as it found them. No notice is ever taken back.
-/

namespace Lox

namespace Scope

open Outcome

variable {names : List String}

/-- The names that each open scope holds, innermost first. -/
def Resolution.held (r : Resolution) : List (Set String) := r.scopes.map Table.domain

def Resolution.Clean (r : Resolution) : Prop := ∀ token flaw, Notice.flawed token flaw ∉ r.notices

def extend (names : List String) : List (Set String) → List (Set String)
  | [] => []
  | scope :: outer => ({x | x ∈ names} ∪ scope) :: outer

@[simp] theorem extend_nil (scopes : List (Set String)) : extend [] scopes = scopes := by
  cases scopes <;> simp [extend]

theorem extend_extend (xs ys : List String) (scopes : List (Set String)) :
    extend ys (extend xs scopes) = extend (xs ++ ys) scopes := by
  cases scopes with
  | nil => rfl
  | cons scope outer =>
    simp only [extend, List.mem_append, List.cons.injEq, and_true]
    ext x
    simp only [Set.mem_union, Set.mem_ofPred_eq]
    grind

/-- An address leads to the nearest of some scopes that holds a name, or to none of them. -/
def Locates (scopes : List (Set String)) (name : String) : Address → Prop
  | .free => ∀ scope ∈ scopes, name ∉ scope
  | .hops depth =>
    (∃ scope, scopes[depth]? = some scope ∧ name ∈ scope) ∧
      ∀ scope ∈ scopes.take depth, name ∉ scope
  | .slot .. => False

theorem Locates.of_extend {scopes : List (Set String)} {x : String} {a : Address}
    (h : Locates (extend names scopes) x a) (hx : x ∉ names) :
    Locates scopes x a := by
  cases scopes with
  | nil => exact h
  | cons scope outer =>
    cases a with
    | slot depth index => exact h
    | free =>
      intro s hs
      rcases List.mem_cons.1 hs with rfl | hs
      · exact fun hxs => h _ (List.mem_cons_self ..) (Or.inr hxs)
      · exact h s (List.mem_cons_of_mem _ hs)
    | hops depth =>
      obtain ⟨⟨found, hfound, hmem⟩, hnear⟩ := h
      cases depth with
      | zero =>
        cases hfound
        exact ⟨⟨scope, rfl, hmem.resolve_left hx⟩, by simp⟩
      | succ depth =>
        refine ⟨⟨found, hfound, hmem⟩, ?_⟩
        intro s hs
        rcases List.mem_cons.1 hs with rfl | hs
        · exact fun hxs => hnear _ (List.mem_cons_self ..) (Or.inr hxs)
        · exact hnear s (List.mem_cons_of_mem _ hs)

namespace Resolving

/-! ### Single steps -/

section Steps

variable {r r' : Resolution} {u : Unit} {name : Token} {α : Type}

theorem closeScope_eq_ok : closeScope r = .ok u r' ↔ ∃ scope outer, r.scopes = scope :: outer ∧
    { r with
      scopes := outer
      notices := if r.warns then r.notices ++ unusedIn scope else r.notices } = r' := by
  unfold closeScope
  rw [bind_of_ok (get_eq_ok.2 ⟨rfl, rfl⟩)]
  cases r.scopes <;> simp [set_eq_ok, throw_eq_ok, and_assoc]

theorem declare_eq_ok : declare name r = .ok u r' ↔ r.scopes = [] ∧ r = r' ∨
    ∃ scope outer, r.scopes = scope :: outer ∧
      { r with
        scopes := scope.insert name.lexeme ⟨false, false⟩ :: outer
        notices := if scope.contains name.lexeme then
          r.notices ++ [.flawed name (.alreadyDeclared name.lexeme)] else r.notices } = r' := by
  unfold declare
  rw [bind_of_ok (get_eq_ok.2 ⟨rfl, rfl⟩)]
  cases r.scopes with
  | nil => simp [pure_eq_ok]
  | cons scope outer =>
    cases hc : scope.contains name.lexeme <;> simp [hc, modify_eq_ok, report, and_assoc]

theorem define_eq_ok : define name r = .ok u r' ↔ r.scopes = [] ∧ r = r' ∨
    ∃ scope outer, r.scopes = scope :: outer ∧ scope.contains name.lexeme = true ∧
      { r with scopes := scope.modify name.lexeme ({ · with defined := true }) :: outer } = r' := by
  unfold define
  rw [bind_of_ok (get_eq_ok.2 ⟨rfl, rfl⟩)]
  cases r.scopes with
  | nil => simp [pure_eq_ok]
  | cons scope outer =>
    cases hc : scope.contains name.lexeme <;> simp [hc, modify_eq_ok, throw_eq_ok, and_assoc]

theorem locate_eq_ok {form : Form} {a : Address} : locate form name r = .ok a r' ↔
    markNearest name.lexeme r.scopes = none ∧ .free = a ∧ r = r' ∨
      ∃ depth scopes, markNearest name.lexeme r.scopes = some (depth, scopes) ∧ .hops depth = a ∧
        { r with scopes := scopes, rows := r.rows ++ [⟨form, name, depth⟩] } = r' := by
  unfold locate
  rw [bind_of_ok (get_eq_ok.2 ⟨rfl, rfl⟩)]
  cases markNearest name.lexeme r.scopes with
  | none => simp [pure_eq_ok]
  | some found =>
    obtain ⟨depth, scopes⟩ := found
    simp only [bind_eq_ok, set_eq_ok, pure_eq_ok]
    simp [and_assoc]

theorem inScope_eq {table : Table Mark} {body : Resolving α} {a : α}
    (h : inScope table body r = .ok a r') : ∃ r₂,
      body { r with scopes := table :: r.scopes } = .ok a r₂ ∧ closeScope r₂ = .ok () r' := by
  simp only [inScope, openScope, bind_eq_ok, modify_eq_ok, pure_eq_ok] at h
  obtain ⟨_, _, rfl, _, r₂, hb, _, _, hc, rfl, rfl⟩ := h
  exact ⟨r₂, hb, hc⟩

end Steps

end Resolving

/-! ### What a walk leaves behind -/

/-- What is known of a name is as before, but something may refer to it now. -/
def Mark.Ages (mark mark' : Mark) : Prop :=
  mark'.defined = mark.defined ∧ (mark.used = true → mark'.used = true)

/-- A scope holds every name but some as before, only that something may refer to it now. -/
def Aged (names : List String) (scope scope' : Table Mark) : Prop :=
  ∀ x ∉ names, Option.Rel Mark.Ages (scope.get? x) (scope'.get? x)

/-- All scopes are as before, apart from some names in the innermost one. -/
inductive Kept (names : List String) : List (Table Mark) → List (Table Mark) → Prop where
  | nil : Kept names [] []
  | cons {scope scope' : Table Mark} {outer outer' : List (Table Mark)} (head : Aged names scope scope')
      (tail : List.Forall₂ (Aged []) outer outer') : Kept names (scope :: outer) (scope' :: outer')

theorem Aged.refl (names : List String) (scope : Table Mark) : Aged names scope scope := by
  intro x _
  cases scope.get? x with
  | none => exact .none
  | some mark => exact .some ⟨rfl, id⟩

theorem Aged.trans {xs ys : List String} {s s' s'' : Table Mark} (h : Aged xs s s')
    (h' : Aged ys s' s'') : Aged (xs ++ ys) s s'' := by
  intro x hx
  rw [List.mem_append, not_or] at hx
  have h₁ := h x hx.1
  have h₂ := h' x hx.2
  generalize s.get? x = a at h₁ ⊢
  generalize s'.get? x = b at h₁ h₂
  generalize s''.get? x = c at h₂ ⊢
  cases h₁ with
  | none =>
    cases h₂
    exact .none
  | some h₁ =>
    cases h₂ with
    | some h₂ => exact .some ⟨h₂.1.trans h₁.1, fun hu => h₂.2 (h₁.2 hu)⟩

theorem aged_modify {name : String} {f : Mark → Mark} (scope : Table Mark)
    (h : name ∈ names ∨ ∀ mark, Mark.Ages mark (f mark)) : Aged names scope (scope.modify name f) := by
  intro x hx
  rw [Table.get?_modify]
  split
  · next hxn =>
    have hf := h.resolve_left (hxn ▸ hx)
    cases scope.get? x with
    | none => exact .none
    | some mark => exact .some (hf mark)
  · exact Aged.refl names scope x hx

theorem forall₂_aged_refl (scopes : List (Table Mark)) : List.Forall₂ (Aged []) scopes scopes :=
  List.forall₂_same.2 fun scope _ => .refl [] scope

theorem forall₂_aged_trans {s s' s'' : List (Table Mark)} (h : List.Forall₂ (Aged []) s s')
    (h' : List.Forall₂ (Aged []) s' s'') : List.Forall₂ (Aged []) s s'' := by
  induction h generalizing s'' with
  | nil =>
    cases h'
    exact .nil
  | cons head _ ih =>
    cases h' with
    | cons head' tail' => exact .cons (head.trans head') (ih tail')

theorem Kept.of_forall₂ {scopes scopes' : List (Table Mark)} (h : List.Forall₂ (Aged []) scopes scopes') :
    Kept names scopes scopes' := by
  cases h with
  | nil => exact .nil
  | cons head tail => exact .cons (fun x _ => head x List.not_mem_nil) tail

theorem Kept.tail_forall₂ {scopes scopes' : List (Table Mark)} (h : Kept names scopes scopes') :
    List.Forall₂ (Aged []) scopes.tail scopes'.tail := by
  cases h with
  | nil => exact .nil
  | cons _ tail => exact tail

theorem Kept.trans {xs ys : List String} {s s' s'' : List (Table Mark)} (h : Kept xs s s')
    (h' : Kept ys s' s'') : Kept (xs ++ ys) s s'' := by
  cases h with
  | nil =>
    cases h'
    exact .nil
  | cons head tail =>
    cases h' with
    | cons head' tail' => exact .cons (head.trans head') (forall₂_aged_trans tail tail')

/-- The registers of the walk are the same. -/
structure Balanced (r r' : Resolution) : Prop where
  function? : r'.function? = r.function?
  inClass : r'.inClass = r.inClass
  inVariable : r'.inVariable = r.inVariable
  declaring? : r'.declaring? = r.declaring?
  warns : r'.warns = r.warns

theorem Balanced.inFunction (h : Balanced r r') : r'.inFunction = r.inFunction := by
  unfold Resolution.inFunction
  rw [h.function?]

/-- `r'` is reached from `r`, with the given names declared in the innermost scope. -/
structure Leads (r r' : Resolution) (names : List String) : Prop extends Balanced r r' where
  held : r'.held = extend names r.held
  kept : Kept names r.scopes r'.scopes
  notices : r.notices ⊆ r'.notices

namespace Leads

variable {r r' r'' : Resolution} {xs ys : List String}

/-- Only the notices and the used names may have changed. -/
theorem of_forall₂ (hb : Balanced r r') (hheld : r'.held = r.held)
    (hs : List.Forall₂ (Aged []) r.scopes r'.scopes) (hn : r.notices ⊆ r'.notices) : Leads r r' [] :=
  ⟨hb, by rw [hheld, extend_nil], .of_forall₂ hs, hn⟩

theorem refl (r : Resolution) : Leads r r [] :=
  of_forall₂ ⟨rfl, rfl, rfl, rfl, rfl⟩ rfl (forall₂_aged_refl _) fun _ h => h

/-- Where no scope is open, names are declared nowhere. -/
theorem of_nil (h : r.scopes = []) : Leads r r xs :=
  ⟨⟨rfl, rfl, rfl, rfl, rfl⟩, by simp [Resolution.held, h, extend], h ▸ .nil, fun _ hn => hn⟩

theorem trans (h : Leads r r' xs) (h' : Leads r' r'' ys) : Leads r r'' (xs ++ ys) where
  function? := h'.function?.trans h.function?
  inClass := h'.inClass.trans h.inClass
  inVariable := h'.inVariable.trans h.inVariable
  declaring? := h'.declaring?.trans h.declaring?
  warns := h'.warns.trans h.warns
  held := by rw [h'.held, h.held, extend_extend]
  kept := h.kept.trans h'.kept
  notices := fun _ hn => h'.notices (h.notices hn)

theorem congr (h : Leads r r' xs) (hxy : ∀ x, x ∈ xs ↔ x ∈ ys) : Leads r r' ys := by
  refine ⟨h.toBalanced, ?_, ?_, h.notices⟩
  · rw [h.held]
    cases r.held <;> simp only [extend, hxy]
  · have hkept := h.kept
    generalize r.scopes = scopes at hkept ⊢
    generalize r'.scopes = scopes' at hkept ⊢
    cases hkept with
    | nil => exact .nil
    | cons head tail => exact .cons (fun x hx => head x fun h => hx ((hxy x).1 h)) tail

/-- A walk between changes of the registers, which are put back. -/
theorem within {r₁ r₂ : Resolution} (h : Leads r₁ r₂ xs) (hb : Balanced r r')
    (h₁ : r₁.scopes = r.scopes ∧ r₁.notices = r.notices)
    (h₂ : r'.scopes = r₂.scopes ∧ r'.notices = r₂.notices) : Leads r r' xs where
  toBalanced := hb
  held := by
    have := h.held
    unfold Resolution.held at this ⊢
    rw [h₂.1, this, h₁.1]
  kept := h₁.1 ▸ h₂.1 ▸ h.kept
  notices := h₁.2 ▸ h₂.2 ▸ h.notices

theorem clean (h : Leads r r' xs) (hc : r'.Clean) : r.Clean :=
  fun token flaw hn => hc token flaw (h.notices hn)

end Leads

/-! ### A calculus of steps -/

variable {α β : Type}

/-- A step of resolving declares some names, and it fails only if something is missing. -/
def Completes (present : Bool) (names : List String) (x : Resolving α) (r : Resolution) : Prop :=
  match x r with
  | .ok _ r' => Leads r r' names
  | .error _ _ => present = false

namespace Completes

variable {x : Resolving α} {f : α → Resolving β} {g : α → β} {p q : Bool} {xs ys : List String}
  {r r' : Resolution} {a : α}

theorem leads (h : Completes p xs x r) (hx : x r = .ok a r') : Leads r r' xs := by
  unfold Completes at h
  rwa [hx] at h

theorem of_ok (hx : x r = .ok a r') (h : Leads r r' xs) : Completes p xs x r := by
  unfold Completes
  rwa [hx]

theorem pure (a : α) : Completes p [] (Pure.pure a) r := .refl r

theorem bind (hx : Completes p xs x r) (hf : ∀ a r', x r = .ok a r' → Completes q ys (f a) r') :
    Completes (p && q) (xs ++ ys) (x >>= f) r := by
  unfold Completes at hx ⊢
  cases hr : x r with
  | error d r' =>
    rw [hr] at hx
    rw [bind_of_error hr]
    simp only [hx, Bool.false_and]
  | ok a r' =>
    rw [hr] at hx
    rw [bind_of_ok hr]
    have hrest := hf a r' hr
    unfold Completes at hrest
    cases hb : f a r' with
    | ok b r'' =>
      rw [hb] at hrest
      exact hx.trans hrest
    | error d r'' =>
      rw [hb] at hrest
      simp only [hrest, Bool.and_false]

theorem get_bind {f : Resolution → Resolving β} (h : Completes p xs (f r) r) :
    Completes p xs (get >>= f) r := h

theorem next (hx : Completes p [] x r) (hf : ∀ a r', Completes q ys (f a) r') :
    Completes (p && q) ys (x >>= f) r := hx.bind fun a r' _ => hf a r'

theorem after (hx : Completes true [] x r) (hf : ∀ a r', Completes q ys (f a) r') :
    Completes q ys (x >>= f) r := hx.next hf

theorem before (hx : Completes p [] x r) (hf : ∀ a r', Completes true ys (f a) r') :
    Completes p ys (x >>= f) r := by
  rw [← Bool.and_true p]
  exact hx.next hf

theorem done (hx : Completes p xs x r) : Completes p xs (x >>= fun a => Pure.pure (g a)) r := by
  have h := hx.bind (q := true) fun a _ _ => pure (g a)
  rwa [Bool.and_true, List.append_nil] at h

end Completes

/-! ### Names -/

theorem markNearest_spec (name : String) (scopes : List (Table Mark)) :
    match markNearest name scopes with
    | some (depth, marked) =>
      Locates (scopes.map Table.domain) name (.hops depth) ∧
        marked.map Table.domain = scopes.map Table.domain ∧ List.Forall₂ (Aged []) scopes marked
    | none => Locates (scopes.map Table.domain) name .free := by
  induction scopes with
  | nil => simp [markNearest, Locates]
  | cons scope outer ih =>
    unfold markNearest
    by_cases hn : scope.contains name = true
    · rw [if_pos hn]
      refine ⟨⟨⟨_, rfl, hn⟩, by simp⟩, by simp, .cons (aged_modify scope ?_) (forall₂_aged_refl _)⟩
      exact .inr fun mark => ⟨rfl, fun _ => rfl⟩
    · rw [if_neg hn]
      cases hm : markNearest name outer with
      | none =>
        rw [hm] at ih
        intro s hs
        rcases List.mem_cons.1 hs with rfl | hs
        · exact hn
        · exact ih s hs
      | some found =>
        obtain ⟨depth, marked⟩ := found
        rw [hm] at ih
        obtain ⟨⟨⟨s, hs, hmem⟩, hnear⟩, hmarked, haged⟩ := ih
        refine ⟨⟨⟨s, hs, hmem⟩, ?_⟩, by simp [hmarked], .cons (.refl [] scope) haged⟩
        intro t ht
        rcases List.mem_cons.1 ht with rfl | ht
        · exact hn
        · exact hnear t ht

namespace Resolving

variable {p : Bool} {xs : List String} {r : Resolution}

variable {u : Unit} {a : α} {name : Token} {body init : Resolving α}

theorem completes_report (notice : Notice) : Completes p [] (report notice) r :=
  .of_ok rfl (.of_forall₂ ⟨rfl, rfl, rfl, rfl, rfl⟩ rfl (forall₂_aged_refl _)
    fun _ hn => List.mem_append_left _ hn)

theorem report_leads {notice : Notice} (h : report notice r = .ok u r') :
    Leads r r' [] ∧ notice ∈ r'.notices := by
  refine ⟨(completes_report (p := true) notice).leads h, ?_⟩
  obtain rfl := modify_eq_ok.1 h
  simp

theorem completes_locate (form : Form) (token : Token) : Completes p [] (locate form token) r := by
  have hspec := markNearest_spec token.lexeme r.scopes
  refine .get_bind ?_
  cases hm : markNearest token.lexeme r.scopes with
  | none => exact .pure _
  | some found =>
    rw [hm] at hspec
    exact .of_ok rfl (.of_forall₂ ⟨rfl, rfl, rfl, rfl, rfl⟩ hspec.2.1 hspec.2.2 fun _ hn => hn)

theorem locate_spec {form : Form} {token : Token} {a : Address} (h : locate form token r = .ok a r') :
    Leads r r' [] ∧ Locates r.held token.lexeme a := by
  refine ⟨(completes_locate (p := true) form token).leads h, ?_⟩
  have hspec := markNearest_spec token.lexeme r.scopes
  obtain ⟨hm, rfl, rfl⟩ | ⟨depth, scopes, hm, rfl, rfl⟩ := locate_eq_ok.1 h
  · rwa [hm] at hspec
  · rw [hm] at hspec
    exact hspec.1

theorem completes_locateInClass (form : Form) (keyword : Token) (flaw : Flaw) :
    Completes p [] (locateInClass form keyword flaw) r := by
  refine .get_bind ?_
  split
  · exact completes_locate form keyword
  · exact (completes_report _).done

theorem locateInClass_spec {form : Form} {keyword : Token} {flaw : Flaw} {a : Address}
    (h : locateInClass form keyword flaw r = .ok a r') :
    Leads r r' [] ∧ (r'.Clean → Locates r.held keyword.lexeme a) := by
  refine ⟨(completes_locateInClass (p := true) form keyword flaw).leads h, ?_⟩
  simp only [locateInClass, bind_eq_ok, get_eq_ok] at h
  obtain ⟨_, _, ⟨rfl, rfl⟩, h⟩ := h
  split at h
  · exact fun _ => (locate_spec h).2
  · simp only [bind_eq_ok, pure_eq_ok] at h
    obtain ⟨_, _, hr, rfl, rfl⟩ := h
    -- The flaw was reported, so the result is not clean.
    exact fun hc => absurd (report_leads hr).2 (hc _ _)

theorem completes_locateSuper (keyword : Token) : Completes p [] (locateSuper keyword) r := by
  refine .get_bind ?_
  split
  · exact (completes_report _).done
  · exact completes_locateInClass _ _ _

theorem locateSuper_leads {keyword : Token} {a : Address} (h : locateSuper keyword r = .ok a r') :
    Leads r r' [] :=
  (completes_locateSuper (p := true) keyword).leads h

theorem completes_declare (name : Token) : Completes p [name.lexeme] (declare name) r := by
  cases hs : r.scopes with
  | nil => exact .of_ok (a := ()) (declare_eq_ok.2 (.inl ⟨hs, rfl⟩)) (.of_nil hs)
  | cons scope outer =>
    refine .of_ok (a := ()) (declare_eq_ok.2 (.inr ⟨scope, outer, hs, rfl⟩))
      ⟨⟨rfl, rfl, rfl, rfl, rfl⟩, ?_, ?_, fun notice hn => ?_⟩
    · simp only [Resolution.held, hs, List.map_cons, Table.domain_insert, extend, List.mem_singleton]
      rfl
    · rw [hs]
      refine .cons (fun x hx => ?_) (forall₂_aged_refl outer)
      rw [Table.get?_insert, if_neg (by simpa using hx)]
      exact Aged.refl [] scope x List.not_mem_nil
    · dsimp only
      split
      · exact List.mem_append_left _ hn
      · exact hn

theorem declare_leads (h : declare name r = .ok u r') : Leads r r' [name.lexeme] :=
  (completes_declare (p := true) name).leads h

/-- A name can be completed where it was declared. -/
theorem completes_define (h : ∀ scope ∈ r.held.head?, name.lexeme ∈ scope) :
    Completes p [name.lexeme] (define name) r := by
  cases hs : r.scopes with
  | nil => exact .of_ok (a := ()) (define_eq_ok.2 (.inl ⟨hs, rfl⟩)) (.of_nil hs)
  | cons scope outer =>
    have hmem : name.lexeme ∈ scope.domain := h scope.domain (by simp [Resolution.held, hs])
    refine .of_ok (a := ()) (define_eq_ok.2 (.inr ⟨scope, outer, hs, hmem, rfl⟩))
      ⟨⟨rfl, rfl, rfl, rfl, rfl⟩, ?_, ?_, fun _ hn => hn⟩
    · simp [Resolution.held, hs, extend, hmem]
    · rw [hs]
      exact .cons (aged_modify scope (.inl (List.mem_singleton.2 rfl))) (forall₂_aged_refl outer)

theorem define_leads (h : define name r = .ok u r') : Leads r r' [name.lexeme] := by
  refine (completes_define (p := true) fun scope hscope => ?_).leads h
  obtain ⟨hs, -⟩ | ⟨first, outer, hs, hc, -⟩ := define_eq_ok.1 h
  · simp [Resolution.held, hs] at hscope
  · obtain rfl : first.domain = scope := by simpa [Resolution.held, hs] using hscope
    exact hc

theorem mem_head_of_declare {r₁ r₂ : Resolution} (hd : declare name r = .ok u r₁) (hl : Leads r₁ r₂ xs) :
    ∀ scope ∈ r₂.held.head?, name.lexeme ∈ scope := by
  intro scope hs
  rw [hl.held, (declare_leads hd).held, extend_extend] at hs
  cases hh : r.held with
  | nil => simp [hh, extend] at hs
  | cons first outer =>
    simp only [hh, extend, List.head?_cons, Option.mem_some_iff] at hs
    exact hs ▸ Or.inl (by simp)

/-- Declaring a name and completing the declaration at once. -/
theorem declare_define_leads {v : Unit} {r₁ : Resolution} (h : declare name r = .ok u r₁)
    (h' : define name r₁ = .ok v r') :
    Leads r r' [name.lexeme] :=
  ((declare_leads h).trans (define_leads h')).congr (by simp)

theorem completes_introduced {x : Resolving α} (hx : ∀ r, Completes p xs x r) :
    Completes p (name.lexeme :: xs) (do declare name; define name; x) r := by
  have hboth : Completes true [name.lexeme] (do declare name; define name) r := by
    have h := (completes_declare (p := true) name (r := r)).bind fun _ r₁ hd =>
      completes_define (p := true) (mem_head_of_declare hd (.refl r₁))
    unfold Completes at h ⊢
    split
    · next r' hr =>
      rw [hr] at h
      exact h.congr (by simp)
    · next hr =>
      rw [hr] at h
      exact h
  have h := hboth.bind fun _ r' _ => hx r'
  rwa [bind_assoc] at h

theorem completes_introduce (names : List Token) :
    Completes true (names.map (·.lexeme)) (introduce names) r := by
  induction names generalizing r with
  | nil => exact .pure _
  | cons name names ih => exact completes_introduced fun _ => ih

theorem introduce_leads {names : List Token} (h : introduce names r = .ok u r') :
    Leads r r' (names.map (·.lexeme)) :=
  (completes_introduce names).leads h

/-! ### Scopes that are opened and closed again -/

theorem closeScope_leads (h : closeScope r = .ok u r') :
    r'.held = r.held.tail ∧ r.notices ⊆ r'.notices ∧ r'.scopes = r.scopes.tail ∧ Balanced r r' := by
  obtain ⟨scope, outer, hs, rfl⟩ := closeScope_eq_ok.1 h
  refine ⟨by simp [Resolution.held, hs], fun n hn => ?_, by rw [hs]; rfl, ⟨rfl, rfl, rfl, rfl, rfl⟩⟩
  dsimp only
  split
  · exact List.mem_append_left _ hn
  · exact hn

/-- What is known of a computation inside a new scope: it starts with the scope open, and the
scopes around it are as before when it has ended. -/
theorem inScope_leads {names : Table Mark} (h : inScope names body r = .ok a r')
    (hbody : ∀ {r₁ r₂}, body r₁ = .ok a r₂ → ∃ xs, Leads r₁ r₂ xs) :
    Leads r r' [] ∧ ∃ r₁ r₂, body r₁ = .ok a r₂ ∧ r₁.held = names.domain :: r.held ∧
      (r'.Clean → r₂.Clean) := by
  obtain ⟨r₂, hb, hc⟩ := inScope_eq h
  obtain ⟨xs, hl⟩ := hbody hb
  obtain ⟨hheld, hnotices, hscopes, hbal⟩ := closeScope_leads hc
  refine ⟨.of_forall₂ ?_ ?_ ?_ fun _ hn => hnotices (hl.notices hn), _, r₂, hb, rfl,
    fun hclean token flaw hn => hclean token flaw (hnotices hn)⟩
  · exact ⟨hbal.function?.trans hl.function?, hbal.inClass.trans hl.inClass,
      hbal.inVariable.trans hl.inVariable, hbal.declaring?.trans hl.declaring?, hbal.warns.trans hl.warns⟩
  · -- What the body declared went to the scope that is gone.
    rw [hheld, hl.held]
    rfl
  · rw [hscopes]
    exact hl.kept.tail_forall₂

theorem completes_inScope {names : Table Mark} (hb : ∀ r, Completes p xs body r) :
    Completes p [] (inScope names body) r := by
  have hleads : ∀ {a r'}, inScope names body r = .ok a r' → Leads r r' [] := fun h =>
    (inScope_leads h fun hx => ⟨xs, (hb _).leads hx⟩).1
  have hbody := hb { r with scopes := names :: r.scopes }
  unfold Completes at hbody ⊢
  cases hx : body { r with scopes := names :: r.scopes } with
  | error d r₁ =>
    rw [hx] at hbody
    have herror : inScope names body r = .error d r₁ := (bind_of_ok rfl).trans (bind_of_error hx)
    rwa [herror]
  | ok a r₁ =>
    rw [hx] at hbody
    cases hs : r₁.scopes with
    | nil =>
      have := hbody.kept
      rw [hs] at this
      cases this
    | cons scope outer =>
      have hclose := (closeScope_eq_ok (u := ())).2 ⟨scope, outer, hs, rfl⟩
      have hok : inScope names body r = .ok a _ :=
        (bind_of_ok rfl).trans ((bind_of_ok hx).trans (bind_of_ok hclose))
      rw [hok]
      exact hleads hok

theorem completes_within {x : Resolving α} (enter leave : Resolution → Resolution)
    (hx : Completes p xs x (enter r)) (he : (enter r).scopes = r.scopes ∧ (enter r).notices = r.notices)
    (hl : ∀ r', (leave r').scopes = r'.scopes ∧ (leave r').notices = r'.notices)
    (hb : ∀ r', Balanced (enter r) r' → Balanced r (leave r')) :
    Completes p xs (do modify enter; let a ← x; modify leave; return a) r := by
  unfold Completes at hx ⊢
  have henter : (modify enter : Resolving Unit) r = .ok () (enter r) := rfl
  rw [bind_of_ok henter]
  cases hs : x (enter r) with
  | error d r' =>
    rw [hs] at hx
    rwa [bind_of_error hs]
  | ok a r' =>
    rw [hs] at hx
    rw [bind_of_ok hs]
    exact hx.within (hb r' hx.toBalanced) he (hl r')

theorem inFunction_leads {kind : FunctionKind} {params : List Token}
    (h : inFunction kind params body r = .ok a r')
    (hbody : ∀ {r₁ r₂}, body r₁ = .ok a r₂ → ∃ xs, Leads r₁ r₂ xs) :
    Leads r r' [] ∧ ∃ r₁ r₂, body r₁ = .ok a r₂ ∧
      r₁.held = {x | x ∈ params.map (·.lexeme)} :: r.held ∧ (r'.Clean → r₂.Clean) := by
  simp only [inFunction, bind_eq_ok, get_eq_ok, modify_eq_ok, pure_eq_ok] at h
  obtain ⟨_, _, ⟨rfl, rfl⟩, _, _, rfl, _, r₃, hs, _, _, rfl, rfl, rfl⟩ := h
  obtain ⟨hl, r₁, r₂, hb, hheld, hclean⟩ := inScope_leads hs (by
    intro r₁ r₂ hb
    obtain ⟨_, r₄, hp, hb⟩ := bind_eq_ok.1 hb
    obtain ⟨xs, hl⟩ := hbody hb
    exact ⟨_, (introduce_leads hp).trans hl⟩)
  obtain ⟨_, r₄, hp, hb⟩ := bind_eq_ok.1 hb
  refine ⟨hl.within ⟨rfl, hl.inClass, hl.inVariable, hl.declaring?, hl.warns⟩ ⟨rfl, rfl⟩ ⟨rfl, rfl⟩,
    r₄, r₂, hb, ?_, hclean⟩
  rw [(introduce_leads hp).held, hheld, Table.domain_empty]
  simp [extend, Resolution.held]

theorem completes_inFunction {kind : FunctionKind} {params : List Token}
    (hb : ∀ r, Completes p xs body r) : Completes p [] (inFunction kind params body) r := by
  have hscope : ∀ r, Completes p [] (inScope .empty do introduce params; body) r := fun r =>
    completes_inScope fun _ => (completes_introduce params).bind fun _ r₁ _ => hb r₁
  exact completes_within ({ · with function? := some kind }) ({ · with function? := r.function? })
    (hscope _) ⟨rfl, rfl⟩ (fun _ => ⟨rfl, rfl⟩) fun _ h => ⟨rfl, h.inClass, h.inVariable, h.declaring?, h.warns⟩

theorem inClass_leads (h : inClass body r = .ok a r') :
    ∃ r₁ r₂, body r₁ = .ok a r₂ ∧ r₁.held = r.held ∧ r'.notices = r₂.notices := by
  simp only [inClass, bind_eq_ok, get_eq_ok, modify_eq_ok, pure_eq_ok] at h
  obtain ⟨_, _, ⟨rfl, rfl⟩, _, _, rfl, _, r₂, hb, _, _, rfl, rfl, rfl⟩ := h
  exact ⟨_, r₂, hb, rfl, rfl⟩

theorem completes_inClass (hb : ∀ r, Completes p xs body r) : Completes p xs (inClass body) r :=
  completes_within ({ · with inClass := true }) ({ · with inClass := r.inClass }) (hb _) ⟨rfl, rfl⟩
    (fun _ => ⟨rfl, rfl⟩) fun _ h => ⟨h.function?, rfl, h.inVariable, h.declaring?, h.warns⟩

theorem inVariable_eq_ok :
    inVariable name init r = .ok a r' ↔
      ∃ r₁, init { r with inVariable := true, declaring? := some name.lexeme } = .ok a r₁ ∧
        { r₁ with inVariable := r.inVariable, declaring? := r.declaring? } = r' := by
  unfold inVariable
  dsimp only
  split
  · next hi => simp [hi]
  · next hi => simp [hi]

theorem completes_inVariable (hi : ∀ r, Completes p xs init r) :
    Completes p xs (inVariable name init) r := by
  have hinit := hi { r with inVariable := true, declaring? := some name.lexeme }
  unfold Completes inVariable at *
  cases hr : init { r with inVariable := true, declaring? := some name.lexeme } with
  | ok a r' =>
    simp only [hr] at hinit ⊢
    exact hinit.within ⟨hinit.function?, hinit.inClass, rfl, rfl, hinit.warns⟩ ⟨rfl, rfl⟩ ⟨rfl, rfl⟩
  | error d r' =>
    simp only [hr] at hinit ⊢
    exact hinit

@[simp] theorem domain_implicit (name : String) : (implicit name).domain = {name} := by
  simp only [implicit, Table.domain_insert, Table.domain_empty]
  exact insert_empty_eq name

def around (hasSuper : Bool) (scopes : List (Set String)) : List (Set String) :=
  {"this"} :: if hasSuper then {"super"} :: scopes else scopes

theorem classBody_leads {hasSuper : Bool} {methods : Resolving α}
    (h : classBody hasSuper methods r = .ok a r')
    (hbody : ∀ {r₁ r₂}, methods r₁ = .ok a r₂ → ∃ xs, Leads r₁ r₂ xs) :
    Leads r r' [] ∧ ∃ r₁ r₂, methods r₁ = .ok a r₂ ∧ r₁.held = around hasSuper r.held ∧
      (r'.Clean → r₂.Clean) := by
  cases hasSuper with
  | false =>
    obtain ⟨hl, r₁, r₂, hb, hheld, hclean⟩ := inScope_leads h hbody
    exact ⟨hl, r₁, r₂, hb, by simp [hheld, around], hclean⟩
  | true =>
    obtain ⟨hl, r₁, r₂, hb, hheld, hclean⟩ := inScope_leads h
      fun hb => ⟨_, (inScope_leads hb hbody).1⟩
    obtain ⟨-, r₃, r₄, hb', hheld', hclean'⟩ := inScope_leads hb hbody
    exact ⟨hl, r₃, r₄, hb', by simp [hheld', hheld, around], fun hc => hclean' (hclean hc)⟩

theorem completes_classBody {hasSuper : Bool} {methods : Resolving α}
    (hb : ∀ r, Completes p xs methods r) : Completes p [] (classBody hasSuper methods) r := by
  cases hasSuper with
  | false => exact completes_inScope hb
  | true => exact completes_inScope fun _ => completes_inScope hb

theorem completes_superclass (name : Token) (superclass? : Option (Token × Address)) :
    Completes p [] (superclass name superclass?) r := by
  cases superclass? with
  | none => exact .pure _
  | some entry =>
    obtain ⟨parent, old⟩ := entry
    have hlocate : ∀ r, Completes p [] (do return some (parent, ← locate .variable parent)) r :=
      fun r => (completes_locate _ _).done
    unfold superclass
    dsimp only
    split
    · exact (completes_report _).after fun _ _ => hlocate _
    · exact hlocate r

theorem superclass_spec {superclass? resolved? : Option (Token × Address)}
    (h : superclass name superclass? r = .ok resolved? r') :
    Leads r r' [] ∧ resolved?.isSome = superclass?.isSome ∧
      ∀ parent a, resolved? = some (parent, a) → r'.Clean →
        name.lexeme ≠ parent.lexeme ∧ Locates r.held parent.lexeme a := by
  refine ⟨(completes_superclass (p := true) name superclass?).leads h, ?_⟩
  cases superclass? with
  | none =>
    obtain ⟨rfl, rfl⟩ := pure_eq_ok.1 h
    exact ⟨rfl, by simp⟩
  | some entry =>
    obtain ⟨parent, old⟩ := entry
    unfold superclass at h
    dsimp only at h
    split at h
    · simp only [bind_eq_ok, pure_eq_ok] at h
      obtain ⟨_, r₁, hr, a, r₂, ha, rfl, rfl⟩ := h
      exact ⟨rfl, fun _ _ _ hc =>
        absurd ((locate_spec ha).1.notices (report_leads hr).2) (hc _ _)⟩
    · next hne =>
      simp only [bind_eq_ok, pure_eq_ok] at h
      obtain ⟨a, r₂, ha, rfl, rfl⟩ := h
      refine ⟨rfl, ?_⟩
      rintro _ _ ⟨⟩ -
      exact ⟨hne, (locate_spec ha).2⟩

theorem completes_checked (keyword : Token) (hb : ∀ r, Completes p xs body r) :
    Completes p xs (do
      unless (← get).inFunction do report (.flawed keyword .returnOutsideFunction)
      body) r := by
  refine .get_bind ?_
  dsimp only
  split
  · exact hb r
  · exact (completes_report _).after fun _ r₁ => hb r₁

theorem completes_varDecl {g : α → β} (hi : ∀ r, Completes p [] init r) :
    Completes p [name.lexeme]
      (do declare name; let a ← inVariable name init; define name; return g a) r := by
  have h : Completes p [name.lexeme, name.lexeme]
      (do declare name; let a ← inVariable name init; define name; return g a) r := by
    refine (completes_declare (p := true) name).bind fun _ r₁ hd => ?_
    have hinit : Completes p [] (inVariable name init) r₁ := completes_inVariable hi
    have hrest := hinit.bind (q := true) fun a r₂ hx =>
      (completes_define (mem_head_of_declare hd (hinit.leads hx))).done (g := fun _ => g a)
    rwa [Bool.and_true] at hrest
  unfold Completes at h ⊢
  split
  · next hr =>
    rw [hr] at h
    exact h.congr (by simp)
  · next hr => rwa [hr] at h

end Resolving

end Scope

open Scope Scope.Resolving Outcome

mutual

theorem Expr.resolve_completes : ∀ (e : Expr) (r : Resolution),
    Completes (e.all Node.isPresent) [] e.resolve r
  | .gap, _ => rfl
  | .literal _, _ => .pure _
  | .grouping body, r | .unary _ body, r | .get body _, r => (body.resolve_completes r).done
  | .binary left _ right, r | .logical left _ right, r =>
    (left.resolve_completes r).next fun _ r₁ => (right.resolve_completes r₁).done
  | .variable name _, _ => (completes_locate _ name).done
  | .assign name _ value, r =>
    (value.resolve_completes r).before fun _ _ => (completes_locate _ name).done
  | .call callee _ arguments, r =>
    (callee.resolve_completes r).next fun _ r₁ => (Expr.resolveAll_completes arguments r₁).done
  | .lambda _ body, _ => (completes_inFunction (Stmt.resolveAll_completes body)).done
  | .set object name value, r => by
    have h : Completes (value.all Node.isPresent && object.all Node.isPresent) []
        (Expr.set object name value).resolve r :=
      (value.resolve_completes r).next fun _ r₁ => (object.resolve_completes r₁).done
    rwa [Bool.and_comm] at h
  | .this keyword _, _ => (completes_locateInClass _ keyword _).done
  | .super keyword _ _, _ => (completes_locateSuper keyword).done
  | .inner keyword _ _, _ => (completes_locateInClass _ keyword _).done

theorem Expr.resolveAll_completes : ∀ (es : List Expr) (r : Resolution),
    Completes (Expr.allOf Node.isPresent es) [] (Expr.resolveAll es) r
  | [], _ => .pure _
  | e :: es, r => (e.resolve_completes r).next fun _ r₁ => (Expr.resolveAll_completes es r₁).done

theorem Stmt.resolve_completes : ∀ (s : Stmt) (r : Resolution),
    Completes (s.all Node.isPresent) s.declared s.resolve r
  | .gap, _ => rfl
  | .bare value, r | .expression value, r | .print value, r => (value.resolve_completes r).done
  | .varDecl _ none, _ => completes_introduced fun _ => .pure _
  | .varDecl _ (some init), _ => completes_varDecl init.resolve_completes
  | .block body, _ => (completes_inScope (Stmt.resolveAll_completes body)).done
  | .ifStmt condition onTrue none, r | .whileStmt condition onTrue, r =>
    (condition.resolve_completes r).next fun _ r₁ => (onTrue.resolve_completes r₁).done
  | .ifStmt condition onTrue (some onFalse), r =>
    (condition.resolve_completes r).next fun _ r₁ =>
      (onTrue.resolve_completes r₁).bind fun _ r₂ _ => (onFalse.resolve_completes r₂).done
  | .breakStmt _, _ => .pure _
  | .funDecl f, _ => completes_introduced fun r => (f.resolve_completes _ r).done
  | .classDecl name superclass? methods, _ => completes_inClass fun _ => completes_introduced fun _ =>
      (completes_superclass name superclass?).after fun _ _ =>
        (completes_classBody (Function.resolveAll_completes methods)).done
  | .returnStmt keyword none, _ => completes_checked keyword fun _ => .pure _
  | .returnStmt keyword (some value), _ => completes_checked keyword fun r =>
      (value.resolve_completes r).done

theorem Stmt.resolveAll_completes : ∀ (ss : List Stmt) (r : Resolution),
    Completes (Stmt.allOf Node.isPresent ss) (ss.flatMap Stmt.declared) (Stmt.resolveAll ss) r
  | [], _ => .pure _
  | s :: ss, r => (s.resolve_completes r).bind fun _ r₁ _ => (Stmt.resolveAll_completes ss r₁).done

theorem Function.resolve_completes : ∀ (f : Function) (kind : FunctionKind) (r : Resolution),
    Completes (f.all Node.isPresent) [] (f.resolve kind) r
  | ⟨_, _, body, _, _⟩, _, _ => (completes_inFunction (Stmt.resolveAll_completes body)).done

theorem Function.resolveAll_completes : ∀ (fs : List Function) (r : Resolution),
    Completes (Function.allOf Node.isPresent fs) [] (Function.resolveAll fs) r
  | [], _ => .pure _
  | f :: fs, r => (f.resolve_completes _ r).next fun _ r₁ => (Function.resolveAll_completes fs r₁).done

end

variable {r r' : Resolution}

theorem Expr.resolve_leads (e : Expr) {e' : Expr} (h : e.resolve r = .ok e' r') : Leads r r' [] :=
  (e.resolve_completes r).leads h

theorem Expr.resolveAll_leads (es : List Expr) {es' : List Expr}
    (h : Expr.resolveAll es r = .ok es' r') : Leads r r' [] := (Expr.resolveAll_completes es r).leads h

theorem Stmt.resolve_leads (s : Stmt) {s' : Stmt} (h : s.resolve r = .ok s' r') :
    Leads r r' s.declared := (s.resolve_completes r).leads h

theorem Stmt.resolveAll_leads (ss : List Stmt) {ss' : List Stmt}
    (h : Stmt.resolveAll ss r = .ok ss' r') : Leads r r' (ss.flatMap Stmt.declared) := (Stmt.resolveAll_completes ss r).leads h

theorem Function.resolve_leads (f : Function) {kind : FunctionKind} {f' : Function}
    (h : f.resolve kind r = .ok f' r') : Leads r r' [] := (f.resolve_completes kind r).leads h

theorem Function.resolveAll_leads (fs : List Function) {fs' : List Function}
    (h : Function.resolveAll fs r = .ok fs' r') : Leads r r' [] :=
  (Function.resolveAll_completes fs r).leads h

theorem Stmt.resolveAll_of_present {ss : List Stmt} (h : Stmt.allOf Node.isPresent ss = true)
    (r : Resolution) : ∃ ss' r', Stmt.resolveAll ss r = .ok ss' r' := by
  have hc := Stmt.resolveAll_completes ss r
  unfold Completes at hc
  cases hr : Stmt.resolveAll ss r with
  | ok ss' r' => exact ⟨ss', r', rfl⟩
  | error d r' =>
    rw [hr, h] at hc
    cases hc

theorem Scope.resolve_of_ok {warns : Bool} {ss program : List Stmt}
    (h : Stmt.resolveAll ss (.start warns) = .ok program r) :
    Scope.resolve warns ss = ⟨.ok program, r⟩ := by
  unfold Scope.resolve
  rw [h]

end Lox
