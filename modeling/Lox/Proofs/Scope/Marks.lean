import Lox.Proofs.Scope.Usage

/-!
# What the walk marks as used

While a program is resolved without a flaw, the marks in the open scopes tell which declarations have been
referred to, and a scope that is closed reports those that have not.
-/

namespace Lox

/-- The words that stand for variables and are no names. -/
def Scope.reserved : List String := ["this", "inner"]

/-- Whether a token is not spelled like a word that stands for a variable and is no name. -/
def Token.isPlain (t : Token) : Bool := !Scope.reserved.contains t.lexeme

/-- Whether the words of a node are spelled as texts spell them: `this` and `inner` are, and no name that
is declared is spelled like one of them. -/
def Node.isSpelled : Node → Bool
  | .expr (.this keyword _) | .expr (.inner keyword _ _) => !keyword.isPlain
  | .expr (.super ..) => false
  | .expr (.lambda params _) => params.all Token.isPlain
  | .stmt (.varDecl name _) => name.isPlain
  | .stmt (.funDecl f) => f.name.isPlain && f.params.all Token.isPlain
  | .stmt (.classDecl name _ methods) => name.isPlain && methods.all fun f => f.params.all Token.isPlain
  | _ => true

/-- What a walk did: the names that it declared and those whose declarations it completed in the innermost
scope, the references that it made, and the scopes that it opened and closed. -/
structure Scope.Trail where
  declared : List String := []
  completed : List String := []
  uses : List (Nat × String) := []
  closed : List Opening := []

/-- What is done inside a scope. -/
def Opening.trail (scope : Opening) (closed : List Opening) : Scope.Trail :=
  ⟨scope.declarations, scope.declarations, Stmt.usesOf scope.body, closed⟩

def Expr.trail (e : Expr) : Scope.Trail := { uses := e.uses, closed := e.closings }

def Stmt.trail (s : Stmt) : Scope.Trail := ⟨s.declared, s.declared, s.uses, s.closings⟩

def Stmt.trailOf (ss : List Stmt) : Scope.Trail :=
  ⟨ss.flatMap Stmt.declared, ss.flatMap Stmt.declared, Stmt.usesOf ss, Stmt.closingsOf ss⟩

namespace Scope

open Outcome

/-! ### Marks -/

/-- What is known of a name in the scope that is `depth` scopes further out. -/
def markIn (scopes : List (Table Mark)) (depth : Nat) (x : String) : Option Mark :=
  scopes[depth]?.bind (·.get? x)

@[simp] theorem markIn_zero (scope : Table Mark) (outer : List (Table Mark)) (x : String) :
    markIn (scope :: outer) 0 x = scope.get? x := rfl

@[simp] theorem markIn_succ (scope : Table Mark) (outer : List (Table Mark)) (depth : Nat) (x : String) :
    markIn (scope :: outer) (depth + 1) x = markIn outer depth x := by
  simp [markIn]

namespace Resolution

/-- The names in the open scopes, each in the order of declaration. -/
def names (r : Resolution) : List (List String) := r.scopes.map Table.names

def Defined (r : Resolution) (depth : Nat) (x : String) : Prop :=
  ∃ mark, markIn r.scopes depth x = some mark ∧ mark.defined = true

def Used (r : Resolution) (depth : Nat) (x : String) : Prop :=
  ∃ mark, markIn r.scopes depth x = some mark ∧ mark.used = true

/-- What is found under a reserved word counts as used. -/
def Guarded (r : Resolution) : Prop :=
  ∀ x ∈ reserved, ∀ depth mark, markIn r.scopes depth x = some mark → mark.used = true

end Resolution

def addNames (names : List String) : List (List String) → List (List String)
  | [] => []
  | scope :: outer => (scope ++ names) :: outer

@[simp] theorem addNames_nil (scopes : List (List String)) : addNames [] scopes = scopes := by
  cases scopes <;> simp [addNames]

theorem addNames_addNames (xs ys : List String) (scopes : List (List String)) :
    addNames ys (addNames xs scopes) = addNames (xs ++ ys) scopes := by
  cases scopes <;> simp [addNames]

def warnings (warns : Bool) (closed : List Opening) : List Notice :=
  if warns then closed.flatMap fun scope => scope.unused.map .unused else []

theorem warnings_append (warns : Bool) (closed closed' : List Opening) :
    warnings warns (closed ++ closed') = warnings warns closed ++ warnings warns closed' := by
  cases warns <;> simp [warnings]

namespace Trail

instance : Append Trail where
  append t t' := ⟨t.declared ++ t'.declared, t.completed ++ t'.completed, t.uses ++ t'.uses,
    t.closed ++ t'.closed⟩

theorem append_def (t t' : Trail) : t ++ t' = ⟨t.declared ++ t'.declared, t.completed ++ t'.completed,
    t.uses ++ t'.uses, t.closed ++ t'.closed⟩ := rfl

@[simp] theorem append_empty (t : Trail) : t ++ {} = t := by
  simp [append_def]

end Trail

/-- `r'` is reached from `r`, and the marks tell what was done. -/
structure Tracks (r r' : Resolution) (t : Trail) : Prop where
  names : r'.names = addNames t.declared r.names
  nodup : (∀ xs ∈ r.names.head?, xs.Nodup) → ∀ xs ∈ r'.names.head?, xs.Nodup
  defined : ∀ depth x, r.Defined depth x ∨ (depth = 0 ∧ r.scopes ≠ [] ∧ x ∈ t.completed) →
    r'.Defined depth x
  used : ∀ depth x, r'.Used depth x ↔ r.Used depth x ∨ (depth, x) ∈ t.uses
  guarded : r'.Guarded
  notices : r'.notices = r.notices ++ warnings r.warns t.closed
  warns : r'.warns = r.warns

namespace Tracks

variable {r r' r'' : Resolution} {t t' : Trail}

theorem refl (h : r.Guarded) : Tracks r r {} where
  names := by simp
  nodup := id
  defined := by simp
  used := by simp
  guarded := h
  notices := by simp [warnings]
  warns := rfl

theorem scopes_ne_nil (h : Tracks r r' t) (hr : r.scopes ≠ []) : r'.scopes ≠ [] := by
  intro hnil
  have hnames := h.names
  cases hs : r.scopes with
  | nil => exact hr hs
  | cons scope outer => simp [Resolution.names, hnil, hs, addNames] at hnames

theorem trans (h : Tracks r r' t) (h' : Tracks r' r'' t') : Tracks r r'' (t ++ t') where
  names := by rw [h'.names, h.names, addNames_addNames]; rfl
  nodup hr := h'.nodup (h.nodup hr)
  defined := by
    rintro depth x (hx | ⟨rfl, hr, hx⟩)
    · exact h'.defined depth x (.inl (h.defined depth x (.inl hx)))
    · rcases List.mem_append.1 hx with hx | hx
      · exact h'.defined 0 x (.inl (h.defined 0 x (.inr ⟨rfl, hr, hx⟩)))
      · exact h'.defined 0 x (.inr ⟨rfl, h.scopes_ne_nil hr, hx⟩)
  used depth x := by rw [h'.used, h.used, or_assoc, ← List.mem_append]; rfl
  guarded := h'.guarded
  notices := by rw [h'.notices, h.notices, h.warns, List.append_assoc, ← warnings_append]; rfl
  warns := h'.warns.trans h.warns

theorem drop_use {use : Nat × String} (h : Tracks r r' { uses := [use] }) (hu : r.Used use.1 use.2) :
    Tracks r r' {} where
  names := h.names
  nodup := h.nodup
  defined := h.defined
  used depth x := by
    rw [h.used, List.mem_singleton]
    constructor
    · rintro (hx | rfl)
      · exact .inl hx
      · exact .inl hu
    · exact fun hx => .inl (hx.resolve_right List.not_mem_nil)
  guarded := h.guarded
  notices := h.notices
  warns := h.warns

theorem of_change (depth : Nat) (name : String) {xs ys : List String} {uses : List (Nat × String)}
    (hg : r.Guarded)
    (hsame : ∀ k x, ¬(k = depth ∧ x = name) → markIn r'.scopes k x = markIn r.scopes k x)
    (hnames : r'.names = addNames xs r.names)
    (hnodup : (∀ l ∈ r.names.head?, l.Nodup) → ∀ l ∈ r'.names.head?, l.Nodup)
    (hcompleted : ∀ x ∈ ys, depth = 0 ∧ x = name) (huses : ∀ use ∈ uses, use = (depth, name))
    (hdefined : r.Defined depth name ∨ (r.scopes ≠ [] ∧ name ∈ ys) → r'.Defined depth name)
    (hused : r'.Used depth name ↔ r.Used depth name ∨ (depth, name) ∈ uses)
    (hguarded : name ∈ reserved → ∀ m, markIn r'.scopes depth name = some m → m.used = true)
    (hnotices : r'.notices = r.notices) (hwarns : r'.warns = r.warns) : Tracks r r' ⟨xs, ys, uses, []⟩ where
  names := hnames
  nodup := hnodup
  defined k x hx := by
    by_cases hk : k = depth ∧ x = name
    · obtain ⟨rfl, rfl⟩ := hk
      exact hdefined (hx.imp_right And.right)
    · rcases hx with ⟨m, hm, hd⟩ | ⟨rfl, -, hx⟩
      · exact ⟨m, (hsame k x hk).trans hm, hd⟩
      · exact absurd ⟨(hcompleted x hx).1.symm, (hcompleted x hx).2⟩ hk
  used k x := by
    by_cases hk : k = depth ∧ x = name
    · obtain ⟨rfl, rfl⟩ := hk
      exact hused
    · have hnot : (k, x) ∉ uses := fun hm => hk (Prod.mk.injEq .. ▸ huses _ hm)
      simp only [Resolution.Used, hsame k x hk, hnot, or_false]
  guarded x hx k m hm := by
    by_cases hk : k = depth ∧ x = name
    · obtain ⟨rfl, rfl⟩ := hk
      exact hguarded hx m hm
    · exact hg x hx k m ((hsame k x hk).symm.trans hm)
  notices := by simp [hnotices, warnings]
  warns := hwarns

/-- The registers of the walk do not matter. -/
theorem congr {r₁ r₁' : Resolution} (h : Tracks r r' t)
    (h₁ : r₁.scopes = r.scopes ∧ r₁.notices = r.notices ∧ r₁.warns = r.warns)
    (h₁' : r₁'.scopes = r'.scopes ∧ r₁'.notices = r'.notices ∧ r₁'.warns = r'.warns) : Tracks r₁ r₁' t := by
  obtain ⟨hnames, hnodup, hdefined, hused, hguarded, hnotices, hwarns⟩ := h
  simp only [Resolution.names, Resolution.Defined, Resolution.Used, Resolution.Guarded, ← h₁.1, ← h₁.2.1,
    ← h₁.2.2, ← h₁'.1, ← h₁'.2.1, ← h₁'.2.2] at hnames hnodup hdefined hused hguarded hnotices hwarns
  exact ⟨hnames, hnodup, hdefined, hused, hguarded, hnotices, hwarns⟩

end Tracks

/-! ### A calculus of trails -/

variable {α β : Type}

/-- A step leaves a trail that goes with its result, unless something is wrong. -/
def Leaves (x : Resolving α) (p : α → Trail → Prop) : Prop :=
  ∀ ⦃r r' a⦄, x r = .ok a r' →
    ∃ t, p a t ∧ (r'.Clean → r.Clean) ∧ (r.Guarded → r'.Clean → Tracks r r' t)

namespace Leaves

variable {x : Resolving α} {f : α → Resolving β} {p : α → Trail → Prop} {q : β → Trail → Prop}

theorem pure {a : α} (h : p a {}) : Leaves (Pure.pure a) p := by
  intro r r' b hx
  obtain ⟨rfl, rfl⟩ := pure_eq_ok.1 hx
  exact ⟨_, h, id, fun hg _ => .refl hg⟩

theorem mono {p' : α → Trail → Prop} (hx : Leaves x p) (h : ∀ a t, p a t → p' a t) : Leaves x p' := by
  intro r r' a ha
  obtain ⟨t, hp, ht⟩ := hx ha
  exact ⟨t, h a t hp, ht⟩

theorem bind (hx : Leaves x p) (hf : ∀ a t, p a t → Leaves (f a) fun b t' => q b (t ++ t')) :
    Leaves (x >>= f) q := by
  intro r r'' b h
  obtain ⟨a, r', ha, hb⟩ := bind_eq_ok.1 h
  obtain ⟨t, hp, hclean, ht⟩ := hx ha
  obtain ⟨t', hq, hclean', ht'⟩ := hf a t hp hb
  refine ⟨_, hq, fun hc => hclean (hclean' hc), fun hg hc => ?_⟩
  have htracks := ht hg (hclean' hc)
  exact htracks.trans (ht' htracks.guarded hc)

theorem map {g : α → β} (hx : Leaves x p) (h : ∀ a t, p a t → q (g a) t) :
    Leaves (do return g (← x)) q :=
  hx.bind fun a t hp => .pure (by rw [Trail.append_empty]; exact h a t hp)

/-- A change of the registers leaves no trail. -/
theorem within {y : Resolving α} (hx : Leaves x p)
    (h : ∀ {r r' a}, y r = .ok a r' → ∃ r₁ r₁', x r₁ = .ok a r₁' ∧
      (r.scopes = r₁.scopes ∧ r.notices = r₁.notices ∧ r.warns = r₁.warns) ∧
      r'.scopes = r₁'.scopes ∧ r'.notices = r₁'.notices ∧ r'.warns = r₁'.warns) : Leaves y p := by
  intro r r' a hy
  obtain ⟨r₁, r₁', ha, h₁, h₁'⟩ := h hy
  obtain ⟨t, hp, hclean, ht⟩ := hx ha
  have hclean₁ : r'.Clean → r₁'.Clean := fun hc token flaw hn => hc token flaw (h₁'.2.1 ▸ hn)
  refine ⟨t, hp, fun hc token flaw hn => hclean (hclean₁ hc) token flaw (h₁.2.1 ▸ hn), fun hg hc => ?_⟩
  refine (ht ?_ (hclean₁ hc)).congr h₁ h₁'
  unfold Resolution.Guarded at hg ⊢
  rwa [← h₁.1]

end Leaves

/-! ### Names -/

theorem markNearest_marks {name : String} {scopes marked : List (Table Mark)} {depth : Nat}
    (h : markNearest name scopes = some (depth, marked)) :
    marked.map Table.names = scopes.map Table.names ∧ (∃ mark, markIn scopes depth name = some mark) ∧
      ∀ k x, markIn marked k x = if k = depth ∧ x = name then
        (markIn scopes k x).map ({ · with used := true }) else markIn scopes k x := by
  induction scopes generalizing depth marked with
  | nil => cases h
  | cons scope outer ih =>
    unfold markNearest at h
    by_cases hn : scope.contains name = true
    · rw [if_pos hn] at h
      cases h
      refine ⟨by simp [Table.names_modify], Table.mem_domain.1 hn, ?_⟩
      rintro (_ | k) x
      · simp [Table.get?_modify]
      · simp
    · rw [if_neg hn, Option.map_eq_some_iff] at h
      obtain ⟨⟨depth, marked⟩, hm, heq⟩ := h
      cases heq
      obtain ⟨hnames, hmark, hmarks⟩ := ih hm
      refine ⟨by simp [hnames], by simpa using hmark, ?_⟩
      rintro (_ | k) x
      · simp
      · simpa using hmarks k x

namespace Resolving

variable {name : Token} {p : α → Trail → Prop}

theorem leaves_locate (form : Form) (token : Token) :
    Leaves (locate form token) fun a t => t = { uses := a.use token.lexeme } := by
  intro r r' a h
  refine ⟨_, rfl, (locate_spec h).1.clean, fun hg _ => ?_⟩
  obtain ⟨-, rfl, rfl⟩ | ⟨depth, marked, hm, rfl, rfl⟩ := locate_eq_ok.1 h
  · exact .refl hg
  · obtain ⟨hnames, ⟨mark, hmark⟩, hmarks⟩ := markNearest_marks hm
    have hthere : markIn marked depth token.lexeme = some { mark with used := true } := by
      rw [hmarks, if_pos ⟨rfl, rfl⟩, hmark]
      rfl
    refine .of_change depth token.lexeme hg (fun k x hk => (hmarks k x).trans (if_neg hk)) ?_ ?_ (by simp)
      (by simp [Address.use]) ?_ ?_ ?_ rfl rfl
    · simpa [Resolution.names] using hnames
    · intro hr
      simpa [Resolution.names, hnames] using hr
    · rintro (⟨m, hx, hd⟩ | ⟨-, hx⟩)
      · rw [hmark] at hx
        cases hx
        exact ⟨_, hthere, hd⟩
      · cases hx
    · exact ⟨fun _ => .inr (by simp [Address.use]), fun _ => ⟨_, hthere, rfl⟩⟩
    · intro _ m hm
      cases hthere.symm.trans hm
      rfl

theorem leaves_locateInClass {form : Form} {keyword : Token} {flaw : Flaw} (hk : keyword.isPlain = false) :
    Leaves (locateInClass form keyword flaw) fun _ t => t = {} := by
  intro r r' a h
  refine ⟨_, rfl, (locateInClass_spec h).1.clean, fun hg hc => ?_⟩
  simp only [locateInClass, bind_eq_ok, get_eq_ok] at h
  obtain ⟨_, _, ⟨rfl, rfl⟩, h⟩ := h
  split at h
  · obtain ⟨_, rfl, -, ht⟩ := leaves_locate form keyword h
    have hloc := (locate_spec h).2
    cases a with
    | free => exact ht hg hc
    | slot depth index => exact hloc.elim
    | hops depth =>
      refine (ht hg hc).drop_use ?_
      obtain ⟨⟨scope, hs, hx⟩, -⟩ := hloc
      simp only [Resolution.held, List.getElem?_map, Option.map_eq_some_iff] at hs
      obtain ⟨table, htable, rfl⟩ := hs
      obtain ⟨mark, hmark⟩ := Table.mem_domain.1 hx
      have hfound : markIn r.scopes depth keyword.lexeme = some mark := by
        simp [markIn, htable, hmark]
      exact ⟨mark, hfound, hg _ (by simpa [Token.isPlain] using hk) depth mark hfound⟩
  · simp only [bind_eq_ok, pure_eq_ok] at h
    obtain ⟨_, _, hr, rfl, rfl⟩ := h
    exact absurd (report_leads hr).2 (hc _ _)

theorem leaves_declare (hn : name.isPlain = true) :
    Leaves (declare name) fun _ t => t = { declared := [name.lexeme] } := by
  intro r r' _ h
  refine ⟨_, rfl, (declare_leads h).clean, fun hg hc => ?_⟩
  obtain ⟨hs, rfl⟩ | ⟨scope, outer, hs, rfl⟩ := declare_eq_ok.1 h
  · have hrefl := Tracks.refl hg
    exact ⟨by simp [Resolution.names, hs, addNames], hrefl.nodup, hrefl.defined, hrefl.used, hg,
      hrefl.notices, rfl⟩
  · have hnew : scope.contains name.lexeme ≠ true := fun hold =>
      hc name (.alreadyDeclared name.lexeme) (by simp [hold])
    have hfresh : scope.get? name.lexeme = none := by
      simpa [Table.contains] using hnew
    have hnames : name.lexeme ∉ scope.names := by
      rw [Table.mem_names, hfresh]
      simp
    have hthere : markIn (scope.insert name.lexeme ⟨false, false⟩ :: outer) 0 name.lexeme =
        some ⟨false, false⟩ := by simp
    have hbefore : markIn r.scopes 0 name.lexeme = none := by simp [hs, hfresh]
    refine .of_change 0 name.lexeme hg ?_ ?_ ?_ (by simp) (by simp) ?_ ?_ ?_ (if_neg hnew) rfl
    · rintro (_ | k) x hx
      · have hne : x ≠ name.lexeme := fun heq => hx ⟨rfl, heq⟩
        simp [hs, hne]
      · simp [hs]
    · simp [Resolution.names, hs, addNames, Table.names_insert, hnames]
    · intro hr
      have hold : scope.names.Nodup := hr scope.names (by simp [Resolution.names, hs])
      have happend : (scope.names ++ [name.lexeme]).Nodup := by
        rw [List.nodup_append]
        exact ⟨hold, by simp, fun x hx y hy heq => hnames (List.mem_singleton.1 hy ▸ heq ▸ hx)⟩
      simpa [Resolution.names, Table.names_insert, hnames] using happend
    · rintro (⟨m, hm, -⟩ | ⟨-, hx⟩)
      · cases hbefore.symm.trans hm
      · cases hx
    · simp [Resolution.Used, hthere, hbefore]
    · intro hx
      simp [Token.isPlain, hx] at hn

theorem leaves_define (name : Token) :
    Leaves (define name) fun _ t => t = { completed := [name.lexeme] } := by
  intro r r' _ h
  refine ⟨_, rfl, (define_leads h).clean, fun hg _ => ?_⟩
  obtain ⟨hs, rfl⟩ | ⟨scope, outer, hs, hold, rfl⟩ := define_eq_ok.1 h
  · have hrefl := Tracks.refl hg
    refine ⟨hrefl.names, hrefl.nodup, ?_, hrefl.used, hg, hrefl.notices, rfl⟩
    rintro k x (hx | ⟨-, hne, -⟩)
    · exact hx
    · exact absurd hs hne
  · obtain ⟨mark, hmark⟩ := Table.mem_domain.1 hold
    have hthere : markIn (scope.modify name.lexeme ({ · with defined := true }) :: outer) 0
        name.lexeme = some { mark with defined := true } := by
      simp [Table.get?_modify, hmark]
    have hbefore : markIn r.scopes 0 name.lexeme = some mark := by simp [hs, hmark]
    refine .of_change 0 name.lexeme hg ?_ ?_ ?_ (by simp) (by simp) ?_ ?_ ?_ rfl rfl
    · rintro (_ | k) x hx
      · have hne : x ≠ name.lexeme := fun heq => hx ⟨rfl, heq⟩
        simp [hs, Table.get?_modify, hne]
      · simp [hs]
    · simp [Resolution.names, hs, Table.names_modify]
    · intro hr
      simpa [Resolution.names, hs, Table.names_modify] using hr
    · exact fun _ => ⟨_, hthere, rfl⟩
    · simp [Resolution.Used, hthere, hbefore]
    · intro hx m hm
      cases hthere.symm.trans hm
      exact hg _ hx 0 mark hbefore

theorem leaves_introduce {params : List Token} (hn : params.all Token.isPlain = true) :
    Leaves (introduce params) fun _ t =>
      t = { declared := params.map (·.lexeme), completed := params.map (·.lexeme) } := by
  induction params with
  | nil => exact .pure rfl
  | cons name params ih =>
    obtain ⟨hname, hparams⟩ := Bool.and_eq_true_iff.1 hn
    refine (leaves_declare hname).bind fun _ _ h₁ => (leaves_define name).bind fun _ _ h₂ => ?_
    exact (ih hparams).mono fun _ _ h₃ => h₁ ▸ h₂ ▸ h₃ ▸ rfl

/-! ### Scopes that are opened and closed again -/

theorem unusedIn_eq {t : Table Mark} {p : String → Bool} (hn : t.names.Nodup)
    (hp : ∀ x mark, t.get? x = some mark → (mark.defined && !mark.used) = p x) :
    unusedIn t = (t.names.filter p).map .unused := by
  have hentries : t.entries.filter (fun entry => entry.2.defined && !entry.2.used) =
      t.entries.filter fun entry => p entry.1 :=
    List.filter_congr fun entry he => hp entry.1 entry.2 (Table.get?_of_mem_entries hn he)
  unfold unusedIn Table.names
  rw [hentries, List.filter_map, List.map_map]
  rfl

variable {r r' r₂ : Resolution} {table scope : Table Mark} {outer : List (Table Mark)} {t : Trail}

theorem names_of_tracks (h : Tracks { r with scopes := table :: r.scopes } r₂ t)
    (hs : r₂.scopes = scope :: outer) :
    scope.names = table.names ++ t.declared ∧ outer.map Table.names = r.names := by
  have hnames := h.names
  simp only [Resolution.names, hs, List.map_cons, addNames, List.cons.injEq] at hnames
  exact hnames

theorem closeScope_tracks {u : Unit} {more : List Opening}
    (h : Tracks { r with scopes := table :: r.scopes } r₂ t) (hc : closeScope r₂ = .ok u r')
    (hu : ∀ scope outer, r₂.scopes = scope :: outer →
      unusedIn scope = more.flatMap fun scope => scope.unused.map .unused) :
    Tracks r r' { uses := outward t.uses, closed := t.closed ++ more } := by
  obtain ⟨scope, outer, hs, rfl⟩ := closeScope_eq_ok.1 hc
  have hnames := (names_of_tracks h hs).2
  -- What is known in the scopes further out is known one scope further out inside.
  have hmark : ∀ k x, markIn r₂.scopes (k + 1) x = markIn outer k x := by simp [hs]
  have hmark₁ : ∀ k x, markIn (table :: r.scopes) (k + 1) x = markIn r.scopes k x := by simp
  constructor
  · simpa [Resolution.names] using hnames
  · intro hr
    rw [Resolution.names] at hnames ⊢
    rw [hnames]
    exact hr
  · rintro k x (hx | ⟨-, -, hx⟩)
    · have hdefined := h.defined (k + 1) x (.inl (by simpa [Resolution.Defined, hmark₁] using hx))
      simpa [Resolution.Defined, hmark] using hdefined
    · cases hx
  · intro k x
    have hused := h.used (k + 1) x
    simp only [Resolution.Used, hmark, hmark₁] at hused
    rw [mem_outward]
    exact hused
  · intro x hx k mark hk
    exact h.guarded x hx (k + 1) mark ((hmark k x).trans hk)
  · have hnotices := h.notices
    dsimp only at hnotices ⊢
    rw [h.warns, hnotices, hu scope outer hs, warnings_append]
    cases hw : r.warns <;> simp [warnings]
  · exact h.warns

variable {body : Resolving α}

theorem leaves_inScope_of {trail : α → Trail} {more : α → List Opening}
    (hb : Leaves body fun a t => t = trail a)
    (hguarded : ∀ x ∈ reserved, ∀ mark, table.get? x = some mark → mark.used = true)
    (hunused : ∀ {r r₂ : Resolution} {scope outer a},
      Tracks { r with scopes := table :: r.scopes } r₂ (trail a) → r₂.scopes = scope :: outer →
        unusedIn scope = (more a).flatMap fun scope => scope.unused.map .unused) :
    Leaves (inScope table body) fun a t =>
      t = { uses := outward (trail a).uses, closed := (trail a).closed ++ more a } := by
  intro r r' a h
  obtain ⟨r₂, hbody, hclose⟩ := inScope_eq h
  obtain ⟨_, rfl, hclean, ht⟩ := hb hbody
  have hclean₂ : r'.Clean → r₂.Clean := fun hc token flaw hn =>
    hc token flaw ((closeScope_leads hclose).2.1 hn)
  refine ⟨_, rfl, fun hc => hclean (hclean₂ hc), fun hg hc => ?_⟩
  have hopen : Resolution.Guarded { r with scopes := table :: r.scopes } := by
    rintro x hx (_ | k) mark hk
    · exact hguarded x hx mark hk
    · exact hg x hx k mark (by simpa using hk)
  have htracks := ht hopen (hclean₂ hc)
  exact closeScope_tracks htracks hclose fun _ _ hs => hunused htracks hs

theorem leaves_inScope {scope : α → Opening} {closed : α → List Opening}
    (hb : Leaves body fun a t => t = (scope a).trail (closed a)) :
    Leaves (inScope .empty body) fun a t =>
      t = { uses := outward (Stmt.usesOf (scope a).body), closed := closed a ++ [scope a] } := by
  refine leaves_inScope_of hb (by simp) ?_
  intro r r₂ top outer a ht hs
  have hnames : top.names = (scope a).declarations := (names_of_tracks ht hs).1
  have hnodup : top.names.Nodup :=
    ht.nodup (by simp [Resolution.names, Table.names, Table.empty]) top.names
      (by simp [Resolution.names, hs])
  have hmarks : ∀ x mark, top.get? x = some mark →
      (mark.defined && !mark.used) = decide ¬(0, x) ∈ Stmt.usesOf (scope a).body := by
    intro x mark hx
    have hmark : markIn r₂.scopes 0 x = some mark := by simp [hs, hx]
    have hmem : x ∈ (scope a).declarations := hnames ▸ Table.mem_names.2 ⟨mark, hx⟩
    have hdefined : r₂.Defined 0 x := ht.defined 0 x (.inr ⟨rfl, by simp, hmem⟩)
    have hused : r₂.Used 0 x ↔ (0, x) ∈ Stmt.usesOf (scope a).body := by
      rw [ht.used]
      simp [Resolution.Used, Opening.trail]
    simp only [Resolution.Defined, Resolution.Used, hmark, Option.some.injEq, exists_eq_left']
      at hdefined hused
    simp [hdefined, ← hused]
  rw [unusedIn_eq hnodup hmarks, hnames]
  simp [Opening.unused, Opening.uses_iff]

theorem leaves_inScope_implicit {word : String} {uses : α → List (Nat × String)} {closed : α → List Opening}
    (hb : Leaves body fun a t => t = { uses := uses a, closed := closed a }) :
    Leaves (inScope (implicit word) body) fun a t =>
      t = { uses := outward (uses a), closed := closed a } := by
  have hget : ∀ x mark, (implicit word).get? x = some mark → mark = ⟨true, true⟩ := by
    intro x mark hx
    simp only [implicit, Table.get?_insert, Table.get?_empty, Option.ite_none_right_eq_some,
      Option.some.injEq] at hx
    exact hx.2.symm
  have hnone : Leaves (inScope (implicit word) body) fun a t =>
      t = { uses := outward (uses a), closed := closed a ++ [] } := by
    refine leaves_inScope_of hb (fun x _ mark hx => hget x mark hx ▸ rfl) ?_
    intro r r₂ top outer a ht hs
    have hnames : top.names = [word] := (names_of_tracks ht hs).1
    have hused : r₂.Used 0 word := by
      refine (ht.used 0 word).2 (.inl ⟨⟨true, true⟩, ?_, rfl⟩)
      simp [implicit]
    have hmarks : ∀ x mark, top.get? x = some mark → (mark.defined && !mark.used) = false := by
      intro x mark hx
      obtain rfl : x = word := List.mem_singleton.1 (hnames ▸ Table.mem_names.2 ⟨mark, hx⟩)
      have hmark : markIn r₂.scopes 0 x = some mark := by simp [hs, hx]
      simp only [Resolution.Used, hmark, Option.some.injEq, exists_eq_left'] at hused
      simp [hused]
    rw [unusedIn_eq (by simp [hnames]) hmarks]
    simp
  simpa using hnone

theorem leaves_inFunction {kind : FunctionKind} {params : List Token} {body : Resolving (List Stmt)}
    (hp : params.all Token.isPlain = true) (hb : Leaves body fun ss t => t = Stmt.trailOf ss) :
    Leaves (inFunction kind params body) fun ss t =>
      t = { uses := outward (Stmt.usesOf ss), closed := Stmt.closingsOf ss ++ [.call params ss] } := by
  have hbody : Leaves (do introduce params; body) fun ss t =>
      t = (Opening.call params ss).trail (Stmt.closingsOf ss) :=
    (leaves_introduce hp).bind fun _ _ hi => hb.mono fun _ _ hss => hi ▸ hss ▸ rfl
  refine (leaves_inScope hbody).within fun {r r' ss} h => ?_
  simp only [inFunction, bind_eq_ok, get_eq_ok, modify_eq_ok, pure_eq_ok] at h
  obtain ⟨_, _, ⟨rfl, rfl⟩, _, _, rfl, _, r₃, hs, _, _, rfl, rfl, rfl⟩ := h
  exact ⟨_, r₃, hs, ⟨rfl, rfl, rfl⟩, rfl, rfl, rfl⟩

theorem leaves_inClass (hb : Leaves body p) : Leaves (inClass body) p := by
  refine hb.within fun {r r' a} h => ?_
  simp only [inClass, bind_eq_ok, get_eq_ok, modify_eq_ok, pure_eq_ok] at h
  obtain ⟨_, _, ⟨rfl, rfl⟩, _, _, rfl, _, r₂, hr, _, _, rfl, rfl, rfl⟩ := h
  exact ⟨_, r₂, hr, ⟨rfl, rfl, rfl⟩, rfl, rfl, rfl⟩

theorem leaves_inVariable (hb : Leaves body p) : Leaves (inVariable name body) p := by
  refine hb.within fun {r r' a} h => ?_
  obtain ⟨r₁, hr, rfl⟩ := inVariable_eq_ok.1 h
  exact ⟨_, r₁, hr, ⟨rfl, rfl, rfl⟩, rfl, rfl, rfl⟩

theorem leaves_classBody {hasSuper : Bool} {uses : α → List (Nat × String)} {closed : α → List Opening}
    (hb : Leaves body fun a t => t = { uses := uses a, closed := closed a }) :
    Leaves (classBody hasSuper body) fun a t =>
      t = { uses := outOfClass hasSuper (uses a), closed := closed a } := by
  cases hasSuper with
  | false => exact leaves_inScope_implicit hb
  | true => exact leaves_inScope_implicit (leaves_inScope_implicit hb)

theorem leaves_superclass (superclass? : Option (Token × Address)) :
    Leaves (superclass name superclass?) fun resolved? t => t = { uses := superclassUse resolved? } := by
  cases superclass? with
  | none => exact .pure rfl
  | some entry =>
    obtain ⟨parent, old⟩ := entry
    intro r r' resolved? h
    refine ⟨_, rfl, (superclass_spec h).1.clean, fun hg hc => ?_⟩
    unfold superclass at h
    dsimp only at h
    split at h
    · simp only [bind_eq_ok, pure_eq_ok] at h
      obtain ⟨_, r₁, hr, a, r₂, ha, rfl, rfl⟩ := h
      exact absurd ((locate_spec ha).1.notices (report_leads hr).2) (hc _ _)
    · simp only [bind_eq_ok, pure_eq_ok] at h
      obtain ⟨a, r₂, ha, rfl, rfl⟩ := h
      obtain ⟨_, rfl, -, ht⟩ := leaves_locate _ _ ha
      exact ht hg hc

theorem leaves_checked {keyword : Token} (hb : Leaves body p) :
    Leaves (do
      unless (← get).inFunction do report (.flawed keyword .returnOutsideFunction)
      body) p := by
  intro r r' a h
  simp only [bind_eq_ok, get_eq_ok] at h
  obtain ⟨_, _, ⟨rfl, rfl⟩, h⟩ := h
  split at h
  · exact hb h
  · obtain ⟨_, r₁, hr, h⟩ := bind_eq_ok.1 h
    obtain ⟨t, hp, hclean, -⟩ := hb h
    obtain ⟨hleads, hflaw⟩ := report_leads hr
    exact ⟨t, hp, fun hc => hleads.clean (hclean hc), fun _ hc => absurd hflaw (hclean hc _ _)⟩

end Resolving

end Scope

open Scope Scope.Resolving Outcome

mutual

theorem Expr.leaves_resolve : ∀ e : Expr, e.all Node.isSpelled = true →
    Leaves e.resolve fun e' t => t = e'.trail
  | .gap, _ => fun _ _ _ h => (throw_eq_ok.1 h).elim
  | .literal _, _ => .pure rfl
  | .grouping body, h | .unary _ body, h | .get body _, h => by
    simp only [Expr.all, Bool.and_eq_true] at h
    exact (body.leaves_resolve h.2).map fun _ _ hb => hb
  | .binary left _ right, h | .logical left _ right, h => by
    simp only [Expr.all, Bool.and_eq_true] at h
    exact (left.leaves_resolve h.2.1).bind fun _ _ hl => (right.leaves_resolve h.2.2).map fun _ _ hr =>
      hl ▸ hr ▸ rfl
  | .variable name _, _ => (leaves_locate _ name).map fun _ _ ha => ha
  | .assign name _ value, h => by
    simp only [Expr.all, Bool.and_eq_true] at h
    exact (value.leaves_resolve h.2).bind fun _ _ hv => (leaves_locate _ name).map fun _ _ ha => by
      simp [hv, ha, Expr.trail, Expr.uses, Expr.closings, Trail.append_def]
  | .call callee _ arguments, h => by
    simp only [Expr.all, Bool.and_eq_true] at h
    exact (callee.leaves_resolve h.2.1).bind fun _ _ hf =>
      (Expr.leaves_resolveAll arguments h.2.2).map fun _ _ ha => hf ▸ ha ▸ rfl
  | .lambda params body, h => by
    simp only [Expr.all, Bool.and_eq_true] at h
    exact (leaves_inFunction h.1 (Stmt.leaves_resolveAll body h.2)).map fun _ _ hb => hb
  | .set object _ value, h => by
    simp only [Expr.all, Bool.and_eq_true] at h
    exact (value.leaves_resolve h.2.2).bind fun _ _ hv => (object.leaves_resolve h.2.1).map fun _ _ ho =>
      hv ▸ ho ▸ rfl
  | .super _ _ _, h => by cases h
  | .this keyword _, h | .inner keyword _ _, h =>
    (leaves_locateInClass (by simpa [Expr.all, Node.isSpelled] using h)).map fun _ _ ha => ha

theorem Expr.leaves_resolveAll : ∀ es : List Expr, Expr.allOf Node.isSpelled es = true →
    Leaves (Expr.resolveAll es) fun es' t => t = { uses := Expr.usesOf es', closed := Expr.closingsOf es' }
  | [], _ => .pure rfl
  | e :: es, h => by
    simp only [Expr.allOf, Bool.and_eq_true] at h
    exact (e.leaves_resolve h.1).bind fun _ _ he => (Expr.leaves_resolveAll es h.2).map fun _ _ hes =>
      he ▸ hes ▸ rfl

theorem Stmt.leaves_resolve : ∀ s : Stmt, s.all Node.isSpelled = true →
    Leaves s.resolve fun s' t => t = s'.trail
  | .gap, _ => fun _ _ _ h => (throw_eq_ok.1 h).elim
  | .bare value, h | .expression value, h | .print value, h => by
    simp only [Stmt.all, Bool.and_eq_true] at h
    exact (value.leaves_resolve h.2).map fun _ _ hv => hv
  | .varDecl name none, h =>
    (leaves_declare h).bind fun _ _ h₁ => (leaves_define name).map fun _ _ h₂ => h₁ ▸ h₂ ▸ rfl
  | .varDecl name (some init), h => by
    simp only [Stmt.all, Bool.and_eq_true] at h
    exact (leaves_declare h.1).bind fun _ _ h₁ =>
      (leaves_inVariable (init.leaves_resolve h.2)).bind fun _ _ hi =>
        (leaves_define name).map fun _ _ h₂ => by
          simp [h₁, hi, h₂, Stmt.trail, Expr.trail, Stmt.declared, Stmt.uses, Stmt.closings, Trail.append_def]
  | .block body, h => by
    simp only [Stmt.all, Bool.and_eq_true] at h
    have hbody : Leaves (Stmt.resolveAll body) fun ss t => t = (Opening.block ss).trail (Stmt.closingsOf ss) :=
      Stmt.leaves_resolveAll body h.2
    exact (leaves_inScope hbody).map fun _ _ hb => hb
  | .ifStmt condition onTrue none, h | .whileStmt condition onTrue, h => by
    simp only [Stmt.all, Bool.and_eq_true] at h
    exact (condition.leaves_resolve h.2.1).bind fun _ _ hc => (onTrue.leaves_resolve h.2.2).map fun _ _ ht =>
      hc ▸ ht ▸ rfl
  | .ifStmt condition onTrue (some onFalse), h => by
    simp only [Stmt.all, Bool.and_eq_true] at h
    exact (condition.leaves_resolve h.2.1).bind fun _ _ hc =>
      (onTrue.leaves_resolve h.2.2.1).bind fun _ _ ht =>
        (onFalse.leaves_resolve h.2.2.2).map fun _ _ hf => hc ▸ ht ▸ hf ▸ rfl
  | .breakStmt _, _ => .pure rfl
  | .funDecl f, h => by
    simp only [Stmt.all, Node.isSpelled, Bool.and_eq_true] at h
    exact (leaves_declare h.1.1).bind fun _ _ h₁ => (leaves_define f.name).bind fun _ _ h₂ =>
      (f.leaves_resolve _ h.1.2 h.2).map fun f' _ hf => by
        simp [h₁, h₂, hf.2, ← hf.1, Stmt.trail, Stmt.declared, Stmt.uses, Stmt.closings, Trail.append_def]
  | .classDecl name superclass? methods, h => by
    simp only [Stmt.all, Node.isSpelled, Bool.and_eq_true] at h
    exact leaves_inClass <| (leaves_declare h.1.1).bind fun _ _ h₁ => (leaves_define name).bind fun _ _ h₂ =>
      (leaves_superclass superclass?).bind fun _ _ hs =>
        (leaves_classBody (Function.leaves_resolveAll methods h.1.2 h.2)).map fun _ _ hm =>
          h₁ ▸ h₂ ▸ hs ▸ hm ▸ rfl
  | .returnStmt _ none, _ => leaves_checked (.pure rfl)
  | .returnStmt _ (some value), h => by
    simp only [Stmt.all, Bool.and_eq_true] at h
    exact leaves_checked ((value.leaves_resolve h.2).map fun _ _ hv => hv)

theorem Stmt.leaves_resolveAll : ∀ ss : List Stmt, Stmt.allOf Node.isSpelled ss = true →
    Leaves (Stmt.resolveAll ss) fun ss' t => t = Stmt.trailOf ss'
  | [], _ => .pure rfl
  | s :: ss, h => by
    simp only [Stmt.allOf, Bool.and_eq_true] at h
    exact (s.leaves_resolve h.1).bind fun _ _ hs => (Stmt.leaves_resolveAll ss h.2).map fun _ _ hss =>
      hs ▸ hss ▸ rfl

theorem Function.leaves_resolve : ∀ (f : Function) (kind : FunctionKind),
    f.params.all Token.isPlain = true → f.all Node.isSpelled = true →
      Leaves (f.resolve kind) fun f' t => f'.name = f.name ∧ t = { uses := f'.uses, closed := f'.closings }
  | ⟨_, _, body, _, _⟩, _, hp, h =>
    (leaves_inFunction hp (Stmt.leaves_resolveAll body h)).map fun _ _ hb => ⟨rfl, hb⟩

theorem Function.leaves_resolveAll : ∀ fs : List Function,
    (fs.all fun f => f.params.all Token.isPlain) = true → Function.allOf Node.isSpelled fs = true →
      Leaves (Function.resolveAll fs) fun fs' t =>
        t = { uses := Function.usesOf fs', closed := Function.closingsOf fs' }
  | [], _, _ => .pure rfl
  | f :: fs, hp, h => by
    obtain ⟨hpf, hpfs⟩ := Bool.and_eq_true_iff.1 hp
    simp only [Function.allOf, Bool.and_eq_true] at h
    exact (f.leaves_resolve _ hpf h.1).bind fun _ _ hf =>
      (Function.leaves_resolveAll fs hpfs h.2).map fun _ _ hfs => hf.2 ▸ hfs ▸ rfl

end

theorem Scope.notices_of_clean {warns : Bool} {ss program : List Stmt} {r : Resolution}
    (h : Stmt.resolveAll ss (.start warns) = .ok program r) (hn : Stmt.allOf Node.isSpelled ss = true)
    (hc : r.Clean) : r.notices = warnings warns (Stmt.closingsOf program) := by
  have hguarded : (Resolution.start warns).Guarded := by
    intro x _ depth mark hm
    cases hm
  obtain ⟨_, rfl, -, ht⟩ := Stmt.leaves_resolveAll ss hn h
  exact (ht hguarded hc).notices

end Lox
