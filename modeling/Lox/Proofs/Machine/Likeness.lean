import Lox.Machine.Eval
import Lox.Proofs.Table
import Mathlib.Data.List.Forall2

/-!
# Machines that are alike

Two machines are alike if they hold the same values in the same places, up to the functions in them:
their code may differ in a way that is left open, and one of them may lack the name that the other has.
What is looked up, compared or counted in machines that are alike is alike.
-/

namespace Lox

/-! ### Trees -/

section Trees

variable (token : Token → Token → Prop) (expr : Expr → Expr → Prop) (stmt : Stmt → Stmt → Prop)

/-- Two declared functions with parts that are alike. -/
inductive Function.Like : Function → Function → Prop
  | mk (isStatic isGetter) : token n n' → List.Forall₂ token ps ps' → List.Forall₂ stmt ss ss' →
      Like ⟨n, ps, ss, isStatic, isGetter⟩ ⟨n', ps', ss', isStatic, isGetter⟩

/-- Two expressions of one form with parts that are alike. -/
inductive Expr.Like : Expr → Expr → Prop
  | gap : Like .gap .gap
  | literal (value) : Like (.literal value) (.literal value)
  | grouping : expr b b' → Like (.grouping b) (.grouping b')
  | unary : token op op' → expr r r' → Like (.unary op r) (.unary op' r')
  | binary : expr l l' → token op op' → expr r r' → Like (.binary l op r) (.binary l' op' r')
  | logical : expr l l' → token op op' → expr r r' → Like (.logical l op r) (.logical l' op' r')
  | variable (a) : token n n' → Like (.variable n a) (.variable n' a)
  | assign (a) : token n n' → expr v v' → Like (.assign n a v) (.assign n' a v')
  | call : expr f f' → token p p' → List.Forall₂ expr es es' → Like (.call f p es) (.call f' p' es')
  | lambda : List.Forall₂ token ps ps' → List.Forall₂ stmt ss ss' →
      Like (.lambda ps ss) (.lambda ps' ss')
  | get : expr o o' → token n n' → Like (.get o n) (.get o' n')
  | set : expr o o' → token n n' → expr v v' → Like (.set o n v) (.set o' n' v')
  | this (a) : token k k' → Like (.this k a) (.this k' a)
  | super (a) : token k k' → token n n' → Like (.super k n a) (.super k' n' a)
  | inner (a) : token k k' → token n n' → Like (.inner k n a) (.inner k' n' a)

/-- Two statements of one form with parts that are alike. In the place of a declared function there may
be a variable with an anonymous one, if that is allowed. -/
inductive Stmt.Like (unnames : Prop) : Stmt → Stmt → Prop
  | gap : Like unnames .gap .gap
  | bare : expr v v' → Like unnames (.bare v) (.bare v')
  | expression : expr v v' → Like unnames (.expression v) (.expression v')
  | print : expr v v' → Like unnames (.print v) (.print v')
  | varDecl : token n n' → Option.Rel expr i i' → Like unnames (.varDecl n i) (.varDecl n' i')
  | block : List.Forall₂ stmt ss ss' → Like unnames (.block ss) (.block ss')
  | ifStmt : expr c c' → stmt s s' → Option.Rel stmt t t' → Like unnames (.ifStmt c s t) (.ifStmt c' s' t')
  | whileStmt : expr c c' → stmt s s' → Like unnames (.whileStmt c s) (.whileStmt c' s')
  | breakStmt : token k k' → Like unnames (.breakStmt k) (.breakStmt k')
  | funDecl : Function.Like token stmt d d' → Like unnames (.funDecl d) (.funDecl d')
  | classDecl : token n n' → Option.Rel (fun p p' => token p.1 p'.1 ∧ p'.2 = p.2) p p' →
      List.Forall₂ (Function.Like token stmt) ds ds' →
      Like unnames (.classDecl n p ds) (.classDecl n' p' ds')
  | returnStmt : token k k' → Option.Rel expr v v' → Like unnames (.returnStmt k v) (.returnStmt k' v')
  | unnamed : unnames → token n n' → List.Forall₂ token ps ps' → List.Forall₂ stmt ss ss' →
      Like unnames (.funDecl ⟨n, ps, ss, false, false⟩) (.varDecl n' (some (.lambda ps' ss')))

theorem Function.Like.name {d d' : Function} : Function.Like token stmt d d' → token d.name d'.name
  | .mk _ _ h _ _ => h

end Trees

def Exit.IsFinal : Exit → Prop
  | .defect _ | .exhausted => True
  | _ => False

/-- What makes two machines alike: which tokens and nodes are, whether functions may lack names, and what
their outputs have to do with each other. -/
structure Likeness where
  token : Token → Token → Prop
  expr : Expr → Expr → Prop
  stmt : Stmt → Stmt → Prop
  unnames : Prop
  /-- Whether the runs are traced, and what was written. -/
  aside : Bool → Array Line → Bool → Array Line → Prop

/-- A comparison of runs on machines that are alike, which some exits of the one or of the other end. -/
structure Comparison extends Likeness where
  spared : Exit → Prop
  broken : Exit → Prop

instance : Coe Comparison Likeness := ⟨Comparison.toLikeness⟩

/-- Nodes that are alike have one form, and tokens that are alike one kind and one text. -/
structure Comparison.Lawful (c : Comparison) : Prop where
  kind {t t' : Token} : c.token t t' → t'.kind = t.kind
  lexeme {t t' : Token} : c.token t t' → t'.lexeme = t.lexeme
  expr {e e' : Expr} : c.expr e e' → Expr.Like c.token c.expr c.stmt e e'
  stmt {s s' : Stmt} : c.stmt s s' → Stmt.Like c.token c.expr c.stmt c.unnames s s'
  spared {e : Exit} : c.spared e → e.IsFinal
  broken {e : Exit} : c.broken e → e.IsFinal
  unnamed : c.unnames → c.broken (.defect .unnamedFunction)

/-! ### Tables and arrays -/

variable {α β : Type} {R : α → β → Prop}

/-- The same names in the same order, with values that are alike. -/
def Table.Like (R : α → β → Prop) (t : Table α) (t' : Table β) : Prop :=
  List.Forall₂ (fun p p' => p'.1 = p.1 ∧ R p.2 p'.2) t.entries t'.entries

namespace Table.Like

variable {t : Table α} {t' : Table β}

theorem empty : (Table.empty : Table α).Like R (Table.empty : Table β) := .nil

theorem get? (h : t.Like R t') (name : String) : Option.Rel R (t.get? name) (t'.get? name) := by
  obtain ⟨entries⟩ := t
  obtain ⟨entries'⟩ := t'
  change List.Forall₂ _ entries entries' at h
  change Option.Rel R (entries.lookup name) (entries'.lookup name)
  induction h with
  | nil => exact .none
  | @cons p p' _ _ hp _ ih =>
    obtain ⟨n, a⟩ := p
    obtain ⟨_, b⟩ := p'
    obtain ⟨rfl, hab⟩ := hp
    rw [lookup_cons_eq_ite, lookup_cons_eq_ite]
    split
    · exact .some hab
    · exact ih

theorem contains (h : t.Like R t') (name : String) : t'.contains name = t.contains name := by
  unfold Table.contains
  exact (h.get? name).casesOn (fun _ => rfl) rfl

theorem insert (h : t.Like R t') (name : String) {a : α} {b : β} (hab : R a b) :
    (t.insert name a).Like R (t'.insert name b) := by
  obtain ⟨entries⟩ := t
  obtain ⟨entries'⟩ := t'
  change List.Forall₂ _ entries entries' at h
  change List.Forall₂ _ (insertEntry name a entries) (insertEntry name b entries')
  induction h with
  | nil => exact .cons ⟨rfl, hab⟩ .nil
  | @cons p p' _ _ hp hrest ih =>
    obtain ⟨n, a'⟩ := p
    obtain ⟨_, b'⟩ := p'
    obtain ⟨rfl, hab'⟩ := hp
    simp only [insertEntry]
    split
    · exact .cons ⟨rfl, hab⟩ hrest
    · exact .cons ⟨rfl, hab'⟩ ih

theorem filter (h : t.Like R t') {p : α → Bool} {q : β → Bool} (hpq : ∀ a b, R a b → q b = p a) :
    (t.filter p).Like R (t'.filter q) := by
  obtain ⟨entries⟩ := t
  obtain ⟨entries'⟩ := t'
  change List.Forall₂ _ entries entries' at h
  change List.Forall₂ _ (entries.filter fun entry => p entry.2) (entries'.filter fun entry => q entry.2)
  induction h with
  | nil => exact .nil
  | @cons entry entry' _ _ hp _ ih =>
    simp only [List.filter_cons, hpq _ _ hp.2]
    split
    · exact .cons hp ih
    · exact ih

end Table.Like

/-- Arrays of one size with elements that are alike. -/
structure ArrayLike (R : α → β → Prop) (a : Array α) (b : Array β) : Prop where
  size : b.size = a.size
  getElem? (i : Nat) : Option.Rel R a[i]? b[i]?

namespace ArrayLike

variable {a : Array α} {b : Array β}

theorem push (h : ArrayLike R a b) {x : α} {y : β} (hxy : R x y) :
    ArrayLike R (a.push x) (b.push y) := by
  refine ⟨by simp [h.size], fun i => ?_⟩
  rw [Array.getElem?_push, Array.getElem?_push, h.size]
  split
  · exact .some hxy
  · exact h.getElem? i

theorem modify (h : ArrayLike R a b) {f : α → α} {g : β → β} (hfg : ∀ x y, R x y → R (f x) (g y))
    (i : Nat) : ArrayLike R (a.modify i f) (b.modify i g) := by
  refine ⟨by simp [h.size], fun j => ?_⟩
  have hj := h.getElem? j
  rw [Array.getElem?_modify, Array.getElem?_modify]
  split
  · revert hj
    rcases a[j]? with _ | x <;> rcases b[j]? with _ | y <;> intro hj <;> cases hj
    · exact .none
    · exact .some (hfg _ _ ‹_›)
  · exact hj

theorem setIfInBounds (h : ArrayLike R a b) (i : Nat) {x : α} {y : β} (hxy : R x y) :
    ArrayLike R (a.setIfInBounds i x) (b.setIfInBounds i y) := by
  refine ⟨by simp [h.size], fun j => ?_⟩
  rw [Array.getElem?_setIfInBounds, Array.getElem?_setIfInBounds, h.size]
  split
  · split
    · exact .some hxy
    · exact .none
  · exact h.getElem? j

end ArrayLike

/-- The same failure, or values that are alike. -/
inductive ResultLike {ε : Type} (R : α → β → Prop) : Except ε α → Except ε β → Prop
  | ok {a : α} {b : β} : R a b → ResultLike R (.ok a) (.ok b)
  | error (e : ε) : ResultLike R (.error e) (.error e)

/-! ### Values -/

/-- Functions with the same identity and environment, and with code that is alike. -/
structure Closure.Like (c : Likeness) (f f' : Closure) : Prop where
  id : f'.id = f.id
  name? : f'.name? = f.name? ∨ c.unnames ∧ f'.name? = none
  params : List.Forall₂ c.token f.params f'.params
  body : List.Forall₂ c.stmt f.body f'.body
  env : f'.env = f.env
  isInit : f'.isInit = f.isInit
  isGetter : f'.isGetter = f.isGetter
  isStatic : f'.isStatic = f.isStatic

/-- Classes with the same identity and name, and with methods that are alike. -/
inductive Class.Like (c : Likeness) : Class → Class → Prop
  | root (id name) : ms.Like (Closure.Like c) ms' → ss.Like (Closure.Like c) ss' →
      Like c (.mk id name none ms ss) (.mk id name none ms' ss')
  | derived (id name) : Like c k k' → ms.Like (Closure.Like c) ms' → ss.Like (Closure.Like c) ss' →
      Like c (.mk id name (some k) ms ss) (.mk id name (some k') ms' ss')

/-- The same values but for functions, which are alike. -/
inductive Value.Like (c : Likeness) : Value → Value → Prop
  | nil : Like c .nil .nil
  | bool (b) : Like c (.bool b) (.bool b)
  | num (x) : Like c (.num x) (.num x)
  | int (i) : Like c (.int i) (.int i)
  | text (s) : Like c (.text s) (.text s)
  | native (n) : Like c (.native n) (.native n)
  | function : f.Like c f' → Like c (.function f) (.function f')
  | type : k.Like c k' → Like c (.type k) (.type k')
  | object (id) : k.Like c k' → Like c (.object ⟨id, k⟩) (.object ⟨id, k'⟩)
  | chain (id i) : List.Forall₂ (Closure.Like c) fs fs' → k.Like c k' →
      Like c (.chain id fs ⟨i, k⟩) (.chain id fs' ⟨i, k'⟩)

/-- The same text, or none because the function on the other side lacks its name. -/
def Likeness.Texts (c : Likeness) (r r' : Except Defect String) : Prop :=
  r' = r ∨ c.unnames ∧ r' = .error .unnamedFunction

theorem Likeness.Texts.map {c : Likeness} {r r' : Except Defect String} (h : c.Texts r r')
    (g : String → String) : c.Texts (r.map g) (r'.map g) := by
  rcases h with rfl | ⟨hc, rfl⟩
  · exact .inl rfl
  · exact .inr ⟨hc, rfl⟩

section Values

variable {c : Likeness} {f f' : Closure} {k k' : Class} {v v' w w' : Value}

theorem Closure.Like.arity (h : f.Like c f') : f'.arity = f.arity := by
  unfold Closure.arity
  rw [h.isGetter, h.params.length_eq]

theorem Closure.Like.display (h : f.Like c f') : c.Texts f.display f'.display := by
  unfold Closure.display
  rcases h.name? with hname | ⟨hc, hname⟩
  · rw [hname, h.isStatic, h.isGetter]
    exact .inl rfl
  · rw [hname]
    exact .inr ⟨hc, rfl⟩

namespace Class.Like

theorem id (h : k.Like c k') : k'.id = k.id := by cases h <;> rfl

theorem name (h : k.Like c k') : k'.name = k.name := by cases h <;> rfl

theorem methods (h : k.Like c k') : k.methods.Like (Closure.Like c) k'.methods := by
  cases h <;> assumption

theorem findMethod? (h : k.Like c k') (name : String) :
    Option.Rel (Closure.Like c) (k.findMethod? name) (k'.findMethod? name) := by
  induction h with
  | root _ _ hm _ =>
    unfold Class.findMethod?
    exact (hm.get? name).casesOn (fun hf => .some hf) .none
  | derived _ _ _ hm _ ih =>
    unfold Class.findMethod?
    exact (hm.get? name).casesOn (fun hf => .some hf) ih

theorem findStatic? (h : k.Like c k') (name : String) :
    Option.Rel (Closure.Like c) (k.findStatic? name) (k'.findStatic? name) := by
  induction h with
  | root _ _ _ hs =>
    unfold Class.findStatic?
    exact (hs.get? name).casesOn (fun hf => .some hf) .none
  | derived _ _ _ _ hs ih =>
    unfold Class.findStatic?
    exact (hs.get? name).casesOn (fun hf => .some hf) ih

theorem lineage (h : k.Like c k') : List.Forall₂ (Class.Like c) k.lineage k'.lineage := by
  induction h with
  | root id name hm hs => exact .cons (.root id name hm hs) .nil
  | derived id name hk hm hs ih => exact .cons (.derived id name hk hm hs) ih

theorem methodChain (h : k.Like c k') (name : String) :
    List.Forall₂ (Closure.Like c) (k.methodChain name) (k'.methodChain name) := by
  refine List.forall₂_reverse_iff.2 (h.lineage.rec .nil fun hk _ ih => ?_)
  rw [List.filterMap_cons, List.filterMap_cons]
  exact (hk.methods.get? name).casesOn (fun hf => .cons hf ih) ih

theorem arity (h : k.Like c k') : k'.arity = k.arity := by
  unfold Class.arity
  exact (h.findMethod? "init").casesOn (fun hf => hf.arity) rfl

end Class.Like

namespace Value.Like

theorem ofLiteral (c : Likeness) (value : Literal) : (Value.ofLiteral value).Like c (.ofLiteral value) := by
  cases value <;> constructor

theorem isTruthy (h : v.Like c v') : v'.isTruthy = v.isTruthy := by cases h <;> rfl

theorem isNumber (h : v.Like c v') : v'.isNumber = v.isNumber := by cases h <;> rfl

theorem toDouble (h : v.Like c v') : v'.toDouble = v.toDouble := by cases h <;> rfl

theorem display (h : v.Like c v') : c.Texts v.display v'.display := by
  cases h with
  | function hf => exact hf.display
  | type hk => exact .inl (congrArg (fun n => Except.ok ("<class " ++ n ++ ">")) hk.name)
  | object _ hk => exact .inl (congrArg (fun n => Except.ok ("<" ++ n ++ " instance>")) hk.name)
  | _ => exact .inl rfl

theorem print (h : v.Like c v') : c.Texts v.print v'.print := by
  have hdisplay := h.display
  cases h <;> first | exact .inl rfl | exact hdisplay

theorem operandText (h : v.Like c v') : c.Texts v.operandText v'.operandText := by
  have hdisplay := h.display
  cases h <;> first | exact .inl rfl | exact hdisplay

theorem equals (h : v.Like c v') (hw : w.Like c w') : v'.equals w' = v.equals w := by
  have hexact : ∀ {u u' : Value}, u.Like c u' → u'.exactly? = u.exactly? := fun hu => by
    cases hu <;> rfl
  unfold Value.equals
  rw [hexact h, hexact hw]
  cases h with
  | function hf => cases hw with
    | function hg => simp [Value.exactly?, hf.id, hg.id]
    | _ => rfl
  | type hk => cases hw with
    | type hl => simp [Value.exactly?, hk.id, hl.id]
    | _ => rfl
  | _ => cases hw <;> rfl

end Value.Like

end Values

/-! ### Frames -/

/-- Frames of one kind with values that are alike. -/
inductive Frame.Like (c : Likeness) : Frame → Frame → Prop
  | named : vars.Like (Value.Like c) vars' → Like c (.named vars) (.named vars')
  | indexed : ArrayLike (Value.Like c) slots slots' → globals.Like (Value.Like c) globals' →
      Like c (.indexed slots globals) (.indexed slots' globals')

/-- As many frames on both sides, each of them alike. -/
abbrev Frames.Like (c : Likeness) (frames frames' : Frames) : Prop :=
  ArrayLike (Frame.Like c) frames frames'

namespace Frames.Like

variable {c : Likeness} {frames frames' : Frames}

theorem held? (h : Like c frames frames') (id : FrameId) (name : String) :
    Option.Rel (Value.Like c) (frames.held? id name) (frames'.held? id name) := by
  unfold Frames.held?
  refine (h.getElem? id).casesOn (fun hframe => ?_) .none
  cases hframe with
  | named hvars => exact hvars.get? name
  | indexed _ _ => exact .none

theorem getD_held? (h : Like c frames frames') (id : FrameId) (name : String) :
    ((frames.held? id name).getD .nil).Like c ((frames'.held? id name).getD .nil) :=
  (h.held? id name).casesOn (fun hv => hv) .nil

theorem write (h : Like c frames frames') (id : FrameId) (name : String) {v v' : Value}
    (hv : v.Like c v') : Like c (frames.write id name v) (frames'.write id name v') := by
  refine h.modify (fun frame frame' hframe => ?_) id
  cases hframe with
  | named hvars => exact .named (hvars.insert name hv)
  | indexed hslots hglobals => exact .indexed hslots hglobals

theorem frameAt (h : Like c frames frames') (env : Env) (distance : Nat) (operation : String) :
    ResultLike (fun p p' => p'.1 = p.1 ∧ p.2.Like c p'.2) (frames.frameAt env distance operation)
      (frames'.frameAt env distance operation) := by
  unfold Frames.frameAt
  rcases ancestor env distance with d | _ | ⟨id, outer⟩
  · exact .error d
  · exact .error _
  · dsimp only [bind, Except.bind]
    exact (h.getElem? id).casesOn (fun hframe => .ok ⟨rfl, hframe⟩) (.error _)

theorem namedAt (h : Like c frames frames') (env : Env) (distance : Nat) (operation : String) :
    frames'.namedAt env distance operation = frames.namedAt env distance operation := by
  unfold Frames.namedAt
  refine (h.frameAt env distance "values").casesOn (fun {found found'} hfound => ?_) fun _ => rfl
  obtain ⟨id, frame⟩ := found
  obtain ⟨_, frame'⟩ := found'
  obtain ⟨rfl, hframe⟩ := hfound
  cases hframe <;> rfl

theorem getAt (h : Like c frames frames') (env : Env) (distance : Nat) (name : String) :
    ResultLike (Value.Like c) (frames.getAt env distance name) (frames'.getAt env distance name) := by
  unfold Frames.getAt
  rw [h.namedAt]
  cases frames.namedAt env distance "get_at" with
  | error d => exact .error d
  | ok id => exact .ok (h.getD_held? id name)

theorem holder (h : Like c frames frames') (operation name : String) (env : Env) :
    frames'.holder operation name env = frames.holder operation name env := by
  induction env with
  | nil => rfl
  | cons id outer ih =>
    unfold Frames.holder
    rw [ih]
    refine (h.getElem? id).casesOn (fun hframe => ?_) rfl
    cases hframe with
    | named hvars => simp only [hvars.contains]
    | indexed _ _ => rfl

theorem get (h : Like c frames frames') (env : Env) (name : String) :
    ResultLike (Value.Like c) (frames.get env name) (frames'.get env name) := by
  unfold Frames.get
  rw [h.holder]
  cases frames.holder "get" name env with
  | error d => exact .error d
  | ok id =>
    simp only [bind, Except.bind]
    have hv := h.getD_held? id name
    generalize (frames.held? id name).getD .nil = v at hv ⊢
    generalize (frames'.held? id name).getD .nil = v' at hv ⊢
    cases hv with
    | nil => exact .error _
    | _ => exact .ok (by constructor <;> assumption)

/-! By position. -/

theorem indexedAt (h : Like c frames frames') (env : Env) (distance : Nat) (operation : String) :
    ResultLike (fun p p' => p'.1 = p.1 ∧ ArrayLike (Value.Like c) p.2.1 p'.2.1 ∧
        p.2.2.Like (Value.Like c) p'.2.2)
      (Indexed.frameAt frames env distance operation) (Indexed.frameAt frames' env distance operation) := by
  unfold Indexed.frameAt
  refine (h.frameAt env distance operation).casesOn (fun {found found'} hfound => ?_) fun d => .error d
  obtain ⟨id, frame⟩ := found
  obtain ⟨_, frame'⟩ := found'
  obtain ⟨rfl, hframe⟩ := hfound
  cases hframe with
  | named _ => exact .error _
  | indexed hslots hglobals => exact .ok ⟨rfl, hslots, hglobals⟩

theorem slotAt (h : Like c frames frames') (env : Env) (distance : Nat) (index : Int) :
    ResultLike (Value.Like c) (Indexed.getAt frames env distance index)
      (Indexed.getAt frames' env distance index) := by
  unfold Indexed.getAt
  refine (h.indexedAt env distance "get_at_index").casesOn (fun hfound => ?_) fun d => .error d
  cases index with
  | ofNat i =>
    dsimp only [bind, Except.bind]
    exact (hfound.2.1.getElem? i).casesOn (fun hv => .ok hv) (.error _)
  | negSucc i => exact .error _

theorem getGlobal (h : Like c frames frames') (env : Env) (name : String) :
    ResultLike (Value.Like c) (Indexed.getGlobal frames env name)
      (Indexed.getGlobal frames' env name) := by
  unfold Indexed.getGlobal
  refine (h.indexedAt env 0 "get_global").casesOn (fun hfound => ?_) fun d => .error d
  dsimp only [bind, Except.bind]
  exact (hfound.2.2.get? name).casesOn (fun hv => .ok hv) (.error _)

theorem slotHolder (h : Like c frames frames') (env : Env) (distance : Nat) (index : Int) :
    Indexed.slotHolder frames' env distance index = Indexed.slotHolder frames env distance index := by
  unfold Indexed.slotHolder
  refine (h.indexedAt env distance "assign_at_index").casesOn (fun hfound => ?_) fun _ => rfl
  cases index with
  | ofNat i => simp only [bind, Except.bind, hfound.1, hfound.2.1.size]
  | negSucc i => rfl

theorem globalHolder (h : Like c frames frames') (env : Env) (name : String) :
    Indexed.globalHolder frames' env name = Indexed.globalHolder frames env name := by
  unfold Indexed.globalHolder
  refine (h.indexedAt env 0 "assign_global").casesOn (fun hfound => ?_) fun _ => rfl
  simp only [bind, Except.bind, hfound.1, hfound.2.2.contains]

theorem writeSlot (h : Like c frames frames') (id : FrameId) (index : Nat) {v v' : Value}
    (hv : v.Like c v') :
    Like c (Indexed.writeSlot frames id index v) (Indexed.writeSlot frames' id index v') := by
  unfold Indexed.writeSlot Indexed.update
  refine h.modify (fun frame frame' hframe => ?_) id
  cases hframe with
  | named hvars => exact .named hvars
  | indexed hslots hglobals => exact .indexed (hslots.setIfInBounds index hv) hglobals

theorem writeGlobal (h : Like c frames frames') (id : FrameId) (name : String) {v v' : Value}
    (hv : v.Like c v') :
    Like c (Indexed.writeGlobal frames id name v) (Indexed.writeGlobal frames' id name v') := by
  unfold Indexed.writeGlobal Indexed.update
  refine h.modify (fun frame frame' hframe => ?_) id
  cases hframe with
  | named hvars => exact .named hvars
  | indexed hslots hglobals => exact .indexed hslots (hglobals.insert name hv)

end Frames.Like

end Lox
