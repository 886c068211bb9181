import Lox.Proofs.Machine.Calls
import Lox.Proofs.Machine.Policy

/-!
# Where an error comes from

An error of the program ends every computation that it passes through, from the node that raises it
outwards. Each kind of node raises errors of its own, at one of its tokens. A parameter without an
argument is traced in the same way, to the call that binds the parameters, and a return or a break to its
statement.

## Implementation notes

The other exits are not traced; `Raises` allows them to every node.
-/

namespace Lox

open Eval Outcome

def Fault.IsAbsence (name : String) (f : Fault) : Prop :=
  f = .undefinedVariable name ∨ f = .uninitializedVariable name ∨ f = .undefinedGlobal name

/-- The faults that a kind of node raises itself, with the token to blame. A variable is missing only
where it is looked up by name, among the global ones. -/
inductive Node.Blames : Node → Token → Fault → Prop where
  | unary {op : Token} {right : Expr} : Blames (.expr (.unary op right)) op .operandNotNumber
  | binary {left right : Expr} {op : Token} {f : Fault}
      (h : f = .operandNotNumber ∨ f = .divisionByZero) : Blames (.expr (.binary left op right)) op f
  | «variable» {name : Token} {f : Fault} (h : f.IsAbsence name.lexeme) :
      Blames (.expr (.variable name .free)) name f
  | this {keyword : Token} {f : Fault} (h : f.IsAbsence keyword.lexeme) :
      Blames (.expr (.this keyword .free)) keyword f
  | assign {name : Token} {value : Expr} {f : Fault}
      (h : f = .undefinedVariable name.lexeme ∨ f = .undefinedGlobal name.lexeme) :
      Blames (.expr (.assign name .free value)) name f
  | call {callee : Expr} {paren : Token} {arguments : List Expr} {f : Fault}
      (h : f = .notCallable ∨ ∃ expected given, f = .wrongArity expected given) :
      Blames (.expr (.call callee paren arguments)) paren f
  | get {object : Expr} {name : Token} {f : Fault}
      (h : f = .undefinedProperty name.lexeme ∨ f = .undefinedStatic name.lexeme ∨
        f = .noProperties) : Blames (.expr (.get object name)) name f
  | set {object value : Expr} {name : Token} : Blames (.expr (.set object name value)) name .noFields
  | super {keyword method : Token} {address : Address} :
      Blames (.expr (.super keyword method address)) method (.undefinedInherited method.lexeme)
  | inner {keyword method : Token} {address : Address} :
      Blames (.expr (.inner keyword method address)) keyword .noSubclass
  | superclass {name parent : Token} {address : Address} {methods : List Function} :
      Blames (.stmt (.classDecl name (some (parent, address)) methods)) parent .superclassNotClass
  | absentSuperclass {name parent : Token} {methods : List Function} {f : Fault}
      (h : f.IsAbsence parent.lexeme) :
      Blames (.stmt (.classDecl name (some (parent, .free)) methods)) parent f

/-! ### Access to variables -/

/-- An access is denied only with some faults, or because a frame does not offer it. -/
def Denies {α : Type} (faults : Fault → Prop) (r : Except Denial α) : Prop :=
  match r with
  | .ok _ => True
  | .error (.fault f) => faults f
  | .error (.defect d) => d ≠ .missingArgument

namespace Denies

variable {α β : Type} {faults : Fault → Prop}

theorem lacks (kind : FrameKind) (operation : String) :
    Denies faults (Frames.lacks kind operation : Except Denial α) := nofun

theorem bind {r : Except Denial α} {f : α → Except Denial β} (hr : Denies faults r)
    (hf : ∀ a, Denies faults (f a)) : Denies faults (r >>= f) := by
  rcases r with (fault | defect) | a
  · exact hr
  · exact hr
  · exact hf a

end Denies

namespace Frames

variable {faults : Fault → Prop} (frames : Frames) (env : Env) (distance : Nat) (operation : String)

theorem denies_frameAt : Denies faults (frames.frameAt env distance operation) := by
  refine Denies.bind (r := ancestor env distance) ?_ fun outer => ?_
  · unfold ancestor
    split
    · trivial
    · exact .lacks _ _
  · cases outer with
    | nil => exact .lacks _ _
    | cons id outer =>
      dsimp only
      split
      · trivial
      · exact .lacks _ _

theorem denies_namedAt : Denies faults (frames.namedAt env distance operation) := by
  refine (frames.denies_frameAt env distance "values").bind fun found => ?_
  dsimp only
  split
  · trivial
  · exact .lacks _ _

theorem denies_getAt (name : String) : Denies faults (frames.getAt env distance name) :=
  (frames.denies_namedAt env distance "get_at").bind fun _ => trivial

theorem denies_holder (name : String) :
    Denies (· = .undefinedVariable name) (frames.holder operation name env) := by
  induction env with
  | nil => exact rfl
  | cons id outer ih =>
    unfold holder
    split
    · split
      · trivial
      · exact ih
    · exact .lacks _ _
    · exact .lacks _ _

theorem denies_get (name : String) : Denies (Fault.IsAbsence name) (frames.get env name) := by
  unfold get
  have hholder := frames.denies_holder env "get" name
  cases hh : frames.holder "get" name env with
  | error d =>
    rw [hh] at hholder
    cases d with
    | fault f => exact .inl hholder
    | defect d => exact hholder
  | ok id =>
    dsimp only [bind, Except.bind]
    split
    · exact .inr (.inl rfl)
    · trivial

variable {frames env operation} in
theorem holder_of_held? {id : FrameId} {x : String} {v : Value} (h : frames.held? id x = some v) :
    frames.holder operation x (id :: env) = .ok id := by
  obtain ⟨vars, hid⟩ := exists_named_of_held? h
  have hcontains : vars.contains x = true := by
    rw [Table.contains, ← held?_of_named hid, h]
    rfl
  simp only [holder, hid, hcontains, if_true]

namespace Indexed

theorem denies_frameAt : Denies faults (frameAt frames env distance operation) := by
  refine (Frames.denies_frameAt frames env distance operation).bind fun found => ?_
  dsimp only
  split
  · trivial
  · exact .lacks _ _

theorem denies_getAt (index : Int) : Denies faults (getAt frames env distance index) := by
  refine (denies_frameAt frames env distance "get_at_index").bind fun found => ?_
  dsimp only
  split
  · split
    · trivial
    · exact nofun
  · exact nofun

theorem denies_slotHolder (index : Int) : Denies faults (slotHolder frames env distance index) := by
  refine (denies_frameAt frames env distance "assign_at_index").bind fun found => ?_
  dsimp only
  split
  · split
    · trivial
    · exact nofun
  · exact nofun

theorem denies_getGlobal (name : String) :
    Denies (· = .undefinedGlobal name) (getGlobal frames env name) := by
  refine (denies_frameAt frames env 0 "get_global").bind fun found => ?_
  dsimp only
  split
  · trivial
  · exact rfl

theorem denies_globalHolder (name : String) :
    Denies (· = .undefinedGlobal name) (globalHolder frames env name) := by
  refine (denies_frameAt frames env 0 "assign_global").bind fun found => ?_
  dsimp only
  split
  · trivial
  · exact rfl

end Indexed

end Frames

/-! ### Values -/

namespace Value

theorem toDouble_ne_missing (v : Value) : v.toDouble ≠ .error .missingArgument := by
  cases v with
  | bool b => cases b <;> exact nofun
  | int i =>
    unfold toDouble doubleOfInt
    dsimp only
    split <;> exact nofun
  | _ => exact nofun

theorem display_ne_missing (v : Value) : v.display ≠ .error .missingArgument := by
  cases v with
  | bool b => cases b <;> exact nofun
  | function f =>
    unfold display Closure.display
    dsimp only
    split <;> exact nofun
  | _ => exact nofun

theorem print_ne_missing (v : Value) : v.print ≠ .error .missingArgument := by
  unfold print
  split
  · exact nofun
  · exact nofun
  · exact nofun
  · exact nofun
  · exact v.display_ne_missing

theorem operandText_ne_missing (v : Value) : v.operandText ≠ .error .missingArgument := by
  unfold operandText
  split
  · split <;> exact nofun
  · exact v.display_ne_missing

end Value

theorem Eval.foundText_ne_missing (found : Option Closure) :
    foundText found ≠ .error .missingArgument := by
  cases found with
  | none => exact nofun
  | some f => exact Value.display_ne_missing (.function f)

theorem Except.map_ne_error {α β : Type} {r : Except Defect α} {d : Defect} (h : r ≠ .error d)
    (f : α → β) : r.map f ≠ .error d := by
  cases r with
  | ok a => exact nofun
  | error d' => exact fun he => h (congrArg _ (Except.error.inj he))

def Exit.isTraced : Exit → Bool
  | .fault .. | .returned _ | .broke => true
  | .defect d => d = .missingArgument
  | _ => false

theorem Exit.isTraced_defect {d : Defect} (h : d ≠ .missingArgument) :
    (Exit.defect d).isTraced = false := decide_eq_false h

namespace Eval

/-! ### Tracing an exit to the nodes that a node comes to -/

/-- The exits with which running a node can end of its own accord. Among those that are traced these are
the faults that its kind raises, that a function that is applied has more parameters than there are
arguments, and the exits of return and break statements. -/
inductive Raises (depth : Nat) (node : Node) (m : Machine) : Exit → Prop where
  | fault {token : Token} {f : Fault} (h : node.Blames token f) : Raises depth node m (.fault token f)
  | missing {f : Closure} {args : List Value} {m₁ : Machine} (ha : Applies depth node m f args m₁)
      (hf : f.isGetter = false) (hlen : args.length < f.params.length) :
      Raises depth node m (.defect .missingArgument)
  | returned {keyword : Token} {value? : Option Expr} {v : Value}
      (h : node = .stmt (.returnStmt keyword value?)) : Raises depth node m (.returned v)
  | broke {keyword : Token} (h : node = .stmt (.breakStmt keyword)) : Raises depth node m .broke
  | other {e : Exit} (h : e.isTraced = false) : Raises depth node m e

/-- Every exit of a computation is raised by the node, or is that of a node that it has come to. -/
def Traced (depth : Nat) (node : Node) (m₀ : Machine) {α : Type} (x : Run α) (m : Machine) : Prop :=
  ∀ e m', x m = .error e m' → Raises depth node m₀ e ∨
    ∃ n s m'', Reaches depth node m₀ n s ∧ run depth n s = .error e m''

namespace Traced

variable {depth : Nat} {node : Node} {m₀ m m₁ : Machine} {α β : Type}

variable {x : Run α} {token : Token}

theorem reached {n : Node} (hr : Reaches depth node m₀ n m) : Traced depth node m₀ (run depth n) m :=
  fun _ m' h => .inr ⟨n, m, m', hr, h⟩

theorem of_ok {a : α} (h : x m = .ok a m₁) : Traced depth node m₀ x m := by
  intro e m' hx
  rw [h] at hx
  cases hx

theorem pure (a : α) : Traced depth node m₀ (pure a : Run α) m := of_ok rfl

theorem bind {f : α → Run β} (hx : Traced depth node m₀ x m)
    (hf : ∀ a m', x m = .ok a m' → Traced depth node m₀ (f a) m') :
    Traced depth node m₀ (x >>= f) m := by
  intro e m' h
  rcases bind_eq_error.1 h with h | ⟨a, m₁, ha, h⟩
  · exact hx e m' h
  · exact hf a m₁ ha e m' h

theorem step {f : α → Run β} {a : α} (h : x m = .ok a m₁) (hf : Traced depth node m₀ (f a) m₁) :
    Traced depth node m₀ (x >>= f) m := by
  intro e m' hx
  rw [bind_of_ok h] at hx
  exact hf e m' hx

theorem throw {e : Exit} (h : Raises depth node m₀ e) :
    Traced depth node m₀ (throw e : Run α) m := by
  intro e' m' hx
  cases hx
  exact .inl h

theorem fail {f : Fault} (h : node.Blames token f) :
    Traced depth node m₀ (Run.fail token f : Run α) m := throw (.fault h)

theorem breakDown {d : Defect} (h : d ≠ .missingArgument) :
    Traced depth node m₀ (Run.breakDown d : Run α) m :=
  throw (.other (Exit.isTraced_defect h))

theorem ofExcept {r : Except Defect α} (h : r ≠ .error .missingArgument) :
    Traced depth node m₀ (Run.ofExcept r) m := by
  cases r with
  | ok a => exact pure a
  | error d => exact breakDown fun hd => h (congrArg _ hd)

theorem ofAccess {r : Except Denial α} {faults : Fault → Prop} (h : Denies faults r)
    (hf : ∀ f, faults f → node.Blames token f) :
    Traced depth node m₀ (Run.ofAccess token r) m := by
  rcases r with (f | d) | a
  · exact fail (hf f h)
  · exact breakDown h
  · exact pure a

theorem ofOffer {r : Except Denial α} (h : Denies (fun _ => False) r) :
    Traced depth node m₀ (Run.ofAccess token r) m := ofAccess h nofun

theorem trace {text : Except Defect String} (h : text ≠ .error .missingArgument) :
    Traced depth node m₀ (Run.trace text) m := by
  refine step rfl ?_
  split
  · exact (ofExcept h).bind fun _ _ _ => of_ok rfl
  · exact pure ()

theorem traceText (text : String) : Traced depth node m₀ (Run.trace (.ok text)) m := trace nofun

theorem catchReturn {x : Run Value} (h : Traced depth node m₀ x m) :
    Traced depth node m₀ (Run.catchReturn x) m := by
  intro e m' hx
  unfold Run.catchReturn at hx
  split at hx
  · cases hx
  · exact h e m' hx

end Traced

/-! ### Variables -/

section Variables

variable {depth : Nat} {node : Node} {m₀ m : Machine} {name : Token} {address : Address}

theorem traced_read
    (hf : address = .free → ∀ f, Fault.IsAbsence name.lexeme f → node.Blames name f) :
    Traced depth node m₀ (Run.read name address) m := by
  refine .step rfl ?_
  cases address with
  | hops distance => exact .ofOffer (Frames.denies_getAt _ _ _ _)
  | slot distance index => exact .ofOffer (Frames.Indexed.denies_getAt _ _ _ _)
  | free =>
    dsimp only
    split
    · exact .ofAccess (Frames.Indexed.denies_getGlobal _ _ _) fun f h => hf rfl f (.inr (.inr h))
    · exact .ofAccess (Frames.denies_get _ _ _) (hf rfl)

theorem traced_assign {value : Expr} (v : Value) :
    Traced depth (.expr (.assign name address value)) m₀ (Run.assign name address v) m := by
  refine .step rfl ?_
  cases address with
  | hops distance =>
    exact (Traced.ofOffer (Frames.denies_namedAt _ _ _ _)).bind fun _ _ _ => .of_ok rfl
  | slot distance index =>
    exact (Traced.ofOffer (Frames.Indexed.denies_slotHolder _ _ _ _)).bind fun _ _ _ => .of_ok rfl
  | free =>
    dsimp only
    split
    · exact (Traced.ofAccess (Frames.Indexed.denies_globalHolder _ _ _)
        fun f h => .assign (.inr h)).bind fun _ _ _ => .of_ok rfl
    · exact (Traced.ofAccess (Frames.denies_holder _ _ _ _)
        fun f h => .assign (.inl h)).bind fun _ _ _ => .of_ok rfl

theorem traced_define (token : Token) (x : String) (v : Value) :
    Traced depth node m₀ (Run.define token x v) m :=
  .step rfl <| (Traced.ofOffer (Frames.denies_namedAt _ _ _ _)).bind fun _ _ _ => .of_ok rfl

end Variables

/-! ### Operators -/

section Operators

variable {depth : Nat} {m₀ m : Machine} {left right : Expr} {op : Token}

theorem traced_operands (u v : Value) :
    Traced depth (.expr (.binary left op right)) m₀ (operands op u v) m := by
  have hpair : ∀ m, Traced depth (.expr (.binary left op right)) m₀ (do
      let x ← Run.ofExcept u.toDouble
      let y ← Run.ofExcept v.toDouble
      return (x, y)) m := fun m =>
    (Traced.ofExcept u.toDouble_ne_missing).bind fun _ _ _ =>
      (Traced.ofExcept v.toDouble_ne_missing).bind fun _ _ _ => .pure _
  unfold operands
  split
  · exact hpair m
  · exact (Traced.fail (.binary (.inl rfl))).bind fun _ m' _ => hpair m'

theorem traced_combineNumbers (u v : Value) (f : Float → Float → Float) :
    Traced depth (.expr (.binary left op right)) m₀ (combineNumbers op u v f) m :=
  (traced_operands u v).bind fun _ _ _ => .pure _

theorem traced_compareNumbers (u v : Value) (test : Float → Float → Bool) :
    Traced depth (.expr (.binary left op right)) m₀ (compareNumbers op u v test) m :=
  (traced_operands u v).bind fun _ _ _ => .pure _

theorem traced_add {node : Node} (u v : Value) : Traced depth node m₀ (add u v) m := by
  unfold add
  split
  · exact (Traced.ofExcept (Value.operandText_ne_missing _)).bind fun _ _ _ =>
      (Traced.ofExcept (Value.operandText_ne_missing _)).bind fun _ _ _ => .pure _
  · exact (Traced.ofExcept (Value.operandText_ne_missing _)).bind fun _ _ _ =>
      (Traced.ofExcept (Value.operandText_ne_missing _)).bind fun _ _ _ => .pure _
  · exact (Traced.ofExcept (Value.toDouble_ne_missing _)).bind fun _ _ _ =>
      (Traced.ofExcept (Value.toDouble_ne_missing _)).bind fun _ _ _ => .pure _

theorem traced_divide (u v : Value) :
    Traced depth (.expr (.binary left op right)) m₀ (divide op u v) m := by
  have hnonzero : ∀ m, Traced depth (.expr (.binary left op right)) m₀ (do
      if v.equals (.int 0) then Run.fail op .divisionByZero
      combineNumbers op u v (· / ·)) m := by
    intro m
    dsimp only
    split
    · exact (Traced.fail (.binary (.inr rfl))).bind fun _ _ _ => traced_combineNumbers u v _
    · exact traced_combineNumbers u v _
  unfold divide
  dsimp only
  split
  · exact hnonzero m
  · exact (Traced.fail (.binary (.inl rfl))).bind fun _ m' _ => hnonzero m'

theorem traced_binary (u v : Value) :
    Traced depth (.expr (.binary left op right)) m₀ (binary op u v) m := by
  unfold binary
  split
  · exact traced_compareNumbers u v _
  · exact traced_compareNumbers u v _
  · exact traced_compareNumbers u v _
  · exact traced_compareNumbers u v _
  · exact .pure _
  · exact .pure _
  · exact traced_combineNumbers u v _
  · exact traced_add u v
  · exact traced_divide u v
  · exact traced_combineNumbers u v _
  · exact .pure _

theorem traced_unary (v : Value) : Traced depth (.expr (.unary op right)) m₀ (unary op v) m := by
  have hnegated : ∀ m, Traced depth (.expr (.unary op right)) m₀
      (do return Value.num (-(← Run.ofExcept v.toDouble))) m := fun m =>
    (Traced.ofExcept v.toDouble_ne_missing).bind fun _ _ _ => .pure _
  unfold unary
  split
  · dsimp only
    split
    · exact hnegated m
    · exact (Traced.fail .unary).bind fun _ m' _ => hnegated m'
  · exact .pure _
  · exact .pure _

end Operators

/-! ### Calls -/

section Calls

variable {depth : Nat} {node : Node} {m₀ m₁ : Machine} {f : Closure} {args : List Value}

theorem length_lt_of_bindParams {vars : Table Value} {params : List Token}
    (h : bindParams vars params args = .error .missingArgument) : args.length < params.length := by
  induction params generalizing vars args with
  | nil => cases h
  | cons p ps ih =>
    cases args with
    | nil => exact Nat.succ_pos _
    | cons a as => exact Nat.succ_lt_succ (ih h)

/-- Only binding the parameters fails for a missing argument. -/
theorem callVars_eq_missing {this : Value} {frame : FrameId}
    (h : callVars f this frame args = .error .missingArgument) :
    f.isGetter = false ∧ args.length < f.params.length := by
  have hreceiver : receiverVars f this frame ≠ .error .missingArgument := by
    unfold receiverVars
    dsimp only
    split
    · split <;> exact nofun
    · exact nofun
  unfold callVars at h
  cases hvars : receiverVars f this frame with
  | error d =>
    rw [hvars] at h
    exact absurd (hvars.trans h) hreceiver
  | ok vars =>
    rw [hvars] at h
    change (if f.isGetter then Except.ok vars else bindParams vars f.params args) = _ at h
    by_cases hget : f.isGetter = true
    · rw [if_pos hget] at h
      cases h
    · rw [if_neg hget] at h
      exact ⟨Bool.eq_false_iff.2 hget, length_lt_of_bindParams h⟩

theorem receiver_cases (f : Closure) (m : Machine) :
    (∃ this, receiver f m = .ok this m) ∨
      ∃ d, d ≠ .missingArgument ∧ receiver f m = .error (.defect d) m := by
  have hdenies : Denies (fun _ => False) (m.frames.getAt f.env 0 "this") :=
    Frames.denies_getAt _ _ _ _
  unfold receiver
  rw [bind_of_ok (get_eq_ok.2 ⟨rfl, rfl⟩)]
  generalize m.frames.getAt f.env 0 "this" = r at hdenies
  rcases r with (fault | d) | v
  · exact .inl ⟨.nil, rfl⟩
  · exact .inr ⟨d, hdenies, rfl⟩
  · exact .inl ⟨v, rfl⟩

theorem apply_cases (rec : Recur) (f : Closure) (args : List Value) (m : Machine) :
    (∃ d, (d = .missingArgument → f.isGetter = false ∧ args.length < f.params.length) ∧
      apply rec f args m = .error (.defect d) m) ∨ ∃ vars, Starts f args m vars := by
  obtain ⟨this, hthis⟩ | ⟨d, hd, hfails⟩ := receiver_cases f m
  · cases hvars : callVars f this m.frames.size args with
    | error d =>
      refine .inl ⟨d, ?_, ?_⟩
      · rintro rfl
        exact callVars_eq_missing hvars
      · unfold apply
        rw [bind_of_ok hthis]
        change (Run.ofExcept (callVars f this m.frames.size args) >>= _) m = _
        rw [hvars]
        rfl
    | ok vars => exact .inr ⟨vars, this, hthis, hvars⟩
  · exact .inl ⟨d, fun h => absurd h hd, bind_of_error hfails⟩

theorem apply_of_starts {m : Machine} {vars : Table Value} (rec : Recur) (hs : Starts f args m vars) :
    apply rec f args m = (do
      let result ← deliver (execIn rec f.env vars f.body)
      if f.isInit then receiver f else return result : Run Value) m := by
  obtain ⟨this, hthis, hvars⟩ := hs
  unfold apply
  rw [bind_of_ok hthis]
  change (Run.ofExcept (callVars f this m.frames.size args) >>= _) m = _
  rw [hvars]
  rfl

theorem traced_receiver (f : Closure) (m : Machine) : Traced depth node m₀ (receiver f) m := by
  intro e m' h
  obtain ⟨this, hthis⟩ | ⟨d, hd, hfails⟩ := receiver_cases f m
  · rw [hthis] at h
    cases h
  · rw [hfails] at h
    cases h
    exact .inl (.other (Exit.isTraced_defect hd))

theorem traced_apply (ha : Applies depth node m₀ f args m₁) :
    Traced depth node m₀ (apply (run depth) f args) m₁ := by
  intro e m' h
  obtain ⟨d, hmissing, hfails⟩ | ⟨vars, hs⟩ := apply_cases (run depth) f args m₁
  · rw [hfails] at h
    cases h
    by_cases hd : d = .missingArgument
    · obtain ⟨hget, hlen⟩ := hmissing hd
      exact .inl (hd ▸ .missing ha hget hlen)
    · exact .inl (.other (Exit.isTraced_defect hd))
  · rw [apply_of_starts (run depth) hs] at h
    refine Traced.bind ?_ (fun result m₂ _ => ?_) e m' h
    · intro e m' h
      unfold deliver at h
      split at h
      · cases h
      · cases h
      · next hx =>
        cases h
        obtain ⟨m₂, hbody, -⟩ := execIn_eq_error.1 hx
        obtain ⟨before, t, after, m₃, hb, hbefore, ht⟩ := execAll_eq_error.1 hbody
        exact .inr ⟨.stmt t, m₃, m₂, .call ha hs hb hbefore, ht⟩
    · split
      · exact traced_receiver f m₂
      · exact .pure _

theorem traced_applyMethod {o : Object} (hb : Binds depth node m₀ f o (some args) m₁) :
    Traced depth node m₀
      (bindReceiver f (.object o) >>= fun bound => apply (run depth) bound args) m₁ :=
  .step rfl (traced_apply (.method hb))

section Call

variable {callee : Expr} {paren : Token} {arguments : List Expr} {m₂ m₃ : Machine} {v : Value}

theorem traced_evalAll (hc : run depth (.expr callee) m₀ = .ok v m₁) (es before : List Expr)
    {vs : List Value} (hb : arguments = before ++ es)
    (h : evalAll (run depth) before m₁ = .ok vs m₂) :
    Traced depth (.expr (.call callee paren arguments)) m₀ (evalAll (run depth) es) m₂ := by
  induction es generalizing before m₂ vs with
  | nil => exact .pure _
  | cons e es ih =>
    refine (Traced.reached (.argument hb hc h)).bind fun u m₃ hu => ?_
    exact (ih (before ++ [e]) (by simp [hb]) (evalAll_snoc h hu)).bind fun _ _ _ => .pure _

theorem traced_applyChain {id : Nat} {all : List Closure} {o : Object}
    (hc : run depth (.expr callee) m₀ = .ok (.chain id all o) m₁)
    (ha : evalAll (run depth) arguments m₁ = .ok args m₂)
    (hn : arity? (.chain id all o) = some args.length) (methods before : List Closure) {r : Value}
    (hb : all = before ++ methods) (h : applyChain (run depth) o args before .nil m₂ = .ok r m₃) :
    Traced depth (.expr (.call callee paren arguments)) m₀ (applyChain (run depth) o args methods r)
      m₃ := by
  induction methods generalizing before m₃ r with
  | nil => exact .pure _
  | cons f methods ih =>
    have hbinds : Binds depth (.expr (.call callee paren arguments)) m₀ f o (some args) m₃ := by
      subst hb
      exact .chained hc ha hn h
    refine (traced_applyMethod hbinds).catchReturn.bind fun v m₄ hrun => ?_
    exact ih (before ++ [f]) (by simp [hb]) (applyChain_snoc h hrun)

theorem traced_construct {c : Class} (hc : run depth (.expr callee) m₀ = .ok (.type c) m₁)
    (ha : evalAll (run depth) arguments m₁ = .ok args m₂) (hn : args.length = c.arity) :
    Traced depth (.expr (.call callee paren arguments)) m₀ (construct (run depth) c args) m₂ := by
  refine .step rfl ?_
  cases hi : c.findMethod? "init" with
  | none => exact .pure _
  | some init => exact .step rfl ((traced_apply (.method (.initializer hc ha hn hi))).bind
      fun _ _ _ => .pure _)

theorem traced_callChecked (hc : run depth (.expr callee) m₀ = .ok v m₁)
    (ha : evalAll (run depth) arguments m₁ = .ok args m₂) :
    Traced depth (.expr (.call callee paren arguments)) m₀
      (callChecked (run depth) paren v args) m₂ := by
  unfold callChecked
  cases hn : arity? v with
  | none => exact .fail (.call (.inl rfl))
  | some arity =>
    dsimp only
    split
    · exact (Traced.fail (.call (.inr ⟨_, _, rfl⟩))).bind fun _ _ h => by cases h
    · next hne =>
      have hlen : args.length = arity := Decidable.not_not.1 hne
      rw [← hlen] at hn
      refine Traced.catchReturn ?_
      cases v with
      | function f => exact traced_apply (.function hc ha (Option.some.inj hn).symm)
      | type c => exact traced_construct hc ha (Option.some.inj hn).symm
      | chain id methods o => exact traced_applyChain hc ha hn methods [] rfl rfl
      | native n =>
        cases n with
        | clock | indexedClock | inner => exact .of_ok rfl
        | deliver => exact .throw (.other rfl)
      | _ => exact .pure _

end Call

/-! ### Properties -/

theorem traced_getProperty {object : Expr} {name : Token} {v : Value}
    (hrun : run depth (.expr object) m₀ = .ok v m₁) :
    Traced depth (.expr (.get object name)) m₀ (getProperty (run depth) v name) m₁ := by
  cases v with
  | type c =>
    unfold getProperty
    dsimp only
    split
    · exact .pure _
    · exact .fail (.get (.inr (.inl rfl)))
  | object o =>
    refine .step (a := (m₁.fields[o.id]?).bind (·.get? name.lexeme)) rfl ?_
    cases hv : (m₁.fields[o.id]?).bind (·.get? name.lexeme) with
    | some v => exact .pure _
    | none =>
      dsimp only
      cases hfound : o.type.findMethod? name.lexeme with
      | none => exact .fail (.get (.inl rfl))
      | some found =>
        dsimp only
        split
        · next f hf =>
          have hb : Binds depth (.expr (.get object name)) m₀ f o
              (if f.isGetter then some [] else none) m₁ :=
            .property hrun hv (by rw [hfound]; rfl) hf
          refine .step rfl ?_
          split
          · next hget =>
            change f.isGetter = true at hget
            rw [if_pos hget] at hb
            exact (traced_apply (.method hb)).catchReturn
          · exact .pure _
        · exact .step rfl (.pure _)
  | _ => exact .fail (.get (.inr (.inr rfl)))

theorem traced_superMethod {keyword method : Token} {address : Address} (m : Machine) :
    Traced depth (.expr (.super keyword method address)) m₀ (superMethod method address) m := by
  have hshow : ∀ (v : Value) (label : String),
      v.display.map (label ++ ·) ≠ .error .missingArgument := fun v label =>
    Except.map_ne_error v.display_ne_missing _
  refine (Traced.traceText _).bind fun _ m₁ _ => ?_
  cases address with
  | hops distance =>
    refine (Traced.traceText _).bind fun _ m₂ _ => .step rfl ?_
    refine (Traced.ofOffer (Frames.denies_getAt _ _ _ _)).bind fun parent m₃ _ => ?_
    refine (Traced.trace (hshow _ _)).bind fun _ m₄ _ => ?_
    refine (Traced.ofOffer (Frames.denies_getAt _ _ _ _)).bind fun this m₅ _ => ?_
    refine (Traced.trace (hshow _ _)).bind fun _ m₆ _ => ?_
    split
    · refine (Traced.trace (Except.map_ne_error (foundText_ne_missing _) _)).bind fun _ m₇ _ => ?_
      split
      · exact .step rfl (.pure _)
      · exact .fail .super
    · exact .breakDown nofun
  | slot | free => exact (Traced.traceText _).bind fun _ _ _ => .breakDown nofun

end Calls

/-! ### Nodes -/

section Nodes

variable {depth : Nat} {m : Machine}

variable {name : Token} {m' : Machine}

theorem traced_expr (e : Expr) : Traced depth (.expr e) m (run (depth + 1) (.expr e)) m := by
  change Traced depth (.expr e) m (evalExpr (run depth) e) m
  cases e with
  | gap => exact .breakDown nofun
  | literal value => exact .pure _
  | grouping body => exact .reached .grouping
  | unary op right => exact (Traced.reached .unary).bind fun v _ _ => traced_unary v
  | binary left op right =>
    refine (Traced.reached .binaryLeft).bind fun u m₁ hu => ?_
    exact (Traced.reached (.binaryRight hu)).bind fun v _ _ => traced_binary u v
  | logical left op right =>
    refine (Traced.reached .logicalLeft).bind fun u m₁ hu => ?_
    split
    · exact .pure _
    · next hv => exact .reached (.logicalRight hu (Bool.eq_false_iff.2 hv))
  | «variable» name address =>
    refine traced_read ?_
    rintro rfl f hf
    exact .variable hf
  | assign name address value =>
    refine (Traced.reached .assigned).bind fun v m₁ _ => ?_
    exact (traced_assign v).bind fun _ _ _ => .pure _
  | call callee paren arguments =>
    refine (Traced.reached .callee).bind fun v m₁ hc => ?_
    refine (traced_evalAll hc arguments [] rfl rfl).bind fun args m₂ ha => ?_
    exact traced_callChecked hc ha
  | lambda params body => exact .of_ok rfl
  | get object name =>
    exact (Traced.reached .getObject).bind fun v m₁ hv => traced_getProperty hv
  | set object name value =>
    refine (Traced.reached .setObject).bind fun v m₁ hv => ?_
    split
    · exact (Traced.reached (.setValue hv)).bind fun _ _ _ => .of_ok rfl
    · exact .fail .set
  | this keyword address =>
    refine traced_read ?_
    rintro rfl f hf
    exact .this hf
  | super keyword method address => exact traced_superMethod m
  | inner keyword method address =>
    exact (Traced.traceText _).bind fun _ _ _ => .fail .inner

/-! ### Class declarations -/

theorem traced_parentClass {superclass? : Option (Token × Address)} {methods : List Function} :
    Traced depth (.stmt (.classDecl name superclass? methods)) m (parentClass superclass?) m := by
  rcases superclass? with _ | ⟨parent, address⟩
  · exact .pure _
  · refine Traced.bind (traced_read ?_) fun v m₁ _ => ?_
    · rintro rfl f hf
      exact .absentSuperclass hf
    · split
      · exact .pure _
      · exact .fail .superclass

theorem methodTable_eq_ok {env : Env} {fs : List Function} {table table' : Table Closure}
    (h : methodTable env fs table m = .ok table' m') :
    m'.frames = m.frames ∧ m'.env = m.env := by
  induction fs generalizing table m with
  | nil =>
    cases h
    exact ⟨rfl, rfl⟩
  | cons f fs ih =>
    have hstep : methodTable env (f :: fs) table m = methodTable env fs
        (table.insert f.name.lexeme (f.made m.fresh env (f.name.lexeme = "init")))
        { m with fresh := m.fresh + 1 } := rfl
    obtain ⟨hframes, henv⟩ := ih (hstep.symm.trans h)
    exact ⟨hframes, henv⟩

theorem traced_methodTable {node : Node} {m₀ : Machine} (env : Env) (fs : List Function)
    (table : Table Closure) : Traced depth node m₀ (methodTable env fs table) m := by
  induction fs generalizing table m with
  | nil => exact .pure _
  | cons f fs ih => exact .step rfl (ih _)

/-- A class is bound to `nil` before its methods are made, so its name is found afterwards. -/
theorem traced_declareClass {superclass? : Option (Token × Address)} {methods : List Function} :
    Traced depth (.stmt (.classDecl name superclass? methods)) m
      (declareClass name superclass? methods) m := by
  refine traced_parentClass.bind fun parent? m₁ _ => ?_
  refine (traced_define _ _ _).bind fun _ m₂ hdef => .step rfl ?_
  obtain ⟨frame, outer, henv, hm₂, hheld⟩ := define_eq_ok hdef
  have henv₂ : m₂.env = frame :: outer := by rw [hm₂, ← henv]
  have hrest : ∀ (env : Env) (m₃ : Machine), m₃.env = frame :: outer →
      m₃.frames.held? frame name.lexeme = some .nil →
      Traced depth (.stmt (.classDecl name superclass? methods)) m (do
        let table ← methodTable env methods .empty
        let c := Class.mk (← Run.fresh) name.lexeme parent? (table.filter (!·.isStatic))
          (table.filter (·.isStatic))
        let m ← get
        let id ← Run.ofAccess name (m.frames.holder "assign" name.lexeme m.env)
        modify fun m => { m with frames := m.frames.write id name.lexeme (.type c) }) m₃ := by
    intro env m₃ henv₃ hheld₃
    refine (traced_methodTable env methods _).bind fun table m₄ htable => .step rfl (.step rfl ?_)
    obtain ⟨hframes₄, henv₄⟩ := methodTable_eq_ok htable
    have hholder : m₄.frames.holder "assign" name.lexeme m₄.env = .ok frame := by
      rw [hframes₄, henv₄, henv₃]
      exact Frames.holder_of_held? hheld₃
    dsimp only
    rw [hholder]
    exact .of_ok rfl
  cases parent? with
  | none => exact hrest _ m₂ henv₂ hheld
  | some c => exact .step rfl (hrest _ _ henv₂ (Frames.held?_push_of_held? hheld _))

/-! ### Statements -/

theorem initializer_eq_error {rec : Recur} {init : Expr} {e : Exit}
    (h : initializer rec name init m = .error e m') : rec (.expr init) m = .error e m' := by
  unfold initializer at h
  split at h
  · next hinit =>
    split at h
    · split at h
      · cases h
      · cases h
      · split at h
        · cases h
        · rw [hinit, h]
    · rw [hinit, h]
  · exact h

/-- A loop ends early where it reaches its bound, where its condition does, and where its body does, unless
that is a break. -/
theorem loop_eq_error {condition : Expr} {body : Stmt} {m₁ : Machine} {e : Exit}
    (hm : Rounds depth condition body m m₁) {rounds : Nat}
    (h : loop (run depth) condition body rounds m₁ = .error e m') :
    e = .exhausted ∨ (∃ m₂, Rounds depth condition body m m₂ ∧
      run depth (.expr condition) m₂ = .error e m') ∨
    e ≠ .broke ∧ ∃ m₂, Reaches depth (.stmt (.whileStmt condition body)) m (.stmt body) m₂ ∧
      run depth (.stmt body) m₂ = .error e m' := by
  induction rounds generalizing m₁ with
  | zero =>
    cases h
    exact .inl rfl
  | succ rounds ih =>
    simp only [loop] at h
    cases hc : run depth (.expr condition) m₁ with
    | error e₁ m₂ =>
      simp only [hc] at h
      cases h
      exact .inr (.inl ⟨m₁, hm, hc⟩)
    | ok c m₂ =>
      by_cases hv : c.isTruthy = true
      · simp only [hc, hv, if_true] at h
        cases hb : run depth (.stmt body) m₂ with
        | ok w m₃ =>
          simp only [hb] at h
          exact ih (.next hm hc hv hb) h
        | error e₁ m₃ =>
          cases e₁ with
          | broke => simp [hb] at h
          | returned | delivered | fault | defect | exhausted =>
            simp only [hb] at h
            cases h
            exact .inr (.inr ⟨by simp, m₂, .loopBody hm hc hv, hb⟩)
      · simp [hc, hv] at h

theorem traced_stmt (s : Stmt) : Traced depth (.stmt s) m (run (depth + 1) (.stmt s)) m := by
  change Traced depth (.stmt s) m (execStmt (run depth) depth s) m
  cases s with
  | gap => exact .breakDown nofun
  | bare value => exact .reached .bare
  | expression value => exact (Traced.reached .expression).bind fun _ _ _ => .pure _
  | print value =>
    refine (Traced.reached .print).bind fun v m₁ _ => ?_
    refine (Traced.trace (Except.map_ne_error v.print_ne_missing _)).bind fun _ m₂ _ => ?_
    exact (Traced.ofExcept v.print_ne_missing).bind fun _ _ _ => .of_ok rfl
  | varDecl name init? =>
    cases init? with
    | none => exact (traced_define _ _ _).bind fun _ _ _ => .pure _
    | some init =>
      refine Traced.bind ?_ fun v m₁ _ => (traced_define _ _ _).bind fun _ _ _ => .pure _
      intro e m' h
      exact Traced.reached .initializer e m' (initializer_eq_error h)
  | block body =>
    refine .step rfl (Traced.bind ?_ fun _ _ _ => .pure _)
    intro e m' h
    obtain ⟨m₁, hbody, -⟩ := execIn_eq_error.1 h
    obtain ⟨before, t, after, m₂, hb, hbefore, ht⟩ := execAll_eq_error.1 hbody
    exact .inr ⟨.stmt t, m₂, m₁, .block hb hbefore, ht⟩
  | ifStmt condition onTrue onFalse? =>
    refine (Traced.reached .condition).bind fun c m₁ hc => ?_
    split
    · next hv => exact (Traced.reached (.onTrue hc hv)).bind fun _ _ _ => .pure _
    · next hv =>
      cases onFalse? with
      | none => exact .pure _
      | some onFalse =>
        exact (Traced.reached (.onFalse hc (Bool.eq_false_iff.2 hv))).bind fun _ _ _ => .pure _
  | whileStmt condition body =>
    intro e m' h
    obtain rfl | ⟨m₂, hm, hc⟩ | ⟨-, m₂, hr, hb⟩ := loop_eq_error .none h
    · exact .inl (.other rfl)
    · exact .inr ⟨_, m₂, m', .loopCondition hm, hc⟩
    · exact .inr ⟨_, m₂, m', hr, hb⟩
  | breakStmt keyword => exact .throw (.broke rfl)
  | funDecl f => exact .step rfl (.step rfl ((traced_define _ _ _).bind fun _ _ _ => .pure _))
  | classDecl name superclass? methods => exact traced_declareClass.bind fun _ _ _ => .pure _
  | returnStmt keyword value? =>
    cases value? with
    | none => exact .throw (.returned rfl)
    | some value => exact (Traced.reached .returned).bind fun _ _ _ => .throw (.returned rfl)

/-- A node ends with an exit that it does not raise itself only if it has come to a node that ends with
it. -/
theorem traced_run (depth : Nat) (node : Node) (m : Machine) :
    Traced depth node m (run (depth + 1) node) m := by
  cases node with
  | expr e => exact traced_expr e
  | stmt s => exact traced_stmt s

end Nodes

/-! ### Where an exit comes from -/

/-- An exit with which a run ends comes from a moment: it ends the run of every moment on the way there,
and nothing that the last one has come to has ended with it. -/
inductive Origin (e : Exit) : Moment → Moment → Prop where
  | here {depth : Nat} {node : Node} {m m' : Machine} (h : run (depth + 1) node m = .error e m')
      (ho : ∀ n s m'', Reaches depth node m n s → run depth n s ≠ .error e m'') :
      Origin e ⟨depth + 1, node, m⟩ ⟨depth + 1, node, m⟩
  | inside {depth : Nat} {node n : Node} {m s m' : Machine} {w : Moment}
      (h : run (depth + 1) node m = .error e m') (hr : Reaches depth node m n s)
      (ho : Origin e ⟨depth, n, s⟩ w) : Origin e ⟨depth + 1, node, m⟩ w

/-- An exit comes from a moment, and the node there raises it; or the bound was reached. -/
theorem exists_origin {depth : Nat} {node : Node} {m m' : Machine} {e : Exit}
    (h : run depth node m = .error e m') (he : e ≠ .exhausted) :
    ∃ depth' n s, Origin e ⟨depth, node, m⟩ ⟨depth' + 1, n, s⟩ ∧ Raises depth' n s e := by
  induction depth generalizing node m m' with
  | zero =>
    cases h
    exact absurd rfl he
  | succ depth ih =>
    by_cases hown : ∀ n s m'', Reaches depth node m n s → run depth n s ≠ .error e m''
    · refine ⟨depth, node, m, .here h hown, ?_⟩
      obtain hraises | ⟨n, s, m'', hr, hn⟩ := traced_run depth node m e m' h
      · exact hraises
      · exact absurd hn (hown n s m'' hr)
    · push Not at hown
      obtain ⟨n, s, m'', hr, hn⟩ := hown
      obtain ⟨depth', n', s', ho, hraises⟩ := ih hn
      exact ⟨depth', n', s', .inside h hr ho, hraises⟩

/-- A fault comes from a node that raises it. -/
theorem exists_blamed {depth : Nat} {node : Node} {m m' : Machine} {token : Token} {f : Fault}
    (h : run depth node m = .error (.fault token f) m') :
    ∃ depth' n s, Origin (.fault token f) ⟨depth, node, m⟩ ⟨depth' + 1, n, s⟩ ∧
      n.Blames token f := by
  obtain ⟨depth', n, s, ho, hraises⟩ := exists_origin h nofun
  cases hraises with
  | fault hb => exact ⟨depth', n, s, ho, hb⟩
  | other hf => cases hf

end Eval

end Lox
