import Lox.Proofs.Machine.Origins
import Lox.Proofs.Session.Course
import Lox.Proofs.Session.Reachable

/-!
# Methods of instances and methods of classes

A class keeps the methods of its instances apart from its own, but it takes both from one list in which
a later method replaces an earlier one of its name, whatever their kinds. So the methods of one kind can
be found as if the others were not there, unless the last method of a name is of the other kind.
-/

namespace Lox

/-! ### The methods of a declaration -/

namespace Function

def latest? (x : String) (fs : List Function) : Option Function :=
  (fs.filter fun f => f.name.lexeme == x).getLast?

/-- The methods of one kind: those of the class itself or those of its instances. -/
def ofKind (isStatic : Bool) (fs : List Function) : List Function :=
  fs.filter fun f => f.isStatic == isStatic

/-- There are methods of one kind with a name, but the last one of that name is of the other kind. -/
def Hidden (isStatic : Bool) (x : String) (fs : List Function) : Prop :=
  (latest? x (ofKind isStatic fs)).isSome = true ∧ ∃ g ∈ latest? x fs, g.isStatic ≠ isStatic

theorem latest?_cons (x : String) (f : Function) (fs : List Function) :
    latest? x (f :: fs) = (latest? x fs).or (if f.name.lexeme = x then some f else none) := by
  unfold latest?
  by_cases hf : f.name.lexeme = x
  · rw [List.filter_cons_of_pos (by simp [hf]), List.getLast?_cons, if_pos hf]
    cases (fs.filter fun f => f.name.lexeme == x).getLast? <;> rfl
  · rw [List.filter_cons_of_neg (by simp [hf]), if_neg hf, Option.or_none]

theorem latest?_ofKind {isStatic : Bool} {x : String} {fs : List Function} {f : Function}
    (h : latest? x fs = some f) (hf : f.isStatic = isStatic) :
    latest? x (ofKind isStatic fs) = some f := by
  obtain ⟨before, hb⟩ := List.getLast?_eq_some_iff.1 h
  unfold latest? ofKind
  rw [List.filter_comm, hb, List.filter_append, List.filter_singleton, hf, beq_self_eq_true, cond_true]
  exact List.getLast?_concat

variable {isStatic : Bool} {x : String} {fs : List Function}

theorem latest?_of_not_hidden {f : Function} (h : latest? x (ofKind isStatic fs) = some f)
    (hh : ¬Hidden isStatic x fs) : latest? x fs = some f := by
  cases hlast : latest? x fs with
  | none =>
    have hnone : fs.filter (fun f => f.name.lexeme == x) = [] := List.getLast?_eq_none_iff.1 hlast
    unfold latest? ofKind at h
    rw [List.filter_comm, hnone] at h
    cases h
  | some g =>
    have hg : g.isStatic = isStatic := by
      by_contra hne
      exact hh ⟨by rw [h]; rfl, g, hlast, hne⟩
    rw [← h, latest?_ofKind hlast hg]

theorem isStatic_ne_of_hidden (h : latest? x (ofKind isStatic fs) = none ∨ Hidden isStatic x fs)
    {g : Function} (hg : latest? x fs = some g) : g.isStatic ≠ isStatic := by
  rcases h with hnone | ⟨-, g', hg', hne⟩
  · intro heq
    rw [latest?_ofKind hg heq] at hnone
    cases hnone
  · rw [hg] at hg'
    cases hg'
    exact hne

theorem not_hidden_of_forall (h : ∀ f ∈ fs, f.isStatic = isStatic) : ¬Hidden isStatic x fs := by
  rintro ⟨-, g, hg, hne⟩
  exact hne (h g (List.mem_of_mem_filter (List.mem_of_getLast? hg)))

end Function

/-! ### The methods of a class -/

def Closure.unnumbered (f : Closure) : Closure := { f with id := 0 }

namespace Class

def own (isStatic : Bool) (c : Class) : Table Closure := if isStatic then c.statics else c.methods

def find? (isStatic : Bool) (x : String) (c : Class) : Option Closure :=
  if isStatic then c.findStatic? x else c.findMethod? x

theorem find?_eq (isStatic : Bool) (x : String) (c : Class) :
    c.find? isStatic x = ((c.own isStatic).get? x).or (c.superclass?.bind (find? isStatic x)) := by
  obtain ⟨id, name, superclass?, methods, statics⟩ := c
  cases isStatic with
  | false =>
    change findMethod? x (.mk id name superclass? methods statics) =
      (methods.get? x).or (superclass?.bind (findMethod? x))
    cases superclass? <;> rw [findMethod?] <;> cases methods.get? x <;> rfl
  | true =>
    change findStatic? x (.mk id name superclass? methods statics) =
      (statics.get? x).or (superclass?.bind (findStatic? x))
    cases superclass? <;> rw [findStatic?] <;> cases statics.get? x <;> rfl

theorem Known.find? {h : Heap} {c : Class} (hc : c.Known h) {isStatic : Bool} {x : String} {f : Closure}
    (hf : c.find? isStatic x = some f) : f.Known h := by
  cases isStatic with
  | false => exact known_findMethod? hc hf
  | true => exact known_findStatic? hc hf

/-- The arity of a class is that of the initializer it finds. -/
theorem arity_eq (c : Class) : c.arity = ((c.find? false "init").map Closure.arity).getD 0 := by
  change _ = ((c.findMethod? "init").map Closure.arity).getD 0
  unfold arity
  cases c.findMethod? "init" <;> rfl

theorem arity_congr {c d : Class}
    (h : (c.find? false "init").map Closure.unnumbered = (d.find? false "init").map Closure.unnumbered) :
    c.arity = d.arity := by
  have hcomp : ∀ f? : Option Closure,
      f?.map Closure.arity = (f?.map Closure.unnumbered).map Closure.arity := by
    intro f?
    cases f? <;> rfl
  rw [arity_eq, arity_eq, hcomp, h, ← hcomp]

/-- What a class finds, given the list of the methods that it declares. A method of the list is found,
the last one of its kind and name, unless it is hidden; otherwise what the superclass finds. -/
structure Collects (env : Env) (fs : List Function) (c : Class) : Prop where
  declared {isStatic : Bool} {x : String} {f : Function}
    (hf : Function.latest? x (Function.ofKind isStatic fs) = some f)
    (hh : ¬Function.Hidden isStatic x fs) :
    ∃ id, c.find? isStatic x = some (f.made id env (x = "init"))
  inherited {isStatic : Bool} {x : String}
    (h : Function.latest? x (Function.ofKind isStatic fs) = none ∨ Function.Hidden isStatic x fs) :
    c.find? isStatic x = c.superclass?.bind (find? isStatic x)

theorem Collects.find?_congr_iff {env : Env} {fs gs : List Function} {c d : Class} {isStatic : Bool}
    {x : String} (hc : c.Collects env fs) (hd : d.Collects env gs) (hs : d.superclass? = c.superclass?)
    (hk : Function.ofKind isStatic gs = Function.ofKind isStatic fs)
    (henv : ∀ f ∈ c.superclass?.bind (find? isStatic x), f.env ≠ env) :
    (c.find? isStatic x).map Closure.unnumbered = (d.find? isStatic x).map Closure.unnumbered ↔
      (Function.Hidden isStatic x fs ↔ Function.Hidden isStatic x gs) := by
  cases hlast : Function.latest? x (Function.ofKind isStatic fs) with
  | none =>
    have hlast' : Function.latest? x (Function.ofKind isStatic gs) = none := by rw [hk, hlast]
    have hfs : ¬Function.Hidden isStatic x fs := fun hh => by simp [Function.Hidden, hlast] at hh
    have hgs : ¬Function.Hidden isStatic x gs := fun hh => by simp [Function.Hidden, hlast'] at hh
    rw [hc.inherited (.inl hlast), hd.inherited (.inl hlast'), hs]
    exact ⟨fun _ => iff_of_false hfs hgs, fun _ => rfl⟩
  | some f =>
    have hlast' : Function.latest? x (Function.ofKind isStatic gs) = some f := by rw [hk, hlast]
    -- what the superclass finds was made in another environment than the methods of the list
    have hother : ∀ id, (c.superclass?.bind (find? isStatic x)).map Closure.unnumbered ≠
        (some (f.made id env (x = "init"))).map Closure.unnumbered := by
      intro id heq
      obtain ⟨g, hg, hfg⟩ := Option.map_eq_some_iff.1 heq
      exact henv g hg (congrArg Closure.env hfg)
    by_cases hfs : Function.Hidden isStatic x fs <;> by_cases hgs : Function.Hidden isStatic x gs
    · rw [hc.inherited (.inr hfs), hd.inherited (.inr hgs), hs]
      exact ⟨fun _ => iff_of_true hfs hgs, fun _ => rfl⟩
    · obtain ⟨id, hid⟩ := hd.declared hlast' hgs
      rw [hc.inherited (.inr hfs), hid]
      exact ⟨fun heq => absurd heq (hother id), fun hiff => absurd (hiff.1 hfs) hgs⟩
    · obtain ⟨id, hid⟩ := hc.declared hlast hfs
      rw [hd.inherited (.inr hgs), hid, hs]
      exact ⟨fun heq => absurd heq.symm (hother id), fun hiff => absurd (hiff.2 hgs) hfs⟩
    · obtain ⟨id, hid⟩ := hc.declared hlast hfs
      obtain ⟨id', hid'⟩ := hd.declared hlast' hgs
      rw [hid, hid']
      exact ⟨fun _ => iff_of_false hfs hgs, fun _ => rfl⟩

end Class

namespace Eval

open Run Outcome

/-! ### Declaring a class -/

theorem methodTable_ok (env : Env) (fs : List Function) (table : Table Closure) (m : Machine)
    (hn : table.names.Nodup) :
    ∃ table', methodTable env fs table m = .ok table' { m with fresh := m.fresh + fs.length } ∧
      table'.names.Nodup ∧ ∀ x,
        (Function.latest? x fs = none → table'.get? x = table.get? x) ∧
        ∀ f, Function.latest? x fs = some f →
          ∃ id, table'.get? x = some (f.made id env (x = "init")) := by
  induction fs generalizing table m with
  | nil => exact ⟨table, rfl, hn, fun x => ⟨fun _ => rfl, nofun⟩⟩
  | cons f fs ih =>
    obtain ⟨table', hrun, hn', hget⟩ :=
      ih (table.insert f.name.lexeme (f.made m.fresh env (f.name.lexeme = "init")))
        { m with fresh := m.fresh + 1 } (Table.nodup_insert hn _ _)
    refine ⟨table', ?_, hn', fun x => ?_⟩
    · rw [List.length_cons, Nat.add_comm fs.length, ← Nat.add_assoc]
      exact hrun
    · obtain ⟨hnone, hsome⟩ := hget x
      rw [Function.latest?_cons]
      cases hlast : Function.latest? x fs with
      | some g => exact ⟨nofun, fun g' hg' => hsome g' (hlast.trans hg')⟩
      | none =>
        rw [hnone hlast, Table.get?_insert, Option.none_or]
        by_cases hx : f.name.lexeme = x
        · subst hx
          rw [if_pos rfl, if_pos rfl]
          refine ⟨nofun, ?_⟩
          rintro _ ⟨⟩
          exact ⟨m.fresh, rfl⟩
        · rw [if_neg hx, if_neg (Ne.symm hx)]
          exact ⟨fun _ => rfl, nofun⟩

theorem collects_of_table {env : Env} {fs : List Function} {table : Table Closure} {id : Nat}
    {name : String} {parent? : Option Class} (hn : table.names.Nodup)
    (hnone : ∀ x, Function.latest? x fs = none → table.get? x = none)
    (hsome : ∀ x f, Function.latest? x fs = some f →
      ∃ id, table.get? x = some (f.made id env (x = "init"))) :
    (Class.mk id name parent? (table.filter (!·.isStatic)) (table.filter (·.isStatic))).Collects env
      fs := by
  have hown : ∀ isStatic x, ((Class.mk id name parent? (table.filter (!·.isStatic))
      (table.filter (·.isStatic))).own isStatic).get? x = (table.get? x).filter (·.isStatic == isStatic) := by
    intro isStatic x
    cases isStatic <;> simp [Class.own, Class.methods, Class.statics, Table.get?_filter hn]
  constructor
  · intro isStatic x f hf hh
    have hlast := Function.latest?_of_not_hidden hf hh
    obtain ⟨id', hid⟩ := hsome x f hlast
    have hkind : f.isStatic = isStatic := by
      have hmem := List.mem_of_mem_filter (List.mem_of_getLast? hf)
      exact beq_iff_eq.1 (List.mem_filter.1 hmem).2
    have hmade : (f.made id' env (x = "init")).isStatic = isStatic := hkind
    refine ⟨id', ?_⟩
    rw [Class.find?_eq, hown, hid, Option.filter_some, if_pos (beq_iff_eq.2 hmade), Option.some_or]
  · intro isStatic x h
    rw [Class.find?_eq, hown]
    cases hlast : Function.latest? x fs with
    | none =>
      rw [hnone x hlast]
      rfl
    | some g =>
      obtain ⟨id', hid⟩ := hsome x g hlast
      have hmade : (g.made id' env (x = "init")).isStatic ≠ isStatic :=
        Function.isStatic_ne_of_hidden h hlast
      rw [hid, Option.filter_some, if_neg (fun hb => hmade (beq_iff_eq.1 hb)), Option.none_or]

/-- Running the declaration of a class completes and binds its name, in the innermost frame, to a
class. -/
def Declares (depth : Nat) (name : Token) (superclass? : Option (Token × Address)) (fs : List Function)
    (m : Machine) (c : Class) : Prop :=
  ∃ m' frame, run depth (.stmt (.classDecl name superclass? fs)) m = .ok .nil m' ∧
    m.env.head? = some frame ∧ m'.frames.held? frame name.lexeme = some (.type c)

section Declares

variable {depth : Nat} {name : Token} {superclass? : Option (Token × Address)} {m m₁ m₂ : Machine}
  {parent? : Option Class} {u : Unit}

theorem exists_declares (hp : parentClass superclass? m = .ok parent? m)
    (hdef : define name name.lexeme .nil m = .ok u m₂) (fs : List Function) :
    ∃ c, Declares (depth + 1) name superclass? fs m c ∧ c.superclass? = parent? ∧
      c.Collects (m₂.methodEnv parent?) fs := by
  obtain ⟨frame, outer, houter, hm₂, hheld⟩ := define_eq_ok hdef
  have henv₂ : m₂.env = frame :: outer := by rw [hm₂, ← houter]
  obtain ⟨m₃, hopen, henv₃, hheld₃⟩ : ∃ m₃, methodEnv m₂.env parent? m₂ = .ok (m₂.methodEnv parent?) m₃ ∧
      m₃.env = frame :: outer ∧ m₃.frames.held? frame name.lexeme = some .nil := by
    cases parent? with
    | none => exact ⟨m₂, rfl, henv₂, hheld⟩
    | some c => exact ⟨_, rfl, henv₂, Frames.held?_push_of_held? hheld _⟩
  obtain ⟨table, htable, hn, hget⟩ :=
    methodTable_ok (m₂.methodEnv parent?) fs .empty m₃ List.nodup_nil
  have hholder : m₃.frames.holder "assign" name.lexeme m₃.env = .ok frame := by
    rw [henv₃]
    exact Frames.holder_of_held? hheld₃
  obtain ⟨vars, hnamed⟩ := Frames.exists_named_of_held? hheld₃
  have hrun : declareClass name superclass? fs m = .ok ()
      { m₃ with
        fresh := m₃.fresh + fs.length + 1
        frames := m₃.frames.write frame name.lexeme (.type (.mk (m₃.fresh + fs.length) name.lexeme parent?
          (table.filter (!·.isStatic)) (table.filter (·.isStatic)))) } := by
    unfold declareClass
    rw [bind_of_ok hp, bind_of_ok hdef, bind_of_ok (get_eq_ok.2 ⟨rfl, rfl⟩), bind_of_ok hopen,
      bind_of_ok htable]
    change (ofAccess name (m₃.frames.holder "assign" name.lexeme m₃.env) >>= _) _ = _
    rw [hholder]
    rfl
  refine ⟨.mk (m₃.fresh + fs.length) name.lexeme parent? (table.filter (!·.isStatic))
    (table.filter (·.isStatic)), ⟨_, frame, bind_of_ok hrun, ?_, ?_⟩, rfl,
    collects_of_table hn (fun x => (hget x).1) fun x => (hget x).2⟩
  · rw [houter, List.head?_cons]
  · rw [Frames.held?_write hnamed, if_pos ⟨rfl, rfl⟩]

theorem ofAccess_eq_ok {α : Type} {token : Token} {r : Except Denial α} {a : α}
    (h : ofAccess token r m = .ok a m₁) : m₁ = m := by
  cases r with
  | ok b =>
    cases h
    rfl
  | error d => cases d <;> cases h

theorem parentClass_eq_ok (h : parentClass superclass? m = .ok parent? m₁) : m₁ = m := by
  cases superclass? with
  | none =>
    cases h
    rfl
  | some superclass =>
    obtain ⟨v, m', hread, hclass⟩ := bind_eq_ok.1 h
    obtain rfl : m' = m := ofAccess_eq_ok hread
    cases v with
    | type c =>
      cases hclass
      rfl
    | _ => cases hclass

theorem Declares.exists_parent {fs : List Function} {c : Class} (h : Declares depth name superclass? fs m c) :
    ∃ d parent? m₂ u, depth = d + 1 ∧ parentClass superclass? m = .ok parent? m ∧
      define name name.lexeme .nil m = .ok u m₂ := by
  obtain ⟨m', frame, hrun, -, -⟩ := h
  cases depth with
  | zero => cases hrun
  | succ d =>
    obtain ⟨_, _, hdeclare, -⟩ := bind_eq_ok.1 hrun
    obtain ⟨parent?, m₁, hp, hrest⟩ := bind_eq_ok.1 hdeclare
    obtain ⟨u, m₂, hdef, -⟩ := bind_eq_ok.1 hrest
    obtain rfl := parentClass_eq_ok hp
    exact ⟨d, parent?, m₂, u, rfl, hp, hdef⟩

theorem Declares.unique {fs : List Function} {c d : Class} (hc : Declares depth name superclass? fs m c)
    (hd : Declares depth name superclass? fs m d) : c = d := by
  obtain ⟨m', frame, hrun, henv, hheld⟩ := hc
  obtain ⟨m'', frame', hrun', henv', hheld'⟩ := hd
  cases hrun.symm.trans hrun'
  cases henv.symm.trans henv'
  cases hheld.symm.trans hheld'
  rfl

theorem env_ne_methodEnv (hm : m.Reachable) (hp : parentClass superclass? m = .ok parent? m)
    (hdef : define name name.lexeme .nil m = .ok u m₂) {isStatic : Bool} {x : String} {f : Closure}
    (hf : parent?.bind (Class.find? isStatic x) = some f) : f.env ≠ m₂.methodEnv parent? := by
  obtain ⟨h, hd⟩ := hm.exists_describes
  obtain ⟨parent, rfl, hfind⟩ := Option.bind_eq_some_iff.1 hf
  obtain ⟨h₁, hl₁, hparent⟩ := (conserves_parentClass hd superclass?).ok hp
  obtain ⟨h₂, hl₂, -⟩ :=
    (conserves_define hl₁.describes name name.lexeme (v := .nil) trivial).ok hdef
  have hknown : f.Known h₂ := ((hparent parent rfl).find? hfind).mono hl₂.le
  intro heq
  have hmem : m₂.frames.size ∈ f.env := by
    rw [heq]
    exact List.mem_cons_self
  have hlt := Heap.lt_length_of_path hknown.path _ hmem
  rw [hl₂.describes.size] at hlt
  exact Nat.lt_irrefl _ hlt

end Declares

theorem binds_type_iff {depth : Nat} {callee : Expr} {paren : Token} {arguments : List Expr}
    {m m₁ m₂ : Machine} {c : Class} {args : List Value} {f : Closure}
    (hc : run depth (.expr callee) m = .ok (.type c) m₁)
    (ha : evalAll (run depth) arguments m₁ = .ok args m₂) :
    (∃ o m', Binds depth (.expr (.call callee paren arguments)) m f o (some args) m') ↔
      args.length = c.arity ∧ c.find? false "init" = some f := by
  constructor
  · rintro ⟨o, m', hb⟩
    cases hb with
    | initializer hc' ha' hn hf =>
      cases hc.symm.trans hc'
      exact ⟨hn, hf⟩
    | chained hc' => cases hc.symm.trans hc'
  · rintro ⟨hn, hf⟩
    exact ⟨_, _, .initializer hc ha hn hf⟩

/-- The methods of a class and those of its instances are found apart from each other, except where one
hides the other. The class that a declaration makes finds the last method of each kind and name, and what
its superclass finds if there is none or it is hidden. The declaration with other methods of the other
kind makes a class that finds the same under a name if and only if the method of that name is hidden in
both or in none; so it takes the same arguments and runs the same initializer if that holds of the
initializer. -/
theorem method_kinds_apart_iff {m : Machine} (hm : m.Reachable) {depth : Nat} {name : Token}
    {superclass? : Option (Token × Address)} {fs : List Function} {c : Class}
    (hc : Declares depth name superclass? fs m c) :
    (∃ env, c.Collects env fs) ∧
    (∀ (isStatic : Bool) (gs : List Function),
      Function.ofKind isStatic gs = Function.ofKind isStatic fs →
      ∃ d, Declares depth name superclass? gs m d ∧
        (∀ x, (c.find? isStatic x).map Closure.unnumbered = (d.find? isStatic x).map Closure.unnumbered ↔
          (Function.Hidden isStatic x fs ↔ Function.Hidden isStatic x gs)) ∧
        (isStatic = false → (Function.Hidden false "init" fs ↔ Function.Hidden false "init" gs) →
          c.arity = d.arity)) ∧
    ∀ (depth : Nat) (callee : Expr) (paren : Token) (arguments : List Expr) (s s₁ s₂ : Machine)
      (args : List Value) (f : Closure), run depth (.expr callee) s = .ok (.type c) s₁ →
      evalAll (run depth) arguments s₁ = .ok args s₂ →
      ((∃ o s', Binds depth (.expr (.call callee paren arguments)) s f o (some args) s') ↔
        args.length = c.arity ∧ c.find? false "init" = some f) := by
  obtain ⟨k, parent?, m₂, u, rfl, hp, hdef⟩ := hc.exists_parent
  obtain ⟨c', hc', hparent, hcollects⟩ := exists_declares hp hdef fs
  obtain rfl := hc.unique hc'
  refine ⟨⟨_, hcollects⟩, fun isStatic gs hgs => ?_, fun _ _ _ _ _ _ _ _ _ => binds_type_iff⟩
  obtain ⟨d, hd, hparent', hcollects'⟩ := exists_declares hp hdef gs
  have hiff : ∀ x, (c.find? isStatic x).map Closure.unnumbered =
      (d.find? isStatic x).map Closure.unnumbered ↔
        (Function.Hidden isStatic x fs ↔ Function.Hidden isStatic x gs) := fun x =>
    hcollects.find?_congr_iff hcollects' (hparent'.trans hparent.symm) hgs fun f hf =>
      env_ne_methodEnv hm hp hdef (by rwa [hparent] at hf)
  refine ⟨d, hd, hiff, ?_⟩
  rintro rfl hinit
  exact Class.arity_congr ((hiff "init").2 hinit)

private def emptyMethod (name : String) (isStatic : Bool) : Function :=
  ⟨.ident name 1, [], [], isStatic, false⟩

private def baseDeclared : Machine :=
  leftBy 1 (.stmt (.classDecl (.ident "A" 1) none [emptyMethod "m" false])) (.start false 0)

private def bindsClass (name : String) : EStateM.Result Exit Machine Value → Bool
  | .ok .nil m =>
    match m.frames.held? 0 name with
    | some (.type _) => true
    | _ => false
  | _ => false

private theorem exists_declares_of_bindsClass {depth : Nat} {name : Token}
    {superclass? : Option (Token × Address)} {fs : List Function} {m : Machine}
    (henv : m.env.head? = some 0)
    (h : bindsClass name.lexeme (run depth (.stmt (.classDecl name superclass? fs)) m) = true) :
    ∃ c, Declares depth name superclass? fs m c := by
  unfold bindsClass at h
  split at h
  · next m' hrun =>
    split at h
    · next c hheld => exact ⟨c, m', 0, hrun, henv, hheld⟩
    · cases h
  · cases h

/-- The methods of a subclass, and those of its instances alone. -/
private def mixedMethods : List Function :=
  [emptyMethod "init" false, emptyMethod "m" false, emptyMethod "m" true]

private def instanceMethods : List Function := [emptyMethod "init" false, emptyMethod "m" false]

/-- The method of the class hides that of its instances, which find that of the superclass; the
initializer is the same. -/
theorem method_kinds_apart_iff_mixed :
    ∃ c d, Declares 1 (.ident "B" 1) (some (.ident "A" 1, .free)) mixedMethods baseDeclared c ∧
      Declares 1 (.ident "B" 1) (some (.ident "A" 1, .free)) instanceMethods baseDeclared d ∧
      (c.find? false "m").map Closure.unnumbered ≠ (d.find? false "m").map Closure.unnumbered ∧
      (c.find? false "init").map Closure.unnumbered = (d.find? false "init").map Closure.unnumbered ∧
      c.arity = d.arity := by
  have hreachable : baseDeclared.Reachable := (Machine.Reachable.start false 0).ended (endsIn_leftBy _ _ _)
  obtain ⟨c, hc⟩ : ∃ c, Declares 1 (.ident "B" 1) (some (.ident "A" 1, .free)) mixedMethods
      baseDeclared c :=
    exists_declares_of_bindsClass (by decide +kernel) (by decide +kernel)
  obtain ⟨-, hkinds, -⟩ := method_kinds_apart_iff hreachable hc
  obtain ⟨d, hd, hiff, harity⟩ := hkinds false instanceMethods rfl
  have hhidden : Function.Hidden false "m" mixedMethods := ⟨rfl, emptyMethod "m" true, rfl, by decide⟩
  have hshown : ∀ x, ¬Function.Hidden false x instanceMethods := fun x =>
    Function.not_hidden_of_forall (by decide)
  have hinit : ¬Function.Hidden false "init" mixedMethods := by
    rintro ⟨-, g, hg, hne⟩
    cases hg
    exact hne rfl
  refine ⟨c, d, hc, hd, fun heq => ?_, ?_, ?_⟩
  · exact hshown "m" (((hiff "m").1 heq).1 hhidden)
  · exact (hiff "init").2 (iff_of_false hinit (hshown "init"))
  · exact harity rfl (iff_of_false hinit (hshown "init"))

def initializerHidden : Text where
  source := "class C{init(){print true;}class init(){}}C();"
  echoes := false

/-- The initializer is not run. -/
theorem method_kinds_not_apart :
    initializerHidden.complaints = [] ∧
      ((Session.new true 0).left
          (Session.run initializerHidden.source initializerHidden.echoes)).machine.out = #[] ∧
      ((Session.new true 0).left
          (Session.run initializerHidden.source initializerHidden.echoes)).reports = #[] := by
  decide +kernel

end Eval

end Lox
