import Lox.Proofs.Machine.Receivers
import Lox.Proofs.Session.Run
import Lox.Proofs.Session.Told

/-!
# Anonymous functions and receivers

The frame of a call holds the receiver under `this`. An anonymous function can also be called in a
frame that holds its parameters alone. If the function has no receiver the two calls do the same, up
to the `nil` that the frame of the first one holds: no text has a variable called `this`, and a
receiver that is missing reads as `nil`.
-/

namespace Lox

open Eval Outcome

/-- No variable in the body of a function and none of its parameters is called `this`. -/
structure Closure.Spares (f : Closure) : Prop where
  params : ∀ param ∈ f.params, param.lexeme ≠ "this"
  body : Stmt.allOf (Node.spares ["this"]) f.body = true

theorem Node.ne_this {node : Node} (h : node.all (Node.spares ["this"]) = true) {name : Token}
    (hn : name ∈ node.bound) : name.lexeme ≠ "this" :=
  ne_of_spares (self_of_all h) (List.mem_singleton.2 rfl) hn

/-! ### Frames with a `this` that is `nil` -/

def Table.endow (vars : Table Value) : Table Value := ⟨("this", .nil) :: vars.entries⟩

theorem Table.get?_endow (vars : Table Value) (x : String) :
    vars.endow.get? x = if x = "this" then some .nil else vars.get? x := by
  unfold endow get?
  by_cases hx : x = "this"
  · simp [hx]
  · have hb : (x == "this") = false := beq_false_of_ne hx
    simp [List.lookup_cons, hb, hx]

theorem Table.insert_endow (vars : Table Value) {x : String} (hx : x ≠ "this") (v : Value) :
    vars.endow.insert x v = (vars.insert x v).endow := by
  unfold endow insert
  simp [insertEntry, hx]

theorem Eval.bindParams_endow {params : List Token} (hp : ∀ param ∈ params, param.lexeme ≠ "this")
    (vars : Table Value) (args : List Value) :
    bindParams vars.endow params args = (bindParams vars params args).map Table.endow := by
  induction params generalizing vars args with
  | nil => rfl
  | cons param params ih =>
    cases args with
    | nil => rfl
    | cons a args =>
      unfold bindParams
      rw [Table.insert_endow _ (hp param (by simp)), ih fun q hq => hp q (by simp [hq])]

def Frames.endow (id : FrameId) (frames : Frames) : Frames :=
  frames.modify id fun
    | .named vars => .named vars.endow
    | frame => frame

namespace Frames

variable {frames : Frames} {id : FrameId}

@[simp] theorem size_endow : (frames.endow id).size = frames.size := by simp [endow]

theorem endow_push (h : id < frames.size) (vars : Table Value) :
    Frames.endow id (frames.push (.named vars)) = (frames.endow id).push (.named vars) := by
  apply Array.ext_getElem?
  intro i
  unfold endow
  rw [Array.getElem?_modify]
  simp only [Array.getElem?_push, Array.size_modify, Array.getElem?_modify]
  by_cases hi : i = frames.size
  · rw [if_pos hi, if_pos hi, if_neg (hi ▸ h.ne)]
  · rw [if_neg hi, if_neg hi]

theorem endow_push_self (frames : Frames) (vars : Table Value) :
    Frames.endow frames.size (frames.push (.named vars)) = frames.push (.named vars.endow) := by
  apply Array.ext_getElem?
  intro i
  unfold endow
  rw [Array.getElem?_modify, Array.getElem?_push, Array.getElem?_push]
  by_cases hi : i = frames.size
  · rw [if_pos hi.symm, if_pos hi, if_pos hi]
    rfl
  · rw [if_neg (Ne.symm hi), if_neg hi, if_neg hi]

theorem endow_write {x : String} (hx : x ≠ "this") (i : FrameId) (v : Value) :
    Frames.endow id (frames.write i x v) = (frames.endow id).write i x v := by
  apply Array.ext_getElem?
  intro j
  unfold endow Frames.write
  simp only [Array.getElem?_modify]
  split <;> split <;> try rfl
  cases frames[j]? with
  | none => rfl
  | some frame =>
    cases frame with
    | named vars => simp [Table.insert_endow vars hx]
    | _ => rfl

/-- No access tells a `this` that is `nil` from a missing one. -/
theorem alike_endow (hg : id ≠ Machine.globalId) (hid : frames.held? id "this" = none) :
    Alike (· ≠ "this") frames (frames.endow id) where
  size := size_endow
  -- the frame of the globals is also read as a whole, so it is not endowed
  global := by
    unfold endow
    rw [Array.getElem?_modify, if_neg hg]
  named {i vars} hf := by
    unfold endow
    rw [Array.getElem?_modify, hf]
    by_cases hi : id = i
    · subst hi
      rw [held?_of_named hf] at hid
      refine ⟨vars.endow, by simp, fun x => ?_, fun x hx => by rw [Table.get?_endow, if_neg hx]⟩
      rw [Table.get?_endow]
      split
      · next hx => rw [hx, hid]; rfl
      · rfl
    · exact ⟨vars, by simp [hi], fun _ => rfl, fun _ _ => rfl⟩

end Frames

def Machine.endow (id : FrameId) (m : Machine) : Machine := { m with frames := m.frames.endow id }

theorem Machine.endow_size (m : Machine) : m.endow m.frames.size = m := by
  have hframes : m.frames.endow m.frames.size = m.frames := by
    apply Array.ext_getElem?
    intro i
    unfold Frames.endow
    rw [Array.getElem?_modify]
    split
    · next hi => rw [← hi, Array.getElem?_size]; rfl
    · rfl
  unfold endow
  rw [hframes]

/-! ### What is asked -/

/-- Functions consist of nodes in which nothing is called `this`, and frames hold receivers. The change
is to endow a frame that has no `this`. -/
def Covenant.sparing (endowed? : Option FrameId) : Covenant where
  callable _ f := f.Spares
  waiting _ f := f.Spares
  runs v := v.node.all (Node.spares ["this"]) = true
  frames frames := frames.Receives ∧
    ∀ id ∈ endowed?, id ≠ Machine.globalId ∧ id < frames.size ∧ frames.held? id "this" = none
  grows _ _ := True
  alter frames := endowed?.elim frames frames.endow
  plain x := x ≠ "this"

namespace Covenant

variable {endowed? : Option FrameId}

theorem sparing_push {m : Machine} (hm : m.Honours (sparing endowed?)) {vars : Table Value}
    (ho : (sparing endowed?).Opens m vars) :
    (sparing endowed?).frames (m.frames.push (.named vars)) ∧
      (sparing endowed?).alter (m.frames.push (.named vars)) =
        ((sparing endowed?).alter m.frames).push (.named vars) := by
  refine ⟨⟨ho.receives (fun f hf => hf.params) hm.frames.1, fun id hid => ?_⟩, ?_⟩
  · obtain ⟨hg, hlt, hheld⟩ := hm.frames.2 id hid
    refine ⟨hg, hlt.trans (by simp), ?_⟩
    rw [Frames.held?_push, if_neg hlt.ne]
    exact hheld
  · cases endowed? with
    | none => rfl
    | some id => exact Frames.endow_push (hm.frames.2 id rfl).2.1 vars

theorem sparing_write {m : Machine} (hm : m.Honours (sparing endowed?)) {name : String}
    (hn : name ≠ "this") (i : FrameId) (v : Value) :
    (sparing endowed?).frames (m.frames.write i name v) ∧
      (sparing endowed?).alter (m.frames.write i name v) =
        ((sparing endowed?).alter m.frames).write i name v := by
  refine ⟨⟨hm.frames.1.write hn i v, fun id hid => ?_⟩, ?_⟩
  · obtain ⟨hg, hlt, hheld⟩ := hm.frames.2 id hid
    exact ⟨hg, by simpa using hlt, by rw [Frames.held?_write_of_ne hn.symm, hheld]⟩
  · cases endowed? with
    | none => rfl
    | some id => exact Frames.endow_write hn i v

theorem sparing_alike {m : Machine} (hm : m.Honours (sparing endowed?)) :
    Frames.Alike (sparing endowed?).plain m.frames ((sparing endowed?).alter m.frames) := by
  cases endowed? with
  | none => exact .refl _ _
  | some id =>
    obtain ⟨hg, -, hheld⟩ := hm.frames.2 id rfl
    exact Frames.alike_endow hg hheld

theorem sparing_lawful (endowed? : Option FrameId) : (sparing endowed?).Lawful where
  refl _ := trivial
  trans _ _ := trivial
  callable_mono _ hf := hf
  waiting_mono _ hf := hf
  alike := sparing_alike
  part h _ hp _ := Node.all_part h hp
  initializer h := Node.all_initializer h
  block h _ hb _ _ := Stmt.allOf_iff.1 (Node.all_block h) _ (by simp [hb])
  call _ _ _ _ hf hb _ _ := Stmt.allOf_iff.1 hf.body _ (by simp [hb])
  bind _ _ hf := ⟨hf.params, hf.body⟩
  inherit _ _ _ _ _ hf := ⟨hf.params, hf.body⟩
  lambda h := ⟨fun _ hp => Node.ne_this h hp, Node.all_lambda h⟩
  function h _ _ _ := ⟨fun _ hp => Node.ne_this h (List.mem_cons_of_mem _ hp), Node.all_function h⟩
  method {_ _ _ _ _ f _ _ _ _ _} h hf _ _ _ := by
    have hspares : ∀ id env isInit, Closure.Spares (f.made id env isInit) := fun _ _ _ =>
      ⟨fun _ hp => Node.ne_this h (List.mem_cons_of_mem _ (List.mem_flatMap.2 ⟨f, hf, hp⟩)),
        Node.all_method h hf⟩
    unfold Policy.allows
    split
    · exact hspares _ _ _
    · exact hspares _ _ _
  push hm ho := ⟨(sparing_push hm ho).1, trivial, (sparing_push hm ho).2⟩
  write h hn hm i _ v := by
    obtain ⟨hframes, halter⟩ := sparing_write hm (Node.ne_this h (Node.mem_bound_of_given hn)) i v
    exact ⟨hframes, trivial, halter⟩
  search h hn := Node.ne_this h (Node.mem_bound_of_given hn)

end Covenant

/-! ### Machines -/

theorem Machine.Ran.honours {m : Machine} (hm : m.Ran (Node.spares ["this"])) :
    m.Honours (.sparing none) := by
  have hl := Covenant.sparing_lawful none
  induction hm with
  | start traced clock => exact obeys_start ⟨receives_start traced clock, nofun⟩
  | @ended m m' depth node _ hn he ih =>
    have hk := hl.run_keeps depth (m := m) hn ih
    rcases he with ⟨v, hv⟩ | ⟨e, he⟩
    · exact (hk.ok hv).1.honours
    · exact (hk.error he).1.honours
  | inside _ hn hr ih => exact (hl.reaches hn ih hr).2
  | aside _ hframes hfields _ _ ih => exact Covenant.honours_congr ih hframes hfields

theorem Value.Yielded.obeys {v : Value} (hv : v.Yielded (Node.spares ["this"])) (frames : Frames) :
    v.Obeys ((Covenant.sparing none).policy frames) := by
  obtain ⟨depth, node, m, m', hm, hn, hrun⟩ := hv
  exact (((Covenant.sparing_lawful none).run_keeps depth (m := m) hn hm.honours).ok hrun).2

/-! ### Calls -/

namespace Covenant

variable {endowed? : Option FrameId} {m : Machine}

theorem sparing_execAll (depth : Nat) {body : List Stmt}
    (hb : Stmt.allOf (Node.spares ["this"]) body = true) (hm : m.Honours (sparing endowed?)) :
    (sparing endowed?).Keeps (execAll (run depth) body) (execAll (run depth) body) m
      fun _ _ => True := by
  have hl := sparing_lawful endowed?
  induction body generalizing m with
  | nil => exact hl.toFair.keeps_pure hm trivial
  | cons s body ih =>
    simp only [Stmt.allOf, Bool.and_eq_true] at hb
    have hs : (sparing endowed?).runs ⟨depth, .stmt s, m⟩ := hb.1
    exact (hl.run_keeps depth hs hm).bind hl.toFair fun _ _ _ ha _ => ih hb.2 ha.honours

/-- The frame of a call that holds parameters alone may be endowed. -/
theorem honours_parameters (hm : m.Honours (sparing none)) (hsize : 0 < m.frames.size)
    {vars : Table Value} (hv : vars.All (Value.Obeys ((sparing none).policy m.frames)))
    (hthis : vars.get? "this" = none) :
    ({ m with frames := m.frames.push (.named vars) } : Machine).Honours
      (sparing (some m.frames.size)) := by
  have hmono : ∀ v, Value.Obeys ((sparing none).policy m.frames) v →
      Value.Obeys ((sparing (some m.frames.size)).policy (m.frames.push (.named vars))) v :=
    fun v hv => hv.mono (fun _ hf => hf) fun _ hf => hf
  refine ⟨(hm.values.mono hmono).push (hv.mono hmono),
    fun i table ht => (hm.fields i table ht).mono hmono, ?_, ?_⟩
  · exact hm.frames.1.push fun v hv => by rw [hthis] at hv; cases hv
  · rintro _ ⟨⟩
    exact ⟨hsize.ne', by simp, by rw [Frames.held?_push, if_pos rfl, hthis]⟩

end Covenant

namespace Eval

/-- A body does the same in a frame with the parameters alone as in one that holds a `this` that is
`nil` as well. -/
theorem execIn_endow (depth : Nat) {m : Machine} (hm : m.Honours (.sparing none))
    (hsize : 0 < m.frames.size) {body : List Stmt} (hb : Stmt.allOf (Node.spares ["this"]) body = true)
    {vars : Table Value} (hv : vars.All (Value.Obeys ((Covenant.sparing none).policy m.frames)))
    (hthis : vars.get? "this" = none) (env : Env) :
    deliver (execIn (run depth) env vars.endow body) m =
      Outcome.recast (Machine.endow m.frames.size) id id
        (deliver (execIn (run depth) env vars body) m) := by
  -- the covenant is about the frame of this very call, so it holds from when that frame is open
  have hpushed := Covenant.honours_parameters hm hsize hv hthis
  have hinside : ({ m with
      frames := m.frames.push (.named vars), env := m.frames.size :: env } : Machine).Honours
        (.sparing (some m.frames.size)) := Covenant.honours_congr hpushed rfl rfl
  have hkeeps := (Covenant.sparing_execAll depth hb hinside).within (m := { m with
    frames := m.frames.push (.named vars) })
  have hmirror := hkeeps.deliver.1
  have himage : (Covenant.sparing (some m.frames.size)).image
      { m with frames := m.frames.push (.named vars) } =
        { m with frames := m.frames.push (.named vars.endow) } := by
    unfold Covenant.image
    rw [← Frames.endow_push_self]
    rfl
  unfold Mirrors at hmirror
  rw [himage] at hmirror
  exact hmirror

/-- A function whose environment starts with a frame without an instance has no receiver. -/
theorem receiver_eq_nil {f : Closure} {m : Machine} {frame : FrameId} {outer : Env}
    (hm : m.Honours (.sparing none)) (henv : f.env = frame :: outer) (hframe : frame < m.frames.size)
    (hthis : ∀ o, m.frames.held? frame "this" ≠ some (.object o)) :
    receiver f m = .ok .nil m := by
  obtain ⟨vars, hvars, -⟩ := hm.values.exists_named hframe
  have hnil : (m.frames.held? frame "this").getD .nil = .nil := by
    cases hheld : m.frames.held? frame "this" with
    | none => rfl
    | some v =>
      rcases hm.frames.1 frame v hheld with rfl | ⟨o, rfl⟩
      · rfl
      · exact absurd hheld (hthis o)
  refine receiver_of_getAt ?_
  rw [Frames.getAt_eq (by rw [henv]; rfl) hvars, hnil]

/-- Calling an anonymous function that has no receiver does what running its body in a frame with the
parameters alone does: it ends in the same way, with the same value or exit, and leaves the same
machine behind, except that the frame of the call holds a `this` that is `nil` as well. That frame did
not exist before. -/
theorem apply_anonymous (depth number : Nat) {m : Machine} (hm : m.Ran (Node.spares ["this"]))
    {params : List Token} {body : List Stmt}
    (hn : (Node.expr (.lambda params body)).all (Node.spares ["this"]) = true) {frame : FrameId}
    {outer : Env} (hframe : frame < m.frames.size)
    (hthis : ∀ o, m.frames.held? frame "this" ≠ some (.object o)) {args : List Value}
    (hargs : ∀ a ∈ args, a.Yielded (Node.spares ["this"])) :
    apply (run depth) ⟨number, none, params, body, frame :: outer, false, false, false⟩ args m =
      Outcome.recast (Machine.endow m.frames.size) id id
        (applyPlain (run depth) (frame :: outer) params body args m) := by
  have hh := hm.honours
  have hruns : (Covenant.sparing none).runs ⟨depth + 1, .expr (.lambda params body), m⟩ := hn
  have hspares := (Covenant.sparing_lawful none).lambda hruns
  have hreceiver := receiver_eq_nil
    (f := ⟨number, none, params, body, frame :: outer, false, false, false⟩) hh rfl hframe hthis
  have hvars := bindParams_endow hspares.params .empty args
  unfold apply applyPlain
  rw [bind_of_ok hreceiver]
  -- a call without a receiver starts from `this` alone, which is the endowed empty table
  change (Run.ofExcept (bindParams Table.empty.endow params args) >>= fun vars =>
    deliver (execIn (run depth) (frame :: outer) vars body) >>= pure) m = _
  cases hb : bindParams .empty params args with
  | error d =>
    -- too few arguments: no frame is opened
    rw [hvars, hb]
    change EStateM.Result.error _ m = .error _ (m.endow m.frames.size)
    rw [m.endow_size]
    rfl
  | ok vars =>
    rw [hvars, hb]
    have hall := (bindParams_eq_ok hb (Table.All.empty _) fun a ha => (hargs a ha).obeys m.frames).1
    have hnone : vars.get? "this" = none := get?_bindParams hb hspares.params
    change (deliver (execIn (run depth) (frame :: outer) vars.endow body) >>= pure) m = _
    rw [bind_pure, execIn_endow depth hh (Nat.zero_lt_of_lt hframe) hspares.body hall hnone]
    rfl

/-- The parameters and the body of `fun (x) { fun g() { return x; } print g(); }`, with the variables
found. -/
def callsInner : List Token × List Stmt :=
  ([.ident "x" 1],
    [.funDecl ⟨.ident "g" 1, [], [.returnStmt ⟨.kwReturn, "return", .nil, 1⟩
        (some (.variable (.ident "x" 1) (.hops 1)))], false, false⟩,
      .print (.call (.variable (.ident "g" 1) (.hops 0)) ⟨.rightParen, ")", .nil, 1⟩ [])])

theorem apply_anonymous_callsInner :
    (Scope.resolve true (Tree.parse (Token.scan
      "var f = fun (x) { fun g() { return x; } print g(); };").tokens).statements).statements =
        .ok [.varDecl (.ident "f" 1) (some (.lambda callsInner.1 callsInner.2))] ∧
    ∃ m' : Machine,
      applyPlain (run 9) Machine.globals callsInner.1 callsInner.2 [.bool true] (.start false 0) =
        .ok .nil m' ∧
      apply (run 9) ⟨0, none, callsInner.1, callsInner.2, Machine.globals, false, false, false⟩
        [.bool true] (.start false 0) = .ok .nil (m'.endow 1) ∧
      m'.out = #[.shown "true"] ∧ m'.frames.held? 1 "this" = none ∧
      (m'.endow 1).frames.held? 1 "this" = some .nil := by
  have hyielded : Value.Yielded (Node.spares ["this"]) (.bool true) :=
    ⟨1, .expr (.literal (.bool true)), .start false 0, _, .start false 0, rfl, rfl⟩
  have hn : (Node.expr (.lambda callsInner.1 callsInner.2)).all (Node.spares ["this"]) = true := by
    decide
  have hargs : ∀ a ∈ [Value.bool true], a.Yielded (Node.spares ["this"]) := by simpa using hyielded
  have hthis : ∀ o, (Machine.start false 0).frames.held? 0 "this" ≠ some (.object o) := nofun
  have happly : apply (run 9)
      ⟨0, none, callsInner.1, callsInner.2, Machine.globals, false, false, false⟩ [.bool true]
        (.start false 0) = _ :=
    apply_anonymous 9 0 (.start false 0) hn (by decide) hthis hargs
  have hadmits : Admits ⟨"var f = fun (x) { fun g() { return x; } print g(); };", false⟩
      [.varDecl (.ident "f" 1) (some (.lambda callsInner.1 callsInner.2))] := .of_yields (by decide +kernel)
  exact ⟨hadmits.resolved, _, rfl, happly, rfl, rfl, rfl⟩

end Eval

end Lox
