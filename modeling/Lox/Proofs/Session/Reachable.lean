import Lox.Proofs.Machine.Conservation
import Lox.Proofs.Machine.Visit
import Lox.Proofs.Session.Steps

/-!
# The heap of every machine that is reached

Whatever a session is asked to do, and at every moment of it, there is a heap that records what the
machine holds. Running a node makes it grow and changes nothing in it, so the links between frames and
between classes lead to earlier ones and every walk along them ends.
-/

namespace Lox

open Eval Run

/-- Running a node ends, in one way or another, in the given machine. -/
def Eval.EndsIn (depth : Nat) (node : Node) (m m' : Machine) : Prop :=
  (∃ v, Eval.run depth node m = .ok v m') ∨ ∃ e, Eval.run depth node m = .error e m'

def Eval.leftBy (depth : Nat) (node : Node) (m : Machine) : Machine :=
  match Eval.run depth node m with
  | .ok _ m' | .error _ m' => m'

theorem Eval.endsIn_leftBy (depth : Nat) (node : Node) (m : Machine) :
    EndsIn depth node m (leftBy depth node m) := by
  unfold leftBy
  cases hrun : Eval.run depth node m with
  | ok v m' => exact .inl ⟨v, hrun⟩
  | error e m' => exact .inr ⟨e, hrun⟩

/-- The machines that are reached from the start: after running a node, at a node inside it, and after
something was written or traced or the clock went on. -/
inductive Machine.Reachable : Machine → Prop where
  | start (traced : Bool) (clock : Clock) : Reachable (.start traced clock)
  | ended {m m' : Machine} {depth : Nat} {node : Node} (h : Reachable m)
      (he : EndsIn depth node m m') : Reachable m'
  | inside {m m' : Machine} {depth : Nat} {node node' : Node} (h : Reachable m)
      (hr : Reaches depth node m node' m') : Reachable m'
  | aside {m m' : Machine} (h : Reachable m) (hframes : m'.frames = m.frames)
      (hfields : m'.fields = m.fields) (henv : m'.env = m.env) (hfresh : m'.fresh = m.fresh) :
      Reachable m'

/-! ### The heap at the start -/

def Heap.initial : Heap where
  links := [none]
  made := []
  root := by
    intro i
    cases i with
    | zero => simp [Machine.globalId]
    | succ i => simp [Machine.globalId]
  earlier := by
    intro i j hij
    cases i with
    | zero => simp at hij
    | succ i => simp at hij
  formed := by
    intro i x hx
    simp at hx

theorem Heap.describes_start (traced : Bool) (clock : Clock) :
    Heap.initial.Describes (.start traced clock) where
  size := rfl
  fresh := rfl
  env := .root rfl
  frames := by
    intro i frame hf
    obtain ⟨hi, rfl⟩ := Array.getElem?_eq_some_iff.1 hf
    obtain rfl : i = 0 := Nat.lt_one_iff.1 hi
    exact Table.Every.empty.insert "clock" trivial
  fields := by
    intro i table ht
    simp [Machine.start, Machine.withGlobals] at ht

/-! ### The heap inside a node -/

section Inside

variable {depth : Nat} {node : Node} {h : Heap} {m m' : Machine}

theorem Heap.Describes.enter (hd : h.Describes m) {env : Env} (hp : Path h.links env)
    {vars : Table Value} (hv : vars.Every (Value.Known h)) :
    ∃ h', h ≤ h' ∧ h'.Describes (m.enter env vars) := by
  have hopen : openFrame vars m =
      .ok m.frames.size { m with frames := m.frames.push (.named vars) } := rfl
  obtain ⟨h', hl, hpath⟩ := (conserves_openFrame hd hp hv).ok hopen
  exact ⟨h', hl.le, hl.describes.inside hpath⟩

theorem Heap.Describes.execAll (hd : h.Describes m) {depth : Nat} {body : List Stmt} {u : Unit}
    (hr : Eval.execAll (run depth) body m = .ok u m') : ∃ h', h ≤ h' ∧ h'.Describes m' := by
  obtain ⟨h', hl, -⟩ := (conserves_execAll (conserves_run depth) hd body).ok hr
  exact ⟨h', hl.le, hl.describes⟩

theorem Eval.Rounds.exists_describes {condition : Expr} {body : Stmt} (hd : h.Describes m)
    (hr : Rounds depth condition body m m') : ∃ h', h ≤ h' ∧ h'.Describes m' := by
  induction hr with
  | none => exact ⟨h, le_rfl, hd⟩
  | next _ hc _ hb ih =>
    obtain ⟨h₁, hle₁, hd₁⟩ := ih
    obtain ⟨h₂, hl₂, -⟩ := (conserves_run depth _ h₁ _ hd₁).ok hc
    obtain ⟨h₃, hl₃, -⟩ := (conserves_run depth _ h₂ _ hl₂.describes).ok hb
    exact ⟨h₃, hle₁.trans (hl₂.trans hl₃).le, hl₃.describes⟩

theorem Eval.Binds.exists_describes {f : Closure} {o : Object} {args? : Option (List Value)}
    (hd : h.Describes m) (hb : Binds depth node m f o args? m') :
    ∃ h', h ≤ h' ∧ h'.Describes m' ∧ f.Known h' ∧ o.type.Known h' ∧
      ∀ args ∈ args?, ∀ v ∈ args, v.Known h' := by
  cases hb with
  | initializer hc ha hn hf =>
    obtain ⟨h₁, hl₁, hclass⟩ := (conserves_run depth _ h m hd).ok hc
    obtain ⟨h₂, hl₂, hargs⟩ := (conserves_evalAll (conserves_run depth) hl₁.describes _).ok ha
    have hclass₂ : Class.Known h₂ _ := Class.Known.mono hl₂.le hclass
    obtain ⟨h₃, hl₃, -⟩ := (conserves_newObject hl₂.describes hclass₂).ok rfl
    refine ⟨h₃, ((hl₁.trans hl₂).trans hl₃).le, hl₃.describes, ?_, hclass₂.mono hl₃.le, ?_⟩
    · exact (known_findMethod? hclass₂ hf).mono hl₃.le
    · rintro _ ⟨⟩ v hv
      exact (hargs v hv).mono hl₃.le
  | @chained _ _ _ _ _ _ _ _ before _ _ _ _ _ hc ha hn hchain =>
    obtain ⟨h₁, hl₁, hmethods, hclass⟩ := (conserves_run depth _ h m hd).ok hc
    obtain ⟨h₂, hl₂, hargs⟩ := (conserves_evalAll (conserves_run depth) hl₁.describes _).ok ha
    have hbefore : ∀ g ∈ before, g.Known h₂ :=
      fun g hg => (hmethods g (List.mem_append_left _ hg)).mono hl₂.le
    obtain ⟨h₃, hl₃, -⟩ := (conserves_applyChain (conserves_run depth) hl₂.describes
      (hclass.mono hl₂.le) hargs hbefore (show Value.nil.Known h₂ from trivial)).ok hchain
    refine ⟨h₃, ((hl₁.trans hl₂).trans hl₃).le, hl₃.describes, ?_, ?_, ?_⟩
    · exact (hmethods f (by simp)).mono (hl₂.trans hl₃).le
    · exact hclass.mono (hl₂.trans hl₃).le
    · rintro _ ⟨⟩ v hv
      exact (hargs v hv).mono hl₃.le
  | property ho hv hm hf =>
    obtain ⟨h₁, hl₁, hclass⟩ := (conserves_run depth _ h m hd).ok ho
    refine ⟨h₁, hl₁.le, hl₁.describes, ?_, hclass, ?_⟩
    · exact known_methodChain (c := o.type) hclass (by rw [hf]; exact List.mem_singleton_self f)
    · intro args hargs v hmem
      split at hargs
      · cases hargs
        cases hmem
      · cases hargs

theorem Eval.Applies.exists_describes {f : Closure} {args : List Value} (hd : h.Describes m)
    (ha : Applies depth node m f args m') :
    ∃ h', h ≤ h' ∧ h'.Describes m' ∧ f.Known h' ∧ ∀ v ∈ args, v.Known h' := by
  cases ha with
  | function hc ha hn =>
    obtain ⟨h₁, hl₁, hf⟩ := (conserves_run depth _ h m hd).ok hc
    obtain ⟨h₂, hl₂, hargs⟩ := (conserves_evalAll (conserves_run depth) hl₁.describes _).ok ha
    exact ⟨h₂, (hl₁.trans hl₂).le, hl₂.describes, Closure.Known.mono hl₂.le hf, hargs⟩
  | @method _ _ m₁ f o _ hb =>
    obtain ⟨h₁, hle₁, hd₁, hf, ho, hargs⟩ := hb.exists_describes hd
    have hreceive : bindReceiver f (.object o) m₁ = .ok (f.received m₁) (m₁.receive (.object o)) :=
      rfl
    obtain ⟨h₂, hl₂, hbound⟩ := (conserves_bindReceiver hd₁ hf (v := .object o) ho).ok hreceive
    exact ⟨h₂, hle₁.trans hl₂.le, hl₂.describes, hbound, fun v hv => (hargs _ rfl v hv).mono hl₂.le⟩

theorem Eval.Reaches.exists_describes {node' : Node} (hd : h.Describes m)
    (hr : Reaches depth node m node' m') : ∃ h', h ≤ h' ∧ h'.Describes m' := by
  have hrun : ∀ {node : Node} {v : Value} {m' : Machine}, run depth node m = .ok v m' →
      ∃ h', h ≤ h' ∧ h'.Describes m' := by
    intro node v m' hx
    obtain ⟨h', hl, -⟩ := (conserves_run depth node h m hd).ok hx
    exact ⟨h', hl.le, hl.describes⟩
  cases hr with
  | binaryRight hx => exact hrun hx
  | logicalRight hx _ => exact hrun hx
  | argument he hc ha =>
    obtain ⟨h₁, hle₁, hd₁⟩ := hrun hc
    obtain ⟨h₂, hl₂, -⟩ := (conserves_evalAll (conserves_run depth) hd₁ _).ok ha
    exact ⟨h₂, hle₁.trans hl₂.le, hl₂.describes⟩
  | setValue hx => exact hrun hx
  | onTrue hx _ => exact hrun hx
  | onFalse hx _ => exact hrun hx
  | loopCondition hr => exact hr.exists_describes hd
  | loopBody hr hx _ =>
    obtain ⟨h₁, hle₁, hd₁⟩ := hr.exists_describes hd
    obtain ⟨h₂, hl₂, -⟩ := (conserves_run depth _ h₁ _ hd₁).ok hx
    exact ⟨h₂, hle₁.trans hl₂.le, hl₂.describes⟩
  | block hb hr =>
    -- a block opens its frame inside the current environment
    obtain ⟨h₁, hle₁, hd₁⟩ := hd.enter hd.env .empty
    obtain ⟨h₂, hle₂, hd₂⟩ := hd₁.execAll hr
    exact ⟨h₂, hle₁.trans hle₂, hd₂⟩
  | call ha hs hb hr =>
    obtain ⟨h₁, hle₁, hd₁, hf, hargs⟩ := ha.exists_describes hd
    obtain ⟨this, hthis, hvars⟩ := hs
    obtain ⟨h₂, hl₂, hknown⟩ := (conserves_receiver hd₁ _).ok hthis
    -- the body starts in a frame of its own inside the environment of the function
    have hargs₂ := fun v hv => (hargs v hv).mono hl₂.le
    obtain ⟨h₃, hle₃, hd₃⟩ := hl₂.describes.enter ((Closure.Known.path hf).mono hl₂.le.1)
      (known_callVars hknown hargs₂ hvars)
    obtain ⟨h₄, hle₄, hd₄⟩ := hd₃.execAll hr
    exact ⟨h₄, ((hle₁.trans hl₂.le).trans hle₃).trans hle₄, hd₄⟩
  | grouping | unary | binaryLeft | logicalLeft | assigned | callee | getObject | setObject | bare
  | expression | print | initializer | condition | returned => exact ⟨h, le_rfl, hd⟩

theorem Eval.EndsIn.exists_later (hd : h.Describes m) (he : EndsIn depth node m m') :
    ∃ h', h.Later m h' m' := by
  have hx := conserves_run depth node h m hd
  rcases he with ⟨v, hv⟩ | ⟨e, he⟩
  · obtain ⟨h', hl, -⟩ := hx.ok hv
    exact ⟨h', hl⟩
  · obtain ⟨h', hl, -⟩ := hx.error he
    exact ⟨h', hl⟩

end Inside

theorem Machine.Reachable.exists_describes {m : Machine} (hm : m.Reachable) :
    ∃ h : Heap, h.Describes m := by
  induction hm with
  | start traced clock => exact ⟨.initial, Heap.describes_start traced clock⟩
  | ended _ he ih =>
    obtain ⟨h, hd⟩ := ih
    obtain ⟨h', hl⟩ := he.exists_later hd
    exact ⟨h', hl.describes⟩
  | inside _ hr ih =>
    obtain ⟨h, hd⟩ := ih
    obtain ⟨h', -, hd'⟩ := hr.exists_describes hd
    exact ⟨h', hd'⟩
  | aside _ hframes hfields henv hfresh ih =>
    obtain ⟨h, hd⟩ := ih
    exact ⟨h, hd.congr hframes hfields henv hfresh⟩

/-! ### Sessions -/

namespace Session

/-- The session that a step leaves, however it ends. -/
def left {α : Type} (s : Session) (x : Step α) : Session :=
  match x s with
  | .ok _ s' => s'
  | .error _ s' => s'

/-- The sessions that are reached by what a user may ask for. -/
inductive Reached : Session → Prop where
  | new (attached : Bool) (clock : Clock) : Reached (new attached clock)
  | run {s : Session} (h : Reached s) (source : String) (echoes : Bool) :
      Reached (s.left (run source echoes))
  | runTrees {s : Session} (h : Reached s) (statements : List Stmt) (resolves : Bool) :
      Reached (s.left (runTrees statements resolves))
  | runUnresolved {s : Session} (h : Reached s) (source : String) :
      Reached (s.left (runUnresolved source))
  | evaluate {s : Session} (h : Reached s) (source : String) : Reached (s.left (evaluate source))
  | evaluateExpr {s : Session} (h : Reached s) (e : Expr) : Reached (s.left (evaluateExpr e))
  | prompt {s : Session} (h : Reached s) (ending : Prompt.Ending) (lines : List String) :
      Reached (s.left (prompt ending lines))
  | runScript {s : Session} (h : Reached s) (path : String) (debug : Bool)
      (contents : Script.Contents) : Reached (s.left (runScript path debug contents))
  | setDebug {s : Session} (h : Reached s) (on : Bool) : Reached (s.left (setDebug on))
  | clearFlags {s : Session} (h : Reached s) : Reached (s.left clearFlags)

def Continues (s s' : Session) : Prop :=
  s.machine.Reachable → s'.machine.Reachable ∧ s'.machine.env = s.machine.env

theorem continues_aside {s s' : Session} (hframes : s'.machine.frames = s.machine.frames)
    (hfields : s'.machine.fields = s.machine.fields) (henv : s'.machine.env = s.machine.env)
    (hfresh : s'.machine.fresh = s.machine.fresh) : Continues s s' :=
  fun hm => ⟨hm.aside hframes hfields henv hfresh, henv⟩

theorem continues_law : Law (fun _ => True) Continues where
  toTexts := .all
  refl s hm := ⟨hm, rfl⟩
  trans hs hs' hm := ⟨(hs' (hs hm).1).1, (hs' (hs hm).1).2.trans (hs hm).2⟩
  node {node} _ := by
    have hends : ∀ {s : Session} {m : Machine}, EndsIn bound node s.machine m →
        Continues s { s with machine := m } := by
      intro s m he hm
      obtain ⟨h, hd⟩ := hm.exists_describes
      obtain ⟨h', hl⟩ := he.exists_later hd
      exact ⟨hm.ended he, hl.env⟩
    intro s
    unfold runNode onMachine
    cases hrun : Eval.run bound node s.machine with
    | ok v m => exact hends (.inl ⟨v, hrun⟩)
    | error e m => exact hends (.inr ⟨e, hrun⟩)
  write line s := continues_aside rfl rfl rfl rfl
  note s flags reports hm := ⟨hm, rfl⟩
  start s hm := ⟨hm, rfl⟩

theorem continues_left {α : Type} {x : Step α} (hx : Step.Follows Continues x) (s : Session) :
    Continues s (s.left x) := by
  unfold left
  cases hrun : x s with
  | ok a s' => exact hx.ok hrun
  | error e s' => exact hx.error hrun

theorem follows_setDebug (on : Bool) : Step.Follows Continues (setDebug on) :=
  fun _ => continues_aside rfl rfl rfl rfl

theorem Reached.idle {s : Session} (hs : s.Reached) :
    s.machine.Reachable ∧ s.machine.env = Machine.globals := by
  have hnext : ∀ {s : Session} {α : Type} {x : Step α}, Step.Follows Continues x →
      s.machine.Reachable ∧ s.machine.env = Machine.globals →
      (s.left x).machine.Reachable ∧ (s.left x).machine.env = Machine.globals := by
    intro s α x hx ⟨hm, henv⟩
    obtain ⟨hm', henv'⟩ := continues_left hx s hm
    exact ⟨hm', henv'.trans henv⟩
  induction hs with
  | new attached clock => exact ⟨.start false clock, rfl⟩
  | run _ source echoes ih => exact hnext (follows_run continues_law source echoes) ih
  | runTrees _ statements resolves ih =>
    exact hnext (follows_runTrees continues_law (fun _ => trivial) statements resolves) ih
  | runUnresolved _ source ih => exact hnext (follows_runUnresolved continues_law source) ih
  | evaluate _ source ih => exact hnext (follows_evaluate continues_law source) ih
  | evaluateExpr _ e ih => exact hnext (follows_evaluateExpr continues_law trivial) ih
  | prompt _ ending lines ih => exact hnext (follows_prompt continues_law ending lines) ih
  | runScript _ path debug contents ih =>
    exact hnext (follows_runScript continues_law follows_setDebug path debug contents) ih
  | setDebug _ on ih => exact hnext (follows_setDebug on) ih
  | clearFlags _ ih => exact hnext (fun s => continues_law.note s _ s.reports) ih

/-- Between two requests a session is in the global environment. Every machine that is reached, also
in the midst of a run, is described by a heap. However running a node on it ends, the environment is
the one before, and the heap has grown and is unchanged otherwise. Walks along the links of the heap
end: an environment is the walk from its innermost frame, and methods are looked for along the walk
from a class. -/
theorem keeps_heap :
    (∀ s : Session, s.Reached → s.machine.Reachable ∧ s.machine.env = Machine.globals) ∧
      ∀ m : Machine, m.Reachable →
        (∃ h : Heap, h.Describes m) ∧
        ∀ h : Heap, h.Describes m →
          (∀ depth node m', EndsIn depth node m m' →
            m'.env = m.env ∧ ∃ h' : Heap, h ≤ h' ∧ h'.Describes m') ∧
          (∀ i outer, Path h.links (i :: outer) →
            ∀ steps, i < steps → h.follow steps i = some (i :: outer)) ∧
          ∀ c : Class, c.Known h →
            (∀ steps, c.id < steps → h.ancestry steps c.id = some c.lineage) ∧
            ∀ name, c.findMethod? name = c.lineage.findSome? (·.methods.get? name) ∧
              c.methodChain name = (c.lineage.filterMap (·.methods.get? name)).reverse := by
  refine ⟨fun s hs => hs.idle, fun m hm => ⟨hm.exists_describes, fun h hd => ⟨?_, ?_, ?_⟩⟩⟩
  · intro depth node m' he
    obtain ⟨h', hl⟩ := he.exists_later hd
    exact ⟨hl.env, h', hl.le, hl.describes⟩
  · intro i outer hp steps hs
    exact Heap.follow_eq hp hs
  · intro c hc
    exact ⟨fun steps hs => Heap.ancestry_eq hc hs, fun name => ⟨c.findMethod?_eq name, rfl⟩⟩

end Session

end Lox
