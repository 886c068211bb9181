import Lox.Proofs.Session.Recast
import Lox.Proofs.Token.Join
import Lox.Proofs.Tree.Join
import Lox.Proofs.Scope.Walk

/-!
# Splitting a program

A program and another one that follows it on the next line do together what they do one after the
other in the same session, up to the lines in reports.
-/

namespace Lox

open Eval Outcome Scope

/-! ### Resolving two programs -/

theorem Stmt.resolveAll_append {ss ts ss' ts' : List Stmt} {r r₁ r₂ : Resolution}
    (h : Stmt.resolveAll ss r = .ok ss' r₁) (h' : Stmt.resolveAll ts r₁ = .ok ts' r₂) :
    Stmt.resolveAll (ss ++ ts) r = .ok (ss' ++ ts') r₂ := by
  induction ss generalizing ss' r with
  | nil =>
    obtain ⟨rfl, rfl⟩ := pure_eq_ok.1 h
    exact h'
  | cons s ss ih =>
    obtain ⟨s', r₃, hs, h⟩ := bind_eq_ok.1 h
    obtain ⟨more, r₄, hss, h⟩ := bind_eq_ok.1 h
    obtain ⟨rfl, rfl⟩ := pure_eq_ok.1 h
    exact bind_eq_ok.2 ⟨s', r₃, hs, bind_eq_ok.2 ⟨more ++ ts', r₂, ih hss, rfl⟩⟩

theorem Scope.like_reached {warns : Bool} {ss ss' : List Stmt} {r : Resolution}
    (h : Stmt.resolveAll ss (.start warns) = .ok ss' r) (f : Nat → Nat) :
    (Resolution.start warns).Like (Recasting.accord ⟨f, false, r.notices, r.rows⟩) [] r := by
  have hleads := Stmt.resolveAll_leads ss h
  have hscopes : r.scopes = [] := List.map_eq_nil_iff.1 hleads.held
  refine ⟨hscopes ▸ .nil _, hleads.function?, hleads.inClass, ?_⟩
  simp [Recasting.accord, Resolution.account, Account.recast, Notice.kept, Resolution.start, hleads.warns]

theorem Scope.resolve_eq {warns : Bool} {ss program : List Stmt}
    (h : (Scope.resolve warns ss).statements = .ok program) :
    Stmt.resolveAll ss (.start warns) = .ok program (Scope.resolve warns ss).reached := by
  unfold Scope.resolve at h ⊢
  cases hr : Stmt.resolveAll ss (.start warns) with
  | ok ss' r =>
    rw [hr] at h
    cases h
    rfl
  | error d r =>
    rw [hr] at h
    cases h

theorem Scope.resolve_append {warns : Bool} {ss ts program program' : List Stmt}
    (h : (Scope.resolve warns ss).statements = .ok program)
    (h' : (Scope.resolve warns ts).statements = .ok program') (f : Nat → Nat) :
    (Scope.resolve warns (ss ++ Stmt.relinedAll f ts)).statements =
        .ok (program ++ Stmt.relinedAll f program') ∧
      (Scope.resolve warns (ss ++ Stmt.relinedAll f ts)).reached.notices =
        (Scope.resolve warns ss).reached.notices ++
          (Scope.resolve warns ts).reached.notices.map (Notice.relined f) := by
  have hfirst := Scope.resolve_eq h
  have hends := Stmt.ends_relined _ ts (Scope.like_reached hfirst f)
  rw [Scope.resolve_eq h'] at hends
  generalize hsecond : Stmt.resolveAll (Stmt.relinedAll f ts) (Scope.resolve warns ss).reached = o at hends
  cases hends with
  | ok hv hr =>
    rw [Scope.resolve_of_ok (Stmt.resolveAll_append hfirst hsecond), hv]
    exact ⟨rfl, congrArg Account.notices hr.account⟩

theorem Scope.Resolution.Clean.relined_notices {r : Resolution} (h : r.Clean) (f : Nat → Nat) :
    r.notices.map (Notice.relined f) = r.notices := by
  rw [List.map_congr_left (g := id) fun notice hn => ?_, List.map_id]
  cases notice with
  | flawed token flaw => exact absurd hn (h token flaw)
  | unused name => rfl

/-! ### Two texts with a line feed between them -/

def Text.join (t t' : Text) : Text := ⟨t.source ++ "\n" ++ t'.source, t'.echoes⟩

section Join

variable {t t' : Text} {program program' : List Stmt} (h : Admits t program)
  (h' : Admits t' program') (he : Tree.Lacks [.kwElse] (Token.scan t'.source).tokens)

include h h' he

theorem Text.statements_join : (t.join t').statements =
    t.statements ++ Stmt.relinedAll (· + (Token.scan t.source).lastLine) t'.statements ∧
      (Tree.parse (Token.scan (t.join t').source).tokens).complaints = [] := by
  have htokens := (Token.scan_append_line h.scanned h'.scanned).2
  have hparse := Tree.parse_append h.read h'.read he (· + (Token.scan t.source).lastLine)
  unfold Text.statements Text.join
  rw [htokens, hparse]
  exact ⟨rfl, rfl⟩

theorem admits_join :
    Admits (t.join t')
        (program ++ Stmt.relinedAll (· + (Token.scan t.source).lastLine) program') ∧
      (Scope.resolve true (t.join t').statements).reached.notices =
        (Scope.resolve true t.statements).reached.notices ++
          (Scope.resolve true t'.statements).reached.notices := by
  obtain ⟨hstatements, hread⟩ := Text.statements_join h h' he
  have hresolve := Scope.resolve_append h.resolved h'.resolved
    (· + (Token.scan t.source).lastLine)
  rw [h'.clean.relined_notices] at hresolve
  rw [← hstatements] at hresolve
  refine ⟨⟨(Token.scan_append_line h.scanned h'.scanned).1, hread, hresolve.1, ?_⟩, hresolve.2⟩
  intro token flaw hn
  rw [hresolve.2] at hn
  rcases List.mem_append.1 hn with hn | hn
  · exact h.clean token flaw hn
  · exact h'.clean token flaw hn

end Join

/-! ### Running two programs -/

namespace Session

def Recasting.unlined : Session.Recasting := ⟨⟨fun _ => 0, #[]⟩, #[], false⟩

theorem interpret_append {program : List Stmt} {s : Session} {m : Machine}
    (h : execAll (Eval.run bound) program s.machine = .ok () m) (last : Value) :
    ∃ v, ∀ rest, interpret last (program ++ rest) s = interpret v rest { s with machine := m } := by
  induction program generalizing s last with
  | nil =>
    obtain ⟨-, rfl⟩ := pure_eq_ok.1 h
    exact ⟨last, fun rest => rfl⟩
  | cons t ts ih =>
    obtain ⟨v, m₁, ht, hts⟩ := bind_eq_ok.1 h
    obtain ⟨w, hw⟩ := @ih { s with machine := m₁ } hts v
    refine ⟨w, fun rest => ?_⟩
    rw [List.cons_append, interpret_cons, ht]
    exact hw rest

theorem interpretSafely_append {program rest : List Stmt} {s s' : Session} {m : Machine} {v : Value}
    (h : execAll (Eval.run bound) program s.machine = .ok () m)
    (hrest : interpretSafely rest { s with machine := m } = .ok v s') :
    ∃ w, interpretSafely (program ++ rest) s = .ok w s' := by
  obtain ⟨u, hu⟩ := interpret_append h .nil
  unfold interpretSafely at hrest ⊢
  rw [hu rest]
  cases rest with
  | nil =>
    cases hrest
    exact ⟨u, rfl⟩
  | cons t ts => exact ⟨v, hrest⟩

theorem interpretSafely_relined {program : List Stmt} {s s₁ s₂ : Session} {v w : Value}
    (f : Nat → Nat) (h : interpretSafely program s = .ok v s₁)
    (h' : interpretSafely (Stmt.relinedAll f program) s = .ok w s₂) :
    s₂.recast .unlined = s₁.recast .unlined := by
  have hfirst := (recasts_interpretSafely (c := .unlined) (s := s) program).ok h
  have hsecond := (recasts_interpretSafely (c := .unlined) (s := s) (Stmt.relinedAll f program)).ok h'
  have hlines : Stmt.relinedAll Recasting.unlined.line (Stmt.relinedAll f program) =
      Stmt.relinedAll Recasting.unlined.line program := Stmt.relinedAll_relinedAll f _ program
  rw [hlines, hfirst] at hsecond
  exact (EStateM.Result.ok.inj hsecond).2.symm

theorem exists_interpretSafely (program : List Stmt) (s : Session) :
    ∃ v s', interpretSafely program s = .ok v s' := by
  cases h : interpretSafely program s with
  | ok v s' => exact ⟨v, s', rfl⟩
  | error e s' => exact absurd h (interpretSafely_ne_error program s e s')

theorem globalTable_recast (c : Lox.Recasting) (m : Machine) :
    (m.recast c).globalTable = m.globalTable.map (Value.relined c.line) := by
  unfold Machine.globalTable
  have hframe : (m.recast c).frames[Machine.globalId]? =
      m.frames[Machine.globalId]?.map (Frame.relined c.line) := Array.getElem?_map ..
  rw [hframe]
  rcases m.frames[Machine.globalId]? with _ | vars | ⟨slots, globals⟩ <;> rfl

/-- Two texts with nothing wrong with them, of which the second does not start with `else`, do
together what they do one after the other, if the statements of the first all complete: the output,
the flags, and, up to lines, the reports and the global variables are the same. -/
theorem run_append_line {source source' : String} {program program' : List Stmt}
    (h : Admits ⟨source, false⟩ program) (h' : Admits ⟨source', false⟩ program')
    (he : Tree.Lacks [.kwElse] (Token.scan source').tokens) {s : Session} {m : Machine}
    (hs : s.flags.error = false)
    (hrun : execAll (Eval.run bound) program s.machine = .ok () m) :
    ∃ v s₁ v₁ s₂ v₂ s₃,
      run (source ++ "\n" ++ source') false s = .ok v s₁ ∧
      run source false s = .ok v₁ s₂ ∧ run source' false s₂ = .ok v₂ s₃ ∧
      s₁.machine.out = s₃.machine.out ∧ s₁.flags = s₃.flags ∧
      s₁.reports.map (Report.relined fun _ => 0) = s₃.reports.map (Report.relined fun _ => 0) ∧
      s₁.machine.globalTable.map (Value.relined fun _ => 0) =
        s₃.machine.globalTable.map (Value.relined fun _ => 0) := by
  obtain ⟨hjoin, hnotices⟩ := admits_join h h' he
  -- The notices of both texts are filed either way before the second one is run.
  have hentered : s.entered (Text.join ⟨source, false⟩ ⟨source', false⟩) =
      (s.entered ⟨source, false⟩).entered ⟨source', false⟩ := by
    unfold entered
    rw [hnotices, List.map_append]
    simp [filed]
  have hrunJoined := run_of_admits hjoin hs
  rw [hentered] at hrunJoined
  have hrunFirst := run_of_admits h hs
  have hmachine : (s.entered ⟨source, false⟩).machine = s.machine := rfl
  have herror := (entered_error h s).trans hs
  generalize s.entered ⟨source, false⟩ = σ at hrunJoined hrunFirst hmachine herror
  rw [← hmachine] at hrun
  have hrunSecond := run_of_admits h' (show { σ with machine := m }.flags.error = false from herror)
  obtain ⟨v₁, hfirst⟩ := interpretSafely_append hrun (rfl : interpretSafely [] _ = .ok .nil _)
  rw [List.append_nil] at hfirst
  obtain ⟨v₂, s₃, hsecond⟩ :=
    exists_interpretSafely program' { σ.entered ⟨source', false⟩ with machine := m }
  obtain ⟨w, s₁, hshifted⟩ := exists_interpretSafely
    (Stmt.relinedAll (· + (Token.scan source).lastLine) program')
    { σ.entered ⟨source', false⟩ with machine := m }
  have hrun' : execAll (Eval.run bound) program (σ.entered ⟨source', false⟩).machine = .ok () m :=
    hrun
  obtain ⟨v, hjoined⟩ := interpretSafely_append hrun' hshifted
  have hsame := interpretSafely_relined _ hsecond hshifted
  refine ⟨v, s₁, v₁, _, v₂, s₃, hrunJoined.trans hjoined, hrunFirst.trans hfirst,
    hrunSecond.trans hsecond, ?_, ?_, ?_, ?_⟩
  · have hout := congrArg (·.machine.out) hsame
    simpa [Session.recast, Machine.recast, Recasting.unlined] using hout
  · have hflags : s₁.flags.recast false = s₃.flags.recast false := congrArg (·.flags) hsame
    rwa [Flags.recast_false, Flags.recast_false] at hflags
  · have hreports := congrArg (·.reports) hsame
    simpa [Session.recast, Recasting.unlined] using hreports
  · have hglobals : (s₁.machine.recast _).globalTable = (s₃.machine.recast _).globalTable :=
      congrArg (·.machine.globalTable) hsame
    rw [globalTable_recast, globalTable_recast] at hglobals
    exact hglobals

/-- A local variable that is not used, and a conditional without a second branch at the end. -/
def splitFirst : Text := ⟨"{var a;}if(true)print nil;", false⟩

def splitSecond : Text := ⟨"print b;", false⟩

def splitProgram : List Stmt :=
  [.block [.varDecl (.ident "a" 1) none],
    .ifStmt (.literal (.bool true)) (.print (.literal .nil)) none]

theorem splitFirst_admits : Admits splitFirst splitProgram := .of_yields (by decide +kernel)

theorem splitSecond_admits :
    Admits splitSecond [.print (.variable (.ident "b" 1) .free)] ∧
      Tree.Lacks [.kwElse] (Token.scan splitSecond.source).tokens := by
  have hfirst : (Token.scan splitSecond.source).tokens.head? = some ⟨.kwPrint, "print", .nil, 1⟩ := by
    decide +kernel
  exact ⟨.of_yields (by decide +kernel), by simp [Tree.Lacks, hfirst]⟩

/-- The two texts in a new session: the conditional at the end of the first stays without a second
branch, and the second stops with a fault. -/
theorem run_append_line_fault : ∃ v s₁ v₁ s₂ v₂ s₃,
    run (splitFirst.source ++ "\n" ++ splitSecond.source) false (.new true 0) = .ok v s₁ ∧
    run splitFirst.source false (.new true 0) = .ok v₁ s₂ ∧
    run splitSecond.source false s₂ = .ok v₂ s₃ ∧
    s₁.machine.out = s₃.machine.out ∧ s₁.flags = s₃.flags ∧
    s₁.reports.map (Report.relined fun _ => 0) = s₃.reports.map (Report.relined fun _ => 0) ∧
    s₁.machine.globalTable.map (Value.relined fun _ => 0) =
      s₃.machine.globalTable.map (Value.relined fun _ => 0) := by
  have hrun : ∃ m, execAll (Eval.run bound) splitProgram (Session.new true 0).machine = .ok () m :=
    ⟨{ Machine.start false 0 with
        frames := #[.named (Table.empty.insert "clock" (.native .clock)),
          .named (Table.empty.insert "a" .nil)]
        out := #[.shown "nil"] }, rfl⟩
  obtain ⟨m, hrun⟩ := hrun
  exact run_append_line splitFirst_admits splitSecond_admits.1 splitSecond_admits.2 rfl hrun

end Session

end Lox
