import Lox.Proofs.Scope.Checks
import Lox.Proofs.Scope.Marks
import Lox.Proofs.Scope.Recast
import Lox.Proofs.Session.Run
import Lox.Proofs.Session.Told
import Lox.Proofs.Tree.Join
import Lox.Proofs.Tree.Readable

/-!
# What a session learns from resolving

The notices of a text, and what the session does because of them.
-/

namespace Lox

open Scope

theorem Scope.Resolution.any_isError {r : Resolution} :
    (r.notices.map Report.scoping).any Report.isError = true ↔ r.Flawed := by
  rw [List.any_map, List.any_eq_true]
  constructor
  · rintro ⟨notice, hn, he⟩
    cases notice with
    | flawed token flaw => exact ⟨token, flaw, hn⟩
    | unused name => cases he
  · rintro ⟨token, flaw, hn⟩
    exact ⟨_, hn, rfl⟩

theorem Scope.flawed_iff {tokens : List Token} {warns : Bool} {program : List Stmt} {r : Resolution}
    (h : Stmt.resolveAll (Tree.parse tokens).statements (.start warns) = .ok program r) :
    r.Flawed ↔
      ∃ nest node, Located (· = (Tree.parse tokens).statements) nest node ∧ Offence nest node := by
  have hat : (Resolution.start warns).At false false := ⟨rfl, rfl⟩
  have hstart : ¬(Resolution.start warns).Flawed := by simp [Resolution.Flawed, Resolution.start]
  have hclash : ∀ names, ¬Clash names (Resolution.start warns).held := fun _ h => h
  rw [Stmt.resolveAll_finds _ hat (Tree.parse_readable tokens) _ _ h, ← Stmt.offendsAny_iff]
  simp only [hstart, hclash, or_false, false_or]

namespace Session

/-- Resolving a program that was read without complaint always succeeds. It raises the error flag if and
only if there is a return outside of functions, methods and lambdas, a `this` or an `inner` outside of
classes, a local scope in which a name is declared twice, or a class that names itself as its superclass. -/
theorem resolve_error_iff {tokens : List Token} (h : (Tree.parse tokens).complaints = []) (warns : Bool)
    (s : Session) :
    ∃ program s', resolve warns (Tree.parse tokens).statements s = .ok program s' ∧
      (s'.flags.error = true ↔ s.flags.error = true ∨
        ∃ nest node, Located (· = (Tree.parse tokens).statements) nest node ∧ Offence nest node) := by
  obtain ⟨program, r, hrun⟩ :=
    Stmt.resolveAll_of_present (Tree.program_of_complaints h).2 (.start warns)
  refine ⟨program, s.filed (r.notices.map .scoping), ?_, ?_⟩
  · rw [resolve_eq, Scope.resolve_of_ok hrun]
  · rw [filed_error, Bool.or_eq_true, Resolution.any_isError, Scope.flawed_iff hrun]

/-- A function whose body declares its parameter once more. -/
def shadowing : Function :=
  ⟨⟨.identifier, "f", .nil, 1⟩, [⟨.identifier, "a", .nil, 1⟩],
    [.varDecl ⟨.identifier, "a", .nil, 1⟩ none], false, false⟩

/-- The parameter and the variable stand in one scope. -/
theorem resolve_error_iff_shadowing :
    (Tree.parse (Token.scan "fun f(a) { var a; }").tokens).complaints = [] ∧
    ∃ program s', resolve true (Tree.parse (Token.scan "fun f(a) { var a; }").tokens).statements
        (new true 0) = .ok program s' ∧ s'.flags.error = true := by
  have hread : (Tree.parse (Token.scan "fun f(a) { var a; }").tokens).complaints = [] := by decide +kernel
  have hstatements : [] ++ Stmt.funDecl shadowing :: [] =
      (Tree.parse (Token.scan "fun f(a) { var a; }").tokens).statements :=
    Stmt.eq_of_sameAll (by decide +kernel)
  obtain ⟨program, s', hrun, herror⟩ := resolve_error_iff hread true (new true 0)
  have hrepeats : ¬(Opening.call shadowing.params shadowing.body).declarations.Nodup := by decide
  refine ⟨hread, program, s', hrun, herror.2 (.inr ⟨[], .stmt (.funDecl shadowing), ?_, ?_⟩)⟩
  · exact .top hstatements
  · exact .repetition (.function shadowing) hrepeats

end Session

/-! ### Warnings -/

/-- Whether a token that stands for a variable is spelled as texts spell it. -/
def Token.isSpelled (t : Token) : Bool :=
  match t.kind with
  | .identifier => t.isPlain
  | .kwThis | .kwInner => !t.isPlain
  | _ => true

theorem Token.isSpelled_of_mem {source : String} {t : Token} (ht : t ∈ (scan source).tokens) :
    t.isSpelled = true := by
  have hname := not_reserved ht
  have hkeyword := keyword_lexeme ht
  unfold isSpelled
  split
  next hk =>
    have hthis := hname hk ("this".toList, .kwThis) (by simp [keywords])
    have hinner := hname hk ("inner".toList, .kwInner) (by simp [keywords])
    rw [Ne, String.toList_inj] at hthis hinner
    simp [isPlain, Scope.reserved, hthis, hinner]
  next hk =>
    have hthis := hkeyword ("this".toList, .kwThis) (by simp [keywords]) hk
    rw [String.toList_inj] at hthis
    simp [isPlain, Scope.reserved, hthis]
  next hk =>
    have hinner := hkeyword ("inner".toList, .kwInner) (by simp [keywords]) hk
    rw [String.toList_inj] at hinner
    simp [isPlain, Scope.reserved, hinner]
  next => rfl

theorem Token.isPlain_of_isWord {name : Token} (h : isWord isSpelled (.identifier, name) = true) :
    name.isPlain = true := by
  simp only [isWord, Bool.and_eq_true, decide_eq_true_eq] at h
  simpa [isSpelled, h.1] using h.2

theorem Token.not_isPlain_of_isWord {kind : Kind} {keyword : Token} (hk : kind = .kwThis ∨ kind = .kwInner)
    (h : isWord isSpelled (kind, keyword) = true) : (!keyword.isPlain) = true := by
  simp only [isWord, Bool.and_eq_true, decide_eq_true_eq] at h
  rcases hk with rfl | rfl <;> simpa [isSpelled, h.1] using h.2

theorem Node.isSpelled_of_isWorded {node : Node} (h : node.isWorded Token.isSpelled = true) :
    node.isSpelled = true := by
  simp only [isWorded, Bool.and_eq_true, List.all_eq_true] at h
  obtain ⟨hreadable, hwords⟩ := h
  have hplain : ∀ name : Token, (Token.Kind.identifier, name) ∈ node.words → name.isPlain = true :=
    fun name hname => Token.isPlain_of_isWord (hwords _ hname)
  cases node with
  | expr e =>
    cases e with
    | lambda params body => simpa [words, isSpelled] using hplain
    | this keyword address =>
      exact Token.not_isPlain_of_isWord (.inl rfl) (hwords _ (by simp [words]))
    | inner keyword address arguments =>
      exact Token.not_isPlain_of_isWord (.inr rfl) (hwords _ (by simp [words]))
    | super keyword address method => cases hreadable
    | _ => rfl
  | stmt s =>
    cases s with
    | varDecl name init => simpa [words, isSpelled] using hplain
    | funDecl f => simpa [words, isSpelled] using hplain
    | classDecl name superclass? methods =>
      simp only [isSpelled, Bool.and_eq_true, List.all_eq_true]
      refine ⟨hplain name (by simp [words]), fun f hf param hparam => hplain param ?_⟩
      simp only [words, List.mem_append, List.mem_flatMap, List.mem_map]
      exact .inr ⟨f, hf, param, hparam, rfl⟩
    | _ => rfl

theorem Tree.parse_spelled (source : String) :
    Stmt.allOf Node.isSpelled (Tree.parse (Token.scan source).tokens).statements = true :=
  Stmt.allOf_mono (fun _ => Node.isSpelled_of_isWorded) _
    (Tree.parse_worded fun _ ht => Token.isSpelled_of_mem ht)

theorem Scope.isError_scoping (notices : List Notice) :
    (notices.map Report.scoping).filter Report.isError = (notices.filter Notice.isFlaw).map .scoping := by
  rw [List.filter_map]
  congr 1
  refine List.filter_congr fun notice _ => ?_
  cases notice <;> rfl

theorem Report.not_isWarning {report : Report} (h : report.isError = true) : report.isWarning = false := by
  cases report with
  | scoping notice =>
    cases notice with
    | flawed token flaw => rfl
    | unused name => cases h
  | _ => rfl

theorem Scope.any_isWarning {closed : List Opening} :
    ((warnings true closed).map Report.scoping).any Report.isWarning = true ↔
      ∃ scope ∈ closed, ∃ x ∈ scope.declarations, ¬scope.Uses x := by
  simp [warnings, Opening.unused, Report.isWarning]

namespace Session

/-- Resolving a text that was read without complaint, with warnings on and off. Both give the same program,
the same references and the same errors. With warnings off nothing is warned of. With warnings on, and if
there are no errors, there is one warning for each declaration in a local scope that nothing in the scope
refers to, and nothing else is reported: scope by scope in the order in which they are closed, and in a scope
in the order of declaration. -/
theorem resolve_warns_of_unused (t : Text)
    (h : (Tree.parse (Token.scan t.source).tokens).complaints = []) (s : Session) :
    ∃ program loud quiet,
      resolve true t.statements s = .ok program loud ∧ resolve false t.statements s = .ok program quiet ∧
      (Scope.resolve false t.statements).reached.rows = (Scope.resolve true t.statements).reached.rows ∧
      (∃ reports : List Report, loud.reports = s.reports ++ reports.toArray ∧
        quiet.reports = s.reports ++ (reports.filter Report.isError).toArray) ∧
      quiet.flags.error = loud.flags.error ∧ quiet.flags.warning = s.flags.warning ∧
      (loud.flags.error = false →
        loud.reports =
          s.reports ++ ((warnings true (Stmt.closingsOf program)).map Report.scoping).toArray ∧
        (loud.flags.warning = true ↔ s.flags.warning = true ∨
          ∃ scope, (∃ nest node, Located (· = program) nest node ∧ Opens scope nest node) ∧
            ∃ x ∈ scope.declarations, ¬scope.Uses x)) := by
  obtain ⟨program, r, hrun⟩ :=
    Stmt.resolveAll_of_present (Tree.program_of_complaints h).2 (.start true)
  have hloud : Scope.resolve true t.statements = ⟨.ok program, r⟩ := Scope.resolve_of_ok hrun
  obtain ⟨hstatements, hrows, hnotices⟩ := Scope.resolve_quiet t.statements
  rw [hloud] at hstatements hnotices
  refine ⟨program, s.filed (r.notices.map .scoping),
    s.filed ((r.notices.map .scoping).filter Report.isError), ?_, ?_, hrows, ⟨_, rfl, rfl⟩, ?_, ?_, ?_⟩
  · rw [resolve_eq, hloud]
  · rw [resolve_eq, hstatements, hnotices, Scope.isError_scoping]
  · rw [filed_error, filed_error, List.any_filter]
    simp
  · have hquiet : ((r.notices.map Report.scoping).filter Report.isError).any Report.isWarning = false := by
      rw [List.any_eq_false]
      intro report hreport
      rw [Report.not_isWarning (List.mem_filter.1 hreport).2]
      exact Bool.false_ne_true
    rw [filed_warning, hquiet, Bool.or_false]
  · intro herror
    rw [filed_error, Bool.or_eq_false_iff] at herror
    have hclean : r.Clean := by
      intro token flaw hmem
      have hflawed := Resolution.any_isError.2 ⟨token, flaw, hmem⟩
      rw [herror.2] at hflawed
      cases hflawed
    have hwarnings := Scope.notices_of_clean hrun (Tree.parse_spelled t.source) hclean
    refine ⟨by rw [hwarnings]; rfl, ?_⟩
    rw [filed_warning, Bool.or_eq_true, hwarnings, Scope.any_isWarning]
    simp only [Stmt.mem_closingsOf]

/-- A function with a parameter `a` and, in a block, a variable `c` that nothing refers to. -/
def sparing : Text := ⟨"fun f(a, b) { { var c; } return b; }", false⟩

def sparingTree (address : Address) : List Stmt :=
  [.funDecl ⟨⟨.identifier, "f", .nil, 1⟩, [⟨.identifier, "a", .nil, 1⟩, ⟨.identifier, "b", .nil, 1⟩],
    [.block [.varDecl ⟨.identifier, "c", .nil, 1⟩ none],
      .returnStmt ⟨.kwReturn, "return", .nil, 1⟩ (some (.variable ⟨.identifier, "b", .nil, 1⟩ address))],
    false, false⟩]

/-- The block is closed before the function. -/
theorem resolve_warns_of_unused_sparing :
    (Tree.parse (Token.scan sparing.source).tokens).complaints = [] ∧
    ∃ loud quiet, resolve true sparing.statements (new true 0) = .ok (sparingTree (.hops 0)) loud ∧
      resolve false sparing.statements (new true 0) = .ok (sparingTree (.hops 0)) quiet ∧
      loud.flags.error = false ∧ loud.reports = #[.scoping (.unused "c"), .scoping (.unused "a")] ∧
      quiet.flags.warning = false := by
  have hread : (Tree.parse (Token.scan sparing.source).tokens).complaints = [] := by decide +kernel
  have hstatements : sparing.statements = sparingTree .free := Stmt.eq_of_sameAll (by decide +kernel)
  have hprogram : (Scope.resolve true sparing.statements).statements = .ok (sparingTree (.hops 0)) := by
    rw [hstatements]
    rfl
  have hnotices : (Scope.resolve true sparing.statements).reached.notices =
      [.unused "c", .unused "a"] := by
    rw [hstatements]
    rfl
  obtain ⟨program, loud, quiet, hloud, hquiet, -, -, -, hoff, hon⟩ :=
    resolve_warns_of_unused sparing hread (new true 0)
  have hfiled := resolve_eq true sparing.statements (new true 0)
  rw [hloud, hprogram, hnotices] at hfiled
  obtain ⟨rfl, hsession⟩ := EStateM.Result.ok.inj hfiled
  have herror : loud.flags.error = false := by
    rw [hsession]
    rfl
  have hunused : warnings true (Stmt.closingsOf (sparingTree (.hops 0))) =
      [.unused "c", .unused "a"] := by decide
  refine ⟨hread, loud, quiet, hloud, hquiet, herror, ?_, hoff⟩
  rw [(hon herror).1, hunused]
  rfl

end Session

end Lox
