/-
Strict declarations only reject.

With strict declarations a variable that is read has to be known, and only assignments make
variables known.  So a read is refused exactly if no assignment of the name stands before it
in the text, where an assignment stands behind its value.  Whether the code in between would
run does not matter (`AssignsFirst`).

Where nothing is refused the two ways to compile do the same, step by step.  A read that
would declare its variable is the only place where they differ (`Compiler.Refines`).
-/
import ScriptEngine.Proofs.Code.Demands

namespace ScriptEngine

/-! ## The known variables -/

namespace Symbols

theorem lookup?_eq_none {symbols : Symbols} {name : String} :
    symbols.lookup? name = none ↔ name ∉ symbols.names := by
  unfold lookup?
  rw [Array.findIdx?_eq_none_iff]
  constructor
  · intro h hmem
    simpa using h name hmem
  · intro h other hmem
    exact decide_eq_false fun hsame => h (hsame ▸ hmem)

theorem mem_declare {symbols : Symbols} {name other : String} :
    other ∈ (symbols.declare name).2.names ↔ other ∈ symbols.names ∨ other = name := by
  unfold declare
  cases h : symbols.lookup? name with
  | none => exact Array.mem_push
  | some slot =>
    have hmem : name ∈ symbols.names := by
      refine Decidable.byContradiction fun hmem => ?_
      rw [lookup?_eq_none.mpr hmem] at h
      cases h
    exact ⟨.inl, fun h => h.elim id fun hsame => hsame ▸ hmem⟩

end Symbols

namespace CompilerInput

variable {functions : FunctionRegistry} {symbols next : Symbols}

/-- With strict declarations an assignment makes its variable known, and nothing else does. -/
theorem meet_names {d : Demand} (h : meet ⟨functions, true⟩ symbols d = .ok next)
    (name : String) : name ∈ next.names ↔ name ∈ symbols.names ∨ d = .assign name := by
  cases d with
  | reference r =>
    cases hr : r.refusal? functions with
    | some e => simp [meet, hr] at h
    | none =>
      obtain rfl : symbols = next := by simpa [meet, hr] using h
      simp
  | read other =>
    cases hother : symbols.lookup? other.name with
    | none => simp [meet, hother] at h
    | some slot =>
      obtain rfl : symbols = next := by simpa [meet, hother] using h
      simp
  | assign other =>
    cases h
    rw [Symbols.mem_declare, Demand.assign.injEq, eq_comm]

theorem meetAll_names {ds : List Demand} (h : meetAll ⟨functions, true⟩ symbols ds = .ok next)
    (name : String) : name ∈ next.names ↔ name ∈ symbols.names ∨ .assign name ∈ ds := by
  induction ds generalizing symbols with
  | nil =>
    cases h
    simp
  | cons d ds ih =>
    rw [meetAll_cons] at h
    obtain ⟨middle, hd, hds⟩ := except_bind_ok h
    rw [ih hds, meet_names hd, List.mem_cons, or_assoc, @eq_comm _ d]

end CompilerInput

/-! ## The same program -/

namespace Compiler

/-- What the first step gives, the second one gives. -/
def Refines {α : Type} (x y : Compile α) : Prop := ∀ c r, x c = .ok r → y c = .ok r

namespace Refines

variable {α β : Type} {x y : Compile α} {f g : α → Compile β}

theorem refl (x : Compile α) : Refines x x := fun _ _ h => h

theorem bind (hx : Refines x y) (hf : ∀ a, Refines (f a) (g a)) :
    Refines (x >>= f) (y >>= g) := by
  intro c r h
  obtain ⟨a, next, ha, hr⟩ := bind_ok h
  have hbind : (y >>= g) c = (y c).bind fun r => g r.1 r.2 := rfl
  rw [hbind, hx c _ ha]
  exact hf a next r hr

/-- Two steps that begin with the same one differ behind it. -/
theorem after (x : Compile α) (hf : ∀ a, Refines (f a) (g a)) : Refines (x >>= f) (x >>= g) :=
  (refl x).bind hf

theorem before (hx : Refines x y) (f : α → Compile β) : Refines (x >>= f) (y >>= f) :=
  hx.bind fun _ => refl _

end Refines

variable (functions : FunctionRegistry)

theorem readVariable_refines (name : Ident) :
    Refines (readVariable ⟨functions, true⟩ name) (readVariable ⟨functions, false⟩ name) := by
  refine .after _ fun c => ?_
  cases c.symbols.lookup? name.name with
  | some slot => exact .refl _
  | none => exact nofun

mutual

theorem expr_refines : ∀ e : Expr,
    Refines (expr ⟨functions, true⟩ e) (expr ⟨functions, false⟩ e)
  | .number .. | .bool .. | .string .. => .refl _
  | .variable name => readVariable_refines functions name
  | .binary op left right => by
    rw [expr, expr]
    exact (expr_refines left).bind fun _ => (expr_refines right).before _
  | .unary l op e => by
    rw [expr, expr]
    exact (expr_refines e).before _
  | .member object name => by
    rw [expr, expr]
    exact .after _ fun _ => (expr_refines object).before _
  | .method object name args => by
    rw [expr, expr]
    exact .after _ fun _ => (expr_refines object).bind fun _ => (exprs_refines args).before _
  | .call callee args => by
    rw [expr, expr]
    exact .after _ fun _ => (exprs_refines args).before _
  | .construct callee args => by
    rw [expr, expr]
    exact .after _ fun _ => (exprs_refines args).before _

theorem exprs_refines : ∀ es : List Expr,
    Refines (exprs ⟨functions, true⟩ es) (exprs ⟨functions, false⟩ es)
  | [] => .refl _
  | e :: rest => by
    rw [exprs, exprs]
    exact (expr_refines e).bind fun _ => exprs_refines rest

end

mutual

theorem stmt_refines (isLast : Bool) : ∀ s : Stmt,
    Refines (stmt ⟨functions, true⟩ isLast s) (stmt ⟨functions, false⟩ isLast s)
  | .assign target value => by
    rw [stmt, stmt]
    exact (expr_refines functions value).before _
  | .branch l condition thenBody none => by
    rw [stmt, stmt]
    refine (expr_refines functions condition).bind fun _ => .after _ fun _ => ?_
    exact .after _ fun _ => (block_refines thenBody).before _
  | .branch l condition thenBody (some elseBody) => by
    rw [stmt, stmt]
    refine (expr_refines functions condition).bind fun _ => .after _ fun _ => .after _ fun _ => ?_
    refine (block_refines thenBody).bind fun _ => .after _ fun _ => .after _ fun _ => ?_
    exact (block_refines elseBody).before _
  | .loop l condition body => by
    rw [stmt, stmt]
    refine .after _ fun _ => (expr_refines functions condition).bind fun _ => .after _ fun _ => ?_
    exact .after _ fun _ => (block_refines body).before _
  | .expr e => by
    rw [stmt, stmt]
    exact (expr_refines functions e).before _
  | .setMember object name value => by
    rw [stmt, stmt]
    refine .after _ fun _ => (expr_refines functions object).bind fun _ => ?_
    exact (expr_refines functions value).before _
  | .print l newline args => by
    rw [stmt, stmt]
    exact .after _ fun _ => (exprs_refines functions args).before _

theorem block_refines : ∀ body : List Stmt,
    Refines (block ⟨functions, true⟩ body) (block ⟨functions, false⟩ body)
  | [] => .refl _
  | s :: rest => by
    rw [block, block]
    exact (stmt_refines false s).bind fun _ => block_refines rest

end

theorem statements_refines (body : List Stmt) :
    Refines (statements ⟨functions, true⟩ body) (statements ⟨functions, false⟩ body) := by
  induction body with
  | nil => exact .refl _
  | cons s rest ih => exact (stmt_refines functions rest.isEmpty s).bind fun _ => ih

end Compiler

/-! ## Reads behind assignments -/

/-- Every read stands behind an assignment of its variable. -/
def AssignsFirst (ds : List Demand) : Prop :=
  ∀ before name after, ds = before ++ .read name :: after → .assign name.name ∈ before

namespace CompilerInput

variable {functions : FunctionRegistry} {next : Symbols} {ds before : List Demand}

/-- Behind some demands a variable is unknown exactly if none of them assigns it. -/
theorem unknown_iff (h : meetAll ⟨functions, true⟩ .empty before = .ok next) (name : String) :
    next.lookup? name = none ↔ .assign name ∉ before := by
  rw [Symbols.lookup?_eq_none, meetAll_names h]
  simp [Symbols.empty]

/-- Where the demands are met with strict declarations, every read stands behind an assignment. -/
theorem assignsFirst_of_meetAll (h : meetAll ⟨functions, true⟩ .empty ds = .ok next) :
    AssignsFirst ds := by
  rintro before name after rfl
  refine Decidable.byContradiction fun hnone => ?_
  rw [meetAll_append] at h
  obtain ⟨middle, hbefore, hrest⟩ := except_bind_ok h
  rw [meetAll_cons] at hrest
  obtain ⟨last, hread, -⟩ := except_bind_ok hrest
  simp [meet, (unknown_iff hbefore name.name).mpr hnone] at hread

end CompilerInput

namespace Script

variable (functions : FunctionRegistry) (s : Script)

theorem compile_same {p : Program} (h : s.compile ⟨functions, true⟩ = .ok p) :
    s.compile ⟨functions, false⟩ = .ok p := by
  unfold compile at h ⊢
  cases hs : Compiler.statements ⟨functions, true⟩ s.statements Compiler.start with
  | error e =>
    rw [hs] at h
    cases h
  | ok r =>
    rw [hs] at h
    rw [Compiler.statements_refines functions _ _ _ hs]
    exact h

theorem compile_assignsFirst {p : Program} (h : s.compile ⟨functions, true⟩ = .ok p) :
    AssignsFirst s.demands := by
  obtain ⟨next, hnext⟩ := (compile_demands ⟨functions, true⟩ s).1.mp ⟨p, h⟩
  exact CompilerInput.assignsFirst_of_meetAll hnext

/-- With strict declarations a script fails at a reference, or else at the first read that stands
behind no assignment of its variable. -/
theorem compile_strict_error {e : CompilationError} (h : s.compile ⟨functions, true⟩ = .error e) :
    (∃ r ∈ s.references, r.refusal? functions = some e) ∨
      ∃ name before after, e = .undeclaredVariable name.name name.location ∧
        s.demands = before ++ .read name :: after ∧ .assign name.name ∉ before ∧
        AssignsFirst before := by
  rw [(compile_demands _ s).2] at h
  obtain ⟨before, d, after, next, hsplit, hbefore, hd⟩ := CompilerInput.meetAll_error h
  rcases CompilerInput.meet_error hd with ⟨r, rfl, hrefused⟩ | ⟨name, rfl, -, hunknown, he⟩
  · exact .inl ⟨r, mem_references.mpr (by simp [hsplit]), hrefused⟩
  · exact .inr ⟨name, before, after, he, hsplit,
      (CompilerInput.unknown_iff hbefore _).mp hunknown,
      CompilerInput.assignsFirst_of_meetAll hbefore⟩

/-- Compiling with strict declarations rejects some scripts and changes none. -/
structure OnlyRejects : Prop where
  succeeds : (∃ p, s.compile ⟨functions, true⟩ = .ok p) ↔
    (∃ p, s.compile ⟨functions, false⟩ = .ok p) ∧ AssignsFirst s.demands
  same : ∀ p, s.compile ⟨functions, true⟩ = .ok p → s.compile ⟨functions, false⟩ = .ok p
  /-- The error names the first read that stands behind no assignment of its variable. -/
  undeclared : ∀ name l, s.compile ⟨functions, true⟩ = .error (.undeclaredVariable name l) →
    ∃ before after, s.demands = before ++ .read ⟨name, l⟩ :: after ∧
      .assign name ∉ before ∧ AssignsFirst before

theorem compile_onlyRejects : OnlyRejects functions s := by
  constructor
  case same => exact fun p => compile_same functions s
  case succeeds =>
    constructor
    · rintro ⟨p, hp⟩
      exact ⟨⟨p, compile_same functions s hp⟩, compile_assignsFirst functions s hp⟩
    · rintro ⟨hlenient, hassigns⟩
      cases hp : s.compile ⟨functions, true⟩ with
      | ok p => exact ⟨p, rfl⟩
      | error e =>
        rcases compile_strict_error functions s hp with
          ⟨r, hr, hrefused⟩ | ⟨name, before, after, -, hsplit, hnone, -⟩
        · have hnone := List.findSome?_eq_none_iff.mp ((compile_lenient functions s).1.mp hlenient)
          rw [hnone r hr] at hrefused
          cases hrefused
        · exact absurd (hassigns before name after hsplit) hnone
  case undeclared =>
    intro name l h
    rcases compile_strict_error functions s h with
      ⟨r, -, hrefused⟩ | ⟨⟨_, _⟩, before, after, he, hsplit, hnone, hfirst⟩
    · rcases Reference.refusal?_cases hrefused with he | ⟨cause, l, he⟩
      · cases r <;> cases he
      · cases he
    · cases he
      exact ⟨before, after, hsplit, hnone, hfirst⟩

end Script
end ScriptEngine
