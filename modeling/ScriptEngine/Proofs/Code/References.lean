/-
What the compiler looks up.

The compiler finds functions by their names and by the lists of methods.  It never looks
at what a function does, so registries with the same two indexes compile alike
(`Script.compile_congr`).  Every handle that it finds is that of a registered function,
and it finds all handles that a program refers to (`Script.compile_denotes`).
-/
import ScriptEngine.Proofs.Code.Operands
import ScriptEngine.Proofs.Direct.Instructions
import ScriptEngine.Proofs.Run.Appending

namespace ScriptEngine

/-! ## The indexes -/

/-- Two registries have the same names and the same lists of methods.  Their functions may do
different things. -/
structure FunctionRegistry.SameIndexes (functions functions' : FunctionRegistry) : Prop where
  names : functions.names = functions'.names
  methods : functions.methods = functions'.methods

namespace FunctionRegistry.SameIndexes

variable {functions functions' : FunctionRegistry}

theorem indexOf? (h : functions.SameIndexes functions') (mangled : String) :
    functions.indexOf? mangled = functions'.indexOf? mangled := by
  unfold FunctionRegistry.indexOf?
  rw [h.names]

theorem resolve (h : functions.SameIndexes functions') (name : String) (argc : Nat) :
    functions.resolve name argc = functions'.resolve name argc := by
  unfold FunctionRegistry.resolve
  simp only [h.indexOf?]

theorem implementations (h : functions.SameIndexes functions') (method : String) (argc : Nat) :
    functions.implementations method argc = functions'.implementations method argc := by
  unfold FunctionRegistry.implementations
  rw [h.methods]

theorem hasMethod (h : functions.SameIndexes functions') (method : String) (argc : Nat) :
    functions.hasMethod method argc = functions'.hasMethod method argc := by
  unfold FunctionRegistry.hasMethod
  rw [h.methods]

end FunctionRegistry.SameIndexes

namespace Compiler

variable {functions functions' : FunctionRegistry} {strict : Bool}

theorem resolve_congr (h : functions.SameIndexes functions') (name : String) (argc : Nat)
    (l : Location) (unknown : CompilationError) :
    resolve ⟨functions, strict⟩ name argc l unknown =
      resolve ⟨functions', strict⟩ name argc l unknown := by
  unfold resolve
  rw [h.resolve]

theorem checkMethod_congr (h : functions.SameIndexes functions') (method : String) (argc : Nat)
    (l : Location) :
    checkMethod ⟨functions, strict⟩ method argc l =
      checkMethod ⟨functions', strict⟩ method argc l := by
  unfold checkMethod
  rw [h.hasMethod]

theorem emitMethod_congr (h : functions.SameIndexes functions') (method : String)
    (argc line : Nat) :
    emitMethod ⟨functions, strict⟩ method argc line =
      emitMethod ⟨functions', strict⟩ method argc line := by
  unfold emitMethod methodIndex tableOf
  rw [h.implementations]

mutual

theorem expr_congr (h : functions.SameIndexes functions') : ∀ e : Expr,
    expr ⟨functions, strict⟩ e = expr ⟨functions', strict⟩ e
  | .number .. | .bool .. | .string .. => by simp only [expr]
  | .variable name => by simp only [expr, readVariable]
  | .binary op left right => by simp only [expr, expr_congr h left, expr_congr h right]
  | .unary l op e => by simp only [expr, expr_congr h e]
  | .member object name => by
    simp only [expr, expr_congr h object, checkMethod_congr h, emitMethod_congr h]
  | .method object name args => by
    simp only [expr, expr_congr h object, exprs_congr h args, checkMethod_congr h, emitMethod_congr h]
  | .call callee args => by simp only [expr, exprs_congr h args, resolve_congr h]
  | .construct callee args => by simp only [expr, exprs_congr h args, resolve_congr h]

theorem exprs_congr (h : functions.SameIndexes functions') : ∀ es : List Expr,
    exprs ⟨functions, strict⟩ es = exprs ⟨functions', strict⟩ es
  | [] => by simp only [exprs]
  | e :: rest => by simp only [exprs, expr_congr h e, exprs_congr h rest]

end

mutual

theorem stmt_congr (h : functions.SameIndexes functions') (isLast : Bool) : ∀ s : Stmt,
    stmt ⟨functions, strict⟩ isLast s = stmt ⟨functions', strict⟩ isLast s
  | .assign target value => by simp only [stmt, expr_congr h value]
  | .branch l condition thenBody none => by
    simp only [stmt, expr_congr h condition, block_congr h thenBody]
  | .branch l condition thenBody (some elseBody) => by
    simp only [stmt, expr_congr h condition, block_congr h thenBody, block_congr h elseBody]
  | .loop l condition body => by simp only [stmt, expr_congr h condition, block_congr h body]
  | .expr e => by simp only [stmt, expr_congr h e]
  | .setMember object name value => by
    simp only [stmt, expr_congr h object, expr_congr h value, checkMethod_congr h,
      emitMethod_congr h]
  | .print l newline args => by simp only [stmt, exprs_congr h args, resolve_congr h]

theorem block_congr (h : functions.SameIndexes functions') : ∀ body : List Stmt,
    block ⟨functions, strict⟩ body = block ⟨functions', strict⟩ body
  | [] => by simp only [block]
  | s :: rest => by simp only [block, stmt_congr h false s, block_congr h rest]

end

theorem statements_congr (h : functions.SameIndexes functions') (body : List Stmt) :
    statements ⟨functions, strict⟩ body = statements ⟨functions', strict⟩ body := by
  induction body with
  | nil => rfl
  | cons s rest ih => simp only [statements, stmt_congr h, ih]

end Compiler

/-- What a script compiles to depends on the indexes alone. -/
theorem Script.compile_congr (s : Script) {functions functions' : FunctionRegistry}
    (h : functions.SameIndexes functions') (strict : Bool) :
    s.compile ⟨functions, strict⟩ = s.compile ⟨functions', strict⟩ := by
  unfold compile
  rw [Compiler.statements_congr h]

/-! ## Handles -/

/-- The method tables of a compiled program are those of their methods. -/
theorem Script.compile_tables {s : Script} {input : CompilerInput} {p : Program}
    (h : s.compile input = .ok p) :
    ∀ t ∈ p.methods, t = Compiler.tableOf input.functions t.name t.argc := by
  unfold compile at h
  cases hs : Compiler.statements input s.statements Compiler.start with
  | error e =>
    rw [hs] at h
    cases h
  | ok r =>
    rw [hs] at h
    cases h
    obtain ⟨out, hout⟩ := Compiler.statements_compiles input s.statements hs
    have hstart : Compiler.start.Consistent input.functions := by
      refine ⟨?_, ?_⟩ <;> simp [Compiler.start, Symbols.empty]
    exact fun t ht => (hout.consistent hstart).methods t (Array.mem_toList_iff.mpr ht)

/-- Every handle that a compiled program refers to is that of a registered function. -/
theorem Script.compile_denotes {s : Script} {input : CompilerInput} {p : Program}
    (h : s.compile input = .ok p) {handle : Nat} (hp : p.Refers handle) :
    ∃ entry, input.functions.entry? handle = some entry := by
  cases hp with
  | @call argc hcode =>
    obtain ⟨out, hout⟩ := compile_translates h
    obtain ⟨name, hname⟩ := hout.valid hcode
    exact FunctionRegistry.entry?_of_resolve hname
  | table ht hmem =>
    rw [compile_tables h _ ht] at hmem
    exact FunctionRegistry.entry?_of_mem_implementations
      (Compiler.mem_implementations _ _ _ hmem)

end ScriptEngine
