/-
What a script demands, in the order in which the compiler comes to it.

A script asks for functions, constructors and methods, reads variables and assigns them.
`Script.demands` lists all of this: the statements in order, a reference before its receiver
and its arguments, these from the left to the right, and an assignment behind its value.

Whether a script compiles depends on this list alone.  The demands are met one after the
other, and all that one hands on to the next are the variables met so far
(`Script.compile_demands`).  The first demand that is not met decides the error.
-/
import ScriptEngine.Compiler.Compile
import ScriptEngine.Proofs.Sequence

namespace ScriptEngine

/-- What a script asks the registry for, with the place where it asks. -/
inductive Reference where
  | function (name : String) (argc : Nat) (location : Location)
  | constructor (className : String) (argc : Nat) (location : Location)
  | method (name : String) (argc : Nat) (location : Location)
  deriving DecidableEq, Repr

namespace Reference

/-- The error that says that the registry has no such function. -/
def error : Reference → CompilationError
  | function name argc l => .unknownFunction name argc l
  | constructor className argc l => .unknownConstructor className argc l
  | method name argc l => .unknownMethod name argc l

/-- Why the compiler refuses a reference, if it does. -/
def refusal? (functions : FunctionRegistry) (r : Reference) : Option CompilationError :=
  match r with
  | function name argc l => find (functions.resolve name argc) l
  | constructor className argc l =>
    find (functions.resolve (Members.constructorName className) argc) l
  | method name argc _ => if functions.hasMethod name argc then none else some r.error
where
  /-- The error for an answer of the registry. -/
  find (answer : Except MangleError (Option Nat)) (l : Location) : Option CompilationError :=
    match answer with
    | .error cause => some (.invalidName cause l)
    | .ok none => some r.error
    | .ok (some _) => none

/-- A reference is refused because it is not resolved, or for its name. -/
theorem refusal?_cases {functions : FunctionRegistry} {r : Reference} {e : CompilationError}
    (h : r.refusal? functions = some e) : e = r.error ∨ ∃ cause l, e = .invalidName cause l := by
  have find : ∀ answer l, refusal?.find r answer l = some e →
      e = r.error ∨ ∃ cause l, e = .invalidName cause l := by
    rintro (cause | _ | handle) l ⟨⟩
    · exact .inr ⟨cause, l, rfl⟩
    · exact .inl rfl
  cases r with
  | function => exact find _ _ h
  | constructor => exact find _ _ h
  | method name argc l =>
    unfold refusal? at h
    dsimp only at h
    split at h <;> cases h
    exact .inl rfl

end Reference

inductive Demand where
  | reference (r : Reference)
  | read (name : Ident)
  | assign (name : String)
  deriving DecidableEq, Repr

mutual

def Expr.demands : Expr → List Demand
  | .number .. | .bool .. | .string .. => []
  | .variable name => [.read name]
  | .binary _ left right => left.demands ++ right.demands
  | .unary _ _ operand => operand.demands
  | .member object name => .reference (.method name.name 0 name.location) :: object.demands
  | .method object name args =>
    .reference (.method name.name args.length name.location) ::
      (object.demands ++ argumentDemands args)
  | .call callee args =>
    .reference (.function callee.name args.length callee.location) :: argumentDemands args
  | .construct callee args =>
    .reference (.constructor callee.name args.length callee.location) :: argumentDemands args

def argumentDemands : List Expr → List Demand
  | [] => []
  | e :: rest => e.demands ++ argumentDemands rest

end

mutual

def Stmt.demands : Stmt → List Demand
  | .assign target value => value.demands ++ [.assign target.name]
  | .branch _ condition thenBody none => condition.demands ++ blockDemands thenBody
  | .branch _ condition thenBody (some elseBody) =>
    condition.demands ++ (blockDemands thenBody ++ blockDemands elseBody)
  | .loop _ condition body => condition.demands ++ blockDemands body
  | .expr e => e.demands
  | .setMember object name value =>
    .reference (.method (Members.setterName name.name) 1 name.location) ::
      (object.demands ++ value.demands)
  | .print l newline args =>
    .reference (.function (printFunction newline) args.length l) :: argumentDemands args

def blockDemands : List Stmt → List Demand
  | [] => []
  | s :: rest => s.demands ++ blockDemands rest

end

/-- The references among some demands. -/
def references (ds : List Demand) : List Reference :=
  ds.filterMap fun
    | .reference r => some r
    | _ => none

namespace Script

def demands (s : Script) : List Demand := blockDemands s.statements

/-- The references of a script in the order in which they are looked up. -/
def references (s : Script) : List Reference := ScriptEngine.references s.demands

end Script

theorem mem_references {r : Reference} {ds : List Demand} :
    r ∈ references ds ↔ .reference r ∈ ds := by
  unfold references
  rw [List.mem_filterMap]
  constructor
  · rintro ⟨_ | _ | _, hd, ⟨⟩⟩
    exact hd
  · exact fun hd => ⟨_, hd, rfl⟩

/-! ## Meeting demands -/

/-- Meets a demand, with the variables met so far. -/
def CompilerInput.meet (input : CompilerInput) (symbols : Symbols) :
    Demand → Except CompilationError Symbols
  | .reference r =>
    match r.refusal? input.functions with
    | some e => .error e
    | none => .ok symbols
  | .read name =>
    match symbols.lookup? name.name with
    | some _ => .ok symbols
    | none =>
      if input.strict then .error (.undeclaredVariable name.name name.location)
      else .ok (symbols.declare name.name).2
  | .assign name => .ok (symbols.declare name).2

/-- Meets demands one after the other. -/
def CompilerInput.meetAll (input : CompilerInput) (symbols : Symbols) (ds : List Demand) :
    Except CompilationError Symbols := ds.foldlM input.meet symbols

theorem CompilerInput.meetAll_append (input : CompilerInput) (symbols : Symbols)
    (ds es : List Demand) : input.meetAll symbols (ds ++ es) =
      (input.meetAll symbols ds).bind fun next => input.meetAll next es := List.foldlM_append

theorem CompilerInput.meetAll_cons (input : CompilerInput) (symbols : Symbols) (d : Demand)
    (ds : List Demand) : input.meetAll symbols (d :: ds) =
      (input.meet symbols d).bind fun next => input.meetAll next ds := List.foldlM_cons

theorem CompilerInput.meetAll_singleton (input : CompilerInput) (symbols : Symbols) (d : Demand) :
    input.meetAll symbols [d] = input.meet symbols d := by
  rw [meetAll_cons]
  cases input.meet symbols d <;> rfl

/-- A demand fails if it is a reference that is refused, or a read that strict declarations
refuse. -/
theorem CompilerInput.meet_error {input : CompilerInput} {symbols : Symbols} {d : Demand}
    {e : CompilationError} (h : input.meet symbols d = .error e) :
    (∃ r, d = .reference r ∧ r.refusal? input.functions = some e) ∨
      ∃ name, d = .read name ∧ input.strict = true ∧ symbols.lookup? name.name = none ∧
        e = .undeclaredVariable name.name name.location := by
  cases d with
  | reference r =>
    cases hr : r.refusal? input.functions with
    | none => simp [meet, hr] at h
    | some e' =>
      obtain rfl : e' = e := by simpa [meet, hr] using h
      exact .inl ⟨r, rfl, hr⟩
  | read name =>
    cases hname : symbols.lookup? name.name with
    | some slot => simp [meet, hname] at h
    | none =>
      cases hstrict : input.strict with
      | false => simp [meet, hname, hstrict] at h
      | true =>
        simp [meet, hname, hstrict] at h
        exact .inr ⟨name, rfl, rfl, hname, h.symm⟩
  | assign name => cases h

/-- Demands fail at one of them, after those before it have been met. -/
theorem CompilerInput.meetAll_error {input : CompilerInput} {symbols : Symbols}
    {ds : List Demand} {e : CompilationError} (h : input.meetAll symbols ds = .error e) :
    ∃ before d after next, ds = before ++ d :: after ∧
      input.meetAll symbols before = .ok next ∧ input.meet next d = .error e := by
  induction ds generalizing symbols with
  | nil => cases h
  | cons d ds ih =>
    rw [meetAll_cons] at h
    cases hd : input.meet symbols d with
    | error e' =>
      rw [hd] at h
      cases h
      exact ⟨[], d, ds, symbols, rfl, rfl, hd⟩
    | ok next =>
      rw [hd] at h
      obtain ⟨before, d', after, last, rfl, hbefore, hd'⟩ := ih h
      refine ⟨d :: before, d', after, last, rfl, ?_, hd'⟩
      rw [meetAll_cons, hd]
      exact hbefore

/-- Without strict declarations the first reference that is refused decides. -/
theorem CompilerInput.meetAll_lenient (functions : FunctionRegistry) (symbols : Symbols)
    (ds : List Demand) :
    (∀ e, (references ds).findSome? (·.refusal? functions) = some e →
      meetAll ⟨functions, false⟩ symbols ds = .error e) ∧
    ((references ds).findSome? (·.refusal? functions) = none →
      ∃ next, meetAll ⟨functions, false⟩ symbols ds = .ok next) := by
  induction ds generalizing symbols with
  | nil => exact ⟨nofun, fun _ => ⟨symbols, rfl⟩⟩
  | cons d ds ih =>
    rw [meetAll_cons]
    cases d with
    | reference r =>
      rw [meet, show references (.reference r :: ds) = r :: references ds from rfl,
        List.findSome?_cons]
      cases r.refusal? functions with
      | none => exact ih symbols
      | some e =>
        refine ⟨?_, nofun⟩
        rintro _ ⟨⟩
        rfl
    | read name =>
      have hmet : ∃ next, meet ⟨functions, false⟩ symbols (.read name) = .ok next := by
        rw [meet]
        cases symbols.lookup? name.name <;> exact ⟨_, rfl⟩
      obtain ⟨next, hnext⟩ := hmet
      rw [hnext]
      exact ih next
    | assign name => exact ih _

/-! ## Compiling -/

namespace Compiler

/-- The step does to the variables what meeting the demands does, and fails as that does. -/
def Asks {α : Type} (input : CompilerInput) (x : Compile α) (ds : List Demand) : Prop :=
  ∀ c : Compiler, (x c).map (fun r => r.2.symbols) = input.meetAll c.symbols ds

namespace Asks

variable {α β : Type} {input : CompilerInput} {x : Compile α} {f : α → Compile β}
  {ds es : List Demand}

theorem bind (hx : Asks input x ds) (hf : ∀ a, Asks input (f a) es) :
    Asks input (x >>= f) (ds ++ es) := by
  intro c
  have hbind : (x >>= f) c = (x c).bind fun r => f r.1 r.2 := rfl
  rw [CompilerInput.meetAll_append, ← hx c, hbind]
  cases x c with
  | error e => rfl
  | ok r => exact hf r.1 r.2

/-- What asks for nothing can come first. -/
theorem after (hx : Asks input x []) (hf : ∀ a, Asks input (f a) es) :
    Asks input (x >>= f) es := hx.bind hf

/-- What asks for nothing can come last. -/
theorem before (hx : Asks input x ds) (hf : ∀ a, Asks input (f a) []) :
    Asks input (x >>= f) ds := by
  have h := hx.bind hf
  rwa [List.append_nil] at h

theorem pure (a : α) : Asks input (Pure.pure a : Compile α) [] := fun _ => rfl

theorem get_bind {f : Compiler → Compile β} (hf : ∀ c, Asks input (f c) ds) :
    Asks input (get >>= f) ds := fun c => hf c c

theorem modifyGet {g : Compiler → α × Compiler} (hg : ∀ c, (g c).2.symbols = c.symbols) :
    Asks input (modifyGet g : Compile α) [] := fun c => congrArg Except.ok (hg c)

theorem emitting (g : Emitter → Emitter) : Asks input (emitting g) [] := fun _ => rfl

theorem emitAt (line : Nat) (i : Instruction) : Asks input (emitAt line i) [] := fun _ => rfl

theorem constantAt (line : Nat) (k : Constant) : Asks input (constantAt line k) [] := fun _ => rfl

theorem forward (conditional : Bool) : Asks input (forward conditional) [] := fun _ => rfl

theorem land (label : Label) : Asks input (land label) [] := fun _ => rfl

theorem pop (isLast : Bool) : Asks input
    (if isLast then Pure.pure () else Compiler.emitting (·.emit .pop)) [] := by
  cases isLast <;> exact fun _ => rfl

theorem declare (name : String) : Asks input (declare name) [.assign name] := fun _ => rfl

theorem emitMethod (method : String) (argc line : Nat) :
    Asks input (emitMethod input method argc line) [] := by
  have hindex : Asks input (methodIndex input method argc) [] :=
    .modifyGet fun c => by split <;> rfl
  exact hindex.after fun _ => emitAt line _

/-- A variable is looked up. -/
theorem readVariable (name : Ident) : Asks input (readVariable input name) [.read name] := by
  intro c
  rw [CompilerInput.meetAll_singleton, CompilerInput.meet]
  have hget : ∀ f : Compiler → Compile Unit, (get >>= f) c = f c c := fun _ => rfl
  unfold Compiler.readVariable
  rw [hget]
  cases c.symbols.lookup? name.name with
  | some slot => rfl
  | none => cases input.strict <;> rfl

/-- A function is looked up. -/
theorem resolve (r : Reference) {name : String} {argc : Nat} {l : Location}
    (h : r.refusal? input.functions =
      Reference.refusal?.find r (input.functions.resolve name argc) l) :
    Asks input (resolve input name argc l r.error) [.reference r] := by
  intro c
  rw [CompilerInput.meetAll_singleton, CompilerInput.meet, h]
  unfold Compiler.resolve Reference.refusal?.find
  rcases input.functions.resolve name argc with cause | _ | handle <;> rfl

theorem checkMethod (method : String) (argc : Nat) (l : Location) :
    Asks input (checkMethod input method argc l) [.reference (.method method argc l)] := by
  intro c
  rw [CompilerInput.meetAll_singleton, CompilerInput.meet, Reference.refusal?]
  unfold Compiler.checkMethod
  cases input.functions.hasMethod method argc <;> rfl

end Asks

mutual

theorem expr_asks (input : CompilerInput) : ∀ e : Expr, Asks input (expr input e) e.demands
  | .number .. | .bool .. | .string .. => .constantAt _ _
  | .variable name => .readVariable name
  | .binary op left right => by
    rw [expr, Expr.demands]
    exact (expr_asks input left).bind fun _ => (expr_asks input right).before fun _ => .emitAt _ _
  | .unary l op e => by
    rw [expr, Expr.demands]
    exact (expr_asks input e).before fun _ => .emitAt _ _
  | .member object name => by
    rw [expr, Expr.demands]
    exact (Asks.checkMethod _ _ _).bind fun _ =>
      (expr_asks input object).before fun _ => .emitMethod _ _ _
  | .method object name args => by
    rw [expr, Expr.demands]
    refine (Asks.checkMethod _ _ _).bind fun _ => (expr_asks input object).bind fun _ => ?_
    exact (exprs_asks input args).before fun _ => .emitMethod _ _ _
  | .call callee args => by
    rw [expr, Expr.demands]
    exact (Asks.resolve (.function ..) rfl).bind fun _ =>
      (exprs_asks input args).before fun _ => .emitAt _ _
  | .construct callee args => by
    rw [expr, Expr.demands]
    exact (Asks.resolve (.constructor ..) rfl).bind fun _ =>
      (exprs_asks input args).before fun _ => .emitAt _ _

theorem exprs_asks (input : CompilerInput) : ∀ es : List Expr,
    Asks input (exprs input es) (argumentDemands es)
  | [] => .pure ()
  | e :: rest => by
    rw [exprs, argumentDemands]
    exact (expr_asks input e).bind fun _ => exprs_asks input rest

end

mutual

theorem stmt_asks (input : CompilerInput) (isLast : Bool) : ∀ s : Stmt,
    Asks input (stmt input isLast s) s.demands
  | .assign target value => by
    rw [stmt, Stmt.demands]
    exact (expr_asks input value).bind fun _ => (Asks.declare _).before fun _ => .emitAt _ _
  | .branch l condition thenBody none => by
    rw [stmt, Stmt.demands]
    refine (expr_asks input condition).bind fun _ => (Asks.emitting _).after fun _ => ?_
    exact (Asks.forward true).after fun _ => (block_asks input thenBody).before fun _ => .land _
  | .branch l condition thenBody (some elseBody) => by
    rw [stmt, Stmt.demands]
    refine (expr_asks input condition).bind fun _ => (Asks.emitting _).after fun _ => ?_
    refine (Asks.forward true).after fun _ => (block_asks input thenBody).bind fun _ => ?_
    refine (Asks.forward false).after fun _ => (Asks.land _).after fun _ => ?_
    exact (block_asks input elseBody).before fun _ => .land _
  | .loop l condition body => by
    rw [stmt, Stmt.demands]
    refine .get_bind fun c => (expr_asks input condition).bind fun _ => ?_
    refine (Asks.emitting _).after fun _ => (Asks.forward true).after fun _ => ?_
    exact (block_asks input body).before fun _ => (Asks.emitting _).after fun _ => .land _
  | .expr e => by
    rw [stmt, Stmt.demands]
    exact (expr_asks input e).before fun _ => .pop _
  | .setMember object name value => by
    rw [stmt, Stmt.demands]
    refine (Asks.checkMethod _ _ _).bind fun _ => (expr_asks input object).bind fun _ => ?_
    exact (expr_asks input value).before fun _ => (Asks.emitMethod _ _ _).after fun _ => .pop _
  | .print l newline args => by
    rw [stmt, Stmt.demands]
    exact (Asks.resolve (.function ..) rfl).bind fun _ =>
      (exprs_asks input args).before fun _ => .emitting _

theorem block_asks (input : CompilerInput) : ∀ body : List Stmt,
    Asks input (block input body) (blockDemands body)
  | [] => .pure ()
  | s :: rest => by
    rw [block, blockDemands]
    exact (stmt_asks input false s).bind fun _ => block_asks input rest

end

theorem statements_asks (input : CompilerInput) (body : List Stmt) :
    Asks input (statements input body) (blockDemands body) := by
  induction body with
  | nil => exact .pure ()
  | cons s rest ih =>
    rw [statements, blockDemands]
    exact (stmt_asks input rest.isEmpty s).bind fun _ => ih

end Compiler

/-- A script compiles if its demands are met, and fails as they fail. -/
theorem Script.compile_demands (input : CompilerInput) (s : Script) :
    ((∃ p, s.compile input = .ok p) ↔ ∃ symbols, input.meetAll .empty s.demands = .ok symbols) ∧
      ∀ e, s.compile input = .error e ↔ input.meetAll .empty s.demands = .error e := by
  have h := Compiler.statements_asks input s.statements Compiler.start
  unfold compile demands
  rw [show Symbols.empty = Compiler.start.symbols from rfl, ← h]
  rcases Compiler.statements input s.statements Compiler.start with e | ⟨⟨⟩, c⟩ <;>
    simp [Except.map]

/-- Without strict declarations the references decide whether a script compiles. -/
theorem Script.compile_lenient (functions : FunctionRegistry) (s : Script) :
    ((∃ p, s.compile ⟨functions, false⟩ = .ok p) ↔
      s.references.findSome? (·.refusal? functions) = none) ∧
    ∀ e, s.compile ⟨functions, false⟩ = .error e ↔
      s.references.findSome? (·.refusal? functions) = some e := by
  obtain ⟨hcompiles, hfails⟩ := compile_demands ⟨functions, false⟩ s
  obtain ⟨herror, hok⟩ := CompilerInput.meetAll_lenient functions .empty s.demands
  rw [hcompiles]
  simp only [hfails]
  cases hrefused : s.references.findSome? (·.refusal? functions) with
  | none =>
    obtain ⟨next, hnext⟩ := hok hrefused
    simp [hnext]
  | some e => simp [herror e hrefused]

end ScriptEngine
