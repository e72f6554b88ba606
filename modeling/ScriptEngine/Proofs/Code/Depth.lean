/-
The depth of the stack at every instruction.

`Expr.depths d` lists the depths at the instructions of an expression whose evaluation
begins at depth `d`, and `Stmt.depths` those of a statement, which begins at depth zero.
A program has the depths of its statements one after the other (`depthAt`).

The demand of an expression is how much room it needs, and a statement has the demand
of the one expression that it evaluates itself; what is in its blocks are statements of
their own.
-/
import ScriptEngine.Proofs.Code.Sites

namespace ScriptEngine

/-! ## Demands -/

mutual

/-- How many values an expression needs on the stack while it is evaluated. -/
def Expr.demand : Expr → Nat
  | .number .. | .bool .. | .string .. | .variable _ => 1
  | .binary _ left right => max left.demand (1 + right.demand)
  | .unary _ _ e => e.demand
  | .member object _ => max 1 object.demand
  | .method object _ args => max 1 (max object.demand (argumentsDemand 1 args))
  | .call _ args => max 1 (argumentsDemand 0 args)
  | .construct _ args => max 1 (argumentsDemand 0 args)

/-- How many values arguments need when others are below them. -/
def argumentsDemand (below : Nat) : List Expr → Nat
  | [] => 0
  | e :: rest => max (below + e.demand) (argumentsDemand (below + 1) rest)

end

theorem Expr.demand_pos (e : Expr) : 1 ≤ e.demand := by
  cases e with
  | binary _ left right =>
    have := left.demand_pos
    rw [demand]
    omega
  | unary _ _ e =>
    rw [demand]
    exact e.demand_pos
  | number | bool | string | «variable» => exact Nat.le_refl 1
  | member | method | call | construct =>
    rw [demand]
    exact Nat.le_max_left _ _

/-- How many values the expression of a statement needs, the condition if it has blocks. -/
def Stmt.demand : Stmt → Nat
  | .assign _ value => value.demand
  | .branch _ condition _ _ => condition.demand
  | .loop _ condition _ => condition.demand
  | .expr e => e.demand
  | .setMember object _ value => max 1 (argumentsDemand 0 [object, value])
  | .print _ _ args => max 1 (argumentsDemand 0 args)

/-- How many instructions evaluate the expression of a statement. -/
def Stmt.evaluationSize : Stmt → Nat
  | .assign _ value => value.codeSize
  | .branch _ condition _ _ => condition.codeSize
  | .loop _ condition _ => condition.codeSize
  | .expr e => e.codeSize
  | .setMember object _ value => object.codeSize + value.codeSize + 1
  | .print _ _ args => argumentsCodeSize args + 1

/-- The instruction evaluates the expression of the statement. -/
def Site.Evaluates (site : Site) (pc : Nat) : Prop :=
  site.offset ≤ pc ∧ pc < site.offset + site.statement.evaluationSize

/-! ## Depths -/

mutual

def Expr.depths (d : Nat) : Expr → List Nat
  | .number .. | .bool .. | .string .. | .variable _ => [d]
  | .binary _ left right => left.depths d ++ (right.depths (d + 1) ++ [d + 2])
  | .unary _ _ e => e.depths d ++ [d + 1]
  | .member object _ => object.depths d ++ [d + 1]
  | .method object _ args =>
    object.depths d ++ (argumentDepths (d + 1) args ++ [d + 1 + args.length])
  | .call _ args => argumentDepths d args ++ [d + args.length]
  | .construct _ args => argumentDepths d args ++ [d + args.length]

def argumentDepths (d : Nat) : List Expr → List Nat
  | [] => []
  | e :: rest => e.depths d ++ argumentDepths (d + 1) rest

end

mutual

def Stmt.depths (isLast : Bool) : Stmt → List Nat
  | .assign _ value => value.depths 0 ++ [1]
  | .branch _ condition thenBody none => condition.depths 0 ++ 1 :: blockDepths thenBody
  | .branch _ condition thenBody (some elseBody) =>
    condition.depths 0 ++ 1 :: (blockDepths thenBody ++ 0 :: blockDepths elseBody)
  | .loop _ condition body => condition.depths 0 ++ 1 :: (blockDepths body ++ [0])
  | .expr e => e.depths 0 ++ if isLast then [] else [1]
  | .setMember object _ value =>
    object.depths 0 ++ (value.depths 1 ++ 2 :: if isLast then [] else [1])
  | .print _ _ args => argumentDepths 0 args ++ [args.length, 1]

def blockDepths : List Stmt → List Nat
  | [] => []
  | s :: rest => s.depths false ++ blockDepths rest

end

/-- How many values a statement leaves: an expression leaves its value if it is the last one. -/
def Stmt.leaves (isLast : Bool) : Stmt → Nat
  | .expr _ | .setMember .. => if isLast then 1 else 0
  | _ => 0

/-- How many values a script leaves. -/
def leftover : List Stmt → Nat
  | [] => 0
  | [s] => s.leaves true
  | _ :: rest => leftover rest

def scriptDepths : List Stmt → List Nat
  | [] => []
  | s :: rest => s.depths rest.isEmpty ++ scriptDepths rest

/-- The depth at an offset of the program of a script, and at its end what the script leaves. -/
def depthAt (body : List Stmt) (pc : Nat) : Nat := (scriptDepths body)[pc]?.getD (leftover body)

/-! ## Depths at offsets -/

def Agrees (D : Nat → Nat) : Nat → List Nat → Prop := Throughout fun pc d => D pc = d

namespace Throughout

variable {D : Nat → Nat} {o d : Nat} {ds first second : List Nat}

theorem start (h : Throughout (fun pc d => D pc = d) o ds) (hd : ds.head? = some d) : D o = d :=
  h 0 d (by rw [← List.head?_eq_getElem?]; exact hd)

/-- The first part, closed by the depth at which the second one begins. -/
theorem upTo (h : Throughout (fun pc d => D pc = d) o (first ++ second))
    (hd : second.head? = some d) :
    Agrees D o (first ++ [d]) :=
  append (left h) (one (start (right h) hd))

end Throughout

/-! ## Tables of depths -/

mutual

theorem Expr.depths_length : ∀ (e : Expr) (d : Nat), (e.depths d).length = e.codeSize
  | .number .., _ => rfl
  | .bool .., _ => rfl
  | .string .., _ => rfl
  | .variable _, _ => rfl
  | .binary _ left right, d => by
    simp only [Expr.depths, Expr.codeSize, List.length_append, List.length_singleton,
      left.depths_length d, right.depths_length (d + 1), Nat.add_assoc]
  | .unary _ _ e, d => by
    simp only [Expr.depths, Expr.codeSize, List.length_append, List.length_singleton, e.depths_length d]
  | .member object _, d => by
    simp only [Expr.depths, Expr.codeSize, List.length_append, List.length_singleton,
      object.depths_length d]
  | .method object _ args, d => by
    simp only [Expr.depths, Expr.codeSize, List.length_append, List.length_singleton,
      object.depths_length d, argumentDepths_length args (d + 1), Nat.add_assoc]
  | .call _ args, d => by
    simp only [Expr.depths, Expr.codeSize, List.length_append, List.length_singleton,
      argumentDepths_length args d]
  | .construct _ args, d => by
    simp only [Expr.depths, Expr.codeSize, List.length_append, List.length_singleton,
      argumentDepths_length args d]

theorem argumentDepths_length : ∀ (es : List Expr) (d : Nat),
    (argumentDepths d es).length = argumentsCodeSize es
  | [], _ => rfl
  | e :: rest, d => by
    simp only [argumentDepths, argumentsCodeSize, List.length_append, e.depths_length d,
      argumentDepths_length rest (d + 1)]

end

mutual

theorem Expr.depths_head : ∀ (e : Expr) (d : Nat) (more : List Nat),
    (e.depths d ++ more).head? = some d
  | .number .., _, _ => rfl
  | .bool .., _, _ => rfl
  | .string .., _, _ => rfl
  | .variable _, _, _ => rfl
  | .binary _ left right, d, more => by
    rw [Expr.depths, List.append_assoc]
    exact left.depths_head d _
  | .unary _ _ e, d, more => by
    rw [Expr.depths, List.append_assoc]
    exact e.depths_head d _
  | .member object _, d, more => by
    rw [Expr.depths, List.append_assoc]
    exact object.depths_head d _
  | .method object _ args, d, more => by
    rw [Expr.depths, List.append_assoc]
    exact object.depths_head d _
  | .call _ args, d, more => by
    rw [Expr.depths, List.append_assoc]
    exact argumentDepths_head args d _
  | .construct _ args, d, more => by
    rw [Expr.depths, List.append_assoc]
    exact argumentDepths_head args d _

/-- The last argument is followed by the depth of all of them. -/
theorem argumentDepths_head : ∀ (es : List Expr) (d : Nat) (more : List Nat),
    (argumentDepths d es ++ ((d + es.length) :: more)).head? = some d
  | [], _, _ => rfl
  | e :: rest, d, more => by
    rw [argumentDepths, List.append_assoc]
    exact e.depths_head d _

end

mutual

theorem Stmt.depths_length : ∀ (isLast : Bool) (s : Stmt),
    (s.depths isLast).length = s.codeSize isLast
  | _, .assign _ value => by
    simp only [Stmt.depths, Stmt.codeSize, List.length_append, List.length_singleton,
      value.depths_length]
  | _, .branch _ condition thenBody none => by
    simp only [Stmt.depths, Stmt.codeSize, List.length_append, List.length_cons, condition.depths_length,
      blockDepths_length thenBody]
    omega
  | _, .branch _ condition thenBody (some elseBody) => by
    simp only [Stmt.depths, Stmt.codeSize, List.length_append, List.length_cons, condition.depths_length,
      blockDepths_length thenBody, blockDepths_length elseBody]
    omega
  | _, .loop _ condition body => by
    simp only [Stmt.depths, Stmt.codeSize, List.length_append, List.length_cons, List.length_nil,
      condition.depths_length, blockDepths_length body]
    omega
  | isLast, .expr e => by
    cases isLast <;> simp [Stmt.depths, Stmt.codeSize, e.depths_length]
  | isLast, .setMember object _ value => by
    cases isLast <;> simp [Stmt.depths, Stmt.codeSize, object.depths_length, value.depths_length] <;> omega
  | _, .print _ _ args => by
    simp only [Stmt.depths, Stmt.codeSize, List.length_append, List.length_cons, List.length_nil,
      argumentDepths_length]

theorem blockDepths_length : ∀ body : List Stmt, (blockDepths body).length = blockCodeSize body
  | [] => rfl
  | s :: rest => by
    simp only [blockDepths, blockCodeSize, List.length_append, Stmt.depths_length false s,
      blockDepths_length rest]

end

/-- A statement begins with an empty stack. -/
theorem Stmt.depths_head (isLast : Bool) (s : Stmt) (more : List Nat) :
    (s.depths isLast ++ more).head? = some 0 := by
  cases s with
  | assign target value =>
    rw [depths, List.append_assoc]
    exact value.depths_head 0 _
  | branch l condition thenBody elseBody =>
    cases elseBody <;> rw [depths, List.append_assoc] <;> exact condition.depths_head 0 _
  | loop l condition body =>
    rw [depths, List.append_assoc]
    exact condition.depths_head 0 _
  | expr e =>
    rw [depths, List.append_assoc]
    exact e.depths_head 0 _
  | setMember object name value =>
    rw [depths, List.append_assoc]
    exact object.depths_head 0 _
  | print l newline args =>
    rw [depths, List.append_assoc]
    have h := argumentDepths_head args 0 (1 :: more)
    rwa [Nat.zero_add] at h

theorem blockDepths_head (body : List Stmt) (more : List Nat) :
    (blockDepths body ++ 0 :: more).head? = some 0 := by
  cases body with
  | nil => rfl
  | cons s rest =>
    rw [blockDepths, List.append_assoc]
    exact s.depths_head false _

end ScriptEngine
