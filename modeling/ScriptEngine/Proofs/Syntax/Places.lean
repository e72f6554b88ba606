/-
Syntax with its places changed.

Two trees that differ only in the places of their nodes become one when every place
is replaced by the same one (`SameButPlaces`).  What holds of two trees whose places
correspond in some other way is said with another map of places, and with the
identity it is said of one tree.
-/
import ScriptEngine.Syntax

namespace ScriptEngine

variable (f : Location → Location)

def Ident.relocate (name : Ident) : Ident := ⟨name.name, f name.location⟩

mutual

/-- The expression with every place in it mapped. -/
def Expr.relocate : Expr → Expr
  | .number l value => .number (f l) value
  | .bool l value => .bool (f l) value
  | .string l value => .string (f l) value
  | .variable name => .variable (name.relocate f)
  | .binary op left right => .binary op left.relocate right.relocate
  | .unary l op e => .unary (f l) op e.relocate
  | .member object name => .member object.relocate (name.relocate f)
  | .method object name args => .method object.relocate (name.relocate f) (relocateArguments args)
  | .call callee args => .call (callee.relocate f) (relocateArguments args)
  | .construct callee args => .construct (callee.relocate f) (relocateArguments args)

def relocateArguments : List Expr → List Expr
  | [] => []
  | e :: rest => e.relocate :: relocateArguments rest

end

mutual

/-- The statement with every place in it mapped. -/
def Stmt.relocate : Stmt → Stmt
  | .assign target value => .assign (target.relocate f) (value.relocate f)
  | .branch l condition thenBody none =>
    .branch (f l) (condition.relocate f) (relocateBlock thenBody) none
  | .branch l condition thenBody (some elseBody) =>
    .branch (f l) (condition.relocate f) (relocateBlock thenBody) (some (relocateBlock elseBody))
  | .loop l condition body => .loop (f l) (condition.relocate f) (relocateBlock body)
  | .expr e => .expr (e.relocate f)
  | .setMember object name value =>
    .setMember (object.relocate f) (name.relocate f) (value.relocate f)
  | .print l newline args => .print (f l) newline (relocateArguments f args)

def relocateBlock : List Stmt → List Stmt
  | [] => []
  | s :: rest => s.relocate :: relocateBlock rest

end

/-- The map that makes all places one. -/
abbrev nowhere : Location → Location := fun _ => .start

/-- The statements are the same but for the places of their nodes. -/
def SameButPlaces (body other : List Stmt) : Prop :=
  relocateBlock nowhere body = relocateBlock nowhere other

/-! ## The identity changes nothing -/

mutual

theorem Expr.relocate_id : ∀ e : Expr, e.relocate id = e
  | .number .. | .bool .. | .string .. | .variable _ => rfl
  | .binary _ left right => by rw [Expr.relocate, left.relocate_id, right.relocate_id]
  | .unary _ _ e => by rw [Expr.relocate, e.relocate_id, id]
  | .member object _ => by rw [Expr.relocate, object.relocate_id]; rfl
  | .method object _ args => by
    rw [Expr.relocate, object.relocate_id, relocateArguments_id args]; rfl
  | .call _ args => by rw [Expr.relocate, relocateArguments_id args]; rfl
  | .construct _ args => by rw [Expr.relocate, relocateArguments_id args]; rfl

theorem relocateArguments_id : ∀ args : List Expr, relocateArguments id args = args
  | [] => rfl
  | e :: rest => by rw [relocateArguments, e.relocate_id, relocateArguments_id rest]

end

mutual

theorem Stmt.relocate_id : ∀ s : Stmt, s.relocate id = s
  | .assign _ value => by rw [Stmt.relocate, value.relocate_id]; rfl
  | .branch _ condition thenBody none => by
    rw [Stmt.relocate, condition.relocate_id, relocateBlock_id thenBody, id]
  | .branch _ condition thenBody (some elseBody) => by
    rw [Stmt.relocate, condition.relocate_id, relocateBlock_id thenBody, relocateBlock_id elseBody, id]
  | .loop _ condition body => by
    rw [Stmt.relocate, condition.relocate_id, relocateBlock_id body, id]
  | .expr e => by rw [Stmt.relocate, e.relocate_id]
  | .setMember object _ value => by
    rw [Stmt.relocate, object.relocate_id, value.relocate_id]; rfl
  | .print _ _ args => by rw [Stmt.relocate, relocateArguments_id args, id]

theorem relocateBlock_id : ∀ body : List Stmt, relocateBlock id body = body
  | [] => rfl
  | s :: rest => by rw [relocateBlock, s.relocate_id, relocateBlock_id rest]

end

/-! ## What a tree with mapped places was -/

section
variable {f} {e : Expr}

theorem Expr.variable_of_relocate {target : Ident}
    (h : e.relocate f = (Expr.variable target).relocate f) :
    ∃ name, e = .variable name ∧ name.relocate f = target.relocate f := by
  cases e <;> simp [relocate] at h
  exact ⟨_, rfl, h⟩

theorem Expr.member_of_relocate {object : Expr} {name : Ident}
    (h : e.relocate f = (Expr.member object name).relocate f) :
    ∃ object' name', e = .member object' name' ∧ object'.relocate f = object.relocate f ∧
      name'.relocate f = name.relocate f := by
  cases e <;> simp [relocate] at h
  exact ⟨_, _, rfl, h⟩

end

end ScriptEngine
