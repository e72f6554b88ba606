/-
An outline tells the script.

A script makes a forest whose headings tell the kinds and the details of its nodes
(`blockOutline`).  What the nodes are is read off the headings, and which part of a node another
one is from its position, by recursion on the script.  So two scripts with one outline differ in
nothing but their places (`Script.dump_iff`).
-/
import ScriptEngine.Proofs.Decimal.Text
import ScriptEngine.Proofs.Parser.Identifiers
import ScriptEngine.Proofs.Printing.Quoted
import ScriptEngine.Proofs.Syntax.Forest
import ScriptEngine.Proofs.Syntax.Places

namespace ScriptEngine

open Outline

/-! ## The forest of a script -/

mutual

/-- The forest with the nodes of an expression before it.  The forest is handed down, so that none is
ever appended to another one, and the first heading is that of the expression. -/
def Expr.outline : Expr → Forest → Forest
  | .number _ value, rest => .cons ⟨.number, some (Decimal.text value)⟩ .nil rest
  | .bool _ value, rest => .cons ⟨.bool, some (boolText value)⟩ .nil rest
  | .string _ value, rest => .cons ⟨.string, some (Text.quote value)⟩ .nil rest
  | .variable name, rest => .cons ⟨.identifier, some name.name⟩ .nil rest
  | .binary op left right, rest =>
    .cons ⟨.binary, some op.text⟩ (left.outline (right.outline .nil)) rest
  | .unary _ op operand, rest => .cons ⟨.unary, some op.text⟩ (operand.outline .nil) rest
  | .member object name, rest => .cons ⟨.memberGet, some name.name⟩ (object.outline .nil) rest
  | .method object name args, rest =>
    .cons ⟨.methodCall, some name.name⟩ (object.outline (argumentOutlines args)) rest
  | .call callee args, rest => .cons ⟨.functionCall, some callee.name⟩ (argumentOutlines args) rest
  | .construct callee args, rest =>
    .cons ⟨.constructorCall, some callee.name⟩ (argumentOutlines args) rest

def argumentOutlines : List Expr → Forest
  | [] => .nil
  | e :: rest => e.outline (argumentOutlines rest)

end

mutual

/-- The forest with the nodes of a statement before it. -/
def Stmt.outline : Stmt → Forest → Forest
  | .assign target value, rest =>
    .cons ⟨.assignment, some target.name⟩ (value.outline .nil) rest
  | .branch _ condition thenBody none, rest =>
    .cons ⟨.if_, none⟩
      (.cons ⟨.condition, none⟩ (condition.outline .nil)
        (.cons ⟨.then_, none⟩ (blockOutline thenBody) .nil)) rest
  | .branch _ condition thenBody (some elseBody), rest =>
    .cons ⟨.if_, none⟩
      (.cons ⟨.condition, none⟩ (condition.outline .nil)
        (.cons ⟨.then_, none⟩ (blockOutline thenBody)
          (.cons ⟨.else_, none⟩ (blockOutline elseBody) .nil))) rest
  | .loop _ condition body, rest =>
    .cons ⟨.while_, none⟩
      (.cons ⟨.condition, none⟩ (condition.outline .nil)
        (.cons ⟨.body, none⟩ (blockOutline body) .nil)) rest
  | .expr e, rest => .cons ⟨.expression, none⟩ (e.outline .nil) rest
  | .setMember object name value, rest =>
    .cons ⟨.expression, none⟩
      (.cons ⟨.memberSet, some name.name⟩ (object.outline (value.outline .nil)) .nil) rest
  | .print _ newline args, rest =>
    .cons ⟨.print, some (printFunction newline)⟩ (argumentOutlines args) rest

def blockOutline : List Stmt → Forest
  | [] => .nil
  | s :: rest => s.outline (blockOutline rest)

end

/-! ## Lines of a script -/

mutual

theorem Expr.lines_outline : ∀ (e : Expr) (rest : Forest) (depth : Nat),
    (e.outline rest).lines depth = ofExpr depth e ++ rest.lines depth
  | .number .., _, _ | .bool .., _, _ | .string .., _, _ | .variable _, _, _ => rfl
  | .binary _ left right, rest, depth => by
    rw [Expr.outline, Forest.lines, left.lines_outline, right.lines_outline, Forest.lines,
      List.append_nil, ofExpr]
    rfl
  | .unary _ _ e, rest, depth => by
    rw [Expr.outline, Forest.lines, e.lines_outline, Forest.lines, List.append_nil, ofExpr]
    rfl
  | .member object _, rest, depth => by
    rw [Expr.outline, Forest.lines, object.lines_outline, Forest.lines, List.append_nil, ofExpr]
    rfl
  | .method object _ args, rest, depth => by
    rw [Expr.outline, Forest.lines, object.lines_outline, lines_argumentOutlines args, ofExpr]
    rfl
  | .call _ args, rest, depth => by
    rw [Expr.outline, Forest.lines, lines_argumentOutlines args, ofExpr]
    rfl
  | .construct _ args, rest, depth => by
    rw [Expr.outline, Forest.lines, lines_argumentOutlines args, ofExpr]
    rfl

theorem lines_argumentOutlines : ∀ (args : List Expr) (depth : Nat),
    (argumentOutlines args).lines depth = ofExprs depth args
  | [], _ => rfl
  | e :: rest, depth => by
    rw [argumentOutlines, e.lines_outline, lines_argumentOutlines rest, ofExprs]

end

mutual

theorem Stmt.lines_outline : ∀ (s : Stmt) (rest : Forest) (depth : Nat),
    (s.outline rest).lines depth = ofStmt depth s ++ rest.lines depth
  | .assign _ value, rest, depth => by
    rw [Stmt.outline, Forest.lines, value.lines_outline, Forest.lines, List.append_nil, ofStmt]
    rfl
  | .branch _ condition thenBody none, rest, depth => by
    simp only [Stmt.outline, Forest.lines, condition.lines_outline, lines_blockOutline thenBody,
      List.append_nil, ofStmt]
    rfl
  | .branch _ condition thenBody (some elseBody), rest, depth => by
    simp only [Stmt.outline, Forest.lines, condition.lines_outline, lines_blockOutline thenBody,
      lines_blockOutline elseBody, List.append_nil, ofStmt, List.cons_append, List.append_assoc]
    rfl
  | .loop _ condition body, rest, depth => by
    simp only [Stmt.outline, Forest.lines, condition.lines_outline, lines_blockOutline body,
      List.append_nil, ofStmt]
    rfl
  | .expr e, rest, depth => by
    rw [Stmt.outline, Forest.lines, e.lines_outline, Forest.lines, List.append_nil, ofStmt]
    rfl
  | .setMember object _ value, rest, depth => by
    simp only [Stmt.outline, Forest.lines, object.lines_outline, value.lines_outline,
      List.append_nil, ofStmt]
    rfl
  | .print _ _ args, rest, depth => by
    rw [Stmt.outline, Forest.lines, lines_argumentOutlines args, ofStmt]
    rfl

theorem lines_blockOutline : ∀ (body : List Stmt) (depth : Nat),
    (blockOutline body).lines depth = ofStmts depth body
  | [], _ => rfl
  | s :: rest, depth => by
    rw [blockOutline, s.lines_outline, lines_blockOutline rest, ofStmts]

end

/-! ## What the forest shows -/

theorem BinaryOp.text_injective {op op' : BinaryOp} : op.text = op'.text → op = op' :=
  injective_of_find? [.or, .and, .equal, .notEqual, .less, .lessEqual, .greater, .greaterEqual, .add,
    .sub, .mul, .div] fun op => by cases op <;> decide

theorem UnaryOp.text_injective {op op' : UnaryOp} : op.text = op'.text → op = op' :=
  injective_of_find? [.neg, .not] fun op => by cases op <;> decide

theorem Outline.boolText_injective : ∀ {b b' : Bool}, boolText b = boolText b' → b = b' := by
  decide

theorem printFunction_injective :
    ∀ {newline newline' : Bool}, printFunction newline = printFunction newline' →
      newline = newline' := by
  decide

theorem Ident.same_of_name {name name' : Ident} (h : name.name = name'.name) :
    name.relocate nowhere = name'.relocate nowhere := congrArg (Ident.mk · .start) h

theorem Expr.outline_ne_nil (e : Expr) (rest : Forest) : e.outline rest ≠ .nil := by
  cases e <;> nofun

theorem Stmt.outline_ne_nil (s : Stmt) (rest : Forest) : s.outline rest ≠ .nil := by
  cases s with
  | branch _ _ _ elseBody => cases elseBody <;> nofun
  | _ => nofun

/-- An assignment to a member is no expression. -/
theorem Expr.outline_ne_memberSet (e : Expr) {rest parts behind : Forest} {d : Option String} :
    e.outline rest ≠ .cons ⟨.memberSet, d⟩ parts behind := by
  intro h
  cases e <;> cases (Forest.cons_eq h).1

mutual

/-- Expressions with the same nodes differ in their places only. -/
theorem Expr.same_of_outline : ∀ (e e' : Expr) {rest rest' : Forest},
    e.outline rest = e'.outline rest' →
      e.relocate nowhere = e'.relocate nowhere ∧ rest = rest'
  | .number _ x, e', rest, rest', h => by
    cases e' with
    | number _ x' =>
      obtain ⟨-, htext, -, hrest⟩ := Forest.cons_eq h
      obtain rfl := Decimal.text_injective (Option.some.inj htext)
      exact ⟨rfl, hrest⟩
    | _ => cases (Forest.cons_eq h).1
  | .bool _ b, e', rest, rest', h => by
    cases e' with
    | bool _ b' =>
      obtain ⟨-, htext, -, hrest⟩ := Forest.cons_eq h
      obtain rfl := boolText_injective (Option.some.inj htext)
      exact ⟨rfl, hrest⟩
    | _ => cases (Forest.cons_eq h).1
  | .string _ text, e', rest, rest', h => by
    cases e' with
    | string _ text' =>
      obtain ⟨-, htext, -, hrest⟩ := Forest.cons_eq h
      obtain rfl := Text.quote_injective (Option.some.inj htext)
      exact ⟨rfl, hrest⟩
    | _ => cases (Forest.cons_eq h).1
  | .variable name, e', rest, rest', h => by
    cases e' with
    | «variable» name' =>
      obtain ⟨-, hname, -, hrest⟩ := Forest.cons_eq h
      rw [Expr.relocate, Expr.relocate, Ident.same_of_name (Option.some.inj hname)]
      exact ⟨rfl, hrest⟩
    | _ => cases (Forest.cons_eq h).1
  | .binary op left right, e', rest, rest', h => by
    cases e' with
    | binary op' left' right' =>
      obtain ⟨-, htext, hparts, hrest⟩ := Forest.cons_eq h
      obtain rfl := BinaryOp.text_injective (Option.some.inj htext)
      obtain ⟨hleft, hright⟩ := left.same_of_outline left' hparts
      rw [Expr.relocate, Expr.relocate, hleft, (right.same_of_outline right' hright).1]
      exact ⟨rfl, hrest⟩
    | _ => cases (Forest.cons_eq h).1
  | .unary _ op e, e', rest, rest', h => by
    cases e' with
    | unary _ op' operand =>
      obtain ⟨-, htext, hparts, hrest⟩ := Forest.cons_eq h
      obtain rfl := UnaryOp.text_injective (Option.some.inj htext)
      rw [Expr.relocate, Expr.relocate, (e.same_of_outline operand hparts).1]
      exact ⟨rfl, hrest⟩
    | _ => cases (Forest.cons_eq h).1
  | .member object name, e', rest, rest', h => by
    cases e' with
    | member object' name' =>
      obtain ⟨-, hname, hparts, hrest⟩ := Forest.cons_eq h
      rw [Expr.relocate, Expr.relocate, (object.same_of_outline object' hparts).1,
        Ident.same_of_name (Option.some.inj hname)]
      exact ⟨rfl, hrest⟩
    | _ => cases (Forest.cons_eq h).1
  | .method object name args, e', rest, rest', h => by
    cases e' with
    | method object' name' args' =>
      obtain ⟨-, hname, hparts, hrest⟩ := Forest.cons_eq h
      obtain ⟨hobject, hargs⟩ := object.same_of_outline object' hparts
      rw [Expr.relocate, Expr.relocate, hobject, Ident.same_of_name (Option.some.inj hname),
        same_of_argumentOutlines args args' hargs]
      exact ⟨rfl, hrest⟩
    | _ => cases (Forest.cons_eq h).1
  | .call callee args, e', rest, rest', h => by
    cases e' with
    | call callee' args' =>
      obtain ⟨-, hname, hparts, hrest⟩ := Forest.cons_eq h
      rw [Expr.relocate, Expr.relocate, Ident.same_of_name (Option.some.inj hname),
        same_of_argumentOutlines args args' hparts]
      exact ⟨rfl, hrest⟩
    | _ => cases (Forest.cons_eq h).1
  | .construct callee args, e', rest, rest', h => by
    cases e' with
    | construct callee' args' =>
      obtain ⟨-, hname, hparts, hrest⟩ := Forest.cons_eq h
      rw [Expr.relocate, Expr.relocate, Ident.same_of_name (Option.some.inj hname),
        same_of_argumentOutlines args args' hparts]
      exact ⟨rfl, hrest⟩
    | _ => cases (Forest.cons_eq h).1

theorem same_of_argumentOutlines : ∀ args args' : List Expr,
    argumentOutlines args = argumentOutlines args' →
      relocateArguments nowhere args = relocateArguments nowhere args'
  | [], [], _ => rfl
  | [], e :: _, h => absurd h.symm (e.outline_ne_nil _)
  | e :: _, [], h => absurd h (e.outline_ne_nil _)
  | e :: rest, e' :: rest', h => by
    obtain ⟨he, hrest⟩ := e.same_of_outline e' h
    rw [relocateArguments, relocateArguments, he, same_of_argumentOutlines rest rest' hrest]

end

mutual

/-- Statements with the same nodes differ in their places only. -/
theorem Stmt.same_of_outline : ∀ (s s' : Stmt) {rest rest' : Forest},
    s.outline rest = s'.outline rest' →
      s.relocate nowhere = s'.relocate nowhere ∧ rest = rest'
  | .assign target value, s', rest, rest', h => by
    cases s' with
    | assign target' value' =>
      obtain ⟨-, hname, hparts, hrest⟩ := Forest.cons_eq h
      rw [Stmt.relocate, Stmt.relocate, Ident.same_of_name (Option.some.inj hname),
        (value.same_of_outline value' hparts).1]
      exact ⟨rfl, hrest⟩
    | branch _ _ _ elseBody => cases elseBody <;> cases (Forest.cons_eq h).1
    | _ => cases (Forest.cons_eq h).1
  | .branch _ condition thenBody none, s', rest, rest', h => by
    cases s' with
    | branch _ condition' thenBody' elseBody' =>
      cases elseBody' with
      | none =>
        obtain ⟨-, -, hparts, hrest⟩ := Forest.cons_eq h
        obtain ⟨-, -, hcondition, hparts⟩ := Forest.cons_eq hparts
        obtain ⟨-, -, hthen, -⟩ := Forest.cons_eq hparts
        rw [Stmt.relocate, Stmt.relocate, (condition.same_of_outline condition' hcondition).1,
          same_of_blockOutline thenBody thenBody' hthen]
        exact ⟨rfl, hrest⟩
      | some elseBody' =>
        -- The heading of the alternative has no counterpart.
        obtain ⟨-, -, hparts, -⟩ := Forest.cons_eq h
        obtain ⟨-, -, -, hparts⟩ := Forest.cons_eq hparts
        cases (Forest.cons_eq hparts).2.2.2
    | _ => cases (Forest.cons_eq h).1
  | .branch _ condition thenBody (some elseBody), s', rest, rest', h => by
    cases s' with
    | branch _ condition' thenBody' elseBody' =>
      cases elseBody' with
      | none =>
        obtain ⟨-, -, hparts, -⟩ := Forest.cons_eq h
        obtain ⟨-, -, -, hparts⟩ := Forest.cons_eq hparts
        cases (Forest.cons_eq hparts).2.2.2
      | some elseBody' =>
        obtain ⟨-, -, hparts, hrest⟩ := Forest.cons_eq h
        obtain ⟨-, -, hcondition, hparts⟩ := Forest.cons_eq hparts
        obtain ⟨-, -, hthen, hparts⟩ := Forest.cons_eq hparts
        obtain ⟨-, -, helse, -⟩ := Forest.cons_eq hparts
        rw [Stmt.relocate, Stmt.relocate, (condition.same_of_outline condition' hcondition).1,
          same_of_blockOutline thenBody thenBody' hthen,
          same_of_blockOutline elseBody elseBody' helse]
        exact ⟨rfl, hrest⟩
    | _ => cases (Forest.cons_eq h).1
  | .loop _ condition body, s', rest, rest', h => by
    cases s' with
    | loop _ condition' body' =>
      obtain ⟨-, -, hparts, hrest⟩ := Forest.cons_eq h
      obtain ⟨-, -, hcondition, hparts⟩ := Forest.cons_eq hparts
      obtain ⟨-, -, hbody, -⟩ := Forest.cons_eq hparts
      rw [Stmt.relocate, Stmt.relocate, (condition.same_of_outline condition' hcondition).1,
        same_of_blockOutline body body' hbody]
      exact ⟨rfl, hrest⟩
    | branch _ _ _ elseBody => cases elseBody <;> cases (Forest.cons_eq h).1
    | _ => cases (Forest.cons_eq h).1
  | .expr e, s', rest, rest', h => by
    cases s' with
    | expr e' =>
      obtain ⟨-, -, hparts, hrest⟩ := Forest.cons_eq h
      rw [Stmt.relocate, Stmt.relocate, (e.same_of_outline e' hparts).1]
      exact ⟨rfl, hrest⟩
    | setMember object name value =>
      obtain ⟨-, -, hparts, -⟩ := Forest.cons_eq h
      exact absurd hparts (e.outline_ne_memberSet)
    | branch _ _ _ elseBody => cases elseBody <;> cases (Forest.cons_eq h).1
    | _ => cases (Forest.cons_eq h).1
  | .setMember object name value, s', rest, rest', h => by
    cases s' with
    | setMember object' name' value' =>
      obtain ⟨-, -, hparts, hrest⟩ := Forest.cons_eq h
      obtain ⟨-, hname, hparts, -⟩ := Forest.cons_eq hparts
      obtain ⟨hobject, hvalue⟩ := object.same_of_outline object' hparts
      rw [Stmt.relocate, Stmt.relocate, hobject, Ident.same_of_name (Option.some.inj hname),
        (value.same_of_outline value' hvalue).1]
      exact ⟨rfl, hrest⟩
    | expr e' =>
      obtain ⟨-, -, hparts, -⟩ := Forest.cons_eq h
      exact absurd hparts.symm (e'.outline_ne_memberSet)
    | branch _ _ _ elseBody => cases elseBody <;> cases (Forest.cons_eq h).1
    | _ => cases (Forest.cons_eq h).1
  | .print _ newline args, s', rest, rest', h => by
    cases s' with
    | print _ newline' args' =>
      obtain ⟨-, htext, hparts, hrest⟩ := Forest.cons_eq h
      obtain rfl := printFunction_injective (Option.some.inj htext)
      rw [Stmt.relocate, Stmt.relocate, same_of_argumentOutlines args args' hparts]
      exact ⟨rfl, hrest⟩
    | branch _ _ _ elseBody => cases elseBody <;> cases (Forest.cons_eq h).1
    | _ => cases (Forest.cons_eq h).1

theorem same_of_blockOutline : ∀ body body' : List Stmt,
    blockOutline body = blockOutline body' →
      relocateBlock nowhere body = relocateBlock nowhere body'
  | [], [], _ => rfl
  | [], s :: _, h => absurd h.symm (s.outline_ne_nil _)
  | s :: _, [], h => absurd h (s.outline_ne_nil _)
  | s :: rest, s' :: rest', h => by
    obtain ⟨hs, hrest⟩ := s.same_of_outline s' h
    rw [relocateBlock, relocateBlock, hs, same_of_blockOutline rest rest' hrest]

end

/-! ## Places do not show -/

section
variable (f : Location → Location)

mutual

theorem Expr.outline_relocate : ∀ (e : Expr) (rest : Forest),
    (e.relocate f).outline rest = e.outline rest
  | .number .., _ | .bool .., _ | .string .., _ | .variable _, _ => rfl
  | .binary _ left right, _ => by
    rw [Expr.relocate, Expr.outline, Expr.outline, left.outline_relocate, right.outline_relocate]
  | .unary _ _ e, _ => by
    rw [Expr.relocate, Expr.outline, Expr.outline, e.outline_relocate]
  | .member object _, _ => by
    rw [Expr.relocate, Expr.outline, Expr.outline, object.outline_relocate, Ident.relocate]
  | .method object _ args, _ => by
    rw [Expr.relocate, Expr.outline, Expr.outline, object.outline_relocate, Ident.relocate,
      argumentOutlines_relocate args]
  | .call _ args, _ => by
    rw [Expr.relocate, Expr.outline, Expr.outline, Ident.relocate, argumentOutlines_relocate args]
  | .construct _ args, _ => by
    rw [Expr.relocate, Expr.outline, Expr.outline, Ident.relocate, argumentOutlines_relocate args]

theorem argumentOutlines_relocate : ∀ args : List Expr,
    argumentOutlines (relocateArguments f args) = argumentOutlines args
  | [] => rfl
  | e :: rest => by
    rw [relocateArguments, argumentOutlines, argumentOutlines, e.outline_relocate,
      argumentOutlines_relocate rest]

end

mutual

theorem Stmt.outline_relocate : ∀ (s : Stmt) (rest : Forest),
    (s.relocate f).outline rest = s.outline rest
  | .assign _ value, _ => by
    rw [Stmt.relocate, Stmt.outline, Stmt.outline, value.outline_relocate, Ident.relocate]
  | .branch _ condition thenBody none, _ => by
    rw [Stmt.relocate, Stmt.outline, Stmt.outline, condition.outline_relocate,
      blockOutline_relocate thenBody]
  | .branch _ condition thenBody (some elseBody), _ => by
    rw [Stmt.relocate, Stmt.outline, Stmt.outline, condition.outline_relocate,
      blockOutline_relocate thenBody, blockOutline_relocate elseBody]
  | .loop _ condition body, _ => by
    rw [Stmt.relocate, Stmt.outline, Stmt.outline, condition.outline_relocate,
      blockOutline_relocate body]
  | .expr e, _ => by
    rw [Stmt.relocate, Stmt.outline, Stmt.outline, e.outline_relocate]
  | .setMember object _ value, _ => by
    rw [Stmt.relocate, Stmt.outline, Stmt.outline, object.outline_relocate, value.outline_relocate,
      Ident.relocate]
  | .print _ _ args, _ => by
    rw [Stmt.relocate, Stmt.outline, Stmt.outline, argumentOutlines_relocate f args]

theorem blockOutline_relocate : ∀ body : List Stmt,
    blockOutline (relocateBlock f body) = blockOutline body
  | [] => rfl
  | s :: rest => by
    rw [relocateBlock, blockOutline, blockOutline, s.outline_relocate, blockOutline_relocate rest]

end

end

/-- Two scripts make the same forest if and only if they differ in their places only. -/
theorem blockOutline_eq_iff {body other : List Stmt} :
    blockOutline body = blockOutline other ↔ SameButPlaces body other := by
  constructor
  case mp => exact same_of_blockOutline body other
  case mpr =>
    intro h
    rw [← blockOutline_relocate nowhere body, show relocateBlock nowhere body = _ from h,
      blockOutline_relocate]

/-! ## Details on one line -/

/-- The names are each on one line. -/
def OneLineNames (names : List String) : Prop := ∀ name ∈ names, '\n' ∉ name.toList

section
variable {name : String} {names more : List String}

theorem OneLineNames.cons_iff :
    OneLineNames (name :: names) ↔ '\n' ∉ name.toList ∧ OneLineNames names := List.forall_mem_cons

theorem OneLineNames.append_iff :
    OneLineNames (names ++ more) ↔ OneLineNames names ∧ OneLineNames more := List.forall_mem_append

/-- A name of a script is on one line. -/
theorem Printing.IsName.newline_notMem (h : Printing.IsName name) : '\n' ∉ name.toList := by
  obtain ⟨⟨c, cs, hname, hstart, hparts⟩, -⟩ := h
  rw [hname, List.mem_cons]
  rintro (rfl | hmem)
  · cases hstart
  · cases hparts _ hmem

end

mutual

theorem Expr.outline_oneLine : ∀ (e : Expr) {rest : Forest}, OneLineNames e.names → rest.OneLine →
    (e.outline rest).OneLine
  | .number _ x, _, _, hrest => ⟨.detailed (Decimal.newline_notMem_text x), trivial, hrest⟩
  | .bool _ b, _, _, hrest => ⟨.detailed (by cases b <;> decide), trivial, hrest⟩
  | .string _ text, _, _, hrest => ⟨.detailed (Text.newline_notMem_quote text), trivial, hrest⟩
  | .variable _, _, hnames, hrest =>
    ⟨.detailed (OneLineNames.cons_iff.mp hnames).1, trivial, hrest⟩
  | .binary op left right, _, hnames, hrest => by
    obtain ⟨hleft, hright⟩ := OneLineNames.append_iff.mp hnames
    exact ⟨.detailed (by cases op <;> decide),
      left.outline_oneLine hleft (right.outline_oneLine hright trivial), hrest⟩
  | .unary _ op e, _, hnames, hrest =>
    ⟨.detailed (by cases op <;> decide), e.outline_oneLine hnames trivial, hrest⟩
  | .member object _, _, hnames, hrest => by
    obtain ⟨hobject, hname⟩ := OneLineNames.append_iff.mp hnames
    exact ⟨.detailed (OneLineNames.cons_iff.mp hname).1,
      object.outline_oneLine hobject trivial, hrest⟩
  | .method object _ args, _, hnames, hrest => by
    obtain ⟨hobject, hnames⟩ := OneLineNames.append_iff.mp hnames
    obtain ⟨hname, hargs⟩ := OneLineNames.cons_iff.mp hnames
    exact ⟨.detailed hname,
      object.outline_oneLine hobject (argumentOutlines_oneLine args hargs), hrest⟩
  | .call _ args, _, hnames, hrest => by
    obtain ⟨hname, hargs⟩ := OneLineNames.cons_iff.mp hnames
    exact ⟨.detailed hname, argumentOutlines_oneLine args hargs, hrest⟩
  | .construct _ args, _, hnames, hrest => by
    obtain ⟨hname, hargs⟩ := OneLineNames.cons_iff.mp hnames
    exact ⟨.detailed hname, argumentOutlines_oneLine args hargs, hrest⟩

theorem argumentOutlines_oneLine : ∀ args : List Expr, OneLineNames (argumentNames args) →
    (argumentOutlines args).OneLine
  | [], _ => trivial
  | e :: rest, hnames => by
    obtain ⟨he, hrest⟩ := OneLineNames.append_iff.mp hnames
    exact e.outline_oneLine he (argumentOutlines_oneLine rest hrest)

end

mutual

theorem Stmt.outline_oneLine : ∀ (s : Stmt) {rest : Forest}, OneLineNames s.names → rest.OneLine →
    (s.outline rest).OneLine
  | .assign _ value, _, hnames, hrest => by
    obtain ⟨hname, hvalue⟩ := OneLineNames.cons_iff.mp hnames
    exact ⟨.detailed hname, value.outline_oneLine hvalue trivial, hrest⟩
  | .branch _ condition thenBody none, _, hnames, hrest => by
    obtain ⟨hcondition, hthen⟩ := OneLineNames.append_iff.mp hnames
    exact ⟨.bare _, ⟨.bare _, condition.outline_oneLine hcondition trivial,
      .bare _, blockOutline_oneLine thenBody hthen, trivial⟩, hrest⟩
  | .branch _ condition thenBody (some elseBody), _, hnames, hrest => by
    obtain ⟨hcondition, hbodies⟩ := OneLineNames.append_iff.mp hnames
    obtain ⟨hthen, helse⟩ := OneLineNames.append_iff.mp hbodies
    exact ⟨.bare _, ⟨.bare _, condition.outline_oneLine hcondition trivial,
      .bare _, blockOutline_oneLine thenBody hthen,
      .bare _, blockOutline_oneLine elseBody helse, trivial⟩, hrest⟩
  | .loop _ condition body, _, hnames, hrest => by
    obtain ⟨hcondition, hbody⟩ := OneLineNames.append_iff.mp hnames
    exact ⟨.bare _, ⟨.bare _, condition.outline_oneLine hcondition trivial,
      .bare _, blockOutline_oneLine body hbody, trivial⟩, hrest⟩
  | .expr e, _, hnames, hrest => ⟨.bare _, e.outline_oneLine hnames trivial, hrest⟩
  | .setMember object _ value, _, hnames, hrest => by
    obtain ⟨hobject, hnames⟩ := OneLineNames.append_iff.mp hnames
    obtain ⟨hname, hvalue⟩ := OneLineNames.cons_iff.mp hnames
    exact ⟨.bare _, ⟨.detailed hname,
      object.outline_oneLine hobject (value.outline_oneLine hvalue trivial), trivial⟩, hrest⟩
  | .print _ newline args, _, hnames, hrest =>
    ⟨.detailed (by cases newline <;> decide), argumentOutlines_oneLine args hnames, hrest⟩

theorem blockOutline_oneLine : ∀ body : List Stmt, OneLineNames (blockNames body) →
    (blockOutline body).OneLine
  | [], _ => trivial
  | s :: rest, hnames => by
    obtain ⟨hs, hrest⟩ := OneLineNames.append_iff.mp hnames
    exact s.outline_oneLine hs (blockOutline_oneLine rest hrest)

end

/-! ## Outlines of scripts -/

namespace Script

/-- Scripts with their names on one line have one outline if and only if they differ in their
places only. -/
theorem dump_iff {s t : Script} (hs : OneLineNames (blockNames s.statements))
    (ht : OneLineNames (blockNames t.statements)) :
    s.dump = t.dump ↔ SameButPlaces s.statements t.statements := by
  rw [← blockOutline_eq_iff, dump, dump, ← lines_blockOutline, ← lines_blockOutline]
  constructor
  case mp => exact Forest.eq_of_text (blockOutline_oneLine _ hs) (blockOutline_oneLine _ ht)
  case mpr => exact fun h => by rw [h]

theorem parse_oneLine (text : String) :
    OneLineNames (blockNames (Script.parse text).1.statements) :=
  fun name hname => (parse_names text name hname).newline_notMem

/-- The outlines of two parsed texts are equal if and only if the scripts differ in their places
only. -/
theorem parse_dump_iff (text other : String) :
    (Script.parse text).1.dump = (Script.parse other).1.dump ↔
      SameButPlaces (Script.parse text).1.statements (Script.parse other).1.statements :=
  dump_iff (parse_oneLine text) (parse_oneLine other)

/-- An empty alternative shows. -/
example : (Script.parse "if (a)\nelse\nend").1.dump ≠ (Script.parse "if (a)\nend").1.dump := by
  decide

end Script
end ScriptEngine
