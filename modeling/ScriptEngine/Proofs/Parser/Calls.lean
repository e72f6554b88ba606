/-
The functions of the grammar as a bundle.

The functions of the grammar call each other, and each call gets one step less.
`Calls` bundles them, and each `…Body` is the text of one of them over such a
bundle, so that a fact about one function is proved from facts about its callees
and not about step counts.  `callsIn n` are the functions with `n` steps left.
With no step they give up (`callsIn_zero`), and else they are the bodies over the
bundle with one step less (`callsIn_succ`), so a fact about them all is an
induction with a case for each body.

The first such fact is that every function is orderly (`callsIn_tidy`): it only
moves over the tokens, and all but an empty chain and an empty block consume
one.
-/
import ScriptEngine.Proofs.Parser.Moves

namespace ScriptEngine
namespace Parser

/-- The functions of the grammar. -/
structure Calls where
  expr : Nat → Parse Expr
  chain : Nat → Expr → Parse Expr
  operand : Parse Expr
  arguments : Parse (List Expr)
  items : Parse (List Expr)
  statement : Parse Stmt
  block : Token → (mayElse afterStatement : Bool) → Parse (List Stmt)

namespace Calls

variable (c : Calls)

def exprBody (power : Nat) : Parse Expr := do
  let left ← c.operand
  c.chain power left

def chainBody (power : Nat) (left : Expr) : Parse Expr := do
  let p ← get
  if p.check .dot then
    if memberPower < power then pure left
    else
      let _ ← take
      let name ← memberName
      if (← get).check .leftParen then
        let args ← c.arguments
        c.chain power (.method left name args)
      else c.chain power (.member left name)
  else
    match BinaryOp.ofToken? p.current.kind with
    | none => pure left
    | some op =>
      if op = .sub ∧ p.atLineStart then pure left
      else if op.leftPower < power then pure left
      else
        let _ ← take
        let right ← c.expr op.rightPower
        c.chain power (.binary op left right)

def operandBody : Parse Expr := do
  let p ← get
  let t := p.current
  match t.kind with
  | .number =>
    let _ ← take
    match Decimal.read? t.lexeme with
    | some value => pure (.number t.location value)
    | none => throw ⟨.malformedNumber t.lexeme, t.location⟩
  | .string => leaf (.string t.location t.lexeme)
  | .true_ => leaf (.bool t.location true)
  | .false_ => leaf (.bool t.location false)
  | .identifier =>
    let _ ← take
    let next ← get
    if next.check .leftParen ∧ ¬ next.atLineStart then
      let args ← c.arguments
      pure (mkCall ⟨t.lexeme, t.location⟩ args)
    else pure (.variable ⟨t.lexeme, t.location⟩)
  | .leftParen =>
    let _ ← take
    enterParens
    let inner ← c.expr 0
    let _ ← expect .rightParen
    leaveParens
    pure inner
  | .minus =>
    let _ ← take
    let operand ← c.expr UnaryOp.power
    pure (.unary t.location .neg operand)
  | .not_ =>
    let _ ← take
    let operand ← c.expr UnaryOp.power
    pure (.unary t.location .not operand)
  | .eof => throw ⟨.endBeforeExpression, t.location⟩
  | _ => failHere .expectedExpression

def argumentsBody : Parse (List Expr) := do
  let _ ← expect .leftParen
  match ← eat .rightParen with
  | some _ => pure []
  | none =>
    enterParens
    let args ← c.items
    leaveParens
    pure args

def itemsBody : Parse (List Expr) := do
  let first ← c.expr 0
  match ← eat .comma with
  | some _ =>
    let more ← c.items
    pure (first :: more)
  | none =>
    match ← eat .rightParen with
    | some _ => pure [first]
    | none => failHere (.expectedToken "',' or ')'")

def condition : Parse Expr := do
  let _ ← expect .leftParen
  let condition ← c.expr 0
  let _ ← expect .rightParen
  pure condition

def simple : Parse Stmt := do
  let left ← c.expr 0
  match ← eat .equal with
  | none => pure (.expr left)
  | some _ =>
    let value ← c.expr 0
    match left with
    | .variable target => pure (.assign target value)
    | .member object name => pure (.setMember object name value)
    | _ => throw ⟨.invalidTarget, left.location⟩

def alternative (opener : Token) : Parse (Option (List Stmt)) := do
  match ← eat .else_ with
  | some _ =>
    let body ← c.block opener false false
    pure (some body)
  | none => pure none

def branchBody (t : Token) : Parse Stmt := do
  let _ ← take
  openBlock
  let condition ← c.condition
  let thenBody ← c.block t true false
  let elseBody ← c.alternative t
  let _ ← expect .end_
  closeBlock
  warnEmpty t "if" (thenBody.isEmpty && isEmptyBlock elseBody)
  pure (.branch t.location condition thenBody elseBody)

def loopBody (t : Token) : Parse Stmt := do
  let _ ← take
  openBlock
  let condition ← c.condition
  let body ← c.block t false false
  let _ ← expect .end_
  closeBlock
  warnEmpty t "while" body.isEmpty
  pure (.loop t.location condition body)

def printBody (t : Token) (newline : Bool) : Parse Stmt := do
  let _ ← take
  let args ← c.arguments
  pure (.print t.location newline args)

def statementBody : Parse Stmt := do
  let p ← get
  let t := p.current
  match t.kind with
  | .if_ => c.branchBody t
  | .while_ => c.loopBody t
  | .print => c.printBody t false
  | .println => c.printBody t true
  | .end_ | .else_ => throw ⟨.unexpectedToken t.kind, t.location⟩
  | _ => c.simple

def blockBody (opener : Token) (mayElse afterStatement : Bool) : Parse (List Stmt) := do
  let p ← get
  if p.check .end_ ∨ (mayElse ∧ p.check .else_) then pure []
  else if p.check .eof then
    throw ⟨.unterminatedBlock opener.lexeme opener.location, p.current.location⟩
  else if p.check .semicolon then
    modify (separator afterStatement)
    c.block opener mayElse false
  else
    let first ← c.statement
    let more ← c.block opener mayElse true
    pure (first :: more)

theorem alternative_bind {β : Type} (opener : Token) (f : Option (List Stmt) → Parse β) :
    (c.alternative opener >>= f) = (do
      match ← eat .else_ with
      | some _ =>
        let body ← c.block opener false false
        f (some body)
      | none => f none) := by
  funext p
  simp only [alternative, bind_apply]
  cases eat TokenKind.else_ p with
  | error e q => rfl
  | ok found q =>
    cases found with
    | none => rfl
    | some t =>
      simp only [bind_apply]
      cases c.block opener false false q <;> rfl

end Calls

/-- The functions of the grammar with a number of steps left. -/
def callsIn (n : Nat) : Calls :=
  ⟨exprIn n, chainIn n, operandIn n, argumentsIn n, itemsIn n, statementIn n, blockIn n⟩

section
variable (n power : Nat) (left : Expr) (opener : Token) (mayElse afterStatement : Bool)

theorem exprIn_succ : exprIn (n + 1) power = (callsIn n).exprBody power := by
  rw [exprIn]; rfl

theorem chainIn_succ : chainIn (n + 1) power left = (callsIn n).chainBody power left := by
  rw [chainIn]; rfl

theorem operandIn_succ : operandIn (n + 1) = (callsIn n).operandBody := by
  rw [operandIn]; rfl

theorem argumentsIn_succ : argumentsIn (n + 1) = (callsIn n).argumentsBody := by
  rw [argumentsIn]; rfl

theorem itemsIn_succ : itemsIn (n + 1) = (callsIn n).itemsBody := by
  rw [itemsIn]; rfl

theorem statementIn_succ : statementIn (n + 1) = (callsIn n).statementBody := by
  rw [statementIn]
  simp only [Calls.statementBody, Calls.branchBody, Calls.alternative_bind]
  rfl

theorem blockIn_succ : blockIn (n + 1) opener mayElse afterStatement =
    (callsIn n).blockBody opener mayElse afterStatement := by
  rw [blockIn]; rfl

end

/-- The bundle of the bodies over a bundle. -/
def Calls.bodies (c : Calls) : Calls :=
  ⟨c.exprBody, c.chainBody, c.operandBody, c.argumentsBody, c.itemsBody, c.statementBody,
    c.blockBody⟩

/-- The functions with no step left. -/
def Calls.exhausted : Calls :=
  ⟨fun _ => giveUp, fun _ _ => giveUp, giveUp, giveUp, giveUp, giveUp, fun _ _ _ => giveUp⟩

theorem callsIn_zero : callsIn 0 = .exhausted := by
  simp only [callsIn, Calls.exhausted, exprIn, chainIn, operandIn, argumentsIn, itemsIn,
    statementIn, blockIn]

theorem callsIn_succ (n : Nat) : callsIn (n + 1) = (callsIn n).bodies := by
  simp only [callsIn, Calls.bodies, Calls.mk.injEq]
  refine ⟨funext (exprIn_succ n), funext fun power => funext (chainIn_succ n power),
    operandIn_succ n, argumentsIn_succ n, itemsIn_succ n, statementIn_succ n,
    funext fun opener => funext fun mayElse => funext (blockIn_succ n opener mayElse)⟩

/-! ## Every function is orderly -/

/-- What every function of a bundle consumes when it succeeds. -/
structure Calls.Tidy (c : Calls) : Prop where
  expr : ∀ p power, Orderly p 1 (c.expr power)
  chain : ∀ p power left, Orderly p 0 (c.chain power left)
  operand : ∀ p, Orderly p 1 c.operand
  arguments : ∀ p, Orderly p 1 c.arguments
  items : ∀ p, Orderly p 1 c.items
  statement : ∀ p, Orderly p 1 c.statement
  block : ∀ p opener mayElse afterStatement,
    Orderly p 0 (c.block opener mayElse afterStatement)

theorem memberName_orderly (p : Parser) : Orderly p 1 memberName := by
  refine .get_bind (.ite (fun hc => ?_) fun _ => .failHere (by simp))
  refine (Orderly.take_kind ?_).seq fun t q _ => .pure _
  rw [current_of_check hc]
  decide

theorem leaf_orderly (e : Expr) {p : Parser} (h : p.current.kind ≠ .eof) :
    Orderly p 1 (leaf e) := (Orderly.take_kind h).seq fun _ _ _ => .pure _

theorem separator_orderly {p : Parser} {afterStatement : Bool} (h : p.current.kind ≠ .eof) :
    Orderly p 1 (modify (separator afterStatement) : Parse PUnit) := by
  constructor
  · intro b q hq
    cases hq
    refine ⟨separator_moves _ _, ?_⟩
    have hlen := length_advance h
    unfold separator
    split
    · exact Nat.le_of_eq hlen
    · exact Nat.le_of_eq hlen
  · intro e q hq
    cases hq

theorem warnEmpty_orderly (keyword : Token) (word : String) (isEmpty : Bool) (p : Parser) :
    Orderly p 0 (warnEmpty keyword word isEmpty) := by
  refine .modify ?_
  split
  · exact .note _ .refl
  · exact .refl

namespace Calls.Tidy

variable {c : Calls} (h : c.Tidy)
include h

theorem exprBody (p : Parser) (power : Nat) : Orderly p 1 (c.exprBody power) :=
  (h.operand p).seq fun left q _ => h.chain q power left

theorem chainBody (p : Parser) (power : Nat) (left : Expr) :
    Orderly p 0 (c.chainBody power left) := by
  refine .get_bind (.ite (fun _ => .ite (fun _ => .pure _) fun _ => ?_) fun _ => ?_)
  · refine Orderly.take.seq fun _ q _ => ?_
    refine ((memberName_orderly q).mono (Nat.zero_le 1)).seq fun name r _ => ?_
    refine .get_bind (.ite (fun _ => ?_) fun _ => h.chain r power _)
    exact ((h.arguments r).mono (Nat.zero_le 1)).seq fun args s _ => h.chain s power _
  · split
    · exact .pure _
    · refine .ite (fun _ => .pure _) fun _ => .ite (fun _ => .pure _) fun _ => ?_
      refine Orderly.take.seq fun _ q _ => ?_
      exact ((h.expr q _).mono (Nat.zero_le 1)).seq fun right r _ => h.chain r power _

theorem operandBody (p : Parser) : Orderly p 1 c.operandBody := by
  refine .get_bind ?_
  dsimp only
  split
  · next hk =>
    refine (Orderly.take_kind (by simp [hk])).seq fun t q _ => ?_
    split
    · exact .pure _
    · exact .throw (by simp)
  · next hk => exact leaf_orderly _ (by simp [hk])
  · next hk => exact leaf_orderly _ (by simp [hk])
  · next hk => exact leaf_orderly _ (by simp [hk])
  · next hk =>
    refine (Orderly.take_kind (by simp [hk])).seq fun t q _ => ?_
    refine .get_bind (.ite (fun _ => ?_) fun _ => .pure _)
    exact ((h.arguments q).mono (Nat.zero_le 1)).seq fun args r _ => .pure _
  · next hk =>
    refine (Orderly.take_kind (by simp [hk])).seq fun t q _ => ?_
    refine Orderly.seq (.modify (.nest _ .refl)) fun _ r _ => ?_
    refine ((h.expr r 0).mono (Nat.zero_le 1)).seq fun inner s _ => ?_
    refine ((Orderly.expect (by decide)).mono (Nat.zero_le 1)).seq fun _ u _ => ?_
    exact Orderly.seq (.modify (.nest _ .refl)) fun _ _ _ => .pure _
  · next hk =>
    refine (Orderly.take_kind (by simp [hk])).seq fun t q _ => ?_
    exact ((h.expr q _).mono (Nat.zero_le 1)).seq fun e r _ => .pure _
  · next hk =>
    refine (Orderly.take_kind (by simp [hk])).seq fun t q _ => ?_
    exact ((h.expr q _).mono (Nat.zero_le 1)).seq fun e r _ => .pure _
  · exact .throw (by simp)
  · exact .failHere (by simp)

theorem argumentsBody (p : Parser) : Orderly p 1 c.argumentsBody := by
  refine (Orderly.expect (by decide)).seq fun _ q _ => ?_
  refine (Orderly.eat _).seq fun found r _ => ?_
  cases found with
  | some t => exact .pure _
  | none =>
    refine Orderly.seq (.modify (.nest _ .refl)) fun _ s _ => ?_
    refine ((h.items s).mono (Nat.zero_le 1)).seq fun args u _ => ?_
    exact Orderly.seq (.modify (.nest _ .refl)) fun _ _ _ => .pure _

theorem itemsBody (p : Parser) : Orderly p 1 c.itemsBody := by
  refine (h.expr p 0).seq fun first q _ => ?_
  refine (Orderly.eat _).seq fun found r _ => ?_
  cases found with
  | some t => exact ((h.items r).mono (Nat.zero_le 1)).seq fun more s _ => .pure _
  | none =>
    refine (Orderly.eat _).seq fun closed s _ => ?_
    cases closed with
    | some t => exact .pure _
    | none => exact .failHere (by simp)

theorem condition (p : Parser) : Orderly p 1 c.condition := by
  refine (Orderly.expect (by decide)).seq fun _ q _ => ?_
  refine ((h.expr q 0).mono (Nat.zero_le 1)).seq fun e r _ => ?_
  exact ((Orderly.expect (by decide)).mono (Nat.zero_le 1)).seq fun _ s _ => .pure _

theorem simple (p : Parser) : Orderly p 1 c.simple := by
  refine (h.expr p 0).seq fun left q _ => ?_
  refine (Orderly.eat _).seq fun found r _ => ?_
  cases found with
  | none => exact .pure _
  | some t =>
    refine ((h.expr r 0).mono (Nat.zero_le 1)).seq fun value s _ => ?_
    split
    · exact .pure _
    · exact .pure _
    · exact .throw (by simp)

theorem alternative (p : Parser) (opener : Token) : Orderly p 0 (c.alternative opener) := by
  refine (Orderly.eat _).seq fun found q _ => ?_
  cases found with
  | some t => exact (h.block q _ _ _).seq fun body r _ => .pure _
  | none => exact .pure _

theorem branchBody (p : Parser) (t : Token) (hp : p.current.kind ≠ .eof) :
    Orderly p 1 (c.branchBody t) := by
  refine (Orderly.take_kind hp).seq fun _ q _ => ?_
  refine Orderly.seq (.modify (.blocks _ .refl)) fun _ q _ => ?_
  refine ((h.condition q).mono (Nat.zero_le 1)).seq fun e q _ => ?_
  refine (h.block q _ _ _).seq fun thenBody q _ => ?_
  refine (h.alternative q _).seq fun elseBody q _ => ?_
  refine ((Orderly.expect (by decide)).mono (Nat.zero_le 1)).seq fun _ q _ => ?_
  refine Orderly.seq (.modify (.blocks _ .refl)) fun _ q _ => ?_
  exact (warnEmpty_orderly _ _ _ q).seq fun _ _ _ => .pure _

theorem loopBody (p : Parser) (t : Token) (hp : p.current.kind ≠ .eof) :
    Orderly p 1 (c.loopBody t) := by
  refine (Orderly.take_kind hp).seq fun _ q _ => ?_
  refine Orderly.seq (.modify (.blocks _ .refl)) fun _ q _ => ?_
  refine ((h.condition q).mono (Nat.zero_le 1)).seq fun e q _ => ?_
  refine (h.block q _ _ _).seq fun body q _ => ?_
  refine ((Orderly.expect (by decide)).mono (Nat.zero_le 1)).seq fun _ q _ => ?_
  refine Orderly.seq (.modify (.blocks _ .refl)) fun _ q _ => ?_
  exact (warnEmpty_orderly _ _ _ q).seq fun _ _ _ => .pure _

theorem printBody (p : Parser) (t : Token) (newline : Bool) (hp : p.current.kind ≠ .eof) :
    Orderly p 1 (c.printBody t newline) := by
  refine (Orderly.take_kind hp).seq fun _ q _ => ?_
  exact ((h.arguments q).mono (Nat.zero_le 1)).seq fun args r _ => .pure _

theorem statementBody (p : Parser) : Orderly p 1 c.statementBody := by
  refine .get_bind ?_
  dsimp only
  split
  · next hk => exact h.branchBody p _ (by simp [hk])
  · next hk => exact h.loopBody p _ (by simp [hk])
  · next hk => exact h.printBody p _ _ (by simp [hk])
  · next hk => exact h.printBody p _ _ (by simp [hk])
  · exact .throw (by simp)
  · exact .throw (by simp)
  · exact h.simple p

theorem blockBody (p : Parser) (opener : Token) (mayElse afterStatement : Bool) :
    Orderly p 0 (c.blockBody opener mayElse afterStatement) := by
  refine .get_bind (.ite (fun _ => .pure _) fun _ => .ite (fun _ => .throw (by simp)) fun _ =>
    .ite (fun _ => ?_) fun _ => ?_)
  · exact Orderly.seq (.modify (separator_moves _ _)) fun _ q _ => h.block q _ _ _
  · refine ((h.statement p).mono (Nat.zero_le 1)).seq fun first q _ => ?_
    exact (h.block q _ _ _).seq fun more r _ => .pure _

end Calls.Tidy

theorem callsIn_tidy (n : Nat) : (callsIn n).Tidy := by
  induction n with
  | zero =>
    rw [callsIn_zero]
    constructor <;> intros <;> exact .giveUp
  | succ n ih =>
    rw [callsIn_succ]
    exact ⟨ih.exprBody, ih.chainBody, ih.operandBody, ih.argumentsBody, ih.itemsBody,
      ih.statementBody, ih.blockBody⟩

end Parser
end ScriptEngine
