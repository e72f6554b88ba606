/-
The instructions of the stack machine.

Operators take their operands off the stack and put one result on it.  A jump
names the instruction where the program goes on.
-/
import ScriptEngine.Registry.Functions
import ScriptEngine.Syntax

namespace ScriptEngine

inductive Instruction where
  | constant (index : Nat)
  | load (slot : Nat)
  | store (slot : Nat)
  | pop
  | unary (op : UnaryOp)
  | binary (op : BinaryOp)
  | jump (target : Nat)
  /-- Takes a truth value off the stack and goes on at the target if it is false. -/
  | jumpIfFalse (target : Nat)
  /-- Takes arguments off the stack and puts the result of a function on it. -/
  | call (handle argc : Nat)
  /-- Takes arguments and the receiver below them off the stack and puts the result of the
  receiver's method on it. -/
  | callMethod (method argc : Nat)
  deriving DecidableEq, Repr

def BinaryOp.mnemonic : BinaryOp → String
  | or => "OR" | and => "AND" | equal => "EQ" | notEqual => "NE"
  | less => "LT" | lessEqual => "LE" | greater => "GT" | greaterEqual => "GE"
  | add => "ADD" | sub => "SUB" | mul => "MUL" | div => "DIV"

def UnaryOp.mnemonic : UnaryOp → String
  | neg => "NEG"
  | not => "NOT"

namespace Instruction

def mnemonic : Instruction → String
  | constant _ => "CONSTANT"
  | load _ => "LOAD"
  | store _ => "STORE"
  | pop => "POP"
  | unary op => op.mnemonic
  | binary op => op.mnemonic
  | jump _ => "JUMP"
  | jumpIfFalse _ => "JUMP_IF_FALSE"
  | call .. => "CALL"
  | callMethod .. => "CALL_METHOD"

/-- By how much an instruction changes the depth of the stack. -/
def stackEffect : Instruction → Int
  | constant _ | load _ => 1
  | store _ | pop | jumpIfFalse _ | binary _ => -1
  | unary _ | jump _ => 0
  | call _ argc => 1 - argc
  | callMethod _ argc => -argc

/-- The instruction that stands for an operator without operands of its own. -/
def ofMnemonic? (word : String) : Option Instruction :=
  [pop, unary .neg, unary .not, binary .or, binary .and, binary .equal, binary .notEqual,
    binary .less, binary .lessEqual, binary .greater, binary .greaterEqual, binary .add,
    binary .sub, binary .mul, binary .div].find? fun i => i.mnemonic = word

/-- A number with leading zeros up to four digits. -/
def padded (n : Nat) : String :=
  let digits := toString n
  "".pushn '0' (4 - digits.length) ++ digits

def text (i : Instruction) : String :=
  match i with
  | constant n | load n | store n => i.mnemonic ++ " " ++ toString n
  | jump target | jumpIfFalse target => i.mnemonic ++ " " ++ padded target
  | call handle argc => i.mnemonic ++ " " ++ handleText handle ++ " " ++ toString argc
  | callMethod method argc => i.mnemonic ++ " " ++ toString method ++ " " ++ toString argc
  | _ => i.mnemonic

end Instruction
end ScriptEngine
