/-
What the operands of compiled code refer to.

A constant, a slot and a method index are places in the tables of the program, a target is
a place in its code or the end of it, and a handle is what the registry has for some name
with the number of arguments of the call.  `Instruction.Valid` says this of one
instruction; it holds throughout a translation (`Translation.statements_valid`), so of
every instruction of a compiled program (`Program.CompiledFrom.valid`).
-/
import ScriptEngine.Proofs.Code.Compiled

namespace ScriptEngine

/-- The operands of an instruction are right in a program whose code ends at the limit. -/
def Instruction.Valid (p : Program) (functions : FunctionRegistry) (limit : Nat) :
    Instruction → Prop
  | .constant index => index < p.constants.size
  | .load slot | .store slot => slot < p.slotNames.size
  | .jump target | .jumpIfFalse target => target ≤ limit
  | .call handle argc => ∃ name, functions.resolve name argc = .ok (some handle)
  | .callMethod index argc =>
    ∃ method, p.methods[index]? = some (Compiler.tableOf functions method argc)
  | .pop | .unary _ | .binary _ => True

/-- The operands of all instructions are right. -/
def Listing.Valid (p : Program) (functions : FunctionRegistry) (limit : Nat) (out : Listing) :
    Prop :=
  ∀ entry ∈ out, entry.1.Valid p functions limit

namespace Listing.Valid

variable {p : Program} {functions : FunctionRegistry} {limit : Nat} {first second : Listing}
  {i : Instruction} {line : Nat}

theorem nil : Valid p functions limit [] := nofun

theorem append (h : Valid p functions limit first) (h' : Valid p functions limit second) :
    Valid p functions limit (first ++ second) := List.forall_mem_append.mpr ⟨h, h'⟩

theorem cons (h : i.Valid p functions limit) (h' : Valid p functions limit second) :
    Valid p functions limit ((i, line) :: second) := List.forall_mem_cons.mpr ⟨h, h'⟩

theorem one (h : i.Valid p functions limit) : Valid p functions limit [(i, line)] := cons h nil

theorem popUnless (isLast : Bool) (line : Nat) :
    Valid p functions limit (popUnless isLast line) := by
  cases isLast with
  | true => exact nil
  | false => exact one trivial

end Listing.Valid

namespace Translation

variable {p : Program} {functions : FunctionRegistry} {limit : Nat}

theorem constant_valid {index line : Nat} {k : Constant} (h : p.constants.get? index = some k) :
    Listing.Valid p functions limit [(.constant index, line)] :=
  .one (Array.getElem?_eq_some_iff.mp h).1

mutual

theorem expression_valid : ∀ (e : Expr) {out : Listing}, Expression p functions e out →
    out.Valid p functions limit
  | .number _ _, _, .number hk _ => constant_valid hk
  | .bool _ _, _, .bool hk _ => constant_valid hk
  | .string _ _, _, .string hk _ => constant_valid hk
  | .variable _, _, .variable hs => .one (Array.getElem?_eq_some_iff.mp hs).1
  | .binary _ left right, _, .binary hl hr =>
    (expression_valid left hl).append ((expression_valid right hr).append (.one trivial))
  | .unary _ _ e, _, .unary he => (expression_valid e he).append (.one trivial)
  | .member object _, _, .member ho ht => (expression_valid object ho).append (.one ⟨_, ht⟩)
  | .method object _ args, _, .method ho ha ht =>
    (expression_valid object ho).append ((arguments_valid args ha).append (.one ⟨_, ht⟩))
  | .call _ args, _, .call ha hf => (arguments_valid args ha).append (.one ⟨_, hf⟩)
  | .construct _ args, _, .construct ha hf => (arguments_valid args ha).append (.one ⟨_, hf⟩)

theorem arguments_valid : ∀ (es : List Expr) {out : Listing}, Arguments p functions es out →
    out.Valid p functions limit
  | [], _, .nil => .nil
  | e :: rest, _, .cons he hr => (expression_valid e he).append (arguments_valid rest hr)

end

-- a jump goes on behind a part of its own statement, or at its beginning
mutual

theorem statement_valid : ∀ (isLast : Bool) (s : Stmt) {start : Nat} {out : Listing},
    Statement p functions isLast start s out → start + out.length ≤ limit →
      out.Valid p functions limit
  | _, .assign _ value, _, _, .assign hv hs, _ =>
    (expression_valid value hv).append (.one (Array.getElem?_eq_some_iff.mp hs).1)
  | _, .branch _ condition thenBody none, _, _, .branch hc hb, hlimit => by
    simp only [List.length_append, List.length_cons] at hlimit
    exact (expression_valid condition hc).append (.cons (by show _ ≤ limit; omega)
      (block_valid thenBody hb (by omega)))
  | _, .branch _ condition thenBody (some elseBody), _, _, .alternative hc hb ho, hlimit => by
    simp only [List.length_append, List.length_cons] at hlimit
    refine (expression_valid condition hc).append (.cons (by show _ ≤ limit; omega) ?_)
    exact (block_valid thenBody hb (by omega)).append
      (.cons (by show _ ≤ limit; omega) (block_valid elseBody ho (by omega)))
  | _, .loop _ condition body, _, _, .loop hc hb, hlimit => by
    simp only [List.length_append, List.length_cons, List.length_nil] at hlimit
    refine (expression_valid condition hc).append (.cons (by show _ ≤ limit; omega) ?_)
    exact (block_valid body hb (by omega)).append (.one (by show _ ≤ limit; omega))
  | _, .expr e, _, _, .expr he, _ => (expression_valid e he).append (.popUnless _ _)
  | _, .setMember object _ value, _, _, .setMember ho hv ht, _ =>
    (expression_valid object ho).append ((expression_valid value hv).append
      (.cons ⟨_, ht⟩ (.popUnless _ _)))
  | _, .print _ _ args, _, _, .print ha hf, _ =>
    (arguments_valid args ha).append (.cons ⟨_, hf⟩ (.one trivial))

theorem block_valid : ∀ (body : List Stmt) {start : Nat} {out : Listing},
    Block p functions start body out → start + out.length ≤ limit → out.Valid p functions limit
  | [], _, _, .nil, _ => .nil
  | s :: rest, _, _, .cons hs hr, hlimit => by
    rw [List.length_append] at hlimit
    exact (statement_valid false s hs (by omega)).append (block_valid rest hr (by omega))

end

theorem statements_valid {body : List Stmt} {start : Nat} {out : Listing}
    (h : Statements p functions start body out) (hlimit : start + out.length ≤ limit) :
    out.Valid p functions limit := by
  induction h with
  | nil => exact .nil
  | cons hs _ ih =>
    rw [List.length_append] at hlimit
    exact (statement_valid _ _ hs (by omega)).append (ih (by omega))

end Translation

theorem Program.CompiledFrom.valid {p : Program} {functions : FunctionRegistry}
    {body : List Stmt} {out : Listing} (h : p.CompiledFrom functions body out) {i : Instruction}
    (hi : i ∈ p.code) : i.Valid p functions p.size := by
  rw [← Array.mem_toList_iff, h.code, List.mem_map] at hi
  obtain ⟨entry, hentry, rfl⟩ := hi
  have hlimit : 0 + out.length = p.size := by rw [Nat.zero_add, h.size]
  exact Translation.statements_valid h.translation (Nat.le_of_eq hlimit) entry hentry

end ScriptEngine
