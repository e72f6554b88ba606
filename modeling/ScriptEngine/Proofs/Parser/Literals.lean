/-
Literals have no sign.

A number token never begins with a minus, so the numbers of a parsed script have no
minus sign.  This holds of every statement that is written over such tokens, by
induction on derivations, and a script has only statements that are written in its text.
-/
import ScriptEngine.Proofs.Code.Translation
import ScriptEngine.Proofs.Decimal.Unsigned
import ScriptEngine.Proofs.Parser.Coverage
import ScriptEngine.Proofs.Token.Kinds

namespace ScriptEngine

open Constant (AllUnsigned)

namespace Grammar

/-- No number among the tokens begins with a minus. -/
def Plain (ts : List Token) : Prop :=
  ∀ t ∈ ts, t.kind = .number → t.lexeme.toList.head? ≠ some '-'

namespace Plain

variable {t : Token} {ts us : List Token}

theorem head (h : Plain (t :: ts)) (ht : t.kind = .number) : t.lexeme.toList.head? ≠ some '-' :=
  h t List.mem_cons_self ht

theorem tail (h : Plain (t :: ts)) : Plain ts := fun u hu => h u (List.mem_cons_of_mem _ hu)

theorem left (h : Plain (ts ++ us)) : Plain ts := fun u hu => h u (List.mem_append_left _ hu)

theorem right (h : Plain (ts ++ us)) : Plain us := fun u hu => h u (List.mem_append_right _ hu)

end Plain

theorem literals_mkCall (callee : Ident) (args : List Expr) :
    (Parser.mkCall callee args).literals = argumentLiterals args := by
  unfold Parser.mkCall
  split <;> rfl

theorem allUnsigned_one {k : Constant} (h : k.IsUnsigned) : AllUnsigned [k] := by
  intro j hj
  cases List.mem_singleton.mp hj
  exact h

mutual

theorem Expression.unsigned : ∀ {l : Level} {ts : List Token} {e : Expr}, Expression l ts e →
    Plain ts → AllUnsigned e.literals
  | _, _, _, .next h, hp => h.unsigned hp
  | _, _, _, .binary _ _ _ hl _ hr, hp => (hl.unsigned hp.left).append (hr.unsigned hp.right.tail)
  | _, _, _, .unary _ _ _ he, hp => he.unsigned hp.tail
  | _, _, _, .member _ _ ho _ _, hp => ho.unsigned hp.left
  | _, _, _, .method _ _ ho _ _ ha, hp =>
    (ho.unsigned hp.left).append (ha.unsigned hp.right.tail.tail)
  | _, _, _, .number _ ht hv, hp => allUnsigned_one (Decimal.read?_unsigned (hp.head ht) hv)
  | _, _, _, .string _ _, _ => allUnsigned_one trivial
  | _, _, _, .true_ _ _, _ => allUnsigned_one trivial
  | _, _, _, .false_ _ _, _ => allUnsigned_one trivial
  | _, _, _, .variable _ _, _ => nofun
  | _, _, _, .call _ _ ha, hp => by
    rw [literals_mkCall]
    exact ha.unsigned hp.tail
  | _, _, _, .group _ _ _ he _, hp => he.unsigned hp.tail.left

theorem Arguments.unsigned : ∀ {ts : List Token} {args : List Expr}, Arguments ts args →
    Plain ts → AllUnsigned (argumentLiterals args)
  | _, _, .empty .., _ => nofun
  | _, _, .list _ _ hi, hp => hi.unsigned hp.tail

theorem Items.unsigned : ∀ {ts : List Token} {args : List Expr}, Items ts args →
    Plain ts → AllUnsigned (argumentLiterals args)
  | _, _, .last _ he _, hp => (he.unsigned hp.left).append nofun
  | _, _, .more _ he _ hi, hp => (he.unsigned hp.left).append (hi.unsigned hp.right.tail)

end

theorem Condition.unsigned {ts : List Token} {e : Expr} (h : Condition ts e) (hp : Plain ts) :
    AllUnsigned e.literals := by
  cases h with
  | mk _ _ _ he _ => exact he.unsigned hp.tail.left

mutual

theorem Statement.unsigned : ∀ {ts : List Token} {s : Stmt}, Statement ts s → Plain ts →
    AllUnsigned s.literals
  | _, _, @Statement.branch _ _ _ _ _ elseBody _ _ _ hc hb ha _, hp => by
    have hcondition := hc.unsigned hp.tail.left
    have hthen := hb.unsigned hp.tail.right.left
    cases elseBody with
    | none => exact hcondition.append hthen
    | some body =>
      exact hcondition.append (hthen.append (ha.unsigned hp.tail.right.right.left body rfl))
  | _, _, .loop _ _ _ hc hb _, hp =>
    (hc.unsigned hp.tail.left).append (hb.unsigned hp.tail.right.left)
  | _, _, .print _ _ ha, hp => ha.unsigned hp.tail
  | _, _, .println _ _ ha, hp => ha.unsigned hp.tail
  | _, _, .expr he, hp => he.unsigned hp
  | _, _, .assign _ _ _ hv, hp => hv.unsigned hp.right.tail
  | _, _, .setMember _ ho _ hv, hp =>
    AllUnsigned.append (ho.unsigned hp.left) (hv.unsigned hp.right.tail)

theorem Alternative.unsigned : ∀ {ts : List Token} {elseBody : Option (List Stmt)},
    Alternative ts elseBody → Plain ts → ∀ body, elseBody = some body →
      AllUnsigned (blockLiterals body)
  | _, _, .none, _, _, h => nomatch h
  | _, _, .some _ _ hb, hp, _, rfl => hb.unsigned hp.tail

theorem Block.unsigned : ∀ {ts : List Token} {body : List Stmt}, Block ts body → Plain ts →
    AllUnsigned (blockLiterals body)
  | _, _, .nil, _ => nofun
  | _, _, .separator _ _ hb, hp => hb.unsigned hp.tail
  | _, _, .statement hs hb, hp => (hs.unsigned hp.left).append (hb.unsigned hp.right)

end

end Grammar

theorem blockLiterals_unsigned {body : List Stmt} (h : ∀ s ∈ body, AllUnsigned s.literals) :
    AllUnsigned (blockLiterals body) := by
  induction body with
  | nil => exact nofun
  | cons s rest ih =>
    exact (h s List.mem_cons_self).append (ih fun t ht => h t (List.mem_cons_of_mem _ ht))

/-- The literals of a parsed script have no minus sign. -/
theorem Script.parse_literals (text : String) :
    AllUnsigned (blockLiterals (Script.parse text).1.statements) := by
  have hall : ∀ s ∈ (Script.parse text).1.statements, AllUnsigned s.literals := by
    intro s hs
    obtain ⟨ts, hts, hstatement⟩ := Parser.scriptIn_written _ _ _ s hs
    refine hstatement.unsigned fun t ht hk => ?_
    obtain ⟨scanned, hscanned, rfl⟩ := List.mem_map.mp (hts t ht)
    exact (TokenStream.ofString_sound text scanned hscanned).unsigned_of_number hk
  exact blockLiterals_unsigned hall

end ScriptEngine
