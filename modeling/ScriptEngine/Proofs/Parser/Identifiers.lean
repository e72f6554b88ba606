/-
The names of a parsed script are identifiers of its text.

The names of a tree, from the left, are the identifiers among the tokens that it is written over
(`Expression.names`, `Statement.names`), by induction on derivations.  So a script has no other
names than those that the lexer takes for one (`Script.parse_names`).
-/
import ScriptEngine.Proofs.Parser.Names

namespace ScriptEngine

/-! ## The names of a tree -/

mutual

/-- The names in an expression, from the left. -/
def Expr.names : Expr → List String
  | .number .. | .bool .. | .string .. => []
  | .variable name => [name.name]
  | .binary _ left right => left.names ++ right.names
  | .unary _ _ e => e.names
  | .member object name => object.names ++ [name.name]
  | .method object name args => object.names ++ name.name :: argumentNames args
  | .call callee args => callee.name :: argumentNames args
  | .construct callee args => callee.name :: argumentNames args

def argumentNames : List Expr → List String
  | [] => []
  | e :: rest => e.names ++ argumentNames rest

end

mutual

/-- The names in a statement, from the left. -/
def Stmt.names : Stmt → List String
  | .assign target value => target.name :: value.names
  | .branch _ condition thenBody none => condition.names ++ blockNames thenBody
  | .branch _ condition thenBody (some elseBody) =>
    condition.names ++ (blockNames thenBody ++ blockNames elseBody)
  | .loop _ condition body => condition.names ++ blockNames body
  | .expr e => e.names
  | .setMember object name value => object.names ++ name.name :: value.names
  | .print _ _ args => argumentNames args

def blockNames : List Stmt → List String
  | [] => []
  | s :: rest => s.names ++ blockNames rest

end

namespace Grammar

/-- The texts of the identifiers among the tokens. -/
def identifiers (ts : List Token) : List String :=
  ts.filterMap fun t => if t.kind = .identifier then some t.lexeme else none

theorem identifiers_append (ts us : List Token) :
    identifiers (ts ++ us) = identifiers ts ++ identifiers us := List.filterMap_append

theorem identifiers_identifier {t : Token} (h : t.kind = .identifier) (ts : List Token) :
    identifiers (t :: ts) = t.lexeme :: identifiers ts := by
  simp [identifiers, h]

theorem identifiers_other {t : Token} (h : t.kind ≠ .identifier) (ts : List Token) :
    identifiers (t :: ts) = identifiers ts := by
  simp [identifiers, h]

theorem names_mkCall (callee : Ident) (args : List Expr) :
    (Parser.mkCall callee args).names = callee.name :: argumentNames args := by
  unfold Parser.mkCall
  split <;> rfl

theorem binary_ne_identifier {t : Token} {op : BinaryOp} (h : BinaryOp.ofToken? t.kind = some op) :
    t.kind ≠ .identifier := by
  intro hk
  rw [hk] at h
  cases h

theorem unary_ne_identifier {t : Token} {op : UnaryOp} (h : UnaryOp.ofToken? t.kind = some op) :
    t.kind ≠ .identifier := by
  intro hk
  rw [hk] at h
  cases h

theorem ne_identifier {t : Token} {k : TokenKind} (h : t.kind = k) (hk : k ≠ .identifier) :
    t.kind ≠ .identifier := h ▸ hk

mutual

theorem Expression.names : ∀ {l : Level} {ts : List Token} {e : Expr}, Expression l ts e →
    e.names = identifiers ts
  | _, _, _, .next h => h.names
  | _, _, _, .binary _ _ _ hl ht hr => by
    rw [Expr.names, hl.names, hr.names, identifiers_append,
      identifiers_other (binary_ne_identifier ht)]
  | _, _, _, .unary _ _ ht he => by
    rw [Expr.names, he.names, identifiers_other (unary_ne_identifier ht)]
  | _, _, _, .member _ _ ho hdot hname => by
    rw [Expr.names, ho.names, identifiers_append, identifiers_other (ne_identifier hdot nofun),
      identifiers_identifier hname]
    rfl
  | _, _, _, .method _ _ ho hdot hname ha => by
    rw [Expr.names, ho.names, ha.names, identifiers_append,
      identifiers_other (ne_identifier hdot nofun), identifiers_identifier hname]
  | _, _, _, .number _ ht _ | _, _, _, .string _ ht | _, _, _, .true_ _ ht
  | _, _, _, .false_ _ ht => by
    rw [identifiers_other (ne_identifier ht nofun)]
    rfl
  | _, _, _, .variable _ ht => by
    rw [identifiers_identifier ht]
    rfl
  | _, _, _, .call _ ht ha => by
    rw [names_mkCall, ha.names, identifiers_identifier ht]
  | _, _, _, .group _ _ ho he hc => by
    rw [List.cons_append, identifiers_other (ne_identifier ho nofun), identifiers_append,
      identifiers_other (ne_identifier hc nofun), ← he.names]
    exact (List.append_nil _).symm

theorem Arguments.names : ∀ {ts : List Token} {args : List Expr}, Arguments ts args →
    argumentNames args = identifiers ts
  | _, _, .empty _ _ ho hc => by
    rw [identifiers_other (ne_identifier ho nofun), identifiers_other (ne_identifier hc nofun)]
    rfl
  | _, _, .list _ ho hi => by
    rw [hi.names, identifiers_other (ne_identifier ho nofun)]

theorem Items.names : ∀ {ts : List Token} {args : List Expr}, Items ts args →
    argumentNames args = identifiers ts
  | _, _, .last _ he hc => by
    rw [argumentNames, argumentNames, he.names, identifiers_append,
      identifiers_other (ne_identifier hc nofun)]
    rfl
  | _, _, .more _ he hc hi => by
    rw [argumentNames, he.names, hi.names, identifiers_append,
      identifiers_other (ne_identifier hc nofun)]

end

theorem Condition.names {ts : List Token} {e : Expr} (h : Condition ts e) :
    e.names = identifiers ts := by
  cases h with
  | mk _ _ ho he hc =>
    rw [he.names, List.cons_append, identifiers_other (ne_identifier ho nofun),
      identifiers_append, identifiers_other (ne_identifier hc nofun)]
    exact (List.append_nil _).symm

mutual

theorem Statement.names : ∀ {ts : List Token} {s : Stmt}, Statement ts s → s.names = identifiers ts
  | _, _, @Statement.branch _ _ _ _ _ elseBody _ _ hk hc hb ha hend => by
    rw [identifiers_other (ne_identifier hk nofun), identifiers_append, identifiers_append,
      identifiers_append, identifiers_other (ne_identifier hend nofun), ← hc.names, ← hb.names,
      ← ha.names]
    cases elseBody with
    | none => exact congrArg _ (List.append_nil _).symm
    | some body =>
      rw [Stmt.names]
      exact congrArg _ (congrArg _ (List.append_nil _).symm)
  | _, _, .loop _ _ hk hc hb hend => by
    rw [Stmt.names, hc.names, hb.names, identifiers_other (ne_identifier hk nofun),
      identifiers_append, identifiers_append, identifiers_other (ne_identifier hend nofun)]
    exact congrArg _ (List.append_nil _).symm
  | _, _, .print _ hk ha | _, _, .println _ hk ha => by
    rw [Stmt.names, ha.names, identifiers_other (ne_identifier hk nofun)]
  | _, _, .expr he => by
    rw [Stmt.names, he.names]
  | _, _, .assign _ ht hk hv => by
    rw [Stmt.names, hv.names, identifiers_append, identifiers_other (ne_identifier hk nofun),
      ← ht.names]
    rfl
  | _, _, .setMember _ ho hk hv => by
    rw [Stmt.names, hv.names, identifiers_append, identifiers_other (ne_identifier hk nofun),
      ← ho.names, Expr.names, List.append_assoc]
    rfl

theorem Alternative.names : ∀ {ts : List Token} {elseBody : Option (List Stmt)},
    Alternative ts elseBody → (elseBody.elim [] blockNames) = identifiers ts
  | _, _, .none => rfl
  | _, _, .some _ hk hb => by
    rw [Option.elim, hb.names, identifiers_other (ne_identifier hk nofun)]

theorem Block.names : ∀ {ts : List Token} {body : List Stmt}, Block ts body →
    blockNames body = identifiers ts
  | _, _, .nil => rfl
  | _, _, .separator _ ht hb => by
    rw [hb.names, identifiers_other (ne_identifier ht nofun)]
  | _, _, .statement hs hb => by
    rw [blockNames, hs.names, hb.names, identifiers_append]

end

end Grammar

/-- Every name of a parsed script is one that the lexer takes for an identifier. -/
theorem Script.parse_names (text : String) :
    ∀ name ∈ blockNames (Script.parse text).1.statements, Printing.IsName name := by
  have hnames : ∀ s ∈ (Script.parse text).1.statements, ∀ name ∈ s.names,
      Printing.IsName name := by
    intro s hs name hname
    obtain ⟨ts, hts, hstatement⟩ := Parser.scriptIn_written _ _ _ s hs
    rw [hstatement.names] at hname
    obtain ⟨t, ht, hlexeme⟩ := List.mem_filterMap.mp hname
    split at hlexeme
    case isFalse => cases hlexeme
    case isTrue hk =>
      cases hlexeme
      obtain ⟨scanned, hscanned, rfl⟩ := List.mem_map.mp (hts t ht)
      exact (TokenStream.ofString_partitions text).partition.isName scanned hscanned hk
  generalize (Script.parse text).1.statements = body at hnames
  induction body with
  | nil => exact nofun
  | cons s rest ih =>
    intro name hname
    rcases List.mem_append.mp hname with hname | hname
    · exact hnames s List.mem_cons_self name hname
    · exact ih (fun t ht => hnames t (List.mem_cons_of_mem _ ht)) name hname

end ScriptEngine
