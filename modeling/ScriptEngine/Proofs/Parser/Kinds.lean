/-
Which tokens a script is made of.

An expression has no token that could separate two statements or belong to one
(`TokenKind.inExpression`), and no part of a script has an invalid token.  Both are
read off derivations, by recursion over them.  A script that parses without an error
therefore has no fault for the lexer to report either.
-/
import ScriptEngine.Proofs.Parser.Coverage

namespace ScriptEngine

/-- Whether a token of the kind can stand in an expression. -/
def TokenKind.inExpression : TokenKind → Bool
  | .if_ | .else_ | .while_ | .end_ | .print | .println | .equal | .semicolon | .eof
  | .invalid => false
  | _ => true

namespace Grammar

theorem inExpression_binary {k : TokenKind} {op : BinaryOp} (h : BinaryOp.ofToken? k = some op) :
    k.inExpression = true := by
  cases k <;> first | rfl | cases h

theorem inExpression_unary {k : TokenKind} {op : UnaryOp} (h : UnaryOp.ofToken? k = some op) :
    k.inExpression = true := by
  cases k <;> first | rfl | cases h

theorem inExpression_of {k kind : TokenKind} (h : k = kind) (hk : kind.inExpression = true) :
    k.inExpression = true := h ▸ hk

mutual

theorem Expression.kinds : ∀ {l : Level} {ts : List Token} {e : Expr}, Expression l ts e →
    ∀ t ∈ ts, t.kind.inExpression = true
  | _, _, _, .next h => h.kinds
  | _, _, _, .binary _ _ _ hl ht hr => List.forall_mem_append.mpr
    ⟨hl.kinds, List.forall_mem_cons.mpr ⟨inExpression_binary ht, hr.kinds⟩⟩
  | _, _, _, .unary _ _ ht he => List.forall_mem_cons.mpr ⟨inExpression_unary ht, he.kinds⟩
  | _, _, _, .member _ _ ho hd hn => List.forall_mem_append.mpr
    ⟨ho.kinds, by simp [hd, hn, TokenKind.inExpression]⟩
  | _, _, _, .method _ _ ho hd hn ha => List.forall_mem_append.mpr
    ⟨ho.kinds, List.forall_mem_cons.mpr
      ⟨inExpression_of hd rfl, List.forall_mem_cons.mpr ⟨inExpression_of hn rfl, ha.kinds⟩⟩⟩
  | _, _, _, .number _ ht _ => by simp [ht, TokenKind.inExpression]
  | _, _, _, .string _ ht => by simp [ht, TokenKind.inExpression]
  | _, _, _, .true_ _ ht => by simp [ht, TokenKind.inExpression]
  | _, _, _, .false_ _ ht => by simp [ht, TokenKind.inExpression]
  | _, _, _, .variable _ ht => by simp [ht, TokenKind.inExpression]
  | _, _, _, .call _ ht ha => List.forall_mem_cons.mpr ⟨inExpression_of ht rfl, ha.kinds⟩
  | _, _, _, .group _ _ ho he hc => List.forall_mem_cons.mpr ⟨inExpression_of ho rfl,
    List.forall_mem_append.mpr ⟨he.kinds, by simp [hc, TokenKind.inExpression]⟩⟩

theorem Arguments.kinds : ∀ {ts : List Token} {args : List Expr}, Arguments ts args →
    ∀ t ∈ ts, t.kind.inExpression = true
  | _, _, .empty _ _ ho hc => by simp [ho, hc, TokenKind.inExpression]
  | _, _, .list _ ho hi => List.forall_mem_cons.mpr ⟨inExpression_of ho rfl, hi.kinds⟩

theorem Items.kinds : ∀ {ts : List Token} {args : List Expr}, Items ts args →
    ∀ t ∈ ts, t.kind.inExpression = true
  | _, _, .last _ he hc => List.forall_mem_append.mpr
    ⟨he.kinds, by simp [hc, TokenKind.inExpression]⟩
  | _, _, .more _ he hc hi => List.forall_mem_append.mpr
    ⟨he.kinds, List.forall_mem_cons.mpr ⟨inExpression_of hc rfl, hi.kinds⟩⟩

end

theorem Expression.valid {l : Level} {ts : List Token} {e : Expr} (h : Expression l ts e) :
    ∀ t ∈ ts, t.kind ≠ .invalid := by
  intro t ht hk
  have hin := h.kinds t ht
  rw [hk] at hin
  cases hin

theorem Arguments.valid {ts : List Token} {args : List Expr} (h : Arguments ts args) :
    ∀ t ∈ ts, t.kind ≠ .invalid := by
  intro t ht hk
  have hin := h.kinds t ht
  rw [hk] at hin
  cases hin

theorem Condition.valid {ts : List Token} {e : Expr} (h : Condition ts e) :
    ∀ t ∈ ts, t.kind ≠ .invalid := by
  cases h with
  | mk _ _ ho he hc =>
    exact List.forall_mem_cons.mpr ⟨by simp [ho], List.forall_mem_append.mpr
      ⟨he.valid, by simp [hc]⟩⟩

mutual

theorem Statement.valid : ∀ {ts : List Token} {s : Stmt}, Statement ts s →
    ∀ t ∈ ts, t.kind ≠ .invalid
  | _, _, .branch _ _ hk hc hb ha he => List.forall_mem_cons.mpr
    ⟨by simp [hk], List.forall_mem_append.mpr ⟨hc.valid, List.forall_mem_append.mpr
      ⟨hb.valid, List.forall_mem_append.mpr ⟨ha.valid, by simp [he]⟩⟩⟩⟩
  | _, _, .loop _ _ hk hc hb he => List.forall_mem_cons.mpr
    ⟨by simp [hk], List.forall_mem_append.mpr ⟨hc.valid, List.forall_mem_append.mpr
      ⟨hb.valid, by simp [he]⟩⟩⟩
  | _, _, .print _ hk ha => List.forall_mem_cons.mpr ⟨by simp [hk], ha.valid⟩
  | _, _, .println _ hk ha => List.forall_mem_cons.mpr ⟨by simp [hk], ha.valid⟩
  | _, _, .expr he => he.valid
  | _, _, .assign _ ht he hv => List.forall_mem_append.mpr
    ⟨ht.valid, List.forall_mem_cons.mpr ⟨by simp [he], hv.valid⟩⟩
  | _, _, .setMember _ ht he hv => List.forall_mem_append.mpr
    ⟨ht.valid, List.forall_mem_cons.mpr ⟨by simp [he], hv.valid⟩⟩

theorem Alternative.valid : ∀ {ts : List Token} {body : Option (List Stmt)},
    Alternative ts body → ∀ t ∈ ts, t.kind ≠ .invalid
  | _, _, .none => nofun
  | _, _, .some _ hk hb => List.forall_mem_cons.mpr ⟨by simp [hk], hb.valid⟩

theorem Block.valid : ∀ {ts : List Token} {body : List Stmt}, Block ts body →
    ∀ t ∈ ts, t.kind ≠ .invalid
  | _, _, .nil => nofun
  | _, _, .separator _ hk hb => List.forall_mem_cons.mpr ⟨by simp [hk], hb.valid⟩
  | _, _, .statement hs hb => List.forall_mem_append.mpr ⟨hs.valid, hb.valid⟩

end
end Grammar

/-! ## Faults -/

/-- The tokens of a text. -/
def tokensOf (text : String) : List Token := (TokenStream.ofString text).tokens.map (·.token)

namespace Parser

/-- A script that parses without an error has no fault. -/
theorem parse_faultless {text : String} (h : (Script.parse text).2.hasErrors = false) :
    ∀ s ∈ (TokenStream.ofString text).tokens, s.fault = none := by
  intro s hs
  have hvalid := (parse_block h).valid s.token (List.mem_map_of_mem hs)
  exact Lexer.scanAll_fault _ _ s hs hvalid

end Parser
end ScriptEngine
