/-
The grammar of scripts as derivations over spans of tokens.

A derivation says how a tree is written: `Expression l ts e` that the tokens `ts`
are an expression `e` of the level `l`, and likewise for argument lists,
statements and blocks.  The spans of the parts of a construct stand one behind the
other and make up the span of the construct, so no token of a span is left out and
none belongs to two parts.  Grouping parentheses leave no node in a tree; they are
the only reason why a span does not begin with the token its tree is located at
(`Expression.place`, `Statement.place`).

`Reads p x Q` says that a step which succeeds at `p` took a span off the tokens
ahead that satisfies `Q` together with its result.
-/
import ScriptEngine.Proofs.Parser.Precedence

namespace ScriptEngine
namespace Grammar

mutual

inductive Expression : Level → List Token → Expr → Prop where
  | next {l ts e} : Expression l.next ts e → Expression l ts e
  | binary {l ts us left right} (op : BinaryOp) (t : Token) : op.level = l →
      Expression l ts left → BinaryOp.ofToken? t.kind = some op → Expression l.next us right →
      Expression l (ts ++ t :: us) (.binary op left right)
  | unary {ts e} (op : UnaryOp) (t : Token) : UnaryOp.ofToken? t.kind = some op →
      Expression .prefixed ts e → Expression .prefixed (t :: ts) (.unary t.location op e)
  | member {ts object} (dot name : Token) : Expression .member ts object → dot.kind = .dot →
      name.kind = .identifier →
      Expression .member (ts ++ [dot, name]) (.member object ⟨name.lexeme, name.location⟩)
  | method {ts us object args} (dot name : Token) : Expression .member ts object →
      dot.kind = .dot → name.kind = .identifier → Arguments us args →
      Expression .member (ts ++ dot :: name :: us)
        (.method object ⟨name.lexeme, name.location⟩ args)
  | number {value} (t : Token) : t.kind = .number → Decimal.read? t.lexeme = some value →
      Expression .primary [t] (.number t.location value)
  | string (t : Token) : t.kind = .string → Expression .primary [t] (.string t.location t.lexeme)
  | true_ (t : Token) : t.kind = .true_ → Expression .primary [t] (.bool t.location true)
  | false_ (t : Token) : t.kind = .false_ → Expression .primary [t] (.bool t.location false)
  | variable (t : Token) : t.kind = .identifier →
      Expression .primary [t] (.variable ⟨t.lexeme, t.location⟩)
  | call {ts args} (t : Token) : t.kind = .identifier → Arguments ts args →
      Expression .primary (t :: ts) (Parser.mkCall ⟨t.lexeme, t.location⟩ args)
  | group {ts e} (opening closing : Token) : opening.kind = .leftParen → Expression .or ts e →
      closing.kind = .rightParen → Expression .primary (opening :: ts ++ [closing]) e

inductive Arguments : List Token → List Expr → Prop where
  | empty (opening closing : Token) : opening.kind = .leftParen → closing.kind = .rightParen →
      Arguments [opening, closing] []
  | list {ts args} (opening : Token) : opening.kind = .leftParen → Items ts args →
      Arguments (opening :: ts) args

/-- The arguments of a list that is not empty, with the parenthesis that closes it. -/
inductive Items : List Token → List Expr → Prop where
  | last {ts e} (closing : Token) : Expression .or ts e → closing.kind = .rightParen →
      Items (ts ++ [closing]) [e]
  | more {ts us e args} (comma : Token) : Expression .or ts e → comma.kind = .comma →
      Items us args → Items (ts ++ comma :: us) (e :: args)

end

inductive Condition : List Token → Expr → Prop where
  | mk {ts e} (opening closing : Token) : opening.kind = .leftParen → Expression .or ts e →
      closing.kind = .rightParen → Condition (opening :: ts ++ [closing]) e

mutual

inductive Statement : List Token → Stmt → Prop where
  | branch {cs bs es condition thenBody elseBody} (keyword closing : Token) :
      keyword.kind = .if_ → Condition cs condition → Block bs thenBody →
      Alternative es elseBody → closing.kind = .end_ →
      Statement (keyword :: (cs ++ (bs ++ (es ++ [closing]))))
        (.branch keyword.location condition thenBody elseBody)
  | loop {cs bs condition body} (keyword closing : Token) :
      keyword.kind = .while_ → Condition cs condition → Block bs body → closing.kind = .end_ →
      Statement (keyword :: (cs ++ (bs ++ [closing]))) (.loop keyword.location condition body)
  | print {ts args} (keyword : Token) : keyword.kind = .print → Arguments ts args →
      Statement (keyword :: ts) (.print keyword.location false args)
  | println {ts args} (keyword : Token) : keyword.kind = .println → Arguments ts args →
      Statement (keyword :: ts) (.print keyword.location true args)
  | expr {ts e} : Expression .or ts e → Statement ts (.expr e)
  | assign {ts us target value} (equal : Token) : Expression .or ts (.variable target) →
      equal.kind = .equal → Expression .or us value →
      Statement (ts ++ equal :: us) (.assign target value)
  | setMember {ts us object name value} (equal : Token) :
      Expression .or ts (.member object name) → equal.kind = .equal → Expression .or us value →
      Statement (ts ++ equal :: us) (.setMember object name value)

inductive Alternative : List Token → Option (List Stmt) → Prop where
  | none : Alternative [] none
  | some {ts body} (keyword : Token) : keyword.kind = .else_ → Block ts body →
      Alternative (keyword :: ts) (some body)

inductive Block : List Token → List Stmt → Prop where
  | nil : Block [] []
  | separator {ts body} (t : Token) : t.kind = .semicolon → Block ts body → Block (t :: ts) body
  | statement {ts us s body} : Statement ts s → Block us body → Block (ts ++ us) (s :: body)

end

/-! ## Places -/

/-- The place of the first token of a span that is no opening parenthesis. -/
def place (ts : List Token) : Option Location :=
  (ts.find? fun t => t.kind ≠ .leftParen).map (·.location)

theorem place_cons {t : Token} (h : t.kind ≠ .leftParen) (ts : List Token) :
    place (t :: ts) = some t.location := by
  simp [place, h]

theorem place_append {ts : List Token} {l : Location} (h : place ts = some l)
    (us : List Token) : place (ts ++ us) = some l := by
  obtain ⟨t, ht, rfl⟩ := Option.map_eq_some_iff.mp h
  simp only [place, List.find?_append, ht, Option.some_or, Option.map_some]

theorem place_opening {t : Token} (h : t.kind = .leftParen) (ts : List Token) :
    place (t :: ts) = place ts := by
  simp [place, h]

theorem mkCall_location (callee : Ident) (args : List Expr) :
    (Parser.mkCall callee args).location = callee.location := by
  unfold Parser.mkCall
  split <;> rfl

theorem Expression.place : ∀ {l : Level} {ts : List Token} {e : Expr}, Expression l ts e →
    place ts = some e.location
  | _, _, _, .next h => h.place
  | _, _, _, .binary _ _ _ hl _ _ => place_append hl.place _
  | _, _, _, .unary op t ht _ => by
    refine place_cons ?_ _
    intro hk
    rw [hk] at ht
    cases ht
  | _, _, _, .member _ _ ho _ _ => place_append ho.place _
  | _, _, _, .method _ _ ho _ _ _ => place_append ho.place _
  | _, _, _, .number t ht _ => place_cons (by simp [ht]) _
  | _, _, _, .string t ht => place_cons (by simp [ht]) _
  | _, _, _, .true_ t ht => place_cons (by simp [ht]) _
  | _, _, _, .false_ t ht => place_cons (by simp [ht]) _
  | _, _, _, .variable t ht => place_cons (by simp [ht]) _
  | _, _, _, .call t ht _ => by
    rw [mkCall_location]
    exact place_cons (by simp [ht]) _
  | _, _, _, .group opening _ ho he _ => by
    rw [List.cons_append, place_opening ho]
    exact place_append he.place _

theorem Statement.place {ts : List Token} {s : Stmt} (h : Statement ts s) :
    place ts = some s.location := by
  cases h with
  | branch keyword _ hk => exact place_cons (by simp [hk]) _
  | loop keyword _ hk => exact place_cons (by simp [hk]) _
  | print keyword hk => exact place_cons (by simp [hk]) _
  | println keyword hk => exact place_cons (by simp [hk]) _
  | expr he => exact he.place
  | assign _ ht => exact place_append ht.place _
  | setMember _ ht => exact place_append ht.place _

end Grammar

namespace Parser

open Grammar

/-! ## Steps that read a span -/

/-- The tokens ahead, without their faults. -/
def tokens (p : Parser) : List Token := p.ahead.map (·.token)

def Reads {α : Type} (p : Parser) (x : Parse α) (Q : List Token → α → Prop) : Prop :=
  ∀ a q, x p = .ok a q → ∃ ts, p.tokens = ts ++ q.tokens ∧ Q ts a

theorem tokens_advance {p : Parser} (h : p.current.kind ≠ .eof) :
    p.tokens = p.current :: p.advance.tokens := by
  obtain ⟨s, rest, hs, hc⟩ := ahead_of_kind h
  simp [tokens, advance_ahead, hs, hc]

namespace Reads

variable {α β : Type} {p : Parser} {x : Parse α} {f : α → Parse β} {Q : List Token → α → Prop}
  {R : List Token → β → Prop}

theorem imp {Q' : List Token → α → Prop} (h : Reads p x Q) (hQ : ∀ ts a, Q ts a → Q' ts a) :
    Reads p x Q' := by
  intro a q hx
  obtain ⟨ts, ht, hq⟩ := h a q hx
  exact ⟨ts, ht, hQ ts a hq⟩

theorem bind (hx : Reads p x Q)
    (hf : ∀ a q ts, x p = .ok a q → Q ts a → Reads q (f a) fun us b => R (ts ++ us) b) :
    Reads p (x >>= f) R := by
  intro b r h
  rw [bind_apply] at h
  split at h
  · next a q hq =>
    obtain ⟨ts, ht, hts⟩ := hx a q hq
    obtain ⟨us, hu, hus⟩ := hf a q ts hq hts b r h
    exact ⟨ts ++ us, by rw [ht, hu, List.append_assoc], hus⟩
  · cases h

theorem get_bind {f : Parser → Parse β} (h : Reads p (f p) R) : Reads p (get >>= f) R := h

theorem pure {a : α} (h : Q [] a) : Reads p (pure a) Q := by
  intro b q hq
  cases hq
  exact ⟨[], rfl, h⟩

theorem throw {e : SyntaxError} : Reads p (throw e : Parse α) Q := by
  intro b q hq
  cases hq

theorem failHere {fault : TokenKind → SyntaxFault} : Reads p (failHere fault : Parse α) Q := by
  intro b q hq
  cases hq

theorem giveUp : Reads p (giveUp : Parse α) Q := by
  intro b q hq
  cases hq

theorem take (h : p.current.kind ≠ .eof) :
    Reads p take fun ts t => ts = [t] ∧ t = p.current := by
  intro t q hq
  cases hq
  exact ⟨[p.current], tokens_advance h, rfl, rfl⟩

theorem eat {kind : TokenKind} (hk : kind ≠ .eof) :
    Reads p (eat kind) fun ts found => match found with
      | some t => ts = [t] ∧ t.kind = kind
      | none => ts = [] := by
  intro found q hq
  unfold Parser.eat at hq
  split at hq <;> cases hq
  · next hc =>
    have hkind := current_of_check hc
    exact ⟨[p.current], tokens_advance (by rw [hkind]; exact hk), rfl, hkind⟩
  · exact ⟨[], rfl, rfl⟩

theorem expect {kind : TokenKind} (hk : kind ≠ .eof) :
    Reads p (expect kind) fun ts t => ts = [t] ∧ t.kind = kind := by
  intro t q hq
  unfold Parser.expect at hq
  split at hq <;> cases hq
  next hc =>
  have hkind := current_of_check hc
  exact ⟨[p.current], tokens_advance (by rw [hkind]; exact hk), rfl, hkind⟩

theorem modify {g : Parser → Parser} (h : (g p).ahead = p.ahead) :
    Reads p (modify g : Parse PUnit) fun ts _ => ts = [] := by
  intro a q hq
  cases hq
  exact ⟨[], by simp [tokens, h], rfl⟩

theorem ite {c : Prop} [Decidable c] {y : Parse α} (hx : c → Reads p x Q)
    (hy : ¬c → Reads p y Q) : Reads p (if c then x else y) Q := by
  split
  · exact hx ‹_›
  · exact hy ‹_›

theorem leaf {e : Expr} {Q : List Token → Expr → Prop} (h : p.current.kind ≠ .eof)
    (hQ : Q [p.current] e) : Reads p (leaf e) Q := by
  refine (Reads.take h).bind fun t q ts _ ht => ?_
  obtain ⟨rfl, rfl⟩ := ht
  exact .pure hQ

theorem memberName : Reads p memberName fun ts name =>
    ∃ t : Token, ts = [t] ∧ t.kind = .identifier ∧ name = ⟨t.lexeme, t.location⟩ := by
  refine .get_bind (.ite (fun hc => ?_) fun _ => .failHere)
  have hkind := current_of_check hc
  refine (Reads.take (by rw [hkind]; decide)).bind fun t q ts _ ht => ?_
  obtain ⟨rfl, rfl⟩ := ht
  exact .pure ⟨_, rfl, hkind, rfl⟩

end Reads

end Parser
end ScriptEngine
