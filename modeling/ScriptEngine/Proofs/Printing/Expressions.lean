/-
Parsing the words of an expression.

`Shows p words` says that the words are the tokens ahead of the parser, all on the line
of the last token, and that no message so far tells of an error or of a separator too
many.  On one line no token begins a line, so the next word alone decides whether a
chain goes on (`Shows.holds?`).

The words of an expression are read at every power up to its own, if the word behind
them holds it less tightly than its last operand is held (`reach`).  What is read is
the operand of a chain that may go on (`Chained`), because the words of an operand on
the left are read by the chain of the operator behind it.
-/
import ScriptEngine.Proofs.Parser.Lockstep
import ScriptEngine.Proofs.Printing.Lexing

namespace ScriptEngine
namespace Printing

open Lexer (Piece)
open ScriptEngine.Parser

/-! ## Parsers before words -/

/-- Only warnings, and none about a redundant separator. -/
def Quiet (ds : Diagnostics) : Prop :=
  ∀ d ∈ ds.messages, d.severity = .warning ∧ d.code ≠ "W002"

/-- Words have no fault to report. -/
theorem Spells.reveal {ahead : List Scanned} {words : List Piece} (h : Spells ahead words)
    (ds : Diagnostics) : reveal ahead ds = ds := by
  cases words with
  | nil =>
    obtain rfl := List.map_eq_nil_iff.mp h
    rfl
  | cons w words =>
    obtain ⟨⟨token, fault⟩, rest, rfl, ht, -⟩ := List.map_eq_cons_iff.mp h
    simp only [Prod.mk.injEq] at ht
    obtain ⟨-, -, rfl⟩ := ht
    rfl

structure Shows (p : Parser) (words : List Piece) : Prop where
  ahead : Spells p.ahead words
  line : ∀ s ∈ p.ahead, s.token.location.line = p.previous.line
  quiet : Quiet p.diagnostics

namespace Shows

variable {p : Parser} {w : Piece} {words : List Piece}

theorem cons (h : Shows p (w :: words)) : ∃ s rest, p.ahead = s :: rest ∧
    s.token.kind = w.kind ∧ s.token.lexeme = w.lexeme ∧ Spells rest words := by
  obtain ⟨s, rest, hahead, hs, hrest⟩ := List.map_eq_cons_iff.mp h.ahead
  simp only [Prod.mk.injEq] at hs
  exact ⟨s, rest, hahead, hs.1, hs.2.1, hrest⟩

theorem kind (h : Shows p (w :: words)) : p.current.kind = w.kind := by
  obtain ⟨s, rest, hahead, hkind, -⟩ := h.cons
  simp [current, hahead, hkind]

theorem lexeme (h : Shows p (w :: words)) : p.current.lexeme = w.lexeme := by
  obtain ⟨s, rest, hahead, -, hlexeme, -⟩ := h.cons
  simp [current, hahead, hlexeme]

theorem check (h : Shows p (w :: words)) (kind : TokenKind) :
    p.check kind = decide (w.kind = kind) := by rw [Parser.check, h.kind]

theorem not_atLineStart (h : Shows p (w :: words)) : ¬ p.atLineStart = true := by
  obtain ⟨s, rest, hahead, -⟩ := h.cons
  have hline := h.line s (by simp [hahead])
  simp [atLineStart, current, hahead, hline]

theorem next (h : Shows p (w :: words)) : Shows p.advance words := by
  obtain ⟨s, rest, hahead, -, -, hrest⟩ := h.cons
  have hline := h.line s (by simp [hahead])
  have hadvance : p.advance = ⟨rest, p.finish, s.token.location, reveal rest p.diagnostics,
      p.openBlocks, p.nesting⟩ := by simp [advance, hahead]
  rw [hadvance, hrest.reveal]
  refine ⟨hrest, fun t ht => ?_, h.quiet⟩
  show t.token.location.line = s.token.location.line
  rw [hline]
  exact h.line t (by simp [hahead, ht])

theorem length (h : Shows p words) : p.ahead.length = words.length := by
  simpa using congrArg List.length h.ahead

theorem nest (h : Shows p words) (n : Nat) : Shows { p with nesting := n } words :=
  ⟨h.ahead, h.line, h.quiet⟩

theorem blocks (h : Shows p words) (n : Nat) : Shows { p with openBlocks := n } words :=
  ⟨h.ahead, h.line, h.quiet⟩

end Shows

/-! ## Steps over words -/

/-- The step gives a result of the kind and stops before the words. -/
def Reads {α : Type} (x : Parse α) (p : Parser) (R : α → Prop) (words : List Piece) : Prop :=
  ∃ a q, x p = .ok a q ∧ R a ∧ Shows q words

namespace Reads

variable {α β : Type} {p : Parser} {w : Piece} {words rest : List Piece} {R : α → Prop}
  {S : β → Prop}

theorem bind {x : Parse α} {f : α → Parse β} (h : Reads x p R words)
    (hf : ∀ a q, R a → Shows q words → Reads (f a) q S rest) : Reads (x >>= f) p S rest := by
  obtain ⟨a, q, hx, ha, hq⟩ := h
  obtain ⟨b, r, hr, hb⟩ := hf a q ha hq
  exact ⟨b, r, by rw [bind_apply, hx]; exact hr, hb⟩

theorem pure {a : α} (hp : Shows p words) (ha : R a) : Reads (pure a) p R words :=
  ⟨a, p, rfl, ha, hp⟩

theorem get_bind {f : Parser → Parse α} (h : Reads (f p) p R words) :
    Reads (get >>= f) p R words := h

theorem take_bind {f : Token → Parse α} (hp : Shows p (w :: words))
    (h : Shows p.advance words → Reads (f p.current) p.advance R rest) :
    Reads (take >>= f) p R rest := h hp.next

theorem modify_bind {m : Parser → Parser} {f : PUnit → Parse α}
    (h : Reads (f ⟨⟩) (m p) R words) : Reads (modify m >>= f) p R words := h

theorem expect_bind {kind : TokenKind} {f : Token → Parse α} (hp : Shows p (w :: words))
    (hw : w.kind = kind) (h : Shows p.advance words → Reads (f p.current) p.advance R rest) :
    Reads (expect kind >>= f) p R rest := by
  have hexpect : expect kind p = .ok p.current p.advance := by
    rw [expect, if_pos (by simpa [hp.check] using hw)]
  unfold Reads
  rw [bind_apply, hexpect]
  exact h hp.next

theorem eat_bind {kind : TokenKind} {f : Option Token → Parse α} (hp : Shows p (w :: words))
    (hw : w.kind = kind)
    (h : Shows p.advance words → Reads (f (some p.current)) p.advance R rest) :
    Reads (eat kind >>= f) p R rest := by
  have heat : eat kind p = .ok (some p.current) p.advance := by
    rw [eat, if_pos (by simpa [hp.check] using hw)]
  unfold Reads
  rw [bind_apply, heat]
  exact h hp.next

theorem eat_bind_other {kind : TokenKind} {f : Option Token → Parse α}
    (hp : Shows p (w :: words)) (hw : w.kind ≠ kind) (h : Reads (f none) p R rest) :
    Reads (eat kind >>= f) p R rest := by
  have heat : eat kind p = .ok none p := by
    rw [eat, if_neg (by simpa [hp.check] using hw)]
  unfold Reads
  rw [bind_apply, heat]
  exact h

end Reads

/-! ## What may follow an expression -/

/-- How tightly a word holds the expression before it, if it goes on with it. -/
def holding? (kind : TokenKind) : Option Nat :=
  if kind = .dot then some memberPower else (BinaryOp.ofToken? kind).map BinaryOp.leftPower

section
variable {p : Parser} {w : Piece} {words : List Piece}

theorem Shows.operator? (h : Shows p (w :: words)) :
    Layered.operator? p = BinaryOp.ofToken? w.kind := by
  unfold Layered.operator?
  rw [h.kind]
  cases BinaryOp.ofToken? w.kind with
  | none => rfl
  | some op => exact if_neg fun hstart => h.not_atLineStart hstart.2

theorem Shows.holds? (h : Shows p (w :: words)) : Parser.holds? p = holding? w.kind := by
  unfold Parser.holds? holding?
  rw [h.check, h.operator?]
  by_cases hdot : w.kind = .dot <;> simp [hdot]

/-- The word holds nothing as tightly as the power, and it opens no argument list. -/
structure Ends (power : Nat) (w : Piece) : Prop where
  looser : ∀ s, holding? w.kind = some s → s < power
  closed : w.kind ≠ .leftParen

theorem Ends.mono {k m : Nat} (h : Ends k w) (hkm : k ≤ m) : Ends m w :=
  ⟨fun s hs => Nat.lt_of_lt_of_le (h.looser s hs) hkm, h.closed⟩

theorem ends_of_none {k : Nat} (h : holding? w.kind = none)
    (hparen : w.kind ≠ .leftParen) : Ends k w := by
  refine ⟨fun s hs => ?_, hparen⟩
  rw [h] at hs
  cases hs

theorem Shows.halts {k : Nat} (h : Shows p (w :: words)) (hw : Ends k w) : Halts k p := by
  intro s hs
  rw [h.holds?] at hs
  exact hw.looser s hs

end

/-- A word behind an expression leaves its last operand alone if it holds less tightly than
this. -/
def reach : Expr → Nat
  | .binary op _ _ => op.rightPower
  | .unary .. => UnaryOp.power
  | _ => memberPower + 1

theorem power_le_reach (e : Expr) : power e ≤ reach e := by
  cases e <;> simp [power, reach, BinaryOp.rightPower]

theorem leftPower_lt_unary (op : BinaryOp) : op.leftPower < UnaryOp.power := by
  cases op <;> decide

theorem holding?_binary (op : BinaryOp) :
    holding? (word op.kind op.text).kind = some op.leftPower := by
  cases op <;> rfl

theorem ends_binary {op : BinaryOp} {e : Expr} (h : op.leftPower ≤ power e) :
    Ends (reach e) (word op.kind op.text) := by
  refine ⟨fun s hs => ?_, by cases op <;> decide⟩
  rw [holding?_binary] at hs
  cases hs
  have hop := leftPower_lt_unary op
  cases e with
  | binary inner => exact Nat.lt_succ_of_le h
  | unary => exact hop
  | _ => exact Nat.lt_succ_of_le h

theorem ends_dot {e : Expr} (h : memberPower ≤ power e) : Ends (reach e) (word .dot ".") := by
  refine ⟨fun s hs => ?_, by decide⟩
  cases hs
  cases e with
  | binary inner =>
    have hinner := leftPower_lt_unary inner
    have hloose : UnaryOp.power < memberPower := by decide
    change memberPower ≤ inner.leftPower at h
    omega
  | unary =>
    have hloose : UnaryOp.power < memberPower := by decide
    exact absurd h (Nat.not_le.mpr hloose)
  | _ => exact Nat.lt_succ_self _

/-! ## Expressions as operands of chains -/

section
variable (spell : Location → Float → String)

/-- The parser reads the expression and is in the chain behind it. -/
def Chained (k : Nat) (e : Expr) (p : Parser) (words : List Piece) : Prop :=
  ∃ e' q, expr k p = chain k e' q ∧ SameExpr nowhere e e' ∧ Shows q words

/-- The words of the expression are read, whatever can follow them. -/
def Readable (e : Expr) : Prop := ∀ {k : Nat} {p : Parser} {w : Piece} {rest : List Piece},
  k ≤ power e → Ends (reach e) w → Shows p (exprWords spell e ++ w :: rest) →
    Chained k e p (w :: rest)

variable {spell} {e : Expr} {k : Nat} {p : Parser} {w : Piece} {words rest : List Piece}

theorem Chained.of_operand (h : Reads operand p (SameExpr nowhere e) words) :
    Chained k e p words := by
  obtain ⟨e', q, hoperand, hsame, hq⟩ := h
  refine ⟨e', q, ?_, hsame, hq⟩
  rw [expr_apply, bind_apply, hoperand]

theorem Chained.reads (h : Chained k e p (w :: rest)) (hw : Ends k w) :
    Reads (expr k) p (SameExpr nowhere e) (w :: rest) := by
  obtain ⟨e', q, hexpr, hsame, hq⟩ := h
  refine ⟨e', q, ?_, hsame, hq⟩
  rw [hexpr, chain_halt (hq.halts hw)]

/-- An expression before a word that ends every chain. -/
theorem Readable.reads (h : Readable spell e) (hp : Shows p (exprWords spell e ++ w :: rest))
    (hw : holding? w.kind = none) (hparen : w.kind ≠ .leftParen) :
    Reads (expr 0) p (SameExpr nowhere e) (w :: rest) :=
  (h (Nat.zero_le _) (ends_of_none hw hparen) hp).reads (ends_of_none hw hparen)

theorem reads_operand {R : Expr → Prop} (h : Reads settled.operandBody p R words) :
    Reads operand p R words := by
  rw [operand_eq]
  exact h

/-- In parentheses an expression is an operand of any power. -/
theorem Readable.parenthesized (h : Readable spell e)
    (hp : Shows p (opening :: (exprWords spell e ++ closing :: rest))) :
    Reads operand p (SameExpr nowhere e) rest := by
  apply reads_operand
  apply Reads.get_bind
  dsimp only
  rw [hp.kind]
  refine .take_bind hp fun hp => .modify_bind ?_
  refine (h.reads (hp.nest _) rfl (by decide)).bind fun inner q hinner hq => ?_
  exact .expect_bind hq rfl fun hq => .modify_bind (.pure (hq.nest _) hinner)

theorem Readable.grouped (h : Readable spell e) {needed : Nat} (hk : k ≤ needed)
    (hw : needed ≤ power e → Ends (reach e) w)
    (hp : Shows p (grouped needed e (exprWords spell e) ++ w :: rest)) :
    Chained k e p (w :: rest) := by
  unfold Printing.grouped at hp
  split at hp
  · refine .of_operand (h.parenthesized ?_)
    simpa using hp
  · next hloose =>
    have hpower := Nat.not_lt.mp hloose
    exact h (Nat.le_trans hk hpower) (hw hpower) hp

/-! ## Leaves -/

theorem readable_leaf {t : Piece} (hwords : exprWords spell e = [t])
    (h : ∀ {p w rest}, Ends (reach e) w → Shows p (t :: w :: rest) →
      Reads operand p (SameExpr nowhere e) (w :: rest)) : Readable spell e := by
  intro k p w rest _ hw hp
  rw [hwords] at hp
  exact .of_operand (h hw hp)

theorem readable_number {l : Location} {value : Float}
    (hvalue : Decimal.read? (spell l value) = some value) : Readable spell (.number l value) := by
  refine readable_leaf rfl fun {p _ _} _ hp => reads_operand (.get_bind ?_)
  dsimp only
  rw [hp.kind]
  have hlexeme : p.current.lexeme = spell l value := hp.lexeme
  refine .take_bind hp fun hp => ?_
  rw [hlexeme, hvalue]
  exact .pure hp rfl

theorem readable_bool {l : Location} {value : Bool} : Readable spell (.bool l value) := by
  cases value
  all_goals
    refine readable_leaf rfl fun _ hp => reads_operand (.get_bind ?_)
    dsimp only
    rw [hp.kind]
    exact .take_bind hp fun hp => .pure hp rfl

theorem readable_string {l : Location} {value : String} : Readable spell (.string l value) := by
  refine readable_leaf rfl fun {p _ _} _ hp => reads_operand (.get_bind ?_)
  dsimp only
  rw [hp.kind]
  have hlexeme : p.current.lexeme = value := hp.lexeme
  refine .take_bind hp fun hp => .pure hp ?_
  rw [hlexeme]
  rfl

theorem readable_variable {name : Ident} : Readable spell (.variable name) := by
  refine readable_leaf rfl fun {p _ _} hw hp => reads_operand (.get_bind ?_)
  dsimp only
  rw [hp.kind]
  have hlexeme : p.current.lexeme = name.name := hp.lexeme
  refine .take_bind hp fun hp => .get_bind ?_
  rw [if_neg fun hcall => hw.closed (by simpa [hp.check] using hcall.1)]
  refine .pure hp ?_
  simp only [SameExpr, Expr.relocate, Ident.relocate, hlexeme]

/-! ## Operators and members -/

/-- The word behind an expression extends it. -/
theorem Chained.extend {s : Nat} {e₂ : Expr} (h : Chained k e p (w :: words))
    (hw : holding? w.kind = some s) (hk : k ≤ s)
    (hx : ∀ e' q, SameExpr nowhere e e' → Shows q (w :: words) →
      Reads (Parser.extend e') q (SameExpr nowhere e₂) rest) : Chained k e₂ p rest := by
  obtain ⟨e', q, hexpr, hsame, hq⟩ := h
  obtain ⟨e'', r, hextend, hsame, hr⟩ := hx e' q hsame hq
  refine ⟨e'', r, ?_, hsame, hr⟩
  rw [hexpr, chain_extend (hq.holds?.trans hw) hk, bind_apply, hextend]

theorem readable_binary {op : BinaryOp} {left right : Expr} (hleft : Readable spell left)
    (hright : Readable spell right) : Readable spell (.binary op left right) := by
  intro k p w rest hk hw hp
  have hp : Shows p (Printing.grouped op.leftPower left (exprWords spell left) ++
      word op.kind op.text ::
        (Printing.grouped op.rightPower right (exprWords spell right) ++ w :: rest)) := by
    simpa [exprWords] using hp
  have hdot : (word op.kind op.text).kind ≠ .dot := by cases op <;> decide
  have hchained := hleft.grouped hk ends_binary hp
  refine hchained.extend (holding?_binary op) hk fun left' q hleft' hq => ?_
  apply Reads.get_bind
  rw [if_neg (by simpa [hq.check] using hdot), hq.operator?]
  simp only [word, BinaryOp.ofToken?_kind]
  have hends : op.rightPower ≤ power right → Ends (reach right) w := fun hpower =>
    hw.mono (Nat.le_trans hpower (power_le_reach right))
  refine .take_bind hq fun hq => ?_
  refine ((hright.grouped (Nat.le_refl _) hends hq).reads hw).bind fun right' r hright' hr => ?_
  exact .pure hr (by simp only [SameExpr, Expr.relocate, hleft', hright'])

theorem readable_unary {l : Location} {op : UnaryOp} (h : Readable spell e) :
    Readable spell (.unary l op e) := by
  intro k p w rest _ hw hp
  have hp : Shows p (word op.kind op.text ::
      (Printing.grouped UnaryOp.power e (exprWords spell e) ++ w :: rest)) := by
    simpa [exprWords] using hp
  have hends : UnaryOp.power ≤ power e → Ends (reach e) w := fun hpower =>
    hw.mono (Nat.le_trans hpower (power_le_reach e))
  refine .of_operand (reads_operand (.get_bind ?_))
  dsimp only
  rw [hp.kind]
  cases op
  all_goals
    refine .take_bind hp fun hp => ?_
    refine ((h.grouped (Nat.le_refl _) hends hp).reads hw).bind fun e' q he hq => ?_
    exact .pure hq (by simp only [SameExpr, Expr.relocate, he])

theorem reads_memberName {name : Ident} (hp : Shows p (word .identifier name.name :: words)) :
    Reads memberName p (fun found => found.relocate nowhere = name.relocate nowhere) words := by
  have hlexeme : p.current.lexeme = name.name := hp.lexeme
  apply Reads.get_bind
  rw [if_pos (by simp [hp.check, word])]
  exact .take_bind hp fun hp => .pure hp (by simp only [Ident.relocate, hlexeme])

theorem readable_member {object : Expr} {name : Ident} (h : Readable spell object) :
    Readable spell (.member object name) := by
  intro k p w rest hk hw hp
  have hp : Shows p (Printing.grouped memberPower object (exprWords spell object) ++
      word .dot "." :: word .identifier name.name :: w :: rest) := by
    simpa [exprWords] using hp
  refine (h.grouped hk ends_dot hp).extend rfl hk fun object' q hobject hq => ?_
  apply Reads.get_bind
  rw [if_pos (by simp [hq.check, word])]
  refine .take_bind hq fun hq => (reads_memberName hq).bind fun name' r hname hr => .get_bind ?_
  rw [if_neg fun hcall => hw.closed (by simpa [hr.check] using hcall)]
  exact .pure hr (by simp only [SameExpr, Expr.relocate, hobject, hname])

/-! ## Argument lists -/

/-- Whether an expression can begin with a token of the kind. -/
def beginsExpr : TokenKind → Bool
  | .number | .string | .identifier | .true_ | .false_ | .leftParen | .minus | .not_ => true
  | _ => false

theorem grouped_first (needed : Nat) (e : Expr)
    (h : ∃ first more, words = first :: more ∧ beginsExpr first.kind = true) :
    ∃ first more, Printing.grouped needed e words = first :: more ∧
      beginsExpr first.kind = true := by
  unfold Printing.grouped
  split
  · exact ⟨opening, _, rfl, rfl⟩
  · exact h

variable (spell) in
theorem exprWords_first : ∀ e, ∃ first more, exprWords spell e = first :: more ∧
    beginsExpr first.kind = true
  | .number .. | .string .. | .variable _ | .call .. | .construct .. =>
    ⟨_, _, rfl, rfl⟩
  | .bool _ true | .bool _ false => ⟨_, _, rfl, rfl⟩
  | .unary _ .neg _ | .unary _ .not _ => ⟨_, _, rfl, rfl⟩
  | .binary op left _ => by
    obtain ⟨first, more, hwords, hfirst⟩ :=
      grouped_first op.leftPower left (exprWords_first left)
    exact ⟨first, _, by rw [exprWords, hwords]; rfl, hfirst⟩
  | .member object _ | .method object .. => by
    obtain ⟨first, more, hwords, hfirst⟩ :=
      grouped_first memberPower object (exprWords_first object)
    exact ⟨first, _, by rw [exprWords, hwords]; rfl, hfirst⟩

variable (spell) in
/-- The words of the arguments are read. -/
def ReadableArguments (args : List Expr) : Prop := ∀ {p : Parser} {rest : List Piece},
  Shows p (opening :: (argumentWords spell args ++ rest)) →
    Reads arguments p (SameArguments nowhere args) rest

variable (spell) in
/-- The words of the arguments are read behind another argument. -/
def ReadableMore (more : List Expr) : Prop := ∀ {e : Expr} {p : Parser} {rest : List Piece},
  Readable spell e → Shows p (exprWords spell e ++ (moreWords spell more ++ rest)) →
    Reads items p (SameArguments nowhere (e :: more)) rest

variable {args more : List Expr} {callee : Ident}

theorem readableMore_nil : ReadableMore spell [] := by
  intro e p rest he hp
  rw [items_eq]
  refine (he.reads hp rfl (by decide)).bind fun first q hfirst hq => ?_
  refine .eat_bind_other hq (by decide) (.eat_bind hq rfl fun hq => .pure hq ?_)
  simp only [SameArguments, relocateArguments, hfirst]

theorem readableMore_cons {f : Expr} (hf : Readable spell f) (h : ReadableMore spell more) :
    ReadableMore spell (f :: more) := by
  intro e p rest he hp
  have hp : Shows p (exprWords spell e ++
      word .comma "," :: (exprWords spell f ++ (moreWords spell more ++ rest))) := by
    simpa [moreWords] using hp
  rw [items_eq]
  refine (he.reads hp rfl (by decide)).bind fun first q hfirst hq => ?_
  refine .eat_bind hq rfl fun hq => (h hf hq).bind fun others r hothers hr => .pure hr ?_
  rw [SameArguments, relocateArguments, hfirst, hothers]
  rfl

theorem readableArguments_nil : ReadableArguments spell [] := by
  intro p rest hp
  rw [arguments_eq]
  refine .expect_bind hp rfl fun hp => .eat_bind hp rfl fun hp => .pure hp rfl

theorem readableArguments_cons (he : Readable spell e) (h : ReadableMore spell args) :
    ReadableArguments spell (e :: args) := by
  intro p rest hp
  rw [argumentWords, List.append_assoc] at hp
  rw [arguments_eq]
  refine .expect_bind hp rfl fun hp => ?_
  obtain ⟨first, words, hwords, hfirst⟩ := exprWords_first spell e
  have hshows := hp
  rw [hwords] at hshows
  have hparen : first.kind ≠ .rightParen := by
    intro hk
    rw [hk] at hfirst
    cases hfirst
  refine .eat_bind_other hshows hparen (.modify_bind ?_)
  refine (h he (hp.nest _)).bind fun args' q hargs hq => .modify_bind ?_
  exact .pure (hq.nest _) hargs

theorem readable_method {object : Expr} {name : Ident} (h : Readable spell object)
    (hargs : ReadableArguments spell args) : Readable spell (.method object name args) := by
  intro k p w rest hk hw hp
  have hp : Shows p (Printing.grouped memberPower object (exprWords spell object) ++
      word .dot "." :: word .identifier name.name :: opening ::
        (argumentWords spell args ++ w :: rest)) := by
    simpa [exprWords] using hp
  refine (h.grouped hk ends_dot hp).extend rfl hk fun object' q hobject hq => ?_
  apply Reads.get_bind
  rw [if_pos (by simp [hq.check, word])]
  refine .take_bind hq fun hq => (reads_memberName hq).bind fun name' r hname hr => .get_bind ?_
  rw [if_pos (by simp [hr.check, opening, word])]
  refine (hargs hr).bind fun args' t hargs ht => .pure ht ?_
  simp only [SameExpr, Expr.relocate, hobject, hname, hargs]

/-- A name with arguments makes a call or constructs an instance. -/
theorem reads_call (hargs : ReadableArguments spell args)
    (hp : Shows p (word .identifier callee.name :: opening :: (argumentWords spell args ++ rest))) :
    Reads operand p (SameExpr nowhere (mkCall callee args)) rest := by
  refine reads_operand (.get_bind ?_)
  dsimp only
  rw [hp.kind]
  have hlexeme : p.current.lexeme = callee.name := hp.lexeme
  refine .take_bind hp fun hp => .get_bind ?_
  rw [if_pos ⟨by simp [hp.check, opening, word], hp.not_atLineStart⟩]
  refine (hargs hp).bind fun args' q hargs hq => .pure hq (sameExpr_mkCall ?_ hargs)
  simp only [Ident.relocate, hlexeme]

theorem readable_call (hcallee : isClassName callee.name = false)
    (hargs : ReadableArguments spell args) : Readable spell (.call callee args) := by
  intro k p w rest _ _ hp
  have hp : Shows p (word .identifier callee.name :: opening ::
      (argumentWords spell args ++ w :: rest)) := by
    simpa [exprWords] using hp
  have hcall := reads_call hargs hp
  rw [mkCall, if_neg (by simp [hcallee])] at hcall
  exact .of_operand hcall

theorem readable_construct (hcallee : isClassName callee.name = true)
    (hargs : ReadableArguments spell args) : Readable spell (.construct callee args) := by
  intro k p w rest _ _ hp
  have hp : Shows p (word .identifier callee.name :: opening ::
      (argumentWords spell args ++ w :: rest)) := by
    simpa [exprWords] using hp
  have hcall := reads_call hargs hp
  rw [mkCall, if_pos hcallee] at hcall
  exact .of_operand hcall

end

/-! ## All expressions -/

section
variable (spell : Location → Float → String)

mutual

theorem readable : ∀ e, PrintableExpr spell e → Readable spell e
  | .number .., h => readable_number h.2
  | .bool .., _ => readable_bool
  | .string .., _ => readable_string
  | .variable _, _ => readable_variable
  | .binary _ left right, h => readable_binary (readable left h.1) (readable right h.2)
  | .unary _ _ e, h => readable_unary (readable e h)
  | .member object _, h => readable_member (readable object h.1)
  | .method object _ args, h =>
    readable_method (readable object h.1) (readableArguments args h.2.2)
  | .call _ args, h => readable_call h.2.1 (readableArguments args h.2.2)
  | .construct _ args, h => readable_construct h.2.1 (readableArguments args h.2.2)

theorem readableArguments : ∀ args, PrintableArguments spell args → ReadableArguments spell args
  | [], _ => readableArguments_nil
  | e :: rest, h => readableArguments_cons (readable e h.1) (readableMore rest h.2)

theorem readableMore : ∀ more, PrintableArguments spell more → ReadableMore spell more
  | [], _ => readableMore_nil
  | e :: rest, h => readableMore_cons (readable e h.1) (readableMore rest h.2)

end
end
end Printing
end ScriptEngine
