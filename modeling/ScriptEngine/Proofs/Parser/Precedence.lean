/-
Parsing by binding powers is parsing by the layered grammar.

The parser of `Parser/Grammar.lean` and the one of `Layered` give one answer for
every power, at every parser: the same tree or the same error, with the same
tokens consumed, the same messages and the same counters.  Both start at the level
that the power selects (`Level.ofPower`), and neither ever answers that its steps
are used up, so the equality is one of unbounded parsers.

The proof replaces a function of the layered grammar by the settled function of
the same meaning, by induction on the steps (`Faithful`).  A level is the
expression of its power (`Level.power`), the operators of a level are the rest of
a chain behind an expression of the next level, and members are a chain at the
power of prefix operators.
-/
import ScriptEngine.Proofs.Parser.Chains

namespace ScriptEngine

namespace Level

/-- The levels of binary operators. -/
def IsBinary : Level → Prop
  | or | and | equality | relational | additive | multiplicative => True
  | prefixed | member | primary | bare => False

/-- The levels that begin with no prefix operator. -/
def IsUnsigned : Level → Prop
  | member | primary => True
  | _ => False

/-- A power that starts at the level. -/
def power : Level → Nat
  | or => 1
  | and => 3
  | equality => 5
  | relational => 7
  | additive => 9
  | multiplicative => 11
  | prefixed | member => 13
  | primary | bare => 16

/-- The steps that a level needs for its own calls at one token. -/
def height : Level → Nat
  | or => 10
  | and => 9
  | equality => 8
  | relational => 7
  | additive => 6
  | multiplicative => 5
  | prefixed => 4
  | member | bare => 3
  | primary => 2

theorem power_next {l : Level} (h : l.IsBinary) : l.next.power = l.power + 2 := by
  cases l <;> first | rfl | exact h.elim

theorem height_next {l : Level} (h : l.IsBinary) : l.next.height + 1 = l.height := by
  cases l <;> first | rfl | exact h.elim

theorem power_of_isBinary {l : Level} (h : l.IsBinary) : l.power ≤ 11 := by
  cases l <;> first | decide | exact h.elim

theorem next_signed {l : Level} (h : l.IsBinary) : ¬ l.next.IsUnsigned := by
  cases l <;> first | exact id | exact h.elim

end Level

namespace BinaryOp

theorem leftPower_eq (op : BinaryOp) : op.leftPower = op.level.power := by
  cases op <;> rfl

theorem level_isBinary (op : BinaryOp) : op.level.IsBinary := by
  cases op <;> trivial

/-- The powers of two levels of binary operators differ by two at least. -/
theorem level_eq_of_power {l : Level} (op : BinaryOp) (hl : l.IsBinary)
    (hle : l.power ≤ op.level.power) (hlt : op.level.power < l.power + 2) : op.level = l := by
  revert hle hlt
  cases op <;> cases l <;> first | exact hl.elim | decide

end BinaryOp

namespace Parser

open Layered (operator?)

/-- A token holds the expression before it with the power of its operator or with that of a
member access. -/
theorem holds?_eq_some {p : Parser} {s : Nat} (h : holds? p = some s) :
    s = memberPower ∨ ∃ op, operator? p = some op ∧ s = op.level.power := by
  unfold holds? at h
  split at h
  · cases h
    exact .inl rfl
  · obtain ⟨op, hop, rfl⟩ := Option.map_eq_some_iff.mp h
    exact .inr ⟨op, hop, op.leftPower_eq⟩

/-- No token holds between a power and that of the level it starts at. -/
theorem expr_ofPower (k : Nat) : expr k = expr (Level.ofPower k).power := by
  funext p
  refine expr_congr fun q s hs => ?_
  have hs : s = 15 ∨ s = 1 ∨ s = 3 ∨ s = 5 ∨ s = 7 ∨ s = 9 ∨ s = 11 := by
    rcases holds?_eq_some hs with rfl | ⟨op, -, rfl⟩
    · exact .inl rfl
    · cases op <;> simp [BinaryOp.level, Level.power]
  unfold Level.ofPower
  repeat' split
  all_goals simp only [Level.power]; omega

/-- The right side of an operator is an expression of the next level. -/
theorem expr_rightPower (op : BinaryOp) : expr op.rightPower = expr op.level.next.power := by
  rw [expr_ofPower]
  cases op <;> rfl

/-! ## A level and its parts -/

/-- A level of binary operators begins with an expression of the next level. -/
theorem expr_binary {l : Level} (h : l.IsBinary) (p : Parser) :
    expr l.power p = (expr l.next.power >>= chain l.power) p := by
  refine expr_split ?_
  rw [Level.power_next h]
  omega

/-- Behind an expression of the next level, the chain of a level goes on with an operator of
that level or stops. -/
theorem chain_binary {l : Level} {p : Parser} (h : l.IsBinary) (hp : Halts l.next.power p)
    (left : Expr) :
    chain l.power left p =
      match operator? p with
      | some op =>
        if op.level = l then
          (do
            let _ ← take
            let right ← expr op.level.next.power
            chain l.power (.binary op left right) : Parse Expr) p
        else .ok left p
      | none => .ok left p := by
  have hl := Level.power_of_isBinary h
  have hnext := Level.power_next h
  have hdot : ¬ p.check .dot = true := by
    intro hdot
    have := hp memberPower (by simp [holds?, hdot])
    simp only [memberPower] at this
    omega
  cases hop : operator? p with
  | none =>
    refine chain_halt (fun s hs => ?_) left
    simp [holds?, hdot, hop] at hs
  | some op =>
    have hs : holds? p = some op.level.power := by
      simp [holds?, hdot, hop, op.leftPower_eq]
    have hlt := hp _ hs
    dsimp only
    by_cases hlevel : op.level = l
    · rw [if_pos hlevel, chain_extend hs (Nat.le_of_eq (by rw [hlevel]))]
      simp only [extend, bind_assoc_apply, get_bind_apply, if_neg hdot, hop, expr_rightPower]
      refine bind_congr rfl fun _ q _ => ?_
      rw [bind_assoc_apply]
      rfl
    · rw [if_neg hlevel]
      refine chain_halt (fun s hs' => ?_) left
      rw [hs] at hs'
      cases hs'
      by_cases hle : l.power ≤ op.level.power
      · exact absurd (op.level_eq_of_power h hle (by omega)) hlevel
      · omega

/-- Behind a primary expression, the chain of the prefixed level is its members. -/
theorem chain_members (object : Expr) (p : Parser) :
    chain Level.member.power object p =
      (do
        match ← eat .dot with
        | none => pure object
        | some _ =>
          let name ← memberName
          if (← get).check .leftParen then
            let args ← arguments
            chain Level.member.power (.method object name args)
          else chain Level.member.power (.member object name) : Parse Expr) p := by
  by_cases hdot : p.check .dot = true
  · have hs : holds? p = some memberPower := by simp [holds?, hdot]
    have heat : eat .dot p = .ok (some p.current) p.advance := by simp [eat, hdot]
    rw [chain_extend hs (by decide), bind_apply (eat .dot), heat]
    simp only [extend, bind_assoc_apply, get_bind_apply, if_pos hdot, take_bind_apply]
    refine bind_congr rfl fun name q _ => ?_
    rw [bind_assoc_apply, get_bind_apply, get_bind_apply]
    by_cases hp : q.check .leftParen = true
    · rw [if_pos hp, if_pos hp, bind_assoc_apply]
      rfl
    · rw [if_neg hp, if_neg hp]
      rfl
  · have heat : eat .dot p = .ok none p := by simp [eat, hdot]
    rw [bind_apply, heat]
    refine chain_halt (fun s hs => ?_) object
    simp only [holds?, if_neg hdot] at hs
    obtain ⟨op, -, rfl⟩ := Option.map_eq_some_iff.mp hs
    have hle : op.level.power ≤ 11 := Level.power_of_isBinary op.level_isBinary
    have hmember : Level.member.power = 13 := rfl
    rw [op.leftPower_eq]
    omega

/-- Behind a prefix operator stands a prefixed expression, and nothing of it is left over. -/
theorem operand_signed {op : UnaryOp} {p : Parser}
    (h : UnaryOp.ofToken? p.current.kind = some op) :
    operand p = (do
      let _ ← take
      let e ← expr Level.prefixed.power
      pure (.unary p.current.location op e) : Parse Expr) p := by
  rw [operand_eq]
  simp only [Calls.operandBody, get_bind_apply]
  cases hk : p.current.kind <;> rw [hk] at h <;> cases h <;> rfl

/-- An expression at least as tight as the prefixed level that begins with a prefix operator. -/
theorem expr_signed {op : UnaryOp} {k : Nat} {p : Parser} (hk : Level.prefixed.power ≤ k)
    (h : UnaryOp.ofToken? p.current.kind = some op) :
    expr k p = (do
      let _ ← take
      let e ← expr Level.prefixed.power
      pure (.unary p.current.location op e) : Parse Expr) p := by
  rw [expr_apply, bind_apply, operand_signed h, ← bind_apply, bind_assoc_apply]
  refine bind_congr rfl fun _ q _ => ?_
  rw [bind_assoc_apply]
  refine bind_congr rfl fun e r hr => ?_
  exact chain_halt ((expr_halts hr).mono hk) _

/-- An expression at the power of a primary one is an operand alone. -/
theorem expr_primary (p : Parser) : expr Level.primary.power p = operand p := by
  rw [expr_apply, bind_apply]
  cases operand p with
  | error e q => rfl
  | ok e q =>
    refine chain_halt (fun s hs => ?_) e
    have hprimary : Level.primary.power = 16 := rfl
    rcases holds?_eq_some hs with rfl | ⟨op, -, rfl⟩
    · decide
    · have := Level.power_of_isBinary op.level_isBinary
      omega

/-! ## The layered parser -/

namespace Layered

theorem levelIn_binary (n : Nat) {l : Level} (hl : l.IsBinary) :
    levelIn (n + 1) l = (do
      let left ← levelIn n l.next
      joinIn n l left) := by
  cases l <;> first | exact hl.elim | (rw [levelIn] <;> intro he <;> cases he)

/-- With `n` steps, where these are enough, every function of the layered grammar is the settled
function of its meaning. -/
structure Faithful (n : Nat) : Prop where
  level : ∀ l p, 12 * p.ahead.length + l.height ≤ n →
    (l.IsUnsigned → UnaryOp.ofToken? p.current.kind = none) → levelIn n l p = expr l.power p
  join : ∀ l p left, l.IsBinary → Halts l.next.power p → 12 * p.ahead.length + 1 ≤ n →
    joinIn n l left p = chain l.power left p
  members : ∀ p object, 12 * p.ahead.length + 1 ≤ n →
    membersIn n object p = chain Level.member.power object p
  primary : ∀ p, UnaryOp.ofToken? p.current.kind = none → 12 * p.ahead.length + 1 ≤ n →
    primaryIn n p = operand p
  arguments : ∀ p, 12 * p.ahead.length + 1 ≤ n → argumentsIn n p = arguments p
  items : ∀ p, 12 * p.ahead.length + 11 ≤ n → itemsIn n p = items p

namespace Faithful

variable {n : Nat} (h : Faithful n)
include h

theorem binary_succ {l : Level} {p : Parser} (hl : l.IsBinary)
    (hn : 12 * p.ahead.length + l.height ≤ n + 1) : levelIn (n + 1) l p = expr l.power p := by
  have hheight := Level.height_next hl
  have hlevel : levelIn n l.next p = expr l.next.power p :=
    h.level l.next p (by omega) fun hu => absurd hu (Level.next_signed hl)
  rw [levelIn_binary n hl, expr_binary hl]
  refine bind_congr hlevel fun e q hq => ?_
  have hlen := ((settled_tidy.expr p _).ok hq).2
  exact h.join l q e hl (expr_halts hq) (by omega)

theorem signed_succ {op : UnaryOp} {p : Parser} (hn : 12 * p.ahead.length ≤ n + 1)
    (hop : UnaryOp.ofToken? p.current.kind = some op) :
    (do
      let _ ← take
      let operand ← levelIn n .prefixed
      pure (.unary p.current.location op operand) : Parse Expr) p =
    (do
      let _ ← take
      let e ← expr Level.prefixed.power
      pure (.unary p.current.location op e) : Parse Expr) p := by
  have hk : p.current.kind ≠ .eof := by
    intro hk
    rw [hk] at hop
    cases hop
  refine bind_congr rfl fun t q hq => ?_
  have hlen := ((Orderly.take_kind hk).ok hq).2
  have hheight : Level.prefixed.height = 4 := rfl
  exact bind_congr (h.level .prefixed q (by omega) (by intro hu; cases hu)) fun _ _ _ => rfl

theorem prefixed_succ {p : Parser} (hn : 12 * p.ahead.length + Level.prefixed.height ≤ n + 1) :
    levelIn (n + 1) .prefixed p = expr Level.prefixed.power p := by
  have hheight : Level.prefixed.height = Level.member.height + 1 := rfl
  rw [levelIn, get_bind_apply]
  cases hop : UnaryOp.ofToken? p.current.kind with
  | some op =>
    rw [expr_signed (Nat.le_refl _) hop]
    exact h.signed_succ (by omega) hop
  | none => exact h.level .member p (by omega) fun _ => hop

theorem bare_succ {p : Parser} (hn : 12 * p.ahead.length + Level.bare.height ≤ n + 1) :
    levelIn (n + 1) .bare p = expr Level.bare.power p := by
  have hheight : Level.bare.height = Level.primary.height + 1 := rfl
  rw [levelIn, get_bind_apply]
  cases hop : UnaryOp.ofToken? p.current.kind with
  | some op =>
    rw [expr_signed (by decide) hop]
    exact h.signed_succ (by omega) hop
  | none => exact h.level .primary p (by omega) fun _ => hop

theorem member_succ {p : Parser} (hn : 12 * p.ahead.length + Level.member.height ≤ n + 1)
    (hop : UnaryOp.ofToken? p.current.kind = none) :
    levelIn (n + 1) .member p = expr Level.member.power p := by
  have hheight : Level.member.height = Level.primary.height + 1 := rfl
  have hprimary : levelIn n .primary p = operand p := by
    rw [h.level .primary p (by omega) fun _ => hop, expr_primary]
  rw [levelIn, expr_apply]
  refine bind_congr hprimary fun e q hq => ?_
  have hlen := ((settled_tidy.operand p).ok hq).2
  exact h.members q e (by omega)

theorem level_succ (l : Level) (p : Parser) (hn : 12 * p.ahead.length + l.height ≤ n + 1)
    (hl : l.IsUnsigned → UnaryOp.ofToken? p.current.kind = none) :
    levelIn (n + 1) l p = expr l.power p := by
  cases l with
  | prefixed => exact h.prefixed_succ hn
  | bare => exact h.bare_succ hn
  | member => exact h.member_succ hn (hl trivial)
  | primary =>
    have hheight : Level.primary.height = 2 := rfl
    rw [levelIn, expr_primary]
    exact h.primary p (hl trivial) (by omega)
  | or | and | equality | relational | additive | multiplicative => exact h.binary_succ trivial hn

theorem join_succ (l : Level) (p : Parser) (left : Expr) (hl : l.IsBinary)
    (hp : Halts l.next.power p) (hn : 12 * p.ahead.length + 1 ≤ n + 1) :
    joinIn (n + 1) l left p = chain l.power left p := by
  rw [joinIn, get_bind_apply, chain_binary hl hp]
  cases hop : operator? p with
  | none => rfl
  | some op =>
    dsimp only
    by_cases hlevel : op.level = l
    · subst hlevel
      rw [if_pos rfl, if_pos rfl]
      have hk : p.current.kind ≠ .eof := by
        intro hk
        have hof := (operator?_eq_some hop).1
        rw [hk] at hof
        cases hof
      refine bind_congr rfl fun t q hq => ?_
      have hlen := ((Orderly.take_kind hk).ok hq).2
      have hheight : op.level.next.height ≤ 10 := by cases op <;> decide
      have hright : levelIn n op.level.next q = expr op.level.next.power q :=
        h.level _ q (by omega) fun hu => absurd hu (Level.next_signed hl)
      refine bind_congr hright fun e r hr => ?_
      have hlen := ((settled_tidy.expr q _).ok hr).2
      exact h.join _ r _ hl (expr_halts hr) (by omega)
    · rw [if_neg hlevel, if_neg hlevel]
      rfl

theorem members_succ (p : Parser) (object : Expr) (hn : 12 * p.ahead.length + 1 ≤ n + 1) :
    membersIn (n + 1) object p = chain Level.member.power object p := by
  rw [membersIn, chain_members]
  by_cases hdot : p.check .dot = true
  · have hk : p.current.kind ≠ .eof := by rw [current_of_check hdot]; decide
    have heat : eat .dot p = .ok (some p.current) p.advance := by simp [eat, hdot]
    have hlen := length_advance hk
    rw [bind_apply, bind_apply (eat .dot), heat]
    refine bind_congr rfl fun name q hq => ?_
    have hname := ((memberName_orderly p.advance).ok hq).2
    rw [get_bind_apply, get_bind_apply]
    by_cases hp : q.check .leftParen = true
    · rw [if_pos hp, if_pos hp]
      refine bind_congr (h.arguments q (by omega)) fun args r hr => ?_
      have hargs := ((settled_tidy.arguments q).ok hr).2
      exact h.members r _ (by omega)
    · rw [if_neg hp, if_neg hp]
      exact h.members q _ (by omega)
  · have heat : eat .dot p = .ok none p := by simp [eat, hdot]
    rw [bind_apply, bind_apply (eat .dot), heat]

theorem primary_succ (p : Parser) (hop : UnaryOp.ofToken? p.current.kind = none)
    (hn : 12 * p.ahead.length + 1 ≤ n + 1) : primaryIn (n + 1) p = operand p := by
  rw [primaryIn, operand_eq]
  simp only [Calls.operandBody, get_bind_apply]
  cases hk : p.current.kind with
  | identifier =>
    refine bind_congr rfl fun t q hq => ?_
    have hlen := ((Orderly.take_kind (by simp [hk])).ok hq).2
    rw [get_bind_apply, get_bind_apply]
    by_cases hcall : q.check .leftParen = true ∧ ¬ q.atLineStart = true
    · rw [if_pos hcall, if_pos hcall]
      exact bind_congr (h.arguments q (by omega)) fun _ _ _ => rfl
    · rw [if_neg hcall, if_neg hcall]
  | leftParen =>
    refine bind_congr rfl fun t q hq => ?_
    have hlen := ((Orderly.take_kind (by simp [hk])).ok hq).2
    refine bind_congr rfl fun _ r hr => ?_
    have hinner : levelIn n .or r = expr 0 r := by
      cases hr
      have hheight : Level.or.height = 10 := rfl
      rw [expr_ofPower 0]
      exact h.level .or _ (by dsimp only; omega) (by intro hu; cases hu)
    exact bind_congr hinner fun _ _ _ => rfl
  | minus | not_ =>
    rw [hk] at hop
    cases hop
  | _ => rfl

theorem arguments_succ (p : Parser) (hn : 12 * p.ahead.length + 1 ≤ n + 1) :
    argumentsIn (n + 1) p = Parser.arguments p := by
  rw [argumentsIn, arguments_eq]
  refine bind_congr rfl fun t q hq => ?_
  have hlen := ((Orderly.expect (by decide)).ok hq).2
  refine bind_congr rfl fun found r hr => ?_
  have heat := ((Orderly.eat .rightParen).ok hr).2
  cases found with
  | some _ => rfl
  | none =>
    refine bind_congr rfl fun _ s hs => ?_
    cases hs
    exact bind_congr (h.items _ (by dsimp only; omega)) fun _ _ _ => rfl

theorem items_succ (p : Parser) (hn : 12 * p.ahead.length + 11 ≤ n + 1) :
    itemsIn (n + 1) p = Parser.items p := by
  have hheight : Level.or.height = 10 := rfl
  have hfirst : levelIn n .or p = expr 0 p := by
    rw [expr_ofPower 0]
    exact h.level .or p (by omega) (by intro hu; cases hu)
  rw [itemsIn, items_eq]
  refine bind_congr hfirst fun first q hq => ?_
  have hlen := ((settled_tidy.expr p 0).ok hq).2
  refine bind_congr rfl fun found r hr => ?_
  have heat := ((Orderly.eat .comma).ok hr).2
  cases found with
  | some _ => exact bind_congr (h.items r (by omega)) fun _ _ _ => rfl
  | none => rfl

end Faithful

theorem faithful (n : Nat) : Faithful n := by
  induction n with
  | zero =>
    have hpos : ∀ l : Level, 0 < l.height := by intro l; cases l <;> decide
    constructor
    · intro l p hn
      have := hpos l
      omega
    all_goals intros; omega
  | succ n h =>
    exact ⟨h.level_succ, h.join_succ, h.members_succ, h.primary_succ, h.arguments_succ,
      h.items_succ⟩

theorem level_eq_expr (l : Level) (p : Parser)
    (hl : l.IsUnsigned → UnaryOp.ofToken? p.current.kind = none) :
    level l p = expr l.power p := by
  have hheight : l.height ≤ 12 := by cases l <;> decide
  exact (faithful _).level l p (by omega) hl

end Layered

/-- The parser by binding powers is the parser of the layered grammar, started at the level that
the power selects; and it always answers. -/
theorem expr_eq_layered (power : Nat) :
    expr power = Layered.level (Level.ofPower power) ∧
      ∀ p e q, expr power p = .error e q → e.fault ≠ .outOfSteps := by
  refine ⟨funext fun p => ?_, fun p e q h => expr_steps h⟩
  have hstart : ¬ (Level.ofPower power).IsUnsigned := by
    unfold Level.ofPower
    repeat' split
    all_goals exact id
  rw [Layered.level_eq_expr _ p fun hu => absurd hu hstart, ← expr_ofPower]

end Parser
end ScriptEngine
