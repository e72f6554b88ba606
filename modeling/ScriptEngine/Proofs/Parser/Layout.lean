/-
What the layout of a script means to the parser.

A setting says what the tokens before a place make of it: which token was the last
one, and which parentheses are open.  The parser asks whether a token begins a line
at two places only: at a minus behind an expression and at a parenthesis behind a
name, both outside the parentheses that it counts (`Setting.Exposed`).

`Follows` relates the tokens ahead of two parsers that see the same script in two
layouts.  The tokens have the same kinds and texts, and begin lines alike where it
matters.  The second script may also have a separator before a token that begins a
statement because it begins a line (`Setting.Begins`).  Two parsers that are `Alike`
go through the grammar side by side, which is what the other file on layout proves;
this one has what a single move does to them.
-/
import ScriptEngine.Proofs.Parser.Steps

namespace ScriptEngine
namespace Parser

/-- What the last token before a place was.  A name behind a dot is a member; everything else
that an expression can end with is an operand. -/
inductive Last where
  | keyword | dot | name | member | operand | other
  deriving DecidableEq, Repr

namespace Last

/-- A keyword is one that a condition stands behind. -/
def after (l : Last) : TokenKind → Last
  | .identifier => if l = .dot then .member else .name
  | .number | .string | .true_ | .false_ | .rightParen => .operand
  | .if_ | .while_ => .keyword
  | .dot => .dot
  | _ => .other

/-- Whether an expression can end with the token. -/
def ends : Last → Bool
  | name | member | operand => true
  | keyword | dot | other => false

/-- Whether an expression can stand behind the token. -/
def admits : Last → Bool
  | name | member | operand | other => true
  | keyword | dot => false

theorem admits_of_ends {l : Last} (h : l.ends = true) : l.admits = true := by
  cases l <;> first | rfl | cases h

end Last

/-- The parentheses of a condition, and all the others. -/
inductive Paren where
  | condition | group
  deriving DecidableEq, Repr

/-- The last token before a place, and the parentheses that are open there, innermost first. -/
structure Setting where
  last : Last
  parens : List Paren
  deriving DecidableEq, Repr

namespace Setting

def start : Setting := ⟨.other, []⟩

/-- The setting behind one more token. -/
def after (σ : Setting) (kind : TokenKind) : Setting :=
  ⟨σ.last.after kind,
    match kind with
    | .leftParen => (if σ.last = .keyword then .condition else .group) :: σ.parens
    | .rightParen => σ.parens.tail
    | _ => σ.parens⟩

/-- How many parentheses the parser counts: all that are open but those of conditions. -/
def nesting (σ : Setting) : Nat := σ.parens.count .group

/-- The token can go on with the expression before it: a minus behind an expression, or a
parenthesis behind a name that is not that of a member. -/
def Continues (σ : Setting) (kind : TokenKind) : Prop :=
  (kind = .minus ∧ σ.last.ends) ∨ (kind = .leftParen ∧ σ.last = .name)

/-- Whether the token begins a line decides what becomes of it. -/
def Exposed (σ : Setting) (kind : TokenKind) : Prop := σ.nesting = 0 ∧ σ.Continues kind

/-- A token behind an expression and outside parentheses that begins a statement where it begins
a line.  A parenthesis behind the name of a member is none of them. -/
def Begins (σ : Setting) (kind : TokenKind) : Prop :=
  σ.parens = [] ∧ ((kind = .minus ∧ σ.last.ends) ∨
    (kind = .leftParen ∧ (σ.last = .name ∨ σ.last = .operand)))

instance (σ : Setting) (kind : TokenKind) : Decidable (σ.Continues kind) :=
  inferInstanceAs (Decidable (_ ∨ _))

instance (σ : Setting) (kind : TokenKind) : Decidable (σ.Begins kind) :=
  inferInstanceAs (Decidable (_ ∧ _))

theorem Begins.kind {σ : Setting} {k : TokenKind} (h : σ.Begins k) :
    k = .minus ∨ k = .leftParen := by
  rcases h.2 with ⟨hk, -⟩ | ⟨hk, -⟩
  · exact .inl hk
  · exact .inr hk

theorem Begins.ends {σ : Setting} {k : TokenKind} (h : σ.Begins k) : σ.last.ends = true := by
  rcases h.2 with ⟨-, hl⟩ | ⟨-, hl | hl⟩
  · exact hl
  · rw [hl]; rfl
  · rw [hl]; rfl

theorem Begins.nesting {σ : Setting} {k : TokenKind} (h : σ.Begins k) : σ.nesting = 0 := by
  simp [Setting.nesting, h.1]

theorem nesting_group (l : Last) (ps : List Paren) :
    (⟨l, .group :: ps⟩ : Setting).nesting = (⟨l, ps⟩ : Setting).nesting + 1 :=
  List.count_cons_self

theorem after_leftParen {σ : Setting} (h : σ.last.admits = true) :
    σ.after .leftParen = ⟨.other, .group :: σ.parens⟩ := by
  have hl : σ.last ≠ .keyword := by
    intro hl
    rw [hl] at h
    cases h
  unfold after
  dsimp only
  rw [if_neg hl]
  rfl

theorem after_identifier {σ : Setting} (h : σ.last.admits = true) :
    σ.after .identifier = ⟨.name, σ.parens⟩ := by
  have hl : σ.last ≠ .dot := by
    intro hl
    rw [hl] at h
    cases h
  simp only [after, Last.after, if_neg hl]

theorem after_operator {σ : Setting} {k : TokenKind} {op : BinaryOp}
    (h : BinaryOp.ofToken? k = some op) : σ.after k = ⟨.other, σ.parens⟩ := by
  cases k <;> first | rfl | cases h

/-- A separator makes no difference to the setting behind the token that follows it. -/
theorem Begins.after_separator {σ : Setting} {k : TokenKind} (h : σ.Begins k) :
    (σ.after .semicolon).after k = σ.after k := by
  rcases h.kind with rfl | rfl
  · rfl
  · rw [after_leftParen (Last.admits_of_ends h.ends), after_leftParen rfl]
    rfl

end Setting

/-! ## Two layouts of the tokens ahead -/

/-- The tokens ahead in a second layout, behind tokens on the lines `a` and `b`.  The places of
two tokens that belong together are one under `f`. -/
inductive Follows (f : Location → Location) :
    Setting → (a b : Nat) → List Scanned → List Scanned → Prop where
  | nil {σ a b} : Follows f σ a b [] []
  | token {σ a b s t ss ts} : t.token.kind = s.token.kind → t.token.lexeme = s.token.lexeme →
      f t.token.location = f s.token.location → t.fault = none →
      (σ.Exposed s.token.kind → (b < t.token.location.line ↔ a < s.token.location.line)) →
      Follows f (σ.after s.token.kind) s.token.location.line t.token.location.line ss ts →
      Follows f σ a b (s :: ss) (t :: ts)
  | separator {σ a b s t ss ts} : t.token.kind = .semicolon → t.fault = none →
      σ.Begins s.token.kind → a < s.token.location.line →
      Follows f (σ.after .semicolon) a t.token.location.line (s :: ss) ts →
      Follows f σ a b (s :: ss) (t :: ts)

theorem separator_ahead (afterStatement : Bool) (p : Parser) :
    (separator afterStatement p).ahead = p.advance.ahead := by
  cases afterStatement <;> rfl

/-- A warning is no error. -/
theorem warn_hasErrors (p : Parser) (code text : String) (l : Location) :
    (p.warn code text l).diagnostics.hasErrors = p.diagnostics.hasErrors := by
  simp [warn, Diagnostics.warning, Diagnostics.add, Diagnostic.isError]

/-- Two parsers that have come equally far in two layouts, inside `n` parentheses that they have
counted.  The second one has met no error. -/
structure Alike (f : Location → Location) (σ : Setting) (n : Nat) (p q : Parser) : Prop where
  ahead : Follows f σ p.previous.line q.previous.line p.ahead q.ahead
  nesting_left : p.nesting = n
  nesting_right : q.nesting = n
  clean : q.diagnostics.hasErrors = false

theorem Follows.reveal {f : Location → Location} {σ : Setting} {a b : Nat} {ss ts : List Scanned}
    (h : Follows f σ a b ss ts) (ds : Diagnostics) : reveal ts ds = ds := by
  unfold Parser.reveal
  split
  · cases h with
    | token _ _ _ hfault => cases hfault
    | separator _ hfault => cases hfault
  · rfl

theorem Follows.length_le {f : Location → Location} {σ : Setting} {a b : Nat}
    {ss ts : List Scanned} (h : Follows f σ a b ss ts) : ss.length ≤ ts.length := by
  induction h with
  | nil => exact Nat.le_refl _
  | token _ _ _ _ _ _ ih => exact Nat.succ_le_succ ih
  | separator _ _ _ _ _ ih => exact Nat.le_succ_of_le ih

namespace Alike

variable {f : Location → Location} {σ : Setting} {n : Nat} {p q : Parser}

/-- What becomes of the next tokens: they belong together, or a separator comes first. -/
theorem next (h : Alike f σ n p q) (hk : p.current.kind ≠ .eof) :
    (q.current.kind = p.current.kind ∧ q.current.lexeme = p.current.lexeme ∧
      f q.current.location = f p.current.location ∧
      (σ.Exposed p.current.kind → (q.previous.line < q.current.location.line ↔
        p.previous.line < p.current.location.line)) ∧
      Alike f (σ.after p.current.kind) n p.advance q.advance) ∨
    (q.current.kind = .semicolon ∧ σ.Begins p.current.kind ∧
      p.previous.line < p.current.location.line ∧
      Alike f (σ.after .semicolon) n p q.advance) := by
  obtain ⟨s, ss, hs, hcurrent⟩ := ahead_of_kind hk
  have hahead := h.ahead
  rw [hs] at hahead
  rw [hcurrent]
  cases ht : q.ahead with
  | nil =>
    rw [ht] at hahead
    cases hahead
  | cons t ts =>
    have htoken : q.current = t.token := by simp [current, ht]
    have hadvance : q.advance =
        { q with ahead := ts, previous := t.token.location
                 diagnostics := reveal ts q.diagnostics } := by
      simp [advance, ht]
    rw [ht] at hahead
    rw [htoken]
    cases hahead with
    | token hkind hlexeme hplace hfault hline hrest =>
      refine .inl ⟨hkind, hlexeme, hplace, hline, ?_⟩
      have hleft : p.advance =
          { p with ahead := ss, previous := s.token.location
                   diagnostics := reveal ss p.diagnostics } := by
        simp [advance, hs]
      rw [hleft, hadvance, hrest.reveal]
      exact ⟨hrest, h.nesting_left, h.nesting_right, h.clean⟩
    | separator hkind hfault hbegins hline hrest =>
      refine .inr ⟨hkind, hbegins, hline, ?_⟩
      rw [hadvance, hrest.reveal]
      exact ⟨by rw [hs]; exact hrest, h.nesting_left, h.nesting_right, h.clean⟩

theorem eof (h : Alike f σ n p q) (hk : p.current.kind = .eof) :
    q.current.kind = .eof := by
  have hahead := h.ahead
  cases hs : p.ahead with
  | nil =>
    rw [hs] at hahead
    cases ht : q.ahead with
    | nil => simp [current, ht, Token.eof]
    | cons t ts =>
      rw [ht] at hahead
      cases hahead
  | cons s ss =>
    have hcurrent : p.current = s.token := by simp [current, hs]
    rw [hs] at hahead
    rw [hcurrent] at hk
    cases ht : q.ahead with
    | nil => simp [current, ht, Token.eof]
    | cons t ts =>
      rw [ht] at hahead
      cases hahead with
      | token hkind => simp [current, ht, hkind, hk]
      | separator _ _ hbegins =>
        rcases hbegins.kind with h | h <;> rw [hk] at h <;> cases h

/-- Where the next tokens differ in kind, the second parser is at a separator. -/
theorem separated (h : Alike f σ n p q) (hne : q.current.kind ≠ p.current.kind) :
    q.current.kind = .semicolon ∧ σ.Begins p.current.kind ∧
      p.previous.line < p.current.location.line ∧ Alike f (σ.after .semicolon) n p q.advance := by
  by_cases hk : p.current.kind = .eof
  · exact absurd ((h.eof hk).trans hk.symm) hne
  · rcases h.next hk with ⟨hkind, -⟩ | hsep
    · exact absurd hkind hne
    · exact hsep

/-- Behind a token that no expression ends with stands no separator of the second layout only. -/
theorem together (h : Alike f σ n p q) (hl : σ.last.ends = false) :
    q.current.kind = p.current.kind := by
  by_cases hkind : q.current.kind = p.current.kind
  · exact hkind
  · obtain ⟨-, hbegins, -⟩ := h.separated hkind
    rw [hbegins.ends] at hl
    cases hl

/-- The next tokens belong together. -/
theorem take (h : Alike f σ n p q) (hk : p.current.kind ≠ .eof)
    (hkind : q.current.kind = p.current.kind) :
    q.current.lexeme = p.current.lexeme ∧ f q.current.location = f p.current.location ∧
      Alike f (σ.after p.current.kind) n p.advance q.advance := by
  rcases h.next hk with ⟨-, hlexeme, hplace, -, hrest⟩ | ⟨hsemi, hbegins, -⟩
  · exact ⟨hlexeme, hplace, hrest⟩
  · rw [hsemi] at hkind
    rcases hbegins.kind with hk' | hk' <;> rw [hk'] at hkind <;> cases hkind

/-- A token of a kind that no layout changes is seen by both parsers or by none. -/
theorem check (h : Alike f σ n p q) {kind : TokenKind}
    (hm : kind ≠ .minus) (hp : kind ≠ .leftParen) (hs : kind ≠ .semicolon) :
    q.check kind = p.check kind := by
  by_cases hkind : q.current.kind = p.current.kind
  · simp [Parser.check, hkind]
  · obtain ⟨hsemi, hbegins, -⟩ := h.separated hkind
    rcases hbegins.kind with hk | hk <;> simp [Parser.check, hsemi, hk, hm.symm, hp.symm, hs.symm]

theorem together_of_check (h : Alike f σ n p q) {kind : TokenKind} (hm : kind ≠ .minus)
    (hp : kind ≠ .leftParen) (hs : kind ≠ .semicolon) (hc : p.check kind = true) :
    q.current.kind = p.current.kind := by
  rw [current_of_check hc, current_of_check ((h.check hm hp hs).trans hc)]

/-- A parenthesis behind the name of a member is seen by both parsers or by none. -/
theorem check_leftParen (h : Alike f σ n p q) (hl : σ.last = .member) :
    q.check .leftParen = p.check .leftParen := by
  by_cases hkind : q.current.kind = p.current.kind
  · simp [Parser.check, hkind]
  · obtain ⟨hsemi, hbegins, -⟩ := h.separated hkind
    rcases hbegins.2 with ⟨hk, -⟩ | ⟨-, hl' | hl'⟩
    · simp [Parser.check, hsemi, hk]
    · rw [hl] at hl'; cases hl'
    · rw [hl] at hl'; cases hl'

/-- Where the line matters, the parsers agree on whether one begins. -/
theorem atLineStart (h : Alike f σ σ.nesting p q) (hk : p.current.kind ≠ .eof)
    (hkind : q.current.kind = p.current.kind) (hc : σ.Continues p.current.kind) :
    q.atLineStart = p.atLineStart := by
  unfold Parser.atLineStart
  rw [h.nesting_left, h.nesting_right]
  by_cases hn : σ.nesting = 0
  · rcases h.next hk with ⟨-, -, -, hline, -⟩ | ⟨hsemi, hbegins, -⟩
    · simp only [hn, true_and]
      exact decide_eq_decide.mpr (hline ⟨hn, hc⟩)
    · rw [hsemi] at hkind
      rcases hbegins.kind with hk' | hk' <;> rw [hk'] at hkind <;> cases hkind
  · simp [hn]

/-- A token before which the second layout has a separator begins a line. -/
theorem atLineStart_of_separated (h : Alike f σ σ.nesting p q)
    (hne : q.current.kind ≠ p.current.kind) : p.atLineStart = true := by
  obtain ⟨-, hbegins, hline, -⟩ := h.separated hne
  simp [Parser.atLineStart, h.nesting_left, hbegins.nesting, hline]

/-! ## Moves over no token -/

theorem enterParens (h : Alike f σ n p q) :
    Alike f σ (n + 1) { p with nesting := p.nesting + 1 } { q with nesting := q.nesting + 1 } :=
  ⟨h.ahead, congrArg (· + 1) h.nesting_left, congrArg (· + 1) h.nesting_right, h.clean⟩

theorem leaveParens (h : Alike f σ n p q) :
    Alike f σ (n - 1) { p with nesting := p.nesting - 1 } { q with nesting := q.nesting - 1 } :=
  ⟨h.ahead, congrArg (· - 1) h.nesting_left, congrArg (· - 1) h.nesting_right, h.clean⟩

theorem openBlock (h : Alike f σ n p q) :
    Alike f σ n { p with openBlocks := p.openBlocks + 1 }
      { q with openBlocks := q.openBlocks + 1 } :=
  ⟨h.ahead, h.nesting_left, h.nesting_right, h.clean⟩

theorem closeBlock (h : Alike f σ n p q) :
    Alike f σ n { p with openBlocks := p.openBlocks - 1 }
      { q with openBlocks := q.openBlocks - 1 } :=
  ⟨h.ahead, h.nesting_left, h.nesting_right, h.clean⟩

theorem warn (h : Alike f σ n p q) (code text : String) (l l' : Location) (b b' : Bool) :
    Alike f σ n (if b then p.warn code text l else p) (if b' then q.warn code text l' else q) := by
  have hclean : (q.warn code text l').diagnostics.hasErrors = false :=
    (warn_hasErrors q code text l').trans h.clean
  cases b with
  | false =>
    cases b' with
    | false => exact h
    | true => exact ⟨h.ahead, h.nesting_left, h.nesting_right, hclean⟩
  | true =>
    cases b' with
    | false => exact ⟨h.ahead, h.nesting_left, h.nesting_right, h.clean⟩
    | true => exact ⟨h.ahead, h.nesting_left, h.nesting_right, hclean⟩

theorem separator (h : Alike f σ n p.advance q.advance) (b b' : Bool) :
    Alike f σ n (p.separator b) (q.separator b') := by
  have hwarn := h.warn "W002" "redundant ';'" p.current.location q.current.location (!b) (!b')
  cases b <;> cases b' <;> exact hwarn

theorem separator_right (h : Alike f σ n p q.advance) (b : Bool) :
    Alike f σ n p (q.separator b) := by
  have hwarn := h.warn "W002" "redundant ';'" p.current.location q.current.location false (!b)
  cases b <;> exact hwarn

end Alike
end Parser
end ScriptEngine
