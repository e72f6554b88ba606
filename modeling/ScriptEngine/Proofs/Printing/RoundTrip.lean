/-
Parsing undoes printing.

The words of a statement are read up to the separator behind it, and those of a block up
to the word that ends it (`readableStmt`, `readableBlock`).  A separator stands behind
every statement and nowhere else, so none is redundant.  The words of a list of
statements are the tokens of its text, and so the text parses to these statements
(`parse_render`): the grammar reaches every tree that can be written, and the
parentheses that the binding powers ask for are enough.
-/
import ScriptEngine.Proofs.Printing.Expressions

namespace ScriptEngine
namespace Printing

open Lexer (Piece)
open ScriptEngine.Parser

section
variable (spell : Location → Float → String)

/-- The words of the statement are read up to the separator behind it. -/
def ReadableStmt (s : Stmt) : Prop := ∀ {p : Parser} {rest : List Piece},
  Shows p (stmtWords spell s ++ separator :: rest) →
    Reads statement p (SameStmt nowhere s) (separator :: rest)

/-- The words of the block are read up to the word that ends it. -/
def ReadableBlock (body : List Stmt) : Prop := ∀ {p : Parser} {w : Piece} {rest : List Piece}
    (opener : Token) (mayElse afterStatement : Bool),
  w.kind = .end_ ∨ (mayElse = true ∧ w.kind = .else_) →
    Shows p (blockWords spell body ++ w :: rest) →
      Reads (block opener mayElse afterStatement) p (SameBody nowhere body) (w :: rest)

variable {spell} {p : Parser} {w : Piece} {words rest : List Piece} {e value : Expr}

/-! ## Assignments and expressions -/

theorem reads_simple {R : Stmt → Prop} (hp : Shows p (w :: words))
    (hw : beginsExpr w.kind = true) (h : Reads settled.simple p R rest) :
    Reads statement p R rest := by
  rw [statement_eq]
  apply Reads.get_bind
  dsimp only
  rw [hp.kind]
  split
  case h_7 => exact h
  all_goals
    next hk =>
      rw [hk] at hw
      cases hw

theorem readableStmt_expr (h : Readable spell e) : ReadableStmt spell (.expr e) := by
  intro p rest hp
  obtain ⟨first, more, hwords, hfirst⟩ := exprWords_first spell e
  have hshows : Shows p (exprWords spell e ++ separator :: rest) := hp
  rw [hwords] at hshows
  refine reads_simple hshows hfirst ((h.reads hp rfl (by decide)).bind fun e' q he hq => ?_)
  refine .eat_bind_other hq (by decide) (.pure hq ?_)
  simp only [SameStmt, Stmt.relocate, he]

/-- What stands before the sign of an assignment is read as an expression. -/
theorem reads_assignment {target : Expr} {s : Stmt} (ht : Readable spell target)
    (h : Readable spell value)
    (hp : Shows p (exprWords spell target ++ word .equal "=" ::
      (exprWords spell value ++ separator :: rest)))
    (hs : ∀ target' value' q, SameExpr nowhere target target' → SameExpr nowhere value value' →
      Shows q (separator :: rest) →
        Reads (match target' with
          | .variable name => pure (.assign name value')
          | .member object name => pure (.setMember object name value')
          | _ => throw ⟨.invalidTarget, target'.location⟩) q (SameStmt nowhere s)
          (separator :: rest)) :
    Reads statement p (SameStmt nowhere s) (separator :: rest) := by
  obtain ⟨first, more, hwords, hfirst⟩ := exprWords_first spell target
  have hshows := hp
  rw [hwords] at hshows
  refine reads_simple hshows hfirst ((ht.reads hp rfl (by decide)).bind fun left q hleft hq => ?_)
  refine .eat_bind hq rfl fun hq => (h.reads hq rfl (by decide)).bind fun value' r hvalue hr => ?_
  exact hs left value' r hleft hvalue hr

theorem readableStmt_assign {target : Ident} (h : Readable spell value) :
    ReadableStmt spell (.assign target value) := by
  intro p rest hp
  refine reads_assignment readable_variable h hp fun target' value' q htarget hvalue hq => ?_
  obtain ⟨name, rfl, hname⟩ := Expr.variable_of_relocate htarget
  exact .pure hq (by simp only [SameStmt, Stmt.relocate, hname, hvalue])

theorem readableStmt_setMember {object : Expr} {name : Ident} (ho : Readable spell object)
    (h : Readable spell value) : ReadableStmt spell (.setMember object name value) := by
  intro p rest hp
  have hp : Shows p (exprWords spell (.member object name) ++ word .equal "=" ::
      (exprWords spell value ++ separator :: rest)) := by
    simpa [stmtWords] using hp
  refine reads_assignment (readable_member ho) h hp fun target' value' q htarget hvalue hq => ?_
  obtain ⟨object', name', rfl, hobject, hname⟩ := Expr.member_of_relocate htarget
  exact .pure hq (by simp only [SameStmt, Stmt.relocate, hobject, hname, hvalue])

theorem readableStmt_print {l : Location} {newline : Bool} {args : List Expr}
    (h : ReadableArguments spell args) : ReadableStmt spell (.print l newline args) := by
  intro p rest hp
  rw [statement_eq]
  apply Reads.get_bind
  dsimp only
  cases newline
  all_goals
    rw [hp.kind]
    refine .take_bind hp fun hp => (h hp).bind fun args' q hargs hq => .pure hq ?_
    simp only [SameStmt, Stmt.relocate, hargs]

/-! ## Statements with blocks -/

theorem Readable.condition (h : Readable spell e)
    (hp : Shows p (conditionWords spell e ++ rest)) :
    Reads settled.condition p (SameExpr nowhere e) rest := by
  have hp : Shows p (opening :: (exprWords spell e ++ closing :: rest)) := by
    simpa [conditionWords] using hp
  refine .expect_bind hp rfl fun hp => (h.reads hp rfl (by decide)).bind fun e' q he hq => ?_
  exact .expect_bind hq rfl fun hq => .pure hq he

/-- The end of a statement with blocks. -/
theorem reads_end {t : Token} {text : String} {isEmpty : Bool} {s s' : Stmt}
    (hp : Shows p (word .end_ "end" :: rest)) (hs : SameStmt nowhere s s') :
    Reads (do
      let _ ← expect .end_
      closeBlock
      warnEmpty t text isEmpty
      pure s') p (SameStmt nowhere s) rest := by
  refine .expect_bind hp rfl fun hp => .modify_bind (.modify_bind (.pure ?_ hs))
  have hp := hp.blocks (p.advance.openBlocks - 1)
  split
  · refine ⟨hp.ahead, hp.line, fun d hd => ?_⟩
    rcases List.mem_append.mp hd with hd | hd
    · exact hp.quiet d hd
    · rw [List.mem_singleton.mp hd]
      exact ⟨rfl, (by decide : "W001" ≠ "W002")⟩
  · exact hp

variable {l : Location} {thenBody body : List Stmt}

theorem readableStmt_loop (h : Readable spell e) (hbody : ReadableBlock spell body) :
    ReadableStmt spell (.loop l e body) := by
  intro p rest hp
  have hp : Shows p (word .while_ "while" :: (conditionWords spell e ++
      (blockWords spell body ++ word .end_ "end" :: separator :: rest))) := by
    simpa [stmtWords] using hp
  rw [statement_eq]
  apply Reads.get_bind
  dsimp only
  rw [hp.kind]
  refine .take_bind hp fun hp => .modify_bind ?_
  refine (h.condition (hp.blocks _)).bind fun e' q he hq => ?_
  refine (hbody _ false false (.inl rfl) hq).bind fun body' r hbody hr => reads_end hr ?_
  simp only [SameStmt, Stmt.relocate, he, hbody]

theorem readableStmt_branch (h : Readable spell e) (hthen : ReadableBlock spell thenBody) :
    ReadableStmt spell (.branch l e thenBody none) := by
  intro p rest hp
  have hp : Shows p (word .if_ "if" :: (conditionWords spell e ++
      (blockWords spell thenBody ++ word .end_ "end" :: separator :: rest))) := by
    simpa [stmtWords] using hp
  rw [statement_eq]
  apply Reads.get_bind
  dsimp only
  rw [hp.kind]
  refine .take_bind hp fun hp => .modify_bind ?_
  refine (h.condition (hp.blocks _)).bind fun e' q he hq => ?_
  refine (hthen _ true false (.inl rfl) hq).bind fun thenBody' r hthen hr => ?_
  rw [Calls.alternative_bind]
  refine .eat_bind_other hr (by decide) (reads_end hr ?_)
  simp only [SameStmt, Stmt.relocate, he, hthen]

theorem readableStmt_branch_else (h : Readable spell e) (hthen : ReadableBlock spell thenBody)
    (helse : ReadableBlock spell body) :
    ReadableStmt spell (.branch l e thenBody (some body)) := by
  intro p rest hp
  have hp : Shows p (word .if_ "if" :: (conditionWords spell e ++
      (blockWords spell thenBody ++ word .else_ "else" ::
        (blockWords spell body ++ word .end_ "end" :: separator :: rest)))) := by
    simpa [stmtWords] using hp
  rw [statement_eq]
  apply Reads.get_bind
  dsimp only
  rw [hp.kind]
  refine .take_bind hp fun hp => .modify_bind ?_
  refine (h.condition (hp.blocks _)).bind fun e' q he hq => ?_
  refine (hthen _ true false (.inr ⟨rfl, rfl⟩) hq).bind fun thenBody' r hthen hr => ?_
  rw [Calls.alternative_bind]
  refine .eat_bind hr rfl fun hr => ?_
  refine (helse _ false false (.inl rfl) hr).bind fun body' t helse ht => reads_end ht ?_
  simp only [SameStmt, Stmt.relocate, he, hthen, helse]

/-! ## Blocks -/

/-- Whether a statement can begin with a token of the kind. -/
def beginsStmt (kind : TokenKind) : Bool := beginsExpr kind || kind.startsStatement

variable (spell) in
theorem stmtWords_first (s : Stmt) : ∃ first more, stmtWords spell s = first :: more ∧
    beginsStmt first.kind = true := by
  have begins : ∀ (e : Expr) (rest : List Piece), ∃ first more,
      exprWords spell e ++ rest = first :: more ∧ beginsStmt first.kind = true := by
    intro e rest
    obtain ⟨first, more, hwords, hfirst⟩ := exprWords_first spell e
    exact ⟨first, more ++ rest, by rw [hwords]; rfl, by simp [beginsStmt, hfirst]⟩
  cases s with
  | assign target value => exact ⟨_, _, rfl, rfl⟩
  | branch l e thenBody elseBody => cases elseBody <;> exact ⟨_, _, rfl, rfl⟩
  | loop => exact ⟨_, _, rfl, rfl⟩
  | expr e => simpa [stmtWords] using begins e []
  | setMember object name value =>
    exact begins (.member object name) (word .equal "=" :: exprWords spell value)
  | print l newline args => cases newline <;> exact ⟨_, _, rfl, rfl⟩

theorem Shows.beginsStmt {s : Stmt} (hp : Shows p (stmtWords spell s ++ words))
    {kind : TokenKind} (hkind : Printing.beginsStmt kind = false) : p.current.kind ≠ kind := by
  obtain ⟨first, more, hwords, hfirst⟩ := stmtWords_first spell s
  rw [hwords] at hp
  rw [hp.kind]
  rintro rfl
  rw [hkind] at hfirst
  cases hfirst

/-- The separator behind a statement is not redundant. -/
theorem reads_block_separator {R : List Stmt → Prop} {opener : Token} {mayElse : Bool}
    (hp : Shows p (separator :: words))
    (h : Reads (block opener mayElse false) p.advance R rest) :
    Reads (block opener mayElse true) p R rest := by
  have other : ∀ kind, kind ≠ .semicolon → ¬ p.check kind = true := by
    intro kind hkind hcheck
    rw [hp.check, decide_eq_true_eq] at hcheck
    exact hkind hcheck.symm
  rw [block_eq]
  apply Reads.get_bind
  rw [if_neg (by simp [other]), if_neg (other .eof (by decide)),
    if_pos (by simp [hp.check, separator, word])]
  exact .modify_bind h

theorem readableBlock_nil : ReadableBlock spell [] := by
  intro p w rest opener mayElse afterStatement hw hp
  have hp : Shows p (w :: rest) := hp
  rw [block_eq]
  apply Reads.get_bind
  rw [if_pos (by simpa [hp.check] using hw)]
  exact .pure hp rfl

theorem readableBlock_cons {s : Stmt} (hs : ReadableStmt spell s) (h : ReadableBlock spell body) :
    ReadableBlock spell (s :: body) := by
  intro p w rest opener mayElse afterStatement hw hp
  have hp : Shows p (stmtWords spell s ++ separator :: (blockWords spell body ++ w :: rest)) := by
    simpa [blockWords] using hp
  have other : ∀ kind, beginsStmt kind = false → ¬ p.check kind = true := by
    intro kind hkind hcheck
    exact hp.beginsStmt hkind (current_of_check hcheck)
  rw [block_eq]
  apply Reads.get_bind
  rw [if_neg (by simp [other .end_ rfl, other .else_ rfl]), if_neg (other .eof rfl),
    if_neg (other .semicolon rfl)]
  refine (hs hp).bind fun s' q hs hq => ?_
  have hbody := reads_block_separator hq (h opener mayElse false hw hq.next)
  refine Reads.bind hbody fun body' r hbody hr => .pure hr ?_
  simp only [SameBody, relocateBlock, hs, hbody]

variable (spell) in
mutual

theorem readableStmt : ∀ s, PrintableStmt spell s → ReadableStmt spell s
  | .assign _ value, h => readableStmt_assign (readable spell value h.2)
  | .branch _ e thenBody none, h =>
    readableStmt_branch (readable spell e h.1) (readableBlock thenBody h.2)
  | .branch _ e thenBody (some elseBody), h =>
    readableStmt_branch_else (readable spell e h.1) (readableBlock thenBody h.2.1)
      (readableBlock elseBody h.2.2)
  | .loop _ e body, h => readableStmt_loop (readable spell e h.1) (readableBlock body h.2)
  | .expr e, h => readableStmt_expr (readable spell e h)
  | .setMember object _ value, h =>
    readableStmt_setMember (readable spell object h.1) (readable spell value h.2.2)
  | .print _ _ args, h => readableStmt_print (readableArguments spell args h)

theorem readableBlock : ∀ body, PrintableBlock spell body → ReadableBlock spell body
  | [], _ => readableBlock_nil
  | s :: rest, h => readableBlock_cons (readableStmt s h.1) (readableBlock rest h.2)

end

/-! ## Scripts -/

variable (spell) in
/-- A script in words is read to its end. -/
theorem scriptIn_reads : ∀ body, PrintableBlock spell body →
    ∀ {p : Parser} {passes : Nat} (afterStatement : Bool), Shows p (blockWords spell body) →
      (blockWords spell body).length ≤ passes →
      SameBody nowhere body (scriptIn passes afterStatement p).1 ∧
        Quiet (scriptIn passes afterStatement p).2.diagnostics
  | [], _, p, passes, afterStatement, hp, _ => by
    have hahead : p.ahead = [] := List.map_eq_nil_iff.mp hp.ahead
    have hend : p.atEnd = true := by simp [atEnd, check, current, hahead, Token.eof]
    rw [scriptIn_end hend]
    exact ⟨rfl, hp.quiet⟩
  | s :: body, h, p, passes, afterStatement, hp, hpasses => by
    rw [blockWords] at hp hpasses
    have hlength : 0 < (stmtWords spell s).length := by
      obtain ⟨first, more, hwords, -⟩ := stmtWords_first spell s
      simp [hwords]
    simp only [List.length_append, List.length_cons] at hpasses
    -- One pass for the statement and one for its separator.
    obtain ⟨passes, rfl⟩ : ∃ n, passes = n + 2 := ⟨passes - 2, by omega⟩
    obtain ⟨s', q, hstatement, hs, hq⟩ := readableStmt spell s h.1 hp
    have hrest : (blockWords spell body).length ≤ passes := by omega
    have hbody := scriptIn_reads body h.2 false hq.next hrest
    rw [scriptIn_statement (hp.beginsStmt rfl) (hp.beginsStmt rfl) hstatement,
      scriptIn_separator hq.kind]
    refine ⟨?_, hbody.2⟩
    simp only [SameBody, relocateBlock, hs]
    rw [← hbody.1]
    rfl

end

section
variable {spell : Location → Float → String} {text : String} {body : List Stmt}

theorem shows_ofTokens {words : List Piece}
    (h : Spells (TokenStream.ofString text).tokens words)
    (hline : ∀ s ∈ (TokenStream.ofString text).tokens, s.token.location.line = 1) :
    Shows (ofTokens (.ofString text)) words := by
  refine ⟨h, hline, ?_⟩
  have hdiagnostics : (ofTokens (.ofString text)).diagnostics = .empty := h.reveal _
  rw [hdiagnostics]
  exact nofun

theorem parse_shown (h : PrintableBlock spell body)
    (hp : Shows (ofTokens (.ofString text)) (blockWords spell body)) :
    (Script.parse text).2.hasErrors = false ∧
      (∀ d ∈ (Script.parse text).2.messages, d.code ≠ "W002") ∧
      SameButPlaces (Script.parse text).1.statements body := by
  obtain ⟨hsame, hquiet⟩ := scriptIn_reads spell body h false hp (Nat.le_of_eq hp.length.symm)
  refine ⟨?_, fun d hd => (hquiet d hd).2, hsame⟩
  rw [Diagnostics.hasErrors_eq]
  refine List.any_eq_false.mpr fun d hd => ?_
  simp [Diagnostic.isError, (hquiet d hd).1]

end

/-- The text of statements stands on one line and parses to these statements. -/
theorem parse_render (spell : Location → Float → String) {body : List Stmt}
    (h : PrintableBlock spell body) :
    '\n' ∉ (render (blockWords spell body)).toList ∧
      (Script.parse (render (blockWords spell body))).2.hasErrors = false ∧
      (∀ d ∈ (Script.parse (render (blockWords spell body))).2.messages, d.code ≠ "W002") ∧
      SameButPlaces (Script.parse (render (blockWords spell body))).1.statements body := by
  have htokens := blockWords_tokens spell body h
  obtain ⟨hspells, hline⟩ := tokens_render htokens
  exact ⟨htokens.render_line, parse_shown h (shows_ofTokens hspells hline)⟩

theorem parse_render_branch :
    let a : Ident := ⟨"a", .start⟩
    let one : Expr := .number .start (Decimal.nearest 1 0)
    let sum : Expr :=
      .binary .mul (.binary .add (.variable a) one) (.unary .start .neg (.variable a))
    let image : Expr := .construct ⟨"Image", .start⟩ [.string .start "q", one]
    let body : List Stmt :=
      [.branch .start (.call ⟨"f", .start⟩ []) [.assign a sum]
        (some [.setMember image a (.method (.unary .start .not (.variable a)) a [one])])]
    let text :=
      "if ( f ( ) ) a = ( a + 1 ) * - a ; " ++
        "else Image ( \x22q\x22 , 1 ) . a = ( not a ) . a ( 1 ) ; end ;"
    render (blockWords (fun _ _ => "1") body) = text ∧
      PrintableBlock (fun _ _ => "1") body ∧
      '\n' ∉ text.toList ∧
      (Script.parse text).2.hasErrors = false ∧
      (∀ d ∈ (Script.parse text).2.messages, d.code ≠ "W002") ∧
      SameButPlaces (Script.parse text).1.statements body := by
  intro a one sum image body text
  have htext : render (blockWords (fun _ _ => "1") body) = text := by
    simp only [body, image, sum, one, a, text]
    decide +kernel
  have ha : IsName "a" := ⟨⟨'a', [], rfl, by decide, nofun⟩, by decide⟩
  have hf : IsName "f" := ⟨⟨'f', [], rfl, by decide, nofun⟩, by decide⟩
  have hImage : IsName "Image" :=
    ⟨⟨'I', ['m', 'a', 'g', 'e'], rfl, by decide, List.all_eq_true.mp rfl⟩, by decide⟩
  have hone : PrintableExpr (fun _ _ => "1") one := ⟨rfl, rfl⟩
  have hsum : PrintableExpr (fun _ _ => "1") sum := ⟨⟨ha, hone⟩, ha⟩
  have himage : PrintableExpr (fun _ _ => "1") image :=
    ⟨hImage, by decide, trivial, hone, trivial⟩
  have hbody : PrintableBlock (fun _ _ => "1") body :=
    ⟨⟨⟨hf, by decide, trivial⟩, ⟨⟨ha, hsum⟩, trivial⟩,
      ⟨himage, ha, ha, ha, hone, trivial⟩, trivial⟩, trivial⟩
  have hparse := parse_render (fun _ _ => "1") hbody
  rw [htext] at hparse
  exact ⟨htext, hbody, hparse⟩

end Printing
end ScriptEngine
