/-
The words of a script are its tokens.

Every word of a tree that can be written is a token by itself (`blockWords_tokens`), and
a space behind it changes nothing.  So the lexer cuts the text of words into these
words, and their tokens stand on one line (`tokens_render`).  The same holds of any
tokens, however they are spelled (`tokens_written`).
-/
import ScriptEngine.Proofs.Printing.Spelling

namespace ScriptEngine
namespace Printing

open Lexer

/-! ## The words of a tree -/

/-- All the words are tokens. -/
def AllTokens (words : List Piece) : Prop := ∀ w ∈ words, IsToken w

section
variable {w : Piece} {words more : List Piece}

theorem AllTokens.nil : AllTokens [] := nofun

theorem AllTokens.cons (hw : IsToken w) (h : AllTokens words) : AllTokens (w :: words) :=
  List.forall_mem_cons.mpr ⟨hw, h⟩

theorem AllTokens.single (hw : IsToken w) : AllTokens [w] := .cons hw .nil

theorem AllTokens.append (h : AllTokens words) (hmore : AllTokens more) :
    AllTokens (words ++ more) := List.forall_mem_append.mpr ⟨h, hmore⟩

theorem opening_token : IsToken opening := fixed_token (by decide)

theorem closing_token : IsToken closing := fixed_token (by decide)

theorem binary_token (op : BinaryOp) : IsToken (word op.kind op.text) := by
  cases op <;> exact fixed_token (by decide)

theorem unary_token (op : UnaryOp) : IsToken (word op.kind op.text) := by
  cases op <;> exact fixed_token (by decide)

theorem grouped_tokens {needed : Nat} {e : Expr} (h : AllTokens words) :
    AllTokens (grouped needed e words) := by
  unfold grouped
  split
  · exact .cons opening_token (h.append (.single closing_token))
  · exact h

end

section
variable (spell : Location → Float → String)

mutual

theorem exprWords_tokens : ∀ e, PrintableExpr spell e → AllTokens (exprWords spell e)
  | .number .., h => .single (numeral_token h.1)
  | .bool _ true, _ => .single (fixed_token (by decide))
  | .bool _ false, _ => .single (fixed_token (by decide))
  | .string _ value, _ => .single (literal_token value)
  | .variable _, h => .single (name_token h)
  | .binary op left right, h =>
    (grouped_tokens (exprWords_tokens left h.1)).append
      (.cons (binary_token op) (grouped_tokens (exprWords_tokens right h.2)))
  | .unary _ op e, h => .cons (unary_token op) (grouped_tokens (exprWords_tokens e h))
  | .member object _, h =>
    (grouped_tokens (exprWords_tokens object h.1)).append
      (.cons (fixed_token (by decide)) (.single (name_token h.2)))
  | .method object _ args, h =>
    (grouped_tokens (exprWords_tokens object h.1)).append
      (.cons (fixed_token (by decide)) (.cons (name_token h.2.1)
        (.cons opening_token (argumentWords_tokens args h.2.2))))
  | .call _ args, h =>
    .cons (name_token h.1) (.cons opening_token (argumentWords_tokens args h.2.2))
  | .construct _ args, h =>
    .cons (name_token h.1) (.cons opening_token (argumentWords_tokens args h.2.2))

theorem argumentWords_tokens : ∀ args, PrintableArguments spell args →
    AllTokens (argumentWords spell args)
  | [], _ => .single closing_token
  | e :: rest, h => (exprWords_tokens e h.1).append (moreWords_tokens rest h.2)

theorem moreWords_tokens : ∀ args, PrintableArguments spell args →
    AllTokens (moreWords spell args)
  | [], _ => .single closing_token
  | e :: rest, h =>
    .cons (fixed_token (by decide)) ((exprWords_tokens e h.1).append (moreWords_tokens rest h.2))

end

theorem conditionWords_tokens {e : Expr} (h : PrintableExpr spell e) :
    AllTokens (conditionWords spell e) :=
  .cons opening_token ((exprWords_tokens spell e h).append (.single closing_token))

mutual

theorem stmtWords_tokens : ∀ s, PrintableStmt spell s → AllTokens (stmtWords spell s)
  | .assign _ value, h =>
    .cons (name_token h.1) (.cons (fixed_token (by decide)) (exprWords_tokens spell value h.2))
  | .branch _ _ thenBody none, h =>
    .cons (fixed_token (by decide)) ((conditionWords_tokens spell h.1).append
      ((blockWords_tokens thenBody h.2).append (.single (fixed_token (by decide)))))
  | .branch _ _ thenBody (some elseBody), h =>
    .cons (fixed_token (by decide)) ((conditionWords_tokens spell h.1).append
      ((blockWords_tokens thenBody h.2.1).append (.cons (fixed_token (by decide))
        ((blockWords_tokens elseBody h.2.2).append (.single (fixed_token (by decide)))))))
  | .loop _ _ body, h =>
    .cons (fixed_token (by decide)) ((conditionWords_tokens spell h.1).append
      ((blockWords_tokens body h.2).append (.single (fixed_token (by decide)))))
  | .expr e, h => exprWords_tokens spell e h
  | .setMember object name value, h =>
    (exprWords_tokens spell (.member object name) ⟨h.1, h.2.1⟩).append
      (.cons (fixed_token (by decide)) (exprWords_tokens spell value h.2.2))
  | .print _ false args, h =>
    .cons (fixed_token (by decide)) (.cons opening_token (argumentWords_tokens spell args h))
  | .print _ true args, h =>
    .cons (fixed_token (by decide)) (.cons opening_token (argumentWords_tokens spell args h))

theorem blockWords_tokens : ∀ body, PrintableBlock spell body →
    AllTokens (blockWords spell body)
  | [], _ => .nil
  | s :: rest, h =>
    (stmtWords_tokens s h.1).append
      (.cons (fixed_token (by decide)) (blockWords_tokens rest h.2))

end
end

/-! ## The text of words -/

section
variable {w : Piece} {words : List Piece}

/-- Behind a token comes the space before the next one. -/
theorem AllTokens.lexes (h : AllTokens (w :: words)) : w.Lexes (textOf words []) := by
  have hseparated : Separated (textOf words []) := by
    cases words with
    | nil => exact nofun
    | cons v words =>
      have hgap := (h v (List.mem_cons_of_mem w List.mem_cons_self)).gap
      refine separated_textOf (by simp [hgap]) ?_
      rw [hgap]
      rintro c ⟨⟩
      decide
  exact (h w List.mem_cons_self).lexes.stable (.inr hseparated)

theorem AllTokens.cuts (h : AllTokens words) : Cuts (textOf words []) words [] := by
  induction words with
  | nil => exact .stop fun _ => rfl
  | cons w words ih =>
    rw [textOf_cons]
    exact .piece h.lexes (ih fun v hv => h v (List.mem_cons_of_mem w hv))

theorem AllTokens.cuts_spaced (h : AllTokens words) :
    Cuts (textOf (spaced words) []) (spaced words) [] := by
  cases words with
  | nil => exact .stop fun _ => rfl
  | cons w words =>
    have hlexes : (w.behind []).Lexes (textOf words []) :=
      ⟨.nil, h.lexes.nonempty, h.lexes.solid, h.lexes.scans⟩
    rw [spaced, textOf_cons]
    exact .piece hlexes (AllTokens.cuts fun v hv => h v (List.mem_cons_of_mem w hv))

/-- No token begins with a byte order mark. -/
theorem AllTokens.body_render (h : AllTokens words) :
    Cursor.body (render words) = textOf (spaced words) [] := by
  unfold Cursor.body render
  rw [String.toList_ofList]
  split
  · next rest hmark =>
    cases words with
    | nil => cases hmark
    | cons w words =>
      have hscan := h.lexes.scans .start
      rw [spaced, textOf_cons] at hmark
      have htext : w.span ++ textOf words [] = '\uFEFF' :: rest := hmark
      rw [htext] at hscan
      have hfault : (scanToken .start ('\uFEFF' :: rest)).1.fault = none := by rw [hscan]
      cases hfault
  · rfl

theorem AllTokens.line (h : AllTokens words) : ∀ w ∈ spaced words, '\n' ∉ w.text := by
  have plain : ∀ {w}, IsToken w → '\n' ∉ w.text := by
    intro w hw
    simp [Piece.text, hw.gap, hw.lexes.line]
  cases words with
  | nil => exact List.forall_mem_nil _
  | cons w words =>
    intro v hv
    rcases List.mem_cons.mp hv with rfl | hv
    · exact (h w List.mem_cons_self).lexes.line
    · exact plain (h v (List.mem_cons_of_mem w hv))

theorem placed_line {pieces : List Piece} (h : ∀ w ∈ pieces, '\n' ∉ w.text) (l : Location) :
    ∀ t ∈ placed l pieces, t.location.line = l.line := by
  induction pieces generalizing l with
  | nil => exact nofun
  | cons w pieces ih =>
    intro t ht
    have hw := h w List.mem_cons_self
    rcases List.mem_cons.mp ht with rfl | ht
    · have hgap : '\n' ∉ w.gap := fun hmem => hw (List.mem_append_left _ hmem)
      rw [Location.after_line, List.count_eq_zero.mpr hgap]
      rfl
    · rw [ih (fun v hv => h v (List.mem_cons_of_mem w hv)) _ t ht, Location.after_line,
        List.count_eq_zero.mpr hw]
      rfl

theorem AllTokens.render_line (h : AllTokens words) : '\n' ∉ (render words).toList := by
  have hline := h.line
  simpa [render, textOf] using hline

/-- The tokens are the words, without a fault. -/
def Spells (tokens : List Scanned) (words : List Piece) : Prop :=
  tokens.map (fun s => (s.token.kind, s.token.lexeme, s.fault)) =
    words.map fun w => (w.kind, w.lexeme, none)

theorem spells_placed (pieces : List Piece) (l : Location) :
    Spells ((placed l pieces).map fun t => ⟨t, none⟩) pieces := by
  induction pieces generalizing l with
  | nil => rfl
  | cons w pieces ih => exact congrArg _ (ih _)

/-- The tokens of the text of words are the words, and they stand on one line. -/
theorem tokens_render (h : AllTokens words) :
    Spells (TokenStream.ofString (render words)).tokens words ∧
      ∀ s ∈ (TokenStream.ofString (render words)).tokens, s.token.location.line = 1 := by
  have hcuts := h.cuts_spaced
  rw [← h.body_render] at hcuts
  rw [TokenStream.ofString_cuts hcuts]
  constructor
  · have hspells := spells_placed (spaced words) .start
    cases words <;> exact hspells
  · intro s hs
    obtain ⟨t, ht, rfl⟩ := List.mem_map.mp hs
    exact placed_line h.line .start t ht

end

/-! ## The text of any tokens -/

/-- A token and a text that spells it. -/
structure Written where
  kind : TokenKind
  lexeme : String
  text : String
  spelled : Spelled kind lexeme text.toList

def Written.piece (w : Written) : Piece := ⟨[' '], w.text.toList, w.kind, w.lexeme⟩

theorem intercalate_space (first : List Char) (rest : List (List Char)) :
    [' '].intercalate (first :: rest) = first ++ rest.flatMap (' ' :: ·) := by
  induction rest generalizing first with
  | nil => simp [List.intercalate]
  | cons second rest ih =>
    have hsecond := ih second
    simp only [List.intercalate, List.intersperse_cons_cons, List.flatten_cons] at hsecond ⊢
    rw [hsecond]
    rfl

theorem render_written (ws : List Written) :
    render (ws.map Written.piece) = " ".intercalate (ws.map (·.text)) := by
  have hmore : ∀ more : List Written, textOf (more.map Written.piece) [] =
      (more.map fun w => w.text.toList).flatMap (' ' :: ·) := by
    intro more
    simp [textOf, List.flatMap_map, Piece.text, Written.piece]
  rw [← String.toList_inj, String.toList_intercalate, render, String.toList_ofList, List.map_map]
  cases ws with
  | nil => rfl
  | cons w ws =>
    show textOf (w.piece.behind [] :: ws.map Written.piece) [] =
      [' '].intercalate (w.text.toList :: ws.map fun w => w.text.toList)
    rw [textOf_cons, hmore, intercalate_space]
    rfl

/-- Tokens that are written one behind the other, with one space between them, are read back as
they are, without a fault. -/
theorem tokens_written (ws : List Written) :
    let stream := TokenStream.ofString (" ".intercalate (ws.map (·.text)))
    stream.tokens.map (fun s => (s.token.kind, s.token.lexeme)) =
        ws.map (fun w => (w.kind, w.lexeme)) ∧
      stream.faults = [] := by
  have htokens : AllTokens (ws.map Written.piece) := by
    intro w hw
    obtain ⟨w, -, rfl⟩ := List.mem_map.mp hw
    exact w.spelled.token
  have hspells := (tokens_render htokens).1
  rw [render_written, Spells] at hspells
  constructor
  · have hpairs := congrArg (List.map fun t => (t.1, t.2.1)) hspells
    simpa [Function.comp_def, Written.piece] using hpairs
  · refine List.filterMap_eq_nil_iff.mpr fun s hs => ?_
    have hmem := List.mem_map_of_mem (f := fun s => (s.token.kind, s.token.lexeme, s.fault)) hs
    rw [hspells] at hmem
    obtain ⟨w, -, hw⟩ := List.mem_map.mp hmem
    exact (congrArg (·.2.2) hw).symm

end Printing
end ScriptEngine
