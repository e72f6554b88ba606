/-
A text as the pieces that the lexer cuts it into.

A gap is made of blanks and of comments with the newlines that end them; such a gap is
skipped whatever stands behind it (`Skips`).  A piece is a gap with the token behind it.
A text that the lexer scans without a fault is a sequence of pieces and a last gap
(`cuts_cut`), its tokens are those of the pieces (`Cuts.scanAll`), and before every
piece another gap can stand as long as it begins with a blank (`Cuts.respace`).
-/
import ScriptEngine.Proofs.Token.Scanning

namespace ScriptEngine

theorem Location.after_line (l : Location) (cs : List Char) :
    (l.after cs).line = l.line + cs.count '\n' := by
  induction cs generalizing l with
  | nil => rfl
  | cons c cs ih =>
    rw [Location.after_cons, ih, Location.step]
    by_cases hc : c = '\n'
    · rw [if_pos hc, hc, List.count_cons_self]
      simp only [nextLine]
      omega
    · rw [if_neg hc, List.count_cons_of_ne hc]
      rfl

namespace Lexer

/-! ## Gaps -/

/-- The gap is skipped whatever stands behind it. -/
def Skips (gap : List Char) : Prop :=
  ∀ l rest, skipGap l (gap ++ rest) = skipGap (l.after gap) rest

/-- The rest of a comment, and a gap, that are skipped whatever stands behind them. -/
def SkipsComment (gap : List Char) : Prop :=
  ∀ l rest, skipComment l (gap ++ rest) = skipGap (l.after gap) rest

/-- The text begins with no gap. -/
def Solid : List Char → Prop
  | [] => True
  | c :: rest => Text.isBlank c = false ∧ ¬ (c = '/' ∧ rest.head? = some '/')

theorem Solid.skipGap {cs : List Char} (h : Solid cs) (l : Location) : skipGap l cs = ⟨l, cs⟩ := by
  cases cs with
  | nil => rfl
  | cons c rest =>
    rw [Lexer.skipGap, if_neg (by simp [h.1])]
    rintro more rfl rfl
    exact h.2 ⟨rfl, rfl⟩

theorem Solid.stable {span rest other : List Char} (h : Solid (span ++ rest)) (hne : span ≠ [])
    (ho : EndsLike rest other) : Solid (span ++ other) := by
  cases span with
  | nil => exact absurd rfl hne
  | cons c span =>
    refine ⟨h.1, fun hcomment => h.2 ?_⟩
    cases span with
    | cons d span => exact hcomment
    | nil =>
      refine ⟨hcomment.1, ?_⟩
      rcases ho with ho | ho
      · exact ho.symm.trans hcomment.2
      · exact absurd (ho _ hcomment.2) (by decide)

theorem skipGap_blank {l : Location} {c : Char} (h : Text.isBlank c = true) (rest : List Char) :
    skipGap l (c :: rest) = skipGap (l.step c) rest := by
  rw [skipGap, if_pos h]
  rintro more rfl
  exact absurd h (by decide)

theorem Skips.nil : Skips [] := fun _ _ => rfl

theorem Skips.blank {c : Char} {gap : List Char} (hc : Text.isBlank c = true) (h : Skips gap) :
    Skips (c :: gap) := by
  intro l rest
  rw [List.cons_append, skipGap_blank hc, h]
  rfl

theorem skips_of_blank {gap : List Char} (h : ∀ c ∈ gap, Text.isBlank c = true) : Skips gap := by
  induction gap with
  | nil => exact .nil
  | cons c gap ih =>
    exact .blank (h c List.mem_cons_self) (ih fun d hd => h d (List.mem_cons_of_mem _ hd))

theorem Skips.comment {gap : List Char} (h : SkipsComment gap) : Skips ('/' :: '/' :: gap) := by
  intro l rest
  rw [List.cons_append, List.cons_append, skipGap, h]
  rfl

theorem SkipsComment.newline {gap : List Char} (h : Skips gap) : SkipsComment ('\n' :: gap) := by
  intro l rest
  rw [List.cons_append, skipComment, if_pos rfl, h]
  rfl

theorem SkipsComment.cons {c : Char} {gap : List Char} (hc : c ≠ '\n') (h : SkipsComment gap) :
    SkipsComment (c :: gap) := by
  intro l rest
  rw [List.cons_append, skipComment, if_neg hc, h]
  rfl

mutual

/-- A text is all gap, or a gap and a text that begins with none. -/
theorem skipGap_split (cs : List Char) : (∀ l, (skipGap l cs).rest = []) ∨
    ∃ gap rest, cs = gap ++ rest ∧ rest ≠ [] ∧ Skips gap ∧ Solid rest := by
  cases cs with
  | nil => exact .inl fun _ => rfl
  | cons c cs =>
    by_cases hblank : Text.isBlank c
    · rcases skipGap_split cs with h | ⟨gap, rest, rfl, hne, hgap, hrest⟩
      · exact .inl fun l => by rw [skipGap_blank hblank, h]
      · exact .inr ⟨c :: gap, rest, rfl, hne, .blank hblank hgap, hrest⟩
    · by_cases hcomment : c = '/' ∧ cs.head? = some '/'
      · obtain ⟨rfl, hhead⟩ := hcomment
        obtain ⟨more, rfl⟩ := List.head?_eq_some_iff.mp hhead
        rcases skipComment_split more with h | ⟨gap, rest, rfl, hne, hgap, hrest⟩
        · exact .inl fun l => by rw [skipGap, h]
        · exact .inr ⟨'/' :: '/' :: gap, rest, rfl, hne, .comment hgap, hrest⟩
      · exact .inr ⟨[], c :: cs, rfl, by simp, .nil, by simpa using hblank, hcomment⟩
termination_by cs.length

theorem skipComment_split (cs : List Char) : (∀ l, (skipComment l cs).rest = []) ∨
    ∃ gap rest, cs = gap ++ rest ∧ rest ≠ [] ∧ SkipsComment gap ∧ Solid rest := by
  cases cs with
  | nil => exact .inl fun _ => rfl
  | cons c cs =>
    by_cases hline : c = '\n'
    · subst hline
      rcases skipGap_split cs with h | ⟨gap, rest, rfl, hne, hgap, hrest⟩
      · exact .inl fun l => by rw [skipComment, if_pos rfl, h]
      · exact .inr ⟨'\n' :: gap, rest, rfl, hne, .newline hgap, hrest⟩
    · rcases skipComment_split cs with h | ⟨gap, rest, rfl, hne, hgap, hrest⟩
      · exact .inl fun l => by rw [skipComment, if_neg hline, h]
      · exact .inr ⟨c :: gap, rest, rfl, hne, .cons hline hgap, hrest⟩
termination_by cs.length

end

/-! ## Pieces of a text -/

/-- A token without a fault, as it stands in a text behind a gap. -/
structure Piece where
  gap : List Char
  span : List Char
  kind : TokenKind
  lexeme : String
  deriving DecidableEq, Repr

namespace Piece

def text (piece : Piece) : List Char := piece.gap ++ piece.span

/-- The same token behind another gap. -/
def behind (gap : List Char) (piece : Piece) : Piece := { piece with gap := gap }

/-- The piece gives the token, if it stands before the given text. -/
structure Lexes (piece : Piece) (rest : List Char) : Prop where
  skips : Skips piece.gap
  nonempty : piece.span ≠ []
  solid : Solid (piece.span ++ rest)
  scans : Scans piece.span piece.kind piece.lexeme rest

/-- What the scan of a token says about the piece: the line it stands on, its text, and what may
follow it. -/
theorem Lexes.scanned {piece : Piece} {rest : List Char} (h : piece.Lexes rest) :
    '\n' ∉ piece.span ∧ (piece.kind ≠ .string → piece.lexeme = String.ofList piece.span) ∧
      ∀ other, EndsLike rest other → piece.Lexes other := by
  have hscan := h.scans .start
  have hne : piece.span ++ rest ≠ [] := by simp [h.nonempty]
  have hfault : (scanToken .start (piece.span ++ rest)).1.fault = none := by rw [hscan]
  obtain ⟨span, more, kind, lexeme, heq, -, hline, htext, hstable⟩ := scanToken_stable hne hfault
  have hscan' := hstable more (.refl more) .start
  rw [← heq, hscan] at hscan'
  simp only [Prod.mk.injEq, Scanned.mk.injEq, Token.mk.injEq, Cursor.mk.injEq] at hscan'
  obtain ⟨⟨⟨rfl, rfl, -⟩, -⟩, -, rfl⟩ := hscan'
  obtain rfl := List.append_cancel_right heq
  exact ⟨hline, htext, fun other ho =>
    ⟨h.skips, h.nonempty, h.solid.stable h.nonempty ho, hstable other ho⟩⟩

section
variable {piece : Piece} {rest : List Char}

theorem Lexes.line (h : piece.Lexes rest) : '\n' ∉ piece.span := h.scanned.1

theorem Lexes.lexeme (h : piece.Lexes rest) (hkind : piece.kind ≠ .string) :
    piece.lexeme = String.ofList piece.span := h.scanned.2.1 hkind

theorem Lexes.stable {other : List Char} (h : piece.Lexes rest) (ho : EndsLike rest other) :
    piece.Lexes other := h.scanned.2.2 other ho

end

end Piece

/-- The text that pieces make up. -/
def textOf (pieces : List Piece) (tail : List Char) : List Char :=
  pieces.flatMap Piece.text ++ tail

theorem textOf_cons (piece : Piece) (pieces : List Piece) (tail : List Char) :
    textOf (piece :: pieces) tail = piece.gap ++ (piece.span ++ textOf pieces tail) := by
  simp [textOf, Piece.text]

/-- The lexer cuts a text into pieces and a gap at its end, without a fault. -/
inductive Cuts : List Char → List Piece → List Char → Prop
  | stop {tail : List Char} : (∀ l, (skipGap l tail).rest = []) → Cuts tail [] tail
  | piece {piece : Piece} {pieces rest tail} : piece.Lexes rest → Cuts rest pieces tail →
      Cuts (piece.gap ++ (piece.span ++ rest)) (piece :: pieces) tail

theorem Cuts.text {cs tail : List Char} {pieces : List Piece} (h : Cuts cs pieces tail) :
    cs = textOf pieces tail := by
  induction h with
  | stop => rfl
  | piece _ _ ih => rw [textOf_cons, ← ih]

/-- The tokens of pieces that begin at a place. -/
def placed (l : Location) : List Piece → List Token
  | [] => []
  | piece :: rest =>
    ⟨piece.kind, piece.lexeme, l.after piece.gap⟩ :: placed (l.after piece.text) rest

theorem Cuts.scanAll {cs tail : List Char} {pieces : List Piece} (h : Cuts cs pieces tail)
    {l : Location} {budget : Nat} (hb : cs.length ≤ budget) :
    (scanAll budget ⟨l, cs⟩).tokens = (placed l pieces).map fun t => ⟨t, none⟩ := by
  induction h generalizing l budget with
  | stop hstop =>
    cases budget with
    | zero => rfl
    | succ budget => simp [Lexer.scanAll, hstop, placed]
  | @piece piece pieces rest tail hlexes _ ih =>
    have hspan := List.length_pos_iff.mpr hlexes.nonempty
    simp only [List.length_append] at hb
    cases budget with
    | zero => omega
    | succ budget =>
      unfold Lexer.scanAll
      dsimp only
      rw [hlexes.skips, hlexes.solid.skipGap]
      dsimp only
      rw [hlexes.scans, if_neg (by simp [hlexes.nonempty])]
      dsimp only
      rw [ih (by omega), ← Location.after_append]
      rfl

/-- The pieces of a text, at most the given number of them, and what is left of it.  The lexer
says how much of the text it takes, wherever the text stands. -/
def cutIn : Nat → List Char → List Piece × List Char
  | 0, cs => ([], cs)
  | budget + 1, cs =>
    let solid := (skipGap .start cs).rest
    if solid.isEmpty then ([], cs)
    else
      let (token, behind) := scanToken .start solid
      let (pieces, tail) := cutIn budget behind.rest
      (⟨cs.take (cs.length - solid.length), solid.take (solid.length - behind.rest.length),
        token.token.kind, token.token.lexeme⟩ :: pieces, tail)

def cut (cs : List Char) : List Piece × List Char := cutIn cs.length cs

theorem take_append_sub (span rest : List Char) :
    (span ++ rest).take ((span ++ rest).length - rest.length) = span := by
  rw [List.length_append, Nat.add_sub_cancel, List.take_left]

theorem cuts_cutIn {cs : List Char} {l : Location} {budget : Nat} (hb : cs.length ≤ budget)
    (h : ∀ s ∈ (scanAll budget ⟨l, cs⟩).tokens, s.fault = none) :
    Cuts cs (cutIn budget cs).1 (cutIn budget cs).2 := by
  induction budget generalizing cs l with
  | zero =>
    obtain rfl := List.length_eq_zero_iff.mp (Nat.le_zero.mp hb)
    exact .stop fun _ => rfl
  | succ budget ih =>
    rcases skipGap_split cs with hend | ⟨gap, rest, rfl, hne, hgap, hsolid⟩
    · have hstop : cutIn (budget + 1) cs = ([], cs) := by simp [cutIn, hend]
      rw [hstop]
      exact .stop hend
    · unfold scanAll at h
      dsimp only at h
      rw [hgap, hsolid.skipGap, if_neg (by simp [hne])] at h
      dsimp only at h
      obtain ⟨span, more, kind, lexeme, rfl, hspan, -, -, hstable⟩ :=
        scanToken_stable hne (h _ List.mem_cons_self)
      have hscans := hstable more (.refl more)
      rw [hscans] at h
      have hlen := List.length_pos_iff.mpr hspan
      simp only [List.length_append] at hb
      have hcuts := ih (by omega) fun s hs => h s (List.mem_cons_of_mem _ hs)
      have hlexes : Piece.Lexes ⟨gap, span, kind, lexeme⟩ more := ⟨hgap, hspan, hsolid, hscans⟩
      have hstep : cutIn (budget + 1) (gap ++ (span ++ more)) =
          (⟨gap, span, kind, lexeme⟩ :: (cutIn budget more).1, (cutIn budget more).2) := by
        rw [cutIn]
        dsimp only
        rw [hgap, hsolid.skipGap, if_neg (by simp [hne])]
        dsimp only
        rw [hscans]
        dsimp only
        rw [take_append_sub, take_append_sub]
      rw [hstep]
      exact .piece hlexes hcuts

/-- A text without a fault is cut into its pieces. -/
theorem cuts_cut {cs : List Char}
    (h : ∀ s ∈ (TokenStream.ofCursor ⟨.start, cs⟩).tokens, s.fault = none) :
    Cuts cs (cut cs).1 (cut cs).2 := cuts_cutIn (Nat.le_refl _) h

/-! ## Another gap -/

theorem endsLike_textOf {piece : Piece} {pieces others : List Piece} {tail : List Char}
    (h : piece.span ≠ []) :
    EndsLike (textOf (piece :: pieces) tail) (textOf (piece :: others) tail) := by
  obtain ⟨c, span, hspan⟩ := List.exists_cons_of_ne_nil h
  refine .inl ?_
  rw [textOf_cons, textOf_cons, hspan]
  cases piece.gap <;> rfl

theorem separated_textOf {piece : Piece} {pieces : List Piece} {tail : List Char}
    (hne : piece.gap ≠ []) (h : Separated piece.gap) : Separated (textOf (piece :: pieces) tail) := by
  obtain ⟨c, gap, hgap⟩ := List.exists_cons_of_ne_nil hne
  intro d hd
  refine h d ?_
  rw [← hd, textOf_cons, hgap]
  rfl

/-- A gap that begins with a blank can stand before any piece in place of the one that does. -/
theorem Cuts.respace {cs tail gap : List Char} {left right : List Piece} {piece : Piece}
    (h : Cuts cs (left ++ piece :: right) tail) (hgap : Skips gap) (hne : gap ≠ [])
    (hblank : Separated gap) :
    Cuts (textOf (left ++ piece.behind gap :: right) tail)
      (left ++ piece.behind gap :: right) tail := by
  induction left generalizing cs with
  | nil =>
    cases h with
    | piece hlexes hcuts =>
      have hlexes' : (piece.behind gap).Lexes (textOf right tail) := by
        rw [hcuts.text] at hlexes
        exact ⟨hgap, hlexes.nonempty, hlexes.solid, hlexes.scans⟩
      rw [hcuts.text] at hcuts
      have hwhole := Cuts.piece hlexes' hcuts
      rwa [← textOf_cons] at hwhole
  | cons first left ih =>
    cases h with
    | piece hlexes hcuts =>
      have hrest := ih hcuts
      have hends : EndsLike (textOf (left ++ piece :: right) tail)
          (textOf (left ++ piece.behind gap :: right) tail) := by
        cases left with
        | nil => exact .inr (separated_textOf hne hblank)
        | cons second left =>
          cases hcuts with
          | piece hsecond _ => exact endsLike_textOf hsecond.nonempty
      rw [hcuts.text] at hlexes
      have hwhole := Cuts.piece (hlexes.stable hends) hrest
      rwa [← textOf_cons] at hwhole

end Lexer

theorem TokenStream.ofString_cuts {text : String} {pieces : List Lexer.Piece} {tail : List Char}
    (h : Lexer.Cuts (Cursor.body text) pieces tail) :
    (TokenStream.ofString text).tokens =
      (Lexer.placed .start pieces).map fun t => ⟨t, none⟩ := h.scanAll (Nat.le_refl _)

end ScriptEngine
