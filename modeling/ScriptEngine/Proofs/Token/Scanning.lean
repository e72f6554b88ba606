/-
A token is scanned alike behind every text that ends it.

The lexer takes the longest token, and to see that a token has ended it looks at the
next character only.  A blank ends every token, except that a string goes on to its
quote.  So a token that has been scanned without a fault is scanned again when the
text behind it is changed for one that begins with the same character or with a
blank, and what it is does not depend on where it stands (`scanToken_stable`).
-/
import ScriptEngine.Proofs.Runs
import ScriptEngine.Proofs.Token.Kinds

namespace ScriptEngine
namespace Lexer

open Decimal (isDigit)

/-! ## What follows a token -/

/-- The text is empty or begins with a blank, so that it ends any token before it. -/
def Separated (cs : List Char) : Prop := ∀ c, cs.head? = some c → Text.isBlank c = true

/-- The text ends every token that `rest` ends. -/
def EndsLike (rest other : List Char) : Prop := other.head? = rest.head? ∨ Separated other

theorem EndsLike.refl (rest : List Char) : EndsLike rest rest := .inl rfl

theorem EndsLike.stop {rest other : List Char} (h : EndsLike rest other) {p : Char → Bool}
    (hrest : ∀ c, rest.head? = some c → p c = false)
    (hblank : ∀ c, Text.isBlank c = true → p c = false) :
    ∀ c, other.head? = some c → p c = false := by
  intro c hc
  rcases h with h | h
  · exact hrest c (h ▸ hc)
  · exact hblank c (h c hc)

theorem isBlank_toNat {c : Char} (h : Text.isBlank c = true) : c.toNat ≤ 32 ∨ 127 ≤ c.toNat := by
  simp [Text.isBlank, Text.inRanges, Text.blankRanges] at h
  omega

theorem isBlank_ne {c d : Char} (h : Text.isBlank c = true)
    (hd : 32 < d.toNat ∧ d.toNat < 127) : c ≠ d := by
  rintro rfl
  have hc := isBlank_toNat h
  omega

theorem EndsLike.ne {rest other : List Char} (h : EndsLike rest other) {d : Char}
    (hrest : ∀ more, rest ≠ d :: more) (hd : 32 < d.toNat ∧ d.toNat < 127) :
    ∀ more, other ≠ d :: more := by
  rintro more rfl
  rcases h with h | h
  · cases rest with
    | nil => cases h
    | cons c rest =>
      obtain rfl : d = c := by simpa using h
      exact hrest rest rfl
  · exact isBlank_ne (h d rfl) hd rfl

theorem isBlank_isDigit {c : Char} (h : Text.isBlank c = true) : isDigit c = false := by
  have hc := isBlank_toNat h
  have h0 : '0'.toNat = 48 := rfl
  have h9 : '9'.toNat = 57 := rfl
  simp only [isDigit, Char.le_def, UInt32.le_iff_toNat_le, decide_eq_false_iff_not]
  rintro ⟨hlow, hhigh⟩
  change 48 ≤ c.toNat at hlow
  change c.toNat ≤ 57 at hhigh
  omega

theorem isBlank_isNamePart {c : Char} (h : Text.isBlank c = true) : isNamePart c = false := by
  have hc := isBlank_toNat h
  have hstart : isNameStart c = false := by
    simp only [isNameStart, Char.le_def, UInt32.le_iff_toNat_le, decide_eq_false_iff_not]
    rintro (⟨hlow, hhigh⟩ | ⟨hlow, hhigh⟩ | rfl)
    · change 97 ≤ c.toNat at hlow
      change c.toNat ≤ 122 at hhigh
      omega
    · change 65 ≤ c.toNat at hlow
      change c.toNat ≤ 90 at hhigh
      omega
    · revert h
      decide
  simp [isNamePart, hstart, isBlank_isDigit h]

/-! ## Strings -/

section
variable {quote : Char} {start l : Location}

theorem scanString_close (hline : quote ≠ '\n') (rest : List Char) :
    scanString start quote l (quote :: rest) = ⟨[], ⟨l.step quote, rest⟩, none⟩ := by
  rw [scanString.eq_def]
  simp only [if_neg hline, if_true]

theorem scanString_plain {c : Char} (hline : c ≠ '\n') (hquote : c ≠ quote) (hescape : c ≠ '\\')
    (rest : List Char) :
    scanString start quote l (c :: rest) = (scanString start quote (l.step c) rest).push c := by
  rw [scanString.eq_def]
  simp only [if_neg hline, if_neg hquote, if_neg hescape]

theorem scanString_escape {e d : Char} (hquote : '\\' ≠ quote) (hline : e ≠ '\n')
    (he : escaped? e = some d) (rest : List Char) :
    scanString start quote l ('\\' :: e :: rest) =
      (scanString start quote ((l.step '\\').step e) rest).push d := by
  rw [scanString, if_neg (by decide), if_neg hquote, if_pos rfl, if_neg hline, he]

/-- A literal that ends is scanned alike whatever stands behind it, and it ends on its line. -/
theorem scanString_stable {cs : List Char} (h : (scanString start quote l cs).fault = none) :
    ∃ span rest contents, cs = span ++ rest ∧ '\n' ∉ span ∧ ∀ start l other,
      scanString start quote l (span ++ other) = ⟨contents, ⟨l.after span, other⟩, none⟩ := by
  fun_induction scanString start quote l cs with
  | case1 | case2 | case4 | case5 => cases h
  | case3 l rest hline =>
    exact ⟨[quote], rest, [], rfl, by simp [Ne.symm hline],
      fun start l other => scanString_close hline other⟩
  | case6 l c rest hline d he _ hquote ih =>
    obtain ⟨span, rest, contents, rfl, hspan, hscan⟩ := ih h
    refine ⟨'\\' :: c :: span, rest, d :: contents, rfl, by simp [hspan, Ne.symm hline],
      fun start l other => ?_⟩
    rw [List.cons_append, List.cons_append, scanString_escape hquote hline he, hscan]
    rfl
  | case7 l c rest _ _ _ _ _ =>
    unfold StringBody.note at h
    split at h
    · next hfault =>
      rw [hfault] at h
      cases h
    · cases h
  | case8 l c rest hline hquote hescape ih =>
    obtain ⟨span, rest, contents, rfl, hspan, hscan⟩ := ih h
    refine ⟨c :: span, rest, c :: contents, rfl, by simp [hspan, Ne.symm hline],
      fun start l other => ?_⟩
    rw [List.cons_append, scanString_plain hline hquote hescape, hscan]
    rfl

end

/-! ## Numbers -/

theorem splitMantissa_stable {cs mantissa rest : List Char}
    (h : splitMantissa cs = (mantissa, rest)) :
    cs = mantissa ++ rest ∧ '\n' ∉ mantissa ∧ ∀ other, EndsLike rest other →
      splitMantissa (mantissa ++ other) = (mantissa, other) := by
  have hrun : ∀ ds : List Char, '\n' ∉ ds.takeWhile isDigit := notMem_takeWhile (by decide)
  unfold splitMantissa at h
  split at h
  · next more hpoint =>
    cases h
    refine ⟨?_, by simp [hrun], ?_⟩
    · rw [List.append_assoc, List.cons_append, List.takeWhile_append_dropWhile, ← hpoint,
        List.takeWhile_append_dropWhile]
    · intro other ho
      have hfraction := takeWhile_run more
        (ho.stop (head_dropWhile more) fun _ => isBlank_isDigit)
      have hpoint : ∀ c, ('.' :: (more.takeWhile isDigit ++ other)).head? = some c →
          isDigit c = false := by
        rintro c ⟨⟩
        decide
      have hwhole := takeWhile_run cs hpoint
      rw [List.append_assoc, List.cons_append]
      simp only [splitMantissa, hwhole, hfraction]
  · next hpoint =>
    cases h
    refine ⟨List.takeWhile_append_dropWhile.symm, hrun cs, ?_⟩
    · intro other ho
      have hwhole := takeWhile_run cs (ho.stop (head_dropWhile cs) fun _ => isBlank_isDigit)
      have hother := ho.ne hpoint (by decide)
      unfold splitMantissa
      rw [hwhole.1, hwhole.2]
      split
      · exact absurd rfl (hother _)
      · rfl

theorem splitSign_stable {cs sign digits : List Char} (h : splitSign cs = (sign, digits)) :
    cs = sign ++ digits ∧ '\n' ∉ sign ∧ ∀ d rest, isDigit d = true →
      splitSign (sign ++ d :: rest) = (sign, d :: rest) := by
  unfold splitSign at h
  split at h
  · cases h
    exact ⟨rfl, by simp, fun _ _ _ => rfl⟩
  · cases h
    exact ⟨rfl, by simp, fun _ _ _ => rfl⟩
  · cases h
    refine ⟨rfl, by simp, fun d rest hd => ?_⟩
    unfold splitSign
    split
    · next heq =>
      obtain rfl : d = '+' := (List.cons.inj heq).1
      exact absurd hd (by decide)
    · next heq =>
      obtain rfl : d = '-' := (List.cons.inj heq).1
      exact absurd hd (by decide)
    · rfl

theorem splitExponent_stable {cs exponent rest : List Char}
    (h : splitExponent cs = (exponent, rest, true)) :
    cs = exponent ++ rest ∧ '\n' ∉ exponent ∧ ∀ other, EndsLike rest other →
      splitExponent (exponent ++ other) = (exponent, other, true) := by
  have hplain : ∀ other, (∀ c, other.head? = some c → c ≠ 'e' ∧ c ≠ 'E') →
      splitExponent other = ([], other, true) := by
    intro other hother
    cases other with
    | nil => rfl
    | cons c other =>
      have hc := hother c rfl
      simp [splitExponent, hc]
  have hblank : ∀ c, Text.isBlank c = true → c ≠ 'e' ∧ c ≠ 'E' :=
    fun c hc => ⟨isBlank_ne hc (by decide), isBlank_ne hc (by decide)⟩
  unfold splitExponent at h
  split at h
  · cases h
    refine ⟨rfl, by simp, fun other ho => hplain other fun c hc => ?_⟩
    rcases ho with ho | ho
    · rw [hc] at ho
      cases ho
    · exact hblank c (ho c hc)
  · next mark more =>
    split at h
    · next hmark =>
      cases hsign : splitSign more with
      | mk sign digits =>
        simp only [hsign, Prod.mk.injEq] at h
        obtain ⟨rfl, rfl, hdigits⟩ := h
        obtain ⟨rfl, hline, hsigned⟩ := splitSign_stable hsign
        have hmarkline : '\n' ≠ mark := by rcases hmark with rfl | rfl <;> decide
        have hdigitline : '\n' ∉ digits.takeWhile isDigit := notMem_takeWhile (by decide) digits
        refine ⟨by simp, by simp [hmarkline, hline, hdigitline], fun other ho => ?_⟩
        have hrun := takeWhile_run digits
          (ho.stop (head_dropWhile digits) fun _ => isBlank_isDigit)
        have hother : splitSign (sign ++ (digits.takeWhile isDigit ++ other)) =
            (sign, digits.takeWhile isDigit ++ other) := by
          cases hd : digits.takeWhile isDigit with
          | nil => simp [hd] at hdigits
          | cons d ds => exact hsigned d (ds ++ other) (mem_takeWhile d (by rw [hd]; simp))
        simp only [List.cons_append, List.append_assoc, splitExponent, if_pos hmark, hother, hrun,
          hdigits]
    · next hmark =>
      cases h
      refine ⟨rfl, by simp, fun other ho => hplain other fun c hc => ?_⟩
      rcases ho with ho | ho
      · obtain rfl : c = mark := by simpa [hc] using ho
        exact not_or.mp hmark
      · exact hblank c (ho c hc)


/-! ## Single tokens -/

/-- The lexer takes the span off the text as a token without a fault. -/
def Scans (span : List Char) (kind : TokenKind) (lexeme : String) (rest : List Char) : Prop :=
  ∀ l, scanToken l (span ++ rest) = (⟨⟨kind, lexeme, l⟩, none⟩, ⟨l.after span, rest⟩)

theorem startsNumber_splitMantissa {cs mantissa rest : List Char} (h : startsNumber cs = true)
    (hm : splitMantissa cs = (mantissa, rest)) (other : List Char) :
    mantissa ≠ [] ∧ startsNumber (mantissa ++ other) = true := by
  cases cs with
  | nil => cases h
  | cons c cs =>
    by_cases hdigit : isDigit c = true
    · have hmantissa : ∃ more, mantissa = c :: more := by
        unfold splitMantissa at hm
        split at hm <;> cases hm <;> simp [hdigit]
      obtain ⟨more, rfl⟩ := hmantissa
      refine ⟨by simp, ?_⟩
      unfold startsNumber
      split
      · next heq =>
        obtain rfl : c = '.' := (List.cons.inj heq).1
        exact absurd hdigit (by decide)
      · next heq =>
        obtain rfl := (List.cons.inj heq).1
        exact hdigit
      · next heq => cases heq
    · unfold startsNumber at h
      split at h
      · next d more heq =>
        cases heq
        have hmantissa : mantissa = '.' :: d :: more.takeWhile isDigit := by
          simp [splitMantissa, hdigit, h] at hm
          exact hm.1.symm
        rw [hmantissa]
        exact ⟨by simp, h⟩
      · next heq =>
        obtain rfl := (List.cons.inj heq).1
        exact absurd h hdigit
      · cases h

theorem scanToken_number {l : Location} {cs : List Char} (h : startsNumber cs = true) :
    scanToken l cs = scanNumber l cs := by
  unfold scanToken
  split
  · cases h
  · cases h
  · rw [if_pos h]
  · cases h

theorem scanNumber_stable {cs : List Char} {l : Location} (hs : startsNumber cs = true)
    (h : (scanNumber l cs).1.fault = none) :
    ∃ span rest, cs = span ++ rest ∧ span ≠ [] ∧ '\n' ∉ span ∧ ∀ other, EndsLike rest other →
      Scans span .number (String.ofList span) other := by
  cases hm : splitMantissa cs with
  | mk mantissa behind =>
    cases he : splitExponent behind with
    | mk exponent more =>
      obtain ⟨rest, complete⟩ := more
      simp only [scanNumber, hm, he] at h
      cases complete with
      | false => cases h
      | true =>
        obtain ⟨rfl, hmline, hmantissa⟩ := splitMantissa_stable hm
        obtain ⟨rfl, heline, hexponent⟩ := splitExponent_stable he
        have hstarts := startsNumber_splitMantissa hs hm
        refine ⟨mantissa ++ exponent, rest, by simp, by simp [(hstarts []).1],
          by simp [hmline, heline], fun other ho l => ?_⟩
        have hbehind : EndsLike (exponent ++ rest) (exponent ++ other) := by
          cases exponent with
          | nil => exact ho
          | cons c exponent => exact .inl rfl
        rw [List.append_assoc, scanToken_number (hstarts _).2]
        simp only [scanNumber, hmantissa _ hbehind, hexponent _ ho, if_true]
        rfl

theorem startsNumber_cons (c : Char) (cs : List Char) :
    startsNumber (c :: cs) = (isDigit c || (c = '.' && cs.head?.any isDigit)) := by
  unfold startsNumber
  split
  · next d more heq =>
    cases heq
    simp [show isDigit '.' = false from rfl]
  · next hpoint heq =>
    cases heq
    by_cases hc : c = '.'
    · subst hc
      cases cs with
      | nil => simp
      | cons d more => exact absurd rfl (hpoint d more rfl)
    · simp [hc]
  · next heq => cases heq

theorem scanToken_plain {l : Location} {c : Char} (cs : List Char) (hdouble : c ≠ '\x22')
    (hsingle : c ≠ '\x27') :
    scanToken l (c :: cs) = if startsNumber (c :: cs) then scanNumber l (c :: cs)
      else if isNameStart c then scanName l (c :: cs) else scanOperator l (c :: cs) := by
  unfold scanToken
  split
  · next heq => exact absurd (List.cons.inj heq).1 hdouble
  · next heq => exact absurd (List.cons.inj heq).1 hsingle
  · next heq => cases heq; rfl
  · next heq => cases heq

theorem isNameStart_plain {c : Char} (h : isNameStart c = true) :
    c ≠ '\x22' ∧ c ≠ '\x27' ∧ c ≠ '.' ∧ isDigit c = false := by
  refine ⟨?_, ?_, ?_, ?_⟩
  · rintro rfl
    exact absurd h (by decide)
  · rintro rfl
    exact absurd h (by decide)
  · rintro rfl
    exact absurd h (by decide)
  · simp only [isNameStart, decide_eq_true_eq, Char.le_def, UInt32.le_iff_toNat_le] at h
    simp only [isDigit, Char.le_def, UInt32.le_iff_toNat_le, decide_eq_false_iff_not]
    rintro ⟨hlow, hhigh⟩
    change 48 ≤ c.toNat at hlow
    change c.toNat ≤ 57 at hhigh
    rcases h with ⟨h, -⟩ | ⟨h, -⟩ | rfl
    · change 97 ≤ c.toNat at h
      omega
    · change 65 ≤ c.toNat at h
      omega
    · revert hhigh
      decide

/-- A name is scanned as one token. -/
theorem scans_name {c : Char} {cs : List Char} (hc : isNameStart c = true)
    (hcs : ∀ d ∈ cs, isNamePart d = true) {rest : List Char}
    (hrest : ∀ d, rest.head? = some d → isNamePart d = false) :
    Scans (c :: cs) ((TokenKind.ofKeyword? (String.ofList (c :: cs))).getD .identifier)
      (String.ofList (c :: cs)) rest := by
  intro l
  obtain ⟨hdouble, hsingle, hpoint, hdigit⟩ := isNameStart_plain hc
  have hspan : ∀ d ∈ c :: cs, isNamePart d = true := by
    intro d hd
    rcases List.mem_cons.mp hd with rfl | hd
    · simp [isNamePart, hc]
    · exact hcs d hd
  have hrun := takeWhile_stop hspan hrest
  rw [List.cons_append, scanToken_plain _ hdouble hsingle, startsNumber_cons, if_neg (by simp [hdigit, hpoint]), if_pos hc,
    ← List.cons_append]
  simp only [scanName, hrun]
  rfl

theorem scanOperator_stable {c : Char} {cs : List Char} {l : Location}
    (h : (scanOperator l (c :: cs)).1.fault = none) (hdouble : c ≠ '\x22') (hsingle : c ≠ '\x27')
    (hnumber : ¬ startsNumber (c :: cs) = true) (hname : ¬ isNameStart c = true) :
    ∃ span rest kind, c :: cs = span ++ rest ∧ span ≠ [] ∧ '\n' ∉ span ∧
      ∀ other, EndsLike rest other → Scans span kind (String.ofList span) other := by
  unfold scanOperator at h
  split at h
  · next rest heq => exact ⟨['=', '='], rest, .equalEqual, heq, by simp, by simp, fun other _ l => rfl⟩
  · next rest heq => exact ⟨['>', '='], rest, .greaterEqual, heq, by simp, by simp, fun other _ l => rfl⟩
  · next rest heq => exact ⟨['<', '='], rest, .lessEqual, heq, by simp, by simp, fun other _ l => rfl⟩
  · next rest heq => exact ⟨['<', '>'], rest, .lessGreater, heq, by simp, by simp, fun other _ l => rfl⟩
  · next rest hequal heq =>
    refine ⟨['='], rest, .equal, heq, by simp, by simp, fun other ho l => ?_⟩
    show scanOperator l ('=' :: other) = _
    rw [scanOperator]
    · rfl
    · exact ho.ne hequal (by decide)
  · next rest hequal heq =>
    refine ⟨['>'], rest, .greater, heq, by simp, by simp, fun other ho l => ?_⟩
    show scanOperator l ('>' :: other) = _
    rw [scanOperator]
    · rfl
    · exact ho.ne hequal (by decide)
  · next rest hequal hgreater heq =>
    refine ⟨['<'], rest, .less, heq, by simp, by simp, fun other ho l => ?_⟩
    show scanOperator l ('<' :: other) = _
    rw [scanOperator]
    · rfl
    · exact ho.ne hequal (by decide)
    · exact ho.ne hgreater (by decide)
  · next rest heq => exact ⟨['('], rest, .leftParen, heq, by simp, by simp, fun other _ l => rfl⟩
  · next rest heq => exact ⟨[')'], rest, .rightParen, heq, by simp, by simp, fun other _ l => rfl⟩
  · next rest heq => exact ⟨[','], rest, .comma, heq, by simp, by simp, fun other _ l => rfl⟩
  · next rest heq =>
    refine ⟨['.'], rest, .dot, heq, by simp, by simp, fun other ho l => ?_⟩
    obtain ⟨rfl, hcs⟩ := List.cons.inj heq
    have hdigit : ∀ d, rest.head? = some d → isDigit d = false := by
      intro d hd
      rw [hcs, startsNumber_cons, hd] at hnumber
      simp at hnumber
      exact hnumber.2
    have hother := ho.stop hdigit fun _ => isBlank_isDigit
    have hstarts : startsNumber ('.' :: other) = false := by
      rw [startsNumber_cons]
      cases other with
      | nil => rfl
      | cons d more => simpa using ⟨rfl, hother d rfl⟩
    rw [List.singleton_append, scanToken_plain _ hdouble hsingle, hstarts]
    rfl
  · next rest heq => exact ⟨[';'], rest, .semicolon, heq, by simp, by simp, fun other _ l => rfl⟩
  · next rest heq => exact ⟨['+'], rest, .plus, heq, by simp, by simp, fun other _ l => rfl⟩
  · next rest heq => exact ⟨['-'], rest, .minus, heq, by simp, by simp, fun other _ l => rfl⟩
  · next rest heq => exact ⟨['*'], rest, .star, heq, by simp, by simp, fun other _ l => rfl⟩
  · next rest heq => exact ⟨['/'], rest, .slash, heq, by simp, by simp, fun other _ l => rfl⟩
  · cases h
  · next heq => cases heq

/-- A token without a fault stands on one line, is named by its text unless it is a string, and
is the same behind every text that ends it. -/
theorem scanToken_stable {cs : List Char} {l : Location} (hcs : cs ≠ [])
    (h : (scanToken l cs).1.fault = none) :
    ∃ span rest kind lexeme, cs = span ++ rest ∧ span ≠ [] ∧ '\n' ∉ span ∧
      (kind ≠ .string → lexeme = String.ofList span) ∧
      ∀ other, EndsLike rest other → Scans span kind lexeme other := by
  have quoted : ∀ {quote more}, '\n' ≠ quote → (scanQuoted l quote more).1.fault = none →
      (∀ l cs, scanToken l (quote :: cs) = scanQuoted l quote cs) →
      ∃ span rest kind lexeme, quote :: more = span ++ rest ∧ span ≠ [] ∧ '\n' ∉ span ∧
        (kind ≠ .string → lexeme = String.ofList span) ∧
        ∀ other, EndsLike rest other → Scans span kind lexeme other := by
    intro quote more hquote hfault hscan
    obtain ⟨span, rest, contents, rfl, hline, hstable⟩ := scanString_stable hfault
    refine ⟨quote :: span, rest, .string, String.ofList contents, rfl, by simp,
      by simp [hquote, hline], fun hkind => absurd rfl hkind, fun other _ l => ?_⟩
    rw [List.cons_append, hscan]
    simp only [scanQuoted, hstable]
    rfl
  cases cs with
  | nil => exact absurd rfl hcs
  | cons c cs =>
    by_cases hdouble : c = '\x22'
    · subst hdouble
      exact quoted (by decide) h fun _ _ => rfl
    by_cases hsingle : c = '\x27'
    · subst hsingle
      exact quoted (by decide) h fun _ _ => rfl
    rw [scanToken_plain cs hdouble hsingle] at h
    by_cases hnumber : startsNumber (c :: cs) = true
    · rw [if_pos hnumber] at h
      obtain ⟨span, rest, heq, hne, hline, hscans⟩ := scanNumber_stable hnumber h
      exact ⟨span, rest, .number, _, heq, hne, hline, fun _ => rfl, hscans⟩
    rw [if_neg hnumber] at h
    by_cases hname : isNameStart c = true
    · have hline : '\n' ∉ c :: cs.takeWhile isNamePart := by
        have hc : '\n' ≠ c := by
          rintro rfl
          exact absurd hname (by decide)
        have hpart : isNamePart '\n' = false := by decide
        simp [hc, notMem_takeWhile hpart cs]
      refine ⟨c :: cs.takeWhile isNamePart, cs.dropWhile isNamePart, _, _, ?_, by simp, hline,
        fun _ => rfl, fun other ho => scans_name hname mem_takeWhile
          (ho.stop (head_dropWhile cs) fun _ => isBlank_isNamePart)⟩
      rw [List.cons_append, List.takeWhile_append_dropWhile]
    · rw [if_neg hname] at h
      obtain ⟨span, rest, kind, heq, hne, hline, hscans⟩ :=
        scanOperator_stable h hdouble hsingle hnumber hname
      exact ⟨span, rest, kind, _, heq, hne, hline, fun _ => rfl, hscans⟩

end Lexer
end ScriptEngine
