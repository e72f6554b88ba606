/-
What the lexer guarantees of a token by its kind.

No token is the mark that stands for the end of a script, an invalid token and no other
carries a fault, and the text of a number begins with no sign.  The parser relies on the
first to see that it has come to the end, and on the second when it leaves an
invalid token to the lexer's message.
-/
import ScriptEngine.Token.Lexer

namespace ScriptEngine

/-- What holds of every token that the lexer scans. -/
structure Scanned.Sound (s : Scanned) : Prop where
  kind_ne_eof : s.token.kind ≠ .eof
  fault_of_invalid : s.token.kind = .invalid → s.fault.isSome
  unsigned_of_number : s.token.kind = .number → s.token.lexeme.toList.head? ≠ some '-'

namespace Lexer

open Decimal (isDigit)

theorem covering_sound {kind : TokenKind} (h : kind ≠ .eof ∧ kind ≠ .invalid ∧ kind ≠ .number)
    (start : Location) (span rest : List Char) : (covering kind start span rest).1.Sound :=
  ⟨h.1, fun hk => absurd hk h.2.1, fun hk => absurd hk h.2.2⟩

theorem faulty_sound (fault : LexError) (start : Location) (span rest : List Char) :
    (faulty fault start span rest).1.Sound :=
  ⟨by simp [faulty], fun _ => rfl, fun hk => by cases hk⟩

theorem splitMantissa_head (cs : List Char) : (splitMantissa cs).1.head? ≠ some '-' := by
  have hdigits : ∀ ds : List Char, (ds.takeWhile isDigit).head? ≠ some '-' := by
    intro ds h
    have hdigit := List.all_eq_true.mp (List.all_takeWhile (p := isDigit) (l := ds)) '-'
      (List.mem_of_head? h)
    exact absurd hdigit (by decide)
  unfold splitMantissa
  split
  · cases hcs : cs.takeWhile isDigit with
    | nil => simp
    | cons d ds =>
      have := hdigits cs
      rw [hcs] at this
      simpa using this
  · exact hdigits cs

theorem splitExponent_head (cs : List Char) : (splitExponent cs).1.head? ≠ some '-' := by
  unfold splitExponent
  split
  · simp
  · split
    · next hmark =>
      rcases hmark with rfl | rfl <;> simp
    · simp

theorem scanNumber_sound (start : Location) (cs : List Char) :
    (scanNumber start cs).1.Sound := by
  unfold scanNumber
  dsimp only
  split
  · refine ⟨by simp [covering], fun hk => (by cases hk), fun _ => ?_⟩
    simp only [covering, String.toList_ofList]
    cases hm : (splitMantissa cs).1 with
    | nil => simpa using splitExponent_head _
    | cons d ds =>
      have := splitMantissa_head cs
      rw [hm] at this
      simpa using this
  · exact faulty_sound _ _ _ _

theorem ofKeyword?_kind {word : String} {kind : TokenKind}
    (h : TokenKind.ofKeyword? word = some kind) : kind.isKeyword = true := by
  unfold TokenKind.ofKeyword? at h
  obtain ⟨before, after, heq, -⟩ := List.lookup_eq_some_iff.mp h
  refine List.any_eq_true.mpr ⟨(word, kind), ?_, by simp⟩
  rw [heq]
  simp

theorem scanName_sound (start : Location) (cs : List Char) : (scanName start cs).1.Sound := by
  refine covering_sound ?_ _ _ _
  cases hk : TokenKind.ofKeyword? (String.ofList (cs.takeWhile isNamePart)) with
  | none => decide
  | some kind =>
    have hkeyword := ofKeyword?_kind hk
    revert hkeyword
    cases kind <;> decide

theorem scanQuoted_sound (start : Location) (quote : Char) (cs : List Char) :
    (scanQuoted start quote cs).1.Sound := by
  unfold scanQuoted
  dsimp only
  split
  · next hfault => exact ⟨by simp, fun _ => hfault, fun hk => by cases hk⟩
  · exact ⟨by simp, fun hk => (by cases hk), fun hk => (by cases hk)⟩

theorem scanOperator_sound (start : Location) {cs : List Char} (h : cs ≠ []) :
    (scanOperator start cs).1.Sound := by
  unfold scanOperator
  split
  case h_17 => exact faulty_sound _ _ _ _
  case h_18 => exact absurd rfl h
  all_goals exact covering_sound (by decide) _ _ _

theorem scanToken_sound (start : Location) {cs : List Char} (h : cs ≠ []) :
    (scanToken start cs).1.Sound := by
  unfold scanToken
  split
  · exact scanQuoted_sound _ _ _
  · exact scanQuoted_sound _ _ _
  · split
    · exact scanNumber_sound _ _
    · split
      · exact scanName_sound _ _
      · exact scanOperator_sound _ h
  · exact absurd rfl h

theorem scanAll_sound (budget : Nat) (c : Cursor) : ∀ s ∈ (scanAll budget c).tokens, s.Sound := by
  induction budget generalizing c with
  | zero =>
    intro s hs
    cases hs
  | succ budget ih =>
    intro s hs
    unfold scanAll at hs
    dsimp only at hs
    split at hs
    · cases hs
    · next hne =>
      rcases List.mem_cons.mp hs with rfl | hs
      · exact scanToken_sound _ (by simpa using hne)
      · exact ih _ s hs

/-! ## Faults -/

theorem scanOperator_fault {l : Location} {cs : List Char}
    (h : (scanOperator l cs).1.token.kind ≠ .invalid) : (scanOperator l cs).1.fault = none := by
  revert h
  unfold scanOperator
  split
  case h_17 => exact fun h => absurd rfl h
  all_goals exact fun _ => rfl

/-- Only an invalid token has a fault. -/
theorem scanToken_fault {l : Location} {cs : List Char}
    (h : (scanToken l cs).1.token.kind ≠ .invalid) : (scanToken l cs).1.fault = none := by
  have quoted : ∀ quote more, (scanQuoted l quote more).1.token.kind ≠ .invalid →
      (scanQuoted l quote more).1.fault = none := by
    intro quote more hkind
    by_cases hfault : (scanString l quote (l.step quote) more).fault.isSome = true
    · simp [scanQuoted, hfault] at hkind
    · simpa [scanQuoted] using hfault
  unfold scanToken at h ⊢
  split at h
  · exact quoted _ _ h
  · exact quoted _ _ h
  · split at h
    · next hnumber =>
      rw [if_pos hnumber]
      unfold scanNumber at h ⊢
      dsimp only at h ⊢
      split at h
      · next hcomplete =>
        rw [if_pos hcomplete]
        rfl
      · exact absurd rfl h
    · next hnumber =>
      rw [if_neg hnumber]
      split at h
      · next hname =>
        rw [if_pos hname]
        rfl
      · next hname =>
        rw [if_neg hname]
        exact scanOperator_fault h
  · rfl

theorem scanAll_fault (budget : Nat) (c : Cursor) :
    ∀ s ∈ (scanAll budget c).tokens, s.token.kind ≠ .invalid → s.fault = none := by
  induction budget generalizing c with
  | zero =>
    intro s hs
    cases hs
  | succ budget ih =>
    intro s hs
    unfold scanAll at hs
    dsimp only at hs
    split at hs
    · cases hs
    · rcases List.mem_cons.mp hs with rfl | hs
      · exact scanToken_fault
      · exact ih _ s hs

end Lexer

theorem TokenStream.ofString_sound (text : String) :
    ∀ s ∈ (TokenStream.ofString text).tokens, s.Sound := Lexer.scanAll_sound _ _

end ScriptEngine
