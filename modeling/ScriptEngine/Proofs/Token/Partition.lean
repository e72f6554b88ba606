/-
The tokens of a text partition it.

A text is in order made of gaps and of the spans of its tokens, whether they are valid or
not, and no character is lost or read twice (`Partition`).  So the place of a token is
that of the first character of its span, and the places increase.

Every scanner takes a span off the front of the text (`Takes`).  A valid token that is no
string literal is spelled by its span, and it is as long as it can be.  The lexer looks at
one character behind it, so it would take the same span if more stood behind that
character, and no longer spelling begins with the span and that character
(`scanToken_maximal`).
-/
import ScriptEngine.Proofs.Printing.Spelling

namespace ScriptEngine

/-! ## Places -/

namespace Location

/-- The place behind a text: one line more than it has newlines, and one column more than it has
characters behind the last of them. -/
def behind (before : List Char) : Location :=
  ⟨before.count '\n' + 1, (before.reverse.takeWhile (· ≠ '\n')).length + 1⟩

theorem step_behind (before : List Char) (c : Char) :
    (behind before).step c = behind (before ++ [c]) := by
  unfold step behind nextLine nextColumn
  by_cases hc : c = '\n'
  · simp [hc]
  · simp [hc, List.count_append]

theorem after_behind (before cs : List Char) :
    (behind before).after cs = behind (before ++ cs) := by
  induction cs generalizing before with
  | nil => simp
  | cons c cs ih => rw [after_cons, step_behind, ih, List.append_assoc, List.singleton_append]

/-- Behind more text the place is a later one. -/
theorem behind_lt (before : List Char) {cs : List Char} (h : cs ≠ []) :
    (behind before).compare (behind (before ++ cs)) = .lt := by
  have hpos := List.length_pos_iff.mpr h
  by_cases hline : '\n' ∈ cs
  · have hcount := List.count_pos_iff.mpr hline
    have hlt : (behind before).line < (behind (before ++ cs)).line := by
      simp only [behind, List.count_append]
      omega
    rw [compare, Nat.compare_eq_lt.mpr hlt]
    rfl
  · have hcount := List.count_eq_zero.mpr hline
    have hsame : (behind before).line = (behind (before ++ cs)).line := by
      simp only [behind, List.count_append, hcount, Nat.add_zero]
    have hall : ∀ c ∈ cs.reverse, decide (c ≠ '\n') = true := by
      intro c hc
      rw [decide_eq_true_eq]
      rintro rfl
      exact hline (List.mem_reverse.mp hc)
    have hlt : (behind before).column < (behind (before ++ cs)).column := by
      simp only [behind, List.reverse_append, List.takeWhile_append_of_pos hall,
        List.length_append, List.length_reverse]
      omega
    rw [compare, hsame, Nat.compare_eq_eq.mpr rfl, Nat.compare_eq_lt.mpr hlt]
    rfl

end Location

namespace Lexer

/-! ## Gaps -/

/-- A gap before a text: blanks, and comments from two slashes to the end of their line. -/
inductive Gap : List Char → List Char → Prop
  | nil {rest : List Char} : Gap [] rest
  | blank {c : Char} {gap rest : List Char} : Text.isBlank c = true → Gap gap rest →
      Gap (c :: gap) rest
  | comment {words gap rest : List Char} : '\n' ∉ words →
      (∀ c, (gap ++ rest).head? = some c → c = '\n') → Gap gap rest →
      Gap ('/' :: '/' :: (words ++ gap)) rest

mutual

/-- A text begins with a gap, which may be empty, and the cursor behind it is at its end. -/
theorem skipGap_gap (cs : List Char) : ∃ gap rest, cs = gap ++ rest ∧ Gap gap rest ∧
    Solid rest ∧ ∀ l, skipGap l cs = ⟨l.after gap, rest⟩ := by
  cases cs with
  | nil => exact ⟨[], [], rfl, .nil, trivial, fun _ => rfl⟩
  | cons c cs =>
    by_cases hblank : Text.isBlank c
    · obtain ⟨gap, rest, rfl, hgap, hrest, hskip⟩ := skipGap_gap cs
      refine ⟨c :: gap, rest, rfl, .blank hblank hgap, hrest, fun l => ?_⟩
      rw [skipGap_blank hblank, hskip]
      rfl
    · by_cases hcomment : c = '/' ∧ cs.head? = some '/'
      · obtain ⟨rfl, hhead⟩ := hcomment
        obtain ⟨more, rfl⟩ := List.head?_eq_some_iff.mp hhead
        obtain ⟨words, gap, rest, rfl, hwords, hend, hgap, hrest, hskip⟩ := skipComment_gap more
        refine ⟨'/' :: '/' :: (words ++ gap), rest, by simp, .comment hwords hend hgap, hrest,
          fun l => ?_⟩
        rw [skipGap, hskip]
        rfl
      · have hsolid : Solid (c :: cs) := ⟨by simpa using hblank, hcomment⟩
        exact ⟨[], c :: cs, rfl, .nil, hsolid, fun l => hsolid.skipGap l⟩
termination_by cs.length

/-- The rest of a comment ends with its line, and a gap may follow. -/
theorem skipComment_gap (cs : List Char) : ∃ words gap rest, cs = words ++ gap ++ rest ∧
    '\n' ∉ words ∧ (∀ c, (gap ++ rest).head? = some c → c = '\n') ∧ Gap gap rest ∧
    Solid rest ∧ ∀ l, skipComment l cs = ⟨l.after (words ++ gap), rest⟩ := by
  cases cs with
  | nil => exact ⟨[], [], [], rfl, by simp, nofun, .nil, trivial, fun _ => rfl⟩
  | cons c cs =>
    by_cases hline : c = '\n'
    · subst hline
      obtain ⟨gap, rest, rfl, hgap, hrest, hskip⟩ := skipGap_gap cs
      refine ⟨[], '\n' :: gap, rest, rfl, by simp, ?_, .blank Text.isBlank_newline hgap, hrest,
        fun l => ?_⟩
      · rintro c ⟨⟩
        rfl
      · rw [skipComment, if_pos rfl, hskip]
        rfl
    · obtain ⟨words, gap, rest, rfl, hwords, hend, hgap, hrest, hskip⟩ := skipComment_gap cs
      refine ⟨c :: words, gap, rest, rfl, by simp [hwords, Ne.symm hline], hend, hgap, hrest,
        fun l => ?_⟩
      rw [skipComment, if_neg hline, hskip]
      rfl
termination_by cs.length

end

/-! ## Spans -/

end Lexer

/-- Whether the fault is that of a string literal. -/
def LexError.inString : LexError → Bool
  | unterminatedString _ | invalidEscape .. => true
  | unexpectedCharacter .. | invalidNumber .. => false

namespace Lexer

open Printing (Spelled)

/-- The place is that of a character of the span, which begins at `l`. -/
def Within (l : Location) (span : List Char) (place : Location) : Prop :=
  ∃ front back, span = front ++ back ∧ back ≠ [] ∧ place = l.after front

theorem Within.first (l : Location) {span : List Char} (h : span ≠ []) : Within l span l :=
  ⟨[], span, rfl, h, rfl⟩

theorem Within.behind {l place : Location} (front : List Char) {span : List Char}
    (h : Within (l.after front) span place) : Within l (front ++ span) place := by
  obtain ⟨before, back, rfl, hback, rfl⟩ := h
  exact ⟨front ++ before, back, (List.append_assoc ..).symm, hback,
    (Location.after_append ..).symm⟩

/-- The scan of a text takes the span off its front and makes a token of it.  The token has the
text of the span, which spells it, unless it is a string literal or a broken one.  A fault has its
place in the span. -/
structure Takes (l : Location) (cs span : List Char) (r : Scanned × Cursor) : Prop where
  text : cs = span ++ r.2.rest
  nonempty : span ≠ []
  cursor : r.2.location = l.after span
  location : r.1.token.location = l
  lexeme : r.1.token.kind ≠ .string → (∀ e, r.1.fault = some e → e.inString = false) →
    r.1.token.lexeme = String.ofList span
  spelled : r.1.token.kind ≠ .string → r.1.fault = none →
    Spelled r.1.token.kind r.1.token.lexeme span
  fault : ∀ e, r.1.fault = some e → Within l span e.location

section
variable {l : Location} {cs span rest : List Char}

theorem covering_takes {kind : TokenKind} (htext : cs = span ++ rest) (h : span ≠ [])
    (hspelled : Spelled kind (String.ofList span) span) :
    Takes l cs span (covering kind l span rest) :=
  ⟨htext, h, rfl, rfl, fun _ _ => rfl, fun _ _ => hspelled, nofun⟩

theorem faulty_takes {fault : LexError} (hplace : fault.location = l) (htext : cs = span ++ rest)
    (h : span ≠ []) : Takes l cs span (faulty fault l span rest) := by
  refine ⟨htext, h, rfl, rfl, fun _ _ => rfl, nofun, ?_⟩
  rintro e ⟨⟩
  rw [hplace]
  exact .first l h

end

theorem splitSign_append (cs : List Char) : (splitSign cs).1 ++ (splitSign cs).2 = cs := by
  unfold splitSign
  split <;> rfl

theorem splitExponent_append (cs : List Char) :
    (splitExponent cs).1 ++ (splitExponent cs).2.1 = cs := by
  unfold splitExponent
  split
  · rfl
  · next mark more =>
    have hsign := splitSign_append more
    split
    · simp [hsign]
    · rfl

theorem scanNumber_takes (l : Location) {cs : List Char} (h : startsNumber cs = true) :
    ∃ span, Takes l cs span (scanNumber l cs) := by
  have hnumeral := splitMantissa_mantissa h
  cases hm : splitMantissa cs with
  | mk mantissa behind =>
    have hexponent := splitExponent_append behind
    have hcomplete : (splitExponent behind).2.2 = true → Exponent (splitExponent behind).1 :=
      splitExponent_exponent
    rw [hm] at hnumeral
    cases he : splitExponent behind with
    | mk exponent more =>
      obtain ⟨rest, complete⟩ := more
      rw [he] at hexponent hcomplete
      have htext : cs = (mantissa ++ exponent) ++ rest := by
        rw [List.append_assoc, hexponent]
        exact (splitMantissa_stable hm).1
      have hspan : mantissa ++ exponent ≠ [] := by simp [(startsNumber_splitMantissa h hm []).1]
      refine ⟨mantissa ++ exponent, ?_⟩
      simp only [scanNumber, hm, he]
      split
      · next hc =>
        have hwhole : Numeral (mantissa ++ exponent) :=
          ⟨mantissa, exponent, rfl, hnumeral, hcomplete hc⟩
        have hspelled : Spelled .number (String.ofList (mantissa ++ exponent))
            (String.ofList (mantissa ++ exponent)).toList :=
          .number (by rwa [String.toList_ofList])
        rw [String.toList_ofList] at hspelled
        exact covering_takes htext hspan hspelled
      · exact faulty_takes rfl htext hspan

theorem scanName_takes (l : Location) {c : Char} (h : isNameStart c = true) (cs : List Char) :
    ∃ span, Takes l (c :: cs) span (scanName l (c :: cs)) := by
  have hrun : (c :: cs).takeWhile isNamePart = c :: cs.takeWhile isNamePart := by
    simp [isNamePart, h]
  refine ⟨_, covering_takes List.takeWhile_append_dropWhile.symm (by simp [hrun]) ?_⟩
  rw [hrun]
  cases hword : TokenKind.ofKeyword? (String.ofList (c :: cs.takeWhile isNamePart)) with
  | some kind =>
    obtain ⟨before, after, hkeywords, -⟩ := List.lookup_eq_some_iff.mp hword
    refine .of_fixed (List.mem_append_right _ ?_)
    rw [hkeywords]
    simp
  | none =>
    have hname : Printing.IsName (String.ofList (c :: cs.takeWhile isNamePart)) :=
      ⟨⟨c, _, String.toList_ofList, h, mem_takeWhile⟩, hword⟩
    have hspelled := Spelled.name hname
    rwa [String.toList_ofList] at hspelled

/-- The scan of the rest of a string literal takes the span off the text.  Its fault is that of a
literal that began at `start`, or has its place in the span. -/
structure TakesBody (start l : Location) (cs span : List Char) (b : StringBody) : Prop where
  text : cs = span ++ b.cursor.rest
  cursor : b.cursor.location = l.after span
  fault : ∀ e, b.fault = some e →
    e.inString = true ∧ (e.location = start ∨ Within l span e.location)

namespace TakesBody

variable {start l : Location} {cs span : List Char} {b : StringBody}

theorem unterminated (span rest : List Char) : TakesBody start l (span ++ rest) span
    ⟨[], ⟨l.after span, rest⟩, some (.unterminatedString start)⟩ := by
  refine ⟨rfl, rfl, ?_⟩
  rintro e ⟨⟩
  exact ⟨rfl, .inl rfl⟩

theorem push (c : Char) (h : TakesBody start l cs span b) :
    TakesBody start l cs span (b.push c) := ⟨h.text, h.cursor, h.fault⟩

theorem note {fault : LexError} (h : TakesBody start l cs span b) (hfault : fault.inString = true)
    (hplace : Within l span fault.location) : TakesBody start l cs span (b.note fault) := by
  unfold StringBody.note
  split
  · exact h
  · refine ⟨h.text, h.cursor, ?_⟩
    rintro e ⟨⟩
    exact ⟨hfault, .inr hplace⟩

theorem behind (front : List Char) (h : TakesBody start (l.after front) cs span b) :
    TakesBody start l (front ++ cs) (front ++ span) b where
  text := by rw [List.append_assoc, ← h.text]
  cursor := by rw [h.cursor, Location.after_append]
  fault e he := (h.fault e he).imp_right fun hplace => hplace.imp_right (Within.behind front)

end TakesBody

theorem scanString_takes (start : Location) (quote : Char) (l : Location) (cs : List Char) :
    ∃ span, TakesBody start l cs span (scanString start quote l cs) := by
  fun_induction scanString start quote l cs with
  | case1 l => exact ⟨[], .unterminated [] []⟩
  | case2 l rest => exact ⟨[], .unterminated [] _⟩
  | case3 l rest hline => exact ⟨[quote], rfl, rfl, by simp⟩
  | case4 l => exact ⟨['\\'], .unterminated ['\\'] []⟩
  | case5 l rest => exact ⟨['\\'], .unterminated ['\\'] _⟩
  | case6 l e rest hline d he _ hquote ih =>
    obtain ⟨span, hspan⟩ := ih
    exact ⟨'\\' :: e :: span, (TakesBody.behind ['\\', e] hspan).push d⟩
  | case7 l e rest hline he _ hquote ih =>
    obtain ⟨span, hspan⟩ := ih
    refine ⟨'\\' :: e :: span, TakesBody.note (TakesBody.behind ['\\', e] hspan) rfl ?_⟩
    exact .first l (by simp)
  | case8 l c rest hline hquote hescape ih =>
    obtain ⟨span, hspan⟩ := ih
    exact ⟨c :: span, (TakesBody.behind [c] hspan).push c⟩

theorem scanQuoted_takes (l : Location) (quote : Char) (cs : List Char) :
    ∃ span, Takes l (quote :: cs) span (scanQuoted l quote cs) := by
  obtain ⟨span, hbody⟩ := scanString_takes l quote (l.step quote) cs
  refine ⟨quote :: span, congrArg (quote :: ·) hbody.text, by simp, hbody.cursor, rfl, ?_, ?_, ?_⟩
  · intro hkind hfault
    cases he : (scanString l quote (l.step quote) cs).fault with
    | none => simp [scanQuoted, he] at hkind
    | some e =>
      have hin := (hbody.fault e he).1
      rw [hfault e he] at hin
      cases hin
  · intro hkind hfault
    simp [scanQuoted] at hkind hfault
    simp [hfault] at hkind
  · intro e he
    rcases (hbody.fault e he).2 with hplace | hplace
    · rw [hplace]
      exact .first l (by simp)
    · exact Within.behind [quote] hplace

theorem scanOperator_takes (l : Location) {cs : List Char} (h : cs ≠ []) :
    ∃ span, Takes l cs span (scanOperator l cs) := by
  unfold scanOperator
  split
  case h_17 => exact ⟨_, faulty_takes rfl rfl (List.cons_ne_nil _ _)⟩
  case h_18 => exact absurd rfl h
  all_goals exact ⟨_, covering_takes rfl (List.cons_ne_nil _ _) (.of_fixed (by decide))⟩

theorem scanToken_takes (l : Location) {cs : List Char} (h : cs ≠ []) :
    ∃ span, Takes l cs span (scanToken l cs) := by
  unfold scanToken
  split
  · exact scanQuoted_takes _ _ _
  · exact scanQuoted_takes _ _ _
  · split
    · next hnumber => exact scanNumber_takes l hnumber
    · split
      · next hname => exact scanName_takes l hname _
      · exact scanOperator_takes l h
  · exact absurd rfl h

/-! ## Longest tokens -/

/-- A valid token is as long as it can be: no spelling begins with its span and the character
behind it. -/
theorem scanToken_maximal {l : Location} {cs span : List Char}
    (h : Takes l cs span (scanToken l cs)) (hfault : (scanToken l cs).1.fault = none) (c : Char)
    (hc : (scanToken l cs).2.rest.head? = some c) (kind : TokenKind) (lexeme : String)
    (more : List Char) : ¬ Spelled kind lexeme (span ++ c :: more) := by
  intro hspelled
  have hne : cs ≠ [] := by
    rw [h.text]
    simp [h.nonempty]
  obtain ⟨other, rest, k, lex, htext, -, -, -, hstable⟩ := scanToken_stable hne hfault
  have hscan := hstable rest (.refl rest) l
  rw [← htext] at hscan
  have hrest : (scanToken l cs).2.rest = rest := by rw [hscan]
  have hsame : other = span := by
    have hboth := h.text
    rw [hrest] at hboth
    exact List.append_cancel_right (htext.symm.trans hboth)
  subst hsame
  rw [hrest] at hc
  -- the same span is taken before the longer text, and the spelling takes all of it
  have hshort := hstable (c :: more) (.inl hc.symm) l
  have hlong := hspelled.token.lexes.scans l
  simp only [List.append_nil] at hlong
  rw [hlong] at hshort
  cases congrArg (·.2.rest) hshort

/-! ## The partition -/

/-- The token stands behind the text `before` and covers the span, with the text `rest` behind it.

A valid token that is no string literal is spelled by its span, and no spelling of a token begins
with the span of a valid token and the character behind it. -/
structure Covers (s : Scanned) (before span rest : List Char) : Prop where
  nonempty : span ≠ []
  kind_ne_eof : s.token.kind ≠ .eof
  location : s.token.location = .behind before
  lexeme : s.token.kind ≠ .string → (∀ e, s.fault = some e → e.inString = false) →
    s.token.lexeme = String.ofList span
  spelled : s.token.kind ≠ .string → s.fault = none → Spelled s.token.kind s.token.lexeme span
  maximal : s.fault = none → ∀ c, rest.head? = some c → ∀ kind lexeme more,
    ¬ Spelled kind lexeme (span ++ c :: more)
  fault_iff : s.fault.isSome ↔ s.token.kind = .invalid
  fault_location : ∀ e, s.fault = some e →
    ∃ front back, span = front ++ back ∧ back ≠ [] ∧ e.location = .behind (before ++ front)

theorem covers_scanToken (before : List Char) {cs : List Char} (h : cs ≠ []) :
    ∃ span rest s, cs = span ++ rest ∧ Covers s before span rest ∧
      scanToken (.behind before) cs = (s, ⟨.behind (before ++ span), rest⟩) := by
  obtain ⟨span, htakes⟩ := scanToken_takes (.behind before) h
  have hsound := scanToken_sound (.behind before) h
  have hfault : (scanToken (.behind before) cs).1.token.kind ≠ .invalid →
      (scanToken (.behind before) cs).1.fault = none := scanToken_fault
  have hmaximal := scanToken_maximal htakes
  cases hscan : scanToken (.behind before) cs with
  | mk s cursor =>
    rw [hscan] at htakes hsound hfault hmaximal
    have hcursor : cursor = ⟨.behind (before ++ span), cursor.rest⟩ := by
      rw [← Location.after_behind, ← htakes.cursor]
    refine ⟨span, cursor.rest, s, htakes.text, ?_, by rw [← hcursor]⟩
    constructor
    case nonempty => exact htakes.nonempty
    case kind_ne_eof => exact hsound.kind_ne_eof
    case location => exact htakes.location
    case lexeme => exact htakes.lexeme
    case spelled => exact htakes.spelled
    case maximal => exact hmaximal
    case fault_iff =>
      refine ⟨fun hsome => ?_, hsound.fault_of_invalid⟩
      by_cases hkind : s.token.kind = .invalid
      · exact hkind
      · rw [hfault hkind] at hsome
        cases hsome
    case fault_location =>
      intro e he
      obtain ⟨front, back, hspan, hback, hplace⟩ := htakes.fault e he
      exact ⟨front, back, hspan, hback, hplace.trans (Location.after_behind _ _)⟩

/-- A text behind the text `before` is gaps and the spans of tokens in turn. -/
inductive Partition : List Char → List Char → List Scanned → Prop
  | stop {before gap : List Char} : Gap gap [] → Partition before gap []
  | token {before gap span rest : List Char} {s : Scanned} {more : List Scanned} :
      Gap gap (span ++ rest) → Solid (span ++ rest) → Covers s (before ++ gap) span rest →
      Partition (before ++ gap ++ span) rest more →
      Partition before (gap ++ (span ++ rest)) (s :: more)

theorem scanAll_partition {budget : Nat} (before : List Char) {cs : List Char}
    (h : cs.length ≤ budget) :
    Partition before cs (scanAll budget ⟨.behind before, cs⟩).tokens ∧
      (scanAll budget ⟨.behind before, cs⟩).finish = .behind (before ++ cs) := by
  induction budget generalizing before cs with
  | zero =>
    obtain rfl := List.length_eq_zero_iff.mp (Nat.le_zero.mp h)
    exact ⟨.stop .nil, by rw [List.append_nil]; rfl⟩
  | succ budget ih =>
    obtain ⟨gap, solid, rfl, hgap, hsolid, hskip⟩ := skipGap_gap cs
    unfold scanAll
    dsimp only
    rw [hskip, Location.after_behind]
    by_cases hend : solid = []
    · subst hend
      rw [List.append_nil]
      exact ⟨.stop hgap, rfl⟩
    · obtain ⟨span, rest, s, rfl, hcovers, hscan⟩ := covers_scanToken (before ++ gap) hend
      have hlen := List.length_pos_iff.mpr hcovers.nonempty
      simp only [List.length_append] at h
      have hbudget : rest.length ≤ budget := by omega
      obtain ⟨hmore, hfinish⟩ := ih (before ++ gap ++ span) hbudget
      simp only [hscan, List.isEmpty_iff, hend, if_false]
      refine ⟨.token hgap hsolid hcovers hmore, ?_⟩
      rw [hfinish]
      simp only [List.append_assoc]

namespace Partition

variable {before cs : List Char} {tokens : List Scanned}

/-- Every token stands behind what is before the text, or behind more. -/
theorem locations (h : Partition before cs tokens) :
    ∀ s ∈ tokens, ∃ front, s.token.location = .behind (before ++ front) := by
  induction h with
  | stop => exact nofun
  | @token before gap span rest s more hgap hsolid hcovers _ ih =>
    intro t ht
    rcases List.mem_cons.mp ht with rfl | ht
    · exact ⟨gap, hcovers.location⟩
    · obtain ⟨front, hfront⟩ := ih t ht
      exact ⟨gap ++ (span ++ front), by rw [hfront]; simp only [List.append_assoc]⟩

theorem increasing (h : Partition before cs tokens) :
    tokens.Pairwise fun s t => s.token.location.compare t.token.location = .lt := by
  induction h with
  | stop => exact .nil
  | @token before gap span rest s more hgap hsolid hcovers hmore ih =>
    refine .cons (fun t ht => ?_) ih
    obtain ⟨front, hfront⟩ := hmore.locations t ht
    rw [hcovers.location, hfront, List.append_assoc _ span]
    exact Location.behind_lt _ (by simp [hcovers.nonempty])

/-- Every token stands before the end of the text. -/
theorem before_end (h : Partition before cs tokens) :
    ∀ s ∈ tokens, s.token.location.compare (.behind (before ++ cs)) = .lt := by
  induction h with
  | stop => exact nofun
  | @token before gap span rest s more hgap hsolid hcovers hmore ih =>
    refine List.forall_mem_cons.mpr ⟨?_, ?_⟩
    · rw [hcovers.location, ← List.append_assoc]
      exact Location.behind_lt _ (by simp [hcovers.nonempty])
    · simpa only [List.append_assoc] using ih

theorem fault_iff (h : Partition before cs tokens) :
    ∀ s ∈ tokens, s.fault.isSome ↔ s.token.kind = .invalid := by
  induction h with
  | stop => exact nofun
  | token _ _ hcovers _ ih => exact List.forall_mem_cons.mpr ⟨hcovers.fault_iff, ih⟩

end Partition

/-- The tokens of a text partition it, in the order of their places, and the script ends where the
text does.  The faults are those of the invalid tokens, one for each and in order. -/
structure Partitions (stream : TokenStream) (cs : List Char) : Prop where
  partition : Partition [] cs stream.tokens
  finish : stream.finish = .behind cs
  increasing : stream.tokens.Pairwise fun s t =>
    s.token.location.compare t.token.location = .lt
  faults : (stream.tokens.filter fun s => s.token.kind = .invalid).map (·.fault) =
    stream.faults.map some

end Lexer

theorem TokenStream.faults_eq {stream : TokenStream}
    (h : ∀ s ∈ stream.tokens, s.fault.isSome ↔ s.token.kind = .invalid) :
    (stream.tokens.filter fun s => s.token.kind = .invalid).map (·.fault) =
      stream.faults.map some := by
  obtain ⟨tokens, finish⟩ := stream
  induction tokens with
  | nil => rfl
  | cons s tokens ih =>
    obtain ⟨hs, htokens⟩ := List.forall_mem_cons.mp h
    have hrest := ih htokens
    unfold faults at hrest ⊢
    cases hfault : s.fault with
    | none =>
      have hkind : s.token.kind ≠ .invalid := fun hk => by simpa [hfault] using hs.mpr hk
      simpa [hkind, hfault] using hrest
    | some e =>
      have hkind : s.token.kind = .invalid := hs.mp (by simp [hfault])
      simpa [hkind, hfault] using hrest

/-- The lexer partitions every text. -/
theorem TokenStream.ofString_partitions (text : String) :
    Lexer.Partitions (TokenStream.ofString text) (Cursor.body text) := by
  obtain ⟨hpartition, hfinish⟩ :=
    Lexer.scanAll_partition [] (Nat.le_refl (Cursor.body text).length)
  exact ⟨hpartition, hfinish, hpartition.increasing, faults_eq hpartition.fault_iff⟩

end ScriptEngine
