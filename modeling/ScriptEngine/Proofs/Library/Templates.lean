/-
What a format string is.

A template is made of literal texts with every brace doubled and an empty pair
of braces between any two of them.  It is cut back into exactly these texts,
however the braces of neighbours meet, and the format strings that are accepted
are the templates with one place for each argument.
-/
import ScriptEngine.Library.Output

namespace ScriptEngine
namespace Format

/-! ## Templates -/

/-- A character as a format string spells it. -/
def doubled (c : Char) : List Char := if c = '\x7b' ∨ c = '\x7d' then [c, c] else [c]

theorem doubled_plain {c : Char} (hopen : c ≠ '\x7b') (hclose : c ≠ '\x7d') : doubled c = [c] :=
  if_neg fun h => h.elim hopen hclose

/-- The text with every brace doubled. -/
def escape (text : String) : String := String.ofList (text.toList.flatMap doubled)

/-- The format string of a first literal text and those that follow, each behind the place of an
argument. -/
def template (first : String) : List String → String
  | [] => escape first
  | next :: rest => escape first ++ "\x7b\x7d" ++ template next rest

/-- The literal texts with the texts of the arguments between them. -/
def filled (first : String) : List String → List String → String
  | arg :: args, next :: rest => first ++ arg ++ filled next args rest
  | _, _ => first

/-- The pieces of literal texts with a slot between any two of them. -/
def laidOut (first : String) : List String → List Piece
  | [] => first.toList.map .char
  | next :: rest => first.toList.map .char ++ .slot :: laidOut next rest

theorem pieces_plain {c : Char} (hopen : c ≠ '\x7b') (hclose : c ≠ '\x7d') (rest : List Char) :
    pieces (c :: rest) = .char c :: pieces rest := by
  simp [pieces, hopen, hclose]

theorem pieces_doubled (text rest : List Char) :
    pieces (text.flatMap doubled ++ rest) = text.map .char ++ pieces rest := by
  induction text with
  | nil => rfl
  | cons c text ih =>
    rw [List.flatMap_cons, List.append_assoc, List.map_cons, List.cons_append, ← ih]
    by_cases hopen : c = '\x7b'
    · subst hopen
      rfl
    by_cases hclose : c = '\x7d'
    · subst hclose
      rfl
    · rw [doubled_plain hopen hclose, List.singleton_append, pieces_plain hopen hclose]

theorem pieces_template (first : String) (rest : List String) :
    pieces (template first rest).toList = laidOut first rest := by
  induction rest generalizing first with
  | nil =>
    have h := pieces_doubled first.toList []
    rw [List.append_nil, pieces, List.append_nil] at h
    rw [template, escape, String.toList_ofList, h, laidOut]
  | cons next rest ih =>
    rw [template, String.toList_append, String.toList_append, escape, String.toList_ofList,
      List.append_assoc, pieces_doubled, laidOut, ← ih]
    rfl

/-- The text that a piece is cut from. -/
def Piece.spelling : Piece → List Char
  | .char c => doubled c
  | .slot => ['\x7b', '\x7d']
  | .stray brace => [brace]

theorem spelling_pieces (cs : List Char) : (pieces cs).flatMap Piece.spelling = cs := by
  fun_induction pieces cs with
  | case7 c rest _ _ _ hopen hclose ih =>
    rw [List.flatMap_cons, ih, Piece.spelling, doubled_plain hopen hclose, List.singleton_append]
  | _ => simp_all [Piece.spelling, doubled]

theorem spelling_laidOut (first : String) (rest : List String) :
    (laidOut first rest).flatMap Piece.spelling = (template first rest).toList := by
  rw [← pieces_template, spelling_pieces]

/-! ## Cutting -/

/-- The literal texts of some pieces; a stray brace counts as a character. -/
def literals : List Piece → List Char × List String
  | [] => ([], [])
  | .char c :: ps => (c :: (literals ps).1, (literals ps).2)
  | .stray brace :: ps => (brace :: (literals ps).1, (literals ps).2)
  | .slot :: ps => ([], String.ofList (literals ps).1 :: (literals ps).2)

theorem literals_chars (text : List Char) (ps : List Piece) :
    literals (text.map .char ++ ps) = (text ++ (literals ps).1, (literals ps).2) := by
  induction text with
  | nil => rfl
  | cons c text ih => rw [List.map_cons, List.cons_append, literals, ih, List.cons_append]

theorem literals_laidOut (first : String) (rest : List String) :
    literals (laidOut first rest) = (first.toList, rest) := by
  induction rest generalizing first with
  | nil =>
    have h := literals_chars first.toList []
    rwa [List.append_nil, literals, List.append_nil] at h
  | cons next rest ih =>
    rw [laidOut, literals_chars, literals, ih, String.ofList_toList, List.append_nil]

/-- Pieces without a stray brace are literal texts with slots between them. -/
theorem laidOut_literals (ps : List Piece) (h : ∀ brace, .stray brace ∉ ps) :
    laidOut (String.ofList (literals ps).1) (literals ps).2 = ps := by
  induction ps with
  | nil => rfl
  | cons p ps ih =>
    have ih := ih fun brace hmem => h brace (List.mem_cons_of_mem _ hmem)
    cases p with
    | char c =>
      rw [literals]
      cases hrest : (literals ps).2 with
      | nil => simp_all [laidOut]
      | cons next rest => simp_all [laidOut]
    | slot => rw [literals, laidOut, String.toList_ofList, List.map_nil, List.nil_append, ih]
    | stray brace => exact absurd List.mem_cons_self (h brace)

theorem template_injective {first first' : String} {rest rest' : List String}
    (h : template first rest = template first' rest') : first = first' ∧ rest = rest' := by
  have hcut : literals (laidOut first rest) = literals (laidOut first' rest') := by
    rw [← pieces_template, ← pieces_template, h]
  rw [literals_laidOut, literals_laidOut, Prod.mk.injEq] at hcut
  exact ⟨String.toList_inj.mp hcut.1, hcut.2⟩

theorem count_slot_literals (ps : List Piece) : ps.count .slot = (literals ps).2.length := by
  induction ps with
  | nil => rfl
  | cons p ps ih => cases p <;> simp [literals, ih]

theorem count_slot_laidOut (first : String) (rest : List String) :
    (laidOut first rest).count .slot = rest.length := by
  rw [count_slot_literals, literals_laidOut]

theorem not_stray_laidOut (first : String) (rest : List String) (brace : Char) :
    .stray brace ∉ laidOut first rest := by
  induction rest generalizing first with
  | nil => simp [laidOut]
  | cons next rest ih => simp [laidOut, ih next]

/-- The lenient scan agrees with the strict one about the number of places, also where the strict
one finds stray braces. -/
theorem placeholders_eq (cs : List Char) : placeholders cs = (pieces cs).count .slot := by
  fun_induction pieces cs with
  | _ => simp_all [placeholders]

/-! ## Filling -/

theorem fill_chars (text : List Char) (ps : List Piece) (args : List String) :
    fill (text.map .char ++ ps) args = (fill ps args).map (text ++ ·) := by
  induction text with
  | nil => cases h : fill ps args <;> simp [h, Except.map]
  | cons c text ih =>
    rw [List.map_cons, List.cons_append, fill, ih]
    cases fill ps args <;> rfl

theorem fill_laidOut (first : String) (rest args : List String) (h : rest.length = args.length) :
    fill (laidOut first rest) args = .ok (filled first args rest).toList := by
  induction rest generalizing first args with
  | nil =>
    obtain rfl : args = [] := List.length_eq_zero_iff.mp h.symm
    have h := fill_chars first.toList [] []
    rwa [List.append_nil, fill, Except.map, List.append_nil] at h
  | cons next rest ih =>
    cases args with
    | nil => cases h
    | cons arg args =>
      rw [laidOut, fill_chars, fill, ih next args (Nat.succ.inj h), filled]
      simp [Except.map]

/-- What filling some pieces with some texts tells about them. -/
def Fits (ps : List Piece) (args : List String) : Except (Option Char) (List Char) → Prop
  | .ok _ => (∀ brace, .stray brace ∉ ps) ∧ ps.count .slot = args.length
  | .error none => ps.count .slot ≠ args.length
  | .error (some brace) => .stray brace ∈ ps

theorem fill_fits (ps : List Piece) (args : List String) : Fits ps args (fill ps args) := by
  fun_induction fill ps args with
  | case1 | case2 | case5 | case6 => simp [Fits]
  | case3 c ps args ih => cases h : fill ps args <;> simp_all [Fits, Except.map]
  | case4 ps arg args ih => cases h : fill ps args <;> simp_all [Fits, Except.map]

/-! ## Format strings -/

theorem format_template {first : String} {rest args : List String}
    (h : rest.length = args.length) :
    format (template first rest) args = .ok (filled first args rest) := by
  rw [format, pieces_template, fill_laidOut first rest args h]
  exact congrArg Except.ok (String.ofList_toList ..)

/-- Of three braces in a row, two are a literal brace and one belongs to the place. -/
example : format "\x7b\x7b\x7b\x7d\x7d\x7d" ["2.5"] = .ok "\x7b2.5\x7d" := rfl

theorem format_ok {t text : String} {args : List String} (h : format t args = .ok text) :
    ∃ first rest, rest.length = args.length ∧ t = template first rest ∧
      text = filled first args rest := by
  have hfits := fill_fits (pieces t.toList) args
  obtain ⟨hstray, hcount⟩ : (∀ brace, .stray brace ∉ pieces t.toList) ∧
      (pieces t.toList).count .slot = args.length := by
    rw [format] at h
    split at h
    next filling heq => rwa [heq] at hfits
    all_goals cases h
  let first := String.ofList (literals (pieces t.toList)).1
  let rest := (literals (pieces t.toList)).2
  have ht : t = template first rest := by
    rw [← String.toList_inj, ← spelling_laidOut, laidOut_literals _ hstray, spelling_pieces]
  have hlength : rest.length = args.length := by rw [← count_slot_literals, hcount]
  refine ⟨first, rest, hlength, ht, ?_⟩
  rw [ht, format_template hlength] at h
  exact (Except.ok.inj h).symm

theorem format_miscounted {t reported : String} {args : List String} {expected given : Nat}
    (h : format t args = .error (.argumentCount reported expected given)) :
    reported = t ∧ given = args.length ∧ expected ≠ args.length := by
  have hfits := fill_fits (pieces t.toList) args
  rw [format] at h
  split at h
  next => cases h
  next => cases h
  next heq =>
    rw [heq] at hfits
    cases h
    exact ⟨rfl, rfl, placeholders_eq t.toList ▸ hfits⟩

theorem format_template_miscounted {first : String} {rest args : List String}
    (h : rest.length ≠ args.length) :
    format (template first rest) args =
      .error (.argumentCount (template first rest) rest.length args.length) := by
  have hfits := fill_fits (laidOut first rest) args
  rw [format, placeholders_eq, pieces_template, count_slot_laidOut]
  split
  next heq =>
    rw [heq] at hfits
    exact absurd ((count_slot_laidOut first rest).symm.trans hfits.2) h
  next brace heq =>
    rw [heq] at hfits
    exact absurd hfits (not_stray_laidOut first rest brace)
  next => rfl

/-- Format strings are exactly the templates, on values that are displayed with a store. -/
structure Exact (s : Store) : Prop where
  /-- A template with a value for each place gives the literal texts with the displayed values
  between them. -/
  fills : ∀ first rest (values : List Value), rest.length = values.length →
    format (template first rest) (values.map s.display) =
      .ok (filled first (values.map s.display) rest)
  /-- Nothing but a template with a value for each place is formatted. -/
  only : ∀ t text (values : List Value), format t (values.map s.display) = .ok text →
    ∃ first rest, rest.length = values.length ∧ t = template first rest ∧
      text = filled first (values.map s.display) rest
  /-- A template is cut in one way. -/
  cut : ∀ first rest first' rest', template first rest = template first' rest' →
    first = first' ∧ rest = rest'
  /-- A template with another number of values is refused with its number of places. -/
  counted : ∀ first rest (values : List Value), rest.length ≠ values.length →
    format (template first rest) (values.map s.display) =
      .error (.argumentCount (template first rest) rest.length values.length)
  /-- A wrong number of values is never reported as the number of places, whatever the braces of
  the format string. -/
  miscounted : ∀ t (values : List Value) reported expected given,
    format t (values.map s.display) = .error (.argumentCount reported expected given) →
    reported = t ∧ given = values.length ∧ expected ≠ values.length

theorem format_exact (s : Store) : Exact s where
  fills _ _ values h := format_template (h.trans (List.length_map ..).symm)
  only t text values h := by
    obtain ⟨first, rest, hlength, ht, htext⟩ := format_ok h
    exact ⟨first, rest, hlength.trans (List.length_map ..), ht, htext⟩
  cut _ _ _ _ := template_injective
  counted first rest values h := by
    have hne : rest.length ≠ (values.map s.display).length := by rwa [List.length_map]
    rw [format_template_miscounted hne, List.length_map]
  miscounted t values _ _ _ h := by
    obtain ⟨hreported, hgiven, hexpected⟩ := format_miscounted h
    rw [List.length_map] at hgiven hexpected
    exact ⟨hreported, hgiven, hexpected⟩

end Format

namespace Library

theorem run_display_loop (values : List Value) (shown : List String) (w : World) :
    (List.mapM.loop Action.display values shown).run w =
      .ok (shown.reverse ++ values.map w.store.display) w := by
  induction values generalizing shown with
  | nil => rw [List.map_nil, List.append_nil]; rfl
  | cons v values ih =>
    rw [List.mapM.loop, Action.run_bind]
    refine (ih (w.store.display v :: shown)).trans ?_
    rw [List.reverse_cons, List.append_assoc, List.singleton_append, List.map_cons]

/-- The output functions format their arguments as these are displayed at the time of the call. -/
theorem formatted_run (t : String) (values : List Value) (w : World) :
    (formatted (.string t :: values)).run w =
      (Action.ofExcept ((Format.format t (values.map w.store.display)).mapError .format)).run w := by
  show ((values.mapM Action.display) >>= _).run w = _
  rw [Action.run_bind, List.mapM, run_display_loop, List.reverse_nil, List.nil_append]
  simp only
  cases Format.format t (values.map w.store.display) <;> rfl

end Library
end ScriptEngine
