/-
What the output functions leave behind.

Both functions make out the whole text before they write anything (`formatted_eq`), so a call
that is refused for its arguments writes nothing.  `print` then offers the text in one piece.  If
the output stays as it was wherever a write fails, the call writes the whole text or nothing.
`println` offers the newline as a second piece.  It is all or nothing too, except that an output
which takes the text and refuses the newline behind it is left with the text (`output_whole`).

An output that is repeated on a device is of the other kind: the write fails where the device
fails, and the text stays in the output.
-/
import ScriptEngine.Proofs.Library.Templates
import ScriptEngine.Proofs.Native.Writes

namespace ScriptEngine

namespace Library

/-- The text that the arguments of an output function stand for in a store, or why they stand for
none: there is no format string, or what is in its place is no string, or the format string does
not fit the values behind it. -/
def printed (s : Store) : List Value → Except NativeError String
  | [] => .error (.argumentCount 1 0)
  | .string template :: values => (Format.format template (values.map s.display)).mapError .format
  | v :: _ => .error (.argument 0 (.typeMismatch "string" v.typeName))

theorem formatted_eq (args : List Value) (w : World) :
    (formatted args).run w = (Action.ofExcept (printed w.store args)).run w := by
  cases args with
  | nil => rfl
  | cons v values =>
    cases v with
    | string template => exact formatted_run template values w
    | _ => rfl

variable {args : List Value} {w : World} {text : String} {e : NativeError}

theorem formatted_ok (h : printed w.store args = .ok text) :
    (formatted args).run w = .ok text w := by
  rw [formatted_eq, h]
  rfl

theorem formatted_error (h : printed w.store args = .error e) :
    (formatted args).run w = .error e w := by
  rw [formatted_eq, h]
  rfl

/-! ## One piece -/

theorem print_unprintable (h : printed w.store args = .error e) :
    (print args).run w = .error e w := by
  simp only [print, Action.run_bind, formatted_error h]

theorem print_taken (h : printed w.store args = .ok text) (htext : w.Takes text) :
    (print args).run w = .ok .unset (w.append [text]) := by
  simp only [print, Action.run_bind, formatted_ok h, Action.run_write_taken htext, Action.run_pure]

theorem print_failed {after : World} (h : printed w.store args = .ok text)
    (hwrite : (Action.write text).run w = .error e after) :
    (print args).run w = .error e after := by
  simp only [print, Action.run_bind, formatted_ok h, hwrite]

/-! ## Two pieces -/

theorem println_unprintable (h : printed w.store args = .error e) :
    (println args).run w = .error e w := by
  simp only [println, Action.run_bind, formatted_error h]

theorem println_taken (h : printed w.store args = .ok text) (htext : w.Takes text)
    (hnewline : (w.append [text]).Takes "\n") :
    (println args).run w = .ok .unset (w.append [text, "\n"]) := by
  simp only [println, Action.run_bind, formatted_ok h, Action.run_write_taken htext,
    Action.run_write_taken hnewline, Action.run_pure, World.append_append, List.cons_append,
    List.nil_append]

theorem println_failed {after : World} (h : printed w.store args = .ok text)
    (hwrite : (Action.write text).run w = .error e after) :
    (println args).run w = .error e after := by
  simp only [println, Action.run_bind, formatted_ok h, hwrite]

theorem println_cut {after : World} (h : printed w.store args = .ok text) (htext : w.Takes text)
    (hwrite : (Action.write "\n").run (w.append [text]) = .error e after) :
    (println args).run w = .error e after := by
  simp only [println, Action.run_bind, formatted_ok h, Action.run_write_taken htext, hwrite]

/-! ## All or nothing -/

/-- The call of a function of any number of arguments in a world. -/
def call (body : List Value → Action Value) (args : List Value) (w : World) :
    EStateM.Result NativeError World Value := ((NativeFunction.variadic body).call args).run w

/-- A call that fails leaves the world as it was, and one that succeeds has written the whole text
behind the output and done nothing else. -/
def AllOrNothing (w : World) (whole : Except NativeError (List String)) :
    EStateM.Result NativeError World Value → Prop
  | .error _ after => after = w
  | .ok v after => v = .unset ∧ ∃ pieces, whole = .ok pieces ∧ after = w.append pieces

/-- What the output functions write, and when they fail. -/
structure WritesWhole (args : List Value) (w : World) : Prop where
  print_whole : w.Clean →
    AllOrNothing w ((printed w.store args).map fun text => [text]) (call print args w)
  /-- A call of `print` fails for its arguments or because its text is refused. -/
  print_succeeds : (∃ v after, call print args w = .ok v after) ↔
    ∃ text, printed w.store args = .ok text ∧ w.Takes text
  /-- A call of `println` writes all or nothing, unless the output takes the text and refuses the
  newline. -/
  println_whole : w.Clean →
    (∀ text, printed w.store args = .ok text → w.Takes text → (w.append [text]).Takes "\n") →
    AllOrNothing w ((printed w.store args).map fun text => [text, "\n"]) (call println args w)
  println_succeeds : (∃ v after, call println args w = .ok v after) ↔
    ∃ text, printed w.store args = .ok text ∧ w.Takes text ∧ (w.append [text]).Takes "\n"
  /-- The text alone stays where the newline is refused. -/
  println_cut : w.Clean → ∀ text, printed w.store args = .ok text → w.Takes text →
    ¬(w.append [text]).Takes "\n" → call println args w = .error .output (w.append [text])
  /-- Arguments that stand for no text leave every output as it was. -/
  unprintable : ∀ e, printed w.store args = .error e →
    call print args w = .error e w ∧ call println args w = .error e w
  /-- So does a text that the output has no room for. -/
  refused : ∀ text, printed w.store args = .ok text → ¬w.Accepts text →
    call print args w = .error .output w ∧ call println args w = .error .output w
  /-- A text that the output has room for stays there where the device fails. -/
  kept : ∀ text, printed w.store args = .ok text → w.Accepts text → ¬w.Takes text →
    call print args w = .error .output (w.append [text]) ∧
      call println args w = .error .output (w.append [text])
  /-- The newline stays too where the device fails only then. -/
  newline_kept : ∀ text, printed w.store args = .ok text → w.Takes text →
    (w.append [text]).Accepts "\n" → ¬(w.append [text]).Takes "\n" →
    call println args w = .error .output (w.append [text, "\n"])

theorem output_whole (args : List Value) (w : World) : WritesWhole args w := by
  cases hprinted : printed w.store args with
  | error e =>
    have hprint : call print args w = .error e w := print_unprintable hprinted
    have hprintln : call println args w = .error e w := println_unprintable hprinted
    constructor <;> simp [hprinted, hprint, hprintln, AllOrNothing]
  | ok text =>
    by_cases htext : w.Takes text
    · have haccepted : w.Accepts text := World.accepts_of_takes htext
      have hprint : call print args w = .ok .unset (w.append [text]) := print_taken hprinted htext
      by_cases hnewline : (w.append [text]).Takes "\n"
      · have hprintln : call println args w = .ok .unset (w.append [text, "\n"]) :=
          println_taken hprinted htext hnewline
        constructor <;>
          simp [hprinted, hprint, hprintln, htext, haccepted, hnewline, AllOrNothing, Except.map]
      · obtain ⟨after, hwrite, hclean, -, hkept⟩ := Action.run_write_failed hnewline
        have hprintln : call println args w = .error .output after :=
          println_cut hprinted htext hwrite
        rw [World.append_append] at hkept
        constructor <;>
          simp +contextual [hprinted, hprint, hprintln, htext, haccepted, hnewline, AllOrNothing,
            Except.map, World.Clean.append, hclean, hkept]
    · obtain ⟨after, hwrite, hclean, hrefused, hkept⟩ := Action.run_write_failed htext
      have hprint : call print args w = .error .output after := print_failed hprinted hwrite
      have hprintln : call println args w = .error .output after := println_failed hprinted hwrite
      constructor <;>
        simp +contextual [hprinted, hprint, hprintln, htext, AllOrNothing, hclean, hrefused, hkept]

/-- An output with room for the text alone keeps it, although the call fails. -/
theorem println_leaves_text :
    let w := World.ofOutput (.limited 2)
    let outcome := call println [.string "ab"] w
    w.Clean ∧ outcome = .error .output (w.append ["ab"]) ∧
      (w.append ["ab"]).output.text = "ab" ∧ w.output.text = "" ∧
      ¬AllOrNothing w ((printed w.store [.string "ab"]).map fun text => [text, "\n"])
        outcome := by
  intro w outcome
  have hclean : w.Clean := World.clean_of_silent rfl
  have hprinted : printed w.store [.string "ab"] = .ok "ab" := by rfl
  have hnewline : ¬(w.append ["ab"]).Takes "\n" := by decide
  obtain ⟨after, hwrite, hafter, -, -⟩ := Action.run_write_failed hnewline
  rw [hafter (hclean.append _)] at hwrite
  have houtcome : outcome = .error .output (w.append ["ab"]) :=
    println_cut hprinted (by decide) hwrite
  refine ⟨hclean, houtcome, rfl, rfl, fun h => ?_⟩
  rw [houtcome] at h
  exact absurd (congrArg (·.output.text) h) (by decide)

end Library
end ScriptEngine
