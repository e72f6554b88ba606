/-
What a write does to an output.

A write that goes well adds its text behind the output.  One that fails is of one of two kinds:
an output without room for the text stays as it was (`World.write_refused`), and an output that has
room for it keeps the text although the device fails that it is repeated on
(`World.write_accepted`).  Where an output collects every text only the second kind is left,
so whatever an action does, the output has grown by some texts, and the same texts were sent to the
device (`World.Grows`).
-/
import ScriptEngine.Native.Action

namespace ScriptEngine

namespace World

/-- The world with some texts written behind its output, and sent to the device if there is
one. -/
def append (w : World) (pieces : List String) : World :=
  { w with
    output := { w.output with
      text := w.output.text ++ String.join pieces
      echo := w.output.echo.map fun d => { d with sent := d.sent ++ pieces } } }

/-- Whether the output has room for a text as its next piece. -/
def Accepts (w : World) (piece : String) : Prop := w.output.accepts w.output.text piece = true

instance (w : World) (piece : String) : Decidable (w.Accepts piece) :=
  inferInstanceAs (Decidable (_ = true))

/-- Whether the write of a text as the next piece goes well. -/
def Takes (w : World) (piece : String) : Prop := (w.output.write piece).1 = true

instance (w : World) (piece : String) : Decidable (w.Takes piece) :=
  inferInstanceAs (Decidable (_ = true))

/-- Whatever is written first, a write that fails leaves the output as it was. -/
def Clean (w : World) : Prop :=
  ∀ pieces piece, ¬(w.append pieces).Takes piece →
    ((w.append pieces).output.write piece).2 = (w.append pieces).output

/-- The output collects every text. -/
def Collects (w : World) : Prop := ∀ written piece, w.output.accepts written piece = true

/-- The output of the second world is that of the first one with some texts behind it. -/
def Grows (w w' : World) : Prop := ∃ pieces, w'.output = (w.append pieces).output

variable {w w' w'' : World} {piece : String}

theorem append_nil (w : World) : w.append [] = w := by
  simp [append]

theorem append_append (w : World) (pieces more : List String) :
    (w.append pieces).append more = w.append (pieces ++ more) := by
  simp [append, String.append_assoc, Function.comp_def]

/-! ## One write -/

theorem write_accepted (h : w.Accepts piece) :
    w.output.write piece =
      (w.output.echo.all fun d => (d.send piece).1, (w.append [piece]).output) := by
  have hsame : w.output.append piece = (w.append [piece]).output := by
    simp [append, Output.append, Device.send]
  rw [← hsame]
  exact if_pos h

theorem write_refused (h : ¬w.Accepts piece) : w.output.write piece = (false, w.output) :=
  if_neg h

theorem accepts_of_takes (h : w.Takes piece) : w.Accepts piece :=
  Decidable.of_not_not fun hrefused => by
    rw [Takes, write_refused hrefused] at h
    cases h

theorem Clean.append (h : w.Clean) (pieces : List String) : (w.append pieces).Clean := by
  intro more piece hfails
  rw [append_append] at hfails ⊢
  exact h _ _ hfails

/-- An output that is not repeated on a device takes a text or stays as it was. -/
theorem clean_of_silent (h : w.output.echo = none) : w.Clean := by
  intro pieces piece hfails
  have hrefused : ¬(w.append pieces).Accepts piece := by
    intro haccepted
    refine hfails ?_
    rw [Takes, write_accepted haccepted]
    simp [append, h]
  rw [write_refused hrefused]

/-! ## Many writes -/

theorem Grows.refl (w : World) : w.Grows w := ⟨[], by rw [append_nil]⟩

theorem Grows.trans (h : w.Grows w') (h' : w'.Grows w'') : w.Grows w'' := by
  obtain ⟨pieces, hpieces⟩ := h
  obtain ⟨more, hmore⟩ := h'
  refine ⟨pieces ++ more, ?_⟩
  rw [hmore, ← append_append, append, hpieces]
  rfl

theorem Grows.collects (h : w.Grows w') (hw : w.Collects) : w'.Collects := by
  obtain ⟨pieces, hpieces⟩ := h
  rw [Collects, hpieces]
  exact hw

end World

namespace Action

variable {w : World} {piece : String}

theorem run_offer_accepted {α : Type} {next : Bool → Action α} (h : w.Accepts piece) :
    (offer piece next).run w =
      (next (w.output.echo.all fun d => (d.send piece).1)).run (w.append [piece]) := by
  rw [run, World.write_accepted h]
  rfl

theorem run_write_taken (h : w.Takes piece) : (write piece).run w = .ok () (w.append [piece]) := by
  have haccepted : w.Accepts piece := World.accepts_of_takes h
  have hsent : (w.output.echo.all fun d => (d.send piece).1) = true := by
    rw [World.Takes, World.write_accepted haccepted] at h
    exact h
  rw [write, run_offer_accepted haccepted, hsent]
  rfl

/-- A write that fails leaves an output without room for the text as it was, and a clean one too;
what an output has room for stays there. -/
theorem run_write_failed (h : ¬w.Takes piece) :
    ∃ after, (write piece).run w = .error .output after ∧ (w.Clean → after = w) ∧
      (¬w.Accepts piece → after = w) ∧ (w.Accepts piece → after = w.append [piece]) := by
  refine ⟨{ w with output := (w.output.write piece).2 }, ?_, fun hclean => ?_, fun hrefused => ?_,
    fun haccepted => ?_⟩
  · simp only [write, run, show ¬(w.output.write piece).1 = true from h]
    rfl
  · have hsame := hclean [] piece
    rw [World.append_nil] at hsame
    rw [hsame h]
  · rw [World.write_refused hrefused]
  · rw [World.write_accepted haccepted]
    rfl

end Action
end ScriptEngine
