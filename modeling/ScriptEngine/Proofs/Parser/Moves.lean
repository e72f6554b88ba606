/-
What a parsing step can do to a parser.

A step takes tokens off the front, adds messages at the end and sets the two
counters, and nothing else.  `Moves` is the closure of these elementary moves,
and every invariant of the parser is read off it: the tokens ahead are a suffix
of those before (`Moves.suffix`), no message is ever taken back
(`Moves.messages`), and an invalid token that is next has been reported
(`Moves.revealed`).

`Orderly p k x` says that the step `x` only moves from `p`, that it consumes at
least `k` tokens when it succeeds, and that it blames an invalid token only
where one is next.  It is a predicate at a parser and not of the step alone,
because what a step consumes depends on the token it has just looked at.
-/
import ScriptEngine.Parser.Grammar
import ScriptEngine.Proofs.Sequence

namespace ScriptEngine
namespace Parser

inductive Moves (p : Parser) : Parser → Prop where
  | refl : Moves p p
  | advance {q : Parser} : Moves p q → Moves p q.advance
  | nest {q : Parser} (n : Nat) : Moves p q → Moves p { q with nesting := n }
  | blocks {q : Parser} (n : Nat) : Moves p q → Moves p { q with openBlocks := n }
  | note {q : Parser} (d : Diagnostic) :
      Moves p q → Moves p { q with diagnostics := q.diagnostics.add d }

/-- The fault of the next token, if it has one, has been reported. -/
def Revealed (p : Parser) : Prop :=
  ∀ t rest, p.ahead = t :: rest → t.fault.isSome → p.diagnostics.hasErrors = true

theorem revealed_reveal {p : Parser} (ds : Diagnostics)
    (h : p.diagnostics = reveal p.ahead ds) : Revealed p := by
  intro t rest ht hf
  obtain ⟨token, fault⟩ := t
  cases fault with
  | none => cases hf
  | some fault =>
    rw [h, ht]
    simp [reveal, Diagnostics.error, Diagnostics.add, Diagnostic.isError]

theorem reveal_prefix (ahead : List Scanned) (ds : Diagnostics) :
    ds.messages <+: (reveal ahead ds).messages := by
  unfold reveal
  split
  · exact List.prefix_append _ _
  · exact List.prefix_refl _

theorem hasErrors_of_prefix {ds es : Diagnostics} (h : ds.messages <+: es.messages)
    (he : ds.hasErrors = true) : es.hasErrors = true := by
  rw [Diagnostics.hasErrors_eq] at he ⊢
  obtain ⟨d, hd, hde⟩ := List.any_eq_true.mp he
  exact List.any_eq_true.mpr ⟨d, h.subset hd, hde⟩

/-! ## The tokens ahead -/

theorem advance_ahead (p : Parser) : p.advance.ahead = p.ahead.tail := by
  unfold advance
  split <;> simp_all

/-- A token whose kind is not that of the end mark stands among the tokens ahead. -/
theorem ahead_of_kind {p : Parser} (h : p.current.kind ≠ .eof) :
    ∃ s rest, p.ahead = s :: rest ∧ p.current = s.token := by
  unfold current at h ⊢
  split
  · next s rest hs => exact ⟨s, rest, hs, rfl⟩
  · next hs => simp [hs, Token.eof] at h

theorem current_of_check {p : Parser} {kind : TokenKind} (h : p.check kind = true) :
    p.current.kind = kind := by
  simpa [check] using h

theorem length_advance {p : Parser} (h : p.current.kind ≠ .eof) :
    p.advance.ahead.length + 1 = p.ahead.length := by
  obtain ⟨s, rest, hs, -⟩ := ahead_of_kind h
  simp [advance_ahead, hs]

/-! ## Invariants of moves -/

namespace Moves

variable {p q r : Parser}

theorem trans (h : Moves p q) (g : Moves q r) : Moves p r := by
  induction g with
  | refl => exact h
  | advance _ ih => exact .advance ih
  | nest n _ ih => exact .nest n ih
  | blocks n _ ih => exact .blocks n ih
  | note d _ ih => exact .note d ih

theorem suffix (h : Moves p q) : q.ahead <:+ p.ahead := by
  induction h with
  | refl => exact List.suffix_refl _
  | advance _ ih =>
    rw [advance_ahead]
    exact (List.tail_suffix _).trans ih
  | nest _ _ ih | blocks _ _ ih | note _ _ ih => exact ih

theorem length_le (h : Moves p q) : q.ahead.length ≤ p.ahead.length := h.suffix.length_le

theorem messages (h : Moves p q) : p.diagnostics.messages <+: q.diagnostics.messages := by
  induction h with
  | refl => exact List.prefix_refl _
  | @advance q _ ih =>
    refine ih.trans ?_
    unfold Parser.advance
    split
    · exact List.prefix_refl _
    · exact reveal_prefix _ _
  | nest _ _ ih | blocks _ _ ih => exact ih
  | note d _ ih => exact ih.trans (List.prefix_append _ _)

theorem hasErrors (h : Moves p q) (he : p.diagnostics.hasErrors = true) :
    q.diagnostics.hasErrors = true := hasErrors_of_prefix h.messages he

theorem revealed (h : Moves p q) (hp : Revealed p) : Revealed q := by
  induction h with
  | refl => exact hp
  | @advance q _ ih =>
    cases hq : q.ahead with
    | nil =>
      have hsame : q.advance = q := by simp [Parser.advance, hq]
      rw [hsame]
      exact ih
    | cons t rest =>
      exact revealed_reveal q.diagnostics (by simp [Parser.advance, hq])
  | nest _ _ ih | blocks _ _ ih => exact ih
  | @note q d _ ih =>
    intro t rest ht hf
    exact hasErrors_of_prefix (List.prefix_append _ _) (ih t rest ht hf)

end Moves

theorem advanceBy_moves (n : Nat) (p : Parser) : Moves p (advanceBy n p) := by
  induction n generalizing p with
  | zero => exact .refl
  | succ n ih => exact (Moves.advance .refl).trans (ih p.advance)

theorem synchronize_moves (p : Parser) : Moves p p.synchronize :=
  (Moves.blocks 0 .refl).trans (advanceBy_moves _ _)

theorem report_moves (p : Parser) (e : SyntaxError) : Moves p (p.report e) := by
  unfold report
  split
  · exact .refl
  · exact .note _ .refl

theorem recover_moves (start : Location) (e : SyntaxError) (p : Parser) :
    Moves p (recover start e p) := by
  unfold recover
  refine Moves.trans (Moves.nest 0 (report_moves p e)) ?_
  dsimp only
  split
  · exact (Moves.advance .refl).trans (synchronize_moves _)
  · exact synchronize_moves _

theorem separator_moves (afterStatement : Bool) (p : Parser) :
    Moves p (separator afterStatement p) := by
  unfold separator
  split
  · exact .advance .refl
  · exact .note _ (.advance .refl)

/-! ## Orderly steps -/

structure Orderly {α : Type} (p : Parser) (k : Nat) (x : Parse α) : Prop where
  ok : ∀ {a q}, x p = .ok a q → Moves p q ∧ q.ahead.length + k ≤ p.ahead.length
  error : ∀ {e q}, x p = .error e q →
    Moves p q ∧ (e.fault = .invalidToken → q.current.kind = .invalid)

namespace Orderly

variable {α β : Type} {p : Parser} {j k : Nat} {x : Parse α} {f : α → Parse β}

theorem mono (h : Orderly p k x) (hjk : j ≤ k) : Orderly p j x :=
  ⟨fun hx => ⟨(h.ok hx).1, Nat.le_trans (Nat.add_le_add_left hjk _) (h.ok hx).2⟩, h.error⟩

theorem of_eq {y : Parse α} (h : Orderly p k x) (hy : y p = x p) : Orderly p k y :=
  ⟨fun hq => h.ok (hy.symm.trans hq), fun hq => h.error (hy.symm.trans hq)⟩

theorem bind (hx : Orderly p j x) (hf : ∀ a q, x p = .ok a q → Orderly q k (f a)) :
    Orderly p (j + k) (x >>= f) := by
  constructor
  · intro b r h
    rw [bind_apply] at h
    split at h
    · next a q hq =>
      have h1 := hx.ok hq
      have h2 := (hf a q hq).ok h
      exact ⟨h1.1.trans h2.1, by omega⟩
    · cases h
  · intro e r h
    rw [bind_apply] at h
    split at h
    · next a q hq =>
      have h2 := (hf a q hq).error h
      exact ⟨(hx.ok hq).1.trans h2.1, h2.2⟩
    · next e' q hq =>
      cases h
      exact hx.error hq

/-- What the first of two steps consumes is consumed by both. -/
theorem seq (hx : Orderly p k x) (hf : ∀ a q, x p = .ok a q → Orderly q 0 (f a)) :
    Orderly p k (x >>= f) := bind hx hf

theorem get_bind {f : Parser → Parse β} (h : Orderly p k (f p)) :
    Orderly p k (get >>= f) := ⟨fun hx => h.ok hx, fun hx => h.error hx⟩

theorem pure (a : α) : Orderly p 0 (pure a) := by
  constructor
  · intro b q h
    cases h
    exact ⟨.refl, by omega⟩
  · intro e q h
    cases h

theorem throw {e : SyntaxError} (he : e.fault ≠ .invalidToken) :
    Orderly p k (throw e : Parse α) := by
  constructor
  · intro b q h
    cases h
  · intro e' q h
    cases h
    exact ⟨.refl, fun hi => absurd hi he⟩

theorem giveUp : Orderly p k (giveUp : Parse α) := by
  constructor
  · intro b q h
    cases h
  · intro e q h
    cases h
    exact ⟨.refl, fun hi => by cases hi⟩

theorem unexpected {fault : TokenKind → SyntaxFault} (hf : ∀ kind, fault kind ≠ .invalidToken)
    (hi : (p.unexpected fault).fault = .invalidToken) : p.current.kind = .invalid := by
  unfold Parser.unexpected at hi
  dsimp only at hi
  split at hi
  · assumption
  · exact absurd hi (hf _)

theorem failHere {fault : TokenKind → SyntaxFault} (hf : ∀ kind, fault kind ≠ .invalidToken) :
    Orderly p k (failHere fault : Parse α) := by
  constructor
  · intro b q h
    cases h
  · intro e q h
    cases h
    exact ⟨.refl, unexpected hf⟩

theorem take : Orderly p 0 take := by
  constructor
  · intro b q h
    cases h
    exact ⟨.advance .refl, (Moves.advance .refl).length_le⟩
  · intro e q h
    cases h

theorem take_kind (h : p.current.kind ≠ .eof) : Orderly p 1 Parser.take := by
  constructor
  · intro b q hq
    cases hq
    exact ⟨.advance .refl, Nat.le_of_eq (length_advance h)⟩
  · intro e q hq
    cases hq

theorem eat (kind : TokenKind) : Orderly p 0 (eat kind) := by
  constructor
  · intro b q h
    unfold Parser.eat at h
    split at h <;> cases h
    · exact ⟨.advance .refl, (Moves.advance .refl).length_le⟩
    · exact ⟨.refl, by omega⟩
  · intro e q h
    unfold Parser.eat at h
    split at h <;> cases h

theorem expect {kind : TokenKind} (hk : kind ≠ .eof) : Orderly p 1 (expect kind) := by
  constructor
  · intro b q h
    unfold Parser.expect at h
    split at h
    · next hc =>
      cases h
      have hkind : p.current.kind ≠ .eof := by rw [current_of_check hc]; exact hk
      exact ⟨.advance .refl, Nat.le_of_eq (length_advance hkind)⟩
    · cases h
  · intro e q h
    unfold Parser.expect at h
    split at h
    · cases h
    · cases h
      exact ⟨.refl, unexpected (fun _ => by simp)⟩

/-- A step that changes the parser by a move that keeps the tokens. -/
theorem modify {g : Parser → Parser} (hm : Moves p (g p)) :
    Orderly p 0 (modify g : Parse PUnit) := by
  constructor
  · intro b q h
    cases h
    exact ⟨hm, hm.length_le⟩
  · intro e q h
    cases h

theorem ite {c : Prop} [Decidable c] {y : Parse α} (hx : c → Orderly p k x)
    (hy : ¬c → Orderly p k y) : Orderly p k (if c then x else y) := by
  split
  · exact hx ‹_›
  · exact hy ‹_›

end Orderly
end Parser
end ScriptEngine
