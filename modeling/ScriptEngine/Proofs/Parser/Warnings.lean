/-
The warnings of a script without errors.

A parse without an error has no other messages than warnings.  One is about each statement
whose blocks hold no statement (`emptyWarnings`), and one about each separator that no statement
stands before (`SpacedBlock`), and there are no more (`parse_warns`).

The functions for expressions add no message when the tokens ahead have no fault
(`Quiet`).  The functions for statements read a span and add messages that belong to it
(`Tells`); as for spans alone, the induction is on the tokens ahead.
-/
import ScriptEngine.Proofs.Parser.Reporting
import ScriptEngine.Proofs.Parser.Separators

namespace ScriptEngine

/-! ## Empty statements -/

mutual

/-- The statements in the blocks of a statement, at any depth, and the statement itself. -/
def Stmt.nested : Stmt → List Stmt
  | .branch l condition thenBody none =>
    nestedIn thenBody ++ [.branch l condition thenBody none]
  | .branch l condition thenBody (some elseBody) =>
    nestedIn thenBody ++ nestedIn elseBody ++ [.branch l condition thenBody (some elseBody)]
  | .loop l condition body => nestedIn body ++ [.loop l condition body]
  | s => [s]

def nestedIn : List Stmt → List Stmt
  | [] => []
  | s :: rest => s.nested ++ nestedIn rest

end

/-- The message about a statement whose blocks hold no statement. -/
def emptyBody (word : String) (l : Location) : Diagnostic :=
  ⟨.warning, "W001", "empty '" ++ word ++ "' body", l⟩

/-- The message about a loop without a body, or about a branch with neither alternative. -/
def Stmt.emptyWarning? : Stmt → Option Diagnostic
  | .branch l _ thenBody elseBody =>
    if thenBody.isEmpty && Parser.isEmptyBlock elseBody then some (emptyBody "if" l) else none
  | .loop l _ body => if body.isEmpty then some (emptyBody "while" l) else none
  | _ => none

/-- The messages about the empty ones of the statements, at any depth. -/
def emptyWarnings (body : List Stmt) : List Diagnostic :=
  (nestedIn body).filterMap Stmt.emptyWarning?

theorem emptyWarnings_cons (s : Stmt) (rest : List Stmt) :
    emptyWarnings (s :: rest) = emptyWarnings [s] ++ emptyWarnings rest := by
  simp [emptyWarnings, nestedIn]

theorem emptyWarnings_branch (l : Location) (condition : Expr) (thenBody : List Stmt)
    (elseBody : Option (List Stmt)) :
    emptyWarnings [.branch l condition thenBody elseBody] =
      emptyWarnings thenBody ++ (emptyWarnings (elseBody.getD []) ++
        if thenBody.isEmpty && Parser.isEmptyBlock elseBody then [emptyBody "if" l] else []) := by
  by_cases hempty : (thenBody.isEmpty && Parser.isEmptyBlock elseBody) = true <;>
    cases elseBody <;>
    simp [emptyWarnings, nestedIn, Stmt.nested, Stmt.emptyWarning?, hempty]

theorem emptyWarnings_loop (l : Location) (condition : Expr) (body : List Stmt) :
    emptyWarnings [.loop l condition body] =
      emptyWarnings body ++ if body.isEmpty then [emptyBody "while" l] else [] := by
  by_cases hempty : body.isEmpty = true <;>
    simp [emptyWarnings, nestedIn, Stmt.nested, Stmt.emptyWarning?, hempty]

theorem emptyWarnings_simple {s : Stmt} (h : s.isSimple = true) : emptyWarnings [s] = [] := by
  cases s <;> first | rfl | cases h

namespace Parser

open Grammar

/-! ## Steps without a message -/

/-- No fault is ahead, and these are the messages so far. -/
structure Says (ms : List Diagnostic) (p : Parser) : Prop where
  clean : ∀ s ∈ p.ahead, s.fault = none
  messages : p.diagnostics.messages = ms

theorem found_clean {ahead : List Scanned} (h : ∀ s ∈ ahead, s.fault = none) :
    found ahead = [] := by
  cases ahead with
  | nil => rfl
  | cons s rest =>
    obtain ⟨t, fault⟩ := s
    obtain rfl : fault = none := h _ List.mem_cons_self
    rfl

theorem Says.advance {ms : List Diagnostic} {p : Parser} (h : Says ms p) : Says ms p.advance := by
  have hclean : ∀ s ∈ p.advance.ahead, s.fault = none := by
    rw [advance_ahead]
    exact fun s hs => h.clean s (List.mem_of_mem_tail hs)
  refine ⟨hclean, ?_⟩
  rw [advance_messages, found_clean hclean, List.append_nil, h.messages]

/-- A step that succeeds adds no message, if no fault is ahead. -/
def Quiet {α : Type} (x : Parse α) : Prop :=
  ∀ ms p a q, x p = .ok a q → Says ms p → Says ms q

namespace Quiet

variable {α β : Type} {x : Parse α} {f : α → Parse β}

theorem bind (hx : Quiet x) (hf : ∀ a, Quiet (f a)) : Quiet (x >>= f) := by
  intro ms p b r h hp
  obtain ⟨a, q, hq, hr⟩ := result_bind_ok h
  exact hf a ms q b r hr (hx ms p a q hq hp)

theorem get_bind {f : Parser → Parse β} (hf : ∀ p, Quiet (f p)) : Quiet (get >>= f) :=
  fun ms p b r h hp => hf p ms p b r h hp

theorem pure (a : α) : Quiet (pure a : Parse α) := by
  intro ms p b q h hp
  cases h
  exact hp

theorem throw (e : SyntaxError) : Quiet (throw e : Parse α) := by
  intro ms p a q h
  cases h

theorem failHere (fault : TokenKind → SyntaxFault) : Quiet (failHere fault : Parse α) := by
  intro ms p a q h
  cases h

theorem giveUp : Quiet (giveUp : Parse α) := by
  intro ms p a q h
  cases h

theorem ite {c : Prop} [Decidable c] {y : Parse α} (hx : Quiet x) (hy : Quiet y) :
    Quiet (if c then x else y) := by
  split
  · exact hx
  · exact hy

theorem take : Quiet take := by
  intro ms p a q h hp
  cases h
  exact hp.advance

theorem eat (kind : TokenKind) : Quiet (eat kind) := by
  intro ms p a q h hp
  unfold Parser.eat at h
  split at h <;> cases h
  · exact hp.advance
  · exact hp

theorem expect (kind : TokenKind) : Quiet (expect kind) := by
  intro ms p a q h hp
  unfold Parser.expect at h
  split at h <;> cases h
  exact hp.advance

theorem modify {g : Parser → Parser} (hg : ∀ ms p, Says ms p → Says ms (g p)) :
    Quiet (modify g : Parse PUnit) := by
  intro ms p a q h hp
  cases h
  exact hg ms p hp

theorem enterParens : Quiet enterParens := modify fun _ _ h => ⟨h.clean, h.messages⟩

theorem leaveParens : Quiet leaveParens := modify fun _ _ h => ⟨h.clean, h.messages⟩

theorem openBlock : Quiet openBlock := modify fun _ _ h => ⟨h.clean, h.messages⟩

theorem closeBlock : Quiet closeBlock := modify fun _ _ h => ⟨h.clean, h.messages⟩

theorem leaf (e : Expr) : Quiet (leaf e) := take.bind fun _ => pure _

theorem memberName : Quiet memberName :=
  get_bind fun _ => ite (take.bind fun _ => pure _) (failHere _)

end Quiet

/-- The functions for expressions add no message. -/
structure Calls.Silent (c : Calls) : Prop where
  expr : ∀ power, Quiet (c.expr power)
  chain : ∀ power left, Quiet (c.chain power left)
  operand : Quiet c.operand
  arguments : Quiet c.arguments
  items : Quiet c.items

namespace Calls.Silent

variable {c : Calls} (h : c.Silent)
include h

theorem exprBody (power : Nat) : Quiet (c.exprBody power) :=
  h.operand.bind fun left => h.chain power left

theorem chainBody (power : Nat) (left : Expr) : Quiet (c.chainBody power left) := by
  refine .get_bind fun p => .ite (.ite (.pure _) ?_) ?_
  · refine Quiet.take.bind fun _ => Quiet.memberName.bind fun name => ?_
    exact .get_bind fun q => .ite (h.arguments.bind fun args => h.chain power _) (h.chain power _)
  · split
    · exact .pure _
    · refine .ite (.pure _) (.ite (.pure _) ?_)
      exact Quiet.take.bind fun _ => (h.expr _).bind fun right => h.chain power _

theorem operandBody : Quiet c.operandBody := by
  refine .get_bind fun p => ?_
  dsimp only
  split
  · refine Quiet.take.bind fun _ => ?_
    split
    · exact .pure _
    · exact .throw _
  · exact .leaf _
  · exact .leaf _
  · exact .leaf _
  · refine Quiet.take.bind fun _ => .get_bind fun q => .ite ?_ (.pure _)
    exact h.arguments.bind fun args => .pure _
  · refine Quiet.take.bind fun _ => Quiet.enterParens.bind fun _ => ?_
    refine (h.expr 0).bind fun inner => (Quiet.expect _).bind fun _ => ?_
    exact Quiet.leaveParens.bind fun _ => .pure _
  · exact Quiet.take.bind fun _ => (h.expr _).bind fun e => .pure _
  · exact Quiet.take.bind fun _ => (h.expr _).bind fun e => .pure _
  · exact .throw _
  · exact .failHere _

theorem argumentsBody : Quiet c.argumentsBody := by
  refine (Quiet.expect _).bind fun _ => (Quiet.eat _).bind fun found => ?_
  cases found with
  | some t => exact .pure _
  | none =>
    refine Quiet.enterParens.bind fun _ => h.items.bind fun args => ?_
    exact Quiet.leaveParens.bind fun _ => .pure _

theorem itemsBody : Quiet c.itemsBody := by
  refine (h.expr 0).bind fun first => (Quiet.eat _).bind fun found => ?_
  cases found with
  | some t => exact h.items.bind fun more => .pure _
  | none =>
    refine (Quiet.eat _).bind fun closed => ?_
    cases closed with
    | some t => exact .pure _
    | none => exact .failHere _

theorem condition : Quiet c.condition :=
  (Quiet.expect _).bind fun _ => (h.expr 0).bind fun _ => (Quiet.expect _).bind fun _ => .pure _

theorem simple : Quiet c.simple := by
  refine (h.expr 0).bind fun left => (Quiet.eat _).bind fun found => ?_
  cases found with
  | none => exact .pure _
  | some t =>
    refine (h.expr 0).bind fun value => ?_
    split
    · exact .pure _
    · exact .pure _
    · exact .throw _

theorem printBody (t : Token) (newline : Bool) : Quiet (c.printBody t newline) :=
  Quiet.take.bind fun _ => h.arguments.bind fun _ => .pure _

end Calls.Silent

theorem callsIn_silent (n : Nat) : (callsIn n).Silent := by
  induction n with
  | zero =>
    rw [callsIn_zero]
    constructor <;> intros <;> exact .giveUp
  | succ n ih =>
    rw [callsIn_succ]
    exact ⟨ih.exprBody, ih.chainBody, ih.operandBody, ih.argumentsBody, ih.itemsBody⟩

theorem settled_silent : settled.Silent where
  expr power ms p := (callsIn_silent p.budget).expr power ms p
  chain power left ms p := (callsIn_silent p.budget).chain power left ms p
  operand ms p := (callsIn_silent p.budget).operand ms p
  arguments ms p := (callsIn_silent p.budget).arguments ms p
  items ms p := (callsIn_silent p.budget).items ms p

/-! ## Steps with messages -/

/-- The messages are those about the empty statements and those about the separators, in some
order. -/
def Warned (ws es : List Diagnostic) (rs : List Token) : Prop :=
  ws.Perm (es ++ rs.map fun t => redundant t.location)

theorem Warned.append {ws vs es fs : List Diagnostic} {rs qs : List Token} (h : Warned ws es rs)
    (g : Warned vs fs qs) : Warned (ws ++ vs) (es ++ fs) (rs ++ qs) := by
  refine (List.Perm.append h g).trans ?_
  rw [List.map_append, List.append_assoc, List.append_assoc]
  exact (List.perm_append_comm_assoc _ _ _).append_left es

theorem Warned.own (ws : List Diagnostic) : Warned ws ws [] := by
  rw [Warned, List.map_nil, List.append_nil]

/-- A step that succeeds reads a span and adds messages, if no fault is ahead. -/
def Tells {α : Type} (p : Parser) (x : Parse α) (Q : List Token → List Diagnostic → α → Prop) :
    Prop :=
  ∀ ms a q, x p = .ok a q → Says ms p →
    ∃ ts ws, p.tokens = ts ++ q.tokens ∧ Says (ms ++ ws) q ∧ Q ts ws a

namespace Tells

variable {α β : Type} {p : Parser} {x : Parse α} {f : α → Parse β}
  {Q : List Token → List Diagnostic → α → Prop} {R : List Token → List Diagnostic → β → Prop}

theorem bind (hx : Tells p x Q)
    (hf : ∀ a q ts ws, x p = .ok a q → Q ts ws a →
      Tells q (f a) fun us vs b => R (ts ++ us) (ws ++ vs) b) :
    Tells p (x >>= f) R := by
  intro ms b r h hp
  obtain ⟨a, q, hq, hr⟩ := result_bind_ok h
  obtain ⟨ts, ws, ht, hsays, hts⟩ := hx ms a q hq hp
  obtain ⟨us, vs, hu, hlast, hus⟩ := hf a q ts ws hq hts (ms ++ ws) b r hr hsays
  refine ⟨ts ++ us, ws ++ vs, ?_, ?_, hus⟩
  · rw [ht, hu, List.append_assoc]
  · rwa [← List.append_assoc]

theorem get_bind {f : Parser → Parse β} (h : Tells p (f p) R) : Tells p (get >>= f) R := h

theorem pure {a : α} (h : Q [] [] a) : Tells p (pure a) Q := by
  intro ms b q hq hp
  cases hq
  exact ⟨[], [], rfl, by rwa [List.append_nil], h⟩

theorem throw {e : SyntaxError} : Tells p (throw e : Parse α) Q := by
  intro ms b q hq
  cases hq

theorem ite {c : Prop} [Decidable c] {y : Parse α} (hx : c → Tells p x Q)
    (hy : ¬c → Tells p y Q) : Tells p (if c then x else y) Q := by
  split
  · exact hx ‹_›
  · exact hy ‹_›

/-- A step without a message reads its span. -/
theorem of_reads {S : List Token → α → Prop} (h : Reads p x S) (hx : Quiet x) :
    Tells p x fun ts ws a => S ts a ∧ ws = [] := by
  intro ms a q hq hp
  obtain ⟨ts, hts, hspan⟩ := h a q hq
  refine ⟨ts, [], hts, ?_, hspan, rfl⟩
  rw [List.append_nil]
  exact hx ms p a q hq hp

theorem warnEmpty (keyword : Token) (word : String) (isEmpty : Bool) :
    Tells p (warnEmpty keyword word isEmpty) fun ts ws _ =>
      ts = [] ∧ ws = if isEmpty then [emptyBody word keyword.location] else [] := by
  intro ms a q hq hp
  cases hq
  cases isEmpty with
  | false => exact ⟨[], [], rfl, by rwa [List.append_nil], rfl, rfl⟩
  | true =>
    refine ⟨[], [emptyBody word keyword.location], rfl, ⟨hp.clean, ?_⟩, rfl, rfl⟩
    exact congrArg (· ++ [_]) hp.messages

theorem separator (afterStatement : Bool) (h : p.check .semicolon = true) :
    Tells p (modify (separator afterStatement) : Parse PUnit) fun ts ws _ =>
      ts = [p.current] ∧ ws = if afterStatement then [] else [redundant p.current.location] := by
  intro ms a q hq hp
  cases hq
  have hne : p.current.kind ≠ .eof := by simp [current_of_check h]
  have hadvance := hp.advance
  cases afterStatement with
  | true => exact ⟨[p.current], [], tokens_advance hne, by rwa [List.append_nil], rfl, rfl⟩
  | false =>
    refine ⟨[p.current], [redundant p.current.location], tokens_advance hne,
      ⟨hadvance.clean, ?_⟩, rfl, rfl⟩
    exact congrArg (· ++ [_]) hadvance.messages

end Tells

/-- What a statement reads and tells. -/
def StatementTold (ts : List Token) (ws : List Diagnostic) (s : Stmt) : Prop :=
  ∃ rs, SpacedStatement ts s rs ∧ Warned ws (emptyWarnings [s]) rs

/-- What an alternative reads and tells. -/
def AlternativeTold (ts : List Token) (ws : List Diagnostic) (body : Option (List Stmt)) : Prop :=
  ∃ rs, SpacedAlternative ts body rs ∧ Warned ws (emptyWarnings (body.getD [])) rs

/-- What the rest of a block reads and tells. -/
def BlockTold (afterStatement : Bool) (ts : List Token) (ws : List Diagnostic)
    (body : List Stmt) : Prop :=
  ∃ rs, SpacedBlock afterStatement ts body rs ∧ Warned ws (emptyWarnings body) rs

theorem statementTold_simple {ts : List Token} {s : Stmt} (h : Statement ts s)
    (hs : s.isSimple = true) : StatementTold ts [] s := by
  refine ⟨[], .simple h hs, ?_⟩
  rw [Warned, emptyWarnings_simple hs]
  exact .refl _

theorem simple_isSimple {p q : Parser} {s : Stmt} (h : settled.simple p = .ok s q) :
    s.isSimple = true := by
  obtain ⟨left, r, -, h⟩ := result_bind_ok h
  obtain ⟨found, r, -, h⟩ := result_bind_ok h
  cases found with
  | none =>
    cases h
    rfl
  | some t =>
    obtain ⟨value, r, -, h⟩ := result_bind_ok h
    split at h <;> cases h <;> rfl

theorem simple_tells (p : Parser) : Tells p settled.simple StatementTold := by
  intro ms s q h hp
  obtain ⟨ts, ws, hts, hsays, hspan, rfl⟩ :=
    Tells.of_reads (simple_reads p) settled_silent.simple ms s q h hp
  exact ⟨ts, [], hts, hsays, statementTold_simple hspan (simple_isSimple h)⟩

theorem print_tells {p : Parser} {newline : Bool}
    (hk : p.current.kind = if newline then .println else .print) :
    Tells p (settled.printBody p.current newline) StatementTold := by
  intro ms s q h hp
  obtain ⟨ts, ws, hts, hsays, hspan, rfl⟩ :=
    Tells.of_reads (print_reads hk) (settled_silent.printBody _ _) ms s q h hp
  refine ⟨ts, [], hts, hsays, statementTold_simple hspan ?_⟩
  obtain ⟨t, r, -, h⟩ := result_bind_ok h
  obtain ⟨args, r, -, h⟩ := result_bind_ok h
  cases h
  rfl

/-! A statement with blocks begins with its keyword and a condition, and ends with `end`. -/

theorem opening_tells {p : Parser} {f : Expr → Parse Stmt}
    {R : List Token → List Diagnostic → Stmt → Prop} (hk : p.current.kind ≠ .eof)
    (hf : ∀ condition q cs, q.ahead.length < p.ahead.length → Condition cs condition →
      Tells q (f condition) fun ts ws s => R (p.current :: (cs ++ ts)) ws s) :
    Tells p (take >>= fun _ => openBlock >>= fun _ => settled.condition >>= f) R := by
  refine (Tells.of_reads (.take hk) .take).bind fun t q ts ws hq ht => ?_
  have hlen := ((Orderly.take_kind hk).ok hq).2
  obtain ⟨⟨rfl, rfl⟩, rfl⟩ := ht
  refine (Tells.of_reads (.modify rfl) Quiet.openBlock).bind fun _ q us vs hq hus => ?_
  cases hq
  obtain ⟨rfl, rfl⟩ := hus
  refine (Tells.of_reads (condition_reads _) settled_silent.condition).bind
    fun condition q cs ws hq hcondition => ?_
  have hcond := ((settled_tidy.condition _).ok hq).2
  dsimp only at hcond
  obtain ⟨hcondition, rfl⟩ := hcondition
  exact hf condition q cs (by omega) hcondition

theorem closing_tells {p : Parser} {keyword : Token} {word : String} {isEmpty : Bool} {s : Stmt}
    {R : List Token → List Diagnostic → Stmt → Prop}
    (h : ∀ closing : Token, closing.kind = .end_ →
      R [closing] (if isEmpty then [emptyBody word keyword.location] else []) s) :
    Tells p (expect .end_ >>= fun _ => closeBlock >>= fun _ =>
      warnEmpty keyword word isEmpty >>= fun _ => pure s) R := by
  refine (Tells.of_reads (.expect (by decide)) (.expect _)).bind
    fun closing q ts ws _ hclosing => ?_
  obtain ⟨⟨rfl, hclosing⟩, rfl⟩ := hclosing
  refine (Tells.of_reads (.modify rfl) Quiet.closeBlock).bind fun _ q us vs _ hus => ?_
  obtain ⟨rfl, rfl⟩ := hus
  refine (Tells.warnEmpty _ _ _).bind fun _ q us vs _ hus => .pure ?_
  obtain ⟨rfl, rfl⟩ := hus
  simpa using h closing hclosing

section
variable {p : Parser}

theorem alternative_tells (opener : Token)
    (ih : ∀ q : Parser, q.ahead.length ≤ p.ahead.length →
      Tells q (block opener false false) (BlockTold false)) :
    Tells p (settled.alternative opener) AlternativeTold := by
  refine (Tells.of_reads (.eat (by decide)) (.eat _)).bind fun found q ts ws hq hfound => ?_
  obtain ⟨hfound, rfl⟩ := hfound
  cases found with
  | none =>
    subst hfound
    exact .pure ⟨[], .none, .refl _⟩
  | some keyword =>
    obtain ⟨rfl, hkeyword⟩ := hfound
    have hlen := ((Orderly.eat _).ok hq).2
    refine (ih q (by omega)).bind fun body r us vs _ hbody => .pure ?_
    obtain ⟨rs, hspaced, hwarned⟩ := hbody
    rw [List.append_nil, List.append_nil]
    exact ⟨rs, .some keyword hkeyword hspaced, hwarned⟩

variable (ih : ∀ q : Parser, q.ahead.length < p.ahead.length → ∀ opener mayElse afterStatement,
  Tells q (block opener mayElse afterStatement) (BlockTold afterStatement))
include ih

theorem branch_tells (hk : p.current.kind = .if_) :
    Tells p (settled.branchBody p.current) StatementTold := by
  refine opening_tells (by simp [hk]) fun condition q cs hq hcondition => ?_
  refine (ih q hq _ _ _).bind fun thenBody r bs ws hr hthen => ?_
  have hblock := ((settled_tidy.block q _ _ _).ok hr).2
  obtain ⟨rs, hthen, hthenWarned⟩ := hthen
  refine (alternative_tells _ fun s hs => ih s (by omega) _ _ _).bind
    fun elseBody s es vs _ helse => ?_
  obtain ⟨qs, helse, helseWarned⟩ := helse
  refine closing_tells fun closing hclosing => ?_
  refine ⟨rs ++ qs, .branch p.current closing hk hcondition hthen helse hclosing, ?_⟩
  have hwarned := hthenWarned.append (helseWarned.append (.own
    (if thenBody.isEmpty && isEmptyBlock elseBody then [emptyBody "if" p.current.location]
      else [])))
  rwa [List.append_nil, ← emptyWarnings_branch] at hwarned

theorem loop_tells (hk : p.current.kind = .while_) :
    Tells p (settled.loopBody p.current) StatementTold := by
  refine opening_tells (by simp [hk]) fun condition q cs hq hcondition => ?_
  refine (ih q hq _ _ _).bind fun body r bs ws _ hbody => ?_
  obtain ⟨rs, hbody, hbodyWarned⟩ := hbody
  refine closing_tells fun closing hclosing => ?_
  refine ⟨rs, .loop p.current closing hk hcondition hbody hclosing, ?_⟩
  have hwarned := hbodyWarned.append (.own
    (if body.isEmpty then [emptyBody "while" p.current.location] else []))
  rwa [List.append_nil, ← emptyWarnings_loop] at hwarned

theorem statement_tells_of : Tells p statement StatementTold := by
  rw [statement_eq]
  refine .get_bind ?_
  dsimp only
  split
  · next hk => exact branch_tells ih hk
  · next hk => exact loop_tells ih hk
  · next hk => exact print_tells hk
  · next hk => exact print_tells hk
  · exact .throw
  · exact .throw
  · exact simple_tells p

end

theorem blockTold_separator {afterStatement : Bool} {t : Token} {ts : List Token}
    {ws : List Diagnostic} {body : List Stmt} (hk : t.kind = .semicolon)
    (h : BlockTold false ts ws body) :
    BlockTold afterStatement (t :: ts)
      ((if afterStatement then [] else [redundant t.location]) ++ ws) body := by
  obtain ⟨rs, hspaced, hwarned⟩ := h
  cases afterStatement with
  | true => exact ⟨rs, .separator t hk hspaced, hwarned⟩
  | false =>
    refine ⟨t :: rs, .redundant t hk hspaced, ?_⟩
    have hfirst : Warned [redundant t.location] [] [t] := .refl _
    exact hfirst.append hwarned

theorem blockTold_statement {afterStatement : Bool} {ts us : List Token}
    {ws vs : List Diagnostic} {s : Stmt} {body : List Stmt} (h : StatementTold ts ws s)
    (hrest : BlockTold true us vs body) :
    BlockTold afterStatement (ts ++ us) (ws ++ vs) (s :: body) := by
  obtain ⟨rs, hspaced, hwarned⟩ := h
  obtain ⟨qs, hrest, hrestWarned⟩ := hrest
  refine ⟨rs ++ qs, .statement hspaced hrest, ?_⟩
  rw [emptyWarnings_cons]
  exact hwarned.append hrestWarned

theorem blockTold_nil (afterStatement : Bool) : BlockTold afterStatement [] [] [] :=
  ⟨[], .nil, .refl _⟩

theorem block_tells (p : Parser) (opener : Token) (mayElse afterStatement : Bool) :
    Tells p (block opener mayElse afterStatement) (BlockTold afterStatement) := by
  generalize hn : p.ahead.length = n
  induction n using Nat.strongRecOn generalizing p opener mayElse afterStatement with
  | _ n ih =>
    subst hn
    have later : ∀ q : Parser, q.ahead.length < p.ahead.length → ∀ o m a,
        Tells q (block o m a) (BlockTold a) := fun q hq o m a => ih q.ahead.length hq q o m a rfl
    rw [block_eq]
    refine .get_bind (.ite (fun _ => .pure (blockTold_nil _)) fun _ => .ite (fun _ => .throw)
      fun _ => .ite (fun hc => ?_) fun _ => ?_)
    · have hkind := current_of_check hc
      have hless := separator_shorter (p := p) (by simp [hkind]) afterStatement
      refine (Tells.separator afterStatement hc).bind fun _ q ts ws hq hts => ?_
      cases hq
      obtain ⟨rfl, rfl⟩ := hts
      refine fun ms body r hr hsays => ?_
      obtain ⟨us, vs, hus, hlast, htold⟩ := later _ hless opener mayElse false ms body r hr hsays
      exact ⟨us, vs, hus, hlast, blockTold_separator hkind htold⟩
    · refine (statement_tells_of later).bind fun first q ts ws hq hfirst => ?_
      have hlen := ((settled_tidy.statement p).ok hq).2
      refine (later q (by omega) _ _ _).bind fun more r us vs _ hmore => .pure ?_
      rw [List.append_nil, List.append_nil]
      exact blockTold_statement hfirst hmore

theorem statement_tells (p : Parser) : Tells p statement StatementTold :=
  statement_tells_of fun q _ => block_tells q

/-! ## The whole script -/

/-- With a pass for every token ahead, a parse without an error tells what the tokens give rise
to. -/
theorem scriptIn_tells {passes : Nat} {afterStatement : Bool} {p : Parser}
    {ms : List Diagnostic} (hp : Says ms p) (hr : Revealed p) (hs : ∀ s ∈ p.ahead, s.Sound)
    (hn : p.ahead.length ≤ passes)
    (h : (scriptIn passes afterStatement p).2.diagnostics.hasErrors = false) :
    ∃ ws, (scriptIn passes afterStatement p).2.diagnostics.messages = ms ++ ws ∧
      BlockTold afterStatement p.tokens ws (scriptIn passes afterStatement p).1 := by
  induction passes generalizing p afterStatement ms with
  | zero =>
    have hnil : p.ahead = [] := List.length_eq_zero_iff.mp (by omega)
    refine ⟨[], ?_, ?_⟩
    · rw [List.append_nil]
      exact hp.messages
    · rw [tokens, hnil]
      exact blockTold_nil _
  | succ passes ih =>
    by_cases hend : p.atEnd = true
    · have hnil : p.ahead = [] := by
        cases hahead : p.ahead with
        | nil => rfl
        | cons s rest =>
          have hkind := current_of_check hend
          rw [current, hahead] at hkind
          exact absurd hkind (hs s (by simp [hahead])).kind_ne_eof
      rw [scriptIn_end hend, tokens, hnil]
      exact ⟨[], by rw [List.append_nil, hp.messages], blockTold_nil _⟩
    · have hk : p.current.kind ≠ .eof := by simpa [atEnd, check] using hend
      by_cases hsemi : p.current.kind = .semicolon
      · rw [scriptIn_separator hsemi] at h ⊢
        have hmoves := separator_moves afterStatement p
        have hless := separator_shorter hk afterStatement
        obtain ⟨ts, ws, hts, hsays, rfl, rfl⟩ := Tells.separator afterStatement
          (by simpa [check] using hsemi) ms ⟨⟩ _ rfl hp
        obtain ⟨vs, hmessages, htold⟩ := ih hsays (hmoves.revealed hr)
          (fun s hmem => hs s (hmoves.suffix.subset hmem)) (by omega) h
        rw [hts, hmessages]
        exact ⟨_, List.append_assoc .., blockTold_separator hsemi htold⟩
      · cases hq : statement p with
        | ok s q =>
          rw [scriptIn_statement hk hsemi hq] at h ⊢
          obtain ⟨hmoves, hlen⟩ := (settled_tidy.statement p).ok hq
          obtain ⟨ts, ws, hts, hsays, hfirst⟩ := statement_tells p ms s q hq hp
          obtain ⟨vs, hmessages, htold⟩ := ih hsays (hmoves.revealed hr)
            (fun s hmem => hs s (hmoves.suffix.subset hmem)) (by omega) h
          rw [hts]
          exact ⟨_, hmessages.trans (List.append_assoc ..), blockTold_statement hfirst htold⟩
        | error e q =>
          -- nothing takes back the error that the recovery records
          rw [scriptIn_failure hk hsemi hq] at h
          obtain ⟨hmoves, hinvalid⟩ := (settled_tidy.statement p).error hq
          have herror := recover_hasErrors p.current.location (hmoves.revealed hr)
            (fun s hmem => hs s (hmoves.suffix.subset hmem)) hinvalid
          rw [(scriptIn_moves passes false _).hasErrors herror] at h
          cases h

/-- What is warned about in a text. -/
structure Warns (text : String) : Prop where
  /-- The tokens are a block of the statements of the parse. -/
  spaced : ∃ rs, SpacedBlock false (tokensOf text) (Script.parse text).1.statements rs
  /-- The messages are one for each empty statement and one for each separator that no statement
  stands before, in whatever way the tokens are read. -/
  messages : ∀ body rs, SpacedBlock false (tokensOf text) body rs →
    (Script.parse text).2.messages.Perm
      (emptyWarnings (Script.parse text).1.statements ++ rs.map fun t => redundant t.location)

theorem parse_warns {text : String} (h : (Script.parse text).2.hasErrors = false) :
    Warns text := by
  have hclean := parse_faultless h
  have hstart : Says [] (ofTokens (.ofString text)) := ⟨hclean, found_clean hclean⟩
  obtain ⟨ws, hmessages, rs, hspaced, hwarned⟩ :=
    scriptIn_tells hstart (ofTokens_revealed _) (TokenStream.ofString_sound text) (Nat.le_refl _) h
  refine ⟨⟨rs, hspaced⟩, fun body qs hbody => ?_⟩
  rw [← hspaced.unique hbody]
  exact hmessages ▸ hwarned

/-- Separators at the front of a block and behind another separator, and a loop with nothing but
separators. -/
theorem parse_warns_nested :
    let text := ";if (a); while (b);; end; else end; c;;"
    (Script.parse text).2.hasErrors = false ∧ Warns text := by
  refine ⟨by decide +kernel, ?_⟩
  exact parse_warns (by decide +kernel)

/-- A branch is empty if both alternatives are.  The last separator follows a statement. -/
example : (Script.parse "if (a); else; end;").2.messages =
    [redundant ⟨1, 7⟩, redundant ⟨1, 13⟩, emptyBody "if" ⟨1, 1⟩] := by
  decide +kernel

end Parser
end ScriptEngine
