/-
Where the code of each statement is.

A translation has as many instructions as its syntax demands (`Expr.codeSize`,
`Stmt.codeSize`), so the syntax alone tells at which offset each statement of a script
begins, those in blocks included: `scriptSites` lists them.  `Throughout P o entries`
says that `P` holds of every entry of a list that begins at offset `o`, and
`statements_located` that at each of these offsets there is a translation of the
statement.
-/
import ScriptEngine.Proofs.Code.Translation

namespace ScriptEngine

/-! ## What holds of every entry -/

def Throughout {α : Type} (P : Nat → α → Prop) (o : Nat) (entries : List α) : Prop :=
  ∀ k entry, entries[k]? = some entry → P (o + k) entry

namespace Throughout

variable {α : Type} {P Q : Nat → α → Prop} {o : Nat} {a : α} {first second : List α}

theorem nil : Throughout P o [] := by
  intro k entry h
  simp at h

theorem append (h : Throughout P o first) (h' : Throughout P (o + first.length) second) :
    Throughout P o (first ++ second) := by
  intro k entry hk
  by_cases hlt : k < first.length
  · rw [List.getElem?_append_left hlt] at hk
    exact h k entry hk
  · rw [List.getElem?_append_right (by omega)] at hk
    have := h' _ entry hk
    rwa [show o + first.length + (k - first.length) = o + k by omega] at this

theorem cons (h : P o a) (h' : Throughout P (o + 1) second) : Throughout P o (a :: second) := by
  show Throughout P o ([a] ++ second)
  refine append ?_ h'
  intro k entry hk
  cases k with
  | zero =>
    cases hk
    exact h
  | succ k => simp at hk

theorem one (h : P o a) : Throughout P o [a] := cons h nil

theorem left (h : Throughout P o (first ++ second)) : Throughout P o first :=
  fun k entry hk => h k entry (by
    rw [List.getElem?_append_left (List.getElem?_eq_some_iff.mp hk).1]
    exact hk)

theorem right (h : Throughout P o (first ++ second)) :
    Throughout P (o + first.length) second := by
  intro k entry hk
  rw [Nat.add_assoc]
  refine h _ entry ?_
  rw [List.getElem?_append_right (by omega), Nat.add_sub_cancel_left]
  exact hk

theorem head (h : Throughout P o (a :: second)) : P o a := h 0 a rfl

theorem tail (h : Throughout P o (a :: second)) : Throughout P (o + 1) second := by
  have happ : Throughout P o ([a] ++ second) := h
  exact happ.right

theorem imp (h : Throughout P o first)
    (hPQ : ∀ k a, o ≤ k → k < o + first.length → P k a → Q k a) : Throughout Q o first := by
  intro k entry hk
  have := (List.getElem?_eq_some_iff.mp hk).1
  exact hPQ _ _ (by omega) (by omega) (h k entry hk)

end Throughout

/-- The entry of a listing is what the program has at the offset. -/
def Program.HasAt (p : Program) (pc : Nat) (entry : Instruction × Nat) : Prop :=
  p.code[pc]? = some entry.1 ∧ p.lines[pc]? = some entry.2

/-! ## Sizes -/

mutual

def Expr.codeSize : Expr → Nat
  | .number .. | .bool .. | .string .. | .variable _ => 1
  | .binary _ left right => left.codeSize + right.codeSize + 1
  | .unary _ _ e => e.codeSize + 1
  | .member object _ => object.codeSize + 1
  | .method object _ args => object.codeSize + argumentsCodeSize args + 1
  | .call _ args => argumentsCodeSize args + 1
  | .construct _ args => argumentsCodeSize args + 1

def argumentsCodeSize : List Expr → Nat
  | [] => 0
  | e :: rest => e.codeSize + argumentsCodeSize rest

end

mutual

def Stmt.codeSize (isLast : Bool) : Stmt → Nat
  | .assign _ value => value.codeSize + 1
  | .branch _ condition thenBody none => condition.codeSize + 1 + blockCodeSize thenBody
  | .branch _ condition thenBody (some elseBody) =>
    condition.codeSize + 1 + blockCodeSize thenBody + 1 + blockCodeSize elseBody
  | .loop _ condition body => condition.codeSize + 1 + blockCodeSize body + 1
  | .expr e => e.codeSize + (if isLast then 0 else 1)
  | .setMember object _ value =>
    object.codeSize + value.codeSize + 1 + (if isLast then 0 else 1)
  | .print _ _ args => argumentsCodeSize args + 2

def blockCodeSize : List Stmt → Nat
  | [] => 0
  | s :: rest => s.codeSize false + blockCodeSize rest

end

namespace Translation

variable {p : Program} {functions : FunctionRegistry}

mutual

theorem expression_length : ∀ (e : Expr) {out : Listing},
    Expression p functions e out → out.length = e.codeSize
  | .number .., _, .number _ _ => rfl
  | .bool .., _, .bool _ _ => rfl
  | .string .., _, .string _ _ => rfl
  | .variable _, _, .variable _ => rfl
  | .binary op left right, _, .binary hl hr => by
    have h1 := expression_length left hl
    have h2 := expression_length right hr
    simp only [List.length_append, List.length_singleton, Expr.codeSize]
    omega
  | .unary l op e, _, .unary he => by
    have h1 := expression_length e he
    simp only [List.length_append, List.length_singleton, Expr.codeSize]
    omega
  | .member object name, _, .member ho _ => by
    have h1 := expression_length object ho
    simp only [List.length_append, List.length_singleton, Expr.codeSize]
    omega
  | .method object name args, _, .method ho ha _ => by
    have h1 := expression_length object ho
    have h2 := arguments_length args ha
    simp only [List.length_append, List.length_singleton, Expr.codeSize]
    omega
  | .call callee args, _, .call ha _ => by
    have h1 := arguments_length args ha
    simp only [List.length_append, List.length_singleton, Expr.codeSize]
    omega
  | .construct callee args, _, .construct ha _ => by
    have h1 := arguments_length args ha
    simp only [List.length_append, List.length_singleton, Expr.codeSize]
    omega

theorem arguments_length : ∀ (es : List Expr) {out : Listing},
    Arguments p functions es out → out.length = argumentsCodeSize es
  | [], _, .nil => rfl
  | e :: rest, _, .cons he hr => by
    have h1 := expression_length e he
    have h2 := arguments_length rest hr
    simp only [List.length_append, argumentsCodeSize]
    omega

end

theorem popUnless_length (isLast : Bool) (line : Nat) :
    (popUnless isLast line).length = if isLast then 0 else 1 := by
  cases isLast <;> rfl

mutual

theorem statement_length : ∀ (isLast : Bool) (s : Stmt) {start : Nat} {out : Listing},
    Statement p functions isLast start s out → out.length = s.codeSize isLast
  | isLast, .assign target value, _, _, .assign hv _ => by
    have h1 := expression_length value hv
    simp only [List.length_append, List.length_singleton, Stmt.codeSize]
    omega
  | isLast, .branch l condition thenBody none, _, _, .branch hc hb => by
    have h1 := expression_length condition hc
    have h2 := block_length thenBody hb
    simp only [List.length_append, List.length_cons, Stmt.codeSize]
    omega
  | isLast, .branch l condition thenBody (some elseBody), _, _, .alternative hc hb ho => by
    have h1 := expression_length condition hc
    have h2 := block_length thenBody hb
    have h3 := block_length elseBody ho
    simp only [List.length_append, List.length_cons, Stmt.codeSize]
    omega
  | isLast, .loop l condition body, _, _, .loop hc hb => by
    have h1 := expression_length condition hc
    have h2 := block_length body hb
    simp only [List.length_append, List.length_cons, List.length_nil, Stmt.codeSize]
    omega
  | isLast, .expr e, _, _, .expr he => by
    have h1 := expression_length e he
    simp only [List.length_append, popUnless_length, Stmt.codeSize]
    omega
  | isLast, .setMember object name value, _, _, .setMember ho hv _ => by
    have h1 := expression_length object ho
    have h2 := expression_length value hv
    simp only [List.length_append, List.length_cons, popUnless_length, Stmt.codeSize]
    omega
  | isLast, .print l newline args, _, _, .print ha _ => by
    have h1 := arguments_length args ha
    simp only [List.length_append, List.length_cons, List.length_nil, Stmt.codeSize]
    omega

theorem block_length : ∀ (body : List Stmt) {start : Nat} {out : Listing},
    Block p functions start body out → out.length = blockCodeSize body
  | [], _, _, .nil => rfl
  | s :: rest, _, _, .cons hs hr => by
    have h1 := statement_length false s hs
    have h2 := block_length rest hr
    simp only [List.length_append, blockCodeSize]
    omega

end

end Translation

/-! ## Sites -/

/-- A statement of a script, the offset of its first instruction, and whether the script ends
with it. -/
structure Site where
  offset : Nat
  isLast : Bool
  statement : Stmt

mutual

/-- A statement and the statements in its blocks. -/
def Stmt.sites (isLast : Bool) (start : Nat) : Stmt → List Site
  | .branch l condition thenBody none =>
    ⟨start, isLast, .branch l condition thenBody none⟩ ::
      blockSites (start + condition.codeSize + 1) thenBody
  | .branch l condition thenBody (some elseBody) =>
    ⟨start, isLast, .branch l condition thenBody (some elseBody)⟩ ::
      (blockSites (start + condition.codeSize + 1) thenBody ++
        blockSites (start + condition.codeSize + 1 + blockCodeSize thenBody + 1) elseBody)
  | .loop l condition body =>
    ⟨start, isLast, .loop l condition body⟩ :: blockSites (start + condition.codeSize + 1) body
  | .assign target value => [⟨start, isLast, .assign target value⟩]
  | .expr e => [⟨start, isLast, .expr e⟩]
  | .setMember object name value => [⟨start, isLast, .setMember object name value⟩]
  | .print l newline args => [⟨start, isLast, .print l newline args⟩]

def blockSites (start : Nat) : List Stmt → List Site
  | [] => []
  | s :: rest => s.sites false start ++ blockSites (start + s.codeSize false) rest

end

def scriptSites (start : Nat) : List Stmt → List Site
  | [] => []
  | s :: rest =>
    s.sites rest.isEmpty start ++ scriptSites (start + s.codeSize rest.isEmpty) rest

/-- A translation of the statement is what the program has at its offset. -/
def Site.Located (p : Program) (functions : FunctionRegistry) (site : Site) : Prop :=
  ∃ out, Translation.Statement p functions site.isLast site.offset site.statement out ∧
    Throughout p.HasAt site.offset out

namespace Translation

variable {p : Program} {functions : FunctionRegistry}

mutual

theorem statement_located : ∀ (isLast : Bool) (s : Stmt) {start : Nat} {out : Listing},
    Statement p functions isLast start s out → Throughout p.HasAt start out →
      ∀ site ∈ s.sites isLast start, site.Located p functions
  | isLast, .assign target value, _, _, h, hp, site, hsite => by
    cases List.mem_singleton.mp hsite
    exact ⟨_, h, hp⟩
  | isLast, .expr e, _, _, h, hp, site, hsite => by
    cases List.mem_singleton.mp hsite
    exact ⟨_, h, hp⟩
  | isLast, .setMember object name value, _, _, h, hp, site, hsite => by
    cases List.mem_singleton.mp hsite
    exact ⟨_, h, hp⟩
  | isLast, .print l newline args, _, _, h, hp, site, hsite => by
    cases List.mem_singleton.mp hsite
    exact ⟨_, h, hp⟩
  | isLast, .branch l condition thenBody none, start, _, .branch hc hb, hp, site, hsite => by
    rcases List.mem_cons.mp hsite with rfl | hsite
    · exact ⟨_, .branch hc hb, hp⟩
    · rw [← expression_length condition hc] at hsite
      exact block_located thenBody hb hp.right.tail site hsite
  | isLast, .branch l condition thenBody (some elseBody), start, _, .alternative hc hb ho, hp,
      site, hsite => by
    rcases List.mem_cons.mp hsite with rfl | hsite
    · exact ⟨_, .alternative hc hb ho, hp⟩
    · rw [← expression_length condition hc, ← block_length thenBody hb] at hsite
      rcases List.mem_append.mp hsite with hsite | hsite
      · exact block_located thenBody hb hp.right.tail.left site hsite
      · exact block_located elseBody ho hp.right.tail.right.tail site hsite
  | isLast, .loop l condition body, start, _, .loop hc hb, hp, site, hsite => by
    rcases List.mem_cons.mp hsite with rfl | hsite
    · exact ⟨_, .loop hc hb, hp⟩
    · rw [← expression_length condition hc] at hsite
      exact block_located body hb hp.right.tail.left site hsite

theorem block_located : ∀ (body : List Stmt) {start : Nat} {out : Listing},
    Block p functions start body out → Throughout p.HasAt start out →
      ∀ site ∈ blockSites start body, site.Located p functions
  | [], _, _, .nil, _, site, hsite => by simp [blockSites] at hsite
  | s :: rest, start, _, .cons hs hr, hp, site, hsite => by
    rw [blockSites, ← statement_length false s hs] at hsite
    rcases List.mem_append.mp hsite with hsite | hsite
    · exact statement_located false s hs hp.left site hsite
    · exact block_located rest hr hp.right site hsite

end

theorem statements_located {body : List Stmt} {start : Nat} {out : Listing}
    (h : Statements p functions start body out) (hp : Throughout p.HasAt start out) :
    ∀ site ∈ scriptSites start body, site.Located p functions := by
  induction h with
  | nil =>
    intro site hsite
    simp [scriptSites] at hsite
  | @cons start s rest first second hs hr ih =>
    intro site hsite
    rw [scriptSites, ← statement_length _ s hs] at hsite
    rcases List.mem_append.mp hsite with hsite | hsite
    · exact statement_located _ s hs hp.left site hsite
    · exact ih hp.right site hsite

end Translation
end ScriptEngine
