/-
The jumps of a compiled program.

Only statements with blocks have jumps.  `Site.Wired` says of such a statement where its
jumps stand between the code of its parts, and where they go on; it is read off the
translation at the place of the statement (`Site.Located.wired`).  Conversely every jump
of a translation is one of these (`statements_routed`), so it goes forward unless it ends
a loop.

The places of a script come in the order of their offsets (`scriptSites_ordered`), so it
is known from the target of a backward jump which loop it ends.
-/
import ScriptEngine.Proofs.Code.Operands
import ScriptEngine.Proofs.Run.Effect

namespace ScriptEngine

/-! ## Statements with blocks -/

def Stmt.IsLoop : Stmt → Prop
  | .loop .. => True
  | _ => False

/-- The offset behind the code of a statement. -/
def Site.stop (site : Site) : Nat := site.offset + site.statement.codeSize site.isLast

/-- The instruction is the last one of a loop. -/
def Site.Closes (site : Site) (pc : Nat) : Prop := site.statement.IsLoop ∧ pc + 1 = site.stop

namespace Program

/-- The code of an expression begins at one offset and ends before another. -/
def ExpressionAt (p : Program) (functions : FunctionRegistry) (start stop : Nat) (e : Expr) :
    Prop :=
  ∃ out, Translation.Expression p functions e out ∧ Throughout p.HasAt start out ∧
    start + out.length = stop

/-- The code of a block begins at one offset and ends before another. -/
def BlockAt (p : Program) (functions : FunctionRegistry) (start stop : Nat)
    (body : List Stmt) : Prop :=
  ∃ out, Translation.Block p functions start body out ∧ Throughout p.HasAt start out ∧
    start + out.length = stop

end Program

/-- The jumps of a statement stand between the code of its parts.  A test that fails goes on behind
what it guards, the end of a block with an alternative goes on behind the statement, and the end of
a loop goes back to the first instruction of the condition. -/
def Site.Wired (p : Program) (functions : FunctionRegistry) (site : Site) : Prop :=
  match site.statement with
  | .branch _ condition thenBody none => ∃ test,
    p.ExpressionAt functions site.offset test condition ∧
      p.code[test]? = some (.jumpIfFalse site.stop) ∧
      p.BlockAt functions (test + 1) site.stop thenBody
  | .branch _ condition thenBody (some elseBody) => ∃ test skip,
    p.ExpressionAt functions site.offset test condition ∧
      p.code[test]? = some (.jumpIfFalse (skip + 1)) ∧
      p.BlockAt functions (test + 1) skip thenBody ∧
      p.code[skip]? = some (.jump site.stop) ∧
      p.BlockAt functions (skip + 1) site.stop elseBody
  | .loop _ condition body => ∃ test back,
    p.ExpressionAt functions site.offset test condition ∧
      p.code[test]? = some (.jumpIfFalse (back + 1)) ∧
      p.BlockAt functions (test + 1) back body ∧
      p.code[back]? = some (.jump site.offset) ∧ back + 1 = site.stop
  | .assign .. | .expr _ | .setMember .. | .print .. => True

theorem Site.Located.wired {p : Program} {functions : FunctionRegistry} {site : Site}
    (h : site.Located p functions) : site.Wired p functions := by
  obtain ⟨start, isLast, s⟩ := site
  obtain ⟨out, hs, hp⟩ := h
  have hstop : start + out.length = Site.stop ⟨start, isLast, s⟩ := by
    rw [Site.stop, Translation.statement_length isLast s hs]
  dsimp only at hp
  cases hs with
  | assign | expr | setMember | print => trivial
  | @branch _ _ l condition thenBody test body hc hb =>
    rw [List.length_append, List.length_cons] at hstop
    have hend : start + test.length + 1 + body.length =
        Site.stop ⟨start, isLast, .branch l condition thenBody none⟩ := by omega
    refine ⟨start + test.length, ⟨test, hc, hp.left, rfl⟩, ?_, ⟨body, hb, hp.right.tail, hend⟩⟩
    rw [← hend]
    exact hp.right.head.1
  | @alternative _ _ l condition thenBody elseBody test body other line hc hb ho =>
    simp only [List.length_append, List.length_cons] at hstop
    have hend : start + test.length + 1 + body.length + 1 + other.length =
        Site.stop ⟨start, isLast, .branch l condition thenBody (some elseBody)⟩ := by omega
    refine ⟨start + test.length, start + test.length + 1 + body.length,
      ⟨test, hc, hp.left, rfl⟩, hp.right.head.1, ⟨body, hb, hp.right.tail.left, rfl⟩, ?_,
      ⟨other, ho, hp.right.tail.right.tail, hend⟩⟩
    rw [← hend]
    exact hp.right.tail.right.head.1
  | @loop _ _ _ _ _ test code line hc hb =>
    simp only [List.length_append, List.length_cons, List.length_nil] at hstop
    exact ⟨start + test.length, start + test.length + 1 + code.length,
      ⟨test, hc, hp.left, rfl⟩, hp.right.head.1, ⟨code, hb, hp.right.tail.left, rfl⟩,
      hp.right.tail.right.head.1, by omega⟩

/-- The last instruction of a loop goes back to its beginning. -/
theorem Site.Wired.closes {p : Program} {functions : FunctionRegistry} {site : Site} {pc : Nat}
    (h : site.Wired p functions) (hc : site.Closes pc) :
    p.code[pc]? = some (.jump site.offset) := by
  obtain ⟨start, isLast, s⟩ := site
  obtain ⟨hloop, hpc⟩ := hc
  cases s with
  | loop =>
    obtain ⟨test, back, -, -, -, hback, hstop⟩ := h
    rw [Nat.succ.inj (hpc.trans hstop.symm)]
    exact hback
  | assign | branch | expr | setMember | print => exact hloop.elim

/-! ## The order of the places -/

/-- The places come in the order of their offsets, which lie between two bounds. -/
structure Site.Ordered (first bound : Nat) (sites : List Site) : Prop where
  increasing : sites.Pairwise fun a b => a.offset < b.offset
  within : ∀ site ∈ sites, first ≤ site.offset ∧ site.offset < bound

namespace Site.Ordered

variable {a b c : Nat} {sites sites' : List Site}

theorem nil : Ordered a b [] := ⟨.nil, nofun⟩

theorem append (h : Ordered a b sites) (h' : Ordered b c sites') (hab : a ≤ b) (hbc : b ≤ c) :
    Ordered a c (sites ++ sites') where
  increasing := List.pairwise_append.mpr ⟨h.increasing, h'.increasing, fun s hs t ht =>
    Nat.lt_of_lt_of_le (h.within s hs).2 (h'.within t ht).1⟩
  within site hsite := by
    rcases List.mem_append.mp hsite with hs | hs
    · exact ⟨(h.within site hs).1, Nat.lt_of_lt_of_le (h.within site hs).2 hbc⟩
    · exact ⟨Nat.le_trans hab (h'.within site hs).1, (h'.within site hs).2⟩

theorem widen (h : Ordered b c sites) {a' c' : Nat} (ha : a' ≤ b) (hc : c ≤ c') :
    Ordered a' c' sites where
  increasing := h.increasing
  within site hsite := ⟨Nat.le_trans ha (h.within site hsite).1,
    Nat.lt_of_lt_of_le (h.within site hsite).2 hc⟩

/-- A statement begins before the statements in its blocks. -/
theorem cons {isLast : Bool} {s : Stmt} (h : Ordered (a + 1) b sites) (hab : a < b) :
    Ordered a b (⟨a, isLast, s⟩ :: sites) where
  increasing := List.pairwise_cons.mpr ⟨fun t ht => (h.within t ht).1, h.increasing⟩
  within site hsite := by
    rcases List.mem_cons.mp hsite with rfl | hs
    · exact ⟨Nat.le_refl a, hab⟩
    · exact ⟨Nat.le_of_succ_le (h.within site hs).1, (h.within site hs).2⟩

theorem eq_of_offset (h : Ordered a b sites) {s t : Site} (hs : s ∈ sites) (ht : t ∈ sites)
    (hst : s.offset = t.offset) : s = t := by
  have hlt := List.pairwise_iff_getElem.mp h.increasing
  obtain ⟨i, hi, rfl⟩ := List.getElem_of_mem hs
  obtain ⟨j, hj, rfl⟩ := List.getElem_of_mem ht
  rcases Nat.lt_trichotomy i j with hij | rfl | hij
  · exact absurd hst (Nat.ne_of_lt (hlt i j hi hj hij))
  · rfl
  · exact absurd hst.symm (Nat.ne_of_lt (hlt j i hj hi hij))

end Site.Ordered

theorem Expr.codeSize_pos (e : Expr) : 0 < e.codeSize := by
  cases e <;> exact Nat.succ_pos _

theorem Stmt.codeSize_pos (isLast : Bool) (s : Stmt) : 0 < s.codeSize isLast := by
  cases s with
  | branch l condition thenBody elseBody =>
    cases elseBody <;> rw [codeSize] <;> omega
  | expr e =>
    have := e.codeSize_pos
    rw [codeSize]
    omega
  | assign | loop | setMember | print =>
    rw [codeSize]
    omega

mutual

theorem Stmt.sites_ordered : ∀ (isLast : Bool) (s : Stmt) (start : Nat),
    Site.Ordered start (start + s.codeSize isLast) (s.sites isLast start)
  | isLast, .branch l condition thenBody none, start => by
    have hbody := blockSites_ordered thenBody (start + condition.codeSize + 1)
    exact .cons (hbody.widen (by omega) (by rw [Stmt.codeSize]; omega)) (by rw [Stmt.codeSize]; omega)
  | isLast, .branch l condition thenBody (some elseBody), start => by
    have hbody := blockSites_ordered thenBody (start + condition.codeSize + 1)
    have hother := blockSites_ordered elseBody
      (start + condition.codeSize + 1 + blockCodeSize thenBody + 1)
    refine .cons ((hbody.append (hother.widen (Nat.le_succ _) (Nat.le_refl _))
      (by omega) (by omega)).widen (by omega) ?_) ?_ <;> rw [Stmt.codeSize] <;> omega
  | isLast, .loop l condition body, start => by
    have hbody := blockSites_ordered body (start + condition.codeSize + 1)
    exact .cons (hbody.widen (by omega) (by rw [Stmt.codeSize]; omega)) (by rw [Stmt.codeSize]; omega)
  | isLast, .assign target value, start =>
    .cons .nil (Nat.lt_add_of_pos_right (Stmt.codeSize_pos isLast (.assign target value)))
  | isLast, .expr e, start =>
    .cons .nil (Nat.lt_add_of_pos_right (Stmt.codeSize_pos isLast (.expr e)))
  | isLast, .setMember object name value, start =>
    .cons .nil (Nat.lt_add_of_pos_right (Stmt.codeSize_pos isLast (.setMember object name value)))
  | isLast, .print l newline args, start =>
    .cons .nil (Nat.lt_add_of_pos_right (Stmt.codeSize_pos isLast (.print l newline args)))

theorem blockSites_ordered : ∀ (body : List Stmt) (start : Nat),
    Site.Ordered start (start + blockCodeSize body) (blockSites start body)
  | [], _ => .nil
  | s :: rest, start => by
    have hfirst := Stmt.sites_ordered false s start
    have hrest := blockSites_ordered rest (start + s.codeSize false)
    rw [blockSites, blockCodeSize, ← Nat.add_assoc]
    exact hfirst.append hrest (Nat.le_add_right _ _) (Nat.le_add_right _ _)

end

theorem scriptSites_ordered (body : List Stmt) (start : Nat) :
    ∃ bound, start ≤ bound ∧ Site.Ordered start bound (scriptSites start body) := by
  induction body generalizing start with
  | nil => exact ⟨start, Nat.le_refl start, .nil⟩
  | cons s rest ih =>
    obtain ⟨bound, hle, hrest⟩ := ih (start + s.codeSize rest.isEmpty)
    exact ⟨bound, Nat.le_trans (Nat.le_add_right _ _) hle,
      (s.sites_ordered rest.isEmpty start).append hrest (Nat.le_add_right _ _) hle⟩

/-! ## What a jump is for -/

/-- The jumps that a statement has itself, without those of the statements in its blocks. -/
def Site.jumps (site : Site) : List (Nat × Instruction) :=
  match site.statement with
  | .branch _ condition _ none => [(site.offset + condition.codeSize, .jumpIfFalse site.stop)]
  | .branch _ condition thenBody (some _) =>
    let skip := site.offset + condition.codeSize + 1 + blockCodeSize thenBody
    [(site.offset + condition.codeSize, .jumpIfFalse (skip + 1)), (skip, .jump site.stop)]
  | .loop _ condition body =>
    let back := site.offset + condition.codeSize + 1 + blockCodeSize body
    [(site.offset + condition.codeSize, .jumpIfFalse (back + 1)), (back, .jump site.offset)]
  | .assign .. | .expr _ | .setMember .. | .print .. => []

/-- A jump of a statement goes forward, unless it is the end of a loop. -/
theorem Site.jumps_forward {site : Site} {pc t : Nat} {i : Instruction}
    (h : (pc, i) ∈ site.jumps) (ht : i.target? = some t) : pc < t ∨ site.Closes pc := by
  obtain ⟨start, isLast, s⟩ := site
  cases s with
  | assign | expr | setMember | print => cases h
  | branch l condition thenBody elseBody =>
    cases elseBody with
    | none =>
      cases List.mem_singleton.mp h
      cases ht
      left
      dsimp only [stop]
      rw [Stmt.codeSize]
      omega
    | some elseBody =>
      left
      rcases List.mem_cons.mp h with h | h
      · cases h
        cases ht
        dsimp only
        omega
      · cases List.mem_singleton.mp h
        cases ht
        dsimp only [stop]
        rw [Stmt.codeSize]
        omega
  | loop l condition body =>
    rcases List.mem_cons.mp h with h | h
    · cases h
      cases ht
      left
      dsimp only
      omega
    · cases List.mem_singleton.mp h
      right
      refine ⟨trivial, ?_⟩
      dsimp only [stop]
      rw [Stmt.codeSize]
      omega

/-- The instruction does not jump, or it is a jump of one of the statements. -/
def Routed (sites : List Site) (pc : Nat) (entry : Instruction × Nat) : Prop :=
  ∀ t, entry.1.target? = some t → ∃ site ∈ sites, (pc, entry.1) ∈ site.jumps

namespace Routed

variable {sites sites' : List Site} {o : Nat} {i : Instruction} {line : Nat} {out : Listing}

theorem of_noTarget (h : i.target? = none) : Routed sites o (i, line) := by
  intro t ht
  cases h.symm.trans ht

theorem of_jump {site : Site} (h : (o, i) ∈ site.jumps) :
    Routed (site :: sites) o (i, line) := fun _ _ => ⟨site, List.mem_cons_self, h⟩

theorem mono (h : Throughout (Routed sites) o out) (hsub : ∀ s ∈ sites, s ∈ sites') :
    Throughout (Routed sites') o out := by
  refine h.imp fun pc entry _ _ hr t ht => ?_
  obtain ⟨site, hsite, hjump⟩ := hr t ht
  exact ⟨site, hsub site hsite, hjump⟩

theorem popUnless (isLast : Bool) (line : Nat) :
    Throughout (Routed sites) o (popUnless isLast line) := by
  cases isLast with
  | true => exact .nil
  | false => exact .one (of_noTarget rfl)

end Routed

namespace Translation

variable {p : Program} {functions : FunctionRegistry} {sites : List Site}

-- an expression has no jumps
mutual

theorem expression_routed : ∀ (e : Expr) {out : Listing} {o : Nat},
    Expression p functions e out → Throughout (Routed sites) o out
  | .number .., _, _, .number _ _ => .one (.of_noTarget rfl)
  | .bool .., _, _, .bool _ _ => .one (.of_noTarget rfl)
  | .string .., _, _, .string _ _ => .one (.of_noTarget rfl)
  | .variable _, _, _, .variable _ => .one (.of_noTarget rfl)
  | .binary _ left right, _, _, .binary hl hr =>
    (expression_routed left hl).append ((expression_routed right hr).append
      (.one (.of_noTarget rfl)))
  | .unary _ _ e, _, _, .unary he => (expression_routed e he).append (.one (.of_noTarget rfl))
  | .member object _, _, _, .member ho _ =>
    (expression_routed object ho).append (.one (.of_noTarget rfl))
  | .method object _ args, _, _, .method ho ha _ =>
    (expression_routed object ho).append ((arguments_routed args ha).append
      (.one (.of_noTarget rfl)))
  | .call _ args, _, _, .call ha _ => (arguments_routed args ha).append (.one (.of_noTarget rfl))
  | .construct _ args, _, _, .construct ha _ =>
    (arguments_routed args ha).append (.one (.of_noTarget rfl))

theorem arguments_routed : ∀ (es : List Expr) {out : Listing} {o : Nat},
    Arguments p functions es out → Throughout (Routed sites) o out
  | [], _, _, .nil => .nil
  | e :: rest, _, _, .cons he hr => (expression_routed e he).append (arguments_routed rest hr)

end

mutual

theorem statement_routed : ∀ (isLast : Bool) (s : Stmt) {start : Nat} {out : Listing},
    Statement p functions isLast start s out →
      Throughout (Routed (s.sites isLast start)) start out
  | isLast, .assign target value, _, _, .assign hv _ =>
    (expression_routed value hv).append (.one (.of_noTarget rfl))
  | isLast, .branch l condition thenBody none, start, _, .branch hc hb => by
    have hbody := block_routed thenBody hb
    rw [expression_length condition hc, block_length thenBody hb]
    rw [expression_length condition hc] at hbody
    refine (expression_routed condition hc).append (.cons (.of_jump ?_) ?_)
    · rw [expression_length condition hc]
      exact List.mem_singleton.mpr (by simp only [Site.stop, Stmt.codeSize, Nat.add_assoc])
    · rw [expression_length condition hc]
      exact Routed.mono hbody fun s hs => List.mem_cons_of_mem _ hs
  | isLast, .branch l condition thenBody (some elseBody), start, _, .alternative hc hb ho => by
    have hbody := block_routed thenBody hb
    have hother := block_routed elseBody ho
    rw [expression_length condition hc, block_length thenBody hb, block_length elseBody ho]
    rw [expression_length condition hc] at hbody
    rw [expression_length condition hc, block_length thenBody hb] at hother
    refine (expression_routed condition hc).append (.cons (.of_jump ?_) ?_)
    · rw [expression_length condition hc]
      exact List.mem_cons_self
    refine (Routed.mono ?_ fun s hs => List.mem_cons_of_mem _ (List.mem_append_left _ hs)).append
      (.cons (.of_jump ?_) (Routed.mono ?_ fun s hs =>
        List.mem_cons_of_mem _ (List.mem_append_right _ hs)))
    · rw [expression_length condition hc]
      exact hbody
    · rw [expression_length condition hc, block_length thenBody hb]
      refine List.mem_cons_of_mem _ (List.mem_singleton.mpr ?_)
      simp only [Site.stop, Stmt.codeSize, Nat.add_assoc]
    · rw [expression_length condition hc, block_length thenBody hb]
      exact hother
  | isLast, .loop l condition body, start, _, .loop hc hb => by
    have hbody := block_routed body hb
    rw [expression_length condition hc, block_length body hb]
    rw [expression_length condition hc] at hbody
    refine (expression_routed condition hc).append (.cons (.of_jump ?_) ?_)
    · rw [expression_length condition hc]
      exact List.mem_cons_self
    refine (Routed.mono ?_ fun s hs => List.mem_cons_of_mem _ hs).append (.one (.of_jump ?_))
    · rw [expression_length condition hc]
      exact hbody
    · rw [expression_length condition hc, block_length body hb]
      exact List.mem_cons_of_mem _ List.mem_cons_self
  | isLast, .expr e, _, _, .expr he => (expression_routed e he).append (.popUnless _ _)
  | isLast, .setMember object _ value, _, _, .setMember ho hv _ =>
    (expression_routed object ho).append ((expression_routed value hv).append
      (.cons (.of_noTarget rfl) (Routed.popUnless _ _)))
  | isLast, .print _ _ args, _, _, .print ha _ =>
    (arguments_routed args ha).append (.cons (.of_noTarget rfl) (.one (.of_noTarget rfl)))

theorem block_routed : ∀ (body : List Stmt) {start : Nat} {out : Listing},
    Block p functions start body out → Throughout (Routed (blockSites start body)) start out
  | [], _, _, .nil => .nil
  | s :: rest, start, _, .cons hs hr => by
    have hrest := block_routed rest hr
    rw [statement_length false s hs] at hrest
    rw [blockSites]
    refine (Routed.mono (statement_routed false s hs) fun t ht => ?_).append ?_
    · exact List.mem_append_left _ ht
    · rw [statement_length false s hs]
      exact Routed.mono hrest fun t ht => List.mem_append_right _ ht

end

theorem statements_routed {body : List Stmt} {start : Nat} {out : Listing}
    (h : Statements p functions start body out) :
    Throughout (Routed (scriptSites start body)) start out := by
  induction h with
  | nil => exact .nil
  | @cons start s rest first second hs _ ih =>
    rw [statement_length _ s hs] at ih
    rw [scriptSites]
    refine (Routed.mono (statement_routed _ s hs) fun t ht => ?_).append ?_
    · exact List.mem_append_left _ ht
    · rw [statement_length _ s hs]
      exact Routed.mono ih fun t ht => List.mem_append_right _ ht

end Translation

/-- The instruction is a jump with this target. -/
def Program.JumpsTo (p : Program) (pc target : Nat) : Prop :=
  ∃ i, p.code[pc]? = some i ∧ i.target? = some target

namespace Program.CompiledFrom

variable {p : Program} {functions : FunctionRegistry} {body : List Stmt} {out : Listing}

theorem inside (h : p.CompiledFrom functions body out) {pc t : Nat} (hj : p.JumpsTo pc t) :
    t ≤ p.size := by
  obtain ⟨i, hi, ht⟩ := hj
  have hvalid := h.valid (Array.mem_of_getElem? hi)
  cases i with
  | jump | jumpIfFalse =>
    cases ht
    exact hvalid
  | constant | load | store | pop | unary | binary | call | callMethod => cases ht

/-- Every jump is one of a statement. -/
theorem routed (h : p.CompiledFrom functions body out) {pc t : Nat} {i : Instruction}
    (hi : p.code[pc]? = some i) (ht : i.target? = some t) :
    ∃ site ∈ scriptSites 0 body, (pc, i) ∈ site.jumps := by
  rw [← Array.getElem?_toList, h.code, List.getElem?_map, Option.map_eq_some_iff] at hi
  obtain ⟨⟨i', line⟩, hentry, rfl⟩ := hi
  have hrouted := Translation.statements_routed h.translation pc (i', line) hentry t ht
  rwa [Nat.zero_add] at hrouted

theorem wired (h : p.CompiledFrom functions body out) :
    ∀ site ∈ scriptSites 0 body, site.Wired p functions := fun site hsite =>
  (Translation.statements_located h.translation h.hasAt site hsite).wired

theorem forward_or_closes (h : p.CompiledFrom functions body out) {pc t : Nat}
    (hj : p.JumpsTo pc t) : pc < t ∨ ∃ site ∈ scriptSites 0 body, site.Closes pc := by
  obtain ⟨i, hi, ht⟩ := hj
  obtain ⟨site, hsite, hjump⟩ := h.routed hi ht
  exact (Site.jumps_forward hjump ht).imp_right fun hclose => ⟨site, hsite, hclose⟩

/-- A jump that does not go forward ends exactly one loop, and goes back to its beginning. -/
theorem closes_unique (h : p.CompiledFrom functions body out) {pc t : Nat}
    (hj : p.JumpsTo pc t) (hle : t ≤ pc) :
    ∃ site ∈ scriptSites 0 body, site.Closes pc ∧ t = site.offset ∧
      ∀ other ∈ scriptSites 0 body, other.Closes pc → other = site := by
  obtain ⟨site, hsite, hclose⟩ := (h.forward_or_closes hj).resolve_left (Nat.not_lt.mpr hle)
  have hoffset : ∀ other ∈ scriptSites 0 body, other.Closes pc → t = other.offset := by
    intro other hother hcloses
    obtain ⟨i, hi, ht⟩ := hj
    cases Option.some.inj (hi.symm.trans ((h.wired other hother).closes hcloses))
    exact (Option.some.inj ht).symm
  refine ⟨site, hsite, hclose, hoffset site hsite hclose, fun other hother hcloses => ?_⟩
  obtain ⟨bound, -, hordered⟩ := scriptSites_ordered body 0
  exact hordered.eq_of_offset hother hsite
    ((hoffset other hother hcloses).symm.trans (hoffset site hsite hclose))

end Program.CompiledFrom
end ScriptEngine
