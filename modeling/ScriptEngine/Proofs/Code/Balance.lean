/-
Translations keep to their depths.

`Allows D pc i` says that the depths `D` are right around an instruction: there are
enough operands, and wherever the run goes on, the depth there is what the instruction
leaves.  It holds throughout the translation of an expression, which moreover never has
more values on the stack than its demand above those that were there before
(`expression_within`).  For statements this bound differs from place to place: where
the stack comes above a height, the statement there evaluates an expression that
demands more than that (`Sound`).
-/
import ScriptEngine.Proofs.Code.Depth
import ScriptEngine.Proofs.Run.Effect

namespace ScriptEngine

structure Allows (D : Nat → Nat) (pc : Nat) (i : Instruction) : Prop where
  operands : i.pops ≤ D pc
  next : D (pc + 1) + i.pops = D pc + i.pushes
  target : ∀ t, i.target? = some t → D t + i.pops = D pc + i.pushes

/-- The instruction is allowed, and what it leaves is not above a bound. -/
structure Within (D : Nat → Nat) (most pc : Nat) (entry : Instruction × Nat) : Prop where
  allows : Allows D pc entry.1
  room : D pc + entry.1.pushes ≤ most + entry.1.pops

/-- The instruction is allowed, and what it leaves is not above what the expression that is being
evaluated demands. -/
structure Sound (D : Nat → Nat) (sites : List Site) (pc : Nat) (entry : Instruction × Nat) :
    Prop where
  allows : Allows D pc entry.1
  room : ∀ n, n + entry.1.pops < D pc + entry.1.pushes →
    ∃ site ∈ sites, site.Evaluates pc ∧ n < site.statement.demand

/-! ## Single instructions -/

section
variable {D : Nat → Nat} {most o a b line : Nat} {i : Instruction}

theorem Within.of_depths (h : Agrees D o [a, b]) (ht : i.target? = none) (ha : i.pops ≤ a)
    (hb : b + i.pops = a + i.pushes) (hm : a + i.pushes ≤ most + i.pops) :
    Within D most o (i, line) := by
  have h1 : D o = a := h.head
  have h2 : D (o + 1) = b := h.tail.head
  refine ⟨⟨?_, ?_, fun t hi => ?_⟩, ?_⟩
  · rw [h1]
    exact ha
  · rw [h1, h2]
    exact hb
  · rw [ht] at hi
    cases hi
  · rw [h1]
    exact hm

theorem Within.jump {t : Nat} (h : Agrees D o [0, 0]) (ht : D t = 0) :
    Within D 0 o (.jump t, line) := by
  have h1 : D o = 0 := h.head
  have h2 : D (o + 1) = 0 := h.tail.head
  refine ⟨⟨Nat.zero_le _, ?_, fun t' hi => ?_⟩, ?_⟩
  · rw [h1, h2]
    rfl
  · cases hi
    rw [h1, ht]
    rfl
  · rw [h1]
    exact Nat.le_refl _

theorem Within.jumpIfFalse {t : Nat} (h : Agrees D o [1, 0]) (ht : D t = 0) :
    Within D 0 o (.jumpIfFalse t, line) := by
  have h1 : D o = 1 := h.head
  have h2 : D (o + 1) = 0 := h.tail.head
  refine ⟨⟨?_, ?_, fun t' hi => ?_⟩, ?_⟩
  · rw [h1]
    exact Nat.le_refl 1
  · rw [h1, h2]
    rfl
  · cases hi
    rw [h1, ht]
    rfl
  · rw [h1]
    exact Nat.le_refl 1

end

/-! ## Expressions -/

namespace Translation

variable {p : Program} {functions : FunctionRegistry} {D : Nat → Nat}

theorem within_mono {m n o : Nat} {out : Listing} (h : Throughout (Within D m) o out)
    (hmn : m ≤ n) : Throughout (Within D n) o out :=
  h.imp fun _ _ _ _ hw => ⟨hw.allows, by have := hw.room; omega⟩

theorem depths_length {e : Expr} {out : Listing} (h : Expression p functions e out) (d : Nat) :
    (e.depths d).length = out.length := by
  rw [e.depths_length, expression_length e h]

theorem argumentDepths_length {es : List Expr} {out : Listing}
    (h : Arguments p functions es out) (d : Nat) : (argumentDepths d es).length = out.length := by
  rw [ScriptEngine.argumentDepths_length, arguments_length es h]

/-- A call leaves one value, also where it has no arguments. -/
theorem call_within {args : List Expr} {out : Listing} {d o handle line : Nat}
    (hargs : Throughout (Within D (d + argumentsDemand 0 args)) o out)
    (h : Agrees D (o + out.length) [d + args.length, d + 1]) :
    Throughout (Within D (d + max 1 (argumentsDemand 0 args))) o
      (out ++ [(.call handle args.length, line)]) := by
  refine (within_mono hargs (by omega)).append (.one (.of_depths h rfl ?_ ?_ ?_))
  all_goals
    simp only [Instruction.pushes, Instruction.pops]
    omega

/-- A method takes its receiver and its arguments, which stand at most `m` above the height. -/
theorem method_within {first second : Listing} {d m o index argc line : Nat}
    (hobject : Throughout (Within D (d + m)) o first)
    (hargs : Throughout (Within D (d + m)) (o + first.length) second) (hm : 0 < m)
    (h : Agrees D (o + first.length + second.length) [d + 1 + argc, d + 1]) :
    Throughout (Within D (d + m)) o
      (first ++ (second ++ [(.callMethod index argc, line)])) := by
  refine hobject.append (hargs.append (.one (.of_depths h rfl ?_ ?_ ?_)))
  all_goals
    simp only [Instruction.pushes, Instruction.pops]
    omega

mutual

theorem expression_within : ∀ (e : Expr) {out : Listing} {d o : Nat},
    Expression p functions e out → Agrees D o (e.depths d ++ [d + 1]) →
      Throughout (Within D (d + e.demand)) o out
  | .number .., _, d, o, .number _ _, h =>
    .one (.of_depths h rfl (Nat.zero_le _) rfl (Nat.le_refl _))
  | .bool .., _, d, o, .bool _ _, h =>
    .one (.of_depths h rfl (Nat.zero_le _) rfl (Nat.le_refl _))
  | .string .., _, d, o, .string _ _, h =>
    .one (.of_depths h rfl (Nat.zero_le _) rfl (Nat.le_refl _))
  | .variable _, _, d, o, .variable _, h =>
    .one (.of_depths h rfl (Nat.zero_le _) rfl (Nat.le_refl _))
  | .binary op left right, _, d, o, .binary hl hr, h => by
    rw [Expr.depths, List.append_assoc, List.append_assoc] at h
    have hleft := expression_within left hl (h.upTo (right.depths_head _ _))
    have hrest := h.right
    rw [depths_length hl] at hrest
    have hright := expression_within right hr (hrest.upTo rfl)
    have hop := hrest.right
    rw [depths_length hr] at hop
    have hpos := right.demand_pos
    rw [Expr.demand]
    refine (within_mono hleft (by omega)).append
      ((within_mono hright (by omega)).append (.one ?_))
    exact .of_depths hop rfl (Nat.le_add_left 2 d) rfl
      (by simp only [Instruction.pushes, Instruction.pops]; omega)
  | .unary l op e, _, d, o, .unary he, h => by
    rw [Expr.depths, List.append_assoc] at h
    have hinner := expression_within e he (h.upTo rfl)
    have hop := h.right
    rw [depths_length he] at hop
    have hpos := e.demand_pos
    rw [Expr.demand]
    refine hinner.append (.one (.of_depths hop rfl (Nat.le_add_left 1 d) rfl ?_))
    simp only [Instruction.pushes, Instruction.pops]
    omega
  | .member object name, _, d, o, .member ho _, h => by
    rw [Expr.depths, List.append_assoc] at h
    have hobject := expression_within object ho (h.upTo rfl)
    have hop := h.right
    rw [depths_length ho] at hop
    rw [Expr.demand]
    refine (within_mono hobject (by omega)).append
      (.one (.of_depths hop rfl (Nat.le_add_left 1 d) rfl ?_))
    simp only [Instruction.pushes, Instruction.pops]
    omega
  | .method object name args, _, d, o, .method ho ha _, h => by
    rw [Expr.depths, List.append_assoc, List.append_assoc] at h
    have hobject := expression_within object ho (h.upTo (argumentDepths_head _ _ _))
    have hrest := h.right
    rw [depths_length ho] at hrest
    have hargs := arguments_within args ha (hrest.upTo rfl)
    have hop := hrest.right
    rw [argumentDepths_length ha] at hop
    rw [Expr.demand]
    exact method_within (within_mono hobject (by omega)) (within_mono hargs (by omega))
      (by omega) hop
  | .call callee args, _, d, o, .call ha _, h => by
    rw [Expr.depths, List.append_assoc] at h
    have hargs := arguments_within (b := 0) args ha (h.upTo rfl)
    have hop := h.right
    rw [argumentDepths_length ha] at hop
    exact call_within hargs hop
  | .construct callee args, _, d, o, .construct ha _, h => by
    rw [Expr.depths, List.append_assoc] at h
    have hargs := arguments_within (b := 0) args ha (h.upTo rfl)
    have hop := h.right
    rw [argumentDepths_length ha] at hop
    exact call_within hargs hop

theorem arguments_within : ∀ (es : List Expr) {out : Listing} {d b o : Nat},
    Arguments p functions es out →
    Agrees D o (argumentDepths (d + b) es ++ [d + b + es.length]) →
      Throughout (Within D (d + argumentsDemand b es)) o out
  | [], _, _, _, _, .nil, _ => .nil
  | e :: rest, _, d, b, o, .cons he hr, h => by
    have hlast : d + b + (e :: rest).length = d + (b + 1) + rest.length := by
      rw [List.length_cons]
      omega
    rw [argumentDepths, List.append_assoc, hlast] at h
    have hfirst := expression_within e he (h.upTo (argumentDepths_head rest _ _))
    have hrest := h.right
    rw [depths_length he] at hrest
    have hmore := arguments_within (b := b + 1) rest hr hrest
    rw [argumentsDemand]
    exact (within_mono hfirst (by omega)).append (within_mono hmore (by omega))

end

end Translation

/-! ## Statements -/

structure Balanced (D : Nat → Nat) (sites : List Site) (o : Nat) (out : Listing) : Prop where
  sound : Throughout (Sound D sites) o out
  empty : ∀ site ∈ sites, D site.offset = 0

namespace Balanced

variable {D : Nat → Nat} {sites sites' : List Site} {o : Nat}
  {first second : Listing}

/-- Instructions that leave nothing above their operands need no site. -/
theorem of_within (h : Throughout (Within D 0) o first) : Balanced D [] o first where
  sound := h.imp fun pc entry _ _ hw => ⟨hw.allows, fun n hn => by
    have := hw.room
    omega⟩
  empty site hsite := by cases hsite

theorem mono (h : Throughout (Sound D sites) o first) (hsub : ∀ s ∈ sites, s ∈ sites') :
    Throughout (Sound D sites') o first :=
  h.imp fun pc entry _ _ hs => ⟨hs.allows, fun n hn => by
    obtain ⟨site, hsite, hroom⟩ := hs.room n hn
    exact ⟨site, hsub site hsite, hroom⟩⟩

theorem append (h : Balanced D sites o first)
    (h' : Balanced D sites' (o + first.length) second) :
    Balanced D (sites ++ sites') o (first ++ second) where
  sound := (mono h.sound fun _ hs => List.mem_append_left _ hs).append
    (mono h'.sound fun _ hs => List.mem_append_right _ hs)
  empty site hsite := (List.mem_append.mp hsite).elim (h.empty site) (h'.empty site)

/-- A statement evaluates its expression before everything else. -/
theorem statement {s : Site} (h : Throughout (Within D s.statement.demand) s.offset first)
    (hsize : first.length = s.statement.evaluationSize) (h0 : D s.offset = 0)
    (hrest : Balanced D sites (s.offset + first.length) second) :
    Balanced D (s :: sites) s.offset (first ++ second) := by
  refine @append D [s] sites s.offset first second ⟨?_, ?_⟩ hrest
  · refine h.imp fun pc entry hle hlt hw => ⟨hw.allows, fun n hn => ?_⟩
    have := hw.room
    exact ⟨s, List.mem_singleton.mpr rfl, ⟨hle, hsize ▸ hlt⟩, by omega⟩
  · intro site hs
    cases List.mem_singleton.mp hs
    exact h0

end Balanced

namespace Translation

variable {p : Program} {functions : FunctionRegistry} {D : Nat → Nat}

theorem condition_within {condition : Expr} {test : Listing} {o : Nat} {more : List Nat}
    (hc : Expression p functions condition test)
    (h : Agrees D o (condition.depths 0 ++ 1 :: more)) :
    Throughout (Within D condition.demand) o test := by
  have hw := expression_within condition hc (h.upTo rfl)
  rwa [Nat.zero_add] at hw

theorem popUnless_balanced {isLast : Bool} {o line : Nat}
    (h : Agrees D o ((if isLast then [] else [1]) ++ [if isLast then 1 else 0])) :
    Balanced D [] o (popUnless isLast line) := by
  cases isLast with
  | true => exact .of_within .nil
  | false =>
    exact .of_within (.one (.of_depths h rfl (Nat.le_refl 1) rfl (Nat.le_refl 1)))

mutual

theorem statement_balanced : ∀ (isLast : Bool) (s : Stmt) {start : Nat} {out : Listing},
    Statement p functions isLast start s out →
    Agrees D start (s.depths isLast ++ [s.leaves isLast]) →
      Balanced D (s.sites isLast start) start out
  | isLast, .assign target value, start, _, .assign hv _, h => by
    have hstart := h.start (Stmt.depths_head ..)
    rw [Stmt.depths, List.append_assoc] at h
    have hstore := h.right
    rw [depths_length hv] at hstore
    exact .statement (condition_within hv h) (expression_length value hv) hstart
      (.of_within (.one (.of_depths hstore rfl (Nat.le_refl 1) rfl (Nat.le_refl 1))))
  | isLast, .branch l condition thenBody none, start, _, .branch hc hb, h => by
    have hstart := h.start (Stmt.depths_head ..)
    rw [Stmt.depths, List.append_assoc] at h
    have hjump := h.right
    rw [depths_length hc] at hjump
    have hbody := hjump.tail
    have hend := hbody.right.head
    rw [blockDepths_length, ← block_length thenBody hb] at hend
    have hskip : Agrees D _ [1, 0] :=
      .cons hjump.head (.one (hbody.start (blockDepths_head _ _)))
    rw [Stmt.sites, ← expression_length condition hc]
    exact .statement (condition_within hc h) (expression_length condition hc) hstart
      (.append (.of_within (.one (.jumpIfFalse hskip hend))) (block_balanced thenBody hb hbody))
  | isLast, .branch l condition thenBody (some elseBody), start, _, .alternative hc hb ho, h => by
    have hstart := h.start (Stmt.depths_head ..)
    rw [Stmt.depths, List.append_assoc, List.cons_append, List.append_assoc, List.cons_append] at h
    have hjump := h.right
    rw [depths_length hc] at hjump
    have hbody := hjump.tail
    have hover := hbody.right
    rw [blockDepths_length, ← block_length thenBody hb] at hover
    have hother := hover.tail
    have hend := hother.right.head
    rw [blockDepths_length, ← block_length elseBody ho] at hend
    have hempty := hother.start (blockDepths_head _ _)
    have hskip : Agrees D _ [1, 0] :=
      .cons hjump.head (.one (hbody.start (blockDepths_head _ _)))
    have hpast : Agrees D _ [0, 0] := .cons hover.head (.one hempty)
    rw [Stmt.sites, ← expression_length condition hc, ← block_length thenBody hb]
    exact .statement (condition_within hc h) (expression_length condition hc) hstart
      (.append (.of_within (.one (.jumpIfFalse hskip hempty)))
        (.append (block_balanced thenBody hb (hbody.upTo rfl))
          (.append (.of_within (.one (.jump hpast hend))) (block_balanced elseBody ho hother))))
  | isLast, .loop l condition body, start, _, .loop hc hb, h => by
    have hstart := h.start (Stmt.depths_head ..)
    rw [Stmt.depths, List.append_assoc, List.cons_append, List.append_assoc] at h
    have hjump := h.right
    rw [depths_length hc] at hjump
    have hbody := hjump.tail
    have hback := hbody.right
    rw [blockDepths_length, ← block_length body hb] at hback
    have hskip : Agrees D _ [1, 0] :=
      .cons hjump.head (.one (hbody.start (blockDepths_head _ _)))
    rw [Stmt.sites, ← expression_length condition hc, ← List.append_nil (blockSites _ _)]
    exact .statement (condition_within hc h) (expression_length condition hc) hstart
      (.append (.of_within (.one (.jumpIfFalse hskip hback.tail.head)))
        (.append (block_balanced body hb (hbody.upTo rfl))
          (.of_within (.one (.jump hback hstart)))))
  | isLast, .expr e, start, _, .expr he, h => by
    have hstart := h.start (Stmt.depths_head ..)
    rw [Stmt.depths, List.append_assoc] at h
    have hpop := h.right
    rw [depths_length he] at hpop
    have hvalue : Agrees D start (e.depths 0 ++ [1]) := h.upTo (by cases isLast <;> rfl)
    exact .statement (condition_within he hvalue) (expression_length e he) hstart
      (popUnless_balanced hpop)
  | isLast, .setMember object name value, start, _, .setMember ho hv _, h => by
    have hstart := h.start (Stmt.depths_head ..)
    rw [Stmt.depths, List.append_assoc, List.append_assoc, List.cons_append] at h
    have hrest := h.right
    rw [depths_length ho] at hrest
    have hcall := hrest.right
    rw [depths_length hv] at hcall
    have hvalue : D _ = 1 := hcall.tail.start (by cases isLast <;> rfl)
    have hobject := expression_within object ho (h.upTo (value.depths_head _ _))
    have hargument := expression_within value hv (hrest.upTo rfl)
    have hcalled : Agrees D _ [0 + 1 + 1, 0 + 1] := .cons hcall.head (.one hvalue)
    have hregroup : ∀ (first second rest : Listing) (c : Instruction × Nat),
        first ++ (second ++ c :: rest) = first ++ (second ++ [c]) ++ rest := by simp
    rw [hregroup]
    refine .statement (s := ⟨start, isLast, .setMember object name value⟩)
      (within_mono (method_within (m := max 1 (argumentsDemand 0 [object, value]))
        (within_mono hobject ?_) (within_mono hargument ?_) (by omega) hcalled)
        (Nat.le_of_eq (Nat.zero_add _))) ?_ hstart ?_
    · simp only [argumentsDemand]
      omega
    · simp only [argumentsDemand]
      omega
    · simp only [Stmt.evaluationSize, List.length_append, List.length_singleton,
        expression_length object ho, expression_length value hv]
      omega
    · simp only [List.length_append, List.length_singleton, ← Nat.add_assoc]
      exact popUnless_balanced hcall.tail
  | isLast, .print l newline args, start, _, .print ha _, h => by
    have hstart := h.start (Stmt.depths_head ..)
    rw [Stmt.depths, List.append_assoc] at h
    have hcall := h.right
    rw [argumentDepths_length ha] at hcall
    have hvalues : Agrees D start (argumentDepths (0 + 0) args ++ [0 + 0 + args.length]) := by
      rw [Nat.zero_add, Nat.zero_add]
      exact h.upTo rfl
    have hresult : Agrees D _ [args.length, 1] := .cons hcall.head (.one hcall.tail.head)
    rw [← Nat.zero_add args.length] at hresult
    have hpop : Agrees D _ [1, 0] := hcall.tail
    have hregroup : ∀ (out : Listing) (c c' : Instruction × Nat),
        out ++ [c, c'] = out ++ [c] ++ [c'] := by simp
    rw [hregroup]
    refine .statement (s := ⟨start, isLast, .print l newline args⟩)
      (within_mono (call_within (arguments_within args ha hvalues) hresult)
        (Nat.le_of_eq (Nat.zero_add _))) ?_ hstart ?_
    · rw [List.length_append, arguments_length args ha]
      rfl
    · rw [List.length_append]
      exact .of_within (.one (.of_depths hpop rfl (Nat.le_refl 1) rfl (Nat.le_refl 1)))

theorem block_balanced : ∀ (body : List Stmt) {start : Nat} {out : Listing},
    Block p functions start body out → Agrees D start (blockDepths body ++ [0]) →
      Balanced D (blockSites start body) start out
  | [], _, _, .nil, _ => .of_within .nil
  | s :: rest, start, _, .cons hs hr, h => by
    rw [blockDepths, List.append_assoc] at h
    have hleaves : s.leaves false = 0 := by cases s <;> rfl
    have hfirst : Agrees D start (s.depths false ++ [s.leaves false]) := by
      rw [hleaves]
      exact h.upTo (blockDepths_head rest [])
    have hrest := h.right
    rw [Stmt.depths_length, ← statement_length false s hs] at hrest
    rw [blockSites, ← statement_length false s hs]
    exact (statement_balanced false s hs hfirst).append (block_balanced rest hr hrest)

end

theorem statements_balanced {body : List Stmt} {start : Nat} {out : Listing}
    (h : Statements p functions start body out)
    (hD : Agrees D start (scriptDepths body ++ [leftover body])) :
    Balanced D (scriptSites start body) start out := by
  induction h with
  | nil => exact .of_within .nil
  | @cons start s rest first second hs hr ih =>
    rw [scriptDepths, List.append_assoc] at hD
    have hrest := hD.right
    rw [Stmt.depths_length, ← statement_length _ s hs] at hrest
    rw [scriptSites, ← statement_length _ s hs]
    have hleaves : (scriptDepths rest ++ [leftover (s :: rest)]).head? =
        some (s.leaves rest.isEmpty) := by
      cases rest with
      | nil => rfl
      | cons t more =>
        rw [scriptDepths, List.append_assoc, Stmt.depths_head]
        cases s <;> rfl
    refine (statement_balanced _ s hs (hD.upTo hleaves)).append ?_
    cases rest with
    | nil =>
      cases hr
      exact .of_within .nil
    | cons t more => exact ih hrest

end Translation
end ScriptEngine
