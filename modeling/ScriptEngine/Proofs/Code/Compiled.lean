/-
The compiler emits translations.

`Compiles functions c c' out literals holds` sums up a step of the compiler from `c`
to `c'`: it appends the listing `out`, its tables only grow, constants come from
`literals` alone, and `holds p` is true of every program `p` whose tables begin with
those of `c'`.  Such a program is in particular the finished one, so what is shown of
a part when it is compiled stays true to the end (`compile_translates`).

The tables stay consistent meanwhile (`Compiler.Consistent`): no variable has two
slots, and every method table is that of its name and number of arguments.
-/
import ScriptEngine.Proofs.Code.Constants
import ScriptEngine.Proofs.Code.Sites
import ScriptEngine.Proofs.Code.Tables
import ScriptEngine.Proofs.Sequence

namespace ScriptEngine

theorem getElem?_of_prefix {α : Type} {before after : List α} {i : Nat} {a : α}
    (h : before <+: after) (hi : before[i]? = some a) : after[i]? = some a := by
  obtain ⟨more, rfl⟩ := h
  rw [List.getElem?_append_left (List.getElem?_eq_some_iff.mp hi).1]
  exact hi

theorem Emitter.size_patch (e : Emitter) (label : Label) :
    (e.patch label).code.size = e.code.size := Array.size_setIfInBounds

namespace Compiler

/-- The tables of a program begin with those of the compiler. -/
structure Below (c : Compiler) (p : Program) : Prop where
  constants : c.emitter.constants.constants.toList <+: p.constants.constants.toList
  names : c.symbols.names.toList <+: p.slotNames.toList
  methods : c.methods.toList <+: p.methods.toList

theorem Below.trans {c c' : Compiler} {p : Program} (h : c.Below c'.finish) (h' : c'.Below p) :
    c.Below p :=
  ⟨h.constants.trans h'.constants, h.names.trans h'.names, h.methods.trans h'.methods⟩

theorem Below.refl (c : Compiler) : c.Below c.finish :=
  ⟨List.prefix_refl _, List.prefix_refl _, List.prefix_refl _⟩

structure Consistent (functions : FunctionRegistry) (c : Compiler) : Prop where
  names : c.symbols.names.toList.Nodup
  methods : ∀ t ∈ c.methods.toList, t = tableOf functions t.name t.argc

structure Compiles (functions : FunctionRegistry) (c c' : Compiler) (out : Listing)
    (literals : List Constant) (holds : Program → Prop) : Prop where
  code : c'.emitter.code.toList = c.emitter.code.toList ++ out.map (·.1)
  lines : c'.emitter.lines.toList = c.emitter.lines.toList ++ out.map (·.2)
  below : c.Below c'.finish
  pool : ∀ k ∈ c'.emitter.constants.constants.toList,
    k ∈ c.emitter.constants.constants.toList ∨ k ∈ literals
  consistent : c.Consistent functions → c'.Consistent functions
  holds : c.Consistent functions → ∀ p, c'.Below p → holds p

namespace Compiles

variable {functions : FunctionRegistry} {c c' c'' : Compiler} {out out' : Listing}
  {ks ks' : List Constant} {P Q : Program → Prop}

theorem refl (c : Compiler) : Compiles functions c c [] [] fun _ => True where
  code := by simp
  lines := by simp
  below := .refl c
  pool k hk := .inl hk
  consistent h := h
  holds _ _ _ := trivial

theorem trans (h : Compiles functions c c' out ks P) (h' : Compiles functions c' c'' out' ks' Q) :
    Compiles functions c c'' (out ++ out') (ks ++ ks') fun p => P p ∧ Q p where
  code := by rw [h'.code, h.code, List.map_append, List.append_assoc]
  lines := by rw [h'.lines, h.lines, List.map_append, List.append_assoc]
  below := h.below.trans h'.below
  pool k hk := by
    rcases h'.pool k hk with hk | hk
    · rcases h.pool k hk with hk | hk
      · exact .inl hk
      · exact .inr (List.mem_append_left _ hk)
    · exact .inr (List.mem_append_right _ hk)
  consistent hc := h'.consistent (h.consistent hc)
  holds hc p hp := ⟨h.holds hc p (h'.below.trans hp), h'.holds (h.consistent hc) p hp⟩

theorem imp (h : Compiles functions c c' out ks P) (hPQ : ∀ p, P p → Q p) :
    Compiles functions c c' out ks Q :=
  { h with holds := fun hc p hp => hPQ p (h.holds hc p hp) }

/-- Where the next instruction stands. -/
theorem size (h : Compiles functions c c' out ks P) :
    c'.emitter.code.size = c.emitter.code.size + out.length := by
  rw [← Array.length_toList, h.code, List.length_append, List.length_map, Array.length_toList]

/-- Setting the line emits nothing. -/
theorem setLine (functions : FunctionRegistry) (c : Compiler) (line : Nat) :
    Compiles functions c { c with emitter := c.emitter.setLine line } [] [] fun _ => True where
  code := by simp [Emitter.setLine]
  lines := by simp [Emitter.setLine]
  below := ⟨List.prefix_refl _, List.prefix_refl _, List.prefix_refl _⟩
  pool k hk := .inl hk
  consistent h := ⟨h.names, h.methods⟩
  holds _ _ _ := trivial

theorem emit (c : Compiler) (i : Instruction) :
    Compiles functions c { c with emitter := c.emitter.emit i } [(i, c.emitter.line)] []
      fun _ => True where
  code := by simp [Emitter.emit]
  lines := by simp [Emitter.emit]
  below := ⟨List.prefix_refl _, List.prefix_refl _, List.prefix_refl _⟩
  pool k hk := .inl hk
  consistent h := ⟨h.names, h.methods⟩
  holds _ _ _ := trivial

theorem emitAt {line : Nat} {i : Instruction} (h : emitAt line i c = .ok ((), c')) :
    Compiles functions c c' [(i, line)] [] fun _ => True := by
  cases h
  exact ((setLine functions c line).trans (emit _ i)).imp fun _ _ => trivial

theorem thenEmit {line : Nat} {i : Instruction} (h : Compiles functions c c' out ks P)
    (hi : Compiler.emitAt line i c' = .ok ((), c'')) :
    Compiles functions c c'' (out ++ [(i, line)]) ks P := by
  have hall := (h.trans (emitAt hi)).imp fun _ hp => hp.1
  rwa [List.append_nil] at hall

/-- What a table with one more entry gives at the index of that entry. -/
theorem getElem?_of_push {α : Type} {xs : Array α} {a : α} {after : List α}
    (h : (xs.push a).toList <+: after) : after[xs.size]? = some a := by
  refine getElem?_of_prefix h ?_
  simp

theorem getElem?_of_below {α : Type} {xs : Array α} {i : Nat} (hi : i < xs.size)
    {after : List α} (h : xs.toList <+: after) : after[i]? = some xs[i] := by
  refine getElem?_of_prefix h ?_
  simp [hi]

theorem constantAt {line : Nat} {k : Constant} (h : constantAt line k c = .ok ((), c')) :
    ∃ i, Compiles functions c c' [(.constant i, line)] [k]
      fun p => ∃ found, p.constants.get? i = some found ∧ found.same k = true := by
  cases h
  have hextends := c.emitter.constants.add_extends k
  refine ⟨(c.emitter.constants.add k).1, ?_, ?_,
    ⟨hextends, List.prefix_refl _, List.prefix_refl _⟩, ?_, fun hc => ⟨hc.names, hc.methods⟩, ?_⟩
  · simp [Emitter.constant, Emitter.setLine, Emitter.emit]
  · simp [Emitter.constant, Emitter.setLine, Emitter.emit]
  · intro j hj
    rcases ConstantPool.mem_add (Array.mem_toList_iff.mp hj) with hj | rfl
    · exact .inl (Array.mem_toList_iff.mpr hj)
    · exact .inr (List.mem_singleton_self j)
  · intro _ p hp
    have hpool : p.constants.Extends (c.emitter.constants.add k).2 := hp.constants
    obtain ⟨found, hget, -, hmerged⟩ :=
      ConstantPool.get?_of_find? (hpool.find? (c.emitter.constants.add_find? k))
    exact ⟨found, hget, Constant.same_iff.mpr hmerged⟩

theorem declare_of_lookup {name : String} {slot : Nat}
    (h : c.symbols.lookup? name = some slot) : Compiler.declare name c = .ok (slot, c) := by
  simp only [Compiler.declare, modifyGet, MonadStateOf.modifyGet, StateT.modifyGet,
    Symbols.declare, h]
  rfl

theorem declare {name : String} {slot : Nat} (h : declare name c = .ok (slot, c')) :
    Compiles functions c c' [] [] fun p => p.slotNames[slot]? = some name := by
  cases hfind : c.symbols.lookup? name with
  | some i =>
    rw [declare_of_lookup hfind] at h
    cases h
    obtain ⟨hi, hname, -⟩ := Array.findIdx?_eq_some_iff_getElem.mp hfind
    refine { refl c with holds := fun _ p hp => ?_ }
    have := getElem?_of_below hi hp.names
    rw [Array.getElem?_toList] at this
    simpa [decide_eq_true_eq.mp hname] using this
  | none =>
    have hdef : Compiler.declare name c =
        .ok (c.symbols.names.size, { c with symbols := ⟨c.symbols.names.push name⟩ }) := by
      simp only [Compiler.declare, modifyGet, MonadStateOf.modifyGet, StateT.modifyGet,
        Symbols.declare, hfind]
      rfl
    rw [hdef] at h
    cases h
    have hfresh : name ∉ c.symbols.names.toList := by
      intro hmem
      have := Array.findIdx?_eq_none_iff.mp hfind name (by simpa using hmem)
      simp at this
    refine ⟨by simp, by simp, ?_, fun k hk => .inl hk, ?_, ?_⟩
    · refine ⟨List.prefix_refl _, ?_, List.prefix_refl _⟩
      simp [finish, Emitter.finish]
    · intro hc
      refine ⟨?_, hc.methods⟩
      simp only [Array.toList_push]
      exact List.nodup_append.mpr ⟨hc.names, by simp, by
        intro a ha b hb
        simp only [List.mem_singleton] at hb
        rintro rfl
        exact hfresh (hb ▸ ha)⟩
    · intro _ p hp
      have := getElem?_of_push hp.names
      rwa [Array.getElem?_toList] at this

end Compiles

namespace Compiles

variable {c c' : Compiler}

theorem methodIndex {input : CompilerInput} {method : String} {argc index : Nat}
    (h : methodIndex input method argc c = .ok (index, c')) :
    Compiles input.functions c c' [] [] fun p =>
      p.methods[index]? = some (tableOf input.functions method argc) := by
  cases hfind : c.methods.findIdx? fun t => t.name = method ∧ t.argc = argc with
  | some i =>
    have hdef : Compiler.methodIndex input method argc c = .ok (i, c) := by
      simp only [Compiler.methodIndex, modifyGet, MonadStateOf.modifyGet, StateT.modifyGet, hfind]
      rfl
    rw [hdef] at h
    cases h
    obtain ⟨hi, hkey, -⟩ := Array.findIdx?_eq_some_iff_getElem.mp hfind
    obtain ⟨hname, hargc⟩ := decide_eq_true_eq.mp hkey
    refine { refl c with holds := fun hc p hp => ?_ }
    have := getElem?_of_below hi hp.methods
    rw [Array.getElem?_toList, hc.methods c.methods[index] (by simp), hname, hargc] at this
    exact this
  | none =>
    have hdef : Compiler.methodIndex input method argc c = .ok (c.methods.size,
        { c with methods := c.methods.push (tableOf input.functions method argc) }) := by
      simp only [Compiler.methodIndex, modifyGet, MonadStateOf.modifyGet, StateT.modifyGet, hfind]
      rfl
    rw [hdef] at h
    cases h
    refine ⟨by simp, by simp, ?_, fun k hk => .inl hk, ?_, ?_⟩
    · refine ⟨List.prefix_refl _, List.prefix_refl _, ?_⟩
      simp [finish, Emitter.finish]
    · intro hc
      refine ⟨hc.names, fun t ht => ?_⟩
      rw [Array.toList_push, List.mem_append, List.mem_singleton] at ht
      rcases ht with ht | rfl
      · exact hc.methods t ht
      · rw [(tableOf_key _ _ _).1, (tableOf_key _ _ _).2]
    · intro _ p hp
      have := getElem?_of_push hp.methods
      rwa [Array.getElem?_toList] at this

theorem emitMethod {input : CompilerInput} {method : String} {argc line : Nat}
    (h : emitMethod input method argc line c = .ok ((), c')) :
    ∃ index, Compiles input.functions c c' [(.callMethod index argc, line)] [] fun p =>
      p.methods[index]? = some (tableOf input.functions method argc) := by
  obtain ⟨index, c1, h1, h2⟩ := bind_ok h
  exact ⟨index, (methodIndex h1).thenEmit h2⟩

theorem thenMethod {input : CompilerInput} {method : String} {argc line : Nat} {c'' : Compiler}
    {out : Listing} {ks : List Constant} {P : Program → Prop}
    (h : Compiles input.functions c c' out ks P)
    (hm : Compiler.emitMethod input method argc line c' = .ok ((), c'')) :
    ∃ index, Compiles input.functions c c'' (out ++ [(.callMethod index argc, line)]) ks fun p =>
      P p ∧ p.methods[index]? = some (tableOf input.functions method argc) := by
  obtain ⟨index, hindex⟩ := emitMethod hm
  have hall := h.trans hindex
  rw [List.append_nil] at hall
  exact ⟨index, hall⟩

theorem readVariable {input : CompilerInput} {name : Ident}
    (h : readVariable input name c = .ok ((), c')) :
    ∃ slot, Compiles input.functions c c' [(.load slot, name.location.line)] [] fun p =>
      p.slotNames[slot]? = some name.name := by
  -- a read that is not refused declares its variable, and a declared name keeps its slot
  have hread : (Compiler.declare name.name >>= fun slot =>
      Compiler.emitAt name.location.line (.load slot)) c = .ok ((), c') := by
    unfold Compiler.readVariable at h
    obtain ⟨c1, c2, h1, h⟩ := bind_ok h
    cases h1
    cases hfind : c.symbols.lookup? name.name with
    | some slot =>
      rw [hfind] at h
      show (Compiler.declare name.name c >>= fun s =>
        Compiler.emitAt name.location.line (.load s.1) s.2) = _
      rw [declare_of_lookup hfind]
      exact h
    | none =>
      rw [hfind] at h
      dsimp only at h
      split at h
      · cases h
      · exact h
  obtain ⟨slot, c1, h1, h2⟩ := bind_ok hread
  exact ⟨slot, (declare h1).thenEmit h2⟩

end Compiles

theorem checkMethod_ok {input : CompilerInput} {method : String} {argc : Nat} {l : Location}
    {c c' : Compiler} (h : checkMethod input method argc l c = .ok ((), c')) : c' = c := by
  unfold checkMethod at h
  split at h
  · cases h
    rfl
  · cases h

theorem resolve_ok {input : CompilerInput} {name : String} {argc handle : Nat} {l : Location}
    {unknown : CompilationError} {c c' : Compiler}
    (h : resolve input name argc l unknown c = .ok (handle, c')) :
    c' = c ∧ input.functions.resolve name argc = .ok (some handle) := by
  unfold resolve at h
  cases hr : input.functions.resolve name argc with
  | error e =>
    rw [hr] at h
    cases h
  | ok found =>
    rw [hr] at h
    cases found with
    | none => cases h
    | some found =>
      cases h
      exact ⟨rfl, rfl⟩

/-! ## Expressions -/

open Translation

mutual

theorem expr_compiles (input : CompilerInput) : ∀ (e : Expr) {c c' : Compiler},
    expr input e c = .ok ((), c') → ∃ out, Compiles input.functions c c' out e.literals
      fun p => Expression p input.functions e out
  | .number l x, c, c', h => by
    rw [expr] at h
    obtain ⟨i, hi⟩ := Compiles.constantAt h
    exact ⟨_, hi.imp fun p ⟨k, hk, hs⟩ => .number hk hs⟩
  | .bool l b, c, c', h => by
    rw [expr] at h
    obtain ⟨i, hi⟩ := Compiles.constantAt h
    exact ⟨_, hi.imp fun p ⟨k, hk, hs⟩ => .bool hk hs⟩
  | .string l s, c, c', h => by
    rw [expr] at h
    obtain ⟨i, hi⟩ := Compiles.constantAt h
    exact ⟨_, hi.imp fun p ⟨k, hk, hs⟩ => .string hk hs⟩
  | .variable name, c, c', h => by
    rw [expr] at h
    obtain ⟨slot, hslot⟩ := Compiles.readVariable h
    exact ⟨_, hslot.imp fun p hp => .variable hp⟩
  | .binary op left right, c, c', h => by
    rw [expr] at h
    obtain ⟨_, c1, h1, k1⟩ := bind_ok h
    obtain ⟨_, c2, h2, k2⟩ := bind_ok k1
    obtain ⟨first, hfirst⟩ := expr_compiles input left h1
    obtain ⟨second, hsecond⟩ := expr_compiles input right h2
    exact ⟨_, (hfirst.trans (hsecond.thenEmit k2)).imp fun p hp => .binary hp.1 hp.2⟩
  | .unary l op e, c, c', h => by
    rw [expr] at h
    obtain ⟨_, c1, h1, k1⟩ := bind_ok h
    obtain ⟨out, hout⟩ := expr_compiles input e h1
    exact ⟨_, (hout.thenEmit k1).imp fun p hp => .unary hp⟩
  | .member object name, c, c', h => by
    rw [expr] at h
    obtain ⟨_, c1, h1, k1⟩ := bind_ok h
    obtain ⟨_, c2, h2, k2⟩ := bind_ok k1
    cases checkMethod_ok h1
    obtain ⟨out, hout⟩ := expr_compiles input object h2
    obtain ⟨index, hindex⟩ := hout.thenMethod k2
    exact ⟨_, hindex.imp fun p hp => .member hp.1 hp.2⟩
  | .method object name args, c, c', h => by
    rw [expr] at h
    obtain ⟨_, c1, h1, k1⟩ := bind_ok h
    obtain ⟨_, c2, h2, k2⟩ := bind_ok k1
    obtain ⟨_, c3, h3, k3⟩ := bind_ok k2
    cases checkMethod_ok h1
    obtain ⟨first, hfirst⟩ := expr_compiles input object h2
    obtain ⟨second, hsecond⟩ := exprs_compiles input args h3
    obtain ⟨index, hindex⟩ := hsecond.thenMethod k3
    exact ⟨_, (hfirst.trans hindex).imp fun p ⟨ho, ha, hm⟩ => .method ho ha hm⟩
  | .call callee args, c, c', h => by
    rw [expr] at h
    obtain ⟨handle, c1, h1, k1⟩ := bind_ok h
    obtain ⟨_, c2, h2, k2⟩ := bind_ok k1
    obtain ⟨rfl, hresolve⟩ := resolve_ok h1
    obtain ⟨out, hout⟩ := exprs_compiles input args h2
    exact ⟨_, (hout.thenEmit k2).imp fun p hp => .call hp hresolve⟩
  | .construct callee args, c, c', h => by
    rw [expr] at h
    obtain ⟨handle, c1, h1, k1⟩ := bind_ok h
    obtain ⟨_, c2, h2, k2⟩ := bind_ok k1
    obtain ⟨rfl, hresolve⟩ := resolve_ok h1
    obtain ⟨out, hout⟩ := exprs_compiles input args h2
    exact ⟨_, (hout.thenEmit k2).imp fun p hp => .construct hp hresolve⟩

theorem exprs_compiles (input : CompilerInput) : ∀ (es : List Expr) {c c' : Compiler},
    exprs input es c = .ok ((), c') → ∃ out, Compiles input.functions c c' out
      (argumentLiterals es) fun p => Arguments p input.functions es out
  | [], c, c', h => by
    rw [exprs] at h
    cases h
    exact ⟨[], (Compiles.refl c).imp fun p _ => .nil⟩
  | e :: rest, c, c', h => by
    rw [exprs] at h
    obtain ⟨_, c1, h1, k1⟩ := bind_ok h
    obtain ⟨first, hfirst⟩ := expr_compiles input e h1
    obtain ⟨second, hsecond⟩ := exprs_compiles input rest k1
    exact ⟨_, (hfirst.trans hsecond).imp fun p hp => .cons hp.1 hp.2⟩

end

/-! ## Statements -/

namespace Compiles

variable {functions : FunctionRegistry} {c c' : Compiler} {out : Listing}
  {ks : List Constant} {P : Program → Prop}

/-- A jump that was emitted without a target gets the place where the listing ends. -/
theorem patch {before after : Listing} {l : Label} {line t : Nat}
    (h : Compiles functions c c'
      (before ++ (l.jump Label.placeholder, line) :: after) ks P)
    (hl : l.offset = c.emitter.code.size + before.length)
    (ht : t = c.emitter.code.size + before.length + 1 + after.length) :
    Compiles functions c { c' with emitter := c'.emitter.patch l }
      (before ++ (l.jump t, line) :: after) ks P := by
  have hsize := h.size
  refine ⟨?_, by simpa [Emitter.patch] using h.lines,
    ⟨h.below.constants, h.below.names, h.below.methods⟩, fun k hk => h.pool k hk, ?_,
    fun hc p hp => h.holds hc p ⟨hp.constants, hp.names, hp.methods⟩⟩
  · have htarget : c'.emitter.offset = t := by
      rw [Emitter.offset, hsize, ht, List.length_append, List.length_cons]
      omega
    have hat : l.offset =
        (c.emitter.code.toList ++ before.map (fun e => e.1)).length + 0 := by
      simp [hl]
    simp only [Emitter.patch, Array.toList_setIfInBounds, h.code, List.map_append, List.map_cons,
      htarget]
    rw [← List.append_assoc, hat, List.set_append_right _ _ (by omega), Nat.add_sub_cancel_left]
    simp
  · exact fun hc => ⟨(h.consistent hc).names, (h.consistent hc).methods⟩

theorem popUnless (functions : FunctionRegistry) (isLast : Bool)
    (h : (if isLast then pure () else emitting (·.emit .pop) : Compile Unit) c = .ok ((), c')) :
    ∃ line, Compiles functions c c' (ScriptEngine.popUnless isLast line) [] fun _ => True := by
  cases isLast with
  | true =>
    cases h
    exact ⟨0, refl c⟩
  | false =>
    cases h
    exact ⟨c.emitter.line, emit c .pop⟩

theorem forward (functions : FunctionRegistry) {conditional : Bool} {label : Label}
    (h : forward conditional c = .ok (label, c')) :
    label = ⟨c.emitter.code.size, conditional⟩ ∧
      Compiles functions c c' [(label.jump Label.placeholder, c.emitter.line)] [] fun _ => True := by
  cases h
  exact ⟨rfl, emit _ _⟩

/-- The test of a condition: its code and a jump for the line of the statement. -/
theorem test {input : CompilerInput} {condition : Expr} {line : Nat} {label : Label}
    {c1 c2 : Compiler} (h1 : expr input condition c = .ok ((), c1))
    (h2 : Compiler.forward true { c1 with emitter := c1.emitter.setLine line } = .ok (label, c2)) :
    ∃ code, label = ⟨c.emitter.code.size + code.length, true⟩ ∧
      Compiles input.functions c c2 (code ++ [(label.jump Label.placeholder, line)])
        condition.literals fun p => Expression p input.functions condition code := by
  obtain ⟨code, hcode⟩ := expr_compiles input condition h1
  obtain ⟨hlabel, hjump⟩ := forward input.functions h2
  have hall := hcode.trans ((setLine _ c1 line).trans hjump)
  simp only [List.append_nil, List.nil_append] at hall
  exact ⟨code, hlabel.trans (by rw [← hcode.size]; rfl), hall.imp fun p hp => hp.1⟩

section
variable {c1 c2 c3 c4 : Compiler} {test body other : Listing} {line line' : Nat}
  {ks' ks'' : List Constant} {Q R : Program → Prop}

/-- Where the code behind a test stands. -/
theorem size_test {entry : Instruction × Nat}
    (h : Compiles functions c c1 (test ++ [entry]) ks P) :
    c1.emitter.code.size = c.emitter.code.size + test.length + 1 := by
  rw [h.size, List.length_append, List.length_singleton, Nat.add_assoc]

/-- A test goes on behind the code that it guards. -/
theorem guarded
    (htest : Compiles functions c c1 (test ++ [(.jumpIfFalse Label.placeholder, line)]) ks P)
    (hbody : Compiles functions c1 c2 body ks' Q) :
    Compiles functions c
      { c2 with emitter := c2.emitter.patch ⟨c.emitter.code.size + test.length, true⟩ }
      (test ++ (.jumpIfFalse (c.emitter.code.size + test.length + 1 + body.length), line) :: body)
      (ks ++ ks') fun p => P p ∧ Q p := by
  have hall := htest.trans hbody
  rw [List.append_assoc, List.singleton_append] at hall
  exact hall.patch rfl rfl

/-- A test guards its block and the jump over the alternative, and that jump goes on behind the
alternative.  The test is patched before the alternative is compiled. -/
theorem alternative
    (htest : Compiles functions c c1 (test ++ [(.jumpIfFalse Label.placeholder, line)]) ks P)
    (hbody : Compiles functions c1 c2 body ks' Q)
    (hjump : Compiles functions c2 c3 [(.jump Label.placeholder, line')] [] fun _ => True)
    (hother : Compiles functions
      { c3 with emitter := c3.emitter.patch ⟨c.emitter.code.size + test.length, true⟩ }
      c4 other ks'' R) :
    Compiles functions c { c4 with emitter := c4.emitter.patch ⟨c2.emitter.code.size, false⟩ }
      (test ++ (.jumpIfFalse (c.emitter.code.size + test.length + 1 + body.length + 1), line) ::
        (body ++ (.jump (c.emitter.code.size + test.length + 1 + body.length + 1 + other.length),
          line') :: other))
      (ks ++ (ks' ++ ks'')) fun p => P p ∧ Q p ∧ R p := by
  have hover : c2.emitter.code.size = c.emitter.code.size + (test ++
      (.jumpIfFalse (c.emitter.code.size + test.length + 1 + (body ++
        [(Instruction.jump Label.placeholder, line')]).length), line) :: body).length := by
    rw [hbody.size, htest.size_test, List.length_append, List.length_cons]
    omega
  have hall := (htest.guarded (hbody.trans hjump)).trans hother
  have hregroup : ∀ i j : Instruction × Nat,
      test ++ i :: (body ++ [j]) ++ other = (test ++ i :: body) ++ j :: other := by simp
  rw [hregroup, List.append_nil, List.append_assoc ks] at hall
  have hboth := hall.patch (l := ⟨c2.emitter.code.size, false⟩) hover
    (t := c.emitter.code.size + test.length + 1 + body.length + 1 + other.length)
    (by rw [← hover, hbody.size, htest.size_test])
  rw [List.append_assoc, List.cons_append, List.length_append] at hboth
  exact hboth.imp fun p ⟨⟨hp, hq, _⟩, hr⟩ => ⟨hp, hq, hr⟩

end

end Compiles

mutual

theorem stmt_compiles (input : CompilerInput) : ∀ (isLast : Bool) (s : Stmt) {c c' : Compiler},
    stmt input isLast s c = .ok ((), c') → ∃ out, Compiles input.functions c c' out s.literals
      fun p => Statement p input.functions isLast c.emitter.code.size s out
  | isLast, .assign target value, c, c', h => by
    rw [stmt] at h
    obtain ⟨_, c1, h1, k1⟩ := bind_ok h
    obtain ⟨slot, c2, h2, k2⟩ := bind_ok k1
    obtain ⟨out, hout⟩ := expr_compiles input value h1
    have hall := hout.trans ((Compiles.declare h2).thenEmit k2)
    rw [List.append_nil] at hall
    exact ⟨_, hall.imp fun p hp => .assign hp.1 hp.2⟩
  | isLast, .branch l condition thenBody none, c, c', h => by
    rw [stmt] at h
    obtain ⟨_, c1, h1, k1⟩ := bind_ok h
    obtain ⟨_, c2, h2, k2⟩ := bind_ok k1
    obtain ⟨label, c3, h3, k3⟩ := bind_ok k2
    obtain ⟨_, c4, h4, k4⟩ := bind_ok k3
    cases h2
    cases k4
    obtain ⟨test, rfl, htest⟩ := Compiles.test h1 h3
    obtain ⟨body, hbody⟩ := block_compiles input thenBody h4
    refine ⟨_, (htest.guarded hbody).imp fun p hp => .branch hp.1 ?_⟩
    rw [← htest.size_test]
    exact hp.2
  | isLast, .branch l condition thenBody (some elseBody), c, c', h => by
    rw [stmt] at h
    obtain ⟨_, c1, h1, k1⟩ := bind_ok h
    obtain ⟨_, c2, h2, k2⟩ := bind_ok k1
    obtain ⟨toElse, c3, h3, k3⟩ := bind_ok k2
    obtain ⟨_, c4, h4, k4⟩ := bind_ok k3
    obtain ⟨toEnd, c5, h5, k5⟩ := bind_ok k4
    obtain ⟨_, c6, h6, k6⟩ := bind_ok k5
    obtain ⟨_, c7, h7, k7⟩ := bind_ok k6
    cases h2
    cases h6
    cases k7
    obtain ⟨test, rfl, htest⟩ := Compiles.test h1 h3
    obtain ⟨body, hbody⟩ := block_compiles input thenBody h4
    obtain ⟨rfl, hjump⟩ := Compiles.forward input.functions h5
    obtain ⟨other, hother⟩ := block_compiles input elseBody h7
    have hafter : (c5.emitter.patch ⟨c.emitter.code.size + test.length, true⟩).code.size =
        c.emitter.code.size + test.length + 1 + body.length + 1 := by
      rw [Emitter.size_patch, hjump.size, hbody.size, htest.size_test]
      rfl
    refine ⟨_, (htest.alternative hbody hjump hother).imp fun p ⟨hc, hb, ho⟩ => ?_⟩
    rw [htest.size_test] at hb
    rw [hafter] at ho
    exact .alternative hc hb ho
  | isLast, .loop l condition body, c, c', h => by
    rw [stmt] at h
    obtain ⟨start, c0, h0, k0⟩ := bind_ok h
    obtain ⟨_, c1, h1, k1⟩ := bind_ok k0
    obtain ⟨_, c2, h2, k2⟩ := bind_ok k1
    obtain ⟨label, c3, h3, k3⟩ := bind_ok k2
    obtain ⟨_, c4, h4, k4⟩ := bind_ok k3
    obtain ⟨_, c5, h5, k5⟩ := bind_ok k4
    cases h0
    cases h2
    cases h5
    cases k5
    obtain ⟨test, rfl, htest⟩ := Compiles.test h1 h3
    obtain ⟨code, hcode⟩ := block_compiles input body h4
    have hall := htest.guarded (hcode.trans ((Compiles.setLine _ c4 l.line).trans
      (Compiles.emit _ (.jump c.emitter.code.size))))
    simp only [List.nil_append, List.append_nil, List.length_append] at hall
    refine ⟨_, hall.imp fun p ⟨hc, hb, _⟩ => ?_⟩
    rw [htest.size_test] at hb
    exact .loop hc hb
  | isLast, .expr e, c, c', h => by
    rw [stmt] at h
    obtain ⟨_, c1, h1, k1⟩ := bind_ok h
    obtain ⟨out, hout⟩ := expr_compiles input e h1
    obtain ⟨line, hpop⟩ := Compiles.popUnless input.functions isLast k1
    have hall := hout.trans hpop
    rw [List.append_nil] at hall
    exact ⟨_, hall.imp fun p hp => .expr hp.1⟩
  | isLast, .setMember object name value, c, c', h => by
    rw [stmt] at h
    obtain ⟨_, c1, h1, k1⟩ := bind_ok h
    obtain ⟨_, c2, h2, k2⟩ := bind_ok k1
    obtain ⟨_, c3, h3, k3⟩ := bind_ok k2
    obtain ⟨_, c4, h4, k4⟩ := bind_ok k3
    cases checkMethod_ok h1
    obtain ⟨first, hfirst⟩ := expr_compiles input object h2
    obtain ⟨second, hsecond⟩ := expr_compiles input value h3
    obtain ⟨index, hindex⟩ := Compiles.emitMethod h4
    obtain ⟨line, hpop⟩ := Compiles.popUnless input.functions isLast k4
    have hall := hfirst.trans (hsecond.trans (hindex.trans hpop))
    rw [List.append_nil, List.append_nil] at hall
    exact ⟨_, hall.imp fun p ⟨ho, hv, hm, _⟩ => .setMember ho hv hm⟩
  | isLast, .print l newline args, c, c', h => by
    rw [stmt] at h
    obtain ⟨handle, c1, h1, k1⟩ := bind_ok h
    obtain ⟨_, c2, h2, k2⟩ := bind_ok k1
    obtain ⟨rfl, hresolve⟩ := resolve_ok h1
    obtain ⟨out, hout⟩ := exprs_compiles input args h2
    cases k2
    have hall := hout.trans ((Compiles.setLine input.functions c2 l.line).trans
      ((Compiles.emit _ (.call handle args.length)).trans (Compiles.emit _ .pop)))
    simp only [List.append_nil, List.nil_append] at hall
    exact ⟨_, hall.imp fun p hp => .print hp.1 hresolve⟩

theorem block_compiles (input : CompilerInput) : ∀ (body : List Stmt) {c c' : Compiler},
    block input body c = .ok ((), c') → ∃ out, Compiles input.functions c c' out
      (blockLiterals body) fun p => Block p input.functions c.emitter.code.size body out
  | [], c, c', h => by
    rw [block] at h
    cases h
    exact ⟨[], (Compiles.refl c).imp fun p _ => .nil⟩
  | s :: rest, c, c', h => by
    rw [block] at h
    obtain ⟨_, c1, h1, k1⟩ := bind_ok h
    obtain ⟨first, hfirst⟩ := stmt_compiles input false s h1
    obtain ⟨second, hsecond⟩ := block_compiles input rest k1
    have hsize := hfirst.size
    refine ⟨_, (hfirst.trans hsecond).imp fun p hp => .cons hp.1 ?_⟩
    rw [← hsize]
    exact hp.2

end

theorem statements_compiles (input : CompilerInput) (body : List Stmt) {c c' : Compiler}
    (h : statements input body c = .ok ((), c')) : ∃ out, Compiles input.functions c c' out
      (blockLiterals body) fun p =>
        Translation.Statements p input.functions c.emitter.code.size body out := by
  induction body generalizing c with
  | nil =>
    rw [statements] at h
    cases h
    exact ⟨[], (Compiles.refl _).imp fun p _ => .nil⟩
  | cons s rest ih =>
    rw [statements] at h
    obtain ⟨_, c1, h1, k1⟩ := bind_ok h
    obtain ⟨first, hfirst⟩ := stmt_compiles input rest.isEmpty s h1
    obtain ⟨second, hsecond⟩ := ih k1
    have hsize := hfirst.size
    refine ⟨_, (hfirst.trans hsecond).imp fun p hp => .cons hp.1 ?_⟩
    rw [← hsize]
    exact hp.2

end Compiler

/-- What a program is that was compiled from some statements. -/
structure Program.CompiledFrom (p : Program) (functions : FunctionRegistry) (body : List Stmt)
    (out : Listing) : Prop where
  code : p.code.toList = out.map (·.1)
  lines : p.lines.toList = out.map (·.2)
  translation : Translation.Statements p functions 0 body out
  names : p.slotNames.toList.Nodup
  pool : ∀ k ∈ p.constants.constants.toList, k ∈ blockLiterals body

theorem Program.CompiledFrom.hasAt {p : Program} {functions : FunctionRegistry}
    {body : List Stmt} {out : Listing} (h : p.CompiledFrom functions body out) :
    Throughout p.HasAt 0 out := by
  intro k entry hk
  unfold HasAt
  rw [Nat.zero_add, ← Array.getElem?_toList, ← Array.getElem?_toList, h.code, h.lines,
    List.getElem?_map, List.getElem?_map, hk]
  exact ⟨rfl, rfl⟩

theorem Program.CompiledFrom.size {p : Program} {functions : FunctionRegistry}
    {body : List Stmt} {out : Listing} (h : p.CompiledFrom functions body out) :
    p.size = out.length := by
  rw [Program.size, ← Array.length_toList, h.code, List.length_map]

theorem Script.compile_translates {s : Script} {input : CompilerInput} {p : Program}
    (h : s.compile input = .ok p) : ∃ out, p.CompiledFrom input.functions s.statements out := by
  unfold Script.compile at h
  cases hs : Compiler.statements input s.statements Compiler.start with
  | error e =>
    rw [hs] at h
    cases h
  | ok r =>
    obtain ⟨_, c⟩ := r
    rw [hs] at h
    cases h
    obtain ⟨out, hout⟩ := Compiler.statements_compiles input s.statements hs
    have hstart : Compiler.start.Consistent input.functions := by
      refine ⟨?_, ?_⟩ <;> simp [Compiler.start, Symbols.empty]
    refine ⟨out, ?_, ?_, ?_, (hout.consistent hstart).names, ?_⟩
    · show c.emitter.code.toList = _
      simpa [Compiler.start, Emitter.new] using hout.code
    · show c.emitter.lines.toList = _
      simpa [Compiler.start, Emitter.new] using hout.lines
    · exact hout.holds hstart c.finish (.refl c)
    · intro k hk
      rcases hout.pool k hk with hnone | hlit
      · simp [Compiler.start, Emitter.new, ConstantPool.empty] at hnone
      · exact hlit

end ScriptEngine
