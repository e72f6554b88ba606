/-
Every name of a script can be mangled.

The lexer takes a run of letters, digits and underscores for a name, and the run does not
begin with a digit.  The name of a call is a token of this kind, so no function and no
constructor that a parsed script refers to has a name that is empty or begins with a digit
(`Script.parse_named`).  This holds of every statement that is written over such tokens, by
induction on derivations.
-/
import ScriptEngine.Proofs.Code.Demands
import ScriptEngine.Proofs.Parser.Coverage
import ScriptEngine.Proofs.Registry.Mangling
import ScriptEngine.Proofs.Token.Partition

namespace ScriptEngine

open FunctionKey (ValidName)

/-! ## Names among the tokens -/

theorem Printing.IsName.valid {name : String} (h : Printing.IsName name) : ValidName name := by
  obtain ⟨⟨c, cs, hname, hc, -⟩, -⟩ := h
  exact ⟨c, cs, hname, (Lexer.isNameStart_plain hc).2.2.2⟩

theorem Printing.Spelled.isName {lexeme : String} {span : List Char}
    (h : Printing.Spelled .identifier lexeme span) : Printing.IsName lexeme := by
  cases h with
  | fixed hfixed =>
    have hkinds : ∀ p ∈ Printing.fixed, p.2 ≠ .identifier := by decide
    exact absurd rfl (hkinds _ hfixed)
  | name hname => exact hname

theorem Lexer.Partition.isName {before cs : List Char} {tokens : List Scanned}
    (h : Partition before cs tokens) : ∀ s ∈ tokens, s.token.kind = .identifier →
      Printing.IsName s.token.lexeme := by
  induction h with
  | stop => exact nofun
  | @token before gap span rest s more _ _ hcovers _ ih =>
    refine List.forall_mem_cons.mpr ⟨fun hk => ?_, ih⟩
    have hfault : s.fault = none := by
      rw [← Option.not_isSome_iff_eq_none, hcovers.fault_iff, hk]
      decide
    have hspelled := hcovers.spelled (by rw [hk]; decide) hfault
    rw [hk] at hspelled
    exact hspelled.isName

theorem Lexer.Partition.names {before cs : List Char} {tokens : List Scanned}
    (h : Partition before cs tokens) : ∀ s ∈ tokens, s.token.kind = .identifier →
      ValidName s.token.lexeme := fun s hs hk => (h.isName s hs hk).valid

/-! ## Names among the references -/

/-- The name of a function or a class that is referred to can be mangled. -/
def Reference.Named : Reference → Prop
  | function name _ _ => ValidName name
  | constructor className _ _ => ValidName className
  | method .. => True

/-- The references among the demands have names that can be mangled. -/
def AllNamed (ds : List Demand) : Prop := ∀ r ∈ references ds, r.Named

namespace AllNamed

variable {ds es : List Demand}

theorem append (h : AllNamed ds) (g : AllNamed es) : AllNamed (ds ++ es) := by
  intro r hr
  rw [references, List.filterMap_append] at hr
  exact (List.mem_append.mp hr).elim (h r) (g r)

theorem cons {r : Reference} (h : r.Named) (g : AllNamed ds) :
    AllNamed (.reference r :: ds) := List.forall_mem_cons.mpr ⟨h, g⟩

end AllNamed

theorem printFunction_valid (newline : Bool) : ValidName (printFunction newline) := by
  cases newline <;> exact ⟨'p', _, rfl, rfl⟩

namespace Grammar

/-- The names among the tokens can be mangled. -/
def Named (ts : List Token) : Prop := ∀ t ∈ ts, t.kind = .identifier → ValidName t.lexeme

namespace Named

variable {t : Token} {ts us : List Token}

theorem head (h : Named (t :: ts)) (ht : t.kind = .identifier) : ValidName t.lexeme :=
  h t List.mem_cons_self ht

theorem tail (h : Named (t :: ts)) : Named ts := fun u hu => h u (List.mem_cons_of_mem _ hu)

theorem left (h : Named (ts ++ us)) : Named ts := fun u hu => h u (List.mem_append_left _ hu)

theorem right (h : Named (ts ++ us)) : Named us := fun u hu => h u (List.mem_append_right _ hu)

end Named

/-- A call refers to a function or a constructor of its name. -/
theorem demands_mkCall (callee : Ident) (args : List Expr) (hname : ValidName callee.name)
    (hargs : AllNamed (argumentDemands args)) : AllNamed (Parser.mkCall callee args).demands := by
  unfold Parser.mkCall
  split <;> exact .cons hname hargs

mutual

theorem Expression.named : ∀ {l : Level} {ts : List Token} {e : Expr}, Expression l ts e →
    Named ts → AllNamed e.demands
  | _, _, _, .next h, hn => h.named hn
  | _, _, _, .binary _ _ _ hl _ hr, hn => (hl.named hn.left).append (hr.named hn.right.tail)
  | _, _, _, .unary _ _ _ he, hn => he.named hn.tail
  | _, _, _, .member _ _ ho _ _, hn => .cons trivial (ho.named hn.left)
  | _, _, _, .method _ _ ho _ _ ha, hn =>
    .cons trivial ((ho.named hn.left).append (ha.named hn.right.tail.tail))
  | _, _, _, .number .., _ | _, _, _, .string .., _ | _, _, _, .true_ .., _
  | _, _, _, .false_ .., _ | _, _, _, .variable .., _ => nofun
  | _, _, _, .call _ ht ha, hn => demands_mkCall _ _ (hn.head ht) (ha.named hn.tail)
  | _, _, _, .group _ _ _ he _, hn => he.named hn.tail.left

theorem Arguments.named : ∀ {ts : List Token} {args : List Expr}, Arguments ts args →
    Named ts → AllNamed (argumentDemands args)
  | _, _, .empty .., _ => nofun
  | _, _, .list _ _ hi, hn => hi.named hn.tail

theorem Items.named : ∀ {ts : List Token} {args : List Expr}, Items ts args →
    Named ts → AllNamed (argumentDemands args)
  | _, _, .last _ he _, hn => (he.named hn.left).append nofun
  | _, _, .more _ he _ hi, hn => (he.named hn.left).append (hi.named hn.right.tail)

end

theorem Condition.named {ts : List Token} {e : Expr} (h : Condition ts e) (hn : Named ts) :
    AllNamed e.demands := by
  cases h with
  | mk _ _ _ he _ => exact he.named hn.tail.left

mutual

theorem Statement.named : ∀ {ts : List Token} {s : Stmt}, Statement ts s → Named ts →
    AllNamed s.demands
  | _, _, @Statement.branch _ _ _ _ _ elseBody _ _ _ hc hb ha _, hn => by
    have hcondition := hc.named hn.tail.left
    have hthen := hb.named hn.tail.right.left
    cases elseBody with
    | none => exact hcondition.append hthen
    | some body =>
      exact hcondition.append (hthen.append (ha.named hn.tail.right.right.left body rfl))
  | _, _, .loop _ _ _ hc hb _, hn =>
    (hc.named hn.tail.left).append (hb.named hn.tail.right.left)
  | _, _, .print _ _ ha, hn => .cons (printFunction_valid false) (ha.named hn.tail)
  | _, _, .println _ _ ha, hn => .cons (printFunction_valid true) (ha.named hn.tail)
  | _, _, .expr he, hn => he.named hn
  | _, _, .assign _ _ _ hv, hn => (hv.named hn.right.tail).append nofun
  | _, _, .setMember _ ho _ hv, hn => by
    -- the target is read as a member, and is written
    have htarget := ho.named hn.left
    refine .cons trivial (AllNamed.append (fun r hr => htarget r ?_) (hv.named hn.right.tail))
    exact List.mem_cons_of_mem _ hr

theorem Alternative.named : ∀ {ts : List Token} {elseBody : Option (List Stmt)},
    Alternative ts elseBody → Named ts → ∀ body, elseBody = some body →
      AllNamed (blockDemands body)
  | _, _, .none, _, _, h => nomatch h
  | _, _, .some _ _ hb, hn, _, rfl => hb.named hn.tail

theorem Block.named : ∀ {ts : List Token} {body : List Stmt}, Block ts body → Named ts →
    AllNamed (blockDemands body)
  | _, _, .nil, _ => nofun
  | _, _, .separator _ _ hb, hn => hb.named hn.tail
  | _, _, .statement hs hb, hn => (hs.named hn.left).append (hb.named hn.right)

end

end Grammar

theorem blockDemands_named {body : List Stmt} (h : ∀ s ∈ body, AllNamed s.demands) :
    AllNamed (blockDemands body) := by
  induction body with
  | nil => exact nofun
  | cons s rest ih =>
    exact (h s List.mem_cons_self).append (ih fun t ht => h t (List.mem_cons_of_mem _ ht))

/-- The functions and constructors that a parsed script refers to have names that can be
mangled. -/
theorem Script.parse_named (text : String) : AllNamed (Script.parse text).1.demands := by
  refine blockDemands_named fun s hs => ?_
  obtain ⟨ts, hts, hstatement⟩ := Parser.scriptIn_written _ _ _ s hs
  refine hstatement.named fun t ht hk => ?_
  obtain ⟨scanned, hscanned, rfl⟩ := List.mem_map.mp (hts t ht)
  exact (TokenStream.ofString_partitions text).partition.names scanned hscanned hk

end ScriptEngine
