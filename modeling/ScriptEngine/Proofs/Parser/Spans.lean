/-
What the functions of the grammar read.

Every function that succeeds has taken a span off the tokens ahead that derives its
result.  For expressions this is shown of the layered parser, whose functions are
the rules of the grammar, and carried over to the parser by binding powers, which
is the same function.  For statements and blocks the induction is on the tokens
ahead: a block is read behind the keyword of its statement, and what follows a
statement is read behind that statement.
-/
import ScriptEngine.Proofs.Parser.Derivation

namespace ScriptEngine
namespace Parser

open Grammar

namespace Layered

/-- With `n` steps every function of the layered grammar reads a span of its rule. -/
structure Sound (n : Nat) : Prop where
  level : ∀ l p, l ≠ .bare → Reads p (levelIn n l) (Expression l)
  join : ∀ l p left ts, Expression l ts left →
    Reads p (joinIn n l left) fun us e => Expression l (ts ++ us) e
  members : ∀ p object ts, Expression .member ts object →
    Reads p (membersIn n object) fun us e => Expression .member (ts ++ us) e
  primary : ∀ p, Reads p (primaryIn n) (Expression .primary)
  arguments : ∀ p, Reads p (argumentsIn n) Arguments
  items : ∀ p, Reads p (itemsIn n) Items

namespace Sound

variable {n : Nat} (h : Sound n)
include h

theorem binary_succ {l : Level} (hl : l.IsBinary) (p : Parser) :
    Reads p (levelIn (n + 1) l) (Expression l) := by
  have hnext : l.next ≠ .bare := by cases l <;> simp [Level.next]
  rw [levelIn_binary n hl]
  refine (h.level l.next p hnext).bind fun left q ts _ hleft => ?_
  exact h.join l q left ts (.next hleft)

theorem prefixed_succ (p : Parser) :
    Reads p (levelIn (n + 1) .prefixed) (Expression .prefixed) := by
  rw [levelIn]
  refine .get_bind ?_
  dsimp only
  cases hop : UnaryOp.ofToken? p.current.kind with
  | none => exact (h.level .member p (by simp)).imp fun ts e he => .next he
  | some op =>
    have hk : p.current.kind ≠ .eof := by
      intro hk
      rw [hk] at hop
      cases hop
    refine (Reads.take hk).bind fun t q ts _ ht => ?_
    obtain ⟨rfl, rfl⟩ := ht
    refine (h.level .prefixed q (by simp)).bind fun e r us _ he => ?_
    rw [← List.append_nil us] at he
    exact .pure (.unary op _ hop he)

theorem member_succ (p : Parser) : Reads p (levelIn (n + 1) .member) (Expression .member) := by
  rw [levelIn]
  refine (h.level .primary p (by simp)).bind fun object q ts _ ho => ?_
  exact h.members q object ts (.next ho)

theorem level_succ (l : Level) (p : Parser) (hl : l ≠ .bare) :
    Reads p (levelIn (n + 1) l) (Expression l) := by
  cases l with
  | prefixed => exact h.prefixed_succ p
  | bare => exact absurd rfl hl
  | member => exact h.member_succ p
  | primary =>
    rw [levelIn]
    exact h.primary p
  | or | and | equality | relational | additive | multiplicative => exact h.binary_succ (by trivial) p

theorem join_succ (l : Level) (p : Parser) (left : Expr) (ts : List Token)
    (hleft : Expression l ts left) :
    Reads p (joinIn (n + 1) l left) fun us e => Expression l (ts ++ us) e := by
  have stop : Reads p (pure left : Parse Expr) fun us e => Expression l (ts ++ us) e :=
    .pure (by rwa [List.append_nil])
  rw [joinIn]
  refine .get_bind ?_
  cases hop : operator? p with
  | none => exact stop
  | some op =>
    refine .ite (fun hlevel => ?_) fun _ => stop
    have hof := (operator?_eq_some hop).1
    have hk : p.current.kind ≠ .eof := by
      intro hk
      rw [hk] at hof
      cases hof
    have hnext : l.next ≠ .bare := by cases l <;> simp [Level.next]
    refine (Reads.take hk).bind fun t q us _ ht => ?_
    obtain ⟨rfl, rfl⟩ := ht
    refine (h.level l.next q hnext).bind fun right r vs _ hright => ?_
    refine (h.join l r _ _ (.binary op _ hlevel hleft hof hright)).imp fun ws e he => ?_
    simpa using he

theorem members_succ (p : Parser) (object : Expr) (ts : List Token)
    (ho : Expression .member ts object) :
    Reads p (membersIn (n + 1) object) fun us e => Expression .member (ts ++ us) e := by
  rw [membersIn]
  refine (Reads.eat (by decide)).bind fun found q us _ hdot => ?_
  cases found with
  | none =>
    subst hdot
    exact .pure (by simpa using ho)
  | some dot =>
    obtain ⟨rfl, hdot⟩ := hdot
    refine Reads.memberName.bind fun name r vs _ hname => ?_
    obtain ⟨t, rfl, ht, rfl⟩ := hname
    refine .get_bind (.ite (fun _ => ?_) fun _ => ?_)
    · refine (h.arguments r).bind fun args s ws _ hargs => ?_
      refine (h.members s _ _ (.method dot t ho hdot ht hargs)).imp fun zs e he => ?_
      simpa using he
    · refine (h.members r _ _ (.member dot t ho hdot ht)).imp fun zs e he => ?_
      simpa using he

theorem primary_succ (p : Parser) : Reads p (primaryIn (n + 1)) (Expression .primary) := by
  rw [primaryIn]
  refine .get_bind ?_
  dsimp only
  split
  · next hk =>
    refine (Reads.take (by simp [hk])).bind fun t q ts _ ht => ?_
    obtain ⟨rfl, rfl⟩ := ht
    split
    · next hv => exact .pure (.number _ hk hv)
    · exact .throw
  · next hk => exact .leaf (by simp [hk]) (.string _ hk)
  · next hk => exact .leaf (by simp [hk]) (.true_ _ hk)
  · next hk => exact .leaf (by simp [hk]) (.false_ _ hk)
  · next hk =>
    refine (Reads.take (by simp [hk])).bind fun t q ts _ ht => ?_
    obtain ⟨rfl, rfl⟩ := ht
    refine .get_bind (.ite (fun _ => ?_) fun _ => .pure (.variable _ hk))
    refine (h.arguments q).bind fun args r us _ hargs => .pure ?_
    rw [List.append_nil]
    exact .call _ hk hargs
  · next hk =>
    refine (Reads.take (by simp [hk])).bind fun t q ts _ ht => ?_
    obtain ⟨rfl, rfl⟩ := ht
    refine Reads.bind (.modify rfl) fun _ r us _ hus => ?_
    subst hus
    refine (h.level .or r (by simp)).bind fun inner s vs _ hinner => ?_
    refine (Reads.expect (by decide)).bind fun closing u ws _ hclosing => ?_
    obtain ⟨rfl, hclosing⟩ := hclosing
    refine Reads.bind (.modify rfl) fun _ v zs _ hzs => .pure ?_
    subst hzs
    exact .group _ closing hk hinner hclosing
  · exact .throw
  · exact .failHere

theorem arguments_succ (p : Parser) : Reads p (argumentsIn (n + 1)) Arguments := by
  rw [argumentsIn]
  refine (Reads.expect (by decide)).bind fun opening q ts _ hopening => ?_
  obtain ⟨rfl, hopening⟩ := hopening
  refine (Reads.eat (by decide)).bind fun found r us _ hfound => ?_
  cases found with
  | some closing =>
    obtain ⟨rfl, hclosing⟩ := hfound
    exact .pure (.empty opening closing hopening hclosing)
  | none =>
    subst hfound
    refine Reads.bind (.modify rfl) fun _ s vs _ hvs => ?_
    subst hvs
    refine (h.items s).bind fun args u ws _ hargs => ?_
    refine Reads.bind (.modify rfl) fun _ v zs _ hzs => .pure ?_
    subst hzs
    simpa using Arguments.list opening hopening hargs

theorem items_succ (p : Parser) : Reads p (itemsIn (n + 1)) Items := by
  rw [itemsIn]
  refine (h.level .or p (by simp)).bind fun first q ts _ hfirst => ?_
  refine (Reads.eat (by decide)).bind fun found r us _ hcomma => ?_
  cases found with
  | some comma =>
    obtain ⟨rfl, hcomma⟩ := hcomma
    refine (h.items r).bind fun more s vs _ hmore => .pure ?_
    simpa using Items.more comma hfirst hcomma hmore
  | none =>
    subst hcomma
    refine (Reads.eat (by decide)).bind fun closed s vs _ hclosed => ?_
    cases closed with
    | some closing =>
      obtain ⟨rfl, hclosing⟩ := hclosed
      exact .pure (.last closing hfirst hclosing)
    | none => exact .failHere

end Sound

theorem sound (n : Nat) : Sound n := by
  induction n with
  | zero =>
    constructor <;> intros <;>
      simp only [levelIn, joinIn, membersIn, primaryIn, argumentsIn, itemsIn] <;> exact .giveUp
  | succ n h =>
    exact ⟨h.level_succ, h.join_succ, h.members_succ, h.primary_succ, h.arguments_succ,
      h.items_succ⟩

end Layered

theorem expr_reads (p : Parser) : Reads p (expr 0) (Expression .or) := by
  intro e q h
  rw [expr_ofPower, show Level.ofPower 0 = .or from rfl,
    ← Layered.level_eq_expr .or p (by intro hu; cases hu)] at h
  exact (Layered.sound _).level .or p (by simp) e q h

theorem arguments_reads (p : Parser) : Reads p arguments Arguments := by
  intro args q h
  rw [← (Layered.faithful (12 * p.ahead.length + 1)).arguments p (Nat.le_refl _)] at h
  exact (Layered.sound _).arguments p args q h

/-! ## Statements and blocks -/

theorem condition_reads (p : Parser) : Reads p settled.condition Condition := by
  refine (Reads.expect (by decide)).bind fun opening q ts _ hopening => ?_
  obtain ⟨rfl, hopening⟩ := hopening
  refine (expr_reads q).bind fun e r us _ he => ?_
  refine (Reads.expect (by decide)).bind fun closing s vs _ hclosing => .pure ?_
  obtain ⟨rfl, hclosing⟩ := hclosing
  exact .mk opening closing hopening he hclosing

theorem simple_reads (p : Parser) : Reads p settled.simple Statement := by
  refine (expr_reads p).bind fun left q ts _ hleft => ?_
  refine (Reads.eat (by decide)).bind fun found r us _ hequal => ?_
  cases found with
  | none =>
    subst hequal
    exact .pure (by simpa using Statement.expr hleft)
  | some equal =>
    obtain ⟨rfl, hequal⟩ := hequal
    refine (expr_reads r).bind fun value s vs _ hvalue => ?_
    split
    · exact .pure (by simpa using Statement.assign equal hleft hequal hvalue)
    · exact .pure (by simpa using Statement.setMember equal hleft hequal hvalue)
    · exact .throw

theorem print_reads {p : Parser} {newline : Bool}
    (hk : p.current.kind = if newline then .println else .print) :
    Reads p (settled.printBody p.current newline) Statement := by
  refine (Reads.take ?_).bind fun t q ts _ ht => ?_
  · rw [hk]
    split <;> decide
  obtain ⟨rfl, rfl⟩ := ht
  refine (arguments_reads q).bind fun args r us _ hargs => .pure ?_
  rw [List.append_nil]
  cases newline with
  | true => exact .println _ hk hargs
  | false => exact .print _ hk hargs

section
variable {p : Parser}

theorem alternative_reads (opener : Token)
    (ih : ∀ q : Parser, q.ahead.length ≤ p.ahead.length →
      Reads q (block opener false false) Block) :
    Reads p (settled.alternative opener) Alternative := by
  refine (Reads.eat (by decide)).bind fun found q ts hq hfound => ?_
  cases found with
  | none =>
    subst hfound
    exact .pure .none
  | some keyword =>
    obtain ⟨rfl, hkeyword⟩ := hfound
    have hlen := ((Orderly.eat _).ok hq).2
    refine (ih q (by omega)).bind fun body r us _ hbody => .pure ?_
    rw [List.append_nil]
    exact .some keyword hkeyword hbody

variable (ih : ∀ q : Parser, q.ahead.length < p.ahead.length → ∀ opener mayElse afterStatement,
  Reads q (block opener mayElse afterStatement) Block)
include ih

theorem branch_reads (hk : p.current.kind = .if_) :
    Reads p (settled.branchBody p.current) Statement := by
  have hne : p.current.kind ≠ .eof := by simp [hk]
  refine (Reads.take hne).bind fun t q ts hq ht => ?_
  have hlen := ((Orderly.take_kind hne).ok hq).2
  obtain ⟨rfl, rfl⟩ := ht
  refine Reads.bind (.modify rfl) fun _ q us hq hus => ?_
  cases hq
  subst hus
  refine (condition_reads _).bind fun condition q cs hq hcondition => ?_
  have hcond := ((settled_tidy.condition _).ok hq).2
  dsimp only at hcond
  refine (ih q (by omega) _ _ _).bind fun thenBody r bs hr hthen => ?_
  have hblock := ((settled_tidy.block q _ _ _).ok hr).2
  refine (alternative_reads _ fun s hs => ih s (by omega) _ _ _).bind
    fun elseBody s es _ helse => ?_
  refine (Reads.expect (by decide)).bind fun closing s vs _ hclosing => ?_
  obtain ⟨rfl, hclosing⟩ := hclosing
  refine Reads.bind (.modify rfl) fun _ s vs _ hvs => ?_
  subst hvs
  refine Reads.bind (.modify ?_) fun _ s vs _ hvs => .pure ?_
  · split <;> rfl
  subst hvs
  exact .branch _ closing hk hcondition hthen helse hclosing

theorem loop_reads (hk : p.current.kind = .while_) :
    Reads p (settled.loopBody p.current) Statement := by
  have hne : p.current.kind ≠ .eof := by simp [hk]
  refine (Reads.take hne).bind fun t q ts hq ht => ?_
  have hlen := ((Orderly.take_kind hne).ok hq).2
  obtain ⟨rfl, rfl⟩ := ht
  refine Reads.bind (.modify rfl) fun _ q us hq hus => ?_
  cases hq
  subst hus
  refine (condition_reads _).bind fun condition q cs hq hcondition => ?_
  have hcond := ((settled_tidy.condition _).ok hq).2
  dsimp only at hcond
  refine (ih q (by omega) _ _ _).bind fun body r bs _ hbody => ?_
  refine (Reads.expect (by decide)).bind fun closing s vs _ hclosing => ?_
  obtain ⟨rfl, hclosing⟩ := hclosing
  refine Reads.bind (.modify rfl) fun _ s vs _ hvs => ?_
  subst hvs
  refine Reads.bind (.modify ?_) fun _ s vs _ hvs => .pure ?_
  · split <;> rfl
  subst hvs
  exact .loop _ closing hk hcondition hbody hclosing

theorem statement_reads_of : Reads p statement Statement := by
  rw [statement_eq]
  refine .get_bind ?_
  dsimp only
  split
  · next hk => exact branch_reads ih hk
  · next hk => exact loop_reads ih hk
  · next hk => exact print_reads hk
  · next hk => exact print_reads hk
  · exact .throw
  · exact .throw
  · exact simple_reads p

theorem block_reads_of (opener : Token) (mayElse afterStatement : Bool) :
    Reads p (block opener mayElse afterStatement) Block := by
  rw [block_eq]
  refine .get_bind (.ite (fun _ => .pure .nil) fun _ => .ite (fun _ => .throw) fun _ =>
    .ite (fun hc => ?_) fun _ => ?_)
  · have hkind := current_of_check hc
    have hne : p.current.kind ≠ .eof := by simp [hkind]
    have hahead : (separator afterStatement p).ahead = p.advance.ahead := by
      unfold separator
      split <;> rfl
    intro body q hq
    have hlen := length_advance hne
    obtain ⟨ts, hts, hbody⟩ :=
      ih (separator afterStatement p) (by rw [hahead]; omega) opener mayElse false body q hq
    refine ⟨p.current :: ts, ?_, .separator _ hkind hbody⟩
    rw [tokens_advance hne, List.cons_append, ← hts]
    simp [tokens, hahead]
  · refine (statement_reads_of ih).bind fun first q ts hq hfirst => ?_
    have hlen := ((settled_tidy.statement p).ok hq).2
    refine (ih q (by omega) _ _ _).bind fun more r us _ hmore => .pure ?_
    rw [List.append_nil]
    exact .statement hfirst hmore

end

theorem block_reads (p : Parser) (opener : Token) (mayElse afterStatement : Bool) :
    Reads p (block opener mayElse afterStatement) Block := by
  generalize hn : p.ahead.length = n
  induction n using Nat.strongRecOn generalizing p opener mayElse afterStatement with
  | _ n ih =>
    subst hn
    exact block_reads_of (fun q hq o m a => ih q.ahead.length hq q o m a rfl) _ _ _

theorem statement_reads (p : Parser) : Reads p statement Statement :=
  statement_reads_of fun q _ => block_reads q

end Parser
end ScriptEngine
