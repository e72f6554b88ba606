/-
Two layouts of one script are parsed side by side.

`Mirrors p q x y` says that what the step `x` does at `p` the step `y` does at `q`, if
`x` succeeds: the results correspond and the parsers behind them are alike again.
The functions of the grammar mirror themselves (`callsIn_mirrored`), by induction on
the steps of the first parser; the second one has enough of them.  Nothing is said
about a step that fails, so what follows is about scripts that parse without an error.

An expression begins at a token that both parsers see (`Alike.together`).  Behind an
expression the second parser may be at a separator; both end the expression there.
-/
import ScriptEngine.Proofs.Parser.Coverage
import ScriptEngine.Proofs.Parser.Layout
import ScriptEngine.Proofs.Syntax.Places

namespace ScriptEngine
namespace Parser

variable {f : Location → Location}

def Mirrors {α : Type} (f : Location → Location) (p q : Parser) (x y : Parse α)
    (R : α → α → Prop) (P : Setting → Nat → Prop) : Prop :=
  ∀ a p', x p = .ok a p' → ∃ b q' σ n, y q = .ok b q' ∧ R a b ∧ P σ n ∧ Alike f σ n p' q'

namespace Mirrors

variable {α β : Type} {p q : Parser} {x y : Parse α} {g h : α → Parse β} {R : α → α → Prop}
  {P : Setting → Nat → Prop} {S : β → β → Prop} {O : Setting → Nat → Prop} {σ : Setting} {n : Nat}

theorem bind (hx : Mirrors f p q x y R P)
    (hg : ∀ a b p' q' σ n, R a b → P σ n → Alike f σ n p' q' → Mirrors f p' q' (g a) (h b) S O) :
    Mirrors f p q (x >>= g) (y >>= h) S O := by
  intro c r hr
  rw [bind_apply] at hr
  split at hr
  · next a p' hp' =>
    obtain ⟨b, q', σ, n, hy, hab, hpost, halike⟩ := hx a p' hp'
    obtain ⟨d, r', hd⟩ := hg a b p' q' σ n hab hpost halike c r hr
    refine ⟨d, r', ?_⟩
    rw [bind_apply, hy]
    exact hd
  · cases hr

theorem get_bind {g h : Parser → Parse β} (hg : Mirrors f p q (g p) (h q) S O) :
    Mirrors f p q (get >>= g) (get >>= h) S O := hg

theorem pure {a b : α} (hp : Alike f σ n p q) (hab : R a b) (hpost : P σ n) :
    Mirrors f p q (pure a) (pure b) R P := by
  intro c r hr
  cases hr
  exact ⟨b, q, σ, n, rfl, hab, hpost, hp⟩

theorem throw {e e' : SyntaxError} : Mirrors f p q (throw e) (throw e' : Parse α) R P := by
  intro a p' h
  cases h

theorem failHere {fault : TokenKind → SyntaxFault} {y : Parse α} :
    Mirrors f p q (failHere fault) y R P := by
  intro a p' h
  cases h

theorem giveUp {y : Parse α} : Mirrors f p q giveUp y R P := by
  intro a p' h
  cases h

theorem ite {c d : Prop} [Decidable c] [Decidable d] {x' y' : Parse α} (hcd : d ↔ c)
    (hx : c → Mirrors f p q x y R P) (hy : ¬c → Mirrors f p q x' y' R P) :
    Mirrors f p q (if c then x else x') (if d then y else y') R P := by
  by_cases hc : c
  · rw [if_pos hc, if_pos (hcd.mpr hc)]
    exact hx hc
  · rw [if_neg hc, if_neg (mt hcd.mp hc)]
    exact hy hc

/-! ## Single tokens -/

/-- A step that sets the counters or adds a warning. -/
theorem modify_bind {u v : Parser → Parser} {g h : PUnit → Parse β}
    (hg : Mirrors f (u p) (v q) (g ⟨⟩) (h ⟨⟩) S O) :
    Mirrors f p q (modify u >>= g) (modify v >>= h) S O := hg

variable (hp : Alike f σ n p q)
include hp

theorem take_bind {g h : Token → Parse β} (hk : p.current.kind ≠ .eof)
    (hkind : q.current.kind = p.current.kind)
    (hg : Alike f (σ.after p.current.kind) n p.advance q.advance →
      Mirrors f p.advance q.advance (g p.current) (h q.current) S O) :
    Mirrors f p q (take >>= g) (take >>= h) S O := hg (hp.take hk hkind).2.2

theorem expect_bind {g h : Token → Parse β} {kind : TokenKind} (he : kind ≠ .eof)
    (hkind : p.check kind = true → q.current.kind = p.current.kind)
    (hg : Alike f (σ.after kind) n p.advance q.advance →
      Mirrors f p.advance q.advance (g p.current) (h q.current) S O) :
    Mirrors f p q (expect kind >>= g) (expect kind >>= h) S O := by
  intro a r hr
  rw [bind_apply] at hr ⊢
  unfold expect at hr ⊢
  by_cases hc : p.check kind = true
  · have hk := current_of_check hc
    have hq : q.check kind = true := by simp [check, hkind hc, hk]
    have halike := (hp.take (by rw [hk]; exact he) (hkind hc)).2.2
    rw [hk] at halike
    rw [if_pos hc] at hr
    rw [if_pos hq]
    exact hg halike a r hr
  · rw [if_neg hc] at hr
    cases hr

theorem eat_bind {g h : Option Token → Parse β} {kind : TokenKind} (he : kind ≠ .eof)
    (hm : kind ≠ .minus) (ho : kind ≠ .leftParen) (hs : kind ≠ .semicolon)
    (found : Alike f (σ.after kind) n p.advance q.advance →
      Mirrors f p.advance q.advance (g (some p.current)) (h (some q.current)) S O)
    (missing : Mirrors f p q (g none) (h none) S O) :
    Mirrors f p q (eat kind >>= g) (eat kind >>= h) S O := by
  have hcheck := hp.check hm ho hs
  intro a r hr
  rw [bind_apply] at hr ⊢
  unfold eat at hr ⊢
  by_cases hc : p.check kind = true
  · have hk := current_of_check hc
    have halike := (hp.take (by rw [hk]; exact he) (hp.together_of_check hm ho hs hc)).2.2
    rw [hk] at halike
    rw [if_pos hc] at hr
    rw [if_pos (hcheck.trans hc)]
    exact found halike a r hr
  · rw [if_neg hc] at hr
    rw [if_neg (by rw [hcheck]; exact hc)]
    exact missing a r hr

theorem memberName (hl : σ.last = .dot) :
    Mirrors f p q memberName memberName (fun name other => other.relocate f = name.relocate f)
      fun τ m => τ = σ.after .identifier ∧ m = n := by
  have hkind := hp.together (by rw [hl]; rfl)
  refine .get_bind (.ite (by simp [check, hkind]) (fun hc => ?_) fun _ => .failHere)
  have hk := current_of_check hc
  have hne : p.current.kind ≠ .eof := by rw [hk]; decide
  obtain ⟨hlexeme, hplace, -⟩ := hp.take hne hkind
  refine take_bind hp hne hkind fun hp => ?_
  rw [hk] at hp
  exact .pure hp (by simp [Ident.relocate, hlexeme, hplace]) ⟨rfl, rfl⟩

end Mirrors

/-! ## The functions of the grammar -/

/-- The expressions are one under the map of places. -/
abbrev SameExpr (f : Location → Location) (e e' : Expr) : Prop := e'.relocate f = e.relocate f

abbrev SameArguments (f : Location → Location) (args args' : List Expr) : Prop :=
  relocateArguments f args' = relocateArguments f args

abbrev SameStmt (f : Location → Location) (s s' : Stmt) : Prop := s'.relocate f = s.relocate f

abbrev SameBody (f : Location → Location) (body body' : List Stmt) : Prop :=
  relocateBlock f body' = relocateBlock f body

theorem sameExpr_mkCall {callee callee' : Ident} {args args' : List Expr}
    (hcallee : callee'.relocate f = callee.relocate f) (hargs : SameArguments f args args') :
    SameExpr f (mkCall callee args) (mkCall callee' args') := by
  have hname : (callee'.relocate f).name = (callee.relocate f).name := by rw [hcallee]
  have hname : callee'.name = callee.name := hname
  unfold mkCall
  rw [hname]
  split
  · simp only [SameExpr, Expr.relocate, hcallee, hargs]
  · simp only [SameExpr, Expr.relocate, hcallee, hargs]

/-- Behind an expression the given parentheses are open. -/
def Behind (ps : List Paren) (σ : Setting) (n : Nat) : Prop :=
  σ.parens = ps ∧ n = σ.nesting ∧ σ.last.ends = true

/-- Between statements no parentheses are open. -/
def Between (σ : Setting) (n : Nat) : Prop := σ.parens = [] ∧ n = 0 ∧ σ.last.admits = true

theorem Between.nesting {σ : Setting} {n : Nat} (h : Between σ n) : n = σ.nesting := by
  rw [h.2.1, Setting.nesting, h.1]
  rfl

theorem Behind.between {σ : Setting} {n : Nat} (h : Behind [] σ n) : Between σ n :=
  ⟨h.1, by rw [h.2.1, Setting.nesting, h.1]; rfl, Last.admits_of_ends h.2.2⟩

/-- Behind the parenthesis that closes a counted one. -/
theorem behind_rightParen {ps : List Paren} {τ : Setting} (h : τ.parens = .group :: ps) :
    Behind ps (τ.after .rightParen) (τ.nesting - 1) := by
  have hparens : (τ.after .rightParen).parens = ps := by simp [Setting.after, h]
  refine ⟨hparens, ?_, rfl⟩
  rw [Setting.nesting, Setting.nesting, hparens, h, List.count_cons_self, Nat.add_sub_cancel]

/-- What every function of a bundle does in one layout, the settled one does in another. -/
structure Calls.Mirrored (f : Location → Location) (c : Calls) : Prop where
  expr : ∀ {σ p q ps} power, Alike f σ σ.nesting p q → σ.parens = ps → σ.last.admits = true →
    q.current.kind = p.current.kind →
    Mirrors f p q (c.expr power) (settled.expr power) (SameExpr f) (Behind ps)
  chain : ∀ {σ p q ps} power {left left'}, Alike f σ σ.nesting p q → σ.parens = ps →
    σ.last.ends = true → SameExpr f left left' →
    Mirrors f p q (c.chain power left) (settled.chain power left') (SameExpr f) (Behind ps)
  operand : ∀ {σ p q ps}, Alike f σ σ.nesting p q → σ.parens = ps → σ.last.admits = true →
    q.current.kind = p.current.kind →
    Mirrors f p q c.operand settled.operand (SameExpr f) (Behind ps)
  arguments : ∀ {σ p q ps}, Alike f σ σ.nesting p q → σ.parens = ps → σ.last.admits = true →
    q.current.kind = p.current.kind →
    Mirrors f p q c.arguments settled.arguments (SameArguments f) (Behind ps)
  items : ∀ {σ p q ps}, Alike f σ σ.nesting p q → σ.parens = .group :: ps →
    σ.last.admits = true → q.current.kind = p.current.kind →
    Mirrors f p q c.items settled.items (SameArguments f)
      fun τ n => τ.parens = ps ∧ n = τ.nesting + 1 ∧ τ.last.ends = true
  statement : ∀ {σ p q n}, Alike f σ n p q → Between σ n → q.current.kind = p.current.kind →
    Mirrors f p q c.statement settled.statement (SameStmt f) Between
  block : ∀ {σ p q n} {opener opener' mayElse afterStatement afterStatement'},
    Alike f σ n p q → Between σ n →
    Mirrors f p q (c.block opener mayElse afterStatement)
      (settled.block opener' mayElse afterStatement') (SameBody f) Between

namespace Calls.Mirrored

variable {c : Calls} {σ : Setting} {p q : Parser} {ps : List Paren} (h : c.Mirrored f)
include h

theorem exprBody (power : Nat) (hp : Alike f σ σ.nesting p q) (hps : σ.parens = ps)
    (hl : σ.last.admits = true) (hkind : q.current.kind = p.current.kind) :
    Mirrors f p q (c.exprBody power) (settled.exprBody power) (SameExpr f) (Behind ps) := by
  refine (h.operand hp hps hl hkind).bind fun left left' p q τ n hleft hpost hp => ?_
  obtain ⟨hparens, rfl, hends⟩ := hpost
  exact h.chain power hp hparens hends hleft

theorem memberBody (power : Nat) {left left' : Expr} (hp : Alike f σ σ.nesting p q)
    (hps : σ.parens = ps) (hl : σ.last = .dot) (hleft : SameExpr f left left') :
    Mirrors f p q
      (do
        let name ← memberName
        if (← get).check .leftParen then
          let args ← c.arguments
          c.chain power (.method left name args)
        else c.chain power (.member left name))
      (do
        let name ← memberName
        if (← get).check .leftParen then
          let args ← settled.arguments
          settled.chain power (.method left' name args)
        else settled.chain power (.member left' name))
      (SameExpr f) (Behind ps) := by
  refine (Mirrors.memberName hp hl).bind fun name name' p q τ n hname hpost hp => ?_
  obtain ⟨rfl, rfl⟩ := hpost
  have hlast : (σ.after .identifier).last = .member := by simp [Setting.after, Last.after, hl]
  have hcheck := hp.check_leftParen hlast
  refine .get_bind (.ite (by rw [hcheck]) (fun hparen => ?_) fun _ => ?_)
  · have hkind : q.current.kind = p.current.kind := by
      rw [current_of_check hparen, current_of_check (hcheck.trans hparen)]
    refine (h.arguments hp hps (by rw [hlast]; rfl) hkind).bind
      fun args args' p q τ n hargs hpost hp => ?_
    obtain ⟨hparens, rfl, hends⟩ := hpost
    refine h.chain power hp hparens hends ?_
    simp only [SameExpr, Expr.relocate, hname, hleft, hargs]
  · refine h.chain power hp hps (by rw [hlast]; rfl) ?_
    simp only [SameExpr, Expr.relocate, hname, hleft]

theorem chainBody (power : Nat) {left left' : Expr} (hp : Alike f σ σ.nesting p q)
    (hps : σ.parens = ps) (hl : σ.last.ends = true) (hleft : SameExpr f left left') :
    Mirrors f p q (c.chainBody power left) (settled.chainBody power left') (SameExpr f)
      (Behind ps) := by
  have stop : Mirrors f p q (pure left) (pure left') (SameExpr f) (Behind ps) :=
    .pure hp hleft ⟨hps, rfl, hl⟩
  apply Mirrors.get_bind
  by_cases hkind : q.current.kind = p.current.kind
  · refine .ite (by simp [check, hkind]) (fun hdot => .ite Iff.rfl (fun _ => stop) fun _ => ?_)
      fun hdot => ?_
    · have hk := current_of_check hdot
      refine .take_bind hp (by simp [hk]) hkind fun hp => ?_
      rw [hk] at hp
      exact h.memberBody power hp hps rfl hleft
    · rw [hkind]
      cases hop : BinaryOp.ofToken? p.current.kind with
      | none => exact stop
      | some op =>
        have hk : p.current.kind ≠ .eof := by
          intro hk
          rw [hk] at hop
          cases hop
        have hline : op = .sub → q.atLineStart = p.atLineStart := by
          rintro rfl
          have hminus : p.current.kind = .minus := by
            revert hop
            cases p.current.kind <;> simp [BinaryOp.ofToken?]
          exact hp.atLineStart hk hkind (.inl ⟨hminus, hl⟩)
        refine .ite ?_ (fun _ => stop) fun _ => .ite Iff.rfl (fun _ => stop) fun _ => ?_
        · constructor <;> rintro ⟨rfl, hstart⟩
          · exact ⟨rfl, (hline rfl).symm.trans hstart⟩
          · exact ⟨rfl, (hline rfl).trans hstart⟩
        · refine .take_bind hp hk hkind fun hp => ?_
          rw [Setting.after_operator hop] at hp
          refine (h.expr _ hp hps rfl (hp.together rfl)).bind
            fun right right' p q τ n hright hpost hp => ?_
          obtain ⟨hparens, rfl, hends⟩ := hpost
          refine h.chain power hp hparens hends ?_
          simp only [SameExpr, Expr.relocate, hleft, hright]
  · -- the first parser sees a token that begins a statement, the second one a separator
    obtain ⟨hsemi, hbegins, -⟩ := hp.separated hkind
    have hstart := hp.atLineStart_of_separated hkind
    rcases hbegins.kind with hk | hk
    · simpa [check, hk, hsemi, BinaryOp.ofToken?, hstart] using stop
    · simpa [check, hk, hsemi, BinaryOp.ofToken?] using stop

theorem nameBody {callee callee' : Ident} (hp : Alike f σ σ.nesting p q) (hps : σ.parens = ps)
    (hl : σ.last = .name) (hcallee : callee'.relocate f = callee.relocate f) :
    Mirrors f p q
      (do
        let next ← get
        if next.check .leftParen ∧ ¬ next.atLineStart then
          let args ← c.arguments
          pure (mkCall callee args)
        else pure (.variable callee))
      (do
        let next ← get
        if next.check .leftParen ∧ ¬ next.atLineStart then
          let args ← settled.arguments
          pure (mkCall callee' args)
        else pure (.variable callee'))
      (SameExpr f) (Behind ps) := by
  have hcall : (q.check .leftParen = true ∧ ¬ q.atLineStart = true) ↔
      (p.check .leftParen = true ∧ ¬ p.atLineStart = true) := by
    by_cases hkind : q.current.kind = p.current.kind
    · by_cases hparen : p.current.kind = .leftParen
      · have hline := hp.atLineStart (by rw [hparen]; decide) hkind (.inr ⟨hparen, hl⟩)
        simp [check, hkind, hline]
      · simp [check, hkind, hparen]
    · have hsemi := (hp.separated hkind).1
      have hstart := hp.atLineStart_of_separated hkind
      simp [check, hsemi, hstart]
  refine .get_bind (.ite hcall (fun hc => ?_) fun _ => ?_)
  · have hkind : q.current.kind = p.current.kind := by
      rw [current_of_check hc.1, current_of_check (hcall.mpr hc).1]
    refine (h.arguments hp hps (by rw [hl]; rfl) hkind).bind
      fun args args' p q τ n hargs hpost hp => ?_
    exact .pure hp (sameExpr_mkCall hcallee hargs) hpost
  · exact .pure hp (by simp only [SameExpr, Expr.relocate, hcallee]) ⟨hps, rfl, by rw [hl]; rfl⟩

theorem groupBody (hp : Alike f σ σ.nesting p q) (hps : σ.parens = .group :: ps)
    (hl : σ.last = .other) :
    Mirrors f p q
      (do
        let inner ← c.expr 0
        let _ ← expect .rightParen
        leaveParens
        pure inner)
      (do
        let inner ← settled.expr 0
        let _ ← expect .rightParen
        leaveParens
        pure inner)
      (SameExpr f) (Behind ps) := by
  refine (h.expr 0 hp hps (by rw [hl]; rfl) (hp.together (by rw [hl]; rfl))).bind
    fun inner inner' p q τ n hinner hpost hp => ?_
  obtain ⟨hparens, rfl, -⟩ := hpost
  refine .expect_bind hp (by decide) (hp.together_of_check (by decide) (by decide) (by decide))
    fun hp => ?_
  exact .modify_bind (.pure hp.leaveParens hinner (behind_rightParen hparens))

theorem operandBody (hp : Alike f σ σ.nesting p q) (hps : σ.parens = ps)
    (hl : σ.last.admits = true) (hkind : q.current.kind = p.current.kind) :
    Mirrors f p q c.operandBody settled.operandBody (SameExpr f) (Behind ps) := by
  apply Mirrors.get_bind
  dsimp only
  rw [hkind]
  by_cases heof : p.current.kind = .eof
  · rw [heof]
    exact .throw
  obtain ⟨hlexeme, hplace, -⟩ := hp.take heof hkind
  have take : ∀ {g h : Token → Parse Expr}, (Alike f (σ.after p.current.kind) σ.nesting
      p.advance q.advance → Mirrors f p.advance q.advance (g p.current) (h q.current)
        (SameExpr f) (Behind ps)) →
      Mirrors f p q (take >>= g) (take >>= h) (SameExpr f) (Behind ps) :=
    fun hg => .take_bind hp heof hkind hg
  rw [hlexeme]
  cases hk : p.current.kind with
  | number =>
    rw [hk] at take
    refine take fun hp => ?_
    split
    · exact .pure hp (by simp only [SameExpr, Expr.relocate, hplace]) ⟨hps, rfl, rfl⟩
    · exact .throw
  | string | true_ | false_ =>
    rw [hk] at take
    exact take fun hp =>
      .pure hp (by simp only [SameExpr, Expr.relocate, hplace]) ⟨hps, rfl, rfl⟩
  | identifier =>
    rw [hk, Setting.after_identifier hl] at take
    exact take fun hp =>
      h.nameBody hp hps rfl (by simp only [Ident.relocate, hplace])
  | leftParen =>
    rw [hk, Setting.after_leftParen hl] at take
    refine take fun hp => .modify_bind ?_
    have hp := hp.enterParens
    rw [← Setting.nesting_group] at hp
    exact h.groupBody hp (congrArg _ hps) rfl
  | minus | not_ =>
    rw [hk] at take
    refine take fun hp => ?_
    refine (h.expr _ hp hps rfl (hp.together rfl)).bind fun e e' p q τ n he hpost hp => ?_
    exact .pure hp (by simp only [SameExpr, Expr.relocate, hplace, he]) hpost
  | eof => exact absurd hk heof
  | _ => exact .failHere

theorem argumentsBody (hp : Alike f σ σ.nesting p q) (hps : σ.parens = ps)
    (hl : σ.last.admits = true) (hkind : q.current.kind = p.current.kind) :
    Mirrors f p q c.argumentsBody settled.argumentsBody (SameArguments f) (Behind ps) := by
  refine .expect_bind hp (by decide) (fun _ => hkind) fun hp => ?_
  rw [Setting.after_leftParen hl] at hp
  refine .eat_bind hp (by decide) (by decide) (by decide) (by decide) (fun hp => ?_) ?_
  · exact .pure hp rfl ⟨hps, rfl, rfl⟩
  · apply Mirrors.modify_bind
    have hp := hp.enterParens
    rw [← Setting.nesting_group] at hp
    refine (h.items hp (congrArg _ hps) rfl (hp.together rfl)).bind
      fun args args' p q τ n hargs hpost hp => ?_
    obtain ⟨hparens, rfl, hends⟩ := hpost
    exact .modify_bind (.pure hp.leaveParens hargs ⟨hparens, rfl, hends⟩)

theorem itemsBody (hp : Alike f σ σ.nesting p q) (hps : σ.parens = .group :: ps)
    (hl : σ.last.admits = true) (hkind : q.current.kind = p.current.kind) :
    Mirrors f p q c.itemsBody settled.itemsBody (SameArguments f)
      fun τ n => τ.parens = ps ∧ n = τ.nesting + 1 ∧ τ.last.ends = true := by
  refine (h.expr 0 hp hps hl hkind).bind fun first first' p q τ n hfirst hpost hp => ?_
  obtain ⟨hparens, rfl, -⟩ := hpost
  refine .eat_bind hp (by decide) (by decide) (by decide) (by decide) (fun hp => ?_) ?_
  · refine (h.items hp hparens rfl (hp.together rfl)).bind
      fun more more' p q υ n hmore hpost hp => ?_
    exact .pure hp (by simp only [SameArguments, relocateArguments, hfirst, hmore]) hpost
  · refine .eat_bind hp (by decide) (by decide) (by decide) (by decide) (fun hp => ?_) .failHere
    refine .pure hp (by simp only [SameArguments, relocateArguments, hfirst]) ⟨?_, ?_, rfl⟩
    · simp [Setting.after, hparens]
    · simp [Setting.after, Setting.nesting, hparens]

theorem condition (hp : Alike f σ 0 p q) (hps : σ.parens = []) (hl : σ.last = .keyword) :
    Mirrors f p q c.condition settled.condition (SameExpr f) Between := by
  have hafter : σ.after .leftParen = ⟨.other, [.condition]⟩ := by
    simp [Setting.after, Last.after, hl, hps]
  refine .expect_bind hp (by decide) (fun _ => hp.together (by rw [hl]; rfl)) fun hp => ?_
  rw [hafter] at hp
  refine (h.expr 0 hp rfl rfl (hp.together rfl)).bind fun e e' p q τ m he hpost hp => ?_
  obtain ⟨hparens, rfl, -⟩ := hpost
  refine .expect_bind hp (by decide) (hp.together_of_check (by decide) (by decide) (by decide))
    fun hp => ?_
  exact .pure hp he ⟨by simp [Setting.after, hparens], by simp [Setting.nesting, hparens], rfl⟩

theorem simple (hp : Alike f σ σ.nesting p q) (hps : σ.parens = [])
    (hl : σ.last.admits = true) (hkind : q.current.kind = p.current.kind) :
    Mirrors f p q c.simple settled.simple (SameStmt f) Between := by
  refine (h.expr 0 hp hps hl hkind).bind fun left left' p q τ n hleft hpost hp => ?_
  have hbetween := hpost.between
  obtain ⟨hparens, rfl, -⟩ := hpost
  refine .eat_bind hp (by decide) (by decide) (by decide) (by decide) (fun hp => ?_)
    (.pure hp (by simp only [SameStmt, Stmt.relocate, hleft]) hbetween)
  refine (h.expr 0 hp hparens rfl (hp.together rfl)).bind
    fun value value' p q υ n hvalue hpost hp => ?_
  split
  · obtain ⟨name, rfl, hname⟩ := Expr.variable_of_relocate hleft
    exact .pure hp (by simp only [SameStmt, Stmt.relocate, hname, hvalue]) hpost.between
  · obtain ⟨object, name, rfl, hobject, hname⟩ := Expr.member_of_relocate hleft
    exact .pure hp (by simp only [SameStmt, Stmt.relocate, hobject, hname, hvalue]) hpost.between
  · intro _ _ hfail
    cases hfail

theorem alternative (opener opener' : Token) {n : Nat} (hp : Alike f σ n p q)
    (hσ : Between σ n) :
    Mirrors f p q (c.alternative opener) (settled.alternative opener')
      (fun body body' => body'.map (relocateBlock f) = body.map (relocateBlock f)) Between := by
  refine .eat_bind hp (by decide) (by decide) (by decide) (by decide) (fun hp => ?_)
    (.pure hp rfl hσ)
  refine (h.block hp ⟨hσ.1, hσ.2.1, rfl⟩).bind fun body body' p q τ n hbody hpost hp => ?_
  exact .pure hp (congrArg some hbody) hpost

theorem branchBody {n : Nat} (hp : Alike f σ n p q) (hσ : Between σ n)
    (hk : p.current.kind = .if_) (hkind : q.current.kind = p.current.kind) :
    Mirrors f p q (c.branchBody p.current) (settled.branchBody q.current) (SameStmt f)
      Between := by
  have heof : p.current.kind ≠ .eof := by rw [hk]; decide
  have hplace := (hp.take heof hkind).2.1
  obtain ⟨hparens, rfl, -⟩ := hσ
  refine .take_bind hp heof hkind fun hp => .modify_bind ?_
  rw [hk] at hp
  refine (h.condition hp.openBlock hparens rfl).bind fun e e' p q τ n he hpost hp => ?_
  refine (h.block hp hpost).bind fun thenBody thenBody' p q τ n hthen hpost hp => ?_
  refine (h.alternative _ _ hp hpost).bind fun elseBody elseBody' p q τ n helse hpost hp => ?_
  refine .expect_bind hp (by decide) (hp.together_of_check (by decide) (by decide) (by decide))
    fun hp => .modify_bind (.modify_bind ?_)
  refine .pure (hp.closeBlock.warn _ _ _ _ _ _) ?_ ⟨hpost.1, hpost.2.1, rfl⟩
  cases elseBody with
  | none =>
    obtain rfl := Option.map_eq_none_iff.mp helse
    simp only [SameStmt, Stmt.relocate, hplace, he, hthen]
  | some body =>
    obtain ⟨body', rfl, hbody⟩ := Option.map_eq_some_iff.mp helse
    simp only [SameStmt, Stmt.relocate, hplace, he, hthen, hbody]

theorem loopBody {n : Nat} (hp : Alike f σ n p q) (hσ : Between σ n)
    (hk : p.current.kind = .while_) (hkind : q.current.kind = p.current.kind) :
    Mirrors f p q (c.loopBody p.current) (settled.loopBody q.current) (SameStmt f) Between := by
  have heof : p.current.kind ≠ .eof := by rw [hk]; decide
  have hplace := (hp.take heof hkind).2.1
  obtain ⟨hparens, rfl, -⟩ := hσ
  refine .take_bind hp heof hkind fun hp => .modify_bind ?_
  rw [hk] at hp
  refine (h.condition hp.openBlock hparens rfl).bind fun e e' p q τ n he hpost hp => ?_
  refine (h.block hp hpost).bind fun body body' p q τ n hbody hpost hp => ?_
  refine .expect_bind hp (by decide) (hp.together_of_check (by decide) (by decide) (by decide))
    fun hp => .modify_bind (.modify_bind ?_)
  refine .pure (hp.closeBlock.warn _ _ _ _ _ _) ?_ ⟨hpost.1, hpost.2.1, rfl⟩
  simp only [SameStmt, Stmt.relocate, hplace, he, hbody]

theorem printBody (newline : Bool) {n : Nat} (hp : Alike f σ n p q) (hσ : Between σ n)
    (hk : p.current.kind = .print ∨ p.current.kind = .println)
    (hkind : q.current.kind = p.current.kind) :
    Mirrors f p q (c.printBody p.current newline) (settled.printBody q.current newline)
      (SameStmt f) Between := by
  have heof : p.current.kind ≠ .eof := by
    rcases hk with hk | hk <;> rw [hk] <;> decide
  have hafter : σ.after p.current.kind = ⟨.other, σ.parens⟩ := by
    rcases hk with hk | hk <;> rw [hk] <;> rfl
  have hplace := (hp.take heof hkind).2.1
  obtain ⟨hparens, rfl, -⟩ := hσ
  refine .take_bind hp heof hkind fun hp => ?_
  rw [hafter, hparens] at hp
  refine (h.arguments hp rfl rfl (hp.together rfl)).bind fun args args' p q τ n hargs hpost hp => ?_
  exact .pure hp (by simp only [SameStmt, Stmt.relocate, hplace, hargs]) hpost.between

theorem statementBody {n : Nat} (hp : Alike f σ n p q) (hσ : Between σ n)
    (hkind : q.current.kind = p.current.kind) :
    Mirrors f p q c.statementBody settled.statementBody (SameStmt f) Between := by
  have hsimple : Mirrors f p q c.simple settled.simple (SameStmt f) Between := by
    rw [hσ.nesting] at hp
    exact h.simple hp hσ.1 hσ.2.2 hkind
  apply Mirrors.get_bind
  dsimp only
  rw [hkind]
  cases hk : p.current.kind with
  | if_ => exact h.branchBody hp hσ hk hkind
  | while_ => exact h.loopBody hp hσ hk hkind
  | print => exact h.printBody false hp hσ (.inl hk) hkind
  | println => exact h.printBody true hp hσ (.inr hk) hkind
  | end_ | else_ => exact .throw
  | _ => exact hsimple

theorem blockBody_together (opener opener' : Token) (mayElse afterStatement afterStatement' : Bool)
    {n : Nat} (hp : Alike f σ n p q) (hσ : Between σ n) (hkind : q.current.kind = p.current.kind) :
    Mirrors f p q (c.blockBody opener mayElse afterStatement)
      (settled.blockBody opener' mayElse afterStatement') (SameBody f) Between := by
  apply Mirrors.get_bind
  refine .ite (by simp [check, hkind]) (fun _ => .pure hp rfl hσ) fun _ =>
    .ite (by simp [check, hkind]) (fun _ => .throw) fun heof =>
    .ite (by simp [check, hkind]) (fun hsemi => ?_) fun _ => ?_
  · have hk := current_of_check hsemi
    have hrest := (hp.take (by rw [hk]; decide) hkind).2.2
    rw [hk] at hrest
    exact .modify_bind (h.block (Alike.separator hrest _ _) ⟨hσ.1, hσ.2.1, rfl⟩)
  · refine (h.statement hp hσ hkind).bind fun first first' p q τ n hfirst hpost hp => ?_
    refine (h.block hp hpost).bind fun more more' p q τ n hmore hpost hp => ?_
    exact .pure hp (by simp only [SameBody, relocateBlock, hfirst, hmore]) hpost

/-- Where the second parser is at a separator, it goes past it first. -/
theorem blockBody (opener opener' : Token) (mayElse afterStatement afterStatement' : Bool)
    {n : Nat} (hp : Alike f σ n p q) (hσ : Between σ n) :
    Mirrors f p q (c.blockBody opener mayElse afterStatement)
      (settled.blockBody opener' mayElse afterStatement') (SameBody f) Between := by
  by_cases hkind : q.current.kind = p.current.kind
  · exact h.blockBody_together opener opener' mayElse afterStatement afterStatement' hp hσ hkind
  · obtain ⟨hsemi, -, -, hrest⟩ := hp.separated hkind
    have hq : settled.blockBody opener' mayElse afterStatement' q =
        settled.blockBody opener' mayElse false (separator afterStatement' q) := by
      rw [← block_eq _ _ false]
      show (if q.check .end_ = true ∨ mayElse = true ∧ q.check .else_ = true then _ else _ :
        Parse (List Stmt)) q = _
      rw [if_neg (by simp [check, hsemi]), if_neg (by simp [check, hsemi]),
        if_pos (by simp [check, hsemi])]
      rfl
    have hpast := Alike.separator_right hrest afterStatement'
    intro body r hr
    rw [hq]
    exact h.blockBody_together opener opener' mayElse afterStatement false hpast
      ⟨hσ.1, hσ.2.1, rfl⟩ (hpast.together rfl) body r hr

end Calls.Mirrored

theorem callsIn_mirrored (n : Nat) : (callsIn n).Mirrored f := by
  induction n with
  | zero => constructor <;> intros <;> exact .giveUp
  | succ n h =>
    constructor
    · intro σ p q ps power
      show _ → _ → _ → _ → Mirrors f p q (exprIn (n + 1) power) (expr power) _ _
      rw [exprIn_succ, expr_eq]
      exact h.exprBody power
    · intro σ p q ps power left left'
      show _ → _ → _ → _ → Mirrors f p q (chainIn (n + 1) power left) (chain power left') _ _
      rw [chainIn_succ, chain_eq]
      exact h.chainBody power
    · intro σ p q ps
      show _ → _ → _ → _ → Mirrors f p q (operandIn (n + 1)) operand _ _
      rw [operandIn_succ, operand_eq]
      exact h.operandBody
    · intro σ p q ps
      show _ → _ → _ → _ → Mirrors f p q (argumentsIn (n + 1)) arguments _ _
      rw [argumentsIn_succ, arguments_eq]
      exact h.argumentsBody
    · intro σ p q ps
      show _ → _ → _ → _ → Mirrors f p q (itemsIn (n + 1)) items _ _
      rw [itemsIn_succ, items_eq]
      exact h.itemsBody
    · intro σ p q m
      show _ → _ → _ → Mirrors f p q (statementIn (n + 1)) statement _ _
      rw [statementIn_succ, statement_eq]
      exact h.statementBody
    · intro σ p q m opener opener' mayElse afterStatement afterStatement'
      show _ → _ → Mirrors f p q (blockIn (n + 1) opener mayElse afterStatement)
        (block opener' mayElse afterStatement') _ _
      rw [blockIn_succ, block_eq]
      exact h.blockBody _ _ _ _ _

theorem statement_mirrored {σ : Setting} {n : Nat} {p q : Parser} (hp : Alike f σ n p q)
    (hσ : Between σ n) (hkind : q.current.kind = p.current.kind) :
    Mirrors f p q statement statement (SameStmt f) Between := by
  intro s p' h
  have hsteps : (callsIn p.budget).statement p = .ok s p' := h
  exact (callsIn_mirrored p.budget).statement hp hσ hkind s p' hsteps

/-! ## Whole scripts -/

section
variable {passes : Nat} {afterStatement : Bool} {p : Parser}

theorem scriptIn_end (h : p.atEnd = true) : scriptIn passes afterStatement p = ([], p) := by
  cases passes with
  | zero => rfl
  | succ passes => rw [scriptIn, if_pos h]

theorem scriptIn_separator (h : p.current.kind = .semicolon) :
    scriptIn (passes + 1) afterStatement p = scriptIn passes false (p.separator afterStatement) := by
  rw [scriptIn, if_neg (by simp [atEnd, check, h]), if_pos (by simp [check, h])]

theorem scriptIn_statement {s : Stmt} {next : Parser} (he : p.current.kind ≠ .eof)
    (hs : p.current.kind ≠ .semicolon) (h : statement p = .ok s next) :
    scriptIn (passes + 1) afterStatement p =
      (s :: (scriptIn passes true next).1, (scriptIn passes true next).2) := by
  rw [scriptIn, if_neg (by simpa [atEnd, check] using he), if_neg (by simpa [check] using hs)]
  simp only [h]

theorem scriptIn_failure {e : SyntaxError} {next : Parser} (he : p.current.kind ≠ .eof)
    (hs : p.current.kind ≠ .semicolon) (h : statement p = .error e next) :
    scriptIn (passes + 1) afterStatement p =
      scriptIn passes false (recover p.current.location e next) := by
  rw [scriptIn, if_neg (by simpa [atEnd, check] using he), if_neg (by simpa [check] using hs)]
  simp only [h]

/-- A statement that does not parse leaves an error behind, which nothing takes back. -/
theorem statement_of_clean (hr : Revealed p) (hs : ∀ s ∈ p.ahead, s.Sound)
    (he : p.current.kind ≠ .eof) (hsemi : p.current.kind ≠ .semicolon)
    (h : (scriptIn (passes + 1) afterStatement p).2.diagnostics.hasErrors = false) :
    ∃ s next, statement p = .ok s next := by
  cases hstatement : statement p with
  | ok s next => exact ⟨s, next, rfl⟩
  | error e next =>
    obtain ⟨hmoves, hinvalid⟩ := (settled_tidy.statement p).error hstatement
    have herror := recover_hasErrors p.current.location (hmoves.revealed hr)
      (fun s hmem => hs s (hmoves.suffix.subset hmem)) hinvalid
    have hlast := (scriptIn_moves passes false _).hasErrors herror
    rw [scriptIn_failure he hsemi hstatement, hlast] at h
    cases h

end

/-- A script that parses without an error in one layout does so in the other, to the same
statements. -/
theorem scriptIn_mirrored {passes passes' : Nat} {afterStatement afterStatement' : Bool}
    {σ : Setting} {n : Nat} {p q : Parser} (hp : Alike f σ n p q) (hσ : Between σ n)
    (hr : Revealed p) (hs : ∀ s ∈ p.ahead, s.Sound) (hn : p.ahead.length ≤ passes)
    (hm : q.ahead.length ≤ passes')
    (h : (scriptIn passes afterStatement p).2.diagnostics.hasErrors = false) :
    (scriptIn passes' afterStatement' q).2.diagnostics.hasErrors = false ∧
      SameBody f (scriptIn passes afterStatement p).1 (scriptIn passes' afterStatement' q).1 := by
  induction passes' generalizing passes afterStatement afterStatement' σ n p q with
  | zero =>
    have hq : q.ahead = [] := List.length_eq_zero_iff.mp (by omega)
    have hp' := hp.ahead.length_le
    rw [hq] at hp'
    have hend : p.atEnd = true := by
      simp [atEnd, check, current, List.length_eq_zero_iff.mp (Nat.le_zero.mp hp'), Token.eof]
    rw [scriptIn_end hend]
    exact ⟨hp.clean, rfl⟩
  | succ passes' ih =>
    by_cases hkind : q.current.kind = p.current.kind
    · by_cases hend : p.current.kind = .eof
      · rw [scriptIn_end (p := p) (by simp [atEnd, check, hend]),
          scriptIn_end (by simp [atEnd, check, hkind, hend])]
        exact ⟨hp.clean, rfl⟩
      · have hlen := length_advance hend
        have hqlen := length_advance (p := q) (by rw [hkind]; exact hend)
        obtain ⟨passes, rfl⟩ : ∃ k, passes = k + 1 := ⟨passes - 1, by omega⟩
        have hrest := (hp.take hend hkind).2.2
        by_cases hsemi : p.current.kind = .semicolon
        · rw [hsemi] at hrest
          have hmoves := separator_moves afterStatement p
          rw [scriptIn_separator hsemi] at h ⊢
          rw [scriptIn_separator (hkind.trans hsemi)]
          exact ih (Alike.separator hrest _ _) ⟨hσ.1, hσ.2.1, rfl⟩ (hmoves.revealed hr)
            (fun s hmem => hs s (hmoves.suffix.subset hmem)) (by rw [separator_ahead]; omega)
            (by rw [separator_ahead]; omega) h
        · obtain ⟨s, p', hstatement⟩ := statement_of_clean hr hs hend hsemi h
          obtain ⟨hmoves, hshort⟩ := (settled_tidy.statement p).ok hstatement
          obtain ⟨s', q', τ, m, hq', hsame, hτ, hrest⟩ :=
            statement_mirrored hp hσ hkind s p' hstatement
          have hqshort := ((settled_tidy.statement q).ok hq').2
          rw [scriptIn_statement hend hsemi hstatement] at h ⊢
          rw [scriptIn_statement (hkind ▸ hend) (hkind ▸ hsemi) hq']
          have hmore : (scriptIn passes' true q').2.diagnostics.hasErrors = false ∧
              SameBody f (scriptIn passes true p').1 (scriptIn passes' true q').1 :=
            ih hrest hτ (hmoves.revealed hr) (fun s hmem => hs s (hmoves.suffix.subset hmem))
              (by omega) (by omega) h
          obtain ⟨hclean, hbody⟩ := hmore
          exact ⟨hclean, by simp only [SameBody, relocateBlock, hsame, hbody]⟩
    · -- the second parser goes past a separator that the first one does not see
      obtain ⟨hsemi, -, -, hrest⟩ := hp.separated hkind
      have hqlen := length_advance (p := q) (by rw [hsemi]; decide)
      rw [scriptIn_separator hsemi]
      exact ih (Alike.separator_right hrest _) ⟨hσ.1, hσ.2.1, rfl⟩ hr hs hn
        (by rw [separator_ahead]; omega) h

theorem parse_mirrored {text other : String}
    (hfollows : Follows f .start 1 1 (TokenStream.ofString text).tokens
      (TokenStream.ofString other).tokens)
    (h : (Script.parse text).2.hasErrors = false) :
    (Script.parse other).2.hasErrors = false ∧
      SameBody f (Script.parse text).1.statements (Script.parse other).1.statements := by
  have halike : Alike f .start 0 (ofTokens (.ofString text)) (ofTokens (.ofString other)) :=
    ⟨hfollows, rfl, rfl, by simp only [ofTokens, hfollows.reveal]; rfl⟩
  exact scriptIn_mirrored halike ⟨rfl, rfl, rfl⟩ (ofTokens_revealed _)
    (TokenStream.ofString_sound text) (Nat.le_refl _) (Nat.le_refl _) h

end Parser
end ScriptEngine
