/-
Separators that no statement stands before.

`SpacedBlock` says of a span what `Block` says, and lists the separators whose token before
is not the last one of a statement of the same block.  A statement with blocks has those of
its blocks, and no other statement has a separator in it.

Which separators these are does not depend on the statements that are read.  They are found
by going over the tokens once (`scan`): what matters of the tokens before is whether a
statement can end there, and behind the keyword of a condition how many parentheses are open.
-/
import ScriptEngine.Proofs.Parser.Kinds

namespace ScriptEngine

/-- Whether a statement has no blocks. -/
def Stmt.isSimple : Stmt → Bool
  | .branch .. | .loop .. => false
  | _ => true

namespace Grammar

mutual

/-- A statement, with the separators in its blocks that no statement stands before. -/
inductive SpacedStatement : List Token → Stmt → List Token → Prop where
  | branch {cs bs es condition thenBody elseBody rs qs} (keyword closing : Token) :
      keyword.kind = .if_ → Condition cs condition → SpacedBlock false bs thenBody rs →
      SpacedAlternative es elseBody qs → closing.kind = .end_ →
      SpacedStatement (keyword :: (cs ++ (bs ++ (es ++ [closing]))))
        (.branch keyword.location condition thenBody elseBody) (rs ++ qs)
  | loop {cs bs condition body rs} (keyword closing : Token) :
      keyword.kind = .while_ → Condition cs condition → SpacedBlock false bs body rs →
      closing.kind = .end_ →
      SpacedStatement (keyword :: (cs ++ (bs ++ [closing])))
        (.loop keyword.location condition body) rs
  | simple {ts s} : Statement ts s → s.isSimple = true → SpacedStatement ts s []

inductive SpacedAlternative : List Token → Option (List Stmt) → List Token → Prop where
  | none : SpacedAlternative [] none []
  | some {ts body rs} (keyword : Token) : keyword.kind = .else_ → SpacedBlock false ts body rs →
      SpacedAlternative (keyword :: ts) (some body) rs

/-- The rest of a block, given whether the token before it is the last one of a statement of the
block. -/
inductive SpacedBlock : Bool → List Token → List Stmt → List Token → Prop where
  | nil {afterStatement} : SpacedBlock afterStatement [] [] []
  | separator {ts body rs} (t : Token) : t.kind = .semicolon → SpacedBlock false ts body rs →
      SpacedBlock true (t :: ts) body rs
  | redundant {ts body rs} (t : Token) : t.kind = .semicolon → SpacedBlock false ts body rs →
      SpacedBlock false (t :: ts) body (t :: rs)
  | statement {afterStatement ts us s body rs qs} : SpacedStatement ts s rs →
      SpacedBlock true us body qs → SpacedBlock afterStatement (ts ++ us) (s :: body) (rs ++ qs)

end

/-! ## Going over the tokens -/

/-- What the tokens before a place make of it. -/
inductive Spot where
  /-- No statement ends here. -/
  | fresh
  /-- A statement ends here, or goes on. -/
  | after
  /-- The condition of a statement, with a number of open parentheses. -/
  | condition (depth : Nat)
  deriving DecidableEq, Repr

namespace Spot

/-- The spot behind one more token. -/
def next : Spot → TokenKind → Spot
  | condition depth, kind =>
    match kind with
    | .leftParen => condition (depth + 1)
    | .rightParen => if depth ≤ 1 then fresh else condition (depth - 1)
    | _ => condition depth
  | _, kind =>
    match kind with
    | .if_ | .while_ => condition 0
    | .semicolon | .else_ => fresh
    | _ => after

end Spot

/-- The separators at fresh spots, and the spot behind the last token. -/
def scan : Spot → List Token → List Token × Spot
  | spot, [] => ([], spot)
  | spot, t :: ts =>
    let rest := scan (spot.next t.kind) ts
    (if spot = .fresh ∧ t.kind = .semicolon then t :: rest.1 else rest.1, rest.2)

theorem scan_append {a b c : Spot} {ts us rs qs : List Token} (hts : scan a ts = (rs, b))
    (hus : scan b us = (qs, c)) : scan a (ts ++ us) = (rs ++ qs, c) := by
  induction ts generalizing a rs with
  | nil =>
    cases hts
    exact hus
  | cons t ts ih =>
    obtain ⟨hfound, hlast⟩ := Prod.mk.inj hts
    have hrest := ih (Prod.ext rfl hlast)
    rw [List.cons_append, scan, hrest, ← hfound]
    dsimp only
    split <;> rfl

theorem scan_cons {a b : Spot} {t : Token} {ts rs : List Token} (ht : t.kind ≠ .semicolon)
    (h : scan (a.next t.kind) ts = (rs, b)) : scan a (t :: ts) = (rs, b) := by
  rw [scan, h]
  simp [ht]

/-! A condition is read to the parenthesis that closes it. -/

theorem scan_inside {t : Token} (depth : Nat) (h : t.kind.inExpression = true)
    (ho : t.kind ≠ .leftParen) (hc : t.kind ≠ .rightParen) :
    scan (.condition depth) [t] = ([], .condition depth) := by
  refine scan_cons ?_ ?_
  · rintro hk
    rw [hk] at h
    cases h
  · cases hk : t.kind <;> first | rfl | exact absurd hk ho | exact absurd hk hc

theorem scan_opening {t : Token} (depth : Nat) (h : t.kind = .leftParen) :
    scan (.condition depth) [t] = ([], .condition (depth + 1)) := by
  refine scan_cons (by simp [h]) ?_
  rw [h]
  rfl

theorem scan_closing {t : Token} (depth : Nat) (h : t.kind = .rightParen) :
    scan (.condition (depth + 2)) [t] = ([], .condition (depth + 1)) := by
  refine scan_cons (by simp [h]) ?_
  rw [h]
  rfl

theorem parens_binary {k : TokenKind} {op : BinaryOp} (h : BinaryOp.ofToken? k = some op) :
    k ≠ .leftParen ∧ k ≠ .rightParen := by
  constructor <;> rintro rfl <;> cases h

theorem parens_unary {k : TokenKind} {op : UnaryOp} (h : UnaryOp.ofToken? k = some op) :
    k ≠ .leftParen ∧ k ≠ .rightParen := by
  constructor <;> rintro rfl <;> cases h

theorem scan_kind {t : Token} {kind : TokenKind} (depth : Nat) (h : t.kind = kind)
    (hin : kind.inExpression = true) (ho : kind ≠ .leftParen) (hc : kind ≠ .rightParen) :
    scan (.condition depth) [t] = ([], .condition depth) :=
  scan_inside depth (h ▸ hin) (h ▸ ho) (h ▸ hc)

mutual

theorem Expression.scan_condition (depth : Nat) : ∀ {l : Level} {ts : List Token} {e : Expr},
    Expression l ts e → scan (.condition (depth + 1)) ts = ([], .condition (depth + 1))
  | _, _, _, .next h => h.scan_condition depth
  | _, _, _, .binary _ t _ hl ht hr =>
    scan_append (hl.scan_condition depth) (scan_append (scan_inside _ (inExpression_binary ht)
      (parens_binary ht).1 (parens_binary ht).2) (hr.scan_condition depth))
  | _, _, _, .unary _ t ht he =>
    scan_append (scan_inside _ (inExpression_unary ht) (parens_unary ht).1 (parens_unary ht).2)
      (he.scan_condition depth)
  | _, _, _, .member dot name ho hd hn =>
    scan_append (ho.scan_condition depth)
      (scan_append (scan_kind _ hd rfl (by decide) (by decide))
        (scan_kind _ hn rfl (by decide) (by decide)))
  | _, _, _, .method dot name ho hd hn ha =>
    scan_append (ho.scan_condition depth)
      (scan_append (scan_kind _ hd rfl (by decide) (by decide))
        (scan_append (scan_kind _ hn rfl (by decide) (by decide)) (ha.scan_condition depth)))
  | _, _, _, .number t ht _ => scan_kind _ ht rfl (by decide) (by decide)
  | _, _, _, .string t ht => scan_kind _ ht rfl (by decide) (by decide)
  | _, _, _, .true_ t ht => scan_kind _ ht rfl (by decide) (by decide)
  | _, _, _, .false_ t ht => scan_kind _ ht rfl (by decide) (by decide)
  | _, _, _, .variable t ht => scan_kind _ ht rfl (by decide) (by decide)
  | _, _, _, .call t ht ha =>
    scan_append (scan_kind _ ht rfl (by decide) (by decide)) (ha.scan_condition depth)
  | _, _, _, .group opening closing ho he hc =>
    scan_append (scan_append (scan_opening _ ho) (he.scan_condition (depth + 1)))
      (scan_closing _ hc)

theorem Arguments.scan_condition (depth : Nat) : ∀ {ts : List Token} {args : List Expr},
    Arguments ts args → scan (.condition (depth + 1)) ts = ([], .condition (depth + 1))
  | _, _, .empty opening closing ho hc => scan_append (scan_opening _ ho) (scan_closing _ hc)
  | _, _, .list opening ho hi => scan_append (scan_opening _ ho) (hi.scan_condition depth)

theorem Items.scan_condition (depth : Nat) : ∀ {ts : List Token} {args : List Expr},
    Items ts args → scan (.condition (depth + 2)) ts = ([], .condition (depth + 1))
  | _, _, .last closing he hc =>
    scan_append (he.scan_condition (depth + 1)) (scan_closing _ hc)
  | _, _, .more comma he hc hi =>
    scan_append (he.scan_condition (depth + 1))
      (scan_append (scan_kind _ hc rfl (by decide) (by decide)) (hi.scan_condition depth))

end

theorem Condition.scan {ts : List Token} {e : Expr} (h : Condition ts e) :
    Grammar.scan (.condition 0) ts = ([], .fresh) := by
  cases h with
  | mk opening closing ho he hc =>
    refine scan_append (scan_append (scan_opening 0 ho) (he.scan_condition 0)) ?_
    refine scan_cons (by simp [hc]) ?_
    rw [hc]
    rfl

/-! A statement is read to its last token. -/

/-- The spot in a block, given whether a statement ends there. -/
def spotOf (afterStatement : Bool) : Spot := if afterStatement then .after else .fresh

/-- Whether a token of the kind can stand in a statement without blocks. -/
def inSimple (k : TokenKind) : Prop :=
  k.inExpression = true ∨ k = .print ∨ k = .println ∨ k = .equal

theorem next_simple {k : TokenKind} (afterStatement : Bool) (h : inSimple k) :
    (spotOf afterStatement).next k = .after ∧ k ≠ .semicolon := by
  cases afterStatement <;> cases k <;>
    simp_all [spotOf, Spot.next, inSimple, TokenKind.inExpression]

theorem scan_simple {ts : List Token} (afterStatement : Bool) (hne : ts ≠ [])
    (h : ∀ t ∈ ts, inSimple t.kind) : scan (spotOf afterStatement) ts = ([], .after) := by
  induction ts generalizing afterStatement with
  | nil => exact absurd rfl hne
  | cons t ts ih =>
    obtain ⟨hnext, hsemi⟩ := next_simple afterStatement (h t List.mem_cons_self)
    refine scan_cons hsemi ?_
    rw [hnext]
    cases ts with
    | nil => rfl
    | cons u us => exact ih true (by simp) fun v hv => h v (List.mem_cons_of_mem _ hv)

theorem Statement.simple_kinds {ts : List Token} {s : Stmt} (h : Statement ts s)
    (hs : s.isSimple = true) : ∀ t ∈ ts, inSimple t.kind := by
  have inside : ∀ {us : List Token}, (∀ t ∈ us, t.kind.inExpression = true) →
      ∀ t ∈ us, inSimple t.kind := fun h t ht => .inl (h t ht)
  cases h with
  | branch | loop => cases hs
  | print keyword hk ha =>
    exact List.forall_mem_cons.mpr ⟨.inr (.inl hk), inside ha.kinds⟩
  | println keyword hk ha =>
    exact List.forall_mem_cons.mpr ⟨.inr (.inr (.inl hk)), inside ha.kinds⟩
  | expr he => exact inside he.kinds
  | assign equal ht hk hv | setMember equal ht hk hv =>
    exact List.forall_mem_append.mpr ⟨inside ht.kinds,
      List.forall_mem_cons.mpr ⟨.inr (.inr (.inr hk)), inside hv.kinds⟩⟩

theorem Statement.scan_simple {ts : List Token} {s : Stmt} (h : Statement ts s)
    (hs : s.isSimple = true) (afterStatement : Bool) :
    scan (spotOf afterStatement) ts = ([], .after) := by
  refine Grammar.scan_simple afterStatement ?_ (h.simple_kinds hs)
  rintro rfl
  cases h.place

/-- A keyword that a condition stands behind. -/
theorem scan_keyword {t : Token} {ts rs : List Token} {a : Spot} (afterStatement : Bool)
    (h : t.kind = .if_ ∨ t.kind = .while_) (hts : scan (.condition 0) ts = (rs, a)) :
    scan (spotOf afterStatement) (t :: ts) = (rs, a) := by
  have hnext : (spotOf afterStatement).next t.kind = .condition 0 ∧ t.kind ≠ .semicolon := by
    rcases h with h | h <;> rw [h] <;> cases afterStatement <;> decide
  refine scan_cons hnext.2 ?_
  rw [hnext.1]
  exact hts

theorem scan_end {t : Token} (afterStatement : Bool) (h : t.kind = .end_) :
    scan (spotOf afterStatement) [t] = ([], .after) := by
  refine scan_cons (by simp [h]) ?_
  rw [h]
  cases afterStatement <;> rfl

mutual

theorem SpacedStatement.scanned : ∀ {ts : List Token} {s : Stmt} {rs : List Token},
    SpacedStatement ts s rs → ∀ afterStatement, scan (spotOf afterStatement) ts = (rs, .after)
  | _, _, _, .branch keyword closing hk hc hb ha he, afterStatement => by
    obtain ⟨b, hb⟩ := hb.scanned
    obtain ⟨c, ha⟩ := ha.scanned b
    have hclosing := scan_append ha (scan_end c he)
    rw [List.append_nil] at hclosing
    have hcondition := scan_append hc.scan (scan_append hb hclosing)
    exact scan_keyword afterStatement (.inl hk) hcondition
  | _, _, _, .loop keyword closing hk hc hb he, afterStatement => by
    obtain ⟨b, hb⟩ := hb.scanned
    have hclosing := scan_append hb (scan_end b he)
    rw [List.append_nil] at hclosing
    have hcondition := scan_append hc.scan hclosing
    exact scan_keyword afterStatement (.inr hk) hcondition
  | _, _, _, .simple h hs, afterStatement => h.scan_simple hs afterStatement

theorem SpacedAlternative.scanned : ∀ {ts : List Token} {body : Option (List Stmt)}
    {rs : List Token}, SpacedAlternative ts body rs →
    ∀ afterStatement, ∃ b, scan (spotOf afterStatement) ts = (rs, spotOf b)
  | _, _, _, .none, afterStatement => ⟨afterStatement, rfl⟩
  | _, _, _, .some keyword hk hb, afterStatement => by
    obtain ⟨b, hb⟩ := hb.scanned
    refine ⟨b, scan_cons (by simp [hk]) ?_⟩
    rw [hk]
    cases afterStatement <;> exact hb

theorem SpacedBlock.scanned : ∀ {afterStatement : Bool} {ts : List Token} {body : List Stmt}
    {rs : List Token}, SpacedBlock afterStatement ts body rs →
    ∃ b, scan (spotOf afterStatement) ts = (rs, spotOf b)
  | afterStatement, _, _, _, .nil => ⟨afterStatement, rfl⟩
  | _, _, _, _, .separator t hk hb => by
    obtain ⟨b, hb⟩ := hb.scanned
    refine ⟨b, ?_⟩
    rw [scan, hk, show (spotOf true).next .semicolon = spotOf false from rfl, hb]
    rfl
  | _, _, _, _, .redundant t hk hb => by
    obtain ⟨b, hb⟩ := hb.scanned
    refine ⟨b, ?_⟩
    rw [scan, hk, show (spotOf false).next .semicolon = spotOf false from rfl, hb]
    rfl
  | afterStatement, _, _, _, .statement hs hb => by
    obtain ⟨b, hb⟩ := hb.scanned
    exact ⟨b, scan_append (hs.scanned afterStatement) hb⟩

end

/-- The tokens alone decide which separators no statement stands before. -/
theorem SpacedBlock.unique {afterStatement : Bool} {ts rs qs : List Token} {body other : List Stmt}
    (h : SpacedBlock afterStatement ts body rs) (h' : SpacedBlock afterStatement ts other qs) :
    rs = qs := by
  obtain ⟨b, hb⟩ := h.scanned
  obtain ⟨c, hc⟩ := h'.scanned
  exact congrArg Prod.fst (hb.symm.trans hc)

end Grammar
end ScriptEngine
