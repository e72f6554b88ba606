/-
Quoted text tells the text.

Every character is written inside quotes as an escape, as its number, or as itself, and no written
form is the beginning of another (`Quoted.unique`).  So a text is read back from its quoted form
one character after the other.  A quoted text never breaks a line.
-/
import ScriptEngine.Proofs.Runs
import ScriptEngine.Text.Quoted

namespace ScriptEngine
namespace Text

/-! ## Numbers in base sixteen -/

/-- The digits of a number are written by characters of their own. -/
theorem hexadecimal_digits (n : Nat) : ∃ ds : List Nat, (∀ d ∈ ds, d < 16) ∧
    (hexadecimal n).toList = ds.map Nat.digitChar ∧ ds.foldl (fun a d => 16 * a + d) 0 = n := by
  rw [hexadecimal, String.toList_ofList]
  induction n using Nat.strongRecOn with
  | ind n ih =>
    by_cases hlt : n < 16
    · exact ⟨[n], by simpa using hlt, by simp [Nat.toDigits_of_lt_base hlt], by simp⟩
    · obtain ⟨ds, hds, hdigits, hvalue⟩ := ih (n / 16) (by omega)
      refine ⟨ds ++ [n % 16], ?_, ?_, ?_⟩
      · intro d hd
        rcases List.mem_append.mp hd with hd | hd
        · exact hds d hd
        · rw [List.mem_singleton.mp hd]
          exact Nat.mod_lt n (by decide)
      · rw [Nat.toDigits_of_base_le (by decide) (Nat.le_of_not_lt hlt), hdigits, List.map_append,
          List.map_singleton]
      · rw [List.foldl_append, hvalue, List.foldl_cons, List.foldl_nil]
        omega

theorem digitChar_cases : ∀ d < 16, Nat.digitChar d ≠ '\x7d' ∧ Nat.digitChar d ≠ '\n' ∧
    ∀ e < 16, Nat.digitChar d = Nat.digitChar e → d = e := by
  decide

theorem mem_hexadecimal {n : Nat} {c : Char} (hc : c ∈ (hexadecimal n).toList) :
    c ≠ '\x7d' ∧ c ≠ '\n' := by
  obtain ⟨ds, hds, hdigits, -⟩ := hexadecimal_digits n
  rw [hdigits] at hc
  obtain ⟨d, hd, rfl⟩ := List.mem_map.mp hc
  obtain ⟨hbrace, hnewline, -⟩ := digitChar_cases d (hds d hd)
  exact ⟨hbrace, hnewline⟩

theorem digits_unique {ds es : List Nat} (hds : ∀ d ∈ ds, d < 16) (hes : ∀ e ∈ es, e < 16)
    (h : ds.map Nat.digitChar = es.map Nat.digitChar) : ds = es := by
  induction ds generalizing es with
  | nil => exact (List.map_eq_nil_iff.mp h.symm).symm
  | cons d ds ih =>
    cases es with
    | nil => cases h
    | cons e es =>
      obtain ⟨hd, hds⟩ := List.forall_mem_cons.mp hds
      obtain ⟨he, hes⟩ := List.forall_mem_cons.mp hes
      obtain ⟨hhead, htail⟩ := List.cons.inj h
      rw [(digitChar_cases d hd).2.2 e he hhead, ih hds hes htail]

theorem hexadecimal_injective {n m : Nat} (h : hexadecimal n = hexadecimal m) : n = m := by
  obtain ⟨ds, hds, hdigits, rfl⟩ := hexadecimal_digits n
  obtain ⟨es, hes, hdigits', rfl⟩ := hexadecimal_digits m
  rw [h, hdigits'] at hdigits
  rw [digits_unique hes hds hdigits]

/-! ## Written forms of characters -/

/-- The characters with an escape of two characters, and the second of the two. -/
def escapes : List (Char × Char) :=
  [('\x22', '\x22'), ('\\', '\\'), ('\n', 'n'), ('\r', 'r'), ('\t', 't'), ('\x00', '0')]

/-- The ways to write a character inside quotes. -/
inductive Quoted : Char → List Char → Prop
  | escape {c e} (h : (c, e) ∈ escapes) : Quoted c ['\\', e]
  | number (c) : Quoted c ('\\' :: 'u' :: '\x7b' :: ((hexadecimal c.toNat).toList ++ ['\x7d']))
  | plain {c} (hescape : c ≠ '\\') (hline : c ≠ '\n') : Quoted c [c]

theorem quoteChar_quoted (c : Char) : Quoted c (quoteChar c).toList := by
  unfold quoteChar
  split
  · exact .escape (e := '\x22') (by decide)
  · exact .escape (e := '\\') (by decide)
  · exact .escape (e := 'n') (by decide)
  · exact .escape (e := 'r') (by decide)
  · exact .escape (e := 't') (by decide)
  · exact .escape (e := '0') (by decide)
  · next hback hline _ _ _ =>
    split
    · rw [String.toList_append, String.toList_append]
      exact .number c
    · rw [Char.toString, String.toList_singleton]
      exact .plain hback hline

/-- No written form is the beginning of another. -/
theorem Quoted.unique {c d : Char} {span other rest rest' : List Char} (hc : Quoted c span)
    (hd : Quoted d other) (h : span ++ rest = other ++ rest') : c = d ∧ rest = rest' := by
  have hsecond : ∀ p ∈ escapes, ∀ q ∈ escapes, p.2 = q.2 → p.1 = q.1 := by decide
  have hnumber : ∀ p ∈ escapes, p.2 ≠ 'u' := by decide
  cases hc with
  | escape hescape =>
    cases hd with
    | escape hescape' =>
      obtain ⟨he, hrest⟩ := List.cons.inj (List.cons.inj h).2
      exact ⟨hsecond _ hescape _ hescape' he, hrest⟩
    | number => exact absurd (List.cons.inj (List.cons.inj h).2).1 (hnumber _ hescape)
    | plain hback => exact absurd (List.cons.inj h).1.symm hback
  | number =>
    cases hd with
    | escape hescape => exact absurd (List.cons.inj (List.cons.inj h).2).1.symm (hnumber _ hescape)
    | number =>
      have hdigits : ∀ n : Nat, ∀ x ∈ (hexadecimal n).toList, (x != '\x7d') = true :=
        fun n x hx => bne_iff_ne.mpr (mem_hexadecimal hx).1
      have hclosed : ∀ tail : List Char, ∀ x, ('\x7d' :: tail).head? = some x →
          (x != '\x7d') = false := by
        rintro tail x ⟨⟩
        rfl
      simp only [List.cons_append, List.append_assoc, List.nil_append, List.cons.injEq,
        true_and] at h
      obtain ⟨hsame, hrest⟩ := run_unique (hdigits _) (hdigits _) (hclosed _) (hclosed _) h
      exact ⟨Char.toNat_inj.mp (hexadecimal_injective (String.toList_inj.mp hsame)),
        (List.cons.inj hrest).2⟩
    | plain hback => exact absurd (List.cons.inj h).1.symm hback
  | plain hback =>
    cases hd with
    | escape => exact absurd (List.cons.inj h).1 hback
    | number => exact absurd (List.cons.inj h).1 hback
    | plain => exact List.cons.inj h

theorem Quoted.ne_nil {c : Char} {span : List Char} (h : Quoted c span) : span ≠ [] := by
  cases h <;> exact List.cons_ne_nil _ _

theorem Quoted.newline_notMem {c : Char} {span : List Char} (h : Quoted c span) :
    '\n' ∉ span := by
  have hsecond : ∀ p ∈ escapes, p.2 ≠ '\n' := by decide
  cases h with
  | escape hescape => simpa using (hsecond _ hescape).symm
  | number =>
    have hdigits : '\n' ∉ (hexadecimal c.toNat).toList := fun hmem => (mem_hexadecimal hmem).2 rfl
    simpa using hdigits
  | plain _ hline => simpa using hline.symm

/-! ## Quoted texts -/

theorem quote_toList (text : String) :
    (quote text).toList = '\x22' :: (text.toList.flatMap (fun c => (quoteChar c).toList) ++
      ['\x22']) := by
  rw [quote, String.toList_append, String.toList_append, String.toList_join, List.flatMap_map]
  rfl

theorem flatMap_quoteChar_injective {cs ds : List Char}
    (h : cs.flatMap (fun c => (quoteChar c).toList) = ds.flatMap fun d => (quoteChar d).toList) :
    cs = ds := by
  have hnonempty : ∀ (c : Char) (rest : List Char), (quoteChar c).toList ++ rest ≠ [] :=
    fun c rest => List.append_ne_nil_of_left_ne_nil (quoteChar_quoted c).ne_nil rest
  induction cs generalizing ds with
  | nil =>
    cases ds with
    | nil => rfl
    | cons d ds => exact absurd h.symm (hnonempty d _)
  | cons c cs ih =>
    cases ds with
    | nil => exact absurd h (hnonempty c _)
    | cons d ds =>
      obtain ⟨hhead, htail⟩ := (quoteChar_quoted c).unique (quoteChar_quoted d) h
      rw [hhead, ih htail]

/-- Different texts have different quoted forms. -/
theorem quote_injective {text other : String} (h : quote text = quote other) : text = other := by
  have hlist := congrArg String.toList h
  rw [quote_toList, quote_toList] at hlist
  have hinner := List.append_cancel_right (List.cons.inj hlist).2
  exact String.toList_inj.mp (flatMap_quoteChar_injective hinner)

theorem newline_notMem_quote (text : String) : '\n' ∉ (quote text).toList := by
  rw [quote_toList, List.mem_cons, List.mem_append, List.mem_flatMap]
  rintro (hquote | ⟨c, -, hc⟩ | hquote)
  · cases hquote
  · exact (quoteChar_quoted c).newline_notMem hc
  · cases List.mem_singleton.mp hquote

end Text
end ScriptEngine
