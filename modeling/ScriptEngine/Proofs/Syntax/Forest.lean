/-
Forests and their outlines.

The lines of an outline are the nodes of a forest, each before its parts and one deeper than what
it is a part of (`Forest.lines`).  The depths tell where the parts of a node end, so the lines
determine the forest (`Forest.lines_unique`), and the written text determines the lines, because
no line holds a newline (`lines_of_text`).
-/
import ScriptEngine.Proofs.Runs
import ScriptEngine.Syntax.Dump

namespace ScriptEngine
namespace Outline

/-! ## Headings -/

/-- Texts that each lead back to what they stand for are different. -/
theorem injective_of_find? {α : Type} {text : α → String} (all : List α)
    (h : ∀ a, all.find? (fun b => text b = text a) = some a) {a b : α} (heq : text a = text b) :
    a = b := by
  have hfound := h a
  rw [heq, h b] at hfound
  exact (Option.some.inj hfound).symm

/-- What a line of an outline stands for. -/
inductive Tag where
  | number | bool | string | identifier | binary | unary | memberGet | methodCall | functionCall
  | constructorCall | assignment | if_ | condition | then_ | else_ | while_ | body | expression
  | memberSet | print
  deriving DecidableEq

namespace Tag

def text : Tag → String
  | number => "Number" | bool => "Bool" | string => "String" | identifier => "Identifier"
  | binary => "Binary" | unary => "Unary" | memberGet => "MemberGet" | methodCall => "MethodCall"
  | functionCall => "FunctionCall" | constructorCall => "ConstructorCall"
  | assignment => "Assignment" | if_ => "If" | condition => "Condition" | then_ => "Then"
  | else_ => "Else" | while_ => "While" | body => "Body" | expression => "Expression"
  | memberSet => "MemberSet" | print => "Print"

def all : List Tag :=
  [number, bool, string, identifier, binary, unary, memberGet, methodCall, functionCall,
   constructorCall, assignment, if_, condition, then_, else_, while_, body, expression, memberSet,
   print]

theorem text_injective {t u : Tag} : t.text = u.text → t = u :=
  injective_of_find? all fun t => by cases t <;> decide

/-- A tag is a word of letters. -/
theorem all_isAlpha_text (t : Tag) : t.text.toList.all Char.isAlpha = true := by
  cases t <;> decide

theorem text_ne_nil (t : Tag) : t.text.toList ≠ [] := by
  cases t <;> decide

theorem isAlpha_of_mem_text (t : Tag) : ∀ c ∈ t.text.toList, c.isAlpha = true :=
  List.all_eq_true.mp t.all_isAlpha_text

end Tag

/-- What a line says: a tag, and for most tags a detail behind it. -/
structure Heading where
  tag : Tag
  detail : Option String

namespace Heading

/-- The text behind the tag. -/
def suffix (h : Heading) : List Char := h.detail.elim [] fun d => ' ' :: d.toList

def words (h : Heading) : String := h.tag.text ++ h.detail.elim "" (" " ++ ·)

theorem words_toList (h : Heading) : h.words.toList = h.tag.text.toList ++ h.suffix := by
  obtain ⟨tag, detail⟩ := h
  rw [words, String.toList_append]
  cases detail with
  | none => rfl
  | some d => rw [suffix, Option.elim, Option.elim, String.toList_append]; rfl

theorem suffix_head (h : Heading) : ∀ c, h.suffix.head? = some c → c.isAlpha = false := by
  intro c hc
  unfold suffix at hc
  cases hdetail : h.detail with
  | none =>
    rw [hdetail] at hc
    cases hc
  | some d =>
    rw [hdetail] at hc
    cases hc
    rfl

theorem words_injective {h k : Heading} (hwords : h.words = k.words) : h = k := by
  have hlist := congrArg String.toList hwords
  rw [words_toList, words_toList] at hlist
  obtain ⟨htag, hsuffix⟩ := run_unique h.tag.isAlpha_of_mem_text k.tag.isAlpha_of_mem_text
    h.suffix_head k.suffix_head hlist
  obtain ⟨tag, detail⟩ := h
  obtain ⟨tag', detail'⟩ := k
  obtain rfl := Tag.text_injective (String.toList_inj.mp htag)
  cases detail with
  | none =>
    cases detail' with
    | none => rfl
    | some d' => cases hsuffix
  | some d =>
    cases detail' with
    | none => cases hsuffix
    | some d' => rw [String.toList_inj.mp (List.cons.inj hsuffix).2]

/-- The detail is on one line. -/
def OneLine (h : Heading) : Prop := ∀ d, h.detail = some d → '\n' ∉ d.toList

theorem OneLine.bare (tag : Tag) : OneLine ⟨tag, none⟩ := nofun

theorem OneLine.detailed {tag : Tag} {d : String} (h : '\n' ∉ d.toList) :
    OneLine ⟨tag, some d⟩ := by
  rintro d ⟨⟩
  exact h

end Heading

/-! ## Forests -/

/-- Nodes next to each other, each with its parts.  It is one type and not a list of trees, so that a
proof about it is one induction. -/
inductive Forest where
  | nil
  | cons (heading : Heading) (parts rest : Forest)

namespace Forest

theorem cons_eq {tag tag' : Tag} {d d' : Option String} {parts parts' rest rest' : Forest}
    (h : cons ⟨tag, d⟩ parts rest = .cons ⟨tag', d'⟩ parts' rest') :
    tag = tag' ∧ d = d' ∧ parts = parts' ∧ rest = rest' := by
  cases h
  exact ⟨rfl, rfl, rfl, rfl⟩

/-- The lines of the nodes, each before those of its parts. -/
def lines (depth : Nat) : Forest → List Line
  | nil => []
  | cons h parts rest => ⟨depth, h.words⟩ :: (parts.lines (depth + 1) ++ rest.lines depth)

/-- Lines that belong to no part of a node at the depth. -/
def Above (depth : Nat) (lines : List Line) : Prop :=
  ∀ line, lines.head? = some line → line.depth < depth

theorem Above.nil (depth : Nat) : Above depth [] := nofun

theorem Above.lines_append {depth : Nat} {more : List Line} (h : Above depth more) (f : Forest) :
    Above (depth + 1) (f.lines depth ++ more) := by
  intro line hline
  cases f with
  | nil => exact Nat.lt_succ_of_lt (h line hline)
  | cons =>
    cases hline
    exact Nat.lt_succ_self depth

/-- The depths tell where a forest ends.  Whatever follows it is allowed, because the parts of a node
are followed by the nodes next to it. -/
theorem lines_unique {f g : Forest} {depth : Nat} {more other : List Line} (hmore : Above depth more)
    (hother : Above depth other) (h : f.lines depth ++ more = g.lines depth ++ other) :
    f = g ∧ more = other := by
  induction f generalizing g depth more other with
  | nil =>
    cases g with
    | nil => exact ⟨rfl, h⟩
    | cons k parts rest =>
      rw [show more = _ from h] at hmore
      exact absurd (hmore _ rfl) (Nat.lt_irrefl depth)
  | cons k parts rest ihparts ihrest =>
    cases g with
    | nil =>
      rw [← show _ = other from h] at hother
      exact absurd (hother _ rfl) (Nat.lt_irrefl depth)
    | cons k' parts' rest' =>
      obtain ⟨hline, htail⟩ := List.cons.inj h
      obtain rfl := Heading.words_injective (congrArg Line.words hline)
      simp only [List.append_eq, List.append_assoc] at htail
      obtain ⟨rfl, hrest⟩ := ihparts (hmore.lines_append rest) (hother.lines_append rest') htail
      obtain ⟨rfl, hmore⟩ := ihrest hmore hother hrest
      exact ⟨rfl, hmore⟩

/-- The details are each on one line. -/
def OneLine : Forest → Prop
  | nil => True
  | cons h parts rest => h.OneLine ∧ parts.OneLine ∧ rest.OneLine

end Forest

/-! ## Lines -/

/-- The words are on one line and begin with no blank. -/
structure Line.Solid (line : Line) : Prop where
  oneLine : '\n' ∉ line.words.toList
  begins : ∀ c, line.words.toList.head? = some c → c ≠ ' '

theorem Heading.words_solid {h : Heading} (hline : h.OneLine) (depth : Nat) :
    Line.Solid ⟨depth, h.words⟩ := by
  have hletters := h.tag.isAlpha_of_mem_text
  constructor
  case oneLine =>
    rw [words_toList, List.mem_append]
    rintro (hmem | hmem)
    · cases hletters _ hmem
    · obtain ⟨tag, detail⟩ := h
      cases detail with
      | none => cases hmem
      | some d =>
        rcases List.mem_cons.mp hmem with hblank | hmem
        · cases hblank
        · exact hline d rfl hmem
  case begins =>
    obtain ⟨c, cs, hcs⟩ := List.exists_cons_of_ne_nil h.tag.text_ne_nil
    rw [words_toList, hcs]
    rintro d ⟨⟩ rfl
    rw [hcs] at hletters
    cases hletters _ List.mem_cons_self

theorem Forest.lines_solid {f : Forest} (h : f.OneLine) (depth : Nat) :
    ∀ line ∈ f.lines depth, line.Solid := by
  induction f generalizing depth with
  | nil => exact nofun
  | cons k parts rest ihparts ihrest =>
    obtain ⟨hheading, hparts, hrest⟩ := h
    refine List.forall_mem_cons.mpr ⟨k.words_solid hheading depth, ?_⟩
    exact List.forall_mem_append.mpr ⟨ihparts hparts (depth + 1), ihrest hrest depth⟩

namespace Line

variable {line line' : Line}

theorem text_toList (line : Line) : line.text.toList =
    List.replicate (2 * line.depth) ' ' ++ (line.words.toList ++ ['\n']) := by
  rw [text, String.toList_append, String.toList_append, toList_pushn, List.append_assoc]
  rfl

theorem Solid.bne_newline (h : line.Solid) :
    ∀ c ∈ List.replicate (2 * line.depth) ' ' ++ line.words.toList, (c != '\n') = true := by
  intro c hc
  refine bne_iff_ne.mpr fun hnewline => ?_
  rcases List.mem_append.mp hc with hc | hc
  · rw [List.eq_of_mem_replicate hc] at hnewline
    cases hnewline
  · exact h.oneLine (hnewline ▸ hc)

theorem Solid.head_bne_blank (h : line.Solid) :
    ∀ c, line.words.toList.head? = some c → (c == ' ') = false :=
  fun c hc => beq_eq_false_iff_ne.mpr (h.begins c hc)

/-- A line ends at the first newline. -/
theorem text_unique (h : line.Solid) (h' : line'.Solid) {more other : List Char}
    (heq : line.text.toList ++ more = line'.text.toList ++ other) :
    line = line' ∧ more = other := by
  have hend : ∀ tail : List Char, ∀ c, ('\n' :: tail).head? = some c → (c != '\n') = false := by
    rintro tail c ⟨⟩
    rfl
  have hblanks : ∀ n, ∀ c ∈ List.replicate n ' ', (c == ' ') = true :=
    fun n c hc => beq_iff_eq.mpr (List.eq_of_mem_replicate hc)
  -- The newline ends the blanks with the words, and the first letter ends the blanks.
  simp only [text_toList, List.append_assoc, List.cons_append, List.nil_append] at heq
  rw [← List.append_assoc, ← List.append_assoc] at heq
  obtain ⟨hspan, hrest⟩ := run_unique h.bne_newline h'.bne_newline (hend _) (hend _) heq
  obtain ⟨hdepth, htext⟩ := run_unique (hblanks _) (hblanks _) h.head_bne_blank h'.head_bne_blank
    hspan
  have hlength := congrArg List.length hdepth
  rw [List.length_replicate, List.length_replicate] at hlength
  obtain ⟨depth, words⟩ := line
  obtain ⟨depth', words'⟩ := line'
  obtain rfl : depth = depth' := Nat.eq_of_mul_eq_mul_left (by decide) hlength
  obtain rfl : words = words' := String.toList_inj.mp htext
  exact ⟨rfl, (List.cons.inj hrest).2⟩

theorem text_ne_nil (line : Line) (more : List Char) : line.text.toList ++ more ≠ [] := by
  rw [text_toList]
  simp

end Line

theorem lines_of_text {ls ms : List Line} (hls : ∀ line ∈ ls, line.Solid)
    (hms : ∀ line ∈ ms, line.Solid)
    (h : String.join (ls.map Line.text) = String.join (ms.map Line.text)) : ls = ms := by
  have hlist := congrArg String.toList h
  rw [String.toList_join, String.toList_join, List.flatMap_map, List.flatMap_map] at hlist
  clear h
  induction ls generalizing ms with
  | nil =>
    cases ms with
    | nil => rfl
    | cons m ms => exact absurd hlist.symm (m.text_ne_nil _)
  | cons l ls ih =>
    cases ms with
    | nil => exact absurd hlist (l.text_ne_nil _)
    | cons m ms =>
      obtain ⟨hl, hbehind⟩ := List.forall_mem_cons.mp hls
      obtain ⟨hm, hbehind'⟩ := List.forall_mem_cons.mp hms
      obtain ⟨rfl, hrest⟩ := Line.text_unique hl hm hlist
      rw [ih hbehind hbehind' hrest]

/-- The text of an outline determines the forest. -/
theorem Forest.eq_of_text {f g : Forest} (hf : f.OneLine) (hg : g.OneLine)
    (h : String.join ((f.lines 0).map Line.text) = String.join ((g.lines 0).map Line.text)) :
    f = g := by
  have hlines := lines_of_text (lines_solid hf 0) (lines_solid hg 0) h
  refine (lines_unique (Above.nil 0) (Above.nil 0) ?_).1
  rw [List.append_nil, List.append_nil, hlines]

end Outline
end ScriptEngine
