import ThreeAddress.ControlFlow.Dot
import ThreeAddress.Proofs.ControlFlow.Walks

/-!
The text of a control-flow graph, read back line by line.

Outside of quotes every character stands for itself. Inside, a backslash and the character
behind it are one glyph, and the string ends at the first quote that is not part of such a pair.
Escaping turns each character of a text into at most one glyph, which is never a quote, a line
break or the break `\l` of a label. So the lines of the text are the lines that were written,
and the label of a block falls into its instructions at its breaks, whatever characters the
names and the title have.
-/

namespace ThreeAddress

/-! ### Reading -/

namespace Dot

/-- A part of a quoted string: a character, or a backslash with the character behind it. -/
inductive Glyph
  | char (c : Char)
  | pair (c : Char)
  deriving DecidableEq

/-- The characters that a glyph is written with. -/
def Glyph.raw : Glyph → List Char
  | char c => [c]
  | pair c => ['\\', c]

/-- The character that a glyph stands for. -/
def Glyph.read : Glyph → Char
  | char c => c
  | pair 'n' => '\n'
  | pair c => c

/-- A part of a line: a character outside of quotes, or a quoted string. -/
inductive Token
  | code (c : Char)
  | quoted (body : List Glyph)
  deriving DecidableEq

def Token.raw : Token → List Char
  | code c => [c]
  | quoted body => '"' :: body.flatMap Glyph.raw ++ ['"']

/-- Reads characters, with the glyphs read so far inside of quotes. A string that does not end
cannot be read. -/
def lex : Option (List Glyph) → List Char → Option (List Token)
  | none, [] => some []
  | none, '"' :: cs => lex (some []) cs
  | none, c :: cs => (lex none cs).map (.code c :: ·)
  | some body, '"' :: cs => (lex none cs).map (.quoted body :: ·)
  | some body, '\\' :: c :: cs => lex (some (body ++ [.pair c])) cs
  | some body, c :: cs => lex (some (body ++ [.char c])) cs
  | some _, [] => none

def isBlank (line : List Char) : Bool := line.all Char.isWhitespace

/-- The lines of a text without the blank ones. -/
def lines (text : String) : Option (List (List Token)) :=
  ((text.toList.splitOn '\n').filter (!isBlank ·)).mapM (lex none)

/-- Characters outside of quotes. -/
def bare (s : String) : List Token := s.toList.map .code

/-- Characters inside of quotes that stand for themselves. -/
def plain (s : String) : List Glyph := s.toList.map .char

/-- A line with one quoted string. -/
def quoting (s : String) (body : List Glyph) (t : String) : List Token :=
  bare s ++ .quoted body :: bare t

/-- What stands for a character inside of quotes. -/
def escaped (c : Char) : List Glyph :=
  if c = '\r' then []
  else if c = '\n' then [.pair 'n']
  else if c = '\\' ∨ c = '"' ∨ c = '<' ∨ c = '>' then [.pair c]
  else [.char c]

@[simp] lemma flatMap_raw_bare (s : String) : (bare s).flatMap Token.raw = s.toList := by
  rw [bare, List.flatMap_map]
  exact List.flatMap_singleton' _

@[simp] lemma flatMap_raw_plain (s : String) : (plain s).flatMap Glyph.raw = s.toList := by
  rw [plain, List.flatMap_map]
  exact List.flatMap_singleton' _

@[simp] lemma flatMap_raw_quoting (s t : String) (body : List Glyph) :
    (quoting s body t).flatMap Token.raw =
      s.toList ++ '"' :: body.flatMap Glyph.raw ++ '"' :: t.toList := by
  simp [quoting, Token.raw]

/-! ### Escaping -/

lemma toList_replaceChar (c : Char) (t s : String) :
    (ControlFlow.replaceChar c t s).toList =
      s.toList.flatMap fun d => if d = c then t.toList else [d] := by
  rw [ControlFlow.replaceChar, String.toList_join, List.flatMap_map]
  congr 1
  funext d
  split <;> simp

/-- The six replacements, one after the other, do to a text what `escaped` does to each of its
characters: a backslash that a later one writes is not seen by the first. -/
lemma toList_escape (s : String) :
    (ControlFlow.escape s).toList = (s.toList.flatMap escaped).flatMap Glyph.raw := by
  simp only [ControlFlow.escape, toList_replaceChar, List.flatMap_assoc]
  congr 1
  funext c
  by_cases hback : c = '\\'
  · subst hback; rfl
  by_cases hquote : c = '"'
  · subst hquote; rfl
  by_cases hline : c = '\n'
  · subst hline; rfl
  by_cases hreturn : c = '\r'
  · subst hreturn; rfl
  by_cases hless : c = '<'
  · subst hless; rfl
  by_cases hgreater : c = '>'
  · subst hgreater; rfl
  simp [escaped, Glyph.raw, hback, hquote, hline, hreturn, hless, hgreater]

/-- Reading gives back the text, without its carriage returns. -/
lemma map_read_escaped (cs : List Char) :
    (cs.flatMap escaped).map Glyph.read = cs.filter (· ≠ '\r') := by
  induction cs with
  | nil => rfl
  | cons c cs ih =>
    have hread : (escaped c).map Glyph.read = if c = '\r' then [] else [c] := by
      unfold escaped
      split_ifs with hreturn hline hpair
      · rfl
      · subst hline; rfl
      · rcases hpair with rfl | rfl | rfl | rfl <;> rfl
      · rfl
    rw [List.flatMap_cons, List.map_append, ih, hread, List.filter_cons]
    split_ifs <;> simp_all

/-! ### What can be written -/

/-- Glyphs that can stand in a string on one line. -/
def Glyph.Safe : Glyph → Prop
  | char c => c ≠ '"' ∧ c ≠ '\\' ∧ c ≠ '\n' ∧ c ≠ '\r'
  | pair c => c ≠ '\n' ∧ c ≠ '\r'

/-- Tokens that can stand on a line. -/
def Token.Safe : Token → Prop
  | code c => c ≠ '"' ∧ c ≠ '\n'
  | quoted body => ∀ g ∈ body, g.Safe

lemma safe_escaped {c : Char} {g : Glyph} (h : g ∈ escaped c) : g.Safe ∧ g ≠ .pair 'l' := by
  unfold escaped at h
  split_ifs at h with hreturn hline hpair
  · simp at h
  · obtain rfl := List.mem_singleton.1 h
    exact ⟨⟨by decide, by decide⟩, by decide⟩
  · obtain rfl := List.mem_singleton.1 h
    rcases hpair with rfl | rfl | rfl | rfl <;> exact ⟨⟨by decide, by decide⟩, by decide⟩
  · obtain rfl := List.mem_singleton.1 h
    simp only [not_or] at hpair
    exact ⟨⟨hpair.2.1, hpair.1, hline, hreturn⟩, by simp⟩

/-- A text that stands for itself inside of quotes and outside. -/
def Plain (s : String) : Prop :=
  (s.toList.all fun c => c != '"' && c != '\\' && c != '\n' && c != '\r') = true

instance (s : String) : Decidable (Plain s) := inferInstanceAs (Decidable (_ = true))

lemma plain_iff {s : String} :
    Plain s ↔ ∀ c ∈ s.toList, c ≠ '"' ∧ c ≠ '\\' ∧ c ≠ '\n' ∧ c ≠ '\r' := by
  simp [Plain, and_assoc]

lemma Plain.append {s t : String} (hs : Plain s) (ht : Plain t) : Plain (s ++ t) := by
  rw [Plain, String.toList_append, List.all_append, Bool.and_eq_true]
  exact ⟨hs, ht⟩

lemma Plain.safe_bare {s : String} (h : Plain s) : ∀ t ∈ bare s, t.Safe := by
  intro t ht
  obtain ⟨c, hc, rfl⟩ := List.mem_map.1 ht
  have hchar := plain_iff.1 h c hc
  exact ⟨hchar.1, hchar.2.2.1⟩

lemma Plain.safe_plain {s : String} (h : Plain s) : ∀ g ∈ plain s, g.Safe := by
  intro g hg
  obtain ⟨c, hc, rfl⟩ := List.mem_map.1 hg
  exact plain_iff.1 h c hc

lemma Plain.safe_quoting {s t : String} {body : List Glyph} (hs : Plain s) (ht : Plain t)
    (hbody : ∀ g ∈ body, g.Safe) : ∀ x ∈ quoting s body t, x.Safe := by
  intro x hx
  rcases List.mem_append.1 hx with hx | hx
  · exact hs.safe_bare x hx
  rcases List.mem_cons.1 hx with rfl | hx
  · exact hbody
  · exact ht.safe_bare x hx

lemma plain_blockName (b : BlockId) : Plain (blockName b) := by
  have hletter : Plain "B" := by decide
  refine hletter.append (plain_iff.2 fun c hc => ?_)
  rw [Nat.toString_eq_repr, Nat.toList_repr] at hc
  have hdigit := Nat.isDigit_of_mem_toDigits (by decide) le_rfl hc
  refine ⟨?_, ?_, ?_, ?_⟩ <;> (rintro rfl; exact absurd hdigit (by decide))

/-! ### What is written is read -/

/-- A string is read to its end, whatever comes behind it. -/
lemma lex_body {body : List Glyph} (hbody : ∀ g ∈ body, g.Safe) (before : List Glyph)
    (rest : List Char) :
    lex (some before) (body.flatMap Glyph.raw ++ '"' :: rest) =
      (lex none rest).map (.quoted (before ++ body) :: ·) := by
  induction body generalizing before with
  | nil => simp [lex]
  | cons g body ih =>
    have hrest := ih (fun x hx => hbody x (by simp [hx])) (before ++ [g])
    rw [List.append_assoc, List.singleton_append] at hrest
    have hg := hbody g (by simp)
    cases g with
    | char c =>
      obtain ⟨hquote, hback, -, -⟩ := hg
      simpa [Glyph.raw, lex, hquote, hback] using hrest
    | pair c => simpa [Glyph.raw, lex] using hrest

lemma lex_line {line : List Token} (hline : ∀ t ∈ line, t.Safe) (rest : List Char) :
    lex none (line.flatMap Token.raw ++ rest) = (lex none rest).map (line ++ ·) := by
  induction line with
  | nil => simp
  | cons t line ih =>
    have hrest := ih fun x hx => hline x (by simp [hx])
    rw [List.flatMap_cons, List.append_assoc]
    cases t with
    | code c =>
      have hquote : c ≠ '"' := (hline (.code c) (by simp)).1
      simp [Token.raw, lex, hrest, Function.comp_def]
    | quoted body =>
      have hbody : ∀ g ∈ body, g.Safe := hline (.quoted body) (by simp)
      simp [Token.raw, lex, lex_body hbody, hrest, Function.comp_def]

/-- The lines that a text is written with, each ended by a line break. -/
def Written (text : String) (sheet : List (List Token)) : Prop :=
  text.toList = sheet.flatMap fun line => line.flatMap Token.raw ++ ['\n']

instance (text : String) (sheet : List (List Token)) : Decidable (Written text sheet) :=
  inferInstanceAs (Decidable (text.toList = _))

lemma Written.append {s t : String} {sheet sheet' : List (List Token)} (hs : Written s sheet)
    (ht : Written t sheet') : Written (s ++ t) (sheet ++ sheet') := by
  rw [Written, String.toList_append, hs, ht, List.flatMap_append]

lemma Written.quoting {first text last s t : String} {body : List Glyph}
    (hfirst : first.toList = s.toList ++ ['"']) (htext : text.toList = body.flatMap Glyph.raw)
    (hlast : last.toList = '"' :: t.toList ++ ['\n']) :
    Written (first ++ text ++ last) [quoting s body t] := by
  simp [Written, hfirst, htext, hlast]

lemma Written.join {α : Type} {f : α → String} {line : α → List Token}
    (h : ∀ x, Written (f x) [line x]) (xs : List α) :
    Written (String.join (xs.map f)) (xs.map line) := by
  rw [Written, String.toList_join, List.flatMap_map, List.flatMap_map]
  congr 1
  funext x
  simpa [Written] using h x

lemma splitOn_flatMap {α : Type} [BEq α] [LawfulBEq α] {sep : α} {parts : List (List α)}
    (h : ∀ xs ∈ parts, sep ∉ xs) :
    (parts.flatMap (· ++ [sep])).splitOn sep = parts ++ [[]] := by
  induction parts with
  | nil => simp
  | cons xs parts ih =>
    have hxs : ∀ x ∈ xs, (x == sep) = false := fun x hx => by
      rw [beq_eq_false_iff_ne]
      rintro rfl
      exact h xs (by simp) hx
    rw [List.flatMap_cons, List.append_assoc, List.singleton_append, List.splitOn,
      List.splitOnP_append_cons_of_forall_mem hxs sep (by simp)]
    exact congrArg (xs :: ·) (ih fun ys hys => h ys (by simp [hys]))

lemma Glyph.Safe.unbroken {body : List Glyph} (h : ∀ g ∈ body, g.Safe) :
    '\n' ∉ body.flatMap Glyph.raw ∧ '\r' ∉ body.flatMap Glyph.raw := by
  have hglyph : ∀ c ∈ body.flatMap Glyph.raw, c ≠ '\n' ∧ c ≠ '\r' := by
    intro c hc
    obtain ⟨g, hg, hc⟩ := List.mem_flatMap.1 hc
    have hsafe := h g hg
    cases g with
    | char d =>
      obtain rfl := List.mem_singleton.1 hc
      exact hsafe.2.2
    | pair d =>
      rcases List.mem_cons.1 hc with rfl | hc
      · decide
      · obtain rfl := List.mem_singleton.1 hc
        exact hsafe
  exact ⟨fun hmem => (hglyph _ hmem).1 rfl, fun hmem => (hglyph _ hmem).2 rfl⟩

lemma Token.Safe.unbroken {line : List Token} (h : ∀ t ∈ line, t.Safe) :
    '\n' ∉ line.flatMap Token.raw := by
  intro hmem
  obtain ⟨t, ht, hmem⟩ := List.mem_flatMap.1 hmem
  have hsafe := h t ht
  cases t with
  | code c => exact hsafe.2 (List.mem_singleton.1 hmem).symm
  | quoted body =>
    have hbody := (Glyph.Safe.unbroken hsafe).1
    simp only [Token.raw, List.cons_append, List.mem_cons, List.mem_append, List.not_mem_nil,
      or_false] at hmem
    rcases hmem with hmem | hmem | hmem
    · exact absurd hmem (by decide)
    · exact hbody hmem
    · exact absurd hmem (by decide)

section

variable {text : String} {sheet : List (List Token)} (h : Written text sheet)
  (hsafe : ∀ line ∈ sheet, ∀ t ∈ line, t.Safe)

include h hsafe

/-- Lines are read as they were written. -/
lemma Written.lines_eq : lines text =
    some (sheet.filter fun line => !isBlank (line.flatMap Token.raw)) := by
  have hsplit : text.toList.splitOn '\n' = sheet.map (·.flatMap Token.raw) ++ [[]] := by
    have hraw : text.toList = (sheet.map (·.flatMap Token.raw)).flatMap (· ++ ['\n']) := by
      rw [h, List.flatMap_map]
    rw [hraw, splitOn_flatMap]
    intro raw hraw
    obtain ⟨line, hline, rfl⟩ := List.mem_map.1 hraw
    exact Token.Safe.unbroken (hsafe line hline)
  have hlex : ∀ kept : List (List Token), (∀ line ∈ kept, line ∈ sheet) →
      (kept.map (·.flatMap Token.raw)).mapM (lex none) = some kept := by
    intro kept
    induction kept with
    | nil => intro _; rfl
    | cons line kept ih =>
      intro hkept
      have hline := lex_line (hsafe line (hkept line (by simp))) []
      rw [List.append_nil] at hline
      rw [List.map_cons, List.mapM_cons, hline, ih fun x hx => hkept x (by simp [hx])]
      simp [lex]
  rw [lines, hsplit, List.filter_append, List.filter_map]
  simpa [Function.comp_def, isBlank] using
    hlex (sheet.filter fun line => !isBlank (line.flatMap Token.raw)) fun line hline =>
      (List.mem_filter.1 hline).1

/-- Strings end on the line where they start. -/
lemma Written.lex_eq : lex none text.toList = some (sheet.flatMap (· ++ [.code '\n'])) := by
  rw [h]
  clear h
  induction sheet with
  | nil => simp [lex]
  | cons line sheet ih =>
    rw [List.flatMap_cons, List.append_assoc, lex_line (hsafe line (by simp))]
    simp [lex, ih fun x hx => hsafe x (by simp [hx])]

end

end Dot

/-! ### The lines of a graph -/

namespace FlowGraph

open Dot ControlFlow

/-- The label of a block: its name, then one segment for each instruction. -/
def labelGlyphs (g : FlowGraph) (block : Block) : List Glyph :=
  (plain (g.dotHead block.id) :: (block.instrs.filterMap g.listing.instr?).map fun instr =>
    (g.listing.showAction instr.action).toList.flatMap escaped).flatMap (· ++ [.pair 'l'])

def nodeLine (g : FlowGraph) (block : Block) : List Token :=
  quoting ("    " ++ blockName block.id ++ " [label=") (g.labelGlyphs block)
    (g.dotStyle block.id ++ "];")

def edgeLine (e : Edge) : List Token :=
  quoting ("    " ++ blockName e.source ++ " -> " ++ blockName e.target ++ " [label=")
    (plain (dotKind e.kind).1) (", color=" ++ (dotKind e.kind).2 ++ "];")

def titleLine (title : String) : List Token :=
  quoting "    label=" (plain "CFG: " ++ title.toList.flatMap escaped) ";"

/-- The lines before the blocks. -/
def topLines (title : Option String) : List (List Token) :=
  bare "digraph CFG \x7b" :: title.toList.map titleLine ++
    [bare "    labelloc=t;",
      quoting "    node [shape=box, fontname=" (plain "Courier") ", fontsize=10];",
      quoting "    edge [fontname=" (plain "Courier") ", fontsize=9];"]

lemma written_node (g : FlowGraph) (block : Block) :
    Written (g.dotNode block) [g.nodeLine block] := by
  have hlabel : (g.dotLabel block).toList = (g.labelGlyphs block).flatMap Glyph.raw := by
    simp [dotLabel, labelGlyphs, String.toList_join, toList_escape, List.flatMap_map,
      List.flatMap_assoc, Glyph.raw, Function.comp_def]
  have htext : g.dotNode block = "    " ++ blockName block.id ++ " [label=\"" ++
      g.dotLabel block ++ ("\"" ++ g.dotStyle block.id ++ "];\n") := by
    simp only [dotNode, String.append_assoc]
  rw [htext]
  exact Written.quoting (by simp) hlabel (by simp)

lemma written_edge (e : Edge) : Written (dotEdge e) [edgeLine e] := by
  have htext : dotEdge e = "    " ++ blockName e.source ++ " -> " ++ blockName e.target ++
      " [label=\"" ++ (dotKind e.kind).1 ++ ("\", color=" ++ (dotKind e.kind).2 ++ "];\n") := by
    simp only [dotEdge, String.append_assoc]
  rw [htext]
  exact Written.quoting (by simp) (by simp) (by simp)

lemma written_title (title : Option String) :
    Written (dotTitle title) (title.toList.map titleLine) := by
  cases title with
  | none => rfl
  | some title =>
    -- the quote opens before the words that are put in front of the title
    have hsplit : "    label=\"CFG: " ++ escape title =
        "    label=\"" ++ ("CFG: " ++ escape title) := by
      rw [← String.append_assoc]
      rfl
    have hbody : ("CFG: " ++ escape title).toList =
        (plain "CFG: " ++ title.toList.flatMap escaped).flatMap Glyph.raw := by
      rw [String.toList_append, toList_escape, List.flatMap_append, flatMap_raw_plain]
    change Written ("    label=\"CFG: " ++ escape title ++ "\";\n") [titleLine title]
    rw [hsplit]
    exact Written.quoting (by decide) hbody (by decide)

lemma written_top (title : Option String) :
    Written ("digraph CFG \x7b\n" ++ dotTitle title ++ "    labelloc=t;\n" ++
      "    node [shape=box, fontname=\"Courier\", fontsize=10];\n" ++
      "    edge [fontname=\"Courier\", fontsize=9];\n\n") (topLines title ++ [[]]) := by
  have hhead : Written "digraph CFG \x7b\n" [bare "digraph CFG \x7b"] := by decide
  have hplace : Written "    labelloc=t;\n" [bare "    labelloc=t;"] := by decide
  have hnode : Written "    node [shape=box, fontname=\"Courier\", fontsize=10];\n"
      [quoting "    node [shape=box, fontname=" (plain "Courier") ", fontsize=10];"] := by decide
  have hedge : Written "    edge [fontname=\"Courier\", fontsize=9];\n\n"
      [quoting "    edge [fontname=" (plain "Courier") ", fontsize=9];", []] := by decide
  have htop := (((hhead.append (written_title title)).append hplace).append hnode).append hedge
  simpa [topLines] using htop

/-- All lines of the text but the two blank ones. -/
def dotLines (g : FlowGraph) (title : Option String) : List (List Token) :=
  topLines title ++ g.blocks.toList.map g.nodeLine ++ g.edges.map edgeLine ++ [bare "\x7d"]

/-- The text with its blank lines. -/
def sheet (g : FlowGraph) (title : Option String) : List (List Token) :=
  topLines title ++ [[]] ++ g.blocks.toList.map g.nodeLine ++ [[]] ++ g.edges.map edgeLine ++
    [bare "\x7d"]

lemma written_dot (g : FlowGraph) (title : Option String) :
    Written (g.dot title) (g.sheet title) := by
  have hblank : Written "\n" [[]] := by simp [Written]
  have hclose : Written "\x7d\n" [bare "\x7d"] := by simp [Written]
  exact ((((written_top title).append (.join g.written_node g.blocks.toList)).append hblank).append
    (.join written_edge g.edges)).append hclose

/-! ### No line is broken -/

lemma safe_escape (s : String) : ∀ x ∈ s.toList.flatMap escaped, x.Safe := by
  intro x hx
  obtain ⟨c, -, hx⟩ := List.mem_flatMap.1 hx
  exact (safe_escaped hx).1

lemma plain_head (g : FlowGraph) (b : BlockId) : Plain (g.dotHead b) := by
  have hmark (p : Prop) [Decidable p] (s : String) (hs : Plain s) :
      Plain (if p then s else "") := by
    split
    · exact hs
    · decide
  exact ((plain_blockName b).append (hmark _ _ (by decide))).append
    (hmark _ _ (by decide))

lemma plain_style (g : FlowGraph) (b : BlockId) : Plain (g.dotStyle b) := by
  unfold dotStyle
  split_ifs <;> decide

lemma plain_kind (k : EdgeKind) : Plain (dotKind k).1 ∧ Plain (dotKind k).2 := by
  cases k <;> decide

lemma safe_label (g : FlowGraph) (block : Block) : ∀ x ∈ g.labelGlyphs block, x.Safe := by
  intro x hx
  -- a glyph of a segment, or the break behind it
  obtain ⟨segment, hsegment, hx⟩ := List.mem_flatMap.1 hx
  rcases List.mem_append.1 hx with hx | hx
  · rcases List.mem_cons.1 hsegment with rfl | hsegment
    · exact (g.plain_head block.id).safe_plain x hx
    · obtain ⟨instr, -, rfl⟩ := List.mem_map.1 hsegment
      exact safe_escape _ x hx
  · obtain rfl := List.mem_singleton.1 hx
    exact ⟨by decide, by decide⟩

lemma safe_node (g : FlowGraph) (block : Block) : ∀ x ∈ g.nodeLine block, x.Safe := by
  have hstart : Plain "    " := by decide
  have hlabel : Plain " [label=" := by decide
  have hend : Plain "];" := by decide
  exact Plain.safe_quoting ((hstart.append (plain_blockName _)).append hlabel)
    ((g.plain_style _).append hend) (g.safe_label block)

lemma safe_edge (e : Edge) : ∀ x ∈ edgeLine e, x.Safe := by
  have hstart : Plain "    " := by decide
  have harrow : Plain " -> " := by decide
  have hlabel : Plain " [label=" := by decide
  have hcolor : Plain ", color=" := by decide
  have hend : Plain "];" := by decide
  exact Plain.safe_quoting ((((hstart.append (plain_blockName _)).append harrow).append
    (plain_blockName _)).append hlabel) ((hcolor.append (plain_kind _).2).append hend)
    (plain_kind _).1.safe_plain

lemma safe_top (title : Option String) : ∀ line ∈ topLines title, ∀ x ∈ line, x.Safe := by
  have hfont : ∀ x ∈ plain "Courier", x.Safe := Plain.safe_plain (by decide)
  intro line hline
  rcases List.mem_append.1 hline with hline | hline
  · rcases List.mem_cons.1 hline with rfl | hline
    · exact Plain.safe_bare (by decide)
    · obtain ⟨title, -, rfl⟩ := List.mem_map.1 hline
      refine Plain.safe_quoting (by decide) (by decide) fun x hx => ?_
      rcases List.mem_append.1 hx with hx | hx
      · exact Plain.safe_plain (by decide) x hx
      · exact safe_escape title x hx
  · simp only [List.mem_cons, List.not_mem_nil, or_false] at hline
    rcases hline with rfl | rfl | rfl
    · exact Plain.safe_bare (by decide)
    · exact Plain.safe_quoting (by decide) (by decide) hfont
    · exact Plain.safe_quoting (by decide) (by decide) hfont

lemma safe_sheet (g : FlowGraph) (title : Option String) :
    ∀ line ∈ g.sheet title, ∀ x ∈ line, x.Safe := by
  intro line hline
  simp only [sheet, List.mem_append, List.mem_singleton, List.mem_map] at hline
  rcases hline with ((((hline | rfl) | ⟨block, -, rfl⟩) | rfl) | ⟨e, -, rfl⟩) | rfl
  · exact safe_top title line hline
  · simp
  · exact g.safe_node block
  · simp
  · exact safe_edge e
  · exact Plain.safe_bare (by decide)

lemma visible_dotLines (g : FlowGraph) (title : Option String) :
    ∀ line ∈ g.dotLines title, isBlank (line.flatMap Token.raw) = false := by
  have hsemicolon {line : List Token} (h : ';' ∈ line.flatMap Token.raw) :
      isBlank (line.flatMap Token.raw) = false := List.all_eq_false.2 ⟨';', h, by decide⟩
  intro line hline
  simp only [dotLines, topLines, List.cons_append, List.mem_cons, List.mem_append, List.mem_map,
    List.not_mem_nil, false_or, or_false, List.append_assoc] at hline
  rcases hline with rfl | ⟨title, -, rfl⟩ | rfl | rfl | rfl | ⟨block, -, rfl⟩ | ⟨e, -, rfl⟩ | rfl
  · decide
  · exact hsemicolon (by simp [titleLine])
  · exact hsemicolon (by simp)
  · exact hsemicolon (by simp)
  · exact hsemicolon (by simp)
  · exact hsemicolon (by simp [nodeLine])
  · exact hsemicolon (by simp [edgeLine])
  · decide

lemma filter_sheet (g : FlowGraph) (title : Option String) :
    ((g.sheet title).filter fun line => !isBlank (line.flatMap Token.raw)) = g.dotLines title := by
  have hkept : (g.dotLines title).filter (fun line => !isBlank (line.flatMap Token.raw)) =
      g.dotLines title :=
    List.filter_eq_self.2 fun line hline => by
      rw [g.visible_dotLines title line hline, Bool.not_false]
  rw [← hkept, sheet, dotLines]
  simp only [List.filter_append]
  simp [isBlank]

/-- What the text of a graph says when it is read back. -/
structure ReadsBack (g : FlowGraph) (title : Option String) : Prop where
  lines : Dot.lines (g.dot title) = some (g.dotLines title)
  ids : g.blocks.toList.map (·.id) = List.range g.blockCount
  unbroken : ∃ tokens, lex none (g.dot title).toList = some tokens ∧ ∀ body,
    .quoted body ∈ tokens → '\n' ∉ body.flatMap Glyph.raw ∧ '\r' ∉ body.flatMap Glyph.raw
  segments : ∀ block ∈ g.blocks.toList, ∃ head segments,
    (g.labelGlyphs block).splitOn (.pair 'l') = head :: segments ++ [[]] ∧
    plain (blockName block.id) <+: head ∧
    List.Forall₂ (fun i segment => ∃ instr, g.listing.instr? i = some instr ∧
      segment.map Glyph.read = (g.listing.showAction instr.action).toList.filter (· ≠ '\r'))
      block.instrs segments

/-- A label falls apart at its breaks. -/
lemma splitOn_label (g : FlowGraph) (block : Block) :
    (g.labelGlyphs block).splitOn (.pair 'l') =
      plain (g.dotHead block.id) :: ((block.instrs.filterMap g.listing.instr?).map fun instr =>
        (g.listing.showAction instr.action).toList.flatMap escaped) ++ [[]] := by
  refine splitOn_flatMap fun segment hsegment hmem => ?_
  rcases List.mem_cons.1 hsegment with rfl | hsegment
  · simp [plain] at hmem
  · obtain ⟨instr, -, rfl⟩ := List.mem_map.1 hsegment
    obtain ⟨c, -, hc⟩ := List.mem_flatMap.1 hmem
    exact (safe_escaped hc).2 rfl

lemma plain_append (s t : String) : plain (s ++ t) = plain s ++ plain t := by
  rw [plain, String.toList_append, List.map_append]
  rfl

lemma unbroken_dot (g : FlowGraph) (title : Option String) :
    ∃ tokens, lex none (g.dot title).toList = some tokens ∧ ∀ body,
      .quoted body ∈ tokens → '\n' ∉ body.flatMap Glyph.raw ∧ '\r' ∉ body.flatMap Glyph.raw := by
  refine ⟨_, (g.written_dot title).lex_eq (g.safe_sheet title), fun body hbody => ?_⟩
  obtain ⟨line, hline, hbody⟩ := List.mem_flatMap.1 hbody
  rcases List.mem_append.1 hbody with hbody | hbody
  · exact Glyph.Safe.unbroken (g.safe_sheet title line hline _ hbody)
  · simp at hbody

end FlowGraph

open FlowGraph Dot ControlFlow in
/-- **The text of a graph reads back**: it consists of its lines, whatever the title and the names
in it are. -/
theorem Listing.Reachable.readsBack {l : Listing} (h : l.Reachable) {settings : AnalysisSettings}
    {g : FlowGraph} (hg : FlowGraph.ofListing l settings = .ok g) (title : Option String) :
    g.ReadsBack title := by
  have hc := h.coherent
  obtain ⟨rfl, -⟩ := ofListing_ok hc h.sectioned hg
  have hblocks : (drawn l settings).blocks.toList =
      (List.range l.blockCount).map fun b => Block.ofInstrs l (l.stamped b) := hc.blocks_eq
  refine ⟨?_, ?_, unbroken_dot _ title, fun block hblock => ?_⟩
  · rw [(written_dot _ title).lines_eq (safe_sheet _ title), filter_sheet]
  · have hid : ∀ b ∈ List.range l.blockCount, (Block.ofInstrs l (l.stamped b)).id = b :=
      fun b hb => hc.ofInstrs_id (List.mem_range.1 hb)
    rw [hblocks, List.map_map, blockCount_drawn hc]
    exact (List.map_congr_left hid).trans (List.map_id _)
  · refine ⟨_, _, splitOn_label _ block, ?_, ?_⟩
    · rw [dotHead, plain_append, plain_append, List.append_assoc]
      exact List.prefix_append _ _
    · obtain ⟨b, hb, rfl⟩ := List.mem_map.1 (hblocks ▸ hblock)
      have hcode : (Block.ofInstrs l (l.stamped b)).instrs.filterMap
          (drawn l settings).listing.instr? = l.stamped b := hc.filterMap_ofInstrs b
      rw [hcode]
      refine List.forall₂_map_left_iff.2 (List.forall₂_map_right_iff.2
        (List.forall₂_same.2 fun x hx => ⟨x, ?_, map_read_escaped _⟩))
      obtain ⟨i, hi⟩ := (hc.mem_stamped.1 hx).1
      exact hc.ids hi ▸ hi

/-- A function and a variable with names that hold quotes, breaks and backslashes. -/
def oddNames : Source.Program :=
  .items [.function ⟨"f\"\\", .void, []⟩ (.compound [.decl .int "a\r\n\\l" (some (.int 1))])]

/-- The two backslashes of the label that come from the name are one glyph, so that what follows
them is not a break. -/
theorem Listing.Reachable.readsBack_oddNames : ∃ l g,
    Listing.ofProgram oddNames = .ok l ∧ FlowGraph.ofListing l .standard = .ok g ∧
    g.ReadsBack (some "\"\\") ∧
    String.join (g.blocks.toList.map g.dotNode) =
      "    B0 [label=\"B0 (entry) (exit)\\lf\\\"\\\\:\\la\\n\\\\l0:2:0 = 1\\lreturn\\l\", " ++
        "style=filled, fillcolor=lightgreen];\n" := by
  have hok : ((Listing.ofProgram oddNames).toOption.bind fun l =>
      (FlowGraph.ofListing l .standard).toOption.map fun g =>
        decide (String.join (g.blocks.toList.map g.dotNode) =
          "    B0 [label=\"B0 (entry) (exit)\\lf\\\"\\\\:\\la\\n\\\\l0:2:0 = 1\\lreturn\\l\", " ++
            "style=filled, fillcolor=lightgreen];\n")) = some true := by decide +kernel
  obtain ⟨l, hl, hok⟩ := toOption_bind_eq_some.1 hok
  obtain ⟨g, hg, hok⟩ := toOption_map_eq_some.1 hok
  exact ⟨l, g, hl, hg, Listing.Reachable.readsBack (.lowered hl) hg _, of_decide_eq_true hok⟩

end ThreeAddress
