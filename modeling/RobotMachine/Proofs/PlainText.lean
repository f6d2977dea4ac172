import RobotMachine.Assembly.SourceLine
import RobotMachine.Proofs.Outcome
import RobotMachine.Text.Lines

/-!
# Scanning plain text

A line of words, brackets, commas and spaces has no literal and no comment in it. It is cut at the
commas outside brackets, and what is left between the commas without the blanks are the operands.

* `Fragment.splitOperands_eq_ok`: the operands of such a text.
* `SourceLine.scan_eq_ok`: the clause of such a line.
-/

namespace RobotMachine

/-! ## Characters -/

def isWordChar (c : Char) : Bool :=
  c.isAlphanum || c == '#' || c == '-'

/-- The characters of words and of what stands between them. -/
def isSpacedChar (c : Char) : Bool :=
  isWordChar c || c == ' ' || c == ','

def isPlainChar (c : Char) : Bool :=
  isSpacedChar c || c == '[' || c == ']'

theorem isSpacedChar_of_isWordChar {c : Char} (word : isWordChar c = true) :
    isSpacedChar c = true := by
  simp only [isSpacedChar, word, Bool.true_or]

theorem isPlainChar_of_isSpacedChar {c : Char} (spaced : isSpacedChar c = true) :
    isPlainChar c = true := by
  simp only [isPlainChar, spaced, Bool.true_or]

theorem ne_of_holds {p : Char → Bool} {c d : Char} (holds : p c = true) (fails : p d = false) :
    c ≠ d := by
  intro same
  rw [same, fails] at holds
  cases holds

/-- The letters stand in two ranges. -/
theorem isAlpha_iff_toNat {c : Char} :
    c.isAlpha = true ↔ (0x41 ≤ c.toNat ∧ c.toNat ≤ 0x5a) ∨ (0x61 ≤ c.toNat ∧ c.toNat ≤ 0x7a) := by
  have upper : c.isUpper = true ↔ 0x41 ≤ c.toNat ∧ c.toNat ≤ 0x5a :=
    decide_eq_true_iff.trans (and_congr UInt32.le_iff_toNat_le UInt32.le_iff_toNat_le)
  have lower : c.isLower = true ↔ 0x61 ≤ c.toNat ∧ c.toNat ≤ 0x7a := by
    refine Bool.and_eq_true_iff.trans ?_
    rw [decide_eq_true_iff, decide_eq_true_iff]
    exact and_congr UInt32.le_iff_toNat_le UInt32.le_iff_toNat_le
  exact Bool.or_eq_true_iff.trans (or_congr upper lower)

theorem isDigit_iff_toNat {c : Char} : c.isDigit = true ↔ 0x30 ≤ c.toNat ∧ c.toNat ≤ 0x39 := by
  rw [Char.isDigit, Bool.and_eq_true, decide_eq_true_iff, decide_eq_true_iff]
  exact and_congr UInt32.le_iff_toNat_le UInt32.le_iff_toNat_le

theorem toNat_of_isWordChar {c : Char} (word : isWordChar c = true) :
    0x23 ≤ c.toNat ∧ c.toNat ≤ 0x7a := by
  simp only [isWordChar, Char.isAlphanum, Bool.or_eq_true, beq_iff_eq, isAlpha_iff_toNat,
    isDigit_iff_toNat] at word
  rcases word with (((upper | lower) | digit) | rfl) | rfl
  · omega
  · omega
  · omega
  · decide
  · decide

theorem isBlank_of_isWordChar {c : Char} (word : isWordChar c = true) : isBlank c = false := by
  have range := toNat_of_isWordChar word
  rw [isBlank, List.any_eq_false]
  intro ⟨first, last⟩ listed blank
  simp only [blankRanges, List.mem_cons, Prod.mk.injEq, List.not_mem_nil, or_false] at listed
  rw [Bool.and_eq_true, decide_eq_true_eq, decide_eq_true_eq] at blank
  omega

/-! ## Comments -/

/-- The characters that may open a literal or a comment. -/
def isMark (c : Char) : Bool :=
  c == '"' || c == '\'' || c == ';' || c == '/'

theorem isMark_of_holds {p : Char → Bool} {c : Char} (holds : p c = true)
    (fails : ['"', '\'', ';', '/'].all (fun mark => !p mark) = true) : isMark c = false := by
  simp only [List.all_cons, List.all_nil, Bool.and_true, Bool.and_eq_true,
    Bool.not_eq_true'] at fails
  obtain ⟨noString, noCharacter, noSemicolon, noSlash⟩ := fails
  simp only [isMark, Bool.or_eq_false_iff, beq_eq_false_iff_ne]
  exact ⟨⟨⟨ne_of_holds holds noString, ne_of_holds holds noCharacter⟩,
    ne_of_holds holds noSemicolon⟩, ne_of_holds holds noSlash⟩

theorem isMark_of_isPlainChar {c : Char} (plain : isPlainChar c = true) : isMark c = false :=
  isMark_of_holds plain rfl

/-- The search for a comment passes over text without marks. -/
theorem codeText_append {front : List Char} (noMark : ∀ c ∈ front, isMark c = false)
    (opened column : Nat) (back : List Char) :
    ∃ opened' column', codeText .outside opened column (front ++ back) =
      (codeText .outside opened' column' back).map (front ++ ·) := by
  induction front generalizing opened column with
  | nil =>
    refine ⟨opened, column, ?_⟩
    rw [List.nil_append]
    cases codeText .outside opened column back <;> rfl
  | cons c front ih =>
    obtain ⟨head, tail⟩ := List.forall_mem_cons.mp noMark
    simp only [isMark, Bool.or_eq_false_iff, beq_eq_false_iff_ne] at head
    obtain ⟨⟨⟨noString, noCharacter⟩, noSemicolon⟩, noSlash⟩ := head
    have noComment : ¬(c = ';' ∨ c = '/' ∧ (front ++ back).head? = some '/') :=
      not_or.mpr ⟨noSemicolon, fun comment => noSlash comment.1⟩
    have stays : Quoting.outside.next c = .outside := if_neg (not_or.mpr ⟨noString, noCharacter⟩)
    obtain ⟨opened', column', passed⟩ := ih tail column (column + c.utf8Size)
    refine ⟨opened', column', ?_⟩
    rw [List.cons_append, codeText, if_neg (fun comment => noComment comment.2), stays]
    dsimp only
    rw [if_pos rfl, passed]
    cases codeText .outside opened' column' back <;> rfl

theorem codeText_append_of_plain {front : List Char} (plain : ∀ c ∈ front, isPlainChar c = true)
    (opened column : Nat) (back : List Char) :
    ∃ opened' column', codeText .outside opened column (front ++ back) =
      (codeText .outside opened' column' back).map (front ++ ·) :=
  codeText_append (fun c member => isMark_of_isPlainChar (plain c member)) opened column back

theorem codeText_of_forall {text : List Char} (noMark : ∀ c ∈ text, isMark c = false)
    (opened column : Nat) : codeText .outside opened column text = .ok text := by
  obtain ⟨opened', column', passed⟩ := codeText_append noMark opened column []
  rw [List.append_nil] at passed
  rw [passed, codeText, Except.ok_map, List.append_nil]

theorem codeText_of_plain {text : List Char} (plain : ∀ c ∈ text, isPlainChar c = true)
    (opened column : Nat) : codeText .outside opened column text = .ok text :=
  codeText_of_forall (fun c member => isMark_of_isPlainChar (plain c member)) opened column

/-! ## Commas -/

/-- The search for commas passes over the text, from one depth of brackets to another. -/
def Passes (depth depth' : Nat) (text : List Char) : Prop :=
  ∀ column rest, ∃ column',
    (commaPieces .outside depth column (text ++ rest)).1.text =
        text ++ (commaPieces .outside depth' column' rest).1.text ∧
      (commaPieces .outside depth column (text ++ rest)).2 =
        (commaPieces .outside depth' column' rest).2

theorem Passes.append {depth depth' depth'' : Nat} {front back : List Char}
    (first : Passes depth depth' front) (second : Passes depth' depth'' back) :
    Passes depth depth'' (front ++ back) := by
  intro column rest
  obtain ⟨middle, firstText, firstOthers⟩ := first column (back ++ rest)
  obtain ⟨column', secondText, secondOthers⟩ := second middle rest
  refine ⟨column', ?_, ?_⟩
  · rw [List.append_assoc, firstText, secondText, List.append_assoc]
  · rw [List.append_assoc, firstOthers, secondOthers]

theorem passes_singleton {depth : Nat} {c : Char} (stays : Quoting.outside.next c = .outside)
    (inside : c = ',' → depth ≠ 0) : Passes depth (bracketDepth depth c) [c] := by
  intro column rest
  refine ⟨column + c.utf8Size, ?_⟩
  have noSeparator : ¬(Quoting.outside = .outside ∧ depth = 0 ∧ c = ',') :=
    fun separator => inside separator.2.2 separator.2.1
  rw [List.singleton_append, commaPieces, if_neg noSeparator, stays]
  exact ⟨rfl, rfl⟩

/-- Characters of a class that has no quote and no bracket in it are passed over, and so are commas
between brackets. -/
theorem passes_of_forall {p : Char → Bool} {depth : Nat} {text : List Char}
    (holds : ∀ c ∈ text, p c = true)
    (fails : ['"', '\'', '[', ']'].all (fun mark => !p mark) = true)
    (inside : ∀ c ∈ text, c = ',' → depth ≠ 0) : Passes depth depth text := by
  simp only [List.all_cons, List.all_nil, Bool.and_true, Bool.and_eq_true,
    Bool.not_eq_true'] at fails
  obtain ⟨noString, noCharacter, noOpening, noClosing⟩ := fails
  induction text with
  | nil => exact fun column rest => ⟨column, rfl, rfl⟩
  | cons c text ih =>
    obtain ⟨head, tail⟩ := List.forall_mem_cons.mp holds
    have stays : Quoting.outside.next c = .outside :=
      if_neg (not_or.mpr ⟨ne_of_holds head noString, ne_of_holds head noCharacter⟩)
    have level : bracketDepth depth c = depth := by
      rw [bracketDepth, if_neg (ne_of_holds head noOpening), if_neg (ne_of_holds head noClosing)]
    have first := passes_singleton stays (inside c List.mem_cons_self)
    rw [level] at first
    exact first.append (ih tail fun d member => inside d (List.mem_cons_of_mem c member))

/-! ## Operands -/

/-- A text that an operand can be: a word, or words, commas and spaces between brackets. -/
inductive IsOperandText : List Char → Prop
  | word {text} (nonempty : text ≠ []) (words : ∀ c ∈ text, isWordChar c = true) :
    IsOperandText text
  | bracketed {inner} (spaced : ∀ c ∈ inner, isSpacedChar c = true) :
    IsOperandText ('[' :: (inner ++ [']']))

/-- What one operand can be: a text without a blank at its ends that the search for commas passes
over. -/
structure IsOperand (text : List Char) : Prop where
  passes : Passes 0 0 text
  starts : ∃ c rest, text = c :: rest ∧ isBlank c = false
  ends : ∃ front c, text = front ++ [c] ∧ isBlank c = false

namespace IsOperandText

variable {text : List Char}

theorem isPlainChar (h : IsOperandText text) : ∀ c ∈ text, isPlainChar c = true := by
  intro c member
  cases h with
  | word _ words => exact isPlainChar_of_isSpacedChar (isSpacedChar_of_isWordChar (words c member))
  | bracketed spaced =>
    rcases List.mem_cons.mp member with rfl | member
    · decide
    rcases List.mem_append.mp member with member | member
    · exact isPlainChar_of_isSpacedChar (spaced c member)
    · rw [List.mem_singleton.mp member]
      decide

theorem passes (h : IsOperandText text) : Passes 0 0 text := by
  cases h with
  | word _ words =>
    refine passes_of_forall words (by decide) ?_
    exact fun c member comma => absurd comma (ne_of_holds (words c member) (by decide))
  | bracketed spaced =>
    have opening : Passes 0 1 ['['] := passes_singleton (by decide) (by decide)
    have inner : Passes 1 1 _ := passes_of_forall spaced (by decide) fun _ _ _ => Nat.one_ne_zero
    have closing : Passes 1 0 [']'] := passes_singleton (by decide) (by decide)
    exact opening.append (inner.append closing)

/-- An operand has no blank at its ends. -/
theorem exists_ends (h : IsOperandText text) :
    (∃ c rest, text = c :: rest ∧ isBlank c = false) ∧
      ∃ front c, text = front ++ [c] ∧ isBlank c = false := by
  cases h with
  | word nonempty words =>
    obtain ⟨c, rest, same⟩ := List.exists_cons_of_ne_nil nonempty
    have sameEnd := (List.dropLast_concat_getLast nonempty).symm
    refine ⟨⟨c, rest, same, ?_⟩, _, text.getLast nonempty, sameEnd, ?_⟩
    · exact isBlank_of_isWordChar (words c (by rw [same]; exact List.mem_cons_self))
    · exact isBlank_of_isWordChar (words _ (List.getLast_mem nonempty))
  | @bracketed inner spaced =>
    exact ⟨⟨'[', inner ++ [']'], rfl, by decide⟩, '[' :: inner, ']', rfl, by decide⟩

theorem isOperand (h : IsOperandText text) : IsOperand text :=
  ⟨h.passes, h.exists_ends.1, h.exists_ends.2⟩

end IsOperandText

theorem dropEndWhile_concat {p : Char → Bool} {front : List Char} {c : Char} (stop : p c = false) :
    dropEndWhile p (front ++ [c]) = front ++ [c] := by
  rw [dropEndWhile, List.reverse_concat, List.dropWhile_cons_of_neg (by rw [stop]; nofun),
    List.reverse_cons, List.reverse_reverse]

/-- A text with or without a space in front of it. -/
def IsIndented (text piece : List Char) : Prop :=
  piece = text ∨ piece = ' ' :: text

theorem IsIndented.passes {text piece : List Char} (indented : IsIndented text piece)
    (operand : IsOperand text) : Passes 0 0 piece := by
  rcases indented with rfl | rfl
  · exact operand.passes
  · have space : Passes 0 0 [' '] := passes_singleton (by decide) (by decide)
    exact space.append operand.passes

theorem IsIndented.exists_visible {text piece : List Char} (indented : IsIndented text piece)
    (operand : IsOperand text) : ∃ c ∈ piece, isBlank c = false := by
  obtain ⟨c, rest, starts, visible⟩ := operand.starts
  have member : c ∈ text := by
    rw [starts]
    exact List.mem_cons_self
  rcases indented with rfl | rfl
  · exact ⟨c, member, visible⟩
  · exact ⟨c, List.mem_cons_of_mem _ member, visible⟩

theorem Fragment.toOperand_of_isIndented {text : List Char} {f : Fragment}
    (indented : IsIndented text f.text) (operand : IsOperand text) :
    ∃ g, f.toOperand = .ok g ∧ g.text = text := by
  obtain ⟨c, rest, starts, visible⟩ := operand.starts
  obtain ⟨front, d, ends, visibleEnd⟩ := operand.ends
  have skipped : f.text.dropWhile isBlank = text := by
    have first : text.dropWhile isBlank = text := by
      rw [starts, List.dropWhile_cons_of_neg (by rw [visible]; exact Bool.false_ne_true)]
    rcases indented with same | same
    · rw [same, first]
    · rw [same, List.dropWhile_cons_of_pos (by decide), first]
  have trimmed : f.trim.text = text := by
    rw [trim, dropWhile, skipped, ends, dropEndWhile_concat visibleEnd]
  refine ⟨f.trim, ?_, trimmed⟩
  rw [toOperand, if_neg (by rw [trimmed, starts]; exact List.cons_ne_nil c rest)]

/-! ## Splitting -/

/-- The pieces between the commas of operands. -/
theorem commaPieces_intercalate {piece : List Char} {pieces : List (List Char)}
    (passes : ∀ p ∈ piece :: pieces, Passes 0 0 p) (column : Nat) :
    (commaPieces .outside 0 column ([','].intercalate (piece :: pieces))).1.text = piece ∧
      (commaPieces .outside 0 column ([','].intercalate (piece :: pieces))).2.map Fragment.text =
        pieces := by
  induction pieces generalizing piece column with
  | nil =>
    obtain ⟨column', first, others⟩ := passes piece List.mem_cons_self column []
    rw [List.append_nil] at first others
    rw [List.intercalate_singleton, first, others]
    exact ⟨List.append_nil piece, rfl⟩
  | cons next pieces ih =>
    have passesNext := ih fun p member => passes p (List.mem_cons_of_mem piece member)
    obtain ⟨column', first, others⟩ := passes piece List.mem_cons_self column
      ([','] ++ [','].intercalate (next :: pieces))
    rw [List.intercalate_cons_cons, List.append_assoc, first, others, List.singleton_append,
      commaPieces, if_pos ⟨rfl, rfl, rfl⟩]
    obtain ⟨nextFirst, nextOthers⟩ := passesNext (column' + 1)
    refine ⟨List.append_nil piece, ?_⟩
    rw [List.map_cons, nextFirst, nextOthers]

theorem mem_intercalate_cons {separator piece : List Char} {pieces : List (List Char)} {c : Char}
    (member : c ∈ piece) : c ∈ separator.intercalate (piece :: pieces) := by
  cases pieces with
  | nil =>
    rw [List.intercalate_singleton]
    exact member
  | cons next pieces =>
    rw [List.intercalate_cons_cons, List.append_assoc]
    exact List.mem_append_left _ member

theorem passes_of_isIndented {texts pieces : List (List Char)}
    (operands : ∀ text ∈ texts, IsOperand text)
    (indented : List.Forall₂ IsIndented texts pieces) : ∀ p ∈ pieces, Passes 0 0 p := by
  induction indented with
  | nil => nofun
  | @cons text piece texts pieces head tail ih =>
    intro p member
    rcases List.mem_cons.mp member with rfl | member
    · exact head.passes (operands text List.mem_cons_self)
    · exact ih (fun t member => operands t (List.mem_cons_of_mem text member)) p member

theorem Fragment.mapM_toOperand {texts : List (List Char)} {cut : List Fragment}
    (operands : ∀ text ∈ texts, IsOperand text)
    (indented : List.Forall₂ IsIndented texts (cut.map Fragment.text)) :
    ∃ fragments, cut.mapM toOperand = .ok fragments ∧ fragments.map Fragment.text = texts := by
  induction cut generalizing texts with
  | nil =>
    cases indented
    exact ⟨[], rfl, rfl⟩
  | cons f cut ih =>
    obtain ⟨text, rest, head, tail, rfl⟩ := List.forall₂_cons_right_iff.mp indented
    obtain ⟨g, trimmed, same⟩ := toOperand_of_isIndented head (operands text List.mem_cons_self)
    obtain ⟨fragments, trimmedAll, sameAll⟩ :=
      ih (fun t member => operands t (List.mem_cons_of_mem text member)) tail
    refine ⟨g :: fragments, ?_, ?_⟩
    · rw [List.mapM_cons, trimmed, trimmedAll]
      rfl
    · rw [List.map_cons, same, sameAll]

/-- Operands that are separated by commas are split again. -/
theorem Fragment.splitOperands_eq_ok {texts pieces : List (List Char)}
    (operands : ∀ text ∈ texts, IsOperand text)
    (indented : List.Forall₂ IsIndented texts pieces) (nonempty : texts ≠ []) (column : Nat) :
    ∃ fragments, splitOperands ⟨column, [','].intercalate pieces⟩ = .ok fragments ∧
      fragments.map Fragment.text = texts := by
  cases indented with
  | nil => exact absurd rfl nonempty
  | @cons text piece texts pieces head tail =>
    have passes := passes_of_isIndented operands (.cons head tail)
    have visible : ([','].intercalate (piece :: pieces)).all isBlank = false := by
      obtain ⟨c, member, visible⟩ := head.exists_visible (operands text List.mem_cons_self)
      rw [List.all_eq_false]
      exact ⟨c, mem_intercalate_cons member, by rw [visible]; nofun⟩
    obtain ⟨first, others⟩ := commaPieces_intercalate passes column
    rw [splitOperands, visible]
    refine mapM_toOperand operands ?_
    rw [List.map_cons, first, others]
    exact .cons head tail

/-- One operand is split into itself. -/
theorem Fragment.splitOperands_singleton {text piece : List Char} (operand : IsOperand text)
    (indented : IsIndented text piece) (column : Nat) :
    ∃ column', splitOperands ⟨column, piece⟩ = .ok [⟨column', text⟩] := by
  have operands : ∀ t ∈ [text], IsOperand t := List.forall_mem_singleton.mpr operand
  obtain ⟨fragments, split, same⟩ :=
    splitOperands_eq_ok operands (.cons indented .nil) (List.cons_ne_nil _ _) column
  rw [List.intercalate_singleton] at split
  obtain ⟨f, rfl, rfl⟩ := List.map_eq_singleton_iff.mp same
  exact ⟨f.column, split⟩

/-! ## Lines -/

theorem Fragment.skipBlanks_cons {column : Nat} {c : Char} {text : List Char}
    (visible : isAsciiBlank c = false) :
    Fragment.skipBlanks ⟨column, c :: text⟩ = ⟨column, c :: text⟩ := by
  simp [skipBlanks, dropWhile, visible]

/-- A name as mnemonics are: a letter, then letters and digits. -/
structure IsName (name : List Char) : Prop where
  starts : ∃ c rest, name = c :: rest ∧ c.isAlpha = true
  alphanum : ∀ c ∈ name, c.isAlphanum = true

theorem IsName.of_checks {name : List Char} (starts : name.head?.any Char.isAlpha = true)
    (alphanum : name.all Char.isAlphanum = true) : IsName name := by
  refine ⟨?_, List.all_eq_true.mp alphanum⟩
  cases name with
  | nil => cases starts
  | cons c rest => exact ⟨c, rest, rfl, starts⟩

theorem IsName.head?_ne_dot {name : List Char} (named : IsName name) : name.head? ≠ some '.' := by
  obtain ⟨c, rest, rfl, alpha⟩ := named.starts
  rintro ⟨⟩
  cases alpha

theorem isWordChar_of_isAlphanum {c : Char} (alphanum : c.isAlphanum = true) :
    isWordChar c = true := by
  simp only [isWordChar, alphanum, Bool.true_or]

/-- What labels, mnemonics and directives are. -/
structure IsIdentifier (name : List Char) : Prop where
  starts : ∃ c rest, name = c :: rest ∧ isIdentifierStart c = true
  goesOn : ∀ c ∈ name, isIdentifierChar c = true

theorem isIdentifierChar_of_isAsciiBlank {c : Char} (blank : isAsciiBlank c = true) :
    isIdentifierChar c = false := by
  simp only [isAsciiBlank, Bool.or_eq_true, beq_iff_eq] at blank
  rcases blank with (((rfl | rfl) | rfl) | rfl) | rfl <;> rfl

theorem Fragment.skipBlanks_of_isIdentifier {name : List Char} (identifier : IsIdentifier name)
    (column : Nat) (rest : List Char) :
    Fragment.skipBlanks ⟨column, name ++ rest⟩ = ⟨column, name ++ rest⟩ := by
  obtain ⟨c, more, rfl, -⟩ := identifier.starts
  have goesOn := identifier.goesOn c List.mem_cons_self
  have visible : isAsciiBlank c = false := by
    rw [Bool.eq_false_iff]
    intro blank
    exact ne_of_holds goesOn (isIdentifierChar_of_isAsciiBlank blank) rfl
  exact skipBlanks_cons visible

theorem takeWhile_isIdentifierChar_of_stops {rest : List Char}
    (stops : ∀ c ∈ rest.head?, isIdentifierChar c = false) :
    rest.takeWhile isIdentifierChar = [] ∧ rest.dropWhile isIdentifierChar = rest := by
  cases rest with
  | nil => exact ⟨rfl, rfl⟩
  | cons c text =>
    have differs : ¬isIdentifierChar c = true := by
      rw [stops c rfl]
      nofun
    exact ⟨List.takeWhile_cons_of_neg differs, List.dropWhile_cons_of_neg differs⟩

/-- The identifier at the start of a text in which it does not go on. -/
theorem Fragment.splitIdentifier_of_isIdentifier {name rest : List Char}
    (identifier : IsIdentifier name) (stops : ∀ c ∈ rest.head?, isIdentifierChar c = false)
    (column : Nat) :
    splitIdentifier ⟨column, name ++ rest⟩ =
      .ok (⟨column, name⟩, ⟨column + utf8Length name, rest⟩) := by
  have stop := takeWhile_isIdentifierChar_of_stops stops
  have taken : (name ++ rest).takeWhile isIdentifierChar = name := by
    rw [List.takeWhile_append_of_pos identifier.goesOn, stop.1, List.append_nil]
  have dropped : (name ++ rest).dropWhile isIdentifierChar = rest := by
    rw [List.dropWhile_append_of_pos identifier.goesOn, stop.2]
  obtain ⟨c, more, same, starts⟩ := identifier.starts
  rw [splitIdentifier]
  split
  · next empty =>
    rw [same] at empty
    cases empty
  · next d text nonempty =>
    rw [same] at nonempty
    cases nonempty
    rw [if_pos starts, takeWhile, dropWhile, taken, dropped]

section

variable {name rest : List Char} (named : IsName name)

include named

theorem IsName.isPlainChar : ∀ c ∈ name, isPlainChar c = true := fun c member =>
  isPlainChar_of_isSpacedChar
    (isSpacedChar_of_isWordChar (isWordChar_of_isAlphanum (named.alphanum c member)))

theorem IsName.isIdentifier : IsIdentifier name := by
  refine ⟨?_, fun c member => ?_⟩
  · obtain ⟨c, rest, same, alpha⟩ := named.starts
    refine ⟨c, rest, same, ?_⟩
    rw [isIdentifierStart, alpha]
    rfl
  · rw [isIdentifierChar, named.alphanum c member]
    rfl

/-- A name is the identifier at the start of a text in which it does not go on. -/
theorem Fragment.splitIdentifier_of_isName (stops : ∀ c ∈ rest.head?, isIdentifierChar c = false)
    (column : Nat) :
    splitIdentifier ⟨column, name ++ rest⟩ =
      .ok (⟨column, name⟩, ⟨column + utf8Length name, rest⟩) :=
  splitIdentifier_of_isIdentifier named.isIdentifier stops column

theorem Fragment.skipBlanks_of_isName (column : Nat) :
    Fragment.skipBlanks ⟨column, name ++ rest⟩ = ⟨column, name ++ rest⟩ :=
  skipBlanks_of_isIdentifier named.isIdentifier column rest

theorem IsName.append_ne_nil : name ++ rest ≠ [] := by
  obtain ⟨c, more, same, -⟩ := named.starts
  rw [same]
  nofun

theorem SourceLine.scan_of_isName (behind : rest = [] ∨ ∃ text, rest = ' ' :: text)
    (plain : ∀ c ∈ rest, isPlainChar c = true) :
    scan (name ++ rest) = (Clause.ofHead ⟨1, name⟩ ⟨1 + utf8Length name, rest⟩).map
      fun clause => { clause := some clause } := by
  have plainAll : ∀ c ∈ name ++ rest, RobotMachine.isPlainChar c = true :=
    List.forall_mem_append.mpr ⟨named.isPlainChar, plain⟩
  have code : codeOfLine (name ++ rest) = .ok ⟨1, name ++ rest⟩ := by
    rw [codeOfLine, codeText_of_plain plainAll]
    rfl
  have stops : ∀ c ∈ rest.head?, isIdentifierChar c = false := by
    rcases behind with rfl | ⟨text, rfl⟩
    · nofun
    · rintro c ⟨⟩
      rfl
  have noColon : rest.head? ≠ some ':' := by
    rcases behind with rfl | ⟨text, rfl⟩
    · nofun
    · exact fun colon => absurd (Option.some.inj colon) (by decide)
  rw [scan, code, Except.ok_bind]
  dsimp only
  rw [Fragment.skipBlanks_of_isName named, if_neg named.append_ne_nil,
    Fragment.splitIdentifier_of_isName named stops, Except.ok_bind]
  dsimp only
  rw [if_pos noColon]
  rfl

end

/-- A name with operands behind it, as instructions are written. -/
def clauseText (name : List Char) : List (List Char) → List Char
  | [] => name
  | text :: texts => name ++ ' ' :: [',', ' '].intercalate (text :: texts)

theorem forall_mem_intercalate {separator : List Char} {pieces : List (List Char)}
    {p : Char → Bool} (between : separator.all p = true)
    (each : ∀ piece ∈ pieces, ∀ c ∈ piece, p c = true) :
    ∀ c ∈ separator.intercalate pieces, p c = true := by
  induction pieces with
  | nil => nofun
  | cons piece pieces ih =>
    intro c member
    have head := each piece List.mem_cons_self
    cases pieces with
    | nil =>
      rw [List.intercalate_singleton] at member
      exact head c member
    | cons next pieces =>
      rw [List.intercalate_cons_cons, List.append_assoc] at member
      rcases List.mem_append.mp member with inHead | member
      · exact head c inHead
      rcases List.mem_append.mp member with inSeparator | inTail
      · exact List.all_eq_true.mp between c inSeparator
      · exact ih (fun t listed => each t (List.mem_cons_of_mem piece listed)) c inTail

theorem forall_mem_clauseText {name : List Char} {texts : List (List Char)} {p : Char → Bool}
    (between : [',', ' '].all p = true) (inName : ∀ c ∈ name, p c = true)
    (each : ∀ text ∈ texts, ∀ c ∈ text, p c = true) : ∀ c ∈ clauseText name texts, p c = true := by
  cases texts with
  | nil => exact inName
  | cons text texts =>
    have space : p ' ' = true := List.all_eq_true.mp between ' ' (by decide)
    exact List.forall_mem_append.mpr
      ⟨inName, List.forall_mem_cons.mpr ⟨space, forall_mem_intercalate between each⟩⟩

/-- The space behind a name and those behind the commas are alike. -/
theorem cons_intercalate_comma_space (text : List Char) (texts : List (List Char)) :
    ' ' :: [',', ' '].intercalate (text :: texts) =
      [','].intercalate ((text :: texts).map fun t => ' ' :: t) := by
  induction texts generalizing text with
  | nil =>
    rw [List.intercalate_singleton, List.map_singleton, List.intercalate_singleton]
  | cons next texts ih =>
    rw [List.intercalate_cons_cons, List.map_cons, List.map_cons, List.intercalate_cons_cons,
      ← List.map_cons, ← ih next, List.append_assoc, List.append_assoc]
    rfl

/-- What stands behind a head and a space is split at the commas. -/
theorem Clause.ofHead_intercalate {texts : List (List Char)}
    (operands : ∀ text ∈ texts, IsOperand text) (nonempty : texts ≠ []) (head : Fragment)
    (column : Nat) : ∃ fragments,
      ofHead head ⟨column, ' ' :: [',', ' '].intercalate texts⟩ = .ok ⟨head, fragments⟩ ∧
        fragments.map Fragment.text = texts := by
  obtain ⟨text, texts, rfl⟩ := List.exists_cons_of_ne_nil nonempty
  have indented : List.Forall₂ IsIndented (text :: texts)
      ((text :: texts).map fun t => ' ' :: t) :=
    List.forall₂_map_right_iff.mpr (List.forall₂_same.mpr fun _ _ => .inr rfl)
  obtain ⟨fragments, split, same⟩ :=
    Fragment.splitOperands_eq_ok operands indented nonempty column
  refine ⟨fragments, ?_, same⟩
  rw [ofHead]
  dsimp only
  rw [if_pos (by decide), cons_intercalate_comma_space, split]
  rfl

section

variable {name : List Char} {texts : List (List Char)} (named : IsName name)
  (operands : ∀ text ∈ texts, IsOperandText text)

include operands in
theorem isPlainChar_of_mem_operands :
    ∀ c ∈ ' ' :: [',', ' '].intercalate texts, isPlainChar c = true := by
  intro c member
  rcases List.mem_cons.mp member with rfl | member
  · decide
  · have between : [',', ' '].all isPlainChar = true := rfl
    exact forall_mem_intercalate between (fun text listed => (operands text listed).isPlainChar) c
      member

include named operands

theorem isPlainChar_of_mem_clauseText : ∀ c ∈ clauseText name texts, isPlainChar c = true :=
  forall_mem_clauseText rfl named.isPlainChar fun text member => (operands text member).isPlainChar

/-- A line with a name and operands scans to the clause of both. -/
theorem SourceLine.scan_clauseText :
    ∃ fragments, scan (clauseText name texts) = .ok { clause := some ⟨⟨1, name⟩, fragments⟩ } ∧
      fragments.map Fragment.text = texts := by
  cases texts with
  | nil =>
    refine ⟨[], ?_, rfl⟩
    have scanned := scan_of_isName named (.inl rfl) nofun
    rw [List.append_nil] at scanned
    rw [clauseText, scanned]
    rfl
  | cons text texts =>
    obtain ⟨fragments, made, same⟩ :=
      Clause.ofHead_intercalate (fun text member => (operands text member).isOperand) nofun
        ⟨1, name⟩ (1 + utf8Length name)
    refine ⟨fragments, ?_, same⟩
    have scanned := scan_of_isName named (.inr ⟨_, rfl⟩) (isPlainChar_of_mem_operands operands)
    rw [clauseText, scanned, made]
    rfl

end

/-! ## Sources -/

/-- A line of plain text that is not empty. -/
structure IsPlainLine (text : List Char) : Prop where
  nonempty : text ≠ []
  isPlainChar : ∀ c ∈ text, isPlainChar c = true

theorem isPlainLine_clauseText {name : List Char} {texts : List (List Char)} (named : IsName name)
    (operands : ∀ text ∈ texts, IsOperandText text) : IsPlainLine (clauseText name texts) := by
  refine ⟨?_, isPlainChar_of_mem_clauseText named operands⟩
  obtain ⟨c, rest, rfl, -⟩ := named.starts
  cases texts with
  | nil => exact List.cons_ne_nil c rest
  | cons text texts => exact List.cons_ne_nil c _

theorem linesOf_singleton {line : List Char} (noLineFeed : '\n' ∉ line) (more : line ≠ []) :
    linesOf line = [line] := by
  have pieces : (['\n'].intercalate [line]).splitOn '\n' = [line] :=
    List.splitOn_intercalate '\n' (List.forall_mem_singleton.mpr noLineFeed) (List.cons_ne_nil _ _)
  rw [List.intercalate_singleton] at pieces
  rw [linesOf, pieces, linesOfPieces, if_neg more]

/-- Ended lines are lines with line feeds between them and nothing behind the last one. -/
theorem flatMap_lineFeed (texts : List (List Char)) :
    (texts.flatMap fun text => text ++ ['\n']) = ['\n'].intercalate (texts ++ [[]]) := by
  induction texts with
  | nil => rfl
  | cons text texts ih =>
    obtain ⟨next, rest, same⟩ :=
      List.exists_cons_of_ne_nil (List.append_ne_nil_of_right_ne_nil texts (List.cons_ne_nil [] []))
    rw [List.flatMap_cons, ih, List.cons_append, same, List.intercalate_cons_cons]

theorem IsPlainLine.dropCarriageReturn_eq {text : List Char} (plain : IsPlainLine text) :
    dropCarriageReturn text = text := by
  have noReturn : text.getLast? ≠ some '\r' := by
    intro last
    exact ne_of_holds (plain.isPlainChar _ (List.mem_of_getLast? last)) (by decide) rfl
  rw [dropCarriageReturn, if_neg noReturn]

section

variable {texts : List (List Char)} (plain : ∀ text ∈ texts, IsPlainLine text)

include plain

theorem linesOfPieces_of_plain : linesOfPieces texts = texts := by
  induction texts with
  | nil => rfl
  | cons text texts ih =>
    have tail := ih fun t member => plain t (List.mem_cons_of_mem text member)
    have head := plain text List.mem_cons_self
    cases texts with
    | nil => rw [linesOfPieces, if_neg head.nonempty]
    | cons next texts =>
      have step : linesOfPieces (text :: next :: texts) =
          dropCarriageReturn text :: linesOfPieces (next :: texts) := rfl
      rw [step, head.dropCarriageReturn_eq, tail]

/-- The empty piece behind the last line feed is no line. -/
theorem linesOfPieces_concat_nil : linesOfPieces (texts ++ [[]]) = texts := by
  induction texts with
  | nil => rfl
  | cons text texts ih =>
    have tail := ih fun t member => plain t (List.mem_cons_of_mem text member)
    have head := plain text List.mem_cons_self
    obtain ⟨next, rest, same⟩ :=
      List.exists_cons_of_ne_nil (List.append_ne_nil_of_right_ne_nil texts (List.cons_ne_nil [] []))
    have step : linesOfPieces (text :: next :: rest) =
        dropCarriageReturn text :: linesOfPieces (next :: rest) := rfl
    rw [List.cons_append, same, step, head.dropCarriageReturn_eq, ← same, tail]

theorem notMem_of_plain : ∀ text ∈ texts, '\n' ∉ text := by
  intro text member lineFeed
  exact ne_of_holds ((plain text member).isPlainChar _ lineFeed) (by decide) rfl

theorem linesOf_intercalate : linesOf (['\n'].intercalate texts) = texts := by
  have noLineFeed := notMem_of_plain plain
  cases texts with
  | nil => rfl
  | cons text texts =>
    rw [linesOf, List.splitOn_intercalate _ noLineFeed (List.cons_ne_nil _ _)]
    exact linesOfPieces_of_plain plain

theorem linesOf_flatMap : linesOf (texts.flatMap fun text => text ++ ['\n']) = texts := by
  have noLineFeed : ∀ text ∈ texts ++ [[]], '\n' ∉ text := by
    intro text member
    rcases List.mem_append.mp member with member | member
    · exact notMem_of_plain plain text member
    · rw [List.mem_singleton.mp member]
      exact List.not_mem_nil
  rw [flatMap_lineFeed, linesOf, List.splitOn_intercalate _ noLineFeed (by simp)]
  exact linesOfPieces_concat_nil plain

end

end RobotMachine
