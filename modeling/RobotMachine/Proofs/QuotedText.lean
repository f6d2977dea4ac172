import RobotMachine.Proofs.AssembledImage
import RobotMachine.Proofs.ByteWalk
import RobotMachine.Proofs.ExactSums

/-!
# Quoted text

Inside a literal no character has the meaning that it has outside. The search for a comment, the
search for commas and the reader of the literal all leave it at the same quote, whatever text is
spelled in it.

* `SourceLine.scan_literal`: a directive with a literal scans to that literal.
* `stringBytes_of_spells`: a string is read as the text that is spelled in it.
-/

namespace RobotMachine

/-! ## Inside a literal -/

/-- The text leads from one place to another without a character that stands outside of a literal,
apart from what follows it. -/
inductive Quoted : Quoting → List Char → Quoting → Prop
  | nil {quoting : Quoting} : Quoted quoting [] quoting
  | cons {quoting last : Quoting} {c : Char} {text : List Char} : quoting ≠ .outside →
    Quoted (quoting.next c) text last → Quoted quoting (c :: text) last

theorem Quoted.append {first middle last : Quoting} {front back : List Char}
    (quoted : Quoted first front middle) (next : Quoted middle back last) :
    Quoted first (front ++ back) last := by
  induction quoted with
  | nil => exact next
  | cons inside _ ih => exact .cons inside (ih next)

theorem codeText_quoted {quoting last : Quoting} {text : List Char}
    (quoted : Quoted quoting text last) (opened column : Nat) (rest : List Char) :
    codeText quoting opened column (text ++ rest) =
      (codeText last opened (column + utf8Length text) rest).map (text ++ ·) := by
  induction quoted generalizing column with
  | @nil last =>
    rw [List.nil_append, utf8Length, Nat.add_zero]
    cases codeText last opened column rest <;> rfl
  | @cons quoting last c text inside _ ih =>
    rw [List.cons_append, codeText, if_neg fun comment => inside comment.1]
    dsimp only
    rw [if_neg inside, ih, utf8Length, Nat.add_assoc]
    cases codeText last opened _ rest <;> rfl

theorem commaPieces_quoted {quoting last : Quoting} {text : List Char}
    (quoted : Quoted quoting text last) (depth column : Nat) (rest : List Char) :
    ∃ column', (commaPieces quoting depth column (text ++ rest)).1.text =
        text ++ (commaPieces last depth column' rest).1.text ∧
      (commaPieces quoting depth column (text ++ rest)).2 =
        (commaPieces last depth column' rest).2 := by
  induction quoted generalizing column with
  | nil => exact ⟨column, rfl, rfl⟩
  | @cons quoting last c text inside _ ih =>
    obtain ⟨column', first, others⟩ := ih (column + c.utf8Size)
    refine ⟨column', ?_⟩
    rw [List.cons_append, commaPieces, if_neg fun comma => inside comma.1]
    dsimp only
    rw [if_neg inside, first, others]
    exact ⟨rfl, rfl⟩

/-! ## Spelled text -/

/-- The characters of a text are spelled one behind another. -/
inductive SpellsText (quote : Char) : List Char → List Char → Prop
  | nil : SpellsText quote [] []
  | cons {c : Char} {text front back : List Char} : SpellsCharacter quote c front →
    SpellsText quote text back → SpellsText quote (c :: text) (front ++ back)

theorem SpellsCharacter.quoted {quote c : Char} {spelling : List Char}
    (spells : SpellsCharacter quote c spelling) :
    Quoted (.inside quote) spelling (.inside quote) := by
  cases spells with
  | plain notQuote notBackslash =>
    refine .cons Quoting.noConfusion ?_
    rw [Quoting.next, if_neg notBackslash, if_neg notQuote]
    exact .nil
  | escape => exact .cons Quoting.noConfusion (.cons Quoting.noConfusion .nil)

theorem SpellsText.quoted {quote : Char} {text spelling : List Char}
    (spells : SpellsText quote text spelling) :
    Quoted (.inside quote) spelling (.inside quote) := by
  induction spells with
  | nil => exact .nil
  | cons head _ ih => exact head.quoted.append ih

/-- A literal: a quote, spelled text and the same quote again. -/
inductive IsLiteral : List Char → Prop
  | mk {quote : Char} {text spelling : List Char} : quote = '"' ∨ quote = '\'' →
    SpellsText quote text spelling → IsLiteral (quote :: (spelling ++ [quote]))

namespace IsLiteral

variable {literal : List Char} (isLiteral : IsLiteral literal)

include isLiteral

/-- Only the first quote of a literal stands outside of it. -/
theorem exists_quoted : ∃ quote rest, literal = quote :: rest ∧ (quote = '"' ∨ quote = '\'') ∧
    Quoted (.inside quote) rest .outside := by
  cases isLiteral with
  | @mk quote _ _ isQuote spells =>
    refine ⟨quote, _, rfl, isQuote, spells.quoted.append (.cons nofun ?_)⟩
    have notBackslash : quote ≠ '\\' := by
      rcases isQuote with rfl | rfl <;> decide
    rw [Quoting.next, if_neg notBackslash, if_pos rfl]
    exact .nil

theorem codeText_eq (opened column : Nat) :
    codeText .outside opened column literal = .ok literal := by
  obtain ⟨quote, rest, rfl, isQuote, quoted⟩ := isLiteral.exists_quoted
  have noComment : ¬(quote = ';' ∨ quote = '/' ∧ rest.head? = some '/') := by
    rcases isQuote with rfl | rfl
    · exact not_or.mpr ⟨by decide, fun comment => absurd comment.1 (by decide)⟩
    · exact not_or.mpr ⟨by decide, fun comment => absurd comment.1 (by decide)⟩
  have behind := codeText_quoted quoted column (column + quote.utf8Size) []
  rw [List.append_nil] at behind
  rw [codeText, if_neg fun comment => noComment comment.2]
  dsimp only
  rw [if_pos rfl, Quoting.next, if_pos isQuote, behind, codeText, Except.ok_map, List.append_nil]
  rfl

/-- No comma, bracket or other quote in a literal counts. -/
theorem passes (depth : Nat) : Passes depth depth literal := by
  obtain ⟨quote, rest, rfl, isQuote, quoted⟩ := isLiteral.exists_quoted
  have noComma : quote ≠ ',' := by
    rcases isQuote with rfl | rfl <;> decide
  have level : bracketDepth depth quote = depth := by
    rcases isQuote with rfl | rfl <;> rfl
  intro column behind
  obtain ⟨column', first, others⟩ :=
    commaPieces_quoted quoted depth (column + quote.utf8Size) behind
  refine ⟨column', ?_⟩
  rw [List.cons_append, commaPieces, if_neg fun comma => noComma comma.2.2]
  dsimp only
  rw [if_pos rfl, level, Quoting.next, if_pos isQuote, first, others]
  exact ⟨rfl, rfl⟩

theorem isOperand : IsOperand literal := by
  refine ⟨isLiteral.passes 0, ?_, ?_⟩
  · obtain ⟨quote, rest, rfl, rfl | rfl, -⟩ := isLiteral.exists_quoted
    · exact ⟨_, rest, rfl, by decide⟩
    · exact ⟨_, rest, rfl, by decide⟩
  · cases isLiteral with
    | @mk quote text spelling isQuote spells =>
      refine ⟨quote :: spelling, quote, rfl, ?_⟩
      rcases isQuote with rfl | rfl <;> decide

end IsLiteral

namespace SourceLine

/-- Behind its lead and its head a line has one operand. -/
theorem scan_operand {head operand : List Char} (identifier : IsIdentifier head)
    (isOperand : IsOperand operand)
    (isCode : ∀ opened column, codeText .outside opened column operand = .ok operand) :
    ∃ column, scan (head ++ ' ' :: operand) =
      .ok { clause := some ⟨⟨1, head⟩, [⟨column, operand⟩]⟩ } := by
  have noMark : ∀ c ∈ head ++ [' '], isMark c = false :=
    List.forall_mem_append.mpr ⟨identifier.isMark, List.forall_mem_singleton.mpr (by decide)⟩
  have code : codeOfLine (head ++ ' ' :: operand) = .ok ⟨1, head ++ ' ' :: operand⟩ := by
    obtain ⟨opened, column, passed⟩ := codeText_append noMark 1 1 operand
    rw [List.append_assoc, List.singleton_append] at passed
    rw [codeOfLine, passed, isCode, Except.ok_map, Except.ok_map, List.append_assoc]
    rfl
  have stops : Stops (' ' :: operand) := by
    rintro c ⟨⟩
    exact ⟨by decide, by decide⟩
  obtain ⟨column, split⟩ :=
    Fragment.splitOperands_singleton isOperand (.inr rfl) (1 + utf8Length head)
  refine ⟨column, ?_⟩
  rw [scan_eq, code, Except.ok_bind, Fragment.skipBlanks_of_isIdentifier identifier,
    ofStart_of_isIdentifier identifier stops, Clause.ofHead]
  dsimp only
  rw [if_pos (by decide), split]
  rfl

end SourceLine

/-! ## Reading literals -/

theorem stringBytes_of_spells {text spelling : List Char} (spells : SpellsText '"' text spelling)
    (opened column : Nat) :
    stringBytes opened column (spelling ++ ['"']) = .ok (utf8Bytes text) := by
  induction spells generalizing column with
  | nil => rfl
  | @cons c text front back head _ ih =>
    rw [List.append_assoc, utf8Bytes_cons]
    cases head with
    | plain notQuote notBackslash =>
      rw [List.singleton_append, stringBytes, ih]
      · rfl
      · exact notQuote
      · exact fun same => absurd same notBackslash
      · exact fun _ _ same => absurd same notBackslash
    | escape known =>
      simp only [List.cons_append, List.nil_append, stringBytes, known, ih]
      rfl

/-- A character literal has the value of its code point. -/
theorem Fragment.isConstant_character {c : Char} {spelling : List Char}
    (spells : SpellsCharacter '\'' c spelling) (column : Nat) :
    IsConstant ⟨column, '\'' :: (spelling ++ ['\''])⟩ c.toNat := by
  have noGap : IsGap [] := nofun
  have sum := SpellsSum.mk noGap (.mk .none (.character spells) noGap) .none
  rw [List.nil_append, List.nil_append, List.append_nil, List.append_nil] at sum
  obtain ⟨⟨start, terms⟩, read, signed⟩ :=
    Expression.parse_of_spellsSum (f := ⟨column, _⟩) sum
  obtain ⟨⟨negative, place, value⟩, rfl, same⟩ := List.map_eq_singleton_iff.mp signed
  cases same
  have below : c.toNat < numberLimit := Nat.lt_of_lt_of_le c.val.toNat_lt (by decide)
  exact ⟨_, read, rfl, Expression.evaluate_number below false start place⟩

/-! ## Data -/

namespace Layout

/-- What a single statement in the data section becomes. There is no data if it takes up none. -/
theorem emit_single {s : Statement} {bytes : List UInt8}
    (closed : s.expressions.flatMap Expression.symbols = [])
    (emitted : s.emit [] = .ok (.data wordSize bytes)) :
    emit { active := .data, statements := [s], dataLength := wordSize + bytes.length } =
      .ok { data := if bytes = [] then [] else [0, 0, 0, 0] ++ bytes } := by
  let l : Layout := { active := .data, statements := [s], dataLength := wordSize + bytes.length }
  have sound : l.defect? = none := by
    simp only [l, defect?, List.reverse_singleton, List.findSome?_cons, List.findSome?_nil,
      undefinedIn, closed]
    rfl
  have image : [Emission.data wordSize bytes].foldl Emission.putInto l.blankData =
      if bytes = [] then [] else [0, 0, 0, 0] ++ bytes := by
    rw [List.foldl_cons, List.foldl_nil, Emission.putInto, blankData]
    by_cases none : bytes = []
    · subst none
      rfl
    · have some : wordSize < l.dataLength :=
        Nat.lt_add_of_pos_right (List.length_pos_iff.mpr none)
      rw [if_pos some, if_neg none, List.take_replicate, List.drop_of_length_le,
        List.append_nil, Nat.min_eq_left (Nat.le_of_lt some)]
      · rfl
      · rw [List.length_replicate]
  have noSymbols : l.sortedSymbols = [] := List.mergeSort_nil
  change l.emit = _
  rw [emit, sound]
  simp only [l, List.reverse_singleton, List.mapM_cons, List.mapM_nil, emitted]
  change Except.ok (l.program [.data wordSize bytes]) = _
  simp only [program, image, noSymbols]
  rfl

end Layout

theorem linesOf_pair {first last : List Char} (noLineFeed : ∀ text ∈ [first, last], '\n' ∉ text)
    (noReturn : first.getLast? ≠ some '\r') (more : last ≠ []) :
    linesOf (first ++ '\n' :: last) = [first, last] := by
  have pieces := List.splitOn_intercalate '\n' noLineFeed (List.cons_ne_nil _ _)
  rw [List.intercalate_cons_cons, List.intercalate_singleton, List.append_assoc,
    List.singleton_append] at pieces
  rw [linesOf, pieces, linesOfPieces, linesOfPieces, if_neg more, dropCarriageReturn,
    if_neg noReturn]
  exact List.cons_ne_nil last []

/-- A source with one line in the data section. -/
theorem assemble_dataLine {line : List Char} {src : SourceLine} {l : Layout}
    (noLineFeed : '\n' ∉ line) (more : line ≠ []) (scanned : SourceLine.scan line = .ok src)
    (added : Layout.addLine { active := .data } 2 src = .ok l) :
    assemble (String.ofList (".data\n".toList ++ line)) = l.emit := by
  have noLineFeeds : ∀ text ∈ [".data".toList, line], '\n' ∉ text :=
    List.forall_mem_cons.mpr ⟨by decide, List.forall_mem_singleton.mpr noLineFeed⟩
  have cut : linesOf (".data\n".toList ++ line) = [".data".toList, line] :=
    linesOf_pair noLineFeeds (by decide) more
  have first : SourceLine.scan ".data".toList >>= Layout.addLine {} 1 =
      .ok { active := .data } := rfl
  rw [assemble, String.toList_ofList, cut, Layout.ofLines, Layout.addLines, first]
  simp only [Layout.addLines, scanned, Except.ok_bind, added]

/-! ## Lines with one literal -/

namespace Layout

theorem addLine_listed {d : Directive} {c : Clause} {f : Fragment} {l : Layout}
    (named : Directive.ofName? c.head.text = some d) (lists : d = .word ∨ d = .ascii)
    (operand : c.operands = [f]) (listed : addData { active := .data } 2 d c = .ok l)
    (fits : l.dataLength ≤ regionSize) :
    addLine { active := .data } 2 { clause := some c } = .ok l := by
  have added : addDataDirective { active := .data } 2 d c = .ok l := by
    have noRoom : ¬(d = .space ∨ d = .skip ∨ d = .align) := by
      rcases lists with rfl | rfl <;> decide
    simp only [addDataDirective, operand, if_neg noRoom, listed]
    rw [if_neg (not_not.mpr rfl), Except.ok_bind, if_pos fits]
    rfl
  have start : (alignForWords { active := .data } (some d)).addLabel { clause := some c } =
      .ok { active := .data } := by
    rcases lists with rfl | rfl <;> rfl
  have settled : settleWaiting { active := .data } (some d) = { active := .data } := by
    rcases lists with rfl | rfl <;> rfl
  rw [addLine]
  simp only [Option.bind_some, named, start, Except.ok_bind, settled]
  rcases lists with rfl | rfl <;> exact added

theorem addLine_ascii {text spelling : List Char} (spells : SpellsText '"' text spelling)
    (fits : utf8Length text ≤ 4092) (column : Nat) :
    addLine { active := .data } 2
        { clause := some ⟨⟨1, ".ascii".toList⟩, [⟨column, '"' :: (spelling ++ ['"'])⟩]⟩ } =
      .ok { active := .data, statements := [⟨2, 1, .string wordSize (utf8Bytes text)⟩],
            dataLength := wordSize + (utf8Bytes text).length } := by
  have size : wordSize + (utf8Bytes text).length ≤ regionSize := by
    rw [length_utf8Bytes]
    exact Nat.add_le_add_left fits wordSize
  have read : stringOperand false ⟨column, '"' :: (spelling ++ ['"'])⟩ = .ok (utf8Bytes text) := by
    have decoded := stringBytes_of_spells spells column (column + 1)
    rw [stringOperand, if_pos List.head?_cons, Fragment.toStringBytes, List.drop_succ_cons,
      List.drop_zero, decoded, Except.ok_map, if_neg Bool.false_ne_true, List.append_nil]
  have strings := Except.mapM_eq_ok_iff.mpr (.cons read .nil)
  have whole : [utf8Bytes text].flatten = utf8Bytes text := List.flatten_singleton
  refine addLine_listed rfl (.inr rfl) rfl ?_ size
  rw [addData, decide_eq_false (not_not.mpr rfl), strings, Except.ok_bind, whole]
  · rfl
  · rintro ⟨⟩
  · rintro ⟨⟩

theorem addLine_character {c : Char} {spelling : List Char}
    (spells : SpellsCharacter '\'' c spelling) (column : Nat) :
    ∃ e, e.symbols = [] ∧ (∀ table, e.evaluate table = .ok c.toNat) ∧
      addLine { active := .data } 2
          { clause := some ⟨⟨1, ".word".toList⟩, [⟨column, '\'' :: (spelling ++ ['\''])⟩]⟩ } =
        .ok { active := .data, statements := [⟨2, 1, .words wordSize [e]⟩],
              dataLength := wordSize + wordSize } := by
  obtain ⟨e, read, closed, value⟩ := Fragment.isConstant_character spells column
  have values := Except.mapM_eq_ok_iff.mpr (.cons read .nil)
  refine ⟨e, closed, value, addLine_listed rfl (.inl rfl) rfl ?_ ?_⟩
  · rw [addData, values]
    rfl
  · exact (by decide : wordSize + wordSize ≤ regionSize)

end Layout

/-! ## Sources with one literal -/

/-- The data section has one line, of a directive and a literal. -/
theorem assemble_literal {directive : List Char} {quote : Char} {text spelling : List Char}
    (identifier : IsIdentifier directive) (isQuote : quote = '"' ∨ quote = '\'')
    (spells : SpellsText quote text spelling) (noLineFeed : '\n' ∉ spelling) :
    ∃ column, ∀ l, Layout.addLine { active := .data } 2
        { clause := some ⟨⟨1, directive⟩, [⟨column, quote :: (spelling ++ [quote])⟩]⟩ } = .ok l →
      assemble (String.ofList
        (".data\n".toList ++ (directive ++ ' ' :: quote :: (spelling ++ [quote])))) = l.emit := by
  have isLiteral : IsLiteral (quote :: (spelling ++ [quote])) := .mk isQuote spells
  obtain ⟨column, scanned⟩ :=
    SourceLine.scan_operand identifier isLiteral.isOperand isLiteral.codeText_eq
  have oneLine : '\n' ∉ directive ++ ' ' :: quote :: (spelling ++ [quote]) := by
    have inDirective : '\n' ∉ directive := fun member =>
      absurd (identifier.goesOn _ member) (by decide)
    have notQuote : '\n' ≠ quote := by
      rcases isQuote with rfl | rfl <;> decide
    simp only [List.mem_append, List.mem_cons, List.not_mem_nil, or_false, not_or]
    exact ⟨inDirective, by decide, notQuote, noLineFeed, notQuote⟩
  exact ⟨column, fun l added =>
    assemble_dataLine oneLine (identifier.append_ne_nil _) scanned added⟩

/-- A listed string fills the data behind the mailbox word with its bytes. -/
theorem assemble_ascii {text spelling : List Char} (spells : SpellsText '"' text spelling)
    (noLineFeed : '\n' ∉ spelling) (fits : utf8Length text ≤ 4092) :
    assemble (".data\n.ascii \"" ++ String.ofList spelling ++ "\"") =
      .ok { data := if utf8Bytes text = [] then [] else [0, 0, 0, 0] ++ utf8Bytes text } := by
  have identifier : IsIdentifier ".ascii".toList :=
    ⟨⟨'.', "ascii".toList, rfl, rfl⟩, List.all_eq_true.mp rfl⟩
  obtain ⟨column, assembled⟩ := assemble_literal identifier (.inl rfl) spells noLineFeed
  have source : ".data\n.ascii \"" ++ String.ofList spelling ++ "\"" = String.ofList
      (".data\n".toList ++ (".ascii".toList ++ ' ' :: '"' :: (spelling ++ ['"']))) := by
    refine String.toList_inj.mp ?_
    simp only [String.toList_append, String.toList_ofList]
    rfl
  rw [source, assembled _ (Layout.addLine_ascii spells fits column)]
  exact Layout.emit_single rfl rfl

theorem emitWord_character {c : Char} {e : Expression} {table : SymbolTable}
    (value : e.evaluate table = .ok c.toNat) : emitWord table e = .ok (wordBytes c.val) := by
  have small : c.toNat < UInt32.size := c.val.toNat_lt
  have fits : Layout.fitsWord c.toNat = true := by
    have bound : UInt32.size = 0x100000000 := rfl
    rw [Layout.fitsWord, Bool.and_eq_true, decide_eq_true_iff, decide_eq_true_iff]
    omega
  have same : UInt32.ofInt c.toNat = c.val := UInt32.toNat_inj.mp (toNat_ofInt_of_lt small)
  rw [emitWord, value, Except.ok_bind, if_pos fits, same]
  rfl

/-- A listed character is a word after the mailbox word, its code point. -/
theorem assemble_character {c : Char} {spelling : List Char}
    (spells : SpellsCharacter '\'' c spelling) (noLineFeed : '\n' ∉ spelling) :
    assemble (".data\n.word '" ++ String.ofList spelling ++ "'") =
      .ok { data := [0, 0, 0, 0] ++ wordBytes c.val } := by
  have text : SpellsText '\'' [c] spelling := by
    have one := SpellsText.cons spells .nil
    rwa [List.append_nil] at one
  have identifier : IsIdentifier ".word".toList :=
    ⟨⟨'.', "word".toList, rfl, rfl⟩, List.all_eq_true.mp rfl⟩
  obtain ⟨column, assembled⟩ := assemble_literal identifier (.inr rfl) text noLineFeed
  obtain ⟨e, closed, value, added⟩ := Layout.addLine_character spells column
  have source : ".data\n.word '" ++ String.ofList spelling ++ "'" = String.ofList
      (".data\n".toList ++ (".word".toList ++ ' ' :: '\'' :: (spelling ++ ['\'']))) := by
    refine String.toList_inj.mp ?_
    simp only [String.toList_append, String.toList_ofList]
    rfl
  have emitted : (Statement.mk 2 1 (.words wordSize [e])).emit [] =
      .ok (.data wordSize (wordBytes c.val)) := by
    have words := Except.mapM_eq_ok_iff.mpr (.cons (emitWord_character (value [])) .nil)
    simp only [Statement.emit, words, Except.ok_map, List.flatten_singleton]
  have noSymbols : (Statement.mk 2 1 (.words wordSize [e])).expressions.flatMap
      Expression.symbols = [] := by
    simp only [Statement.expressions, List.flatMap_cons, List.flatMap_nil, closed]
    rfl
  rw [source, assembled _ added]
  exact Layout.emit_single noSymbols emitted

/-! ## Written text -/

/-- A character as it is written between quotes, with an escape where one is needed. -/
def written (quote c : Char) : List Char :=
  match c with
  | '\n' => ['\\', 'n']
  | '\r' => ['\\', 'r']
  | '\t' => ['\\', 't']
  | '\x00' => ['\\', '0']
  | '\\' => ['\\', '\\']
  | c => if c = quote then ['\\', c] else [c]

section

variable {quote : Char} (isQuote : quote = '"' ∨ quote = '\'')

include isQuote

theorem spellsCharacter_written (c : Char) : SpellsCharacter quote c (written quote c) := by
  rw [written.eq_def]
  split
  · exact .escape rfl
  · exact .escape rfl
  · exact .escape rfl
  · exact .escape rfl
  · exact .escape rfl
  · next notBackslash =>
    split
    · next same =>
      subst same
      rcases isQuote with rfl | rfl
      · exact .escape rfl
      · exact .escape rfl
    · next other => exact .plain other notBackslash

theorem spellsText_written (text : List Char) :
    SpellsText quote text (text.flatMap (written quote)) := by
  induction text with
  | nil => exact .nil
  | cons c text ih => exact .cons (spellsCharacter_written isQuote c) ih

end

theorem notMem_written (quote c : Char) : '\n' ∉ written quote c := by
  rw [written.eq_def]
  split
  · decide
  · decide
  · decide
  · decide
  · decide
  · next notLineFeed _ _ _ _ =>
    have other : '\n' ≠ c := fun same => notLineFeed same.symm
    split
    · exact List.not_mem_cons_of_ne_of_not_mem (by decide) (mt List.mem_singleton.mp other)
    · exact mt List.mem_singleton.mp other

theorem toUTF8_eq (t : String) : t.toUTF8.data.toList = utf8Bytes t.toList := by
  have whole : t.toUTF8 = t.toList.utf8Encode := by
    conv_lhs => rw [← String.ofList_toList (s := t)]
    exact String.toByteArray_ofList
  rw [whole, List.utf8Encode, List.data_toByteArray, List.toList_toArray]
  rfl

theorem utf8Bytes_eq_nil_iff {text : List Char} : utf8Bytes text = [] ↔ text = [] := by
  rw [← List.length_eq_zero_iff, length_utf8Bytes]
  refine ⟨fun none => ?_, fun none => none ▸ rfl⟩
  by_contra some
  exact absurd none (Nat.ne_of_gt (utf8Length_pos some))

/-- A literal carries any text. Nothing in a string ends it or the line before its quote, and a
character has the value of its code point, whether it is written as it is or by an escape. -/
theorem assemble_literals :
    (∀ t : String, t.utf8ByteSize ≤ 4092 →
      assemble (".data\n.ascii \"" ++ String.ofList (t.toList.flatMap (written '"')) ++ "\"") =
        .ok { data := if t = "" then [] else [0, 0, 0, 0] ++ t.toUTF8.data.toList }) ∧
    ∀ (c : Char) (spelling : List Char),
      spelling = written '\'' c ∨ spelling = [c] ∧ c ≠ '\'' ∧ c ≠ '\\' ∧ c ≠ '\n' →
      assemble (".data\n.word '" ++ String.ofList spelling ++ "'") =
        .ok { data := [0, 0, 0, 0] ++ wordBytes c.val } := by
  refine ⟨fun t fits => ?_, fun c spelling spelled => ?_⟩
  · have size : utf8Length t.toList ≤ 4092 := by
      rwa [← utf8ByteSize_ofList, String.ofList_toList]
    have noLineFeed : '\n' ∉ t.toList.flatMap (written '"') := by
      rw [List.mem_flatMap]
      exact fun ⟨c, _, member⟩ => notMem_written '"' c member
    have empty : utf8Bytes t.toList = [] ↔ t = "" :=
      utf8Bytes_eq_nil_iff.trans String.toList_eq_nil_iff
    rw [assemble_ascii (spellsText_written (.inl rfl) t.toList) noLineFeed size, toUTF8_eq]
    simp only [empty]
  · rcases spelled with rfl | ⟨rfl, notQuote, notBackslash, notLineFeed⟩
    · exact assemble_character (spellsCharacter_written (.inr rfl) c) (notMem_written '\'' c)
    · exact assemble_character (.plain notQuote notBackslash)
        (mt List.mem_singleton.mp (Ne.symm notLineFeed))

/-- Everything that ends or cuts a line elsewhere. -/
def separators : String :=
  ",;//['\"\\\n"

theorem assemble_literals_separators :
    assemble ".data\n.ascii \",;//['\\\"\\\\\\n\"" =
        .ok { data := [0, 0, 0, 0, 0x2c, 0x3b, 0x2f, 0x2f, 0x5b, 0x27, 0x22, 0x5c, 0x0a] } ∧
      assemble ".data\n.word '\\''" = .ok { data := [0, 0, 0, 0, 0x27, 0, 0, 0] } ∧
      assemble ".data\n.word '\"'" = .ok { data := [0, 0, 0, 0, 0x22, 0, 0, 0] } := by
  obtain ⟨strings, characters⟩ := assemble_literals
  have text := strings separators (by decide)
  have quote := characters '\'' _ (.inl rfl)
  have doubleQuote := characters '"' ['"'] (.inr ⟨rfl, by decide, by decide, by decide⟩)
  exact ⟨text, quote, doubleQuote⟩

end RobotMachine
