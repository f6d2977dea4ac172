import RobotMachine.Proofs.PlainText
import RobotMachine.Proofs.SameText
import RobotMachine.Proofs.ScannedLines

/-!
# Lines with the same content

The content of a scanned line is what is left when the columns and the case of the letters in its
head are forgotten. Lines with the same content do the same to a layout, on whatever lines they
stand, and a line without content does nothing at all.

* `SourceLine.content`: the content of a line.
* `Layout.Alike.addLine_agree`: one line, on layouts that are alike.
* `Layout.ofScanned_agree`: lines with the same contents give layouts that are alike.
-/

namespace RobotMachine

open Fragment (SameText)

/-! ## The case of letters -/

theorem toNat_toLower (c : Char) :
    c.toLower.toNat = if 0x41 ≤ c.toNat ∧ c.toNat ≤ 0x5a then c.toNat + 0x20 else c.toNat := by
  have range : c.val ≥ 'A'.val ∧ c.val ≤ 'Z'.val ↔ 0x41 ≤ c.toNat ∧ c.toNat ≤ 0x5a :=
    and_congr UInt32.le_iff_toNat_le UInt32.le_iff_toNat_le
  unfold Char.toLower
  split
  · next upper =>
    rw [range] at upper
    have small : c.val.toNat ≤ 0x5a := upper.2
    have distance : ('a'.val - 'A'.val).toNat = 0x20 := by decide
    rw [if_pos upper, Char.toNat, UInt32.toNat_add, distance, Nat.mod_eq_of_lt (by omega)]
    rfl
  · next other =>
    rw [range] at other
    rw [if_neg other]

theorem toNat_toUpper (c : Char) :
    c.toUpper.toNat = if 0x61 ≤ c.toNat ∧ c.toNat ≤ 0x7a then c.toNat - 0x20 else c.toNat := by
  have range : 'a'.val ≤ c.val ∧ c.val ≤ 'z'.val ↔ 0x61 ≤ c.toNat ∧ c.toNat ≤ 0x7a :=
    and_congr UInt32.le_iff_toNat_le UInt32.le_iff_toNat_le
  unfold Char.toUpper
  split
  · next lower =>
    rw [range] at lower
    have bounds : 0x61 ≤ c.val.toNat ∧ c.val.toNat ≤ 0x7a := lower
    have distance : ('A'.val - 'a'.val).toNat = 2 ^ 32 - 0x20 := by decide
    rw [if_pos lower, Char.toNat, UInt32.toNat_add, distance]
    change _ = c.val.toNat - 0x20
    omega
  · next other =>
    rw [range] at other
    rw [if_neg other]

/-- Letters that are the same in lower case are the same in upper case. -/
theorem toUpper_congr {c c' : Char} (same : c.toLower = c'.toLower) : c.toUpper = c'.toUpper := by
  have lower := congrArg Char.toNat same
  rw [toNat_toLower, toNat_toLower] at lower
  rw [← Char.toNat_inj, toNat_toUpper, toNat_toUpper]
  split at lower <;> split at lower <;> split <;> split <;> omega

theorem map_toUpper_congr {text text' : List Char}
    (same : text.map Char.toLower = text'.map Char.toLower) :
    text.map Char.toUpper = text'.map Char.toUpper := by
  induction text generalizing text' with
  | nil =>
    rw [List.map_nil, eq_comm, List.map_eq_nil_iff] at same
    rw [same]
  | cons c text ih =>
    rw [List.map_cons] at same
    obtain ⟨c', rest, rfl, head, tail⟩ := List.map_eq_cons_iff.mp same.symm
    rw [List.map_cons, List.map_cons, toUpper_congr head.symm, ih tail.symm]

/-- A text starts with a dot in every mix of upper and lower case. -/
theorem head?_dot_congr {text text' : List Char}
    (same : text.map Char.toLower = text'.map Char.toLower) :
    text.head? = some '.' ↔ text'.head? = some '.' := by
  have dot (text : List Char) : text.head? = some '.' ↔
      (text.map Char.toLower).head? = some '.' := by
    rw [List.head?_map]
    constructor
    · intro head
      rw [head]
      rfl
    · intro head
      obtain ⟨c, isHead, lower⟩ := Option.map_eq_some_iff.mp head
      rw [isHead, Directive.eq_of_toLower lower]
  rw [dot text, dot text', same]

/-! ## Contents -/

/-- The content of a clause: the head in lower case, and the texts of the operands. -/
def Clause.content (c : Clause) : List Char × List (List Char) :=
  (c.head.text.map Char.toLower, c.operands.map Fragment.text)

/-- What contents of lines consist of: a label and a clause, if they are there. -/
abbrev SourceLine.Content := Option (List Char) × Option (List Char × List (List Char))

/-- The content of a line: its label, and the content of its clause. -/
def SourceLine.content (src : SourceLine) : Content :=
  (src.label.map Fragment.text, src.clause.map Clause.content)

/-- The content of a line without a label and a clause. -/
abbrev SourceLine.blankContent : Content :=
  (none, none)

theorem forall₂_sameText_iff {fragments fragments' : List Fragment} :
    List.Forall₂ SameText fragments fragments' ↔
      fragments.map Fragment.text = fragments'.map Fragment.text := by
  rw [← List.forall₂_eq_eq_eq, List.forall₂_map_left_iff, List.forall₂_map_right_iff]
  rfl

section Contents

variable {src src' : SourceLine} {c c' : Clause}

theorem Clause.sameText_of_content (same : c.content = c'.content) :
    c.head.text.map Char.toLower = c'.head.text.map Char.toLower ∧
      List.Forall₂ SameText c.operands c'.operands := by
  obtain ⟨head, operands⟩ := Prod.mk.inj same
  exact ⟨head, forall₂_sameText_iff.mpr operands⟩

theorem Clause.directive?_congr (same : c.content = c'.content) :
    Directive.ofName? c.head.text = Directive.ofName? c'.head.text := by
  rw [Directive.ofName?, Directive.ofName?, (sameText_of_content same).1]

theorem SourceLine.content_cases (same : src.content = src'.content) :
    (src.label = none ∧ src'.label = none ∨
      ∃ label label', src.label = some label ∧ src'.label = some label' ∧ label.SameText label') ∧
    (src.clause = none ∧ src'.clause = none ∨
      ∃ c c', src.clause = some c ∧ src'.clause = some c' ∧ c.content = c'.content) := by
  obtain ⟨labels, clauses⟩ := Prod.mk.inj same
  constructor
  · cases label : src.label with
    | none =>
      rw [label, Option.map_none, eq_comm, Option.map_eq_none_iff] at labels
      exact .inl ⟨rfl, labels⟩
    | some f =>
      rw [label, Option.map_some, eq_comm, Option.map_eq_some_iff] at labels
      obtain ⟨f', label', text⟩ := labels
      exact .inr ⟨f, f', rfl, label', text.symm⟩
  · cases clause : src.clause with
    | none =>
      rw [clause, Option.map_none, eq_comm, Option.map_eq_none_iff] at clauses
      exact .inl ⟨rfl, clauses⟩
    | some c =>
      rw [clause, Option.map_some, eq_comm, Option.map_eq_some_iff] at clauses
      obtain ⟨c', clause', content⟩ := clauses
      exact .inr ⟨c, c', rfl, clause', content.symm⟩

theorem SourceLine.directive?_congr (same : src.content = src'.content) :
    src.directive? = src'.directive? := by
  rw [directive?, directive?]
  rcases (content_cases same).2 with ⟨clause, clause'⟩ | ⟨c, c', clause, clause', content⟩
  · rw [clause, clause']
  · rw [clause, clause']
    exact Clause.directive?_congr content

theorem SourceLine.isSome_instruction?_congr (same : src.content = src'.content) :
    src.instruction?.isSome = src'.instruction?.isSome := by
  rw [instruction?, instruction?]
  rcases (content_cases same).2 with ⟨clause, clause'⟩ | ⟨c, c', clause, clause', content⟩
  · rw [clause, clause']
  · have dot := head?_dot_congr (Clause.sameText_of_content content).1
    rw [clause, clause', Option.filter_some, Option.filter_some]
    by_cases isDirective : c.head.text.head? = some '.'
    · simp [isDirective, dot.mp isDirective]
    · simp [isDirective, mt dot.mpr isDirective]

end Contents

/-! ## Layouts -/

/-- The statement bodies are the same but for the columns of their terms. -/
inductive StatementBody.Alike : StatementBody → StatementBody → Prop
  | instruction (opcode : Opcode) {operands operands' : List (Operand × Nat)} :
    List.Forall₂ (fun o o' => o.1.Alike o'.1) operands operands' →
      Alike (.instruction opcode operands) (.instruction opcode operands')
  | words (offset : Nat) {values values' : List Expression} :
    List.Forall₂ Expression.Alike values values' →
      Alike (.words offset values) (.words offset values')
  | bytes (offset : Nat) {values values' : List Expression} :
    List.Forall₂ Expression.Alike values values' →
      Alike (.bytes offset values) (.bytes offset values')
  | string (offset : Nat) (bytes : List UInt8) : Alike (.string offset bytes) (.string offset bytes)

/-- The statements are the same but for their lines and columns. -/
def Statement.Alike (s s' : Statement) : Prop :=
  s.body.Alike s'.body

namespace Layout

/-- The layouts are the same but for lines and columns, and either both have outgrown a section or
none. -/
structure Alike (l l' : Layout) : Prop where
  active_eq : l.active = l'.active
  symbols_eq : l.symbols = l'.symbols
  statements : List.Forall₂ Statement.Alike l.statements l'.statements
  codeLength_eq : l.codeLength = l'.codeLength
  dataLength_eq : l.dataLength = l'.dataLength
  overflow_iff : l.overflow = none ↔ l'.overflow = none
  waiting_eq : l.waiting = l'.waiting

variable {l l' : Layout} {line line' : Nat} {c c' : Clause} {f f' : Fragment}

namespace Alike

theorem empty : Alike {} {} :=
  ⟨rfl, rfl, .nil, rfl, rfl, Iff.rfl, rfl⟩

theorem exists_eq (alike : l.Alike l') :
    ∃ statements overflow, l' = { l with statements, overflow } ∧
      List.Forall₂ Statement.Alike l.statements statements ∧
      (l.overflow = none ↔ overflow = none) := by
  obtain ⟨active, symbols, statements, codeLength, dataLength, overflow, waiting⟩ := alike
  refine ⟨l'.statements, l'.overflow, ?_, statements, overflow⟩
  rw [active, symbols, codeLength, dataLength, waiting]

theorem location_eq (alike : l.Alike l') : l.location = l'.location := by
  rw [location, location, alike.active_eq, alike.codeLength_eq, alike.dataLength_eq]

theorem outgrown (alike : l.Alike l') (column column' : Nat) (cause : Cause) :
    (l.outgrown line column cause).Alike (l'.outgrown line' column' cause) := by
  obtain ⟨active, symbols, statements, codeLength, dataLength, overflow, waiting⟩ := alike
  exact ⟨active, symbols, statements, codeLength, dataLength, iff_of_false nofun nofun, waiting⟩

theorem addStatement (alike : l.Alike l') {s s' : Statement} (same : s.Alike s')
    (dataLength : Nat) :
    (l.addStatement s dataLength).Alike (l'.addStatement s' dataLength) := by
  obtain ⟨active, symbols, statements, codeLength, -, overflow, waiting⟩ := alike
  exact ⟨active, symbols, .cons same statements, codeLength, rfl, overflow, waiting⟩

theorem define_agree (alike : l.Alike l') (same : f.SameText f') (v : Int) :
    Except.Agree Alike (l.define f v) (l'.define f' v) := by
  obtain ⟨statements, overflow, rfl, alikeStatements, sameOverflow⟩ := alike.exists_eq
  rw [define, define, same.toString_eq, (same : f.text = f'.text)]
  split
  · exact .error
  · split
    · exact .error
    · exact .ok ⟨rfl, rfl, alikeStatements, rfl, rfl, sameOverflow, rfl⟩

/-! ### Labels -/

theorem alignForWords (alike : l.Alike l') (directive : Option Directive) :
    (l.alignForWords directive).Alike (l'.alignForWords directive) := by
  obtain ⟨statements, overflow, rfl, alikeStatements, sameOverflow⟩ := alike.exists_eq
  rw [Layout.alignForWords, Layout.alignForWords]
  split <;> exact ⟨rfl, rfl, alikeStatements, rfl, rfl, sameOverflow, rfl⟩

theorem settleWaiting (alike : l.Alike l') (directive : Option Directive) :
    (l.settleWaiting directive).Alike (l'.settleWaiting directive) := by
  obtain ⟨statements, overflow, rfl, alikeStatements, sameOverflow⟩ := alike.exists_eq
  rw [Layout.settleWaiting, Layout.settleWaiting]
  split
  · exact alike
  · split <;> exact ⟨rfl, rfl, alikeStatements, rfl, rfl, sameOverflow, rfl⟩

theorem addLabel_agree (alike : l.Alike l') {src src' : SourceLine}
    (same : src.content = src'.content) :
    Except.Agree Alike (l.addLabel src) (l'.addLabel src') := by
  obtain ⟨labels, clauses⟩ := SourceLine.content_cases same
  have alone : src.clause.isNone = src'.clause.isNone := by
    rcases clauses with ⟨clause, clause'⟩ | ⟨c, c', clause, clause', -⟩ <;> rw [clause, clause']
    rfl
  rw [addLabel, addLabel]
  rcases labels with ⟨none, none'⟩ | ⟨label, label', labelled, labelled', text⟩
  · rw [none, none']
    exact .ok alike
  · rw [labelled, labelled']
    dsimp only
    rw [alike.location_eq, alone, alike.active_eq]
    refine (alike.define_agree text _).bind fun m m' alike => ?_
    split
    · obtain ⟨active, symbols, statements, codeLength, dataLength, overflow, waiting⟩ := alike
      refine .ok ⟨active, symbols, statements, codeLength, dataLength, overflow, ?_⟩
      dsimp only
      rw [waiting, text.toString_eq]
    · exact .ok alike

/-! ### Clauses -/

theorem addInstruction_agree (alike : l.Alike l') (same : c.content = c'.content) :
    Except.Agree Alike (l.addInstruction line c) (l'.addInstruction line' c') := by
  obtain ⟨head, operands⟩ := Clause.sameText_of_content same
  have parsed : Except.Agree (List.Forall₂ fun o o' : Operand × Nat => o.1.Alike o'.1)
      (c.operands.mapM fun f => (Operand.parse f).map fun o => (o, f.column))
      (c'.operands.mapM fun f => (Operand.parse f).map fun o => (o, f.column)) :=
    .mapM operands fun f f' text => (Operand.parse_agree text).map fun _ _ alike => alike
  have room (column column' : Nat) :
      Alike (if l.codeLength < regionWords then l else l.outgrown line column .codeTooLarge)
        (if l'.codeLength < regionWords then l' else l'.outgrown line' column' .codeTooLarge) := by
    rw [alike.codeLength_eq]
    split
    · exact alike
    · exact alike.outgrown ..
  simp only [addInstruction]
  rw [alike.active_eq]
  split
  · exact .error
  refine parsed.bind fun operands operands' alikeOperands => ?_
  have fit : List.Forall₂ Operand.Alike (operands.map (·.1)) (operands'.map (·.1)) :=
    List.forall₂_map_left_iff.mpr (List.forall₂_map_right_iff.mpr alikeOperands)
  refine (Opcode.select_agree (map_toUpper_congr head) fit).bind fun opcode _ equal => ?_
  cases equal
  have grown := room c.head.column c'.head.column
  have alikeStatements :
      Statement.Alike ⟨line, c.head.column, .instruction opcode operands⟩
        ⟨line', c'.head.column, .instruction opcode operands'⟩ :=
    .instruction opcode alikeOperands
  obtain ⟨active, symbols, statements, -, -, overflow, waiting⟩ :=
    grown.addStatement alikeStatements 0
  exact .ok ⟨active, symbols, statements, congrArg (· + 1) grown.codeLength_eq,
    grown.dataLength_eq, overflow, waiting⟩

theorem expectSymbolName_agree (same : f.SameText f') :
    Except.Agree Eq (expectSymbolName f) (expectSymbolName f') := by
  rw [expectSymbolName, expectSymbolName, ← (same : f.text = f'.text)]
  split
  · exact .ok rfl
  · exact .error

theorem addConstant_agree (alike : l.Alike l') {value value' : Fragment}
    (sameSymbol : f.SameText f') (sameValue : value.SameText value') :
    Except.Agree Alike (l.addConstant f value) (l'.addConstant f' value') := by
  refine (expectSymbolName_agree sameSymbol).bind fun _ _ _ => ?_
  refine (Expression.parse_agree sameValue).bind fun e e' alikeTerms => ?_
  rw [← alike.symbols_eq]
  refine alikeTerms.evaluate_agree.bind fun v _ equal => ?_
  cases equal
  split
  · exact alike.define_agree sameSymbol v
  · exact .error

theorem stringOperand_agree (terminated : Bool) (same : f.SameText f') :
    Except.Agree Eq (stringOperand terminated f) (stringOperand terminated f') := by
  rw [stringOperand, stringOperand, ← (same : f.text = f'.text)]
  split
  · exact (Fragment.toStringBytes_agree same).map fun _ _ equal => by rw [equal]
  · exact .error

theorem addData_agree (alike : l.Alike l') (d : Directive) (same : c.content = c'.content) :
    Except.Agree Alike (l.addData line d c) (l'.addData line' d c') := by
  obtain ⟨-, operands⟩ := Clause.sameText_of_content same
  have parsed := Except.Agree.mapM operands fun _ _ => Expression.parse_agree
  simp only [addData]
  rw [alike.dataLength_eq]
  split
  · refine parsed.bind fun values values' alikeValues => ?_
    rw [alikeValues.length_eq]
    refine .ok (alike.addStatement ?_ _)
    exact StatementBody.Alike.words _ alikeValues
  · refine parsed.bind fun values values' alikeValues => ?_
    rw [alikeValues.length_eq]
    refine .ok (alike.addStatement ?_ _)
    exact StatementBody.Alike.bytes _ alikeValues
  · have read := Except.Agree.mapM operands fun _ _ => stringOperand_agree (d ≠ .ascii)
    refine read.bind fun strings strings' equal => ?_
    rw [List.forall₂_eq_eq_eq] at equal
    cases equal
    refine .ok (alike.addStatement ?_ _)
    exact StatementBody.Alike.string ..

theorem addRoom_agree (alike : l.Alike l') (d : Directive) (same : f.SameText f') :
    Except.Agree Alike (l.addRoom d f) (l'.addRoom d f') := by
  obtain ⟨statements, overflow, rfl, alikeStatements, sameOverflow⟩ := alike.exists_eq
  refine (Expression.parse_agree same).bind fun e e' alikeTerms => ?_
  refine alikeTerms.evaluate_agree.bind fun v _ equal => ?_
  cases equal
  split
  · split
    · exact .ok ⟨rfl, rfl, alikeStatements, rfl, rfl, sameOverflow, rfl⟩
    · exact .error
  · split
    · exact .ok ⟨rfl, rfl, alikeStatements, rfl, rfl, sameOverflow, rfl⟩
    · exact .error

theorem addDataDirective_agree (alike : l.Alike l') (d : Directive)
    (same : c.content = c'.content) :
    Except.Agree Alike (l.addDataDirective line d c) (l'.addDataDirective line' d c') := by
  have check {x y : Except LineError Layout} (grown : Except.Agree Alike x y)
      (column column' : Nat) :
      Except.Agree Alike
        (x >>= fun m => pure (if m.dataLength ≤ regionSize then m
          else m.outgrown line column .dataTooLarge))
        (y >>= fun m => pure (if m.dataLength ≤ regionSize then m
          else m.outgrown line' column' .dataTooLarge)) := by
    refine grown.bind fun m m' alike => .ok ?_
    rw [alike.dataLength_eq]
    split
    · exact alike
    · exact alike.outgrown ..
  have data : Except.Agree Alike (l.addData line d c) (l'.addData line' d c') :=
    alike.addData_agree d same
  have operands := (Clause.sameText_of_content same).2
  simp only [addDataDirective]
  rw [alike.active_eq]
  split
  · exact .error
  rcases c with ⟨head, _ | ⟨first, others⟩⟩ <;> rcases c' with ⟨head', _ | ⟨first', others'⟩⟩
  · exact .error
  · cases operands
  · cases operands
  · obtain ⟨sameFirst, sameOthers⟩ := List.forall₂_cons.mp operands
    dsimp only
    split
    · cases sameOthers with
      | nil => exact check (alike.addRoom_agree d sameFirst) _ _
      | cons => exact .error
    · exact check data _ _

theorem addDirective_agree (alike : l.Alike l') (d : Directive) (same : c.content = c'.content) :
    Except.Agree Alike (l.addDirective line d c) (l'.addDirective line' d c') := by
  have data : Except.Agree Alike (l.addDataDirective line d c) (l'.addDataDirective line' d c') :=
    alike.addDataDirective_agree d same
  have operands := (Clause.sameText_of_content same).2
  have switch (active : Section) : Alike { l with active } { l' with active } := by
    obtain ⟨-, symbols, statements, codeLength, dataLength, overflow, waiting⟩ := alike
    exact ⟨rfl, symbols, statements, codeLength, dataLength, overflow, waiting⟩
  obtain ⟨head, parts⟩ := c
  obtain ⟨head', parts'⟩ := c'
  change List.Forall₂ SameText parts parts' at operands
  cases d with
  | word | byte | space | skip | ascii | asciz | string | align => exact data
  | text | data =>
    simp only [addDirective]
    cases operands with
    | nil => exact .ok (switch _)
    | cons => exact .error
  | global | globl =>
    have checked :
        Except.Agree Eq (parts.forM expectSymbolName) (parts'.forM expectSymbolName) := by
      clear data same
      induction operands with
      | nil => exact .ok rfl
      | cons first _ ih => exact (expectSymbolName_agree first).bind fun _ _ _ => ih
    simp only [addDirective]
    cases operands with
    | nil => exact .error
    | cons => exact checked.map fun _ _ _ => alike
  | equ | set =>
    simp only [addDirective]
    rcases operands with _ | ⟨symbol, _ | ⟨value, _ | ⟨extra, others⟩⟩⟩
    · exact .error
    · exact .error
    · exact alike.addConstant_agree symbol value
    · exact .error

/-! ### Lines -/

theorem addLine_agree (alike : l.Alike l') {src src' : SourceLine}
    (same : src.content = src'.content) :
    Except.Agree Alike (l.addLine line src) (l'.addLine line' src') := by
  have directive : (src.clause.bind fun c => Directive.ofName? c.head.text) =
      src'.clause.bind fun c => Directive.ofName? c.head.text := SourceLine.directive?_congr same
  simp only [addLine]
  rw [directive]
  refine ((alike.alignForWords _).addLabel_agree same).bind fun m m' alike => ?_
  rcases (SourceLine.content_cases same).2 with ⟨none, none'⟩ | ⟨c, c', clause, clause', content⟩
  · rw [none, none']
    exact .ok alike
  · rw [clause, clause']
    dsimp only [Option.bind_some]
    have settled := alike.settleWaiting (Directive.ofName? c'.head.text)
    split
    · next d _ => exact settled.addDirective_agree d content
    · have dot := head?_dot_congr (Clause.sameText_of_content content).1
      by_cases isDirective : c.head.text.head? = some '.'
      · rw [if_pos isDirective, if_pos (dot.mp isDirective)]
        exact .error
      · rw [if_neg isDirective, if_neg (mt dot.mpr isDirective)]
        exact settled.addInstruction_agree content

end Alike

/-! ## All lines -/

theorem addLine_blank {src : SourceLine} (blank : src.content = SourceLine.blankContent) :
    l.addLine line src = .ok l := by
  obtain ⟨label, clause⟩ := Prod.mk.inj blank
  obtain ⟨label', clause'⟩ := src
  cases Option.map_eq_none_iff.mp label
  cases Option.map_eq_none_iff.mp clause
  rw [addLine, Option.bind_none, alignForWords_none]
  rfl

theorem addScanned_blanks {lines : List SourceLine}
    (blank : ∀ src ∈ lines, src.content = SourceLine.blankContent) :
    l.addScanned line lines = .ok l := by
  induction lines generalizing line with
  | nil => rfl
  | cons src lines ih =>
    obtain ⟨head, tail⟩ := List.forall_mem_cons.mp blank
    rw [addScanned, addLine_blank head]
    exact ih tail

end Layout

/-- The contents of the lines that have any. -/
def contentsOf (lines : List SourceLine) : List SourceLine.Content :=
  (lines.map SourceLine.content).filter (· ≠ SourceLine.blankContent)

theorem contentsOf_cons (src : SourceLine) (lines : List SourceLine) :
    contentsOf (src :: lines) =
      if src.content = SourceLine.blankContent then contentsOf lines
      else src.content :: contentsOf lines := by
  rw [contentsOf, List.map_cons, List.filter_cons]
  by_cases blank : src.content = SourceLine.blankContent
  · rw [if_neg (by simpa using blank), if_pos blank, contentsOf]
  · rw [if_pos (by simpa using blank), if_neg blank, contentsOf]

theorem contentsOf_eq_nil {lines : List SourceLine} (none : contentsOf lines = []) :
    ∀ src ∈ lines, src.content = SourceLine.blankContent := by
  intro src member
  have blank := List.filter_eq_nil_iff.mp none src.content (List.mem_map_of_mem member)
  simpa using blank

/-- Behind lines without content stands the first line that has any. -/
theorem contentsOf_eq_cons {lines : List SourceLine}
    {content : SourceLine.Content} {rest : List SourceLine.Content}
    (some : contentsOf lines = content :: rest) :
    ∃ blanks src lines', lines = blanks ++ src :: lines' ∧
      (∀ src ∈ blanks, src.content = SourceLine.blankContent) ∧ src.content = content ∧
      contentsOf lines' = rest := by
  induction lines with
  | nil => cases some
  | cons src lines ih =>
    rw [contentsOf_cons] at some
    split at some
    · next blank =>
      obtain ⟨blanks, src', lines', rfl, areBlank, found⟩ := ih some
      exact ⟨src :: blanks, src', lines', rfl, List.forall_mem_cons.mpr ⟨blank, areBlank⟩, found⟩
    · obtain ⟨head, tail⟩ := List.cons.inj some
      exact ⟨[], src, lines, rfl, nofun, head, tail⟩

namespace Layout

variable {l l' : Layout} {line line' : Nat}

theorem Alike.addScanned_agree (alike : l.Alike l') {lines lines' : List SourceLine}
    (same : contentsOf lines = contentsOf lines') :
    Except.Agree Alike (l.addScanned line lines) (l'.addScanned line' lines') := by
  induction lines generalizing l l' line line' lines' with
  | nil =>
    rw [addScanned_blanks (contentsOf_eq_nil same.symm)]
    exact .ok alike
  | cons src lines ih =>
    rw [contentsOf_cons] at same
    split at same
    · next blank =>
      rw [addScanned, addLine_blank blank]
      exact ih alike same
    · obtain ⟨blanks, src', rest, rfl, areBlank, content, sameRest⟩ := contentsOf_eq_cons same.symm
      rw [addScanned_append, addScanned_blanks areBlank, addScanned, Except.ok_bind, addScanned]
      exact (alike.addLine_agree content.symm).bind fun _ _ alike => ih alike sameRest.symm

/-- Lines with the same contents give layouts that are alike. -/
theorem ofScanned_agree {lines lines' : List SourceLine}
    (same : contentsOf lines = contentsOf lines') :
    Except.Agree Alike (ofScanned lines) (ofScanned lines') :=
  Alike.empty.addScanned_agree same

end Layout

end RobotMachine
