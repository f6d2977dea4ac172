import RobotMachine.Assembly.Assemble
import RobotMachine.Proofs.Forms
import RobotMachine.Proofs.Outcome
import RobotMachine.Proofs.Symbols

/-!
# The layout of the code

The first look at a source counts instructions, and a label in the text section gets the address
that the count gives. Here the count, the sections and the instructions are read off the scanned
lines alone, and `Layout.Follows` ties a layout to the lines that it was made from.

* `Layout.addLine_follows`: one line keeps the layout tied to the lines.
* `Layout.ofLines_follows`: the layout of a source is tied to all of its lines.
-/

namespace RobotMachine

/-! ## What scanned lines say -/

namespace SourceLine

/-- The directive of a line. -/
def directive? (src : SourceLine) : Option Directive :=
  src.clause.bind fun c => Directive.ofName? c.head.text

/-- The instruction of a line: its clause, unless that starts with the dot of a directive. -/
def instruction? (src : SourceLine) : Option Clause :=
  src.clause.filter fun c => c.head.text.head? ≠ some '.'

/-- The section that is active behind a line. -/
def sectionAfter (active : Section) (src : SourceLine) : Section :=
  match src.directive? with
  | some .text => .text
  | some .data => .data
  | _ => active

end SourceLine

/-- The section that is active behind some lines of a source. -/
def sectionAt (lines : List SourceLine) : Section :=
  lines.foldl SourceLine.sectionAfter .text

/-- The instructions in some lines of a source, in their order. -/
def instructionsOf (lines : List SourceLine) : List Clause :=
  lines.filterMap SourceLine.instruction?

/-- The instructions in some lines of a source, each with the number of its line. -/
def numberedInstructions (lines : List SourceLine) : List (Clause × Nat) :=
  (lines.zipIdx 1).filterMap fun (src, n) => src.instruction?.map (·, n)

/-- The address of an instruction with some instructions before it. -/
def codeAddress (count : Nat) : Nat :=
  codeBase.toNat + count * wordSize

/-- Some line defines the label in the text section, where it names an address. -/
def DefinesTextLabel (lines : List SourceLine) (name : String) (address : Nat) : Prop :=
  ∃ i src label, lines[i]? = some src ∧ src.label = some label ∧
    sectionAt (lines.take i) = .text ∧ label.toString = name ∧
    address = codeAddress (instructionsOf (lines.take i)).length

/-- The value of a label in the text section, as a symbol table holds it. -/
def IsTextLabel (lines : List SourceLine) (name : String) (v : Int) : Prop :=
  ∃ address : Nat, DefinesTextLabel lines name address ∧ v = address

/-- The statement of an instruction on a line: the operands are parsed, and the opcode is the form
that they fit. -/
def Clause.Places (c : Clause) (line : Nat) (s : Statement) : Prop :=
  ∃ opcode operands,
    (c.operands.mapM fun f => (Operand.parse f).map fun o => (o, f.column)) = .ok operands ∧
      opcode.IsFormOf c.head.text (operands.map (·.1)) ∧
      s = ⟨line, c.head.column, .instruction opcode operands⟩

def Statement.isInstruction (s : Statement) : Bool :=
  match s.body with
  | .instruction .. => true
  | .words .. | .bytes .. | .string .. => false

/-- Where the bytes of a data statement stand in the data, and how many they are. -/
def Statement.extent? (s : Statement) : Option (Nat × Nat) :=
  match s.body with
  | .instruction .. => none
  | .words offset values => some (offset, values.length * wordSize)
  | .bytes offset values => some (offset, values.length)
  | .string offset bytes => some (offset, bytes.length)

theorem Statement.isInstruction_of_extent? {s : Statement} {extent : Nat × Nat}
    (place : s.extent? = some extent) : s.isInstruction = false := by
  rcases s with ⟨line, column, body⟩
  cases body with
  | instruction opcode operands => cases place
  | words offset values => rfl
  | bytes offset values => rfl
  | string offset bytes => rfl

section Lines

variable (lines : List SourceLine) (src : SourceLine)

theorem sectionAt_concat :
    sectionAt (lines ++ [src]) = src.sectionAfter (sectionAt lines) := by
  rw [sectionAt, List.foldl_append]
  rfl

theorem instructionsOf_concat :
    instructionsOf (lines ++ [src]) = instructionsOf lines ++ src.instruction?.toList := by
  rw [instructionsOf, List.filterMap_append]
  cases found : src.instruction? <;> simp [instructionsOf, found]

theorem numberedInstructions_concat :
    numberedInstructions (lines ++ [src]) =
      numberedInstructions lines ++ (src.instruction?.map (·, lines.length + 1)).toList := by
  rw [numberedInstructions, List.zipIdx_append, List.filterMap_append, Nat.add_comm 1]
  cases found : src.instruction? <;> simp [numberedInstructions, found]

variable {lines src}

theorem DefinesTextLabel.of_concat {name : String} {address : Nat}
    (h : DefinesTextLabel (lines ++ [src]) name address) :
    DefinesTextLabel lines name address ∨
      ∃ label, src.label = some label ∧ sectionAt lines = .text ∧ label.toString = name ∧
        address = codeAddress (instructionsOf lines).length := by
  obtain ⟨i, src', label, found, labelled, active, named, addressed⟩ := h
  rcases Nat.lt_trichotomy i lines.length with before | here | after
  · rw [List.getElem?_append_left before] at found
    rw [List.take_append_of_le_length (Nat.le_of_lt before)] at active addressed
    exact .inl ⟨i, src', label, found, labelled, active, named, addressed⟩
  · subst here
    rw [List.getElem?_concat_length] at found
    rw [List.take_left] at active addressed
    cases found
    exact .inr ⟨label, labelled, active, named, addressed⟩
  · rw [List.getElem?_eq_none (by rw [List.length_append, List.length_singleton]; omega)] at found
    cases found

theorem isTextLabel_of_concat {name : String} {v : Int}
    (listed : IsTextLabel (lines ++ [src]) name v) :
    IsTextLabel lines name v ∨
      ∃ label, src.label = some label ∧ sectionAt lines = .text ∧ name = label.toString ∧
        v = codeAddress (instructionsOf lines).length := by
  obtain ⟨address, defines, rfl⟩ := listed
  rcases defines.of_concat with before | ⟨label, here, inText, named, rfl⟩
  · exact .inl ⟨address, before, rfl⟩
  · exact .inr ⟨label, here, inText, named.symm, rfl⟩

end Lines

theorem Directive.eq_of_toLower {c : Char} (lower : c.toLower = '.') : c = '.' := by
  unfold Char.toLower at lower
  split at lower
  · next upper =>
    have atLeast : 'A'.val.toNat ≤ c.val.toNat := upper.1
    have atMost : c.val.toNat ≤ 'Z'.val.toNat := upper.2
    have moved := congrArg (fun c => c.val.toNat) lower
    simp at moved atLeast atMost
    omega
  · exact lower

/-- A directive is written with a dot in front, whatever the case of its letters. -/
theorem Directive.head?_of_ofName? {text : List Char} {d : Directive}
    (named : ofName? text = some d) : text.head? = some '.' := by
  have same := List.find?_some named
  rw [beq_iff_eq] at same
  have dot : d.name.toList.head? = some '.' := by
    cases d <;> decide
  rw [same, List.head?_map, Option.map_eq_some_iff] at dot
  obtain ⟨c, head, lower⟩ := dot
  rw [head, eq_of_toLower lower]

theorem Directive.ofName?_eq_none {text : List Char} (noDot : text.head? ≠ some '.') :
    ofName? text = none :=
  Option.eq_none_iff_forall_ne_some.mpr fun _ named => noDot (head?_of_ofName? named)

/-! ## Lines that leave the code alone -/

namespace Layout

variable {l l' l'' : Layout}

/-- The second layout differs from the first at most in its data and in an overflow of it. -/
structure SameCode (l l' : Layout) : Prop where
  active_eq : l'.active = l.active
  codeLength_eq : l'.codeLength = l.codeLength
  symbols_eq : l'.symbols = l.symbols
  waiting_eq : l'.waiting = l.waiting
  instructions_eq :
    l'.statements.filter Statement.isInstruction = l.statements.filter Statement.isInstruction
  fits : l'.overflow = none → l.overflow = none

theorem SameCode.trans (first : SameCode l l') (second : SameCode l' l'') : SameCode l l'' where
  active_eq := second.active_eq.trans first.active_eq
  codeLength_eq := second.codeLength_eq.trans first.codeLength_eq
  symbols_eq := second.symbols_eq.trans first.symbols_eq
  waiting_eq := second.waiting_eq.trans first.waiting_eq
  instructions_eq := second.instructions_eq.trans first.instructions_eq
  fits none := first.fits (second.fits none)

theorem sameCode_outgrown (l : Layout) (line column : Nat) (cause : Cause) :
    SameCode l (l.outgrown line column cause) :=
  ⟨rfl, rfl, rfl, rfl, rfl, nofun⟩

theorem sameCode_alignForWords (l : Layout) (directive : Option Directive) :
    SameCode l (l.alignForWords directive) := by
  unfold alignForWords
  split
  · exact ⟨rfl, rfl, rfl, rfl, rfl, id⟩
  · exact ⟨rfl, rfl, rfl, rfl, rfl, id⟩

theorem alignForWords_none (l : Layout) : l.alignForWords none = l :=
  if_neg fun word => by cases word.2

/-- What allocating data does: the end of the data moves up, and what it moves over is left blank
or is filled by one new statement. -/
inductive Allocates (l : Layout) : Layout → Prop
  | room {dataLength : Nat} : l.dataLength ≤ dataLength → Allocates l { l with dataLength }
  | statement {s : Statement} {size : Nat} :
    s.extent? = some (l.dataLength, size) →
      Allocates l (l.addStatement s (l.dataLength + size))

theorem Allocates.sameCode (allocates : l.Allocates l') : SameCode l l' := by
  cases allocates with
  | room _ => exact ⟨rfl, rfl, rfl, rfl, rfl, id⟩
  | statement place =>
    refine ⟨rfl, rfl, rfl, rfl, ?_, id⟩
    rw [addStatement, List.filter_cons_of_neg]
    rw [Statement.isInstruction_of_extent? place]
    nofun

theorem le_roundUp (n : Nat) {m : Nat} (positive : 0 < m) : n ≤ roundUp n m := by
  have below : n + (m - 1) < m * ((n + (m - 1)) / m + 1) := Nat.lt_mul_div_succ _ positive
  rw [Nat.mul_add, Nat.mul_one, Nat.mul_comm] at below
  rw [roundUp]
  omega

theorem allocates_of_addRoom {d : Directive} {amount : Fragment}
    (added : l.addRoom d amount = .ok l') : l.Allocates l' := by
  simp only [addRoom, Except.bind_eq_ok_iff] at added
  obtain ⟨_, -, v, -, added⟩ := added
  split at added
  · split at added
    · cases added
      exact .room (le_roundUp _ (Nat.one_shiftLeft v.toNat ▸ Nat.two_pow_pos _))
    · cases added
  · split at added
    · cases added
      exact .room (Nat.le_add_right _ _)
    · cases added

theorem allocates_of_addData {line : Nat} {d : Directive} {c : Clause}
    (added : l.addData line d c = .ok l') : l.Allocates l' := by
  simp only [addData] at added
  split at added <;>
    (simp only [Except.bind_eq_ok_iff, Except.pure_eq_ok_iff] at added
     obtain ⟨_, -, rfl⟩ := added
     exact .statement rfl)

/-- A data directive allocates, and an overflow is noted if the data has outgrown its region. -/
theorem addDataDirective_eq_ok {line : Nat} {d : Directive} {c : Clause}
    (added : l.addDataDirective line d c = .ok l') :
    ∃ grown, l.Allocates grown ∧
      l' = if grown.dataLength ≤ regionSize then grown
        else grown.outgrown line c.head.column .dataTooLarge := by
  simp only [addDataDirective] at added
  split at added
  · cases added
  split at added
  · cases added
  split at added
  · split at added
    · obtain ⟨grown, made, checked⟩ := Except.bind_eq_ok_iff.mp added
      exact ⟨grown, allocates_of_addRoom made, (Except.ok.inj checked).symm⟩
    · cases added
  · obtain ⟨grown, made, checked⟩ := Except.bind_eq_ok_iff.mp added
    exact ⟨grown, allocates_of_addData made, (Except.ok.inj checked).symm⟩

theorem sameCode_addDataDirective {line : Nat} {d : Directive} {c : Clause}
    (added : l.addDataDirective line d c = .ok l') : SameCode l l' := by
  obtain ⟨grown, allocates, rfl⟩ := addDataDirective_eq_ok added
  split
  · exact allocates.sameCode
  · exact allocates.sameCode.trans (sameCode_outgrown _ _ _ _)

/-! ## One line -/

/-- The layout is what the lines say about the code, with the labels of some lines. -/
structure Follows (l : Layout) (lines labelled : List SourceLine) : Prop where
  active_eq : l.active = sectionAt lines
  codeLength_eq : l.codeLength = (instructionsOf lines).length
  statements : List.Forall₂ (fun (c, line) s => c.Places line s) (numberedInstructions lines)
    (l.statements.reverse.filter Statement.isInstruction)
  labels : l.Keeps (IsTextLabel labelled)
  fits : l.overflow = none → l.codeLength ≤ regionWords

variable {lines labelled : List SourceLine} {src : SourceLine} {c : Clause} {line : Nat}

theorem Follows.empty : Follows {} [] [] where
  active_eq := rfl
  codeLength_eq := rfl
  statements := .nil
  labels := Keeps.empty.weaken fun _ _ ⟨_, ⟨_, _, _, found, _⟩, _⟩ => nomatch found
  fits _ := Nat.zero_le _

theorem Follows.of_sameCode (follows : l.Follows lines labelled) (same : SameCode l l') :
    l'.Follows lines labelled where
  active_eq := same.active_eq.trans follows.active_eq
  codeLength_eq := same.codeLength_eq.trans follows.codeLength_eq
  statements := by
    rw [List.filter_reverse, same.instructions_eq, ← List.filter_reverse]
    exact follows.statements
  labels := follows.labels.of_eq same.symbols_eq same.waiting_eq
  fits none := by
    rw [same.codeLength_eq]
    exact follows.fits (same.fits none)

/-- A line without an instruction may switch the section. -/
theorem Follows.switch (follows : l.Follows lines labelled) (none : src.instruction? = none)
    {active : Section} (active_eq : src.sectionAfter l.active = active) :
    Follows { l with active } (lines ++ [src]) labelled where
  active_eq := by
    rw [sectionAt_concat, ← follows.active_eq]
    exact active_eq.symm
  codeLength_eq := by
    rw [instructionsOf_concat, none, Option.toList_none, List.append_nil]
    exact follows.codeLength_eq
  statements := by
    rw [numberedInstructions_concat, none, Option.map_none, Option.toList_none, List.append_nil]
    exact follows.statements
  labels := follows.labels.of_eq rfl rfl
  fits := follows.fits

theorem define_eq_ok {name : Fragment} {v : Int} (defined : l.define name v = .ok l') :
    l.symbols.isTaken name.toString = false ∧
      l' = { l with symbols := (name.toString, v) :: l.symbols } := by
  simp only [define] at defined
  split at defined
  · cases defined
  split at defined
  · cases defined
  · next free =>
    cases defined
    exact ⟨Bool.eq_false_iff.mpr free, rfl⟩

/-- A constant is defined with the value of its operand, which is in the range of a word. -/
theorem addConstant_eq_ok {symbol value : Fragment} (added : l.addConstant symbol value = .ok l') :
    ∃ e v, Expression.parse value = .ok e ∧ e.evaluate l.symbols = .ok v ∧ fitsWord v = true ∧
      l.define symbol v = .ok l' := by
  simp only [addConstant, Except.bind_eq_ok_iff] at added
  obtain ⟨-, -, e, parsed, v, evaluated, added⟩ := added
  split at added
  · next fits => exact ⟨e, v, parsed, evaluated, fits, added⟩
  · cases added

theorem Follows.define (follows : l.Follows lines labelled) {name : Fragment} {v : Int}
    (defined : l.define name v = .ok l') : l'.Follows lines labelled := by
  obtain ⟨free, rfl⟩ := define_eq_ok defined
  obtain ⟨active, codeLength, statements, labels, fits⟩ := follows
  exact ⟨active, codeLength, statements, (labels.define free _).weaken fun _ _ => .inl, fits⟩

theorem settleWaiting_eq (l : Layout) (directive : Option Directive) :
    ∃ symbols waiting, l.settleWaiting directive = { l with symbols, waiting } := by
  unfold settleWaiting
  split
  · exact ⟨l.symbols, l.waiting, rfl⟩
  split
  · exact ⟨l.symbols.move l.waiting l.location, [], rfl⟩
  · exact ⟨l.symbols, [], rfl⟩

theorem Follows.settleWaiting (follows : l.Follows lines labelled) (directive : Option Directive) :
    (l.settleWaiting directive).Follows lines labelled := by
  obtain ⟨active, codeLength, statements, labels, fits⟩ := follows
  have settled := labels.settleWaiting directive
  obtain ⟨symbols, waiting, same⟩ := l.settleWaiting_eq directive
  rw [same] at settled ⊢
  exact ⟨active, codeLength, statements, settled, fits⟩

/-- In the text section the label of a line names the address of the next instruction. -/
theorem Follows.addLabel (follows : l.Follows lines lines) (added : l.addLabel src = .ok l') :
    l'.Follows lines (lines ++ [src]) := by
  obtain ⟨active, codeLength, statements, labels, fits⟩ := follows
  simp only [Layout.addLabel] at added
  cases labelled : src.label with
  | none =>
    rw [labelled] at added
    cases added
    refine ⟨active, codeLength, statements, labels.weaken fun name v listed => ?_, fits⟩
    rcases isTextLabel_of_concat listed with before | ⟨label, here, -⟩
    · exact before
    · rw [labelled] at here
      cases here
  | some label =>
    simp only [labelled, Except.bind_eq_ok_iff] at added
    obtain ⟨defined, isDefined, added⟩ := added
    obtain ⟨free, rfl⟩ := define_eq_ok isDefined
    split at added
    · next waits =>
      cases added
      refine ⟨active, codeLength, statements, ?_, fits⟩
      refine (labels.defineWaiting free _).weaken fun name v listed => ?_
      rcases isTextLabel_of_concat listed with before | ⟨-, -, inText, -⟩
      · exact before
      -- only a label of the data section waits, so the text section gains none here
      · rw [← active, waits.1] at inText
        cases inText
    · cases added
      refine ⟨active, codeLength, statements, ?_, fits⟩
      refine (labels.define free _).weaken fun name v listed => ?_
      rcases isTextLabel_of_concat listed with before | ⟨_, here, inText, rfl, rfl⟩
      · exact .inl before
      · rw [labelled] at here
        cases here
        rw [← active] at inText
        refine .inr ⟨rfl, ?_⟩
        rw [location, inText, ← codeLength, codeAddress]
        rfl

theorem Follows.addConstant (follows : l.Follows lines labelled) {symbol value : Fragment}
    (added : l.addConstant symbol value = .ok l') : l'.Follows lines labelled := by
  obtain ⟨e, v, -, -, -, defined⟩ := addConstant_eq_ok added
  exact follows.define defined

/-- A directive switches the section, defines a constant, steers the data or does nothing. -/
theorem addDirective_eq_ok {d : Directive} (added : l.addDirective line d c = .ok l') :
    d = .text ∧ l' = { l with active := .text } ∨ d = .data ∧ l' = { l with active := .data } ∨
      (d ≠ .text ∧ d ≠ .data) ∧ (l' = l ∨ l.addDataDirective line d c = .ok l' ∨
        ∃ symbol value, l.addConstant symbol value = .ok l') := by
  cases d with
  | text =>
    simp only [addDirective] at added
    split at added
    · cases added
      exact .inl ⟨rfl, rfl⟩
    · cases added
  | data =>
    simp only [addDirective] at added
    split at added
    · cases added
      exact .inr (.inl ⟨rfl, rfl⟩)
    · cases added
  | global | globl =>
    simp only [addDirective] at added
    split at added
    · cases added
    · obtain ⟨-, -, same⟩ := Except.map_eq_ok_iff.mp added
      exact .inr (.inr ⟨⟨nofun, nofun⟩, .inl same.symm⟩)
  | equ | set =>
    simp only [addDirective] at added
    split at added
    · exact .inr (.inr ⟨⟨nofun, nofun⟩, .inr (.inr ⟨_, _, added⟩)⟩)
    · cases added
  | word | byte | space | skip | ascii | asciz | string | align =>
    exact .inr (.inr ⟨⟨nofun, nofun⟩, .inr (.inl added)⟩)

/-- A directive adds no instruction, and only the two section directives switch the section. -/
theorem Follows.addDirective (follows : l.Follows lines labelled) {d : Directive}
    (clause : src.clause = some c) (named : Directive.ofName? c.head.text = some d)
    (added : l.addDirective line d c = .ok l') : l'.Follows (lines ++ [src]) labelled := by
  have directive : src.directive? = some d := by
    rw [SourceLine.directive?, clause]
    exact named
  have none : src.instruction? = none := by
    rw [SourceLine.instruction?, clause, Option.filter_some, Directive.head?_of_ofName? named]
    rfl
  rcases addDirective_eq_ok added with ⟨rfl, rfl⟩ | ⟨rfl, rfl⟩ | ⟨others, outcome⟩
  · exact follows.switch none (by rw [SourceLine.sectionAfter, directive])
  · exact follows.switch none (by rw [SourceLine.sectionAfter, directive])
  · have stays (active : Section) : src.sectionAfter active = active := by
      rw [SourceLine.sectionAfter, directive]
      cases d with
      | text => exact (others.1 rfl).elim
      | data => exact (others.2 rfl).elim
      | _ => rfl
    rcases outcome with rfl | data | ⟨symbol, value, constant⟩
    · exact follows.switch none (stays _)
    · exact (follows.of_sameCode (sameCode_addDataDirective data)).switch none (stays _)
    · exact (follows.addConstant constant).switch none (stays _)

theorem addInstruction_eq_ok (added : l.addInstruction line c = .ok l') :
    ∃ s overflow, c.Places line s ∧
      (overflow = none → l.overflow = none ∧ l.codeLength < regionWords) ∧
      l' = { l with
        statements := s :: l.statements
        codeLength := l.codeLength + 1
        overflow := overflow } := by
  simp only [addInstruction] at added
  split at added
  · cases added
  obtain ⟨operands, parsed, added⟩ := Except.bind_eq_ok_iff.mp added
  obtain ⟨opcode, selected, added⟩ := Except.bind_eq_ok_iff.mp added
  have places : c.Places line ⟨line, c.head.column, .instruction opcode operands⟩ :=
    ⟨opcode, operands, parsed, Opcode.select_eq_ok_iff.mp selected, rfl⟩
  split at added
  · next room =>
    cases added
    exact ⟨_, l.overflow, places, fun none => ⟨none, room⟩, rfl⟩
  · cases added
    exact ⟨_, some _, places, nofun, rfl⟩

/-- An instruction adds one statement and one word of code. -/
theorem Follows.addInstruction (follows : l.Follows lines labelled)
    (clause : src.clause = some c) (named : c.head.text.head? ≠ some '.')
    (added : l.addInstruction (lines.length + 1) c = .ok l') :
    l'.Follows (lines ++ [src]) labelled := by
  have instruction : src.instruction? = some c := by
    rw [SourceLine.instruction?, clause, Option.filter_some, decide_eq_true named]
    rfl
  have stays (active : Section) : src.sectionAfter active = active := by
    have none : src.directive? = none := by
      rw [SourceLine.directive?, clause, Option.bind_some]
      exact Directive.ofName?_eq_none named
    rw [SourceLine.sectionAfter, none]
  obtain ⟨s, overflow, places, room, rfl⟩ := addInstruction_eq_ok added
  obtain ⟨active, codeLength, statements, labels, fits⟩ := follows
  refine ⟨?_, ?_, ?_, labels.of_eq rfl rfl, ?_⟩
  · rw [sectionAt_concat, stays]
    exact active
  · rw [instructionsOf_concat, instruction, Option.toList_some, List.length_append,
      List.length_singleton, ← codeLength]
  · have isInstruction : s.isInstruction = true := by
      obtain ⟨opcode, operands, -, -, rfl⟩ := places
      rfl
    rw [numberedInstructions_concat, instruction, List.reverse_cons, List.filter_append,
      List.filter_cons_of_pos isInstruction]
    exact List.rel_append statements (.cons places .nil)
  · intro none
    exact (room none).2

/-- A line aligns the data for words, defines its label, and then adds its directive or its
instruction, if it has one. -/
theorem addLine_eq_ok (added : l.addLine line src = .ok l') :
    ∃ labelled, (l.alignForWords src.directive?).addLabel src = .ok labelled ∧
      (src.clause = none ∧ l' = labelled ∨
        ∃ c, src.clause = some c ∧
          ((∃ d, Directive.ofName? c.head.text = some d ∧
              (labelled.settleWaiting (some d)).addDirective line d c = .ok l') ∨
            (c.head.text.head? ≠ some '.' ∧
              (labelled.settleWaiting none).addInstruction line c = .ok l'))) := by
  simp only [addLine] at added
  obtain ⟨labelled, labelAdded, added⟩ := Except.bind_eq_ok_iff.mp added
  refine ⟨labelled, labelAdded, ?_⟩
  cases clause : src.clause with
  | none =>
    rw [clause] at added
    exact .inl ⟨rfl, (Except.ok.inj added).symm⟩
  | some c =>
    simp only [clause, Option.bind_some] at added
    refine .inr ⟨c, rfl, ?_⟩
    cases directive : Directive.ofName? c.head.text with
    | some d =>
      rw [directive] at added
      exact .inl ⟨d, rfl, added⟩
    | none =>
      simp only [directive] at added
      split at added
      · cases added
      · next named => exact .inr ⟨named, added⟩

/-- One line keeps the layout tied to the lines. -/
theorem addLine_follows (follows : l.Follows lines lines)
    (added : l.addLine (lines.length + 1) src = .ok l') :
    l'.Follows (lines ++ [src]) (lines ++ [src]) := by
  obtain ⟨labelled, labelAdded, added⟩ := addLine_eq_ok added
  have followsLabel := (follows.of_sameCode (sameCode_alignForWords l _)).addLabel labelAdded
  rcases added with ⟨clause, rfl⟩ | ⟨c, clause, ⟨d, directive, added⟩ | ⟨named, added⟩⟩
  · refine followsLabel.switch ?_ ?_
    · rw [SourceLine.instruction?, clause]
      rfl
    · rw [SourceLine.sectionAfter, SourceLine.directive?, clause]
      rfl
  · exact (followsLabel.settleWaiting _).addDirective clause directive added
  · exact (followsLabel.settleWaiting _).addInstruction clause named added

/-! ## All lines -/

/-- Adding lines scans each of them, and keeps the layout tied to all lines scanned. -/
theorem addLines_follows {texts : List (List Char)} (follows : l.Follows lines lines)
    (added : l.addLines (lines.length + 1) texts = .ok l') :
    ∃ srcs, texts.mapM SourceLine.scan = .ok srcs ∧
      l'.Follows (lines ++ srcs) (lines ++ srcs) := by
  induction texts generalizing l lines with
  | nil =>
    cases added
    refine ⟨[], rfl, ?_⟩
    rw [List.append_nil]
    exact follows
  | cons text texts ih =>
    simp only [addLines] at added
    split at added
    · next next_ok =>
      obtain ⟨src, scanned, lineAdded⟩ := Except.bind_eq_ok_iff.mp next_ok
      -- the lines taken so far grow at their end, so that the last of them numbers the next one
      have followsNext := addLine_follows follows lineAdded
      have numbered : (lines ++ [src]).length = lines.length + 1 := List.length_append
      rw [← numbered] at added
      obtain ⟨srcs, scannedAll, followsAll⟩ := ih followsNext added
      refine ⟨src :: srcs, ?_, ?_⟩
      · rw [List.mapM_cons, scanned, scannedAll]
        rfl
      · rw [List.append_cons]
        exact followsAll
    · cases added

theorem ofLines_follows {texts : List (List Char)} (laidOut : ofLines texts = .ok l) :
    ∃ lines, texts.mapM SourceLine.scan = .ok lines ∧ l.Follows lines lines :=
  addLines_follows Follows.empty laidOut

end Layout

end RobotMachine
