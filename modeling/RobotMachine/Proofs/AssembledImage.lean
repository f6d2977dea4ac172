import RobotMachine.Proofs.AssembledProgram
import RobotMachine.Proofs.Image
import RobotMachine.Proofs.PlainText

/-!
# Images of assembled programs

The assembler keeps within every bound that reading an image checks, but for two: it does not count
the symbols, and it does not measure their names. A program with too many symbols or too long a name
is written, and its image is refused.

* `assemble_labelledHalt`: a label of any length before an instruction.
* `assemble_read_back_iff`: the assembled programs that come back from their images.
* `assemble_not_read_back_longLabel`: a program that does not.
-/

namespace RobotMachine

/-! ## What comes back -/

/-- The symbols are few and their names short enough to be read back from an image. -/
structure Program.SymbolsFit (p : Program) : Prop where
  symbols_le : p.symbols.length ≤ maxLength
  names_le : ∀ entry ∈ p.symbols, entry.1.utf8ByteSize ≤ maxLength

namespace Program.FitsRegions

variable {p : Program}

theorem storable (fits : p.FitsRegions) (symbols : p.SymbolsFit) : p.Storable :=
  ⟨fits.code_le, fits.data_le, fits.lines_eq, symbols.symbols_le, symbols.names_le⟩

/-- The parts of a program that fits its regions can be read back if its symbols can. -/
theorem fits_parts_iff (fits : p.FitsRegions) :
    programShape.Fits p.parts ↔ p.SymbolsFit := by
  refine ⟨fun parts => ?_, fun symbols => (fits.storable symbols).fits_parts⟩
  obtain ⟨-, -, -, count, names⟩ := parts
  exact ⟨count, fun entry member => (names entry member).1⟩

theorem ofImage_toImage_iff (fits : p.FitsRegions) :
    ofImage p.toImage = .ok p ↔ p.SymbolsFit := by
  rw [ofImage_toImage, ofBody_eq_ok_iff]
  refine ⟨fun image => ?_, fun symbols => ⟨rfl, fits.storable symbols⟩⟩
  obtain ⟨-, storable⟩ := image
  exact ⟨storable.symbols_le, storable.names_le⟩

end Program.FitsRegions

/-! ## A label of any length -/

/-- What stands behind the label in a line that halts. -/
def haltTail : List Char :=
  [':', ' ', 'H', 'A', 'L', 'T']

/-- The program of a line that halts, with a label before it. -/
def Program.labelledHalt (name : List Char) : Program where
  code := [0x00000000]
  lines := [1]
  symbols := [(String.ofList name, codeBase)]

/-- What the first look finds in a labelled halt. -/
def Layout.labelledHalt (name : List Char) : Layout where
  symbols := [(String.ofList name, codeBase.toNat)]
  statements := [⟨1, 1 + utf8Length name + 2, .instruction .halt []⟩]
  codeLength := 1

/-- The second look at a labelled halt. -/
theorem Layout.emit_labelledHalt (name : List Char) :
    (labelledHalt name).emit = .ok (.labelledHalt name) := by
  have sorted : [(String.ofList name, codeBase)].mergeSort (fun a b => a.1 ≤ b.1) =
      [(String.ofList name, codeBase)] := List.mergeSort_singleton _
  have program : (labelledHalt name).program [.word 0x00000000 1] = .labelledHalt name := by
    rw [Program.labelledHalt, ← sorted]
    rfl
  rw [← program]
  rfl

/-- An instruction at the start of the code finds the label in front of it defined there. -/
theorem Layout.addLine_labelled {name : List Char} {c : Clause}
    (noRegister : Register.ofName? name = none)
    (noMailbox : String.ofList name ≠ SymbolTable.mailboxName)
    (noDot : c.head.text.head? ≠ some '.') (column : Nat) :
    addLine {} 1 ⟨some ⟨column, name⟩, some c⟩ =
      addInstruction { symbols := [(String.ofList name, codeBase.toNat)] } 1 c := by
  have free : SymbolTable.isTaken [] (String.ofList name) = false := by
    rw [SymbolTable.isTaken, beq_false_of_ne noMailbox]
    rfl
  have defined : define {} ⟨column, name⟩ codeBase.toNat =
      .ok { symbols := [(String.ofList name, codeBase.toNat)] } := by
    simp only [define, noRegister, Option.isSome_none, Bool.false_eq_true, if_false,
      Fragment.toString, free]
  have labelled : addLabel {} ⟨some ⟨column, name⟩, some c⟩ =
      .ok { symbols := [(String.ofList name, codeBase.toNat)] } := by
    have location : location {} = codeBase.toNat := rfl
    simp only [addLabel, location, defined, Except.ok_bind]
    rfl
  have noDirective := Directive.ofName?_eq_none noDot
  have unaligned : alignForWords {} none = {} := rfl
  simp only [addLine, Option.bind_some, noDirective, unaligned, labelled, Except.ok_bind,
    if_neg noDot]
  rfl

section

variable {name : List Char} (named : IsName name)

include named

theorem SourceLine.scan_labelledHalt :
    scan (name ++ haltTail) = .ok {
      label := some ⟨1, name⟩
      clause := some ⟨⟨1 + utf8Length name + 2, ['H', 'A', 'L', 'T']⟩, []⟩ } := by
  have code : codeOfLine (name ++ haltTail) = .ok ⟨1, name ++ haltTail⟩ := by
    obtain ⟨opened, column, passed⟩ := codeText_append_of_plain named.isPlainChar 1 1 haltTail
    rw [codeOfLine, passed]
    rfl
  have stops : ∀ c ∈ haltTail.head?, isIdentifierChar c = false := by
    rintro c ⟨⟩
    rfl
  rw [scan, code, Except.ok_bind]
  dsimp only
  rw [Fragment.skipBlanks_of_isName named, if_neg named.append_ne_nil,
    Fragment.splitIdentifier_of_isName named stops, Except.ok_bind]
  rfl

theorem linesOf_labelledHalt : linesOf (name ++ haltTail) = [name ++ haltTail] := by
  refine linesOf_singleton (fun member => ?_) named.append_ne_nil
  rcases List.mem_append.mp member with inName | inTail
  · exact ne_of_holds (named.isPlainChar _ inName) (by decide) rfl
  · revert inTail
    decide

variable (noRegister : Register.ofName? name = none)
  (noMailbox : String.ofList name ≠ SymbolTable.mailboxName)

include noRegister noMailbox

/-- The first look at a labelled halt defines the label at the start of the code. -/
theorem Layout.ofLines_labelledHalt :
    Layout.ofLines [name ++ haltTail] = .ok (.labelledHalt name) := by
  have added : Layout.addLine {} 1 ⟨some ⟨1, name⟩,
      some ⟨⟨1 + utf8Length name + 2, ['H', 'A', 'L', 'T']⟩, []⟩⟩ = .ok (.labelledHalt name) := by
    have noDot : ['H', 'A', 'L', 'T'].head? ≠ some '.' := by decide
    rw [addLine_labelled noRegister noMailbox noDot]
    rfl
  simp only [Layout.ofLines, Layout.addLines, SourceLine.scan_labelledHalt named, Except.ok_bind,
    added]

/-- A label before an instruction assembles, however long it is. -/
theorem assemble_labelledHalt :
    assemble (String.ofList (name ++ haltTail)) = .ok (.labelledHalt name) := by
  rw [assemble, String.toList_ofList, linesOf_labelledHalt named,
    Layout.ofLines_labelledHalt named noRegister noMailbox, Except.ok_bind]
  exact Layout.emit_labelledHalt name

end

/-! ## A label that is too long -/

theorem Register.ofName?_eq_none_of_length {text : List Char} (long : 3 < text.length) :
    Register.ofName? text = none := by
  have short : ∀ r ∈ Register.all,
      r.name.toList.length ≤ 3 ∧ r.numberedName.toList.length ≤ 3 := by
    decide +kernel
  refine List.find?_eq_none.mpr fun r member named => ?_
  obtain ⟨name, numbered⟩ := short r member
  rw [Register.isNamed, Bool.or_eq_true, beq_iff_eq, beq_iff_eq] at named
  rcases named with same | same
  · rw [← same, List.length_map] at name
    omega
  · rw [← same, List.length_map] at numbered
    omega

theorem utf8ByteSize_ofList (text : List Char) :
    (String.ofList text).utf8ByteSize = utf8Length text := by
  induction text with
  | nil => rfl
  | cons c text ih =>
    have head : (String.ofList [c]).utf8ByteSize = c.utf8Size := by simp
    rw [← List.singleton_append, String.ofList_append, String.utf8ByteSize_append, head, ih,
      utf8Length_append, utf8Length, utf8Length, Nat.add_zero]

/-- Each character of a name takes up one byte. -/
theorem IsName.utf8ByteSize_eq {name : List Char} (named : IsName name) :
    (String.ofList name).utf8ByteSize = name.length := by
  have small (c : Char) (member : c ∈ name) : c.utf8Size = 1 := by
    have range := toNat_of_isWordChar (isWordChar_of_isAlphanum (named.alphanum c member))
    refine Char.utf8Size_eq_one_iff.mpr (UInt32.le_iff_toNat_le.mpr ?_)
    exact Nat.le_trans range.2 (by decide)
  rw [utf8ByteSize_ofList]
  clear named
  induction name with
  | nil => rfl
  | cons c name ih =>
    rw [utf8Length, small c List.mem_cons_self,
      ih fun d member => small d (List.mem_cons_of_mem c member), List.length_cons, Nat.add_comm]

/-- Every length in the image of a labelled halt can be written. -/
theorem Program.sized_labelledHalt {name : List Char} (named : IsName name)
    (sized : name.length < 256 ^ 8) : programShape.Sized (labelledHalt name).parts := by
  have zero : 0 < 256 ^ 8 := by decide
  have one : 1 < 256 ^ 8 := by decide
  rw [← named.utf8ByteSize_eq] at sized
  exact ⟨⟨one, fun _ _ => trivial⟩, ⟨zero, nofun⟩, ⟨one, fun _ _ => trivial⟩, one,
    List.forall_mem_singleton.mpr ⟨sized, trivial⟩⟩

theorem Program.not_symbolsFit_labelledHalt {name : List Char} (named : IsName name)
    (long : maxLength < name.length) : ¬(labelledHalt name).SymbolsFit := by
  intro fits
  have short : (String.ofList name).utf8ByteSize ≤ maxLength :=
    fits.names_le _ List.mem_cons_self
  rw [named.utf8ByteSize_eq] at short
  exact Nat.not_le.mpr long short

/-- A label that is longer than what can be read back assembles. -/
theorem assemble_of_longLabel {name : List Char} (named : IsName name)
    (long : maxLength < name.length) :
    assemble (String.ofList (name ++ haltTail)) = .ok (.labelledHalt name) := by
  have noRegister : Register.ofName? name = none :=
    Register.ofName?_eq_none_of_length (Nat.lt_trans (by decide) long)
  have noMailbox : String.ofList name ≠ SymbolTable.mailboxName := by
    intro same
    have bytes := named.utf8ByteSize_eq
    have size : SymbolTable.mailboxName.utf8ByteSize < maxLength := by decide +kernel
    rw [same] at bytes
    omega
  exact assemble_labelledHalt named noRegister noMailbox

/-- A label one character longer than what can be read back. -/
def longLabel : List Char :=
  List.replicate (maxLength + 1) 'a'

theorem isName_longLabel : IsName longLabel := by
  refine ⟨⟨'a', List.replicate maxLength 'a', List.replicate_succ, by decide⟩, fun c member => ?_⟩
  rw [List.eq_of_mem_replicate member]
  decide

theorem maxLength_lt_longLabel : maxLength < longLabel.length := by
  rw [longLabel, List.length_replicate]
  exact Nat.lt_succ_self _

/-! ## What comes back and what does not -/

/-- **An assembled program comes back from its image exactly if its symbols fit.** Otherwise the
image is refused for the length of the symbol table or of a name. -/
theorem assemble_read_back_iff {source : String} {p : Program}
    (assembled : assemble source = .ok p) :
    (Program.ofImage p.toImage = .ok p ↔ p.SymbolsFit) ∧
      (programShape.Sized p.parts → ¬p.SymbolsFit →
        Program.ofImage p.toImage = .error (.codec .lengthTooLarge)) := by
  have fits := assemble_fitsRegions assembled
  refine ⟨fits.ofImage_toImage_iff, fun sized unfit => ?_⟩
  exact Program.ofImage_toImage_eq_error sized fun parts => unfit (fits.fits_parts_iff.mp parts)

/-- A program that branches to its only symbol. -/
def selfBranch : String :=
  "here: B here"

theorem assemble_read_back_iff_selfBranch :
    (∃ p, assemble selfBranch = .ok p ∧ p.symbols = [("here", codeBase)] ∧
      Program.ofImage p.toImage = .ok p) ∧
      Program.ofImage (Program.labelledHalt longLabel).toImage =
        .error (.codec .lengthTooLarge) := by
  constructor
  · let p : Program := { code := [0x50010000], lines := [1], symbols := [("here", codeBase)] }
    have assembled : assemble selfBranch = .ok p := by decide +kernel
    have symbols : p.SymbolsFit :=
      ⟨by decide +kernel, List.forall_mem_singleton.mpr (by decide +kernel)⟩
    obtain ⟨readBack, -⟩ := assemble_read_back_iff assembled
    exact ⟨p, assembled, rfl, readBack.mpr symbols⟩
  · obtain ⟨-, refused⟩ :=
      assemble_read_back_iff (assemble_of_longLabel isName_longLabel maxLength_lt_longLabel)
    refine refused (Program.sized_labelledHalt isName_longLabel ?_)
      (Program.not_symbolsFit_labelledHalt isName_longLabel maxLength_lt_longLabel)
    rw [longLabel, List.length_replicate]
    decide

theorem assemble_not_read_back_longLabel :
    assemble (String.ofList (longLabel ++ haltTail)) = .ok (.labelledHalt longLabel) ∧
      Program.ofImage (Program.labelledHalt longLabel).toImage ≠ .ok (.labelledHalt longLabel) := by
  have assembled := assemble_of_longLabel isName_longLabel maxLength_lt_longLabel
  refine ⟨assembled, fun readBack => ?_⟩
  have fits := (assemble_fitsRegions assembled).ofImage_toImage_iff.mp readBack
  exact Program.not_symbolsFit_labelledHalt isName_longLabel maxLength_lt_longLabel fits

end RobotMachine
