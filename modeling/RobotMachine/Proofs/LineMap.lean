import Mathlib.Data.List.DropRight
import RobotMachine.Proofs.AlikePrograms
import RobotMachine.Proofs.ErrorPlaces
import RobotMachine.Proofs.LoadedCode
import RobotMachine.Proofs.OperandLists

/-!
# The line map

A program keeps the number of the source line that each of its words was assembled from. The
numbers grow with the addresses, they lead back to the lines whose instructions the words are, and
no move of an emulator changes them, so that what it reports is always the line of the word at the
program counter.

* `assemble_source_line`: the line of each word.
* `Emulator.lines_travel`: moves keep the line map that was loaded.
* `isTrimmed_trimBlanks`: what is left of a line without the blanks at its ends.
* `assemble_line_map`: the numbers, the reports and the listing of an assembled program.
-/

namespace RobotMachine

/-! ## Numbers of lines -/

theorem le_of_mem_instructionLines {lines : List SourceLine} {n : Nat}
    (member : n ∈ instructionLines lines) : n ≤ lines.length := by
  induction lines using List.reverseRecOn with
  | nil => cases member
  | append_singleton lines src ih =>
    rw [List.length_append, List.length_singleton]
    rw [instructionLines_concat, List.mem_append] at member
    rcases member with before | here
    · exact Nat.le_succ_of_le (ih before)
    · split at here
      · exact Nat.le_of_eq (List.mem_singleton.mp here)
      · cases here

/-- A line has at most one instruction, so the numbers of the instructions' lines grow. -/
theorem pairwise_instructionLines (lines : List SourceLine) :
    (instructionLines lines).Pairwise (· < ·) := by
  induction lines using List.reverseRecOn with
  | nil => exact .nil
  | append_singleton lines src ih =>
    rw [instructionLines_concat]
    refine List.pairwise_append.mpr ⟨ih, ?_, fun n before m here => ?_⟩
    · split
      · exact List.pairwise_singleton _ _
      · exact .nil
    · split at here
      · rw [List.mem_singleton.mp here]
        exact Nat.lt_succ_of_le (le_of_mem_instructionLines before)
      · cases here

theorem getElem?_of_mem_numberedInstructions {lines : List SourceLine} {c : Clause} {n : Nat}
    (member : (c, n) ∈ numberedInstructions lines) :
    0 < n ∧ ∃ src, lines[n - 1]? = some src ∧ src.instruction? = some c := by
  obtain ⟨⟨src, n'⟩, numbered, isInstruction⟩ := List.mem_filterMap.mp member
  obtain ⟨c', instruction, same⟩ := Option.map_eq_some_iff.mp isInstruction
  cases same
  obtain ⟨positive, here⟩ := List.mem_zipIdx_iff_le_and_getElem?_sub.mp numbered
  exact ⟨positive, src, here, instruction⟩

theorem exists_getElem?_of_forall₂ {α β : Type} {R : α → β → Prop} {as : List α} {bs : List β}
    (related : List.Forall₂ R as bs) {i : Nat} {b : β} (found : bs[i]? = some b) :
    ∃ a, as[i]? = some a ∧ R a b := by
  induction related generalizing i with
  | nil => cases found
  | @cons a b' as bs head _ ih =>
    cases i with
    | zero =>
      cases found
      exact ⟨a, rfl, head⟩
    | succ i => exact ih found

/-! ## Words and their lines -/

/-- The line of the source with a number is the one that a code word was assembled from: its
statement starts with the mnemonic of the word's instruction, in capitals or not. -/
def IsSourceOf (source : String) (word : UInt32) (number : Nat) (line : List Char) : Prop :=
  IsLineOf (linesOf source.toList) number line ∧
    ∃ src c i, SourceLine.scan line = .ok src ∧ src.clause = some c ∧
      Instruction.decode word = .ok i ∧ c.head.text.map Char.toUpper = i.opcode.mnemonic.toList

theorem Clause.EncodesTo.names {c : Clause} {table : SymbolTable} {word : UInt32}
    (encodes : c.EncodesTo table word) :
    ∃ i, Instruction.decode word = .ok i ∧
      c.head.text.map Char.toUpper = i.opcode.mnemonic.toList := by
  obtain ⟨operands, opcode, values, i, -, form, -, packed, rfl⟩ := encodes
  obtain rfl : i.opcode = opcode := (Instruction.ofOperands_eq_ok_iff.mp packed).1
  exact ⟨i, i.decode_encode, (Opcode.mem_withMnemonic_iff.mp form.1.1).symm⟩

variable {source : String} {p : Program}

theorem assemble_lines (assembled : assemble source = .ok p) :
    ∃ lines, (linesOf source.toList).mapM SourceLine.scan = .ok lines ∧
      p.lines = (instructionLines lines).map UInt32.ofNat := by
  obtain ⟨l, laidOut, emitted⟩ := Except.bind_eq_ok_iff.mp assembled
  obtain ⟨lines, scanned, laidOut⟩ := Layout.ofLines_eq_ok_iff.mp laidOut
  exact ⟨lines, scanned, Layout.lines_of_emit laidOut emitted⟩

theorem assemble_pairwise_lines (few : (linesOf source.toList).length < UInt32.size)
    (assembled : assemble source = .ok p) : p.lines.Pairwise (· < ·) := by
  obtain ⟨lines, scanned, numbers⟩ := assemble_lines assembled
  have length := (Except.mapM_eq_ok_iff.mp scanned).length_eq
  rw [numbers, List.pairwise_map]
  refine (pairwise_instructionLines lines).imp_of_mem fun {m n} first second lt => ?_
  have firstLe := le_of_mem_instructionLines first
  have secondLe := le_of_mem_instructionLines second
  rw [UInt32.lt_iff_toNat_lt, UInt32.toNat_ofNat_of_lt' (by omega),
    UInt32.toNat_ofNat_of_lt' (by omega)]
  exact lt

/-- Each code word has the number of the line that it was assembled from. -/
theorem assemble_source_line (few : (linesOf source.toList).length < UInt32.size)
    (assembled : assemble source = .ok p) {i : Nat} {word : UInt32}
    (here : p.code[i]? = some word) :
    ∃ number line, p.lines[i]? = some number ∧ IsSourceOf source word number.toNat line := by
  obtain ⟨lines, l, emissions, scanned, -, -, -, rfl, words⟩ := assemble_words assembled
  have each := Except.mapM_eq_ok_iff.mp scanned
  rw [Layout.program, List.getElem?_map, Option.map_eq_some_iff] at here
  obtain ⟨⟨word', n⟩, placed, rfl⟩ := here
  obtain ⟨⟨c, n'⟩, numbered, encodes, rfl⟩ := exists_getElem?_of_forall₂ words placed
  obtain ⟨positive, src, isLine, instruction⟩ :=
    getElem?_of_mem_numberedInstructions (List.mem_of_getElem? numbered)
  obtain ⟨line, found, scannedLine⟩ := exists_getElem?_of_forall₂ each isLine
  have inside := (List.getElem?_eq_some_iff.mp found).1
  have small : n < UInt32.size := by omega
  obtain ⟨instr, decoded, named⟩ := encodes.names
  refine ⟨UInt32.ofNat n, line, ?_, ?_, src, c, instr, scannedLine, ?_, decoded, named⟩
  · rw [Layout.program, List.getElem?_map, placed]
    rfl
  · rw [UInt32.toNat_ofNat_of_lt' small]
    exact ⟨positive, found⟩
  · exact (Option.filter_eq_some_iff.mp instruction).1

/-! ## Lines of addresses -/

theorem lineAt_codeAddress {address : UInt32} {i : Nat} (at_word : address.toNat = codeAddress i)
    (lines : List UInt32) : lineAt lines address = lines[i]?.map (·.toNat) := by
  have lower : ¬ address < codeBase := by
    rw [UInt32.lt_iff_toNat_lt, at_word]
    exact Nat.not_lt.mpr (Nat.le_add_right _ _)
  have offset : address.toNat - codeBase.toNat = i * wordSize := by
    rw [at_word]
    exact Nat.add_sub_cancel_left _ _
  rw [lineAt, if_neg lower, offset, if_pos (Nat.mul_mod_left _ _),
    Nat.mul_div_cancel _ (by decide)]

theorem lineAt_eq_none {address : UInt32} {lines : List UInt32}
    (outside : ∀ i < lines.length, address.toNat ≠ codeAddress i) : lineAt lines address = none := by
  rw [lineAt]
  split
  · rfl
  next lower =>
  dsimp only
  split
  · next aligned =>
    rw [Option.map_eq_none_iff, List.getElem?_eq_none_iff]
    by_contra inside
    have upper : address.toNat - codeBase.toNat < lines.length * wordSize :=
      Nat.lt_mul_of_div_lt (Nat.not_le.mp inside) (by decide)
    obtain ⟨i, below, at_word⟩ :=
      Emulator.exists_codeAddress (UInt32.not_lt.mp lower) upper aligned
    exact outside i below at_word
  · rfl

/-! ## What an emulator reports -/

namespace Emulator

variable {e e' : Emulator}

theorem lines_tick (e : Emulator) : e.tick.2.lines = e.lines := by
  rcases e.tick_cases with ⟨-, ticked⟩ | ⟨err, -, -, ticked⟩ | ⟨effects, record, -, -, ticked⟩
  · rw [ticked]
  · rw [ticked]
  · rw [ticked]
    rfl

theorem lines_runSteps (e : Emulator) (budget : Nat) : (e.runSteps budget).2.lines = e.lines := by
  induction budget generalizing e with
  | zero => rfl
  | succ budget ih =>
    have ticked := e.lines_tick
    unfold Emulator.runSteps
    split
    · rfl
    · split
      · next eq => rwa [eq] at ticked
      · next eq =>
        rw [eq] at ticked
        exact (ih _).trans ticked

theorem lines_stepBack (e : Emulator) : e.stepBack.2.lines = e.lines := by
  unfold stepBack
  split
  · split
    · rfl
    · rfl
  · rfl

theorem lines_replayToStart (e : Emulator) : e.replayToStart.2.lines = e.lines := by
  unfold replayToStart
  split
  · rfl
  · rfl

/-- No move changes the line map, forwards or backwards. -/
theorem lines_move (e : Emulator) (m : Move) : (e.move m).2.lines = e.lines := by
  cases m with
  | step =>
    rw [move, step_eq]
    exact e.lines_tick
  | stepBack => exact e.lines_stepBack
  | run budget =>
    rw [move, run]
    split
    · exact e.lines_runSteps budget
    · rfl
  | replayToStart => exact e.lines_replayToStart

theorem lines_travel (e : Emulator) (moves : List Move) : (e.travel moves).2.lines = e.lines := by
  induction moves generalizing e with
  | nil => rfl
  | cons m moves ih =>
    rw [travel_cons]
    exact (ih _).trans (e.lines_move m)

theorem lines_of_loadProgram {p : Program} (loaded : e.loadProgram p = .ok e') :
    e'.lines = p.lines := by
  unfold loadProgram at loaded
  split at loaded
  · cases loaded
  · split at loaded
    · cases loaded
    · simp only [Except.bind_eq_ok_iff, Except.pure_eq_ok_iff] at loaded
      obtain ⟨withCode, -, memory, -, rfl⟩ := loaded
      rfl

/-- What an emulator can report: where it is, and the answers of a step forward, of a step back and
of a replay. -/
inductive Reports (e : Emulator) : StepReport → Prop
  | here : Reports e (e.report [])
  | step {r : StepReport} : e.step.1 = .ok r → Reports e r
  | stepBack {r : StepReport} : e.stepBack.1 = .ok r → Reports e r
  | replayToStart {r : StepReport} {count : Nat} :
    e.replayToStart.1 = .ok (count, r) → Reports e r

/-- A report gives the line of its program counter. -/
theorem Reports.line_eq {r : StepReport} (reports : e.Reports r) :
    r.pc = r.snapshot.machine.pc ∧ r.line = lineAt e.lines r.pc := by
  cases reports with
  | here => exact ⟨rfl, rfl⟩
  | step answered =>
    have lines := e.lines_tick
    rw [step_eq] at answered
    obtain ⟨stores, -, rfl⟩ := Except.map_eq_ok_iff.mp answered
    exact ⟨rfl, congrArg (lineAt · _) lines⟩
  | stepBack answered =>
    unfold Emulator.stepBack at answered
    split at answered
    · split at answered
      · cases answered
        exact ⟨rfl, rfl⟩
      · cases answered
    · cases answered
  | replayToStart answered =>
    unfold Emulator.replayToStart at answered
    split at answered
    · obtain ⟨count, -, same⟩ := Except.map_eq_ok_iff.mp answered
      cases same
      exact ⟨rfl, rfl⟩
    · cases answered

end Emulator

/-! ## Trimmed lines -/

/-- A line is a text between blanks, and no blank stands at either end of the text. -/
structure IsTrimmed (line text : List Char) : Prop where
  between : ∃ front back, line = front ++ (text ++ back) ∧
    (∀ c ∈ front, isBlank c = true) ∧ ∀ c ∈ back, isBlank c = true
  head : ∀ c ∈ text.head?, isBlank c = false
  last : ∀ c ∈ text.getLast?, isBlank c = false

/-- The blanks at the two ends are all that a listing leaves out of a line. -/
theorem isTrimmed_trimBlanks (line : List Char) : IsTrimmed line (trimBlanks line) := by
  have split : trimBlanks line ++ (line.dropWhile isBlank).rtakeWhile isBlank =
      line.dropWhile isBlank :=
    List.rdropWhile_append_rtakeWhile
  refine ⟨⟨line.takeWhile isBlank, (line.dropWhile isBlank).rtakeWhile isBlank, ?_,
    fun c => List.mem_takeWhile_imp, fun c => List.mem_rtakeWhile_imp⟩, fun c first => ?_,
    fun c last => ?_⟩
  · rw [split, List.takeWhile_append_dropWhile]
  · have stays : c ∈ (line.dropWhile isBlank).head? := by
      rw [← split, List.head?_append, first]
      rfl
    have visible := List.head?_dropWhile_not isBlank line
    rwa [stays] at visible
  · obtain ⟨nonempty, rfl⟩ := List.mem_getLast?_eq_getLast last
    exact Bool.eq_false_iff.mpr (List.rdropWhile_last_not isBlank _ nonempty)

/-- A line has only one trimmed text. -/
theorem IsTrimmed.eq_trimBlanks {line text : List Char} (trimmed : IsTrimmed line text) :
    text = trimBlanks line := by
  obtain ⟨⟨front, back, rfl, blankFront, blankBack⟩, head, last⟩ := trimmed
  rw [trimBlanks, List.dropWhile_append_of_pos blankFront]
  cases text with
  | nil =>
    have all := List.dropWhile_eq_nil_iff.mpr blankBack
    rw [List.nil_append, all]
    rfl
  | cons c rest =>
    have visible : ¬ isBlank c = true := Bool.eq_false_iff.mp (head c rfl)
    have ends : dropEndWhile isBlank (c :: rest) = c :: rest :=
      List.rdropWhile_eq_self_iff.mpr fun nonempty =>
        Bool.eq_false_iff.mp (last _ (List.getLast?_eq_getLast_of_ne_nil nonempty))
    rw [List.cons_append, List.dropWhile_cons_of_neg visible, ← List.cons_append,
      Fragment.dropEndWhile_append blankBack, ends]

/-! ## Listings -/

/-- A row of a listing: a code word at its address, beside the text of a source line with the number
of the line. -/
def listingRow (index : Nat) (word : UInt32) (number : Nat) (text : List Char) : String :=
  wordHex (codeBase + UInt32.ofNat (index * wordSize)) ++ "  " ++
    padLeft 8 '0' (hexDigits word.toNat) ++ "  " ++ padRight 24 (wordText word) ++ "; " ++
    padLeft 4 ' ' (toString number) ++ (" | " ++ String.ofList text) ++ "\n"

theorem Program.listingLine_of_isLineOf {p : Program} {lines : List (List Char)}
    {line : List Char} {number : UInt32} {i : Nat} (here : p.lines[i]? = some number)
    (isLine : IsLineOf lines number.toNat line) (word : UInt32) :
    p.listingLine lines i word = listingRow i word number.toNat (trimBlanks line) := by
  obtain ⟨positive, found⟩ := isLine
  have lineOf : p.lineOf i = number.toNat := by
    rw [Program.lineOf, here]
    rfl
  simp only [listingLine, lineOf, if_neg (Nat.ne_of_gt positive), found]
  rfl

/-! ## The line map of a program -/

/-- **The line map is right.** The numbers of the lines grow from word to word, and each leads to
the line of the source whose instruction the word is. Wherever moves there and back lead to from the
loaded program, the line that is reported is that of the word at the program counter, and none if
there is no word. The listing has a row for each word, and beside the word the row shows its own
line, trimmed. -/
theorem assemble_line_map (few : (linesOf source.toList).length < UInt32.size)
    (assembled : assemble source = .ok p) :
    p.lines.Pairwise (· < ·) ∧ p.lines.length = p.code.length ∧
      (∀ e : Emulator, ∃ e₀, e.reset.loadProgram p = .ok e₀ ∧
        ∀ moves r, (e₀.travel moves).2.Reports r → r.pc = r.snapshot.machine.pc ∧
          (∀ i number, p.lines[i]? = some number → r.pc.toNat = codeAddress i →
            r.line = some number.toNat) ∧
          ((∀ i < p.code.length, r.pc.toNat ≠ codeAddress i) → r.line = none)) ∧
      ∃ rows, p.listing (some source) = String.join rows ++ p.symbolListing ∧
        rows.length = p.code.length ∧
        ∀ i word, p.code[i]? = some word →
          ∃ number line text, p.lines[i]? = some number ∧
            IsSourceOf source word number.toNat line ∧ IsTrimmed line text ∧
            rows[i]? = some (listingRow i word number.toNat text) := by
  have fits := assemble_fitsRegions assembled
  refine ⟨assemble_pairwise_lines few assembled, fits.lines_eq, fun e => ?_,
    p.code.mapIdx (p.listingLine (linesOf source.toList)), rfl, List.length_mapIdx,
    fun i word here => ?_⟩
  · obtain ⟨e₀, loaded, -⟩ := Emulator.loadProgram_eq_ok (e := e.reset) rfl fits
    refine ⟨e₀, loaded, fun moves r reports => ?_⟩
    obtain ⟨pc, line⟩ := reports.line_eq
    rw [Emulator.lines_travel, Emulator.lines_of_loadProgram loaded] at line
    refine ⟨pc, fun i number here at_word => ?_, fun outside => ?_⟩
    · rw [line, lineAt_codeAddress at_word, here, Option.map_some]
    · rw [← fits.lines_eq] at outside
      rw [line, lineAt_eq_none outside]
  · obtain ⟨number, line, mapped, isSource⟩ := assemble_source_line few assembled here
    refine ⟨number, line, trimBlanks line, mapped, isSource, isTrimmed_trimBlanks line, ?_⟩
    rw [List.getElem?_mapIdx, here, Option.map_some,
      Program.listingLine_of_isLineOf mapped isSource.1]

/-- Code before and behind some data, with an empty line, a comment, a label of its own and a line
that ends with a blank outside ASCII. -/
def scatteredCode : String :=
  "; head\n\nstart:\nmov r0, #2\n.data\nbox: .word 7\n.text\n  Up ; go\u3000\nB start\n"

theorem assemble_line_map_scatteredCode :
    ∃ p e₀, assemble scatteredCode = .ok p ∧ p.lines = [4, 8, 9] ∧
      Emulator.loadProgram (Emulator.reset {}) p = .ok e₀ ∧
      (e₀.travel [.run 2, .stepBack]).2.machine.pc = 0x10004 ∧
      ((e₀.travel [.run 2, .stepBack]).2.report []).line = some 8 ∧
      p.lines.Pairwise (· < ·) ∧
      IsSourceOf scatteredCode 0x60000000 8 "  Up ; go\u3000".toList ∧
      IsTrimmed "  Up ; go\u3000".toList "Up ; go".toList ∧
      ∃ rows, p.listing (some scatteredCode) = String.join rows ++ p.symbolListing ∧
        rows.length = 3 ∧
        rows[1]? = some "0x00010004  60000000  UP                      ;    8 | Up ; go\n" := by
  have found : (assemble scatteredCode).toOption.map (fun p => (p.code, p.lines)) =
      some ([0x11000002, 0x60000000, 0x50010000], [4, 8, 9]) := by
    decide +kernel
  have travelled : (assemble scatteredCode).toOption.bind (fun p =>
      (Emulator.loadProgram (Emulator.reset {}) p).toOption.map fun e =>
        (e.travel [.run 2, .stepBack]).2.machine.pc) = some 0x10004 := by
    decide +kernel
  have eighth : (linesOf scatteredCode.toList)[7]? = some "  Up ; go\u3000".toList := by
    decide +kernel
  have bare : trimBlanks "  Up ; go\u3000".toList = "Up ; go".toList := by decide +kernel
  have row : listingRow 1 0x60000000 8 "Up ; go".toList =
      "0x00010004  60000000  UP                      ;    8 | Up ; go\n" := by
    decide +kernel
  obtain ⟨p, assembled, same⟩ := Option.map_eq_some_iff.mp found
  rw [assembled, Option.bind_some] at travelled
  rw [Except.toOption_eq_some_iff] at assembled
  obtain ⟨code, lines⟩ := Prod.mk.inj same
  obtain ⟨grow, -, loads, rows, listed, length, shown⟩ :=
    assemble_line_map (by decide +kernel) assembled
  obtain ⟨e₀, loaded, reports⟩ := loads {}
  rw [loaded] at travelled
  have pc := Option.some.inj travelled
  obtain ⟨-, atWord, -⟩ := reports [.run 2, .stepBack] _ .here
  have line := atWord 1 8 (by rw [lines]; rfl) (congrArg UInt32.toNat pc)
  obtain ⟨number, srcLine, text, mapped, isSource, trimmed, inRows⟩ :=
    shown 1 0x60000000 (by rw [code]; rfl)
  rw [lines] at mapped
  cases mapped
  obtain rfl : "  Up ; go\u3000".toList = srcLine := Option.some.inj (eighth.symm.trans isSource.1.2)
  obtain rfl : text = "Up ; go".toList := trimmed.eq_trimBlanks.trans bare
  rw [code] at length
  exact ⟨p, e₀, assembled, lines, loaded, pc, line, grow, isSource, trimmed, rows, listed, length,
    inRows.trans (congrArg some row)⟩

end RobotMachine
