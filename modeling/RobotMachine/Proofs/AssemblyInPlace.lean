import RobotMachine.Assembly.Assemble
import RobotMachine.Proofs.AssembledImage
import RobotMachine.Proofs.DataExtent
import RobotMachine.Proofs.LayoutInPlace

/-!
# Assembling in place

The second look at a source goes through the statements with the code, the lines and the data so
far. It stores every value of the data at an index that the first look computed, into an image whose
length the first look computed too. No index leaves the image: what was given room lies in it, and
when there is no image at all, nothing was given any room.

* `Statement.emitInPlace_eq`: one statement stores what `Statement.emit` puts into its place.
* `assembleInPlace_eq`: the assembler with every exit does what `assemble` does on every text,
  unless a cursor overflows.
* `assemble_never_traps`: so it ends with a program or with an error.
-/

namespace RobotMachine

/-! ## Stores -/

/-- Stores bytes at an index of an image, which must have room for them there. -/
def storeAt (image : List UInt8) (offset : Nat) (bytes : List UInt8) :
    Checked LineError (List UInt8) :=
  if offset + bytes.length ≤ image.length then
    .ok (image.take offset ++ bytes ++ image.drop (offset + bytes.length))
  else
    .error (.trap .index)

/-- Evaluates values and stores them one behind the other, each in as many bytes. `i` is the number
of the first of them. -/
def storeValues (evaluate : Expression → Except LineError (List UInt8)) (size offset i : Nat)
    (image : List UInt8) : List Expression → Checked LineError (List UInt8)
  | [] => .ok image
  | e :: values => do
    let bytes ← checked (evaluate e)
    let image ← storeAt image (offset + i * size) bytes
    storeValues evaluate size offset (i + 1) image values

section Stores

variable {image : List UInt8} {offset : Nat}

theorem storeAt_eq {bytes : List UInt8} (room : offset + bytes.length ≤ image.length) :
    storeAt image offset bytes = .ok (Emission.putInto image (.data offset bytes)) :=
  if_pos room

theorem Emission.putInto_nil (image : List UInt8) (offset : Nat) :
    putInto image (.data offset []) = image := by
  rw [putInto, List.append_nil, List.length_nil, Nat.add_zero, List.take_append_drop]

/-- Bytes that are put one behind the other are put there together. -/
theorem Emission.putInto_append {front back : List UInt8}
    (room : offset + front.length ≤ image.length) :
    putInto (putInto image (.data offset front)) (.data (offset + front.length) back) =
      putInto image (.data offset (front ++ back)) := by
  have length : (image.take offset ++ front).length = offset + front.length := by
    rw [List.length_append, List.length_take, Nat.min_eq_left (by omega)]
  rw [putInto, putInto, putInto, ← length, List.take_left, List.drop_length_add_append,
    List.drop_drop, length, List.length_append, List.append_assoc (image.take offset),
    Nat.add_assoc]

theorem storeValues_eq {evaluate : Expression → Except LineError (List UInt8)} {size i : Nat}
    (sized : ∀ e bytes, evaluate e = .ok bytes → bytes.length = size) {values : List Expression}
    (room : values = [] ∨ offset + (i + values.length) * size ≤ image.length) :
    storeValues evaluate size offset i image values =
      checked ((values.mapM evaluate).map fun bytes =>
        Emission.putInto image (.data (offset + i * size) bytes.flatten)) := by
  -- without values nothing is stored, and then the offset may lie behind an image that is empty
  induction values generalizing i image with
  | nil =>
    rw [storeValues, List.mapM_nil]
    exact congrArg Except.ok (Emission.putInto_nil image _).symm
  | cons e values ih =>
    have inside : offset + i * size + size + values.length * size ≤ image.length := by
      have whole := room.resolve_left (List.cons_ne_nil e values)
      rw [List.length_cons, Nat.add_mul, Nat.succ_mul] at whole
      omega
    rw [storeValues, List.mapM_cons]
    cases evaluated : evaluate e with
    | error e => rfl
    | ok bytes =>
      have length := sized e bytes evaluated
      have kept : (Emission.putInto image (.data (offset + i * size) bytes)).length =
          image.length := by
        refine Emission.length_putInto fun extent place => .inr ?_
        cases place
        rw [length]
        omega
      have next : offset + (i + 1) * size = offset + i * size + bytes.length := by
        rw [Nat.succ_mul, length, Nat.add_assoc]
      rw [checked_ok, Except.ok_bind, storeAt_eq (by omega), Except.ok_bind, Except.ok_bind,
        ih (.inr (by rw [kept, Nat.add_mul, Nat.succ_mul]; omega)), next]
      cases values.mapM evaluate with
      | error e => rfl
      | ok rest =>
        exact congrArg Except.ok (Emission.putInto_append (by omega))

end Stores

/-! ## Statements -/

/-- `Statement.emit` into the program so far. -/
def Statement.emitInPlace (table : SymbolTable) (p : Program) (s : Statement) :
    Checked LineError Program :=
  match s.body with
  | .instruction opcode operands => do
    let word ← checked (emitInstruction table s.column opcode operands)
    return { p with code := p.code ++ [word], lines := p.lines ++ [UInt32.ofNat s.line] }
  | .words offset values => do
    let data ← storeValues (emitWord table) wordSize offset 0 p.data values
    return { p with data }
  | .bytes offset values => do
    let data ← storeValues (fun e => (emitByte table e).map ([·])) 1 offset 0 p.data values
    return { p with data }
  | .string offset bytes =>
    if bytes = [] then .ok p
    else do
      let data ← storeAt p.data offset bytes
      return { p with data }

/-- Encodes statements one after the other. -/
def Statement.emitAllInPlace (table : SymbolTable) (p : Program) :
    List Statement → Checked AssemblyError Program
  | [] => .ok p
  | s :: statements =>
    match s.emitInPlace table p with
    | .ok p => emitAllInPlace table p statements
    | .error stop => .error (stop.map (·.onLine s.line))

/-- A program with an emission behind what it has. -/
def Program.add (p : Program) : Emission → Program
  | .word word line => { p with code := p.code ++ [word], lines := p.lines ++ [UInt32.ofNat line] }
  | .data offset bytes => { p with data := Emission.putInto p.data (.data offset bytes) }

namespace Statement

variable {table : SymbolTable} {p : Program} {s : Statement}

/-- The data of a program has room for the bytes of a statement, if it has any. -/
def FitsInto (s : Statement) (p : Program) : Prop :=
  ∀ extent, s.extent? = some extent → extent.2 = 0 ∨ extent.1 + extent.2 ≤ p.data.length

theorem mapM_singleton (evaluate : Expression → Except LineError UInt8) (values : List Expression) :
    (values.mapM fun e => (evaluate e).map ([·])) = (values.mapM evaluate).map (·.map ([·])) := by
  induction values with
  | nil => rfl
  | cons e values ih =>
    rw [List.mapM_cons, List.mapM_cons, ih]
    cases evaluate e with
    | error e => rfl
    | ok byte => cases values.mapM evaluate <;> rfl

theorem emitInPlace_eq (fits : s.FitsInto p) :
    s.emitInPlace table p = checked ((s.emit table).map p.add) := by
  obtain ⟨line, column, body⟩ := s
  cases body with
  | instruction opcode operands =>
    simp only [emitInPlace, emit]
    cases emitInstruction table column opcode operands <;> rfl
  | words offset values =>
    have room : values = [] ∨ offset + (0 + values.length) * wordSize ≤ p.data.length := by
      rw [Nat.zero_add]
      refine (fits _ rfl).imp_left fun none => List.eq_nil_of_length_eq_zero ?_
      simp only [wordSize] at none
      omega
    simp only [emitInPlace, emit]
    rw [storeValues_eq (fun _ _ => length_of_emitWord) room, Nat.zero_mul, Nat.add_zero]
    cases values.mapM (emitWord table) <;> rfl
  | bytes offset values =>
    have room : values = [] ∨ offset + (0 + values.length) * 1 ≤ p.data.length := by
      rw [Nat.zero_add, Nat.mul_one]
      exact (fits _ rfl).imp_left List.eq_nil_of_length_eq_zero
    have sized (e : Expression) (bytes : List UInt8)
        (emitted : (emitByte table e).map ([·]) = .ok bytes) : bytes.length = 1 := by
      obtain ⟨byte, -, rfl⟩ := Except.map_eq_ok_iff.mp emitted
      rfl
    simp only [emitInPlace, emit]
    rw [storeValues_eq sized room, Nat.zero_mul, Nat.add_zero, mapM_singleton]
    cases values.mapM (emitByte table) with
    | error e => rfl
    | ok bytes =>
      simp only [Except.ok_map, checked_ok, Except.ok_bind, Program.add]
      rw [← List.flatMap_def, List.flatMap_singleton']
      rfl
  | string offset bytes =>
    simp only [emitInPlace, emit]
    split
    · next none =>
      rw [none, Except.ok_map, Program.add, Emission.putInto_nil]
      rfl
    · next some =>
      have room := (fits _ rfl).resolve_left (mt List.eq_nil_of_length_eq_zero some)
      rw [storeAt_eq room]
      rfl

theorem length_data_add {e : Emission} (emitted : s.emit table = .ok e) (fits : s.FitsInto p) :
    (p.add e).data.length = p.data.length := by
  cases e with
  | word word line => rfl
  | data offset bytes =>
    have inside (extent : Nat × Nat) (place : Emission.extent? (.data offset bytes) = some extent) :
        extent.2 = 0 ∨ extent.1 + extent.2 ≤ p.data.length := by
      rw [extent?_of_emit emitted] at place
      exact fits extent place
    exact Emission.length_putInto inside

theorem emitAllInPlace_eq {statements : List Statement} (fits : ∀ s ∈ statements, s.FitsInto p) :
    emitAllInPlace table p statements =
      checked ((statements.mapM fun s : Statement => (s.emit table).mapError (·.onLine s.line)).map
        fun emissions => emissions.foldl Program.add p) := by
  induction statements generalizing p with
  | nil => rfl
  | cons s statements ih =>
    have head := fits s List.mem_cons_self
    rw [emitAllInPlace, emitInPlace_eq head, List.mapM_cons]
    cases emitted : s.emit table with
    | error e => rfl
    | ok e =>
      have tail : ∀ s ∈ statements, s.FitsInto (p.add e) := fun s' member extent place => by
        rw [length_data_add emitted head]
        exact fits s' (List.mem_cons_of_mem s member) extent place
      refine (ih tail).trans ?_
      cases statements.mapM fun s : Statement => (s.emit table).mapError (·.onLine s.line) <;> rfl

end Statement

/-! ## Layouts -/

namespace Layout

/-- `Layout.emit` in place. -/
def emitInPlace (l : Layout) : Checked AssemblyError Program :=
  match l.defect? with
  | some e => .error (.refused e)
  | none =>
    Statement.emitAllInPlace l.symbols { data := l.blankData, symbols := l.sortedSymbols }
      l.statements.reverse

theorem foldl_add (p : Program) (emissions : List Emission) :
    emissions.foldl Program.add p =
      { p with
        code := p.code ++ (emissions.filterMap Emission.word?).map (·.1)
        data := emissions.foldl Emission.putInto p.data
        lines := p.lines ++ (emissions.filterMap Emission.word?).map fun (_, line) =>
          UInt32.ofNat line } := by
  induction emissions generalizing p with
  | nil => simp
  | cons e emissions ih =>
    rw [List.foldl_cons, ih]
    cases e with
    | word word line => simp [Program.add, Emission.word?, Emission.putInto]
    | data offset bytes =>
      rw [List.filterMap_cons_none rfl]
      rfl

/-- Every index of the second look lies in the image: the data of a statement lies below the end of
the data, and if nothing lies behind the mailbox, no statement has any data. -/
theorem HoldsData.emitInPlace_eq {l : Layout} (h : l.HoldsData) :
    l.emitInPlace = checked l.emit := by
  have fits : ∀ s ∈ l.statements.reverse,
      s.FitsInto { data := l.blankData, symbols := l.sortedSymbols } := by
    intro s member extent place
    obtain ⟨lower, upper⟩ := h.extents_le extent
      (List.mem_filterMap.mpr ⟨s, List.mem_reverse.mp member, place⟩)
    simp only [blankData]
    split
    · rw [List.length_replicate]
      exact .inr upper
    · exact .inl (by omega)
  rw [emitInPlace, emit]
  cases l.defect? with
  | some e => rfl
  | none =>
    refine (Statement.emitAllInPlace_eq fits).trans ?_
    cases l.statements.reverse.mapM fun s => (s.emit l.symbols).mapError (·.onLine s.line) with
    | error e => rfl
    | ok emissions => exact congrArg Except.ok (foldl_add _ emissions)

end Layout

/-! ## The assembler -/

/-- `assemble` in place, with cursors below a limit. -/
def assembleInPlace (limit : Nat) (source : String) : Checked AssemblyError Program := do
  let layout ← Layout.ofLinesInPlace limit (linesOf source.toList)
  layout.emitInPlace

/-- What no cursor and no address is above while a source is assembled: a line adds at most a region
and a word for each of its bytes, and rounds up by less than a region. -/
def cursorBound (source : String) : Nat :=
  dataBase.toNat + wordSize + 2 * regionSize * source.utf8ByteSize

theorem assembleInPlace_eq (limit : Nat) (source : String) :
    EqUnlessOverflow limit (cursorBound source) (assembleInPlace limit source)
      (checked (assemble source)) := by
  have width := sum_utf8Length_linesOf_le source.toList
  have size : utf8Length source.toList = source.utf8ByteSize := by
    rw [← utf8ByteSize_ofList, String.ofList_toList]
  rw [assembleInPlace, assemble, checked_bind]
  refine (Layout.ofLinesInPlace_eq ?_).bind fun l laidOut => ?_
  · rw [cursorBound, ← size]
    exact Nat.add_le_add_left (Nat.mul_le_mul_left _ width) _
  · exact .of_eq (Layout.HoldsData.ofLines (checked_eq_ok_iff.mp laidOut)).emitInPlace_eq

/-- **Assembling is safe and total on every text.** Followed with every exit, the assembler never
looks behind the end of a text, of the operands or of the data image, never cuts a text inside a
character, and never goes on in a loop. What is left is a cursor at its limit, and that takes a
source of some length: at `2 ^ 13` for each byte, no source below `2 ^ 49` bytes, which is more than
a machine holds, brings a cursor to `2 ^ 63`. Otherwise assembling ends with a program or with an
error, the one that `assemble` gives. -/
theorem assemble_never_traps (limit : Nat) (source : String) :
    (∀ trap, assembleInPlace limit source = .error (.trap trap) →
      trap = .overflow ∧ limit ≤ cursorBound source) ∧
    (cursorBound source < limit →
      (∃ p, assembleInPlace limit source = .ok p ∧ assemble source = .ok p) ∨
        ∃ e, assembleInPlace limit source = .error (.refused e) ∧ assemble source = .error e) := by
  rcases assembleInPlace_eq limit source with same | ⟨overflow, reached⟩
  · rw [same]
    cases assemble source with
    | error e => exact ⟨nofun, fun _ => .inr ⟨e, rfl, rfl⟩⟩
    | ok p => exact ⟨nofun, fun _ => .inl ⟨p, rfl, rfl⟩⟩
  · rw [overflow]
    refine ⟨fun trap same => ?_, fun below => absurd reached (Nat.not_le.mpr below)⟩
    cases same
    exact ⟨rfl, reached⟩

/-- Characters of several bytes in a string, behind an apostrophe and in comments, a bracket in a
literal, and at the end a string that a backslash leaves open. -/
def brokenSource : String :=
  ".data\nname: .asciz \"ü\", \"→\\\\\" ; —\n.align 2\n.text\nMOV R0, #'→' // λ\n" ++
    "LDR R1, [R0, #']']\nname2: B \"→\\"

theorem assemble_never_traps_brokenSource :
    cursorBound brokenSource < 2 ^ 63 ∧
      assembleInPlace (2 ^ 63) brokenSource =
        .error (.refused ⟨7, 10, .unterminatedLiteral '"'⟩) := by
  have room : cursorBound brokenSource < 2 ^ 63 := by
    decide +kernel
  have refused : assemble brokenSource = .error ⟨7, 10, .unterminatedLiteral '"'⟩ := by
    decide +kernel
  refine ⟨room, ?_⟩
  rcases (assemble_never_traps (2 ^ 63) brokenSource).2 room with
    ⟨p, -, assembled⟩ | ⟨e, inPlace, same⟩
  · cases refused.symm.trans assembled
  · cases refused.symm.trans same
    exact inPlace

end RobotMachine
