import RobotMachine.Proofs.CodeLayout
import RobotMachine.Proofs.OperandScan
import RobotMachine.Proofs.SourceWidth

/-!
# Laying a source out in place

The first look at a source moves two cursors, the number of code words and the end of the data, and
computes addresses from them. An overflow of a region is only reported at the end, so the cursors go
on moving with every line. A cursor has a limit; what it holds grows by at most two regions for each
byte of the source, and so it stays below the limit unless the source is that much text.

* `EqUnlessOverflow`: an outcome is the expected one unless a cursor overflows.
* `Layout.reach_addLine_le`: how far one line moves the cursors.
* `Layout.ofLinesInPlace_eq`: the layout in place is `Layout.ofLines`.
-/

namespace RobotMachine

/-! ## Cursors -/

section Cursors

variable {ε α β : Type}

/-- A number in a cursor, which must be below the limit of the cursor. -/
def cursor (limit n : Nat) : Checked ε Nat :=
  if n < limit then .ok n else .error (.trap .overflow)

/-- `roundUp` with a cursor. -/
def roundUpInPlace (limit n m : Nat) : Checked ε Nat :=
  if n % m = 0 then .ok n else cursor limit (n + (m - n % m))

/-- An outcome is another one, unless a cursor overflows. For that the limit must not be above the
bound. -/
def EqUnlessOverflow (limit bound : Nat) (x y : Checked ε α) : Prop :=
  x = y ∨ x = .error (.trap .overflow) ∧ limit ≤ bound

variable {limit bound : Nat} {x y : Checked ε α}

namespace EqUnlessOverflow

theorem of_eq (same : x = y) : EqUnlessOverflow limit bound x y :=
  .inl same

theorem bind {f g : α → Checked ε β} (first : EqUnlessOverflow limit bound x y)
    (second : ∀ a, y = .ok a → EqUnlessOverflow limit bound (f a) (g a)) :
    EqUnlessOverflow limit bound (x >>= f) (y >>= g) := by
  rcases first with rfl | ⟨rfl, reached⟩
  · cases x with
    | error e => exact .inl rfl
    | ok a => exact second a rfl
  · exact .inr ⟨rfl, reached⟩

theorem bind_same {f g : α → Checked ε β}
    (second : ∀ a, x = .ok a → EqUnlessOverflow limit bound (f a) (g a)) :
    EqUnlessOverflow limit bound (x >>= f) (x >>= g) :=
  (of_eq rfl).bind second

theorem bind_ok {a : α} {f : α → Checked ε β} {z : Checked ε β}
    (first : EqUnlessOverflow limit bound x (.ok a))
    (second : EqUnlessOverflow limit bound (f a) z) :
    EqUnlessOverflow limit bound (x >>= f) z :=
  first.bind (g := fun _ => z) fun _ same => by
    cases same
    exact second

end EqUnlessOverflow

theorem cursor_eq {n : Nat} (room : n ≤ bound) :
    EqUnlessOverflow limit bound (cursor limit n : Checked ε Nat) (.ok n) := by
  rw [cursor]
  split
  · exact .inl rfl
  · exact .inr ⟨rfl, by omega⟩

theorem roundUp_eq_of_mod {n m : Nat} (positive : 0 < m) :
    roundUp n m = if n % m = 0 then n else n + (m - n % m) := by
  have parts := Nat.div_add_mod n m
  have below := Nat.mod_lt n positive
  generalize n / m = q at parts
  generalize n % m = r at parts below
  subst parts
  rw [roundUp, Nat.add_assoc, Nat.mul_add_div positive]
  split
  · next none =>
    rw [none, Nat.zero_add, Nat.div_eq_of_lt (by omega), Nat.add_zero, Nat.add_zero, Nat.mul_comm]
  · next rest =>
    have one : (r + (m - 1)) / m = 1 := Nat.div_eq_of_lt_le (by omega) (by omega)
    rw [one, Nat.succ_mul, Nat.mul_comm]
    omega

theorem roundUpInPlace_eq {n m : Nat} (positive : 0 < m) (room : roundUp n m ≤ bound) :
    EqUnlessOverflow limit bound (roundUpInPlace limit n m : Checked ε Nat)
      (.ok (roundUp n m)) := by
  rw [roundUp_eq_of_mod positive] at room ⊢
  rw [roundUpInPlace]
  split
  · exact .inl rfl
  · next rest =>
    rw [if_neg rest] at room
    exact cursor_eq room

end Cursors

theorem roundUp_lt (n : Nat) {m : Nat} (positive : 0 < m) : roundUp n m < n + m := by
  rw [roundUp_eq_of_mod positive]
  split <;> omega

theorem one_shiftLeft_le {v : Int} (most : v ≤ maxAlignPower) : 1 <<< v.toNat ≤ regionSize := by
  rw [Nat.one_shiftLeft]
  exact Nat.pow_le_pow_right (by decide) (Int.toNat_le.mpr most)

theorem one_shiftLeft_pos (n : Nat) : 0 < 1 <<< n := by
  rw [Nat.one_shiftLeft]
  exact Nat.two_pow_pos n

/-- The room that suffices for whatever a clause adds: a region to fill or to align to, and a word
for each byte of its operands. -/
def Clause.room (c : Clause) : Nat :=
  regionSize + wordSize * totalWidth c.operands

/-- The room that suffices for what a line adds: its clause may be aligned to a word before. -/
def SourceLine.room (src : SourceLine) : Nat :=
  match src.clause with
  | none => 0
  | some c => wordSize + c.room

/-- No operand of a line is empty, so it has as many bytes as operands at least. -/
def SourceLine.IsListed (src : SourceLine) : Prop :=
  ∀ c, src.clause = some c → c.operands.length ≤ totalWidth c.operands

/-! ## The layout in place -/

namespace Layout

/-- An end of all that a layout has in memory so far: no cursor and no address is above it. -/
def reach (l : Layout) : Nat :=
  dataBase.toNat + l.dataLength + l.codeLength * wordSize

/-- `Layout.location` with cursors. -/
def locationInPlace (limit : Nat) (l : Layout) : Checked LineError Int :=
  match l.active with
  | .text => do
    let size ← cursor limit (l.codeLength * wordSize)
    let address ← cursor limit (codeBase.toNat + size)
    return address
  | .data => do
    let address ← cursor limit (dataBase.toNat + l.dataLength)
    return address

/-- `Layout.alignForWords` with cursors. -/
def alignForWordsInPlace (limit : Nat) (l : Layout) (directive : Option Directive) :
    Checked LineError Layout :=
  if l.active = .data ∧ directive = some .word then do
    let dataLength ← roundUpInPlace limit l.dataLength wordSize
    return { l with dataLength }
  else
    .ok l

/-- `Layout.addLabel` with cursors. -/
def addLabelInPlace (limit : Nat) (l : Layout) (src : SourceLine) : Checked LineError Layout :=
  match src.label with
  | none => .ok l
  | some label => do
    let address ← l.locationInPlace limit
    let defined ← checked (l.define label address)
    if l.active = .data ∧ src.clause.isNone then
      return { defined with waiting := label.toString :: defined.waiting }
    else
      return defined

/-- `Layout.settleWaiting` with cursors. -/
def settleWaitingInPlace (limit : Nat) (l : Layout) (directive : Option Directive) :
    Checked LineError Layout :=
  if l.active = .data ∧ directive = some .align then .ok l
  else if l.active = .data ∧ directive.any Directive.allocates then do
    let address ← l.locationInPlace limit
    return { l with symbols := l.symbols.move l.waiting address, waiting := [] }
  else
    .ok { l with waiting := [] }

/-- `Layout.addInstruction` in place. -/
def addInstructionInPlace (limit : Nat) (l : Layout) (line : Nat) (c : Clause) :
    Checked LineError Layout :=
  if l.active ≠ .text then .error (.refused ⟨c.head.column, .outsideText c.head.toString⟩)
  else do
    let operands ← c.operands.mapM fun f =>
      (Operand.parseInPlace f).map fun o => (o, f.column)
    let opcode ← checked (Opcode.select c.head (operands.map (·.1)))
    let l := if l.codeLength < regionWords then l else l.outgrown line c.head.column .codeTooLarge
    let s : Statement := ⟨line, c.head.column, .instruction opcode operands⟩
    let codeLength ← cursor limit (l.codeLength + 1)
    return { l.addStatement s l.dataLength with codeLength }

/-- `Layout.addConstant` in place. -/
def addConstantInPlace (l : Layout) (symbol value : Fragment) : Checked LineError Layout := do
  expectSymbolNameInPlace symbol
  let e ← Expression.parseInPlace value
  let v ← checked (e.evaluate l.symbols)
  if fitsWord v then checked (l.define symbol v)
  else .error (.refused ⟨value.column, .wordRange v⟩)

/-- `Layout.addData` in place. -/
def addDataInPlace (limit : Nat) (l : Layout) (line : Nat) (d : Directive) (c : Clause) :
    Checked LineError Layout :=
  let add (body : StatementBody) (size : Nat) : Checked LineError Layout := do
    let dataLength ← cursor limit (l.dataLength + size)
    return l.addStatement ⟨line, c.head.column, body⟩ dataLength
  match d with
  | .word => do
    let values ← c.operands.mapM Expression.parseInPlace
    let size ← cursor limit (values.length * wordSize)
    add (.words l.dataLength values) size
  | .byte => do
    let values ← c.operands.mapM Expression.parseInPlace
    add (.bytes l.dataLength values) values.length
  | _ => do
    let strings ← checked (c.operands.mapM (stringOperand (d ≠ .ascii)))
    add (.string l.dataLength strings.flatten) strings.flatten.length

/-- `Layout.addRoom` in place. -/
def addRoomInPlace (limit : Nat) (l : Layout) (d : Directive) (amount : Fragment) :
    Checked LineError Layout := do
  let e ← Expression.parseInPlace amount
  let v ← checked (e.evaluate l.symbols)
  if d = .align then
    if 0 ≤ v ∧ v ≤ maxAlignPower then
      let dataLength ← roundUpInPlace limit l.dataLength (1 <<< v.toNat)
      return { l with dataLength }
    else
      .error (.refused ⟨amount.column, .alignmentRange v⟩)
  else if 0 ≤ v ∧ v ≤ regionSize then
    let dataLength ← cursor limit (l.dataLength + v.toNat)
    return { l with dataLength }
  else
    .error (.refused ⟨amount.column, .sizeRange v⟩)

/-- The operand at an index, which must be there. -/
def operandAt (operands : List Fragment) (i : Nat) : Checked LineError Fragment :=
  match operands[i]? with
  | some f => .ok f
  | none => .error (.trap .index)

/-- What a data directive adds, in place. -/
def growInPlace (limit : Nat) (l : Layout) (line : Nat) (d : Directive) (c : Clause) :
    Checked LineError Layout :=
  if c.operands = [] then .error (.refused ⟨c.head.column, .expectsOperands d⟩)
  else if d = .space ∨ d = .skip ∨ d = .align then
    match c.operands with
    | [amount] => l.addRoomInPlace limit d amount
    | operands => do
      let extra ← operandAt operands 1
      .error (.refused ⟨extra.column, .expectsOneOperand d⟩)
  else
    l.addDataInPlace limit line d c

/-- `Layout.addDataDirective` in place. -/
def addDataDirectiveInPlace (limit : Nat) (l : Layout) (line : Nat) (d : Directive) (c : Clause) :
    Checked LineError Layout :=
  if l.active ≠ .data then .error (.refused ⟨c.head.column, .onlyInData d⟩)
  else do
    let grown ← l.growInPlace limit line d c
    return if grown.dataLength ≤ regionSize then grown
      else grown.outgrown line c.head.column .dataTooLarge

/-- `Layout.addDirective` in place. -/
def addDirectiveInPlace (limit : Nat) (l : Layout) (line : Nat) (d : Directive) (c : Clause) :
    Checked LineError Layout :=
  match d with
  | .text | .data =>
    match c.operands with
    | [] => .ok { l with active := if d = .text then .text else .data }
    | extra :: _ => .error (.refused ⟨extra.column, .takesNoOperands d⟩)
  | .global | .globl =>
    if c.operands = [] then .error (.refused ⟨c.head.column, .expectsSymbol d⟩)
    else (c.operands.forM expectSymbolNameInPlace).map fun () => l
  | .equ | .set =>
    match c.operands with
    | [symbol, value] => l.addConstantInPlace symbol value
    | _ => .error (.refused ⟨c.head.column, .expectsNameAndValue d⟩)
  | _ => l.addDataDirectiveInPlace limit line d c

/-- `Layout.addLine` in place. -/
def addLineInPlace (limit : Nat) (l : Layout) (line : Nat) (src : SourceLine) :
    Checked LineError Layout := do
  let directive := src.clause.bind fun c => Directive.ofName? c.head.text
  let l ← l.alignForWordsInPlace limit directive
  let l ← l.addLabelInPlace limit src
  match src.clause with
  | none => return l
  | some c =>
    let l ← l.settleWaitingInPlace limit directive
    match directive with
    | some d => l.addDirectiveInPlace limit line d c
    | none =>
      if c.head.text.head? = some '.' then
        .error (.refused ⟨c.head.column, .unknownDirective c.head.toString⟩)
      else
        l.addInstructionInPlace limit line c

/-- `Layout.addLines` in place. -/
def addLinesInPlace (limit : Nat) (l : Layout) (line : Nat) :
    List (List Char) → Checked AssemblyError Layout
  | [] => .ok l
  | text :: texts =>
    match SourceLine.scanInPlace text >>= l.addLineInPlace limit line with
    | .ok l => l.addLinesInPlace limit (line + 1) texts
    | .error stop => .error (stop.map (·.onLine line))

/-- `Layout.ofLines` in place. -/
def ofLinesInPlace (limit : Nat) (lines : List (List Char)) : Checked AssemblyError Layout :=
  addLinesInPlace limit {} 1 lines

/-! ## Cursors below their limits -/

section Steps

variable {limit bound line : Nat} {l : Layout} {src : SourceLine} {c : Clause}

theorem locationInPlace_eq (room : l.reach ≤ bound) :
    EqUnlessOverflow limit bound (l.locationInPlace limit) (.ok l.location) := by
  have base : codeBase.toNat ≤ dataBase.toNat := by decide
  rw [reach] at room
  rw [locationInPlace, location]
  cases l.active with
  | text =>
    refine (cursor_eq (by omega)).bind_ok ((cursor_eq (by omega)).bind_ok (.of_eq ?_))
    rw [Int.natCast_add, Int.natCast_mul]
    rfl
  | data =>
    refine (cursor_eq (by omega)).bind_ok (.of_eq ?_)
    rw [Int.natCast_add]
    rfl

theorem alignForWordsInPlace_eq (directive : Option Directive) (room : l.reach + wordSize ≤ bound) :
    EqUnlessOverflow limit bound (l.alignForWordsInPlace limit directive)
      (.ok (l.alignForWords directive)) := by
  have below := roundUp_lt l.dataLength (m := wordSize) (by decide)
  rw [reach] at room
  rw [alignForWordsInPlace, alignForWords]
  split
  · exact (roundUpInPlace_eq (by decide) (by omega)).bind_ok (.of_eq rfl)
  · exact .of_eq rfl

theorem alignForWordsInPlace_none : l.alignForWordsInPlace limit none = .ok l :=
  if_neg fun word => by cases word.2

theorem addLabelInPlace_eq (room : l.reach ≤ bound) :
    EqUnlessOverflow limit bound (l.addLabelInPlace limit src) (checked (l.addLabel src)) := by
  rw [addLabelInPlace, addLabel]
  cases src.label with
  | none => exact .of_eq rfl
  | some label =>
    refine (locationInPlace_eq room).bind_ok (.of_eq ?_)
    rw [checked_bind]
    refine bind_congr fun defined => ?_
    split <;> rfl

theorem settleWaitingInPlace_eq (directive : Option Directive) (room : l.reach ≤ bound) :
    EqUnlessOverflow limit bound (l.settleWaitingInPlace limit directive)
      (.ok (l.settleWaiting directive)) := by
  rw [settleWaitingInPlace, settleWaiting]
  split
  · exact .of_eq rfl
  split
  · exact (locationInPlace_eq room).bind_ok (.of_eq rfl)
  · exact .of_eq rfl

theorem addInstructionInPlace_eq (room : l.reach + wordSize ≤ bound) :
    EqUnlessOverflow limit bound (l.addInstructionInPlace limit line c)
      (checked (l.addInstruction line c)) := by
  have operands_eq :
      (c.operands.mapM fun f => (Operand.parseInPlace f).map fun o => (o, f.column)) =
        checked (c.operands.mapM fun f => (Operand.parse f).map fun o => (o, f.column)) := by
    simp only [checked_mapM, checked_map, Operand.parseInPlace_eq]
  have next : l.codeLength + 1 ≤ bound := by
    simp only [reach, wordSize] at room
    omega
  rw [addInstructionInPlace, addInstruction, operands_eq]
  split
  · exact .of_eq rfl
  rw [checked_bind]
  refine .bind_same fun operands _ => ?_
  rw [checked_bind]
  refine .bind_same fun opcode _ => ?_
  split
  · exact (cursor_eq next).bind_ok (.of_eq rfl)
  · exact (cursor_eq next).bind_ok (.of_eq rfl)

theorem addConstantInPlace_eq (symbol value : Fragment) :
    l.addConstantInPlace symbol value = checked (l.addConstant symbol value) := by
  rw [addConstantInPlace, addConstant, expectSymbolNameInPlace_eq, checked_bind]
  refine bind_congr fun () => ?_
  rw [Expression.parseInPlace_eq, checked_bind]
  refine bind_congr fun e => ?_
  rw [checked_bind]
  refine bind_congr fun v => ?_
  split <;> rfl

/-! The end of the data moves by what a directive lists, or by a region at most. -/

theorem addDataInPlace_eq {d : Directive} (listed : c.operands.length ≤ totalWidth c.operands)
    (room : l.reach + c.room ≤ bound) :
    EqUnlessOverflow limit bound (l.addDataInPlace limit line d c)
      (checked (l.addData line d c)) := by
  have values_eq : c.operands.mapM Expression.parseInPlace =
      checked (c.operands.mapM Expression.parse) := by
    rw [checked_mapM]
    exact congrArg (c.operands.mapM ·) (funext Expression.parseInPlace_eq)
  have length {values : List Expression}
      (parsed : checked (c.operands.mapM Expression.parse) = .ok values) :
      values.length ≤ totalWidth c.operands := by
    rw [← (Except.mapM_eq_ok_iff.mp (checked_eq_ok_iff.mp parsed)).length_eq]
    exact listed
  simp only [reach, Clause.room, wordSize, regionSize] at room
  by_cases word : d = .word
  · subst word
    rw [addDataInPlace, addData, values_eq, checked_bind]
    refine .bind_same fun values parsed => ?_
    have size : values.length * wordSize ≤ 4 * totalWidth c.operands := by
      have few := length parsed
      simp only [wordSize]
      omega
    exact (cursor_eq (by omega)).bind_ok ((cursor_eq (by omega)).bind_ok (.of_eq rfl))
  by_cases byte : d = .byte
  · subst byte
    rw [addDataInPlace, addData, values_eq, checked_bind]
    refine .bind_same fun values parsed => ?_
    have few := length parsed
    exact (cursor_eq (by omega)).bind_ok (.of_eq rfl)
  rw [addDataInPlace.eq_3 _ _ _ _ _ word byte, addData.eq_3 _ _ _ _ word byte, checked_bind]
  refine .bind_same fun strings read => ?_
  have short := length_flatten_le_totalWidth
    (Except.mapM_eq_ok_iff.mp (checked_eq_ok_iff.mp read))
  exact (cursor_eq (by omega)).bind_ok (.of_eq rfl)

theorem addRoomInPlace_eq {d : Directive} {amount : Fragment}
    (room : l.reach + regionSize ≤ bound) :
    EqUnlessOverflow limit bound (l.addRoomInPlace limit d amount)
      (checked (l.addRoom d amount)) := by
  rw [addRoomInPlace, addRoom, Expression.parseInPlace_eq, checked_bind]
  refine .bind_same fun e _ => ?_
  rw [checked_bind]
  refine .bind_same fun v _ => ?_
  rw [reach] at room
  split
  · split
    · next inside =>
      have most := one_shiftLeft_le inside.2
      have positive := one_shiftLeft_pos v.toNat
      have below := roundUp_lt l.dataLength positive
      exact (roundUpInPlace_eq positive (by omega)).bind_ok (.of_eq rfl)
    · exact .of_eq rfl
  · split
    · next inside => exact (cursor_eq (by omega)).bind_ok (.of_eq rfl)
    · exact .of_eq rfl

theorem addDataDirectiveInPlace_eq {d : Directive}
    (listed : c.operands.length ≤ totalWidth c.operands) (room : l.reach + c.room ≤ bound) :
    EqUnlessOverflow limit bound (l.addDataDirectiveInPlace limit line d c)
      (checked (l.addDataDirective line d c)) := by
  have regionRoom : l.reach + regionSize ≤ bound :=
    Nat.le_trans (Nat.add_le_add_left (Nat.le_add_right _ _) _) room
  rw [addDataDirectiveInPlace, addDataDirective, growInPlace]
  split
  · exact .of_eq rfl
  cases operands : c.operands with
  | nil => exact .of_eq rfl
  | cons first others =>
    rw [if_neg (List.cons_ne_nil first others)]
    by_cases single : d = .space ∨ d = .skip ∨ d = .align
    · simp only [if_pos single]
      cases others with
      | nil =>
        rw [checked_bind]
        exact (addRoomInPlace_eq regionRoom).bind fun grown _ => .of_eq rfl
      | cons second others => exact .of_eq rfl
    · simp only [if_neg single]
      rw [checked_bind]
      exact (addDataInPlace_eq listed room).bind fun grown _ => .of_eq rfl

theorem addDirectiveInPlace_eq {d : Directive}
    (listed : c.operands.length ≤ totalWidth c.operands) (room : l.reach + c.room ≤ bound) :
    EqUnlessOverflow limit bound (l.addDirectiveInPlace limit line d c)
      (checked (l.addDirective line d c)) := by
  cases d with
  | text | data =>
    refine .of_eq ?_
    rw [addDirectiveInPlace, addDirective]
    cases c.operands <;> rfl
  | global | globl =>
    refine .of_eq ?_
    have names_eq : c.operands.forM expectSymbolNameInPlace =
        checked (c.operands.forM expectSymbolName) := by
      rw [checked_forM]
      exact congrArg (c.operands.forM ·) (funext expectSymbolNameInPlace_eq)
    rw [addDirectiveInPlace, addDirective, names_eq]
    split
    · rfl
    · rw [checked_map]
  | equ | set =>
    refine .of_eq ?_
    rw [addDirectiveInPlace, addDirective]
    rcases c.operands with - | ⟨symbol, - | ⟨value, - | ⟨extra, others⟩⟩⟩
    · rfl
    · rfl
    · exact addConstantInPlace_eq symbol value
    · rfl
  | word | byte | space | skip | ascii | asciz | string | align =>
    exact addDataDirectiveInPlace_eq listed room

end Steps

/-! ## How far the cursors move -/

section Reach

variable {line : Nat} {l l' : Layout} {src : SourceLine} {c : Clause}

theorem reach_alignForWords_le (directive : Option Directive) :
    (l.alignForWords directive).reach ≤ l.reach + wordSize := by
  have below := roundUp_lt l.dataLength (m := wordSize) (by decide)
  rw [alignForWords]
  split
  · simp only [reach]
    omega
  · exact Nat.le_add_right _ _

theorem reach_define {name : Fragment} {v : Int} (defined : l.define name v = .ok l') :
    l'.reach = l.reach := by
  obtain ⟨-, rfl⟩ := define_eq_ok defined
  rfl

theorem reach_addLabel (added : l.addLabel src = .ok l') : l'.reach = l.reach := by
  rw [addLabel] at added
  split at added
  · cases added
    rfl
  · obtain ⟨defined, isDefined, added⟩ := Except.bind_eq_ok_iff.mp added
    rw [← reach_define isDefined]
    split at added <;> (cases added; rfl)

theorem reach_settleWaiting (directive : Option Directive) :
    (l.settleWaiting directive).reach = l.reach := by
  obtain ⟨symbols, waiting, same⟩ := l.settleWaiting_eq directive
  rw [same]
  rfl

theorem reach_addRoom_le {d : Directive} {amount : Fragment}
    (added : l.addRoom d amount = .ok l') : l'.reach ≤ l.reach + regionSize := by
  rw [addRoom] at added
  obtain ⟨e, -, added⟩ := Except.bind_eq_ok_iff.mp added
  obtain ⟨v, -, added⟩ := Except.bind_eq_ok_iff.mp added
  split at added
  · split at added
    · next inside =>
      cases added
      have most := one_shiftLeft_le inside.2
      have below := roundUp_lt l.dataLength (one_shiftLeft_pos v.toNat)
      simp only [reach]
      omega
    · cases added
  · split at added
    · cases added
      simp only [reach]
      omega
    · cases added

theorem reach_addData_le {d : Directive} (listed : c.operands.length ≤ totalWidth c.operands)
    (added : l.addData line d c = .ok l') :
    l'.reach ≤ l.reach + wordSize * totalWidth c.operands := by
  simp only [addData] at added
  split at added
  · obtain ⟨values, parsed, added⟩ := Except.bind_eq_ok_iff.mp added
    cases added
    have few := (Except.mapM_eq_ok_iff.mp parsed).length_eq
    simp only [reach, addStatement, wordSize]
    omega
  · obtain ⟨values, parsed, added⟩ := Except.bind_eq_ok_iff.mp added
    cases added
    have few := (Except.mapM_eq_ok_iff.mp parsed).length_eq
    simp only [reach, addStatement, wordSize]
    omega
  · obtain ⟨strings, read, added⟩ := Except.bind_eq_ok_iff.mp added
    cases added
    have short := length_flatten_le_totalWidth (Except.mapM_eq_ok_iff.mp read)
    simp only [reach, addStatement, wordSize]
    omega

theorem reach_addDataDirective_le {d : Directive}
    (listed : c.operands.length ≤ totalWidth c.operands)
    (added : l.addDataDirective line d c = .ok l') : l'.reach ≤ l.reach + c.room := by
  have reach_ite (grown : Layout) :
      (if grown.dataLength ≤ regionSize then grown
        else grown.outgrown line c.head.column .dataTooLarge).reach = grown.reach := by
    split <;> rfl
  simp only [addDataDirective] at added
  split at added
  · cases added
  split at added
  · cases added
  split at added
  · split at added
    · obtain ⟨grown, made, added⟩ := Except.bind_eq_ok_iff.mp added
      cases added
      rw [reach_ite]
      have room := reach_addRoom_le made
      rw [Clause.room]
      omega
    · cases added
  · obtain ⟨grown, made, added⟩ := Except.bind_eq_ok_iff.mp added
    cases added
    rw [reach_ite]
    have room := reach_addData_le listed made
    rw [Clause.room]
    omega

theorem reach_addDirective_le {d : Directive}
    (listed : c.operands.length ≤ totalWidth c.operands)
    (added : l.addDirective line d c = .ok l') : l'.reach ≤ l.reach + c.room := by
  rcases addDirective_eq_ok added with ⟨-, rfl⟩ | ⟨-, rfl⟩ | ⟨-, outcome⟩
  · exact Nat.le_add_right _ _
  · exact Nat.le_add_right _ _
  · rcases outcome with rfl | data | ⟨symbol, value, constant⟩
    · exact Nat.le_add_right _ _
    · exact reach_addDataDirective_le listed data
    · obtain ⟨e, v, -, -, -, defined⟩ := addConstant_eq_ok constant
      rw [reach_define defined]
      exact Nat.le_add_right _ _

theorem reach_addInstruction (added : l.addInstruction line c = .ok l') :
    l'.reach = l.reach + wordSize := by
  obtain ⟨s, overflow, -, -, rfl⟩ := addInstruction_eq_ok added
  simp only [reach, Nat.succ_mul, Nat.add_assoc]

theorem reach_addLine_le (listed : src.IsListed) (added : l.addLine line src = .ok l') :
    l'.reach ≤ l.reach + src.room := by
  obtain ⟨labelled, labelAdded, outcome⟩ := addLine_eq_ok added
  have aligned := l.reach_alignForWords_le src.directive?
  rw [← reach_addLabel labelAdded] at aligned
  rcases outcome with ⟨none, rfl⟩ | ⟨c, clause, ⟨d, -, added⟩ | ⟨-, added⟩⟩
  · have stays : src.directive? = .none := by
      rw [SourceLine.directive?, none]
      rfl
    rw [SourceLine.room, none, reach_addLabel labelAdded, stays]
    exact Nat.le_of_eq (congrArg reach l.alignForWords_none)
  · have grown := reach_addDirective_le (listed c clause) added
    rw [reach_settleWaiting] at grown
    rw [SourceLine.room, clause]
    simp only
    omega
  · have grown := reach_addInstruction added
    rw [reach_settleWaiting] at grown
    rw [SourceLine.room, clause]
    simp only [Clause.room, wordSize, regionSize] at grown aligned ⊢
    omega

end Reach

/-! ## Lines -/

section Lines

variable {limit bound line : Nat} {l : Layout}

theorem addLineInPlace_eq {src : SourceLine} (listed : src.IsListed)
    (room : l.reach + src.room ≤ bound) :
    EqUnlessOverflow limit bound (l.addLineInPlace limit line src)
      (checked (l.addLine line src)) := by
  rw [addLineInPlace, addLine]
  cases clause : src.clause with
  | none =>
    rw [SourceLine.room, clause] at room
    rw [Option.bind_none, alignForWords_none, alignForWordsInPlace_none, Except.ok_bind,
      checked_bind]
    exact (addLabelInPlace_eq room).bind fun labelled _ => .of_eq rfl
  | some c =>
    rw [SourceLine.room, clause] at room
    simp only at room
    have word : wordSize ≤ c.room := by
      simp only [Clause.room, wordSize, regionSize]
      omega
    rw [Option.bind_some]
    generalize Directive.ofName? c.head.text = directive
    have aligned := l.reach_alignForWords_le directive
    refine (alignForWordsInPlace_eq directive (by omega)).bind_ok ?_
    rw [checked_bind]
    refine (addLabelInPlace_eq (by omega)).bind fun labelled added => ?_
    have same := reach_addLabel (checked_eq_ok_iff.mp added)
    have settled := labelled.reach_settleWaiting directive
    refine (settleWaitingInPlace_eq directive (by omega)).bind_ok ?_
    cases directive with
    | some d => exact addDirectiveInPlace_eq (listed c clause) (by omega)
    | none =>
      simp only
      split
      · exact .of_eq rfl
      · exact addInstructionInPlace_eq (by omega)

/-- The room of a line is at most two regions for each of its bytes. -/
theorem room_le_of_scan {text : List Char} {src : SourceLine}
    (scanned : SourceLine.scan text = .ok src) :
    src.IsListed ∧ src.room ≤ 2 * regionSize * utf8Length text := by
  refine ⟨fun c clause => (SourceLine.width_le_of_scan scanned clause).2.1, ?_⟩
  rw [SourceLine.room]
  cases clause : src.clause with
  | none => exact Nat.zero_le _
  | some c =>
    obtain ⟨positive, -, narrow⟩ := SourceLine.width_le_of_scan scanned clause
    simp only [Clause.width, Clause.room, wordSize, regionSize] at narrow ⊢
    omega

theorem addLinesInPlace_eq {texts : List (List Char)}
    (room : l.reach + 2 * regionSize * (texts.map utf8Length).sum ≤ bound) :
    EqUnlessOverflow limit bound (l.addLinesInPlace limit line texts)
      (checked (l.addLines line texts)) := by
  -- what is below the bound is the reach so far with the room of all lines to come: a line moves
  -- its own room from one to the other
  induction texts generalizing l line with
  | nil => exact .of_eq rfl
  | cons text texts ih =>
    rw [List.map_cons, List.sum_cons, Nat.mul_add] at room
    have head : EqUnlessOverflow limit bound
        (SourceLine.scanInPlace text >>= l.addLineInPlace limit line)
        (checked (SourceLine.scan text >>= l.addLine line)) := by
      rw [SourceLine.scanInPlace_eq, checked_bind]
      refine .bind_same fun src scanned => ?_
      obtain ⟨listed, small⟩ := room_le_of_scan (checked_eq_ok_iff.mp scanned)
      exact addLineInPlace_eq listed (by omega)
    rw [addLinesInPlace, addLines]
    rcases head with same | ⟨overflow, reached⟩
    · rw [same]
      cases added : SourceLine.scan text >>= l.addLine line with
      | error e => exact .of_eq rfl
      | ok l' =>
        obtain ⟨src, scanned, lineAdded⟩ := Except.bind_eq_ok_iff.mp added
        obtain ⟨listed, small⟩ := room_le_of_scan scanned
        have moved := reach_addLine_le listed lineAdded
        exact ih (by omega)
    · rw [overflow]
      exact .inr ⟨rfl, reached⟩

/-- The layout of a source is laid out in place, unless the source is too much text. -/
theorem ofLinesInPlace_eq {lines : List (List Char)}
    (room : dataBase.toNat + wordSize + 2 * regionSize * (lines.map utf8Length).sum ≤ bound) :
    EqUnlessOverflow limit bound (ofLinesInPlace limit lines) (checked (ofLines lines)) :=
  addLinesInPlace_eq (l := {}) room

end Lines

end Layout

end RobotMachine
