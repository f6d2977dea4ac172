import Mathlib.Algebra.Group.Nat.Defs
import RobotMachine.Proofs.DataExtent
import RobotMachine.Proofs.SettledSymbols

/-!
# Stretches of data

A directive that allocates or aligns data takes up a stretch of it, from the end of what stands
before. What goes into a stretch is said here about the operands of the directive alone; the first
look at a source fixes the place, and the second one the bytes.

* `Clause.Fills`: the bytes that a data directive asks for.
* `Layout.addLine_reserves`: what a line with a data directive reserves.
* `Clause.Reserves.fills`: what is reserved is filled as the directive asks.
-/

namespace RobotMachine

/-! ## What directives ask for -/

/-- Whether a directive moves the end of the data. -/
def Directive.placesData (d : Directive) : Bool :=
  d.allocates || d == .align

/-- Whether a line has a directive that moves the end of the data. -/
def SourceLine.placesData (src : SourceLine) : Bool :=
  src.directive?.any Directive.placesData

/-- The fragment is an expression with the value under a symbol table. -/
def Fragment.HasValue (f : Fragment) (table : SymbolTable) (v : Int) : Prop :=
  ∃ e, Expression.parse f = .ok e ∧ e.evaluate table = .ok v

/-- The fragment is a string literal of the bytes. -/
def Fragment.IsString (f : Fragment) (bytes : List UInt8) : Prop :=
  f.text.head? = some '"' ∧ f.toStringBytes = .ok bytes

/-- The bytes that a data directive asks for from an offset on. The listed values are those of the
symbols at the end of the source, and so is the count of bytes left blank; the power that is
aligned to is that of the symbols when the directive is read. -/
inductive Clause.Fills (c : Clause) (early table : SymbolTable) (start : Nat) :
    Directive → List UInt8 → Prop
  | word {values : List Int} :
    List.Forall₂ (fun f v => f.HasValue table v) c.operands values →
      (∀ v ∈ values, -0x80000000 ≤ v ∧ v < 0x100000000) → wordSize ∣ start →
      c.Fills early table start .word (values.flatMap fun v => wordBytes (UInt32.ofInt v))
  | byte {values : List Int} :
    List.Forall₂ (fun f v => f.HasValue table v) c.operands values →
      (∀ v ∈ values, -0x80 ≤ v ∧ v < 0x100) →
      c.Fills early table start .byte (values.map UInt8.ofInt)
  | strings {d : Directive} {texts : List (List UInt8)} : d = .ascii ∨ d = .asciz ∨ d = .string →
    List.Forall₂ Fragment.IsString c.operands texts →
      c.Fills early table start d
        (texts.flatMap fun bytes => if d = .ascii then bytes else bytes ++ [0])
  | room {d : Directive} {amount : Fragment} {v : Int} : d = .space ∨ d = .skip →
    c.operands = [amount] → amount.HasValue table v → 0 ≤ v ∧ v ≤ regionSize →
      c.Fills early table start d (List.replicate v.toNat 0)
  | align {amount : Fragment} {v : Int} : c.operands = [amount] → amount.HasValue early v →
    0 ≤ v ∧ v ≤ maxAlignPower →
      c.Fills early table start .align
        (List.replicate (roundUp start (2 ^ v.toNat) - start) 0)

/-! ## What the first look reserves -/

/-- What a data directive reserves from an offset on: a statement that will fill the room up to an
end, or blank room. -/
inductive Clause.Reserves (c : Clause) (early : SymbolTable) (start : Nat) :
    Directive → Option StatementBody → (stop : Nat) → Prop
  | word {values : List Expression} :
    c.operands.mapM Expression.parse = .ok values →
      c.Reserves early start .word (some (.words start values)) (start + values.length * wordSize)
  | byte {values : List Expression} :
    c.operands.mapM Expression.parse = .ok values →
      c.Reserves early start .byte (some (.bytes start values)) (start + values.length)
  | strings {d : Directive} {strings : List (List UInt8)} :
    d = .ascii ∨ d = .asciz ∨ d = .string →
      c.operands.mapM (Layout.stringOperand (d ≠ .ascii)) = .ok strings →
      c.Reserves early start d (some (.string start strings.flatten))
        (start + strings.flatten.length)
  | room {d : Directive} {amount : Fragment} {v : Int} : d = .space ∨ d = .skip →
    c.operands = [amount] → amount.HasValue early v → 0 ≤ v ∧ v ≤ regionSize →
      c.Reserves early start d none (start + v.toNat)
  | align {amount : Fragment} {v : Int} : c.operands = [amount] → amount.HasValue early v →
    0 ≤ v ∧ v ≤ maxAlignPower →
      c.Reserves early start .align none (roundUp start (2 ^ v.toNat))

namespace Layout

variable {l l' m : Layout} {lines : List SourceLine} {src : SourceLine} {c : Clause} {line : Nat}
  {d : Directive}

theorem addRoom_reserves {amount : Fragment} (isRoom : d = .space ∨ d = .skip ∨ d = .align)
    (operands : c.operands = [amount]) (added : l.addRoom d amount = .ok l') :
    ∃ stop, c.Reserves l.symbols l.dataLength d none stop ∧ l' = { l with dataLength := stop } := by
  simp only [addRoom, Except.bind_eq_ok_iff] at added
  obtain ⟨e, parsed, v, evaluated, added⟩ := added
  split at added
  · next isAlign =>
    subst isAlign
    split at added
    · next range =>
      cases added
      rw [Nat.one_shiftLeft]
      exact ⟨_, .align operands ⟨e, parsed, evaluated⟩ range, rfl⟩
    · cases added
  · next notAlign =>
    split at added
    · next range =>
      cases added
      have isSpace : d = .space ∨ d = .skip := by
        rcases isRoom with same | same | same
        · exact .inl same
        · exact .inr same
        · exact absurd same notAlign
      exact ⟨_, .room isSpace operands ⟨e, parsed, evaluated⟩ range, rfl⟩
    · cases added

theorem addData_reserves (allocates : d.allocates = true)
    (notRoom : ¬(d = .space ∨ d = .skip ∨ d = .align)) (added : l.addData line d c = .ok l') :
    ∃ body stop, c.Reserves l.symbols l.dataLength d (some body) stop ∧
      l' = l.addStatement ⟨line, c.head.column, body⟩ stop := by
  simp only [addData] at added
  split at added
  · obtain ⟨values, parsed, added⟩ := Except.bind_eq_ok_iff.mp added
    cases added
    exact ⟨_, _, .word parsed, rfl⟩
  · obtain ⟨values, parsed, added⟩ := Except.bind_eq_ok_iff.mp added
    cases added
    exact ⟨_, _, .byte parsed, rfl⟩
  · next notWord notByte =>
    obtain ⟨strings, read, added⟩ := Except.bind_eq_ok_iff.mp added
    cases added
    refine ⟨_, _, .strings ?_ read, rfl⟩
    cases d with
    | word => exact absurd rfl notWord
    | byte => exact absurd rfl notByte
    | space | skip => simp at notRoom
    | ascii | asciz | string => simp
    | text | data | global | globl | equ | set | align => cases allocates

theorem addDirective_of_placesData (places : d.placesData = true) :
    m.addDirective line d c = m.addDataDirective line d c := by
  cases d with
  | word | byte | space | skip | ascii | asciz | string | align => rfl
  | text | data | global | globl | equ | set => cases places

/-- A data directive reserves a stretch at the end of the data, which is where the data ends now. -/
theorem addDirective_reserves (places : d.placesData = true)
    (added : m.addDirective line d c = .ok l') :
    m.active = .data ∧ ∃ body stop, c.Reserves m.symbols m.dataLength d body stop ∧
      l'.dataLength = stop ∧
      l'.statements = (body.map (Statement.mk line c.head.column)).toList ++ m.statements := by
  rw [addDirective_of_placesData places] at added
  simp only [addDataDirective] at added
  split at added
  · cases added
  next inData =>
  have outcome (grown : Layout) (same : (if grown.dataLength ≤ regionSize then grown
      else grown.outgrown line c.head.column .dataTooLarge) = l') :
      l'.dataLength = grown.dataLength ∧ l'.statements = grown.statements := by
    subst same
    split <;> exact ⟨rfl, rfl⟩
  refine ⟨Decidable.of_not_not inData, ?_⟩
  split at added
  · cases added
  next first others operands =>
  split at added
  · next isRoom =>
    split at added
    · obtain ⟨grown, made, checked⟩ := Except.bind_eq_ok_iff.mp added
      obtain ⟨stop, reserves, rfl⟩ := addRoom_reserves isRoom operands made
      obtain ⟨length, statements⟩ := outcome _ (Except.ok.inj checked)
      exact ⟨none, stop, reserves, length, statements⟩
    · cases added
  · next notRoom =>
    obtain ⟨grown, made, checked⟩ := Except.bind_eq_ok_iff.mp added
    have allocates : d.allocates = true := by
      cases d with
      | align => simp at notRoom
      | word | byte | space | skip | ascii | asciz | string => rfl
      | text | data | global | globl | equ | set => cases places
    obtain ⟨body, stop, reserves, rfl⟩ := addData_reserves allocates notRoom made
    obtain ⟨length, statements⟩ := outcome _ (Except.ok.inj checked)
    exact ⟨some body, stop, reserves, length, statements⟩

theorem dataLength_enter (clause : src.clause = some c) (entered : l.enter src = .ok m) :
    m.dataLength = (l.alignForWords src.directive?).dataLength := by
  obtain ⟨symbols, rfl, -⟩ := enter_eq_ok clause entered
  obtain ⟨symbols', waiting, settled⟩ :=
    settleWaiting_eq { l.alignForWords src.directive? with symbols } src.directive?
  rw [settled]

theorem statements_enter (clause : src.clause = some c) (entered : l.enter src = .ok m) :
    m.statements = l.statements := by
  obtain ⟨symbols, rfl, -⟩ := enter_eq_ok clause entered
  obtain ⟨symbols', waiting, settled⟩ :=
    settleWaiting_eq { l.alignForWords src.directive? with symbols } src.directive?
  obtain ⟨dataLength, aligned⟩ := l.alignForWords_eq src.directive?
  rw [settled, aligned]

theorem dvd_roundUp (n m : Nat) : m ∣ roundUp n m :=
  Nat.dvd_mul_left m _

/-- The data stands at a multiple of the word size when words are listed, and where it ended
before for every other directive. -/
theorem dataLength_alignForWords (inData : l.active = .data) (d : Directive) :
    (l.alignForWords (some d)).dataLength =
      if d = .word then roundUp l.dataLength wordSize else l.dataLength := by
  unfold alignForWords
  by_cases isWord : d = .word
  · rw [if_pos ⟨inData, congrArg some isWord⟩, if_pos isWord]
  · rw [if_neg fun both => isWord (Option.some.inj both.2), if_neg isWord]

/-- A line with a data directive reserves a stretch of the data. -/
theorem addLine_reserves (directive : src.directive? = some d) (places : d.placesData = true)
    (added : l.addLine line src = .ok l') :
    ∃ c m body stop, src.clause = some c ∧ l.enter src = .ok m ∧
      m.addDirective line d c = .ok l' ∧ l.active = .data ∧
      m.dataLength = (if d = .word then roundUp l.dataLength wordSize else l.dataLength) ∧
      c.Reserves m.symbols m.dataLength d body stop ∧ l'.dataLength = stop ∧
      l'.statements = (body.map (Statement.mk line c.head.column)).toList ++ l.statements := by
  obtain ⟨c, m, clause, entered, added⟩ := addLine_of_directive added directive
  obtain ⟨inData, body, stop, reserves, length, statements⟩ := addDirective_reserves places added
  rw [active_enter clause entered] at inData
  have start := dataLength_enter clause entered
  rw [directive, dataLength_alignForWords inData] at start
  rw [statements_enter clause entered] at statements
  exact ⟨c, m, body, stop, clause, entered, added, inData, start, reserves, length, statements⟩

/-- Every other directive only changes the active section and the symbols. -/
theorem addDirective_of_not_placesData (none : d.placesData = false)
    (added : m.addDirective line d c = .ok l') :
    ∃ active symbols, l' = { m with active, symbols } := by
  cases d with
  | word | byte | space | skip | ascii | asciz | string | align => cases none
  | text | data =>
    simp only [addDirective] at added
    split at added
    · exact ⟨_, _, (Except.ok.inj added).symm⟩
    · cases added
  | global | globl =>
    simp only [addDirective] at added
    split at added
    · cases added
    · obtain ⟨-, -, same⟩ := Except.map_eq_ok_iff.mp added
      exact ⟨_, _, same.symm⟩
  | equ | set =>
    simp only [addDirective] at added
    split at added
    · obtain ⟨e, v, -, -, -, defined⟩ := addConstant_eq_ok added
      obtain ⟨-, rfl⟩ := define_eq_ok defined
      exact ⟨_, _, rfl⟩
    · cases added

/-- Every other line leaves the data alone. -/
theorem addLine_of_not_placesData (none : src.placesData = false)
    (added : l.addLine line src = .ok l') :
    l'.dataLength = l.dataLength ∧
      (l'.statements = l.statements ∨
        ∃ s, s.isInstruction = true ∧ l'.statements = s :: l.statements) := by
  have unaligned : l.alignForWords src.directive? = l := by
    unfold alignForWords
    rw [if_neg]
    rintro ⟨-, isWord⟩
    rw [SourceLine.placesData, isWord] at none
    cases none
  rcases addLine_cases added with ⟨-, labelAdded⟩ | ⟨c, m, clause, entered, added⟩
  · obtain ⟨symbols, rfl, -⟩ := addLabel_eq_ok labelAdded
    rw [unaligned]
    exact ⟨rfl, .inl rfl⟩
  have length := dataLength_enter clause entered
  have statements := statements_enter clause entered
  rw [unaligned] at length
  rcases added with ⟨d, directive, added⟩ | ⟨-, added⟩
  · rw [SourceLine.placesData, directive, Option.any_some] at none
    obtain ⟨active, symbols, rfl⟩ := addDirective_of_not_placesData none added
    exact ⟨length, .inl statements⟩
  · obtain ⟨s, overflow, ⟨opcode, operands, -, -, rfl⟩, -, rfl⟩ := addInstruction_eq_ok added
    exact ⟨length, .inr ⟨_, rfl, congrArg _ statements⟩⟩

end Layout

/-! ## What the second look fills in -/

theorem emitWord_eq_ok {table : SymbolTable} {e : Expression} {bytes : List UInt8}
    (emitted : emitWord table e = .ok bytes) :
    ∃ v, e.evaluate table = .ok v ∧ (-0x80000000 ≤ v ∧ v < 0x100000000) ∧
      wordBytes (UInt32.ofInt v) = bytes := by
  simp only [emitWord] at emitted
  obtain ⟨v, evaluated, emitted⟩ := Except.bind_eq_ok_iff.mp emitted
  split at emitted
  · next fits =>
    simp only [Layout.fitsWord, Bool.and_eq_true, decide_eq_true_eq] at fits
    exact ⟨v, evaluated, fits, Except.ok.inj emitted⟩
  · cases emitted

theorem emitByte_eq_ok {table : SymbolTable} {e : Expression} {byte : UInt8}
    (emitted : emitByte table e = .ok byte) :
    ∃ v, e.evaluate table = .ok v ∧ (-0x80 ≤ v ∧ v < 0x100) ∧ UInt8.ofInt v = byte := by
  simp only [emitByte] at emitted
  obtain ⟨v, evaluated, emitted⟩ := Except.bind_eq_ok_iff.mp emitted
  split at emitted
  · next fits => exact ⟨v, evaluated, fits, Except.ok.inj emitted⟩
  · cases emitted

/-- What is emitted for listed expressions is made of the values of the operands. -/
theorem exists_values {β : Type} {table : SymbolTable} {emit : Expression → Except LineError β}
    {fits : Int → Prop} {make : Int → β}
    (each : ∀ e x, emit e = .ok x → ∃ v, e.evaluate table = .ok v ∧ fits v ∧ make v = x)
    {operands : List Fragment} {expressions : List Expression} {emitted : List β}
    (parsed : List.Forall₂ (fun f e => Expression.parse f = .ok e) operands expressions)
    (emits : List.Forall₂ (fun e x => emit e = .ok x) expressions emitted) :
    ∃ values, List.Forall₂ (fun f v => f.HasValue table v) operands values ∧
      (∀ v ∈ values, fits v) ∧ values.map make = emitted := by
  induction parsed generalizing emitted with
  | nil =>
    cases emits
    exact ⟨[], .nil, nofun, rfl⟩
  | @cons f e operands expressions isExpression _ ih =>
    obtain ⟨x, rest, emitsHead, emitsTail, rfl⟩ := List.forall₂_cons_left_iff.mp emits
    obtain ⟨v, evaluated, inside, rfl⟩ := each e x emitsHead
    obtain ⟨values, haveValues, allInside, rfl⟩ := ih emitsTail
    exact ⟨v :: values, .cons ⟨e, isExpression, evaluated⟩ haveValues,
      List.forall_mem_cons.mpr ⟨inside, allInside⟩, rfl⟩

theorem exists_strings {d : Directive} {operands : List Fragment} {strings : List (List UInt8)}
    (read : List.Forall₂ (fun f bytes => Layout.stringOperand (d ≠ .ascii) f = .ok bytes) operands
      strings) :
    ∃ texts, List.Forall₂ Fragment.IsString operands texts ∧
      texts.map (fun bytes => if d = .ascii then bytes else bytes ++ [0]) = strings := by
  induction read with
  | nil => exact ⟨[], .nil, rfl⟩
  | @cons f bytes operands strings head _ ih =>
    obtain ⟨texts, isString, rfl⟩ := ih
    rw [Layout.stringOperand] at head
    split at head
    · next opens =>
      obtain ⟨text, literal, rfl⟩ := Except.map_eq_ok_iff.mp head
      refine ⟨text :: texts, .cons ⟨opens, literal⟩ isString, ?_⟩
      rw [List.map_cons]
      congr 1
      by_cases isAscii : d = .ascii
      · rw [if_pos isAscii, isAscii]
        exact (List.append_nil text).symm
      · rw [if_neg isAscii, decide_eq_true isAscii]
        rfl
    · cases head

namespace Clause.Reserves

variable {c : Clause} {early table : SymbolTable} {start stop : Nat} {d : Directive}

/-- The statement of a directive becomes the bytes that the directive asks for. -/
theorem fills {body : StatementBody} {line column : Nat} {e : Emission}
    (reserves : c.Reserves early start d (some body) stop)
    (aligned : d = .word → wordSize ∣ start)
    (emitted : (Statement.mk line column body).emit table = .ok e) :
    ∃ bytes, e = .data start bytes ∧ stop = start + bytes.length ∧
      c.Fills early table start d bytes := by
  have extent := Statement.extent?_of_emit emitted
  cases reserves with
  | word parsed =>
    obtain ⟨words, each, rfl⟩ := Except.map_eq_ok_iff.mp emitted
    obtain ⟨values, haveValues, inside, rfl⟩ := exists_values (fun _ _ => emitWord_eq_ok)
      (Except.mapM_eq_ok_iff.mp parsed) (Except.mapM_eq_ok_iff.mp each)
    have length := congrArg (·.map Prod.snd) extent
    simp only [Emission.extent?, Statement.extent?, Option.map_some, Option.some.injEq] at length
    rw [← List.flatMap_def] at length ⊢
    exact ⟨_, rfl, by rw [length], .word haveValues inside (aligned rfl)⟩
  | byte parsed =>
    obtain ⟨bytes, each, rfl⟩ := Except.map_eq_ok_iff.mp emitted
    obtain ⟨values, haveValues, inside, rfl⟩ := exists_values (fun _ _ => emitByte_eq_ok)
      (Except.mapM_eq_ok_iff.mp parsed) (Except.mapM_eq_ok_iff.mp each)
    have length := congrArg (·.map Prod.snd) extent
    simp only [Emission.extent?, Statement.extent?, Option.map_some, Option.some.injEq] at length
    exact ⟨_, rfl, by rw [length], .byte haveValues inside⟩
  | strings isStrings read =>
    cases emitted
    obtain ⟨texts, areStrings, rfl⟩ := exists_strings (Except.mapM_eq_ok_iff.mp read)
    rw [← List.flatMap_def]
    exact ⟨_, rfl, rfl, .strings isStrings areStrings⟩

/-- Room without a statement is left blank. -/
theorem fills_blank (reserves : c.Reserves early start d none stop)
    (final : ∀ (amount : Fragment) v, d ≠ .align → amount.HasValue early v →
      amount.HasValue table v) :
    ∃ bytes, stop = start + bytes.length ∧ (∀ b ∈ bytes, b = 0) ∧
      c.Fills early table start d bytes := by
  cases reserves with
  | @room _ amount v isSpace operands value range =>
    have notAlign : d ≠ .align := by
      rintro rfl
      rcases isSpace with same | same <;> cases same
    refine ⟨_, ?_, fun b member => List.eq_of_mem_replicate member,
      .room isSpace operands (final amount v notAlign value) range⟩
    rw [List.length_replicate]
  | @align amount v operands value range =>
    refine ⟨_, ?_, fun b member => List.eq_of_mem_replicate member, .align operands value range⟩
    have longer := Layout.le_roundUp start (Nat.two_pow_pos v.toNat)
    rw [List.length_replicate]
    omega

/-- What is reserved is filled by the first emission, or it stays blank, and the other emissions
are those of the other statements. -/
theorem exists_fills {body : Option StatementBody} {line column : Nat}
    {statements : List Statement} {emissions : List Emission}
    (reserves : c.Reserves early start d body stop) (aligned : d = .word → wordSize ∣ start)
    (final : ∀ (amount : Fragment) v, d ≠ .align → amount.HasValue early v →
      amount.HasValue table v)
    (emitted : List.Forall₂ (fun s e => s.emit table = .ok e)
      ((body.map (Statement.mk line column)).toList ++ statements) emissions) :
    ∃ bytes rest, stop = start + bytes.length ∧ c.Fills early table start d bytes ∧
      List.Forall₂ (fun s e => s.emit table = .ok e) statements rest ∧
      (emissions = .data start bytes :: rest ∨ emissions = rest ∧ ∀ b ∈ bytes, b = 0) := by
  cases body with
  | none =>
    obtain ⟨bytes, ends, zeros, fills⟩ := reserves.fills_blank final
    exact ⟨bytes, emissions, ends, fills, emitted, .inr ⟨rfl, zeros⟩⟩
  | some body =>
    obtain ⟨e, rest, emittedHead, emittedRest, rfl⟩ := List.forall₂_cons_left_iff.mp emitted
    obtain ⟨bytes, rfl, ends, fills⟩ := reserves.fills aligned emittedHead
    exact ⟨bytes, rest, ends, fills, emittedRest, .inl rfl⟩

end Clause.Reserves

end RobotMachine
