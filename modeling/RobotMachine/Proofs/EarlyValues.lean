import RobotMachine.Proofs.DataStretches

/-!
# Values that the layout depends on

The first look at a source evaluates some operands on the spot: the value of a constant, the size of
room and the power of an alignment. A symbol that was read there keeps its value to the end of the
source, with one exception: an alignment leaves labels waiting, and may read where they stand before
the data that they wait for gives them another place.

* `Layout.Uses`: what the first look does with the value of an operand.
* `assemble_early_values`: such a value is the final one, unless an alignment reads a waiting label.
* `assemble_staleAlignment`: an alignment that reads a label which moves behind it.
-/

namespace RobotMachine

/-- Whether the first look at a source needs the value of the last operand of a directive. -/
def Directive.readsEarly : Directive → Bool
  | equ | set | space | skip | align => true
  | text | data | global | globl | word | byte | ascii | asciz | string => false

/-- The fragment is an expression with the symbol in it. -/
def Fragment.Mentions (f : Fragment) (name : String) : Prop :=
  ∃ e, Expression.parse f = .ok e ∧ name ∈ e.symbols.map (·.1)

namespace Layout

/-- What becomes of the value of the last operand of a directive, from the layout that the directive
is added to to the one behind it. -/
inductive Uses (m after : Layout) (c : Clause) (v : Int) : Directive → Prop
  | constant {d : Directive} {symbol value : Fragment} : d = .equ ∨ d = .set →
    c.operands = [symbol, value] → after = { m with symbols := (symbol.toString, v) :: m.symbols } →
      Uses m after c v d
  | room {d : Directive} {amount : Fragment} : d = .space ∨ d = .skip → c.operands = [amount] →
    0 ≤ v → after.symbols = m.symbols → after.dataLength = m.dataLength + v.toNat →
      Uses m after c v d
  | align {amount : Fragment} : c.operands = [amount] → 0 ≤ v → after.symbols = m.symbols →
    after.dataLength = roundUp m.dataLength (2 ^ v.toNat) → Uses m after c v .align

variable {l m before after : Layout} {lines : List SourceLine} {src : SourceLine} {c : Clause}
  {d : Directive} {line i : Nat} {table : SymbolTable}

theorem exists_uses_of_addConstant {symbol value : Fragment}
    (operands : c.operands = [symbol, value]) (added : m.addConstant symbol value = .ok after) :
    ∃ v, value.HasValue m.symbols v ∧ ∀ d, d = .equ ∨ d = .set → Uses m after c v d := by
  obtain ⟨e, v, parsed, evaluated, -, defined⟩ := addConstant_eq_ok added
  obtain ⟨-, rfl⟩ := define_eq_ok defined
  exact ⟨v, ⟨e, parsed, evaluated⟩, fun d isConstant => .constant isConstant operands rfl⟩

theorem exists_uses_of_addDataDirective (isRoom : d = .space ∨ d = .skip ∨ d = .align)
    (added : m.addDataDirective line d c = .ok after) :
    ∃ f v, c.operands = [f] ∧ f.HasValue m.symbols v ∧ Uses m after c v d := by
  have same := (sameCode_addDataDirective added).symbols_eq
  have places : d.placesData = true := by
    rcases isRoom with rfl | rfl | rfl <;> rfl
  have directiveAdded : m.addDirective line d c = .ok after := by
    rcases isRoom with rfl | rfl | rfl <;> exact added
  obtain ⟨-, body, stop, reserves, length, -⟩ := addDirective_reserves places directiveAdded
  cases reserves with
  | word | byte => simp at isRoom
  | strings isStrings =>
    rcases isRoom with rfl | rfl | rfl <;> rcases isStrings with same | same | same <;> cases same
  | @room _ amount v isSpace operands value range =>
    exact ⟨amount, v, operands, value, .room isSpace operands range.1 same length⟩
  | @align amount v operands value range =>
    exact ⟨amount, v, operands, value, .align operands range.1 same length⟩

/-- A directive that reads its last operand early uses the value that it has then. -/
theorem exists_uses (early : d.readsEarly = true) (added : m.addDirective line d c = .ok after) :
    ∃ f v, c.operands.getLast? = some f ∧ f.HasValue m.symbols v ∧ Uses m after c v d := by
  cases d with
  | text | data | global | globl | word | byte | ascii | asciz | string => cases early
  | equ | set =>
    simp only [addDirective] at added
    split at added
    · next symbol value operands =>
      obtain ⟨v, value, uses⟩ := exists_uses_of_addConstant operands added
      exact ⟨_, v, by rw [operands]; rfl, value, uses _ (by simp)⟩
    · cases added
  | space | skip | align =>
    obtain ⟨f, v, operands, value, uses⟩ := exists_uses_of_addDataDirective (by simp) added
    exact ⟨f, v, by rw [operands]; rfl, value, uses⟩

/-- No label waits when a directive is added, unless that aligns the data. -/
theorem waiting_enter_sub (clause : src.clause = some c) (entered : before.enter src = .ok m)
    (directive : src.directive? = some d) {name : String} (waits : name ∈ m.waiting) :
    d = .align ∧ name ∈ before.waiting := by
  rw [waiting_enter clause entered, SourceLine.waitingAfter, clause, directive] at waits
  dsimp only at waits
  split at waits
  · next both => exact ⟨Option.some.inj both.2, waits⟩
  · cases waits

theorem SettledIn.value?_eq {f : Fragment} {v : Int} {name : String} (settled : m.SettledIn table)
    (value : f.HasValue m.symbols v) (mentioned : f.Mentions name) (stands : name ∉ m.waiting) :
    table.value? name = m.symbols.value? name := by
  obtain ⟨e, parsed, evaluated⟩ := value
  obtain ⟨e', parsed', member⟩ := mentioned
  cases parsed.symm.trans parsed'
  obtain ⟨w, known⟩ := Expression.isSome_of_evaluate evaluated name member
  rw [known, settled name w stands known]

theorem SettledIn.hasValue {f : Fragment} {v : Int} (settled : m.SettledIn table)
    (value : f.HasValue m.symbols v) (stand : ∀ name, f.Mentions name → name ∉ m.waiting) :
    f.HasValue table v := by
  obtain ⟨e, parsed, evaluated⟩ := value
  exact ⟨e, parsed, settled.evaluate_eq evaluated fun name member => stand name ⟨e, parsed, member⟩⟩

end Layout

/-- The values that the first look at a source reads are final. Each constant, size and power is the
value of an operand under the symbols in front of its directive, and every symbol in the operand
keeps its value to the end of the source, and so does the operand, except that an alignment may read
a label that still waits for data. -/
theorem assemble_early_values {source : String} {p : Program}
    (assembled : assemble source = .ok p) :
    ∃ lines l, (linesOf source.toList).mapM SourceLine.scan = .ok lines ∧
      Layout.ofScanned lines = .ok l ∧
      p.symbols.Perm (l.symbols.map fun (name, v) => (name, UInt32.ofInt v)) ∧
      ∀ i src d, lines[i]? = some src → src.directive? = some d → d.readsEarly = true →
        ∃ c before m after f v, src.clause = some c ∧
          Layout.ofScanned (lines.take i) = .ok before ∧ before.enter src = .ok m ∧
          Layout.ofScanned (lines.take (i + 1)) = .ok after ∧
          c.operands.getLast? = some f ∧ f.HasValue m.symbols v ∧ m.Uses after c v d ∧
          (∀ name, f.Mentions name → (d = .align → name ∉ waitingAt (lines.take i)) →
            l.symbols.value? name = m.symbols.value? name) ∧
          ((d = .align → ∀ name, f.Mentions name → name ∉ waitingAt (lines.take i)) →
            f.HasValue l.symbols v) := by
  obtain ⟨l, laidOut, emitted⟩ := Except.bind_eq_ok_iff.mp assembled
  obtain ⟨lines, scanned, laidOut⟩ := Layout.ofLines_eq_ok_iff.mp laidOut
  obtain ⟨-, emissions, -, rfl⟩ := Layout.emit_eq_ok emitted
  refine ⟨lines, l, scanned, laidOut, l.sortedSymbols_perm, fun i src d here directive early => ?_⟩
  obtain ⟨before, after, laidOutBefore, added, -⟩ := Layout.ofScanned_split laidOut here
  obtain ⟨c, m, clause, entered, directiveAdded⟩ := Layout.addLine_of_directive added directive
  obtain ⟨f, v, operand, value, uses⟩ := Layout.exists_uses early directiveAdded
  have settled := Layout.settledIn_of_enter laidOut here laidOutBefore clause entered
  have stands (name : String) (settles : d = .align → name ∉ waitingAt (lines.take i)) :
      name ∉ m.waiting := by
    intro waits
    obtain ⟨isAlign, waited⟩ := Layout.waiting_enter_sub clause entered directive waits
    rw [Layout.waiting_eq_waitingAt laidOutBefore] at waited
    exact settles isAlign waited
  refine ⟨c, before, m, after, f, v, clause, laidOutBefore, entered, ?_, operand, value, uses,
    fun name mentioned settles => settled.value?_eq value mentioned (stands name settles),
    fun settle => settled.hasValue value fun name mentioned =>
      stands name fun isAlign => settle isAlign name mentioned⟩
  have length : (lines.take i).length = i := by
    rw [List.length_take, Nat.min_eq_left (Nat.le_of_lt (List.getElem?_eq_some_iff.mp here).1)]
  rw [List.take_add_one, here, Option.toList_some, Layout.ofScanned_concat_eq_ok_iff, length]
  exact ⟨before, laidOutBefore, added⟩

/-- A constant from two labels, one of which waits in front of it, then room of that size and an
alignment to that power. -/
def sizedRoom : String :=
  ".data\nfirst: .byte 1, 2\nbehind:\n.equ size, behind - first\n.space size\n" ++
    ".align size\n.byte size"

theorem assemble_early_values_sizedRoom :
    ∃ (p : Program) (l m after : Layout) (c : Clause) (f : Fragment) (v : Int),
      assemble sizedRoom = .ok p ∧ p.data = [0, 0, 0, 0, 1, 2, 0, 0, 2] ∧
      f.HasValue m.symbols v ∧ m.Uses after c v .align ∧ f.HasValue l.symbols v := by
  have found : (assemble sizedRoom).toOption.map Program.data =
      some [0, 0, 0, 0, 1, 2, 0, 0, 2] := by
    decide +kernel
  obtain ⟨p, assembled, bytes⟩ := Option.map_eq_some_iff.mp found
  rw [Except.toOption_eq_some_iff] at assembled
  obtain ⟨lines, l, scanned, -, -, values⟩ := assemble_early_values assembled
  have aligns : ((linesOf sizedRoom.toList).mapM SourceLine.scan).toOption.map
      (fun lines => (lines[5]?.bind SourceLine.directive?, waitingAt (lines.take 5))) =
      some (some .align, []) := by
    decide +kernel
  rw [scanned] at aligns
  simp only [Except.toOption, Option.map_some, Option.some.injEq, Prod.mk.injEq,
    Option.bind_eq_some_iff] at aligns
  obtain ⟨⟨src, here, directive⟩, none⟩ := aligns
  obtain ⟨c, before, m, after, f, v, -, -, -, -, -, value, uses, -, final⟩ :=
    values 5 src .align here directive rfl
  refine ⟨p, l, m, after, c, f, v, assembled, bytes, value, uses, final ?_⟩
  rw [none]
  exact fun _ _ _ => List.not_mem_nil

/-- A label that waits while an alignment reads it. -/
def staleAlignment : String :=
  ".data\n.byte 1\nx:\n.align x-0x30005+3\n.byte 9\n"

/-- The data is aligned to the power 3, as the label stands at the end of the data in front of it.
But the label is settled behind the padding, and there the power is 6. -/
theorem assemble_staleAlignment :
    ∃ p e, assemble staleAlignment = .ok p ∧ p.data.length = roundUp 5 (2 ^ 3) + 1 ∧
      p.symbols = [("x", 0x30008)] ∧
      Expression.parse ⟨8, ['x', '-', '0', 'x', '3', '0', '0', '0', '5', '+', '3']⟩ = .ok e ∧
      e.evaluate [("x", 0x30005)] = .ok 3 ∧ e.evaluate [("x", 0x30008)] = .ok 6 := by
  have found : (assemble staleAlignment).toOption.map (fun p => (p.data.length, p.symbols)) =
      some (roundUp 5 (2 ^ 3) + 1, [("x", 0x30008)]) := by
    decide +kernel
  have read : (Expression.parse
      ⟨8, ['x', '-', '0', 'x', '3', '0', '0', '0', '5', '+', '3']⟩).toOption.map (fun e =>
        ((e.evaluate [("x", 0x30005)]).toOption, (e.evaluate [("x", 0x30008)]).toOption)) =
      some (some 3, some 6) := by
    decide +kernel
  obtain ⟨p, assembled, parts⟩ := Option.map_eq_some_iff.mp found
  obtain ⟨e, parsed, values⟩ := Option.map_eq_some_iff.mp read
  rw [Except.toOption_eq_some_iff] at assembled parsed
  obtain ⟨length, symbols⟩ := Prod.mk.inj parts
  obtain ⟨early, late⟩ := Prod.mk.inj values
  exact ⟨p, e, assembled, length, symbols, parsed, Except.toOption_eq_some_iff.mp early,
    Except.toOption_eq_some_iff.mp late⟩

end RobotMachine
