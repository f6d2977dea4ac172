import RobotMachine.Proofs.DataStretches

/-!
# What the lines of a source add

Every line that passes the first look defines its names, adds at most one statement, and moves the
end of the data if its directive asks for that. So the symbols, the statements and the end of the
data can be read off the scanned lines.

* `definedNames`, `Layout.isSome_value?_iff`: the names that a source defines, and the symbols that
  have a value.
* `SourceLine.Adds`: the statement of a line, and where the data ends behind it.
* `LaysOut.unique`: the lines determine their statements and the end of the data.
* `Layout.laysOut_of_ofScanned`: a layout lists what its lines add.
-/

namespace RobotMachine

/-! ## Names -/

/-- The constant that a line defines. -/
def SourceLine.constant? (src : SourceLine) : Option Fragment :=
  if src.directive? = some .equ ∨ src.directive? = some .set then
    src.clause.bind fun c => c.operands.head?
  else
    none

/-- The names that a line defines: its label and its constant. -/
def SourceLine.definedNames (src : SourceLine) : List String :=
  (src.label.toList ++ src.constant?.toList).map Fragment.toString

/-- The names that the lines of a source define. -/
def definedNames (lines : List SourceLine) : List String :=
  lines.flatMap SourceLine.definedNames

/-- The names in a symbol table. -/
def SymbolTable.names (table : SymbolTable) : List String :=
  table.map (·.1)

theorem SymbolTable.isSome_lookup_iff {table : SymbolTable} {name : String} :
    (table.lookup name).isSome ↔ name ∈ table.names := by
  simp [List.lookup_isSome_iff, names]

theorem SymbolTable.isSome_value?_iff {table : SymbolTable} {name : String} :
    (table.value? name).isSome ↔ name ∈ table.names ∨ name = mailboxName := by
  rw [← isSome_lookup_iff, value?]
  cases table.lookup name with
  | some v => simp
  | none =>
    dsimp only
    split
    · next isMailbox => simp [isMailbox]
    · next other => simp [other]

namespace Layout

variable {l l' m : Layout} {lines : List SourceLine} {src : SourceLine} {c : Clause} {line : Nat}
  {d : Directive}

theorem names_addLabel (added : l.addLabel src = .ok l') :
    l'.symbols.names = (src.label.map Fragment.toString).toList ++ l.symbols.names := by
  simp only [addLabel] at added
  split at added
  · next labelled =>
    cases added
    rw [labelled]
    rfl
  · next label labelled =>
    obtain ⟨defined, isDefined, added⟩ := Except.bind_eq_ok_iff.mp added
    obtain ⟨-, rfl⟩ := define_eq_ok isDefined
    rw [labelled]
    split at added
    · cases added
      rfl
    · cases added
      rfl

theorem names_settleWaiting (l : Layout) (directive : Option Directive) :
    (l.settleWaiting directive).symbols.names = l.symbols.names := by
  unfold settleWaiting
  split
  · rfl
  · split
    · exact SymbolTable.keys_move _ _ _
    · rfl

theorem names_enter (entered : l.enter src = .ok m) :
    m.symbols.names = (src.label.map Fragment.toString).toList ++ l.symbols.names := by
  obtain ⟨labelled, labelAdded, settled⟩ := Except.bind_eq_ok_iff.mp entered
  cases settled
  obtain ⟨dataLength, aligned⟩ := l.alignForWords_eq src.directive?
  rw [names_settleWaiting, names_addLabel labelAdded, aligned]

theorem names_addDirective (directive : src.directive? = some d) (clause : src.clause = some c)
    (added : m.addDirective line d c = .ok l') :
    l'.symbols.names = (src.constant?.map Fragment.toString).toList ++ m.symbols.names := by
  cases d with
  | text | data =>
    simp only [addDirective] at added
    split at added
    · cases added
      simp [SourceLine.constant?, directive]
    · cases added
  | global | globl =>
    simp only [addDirective] at added
    split at added
    · cases added
    · obtain ⟨-, -, rfl⟩ := Except.map_eq_ok_iff.mp added
      simp [SourceLine.constant?, directive]
  | equ | set =>
    simp only [addDirective] at added
    split at added
    · next symbol value operands =>
      obtain ⟨e, v, -, -, -, defined⟩ := addConstant_eq_ok added
      obtain ⟨-, rfl⟩ := define_eq_ok defined
      simp [SourceLine.constant?, directive, clause, operands, SymbolTable.names]
    · cases added
  | word | byte | space | skip | ascii | asciz | string | align =>
    have same := sameCode_addDataDirective added
    simp [SourceLine.constant?, directive, same.symbols_eq]

/-- A line adds the names that it defines to the symbols. -/
theorem names_addLine (added : l.addLine line src = .ok l') :
    l'.symbols.names = src.definedNames.reverse ++ l.symbols.names := by
  have names : src.definedNames.reverse =
      (src.constant?.map Fragment.toString).toList ++ (src.label.map Fragment.toString).toList := by
    rw [SourceLine.definedNames]
    cases src.label <;> cases src.constant? <;> rfl
  rw [names, List.append_assoc]
  rcases addLine_cases added with ⟨clause, labelAdded⟩ | ⟨c, m, clause, entered, added⟩
  · have none : src.constant? = none := by simp [SourceLine.constant?, clause]
    obtain ⟨dataLength, aligned⟩ := l.alignForWords_eq src.directive?
    rw [names_addLabel labelAdded, aligned, none]
    rfl
  rw [← names_enter entered]
  rcases added with ⟨d, directive, added⟩ | ⟨directive, added⟩
  · exact names_addDirective directive clause added
  · have none : src.constant? = none := by simp [SourceLine.constant?, directive]
    rw [(addInstruction_symbols added).1, none]
    rfl

/-- The symbols of a layout are the names that its lines define, the newest first. -/
theorem names_of_ofScanned (laidOut : ofScanned lines = .ok l) :
    l.symbols.names = (definedNames lines).reverse := by
  refine ofScanned_induction (motive := fun lines l => l.symbols.names = (definedNames lines).reverse)
    rfl (fun lines src l l' _ names added => ?_) laidOut
  rw [names_addLine added, names, definedNames, definedNames, List.flatMap_append,
    List.reverse_append, List.flatMap_singleton]

/-- A symbol has a value at the end of a source if the source defines it, or if it is the
mailbox. -/
theorem isSome_value?_iff (laidOut : ofScanned lines = .ok l) {name : String} :
    (l.symbols.value? name).isSome ↔
      name ∈ definedNames lines ∨ name = SymbolTable.mailboxName := by
  rw [SymbolTable.isSome_value?_iff, names_of_ofScanned laidOut, List.mem_reverse]

end Layout

/-! ## Statements -/

theorem SourceLine.instruction?_eq_none {src : SourceLine} {d : Directive}
    (directive : src.directive? = some d) : src.instruction? = none := by
  rw [directive?, Option.bind_eq_some_iff] at directive
  obtain ⟨c, clause, named⟩ := directive
  rw [instruction?, clause, Option.filter_some, Directive.head?_of_ofName? named]
  rfl

theorem SourceLine.instruction?_eq_some {src : SourceLine} {c : Clause}
    (clause : src.clause = some c) (named : c.head.text.head? ≠ some '.') :
    src.instruction? = some c := by
  rw [instruction?, clause, Option.filter_some, decide_eq_true named]
  rfl

theorem Clause.Reserves.start_le {c : Clause} {early : SymbolTable} {start stop : Nat}
    {d : Directive} {body : Option StatementBody} (reserves : c.Reserves early start d body stop) :
    start ≤ stop := by
  cases reserves with
  | word _ | byte _ | strings _ _ | room _ _ _ _ => exact Nat.le_add_right _ _
  | align _ _ _ => exact Layout.le_roundUp _ (Nat.two_pow_pos _)

/-- The statement that a line adds, if it adds one, and where the data ends behind the line if it
ended at `start` in front of it. Room is reserved under the symbols that are known at the line. -/
inductive SourceLine.Adds (src : SourceLine) (number : Nat) (early : SymbolTable) (start : Nat) :
    Option Statement → (stop : Nat) → Prop
  | instruction {c : Clause} {s : Statement} :
    src.instruction? = some c → c.Places number s → Adds src number early start (some s) start
  | data {c : Clause} {d : Directive} {body : Option StatementBody} {stop : Nat} :
    src.clause = some c → src.directive? = some d → d.placesData = true →
      c.Reserves early (if d = .word then roundUp start wordSize else start) d body stop →
      Adds src number early start (body.map (Statement.mk number c.head.column)) stop
  | nothing :
    src.instruction? = none → src.placesData = false → Adds src number early start none start

/-- The statements that the lines of a source add, in their order, and where the data ends. -/
inductive LaysOut : List SourceLine → List Statement → Nat → Prop
  | nil : LaysOut [] [] wordSize
  | concat {lines : List SourceLine} {src : SourceLine} {statements : List Statement}
      {added : Option Statement} {start stop : Nat} {before m : Layout} :
    LaysOut lines statements start → Layout.ofScanned lines = .ok before →
      before.enter src = .ok m → src.Adds (lines.length + 1) m.symbols start added stop →
      LaysOut (lines ++ [src]) (statements ++ added.toList) stop

/-! ### The lines determine what they add -/

theorem Clause.Places.unique {c : Clause} {number : Nat} {s s' : Statement}
    (placed : c.Places number s) (placed' : c.Places number s') : s = s' := by
  obtain ⟨opcode, operands, parsed, form, rfl⟩ := placed
  obtain ⟨opcode', operands', parsed', form', rfl⟩ := placed'
  obtain rfl := Except.ok.inj (parsed.symm.trans parsed')
  rw [form'.2 opcode form.1.1 form.1.2]

theorem Fragment.HasValue.unique {f : Fragment} {table : SymbolTable} {v v' : Int}
    (value : f.HasValue table v) (value' : f.HasValue table v') : v = v' := by
  obtain ⟨e, parsed, evaluated⟩ := value
  obtain ⟨e', parsed', evaluated'⟩ := value'
  obtain rfl := Except.ok.inj (parsed.symm.trans parsed')
  exact Except.ok.inj (evaluated.symm.trans evaluated')

theorem Clause.Reserves.unique {c : Clause} {early : SymbolTable} {start stop stop' : Nat}
    {d : Directive} {body body' : Option StatementBody}
    (reserves : c.Reserves early start d body stop)
    (reserves' : c.Reserves early start d body' stop') : body = body' ∧ stop = stop' := by
  cases reserves with
  | word parsed =>
    cases reserves' with
    | word parsed' =>
      obtain rfl := Except.ok.inj (parsed.symm.trans parsed')
      exact ⟨rfl, rfl⟩
    | strings kind _ => simp at kind
    | room kind _ _ _ => simp at kind
  | byte parsed =>
    cases reserves' with
    | byte parsed' =>
      obtain rfl := Except.ok.inj (parsed.symm.trans parsed')
      exact ⟨rfl, rfl⟩
    | strings kind _ => simp at kind
    | room kind _ _ _ => simp at kind
  | strings kind read =>
    cases reserves' with
    | word _ | byte _ | align _ _ _ => simp at kind
    | strings _ read' =>
      obtain rfl := Except.ok.inj (read.symm.trans read')
      exact ⟨rfl, rfl⟩
    | room kind' _ _ _ => rcases kind' with rfl | rfl <;> simp at kind
  | room kind operands value _ =>
    cases reserves' with
    | word _ | byte _ | align _ _ _ => simp at kind
    | strings kind' _ => rcases kind with rfl | rfl <;> simp at kind'
    | room _ operands' value' _ =>
      obtain rfl := List.singleton_inj.mp (operands.symm.trans operands')
      rw [value.unique value']
      exact ⟨rfl, rfl⟩
  | align operands value _ =>
    cases reserves' with
    | strings kind _ => simp at kind
    | room kind _ _ _ => simp at kind
    | align operands' value' _ =>
      obtain rfl := List.singleton_inj.mp (operands.symm.trans operands')
      rw [value.unique value']
      exact ⟨rfl, rfl⟩

theorem SourceLine.Adds.unique {src : SourceLine} {number start stop stop' : Nat}
    {early : SymbolTable} {s s' : Option Statement} (adds : src.Adds number early start s stop)
    (adds' : src.Adds number early start s' stop') : s = s' ∧ stop = stop' := by
  have exclusive (c : Clause) (d : Directive) (instruction : src.instruction? = some c)
      (directive : src.directive? = some d) : False := by
    rw [SourceLine.instruction?_eq_none directive] at instruction
    cases instruction
  have places (d : Directive) (directive : src.directive? = some d) :
      src.placesData = d.placesData := by
    rw [SourceLine.placesData, directive]
    rfl
  cases adds with
  | instruction instruction placed =>
    cases adds' with
    | instruction instruction' placed' =>
      obtain rfl := Option.some.inj (instruction.symm.trans instruction')
      exact ⟨congrArg some (placed.unique placed'), rfl⟩
    | data _ directive _ _ => exact (exclusive _ _ instruction directive).elim
    | nothing none _ =>
      rw [none] at instruction
      cases instruction
  | data clause directive placesData reserves =>
    cases adds' with
    | instruction instruction _ => exact (exclusive _ _ instruction directive).elim
    | data clause' directive' _ reserves' =>
      obtain rfl := Option.some.inj (clause.symm.trans clause')
      obtain rfl := Option.some.inj (directive.symm.trans directive')
      obtain ⟨rfl, rfl⟩ := reserves.unique reserves'
      exact ⟨rfl, rfl⟩
    | nothing _ none =>
      rw [places _ directive, placesData] at none
      cases none
  | nothing none noData =>
    cases adds' with
    | instruction instruction _ =>
      rw [none] at instruction
      cases instruction
    | data _ directive placesData _ =>
      rw [places _ directive, placesData] at noData
      cases noData
    | nothing _ _ => exact ⟨rfl, rfl⟩

/-- The lines of a source determine its statements and where its data ends. -/
theorem LaysOut.unique {lines : List SourceLine} {statements statements' : List Statement}
    {stop stop' : Nat} (laysOut : LaysOut lines statements stop)
    (laysOut' : LaysOut lines statements' stop') : statements = statements' ∧ stop = stop' := by
  induction laysOut generalizing statements' stop' with
  | nil =>
    generalize isNil : ([] : List SourceLine) = lines at laysOut'
    cases laysOut' with
    | nil => exact ⟨rfl, rfl⟩
    | concat => simp at isNil
  | @concat lines src statements added start stop before m _ laidOut entered adds ih =>
    generalize isConcat : lines ++ [src] = all at laysOut'
    cases laysOut' with
    | nil => simp at isConcat
    | concat laysOut' laidOut' entered' adds' =>
      obtain ⟨rfl, same⟩ := List.append_inj' isConcat rfl
      obtain rfl := List.singleton_inj.mp same
      obtain ⟨rfl, rfl⟩ := ih laysOut'
      obtain rfl := Except.ok.inj (laidOut.symm.trans laidOut')
      obtain rfl := Except.ok.inj (entered.symm.trans entered')
      obtain ⟨rfl, rfl⟩ := adds.unique adds'
      exact ⟨rfl, rfl⟩

namespace Layout

variable {l l' m : Layout} {lines : List SourceLine} {src : SourceLine} {line : Nat}

/-- A line adds its statement and moves the end of the data, as its clause asks. -/
theorem addLine_adds (added : l.addLine line src = .ok l') :
    ∃ m s, l.enter src = .ok m ∧ src.Adds line m.symbols l.dataLength s l'.dataLength ∧
      l'.statements = s.toList ++ l.statements := by
  cases places : src.placesData with
  | true =>
    obtain ⟨d, directive, placesData⟩ := (Option.any_eq_true _ _).mp places
    obtain ⟨c, m, body, stop, clause, entered, -, -, start, reserves, length, statements⟩ :=
      addLine_reserves directive placesData added
    rw [start, ← length] at reserves
    exact ⟨m, _, entered, .data clause directive placesData reserves, statements⟩
  | false =>
    obtain ⟨length, -⟩ := addLine_of_not_placesData places added
    obtain ⟨labelled, labelAdded, added⟩ := addLine_eq_ok added
    have entered : l.enter src = .ok (labelled.settleWaiting src.directive?) := by
      rw [enter, labelAdded]
      rfl
    rw [length]
    rcases added with ⟨clause, rfl⟩ | ⟨c, clause, ⟨d, named, added⟩ | ⟨named, added⟩⟩
    · have none : src.instruction? = none := by
        rw [SourceLine.instruction?, clause]
        rfl
      refine ⟨_, .none, entered, .nothing none places, ?_⟩
      obtain ⟨dataLength, aligned⟩ := l.alignForWords_eq src.directive?
      obtain ⟨symbols, rfl, -⟩ := addLabel_eq_ok labelAdded
      rw [aligned]
      rfl
    · have directive : src.directive? = some d := by
        rw [SourceLine.directive?, clause]
        exact named
      have none := SourceLine.instruction?_eq_none directive
      rw [SourceLine.placesData, directive, Option.any_some] at places
      rw [directive] at entered
      have statements := statements_enter clause entered
      obtain ⟨active, symbols, rfl⟩ := addDirective_of_not_placesData places added
      refine ⟨_, .none, entered, .nothing none ?_, statements⟩
      rwa [SourceLine.placesData, directive]
    · have instruction := SourceLine.instruction?_eq_some clause named
      have directive : src.directive? = none := by
        rw [SourceLine.directive?, clause]
        exact Directive.ofName?_eq_none named
      rw [directive] at entered
      obtain ⟨s, overflow, placed, -, rfl⟩ := addInstruction_eq_ok added
      refine ⟨_, some s, entered, .instruction instruction placed, ?_⟩
      exact congrArg _ (statements_enter clause entered)

/-- A layout lists the statements that its lines add, the newest first. -/
theorem laysOut_of_ofScanned (laidOut : ofScanned lines = .ok l) :
    LaysOut lines l.statements.reverse l.dataLength := by
  refine ofScanned_induction
    (motive := fun lines l => LaysOut lines l.statements.reverse l.dataLength) .nil
    (fun lines src l l' laidOut adds added => ?_) laidOut
  obtain ⟨m, s, entered, here, statements⟩ := addLine_adds added
  have all := adds.concat laidOut entered here
  rw [statements, List.reverse_append]
  cases s with
  | none => exact all
  | some s => exact all

end Layout

end RobotMachine
