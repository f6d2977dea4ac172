import RobotMachine.Proofs.CodeEmission
import RobotMachine.Proofs.ScannedLines

/-!
# Settled symbols

A label alone on a line of the data section waits for the data behind it. Which labels wait can be
read off the scanned lines. Every other symbol is settled: it keeps its value to the end of the
source, whatever stands behind it.

* `Layout.waiting_eq_waitingAt`: the waiting labels of a layout are those of its lines.
* `Layout.value?_addLine`: a line changes the value of no symbol but those that it settles.
* `Layout.settledIn_of_addScanned`: what is settled in front of a line has its value at the end.
-/

namespace RobotMachine

/-! ## Symbol tables -/

namespace SymbolTable

variable {table table' : SymbolTable} {name : String} {v : Int}

/-- Every symbol of the first table has its value in the second. -/
def Within (table table' : SymbolTable) : Prop :=
  ∀ name v, table.value? name = some v → table'.value? name = some v

theorem Within.refl (table : SymbolTable) : table.Within table :=
  fun _ _ known => known

theorem value?_of_free (free : table.isTaken name = false) : table.value? name = none := by
  simp only [isTaken, Bool.or_eq_false_iff, beq_eq_false_iff_ne, Option.isSome_eq_false_iff,
    Option.isNone_iff_eq_none] at free
  rw [value?, free.2]
  exact if_neg free.1

theorem value?_cons_self (table : SymbolTable) (name : String) (v : Int) :
    value? ((name, v) :: table) name = some v := by
  rw [value?, List.lookup_cons_self]

/-- A new symbol leaves the others alone. -/
theorem within_cons (free : table.isTaken name = false) (v : Int) :
    table.Within ((name, v) :: table) := by
  intro other w known
  have differs : (other == name) = false := by
    rw [beq_eq_false_iff_ne]
    rintro rfl
    rw [value?_of_free free] at known
    cases known
  rw [value?, List.lookup_cons, differs]
  exact known

theorem lookup_move (table : SymbolTable) (names : List String) (v : Int) (name : String) :
    (table.move names v).lookup name =
      (table.lookup name).map fun old => if name ∈ names then v else old := by
  induction table with
  | nil => rfl
  | cons entry table ih =>
    obtain ⟨key, old⟩ := entry
    rw [move, List.map_cons, List.lookup_cons, List.lookup_cons]
    by_cases same : name = key
    · subst same
      rw [beq_self_eq_true]
      rfl
    · rw [beq_eq_false_iff_ne.mpr same]
      exact ih

theorem value?_move_of_notMem {names : List String} (settled : name ∉ names) (v : Int) :
    (table.move names v).value? name = table.value? name := by
  rw [value?, value?, lookup_move]
  cases table.lookup name with
  | none => rfl
  | some old => exact congrArg some (if_neg settled)

/-- A symbol that has the new value already keeps it. -/
theorem value?_move_self {names : List String} (known : table.value? name = some v) :
    (table.move names v).value? name = some v := by
  by_cases moves : name ∈ names
  · rw [value?, lookup_move]
    rw [value?] at known
    cases entry : table.lookup name with
    | none =>
      rw [entry] at known
      exact known
    | some old => exact congrArg some (if_pos moves)
  · rw [value?_move_of_notMem moves, known]

theorem value?_move_of_mem {names : List String} {old : Int} (moves : name ∈ names)
    (known : table.value? name = some old) (notMailbox : name ≠ mailboxName) (v : Int) :
    (table.move names v).value? name = some v := by
  rw [value?, lookup_move]
  rw [value?] at known
  cases entry : table.lookup name with
  | none =>
    rw [entry] at known
    simp only [if_neg notMailbox] at known
    cases known
  | some old => exact congrArg some (if_pos moves)

theorem mem_of_lookup {table : SymbolTable} (found : table.lookup name = some v) :
    (name, v) ∈ table := by
  induction table with
  | nil => cases found
  | cons entry table ih =>
    rw [List.lookup_cons] at found
    split at found
    · next same =>
      cases eq_of_beq same
      cases found
      exact List.mem_cons_self
    · exact List.mem_cons_of_mem _ (ih found)

/-- What has a value is listed, unless it is the mailbox. -/
theorem mem_of_value? (known : table.value? name = some v) (notMailbox : name ≠ mailboxName) :
    (name, v) ∈ table := by
  rw [value?] at known
  split at known
  · next found =>
    cases known
    exact mem_of_lookup found
  · rw [if_neg notMailbox] at known
    cases known

/-- The mailbox has a value in every table. -/
theorem ne_mailboxName_of_value? (unknown : table.value? name = none) : name ≠ mailboxName := by
  rintro rfl
  rw [value?] at unknown
  split at unknown
  · cases unknown
  · rw [if_pos rfl] at unknown
    cases unknown

end SymbolTable

/-- An expression reads a table at its own symbols only. -/
theorem Expression.evaluate_congr {e : Expression} {table table' : SymbolTable}
    (same : ∀ name ∈ e.symbols.map (·.1), table.value? name = table'.value? name) :
    e.evaluate table = e.evaluate table' := by
  obtain ⟨column, terms⟩ := e
  have sum (total : Int) : sum table column total terms = sum table' column total terms := by
    induction terms generalizing total with
    | nil => rfl
    | cons t terms ih =>
      have head : t.evaluate table = t.evaluate table' := by
        obtain ⟨negative, place, value⟩ := t
        cases value with
        | number n => rfl
        | symbol name =>
          have known := same name (by simp [symbols])
          simp only [Term.evaluate, Term.magnitude, known]
      have tail := ih fun name member => same name (by
        simp only [symbols, List.filterMap_cons, List.mem_map] at member ⊢
        obtain ⟨entry, listed, rfl⟩ := member
        refine ⟨entry, ?_, rfl⟩
        split
        · exact listed
        · exact List.mem_cons_of_mem _ listed)
      simp only [Expression.sum, head, tail]
  exact sum 0

theorem Expression.exists_magnitude_of_sum {table : SymbolTable} {column : Nat} {total v : Int}
    {terms : List Term} (summed : sum table column total terms = .ok v) :
    ∀ t ∈ terms, ∃ w, t.magnitude table = .ok w := by
  induction terms generalizing total with
  | nil => nofun
  | cons t terms ih =>
    obtain ⟨w, head, summed⟩ := Except.bind_eq_ok_iff.mp summed
    obtain ⟨size, magnitude, -⟩ := Except.map_eq_ok_iff.mp head
    split at summed
    · exact List.forall_mem_cons.mpr ⟨⟨size, magnitude⟩, ih summed⟩
    · cases summed

/-- Every symbol of an expression that has a value is defined. -/
theorem Expression.isSome_of_evaluate {e : Expression} {table : SymbolTable} {v : Int}
    (evaluated : e.evaluate table = .ok v) :
    ∀ name ∈ e.symbols.map (·.1), ∃ w, table.value? name = some w := by
  intro name member
  simp only [symbols, List.mem_map, List.mem_filterMap] at member
  obtain ⟨⟨_, place⟩, ⟨t, listed, isSymbol⟩, rfl⟩ := member
  obtain ⟨w, magnitude⟩ := exists_magnitude_of_sum evaluated t listed
  split at isSymbol
  · next named =>
    cases isSymbol
    simp only [Term.magnitude, named] at magnitude
    split at magnitude
    · next known => exact ⟨_, known⟩
    · cases magnitude
  · cases isSymbol

/-! ## Waiting labels -/

namespace SourceLine

/-- Whether a line allocates data, be it none. -/
def allocates (src : SourceLine) : Bool :=
  src.directive?.any Directive.allocates

/-- The labels that wait behind a line: those that waited in front of it and its own if it is alone
on a line of the data section, and none behind a clause, unless it aligns the data. -/
def waitingAfter (active : Section) (waiting : List String) (src : SourceLine) : List String :=
  match src.clause with
  | none => if active = .data then (src.label.map Fragment.toString).toList ++ waiting else waiting
  | some _ => if active = .data ∧ src.directive? = some .align then waiting else []

end SourceLine

/-- The labels that wait behind some lines of a source. -/
def waitingAt (lines : List SourceLine) : List String :=
  (lines.foldl (fun (active, waiting) src =>
    (src.sectionAfter active, src.waitingAfter active waiting)) (Section.text, [])).2

theorem waitingAt_concat (lines : List SourceLine) (src : SourceLine) :
    waitingAt (lines ++ [src]) = src.waitingAfter (sectionAt lines) (waitingAt lines) := by
  have active : ∀ state : Section × List String,
      (lines.foldl (fun (active, waiting) src =>
        (SourceLine.sectionAfter active src, src.waitingAfter active waiting)) state).1 =
          lines.foldl SourceLine.sectionAfter state.1 := by
    induction lines with
    | nil => exact fun _ => rfl
    | cons src lines ih => exact fun state => ih _
  rw [waitingAt, waitingAt, sectionAt, List.foldl_append, List.foldl_cons, List.foldl_nil,
    ← active (Section.text, [])]

namespace Layout

variable {l l' m : Layout} {lines : List SourceLine} {src : SourceLine} {c : Clause} {line : Nat}

/-- The label of a line is new, and names the location. -/
theorem addLabel_eq_ok (added : l.addLabel src = .ok l') :
    ∃ symbols, l' = { l with
        symbols
        waiting := if src.clause = none then src.waitingAfter l.active l.waiting else l.waiting } ∧
      l.symbols.Within symbols ∧
      ∀ label, src.label = some label → l.symbols.value? label.toString = none ∧
        symbols.value? label.toString = some l.location := by
  simp only [addLabel] at added
  split at added
  · next labelled =>
    cases added
    refine ⟨l.symbols, ?_, .refl _, fun label here => ?_⟩
    · rw [SourceLine.waitingAfter, labelled]
      split
      · next alone => simp [alone]
      · rfl
    · rw [labelled] at here
      cases here
  · next label labelled =>
    obtain ⟨defined, isDefined, added⟩ := Except.bind_eq_ok_iff.mp added
    obtain ⟨free, rfl⟩ := define_eq_ok isDefined
    refine ⟨(label.toString, l.location) :: l.symbols, ?_, SymbolTable.within_cons free _, ?_⟩
    · rw [SourceLine.waitingAfter, labelled]
      cases clause : src.clause with
      | none =>
        rw [clause] at added
        split at added
        · next inData =>
          cases added
          simp [inData.1]
        · next inText =>
          cases added
          simp only [Option.isNone_none, and_true] at inText
          simp [inText]
      | some c =>
        rw [clause] at added
        simp only [Option.isNone_some, Bool.false_eq_true, and_false, if_false] at added
        cases added
        simp
    · intro other here
      cases labelled.symm.trans here
      exact ⟨SymbolTable.value?_of_free free, SymbolTable.value?_cons_self _ _ _⟩

theorem addDirective_symbols {d : Directive} (added : m.addDirective line d c = .ok l') :
    m.symbols.Within l'.symbols ∧ l'.waiting = m.waiting := by
  rcases addDirective_eq_ok added with ⟨-, rfl⟩ | ⟨-, rfl⟩ | ⟨-, rfl | data | ⟨f, g, constant⟩⟩
  · exact ⟨.refl _, rfl⟩
  · exact ⟨.refl _, rfl⟩
  · exact ⟨.refl _, rfl⟩
  · have same := sameCode_addDataDirective data
    rw [same.symbols_eq]
    exact ⟨.refl _, same.waiting_eq⟩
  · obtain ⟨e, v, -, -, -, defined⟩ := addConstant_eq_ok constant
    obtain ⟨free, rfl⟩ := define_eq_ok defined
    exact ⟨SymbolTable.within_cons free v, rfl⟩

theorem addInstruction_symbols (added : m.addInstruction line c = .ok l') :
    l'.symbols = m.symbols ∧ l'.waiting = m.waiting := by
  obtain ⟨s, overflow, -, -, rfl⟩ := addInstruction_eq_ok added
  exact ⟨rfl, rfl⟩

theorem alignForWords_eq (l : Layout) (directive : Option Directive) :
    ∃ dataLength, l.alignForWords directive = { l with dataLength } := by
  unfold alignForWords
  split
  · exact ⟨_, rfl⟩
  · exact ⟨l.dataLength, rfl⟩

/-- What a clause finds when it is added: the data aligned for words, the label of its line, and
the labels settled that waited, unless it aligns the data. -/
theorem enter_eq_ok (clause : src.clause = some c) (entered : l.enter src = .ok m) :
    ∃ symbols, m = settleWaiting { l.alignForWords src.directive? with symbols } src.directive? ∧
      l.symbols.Within symbols ∧
      ∀ label, src.label = some label → l.symbols.value? label.toString = none ∧
        symbols.value? label.toString = some (l.alignForWords src.directive?).location := by
  obtain ⟨labelled, labelAdded, settled⟩ := Except.bind_eq_ok_iff.mp entered
  cases settled
  obtain ⟨dataLength, aligned⟩ := l.alignForWords_eq src.directive?
  obtain ⟨symbols, rfl, within, labels⟩ := addLabel_eq_ok labelAdded
  refine ⟨symbols, ?_, ?_, fun label here => ?_⟩
  · rw [clause]
    rfl
  · rw [aligned] at within
    exact within
  · obtain ⟨fresh, known⟩ := labels label here
    rw [aligned] at fresh
    exact ⟨fresh, known⟩

theorem active_enter (clause : src.clause = some c) (entered : l.enter src = .ok m) :
    m.active = l.active := by
  obtain ⟨symbols, rfl, -⟩ := enter_eq_ok clause entered
  obtain ⟨symbols', waiting, settled⟩ :=
    settleWaiting_eq { l.alignForWords src.directive? with symbols } src.directive?
  obtain ⟨dataLength, aligned⟩ := l.alignForWords_eq src.directive?
  rw [settled, aligned]

theorem waiting_enter (clause : src.clause = some c) (entered : l.enter src = .ok m) :
    m.waiting = src.waitingAfter l.active l.waiting := by
  obtain ⟨symbols, rfl, -⟩ := enter_eq_ok clause entered
  obtain ⟨dataLength, aligned⟩ := l.alignForWords_eq src.directive?
  rw [SourceLine.waitingAfter, clause, settleWaiting, aligned]
  dsimp only
  split
  · rfl
  · split <;> rfl

/-- A symbol keeps its value unless it waits and the line allocates. -/
theorem value?_enter {name : String} {v : Int} (clause : src.clause = some c)
    (entered : l.enter src = .ok m) (known : l.symbols.value? name = some v)
    (stays : name ∉ l.waiting ∨ src.allocates = false) : m.symbols.value? name = some v := by
  obtain ⟨symbols, rfl, within, -⟩ := enter_eq_ok clause entered
  obtain ⟨dataLength, aligned⟩ := l.alignForWords_eq src.directive?
  have still := within name v known
  rw [settleWaiting, aligned]
  dsimp only
  split
  · exact still
  · split
    · next allocates =>
      rcases stays with settled | none
      · rw [SymbolTable.value?_move_of_notMem settled]
        exact still
      · rw [SourceLine.allocates] at none
        rw [none] at allocates
        cases allocates.2
    · exact still

/-- Every label that waits is defined. -/
def DefinesWaiting (l : Layout) : Prop :=
  ∀ name ∈ l.waiting, name ≠ SymbolTable.mailboxName ∧ ∃ v, l.symbols.value? name = some v

/-- What allocates gives its place to the labels that wait and to its own, and no label waits any
longer. -/
theorem value?_enter_of_allocates {name : String} (clause : src.clause = some c)
    (entered : l.enter src = .ok m) (inData : l.active = .data) (allocates : src.allocates = true)
    (defined : l.DefinesWaiting)
    (names : name ∈ l.waiting ∨ ∃ label, src.label = some label ∧ label.toString = name) :
    m.symbols.value? name = some (dataBase.toNat + m.dataLength : Int) ∧ m.waiting = [] := by
  obtain ⟨symbols, rfl, within, labels⟩ := enter_eq_ok clause entered
  obtain ⟨dataLength, aligned⟩ := l.alignForWords_eq src.directive?
  rw [aligned] at labels ⊢
  have notAlign : src.directive? ≠ some .align := by
    intro isAlign
    rw [SourceLine.allocates, isAlign] at allocates
    cases allocates
  rw [settleWaiting, if_neg (fun both => notAlign both.2), if_pos ⟨inData, allocates⟩]
  dsimp only
  rw [location, inData]
  refine ⟨?_, rfl⟩
  rcases names with waits | ⟨label, here, rfl⟩
  · obtain ⟨notMailbox, old, known⟩ := defined name waits
    exact SymbolTable.value?_move_of_mem waits (within name old known) notMailbox _
  · have known := (labels label here).2
    rw [location, inData] at known
    exact SymbolTable.value?_move_self known

/-! ## Lines -/

/-- The labels that wait behind a line are those that the lines so far say. -/
theorem waiting_addLine (added : l.addLine line src = .ok l') :
    l'.waiting = src.waitingAfter l.active l.waiting := by
  rcases addLine_cases added with ⟨clause, labelAdded⟩ | ⟨c, m, clause, entered, added⟩
  · obtain ⟨symbols, rfl, -⟩ := addLabel_eq_ok labelAdded
    obtain ⟨dataLength, aligned⟩ := l.alignForWords_eq src.directive?
    rw [if_pos clause, aligned]
  · have waiting := waiting_enter clause entered
    rcases added with ⟨d, -, added⟩ | ⟨-, added⟩
    · rw [(addDirective_symbols added).2, waiting]
    · rw [(addInstruction_symbols added).2, waiting]

theorem waiting_eq_waitingAt (laidOut : ofScanned lines = .ok l) : l.waiting = waitingAt lines := by
  refine ofScanned_induction (motive := fun lines l => l.waiting = waitingAt lines) rfl
    (fun lines src before after laidOutBefore waiting added => ?_) laidOut
  rw [waiting_addLine added, waitingAt_concat, waiting,
    (follows_of_ofScanned laidOutBefore).active_eq]

/-- A line changes the value of no symbol, unless it allocates and the symbol waits. -/
theorem value?_addLine {name : String} {v : Int} (added : l.addLine line src = .ok l')
    (known : l.symbols.value? name = some v)
    (stays : name ∉ l.waiting ∨ src.allocates = false) : l'.symbols.value? name = some v := by
  rcases addLine_cases added with ⟨-, labelAdded⟩ | ⟨c, m, clause, entered, added⟩
  · obtain ⟨symbols, rfl, within, -⟩ := addLabel_eq_ok labelAdded
    obtain ⟨dataLength, aligned⟩ := l.alignForWords_eq src.directive?
    rw [aligned] at within
    exact within name v known
  · have still := value?_enter clause entered known stays
    rcases added with ⟨d, -, added⟩ | ⟨-, added⟩
    · exact (addDirective_symbols added).1 name v still
    · rw [(addInstruction_symbols added).1]
      exact still

theorem definesWaiting_of_ofScanned (laidOut : ofScanned lines = .ok l) : l.DefinesWaiting := by
  refine ofScanned_induction (motive := fun _ l => l.DefinesWaiting) nofun
    (fun lines src before after _ defined added name waits => ?_) laidOut
  have still (waited : name ∈ before.waiting) (none : src.allocates = false) :
      name ≠ SymbolTable.mailboxName ∧ ∃ v, after.symbols.value? name = some v := by
    obtain ⟨notMailbox, v, known⟩ := defined name waited
    exact ⟨notMailbox, v, value?_addLine added known (.inr none)⟩
  rw [waiting_addLine added, SourceLine.waitingAfter] at waits
  split at waits
  · next clause =>
    have none : src.allocates = false := by
      rw [SourceLine.allocates, SourceLine.directive?, clause]
      rfl
    split at waits
    · rcases List.mem_append.mp waits with new | waited
      · simp only [Option.mem_toList, Option.map_eq_some_iff] at new
        obtain ⟨label, here, rfl⟩ := new
        rcases addLine_cases added with ⟨-, labelAdded⟩ | ⟨c, m, clause', -⟩
        · obtain ⟨symbols, rfl, -, labels⟩ := addLabel_eq_ok labelAdded
          obtain ⟨fresh, known⟩ := labels label here
          exact ⟨SymbolTable.ne_mailboxName_of_value? fresh, _, known⟩
        · rw [clause] at clause'
          cases clause'
      · exact still waited none
    · exact still waits none
  · split at waits
    · next isAlign =>
      refine still waits ?_
      rw [SourceLine.allocates, isAlign.2]
      rfl
    · cases waits

/-- A symbol that is defined does not begin to wait. -/
theorem notMem_waiting_addLine {name : String} {v : Int} (added : l.addLine line src = .ok l')
    (known : l.symbols.value? name = some v) (settled : name ∉ l.waiting) :
    name ∉ l'.waiting := by
  rcases addLine_cases added with ⟨clause, labelAdded⟩ | ⟨c, m, clause, -⟩
  · obtain ⟨symbols, rfl, -, labels⟩ := addLabel_eq_ok labelAdded
    obtain ⟨dataLength, aligned⟩ := l.alignForWords_eq src.directive?
    rw [aligned] at labels ⊢
    dsimp only at labels ⊢
    rw [if_pos clause, SourceLine.waitingAfter, clause]
    dsimp only
    split
    · intro member
      rcases List.mem_append.mp member with new | waits
      · simp only [Option.mem_toList, Option.map_eq_some_iff] at new
        obtain ⟨label, here, rfl⟩ := new
        rw [(labels label here).1] at known
        cases known
      · exact settled waits
    · exact settled
  · rw [waiting_addLine added, SourceLine.waitingAfter, clause]
    dsimp only
    split
    · exact settled
    · exact List.not_mem_nil

/-! ## From a line to the end -/

/-- Every symbol that does not wait has its value in the table. -/
def SettledIn (l : Layout) (table : SymbolTable) : Prop :=
  ∀ name v, name ∉ l.waiting → l.symbols.value? name = some v → table.value? name = some v

theorem SettledIn.of_addLine {table : SymbolTable} (settled : l'.SettledIn table)
    (added : l.addLine line src = .ok l') : l.SettledIn table := by
  intro name v stands known
  exact settled name v (notMem_waiting_addLine added known stands)
    (value?_addLine added known (.inl stands))

/-- What is settled somewhere in a source has its value at the end of the source. -/
theorem settledIn_of_addScanned {srcs : List SourceLine}
    (added : l.addScanned line srcs = .ok l') : l.SettledIn l'.symbols := by
  induction srcs generalizing l line with
  | nil =>
    cases added
    exact fun _ _ _ known => known
  | cons src srcs ih =>
    obtain ⟨next, lineAdded, added⟩ := Except.bind_eq_ok_iff.mp added
    exact (ih added).of_addLine lineAdded

/-- An expression none of whose symbols waits has its value at the end of the source. -/
theorem SettledIn.evaluate_eq {table : SymbolTable} {e : Expression} {v : Int}
    (settled : l.SettledIn table) (evaluated : e.evaluate l.symbols = .ok v)
    (stand : ∀ name ∈ e.symbols.map (·.1), name ∉ l.waiting) : e.evaluate table = .ok v := by
  rw [← evaluated]
  refine (Expression.evaluate_congr fun name member => ?_).symm
  obtain ⟨w, known⟩ := Expression.isSome_of_evaluate evaluated name member
  rw [known, settled name w (stand name member) known]

/-- What is settled when a directive is added has its value at the end of the source, if it has it
in the layout behind the directive. -/
theorem SettledIn.of_addDirective {table : SymbolTable} {d : Directive}
    (settled : l'.SettledIn table) (added : m.addDirective line d c = .ok l') :
    m.SettledIn table := by
  obtain ⟨within, waiting⟩ := addDirective_symbols added
  intro name v stands known
  rw [← waiting] at stands
  exact settled name v stands (within name v known)

/-- The symbols that a line with a directive finds settled have their values at the end. -/
theorem settledIn_of_enter {i : Nat} {before : Layout} (laidOut : ofScanned lines = .ok l)
    (here : lines[i]? = some src) (laidOutBefore : ofScanned (lines.take i) = .ok before)
    (clause : src.clause = some c) (entered : before.enter src = .ok m) :
    m.SettledIn l.symbols := by
  obtain ⟨before', after, laidOutBefore', added, addedRest⟩ := ofScanned_split laidOut here
  cases laidOutBefore.symm.trans laidOutBefore'
  have settled := settledIn_of_addScanned addedRest
  rcases addLine_cases added with ⟨none, -⟩ | ⟨c', m', clause', entered', added⟩
  · rw [clause] at none
    cases none
  · cases clause.symm.trans clause'
    cases entered.symm.trans entered'
    rcases added with ⟨d, -, added⟩ | ⟨-, added⟩
    · exact settled.of_addDirective added
    · obtain ⟨symbols, waiting⟩ := addInstruction_symbols added
      rw [SettledIn, symbols, waiting] at settled
      exact settled

/-- The labels in front of what a line allocates have its place at the end of the source. -/
theorem value?_of_allocates {i : Nat} {before : Layout} {name : String}
    (laidOut : ofScanned lines = .ok l) (here : lines[i]? = some src)
    (laidOutBefore : ofScanned (lines.take i) = .ok before) (clause : src.clause = some c)
    (entered : before.enter src = .ok m) (inData : before.active = .data)
    (allocates : src.allocates = true)
    (names : name ∈ before.waiting ∨ ∃ label, src.label = some label ∧ label.toString = name) :
    l.symbols.value? name = some (dataBase.toNat + m.dataLength : Int) := by
  obtain ⟨known, none⟩ := value?_enter_of_allocates clause entered inData allocates
    (definesWaiting_of_ofScanned laidOutBefore) names
  refine settledIn_of_enter laidOut here laidOutBefore clause entered name _ ?_ known
  rw [none]
  exact List.not_mem_nil

/-- A label that stands on a line is not the mailbox. -/
theorem label_ne_mailboxName {label : Fragment} (added : l.addLine line src = .ok l')
    (here : src.label = some label) : label.toString ≠ SymbolTable.mailboxName := by
  have fresh : l.symbols.value? label.toString = none := by
    rcases addLine_cases added with ⟨-, labelAdded⟩ | ⟨c, m, clause, entered, -⟩
    · obtain ⟨symbols, -, -, labels⟩ := addLabel_eq_ok labelAdded
      obtain ⟨dataLength, aligned⟩ := l.alignForWords_eq src.directive?
      have fresh := (labels label here).1
      rw [aligned] at fresh
      exact fresh
    · obtain ⟨symbols, -, -, labels⟩ := enter_eq_ok clause entered
      exact (labels label here).1
  exact SymbolTable.ne_mailboxName_of_value? fresh

/-- A program publishes the value of a label that stands on one of its lines. -/
theorem symbol?_program_of_label {i n : Nat} {label : Fragment} (laidOut : ofScanned lines = .ok l)
    (here : lines[i]? = some src) (labelled : src.label = some label)
    (known : l.symbols.value? label.toString = some (n : Int)) (small : n < UInt32.size)
    (emissions : List Emission) :
    ((l.program emissions).symbol? label.toString).map UInt32.toNat = some n := by
  obtain ⟨before, after, -, added, -⟩ := ofScanned_split laidOut here
  have member := SymbolTable.mem_of_value? known (label_ne_mailboxName added labelled)
  have nodup := (follows_of_ofScanned laidOut).labels.nodup
  rw [symbol?_program nodup member, Option.map_some, toNat_ofInt_of_lt small]

end Layout

end RobotMachine
