import RobotMachine.Proofs.FittingValues
import RobotMachine.Proofs.LineStatements

/-!
# Which error is reported

If every line of a source passes the first look, three things can still be wrong with it: a symbol
that no line defines, a section that does not fit its region, and a value that does not fit. They
are noticed at different times, and are reported in this order, the first of each kind.

* `Layout.overflow_of_ofScanned`: a layout remembers the first line that outgrew a region.
* `Layout.defect?_eq_of_undefined`: the first undefined symbol comes before everything else.
* `assemble_reported_error`: which error is reported, and that there is none otherwise.
-/

namespace RobotMachine

/-! ## Sections -/

/-- The code of some lines and the data up to its end fit their regions. -/
def FitsRegions (lines : List SourceLine) (dataEnd : Nat) : Prop :=
  (instructionsOf lines).length ≤ regionWords ∧ dataEnd ≤ regionSize

/-- The lines fit the regions, and so do all their fronts. -/
def AllFit (lines : List SourceLine) : Prop :=
  ∀ k ≤ lines.length, ∃ statements stop, LaysOut (lines.take k) statements stop ∧
    FitsRegions (lines.take k) stop

/-- The error is about the first line behind which a section does not fit its region. -/
inductive Outgrows (lines : List SourceLine) : AssemblyError → Prop
  | intro {i stop : Nat} {src : SourceLine} {c : Clause} {statements : List Statement} :
    lines[i]? = some src → src.clause = some c → AllFit (lines.take i) →
      LaysOut (lines.take (i + 1)) statements stop → ¬FitsRegions (lines.take (i + 1)) stop →
      Outgrows lines ⟨i + 1, c.head.column,
        if regionWords < (instructionsOf (lines.take (i + 1))).length then .codeTooLarge
        else .dataTooLarge⟩

section Fronts

variable {lines : List SourceLine} {src : SourceLine} {statements : List Statement} {stop : Nat}

theorem AllFit.nil : AllFit [] := by
  intro k _
  rw [List.take_nil]
  exact ⟨[], wordSize, .nil, Nat.zero_le _, by decide⟩

theorem take_length_succ_concat (lines : List SourceLine) (src : SourceLine) :
    (lines ++ [src]).take (lines.length + 1) = lines ++ [src] :=
  List.take_of_length_le (by rw [List.length_append, List.length_singleton])

theorem AllFit.concat (fit : AllFit lines) (laysOut : LaysOut (lines ++ [src]) statements stop)
    (fits : FitsRegions (lines ++ [src]) stop) : AllFit (lines ++ [src]) := by
  intro k bound
  rw [List.length_append, List.length_singleton] at bound
  rcases Nat.le_succ_iff.mp bound with before | rfl
  · rw [List.take_append_of_le_length before]
    exact fit k before
  · rw [take_length_succ_concat]
    exact ⟨statements, stop, laysOut, fits⟩

theorem Outgrows.concat {e : AssemblyError} (outgrows : Outgrows lines e) (src : SourceLine) :
    Outgrows (lines ++ [src]) e := by
  obtain ⟨here, clause, fit, laysOut, outgrown⟩ := outgrows
  rename_i i stop src' c statements
  have inside := (List.getElem?_eq_some_iff.mp here).1
  have front : (lines ++ [src]).take i = lines.take i :=
    List.take_append_of_le_length (Nat.le_of_lt inside)
  have all : (lines ++ [src]).take (i + 1) = lines.take (i + 1) :=
    List.take_append_of_le_length inside
  rw [← front] at fit
  rw [← all] at laysOut outgrown ⊢
  rw [← List.getElem?_append_left inside] at here
  exact .intro here clause fit laysOut outgrown

/-- The last line is the first to outgrow a region. -/
theorem Outgrows.last {c : Clause} (clause : src.clause = some c) (fit : AllFit lines)
    (laysOut : LaysOut (lines ++ [src]) statements stop)
    (outgrown : ¬FitsRegions (lines ++ [src]) stop) :
    Outgrows (lines ++ [src]) ⟨lines.length + 1, c.head.column,
      if regionWords < (instructionsOf (lines ++ [src])).length then .codeTooLarge
      else .dataTooLarge⟩ := by
  have here : (lines ++ [src])[lines.length]? = some src := List.getElem?_concat_length
  have front : (lines ++ [src]).take lines.length = lines := List.take_left
  rw [← front] at fit
  rw [← take_length_succ_concat] at laysOut outgrown
  have outgrows := Outgrows.intro here clause fit laysOut outgrown
  rwa [take_length_succ_concat] at outgrows

theorem Outgrows.kind_eq {e : AssemblyError} (outgrows : Outgrows lines e) :
    e.cause.kind = .unencodable := by
  cases outgrows
  dsimp only
  split <;> rfl

end Fronts

namespace Layout

variable {l l' m : Layout} {lines : List SourceLine} {src : SourceLine} {c : Clause} {line : Nat}
  {d : Directive}

theorem overflow_enter (clause : src.clause = some c) (entered : l.enter src = .ok m) :
    m.overflow = l.overflow := by
  obtain ⟨symbols, rfl, -⟩ := enter_eq_ok clause entered
  obtain ⟨symbols', waiting, settled⟩ :=
    settleWaiting_eq { l.alignForWords src.directive? with symbols } src.directive?
  obtain ⟨dataLength, aligned⟩ := l.alignForWords_eq src.directive?
  rw [settled, aligned]

theorem Allocates.overflow_eq (allocates : l.Allocates l') : l'.overflow = l.overflow := by
  cases allocates with
  | room _ => rfl
  | statement _ => rfl

theorem overflow_addDirective_of_placesData (places : d.placesData = true)
    (added : m.addDirective line d c = .ok l') :
    l'.overflow = if l'.dataLength ≤ regionSize then m.overflow
      else some (m.overflow.getD ⟨line, c.head.column, .dataTooLarge⟩) := by
  rw [addDirective_of_placesData places] at added
  obtain ⟨grown, allocates, rfl⟩ := addDataDirective_eq_ok added
  rw [← allocates.overflow_eq]
  split
  · rfl
  · next outgrown => exact (if_neg outgrown).symm

theorem overflow_addInstruction (added : m.addInstruction line c = .ok l') :
    l'.overflow = if m.codeLength < regionWords then m.overflow
      else some (m.overflow.getD ⟨line, c.head.column, .codeTooLarge⟩) := by
  simp only [addInstruction] at added
  split at added
  · cases added
  obtain ⟨operands, -, added⟩ := Except.bind_eq_ok_iff.mp added
  obtain ⟨opcode, -, added⟩ := Except.bind_eq_ok_iff.mp added
  cases added
  dsimp only
  split <;> rfl

/-- A line leaves both sections alone, moves the end of the data, or adds a word of code. An
overflow is noted where a section has outgrown its region and none was noted before. -/
theorem overflow_addLine (added : l.addLine line src = .ok l') :
    (src.instruction? = none ∧ l'.dataLength = l.dataLength ∧ l'.overflow = l.overflow) ∨
      ∃ c, src.clause = some c ∧
        ((src.instruction? = none ∧ l.dataLength ≤ l'.dataLength ∧
            l'.overflow = if l'.dataLength ≤ regionSize then l.overflow
              else some (l.overflow.getD ⟨line, c.head.column, .dataTooLarge⟩)) ∨
          (src.instruction? = some c ∧ l'.dataLength = l.dataLength ∧
            l'.overflow = if l.codeLength < regionWords then l.overflow
              else some (l.overflow.getD ⟨line, c.head.column, .codeTooLarge⟩))) := by
  cases places : src.placesData with
  | true =>
    obtain ⟨d, directive, placesData⟩ := (Option.any_eq_true _ _).mp places
    obtain ⟨c, m, body, stop, clause, entered, directiveAdded, -, start, reserves, length, -⟩ :=
      addLine_reserves directive placesData added
    have overflow := overflow_addDirective_of_placesData placesData directiveAdded
    rw [overflow_enter clause entered] at overflow
    refine .inr ⟨c, clause, .inl ⟨SourceLine.instruction?_eq_none directive, ?_, overflow⟩⟩
    calc
      l.dataLength ≤ m.dataLength := by
        rw [start]
        split
        · exact le_roundUp _ (by decide)
        · exact Nat.le_refl _
      _ ≤ l'.dataLength := length ▸ reserves.start_le
  | false =>
    obtain ⟨length, -⟩ := addLine_of_not_placesData places added
    obtain ⟨labelled, labelAdded, added⟩ := addLine_eq_ok added
    obtain ⟨dataLength, aligned⟩ := l.alignForWords_eq src.directive?
    obtain ⟨symbols, isLabelled, -⟩ := addLabel_eq_ok labelAdded
    rw [aligned] at isLabelled
    have entered (directive : Option Directive) :
        (labelled.settleWaiting directive).overflow = l.overflow ∧
          (labelled.settleWaiting directive).codeLength = l.codeLength := by
      obtain ⟨symbols', waiting, settled⟩ := settleWaiting_eq labelled directive
      rw [settled, isLabelled]
      exact ⟨rfl, rfl⟩
    rcases added with ⟨clause, rfl⟩ | ⟨c, clause, ⟨d, named, added⟩ | ⟨named, added⟩⟩
    · refine .inl ⟨?_, length, ?_⟩
      · rw [SourceLine.instruction?, clause]
        rfl
      · rw [isLabelled]
    · have directive : src.directive? = some d := by
        rw [SourceLine.directive?, clause]
        exact named
      rw [SourceLine.placesData, directive, Option.any_some] at places
      obtain ⟨active, symbols, rfl⟩ := addDirective_of_not_placesData places added
      exact .inl ⟨SourceLine.instruction?_eq_none directive, length, (entered _).1⟩
    · have overflow := overflow_addInstruction added
      rw [(entered _).1, (entered _).2] at overflow
      have instruction := SourceLine.instruction?_eq_some clause named
      exact .inr ⟨c, clause, .inr ⟨instruction, length, overflow⟩⟩

/-- A line leaves the fit of the sections and the overflow as they are, or some section does not fit
behind it and an overflow is noted. -/
theorem overflow_concat (laidOut : ofScanned lines = .ok l)
    (added : l.addLine (lines.length + 1) src = .ok l') :
    (l'.overflow = l.overflow ∧
        (FitsRegions lines l.dataLength ↔ FitsRegions (lines ++ [src]) l'.dataLength)) ∨
      ¬FitsRegions (lines ++ [src]) l'.dataLength ∧
        ∃ c cause, src.clause = some c ∧
          l'.overflow = some (l.overflow.getD ⟨lines.length + 1, c.head.column, cause⟩) ∧
          (FitsRegions lines l.dataLength →
            cause = if regionWords < (instructionsOf (lines ++ [src])).length then .codeTooLarge
              else .dataTooLarge) := by
  have count := (follows_of_ofScanned laidOut).codeLength_eq
  simp only [FitsRegions, instructionsOf_concat, List.length_append]
  rcases overflow_addLine added with ⟨none, length, overflow⟩ | ⟨c, clause, data | code⟩
  · rw [none, length]
    exact .inl ⟨overflow, Iff.rfl⟩
  · obtain ⟨none, longer, overflow⟩ := data
    rw [none, Option.toList_none, List.length_nil, Nat.add_zero]
    split at overflow
    · next fits =>
      have before : l.dataLength ≤ regionSize := Nat.le_trans longer fits
      exact .inl ⟨overflow, and_congr_right fun _ => ⟨fun _ => fits, fun _ => before⟩⟩
    · next outgrown =>
      refine .inr ⟨fun both => outgrown both.2, c, _, clause, overflow, fun fits => ?_⟩
      rw [if_neg (Nat.not_lt.mpr fits.1)]
  · obtain ⟨some, length, overflow⟩ := code
    rw [some, length, Option.toList_some, List.length_singleton, ← count]
    split at overflow
    · next room =>
      exact .inl ⟨overflow, and_congr_left fun _ => ⟨fun _ => room, fun _ => Nat.le_of_lt room⟩⟩
    · next full =>
      refine .inr ⟨fun both => full both.1, c, _, clause, overflow, fun _ => ?_⟩
      rw [if_pos (Nat.lt_succ_of_le (Nat.not_lt.mp full))]

/-- A layout has noted an overflow just if some section does not fit, and then the first one. -/
theorem overflow_of_ofScanned (laidOut : ofScanned lines = .ok l) :
    (l.overflow = none → FitsRegions lines l.dataLength ∧ AllFit lines) ∧
      ∀ e, l.overflow = some e → ¬FitsRegions lines l.dataLength ∧ Outgrows lines e := by
  refine ofScanned_induction (motive := fun lines l =>
    (l.overflow = none → FitsRegions lines l.dataLength ∧ AllFit lines) ∧
      ∀ e, l.overflow = some e → ¬FitsRegions lines l.dataLength ∧ Outgrows lines e)
    ⟨fun _ => ⟨⟨Nat.zero_le _, by decide⟩, .nil⟩, nofun⟩ (fun lines src l l' laidOut ih added => ?_)
    laidOut
  obtain ⟨fitting, outgrown⟩ := ih
  have laysOut := laysOut_of_ofScanned (ofScanned_concat_eq_ok_iff.mpr ⟨l, laidOut, added⟩)
  rcases overflow_concat laidOut added with ⟨overflow, same⟩ | ⟨unfit, c, cause, clause, overflow, is⟩
  · rw [overflow, ← same]
    refine ⟨fun none => ?_, fun e noted => ?_⟩
    · obtain ⟨fits, all⟩ := fitting none
      exact ⟨fits, all.concat laysOut (same.mp fits)⟩
    · obtain ⟨unfit, outgrows⟩ := outgrown e noted
      exact ⟨unfit, outgrows.concat src⟩
  · rw [overflow]
    refine ⟨nofun, fun e isFirst => ⟨unfit, ?_⟩⟩
    obtain rfl := Option.some.inj isFirst
    cases noted : l.overflow with
    | some first => exact (outgrown first noted).2.concat src
    | none =>
      obtain ⟨fits, all⟩ := fitting noted
      rw [is fits]
      exact .last clause all laysOut unfit

end Layout

/-! ## References -/

/-- A symbol in an expression of a statement, with its place. -/
structure Reference where
  line : Nat
  column : Nat
  name : String
  deriving DecidableEq, Repr

/-- The symbols in the expressions of a statement, from left to right. -/
def Statement.references (s : Statement) : List Reference :=
  (s.expressions.flatMap Expression.symbols).map fun (name, column) => ⟨s.line, column, name⟩

/-- The symbols in the statements of a source, in its order. -/
def referencesIn (statements : List Statement) : List Reference :=
  statements.flatMap Statement.references

/-- Some line defines the symbol, or it is the mailbox. -/
def Reference.IsDefinedIn (lines : List SourceLine) (r : Reference) : Prop :=
  r.name ∈ definedNames lines ∨ r.name = SymbolTable.mailboxName

/-- What is reported of a symbol if it is not in the table. -/
def Reference.undefinedIn (table : SymbolTable) (r : Reference) : Option AssemblyError :=
  if (table.value? r.name).isSome then none else some ⟨r.line, r.column, .undefinedSymbol r.name⟩

/-- The statements are searched for their symbols in order. -/
theorem findSome?_undefinedIn (table : SymbolTable) (statements : List Statement) :
    statements.findSome? (Layout.undefinedIn table) =
      (referencesIn statements).findSome? (Reference.undefinedIn table) := by
  induction statements with
  | nil => rfl
  | cons s statements ih =>
    have head : Layout.undefinedIn table s =
        s.references.findSome? (Reference.undefinedIn table) := by
      rw [Statement.references, List.findSome?_map]
      rfl
    rw [referencesIn, List.flatMap_cons, List.findSome?_append, ← referencesIn, ← ih, ← head,
      List.findSome?_cons]
    cases Layout.undefinedIn table s <;> rfl

/-- The first undefined symbol is reported, if there is one. -/
theorem findSome?_reference (table : SymbolTable) (references : List Reference) :
    (references.findSome? (Reference.undefinedIn table) = none ∧
        ∀ r ∈ references, (table.value? r.name).isSome) ∨
      ∃ front r back, references = front ++ r :: back ∧
        (∀ r' ∈ front, (table.value? r'.name).isSome) ∧ ¬(table.value? r.name).isSome ∧
        references.findSome? (Reference.undefinedIn table) =
          some ⟨r.line, r.column, .undefinedSymbol r.name⟩ := by
  have defined (r : Reference) (none : r.undefinedIn table = none) :
      (table.value? r.name).isSome := by
    rw [Reference.undefinedIn] at none
    split at none
    · next isSome => exact isSome
    · cases none
  cases found : references.findSome? (Reference.undefinedIn table) with
  | none =>
    rw [List.findSome?_eq_none_iff] at found
    exact .inl ⟨rfl, fun r member => defined r (found r member)⟩
  | some e =>
    obtain ⟨front, r, back, rfl, undefined, before⟩ := List.findSome?_eq_some_iff.mp found
    rw [Reference.undefinedIn] at undefined
    split at undefined
    · cases undefined
    · next missing =>
      cases undefined
      exact .inr ⟨front, r, back, rfl, fun r' member => defined r' (before r' member), missing, rfl⟩

theorem Statement.isDefined_of_references {s : Statement} {table : SymbolTable}
    (defined : ∀ r ∈ s.references, (table.value? r.name).isSome) : s.IsDefined table := by
  intro e member symbol isSymbol
  exact defined _ (List.mem_map.mpr ⟨symbol, List.mem_flatMap.mpr ⟨e, member, isSymbol⟩, rfl⟩)

/-- Instructions stand in the statements of a source with operands that fit their opcode. -/
theorem LaysOut.isShaped {lines : List SourceLine} {statements : List Statement} {stop : Nat}
    (laysOut : LaysOut lines statements stop) : ∀ s ∈ statements, s.body.IsShaped := by
  induction laysOut with
  | nil => nofun
  | concat _ _ _ adds ih =>
    refine List.forall_mem_append.mpr ⟨ih, fun s added => ?_⟩
    rw [Option.mem_toList] at added
    cases adds with
    | instruction _ placed =>
      obtain rfl := Option.some.inj added
      obtain ⟨opcode, operands, -, form, rfl⟩ := placed
      exact form.1.2
    | data _ _ _ reserves =>
      obtain ⟨body, isBody, rfl⟩ := Option.map_eq_some_iff.mp added
      obtain rfl := isBody
      cases reserves <;> trivial
    | nothing => cases added

/-! ## Errors -/

theorem assemble_eq_emit {source : String} {l : Layout}
    (laidOut : Layout.ofLines (linesOf source.toList) = .ok l) : assemble source = l.emit := by
  rw [assemble, laidOut]
  rfl

/-- Without a defect a layout is encoded, unless the value of some statement does not fit: then the
first such statement is reported. -/
theorem Layout.emit_of_sound {l : Layout} (sound : l.defect? = none)
    (shaped : ∀ s ∈ l.statements.reverse, s.body.IsShaped)
    (defined : ∀ s ∈ l.statements.reverse, s.IsDefined l.symbols) :
    ((∃ s ∈ l.statements.reverse, s.body.Misfits l.symbols) →
      ∃ front s back e, l.statements.reverse = front ++ s :: back ∧
        (∀ s' ∈ front, ¬s'.body.Misfits l.symbols) ∧ s.body.Misfits l.symbols ∧
        l.emit = .error e ∧ e.line = s.line ∧ e.cause.kind = .unencodable) ∧
      ((∀ s ∈ l.statements.reverse, ¬s.body.Misfits l.symbols) → ∃ p, l.emit = .ok p) := by
  have each : ∀ s ∈ l.statements.reverse, Except.FailsIff (s.body.Misfits l.symbols)
      (·.cause.kind = .unencodable) ((s.emit l.symbols).mapError (·.onLine s.line)) := fun s member =>
    Except.FailsIff.mapError (s.emit_failsIff (shaped s member) (defined s member))
      fun e misfit => misfit.kind_eq
  rw [emit, sound]
  refine ⟨fun misfit => ?_, fun fine => ?_⟩
  · obtain ⟨front, s, back, e, split, before, here, kind, failed, failedAll⟩ :=
      Except.FailsIff.exists_first each misfit
    obtain ⟨e', -, rfl⟩ := Except.mapError_eq_error_iff.mp failed
    refine ⟨front, s, back, _, split, before, here, ?_, rfl, kind⟩
    dsimp only
    rw [failedAll]
    rfl
  · have all := Except.FailsIff.mapM each
    cases made : l.statements.reverse.mapM fun s =>
        (s.emit l.symbols).mapError (·.onLine s.line) with
    | error e =>
      rw [made] at all
      obtain ⟨⟨s, member, misfit⟩, -⟩ := all.of_error
      exact absurd misfit (fine s member)
    | ok emissions => exact ⟨l.program emissions, rfl⟩

/-- **Which error is reported.** If every line of a source passes the first look, an undefined
symbol is reported first, with the place of the first one in the order of the source. Else the
first statement that outgrows a region is reported, and else the line of the first statement with a
value that does not fit. If there is none either, the source assembles. -/
theorem assemble_reported_error {source : String} {l : Layout}
    (laidOut : Layout.ofLines (linesOf source.toList) = .ok l) :
    ∃ lines, (linesOf source.toList).mapM SourceLine.scan = .ok lines ∧
      LaysOut lines l.statements.reverse l.dataLength ∧
      ((∃ r ∈ referencesIn l.statements.reverse, ¬r.IsDefinedIn lines) →
        ∃ front r back, referencesIn l.statements.reverse = front ++ r :: back ∧
          (∀ r' ∈ front, r'.IsDefinedIn lines) ∧ ¬r.IsDefinedIn lines ∧
          assemble source = .error ⟨r.line, r.column, .undefinedSymbol r.name⟩) ∧
      ((∀ r ∈ referencesIn l.statements.reverse, r.IsDefinedIn lines) →
        (¬FitsRegions lines l.dataLength →
          ∃ e, Outgrows lines e ∧ e.cause.kind = .unencodable ∧ assemble source = .error e) ∧
        (FitsRegions lines l.dataLength →
          ((∃ s ∈ l.statements.reverse, s.body.Misfits l.symbols) →
            ∃ front s back e, l.statements.reverse = front ++ s :: back ∧
              (∀ s' ∈ front, ¬s'.body.Misfits l.symbols) ∧ s.body.Misfits l.symbols ∧
              assemble source = .error e ∧ e.line = s.line ∧ e.cause.kind = .unencodable) ∧
          ((∀ s ∈ l.statements.reverse, ¬s.body.Misfits l.symbols) →
            ∃ p, assemble source = .ok p))) := by
  rw [assemble_eq_emit laidOut]
  obtain ⟨lines, scanned, laidOut⟩ := Layout.ofLines_eq_ok_iff.mp laidOut
  have laysOut := Layout.laysOut_of_ofScanned laidOut
  obtain ⟨fitting, outgrown⟩ := Layout.overflow_of_ofScanned laidOut
  have isDefined (r : Reference) : (l.symbols.value? r.name).isSome ↔ r.IsDefinedIn lines :=
    Layout.isSome_value?_iff laidOut
  have references := findSome?_reference l.symbols (referencesIn l.statements.reverse)
  simp only [isDefined] at references
  rw [← findSome?_undefinedIn] at references
  refine ⟨lines, scanned, laysOut, fun undefined => ?_, fun defined => ?_⟩
  · rcases references with ⟨-, all⟩ | ⟨front, r, back, split, before, missing, found⟩
    · obtain ⟨r, member, missing⟩ := undefined
      exact absurd (all r member) missing
    · refine ⟨front, r, back, split, before, missing, ?_⟩
      rw [Layout.emit, Layout.defect?, found]
      rfl
  have sound : l.statements.reverse.findSome? (Layout.undefinedIn l.symbols) = none := by
    rcases references with ⟨none, -⟩ | ⟨front, r, back, split, -, missing, -⟩
    · exact none
    · exact absurd (defined r (by simp [split])) missing
  have defect : l.defect? = l.overflow := by
    rw [Layout.defect?, sound, Option.none_or]
  refine ⟨fun unfit => ?_, fun fits => ?_⟩
  · cases noted : l.overflow with
    | none => exact absurd (fitting noted).1 unfit
    | some e =>
      have outgrows := (outgrown e noted).2
      refine ⟨e, outgrows, outgrows.kind_eq, ?_⟩
      rw [Layout.emit, defect, noted]
  · have unnoted : l.overflow = none :=
      Option.eq_none_iff_forall_ne_some.mpr fun e noted => (outgrown e noted).1 fits
    refine Layout.emit_of_sound (defect.trans unnoted) laysOut.isShaped fun s member => ?_
    exact Statement.isDefined_of_references fun r listed =>
      (isDefined r).mpr (defined r (List.mem_flatMap.mpr ⟨s, member, listed⟩))

/-- A source with an immediate that is too large, an undefined symbol behind a label that is
defined later, and more data than fits its region. -/
def threefold : String :=
  "MOV R0, #0x100000\nB over + there\nover: HALT\n.data\n.space 4096\n"

theorem assemble_reported_error_threefold :
    ∃ l lines, Layout.ofLines (linesOf threefold.toList) = .ok l ∧
      (linesOf threefold.toList).mapM SourceLine.scan = .ok lines ∧
      ¬FitsRegions lines l.dataLength ∧
      assemble threefold = .error ⟨2, 10, .undefinedSymbol "there"⟩ := by
  have found : (Layout.ofLines (linesOf threefold.toList)).toOption.map
      (fun l => (referencesIn l.statements.reverse, l.dataLength)) =
      some ([⟨2, 3, "over"⟩, ⟨2, 10, "there"⟩], 4100) := by
    decide +kernel
  have names : ((linesOf threefold.toList).mapM SourceLine.scan).toOption.map definedNames =
      some ["over"] := by
    decide +kernel
  obtain ⟨l, laidOut, same⟩ := Option.map_eq_some_iff.mp found
  rw [Except.toOption_eq_some_iff] at laidOut
  obtain ⟨references, dataEnd⟩ := Prod.mk.inj same
  obtain ⟨lines, scanned, -, undefined, -⟩ := assemble_reported_error laidOut
  rw [scanned] at names
  have defined : definedNames lines = ["over"] := Option.some.inj names
  simp only [Reference.IsDefinedIn, references, defined] at undefined
  obtain ⟨front, r, back, split, before, missing, failed⟩ := undefined (by decide +kernel)
  have unfit : ¬FitsRegions lines l.dataLength := by
    rw [FitsRegions, dataEnd]
    exact fun both => absurd both.2 (by decide)
  refine ⟨l, lines, laidOut, scanned, unfit, ?_⟩
  rcases front with _ | ⟨first, _ | ⟨second, front⟩⟩
  · cases split
    exact absurd (.inl List.mem_cons_self) missing
  · cases split
    exact failed
  · simp at split

/-- A symbol that no line defines may still be the mailbox, whose address every source can use. -/
def mailboxLoad : String :=
  "LDR R0, [MAILBOX]"

theorem assemble_mailboxLoad :
    ∃ l lines p, Layout.ofLines (linesOf mailboxLoad.toList) = .ok l ∧
      (linesOf mailboxLoad.toList).mapM SourceLine.scan = .ok lines ∧
      referencesIn l.statements.reverse = [⟨1, 10, "MAILBOX"⟩] ∧ definedNames lines = [] ∧
      assemble mailboxLoad = .ok p := by
  have found : (Layout.ofLines (linesOf mailboxLoad.toList)).toOption.map
      (fun l => referencesIn l.statements.reverse) = some [⟨1, 10, "MAILBOX"⟩] := by
    decide +kernel
  have names : ((linesOf mailboxLoad.toList).mapM SourceLine.scan).toOption.map definedNames =
      some [] := by
    decide +kernel
  have code : (assemble mailboxLoad).toOption.map Program.code = some [0x41030000] := by
    decide +kernel
  obtain ⟨l, laidOut, references⟩ := Option.map_eq_some_iff.mp found
  obtain ⟨lines, scanned, none⟩ := Option.map_eq_some_iff.mp names
  obtain ⟨p, assembled, -⟩ := Option.map_eq_some_iff.mp code
  rw [Except.toOption_eq_some_iff] at laidOut scanned assembled
  exact ⟨l, lines, p, laidOut, scanned, references, none, assembled⟩

end RobotMachine
