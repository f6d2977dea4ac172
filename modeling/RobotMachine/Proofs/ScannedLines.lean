import Mathlib.Data.List.Induction
import RobotMachine.Proofs.CodeLayout

/-!
# The layouts of scanned lines

A layout grows line by line, so the lines in front of any line of a source have a layout of their
own. A clause works on that layout after the label of its line is defined and the labels that wait
are settled.

* `Layout.ofLines_eq_ok_iff`: laying a source out is scanning it and then adding its lines.
* `Layout.ofScanned_induction`: what every line preserves holds of the layout of all lines.
* `Layout.ofScanned_split`: the layouts around one line of a source.
* `Layout.enter`: the layout that the clause of a line works on.
-/

namespace RobotMachine

namespace Layout

/-- Adds scanned lines, the first of which has the given number. -/
def addScanned (l : Layout) (line : Nat) : List SourceLine → Except LineError Layout
  | [] => .ok l
  | src :: srcs => do
    let l ← l.addLine line src
    l.addScanned (line + 1) srcs

/-- The layout of scanned lines. -/
def ofScanned (lines : List SourceLine) : Except LineError Layout :=
  addScanned {} 1 lines

variable {l l' : Layout} {lines : List SourceLine} {src : SourceLine} {line : Nat}

theorem addScanned_append (l : Layout) (line : Nat) (front back : List SourceLine) :
    l.addScanned line (front ++ back) = (do
      let l ← l.addScanned line front
      l.addScanned (line + front.length) back) := by
  induction front generalizing l line with
  | nil => rfl
  | cons src front ih =>
    rw [List.cons_append, addScanned, addScanned]
    cases l.addLine line src with
    | error e => rfl
    | ok next =>
      rw [Except.ok_bind, Except.ok_bind, ih, List.length_cons, Nat.add_right_comm, Nat.add_assoc]

theorem addScanned_singleton (l : Layout) (line : Nat) (src : SourceLine) :
    l.addScanned line [src] = l.addLine line src := by
  rw [addScanned]
  cases l.addLine line src <;> rfl

theorem addLines_eq_ok_iff {texts : List (List Char)} :
    l.addLines line texts = .ok l' ↔
      ∃ srcs, texts.mapM SourceLine.scan = .ok srcs ∧ l.addScanned line srcs = .ok l' := by
  induction texts generalizing l line with
  | nil =>
    rw [List.mapM_nil]
    exact ⟨fun added => ⟨[], rfl, by cases added; rfl⟩, fun ⟨_, rfl, added⟩ => by cases added; rfl⟩
  | cons text texts ih =>
    rw [addLines, List.mapM_cons]
    constructor
    · intro added
      split at added
      · next next_ok =>
        obtain ⟨src, scanned, lineAdded⟩ := Except.bind_eq_ok_iff.mp next_ok
        obtain ⟨srcs, scannedAll, addedAll⟩ := ih.mp added
        refine ⟨src :: srcs, ?_, ?_⟩
        · rw [scanned, scannedAll]
          rfl
        · rw [addScanned, lineAdded]
          exact addedAll
      · cases added
    · intro parts
      obtain ⟨srcs, scannedAll, addedAll⟩ := parts
      obtain ⟨src, scanned, scannedAll⟩ := Except.bind_eq_ok_iff.mp scannedAll
      obtain ⟨rest, scannedRest, same⟩ := Except.bind_eq_ok_iff.mp scannedAll
      cases same
      obtain ⟨next, lineAdded, addedRest⟩ := Except.bind_eq_ok_iff.mp addedAll
      rw [scanned, Except.ok_bind, lineAdded]
      exact ih.mpr ⟨rest, scannedRest, addedRest⟩

/-- Laying a source out is scanning its lines and adding them. -/
theorem ofLines_eq_ok_iff {texts : List (List Char)} :
    ofLines texts = .ok l ↔
      ∃ lines, texts.mapM SourceLine.scan = .ok lines ∧ ofScanned lines = .ok l :=
  addLines_eq_ok_iff

theorem ofScanned_concat_eq_ok_iff :
    ofScanned (lines ++ [src]) = .ok l' ↔
      ∃ l, ofScanned lines = .ok l ∧ l.addLine (lines.length + 1) src = .ok l' := by
  rw [ofScanned, addScanned_append, Except.bind_eq_ok_iff]
  simp only [addScanned_singleton, Nat.add_comm 1]
  rfl

/-- What holds of the layout of no lines and is preserved by each line holds of the layout of all
lines. -/
theorem ofScanned_induction {motive : List SourceLine → Layout → Prop} (empty : motive [] {})
    (concat : ∀ lines src l l', ofScanned lines = .ok l → motive lines l →
      l.addLine (lines.length + 1) src = .ok l' → motive (lines ++ [src]) l')
    (laidOut : ofScanned lines = .ok l) : motive lines l := by
  induction lines using List.reverseRecOn generalizing l with
  | nil =>
    cases laidOut
    exact empty
  | append_singleton lines src ih =>
    obtain ⟨before, laidOutBefore, added⟩ := ofScanned_concat_eq_ok_iff.mp laidOut
    exact concat lines src before l laidOutBefore (ih laidOutBefore) added

/-- The layouts in front of a line and behind it. -/
theorem ofScanned_split {i : Nat} (laidOut : ofScanned lines = .ok l)
    (here : lines[i]? = some src) :
    ∃ before after, ofScanned (lines.take i) = .ok before ∧
      before.addLine (i + 1) src = .ok after ∧
      after.addScanned (i + 2) (lines.drop (i + 1)) = .ok l := by
  obtain ⟨inside, rfl⟩ := List.getElem?_eq_some_iff.mp here
  have cut : lines = lines.take i ++ lines[i] :: lines.drop (i + 1) := by
    rw [← List.drop_eq_getElem_cons inside, List.take_append_drop]
  have length : 1 + (lines.take i).length = i + 1 := by
    rw [List.length_take, Nat.min_eq_left (Nat.le_of_lt inside), Nat.add_comm]
  rw [ofScanned, cut, addScanned_append, length] at laidOut
  obtain ⟨before, laidOutBefore, laidOut⟩ := Except.bind_eq_ok_iff.mp laidOut
  obtain ⟨after, added, laidOut⟩ := Except.bind_eq_ok_iff.mp laidOut
  exact ⟨before, after, laidOutBefore, added, laidOut⟩

theorem follows_of_ofScanned (laidOut : ofScanned lines = .ok l) : l.Follows lines lines := by
  refine ofScanned_induction (motive := fun lines l => l.Follows lines lines) Follows.empty
    (fun lines src before after _ follows added => ?_) laidOut
  exact addLine_follows follows added

/-! ## Clauses -/

/-- The layout that the clause of a line works on: the data is aligned for words, the label of the
line is defined, and the labels that wait are settled. -/
def enter (l : Layout) (src : SourceLine) : Except LineError Layout := do
  let labelled ← (l.alignForWords src.directive?).addLabel src
  return labelled.settleWaiting src.directive?

/-- A line with a clause adds it to the layout it enters. -/
theorem addLine_eq_enter {c : Clause} (clause : src.clause = some c) (line : Nat) :
    l.addLine line src = (do
      let m ← l.enter src
      match src.directive? with
      | some d => m.addDirective line d c
      | none =>
        if c.head.text.head? = some '.' then
          throw ⟨c.head.column, .unknownDirective c.head.toString⟩
        else m.addInstruction line c) := by
  rw [addLine, enter, SourceLine.directive?, bind_assoc]
  refine bind_congr fun m => ?_
  rw [clause]
  rfl

/-- A line defines its label and then adds its directive or its instruction to the layout it
enters. -/
theorem addLine_cases (added : l.addLine line src = .ok l') :
    src.clause = none ∧ (l.alignForWords src.directive?).addLabel src = .ok l' ∨
      ∃ c m, src.clause = some c ∧ l.enter src = .ok m ∧
        ((∃ d, src.directive? = some d ∧ m.addDirective line d c = .ok l') ∨
          src.directive? = none ∧ m.addInstruction line c = .ok l') := by
  obtain ⟨labelled, labelAdded, added⟩ := addLine_eq_ok added
  rcases added with ⟨clause, rfl⟩ | ⟨c, clause, added⟩
  · exact .inl ⟨clause, labelAdded⟩
  · refine .inr ⟨c, labelled.settleWaiting src.directive?, clause, ?_, ?_⟩
    · rw [enter, labelAdded]
      rfl
    rcases added with ⟨d, named, added⟩ | ⟨named, added⟩
    · have directive : src.directive? = some d := by
        rw [SourceLine.directive?, clause]
        exact named
      rw [directive]
      exact .inl ⟨d, rfl, added⟩
    · have directive : src.directive? = none := by
        rw [SourceLine.directive?, clause]
        exact Directive.ofName?_eq_none named
      rw [directive]
      exact .inr ⟨rfl, added⟩

/-- A line with a directive adds it to the layout it enters. -/
theorem addLine_of_directive {d : Directive} (added : l.addLine line src = .ok l')
    (directive : src.directive? = some d) :
    ∃ c m, src.clause = some c ∧ l.enter src = .ok m ∧ m.addDirective line d c = .ok l' := by
  rcases addLine_cases added with ⟨clause, -⟩ | ⟨c, m, clause, entered, added⟩
  · rw [SourceLine.directive?, clause] at directive
    cases directive
  · rcases added with ⟨d', directive', added⟩ | ⟨none, -⟩
    · rw [directive] at directive'
      cases directive'
      exact ⟨c, m, clause, entered, added⟩
    · rw [directive] at none
      cases none

end Layout

end RobotMachine
