import RobotMachine.Proofs.LabelledLines
import RobotMachine.Proofs.MoreWaiting
import RobotMachine.Proofs.Respelling

/-!
# Lines split behind their labels

A label may stand on a line of its own in front of its clause. Where it waits there, the clause
settles it at the same place. Only an alignment in the data section keeps it waiting: then it goes
along with the next data that is allocated behind the alignment.

* `Layout.addLine_split`: a clause behind its label, and behind a line with the label alone.
* `Layout.ofScanned_split_label`: the layout of all lines, one of them split.
* `assemble_split_label`: when a source with a line split behind its label gives the same program.
* `assemble_labelledAlignment`: an alignment whose label moves.
-/

namespace RobotMachine

open SourceLine (IsBlankLine)

/-! ## Lists -/

theorem getElem?_between {α : Type} (front : List α) (x : α) (back : List α) :
    (front ++ x :: back)[front.length]? = some x := by
  rw [List.getElem?_append_right (Nat.le_refl _), Nat.sub_self, List.getElem?_cons_zero]

theorem getElem?_behind {α : Type} (front : List α) (x : α) (back : List α) (k : Nat) :
    (front ++ x :: back)[front.length + 1 + k]? = back[k]? := by
  rw [Nat.add_assoc, List.getElem?_append_right (Nat.le_add_right _ _), Nat.add_sub_cancel_left,
    Nat.add_comm, List.getElem?_cons_succ]

theorem take_behind {α : Type} (front : List α) (x : α) (back : List α) (k : Nat) :
    (front ++ x :: back).take (front.length + 1 + k) = front ++ x :: back.take k := by
  rw [Nat.add_assoc, List.take_length_add_append, Nat.add_comm, List.take_succ_cons]

/-! ## One line -/

/-- A new symbol that is moved is the same as one that is new at its new value. -/
theorem SymbolTable.move_cons_of_notMem {table : SymbolTable} {names : List String} {v : Int}
    {name : String} (fresh : name ∉ table.map (·.1)) (old : Int) :
    move ((name, old) :: table) (name :: names) v = move ((name, v) :: table) names v := by
  have others : table.move (name :: names) v = table.move names v :=
    move_congr fun entry member => .inr (by
      have differs : entry.1 ≠ name := fun same => fresh (same ▸ List.mem_map_of_mem member)
      simp only [List.mem_cons, differs, false_or])
  rw [move, move, List.map_cons, List.map_cons, ← move, ← move, others]
  simp only [List.mem_cons_self, if_true, ite_self]

namespace SourceLine

/-- The line without what stands behind its label. -/
def labelAlone (src : SourceLine) : SourceLine :=
  { src with clause := none }

/-- The line without its label. -/
def unlabelled (src : SourceLine) : SourceLine :=
  { src with label := none }

/-- The first line has the label and the second one has the clause, wherever on them they stand. -/
structure SplitsInto (src alone cut : SourceLine) : Prop where
  alone_eq : src.labelAlone.content = alone.content
  cut_eq : src.unlabelled.content = cut.content

namespace SplitsInto

variable {src alone cut : SourceLine} {label : Fragment}

theorem clause_alone (splits : src.SplitsInto alone cut) : alone.clause = none :=
  Option.map_eq_none_iff.mp (Prod.mk.inj splits.alone_eq).2.symm

theorem exists_label (splits : src.SplitsInto alone cut) (here : src.label = some label) :
    ∃ label', alone.label = some label' ∧ label'.toString = label.toString := by
  have labels : src.label.map Fragment.text = alone.label.map Fragment.text :=
    (Prod.mk.inj splits.alone_eq).1
  rw [here] at labels
  obtain ⟨label', here', same⟩ := Option.map_eq_some_iff.mp labels.symm
  exact ⟨label', here', congrArg String.ofList same⟩

theorem directive?_cut (splits : src.SplitsInto alone cut) :
    cut.directive? = src.directive? :=
  (SourceLine.directive?_congr splits.cut_eq).symm

end SplitsInto

end SourceLine

namespace Layout

variable {l l' m : Layout} {src : SourceLine} {label : Fragment} {c : Clause} {line : Nat}
  {name : String} {d : Option Directive}

/-- The layout with a name for the location. -/
def labelled (l : Layout) (name : String) : Layout :=
  { l with symbols := (name, l.location) :: l.symbols }

/-- The layout with a name for the location, which waits in the data section. -/
def labelledAlone (l : Layout) (name : String) : Layout :=
  { l.labelled name with
    waiting := if l.active = .data then name :: l.waiting else l.waiting }

/-- A clause that settles the labels puts its own label where it puts one that waits. -/
theorem settleWaiting_labelledAlone (fresh : name ∉ l.symbols.map (·.1))
    (settles : ¬(l.active = .data ∧ d = some .align)) :
    ((l.labelledAlone name).alignForWords d).settleWaiting d =
      ((l.alignForWords d).labelled name).settleWaiting d := by
  obtain ⟨active, symbols, statements, codeLength, dataLength, overflow, waiting⟩ := l
  cases active with
  | text =>
    have inText : ¬(Section.text = .data) := nofun
    simp only [labelledAlone, labelled, alignForWords, settleWaiting, inText, false_and, if_false]
  | data =>
    have notAlign : ¬d = some .align := fun isAlign => settles ⟨rfl, isAlign⟩
    have fresh : name ∉ symbols.map (·.1) := fresh
    by_cases isWord : d = some .word
    · subst isWord
      have allocates : (some Directive.word).any Directive.allocates = true := rfl
      simp only [labelledAlone, labelled, alignForWords, settleWaiting, location, true_and,
        if_neg notAlign, if_pos allocates, if_true, SymbolTable.move_cons_of_notMem fresh]
    · by_cases allocates : d.any Directive.allocates = true
      · simp only [labelledAlone, labelled, alignForWords, settleWaiting, location, true_and,
          if_neg notAlign, if_neg isWord, if_pos allocates, if_true,
          SymbolTable.move_cons_of_notMem fresh]
      · simp only [labelledAlone, labelled, alignForWords, settleWaiting, location, true_and,
          if_neg notAlign, if_neg isWord, if_neg allocates, if_true]

/-- The label of a line names the location, whether or not it waits there. -/
theorem addLine_labelAlone (here : src.label = some label) (clause : src.clause = some c)
    (added : l.addLine line src = .ok l') (line' : Nat) :
    label.toString ∉ l.symbols.map (·.1) ∧
      l.addLine line' src.labelAlone = .ok (l.labelledAlone label.toString) ∧
      l.enter src =
        .ok (((l.alignForWords src.directive?).labelled label.toString).settleWaiting
          src.directive?) := by
  obtain ⟨dataLength, aligned⟩ := l.alignForWords_eq src.directive?
  rcases addLine_cases added with ⟨none, -⟩ | ⟨c', m, -, entered, -⟩
  · rw [clause] at none
    cases none
  obtain ⟨marked, labelAdded, settled⟩ := Except.bind_eq_ok_iff.mp entered
  cases settled
  simp only [addLabel, here, clause] at labelAdded
  obtain ⟨_, defined, marks⟩ := Except.bind_eq_ok_iff.mp labelAdded
  obtain ⟨free, rfl⟩ := define_eq_ok defined
  simp only [Option.isNone_some, Bool.false_eq_true, and_false, if_false] at marks
  cases marks
  rw [aligned] at free
  refine ⟨SymbolTable.not_mem_keys_of_isTaken_eq_false free, ?_, entered⟩
  have defines := define_of_define (m := l) defined (by rw [aligned]) l.location
  rw [addLine, SourceLine.labelAlone, Option.bind_none, alignForWords_none, addLabel]
  simp only [here, defines, Except.ok_bind, Option.isNone_none, and_true]
  rw [labelledAlone]
  split <;> rfl

/-- A clause finds the same behind its label and behind a line with the label alone. -/
theorem addLine_split (here : src.label = some label) (clause : src.clause = some c)
    (settles : ¬(l.active = .data ∧ src.directive? = some .align))
    (added : l.addLine line src = .ok l') (line' : Nat) :
    ∃ n, l.addLine line' src.labelAlone = .ok n ∧ n.addLine line src.unlabelled = .ok l' := by
  obtain ⟨fresh, alone, entered⟩ := addLine_labelAlone here clause added line'
  refine ⟨_, alone, ?_⟩
  have same : (l.labelledAlone label.toString).enter src.unlabelled = l.enter src := by
    rw [entered, ← settleWaiting_labelledAlone fresh settles]
    rfl
  have clause' : src.unlabelled.clause = some c := clause
  rw [addLine_eq_enter clause] at added
  rw [addLine_eq_enter clause', same]
  exact added

/-- An alignment behind a line with the label alone keeps it waiting. -/
theorem addLine_split_align (here : src.label = some label) (inData : l.active = .data)
    (align : src.directive? = some .align) (added : l.addLine line src = .ok l') (line' : Nat) :
    ∃ n m, l.addLine line' src.labelAlone = .ok n ∧ n.addLine line src.unlabelled = .ok m ∧
      WaitsMore label.toString l' m := by
  obtain ⟨c, clause, -⟩ := Option.bind_eq_some_iff.mp align
  obtain ⟨-, alone, entered⟩ := addLine_labelAlone here clause added line'
  have waits : (l.labelledAlone label.toString).enter src.unlabelled =
      (l.enter src).map (·.withWaiting (label.toString :: l.waiting)) := by
    have align' : src.unlabelled.directive? = some .align := align
    have inData' : (l.labelled label.toString).active = .data := inData
    rw [entered, align, alignForWords_align, settleWaiting_align inData', enter, align',
      alignForWords_align, labelledAlone, if_pos inData]
    exact congrArg Except.ok (settleWaiting_align inData)
  have clause' : src.unlabelled.clause = src.clause := rfl
  refine ⟨_, _, alone, addLine_align_withWaiting clause' align waits added, _, rfl, fun other => ?_⟩
  rw [waiting_of_align inData align added]
  exact List.mem_cons

/-! ## All lines -/

/-- A label in front of an alignment names the location, and does not wait. -/
theorem value?_of_align (here : src.label = some label) (inData : l.active = .data)
    (align : src.directive? = some .align) (defined : l.DefinesWaiting)
    (added : l.addLine line src = .ok l') :
    l'.symbols.value? label.toString = some l.location ∧ label.toString ∉ l'.waiting := by
  obtain ⟨c, clause, -⟩ := Option.bind_eq_some_iff.mp align
  obtain ⟨fresh, -, entered⟩ := addLine_labelAlone here clause added line
  rw [align, alignForWords_align, settleWaiting_align (l := l.labelled label.toString) inData]
    at entered
  constructor
  · obtain ⟨c', m, -, entered', added⟩ := addLine_of_directive added align
    cases entered.symm.trans entered'
    exact (addDirective_symbols added).1 _ _ (SymbolTable.value?_cons_self _ _ _)
  · rw [waiting_of_align inData align added]
    intro waits
    obtain ⟨notMailbox, v, known⟩ := defined _ waits
    exact fresh (List.mem_map_of_mem (SymbolTable.mem_of_value? known notMailbox))

section

variable {front back : List SourceLine} {alone cut : SourceLine}

/-- A label in front of an alignment names the end of the data for good. -/
theorem value?_of_ofScanned_align {before : Layout}
    (laidOut : ofScanned (front ++ src :: back) = .ok l) (here : src.label = some label)
    (align : src.directive? = some .align) (laidOutBefore : ofScanned front = .ok before)
    (active : before.active = .data) :
    l.symbols.value? label.toString = some before.location := by
  have laidOutFront : addScanned {} 1 front = .ok before := laidOutBefore
  rw [ofScanned, addScanned_append, laidOutFront, Except.ok_bind] at laidOut
  obtain ⟨after, added, restAdded⟩ := Except.bind_eq_ok_iff.mp laidOut
  obtain ⟨known, stands⟩ := value?_of_align here active align
    (definesWaiting_of_ofScanned laidOutBefore) added
  exact settledIn_of_addScanned restAdded _ _ stands known

/-- The next data goes where the line finds the end of the data, if it aligns the data section. -/
def KeepsPlace (front : List SourceLine) (src : SourceLine) (back : List SourceLine) : Prop :=
  ∀ before, ofScanned front = .ok before → before.active = .data →
    src.directive? = some .align → LandsAt (front ++ [src]) back before.location

/-- The lines from the split one on find what they found in one piece. -/
theorem addScanned_split_label {before after : Layout} (laidOut : ofScanned front = .ok before)
    (here : src.label = some label) (clause : src.clause = some c)
    (keeps : KeepsPlace front src back)
    (added : before.addLine (front.length + 1) src = .ok after)
    (restAdded : after.addScanned (front.length + 1 + 1) back = .ok l) :
    ∃ n waiting, before.addLine (front.length + 1) src.labelAlone = .ok n ∧
      n.addScanned (front.length + 1) (src.unlabelled :: back) = .ok (l.withWaiting waiting) := by
  by_cases align : before.active = .data ∧ src.directive? = some .align
  · obtain ⟨inData, align⟩ := align
    have laidOutAfter : ofScanned (front ++ [src]) = .ok after :=
      ofScanned_concat_eq_ok_iff.mpr ⟨before, laidOut, added⟩
    have length : (front ++ [src]).length = front.length + 1 := List.length_append
    have keepsWaiting := SourceLine.keepsWaiting_iff.mpr (.inr align)
    have inData' := (active_of_keepsWaiting laidOut laidOutAfter keepsWaiting).trans inData
    obtain ⟨known, stands⟩ := value?_of_align here inData align
      (definesWaiting_of_ofScanned laidOut) added
    obtain ⟨n, m, addedAlone, addedCut, more⟩ := addLine_split_align here inData align added
      (front.length + 1)
    rw [← length] at restAdded
    obtain ⟨waiting, restAdded'⟩ := more.addScanned laidOutAfter inData' known
      (label_ne_mailboxName added here) stands (keeps before laidOut inData align) restAdded
    rw [length] at restAdded'
    refine ⟨n, waiting, addedAlone, ?_⟩
    rw [addScanned, addedCut, Except.ok_bind]
    exact restAdded'
  · obtain ⟨n, addedAlone, addedCut⟩ := addLine_split here clause align added (front.length + 1)
    refine ⟨n, l.waiting, addedAlone, ?_⟩
    rw [addScanned, addedCut, Except.ok_bind]
    exact restAdded

/-- Scanned lines with one of them split behind its label. -/
theorem ofScanned_split_label (laidOut : ofScanned (front ++ src :: back) = .ok l)
    (here : src.label = some label) (clause : src.clause = some c)
    (keeps : KeepsPlace front src back) (splits : src.SplitsInto alone cut) :
    ∃ l' waiting, ofScanned (front ++ alone :: cut :: back) = .ok l' ∧
      (l.withWaiting waiting).Alike l' := by
  rw [ofScanned, addScanned_append, Nat.add_comm 1] at laidOut
  obtain ⟨before, laidOutBefore, laidOut⟩ := Except.bind_eq_ok_iff.mp laidOut
  obtain ⟨after, added, restAdded⟩ := Except.bind_eq_ok_iff.mp laidOut
  have laidOutBefore : ofScanned front = .ok before := laidOutBefore
  obtain ⟨n, waiting, addedAlone, addedRest⟩ :=
    addScanned_split_label laidOutBefore here clause keeps added restAdded
  -- the second line is numbered as the first one so far, and so are all behind it
  have same : Except.Agree Layout.Alike (ofScanned front) (ofScanned front) := ofScanned_agree rfl
  rw [laidOutBefore] at same
  obtain ⟨_, found, alike⟩ := same.exists_ok
  cases found
  have firstAgrees : Except.Agree Layout.Alike
      (before.addLine (front.length + 1) src.labelAlone)
      (before.addLine (front.length + 1) alone) := alike.addLine_agree splits.alone_eq
  rw [addedAlone] at firstAgrees
  obtain ⟨n', addedAlone', alike'⟩ := firstAgrees.exists_ok
  have contents : contentsOf (src.unlabelled :: back) = contentsOf (cut :: back) := by
    rw [contentsOf_cons, contentsOf_cons, splits.cut_eq]
  have restAgrees : Except.Agree Layout.Alike
      (n.addScanned (front.length + 1) (src.unlabelled :: back))
      (n'.addScanned (front.length + 2) (cut :: back)) := alike'.addScanned_agree contents
  rw [addedRest] at restAgrees
  obtain ⟨l', addedRest', alike'⟩ := restAgrees.exists_ok
  refine ⟨l', waiting, ?_, alike'⟩
  rw [ofScanned, addScanned_append, ← ofScanned, laidOutBefore, Except.ok_bind, addScanned,
    Nat.add_comm 1, addedAlone', Except.ok_bind]
  exact addedRest'

/-- The stretch of a line starts where the line finds the data. -/
theorem start_of_stretch {table : SymbolTable} {stretches : List Stretch} {s : Stretch}
    {k : Nat} {target : SourceLine} {mid : Layout}
    (data : DataOf (front ++ src :: back) table stretches) (member : s ∈ stretches)
    (index : s.index = front.length + 1 + k) (there : back[k]? = some target)
    (laidOut : ofScanned (front ++ src :: back.take k) = .ok mid) :
    mid.active = .data ∧ (mid.alignForWords target.directive?).dataLength = s.start := by
  obtain ⟨target', c, d, mid', m, there', clause, -, laidOut', entered, active, start, -⟩ :=
    data.placed s member
  rw [index, getElem?_behind, there] at there'
  rw [index, take_behind] at laidOut'
  cases there'
  cases laidOut.symm.trans laidOut'
  rw [start, dataLength_enter clause entered]
  exact ⟨active, rfl⟩

/-- With an alignment behind it, a label alone on a line waits on. -/
theorem waitingAt_split_align {between : List SourceLine} (here : src.label = some label)
    (inData : sectionAt front = .data) (align : src.directive? = some .align)
    (splits : src.SplitsInto alone cut)
    (keep : ∀ src' ∈ between, src'.keepsWaiting = true) :
    label.toString ∈ waitingAt (front ++ alone :: cut :: between) := by
  obtain ⟨label', here', spelled⟩ := splits.exists_label here
  have align' : cut.directive? = some .align := splits.directive?_cut.trans align
  have atAlone : (front ++ [alone])[front.length]? = some alone := getElem?_between front alone []
  have inFront : (front ++ [alone]).take front.length = front := List.take_left
  have whole : (front ++ [alone]).take (front.length + 1) = front ++ [alone] :=
    take_behind front alone [] 0
  obtain ⟨stillData, waits⟩ :=
    mem_waitingAt_alone atAlone here' splits.clause_alone (by rw [inFront, inData])
  rw [whole] at stillData waits
  have keepAll : ∀ src' ∈ cut :: between, src'.keepsWaiting = true :=
    List.forall_mem_cons.mpr ⟨SourceLine.keepsWaiting_iff.mpr (.inr align'), keep⟩
  have waitsOn := (mem_waitingAt_append stillData waits keepAll).2
  rw [spelled] at waitsOn
  rw [List.append_cons front alone (cut :: between)]
  exact waitsOn

/-- In front of the data that a label would wait for, the layouts differ in it alone. -/
theorem exists_layouts_in_front {k : Nat} (laidOut : ofScanned (front ++ src :: back) = .ok l)
    (here : src.label = some label) (clause : src.clause = some c)
    (splits : src.SplitsInto alone cut) (next : nextAllocation? back = some k) :
    ∃ mid mid' waiting, ofScanned (front ++ src :: back.take k) = .ok mid ∧
      ofScanned (front ++ alone :: cut :: back.take k) = .ok mid' ∧
      (mid.withWaiting waiting).Alike mid' := by
  obtain ⟨⟨target, there, -⟩, -⟩ := nextAllocation?_eq_some next
  obtain ⟨mid, -, laidOutMid, -⟩ :=
    ofScanned_split laidOut ((getElem?_behind front src back k).trans there)
  rw [take_behind] at laidOutMid
  have keeps : KeepsPlace front src (back.take k) := by
    intro _ _ _ _ k' next'
    rw [nextAllocation?_take next] at next'
    cases next'
  obtain ⟨mid', waiting, laidOutMid', alike⟩ :=
    ofScanned_split_label laidOutMid here clause keeps splits
  exact ⟨mid, mid', waiting, laidOutMid, laidOutMid', alike⟩

/-- With an alignment behind it, a label alone on a line moves on to the next data. -/
theorem value?_of_split_align {table : SymbolTable} {stretches : List Stretch} {s : Stretch}
    {k : Nat} (laidOut : ofScanned (front ++ src :: back) = .ok l)
    (laidOut' : ofScanned (front ++ alone :: cut :: back) = .ok l')
    (here : src.label = some label) (inData : sectionAt front = .data)
    (align : src.directive? = some .align) (splits : src.SplitsInto alone cut)
    (data : DataOf (front ++ src :: back) table stretches)
    (next : nextAllocation? back = some k) (member : s ∈ stretches)
    (index : s.index = front.length + 1 + k) :
    l'.symbols.value? label.toString = some (dataBase.toNat + s.start : Int) := by
  obtain ⟨⟨target, there, allocates⟩, between⟩ := nextAllocation?_eq_some next
  obtain ⟨c, clause, -⟩ := Option.bind_eq_some_iff.mp align
  obtain ⟨mid, mid', waiting, laidOutMid, laidOutMid', alike⟩ :=
    exists_layouts_in_front laidOut here clause splits next
  obtain ⟨active, start⟩ := start_of_stretch data member index there laidOutMid
  have waits := waitingAt_split_align here inData align splits between
  have split (back : List SourceLine) :
      front ++ alone :: cut :: back = front ++ [alone] ++ cut :: back :=
    List.append_cons front alone (cut :: back)
  rw [split] at laidOut' laidOutMid' waits
  have there' := (getElem?_behind (front ++ [alone]) cut back k).trans there
  obtain ⟨before, after, laidOutBefore, added, -⟩ := ofScanned_split laidOut' there'
  rw [take_behind] at laidOutBefore
  cases laidOutMid'.symm.trans laidOutBefore
  rcases addLine_cases added with ⟨none, -⟩ | ⟨c', m, clause', entered, -⟩
  · rw [SourceLine.allocates, SourceLine.directive?, none] at allocates
    cases allocates
  have active' : mid'.active = .data := alike.active_eq.symm.trans active
  have start' := (alike.alignForWords target.directive?).dataLength_eq
  rw [alignForWords_withWaiting] at start'
  rw [← waiting_eq_waitingAt laidOutMid'] at waits
  rw [← take_behind (front ++ [alone]) cut back k] at laidOutMid'
  have known := value?_of_allocates laidOut' there' laidOutMid' clause' entered active' allocates
    (.inl waits)
  rw [known, dataLength_enter clause' entered, ← start', ← start]
  rfl

end

end Layout

/-! ## Programs -/

/-- The program with the lines of its words moved down, but for the first ones. -/
def Program.movedDown (p : Program) (first : Nat) : Program :=
  { p with lines := p.lines.take first ++ (p.lines.drop first).map (· + 1) }

theorem instructionLines_unlabelled (front back : List SourceLine) (src : SourceLine) :
    instructionLines (front ++ src.unlabelled :: back) =
      instructionLines (front ++ src :: back) := by
  rw [instructionLines_append, instructionLines_append front]
  rfl

/-- The data that a label on a line of its own would wait for starts where the label stands. -/
def StandsAtNext (p : Program) (label : String) (stretches : List Stretch)
    (front back : List SourceLine) : Prop :=
  ∀ k, nextAllocation? back = some k → ∃ s ∈ stretches, s.index = front.length + 1 + k ∧
    (p.symbol? label).map UInt32.toNat = some (dataBase.toNat + s.start)

namespace Layout

variable {l l' : Layout} {p p' : Program} {front back : List SourceLine}
  {src alone cut : SourceLine} {label : Fragment} {c : Clause} {stretches : List Stretch}

/-- The program of scanned lines with one of them split behind its label. -/
theorem emit_split_label (laidOut : ofScanned (front ++ src :: back) = .ok l)
    (emitted : l.emit = .ok p) (here : src.label = some label) (clause : src.clause = some c)
    (keeps : KeepsPlace front src back) (splits : src.SplitsInto alone cut) :
    ∃ l', ofScanned (front ++ alone :: cut :: back) = .ok l' ∧
      l'.emit = .ok (p.movedDown (instructionsOf front).length) := by
  obtain ⟨l', waiting, laidOut', alike⟩ :=
    ofScanned_split_label laidOut here clause keeps splits
  have agree : Except.Agree Program.Alike l.emit l'.emit := alike.emit_agree
  rw [emitted] at agree
  obtain ⟨p', emitted', alike⟩ := agree.exists_ok
  have none : alone.instruction? = none := by
    rw [SourceLine.instruction?, splits.clause_alone]
    rfl
  have contents : (front ++ cut :: back).map SourceLine.content =
      (front ++ src.unlabelled :: back).map SourceLine.content := by
    rw [List.map_append, List.map_append, List.map_cons, List.map_cons, splits.cut_eq]
  have numbers : (p.movedDown (instructionsOf front).length).lines = p'.lines := by
    rw [Program.movedDown, lines_of_emit laidOut' emitted', lines_of_emit laidOut emitted,
      map_instructionLines_insert none, instructionLines_congr contents,
      instructionLines_unlabelled]
  have moved : (p.movedDown (instructionsOf front).length).Alike p' :=
    ⟨alike.code_eq, alike.data_eq, alike.symbols_eq⟩
  rw [moved.eq_of_lines numbers]
  exact ⟨l', laidOut', emitted'⟩

theorem location_of_data (active : l.active = .data) :
    l.location = (dataBase.toNat + l.dataLength : Nat) := by
  rw [location, active]
  rfl

/-- A label in front of an alignment stands at the end of the data in front of it. -/
theorem symbol?_of_align {before : Layout} (laidOut : ofScanned (front ++ src :: back) = .ok l)
    (emitted : l.emit = .ok p) (data : DataOf (front ++ src :: back) l.symbols stretches)
    (here : src.label = some label) (align : src.directive? = some .align)
    (laidOutBefore : ofScanned front = .ok before) (active : before.active = .data) :
    (p.symbol? label.toString).map UInt32.toNat =
      some (dataBase.toNat + before.dataLength) := by
  have known := value?_of_ofScanned_align laidOut here align laidOutBefore active
  have ends := data.ends front.length (by rw [List.length_append]; omega) before
    (by rw [List.take_left]; exact laidOutBefore)
  have inFront := data.dataEnd_filter_le laidOut (·.index < front.length)
  have fits := dataEnd_le_of_emit data laidOut emitted
  have top : dataBase.toNat + regionSize < UInt32.size := by decide
  obtain ⟨-, emissions, -, rfl⟩ := emit_eq_ok emitted
  rw [location_of_data active] at known
  exact symbol?_program_of_label laidOut (getElem?_between front src back) here known (by omega)
    emissions

/-- A label in front of an alignment keeps its place alone, if the next data starts there. -/
theorem keepsPlace_of_standsAtNext (laidOut : ofScanned (front ++ src :: back) = .ok l)
    (emitted : l.emit = .ok p) (data : DataOf (front ++ src :: back) l.symbols stretches)
    (here : src.label = some label)
    (stands : sectionAt front = .data → src.directive? = some .align →
      StandsAtNext p label.toString stretches front back) :
    KeepsPlace front src back := by
  intro before laidOutBefore active align k next target mid there laidOutMid
  have inData : sectionAt front = .data := by
    rw [← active, (follows_of_ofScanned laidOutBefore).active_eq]
  obtain ⟨s, member, index, value⟩ := stands inData align k next
  have final := symbol?_of_align laidOut emitted data here align laidOutBefore active
  have same : dataBase.toNat + before.dataLength = dataBase.toNat + s.start :=
    Option.some.inj (final.symm.trans value)
  rw [List.append_assoc] at laidOutMid
  obtain ⟨activeMid, start⟩ := start_of_stretch data member index there laidOutMid
  have activeMid' : (mid.alignForWords target.directive?).active = .data := by
    obtain ⟨dataLength, aligned⟩ := mid.alignForWords_eq target.directive?
    rw [aligned]
    exact activeMid
  rw [location_of_data activeMid', location_of_data active, start, same]

/-- A label on a line of its own in front of an alignment stands at the data behind it. -/
theorem standsAtNext_of_emit (laidOut : ofScanned (front ++ src :: back) = .ok l)
    (emitted : l.emit = .ok p) (data : DataOf (front ++ src :: back) l.symbols stretches)
    (here : src.label = some label) (inData : sectionAt front = .data)
    (align : src.directive? = some .align) (splits : src.SplitsInto alone cut)
    (laidOut' : ofScanned (front ++ alone :: cut :: back) = .ok l') (emitted' : l'.emit = .ok p')
    (same : p'.symbols = p.symbols) : StandsAtNext p label.toString stretches front back := by
  intro k next
  obtain ⟨⟨target, there, allocates⟩, -⟩ := nextAllocation?_eq_some next
  obtain ⟨s, member, index⟩ :=
    data.exists_stretch ((getElem?_behind front src back k).trans there) allocates
  refine ⟨s, member, index, ?_⟩
  have known :=
    value?_of_split_align laidOut laidOut' here inData align splits data next member index
  obtain ⟨label', here', spelled⟩ := splits.exists_label here
  have inside := stop_le_dataEnd data.ascending member
  rw [Stretch.stop] at inside
  have fits := dataEnd_le_of_emit data laidOut emitted
  have top : dataBase.toNat + regionSize < UInt32.size := by decide
  obtain ⟨-, emissions, -, rfl⟩ := emit_eq_ok emitted'
  rw [← spelled] at known ⊢
  have final := symbol?_program_of_label laidOut' (getElem?_between front alone (cut :: back)) here'
    known (by omega) emissions
  rw [Program.symbol?, ← same]
  exact final

end Layout

/-! ## Sources -/

theorem rawLines_split_label {source : String} {before after : List (List Char)}
    {front rest : List Char}
    (written : rawLines source = before ++ (front ++ ':' :: rest) :: after) :
    rawLines (sourceOf (before ++ (front ++ [':']) :: rest :: after)) =
      before ++ (front ++ [':']) :: rest :: after := by
  have apart : ∀ line ∈ before ++ (front ++ ':' :: rest) :: after, '\n' ∉ line := by
    intro line member
    rw [← written] at member
    exact notMem_of_mem_rawLines member
  simp only [List.forall_mem_append, List.forall_mem_cons] at apart
  obtain ⟨inBefore, whole, inAfter⟩ := apart
  have inFront : (front ++ [':']).Sublist (front ++ ':' :: rest) :=
    (List.Sublist.refl front).append ((List.nil_sublist rest).cons_cons ':')
  have inRest : rest.Sublist (front ++ ':' :: rest) :=
    (List.sublist_cons_self ':' rest).trans (List.sublist_append_right front _)
  refine rawLines_sourceOf ?_ (by simp)
  simp only [List.forall_mem_append, List.forall_mem_cons]
  exact ⟨inBefore, fun breaks => whole (inFront.subset breaks),
    fun breaks => whole (inRest.subset breaks), inAfter⟩

theorem SourceLine.not_isBlankLine {line : List Char}
    (found : (scan line).toOption.any (·.clause.isSome) = true) : ¬IsBlankLine line := by
  intro isBlank
  obtain ⟨src, scanned, content⟩ := isBlank.scan_eq
  have noClause : src.clause = none := Option.map_eq_none_iff.mp (Prod.mk.inj content).2
  rw [scanned] at found
  change src.clause.isSome = true at found
  rw [noClause] at found
  cases found

/-- **A label may stand on a line of its own in front of its clause.** A source with a line that is
split behind its label assembles to the same program with the lines behind the label moved down,
unless the line aligns the data section: then the label goes along with the next data, and the
programs are the same exactly when that starts where the label stood. -/
theorem assemble_split_label {source : String} {p : Program} (assembled : assemble source = .ok p)
    {before after : List (List Char)} {blanks label rest : List Char}
    (written : rawLines source = before ++ (blanks ++ label ++ ':' :: rest) :: after)
    (blank : ∀ c ∈ blanks, isAsciiBlank c = true) (named : IsIdentifier label)
    (statement : ¬IsBlankLine rest) :
    ∃ front src back l stretches, before.mapM SourceLine.scan = .ok front ∧
      SourceLine.scan (blanks ++ label ++ ':' :: rest) = .ok src ∧
      after.mapM SourceLine.scan = .ok back ∧ Layout.ofScanned (front ++ src :: back) = .ok l ∧
      DataOf (front ++ src :: back) l.symbols stretches ∧
      (assemble (sourceOf (before ++ (blanks ++ label ++ [':']) :: rest :: after)) =
          .ok (p.movedDown (instructionsOf front).length) ↔
        (sectionAt front = .data → src.directive? = some .align →
          StandsAtNext p (String.ofList label) stretches front back)) := by
  obtain ⟨lines, l, scanned, laidOut, emitted⟩ := assemble_eq_ok_iff.mp assembled
  rw [written] at scanned
  obtain ⟨front, others, scannedFront, scannedOthers, rfl⟩ :=
    Except.mapM_append_eq_ok_iff.mp scanned
  obtain ⟨src, back, scannedSrc, scannedBack, rfl⟩ := Except.mapM_cons_eq_ok_iff.mp scannedOthers
  obtain ⟨-, emissions, each, -⟩ := Layout.emit_eq_ok emitted
  obtain ⟨stretches, data, -⟩ := Layout.exists_stretches_program laidOut each
  refine ⟨front, src, back, l, stretches, scannedFront, scannedSrc, scannedBack, laidOut, data, ?_⟩
  obtain ⟨column, c, cut, shape, scannedCut, content⟩ :=
    SourceLine.scan_label_cut blank named scannedSrc statement
  obtain ⟨column', scannedAlone⟩ := SourceLine.scan_label_alone blank named
  have here : src.label = some ⟨column, label⟩ := by rw [shape]
  have clause : src.clause = some c := by rw [shape]
  have splits : src.SplitsInto { label := some ⟨column', label⟩ } cut := by
    rw [shape]
    exact ⟨rfl, content.symm⟩
  have raw := rawLines_split_label written
  have scannedSplit : (before ++ (blanks ++ label ++ [':']) :: rest :: after).mapM SourceLine.scan =
      .ok (front ++ { label := some ⟨column', label⟩ } :: cut :: back) := by
    refine Except.mapM_append_eq_ok_iff.mpr ⟨front, _, scannedFront, ?_, rfl⟩
    refine Except.mapM_cons_eq_ok_iff.mpr ⟨_, _, scannedAlone, ?_, rfl⟩
    exact Except.mapM_cons_eq_ok_iff.mpr ⟨cut, back, scannedCut, scannedBack, rfl⟩
  constructor
  · intro assembled' inData align
    obtain ⟨lines', l', scanned', laidOut', emitted'⟩ := assemble_eq_ok_iff.mp assembled'
    rw [raw] at scanned'
    cases scannedSplit.symm.trans scanned'
    exact Layout.standsAtNext_of_emit laidOut emitted data here inData align splits laidOut'
      emitted' rfl
  · intro stands
    have keeps := Layout.keepsPlace_of_standsAtNext laidOut emitted data here stands
    obtain ⟨l', laidOut', emitted'⟩ :=
      Layout.emit_split_label laidOut emitted here clause keeps splits
    rw [← raw] at scannedSplit
    exact assemble_eq_ok_iff.mpr ⟨_, l', scannedSplit, laidOut', emitted'⟩

/-- A labelled word that is aligned, and an instruction behind it. -/
def alignedWord : String :=
  ".data\n.byte 1\n  five: .word five ; at 8\n.text\nHALT"

theorem assemble_split_label_alignedWord :
    ∃ p, assemble alignedWord = .ok p ∧ p.lines = [5] ∧
      assemble ".data\n.byte 1\n  five:\n .word five ; at 8\n.text\nHALT" =
        .ok { p with lines := [6] } := by
  have found : (assemble alignedWord).toOption.map Program.lines = some [5] := by decide +kernel
  obtain ⟨p, assembled, numbers⟩ := Option.map_eq_some_iff.mp found
  rw [Except.toOption_eq_some_iff] at assembled
  have raw : rawLines alignedWord = [".data".toList, ".byte 1".toList] ++
      ("  ".toList ++ "five".toList ++ ':' :: " .word five ; at 8".toList) ::
        [".text".toList, "HALT".toList] := by
    decide +kernel
  have identifier : IsIdentifier "five".toList := ⟨⟨'f', _, rfl, rfl⟩, List.all_eq_true.mp rfl⟩
  have statement : ¬IsBlankLine " .word five ; at 8".toList :=
    SourceLine.not_isBlankLine (by decide +kernel)
  have counted : ([".data".toList, ".byte 1".toList].mapM SourceLine.scan).toOption.map
      (fun lines => (instructionsOf lines).length) = some 0 := by
    decide +kernel
  have isWord : (SourceLine.scan
      ("  ".toList ++ "five".toList ++ ':' :: " .word five ; at 8".toList)).toOption.bind
        SourceLine.directive? = some .word := by
    decide +kernel
  obtain ⟨front, src, back, l, stretches, scannedFront, scanned, -, -, -, same⟩ :=
    assemble_split_label assembled raw (List.all_eq_true.mp rfl) identifier statement
  rw [scannedFront] at counted
  rw [scanned] at isWord
  have none : (instructionsOf front).length = 0 := Option.some.inj counted
  have isWord : src.directive? = some .word := isWord
  have moved : p.movedDown 0 = { p with lines := [6] } := by
    rw [Program.movedDown, numbers]
    rfl
  rw [none, moved, isWord] at same
  have split := same.mpr fun _ isAlign => nomatch isAlign
  exact ⟨p, assembled, numbers, split⟩

/-- A label on the line of an alignment, which stands short of the data behind it. -/
def labelledAlignment : String :=
  ".data\n.byte 1\nL: .align 2\n.byte 9\n"

/-- On a line of its own, the label of the alignment goes along with the data behind it. -/
theorem assemble_labelledAlignment :
    ∃ p p', assemble labelledAlignment = .ok p ∧
      assemble ".data\n.byte 1\nL:\n .align 2\n.byte 9\n" = .ok p' ∧ p'.data = p.data ∧
      (p.symbol? "L").map UInt32.toNat = some (dataBase.toNat + 5) ∧
      (p'.symbol? "L").map UInt32.toNat = some (dataBase.toNat + 8) := by
  have joined : (assemble labelledAlignment).toOption.map (fun p => (p.data,
      (p.symbol? "L").map UInt32.toNat)) =
      some ([0, 0, 0, 0, 1, 0, 0, 0, 9], some (dataBase.toNat + 5)) := by
    decide +kernel
  have split : (assemble ".data\n.byte 1\nL:\n .align 2\n.byte 9\n").toOption.map
      (fun p => (p.data, (p.symbol? "L").map UInt32.toNat)) =
      some ([0, 0, 0, 0, 1, 0, 0, 0, 9], some (dataBase.toNat + 8)) := by
    decide +kernel
  obtain ⟨p, assembled, parts⟩ := Option.map_eq_some_iff.mp joined
  obtain ⟨p', assembled', parts'⟩ := Option.map_eq_some_iff.mp split
  rw [Except.toOption_eq_some_iff] at assembled assembled'
  obtain ⟨data, label⟩ := Prod.mk.inj parts
  obtain ⟨data', label'⟩ := Prod.mk.inj parts'
  exact ⟨p, p', assembled, assembled', data'.trans data.symm, label, label'⟩

end RobotMachine
