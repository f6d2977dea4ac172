import RobotMachine.Proofs.WaitingLabels

/-!
# Layouts with one more waiting label

A label that stands where the next data is allocated can as well wait for it. Over lines that keep
labels waiting, the layout in which it waits differs from the other one in nothing else, and the
line that allocates settles the label where it stands.

* `Layout.WaitsMore.addLine`: kept by a line over which labels wait.
* `Layout.WaitsMore.addScanned`: over all lines, if the label stands at the next data.
-/

namespace RobotMachine

/-! ## Moved symbols -/

/-- It does not matter whether a symbol is moved that has the new value already. -/
theorem SymbolTable.move_congr {table : SymbolTable} {names names' : List String} {v : Int}
    (same : ∀ entry ∈ table, entry.2 = v ∨ (entry.1 ∈ names ↔ entry.1 ∈ names')) :
    table.move names v = table.move names' v := by
  refine List.map_congr_left fun (name, old) member => ?_
  rcases same (name, old) member with there | moves
  · have there : old = v := there
    simp only [there, ite_self]
  · have moves : name ∈ names ↔ name ∈ names' := moves
    simp only [moves]

namespace Layout

variable {l l' m : Layout} {src : SourceLine} {label : Fragment} {c : Clause} {line : Nat}
  {name : String} {d : Option Directive}

/-! ## One line -/

/-- Whether a name can be defined depends on the symbols alone. -/
theorem define_of_define {f : Fragment} {v : Int} (defined : l.define f v = .ok l')
    (same : m.symbols = l.symbols) (w : Int) :
    m.define f w = .ok { m with symbols := (f.toString, w) :: m.symbols } := by
  rw [define] at defined ⊢
  rw [same]
  split at defined
  · cases defined
  · next noRegister =>
    rw [if_neg noRegister]
    split at defined
    · cases defined
    · next free => rw [if_neg free]

/-- A label in front of a clause is new and names the location. -/
theorem addLabel_of_clause (clause : src.clause = some c) (added : l.addLabel src = .ok m) :
    ∃ new, m = { l with symbols := new ++ l.symbols } ∧ ∀ entry ∈ new, entry.2 = l.location := by
  rw [addLabel] at added
  cases here : src.label with
  | none =>
    rw [here] at added
    cases added
    exact ⟨[], rfl, List.forall_mem_nil _⟩
  | some label =>
    simp only [here, clause, Option.isNone_some, Bool.false_eq_true, and_false, if_false] at added
    obtain ⟨_, defined, same⟩ := Except.bind_eq_ok_iff.mp added
    obtain ⟨-, rfl⟩ := define_eq_ok defined
    cases same
    exact ⟨[(label.toString, l.location)], rfl, List.forall_mem_singleton.mpr rfl⟩

theorem alignForWords_align (l : Layout) : l.alignForWords (some .align) = l :=
  if_neg fun word => nomatch word.2

theorem settleWaiting_align (inData : l.active = .data) : l.settleWaiting (some .align) = l :=
  if_pos ⟨inData, rfl⟩

theorem waiting_of_align (inData : l.active = .data) (align : src.directive? = some .align)
    (added : l.addLine line src = .ok l') : l'.waiting = l.waiting := by
  obtain ⟨c, clause, -⟩ := Option.bind_eq_some_iff.mp align
  rw [waiting_addLine added, SourceLine.waitingAfter, clause]
  exact if_pos ⟨inData, align⟩

/-! ## Other waiting labels -/

/-- The layout with other labels that wait. -/
def withWaiting (l : Layout) (waiting : List String) : Layout :=
  { l with waiting }

variable {waiting : List String}

theorem alignForWords_withWaiting (l : Layout) (d : Option Directive) :
    (l.withWaiting waiting).alignForWords d = (l.alignForWords d).withWaiting waiting := by
  rw [alignForWords, alignForWords]
  change (if l.active = .data ∧ d = some .word then _ else _) = _
  split <;> rfl

theorem define_withWaiting (l : Layout) (f : Fragment) (v : Int) :
    (l.withWaiting waiting).define f v = (l.define f v).map (·.withWaiting waiting) := by
  rw [define, define]
  change (if (Register.ofName? f.text).isSome then _ else if l.symbols.isTaken f.toString then _
    else _) = _
  split
  · rfl
  · split <;> rfl

/-- A label in front of a clause does not wait. -/
theorem addLabel_withWaiting (clause : src.clause = some c) (l : Layout) :
    (l.withWaiting waiting).addLabel src = (l.addLabel src).map (·.withWaiting waiting) := by
  rw [addLabel, addLabel]
  cases src.label with
  | none => rfl
  | some label =>
    simp only [clause, Option.isNone_some, Bool.false_eq_true, and_false, if_false]
    change (l.withWaiting waiting).define label l.location >>= _ = _
    rw [define_withWaiting]
    cases l.define label l.location <;> rfl

theorem addRoom_withWaiting (l : Layout) (d : Directive) (amount : Fragment) :
    (l.withWaiting waiting).addRoom d amount =
      (l.addRoom d amount).map (·.withWaiting waiting) := by
  rw [addRoom, addRoom]
  cases Expression.parse amount with
  | error e => rfl
  | ok e =>
    change (e.evaluate l.symbols >>= _) = Except.map _ (e.evaluate l.symbols >>= _)
    cases e.evaluate l.symbols with
    | error e => rfl
    | ok v =>
      simp only [Except.ok_bind]
      split
      · split <;> rfl
      · split <;> rfl

/-- An alignment goes on with the labels that wait. -/
theorem addDirective_align_withWaiting (l : Layout) (line : Nat) (c : Clause) :
    (l.withWaiting waiting).addDirective line .align c =
      (l.addDirective line .align c).map (·.withWaiting waiting) := by
  change (l.withWaiting waiting).addDataDirective line .align c =
    (l.addDataDirective line .align c).map _
  obtain ⟨head, operands⟩ := c
  rw [addDataDirective, addDataDirective]
  by_cases inData : l.active = .data
  · have inData' : ¬(l.withWaiting waiting).active ≠ .data := not_not.mpr inData
    rw [if_neg inData', if_neg (not_not.mpr inData)]
    cases operands with
    | nil => rfl
    | cons amount others =>
      cases others with
      | nil =>
        change ((l.withWaiting waiting).addRoom .align amount >>= _) =
          Except.map _ (l.addRoom .align amount >>= _)
        rw [addRoom_withWaiting]
        cases l.addRoom .align amount with
        | error e => rfl
        | ok grown =>
          change Except.ok (if grown.dataLength ≤ regionSize then _ else _) =
            Except.ok (withWaiting (if grown.dataLength ≤ regionSize then _ else _) waiting)
          split <;> rfl
      | cons second others => rfl
  · have inText : (l.withWaiting waiting).active ≠ .data := inData
    rw [if_pos inText, if_pos inData]
    rfl

theorem settleWaiting_align_withWaiting (inData : l.active = .data) (waiting : List String) :
    (l.withWaiting waiting).settleWaiting (some .align) =
      (l.settleWaiting (some .align)).withWaiting waiting := by
  have inData' : (l.withWaiting waiting).active = .data := inData
  rw [settleWaiting_align inData, settleWaiting_align inData']

/-- Settling the labels does not depend on whether one waits that stands at the location. -/
theorem settleWaiting_withWaiting (notAlign : d ≠ some .align)
    (same : d.any Directive.allocates = true → ∀ entry ∈ l.symbols,
      entry.2 = l.location ∨ (entry.1 ∈ waiting ↔ entry.1 ∈ l.waiting)) :
    (l.withWaiting waiting).settleWaiting d = l.settleWaiting d := by
  have settles : ¬(l.active = .data ∧ d = some .align) := fun both => notAlign both.2
  have settles' : ¬((l.withWaiting waiting).active = .data ∧ d = some .align) := settles
  rw [settleWaiting, settleWaiting, if_neg settles, if_neg settles']
  by_cases moves : l.active = .data ∧ d.any Directive.allocates = true
  · have moves' : (l.withWaiting waiting).active = .data ∧ d.any Directive.allocates = true := moves
    have symbols : l.symbols.move waiting l.location = l.symbols.move l.waiting l.location :=
      SymbolTable.move_congr (same moves.2)
    rw [if_pos moves, if_pos moves', ← symbols]
    rfl
  · have stays : ¬((l.withWaiting waiting).active = .data ∧ d.any Directive.allocates = true) :=
      moves
    rw [if_neg moves, if_neg stays]
    rfl

/-- An alignment that enters a layout with other waiting labels leaves one with them. -/
theorem addLine_align_withWaiting {src' : SourceLine} (clause : src'.clause = src.clause)
    (align : src.directive? = some .align)
    (entered : m.enter src' = (l.enter src).map (·.withWaiting waiting))
    (added : l.addLine line src = .ok l') :
    m.addLine line src' = .ok (l'.withWaiting waiting) := by
  have align' : src'.directive? = some .align := by
    rw [← align, SourceLine.directive?, clause]
    rfl
  obtain ⟨c, here, -⟩ := Option.bind_eq_some_iff.mp align
  rw [addLine_eq_enter here, align] at added
  obtain ⟨n, entersThere, added⟩ := Except.bind_eq_ok_iff.mp added
  have added : n.addDirective line .align c = .ok l' := added
  rw [addLine_eq_enter (clause.trans here), entered, entersThere, align', Except.ok_map,
    Except.ok_bind]
  dsimp only
  rw [addDirective_align_withWaiting, added]
  rfl

/-! ## One more waiting label -/

/-- The layouts are the same, but one more label waits in the second. -/
def WaitsMore (name : String) (l m : Layout) : Prop :=
  ∃ waiting, m = l.withWaiting waiting ∧ ∀ other, other ∈ waiting ↔ other = name ∨ other ∈ l.waiting

/-- A label waits on over a line without a clause, together with the label of the line. -/
theorem WaitsMore.addLine_of_noClause (more : WaitsMore name l m) (inData : l.active = .data)
    (clause : src.clause = none) (added : l.addLine line src = .ok l') :
    ∃ m', m.addLine line src = .ok m' ∧ WaitsMore name l' m' := by
  obtain ⟨waiting, rfl, mem_iff⟩ := more
  have marks (l : Layout) : l.addLine line src = l.addLabel src := by
    rw [Layout.addLine, clause, Option.bind_none, alignForWords_none]
    cases l.addLabel src <;> rfl
  rw [marks] at added ⊢
  rw [addLabel] at added ⊢
  cases here : src.label with
  | none =>
    rw [here] at added
    cases added
    exact ⟨_, rfl, waiting, rfl, mem_iff⟩
  | some label =>
    have waits : l.active = .data ∧ src.clause.isNone = true := ⟨inData, by rw [clause]; rfl⟩
    have waits' : (l.withWaiting waiting).active = .data ∧ src.clause.isNone = true := waits
    simp only [here, if_pos waits] at added
    obtain ⟨_, defined, same⟩ := Except.bind_eq_ok_iff.mp added
    obtain ⟨-, rfl⟩ := define_eq_ok defined
    cases same
    have defined' := define_of_define (m := l.withWaiting waiting) defined rfl l.location
    have location : (l.withWaiting waiting).location = l.location := rfl
    simp only [if_pos waits', location, defined', Except.ok_bind]
    refine ⟨_, rfl, label.toString :: waiting, rfl, fun other => ?_⟩
    simp only [List.mem_cons, mem_iff]
    exact or_left_comm

/-- A label waits on over an alignment. -/
theorem WaitsMore.addLine_align (more : WaitsMore name l m) (inData : l.active = .data)
    (align : src.directive? = some .align) (added : l.addLine line src = .ok l') :
    ∃ m', m.addLine line src = .ok m' ∧ WaitsMore name l' m' := by
  obtain ⟨waiting, rfl, mem_iff⟩ := more
  obtain ⟨c, clause, -⟩ := Option.bind_eq_some_iff.mp align
  have enters : (l.withWaiting waiting).enter src = (l.enter src).map (·.withWaiting waiting) := by
    rw [enter, enter, alignForWords_withWaiting, addLabel_withWaiting clause, align]
    cases labelAdded : (l.alignForWords (some .align)).addLabel src with
    | error e => rfl
    | ok n =>
      obtain ⟨new, same, -⟩ := addLabel_of_clause clause labelAdded
      have inData' : n.active = .data := by
        rw [same, alignForWords_align]
        exact inData
      exact congrArg Except.ok (settleWaiting_align_withWaiting inData' waiting)
  refine ⟨_, addLine_align_withWaiting rfl align enters added, _, rfl, ?_⟩
  rwa [waiting_of_align inData align added]

/-- A label waits on over a line that keeps it waiting. -/
theorem WaitsMore.addLine (more : WaitsMore name l m) (inData : l.active = .data)
    (keeps : src.keepsWaiting = true) (added : l.addLine line src = .ok l') :
    ∃ m', m.addLine line src = .ok m' ∧ WaitsMore name l' m' := by
  rcases SourceLine.keepsWaiting_iff.mp keeps with clause | align
  · exact more.addLine_of_noClause inData clause added
  · exact more.addLine_align inData align added

/-- A clause that settles the labels finds the same if one that waits stands there already. -/
theorem WaitsMore.enter_eq {v : Int} (more : WaitsMore name l m) (clause : src.clause = some c)
    (settles : src.directive? ≠ some .align) (nodup : (l.symbols.map (·.1)).Nodup)
    (known : (name, v) ∈ l.symbols)
    (lands : src.allocates = true → (l.alignForWords src.directive?).location = v) :
    m.enter src = l.enter src := by
  obtain ⟨waiting, rfl, mem_iff⟩ := more
  rw [enter, enter, alignForWords_withWaiting, addLabel_withWaiting clause]
  cases labelAdded : (l.alignForWords src.directive?).addLabel src with
  | error e => rfl
  | ok n =>
    obtain ⟨dataLength, aligned⟩ := l.alignForWords_eq src.directive?
    rw [aligned] at labelAdded lands
    obtain ⟨new, rfl, there⟩ := addLabel_of_clause clause labelAdded
    refine congrArg Except.ok (settleWaiting_withWaiting settles fun allocates entry member => ?_)
    have lands := lands allocates
    rcases List.mem_append.mp member with isNew | old
    · exact .inl (there entry isNew)
    · by_cases named : entry.1 = name
      · left
        have found := lookup_eq_some_of_mem nodup known
        obtain ⟨key, w⟩ := entry
        cases named
        cases (lookup_eq_some_of_mem nodup old).symm.trans found
        exact lands.symm
      · right
        rw [mem_iff]
        exact or_iff_right named

/-! ## All lines -/

theorem active_of_keepsWaiting {front : List SourceLine} (laidOut : ofScanned front = .ok l)
    (laidOut' : ofScanned (front ++ [src]) = .ok l') (keeps : src.keepsWaiting = true) :
    l'.active = l.active := by
  rw [(follows_of_ofScanned laidOut').active_eq, (follows_of_ofScanned laidOut).active_eq,
    sectionAt_concat, SourceLine.sectionAfter]
  rcases SourceLine.keepsWaiting_iff.mp keeps with clause | align
  · rw [SourceLine.directive?, clause]
    rfl
  · rw [align]

theorem allocates_of_keepsWaiting (keeps : src.keepsWaiting = true) : src.allocates = false := by
  rw [SourceLine.allocates]
  rcases SourceLine.keepsWaiting_iff.mp keeps with clause | align
  · rw [SourceLine.directive?, clause]
    rfl
  · rw [align]
    rfl

/-- The data that the lines behind some others allocate next, if they do, goes to the address. -/
def LandsAt (front lines : List SourceLine) (v : Int) : Prop :=
  ∀ k, nextAllocation? lines = some k → ∀ src before, lines[k]? = some src →
    ofScanned (front ++ lines.take k) = .ok before →
    (before.alignForWords src.directive?).location = v

theorem LandsAt.behind {front lines : List SourceLine} {v : Int}
    (lands : LandsAt front (src :: lines) v) (keeps : src.keepsWaiting = true) :
    LandsAt (front ++ [src]) lines v := by
  intro k further target before there laidOut
  rw [List.append_assoc] at laidOut
  refine lands (k + 1) ?_ target before there laidOut
  have none : ¬src.allocates = true := by
    rw [allocates_of_keepsWaiting keeps]
    exact Bool.false_ne_true
  rw [nextAllocation?, if_neg none, if_pos keeps, further]
  rfl

/-- It makes no difference whether a label waits for data that is allocated where it stands. -/
theorem WaitsMore.addScanned {front lines : List SourceLine} {v : Int}
    (more : WaitsMore name l m) (laidOut : ofScanned front = .ok l) (inData : l.active = .data)
    (known : l.symbols.value? name = some v) (notMailbox : name ≠ SymbolTable.mailboxName)
    (stands : name ∉ l.waiting) (lands : LandsAt front lines v)
    (added : l.addScanned (front.length + 1) lines = .ok l') :
    ∃ waiting, m.addScanned (front.length + 1) lines = .ok (l'.withWaiting waiting) := by
  induction lines generalizing front l m with
  | nil =>
    cases added
    obtain ⟨waiting, rfl, -⟩ := more
    exact ⟨waiting, rfl⟩
  | cons src lines ih =>
    obtain ⟨next, lineAdded, restAdded⟩ := Except.bind_eq_ok_iff.mp added
    cases keeps : src.keepsWaiting with
    | true =>
      have none := allocates_of_keepsWaiting keeps
      have laidOut' : ofScanned (front ++ [src]) = .ok next :=
        ofScanned_concat_eq_ok_iff.mpr ⟨l, laidOut, lineAdded⟩
      have length : (front ++ [src]).length = front.length + 1 := List.length_append
      obtain ⟨m', lineAdded', more'⟩ := more.addLine inData keeps lineAdded
      rw [← length] at restAdded
      obtain ⟨waiting, restAdded'⟩ := ih more' laidOut'
        ((active_of_keepsWaiting laidOut laidOut' keeps).trans inData)
        (value?_addLine lineAdded known (.inr none))
        (notMem_waiting_addLine lineAdded known stands) (lands.behind keeps) restAdded
      refine ⟨waiting, ?_⟩
      rw [Layout.addScanned, lineAdded', Except.ok_bind, ← length]
      exact restAdded'
    | false =>
      have nodup := (follows_of_ofScanned laidOut).labels.nodup
      obtain ⟨some, settles⟩ :=
        not_or.mp (mt SourceLine.keepsWaiting_iff.mpr (Bool.eq_false_iff.mp keeps))
      obtain ⟨c, clause⟩ := Option.ne_none_iff_exists'.mp some
      have here : src.allocates = true → (l.alignForWords src.directive?).location = v := by
        intro allocates
        refine lands 0 (if_pos allocates) src l rfl ?_
        rw [List.take_zero, List.append_nil]
        exact laidOut
      have same := more.enter_eq clause settles nodup
        (SymbolTable.mem_of_value? known notMailbox) here
      refine ⟨l'.waiting, ?_⟩
      rw [Layout.addScanned, addLine_eq_enter clause, same, ← addLine_eq_enter clause, lineAdded]
      exact restAdded

end Layout

end RobotMachine
