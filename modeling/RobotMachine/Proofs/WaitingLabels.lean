import RobotMachine.Proofs.DataContents

/-!
# Labels that wait for data

A label alone on a line of the data section waits until a directive allocates data, over lines
without a clause and alignments. Every other clause lets it stand where it is, `.global` and
definitions of constants among them, although they allocate nothing.

* `nextAllocation?`: the line that a waiting label waits for, if there is one.
* `assemble_waiting_labels`: the value of every label alone on a line of the data section.
* `assemble_detachedLabel`: a label that `.global` cuts off from the word behind it.
-/

namespace RobotMachine

/-! ## Lines behind a label -/

/-- Whether the labels that wait in the data section still wait behind the line: it has no clause,
or it aligns the data. -/
def SourceLine.keepsWaiting (src : SourceLine) : Bool :=
  src.clause.isNone || src.directive? == some .align

theorem SourceLine.keepsWaiting_iff {src : SourceLine} :
    src.keepsWaiting = true ↔ src.clause = none ∨ src.directive? = some .align := by
  rw [keepsWaiting, Bool.or_eq_true, Option.isNone_iff_eq_none, beq_iff_eq]

/-- The number of the lines in front of the next one that allocates, if no other clause than an
alignment stands among them. -/
def nextAllocation? : List SourceLine → Option Nat
  | [] => none
  | src :: lines =>
    if src.allocates then some 0
    else if src.keepsWaiting then (nextAllocation? lines).map (· + 1)
    else none

theorem nextAllocation?_eq_some {lines : List SourceLine} {k : Nat}
    (next : nextAllocation? lines = some k) :
    (∃ src, lines[k]? = some src ∧ src.allocates = true) ∧
      ∀ src ∈ lines.take k, src.keepsWaiting = true := by
  induction lines generalizing k with
  | nil => cases next
  | cons src lines ih =>
    rw [nextAllocation?] at next
    split at next
    · next allocates =>
      cases next
      exact ⟨⟨src, rfl, allocates⟩, nofun⟩
    · split at next
      · next keeps =>
        obtain ⟨k, further, rfl⟩ := Option.map_eq_some_iff.mp next
        obtain ⟨found, between⟩ := ih further
        exact ⟨found, List.forall_mem_cons.mpr ⟨keeps, between⟩⟩
      · cases next

theorem nextAllocation?_take {lines : List SourceLine} {k : Nat}
    (next : nextAllocation? lines = some k) : nextAllocation? (lines.take k) = none := by
  induction lines generalizing k with
  | nil => cases next
  | cons src lines ih =>
    rw [nextAllocation?] at next
    split at next
    · cases next
      rfl
    · next stays =>
      split at next
      · next keeps =>
        obtain ⟨k, further, rfl⟩ := Option.map_eq_some_iff.mp next
        rw [List.take_succ_cons, nextAllocation?, if_neg stays, if_pos keeps, ih further]
        rfl
      · cases next

/-- What waits in the data section still waits behind lines that keep it waiting. -/
theorem mem_waitingAt_append {front between : List SourceLine} {name : String}
    (inData : sectionAt front = .data) (waits : name ∈ waitingAt front)
    (keep : ∀ src ∈ between, src.keepsWaiting = true) :
    sectionAt (front ++ between) = .data ∧ name ∈ waitingAt (front ++ between) := by
  induction between using List.reverseRecOn with
  | nil =>
    rw [List.append_nil]
    exact ⟨inData, waits⟩
  | append_singleton between src ih =>
    obtain ⟨stillData, stillWaits⟩ := ih fun src' member => keep src' (by simp [member])
    rw [← List.append_assoc, sectionAt_concat, waitingAt_concat, stillData]
    rcases SourceLine.keepsWaiting_iff.mp (keep src (by simp)) with clause | isAlign
    · rw [SourceLine.sectionAfter, SourceLine.directive?, SourceLine.waitingAfter, clause]
      exact ⟨rfl, List.mem_append_right _ stillWaits⟩
    · obtain ⟨c, clause, -⟩ := Option.bind_eq_some_iff.mp isAlign
      rw [SourceLine.sectionAfter, SourceLine.waitingAfter, isAlign, clause]
      exact ⟨rfl, stillWaits⟩

namespace Layout

variable {l l' before after : Layout} {lines : List SourceLine} {src : SourceLine}
  {name : String} {v : Int} {line i : Nat}

/-- A symbol keeps its value if nothing is allocated before some clause lets it stand. -/
theorem value?_addScanned (none : nextAllocation? lines = none)
    (known : l.symbols.value? name = some v) (added : l.addScanned line lines = .ok l') :
    l'.symbols.value? name = some v := by
  induction lines generalizing l line with
  | nil =>
    cases added
    exact known
  | cons src lines ih =>
    obtain ⟨next, lineAdded, restAdded⟩ := Except.bind_eq_ok_iff.mp added
    rw [nextAllocation?] at none
    split at none
    · cases none
    next leaves =>
    have still := value?_addLine lineAdded known (.inr (Bool.not_eq_true _ ▸ leaves))
    split at none
    · exact ih (Option.map_eq_none_iff.mp none) still restAdded
    · next settles =>
      have settled : next.waiting = [] := by
        rw [waiting_addLine lineAdded, SourceLine.waitingAfter]
        rw [SourceLine.keepsWaiting_iff, not_or] at settles
        split
        · next clause => exact absurd clause settles.1
        · exact if_neg fun both => settles.2 both.2
      refine settledIn_of_addScanned restAdded name v ?_ still
      rw [settled]
      exact List.not_mem_nil

/-- A label alone on a line of the data section names the end of the data so far. -/
theorem value?_of_alone {label : Fragment} (added : before.addLine line src = .ok after)
    (labelled : src.label = some label) (alone : src.clause = none)
    (inData : before.active = .data) :
    after.symbols.value? label.toString = some (dataBase.toNat + before.dataLength : Int) := by
  have directive : src.directive? = none := by
    rw [SourceLine.directive?, alone]
    rfl
  rcases addLine_cases added with ⟨-, labelAdded⟩ | ⟨c, m, clause, -⟩
  · rw [directive, alignForWords_none] at labelAdded
    obtain ⟨symbols, rfl, -, labels⟩ := addLabel_eq_ok labelAdded
    have known := (labels label labelled).2
    rw [location, inData] at known
    exact known
  · rw [alone] at clause
    cases clause

end Layout

/-- A label alone on a line of the data section waits behind it. -/
theorem mem_waitingAt_alone {lines : List SourceLine} {src : SourceLine} {label : Fragment}
    {i : Nat}
    (here : lines[i]? = some src) (labelled : src.label = some label) (alone : src.clause = none)
    (inData : sectionAt (lines.take i) = .data) :
    sectionAt (lines.take (i + 1)) = .data ∧ label.toString ∈ waitingAt (lines.take (i + 1)) := by
  rw [List.take_add_one, here, Option.toList_some, sectionAt_concat, waitingAt_concat, inData,
    SourceLine.sectionAfter, SourceLine.directive?, SourceLine.waitingAfter, alone, labelled]
  exact ⟨rfl, List.mem_append_left _ List.mem_cons_self⟩

/-! ## Programs -/

theorem DataOf.exists_stretch {lines : List SourceLine} {table : SymbolTable}
    {stretches : List Stretch} {src : SourceLine} {i : Nat} (h : DataOf lines table stretches)
    (here : lines[i]? = some src) (allocates : src.allocates = true) :
    ∃ s ∈ stretches, s.index = i := by
  have places : src.placesData = true := by
    rw [SourceLine.allocates, Option.any_eq_true] at allocates
    obtain ⟨d, directive, moves⟩ := allocates
    rw [SourceLine.placesData, directive, Option.any_some, Directive.placesData, moves,
      Bool.true_or]
  have listed : i ∈ dataLines lines := by
    refine List.mem_filterMap.mpr ⟨(src, i), List.mem_zipIdx_iff_getElem?.mpr here, ?_⟩
    exact if_pos places
  rw [← h.indices_eq] at listed
  exact List.mem_map.mp listed

theorem DataOf.dataEnd_filter_le {lines : List SourceLine} {table : SymbolTable}
    {stretches : List Stretch} {l : Layout} (h : DataOf lines table stretches)
    (laidOut : Layout.ofScanned lines = .ok l) (p : Stretch → Bool) :
    dataEnd (stretches.filter p) ≤ dataEnd stretches := by
  rcases (stretches.filter p).eq_nil_or_concat' with none | ⟨front, last, some⟩
  · have mailbox := (Layout.holdsData_of_ofScanned laidOut).mailbox_le
    rw [h.dataLength_eq laidOut] at mailbox
    rw [none]
    exact mailbox
  · have member : last ∈ stretches.filter p := by
      rw [some]
      exact List.mem_concat_self
    rw [some, dataEnd_concat]
    exact stop_le_dataEnd h.ascending (List.mem_of_mem_filter member)

/-- What a label alone on a line of the data section names. Over lines without a clause and
alignments it waits for the next line that allocates, and names the first byte there. If some other
clause or the end of the source comes first, it names the end of the data in front of it. -/
theorem assemble_waiting_labels {source : String} {p : Program}
    (assembled : assemble source = .ok p) :
    ∃ lines l stretches, (linesOf source.toList).mapM SourceLine.scan = .ok lines ∧
      Layout.ofScanned lines = .ok l ∧ DataOf lines l.symbols stretches ∧
      ∀ i src label, lines[i]? = some src → src.label = some label → src.clause = none →
        sectionAt (lines.take i) = .data →
          (∀ k, nextAllocation? (lines.drop (i + 1)) = some k →
            ∃ s ∈ stretches, s.index = i + 1 + k ∧
              (p.symbol? label.toString).map UInt32.toNat = some (dataBase.toNat + s.start)) ∧
          (nextAllocation? (lines.drop (i + 1)) = none →
            (p.symbol? label.toString).map UInt32.toNat =
              some (dataBase.toNat + dataEnd (stretches.filter (·.index < i)))) := by
  obtain ⟨l, laidOut, emitted⟩ := Except.bind_eq_ok_iff.mp assembled
  obtain ⟨lines, scanned, laidOut⟩ := Layout.ofLines_eq_ok_iff.mp laidOut
  obtain ⟨sound, emissions, each, rfl⟩ := Layout.emit_eq_ok emitted
  obtain ⟨stretches, data, -⟩ := Layout.exists_stretches_program laidOut each
  have fits : dataEnd stretches ≤ regionSize := by
    rw [← data.dataLength_eq laidOut]
    exact (Layout.holdsData_of_ofScanned laidOut).fits (Layout.overflow_of_defect? sound)
  have top : dataBase.toNat + regionSize < UInt32.size := by decide
  refine ⟨lines, l, stretches, scanned, laidOut, data,
    fun i src label here labelled alone inData => ⟨fun k next => ?_, fun none => ?_⟩⟩
  · obtain ⟨⟨target, there, allocates⟩, between⟩ := nextAllocation?_eq_some next
    rw [List.getElem?_drop] at there
    obtain ⟨s, member, index⟩ := data.exists_stretch there allocates
    refine ⟨s, member, index, ?_⟩
    obtain ⟨target', c, d, before, m, there', clause, -, laidOutBefore, entered, active, start,
      -⟩ := data.placed s member
    rw [index] at there' laidOutBefore
    cases there.symm.trans there'
    obtain ⟨stillData, waits⟩ := mem_waitingAt_alone here labelled alone inData
    have waitsThere := (mem_waitingAt_append stillData waits between).2
    rw [← List.take_add, ← Layout.waiting_eq_waitingAt laidOutBefore] at waitsThere
    have known := Layout.value?_of_allocates laidOut there laidOutBefore clause entered active
      allocates (.inl waitsThere)
    rw [← start] at known
    refine Layout.symbol?_program_of_label laidOut here labelled known ?_ emissions
    have inside := stop_le_dataEnd data.ascending member
    rw [Stretch.stop] at inside
    omega
  · obtain ⟨before, after, laidOutBefore, added, restAdded⟩ := Layout.ofScanned_split laidOut here
    have active : before.active = .data := by
      rw [(Layout.follows_of_ofScanned laidOutBefore).active_eq, inData]
    have known := Layout.value?_addScanned none
      (Layout.value?_of_alone added labelled alone active) restAdded
    have bound := (List.getElem?_eq_some_iff.mp here).1
    have ends := data.ends i (Nat.le_of_lt bound) before laidOutBefore
    rw [ends] at known
    refine Layout.symbol?_program_of_label laidOut here labelled known ?_ emissions
    have inFront := data.dataEnd_filter_le laidOut (·.index < i)
    omega

/-- Two labels that wait over an alignment for a word, and one that a constant lets stand. -/
def waitingSource : String :=
  ".data\n.byte 1\nouter:\n\ninner: ; both wait\n.align 3\n.word 5\nlast:\n.equ size, 4\n.word 6"

theorem assemble_waiting_labels_waitingSource :
    ∃ (p : Program) (lines : List SourceLine) (l : Layout) (stretches : List Stretch),
      assemble waitingSource = .ok p ∧ DataOf lines l.symbols stretches ∧
      (∃ s ∈ stretches, s.index = 6 ∧
        (p.symbol? "outer").map UInt32.toNat = some (dataBase.toNat + s.start)) ∧
      (p.symbol? "last").map UInt32.toNat =
        some (dataBase.toNat + dataEnd (stretches.filter (·.index < 7))) := by
  have found : (assemble waitingSource).toOption.isSome = true := by
    decide +kernel
  obtain ⟨p, assembled⟩ := Option.isSome_iff_exists.mp found
  rw [Except.toOption_eq_some_iff] at assembled
  obtain ⟨lines, l, stretches, scanned, -, data, labels⟩ := assemble_waiting_labels assembled
  have labelled : ((linesOf waitingSource.toList).mapM SourceLine.scan).toOption.map
      (fun lines => (lines[2]?, lines[7]?)) =
      some (some ⟨some ⟨1, ['o', 'u', 't', 'e', 'r']⟩, none⟩,
        some ⟨some ⟨1, ['l', 'a', 's', 't']⟩, none⟩) := by
    decide +kernel
  have sections : ((linesOf waitingSource.toList).mapM SourceLine.scan).toOption.map
      (fun lines => (sectionAt (lines.take 2), sectionAt (lines.take 7))) =
      some (.data, .data) := by
    decide +kernel
  have next : ((linesOf waitingSource.toList).mapM SourceLine.scan).toOption.map
      (fun lines => (nextAllocation? (lines.drop 3), nextAllocation? (lines.drop 8))) =
      some (some 3, none) := by
    decide +kernel
  rw [scanned] at labelled sections next
  simp only [Except.toOption, Option.map_some, Option.some.injEq, Prod.mk.injEq]
    at labelled sections next
  obtain ⟨outer, last⟩ := labelled
  exact ⟨p, lines, l, stretches, assembled, data,
    (labels 2 _ _ outer rfl rfl sections.1).1 3 next.1,
    (labels 7 _ _ last rfl rfl sections.2).2 next.2⟩

/-- A label on a line of its own, with a word behind a directive that allocates nothing. -/
def detachedLabel : String :=
  ".data\n.byte 1\nw:\n.global w\n.word 5\n"

/-- The word behind `.global` is aligned, but the label in front of it stays where it stood, three
bytes short of the word. -/
theorem assemble_detachedLabel :
    ∃ p, assemble detachedLabel = .ok p ∧ p.data.drop 8 = wordBytes 5 ∧
      (p.symbol? "w").map UInt32.toNat = some (dataBase.toNat + 5) := by
  have found : (assemble detachedLabel).toOption.map (fun p => (p.data.drop 8,
      (p.symbol? "w").map UInt32.toNat)) = some (wordBytes 5, some (dataBase.toNat + 5)) := by
    decide +kernel
  obtain ⟨p, assembled, parts⟩ := Option.map_eq_some_iff.mp found
  rw [Except.toOption_eq_some_iff] at assembled
  obtain ⟨word, label⟩ := Prod.mk.inj parts
  exact ⟨p, assembled, word, label⟩

end RobotMachine
