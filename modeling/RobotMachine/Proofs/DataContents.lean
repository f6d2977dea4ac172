import RobotMachine.Proofs.DataStretches

/-!
# The data of an assembled source

The stretches of data follow one another from the mailbox on, one for each line that allocates or
aligns. The data of a program holds in every stretch what the directive of its line asks for, and
nothing else.

* `DataOf`: the stretches of scanned lines, with what is known of each.
* `Layout.exists_stretches`: preserved by every line, with the bytes that the second look puts
  there.
* `assemble_data_contents`: the layout and the contents of the data of a program.
-/

namespace RobotMachine

/-- The stretch of the data that a line of a source takes up. `index` is the number of the lines in
front of it. -/
structure Stretch where
  index : Nat
  start : Nat
  bytes : List UInt8
  deriving DecidableEq, Repr

/-- The offset behind a stretch. -/
def Stretch.stop (s : Stretch) : Nat :=
  s.start + s.bytes.length

/-- Where the data ends with some stretches: behind the last of them, or behind the mailbox. -/
def dataEnd (stretches : List Stretch) : Nat :=
  (stretches.getLast?.map Stretch.stop).getD wordSize

/-- The indices of the lines that allocate or align data. -/
def dataLines (lines : List SourceLine) : List Nat :=
  lines.zipIdx.filterMap fun (src, i) => if src.placesData then some i else none

/-- The stretch begins where the directive of its line finds the data, and holds what it asks
for. -/
def Stretch.IsPlaced (lines : List SourceLine) (table : SymbolTable) (s : Stretch) : Prop :=
  ∃ src c d before m, lines[s.index]? = some src ∧ src.clause = some c ∧
    src.directive? = some d ∧ Layout.ofScanned (lines.take s.index) = .ok before ∧
    before.enter src = .ok m ∧ before.active = .data ∧ s.start = m.dataLength ∧
    c.Fills m.symbols table s.start d s.bytes

/-- The stretches of scanned lines, one for each line that allocates or aligns data: they ascend
from the mailbox on, and what stands in front of a line ends with the stretches in front of it. -/
structure DataOf (lines : List SourceLine) (table : SymbolTable) (stretches : List Stretch) :
    Prop where
  indices_eq : stretches.map Stretch.index = dataLines lines
  placed : ∀ s ∈ stretches, s.IsPlaced lines table
  ascending : stretches.Pairwise fun s s' => s.stop ≤ s'.start
  mailbox_le : ∀ s ∈ stretches, wordSize ≤ s.start
  ends : ∀ i ≤ lines.length, ∀ before, Layout.ofScanned (lines.take i) = .ok before →
    before.dataLength = dataEnd (stretches.filter (·.index < i))

/-- The image holds the bytes of each stretch in its place, and zeros everywhere else. -/
structure HoldsStretches (image : List UInt8) (stretches : List Stretch) : Prop where
  stands : ∀ s ∈ stretches, ∀ i b, s.bytes[i]? = some b → image[s.start + i]? = some b
  blank : ∀ k b, image[k]? = some b → (∀ s ∈ stretches, k < s.start ∨ s.stop ≤ k) → b = 0

/-! ## Stretches -/

theorem dataEnd_concat (stretches : List Stretch) (s : Stretch) :
    dataEnd (stretches ++ [s]) = s.stop := by
  rw [dataEnd, List.getLast?_concat]
  rfl

theorem dataLines_concat (lines : List SourceLine) (src : SourceLine) :
    dataLines (lines ++ [src]) =
      dataLines lines ++ if src.placesData then [lines.length] else [] := by
  rw [dataLines, List.zipIdx_append, List.filterMap_append, Nat.zero_add]
  cases places : src.placesData <;> simp [dataLines, places]

theorem stop_le_dataEnd {stretches : List Stretch} {s : Stretch}
    (ascending : stretches.Pairwise fun s s' => s.stop ≤ s'.start) (member : s ∈ stretches) :
    s.stop ≤ dataEnd stretches := by
  obtain ⟨front, last, rfl⟩ := stretches.eq_nil_or_concat'.resolve_left (List.ne_nil_of_mem member)
  rw [dataEnd_concat]
  rcases List.mem_append.mp member with before | here
  · have order := (List.pairwise_append.mp ascending).2.2 s before last List.mem_cons_self
    exact Nat.le_trans order (Nat.le_add_right _ _)
  · cases List.mem_singleton.mp here
    exact Nat.le_refl _

variable {lines : List SourceLine} {src : SourceLine} {table : SymbolTable}
  {stretches : List Stretch} {s : Stretch} {l l' : Layout}

theorem Stretch.IsPlaced.index_lt (placed : s.IsPlaced lines table) :
    s.index < lines.length := by
  obtain ⟨src, c, d, before, m, here, -⟩ := placed
  exact (List.getElem?_eq_some_iff.mp here).1

theorem Stretch.IsPlaced.concat (placed : s.IsPlaced lines table) (src : SourceLine) :
    s.IsPlaced (lines ++ [src]) table := by
  have inside := placed.index_lt
  obtain ⟨here, c, d, before, m, found, rest⟩ := placed
  refine ⟨here, c, d, before, m, ?_, ?_⟩
  · rw [List.getElem?_append_left inside]
    exact found
  · rw [List.take_append_of_le_length (Nat.le_of_lt inside)]
    exact rest

namespace DataOf

theorem empty (table : SymbolTable) : DataOf [] table [] := by
  refine ⟨rfl, nofun, .nil, nofun, fun i none before laidOut => ?_⟩
  rw [List.take_nil] at laidOut
  cases laidOut
  rfl

theorem filter_length (h : DataOf lines table stretches) :
    stretches.filter (·.index < lines.length) = stretches :=
  List.filter_eq_self.mpr fun s member => decide_eq_true (h.placed s member).index_lt

theorem dataLength_eq (h : DataOf lines table stretches)
    (laidOut : Layout.ofScanned lines = .ok l) :
    l.dataLength = dataEnd stretches := by
  have ends := h.ends lines.length (Nat.le_refl _) l (by rw [List.take_length]; exact laidOut)
  rw [h.filter_length] at ends
  exact ends

/-- With one more line, the data in front of the others ends as before. -/
theorem ends_concat (h : DataOf lines table stretches) (laidOut : Layout.ofScanned lines = .ok l)
    (added : l.addLine (lines.length + 1) src = .ok l') {stretches' : List Stretch}
    (last : l'.dataLength = dataEnd stretches')
    (inside : ∀ s ∈ stretches', s.index < lines.length + 1)
    (front : ∀ i ≤ lines.length,
      stretches'.filter (·.index < i) = stretches.filter (·.index < i)) :
    ∀ i ≤ (lines ++ [src]).length, ∀ before, Layout.ofScanned ((lines ++ [src]).take i) =
      .ok before → before.dataLength = dataEnd (stretches'.filter (·.index < i)) := by
  intro i bound before laidOutBefore
  rcases Nat.lt_or_ge lines.length i with behind | within
  · have whole : (lines ++ [src]).take i = lines ++ [src] := by
      refine List.take_of_length_le ?_
      rw [List.length_append]
      exact behind
    have all : stretches'.filter (·.index < i) = stretches' :=
      List.filter_eq_self.mpr fun s member =>
        decide_eq_true (Nat.lt_of_lt_of_le (inside s member) behind)
    rw [whole, Layout.ofScanned_concat_eq_ok_iff] at laidOutBefore
    obtain ⟨l₀, laidOut₀, added₀⟩ := laidOutBefore
    cases laidOut.symm.trans laidOut₀
    cases added.symm.trans added₀
    rw [all, last]
  · rw [List.take_append_of_le_length within] at laidOutBefore
    rw [front i within]
    exact h.ends i within before laidOutBefore

/-- A line that leaves the data alone adds no stretch. -/
theorem skip (h : DataOf lines table stretches) (laidOut : Layout.ofScanned lines = .ok l)
    (none : src.placesData = false) (added : l.addLine (lines.length + 1) src = .ok l') :
    DataOf (lines ++ [src]) table stretches := by
  have indices := dataLines_concat lines src
  rw [none, if_neg Bool.false_ne_true, List.append_nil] at indices
  refine ⟨h.indices_eq.trans indices.symm, fun s member => (h.placed s member).concat src,
    h.ascending, h.mailbox_le, h.ends_concat laidOut added ?_ ?_ fun _ _ => rfl⟩
  · rw [(Layout.addLine_of_not_placesData none added).1, h.dataLength_eq laidOut]
  · exact fun s member => Nat.lt_succ_of_lt (h.placed s member).index_lt

/-- A line that allocates or aligns adds a stretch behind the others. -/
theorem concat (h : DataOf lines table stretches) (laidOut : Layout.ofScanned lines = .ok l)
    (places : src.placesData = true) (added : l.addLine (lines.length + 1) src = .ok l')
    (index : s.index = lines.length) (placed : s.IsPlaced (lines ++ [src]) table)
    (behind : l.dataLength ≤ s.start) (stop : l'.dataLength = s.stop)
    (mailbox : wordSize ≤ s.start) :
    DataOf (lines ++ [src]) table (stretches ++ [s]) := by
  have indices := dataLines_concat lines src
  rw [if_pos places] at indices
  refine ⟨?_, ?_, ?_, ?_, h.ends_concat laidOut added ?_ ?_ fun i within => ?_⟩
  · rw [List.map_append, h.indices_eq, indices, List.map_singleton, index]
  · refine List.forall_mem_append.mpr ⟨fun s' old => (h.placed s' old).concat src, ?_⟩
    exact List.forall_mem_singleton.mpr placed
  · refine List.pairwise_append.mpr ⟨h.ascending, List.pairwise_singleton _ _, fun s' old => ?_⟩
    have inFront := stop_le_dataEnd h.ascending old
    rw [← h.dataLength_eq laidOut] at inFront
    exact List.forall_mem_singleton.mpr (Nat.le_trans inFront behind)
  · exact List.forall_mem_append.mpr ⟨h.mailbox_le, List.forall_mem_singleton.mpr mailbox⟩
  · rw [dataEnd_concat, stop]
  · refine List.forall_mem_append.mpr ⟨fun s' old => ?_, List.forall_mem_singleton.mpr ?_⟩
    · exact Nat.lt_succ_of_lt (h.placed s' old).index_lt
    · exact Nat.lt_succ_of_le (Nat.le_of_eq index)
  · have none : [s].filter (·.index < i) = [] := by
      rw [List.filter_cons_of_neg (by rw [index, decide_eq_true_eq]; omega), List.filter_nil]
    rw [List.filter_append, none, List.append_nil]

end DataOf

/-! ## Bytes -/

namespace Emission

variable {image : List UInt8} {offset : Nat} {bytes : List UInt8}

theorem getElem?_putInto_inside (room : offset + bytes.length ≤ image.length) {i : Nat}
    (inside : i < bytes.length) :
    (putInto image (.data offset bytes))[offset + i]? = bytes[i]? := by
  have front : (image.take offset).length = offset := by
    rw [List.length_take]
    omega
  rw [putInto, List.append_assoc, List.getElem?_append_right (by omega), front,
    Nat.add_sub_cancel_left, List.getElem?_append_left inside]

theorem getElem?_putInto_outside (room : offset + bytes.length ≤ image.length) {k : Nat}
    (outside : k < offset ∨ offset + bytes.length ≤ k) :
    (putInto image (.data offset bytes))[k]? = image[k]? := by
  have front : (image.take offset).length = offset := by
    rw [List.length_take]
    omega
  rcases outside with before | behind
  · rw [putInto, List.append_assoc, List.getElem?_append_left (by omega),
      List.getElem?_take_of_lt before]
  · have both : (image.take offset ++ bytes).length = offset + bytes.length := by
      rw [List.length_append, front]
    rw [putInto, List.getElem?_append_right (by omega), both, List.getElem?_drop,
      Nat.add_sub_cancel' behind]

end Emission

namespace HoldsStretches

variable {image : List UInt8}

theorem replicate (n : Nat) : HoldsStretches (List.replicate n 0) [] :=
  ⟨nofun, fun _ _ found _ => List.eq_of_mem_replicate (List.mem_of_getElem? found)⟩

/-- Bytes that are put behind all stretches make another stretch. -/
theorem putInto (h : HoldsStretches image stretches) (behind : ∀ s' ∈ stretches, s'.stop ≤ s.start)
    (room : s.stop ≤ image.length) :
    HoldsStretches (Emission.putInto image (.data s.start s.bytes)) (stretches ++ [s]) := by
  refine ⟨fun s' member i b found => ?_, fun k b found outside => ?_⟩
  · have inside := (List.getElem?_eq_some_iff.mp found).1
    rcases List.mem_append.mp member with old | new
    · have order := behind s' old
      have before : s'.start + i < s.start := by
        rw [Stretch.stop] at order
        omega
      rw [Emission.getElem?_putInto_outside room (.inl before)]
      exact h.stands s' old i b found
    · cases List.mem_singleton.mp new
      rw [Emission.getElem?_putInto_inside room inside, found]
  · rw [Emission.getElem?_putInto_outside room (outside s (by simp))] at found
    exact h.blank k b found fun s' old => outside s' (List.mem_append_left _ old)

/-- Blank room behind all stretches is a stretch of zeros. -/
theorem leaveBlank (h : HoldsStretches image stretches)
    (behind : ∀ s' ∈ stretches, s'.stop ≤ s.start) (room : s.stop ≤ image.length)
    (zeros : ∀ b ∈ s.bytes, b = 0) : HoldsStretches image (stretches ++ [s]) := by
  refine ⟨fun s' member i b found => ?_, fun k b found outside => ?_⟩
  · rcases List.mem_append.mp member with old | new
    · exact h.stands s' old i b found
    · cases List.mem_singleton.mp new
      have inside := (List.getElem?_eq_some_iff.mp found).1
      rw [zeros b (List.mem_of_getElem? found)]
      have known : s.start + i < image.length := by
        rw [Stretch.stop] at room
        omega
      have zero := h.blank (s.start + i) image[s.start + i] (List.getElem?_eq_getElem known)
        fun s' old => .inr (Nat.le_trans (behind s' old) (Nat.le_add_right _ _))
      rw [List.getElem?_eq_getElem known, zero]
  · exact h.blank k b found fun s' old => outside s' (List.mem_append_left _ old)

end HoldsStretches

/-! ## All lines -/

theorem Statement.putInto_of_isInstruction {st : Statement} {e : Emission}
    (emitted : st.emit table = .ok e) (isInstruction : st.isInstruction = true)
    (image : List UInt8) : e.putInto image = image := by
  simp only [emit] at emitted
  simp only [Statement.isInstruction] at isInstruction
  split at emitted
  · obtain ⟨w, -, rfl⟩ := Except.map_eq_ok_iff.mp emitted
    rfl
  all_goals
    next body =>
      rw [body] at isInstruction
      cases isInstruction

namespace Layout

theorem holdsData_of_ofScanned (laidOut : ofScanned lines = .ok l) : l.HoldsData :=
  ofScanned_induction (motive := fun _ l => l.HoldsData) HoldsData.empty
    (fun _ _ _ _ _ holds added => holds.addLine added) laidOut

theorem waiting_enter_of_ne_align {src : SourceLine} {c : Clause} {m : Layout} {d : Directive}
    (clause : src.clause = some c) (entered : l.enter src = .ok m)
    (directive : src.directive? = some d) (notAlign : d ≠ .align) : m.waiting = [] := by
  rw [waiting_enter clause entered, SourceLine.waitingAfter, clause, directive]
  exact if_neg fun both => notAlign (Option.some.inj both.2)

/-- The image of the data with the emissions in their places, the newest of them first. -/
def imageOf (size : Nat) (emissions : List Emission) : List UInt8 :=
  emissions.foldr (fun e image => e.putInto image) (List.replicate size 0)

/-- Every line keeps the data laid out in stretches, and the bytes of its statement, if it has one,
fill the stretch that it adds. The emissions stand as the statements do, the newest first. -/
theorem exists_stretches {emissions : List Emission} {size : Nat}
    (laidOut : ofScanned lines = .ok l) (settled : l.SettledIn table)
    (emitted : List.Forall₂ (fun s e => s.emit table = .ok e) l.statements emissions)
    (room : l.dataLength ≤ size) :
    ∃ stretches, DataOf lines table stretches ∧ (imageOf size emissions).length = size ∧
      HoldsStretches (imageOf size emissions) stretches := by
  induction lines using List.reverseRecOn generalizing l emissions with
  | nil =>
    cases laidOut
    cases emitted
    exact ⟨[], .empty table, List.length_replicate, .replicate size⟩
  | append_singleton lines src ih =>
    obtain ⟨before, laidOutBefore, added⟩ := ofScanned_concat_eq_ok_iff.mp laidOut
    have settledBefore := settled.of_addLine added
    cases places : src.placesData with
    | false =>
      obtain ⟨length, statements⟩ := addLine_of_not_placesData places added
      rw [length] at room
      rcases statements with same | ⟨s, isInstruction, same⟩
      · rw [same] at emitted
        obtain ⟨stretches, data, image⟩ := ih laidOutBefore settledBefore emitted room
        exact ⟨stretches, data.skip laidOutBefore places added, image⟩
      · rw [same] at emitted
        obtain ⟨e, rest, isWord, emittedRest, rfl⟩ := List.forall₂_cons_left_iff.mp emitted
        obtain ⟨stretches, data, image⟩ := ih laidOutBefore settledBefore emittedRest room
        refine ⟨stretches, data.skip laidOutBefore places added, ?_⟩
        have leaves := Statement.putInto_of_isInstruction isWord isInstruction (imageOf size rest)
        rw [imageOf, List.foldr_cons, ← imageOf, leaves]
        exact image
    | true =>
      obtain ⟨d, directive, moves⟩ : ∃ d, src.directive? = some d ∧ d.placesData = true := by
        rw [SourceLine.placesData, Option.any_eq_true] at places
        exact places
      obtain ⟨c, m, body, stop, clause, entered, directiveAdded, inData, start, reserves, length,
        statements⟩ := addLine_reserves directive moves added
      have behind : before.dataLength ≤ m.dataLength := by
        rw [start]
        split
        · exact le_roundUp _ (by decide)
        · exact Nat.le_refl _
      have aligned : d = .word → wordSize ∣ m.dataLength := by
        intro isWord
        rw [start, if_pos isWord]
        exact dvd_roundUp _ _
      have final (amount : Fragment) (v : Int) (notAlign : d ≠ .align)
          (value : amount.HasValue m.symbols v) : amount.HasValue table v := by
        obtain ⟨e, parsed, evaluated⟩ := value
        refine ⟨e, parsed, (settled.of_addDirective directiveAdded).evaluate_eq evaluated ?_⟩
        rw [waiting_enter_of_ne_align clause entered directive notAlign]
        exact fun _ _ => List.not_mem_nil
      rw [statements] at emitted
      obtain ⟨bytes, rest, rfl, fills, emittedRest, made⟩ :=
        reserves.exists_fills aligned final emitted
      rw [length] at room
      obtain ⟨stretches, data, size_eq, image⟩ :=
        ih laidOutBefore settledBefore emittedRest (by omega)
      refine ⟨stretches ++ [⟨lines.length, m.dataLength, bytes⟩], ?_, ?_⟩
      · have mailbox := Nat.le_trans (holdsData_of_ofScanned laidOutBefore).mailbox_le behind
        refine data.concat laidOutBefore places added rfl ?_ behind length mailbox
        refine ⟨src, c, d, before, m, List.getElem?_concat_length, clause, directive, ?_, entered,
          inData, rfl, fills⟩
        rw [List.take_left]
        exact laidOutBefore
      · have order (s : Stretch) (member : s ∈ stretches) : s.stop ≤ m.dataLength := by
          have inFront := stop_le_dataEnd data.ascending member
          rw [← data.dataLength_eq laidOutBefore] at inFront
          exact Nat.le_trans inFront behind
        rw [← size_eq] at room
        rcases made with rfl | ⟨rfl, zeros⟩
        · have kept : (Emission.putInto (imageOf size rest) (.data m.dataLength bytes)).length =
              (imageOf size rest).length := by
            refine Emission.length_putInto fun extent place => .inr ?_
            cases place
            exact room
          exact ⟨kept.trans size_eq, image.putInto (s := ⟨_, m.dataLength, bytes⟩) order room⟩
        · exact ⟨size_eq, image.leaveBlank (s := ⟨_, m.dataLength, _⟩) order room zeros⟩

/-- The data of a program holds the stretches of its lines, and ends with them. -/
theorem exists_stretches_program {emissions : List Emission} (laidOut : ofScanned lines = .ok l)
    (emitted : List.Forall₂ (fun s e => s.emit l.symbols = .ok e) l.statements.reverse emissions) :
    ∃ stretches, DataOf lines l.symbols stretches ∧
      HoldsStretches (l.program emissions).data stretches ∧
      (l.program emissions).data.length =
        if wordSize < dataEnd stretches then dataEnd stretches else 0 := by
  have newestFirst := List.rel_reverse emitted
  rw [List.reverse_reverse] at newestFirst
  have settled : l.SettledIn l.symbols := fun _ _ _ known => known
  obtain ⟨stretches, data, size_eq, image⟩ :=
    exists_stretches laidOut settled newestFirst (Nat.le_refl _)
  have ends := data.dataLength_eq laidOut
  have length := (holdsData_of_ofScanned laidOut).length_data emitted
  have blank :
      l.blankData.length = if wordSize < dataEnd stretches then dataEnd stretches else 0 := by
    rw [blankData, ends]
    split
    · exact List.length_replicate
    · rfl
  refine ⟨stretches, data, ?_, length.trans blank⟩
  by_cases some : wordSize < l.dataLength
  · rw [program, blankData, if_pos some, ← List.foldr_reverse]
    exact image
  -- without any data behind the mailbox every stretch is empty
  · have none : (l.program emissions).data = [] := by
      rw [blank, ← ends, if_neg some] at length
      exact List.eq_nil_of_length_eq_zero length
    rw [none]
    refine ⟨fun s member i b found => ?_, nofun⟩
    have inside := (List.getElem?_eq_some_iff.mp found).1
    have lower := data.mailbox_le s member
    have upper := stop_le_dataEnd data.ascending member
    rw [← ends, Stretch.stop] at upper
    omega

/-- The data of a program lies in its region. -/
theorem dataEnd_le_of_emit {stretches : List Stretch} {p : Program}
    (data : DataOf lines l.symbols stretches) (laidOut : ofScanned lines = .ok l)
    (emitted : l.emit = .ok p) : dataEnd stretches ≤ regionSize := by
  obtain ⟨sound, -⟩ := emit_eq_ok emitted
  rw [← data.dataLength_eq laidOut]
  exact (holdsData_of_ofScanned laidOut).fits (overflow_of_defect? sound)

end Layout

/-! ## Programs -/

/-- Both looks at a source agree on its data. Each line that allocates or aligns takes up a stretch
of it, from the mailbox on and one behind the other, and words stand at a multiple of their size.
The stretches hold what the directives ask for under the symbols at the end of the source, every
other byte is zero, and the data ends with the last stretch, or is empty if all of them are. A label
in front of what is allocated names its first byte. -/
theorem assemble_data_contents {source : String} {p : Program}
    (assembled : assemble source = .ok p) :
    ∃ lines l stretches, (linesOf source.toList).mapM SourceLine.scan = .ok lines ∧
      Layout.ofScanned lines = .ok l ∧
      p.symbols.Perm (l.symbols.map fun (name, v) => (name, UInt32.ofInt v)) ∧
      DataOf lines l.symbols stretches ∧ HoldsStretches p.data stretches ∧
      p.data.length = (if wordSize < dataEnd stretches then dataEnd stretches else 0) ∧
      dataEnd stretches ≤ regionSize ∧
      ∀ s ∈ stretches, ∀ src label, lines[s.index]? = some src → src.allocates = true →
        src.label = some label →
          (p.symbol? label.toString).map UInt32.toNat = some (dataBase.toNat + s.start) := by
  obtain ⟨l, laidOut, emitted⟩ := Except.bind_eq_ok_iff.mp assembled
  obtain ⟨lines, scanned, laidOut⟩ := Layout.ofLines_eq_ok_iff.mp laidOut
  obtain ⟨sound, emissions, each, rfl⟩ := Layout.emit_eq_ok emitted
  obtain ⟨stretches, data, image, length⟩ := Layout.exists_stretches_program laidOut each
  have fits : dataEnd stretches ≤ regionSize := by
    rw [← data.dataLength_eq laidOut]
    exact (Layout.holdsData_of_ofScanned laidOut).fits (Layout.overflow_of_defect? sound)
  refine ⟨lines, l, stretches, scanned, laidOut, l.sortedSymbols_perm, data, image, length, fits,
    fun s member src label here allocates labelled => ?_⟩
  obtain ⟨src', c, d, before, m, here', clause, -, laidOutBefore, entered, inData, start, -⟩ :=
    data.placed s member
  cases here.symm.trans here'
  have known := Layout.value?_of_allocates laidOut here laidOutBefore clause entered inData
    allocates (.inr ⟨label, labelled, rfl⟩)
  rw [← start] at known
  refine Layout.symbol?_program_of_label laidOut here labelled known ?_ emissions
  have inside := stop_le_dataEnd data.ascending member
  have top : dataBase.toNat + regionSize < UInt32.size := by decide
  rw [Stretch.stop] at inside
  omega

/-- Bytes, words behind a label on a line of its own, strings and room, with a switch of the section
and an alignment between them. -/
def mixedData : String :=
  ".data\nfirst: .byte 1, -1\n.text\nHALT\n.data\nalone:\nlist: .word first - 1, -2\n" ++
    ".align 4\ntext: .asciz \"a→\", \"b\"\nroom: .space 3\n.ascii \"z\""

theorem assemble_data_contents_mixedData :
    ∃ (p : Program) (lines : List SourceLine) (l : Layout) (stretches : List Stretch),
      assemble mixedData = .ok p ∧
      p.data = [0, 0, 0, 0, 1, 255, 0, 0, 3, 0, 3, 0, 254, 255, 255, 255, 97, 226, 134, 146, 0, 98,
        0, 0, 0, 0, 122] ∧
      DataOf lines l.symbols stretches ∧ stretches.map Stretch.index = [1, 6, 7, 8, 9, 10] ∧
      HoldsStretches p.data stretches ∧ dataEnd stretches = 27 := by
  have found : (assemble mixedData).toOption.map Program.data =
      some [0, 0, 0, 0, 1, 255, 0, 0, 3, 0, 3, 0, 254, 255, 255, 255, 97, 226, 134, 146, 0, 98,
        0, 0, 0, 0, 122] := by
    decide +kernel
  obtain ⟨p, assembled, bytes⟩ := Option.map_eq_some_iff.mp found
  rw [Except.toOption_eq_some_iff] at assembled
  obtain ⟨lines, l, stretches, scanned, -, -, data, image, length, -⟩ :=
    assemble_data_contents assembled
  have indices : ((linesOf mixedData.toList).mapM SourceLine.scan).toOption.map dataLines =
      some [1, 6, 7, 8, 9, 10] := by
    decide +kernel
  rw [scanned] at indices
  have ends : dataEnd stretches = 27 := by
    rw [bytes] at length
    split at length
    · exact length.symm
    · cases length
  exact ⟨p, lines, l, stretches, assembled, bytes, data,
    data.indices_eq.trans (Option.some.inj indices), image, ends⟩

end RobotMachine
