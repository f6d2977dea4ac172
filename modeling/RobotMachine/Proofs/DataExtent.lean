import RobotMachine.Proofs.CodeEmission

/-!
# The extent of the data

The first look at a source gives every data statement its place, behind the mailbox and below the
end of the data, and notes when that end leaves the region. The second look puts the bytes of each
statement into its place, so the data of a program is as long as the first look said.

* `Layout.HoldsData`: preserved by every line of a source.
* `Statement.extent?_of_emit`: a statement becomes as many bytes as it was given room for.
* `Layout.HoldsData.length_data`: the data of a program and the blank data have the same length.
-/

namespace RobotMachine

/-! ## Places in the data -/

namespace Layout

/-- The places of the data statements, the newest first. -/
def extents (l : Layout) : List (Nat × Nat) :=
  l.statements.filterMap Statement.extent?

/-- Every data statement has its place behind the mailbox and below the end of the data, and that
end is in the region unless an overflow was noted. -/
structure HoldsData (l : Layout) : Prop where
  mailbox_le : wordSize ≤ l.dataLength
  extents_le : ∀ extent ∈ l.extents, wordSize ≤ extent.1 ∧ extent.1 + extent.2 ≤ l.dataLength
  fits : l.overflow = none → l.dataLength ≤ regionSize

variable {l l' : Layout} {src : SourceLine} {c : Clause} {line : Nat}

namespace HoldsData

theorem empty : HoldsData {} :=
  ⟨Nat.le_refl _, nofun, fun _ => by decide⟩

theorem of_eq (h : l.HoldsData) (dataLength : l'.dataLength = l.dataLength)
    (extents : l'.extents = l.extents) (overflow : l'.overflow = none → l.overflow = none) :
    l'.HoldsData := by
  obtain ⟨mailbox, places, fits⟩ := h
  refine ⟨?_, ?_, fun none => ?_⟩
  · rwa [dataLength]
  · rwa [extents, dataLength]
  · rw [dataLength]
    exact fits (overflow none)

/-- The end of the data may move up, if an overflow is noted when it leaves the region. -/
theorem grow (h : l.HoldsData) {dataLength : Nat} (longer : l.dataLength ≤ dataLength)
    (fits : l.overflow = none → dataLength ≤ regionSize) : HoldsData { l with dataLength } := by
  obtain ⟨mailbox, places, -⟩ := h
  refine ⟨Nat.le_trans mailbox longer, fun extent member => ?_, fits⟩
  obtain ⟨lower, upper⟩ := places extent member
  exact ⟨lower, Nat.le_trans upper longer⟩

/-- A region ends at a multiple of the word size, so alignment does not lead out of it. -/
theorem alignForWords (h : l.HoldsData) (directive : Option Directive) :
    (l.alignForWords directive).HoldsData := by
  unfold Layout.alignForWords
  split
  · refine h.grow (le_roundUp _ (by decide)) fun none => ?_
    have fits := h.fits none
    simp only [roundUp, wordSize, regionSize] at fits ⊢
    omega
  · exact h

theorem define (h : l.HoldsData) {name : Fragment} {v : Int} (defined : l.define name v = .ok l') :
    l'.HoldsData := by
  obtain ⟨-, rfl⟩ := define_eq_ok defined
  exact h.of_eq rfl rfl id

theorem addLabel (h : l.HoldsData) (added : l.addLabel src = .ok l') : l'.HoldsData := by
  simp only [Layout.addLabel] at added
  split at added
  · cases added
    exact h
  · obtain ⟨defined, isDefined, added⟩ := Except.bind_eq_ok_iff.mp added
    have holds := h.define isDefined
    split at added
    · cases added
      exact holds.of_eq rfl rfl id
    · cases added
      exact holds

theorem settleWaiting (h : l.HoldsData) (directive : Option Directive) :
    (l.settleWaiting directive).HoldsData := by
  obtain ⟨symbols, waiting, same⟩ := l.settleWaiting_eq directive
  rw [same]
  exact h.of_eq rfl rfl id

theorem addConstant (h : l.HoldsData) {symbol value : Fragment}
    (added : l.addConstant symbol value = .ok l') : l'.HoldsData := by
  obtain ⟨e, v, -, -, -, defined⟩ := addConstant_eq_ok added
  exact h.define defined

/-- What is allocated stands behind all data before it. -/
theorem allocates_extents (h : l.HoldsData) (allocates : l.Allocates l') :
    wordSize ≤ l'.dataLength ∧
      ∀ extent ∈ l'.extents, wordSize ≤ extent.1 ∧ extent.1 + extent.2 ≤ l'.dataLength := by
  cases allocates with
  | room longer =>
    refine ⟨Nat.le_trans h.mailbox_le longer, fun extent member => ?_⟩
    obtain ⟨lower, upper⟩ := h.extents_le extent member
    exact ⟨lower, Nat.le_trans upper longer⟩
  | @statement s size place =>
    refine ⟨Nat.le_trans h.mailbox_le (Nat.le_add_right _ _), fun extent member => ?_⟩
    have listed : (l.addStatement s (l.dataLength + size)).extents =
        (l.dataLength, size) :: l.extents := List.filterMap_cons_some place
    rw [listed] at member
    rcases List.mem_cons.mp member with rfl | member
    · exact ⟨h.mailbox_le, Nat.le_refl _⟩
    · obtain ⟨lower, upper⟩ := h.extents_le extent member
      exact ⟨lower, Nat.le_trans upper (Nat.le_add_right _ _)⟩

theorem addDataDirective (h : l.HoldsData) {d : Directive}
    (added : l.addDataDirective line d c = .ok l') : l'.HoldsData := by
  obtain ⟨grown, allocates, rfl⟩ := addDataDirective_eq_ok added
  obtain ⟨mailbox, places⟩ := h.allocates_extents allocates
  split
  · next room => exact ⟨mailbox, places, fun _ => room⟩
  · exact ⟨mailbox, places, nofun⟩

theorem addDirective (h : l.HoldsData) {d : Directive}
    (added : l.addDirective line d c = .ok l') : l'.HoldsData := by
  rcases addDirective_eq_ok added with ⟨-, rfl⟩ | ⟨-, rfl⟩ | ⟨-, outcome⟩
  · exact h.of_eq rfl rfl id
  · exact h.of_eq rfl rfl id
  · rcases outcome with rfl | data | ⟨symbol, value, constant⟩
    · exact h
    · exact h.addDataDirective data
    · exact h.addConstant constant

theorem addInstruction (h : l.HoldsData) (added : l.addInstruction line c = .ok l') :
    l'.HoldsData := by
  obtain ⟨s, overflow, ⟨opcode, operands, -, -, rfl⟩, room, rfl⟩ := addInstruction_eq_ok added
  exact h.of_eq rfl rfl fun none => (room none).1

/-- One line keeps the data statements in their places. -/
theorem addLine (h : l.HoldsData) (added : l.addLine line src = .ok l') : l'.HoldsData := by
  obtain ⟨labelled, labelAdded, added⟩ := addLine_eq_ok added
  have holds := (h.alignForWords _).addLabel labelAdded
  rcases added with ⟨-, rfl⟩ | ⟨c, -, ⟨d, -, added⟩ | ⟨-, added⟩⟩
  · exact holds
  · exact (holds.settleWaiting _).addDirective added
  · exact (holds.settleWaiting _).addInstruction added

theorem addLines (h : l.HoldsData) {texts : List (List Char)}
    (added : l.addLines line texts = .ok l') : l'.HoldsData := by
  induction texts generalizing l line with
  | nil =>
    cases added
    exact h
  | cons text texts ih =>
    simp only [Layout.addLines] at added
    split at added
    · next next_ok =>
      obtain ⟨src, -, lineAdded⟩ := Except.bind_eq_ok_iff.mp next_ok
      exact ih (h.addLine lineAdded) added
    · cases added

theorem ofLines {texts : List (List Char)} (laidOut : Layout.ofLines texts = .ok l) :
    l.HoldsData :=
  empty.addLines laidOut

end HoldsData

end Layout

/-! ## Bytes in their places -/

/-- Where the bytes of an emission go in the data, and how many they are. -/
def Emission.extent? : Emission → Option (Nat × Nat)
  | word .. => none
  | data offset bytes => some (offset, bytes.length)

theorem length_of_emitWord {table : SymbolTable} {e : Expression} {bytes : List UInt8}
    (emitted : emitWord table e = .ok bytes) : bytes.length = wordSize := by
  simp only [emitWord] at emitted
  obtain ⟨v, -, emitted⟩ := Except.bind_eq_ok_iff.mp emitted
  split at emitted
  · cases emitted
    exact LittleEndian.length_bytes _ _
  · cases emitted

theorem length_flatten_of_emitWord {table : SymbolTable} {values : List Expression}
    {bytes : List (List UInt8)}
    (emitted : List.Forall₂ (fun e b => emitWord table e = .ok b) values bytes) :
    bytes.flatten.length = values.length * wordSize := by
  induction emitted with
  | nil => rfl
  | @cons e b values bytes head tail ih =>
    rw [List.flatten_cons, List.length_append, length_of_emitWord head, ih, List.length_cons,
      Nat.succ_mul, Nat.add_comm]

theorem Statement.extent?_of_emit {table : SymbolTable} {s : Statement} {e : Emission}
    (emitted : s.emit table = .ok e) : e.extent? = s.extent? := by
  rcases s with ⟨line, column, body⟩
  cases body with
  | instruction opcode operands =>
    obtain ⟨word, -, rfl⟩ := Except.map_eq_ok_iff.mp emitted
    rfl
  | words offset values =>
    obtain ⟨bytes, each, rfl⟩ := Except.map_eq_ok_iff.mp emitted
    rw [Emission.extent?, length_flatten_of_emitWord (Except.mapM_eq_ok_iff.mp each)]
    rfl
  | bytes offset values =>
    obtain ⟨bytes, each, rfl⟩ := Except.map_eq_ok_iff.mp emitted
    rw [Emission.extent?, ← (Except.mapM_eq_ok_iff.mp each).length_eq]
    rfl
  | string offset bytes =>
    cases emitted
    rfl

theorem Statement.extents_of_emit {table : SymbolTable} {statements : List Statement}
    {emissions : List Emission}
    (emitted : List.Forall₂ (fun s e => s.emit table = .ok e) statements emissions) :
    emissions.filterMap Emission.extent? = statements.filterMap Statement.extent? := by
  induction emitted with
  | nil => rfl
  | cons head tail ih =>
    rw [List.filterMap_cons, List.filterMap_cons, extent?_of_emit head, ih]

namespace Emission

/-- Bytes that are put into an image replace as many others. -/
theorem length_putInto {image : List UInt8} {e : Emission}
    (inside : ∀ extent, e.extent? = some extent →
      extent.2 = 0 ∨ extent.1 + extent.2 ≤ image.length) :
    (e.putInto image).length = image.length := by
  cases e with
  | word w line => rfl
  | data offset bytes =>
    simp only [putInto, List.length_append, List.length_take, List.length_drop]
    rcases inside _ rfl with none | some
    · simp only at none
      omega
    · simp only at some
      omega

theorem length_foldl_putInto {image : List UInt8} {emissions : List Emission}
    (inside : ∀ extent ∈ emissions.filterMap extent?,
      extent.2 = 0 ∨ extent.1 + extent.2 ≤ image.length) :
    (emissions.foldl putInto image).length = image.length := by
  induction emissions generalizing image with
  | nil => rfl
  | cons e emissions ih =>
    have head : (e.putInto image).length = image.length := by
      refine length_putInto fun extent place => inside extent ?_
      rw [List.filterMap_cons_some place]
      exact List.mem_cons_self
    rw [List.foldl_cons, ih, head]
    intro extent member
    rw [head]
    refine inside extent ?_
    obtain ⟨e', listed, place⟩ := List.mem_filterMap.mp member
    exact List.mem_filterMap.mpr ⟨e', List.mem_cons_of_mem e listed, place⟩

end Emission

namespace Layout

variable {l : Layout} {emissions : List Emission}

theorem length_blankData_le (l : Layout) : l.blankData.length ≤ l.dataLength := by
  unfold blankData
  split
  · exact Nat.le_of_eq List.length_replicate
  · exact Nat.zero_le _

/-- The data of a program is as long as the layout left room for it. -/
theorem HoldsData.length_data (h : l.HoldsData)
    (emitted : List.Forall₂ (fun s e => s.emit l.symbols = .ok e) l.statements.reverse emissions) :
    (l.program emissions).data.length = l.blankData.length := by
  refine Emission.length_foldl_putInto fun extent member => ?_
  rw [Statement.extents_of_emit emitted, List.filterMap_reverse] at member
  obtain ⟨lower, upper⟩ := h.extents_le extent (List.mem_reverse.mp member)
  unfold blankData
  split
  · rw [List.length_replicate]
    exact .inr upper
  -- without any data behind the mailbox there is no byte to put anywhere
  · exact .inl (by omega)

end Layout

end RobotMachine
