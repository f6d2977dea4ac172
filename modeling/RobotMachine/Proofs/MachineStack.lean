import RobotMachine.Proofs.MachineRuns
import RobotMachine.Proofs.Transfers

/-!
# The stack of the machine

The stack pointer moves down by a word with each PUSH and up with each POP, modulo 2³² and wherever
it stands, aligned or not. A push stores just below the words that were pushed before it, and the
memory map leaves no room for the stack pointer to come round and store over them. So the words
between two stack pointers stay where they are, and pops find them again in the opposite order.

* `Memory.AgreeOn`: memories with the same bytes in some ranges.
* `Stacked`: what was pushed between two stack pointers is still there.
* `Stacked.push`, `Stacked.pushAll`: kept by a push, and by any number of pushes.
* `Machine.stack_lastInFirstOut`: what pops load behind pushes.
-/

namespace RobotMachine

namespace Instruction

def push (r : Register) : Instruction := ⟨.push, r, ()⟩

def pop (r : Register) : Instruction := ⟨.pop, r, ()⟩

end Instruction

namespace Memory

/-- The two memories have the same bytes in the ranges. -/
def AgreeOn (ranges : List (UInt32 × Nat)) (m m' : Memory) : Prop :=
  ∀ (r : Region) (i : Nat) (hi : i < regionSize),
    (∃ range ∈ ranges, Covers range.1 range.2 (r.addressOf i)) → (m'.bank r)[i] = (m.bank r)[i]

variable {m m' : Memory}

theorem AgreeOn.mono {ranges fewer : List (UInt32 × Nat)} (h : AgreeOn ranges m m')
    (sub : ∀ range ∈ fewer, range ∈ ranges) : AgreeOn fewer m m' := by
  intro r i hi covered
  obtain ⟨range, member, covers⟩ := covered
  exact h r i hi ⟨range, sub range member, covers⟩

/-- What is read from a range on which the memories agree is the same. -/
theorem AgreeOn.read_eq {ranges : List (UInt32 × Nat)} (h : AgreeOn ranges m m')
    {address : UInt32} {length : Nat} (member : (address, length) ∈ ranges) :
    m'.read address length = m.read address length := by
  unfold read
  cases located : Region.locate? address length with
  | none => rfl
  | some place =>
    have start := Region.locate?_eq_some_iff.mp located
    refine congrArg Except.ok (List.ext_getElem ?_ fun k within _ => ?_)
    · rw [Bank.length_slice, Bank.length_slice]
    · rw [Bank.length_slice] at within
      have fits := place.fits
      have covers : Covers address length (place.region.addressOf (place.offset + k)) := by
        simp only [Covers, Region.addressOf] at *
        omega
      simp only [Bank.slice, List.getElem_ofFn]
      exact h place.region (place.offset + k) (by omega) ⟨_, member, covers⟩

/-- A write agrees on every range that it does not reach into. -/
theorem agreeOn_patch {ranges : List (UInt32 × Nat)} {address : UInt32} {bytes : List UInt8}
    (above : ∀ range ∈ ranges, address.toNat + bytes.length ≤ range.1.toNat) :
    AgreeOn ranges m (m.patch address bytes) := by
  intro r i hi covered
  obtain ⟨range, member, covers⟩ := covered
  have apart : ¬ Covers address bytes.length (r.addressOf i) := by
    have start := above range member
    simp only [Covers] at *
    omega
  cases located : Region.locate? address bytes.length with
  | none => simp only [patch_of_locate?_eq_none located]
  | some place => exact (getElem_bank_patch (by rw [located]; rfl) r i hi).2 apart

/-- Bytes that were written to a range can be read there. -/
theorem read_patch {address : UInt32} {bytes : List UInt8}
    (mapped : Mapped address bytes.length) :
    (m.patch address bytes).read address bytes.length = .ok bytes := by
  obtain ⟨place, located⟩ := Option.isSome_iff_exists.mp (Region.isSome_locate?_iff.mpr mapped)
  have whole := Bank.slice_overwrite (m.bank place.region) place.fits
    (Nat.le_of_eq (Nat.zero_add _)) place.fits
  rw [List.drop_zero, List.take_length] at whole
  unfold read patch
  rw [located]
  simp only [bank_setBank_self]
  exact congrArg Except.ok whole

end Memory

/-- No region reaches to an end of the address space. -/
theorem Mapped.bounds {address : UInt32} {length : Nat} (mapped : Mapped address length) :
    wordSize ≤ address.toNat ∧ address.toNat + length < 2 ^ 32 := by
  obtain ⟨r, lower, upper⟩ := mapped
  have first : wordSize ≤ r.base.toNat := by cases r <;> decide
  have last : r.base.toNat + regionSize < 2 ^ 32 := by cases r <;> decide
  omega

/-! ## What was pushed -/

/-- From the top up to the bottom, memory still has what some stores wrote, the newest first and
each word above the one before. -/
inductive Stacked (memory : Memory) (bottom : UInt32) : UInt32 → List Store → Prop
  | empty : Stacked memory bottom bottom []
  | word {top : UInt32} {bytes : List UInt8} {older : List Store} :
    memory.read top wordSize = .ok bytes → Stacked memory bottom (top + 4) older →
      Stacked memory bottom top (⟨top, bytes⟩ :: older)

namespace Stacked

variable {memory memory' : Memory} {bottom top : UInt32} {stores : List Store}

/-- Nothing that was pushed lies below the top, and a word fits there without wrapping. -/
theorem le_address (h : Stacked memory bottom top stores) {s : Store} (member : s ∈ stores) :
    wordSize ≤ top.toNat ∧ top.toNat ≤ s.address.toNat := by
  induction h with
  | empty => cases member
  | @word top bytes older read rest ih =>
    have bounds := Mapped.bounds (Memory.exists_read_iff.mp ⟨bytes, read⟩)
    have next : (top + 4).toNat = top.toNat + wordSize := by
      rw [UInt32.toNat_add]
      exact Nat.mod_eq_of_lt bounds.2
    refine ⟨bounds.1, ?_⟩
    rcases List.mem_cons.mp member with rfl | member
    · exact Nat.le_refl _
    · have above := (ih member).2
      omega

/-- Memory may change wherever nothing was pushed. -/
theorem of_agreeOn (h : Stacked memory bottom top stores)
    (kept : memory.AgreeOn (stores.map Store.range) memory') :
    Stacked memory' bottom top stores := by
  induction h with
  | empty => exact .empty
  | @word top bytes older read rest ih =>
    have length : bytes.length = wordSize := (Memory.getElem_of_read read).1
    have head : (top, wordSize) ∈ (Store.mk top bytes :: older).map Store.range := by
      rw [← length]
      exact List.mem_cons_self
    have tail : memory.AgreeOn (older.map Store.range) memory' :=
      kept.mono fun range member => List.mem_cons_of_mem _ member
    exact .word ((kept.read_eq head).trans read) (ih tail)

end Stacked

/-! ## Pushing -/

namespace Machine

variable {m m' : Machine} {r : Register} {stores : List Store}

/-- What a push that succeeds does. -/
theorem perform_push_eq_ok (pushed : m.perform (.push r) = .ok (stores, m')) :
    Mapped (m.reg .sp - 4) wordSize ∧ stores = [⟨m.reg .sp - 4, wordBytes (m.reg r)⟩] ∧
      m'.reg .sp = m.reg .sp - 4 ∧
      m'.memory = m.memory.patch (m.reg .sp - 4) (wordBytes (m.reg r)) := by
  obtain ⟨effects, executed, rfl, rfl⟩ := perform_eq_ok_iff.mp pushed
  have pushes : m.push r = .ok effects := executed
  have length : (wordBytes (m.reg r)).length = wordSize := LittleEndian.length_bytes _ _
  rw [Machine.push, storeWord, store, Memory.checkStore_eq, length] at pushes
  split at pushes
  · next allowed =>
    cases pushes
    refine ⟨?_, rfl, RegisterFile.get_set_self _ _ _, rfl⟩
    rcases allowed with holds | holds
    · exact ⟨.stack, holds⟩
    · exact ⟨.data, holds⟩
  · cases pushes

end Machine

namespace Stacked

variable {m m' : Machine} {bottom : UInt32} {older stores : List Store}

/-- A push puts its word on top and keeps what was pushed before it. -/
theorem push {r : Register} (h : Stacked m.memory bottom (m.reg .sp) older)
    (pushed : m.perform (.push r) = .ok (stores, m')) :
    Stacked m'.memory bottom (m'.reg .sp) (stores.reverse ++ older) := by
  obtain ⟨mapped, rfl, top, memory⟩ := Machine.perform_push_eq_ok pushed
  have length : (wordBytes (m.reg r)).length = wordSize := LittleEndian.length_bytes _ _
  have kept : m.memory.AgreeOn (older.map Store.range) m'.memory := by
    rw [memory]
    refine Memory.agreeOn_patch fun range listed => ?_
    obtain ⟨s, member, rfl⟩ := List.mem_map.mp listed
    obtain ⟨room, above⟩ := h.le_address member
    have below : (m.reg .sp - 4).toNat = (m.reg .sp).toNat - 4 :=
      UInt32.toNat_sub_of_le _ _ (UInt32.le_iff_toNat_le.mpr room)
    rw [length, below, Nat.sub_add_cancel room]
    exact above
  have rest := h.of_agreeOn kept
  have back : m.reg .sp - 4 + 4 = m.reg .sp := UInt32.sub_add_cancel _ _
  rw [List.reverse_singleton, List.singleton_append, top]
  refine .word ?_ (by rwa [back])
  rw [memory]
  rw [← length] at mapped ⊢
  exact Memory.read_patch mapped

/-- Any number of pushes does. -/
theorem pushAll {sources : List Register} (h : Stacked m.memory bottom (m.reg .sp) older)
    (pushed : m.performAll (sources.map .push) = .ok (stores, m')) :
    Stacked m'.memory bottom (m'.reg .sp) (stores.reverse ++ older) := by
  induction sources generalizing m older stores with
  | nil =>
    cases pushed
    exact h
  | cons r sources ih =>
    obtain ⟨first, between, others, one, rest, rfl⟩ :=
      Machine.performAll_cons_eq_ok_iff.mp pushed
    have stacked := ih (h.push one) rest
    rwa [← List.append_assoc, ← List.reverse_append] at stacked

end Stacked

namespace Machine

variable {m m' : Machine} {stores : List Store}

/-- Each push stores a register as it finds it, in the word below the stack pointer that it
finds. -/
theorem stores_of_pushAll {sources : List Register}
    (pushed : m.performAll (sources.map .push) = .ok (stores, m')) :
    stores.length = sources.length ∧
      ∀ k r, sources[k]? = some r → ∃ earlier found,
        m.performAll ((sources.take k).map .push) = .ok (earlier, found) ∧
          stores[k]? = some ⟨found.reg .sp - 4, wordBytes (found.reg r)⟩ := by
  induction sources generalizing m stores with
  | nil =>
    cases pushed
    exact ⟨rfl, nofun⟩
  | cons source sources ih =>
    obtain ⟨first, between, others, one, rest, rfl⟩ := performAll_cons_eq_ok_iff.mp pushed
    obtain ⟨length, found⟩ := ih rest
    obtain ⟨-, rfl, -, -⟩ := perform_push_eq_ok one
    refine ⟨by rw [List.singleton_append, List.length_cons, List.length_cons, length], ?_⟩
    intro k r source_k
    cases k with
    | zero =>
      cases source_k
      exact ⟨[], m, rfl, rfl⟩
    | succ k =>
      obtain ⟨earlier, m'', made, stored⟩ := found k r source_k
      exact ⟨_, m'', performAll_cons_eq_ok_iff.mpr ⟨_, between, earlier, one, made, rfl⟩, stored⟩

end Machine

/-! ## Popping -/

/-- What a pop does if a word can be read at the stack pointer. -/
theorem Machine.perform_pop {m : Machine} {r : Register} {word : UInt32}
    (found : m.memory.readWord (m.reg .sp) = .ok word) (other : r ≠ .sp) :
    ∃ m', m.perform (.pop r) = .ok ([], m') ∧ m'.reg r = word ∧ m'.reg .sp = m.reg .sp + 4 ∧
      m'.memory = m.memory := by
  let effects : Effects := { m.goOn with registers := [(.sp, m.reg .sp + 4)] ++ [(r, word)] }
  have executed : m.execute (.pop r) = .ok effects :=
    Except.map_eq_ok_iff.mpr ⟨word, found, rfl⟩
  have moved : (m.apply effects).reg .sp = m.reg .sp + 4 :=
    (RegisterFile.get_set_of_ne _ (Ne.symm other) word).trans (RegisterFile.get_set_self _ _ _)
  exact ⟨_, perform_of_execute executed, m.reg_apply_of_concat rfl, moved, rfl⟩

namespace Stacked

variable {m : Machine} {bottom : UInt32} {s : Store} {older stores : List Store}

/-- A pop loads the word on top and leaves the rest. -/
theorem pop {r : Register} (h : Stacked m.memory bottom (m.reg .sp) (s :: older))
    (other : r ≠ .sp) :
    ∃ m', m.perform (.pop r) = .ok ([], m') ∧ s.bytes = wordBytes (m'.reg r) ∧
      Stacked m'.memory bottom (m'.reg .sp) older := by
  cases h with
  | @word _ bytes _ read rest =>
    have found : m.memory.readWord (m.reg .sp) = .ok (.ofNat (LittleEndian.number bytes)) :=
      Except.map_eq_ok_iff.mpr ⟨bytes, read, rfl⟩
    have same := Except.ok.inj (read.symm.trans (Memory.readWord_eq_ok_iff.mp found))
    obtain ⟨m', popped, loaded, top, memory⟩ := Machine.perform_pop found other
    rw [← loaded] at same
    rw [← top, ← memory] at rest
    exact ⟨m', popped, same, rest⟩

/-- Pops load what was pushed, the newest first, and move the stack pointer to the bottom. -/
theorem popAll {targets : List Register} (h : Stacked m.memory bottom (m.reg .sp) stores)
    (count : targets.length = stores.length) (spared : .sp ∉ targets) :
    (∃ m', m.performAll (targets.map .pop) = .ok ([], m') ∧ m'.reg .sp = bottom) ∧
      ∀ j r, targets[j]? = some r → ∃ found,
        m.performAll ((targets.take (j + 1)).map .pop) = .ok ([], found) ∧
          stores[j]?.map (·.bytes) = some (wordBytes (found.reg r)) := by
  induction targets generalizing m stores with
  | nil =>
    cases List.eq_nil_of_length_eq_zero count.symm
    cases h
    exact ⟨⟨m, rfl, rfl⟩, nofun⟩
  | cons target targets ih =>
    cases stores with
    | nil => cases count
    | cons s older =>
      rw [List.mem_cons, not_or] at spared
      obtain ⟨between, one, loaded, stacked⟩ := h.pop (Ne.symm spared.1)
      obtain ⟨⟨last, rest, bottom⟩, found⟩ := ih stacked (Nat.succ.inj count) spared.2
      -- no pop stores anything, so the list of stores stays empty with this one in front
      have cons {others : List Instruction} {m' : Machine}
          (made : between.performAll others = .ok ([], m')) :
          m.performAll (.pop target :: others) = .ok ([], m') :=
        Machine.performAll_cons_eq_ok_iff.mpr ⟨[], between, [], one, made, rfl⟩
      refine ⟨⟨last, cons rest, bottom⟩, fun j r target_j => ?_⟩
      cases j with
      | zero =>
        cases target_j
        exact ⟨between, cons rfl, congrArg some loaded⟩
      | succ j =>
        obtain ⟨m', made, same⟩ := found j r target_j
        exact ⟨m', cons made, same⟩

end Stacked

namespace Machine

/-- **The stack is last-in first-out.** If a number of pushes succeed, each stores a register as it
finds it, the stack pointer included, in the word below the stack pointer that it finds. Behind
them, let anything change but the stack pointer and the bytes that were pushed: registers, program
counter, flags and memory. Then as many pops into registers other than the stack pointer succeed,
each loads what the last push stored that no pop before it has loaded, and the stack pointer ends
where it was before the pushes. -/
theorem stack_lastInFirstOut {m m₁ m₂ : Machine} {sources targets : List Register}
    {stores : List Store} (pushed : m.performAll (sources.map .push) = .ok (stores, m₁))
    (top : m₂.reg .sp = m₁.reg .sp)
    (kept : m₁.memory.AgreeOn (stores.map Store.range) m₂.memory)
    (count : targets.length = sources.length) (spared : .sp ∉ targets) :
    (stores.length = sources.length ∧
      ∀ k r, sources[k]? = some r → ∃ earlier found,
        m.performAll ((sources.take k).map .push) = .ok (earlier, found) ∧
          stores[k]? = some ⟨found.reg .sp - 4, wordBytes (found.reg r)⟩) ∧
    (∃ m₃, m₂.performAll (targets.map .pop) = .ok ([], m₃) ∧ m₃.reg .sp = m.reg .sp) ∧
    ∀ j r, targets[j]? = some r → ∃ found,
      m₂.performAll ((targets.take (j + 1)).map .pop) = .ok ([], found) ∧
        stores[sources.length - 1 - j]?.map (·.bytes) = some (wordBytes (found.reg r)) := by
  obtain ⟨length, stored⟩ := stores_of_pushAll pushed
  have held : Stacked m₁.memory (m.reg .sp) (m₁.reg .sp) stores.reverse := by
    have stacked := Stacked.empty.pushAll pushed
    rwa [List.append_nil] at stacked
  have kept' : m₁.memory.AgreeOn (stores.reverse.map Store.range) m₂.memory := by
    refine kept.mono fun range member => ?_
    rw [List.map_reverse] at member
    exact List.mem_reverse.mp member
  have stacked := held.of_agreeOn kept'
  rw [← top] at stacked
  have count' : targets.length = stores.reverse.length := by
    rw [List.length_reverse, length, count]
  obtain ⟨popped, loaded⟩ := stacked.popAll count' spared
  refine ⟨⟨length, stored⟩, popped, fun j r target => ?_⟩
  obtain ⟨found, made, same⟩ := loaded j r target
  have below : j < stores.length := by
    rw [length, ← count]
    exact (List.getElem?_eq_some_iff.mp target).1
  rw [List.getElem?_reverse below, length] at same
  exact ⟨found, made, same⟩

/-- A machine whose stack pointer is not aligned. -/
def unaligned : Machine where
  registers := (RegisterFile.set {} .sp 0x20fff).set .lr 0xdeadbeef

theorem stack_lastInFirstOut_unaligned :
    ∃ stores m₁, unaligned.performAll ([.lr, .sp].map .push) = .ok (stores, m₁) ∧
      stores = [⟨0x20ffb, [0xef, 0xbe, 0xad, 0xde]⟩, ⟨0x20ff7, [0xfb, 0x0f, 0x02, 0x00]⟩] ∧
      m₁.memory.AgreeOn (stores.map Store.range) (m₁.memory.patch 0x20000 [1, 2, 3]) ∧
      ∃ m₃, performAll
          { registers := RegisterFile.set {} .sp (m₁.reg .sp)
            memory := m₁.memory.patch 0x20000 [1, 2, 3] } ([⟨1⟩, ⟨2⟩].map .pop) = .ok ([], m₃) ∧
        m₃.reg .sp = 0x20fff ∧ wordBytes (m₃.reg ⟨2⟩) = [0xef, 0xbe, 0xad, 0xde] := by
  have stored : (unaligned.performAll ([.lr, .sp].map .push)).map Prod.fst =
      .ok [⟨0x20ffb, [0xef, 0xbe, 0xad, 0xde]⟩, ⟨0x20ff7, [0xfb, 0x0f, 0x02, 0x00]⟩] := by
    decide +kernel
  obtain ⟨⟨stores, m₁⟩, pushed, rfl⟩ := Except.map_eq_ok_iff.mp stored
  have kept : m₁.memory.AgreeOn
      ([⟨0x20ffb, [0xef, 0xbe, 0xad, 0xde]⟩, ⟨0x20ff7, [0xfb, 0x0f, 0x02, 0x00]⟩].map Store.range)
      (m₁.memory.patch 0x20000 [1, 2, 3]) := Memory.agreeOn_patch (by decide)
  let m₂ : Machine :=
    { registers := RegisterFile.set {} .sp (m₁.reg .sp)
      memory := m₁.memory.patch 0x20000 [1, 2, 3] }
  have top : m₂.reg .sp = m₁.reg .sp := RegisterFile.get_set_self _ _ _
  have count : [(⟨1⟩ : Register), ⟨2⟩].length = [Register.lr, .sp].length := rfl
  obtain ⟨-, ⟨m₃, popped, bottom⟩, loaded⟩ :=
    stack_lastInFirstOut pushed top kept count (by decide)
  obtain ⟨found, again, first⟩ := loaded 1 ⟨2⟩ rfl
  cases popped.symm.trans again
  exact ⟨_, m₁, pushed, rfl, kept, m₃, popped, bottom, (Option.some.inj first).symm⟩

end Machine

end RobotMachine
