import RobotMachine.Proofs.Image
import RobotMachine.Proofs.LoadedCode

/-!
# What loading leaves

A ready emulator loads a program if its code and its data fit their regions. Then the code region
holds the code and zeros, the data region starts with the data, and everything that the program does
not replace is what it was before. Sizes are looked at in three places, by the assembler, by the
reader of images and by the load itself, and what passes one of the first two passes the last.

* `Emulator.memory_withProgram`: the banks of the loaded emulator.
* `Emulator.Loads`: what a load leaves, part by part.
* `Emulator.load_establishes`: when a load succeeds, and what it leaves.
-/

namespace RobotMachine

/-! ## Banks that are written from their start -/

namespace Bank

theorem toList_overwrite (bank : Bank) {bytes : List UInt8}
    (fits : 0 + bytes.length ≤ regionSize) :
    (bank.overwrite 0 bytes fits).toList = bytes ++ bank.toList.drop bytes.length := by
  apply List.ext_getElem
  · rw [Vector.length_toList, List.length_append, List.length_drop, Vector.length_toList]
    omega
  · intro i hi _
    rw [Vector.length_toList] at hi
    rw [Vector.getElem_toList, getElem_overwrite, List.getElem_append]
    by_cases inside : i < bytes.length
    · rw [dif_pos ⟨Nat.zero_le i, by omega⟩, dif_pos inside]
      rfl
    · have behind : bytes.length + (i - bytes.length) = i := by omega
      rw [dif_neg (by omega), dif_neg inside, List.getElem_drop, Vector.getElem_toList]
      simp only [behind]

/-- Zeros need not be written over zeros. -/
theorem overwrite_append_zeros {bytes : List UInt8} {count : Nat}
    (whole : 0 + (bytes ++ List.replicate count 0).length ≤ regionSize)
    (fits : 0 + bytes.length ≤ regionSize) :
    overwrite (Vector.replicate regionSize 0) 0 (bytes ++ List.replicate count 0) whole =
      overwrite (Vector.replicate regionSize 0) 0 bytes fits := by
  have room : count + (regionSize - (bytes.length + count)) = regionSize - bytes.length := by
    rw [List.length_append, List.length_replicate] at whole
    omega
  apply Vector.toList_inj.mp
  rw [toList_overwrite, toList_overwrite, Vector.toList_replicate, List.drop_replicate,
    List.drop_replicate, List.append_assoc, List.length_append, List.length_replicate,
    List.replicate_append_replicate, room]

end Bank

theorem flatMap_wordBytes_replicate (count : Nat) :
    (List.replicate count 0).flatMap wordBytes = List.replicate (count * wordSize) 0 := by
  induction count with
  | zero => rfl
  | succ count ih =>
    have zero : wordBytes 0 = List.replicate wordSize 0 := rfl
    rw [List.replicate_succ, List.flatMap_cons, ih, zero, List.replicate_append_replicate,
      Nat.succ_mul, Nat.add_comm]

/-- The code region as a load fills it: the words from its start on, and zeros behind them. -/
theorem Bank.holdsWords_code {code : List UInt32}
    (fits : 0 + (code.flatMap wordBytes).length ≤ regionSize) :
    (overwrite (Vector.replicate regionSize 0) 0 (code.flatMap wordBytes) fits).HoldsWords
      (code ++ List.replicate (regionWords - code.length) 0) := by
  have bytes : (code ++ List.replicate (regionWords - code.length) 0).flatMap wordBytes =
      code.flatMap wordBytes ++
        List.replicate ((regionWords - code.length) * wordSize) 0 := by
    rw [List.flatMap_append, flatMap_wordBytes_replicate]
  have whole : 0 + (code.flatMap wordBytes ++
      List.replicate ((regionWords - code.length) * wordSize) 0).length ≤ regionSize := by
    rw [length_flatMap_wordBytes] at fits
    rw [List.length_append, length_flatMap_wordBytes, List.length_replicate]
    simp only [wordSize, regionWords, regionSize] at *
    omega
  rw [← overwrite_append_zeros whole fits]
  simp only [← bytes]
  exact holdsWords_overwrite _ _

/-- The words of the code with zeros behind them. -/
theorem getElem?_padded {code : List UInt32} {count i : Nat} (fits : code.length ≤ count)
    (below : i < count) :
    (code ++ List.replicate (count - code.length) 0)[i]? = some (code.getD i 0) := by
  rw [List.getD_eq_getElem?_getD]
  by_cases inside : i < code.length
  · rw [List.getElem?_append_left inside, List.getElem?_eq_getElem inside]
    rfl
  · rw [Nat.not_lt] at inside
    rw [List.getElem?_append_right inside, List.getElem?_eq_none inside,
      List.getElem?_replicate_of_lt (by omega)]
    rfl

/-! ## The loaded emulator -/

/-- The code and the data of the program fit their regions. -/
def Program.FitsMemory (p : Program) : Prop :=
  p.code.length ≤ regionWords ∧ p.data.length ≤ regionSize

instance Program.decidableFitsMemory (p : Program) : Decidable p.FitsMemory :=
  inferInstanceAs (Decidable (_ ∧ _))

namespace Emulator

variable {e e' : Emulator} {p : Program}

/-- What loading a program makes of an emulator. The code and the data are the program's, the
registers are set up for its start, and everything else is as it was. -/
structure Loads (e : Emulator) (p : Program) (e' : Emulator) : Prop where
  code : ∀ i < regionWords,
    e'.machine.memory.readWord (UInt32.ofNat (codeAddress i)) = .ok (p.code.getD i 0)
  data : e'.machine.memory.data.toList = p.data ++ e.machine.memory.data.toList.drop p.data.length
  stack : e'.machine.memory.stack = e.machine.memory.stack
  flags : e'.machine.flags = e.machine.flags
  registers : ∀ r, r ≠ .sp → e'.machine.reg r = e.machine.reg r
  sp : e'.machine.reg .sp = stackTop
  pc : e'.machine.pc = codeBase
  history : e'.history = []
  codeLength : e'.codeLength = p.code.length
  lines : e'.lines = p.lines
  state : e'.state = .ready

theorem memory_withProgram (e : Emulator) (fits : p.FitsMemory) :
    ∃ codeFits dataFits, (e.withProgram p).machine.memory =
      { code := Bank.overwrite (Vector.replicate regionSize 0) 0 (p.code.flatMap wordBytes) codeFits
        stack := e.machine.memory.stack
        data := e.machine.memory.data.overwrite 0 p.data dataFits } := by
  obtain ⟨code, data⟩ := fits
  have codeFits := room_flatMap_wordBytes code
  have dataFits : 0 + p.data.length ≤ regionSize := by rwa [Nat.zero_add]
  refine ⟨codeFits, dataFits, ?_⟩
  unfold withProgram Machine.loadCode Memory.patch
  rw [Region.locate?_base .data dataFits, Region.locate?_base .code codeFits]
  rfl

theorem loads_withProgram (e : Emulator) (fits : p.FitsMemory) : e.Loads p (e.withProgram p) := by
  obtain ⟨codeFits, dataFits, memory⟩ := e.memory_withProgram fits
  refine ⟨fun i below => ?_, ?_, ?_, rfl, fun r other => ?_, ?_, rfl, rfl, rfl, rfl, rfl⟩
  · have holds : (e.withProgram p).machine.memory.code.HoldsWords
        (p.code ++ List.replicate (regionWords - p.code.length) 0) := by
      rw [memory]
      exact Bank.holdsWords_code codeFits
    refine Memory.readWord_of_holdsWords holds (getElem?_padded fits.1 below) ?_
    have small : codeAddress i < UInt32.size := by
      have last : i * wordSize < regionWords * wordSize :=
        Nat.mul_lt_mul_of_pos_right below (by decide)
      have base : codeBase.toNat + regionWords * wordSize < UInt32.size := by decide
      rw [codeAddress]
      omega
    exact UInt32.toNat_ofNat_of_lt' small
  · rw [memory]
    exact Bank.toList_overwrite _ dataFits
  · rw [memory]
  · exact RegisterFile.get_set_of_ne _ other _
  · exact RegisterFile.get_set_self _ _ _

/-- A ready emulator takes the programs whose code and data fit, and no others. -/
theorem loadProgram_eq_ok_iff (ready : e.state = .ready) :
    e.loadProgram p = .ok e' ↔ p.FitsMemory ∧ e' = e.withProgram p := by
  constructor
  · intro loaded
    have data : p.data.length ≤ regionSize := by
      by_contra large
      rw [loadProgram, if_neg (not_not_intro ready), if_pos (Nat.not_le.mp large)] at loaded
      cases loaded
    have code : p.code.length ≤ regionWords := by
      by_contra large
      rw [loadProgram, if_neg (not_not_intro ready), if_neg (Nat.not_lt.mpr data), loadCode,
        if_neg (not_not_intro ready), if_pos (Nat.not_le.mp large)] at loaded
      cases loaded
    rw [loadProgram_eq_withProgram ready code data] at loaded
    exact ⟨⟨code, data⟩, (Except.ok.inj loaded).symm⟩
  · rintro ⟨⟨code, data⟩, rfl⟩
    exact loadProgram_eq_withProgram ready code data

end Emulator

/-! ## Where programs come from -/

namespace Program

variable {p : Program}

theorem FitsRegions.fitsMemory (fits : p.FitsRegions) : p.FitsMemory :=
  ⟨fits.code_le, fits.data_le⟩

theorem Storable.fitsMemory (storable : p.Storable) : p.FitsMemory :=
  ⟨storable.code_le, storable.data_le⟩

/-- An image that is read has a body behind its header that is read. -/
theorem exists_ofBody_of_ofImage {input : List UInt8} (read : ofImage input = .ok p) :
    ∃ body, ofBody body = .ok p := by
  unfold ofImage at read
  split at read
  · cases read
  · simp only [Except.bind_eq_ok_iff, Prod.exists] at read
    obtain ⟨magic, rest, -, read⟩ := read
    split at read
    · cases read
    · simp only [Except.bind_eq_ok_iff, Prod.exists] at read
      obtain ⟨version, body, -, read⟩ := read
      split at read
      · cases read
      · exact ⟨body, read⟩

theorem fitsMemory_of_ofImage {input : List UInt8} (read : ofImage input = .ok p) :
    p.FitsMemory := by
  obtain ⟨body, read⟩ := exists_ofBody_of_ofImage read
  exact (ofBody_eq_ok_iff.mp read).2.fitsMemory

end Program

namespace Emulator

/-- **Loading establishes exactly the program.** A ready emulator loads a program just if its code
and its data fit their regions, and then the program is in the emulator that is left and all else in
it is as it was. What the assembler makes of a source and what is read from an image always fits. -/
theorem load_establishes {e : Emulator} (ready : e.state = .ready) (p : Program) :
    ((∃ e', e.loadProgram p = .ok e') ↔ p.FitsMemory) ∧
      (∀ e', e.loadProgram p = .ok e' → e.Loads p e') ∧
      (∀ source, assemble source = .ok p → p.FitsMemory) ∧
      ∀ input, Program.ofImage input = .ok p → p.FitsMemory := by
  refine ⟨⟨?_, fun fits => ?_⟩, fun e' loaded => ?_, fun source assembled => ?_,
    fun input read => ?_⟩
  · rintro ⟨e', loaded⟩
    exact ((loadProgram_eq_ok_iff ready).mp loaded).1
  · exact ⟨_, (loadProgram_eq_ok_iff ready).mpr ⟨fits, rfl⟩⟩
  · obtain ⟨fits, rfl⟩ := (loadProgram_eq_ok_iff ready).mp loaded
    exact e.loads_withProgram fits
  · exact (assemble_fitsRegions assembled).fitsMemory
  · exact Program.fitsMemory_of_ofImage read

/-- A ready emulator in which a program has been loaded and bytes have been written behind its
code. -/
def usedBefore : Emulator :=
  ((((call {} .reset).2.call (.loadProgram
    { code := [0x01000000, 0x01000000, 0x00000000], data := [1, 2, 3, 4, 5], lines := [1, 2, 3] }
    )).2.call (.writeMemory 0x1000c [0xff])).2.call (.writeMemory 0x20ffc [7])).2

theorem load_establishes_usedBefore :
    usedBefore.state = .ready ∧
      usedBefore.machine.memory.readWord 0x1000c = .ok 0xff ∧
      (∃ e', usedBefore.loadProgram { code := [0x00000000], data := [9], lines := [4] } = .ok e' ∧
        usedBefore.Loads { code := [0x00000000], data := [9], lines := [4] } e') ∧
      ¬∃ e', usedBefore.loadProgram { data := List.replicate 4097 0 } = .ok e' := by
  have ready : usedBefore.state = .ready := by decide +kernel
  obtain ⟨loads, leaves, -⟩ :=
    load_establishes ready { code := [0x00000000], data := [9], lines := [4] }
  obtain ⟨e', loaded⟩ := loads.mpr (by decide)
  obtain ⟨refused, -⟩ := load_establishes ready { data := List.replicate 4097 0 }
  have tooLarge : ¬Program.FitsMemory { data := List.replicate 4097 0 } := by
    rintro ⟨-, data⟩
    rw [List.length_replicate] at data
    exact absurd data (by decide)
  exact ⟨ready, by decide +kernel, ⟨e', loaded, leaves e' loaded⟩, mt refused.mp tooLarge⟩

end Emulator

end RobotMachine
