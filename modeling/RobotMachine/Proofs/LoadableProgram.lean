import RobotMachine.Proofs.LoadedCode

/-!
# Assembled programs can be loaded

The data of a source starts behind the mailbox word, and no statement reaches back over it. So the
data image of an assembled program, if there is one at all, goes on behind a mailbox of zeros. With
the sizes, which the layout watches and the emission enforces, this makes an assembled program one
that every emulator loads once it is reset.

* `Emission.take_foldl_putInto`: bytes that are put behind a place leave what stands before it.
* `assemble_wellFormed`: what holds of every assembled program.
-/

namespace RobotMachine

/-! ## The mailbox in the data -/

namespace Emission

variable {image : List UInt8} {n : Nat}

theorem take_putInto {e : Emission} (room : n ≤ image.length)
    (behind : ∀ extent, e.extent? = some extent → n ≤ extent.1) :
    (e.putInto image).take n = image.take n := by
  cases e with
  | word w line => rfl
  | data offset bytes =>
    have before : n ≤ offset := behind _ rfl
    have front : n ≤ (image.take offset).length := by
      rw [List.length_take]
      omega
    rw [putInto, List.append_assoc, List.take_append_of_le_length front, List.take_take,
      Nat.min_eq_left before]

theorem take_foldl_putInto {emissions : List Emission} (room : n ≤ image.length)
    (behind : ∀ extent ∈ emissions.filterMap extent?, n ≤ extent.1) :
    (emissions.foldl putInto image).take n = image.take n := by
  induction emissions generalizing image with
  | nil => rfl
  | cons e emissions ih =>
    have head : (e.putInto image).take n = image.take n := by
      refine take_putInto room fun extent place => behind extent ?_
      rw [List.filterMap_cons_some place]
      exact List.mem_cons_self
    -- the front part is still there, so the image is still long enough
    have stillRoom : n ≤ (e.putInto image).length := by
      have lengths := congrArg List.length head
      rw [List.length_take, List.length_take] at lengths
      omega
    rw [List.foldl_cons, ih stillRoom, head]
    intro extent member
    obtain ⟨e', listed, place⟩ := List.mem_filterMap.mp member
    exact behind extent (List.mem_filterMap.mpr ⟨e', List.mem_cons_of_mem e listed, place⟩)

end Emission

/-- A data image is empty, or it goes on behind a mailbox word of zeros. -/
def Program.SparesMailbox (p : Program) : Prop :=
  p.data = [] ∨ wordSize < p.data.length ∧ p.data.take wordSize = List.replicate wordSize 0

namespace Layout

variable {l : Layout} {emissions : List Emission}

theorem HoldsData.sparesMailbox (h : l.HoldsData)
    (emitted : List.Forall₂ (fun s e => s.emit l.symbols = .ok e) l.statements.reverse emissions) :
    (l.program emissions).SparesMailbox := by
  have length := h.length_data emitted
  by_cases behind : wordSize < l.dataLength
  · have blank : l.blankData = List.replicate l.dataLength 0 := if_pos behind
    have room : wordSize ≤ l.blankData.length := by
      rw [blank, List.length_replicate]
      exact Nat.le_of_lt behind
    refine .inr ⟨?_, ?_⟩
    · rw [length, blank, List.length_replicate]
      exact behind
    · have starts : ∀ extent ∈ emissions.filterMap Emission.extent?, wordSize ≤ extent.1 := by
        intro extent member
        rw [Statement.extents_of_emit emitted, List.filterMap_reverse] at member
        exact (h.extents_le extent (List.mem_reverse.mp member)).1
      have spared := Emission.take_foldl_putInto room starts
      rw [program, spared, blank, List.take_replicate, Nat.min_eq_left (Nat.le_of_lt behind)]
  · have blank : l.blankData = [] := if_neg behind
    rw [blank] at length
    exact .inl (List.eq_nil_of_length_eq_zero length)

end Layout

/-! ## Programs -/

/-- What loading and running ask of a program: it fits its regions and has one line for each word,
each word is an instruction, and the data leaves the mailbox alone. -/
structure Program.IsWellFormed (p : Program) : Prop extends p.FitsRegions where
  decodes : ∀ word ∈ p.code, ∃ i, Instruction.decode word = .ok i
  mailbox : p.SparesMailbox

theorem assemble_sparesMailbox {source : String} {p : Program}
    (assembled : assemble source = .ok p) : p.SparesMailbox := by
  obtain ⟨l, laidOut, emitted⟩ := Except.bind_eq_ok_iff.mp assembled
  obtain ⟨-, emissions, each, rfl⟩ := Layout.emit_eq_ok emitted
  exact (Layout.HoldsData.ofLines laidOut).sparesMailbox each

/-- **Assembled programs are well-formed and can always be loaded.** The code fits its region, with
one line for each word, and every word is an instruction. The data fits its region too, and is
either empty or goes on behind a mailbox of zeros. Whatever an emulator did before, it loads such a
program once it is reset. -/
theorem assemble_wellFormed {source : String} {p : Program}
    (assembled : assemble source = .ok p) :
    p.IsWellFormed ∧ ∀ e : Emulator, ∃ loaded, e.reset.loadProgram p = .ok loaded := by
  have fits := assemble_fitsRegions assembled
  refine ⟨⟨fits, assemble_decodes assembled, assemble_sparesMailbox assembled⟩, fun e => ?_⟩
  obtain ⟨loaded, isLoaded, -⟩ := Emulator.loadProgram_eq_ok (e := e.reset) rfl fits
  exact ⟨loaded, isLoaded⟩

/-- Data that ends with its region: a label that waits over an empty string and an alignment, a
word, a string with a character of three bytes, and room up to the last byte. -/
def fullDataSource : String :=
  ".data\nhere:\n.ascii \"\"\n.align 4\nword: .word here - 1\n.asciz \"→\"\n.align 11\n" ++
    ".skip 0x800\n.text\nLDR R0, [here]\nHALT"

theorem assemble_wellFormed_fullDataSource :
    ∃ p loaded, assemble fullDataSource = .ok p ∧ p.data.length = regionSize ∧ p.IsWellFormed ∧
      Emulator.loadProgram (Emulator.reset { state := .faulted }) p = .ok loaded := by
  have found : (assemble fullDataSource).toOption.map (fun p => p.data.length) =
      some regionSize := by
    decide +kernel
  cases assembled : assemble fullDataSource with
  | error e =>
    rw [assembled] at found
    cases found
  | ok p =>
    rw [assembled] at found
    obtain ⟨wellFormed, loads⟩ := assemble_wellFormed assembled
    obtain ⟨loaded, isLoaded⟩ := loads { state := .faulted }
    exact ⟨p, loaded, rfl, Option.some.inj found, wellFormed, isLoaded⟩

end RobotMachine
