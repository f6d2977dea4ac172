import RobotMachine.Program.Image
import RobotMachine.Proofs.Codec

/-!
# Images and storable programs

An image is read exactly if it is the image of a storable program, and then that program is what is
read. So every storable program comes back from its image, and no other bytes give it.

* `Program.Storable`: the programs that have an image which can be read.
* `Program.ofImage_eq_ok_iff`: the images that are read, and the program in each.
* `Program.ofImage_toImage_eq_error`: the images that are written and then refused.
-/

namespace RobotMachine

namespace Program

/-- The program fits its memory regions, has one line for each code word, and its symbols are few
and short enough to be read back. -/
structure Storable (p : Program) : Prop where
  code_le : p.code.length ≤ regionWords
  data_le : p.data.length ≤ regionSize
  lines_eq : p.lines.length = p.code.length
  symbols_le : p.symbols.length ≤ maxLength
  names_le : ∀ entry ∈ p.symbols, entry.1.utf8ByteSize ≤ maxLength

theorem ofParts_parts (p : Program) : ofParts p.parts = p := rfl

theorem parts_ofParts (v : programShape.Value) : (ofParts v).parts = v := rfl

theorem Storable.fits_parts {p : Program} (h : p.Storable) : programShape.Fits p.parts := by
  refine ⟨⟨?_, fun _ _ => trivial⟩, ⟨?_, fun _ _ => trivial⟩, ⟨?_, fun _ _ => trivial⟩,
    h.symbols_le, fun entry member => ⟨h.names_le entry member, trivial⟩⟩
  · exact Nat.le_trans h.code_le (by decide)
  · exact Nat.le_trans h.data_le (by decide)
  · exact Nat.le_trans (h.lines_eq ▸ h.code_le) (by decide)

theorem ofBody_eq_ok_iff {input : List UInt8} {p : Program} :
    ofBody input = .ok p ↔ input = programShape.encode p.parts ∧ p.Storable := by
  simp only [ofBody, Except.bind_eq_ok_iff, Except.mapError_eq_ok_iff, Prod.exists,
    Shape.decode_eq_ok_iff]
  refine ⟨fun outcome => ?_, fun image => ?_⟩
  · obtain ⟨parts, rest, ⟨⟨-, -, -, symbols⟩, rfl⟩, read⟩ := outcome
    split at read
    · cases read
    · next whole =>
      split at read
      · cases read
      · next regions =>
        split at read
        · cases read
        · next lines =>
          cases read
          rw [ne_eq, Decidable.not_not] at whole lines
          rw [not_or, Nat.not_lt, Nat.not_lt] at regions
          rw [whole, List.append_nil, parts_ofParts]
          exact ⟨rfl, regions.1, regions.2, lines, symbols.1,
            fun entry member => (symbols.2 entry member).1⟩
  · obtain ⟨rfl, h⟩ := image
    refine ⟨p.parts, [], ⟨h.fits_parts, (List.append_nil _).symm⟩, ?_⟩
    have regions : ¬ (p.code.length > regionWords ∨ p.data.length > regionSize) := by
      rw [not_or, Nat.not_lt, Nat.not_lt]
      exact ⟨h.code_le, h.data_le⟩
    rw [ofParts_parts, if_neg (not_not_intro rfl), if_neg regions,
      if_neg (not_not_intro h.lines_eq)]
    rfl

theorem length_imageMagic : imageMagic.length = 6 := by
  decide +kernel

/-- **Images and storable programs correspond one to one.** Bytes are read as a program exactly
if they are its image and the program is storable. -/
theorem ofImage_eq_ok_iff {input : List UInt8} {p : Program} :
    ofImage input = .ok p ↔ input = p.toImage ∧ p.Storable := by
  simp only [ofImage]
  refine ⟨fun read => ?_, fun image => ?_⟩
  · split at read
    · cases read
    · simp only [Except.bind_eq_ok_iff, Except.mapError_eq_ok_iff, Prod.exists,
        readBytes_eq_ok_iff] at read
      obtain ⟨magic, rest, ⟨-, rfl⟩, read⟩ := read
      split at read
      · cases read
      · next sameMagic =>
        simp only [Except.bind_eq_ok_iff, Except.mapError_eq_ok_iff, Prod.exists,
          readBytes_eq_ok_iff] at read
        obtain ⟨version, body, ⟨-, rfl⟩, read⟩ := read
        split at read
        · cases read
        · next sameVersion =>
          rw [ne_eq, Decidable.not_not] at sameMagic sameVersion
          obtain ⟨rfl, storable⟩ := ofBody_eq_ok_iff.mp read
          rw [sameMagic, sameVersion, ← List.append_assoc]
          exact ⟨rfl, storable⟩
  · obtain ⟨rfl, storable⟩ := image
    have front : ¬ (p.toImage.take 6).length < 6 := by
      rw [List.length_take, toImage, List.append_assoc, List.length_append, length_imageMagic]
      omega
    have magic : readBytes 6 p.toImage =
        .ok (imageMagic, imageVersion ++ programShape.encode p.parts) :=
      readBytes_eq_ok_iff.mpr ⟨length_imageMagic, List.append_assoc _ _ _⟩
    have version : readBytes 3 (imageVersion ++ programShape.encode p.parts) =
        .ok (imageVersion, programShape.encode p.parts) :=
      readBytes_eq_ok_iff.mpr ⟨rfl, rfl⟩
    have body : ofBody (programShape.encode p.parts) = .ok p :=
      ofBody_eq_ok_iff.mpr ⟨rfl, storable⟩
    rw [if_neg front, magic]
    simp only [Except.mapError, Except.ok_bind, version, ne_eq, not_true_eq_false, if_false, body]

/-- Behind the magic number and the version the rest is read as a program. -/
theorem ofImage_header (body : List UInt8) :
    ofImage (imageMagic ++ (imageVersion ++ body)) = ofBody body := by
  have front : ¬((imageMagic ++ (imageVersion ++ body)).take 6).length < 6 := by
    rw [List.length_take, List.length_append, length_imageMagic]
    omega
  have magic : readBytes 6 (imageMagic ++ (imageVersion ++ body)) =
      .ok (imageMagic, imageVersion ++ body) :=
    readBytes_eq_ok_iff.mpr ⟨length_imageMagic, rfl⟩
  have version : readBytes 3 (imageVersion ++ body) = .ok (imageVersion, body) :=
    readBytes_eq_ok_iff.mpr ⟨rfl, rfl⟩
  simp only [ofImage, if_neg front, magic, version, Except.mapError, Except.ok_bind, ne_eq,
    not_true_eq_false, if_false]

theorem ofImage_toImage (p : Program) :
    ofImage p.toImage = ofBody (programShape.encode p.parts) := by
  rw [toImage, List.append_assoc, ofImage_header]

/-- A program with too many symbols or too long a name has an image that is refused. -/
theorem ofImage_toImage_eq_error {p : Program} (sized : programShape.Sized p.parts)
    (unfit : ¬programShape.Fits p.parts) :
    ofImage p.toImage = .error (.codec .lengthTooLarge) := by
  have refused := Shape.decode_eq_error sized unfit []
  rw [List.append_nil] at refused
  rw [ofImage_toImage, ofBody, refused]
  rfl

end Program

end RobotMachine
