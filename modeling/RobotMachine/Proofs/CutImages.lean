import RobotMachine.Proofs.Image

/-!
# Cut and extended images

Every part of an encoding says how long it is before its own bytes come. So a reader of a cut
encoding finds the end of its input, wherever the cut is, and never a shorter value or a value that
is none. Behind a whole encoding it leaves what follows, and an image may have nothing there.

* `StopsInside`: a reader that finds the end of its input in front of every byte that was written.
* `StopsInside.bind`: two readers one after the other.
* `Shape.stopsInside_decode`: an encoding of any shape, cut anywhere.
* `Program.ofImage_cut_or_extended`: cut and extended images of programs.
-/

namespace RobotMachine

/-- A cut in two parts one behind the other is in the second part or inside the first. -/
theorem cut_of_append {first second front back : List UInt8}
    (cut : first ++ second = front ++ back) :
    (∃ more, front = first ++ more ∧ second = more ++ back) ∨
      ∃ missing, first = front ++ missing ∧ missing ≠ [] := by
  rcases List.append_eq_append_iff.mp cut with ⟨more, inSecond⟩ | ⟨missing, first_eq, back_eq⟩
  · exact .inl ⟨more, inSecond⟩
  · cases missing with
    | nil =>
      rw [List.append_nil] at first_eq
      exact .inl ⟨[], by rw [List.append_nil, first_eq], back_eq.symm⟩
    | cons b missing => exact .inr ⟨b :: missing, first_eq, List.cons_ne_nil b missing⟩

/-- The reader finds the end of its input if any of the bytes at the end of what was written are
missing. -/
def StopsInside {α : Type} (read : List UInt8 → Except CodecError α) (written : List UInt8) :
    Prop :=
  ∀ front back, written = front ++ back → back ≠ [] → read front = .error .unexpectedEnd

/-! ## Readers one after the other -/

namespace StopsInside

variable {α β : Type} {written : List UInt8}

/-- Nothing is left out of nothing. -/
theorem nil (read : List UInt8 → Except CodecError α) : StopsInside read [] := by
  intro front back cut some
  exact absurd (List.append_eq_nil_iff.mp cut.symm).2 some

/-- A reader that stops does not come to what is done behind it. -/
theorem andThen {read : List UInt8 → Except CodecError α} (stops : StopsInside read written)
    (next : α → Except CodecError β) : StopsInside (fun input => read input >>= next) written := by
  intro front back cut some
  dsimp only
  rw [stops front back cut some]
  rfl

/-- A second reader stops inside its own part, behind the part that the first one has read. -/
theorem bind {read : List UInt8 → Except CodecError (α × List UInt8)} {first second : List UInt8}
    {a : α} {next : α × List UInt8 → Except CodecError β} (stops : StopsInside read first)
    (reads : ∀ rest, read (first ++ rest) = .ok (a, rest))
    (stopsNext : StopsInside (fun rest => next (a, rest)) second) :
    StopsInside (fun input => read input >>= next) (first ++ second) := by
  intro front back cut some
  rcases cut_of_append cut with ⟨more, rfl, second_eq⟩ | ⟨missing, first_eq, someMissing⟩
  · dsimp only
    rw [reads more, Except.ok_bind]
    exact stopsNext more back second_eq some
  · exact stops.andThen next front missing first_eq someMissing

/-! ## Bytes, numbers and sequences -/

theorem readBytes {count : Nat} (length : written.length = count) :
    StopsInside (readBytes count) written := by
  intro front back cut some
  have short : front.length < count := by
    rw [← length, cut, List.length_append]
    exact Nat.lt_add_of_pos_right (List.length_pos_iff.mpr some)
  rw [RobotMachine.readBytes]
  refine if_neg (Nat.ne_of_lt ?_)
  exact Nat.lt_of_le_of_lt (List.length_take_le' count front) short

theorem readNumber (count n : Nat) :
    StopsInside (readNumber count) (LittleEndian.bytes count n) :=
  (readBytes (LittleEndian.length_bytes count n)).andThen _

theorem readLength (n : Nat) : StopsInside readLength (lengthBytes n) :=
  (readNumber 8 n).andThen _

theorem readMany {read : List UInt8 → Except CodecError (α × List UInt8)} {write : α → List UInt8}
    {values : List α} (stops : ∀ v ∈ values, StopsInside read (write v))
    (reads : ∀ v ∈ values, ∀ rest, read (write v ++ rest) = .ok (v, rest)) :
    StopsInside (readMany read values.length) (values.flatMap write) := by
  induction values with
  | nil => exact nil _
  | cons v values ih =>
    obtain ⟨stopsHead, stopsTail⟩ := List.forall_mem_cons.mp stops
    obtain ⟨readsHead, readsTail⟩ := List.forall_mem_cons.mp reads
    exact stopsHead.bind readsHead ((ih stopsTail readsTail).andThen _)

/-- A length, and what is read with it. -/
theorem lengthThen {n : Nat} (small : n ≤ maxLength)
    {next : Nat × List UInt8 → Except CodecError β}
    (stops : StopsInside (fun rest => next (n, rest)) written) :
    StopsInside (fun input => RobotMachine.readLength input >>= next) (lengthBytes n ++ written) :=
  (readLength n).bind (fun _ => readLength_eq_ok_iff.mpr ⟨small, rfl⟩) stops

end StopsInside

/-- The encoding of a value that can be read back is refused for the end of the input if any bytes
at its end are missing. -/
theorem Shape.stopsInside_decode {s : Shape} {v : s.Value} (fits : s.Fits v) :
    StopsInside s.decode (s.encode v) := by
  induction s with
  | uint8 | uint16 | uint32 | uint64 | int32 | int64 | size =>
    exact (StopsInside.readNumber _ _).andThen _
  | bool =>
    have byte : [Bool.toUInt8 v].length = 1 := rfl
    exact ((StopsInside.readBytes byte).andThen _).andThen _
  | string =>
    have whole : v.toUTF8.data.toList.length ≤ maxLength := (length_toUTF8 v).symm ▸ fits
    exact .lengthThen whole ((StopsInside.readBytes rfl).andThen _)
  | array length element ih =>
    obtain ⟨values, rfl⟩ := v
    exact .readMany (fun w member => ih (fits w member))
      fun w member => decode_encode (fits w member)
  | list element ih =>
    obtain ⟨few, each⟩ := fits
    have stops := StopsInside.readMany (fun w member => ih (each w member))
      fun w member => decode_encode (each w member)
    exact .lengthThen few (stops.andThen _)
  | pair first second ihFirst ihSecond =>
    obtain ⟨fitsFirst, fitsSecond⟩ := fits
    exact (ihFirst fitsFirst).bind (decode_encode fitsFirst)
      ((ihSecond fitsSecond).andThen _)

/-! ## Images -/

namespace Program

variable {p : Program} {front back : List UInt8}

/-- Every list of the program and every name in it is short enough to be read back. -/
structure Readable (p : Program) : Prop where
  code_le : p.code.length ≤ maxLength
  data_le : p.data.length ≤ maxLength
  lines_le : p.lines.length ≤ maxLength
  symbols_le : p.symbols.length ≤ maxLength
  names_le : ∀ entry ∈ p.symbols, entry.1.utf8ByteSize ≤ maxLength

theorem Readable.fits_parts (readable : p.Readable) : programShape.Fits p.parts :=
  ⟨⟨readable.code_le, fun _ _ => trivial⟩, ⟨readable.data_le, fun _ _ => trivial⟩,
    ⟨readable.lines_le, fun _ _ => trivial⟩, readable.symbols_le,
    fun entry member => ⟨readable.names_le entry member, trivial⟩⟩

/-- Behind the magic number the version is missing, or the end of the program is. -/
theorem ofImage_of_cut (fits : programShape.Fits p.parts)
    (cut : imageVersion ++ programShape.encode p.parts = front ++ back) (some : back ≠ []) :
    ofImage (imageMagic ++ front) = .error (.codec .unexpectedEnd) := by
  have program := Shape.stopsInside_decode fits
  have length : imageVersion.length = 3 := rfl
  rcases cut_of_append cut with ⟨more, rfl, rest⟩ | ⟨missing, version, someMissing⟩
  · rw [ofImage_header, ofBody, program more back rest some]
    rfl
  · have stops := StopsInside.readBytes length front missing version someMissing
    have long : ¬((imageMagic ++ front).take 6).length < 6 := by
      rw [List.length_take, List.length_append, length_imageMagic]
      omega
    have magic : readBytes 6 (imageMagic ++ front) = .ok (imageMagic, front) :=
      readBytes_eq_ok_iff.mpr ⟨length_imageMagic, rfl⟩
    simp only [ofImage, if_neg long, magic, stops, Except.mapError, Except.ok_bind, ne_eq,
      not_true_eq_false, if_false]
    rfl

/-- A program is not read from an image with other bytes behind it. -/
theorem ofImage_of_extended (fits : programShape.Fits p.parts) {tail : List UInt8}
    (some : tail ≠ []) : ofImage (p.toImage ++ tail) = .error .trailingBytes := by
  rw [toImage, List.append_assoc, List.append_assoc, ofImage_header, ofBody,
    Shape.decode_encode fits]
  simp only [Except.mapError, Except.ok_bind, if_pos some]
  rfl

/-- **A cut or extended image is never mistaken for a program.** What is left of an image without
some bytes at its end is refused as truncated if it is shorter than the magic number, and else for
the end of the input. An image with other bytes behind it is refused for these. -/
theorem ofImage_cut_or_extended (readable : p.Readable) :
    (∀ front, front <+: p.toImage → front ≠ p.toImage →
      ofImage front =
        if front.length < 6 then .error .truncated else .error (.codec .unexpectedEnd)) ∧
      ∀ tail, tail ≠ [] → ofImage (p.toImage ++ tail) = .error .trailingBytes := by
  have fits := readable.fits_parts
  refine ⟨fun front isFront shorter => ?_, fun tail => ofImage_of_extended fits⟩
  obtain ⟨back, whole⟩ := isFront
  have some : back ≠ [] := by
    intro none
    rw [none, List.append_nil] at whole
    exact shorter whole
  split
  · next short =>
    have taken : (front.take 6).length < 6 :=
      Nat.lt_of_le_of_lt (List.length_take_le' 6 front) short
    rw [ofImage, if_pos taken]
    rfl
  · next long =>
    rw [toImage, List.append_assoc] at whole
    rcases cut_of_append whole.symm with ⟨more, rfl, rest⟩ | ⟨missing, magic, someMissing⟩
    · exact ofImage_of_cut fits rest some
    · have missingLength := List.length_pos_iff.mpr someMissing
      have magicLength := congrArg List.length magic
      rw [length_imageMagic, List.length_append] at magicLength
      omega

/-- A program whose only symbol has a name of one character in two bytes. -/
def oneWideName : Program :=
  { code := [0x50010000], lines := [1], symbols := [("é", codeBase)] }

/-- The image of the program is cut inside its magic number, inside its version, inside a length and
between the bytes of a character, and a byte is put behind it. -/
theorem ofImage_cut_or_extended_oneWideName :
    oneWideName.Readable ∧ oneWideName.toImage.length = 63 ∧
      ofImage (oneWideName.toImage.take 5) = .error .truncated ∧
      (∀ cut ∈ [6, 8, 12, 58], ofImage (oneWideName.toImage.take cut) =
        .error (.codec .unexpectedEnd)) ∧
      ofImage (oneWideName.toImage ++ [0]) = .error .trailingBytes := by
  have readable : oneWideName.Readable := by
    refine ⟨by decide, by decide, by decide, by decide, ?_⟩
    exact List.forall_mem_singleton.mpr (by decide +kernel)
  have length : oneWideName.toImage.length = 63 := by decide +kernel
  obtain ⟨cut, extended⟩ := ofImage_cut_or_extended readable
  have isFront (n : Nat) : oneWideName.toImage.take n <+: oneWideName.toImage :=
    List.take_prefix n _
  have lengthOf (n : Nat) (inside : n < 63) : (oneWideName.toImage.take n).length = n := by
    rw [List.length_take, length]
    omega
  have shorter (n : Nat) (inside : n < 63) :
      oneWideName.toImage.take n ≠ oneWideName.toImage := by
    intro same
    have lengths := lengthOf n inside
    rw [same, length] at lengths
    omega
  refine ⟨readable, length, ?_, fun n member => ?_, extended [0] (by decide)⟩
  · rw [cut _ (isFront 5) (shorter 5 (by decide)), lengthOf 5 (by decide)]
    rfl
  · have bounds : n < 63 ∧ ¬n < 6 := by
      revert n
      decide
    rw [cut _ (isFront n) (shorter n bounds.1), lengthOf n bounds.1, if_neg bounds.2]

end Program

end RobotMachine
