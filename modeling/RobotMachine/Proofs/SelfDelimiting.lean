import RobotMachine.Bytes.Sink
import RobotMachine.Proofs.Codec

/-!
# The codec in front of other bytes

An encoding tells where it ends: read in front of any other bytes it gives its value and leaves
those bytes, and nothing but an encoding does. What becomes of an encoding in a sink depends on its
chunks alone, so a counter counts as many bytes as a buffer keeps.

* `Shape.map_encodeTo`: a map that commutes with writing a chunk commutes with writing a value.
* `Shape.codec_exact`: reading and writing are inverse to each other, for all shapes.
-/

namespace RobotMachine.Shape

variable {s : Shape}

/-! ## Sinks -/

theorem map_encodeTo {σ τ : Type} {sink : Sink σ} {sink' : Sink τ} {f : σ → τ}
    (commutes : ∀ out chunk, f (sink.write out chunk) = sink'.write (f out) chunk)
    (v : s.Value) (out : σ) : f (s.encodeTo sink v out) = s.encodeTo sink' v (f out) := by
  induction s generalizing out with
  | uint8 | uint16 | uint32 | uint64 | int32 | int64 | size | bool => apply commutes
  | string => simp only [encodeTo, commutes]
  | array length element ih =>
    obtain ⟨values, _⟩ := v
    exact (List.foldl_hom f fun out v => (ih v out).symm).symm
  | list element ih =>
    simp only [encodeTo]
    rw [← commutes]
    exact (List.foldl_hom f fun out v => (ih v out).symm).symm
  | pair first second ihFirst ihSecond => simp only [encodeTo, ihFirst, ihSecond]

theorem foldl_encodeTo_buffer
    (one : ∀ (v : s.Value) out, s.encodeTo .buffer v out = out ++ s.encode v)
    (values : List s.Value) (out : List UInt8) :
    values.foldl (fun out v => s.encodeTo .buffer v out) out = out ++ values.flatMap s.encode := by
  induction values generalizing out with
  | nil => exact (List.append_nil out).symm
  | cons v values ih =>
    rw [List.foldl_cons, one, ih, List.flatMap_cons, List.append_assoc]

/-- A buffer keeps the encoding behind what it holds already. -/
theorem encodeTo_buffer (v : s.Value) (out : List UInt8) :
    s.encodeTo .buffer v out = out ++ s.encode v := by
  induction s generalizing out with
  | uint8 | uint16 | uint32 | uint64 | int32 | int64 | size | bool => rfl
  | string => exact List.append_assoc _ _ _
  | array length element ih =>
    obtain ⟨values, _⟩ := v
    exact foldl_encodeTo_buffer ih values out
  | list element ih =>
    exact (foldl_encodeTo_buffer ih v _).trans (List.append_assoc _ _ _)
  | pair first second ihFirst ihSecond =>
    simp only [encodeTo, encode, ihFirst, ihSecond]
    exact List.append_assoc _ _ _

/-- A counter goes on from the length of a buffer to its length behind the encoding. -/
theorem encodeTo_counter (v : s.Value) (out : List UInt8) :
    s.encodeTo .counter v out.length = (s.encodeTo .buffer v out).length :=
  (map_encodeTo (fun _ _ => List.length_append) v out).symm

theorem length_flatMap_encode (one : ∀ v, (s.encode v).length = s.byteCount v)
    (values : List s.Value) :
    (values.flatMap s.encode).length = (values.map s.byteCount).sum := by
  simp only [List.length_flatMap, one]

theorem length_lengthBytes_append (n : Nat) (bytes : List UInt8) :
    (lengthBytes n ++ bytes).length = 8 + bytes.length := by
  rw [List.length_append, lengthBytes, LittleEndian.length_bytes]

theorem length_encode (v : s.Value) : (s.encode v).length = s.byteCount v := by
  induction s with
  | uint8 | uint16 | uint32 | uint64 | int32 | int64 | size =>
    exact LittleEndian.length_bytes _ _
  | bool => rfl
  | string =>
    exact (length_lengthBytes_append _ _).trans (congrArg (8 + ·) (length_toUTF8 v))
  | array length element ih =>
    obtain ⟨values, _⟩ := v
    exact length_flatMap_encode ih values
  | list element ih =>
    exact (length_lengthBytes_append _ _).trans (congrArg (8 + ·) (length_flatMap_encode ih v))
  | pair first second ihFirst ihSecond =>
    exact List.length_append.trans (congrArg₂ (· + ·) (ihFirst v.1) (ihSecond v.2))

/-! ## Reading and writing -/

/-- **Reading and writing are inverse to each other.** An encoding is read back in front of any
bytes and leaves exactly those, or it is refused since a list or a string in it is too long to be
read; nothing but an encoding is read; and a counter counts the bytes that a buffer receives. A list
or a string that is written has a length of 64 bits. -/
theorem codec_exact (s : Shape) :
    (∀ (v : s.Value) (tail : List UInt8),
        (s.Fits v → s.decode (s.encode v ++ tail) = .ok (v, tail)) ∧
          (s.Sized v → ¬s.Fits v → s.decode (s.encode v ++ tail) = .error .lengthTooLarge)) ∧
      (∀ (input rest : List UInt8) (v : s.Value), s.decode input = .ok (v, rest) →
        input = s.encode v ++ rest) ∧
      ∀ (v : s.Value) (out : List UInt8),
        s.encodeTo .buffer v out = out ++ s.encode v ∧
          s.encodeTo .counter v out.length = (s.encodeTo .buffer v out).length ∧
          s.byteCount v = (s.encode v).length := by
  refine ⟨?_, ?_, ?_⟩
  · intro v tail
    refine ⟨?_, ?_⟩
    · intro fits
      exact decode_encode fits tail
    · intro sized unfit
      exact decode_eq_error sized unfit tail
  · intro input rest v read
    obtain ⟨-, same⟩ := decode_eq_ok_iff.mp read
    exact same
  · intro v out
    exact ⟨encodeTo_buffer v out, encodeTo_counter v out, (length_encode v).symm⟩

/-- A name with a list of arrays that take up no bytes. -/
abbrev namedEmpties : Shape :=
  .pair .string (.list (.array 0 .uint8))

/-- An array that takes up no bytes. -/
def noBytes : (array 0 uint8).Value :=
  ⟨[], rfl⟩

/-- One array more than can be read back. -/
def tooManyEmpties : namedEmpties.Value :=
  ("é", List.replicate (maxLength + 1) noBytes)

theorem codec_exact_namedEmpties :
    namedEmpties.Fits ("é", [noBytes, noBytes]) ∧
      namedEmpties.decode (namedEmpties.encode ("é", [noBytes, noBytes]) ++ [7]) =
        .ok (("é", [noBytes, noBytes]), [7]) ∧
      namedEmpties.Sized tooManyEmpties ∧ ¬namedEmpties.Fits tooManyEmpties ∧
      namedEmpties.decode (namedEmpties.encode tooManyEmpties ++ [7]) = .error .lengthTooLarge := by
  have name : "é".utf8ByteSize ≤ maxLength := by decide +kernel
  have count : (List.replicate (maxLength + 1) noBytes).length = maxLength + 1 :=
    List.length_replicate
  have short : namedEmpties.Fits ("é", [noBytes, noBytes]) := by
    exact ⟨name, (by decide : 2 ≤ maxLength), fun _ _ _ _ => trivial⟩
  have sized : namedEmpties.Sized tooManyEmpties := by
    refine ⟨Nat.lt_of_le_of_lt name (by decide), ?_, fun _ _ _ _ => trivial⟩
    exact count ▸ (by decide : maxLength + 1 < 256 ^ 8)
  have unfit : ¬namedEmpties.Fits tooManyEmpties := by
    intro fits
    have few : maxLength + 1 ≤ maxLength := count ▸ fits.2.1
    exact Nat.not_succ_le_self maxLength few
  obtain ⟨written, -, -⟩ := codec_exact namedEmpties
  obtain ⟨readBack, -⟩ := written ("é", [noBytes, noBytes]) [7]
  obtain ⟨-, refused⟩ := written tooManyEmpties [7]
  exact ⟨short, readBack short, sized, unfit, refused sized unfit⟩

end RobotMachine.Shape
