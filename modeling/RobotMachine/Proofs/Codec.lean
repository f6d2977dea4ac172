import RobotMachine.Bytes.Codec
import RobotMachine.Proofs.LittleEndian
import RobotMachine.Proofs.Outcome

/-!
# The codec as a bijection

Reading gives a value exactly if the input starts with the encoding of the value and every list
and string in it is short enough to be read. So no value has two encodings, and what is left over
does not matter for what is read.

* `Shape.Fits`: the values that can be read back.
* `Shape.decode_eq_ok_iff`: what reading gives, for all shapes and inputs.
* `Shape.decode_eq_error`: a value that does not fit is refused for a length.
-/

namespace RobotMachine

open LittleEndian

/-- Every list and every string in a value is short enough to be read back. -/
def Shape.Fits : (s : Shape) → s.Value → Prop
  | uint8, _ | uint16, _ | uint32, _ | uint64, _ | int32, _ | int64, _ | size, _ | bool, _ => True
  | string, v => String.utf8ByteSize v ≤ maxLength
  | array _ element, ⟨values, _⟩ => ∀ v ∈ values, element.Fits v
  | list element, (values : List element.Value) =>
    values.length ≤ maxLength ∧ ∀ v ∈ values, element.Fits v
  | pair first second, v => first.Fits v.1 ∧ second.Fits v.2

/-- The length of every list and every string in a value is a number of 64 bits. -/
def Shape.Sized : (s : Shape) → s.Value → Prop
  | uint8, _ | uint16, _ | uint32, _ | uint64, _ | int32, _ | int64, _ | size, _ | bool, _ => True
  | string, v => String.utf8ByteSize v < 256 ^ 8
  | array _ element, ⟨values, _⟩ => ∀ v ∈ values, element.Sized v
  | list element, (values : List element.Value) =>
    values.length < 256 ^ 8 ∧ ∀ v ∈ values, element.Sized v
  | pair first second, v => first.Sized v.1 ∧ second.Sized v.2

/-! ## Bytes and numbers -/

theorem readBytes_eq_ok_iff {count : Nat} {input bytes rest : List UInt8} :
    readBytes count input = .ok (bytes, rest) ↔ bytes.length = count ∧ input = bytes ++ rest := by
  unfold readBytes
  refine ⟨fun read => ?_, fun written => ?_⟩
  · simp only at read
    split at read
    · next length =>
      cases read
      exact ⟨length, (List.take_append_drop count input).symm⟩
    · cases read
  · obtain ⟨rfl, rfl⟩ := written
    rw [List.take_left', List.drop_left'] <;> simp

theorem readNumber_eq_ok_iff {count n : Nat} {input rest : List UInt8} :
    readNumber count input = .ok (n, rest) ↔
      n < 256 ^ count ∧ input = bytes count n ++ rest := by
  simp only [readNumber, Except.bind_eq_ok_iff, Except.pure_eq_ok_iff, Prod.exists,
    readBytes_eq_ok_iff, Prod.mk.injEq]
  refine ⟨fun outcome => ?_, fun written => ?_⟩
  · obtain ⟨front, _, ⟨rfl, rfl⟩, rfl, rfl⟩ := outcome
    exact ⟨number_lt front, by rw [bytes_number]⟩
  · obtain ⟨small, rfl⟩ := written
    exact ⟨_, _, ⟨length_bytes count n, rfl⟩, by rw [number_bytes, Nat.mod_eq_of_lt small], rfl⟩

theorem readLength_eq_ok_iff {n : Nat} {input rest : List UInt8} :
    readLength input = .ok (n, rest) ↔ n ≤ maxLength ∧ input = lengthBytes n ++ rest := by
  simp only [readLength, Except.bind_eq_ok_iff, Prod.exists, readNumber_eq_ok_iff]
  refine ⟨fun outcome => ?_, fun written => ?_⟩
  · obtain ⟨n', rest', ⟨-, rfl⟩, read⟩ := outcome
    split at read
    · next small =>
      cases read
      exact ⟨small, rfl⟩
    · cases read
  · obtain ⟨small, rfl⟩ := written
    have bound : n < 256 ^ 8 := Nat.lt_of_le_of_lt small (by decide)
    exact ⟨n, rest, ⟨bound, rfl⟩, if_pos small⟩

theorem readLength_eq_error {n : Nat} (large : maxLength < n) (sized : n < 256 ^ 8)
    (rest : List UInt8) : readLength (lengthBytes n ++ rest) = .error .lengthTooLarge := by
  have read : readNumber 8 (lengthBytes n ++ rest) = .ok (n, rest) :=
    readNumber_eq_ok_iff.mpr ⟨sized, rfl⟩
  rw [readLength, read, Except.ok_bind]
  exact if_neg (Nat.not_le.mpr large)

/-- An integer is read from as many bytes as its width when the conversions between it and its
number are inverse to each other. -/
theorem readInteger_eq_ok_iff {α : Type} {count : Nat} {ofNumber : Nat → α} {toNumber : α → Nat}
    (bound : ∀ v, toNumber v < 256 ^ count) (ofTo : ∀ v, ofNumber (toNumber v) = v)
    (toOf : ∀ n < 256 ^ count, toNumber (ofNumber n) = n) {v : α} {input rest : List UInt8} :
    (do let (n, rest) ← readNumber count input
        return (ofNumber n, rest)) = (.ok (v, rest) : Except CodecError _) ↔
      input = bytes count (toNumber v) ++ rest := by
  simp only [Except.bind_eq_ok_iff, Except.pure_eq_ok_iff, Prod.exists, readNumber_eq_ok_iff,
    Prod.mk.injEq]
  refine ⟨fun outcome => ?_, fun same => ?_⟩
  · obtain ⟨n, _, ⟨small, rfl⟩, rfl, rfl⟩ := outcome
    rw [toOf n small]
  · subst same
    exact ⟨_, _, ⟨bound v, rfl⟩, ofTo v, rfl⟩

/-! ## Sequences and strings -/

theorem readMany_eq_ok_iff {α : Type} {read : List UInt8 → Except CodecError (α × List UInt8)}
    {fits : α → Prop} {write : α → List UInt8}
    (one : ∀ v input rest, read input = .ok (v, rest) ↔ fits v ∧ input = write v ++ rest)
    {count : Nat} {values : { values : List α // values.length = count }}
    {input rest : List UInt8} :
    readMany read count input = .ok (values, rest) ↔
      (∀ v ∈ values.val, fits v) ∧ input = values.val.flatMap write ++ rest := by
  induction count generalizing input rest with
  | zero =>
    obtain ⟨values, length⟩ := values
    cases List.eq_nil_of_length_eq_zero length
    simp [readMany]
  | succ count ih =>
    obtain ⟨values, length⟩ := values
    cases values with
    | nil => cases length
    | cons v vs =>
      simp only [readMany, Except.bind_eq_ok_iff, Except.pure_eq_ok_iff, Prod.exists, one,
        Subtype.exists, ih, Prod.mk.injEq, Subtype.mk.injEq, List.forall_mem_cons,
        List.flatMap_cons, List.append_assoc]
      refine ⟨fun outcome => ?_, fun written => ?_⟩
      · obtain ⟨_, _, ⟨fitsHead, rfl⟩, _, _, _, ⟨fitsTail, rfl⟩, same, rfl⟩ := outcome
        cases same
        exact ⟨⟨fitsHead, fitsTail⟩, rfl⟩
      · obtain ⟨⟨fitsHead, fitsTail⟩, rfl⟩ := written
        exact ⟨v, _, ⟨fitsHead, rfl⟩, vs, Nat.succ.inj length, rest, ⟨fitsTail, rfl⟩, rfl, rfl⟩

/-- Values are read up to the first that does not fit. -/
theorem readMany_eq_error {α : Type} {read : List UInt8 → Except CodecError (α × List UInt8)}
    {fits : α → Prop} {write : α → List UInt8} {e : CodecError} {values : List α}
    (reads : ∀ v rest, fits v → read (write v ++ rest) = .ok (v, rest))
    (fails : ∀ v ∈ values, ∀ rest, ¬fits v → read (write v ++ rest) = .error e)
    (unfit : ¬∀ v ∈ values, fits v) (rest : List UInt8) :
    readMany read values.length (values.flatMap write ++ rest) = .error e := by
  induction values with
  | nil => exact absurd nofun unfit
  | cons v vs ih =>
    rw [List.flatMap_cons, List.append_assoc, List.length_cons, readMany]
    by_cases fitsHead : fits v
    · have tail := ih (fun w member => fails w (List.mem_cons_of_mem v member))
        (fun fitsTail => unfit (List.forall_mem_cons.mpr ⟨fitsHead, fitsTail⟩))
      rw [reads v _ fitsHead, Except.ok_bind]
      dsimp only
      rw [tail]
      rfl
    · rw [fails v List.mem_cons_self _ fitsHead]
      rfl

/-- Bytes are the text of a string exactly if they are the encoding of the string. -/
theorem fromUTF8?_eq_some_iff {bytes : List UInt8} {text : String} :
    String.fromUTF8? bytes.toByteArray = some text ↔ bytes = text.toUTF8.data.toList := by
  rw [String.toUTF8_eq_toByteArray, String.fromUTF8?]
  refine ⟨fun read => ?_, fun same => ?_⟩
  · split at read
    · cases read
      exact List.toList_data_toByteArray.symm
    · cases read
  · subst same
    have same : text.toByteArray.data.toList.toByteArray = text.toByteArray := by
      apply ByteArray.ext
      rw [List.data_toByteArray, Array.toArray_toList]
    rw [same, dif_pos text.isValidUTF8]
    rfl

theorem length_toUTF8 (text : String) :
    text.toUTF8.data.toList.length = text.utf8ByteSize := by
  rw [String.toUTF8_eq_toByteArray, Array.length_toList]
  rfl

theorem decode_string_eq_ok_iff {v : String} {input rest : List UInt8} :
    Shape.string.decode input = .ok (v, rest) ↔
      v.utf8ByteSize ≤ maxLength ∧ input = Shape.string.encode v ++ rest := by
  simp only [Shape.decode, Shape.encode, Except.bind_eq_ok_iff, Prod.exists,
    readLength_eq_ok_iff, readBytes_eq_ok_iff, length_toUTF8, List.append_assoc]
  refine ⟨fun outcome => ?_, fun written => ?_⟩
  · obtain ⟨_, _, ⟨small, rfl⟩, bytes, _, ⟨rfl, rfl⟩, read⟩ := outcome
    split at read
    · next text found =>
      cases read
      have same := fromUTF8?_eq_some_iff.mp found
      have length : bytes.length = v.utf8ByteSize := by rw [same, length_toUTF8]
      rw [length] at small ⊢
      exact ⟨small, by rw [← same]⟩
    · cases read
  · obtain ⟨small, rfl⟩ := written
    refine ⟨_, _, ⟨small, rfl⟩, _, rest, ⟨length_toUTF8 v, rfl⟩, ?_⟩
    rw [fromUTF8?_eq_some_iff.mpr rfl]
    rfl

theorem decode_bool_eq_ok_iff {v : Bool} {input rest : List UInt8} :
    Shape.bool.decode input = .ok (v, rest) ↔ input = [v.toUInt8] ++ rest := by
  simp only [Shape.decode, Except.bind_eq_ok_iff, Prod.exists, readNumber_eq_ok_iff]
  refine ⟨fun outcome => ?_, fun same => ?_⟩
  · obtain ⟨n, _, ⟨-, rfl⟩, read⟩ := outcome
    split at read
    · next zero =>
      cases read
      rw [zero]
      rfl
    · split at read
      · next one =>
        cases read
        rw [one]
        rfl
      · cases read
  · subst same
    cases v with
    | false => exact ⟨0, rest, ⟨by decide, rfl⟩, rfl⟩
    | true => exact ⟨1, rest, ⟨by decide, rfl⟩, rfl⟩

/-! ## Values of all shapes -/

theorem Shape.decode_eq_ok_iff {s : Shape} {v : s.Value} {input rest : List UInt8} :
    s.decode input = .ok (v, rest) ↔ s.Fits v ∧ input = s.encode v ++ rest := by
  induction s generalizing input rest with
  | uint8 =>
    exact (readInteger_eq_ok_iff (fun v => v.toNat_lt) (fun _ => UInt8.ofNat_toNat)
      fun n small => UInt8.toNat_ofNat_of_lt' small).trans (iff_of_eq (true_and _)).symm
  | uint16 =>
    exact (readInteger_eq_ok_iff (fun v => v.toNat_lt) (fun _ => UInt16.ofNat_toNat)
      fun n small => UInt16.toNat_ofNat_of_lt' small).trans (iff_of_eq (true_and _)).symm
  | uint32 =>
    exact (readInteger_eq_ok_iff (fun v => v.toNat_lt) (fun _ => UInt32.ofNat_toNat)
      fun n small => UInt32.toNat_ofNat_of_lt' small).trans (iff_of_eq (true_and _)).symm
  | uint64 | size =>
    exact (readInteger_eq_ok_iff (fun v => v.toNat_lt) (fun _ => UInt64.ofNat_toNat)
      fun n small => UInt64.toNat_ofNat_of_lt' small).trans (iff_of_eq (true_and _)).symm
  | int32 =>
    have integer := @readInteger_eq_ok_iff Int32 4 (fun n => (UInt32.ofNat n).toInt32)
      (fun v => v.toUInt32.toNat) (fun v => v.toUInt32.toNat_lt)
      (fun v => by rw [UInt32.ofNat_toNat, Int32.toInt32_toUInt32])
      (fun n small => UInt32.toNat_ofNat_of_lt' small)
    exact integer.trans (iff_of_eq (true_and _)).symm
  | int64 =>
    have integer := @readInteger_eq_ok_iff Int64 8 (fun n => (UInt64.ofNat n).toInt64)
      (fun v => v.toUInt64.toNat) (fun v => v.toUInt64.toNat_lt)
      (fun v => by rw [UInt64.ofNat_toNat, Int64.toInt64_toUInt64])
      (fun n small => UInt64.toNat_ofNat_of_lt' small)
    exact integer.trans (iff_of_eq (true_and _)).symm
  | bool => exact decode_bool_eq_ok_iff.trans (iff_of_eq (true_and _)).symm
  | string => exact decode_string_eq_ok_iff
  | array length element ih =>
    obtain ⟨values, length⟩ := v
    exact readMany_eq_ok_iff fun v input rest => ih
  | list element ih =>
    simp only [Shape.decode, Shape.Fits, Shape.encode, Except.bind_eq_ok_iff,
      Except.pure_eq_ok_iff, Prod.exists, Subtype.exists, readLength_eq_ok_iff,
      readMany_eq_ok_iff fun v input rest => ih]
    refine ⟨fun outcome => ?_, fun written => ?_⟩
    · obtain ⟨n, _, ⟨small, rfl⟩, values, length, _, ⟨fits, rfl⟩, same⟩ := outcome
      cases same
      cases length
      exact ⟨⟨small, fits⟩, (List.append_assoc _ _ _).symm⟩
    · obtain ⟨⟨small, fits⟩, rfl⟩ := written
      exact ⟨_, _, ⟨small, List.append_assoc _ _ _⟩, v, rfl, rest, ⟨fits, rfl⟩, rfl⟩
  | pair first second ihFirst ihSecond =>
    obtain ⟨a, b⟩ := v
    simp only [Shape.decode, Shape.Fits, Shape.encode, Except.bind_eq_ok_iff,
      Except.pure_eq_ok_iff, Prod.exists, ihFirst, ihSecond, List.append_assoc]
    refine ⟨fun outcome => ?_, fun written => ?_⟩
    · obtain ⟨_, _, ⟨fitsFirst, rfl⟩, _, _, ⟨fitsSecond, rfl⟩, same⟩ := outcome
      cases same
      exact ⟨⟨fitsFirst, fitsSecond⟩, rfl⟩
    · obtain ⟨⟨fitsFirst, fitsSecond⟩, rfl⟩ := written
      exact ⟨a, _, ⟨fitsFirst, rfl⟩, b, rest, ⟨fitsSecond, rfl⟩, rfl⟩

theorem Shape.decode_encode {s : Shape} {v : s.Value} (fits : s.Fits v) (rest : List UInt8) :
    s.decode (s.encode v ++ rest) = .ok (v, rest) :=
  decode_eq_ok_iff.mpr ⟨fits, rfl⟩

theorem decode_string_eq_error {v : String} (large : maxLength < v.utf8ByteSize)
    (sized : v.utf8ByteSize < 256 ^ 8) (rest : List UInt8) :
    Shape.string.decode (Shape.string.encode v ++ rest) = .error .lengthTooLarge := by
  simp only [Shape.encode, Shape.decode, length_toUTF8, List.append_assoc,
    readLength_eq_error large sized]
  rfl

theorem decode_list_eq_error {element : Shape} {values : List element.Value}
    (fails : ∀ v ∈ values, ∀ rest, ¬element.Fits v →
      element.decode (element.encode v ++ rest) = .error .lengthTooLarge)
    (sized : values.length < 256 ^ 8) (unfit : ¬element.list.Fits values) (rest : List UInt8) :
    element.list.decode (element.list.encode values ++ rest) = .error .lengthTooLarge := by
  simp only [Shape.encode, Shape.decode, List.append_assoc]
  by_cases few : values.length ≤ maxLength
  · have unfitOne : ¬∀ v ∈ values, element.Fits v := fun fits => unfit ⟨few, fits⟩
    have length := readLength_eq_ok_iff.mpr
      ⟨few, (rfl : lengthBytes values.length ++ (values.flatMap element.encode ++ rest) = _)⟩
    rw [length, Except.ok_bind]
    dsimp only
    rw [readMany_eq_error (fun v rest fits => Shape.decode_encode fits rest) fails unfitOne]
    rfl
  · rw [readLength_eq_error (Nat.lt_of_not_le few) sized]
    rfl

/-- A value with too long a list or string in it is written, but not read back. -/
theorem Shape.decode_eq_error {s : Shape} {v : s.Value} (sized : s.Sized v) (unfit : ¬s.Fits v)
    (rest : List UInt8) : s.decode (s.encode v ++ rest) = .error .lengthTooLarge := by
  induction s generalizing rest with
  | uint8 | uint16 | uint32 | uint64 | int32 | int64 | size | bool => exact absurd trivial unfit
  | string => exact decode_string_eq_error (Nat.lt_of_not_le unfit) sized rest
  | array length element ih =>
    obtain ⟨values, rfl⟩ := v
    exact readMany_eq_error (fun w rest fits => decode_encode fits rest)
      (fun w member rest unfitOne => ih (sized w member) unfitOne rest) unfit rest
  | list element ih =>
    exact decode_list_eq_error
      (fun w member rest unfitOne => ih (sized.2 w member) unfitOne rest) sized.1 unfit rest
  | pair first second ihFirst ihSecond =>
    obtain ⟨a, b⟩ := v
    simp only [encode, decode, List.append_assoc]
    by_cases fitsFirst : first.Fits a
    · have unfitSecond : ¬second.Fits b := fun fits => unfit ⟨fitsFirst, fits⟩
      rw [decode_encode fitsFirst, Except.ok_bind]
      dsimp only
      rw [ihSecond sized.2 unfitSecond]
      rfl
    · rw [ihFirst sized.1 fitsFirst]
      rfl

end RobotMachine
