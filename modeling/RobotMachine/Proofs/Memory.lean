import RobotMachine.Machine.Memory

/-!
# Memory byte by byte

An access is a range of addresses, and each byte of a region has one address. Here the range of an
access is compared with those addresses, so that reads and writes can be followed through any
number of overlapping and unaligned accesses without a look at the regions they fall into.

* `Region.locate?_eq_some_iff`: the place of a range is the one that starts at its address.
* `Memory.getElem_bank_patch`: which byte stands where after a write.
* `Memory.getElem_of_read`: which bytes a read gives.
* `Memory.AgreeOutside`: two memories that differ at most in some ranges.
-/

namespace RobotMachine

/-! ## Addresses of bytes -/

/-- The address of byte `i` of a region. -/
def Region.addressOf (r : Region) (i : Nat) : Nat :=
  r.base.toNat + i

/-- The byte at an address of the memory map lies in the range of `length` bytes from `address`
on. The end of the range does not wrap. -/
def Covers (address : UInt32) (length : Nat) (a : Nat) : Prop :=
  address.toNat ≤ a ∧ a < address.toNat + length

namespace Region

/-- The regions lie so far apart that the end of one is not the start of another. -/
theorem eq_of_addressOf_eq {r s : Region} {i j : Nat} (hi : i ≤ regionSize)
    (hj : j ≤ regionSize) (h : r.addressOf i = s.addressOf j) : r = s ∧ i = j := by
  simp only [regionSize] at hi hj
  cases r <;> cases s <;>
    simp only [addressOf, base, UInt32.toNat_ofNat, Nat.reducePow, Nat.reduceMod] at h <;>
    first
      | exact ⟨rfl, by omega⟩
      | omega

theorem place?_eq_some_iff {r : Region} {address : UInt32} {length : Nat} {place : Place length} :
    r.place? address length = some place ↔
      place.region = r ∧ r.addressOf place.offset = address.toNat := by
  unfold place? addressOf
  refine ⟨fun h => ?_, fun parts => ?_⟩
  · split at h
    · next fits =>
      cases h
      exact ⟨rfl, by simp only; omega⟩
    · cases h
  · obtain ⟨rfl, start⟩ := parts
    have fits := place.fits
    rw [dif_pos ⟨by omega, by omega⟩]
    have offset : address.toNat - place.region.base.toNat = place.offset := by omega
    cases place
    simp only [Option.some.injEq, Place.mk.injEq, true_and]
    exact offset

/-- The place of a range is the one that starts at the address of the range. -/
theorem locate?_eq_some_iff {address : UInt32} {length : Nat} {place : Place length} :
    locate? address length = some place ↔
      place.region.addressOf place.offset = address.toNat := by
  unfold locate?
  refine ⟨fun h => ?_, fun start => ?_⟩
  · obtain ⟨r, -, found⟩ := List.exists_of_findSome?_eq_some h
    obtain ⟨rfl, start⟩ := place?_eq_some_iff.mp found
    exact start
  · have found := place?_eq_some_iff.mpr ⟨rfl, start⟩
    cases h : all.findSome? (·.place? address length) with
    | none =>
      rw [List.findSome?_eq_none_iff.mp h _ (mem_all _)] at found
      cases found
    | some other =>
      obtain ⟨r, -, foundOther⟩ := List.exists_of_findSome?_eq_some h
      obtain ⟨rfl, startOther⟩ := place?_eq_some_iff.mp foundOther
      have bound := place.fits
      have boundOther := other.fits
      obtain ⟨sameRegion, sameOffset⟩ := eq_of_addressOf_eq (by omega) (by omega)
        (startOther.trans start.symm)
      cases place
      cases other
      cases sameRegion
      cases sameOffset
      rfl

/-- A range that starts with a region is at its start. -/
theorem locate?_base (r : Region) {length : Nat} (fits : 0 + length ≤ regionSize) :
    locate? r.base length = some ⟨r, 0, fits⟩ :=
  locate?_eq_some_iff.mpr rfl

/-- A byte of a region is in a range that was located exactly when it is in the place of the
range. -/
theorem covers_iff_of_locate? {address : UInt32} {length : Nat} {place : Place length}
    (located : locate? address length = some place) {r : Region} {i : Nat}
    (hi : i < regionSize) :
    Covers address length (r.addressOf i) ↔
      place.region = r ∧ place.offset ≤ i ∧ i < place.offset + length := by
  have start := locate?_eq_some_iff.mp located
  have bound := place.fits
  unfold Covers
  refine ⟨fun outcome => ?_, fun parts => ?_⟩
  · obtain ⟨lower, upper⟩ := outcome
    have inPlace : place.region.addressOf (r.addressOf i - place.region.base.toNat) =
        r.addressOf i := by
      simp only [addressOf] at *
      omega
    obtain ⟨rfl, -⟩ := eq_of_addressOf_eq
      (by simp only [addressOf] at *; omega) (Nat.le_of_lt hi) inPlace
    refine ⟨rfl, ?_⟩
    simp only [addressOf] at *
    omega
  · obtain ⟨rfl, lower, upper⟩ := parts
    simp only [addressOf] at *
    omega

end Region

/-! ## Reads and writes -/

namespace Bank

theorem getElem?_slice (bank : Bank) {offset length : Nat} (fits : offset + length ≤ regionSize)
    {k : Nat} (hk : k < length) :
    (bank.slice offset length fits)[k]? = some bank[offset + k] := by
  simp only [slice, List.getElem?_ofFn, dif_pos hk]

@[simp]
theorem length_slice (bank : Bank) {offset length : Nat} (fits : offset + length ≤ regionSize) :
    (bank.slice offset length fits).length = length :=
  List.length_ofFn

/-- A slice inside the bytes that were written has the bytes of that part of them. -/
theorem slice_overwrite (bank : Bank) {offset : Nat} {bytes : List UInt8}
    (fits : offset + bytes.length ≤ regionSize) {start length : Nat}
    (inside : start + length ≤ bytes.length) (fits' : offset + start + length ≤ regionSize) :
    (bank.overwrite offset bytes fits).slice (offset + start) length fits' =
      (bytes.drop start).take length := by
  apply List.ext_getElem
  · rw [length_slice, List.length_take, List.length_drop]
    omega
  · intro k hk _
    rw [length_slice] at hk
    have index : offset + start + k - offset = start + k := by omega
    rw [List.getElem_take, List.getElem_drop]
    simp only [slice, List.getElem_ofFn, getElem_overwrite, List.get_eq_getElem]
    rw [dif_pos (by omega)]
    simp only [index]

end Bank

namespace Memory

theorem ext_bank {m m' : Memory} (h : ∀ r, m.bank r = m'.bank r) : m = m' := by
  cases m
  cases m'
  rw [mk.injEq]
  exact ⟨h .code, h .stack, h .data⟩

/-- A read gives as many bytes as it was asked for, each from its address. -/
theorem getElem_of_read {m : Memory} {address : UInt32} {length : Nat} {bytes : List UInt8}
    (read : m.read address length = .ok bytes) :
    bytes.length = length ∧
      ∀ (r : Region) (i : Nat) (hi : i < regionSize), Covers address length (r.addressOf i) →
        bytes[r.addressOf i - address.toNat]? = some (m.bank r)[i] := by
  unfold Memory.read at read
  cases located : Region.locate? address length with
  | none =>
    rw [located] at read
    cases read
  | some place =>
    rw [located] at read
    cases read
    refine ⟨Bank.length_slice _ _, fun r i hi covers => ?_⟩
    have start := Region.locate?_eq_some_iff.mp located
    obtain ⟨rfl, lower, upper⟩ := (Region.covers_iff_of_locate? located hi).mp covers
    have index : place.region.addressOf i - address.toNat = i - place.offset := by
      simp only [Region.addressOf] at *
      omega
    rw [index, Bank.getElem?_slice _ _ (by omega)]
    simp only [show place.offset + (i - place.offset) = i by omega]

/-- A write to a range of one region puts its bytes at their addresses and leaves all other bytes
as they were. -/
theorem getElem_bank_patch {m : Memory} {address : UInt32} {bytes : List UInt8}
    (located : (Region.locate? address bytes.length).isSome = true)
    (r : Region) (i : Nat) (hi : i < regionSize) :
    (Covers address bytes.length (r.addressOf i) →
        bytes[r.addressOf i - address.toNat]? = some ((m.patch address bytes).bank r)[i]) ∧
      (¬ Covers address bytes.length (r.addressOf i) →
        ((m.patch address bytes).bank r)[i] = (m.bank r)[i]) := by
  obtain ⟨place, located⟩ := Option.isSome_iff_exists.mp located
  have start := Region.locate?_eq_some_iff.mp located
  rw [Region.covers_iff_of_locate? located hi]
  unfold patch
  rw [located]
  by_cases same : place.region = r
  · subst same
    simp only [bank_setBank_self, Bank.getElem_overwrite, true_and]
    refine ⟨fun inside => ?_, fun outside => ?_⟩
    · have index : place.region.addressOf i - address.toNat = i - place.offset := by
        simp only [Region.addressOf] at *
        omega
      rw [dif_pos inside, index, List.getElem?_eq_getElem (by omega)]
      rfl
    · rw [dif_neg outside]
  · simp only [bank_setBank_of_ne m (Ne.symm same), same, false_and, false_implies,
      not_false_eq_true, forall_const, true_and]

/-- A write outside the regions changes nothing. -/
theorem patch_of_locate?_eq_none {m : Memory} {address : UInt32} {bytes : List UInt8}
    (none : Region.locate? address bytes.length = none) : m.patch address bytes = m := by
  unfold patch
  rw [none]

/-! ## Memories that agree outside some ranges -/

/-- The two memories have the same bytes wherever none of the ranges lies. -/
def AgreeOutside (ranges : List (UInt32 × Nat)) (m m' : Memory) : Prop :=
  ∀ (r : Region) (i : Nat) (hi : i < regionSize),
    (∀ range ∈ ranges, ¬ Covers range.1 range.2 (r.addressOf i)) →
      (m'.bank r)[i] = (m.bank r)[i]

theorem AgreeOutside.refl (ranges : List (UInt32 × Nat)) (m : Memory) :
    AgreeOutside ranges m m :=
  fun _ _ _ _ => rfl

theorem AgreeOutside.eq {m m' : Memory} (h : AgreeOutside [] m m') : m' = m :=
  ext_bank fun r => Vector.ext fun i hi => h r i hi fun _ member => nomatch member

/-- A write of a listed range keeps the agreement. -/
theorem AgreeOutside.patch {ranges : List (UInt32 × Nat)} {m m' : Memory}
    (h : AgreeOutside ranges m m') {address : UInt32} {bytes : List UInt8}
    (member : (address, bytes.length) ∈ ranges) :
    AgreeOutside ranges m (m'.patch address bytes) := by
  intro r i hi outside
  cases located : Region.locate? address bytes.length with
  | none =>
    simp only [patch_of_locate?_eq_none located]
    exact h r i hi outside
  | some place =>
    rw [(getElem_bank_patch (by rw [located]; rfl) r i hi).2 (outside _ member)]
    exact h r i hi outside

end Memory

end RobotMachine
