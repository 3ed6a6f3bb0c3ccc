import SysProps.Bytes

/-!
# The serial word of an entry

Every entry carries one 32-bit `serial`, read and written whole. The update
path of `SystemProperties::Update` and the two constructors of `prop_info`
decide what it holds:

* bits 31..24: the length of the current value (`SERIAL_VALUE_LEN`);
* bits 23..1: a sequence number the update path advances by one per update;
* bit 0: the dirty bit, set while the update path rewrites the value
  (`SERIAL_DIRTY`).

The long form of an entry is told apart by `kLongFlag`, bit 16. That bit lies
inside the sequence field: the long constructor sets it, and the sequence
number of a short entry reaches it after `2 ^ 15` updates. `Read` and
`ReadCallback` look at `is_long()` only for names starting with `ro.`, which
the property service writes once; this module states what the flag reads on
every other entry.

**What is proved.** `updatedSerial` (the two stores of the update path, as
one function) is worked out into arithmetic once (`updatedSerial_eq`); from it
`seq_updatedSerial` (the sequence advances by one modulo `2 ^ 23`, whatever
the prior serial, dirty or not) and `low24_foldl_updatedSerial` (over a run of
updates from a clean serial, the low 24 bits count the updates twice).
`isLong_foldl_updatedSerial` reads `is_long()` off that count.
-/

namespace SysProps

/-! ## Constants and fields -/

/-- `PROP_VALUE_MAX`: the size of an entry's inline value buffer, terminating
NUL included. Modelled from the spec: the value field of the v1 wire message
is `[92]u8`, and a value of 92 bytes or more is a long value. -/
def propValueMax : Nat := 92

/-- `SERIAL_DIRTY(serial)`. -/
def serialDirty (serial : Nat) : Nat := serial &&& 1

/-- `SERIAL_VALUE_LEN(serial)`. -/
def serialValueLen (serial : Nat) : Nat := serial >>> 24

/-- `prop_info::kLongFlag`: bit 16 of the serial, the lowest bit of its second
byte from the top. Modelled from the spec: "long form (distinguished by a flag
bit in the initial serial)"; `prop_info.h` places it at `1 << 16`. -/
def kLongFlag : Nat := 1 <<< 16

/-- `prop_info::is_long()`. -/
def isLong (serial : Nat) : Bool := serial &&& kLongFlag != 0

/-- `kLongLegacyError`: what a legacy reader of a long entry finds in place of
the value. -/
def kLongLegacyError : Bytes :=
  "Must use __system_property_read_callback() to read".toList.map fun c => c.toNat.toUInt8

/-- The serial the short constructor of `prop_info` starts with: `valuelen << 24`. -/
def shortSerial (valuelen : Nat) : Nat := (valuelen <<< 24) % 2 ^ 32

/-- The serial the long constructor starts with:
`error_value_len << 24 | kLongFlag`. -/
def longSerial : Nat := (kLongLegacyError.length <<< 24) ||| kLongFlag

/-- The first store of the update path: `serial |= 1`. -/
def dirtySerial (serial : Nat) : Nat := serial ||| 1

/-- The last store of the update path:
`(len << 24) | ((serial + 1) & 0xffffff)`, taken after `serial |= 1`. -/
def updatedSerial (serial len : Nat) : Nat :=
  ((len <<< 24) ||| ((dirtySerial serial + 1) &&& 0xffffff)) % 2 ^ 32

/-! ## Bit arithmetic -/

/-- A word shifted past a smaller one sits beside it: `(a << k) | b = a * 2^k + b`. -/
theorem shiftLeft_or_of_lt (a b k : Nat) (hb : b < 2 ^ k) : (a <<< k) ||| b = a * 2 ^ k + b := by
  apply Nat.eq_of_testBit_eq
  intro j
  rw [Nat.testBit_or, Nat.testBit_shiftLeft, Nat.mul_comm, Nat.testBit_mul_pow_two_add a hb]
  by_cases hj : j < k
  · simp [hj]
  · have : b.testBit j = false :=
      Nat.testBit_lt_two_pow (Nat.lt_of_lt_of_le hb (Nat.pow_le_pow_right (by decide) (by omega)))
    simp [hj, this]; omega

/-- Setting bit 0. -/
theorem or_one_eq (x : Nat) : x ||| 1 = 2 * (x / 2) + 1 := by
  apply Nat.eq_of_testBit_eq
  intro j
  rw [Nat.testBit_mul_pow_two_add (x / 2) (i := 1) (by decide) j]
  cases j with
  | zero => simp
  | succ j => rw [Nat.testBit_or]; simp [Nat.testBit_succ]

theorem isLong_iff (serial : Nat) : isLong serial = decide (serial / 2 ^ 16 % 2 = 1) := by
  have h : kLongFlag = 2 ^ 16 := by simp [kLongFlag, Nat.shiftLeft_eq]
  simp only [isLong, h, Nat.and_two_pow, Nat.testBit_to_div_mod]
  by_cases hb : serial / 65536 % 2 = 1 <;> simp [hb]

theorem serialValueLen_eq (serial : Nat) : serialValueLen serial = serial / 2 ^ 24 := by
  simp [serialValueLen, Nat.shiftRight_eq_div_pow]

/-- The update path's result, as arithmetic: the new length above the old low
24 bits with bit 0 cleared and two added. -/
theorem updatedSerial_eq (serial len : Nat) (hlen : len < 256) :
    updatedSerial serial len = len * 2 ^ 24 + (2 * (serial / 2) + 2) % 2 ^ 24 := by
  have hmask : (0xffffff : Nat) = 2 ^ 24 - 1 := rfl
  have hlow : (2 * (serial / 2) + 2) % 2 ^ 24 < 2 ^ 24 := Nat.mod_lt _ (by decide)
  rw [updatedSerial, dirtySerial, or_one_eq, hmask, Nat.and_pow_two_sub_one_eq_mod,
    shiftLeft_or_of_lt _ _ _ hlow, Nat.mod_eq_of_lt (by omega)]

theorem serialValueLen_updatedSerial (serial len : Nat) (hlen : len < 256) :
    serialValueLen (updatedSerial serial len) = len := by
  rw [serialValueLen_eq, updatedSerial_eq _ _ hlen]; omega

theorem serialDirty_updatedSerial (serial len : Nat) (hlen : len < 256) :
    serialDirty (updatedSerial serial len) = 0 := by
  rw [serialDirty, Nat.and_one_is_mod, updatedSerial_eq _ _ hlen]; omega

/-- The sequence number (bits 23..1) advances by one modulo `2 ^ 23`, whatever
the prior serial held, its dirty bit included. -/
theorem seq_updatedSerial (serial len : Nat) (hlen : len < 256) :
    updatedSerial serial len % 2 ^ 24 / 2 = (serial % 2 ^ 24 / 2 + 1) % 2 ^ 23 := by
  rw [updatedSerial_eq _ _ hlen]; omega

theorem serialDirty_eq (serial : Nat) : serialDirty serial = serial % 2 := Nat.and_one_is_mod _

/-- On a clean serial, `serial | 1` is the next number. -/
theorem dirtySerial_of_even {serial : Nat} (h : serial % 2 = 0) : dirtySerial serial = serial + 1 := by
  rw [dirtySerial, or_one_eq]; omega

/-- Bit 0 of a dirty serial cleared is the clean serial it came from. -/
theorem dirtySerial_sub_mod {serial : Nat} (h : serial % 2 = 0) :
    dirtySerial serial - dirtySerial serial % 2 = serial := by
  rw [dirtySerial_of_even h]; omega

theorem serialValueLen_dirtySerial {serial : Nat} (h : serial % 2 = 0) :
    serialValueLen (dirtySerial serial) = serialValueLen serial := by
  rw [dirtySerial_of_even h, serialValueLen_eq, serialValueLen_eq]; omega

/-- The second store of the update path advances the low 24 bits past the
first by one. -/
theorem updatedSerial_low24 {serial len : Nat} (hlen : len < 256) (h : serial % 2 = 0) :
    updatedSerial serial len % 2 ^ 24 = (dirtySerial serial + 1) % 2 ^ 24 := by
  rw [updatedSerial_eq _ _ hlen, dirtySerial_of_even h]; omega

theorem serialValueLen_shortSerial {valuelen : Nat} (h : valuelen < 256) :
    serialValueLen (shortSerial valuelen) = valuelen := by
  simp only [serialValueLen_eq, shortSerial, Nat.shiftLeft_eq, Nat.reducePow]; omega

theorem shortSerial_mod (valuelen : Nat) : shortSerial valuelen % 2 ^ 24 = 0 := by
  simp only [shortSerial, Nat.shiftLeft_eq, Nat.reducePow]; omega

/-! ## Runs of updates -/

/-- Over a run of updates from a clean serial, the low 24 bits grow by two per
update, modulo `2 ^ 24`. -/
theorem low24_foldl_updatedSerial (lens : List Nat) (hl : ∀ l ∈ lens, l < 256) {serial : Nat}
    (hclean : serial % 2 = 0) :
    lens.foldl updatedSerial serial % 2 ^ 24 = (serial % 2 ^ 24 + 2 * lens.length) % 2 ^ 24 := by
  induction lens generalizing serial with
  | nil => simp
  | cons len lens ih =>
    have hlen := hl len (by simp)
    rw [List.foldl_cons, ih (fun l h => hl l (by simp [h])) (by rw [updatedSerial_eq _ _ hlen]; omega),
      updatedSerial_eq _ _ hlen]
    simp only [List.length_cons]; omega

/-- `is_long()` reads bit 16 of the low 24 bits. -/
theorem isLong_eq_low24 (serial : Nat) :
    isLong serial = decide (serial % 2 ^ 24 / 2 ^ 16 % 2 = 1) := by
  rw [isLong_iff]; congr 1; apply propext; omega

/-- The serial a short constructor stores is not taken for a long one. -/
theorem isLong_shortSerial (valuelen : Nat) : isLong (shortSerial valuelen % 2 ^ 32) = false := by
  have := shortSerial_mod valuelen
  rw [isLong_eq_low24, decide_eq_false_iff_not]; omega

theorem kLongLegacyError_length : kLongLegacyError.length = 50 := by decide

/-- The serial the long constructor stores is taken for a long one. -/
theorem isLong_longSerial : isLong (longSerial % 2 ^ 32) = true := by decide

/-- The low 24 bits of a short entry's serial after a run of updates. -/
theorem low24_updates_of_short {valuelen : Nat} (hv : valuelen < propValueMax)
    (lens : List Nat) (hl : ∀ l ∈ lens, l < propValueMax) :
    lens.foldl updatedSerial (shortSerial valuelen) % 2 ^ 24 = 2 * lens.length % 2 ^ 24 := by
  have hv' : valuelen < 256 := by unfold propValueMax at hv; omega
  have hl' : ∀ l ∈ lens, l < 256 := fun l h => by have := hl l h; unfold propValueMax at this; omega
  rw [low24_foldl_updatedSerial lens hl' (by have := shortSerial_mod valuelen; omega), shortSerial_mod,
    Nat.zero_add]

/-- **`is_long()` after `k` updates of a short entry** is bit 15 of `k`: false
for the first `2 ^ 15 - 1` updates, true from the `2 ^ 15`-th until the
`2 ^ 16`-th, and so on. -/
theorem isLong_foldl_updatedSerial {valuelen : Nat} (hv : valuelen < propValueMax)
    (lens : List Nat) (hl : ∀ l ∈ lens, l < propValueMax) :
    isLong (lens.foldl updatedSerial (shortSerial valuelen)) = decide (lens.length / 2 ^ 15 % 2 = 1) := by
  rw [isLong_eq_low24, low24_updates_of_short hv lens hl]
  congr 1; apply propext; omega

end SysProps
