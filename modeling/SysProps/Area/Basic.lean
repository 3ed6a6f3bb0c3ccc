import SysProps.Serial

/-!
# The property area: layout, allocation and construction

One `prop_area` is a 128 KiB file mapped shared. A fixed header (`bytes_used_`,
the area's own `serial_`, magic and version) is followed by the data region
`data_`, and every offset the trie stores is an offset into that region. The
root `prop_bt` sits at offset 0, the dirty backup buffer right after it, and
everything else is carved out by a bump allocator (`allocate_obj`) that only
ever moves `bytes_used_` forward.

This module is the faithful layer for the parts of `prop_area.cpp` and
`prop_info.cpp` that lay objects out: the constants of the layout,
`allocate_obj`, `new_prop_bt`, `new_prop_info` with both constructors of
`prop_info`, and `to_prop_obj`. A write that would leave the mapping faults
(`PropArea.fill` answers `none`), which is how the model tells a crash from a
return; reads are total.

Pointers into the region are offsets: `Ptr` is `Option Nat`, `none` being
`nullptr`. `to_prop_obj(0)` is the root node, not `nullptr`.
-/

namespace SysProps

/-! ## Layout -/

/-- `PA_SIZE`: the size of an area's file and mapping. -/
def paSize : Nat := 128 * 1024

/-- `sizeof(prop_area)`, the header before `data_`. Modelled from the spec:
the header of §6 is 32-bit words, here `bytes_used_`, `serial_`, `magic_`,
`version_` and 28 reserved words. -/
def sizeofPropArea : Nat := 128

/-- `pa_data_size_` as `map_prop_area_rw` sets it: the data region's size. -/
def paDataSize : Nat := paSize - sizeofPropArea

/-- `sizeof(prop_bt)`. Modelled from the spec: a trie node is `namelen` and
the four 32-bit offsets `prop`, `left`, `right`, `children`, in that order,
followed by its NUL-terminated name. -/
def sizeofPropBt : Nat := 20

/-- `sizeof(prop_info)`: the serial and the `PROP_VALUE_MAX`-byte value
buffer, followed by the NUL-terminated name. -/
def sizeofPropInfo : Nat := 4 + propValueMax

/-- `prop_info::kLongLegacyErrorBufferSize`: the bytes of the value buffer a
long entry gives to `kLongLegacyError` before its offset word. -/
def kLongLegacyErrorBufferSize : Nat := 56

/-- `dirty_backup_area()`: the buffer right after the root node. -/
def dirtyBackupArea : Nat := sizeofPropBt

/-- `__BIONIC_ALIGN(size, 4)`. -/
def align4 (size : Nat) : Nat := (size + 3) / 4 * 4

/-- Field offsets inside a `prop_bt`. -/
def btNamelen : Nat := 0
/-- The `prop` field: the entry of this node, or 0. -/
def btProp : Nat := 4
/-- The `left` field: the smaller sibling subtree. -/
def btLeft : Nat := 8
/-- The `right` field: the larger sibling subtree. -/
def btRight : Nat := 12
/-- The `children` field: the tree of the next segment. -/
def btChildren : Nat := 16
/-- The node's name. -/
def btName : Nat := 20

/-- Field offsets inside a `prop_info`. -/
def infoSerial : Nat := 0
/-- The value buffer, shared with `long_property.error_message`. -/
def infoValue : Nat := 4
/-- `long_property.offset`, right after the legacy error message. -/
def infoLongOffset : Nat := infoValue + kLongLegacyErrorBufferSize
/-- The entry's name. -/
def infoName : Nat := sizeofPropInfo

/-- A pointer into the data region: `none` is `nullptr`. -/
abbrev Ptr := Option Nat

/-- An area as the library sees it through its mapping. -/
structure PropArea where
  data : Mem
  bytesUsed : Nat
  serial : Nat

namespace PropArea

/-- The area `map_prop_area_rw` constructs in a new, zero-filled file: the
root node at offset 0 is all zeroes, and `bytes_used_` already covers it and
the dirty backup buffer. Modelled from the spec: "offset 0 holds the root
TrieNode, created at mkfs time", the backup buffer holding `PROP_VALUE_MAX`
bytes. -/
def fresh : PropArea :=
  { data := fun _ => 0, bytesUsed := sizeofPropBt + align4 propValueMax, serial := 0 }

/-! ## Reads and writes -/

/-- A write of `n` bytes at `o`. A write that would leave the data region
faults. -/
def fill (pa : PropArea) (o n : Nat) (src : Nat → UInt8) : Option PropArea :=
  if o + n ≤ paDataSize then some { pa with data := pa.data.fill o n src } else none

theorem fill_of_le (pa : PropArea) {o n : Nat} (src : Nat → UInt8) (h : o + n ≤ paDataSize) :
    pa.fill o n src = some { pa with data := pa.data.fill o n src } := if_pos h

/-- What a write that did not fault did. -/
theorem fill_eq_some {pa pa' : PropArea} {o n : Nat} {src : Nat → UInt8} (h : pa.fill o n src = some pa') :
    o + n ≤ paDataSize ∧ pa' = { pa with data := pa.data.fill o n src } := by
  unfold fill at h
  split at h
  · exact ⟨‹_›, (Option.some.inj h).symm⟩
  · cases h

/-- `memset(data_ + o, 0, n)`. -/
def zero (pa : PropArea) (o n : Nat) : Option PropArea := pa.fill o n fun _ => 0

/-- A 32-bit store. -/
def store (pa : PropArea) (o v : Nat) : Option PropArea := pa.fill o 4 (Mem.u32Bytes v)

/-- A one-byte store. -/
def storeByte (pa : PropArea) (o : Nat) (b : UInt8) : Option PropArea := pa.fill o 1 fun _ => b

/-- `memcpy(data_ + o, s, n)` from a caller's buffer whose first bytes are `s`. -/
def copy (pa : PropArea) (o : Nat) (s : Bytes) (n : Nat) : Option PropArea :=
  pa.fill o n fun i => s.getD i 0

/-- A 32-bit load. -/
def load (pa : PropArea) (o : Nat) : Nat := pa.data.loadU32 o

theorem load_of_store {pa pa' : PropArea} {o v : Nat} (h : pa.store o v = some pa') :
    pa'.load o = v % 2 ^ 32 := by
  unfold store fill at h
  split at h
  · cases h; exact Mem.loadU32_storeU32 _ _ _
  · cases h

theorem store_of_le (pa : PropArea) {o : Nat} (v : Nat) (h : o + 4 ≤ paDataSize) :
    pa.store o v = some { pa with data := pa.data.storeU32 o v } := fill_of_le _ _ h

/-- `strlen(data_ + o)`. -/
def strlen (pa : PropArea) (o : Nat) : Nat := pa.data.strlenFrom o (2 ^ 32)

/-- `to_prop_obj(off)`: past the data region it is `nullptr`. -/
def toPropObj (off : Nat) : Ptr := if off > paDataSize then none else some off

theorem toPropObj_of_le {off : Nat} (h : off ≤ paDataSize) : toPropObj off = some off := if_neg (by omega)

/-- `root_node()`. -/
def rootNode : Ptr := toPropObj 0

/-! ## Allocation and construction -/

/-- `allocate_obj(size, &off)`: the next `size` bytes, rounded up to four, or
`nullptr` when they do not fit. -/
def allocateObj (pa : PropArea) (size : Nat) : PropArea × Ptr :=
  if pa.bytesUsed + align4 size > paDataSize then (pa, none)
  else ({ pa with bytesUsed := pa.bytesUsed + align4 size }, some pa.bytesUsed)

/-- The `prop_bt` constructor at `p`: `namelen`, the name and its NUL. The
offset fields are not written; the allocator's fresh bytes hold them. -/
def constructPropBt (pa : PropArea) (p : Nat) (name : Bytes) (namelen : Nat) : Option PropArea := do
  let pa ← pa.store (p + btNamelen) namelen
  let pa ← pa.copy (p + btName) name namelen
  pa.storeByte (p + btName + namelen) 0

/-- `new_prop_bt(name, namelen, &off)`. -/
def newPropBt (pa : PropArea) (name : Bytes) (namelen : Nat) : Option (PropArea × Ptr) :=
  match pa.allocateObj (sizeofPropBt + namelen + 1) with
  | (pa, none) => some (pa, none)
  | (pa, some p) => do
    let pa ← pa.constructPropBt p name namelen
    some (pa, some p)

/-- The short constructor of `prop_info` at `p`: name, serial, value. -/
def constructShort (pa : PropArea) (p : Nat) (name : Bytes) (namelen : Nat) (value : Bytes)
    (valuelen : Nat) : Option PropArea := do
  let pa ← pa.copy (p + infoName) name namelen
  let pa ← pa.storeByte (p + infoName + namelen) 0
  let pa ← pa.store (p + infoSerial) (shortSerial valuelen)
  let pa ← pa.copy (p + infoValue) value valuelen
  pa.storeByte (p + infoValue + valuelen) 0

/-- The long constructor of `prop_info` at `p`: name, serial with
`kLongFlag`, the legacy error message, and the offset of the value from `p`. -/
def constructLong (pa : PropArea) (p : Nat) (name : Bytes) (namelen longOffset : Nat) :
    Option PropArea := do
  let pa ← pa.copy (p + infoName) name namelen
  let pa ← pa.storeByte (p + infoName + namelen) 0
  let pa ← pa.store (p + infoSerial) longSerial
  let pa ← pa.copy (p + infoValue) kLongLegacyError (kLongLegacyError.length + 1)
  pa.store (p + infoLongOffset) longOffset

/-- `new_prop_info(name, namelen, value, valuelen, &off)`. A value of
`PROP_VALUE_MAX` bytes or more goes to a blob of its own, allocated after the
entry; its size `valuelen + 1` is computed in 32 bits, as `valuelen` is a
`uint32_t`. -/
def newPropInfo (pa : PropArea) (name : Bytes) (namelen : Nat) (value : Bytes) (valuelen : Nat) :
    Option (PropArea × Ptr) :=
  match pa.allocateObj (sizeofPropInfo + namelen + 1) with
  | (pa, none) => some (pa, none)
  | (pa, some p) =>
    if valuelen ≥ propValueMax then
      match pa.allocateObj ((valuelen + 1) % 2 ^ 32) with
      | (pa, none) => some (pa, none)
      | (pa, some l) => do
        let pa ← pa.copy l value valuelen
        let pa ← pa.storeByte (l + valuelen) 0
        let pa ← pa.constructLong p name namelen (l - p)
        some (pa, some p)
    else do
      let pa ← pa.constructShort p name namelen value valuelen
      some (pa, some p)

/-- A value of `2 ^ 32 - 1` bytes wraps `valuelen + 1` to 0: once the entry
fits, the blob is given no room and the copy of the value leaves the data
region. -/
theorem newPropInfo_wrapped_length (pa : PropArea) (name value : Bytes) (namelen : Nat)
    (h : pa.bytesUsed + align4 (sizeofPropInfo + namelen + 1) ≤ paDataSize) :
    pa.newPropInfo name namelen value (2 ^ 32 - 1) = none := by
  simp only [newPropInfo, allocateObj]
  generalize align4 (sizeofPropInfo + namelen + 1) = A at h ⊢
  have hA : ¬ paDataSize < pa.bytesUsed + A := by omega
  have hcopy : ¬ pa.bytesUsed + A + 4294967295 ≤ paDataSize := by
    unfold paDataSize paSize sizeofPropArea at h ⊢; omega
  simp [hA, align4, copy, fill, hcopy, propValueMax]

/-- **The blob of a long value is sized in 32 bits.** For a value of
`2 ^ 32 - 1` bytes the request `valuelen + 1` wraps to 0: wherever the entry
fits, `allocate_obj` grants the blob at `bytes_used` and reserves nothing for
it, and the copy of the value that `new_prop_info` makes there then leaves the
data region. -/
theorem newPropInfo_blob_reserves_nothing (pa : PropArea) (name value : Bytes) (namelen : Nat)
    (h : pa.bytesUsed + align4 (sizeofPropInfo + namelen + 1) ≤ paDataSize) :
    let entry := (pa.allocateObj (sizeofPropInfo + namelen + 1)).1
    entry.allocateObj ((2 ^ 32 - 1 + 1) % 2 ^ 32) = (entry, some entry.bytesUsed) ∧
      pa.newPropInfo name namelen value (2 ^ 32 - 1) = none := by
  have hfit : ¬ pa.bytesUsed + align4 (sizeofPropInfo + namelen + 1) > paDataSize := by omega
  have hzero : align4 ((2 ^ 32 - 1 + 1) % 2 ^ 32) = 0 := by decide
  refine ⟨?_, newPropInfo_wrapped_length pa name value namelen h⟩
  simp only [allocateObj, if_neg hfit, hzero, Nat.add_zero, gt_iff_lt, if_neg (Nat.not_lt.2 h)]

/-- On a new area, for the entry of the name `a`. -/
theorem fresh_blob_reserves_nothing :
    fresh.bytesUsed + align4 (sizeofPropInfo + 1 + 1) ≤ paDataSize ∧
      ((fresh.allocateObj (sizeofPropInfo + 1 + 1)).1.allocateObj ((2 ^ 32 - 1 + 1) % 2 ^ 32) =
        ((fresh.allocateObj (sizeofPropInfo + 1 + 1)).1, some (fresh.allocateObj (sizeofPropInfo + 1 + 1)).1.bytesUsed) ∧
      fresh.newPropInfo [97] 1 [] (2 ^ 32 - 1) = none) :=
  ⟨by decide, newPropInfo_blob_reserves_nothing fresh [97] [] 1 (by decide)⟩

end PropArea

end SysProps
