import Mathlib.Data.Nat.Bitwise

/-!
# Bytes, C strings and the memory of a mapping

The property area is a file mapped into every process, and everything the
library keeps in it (trie nodes, entries, long values, the dirty backup) is
bytes at offsets from the start of its data region. This module fixes how
those bytes are read and written, once, so that the modules above it can
translate the C code statement by statement.

A mapping is a total function from offsets to bytes (`Mem`). Writes are
`fill`: a run of `n` bytes at one offset, which covers `memcpy`, `memset`,
`strlcpy` and the stores of the 32-bit words, little-endian as on every
Android target. Reads are total; whether a write stays inside the mapping is
the caller's check (`PropArea.fill`), since only the caller knows the
mapping's size.

C strings are `Bytes`: the bytes before the terminating NUL. The C routines
the trie uses on them (`strlen`, `strncmp`, `strchr(name, '.')`) are here as
`strlen`, `strncmp` and `segments`.
-/

namespace SysProps

/-- The contents of a C string: its bytes before the terminating NUL. -/
abbrev Bytes := List UInt8

/-- The bytes of a mapping, by offset from its start. -/
abbrev Mem := Nat → UInt8

/-- The byte `'.'`, which separates the segments of a property name. -/
def dot : UInt8 := 46

/-! ## Writes -/

namespace Mem

/-- The `n` bytes at `o` take `src 0, …, src (n - 1)`; every other byte stays.
`memcpy(m + o, src, n)` and `memset(m + o, c, n)` are both this. -/
def fill (m : Mem) (o n : Nat) (src : Nat → UInt8) : Mem :=
  fun i => if o ≤ i ∧ i < o + n then src (i - o) else m i

@[simp] theorem fill_zero (m : Mem) (o : Nat) (src : Nat → UInt8) : m.fill o 0 src = m := by
  funext i; simp [fill]

theorem fill_apply_of_lt {m : Mem} {o n i : Nat} (src : Nat → UInt8) (h : i < o) :
    m.fill o n src i = m i := by
  simp [fill]; omega

theorem fill_apply_of_ge {m : Mem} {o n i : Nat} (src : Nat → UInt8) (h : o + n ≤ i) :
    m.fill o n src i = m i := by
  simp [fill]; omega

theorem fill_apply_of_mem {m : Mem} {o n i : Nat} (src : Nat → UInt8) (h₁ : o ≤ i) (h₂ : i < o + n) :
    m.fill o n src i = src (i - o) := by
  simp [fill, h₁, h₂]

/-- A byte outside the written run keeps its value. -/
theorem fill_apply_of_not_mem {m : Mem} {o n i : Nat} (src : Nat → UInt8) (h : i < o ∨ o + n ≤ i) :
    m.fill o n src i = m i := by
  rcases h with h | h
  · exact fill_apply_of_lt src h
  · exact fill_apply_of_ge src h

/-- A write of what is already there changes nothing. -/
theorem fill_eq_self {m : Mem} {o n : Nat} {src : Nat → UInt8} (h : ∀ i < n, src i = m (o + i)) :
    m.fill o n src = m := by
  funext i; simp only [fill]; split
  · rw [h _ (by omega)]; congr 1; omega
  · rfl

/-- A write reads its source on the run only. -/
theorem fill_congr {m : Mem} {o n : Nat} {src src' : Nat → UInt8} (h : ∀ i < n, src i = src' i) :
    m.fill o n src = m.fill o n src' := by
  funext i; simp only [fill]; split
  · exact h _ (by omega)
  · rfl

/-- The second of two writes to the same run wins. -/
@[simp] theorem fill_fill_same (m : Mem) (o n : Nat) (src src' : Nat → UInt8) :
    (m.fill o n src).fill o n src' = m.fill o n src' := by
  funext i; simp only [fill]; split <;> rfl

/-- A run written a byte at a time, from its first byte on. -/
theorem fill_succ_left (m : Mem) (o n : Nat) (f : Nat → UInt8) :
    (m.fill o 1 fun _ => f o).fill (o + 1) n (fun j => f (o + 1 + j)) = m.fill o (n + 1) fun j => f (o + j) := by
  funext i; simp only [fill]
  split_ifs <;> first | rfl | omega | congr 1; omega

/-- Writes to disjoint runs commute. -/
theorem fill_comm (m : Mem) {o n a k : Nat} (src src' : Nat → UInt8) (h : o + n ≤ a ∨ a + k ≤ o) :
    (m.fill o n src).fill a k src' = (m.fill a k src').fill o n src := by
  funext i; simp only [fill]; split <;> split <;> first | rfl | omega

/-! ## 32-bit words -/

/-- The little-endian 32-bit word at `o`. -/
def loadU32 (m : Mem) (o : Nat) : Nat :=
  (m o).toNat + 256 * (m (o + 1)).toNat + 65536 * (m (o + 2)).toNat +
    16777216 * (m (o + 3)).toNat

/-- The four little-endian bytes of the word `v`, modulo `2 ^ 32`. -/
def u32Bytes (v : Nat) (i : Nat) : UInt8 := UInt8.ofNat (v / 256 ^ i)

/-- A 32-bit store: the word `v mod 2 ^ 32` at `o`. -/
def storeU32 (m : Mem) (o v : Nat) : Mem := m.fill o 4 (u32Bytes v)

theorem toNat_ofNat_uint8 (n : Nat) : (UInt8.ofNat n).toNat = n % 256 := by
  simp [UInt8.ofNat, UInt8.toNat, BitVec.toNat_ofNat]

theorem loadU32_lt (m : Mem) (o : Nat) : m.loadU32 o < 2 ^ 32 := by
  have := (m o).toNat_lt_size; have := (m (o + 1)).toNat_lt_size
  have := (m (o + 2)).toNat_lt_size; have := (m (o + 3)).toNat_lt_size
  simp only [loadU32, UInt8.size] at *; omega

@[simp] theorem loadU32_storeU32 (m : Mem) (o v : Nat) : (m.storeU32 o v).loadU32 o = v % 2 ^ 32 := by
  simp (disch := omega) only [loadU32, storeU32, fill, if_pos, u32Bytes, toNat_ofNat_uint8,
    Nat.add_sub_cancel_left, Nat.sub_self, Nat.reducePow, Nat.div_one]
  omega

/-- A word none of whose bytes the run covers keeps its value. -/
theorem loadU32_fill_of_disjoint {m : Mem} {o a n : Nat} (src : Nat → UInt8)
    (h : o + 4 ≤ a ∨ a + n ≤ o) : (m.fill a n src).loadU32 o = m.loadU32 o := by
  simp only [loadU32]
  rw [fill_apply_of_not_mem src (by omega), fill_apply_of_not_mem src (by omega),
    fill_apply_of_not_mem src (by omega), fill_apply_of_not_mem src (by omega)]

/-- A word reads the same from two mappings that agree on its four bytes. -/
theorem loadU32_congr {m m' : Mem} {o : Nat} (h : ∀ i, o ≤ i → i < o + 4 → m' i = m i) :
    m'.loadU32 o = m.loadU32 o := by
  simp only [loadU32]
  rw [h o (by omega) (by omega), h (o + 1) (by omega) (by omega), h (o + 2) (by omega) (by omega),
    h (o + 3) (by omega) (by omega)]

/-- The bytes the word `v` is made of, read back one by one. -/
theorem storeU32_apply_of_not_mem {m : Mem} {o v i : Nat} (h : i < o ∨ o + 4 ≤ i) :
    m.storeU32 o v i = m i :=
  fill_apply_of_not_mem _ h

/-! ## Runs of bytes and C strings -/

/-- The `n` bytes at `o`, in order. -/
def read (m : Mem) (o n : Nat) : Bytes := (List.range n).map fun i => m (o + i)

@[simp] theorem length_read (m : Mem) (o n : Nat) : (m.read o n).length = n := by simp [read]

theorem read_congr {m m' : Mem} {o n : Nat} (h : ∀ i, o ≤ i → i < o + n → m' i = m i) :
    m'.read o n = m.read o n := by
  simp only [read, List.map_inj_left, List.mem_range]
  intro i hi; exact h _ (by omega) (by omega)

/-- A run of bytes the write does not touch reads the same. -/
theorem read_fill_of_disjoint {m : Mem} {o n a k : Nat} (src : Nat → UInt8)
    (h : o + n ≤ a ∨ a + k ≤ o) : (m.fill a k src).read o n = m.read o n :=
  read_congr fun _ h₁ h₂ => fill_apply_of_not_mem src (by omega)

/-- What a write puts down reads back. -/
theorem read_fill_self (m : Mem) (o n : Nat) (src : Nat → UInt8) :
    (m.fill o n src).read o n = (List.range n).map src := by
  simp only [read, List.map_inj_left, List.mem_range]
  intro i hi; rw [fill_apply_of_mem src (by omega) (by omega)]; congr 1; omega

/-- A copy of a whole name reads back as the name. -/
theorem map_range_getD (l : Bytes) : (List.range l.length).map (fun i => l.getD i 0) = l := by
  refine List.ext_getElem (by simp) fun i h₁ _ => ?_
  have hi : i < l.length := by simpa using h₁
  simp [List.getD_eq_getElem?_getD, List.getElem?_eq_getElem hi]

/-- `strlen(m + o)`, counting at most `bound` bytes. The search stops at the
first NUL; a mapping with no NUL within `bound` bytes of `o` gives `bound`. -/
def strlenFrom (m : Mem) (o : Nat) : (bound : Nat) → Nat
  | 0 => 0
  | bound + 1 => if m o = 0 then 0 else strlenFrom m (o + 1) bound + 1

/-- `strlen` stops at the first NUL: never past one that is there. -/
theorem strlenFrom_le {m : Mem} {o k : Nat} (h : m (o + k) = 0) (bound : Nat) : m.strlenFrom o bound ≤ k := by
  induction bound generalizing o k with
  | zero => exact Nat.zero_le _
  | succ b ih =>
    simp only [strlenFrom]
    split
    · exact Nat.zero_le _
    · rename_i hne
      cases k with
      | zero => exact absurd h hne
      | succ k => have := ih (o := o + 1) (k := k) (by rwa [Nat.add_right_comm, Nat.add_assoc]); omega

end Mem

/-! ## Comparing and splitting names -/

/-- `strncmp(a, b, n)` on the first `n` bytes of `a` and `b`, given as the
lists of those bytes: the sign of the first difference as unsigned bytes,
stopping early at a NUL both share. -/
def strncmp : Bytes → Bytes → Ordering
  | a :: as, b :: bs => if a ≠ b then compare a b else if a = 0 then .eq else strncmp as bs
  | _, _ => .eq

/-- `strncmp(a, b, n)` on two C strings, given as their bytes before the NUL:
at most `n` bytes, stopping at the first difference or at a NUL both reach. -/
def cstrncmp : Nat → Bytes → Bytes → Ordering
  | 0, _, _ => .eq
  | n + 1, a, b =>
    if a.headD 0 ≠ b.headD 0 then compare (a.headD 0) (b.headD 0)
    else if a.headD 0 = 0 then .eq
    else cstrncmp n a.tail b.tail

/-- On two runs of equal length with no NUL in the first, `strncmp` is the
lexicographic comparison, and it answers `.eq` exactly on equal runs. -/
theorem strncmp_eq_iff {a b : Bytes} (hlen : a.length = b.length) (hnul : 0 ∉ a) :
    strncmp a b = .eq ↔ a = b := by
  induction a generalizing b with
  | nil => cases b <;> simp_all [strncmp]
  | cons x xs ih =>
    cases b with
    | nil => simp at hlen
    | cons y ys =>
      simp only [List.mem_cons, not_or] at hnul
      by_cases hxy : x = y
      · subst hxy
        have hx : x ≠ 0 := fun h => hnul.1 h.symm
        simp [strncmp, hx, ih (by simpa using hlen) hnul.2]
      · have : compare x y ≠ .eq := by
          simp only [compare, compareOfLessAndEq, hxy, if_false]; split <;> simp
        simp [strncmp, hxy, this]

/-- `strcmp(a, b)` on two C strings, given as their bytes before the NUL: the
first difference as unsigned bytes, the end of a string reading as its NUL. -/
def strcmp : Bytes → Bytes → Ordering
  | a :: as, b :: bs => if a ≠ b then compare a b else strcmp as bs
  | [], [] => .eq
  | [], b :: _ => compare 0 b
  | a :: _, [] => compare a 0

/-- Bytes compare as unsigned chars. -/
theorem compare_uint8 (a b : UInt8) : compare a b = compare a.toNat b.toNat := by
  have h₁ : a < b ↔ a.toNat < b.toNat := Iff.rfl
  have h₂ : a = b ↔ a.toNat = b.toNat := ⟨congrArg _, UInt8.toNat.inj⟩
  simp only [compare, compareOfLessAndEq, h₁, h₂]

theorem compare_uint8_lt {a b : UInt8} : compare a b = .lt ↔ a.toNat < b.toNat := by
  rw [compare_uint8, compare_lt_iff_lt]

theorem compare_uint8_gt {a b : UInt8} : compare a b = .gt ↔ b.toNat < a.toNat := by
  rw [compare_uint8, compare_gt_iff_gt]

theorem compare_uint8_ne_eq {a b : UInt8} (h : a ≠ b) : compare a b ≠ .eq := by
  rw [compare_uint8, Ne, compare_eq_iff_eq]; exact fun e => h (UInt8.toNat.inj e)

theorem toNat_ne_zero {a : UInt8} (h : a ≠ 0) : a.toNat ≠ 0 := fun e => h (UInt8.toNat.inj e)

@[simp] theorem strcmp_self : ∀ a : Bytes, strcmp a a = .eq
  | [] => rfl
  | _ :: as => by simp only [strcmp, ne_eq, not_true_eq_false, if_false, strcmp_self as]

/-- `strcmp` with its arguments swapped answers the opposite. -/
theorem strcmp_swap : ∀ a b : Bytes, strcmp b a = (strcmp a b).swap
  | [], [] => rfl
  | [], _ :: _ | _ :: _, [] => by simp only [strcmp, compare_uint8, Nat.compare_swap]
  | x :: xs, y :: ys => by
    by_cases h : x = y
    · subst h; simp only [strcmp, ne_eq, not_true_eq_false, if_false, strcmp_swap xs ys]
    · simp only [strcmp, ne_eq, h, Ne.symm h, not_false_eq_true, if_true, compare_uint8, Nat.compare_swap]

/-- `strncmp` is antisymmetric: both orders stop at the same byte. -/
theorem strncmp_swap : ∀ a b : Bytes, strncmp b a = (strncmp a b).swap
  | a :: as, b :: bs => by
    by_cases h : a = b
    · subst h
      by_cases h0 : a = 0
      · simp only [strncmp, ne_eq, not_true_eq_false, if_false, h0, if_true, Ordering.swap]
      · simp only [strncmp, ne_eq, not_true_eq_false, if_false, h0, strncmp_swap as bs]
    · simp only [strncmp, ne_eq, h, Ne.symm h, not_false_eq_true, if_true, compare_uint8, Nat.compare_swap]
  | [], [] | [], _ :: _ | _ :: _, [] => rfl

@[simp] theorem strncmp_self : ∀ a : Bytes, strncmp a a = .eq
  | [] => rfl
  | a :: as => by by_cases h0 : a = 0 <;> simp [strncmp, h0, strncmp_self as]

/-- `strcmp` orders C strings: its `.lt` is transitive. -/
theorem strcmp_lt_trans : ∀ {a b c : Bytes}, strcmp a b = .lt → strcmp b c = .lt → strcmp a c = .lt
  | [], [], _, h, _ => by simp only [strcmp, reduceCtorEq] at h
  | _ :: _, [], _, h, _ | _, _ :: _, [], _, h => by
    simp only [strcmp, compare_uint8_lt, UInt8.toNat_zero] at h; omega
  | [], y :: _, z :: _, h₁, h₂ => by
    simp only [strcmp, compare_uint8_lt, UInt8.toNat_zero] at h₁ ⊢
    by_cases hyz : y = z
    · subst hyz; exact h₁
    · simp only [strcmp, ne_eq, hyz, not_false_eq_true, if_true, compare_uint8_lt] at h₂; omega
  | x :: _, y :: _, z :: _, h₁, h₂ => by
    simp only [strcmp] at h₁ h₂ ⊢
    by_cases hxy : x = y <;> by_cases hyz : y = z
    · subst hxy hyz; simp only [ne_eq, not_true_eq_false, if_false] at h₁ h₂ ⊢
      exact strcmp_lt_trans h₁ h₂
    · subst hxy; simp only [ne_eq, hyz, not_false_eq_true, if_true] at h₂ ⊢; exact h₂
    · subst hyz; simp only [ne_eq, hxy, not_false_eq_true, if_true] at h₁ ⊢; exact h₁
    · simp only [ne_eq, hxy, hyz, not_false_eq_true, if_true, compare_uint8_lt] at h₁ h₂
      have hxz : x ≠ z := fun e => by subst e; omega
      simp only [ne_eq, hxz, not_false_eq_true, if_true, compare_uint8_lt]; omega

/-- On the bytes of two C strings, `strcmp` answers `.eq` exactly on equal strings. -/
theorem strcmp_eq_iff : ∀ {a b : Bytes}, 0 ∉ a → 0 ∉ b → (strcmp a b = .eq ↔ a = b)
  | [], [], _, _ => by simp
  | [], y :: _, _, hb | y :: _, [], hb, _ => by
    have hy : y.toNat ≠ 0 := toNat_ne_zero fun e => hb (e ▸ List.mem_cons_self _ _)
    simp only [strcmp, compare_uint8, UInt8.toNat_zero, compare_eq_iff_eq, reduceCtorEq, iff_false]
    omega
  | x :: xs, y :: ys, ha, hb => by
    simp only [List.mem_cons, not_or] at ha hb
    by_cases h : x = y
    · subst h; simp only [strcmp, ne_eq, not_true_eq_false, if_false, strcmp_eq_iff ha.2 hb.2, List.cons.injEq,
        true_and]
    · simp only [strcmp, ne_eq, h, not_false_eq_true, if_true, compare_uint8_ne_eq h, List.cons.injEq, false_and]

/-- On runs of equal length, the first with no NUL, `strncmp` is `strcmp`. -/
theorem strncmp_eq_strcmp : ∀ {a b : Bytes}, a.length = b.length → 0 ∉ a → strncmp a b = strcmp a b
  | [], [], _, _ => rfl
  | [], _ :: _, h, _ | _ :: _, [], h, _ => by simp at h
  | a :: as, b :: bs, hlen, ha => by
    simp only [List.mem_cons, not_or] at ha
    by_cases h : a = b
    · subst h
      simp only [strncmp, strcmp, ne_eq, not_true_eq_false, if_false, Ne.symm ha.1]
      exact strncmp_eq_strcmp (by simpa using hlen) ha.2
    · simp only [strncmp, strcmp, ne_eq, h, not_false_eq_true, if_true]

/-- Sorted by `strcmp` with repeats, `.lt` spreads to the front: a name not
after one that compares below `c` compares below `c` too. -/
theorem strcmp_lt_of_le_of_lt {a b c : Bytes} (ha : 0 ∉ a) (hb : 0 ∉ b) (hab : strcmp a b ≠ .gt)
    (hbc : strcmp b c = .lt) : strcmp a c = .lt := by
  cases h : strcmp a b
  · exact strcmp_lt_trans h hbc
  · rwa [(strcmp_eq_iff ha hb).mp h]
  · exact absurd h hab

/-- Sorted by `strcmp` with repeats, `.gt` spreads to the back. -/
theorem strcmp_gt_of_le_of_gt {a b c : Bytes} (ha : 0 ∉ a) (hb : 0 ∉ b) (hab : strcmp a b ≠ .gt)
    (hac : strcmp a c = .gt) : strcmp b c = .gt := by
  cases h : strcmp a b
  · have hca : strcmp c a = .lt := by rw [strcmp_swap, hac]; rfl
    rw [strcmp_swap, strcmp_lt_trans hca h]; rfl
  · rwa [← (strcmp_eq_iff ha hb).mp h]
  · exact absurd h hab

/-- The segments of a name, as `traverse_trie` meets them by repeated
`strchr(remaining_name, '.')`: the bytes before each `'.'`, then the bytes
after the last one. A name with no `'.'` is one segment; `""` is one empty
segment. -/
def segments : Bytes → List Bytes
  | [] => [[]]
  | c :: cs =>
    if c = dot then [] :: segments cs
    else match segments cs with
      | s :: ss => (c :: s) :: ss
      | [] => [[c]]

end SysProps
