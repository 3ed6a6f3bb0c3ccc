import SysProps.Area.Grow
import SysProps.System

/-!
# An area as a map from names to values

A reader of an area sees a map from names to values: `find` answers the
entry of a name, and the entry holds the value. A short value sits in the
entry's `PROP_VALUE_MAX`-byte buffer, its length in the serial; a long one
sits in a blob of its own, and `long_value()` points to it as a C string.
`PropArea.contents` reads the map out of the bytes of an area, and `Store` is
the map itself, with the two operations a writer of an area performs on it:
inserting a name that is absent, and erasing one.

**What is proved.** `StoreInv`, kept from the fresh area on
(`storeInv_fresh`) by every `add` and `remove` with C-string names
(`StoreInv.add`, `StoreInv.remove`), says that the entries the trie leads to
are well formed and that no two long ones share a blob. Under it `add`
refines inserting the name when it is absent, unless `add` reports failure,
and `remove` refines erasing it, answering whether the name was there.
`NamesStored`, that every entry `find` answers for a name stores that name,
holds of the fresh area and is kept by `remove` and by every `add` that
copies at least the name's bytes (`StoreInv.namesStored_add`,
`StoreInv.namesStored_remove`).

**What it does not establish.** Names with a NUL, which no caller can pass
as a C string, are left out of the map. `Update` is not among the operations:
its serial can reach `kLongFlag` (`SysProps.LongFlag`), after which the entry
is read as a long one. An `add` given a `namelen` shorter than the name
stores only its first `namelen` bytes, and the names stored then differ from
the names `find` is given.
-/

namespace SysProps

/-- The `n` bytes `memcpy` takes from a caller's buffer whose first bytes are
`src`. -/
def copiedBytes (src : Bytes) (n : Nat) : Bytes := (List.range n).map fun i => src.getD i 0

/-- A value as an area holds it: a short one as the bytes of the entry's value
buffer that its serial counts, a long one as the C string in its blob. -/
inductive Value where
  | short (bytes : Bytes)
  | long (cstr : Bytes)
deriving DecidableEq, Repr

/-- The value `new_prop_info(name, namelen, value, valuelen)` stores, as a
reader gets it back: the `valuelen` bytes of the caller's buffer when they
fit in `PROP_VALUE_MAX`, and else the C string they start. -/
def Value.ofAdd (value : Bytes) (valuelen : Nat) : Value :=
  if valuelen < propValueMax then .short (copiedBytes value valuelen)
  else .long ((copiedBytes value valuelen).takeWhile (· != 0))

/-- **The abstract store**: what each name holds, `none` for a name with no
entry. -/
def Store := Bytes → Option Value

namespace Store

/-- Adding a name: a value for it when it has none, nothing otherwise. -/
def insertIfAbsent (s : Store) (name : Bytes) (v : Value) : Store :=
  fun n => if n = name ∧ s name = none then some v else s n

/-- Removing a name. -/
def erase (s : Store) (name : Bytes) : Store := fun n => if n = name then none else s n

end Store

/-! ## C strings -/

namespace Mem

theorem read_succ (m : Mem) (o n : Nat) : m.read o (n + 1) = m o :: m.read (o + 1) n := by
  simp only [read, List.range_succ_eq_map, List.map_cons, List.map_map, Nat.add_zero, List.cons.injEq, true_and]
  exact List.map_congr_left fun i _ => congrArg m (by simp only [Function.comp, Nat.succ_eq_add_one]; omega)

/-- `strlen` stops at the first NUL: the bytes it counts are those before it. -/
theorem read_strlenFrom (m : Mem) : ∀ (bound : Nat) {o k : Nat}, m (o + k) = 0 → k < bound →
    m.read o (m.strlenFrom o bound) = (m.read o k).takeWhile (· != 0)
  | 0, _, _, _, hk => absurd hk (Nat.not_lt_zero _)
  | bound + 1, o, k, h0, hk => by
    simp only [strlenFrom]
    cases k with
    | zero => rw [Nat.add_zero] at h0; rw [if_pos h0]; rfl
    | succ k =>
      split
      · rename_i ho; rw [read_succ, List.takeWhile_cons_of_neg (by simp [ho])]; rfl
      · rename_i ho
        rw [read_succ, read_succ, List.takeWhile_cons_of_pos (by simpa using ho),
          read_strlenFrom m bound (k := k) (by rw [← h0]; congr 1; omega) (by omega)]

end Mem

namespace PropArea

open PTrie

/-- A C string with its NUL `k` bytes in is the bytes before it. -/
theorem cstr_eq_takeWhile {pa : PropArea} {o k : Nat} (hk : pa.data (o + k) = 0) (hlt : k < 2 ^ 32) :
    pa.cstr o = (pa.data.read o k).takeWhile (· != 0) :=
  Mem.read_strlenFrom _ _ hk hlt

/-! ## The value of an entry -/

/-- `prop_info::long_value()`: the entry's offset plus its long offset. -/
def longValueOff (pa : PropArea) (e : Nat) : Nat := e + pa.load (e + infoLongOffset)

/-- The value of the entry at `e`, as a reader takes it: for a long entry the
C string `long_value()` points to, else the `SERIAL_VALUE_LEN(serial)` bytes
of the value buffer. -/
def entryValue (pa : PropArea) (e : Nat) : Value :=
  if isLong (pa.load (e + infoSerial)) then .long (pa.cstr (pa.longValueOff e))
  else .short (pa.data.read (e + infoValue) (serialValueLen (pa.load (e + infoSerial))))

/-- **The abstraction function**: each name's value, read from the entry
`find` answers. -/
def contents (pa : PropArea) : Store := fun name =>
  match pa.find name with
  | some (some e) => some (pa.entryValue e)
  | _ => none

/-- An entry the trie leads to, as the writer leaves it: its serial is clean;
a short one counts fewer bytes than the buffer holds and has a NUL after
them; a long one holds `kLongLegacyError` and its NUL in the buffer. -/
structure EntryLive (pa : PropArea) (e : Nat) : Prop where
  clean : serialDirty (pa.load (e + infoSerial)) = 0
  short : isLong (pa.load (e + infoSerial)) = false →
    serialValueLen (pa.load (e + infoSerial)) < propValueMax ∧
      pa.data (e + infoValue + serialValueLen (pa.load (e + infoSerial))) = 0
  long : isLong (pa.load (e + infoSerial)) = true →
    pa.data.read (e + infoValue) (serialValueLen (pa.load (e + infoSerial)) + 1) = kLongLegacyError ++ [0]

/-- **The store invariant** of an area: the arena invariant, a root heading a
well-formed trie, every entry a C-string name leads to well formed, and no
two long entries of distinct names sharing a blob. -/
structure StoreInv (pa : PropArea) (objs : List Obj) (t : PTrie) : Prop where
  arena : Arena pa objs
  heads : Heads pa 0 t
  root : t.RootOk
  live : ∀ n e, 0 ∉ n → t.lookup n = some e → EntryLive pa e
  blobs : ∀ n n' e e', 0 ∉ n → 0 ∉ n' → t.lookup n = some e → t.lookup n' = some e' → n ≠ n' →
    isLong (pa.load (e + infoSerial)) = true → isLong (pa.load (e' + infoSerial)) = true →
    pa.longValueOff e ≠ pa.longValueOff e'
  backup : ⟨sizeofPropBt, align4 propValueMax, .other⟩ ∈ objs

section Arena

variable {pa : PropArea} {objs : List Obj}

/-- The contents are the values of the entries the trie's lookups answer. -/
theorem Arena.contents_eq (h : Arena pa objs) {t : PTrie} (ht : Heads pa 0 t) (n : Bytes) :
    pa.contents n = (t.lookup n).map pa.entryValue := by
  rw [contents, h.find_eq_lookup ht]
  cases t.lookup n <;> rfl

/-- A lookup answers an entry object. -/
theorem Arena.entryObj_of_lookup (h : Arena pa objs) {t : PTrie} (ht : Heads pa 0 t) {n : Bytes} {e : Nat}
    (he : t.lookup n = some e) : ∃ x ∈ objs, x.kind = .entry ∧ x.off = e := by
  obtain ⟨-, hend⟩ := h.traverseTrieLoop_eq_walk (segments n) (show NodeAt objs 0 from ⟨_, h.root, rfl, rfl⟩) ht
  cases hw : (t.walk (segments n)).rootOff with
  | none =>
    rw [lookup] at he
    cases h' : t.walk (segments n) with
    | nil => rw [h'] at he; cases he
    | node _ _ _ _ _ _ => rw [h'] at hw; cases hw
  | some o =>
    obtain ⟨⟨x, hx, hxk, rfl⟩, hu⟩ := hend o hw
    have hent : t.lookup n = _ := hu.entry_eq
    rw [he] at hent
    split at hent
    · cases hent
    rename_i hne
    have hok := h.ok x hx
    unfold ObjOk at hok; rw [hxk] at hok
    obtain ⟨y, hy, hyk, hyo, -⟩ := (hok.2 _ prop_mem_linkFields).resolve_left hne
    exact ⟨y, hy, hyk, hyo.trans (Option.some.inj hent).symm⟩

/-- A long entry's blob. -/
theorem Arena.blob_of_long (h : Arena pa objs) {x : Obj} (hx : x ∈ objs) (hxk : x.kind = .entry)
    (hl : isLong (pa.load (x.off + infoSerial)) = true) : ∃ b ∈ objs, b.kind = .blob ∧ b.off = pa.longValueOff x.off := by
  have hok := h.ok x hx
  unfold ObjOk at hok; rw [hxk] at hok
  obtain ⟨b, hb, hbk, hbo, -⟩ := hok.2 hl
  exact ⟨b, hb, hbk, hbo⟩

/-- Objects of two kinds start at two offsets. -/
theorem Arena.off_ne_of_kind_ne (h : Arena pa objs) {x y : Obj} (hx : x ∈ objs) (hy : y ∈ objs)
    (hk : x.kind ≠ y.kind) : x.off ≠ y.off :=
  fun e => hk (congrArg Obj.kind (h.eq_of_off hx hy e))

/-- **An entry over a write that keeps it.** A write that keeps the bytes of
the entry's object and, when it is long, of its blob, keeps its serial, its
long offset, its value and its being well formed. -/
theorem Arena.entry_kept (h : Arena pa objs) {x : Obj} (hx : x ∈ objs) (hxk : x.kind = .entry)
    (hlive : EntryLive pa x.off) {pa' : PropArea}
    (hkeep : ∀ y ∈ objs, y.kind ≠ .node →
      (y = x ∨ (isLong (pa.load (x.off + infoSerial)) = true ∧ y.off = pa.longValueOff x.off)) →
      ∀ i, y.off ≤ i → i < y.off + y.size → pa'.data i = pa.data i) :
    pa'.load (x.off + infoSerial) = pa.load (x.off + infoSerial) ∧ pa'.longValueOff x.off = pa.longValueOff x.off ∧
      pa'.entryValue x.off = pa.entryValue x.off ∧ EntryLive pa' x.off := by
  have hsz := h.size_ge x hx
  rw [hxk] at hsz; simp only [Kind.minSize, sizeofPropInfo, propValueMax] at hsz
  have hin := hkeep x hx (by rw [hxk]; decide) (.inl rfl)
  have hw : ∀ f, f + 4 ≤ sizeofPropInfo → pa'.load (x.off + f) = pa.load (x.off + f) := fun f hf =>
    Mem.loadU32_congr fun i h₁ h₂ => hin i (by omega) (by simp only [sizeofPropInfo, propValueMax] at hf; omega)
  have hread : ∀ k, infoValue + k ≤ sizeofPropInfo →
      pa'.data.read (x.off + infoValue) k = pa.data.read (x.off + infoValue) k := fun k hk =>
    Mem.read_congr fun i h₁ h₂ => hin i (by omega) (by simp only [infoValue, sizeofPropInfo, propValueMax] at hk h₂; omega)
  have hser := hw infoSerial (by decide)
  have hoff : pa'.longValueOff x.off = pa.longValueOff x.off := by
    rw [longValueOff, longValueOff, hw infoLongOffset (by decide)]
  refine ⟨hser, hoff, ?_, ⟨by rw [hser]; exact hlive.clean, fun hs => ?_, fun hl => ?_⟩⟩
  · unfold entryValue
    rw [hser, hoff]
    by_cases hl : isLong (pa.load (x.off + infoSerial)) = true
    · -- the blob holds a NUL, and its bytes stay
      rw [if_pos hl, if_pos hl]
      obtain ⟨b, hb, hbk, hbo⟩ := h.blob_of_long hx hxk hl
      have hbok := h.ok b hb
      unfold ObjOk at hbok; rw [hbk] at hbok
      obtain ⟨k, hk, hk0⟩ := hbok
      have hinb := hkeep b hb (by rw [hbk]; decide) (.inr ⟨hl, hbo⟩)
      have := h.below b hb; have := h.used_le
      have hk32 : k < 2 ^ 32 := by simp only [paDataSize, paSize, sizeofPropArea] at *; omega
      rw [← hbo, cstr_eq_takeWhile hk0 hk32, cstr_eq_takeWhile ((hinb _ (by omega) (by omega)).trans hk0) hk32,
        Mem.read_congr fun i h₁ h₂ => hinb i h₁ (by omega)]
    · rw [if_neg hl, if_neg hl,
        hread _ (by have := (hlive.short (by simpa using hl)).1; simp only [infoValue, sizeofPropInfo, propValueMax] at *; omega)]
  · rw [hser] at hs ⊢
    obtain ⟨hlt, hz⟩ := hlive.short hs
    exact ⟨hlt, (hin _ (by omega) (by simp only [infoValue, propValueMax] at hlt ⊢; omega)).trans hz⟩
  · rw [hser] at hl ⊢
    have hlen := congrArg List.length (hlive.long hl)
    rw [Mem.length_read, List.length_append, kLongLegacyError_length] at hlen
    rw [hread _ (by simp only [infoValue, sizeofPropInfo, propValueMax]; simp only [List.length_singleton] at hlen; omega)]
    exact hlive.long hl

end Arena

/-! ## A new entry -/

/-- `copiedBytes` is what a copy of `valuelen` bytes reads back. -/
theorem read_copied {m : Mem} {o n : Nat} {src : Bytes} (h : ∀ i < n, m (o + i) = src.getD i 0) :
    m.read o n = copiedBytes src n :=
  List.map_congr_left fun i hi => h i (List.mem_range.1 hi)

/-- A name with no NUL, copied with `namelen` bytes, at least its length, and
a NUL after them, reads back as a C string. -/
theorem cstr_of_copied {pa : PropArea} {o namelen : Nat} {name : Bytes} (hn : 0 ∉ name) (hlen : name.length ≤ namelen)
    (hlt : namelen < 2 ^ 32) (hcopy : ∀ i < namelen, pa.data (o + i) = name.getD i 0) (hnul : pa.data (o + namelen) = 0) :
    pa.cstr o = name := by
  have h0 : pa.data (o + name.length) = 0 := by
    rcases hlen.lt_or_eq with h | h
    · rw [hcopy _ h, List.getD_eq_default _ _ le_rfl]
    · rw [h]; exact hnul
  rw [cstr_eq_takeWhile h0 (by omega), read_copied fun i hi => hcopy i (by omega), copiedBytes, Mem.map_range_getD,
    List.takeWhile_eq_self_iff]
  exact fun c hc => bne_iff_ne.2 fun e => hn (e ▸ hc)

/-- **The entry `new_prop_info` builds**, read in any area that holds its
bytes from `bytes_used_` on: it lies past the objects there were, reads back
as `Value.ofAdd value valuelen`, is well formed, a long one's blob lies past
the objects there were too, and it stores a name with no NUL copied with at
least its length. -/
theorem newPropInfo_entry {pa pa₂ : PropArea} {name value : Bytes} {namelen valuelen e : Nat}
    (hres : pa.newPropInfo name namelen value valuelen = some (pa₂, some e)) {pa' : PropArea}
    (hdata : ∀ i, pa.bytesUsed ≤ i → pa'.data i = pa₂.data i) :
    pa.bytesUsed ≤ e ∧ pa'.entryValue e = Value.ofAdd value valuelen ∧ EntryLive pa' e ∧
      (isLong (pa'.load (e + infoSerial)) = true → pa.bytesUsed ≤ pa'.longValueOff e) ∧
      (0 ∉ name → name.length ≤ namelen → pa'.cstr (e + infoName) = name) := by
  unfold PropArea.newPropInfo allocateObj at hres
  by_cases hfit : pa.bytesUsed + align4 (sizeofPropInfo + namelen + 1) > paDataSize
  · rw [if_pos hfit] at hres; cases hres
  rw [if_neg hfit] at hres
  simp only at hres
  have hA : sizeofPropInfo + namelen + 1 ≤ align4 (sizeofPropInfo + namelen + 1) := by unfold align4; omega
  generalize align4 (sizeofPropInfo + namelen + 1) = A at *
  simp only [sizeofPropInfo, propValueMax] at hA
  have hload : ∀ f, pa'.load (pa.bytesUsed + f) = pa₂.load (pa.bytesUsed + f) := fun f =>
    Mem.loadU32_congr fun i h₁ _ => hdata i (by omega)
  have hread : ∀ o n, pa.bytesUsed ≤ o → pa'.data.read o n = pa₂.data.read o n := fun o n ho =>
    Mem.read_congr fun i h₁ _ => hdata i (by omega)
  have hlt : namelen < 2 ^ 32 := by
    have := hfit; simp only [paDataSize, paSize, sizeofPropArea] at this; omega
  -- the name, copied and ended by a NUL
  have hcs : (∀ i < namelen, pa₂.data (pa.bytesUsed + infoName + i) = name.getD i 0) →
      pa₂.data (pa.bytesUsed + infoName + namelen) = 0 →
      0 ∉ name → name.length ≤ namelen → pa'.cstr (pa.bytesUsed + infoName) = name := fun hname hnul hn hlen =>
    cstr_of_copied hn hlen hlt (fun i hi => by rw [hdata _ (by omega)]; exact hname i hi)
      (by rw [hdata _ (by omega)]; exact hnul)
  split at hres
  · -- a long value: the blob, then the entry
    rename_i hlong
    by_cases hfit₂ : pa.bytesUsed + A + align4 ((valuelen + 1) % 2 ^ 32) > paDataSize
    · rw [if_pos hfit₂] at hres; cases hres
    rw [if_neg hfit₂] at hres
    simp only [Option.bind_eq_bind] at hres
    obtain ⟨pa₃, h₃, hres⟩ := Option.bind_eq_some.1 hres
    obtain ⟨pa₄, h₄, hres⟩ := Option.bind_eq_some.1 hres
    obtain ⟨pa₅, h₅, hres⟩ := Option.bind_eq_some.1 hres
    obtain ⟨rfl, he⟩ := Prod.mk.inj (Option.some.inj hres)
    cases he
    obtain ⟨hfit₃, rfl⟩ := fill_eq_some h₃
    obtain ⟨-, rfl⟩ := fill_eq_some h₄
    obtain ⟨-, hout, hnul₅, hser, hoff, hleg, hname⟩ := constructLong_spec h₅
    simp only [infoName, sizeofPropInfo, propValueMax] at hout
    have hser' : pa'.load (pa.bytesUsed + infoSerial) = longSerial % 2 ^ 32 := (hload _).trans hser
    have hlo : pa'.longValueOff pa.bytesUsed = pa.bytesUsed + A := by
      have : pa.bytesUsed + A < 2 ^ 32 := by simp only [paDataSize, paSize, sizeofPropArea] at *; omega
      rw [longValueOff, hload, hoff, Nat.add_sub_cancel_left, Nat.mod_eq_of_lt (show A < 2 ^ 32 by omega)]
    -- the blob: the value's bytes and a NUL
    have hblob : ∀ i < valuelen, pa'.data (pa.bytesUsed + A + i) = value.getD i 0 := fun i hi => by
      rw [hdata _ (by omega), hout _ (.inr (by omega)), Mem.fill_apply_of_not_mem _ (by omega),
        Mem.fill_apply_of_mem _ (by omega) (by omega), Nat.add_sub_cancel_left]
    have hnul : pa'.data (pa.bytesUsed + A + valuelen) = 0 := by
      rw [hdata _ (by omega), hout _ (.inr (by omega)), Mem.fill_apply_of_mem _ (by omega) (by omega)]
    have hv32 : valuelen < 2 ^ 32 := by simp only [paDataSize, paSize, sizeofPropArea] at hfit₃; omega
    refine ⟨le_rfl, ?_, ⟨by rw [hser']; decide, fun hs => (by rw [hser', isLong_longSerial] at hs; cases hs), fun _ => ?_⟩,
      fun _ => by rw [hlo]; omega, hcs hname hnul₅⟩
    · rw [entryValue, hser', if_pos isLong_longSerial, hlo, cstr_eq_takeWhile hnul hv32, read_copied hblob,
        Value.ofAdd, if_neg (by simp only [propValueMax] at hlong ⊢; omega)]
    · rw [hser', show serialValueLen (longSerial % 2 ^ 32) = kLongLegacyError.length by decide,
        hread _ _ (by simp only [infoValue]; omega), hleg]
  · -- a short value, in the entry
    rename_i hshort
    simp only [Option.bind_eq_bind] at hres
    obtain ⟨pa₃, h₃, hres⟩ := Option.bind_eq_some.1 hres
    obtain ⟨rfl, he⟩ := Prod.mk.inj (Option.some.inj hres)
    cases he
    simp only [propValueMax, ge_iff_le, not_le] at hshort
    obtain ⟨-, -, hnul₃, hser, hval, hvnul, hname⟩ := constructShort_spec h₃ (by simp only [propValueMax]; omega)
    have hlen : serialValueLen (shortSerial valuelen % 2 ^ 32) = valuelen := by
      rw [Nat.mod_eq_of_lt (show shortSerial valuelen < 2 ^ 32 from Nat.mod_lt _ (by decide)),
        @serialValueLen_shortSerial valuelen (by omega)]
    have hser' : pa'.load (pa.bytesUsed + infoSerial) = shortSerial valuelen % 2 ^ 32 := (hload _).trans hser
    refine ⟨le_rfl, ?_, ⟨?_, fun _ => ⟨?_, ?_⟩, fun hl => ?_⟩, fun hl => ?_, hcs hname hnul₃⟩
    · rw [entryValue, hser', if_neg (by rw [isLong_shortSerial]; decide), hlen, hread _ _ (by simp only [infoValue]; omega),
        read_copied hval, Value.ofAdd, if_pos (by simp only [propValueMax]; omega)]
    · have := shortSerial_mod valuelen
      rw [hser', serialDirty_eq, Nat.mod_eq_of_lt (show shortSerial valuelen < 2 ^ 32 from Nat.mod_lt _ (by decide))]
      omega
    · rw [hser', hlen]; simp only [propValueMax]; omega
    · rw [hser', hlen, hdata _ (by omega), hvnul]
    · rw [hser', isLong_shortSerial] at hl; cases hl
    · rw [hser', isLong_shortSerial] at hl; cases hl

/-! ## `add` and `remove` against the store -/

section Refinement

variable {pa : PropArea} {objs : List Obj} {t : PTrie}

/-- The fresh area holds no value. -/
theorem contents_fresh (n : Bytes) : fresh.contents n = none := by
  obtain ⟨t, ht, -, hnone⟩ := fresh_lookup
  rw [arena_fresh.contents_eq ht, hnone]; rfl

theorem storeInv_fresh : ∃ objs t, StoreInv fresh objs t := by
  obtain ⟨t, ht, hr, hnone⟩ := fresh_lookup
  exact ⟨initObjs, t, arena_fresh, ht, hr, fun n e _ he => (by rw [hnone] at he; cases he),
    fun n _ e _ _ _ he => (by rw [hnone] at he; cases he), by decide⟩

/-- A blob of an entry the trie leads to lies below `bytes_used_`. -/
theorem StoreInv.longValueOff_lt (hi : StoreInv pa objs t) {n : Bytes} {e : Nat} (he : t.lookup n = some e)
    (hl : isLong (pa.load (e + infoSerial)) = true) : pa.longValueOff e < pa.bytesUsed := by
  obtain ⟨x, hx, hxk, rfl⟩ := hi.arena.entryObj_of_lookup hi.heads he
  obtain ⟨b, hb, -, hbo⟩ := hi.arena.blob_of_long hx hxk hl
  have := hi.arena.below b hb; have := hi.arena.size_ge b hb; have := b.kind.one_le_minSize
  omega

/-- **`add` refines inserting an absent name.** With a name with no NUL,
the invariant holds after it, and each name with no NUL holds what it held,
but for the name added when it had no entry and `add` reports success: it
then holds the value `new_prop_info` was given. -/
theorem StoreInv.add (hi : StoreInv pa objs t) {name : Bytes} (hn : 0 ∉ name) {namelen valuelen : Nat}
    {value : Bytes} {pa' : PropArea} {b : Bool} (hres : pa.add name namelen value valuelen = some (pa', b)) :
    ∃ objs' t', StoreInv pa' objs' t' ∧ ∀ n, 0 ∉ n →
      pa'.contents n = if b = true then (pa.contents.insertIfAbsent name (Value.ofAdd value valuelen)) n
        else pa.contents n := by
  obtain ⟨objs', t', hext, ht', hr', hkept, -, hpresent, hfail, hnew⟩ := hi.arena.add_spec hi.heads hi.root hn hres
  have hc := hi.arena.contents_eq hi.heads
  have hc' := hext.arena.contents_eq ht'
  -- an entry there was keeps its value
  have hold : ∀ n e, 0 ∉ n → t.lookup n = some e → pa'.load (e + infoSerial) = pa.load (e + infoSerial) ∧
      pa'.longValueOff e = pa.longValueOff e ∧ pa'.entryValue e = pa.entryValue e ∧ EntryLive pa' e :=
    fun n e hn' he => by
      obtain ⟨x, hx, hxk, rfl⟩ := hi.arena.entryObj_of_lookup hi.heads he
      exact hi.arena.entry_kept hx hxk (hi.live n _ hn' he) fun y hy hyk _ => hkept y hy hyk
  have hmap : ∀ n, 0 ∉ n → t'.lookup n = t.lookup n → pa'.contents n = pa.contents n := fun n hn' hl => by
    rw [hc', hc, hl]
    cases he : t.lookup n with
    | none => simp only [Option.map_none']
    | some e => simp only [Option.map_some', (hold n e hn' he).2.2.1]
  cases b
  · -- `add` failed: every lookup answers what it answered
    have hl := hfail rfl
    refine ⟨objs', t', ⟨hext.arena, ht', hr', fun n e hn' he => ?_, fun n n' e e' hn₁ hn₂ he he' hne hl₁ hl₂ => ?_,
      hext.mem hi.backup⟩, fun n hn' => by rw [if_neg Bool.false_ne_true]; exact hmap n hn' (hl n hn')⟩
    · rw [hl n hn'] at he; exact (hold n e hn' he).2.2.2
    · rw [hl n hn₁] at he; rw [hl n' hn₂] at he'
      obtain ⟨hs₁, ho₁, -⟩ := hold n e hn₁ he
      obtain ⟨hs₂, ho₂, -⟩ := hold n' e' hn₂ he'
      rw [ho₁, ho₂]; rw [hs₁] at hl₁; rw [hs₂] at hl₂
      exact hi.blobs n n' e e' hn₁ hn₂ he he' hne hl₁ hl₂
  cases hpre : t.lookup name with
  | some e₀ =>
    -- the name had an entry: nothing was written
    obtain ⟨-, rfl, rfl⟩ := hpresent (by rw [hpre]; rfl)
    refine ⟨objs', _, ⟨hext.arena, hi.heads, hi.root, hi.live, hi.blobs, hext.mem hi.backup⟩, fun n _ => ?_⟩
    simp only [eq_self_iff_true, if_true, Store.insertIfAbsent, hc name, hpre, Option.map_some', reduceCtorEq, and_false,
      if_false]
  | none =>
    -- the name had none: the new entry is published under it
    obtain ⟨pa₁, objs₁, pa₂, e, hext₁, h₂, -, hdata, hlook, hother⟩ := hnew rfl hpre
    obtain ⟨hge, hval, hlive, hblob, -⟩ := newPropInfo_entry h₂ hdata
    have hge' := hext₁.used_le_used.trans hge
    have hlook' : ∀ n e', 0 ∉ n → t'.lookup n = some e' → (n = name ∧ e' = e) ∨ (n ≠ name ∧ t.lookup n = some e') :=
      fun n e' hn' he' => by
        by_cases hne : n = name
        · subst hne; rw [hlook] at he'; exact .inl ⟨rfl, (Option.some.inj he').symm⟩
        · rw [hother n hn' hne] at he'; exact .inr ⟨hne, he'⟩
    -- the new blob lies past every blob there was
    have hfar : ∀ n e', 0 ∉ n → n ≠ name → t.lookup n = some e' → isLong (pa'.load (e + infoSerial)) = true →
        isLong (pa'.load (e' + infoSerial)) = true → pa'.longValueOff e ≠ pa'.longValueOff e' := fun n e' hn' _ he' hl hl' => by
      obtain ⟨hs', ho', -⟩ := hold n e' hn' he'
      rw [hs'] at hl'
      rw [ho']
      have := hi.longValueOff_lt he' hl'; have := hblob hl; have := hext₁.used_le_used
      omega
    refine ⟨objs', t', ⟨hext.arena, ht', hr', fun n e' hn' he' => ?_, fun n n' e₁ e₂ hn₁ hn₂ he₁ he₂ hne hl₁ hl₂ => ?_,
      hext.mem hi.backup⟩, fun n hn' => ?_⟩
    · rcases hlook' n e' hn' he' with ⟨-, rfl⟩ | ⟨-, he'⟩
      · exact hlive
      · exact (hold n e' hn' he').2.2.2
    · rcases hlook' n e₁ hn₁ he₁ with ⟨rfl, rfl⟩ | ⟨hn₁', he₁⟩ <;>
        rcases hlook' n' e₂ hn₂ he₂ with ⟨rfl, rfl⟩ | ⟨hn₂', he₂⟩
      · exact absurd rfl hne
      · exact hfar n' e₂ hn₂ hn₂' he₂ hl₁ hl₂
      · exact (hfar n e₁ hn₁ hn₁' he₁ hl₂ hl₁).symm
      · obtain ⟨hs₁, ho₁, -⟩ := hold n e₁ hn₁ he₁
        obtain ⟨hs₂, ho₂, -⟩ := hold n' e₂ hn₂ he₂
        rw [ho₁, ho₂]; rw [hs₁] at hl₁; rw [hs₂] at hl₂
        exact hi.blobs n n' e₁ e₂ hn₁ hn₂ he₁ he₂ hne hl₁ hl₂
    · simp only [eq_self_iff_true, if_true, Store.insertIfAbsent, hc name, hpre, Option.map_none', and_true]
      split
      · rename_i hnn; subst hnn; rw [hc', hlook, Option.map_some', hval]
      · rename_i hnn; exact hmap n hn' (hother n hn' hnn)

/-- `remove` keeps the bytes of the entry of every other C-string name, and
those of its blob. -/
theorem StoreInv.remove_keeps (hi : StoreInv pa objs t) {name : Bytes} (hn : 0 ∉ name) {pa' : PropArea}
    (hnone : t.lookup name = none → pa' = pa)
    (hframe : ∀ e, t.lookup name = some e → ∀ y ∈ objs, y.kind ≠ .node → y.off ≠ e →
      (isLong (pa.load (e + infoSerial)) = true → y.off ≠ e + pa.load (e + infoLongOffset)) →
      ∀ i, y.off ≤ i → i < y.off + y.size → pa'.data i = pa.data i)
    {n : Bytes} {x : Obj} (hn' : 0 ∉ n) (hne : n ≠ name) (he : t.lookup n = some x.off) (hx : x ∈ objs)
    (hxk : x.kind = .entry) :
    ∀ y ∈ objs, y.kind ≠ .node → (y = x ∨ (isLong (pa.load (x.off + infoSerial)) = true ∧ y.off = pa.longValueOff x.off)) →
      ∀ i, y.off ≤ i → i < y.off + y.size → pa'.data i = pa.data i := fun y hy hyk hyx => by
  cases hname : t.lookup name with
  | none => rw [hnone hname]; exact fun _ _ _ => rfl
  | some e =>
    obtain ⟨z, hz, hzk, rfl⟩ := hi.arena.entryObj_of_lookup hi.heads hname
    have hxz : x.off ≠ z.off := fun h => hne (lookup_injective hi.root
      (hi.arena.entries_nodup .root hi.heads) hn' hn he (h ▸ hname))
    refine hframe z.off hname y hy hyk ?_ fun hl₀ => ?_
    · rcases hyx with rfl | ⟨hl, hyo⟩
      · exact hxz
      · obtain ⟨c, hc, hck, hco⟩ := hi.arena.blob_of_long hx hxk hl
        show y.off ≠ z.off
        rw [hyo, ← hco]
        exact hi.arena.off_ne_of_kind_ne hc hz (by rw [hck, hzk]; decide)
    · obtain ⟨c, hc, hck, hco⟩ := hi.arena.blob_of_long hz hzk hl₀
      rcases hyx with rfl | ⟨hl, hyo⟩
      · show _ ≠ pa.longValueOff z.off
        rw [← hco]; exact hi.arena.off_ne_of_kind_ne hx hc (by rw [hxk, hck]; decide)
      · rw [hyo]; exact hi.blobs n name x.off z.off hn' hn he hname hne hl hl₀

/-- **`remove` refines erasing a name.** The invariant holds after it, it
answers whether the name had a value, and each name with no NUL holds what it
held but for the name removed, which holds nothing. -/
theorem StoreInv.remove (hi : StoreInv pa objs t) {name : Bytes} (hn : 0 ∉ name) (prune : Bool) {pa' : PropArea}
    {b : Bool} (hres : pa.remove name prune = some (pa', b)) :
    ∃ t', StoreInv pa' objs t' ∧ b = (pa.contents name).isSome ∧ ∀ n, 0 ∉ n → pa'.contents n = (pa.contents.erase name) n := by
  obtain ⟨pa'', b', t', hres', h', ht', hr', hb, hlook, hnone, hframe⟩ := hi.arena.remove_spec hi.heads hi.root name prune
  rw [hres] at hres'
  obtain ⟨rfl, rfl⟩ := Prod.mk.inj (Option.some.inj hres')
  have hc := hi.arena.contents_eq hi.heads
  have hc' := h'.contents_eq ht'
  -- an entry under another name keeps its value
  have hold : ∀ n e', 0 ∉ n → n ≠ name → t.lookup n = some e' → pa'.load (e' + infoSerial) = pa.load (e' + infoSerial) ∧
      pa'.longValueOff e' = pa.longValueOff e' ∧ pa'.entryValue e' = pa.entryValue e' ∧ EntryLive pa' e' :=
    fun n e' hn' hne he' => by
      obtain ⟨x, hx, hxk, rfl⟩ := hi.arena.entryObj_of_lookup hi.heads he'
      exact hi.arena.entry_kept hx hxk (hi.live n _ hn' he') (hi.remove_keeps hn hnone hframe hn' hne he' hx hxk)
  refine ⟨t', ⟨h', ht', hr', fun n e' hn' he' => ?_, fun n n' e₁ e₂ hn₁ hn₂ he₁ he₂ hne hl₁ hl₂ => ?_, hi.backup⟩,
    by rw [hb, hc, Option.isSome_map'], fun n hn' => ?_⟩
  · rw [hlook n hn'] at he'
    split at he'
    · cases he'
    · exact (hold n e' hn' ‹_› he').2.2.2
  · rw [hlook n hn₁] at he₁; rw [hlook n' hn₂] at he₂
    split at he₁; · cases he₁
    split at he₂; · cases he₂
    obtain ⟨hs₁, ho₁, -⟩ := hold n e₁ hn₁ ‹_› he₁
    obtain ⟨hs₂, ho₂, -⟩ := hold n' e₂ hn₂ ‹_› he₂
    rw [ho₁, ho₂]; rw [hs₁] at hl₁; rw [hs₂] at hl₂
    exact hi.blobs n n' e₁ e₂ hn₁ hn₂ he₁ he₂ hne hl₁ hl₂
  · rw [Store.erase, hc', hlook n hn']
    split
    · rfl
    · rename_i hne
      rw [hc]
      cases he : t.lookup n with
      | none => simp only [Option.map_none']
      | some e => simp only [Option.map_some', (hold n e hn' hne he).2.2.1]

end Refinement

/-! ## The names the entries store -/

/-- Every entry `find` answers for a C-string name stores that name: the C
string in its `name` field. -/
def NamesStored (pa : PropArea) : Prop :=
  ∀ n e, 0 ∉ n → pa.find n = some (some e) → pa.cstr (e + infoName) = n

theorem namesStored_fresh : fresh.NamesStored := fun n e _ he => by
  obtain ⟨t, ht, -, hnone⟩ := fresh_lookup
  rw [arena_fresh.find_eq_lookup ht, hnone] at he
  cases he

section Names

variable {pa pa' : PropArea} {objs : List Obj} {t : PTrie}

/-- The name an entry stores ends inside it, so writes that keep the bytes
of the entry from its `name` field on keep the name. -/
theorem Arena.cstr_name_kept (h : Arena pa objs) {x : Obj} (hx : x ∈ objs) (hxk : x.kind = .entry)
    (hkeep : ∀ i, x.off + infoName ≤ i → i < x.off + x.size → pa'.data i = pa.data i) :
    pa'.cstr (x.off + infoName) = pa.cstr (x.off + infoName) := by
  have hok := h.ok x hx
  unfold ObjOk at hok; rw [hxk] at hok
  obtain ⟨⟨k, hk, hk0⟩, -⟩ := hok
  have hlt : k < 2 ^ 32 := by
    have := h.below x hx; have := h.used_le
    simp only [paDataSize, paSize, sizeofPropArea] at *; omega
  rw [cstr_eq_takeWhile hk0 hlt, cstr_eq_takeWhile (by rw [hkeep _ (by omega) (by omega)]; exact hk0) hlt,
    Mem.read_congr fun i h₁ h₂ => hkeep i h₁ (by omega)]

/-- A write that leaves the store invariant over the same trie, and keeps the
bytes of every entry from its `name` field on, keeps the names stored. -/
theorem StoreInv.namesStored_of_kept (hi : StoreInv pa objs t) (hi' : StoreInv pa' objs t) (hs : pa.NamesStored)
    (hkeep : ∀ x ∈ objs, x.kind = .entry → ∀ i, x.off + infoName ≤ i → i < x.off + x.size → pa'.data i = pa.data i) :
    pa'.NamesStored := fun n e hn he => by
  rw [hi'.arena.find_eq_lookup hi'.heads, Option.some_inj] at he
  obtain ⟨x, hx, hxk, rfl⟩ := hi.arena.entryObj_of_lookup hi.heads he
  rw [hi.arena.cstr_name_kept hx hxk (hkeep x hx hxk)]
  exact hs n _ hn (by rw [hi.arena.find_eq_lookup hi.heads, he])

/-- **`add` keeps the names stored**, when it copies at least the name's
bytes: a new entry stores the name added, and every other entry keeps its
bytes. -/
theorem StoreInv.namesStored_add (hi : StoreInv pa objs t) (hs : pa.NamesStored) {name : Bytes} (hn : 0 ∉ name)
    {namelen valuelen : Nat} {value : Bytes} {b : Bool} (hlen : name.length ≤ namelen)
    (hres : pa.add name namelen value valuelen = some (pa', b)) : pa'.NamesStored := by
  obtain ⟨objs', t', hext, ht', -, hkept, -, hpresent, hfail, hnew⟩ := hi.arena.add_spec hi.heads hi.root hn hres
  -- an entry there was keeps the name it stores
  have hold : ∀ n e, 0 ∉ n → t.lookup n = some e → pa'.cstr (e + infoName) = n := fun n e hn' he => by
    obtain ⟨x, hx, hxk, rfl⟩ := hi.arena.entryObj_of_lookup hi.heads he
    rw [hi.arena.cstr_name_kept hx hxk fun i h₁ h₂ => hkept x hx (by rw [hxk]; decide) i (by omega) h₂]
    exact hs n _ hn' (by rw [hi.arena.find_eq_lookup hi.heads, he])
  intro n e hn' he
  rw [hext.arena.find_eq_lookup ht', Option.some_inj] at he
  cases b
  · exact hold n e hn' (by rw [← hfail rfl n hn']; exact he)
  cases hpre : t.lookup name with
  | some e₀ =>
    obtain ⟨-, rfl, rfl⟩ := hpresent (by rw [hpre]; rfl)
    exact hold n e hn' he
  | none =>
    obtain ⟨pa₁, objs₁, pa₂, e₁, -, h₂, -, hdata, hlook, hother⟩ := hnew rfl hpre
    by_cases hnn : n = name
    · subst hnn
      rw [hlook, Option.some_inj] at he
      subst he
      exact (newPropInfo_entry h₂ hdata).2.2.2.2 hn hlen
    · exact hold n e hn' (by rw [← hother n hn' hnn]; exact he)

/-- **`remove` keeps the names stored**: every entry left keeps its bytes. -/
theorem StoreInv.namesStored_remove (hi : StoreInv pa objs t) (hs : pa.NamesStored) {name : Bytes} (hn : 0 ∉ name)
    (prune : Bool) {b : Bool} (hres : pa.remove name prune = some (pa', b)) : pa'.NamesStored := by
  obtain ⟨pa'', b', t', hres', h', ht', -, -, hlook, hnone, hframe⟩ := hi.arena.remove_spec hi.heads hi.root name prune
  rw [hres] at hres'
  obtain ⟨rfl, rfl⟩ := Prod.mk.inj (Option.some.inj hres')
  intro n e hn' he
  rw [h'.find_eq_lookup ht', Option.some_inj, hlook n hn'] at he
  split at he
  · cases he
  rename_i hne
  obtain ⟨x, hx, hxk, rfl⟩ := hi.arena.entryObj_of_lookup hi.heads he
  rw [hi.arena.cstr_name_kept hx hxk fun i h₁ h₂ =>
    hi.remove_keeps hn hnone hframe hn' hne he hx hxk x hx (by rw [hxk]; decide) (.inl rfl) i (by omega) h₂]
  exact hs n _ hn' (by rw [hi.arena.find_eq_lookup hi.heads, he])

end Names

end PropArea

end SysProps
