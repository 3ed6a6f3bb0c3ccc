import SysProps.System

/-!
# The long-form flag of an entry that updates have reached

`kLongFlag` is bit 16 of the serial, inside the sequence field. The update
path never looks at it: after `2 ^ 15` updates of a short entry the flag
reads set, and it stays so for the next `2 ^ 15`. `Read` and `ReadCallback`
ask `is_long()` only of names starting with `ro.`. `prop_area::remove` asks it
of every entry, and on a short entry that answers yes it takes bytes 56 to 59
of the value as the offset of a long value and zeroes the C string there.

**What is proved.** `update_serial` says what a successful `Update` leaves in
the entry's serial; along any run of successful updates of one short entry
(`UpdatesOk`), `isLong_after_updates` reads the flag off their number: it is
bit 15 of it. `update_same_value` computes an update that stores the value the
entry already holds, in a state whose only area is the entry's, and
`updatesOk_same_value` runs it `n + 1` times, as one closed form. On that, two
runs of the writer from freshly created areas end with a `Delete` whose stray
write lands in a node of the trie:

* `delete_rewrites_other_node`: deleting `a` redirects the entry of a name
  never deleted to the dirty backup buffer, and
  `reachable_entry_overlong` reads from there a serial whose length field is
  120, so a reader copies 121 bytes;
* `failed_add_changes_lookup`: on a trie so damaged, an `Add` that returns
  `-1` makes the deleted name findable again.

**What it does not establish.** The runs are single ones: that the flag is
reached is proved for every run of updates, where the stray write lands only
for these.
-/

namespace SysProps

namespace SystemProperties

/-! ## What a successful update leaves in the serial -/

/-- **What a successful update leaves in the entry's serial**: the update
path's value for the serial it found. -/
theorem update_serial {sp sp' : SystemProperties} {pi : PropInfoRef} {value : Bytes} {len : Nat}
    {home : PropArea} (h : sp.update pi value len = some (sp', 0)) (hhome : sp.areas[pi.area]? = some home) :
    len < propValueMax ∧ ∃ pa', sp'.areas[pi.area]? = some pa' ∧
      pa'.load (pi.off + infoSerial) = updatedSerial (home.load (pi.off + infoSerial)) len := by
  unfold update at h
  split at h
  · simp at h
  rename_i hlen
  split at h
  · simp at h
  split at h
  · simp at h
  split at h
  · simp at h
  rename_i serialPa _
  rw [hhome] at h
  simp only at h
  split at h
  · simp at h
  obtain ⟨sp₁, -, h⟩ := Option.bind_eq_some.1 h
  obtain ⟨sp₂, -, h⟩ := Option.bind_eq_some.1 h
  obtain ⟨sp₃, -, h⟩ := Option.bind_eq_some.1 h
  obtain ⟨sp₄, h₄, h⟩ := Option.bind_eq_some.1 h
  simp only [Option.some.injEq, Prod.mk.injEq] at h
  obtain ⟨rfl, -⟩ := h
  obtain ⟨pa, pa', hpa, hstore, rfl⟩ := modifyArea_eq_some h₄
  refine ⟨by omega, pa', ?_, ?_⟩
  · simp [bumpSerial, List.getElem?_set, (List.getElem?_eq_some_iff.1 hpa).1]
  · rw [PropArea.load_of_store hstore, Nat.mod_eq_of_lt]
    rw [updatedSerial]; exact Nat.mod_lt _ (by decide)

/-- Successive successful updates of one entry: each returns 0. -/
inductive UpdatesOk : SystemProperties → PropInfoRef → List (Bytes × Nat) → SystemProperties → Prop
  | nil (sp : SystemProperties) (pi : PropInfoRef) : UpdatesOk sp pi [] sp
  | cons {sp sp₁ sp' : SystemProperties} {pi : PropInfoRef} {value : Bytes} {len : Nat}
      {ups : List (Bytes × Nat)} :
      sp.update pi value len = some (sp₁, 0) → UpdatesOk sp₁ pi ups sp' →
      UpdatesOk sp pi ((value, len) :: ups) sp'

/-- Along successful updates, the entry's serial is the update path's fold. -/
theorem serial_of_updatesOk {sp sp' : SystemProperties} {pi : PropInfoRef} {ups : List (Bytes × Nat)}
    (h : UpdatesOk sp pi ups sp') {home : PropArea} (hhome : sp.areas[pi.area]? = some home) :
    (∀ u ∈ ups, u.2 < propValueMax) ∧ ∃ pa', sp'.areas[pi.area]? = some pa' ∧
      pa'.load (pi.off + infoSerial) =
        (ups.map Prod.snd).foldl updatedSerial (home.load (pi.off + infoSerial)) := by
  induction h generalizing home with
  | nil => exact ⟨by simp, home, hhome, rfl⟩
  | cons hup _ ih =>
    obtain ⟨hlen, pa₁, hpa₁, hs₁⟩ := update_serial hup hhome
    obtain ⟨hl, pa', hpa', hs'⟩ := ih hpa₁
    refine ⟨?_, pa', hpa', ?_⟩
    · intro u hu
      rcases List.mem_cons.1 hu with rfl | hu
      · exact hlen
      · exact hl u hu
    · rw [hs', hs₁]; rfl

/-- Successful updates are a run of the writer. -/
theorem run_of_updatesOk {sp sp' : SystemProperties} {pi : PropInfoRef} {ups : List (Bytes × Nat)}
    (h : UpdatesOk sp pi ups sp') : sp.run (ups.map fun u => .update pi u.1 u.2) = some sp' := by
  induction h with
  | nil => rfl
  | cons hup _ ih => simp only [List.map_cons, run_cons, step, hup, Option.some_bind, ih]

end SystemProperties

/-! ## Updates to the value an entry already holds -/

namespace PropArea

/-- The entry at `p` holds `value`, `len` bytes and a NUL, under a clean serial
whose length field says `len`, and the backup buffer's `len + 1` bytes end
before the entry. -/
structure SameValue (pa : PropArea) (p : Nat) (value : Bytes) (len : Nat) : Prop where
  len_lt : len < propValueMax
  length_value : value.length = len
  backup_before : dirtyBackupArea + (len + 1) ≤ p
  fits : p + infoValue + (len + 1) ≤ paDataSize
  serial_len : serialValueLen (pa.load (p + infoSerial)) = len
  serial_clean : pa.load (p + infoSerial) % 2 = 0
  value_eq : ∀ i < len, pa.data (p + infoValue + i) = value.getD i 0
  nul : pa.data (p + infoValue + len) = 0

instance (pa : PropArea) (p : Nat) (value : Bytes) (len : Nat) : Decidable (pa.SameValue p value len) :=
  decidable_of_iff (len < propValueMax ∧ value.length = len ∧ dirtyBackupArea + (len + 1) ≤ p ∧
      p + infoValue + (len + 1) ≤ paDataSize ∧ serialValueLen (pa.load (p + infoSerial)) = len ∧
      pa.load (p + infoSerial) % 2 = 0 ∧ (∀ i < len, pa.data (p + infoValue + i) = value.getD i 0) ∧
      pa.data (p + infoValue + len) = 0)
    ⟨fun ⟨a, b, c, d, e, f, g, h⟩ => ⟨a, b, c, d, e, f, g, h⟩,
      fun ⟨a, b, c, d, e, f, g, h⟩ => ⟨a, b, c, d, e, f, g, h⟩⟩

/-- What `n` updates of the entry at `p` to the value it holds leave: the
backup buffer holds that value, and the serial the value's length over a
sequence advanced by `n`. -/
def sameValueUpdated (pa : PropArea) (p len n : Nat) : PropArea :=
  { pa with
    data := (pa.data.fill dirtyBackupArea (len + 1) fun i => pa.data (p + infoValue + i)).storeU32
      (p + infoSerial) (len * 2 ^ 24 + (pa.load (p + infoSerial) % 2 ^ 24 + 2 * n) % 2 ^ 24) }

section SameValue

variable {pa : PropArea} {p len : Nat} {value : Bytes}

theorem load_sameValueUpdated (h : pa.SameValue p value len) (n : Nat) :
    (pa.sameValueUpdated p len n).load (p + infoSerial) =
      len * 2 ^ 24 + (pa.load (p + infoSerial) % 2 ^ 24 + 2 * n) % 2 ^ 24 := by
  have := h.len_lt; unfold propValueMax at this
  rw [load, sameValueUpdated, Mem.loadU32_storeU32, Nat.mod_eq_of_lt (by omega)]

/-- The bytes of the value, and everything else past the backup buffer and
the serial, stay. -/
theorem sameValueUpdated_data_of_ge (h : pa.SameValue p value len) (n : Nat) {i : Nat}
    (hi : p + infoValue ≤ i) : (pa.sameValueUpdated p len n).data i = pa.data i := by
  have := h.backup_before
  simp only [sameValueUpdated, infoValue, infoSerial] at *
  rw [Mem.storeU32_apply_of_not_mem (by omega), Mem.fill_apply_of_not_mem _ (by omega)]

theorem sameValue_sameValueUpdated (h : pa.SameValue p value len) (n : Nat) :
    (pa.sameValueUpdated p len n).SameValue p value len where
  len_lt := h.len_lt
  length_value := h.length_value
  backup_before := h.backup_before
  fits := h.fits
  serial_len := by
    have := h.len_lt; unfold propValueMax at this
    rw [load_sameValueUpdated h, serialValueLen_eq]; omega
  serial_clean := by have := h.serial_clean; rw [load_sameValueUpdated h]; omega
  value_eq i hi := by rw [sameValueUpdated_data_of_ge h n (Nat.le_add_right _ _)]; exact h.value_eq i hi
  nul := by rw [sameValueUpdated_data_of_ge h n (Nat.le_add_right _ _)]; exact h.nul

/-- Updates to the value held compose: the backup buffer already holds it,
and the sequence advances by the sum. -/
theorem sameValueUpdated_sameValueUpdated (h : pa.SameValue p value len) (a b : Nat) :
    (pa.sameValueUpdated p len a).sameValueUpdated p len b = pa.sameValueUpdated p len (a + b) := by
  have hb := h.backup_before
  have hfill : ((pa.sameValueUpdated p len a).data.fill dirtyBackupArea (len + 1) fun i =>
      (pa.sameValueUpdated p len a).data (p + infoValue + i)) = (pa.sameValueUpdated p len a).data := by
    refine Mem.fill_eq_self fun i hi => ?_
    rw [sameValueUpdated_data_of_ge h a (Nat.le_add_right _ _)]
    simp only [sameValueUpdated, infoSerial, infoValue, dirtyBackupArea, sizeofPropBt] at *
    rw [Mem.storeU32_apply_of_not_mem (by omega), Mem.fill_apply_of_mem _ (by omega) (by omega)]
    congr 2; omega
  have hs : ∀ s : Nat, len * 2 ^ 24 + ((len * 2 ^ 24 + (s % 2 ^ 24 + 2 * a) % 2 ^ 24) % 2 ^ 24 + 2 * b) % 2 ^ 24 =
      len * 2 ^ 24 + (s % 2 ^ 24 + 2 * (a + b)) % 2 ^ 24 := fun s => by omega
  rw [sameValueUpdated, hfill, load_sameValueUpdated h, hs]
  simp only [sameValueUpdated, Mem.storeU32, Mem.fill_fill_same]

/-- The writes of `Update` to an entry that holds the value written: the value
and its NUL go over themselves and the dirty serial is overwritten, so what
stays is the backup copy and the new serial. -/
theorem update_writes_data (h : pa.SameValue p value len) (d : Nat) :
    ((((pa.data.fill dirtyBackupArea (len + 1) fun i => pa.data (p + infoValue + i)).fill (p + infoSerial) 4
      (Mem.u32Bytes d)).fill (p + infoValue) len fun i => value.getD i 0).fill (p + infoValue + len) 1
        fun _ => 0).fill (p + infoSerial) 4 (Mem.u32Bytes (updatedSerial (pa.load (p + infoSerial)) len)) =
      (pa.sameValueUpdated p len 1).data := by
  have hb := h.backup_before
  have hl := h.len_lt
  have hc := h.serial_clean
  have hX : ∀ i, p + infoValue ≤ i → ((pa.data.fill dirtyBackupArea (len + 1) fun i =>
      pa.data (p + infoValue + i)).fill (p + infoSerial) 4 (Mem.u32Bytes d)) i = pa.data i := fun i hi => by
    simp only [infoValue, infoSerial, dirtyBackupArea, sizeofPropBt] at hb hi ⊢
    rw [Mem.fill_apply_of_not_mem _ (by omega), Mem.fill_apply_of_not_mem _ (by omega)]
  have hs : len * 2 ^ 24 + (2 * (pa.load (p + infoSerial) / 2) + 2) % 2 ^ 24 =
      len * 2 ^ 24 + (pa.load (p + infoSerial) % 2 ^ 24 + 2 * 1) % 2 ^ 24 := by omega
  rw [Mem.fill_eq_self (o := p + infoValue) (n := len) fun i hi =>
      (h.value_eq i hi).symm.trans (hX _ (Nat.le_add_right _ _)).symm,
    Mem.fill_eq_self (o := p + infoValue + len) (n := 1) fun i hi => by
      obtain rfl := Nat.lt_one_iff.1 hi; exact h.nul.symm.trans (hX _ (Nat.le_add_right _ _)).symm,
    Mem.fill_fill_same, sameValueUpdated, Mem.storeU32,
    updatedSerial_eq _ _ (by unfold propValueMax at hl; omega), hs]

end SameValue

end PropArea

namespace SystemProperties

/-- The state after `n` updates of the entry at `p` to the value it holds, in
every area, the serial area bumped once for each. -/
def sameValueUpdated (sp : SystemProperties) (p len n : Nat) : SystemProperties :=
  { sp with
    areas := sp.areas.map (PropArea.sameValueUpdated · p len n)
    serialArea := sp.serialArea.map fun sa => { sa with serial := (sa.serial + n) % 2 ^ 32 } }

/-- A state with one area, every name routed to it, whose entry at `p` holds
`value`. -/
structure SameValueState (sp : SystemProperties) (p : Nat) (value : Bytes) (len : Nat) : Prop where
  initialized : sp.initialized = true
  rw : sp.rw = true
  route : ∀ name, sp.route name = some 0
  serialArea : sp.serialArea.isSome = true
  one_area : sp.areas.length = 1
  area : ∀ pa ∈ sp.areas, pa.SameValue p value len

section SameValue

variable {sp : SystemProperties} {p len : Nat} {value : Bytes}

theorem sameValueState_sameValueUpdated (h : sp.SameValueState p value len) (n : Nat) :
    (sp.sameValueUpdated p len n).SameValueState p value len where
  initialized := h.initialized
  rw := h.rw
  route := h.route
  serialArea := by simpa [sameValueUpdated] using h.serialArea
  one_area := by simpa [sameValueUpdated] using h.one_area
  area pa hpa := by
    obtain ⟨pa, hpa', rfl⟩ := List.mem_map.1 hpa
    exact PropArea.sameValue_sameValueUpdated (h.area pa hpa') n

theorem sameValueUpdated_sameValueUpdated (h : sp.SameValueState p value len) (a b : Nat) :
    (sp.sameValueUpdated p len a).sameValueUpdated p len b = sp.sameValueUpdated p len (a + b) := by
  simp only [sameValueUpdated, List.map_map, Option.map_map, Function.comp_def, Nat.mod_add_mod,
    Nat.add_assoc]
  rw [List.map_congr_left fun pa hpa => PropArea.sameValueUpdated_sameValueUpdated (h.area pa hpa) a b]

/-- **An update to the value the entry holds**, computed: the backup buffer
takes the value, the serial its length and the next sequence number, and the
serial area is bumped. -/
theorem update_same_value (h : sp.SameValueState p value len) :
    sp.update ⟨0, p⟩ value len = some (sp.sameValueUpdated p len 1, 0) := by
  obtain ⟨i, rw, sa, areas, route⟩ := sp
  obtain ⟨pa, rfl⟩ := List.length_eq_one.1 h.one_area
  obtain ⟨sa, rfl⟩ := Option.isSome_iff_exists.1 h.serialArea
  have hv := h.area pa (List.mem_singleton_self _)
  have hf := hv.fits
  have hb := hv.backup_before
  simp only [infoValue, dirtyBackupArea, sizeofPropBt, paDataSize, paSize, sizeofPropArea] at hf hb
  have hroute : getPropAreaForName ⟨i, rw, some sa, [pa], route⟩ (pa.cstr (p + infoName)) = some 0 := by
    have hr : ∀ n, route n = some 0 := h.route
    simp [getPropAreaForName, hr]
  obtain rfl : i = true := h.initialized
  obtain rfl : rw = true := h.rw
  simp only [update, Nat.not_le.2 hv.len_lt, hroute, List.getElem?_cons_zero, hv.serial_len, modifyArea,
    PropArea.store, PropArea.strlcpy, PropArea.copy, PropArea.storeByte, hv.length_value, if_false,
    Bool.not_true, Bool.false_eq_true, Nat.add_sub_cancel, min_self]
  simp (disch := simp only [dirtyBackupArea, sizeofPropBt, infoSerial, infoValue, paDataSize, paSize,
    sizeofPropArea]; omega) only [PropArea.fill_of_le, Option.bind_eq_bind, Option.some_bind,
    List.set_cons_zero, List.getElem?_cons_zero, bumpSerial, sameValueUpdated, List.map_cons, List.map_nil,
    Option.map_some', Option.some.injEq, Prod.mk.injEq]
  rw [PropArea.update_writes_data hv, and_true]; rfl

/-- **`n + 1` updates to the value held**, each returning 0, in closed form. -/
theorem updatesOk_same_value (h : sp.SameValueState p value len) (n : Nat) :
    UpdatesOk sp ⟨0, p⟩ (List.replicate (n + 1) (value, len)) (sp.sameValueUpdated p len (n + 1)) := by
  induction n generalizing sp with
  | zero => exact .cons (update_same_value h) (.nil _ _)
  | succ n ih =>
    have := ih (sameValueState_sameValueUpdated h 1)
    rw [sameValueUpdated_sameValueUpdated h, Nat.add_comm 1] at this
    exact .cons (update_same_value h) this

/-- The same, after a computation that may have failed. -/
theorem bind_run_same_value {x : Option SystemProperties} (hx : ∀ sp ∈ x, sp.SameValueState p value len)
    (n : Nat) : (x.bind fun sp => sp.run (List.replicate (n + 1) (.update ⟨0, p⟩ value len))) =
      x.map (·.sameValueUpdated p len (n + 1)) := by
  cases x with
  | none => rfl
  | some sp =>
    have := run_of_updatesOk (updatesOk_same_value (hx sp rfl) n)
    rwa [List.map_replicate] at this

end SameValue

/-- A state reached from `fresh` keeps its flags and routing: one area, and an
entry in it holding a value, make it a `SameValueState`. -/
theorem sameValueState_of_run {ops : List Op} {sp : SystemProperties} {p len : Nat} {value : Bytes}
    (h : fresh.run ops = some sp)
    (hd : sp.serialArea.isSome ∧ sp.areas.length = 1 ∧ ∀ pa ∈ sp.areas, pa.SameValue p value len) :
    sp.SameValueState p value len :=
  have hs := run_sameShape h
  ⟨hs.initialized, hs.rw, fun _ => by rw [hs.route]; rfl, hd.1, hd.2.1, hd.2.2⟩

/-- A run from `fresh` that ends in `n + 1` updates to the value held, when
the state it reaches before them has one area holding that value. -/
theorem run_append_same_value {ops : List Op} {p len : Nat} {value : Bytes}
    (hd : ∀ sp ∈ fresh.run ops,
      sp.serialArea.isSome ∧ sp.areas.length = 1 ∧ ∀ pa ∈ sp.areas, pa.SameValue p value len)
    (n : Nat) : fresh.run (ops ++ List.replicate (n + 1) (.update ⟨0, p⟩ value len)) =
      (fresh.run ops).map (·.sameValueUpdated p len (n + 1)) := by
  rw [run_append]
  exact bind_run_same_value (fun sp hsp => sameValueState_of_run hsp (hd sp hsp)) n

/-! ## Two runs of the writer -/

/-- The name `a`. -/
def nameA : Bytes := [97]

/-- The name `bbbbbbbbbbbbbbbbb`, seventeen `b`s. -/
def nameB : Bytes := List.replicate 17 98

/-- Fifty-six `x`s and an `i`: read as the offset of a long value, bytes 56
to 59 of the value buffer say 105. -/
def valueXi : Bytes := List.replicate 56 120 ++ [105]

/-- Add `a` with `valueXi`, which puts its entry at 136, and
`bbbbbbbbbbbbbbbbb` with `y`. -/
def addAB : List Op := [.add nameA 1 valueXi 57, .add nameB 17 [121] 1]

/-- Fifty-six `x`s and a `u`: read as an offset, 117. -/
def valueXu : Bytes := List.replicate 56 120 ++ [117]

/-- The name `a.c`. -/
def nameAC : Bytes := [97, 46, 99]

/-- The name `a.c.d`. -/
def nameACD : Bytes := [97, 46, 99, 46, 100]

/-- The name `a.c.z.`, whose last segment is empty. -/
def nameACZ : Bytes := [97, 46, 99, 46, 122, 46]

/-- Add `a` with `valueXu`, its entry at 136 again, then `a.c` and `a.c.d`
with `y`. -/
def addAC : List Op := [.add nameA 1 valueXu 57, .add nameAC 3 [121] 1, .add nameACD 5 [121] 1]

/-- After `addAB`, the entry of `a` holds its value. -/
theorem addAB_sameValue : ∀ sp ∈ fresh.run addAB,
    sp.serialArea.isSome ∧ sp.areas.length = 1 ∧ ∀ pa ∈ sp.areas, pa.SameValue 136 valueXi 57 := by
  decide

/-- After `addAC`, the entry of `a` holds its value. -/
theorem addAC_sameValue : ∀ sp ∈ fresh.run addAC,
    sp.serialArea.isSome ∧ sp.areas.length = 1 ∧ ∀ pa ∈ sp.areas, pa.SameValue 136 valueXu 57 := by
  decide

/-! ## The flag along a run of updates -/

/-- **`is_long()` of a short entry along successful updates** is bit 15 of
their number: false for the first `2 ^ 15 - 1`, then true. -/
theorem isLong_after_updates {sp sp' : SystemProperties} {pi : PropInfoRef} {home : PropArea}
    {valuelen : Nat} {ups : List (Bytes × Nat)} (hhome : sp.areas[pi.area]? = some home)
    (hv : valuelen < propValueMax) (hs : home.load (pi.off + infoSerial) = shortSerial valuelen)
    (hups : UpdatesOk sp pi ups sp') :
    ∃ pa', sp'.areas[pi.area]? = some pa' ∧
      isLong (pa'.load (pi.off + infoSerial)) = decide (ups.length / 2 ^ 15 % 2 = 1) := by
  obtain ⟨hl, pa', hpa', hs'⟩ := serial_of_updatesOk hups hhome
  refine ⟨pa', hpa', ?_⟩
  rw [hs', hs, isLong_foldl_updatedSerial hv _
    fun l hm => by obtain ⟨u, hu, rfl⟩ := List.mem_map.1 hm; exact hl u hu, List.length_map]

/-- After `addAB`, `a`'s entry at 136 holds `valueXi` under a short serial;
after `2 ^ 15` updates, each returning 0, it reads as long. -/
theorem a_reads_long_after_2_15_updates :
    ∃ sp home, fresh.run addAB = some sp ∧ sp.areas[0]? = some home ∧ 57 < propValueMax ∧
      home.load (136 + infoSerial) = shortSerial 57 ∧
      UpdatesOk sp ⟨0, 136⟩ (List.replicate (2 ^ 15) (valueXi, 57)) (sp.sameValueUpdated 136 57 (2 ^ 15)) ∧
      ∃ pa', (sp.sameValueUpdated 136 57 (2 ^ 15)).areas[0]? = some pa' ∧
        isLong (pa'.load (136 + infoSerial)) = true := by
  obtain ⟨sp, hsp⟩ := Option.isSome_iff_exists.1 (show (fresh.run addAB).isSome = true by decide)
  have hser : ∀ sp ∈ fresh.run addAB, sp.areas.map (·.load (136 + infoSerial)) = [shortSerial 57] := by
    decide
  have hd := addAB_sameValue sp hsp
  obtain ⟨home, hhome⟩ := List.length_eq_one.1 hd.2.1
  have h0 : sp.areas[0]? = some home := by rw [hhome]; rfl
  have hs : home.load (136 + infoSerial) = shortSerial 57 := by simpa [hhome] using hser sp hsp
  have hu := updatesOk_same_value (sameValueState_of_run hsp hd) 32767
  obtain ⟨pa', hpa', hl⟩ := isLong_after_updates h0 (by decide) hs hu
  exact ⟨sp, home, hsp, h0, by decide, hs, hu, pa', hpa', hl.trans (by rw [List.length_replicate]; rfl)⟩

/-- The form does change: `a`, added short, reads as long after `2 ^ 15`
updates that each return 0. -/
theorem isLong_stays_false_fails :
    ¬ ∀ (sp sp' : SystemProperties) (pi : PropInfoRef) (home : PropArea) (valuelen : Nat)
      (ups : List (Bytes × Nat)), sp.areas[pi.area]? = some home → valuelen < propValueMax →
        home.load (pi.off + infoSerial) = shortSerial valuelen → UpdatesOk sp pi ups sp' →
        ∃ pa', sp'.areas[pi.area]? = some pa' ∧ isLong (pa'.load (pi.off + infoSerial)) = false := by
  intro h
  obtain ⟨sp, hsp⟩ := Option.isSome_iff_exists.1 (show (fresh.run addAB).isSome = true by decide)
  have hser : ∀ sp ∈ fresh.run addAB, sp.areas.map (·.load (136 + infoSerial)) = [shortSerial 57] := by
    decide
  have hd := addAB_sameValue sp hsp
  obtain ⟨pa, hpa⟩ := List.length_eq_one.1 hd.2.1
  have hv := hd.2.2 pa (by simp [hpa])
  have hload : pa.load (136 + infoSerial) = shortSerial 57 := by simpa [hpa] using hser sp hsp
  obtain ⟨pa', hpa', hlong⟩ := h sp _ ⟨0, 136⟩ pa 57 _ (by simp [hpa]) (by decide) hload
    (updatesOk_same_value (sameValueState_of_run hsp hd) 32767)
  simp only [sameValueUpdated, hpa, List.map_cons, List.map_nil, List.getElem?_cons_zero,
    Option.some.injEq] at hpa'
  subst hpa'
  rw [PropArea.load_sameValueUpdated hv, hload] at hlong
  exact absurd hlong (by decide)


/-! ## Where the stray write of `remove` lands -/

/-- **`Delete` rewrites a node it does not remove.** After `addAB`, in which
`a` is found at 136, and `2 ^ 15` updates of `a` to the value it holds,
`bbbbbbbbbbbbbbbbb` is found at 276. `Delete("a")` returns 0, and then the
same lookup finds 20, the dirty backup buffer: the C string that `remove`
zeroed at `136 + 105` was the second byte of that name's `prop` link. -/
theorem delete_rewrites_other_node :
    (fresh.run addAB).bind (·.find nameA) = some (some ⟨0, 136⟩) ∧
    (fresh.run (addAB ++ List.replicate (2 ^ 15) (.update ⟨0, 136⟩ valueXi 57))).bind (·.find nameB) =
      some (some ⟨0, 276⟩) ∧
    ((fresh.run (addAB ++ List.replicate (2 ^ 15) (.update ⟨0, 136⟩ valueXi 57))).bind
      (·.delete nameA false)).map (fun r => (r.2, r.1.find nameB)) = some (0, some (some ⟨0, 20⟩)) := by
  rw [show 2 ^ 15 = 32767 + 1 from rfl, run_append_same_value addAB_sameValue]
  decide

/-- **A reachable entry whose length field passes `PROP_VALUE_MAX`.** In the
state `Delete("a")` leaves above, the entry found for `bbbbbbbbbbbbbbbbb` is
the backup buffer; its first word, read as a serial, has length 120, and
`ReadMutablePropertyValue` copies 121 bytes. -/
theorem reachable_entry_overlong :
    ((fresh.run (addAB ++ List.replicate (2 ^ 15) (.update ⟨0, 136⟩ valueXi 57) ++
      [.delete nameA false])).bind fun sp => (sp.find nameB).bind fun r => r.bind sp.readMutablePropertyValue).map
        (fun r => (serialValueLen r.1, r.2.length)) = some (120, 121) := by
  rw [run_append, show 2 ^ 15 = 32767 + 1 from rfl, run_append_same_value addAB_sameValue]
  decide

/-- **A failed `Add` changes a lookup.** After `addAC`, `2 ^ 15` updates of
`a` and `Delete("a")`, `a` is not found. `Add("a.c.z.")` returns -1, its last
segment being empty, yet afterwards `a` is found at 488: the stray zeroing
had turned the `children` link of `c` into 104, inside the backup buffer,
and the walk for `z` went from there to the cleared `prop` link of `a` and
published its new node in it. -/
theorem failed_add_changes_lookup :
    (fresh.run (addAC ++ List.replicate (2 ^ 15) (.update ⟨0, 136⟩ valueXu 57) ++
      [.delete nameA false])).bind (·.find nameA) = some none ∧
    ((fresh.run (addAC ++ List.replicate (2 ^ 15) (.update ⟨0, 136⟩ valueXu 57) ++
      [.delete nameA false])).bind (·.add nameACZ 6 [121] 1)).map (fun r => (r.2, r.1.find nameA)) =
        some (-1, some (some ⟨0, 488⟩)) := by
  rw [run_append, show 2 ^ 15 = 32767 + 1 from rfl, run_append_same_value addAC_sameValue]
  decide

end SystemProperties

end SysProps
