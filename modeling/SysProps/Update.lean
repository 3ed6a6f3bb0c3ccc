import SysProps.Refinement
import SysProps.DirtyBit

/-!
# `Update` against the store

`SystemProperties::Update(pi, value, len)` copies the old value into the dirty
backup buffer of the area the entry's name routes to, stores the serial
dirty, copies the new value in with `strlcpy`, stores the serial with the new
length and the next sequence number, and bumps the global serial. Run as one
call, with no reader between its accesses (`SysProps.DirtyBit` has the
interleavings), it changes one value of the store the service holds.

**What is proved.** `StoreInv.write`: a write confined to one object that is
neither a node nor a blob keeps the store invariant, when what it leaves in
that object is a live short entry or no entry at all, and every other entry
keeps its value. From it, the copy into the backup buffer keeps every value
(`StoreInv.fillBackup`), and the three writes to the entry replace the value
of its name alone (`StoreInv.writeEntry`); neither touches the name an entry
stores (`StoreInv.namesStored_fillBackup`, `StoreInv.namesStored_entryWrites`). `ServiceInv.update`: in a service
with the invariant whose entries store the names `Find` answers them for
(`EntriesNamed`, which runs of `Add` and `Delete` keep), an `Update` of the
entry `Find` gave for a C-string name, with a C string shorter than
`PROP_VALUE_MAX` and its length, never faults, answers 0, keeps both
invariants, and leaves the store with the name holding the new value.

`update_agrees_with_updateAlone` ties this `Update` to the one of
`SysProps.DirtyBit`, made of atomic accesses: where the entry's name routes
to its own area, the writer's accesses of the call, run with nothing between
them, leave in the entry's serial, its value buffer and the backup buffer
what `Update` leaves there.

**What it does not establish.** The sequence number of the serial shares bit
16 with `kLongFlag`, and `Update` does not look at it: the theorem assumes the
serial it stores does not read as long, which `SysProps.LongFlag` shows fails
after `2 ^ 15` updates of one entry. A `len` other than the value's length is
left out, and so are services where an `Add` was given a `namelen` shorter
than the name: the entry then stores a prefix of it, which may route to
another area or to none.
-/

namespace SysProps

namespace PropArea

open PTrie

/-! ## Writes confined to one object -/

section Write

variable {pa pa' : PropArea} {objs : List Obj} {t : PTrie}

/-- An entry a C-string name leads to, other than the object written, keeps
its serial, its long offset, its value and its being well formed: neither it
nor its blob is the object written. -/
theorem StoreInv.entry_kept_of_write (hi : StoreInv pa objs t) {z : Obj} (hz : z ∈ objs) (hzb : z.kind ≠ .blob)
    (hout : ∀ i, i < z.off ∨ z.off + z.size ≤ i → pa'.data i = pa.data i) {n : Bytes} {e : Nat} (hn : 0 ∉ n)
    (he : t.lookup n = some e) (hne : e ≠ z.off) :
    pa'.load (e + infoSerial) = pa.load (e + infoSerial) ∧ pa'.longValueOff e = pa.longValueOff e ∧
      pa'.entryValue e = pa.entryValue e ∧ EntryLive pa' e := by
  obtain ⟨x, hx, hxk, rfl⟩ := hi.arena.entryObj_of_lookup hi.heads he
  refine hi.arena.entry_kept hx hxk (hi.live n _ hn he) fun y hy _ hyx i h₁ h₂ => hout i ?_
  have hyz : y ≠ z := fun hyz => by
    subst hyz
    rcases hyx with rfl | ⟨hl, hyo⟩
    · exact hne rfl
    · obtain ⟨b, hb, hbk, hbo⟩ := hi.arena.blob_of_long hx hxk hl
      exact hzb (hi.arena.eq_of_off hb hy (hbo.trans hyo.symm) ▸ hbk)
  rcases hi.arena.disjoint hy hz hyz with h | h <;> omega

/-- **A write confined to one object** that is neither a node nor a blob, and
leaves it well formed, keeps the store invariant when each C-string name that
leads to the object finds there a live entry that is not long; every other
C-string name keeps its value. -/
theorem StoreInv.write (hi : StoreInv pa objs t) {z : Obj} (hz : z ∈ objs) (hzn : z.kind ≠ .node)
    (hzb : z.kind ≠ .blob) (hused : pa'.bytesUsed = pa.bytesUsed)
    (hout : ∀ i, i < z.off ∨ z.off + z.size ≤ i → pa'.data i = pa.data i) (hok : ObjOk pa' objs z)
    (hz' : ∀ n, 0 ∉ n → t.lookup n = some z.off →
      EntryLive pa' z.off ∧ isLong (pa'.load (z.off + infoSerial)) = false) :
    StoreInv pa' objs t ∧ ∀ n, 0 ∉ n → t.lookup n ≠ some z.off → pa'.contents n = pa.contents n := by
  have harena := hi.arena.writeData hz hzn hused hout hok
  have hheads := hi.arena.heads_of_nodes hi.heads fun i hi' => hout i (hi' z hz hzn)
  refine ⟨⟨harena, hheads, hi.root, fun n e hn he => ?_, fun n n' e e' hn hn' he he' hne hl hl' => ?_, hi.backup⟩,
    fun n hn hne => ?_⟩
  · by_cases hez : e = z.off
    · subst hez; exact (hz' n hn he).1
    · exact (hi.entry_kept_of_write hz hzb hout hn he hez).2.2.2
  · by_cases hez : e = z.off
    · subst hez; rw [(hz' n hn he).2] at hl; cases hl
    by_cases hez' : e' = z.off
    · subst hez'; rw [(hz' n' hn' he').2] at hl'; cases hl'
    obtain ⟨hs, ho, -⟩ := hi.entry_kept_of_write hz hzb hout hn he hez
    obtain ⟨hs', ho', -⟩ := hi.entry_kept_of_write hz hzb hout hn' he' hez'
    rw [ho, ho']; rw [hs] at hl; rw [hs'] at hl'
    exact hi.blobs n n' e e' hn hn' he he' hne hl hl'
  · rw [harena.contents_eq hheads, hi.arena.contents_eq hi.heads]
    cases he : t.lookup n with
    | none => simp only [Option.map_none']
    | some e =>
      have hez : e ≠ z.off := fun h => hne (h ▸ he)
      simp only [Option.map_some', (hi.entry_kept_of_write hz hzb hout hn he hez).2.2.1]

/-- The dirty backup buffer, the object `map_prop_area_rw` allocates after the root. -/
theorem StoreInv.no_entry_at_backup (hi : StoreInv pa objs t) {n : Bytes} :
    t.lookup n ≠ some sizeofPropBt := fun he => by
  obtain ⟨x, hx, hxk, hxo⟩ := hi.arena.entryObj_of_lookup hi.heads he
  exact hi.arena.off_ne_of_kind_ne hx hi.backup (by rw [hxk]; decide) hxo

/-- **The copy into the dirty backup buffer** keeps the store invariant and
every value. -/
theorem StoreInv.fillBackup (hi : StoreInv pa objs t) {k : Nat} (hk : k ≤ align4 propValueMax)
    {src : Nat → UInt8} (h : pa.fill dirtyBackupArea k src = some pa') :
    StoreInv pa' objs t ∧ (∀ n, 0 ∉ n → pa'.contents n = pa.contents n) ∧
      ∀ n e, 0 ∉ n → t.lookup n = some e → pa'.load (e + infoSerial) = pa.load (e + infoSerial) := by
  obtain ⟨-, hpa'⟩ := fill_eq_some h
  have hout : ∀ i, i < sizeofPropBt ∨ sizeofPropBt + align4 propValueMax ≤ i → pa'.data i = pa.data i :=
    fun i hi' => by rw [hpa']; exact Mem.fill_apply_of_not_mem src (by simp only [dirtyBackupArea] at hi' ⊢; omega)
  obtain ⟨hi', hc⟩ := hi.write hi.backup (by decide) (by decide) (by rw [hpa']) hout trivial fun n _ he =>
    absurd he hi.no_entry_at_backup
  exact ⟨hi', fun n hn => hc n hn hi.no_entry_at_backup, fun n e hn he =>
    (hi.entry_kept_of_write hi.backup (by decide) hout hn he fun h => hi.no_entry_at_backup (h ▸ he)).1⟩

end Write

/-- A well-formed entry's value is shorter than `PROP_VALUE_MAX`: a long
entry keeps the 50 bytes of the legacy message. -/
theorem EntryLive.len_lt {pa : PropArea} {e : Nat} (h : EntryLive pa e) :
    serialValueLen (pa.load (e + infoSerial)) < propValueMax := by
  cases hl : isLong (pa.load (e + infoSerial))
  · exact (h.short hl).1
  · have hlen := congrArg List.length (h.long hl)
    rw [Mem.length_read, List.length_append, kLongLegacyError_length, List.length_singleton] at hlen
    simp only [propValueMax]; omega

/-! ## The writes to the entry -/

/-- What the three writes of `Update(pi, value, len)` to the entry at `e`
leave: the second serial, the `min(strlen(value), len)` bytes `strlcpy`
copies and a NUL in the buffer, and every other byte as it was. -/
theorem entryWrites_data {pa pa₁ pa₂ pa₃ : PropArea} {e s₁ s₂ len : Nat} {value : Bytes}
    (h₁ : pa.store (e + infoSerial) s₁ = some pa₁) (h₂ : pa₁.strlcpy (e + infoValue) value (len + 1) = some pa₂)
    (h₃ : pa₂.store (e + infoSerial) s₂ = some pa₃) :
    pa₃.bytesUsed = pa.bytesUsed ∧ pa₃.load (e + infoSerial) = s₂ % 2 ^ 32 ∧
      (∀ i < min value.length len, pa₃.data (e + infoValue + i) = value.getD i 0) ∧
      pa₃.data (e + infoValue + min value.length len) = 0 ∧
      ∀ i, i < e ∨ e + infoValue + min value.length len + 1 ≤ i → pa₃.data i = pa.data i := by
  have hload := load_of_store h₃
  simp only [strlcpy, Nat.add_sub_cancel, Option.bind_eq_bind] at h₂
  obtain ⟨pc, hc, hs⟩ := Option.bind_eq_some.1 h₂
  obtain ⟨-, rfl⟩ := fill_eq_some h₁
  obtain ⟨-, rfl⟩ := fill_eq_some hc
  obtain ⟨-, rfl⟩ := fill_eq_some hs
  obtain ⟨-, rfl⟩ := fill_eq_some h₃
  clear h₁ h₂ h₃ hc hs
  refine ⟨rfl, hload, fun i hi => ?_, ?_, fun i hi => ?_⟩ <;> dsimp only [infoSerial, infoValue] at *
  · rw [Mem.fill_apply_of_not_mem _ (by omega), Mem.fill_apply_of_not_mem _ (by omega),
      Mem.fill_apply_of_mem _ (by omega) (by omega)]
    congr 1; omega
  · rw [Mem.fill_apply_of_not_mem _ (by omega), Mem.fill_apply_of_mem _ (by omega) (by omega)]
  · rw [Mem.fill_apply_of_not_mem _ (by omega), Mem.fill_apply_of_not_mem _ (by omega),
      Mem.fill_apply_of_not_mem _ (by omega), Mem.fill_apply_of_not_mem _ (by omega)]

/-- `strlcpy` of a whole C string that fits does not fault. -/
theorem strlcpy_some (pa : PropArea) {o : Nat} {src : Bytes} (h : o + src.length + 1 ≤ paDataSize) :
    ∃ pa', pa.strlcpy o src (src.length + 1) = some pa' :=
  ⟨_, by
    simp only [strlcpy, Nat.add_sub_cancel, Nat.min_self, Option.bind_eq_bind, copy,
      fill_of_le _ _ (show o + src.length ≤ paDataSize by omega), Option.some_bind, storeByte]
    exact fill_of_le _ _ h⟩

/-- The three writes of `Update` to an entry that lies in the area, with a
value shorter than `PROP_VALUE_MAX`, do not fault. -/
theorem entryWrites_some (pa : PropArea) {e : Nat} (he : e + sizeofPropInfo ≤ paDataSize) {value : Bytes}
    (hlen : value.length < propValueMax) (s₁ s₂ : Nat) :
    ∃ pa₁ pa₂ pa₃, pa.store (e + infoSerial) s₁ = some pa₁ ∧
      pa₁.strlcpy (e + infoValue) value (value.length + 1) = some pa₂ ∧ pa₂.store (e + infoSerial) s₂ = some pa₃ := by
  simp only [sizeofPropInfo, infoName, propValueMax] at he hlen
  obtain ⟨pa₂, h₂⟩ := strlcpy_some { pa with data := pa.data.storeU32 (e + infoSerial) s₁ }
    (show e + infoValue + value.length + 1 ≤ paDataSize by simp only [infoValue]; omega)
  exact ⟨_, pa₂, _, store_of_le _ _ (by simp only [infoSerial]; omega), h₂,
    store_of_le _ _ (by simp only [infoSerial]; omega)⟩

/-- **The three writes to the entry** of a C-string name, with a C string
shorter than `PROP_VALUE_MAX` and a serial that does not read as long, keep
the store invariant and give the name the new value, every other C-string
name keeping its own. -/
theorem StoreInv.writeEntry {pa : PropArea} {objs : List Obj} {t : PTrie} (hi : StoreInv pa objs t) {name : Bytes}
    (hn : 0 ∉ name) {e : Nat} (he : t.lookup name = some e) {value : Bytes} (hlen : value.length < propValueMax)
    (hflag : isLong (updatedSerial (pa.load (e + infoSerial)) value.length) = false) {pa₁ pa₂ pa₃ : PropArea}
    (h₁ : pa.store (e + infoSerial) (dirtySerial (pa.load (e + infoSerial))) = some pa₁)
    (h₂ : pa₁.strlcpy (e + infoValue) value (value.length + 1) = some pa₂)
    (h₃ : pa₂.store (e + infoSerial) (updatedSerial (pa.load (e + infoSerial)) value.length) = some pa₃) :
    StoreInv pa₃ objs t ∧ ∀ n, 0 ∉ n → pa₃.contents n = (pa.contents.modify name fun _ => some (.short value)) n := by
  obtain ⟨hused, hload, hval, hnul, hrest⟩ := entryWrites_data h₁ h₂ h₃
  rw [Nat.min_self] at hval hnul hrest
  obtain ⟨x, hx, hxk, rfl⟩ := hi.arena.entryObj_of_lookup hi.heads he
  have hsz := hi.arena.size_ge x hx
  rw [hxk] at hsz
  have hlen' : value.length < 256 := by simp only [propValueMax] at hlen; omega
  have hserial : pa₃.load (x.off + infoSerial) = updatedSerial (pa.load (x.off + infoSerial)) value.length := by
    rw [hload]; unfold updatedSerial; exact Nat.mod_mod _ _
  -- the writes stay in the entry's value buffer and serial, before its name
  have hout : ∀ i, i < x.off ∨ x.off + x.size ≤ i → pa₃.data i = pa.data i := fun i h =>
    hrest i (by simp only [Kind.minSize, sizeofPropInfo, propValueMax, infoValue] at hsz hlen ⊢; omega)
  have hlive : EntryLive pa₃ x.off ∧ isLong (pa₃.load (x.off + infoSerial)) = false :=
    ⟨⟨by rw [hserial]; exact serialDirty_updatedSerial _ _ hlen',
      fun _ => by rw [hserial, serialValueLen_updatedSerial _ _ hlen']; exact ⟨hlen, hnul⟩,
      fun h => by rw [hserial, hflag] at h; cases h⟩, by rw [hserial]; exact hflag⟩
  have hok : ObjOk pa₃ objs x := by
    have hold := hi.arena.ok x hx
    unfold ObjOk at hold ⊢; rw [hxk] at hold ⊢
    obtain ⟨⟨k, hk, hk0⟩, -⟩ := hold
    refine ⟨⟨k, hk, ?_⟩, fun h => by rw [hlive.2] at h; cases h⟩
    rw [hrest _ (.inr (by simp only [infoName, infoValue, sizeofPropInfo, propValueMax] at hlen ⊢; omega)), hk0]
  obtain ⟨hi', hc⟩ := hi.write hx (by rw [hxk]; decide) (by rw [hxk]; decide) hused hout hok fun _ _ _ => hlive
  refine ⟨hi', fun n hn' => ?_⟩
  unfold Store.modify
  split
  · rename_i hnn
    subst hnn
    rw [hi'.arena.contents_eq hi'.heads, he, Option.map_some']
    simp only [entryValue, hserial, hflag, Bool.false_eq_true, if_false, serialValueLen_updatedSerial _ _ hlen',
      read_copied hval, copiedBytes, Mem.map_range_getD]
  · rename_i hne
    exact hc n hn' fun h => hne (lookup_injective hi.root (hi.arena.entries_nodup .root hi.heads) hn' hn h he)

/-- The copy into the dirty backup buffer keeps the names stored: the buffer
is no entry. -/
theorem StoreInv.namesStored_fillBackup {pa pa' : PropArea} {objs : List Obj} {t : PTrie} (hi : StoreInv pa objs t)
    (hs : pa.NamesStored) {k : Nat} (hk : k ≤ align4 propValueMax) {src : Nat → UInt8}
    (h : pa.fill dirtyBackupArea k src = some pa') : pa'.NamesStored :=
  hi.namesStored_of_kept (hi.fillBackup hk h).1 hs fun x hx hxk i hi₁ _ => by
    have hne : x ≠ ⟨sizeofPropBt, align4 propValueMax, .other⟩ := fun h => by rw [h] at hxk; cases hxk
    have := hi.arena.disjoint hx hi.backup hne
    rw [(fill_eq_some h).2]
    refine Mem.fill_apply_of_not_mem _ ?_
    simp only [dirtyBackupArea, sizeofPropBt, align4, propValueMax, infoName] at this hk hi₁ ⊢; omega

/-- The three writes to an entry keep the names stored: they stay before its
name, and outside every other entry. -/
theorem StoreInv.namesStored_entryWrites {pa pa₁ pa₂ pa₃ : PropArea} {objs : List Obj} {t : PTrie}
    (hi : StoreInv pa objs t) (hi₃ : StoreInv pa₃ objs t) (hs : pa.NamesStored) {name : Bytes} {e : Nat}
    (he : t.lookup name = some e) {value : Bytes} {s₁ s₂ : Nat} (hlen : value.length < propValueMax)
    (h₁ : pa.store (e + infoSerial) s₁ = some pa₁) (h₂ : pa₁.strlcpy (e + infoValue) value (value.length + 1) = some pa₂)
    (h₃ : pa₂.store (e + infoSerial) s₂ = some pa₃) : pa₃.NamesStored :=
  hi.namesStored_of_kept hi₃ hs fun x hx _ i hi₁ _ => by
    obtain ⟨-, -, -, -, hrest⟩ := entryWrites_data h₁ h₂ h₃
    obtain ⟨z, hz, hzk, rfl⟩ := hi.arena.entryObj_of_lookup hi.heads he
    have hzs := hi.arena.size_ge z hz
    rw [hzk] at hzs
    refine hrest i ?_
    by_cases hxz : x = z
    · subst hxz; simp only [infoName, sizeofPropInfo, infoValue, propValueMax, Nat.min_self] at hi₁ hlen ⊢; omega
    · have := hi.arena.disjoint hx hz hxz
      simp only [Kind.minSize, sizeofPropInfo, infoName, infoValue, propValueMax, Nat.min_self] at hzs hi₁ hlen ⊢
      omega

end PropArea

namespace SystemProperties

open PropArea

section Update

variable {sp : SystemProperties}

/-- Writing an area without changing any value it holds keeps the store the
service holds. -/
theorem Refines.set_same {sp' : SystemProperties} {s : Store} (hr : Refines sp s) (hs : SameShape sp sp') {j : Nat}
    {pa pa' : PropArea} (hpa : sp.areas[j]? = some pa) (hareas : sp'.areas = sp.areas.set j pa')
    (hc : ∀ n, 0 ∉ n → pa'.contents n = pa.contents n) : Refines sp' s := fun n hn => by
  rw [contents_set hs hpa hareas n]
  split
  · rw [hc n hn, ← contents_of_route ‹_› hpa, hr n hn]
  · exact hr n hn

/-- What `Find` gives for a C-string name in a service with the invariant:
the area the name routes to, which keeps the store invariant, and the entry
the name looks up on its trie. -/
theorem ServiceInv.find_some (hi : ServiceInv sp) {name : Bytes} {pi : PropInfoRef}
    (hf : sp.find name = some (some pi)) :
    sp.getPropAreaForName name = some pi.area ∧
      ∃ pa objs t, sp.areas[pi.area]? = some pa ∧ StoreInv pa objs t ∧ t.lookup name = some pi.off := by
  simp only [SystemProperties.find, hi.initialized, Bool.not_true, Bool.false_eq_true, if_false] at hf
  split at hf
  · cases hf
  rename_i j hj
  split at hf
  · cases hf
  rename_i pa hpa
  obtain ⟨objs, t, hinv⟩ := hi.areas pa (List.getElem?_mem hpa)
  rw [hinv.arena.find_eq_lookup hinv.heads, Option.map_some', Option.some_inj] at hf
  obtain ⟨e, he, rfl⟩ := Option.map_eq_some'.1 hf
  exact ⟨hj, pa, objs, t, hpa, hinv, he⟩

/-- `Update` of an entry of a service with the invariant, with a value
shorter than `PROP_VALUE_MAX`, answers -1 and changes nothing when the name
the entry stores routes to no area. -/
theorem update_of_route_none (hi : ServiceInv sp) {pi : PropInfoRef} {home : PropArea}
    (hhome : sp.areas[pi.area]? = some home) {value : Bytes} (hlen : value.length < propValueMax)
    (hj : sp.getPropAreaForName (home.cstr (pi.off + infoName)) = none) :
    sp.update pi value value.length = some (sp, -1) := by
  obtain ⟨sa, hsa⟩ := Option.isSome_iff_exists.1 hi.serial
  simp only [SystemProperties.update, ge_iff_le, not_le.2 hlen, hi.initialized, hi.rw, hsa, hhome, hj, if_false,
    Bool.not_true, Bool.false_eq_true]

/-- **The writes of `Update`.** In a service with the invariant, an `Update`
of the entry `Find` gave for a C-string name, with a C string shorter than
`PROP_VALUE_MAX` and its length, a serial it stores that does not read as
long, and a stored name that routes to an area, answers 0, keeps the
invariant, and leaves the store with the name holding the new value. -/
theorem ServiceInv.update_writes (hi : ServiceInv sp) {s : Store} (hr : Refines sp s) {name : Bytes} (hn : 0 ∉ name)
    {pi : PropInfoRef} (hf : sp.find name = some (some pi)) {value : Bytes} (hlen : value.length < propValueMax)
    (hflag : (sp.areas[pi.area]?).all fun home =>
      !isLong (updatedSerial (home.load (pi.off + infoSerial)) value.length))
    (hroute : ((sp.areas[pi.area]?).bind fun home => sp.getPropAreaForName (home.cstr (pi.off + infoName))).isSome) :
    ∃ sp', sp.update pi value value.length = some (sp', 0) ∧ ServiceInv sp' ∧
      Refines sp' (s.modify name fun _ => some (.short value)) ∧ (EntriesNamed sp → EntriesNamed sp') := by
  obtain ⟨hj, pa, objs, t, hpa, hinv, he⟩ := hi.find_some hf
  obtain ⟨sa, hsa⟩ := Option.isSome_iff_exists.1 hi.serial
  rw [hpa, Option.all_some, Bool.not_eq_true'] at hflag
  rw [hpa, Option.some_bind] at hroute
  obtain ⟨j', hj'⟩ := Option.isSome_iff_exists.1 hroute
  have hlt : pi.area < sp.areas.length := (List.getElem?_eq_some_iff.1 hpa).1
  -- the entry's object lies in the area
  have hfit : pi.off + sizeofPropInfo ≤ paDataSize := by
    obtain ⟨x, hx, hxk, hxo⟩ := hinv.arena.entryObj_of_lookup hinv.heads he
    rw [← hxo]
    have hsz := hinv.arena.size_ge x hx
    rw [hxk] at hsz
    have := hinv.arena.below x hx
    have := hinv.arena.used_le
    simp only [Kind.minSize, sizeofPropInfo, infoName] at hsz ⊢; omega
  simp only [SystemProperties.update, ge_iff_le, not_le.2 hlen, hi.initialized, hi.rw, hsa, hpa, hj', if_false,
    Bool.not_true, Bool.false_eq_true]
  obtain ⟨pb, hpb⟩ := getElem?_of_route hj'
  obtain ⟨objsb, tb, hib⟩ := hi.areas pb (List.getElem?_mem hpb)
  -- the old value goes to the backup buffer of the area the stored name routes to
  have hk : serialValueLen (pa.load (pi.off + infoSerial)) + 1 ≤ align4 propValueMax := by
    have := (hinv.live name pi.off hn he).len_lt
    simp only [align4, propValueMax] at this ⊢; omega
  obtain ⟨pb', hfill⟩ : ∃ pb', pb.fill dirtyBackupArea (serialValueLen (pa.load (pi.off + infoSerial)) + 1)
      (fun i => pa.data (pi.off + infoValue + i)) = some pb' :=
    ⟨_, fill_of_le _ _ (by simp only [align4, propValueMax, dirtyBackupArea, sizeofPropBt, paDataSize, paSize,
      sizeofPropArea] at hk ⊢; omega)⟩
  obtain ⟨hib', hcb, -⟩ := hib.fillBackup hk hfill
  have hnb : EntriesNamed sp → pb'.NamesStored := fun hnm =>
    hib.namesStored_fillBackup (hnm pb (List.getElem?_mem hpb)) hk hfill
  have hs₁ := sameShape_set sp j' pb'
  have hi₁ := hi.set hs₁ rfl id ⟨objsb, tb, hib'⟩
  have hr₁ := hr.set_same hs₁ hpb rfl hcb
  -- the home area after the copy: the same entry, with the same serial
  obtain ⟨pa₀, hpa₀, hinv₀, hload₀, hn₀⟩ : ∃ pa₀, (sp.areas.set j' pb')[pi.area]? = some pa₀ ∧
      StoreInv pa₀ objs t ∧ pa₀.load (pi.off + infoSerial) = pa.load (pi.off + infoSerial) ∧
      (EntriesNamed sp → pa₀.NamesStored) := by
    by_cases hjj : j' = pi.area
    · subst hjj
      obtain rfl : pb = pa := Option.some.inj (hpb.symm.trans hpa)
      obtain ⟨hinv', -, hkeep⟩ := hinv.fillBackup hk hfill
      exact ⟨pb', List.getElem?_set_self hlt, hinv', hkeep name _ hn he, hnb⟩
    · exact ⟨pa, by rw [List.getElem?_set_ne hjj, hpa], hinv, rfl, fun hnm => hnm pa (List.getElem?_mem hpa)⟩
  obtain ⟨pa₁, pa₂, pa₃, h₁, h₂, h₃⟩ := entryWrites_some pa₀ hfit hlen
    (dirtySerial (pa.load (pi.off + infoSerial))) (updatedSerial (pa.load (pi.off + infoSerial)) value.length)
  obtain ⟨hinv₃, hc₃⟩ := hinv₀.writeEntry hn he hlen (by rwa [hload₀]) (by rwa [hload₀]) h₂ (by rwa [hload₀])
  have hn₃ : EntriesNamed sp → pa₃.NamesStored := fun hnm =>
    hinv₀.namesStored_entryWrites hinv₃ (hn₀ hnm) he hlen h₁ h₂ h₃
  have hlt₁ : pi.area < (sp.areas.set j' pb').length := by rw [List.length_set]; exact hlt
  have hs : SameShape { sp with areas := sp.areas.set j' pb' }
      (({ sp with areas := (sp.areas.set j' pb').set pi.area pa₃ } : SystemProperties).bumpSerial sa) :=
    (sameShape_set _ pi.area pa₃).trans (sameShape_bumpSerial _ sa)
  refine ⟨({ sp with areas := (sp.areas.set j' pb').set pi.area pa₃ } : SystemProperties).bumpSerial sa, ?_,
    hi₁.set hs rfl (fun _ => rfl) ⟨objs, t, hinv₃⟩, ?_, fun hnm => by
      have hnm₁ : EntriesNamed { sp with areas := sp.areas.set j' pb' } := hnm.set rfl (hnb hnm)
      exact hnm₁.set rfl (hn₃ hnm)⟩
  · simp only [modifyArea, Option.bind_eq_bind, hpb, hfill, Option.some_bind, hpa₀, h₁,
      List.getElem?_set_self hlt₁, h₂, h₃, List.set_set]
  · exact hr₁.modify hs (by rw [getPropAreaForName_of_sameShape hs₁]; exact hj) hpa₀ rfl hn hc₃

/-- **`Update` refines a write of the store.** In a service with the
invariant whose entries store their names, an `Update` of the entry `Find`
gave for a C-string name, with a C string shorter than `PROP_VALUE_MAX` and
its length, and a serial it stores that does not read as long, never faults
and answers 0: the name the entry stores is the name looked up, which routes
to the entry's own area. It keeps both invariants and leaves the store with
the name holding the new value. -/
theorem ServiceInv.update (hi : ServiceInv sp) (hnm : EntriesNamed sp) {s : Store} (hr : Refines sp s) {name : Bytes}
    (hn : 0 ∉ name) {pi : PropInfoRef} (hf : sp.find name = some (some pi)) {value : Bytes}
    (hlen : value.length < propValueMax)
    (hflag : (sp.areas[pi.area]?).all fun home =>
      !isLong (updatedSerial (home.load (pi.off + infoSerial)) value.length)) :
    ∃ sp', sp.update pi value value.length = some (sp', 0) ∧ ServiceInv sp' ∧ EntriesNamed sp' ∧
      Refines sp' (s.modify name fun _ => some (.short value)) := by
  obtain ⟨hj, pa, objs, t, hpa, hinv, he⟩ := hi.find_some hf
  have hname : pa.cstr (pi.off + infoName) = name :=
    hnm pa (List.getElem?_mem hpa) name pi.off hn (by rw [hinv.arena.find_eq_lookup hinv.heads, he])
  obtain ⟨sp', hu, hi', hr', hnm'⟩ :=
    hi.update_writes hr hn hf hlen hflag (by rw [hpa, Option.some_bind, hname, hj]; rfl)
  exact ⟨sp', hu, hi', hnm' hnm, hr'⟩

/-- The fresh service with `"persist.boot.count"` added, updated to `"2"`. -/
def bootCountUpdated : SystemProperties :=
  ((bootCountAdded.update ⟨0, 196⟩ [50] 1).map Prod.fst).getD bootCountAdded

/-- `Update` of `"persist.boot.count"` to `"2"`, after the `Add` that
created it, answers 0 and keeps both invariants. -/
theorem update_boot_count :
    ∃ sp', bootCountAdded.update ⟨0, 196⟩ [50] 1 = some (sp', 0) ∧ ServiceInv sp' ∧ EntriesNamed sp' ∧
      Refines sp' (bootCountAdded.contents.modify bootCount fun _ => some (.short [50])) :=
  ServiceInv.update serviceInv_bootCountAdded entriesNamed_bootCountAdded (s := bootCountAdded.contents)
    (fun _ _ => rfl) (by decide) (show bootCountAdded.find bootCount = some (some ⟨0, 196⟩) from rfl) (by decide) rfl

/-- **An update is read back.** In a service with the invariant, after an
`Update` as above that answers 0, `Get` answers the new value and its length
for the name, and what it answered before for every other C-string name. -/
theorem get_after_update {sp' : SystemProperties} (hi : ServiceInv sp) {name : Bytes} (hn : 0 ∉ name)
    {pi : PropInfoRef} (hf : sp.find name = some (some pi)) {value : Bytes} (hlen : value.length < propValueMax)
    (hflag : (sp.areas[pi.area]?).all fun home =>
      !isLong (updatedSerial (home.load (pi.off + infoSerial)) value.length))
    (hu : sp.update pi value value.length = some (sp', 0)) :
    sp'.get name = some (value.length, value ++ [0]) ∧ ∀ n, 0 ∉ n → n ≠ name → sp'.get n = sp.get n := by
  obtain ⟨-, pa, -, -, hpa, -, -⟩ := hi.find_some hf
  have hroute : ((sp.areas[pi.area]?).bind fun home => sp.getPropAreaForName (home.cstr (pi.off + infoName))).isSome := by
    rw [hpa, Option.some_bind]
    cases hj' : sp.getPropAreaForName (pa.cstr (pi.off + infoName)) with
    | none => rw [update_of_route_none hi hpa hlen hj'] at hu; simp at hu
    | some _ => rfl
  obtain ⟨sp'', hu', hi', hr', -⟩ := hi.update_writes (s := sp.contents) (fun _ _ => rfl) hn hf hlen hflag hroute
  rw [hu, Option.some.injEq, Prod.mk.injEq] at hu'
  obtain ⟨rfl, -⟩ := hu'
  refine ⟨by rw [hi'.get hr' hn]; simp only [Store.get, Store.modify, if_true], fun n hn' hne => ?_⟩
  rw [hi'.get hr' hn', hi.get (s := sp.contents) (fun _ _ => rfl) hn']
  simp only [Store.get, Store.modify, if_neg hne]

theorem get_boot_count_after_update :
    bootCountUpdated.get bootCount = some (1, [50, 0]) ∧
      ∀ n, 0 ∉ n → n ≠ bootCount → bootCountUpdated.get n = bootCountAdded.get n :=
  get_after_update serviceInv_bootCountAdded (by decide)
    (show bootCountAdded.find bootCount = some (some ⟨0, 196⟩) from rfl)
    (show ([50] : Bytes).length < propValueMax by decide) rfl
    (show bootCountAdded.update ⟨0, 196⟩ [50] 1 = some (bootCountUpdated, 0) from rfl)

/-! ## The atomic writer -/

/-- **The atomic writer does what `Update` does.** Take an `Update` of the
entry `pi` that answers 0, where the name the entry stores routes to the
area holding it, the entry lies past the backup buffer, and its old value is
shorter than `PROP_VALUE_MAX`. The accesses of that `Update` in
`SysProps.DirtyBit`, run alone from the entry's serial and value buffer and
the area's backup buffer, leave the writer idle and the serial, value buffer
and backup buffer that `Update` leaves there. -/
theorem update_agrees_with_updateAlone {sp' : SystemProperties} {pi : PropInfoRef} {value : Bytes} {len : Nat}
    {home : PropArea} (hu : sp.update pi value len = some (sp', 0)) (hhome : sp.areas[pi.area]? = some home)
    (hj : sp.getPropAreaForName (home.cstr (pi.off + infoName)) = some pi.area)
    (hoff : dirtyBackupArea + propValueMax ≤ pi.off)
    (hold : serialValueLen (home.load (pi.off + infoSerial)) < propValueMax)
    {st : DirtyBit.St} (hidle : st.writer = .idle) (hser : st.serial = home.load (pi.off + infoSerial))
    (hval : ∀ i < propValueMax, st.value i = home.data (pi.off + infoValue + i))
    (hbak : ∀ i < propValueMax, st.backup i = home.data (dirtyBackupArea + i)) :
    ∃ st' home', st.run (DirtyBit.updateAlone value len (serialValueLen st.serial)) = some st' ∧
      sp'.areas[pi.area]? = some home' ∧ st'.writer = .idle ∧ st'.serial = home'.load (pi.off + infoSerial) ∧
      (∀ i < propValueMax, st'.value i = home'.data (pi.off + infoValue + i)) ∧
      ∀ i < propValueMax, st'.backup i = home'.data (dirtyBackupArea + i) := by
  -- the four writes of `Update`, all to the area of the entry
  unfold SystemProperties.update at hu
  split at hu
  · simp at hu
  rename_i hlen
  simp only [hhome, hj, ge_iff_le] at hu
  split at hu
  · simp at hu
  split at hu
  · simp at hu
  split at hu
  · simp at hu
  obtain ⟨sp₁, h₁, hu⟩ := Option.bind_eq_some.1 hu
  obtain ⟨sp₂, h₂, hu⟩ := Option.bind_eq_some.1 hu
  obtain ⟨sp₃, h₃, hu⟩ := Option.bind_eq_some.1 hu
  obtain ⟨sp₄, h₄, hu⟩ := Option.bind_eq_some.1 hu
  obtain ⟨rfl, -⟩ := Prod.mk.inj (Option.some.inj hu)
  obtain ⟨pb, hfill, hpb⟩ := modifyArea_self h₁ hhome
  obtain ⟨pa₁, hs₁, hpa₁⟩ := modifyArea_self h₂ hpb
  obtain ⟨pa₂, hs₂, hpa₂⟩ := modifyArea_self h₃ hpa₁
  obtain ⟨pa₃, hs₃, hpa₃⟩ := modifyArea_self h₄ hpa₂
  obtain ⟨-, rfl⟩ := fill_eq_some hfill
  obtain ⟨-, hload, hnew, hnul, hrest⟩ := entryWrites_data hs₁ hs₂ hs₃
  simp only [dirtyBackupArea, sizeofPropBt, propValueMax, infoValue, infoSerial] at hoff hold hnew hnul hrest
  simp only [dirtyBackupArea, sizeofPropBt, propValueMax, infoValue, infoSerial] at hval hbak hser hload ⊢
  -- the writer's run, and the bytes both leave
  refine ⟨_, pa₃, DirtyBit.updateAlone_run hidle (Nat.lt_of_not_le hlen), hpa₃, hidle, ?_, fun i hi => ?_,
    fun i hi => ?_⟩
  · rw [hload, hser, updatedSerial, Nat.mod_mod]
  · dsimp only
    rcases Nat.lt_trichotomy i (min value.length len) with h | rfl | h
    · rw [Mem.fill_apply_of_not_mem _ (by omega), Mem.fill_apply_of_mem _ (by omega) (by omega), hnew i h,
        Nat.sub_zero]
    · rw [Mem.fill_apply_of_mem _ (by omega) (by omega), hnul]
    · rw [Mem.fill_apply_of_not_mem _ (by omega), Mem.fill_apply_of_not_mem _ (by omega), hval i hi,
        hrest _ (by omega), Mem.fill_apply_of_not_mem _ (by omega)]
  · dsimp only
    rw [hrest _ (by omega), hser]
    by_cases h : i < serialValueLen (home.load (pi.off + 0)) + 1
    · rw [Mem.fill_apply_of_mem _ (by omega) (by omega), Mem.fill_apply_of_mem _ (by omega) (by omega), Nat.sub_zero,
        Nat.add_sub_cancel_left, hval i hi]
    · rw [Mem.fill_apply_of_not_mem _ (by omega), Mem.fill_apply_of_not_mem _ (by omega), hbak i hi]

/-- The area of `"persist.boot.count"` in `bootCountAdded`. -/
def bootCountHome : PropArea := (bootCountAdded.areas[0]?).getD PropArea.fresh

/-- The view `SysProps.DirtyBit` has of that entry and of its area's backup
buffer. -/
def bootCountEntry : DirtyBit.St :=
  DirtyBit.init (bootCountHome.load (196 + infoSerial)) (fun i => bootCountHome.data (196 + infoValue + i))
    fun i => bootCountHome.data (dirtyBackupArea + i)

/-- Updating `"persist.boot.count"` to `"2"`: the writer's run from its view
of the entry leaves the serial, value buffer and backup buffer `Update`
leaves. -/
theorem boot_count_update_agrees :
    ∃ st' home', bootCountEntry.run (DirtyBit.updateAlone [50] 1 (serialValueLen bootCountEntry.serial)) = some st' ∧
      bootCountUpdated.areas[0]? = some home' ∧ st'.writer = .idle ∧ st'.serial = home'.load (196 + infoSerial) ∧
      (∀ i < propValueMax, st'.value i = home'.data (196 + infoValue + i)) ∧
      ∀ i < propValueMax, st'.backup i = home'.data (dirtyBackupArea + i) :=
  @update_agrees_with_updateAlone bootCountAdded bootCountUpdated ⟨0, 196⟩ [50] 1 bootCountHome rfl rfl rfl
    (by decide) (by decide) bootCountEntry rfl rfl (fun _ _ => rfl) fun _ _ => rfl

end Update

end SystemProperties

end SysProps
