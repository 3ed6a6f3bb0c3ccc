import SysProps.Serial

/-!
# The dirty-bit protocol, one atomic access at a time

One entry `e` of an area, the single writer of the property service, and
any number of readers. `SystemProperties::Update(e, value, len)` copies the
old value into the area's dirty backup buffer, stores `e`'s serial with bit 0
set, copies the new value into `e->value`, and stores the serial with the new
length and the next sequence number. `ReadMutablePropertyValue(e, buf)`
loads the serial, copies `SERIAL_VALUE_LEN(serial) + 1` bytes from the backup
buffer when it is dirty and from `e->value` otherwise, loads the serial again,
and starts over with the new serial unless the two loads agree.

Each step here is one atomic access of the C code: a load or store of `e`'s
serial word, or one byte of a `memcpy` or `strlcpy`. Between its updates of
`e` the writer may update other entries of the area; what that does to `e`'s
readers is that it rewrites the shared backup buffer, a byte at a time
(`Action.other`). The futex wakes and the bump of the `properties_serial`
area touch neither `e` nor the backup buffer and are left out; so are the
calls of `Update` that return -1 before writing anything.

The state carries three ghost fields that no step reads: the number of
updates of `e` completed so far, the value `e` held under each clean serial
(`valueAt`, set by the store that makes the serial clean), and for each
reader the counts it saw at its loads.

**What is proved.** `read_not_torn`: in every run from an entry with a clean
serial, when a reader returns `(buf, s)` and `e` completed fewer than
`2 ^ 23` updates between the reader's first and last load of the serial, the
bytes `buf[0..SERIAL_VALUE_LEN(s)]` are those of the value `e` held under the
clean serial `s` with bit 0 cleared. Each store advances the low 24 bits of
the serial by one, so a reader whose two loads agree saw no store between
them; with a clean serial nothing writes `e->value`, and with a dirty one
nothing writes the backup buffer.

`run_updateAlone`: the writer's accesses of one `Update`, with nothing
between them, make the writes of the sequential `Update` in
`SysProps.System`: the backup copy, the new value as `strlcpy` writes it, and
the serial of the next sequence number. `reader_returns_alone`: a reader
whose accesses follow one another with nothing between them returns, within
a bound on their number, with the serial that stands.
-/

namespace SysProps

namespace DirtyBit

/-! ## The state -/

/-- Where the writer stands, as far as `e` is concerned: idle (between calls,
or updating another entry), or about to make the next access of its `Update`
of `e`: byte `i` of the backup `memcpy`, the dirty store, byte `i` of the
`strlcpy`, or the last store. The serial it loaded at the start is `serial`. -/
inductive WriterPc where
  | idle
  | backup (value : Bytes) (len serial i : Nat)
  | dirty (value : Bytes) (len serial : Nat)
  | copy (value : Bytes) (len serial i : Nat)
  | clean (value : Bytes) (len serial : Nat)
deriving DecidableEq, Repr

/-- Where a reader stands in `ReadMutablePropertyValue`, under the serial
`serial` it loaded last: not in a call, at byte `i` of its `memcpy`, at its
second load, or returned. -/
inductive ReaderPc where
  | idle
  | copy (serial i : Nat)
  | check (serial : Nat)
  | done (serial : Nat)
deriving DecidableEq, Repr

/-- A reader: where it stands, its buffer, and three ghost counts: the stores
to `e`'s serial before the load its copy runs under, and the updates of `e`
completed at the call's first and last load. -/
structure Reader where
  pc : ReaderPc
  buf : Mem
  loadedAt : Nat
  startUpdates : Nat
  endUpdates : Nat

/-- The entry's serial and value buffer, the backup buffer of its area, the
writer and the readers; and, as ghosts, the updates of `e` completed and the
value `e` held under each clean serial the last time it had it. -/
structure St where
  serial : Nat
  value : Mem
  backup : Mem
  writer : WriterPc
  readers : Nat → Reader
  updates : Nat
  valueAt : Nat → Mem

/-- The stores to `e`'s serial the writer's current update of `e` has made. -/
def WriterPc.storesDone : WriterPc → Nat
  | .idle | .backup _ _ _ _ | .dirty _ _ _ => 0
  | .copy _ _ _ _ | .clean _ _ _ => 1

/-- Ghost: the stores to `e`'s serial so far, two per completed update. -/
def St.stores (st : St) : Nat := 2 * st.updates + st.writer.storesDone

/-- Reader `r` moves to `rd`. -/
def St.setReader (st : St) (r : Nat) (rd : Reader) : St := { st with readers := Function.update st.readers r rd }

/-- An entry with serial `serial` and value `value`; no call in progress. -/
def init (serial : Nat) (value backup : Mem) : St where
  serial := serial
  value := value
  backup := backup
  writer := .idle
  readers := fun _ => ⟨.idle, fun _ => 0, 0, 0, 0⟩
  updates := 0
  valueAt := fun _ => value

/-! ## Steps -/

/-- What can happen next: the writer calls `Update(e, value, len)` and loads
the serial; the writer's next access; byte `i` of the backup buffer becomes
`b` in an `Update` of another entry; reader `r` calls
`ReadMutablePropertyValue(e, buf)` and loads the serial; reader `r`'s next
access. -/
inductive Action where
  | update (value : Bytes) (len : Nat)
  | writer
  | other (i : Nat) (b : UInt8)
  | call (r : Nat)
  | reader (r : Nat)
deriving DecidableEq, Repr

/-- The writer's next access in its `Update` of `e`. -/
def writerStep (st : St) : Option St :=
  match st.writer with
  | .idle => none
  | .backup v len s i =>
    if i ≤ serialValueLen s then
      some { st with backup := st.backup.fill i 1 (fun _ => st.value i), writer := .backup v len s (i + 1) }
    else some { st with writer := .dirty v len s }
  | .dirty v len s => some { st with serial := dirtySerial s, writer := .copy v len s 0 }
  | .copy v len s i =>
    if i < min v.length len then
      some { st with value := st.value.fill i 1 (fun _ => v.getD i 0), writer := .copy v len s (i + 1) }
    else some { st with value := st.value.fill i 1 (fun _ => 0), writer := .clean v len s }
  | .clean _ len s =>
    some { st with
      serial := updatedSerial s len
      writer := .idle
      updates := st.updates + 1
      valueAt := Function.update st.valueAt (updatedSerial s len) st.value }

/-- Reader `r`'s next access: a byte of its copy, from the backup buffer when
its serial is dirty, or the second load of the serial, which returns when it
agrees with the first and otherwise starts a new turn under the new serial. -/
def readerStep (st : St) (r : Nat) : Option St :=
  let rd := st.readers r
  match rd.pc with
  | .idle | .done _ => none
  | .copy s i =>
    if i ≤ serialValueLen s then
      let src := if serialDirty s ≠ 0 then st.backup else st.value
      some (st.setReader r { rd with buf := rd.buf.fill i 1 (fun _ => src i), pc := .copy s (i + 1) })
    else some (st.setReader r { rd with pc := .check s })
  | .check s =>
    if st.serial = s then some (st.setReader r { rd with pc := .done s, endUpdates := st.updates })
    else some (st.setReader r { rd with pc := .copy st.serial 0, loadedAt := st.stores })

/-- One step of the interleaving, when it is enabled. -/
def St.step (st : St) : Action → Option St
  | .update v len =>
    if st.writer = .idle ∧ len < propValueMax then some { st with writer := .backup v len st.serial 0 } else none
  | .writer => writerStep st
  | .other i b => if st.writer = .idle then some { st with backup := st.backup.fill i 1 fun _ => b } else none
  | .call r =>
    let rd := st.readers r
    match rd.pc with
    | .idle | .done _ =>
      some (st.setReader r { rd with pc := .copy st.serial 0, loadedAt := st.stores, startUpdates := st.updates })
    | _ => none
  | .reader r => readerStep st r

/-- The states of every interleaving from an entry with a clean serial. -/
inductive Reachable : St → Prop
  | init (serial : Nat) (value backup : Mem) : serial % 2 = 0 → Reachable (init serial value backup)
  | step {st st' : St} (a : Action) : Reachable st → st.step a = some st' → Reachable st'

/-- The state after the actions `as`, each enabled in turn. -/
def St.run (st : St) : List Action → Option St
  | [] => some st
  | a :: as => (st.step a).bind fun st' => st'.run as

theorem Reachable.run : ∀ {st st' : St} {as : List Action}, Reachable st → st.run as = some st' → Reachable st'
  | _, _, [], h, hr => Option.some.inj hr ▸ h
  | _, _, a :: _, h, hr => by
    obtain ⟨_, h₁, hr⟩ := Option.bind_eq_some.mp hr
    exact (Reachable.step a h h₁).run hr

/-! ## The invariant -/

/-- What holds of the entry in each phase of the writer: while the serial is
clean, `e->value` is the value of that serial; from the dirty store on, the
backup buffer holds it. -/
def WriterOk (st : St) : Prop :=
  match st.writer with
  | .idle => st.serial % 2 = 0 ∧ st.value = st.valueAt st.serial
  | .backup _ len s i => len < propValueMax ∧ st.serial = s ∧ s % 2 = 0 ∧ st.value = st.valueAt s ∧
      i ≤ serialValueLen s + 1 ∧ ∀ j < i, st.backup j = st.value j
  | .dirty _ len s => len < propValueMax ∧ st.serial = s ∧ s % 2 = 0 ∧ st.value = st.valueAt s ∧
      ∀ j ≤ serialValueLen s, st.backup j = st.value j
  | .copy _ len s _ | .clean _ len s => len < propValueMax ∧ st.serial = dirtySerial s ∧ s % 2 = 0 ∧
      ∀ j ≤ serialValueLen s, st.backup j = st.valueAt s j

/-- What a reader knows of the serial `s` it loaded, given the serial and the
number of stores to it now: no store has been undone, and the low 24 bits of
the serial have moved by the stores made since. -/
structure Loaded (serial stores : Nat) (rd : Reader) (s : Nat) : Prop where
  le_stores : rd.loadedAt ≤ stores
  start_le : 2 * rd.startUpdates ≤ rd.loadedAt
  low24 : (serial + rd.loadedAt) % 2 ^ 24 = (s + stores) % 2 ^ 24
  same : stores = rd.loadedAt → serial = s

/-- What holds of a reader: while no store to the serial has been made since
its last load, the bytes it has copied are those of the value of that
serial, with bit 0 cleared. -/
def ReaderOk (serial stores updates : Nat) (valueAt : Nat → Mem) (rd : Reader) : Prop :=
  rd.startUpdates ≤ updates ∧
    match rd.pc with
    | .idle | .done _ => True
    | .copy s i => Loaded serial stores rd s ∧ i ≤ serialValueLen s + 1 ∧
        (stores = rd.loadedAt → ∀ j < i, rd.buf j = valueAt (s - s % 2) j)
    | .check s => Loaded serial stores rd s ∧
        (stores = rd.loadedAt → ∀ j ≤ serialValueLen s, rd.buf j = valueAt (s - s % 2) j)

/-- The invariant of every reachable state. -/
structure Inv (st : St) : Prop where
  writer : WriterOk st
  readers : ∀ r, ReaderOk st.serial st.stores st.updates st.valueAt (st.readers r)

section Lemmas

variable {st st' : St}

@[simp] theorem setReader_serial (r : Nat) (rd : Reader) : (st.setReader r rd).serial = st.serial := rfl
@[simp] theorem setReader_stores (r : Nat) (rd : Reader) : (st.setReader r rd).stores = st.stores := rfl
@[simp] theorem setReader_updates (r : Nat) (rd : Reader) : (st.setReader r rd).updates = st.updates := rfl
@[simp] theorem setReader_valueAt (r : Nat) (rd : Reader) : (st.setReader r rd).valueAt = st.valueAt := rfl
@[simp] theorem setReader_writer (r : Nat) (rd : Reader) : (st.setReader r rd).writer = st.writer := rfl

@[simp] theorem setReader_readers_self (r : Nat) (rd : Reader) : (st.setReader r rd).readers r = rd :=
  Function.update_same _ _ _

theorem setReader_readers (r r' : Nat) (rd : Reader) :
    (st.setReader r rd).readers r' = if r' = r then rd else st.readers r' := by
  simp only [St.setReader, Function.update_apply]

theorem writerOk_of_idle (h : st.writer = .idle) :
    WriterOk st ↔ st.serial % 2 = 0 ∧ st.value = st.valueAt st.serial := by
  unfold WriterOk; rw [h]

/-- The byte a reader copies under the current serial is the byte of the
value of that serial, with bit 0 cleared. -/
theorem WriterOk.source (h : WriterOk st) {j : Nat} (hj : j ≤ serialValueLen st.serial) :
    (if serialDirty st.serial ≠ 0 then st.backup else st.value) j = st.valueAt (st.serial - st.serial % 2) j := by
  unfold WriterOk at h
  split at h
  · obtain ⟨hpar, hv⟩ := h
    rw [serialDirty_eq, if_neg (by omega), hpar, Nat.sub_zero, hv]
  · obtain ⟨-, hs, hpar, hv, -⟩ := h
    rw [serialDirty_eq, if_neg (by omega), hs, hpar, Nat.sub_zero, hv]
  · obtain ⟨-, hs, hpar, hv, -⟩ := h
    rw [serialDirty_eq, if_neg (by omega), hs, hpar, Nat.sub_zero, hv]
  all_goals
    obtain ⟨-, hs, hpar, hb⟩ := h
    rw [hs, serialValueLen_dirtySerial hpar] at hj
    rw [serialDirty_eq, hs, if_pos (by rw [dirtySerial_of_even hpar]; omega), dirtySerial_sub_mod hpar]
    exact hb j hj

/-- A store to the serial, which moves its low 24 bits by one, keeps every
reader's facts: it makes the reader's copy void. -/
theorem ReaderOk.of_store {serial serial' stores updates updates' : Nat} {valueAt valueAt' : Nat → Mem}
    {rd : Reader} (h : ReaderOk serial stores updates valueAt rd)
    (hs : serial' % 2 ^ 24 = (serial + 1) % 2 ^ 24) (hu : updates ≤ updates') :
    ReaderOk serial' (stores + 1) updates' valueAt' rd := by
  obtain ⟨hstart, h⟩ := h
  refine ⟨hstart.trans hu, ?_⟩
  have hload : ∀ {s}, Loaded serial stores rd s → Loaded serial' (stores + 1) rd s := fun hl =>
    ⟨by have := hl.le_stores; omega, hl.start_le, by have := hl.low24; omega,
      fun he => absurd he (by have := hl.le_stores; omega)⟩
  split at h
  · trivial
  · trivial
  · exact ⟨hload h.1, h.2.1, fun he => absurd he (by have := h.1.le_stores; omega)⟩
  · exact ⟨hload h.1, fun he => absurd he (by have := h.1.le_stores; omega)⟩

theorem storesDone_le (w : WriterPc) : w.storesDone ≤ 1 := by
  cases w <;> simp only [WriterPc.storesDone] <;> omega

/-- A step that makes no store to the serial and leaves the clean values and
the readers keeps every reader's facts. -/
theorem Inv.readers_of_quiet (h : Inv st) (hser : st'.serial = st.serial) (hsto : st'.stores = st.stores)
    (hupd : st'.updates = st.updates) (hval : st'.valueAt = st.valueAt) (hrd : st'.readers = st.readers) (r : Nat) :
    ReaderOk st'.serial st'.stores st'.updates st'.valueAt (st'.readers r) := by
  rw [hser, hsto, hupd, hval, hrd]; exact h.readers r

/-- A store to the serial keeps every reader's facts. -/
theorem Inv.readers_of_store (h : Inv st) (hser : st'.serial % 2 ^ 24 = (st.serial + 1) % 2 ^ 24)
    (hsto : st'.stores = st.stores + 1) (hupd : st.updates ≤ st'.updates) (hrd : st'.readers = st.readers)
    (r : Nat) : ReaderOk st'.serial st'.stores st'.updates st'.valueAt (st'.readers r) := by
  rw [hsto, hrd]; exact (h.readers r).of_store hser hupd

/-- A reader that has just loaded the serial. -/
theorem readerOk_loaded (st : St) (rd : Reader) (hstart : rd.startUpdates ≤ st.updates) :
    ReaderOk st.serial st.stores st.updates st.valueAt
      { rd with pc := .copy st.serial 0, loadedAt := st.stores } :=
  ⟨hstart, ⟨le_rfl, by simp only [St.stores]; omega, rfl, fun _ => rfl⟩, Nat.zero_le _,
    fun _ j hj => absurd hj (Nat.not_lt_zero j)⟩

/-- Only reader `r` moves: the others keep their facts. -/
theorem Inv.setReader (h : Inv st) {r : Nat} {rd : Reader}
    (hrd : ReaderOk st.serial st.stores st.updates st.valueAt rd) : Inv (st.setReader r rd) := by
  refine ⟨h.writer, fun r' => ?_⟩
  rw [setReader_readers]
  split
  · exact hrd
  · exact h.readers r'

end Lemmas

/-! ## Every step keeps the invariant -/

section Steps

variable {st st' : St}

/-- **The writer's steps** keep the invariant. -/
theorem Inv.writerStep (h : Inv st) (hs : writerStep st = some st') : Inv st' := by
  have hw := h.writer
  unfold WriterOk at hw
  unfold DirtyBit.writerStep at hs
  split at hs
  · cases hs
  · rename_i v len s i hpc
    simp only [hpc] at hw
    obtain ⟨hlen, hser, hpar, hv, hi, hb⟩ := hw
    have hsto : 2 * st.updates + 0 = st.stores := by simp only [St.stores, hpc, WriterPc.storesDone]
    split at hs
    · cases hs
      refine ⟨⟨hlen, hser, hpar, hv, by omega, fun j hj => ?_⟩, h.readers_of_quiet rfl hsto rfl rfl rfl⟩
      dsimp only
      by_cases hji : j < i
      · rw [Mem.fill_apply_of_lt _ hji, hb j hji]
      · obtain rfl : j = i := by omega
        rw [Mem.fill_apply_of_mem _ le_rfl (Nat.lt_succ_self _)]
    · cases hs
      exact ⟨⟨hlen, hser, hpar, hv, fun j hj => hb j (by omega)⟩, h.readers_of_quiet rfl hsto rfl rfl rfl⟩
  · rename_i v len s hpc
    simp only [hpc] at hw
    obtain ⟨hlen, hser, hpar, hv, hb⟩ := hw
    cases hs
    refine ⟨⟨hlen, rfl, hpar, fun j hj => (hb j hj).trans (by rw [hv])⟩,
      h.readers_of_store (by rw [hser, dirtySerial_of_even hpar]) (by simp only [St.stores, hpc, WriterPc.storesDone])
        le_rfl rfl⟩
  · rename_i v len s i hpc
    simp only [hpc] at hw
    obtain ⟨hlen, hser, hpar, hb⟩ := hw
    split at hs <;> cases hs <;>
      exact ⟨⟨hlen, hser, hpar, hb⟩, h.readers_of_quiet rfl (by simp only [St.stores, hpc, WriterPc.storesDone])
        rfl rfl rfl⟩
  · rename_i v len s hpc
    simp only [hpc] at hw
    obtain ⟨hlen, hser, hpar, hb⟩ := hw
    have hlen' : len < 256 := by simp only [propValueMax] at hlen; omega
    cases hs
    refine ⟨⟨by rw [← serialDirty_eq, serialDirty_updatedSerial _ _ hlen'], by
      simp only [Function.update_same]⟩, h.readers_of_store ?_ ?_ (Nat.le_succ _) rfl⟩
    · rw [hser, updatedSerial_low24 hlen' hpar]
    · simp only [St.stores, hpc, WriterPc.storesDone]; omega

/-- **The readers' steps** keep the invariant: a byte copied while no store
has been made since the load is the byte of the value of the loaded serial. -/
theorem Inv.readerStep (h : Inv st) {r : Nat} (hs : readerStep st r = some st') : Inv st' := by
  have hr := h.readers r
  dsimp only [DirtyBit.readerStep] at hs
  obtain ⟨hstart, hr⟩ := hr
  split at hs
  · cases hs
  · cases hs
  · rename_i s i hpc
    rw [hpc] at hr
    obtain ⟨hl, hi, hbuf⟩ := hr
    split at hs <;> cases hs <;> refine h.setReader ⟨hstart, ?_⟩
    · refine ⟨⟨hl.1, hl.2, hl.3, hl.4⟩, by omega, fun he j hj => ?_⟩
      dsimp only
      by_cases hji : j < i
      · rw [Mem.fill_apply_of_lt _ hji, hbuf he j hji]
      · obtain rfl : j = i := by omega
        rw [Mem.fill_apply_of_mem _ le_rfl (Nat.lt_succ_self _)]
        have hser := hl.same he
        subst hser
        exact h.writer.source (by omega)
    · exact ⟨⟨hl.1, hl.2, hl.3, hl.4⟩, fun he j hj => hbuf he j (by omega)⟩
  · rename_i s hpc
    split at hs <;> cases hs <;> refine h.setReader ⟨hstart, ?_⟩
    · trivial
    · exact (readerOk_loaded st _ hstart).2

/-- **Every step keeps the invariant.** -/
theorem Inv.step (h : Inv st) {a : Action} (hs : st.step a = some st') : Inv st' := by
  cases a with
  | update v len =>
    simp only [St.step] at hs
    split at hs
    · rename_i hc
      obtain ⟨hidle, hlen⟩ := hc
      cases hs
      have hw := (writerOk_of_idle hidle).1 h.writer
      refine ⟨⟨hlen, rfl, hw.1, hw.2, Nat.zero_le _, fun j hj => absurd hj (Nat.not_lt_zero j)⟩,
        h.readers_of_quiet rfl (by simp only [St.stores, hidle, WriterPc.storesDone]) rfl rfl rfl⟩
    · cases hs
  | writer => exact h.writerStep hs
  | other i b =>
    simp only [St.step] at hs
    split at hs
    · rename_i hidle
      cases hs
      exact ⟨(writerOk_of_idle (by exact hidle)).2 ((writerOk_of_idle hidle).1 h.writer),
        h.readers_of_quiet rfl rfl rfl rfl rfl⟩
    · cases hs
  | call r =>
    simp only [St.step] at hs
    split at hs <;> cases hs <;> exact h.setReader (readerOk_loaded st { st.readers r with startUpdates := st.updates } le_rfl)
  | reader r => exact h.readerStep hs

/-- The invariant holds of every reachable state. -/
theorem Reachable.inv (h : Reachable st) : Inv st := by
  induction h with
  | init serial value backup hpar =>
    exact ⟨⟨hpar, rfl⟩, fun _ => ⟨Nat.zero_le _, trivial⟩⟩
  | step a _ hs ih => exact ih.step hs

end Steps

/-! ## Reads are not torn -/

/-- **A read is never torn.** In every interleaving of the writer's updates
and any number of readers from an entry with a clean serial: when reader `r`
returns `(buf, s)`, and `e` completed fewer than `2 ^ 23` updates between the
reader's first and last load of the serial, then `buf[0..SERIAL_VALUE_LEN(s)]`
are, byte for byte, the bytes of the value `e` held under the clean serial
`s` with bit 0 cleared. -/
theorem read_not_torn {st st' : St} (h : Reachable st) {r s : Nat} (hstep : st.step (.reader r) = some st')
    (hret : (st'.readers r).pc = .done s)
    (hfew : (st'.readers r).endUpdates - (st'.readers r).startUpdates < 2 ^ 23) :
    ∀ j ≤ serialValueLen s, (st'.readers r).buf j = st'.valueAt (s - s % 2) j := by
  have hinv := h.inv
  obtain ⟨hstart, hr⟩ := hinv.readers r
  simp only [St.step, DirtyBit.readerStep] at hstep
  split at hstep
  · cases hstep
  · cases hstep
  · rename_i s' i hpc
    split at hstep <;> cases hstep <;> simp only [setReader_readers_self] at hret <;> cases hret
  · rename_i s' hpc
    rw [hpc] at hr
    obtain ⟨hl, hbuf⟩ := hr
    split at hstep
    · rename_i hser
      cases hstep
      simp only [setReader_readers_self, ReaderPc.done.injEq] at hret hfew ⊢
      subst hret
      have := hl.low24; have := hl.le_stores; have := hl.start_le; have := storesDone_le st.writer
      simp only [St.stores] at *
      exact hbuf (by rw [hser] at *; omega)
    · cases hstep
      simp only [setReader_readers_self] at hret
      cases hret

/-- The entry holding `"A"` under a clean serial with length 1. -/
def readStart : St := init (1 <<< 24) (fun i => if i = 0 then 65 else 0) fun _ => 0

/-- An update of `"A"` to `"B"` watched by one reader. The reader loads the
serial just after the dirty store; the writer then writes the first byte of
`"B"`; the reader copies both bytes of its turn and is about to load the
serial again. -/
def readDuringUpdate : St :=
  (readStart.run
    [.update [66] 1, .writer, .writer, .writer, .writer, .call 0, .writer, .reader 0, .reader 0, .reader 0]).getD
    readStart

/-- The reader of `readDuringUpdate` after its second load of the serial. -/
def readReturned : St := (readDuringUpdate.step (.reader 0)).getD readDuringUpdate

/-- The reader returns the old value `"A"` from the backup buffer, though
`e->value` already starts with `"B"`. -/
theorem read_during_update_returns_old_value :
    (readReturned.readers 0).buf 0 = readReturned.valueAt (1 <<< 24) 0 ∧
      (readReturned.readers 0).buf 1 = readReturned.valueAt (1 <<< 24) 1 ∧
      readReturned.value 0 ≠ readReturned.valueAt (1 <<< 24) 0 := by
  have h₀ : Reachable readStart := .init _ _ _ (by decide)
  have hreach : Reachable readDuringUpdate := h₀.run (show readStart.run
    [.update [66] 1, .writer, .writer, .writer, .writer, .call 0, .writer, .reader 0, .reader 0, .reader 0] =
      some readDuringUpdate from rfl)
  have h := read_not_torn hreach (r := 0) (s := 1 <<< 24 + 1) rfl (by decide) (by decide)
  exact ⟨h 0 (by decide), h 1 (by decide), by decide⟩

/-! ## Runs with nothing in between -/

section Alone

variable {st : St} {v : Bytes} {len s : Nat}

theorem St.run_nil (st : St) : st.run [] = some st := rfl

theorem St.run_cons (st : St) (a : Action) (as : List Action) :
    st.run (a :: as) = (st.step a).bind (·.run as) := rfl

theorem St.run_append (st : St) (as bs : List Action) : st.run (as ++ bs) = (st.run as).bind (·.run bs) := by
  induction as generalizing st with
  | nil => rfl
  | cons a as ih =>
    simp only [List.cons_append, St.run_cons, Option.bind_assoc]
    congr 1; funext st'; exact ih st'

/-- The backup copy, a byte a step. -/
theorem run_backup : ∀ (k : Nat) {st : St} {i : Nat}, st.writer = .backup v len s i → i + k ≤ serialValueLen s + 1 →
    st.run (List.replicate k .writer) =
      some { st with backup := st.backup.fill i k (fun j => st.value (i + j)), writer := .backup v len s (i + k) }
  | 0, st, i, hpc, _ => by simp only [List.replicate, St.run, Mem.fill_zero, Nat.add_zero, ← hpc]
  | k + 1, st, i, hpc, hk => by
    have hstep : st.step .writer =
        some { st with backup := st.backup.fill i 1 (fun _ => st.value i), writer := .backup v len s (i + 1) } := by
      simp only [St.step, DirtyBit.writerStep, hpc, if_pos (show i ≤ serialValueLen s by omega)]
    have hfill : (st.backup.fill i 1 fun _ => st.value i).fill (i + 1) k (fun j => st.value (i + 1 + j)) =
        st.backup.fill i (k + 1) (fun j => st.value (i + j)) := Mem.fill_succ_left _ _ _ _
    simp only [List.replicate, St.run, hstep, Option.some_bind]
    rw [run_backup k rfl (by omega)]
    simp only [hfill, show i + 1 + k = i + (k + 1) by omega]

/-- The copy of `strlcpy`, a byte a step. -/
theorem run_copy : ∀ (k : Nat) {st : St} {i : Nat}, st.writer = .copy v len s i → i + k ≤ min v.length len →
    st.run (List.replicate k .writer) =
      some { st with value := st.value.fill i k (fun j => v.getD (i + j) 0), writer := .copy v len s (i + k) }
  | 0, st, i, hpc, _ => by simp only [List.replicate, St.run, Mem.fill_zero, Nat.add_zero, ← hpc]
  | k + 1, st, i, hpc, hk => by
    have hstep : st.step .writer =
        some { st with value := st.value.fill i 1 (fun _ => v.getD i 0), writer := .copy v len s (i + 1) } := by
      simp only [St.step, DirtyBit.writerStep, hpc, if_pos (show i < min v.length len by omega)]
    have hfill : (st.value.fill i 1 fun _ => v.getD i 0).fill (i + 1) k (fun j => v.getD (i + 1 + j) 0) =
        st.value.fill i (k + 1) (fun j => v.getD (i + j) 0) := Mem.fill_succ_left _ _ _ fun j => v.getD j 0
    simp only [List.replicate, St.run, hstep, Option.some_bind]
    rw [run_copy k rfl (by omega)]
    simp only [hfill, show i + 1 + k = i + (k + 1) by omega]

/-- The writer's accesses of one `Update(e, v, len)` of an entry whose serial
has length `oldLen`, in order: the call; the `oldLen + 1` bytes of the backup
copy and its end; the dirty store; the bytes of `strlcpy` and its NUL; the
last store. -/
def updateAlone (v : Bytes) (len oldLen : Nat) : List Action :=
  .update v len :: (List.replicate (oldLen + 1) .writer ++ [.writer, .writer] ++
    List.replicate (min v.length len) .writer ++ [.writer, .writer])

/-- The run of one `Update(e, v, len)` from an idle writer, computed. -/
theorem updateAlone_run (hidle : st.writer = .idle) (hlen : len < propValueMax) :
    st.run (updateAlone v len (serialValueLen st.serial)) = some
      { st with
        serial := updatedSerial st.serial len
        value := (st.value.fill 0 (min v.length len) fun j => v.getD j 0).fill (min v.length len) 1 fun _ => 0
        backup := st.backup.fill 0 (serialValueLen st.serial + 1) st.value
        updates := st.updates + 1
        valueAt := Function.update st.valueAt (updatedSerial st.serial len)
          ((st.value.fill 0 (min v.length len) fun j => v.getD j 0).fill (min v.length len) 1 fun _ => 0) } := by
  have hcall : st.step (.update v len) = some { st with writer := .backup v len st.serial 0 } := by
    simp only [St.step, if_pos (And.intro hidle hlen)]
  rw [updateAlone, St.run_cons, hcall, Option.some_bind, St.run_append, St.run_append, St.run_append,
    run_backup _ rfl (by omega), Option.some_bind]
  simp only [St.run_cons, St.run_nil, St.step, DirtyBit.writerStep, Nat.zero_add, Nat.not_succ_le_self, if_false,
    Option.some_bind]
  rw [run_copy _ rfl (by omega), Option.some_bind]
  simp only [St.run_cons, St.run_nil, St.step, DirtyBit.writerStep, Nat.zero_add, Nat.lt_irrefl, if_false,
    Option.some_bind, hidle]

/-- **The writer alone performs `Update`.** From an idle writer, the
accesses of one `Update(e, v, len)` with `len < PROP_VALUE_MAX` and nothing
between them leave the old value's `SERIAL_VALUE_LEN(serial) + 1` bytes in
the backup buffer, the new value as `strlcpy(e->value, v, len + 1)` writes it,
and the serial `(len << 24) | ((serial | 1) + 1 & 0xffffff)`, as the writes
of `SystemProperties::Update` do in turn. -/
theorem run_updateAlone (hidle : st.writer = .idle) (hlen : len < propValueMax) :
    st.run (updateAlone v len (serialValueLen st.serial)) = some
      { st with
        serial := updatedSerial st.serial len
        value := (st.value.fill 0 (min v.length len) fun j => v.getD j 0).fill (min v.length len) 1 fun _ => 0
        backup := st.backup.fill 0 (serialValueLen st.serial + 1) st.value
        updates := st.updates + 1
        valueAt := Function.update st.valueAt (updatedSerial st.serial len)
          ((st.value.fill 0 (min v.length len) fun j => v.getD j 0).fill (min v.length len) 1 fun _ => 0) } :=
  updateAlone_run hidle hlen

/-- Updating `"A"` to `"B"` alone: `e->value` starts with `B`, the backup
buffer with `A`, and the writer is idle again. -/
theorem update_B_alone : ∃ st', readStart.run (updateAlone [66] 1 (serialValueLen readStart.serial)) = some st' ∧
    st'.value 0 = 66 ∧ st'.value 1 = 0 ∧ st'.backup 0 = 65 ∧ st'.writer = .idle :=
  ⟨_, run_updateAlone rfl (by decide), by decide, by decide, by decide, rfl⟩

/-- A reader's copy, a byte a step; nothing else moves. -/
theorem run_reader_copy (r : Nat) : ∀ (k : Nat) {st : St} {i : Nat}, (st.readers r).pc = .copy s i →
    i + k ≤ serialValueLen s + 1 → ∃ st', st.run (List.replicate k (.reader r)) = some st' ∧
      (st'.readers r).pc = .copy s (i + k) ∧ st'.serial = st.serial
  | 0, st, _, hpc, _ => ⟨st, rfl, hpc, rfl⟩
  | k + 1, st, i, hpc, hk => by
    obtain ⟨st₁, h₁, hpc₁, hs₁⟩ : ∃ st₁, st.step (.reader r) = some st₁ ∧
        (st₁.readers r).pc = .copy s (i + 1) ∧ st₁.serial = st.serial := by
      simp only [St.step, DirtyBit.readerStep, hpc, if_pos (show i ≤ serialValueLen s by omega)]
      exact ⟨_, rfl, by simp only [setReader_readers_self], rfl⟩
    obtain ⟨st', h', hpc', hs'⟩ := run_reader_copy r k hpc₁ (by omega)
    exact ⟨st', by rw [List.replicate_succ, St.run_cons, h₁, Option.some_bind, h'],
      by rw [hpc', show i + 1 + k = i + (k + 1) by omega], hs'.trans hs₁⟩

/-- The reader's last copy step and its second load of the serial. -/
theorem run_reader_check (r : Nat) {st : St} (hpc : (st.readers r).pc = .copy s (serialValueLen s + 1)) :
    ∃ st', st.run [.reader r, .reader r] = some st' ∧ st'.serial = st.serial ∧
      (st'.readers r).pc = if st.serial = s then .done s else .copy st.serial 0 := by
  obtain ⟨st₁, h₁, hpc₁, hs₁⟩ : ∃ st₁, st.step (.reader r) = some st₁ ∧
      (st₁.readers r).pc = .check s ∧ st₁.serial = st.serial := by
    simp only [St.step, DirtyBit.readerStep, hpc, Nat.not_succ_le_self, if_false]
    exact ⟨_, rfl, by simp only [setReader_readers_self], rfl⟩
  obtain ⟨st₂, h₂, hs₂, hpc₂⟩ : ∃ st₂, st₁.step (.reader r) = some st₂ ∧ st₂.serial = st₁.serial ∧
      (st₂.readers r).pc = if st₁.serial = s then .done s else .copy st₁.serial 0 := by
    simp only [St.step, DirtyBit.readerStep, hpc₁]
    split
    · exact ⟨_, rfl, rfl, by simp only [setReader_readers_self, if_pos ‹_›]⟩
    · exact ⟨_, rfl, rfl, by simp only [setReader_readers_self, if_neg ‹_›]⟩
  refine ⟨st₂, by rw [St.run_cons, h₁, Option.some_bind, St.run_cons, h₂, Option.some_bind, St.run_nil],
    hs₂.trans hs₁, ?_⟩
  rw [← hs₁]; exact hpc₂

/-- **A reader running alone returns.** A call of
`ReadMutablePropertyValue` copying under the serial `s`, with no access of
anyone else between its own, returns within
`SERIAL_VALUE_LEN(s) + SERIAL_VALUE_LEN(serial) + 6` of its accesses, with the
serial that stands: the loop ends once its two loads agree. -/
theorem reader_returns_alone (r : Nat) {st : St} {i : Nat} (hpc : (st.readers r).pc = .copy s i)
    (hi : i ≤ serialValueLen s + 1) :
    ∃ k ≤ serialValueLen s + serialValueLen st.serial + 6, ∃ st',
      st.run (List.replicate k (.reader r)) = some st' ∧ (st'.readers r).pc = .done st.serial := by
  obtain ⟨st₁, h₁, hpc₁, hs₁⟩ := run_reader_copy r (serialValueLen s + 1 - i) hpc (by omega)
  rw [show i + (serialValueLen s + 1 - i) = serialValueLen s + 1 by omega] at hpc₁
  obtain ⟨st₂, h₂, hs₂, hpc₂⟩ := run_reader_check r hpc₁
  have hrun : st.run (List.replicate (serialValueLen s + 1 - i + 2) (.reader r)) = some st₂ := by
    rw [← List.append_replicate_replicate, St.run_append, h₁, Option.some_bind]; exact h₂
  by_cases hs : st.serial = s
  · rw [hs₁, if_pos hs] at hpc₂
    exact ⟨_, by omega, st₂, hrun, hpc₂.trans (congrArg _ hs.symm)⟩
  · rw [hs₁, if_neg hs] at hpc₂
    obtain ⟨st₃, h₃, hpc₃, hs₃⟩ := run_reader_copy r (serialValueLen st.serial + 1) hpc₂ (by omega)
    rw [Nat.zero_add] at hpc₃
    obtain ⟨st₄, h₄, hs₄, hpc₄⟩ := run_reader_check r hpc₃
    rw [hs₃, hs₂, hs₁, if_pos rfl] at hpc₄
    refine ⟨serialValueLen s + 1 - i + 2 + (serialValueLen st.serial + 1 + 2), by omega, st₄, ?_, hpc₄⟩
    rw [← List.append_replicate_replicate, St.run_append, hrun, Option.some_bind, ← List.append_replicate_replicate,
      St.run_append, h₃, Option.some_bind]
    exact h₄

/-- A reader that has just loaded the serial of `readStart` returns it. -/
theorem reader_alone_returns_readStart :
    ∃ k ≤ serialValueLen (1 <<< 24) + serialValueLen readStart.serial + 6, ∃ st',
      (readStart.setReader 0 ⟨.copy (1 <<< 24) 0, fun _ => 0, 0, 0, 0⟩).run (List.replicate k (.reader 0)) =
        some st' ∧ (st'.readers 0).pc = .done readStart.serial := by
  have hpc : ((readStart.setReader 0 ⟨.copy (1 <<< 24) 0, fun _ => 0, 0, 0, 0⟩).readers 0).pc = .copy (1 <<< 24) 0 := by
    rw [setReader_readers_self]
  exact reader_returns_alone 0 hpc (Nat.zero_le _)

end Alone

end DirtyBit

end SysProps
