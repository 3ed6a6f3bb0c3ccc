import SysProps.System

/-!
# `SystemProperties::Wait`: waiting for a serial to change

`Wait(pi, old_serial, &new_serial, timeout)` futex-waits on a serial word, the
global one of the serial area when `pi` is `nullptr` and the entry's
otherwise, until a load of the word reads something other than `old_serial`.
Other threads change the word while it waits, and `__futex_wait` comes back
for reasons of its own, so both are an input here: a list of turns, each what
`__futex_wait` returned and what the load after it read. A run that uses up
its turns is still waiting.

**What is proved.** On an entry, or on the global serial of an initialized
library with a serial area, `Wait` returns true only having stored a value it
loaded from that word, one that differs from `old_serial`, and returns false
only when `__futex_wait` timed out. `WaitAny`, whose
wait has no timeout, then returns such a value of the global serial.

The early returns for an uninitialized library and a missing serial area
return `-1` from a `bool` function, which is true: nothing is stored, and
`WaitAny` returns its uninitialized `new_serial`.

**What it does not establish.** That the wait ends: a word that keeps its
value keeps the loop going.
-/

namespace SysProps

/-- What `__futex_wait` returned. -/
inductive FutexRc where
  | ok
  | eintr
  | eagain
  | etimedout
deriving DecidableEq, Repr

/-- The result as the `int` the code tests. -/
def FutexRc.code : FutexRc → Int
  | .ok => 0
  | .eintr => -4
  | .eagain => -11
  | .etimedout => -110

/-- `ETIMEDOUT`. -/
def etimedout : Int := 110

/-- An `int` returned from a function whose result type is `bool`. -/
def cBool (i : Int) : Bool := i != 0

/-- One turn of the wait loop as the rest of the system plays it: what
`__futex_wait` returns, and what the load after it reads. -/
structure Turn where
  rc : FutexRc
  serial : UInt32
deriving DecidableEq, Repr

/-- The word `serial_ptr` points at. -/
inductive SerialWord where
  | global
  | entry (pi : PropInfoRef)
deriving DecidableEq, Repr

/-- What a call of `Wait` did. -/
structure WaitResult where
  ret : Bool
  word : Option SerialWord
  loads : List UInt32
  stored : Option UInt32
deriving DecidableEq, Repr

namespace SystemProperties

/-- `do { ... } while (new_serial == old_serial)`: the result, the values
loaded and what is stored in `*new_serial_ptr`; none while still waiting. -/
def waitLoop (old : UInt32) : List Turn → Option (Bool × List UInt32 × Option UInt32)
  | [] => none
  | t :: turns =>
    if t.rc.code ≠ 0 ∧ t.rc.code = -etimedout then some (false, [], none)
    else if t.serial = old then (waitLoop old turns).map fun (r, loads, s) => (r, t.serial :: loads, s)
    else some (true, [t.serial], some t.serial)

/-- `SystemProperties::Wait(pi, old_serial, new_serial_ptr, relative_timeout)`. -/
def wait (sp : SystemProperties) (pi : Option PropInfoRef) (old : UInt32) (turns : List Turn) :
    Option WaitResult :=
  let run (word : SerialWord) : Option WaitResult :=
    (waitLoop old turns).map fun (r, loads, s) => ⟨r, some word, loads, s⟩
  match pi with
  | none =>
    if !sp.initialized then some ⟨cBool (-1), none, [], none⟩
    else match sp.serialArea with
      | none => some ⟨cBool (-1), none, [], none⟩
      | some _ => run .global
  | some p => run (.entry p)

/-- `WaitAny(old_serial)`: `Wait(nullptr, old_serial, &new_serial, nullptr)`,
then `new_serial`; none inside when `Wait` left it unset. -/
def waitAny (sp : SystemProperties) (old : UInt32) (turns : List Turn) : Option (Option UInt32) :=
  (sp.wait none old turns).map (·.stored)

/-- The timeout test `rc != 0 && rc == -ETIMEDOUT` holds of `-ETIMEDOUT` only. -/
@[simp] theorem timedOut_iff (rc : FutexRc) : (rc.code ≠ 0 ∧ rc.code = -etimedout) ↔ rc = .etimedout := by
  cases rc <;> decide

/-- **The loop's exits.** A loop that returns true stored a value it loaded,
one other than `old_serial`; one that returns false stored nothing and met a
timeout. -/
theorem waitLoop_spec {old : UInt32} : ∀ {turns : List Turn} {r : Bool} {loads : List UInt32}
    {s : Option UInt32}, waitLoop old turns = some (r, loads, s) →
      (r = true → ∃ v, s = some v ∧ v ∈ loads ∧ v ≠ old) ∧
      (r = false → s = none ∧ ∃ t ∈ turns, t.rc = .etimedout)
  | [], _, _, _, h => nomatch h
  | t :: turns, r, loads, s, h => by
    by_cases hto : t.rc = .etimedout
    · -- timed out
      simp only [waitLoop, (timedOut_iff t.rc).2 hto, and_self, if_true, Option.some.injEq, Prod.mk.injEq] at h
      obtain ⟨rfl, -, rfl⟩ := h
      exact ⟨nofun, fun _ => ⟨rfl, t, List.mem_cons_self t turns, hto⟩⟩
    simp only [waitLoop, (timedOut_iff t.rc).not.2 hto, if_false] at h
    by_cases hs : t.serial = old
    · -- the word still holds `old_serial`: wait again
      rw [if_pos hs] at h
      obtain ⟨⟨r', loads', s'⟩, h', hr⟩ := Option.map_eq_some'.1 h
      simp only [Prod.mk.injEq] at hr
      obtain ⟨rfl, rfl, rfl⟩ := hr
      obtain ⟨htrue, hfalse⟩ := waitLoop_spec h'
      refine ⟨fun hr => ?_, fun hr => ?_⟩
      · obtain ⟨v, hv, hmem, hne⟩ := htrue hr
        exact ⟨v, hv, List.mem_cons_of_mem _ hmem, hne⟩
      · obtain ⟨hs', u, hu, hto'⟩ := hfalse hr
        exact ⟨hs', u, List.mem_cons_of_mem _ hu, hto'⟩
    · -- a new value: stored and returned
      rw [if_neg hs] at h
      obtain ⟨rfl, rfl, rfl⟩ : true = r ∧ [t.serial] = loads ∧ some t.serial = s := by simpa using h
      exact ⟨fun _ => ⟨t.serial, rfl, List.mem_singleton_self _, hs⟩, nofun⟩

/-- On a word it can watch, `Wait` is its loop on that word. -/
theorem wait_watched {sp : SystemProperties} {pi : Option PropInfoRef} {old : UInt32} {turns : List Turn}
    (hw : pi = none → sp.initialized = true ∧ sp.serialArea.isSome = true) {res : WaitResult}
    (h : sp.wait pi old turns = some res) :
    ∃ x, waitLoop old turns = some x ∧ res = ⟨x.1, some (pi.elim .global .entry), x.2.1, x.2.2⟩ := by
  have hrun : sp.wait pi old turns =
      (waitLoop old turns).map fun (r, loads, s) => ⟨r, some (pi.elim .global .entry), loads, s⟩ := by
    cases pi with
    | none =>
      obtain ⟨hi, hs⟩ := hw rfl
      obtain ⟨a, ha⟩ := Option.isSome_iff_exists.1 hs
      simp only [wait, hi, ha, Bool.not_true, Bool.false_eq_true, if_false, Option.elim_none]
    | some p => rfl
  obtain ⟨⟨r, loads, s⟩, hl, rfl⟩ := Option.map_eq_some'.1 (hrun ▸ h)
  exact ⟨_, hl, rfl⟩

/-- **Wait on a word it can watch.** On an entry, or on the global serial of
an initialized library with a serial area, `Wait` watches that word; it
returns true only having stored a value it loaded from it, other than
`old_serial`, and false only after a timeout, storing nothing. `WaitAny`, on
such a library and with no timeout, so returns a value of the global serial
other than `old_serial`. -/
theorem wait_watched_spec (sp : SystemProperties) (pi : Option PropInfoRef) (old : UInt32) (turns : List Turn)
    (hw : pi = none → sp.initialized = true ∧ sp.serialArea.isSome = true) :
    (∀ res, sp.wait pi old turns = some res →
      res.word = some (pi.elim .global .entry) ∧
      (res.ret = true → ∃ v, res.stored = some v ∧ v ∈ res.loads ∧ v ≠ old) ∧
      (res.ret = false → res.stored = none ∧ ∃ t ∈ turns, t.rc = .etimedout)) ∧
    (pi = none → (∀ t ∈ turns, t.rc ≠ .etimedout) → ∀ v, sp.waitAny old turns = some v →
      ∃ res, sp.wait none old turns = some res ∧ res.word = some .global ∧
        ∃ u, v = some u ∧ u ∈ res.loads ∧ u ≠ old) := by
  refine ⟨fun res h => ?_, fun hpi hto v h => ?_⟩
  · obtain ⟨⟨r, loads, s⟩, hl, rfl⟩ := wait_watched hw h
    exact ⟨rfl, waitLoop_spec hl⟩
  · subst hpi
    obtain ⟨res, hres, rfl⟩ := Option.map_eq_some'.1 h
    obtain ⟨⟨r, loads, s⟩, hl, rfl⟩ := wait_watched hw hres
    cases r with
    | false =>
      obtain ⟨-, t, ht, hto'⟩ := (waitLoop_spec hl).2 rfl
      exact absurd hto' (hto t ht)
    | true =>
      obtain ⟨u, hu, hmem, hne⟩ := (waitLoop_spec hl).1 rfl
      exact ⟨_, hres, rfl, u, hu, hmem, hne⟩

/-- On a new library, waiting on the global serial from 0: a signal, then a
wake-up after which the word reads 1. -/
theorem wait_fresh_reads_one :
    ∃ res, fresh.wait none 0 [⟨.eintr, 0⟩, ⟨.ok, 1⟩] = some res ∧ ∃ v, res.stored = some v ∧ v ∈ res.loads ∧ v ≠ 0 :=
  ⟨_, rfl, (wait_watched_spec fresh none 0 [⟨.eintr, 0⟩, ⟨.ok, 1⟩] (fun _ => ⟨rfl, rfl⟩)).1 _ rfl |>.2.1 rfl⟩

/-- **An early return of `Wait` is true.** On a library that is not
initialized, or that has no serial area, `Wait(nullptr, ...)` returns `-1`
as a `bool`, which is true, having stored nothing, whatever the other threads
do; `WaitAny` then returns its `new_serial` unset. -/
theorem wait_unavailable_returns_true (sp : SystemProperties) (old : UInt32) (turns : List Turn)
    (h : sp.initialized = false ∨ sp.serialArea = none) :
    sp.wait none old turns = some ⟨true, none, [], none⟩ ∧ sp.waitAny old turns = some none := by
  have hw : sp.wait none old turns = some ⟨true, none, [], none⟩ := by
    rcases h with h | h
    · simp [wait, h, cBool]
    · cases hi : sp.initialized <;> simp [wait, hi, h, cBool]
  exact ⟨hw, by simp [waitAny, hw]⟩

/-- On a library not initialized. -/
theorem wait_uninitialized_true :
    ({ fresh with initialized := false } : SystemProperties).wait none 0 [] = some ⟨true, none, [], none⟩ ∧
      ({ fresh with initialized := false } : SystemProperties).waitAny 0 [] = some none :=
  wait_unavailable_returns_true _ 0 [] (Or.inl rfl)

end SystemProperties

end SysProps
