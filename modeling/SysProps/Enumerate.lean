import SysProps.Area.Grow
import SysProps.System

/-!
# Enumerating the properties: `foreach` and `FindNth`

`prop_area::foreach` hands `propfn` the entries below the root, one node at a
time (`SysProps.Area.Walk`). `ContextsSerialized::ForEach` runs it over the
areas of the context nodes that `CheckAccessAndOpen` opens, in order, and
`SystemProperties::Foreach` does so once the object is initialized.
`FindNth(n)` counts the callbacks of one such run in the `uint32_t` field
`current` of its cookie, and keeps the entry of each callback it counts as
`n`.

**What is proved.** On every area reached with C strings as names,
`foreach` hands over each entry that `find` answers for some name exactly
once, that name being the only one `find` answers it for, and hands over
nothing else (`PropArea.foreach_exactly_once`). Over every run of `Foreach`,
`FindNth(n)` answers `nullptr` when the run makes at most `n` callbacks, and
else the last callback whose count, modulo `2^32`, is `n`
(`findNth_counts_modulo`): the `(n+1)`-th when the run makes at most
`n + 2^32`. An area that `add` fills with the 1024 names of two bytes holds
1024 entries (`PropArea.fullArea_foreach`); over `2^22 + 1` context nodes
holding one each, `Foreach` makes `2^32 + 1024` callbacks, `current` wraps,
and `FindNth(0)` answers the first entry of the node `2^22` in place of the
first of the node 0 (`findNth_zero_answers_callback_2_32`).

**What it does not establish.** Which context nodes `CheckAccessAndOpen`
opens is an input here.
-/

namespace SysProps

namespace PropArea

open PTrie

/-- **`foreach` hands over each entry of the map `find` defines, once.** On
an area reached with C strings as names, the entries `foreach` hands
`propfn` are distinct; they are the entries `find` answers for names with no
NUL; and `find` answers each of them for one name only. -/
theorem foreach_exactly_once {pa : PropArea} (h : CReachable pa) :
    ∃ L, pa.foreach = some (L, true) ∧ L.Nodup ∧ (∀ e, e ∈ L ↔ ∃ name, 0 ∉ name ∧ pa.find name = some (some e)) ∧
      ∀ name name' e, 0 ∉ name → 0 ∉ name' → pa.find name = some (some e) → pa.find name' = some (some e) →
        name = name' := by
  obtain ⟨objs, t, ha, ht, hr⟩ := h.trieOk
  have hfind : ∀ name e, pa.find name = some (some e) ↔ t.lookup name = some e := fun name e => by
    rw [ha.find_eq_lookup ht, Option.some_inj]
  have hnd := ha.entries_nodup .root ht
  refine ⟨t.entries, ha.foreach_eq_entries ht, hnd, fun e => ⟨fun he => ?_, fun ⟨name, hn, he⟩ => ?_⟩,
    fun name name' e hn hn' he he' => lookup_injective hr hnd hn hn' ((hfind _ _).1 he) ((hfind _ _).1 he')⟩
  · obtain ⟨name, hn, hl⟩ := lookup_complete hr he
    exact ⟨name, hn, (hfind _ _).2 hl⟩
  · exact lookup_mem_entries hr hn ((hfind _ _).1 he)

/-- The area after `add("a", 1, "", 0)` and then `add("b", 1, "", 0)` on a
fresh one. -/
def areaAB : PropArea := ((areaA.add [98] 1 [] 0).map Prod.fst).getD fresh

theorem cReachable_areaAB : CReachable areaAB :=
  .step (.step .fresh (.add [97] 1 [] 0 true (by decide) rfl)) (.add [98] 1 [] 0 true (by decide) rfl)

/-- Its entries, `a`'s at 136 and `b`'s at 260. -/
theorem foreach_areaAB : areaAB.foreach = some ([136, 260], true) := rfl

/-- On the area holding `a` and `b`, `foreach` hands over 136 and 260: 260 is
what `find` answers for some name, and `a`, whose entry is 136, is the only
name `find` answers 136 for. -/
theorem areaAB_entries_once : areaAB.foreach = some ([136, 260], true) ∧
    (∃ name, 0 ∉ name ∧ areaAB.find name = some (some 260)) ∧
    ∀ name, 0 ∉ name → areaAB.find name = some (some 136) → name = [97] :=
  let ⟨L, hL, _, hmem, huniq⟩ := foreach_exactly_once cReachable_areaAB
  have hL' : L = [136, 260] := (Prod.mk.inj (Option.some.inj (hL.symm.trans foreach_areaAB))).1
  ⟨foreach_areaAB, (hmem 260).1 (by rw [hL']; simp), fun name hn h => huniq name [97] 136 hn (by decide) h rfl⟩

/-! ## A full area -/

/-- The name of two bytes `'A' + k / 32` and `'A' + k % 32`: for `k < 1024`,
two of the 32 bytes from `'A'` to the backquote. -/
def twoByteName (k : Nat) : Bytes := [UInt8.ofNat (65 + k / 32), UInt8.ofNat (65 + k % 32)]

/-- The 1024 names of two such bytes. -/
def twoByteNames : List Bytes := (List.range 1024).map twoByteName

theorem twoByteName_toNat {k : Nat} (hk : k < 1024) :
    (twoByteName k).map UInt8.toNat = [65 + k / 32, 65 + k % 32] := by
  rw [twoByteName, List.map_cons, List.map_cons, List.map_nil, UInt8.toNat_ofNat_of_lt (by unfold UInt8.size; omega),
    UInt8.toNat_ofNat_of_lt (by unfold UInt8.size; omega)]

theorem twoByteName_bytes {k : Nat} (hk : k < 1024) : ∀ b ∈ twoByteName k, 65 ≤ b.toNat ∧ b.toNat ≤ 96 :=
  fun b hb => by
    have := twoByteName_toNat hk ▸ List.mem_map_of_mem UInt8.toNat hb
    simp only [List.mem_cons, List.mem_singleton, List.not_mem_nil, or_false] at this
    omega

theorem twoByteNames_nodup : twoByteNames.Nodup := by
  refine List.Nodup.map_on (fun k hk k' hk' h => ?_) (List.nodup_range 1024)
  have := congrArg (List.map UInt8.toNat) h
  rw [twoByteName_toNat (List.mem_range.1 hk), twoByteName_toNat (List.mem_range.1 hk'), List.cons.injEq,
    List.cons.injEq] at this
  omega

theorem twoByteName_fits {k : Nat} (hk : k < 1024) : 0 ∉ twoByteName k ∧ [] ∉ segments (twoByteName k) ∧
    nodesSize (segments (twoByteName k)) + align4 (sizeofPropInfo + (twoByteName k).length + 1) ≤ 124 := by
  have hb := twoByteName_bytes hk
  have hseg : segments (twoByteName k) = [twoByteName k] :=
    segments_joinSegments (q := [twoByteName k]) (List.cons_ne_nil _ _) fun x hx h =>
      by rw [List.mem_singleton.1 hx] at h; exact absurd (hb _ h) (by decide)
  refine ⟨fun h => absurd (hb 0 h) (by decide), by rw [hseg]; simp [twoByteName], ?_⟩
  have hl : (twoByteName k).length = 2 := rfl
  rw [hseg, nodesSize_cons, nodesSize_nil, hl]
  decide

/-- The area `add` fills with the 1024 names of two bytes, each with an
empty value, from a fresh one. -/
def fullArea : PropArea := fresh.addAll twoByteNames

/-- **A full area.** Reached from a fresh area by `add` with C strings as
names, it holds 1024 entries, which its `foreach` hands over. -/
theorem fullArea_foreach : CReachable fullArea ∧ ∃ L, fullArea.foreach = some (L, true) ∧ L.length = 1024 := by
  obtain ⟨t₀, ht₀, hr₀, hnone⟩ := fresh_lookup
  have hlen : twoByteNames.length = 1024 := by simp [twoByteNames]
  have hfits : ∀ n ∈ twoByteNames, 0 ∉ n ∧ [] ∉ segments n ∧ t₀.lookup n = none ∧
      nodesSize (segments n) + align4 (sizeofPropInfo + n.length + 1) ≤ 124 := fun n hn => by
    obtain ⟨k, hk, rfl⟩ := List.mem_map.1 hn
    obtain ⟨h0, hseg, hc⟩ := twoByteName_fits (List.mem_range.1 hk)
    exact ⟨h0, hseg, hnone _, hc⟩
  obtain ⟨hc, objs, t, ha, ht, hr, hin, hout, -⟩ :=
    arena_fresh.addAll_fill twoByteNames_nodup ht₀ hr₀ hfits (by rw [hlen]; decide)
  have hnd := ha.entries_nodup .root ht
  have hsome : ∀ n ∈ twoByteNames, ∃ e, t.lookup n = some e := fun n hn => Option.isSome_iff_exists.1 (hin n hn)
  have hE : (twoByteNames.map fun n => (t.lookup n).getD 0).Nodup := by
    refine List.Nodup.map_on (fun x hx y hy hxy => ?_) twoByteNames_nodup
    obtain ⟨ex, hex⟩ := hsome x hx
    obtain ⟨ey, hey⟩ := hsome y hy
    rw [hex, hey, Option.getD_some, Option.getD_some] at hxy
    exact lookup_injective hr hnd (hfits x hx).1 (hfits y hy).1 hex (hxy ▸ hey)
  have hperm : t.entries.Perm (twoByteNames.map fun n => (t.lookup n).getD 0) := by
    refine (List.perm_ext_iff_of_nodup hnd hE).2 fun e => ⟨fun he => ?_, fun he => ?_⟩
    · obtain ⟨n, hn, hl⟩ := lookup_complete hr he
      have hmem : n ∈ twoByteNames := by
        by_contra hnot
        rw [hout n hn hnot, hnone] at hl
        cases hl
      exact List.mem_map.2 ⟨n, hmem, by rw [hl]; rfl⟩
    · obtain ⟨n, hn, rfl⟩ := List.mem_map.1 he
      obtain ⟨e, he⟩ := hsome n hn
      rw [he]
      exact lookup_mem_entries hr (hfits n hn).1 he
  exact ⟨hc .fresh, t.entries, ha.foreach_eq_entries ht, by rw [hperm.length_eq, List.length_map, hlen]⟩

end PropArea

namespace SystemProperties

/-! ## The run of `Foreach` -/

/-- The loop of `ContextsSerialized::ForEach` from the context node `i`: the
entries handed to `propfn`, as pointers into their areas, for each node that
`CheckAccessAndOpen` opens (`opens i`). What `prop_area::foreach` returns is
dropped; `none` when one of its walks faults. -/
def forEachFrom (opens : Nat → Bool) : Nat → List PropArea → Option (List PropInfoRef)
  | _, [] => some []
  | i, pa :: rest =>
    if opens i then do
      let (l, _) ← pa.foreach
      let r ← forEachFrom opens (i + 1) rest
      some (l.map (PropInfoRef.mk i) ++ r)
    else forEachFrom opens (i + 1) rest

/-- `SystemProperties::Foreach(propfn, cookie)`: the callbacks of its run,
and what it returns. -/
def foreach (sp : SystemProperties) (opens : Nat → Bool) : Option (List PropInfoRef × Int) :=
  if !sp.initialized then some ([], -1)
  else (forEachFrom opens 0 sp.areas).map fun l => (l, 0)

/-- The cookie of `FindNth`, `struct find_nth`. -/
structure FindNth where
  sought : UInt32
  current : UInt32
  result : Option PropInfoRef
deriving DecidableEq, Repr

/-- `find_nth::fn(pi, ptr)`: `if (self->current++ == self->sought) self->result = pi;`. -/
def FindNth.fn (self : FindNth) (pi : PropInfoRef) : FindNth :=
  { self with current := self.current + 1, result := if self.current = self.sought then some pi else self.result }

/-- `SystemProperties::FindNth(n)`: the cookie starts with `current` 0 and no
result, and `Foreach` hands it every callback of its run. -/
def findNth (sp : SystemProperties) (opens : Nat → Bool) (n : UInt32) : Option (Option PropInfoRef) :=
  (sp.foreach opens).map fun r => (r.1.foldl FindNth.fn ⟨n, 0, none⟩).result

/-! ## The count of `find_nth` -/

namespace FindNth

theorem current_foldl (L : List PropInfoRef) : ∀ st : FindNth,
    (L.foldl fn st).current.toNat = (st.current.toNat + L.length) % 2 ^ 32 ∧ (L.foldl fn st).sought = st.sought := by
  induction L with
  | nil => intro st; exact ⟨(Nat.mod_eq_of_lt (UInt32.toNat_lt_size _)).symm, rfl⟩
  | cons x L ih =>
    intro st
    obtain ⟨hc, hs⟩ := ih (fn st x)
    refine ⟨?_, hs⟩
    rw [List.foldl_cons, hc]
    show ((st.current.toNat + 1) % 2 ^ 32 + L.length) % 2 ^ 32 = _
    simp only [List.length_cons]
    omega

/-- Callbacks that are not counted as `sought` leave the result. -/
theorem result_foldl_append (st : FindNth) (L : List PropInfoRef) : ∀ M : List PropInfoRef,
    (∀ j < M.length, (st.current.toNat + L.length + j) % 2 ^ 32 ≠ st.sought.toNat) →
    ((L ++ M).foldl fn st).result = (L.foldl fn st).result := by
  intro M
  induction M generalizing L with
  | nil => intro; rw [List.append_nil]
  | cons x M ih =>
    intro hmiss
    have h := ih (L ++ [x]) fun j hj => by
      simpa [Nat.add_assoc, Nat.add_comm 1] using hmiss (j + 1) (by simp; omega)
    rw [show L ++ x :: M = (L ++ [x]) ++ M by simp, h, List.foldl_append]
    obtain ⟨hc, hs⟩ := current_foldl L st
    have hne : (L.foldl fn st).current ≠ (L.foldl fn st).sought := fun e => by
      have := congrArg UInt32.toNat e
      rw [hc, hs] at this
      exact hmiss 0 (by simp) (by simpa using this)
    simp only [List.foldl_cons, List.foldl_nil, fn, if_neg hne]

/-- The callback counted as `sought` is the result, when none after it is. -/
theorem result_foldl_hit (st : FindNth) (L₁ : List PropInfoRef) (x : PropInfoRef) (L₂ : List PropInfoRef)
    (hhit : (st.current.toNat + L₁.length) % 2 ^ 32 = st.sought.toNat)
    (hmiss : ∀ j < L₂.length, (st.current.toNat + L₁.length + 1 + j) % 2 ^ 32 ≠ st.sought.toNat) :
    ((L₁ ++ x :: L₂).foldl fn st).result = some x := by
  rw [show L₁ ++ x :: L₂ = (L₁ ++ [x]) ++ L₂ by simp,
    result_foldl_append st (L₁ ++ [x]) L₂ fun j hj => by simpa [Nat.add_assoc] using hmiss j hj, List.foldl_append]
  obtain ⟨hc, hs⟩ := current_foldl L₁ st
  have heq : (L₁.foldl fn st).current = (L₁.foldl fn st).sought := UInt32.toNat.inj (by rw [hc, hs, hhit])
  simp only [List.foldl_cons, List.foldl_nil, fn, if_pos heq]

end FindNth

/-- **What `FindNth` answers**, over the callbacks `L` of its run: the
callback `k`, when `k` is `n` modulo `2^32` and no later callback is. -/
theorem findNth_result (L : List PropInfoRef) (n : UInt32) {k : Nat} (hk : k < L.length)
    (hkn : k % 2 ^ 32 = n.toNat) (hlast : L.length ≤ k + 2 ^ 32) :
    (L.foldl FindNth.fn ⟨n, 0, none⟩).result = L[k]? := by
  have hsplit : L = L.take k ++ L[k] :: L.drop (k + 1) := by
    rw [← List.drop_eq_getElem_cons hk, List.take_append_drop]
  rw [List.getElem?_eq_getElem hk]
  conv_lhs => rw [hsplit]
  refine FindNth.result_foldl_hit _ _ _ _ (by simpa [Nat.min_eq_left hk.le] using hkn) fun j hj => ?_
  simp only [List.length_drop, List.length_take, Nat.min_eq_left hk.le, UInt32.toNat_zero, Nat.zero_add] at hj ⊢
  omega

/-- `FindNth(n)` answers `nullptr` over a run of at most `n` callbacks. -/
theorem findNth_result_none (L : List PropInfoRef) (n : UInt32) (h : L.length ≤ n.toNat) :
    (L.foldl FindNth.fn ⟨n, 0, none⟩).result = none := by
  have := FindNth.result_foldl_append ⟨n, 0, none⟩ [] L fun j hj => by
    have := UInt32.toNat_lt_size n
    simp only [UInt32.toNat_zero, List.length_nil] at this ⊢
    omega
  simpa using this

/-- **What `FindNth` answers.** Over a run of `Foreach` whose callbacks are
`L`, `FindNth(n)` answers `nullptr` when there are at most `n` of them, and
else the callback `k` that is `n` modulo `2^32` with no later one so: the
`(n+1)`-th when there are at most `n + 2^32`. -/
theorem findNth_counts_modulo (sp : SystemProperties) (opens : Nat → Bool) (n : UInt32) {L : List PropInfoRef}
    {r : Int} (h : sp.foreach opens = some (L, r)) :
    (L.length ≤ n.toNat → sp.findNth opens n = some none) ∧
      ∀ k < L.length, k % 2 ^ 32 = n.toNat → L.length ≤ k + 2 ^ 32 → sp.findNth opens n = some L[k]? :=
  ⟨fun hl => by simp only [findNth, h, Option.map_some', findNth_result_none L n hl],
    fun k hk hkn hl => by simp only [findNth, h, Option.map_some', findNth_result L n hk hkn hl]⟩

/-- One context node, holding `a` and `b`. -/
def withAB : SystemProperties := { fresh with areas := [PropArea.areaAB] }

/-- On one node holding `a` and `b`, `FindNth(1)` answers `b`, the second
callback, and `FindNth(2)` answers `nullptr`. -/
theorem findNth_withAB_second :
    withAB.findNth (fun _ => true) 1 = some (some ⟨0, 260⟩) ∧ withAB.findNth (fun _ => true) 2 = some none :=
  have h : withAB.foreach (fun _ => true) = some ([⟨0, 136⟩, ⟨0, 260⟩], 0) := by
    simp only [foreach, withAB, fresh, forEachFrom, PropArea.foreach_areaAB]; rfl
  ⟨(findNth_counts_modulo _ _ 1 h).2 1 (by decide) rfl (by decide), (findNth_counts_modulo _ _ 2 h).1 (by decide)⟩

/-! ## `current` wraps -/

/-- The run over copies of one area: its entries, node after node, so that
the callback `l.length * m` hands over the first entry of the node `m`. -/
theorem forEachFrom_replicate {pa : PropArea} {l : List Nat} {b : Bool} (h : pa.foreach = some (l, b)) :
    ∀ (N i : Nat), ∃ L, forEachFrom (fun _ => true) i (List.replicate N pa) = some L ∧ L.length = l.length * N ∧
      ∀ m < N, L[l.length * m]? = l.head?.map (PropInfoRef.mk (i + m))
  | 0, _ => ⟨[], rfl, rfl, fun _ h => absurd h (Nat.not_lt_zero _)⟩
  | N + 1, i => by
    obtain ⟨L, hL, hlen, hget⟩ := forEachFrom_replicate h N (i + 1)
    refine ⟨l.map (PropInfoRef.mk i) ++ L, ?_, by rw [List.length_append, List.length_map, hlen, Nat.mul_succ]; omega,
      fun m hm => ?_⟩
    · simp only [List.replicate_succ, forEachFrom, if_pos, h, hL, Option.bind_eq_bind, Option.some_bind]
    · cases m with
      | zero =>
        cases l with
        | nil => rw [List.length_eq_zero.1 (show L.length = 0 by simpa using hlen)]; rfl
        | cons e l => simp
      | succ m =>
        rw [List.getElem?_append_right (by rw [List.length_map, Nat.mul_succ]; omega), List.length_map,
          show l.length * (m + 1) - l.length = l.length * m by rw [Nat.mul_succ]; omega, hget m (by omega),
          show i + 1 + m = i + (m + 1) by omega]

/-- `2^22 + 1` context nodes, each holding the full area. -/
def manyFull : SystemProperties := { fresh with areas := List.replicate (2 ^ 22 + 1) PropArea.fullArea }

/-- **`FindNth(0)` answers a callback past the first.** Over `2^22 + 1`
context nodes, each holding the area `add` fills with the 1024 names of two
bytes, `Foreach` makes `2^32 + 1024` callbacks, the first handing over the
entry `e` of the node 0; `current` wraps to 0 at the callback `2^32`, and
`FindNth(0)` answers the entry `e` of the node `2^22`. -/
theorem findNth_zero_answers_callback_2_32 : PropArea.CReachable PropArea.fullArea ∧
    ∃ L e, manyFull.foreach (fun _ => true) = some (L, 0) ∧ L.length = 2 ^ 32 + 1024 ∧ L[0]? = some ⟨0, e⟩ ∧
      manyFull.findNth (fun _ => true) 0 = some (some ⟨2 ^ 22, e⟩) := by
  obtain ⟨hc, l, hl, hlen⟩ := PropArea.fullArea_foreach
  obtain ⟨e, l', rfl⟩ := List.exists_cons_of_length_pos (show 0 < l.length by omega)
  obtain ⟨L, hL, hLlen, hget⟩ := forEachFrom_replicate hl (2 ^ 22 + 1) 0
  rw [hlen] at hLlen hget
  have hfe : manyFull.foreach (fun _ => true) = some (L, 0) := by
    show (if !true then some ([], -1) else (forEachFrom (fun _ => true) 0 (List.replicate (2 ^ 22 + 1)
      PropArea.fullArea)).map fun l => (l, 0)) = _
    rw [hL]; rfl
  refine ⟨hc, L, e, hfe, by rw [hLlen]; decide, by simpa using hget 0 (by omega), ?_⟩
  simp only [findNth, hfe, Option.map_some']
  rw [findNth_result L 0 (k := 2 ^ 32) (by rw [hLlen]; omega) rfl (by rw [hLlen]; omega)]
  simpa using hget (2 ^ 22) (by omega)

end SystemProperties

end SysProps
