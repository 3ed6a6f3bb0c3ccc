import Mathlib.Data.List.Basic
import SysProps.Split

/-!
# `read_spec_entries` on the line buffer

`ContextsSplit` reads each line of a `property_contexts` file with
`read_spec_entries(line_buf, 2, &prop_prefix, &context)`. This module runs
that function as the code does, on `line_buf` in memory: the bytes `getline`
read, the NUL it adds after them, and the bytes around the buffer. Every
read and write of `line_buf` is logged by its offset, and every `va_arg` is
counted. The copies `strndup` makes are new blocks, numbered 1, 2, … in the
order the call makes them, none of them `line_buf`; they are taken to
succeed.

`SysProps.ContextsSplit.readSpecEntries` reads the same line as a list, and
is what `InitializePropertiesFromFile` uses.

**What is proved.** On a buffer whose C string is not empty, the run on
memory returns what the list reading returns and stores those entries, in
order, through its first out-parameters, the i-th as the (i + 1)-th block it
makes (`readSpecEntriesAt_eq`); on a line that is not blank and not a comment
they are its first maximal runs of non-blank bytes
(`readSpecEntries_eq_runs`). `readSpecEntriesAt_first_fields` adds what the
loader then does with a line: its first two runs, prefix and context, unless
the prefix is for `ctl.`, become a prefix entry placed as `ListAddAfterLen`
places it, with the node of an earlier line of the same context, or a new
node for a new context; any other line changes nothing. Such a run reads and writes only
`line_buf[0 .. strlen]` and takes at most one `va_arg` beyond `num_args`.
Both limits are crossed on some inputs: a buffer whose first byte is NUL makes the
newline test read the byte before `line_buf`, and a line with fewer entries
than `num_args` and blanks after the last makes the loop take one `va_arg`
more than `num_args`.

**What it does not establish.** The `-1` returned when `strndup` fails, and
the `free` of the copies once the loader has used them.
-/

namespace SysProps

namespace ContextsSplit

/-! ## The maximal runs of a line -/

/-- The maximal runs of non-blank bytes of a line, in order. -/
def runs (line : Bytes) : List Bytes := (line.splitOnP isSpace).filter (· ≠ [])

/-- The line with one trailing newline cut off. -/
def stripNewline (line : Bytes) : Bytes := if line.getLast? = some 10 then line.dropLast else line

/-- A line that gives no entry: blank, or with `#` as its first non-blank
byte. -/
def isSkipped (line : Bytes) : Bool :=
  match line.dropWhile isSpace with
  | [] => true
  | c :: _ => c == 35

@[simp] theorem runs_nil : runs [] = [] := rfl

theorem runs_cons_of_space {c : UInt8} (hc : isSpace c = true) (l : Bytes) : runs (c :: l) = runs l := by
  simp [runs, List.splitOnP_cons, hc]

theorem runs_dropWhile : ∀ l : Bytes, runs (l.dropWhile isSpace) = runs l
  | [] => rfl
  | c :: l => by
    by_cases hc : isSpace c = true
    · rw [List.dropWhile_cons_of_pos hc, runs_dropWhile l, runs_cons_of_space hc]
    · rw [List.dropWhile_cons_of_neg hc]

/-- A run followed by the end of the line or a blank is the first run. -/
theorem runs_append_word {w rest : Bytes} (hw : w ≠ []) (hns : ∀ c ∈ w, isSpace c = false)
    (hrest : ∀ c ∈ rest.head?, isSpace c = true) : runs (w ++ rest) = w :: runs rest := by
  have hns' : ∀ c ∈ w, ¬isSpace c = true := fun c hc => by simp [hns c hc]
  cases rest with
  | nil => simp [runs, List.splitOnP_eq_single isSpace w hns', hw]
  | cons c r =>
    have hc : isSpace c = true := hrest c rfl
    rw [runs_cons_of_space hc]
    simp [runs, List.splitOnP_first isSpace w hns' c hc, hw]

/-! ## Reading a line as a list -/

/-- The run `read_spec_entry` takes is the first run of the line. -/
theorem runs_eq_readSpecEntry (l : Bytes) :
    runs l = if (readSpecEntry l).1 = [] then [] else (readSpecEntry l).1 :: runs (readSpecEntry l).2 := by
  rw [← runs_dropWhile]
  have hsplit : l.dropWhile isSpace = (readSpecEntry l).1 ++ (readSpecEntry l).2 := by
    simp only [readSpecEntry, List.takeWhile_append_dropWhile]
  split
  · rename_i hw
    cases hd : l.dropWhile isSpace with
    | nil => rfl
    | cons c t =>
      have hc : isSpace c = false := by simpa [hd] using List.head_dropWhile_not isSpace l (by simp [hd])
      simp [readSpecEntry, hd, hc] at hw
  · rename_i hw
    rw [hsplit]
    refine runs_append_word hw (fun c hc => ?_) (fun c hc => ?_)
    · simpa using List.mem_takeWhile_imp hc
    · have hne : (readSpecEntry l).2 ≠ [] := by rintro h; rw [h] at hc; cases hc
      rw [List.head?_eq_head hne, Option.mem_some_iff] at hc
      subst hc
      have h := List.head_dropWhile_not (fun c => !isSpace c) (l.dropWhile isSpace) hne
      simpa using h

/-- The loop of `read_spec_entries` takes the first runs of what is left. -/
theorem readSpecEntriesLoop_eq_take : ∀ (k : Nat) (l : Bytes), readSpecEntriesLoop k l = (runs l).take k
  | 0, _ => by simp [readSpecEntriesLoop]
  | _ + 1, [] => by simp [readSpecEntriesLoop]
  | k + 1, c :: l => by
    rw [readSpecEntriesLoop, runs_eq_readSpecEntry]
    by_cases hw : (readSpecEntry (c :: l)).1 = []
    · simp [hw]
    · simp [hw, readSpecEntriesLoop_eq_take k]

/-- **The list reading of a line.** A blank line or a comment gives no entry;
any other line gives its first `n` runs. -/
theorem readSpecEntries_eq_runs (buf : Bytes) (n : Nat) :
    readSpecEntries buf n =
      if isSkipped (stripNewline (cString buf)) then [] else (runs (stripNewline (cString buf))).take n := by
  simp only [readSpecEntries, isSkipped, stripNewline]
  split
  · rename_i hd; simp [hd]
  · rename_i c rest hd
    simp only [hd, beq_iff_eq]
    split
    · rfl
    · rw [readSpecEntriesLoop_eq_take, ← hd, runs_dropWhile]

/-! ## `line_buf` in memory -/

/-- `line_buf` as `getline` hands it over, by offset from its start: the
bytes read, then the NUL `getline` puts after them; `outside` gives the bytes
around the buffer. -/
def lineMem (buf : Bytes) (outside : Int → UInt8) (i : Int) : UInt8 :=
  if 0 ≤ i ∧ i ≤ buf.length then buf.getD i.toNat 0 else outside i

/-- `while (cond(*p)) p++` from `p`: where it stops, and the offsets it read.
None when `fuel` turns do not reach the stop. -/
def scan (mem : Int → UInt8) (cond : UInt8 → Bool) : Nat → Int → Option (Int × List Int)
  | 0, _ => none
  | fuel + 1, p =>
    if cond (mem p) then (scan mem cond fuel (p + 1)).map fun r => (r.1, p :: r.2) else some (p, [p])

/-- `read_spec_entry(entry, &buf_p, &len)` from `buf_p = p`: what it stores
in `*entry` (`nullptr` for an empty run, else the copy `strndup` makes of
it, the new block numbered `blk`, with the bytes it holds), where `buf_p`
ends, and the offsets it read. -/
def readSpecEntryAt (mem : Int → UInt8) (fuel blk : Nat) (p : Int) : Option (Option (Nat × Bytes) × Int × List Int) :=
  do
  let (start, skipped) ← scan mem (fun c => isSpace c && c != 0) fuel p
  let (stop, taken) ← scan mem (fun c => !isSpace c && c != 0) fuel start
  let copied := (List.range (stop - start).toNat).map fun i : Nat => start + i
  pure (if stop - start ≠ 0 then some (blk, copied.map mem) else none, stop, skipped ++ taken ++ copied)

/-- What the loop of `read_spec_entries` did: what it stored through each
out-parameter it wrote, in `va_arg` order; the `va_arg` calls; the count it
returns; the offsets it read. -/
structure LoopResult where
  entries : List (Option (Nat × Bytes))
  fetched : Nat
  ret : Nat
  reads : List Int

/-- `while (items < num_args)` from `buf_p = p`, over `turns` turns, the next
block `strndup` makes being `blk`: take the next out-parameter; at `len - 1`
return; else read an entry into it, counting it when it is not empty. -/
def entriesLoop (mem : Int → UInt8) (len : Int) (numArgs fuel : Nat) : Nat → Nat → Nat → Int → Option LoopResult
  | 0, _, _, _ => none
  | turns + 1, items, blk, p =>
    if items < numArgs then
      if len - 1 = p then some ⟨[], 1, items, []⟩
      else do
        let (entry, q, rs) ← readSpecEntryAt mem fuel blk p
        let r ← entriesLoop mem len numArgs fuel turns (if entry.isSome then items + 1 else items)
          (if entry.isSome then blk + 1 else blk) q
        pure ⟨entry :: r.entries, r.fetched + 1, r.ret, rs ++ r.reads⟩
    else some ⟨[], 0, items, []⟩

/-- What one call of `read_spec_entries` did. -/
structure Result where
  ret : Nat
  entries : List (Option (Nat × Bytes))
  fetched : Nat
  reads : List Int
  writes : List Int

/-- `read_spec_entries(line_buf, num_args, ...)` on the buffer `getline`
returned, `buf`. `len = strlen(line_buf)`; a newline at `len - 1` is cut, and
otherwise `len` counts the NUL; leading blanks are skipped, and a `#` or the
end returns 0; then the loop. The loops get turns enough for any buffer. -/
def readSpecEntriesAt (buf : Bytes) (outside : Int → UInt8) (numArgs : Nat) : Option Result := do
  let fuel := buf.length + numArgs + 2
  let mem₀ := lineMem buf outside
  let (n, r₀) ← scan mem₀ (· != 0) fuel 0
  let nl := mem₀ (n - 1) == 10
  let mem := if nl then fun i => if i = n - 1 then 0 else mem₀ i else mem₀
  let len := if nl then n else n + 1
  let writes := if nl then [n - 1] else []
  let (p, r₁) ← scan mem isSpace fuel 0
  let reads := r₀ ++ [n - 1] ++ r₁ ++ [p]
  if mem p == 35 || mem p == 0 then pure ⟨0, [], 0, reads, writes⟩
  else do
    let r ← entriesLoop mem len numArgs fuel fuel 0 1 p
    pure ⟨r.ret, r.entries, r.fetched, reads ++ r.reads, writes⟩

/-! ## Runs on memory -/

/-- `mem` holds the bytes `l` from offset `p` on, then a NUL. -/
def Holds (mem : Int → UInt8) (p : Int) (l : Bytes) : Prop :=
  (∀ j < l.length, mem (p + j) = l.getD j 0) ∧ mem (p + l.length) = 0

section Holds

variable {mem : Int → UInt8}

theorem Holds.append {p : Int} {a b : Bytes} (h : Holds mem p (a ++ b)) : Holds mem (p + a.length) b := by
  refine ⟨fun j hj => ?_, ?_⟩
  · have := h.1 (a.length + j) (by simp; omega)
    rw [List.getD_append_right _ _ _ _ (by omega), Nat.add_sub_cancel_left] at this
    rw [← this]; congr 1; omega
  · have := h.2
    rw [List.length_append] at this
    rw [← this]; congr 1; omega

theorem Holds.cons {p : Int} {c : UInt8} {l : Bytes} (h : Holds mem p (c :: l)) : mem p = c ∧ Holds mem (p + 1) l :=
  ⟨by simpa using h.1 0 (by simp), by simpa using (show Holds mem p ([c] ++ l) from h).append⟩

theorem Holds.getD {p : Int} {a b : Bytes} (h : Holds mem p (a ++ b)) (j : Nat) (hj : j < a.length) :
    mem (p + j) = a.getD j 0 := by
  rw [h.1 j (by simp; omega), List.getD_append _ _ _ _ hj]

/-- **A scan stops where its condition first fails**, reading only up to
there, when the condition fails on NUL. -/
theorem scan_holds (cond : UInt8 → Bool) (hcond : cond 0 = false) :
    ∀ {l : Bytes} {p : Int} {fuel : Nat}, Holds mem p l → l.length < fuel →
      ∃ rs, scan mem cond fuel p = some (p + (l.takeWhile cond).length, rs) ∧
        ∀ i ∈ rs, p ≤ i ∧ i ≤ p + (l.takeWhile cond).length
  | _, _, 0, _, hlen => absurd hlen (Nat.not_lt_zero _)
  | [], p, _ + 1, h, _ => by
    have h0 : mem p = 0 := by simpa using h.2
    exact ⟨[p], by simp [scan, h0, hcond], by simp⟩
  | c :: l, p, fuel + 1, h, hlen => by
    obtain ⟨hc, h'⟩ := h.cons
    by_cases hcc : cond c = true
    · have hlen' : l.length < fuel := by simp at hlen; omega
      obtain ⟨rs, hs, hb⟩ := scan_holds cond hcond h' hlen'
      refine ⟨p :: rs, ?_, fun i hi => ?_⟩
      · simp only [scan, hc, hcc, if_true, hs, Option.map_some', List.takeWhile_cons_of_pos hcc, List.length_cons]
        congr 2; omega
      rw [List.takeWhile_cons_of_pos hcc, List.length_cons]
      rcases List.mem_cons.1 hi with rfl | hi
      · push_cast; omega
      · have := hb i hi; push_cast at this ⊢; omega
    · exact ⟨[p], by simp [scan, hc, hcc], by simp [List.takeWhile_cons_of_neg hcc]⟩

/-- The bytes a line holds read back as the line. -/
theorem Holds.map_range {p : Int} {a b : Bytes} (h : Holds mem p (a ++ b)) :
    (List.range a.length).map (fun i : Nat => mem (p + i)) = a := by
  refine List.ext_getElem (by simp) fun i h₁ _ => ?_
  have hi : i < a.length := by simpa using h₁
  rw [List.getElem_map, List.getElem_range, h.getD i hi, List.getD_eq_getElem?_getD, List.getElem?_eq_getElem hi,
    Option.getD_some]

end Holds

/-- Over bytes with no NUL, a condition that also asks for a byte that is
not NUL takes what the condition alone takes. -/
theorem takeWhile_and_ne_zero (f : UInt8 → Bool) : ∀ {l : Bytes}, 0 ∉ l →
    l.takeWhile (fun c => f c && c != 0) = l.takeWhile f
  | [], _ => rfl
  | c :: l, hl => by
    simp only [List.mem_cons, not_or] at hl
    have hc : (c != 0) = true := by simpa using Ne.symm hl.1
    by_cases hf : f c = true
    · simp [List.takeWhile_cons, hf, hc, takeWhile_and_ne_zero f hl.2]
    · simp [List.takeWhile_cons, hf]

/-- **`read_spec_entry` on memory** does what `readSpecEntry` does: over a
line with no NUL it stores the run, or `nullptr` when there is none, and
leaves `buf_p` before the rest, reading only the line and its NUL. -/
theorem readSpecEntryAt_holds {mem : Int → UInt8} {l : Bytes} {p : Int} {fuel : Nat} (blk : Nat) (h : Holds mem p l)
    (hl : 0 ∉ l) (hfuel : l.length < fuel) :
    ∃ q rs, readSpecEntryAt mem fuel blk p =
        some (if (readSpecEntry l).1 = [] then none else some (blk, (readSpecEntry l).1), q, rs) ∧
      Holds mem q (readSpecEntry l).2 ∧ q + (readSpecEntry l).2.length = p + l.length ∧
      ∀ i ∈ rs, p ≤ i ∧ i ≤ p + l.length := by
  have hl₁ : l = l.takeWhile isSpace ++ l.dropWhile isSpace := (List.takeWhile_append_dropWhile _ _).symm
  have hl₂ : l.dropWhile isSpace = (readSpecEntry l).1 ++ (readSpecEntry l).2 :=
    (List.takeWhile_append_dropWhile _ _).symm
  have hlen : l.length = (l.takeWhile isSpace).length + (readSpecEntry l).1.length + (readSpecEntry l).2.length := by
    conv_lhs => rw [hl₁, hl₂]
    simp only [List.length_append]; omega
  have h' : Holds mem (p + (l.takeWhile isSpace).length) (l.dropWhile isSpace) := by rw [hl₁] at h; exact h.append
  have h'' : Holds mem (p + (l.takeWhile isSpace).length + (readSpecEntry l).1.length) (readSpecEntry l).2 := by
    rw [hl₂] at h'; exact h'.append
  have hl' : 0 ∉ l.dropWhile isSpace := fun hm => hl (hl₁ ▸ List.mem_append_right _ hm)
  obtain ⟨rs₁, hs₁, hb₁⟩ := scan_holds (fun c => isSpace c && c != 0) (by decide) h hfuel
  rw [takeWhile_and_ne_zero isSpace hl] at hs₁ hb₁
  obtain ⟨rs₂, hs₂, hb₂⟩ := scan_holds (fun c => !isSpace c && c != 0) (by decide) h'
    (lt_of_le_of_lt (List.Sublist.length_le (List.dropWhile_sublist _)) hfuel)
  rw [takeWhile_and_ne_zero _ hl'] at hs₂ hb₂
  have hw : (l.dropWhile isSpace).takeWhile (fun c => !isSpace c) = (readSpecEntry l).1 := rfl
  rw [hw] at hs₂ hb₂
  have hcopy := (show Holds mem _ ((readSpecEntry l).1 ++ (readSpecEntry l).2) from hl₂ ▸ h').map_range
  refine ⟨_, rs₁ ++ rs₂ ++ (List.range (readSpecEntry l).1.length).map fun i : Nat => p + (l.takeWhile isSpace).length + i,
    ?_, h'', by omega, fun i hi => ?_⟩
  · have hd : p + (l.takeWhile isSpace).length + (readSpecEntry l).1.length - (p + (l.takeWhile isSpace).length) =
        ((readSpecEntry l).1.length : Int) := by omega
    simp only [readSpecEntryAt, hs₁, hs₂, Option.bind_eq_bind, Option.some_bind, hd, Int.toNat_ofNat, ne_eq,
      Int.ofNat_eq_zero, List.length_eq_zero, List.map_map, Function.comp_def, hcopy, ite_not]
    rfl
  · simp only [List.mem_append, List.mem_map, List.mem_range] at hi
    rcases hi with (hi | hi) | ⟨j, hj, rfl⟩
    · have := hb₁ i hi; omega
    · have := hb₂ i hi; omega
    · omega

/-- At the end of the line a turn that still wants an entry fetches its
out-parameter and returns. -/
theorem entriesLoop_at_end {mem : Int → UInt8} {len : Int} {numArgs fuel turns items blk : Nat}
    (hi : items < numArgs) : entriesLoop mem len numArgs fuel (turns + 1) items blk (len - 1) = some ⟨[], 1, items, []⟩ := by
  simp [entriesLoop, hi]

/-- **The loop reads the line's runs.** From `buf_p = p`, before the rest `l`
of the line, and with turns enough, the loop adds to `items` the runs
`readSpecEntriesLoop` reads, stores them in that order as the blocks
`strndup` makes from `blk` on, fetches at most one out-parameter beyond what
is left, and reads only `[p, p + |l|]`. -/
theorem entriesLoop_holds {mem : Int → UInt8} {len : Int} {numArgs fuel : Nat} :
    ∀ (turns items blk : Nat) (p : Int) (l : Bytes), Holds mem p l → 0 ∉ l → p + l.length = len - 1 →
      l.length < fuel → numArgs - items < turns →
      ∃ r, entriesLoop mem len numArgs fuel turns items blk p = some r ∧
        r.ret = items + (readSpecEntriesLoop (numArgs - items) l).length ∧
        r.entries.take (r.ret - items) = ((readSpecEntriesLoop (numArgs - items) l).enumFrom blk).map some ∧
        r.fetched ≤ numArgs - items + 1 ∧ ∀ i ∈ r.reads, p ≤ i ∧ i ≤ p + l.length
  | 0, _, _, _, _, _, _, _, _, ht => absurd ht (Nat.not_lt_zero _)
  | turns + 1, items, blk, p, l, h, hl, hend, hfuel, ht => by
    by_cases hi : items < numArgs
    swap
    · -- every out-parameter is filled
      have hk : numArgs - items = 0 := by omega
      exact ⟨⟨[], 0, items, []⟩, by simp only [entriesLoop, hi, if_false],
        by simp [hk, readSpecEntriesLoop]⟩
    obtain ⟨k, hk⟩ : ∃ k, numArgs - items = k + 1 := ⟨numArgs - items - 1, by omega⟩
    cases l with
    | nil =>
      -- the end of the line
      have hp : p = len - 1 := by simpa using hend
      exact ⟨⟨[], 1, items, []⟩, hp ▸ entriesLoop_at_end hi, by simp [hk, readSpecEntriesLoop]⟩
    | cons c l₀ =>
      have hp : len - 1 ≠ p := by simp only [List.length_cons] at hend; omega
      obtain ⟨q, rs, hread, hq, hqlen, hrs⟩ := readSpecEntryAt_holds blk h hl hfuel
      by_cases hw : (readSpecEntry (c :: l₀)).1 = []
      · -- only blanks remain: nullptr is stored, and the next turn ends
        obtain ⟨t, rfl⟩ : ∃ t, turns = t + 1 := ⟨turns - 1, by omega⟩
        have hq' : q = len - 1 := by
          rw [readSpecEntry_snd_eq_nil hw, List.length_nil] at hqlen; omega
        refine ⟨⟨[none], 2, items, rs⟩, ?_, ?_⟩
        · simp only [entriesLoop, hi, ↓reduceIte, hp, hread, hw, hq', Option.pure_def, Option.bind_eq_bind,
            Option.some_bind, Option.isSome_none, Bool.false_eq_true, Nat.reduceAdd, List.append_nil]
        · exact ⟨by simp [hk, readSpecEntriesLoop, hw], by simp [hk, readSpecEntriesLoop, hw],
            show 2 ≤ numArgs - items + 1 by omega, hrs⟩
      · -- a run: it is stored and counted
        have hsub : List.Sublist (readSpecEntry (c :: l₀)).2 (c :: l₀) :=
          (List.dropWhile_sublist _).trans (List.dropWhile_sublist _)
        have hsublen := hsub.length_le
        obtain ⟨r, hr, hret, hent, hfet, hreads⟩ := @entriesLoop_holds mem len numArgs fuel turns (items + 1) (blk + 1) q _ hq
          (fun hm => hl (hsub.subset hm)) (by omega) (lt_of_le_of_lt hsublen hfuel) (by omega)
        have hk' : numArgs - (items + 1) = k := by omega
        have hloop : readSpecEntriesLoop (numArgs - items) (c :: l₀) =
            (readSpecEntry (c :: l₀)).1 :: readSpecEntriesLoop k (readSpecEntry (c :: l₀)).2 := by
          rw [hk, readSpecEntriesLoop, if_neg (by simpa using hw)]
        rw [hk'] at hret hent hfet
        refine ⟨⟨some (blk, (readSpecEntry (c :: l₀)).1) :: r.entries, r.fetched + 1, r.ret, rs ++ r.reads⟩, ?_, ?_, ?_,
          show r.fetched + 1 ≤ numArgs - items + 1 by omega, fun i hi => ?_⟩
        · simp only [entriesLoop, hi, ↓reduceIte, hp, hread, hw, Option.pure_def, Option.bind_eq_bind, Option.some_bind,
            Option.isSome_some, hr]
        · rw [hloop, hret, List.length_cons]; omega
        · have hd : r.ret - items = (r.ret - (items + 1)) + 1 := by omega
          rw [hd, List.take_succ_cons, hent, hloop, List.enumFrom_cons, List.map_cons]
        · rcases List.mem_append.1 hi with hi | hi
          · exact hrs i hi
          · have := hreads i hi; omega

/-- The line `getline` returned sits at offset 0, up to its first NUL. -/
theorem lineMem_holds (buf : Bytes) (outside : Int → UInt8) :
    Holds (lineMem buf outside) 0 (buf.takeWhile (· != 0)) := by
  generalize htw : buf.takeWhile (· != 0) = tw
  have hbuf : buf = tw ++ buf.dropWhile (· != 0) := by rw [← htw, List.takeWhile_append_dropWhile]
  have hlen : tw.length ≤ buf.length := by rw [hbuf, List.length_append]; omega
  have hmem : ∀ j : Nat, j ≤ buf.length → lineMem buf outside (0 + j) = buf.getD j 0 := by
    intro j hj; rw [lineMem, if_pos ⟨by omega, by omega⟩]; simp
  refine ⟨fun j hj => ?_, ?_⟩
  · rw [hmem j (by omega), hbuf, List.getD_append _ _ _ _ hj]
  · rw [hmem _ hlen, hbuf, List.getD_append_right _ _ _ _ (le_refl _), Nat.sub_self]
    cases hd : buf.dropWhile (· != 0) with
    | nil => rfl
    | cons c _ =>
      have := List.head_dropWhile_not (· != 0) buf (by simp [hd])
      simpa [hd] using this

/-- **Cutting the newline.** With `len = strlen(line_buf) ≥ 1`, the test at
`len - 1` cuts a trailing newline in memory, and `len - 1` is then the end of
the line without it. -/
theorem cutNewline_holds {mem : Int → UInt8} {l : Bytes} (h : Holds mem 0 l) (hne : l ≠ []) :
    Holds (if (mem (l.length - 1) == 10) = true then fun i => if i = l.length - 1 then 0 else mem i else mem) 0
        (stripNewline l) ∧
      (if (mem (l.length - 1) == 10) = true then (l.length : Int) else l.length + 1) - 1 = (stripNewline l).length := by
  obtain ⟨init, last, rfl⟩ : ∃ init last, l = init ++ [last] :=
    ⟨l.dropLast, l.getLast hne, (List.dropLast_append_getLast hne).symm⟩
  have hend : ((init ++ [last]).length : Int) - 1 = init.length := by simp
  have hlast : mem init.length = last := by simpa using h.1 init.length (by simp)
  rw [hend, hlast]
  by_cases hc : last = 10
  · subst hc
    simp only [stripNewline, List.getLast?_concat, List.dropLast_concat, if_true, beq_self_eq_true]
    refine ⟨⟨fun j hj => ?_, by simp⟩, by simp⟩
    have hj' : ((0 : Int) + j) ≠ init.length := by omega
    dsimp only; rw [if_neg hj', h.getD j hj]
  · have hc' : (last == 10) = false := by simpa using hc
    simp only [stripNewline, List.getLast?_concat, hc', Option.some.injEq, hc, if_false]
    exact ⟨h, by simp⟩

/-- **`read_spec_entries` on a `getline` buffer** does what the list reading
does, when the line up to the first NUL is not empty: it returns the number
of entries `readSpecEntries` reads and stores them in order, the i-th as the
block numbered i + 1, fetches at most one out-parameter more than
`num_args`, and reads and writes only `line_buf[0 .. strlen]`. -/
theorem readSpecEntriesAt_eq (buf : Bytes) (outside : Int → UInt8) (numArgs : Nat) (hne : cString buf ≠ []) :
    ∃ r, readSpecEntriesAt buf outside numArgs = some r ∧
      r.ret = (readSpecEntries buf numArgs).length ∧
      r.entries.take r.ret = ((readSpecEntries buf numArgs).enumFrom 1).map some ∧
      r.fetched ≤ numArgs + 1 ∧
      ∀ i ∈ r.reads ++ r.writes, 0 ≤ i ∧ i ≤ (cString buf).length := by
  have hlist := readSpecEntries_eq_runs buf numArgs
  unfold cString at hne hlist ⊢
  have h₀ := lineMem_holds buf outside
  have hlen : (buf.takeWhile (· != 0)).length ≤ buf.length := (List.takeWhile_prefix _).length_le
  have hl : 0 ∉ buf.takeWhile (· != 0) := fun h => by simpa using List.mem_takeWhile_imp h
  have hall : (buf.takeWhile (· != 0)).takeWhile (· != 0) = buf.takeWhile (· != 0) :=
    List.takeWhile_eq_self_iff.2 fun _ hx => List.mem_takeWhile_imp (p := fun x => x != 0) hx
  generalize buf.takeWhile (· != 0) = line at h₀ hne hlen hl hall hlist ⊢
  obtain ⟨r₀, hs₀, hb₀⟩ := scan_holds (· != 0) (by decide) h₀
    (show line.length < buf.length + numArgs + 2 by omega)
  simp only [hall, Int.zero_add] at hs₀ hb₀
  obtain ⟨hcut, hend⟩ := cutNewline_holds h₀ hne
  simp only [readSpecEntriesAt, hs₀, Option.bind_eq_bind, Option.some_bind]
  set nl := lineMem buf outside (line.length - 1) == 10
  set mem := if nl = true then fun i : Int => if i = line.length - 1 then 0 else lineMem buf outside i
    else lineMem buf outside
  set len : Int := if nl = true then line.length else line.length + 1
  have hwrites : ∀ i ∈ (if nl = true then [(line.length : Int) - 1] else []), 0 ≤ i ∧ i ≤ line.length := by
    have : 0 < line.length := List.length_pos.2 hne
    split
    · simp; omega
    · simp
  generalize (if nl = true then [(line.length : Int) - 1] else []) = writes at hwrites ⊢
  clear_value mem len
  have hsub : List.Sublist (stripNewline line) line := by
    unfold stripNewline; split
    · exact List.dropLast_sublist _
    · exact List.Sublist.refl _
  have htlen := hsub.length_le
  obtain ⟨r₁, hs₁, hb₁⟩ := scan_holds isSpace (by decide) hcut
    (show (stripNewline line).length < buf.length + numArgs + 2 by omega)
  simp only [hs₁, Int.zero_add, Option.some_bind] at hb₁ ⊢
  have hsplit := (List.takeWhile_append_dropWhile isSpace (stripNewline line)).symm
  have hdlen : ((stripNewline line).takeWhile isSpace).length + ((stripNewline line).dropWhile isSpace).length =
      (stripNewline line).length := by
    conv_rhs => rw [hsplit]
    exact (List.length_append _ _).symm
  have h' := (hsplit ▸ hcut).append
  rw [Int.zero_add] at h'
  have hpos : 0 < line.length := List.length_pos.2 hne
  have hreads : ∀ i ∈ r₀ ++ [(line.length : Int) - 1] ++ r₁ ++ [(((stripNewline line).takeWhile isSpace).length : Int)],
      0 ≤ i ∧ i ≤ line.length := by
    simp only [List.mem_append, List.mem_singleton]
    rintro i (((hi | rfl) | hi) | rfl)
    · exact hb₀ i hi
    · omega
    · have := hb₁ i hi; omega
    · omega
  have hpend : (((stripNewline line).takeWhile isSpace).length : Int) + ((stripNewline line).dropWhile isSpace).length =
      len - 1 := by omega
  generalize (((stripNewline line).takeWhile isSpace).length : Int) = p at *
  have hall : ∀ i ∈ r₀ ++ [(line.length : Int) - 1] ++ r₁ ++ [p] ++ writes, 0 ≤ i ∧ i ≤ line.length :=
    fun i hi => (List.mem_append.1 hi).elim (hreads i) (hwrites i)
  cases hd : (stripNewline line).dropWhile isSpace with
  | nil =>
    -- a blank line
    have hskip : isSkipped (stripNewline line) = true := by simp [isSkipped, hd]
    have hm : mem p = 0 := by simpa [hd] using h'.2
    exact ⟨_, if_pos (by simp [hm]), by simp [hlist, hskip], by simp [hlist, hskip], by simp, by simpa using hall⟩
  | cons c rest =>
    have hmem : ∀ x ∈ c :: rest, x ∈ line := fun x hx => hsub.subset ((List.dropWhile_sublist _).subset (hd ▸ hx))
    have hc := (hd ▸ h').cons.1
    have hc0 : c ≠ 0 := fun h0 => hl (h0 ▸ hmem c (List.mem_cons_self c rest))
    by_cases h35 : c = 35
    · -- a comment
      have hskip : isSkipped (stripNewline line) = true := by simp [isSkipped, hd, h35]
      exact ⟨_, if_pos (by simp [hc, h35]), by simp [hlist, hskip], by simp [hlist, hskip], by simp, by simpa using hall⟩
    · -- a line with fields
      have hskip : isSkipped (stripNewline line) = false := by simp [isSkipped, hd, h35]
      have hloop : readSpecEntries buf numArgs = readSpecEntriesLoop numArgs (c :: rest) := by
        rw [hlist, if_neg (by simp [hskip]), readSpecEntriesLoop_eq_take, ← hd, runs_dropWhile]
      have hrest : (c :: rest).length ≤ (stripNewline line).length := by rw [← hd]; omega
      rw [hd] at hpend
      obtain ⟨r, hr, hret, hent, hfet, hrd⟩ := @entriesLoop_holds mem len numArgs (buf.length + numArgs + 2)
        (buf.length + numArgs + 2) 0 1 p (c :: rest) (hd ▸ h')
        (fun h0 => hl (hmem 0 h0)) (by omega) (by omega) (by omega)
      rw [Nat.sub_zero, Nat.zero_add, ← hloop] at hret
      rw [Nat.sub_zero, Nat.sub_zero, ← hloop] at hent
      refine ⟨⟨r.ret, r.entries, r.fetched, r₀ ++ [(line.length : Int) - 1] ++ r₁ ++ [p] ++ r.reads, writes⟩,
        by simp [hc, h35, hc0, hr], hret, hent, by simpa using hfet, fun i hi => ?_⟩
      simp only [List.mem_append] at hi
      rcases hi with (hi | hi) | hi
      · exact hreads i (by simp only [List.mem_append]; exact hi)
      · have := hrd i hi; have := hb₁; omega
      · exact hwrites i hi

/-! ## What `read_spec_entries` returns -/

/-- **The first fields of a line.** On a buffer `getline` returns, whose line
up to the first NUL is not empty, `read_spec_entries` returns: 0 for a blank
line or a comment, and otherwise the number of runs of the line it could
take, at most `num_args`, having stored them in order, the i-th as the block
numbered i + 1 that `strndup` makes. The loader so takes a line's first two
runs as prefix and context: a line with fewer, or a `ctl.` prefix, changes
nothing; otherwise the prefix goes in after the entries at the front that
keep ahead of it, with the first node of its context, the nodes being kept,
or with a new node put first when no node has that context. -/
theorem readSpecEntriesAt_first_fields (buf : Bytes) (outside : Int → UInt8) (numArgs : Nat)
    (hne : cString buf ≠ []) :
    (∃ r, readSpecEntriesAt buf outside numArgs = some r ∧
      (isSkipped (stripNewline (cString buf)) = true → r.ret = 0) ∧
      (isSkipped (stripNewline (cString buf)) = false →
        r.ret = min numArgs (runs (stripNewline (cString buf))).length ∧
        r.entries.take r.ret = (((runs (stripNewline (cString buf))).take numArgs).enumFrom 1).map some)) ∧
    ∀ st : ContextsSplit,
      (isSkipped (stripNewline (cString buf)) = true ∨ (runs (stripNewline (cString buf))).length < 2 →
        initializeLine st buf = st) ∧
      ∀ pre context rest, isSkipped (stripNewline (cString buf)) = false →
        runs (stripNewline (cString buf)) = pre :: context :: rest →
        (isCtl pre = true → initializeLine st buf = st) ∧
        (isCtl pre = false → ∃ node : ContextListNode, node.context = context ∧
          (initializeLine st buf).prefixes =
            st.prefixes.takeWhile (keepsAhead pre) ++ ⟨pre, node⟩ :: st.prefixes.dropWhile (keepsAhead pre) ∧
          (st.contexts.find? (·.context == context) = some node ∧ (initializeLine st buf).contexts = st.contexts ∨
            (∀ n ∈ st.contexts, n.context ≠ context) ∧ node.id = st.contexts.length ∧
              (initializeLine st buf).contexts = node :: st.contexts)) := by
  have hlist := readSpecEntries_eq_runs buf
  refine ⟨?_, fun st => ⟨fun hs => initializeLine_of_length_ne ?_, fun pre context rest hskip hruns => ?_⟩⟩
  · obtain ⟨r, hr, hret, hent, -⟩ := readSpecEntriesAt_eq buf outside numArgs hne
    rw [hlist] at hret hent
    refine ⟨r, hr, fun hs => by simpa [hs] using hret, fun hs => ?_⟩
    simp only [hs, Bool.false_eq_true, if_false, List.length_take] at hret hent
    exact ⟨hret, hent⟩
  · rw [hlist]
    rcases hs with hs | hs
    · simp [hs]
    · split <;> simp only [List.length_nil, List.length_take] <;> omega
  · have h₂ : readSpecEntries buf 2 = [pre, context] := by rw [hlist, hskip, hruns]; rfl
    obtain ⟨hctl, hadd⟩ := @initializeLine_of_entries st buf pre context h₂
    refine ⟨hctl, fun hc => ?_⟩
    obtain ⟨node, hnode, hpre, hctx⟩ := hadd hc
    exact ⟨node, hnode, hpre.trans (listAddAfterLen_eq _ _ _), hctx⟩

/-- A buffer with blanks in front, three fields, a newline, its NUL, and
bytes after the NUL: `  ro.a u:x extra\n`, NUL, `zz w\n`. -/
def lineRoA : Bytes :=
  [32, 32, 114, 111, 46, 97, 32, 117, 58, 120, 32, 101, 120, 116, 114, 97, 10, 0, 122, 122, 32, 119, 10]

/-- Loaded so far: the context `u:x`, and the prefixes `ro.ab`, `ro` and `*`. -/
def stRo : ContextsSplit :=
  ⟨[⟨0, [117, 58, 120]⟩], [⟨[114, 111, 46, 97, 98], ⟨0, [117, 58, 120]⟩⟩, ⟨[114, 111], ⟨0, [117, 58, 120]⟩⟩,
    ⟨[42], ⟨0, [117, 58, 120]⟩⟩]⟩

/-- `lineRoA`, read for two entries, gives `ro.a` and `u:x` in blocks 1 and
2, the bytes after the NUL unread; loaded after `stRo`, `ro.a` goes in
between `ro.ab` and the shorter `ro`, with the node `u:x` already has. -/
theorem readSpecEntriesAt_ro_a :
    ∃ r, readSpecEntriesAt lineRoA (fun _ => 0) 2 = some r ∧ r.ret = 2 ∧
      r.entries.take 2 = [some (1, [114, 111, 46, 97]), some (2, [117, 58, 120])] ∧
      (initializeLine stRo lineRoA).prefixes.map (·.prefixStr) =
        [[114, 111, 46, 97, 98], [114, 111, 46, 97], [114, 111], [42]] ∧
      (initializeLine stRo lineRoA).contexts = stRo.contexts := by
  obtain ⟨⟨r, hr, -, hfields⟩, hload⟩ := readSpecEntriesAt_first_fields lineRoA (fun _ => 0) 2 (by decide)
  obtain ⟨hret, hent⟩ := hfields (by decide)
  have hret2 : r.ret = 2 := hret.trans (by decide)
  obtain ⟨-, hadd⟩ := (hload stRo).2 [114, 111, 46, 97] [117, 58, 120] [[101, 120, 116, 114, 97]] (by decide)
    (by decide)
  obtain ⟨node, -, hpre, hctx⟩ := hadd (by decide)
  rw [hret2] at hent
  refine ⟨r, hr, hret2, hent.trans (by decide), by simp only [hpre, List.map_append, List.map_cons]; decide, ?_⟩
  rcases hctx with ⟨-, hctx⟩ | ⟨hnew, -, -⟩
  · exact hctx
  · exact absurd rfl (hnew _ (List.mem_singleton_self _))

/-- **Where `read_spec_entries` leaves its inputs.** A buffer whose first
byte is NUL, `\0\n`, has `strlen` 0: the newline test reads `line_buf[-1]`,
and writes it when that byte is a newline. The line `a`, a blank and a
newline, with `num_args = 2`, as the loader calls it: after the entry `a`, an
empty entry is read into the second out-parameter, and the loop takes a third
`va_arg` before it sees the end. -/
theorem readSpecEntriesAt_out_of_bounds :
    (∃ r, readSpecEntriesAt [0, 10] (fun _ => 10) 2 = some r ∧ -1 ∈ r.reads ∧ -1 ∈ r.writes) ∧
    ∃ r, readSpecEntriesAt [97, 32, 10] (fun _ => 0) 2 = some r ∧ r.fetched = 3 :=
  ⟨⟨_, rfl, by decide, by decide⟩, ⟨_, rfl, rfl⟩⟩

/-- **Within the line.** Where the line up to the first NUL is not empty,
`read_spec_entries` reads and writes only `line_buf[0 .. strlen]`, and takes
at most one `va_arg` beyond `num_args`. -/
theorem readSpecEntriesAt_within_line (buf : Bytes) (outside : Int → UInt8) (numArgs : Nat)
    (hne : buf.takeWhile (· != 0) ≠ []) :
    ∃ r, readSpecEntriesAt buf outside numArgs = some r ∧ r.fetched ≤ numArgs + 1 ∧
      ∀ i ∈ r.reads ++ r.writes, 0 ≤ i ∧ i ≤ (buf.takeWhile (· != 0)).length :=
  let ⟨r, hr, _, _, hfet, hin⟩ := readSpecEntriesAt_eq buf outside numArgs hne
  ⟨r, hr, hfet, hin⟩

/-- The line `a`, a blank and a newline: its accesses stay in `[0, 3]`. -/
theorem readSpecEntriesAt_a_within : ∃ r, readSpecEntriesAt [97, 32, 10] (fun _ => 0) 2 = some r ∧
    r.fetched ≤ 3 ∧ ∀ i ∈ r.reads ++ r.writes, 0 ≤ i ∧ i ≤ 3 :=
  readSpecEntriesAt_within_line [97, 32, 10] (fun _ => 0) 2 (by decide)

end ContextsSplit

end SysProps
