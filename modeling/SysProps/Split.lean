import SysProps.Bytes

/-!
# Text-mode routing: `ContextsSplit`

Without a binary index, the library reads `property_contexts` files line by
line. Each line gives a name prefix and an SELinux context; the prefixes go
into one list, and routing a name takes the first entry of that list whose
prefix the name starts with, or whose prefix begins with `*`, the wildcard.
Entries with the same context string share one `ContextListNode`, and so one
area.

This module translates the loading and the lookup: `read_spec_entry`,
`read_spec_entries`, `ListAddAfterLen`, the loop of
`InitializePropertiesFromFile`, `GetPrefixNodeForName` and
`GetContextForName`. A file is the list of lines `getline` returns, each with
its newline but the last perhaps without one. Which files are read
(`InitializeProperties`), opening the areas and the allocation failures of
`strdup` are left out.

`ListAddAfterLen` keeps the list longest first, and moves a new entry before
every wildcard already there, as its comment says, "wildcards last". It places
a new wildcard, though, by its length alone.

**What is proved.** `wildcard_shadows_longer_prefix`: after the lines `a x`
and `*b w`, the name `ab` routes to `*b`, ahead of the loaded prefix `a`.
-/

namespace SysProps

/-! ## The lists -/

/-- A `ContextListNode`: its context string, and which node it is, by the
number of nodes made before it. -/
structure ContextListNode where
  id : Nat
  context : Bytes
deriving DecidableEq, Repr

/-- A `PrefixNode`: a prefix and the node of its context. -/
structure PrefixNode where
  prefixStr : Bytes
  context : ContextListNode
deriving DecidableEq, Repr

/-- `prefix[0] == '*'`. -/
def PrefixNode.isWildcard (n : PrefixNode) : Bool := n.prefixStr.head? == some 42

/-- What a `ContextsSplit` builds from the files: `contexts_`, newest first,
and `prefixes_`. -/
structure ContextsSplit where
  contexts : List ContextListNode
  prefixes : List PrefixNode
deriving DecidableEq, Repr

namespace ContextsSplit

/-! ## Reading a line -/

/-- `isspace(c)` in the C locale: space, and tab through carriage return. -/
def isSpace (c : UInt8) : Bool := c == 32 || (9 ≤ c && c ≤ 13)

/-- `read_spec_entry(&entry, &ptr, &len)`: skip blanks, then take the run of
non-blanks; the entry, and what follows it. -/
def readSpecEntry (s : Bytes) : Bytes × Bytes :=
  ((s.dropWhile isSpace).takeWhile (!isSpace ·), (s.dropWhile isSpace).dropWhile (!isSpace ·))

/-- An empty entry is read only at the end of the line. -/
theorem readSpecEntry_snd_eq_nil {s : Bytes} (h : (readSpecEntry s).1 = []) : (readSpecEntry s).2 = [] := by
  cases ht : s.dropWhile isSpace with
  | nil => simp [readSpecEntry, ht]
  | cons c t =>
    have hc : isSpace c = false := by simpa [ht] using List.head_dropWhile_not isSpace s (by simp [ht])
    simp [readSpecEntry, ht, hc] at h

/-- The loop of `read_spec_entries` while `items < num_args`, over the rest of
the line. An empty entry means the line ran out, which the next turn reports,
so it ends the loop. -/
def readSpecEntriesLoop : Nat → Bytes → List Bytes
  | 0, _ => []
  | _ + 1, [] => []
  | k + 1, rest@(_ :: _) =>
    if (readSpecEntry rest).1.length = 0 then []
    else (readSpecEntry rest).1 :: readSpecEntriesLoop k (readSpecEntry rest).2

/-- The C string a buffer holds: its bytes up to the first NUL. -/
def cString (buf : Bytes) : Bytes := buf.takeWhile (· != 0)

/-- `read_spec_entries(line_buf, num_args, ...)`: the entries it fills in, in
order; their number is what it returns. It reads `line_buf` as a C string,
up to its first NUL; a newline just before that NUL is cut off, and a line
that is blank or starts with `#` gives none. -/
def readSpecEntries (lineBuf : Bytes) (numArgs : Nat) : List Bytes :=
  let line := cString lineBuf
  let line := if line.getLast? = some 10 then line.dropLast else line
  match line.dropWhile isSpace with
  | [] => []
  | c :: rest => if c = 35 then [] else readSpecEntriesLoop numArgs (c :: rest)

/-! ## Loading -/

/-- `ListAddAfterLen(&list, prefix, context)`: before the first entry whose
prefix is shorter or a wildcard, else at the end. -/
def listAddAfterLen : List PrefixNode → Bytes → ContextListNode → List PrefixNode
  | [], pre, ctx => [⟨pre, ctx⟩]
  | n :: rest, pre, ctx =>
    if n.prefixStr.length < pre.length ∨ n.isWildcard then ⟨pre, ctx⟩ :: n :: rest
    else n :: listAddAfterLen rest pre ctx

/-- An entry that a new entry for `pre` goes after: one no shorter than `pre`
and not a wildcard. -/
def keepsAhead (pre : Bytes) (n : PrefixNode) : Bool := !(decide (n.prefixStr.length < pre.length) || n.isWildcard)

/-- `ListAddAfterLen` puts the new entry after the run of entries at the
front that keep ahead of it, and before the rest. -/
theorem listAddAfterLen_eq (l : List PrefixNode) (pre : Bytes) (ctx : ContextListNode) :
    listAddAfterLen l pre ctx = l.takeWhile (keepsAhead pre) ++ ⟨pre, ctx⟩ :: l.dropWhile (keepsAhead pre) := by
  induction l with
  | nil => rfl
  | cons n rest ih =>
    by_cases h : n.prefixStr.length < pre.length ∨ n.isWildcard
    · have hk : keepsAhead pre n = false := by
        rw [keepsAhead, Bool.not_eq_false', Bool.or_eq_true, decide_eq_true_eq]; exact h
      simp [listAddAfterLen, h, List.takeWhile_cons, List.dropWhile_cons, hk]
    · have hk : keepsAhead pre n = true := by
        rw [keepsAhead, Bool.not_eq_true', Bool.or_eq_false_iff, decide_eq_false_iff_not, ← Bool.not_eq_true]
        exact not_or.1 h
      simp [listAddAfterLen, h, List.takeWhile_cons, List.dropWhile_cons, hk, ih]

/-- Before any file is read. -/
def empty : ContextsSplit := ⟨[], []⟩

/-- `!strncmp(prop_prefix, "ctl.", 4)`. -/
def isCtl (pre : Bytes) : Bool := [99, 116, 108, 46].isPrefixOf pre

/-- One turn of the loop of `InitializePropertiesFromFile`: a line with a
prefix and a context, not for `ctl.`, adds a prefix entry, with the context's
node if one has that string and a new node otherwise. -/
def initializeLine (st : ContextsSplit) (lineBuf : Bytes) : ContextsSplit :=
  match readSpecEntries lineBuf 2 with
  | [pre, context] =>
    if isCtl pre then st
    else match st.contexts.find? (·.context == context) with
      | some node => { st with prefixes := listAddAfterLen st.prefixes pre node }
      | none =>
        let node : ContextListNode := ⟨st.contexts.length, context⟩
        { contexts := node :: st.contexts, prefixes := listAddAfterLen st.prefixes pre node }
  | _ => st

/-- A line that does not give two entries changes nothing. -/
theorem initializeLine_of_length_ne {st : ContextsSplit} {lineBuf : Bytes}
    (h : (readSpecEntries lineBuf 2).length ≠ 2) : initializeLine st lineBuf = st := by
  unfold initializeLine
  split
  · rename_i heq; rw [heq] at h; exact absurd rfl h
  · rfl

/-- **What a line with a prefix and a context adds.** Nothing when the prefix
is for `ctl.`; otherwise a prefix entry where `ListAddAfterLen` puts it, with
the first node of that context if there is one, the nodes being kept, and
else with a new node, numbered by the nodes there were, put first. -/
theorem initializeLine_of_entries {st : ContextsSplit} {lineBuf pre context : Bytes}
    (h : readSpecEntries lineBuf 2 = [pre, context]) :
    (isCtl pre = true → initializeLine st lineBuf = st) ∧
    (isCtl pre = false → ∃ node : ContextListNode, node.context = context ∧
      (initializeLine st lineBuf).prefixes = listAddAfterLen st.prefixes pre node ∧
      (st.contexts.find? (·.context == context) = some node ∧ (initializeLine st lineBuf).contexts = st.contexts ∨
        (∀ n ∈ st.contexts, n.context ≠ context) ∧ node.id = st.contexts.length ∧
          (initializeLine st lineBuf).contexts = node :: st.contexts)) := by
  refine ⟨fun hc => by simp only [initializeLine, h, hc, if_true], fun hc => ?_⟩
  simp only [initializeLine, h, hc, Bool.false_eq_true, if_false]
  cases hf : st.contexts.find? (·.context == context) with
  | some node =>
    have hnode : node.context = context := by simpa using List.find?_some hf
    exact ⟨node, hnode, rfl, .inl ⟨rfl, rfl⟩⟩
  | none =>
    exact ⟨⟨st.contexts.length, context⟩, rfl, rfl, .inr ⟨fun n hn heq => by
      simpa [heq] using List.find?_eq_none.1 hf n hn, rfl, rfl⟩⟩

/-- `InitializePropertiesFromFile(filename)` over the file's lines. -/
def initializePropertiesFromFile (st : ContextsSplit) (lines : List Bytes) : ContextsSplit :=
  lines.foldl initializeLine st

/-! ## Routing -/

/-- `GetPrefixNodeForName(name)`: the first entry that is a wildcard or whose
prefix `strncmp` finds at the start of `name`. -/
def getPrefixNodeForName (st : ContextsSplit) (name : Bytes) : Option PrefixNode :=
  st.prefixes.find? fun l => l.isWildcard || cstrncmp l.prefixStr.length l.prefixStr name == .eq

/-- `GetContextForName(name)`. -/
def getContextForName (st : ContextsSplit) (name : Bytes) : Option Bytes :=
  (getPrefixNodeForName st name).map (·.context.context)

/-- **A wildcard ahead of a longer match.** After the lines `a x` and `*b w`,
the prefix list is `*b`, `a`: the wildcard went in by its length, before the
shorter `a`. The name `ab`, which starts with the loaded prefix `a`, routes to
`*b` and context `w`. -/
theorem wildcard_shadows_longer_prefix :
    (empty.initializePropertiesFromFile [[97, 32, 120, 10], [42, 98, 32, 119, 10]]).prefixes.map
        (·.prefixStr) = [[42, 98], [97]] ∧
      ((empty.initializePropertiesFromFile [[97, 32, 120, 10], [42, 98, 32, 119, 10]]).getPrefixNodeForName
        [97, 98]).map (·.prefixStr) = some [42, 98] ∧
      (empty.initializePropertiesFromFile [[97, 32, 120, 10], [42, 98, 32, 119, 10]]).getContextForName
        [97, 98] = some [119] := by
  decide

end ContextsSplit

end SysProps
