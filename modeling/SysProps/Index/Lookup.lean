import Mathlib.Algebra.Group.Int
import SysProps.Bytes

/-!
# The binary index: `property_info_parser`

With a serialized `property_info` file, `ContextsSerialized` routes a name
through a trie of name segments. Each node carries, in its
`property_entry`, its segment and perhaps a context and a type; its child
nodes are sorted by `strcmp` of their names; its prefix entries are matched
against what remains of the name in array order; its exact-match entries are
tried at the node where the walk stops.

This module translates the lookup: `Find`, `TrieNode::FindChildForString`,
`PropertyInfoArea::CheckPrefixMatch`, `GetPropertyInfoIndexes` and
`ContextsSerialized::GetPropAreaForName`. The file's byte layout (offsets,
`uint32_t` arrays, the strings and counts it points to) is read here as the
tree of records it encodes, each array a list in its order; a string is the
bytes of a C string before its NUL. The types array, `GetPropertyInfo`,
`FindContextIndex`, `FindTypeIndex` and `LoadPath` are left out.

`ContextsSerialized` makes one context node per context of the index;
`GetPropAreaForName` opens the node it selects when it is not mapped yet, and
returns what the node then maps. The node is named here by its index; whether
its mapping exists after the open is a flag of the node.

`Find` is translated twice: `findInt` runs the code's `int` arithmetic,
with the `uint32_t` length wrapped into `top` and every signed overflow
undefined, and `FindChildForString` is built on it; `find` is the same
search on natural numbers. Up to `2^30` entries they agree (`findInt_eq`),
so no sum overflows, and the proofs about the child lookup go through
`find` (`findChildForString_eq`).

**What is proved.** One spec lemma per function: `find` answers an index
where its comparison is `.eq`, and answers none only when, on a comparison
that orders the array, there is none (`findLoop_none`);
`findChildForString`'s comparison is `strcmp` of the child's name and the
segment (`childCmp_eq_strcmp`), so over up to `2^30` children sorted by
`strcmp` it finds a child exactly when one has the segment for its name, and
only such a child (`find_is_binary_search`); a prefix entry is matched exactly when the
name starts with it (`cstrncmp_length_eq_iff`).
-/

namespace SysProps

namespace Index

/-- `~0u`: no context, or no type. -/
def noIndex : Nat := 2 ^ 32 - 1

/-- A `PropertyEntry`: its name, `namelen`, and a context and a type, each an
index or `~0u`. -/
structure PropertyEntry where
  name : Bytes
  namelen : Nat
  contextIndex : Nat
  typeIndex : Nat
deriving DecidableEq, Repr

/-- A `TrieNode`: its `property_entry`, whose name is the node's segment and
whose context and type the node carries; its child nodes; its prefix entries;
its exact-match entries. -/
inductive TrieNode where
  | mk (propertyEntry : PropertyEntry) (childNodes : List TrieNode) (prefixes exactMatches : List PropertyEntry)

namespace TrieNode

/-- `node_property_entry()`. -/
def propertyEntry : TrieNode → PropertyEntry
  | mk e _ _ _ => e

/-- The children, `child_node(0)` to `child_node(num_child_nodes - 1)`. -/
def childNodes : TrieNode → List TrieNode
  | mk _ cs _ _ => cs

/-- `prefix(0)` to `prefix(num_prefixes() - 1)`. -/
def prefixes : TrieNode → List PropertyEntry
  | mk _ _ ps _ => ps

/-- `exact_match(0)` to `exact_match(num_exact_matches() - 1)`. -/
def exactMatches : TrieNode → List PropertyEntry
  | mk _ _ _ xs => xs

/-- `name()`. -/
def name (n : TrieNode) : Bytes := n.propertyEntry.name

/-- `context_index()`. -/
def contextIndex (n : TrieNode) : Nat := n.propertyEntry.contextIndex

/-- `type_index()`. -/
def typeIndex (n : TrieNode) : Nat := n.propertyEntry.typeIndex

end TrieNode

/-- A `PropertyInfoArea`: `num_contexts()` and `root_node()`. -/
structure PropertyInfoArea where
  numContexts : Nat
  rootNode : TrieNode

/-! ## `Find` -/

/-- The loop of `Find`, on `bottom = lo` and `top = hi - 1`: while
`top >= bottom`, compare at `search = (top + bottom) / 2`, answer it on `0`,
and otherwise keep the half that can still hold a match. Each turn shrinks
`hi - lo`, so `fuel` of `hi - lo` never runs out. -/
def findLoop (f : Nat → Ordering) : Nat → Nat → Nat → Option Nat
  | 0, _, _ => none
  | fuel + 1, lo, hi =>
    if lo < hi then
      let search := (lo + hi - 1) / 2
      match f search with
      | .eq => some search
      | .lt => findLoop f fuel (search + 1) hi
      | .gt => findLoop f fuel lo search
    else none

/-- `Find(array_length, f)`: an index where `f` answers `0`, or `-1`. -/
def find (arrayLength : Nat) (f : Nat → Ordering) : Option Nat := findLoop f arrayLength 0 arrayLength

/-- `find` answers only an index where `f` is `.eq`, inside the array. -/
theorem findLoop_some {f : Nat → Ordering} :
    ∀ {fuel lo hi i : Nat}, findLoop f fuel lo hi = some i → f i = .eq ∧ i < hi
  | 0, _, _, _, h => by cases h
  | fuel + 1, lo, hi, i, h => by
    simp only [findLoop] at h
    split at h
    · split at h
      · rename_i heq; cases h; exact ⟨heq, by omega⟩
      · exact findLoop_some h
      · exact (findLoop_some h).imp_right (by omega)
    · cases h

section Sorted

variable {f : Nat → Ordering} {n : Nat}

/-- On a comparison that orders the array (`.lt` before the place of the key,
`.gt` after it), `find` answers none only when no index in `[lo, hi)` is
`.eq`. -/
theorem findLoop_none (hlt : ∀ i j, j ≤ i → i < n → f i = .lt → f j = .lt)
    (hgt : ∀ i j, i ≤ j → j < n → f i = .gt → f j = .gt) :
    ∀ {fuel lo hi : Nat}, hi ≤ n → hi - lo ≤ fuel → findLoop f fuel lo hi = none →
      ∀ i, lo ≤ i → i < hi → f i ≠ .eq
  | 0, _, _, _, hfuel, _, _, _, _ => by omega
  | fuel + 1, lo, hi, hn, hfuel, h, i, hlo, hhi => by
    simp only [findLoop, if_pos (show lo < hi by omega)] at h
    split at h
    · cases h
    · rename_i heq
      by_cases hi' : i ≤ (lo + hi - 1) / 2
      · rw [hlt _ i hi' (by omega) heq]; exact nofun
      · exact findLoop_none hlt hgt hn (by omega) h i (by omega) hhi
    · rename_i heq
      by_cases hi' : (lo + hi - 1) / 2 ≤ i
      · rw [hgt _ i hi' (by omega) heq]; exact nofun
      · exact findLoop_none hlt hgt (by omega) (by omega) h i hlo (by omega)

theorem find_none (hlt : ∀ i j, j ≤ i → i < n → f i = .lt → f j = .lt)
    (hgt : ∀ i j, i ≤ j → j < n → f i = .gt → f j = .gt) (h : find n f = none) : ∀ i < n, f i ≠ .eq :=
  fun i hi => findLoop_none hlt hgt le_rfl (by omega) h i (Nat.zero_le _) hi

end Sorted

/-! ## `Find` on `int`s -/

/-- An `int` result of `+` or `-`: the value when an `int` holds it, none on
signed overflow, which is undefined. -/
def intResult (x : Int) : Option Int := if -2 ^ 31 ≤ x ∧ x < 2 ^ 31 then some x else none

theorem intResult_of_lt {x : Int} (h₁ : -2 ^ 31 ≤ x) (h₂ : x < 2 ^ 31) : intResult x = some x :=
  if_pos ⟨h₁, h₂⟩

/-- `int top = array_length - 1`: the `uint32_t` subtraction wraps, and the
conversion to `int` is modulo `2^32`. -/
def topInit (arrayLength : Nat) : Int :=
  let top : Nat := (2 ^ 32 - 1 + arrayLength) % 2 ^ 32
  if top < 2 ^ 31 then top else (top : Int) - 2 ^ 32

theorem topInit_eq {n : Nat} (h : n ≤ 2 ^ 31) : topInit n = n - 1 := by
  simp only [topInit]
  split <;> omega

/-- The loop of `Find` as the code runs it, on `int` `bottom` and `top`;
`top + bottom`, `search + 1` and `search - 1` are each checked for overflow.
None when one overflows or the `fuel` turns run out. -/
def findLoopInt (f : Int → Ordering) : Nat → Int → Int → Option Int
  | 0, _, _ => none
  | fuel + 1, bottom, top =>
    if top ≥ bottom then
      (intResult (top + bottom)).bind fun sum =>
        let search := sum.tdiv 2
        match f search with
        | .eq => some search
        | .lt => (intResult (search + 1)).bind fun bottom => findLoopInt f fuel bottom top
        | .gt => (intResult (search - 1)).bind fun top => findLoopInt f fuel bottom top
    else some (-1)

/-- `Find(array_length, f)` as the code runs it: `search`, or `-1`. Each turn
shrinks `top - bottom`, so `array_length + 1` turns are enough. -/
def findInt (arrayLength : Nat) (f : Int → Ordering) : Option Int :=
  findLoopInt f (arrayLength + 1) 0 (topInit arrayLength)

section FindInt

variable {f : Int → Ordering}

theorem findLoopInt_of_lt {fuel : Nat} {bottom top : Int} (h : top < bottom) :
    findLoopInt f (fuel + 1) bottom top = some (-1) := by
  rw [findLoopInt, if_neg (by omega)]

/-- Within `2^30` entries nothing overflows, and the loop on `int`s takes
the turns `findLoop` takes, answering `-1` where it answers none. -/
theorem findLoopInt_eq : ∀ {fuel lo hi : Nat}, lo ≤ hi → hi ≤ 2 ^ 30 → hi - lo ≤ fuel →
    findLoopInt f (fuel + 1) lo (hi - 1) = some (((findLoop (fun i => f i) fuel lo hi).map Int.ofNat).getD (-1))
  | 0, lo, hi, hle, _, hfuel => by
    obtain rfl : lo = hi := by omega
    rw [findLoopInt_of_lt (by omega)]; rfl
  | fuel + 1, lo, hi, hle, hn, hfuel => by
    by_cases hlt : lo < hi
    · obtain ⟨s, hs⟩ : ∃ s, s = (lo + hi - 1) / 2 := ⟨_, rfl⟩
      have hsearch : ((hi : Int) - 1 + lo).tdiv 2 = s := by
        rw [Int.tdiv_eq_ediv (by omega) (by omega)]; omega
      rw [findLoopInt, if_pos (by omega), intResult_of_lt (by omega) (by omega), Option.some_bind]
      simp only [findLoop, if_pos hlt, hsearch, ← hs]
      cases hf : f s
      · simp (disch := omega) only [intResult_of_lt, Option.some_bind]
        exact_mod_cast @findLoopInt_eq fuel (s + 1) hi (by omega) hn (by omega)
      · rfl
      · simp (disch := omega) only [intResult_of_lt, Option.some_bind]
        exact @findLoopInt_eq fuel lo s (by omega) (by omega) (by omega)
    · obtain rfl : lo = hi := by omega
      rw [findLoopInt_of_lt (by omega)]
      simp only [findLoop, lt_irrefl, if_false, Option.map_none', Option.getD_none]

/-- Within `2^30` entries `Find` on `int`s answers what `find` answers, with
`-1` for none. -/
theorem findInt_eq {n : Nat} (hn : n ≤ 2 ^ 30) :
    findInt n f = some (((find n fun i => f i).map Int.ofNat).getD (-1)) := by
  rw [findInt, topInit_eq (by omega)]
  exact_mod_cast findLoopInt_eq (Nat.zero_le n) hn (by omega)

/-- `Find` on `int`s over a comparison that orders the array: an index where
it answers `0`, or `-1` when there is none. -/
theorem findInt_spec {n : Nat} (hn : n ≤ 2 ^ 30)
    (hlt : ∀ i j : Nat, j ≤ i → i < n → f i = .lt → f j = .lt)
    (hgt : ∀ i j : Nat, i ≤ j → j < n → f i = .gt → f j = .gt) :
    (∃ i : Nat, i < n ∧ f i = .eq ∧ findInt n f = some i) ∨
      (findInt n f = some (-1) ∧ ∀ i : Nat, i < n → f i ≠ .eq) := by
  rw [findInt_eq hn]
  cases h : find n (fun i : Nat => f i) with
  | some i => exact .inl ⟨i, (findLoop_some h).2, (findLoop_some h).1, rfl⟩
  | none => exact .inr ⟨rfl, find_none hlt hgt h⟩

end FindInt

/-! ## Comparing names -/

/-- A prefix entry matches exactly when the name starts with it:
`strncmp(prefix, remaining_name, prefix_len)` over the prefix's length. -/
theorem cstrncmp_length_eq_iff : ∀ {p r : Bytes}, 0 ∉ p → p.length ≤ r.length →
    (cstrncmp p.length p r = .eq ↔ p <+: r)
  | [], _, _, _ => by simp only [List.length_nil, cstrncmp, List.nil_prefix]
  | _ :: _, [], _, h => by simp at h
  | x :: xs, y :: ys, hp, h => by
    simp only [List.mem_cons, not_or] at hp
    simp only [List.length_cons, cstrncmp, List.headD_cons, List.tail_cons, List.cons_prefix_cons]
    by_cases hxy : x = y
    · subst hxy
      simp only [ne_eq, not_true_eq_false, if_false, Ne.symm hp.1, true_and]
      exact cstrncmp_length_eq_iff hp.2 (by simpa using h)
    · simp only [ne_eq, hxy, not_false_eq_true, if_true, compare_uint8_ne_eq hxy, false_and]

/-- The comparison `FindChildForString` gives `Find`:
`strncmp(child_name, name, namelen)`, except that a child name running on
past `namelen` compares greater. -/
def childCmp (childName name : Bytes) (namelen : Nat) : Ordering :=
  let cmp := cstrncmp namelen childName name
  if cmp = .eq ∧ childName.getD namelen 0 ≠ 0 then .gt else cmp

/-- Against a segment followed by more of the name, `childCmp` is `strcmp` of
the child's name and the segment. -/
theorem childCmp_eq_strcmp {rest : Bytes} : ∀ {child seg : Bytes}, 0 ∉ child → 0 ∉ seg →
    childCmp child (seg ++ rest) seg.length = strcmp child seg
  | [], [], _, _ => rfl
  | c :: _, [], hc, _ => by
    have hc0 : c.toNat ≠ 0 := toNat_ne_zero fun e => hc (e ▸ List.mem_cons_self _ _)
    have : compare c 0 = .gt := compare_uint8_gt.2 (by rw [UInt8.toNat_zero]; omega)
    simp only [childCmp, List.length_nil, cstrncmp, List.getD_cons_zero, strcmp, this, true_and, ite_eq_left_iff,
      not_not]
    exact fun h => absurd h (fun e => hc (e ▸ List.mem_cons_self _ _))
  | [], s :: _, _, hs => by
    have hs0 : s ≠ 0 := fun e => hs (e ▸ List.mem_cons_self _ _)
    simp only [childCmp, List.length_cons, cstrncmp, List.headD_nil, List.cons_append, List.headD_cons,
      ne_eq, Ne.symm hs0, not_false_eq_true, if_true, compare_uint8_ne_eq (Ne.symm hs0), false_and, if_false,
      strcmp]
  | c :: cs, s :: ss, hc, hs => by
    simp only [List.mem_cons, not_or] at hc hs
    by_cases hcs : c = s
    · subst hcs
      have ih : childCmp cs (ss ++ rest) ss.length = strcmp cs ss := childCmp_eq_strcmp hc.2 hs.2
      simp only [childCmp, List.length_cons, cstrncmp, List.cons_append, List.headD_cons, List.tail_cons,
        ne_eq, not_true_eq_false, if_false, Ne.symm hc.1, List.getD_cons_succ, strcmp] at ih ⊢
      exact ih
    · simp only [childCmp, List.length_cons, cstrncmp, List.cons_append, List.headD_cons, ne_eq, hcs,
        not_false_eq_true, if_true, compare_uint8_ne_eq hcs, false_and, if_false, strcmp]

/-- `strchr(s, '.')`, as the offset of the `'.'` it finds. -/
def strchrDot : Bytes → Option Nat
  | [] => none
  | c :: cs => if c = dot then some 0 else (strchrDot cs).map (· + 1)

theorem strchrDot_eq_none : ∀ {s : Bytes}, strchrDot s = none → dot ∉ s
  | [], _ => List.not_mem_nil _
  | c :: cs, h => by
    simp only [strchrDot] at h
    split at h
    · cases h
    · rename_i hc
      simp only [Option.map_eq_none'] at h
      simp only [List.mem_cons, not_or]
      exact ⟨Ne.symm hc, strchrDot_eq_none h⟩

/-- Where `strchr` finds a `'.'`, the name is a segment, the `'.'`, and the rest. -/
theorem strchrDot_eq_some : ∀ {s : Bytes} {k : Nat}, strchrDot s = some k →
    ∃ seg rest, s = seg ++ dot :: rest ∧ dot ∉ seg ∧ seg.length = k
  | [], _, h => by cases h
  | c :: cs, k, h => by
    simp only [strchrDot] at h
    split at h
    · rename_i hc
      cases h; subst hc; exact ⟨[], cs, rfl, List.not_mem_nil _, rfl⟩
    · rename_i hc
      obtain ⟨k', hk', rfl⟩ := Option.map_eq_some'.mp h
      obtain ⟨seg, rest, rfl, hseg, rfl⟩ := strchrDot_eq_some hk'
      refine ⟨c :: seg, rest, rfl, ?_, rfl⟩
      simp only [List.mem_cons, not_or]
      exact ⟨Ne.symm hc, hseg⟩

/-! ## The lookup -/

/-- `TrieNode::FindChildForString(name, namelen, &child)`: `Find` over the
children, comparing each child's name with the first `namelen` bytes of
`name`; the child at the index it answers, or none for `-1`, and none too
when an `int` in `Find` overflows. -/
def TrieNode.findChildForString (node : TrieNode) (name : Bytes) (namelen : Nat) : Option TrieNode :=
  (findInt node.childNodes.length fun i => childCmp ((node.childNodes.map TrieNode.name).getD i.toNat []) name namelen).bind
    fun i => if i = -1 then none else node.childNodes[i.toNat]?

section Children

variable {node : TrieNode} {seg rest : Bytes}

/-- Within `2^30` children nothing overflows, and `FindChildForString` takes
the child at the index `find` answers. -/
theorem findChildForString_eq {name : Bytes} {namelen : Nat} (hn : node.childNodes.length ≤ 2 ^ 30) :
    node.findChildForString name namelen =
      (find node.childNodes.length fun i => childCmp ((node.childNodes.map TrieNode.name).getD i []) name namelen).bind
        fun i => node.childNodes[i]? := by
  rw [TrieNode.findChildForString, findInt_eq hn]
  simp only [Int.toNat_ofNat]
  cases find node.childNodes.length _ with
  | none => rfl
  | some i => simp only [Option.map_some', Option.getD_some, Option.some_bind]; rfl

/-- At each index, the comparison `FindChildForString` gives `Find` is
`strcmp` of that child's name and the segment. -/
theorem childCmp_at (hnames : ∀ ch ∈ node.childNodes, 0 ∉ ch.name) (hseg : 0 ∉ seg) {i : Nat}
    (hi : i < node.childNodes.length) :
    childCmp ((node.childNodes.map TrieNode.name).getD i []) (seg ++ rest) seg.length =
      strcmp node.childNodes[i].name seg := by
  simp only [List.getD_eq_getElem?_getD, List.getElem?_map, List.getElem?_eq_getElem hi, Option.map_some',
    Option.getD_some]
  exact childCmp_eq_strcmp (hnames _ (List.getElem_mem hi)) hseg

/-- The child `FindChildForString` finds has the segment for its name. -/
theorem findChildForString_mem_name (hn : node.childNodes.length ≤ 2 ^ 30) (hnames : ∀ ch ∈ node.childNodes, 0 ∉ ch.name)
    (hseg : 0 ∉ seg) {ch : TrieNode} (h : node.findChildForString (seg ++ rest) seg.length = some ch) :
    ch ∈ node.childNodes ∧ ch.name = seg := by
  rw [findChildForString_eq hn] at h
  obtain ⟨i, hi, hch⟩ := Option.bind_eq_some.mp h
  obtain ⟨heq, hlt⟩ := findLoop_some hi
  have hi' : i < node.childNodes.length := hlt
  rw [List.getElem?_eq_getElem hi', Option.some.injEq] at hch
  subst hch
  rw [childCmp_at hnames hseg hi', strcmp_eq_iff (hnames _ (List.getElem_mem hi')) hseg] at heq
  exact ⟨List.getElem_mem hi', heq⟩

/-- Over children sorted by `strcmp`, repeats allowed, `FindChildForString`
finds a child exactly when one has the segment for its name. -/
theorem findChildForString_isSome_iff (hn : node.childNodes.length ≤ 2 ^ 30)
    (hnames : ∀ ch ∈ node.childNodes, 0 ∉ ch.name) (hseg : 0 ∉ seg)
    (hsorted : node.childNodes.Pairwise fun a b => strcmp a.name b.name ≠ .gt) :
    (node.findChildForString (seg ++ rest) seg.length).isSome ↔ ∃ ch ∈ node.childNodes, ch.name = seg := by
  refine ⟨fun h => ?_, fun ⟨ch, hch, hname⟩ => ?_⟩
  · obtain ⟨ch, hch⟩ := Option.isSome_iff_exists.mp h
    exact ⟨ch, findChildForString_mem_name hn hnames hseg hch⟩
  rw [findChildForString_eq hn]
  cases hf : find node.childNodes.length
      (fun i => childCmp ((node.childNodes.map TrieNode.name).getD i []) (seg ++ rest) seg.length) with
  | some i =>
    have hi : i < node.childNodes.length := (findLoop_some hf).2
    simp only [hf, Option.some_bind, List.getElem?_eq_getElem hi, Option.isSome_some]
  | none =>
    have hsort := List.pairwise_iff_getElem.mp hsorted
    have hname' := fun i (hi : i < node.childNodes.length) => hnames _ (List.getElem_mem hi)
    have hnone := find_none
      (fun i j hji hi hlt => by
        rw [childCmp_at hnames hseg hi] at hlt; rw [childCmp_at hnames hseg (by omega)]
        rcases Nat.lt_or_eq_of_le hji with hji | rfl
        · exact strcmp_lt_of_le_of_lt (hname' j _) (hname' i hi) (hsort j i _ hi hji) hlt
        · exact hlt)
      (fun i j hij hj hgt => by
        rw [childCmp_at hnames hseg (by omega)] at hgt; rw [childCmp_at hnames hseg hj]
        rcases Nat.lt_or_eq_of_le hij with hij | rfl
        · exact strcmp_gt_of_le_of_gt (hname' i _) (hname' j hj) (hsort i j _ hj hij) hgt
        · exact hgt) hf
    obtain ⟨i, hi, rfl⟩ := List.mem_iff_getElem.mp hch
    exact absurd (by rw [childCmp_at hnames hseg hi, hname, strcmp_self]) (hnone i hi)

end Children

/-- `Find` is a binary search on arrays of up to `2^30` entries, and the
child lookup built on it finds, among up to `2^30` children, exactly the
child named by the segment. -/
theorem find_is_binary_search :
    (∀ (n : Nat) (f : Int → Ordering), n ≤ 2 ^ 30 →
      (∀ i j : Nat, j ≤ i → i < n → f i = .lt → f j = .lt) →
      (∀ i j : Nat, i ≤ j → j < n → f i = .gt → f j = .gt) →
      (∃ i : Nat, i < n ∧ f i = .eq ∧ findInt n f = some i) ∨
        (findInt n f = some (-1) ∧ ∀ i : Nat, i < n → f i ≠ .eq)) ∧
    (∀ child seg rest : Bytes, 0 ∉ child → 0 ∉ seg → childCmp child (seg ++ rest) seg.length = strcmp child seg) ∧
    (∀ (node : TrieNode) (seg rest : Bytes), node.childNodes.length ≤ 2 ^ 30 → 0 ∉ seg →
      (∀ ch ∈ node.childNodes, 0 ∉ ch.name) →
      node.childNodes.Pairwise (fun a b => strcmp a.name b.name ≠ .gt) →
      ((node.findChildForString (seg ++ rest) seg.length).isSome ↔ ∃ ch ∈ node.childNodes, ch.name = seg) ∧
      ∀ ch, node.findChildForString (seg ++ rest) seg.length = some ch → ch ∈ node.childNodes ∧ ch.name = seg) :=
  ⟨fun _ _ hn hlt hgt => findInt_spec hn hlt hgt, fun _ _ _ hc hs => childCmp_eq_strcmp hc hs,
    fun _ _ _ hn hseg hnames hsorted => ⟨findChildForString_isSome_iff hn hnames hseg hsorted,
      fun _ h => findChildForString_mem_name hn hnames hseg h⟩⟩

/-- Children `a` and `b`: the segment `b` finds a child. -/
theorem findChildForString_b_isSome :
    ((TrieNode.mk ⟨[], 0, noIndex, noIndex⟩
      [.mk ⟨[97], 1, 0, noIndex⟩ [] [] [], .mk ⟨[98], 1, 1, noIndex⟩ [] [] []] [] []).findChildForString
        [98] 1).isSome :=
  ((find_is_binary_search.2.2 _ [98] [] (by decide) (by decide) (by decide) (by decide)).1).2
    ⟨_, List.mem_cons_of_mem _ (List.mem_singleton_self _), rfl⟩

/-- `CheckPrefixMatch(remaining_name, trie_node, &context_index, &type_index)`
over the node's prefix entries: the first, in array order, that fits in
`remaining_name` and that it starts with sets the indexes it carries. -/
def checkPrefixMatch (remaining : Bytes) : List PropertyEntry → Nat → Nat → Nat × Nat
  | [], c, t => (c, t)
  | p :: ps, c, t =>
    if p.namelen > remaining.length then checkPrefixMatch remaining ps c t
    else if cstrncmp p.namelen p.name remaining = .eq then
      (if p.contextIndex ≠ noIndex then p.contextIndex else c, if p.typeIndex ≠ noIndex then p.typeIndex else t)
    else checkPrefixMatch remaining ps c t

/-- The loop over the exact matches at the node where the walk stops: the
first equal to `remaining_name` by `strcmp`. -/
def findExactMatch (remaining : Bytes) : List PropertyEntry → Option PropertyEntry
  | [] => none
  | x :: xs => if strcmp x.name remaining = .eq then some x else findExactMatch remaining xs

theorem findExactMatch_some {r : Bytes} :
    ∀ {xs : List PropertyEntry} {x : PropertyEntry}, findExactMatch r xs = some x → x ∈ xs ∧ strcmp x.name r = .eq
  | [], _, h => by cases h
  | y :: ys, x, h => by
    simp only [findExactMatch] at h
    split at h
    · cases h; exact ⟨List.mem_cons_self _ _, ‹_›⟩
    · exact (findExactMatch_some h).imp_left (List.mem_cons_of_mem _)

theorem findExactMatch_none {r : Bytes} :
    ∀ {xs : List PropertyEntry}, findExactMatch r xs = none → ∀ x ∈ xs, strcmp x.name r ≠ .eq
  | [], _ => fun _ h => absurd h (List.not_mem_nil _)
  | y :: ys, h => by
    simp only [findExactMatch] at h
    split at h
    · cases h
    · rename_i hy
      intro x hx
      rcases List.mem_cons.mp hx with rfl | hx
      · exact hy
      · exact findExactMatch_none h x hx

/-- Where the loop of `GetPropertyInfoIndexes` stands: `trie_node`,
`remaining_name`, and the indexes found so far. -/
structure Cursor where
  node : TrieNode
  remaining : Bytes
  contextIndex : Nat
  typeIndex : Nat

/-- The indexes after one node of the loop: the ones the node carries, then
its prefix entries. -/
def visitNode (node : TrieNode) (remaining : Bytes) (c t : Nat) : Nat × Nat :=
  checkPrefixMatch remaining node.prefixes (if node.contextIndex ≠ noIndex then node.contextIndex else c)
    (if node.typeIndex ≠ noIndex then node.typeIndex else t)

/-- The `while (true)` loop of `GetPropertyInfoIndexes`: at each node, take
the indexes it carries, then its prefix entries; stop at the last segment or
where no child has the next one, and otherwise descend past the segment and
its `'.'`. Each descent shortens the name, so `remaining.length + 1` of
`fuel` never runs out. -/
def walk : Nat → Cursor → Cursor
  | 0, cur => cur
  | fuel + 1, ⟨node, remaining, c, t⟩ =>
    let ct := visitNode node remaining c t
    match strchrDot remaining with
    | none => ⟨node, remaining, ct.1, ct.2⟩
    | some sep =>
      match node.findChildForString remaining sep with
      | none => ⟨node, remaining, ct.1, ct.2⟩
      | some child => walk fuel ⟨child, remaining.drop (sep + 1), ct.1, ct.2⟩

/-- After the loop: an exact match at the node overrides each index it
carries; without one, the node's prefix entries are tried once more. -/
def Cursor.finish (cur : Cursor) : Nat × Nat :=
  match findExactMatch cur.remaining cur.node.exactMatches with
  | some x => (if x.contextIndex ≠ noIndex then x.contextIndex else cur.contextIndex,
      if x.typeIndex ≠ noIndex then x.typeIndex else cur.typeIndex)
  | none => checkPrefixMatch cur.remaining cur.node.prefixes cur.contextIndex cur.typeIndex

/-- `PropertyInfoArea::GetPropertyInfoIndexes(name, &context_index, &type_index)`. -/
def PropertyInfoArea.getPropertyInfoIndexes (area : PropertyInfoArea) (name : Bytes) : Nat × Nat :=
  (walk (name.length + 1) ⟨area.rootNode, name, noIndex, noIndex⟩).finish

/-- What `ContextsSerialized` routes with: the index, and its context nodes,
one per context of the index, each given by whether its `pa()` is an area
once `Open(false, nullptr)` has been tried. -/
structure ContextsSerialized where
  propertyInfoArea : PropertyInfoArea
  contextNodes : List Bool
  numContextNodes_eq : contextNodes.length = propertyInfoArea.numContexts

/-- `context_nodes_[i].pa()` once opened: the area of context node `i`,
named by the node, or none when its mapping fails. -/
def ContextsSerialized.contextArea (cs : ContextsSerialized) (i : Nat) : Option Nat :=
  if cs.contextNodes.getD i false then some i else none

/-- `ContextsSerialized::GetPropAreaForName(name)`: the area of the context
node the index routes `name` to; none for `~0u` and for an index past the
nodes. -/
def ContextsSerialized.getPropAreaForName (cs : ContextsSerialized) (name : Bytes) : Option Nat :=
  let index := (cs.propertyInfoArea.getPropertyInfoIndexes name).1
  if index = noIndex ∨ index ≥ cs.contextNodes.length then none else cs.contextArea index

end Index

end SysProps
