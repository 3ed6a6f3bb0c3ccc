import SysProps.Area.Basic

/-!
# The property area: the trie

A name is looked up segment by segment. Each segment is searched for in a
binary search tree of `prop_bt` nodes ordered by `cmp_prop_name` (length
first, then bytes), linked through `left` and `right`; the node found for one
segment holds, in `children`, the tree of the next; the node of the last
segment holds the entry in `prop`. Lookup (`alloc_if_needed` false) only
reads; `add` runs the same walk with `alloc_if_needed` true, publishing each
new node or entry with one store into a link that was zero.

This module translates `prop_area.cpp`'s walk and its users one for one:
`find_prop_bt`, `traverse_trie`, `find_property`, `foreach_property`,
`prune_trie`, `find`, `add`, `foreach` and `remove`.

The loops of the C code follow offsets read from the mapping, and nothing in
the code bounds them. The walks here take a fuel argument and answer `none`
when it runs out; the public entry points give them `walkBound`, one more than
the number of offsets `to_prop_obj` admits, so a walk that runs out has
visited some node twice and the C loop would never end.
-/

namespace SysProps

namespace PropArea

/-- The fuel of every walk: a walk that would take more steps than there are
offsets in the data region revisits a node, and then runs forever. -/
def walkBound : Nat := paDataSize + 2

/-- `cmp_prop_name(one, one_len, two, two_len)`: by length first, then by
`strncmp` over `one_len` bytes. The second name is read from the mapping. -/
def cmpPropName (one : Bytes) (m : Mem) (two twoLen : Nat) : Ordering :=
  if one.length < twoLen then .lt
  else if one.length > twoLen then .gt
  else strncmp one (m.read two one.length)

/-- A new node for `name`, published at `link` when it could be allocated:
the common tail of `find_prop_bt`'s two sides and of `traverse_trie`. -/
def newPropBtAt (pa : PropArea) (link : Nat) (name : Bytes) : Option (PropArea × Ptr) := do
  let (pa, p) ← pa.newPropBt name name.length
  match p with
  | none => some (pa, none)
  | some p => do
    let pa ← pa.store link p
    some (pa, some p)

/-- `find_prop_bt(bt, name, namelen, alloc_if_needed)`: the search of one
segment's tree. `namelen` is the length of `name`. -/
def findPropBt : (fuel : Nat) → PropArea → Ptr → Bytes → Bool → Option (PropArea × Ptr)
  | 0, _, _, _, _ => none
  | _ + 1, pa, none, _, _ => some (pa, none)
  | fuel + 1, pa, some cur, name, alloc =>
    match cmpPropName name pa.data (cur + btName) (pa.load (cur + btNamelen)) with
    | .eq => some (pa, some cur)
    | .lt =>
      if pa.load (cur + btLeft) ≠ 0 then findPropBt fuel pa (toPropObj (pa.load (cur + btLeft))) name alloc
      else if alloc then pa.newPropBtAt (cur + btLeft) name
      else some (pa, none)
    | .gt =>
      if pa.load (cur + btRight) ≠ 0 then findPropBt fuel pa (toPropObj (pa.load (cur + btRight))) name alloc
      else if alloc then pa.newPropBtAt (cur + btRight) name
      else some (pa, none)

/-- The first half of a turn of `traverse_trie`'s loop: `root`, the tree of
`current`'s children, allocated for `seg` when there is none and
`alloc_if_needed` holds. -/
def childrenRoot (pa : PropArea) (current : Nat) (seg : Bytes) (alloc : Bool) : Option (PropArea × Ptr) :=
  if pa.load (current + btChildren) ≠ 0 then some (pa, toPropObj (pa.load (current + btChildren)))
  else if alloc then pa.newPropBtAt (current + btChildren) seg
  else some (pa, none)

/-- The loop of `traverse_trie`, one segment per turn, from the node `current`. -/
def traverseTrieLoop (fuel : Nat) : PropArea → Nat → List Bytes → Bool → Option (PropArea × Ptr)
  | pa, current, [], _ => some (pa, some current)
  | pa, current, seg :: rest, alloc =>
    if seg.length = 0 then some (pa, none) else do
    let (pa, root) ← pa.childrenRoot current seg alloc
    match root with
    | none => some (pa, none)
    | some _ => do
      let (pa, cur) ← findPropBt fuel pa root seg alloc
      match cur with
      | none => some (pa, none)
      | some cur => traverseTrieLoop fuel pa cur rest alloc

/-- `traverse_trie(trie, name, alloc_if_needed)`. -/
def traverseTrie (fuel : Nat) (pa : PropArea) (trie : Ptr) (name : Bytes) (alloc : Bool) :
    Option (PropArea × Ptr) :=
  match trie with
  | none => some (pa, none)
  | some t => traverseTrieLoop fuel pa t (segments name) alloc

/-- `find_property(trie, name, namelen, value, valuelen, alloc_if_needed)`. -/
def findProperty (fuel : Nat) (pa : PropArea) (trie : Ptr) (name : Bytes) (namelen : Nat)
    (value : Bytes) (valuelen : Nat) (alloc : Bool) : Option (PropArea × Ptr) := do
  let (pa, current) ← traverseTrie fuel pa trie name alloc
  match current with
  | none => some (pa, none)
  | some cur =>
    if pa.load (cur + btProp) ≠ 0 then some (pa, toPropObj (pa.load (cur + btProp)))
    else if alloc then do
      let (pa, p) ← pa.newPropInfo name namelen value valuelen
      match p with
      | none => some (pa, none)
      | some p => do
        let pa ← pa.store (cur + btProp) p
        some (pa, some p)
    else some (pa, none)

/-- `prop_area::find(name)`. -/
def find (pa : PropArea) (name : Bytes) : Option Ptr :=
  (pa.findProperty walkBound rootNode name name.length [] 0 false).map Prod.snd

/-- `prop_area::add(name, namelen, value, valuelen)`. -/
def add (pa : PropArea) (name : Bytes) (namelen : Nat) (value : Bytes) (valuelen : Nat) :
    Option (PropArea × Bool) :=
  (pa.findProperty walkBound rootNode name namelen value valuelen true).map
    fun r => (r.1, r.2.isSome)

/-- `add("a", 1, v, 2^32 - 1)` on a fresh area, `v` being `2 ^ 32 - 1` bytes
`a`, neither adds nor reports exhaustion: the copy of the value faults. -/
theorem add_faults_on_wrapped_length :
    PropArea.fresh.add [97] 1 (List.replicate (2 ^ 32 - 1) 97) (2 ^ 32 - 1) = none := rfl

/-- `foreach_property(trie, propfn, cookie)`: the entries handed to `propfn`,
in order, and the result. A subtree's result is read as an `int` and tested
`< 0`, so it never stops the walk; only an entry offset past the data region
ends a node's visit early. -/
def foreachProperty : (fuel : Nat) → PropArea → Ptr → Option (List Nat × Bool)
  | 0, _, _ => none
  | _ + 1, _, none => some ([], false)
  | fuel + 1, pa, some t => do
    let visit (field : Nat) : Option (List Nat) :=
      if pa.load (t + field) ≠ 0 then
        (foreachProperty fuel pa (toPropObj (pa.load (t + field)))).map Prod.fst
      else some []
    let left ← visit btLeft
    if pa.load (t + btProp) ≠ 0 then
      match toPropObj (pa.load (t + btProp)) with
      | none => some (left, false)
      | some info => do
        let children ← visit btChildren
        let right ← visit btRight
        some (left ++ info :: children ++ right, true)
    else do
      let children ← visit btChildren
      let right ← visit btRight
      some (left ++ children ++ right, true)

/-- `prop_area::foreach(propfn, cookie)`. -/
def foreach (pa : PropArea) : Option (List Nat × Bool) := foreachProperty walkBound pa rootNode

/-- One link of `prune_trie`: prune the subtree behind `field` of `node` and
clear the link when it is gone, else the node is no leaf. -/
def pruneLink (prune : PropArea → Ptr → Option (PropArea × Bool)) (pa : PropArea) (node field : Nat)
    (isLeaf : Bool) : Option (PropArea × Bool) :=
  if pa.load (node + field) ≠ 0 then do
    let (pa, gone) ← prune pa (toPropObj (pa.load (node + field)))
    if gone then do
      let pa ← pa.store (node + field) 0
      some (pa, isLeaf)
    else some (pa, false)
  else some (pa, isLeaf)

/-- `prune_trie(node)`: clear the links to subtrees without entries and wipe
a node left with no link and no entry, answering whether it was wiped. A
`nullptr` node is dereferenced, which faults. -/
def pruneTrie : (fuel : Nat) → PropArea → Ptr → Option (PropArea × Bool)
  | 0, _, _ => none
  | _ + 1, _, none => none
  | fuel + 1, pa, some node => do
    let (pa, isLeaf) ← pruneLink (pruneTrie fuel) pa node btChildren true
    let (pa, isLeaf) ← pruneLink (pruneTrie fuel) pa node btLeft isLeaf
    let (pa, isLeaf) ← pruneLink (pruneTrie fuel) pa node btRight isLeaf
    if isLeaf ∧ pa.load (node + btProp) = 0 then do
      let pa ← pa.zero (node + btName) (pa.load (node + btNamelen))
      let pa ← pa.zero node sizeofPropBt
      some (pa, true)
    else some (pa, false)

/-- The zeroing half of `remove`, once the entry at `prop` is detached: its
long value when `is_long()` says it has one, then its name, then the entry. -/
def wipePropInfo (pa : PropArea) (prop : Nat) : Option PropArea := do
  let pa ← if isLong (pa.load (prop + infoSerial)) then
      let value := prop + pa.load (prop + infoLongOffset)
      pa.zero value (pa.strlen value)
    else some pa
  let pa ← pa.zero (prop + infoName) (pa.strlen (prop + infoName))
  pa.zero prop sizeofPropInfo

/-- `prop_area::remove(name, prune)`. -/
def remove (pa : PropArea) (name : Bytes) (prune : Bool) : Option (PropArea × Bool) := do
  let (_, node) ← traverseTrie walkBound pa rootNode name false
  match node with
  | none => some (pa, false)
  | some node =>
    if pa.load (node + btProp) = 0 then some (pa, false) else
    match toPropObj (pa.load (node + btProp)) with
    | none => none
    | some prop => do
      let pa ← pa.store (node + btProp) 0
      let pa ← pa.wipePropInfo prop
      if prune then do
        let (pa, _) ← pruneTrie walkBound pa rootNode
        some (pa, true)
      else some (pa, true)

end PropArea

end SysProps
