import SysProps.Area.Trie

/-!
# A lock-free lookup, one atomic access at a time

A reader's `prop_area::find(name)` takes no lock: it walks the mapping while
the property service may be adding or removing entries. This module breaks
the walk of `find_property`, `traverse_trie` and `find_prop_bt` into the
atomic accesses the C code makes, so that each step reads the memory current
at that step: one load of an offset, or one comparison of a name.

Every link is loaded twice. The walk loads it once with
`atomic_load_explicit` to test it against zero, and once more inside
`to_prop_bt` or `to_prop_info` to follow it; the writer may store between the
two. `remove` begins by storing 0 into the `prop` link it detaches, and
`to_prop_obj(0)` is the root node, not `nullptr`.

**What is proved.** `findStep` has one case per program point of the walk
(`FindPc`). `find_returns_root_during_remove` runs it against the first
store of `remove("a")` placed between the two loads of `a`'s `prop` link: the
lookup returns offset 0, which is neither `nullptr` nor the entry that was
linked for `a`.
-/

namespace SysProps

namespace PropArea

/-- Where a lookup stands between two of its atomic accesses: at the top of
`traverse_trie`'s loop with the segments left; at the second load of a
`children` link; at the top of `find_prop_bt`'s loop; at the first or second
load of a `left` or `right` link; at the second load of a `prop` link; or
returned. -/
inductive FindPc where
  | segment (cur : Nat) (segs : List Bytes)
  | reloadChildren (cur : Nat) (seg : Bytes) (rest : List Bytes)
  | compare (node : Nat) (seg : Bytes) (rest : List Bytes)
  | loadLink (node field : Nat) (seg : Bytes) (rest : List Bytes)
  | reloadLink (node field : Nat) (seg : Bytes) (rest : List Bytes)
  | reloadProp (cur : Nat)
  | done (r : Ptr)
deriving DecidableEq, Repr

/-- Where `find(name)` starts: `traverse_trie(root_node(), name, false)`. -/
def findStart (name : Bytes) : FindPc := .segment 0 (segments name)

/-- One atomic access of the lookup, against the memory `m` of the moment. -/
def findStep (m : Mem) : FindPc → FindPc
  | .segment cur [] => if m.loadU32 (cur + btProp) ≠ 0 then .reloadProp cur else .done none
  | .segment cur (seg :: rest) =>
    if seg.length = 0 then .done none
    else if m.loadU32 (cur + btChildren) ≠ 0 then .reloadChildren cur seg rest
    else .done none
  | .reloadChildren cur seg rest =>
    match toPropObj (m.loadU32 (cur + btChildren)) with
    | none => .done none
    | some root => .compare root seg rest
  | .compare node seg rest =>
    match cmpPropName seg m (node + btName) (m.loadU32 (node + btNamelen)) with
    | .eq => .segment node rest
    | .lt => .loadLink node btLeft seg rest
    | .gt => .loadLink node btRight seg rest
  | .loadLink node field seg rest =>
    if m.loadU32 (node + field) ≠ 0 then .reloadLink node field seg rest else .done none
  | .reloadLink node field seg rest =>
    match toPropObj (m.loadU32 (node + field)) with
    | none => .done none
    | some next => .compare next seg rest
  | .reloadProp cur => .done (toPropObj (m.loadU32 (cur + btProp)))
  | .done r => .done r

/-- `n` steps of the lookup with no writer running. -/
def findSteps (m : Mem) : Nat → FindPc → FindPc
  | 0, pc => pc
  | n + 1, pc => findSteps m n (findStep m pc)

/-- **A lookup that returns the root node.** In a fresh area where `a` was
added with value `y`, the writer's `remove("a")` finds `a`'s node at 112 and
its entry at 136, so its first store clears the word at `112 + 4`. A reader's
`find("a")` that has loaded that word once, found it nonzero, and loads it
again after the store, returns offset 0, the root node: not `nullptr`, and
not 136, the only entry ever linked for `a`. -/
theorem find_returns_root_during_remove :
    (PropArea.fresh.add [97] 1 [121] 1).map (fun r =>
      ((r.1.traverseTrie walkBound rootNode [97] false).map Prod.snd, r.1.load (112 + btProp),
        findStep (r.1.data.storeU32 (112 + btProp) 0) (findSteps r.1.data 4 (findStart [97])))) =
      some (some (some 112), 136, .done (some 0)) := by
  decide

end PropArea

end SysProps
