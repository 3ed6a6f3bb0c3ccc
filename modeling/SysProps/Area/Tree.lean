import SysProps.Area.ArenaEntry
import SysProps.Area.ArenaRemove

/-!
# The arena holds a forward-linked tree

Over every area a writer can reach from a fresh one by calls of `add` and
`remove` (`Reachable`), the arena invariant of `SysProps.PropArea.Arena`
holds for some list of the objects handed out so far, in the order they were
handed out. From it follows what the lookups rely on: every link word of a
node reachable from `root_node()` (`Reach`) leads to an object handed out
later and lying below `bytes_used_`, so the nodes and entries reachable from
the root form a finite tree, and the walks end.

**What is proved.** `reachable_forward_tree`: for every reachable area,
`bytes_used_` is within the data region and 4-aligned and never goes down
over a call; `allocate_obj` hands out bytes in `[bytes_used_ before,
bytes_used_ after)`; there is a list of the objects handed out, in
allocation order, over which the area is a `ForwardTree`, and each call
hands out objects lying end to end from `bytes_used_` before it to
`bytes_used_` after it (`Tiles`), the list extended by them being one over
which the next area is a `ForwardTree`. A `ForwardTree` has its objects
disjoint and below `bytes_used_`, every object a chain of links from the root
reaches among them, reached along one path only and no longer than its
offset, and each link of a reachable node, and the long-value offset of a
reachable long entry, leading to an object handed out after the one holding
it. `find_prop_bt`, `traverse_trie`, `foreach_property` and `prune_trie`
return.

**What it does not establish.** Updates are not among the calls: an update
can set `kLongFlag` on a short entry (`SysProps.SystemProperties`), after
which `remove` zeroes bytes outside the entry. Readers running at the same
time as the writer are not modelled here.
-/

namespace SysProps

namespace PropArea

/-! ## Runs of `add` and `remove` -/

/-- One call of `add` or `remove` that returns. -/
inductive Step : PropArea → PropArea → Prop
  | add {pa pa' : PropArea} (name : Bytes) (namelen : Nat) (value : Bytes) (valuelen : Nat) (b : Bool) :
      pa.add name namelen value valuelen = some (pa', b) → Step pa pa'
  | remove {pa pa' : PropArea} (name : Bytes) (prune b : Bool) :
      pa.remove name prune = some (pa', b) → Step pa pa'

/-- The areas reached from a fresh one by calls of `add` and `remove`. -/
inductive Reachable : PropArea → Prop
  | fresh : Reachable fresh
  | step {pa pa' : PropArea} : Reachable pa → Step pa pa' → Reachable pa'

/-- `Reach pa path o k`: from `root_node()`, the link words named by `path`,
each nonzero, lead to the object at offset `o`, which the last link says is
of kind `k`. Only the links of nodes are followed. -/
inductive Reach (pa : PropArea) : List (Nat × Kind) → Nat → Kind → Prop
  | root : Reach pa [] 0 .node
  | link {path : List (Nat × Kind)} {o : Nat} {fk : Nat × Kind} : Reach pa path o .node → fk ∈ linkFields →
      pa.load (o + fk.1) ≠ 0 → Reach pa (path ++ [fk]) (pa.load (o + fk.1)) fk.2

/-- What a chain of links is: the root, or a chain to a node and one more
set link of it. -/
theorem Reach.inv {pa : PropArea} {q : List (Nat × Kind)} {o : Nat} {k : Kind} (h : Reach pa q o k) :
    (q = [] ∧ o = 0 ∧ k = .node) ∨ ∃ q₁ o₁ fk, Reach pa q₁ o₁ .node ∧ fk ∈ linkFields ∧ pa.load (o₁ + fk.1) ≠ 0 ∧
      q = q₁ ++ [fk] ∧ o = pa.load (o₁ + fk.1) ∧ k = fk.2 := by
  cases h with
  | root => exact Or.inl ⟨rfl, rfl, rfl⟩
  | link h₁ hfk hne => exact Or.inr ⟨_, _, _, h₁, hfk, hne, rfl, rfl, rfl⟩

/-- A link whose word is known to hold `v`. -/
theorem Reach.link_eq {pa : PropArea} {q : List (Nat × Kind)} {o v : Nat} {fk : Nat × Kind} (h : Reach pa q o .node)
    (hfk : fk ∈ linkFields) (hv : pa.load (o + fk.1) = v) (hne : v ≠ 0) : Reach pa (q ++ [fk]) v fk.2 :=
  hv ▸ h.link hfk (hv ▸ hne)

/-- `t` comes after `x` in the list of objects, in the order they were handed
out. -/
def After (objs : List Obj) (x t : Obj) : Prop := ∃ l₁ l₂, objs = l₁ ++ x :: l₂ ∧ t ∈ l₂

/-- `allocate_obj` hands out bytes in `[bytes_used_ before, bytes_used_ after)`. -/
theorem allocateObj_range {pa pa' : PropArea} {size p : Nat} (h : pa.allocateObj size = (pa', some p)) :
    pa.bytesUsed ≤ p ∧ p + size ≤ pa'.bytesUsed := by
  unfold allocateObj at h
  split at h
  · cases h
  · obtain ⟨rfl, hp⟩ := Prod.mk.inj h
    cases hp
    simp only [align4]; omega

/-! ## The fresh area -/

theorem load_fresh (o : Nat) : fresh.load o = 0 := rfl

/-- A fresh area holds the root node and the backup buffer, all zero. -/
theorem arena_fresh : Arena fresh initObjs where
  used_le := by decide
  used_dvd := by decide
  sorted := by decide
  below := by decide
  size_ge := by decide
  root := by decide
  zero_above _ _ := rfl
  ok x hx := by
    simp only [initObjs, List.mem_cons, List.mem_singleton, List.not_mem_nil, or_false] at hx
    rcases hx with rfl | rfl
    · exact ⟨by rw [load_fresh]; decide, fun _ _ => Or.inl (load_fresh _)⟩
    · trivial
  unique _ _ _ _ _ hne := absurd (load_fresh _) hne

/-! ## The invariant along runs -/

section Runs

variable {pa : PropArea} {objs : List Obj}

/-- Every call from an area with the invariant extends it. -/
theorem Arena.step (h : Arena pa objs) {pa' : PropArea} (hs : Step pa pa') : ∃ objs', Extends pa objs pa' objs' := by
  cases hs with
  | add name namelen value valuelen b hadd => exact h.add hadd
  | remove name prune b hrm =>
    obtain ⟨pa'', b', hrm', h', hu⟩ := h.remove name prune
    rw [hrm] at hrm'
    obtain ⟨rfl, -⟩ := Prod.mk.inj (Option.some.inj hrm')
    exact ⟨objs, .of_write h' hu⟩

/-- **Every reachable area has the arena invariant.** -/
theorem Reachable.arena (h : Reachable pa) : ∃ objs, Arena pa objs := by
  induction h with
  | fresh => exact ⟨initObjs, arena_fresh⟩
  | step _ hs ih =>
    obtain ⟨objs, h⟩ := ih
    obtain ⟨objs', hext⟩ := h.step hs
    exact ⟨objs', hext.arena⟩

/-! ## The tree -/

/-- An object later in offset comes later in the list. -/
theorem Arena.after (h : Arena pa objs) {x t : Obj} (hx : x ∈ objs) (ht : t ∈ objs) (hlt : x.off < t.off) :
    After objs x t := by
  obtain ⟨l₁, l₂, rfl⟩ := List.append_of_mem hx
  refine ⟨l₁, l₂, rfl, ?_⟩
  rcases List.mem_append.1 ht with ht | ht
  · have := (List.pairwise_append.1 h.sorted).2.2 t ht x (List.mem_cons_self _ _)
    omega
  · rcases List.mem_cons.1 ht with rfl | ht
    · omega
    · exact ht

/-- Two link words of nodes at one offset are one field of one node. -/
theorem Arena.slot_inj (h : Arena pa objs) {x y : Obj} {fk fk' : Nat × Kind} (hx : x ∈ objs) (hy : y ∈ objs)
    (hxk : x.kind = .node) (hyk : y.kind = .node) (hfk : fk ∈ linkFields) (hfk' : fk' ∈ linkFields)
    (heq : x.off + fk.1 = y.off + fk'.1) : x = y ∧ fk = fk' := by
  have hxy : x = y := by
    by_contra hne
    have hsx := h.size_ge x hx; have hsy := h.size_ge y hy
    rw [hxk] at hsx; rw [hyk] at hsy
    have := linkFields_lt hfk; have := linkFields_lt hfk'; have := linkFields_ge hfk; have := linkFields_ge hfk'
    rcases h.disjoint hx hy hne with h' | h' <;> simp only [Kind.minSize] at hsx hsy <;> omega
  subst hxy
  refine ⟨rfl, ?_⟩
  simp only [linkFields, List.mem_cons, List.mem_singleton, List.not_mem_nil, or_false] at hfk hfk'
  rcases hfk with rfl | rfl | rfl | rfl <;> rcases hfk' with rfl | rfl | rfl | rfl <;>
    simp_all [btProp, btLeft, btRight, btChildren]

/-- What a chain of links from the root reaches is an object of the list, of
the kind the last link names, and the chain is no longer than its offset. -/
theorem Arena.reach_mem (h : Arena pa objs) {path : List (Nat × Kind)} {o : Nat} {k : Kind}
    (hr : Reach pa path o k) : ∃ x ∈ objs, x.off = o ∧ x.kind = k ∧ path.length ≤ o := by
  induction hr with
  | root => exact ⟨_, h.root, rfl, rfl, le_rfl⟩
  | link _ hfk hne ih =>
    obtain ⟨x, hx, rfl, hxk, hlen⟩ := ih
    have hok := h.ok x hx
    unfold ObjOk at hok; rw [hxk] at hok
    obtain ⟨t, ht, htk, hoff, hlt⟩ := (hok.2 _ hfk).resolve_left hne
    exact ⟨t, ht, hoff, htk, by rw [List.length_append, List.length_singleton]; omega⟩

/-- **Nothing is reached along two paths.** -/
theorem Arena.reach_unique (h : Arena pa objs) {p q : List (Nat × Kind)} {o : Nat} {k k' : Kind}
    (hp : Reach pa p o k) (hq : Reach pa q o k') : p = q ∧ k = k' := by
  induction hp generalizing q k' with
  | root =>
    rcases hq.inv with ⟨rfl, -, rfl⟩ | ⟨q₁, o₁, fk, -, -, hne, -, ho, -⟩
    · exact ⟨rfl, rfl⟩
    · exact absurd ho.symm hne
  | link hp₁ hfk hne ih =>
    rcases hq.inv with ⟨-, ho, -⟩ | ⟨q₁, o₁, fk', hq₁, hfk', hne', rfl, ho, rfl⟩
    · exact absurd ho hne
    obtain ⟨x, hx, rfl, hxk, -⟩ := h.reach_mem hp₁
    obtain ⟨y, hy, rfl, hyk, -⟩ := h.reach_mem hq₁
    have hs := h.unique _ (mem_slots.2 ⟨x, hx, hxk, _, hfk, rfl⟩) _ (mem_slots.2 ⟨y, hy, hyk, _, hfk', rfl⟩) ho hne
    obtain ⟨rfl, rfl⟩ := h.slot_inj hx hy hxk hyk hfk hfk' hs
    obtain ⟨rfl, -⟩ := ih hq₁
    exact ⟨rfl, rfl⟩

end Runs

/-! ## The forward-linked tree -/

/-- What the arena invariant says of a list `objs` of the objects handed out,
in the order they were handed out: they are disjoint and below `bytes_used_`;
what a chain of links from the root reaches is one of them, of the kind the
last link names, along one path only and no longer than its offset; and every
set link of a reachable node, and the long-value offset of a reachable long
entry, leads to an object handed out after the one holding it. -/
structure ForwardTree (pa : PropArea) (objs : List Obj) : Prop where
  sorted : objs.Pairwise fun a b => a.off + a.size ≤ b.off
  below : ∀ x ∈ objs, x.off + x.size ≤ pa.bytesUsed
  reach_mem : ∀ path o k, Reach pa path o k → ∃ x ∈ objs, x.off = o ∧ x.kind = k ∧ path.length ≤ o
  reach_unique : ∀ path q o k k', Reach pa path o k → Reach pa q o k' → path = q
  links : ∀ path o, Reach pa path o .node → ∃ x ∈ objs, x.off = o ∧ ∀ fk ∈ linkFields, pa.load (o + fk.1) ≠ 0 →
    ∃ t, After objs x t ∧ t.kind = fk.2 ∧ t.off = pa.load (o + fk.1) ∧ t.off + t.size ≤ pa.bytesUsed
  long : ∀ path o, Reach pa path o .entry → isLong (pa.load (o + infoSerial)) = true → ∃ x ∈ objs, x.off = o ∧
    ∃ t, After objs x t ∧ t.kind = .blob ∧ t.off = o + pa.load (o + infoLongOffset) ∧ t.off + t.size ≤ pa.bytesUsed

theorem Arena.forwardTree {pa : PropArea} {objs : List Obj} (ha : Arena pa objs) : ForwardTree pa objs where
  sorted := ha.sorted
  below := ha.below
  reach_mem _ _ _ := ha.reach_mem
  reach_unique _ _ _ _ _ hp hq := (ha.reach_unique hp hq).1
  links _ _ hr := by
    obtain ⟨x, hx, rfl, hxk, -⟩ := ha.reach_mem hr
    refine ⟨x, hx, rfl, fun fk hfk hne => ?_⟩
    have hok := ha.ok x hx
    unfold ObjOk at hok; rw [hxk] at hok
    obtain ⟨t, ht, htk, hoff, hlt⟩ := (hok.2 _ hfk).resolve_left hne
    exact ⟨t, ha.after hx ht hlt, htk, hoff, ha.below t ht⟩
  long _ _ hr hl := by
    obtain ⟨x, hx, rfl, hxk, -⟩ := ha.reach_mem hr
    refine ⟨x, hx, rfl, ?_⟩
    have hok := ha.ok x hx
    unfold ObjOk at hok; rw [hxk] at hok
    obtain ⟨t, ht, htk, hoff, hlt⟩ := hok.2 hl
    exact ⟨t, ha.after hx ht hlt, htk, hoff, ha.below t ht⟩

/-- **The arena holds a forward-linked tree.** For every area reachable from
a fresh one by `add` and `remove`: `bytes_used_` is within the data region,
4-aligned, and does not go down over a call; `allocate_obj` hands out bytes
between `bytes_used_` before and after; there is a list `objs` of the objects
handed out, in order, over which the area is a `ForwardTree`, and every call
hands out objects that lie end to end from `bytes_used_` before it to
`bytes_used_` after it, the area after the call being a `ForwardTree` over
`objs` followed by them; and `find_prop_bt` (from any reachable node),
`traverse_trie`, `foreach_property` and `prune_trie` (from the root) return. -/
theorem reachable_forward_tree {pa : PropArea} (h : Reachable pa) :
    pa.bytesUsed ≤ paDataSize ∧ pa.bytesUsed % 4 = 0 ∧
      (∀ pa', Step pa pa' → pa.bytesUsed ≤ pa'.bytesUsed) ∧
      (∀ size pa' p, pa.allocateObj size = (pa', some p) → pa.bytesUsed ≤ p ∧ p + size ≤ pa'.bytesUsed) ∧
      (∃ objs, ForwardTree pa objs ∧ ∀ pa', Step pa pa' →
        ∃ new, Tiles pa.bytesUsed new pa'.bytesUsed ∧ ForwardTree pa' (objs ++ new)) ∧
      (∀ path o name alloc, Reach pa path o .node → (findPropBt walkBound pa (some o) name alloc).isSome) ∧
      (∀ name alloc, (traverseTrie walkBound pa rootNode name alloc).isSome) ∧
      (foreachProperty walkBound pa rootNode).isSome ∧ (pruneTrie walkBound pa rootNode).isSome := by
  obtain ⟨objs, ha⟩ := h.arena
  have hfuel : ∀ o, pa.bytesUsed < walkBound + o := fun o => by
    have := ha.used_le; simp only [walkBound]; omega
  refine ⟨ha.used_le, ha.used_dvd, fun pa' hs => ?_, fun _ _ _ => allocateObj_range, ⟨objs, ha.forwardTree,
    fun pa' hs => ?_⟩, fun path o name alloc hr => ?_, fun name alloc => ?_, ?_, ?_⟩
  · obtain ⟨objs', hext⟩ := ha.step hs
    exact hext.used_le_used
  · obtain ⟨objs', hext⟩ := ha.step hs
    obtain ⟨new, rfl, hnew⟩ := hext.added
    exact ⟨new, hnew, hext.arena.forwardTree⟩
  · obtain ⟨x, hx, rfl, hxk, -⟩ := ha.reach_mem hr
    obtain ⟨_, _, _, hres, -⟩ := ha.findPropBt name alloc walkBound x.off ⟨x, hx, hxk, rfl⟩ (hfuel _)
    rw [hres]; rfl
  · obtain ⟨_, _, _, hres, -⟩ := ha.traverseTrie name alloc
    rw [hres]; rfl
  · exact ha.foreachProperty walkBound 0 ⟨_, ha.root, rfl, rfl⟩ (hfuel 0)
  · obtain ⟨_, _, hres, -⟩ := Arena.pruneTrie objs walkBound 0 ha ⟨_, ha.root, rfl, rfl⟩ (hfuel 0)
    rw [show rootNode = some 0 from rfl, hres]; rfl

/-- `add("a", 1, "y", 1)` on a fresh area: node `a` at 112, its entry at 136. -/
def areaAY : PropArea := ((fresh.add [97] 1 [121] 1).map Prod.fst).getD fresh

/-- Then `add("a.b", 3, v, 100)` for a 100-byte value: node `b` at 236 below
`a`, the entry at 260 and, the value being long, its blob at 360;
`bytes_used_` is 464. -/
def areaLongAB : PropArea := ((areaAY.add [97, 46, 98] 3 (List.replicate 100 120) 100).map Prod.fst).getD fresh

/-- Then `add("c", 1, "y", 1)`: node `c` and its entry, up to 588. -/
def areaLongABC : PropArea := ((areaLongAB.add [99] 1 [121] 1).map Prod.fst).getD fresh

theorem reachable_areaLongAB : Reachable areaLongAB :=
  .step (.step .fresh (.add [97] 1 [121] 1 true rfl)) (.add [97, 46, 98] 3 (List.replicate 100 120) 100 true rfl)

/-- In `areaLongAB`, the long entry of `a.b`, reached from the root through
`a` and `b`, has its blob at 360 handed out after it; the next `add` hands
out objects end to end from 464 to 588, over which `areaLongABC` is again a
forward tree; and the walks return. -/
theorem areaLongAB_forward_tree :
    Reachable areaLongAB ∧ (∃ objs, ForwardTree areaLongAB objs ∧
      (∃ x ∈ objs, x.off = 260 ∧ ∃ t, After objs x t ∧ t.kind = .blob ∧ t.off = 360 ∧ t.off + t.size ≤ 464) ∧
      ∃ new, Tiles 464 new 588 ∧ ForwardTree areaLongABC (objs ++ new)) ∧
      (foreachProperty walkBound areaLongAB rootNode).isSome ∧ (pruneTrie walkBound areaLongAB rootNode).isSome := by
  obtain ⟨-, -, -, -, ⟨objs, hf, hstep⟩, -, -, hfe, hpr⟩ := reachable_forward_tree reachable_areaLongAB
  obtain ⟨new, ht, hf'⟩ := hstep areaLongABC (.add [99] 1 [121] 1 true rfl)
  have hr : Reach areaLongAB [(btChildren, .node), (btChildren, .node), (btProp, .entry)] 260 .entry :=
    ((Reach.root.link_eq (by decide) rfl (by decide)).link_eq (by decide) rfl (by decide)).link_eq (by decide) rfl
      (by decide)
  exact ⟨reachable_areaLongAB, ⟨objs, hf, hf.long _ _ hr rfl, new, ht, hf'⟩, hfe, hpr⟩

end PropArea

end SysProps
