import SysProps.Area.Shape

/-!
# `find` and `foreach` on the trie the root heads

`prop_area::find` walks `traverse_trie` without allocating, one segment's
tree per segment, and answers the `prop` word of the node it ends at;
`prop_area::foreach` visits every node below the root, left subtree first,
then the node's entry, its children and its right subtree. On the trie the
root heads (`SysProps.PropArea.Heads`) these are `PTrie.lookup`, a search by
`cmp_prop_name` in each segment's tree, and `PTrie.entries`.

**What is proved.** In an area with the arena invariant, `find` answers the
lookup on the trie (`Arena.find_eq_lookup`) and `foreach` hands `propfn` the
trie's entries in order (`Arena.foreach_eq_entries`). Below a node reached
from the root, each entry is the `prop` word of one node only, reached along
one chain of links, so no entry is handed over twice
(`Arena.entries_nodup`).

**What it does not establish.** That the lookup finds every entry: that
needs each segment's tree to be ordered, which `SysProps.Area.Grow` proves
of the areas `add` and `remove` reach.
-/

namespace SysProps

namespace PropArea

namespace PTrie

/-- One segment's tree of a trie: the nodes `left` and `right` link, without
their children. -/
def seg : PTrie → SegTree
  | nil => .nil
  | node o k _ l _ r => .node o k l.seg r.seg

theorem seg_eq_nil_iff {t : PTrie} : t.seg = .nil ↔ t = nil := by
  cases t <;> simp [seg]

/-- The search of `find_prop_bt` on a trie: the subtree of the node whose
name compares equal, or `nil`. -/
def seek (s : Bytes) : PTrie → PTrie
  | nil => nil
  | node o k p l c r =>
    match keyCmp s k with
    | .eq => node o k p l c r
    | .lt => l.seek s
    | .gt => r.seek s

/-- The loop of `traverse_trie` without allocation, on a trie: from a node,
each segment is sought in the tree of its children; an empty segment or a
missing name gives `nil`. -/
def walk : PTrie → List Bytes → PTrie
  | t, [] => t
  | t, s :: ss => if s.length = 0 then nil else ((t.child .children).seek s).walk ss

@[simp] theorem nil_walk : ∀ ss : List Bytes, nil.walk ss = nil
  | [] => rfl
  | s :: ss => by simp only [walk, child, seek, nil_walk ss, ite_self]

theorem nodes_seek (s : Bytes) : ∀ {t : PTrie}, ∀ x ∈ (t.seek s).nodes, x ∈ t.nodes
  | nil, _, hx => hx
  | node o k p l c r, x, hx => by
    simp only [seek] at hx
    split at hx
    · exact hx
    · exact mem_nodes_node.2 (.inr (.inl (nodes_seek s x hx)))
    · exact mem_nodes_node.2 (.inr (.inr (.inr (nodes_seek s x hx))))

/-- The offset of a tree's root. -/
def rootOff : PTrie → Option Nat
  | nil => none
  | node o .. => some o

/-- The entry of a tree's root: its `prop` word when set. -/
def entry : PTrie → Option Nat
  | nil => none
  | node _ _ p _ _ _ => if p = 0 then none else some p

/-- `prop_area::find(name)` on the trie the root heads. -/
def lookup (t : PTrie) (name : Bytes) : Option Nat := (t.walk (segments name)).entry

/-- The entries are the second components of the entries with their chains,
in another order. -/
theorem entries_perm : ∀ t : PTrie, List.Perm t.entries (t.entryPaths.map Prod.snd)
  | nil => .refl _
  | node _ _ p l c r => by
    have hown : (if p = 0 then [] else [(([] : List Dir), p)]).map Prod.snd = if p = 0 then [] else [p] := by
      split <;> rfl
    simp only [entries, entryPaths, List.map_append, List.map_map, Function.comp_def, hown]
    exact (List.perm_append_comm_assoc _ _ _).trans ((entries_perm l).append ((entries_perm c).append
      (entries_perm r)) |>.append_left _)

/-- A chain under a first link: the first link, then a chain of the subtree. -/
theorem map_fst_cons (d : Dir) (u : PTrie) :
    (u.entryPaths.map fun x => (d :: x.1, x.2)).map Prod.fst = (u.entryPaths.map Prod.fst).map (d :: ·) := by
  simp only [List.map_map, Function.comp_def]

/-- Each chain of links leads to one node, so no chain is listed twice. -/
theorem entryPaths_nodup : ∀ t : PTrie, (t.entryPaths.map Prod.fst).Nodup
  | nil => List.nodup_nil
  | node _ _ p l c r => by
    have hhead : ∀ (d : Dir) (u : PTrie), ∀ q ∈ (u.entryPaths.map Prod.fst).map (d :: ·), q.head? = some d :=
      fun d u q hq => by obtain ⟨_, _, rfl⟩ := List.mem_map.1 hq; rfl
    have hdisj : ∀ (d d' : Dir) (u u' : PTrie), d ≠ d' →
        List.Disjoint ((u.entryPaths.map Prod.fst).map (d :: ·)) ((u'.entryPaths.map Prod.fst).map (d' :: ·)) :=
      fun d d' u u' hne q h₁ h₂ => hne (Option.some.inj ((hhead d u q h₁).symm.trans (hhead d' u' q h₂)))
    have hown : ∀ q ∈ (if p = 0 then [] else [(([] : List Dir), p)]).map Prod.fst, q = [] := fun q hq => by
      split at hq <;> simp_all
    simp only [entryPaths, List.map_append, map_fst_cons, List.nodup_append, List.disjoint_append_right]
    refine ⟨by split <;> simp, ⟨(entryPaths_nodup l).map List.cons_injective,
      ⟨(entryPaths_nodup c).map List.cons_injective, (entryPaths_nodup r).map List.cons_injective,
        hdisj _ _ _ _ (by decide)⟩, hdisj _ _ _ _ (by decide), hdisj _ _ _ _ (by decide)⟩,
      fun q h₁ h₂ => ?_, ⟨fun q h₁ h₂ => ?_, fun q h₁ h₂ => ?_⟩⟩ <;>
    · have := hhead _ _ q h₂; rw [hown q h₁] at this; cases this

end PTrie

open PTrie

variable {pa : PropArea}

/-! ## The walk of `find` -/

/-- The segment tree of a stored trie is stored. -/
theorem TStored.seg {w : Nat} {t : PTrie} (h : TStored pa w t) : Stored pa w t.seg := by
  induction h with
  | nil => exact .nil
  | node hoff hlen hname _ _ _ ihl _ ihr => exact .node hoff hlen hname ihl ihr

/-- `find_prop_bt` without allocation answers the node `seek` finds. -/
theorem search_result_eq_seek (s : Bytes) :
    ∀ {t : PTrie}, t ≠ nil → (t.seg.search s).bind (SegTree.Outcome.result pa s false) = some (pa, (t.seek s).rootOff)
  | nil, h => absurd rfl h
  | node o k p l c r, _ => by
    simp only [seg, SegTree.search, seek]
    cases keyCmp s k with
    | eq => rfl
    | lt =>
      by_cases hl : l = nil
      · subst hl; rfl
      · rw [if_neg (mt seg_eq_nil_iff.1 hl)]; exact search_result_eq_seek s hl
    | gt =>
      by_cases hr : r = nil
      · subst hr; rfl
      · rw [if_neg (mt seg_eq_nil_iff.1 hr)]; exact search_result_eq_seek s hr

/-- What `seek` finds in a stored tree is stored at its offset. -/
theorem TStored.seek {w : Nat} {t : PTrie} (h : TStored pa w t) (s : Bytes) :
    ∀ {o : Nat}, (t.seek s).rootOff = some o → TStored pa o (t.seek s) := by
  induction h with
  | nil => intro o ho; cases ho
  | @node off name l c r hoff hlen hname hl hc hr ihl _ ihr =>
    intro o ho
    simp only [PTrie.seek] at ho ⊢
    cases hk : keyCmp s name <;> simp only [hk] at ho ⊢
    · exact ihl ho
    · cases ho; exact .node hoff hlen hname hl hc hr
    · exact ihr ho

section Arena

variable {objs : List Obj}

/-- A set `prop` word of a node of the list is an offset `to_prop_obj` admits. -/
theorem Arena.toPropObj_prop (h : Arena pa objs) {o : Nat} (ho : NodeAt objs o) (hne : pa.load (o + btProp) ≠ 0) :
    toPropObj (pa.load (o + btProp)) = some (pa.load (o + btProp)) := by
  obtain ⟨x, hx, hxk, rfl⟩ := ho
  have hok := h.ok x hx
  unfold ObjOk at hok; rw [hxk] at hok
  obtain ⟨e, he, -, heo, -⟩ := (hok.2 _ prop_mem_linkFields).resolve_left hne
  have := h.below e he; have := h.used_le
  exact toPropObj_of_le (by dsimp only at heo; omega)

/-- **The loop of `traverse_trie` without allocation walks the trie**: from a
node of the list heading `u`, it changes nothing and ends where `walk` does,
at a node of the list heading the subtree there. -/
theorem Arena.traverseTrieLoop_eq_walk (h : Arena pa objs) :
    ∀ (segs : List Bytes) {cur : Nat} {u : PTrie}, NodeAt objs cur → Heads pa cur u →
      PropArea.traverseTrieLoop walkBound pa cur segs false = some (pa, (u.walk segs).rootOff) ∧
        ∀ n, (u.walk segs).rootOff = some n → NodeAt objs n ∧ Heads pa n (u.walk segs)
  | [], cur, u, hc, hu => by
    obtain ⟨k, l, c, r, rfl⟩ := hu.eq_node
    exact ⟨rfl, fun n hn => by cases hn; exact ⟨hc, hu⟩⟩
  | s :: ss, cur, u, hc, hu => by
    simp only [PropArea.traverseTrieLoop, walk]
    by_cases hs : s.length = 0
    · simp [hs, rootOff]
    simp only [if_neg hs, childrenRoot, Bool.false_eq_true, if_false, Option.bind_eq_bind]
    have hchild := hu.child .children
    by_cases h0 : pa.load (cur + btChildren) = 0
    · have hnil : u.child .children = nil := hchild.eq_nil_iff.2 h0
      simp [h0, hnil, seek, rootOff]
    obtain ⟨y, hy, hyk, rfl⟩ := hc
    obtain ⟨hat, -⟩ := h.link_node hy hyk .children h0
    obtain ⟨z, hz, hzk, hzo⟩ := hat
    have := h.below z hz; have := h.used_le
    have hne : u.child .children ≠ nil := fun e => h0 (hchild.eq_nil_iff.1 e)
    rw [if_pos h0, Option.some_bind, toPropObj_of_le (by simp only [Dir.field] at hzo; omega)]
    simp only
    rw [show btChildren = Dir.children.field from rfl,
      h.findPropBt_eq_search s false walkBound hchild.seg ⟨z, hz, hzk, hzo⟩ h0 (by simp only [walkBound]; omega),
      search_result_eq_seek s hne, Option.some_bind]
    cases hseek : ((u.child .children).seek s).rootOff with
    | none =>
      have : (u.child .children).seek s = nil := by cases h' : (u.child .children).seek s <;> simp_all [rootOff]
      simp [this, rootOff]
    | some n =>
      have hsn := hchild.seek s hseek
      have hn0 : n ≠ 0 := fun e => by
        rw [← hsn.eq_nil_iff] at e; rw [e] at hseek; cases hseek
      have hnat : NodeAt objs n := by
        obtain ⟨k, l, c, r, he⟩ := (hsn.heads hn0).eq_node
        obtain ⟨x, hx, hxk, hxo, -⟩ := (h.tstored_nodeObj hchild (fun _ => ⟨z, hz, hzk, hzo⟩) (n, k)
          (nodes_seek s _ (by rw [he]; simp))).2
        exact ⟨x, hx, hxk, hxo⟩
      exact Arena.traverseTrieLoop_eq_walk h ss hnat (hsn.heads hn0)

/-- **`find` is the lookup on the trie** the root heads. -/
theorem Arena.find_eq_lookup (h : Arena pa objs) {t : PTrie} (ht : Heads pa 0 t) (name : Bytes) :
    pa.find name = some (t.lookup name) := by
  obtain ⟨hloop, hend⟩ := h.traverseTrieLoop_eq_walk (segments name) (show NodeAt objs 0 from ⟨_, h.root, rfl, rfl⟩) ht
  simp only [PropArea.find, PropArea.findProperty, PropArea.traverseTrie, rootNode, toPropObj_of_le (Nat.zero_le _), hloop,
    Option.bind_eq_bind, Option.some_bind, lookup]
  cases hw : (t.walk (segments name)).rootOff with
  | none =>
    have : t.walk (segments name) = nil := by cases h' : t.walk (segments name) <;> simp_all [rootOff]
    simp [this, entry]
  | some n =>
    obtain ⟨hn, hh⟩ := hend n hw
    obtain ⟨k, l, c, r, he⟩ := hh.eq_node
    rw [he]
    by_cases hp : pa.load (n + btProp) = 0
    · simp [hp, entry]
    · simp [hp, entry, h.toPropObj_prop hn hp]

/-! ## `foreach_property` -/

/-- **`foreach_property` hands over the entries of the trie** below a node of
the list, in order, with fuel past `bytes_used_ - o`. -/
theorem Arena.foreachProperty_eq (h : Arena pa objs) :
    ∀ fuel {o : Nat} {u : PTrie}, NodeAt objs o → Heads pa o u → pa.bytesUsed < fuel + o →
      PropArea.foreachProperty fuel pa (some o) = some (u.entries, true)
  | 0, _, _, ⟨y, hy, _, rfl⟩, _, hlt => absurd hlt (by have := h.below y hy; omega)
  | fuel + 1, o, u, ho, hu, hlt => by
    obtain ⟨y, hy, hyk, rfl⟩ := id ho
    have hvisit : ∀ d : Dir, (if pa.load (y.off + d.field) ≠ 0 then
        (PropArea.foreachProperty fuel pa (toPropObj (pa.load (y.off + d.field)))).map Prod.fst else some []) =
          some (u.child d).entries := fun d => by
      have hc := hu.child d
      by_cases h0 : pa.load (y.off + d.field) = 0
      · rw [if_neg (not_not.2 h0), hc.eq_nil_iff.2 h0]; rfl
      · obtain ⟨hat, hlt'⟩ := h.link_node hy hyk d h0
        obtain ⟨z, hz, hzk, hzo⟩ := hat
        have := h.below z hz; have := h.used_le
        rw [if_pos h0, toPropObj_of_le (by omega), Arena.foreachProperty_eq h fuel ⟨z, hz, hzk, hzo⟩ (hc.heads h0)
          (by omega)]
        rfl
    obtain ⟨k, l, c, r, rfl⟩ := hu.eq_node
    have hl := hvisit .left; have hc := hvisit .children; have hr := hvisit .right
    simp only [Dir.field, child] at hl hc hr
    simp only [PropArea.foreachProperty, Option.bind_eq_bind, hl, hc, hr, Option.some_bind]
    by_cases hp : pa.load (y.off + btProp) = 0
    · simp [hp, entries]
    · simp [hp, entries, h.toPropObj_prop ho hp]

/-- **`foreach` hands over the entries of the trie** the root heads. -/
theorem Arena.foreach_eq_entries (h : Arena pa objs) {t : PTrie} (ht : Heads pa 0 t) :
    pa.foreach = some (t.entries, true) :=
  h.foreachProperty_eq walkBound ⟨_, h.root, rfl, rfl⟩ ht (by have := h.used_le; simp only [walkBound]; omega)

/-! ## No entry twice -/

/-- A chain of set links from a node reached from the root extends the chain
to it. -/
theorem Below.reach {p : List (Nat × Kind)} {o : Nat} (hp : Reach pa p o .node) {q : List Dir} {n : Nat}
    (hb : Below pa o q n) : Reach pa (p ++ q.map Dir.link) n .node := by
  induction hb generalizing p with
  | here => simpa using hp
  | link hne _ ih => simpa using ih (.link hp (Dir.link_mem _) hne)

/-- **No entry is handed over twice.** Below a node reached from the root,
two entries with their chains that share the entry share the chain: the entry
is the `prop` word of one node, reached along one chain. -/
theorem Arena.entries_nodup (h : Arena pa objs) {p : List (Nat × Kind)} {o : Nat} (hp : Reach pa p o .node)
    {t : PTrie} (ht : Heads pa o t) : t.entries.Nodup := by
  have hinj : ∀ x ∈ t.entryPaths, ∀ y ∈ t.entryPaths, x.2 = y.2 → x = y := by
    rintro ⟨q, e⟩ hx ⟨q', e'⟩ hy he'
    dsimp only at he'; subst he'
    obtain ⟨n, hb, he, hne⟩ := ht.entryBelow_iff.2 hx
    obtain ⟨n', hb', he', -⟩ := ht.entryBelow_iff.2 hy
    have hr := hb.reach hp; have hr' := hb'.reach hp
    obtain ⟨x, hx, rfl, hxk, -⟩ := h.reach_mem hr
    obtain ⟨x', hx', rfl, hx'k, -⟩ := h.reach_mem hr'
    have hs := h.unique _ (mem_slots.2 ⟨x, hx, hxk, _, prop_mem_linkFields, rfl⟩) _
      (mem_slots.2 ⟨x', hx', hx'k, _, prop_mem_linkFields, rfl⟩) (he.trans he'.symm) (he ▸ hne)
    rw [show x'.off = x.off by simp only at hs; omega] at hr'
    have hq := List.append_cancel_left (h.reach_unique hr hr').1
    rw [(List.map_injective_iff.2 Dir.link_injective) hq]
  exact (entries_perm t).nodup_iff.2 ((List.Nodup.of_map _ (entryPaths_nodup t)).map_on hinj)

end Arena

end PropArea

end SysProps
