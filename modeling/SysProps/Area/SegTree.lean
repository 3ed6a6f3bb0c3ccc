import SysProps.Area.Tree

/-!
# One segment's tree: `find_prop_bt` is search-or-insert

The nodes holding the names one segment can take are a binary search tree
linked through `left` and `right`, keyed by `cmp_prop_name`: length first,
then `strncmp` over that length. This module reads such a tree out of the
mapping (`Stored`), as a tree of offsets and names (`SegTree`), and follows
`find_prop_bt` over it.

`SegTree.search` is the walk `find_prop_bt` makes, on the tree: it ends at
the node whose name compares equal, or at the zero link where the name would
hang. `SegTree.insert` hangs a new leaf there.

**What is proved.** On segments with no NUL, `cmp_prop_name` is a strict
total order (`keyCmp_eq_iff`, `keyCmp_swap`, `keyCmp_lt_trans`).
`findPropBt_eq_search`: from a node of an area with the arena invariant,
`find_prop_bt` answers as the search on the stored tree ends, allocating only
at a zero link. On an ordered tree the search ends at a node exactly when the
node has the name (`search_found_iff`), and after an allocation the mapping
stores the tree with the new leaf (`Stored.insert`), which is ordered again
(`Ordered.insert`).

**What it does not establish.** The children trees of the nodes, and their
`prop` words, are not read: `find_prop_bt` does not follow them.
-/

namespace SysProps

namespace PropArea

/-! ## The key order -/

/-- `cmp_prop_name(one, one_len, two, two_len)` on two names in hand. -/
def keyCmp (one two : Bytes) : Ordering :=
  if one.length < two.length then .lt
  else if one.length > two.length then .gt
  else strncmp one two

/-- On a node whose `namelen` and name are those of `two`, `cmp_prop_name`
reads `two` from the mapping. -/
theorem cmpPropName_eq_keyCmp {pa : PropArea} {off : Nat} {one two : Bytes}
    (hlen : pa.load (off + btNamelen) = two.length) (hname : pa.data.read (off + btName) two.length = two) :
    cmpPropName one pa.data (off + btName) (pa.load (off + btNamelen)) = keyCmp one two := by
  simp only [cmpPropName, keyCmp, hlen]
  split_ifs with h₁ h₂
  · rfl
  · rfl
  · rw [show one.length = two.length by omega, hname]

theorem keyCmp_swap (a b : Bytes) : keyCmp b a = (keyCmp a b).swap := by
  simp only [keyCmp]
  split_ifs <;> first | rfl | omega | exact strncmp_swap a b

@[simp] theorem keyCmp_self (a : Bytes) : keyCmp a a = .eq := by simp [keyCmp]

theorem keyCmp_eq_iff {a b : Bytes} (ha : 0 ∉ a) : keyCmp a b = .eq ↔ a = b := by
  simp only [keyCmp]
  split_ifs with h₁ h₂
  · exact ⟨nofun, fun h => by subst h; omega⟩
  · exact ⟨nofun, fun h => by subst h; omega⟩
  · exact strncmp_eq_iff (by omega) ha

theorem keyCmp_lt_iff {a b : Bytes} (ha : 0 ∉ a) :
    keyCmp a b = .lt ↔ a.length < b.length ∨ a.length = b.length ∧ strcmp a b = .lt := by
  simp only [keyCmp]
  split_ifs with h₁ h₂
  · simp only [true_or, h₁]
  · simp only [reduceCtorEq, false_iff, not_or, not_and]; omega
  · rw [strncmp_eq_strcmp (by omega) ha]
    constructor
    · exact fun h => .inr ⟨by omega, h⟩
    · rintro (h | ⟨-, h⟩)
      · omega
      · exact h

theorem keyCmp_lt_trans {a b c : Bytes} (ha : 0 ∉ a) (hb : 0 ∉ b) (hab : keyCmp a b = .lt)
    (hbc : keyCmp b c = .lt) : keyCmp a c = .lt := by
  rw [keyCmp_lt_iff ha] at hab ⊢
  rw [keyCmp_lt_iff hb] at hbc
  rcases hab with hab | ⟨hab, hab'⟩ <;> rcases hbc with hbc | ⟨hbc, hbc'⟩
  · exact .inl (by omega)
  · exact .inl (by omega)
  · exact .inl (by omega)
  · exact .inr ⟨hab.trans hbc, strcmp_lt_trans hab' hbc'⟩

/-! ## Trees of one segment -/

/-- One segment's tree as `find_prop_bt` walks it: each node with its offset
and its name, and the trees behind its `left` and `right` links. -/
inductive SegTree where
  | nil
  | node (off : Nat) (name : Bytes) (left right : SegTree)
deriving DecidableEq, Repr

namespace SegTree

/-- The nodes, as offset and name, in order. -/
def nodes : SegTree → List (Nat × Bytes)
  | nil => []
  | node off name l r => l.nodes ++ (off, name) :: r.nodes

@[simp] theorem mem_nodes_node {x : Nat × Bytes} {off : Nat} {name : Bytes} {l r : SegTree} :
    x ∈ (node off name l r).nodes ↔ x ∈ l.nodes ∨ x = (off, name) ∨ x ∈ r.nodes := by
  simp [nodes, or_left_comm]

/-- The search-tree order by `cmp_prop_name`, strict: every name on the left
of a node is below its name, every name on the right above it. -/
def Ordered : SegTree → Prop
  | nil => True
  | node _ k l r => l.Ordered ∧ r.Ordered ∧ (∀ x ∈ l.nodes, keyCmp x.2 k = .lt) ∧ ∀ x ∈ r.nodes, keyCmp k x.2 = .lt

instance decOrdered : (t : SegTree) → Decidable t.Ordered
  | nil => isTrue trivial
  | node _ k l r =>
    have := decOrdered l
    have := decOrdered r
    inferInstanceAs (Decidable (_ ∧ _ ∧ (∀ x ∈ l.nodes, keyCmp x.2 k = .lt) ∧ ∀ x ∈ r.nodes, keyCmp k x.2 = .lt))

/-- Where the walk of `find_prop_bt` ends: at the node of a name, or at a
zero link word, given as the node and the field. -/
inductive Outcome where
  | found (off : Nat)
  | missing (off field : Nat)
deriving DecidableEq, Repr

/-- The walk of `find_prop_bt` for `s`, on the tree: `.eq` answers the node,
`.lt` goes left and `.gt` right, and a zero link ends the walk there. -/
def search (s : Bytes) : SegTree → Option Outcome
  | nil => none
  | node off k l r =>
    match keyCmp s k with
    | .eq => some (.found off)
    | .lt => if l = nil then some (.missing off btLeft) else l.search s
    | .gt => if r = nil then some (.missing off btRight) else r.search s

/-- The tree with a leaf for `s` at `p` hung where the search ends. -/
def insert (s : Bytes) (p : Nat) : SegTree → SegTree
  | nil => node p s nil nil
  | node off k l r =>
    match keyCmp s k with
    | .eq => node off k l r
    | .lt => node off k (l.insert s p) r
    | .gt => node off k l (r.insert s p)

theorem search_isSome : ∀ {t : SegTree}, t ≠ nil → (t.search s).isSome
  | nil, h => absurd rfl h
  | node off k l r, _ => by
    simp only [search]
    split
    · rfl
    · split
      · rfl
      · exact search_isSome ‹_›
    · split
      · rfl
      · exact search_isSome ‹_›

/-- The search answers a node only when its name compares equal. -/
theorem search_found : ∀ {t : SegTree} {off : Nat}, t.search s = some (.found off) →
    ∃ k, (off, k) ∈ t.nodes ∧ keyCmp s k = .eq
  | nil, _, h => by cases h
  | node o k l r, off, h => by
    simp only [search] at h
    split at h
    · cases h; exact ⟨k, by simp, ‹_›⟩
    · split at h
      · cases h
      · obtain ⟨k', hk, heq⟩ := search_found h; exact ⟨k', by simp [hk], heq⟩
    · split at h
      · cases h
      · obtain ⟨k', hk, heq⟩ := search_found h; exact ⟨k', by simp [hk], heq⟩

/-- The search ends at a zero link of a node of the tree, `left` or `right`,
on the side the name compares. -/
theorem search_missing : ∀ {t : SegTree} {cur f : Nat}, t.search s = some (.missing cur f) →
    ∃ k, (cur, k) ∈ t.nodes ∧ (f = btLeft ∧ keyCmp s k = .lt ∨ f = btRight ∧ keyCmp s k = .gt)
  | nil, _, _, h => by cases h
  | node o k l r, cur, f, h => by
    simp only [search] at h
    split at h
    · cases h
    · split at h
      · cases h; exact ⟨k, by simp, .inl ⟨rfl, ‹_›⟩⟩
      · obtain ⟨k', hk, hf⟩ := search_missing h; exact ⟨k', by simp [hk], hf⟩
    · split at h
      · cases h; exact ⟨k, by simp, .inr ⟨rfl, ‹_›⟩⟩
      · obtain ⟨k', hk, hf⟩ := search_missing h; exact ⟨k', by simp [hk], hf⟩

/-- On an ordered tree, the search for a name with no NUL ends at a node
exactly when the node has that name. -/
theorem search_found_iff (hs : 0 ∉ s) : ∀ {t : SegTree} {off : Nat}, t.Ordered →
    (t.search s = some (.found off) ↔ (off, s) ∈ t.nodes)
  | nil, _, _ => by simp [search, nodes]
  | node o k l r, off, ⟨hl, hr, hlk, hrk⟩ => by
    simp only [search, mem_nodes_node]
    cases hc : keyCmp s k with
    | eq =>
      obtain rfl := (keyCmp_eq_iff hs).1 hc
      have hnl : ∀ x ∈ l.nodes, x.2 ≠ s := fun x hx he => by have := hlk x hx; rw [he, hc] at this; cases this
      have hnr : ∀ x ∈ r.nodes, x.2 ≠ s := fun x hx he => by have := hrk x hx; rw [he, hc] at this; cases this
      simp only [Option.some.injEq, Outcome.found.injEq, Prod.mk.injEq, and_true]
      exact ⟨fun h => .inr (.inl h.symm), fun h => h.elim (fun h => absurd rfl (hnl _ h))
        (Or.rec Eq.symm fun h => absurd rfl (hnr _ h))⟩
    | lt =>
      have hnr : (off, s) ∉ r.nodes := fun h => by
        have h' : keyCmp k s = .lt := hrk _ h
        rw [keyCmp_swap, hc] at h'; cases h'
      have hk : (off, s) ≠ (o, k) := fun h => by cases h; simp at hc
      simp only [hk, hnr, false_or, or_false]
      split
      · subst l; simp [nodes]
      · exact search_found_iff hs hl
    | gt =>
      have hnl : (off, s) ∉ l.nodes := fun h => by
        have h' : keyCmp s k = .lt := hlk _ h
        rw [hc] at h'; cases h'
      have hk : (off, s) ≠ (o, k) := fun h => by cases h; simp at hc
      simp only [hk, hnl, false_or]
      split
      · subst r; simp [nodes]
      · exact search_found_iff hs hr

/-- Hanging a leaf where the search ends adds its node and no other. -/
theorem mem_nodes_insert {s : Bytes} {p cur f : Nat} :
    ∀ {t : SegTree}, t.search s = some (.missing cur f) → ∀ x, x ∈ (t.insert s p).nodes ↔ x = (p, s) ∨ x ∈ t.nodes
  | nil, h => by cases h
  | node o k l r, h => by
    intro x
    simp only [search] at h
    simp only [insert]
    split at h
    · cases h
    · rename_i hc
      simp only [hc, mem_nodes_node]
      split at h
      · subst l; simp [insert, nodes]
      · rw [mem_nodes_insert h]; tauto
    · rename_i hc
      simp only [hc, mem_nodes_node]
      split at h
      · subst r; simp only [insert, nodes, List.not_mem_nil, List.mem_singleton, List.nil_append, mem_nodes_node]; tauto
      · rw [mem_nodes_insert h]; tauto

/-- Where `s` goes, every name it is compared with keeps its side. -/
theorem all_insert {P : Bytes → Prop} {s : Bytes} {p : Nat} (hs : P s) :
    ∀ {t : SegTree}, (∀ x ∈ t.nodes, P x.2) → ∀ x ∈ (t.insert s p).nodes, P x.2
  | nil, _, x, hx => by simp only [insert, nodes, List.nil_append, List.mem_singleton] at hx; subst hx; exact hs
  | node o k l r, ht, x, hx => by
    simp only [insert] at hx
    have hl := fun y hy => ht y (mem_nodes_node.2 (.inl hy))
    have hr := fun y hy => ht y (mem_nodes_node.2 (.inr (.inr hy)))
    split at hx <;> simp only [mem_nodes_node] at hx
    · exact ht x (mem_nodes_node.2 hx)
    · rcases hx with hx | rfl | hx
      · exact all_insert hs hl x hx
      · exact ht _ (mem_nodes_node.2 (.inr (.inl rfl)))
      · exact hr x hx
    · rcases hx with hx | rfl | hx
      · exact hl x hx
      · exact ht _ (mem_nodes_node.2 (.inr (.inl rfl)))
      · exact all_insert hs hr x hx

/-- **Hanging a leaf keeps the order.** -/
theorem Ordered.insert {s : Bytes} {p : Nat} : ∀ {t : SegTree}, t.Ordered → (t.insert s p).Ordered
  | nil, _ => by simp [SegTree.insert, Ordered, nodes]
  | node o k l r, ⟨hl, hr, hlk, hrk⟩ => by
    simp only [SegTree.insert]
    cases hc : keyCmp s k with
    | eq => exact ⟨hl, hr, hlk, hrk⟩
    | lt => exact ⟨hl.insert, hr, all_insert (P := fun x => keyCmp x k = .lt) hc hlk, hrk⟩
    | gt =>
      have hks : keyCmp k s = .lt := by rw [keyCmp_swap, hc]; rfl
      exact ⟨hl, hr.insert, hlk, all_insert (P := fun x => keyCmp k x = .lt) hks hrk⟩

end SegTree

open SegTree

/-! ## Trees in the mapping -/

/-- `Stored pa link t`: the link word value `link` leads to `t`. Zero is the
empty tree; otherwise a node sits at `link`, its `namelen` and name are
those of `t`'s root, and its `left` and `right` words lead to `t`'s
subtrees. -/
inductive Stored (pa : PropArea) : Nat → SegTree → Prop
  | nil : Stored pa 0 .nil
  | node {off : Nat} {name : Bytes} {l r : SegTree} : off ≠ 0 → pa.load (off + btNamelen) = name.length →
      pa.data.read (off + btName) name.length = name → Stored pa (pa.load (off + btLeft)) l →
      Stored pa (pa.load (off + btRight)) r → Stored pa off (.node off name l r)

namespace Stored

variable {pa : PropArea}

theorem eq_nil_iff {link : Nat} {t : SegTree} (h : Stored pa link t) : t = .nil ↔ link = 0 := by
  cases h with
  | nil => simp
  | node hoff => simp [hoff]

/-- Every node of a stored tree is read from the mapping at its offset. -/
theorem node_read {link : Nat} {t : SegTree} (h : Stored pa link t) :
    ∀ x ∈ t.nodes, pa.load (x.1 + btNamelen) = x.2.length ∧ pa.data.read (x.1 + btName) x.2.length = x.2 := by
  induction h with
  | nil => simp [nodes]
  | node _ hlen hname _ _ ihl ihr =>
    intro x hx
    rcases mem_nodes_node.1 hx with hx | rfl | hx
    · exact ihl x hx
    · exact ⟨hlen, hname⟩
    · exact ihr x hx

/-- Two nodes of a stored tree at one offset have one name. -/
theorem name_eq {link : Nat} {t : SegTree} (h : Stored pa link t) {o : Nat} {a b : Bytes}
    (ha : (o, a) ∈ t.nodes) (hb : (o, b) ∈ t.nodes) : a = b := by
  obtain ⟨hla, hra⟩ := h.node_read _ ha
  obtain ⟨hlb, hrb⟩ := h.node_read _ hb
  dsimp only at hla hra hlb hrb
  rw [← hra, ← hrb, ← hla, ← hlb]

/-- **Frame.** A tree stays stored when the bytes of its nodes, fields and
name, stay. -/
theorem frame {pa' : PropArea} {link : Nat} {t : SegTree} (h : Stored pa link t)
    (hag : ∀ x ∈ t.nodes, ∀ i, x.1 ≤ i → i < x.1 + btName + x.2.length → pa'.data i = pa.data i) :
    Stored pa' link t := by
  induction h with
  | nil => exact .nil
  | @node off name l r hoff hlen hname _ _ ihl ihr =>
    have hroot := hag (off, name) (mem_nodes_node.2 (.inr (.inl rfl)))
    have hword : ∀ f, f + 4 ≤ btName → pa'.load (off + f) = pa.load (off + f) := fun f hf =>
      Mem.loadU32_congr fun i h₁ h₂ => hroot i (by omega) (by omega)
    refine .node hoff ?_ ?_ ?_ ?_
    · rw [hword _ (by decide), hlen]
    · rw [Mem.read_congr fun i h₁ h₂ => hroot i (by omega) h₂, hname]
    · rw [hword _ (by decide)]
      exact ihl fun x hx => hag x (mem_nodes_node.2 (.inl hx))
    · rw [hword _ (by decide)]
      exact ihr fun x hx => hag x (mem_nodes_node.2 (.inr (.inr hx)))

end Stored

section Arena

variable {pa : PropArea} {objs : List Obj}

/-- A node object the tree's node sits in, holding its fields and its name. -/
def NodeObj (objs : List Obj) (x : Nat × Bytes) : Prop :=
  ∃ y ∈ objs, y.kind = .node ∧ y.off = x.1 ∧ btName + x.2.length ≤ y.size

/-- In an area with the arena invariant, a tree stored from a node of the
list lies in node objects of the list, its root first in offset. -/
theorem Arena.stored_nodeObj (h : Arena pa objs) {link : Nat} {t : SegTree} (ht : Stored pa link t) :
    (link ≠ 0 → NodeAt objs link) → ∀ x ∈ t.nodes, link ≤ x.1 ∧ NodeObj objs x := by
  induction ht with
  | nil => simp [nodes]
  | @node off name l r hoff hlen _ hsl hsr ihl ihr =>
    intro hat x hx
    obtain ⟨y, hy, hyk, rfl⟩ := hat hoff
    have hok := h.ok y hy
    unfold ObjOk at hok; rw [hyk] at hok
    have hside : ∀ f, (f, Kind.node) ∈ linkFields → pa.load (y.off + f) ≠ 0 →
        NodeAt objs (pa.load (y.off + f)) ∧ y.off < pa.load (y.off + f) := fun f hf hne => by
      obtain ⟨t, ht, htk, hto, hlt⟩ := (hok.2 _ hf).resolve_left hne
      exact ⟨⟨t, ht, htk, hto⟩, hto ▸ hlt⟩
    rcases mem_nodes_node.1 hx with hx | rfl | hx
    · by_cases hne : pa.load (y.off + btLeft) = 0
      · rw [hsl.eq_nil_iff.2 hne] at hx; cases hx
      · obtain ⟨h₁, h₂⟩ := ihl (fun _ => (hside _ left_mem_linkFields hne).1) x hx
        exact ⟨by have := (hside _ left_mem_linkFields hne).2; omega, h₂⟩
    · refine ⟨le_rfl, y, hy, hyk, rfl, ?_⟩
      have := hok.1; rw [hlen] at this; simp only [sizeofPropBt, btName] at this ⊢; omega
    · by_cases hne : pa.load (y.off + btRight) = 0
      · rw [hsr.eq_nil_iff.2 hne] at hx; cases hx
      · obtain ⟨h₁, h₂⟩ := ihr (fun _ => (hside _ right_mem_linkFields hne).1) x hx
        exact ⟨by have := (hside _ right_mem_linkFields hne).2; omega, h₂⟩

/-- The nodes of a tree stored behind a link of a node of the list come
after that node. -/
theorem Arena.stored_sub (h : Arena pa objs) {x : Obj} (hx : x ∈ objs) (hxk : x.kind = .node) {f : Nat}
    (hf : (f, Kind.node) ∈ linkFields) {u : SegTree} (hu : Stored pa (pa.load (x.off + f)) u) :
    ∀ y ∈ u.nodes, x.off < y.1 ∧ NodeObj objs y := by
  by_cases hne : pa.load (x.off + f) = 0
  · rw [hu.eq_nil_iff.2 hne]; exact fun _ hy => absurd hy (List.not_mem_nil _)
  have hok := h.ok x hx
  unfold ObjOk at hok; rw [hxk] at hok
  obtain ⟨t, ht, htk, hto, hlt⟩ := (hok.2 _ hf).resolve_left hne
  dsimp only at htk hto
  intro y hy
  obtain ⟨h₁, h₂⟩ := h.stored_nodeObj hu (fun _ => ⟨t, ht, htk, hto⟩) y hy
  exact ⟨by omega, h₂⟩

/-- Bytes of a node object other than the one at `cur` lie below
`bytes_used_` and off the link word at `cur + f`. -/
theorem Arena.off_word (h : Arena pa objs) {cur f : Nat} (hf : f + 4 ≤ btName) (hcur : NodeAt objs cur)
    {y : Nat × Bytes} (hy : NodeObj objs y) (hne : y.1 ≠ cur) :
    ∀ i, y.1 ≤ i → i < y.1 + btName + y.2.length → i < pa.bytesUsed ∧ (i < cur + f ∨ cur + f + 4 ≤ i) := by
  obtain ⟨z, hz, hzk, rfl⟩ := hcur
  obtain ⟨x, hx, -, hxo, hxs⟩ := hy
  have hxz : x ≠ z := fun e => hne (by rw [← hxo, e])
  have := h.below x hx; have hzs := h.size_ge z hz
  rw [hzk] at hzs; simp only [Kind.minSize, sizeofPropBt, btName] at hzs hf hxs ⊢
  intro i h₁ h₂
  rcases h.disjoint hx hz hxz with h' | h' <;> omega

/-- What `find_prop_bt` answers once its walk has ended: the node it stands
at; at a zero link, a new node behind it when it may allocate, else
`nullptr`. -/
def SegTree.Outcome.result (pa : PropArea) (s : Bytes) (alloc : Bool) : Outcome → Option (PropArea × Ptr)
  | .found off => some (pa, some off)
  | .missing off f => if alloc then pa.newPropBtAt (off + f) s else some (pa, none)

/-- One side of a turn of `find_prop_bt`: a set link goes on to the tree
behind it, a zero link ends the walk. -/
theorem Arena.side_eq_search (h : Arena pa objs) {s : Bytes} {alloc : Bool} {fuel : Nat} {x : Obj} (hx : x ∈ objs)
    (hxk : x.kind = .node) {f : Nat} (hf : (f, Kind.node) ∈ linkFields) {u : SegTree}
    (hu : Stored pa (pa.load (x.off + f)) u)
    (ih : ∀ {t : Nat} {v : SegTree}, Stored pa t v → NodeAt objs t → t ≠ 0 → x.off < t →
      PropArea.findPropBt fuel pa (some t) s alloc = (v.search s).bind (Outcome.result pa s alloc)) :
    (if pa.load (x.off + f) ≠ 0 then PropArea.findPropBt fuel pa (toPropObj (pa.load (x.off + f))) s alloc
      else if alloc then pa.newPropBtAt (x.off + f) s else some (pa, none)) =
    (if u = .nil then some (Outcome.missing x.off f) else u.search s).bind (Outcome.result pa s alloc) := by
  by_cases hne : pa.load (x.off + f) = 0
  · rw [if_neg (not_not.2 hne), if_pos (hu.eq_nil_iff.2 hne)]; rfl
  have hok := h.ok x hx
  unfold ObjOk at hok; rw [hxk] at hok
  obtain ⟨t, ht, htk, hto, hlt⟩ := (hok.2 _ hf).resolve_left hne
  dsimp only at htk hto
  have := h.below t ht; have := h.used_le
  rw [if_pos hne, if_neg (fun e => hne (hu.eq_nil_iff.1 e)), toPropObj_of_le (by omega)]
  exact ih hu ⟨t, ht, htk, hto⟩ hne (by omega)

/-- **`find_prop_bt` walks the stored tree.** From a node of an area with
the arena invariant, with fuel past `bytes_used_`, it answers as the search
on the tree stored there ends. -/
theorem Arena.findPropBt_eq_search (h : Arena pa objs) (s : Bytes) (alloc : Bool) :
    ∀ fuel {root : Nat} {t : SegTree}, Stored pa root t → NodeAt objs root → root ≠ 0 → pa.bytesUsed < fuel + root →
      PropArea.findPropBt fuel pa (some root) s alloc = (t.search s).bind (Outcome.result pa s alloc) := by
  intro fuel
  induction fuel with
  | zero =>
    rintro root t - ⟨y, hy, -, rfl⟩ - hlt
    have := h.below y hy; have := y.kind.one_le_minSize; have := h.size_ge y hy; omega
  | succ fuel ih =>
    rintro root t ht ⟨y, hy, hyk, hyo⟩ hne hlt
    cases ht with
    | nil => exact absurd rfl hne
    | @node _ name _ _ _ hlen hname hl hr =>
      subst hyo
      have ih' : ∀ {t : Nat} {v : SegTree}, Stored pa t v → NodeAt objs t → t ≠ 0 → y.off < t →
          PropArea.findPropBt fuel pa (some t) s alloc = (v.search s).bind (Outcome.result pa s alloc) :=
        fun hv hat ht0 hlt' => ih hv hat ht0 (by omega)
      simp only [PropArea.findPropBt, cmpPropName_eq_keyCmp hlen hname, search]
      cases keyCmp s name with
      | eq => rfl
      | lt => exact h.side_eq_search hy hyk left_mem_linkFields hl ih'
      | gt => exact h.side_eq_search hy hyk right_mem_linkFields hr ih'

/-! ## Allocating a node -/

/-- A name too long for what is left of the data region allocates nothing. -/
theorem newPropBtAt_of_gt {s : Bytes} (hfit : paDataSize < pa.bytesUsed + align4 (sizeofPropBt + s.length + 1))
    (w : Nat) : pa.newPropBtAt w s = some (pa, none) := by
  simp only [newPropBtAt, newPropBt, allocateObj, if_pos hfit, Option.bind_eq_bind, Option.some_bind]

/-- A name that fits gets a node at `bytes_used_`, with its `namelen`, its
name and zero `prop` and links, published in the zero link word `x.off + f`;
no other byte below `bytes_used_` changes. -/
theorem Arena.newPropBtAt_of_le (h : Arena pa objs) {x : Obj} (hx : x ∈ objs) (hxk : x.kind = .node) {f : Nat}
    (hf : (f, Kind.node) ∈ linkFields) {s : Bytes}
    (hfit : pa.bytesUsed + align4 (sizeofPropBt + s.length + 1) ≤ paDataSize) :
    ∃ pa₂, pa.newPropBtAt (x.off + f) s = some (pa₂, some pa.bytesUsed) ∧
      (∀ i < pa.bytesUsed, (i < x.off + f ∨ x.off + f + 4 ≤ i) → pa₂.data i = pa.data i) ∧
      pa₂.load (x.off + f) = pa.bytesUsed ∧ Stored pa₂ pa.bytesUsed (.node pa.bytesUsed s .nil .nil) ∧
      ∀ g, 4 ≤ g → g + 4 ≤ btName → pa₂.load (pa.bytesUsed + g) = 0 := by
  have hsz : sizeofPropBt + s.length + 1 ≤ align4 (sizeofPropBt + s.length + 1) := by unfold align4; omega
  obtain ⟨pa₁, hc⟩ := constructPropBt_isSome { pa with bytesUsed := pa.bytesUsed + align4 (sizeofPropBt + s.length + 1) }
    pa.bytesUsed s s.length (by simp only [btName, sizeofPropBt] at hsz hfit ⊢; omega)
  obtain ⟨-, hout, hlinks, hlen⟩ := constructPropBt_spec hc
  have hname := constructPropBt_read_name hc
  have hxs := h.size_ge x hx; have := h.below x hx; have := linkFields_lt hf; have hroot := h.below _ h.root
  rw [hxk] at hxs; simp only [Kind.minSize, sizeofPropBt] at hxs hroot this
  have hw : x.off + f + 4 ≤ pa.bytesUsed := by omega
  have hdata : paDataSize < 2 ^ 32 := by decide
  have hlt : pa.bytesUsed < 2 ^ 32 := by have := h.used_le; omega
  have hslen : s.length < 2 ^ 32 := by omega
  have hstore : ∀ o, pa.bytesUsed ≤ o → (pa₁.data.storeU32 (x.off + f) pa.bytesUsed).loadU32 o = pa₁.load o :=
    fun o ho => Mem.loadU32_fill_of_disjoint _ (Or.inr (by omega))
  have hzero : ∀ g, g + 4 ≤ btName → 4 ≤ g → pa₁.load (pa.bytesUsed + g) = 0 := fun g hg₁ hg₂ =>
    (hlinks g hg₂ hg₁).trans (load_eq_zero fun i h₁ _ => h.zero_above i (by omega))
  refine ⟨{ pa₁ with data := pa₁.data.storeU32 (x.off + f) pa.bytesUsed }, ?_, fun i hi hi' => ?_, ?_, ?_,
    fun g hg₁ hg₂ => (hstore _ (Nat.le_add_right _ _)).trans (hzero g hg₂ hg₁)⟩
  · simp only [PropArea.newPropBtAt, PropArea.newPropBt, allocateObj, if_neg (show ¬paDataSize < pa.bytesUsed + align4 (sizeofPropBt + s.length + 1) by omega), hc,
      store_of_le pa₁ pa.bytesUsed (show x.off + f + 4 ≤ paDataSize by have := h.used_le; omega),
      Option.bind_eq_bind, Option.some_bind]
  · show pa₁.data.storeU32 (x.off + f) pa.bytesUsed i = pa.data i
    rw [Mem.storeU32_apply_of_not_mem hi']
    exact hout i (.inl hi)
  · show Mem.loadU32 _ _ = _
    rw [Mem.loadU32_storeU32, Nat.mod_eq_of_lt hlt]
  · refine .node (by omega) ?_ ?_ ?_ ?_
    · show Mem.loadU32 _ _ = _
      rw [hstore _ (by simp only [btNamelen]; omega), hlen, Nat.mod_eq_of_lt hslen]
    · show Mem.read _ _ _ = _
      rw [Mem.read_congr fun i h₁ _ => Mem.storeU32_apply_of_not_mem (.inr (by simp only [btName] at h₁; omega)),
        hname]
    · show Stored _ (Mem.loadU32 _ _) _
      rw [hstore _ (Nat.le_add_right _ _), hzero _ (by decide) (by decide)]
      exact .nil
    · show Stored _ (Mem.loadU32 _ _) _
      rw [hstore _ (Nat.le_add_right _ _), hzero _ (by decide) (by decide)]
      exact .nil

/-- A node stays stored over new subtrees when its `namelen` and name stay. -/
theorem Stored.node_of_agree {pa₂ : PropArea} {off : Nat} {k : Bytes} {l r L R : SegTree}
    (ht : Stored pa off (.node off k l r))
    (hhead : ∀ i, off ≤ i → i < off + btName + k.length → (i < off + btLeft ∨ off + btChildren ≤ i) →
      pa₂.data i = pa.data i)
    (hL : Stored pa₂ (pa₂.load (off + btLeft)) L) (hR : Stored pa₂ (pa₂.load (off + btRight)) R) :
    Stored pa₂ off (.node off k L R) := by
  cases ht with
  | node hoff hlen hname =>
    refine .node hoff ?_ ?_ hL hR
    · have hnl : pa₂.load (off + btNamelen) = pa.load (off + btNamelen) := Mem.loadU32_congr fun i h₁ h₂ =>
        hhead i (by simp only [btNamelen] at h₁; omega) (by simp only [btNamelen, btName] at h₂ ⊢; omega)
          (.inl (by simp only [btNamelen, btLeft] at h₂ ⊢; omega))
      rw [hnl, hlen]
    · have hread : pa₂.data.read (off + btName) k.length = pa.data.read (off + btName) k.length :=
        Mem.read_congr fun i h₁ h₂ => hhead i (by omega) h₂ (.inr (by simp only [btName, btChildren] at h₁ ⊢; omega))
      rw [hread, hname]

/-- **After the allocation the mapping stores the tree with the new leaf.**
The new node lies past the old `bytes_used_`, and only the zero link word
where the search ended is written below it; so every node on the way down
leads to its subtree with the leaf hung, and every other subtree stays. -/
theorem Arena.stored_insert (h : Arena pa objs) {pa₂ : PropArea} {s : Bytes} {p cur f : Nat}
    (hf : f + 4 ≤ btName) (hcur : NodeAt objs cur)
    (hag : ∀ i < pa.bytesUsed, (i < cur + f ∨ cur + f + 4 ≤ i) → pa₂.data i = pa.data i)
    (hlink : pa₂.load (cur + f) = p) (hleaf : Stored pa₂ p (.node p s .nil .nil)) :
    ∀ {root : Nat} {t : SegTree}, Stored pa root t → NodeAt objs root → t.Ordered →
      t.search s = some (.missing cur f) → Stored pa₂ root (t.insert s p) := by
  have hframe : ∀ {link : Nat} {u : SegTree}, Stored pa link u → (∀ x ∈ u.nodes, NodeObj objs x ∧ x.1 ≠ cur) →
      Stored pa₂ link u := fun hu hx => hu.frame fun x hx' i h₁ h₂ =>
    (h.off_word hf hcur (hx x hx').1 (hx x hx').2 i h₁ h₂).elim (hag i)
  intro root t ht
  induction ht with
  | nil => intro _ _ hs; cases hs
  | @node off k l r hoff hlen hname hsl hsr ihl ihr =>
    rintro ⟨y, hy, hyk, rfl⟩ ⟨hol, hor, hlk, hrk⟩ hs
    have ht := Stored.node hoff hlen hname hsl hsr
    have hself : NodeObj objs (y.off, k) :=
      (h.stored_nodeObj ht (fun _ => ⟨y, hy, hyk, rfl⟩) _ (mem_nodes_node.2 (.inr (.inl rfl)))).2
    have hl := h.stored_sub hy hyk left_mem_linkFields hsl
    have hr := h.stored_sub hy hyk right_mem_linkFields hsr
    have hbelow : ∀ i, i < y.off + btName + k.length → i < pa.bytesUsed := fun i hi => by
      obtain ⟨z, hz, -, hzo, hzs⟩ := hself; have := h.below z hz; dsimp only at hzo hzs; omega
    have hlink_at : ∀ {g : Nat} {u : SegTree}, (g, Kind.node) ∈ linkFields → Stored pa (pa.load (y.off + g)) u →
        u ≠ .nil → NodeAt objs (pa.load (y.off + g)) := fun hg hu hne => by
      have hok := h.ok y hy
      unfold ObjOk at hok; rw [hyk] at hok
      obtain ⟨t, ht, htk, hto, -⟩ := (hok.2 _ hg).resolve_left fun e => hne (hu.eq_nil_iff.2 e)
      exact ⟨t, ht, htk, hto⟩
    -- a node of one side is no node of the other
    have hsides : ∀ a ∈ l.nodes, ∀ b ∈ r.nodes, a.1 ≠ b.1 := fun a ha b hb he => by
      have hab : a.2 = b.2 := ht.name_eq (mem_nodes_node.2 (.inl ha)) (he ▸ mem_nodes_node.2 (.inr (.inr hb)))
      have h₁ := hlk a ha; have h₂ := hrk b hb
      rw [← hab, keyCmp_swap, h₁] at h₂; cases h₂
    simp only [search] at hs
    simp only [SegTree.insert]
    cases hc : keyCmp s k with
    | eq => simp only [hc] at hs; cases hs
    | lt =>
      simp only [hc] at hs
      by_cases hl0 : l = .nil
      · -- the leaf hangs on this node's `left`
        rw [if_pos hl0] at hs
        cases hs; subst hl0
        refine ht.node_of_agree (fun i h₁ h₂ h₃ => hag i (hbelow i h₂) (by simp only [btLeft, btChildren] at h₃ ⊢; omega))
          (by rw [hlink]; exact hleaf) ?_
        have hw : pa₂.load (y.off + btRight) = pa.load (y.off + btRight) := Mem.loadU32_congr fun i h₁ h₂ =>
          hag i (hbelow i (by simp only [btRight, btName] at h₂ ⊢; omega)) (.inr (by simp only [btRight, btLeft] at h₁ ⊢; omega))
        rw [hw]
        exact hframe hsr fun x hx => ⟨(hr x hx).2, (Nat.ne_of_lt (hr x hx).1).symm⟩
      · rw [if_neg hl0] at hs
        obtain ⟨kc, hkc, -⟩ := search_missing hs
        have hhead := h.off_word hf hcur hself (Nat.ne_of_lt (hl _ hkc).1)
        dsimp only at hhead
        have hword : ∀ g, g + 4 ≤ btName → pa₂.load (y.off + g) = pa.load (y.off + g) := fun g hg =>
          Mem.loadU32_congr fun i h₁ h₂ => (hhead i (by omega) (by omega)).elim (hag i)
        refine ht.node_of_agree (fun i h₁ h₂ _ => (hhead i h₁ h₂).elim (hag i)) ?_ ?_
        · rw [hword _ (by decide)]
          exact ihl (hlink_at left_mem_linkFields hsl hl0) hol hs
        · rw [hword _ (by decide)]
          exact hframe hsr fun x hx => ⟨(hr x hx).2, fun e => hsides _ hkc x hx (e ▸ rfl)⟩
    | gt =>
      simp only [hc] at hs
      by_cases hr0 : r = .nil
      · -- the leaf hangs on this node's `right`
        rw [if_pos hr0] at hs
        cases hs; subst hr0
        refine ht.node_of_agree (fun i h₁ h₂ h₃ => hag i (hbelow i h₂)
          (by simp only [btLeft, btRight, btChildren] at h₃ ⊢; omega)) ?_ (by rw [hlink]; exact hleaf)
        have hw : pa₂.load (y.off + btLeft) = pa.load (y.off + btLeft) := Mem.loadU32_congr fun i h₁ h₂ =>
          hag i (hbelow i (by simp only [btLeft, btName] at h₂ ⊢; omega)) (.inl (by simp only [btRight, btLeft] at h₂ ⊢; omega))
        rw [hw]
        exact hframe hsl fun x hx => ⟨(hl x hx).2, (Nat.ne_of_lt (hl x hx).1).symm⟩
      · rw [if_neg hr0] at hs
        obtain ⟨kc, hkc, -⟩ := search_missing hs
        have hhead := h.off_word hf hcur hself (Nat.ne_of_lt (hr _ hkc).1)
        dsimp only at hhead
        have hword : ∀ g, g + 4 ≤ btName → pa₂.load (y.off + g) = pa.load (y.off + g) := fun g hg =>
          Mem.loadU32_congr fun i h₁ h₂ => (hhead i (by omega) (by omega)).elim (hag i)
        refine ht.node_of_agree (fun i h₁ h₂ _ => (hhead i h₁ h₂).elim (hag i)) ?_ ?_
        · rw [hword _ (by decide)]
          exact hframe hsl fun x hx => ⟨(hl x hx).2, fun e => hsides x hx _ hkc (e ▸ rfl)⟩
        · rw [hword _ (by decide)]
          exact ihr (hlink_at right_mem_linkFields hsr hr0) hor hs

end Arena

/-! ## Search or insert -/

/-- **`find_prop_bt` is search-or-insert.** `cmp_prop_name` is a strict total
order on names with no NUL. From a node of an area with the arena invariant,
over the ordered tree stored there and a segment `s` with no NUL,
`find_prop_bt(root, s, |s|, alloc)` answers the node named `s` when there is
one, leaving the area as it was. Otherwise it answers `nullptr` without a
write when it may not allocate; when it may, it answers `nullptr` without a
write when the node does not fit, and else a new node at `bytes_used_`, after
which the mapping stores the tree with that node hung as a leaf where the
search ended, ordered, with `s` added to its names. -/
theorem findPropBt_search_or_insert {pa : PropArea} {objs : List Obj} {root : Nat} {t : SegTree} {s : Bytes}
    (h : Arena pa objs) (hroot : NodeAt objs root) (ht : Stored pa root t) (hne : t ≠ .nil) (hord : t.Ordered)
    (hs : 0 ∉ s) (alloc : Bool) :
    (∀ a b c : Bytes, 0 ∉ a → 0 ∉ b → (keyCmp a b = .eq ↔ a = b) ∧ keyCmp b a = (keyCmp a b).swap ∧
      (keyCmp a b = .lt → keyCmp b c = .lt → keyCmp a c = .lt)) ∧
    (∀ off, (off, s) ∈ t.nodes → findPropBt walkBound pa (some root) s alloc = some (pa, some off)) ∧
    ((∀ off, (off, s) ∉ t.nodes) →
      (alloc = false → findPropBt walkBound pa (some root) s alloc = some (pa, none)) ∧
      (alloc = true →
        (paDataSize < pa.bytesUsed + align4 (sizeofPropBt + s.length + 1) →
          findPropBt walkBound pa (some root) s alloc = some (pa, none)) ∧
        (pa.bytesUsed + align4 (sizeofPropBt + s.length + 1) ≤ paDataSize →
          ∃ pa', findPropBt walkBound pa (some root) s alloc = some (pa', some pa.bytesUsed) ∧
            Stored pa' root (t.insert s pa.bytesUsed) ∧ (t.insert s pa.bytesUsed).Ordered ∧
            ∀ x, x ∈ (t.insert s pa.bytesUsed).nodes ↔ x = (pa.bytesUsed, s) ∨ x ∈ t.nodes))) := by
  have hfuel : pa.bytesUsed < walkBound + root := by have := h.used_le; simp only [walkBound]; omega
  have hwalk := h.findPropBt_eq_search s alloc walkBound ht hroot (fun e => hne (ht.eq_nil_iff.2 e)) hfuel
  refine ⟨fun a b c ha hb => ⟨keyCmp_eq_iff ha, keyCmp_swap a b, keyCmp_lt_trans ha hb⟩,
    fun off hoff => by rw [hwalk, (search_found_iff hs hord).2 hoff]; rfl, fun hno => ?_⟩
  -- the search ends at a zero link
  obtain ⟨o, ho⟩ := Option.isSome_iff_exists.1 (search_isSome (s := s) hne)
  obtain ⟨cur, f, rfl⟩ : ∃ cur f, o = .missing cur f := by
    cases o with
    | found off => exact absurd ((search_found_iff hs hord).1 ho) (hno off)
    | missing cur f => exact ⟨cur, f, rfl⟩
  rw [hwalk, ho, Option.some_bind]
  obtain ⟨kc, hkc, hf⟩ := search_missing ho
  obtain ⟨y, hy, hyk, hyo, -⟩ := (h.stored_nodeObj ht (fun _ => hroot) _ hkc).2
  dsimp only at hyo; subst hyo
  have hf' : (f, Kind.node) ∈ linkFields := by
    rcases hf with ⟨rfl, -⟩ | ⟨rfl, -⟩
    · exact left_mem_linkFields
    · exact right_mem_linkFields
  refine ⟨fun ha => by subst ha; rfl, fun ha => ⟨fun hfit => by subst ha; exact newPropBtAt_of_gt hfit _,
    fun hfit => ?_⟩⟩
  subst ha
  obtain ⟨pa₂, hres, hag, hlink, hleaf, -⟩ := h.newPropBtAt_of_le hy hyk hf' hfit
  have hf4 : f + 4 ≤ btName := by have := linkFields_lt hf'; simpa only [sizeofPropBt, btName] using this
  exact ⟨pa₂, hres, h.stored_insert hf4 ⟨y, hy, hyk, rfl⟩ hag hlink hleaf ht hroot hord ho, hord.insert,
    mem_nodes_insert ho⟩

/-- The area after `add("a", 1, "", 0)` on a fresh one: the node of `a` sits
at 112, behind the root's `children`. -/
def areaA : PropArea := ((fresh.add [97] 1 [] 0).map Prod.fst).getD fresh

/-- A fresh area after adding `b`, `a` and `c`, each with the value `y`:
the first segment's tree has `b` at 112, `a` at 236 on its left and `c` at
360 on its right. -/
def areaBAC : PropArea :=
  ((((((fresh.add [98] 1 [121] 1).map Prod.fst).getD fresh).add [97] 1 [121] 1).map Prod.fst).getD fresh).add
    [99] 1 [121] 1 |>.map Prod.fst |>.getD fresh

/-- The tree `find_prop_bt` walks in `areaBAC`. -/
def treeBAC : SegTree := .node 112 [98] (.node 236 [97] .nil .nil) (.node 360 [99] .nil .nil)

/-- In `areaBAC`, `find_prop_bt` finds `c` by going right, and for `d`, with
allocation, hangs a new node at `bytes_used_` behind `c`'s `right` link: the
tree stays ordered and gains `d`. -/
theorem findPropBt_finds_c_inserts_d :
    findPropBt walkBound areaBAC (some 112) [99] false = some (areaBAC, some 360) ∧
      ∃ pa', findPropBt walkBound areaBAC (some 112) [100] true = some (pa', some areaBAC.bytesUsed) ∧
        Stored pa' 112 (treeBAC.insert [100] areaBAC.bytesUsed) ∧ (treeBAC.insert [100] areaBAC.bytesUsed).Ordered ∧
        ∀ x, x ∈ (treeBAC.insert [100] areaBAC.bytesUsed).nodes ↔ x = (areaBAC.bytesUsed, [100]) ∨ x ∈ treeBAC.nodes := by
  have hreach : Reachable areaBAC :=
    .step (.step (.step .fresh (.add [98] 1 [121] 1 true rfl)) (.add [97] 1 [121] 1 true rfl)) (.add [99] 1 [121] 1 true rfl)
  obtain ⟨objs, ha⟩ := hreach.arena
  have hr : Reach areaBAC ([] ++ [(btChildren, .node)]) (areaBAC.load (0 + btChildren)) .node :=
    .link .root children_mem_linkFields (by decide)
  obtain ⟨x, hx, hxo, hxk, -⟩ := ha.reach_mem hr
  rw [show areaBAC.load (0 + btChildren) = 112 by decide] at hxo
  have hnil : ∀ o g, areaBAC.load (o + g) = 0 → Stored areaBAC (areaBAC.load (o + g)) .nil := fun _ _ hg => hg ▸ .nil
  have hleaf : ∀ o name, o ≠ 0 → areaBAC.load (o + btNamelen) = name.length →
      areaBAC.data.read (o + btName) name.length = name → areaBAC.load (o + btLeft) = 0 →
      areaBAC.load (o + btRight) = 0 → Stored areaBAC o (.node o name .nil .nil) :=
    fun o _ h₀ hl hn hL hR => .node h₀ hl hn (hnil o _ hL) (hnil o _ hR)
  have ht : Stored areaBAC 112 treeBAC := .node (by decide) (by decide) (by decide)
    ((show areaBAC.load (112 + btLeft) = 236 by decide) ▸
      hleaf 236 [97] (by decide) (by decide) (by decide) (by decide) (by decide))
    ((show areaBAC.load (112 + btRight) = 360 by decide) ▸
      hleaf 360 [99] (by decide) (by decide) (by decide) (by decide) (by decide))
  have hord : treeBAC.Ordered := by decide
  refine ⟨(findPropBt_search_or_insert ha ⟨x, hx, hxk, hxo⟩ ht nofun hord (by decide) false).2.1 360
    (by simp [treeBAC, SegTree.nodes]), ?_⟩
  exact ((findPropBt_search_or_insert ha ⟨x, hx, hxk, hxo⟩ ht nofun hord (by decide) true).2.2
    (fun off h => by simp [treeBAC, SegTree.nodes] at h)).2 rfl |>.2 (by decide)

end PropArea

end SysProps
