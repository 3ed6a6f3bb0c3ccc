import SysProps.Area.TrieWrites

/-!
# `add` and `remove` keep the trie well formed

`add` walks the name's segments with `alloc_if_needed`: where a segment's
tree has no node for the segment, it hangs a new node, named by the segment,
at the zero link where `find_prop_bt`'s search ended, or behind the zero
`children` link of the node before; at the end it publishes a new entry in
the zero `prop` word of the last node. `remove` clears a `prop` word, zeroes
the entry, and may run `prune_trie` from the root. On the trie the root heads
each of these writes changes one node, at the end of a chain of links
(`PTrie.modify`): a link set to a new leaf (`withChild`), or a `prop` word
set (`withProp`); pruning leaves `pruned`.

**What is proved.** Every area reached from a fresh one by `add` and `remove`
with names that are C strings (`CReachable`) keeps the arena invariant and a
root heading a well-formed trie (`CReachable.trieOk`): the root has no entry
and no neighbours, every node's name is a segment, and each segment's tree is
in `cmp_prop_name` order. `add` of a new name whose nodes and entry fit answers
`true` and grows `bytes_used_` by at most them (`Arena.add_room`), so a run of
such calls fills an area name after name (`Arena.addAll_fill`).

**What it does not establish.** Names with a NUL inside are no C strings and
are left out: `cmp_prop_name` stops at a NUL, so two such segments can
compare equal and share a node.
-/

namespace SysProps

namespace PropArea

open PTrie

variable {pa : PropArea}

/-! ## A node after a write to one of its words -/

/-- **A node after a write to one link.** When a write keeps the node's bytes
off the link word `d` and the nodes of its other subtrees, the node heads its
trie with the subtree behind `d` replaced by what the link now leads to. -/
theorem Heads.withChild {pa' : PropArea} {o : Nat} {k : Bytes} {p : Nat} {l c r : PTrie}
    (ht : Heads pa o (node o k p l c r)) {d : Dir}
    (hag : ∀ i, ((∃ d', d' ≠ d ∧ ((node o k p l c r).child d').NodeBytes i) ∨
      (o ≤ i ∧ i < o + btName + k.length ∧ (i < o + d.field ∨ o + d.field + 4 ≤ i))) → pa'.data i = pa.data i)
    {u : PTrie} (hu : TStored pa' (pa'.load (o + d.field)) u) : Heads pa' o ((node o k p l c r).withChild d u) := by
  obtain ⟨-, hlen, hname, hp, hl, hc, hr⟩ := ht
  obtain ⟨hload, hread, hsub⟩ := keep_step hag
  have hb := d.field_bounds
  have hlen' : pa'.load (o + btNamelen) = k.length := by
    rw [hload btNamelen (by decide) (.inl (by simp only [btNamelen, btProp] at hb ⊢; omega)), hlen]
  have hp' : p = pa'.load (o + btProp) := by rw [hload btProp (by decide) (.inl hb.1), hp]
  have hkeep : ∀ (d' : Dir) {v : PTrie}, d' ≠ d → TStored pa (pa.load (o + d'.field)) v →
      ((node o k p l c r).child d' = v) → TStored pa' (pa'.load (o + d'.field)) v :=
    fun d' v hd' hs hv => hsub d' hd' v (fun _ h => hv ▸ h) hs
  cases d with
  | left => exact ⟨rfl, hlen', hread.trans hname, hp', hu, hkeep .children (by decide) hc rfl,
      hkeep .right (by decide) hr rfl⟩
  | children => exact ⟨rfl, hlen', hread.trans hname, hp', hkeep .left (by decide) hl rfl, hu,
      hkeep .right (by decide) hr rfl⟩
  | right => exact ⟨rfl, hlen', hread.trans hname, hp', hkeep .left (by decide) hl rfl,
      hkeep .children (by decide) hc rfl, hu⟩

/-- **A node after a write to its `prop` word.** When a write keeps the
node's bytes off the word and the nodes of its subtrees, the node heads its
trie with the `prop` word it now reads. -/
theorem Heads.withProp {pa' : PropArea} {o : Nat} {k : Bytes} {p : Nat} {l c r : PTrie}
    (ht : Heads pa o (node o k p l c r))
    (hag : ∀ i, ((∃ d, ((node o k p l c r).child d).NodeBytes i) ∨
      (o ≤ i ∧ i < o + btName + k.length ∧ (i < o + btProp ∨ o + btProp + 4 ≤ i))) → pa'.data i = pa.data i) :
    Heads pa' o ((node o k p l c r).withProp (pa'.load (o + btProp))) := by
  obtain ⟨-, hlen, hname, -, hl, hc, hr⟩ := ht
  have hload : ∀ f, f + 4 ≤ btName → (f + 4 ≤ btProp ∨ btProp + 4 ≤ f) → pa'.load (o + f) = pa.load (o + f) :=
    fun f hf hd => Mem.loadU32_congr fun i h₁ h₂ => hag i (.inr ⟨by omega, by omega, by omega⟩)
  have hsub : ∀ (d : Dir) {v : PTrie}, (node o k p l c r).child d = v → TStored pa (pa.load (o + d.field)) v →
      TStored pa' (pa'.load (o + d.field)) v := fun d v hv hs => by
    rw [hload d.field d.field_bounds.2 (.inr d.field_bounds.1)]
    exact hs.frame fun i hi => hag i (.inl ⟨d, hv ▸ hi⟩)
  have hpn : btProp + 4 ≤ btName := by decide
  refine ⟨rfl, by rw [hload btNamelen (by decide) (.inl (by decide)), hlen], ?_, rfl, hsub .left rfl hl,
    hsub .children rfl hc, hsub .right rfl hr⟩
  rw [Mem.read_congr fun i h₁ h₂ => hag i (.inr ⟨by omega, h₂, by omega⟩), hname]

section Arena

variable {objs : List Obj}

/-- A write to the word `g` of the node `m`, below `bytes_used_`, keeps the
bytes of every other node object. -/
theorem Arena.kept_off (h : Arena pa objs) {pa' : PropArea} {m g : Nat} (hg : g + 4 ≤ btName) (hm : NodeAt objs m)
    (hag : ∀ i < pa.bytesUsed, (i < m + g ∨ m + g + 4 ≤ i) → pa'.data i = pa.data i)
    {y : Nat × Bytes} (hy : NodeObj objs y) (hne : y.1 ≠ m) :
    ∀ i, y.1 ≤ i → i < y.1 + btName + y.2.length → pa'.data i = pa.data i :=
  fun i h₁ h₂ => (h.off_word hg hm hy hne i h₁ h₂).elim (hag i)

/-- At the node `m` itself, such a write keeps its bytes off the word and
every byte of its subtrees, when its nodes are distinct. -/
theorem Arena.kept_at (h : Arena pa objs) {pa' : PropArea} {m g : Nat} (hg : g + 4 ≤ btName)
    (hag : ∀ i < pa.bytesUsed, (i < m + g ∨ m + g + 4 ≤ i) → pa'.data i = pa.data i)
    {k : Bytes} {p : Nat} {l c r : PTrie} (hobj : ∀ x ∈ (node m k p l c r).nodes, NodeObj objs x)
    (hnd : ((node m k p l c r).nodes.map Prod.fst).Nodup) :
    ∀ i, ((∃ d, ((node m k p l c r).child d).NodeBytes i) ∨
      (m ≤ i ∧ i < m + btName + k.length ∧ (i < m + g ∨ m + g + 4 ≤ i))) → pa'.data i = pa.data i := by
  obtain ⟨x, hx, hxk, hxo, hxs⟩ := hobj (m, k) (by simp)
  rintro i (⟨d, y, hy, h₁, h₂⟩ | ⟨-, h₂, h₃⟩)
  · exact h.kept_off hg ⟨x, hx, hxk, hxo⟩ hag (hobj y (mem_child hy))
      (fun e => (nodup_child hnd d).1 (List.mem_map.2 ⟨y, hy, e⟩)) i h₁ h₂
  · have := h.below x hx
    dsimp only at hxo hxs
    exact hag i (by omega) h₃

/-- **A write to one word of one node, followed up the trie.** A write to
the word `g` of the node `m`, below `bytes_used_`, leaves each node above `m`
heading its trie with the subtree at the end of the chain to `m` rewritten
by `f`, when `m` heads what `f` makes of its own trie. -/
theorem Arena.heads_modify (h : Arena pa objs) {pa' : PropArea} {m g : Nat} (hg : g + 4 ≤ btName)
    (hm : NodeAt objs m) (hag : ∀ i < pa.bytesUsed, (i < m + g ∨ m + g + 4 ≤ i) → pa'.data i = pa.data i)
    {f : PTrie → PTrie} (hf : ∀ {u : PTrie}, Heads pa m u → (u.nodes.map Prod.fst).Nodup → Heads pa' m (f u)) :
    ∀ (q : List Dir) {o : Nat} {t : PTrie}, Heads pa o t → NodeAt objs o → (t.nodes.map Prod.fst).Nodup →
      (t.sub q).rootOff = some m → Heads pa' o (t.modify q f)
  | [], o, t, ht, _, hnd, hq => by
    obtain ⟨k, l, c, r, rfl⟩ := ht.eq_node
    obtain rfl : o = m := Option.some.inj hq
    exact hf ht hnd
  | d :: q, o, t, ht, ho, hnd, hq => by
    obtain ⟨k, l, c, r, rfl⟩ := ht.eq_node
    obtain ⟨x, hx, hxk, rfl⟩ := id ho
    have hobj := h.heads_nodeObj ho ht
    have hmem : m ∈ ((node x.off k (pa.load (x.off + btProp)) l c r).child d).nodes.map Prod.fst :=
      mem_nodes_of_sub hq
    have hself : NodeObj objs (x.off, k) := hobj _ (by simp)
    have hom : x.off ≠ m := fun e => (nodup_child hnd d).1 (e ▸ hmem)
    have hchild := ht.child d
    have hw : pa.load (x.off + d.field) ≠ 0 := fun e => by
      rw [sub_cons, hchild.eq_nil_iff.2 e] at hq; simp [rootOff] at hq
    have ih := Arena.heads_modify h hg hm hag hf q (hchild.heads hw) (h.link_node hx hxk d hw).1
      (nodup_child hnd d).2.1 hq
    refine Heads.withChild ht (fun i hi => ?_) ?_
    · rcases hi with ⟨d', hd', y, hy, h₁, h₂⟩ | ⟨h₁, h₂, -⟩
      · exact h.kept_off hg hm hag (hobj y (mem_child hy))
          (fun e => (nodup_child hnd d).2.2 d' hd' (List.mem_map.2 ⟨y, hy, rfl⟩) (e ▸ hmem)) i h₁ h₂
      · exact h.kept_off hg hm hag hself hom i h₁ h₂
    · rw [load_field_congr d.field_bounds.2 (h.kept_off hg hm hag hself hom)]
      exact ih.stored hw

/-- The chain from the root leads to a node of the list. -/
theorem Arena.nodeAt_of_sub (h : Arena pa objs) {t : PTrie} (ht : Heads pa 0 t) {q : List Dir} {n : Nat}
    (hq : (t.sub q).rootOff = some n) : NodeAt objs n := by
  obtain ⟨x, hx, rfl⟩ := List.mem_map.1 (mem_nodes_of_sub hq)
  obtain ⟨y, hy, hyk, hyo, -⟩ := h.heads_nodeObj ⟨_, h.root, rfl, rfl⟩ ht x hx
  exact ⟨y, hy, hyk, hyo⟩

/-- The root heads its trie as long as the bytes below `bytes_used_` stay. -/
theorem Arena.heads_of_below (h : Arena pa objs) {pa' : PropArea} {t : PTrie} (ht : Heads pa 0 t)
    (hag : ∀ i < pa.bytesUsed, pa'.data i = pa.data i) : Heads pa' 0 t :=
  ht.frame fun i ⟨x, hx, h₁, h₂⟩ => by
    obtain ⟨y, hy, -, hyo, hys⟩ := h.heads_nodeObj ⟨_, h.root, rfl, rfl⟩ ht x hx
    have := h.below y hy
    exact hag i (by omega)

/-- `pa'` holds what `pa` held in every object of the list that is no node:
each entry, blob and the dirty backup buffer. -/
def ObjsKept (objs : List Obj) (pa pa' : PropArea) : Prop :=
  ∀ y ∈ objs, y.kind ≠ .node → ∀ i, y.off ≤ i → i < y.off + y.size → pa'.data i = pa.data i

theorem ObjsKept.refl (objs : List Obj) (pa : PropArea) : ObjsKept objs pa pa := fun _ _ _ _ _ _ => rfl

theorem ObjsKept.trans {objs₁ : List Obj} {pa₁ pa₂ : PropArea} (h₁ : ObjsKept objs pa pa₁)
    (h₂ : ObjsKept objs₁ pa₁ pa₂) (hsub : ∀ y ∈ objs, y ∈ objs₁) : ObjsKept objs pa pa₂ :=
  fun y hy hyk i hi₁ hi₂ => (h₂ y (hsub y hy) hyk i hi₁ hi₂).trans (h₁ y hy hyk i hi₁ hi₂)

/-- A write past `bytes_used_` keeps every object. -/
theorem Arena.objsKept_of_below (h : Arena pa objs) {pa' : PropArea} (hag : ∀ i < pa.bytesUsed, pa'.data i = pa.data i) :
    ObjsKept objs pa pa' :=
  fun y hy _ i _ hi₂ => hag i (by have := h.below y hy; omega)

/-- A write to the word `g` of the node `m`, below `bytes_used_`, keeps every
object that is no node. -/
theorem Arena.objsKept_of_word (h : Arena pa objs) {pa' : PropArea} {m g : Nat} (hg : g + 4 ≤ btName)
    (hm : NodeAt objs m) (hag : ∀ i < pa.bytesUsed, (i < m + g ∨ m + g + 4 ≤ i) → pa'.data i = pa.data i) :
    ObjsKept objs pa pa' := fun y hy hyk i hi₁ hi₂ => by
  obtain ⟨x, hx, hxk, rfl⟩ := hm
  have := h.below y hy; have hsz := h.size_ge x hx
  rw [hxk] at hsz; simp only [Kind.minSize, sizeofPropBt, btName] at hsz hg
  exact hag i (by omega) (by rcases h.disjoint hx hy (fun e => hyk (e ▸ hxk)) with h' | h' <;> omega)

/-- **`new_prop_bt` at a zero link of a node below the root.** When the name
fits, the node is allocated at `bytes_used_`, the arena grows by it, no
object that is no node is written, and the root heads its trie with the new
leaf hung behind the link. -/
theorem Arena.hang (h : Arena pa objs) {t : PTrie} (ht : Heads pa 0 t) {q : List Dir} {m : Nat}
    (hq : (t.sub q).rootOff = some m) (d : Dir) {s : Bytes}
    (hfit : pa.bytesUsed + align4 (sizeofPropBt + s.length + 1) ≤ paDataSize) :
    ∃ pa' objs', pa.newPropBtAt (m + d.field) s = some (pa', some pa.bytesUsed) ∧ Extends pa objs pa' objs' ∧
      ObjsKept objs pa pa' ∧ Heads pa' 0 (t.modify (q ++ [d]) fun _ => leaf pa.bytesUsed s) := by
  have hm := h.nodeAt_of_sub ht hq
  obtain ⟨x, hx, hxk, rfl⟩ := id hm
  obtain ⟨pa₂, hres, hag, hlink, hleaf, hzero⟩ := h.newPropBtAt_of_le hx hxk d.link_mem hfit
  obtain ⟨pa', objs', r, hres', hext, -, -⟩ := h.newPropBtAt hx hxk d.link_mem s
  rw [hres] at hres'
  obtain ⟨rfl, -⟩ := Prod.mk.inj (Option.some.inj hres')
  -- the new node, with its zero `prop` and links
  have hv : TStored pa₂ (pa₂.load (x.off + d.field)) (leaf pa.bytesUsed s) := by
    rw [hlink]
    generalize pa.bytesUsed = b at hleaf hzero
    cases hleaf with
    | node hoff hlen hname _ _ =>
      have hnil : ∀ g, 4 ≤ g → g + 4 ≤ btName → TStored pa₂ (pa₂.load (b + g)) nil :=
        fun g h₁ h₂ => by rw [hzero g h₁ h₂]; exact .nil
      have hnode := TStored.node hoff hlen hname (hnil btLeft (by decide) (by decide))
        (hnil btChildren (by decide) (by decide)) (hnil btRight (by decide) (by decide))
      rwa [hzero btProp (by decide) (by decide)] at hnode
  refine ⟨pa₂, objs', hres, hext, h.objsKept_of_word d.field_bounds.2 hm hag, ?_⟩
  rw [modify_append]
  refine h.heads_modify d.field_bounds.2 hm hag (fun {u} hu hnd => ?_) q ht ⟨_, h.root, rfl, rfl⟩
    (h.heads_nodup .root ht) hq
  obtain ⟨k, l, c, r, rfl⟩ := hu.eq_node
  exact Heads.withChild hu (fun i hi => h.kept_at d.field_bounds.2 hag (h.heads_nodeObj hm hu) hnd i
    (hi.imp (fun ⟨d', _, hd'⟩ => ⟨d', hd'⟩) id)) hv

/-- **A `prop` word stored below the root.** -/
theorem Arena.heads_setProp (h : Arena pa objs) {t : PTrie} (ht : Heads pa 0 t) {q : List Dir} {n : Nat}
    (hq : (t.sub q).rootOff = some n) (e : Nat) :
    Heads { pa with data := pa.data.storeU32 (n + btProp) e } 0 (t.modify q (withProp (e % 2 ^ 32))) := by
  have hm := h.nodeAt_of_sub ht hq
  have hag : ∀ i < pa.bytesUsed, (i < n + btProp ∨ n + btProp + 4 ≤ i) →
      (pa.data.storeU32 (n + btProp) e) i = pa.data i := fun i _ hi => Mem.storeU32_apply_of_not_mem hi
  refine h.heads_modify (by decide) hm hag (fun {u} hu hnd => ?_) q ht ⟨_, h.root, rfl, rfl⟩ (h.heads_nodup .root ht) hq
  obtain ⟨k, l, c, r, rfl⟩ := hu.eq_node
  have hp : Heads { pa with data := pa.data.storeU32 (n + btProp) e } _ _ := Heads.withProp hu
    (h.kept_at (by decide) hag (h.heads_nodeObj hm hu) hnd)
  rwa [show PropArea.load { pa with data := pa.data.storeU32 (n + btProp) e } (n + btProp) = e % 2 ^ 32 from
    Mem.loadU32_storeU32 _ _ _] at hp

/-- `new_prop_info` writes nothing below `bytes_used_`. -/
theorem newPropInfo_below {pa' : PropArea} {name value : Bytes} {namelen valuelen : Nat} {r : Ptr}
    (hres : pa.newPropInfo name namelen value valuelen = some (pa', r)) : ∀ i < pa.bytesUsed, pa'.data i = pa.data i := by
  intro i hi
  unfold PropArea.newPropInfo allocateObj at hres
  by_cases hfit : pa.bytesUsed + align4 (sizeofPropInfo + namelen + 1) > paDataSize
  · rw [if_pos hfit] at hres
    obtain ⟨rfl, -⟩ := Prod.mk.inj (Option.some.inj hres)
    rfl
  rw [if_neg hfit] at hres
  simp only at hres
  split at hres
  · by_cases hfit₂ : pa.bytesUsed + align4 (sizeofPropInfo + namelen + 1) + align4 ((valuelen + 1) % 2 ^ 32) > paDataSize
    · rw [if_pos hfit₂] at hres
      obtain ⟨rfl, -⟩ := Prod.mk.inj (Option.some.inj hres)
      rfl
    rw [if_neg hfit₂] at hres
    simp only [Option.bind_eq_bind] at hres
    obtain ⟨pa₃, h₃, hres⟩ := Option.bind_eq_some.1 hres
    obtain ⟨pa₄, h₄, hres⟩ := Option.bind_eq_some.1 hres
    obtain ⟨pa₅, h₅, hres⟩ := Option.bind_eq_some.1 hres
    obtain ⟨rfl, -⟩ := Prod.mk.inj (Option.some.inj hres)
    obtain ⟨-, rfl⟩ := fill_eq_some h₃
    obtain ⟨-, rfl⟩ := fill_eq_some h₄
    rw [(constructLong_spec h₅).2.1 i (.inl hi)]
    dsimp only
    simp (disch := omega) only [Mem.fill_apply_of_not_mem]
  · simp only [Option.bind_eq_bind] at hres
    obtain ⟨pa₂, h₂, hres⟩ := Option.bind_eq_some.1 hres
    obtain ⟨rfl, -⟩ := Prod.mk.inj (Option.some.inj hres)
    exact (constructShort_spec h₂ (by omega)).2.1 i (.inl hi)

/-! ## The walk of `add` -/

/-- What the walk of `add` over the segments `segs` leaves, from an area
whose root heads `t`: the arena over the objects handed out so far; a root
heading a well-formed trie on which every walk answers the entry it answered
on `t`; no entry or blob written; nothing written at all, and the node
reached answered, when the walk over `segs` reaches a node of `t`; and the
node answered, if any, where the walk over `segs` ends. -/
def GrowOk (pa : PropArea) (objs : List Obj) (t : PTrie) (segs : List Bytes) (res : Option (PropArea × Ptr)) :
    Prop :=
  ∃ pa' objs' t' r, res = some (pa', r) ∧ Extends pa objs pa' objs' ∧ Heads pa' 0 t' ∧ t'.RootOk ∧
    (∀ ss, (∀ x ∈ ss, 0 ∉ x) → (t'.walk ss).entry = (t.walk ss).entry) ∧ ObjsKept objs pa pa' ∧
    (t.walk segs ≠ nil → pa' = pa ∧ t' = t ∧ r = (t.walk segs).rootOff) ∧
    ∀ n, r = some n → (t'.walk segs).rootOff = some n

theorem GrowOk.here (h : Arena pa objs) {t : PTrie} (ht : Heads pa 0 t) (hr : t.RootOk) {segs : List Bytes}
    (hnil : t.walk segs = nil) : GrowOk pa objs t segs (some (pa, none)) :=
  ⟨pa, objs, t, none, rfl, .refl h, ht, hr, fun _ _ => rfl, .refl objs pa, fun hw => absurd hnil hw,
    fun _ hn => by cases hn⟩

/-- A leaf hung where the walk over `segs` falls off the trie, and the walk
of `add` run on from there. -/
theorem GrowOk.of_hang {pa₂ : PropArea} {objs₂ : List Obj} {t t₂ : PTrie} {segs : List Bytes}
    {res : Option (PropArea × Ptr)} (h : GrowOk pa₂ objs₂ t₂ segs res) (hext : Extends pa objs pa₂ objs₂)
    (hwalk : ∀ ss, (∀ x ∈ ss, 0 ∉ x) → (t₂.walk ss).entry = (t.walk ss).entry) (hkept : ObjsKept objs pa pa₂)
    (hnil : t.walk segs = nil) : GrowOk pa objs t segs res :=
  let ⟨pa', objs', t', r, hres, hext', ht', hr', hwalk', hkept', _, hn⟩ := h
  ⟨pa', objs', t', r, hres, hext.trans hext', ht', hr', fun ss hss => (hwalk' ss hss).trans (hwalk ss hss),
    hkept.trans hkept' fun _ hy => hext.mem hy, fun hw => absurd hnil hw, hn⟩

theorem Heads.rootOff {o : Nat} {t : PTrie} (ht : Heads pa o t) : t.rootOff = some o := by
  obtain ⟨k, l, c, r, rfl⟩ := ht.eq_node; rfl

theorem Heads.sub_of_rootOff {o : Nat} {t : PTrie} (ht : Heads pa o t) {q : List Dir} {n : Nat}
    (hq : (t.sub q).rootOff = some n) : Heads pa n (t.sub q) := by
  obtain ⟨k, e, l, c, r, he⟩ := rootOff_eq_some.1 hq
  exact ht.sub he

/-- A segment has no `'.'`. -/
theorem dot_not_mem_of_mem_segments : ∀ {name x : Bytes}, x ∈ segments name → dot ∉ x
  | [], x, hx => by simp only [segments, List.mem_singleton] at hx; subst hx; exact List.not_mem_nil _
  | c :: cs, x, hx => by
    simp only [segments] at hx
    split at hx
    · rcases List.mem_cons.1 hx with rfl | hx
      · exact List.not_mem_nil _
      · exact dot_not_mem_of_mem_segments hx
    · rename_i hc
      split at hx
      · rename_i s ss hs
        rcases List.mem_cons.1 hx with rfl | hx
        · have := dot_not_mem_of_mem_segments (hs ▸ List.mem_cons_self _ _ : s ∈ segments cs)
          simp only [List.mem_cons, not_or]
          exact ⟨fun e => hc e.symm, this⟩
        · exact dot_not_mem_of_mem_segments (hs ▸ List.mem_cons_of_mem _ hx : _ ∈ segments cs)
      · rw [List.mem_singleton] at hx; subst hx
        simp only [List.mem_singleton]
        exact fun e => hc e.symm

/-- The bytes `new_prop_bt` hands out for the nodes of the segments `ss`. -/
def nodesSize : List Bytes → Nat
  | [] => 0
  | s :: ss => align4 (sizeofPropBt + s.length + 1) + nodesSize ss

@[simp] theorem nodesSize_nil : nodesSize [] = 0 := rfl

@[simp] theorem nodesSize_cons (s : Bytes) (ss : List Bytes) :
    nodesSize (s :: ss) = align4 (sizeofPropBt + s.length + 1) + nodesSize ss := rfl

/-- The walk of `add` over the segments `ss` answers a node, having handed
out at most the bytes of their nodes, when no segment is empty and those
bytes fit. -/
def RoomOk (pa : PropArea) (ss : List Bytes) (res : Option (PropArea × Ptr)) : Prop :=
  (∀ s ∈ ss, s ≠ []) → pa.bytesUsed + nodesSize ss ≤ paDataSize →
    ∃ pa' n, res = some (pa', some n) ∧ pa'.bytesUsed ≤ pa.bytesUsed + nodesSize ss

/-- A turn that took at most the node of its segment passes the room on. -/
theorem RoomOk.cons {pa₂ : PropArea} {s : Bytes} {ss : List Bytes} {res : Option (PropArea × Ptr)}
    (h : RoomOk pa₂ ss res) (hb : pa₂.bytesUsed ≤ pa.bytesUsed + align4 (sizeofPropBt + s.length + 1)) :
    RoomOk pa (s :: ss) res := fun hne hfit => by
  rw [nodesSize_cons] at hfit ⊢
  obtain ⟨pa', n, hres, hle⟩ := h (fun x hx => hne x (.tail _ hx)) (by omega)
  exact ⟨pa', n, hres, by omega⟩

/-- A node `new_prop_bt` hands out takes `bytes_used_` past it. -/
theorem newPropBtAt_bytesUsed {pa' : PropArea} {w p : Nat} {s : Bytes} (h : pa.newPropBtAt w s = some (pa', some p)) :
    pa'.bytesUsed = pa.bytesUsed + align4 (sizeofPropBt + s.length + 1) := by
  unfold newPropBtAt newPropBt allocateObj at h
  by_cases hfit : pa.bytesUsed + align4 (sizeofPropBt + s.length + 1) > paDataSize
  · simp [hfit] at h
  simp only [if_neg hfit, Option.bind_eq_bind] at h
  obtain ⟨⟨pa₁, r⟩, h₁, h⟩ := Option.bind_eq_some.1 h
  obtain ⟨pa₂, h₂, h₃⟩ := Option.bind_eq_some.1 h₁
  obtain ⟨rfl, rfl⟩ := Prod.mk.inj (Option.some.inj h₃)
  obtain ⟨pa₃, h₄, h⟩ := Option.bind_eq_some.1 h
  obtain ⟨rfl, -⟩ := Prod.mk.inj (Option.some.inj h)
  obtain ⟨-, rfl⟩ := fill_eq_some h₄
  exact (constructPropBt_spec h₂).1

/-- **The loop of `traverse_trie` with allocation.** From the node the walk
over `pre` reaches, over segments with no NUL and no `'.'`, each turn finds
the segment in the children's tree and goes on from there, or hangs a leaf
for it where the search ended and goes on from the leaf: the trie stays well
formed, no lookup and no entry changes, and the walk of `add` ends where the
walk over `pre ++ ss` then ends. With no empty segment and room for a node
per segment, it answers a node. -/
theorem Arena.traverseTrieLoop_grow : ∀ (ss pre : List Bytes) {pa : PropArea} {objs : List Obj} {t : PTrie}
    {cur : Nat}, (∀ s ∈ ss, 0 ∉ s ∧ dot ∉ s) → Arena pa objs → Heads pa 0 t → t.RootOk →
      (t.walk pre).rootOff = some cur →
      GrowOk pa objs t (pre ++ ss) (PropArea.traverseTrieLoop walkBound pa cur ss true) ∧
        RoomOk pa ss (PropArea.traverseTrieLoop walkBound pa cur ss true)
  | [], pre, pa, objs, t, cur, _, h, ht, hr, hq =>
    ⟨⟨pa, objs, t, some cur, rfl, .refl h, ht, hr, fun _ _ => rfl, .refl objs pa,
      fun _ => ⟨rfl, rfl, by rw [List.append_nil, hq]⟩, fun n hn => by cases hn; rwa [List.append_nil]⟩,
      fun _ _ => ⟨pa, cur, rfl, Nat.le_add_right _ _⟩⟩
  | s :: ss, pre, pa, objs, t, cur, hsegs, h, ht, hr, hq => by
    have hwpre : t.walk pre ≠ nil := fun e => by rw [e] at hq; cases hq
    have hpre := ne_nil_of_walk hwpre
    have hsplit : pre ++ s :: ss = pre ++ [s] ++ ss := by simp
    have hrest : t.walk (pre ++ [s]) = nil → t.walk (pre ++ s :: ss) = nil := fun hu => by
      rw [hsplit, walk_append, hu, nil_walk]
    simp only [PropArea.traverseTrieLoop]
    by_cases hs0 : s.length = 0
    · rw [if_pos hs0]
      exact ⟨GrowOk.here h ht hr (hrest (by rw [walk_append, walk, if_pos hs0])),
        fun hne _ => absurd (List.length_eq_zero.1 hs0) (hne s (.head _))⟩
    rw [if_neg hs0]
    have hsne : s ≠ [] := fun e => hs0 (by rw [e]; rfl)
    have hks : KeyOk s := ⟨hsne, (hsegs s (.head _)).1, (hsegs s (.head _)).2⟩
    have hpres : ∀ y ∈ pre ++ [s], y ≠ [] := fun y hy => by
      rcases List.mem_append.1 hy with hy | hy
      · exact hpre y hy
      · rw [List.mem_singleton.1 hy]; exact hsne
    -- the chain to `cur`, and on to the segment
    have hsub := t.sub_route hpre
    have hq' : (t.sub (t.route pre)).rootOff = some cur := by rw [hsub]; exact hq
    have hqne : t.sub (t.route pre) ≠ nil := by rw [hsub]; exact hwpre
    have hwalk_s : t.walk (pre ++ [s]) = ((t.sub (t.route pre)).child .children).seek s := by
      rw [walk_append, hsub, walk_cons hsne]; rfl
    have hroute : t.route (pre ++ [s]) =
        t.route pre ++ .children :: ((t.sub (t.route pre)).child .children).locate s := by
      rw [route_append t [s] hpre, hsub]; simp [route]
    have hu := ht.sub_of_rootOff hq'
    have hcur := h.nodeAt_of_sub ht hq'
    obtain ⟨x, hx, hxk, rfl⟩ := id hcur
    have hc := hu.child .children
    -- no room for the segment's node: the walk answers none
    have hnoroom : pa.bytesUsed + align4 (sizeofPropBt + s.length + 1) > paDataSize → ∀ res, RoomOk pa (s :: ss) res :=
      fun hfit _ _ hle => absurd hle (by rw [nodesSize_cons]; omega)
    -- from a node the turn reaches, the rest of the walk
    have hnext : ∀ {pa' : PropArea} {objs' : List Obj} {t' : PTrie} {n : Nat}, Arena pa' objs' →
        Heads pa' 0 t' → t'.RootOk → (t'.walk (pre ++ [s])).rootOff = some n →
        GrowOk pa' objs' t' (pre ++ s :: ss) (PropArea.traverseTrieLoop walkBound pa' n ss true) ∧
          RoomOk pa' ss (PropArea.traverseTrieLoop walkBound pa' n ss true) :=
      fun h' ht' hr' hq'' => by
        rw [hsplit]
        exact Arena.traverseTrieLoop_grow ss (pre ++ [s]) (fun y hy => hsegs y (.tail _ hy)) h' ht' hr' hq''
    -- a leaf hung where the search for the segment met `nil`, and the rest of the walk from it
    have hhung : ∀ {pa₂ : PropArea} {objs₂ : List Obj}, t.walk (pre ++ [s]) = nil → Extends pa objs pa₂ objs₂ →
        ObjsKept objs pa pa₂ → Heads pa₂ 0 (t.modify (t.route (pre ++ [s])) fun _ => leaf pa.bytesUsed s) →
        pa₂.bytesUsed = pa.bytesUsed + align4 (sizeofPropBt + s.length + 1) →
        GrowOk pa objs t (pre ++ s :: ss) (PropArea.traverseTrieLoop walkBound pa₂ pa.bytesUsed ss true) ∧
          RoomOk pa (s :: ss) (PropArea.traverseTrieLoop walkBound pa₂ pa.bytesUsed ss true) :=
      fun hnil hext hkept ht₂ hused => by
        obtain ⟨hself, hlook⟩ := walk_hang hsne hwpre hnil pa.bytesUsed
        have hr₂ := (hr.hang hqne hks (by rw [← hwalk_s]; exact hnil) pa.bytesUsed).1
        rw [← hroute] at hr₂
        obtain ⟨hg, hroom⟩ := hnext hext.arena ht₂ hr₂ (by rw [hself]; rfl)
        exact ⟨hg.of_hang hext hlook hkept (hrest hnil), hroom.cons hused.le⟩
    simp only [childrenRoot, Option.bind_eq_bind]
    by_cases h0 : pa.load (x.off + btChildren) = 0
    · -- no children yet: a new tree of one node for the segment
      have hnil : (t.sub (t.route pre)).child .children = nil := hc.eq_nil_iff.2 h0
      have hwnil : t.walk (pre ++ [s]) = nil := by rw [hwalk_s, hnil]; rfl
      rw [if_neg (not_not.2 h0), if_pos trivial]
      by_cases hfit : pa.bytesUsed + align4 (sizeofPropBt + s.length + 1) ≤ paDataSize
      · obtain ⟨pa₂, objs₂, hres, hext, hkept, ht₂⟩ := h.hang ht hq' .children hfit
        rw [show t.route pre ++ [Dir.children] = t.route (pre ++ [s]) by rw [hroute, hnil]; rfl] at ht₂
        -- the search in the new tree finds the leaf
        obtain ⟨hself, -⟩ := walk_hang hsne hwpre hwnil pa.bytesUsed
        set t₂ := t.modify (t.route (pre ++ [s])) fun _ => leaf pa.bytesUsed s
        have hq₂ : (t₂.sub (t₂.route (pre ++ [s]))).rootOff = some pa.bytesUsed := by
          rw [sub_route _ hpres, hself]; rfl
        have hb := ht₂.sub_of_rootOff hq₂
        rw [sub_route _ hpres, hself] at hb
        have hb0 : pa.bytesUsed ≠ 0 := by have := h.below _ h.root; simp only [sizeofPropBt] at this; omega
        have hfind : PropArea.findPropBt walkBound pa₂ (some pa.bytesUsed) s true = some (pa₂, some pa.bytesUsed) := by
          rw [hext.arena.findPropBt_eq_search s true walkBound (hb.stored hb0).seg (hext.arena.nodeAt_of_sub ht₂ hq₂)
            hb0 (by have := hext.arena.used_le; simp only [walkBound]; omega)]
          simp [leaf, seg, SegTree.search, SegTree.Outcome.result]
        have hused := newPropBtAt_bytesUsed hres
        simp only [Dir.field] at hres
        rw [hres, Option.some_bind]
        simp only [hfind, Option.some_bind]
        exact hhung hwnil hext hkept ht₂ hused
      · rw [newPropBtAt_of_gt (by omega)]
        exact ⟨GrowOk.here h ht hr (hrest hwnil), hnoroom (by omega) _⟩
    · -- the children's tree: `find_prop_bt` finds the segment or hangs a leaf for it
      obtain ⟨hat, -⟩ := h.link_node hx hxk .children h0
      obtain ⟨z, hz, hzk, hzo⟩ := id hat
      have := h.below z hz; have := h.used_le
      have hcne : (t.sub (t.route pre)).child .children ≠ nil := fun e => h0 (hc.eq_nil_iff.1 e)
      rw [if_pos h0, Option.some_bind, toPropObj_of_le (by simp only [Dir.field] at hzo; omega)]
      simp only
      rw [show btChildren = Dir.children.field from rfl,
        h.findPropBt_eq_search s true walkBound hc.seg hat h0 (by simp only [walkBound]; omega)]
      obtain ⟨o, ho⟩ := Option.isSome_iff_exists.1 (SegTree.search_isSome (s := s) (mt seg_eq_nil_iff.1 hcne))
      rw [ho, Option.some_bind]
      cases o with
      | found n =>
        obtain ⟨hg, hroom⟩ := hnext h ht hr (by rw [hwalk_s]; exact seek_of_search_found ho)
        exact ⟨hg, hroom.cons (Nat.le_add_right _ _)⟩
      | missing m f =>
        obtain ⟨qs, d, hloc, hm, rfl, -, hseek⟩ := locate_of_search_missing ho
        have hwnil : t.walk (pre ++ [s]) = nil := by rw [hwalk_s, hseek]
        simp only [SegTree.Outcome.result, if_true]
        by_cases hfit : pa.bytesUsed + align4 (sizeofPropBt + s.length + 1) ≤ paDataSize
        · have hm' : (t.sub (t.route pre ++ .children :: qs)).rootOff = some m := by
            rw [sub_append, sub_cons]; exact hm
          obtain ⟨pa₂, objs₂, hres, hext, hkept, ht₂⟩ := h.hang ht hm' d hfit
          rw [show t.route pre ++ Dir.children :: qs ++ [d] = t.route (pre ++ [s]) by rw [hroute, hloc]; simp] at ht₂
          rw [hres, Option.some_bind]
          exact hhung hwnil hext hkept ht₂ (newPropBtAt_bytesUsed hres)
        · rw [newPropBtAt_of_gt (by omega), Option.some_bind]
          exact ⟨GrowOk.here h ht hr (hrest hwnil), hnoroom (by omega) _⟩

/-! ## `add` and `remove` -/

/-- The chain the walk over a name's segments follows leads below the root. -/
theorem route_segments_ne_nil (t : PTrie) (name : Bytes) : t.route (segments name) ≠ [] := by
  obtain ⟨s, ss, hs⟩ := List.exists_cons_of_ne_nil (segments_ne_nil name)
  rw [hs]; exact List.cons_ne_nil _ _

/-- A node heads a tree whose root entry is its `prop` word, when set. -/
theorem Heads.entry_eq {o : Nat} {u : PTrie} (hu : Heads pa o u) :
    u.entry = if pa.load (o + btProp) = 0 then none else some (pa.load (o + btProp)) := by
  obtain ⟨k, l, c, r, rfl⟩ := hu.eq_node; rfl

/-- A name with an entry is walked to a node. -/
theorem walk_ne_nil_of_lookup {t : PTrie} {name : Bytes} (h : (t.lookup name).isSome) :
    t.walk (segments name) ≠ nil := fun e => by simp [lookup, e, entry] at h

/-- **What `add` does to the trie**, for a name with no NUL. The root heads
a well-formed trie after it, and no object that is no node is written. An
empty segment makes it fail. When `find` answers the name, `add` writes
nothing and the root heads the same trie. When it fails, every lookup answers
what it answered. When it adds,
the entry that `new_prop_info` built past the objects of the area `pa₁` the
walk left is published under the name, the bytes from there on are as
`new_prop_info` left them, and every other lookup answers what it answered. -/
theorem Arena.add_spec (h : Arena pa objs) {t : PTrie} (ht : Heads pa 0 t) (hr : t.RootOk) {name : Bytes}
    (hn : 0 ∉ name) {namelen : Nat} {value : Bytes} {valuelen : Nat} {pa' : PropArea} {b : Bool}
    (hres : pa.add name namelen value valuelen = some (pa', b)) :
    ∃ objs' t', Extends pa objs pa' objs' ∧ Heads pa' 0 t' ∧ t'.RootOk ∧ ObjsKept objs pa pa' ∧
      ([] ∈ segments name → b = false) ∧
      ((t.lookup name).isSome → b = true ∧ pa' = pa ∧ t' = t) ∧
      (b = false → ∀ n, 0 ∉ n → t'.lookup n = t.lookup n) ∧
      (b = true → t.lookup name = none → ∃ pa₁ objs₁ pa₂ e, Extends pa objs pa₁ objs₁ ∧
        pa₁.newPropInfo name namelen value valuelen = some (pa₂, some e) ∧ pa'.bytesUsed = pa₂.bytesUsed ∧
        (∀ i, pa₁.bytesUsed ≤ i → pa'.data i = pa₂.data i) ∧ t'.lookup name = some e ∧
        ∀ n, 0 ∉ n → n ≠ name → t'.lookup n = t.lookup n) := by
  obtain ⟨objs', hext⟩ := h.add hres
  obtain ⟨⟨pa'', r⟩, hf, heq⟩ := Option.map_eq_some'.1 hres
  dsimp only at heq
  obtain ⟨rfl, rfl⟩ := Prod.mk.inj heq
  simp only [PropArea.findProperty, PropArea.traverseTrie, rootNode, toPropObj_of_le (Nat.zero_le _),
    Option.bind_eq_bind] at hf
  obtain ⟨pa₁, objs₁, t₁, r₁, hloop, hext₁, ht₁, hr₁, hwalk₁, hkept₁, hfound₁, hn₁⟩ :=
    (Arena.traverseTrieLoop_grow (segments name) [] (fun s hs => ⟨zero_not_mem_segments hn s hs,
      dot_not_mem_of_mem_segments hs⟩) h ht hr ht.rootOff).1
  rw [List.nil_append] at hfound₁ hn₁
  have hlook₁ : ∀ n, 0 ∉ n → t₁.lookup n = t.lookup n := fun n hn' => hwalk₁ _ (zero_not_mem_segments hn')
  rw [hloop, Option.some_bind] at hf
  rcases r₁ with _ | cur
  · -- the walk answered no node
    cases hf
    refine ⟨objs', t₁, hext, ht₁, hr₁, hkept₁, fun _ => rfl, fun hs => ?_, fun _ => hlook₁, fun hb => by cases hb⟩
    have hr' := (hfound₁ (walk_ne_nil_of_lookup hs)).2.2
    cases hw : t.walk (segments name) with
    | nil => exact absurd hw (walk_ne_nil_of_lookup hs)
    | node _ _ _ _ _ _ => rw [hw] at hr'; cases hr'
  have hw₁n := hn₁ cur rfl
  have hw₁ : t₁.walk (segments name) ≠ nil := fun e => by rw [e] at hw₁n; cases hw₁n
  have hnoempty : [] ∉ segments name := fun h0 => ne_nil_of_walk hw₁ [] h0 rfl
  have hQ := t₁.sub_route (ne_nil_of_walk hw₁)
  have hq : (t₁.sub (t₁.route (segments name))).rootOff = some cur := by rw [hQ]; exact hw₁n
  have hcur := hext₁.arena.nodeAt_of_sub ht₁ hq
  have hentry : t₁.lookup name = if pa₁.load (cur + btProp) = 0 then none else some (pa₁.load (cur + btProp)) := by
    rw [lookup, ← hQ]; exact (ht₁.sub_of_rootOff hq).entry_eq
  simp only at hf
  split at hf
  · -- the name had an entry: it is answered, and nothing was written
    rename_i hne
    have hb := hext₁.arena.toPropObj_prop hcur hne
    cases hf
    have hsome : (t.lookup name).isSome := by rw [← hlook₁ name hn, hentry, if_neg hne]; rfl
    obtain ⟨rfl, rfl, -⟩ := hfound₁ (walk_ne_nil_of_lookup hsome)
    exact ⟨objs', t₁, hext, ht₁, hr₁, hkept₁, fun h0 => absurd h0 hnoempty, fun _ => ⟨by rw [hb]; rfl, rfl, rfl⟩,
      fun hb' => (by rw [hb] at hb'; cases hb'), fun _ hnone => (by rw [hnone] at hsome; cases hsome)⟩
  rename_i hz
  rw [not_not] at hz
  have hnone : t.lookup name = none := by rw [← hlook₁ name hn, hentry, if_pos hz]
  rw [if_pos trivial] at hf
  -- the new entry is allocated past every object, then published in the node's `prop` word
  obtain ⟨⟨pa₂, p⟩, h₂, hf⟩ := Option.bind_eq_some.1 hf
  obtain ⟨objs₂, hext₂, -, -, hentry₂⟩ := hext₁.arena.newPropInfo h₂
  have hbelow₂ := newPropInfo_below h₂
  have ht₂ := hext₁.arena.heads_of_below ht₁ hbelow₂
  have hkept₂ := hkept₁.trans (hext₁.arena.objsKept_of_below hbelow₂) fun _ hy => hext₁.mem hy
  rcases p with _ | e
  · cases hf
    exact ⟨objs', t₁, hext, ht₂, hr₁, hkept₂, fun _ => rfl, fun hs => (by rw [hnone] at hs; cases hs),
      fun _ => hlook₁, fun hb => by cases hb⟩
  obtain ⟨pa₃, h₃, hf⟩ := Option.bind_eq_some.1 hf
  cases hf
  obtain ⟨-, rfl⟩ := fill_eq_some h₃
  obtain ⟨y, hy, -, rfl, hye⟩ := hentry₂ e rfl
  have hcur₂ := hcur.mono fun _ hz => hext₂.mem hz
  obtain ⟨x, hx, hxk, rfl⟩ := id hcur
  have hsz := hext₁.arena.size_ge x hx
  rw [hxk] at hsz
  have := hext₁.arena.below x hx
  -- the offset of the new entry is a nonzero word
  have he0 : y.off % 2 ^ 32 = y.off ∧ y.off ≠ 0 := by
    have h₁ := hext₂.arena.below y hy; have h₂ := hext₂.arena.used_le
    have h₃ := hext₁.arena.below _ hext₁.arena.root
    simp only [paDataSize, paSize, sizeofPropArea, sizeofPropBt] at h₂ h₃
    exact ⟨Nat.mod_eq_of_lt (by omega), by omega⟩
  have hag : ∀ i < pa₂.bytesUsed, (i < x.off + btProp ∨ x.off + btProp + 4 ≤ i) →
      (pa₂.data.storeU32 (x.off + btProp) y.off) i = pa₂.data i := fun i _ hi => Mem.storeU32_apply_of_not_mem hi
  refine ⟨objs', _, hext, hext₂.arena.heads_setProp ht₂ hq y.off,
    hr₁.withProp (by rw [hQ]; exact hw₁) (.inl (route_segments_ne_nil _ _)),
    hkept₂.trans (hext₂.arena.objsKept_of_word (by decide) hcur₂ hag) fun _ hz => hext₂.mem (hext₁.mem hz),
    fun h0 => absurd h0 hnoempty, fun hs => (by rw [hnone] at hs; cases hs), fun hb => (by cases hb),
    fun _ _ => ⟨pa₁, objs₁, pa₂, y.off, hext₁, h₂, rfl, fun i hi => Mem.storeU32_apply_of_not_mem ?_, ?_,
      fun n hn' hne => ?_⟩⟩
  · simp only [Kind.minSize, sizeofPropBt, btProp] at hsz ⊢; omega
  · rw [lookup_withProp hw₁ _ hn, if_pos rfl, he0.1, if_neg he0.2]
  · rw [lookup_withProp hw₁ _ hn', if_neg hne, hlook₁ n hn']

/-- `new_prop_info` of a short value, when the entry fits, hands out the
entry at `bytes_used_`. -/
theorem newPropInfo_short {name value : Bytes} {namelen valuelen : Nat} (hv : valuelen < propValueMax)
    (hfit : pa.bytesUsed + align4 (sizeofPropInfo + namelen + 1) ≤ paDataSize) :
    ∃ pa', pa.newPropInfo name namelen value valuelen = some (pa', some pa.bytesUsed) ∧
      pa'.bytesUsed = pa.bytesUsed + align4 (sizeofPropInfo + namelen + 1) := by
  have hA : sizeofPropInfo + namelen + 1 ≤ align4 (sizeofPropInfo + namelen + 1) := by unfold align4; omega
  simp only [sizeofPropInfo, propValueMax] at hA hfit hv
  simp (disch := simp only [infoName, infoValue, infoSerial, sizeofPropInfo, propValueMax]; omega) only [newPropInfo,
    allocateObj, sizeofPropInfo, propValueMax, gt_iff_lt, not_lt.2 hfit, if_false, not_le.2 hv, constructShort, copy,
    storeByte, store, fill_of_le, Option.bind_eq_bind, Option.some_bind]
  exact ⟨_, rfl, rfl⟩

/-- **`add` of a new name that fits.** For a name with no NUL and no empty
segment that the trie does not hold, and a short value, when the nodes of the
name's segments and its entry fit, `add` answers `true`: the name then looks
up an entry, every other name what it looked up, and `bytes_used_` has grown
by at most those nodes and the entry. -/
theorem Arena.add_room (h : Arena pa objs) {t : PTrie} (ht : Heads pa 0 t) (hr : t.RootOk) {name : Bytes}
    (hn : 0 ∉ name) (hseg : [] ∉ segments name) (hnone : t.lookup name = none) (value : Bytes) {valuelen : Nat}
    (hv : valuelen < propValueMax)
    (hfit : pa.bytesUsed + nodesSize (segments name) + align4 (sizeofPropInfo + name.length + 1) ≤ paDataSize) :
    ∃ pa' objs' t', pa.add name name.length value valuelen = some (pa', true) ∧ Extends pa objs pa' objs' ∧
      Heads pa' 0 t' ∧ t'.RootOk ∧ (t'.lookup name).isSome ∧ (∀ n, 0 ∉ n → n ≠ name → t'.lookup n = t.lookup n) ∧
      pa'.bytesUsed ≤ pa.bytesUsed + nodesSize (segments name) + align4 (sizeofPropInfo + name.length + 1) := by
  -- the walk answers a node, within the room for the nodes
  obtain ⟨⟨pa₁, objs₁, t₁, r₁, hloop, hext₁, ht₁, -, hwalk₁, -, -, hn₁⟩, hroom⟩ :=
    h.traverseTrieLoop_grow (segments name) [] (fun s hs => ⟨zero_not_mem_segments hn s hs,
      dot_not_mem_of_mem_segments hs⟩) ht hr ht.rootOff
  obtain ⟨pa₁', cur, hloop', hle₁⟩ := hroom (fun s hs e => hseg (e ▸ hs)) (by omega)
  rw [hloop] at hloop'
  obtain ⟨rfl, rfl⟩ := Prod.mk.inj (Option.some.inj hloop')
  rw [List.nil_append] at hn₁
  -- that node has no entry, as the name had none
  have hw₁n := hn₁ cur rfl
  have hQ := t₁.sub_route (ne_nil_of_walk fun e => by rw [e] at hw₁n; cases hw₁n)
  have hq : (t₁.sub (t₁.route (segments name))).rootOff = some cur := by rw [hQ]; exact hw₁n
  obtain ⟨x, hx, hxk, rfl⟩ := hext₁.arena.nodeAt_of_sub ht₁ hq
  have hprop : pa₁.load (x.off + btProp) = 0 := by
    by_contra hne
    have hentry : t₁.lookup name = some (pa₁.load (x.off + btProp)) := by
      rw [lookup, ← hQ, (ht₁.sub_of_rootOff hq).entry_eq, if_neg hne]
    have h₁ : t₁.lookup name = t.lookup name := hwalk₁ _ (zero_not_mem_segments hn)
    rw [h₁, hnone] at hentry
    cases hentry
  -- the entry fits, and is published in the node
  have hsz := hext₁.arena.size_ge x hx
  have hbelow := hext₁.arena.below x hx
  rw [hxk] at hsz
  obtain ⟨pa₂, hnew, hused₂⟩ := @newPropInfo_short pa₁ name value name.length valuelen hv (by omega)
  have hadd : pa.add name name.length value valuelen =
      some ({ pa₂ with data := pa₂.data.storeU32 (x.off + btProp) pa₁.bytesUsed }, true) := by
    simp only [PropArea.add, PropArea.findProperty, PropArea.traverseTrie, rootNode, toPropObj_of_le (Nat.zero_le _),
      Option.bind_eq_bind, hloop, Option.some_bind, hprop, ne_eq, not_true_eq_false, if_false, if_true, hnew,
      store_of_le pa₂ _ (show x.off + btProp + 4 ≤ paDataSize by
        simp only [Kind.minSize, sizeofPropBt, btProp] at hsz ⊢; omega), Option.map_some', Option.isSome_some]
  obtain ⟨objs', t', hext, ht', hr', -, -, -, -, hin⟩ := h.add_spec ht hr hn hadd
  obtain ⟨-, -, -, e, -, -, -, -, hlook, hother⟩ := hin rfl hnone
  exact ⟨_, objs', t', hadd, hext, ht', hr', by rw [hlook]; rfl, hother, by simp only; omega⟩

/-- A byte of an object that is no node is no byte of a node of the trie the
root heads. -/
theorem Arena.not_nodeBytes_of_obj (h : Arena pa objs) {t : PTrie} (ht : Heads pa 0 t) {y : Obj} (hy : y ∈ objs)
    (hyk : y.kind ≠ .node) {i : Nat} (hi₁ : y.off ≤ i) (hi₂ : i < y.off + y.size) : ¬ t.NodeBytes i := by
  rintro ⟨x, hx, h₁, h₂⟩
  obtain ⟨z, hz, hzk, hzo, hzs⟩ := h.heads_nodeObj ⟨_, h.root, rfl, rfl⟩ ht x hx
  rcases h.disjoint hz hy (fun e => hyk (e ▸ hzk)) with h' | h' <;> omega

/-- The root heads its trie over a write that keeps every byte outside the
objects that are not nodes. -/
theorem Arena.heads_of_nodes (h : Arena pa objs) {pa' : PropArea} {t : PTrie} (ht : Heads pa 0 t)
    (hag : ∀ i, (∀ y ∈ objs, y.kind ≠ .node → i < y.off ∨ y.off + y.size ≤ i) → pa'.data i = pa.data i) :
    Heads pa' 0 t :=
  ht.frame fun i hi => hag i fun y hy hyk => by
    by_contra hc
    exact h.not_nodeBytes_of_obj ht hy hyk (by omega) (by omega) hi

/-- What `remove` leaves, from an area with the arena invariant whose root
heads `t`: the arena over the same objects, and a root heading a well-formed
trie on which the name has no entry and every other name the entry it had;
the answer whether the name had one; nothing written when it had none; and of
the objects that are no node, only the name's entry and, when `is_long()`
holds, its blob written. -/
def RemoveOk (objs : List Obj) (pa : PropArea) (t : PTrie) (name : Bytes) (res : Option (PropArea × Bool)) : Prop :=
  ∃ pa' b t', res = some (pa', b) ∧ Arena pa' objs ∧ Heads pa' 0 t' ∧ t'.RootOk ∧
    b = (t.lookup name).isSome ∧ (∀ n, 0 ∉ n → t'.lookup n = if n = name then none else t.lookup n) ∧
    (t.lookup name = none → pa' = pa) ∧
    ∀ e, t.lookup name = some e → ∀ y ∈ objs, y.kind ≠ .node → y.off ≠ e →
      (isLong (pa.load (e + infoSerial)) = true → y.off ≠ e + pa.load (e + infoLongOffset)) →
      ∀ i, y.off ≤ i → i < y.off + y.size → pa'.data i = pa.data i

/-- A name with no entry: `remove` writes nothing. -/
theorem RemoveOk.of_none (h : Arena pa objs) {t : PTrie} (ht : Heads pa 0 t) (hr : t.RootOk) {name : Bytes}
    (hnone : t.lookup name = none) : RemoveOk objs pa t name (some (pa, false)) :=
  ⟨pa, false, t, rfl, h, ht, hr, by rw [hnone]; rfl, fun n _ => by by_cases hn : n = name <;> simp [hn, hnone],
    fun _ => rfl, fun e he => by rw [hnone] at he; cases he⟩

/-- **What `remove` does to the trie**: what `RemoveOk` says. -/
theorem Arena.remove_spec (h : Arena pa objs) {t : PTrie} (ht : Heads pa 0 t) (hr : t.RootOk) (name : Bytes)
    (prune : Bool) : RemoveOk objs pa t name (pa.remove name prune) := by
  obtain ⟨hloop, hend⟩ := h.traverseTrieLoop_eq_walk (segments name) (show NodeAt objs 0 from ⟨_, h.root, rfl, rfl⟩) ht
  simp only [PropArea.remove, PropArea.traverseTrie, rootNode, toPropObj_of_le (Nat.zero_le _), hloop,
    Option.bind_eq_bind, Option.some_bind]
  cases hw : (t.walk (segments name)).rootOff with
  | none =>
    have hnone : t.lookup name = none := by
      simp only [lookup]; cases h' : t.walk (segments name) <;> simp_all [rootOff, entry]
    exact .of_none h ht hr hnone
  | some n =>
    obtain ⟨hnat, hheads⟩ := hend n hw
    have hentry : t.lookup name = if pa.load (n + btProp) = 0 then none else some (pa.load (n + btProp)) :=
      hheads.entry_eq
    simp only
    by_cases hz : pa.load (n + btProp) = 0
    · rw [if_pos hz]
      exact .of_none h ht hr (by rw [hentry, if_pos hz])
    rw [if_neg hz]
    have hsome : t.lookup name = some (pa.load (n + btProp)) := by rw [hentry, if_neg hz]
    obtain ⟨x, hx, hxk, rfl⟩ := id hnat
    have hok := h.ok x hx
    unfold ObjOk at hok; rw [hxk] at hok
    obtain ⟨e, he, hek, hoff, -⟩ := (hok.2 _ prop_mem_linkFields).resolve_left hz
    dsimp only at hek hoff
    rw [← hoff] at hsome
    have := h.below e he; have := h.below x hx; have := h.used_le; have hsz := h.size_ge x hx
    rw [hxk] at hsz
    rw [← hoff, toPropObj_of_le (by omega)]
    simp only
    rw [store_of_le _ _ (by simp only [Kind.minSize, sizeofPropBt, btProp] at *; omega), Option.some_bind]
    -- the `prop` word cleared
    have hw' : t.walk (segments name) ≠ nil := fun e => by rw [e] at hw; cases hw
    have hQ := t.sub_route (ne_nil_of_walk hw')
    have hq : (t.sub (t.route (segments name))).rootOff = some x.off := by rw [hQ]; exact hw
    have h₁ := h.clearLink hx hxk prop_mem_linkFields
    have ht₁ := h.heads_setProp ht hq 0
    have hr₁ := hr.withProp (by rw [hQ]; exact hw') (e := 0 % 2 ^ 32) (.inl (route_segments_ne_nil _ _))
    have hlook₁ : ∀ n', 0 ∉ n' → (t.modify (t.route (segments name)) (withProp (0 % 2 ^ 32))).lookup n' =
        if n' = name then none else t.lookup n' := fun n' hn' => by
      rw [lookup_withProp hw' _ hn', if_pos (Nat.zero_mod _)]
    have hkept₁ : ObjsKept objs pa { pa with data := pa.data.storeU32 (x.off + btProp) 0 } :=
      h.objsKept_of_word (by decide) hnat fun i _ hi => Mem.storeU32_apply_of_not_mem hi
    have hsz_e := h.size_ge e he
    rw [hek] at hsz_e; simp only [Kind.minSize, sizeofPropInfo, propValueMax] at hsz_e
    have hser : PropArea.load { pa with data := pa.data.storeU32 (x.off + btProp) 0 } (e.off + infoSerial) =
        pa.load (e.off + infoSerial) := Mem.loadU32_congr fun i h₁ h₂ => hkept₁ e he (by rw [hek]; decide) i
          (by simp only [infoSerial] at *; omega) (by simp only [infoSerial] at *; omega)
    have hlo : PropArea.load { pa with data := pa.data.storeU32 (x.off + btProp) 0 } (e.off + infoLongOffset) =
        pa.load (e.off + infoLongOffset) := Mem.loadU32_congr fun i h₁ h₂ => hkept₁ e he (by rw [hek]; decide) i
          (by simp only [infoLongOffset, infoValue, kLongLegacyErrorBufferSize] at *; omega)
          (by simp only [infoLongOffset, infoValue, kLongLegacyErrorBufferSize] at *; omega)
    -- the entry zeroed; the blob it leads to is no node
    obtain ⟨pa₂, hw₂, h₂, -, hf₂⟩ := h₁.wipePropInfo he hek
    have hnodes : ∀ i, (∀ y ∈ objs, y.kind ≠ .node → i < y.off ∨ y.off + y.size ≤ i) →
        pa₂.data i = (pa.data.storeU32 (x.off + btProp) 0) i := fun i hi =>
      hf₂ i (hi e he (by rw [hek]; decide)) fun hl b hb hbo => by
        have hoke := h₁.ok e he
        unfold ObjOk at hoke; rw [hek] at hoke
        obtain ⟨b', hb', hb'k, hb'o, -⟩ := hoke.2 hl
        obtain rfl := h₁.eq_of_off hb hb' (hbo.trans hb'o.symm)
        exact hi b hb (by rw [hb'k]; decide)
    have ht₂ := h₁.heads_of_nodes ht₁ hnodes
    rw [hser, hlo] at hf₂
    have hkept₂ : ∀ y ∈ objs, y.kind ≠ .node → y.off ≠ e.off →
        (isLong (pa.load (e.off + infoSerial)) = true → y.off ≠ e.off + pa.load (e.off + infoLongOffset)) →
        ∀ i, y.off ≤ i → i < y.off + y.size → pa₂.data i = pa.data i := fun y hy hyk hye hyb i hi₁ hi₂ => by
      refine (hf₂ i ?_ fun hl b hb hbo => ?_).trans (hkept₁ y hy hyk i hi₁ hi₂)
      · rcases h.disjoint hy he (fun h' => hye (by rw [h'])) with h' | h' <;> omega
      · rcases h.disjoint hy hb (fun h' => hyb hl (by rw [h', hbo])) with h' | h' <;> omega
    have hframe : ∀ {pa' : PropArea}, (∀ i, ¬ (t.modify (t.route (segments name)) (withProp (0 % 2 ^ 32))).NodeBytes i →
        pa'.data i = pa₂.data i) → ∀ e', t.lookup name = some e' → ∀ y ∈ objs, y.kind ≠ .node → y.off ≠ e' →
        (isLong (pa.load (e' + infoSerial)) = true → y.off ≠ e' + pa.load (e' + infoLongOffset)) →
        ∀ i, y.off ≤ i → i < y.off + y.size → pa'.data i = pa.data i := fun hf e' he' y hy hyk hye hyb i hi₁ hi₂ => by
      obtain rfl : e' = e.off := Option.some.inj (he'.symm.trans hsome)
      exact (hf i (h₂.not_nodeBytes_of_obj ht₂ hy hyk hi₁ hi₂)).trans (hkept₂ y hy hyk hye hyb i hi₁ hi₂)
    rw [hw₂, Option.some_bind]
    cases prune
    · rw [if_neg Bool.false_ne_true]
      exact ⟨pa₂, true, _, rfl, h₂, ht₂, hr₁, by rw [hsome]; rfl, hlook₁, fun hn0 => (by rw [hsome] at hn0; cases hn0),
        hframe fun _ _ => rfl⟩
    · -- pruned from the root
      rw [if_pos rfl]
      obtain ⟨pa₃, gone, hp, h₃, -, -, ht₃, hf₃⟩ := Arena.pruneTrie_spec objs walkBound h₂ ⟨_, h₂.root, rfl, rfl⟩ ht₂
        (h₂.heads_nodup .root ht₂) (by have := h₂.used_le; simp only [walkBound]; omega)
      rw [hp, Option.some_bind]
      exact ⟨pa₃, true, _, rfl, h₃, ht₃, hr₁.pruned, by rw [hsome]; rfl,
        fun n' hn' => by rw [lookup_pruned hr₁ hn', hlook₁ n' hn'], fun hn0 => (by rw [hsome] at hn0; cases hn0),
        hframe hf₃⟩

/-- **`remove` keeps the arena invariant and the trie well formed.** -/
theorem Arena.remove_rootOk (h : Arena pa objs) {t : PTrie} (ht : Heads pa 0 t) (hr : t.RootOk) (name : Bytes)
    (prune : Bool) {pa' : PropArea} {b : Bool} (hres : pa.remove name prune = some (pa', b)) :
    Arena pa' objs ∧ ∃ t', Heads pa' 0 t' ∧ t'.RootOk := by
  obtain ⟨pa'', b', t', hres', ha', ht', hr', -⟩ := h.remove_spec ht hr name prune
  rw [hres] at hres'
  obtain ⟨rfl, -⟩ := Prod.mk.inj (Option.some.inj hres')
  exact ⟨ha', t', ht', hr'⟩

end Arena

/-! ## Areas reached with C strings -/

/-- One call of `add` or `remove` that returns, with a name that is a C
string: the bytes before its NUL. -/
inductive CStep : PropArea → PropArea → Prop
  | add {pa pa' : PropArea} (name : Bytes) (namelen : Nat) (value : Bytes) (valuelen : Nat) (b : Bool) :
      0 ∉ name → pa.add name namelen value valuelen = some (pa', b) → CStep pa pa'
  | remove {pa pa' : PropArea} (name : Bytes) (prune b : Bool) :
      0 ∉ name → pa.remove name prune = some (pa', b) → CStep pa pa'

/-- The areas reached from a fresh one by calls of `add` and `remove` with C
strings as names. -/
inductive CReachable : PropArea → Prop
  | fresh : CReachable fresh
  | step {pa pa' : PropArea} : CReachable pa → CStep pa pa' → CReachable pa'

/-- The arena invariant, and a root heading a well-formed trie. -/
def TrieOk (pa : PropArea) : Prop := ∃ objs t, Arena pa objs ∧ Heads pa 0 t ∧ t.RootOk

/-- On the fresh area the root heads a trie where no name has an entry. -/
theorem fresh_lookup : ∃ t, Heads fresh 0 t ∧ t.RootOk ∧ ∀ n, t.lookup n = none := by
  have hnil : ∀ f, TStored fresh (fresh.load (0 + f)) nil := fun f => by rw [load_fresh]; exact .nil
  refine ⟨.node 0 [] 0 nil nil nil, ⟨rfl, load_fresh _, rfl, (load_fresh _).symm, hnil _, hnil _, hnil _⟩,
    ⟨nil, rfl, trivial⟩, fun n => ?_⟩
  obtain ⟨s, ss, hs⟩ := List.exists_cons_of_ne_nil (segments_ne_nil n)
  simp only [lookup, hs, walk, child, seek, ite_self, nil_walk, entry]

theorem trieOk_fresh : TrieOk fresh :=
  let ⟨t, ht, hr, _⟩ := fresh_lookup
  ⟨initObjs, t, arena_fresh, ht, hr⟩

theorem CStep.trieOk {pa pa' : PropArea} (hs : CStep pa pa') (h : TrieOk pa) : TrieOk pa' := by
  obtain ⟨objs, t, ha, ht, hr⟩ := h
  cases hs with
  | add name namelen value valuelen b hn hres =>
    obtain ⟨objs', t', hext, ht', hr', -⟩ := ha.add_spec ht hr hn hres
    exact ⟨objs', t', hext.arena, ht', hr'⟩
  | remove name prune b _ hres =>
    obtain ⟨ha', t', ht', hr'⟩ := ha.remove_rootOk ht hr name prune hres
    exact ⟨objs, t', ha', ht', hr'⟩

/-- **Every area reached with C strings keeps the arena invariant and a root
heading a well-formed trie.** -/
theorem CReachable.trieOk {pa : PropArea} (h : CReachable pa) : TrieOk pa := by
  induction h with
  | fresh => exact trieOk_fresh
  | step _ hs ih => exact hs.trieOk ih

/-! ## Filling an area -/

/-- `add(name, strlen(name), "", 0)` of each name of `ns` in turn; a call
that faults leaves the area as it was. -/
def addAll (pa : PropArea) (ns : List Bytes) : PropArea :=
  ns.foldl (fun pa n => ((pa.add n n.length [] 0).map Prod.fst).getD pa) pa

/-- **Filling an area.** Adding names one after another, each new, with no
NUL and no empty segment, while the nodes and the entry of each, at most `c`
bytes, fit: every call answers `true`, each name then looks up an entry,
every other name what it looked up before, and `bytes_used_` has grown by at
most `c` a name. -/
theorem Arena.addAll_fill {c : Nat} {ns : List Bytes} (hnd : ns.Nodup) :
    ∀ {pa objs} {t : PTrie}, Arena pa objs → Heads pa 0 t → t.RootOk →
      (∀ n ∈ ns, 0 ∉ n ∧ [] ∉ segments n ∧ t.lookup n = none ∧
        nodesSize (segments n) + align4 (sizeofPropInfo + n.length + 1) ≤ c) →
      pa.bytesUsed + c * ns.length ≤ paDataSize →
      (CReachable pa → CReachable (pa.addAll ns)) ∧ ∃ objs' t', Arena (pa.addAll ns) objs' ∧
        Heads (pa.addAll ns) 0 t' ∧ t'.RootOk ∧ (∀ n ∈ ns, (t'.lookup n).isSome) ∧
        (∀ n, 0 ∉ n → n ∉ ns → t'.lookup n = t.lookup n) ∧ (pa.addAll ns).bytesUsed ≤ pa.bytesUsed + c * ns.length := by
  induction ns with
  | nil => exact fun {_ objs t} h ht hr _ _ => ⟨id, objs, t, h, ht, hr, nofun, fun _ _ _ => rfl, by simp [addAll]⟩
  | cons s ns ih =>
    intro pa objs t h ht hr hns hfit
    rw [List.nodup_cons] at hnd
    obtain ⟨hs0, hsseg, hsnone, hsc⟩ := hns s (List.mem_cons_self _ _)
    rw [List.length_cons, Nat.mul_succ] at hfit
    obtain ⟨pa₁, objs₁, t₁, hadd, hext, ht₁, hr₁, hsome, hother, hused⟩ :=
      h.add_room ht hr hs0 hsseg hsnone [] (show 0 < propValueMax by decide) (by omega)
    have hstep : pa.addAll (s :: ns) = pa₁.addAll ns := by
      rw [addAll, List.foldl_cons, hadd]; rfl
    have hns₁ : ∀ n ∈ ns, t₁.lookup n = t.lookup n := fun n hn =>
      hother n (hns n (List.mem_cons_of_mem _ hn)).1 fun e => hnd.1 (e ▸ hn)
    obtain ⟨hc, objs₂, t₂, h₂, ht₂, hr₂, hin, hout, hle⟩ := ih hnd.2 hext.arena ht₁ hr₁
      (fun n hn => let ⟨h0, hseg, hnone, hcost⟩ := hns n (List.mem_cons_of_mem _ hn)
        ⟨h0, hseg, (hns₁ n hn).trans hnone, hcost⟩) (by omega)
    rw [hstep]
    refine ⟨fun hc₀ => hc (.step hc₀ (.add s s.length [] 0 true hs0 hadd)), objs₂, t₂, h₂, ht₂, hr₂,
      fun n hn => ?_, fun n hn hnot => ?_, by rw [List.length_cons, Nat.mul_succ]; omega⟩
    · rcases List.mem_cons.1 hn with rfl | hn
      · rw [hout n hs0 hnd.1]; exact hsome
      · exact hin n hn
    · rw [hout n hn fun h => hnot (List.mem_cons_of_mem _ h), hother n hn fun e => hnot (e ▸ List.mem_cons_self _ _)]

end PropArea

end SysProps
