import SysProps.Area.Shape

/-!
# `prune_trie` on the tree below a node

`prune_trie(node)` walks the tree below `node` after its entries changed:
the children's tree, then the left and right neighbours, each pruned in turn,
with the link cleared when the subtree behind it was wiped; a node left with
no link and no entry is wiped and reported to its caller, which clears its
link. On the tree a node heads (`SysProps.PropArea.Heads`) this is `cut`:
a subtree holding no entry goes, and what stays is cut the same way; the node
`prune_trie` is called at becomes `pruned`, wiped when nothing below it holds
an entry.

**What is proved.** From a node of an area with the arena invariant, whose
tree holds each node once, `prune_trie` returns whether the tree holds no
entry, leaves the node heading `pruned` and writes only the bytes of the
tree's nodes (`Arena.pruneTrie_spec`). On the tree, `cut` keeps every entry
with its chain of links (`entryPaths_cut`), cuts only subtrees without entries
(`cut_child`), and leaves no subtree without one (`Live`).
-/

namespace SysProps

namespace PropArea

namespace PTrie

/-- What stays behind a link after `prune_trie`: a node whose subtrees all
went and that holds no entry goes too; what stays has its subtrees cut the
same way. -/
def cut : PTrie → PTrie
  | nil => nil
  | node o k p l c r => if p = 0 ∧ l.cut = nil ∧ c.cut = nil ∧ r.cut = nil then nil else node o k p l.cut c.cut r.cut

/-- The node `prune_trie` is called at, afterwards: wiped when nothing below
it holds an entry, else with its subtrees cut. -/
def pruned : PTrie → PTrie
  | nil => nil
  | node o k p l c r =>
    if p = 0 ∧ l.cut = nil ∧ c.cut = nil ∧ r.cut = nil then node o [] 0 nil nil nil else node o k p l.cut c.cut r.cut

/-- A subtree goes exactly when it holds no entry. -/
theorem cut_eq_nil_iff : ∀ {t : PTrie}, t.cut = nil ↔ t.entries = []
  | nil => by simp [cut, entries]
  | node o k p l c r => by
    simp only [cut, entries, List.append_eq_nil, cut_eq_nil_iff (t := l), cut_eq_nil_iff (t := c),
      cut_eq_nil_iff (t := r)]
    split
    · rename_i hp; simp only [hp, ite_true, and_self, true_and]
    · rename_i hp
      simp only [reduceCtorEq, false_iff]
      intro ⟨hl, hpe, hc, hr⟩
      exact hp ⟨by by_contra h; simp [h] at hpe, hl, hc, hr⟩

/-- Once something below holds an entry, the node is cut like a subtree. -/
theorem pruned_eq_cut {t : PTrie} (h : t.entries ≠ []) : t.pruned = t.cut := by
  cases t with
  | nil => rfl
  | node o k p l c r =>
    have := mt cut_eq_nil_iff.1 h
    simp only [pruned, cut] at this ⊢
    split
    · rename_i hc; simp [hc] at this
    · rfl

/-- Cutting keeps only nodes there were. -/
theorem nodes_cut : ∀ {t : PTrie}, ∀ x ∈ t.cut.nodes, x ∈ t.nodes
  | nil, _, hx => hx
  | node o k p l c r, x, hx => by
    simp only [cut] at hx
    split at hx
    · simp at hx
    · simp only [mem_nodes_node] at hx ⊢
      rcases hx with hx | hx | hx | hx
      · exact .inl hx
      · exact .inr (.inl (nodes_cut x hx))
      · exact .inr (.inr (.inl (nodes_cut x hx)))
      · exact .inr (.inr (.inr (nodes_cut x hx)))

theorem nodes_pruned {t : PTrie} : ∀ x ∈ t.pruned.nodes, x.1 ∈ t.nodes.map Prod.fst := by
  cases t with
  | nil => simp [pruned]
  | node o k p l c r =>
    intro x hx
    simp only [pruned] at hx
    split at hx
    · simp only [mem_nodes_node, nodes_nil, List.not_mem_nil, or_false] at hx
      subst hx; simp [nodes]
    · rename_i hc
      have hx' : x ∈ (node o k p l c r).cut.nodes := by simp only [cut, if_neg hc]; exact hx
      exact List.mem_map.2 ⟨x, nodes_cut x hx', rfl⟩

theorem NodeBytes.of_cut {t : PTrie} {i : Nat} (h : t.cut.NodeBytes i) : t.NodeBytes i :=
  let ⟨x, hx, h₁, h₂⟩ := h; ⟨x, nodes_cut x hx, h₁, h₂⟩

/-- Cutting keeps every entry, with the chain of links to its node. -/
theorem entryPaths_cut : ∀ {t : PTrie}, t.cut.entryPaths = t.entryPaths
  | nil => rfl
  | node o k p l c r => by
    simp only [cut]
    split
    · rename_i hc
      obtain ⟨hp, hl, hcc, hr⟩ := hc
      have hl' := entries_eq_nil_iff.1 (cut_eq_nil_iff.1 hl)
      have hc' := entries_eq_nil_iff.1 (cut_eq_nil_iff.1 hcc)
      have hr' := entries_eq_nil_iff.1 (cut_eq_nil_iff.1 hr)
      simp [entryPaths, hp, hl', hc', hr']
    · simp only [entryPaths, entryPaths_cut]

theorem entryPaths_pruned {t : PTrie} : t.pruned.entryPaths = t.entryPaths := by
  cases t with
  | nil => rfl
  | node o k p l c r =>
    simp only [pruned]
    split
    · rename_i hc
      obtain ⟨hp, hl, hcc, hr⟩ := hc
      simp [entryPaths, hp, entries_eq_nil_iff.1 (cut_eq_nil_iff.1 hl), entries_eq_nil_iff.1 (cut_eq_nil_iff.1 hcc),
        entries_eq_nil_iff.1 (cut_eq_nil_iff.1 hr)]
    · simp only [entryPaths, entryPaths_cut]

/-- Cutting keeps every entry, in order. -/
theorem entries_cut : ∀ {t : PTrie}, t.cut.entries = t.entries
  | nil => rfl
  | node o k p l c r => by
    simp only [cut]
    split
    · rename_i hc
      obtain ⟨hp, hl, hcc, hr⟩ := hc
      simp [entries, hp, cut_eq_nil_iff.1 hl, cut_eq_nil_iff.1 hcc, cut_eq_nil_iff.1 hr]
    · simp only [entries, entries_cut]

/-- A node holds no entry below it when its own `prop` word and its
subtrees hold none. -/
theorem entries_node_eq_nil {o : Nat} {k : Bytes} {p : Nat} {l c r : PTrie} :
    (node o k p l c r).entries = [] ↔ p = 0 ∧ l.entries = [] ∧ c.entries = [] ∧ r.entries = [] := by
  by_cases hp : p = 0 <;> simp [entries, hp]

/-- `pruned` wipes the node exactly when nothing below it holds an entry. -/
theorem pruned_node {o : Nat} {k : Bytes} {p : Nat} {l c r : PTrie} : (node o k p l c r).pruned =
    if (node o k p l c r).entries = [] then node o [] 0 nil nil nil else node o k p l.cut c.cut r.cut := by
  simp only [pruned, cut_eq_nil_iff, entries_node_eq_nil]

theorem mem_child {t : PTrie} {d : Dir} {x : Nat × Bytes} (hx : x ∈ (t.child d).nodes) : x ∈ t.nodes := by
  match t, d with
  | node .., .left | node .., .children | node .., .right => simp [child] at hx ⊢; simp [hx]

/-- In a tree whose nodes are distinct, the root is in no subtree, each
subtree's nodes are distinct, and two subtrees share no node. -/
theorem nodup_child {o : Nat} {k : Bytes} {p : Nat} {l c r : PTrie} (h : ((node o k p l c r).nodes.map Prod.fst).Nodup)
    (d : Dir) : o ∉ ((node o k p l c r).child d).nodes.map Prod.fst ∧
      (((node o k p l c r).child d).nodes.map Prod.fst).Nodup ∧ ∀ d', d' ≠ d →
        List.Disjoint (((node o k p l c r).child d').nodes.map Prod.fst) (((node o k p l c r).child d).nodes.map Prod.fst) := by
  simp only [nodes, List.map_cons, List.map_append, List.nodup_cons, List.mem_append, List.nodup_append,
    List.disjoint_append_right, not_or] at h
  obtain ⟨⟨hl, hc, hr⟩, hln, ⟨hcn, hrn, hcr⟩, hlc, hlr⟩ := h
  cases d <;> refine ⟨‹_›, ‹_›, fun d' hd' => ?_⟩ <;> cases d' <;>
    first | exact absurd rfl hd' | exact hlc | exact hlr | exact hcr | exact fun _ h₁ h₂ => hlc h₂ h₁ |
      exact fun _ h₁ h₂ => hlr h₂ h₁ | exact fun _ h₁ h₂ => hcr h₂ h₁

/-- A byte outside a tree's nodes is outside each subtree's nodes, and
outside the node's link words. -/
theorem not_nodeBytes_child {o : Nat} {k : Bytes} {p : Nat} {l c r : PTrie} {i : Nat}
    (h : ¬ (node o k p l c r).NodeBytes i) (d : Dir) :
    ¬ ((node o k p l c r).child d).NodeBytes i ∧ (i < o + d.field ∨ o + d.field + 4 ≤ i) := by
  refine ⟨fun ⟨x, hx, h₁, h₂⟩ => h ⟨x, mem_child hx, h₁, h₂⟩, ?_⟩
  have := d.field_bounds
  by_contra hw
  exact h ⟨(o, k), by simp, by omega, by omega⟩

/-- A node with an entry below it is cut into its cut subtrees. -/
theorem cut_node {o : Nat} {k : Bytes} {p : Nat} {l c r : PTrie} (h : (node o k p l c r).entries ≠ []) :
    (node o k p l c r).cut = node o k p l.cut c.cut r.cut := by
  rw [← pruned_eq_cut h, pruned_node, if_neg h]

/-- A tree holding no entry holds none in a subtree. -/
theorem entries_sub : ∀ {t : PTrie} (q : List Dir), t.entries = [] → (t.sub q).entries = []
  | _, [], h => h
  | nil, _ :: q, _ => by simp [child, entries]
  | node o k p l c r, d :: q, h => by
    obtain ⟨-, hl, hc, hr⟩ := entries_node_eq_nil.1 h
    cases d
    · exact entries_sub q hl
    · exact entries_sub q hc
    · exact entries_sub q hr

/-- Where an entry is left below, cutting the tree cuts the subtree there. -/
theorem cut_sub : ∀ {t : PTrie} {q : List Dir}, (t.sub q).entries ≠ [] → t.cut.sub q = (t.sub q).cut
  | _, [], _ => rfl
  | nil, _ :: _, h => by simp [child, entries] at h
  | node o k p l c r, d :: q, h => by
    rw [sub_cons, cut_node fun he => h (entries_sub (d :: q) he)]
    cases d
    · exact cut_sub (t := l) h
    · exact cut_sub (t := c) h
    · exact cut_sub (t := r) h

theorem pruned_sub {t : PTrie} {q : List Dir} (h : (t.sub q).entries ≠ []) : t.pruned.sub q = (t.sub q).cut := by
  rw [pruned_eq_cut fun he => h (entries_sub q he), cut_sub h]

/-- Every node of a tree holds an entry or has one below it. -/
def Live : PTrie → Prop
  | nil => True
  | node o k p l c r => (node o k p l c r).entries ≠ [] ∧ l.Live ∧ c.Live ∧ r.Live

/-- **No subtree without entries is left.** -/
theorem live_cut : ∀ {t : PTrie}, t.cut.Live
  | nil => trivial
  | node o k p l c r => by
    simp only [cut]
    split
    · trivial
    · rename_i hc
      refine ⟨fun h => hc ?_, live_cut, live_cut, live_cut⟩
      simp only [entries, List.append_eq_nil, entries_cut] at h
      obtain ⟨hl, hp, hcc, hr⟩ := h
      exact ⟨by by_contra h'; simp [h'] at hp, cut_eq_nil_iff.2 hl, cut_eq_nil_iff.2 hcc, cut_eq_nil_iff.2 hr⟩

/-- Every subtree of a live tree is live. -/
theorem Live.sub : ∀ {t : PTrie} (q : List Dir), t.Live → (t.sub q).Live
  | _, [], h => h
  | nil, _ :: _, _ => by simp only [sub_cons, child, nil_sub]; trivial
  | node .., .left :: q, h => Live.sub q h.2.1
  | node .., .children :: q, h => Live.sub q h.2.2.1
  | node .., .right :: q, h => Live.sub q h.2.2.2

/-- Below the node `prune_trie` is called at, every subtree left holds an
entry. -/
theorem live_pruned (t : PTrie) (d : Dir) : (t.pruned.child d).Live := by
  cases t with
  | nil => trivial
  | node o k p l c r =>
    simp only [pruned]
    split <;> cases d <;> first | trivial | exact live_cut

end PTrie

open PTrie

/-! ## `prune_trie` in the mapping -/

/-- **What a step on one link keeps.** When a step on the link `d` of the
node `o`, heading `node o k p l c r`, leaves the other subtrees' nodes and the
node's fields and name outside the link word, it leaves the node's other
words, its name, and the trees stored behind its other links. -/
theorem keep_step {pa pa' : PropArea} {o : Nat} {k : Bytes} {p : Nat} {l c r : PTrie} {d : Dir}
    (hag : ∀ i, ((∃ d', d' ≠ d ∧ ((node o k p l c r).child d').NodeBytes i) ∨
      (o ≤ i ∧ i < o + btName + k.length ∧ (i < o + d.field ∨ o + d.field + 4 ≤ i))) → pa'.data i = pa.data i) :
    (∀ f, f + 4 ≤ btName → f + 4 ≤ d.field ∨ d.field + 4 ≤ f → pa'.load (o + f) = pa.load (o + f)) ∧
      pa'.data.read (o + btName) k.length = pa.data.read (o + btName) k.length ∧
      ∀ d', d' ≠ d → ∀ v : PTrie, (∀ i, v.NodeBytes i → ((node o k p l c r).child d').NodeBytes i) →
        TStored pa (pa.load (o + d'.field)) v → TStored pa' (pa'.load (o + d'.field)) v := by
  have := d.field_bounds
  have hload : ∀ f, f + 4 ≤ btName → f + 4 ≤ d.field ∨ d.field + 4 ≤ f → pa'.load (o + f) = pa.load (o + f) :=
    fun f hf hd => Mem.loadU32_congr fun i h₁ h₂ => hag i (.inr ⟨by omega, by omega, by omega⟩)
  refine ⟨hload, Mem.read_congr fun i h₁ h₂ => hag i (.inr ⟨by omega, h₂, by omega⟩), fun d' hd' v hv hs => ?_⟩
  rw [hload d'.field d'.field_bounds.2 (Dir.field_disjoint hd')]
  exact hs.frame fun i hi => hag i (.inl ⟨d', hd', hv i hi⟩)

section Arena

variable {pa : PropArea} {objs : List Obj}

/-- A step on the link `d` of a node of the list that writes only the subtree
behind the link and the link word leaves what `keep_step` asks for: in an
area with the arena invariant, the subtrees of a tree with distinct nodes,
and the node's own bytes, lie in distinct objects. -/
theorem Arena.kept_of_step (h : Arena pa objs) {pa' : PropArea} {o : Nat} {k : Bytes} {p : Nat} {l c r : PTrie}
    (hobj : ∀ x ∈ (node o k p l c r).nodes, NodeObj objs x) (hnd : ((node o k p l c r).nodes.map Prod.fst).Nodup)
    {d : Dir} (hf : ∀ i, ¬ ((node o k p l c r).child d).NodeBytes i → (i < o + d.field ∨ o + d.field + 4 ≤ i) →
      pa'.data i = pa.data i) :
    ∀ i, ((∃ d', d' ≠ d ∧ ((node o k p l c r).child d').NodeBytes i) ∨
      (o ≤ i ∧ i < o + btName + k.length ∧ (i < o + d.field ∨ o + d.field + 4 ≤ i))) → pa'.data i = pa.data i := by
  obtain ⟨X, hX, -, hXo, hXs⟩ := hobj (o, k) (by simp)
  dsimp only at hXo hXs; subst hXo
  have hsub : ∀ d' x, x ∈ ((node X.off k p l c r).child d').nodes → NodeObj objs x := fun _ x hx => hobj x (mem_child hx)
  have := d.field_bounds
  rintro i (⟨d', hd', hi⟩ | ⟨h₁, h₂, h₃⟩)
  · refine hf i (h.nodeBytes_disjoint (hsub d') (hsub d) ((nodup_child hnd d).2.2 d' hd') hi) ?_
    by_contra hw
    exact h.not_nodeBytes hX (hsub d') (nodup_child hnd d').1 (by omega) (by omega) hi
  · exact hf i (h.not_nodeBytes hX (hsub d) (nodup_child hnd d).1 (by omega) (by omega)) h₃

/-- What `prune_trie` at the node `o`, which heads `t`, answers: it returns
whether `t` holds no entry, with the arena and `bytes_used_` kept, the node
heading `t.pruned`, and only bytes of `t`'s nodes written. -/
def PruneSpec (objs : List Obj) (pa : PropArea) (o : Nat) (t : PTrie) (res : Option (PropArea × Bool)) : Prop :=
  ∃ pa' gone, res = some (pa', gone) ∧ Arena pa' objs ∧ pa'.bytesUsed = pa.bytesUsed ∧
    (gone = true ↔ t.entries = []) ∧ Heads pa' o t.pruned ∧ ∀ i, ¬ t.NodeBytes i → pa'.data i = pa.data i

/-- **One link of `prune_trie`.** On the link `d` of a node of the list, with
the tree `u` stored behind it and not holding the node, where pruning the
subtree does what `PruneSpec` says: the link is left leading to `u.cut`, the
node stays a leaf only if `u` holds no entry, and only `u`'s nodes and the
link word are written. -/
theorem Arena.pruneLink_spec (h : Arena pa objs) {x : Obj} (hx : x ∈ objs) (hxk : x.kind = .node) (d : Dir)
    {u : PTrie} (hu : TStored pa (pa.load (x.off + d.field)) u) (hnd : x.off ∉ u.nodes.map Prod.fst)
    (prune : PropArea → Ptr → Option (PropArea × Bool))
    (hprune : pa.load (x.off + d.field) ≠ 0 →
      PruneSpec objs pa (pa.load (x.off + d.field)) u (prune pa (some (pa.load (x.off + d.field)))))
    (isLeaf : Bool) :
    ∃ pa', PropArea.pruneLink prune pa x.off d.field isLeaf = some (pa', isLeaf && decide (u.entries = [])) ∧
      Arena pa' objs ∧ pa'.bytesUsed = pa.bytesUsed ∧ TStored pa' (pa'.load (x.off + d.field)) u.cut ∧
      ∀ i, ¬ u.NodeBytes i → (i < x.off + d.field ∨ x.off + d.field + 4 ≤ i) → pa'.data i = pa.data i := by
  unfold PropArea.pruneLink
  by_cases hne : pa.load (x.off + d.field) = 0
  · -- no subtree behind the link
    obtain rfl := hu.eq_nil_iff.2 hne
    refine ⟨pa, by simp [hne, entries], h, rfl, by rw [hne]; exact .nil, fun _ _ _ => rfl⟩
  obtain ⟨⟨y, hy, hyk, hyo⟩, -⟩ := h.link_node hx hxk d hne
  have := h.below y hy; have := h.used_le; have := h.below x hx; have hsz := h.size_ge x hx
  have := d.field_bounds
  rw [hxk] at hsz; simp only [Kind.minSize, sizeofPropBt, btName] at hsz this
  obtain ⟨pa₁, gone, hres, h₁, hu₁, hgone, hheads, hframe⟩ := hprune hne
  simp only [if_pos hne, toPropObj_of_le (show pa.load (x.off + d.field) ≤ paDataSize by omega), hres,
    Option.bind_eq_bind, Option.some_bind]
  have hobj := h.tstored_nodeObj hu fun _ => ⟨y, hy, hyk, hyo⟩
  have hload : pa₁.load (x.off + d.field) = pa.load (x.off + d.field) :=
    Mem.loadU32_congr fun i h₁ h₂ => hframe i (h.not_nodeBytes hx (fun z hz => (hobj z hz).2) hnd (by omega) (by omega))
  cases gone with
  | false =>
    -- something below holds an entry: the link stays, and the subtree is cut
    have hne' : u.entries ≠ [] := fun he => by simpa using hgone.2 he
    refine ⟨pa₁, by simp [hne'], h₁, hu₁, ?_, fun i hi _ => hframe i hi⟩
    rw [hload, ← pruned_eq_cut hne']
    exact hheads.stored hne
  | true =>
    -- the subtree went: its link is cleared
    have he := hgone.1 rfl
    rw [if_pos rfl, store_of_le _ _ (by omega), Option.some_bind]
    refine ⟨{ pa₁ with data := pa₁.data.storeU32 (x.off + d.field) 0 }, by simp [he], h₁.clearLink hx hxk d.link_mem, hu₁,
      ?_, fun i hi hw => ?_⟩
    · rw [cut_eq_nil_iff.2 he]
      simp only [load, Dir.link, Mem.loadU32_storeU32, Nat.zero_mod]
      exact .nil
    · exact (Mem.storeU32_apply_of_not_mem hw).trans (hframe i hi)

/-- The wipe at the end of `prune_trie`: the node is left heading a bare
node, and only its fields and name are written. -/
theorem wipe_spec {pa₁ pa₂ : PropArea} {o : Nat} (hz₁ : pa.zero (o + btName) (pa.load (o + btNamelen)) = some pa₁)
    (hz₂ : pa₁.zero o sizeofPropBt = some pa₂) :
    Heads pa₂ o (.node o [] 0 .nil .nil .nil) ∧
      ∀ i, i < o ∨ o + btName + pa.load (o + btNamelen) ≤ i → pa₂.data i = pa.data i := by
  obtain ⟨-, rfl⟩ := fill_eq_some hz₁
  obtain ⟨-, rfl⟩ := fill_eq_some hz₂
  have hzero : ∀ f, f + 4 ≤ sizeofPropBt → PropArea.load { pa with
      data := (pa.data.fill (o + btName) (pa.load (o + btNamelen)) fun _ => 0).fill o sizeofPropBt fun _ => 0 }
        (o + f) = 0 := fun f hf =>
    load_eq_zero fun i h₁ h₂ => by dsimp only; exact Mem.fill_apply_of_mem _ (by omega) (by omega)
  refine ⟨⟨rfl, hzero btNamelen (by decide), rfl, (hzero btProp (by decide)).symm, ?_, ?_, ?_⟩, fun i hi => ?_⟩
  · rw [hzero btLeft (by decide)]; exact .nil
  · rw [hzero btChildren (by decide)]; exact .nil
  · rw [hzero btRight (by decide)]; exact .nil
  · simp only [btName, sizeofPropBt] at hi ⊢
    simp (disch := omega) only [Mem.fill_apply_of_not_mem]

/-- The nodes of the tree a node of the list heads lie in node objects. -/
theorem Arena.heads_nodeObj (h : Arena pa objs) {o : Nat} (ho : NodeAt objs o) {t : PTrie} (ht : Heads pa o t) :
    ∀ x ∈ t.nodes, NodeObj objs x := by
  obtain ⟨y, hy, hyk, rfl⟩ := ho
  match t, ht with
  | .node _ k _ l c r, ⟨rfl, hlen, _, _, hl, hc, hr⟩ =>
    have hsub : ∀ (d : Dir) {u : PTrie}, TStored pa (pa.load (y.off + d.field)) u → ∀ x ∈ u.nodes, NodeObj objs x :=
      fun d _ hu x hx => (h.tstored_nodeObj hu (fun hne => (h.link_node hy hyk d hne).1) x hx).2
    intro x hx
    rcases mem_nodes_node.1 hx with rfl | hx | hx | hx
    · exact h.nodeObj_of_nodeAt ⟨y, hy, hyk, rfl⟩ hlen
    · exact hsub .left hl x hx
    · exact hsub .children hc x hx
    · exact hsub .right hr x hx

/-- **`prune_trie` on the tree below a node.** From a node of an area with
the arena invariant, heading a tree whose nodes are distinct, with fuel past
`bytes_used_ - o`, `prune_trie` does what `PruneSpec` says: the children's
tree, then the left and right neighbours are pruned, each step leaving what
the others wrote, and the node is wiped exactly when nothing below it holds
an entry. -/
theorem Arena.pruneTrie_spec (objs : List Obj) :
    ∀ fuel {pa : PropArea} {o : Nat} {t : PTrie}, Arena pa objs → NodeAt objs o → Heads pa o t →
      (t.nodes.map Prod.fst).Nodup → pa.bytesUsed < fuel + o → PruneSpec objs pa o t (PropArea.pruneTrie fuel pa (some o)) := by
  intro fuel
  induction fuel with
  | zero =>
    rintro pa o t h ⟨y, hy, -, rfl⟩ - - hlt
    have := h.below y hy; omega
  | succ fuel ih =>
    rintro pa o t h ho ht hnd hlt
    obtain ⟨y, hy, hyk, rfl⟩ := id ho
    have hobj := h.heads_nodeObj ho ht
    cases t with
    | nil => exact ht.elim
    | node o' k p l c r =>
    obtain ⟨rfl, hlen, hname, hp, hl, hc, hr⟩ := ht
    have hsub : ∀ (d : Dir) {pa' : PropArea} {u : PTrie}, Arena pa' objs → pa'.bytesUsed = pa.bytesUsed →
        TStored pa' (pa'.load (y.off + d.field)) u → (u.nodes.map Prod.fst).Nodup → pa'.load (y.off + d.field) ≠ 0 →
        PruneSpec objs pa' (pa'.load (y.off + d.field)) u (PropArea.pruneTrie fuel pa' (some (pa'.load (y.off + d.field)))) :=
      fun d _ _ h' hu' hs hnd' hne =>
        have ⟨hat, hlt'⟩ := h'.link_node hy hyk d hne
        ih h' hat (hs.heads hne) hnd' (by omega)
    -- the children's tree
    obtain ⟨pa₁, hres₁, h₁, hu₁, hc₁, hf₁⟩ := h.pruneLink_spec hy hyk .children hc (nodup_child hnd .children).1 _
      (hsub .children h rfl hc (nodup_child hnd .children).2.1) true
    have hk₁ := keep_step (h.kept_of_step hobj hnd (d := .children) hf₁)
    -- the left neighbour
    have hl₁ := hk₁.2.2 .left (by decide) l (fun _ hi => hi) hl
    obtain ⟨pa₂, hres₂, h₂, hu₂, hl₂, hf₂⟩ := h₁.pruneLink_spec hy hyk .left hl₁ (nodup_child hnd .left).1 _
      (hsub .left h₁ hu₁ hl₁ (nodup_child hnd .left).2.1)
      (true && decide (c.entries = []))
    have hk₂ := keep_step (h₁.kept_of_step hobj hnd (d := .left) hf₂)
    -- the right neighbour
    have hr₂ := hk₂.2.2 .right (by decide) r (fun _ hi => hi) (hk₁.2.2 .right (by decide) r (fun _ hi => hi) hr)
    obtain ⟨pa₃, hres₃, h₃, hu₃, hr₃, hf₃⟩ := h₂.pruneLink_spec hy hyk .right hr₂ (nodup_child hnd .right).1 _
      (hsub .right h₂ (hu₂.trans hu₁) hr₂ (nodup_child hnd .right).2.1)
      (true && decide (c.entries = []) && decide (l.entries = []))
    have hk₃ := keep_step (h₂.kept_of_step hobj hnd (d := .right) hf₃)
    -- what the three steps leave of the node and outside the tree
    have hown : ∀ f, f + 4 ≤ btProp + 4 → pa₃.load (y.off + f) = pa.load (y.off + f) := fun f hf => by
      have hb : ∀ d : Dir, f + 4 ≤ btName ∧ f + 4 ≤ d.field := fun d => by have := d.field_bounds; omega
      rw [hk₃.1 f (hb .right).1 (.inl (hb .right).2), hk₂.1 f (hb .left).1 (.inl (hb .left).2),
        hk₁.1 f (hb .children).1 (.inl (hb .children).2)]
    have hframe : ∀ i, ¬ (node y.off k p l c r).NodeBytes i → pa₃.data i = pa.data i := fun i hi =>
      have hd := not_nodeBytes_child hi
      (hf₃ i (hd .right).1 (hd .right).2).trans ((hf₂ i (hd .left).1 (hd .left).2).trans (hf₁ i (hd .children).1 (hd .children).2))
    have hcond : ((true && decide (c.entries = []) && decide (l.entries = []) && decide (r.entries = [])) = true ∧
        pa₃.load (y.off + btProp) = 0) ↔ (node y.off k p l c r).entries = [] := by
      rw [hown btProp le_rfl, ← hp, entries_node_eq_nil]
      simp only [Bool.true_and, Bool.and_eq_true, decide_eq_true_eq]
      tauto
    have hu : pa₃.bytesUsed = pa.bytesUsed := hu₃.trans (hu₂.trans hu₁)
    simp only [Dir.field] at hres₁ hres₂ hres₃
    simp only [PropArea.pruneTrie, Option.bind_eq_bind, hres₁, hres₂, hres₃, Option.some_bind]
    by_cases he : (node y.off k p l c r).entries = []
    · -- nothing below holds an entry: the node is wiped
      rw [if_pos (hcond.2 he)]
      obtain ⟨pa₄, pa₅, hz₄, hz₅, h₅, hu₅⟩ := h₃.wipeNode hy hyk
      obtain ⟨hheads, hwipe⟩ := wipe_spec hz₄ hz₅
      rw [hz₄, Option.some_bind, hz₅, Option.some_bind]
      refine ⟨pa₅, true, rfl, h₅, hu₅.trans hu, by simp [he], by rw [pruned_node, if_pos he]; exact hheads,
        fun i hi => (hwipe i ?_).trans (hframe i hi)⟩
      rw [hown btNamelen (by decide), hlen]
      by_contra hw
      exact hi ⟨(y.off, k), by simp, by dsimp only; omega, by dsimp only; omega⟩
    · -- an entry is left below: the node stays, heading the cut subtrees
      rw [if_neg (mt hcond.1 he)]
      refine ⟨pa₃, false, rfl, h₃, hu, by simp [he], ?_, hframe⟩
      rw [pruned_node, if_neg he]
      refine ⟨rfl, ?_, ?_, ?_, ?_, ?_, hr₃⟩
      · rw [hown btNamelen (by decide), hlen]
      · rw [hk₃.2.1, hk₂.2.1, hk₁.2.1, hname]
      · rw [hown btProp le_rfl, hp]
      · exact hk₃.2.2 .left (by decide) l.cut (fun _ hi => NodeBytes.of_cut hi) hl₂
      · exact hk₃.2.2 .children (by decide) c.cut (fun _ hi => NodeBytes.of_cut hi)
          (hk₂.2.2 .children (by decide) c.cut (fun _ hi => NodeBytes.of_cut hi) hc₁)

end Arena

/-- **`prune_trie` decides emptiness exactly.** From any node reached from the
root of an area reachable by `add` and `remove`, `prune_trie` returns, and
returns true exactly when no entry is reached from the node along `left`,
`children` and `right` links. Afterwards the entries reached from the node
are the same, each along the same chain of links; a link it cleared led to a
subtree holding no entry; and every node still reached strictly below the
node has an entry below it. -/
theorem pruneTrie_decides_emptiness {pa : PropArea} (hr : Reachable pa) {p : List (Nat × Kind)} {o : Nat}
    (ho : Reach pa p o .node) :
    ∃ pa' gone, pruneTrie walkBound pa (some o) = some (pa', gone) ∧
      (gone = true ↔ ¬ ∃ q e, EntryBelow pa o q e) ∧
      (∀ q e, EntryBelow pa' o q e ↔ EntryBelow pa o q e) ∧
      (∀ q n (d : Dir), Below pa o q n → pa.load (n + d.field) ≠ 0 → pa'.load (n + d.field) = 0 →
        ¬ ∃ q' e, EntryBelow pa (pa.load (n + d.field)) q' e) ∧
      ∀ (d : Dir) q n, Below pa' o (d :: q) n → ∃ q' e, EntryBelow pa' n q' e := by
  obtain ⟨objs, h⟩ := hr.arena
  obtain ⟨x, hx, rfl, hxk, -⟩ := h.reach_mem ho
  obtain ⟨t, ht⟩ := h.heads_exists ⟨x, hx, hxk, rfl⟩
  obtain ⟨pa', gone, hres, -, -, hgone, ht', -⟩ := Arena.pruneTrie_spec objs walkBound h ⟨x, hx, hxk, rfl⟩ ht
    (h.heads_nodup ho ht) (by have := h.below x hx; have := h.used_le; simp only [walkBound]; omega)
  -- an entry below a node heading `u` is a member of `u.entryPaths`
  have hnone : ∀ {pa : PropArea} {w : Nat} {u : PTrie}, Heads pa w u → ((¬ ∃ q e, EntryBelow pa w q e) ↔ u.entries = []) :=
    fun hu => by
      rw [entries_eq_nil_iff, List.eq_nil_iff_forall_not_mem]
      simp only [hu.entryBelow_iff, Prod.forall, not_exists]
  refine ⟨pa', gone, hres, by rw [hgone, hnone ht], fun q e => by rw [ht'.entryBelow_iff, ht.entryBelow_iff,
    entryPaths_pruned], fun q n d hb hne hzero => ?_, fun d q n hb => ?_⟩
  · -- a cleared link: the subtree behind it held no entry
    rw [hnone (((ht.below_iff.1 hb).child d).heads hne)]
    by_cases hs : (t.sub q).entries = []
    · obtain ⟨k, l, c, r, hq⟩ := (ht.below_iff.1 hb).eq_node
      rw [hq] at hs ⊢
      obtain ⟨-, hl, hc, hr⟩ := entries_node_eq_nil.1 hs
      cases d <;> assumption
    · obtain ⟨k, l, c, r, hq⟩ := (ht.below_iff.1 hb).eq_node
      have hq' : t.pruned.sub q = node n k (pa.load (n + btProp)) l.cut c.cut r.cut := by
        rw [pruned_sub hs, hq, cut_node (hq ▸ hs)]
      have hchild := (ht'.sub hq').child d
      rw [hq', hzero] at hchild
      have hnil := hchild.eq_nil_iff.2 rfl
      rw [hq]
      cases d
      · exact cut_eq_nil_iff.1 hnil
      · exact cut_eq_nil_iff.1 hnil
      · exact cut_eq_nil_iff.1 hnil
  · -- a node left below holds an entry or has one below it
    have hn := ht'.below_iff.1 hb
    obtain ⟨k, l, c, r, hq⟩ := hn.eq_node
    have hlive := Live.sub q (live_pruned t d)
    rw [sub_cons] at hq hn
    rw [hq] at hlive hn
    exact not_not.1 (mt (hnone hn).1 hlive.1)

/-- A fresh area after `add("a.b", 3, "y", 1)`. -/
def areaADotB : PropArea := ((fresh.add [97, 46, 98] 3 [121] 1).map Prod.fst).getD fresh

/-- Then `add("c", 1, "y", 1)`. -/
def areaADotBC : PropArea := ((areaADotB.add [99] 1 [121] 1).map Prod.fst).getD fresh

/-- Then `remove("a.b", false)`: the root's children tree is `a` at 112,
with `c` at 260 to its right; `a`'s children link still leads to the node
`b` at 136, whose entry is gone. -/
def areaADotBGone : PropArea := ((areaADotBC.remove [97, 46, 98] false).map Prod.fst).getD fresh

theorem reachable_areaADotBGone : Reachable areaADotBGone :=
  .step (.step (.step .fresh (.add [97, 46, 98] 3 [121] 1 true rfl)) (.add [99] 1 [121] 1 true rfl))
    (.remove [97, 46, 98] false true rfl)

/-- Pruning `areaADotBGone` from the root keeps the entry of `c`, so it does not
report the trie gone, and clears `a`'s children link, behind which no entry
was left. -/
theorem pruneTrie_clears_b :
    ∃ pa' gone, pruneTrie walkBound areaADotBGone (some 0) = some (pa', gone) ∧ gone = false ∧
      (∀ q e, EntryBelow pa' 0 q e ↔ EntryBelow areaADotBGone 0 q e) ∧
      EntryBelow pa' 0 [.children, .right] 284 ∧
      areaADotBGone.load (112 + Dir.children.field) ≠ 0 ∧ pa'.load (112 + Dir.children.field) = 0 ∧
      ¬ ∃ q e, EntryBelow areaADotBGone (areaADotBGone.load (112 + Dir.children.field)) q e := by
  obtain ⟨pa', gone, hres, hgone, hsame, hcleared, -⟩ := pruneTrie_decides_emptiness reachable_areaADotBGone .root
  have hc : EntryBelow areaADotBGone 0 [.children, .right] 284 :=
    ⟨260, .link (by decide) (.link (by decide) (.here _)), by decide, by decide⟩
  have h112 : Below areaADotBGone 0 [.children] 112 := .link (by decide) (.here _)
  have hpa' : pa'.load (112 + Dir.children.field) = 0 := by
    rw [show pruneTrie walkBound areaADotBGone (some 0) = some (_, false) from rfl] at hres
    obtain ⟨rfl, -⟩ := Prod.mk.inj (Option.some.inj hres)
    decide
  have hne : areaADotBGone.load (112 + Dir.children.field) ≠ 0 := by decide
  exact ⟨pa', gone, hres, Bool.eq_false_iff.2 fun h => hgone.1 h ⟨_, _, hc⟩, hsame, (hsame _ _).2 hc, hne, hpa',
    hcleared [.children] 112 .children h112 hne hpa'⟩

end PropArea

end SysProps
