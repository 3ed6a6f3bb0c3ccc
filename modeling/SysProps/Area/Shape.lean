import Mathlib.Data.List.Nodup
import SysProps.Area.SegTree

/-!
# The trie below a node, read out of the mapping

`prune_trie` and `foreach_property` follow every link of a node: `left` and
`right` to its neighbours in its segment's tree, `children` to the tree of
the next segment, and `prop` to its entry. This module reads what a node
reaches that way out of the mapping, as a tree of offsets, names and entry
offsets: `TStored` below a link word, where 0 is the empty tree, and `Heads`
at a node, which may be the root at offset 0.

**What is proved.** A tree read out of the mapping stays read when the bytes
of its nodes stay (`TStored.frame`). In an area with the arena invariant
every node heads a tree (`Arena.heads_exists`), whose nodes lie in node
objects after it (`Arena.tstored_nodeObj`). Below a node reached from the
root, each node is reached along one chain of links (`Heads.reach`), so no
node occurs twice (`Arena.heads_nodup`): the subtrees of a node share no
node, and a write inside one leaves the others as they were.
-/

namespace SysProps

namespace PropArea

/-- A link of a node that leads to a node. -/
inductive Dir where
  | left
  | children
  | right
deriving DecidableEq, Repr

/-- The link word of a direction, inside a node. -/
def Dir.field : Dir → Nat
  | .left => btLeft
  | .children => btChildren
  | .right => btRight

/-- A direction as `Reach` names its link. -/
def Dir.link (d : Dir) : Nat × Kind := (d.field, .node)

theorem Dir.link_mem (d : Dir) : d.link ∈ linkFields := by cases d <;> decide

theorem Dir.link_injective : Function.Injective Dir.link := by
  intro a b h; cases a <;> cases b <;> first | rfl | cases h

/-- A link word lies among a node's fields, after `namelen` and `prop`. -/
theorem Dir.field_bounds (d : Dir) : btProp + 4 ≤ d.field ∧ d.field + 4 ≤ btName := by cases d <;> decide

/-- Two links' words do not overlap. -/
theorem Dir.field_disjoint {d d' : Dir} (h : d ≠ d') : d.field + 4 ≤ d'.field ∨ d'.field + 4 ≤ d.field := by
  cases d <;> cases d' <;> first | exact absurd rfl h | decide

/-- What a node reaches through its links: its offset, its name, its `prop`
word, and the trees behind `left`, `children` and `right`. -/
inductive PTrie where
  | nil
  | node (off : Nat) (name : Bytes) (prop : Nat) (left children right : PTrie)
deriving DecidableEq, Repr

namespace PTrie

/-- The nodes, by offset and name. -/
def nodes : PTrie → List (Nat × Bytes)
  | nil => []
  | node o k _ l c r => (o, k) :: (l.nodes ++ (c.nodes ++ r.nodes))

@[simp] theorem nodes_nil : nil.nodes = [] := rfl

/-- The subtree behind a link; `nil` has none. -/
def child : PTrie → Dir → PTrie
  | nil, _ => nil
  | node _ _ _ l _ _, .left => l
  | node _ _ _ _ c _, .children => c
  | node _ _ _ _ _ r, .right => r

@[simp] theorem mem_nodes_node {x : Nat × Bytes} {o : Nat} {k : Bytes} {p : Nat} {l c r : PTrie} :
    x ∈ (node o k p l c r).nodes ↔ x = (o, k) ∨ x ∈ l.nodes ∨ x ∈ c.nodes ∨ x ∈ r.nodes := by
  simp [nodes]

/-- The entries in the order `foreach_property` hands them to `propfn`: the
left subtree's, the node's own when its `prop` word is set, the children's,
then the right subtree's. -/
def entries : PTrie → List Nat
  | nil => []
  | node _ _ p l c r => l.entries ++ ((if p = 0 then [] else [p]) ++ (c.entries ++ r.entries))

/-- Each entry with the chain of links that leads to its node. -/
def entryPaths : PTrie → List (List Dir × Nat)
  | nil => []
  | node _ _ p l c r => (if p = 0 then [] else [([], p)]) ++ ((l.entryPaths.map fun x => (.left :: x.1, x.2)) ++
      ((c.entryPaths.map fun x => (.children :: x.1, x.2)) ++ r.entryPaths.map fun x => (.right :: x.1, x.2)))

/-- The subtree a chain of links leads to; `nil` past the tree's end. -/
def sub : PTrie → List Dir → PTrie
  | t, [] => t
  | t, d :: q => (t.child d).sub q

@[simp] theorem sub_nil (t : PTrie) : t.sub [] = t := rfl

@[simp] theorem sub_cons (t : PTrie) (d : Dir) (q : List Dir) : t.sub (d :: q) = (t.child d).sub q := rfl

@[simp] theorem nil_sub : ∀ q : List Dir, nil.sub q = nil
  | [] => rfl
  | d :: q => by cases d <;> exact nil_sub q

/-- **An entry with its chain of links** is a set `prop` word of the node the
chain leads to. -/
theorem mem_entryPaths {e : Nat} : ∀ {t : PTrie} {q : List Dir},
    (q, e) ∈ t.entryPaths ↔ e ≠ 0 ∧ ∃ n k l c r, t.sub q = node n k e l c r
  | nil, q => by simp [entryPaths]
  | node o k p l c r, [] => by
    by_cases hp : p = 0
    · simp [entryPaths, hp, eq_comm]
    · simp only [entryPaths, hp, if_false, List.mem_append, List.mem_singleton, Prod.mk.injEq, List.mem_map,
        sub_nil, node.injEq]
      constructor
      · rintro (⟨-, rfl⟩ | ⟨_, _, h⟩ | ⟨_, _, h⟩ | ⟨_, _, h⟩)
        · exact ⟨hp, o, k, l, c, r, rfl, rfl, rfl, rfl, rfl, rfl⟩
        all_goals exact absurd h.1 (List.cons_ne_nil _ _)
      · rintro ⟨-, _, _, _, _, _, -, -, rfl, -⟩
        exact .inl ⟨trivial, rfl⟩
  | node o k p l c r, d :: q => by
    cases d <;> simp [entryPaths, child, mem_entryPaths]

theorem entries_eq_nil_iff : ∀ {t : PTrie}, t.entries = [] ↔ t.entryPaths = []
  | nil => by simp [entries, entryPaths]
  | node _ _ p l c r => by
    have hp : (if p = 0 then [] else [p]) = [] ↔ (if p = 0 then [] else [(([] : List Dir), p)]) = [] := by
      split <;> simp
    simp only [entries, entryPaths, List.append_eq_nil, List.map_eq_nil_iff, entries_eq_nil_iff, hp]
    tauto

end PTrie

open PTrie

/-! ## Trees in the mapping -/

/-- `TStored pa link t`: the link word value `link` leads to `t`. Zero is the
empty tree; otherwise a node sits at `link`, with `t`'s `namelen` and name
and `prop` word, and its `left`, `children` and `right` words lead to `t`'s
subtrees. -/
inductive TStored (pa : PropArea) : Nat → PTrie → Prop
  | nil : TStored pa 0 .nil
  | node {off : Nat} {name : Bytes} {l c r : PTrie} : off ≠ 0 → pa.load (off + btNamelen) = name.length →
      pa.data.read (off + btName) name.length = name → TStored pa (pa.load (off + btLeft)) l →
      TStored pa (pa.load (off + btChildren)) c → TStored pa (pa.load (off + btRight)) r →
      TStored pa off (.node off name (pa.load (off + btProp)) l c r)

/-- The node at `o`, which may be the root at offset 0, heads `t`: `t`'s root
is read at `o`, and its links lead to `t`'s subtrees. -/
def Heads (pa : PropArea) (o : Nat) : PTrie → Prop
  | .nil => False
  | .node off name p l c r => off = o ∧ pa.load (o + btNamelen) = name.length ∧
      pa.data.read (o + btName) name.length = name ∧ p = pa.load (o + btProp) ∧
      TStored pa (pa.load (o + btLeft)) l ∧ TStored pa (pa.load (o + btChildren)) c ∧
      TStored pa (pa.load (o + btRight)) r

variable {pa : PropArea}

/-- `Below pa o q n`: from the node at `o`, the link words named by `q`, each
set, lead to the node at `n`. -/
inductive Below (pa : PropArea) : Nat → List Dir → Nat → Prop
  | here (o : Nat) : Below pa o [] o
  | link {o : Nat} {d : Dir} {q : List Dir} {n : Nat} : pa.load (o + d.field) ≠ 0 →
      Below pa (pa.load (o + d.field)) q n → Below pa o (d :: q) n

/-- An entry below the node at `o`: a chain of links `q` to a node whose
`prop` word is `e`, which is set. -/
def EntryBelow (pa : PropArea) (o : Nat) (q : List Dir) (e : Nat) : Prop :=
  ∃ n, Below pa o q n ∧ pa.load (n + btProp) = e ∧ e ≠ 0

namespace TStored

theorem eq_nil_iff {w : Nat} {t : PTrie} (h : TStored pa w t) : t = .nil ↔ w = 0 := by
  cases h with
  | nil => simp
  | node hoff => simp [hoff]

/-- Below a set link word, the tree is the one its node heads. -/
theorem heads {w : Nat} {t : PTrie} (h : TStored pa w t) (hw : w ≠ 0) : Heads pa w t := by
  cases h with
  | nil => exact absurd rfl hw
  | node _ hlen hname hl hc hr => exact ⟨rfl, hlen, hname, rfl, hl, hc, hr⟩

/-- A link word leads to one tree. -/
theorem unique {w : Nat} {t t' : PTrie} (h : TStored pa w t) (h' : TStored pa w t') : t = t' := by
  induction h generalizing t' with
  | nil => exact (h'.eq_nil_iff.2 rfl).symm
  | @node off name l c r hoff hlen hname _ _ _ ihl ihc ihr =>
    cases h' with
    | nil => exact absurd rfl hoff
    | @node _ name' l' c' r' _ hlen' hname' hl' hc' hr' =>
      have hn : name = name' := by rw [← hname, ← hname', ← hlen, ← hlen']
      rw [hn, ihl hl', ihc hc', ihr hr']

end TStored

theorem Heads.stored {o : Nat} {t : PTrie} (h : Heads pa o t) (ho : o ≠ 0) : TStored pa o t := by
  match t, h with
  | .node _ _ _ _ _ _, ⟨rfl, hlen, hname, rfl, hl, hc, hr⟩ => exact .node ho hlen hname hl hc hr

theorem Heads.eq_node {o : Nat} {t : PTrie} (ht : Heads pa o t) :
    ∃ k l c r, t = .node o k (pa.load (o + btProp)) l c r := by
  match t, ht with
  | .node _ k _ l c r, ⟨rfl, _, _, rfl, _⟩ => exact ⟨k, l, c, r, rfl⟩

/-- Each link word of a node leads to the subtree behind it. -/
theorem Heads.child {o : Nat} {t : PTrie} (ht : Heads pa o t) (d : Dir) :
    TStored pa (pa.load (o + d.field)) (t.child d) := by
  match t, ht, d with
  | .node .., ⟨_, _, _, _, hl, _, _⟩, .left => exact hl
  | .node .., ⟨_, _, _, _, _, hc, _⟩, .children => exact hc
  | .node .., ⟨_, _, _, _, _, _, hr⟩, .right => exact hr

/-- Every node of a tree a node heads heads its own subtree. -/
theorem Heads.sub {o : Nat} {t : PTrie} (ht : Heads pa o t) :
    ∀ {q : List Dir} {n : Nat} {k : Bytes} {e : Nat} {l c r : PTrie},
      t.sub q = .node n k e l c r → Heads pa n (t.sub q)
  | [], _, _, _, _, _, _, hs => by
    obtain ⟨_, _, _, _, rfl⟩ := ht.eq_node
    cases hs; exact ht
  | d :: q, _, _, _, _, _, _, hs => by
    have hne : pa.load (o + d.field) ≠ 0 := fun h0 => by
      rw [sub_cons, (ht.child d).eq_nil_iff.2 h0, nil_sub] at hs; cases hs
    exact ((ht.child d).heads hne).sub hs

/-- **Chains of links are chains in the tree.** From a node, a chain of set
link words leads to `n` exactly when the chain leads, in the tree the node
heads, to a subtree `n` heads. -/
theorem Heads.below_iff {o : Nat} {t : PTrie} (ht : Heads pa o t) :
    ∀ {q : List Dir} {n : Nat}, Below pa o q n ↔ Heads pa n (t.sub q)
  | [], n => by
    obtain ⟨k, l, c, r, rfl⟩ := ht.eq_node
    refine ⟨by rintro ⟨⟩; exact ht, fun hn => ?_⟩
    obtain ⟨rfl, -⟩ := hn
    exact .here _
  | d :: q, n => by
    by_cases h0 : pa.load (o + d.field) = 0
    · rw [sub_cons, (ht.child d).eq_nil_iff.2 h0, nil_sub]
      exact ⟨by rintro (_ | ⟨hne, _⟩); exact hne h0, fun h => h.elim⟩
    · rw [sub_cons, ← ((ht.child d).heads h0).below_iff]
      exact ⟨by rintro (_ | ⟨_, hb⟩); exact hb, fun hb => .link h0 hb⟩

/-- **Entries below a node are the tree's entries**, each with its chain of
links. -/
theorem Heads.entryBelow_iff {o : Nat} {t : PTrie} (ht : Heads pa o t) {q : List Dir} {e : Nat} :
    EntryBelow pa o q e ↔ (q, e) ∈ t.entryPaths := by
  rw [mem_entryPaths]
  constructor
  · rintro ⟨n, hb, rfl, he⟩
    obtain ⟨k, l, c, r, hs⟩ := (ht.below_iff.1 hb).eq_node
    exact ⟨he, n, k, l, c, r, hs⟩
  · rintro ⟨he, n, k, l, c, r, hs⟩
    have hn := ht.sub hs
    obtain ⟨k', l', c', r', hs'⟩ := hn.eq_node
    rw [hs] at hs'
    cases hs'
    exact ⟨n, ht.below_iff.2 hn, rfl, he⟩

/-- The bytes of the nodes of a tree: each node's fields and name. -/
def PTrie.NodeBytes (t : PTrie) (i : Nat) : Prop := ∃ x ∈ t.nodes, x.1 ≤ i ∧ i < x.1 + btName + x.2.length

/-- A node's fields read alike where its bytes agree. -/
theorem load_field_congr {pa' : PropArea} {o f : Nat} {k : Bytes} (hf : f + 4 ≤ btName)
    (hag : ∀ i, o ≤ i → i < o + btName + k.length → pa'.data i = pa.data i) :
    pa'.load (o + f) = pa.load (o + f) :=
  Mem.loadU32_congr fun i h₁ h₂ => hag i (by omega) (by omega)

/-- **Frame.** A tree stays stored when the bytes of its nodes stay. -/
theorem TStored.frame {pa' : PropArea} {w : Nat} {t : PTrie} (h : TStored pa w t)
    (hag : ∀ i, t.NodeBytes i → pa'.data i = pa.data i) : TStored pa' w t := by
  induction h with
  | nil => exact .nil
  | @node off name l c r hoff hlen hname _ _ _ ihl ihc ihr =>
    have hroot : ∀ i, off ≤ i → i < off + btName + name.length → pa'.data i = pa.data i :=
      fun i h₁ h₂ => hag i ⟨(off, name), by simp, h₁, h₂⟩
    have hsub : ∀ {u : PTrie}, (∀ x ∈ u.nodes, x ∈ (PTrie.node off name (pa.load (off + btProp)) l c r).nodes) →
        ∀ i, u.NodeBytes i → pa'.data i = pa.data i :=
      fun hu i ⟨x, hx, h₁, h₂⟩ => hag i ⟨x, hu x hx, h₁, h₂⟩
    rw [← load_field_congr (show btProp + 4 ≤ btName by decide) hroot]
    refine .node hoff ?_ ?_ ?_ ?_ ?_
    · rw [load_field_congr (show btNamelen + 4 ≤ btName by decide) hroot, hlen]
    · rw [Mem.read_congr fun i h₁ h₂ => hroot i (by simp only [btName] at h₁; omega) h₂, hname]
    · rw [load_field_congr (show btLeft + 4 ≤ btName by decide) hroot]
      exact ihl (hsub fun x hx => by simp [hx])
    · rw [load_field_congr (show btChildren + 4 ≤ btName by decide) hroot]
      exact ihc (hsub fun x hx => by simp [hx])
    · rw [load_field_congr (show btRight + 4 ≤ btName by decide) hroot]
      exact ihr (hsub fun x hx => by simp [hx])

/-- **Frame** at a node. -/
theorem Heads.frame {pa' : PropArea} {o : Nat} {t : PTrie} (h : Heads pa o t)
    (hag : ∀ i, t.NodeBytes i → pa'.data i = pa.data i) : Heads pa' o t := by
  match t, h with
  | .node off name _ l c r, ⟨ho, hlen, hname, rfl, hl, hc, hr⟩ =>
    subst ho
    have hroot : ∀ i, off ≤ i → i < off + btName + name.length → pa'.data i = pa.data i :=
      fun i h₁ h₂ => hag i ⟨(off, name), by simp, h₁, h₂⟩
    have hsub : ∀ {u : PTrie}, (∀ x ∈ u.nodes, x ∈ (PTrie.node off name (pa.load (off + btProp)) l c r).nodes) →
        ∀ i, u.NodeBytes i → pa'.data i = pa.data i :=
      fun hu i ⟨x, hx, h₁, h₂⟩ => hag i ⟨x, hu x hx, h₁, h₂⟩
    refine ⟨rfl, ?_, ?_, (load_field_congr (show btProp + 4 ≤ btName by decide) hroot).symm, ?_, ?_, ?_⟩
    · rw [load_field_congr (show btNamelen + 4 ≤ btName by decide) hroot, hlen]
    · rw [Mem.read_congr fun i h₁ h₂ => hroot i (by simp only [btName] at h₁; omega) h₂, hname]
    · rw [load_field_congr (show btLeft + 4 ≤ btName by decide) hroot]
      exact hl.frame (hsub fun x hx => by simp [hx])
    · rw [load_field_congr (show btChildren + 4 ≤ btName by decide) hroot]
      exact hc.frame (hsub fun x hx => by simp [hx])
    · rw [load_field_congr (show btRight + 4 ≤ btName by decide) hroot]
      exact hr.frame (hsub fun x hx => by simp [hx])

/-! ## Trees in an area with the arena invariant -/

section Arena

variable {objs : List Obj}

/-- A set link word of a node of the list leads to a later node. -/
theorem Arena.link_node (h : Arena pa objs) {x : Obj} (hx : x ∈ objs) (hxk : x.kind = .node) (d : Dir)
    (hne : pa.load (x.off + d.field) ≠ 0) :
    NodeAt objs (pa.load (x.off + d.field)) ∧ x.off < pa.load (x.off + d.field) := by
  have hok := h.ok x hx
  unfold ObjOk at hok; rw [hxk] at hok
  obtain ⟨t, ht, htk, hto, hlt⟩ := (hok.2 _ d.link_mem).resolve_left hne
  exact ⟨⟨t, ht, htk, hto⟩, hto ▸ hlt⟩

/-- A node's name fits in its object. -/
theorem Arena.nodeObj_of_nodeAt (h : Arena pa objs) {o : Nat} (ho : NodeAt objs o) {name : Bytes}
    (hlen : pa.load (o + btNamelen) = name.length) : NodeObj objs (o, name) := by
  obtain ⟨y, hy, hyk, rfl⟩ := ho
  have hok := h.ok y hy
  unfold ObjOk at hok; rw [hyk] at hok
  have := hok.1; rw [hlen] at this
  exact ⟨y, hy, hyk, rfl, by simpa only [sizeofPropBt, btName] using this⟩

/-- The nodes of a tree stored behind a link word lie in node objects of the
list, at or after the word's value. -/
theorem Arena.tstored_nodeObj (h : Arena pa objs) {w : Nat} {t : PTrie} (ht : TStored pa w t) :
    (w ≠ 0 → NodeAt objs w) → ∀ x ∈ t.nodes, w ≤ x.1 ∧ NodeObj objs x := by
  induction ht with
  | nil => simp
  | @node off name l c r hoff hlen _ hl hc hr ihl ihc ihr =>
    intro hat x hx
    obtain ⟨y, hy, hyk, rfl⟩ := hat hoff
    have hsub : ∀ (d : Dir) {u : PTrie}, (pa.load (y.off + d.field) ≠ 0 → NodeAt objs (pa.load (y.off + d.field)) →
        ∀ x ∈ u.nodes, pa.load (y.off + d.field) ≤ x.1 ∧ NodeObj objs x) → TStored pa (pa.load (y.off + d.field)) u →
        ∀ x ∈ u.nodes, y.off ≤ x.1 ∧ NodeObj objs x := fun d u ih hu x hx => by
      by_cases hne : pa.load (y.off + d.field) = 0
      · rw [hu.eq_nil_iff.2 hne] at hx; simp at hx
      · obtain ⟨hat', hlt⟩ := h.link_node hy hyk d hne
        have := ih hne hat' x hx
        exact ⟨by omega, this.2⟩
    rcases PTrie.mem_nodes_node.1 hx with rfl | hx | hx | hx
    · exact ⟨le_rfl, h.nodeObj_of_nodeAt ⟨y, hy, hyk, rfl⟩ hlen⟩
    · exact hsub .left (fun hne hat => ihl fun _ => hat) hl x hx
    · exact hsub .children (fun hne hat => ihc fun _ => hat) hc x hx
    · exact hsub .right (fun hne hat => ihr fun _ => hat) hr x hx

/-- Every link word of a node of the list leads to a stored tree. -/
theorem Arena.tstored_exists (h : Arena pa objs) :
    ∀ fuel w, (w ≠ 0 → NodeAt objs w) → pa.bytesUsed < fuel + w → ∃ t, TStored pa w t := by
  intro fuel
  induction fuel with
  | zero =>
    intro w hw hlt
    by_cases h0 : w = 0
    · exact ⟨.nil, by rw [h0]; exact .nil⟩
    · obtain ⟨y, hy, -, rfl⟩ := hw h0
      have := h.below y hy; omega
  | succ fuel ih =>
    intro w hw hlt
    by_cases h0 : w = 0
    · exact ⟨.nil, by rw [h0]; exact .nil⟩
    obtain ⟨y, hy, hyk, rfl⟩ := hw h0
    have hsub : ∀ d : Dir, ∃ u, TStored pa (pa.load (y.off + d.field)) u := fun d => by
      by_cases hne : pa.load (y.off + d.field) = 0
      · exact ⟨.nil, by rw [hne]; exact .nil⟩
      · obtain ⟨hat, hlt'⟩ := h.link_node hy hyk d hne
        exact ih _ (fun _ => hat) (by omega)
    obtain ⟨l, hl⟩ := hsub .left
    obtain ⟨c, hc⟩ := hsub .children
    obtain ⟨r, hr⟩ := hsub .right
    have hname : pa.data.read (y.off + btName) (pa.data.read (y.off + btName) (pa.load (y.off + btNamelen))).length =
        pa.data.read (y.off + btName) (pa.load (y.off + btNamelen)) := by rw [Mem.length_read]
    exact ⟨_, .node h0 (Mem.length_read _ _ _).symm hname hl hc hr⟩

/-- **Every node heads a tree.** -/
theorem Arena.heads_exists (h : Arena pa objs) {o : Nat} (ho : NodeAt objs o) : ∃ t, Heads pa o t := by
  obtain ⟨y, hy, hyk, rfl⟩ := ho
  have hsub : ∀ d : Dir, ∃ u, TStored pa (pa.load (y.off + d.field)) u := fun d => by
    by_cases hne : pa.load (y.off + d.field) = 0
    · exact ⟨.nil, by rw [hne]; exact .nil⟩
    · obtain ⟨hat, -⟩ := h.link_node hy hyk d hne
      have := h.below y hy; have := h.used_le
      exact h.tstored_exists (pa.bytesUsed + 1) _ (fun _ => hat) (by omega)
  obtain ⟨l, hl⟩ := hsub .left
  obtain ⟨c, hc⟩ := hsub .children
  obtain ⟨r, hr⟩ := hsub .right
  have hname : pa.data.read (y.off + btName) (pa.data.read (y.off + btName) (pa.load (y.off + btNamelen))).length =
      pa.data.read (y.off + btName) (pa.load (y.off + btNamelen)) := by rw [Mem.length_read]
  exact ⟨.node y.off _ _ l c r, rfl, (Mem.length_read _ _ _).symm, hname, rfl, hl, hc, hr⟩

/-- A byte of a node object is no byte of a tree that does not hold the node. -/
theorem Arena.not_nodeBytes (h : Arena pa objs) {x : Obj} (hx : x ∈ objs) {u : PTrie}
    (hu : ∀ y ∈ u.nodes, NodeObj objs y) (hxu : x.off ∉ u.nodes.map Prod.fst) {i : Nat} (h₁ : x.off ≤ i)
    (h₂ : i < x.off + x.size) : ¬ u.NodeBytes i := by
  rintro ⟨y, hy, hy₁, hy₂⟩
  obtain ⟨z, hz, -, hzo, hzs⟩ := hu y hy
  have hzx : z ≠ x := fun e => hxu (List.mem_map.2 ⟨y, hy, by rw [← hzo, e]⟩)
  rcases h.disjoint hz hx hzx with h' | h' <;> omega

/-- Two trees with no node in common share no byte. -/
theorem Arena.nodeBytes_disjoint (h : Arena pa objs) {u v : PTrie} (hu : ∀ y ∈ u.nodes, NodeObj objs y)
    (hv : ∀ y ∈ v.nodes, NodeObj objs y) (hd : List.Disjoint (u.nodes.map Prod.fst) (v.nodes.map Prod.fst))
    {i : Nat} (hi : u.NodeBytes i) : ¬ v.NodeBytes i := by
  obtain ⟨y, hy, h₁, h₂⟩ := hi
  obtain ⟨z, hz, -, hzo, hzs⟩ := hu y hy
  exact h.not_nodeBytes hz hv (fun hm => hd (List.mem_map.2 ⟨y, hy, rfl⟩) (hzo ▸ hm)) (by omega) (by omega)

end Arena

/-! ## Chains of links into a tree -/

/-- Every node of a tree stored behind a link of a node reached from the root
is reached through that link. -/
theorem TStored.reach {w : Nat} {t : PTrie} (ht : TStored pa w t) :
    ∀ {p : List (Nat × Kind)}, (w ≠ 0 → Reach pa p w .node) → ∀ x ∈ t.nodes, ∃ q, Reach pa (p ++ q) x.1 .node := by
  induction ht with
  | nil => simp
  | @node off name l c r hoff _ _ hl hc hr ihl ihc ihr =>
    intro p hp x hx
    have hstep : ∀ (d : Dir) {u : PTrie}, (∀ {p : List (Nat × Kind)}, (pa.load (off + d.field) ≠ 0 →
        Reach pa p (pa.load (off + d.field)) .node) → ∀ x ∈ u.nodes, ∃ q, Reach pa (p ++ q) x.1 .node) →
        ∀ x ∈ u.nodes, ∃ q, Reach pa (p ++ q) x.1 .node := fun d u ih x hx => by
      obtain ⟨q, hq⟩ := ih (p := p ++ [d.link]) (fun hne => .link (hp hoff) d.link_mem hne) x hx
      exact ⟨d.link :: q, by simpa using hq⟩
    rcases PTrie.mem_nodes_node.1 hx with rfl | hx | hx | hx
    · exact ⟨[], by simpa using hp hoff⟩
    · exact hstep .left ihl x hx
    · exact hstep .children ihc x hx
    · exact hstep .right ihr x hx

/-- Below a node reached from the root, each node of a subtree is reached
through the subtree's link. -/
theorem Heads.reach_child {o : Nat} {k : Bytes} {e : Nat} {l c r : PTrie} (ht : Heads pa o (.node o k e l c r))
    {p : List (Nat × Kind)} (hp : Reach pa p o .node) (d : Dir) :
    ∀ x ∈ ((PTrie.node o k e l c r).child d).nodes, ∃ q, Reach pa (p ++ d.link :: q) x.1 .node := by
  obtain ⟨-, -, -, -, hl, hc, hr⟩ := ht
  intro x hx
  have hsub : ∀ {u : PTrie}, TStored pa (pa.load (o + d.field)) u → x ∈ u.nodes →
      ∃ q, Reach pa (p ++ d.link :: q) x.1 .node := fun hu hx => by
    obtain ⟨q, hq⟩ := hu.reach (p := p ++ [d.link]) (fun hne => .link hp d.link_mem hne) x hx
    exact ⟨q, by simpa using hq⟩
  cases d
  · exact hsub hl hx
  · exact hsub hc hx
  · exact hsub hr hx

/-- A node reached from the root is not in its own subtrees, and no node is in
two of them. -/
theorem Arena.nodup_node {objs : List Obj} (h : Arena pa objs) {p : List (Nat × Kind)} {o : Nat} {k : Bytes}
    {e : Nat} {l c r : PTrie} (hp : Reach pa p o .node) (ht : Heads pa o (.node o k e l c r))
    (hl : (l.nodes.map Prod.fst).Nodup) (hc : (c.nodes.map Prod.fst).Nodup) (hr : (r.nodes.map Prod.fst).Nodup) :
    ((PTrie.node o k e l c r).nodes.map Prod.fst).Nodup := by
  have hin : ∀ d, ∀ y ∈ ((PTrie.node o k e l c r).child d).nodes.map Prod.fst,
      ∃ q, Reach pa (p ++ d.link :: q) y .node := fun d y hy => by
    obtain ⟨x, hx, rfl⟩ := List.mem_map.1 hy
    exact ht.reach_child hp d x hx
  have hroot : ∀ d, o ∉ ((PTrie.node o k e l c r).child d).nodes.map Prod.fst := fun d ho => by
    obtain ⟨q, hq⟩ := hin d o ho
    have := congrArg List.length (h.reach_unique hp hq).1
    simp at this
  have hdisj : ∀ d₁ d₂, d₁ ≠ d₂ → List.Disjoint (((PTrie.node o k e l c r).child d₁).nodes.map Prod.fst)
      (((PTrie.node o k e l c r).child d₂).nodes.map Prod.fst) := fun d₁ d₂ hne y hy₁ hy₂ => by
    obtain ⟨q₁, hq₁⟩ := hin d₁ y hy₁
    obtain ⟨q₂, hq₂⟩ := hin d₂ y hy₂
    have := List.append_cancel_left (h.reach_unique hq₁ hq₂).1
    exact hne (Dir.link_injective (List.cons.inj this).1)
  simp only [PTrie.nodes, List.map_cons, List.map_append, List.nodup_cons, List.mem_append, List.nodup_append,
    List.disjoint_append_right]
  refine ⟨?_, hl, ⟨hc, hr, hdisj .children .right (by decide)⟩, hdisj .left .children (by decide),
    hdisj .left .right (by decide)⟩
  rintro (h₁ | h₁ | h₁)
  · exact hroot .left h₁
  · exact hroot .children h₁
  · exact hroot .right h₁

/-- No node of a tree stored behind a link reached from the root occurs
twice. -/
theorem Arena.tstored_nodup {objs : List Obj} (h : Arena pa objs) {w : Nat} {t : PTrie} (ht : TStored pa w t) :
    ∀ {p : List (Nat × Kind)}, (w ≠ 0 → Reach pa p w .node) → (t.nodes.map Prod.fst).Nodup := by
  induction ht with
  | nil => simp
  | @node off name l c r hoff hlen hname hl hc hr ihl ihc ihr =>
    intro p hp
    exact h.nodup_node (hp hoff) (TStored.node hoff hlen hname hl hc hr |>.heads hoff)
      (ihl fun hne => .link (hp hoff) Dir.left.link_mem hne) (ihc fun hne => .link (hp hoff) Dir.children.link_mem hne)
      (ihr fun hne => .link (hp hoff) Dir.right.link_mem hne)

/-- **No node is reached twice.** Below a node reached from the root, the
nodes of its tree lie at distinct offsets. -/
theorem Arena.heads_nodup {objs : List Obj} (h : Arena pa objs) {p : List (Nat × Kind)} {o : Nat} {t : PTrie}
    (hp : Reach pa p o .node) (ht : Heads pa o t) : (t.nodes.map Prod.fst).Nodup := by
  match t, ht with
  | .node _ k e l c r, ht =>
    obtain ⟨rfl, -, -, -, hl, hc, hr⟩ := id ht
    exact h.nodup_node hp ht (h.tstored_nodup hl fun hne => .link hp Dir.left.link_mem hne)
      (h.tstored_nodup hc fun hne => .link hp Dir.children.link_mem hne)
      (h.tstored_nodup hr fun hne => .link hp Dir.right.link_mem hne)

end PropArea

end SysProps
