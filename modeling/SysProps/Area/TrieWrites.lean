import SysProps.Area.Names
import SysProps.Area.Prune

/-!
# Writes at the end of a chain of links

`add` and `remove` change the trie the root heads one node at a time, each
node at the end of a chain of links from the root (`PTrie.modify`): a link
set to a new leaf (`withChild`), or a `prop` word set (`withProp`).
`find_prop_bt`'s search for a segment ends at the chain `locate` names, and
the walk of `traverse_trie` over a name's segments follows the chain `route`
names.

**What is proved.** A leaf hung where a search ended, and a `prop` word set
or cleared below the root, keep the trie well formed (`RootOk.hang`,
`RootOk.withProp`). A write at the end of `route t ss` that keeps the node's
name and neighbours changes only what the lookup of `ss` answers
(`walk_modify_route`), and pruning changes no lookup (`lookup_pruned`).

**What it does not establish.** Which bytes each write touches: the trees
here are read off the mapping in `SysProps.Area.Grow`.
-/

namespace SysProps

namespace PropArea

namespace PTrie

/-! ## Writes at the end of a chain of links -/

/-- The trie with the subtree behind the link `d` of its root replaced. -/
def withChild : PTrie → Dir → PTrie → PTrie
  | nil, _, _ => nil
  | node o k p _ c r, .left, u => node o k p u c r
  | node o k p l _ r, .children, u => node o k p l u r
  | node o k p l c _, .right, u => node o k p l c u

/-- The trie with its root's `prop` word set to `e`. -/
def withProp (e : Nat) : PTrie → PTrie
  | nil => nil
  | node o k _ l c r => node o k e l c r

/-- The trie with `f` applied to the subtree at the end of a chain of links;
a chain that runs out of the trie changes nothing. -/
def modify : PTrie → List Dir → (PTrie → PTrie) → PTrie
  | t, [], f => f t
  | t, d :: q, f => t.withChild d ((t.child d).modify q f)

/-- Where the search of `find_prop_bt` for `s` ends in one segment's tree:
the chain of `left` and `right` links to the node named `s`, or to the nil
position where `s` would hang. -/
def locate (s : Bytes) : PTrie → List Dir
  | nil => []
  | node _ k _ l _ r =>
    match keyCmp s k with
    | .eq => []
    | .lt => .left :: l.locate s
    | .gt => .right :: r.locate s

/-- A node of one segment, with no entry and no links, as `new_prop_bt`
leaves it. -/
def leaf (p : Nat) (s : Bytes) : PTrie := node p s 0 nil nil nil

@[simp] theorem modify_nil (t : PTrie) (f : PTrie → PTrie) : t.modify [] f = f t := rfl

theorem modify_cons (t : PTrie) (d : Dir) (q : List Dir) (f : PTrie → PTrie) :
    t.modify (d :: q) f = t.withChild d ((t.child d).modify q f) := rfl

theorem modify_append (t : PTrie) (q R : List Dir) (f : PTrie → PTrie) :
    t.modify (q ++ R) f = t.modify q fun u => u.modify R f := by
  induction q generalizing t with
  | nil => rfl
  | cons d q ih => simp only [List.cons_append, modify_cons, ih]

theorem sub_append (t : PTrie) (q R : List Dir) : t.sub (q ++ R) = (t.sub q).sub R := by
  induction q generalizing t with
  | nil => rfl
  | cons d q ih => exact ih _

theorem rootOff_eq_some {t : PTrie} {m : Nat} : t.rootOff = some m ↔ ∃ k p l c r, t = node m k p l c r := by
  cases t <;> simp [rootOff, eq_comm]

/-- The chain leads to a node of the trie. -/
theorem mem_nodes_of_sub : ∀ {t : PTrie} {q : List Dir} {m : Nat}, (t.sub q).rootOff = some m →
    m ∈ t.nodes.map Prod.fst
  | nil, q, _, h => by simp [rootOff] at h
  | node o k p l c r, [], _, h => by cases h; simp
  | node o k p l c r, d :: q, m, h => by
    obtain ⟨x, hx, rfl⟩ := List.mem_map.1 (mem_nodes_of_sub (t := (node o k p l c r).child d) h)
    exact List.mem_map.2 ⟨x, mem_child hx, rfl⟩

/-- The search ends where `seek` answers. -/
theorem sub_locate (s : Bytes) : ∀ t : PTrie, t.sub (t.locate s) = t.seek s
  | nil => rfl
  | node o k p l c r => by
    simp only [locate, seek]
    cases keyCmp s k with
    | eq => rfl
    | lt => exact sub_locate s l
    | gt => exact sub_locate s r

/-- Where `find_prop_bt` meets a zero link: the search of the segment tree
answers the node and link word where `locate`'s chain ends, past a node
that is there, with nothing behind the link. -/
theorem locate_of_search_missing {s : Bytes} : ∀ {t : PTrie} {m f : Nat}, t.seg.search s = some (.missing m f) →
    ∃ qs d, t.locate s = qs ++ [d] ∧ (t.sub qs).rootOff = some m ∧ d.field = f ∧ (t.sub qs).child d = nil ∧
      t.seek s = nil
  | nil, _, _, h => by cases h
  | node o k p l c r, m, f, h => by
    simp only [seg, SegTree.search] at h
    simp only [locate, seek]
    cases hk : keyCmp s k <;> simp only [hk] at h ⊢
    · by_cases hl : l = nil
      · subst hl
        cases h
        exact ⟨[], .left, rfl, rfl, rfl, rfl, rfl⟩
      · rw [if_neg (mt seg_eq_nil_iff.1 hl)] at h
        obtain ⟨qs, d, hq, hm, hf, hc, hs⟩ := locate_of_search_missing h
        exact ⟨.left :: qs, d, by rw [hq]; rfl, hm, hf, hc, hs⟩
    · cases h
    · by_cases hr : r = nil
      · subst hr
        cases h
        exact ⟨[], .right, rfl, rfl, rfl, rfl, rfl⟩
      · rw [if_neg (mt seg_eq_nil_iff.1 hr)] at h
        obtain ⟨qs, d, hq, hm, hf, hc, hs⟩ := locate_of_search_missing h
        exact ⟨.right :: qs, d, by rw [hq]; rfl, hm, hf, hc, hs⟩

/-- Where `find_prop_bt` finds the segment: at the node `seek` answers. -/
theorem seek_of_search_found {s : Bytes} : ∀ {t : PTrie} {n : Nat}, t.seg.search s = some (.found n) →
    (t.seek s).rootOff = some n
  | nil, _, h => by cases h
  | node o k p l c r, n, h => by
    simp only [seg, SegTree.search] at h
    simp only [seek]
    cases hk : keyCmp s k <;> simp only [hk] at h ⊢
    · by_cases hl : l = nil
      · subst hl; cases h
      · rw [if_neg (mt seg_eq_nil_iff.1 hl)] at h
        exact seek_of_search_found h
    · cases h; rfl
    · by_cases hr : r = nil
      · subst hr; cases h
      · rw [if_neg (mt seg_eq_nil_iff.1 hr)] at h
        exact seek_of_search_found h

/-- Past a node on the chain, a write further down leaves the chain leading
to what it wrote. -/
theorem sub_modify_append : ∀ {t : PTrie} {q : List Dir}, t.sub q ≠ nil → ∀ (R : List Dir) (f : PTrie → PTrie),
    (t.modify (q ++ R) f).sub q = (t.sub q).modify R f
  | nil, q, h, _, _ => by simp at h
  | node .., [], _, _, _ => rfl
  | node o k p l c r, d :: q, h, R, f => by
    have ih := sub_modify_append (t := (node o k p l c r).child d) (q := q) h R f
    cases d <;> exact ih

theorem child_withChild {o : Nat} {k : Bytes} {p : Nat} {l c r : PTrie} (d d' : Dir) (u : PTrie) :
    ((node o k p l c r).withChild d u).child d' = if d = d' then u else (node o k p l c r).child d' := by
  cases d <;> cases d' <;> rfl

/-! ## The names of a segment's tree -/

theorem keys_withChild_children (t u : PTrie) : (t.withChild .children u).keys = t.keys := by
  cases t <;> rfl

/-- A write below a `children` link leaves the names of the segment's tree. -/
theorem keys_modify_children (f : PTrie → PTrie) (q R : List Dir) : ∀ t : PTrie,
    (t.modify (q ++ .children :: R) f).keys = t.keys := by
  induction q with
  | nil => intro t; cases t <;> rfl
  | cons d q ih =>
    intro t
    cases t with
    | nil => rfl
    | node o k p l c r => cases d <;> simp only [List.cons_append, modify_cons, withChild, child, keys, List.append_eq, ih]

/-- A write that keeps the names of the tree it is applied to keeps them. -/
theorem keys_modify {f : PTrie → PTrie} (hf : ∀ u, (f u).keys = u.keys) : ∀ (t : PTrie) (q : List Dir),
    (t.modify q f).keys = t.keys
  | t, [] => hf t
  | nil, _ :: _ => rfl
  | node _ _ _ l _ _, .left :: q => by simp only [modify_cons, withChild, child, keys, keys_modify hf l q]
  | node .., .children :: _ => rfl
  | node _ _ _ _ _ r, .right :: q => by simp only [modify_cons, withChild, child, keys, keys_modify hf r q]

@[simp] theorem keys_withProp (e : Nat) (t : PTrie) : (t.withProp e).keys = t.keys := by
  cases t <;> rfl

/-- Hanging a leaf where the search for its name ends adds its name. -/
theorem keys_setAt_locate {s : Bytes} {p : Nat} : ∀ {t : PTrie}, t.seek s = nil →
    ∀ x ∈ (t.modify (t.locate s) fun _ => leaf p s).keys, x = s ∨ x ∈ t.keys
  | nil, _, x, hx => by simpa [locate, leaf, keys] using hx
  | node o k q l c r, hs, x, hx => by
    simp only [seek, locate] at hs hx
    cases hk : keyCmp s k <;> simp only [hk] at hs hx
    · simp only [modify_cons, withChild, child, keys, List.mem_append, List.mem_cons] at hx ⊢
      rcases hx with hx | hx | hx
      · exact (keys_setAt_locate hs x hx).imp_right .inl
      · exact .inr (.inr (.inl hx))
      · exact .inr (.inr (.inr hx))
    · cases hs
    · simp only [modify_cons, withChild, child, keys, List.mem_append, List.mem_cons] at hx ⊢
      rcases hx with hx | hx | hx
      · exact .inr (.inl hx)
      · exact .inr (.inr (.inl hx))
      · exact (keys_setAt_locate hs x hx).imp_right fun h => .inr (.inr h)

/-- Cutting keeps only names there were. -/
theorem keys_cut : ∀ {t : PTrie}, ∀ x ∈ t.cut.keys, x ∈ t.keys
  | nil, _, hx => hx
  | node o k p l c r, x, hx => by
    simp only [cut] at hx
    split at hx
    · simp [keys] at hx
    · simp only [keys, List.mem_append, List.mem_cons] at hx ⊢
      exact hx.imp (keys_cut _) (Or.imp_right (keys_cut _))

/-! ## Well-formed tries stay well formed -/

/-- **A leaf hung where its search ended keeps the order.** -/
theorem Wf.setAt_locate {s : Bytes} (hs : KeyOk s) (p : Nat) : ∀ {t : PTrie}, t.Wf → t.seek s = nil →
    (t.modify (t.locate s) fun _ => leaf p s).Wf
  | nil, _, _ => by simpa [locate, leaf, Wf, keys] using hs
  | node o k q l c r, ⟨hk, hlk, hrk, hl, hc, hr⟩, hseek => by
    simp only [seek, locate] at hseek ⊢
    cases hcmp : keyCmp s k <;> simp only [hcmp] at hseek ⊢
    · refine ⟨hk, fun x hx => ?_, hrk, Wf.setAt_locate hs p hl hseek, hc, hr⟩
      rcases keys_setAt_locate hseek x hx with rfl | hx
      · exact hcmp
      · exact hlk x hx
    · cases hseek
    · refine ⟨hk, hlk, fun x hx => ?_, hl, hc, Wf.setAt_locate hs p hr hseek⟩
      rcases keys_setAt_locate hseek x hx with rfl | hx
      · rw [keyCmp_swap, hcmp]; rfl
      · exact hrk x hx

/-- A write below a `children` link keeps the order, when the tree of the
children it is made in stays ordered. -/
theorem Wf.modify_children {R : List Dir} {f : PTrie → PTrie} (q : List Dir) : ∀ {t : PTrie}, t.Wf →
    (((t.sub q).child .children).modify R f).Wf → (t.modify (q ++ .children :: R) f).Wf := by
  induction q with
  | nil =>
    rintro (_ | ⟨o, k, p, l, c, r⟩) ht hv
    · trivial
    · exact ⟨ht.1, ht.2.1, ht.2.2.1, ht.2.2.2.1, hv, ht.2.2.2.2.2⟩
  | cons d q ih =>
    rintro (_ | ⟨o, k, p, l, c, r⟩) ⟨hk, hlk, hrk, hl, hc, hr⟩ hv
    · trivial
    cases d
    · exact ⟨hk, by simp only [List.append_eq, keys_modify_children]; exact hlk, hrk, ih hl hv, hc, hr⟩
    · exact ⟨hk, hlk, hrk, hl, ih hc hv, hr⟩
    · exact ⟨hk, hlk, by simp only [List.append_eq, keys_modify_children]; exact hrk, hl, hc, ih hr hv⟩

/-- A write that keeps the names and the order of the tree it is applied to
keeps the order. -/
theorem Wf.modify {f : PTrie → PTrie} (hk : ∀ u, (f u).keys = u.keys) (hf : ∀ u, u.Wf → (f u).Wf) :
    ∀ {t : PTrie} (q : List Dir), t.Wf → (t.modify q f).Wf
  | t, [], ht => hf t ht
  | nil, _ :: _, _ => trivial
  | node o k p l c r, .left :: q, ⟨hk', hlk, hrk, hl, hc, hr⟩ =>
    ⟨hk', by rw [keys_modify hk]; exact hlk, hrk, Wf.modify hk hf q hl, hc, hr⟩
  | node o k p l c r, .children :: q, ⟨hk', hlk, hrk, hl, hc, hr⟩ =>
    ⟨hk', hlk, hrk, hl, Wf.modify hk hf q hc, hr⟩
  | node o k p l c r, .right :: q, ⟨hk', hlk, hrk, hl, hc, hr⟩ =>
    ⟨hk', hlk, by rw [keys_modify hk]; exact hrk, hl, hc, Wf.modify hk hf q hr⟩

theorem Wf.withProp (e : Nat) : ∀ {t : PTrie}, t.Wf → (t.withProp e).Wf
  | nil, _ => trivial
  | node .., h => h

theorem Wf.cut : ∀ {t : PTrie}, t.Wf → t.cut.Wf
  | nil, _ => trivial
  | node o k p l c r, ⟨hk, hlk, hrk, hl, hc, hr⟩ => by
    simp only [PTrie.cut]
    split
    · trivial
    · exact ⟨hk, fun x hx => hlk x (keys_cut x hx), fun x hx => hrk x (keys_cut x hx), hl.cut, hc.cut, hr.cut⟩

/-! ## The root -/

/-- A chain from the root that leads to a node leads into the tree of its
children, or is empty. -/
theorem RootOk.sub {t : PTrie} (ht : t.RootOk) {q : List Dir} (hq : t.sub q ≠ nil) :
    q = [] ∨ ∃ q', q = .children :: q' := by
  obtain ⟨c, rfl, -⟩ := ht
  match q, hq with
  | [], _ => exact .inl rfl
  | .children :: q', _ => exact .inr ⟨q', rfl⟩
  | .left :: q', hq => simp [child] at hq
  | .right :: q', hq => simp [child] at hq

/-- **A write below a node's `children` keeps the root well formed**, when
the tree of the children stays ordered. -/
theorem RootOk.modify_children {t : PTrie} (ht : t.RootOk) {q R : List Dir} {f : PTrie → PTrie}
    (hq : t.sub q ≠ nil) (hv : (((t.sub q).child .children).modify R f).Wf) :
    (t.modify (q ++ .children :: R) f).RootOk := by
  obtain ⟨c, rfl, hc⟩ := id ht
  rcases ht.sub hq with rfl | ⟨q', rfl⟩
  · exact ⟨_, rfl, hv⟩
  · exact ⟨_, rfl, hc.modify_children q' hv⟩

/-- Setting the `prop` word of a node below the root, or clearing one, keeps
the root well formed. -/
theorem RootOk.withProp {t : PTrie} (ht : t.RootOk) {q : List Dir} (hq : t.sub q ≠ nil) {e : Nat}
    (hne : q ≠ [] ∨ e = 0) : (t.modify q (withProp e)).RootOk := by
  obtain ⟨c, rfl, hc⟩ := id ht
  rcases ht.sub hq with rfl | ⟨q', rfl⟩
  · obtain rfl := hne.resolve_left fun h => h rfl
    exact ⟨c, rfl, hc⟩
  · exact ⟨_, rfl, hc.modify (keys_withProp e) (fun _ => Wf.withProp e) q'⟩

/-- Where the walk of `find` ends, a chain of links from where it started
leads. -/
theorem exists_sub_eq_walk : ∀ {t : PTrie} {ss : List Bytes}, t.walk ss ≠ nil → ∃ q, t.sub q = t.walk ss
  | _, [], _ => ⟨[], rfl⟩
  | t, s :: ss, h => by
    simp only [walk] at h ⊢
    split at h
    · exact absurd rfl h
    · rename_i hs
      rw [if_neg hs]
      obtain ⟨q, hq⟩ := exists_sub_eq_walk h
      exact ⟨.children :: (t.child .children).locate s ++ q, by rw [sub_append, sub_cons, sub_locate, hq]⟩

theorem RootOk.pruned {t : PTrie} (ht : t.RootOk) : t.pruned.RootOk := by
  obtain ⟨c, rfl, hc⟩ := ht
  rw [pruned_node]
  split
  · exact ⟨nil, rfl, trivial⟩
  · exact ⟨c.cut, rfl, hc.cut⟩

theorem Wf.child : ∀ {t : PTrie} (d : Dir), t.Wf → (t.child d).Wf
  | nil, _, _ => trivial
  | node .., .left, h => h.2.2.2.1
  | node .., .children, h => h.2.2.2.2.1
  | node .., .right, h => h.2.2.2.2.2

theorem Wf.sub {t : PTrie} (ht : t.Wf) : ∀ q : List Dir, (t.sub q).Wf
  | [] => ht
  | d :: q => (ht.child d).sub q

/-- Below the root, the tree of a node's children is ordered. -/
theorem RootOk.children_wf {t : PTrie} (ht : t.RootOk) : ∀ q : List Dir, ((t.sub q).child .children).Wf
  | [] => by obtain ⟨c, rfl, hc⟩ := ht; exact hc
  | .children :: q => by obtain ⟨c, rfl, hc⟩ := ht; exact (hc.sub q).child .children
  | .left :: q => by obtain ⟨c, rfl, hc⟩ := ht; simp [child, Wf]
  | .right :: q => by obtain ⟨c, rfl, hc⟩ := ht; simp [child, Wf]

theorem child_withChild_self {t : PTrie} (ht : t ≠ nil) (d : Dir) (u : PTrie) : (t.withChild d u).child d = u := by
  cases t with
  | nil => exact absurd rfl ht
  | node => cases d <;> rfl

theorem sub_modify_locate (s : Bytes) (f : PTrie → PTrie) : ∀ t : PTrie,
    (t.modify (t.locate s) f).sub (t.locate s) = f (t.seek s)
  | nil => rfl
  | node o k p l c r => by
    simp only [locate, seek]
    cases keyCmp s k with
    | eq => rfl
    | lt => exact sub_modify_locate s f l
    | gt => exact sub_modify_locate s f r

/-- **A leaf hung where the search of a children's tree ends.** The trie
stays well formed, and the chain on along the search leads to the leaf. -/
theorem RootOk.hang {t : PTrie} (ht : t.RootOk) {q : List Dir} (hq : t.sub q ≠ nil) {s : Bytes} (hs : KeyOk s)
    (hseek : ((t.sub q).child .children).seek s = nil) (b : Nat) :
    (t.modify (q ++ .children :: ((t.sub q).child .children).locate s) fun _ => leaf b s).RootOk ∧
      (t.modify (q ++ .children :: ((t.sub q).child .children).locate s) fun _ => leaf b s).sub
        (q ++ .children :: ((t.sub q).child .children).locate s) = leaf b s := by
  refine ⟨ht.modify_children hq (Wf.setAt_locate hs b (ht.children_wf q) hseek), ?_⟩
  rw [sub_append, sub_modify_append hq, modify_cons, sub_cons, child_withChild_self hq, sub_modify_locate]

/-! ## The chain a walk follows -/

/-- The chain of links the walk over `ss` follows from a node: into the tree
of its children, along the search for each segment there. -/
def route : PTrie → List Bytes → List Dir
  | _, [] => []
  | t, s :: ss => .children :: ((t.child .children).locate s ++ ((t.child .children).seek s).route ss)

theorem walk_cons {s : Bytes} (hs : s ≠ []) (t : PTrie) (ss : List Bytes) :
    t.walk (s :: ss) = ((t.child .children).seek s).walk ss := by
  simp only [walk, if_neg (mt List.length_eq_zero.1 hs)]

theorem walk_append (t : PTrie) (pre ss : List Bytes) : t.walk (pre ++ ss) = (t.walk pre).walk ss := by
  induction pre generalizing t with
  | nil => rfl
  | cons p pre ih =>
    simp only [List.cons_append, walk]
    split
    · exact (nil_walk ss).symm
    · exact ih _

/-- The chain leads where the walk ends. -/
theorem sub_route : ∀ (t : PTrie) {ss : List Bytes}, (∀ s ∈ ss, s ≠ []) → t.sub (t.route ss) = t.walk ss
  | _, [], _ => rfl
  | t, s :: ss, h => by
    rw [route, sub_cons, sub_append, sub_locate, sub_route _ fun x hx => h x (.tail _ hx),
      walk_cons (h s (.head _))]

theorem route_append : ∀ (t : PTrie) {pre : List Bytes} (ss : List Bytes), (∀ s ∈ pre, s ≠ []) →
    t.route (pre ++ ss) = t.route pre ++ (t.walk pre).route ss
  | _, [], _, _ => rfl
  | t, p :: pre, ss, h => by
    rw [List.cons_append, route, route, route_append _ ss fun x hx => h x (.tail _ hx), walk_cons (h p (.head _))]
    simp only [List.cons_append, List.append_assoc]

/-- What a write at the end of a search keeps of the node there: its name
and its neighbours; or, where the search met `nil`, it hangs a node named by
the segment sought, with no neighbours. -/
def SameSides (s : Bytes) : PTrie → PTrie → Prop
  | nil, nil => True
  | nil, node _ k _ l _ r => k = s ∧ l = nil ∧ r = nil
  | node _ k _ l _ r, node _ k' _ l' _ r' => k' = k ∧ l' = l ∧ r' = r
  | node .., nil => False

/-- The search for `s` ends at what a write at its end left there. -/
theorem seek_modify_locate {s : Bytes} {g : PTrie → PTrie} : ∀ {t : PTrie}, SameSides s (t.seek s) (g (t.seek s)) →
    (t.modify (t.locate s) g).seek s = g (t.seek s)
  | nil, h => by
    simp only [locate, modify_nil, seek] at h ⊢
    generalize g nil = v at h ⊢
    cases v with
    | nil => rfl
    | node o k p l c r => obtain ⟨rfl, -, -⟩ := h; simp [seek]
  | node o k p l c r, h => by
    simp only [locate, seek] at h ⊢
    cases hk : keyCmp s k <;> simp only [hk, modify_nil] at h ⊢
    · simp only [modify_cons, withChild, child, seek, hk]; exact seek_modify_locate h
    · generalize g (node o k p l c r) = v at h ⊢
      cases v with
      | nil => exact h.elim
      | node o' k' p' l' c' r' => obtain ⟨rfl, -, -⟩ := h; simp [seek, hk]
    · simp only [modify_cons, withChild, child, seek, hk]; exact seek_modify_locate h

/-- The search for another segment, with no NUL, answers a node with the
`prop` word and children it answered before. -/
theorem seek_modify_locate_ne {s s' : Bytes} (hs' : 0 ∉ s') (hne : s' ≠ s) {g : PTrie → PTrie} :
    ∀ {t : PTrie}, SameSides s (t.seek s) (g (t.seek s)) →
      ((t.modify (t.locate s) g).seek s').entry = (t.seek s').entry ∧
        ((t.modify (t.locate s) g).seek s').child .children = (t.seek s').child .children
  | nil, h => by
    simp only [locate, modify_nil, seek] at h ⊢
    generalize g nil = v at h ⊢
    cases v with
    | nil => exact ⟨rfl, rfl⟩
    | node o k p l c r =>
      obtain ⟨rfl, rfl, rfl⟩ := h
      cases hk : keyCmp s' k with
      | eq => exact absurd ((keyCmp_eq_iff hs').1 hk) hne
      | lt | gt => simp [seek, hk]
  | node o k p l c r, h => by
    simp only [locate, seek] at h ⊢
    cases hk : keyCmp s k <;> simp only [hk, modify_nil] at h ⊢
    · simp only [modify_cons, withChild, child, seek]
      cases keyCmp s' k
      · exact seek_modify_locate_ne hs' hne h
      · exact ⟨rfl, rfl⟩
      · exact ⟨rfl, rfl⟩
    · generalize g (node o k p l c r) = v at h ⊢
      cases v with
      | nil => exact h.elim
      | node o' k' p' l' c' r' =>
        obtain ⟨rfl, rfl, rfl⟩ := h
        cases hk' : keyCmp s' k' with
        | eq =>
          rw [← (keyCmp_eq_iff hs').1 hk'] at hk
          have : keyCmp s' s = .eq := by rw [keyCmp_swap, hk]; rfl
          exact absurd ((keyCmp_eq_iff hs').1 this) hne
        | lt | gt => simp [seek, hk']
    · simp only [modify_cons, withChild, child, seek]
      cases keyCmp s' k
      · exact ⟨rfl, rfl⟩
      · exact ⟨rfl, rfl⟩
      · exact seek_modify_locate_ne hs' hne h

/-- Past its first step a walk reads only the children of where it starts. -/
theorem walk_cons_congr {u v : PTrie} (h : u.child .children = v.child .children) (s : Bytes) (ss : List Bytes) :
    u.walk (s :: ss) = v.walk (s :: ss) := by
  simp only [walk, h]

/-- A walk's entry reads only the `prop` word and children of where it starts. -/
theorem walk_entry_congr {u v : PTrie} (he : u.entry = v.entry) (h : u.child .children = v.child .children) :
    ∀ ss : List Bytes, (u.walk ss).entry = (v.walk ss).entry
  | [] => he
  | s :: ss => by rw [walk_cons_congr h]

/-- **A write at the end of a walk's chain.** Where the walk over `pre`
reaches a node, a write at the end of the chain on to the segment `s`, which
keeps the node there with its name, neighbours and children (or hangs a node
named `s` with no neighbours and no children where there was none), leaves
the walk over `pre ++ [s]` ending at what it wrote, and every other walk over
segments with no NUL answering the entry it answered. -/
theorem walk_modify_route {s : Bytes} (hs : s ≠ []) {g : PTrie → PTrie} : ∀ (pre : List Bytes) {t : PTrie},
    (∀ x ∈ pre, x ≠ []) → t.walk pre ≠ nil →
    SameSides s (t.walk (pre ++ [s])) (g (t.walk (pre ++ [s]))) →
    (g (t.walk (pre ++ [s]))).child .children = (t.walk (pre ++ [s])).child .children →
    (t.modify (t.route (pre ++ [s])) g).walk (pre ++ [s]) = g (t.walk (pre ++ [s])) ∧
      ∀ ss, (∀ x ∈ ss, 0 ∉ x) → ((t.modify (t.route (pre ++ [s])) g).walk ss).entry =
        if ss = pre ++ [s] then (g (t.walk (pre ++ [s]))).entry else (t.walk ss).entry
  | pre, nil, _, hw, _, _ => absurd (nil_walk pre) hw
  | [], node o k p l c r, _, _, hside, hc => by
    simp only [List.nil_append, walk_cons hs, route, List.append_nil, modify_cons, withChild, child] at hside hc ⊢
    simp only [walk] at hside hc
    refine ⟨by simp only [walk_cons hs, child, walk, seek_modify_locate hside], fun ss hss => ?_⟩
    match ss, hss with
    | [], _ => simp [walk, entry]
    | s' :: ss', hss =>
      by_cases h0 : s' = []
      · subst h0; simp [walk, entry, hs.symm]
      rw [walk_cons h0, walk_cons h0]
      simp only [child, List.cons.injEq]
      by_cases hs' : s' = s
      · subst hs'
        rw [seek_modify_locate hside]
        cases ss' with
        | nil => simp [walk]
        | cons x xs => simp [walk_cons_congr hc]
      · obtain ⟨he, hch⟩ := seek_modify_locate_ne (hss s' (.head _)) hs' hside
        simp only [hs', false_and, if_false]
        exact walk_entry_congr he hch ss'
  | q :: pre, node o k p l c r, hpre, hw, hside, hc => by
    have hq := hpre q (.head _)
    simp only [List.cons_append, walk_cons hq, child] at hw hside hc ⊢
    simp only [route, child, modify_cons, withChild, modify_append, List.append_eq]
    set u := c.seek q
    set R := u.route (pre ++ [s])
    have hu : u ≠ nil := fun e => hw (by rw [e, nil_walk])
    have ih := walk_modify_route hs pre (t := u) (fun x hx => hpre x (.tail _ hx)) hw hside hc
    -- the write below `u`'s children keeps `u`'s name and neighbours
    have hside' : SameSides q u (u.modify R g) := by
      obtain ⟨o', k', p', l', c', r', he⟩ : ∃ o' k' p' l' c' r', u = node o' k' p' l' c' r' := by
        cases h : u with
        | nil => exact absurd h hu
        | node o' k' p' l' c' r' => exact ⟨o', k', p', l', c', r', rfl⟩
      simp only [R, he]
      cases pre <;> simp [route, modify_cons, withChild, SameSides]
    refine ⟨by rw [seek_modify_locate (g := fun v => v.modify R g) hside', ih.1], fun ss hss => ?_⟩
    match ss, hss with
    | [], _ => simp [walk, entry]
    | s' :: ss', hss =>
      by_cases h0 : s' = []
      · subst h0; simp [walk, entry, hq.symm]
      rw [walk_cons h0, walk_cons h0]
      simp only [child, List.cons.injEq]
      by_cases hs' : s' = q
      · subst hs'
        rw [seek_modify_locate (g := fun v => v.modify R g) hside', ih.2 ss' fun x hx => hss x (.tail _ hx)]
        simp
      · obtain ⟨he, hch⟩ := seek_modify_locate_ne (g := fun v => v.modify R g) (hss s' (.head _)) hs' hside'
        simp only [hs', false_and, if_false]
        exact walk_entry_congr he hch ss'

/-- A walk that reaches a node went through no empty segment. -/
theorem ne_nil_of_walk : ∀ {t : PTrie} {ss : List Bytes}, t.walk ss ≠ nil → ∀ x ∈ ss, x ≠ []
  | _, [], _, _, hx => nomatch hx
  | t, s :: ss, h, x, hx => by
    simp only [walk] at h
    split at h
    · exact absurd rfl h
    · rcases List.mem_cons.1 hx with rfl | hx
      · exact fun e => by simp_all
      · exact ne_nil_of_walk h x hx

theorem walk_ne_nil_of_append {t : PTrie} {pre ss : List Bytes} (h : t.walk (pre ++ ss) ≠ nil) : t.walk pre ≠ nil :=
  fun e => h (by rw [walk_append, e, nil_walk])

/-- **A leaf hung where a walk fell off the trie.** Where the walk over
`pre` reaches a node and the walk on over `s` meets `nil`, a leaf named `s`
hung at the end of the chain leaves every walk over segments with no NUL
answering the entry it answered, and the walk over `pre ++ [s]` ending at the
leaf. -/
theorem walk_hang {s : Bytes} (hs : s ≠ []) {pre : List Bytes} {t : PTrie} (hw : t.walk pre ≠ nil)
    (hnil : t.walk (pre ++ [s]) = nil) (b : Nat) :
    (t.modify (t.route (pre ++ [s])) fun _ => leaf b s).walk (pre ++ [s]) = leaf b s ∧
      ∀ ss, (∀ x ∈ ss, 0 ∉ x) → ((t.modify (t.route (pre ++ [s])) fun _ => leaf b s).walk ss).entry = (t.walk ss).entry := by
  have hside : SameSides s (t.walk (pre ++ [s])) ((fun _ => leaf b s) (t.walk (pre ++ [s]))) := by
    rw [hnil]; exact ⟨rfl, rfl, rfl⟩
  have hc : ((fun _ => leaf b s) (t.walk (pre ++ [s]))).child .children = (t.walk (pre ++ [s])).child .children := by
    rw [hnil]; rfl
  obtain ⟨hself, hother⟩ := walk_modify_route (g := fun _ => leaf b s) hs pre (ne_nil_of_walk hw) hw hside hc
  refine ⟨hself, fun ss hss => ?_⟩
  rw [hother ss hss]
  split
  · subst ss; rw [hnil]; rfl
  · rfl

/-- **The `prop` word of the node a walk reaches, set.** Every walk over
segments with no NUL answers what it answered, but the walk over `ss`
itself, which answers the word set. -/
theorem walk_withProp {t : PTrie} {ss : List Bytes} (hw : t.walk ss ≠ nil) (e : Nat) :
    ∀ ss', (∀ x ∈ ss', 0 ∉ x) → ((t.modify (t.route ss) (withProp e)).walk ss').entry =
      if ss' = ss then (if e = 0 then none else some e) else (t.walk ss').entry := by
  rcases List.eq_nil_or_concat ss with rfl | ⟨pre, s, rfl⟩
  · intro ss' _
    obtain ⟨o, k, p, l, c, r, rfl⟩ : ∃ o k p l c r, t = node o k p l c r := by
      cases t with
      | nil => exact absurd rfl hw
      | node o k p l c r => exact ⟨o, k, p, l, c, r, rfl⟩
    cases ss' with
    | nil => simp [route, withProp, walk, entry]
    | cons x xs => simp [route, withProp, walk_cons_congr (u := node o k e l c r) (v := node o k p l c r) rfl]
  rw [List.concat_eq_append] at hw ⊢
  have hne := ne_nil_of_walk hw
  obtain ⟨o, k, p, l, c, r, he⟩ : ∃ o k p l c r, t.walk (pre ++ [s]) = node o k p l c r := by
    cases h : t.walk (pre ++ [s]) with
    | nil => exact absurd h hw
    | node o k p l c r => exact ⟨o, k, p, l, c, r, rfl⟩
  have hside : SameSides s (t.walk (pre ++ [s])) (withProp e (t.walk (pre ++ [s]))) := by
    rw [he]; exact ⟨rfl, rfl, rfl⟩
  have hc : (withProp e (t.walk (pre ++ [s]))).child .children = (t.walk (pre ++ [s])).child .children := by
    rw [he]; rfl
  intro ss' hss'
  rw [(walk_modify_route (hne s (by simp)) pre (fun x hx => hne x (by simp [hx])) (walk_ne_nil_of_append hw)
    hside hc).2 ss' hss', he]
  rfl

/-- The segments of a name with no NUL have none. -/
theorem zero_not_mem_segments {name : Bytes} (hn : 0 ∉ name) : ∀ x ∈ segments name, 0 ∉ x :=
  fun _ hx h0 => hn (mem_of_mem_segments hx h0)

/-- **The lookups after the `prop` word of the node `name` reaches is set**:
`name` answers the word set, every other name with no NUL what it answered. -/
theorem lookup_withProp {t : PTrie} {name : Bytes} (hw : t.walk (segments name) ≠ nil) (e : Nat) {n : Bytes}
    (hn : 0 ∉ n) : (t.modify (t.route (segments name)) (withProp e)).lookup n =
      if n = name then (if e = 0 then none else some e) else t.lookup n := by
  rw [lookup, walk_withProp hw e _ (zero_not_mem_segments hn)]
  have : segments n = segments name ↔ n = name :=
    ⟨fun h => by rw [← joinSegments_segments n, h, joinSegments_segments], fun h => h ▸ rfl⟩
  simp only [this]
  rfl

/-! ## Pruning and the lookup -/

/-- Cutting removes only subtrees that hold no entry. -/
theorem names_cut : ∀ t : PTrie, t.cut.names = t.names
  | nil => rfl
  | node o k p l c r => by
    simp only [cut]
    split
    · rename_i h
      obtain ⟨rfl, hl, hc, hr⟩ := h
      simp only [names, ← names_cut l, ← names_cut c, ← names_cut r, hl, hc, hr]
      rfl
    · simp only [names, names_cut l, names_cut c, names_cut r]

/-- **Pruning changes no lookup** of a name with no NUL. -/
theorem lookup_pruned {t : PTrie} (hr : t.RootOk) {n : Bytes} (hn : 0 ∉ n) : t.pruned.lookup n = t.lookup n := by
  have hnames : (t.pruned.child .children).names = (t.child .children).names := by
    obtain ⟨c, rfl, -⟩ := hr
    rw [pruned_node]
    split
    · rename_i h
      have hc : c.names.map Prod.snd = [] := by rw [names_map_snd]; exact ((entries_node_eq_nil.1 h).2.2.1)
      simp only [child, names, List.map_eq_nil_iff.1 hc]
    · exact names_cut c
  refine Option.ext fun e => ?_
  rw [Option.mem_def, Option.mem_def, lookup_eq_some_iff hr.pruned hn, lookup_eq_some_iff hr hn, hnames]

end PTrie

end PropArea

end SysProps
