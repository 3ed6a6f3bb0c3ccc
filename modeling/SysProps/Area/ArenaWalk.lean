import SysProps.Area.Arena

/-!
# The walks of the trie keep the arena invariant, and end

`find_prop_bt` and `traverse_trie` only read until they meet a zero link.
With `alloc_if_needed` they allocate a node there, construct it in the zero
bytes `allocate_obj` handed out, and publish it with one store into that
link. This module follows them through `SysProps.PropArea.Arena`.

**What is proved.** `Arena.newPropBt`: `new_prop_bt` returns, and either
allocates nothing or appends a well-formed node with zero links.
`Arena.findPropBt` and `Arena.traverseTrie`: from a node of an area with the
invariant, the walk returns with its fuel; the area keeps the invariant over
its objects and the nodes it handed out; the answer is `nullptr` or a node;
and a walk that may not allocate changes nothing. Every link leads to a
strictly later object, so `walkBound` is enough fuel.
-/

namespace SysProps

namespace PropArea

/-! ## Constructing a node -/

/-- The `prop_bt` constructor does not fault when the node fits. -/
theorem constructPropBt_isSome (pa : PropArea) (p : Nat) (name : Bytes) (namelen : Nat)
    (h : p + btName + namelen + 1 ≤ paDataSize) : ∃ pa', pa.constructPropBt p name namelen = some pa' := by
  simp only [btName] at h
  simp (disch := omega) only [constructPropBt, store, copy, storeByte, fill, btName, btNamelen, if_pos,
    Option.bind_eq_bind, Option.some_bind]
  exact ⟨_, rfl⟩

/-- What the `prop_bt` constructor writes: `namelen`, then the name and its
NUL; the link words stay as they were. -/
theorem constructPropBt_spec {pa pa' : PropArea} {p : Nat} {name : Bytes} {namelen : Nat}
    (h : pa.constructPropBt p name namelen = some pa') :
    pa'.bytesUsed = pa.bytesUsed ∧
      (∀ i, i < p ∨ p + btName + namelen + 1 ≤ i → pa'.data i = pa.data i) ∧
      (∀ f, 4 ≤ f → f + 4 ≤ btName → pa'.load (p + f) = pa.load (p + f)) ∧
      pa'.load (p + btNamelen) = namelen % 2 ^ 32 := by
  simp only [constructPropBt, store, copy, storeByte, Option.bind_eq_bind] at h
  obtain ⟨pa₁, h₁, h⟩ := Option.bind_eq_some.1 h
  obtain ⟨pa₂, h₂, h₃⟩ := Option.bind_eq_some.1 h
  obtain ⟨-, rfl⟩ := fill_eq_some h₁
  obtain ⟨-, rfl⟩ := fill_eq_some h₂
  obtain ⟨-, rfl⟩ := fill_eq_some h₃
  refine ⟨rfl, fun i hi => ?_, fun f hf₁ hf₂ => ?_, ?_⟩ <;> simp only [btName, btNamelen] at *
  · rw [Mem.fill_apply_of_not_mem _ (by omega), Mem.fill_apply_of_not_mem _ (by omega),
      Mem.fill_apply_of_not_mem _ (by omega)]
  · simp only [load]
    rw [Mem.loadU32_fill_of_disjoint _ (by omega), Mem.loadU32_fill_of_disjoint _ (by omega),
      Mem.loadU32_fill_of_disjoint _ (by omega)]
  · simp only [load]
    rw [Mem.loadU32_fill_of_disjoint _ (by omega), Mem.loadU32_fill_of_disjoint _ (by omega)]
    exact Mem.loadU32_storeU32 _ _ _

/-- The `prop_bt` constructor puts the name down after the fields. -/
theorem constructPropBt_read_name {pa pa' : PropArea} {p : Nat} {name : Bytes}
    (h : pa.constructPropBt p name name.length = some pa') : pa'.data.read (p + btName) name.length = name := by
  simp only [constructPropBt, store, copy, storeByte, Option.bind_eq_bind] at h
  obtain ⟨pa₁, h₁, h⟩ := Option.bind_eq_some.1 h
  obtain ⟨pa₂, h₂, h₃⟩ := Option.bind_eq_some.1 h
  obtain ⟨-, rfl⟩ := fill_eq_some h₂
  obtain ⟨-, rfl⟩ := fill_eq_some h₃
  rw [Mem.read_fill_of_disjoint _ (Or.inl le_rfl), Mem.read_fill_self, Mem.map_range_getD]

section Walk

variable {pa : PropArea} {objs : List Obj}

/-- **`new_prop_bt`** returns. It either allocates nothing, or appends a
well-formed node past every object there was, whose link words read 0 as the
area's fresh bytes did; no other link word changes. -/
theorem Arena.newPropBt (h : Arena pa objs) (name : Bytes) (namelen : Nat) :
    ∃ pa' r, pa.newPropBt name namelen = some (pa', r) ∧
      ((r = none ∧ pa' = pa) ∨
        (r = some pa.bytesUsed ∧
          Extends pa objs pa' (objs ++ [⟨pa.bytesUsed, align4 (sizeofPropBt + namelen + 1), .node⟩]) ∧
          ∀ s ∈ slots (objs ++ [⟨pa.bytesUsed, align4 (sizeofPropBt + namelen + 1), .node⟩]),
            pa'.load s = pa.load s)) := by
  unfold PropArea.newPropBt allocateObj
  by_cases hfit : pa.bytesUsed + align4 (sizeofPropBt + namelen + 1) > paDataSize
  · exact ⟨pa, none, by rw [if_pos hfit], Or.inl ⟨rfl, rfl⟩⟩
  rw [if_neg hfit]
  have hsz : sizeofPropBt + namelen + 1 ≤ align4 (sizeofPropBt + namelen + 1) := by unfold align4; omega
  have h₁ := h.alloc .node (sizeofPropBt + namelen + 1) (by simp only [Kind.minSize]; omega) (by omega)
  obtain ⟨pa₂, hc⟩ := constructPropBt_isSome { pa with bytesUsed := pa.bytesUsed + align4 (sizeofPropBt + namelen + 1) }
    pa.bytesUsed name namelen (by simp only [btName, sizeofPropBt] at hsz hfit ⊢; omega)
  obtain ⟨hused, hout, hlinks, hlen⟩ := constructPropBt_spec hc
  generalize align4 (sizeofPropBt + namelen + 1) = A at *
  have hslot : ∀ s ∈ slots (objs ++ [⟨pa.bytesUsed, A, .node⟩]), pa₂.load s = pa.load s := by
    intro s hs
    rw [slots_append, List.mem_append] at hs
    rcases hs with hs | hs
    · obtain ⟨y, hy, hyk, fk, hfk, rfl⟩ := mem_slots.1 hs
      have hy₁ := h.below y hy; have hy₂ := h.size_ge y hy; have := linkFields_lt hfk
      rw [hyk] at hy₂
      exact Mem.loadU32_congr fun i _ _ => hout i (Or.inl (by simp only [Kind.minSize] at *; omega))
    · obtain ⟨y, hy, -, fk, hfk, rfl⟩ := mem_slots.1 hs
      rw [List.mem_singleton] at hy; subst hy
      exact hlinks _ (linkFields_ge hfk) (by have := linkFields_lt hfk; simp only [sizeofPropBt, btName] at *; omega)
  have hzero : ∀ f, pa.load (pa.bytesUsed + f) = 0 := fun f =>
    load_eq_zero fun i h₁ _ => h.zero_above i (by omega)
  simp only at hused
  refine ⟨pa₂, some pa.bytesUsed, by simp only [hc, Option.bind_eq_bind, Option.some_bind],
    Or.inr ⟨rfl, ⟨?_, [_], rfl, tiles_singleton rfl (by simp only; omega)⟩,
      hslot⟩⟩
  refine h₁.write (List.mem_append_right _ (List.mem_singleton_self _)) hused
    (fun i hi => hout i (by simp only [btName, sizeofPropBt] at *; omega)) ?_ (uniqueLinks_of_agree h₁.unique hslot)
  show sizeofPropBt + pa₂.load (pa.bytesUsed + btNamelen) ≤ A ∧ ∀ fk ∈ linkFields, LinkOk pa₂ _ pa.bytesUsed fk.1 fk.2
  refine ⟨?_, fun fk hfk => Or.inl ((hlinks _ (linkFields_ge hfk) ?_).trans (hzero _))⟩
  · rw [hlen]; have := Nat.mod_le namelen (2 ^ 32); omega
  · have := linkFields_lt hfk; simp only [sizeofPropBt, btName] at *; omega

/-- What a walk of the trie answers from an area with the invariant: it
returns; the area has the invariant over the objects it had and those handed
out since; the answer is `nullptr` or a node; and a walk that may not allocate
changes nothing. -/
def WalkOk (pa : PropArea) (objs : List Obj) (alloc : Bool) (res : Option (PropArea × Ptr)) : Prop :=
  ∃ pa' objs' r, res = some (pa', r) ∧ Extends pa objs pa' objs' ∧ (∀ n, r = some n → NodeAt objs' n) ∧
    (alloc = false → pa' = pa ∧ objs' = objs)

variable {alloc : Bool}

theorem WalkOk.intro {pa' : PropArea} {objs' : List Obj} {r : Ptr} {res : Option (PropArea × Ptr)}
    (hres : res = some (pa', r)) (hext : Extends pa objs pa' objs') (hr : ∀ n, r = some n → NodeAt objs' n)
    (hro : alloc = false → pa' = pa ∧ objs' = objs) : WalkOk pa objs alloc res := by
  unfold WalkOk; exact ⟨pa', objs', r, hres, hext, hr, hro⟩

/-- Answering where it stands. -/
theorem WalkOk.here (h : Arena pa objs) {r : Ptr} (hr : ∀ n, r = some n → NodeAt objs n) :
    WalkOk pa objs alloc (some (pa, r)) :=
  .intro rfl (.refl h) hr fun _ => ⟨rfl, rfl⟩

/-- Running a walk after a walk. -/
theorem WalkOk.bind {res : Option (PropArea × Ptr)} {k : PropArea × Ptr → Option (PropArea × Ptr)}
    (h : WalkOk pa objs alloc res)
    (hk : ∀ pa' objs' r, Extends pa objs pa' objs' → (∀ n, r = some n → NodeAt objs' n) →
      (alloc = false → pa' = pa ∧ objs' = objs) → WalkOk pa' objs' alloc (k (pa', r))) :
    WalkOk pa objs alloc (res.bind k) := by
  obtain ⟨pa', objs', r, rfl, hext, hr, hro⟩ := h
  obtain ⟨pa'', objs'', r', hk', hext', hr', hro'⟩ := hk pa' objs' r hext hr hro
  refine .intro hk' (hext.trans hext') hr' fun ha => ?_
  obtain ⟨rfl, rfl⟩ := hro ha
  exact hro' ha

/-- **`new_prop_bt` behind a link**: the node, if there is room, is published
in the link word of the node `x`. -/
theorem Arena.newPropBtAt (h : Arena pa objs) {x : Obj} {f : Nat} (hx : x ∈ objs) (hnode : x.kind = .node)
    (hf : (f, Kind.node) ∈ linkFields) (name : Bytes) : WalkOk pa objs true (pa.newPropBtAt (x.off + f) name) := by
  obtain ⟨pa₁, r, hbt, ⟨rfl, rfl⟩ | ⟨rfl, hext, hslot⟩⟩ := h.newPropBt name name.length
  · simp only [PropArea.newPropBtAt, hbt, Option.bind_eq_bind, Option.some_bind]
    exact .here h fun _ hn => by cases hn
  have hxs := h.size_ge x hx; have := h.below x hx; have := h.used_le; have := linkFields_lt hf
  rw [hnode] at hxs
  have hfree : ∀ s ∈ slots (objs ++ [⟨pa.bytesUsed, align4 (sizeofPropBt + name.length + 1), .node⟩]),
      pa₁.load s ≠ pa.bytesUsed := by
    intro s hs
    rw [hslot s hs]
    refine (h.load_lt_used ?_).ne
    rw [slots_append, List.mem_append] at hs
    rcases hs with hs | hs
    · exact Or.inl hs
    · obtain ⟨y, hy, -, fk, -, rfl⟩ := mem_slots.1 hs
      rw [List.mem_singleton] at hy; subst hy
      exact Or.inr (Nat.le_add_right _ _)
  have h₂ := hext.arena.storeLink (List.mem_append_left _ hx) hnode hf
    (List.mem_append_right _ (List.mem_singleton_self _)) rfl
    (by simp only [Kind.minSize, sizeofPropBt] at *; omega) hfree
  simp only [PropArea.newPropBtAt, hbt, store_of_le pa₁ pa.bytesUsed (show x.off + f + 4 ≤ paDataSize by
    simp only [Kind.minSize] at *; omega), Option.bind_eq_bind, Option.some_bind]
  refine .intro rfl (hext.trans (.of_write h₂ rfl)) (fun n hn => ?_) fun hf => absurd hf (by decide)
  cases hn
  exact ⟨_, List.mem_append_right _ (List.mem_singleton_self _), rfl, rfl⟩

/-- One side of `find_prop_bt`, and the children step of `traverse_trie`:
follow the link at `x.off + f` when it is set, else allocate a node behind it
or give up. A set link leads to a later node. -/
theorem Arena.linkWalk (h : Arena pa objs) {x : Obj} {f : Nat} (hx : x ∈ objs) (hnode : x.kind = .node)
    (hf : (f, Kind.node) ∈ linkFields) (name : Bytes) (next : Ptr → Option (PropArea × Ptr))
    (hnext : ∀ t, NodeAt objs t → x.off < t → WalkOk pa objs alloc (next (some t))) :
    WalkOk pa objs alloc (if pa.load (x.off + f) ≠ 0 then next (toPropObj (pa.load (x.off + f)))
      else if alloc then pa.newPropBtAt (x.off + f) name else some (pa, none)) := by
  split
  · rename_i hne
    have hok := h.ok x hx
    unfold ObjOk at hok; rw [hnode] at hok
    obtain ⟨t, ht, hk, hoff, hlt⟩ := (hok.2 _ hf).resolve_left hne
    dsimp only at hk hoff
    have := h.below t ht; have := h.used_le
    rw [← hoff, toPropObj_of_le (by omega)]
    exact hnext t.off ⟨t, ht, hk, rfl⟩ hlt
  · split
    · subst alloc
      exact h.newPropBtAt hx hnode hf name
    · exact .here h fun _ hn => by cases hn

/-- **`find_prop_bt` returns** from a node `t` of the list with fuel past
`bytes_used_ - t`: every link it follows leads to a later node. -/
theorem Arena.findPropBt (h : Arena pa objs) (name : Bytes) (alloc : Bool) :
    ∀ fuel t, NodeAt objs t → pa.bytesUsed < fuel + t →
      WalkOk pa objs alloc (findPropBt fuel pa (some t) name alloc) := by
  intro fuel
  induction fuel with
  | zero =>
    rintro t ⟨y, hy, -, rfl⟩ hlt
    have := h.below y hy; omega
  | succ fuel ih =>
    rintro t ⟨y, hy, hyk, rfl⟩ hlt
    have hnext : ∀ t, NodeAt objs t → y.off < t →
        WalkOk pa objs alloc ((fun r => PropArea.findPropBt fuel pa r name alloc) (some t)) :=
      fun t ht hlt' => ih t ht (by omega)
    simp only [PropArea.findPropBt]
    split
    · exact .here h fun n hn => by cases hn; exact ⟨y, hy, hyk, rfl⟩
    · exact h.linkWalk hy hyk left_mem_linkFields name (fun r => PropArea.findPropBt fuel pa r name alloc) hnext
    · exact h.linkWalk hy hyk right_mem_linkFields name (fun r => PropArea.findPropBt fuel pa r name alloc) hnext

/-- **The loop of `traverse_trie` returns**, one segment at a time, from any
node of the list. -/
theorem Arena.traverseTrieLoop (alloc : Bool) (segs : List Bytes) :
    ∀ {pa : PropArea} {objs : List Obj} {current : Nat}, Arena pa objs → NodeAt objs current →
      WalkOk pa objs alloc (traverseTrieLoop walkBound pa current segs alloc) := by
  induction segs with
  | nil => exact fun h hc => .here h fun n hn => by cases hn; exact hc
  | cons seg rest ih =>
    rintro pa objs current h ⟨x, hx, hxk, rfl⟩
    simp only [PropArea.traverseTrieLoop, childrenRoot, Option.bind_eq_bind]
    split
    · exact .here h fun _ hn => by cases hn
    refine (h.linkWalk hx hxk children_mem_linkFields seg (fun r => some (pa, r))
      fun t ht _ => .here h fun n hn => by cases hn; exact ht).bind ?_
    rintro pa₁ objs₁ (_ | t) hext hr hro
    · exact .here hext.arena fun _ hn => by cases hn
    refine (hext.arena.findPropBt seg alloc walkBound t (hr t rfl) ?_).bind ?_
    · have := hext.arena.used_le; simp only [walkBound]; omega
    rintro pa₂ objs₂ (_ | cur) hext₂ hr₂ -
    · exact .here hext₂.arena fun _ hn => by cases hn
    · exact ih hext₂.arena (hr₂ cur rfl)

/-- **`traverse_trie` from `root_node()` returns.** -/
theorem Arena.traverseTrie (h : Arena pa objs) (name : Bytes) (alloc : Bool) :
    WalkOk pa objs alloc (traverseTrie walkBound pa rootNode name alloc) :=
  Arena.traverseTrieLoop alloc (segments name) h ⟨_, h.root, rfl, rfl⟩

end Walk

end PropArea

end SysProps
