import SysProps.Area.ArenaWalk

/-!
# `remove`, `prune_trie` and `foreach_property` over the arena invariant

`remove` clears the `prop` link of the name's node, then zeroes the entry it
detached (its long value first, when `is_long()` says it has one); with
`prune` it then walks the whole trie from the root in `prune_trie`, clearing
the links to subtrees left without entries and wiping their nodes. Nothing is
freed: `bytes_used_` stays.

**What is proved.** `Arena.remove`: from an area with the invariant, `remove`
returns, keeps the invariant over the same objects, and leaves `bytes_used_`
as it was. `Arena.pruneTrie` and `Arena.foreachProperty`: from a node, with
fuel past the offsets a walk down the links can meet, both return.
-/

namespace SysProps

namespace PropArea

/-! ## Zeroing -/

/-- `memset(data_ + o, 0, strlen(data_ + o))` before a NUL at `o + k`: a
write inside `[o, o + k)`, which keeps that NUL. -/
theorem zero_strlen_spec (pa : PropArea) {o k : Nat} (hk : pa.data (o + k) = 0) (hfit : o + k < paDataSize) :
    ∃ pa', pa.zero o (pa.strlen o) = some pa' ∧ pa'.bytesUsed = pa.bytesUsed ∧
      ∀ i, i < o ∨ o + k ≤ i → pa'.data i = pa.data i := by
  have hlen : pa.strlen o ≤ k := Mem.strlenFrom_le hk _
  refine ⟨_, fill_of_le _ _ (by omega), rfl, fun i hi => ?_⟩
  dsimp only
  exact Mem.fill_apply_of_not_mem _ (by omega)

section Arena

variable {pa : PropArea} {objs : List Obj}

/-- A slot of the object list is a link word of `x`, or lies outside `x`. -/
theorem Arena.slot_cases (h : Arena pa objs) {x : Obj} (hx : x ∈ objs) {s : Nat} (hs : s ∈ slots objs) :
    (x.kind = .node ∧ ∃ fk ∈ linkFields, s = x.off + fk.1) ∨ s + 4 ≤ x.off ∨ x.off + x.size ≤ s := by
  obtain ⟨y, hy, hyk, fk, hfk, rfl⟩ := mem_slots.1 hs
  by_cases hyx : y = x
  · subst hyx; exact Or.inl ⟨hyk, fk, hfk, rfl⟩
  · have hsz := h.size_ge y hy; rw [hyk] at hsz
    have := linkFields_lt hfk
    rcases h.disjoint hy hx hyx with h' | h' <;> simp only [Kind.minSize] at hsz <;> omega

/-- The long value of an entry, zeroed up to its NUL, inside the blob. -/
theorem Arena.zeroBlob (h : Arena pa objs) {b : Obj} (hb : b ∈ objs) (hk : b.kind = .blob) :
    ∃ pa', pa.zero b.off (pa.strlen b.off) = some pa' ∧ Arena pa' objs ∧ pa'.bytesUsed = pa.bytesUsed ∧
      ∀ i, i < b.off ∨ b.off + b.size ≤ i → pa'.data i = pa.data i := by
  have hok := h.ok b hb
  unfold ObjOk at hok; rw [hk] at hok
  obtain ⟨k, hkb, hnul⟩ := hok
  have := h.below b hb; have := h.used_le
  obtain ⟨pa', hz, hused, hout⟩ := pa.zero_strlen_spec hnul (by omega)
  refine ⟨pa', hz, h.writeData hb (by rw [hk]; decide) hused (fun i hi => hout i (by omega)) ?_, hused,
    fun i hi => hout i (by omega)⟩
  unfold ObjOk; rw [hk]
  exact ⟨k, hkb, (hout _ (Or.inr le_rfl)).trans hnul⟩

/-- The name of an entry zeroed up to its NUL, then its fields, inside the
entry. -/
theorem Arena.wipeEntry (h : Arena pa objs) {x : Obj} (hx : x ∈ objs) (hk : x.kind = .entry) :
    ∃ pa', ((pa.zero (x.off + infoName) (pa.strlen (x.off + infoName))).bind fun pa => pa.zero x.off sizeofPropInfo) =
      some pa' ∧ Arena pa' objs ∧ pa'.bytesUsed = pa.bytesUsed ∧
      ∀ i, i < x.off ∨ x.off + x.size ≤ i → pa'.data i = pa.data i := by
  have hok := h.ok x hx
  unfold ObjOk at hok; rw [hk] at hok
  obtain ⟨⟨k, hkx, hnul⟩, hlong⟩ := hok
  have := h.below x hx; have := h.used_le
  have hne : x.kind ≠ .node := by rw [hk]; decide
  obtain ⟨pa₁, hz₁, hused₁, hout₁⟩ := pa.zero_strlen_spec hnul (by omega)
  have hload₁ : ∀ f, f + 4 ≤ infoName → pa₁.load (x.off + f) = pa.load (x.off + f) := fun f hf =>
    Mem.loadU32_congr fun i _ _ => hout₁ i (by omega)
  have h₁ := h.writeData hx hne hused₁ (fun i hi => hout₁ i (by omega)) (by
    unfold ObjOk; rw [hk]
    refine ⟨⟨k, hkx, (hout₁ _ (Or.inr le_rfl)).trans hnul⟩, ?_⟩
    rw [hload₁ infoSerial (by decide), hload₁ infoLongOffset (by decide)]
    exact hlong)
  have hfit₂ : x.off + sizeofPropInfo ≤ paDataSize := by simp only [infoName] at hkx; omega
  have hout₂ : ∀ i, i < x.off ∨ x.off + sizeofPropInfo ≤ i → pa₁.data.fill x.off sizeofPropInfo (fun _ => 0) i = pa₁.data i :=
    fun i hi => Mem.fill_apply_of_not_mem _ hi
  refine ⟨{ pa₁ with data := pa₁.data.fill x.off sizeofPropInfo fun _ => 0 },
    by rw [hz₁, Option.some_bind]; exact fill_of_le _ _ hfit₂,
    h₁.writeData hx hne rfl (fun i hi => hout₂ i (by simp only [infoName] at hkx; omega)) ?_, hused₁,
    fun i hi => (hout₂ i (by simp only [infoName] at hkx; omega)).trans (hout₁ i (by omega))⟩
  unfold ObjOk; rw [hk]
  refine ⟨⟨k, hkx, (hout₂ (x.off + infoName + k) (Or.inr (by simp only [infoName]; omega))).trans ((hout₁ _ (Or.inr le_rfl)).trans hnul)⟩, ?_⟩
  have hl0 : ({ pa₁ with data := pa₁.data.fill x.off sizeofPropInfo fun _ => 0 } : PropArea).load
      (x.off + infoSerial) = 0 :=
    load_eq_zero fun i h₁ h₂ => by
      dsimp only
      simp only [infoSerial, sizeofPropInfo, propValueMax] at h₁ h₂ ⊢
      exact Mem.fill_apply_of_mem _ (by omega) (by omega)
  rw [hl0, isLong_zero]
  exact fun h => absurd h (by decide)

/-- **The zeroing half of `remove`** returns and keeps the arena, for any
entry of the list; it writes only inside the entry and, when `is_long()`
holds, the blob its long offset leads to. -/
theorem Arena.wipePropInfo (h : Arena pa objs) {x : Obj} (hx : x ∈ objs) (hk : x.kind = .entry) :
    ∃ pa', pa.wipePropInfo x.off = some pa' ∧ Arena pa' objs ∧ pa'.bytesUsed = pa.bytesUsed ∧
      ∀ i, (i < x.off ∨ x.off + x.size ≤ i) → (isLong (pa.load (x.off + infoSerial)) = true →
        ∀ b ∈ objs, b.off = x.off + pa.load (x.off + infoLongOffset) → i < b.off ∨ b.off + b.size ≤ i) →
        pa'.data i = pa.data i := by
  simp only [PropArea.wipePropInfo, Option.bind_eq_bind]
  split
  · rename_i hl
    have hok := h.ok x hx
    unfold ObjOk at hok; rw [hk] at hok
    obtain ⟨b, hb, hbk, hboff, -⟩ := hok.2 hl
    obtain ⟨pa₁, hz, h₁, hu₁, hf₁⟩ := h.zeroBlob hb hbk
    rw [← hboff, hz, Option.some_bind]
    obtain ⟨pa', hw, h', hu', hf'⟩ := h₁.wipeEntry hx hk
    exact ⟨pa', hw, h', hu'.trans hu₁, fun i hi hib => (hf' i hi).trans (hf₁ i (hib hl b hb rfl))⟩
  · rw [Option.some_bind]
    obtain ⟨pa', hw, h', hu', hf'⟩ := h.wipeEntry hx hk
    exact ⟨pa', hw, h', hu', fun i hi _ => hf' i hi⟩

/-- A node wiped by `prune_trie`: its name, then its fields. Its link words
read 0 after, and every other link word as before. -/
theorem Arena.wipeNode (h : Arena pa objs) {x : Obj} (hx : x ∈ objs) (hnode : x.kind = .node) :
    ∃ pa₁ pa₂, pa.zero (x.off + btName) (pa.load (x.off + btNamelen)) = some pa₁ ∧
      pa₁.zero x.off sizeofPropBt = some pa₂ ∧ Arena pa₂ objs ∧ pa₂.bytesUsed = pa.bytesUsed := by
  have hok := h.ok x hx
  unfold ObjOk at hok; rw [hnode] at hok
  have := h.below x hx; have := h.used_le; have hname := hok.1
  simp only [sizeofPropBt] at hname
  obtain ⟨pa₁, hz₁⟩ : ∃ pa₁, pa.zero (x.off + btName) (pa.load (x.off + btNamelen)) = some pa₁ :=
    ⟨_, fill_of_le _ _ (by simp only [btName]; omega)⟩
  obtain ⟨pa₂, hz₂⟩ : ∃ pa₂, pa₁.zero x.off sizeofPropBt = some pa₂ :=
    ⟨_, fill_of_le _ _ (by simp only [sizeofPropBt]; omega)⟩
  obtain ⟨-, hpa₁⟩ := fill_eq_some hz₁
  obtain ⟨-, hpa₂⟩ := fill_eq_some hz₂
  simp only [btName, sizeofPropBt] at hpa₁ hpa₂
  have hused : pa₂.bytesUsed = pa.bytesUsed := by rw [hpa₂, hpa₁]
  have hout : ∀ i, i < x.off ∨ x.off + x.size ≤ i → pa₂.data i = pa.data i := fun i hi => by
    rw [hpa₂, hpa₁]; simp (disch := omega) only [Mem.fill_apply_of_not_mem]
  have hzero : ∀ f, f + 4 ≤ sizeofPropBt → pa₂.load (x.off + f) = 0 := fun f hf =>
    load_eq_zero fun i h₁ h₂ => by
      simp only [sizeofPropBt] at hf; rw [hpa₂]; simp (disch := omega) only [Mem.fill_apply_of_mem]
  refine ⟨pa₁, pa₂, hz₁, hz₂, h.write hx hused hout ?_ (uniqueLinks_of_agree_or_zero h.unique fun s hs => ?_), hused⟩
  · unfold ObjOk; rw [hnode]
    have hsz := h.size_ge x hx; rw [hnode] at hsz
    exact ⟨by rw [hzero btNamelen (by decide)]; simpa only [Kind.minSize] using hsz,
      fun fk hfk => Or.inl (hzero _ (linkFields_lt hfk))⟩
  · rcases h.slot_cases hx hs with ⟨-, fk, hfk, rfl⟩ | hout'
    · exact Or.inr (hzero _ (linkFields_lt hfk))
    · exact Or.inl (Mem.loadU32_congr fun i _ _ => hout i (by omega))

/-! ## `prune_trie` -/

/-- What a call of `prune_trie` answers from an area with the invariant: it
returns, with the invariant over the same objects and the same
`bytes_used_`. -/
def PruneOk (pa : PropArea) (objs : List Obj) (res : Option (PropArea × Bool)) : Prop :=
  ∃ pa' b, res = some (pa', b) ∧ Arena pa' objs ∧ pa'.bytesUsed = pa.bytesUsed

theorem PruneOk.here (h : Arena pa objs) (b : Bool) : PruneOk pa objs (some (pa, b)) := ⟨pa, b, rfl, h, rfl⟩

theorem PruneOk.bind {res : Option (PropArea × Bool)} {k : PropArea × Bool → Option (PropArea × Bool)}
    (h : PruneOk pa objs res)
    (hk : ∀ pa' b, Arena pa' objs → pa'.bytesUsed = pa.bytesUsed → PruneOk pa' objs (k (pa', b))) :
    PruneOk pa objs (res.bind k) := by
  obtain ⟨pa', b, rfl, h', hu⟩ := h
  obtain ⟨pa'', b', hk', h'', hu'⟩ := hk pa' b h' hu
  exact ⟨pa'', b', hk', h'', hu'.trans hu⟩

/-- One link of `prune_trie`: a set link leads to a later node, pruned there,
and cleared when that node was wiped. -/
theorem Arena.pruneLink (h : Arena pa objs) {x : Obj} {f : Nat} (hx : x ∈ objs) (hnode : x.kind = .node)
    (hf : (f, Kind.node) ∈ linkFields) (prune : PropArea → Ptr → Option (PropArea × Bool))
    (hprune : ∀ t, NodeAt objs t → x.off < t → PruneOk pa objs (prune pa (some t))) (isLeaf : Bool) :
    PruneOk pa objs (pruneLink prune pa x.off f isLeaf) := by
  unfold PropArea.pruneLink
  simp only [Option.bind_eq_bind]
  split
  · rename_i hne
    have hok := h.ok x hx
    unfold ObjOk at hok; rw [hnode] at hok
    obtain ⟨t, ht, hk, hoff, hlt⟩ := (hok.2 _ hf).resolve_left hne
    dsimp only at hk hoff
    have := h.below t ht; have := h.used_le
    rw [← hoff, toPropObj_of_le (by omega)]
    refine (hprune t.off ⟨t, ht, hk, rfl⟩ hlt).bind fun pa' b h' hu => ?_
    have := h.below x hx; have hsz := h.size_ge x hx; have := linkFields_lt hf
    rw [hnode] at hsz
    simp only
    split
    · rw [store_of_le _ _ (by simp only [Kind.minSize] at *; omega), Option.some_bind]
      exact PruneOk.here (h'.clearLink hx hnode hf) _
    · exact PruneOk.here h' _
  · exact PruneOk.here h _

/-- **`prune_trie` returns** from a node of the list with fuel past
`bytes_used_ - t`, keeping the arena. -/
theorem Arena.pruneTrie (objs : List Obj) :
    ∀ fuel {pa : PropArea} t, Arena pa objs → NodeAt objs t → pa.bytesUsed < fuel + t →
      PruneOk pa objs (pruneTrie fuel pa (some t)) := by
  intro fuel
  induction fuel with
  | zero =>
    rintro pa t h ⟨y, hy, -, rfl⟩ hlt
    have := h.below y hy; omega
  | succ fuel ih =>
    rintro pa t h ⟨x, hx, hxk, rfl⟩ hlt
    have hprune : ∀ pa', Arena pa' objs → pa'.bytesUsed = pa.bytesUsed →
        ∀ t, NodeAt objs t → x.off < t → PruneOk pa' objs (PropArea.pruneTrie fuel pa' (some t)) :=
      fun pa' h' hu t ht hlt' => ih t h' ht (by omega)
    simp only [PropArea.pruneTrie, Option.bind_eq_bind]
    refine (h.pruneLink hx hxk children_mem_linkFields _ (hprune pa h rfl) true).bind fun pa₁ b₁ h₁ hu₁ => ?_
    refine (h₁.pruneLink hx hxk left_mem_linkFields _ (hprune pa₁ h₁ hu₁) b₁).bind fun pa₂ b₂ h₂ hu₂ => ?_
    refine (h₂.pruneLink hx hxk right_mem_linkFields _ (hprune pa₂ h₂ (hu₂.trans hu₁)) b₂).bind
      fun pa₃ b₃ h₃ hu₃ => ?_
    split
    · obtain ⟨pa₄, pa₅, hz₄, hz₅, h₅, hu₅⟩ := h₃.wipeNode hx hxk
      rw [hz₄, Option.some_bind, hz₅, Option.some_bind]
      exact ⟨pa₅, true, rfl, h₅, hu₅⟩
    · exact PruneOk.here h₃ _

/-! ## `remove` -/

/-- **`remove` returns and keeps the arena**, over the same objects and with
the same `bytes_used_`, whether it prunes or not. -/
theorem Arena.remove (h : Arena pa objs) (name : Bytes) (prune : Bool) :
    ∃ pa' b, pa.remove name prune = some (pa', b) ∧ Arena pa' objs ∧ pa'.bytesUsed = pa.bytesUsed := by
  obtain ⟨pa₁, objs₁, r, htr, -, hr, hro⟩ := h.traverseTrie name false
  obtain ⟨hpa, rfl⟩ := hro rfl
  rw [hpa] at htr
  simp only [PropArea.remove, Option.bind_eq_bind, htr, Option.some_bind]
  rcases r with _ | node
  · exact ⟨pa, false, rfl, h, rfl⟩
  obtain ⟨x, hx, hxk, rfl⟩ := hr _ rfl
  simp only
  split
  · exact ⟨pa, false, rfl, h, rfl⟩
  rename_i hne
  have hok := h.ok x hx
  unfold ObjOk at hok; rw [hxk] at hok
  obtain ⟨e, he, hek, hoff, -⟩ := (hok.2 _ prop_mem_linkFields).resolve_left hne
  dsimp only at hek hoff
  have := h.below e he; have := h.below x hx; have := h.used_le; have hsz := h.size_ge x hx
  rw [hxk] at hsz
  rw [← hoff, toPropObj_of_le (by omega)]
  simp only
  rw [store_of_le _ _ (by simp only [Kind.minSize, sizeofPropBt, btProp] at *; omega), Option.some_bind]
  obtain ⟨pa₂, hw, h₂, hu₂, -⟩ := (h.clearLink hx hxk prop_mem_linkFields).wipePropInfo he hek
  rw [hw, Option.some_bind]
  split
  · obtain ⟨pa₃, b, hp, h₃, hu₃⟩ := Arena.pruneTrie _ walkBound 0 h₂ ⟨_, h₂.root, rfl, rfl⟩
      (by have := h₂.used_le; simp only [walkBound]; omega)
    rw [show rootNode = some 0 from rfl, hp, Option.some_bind]
    exact ⟨pa₃, true, rfl, h₃, hu₃.trans hu₂⟩
  · exact ⟨pa₂, true, rfl, h₂, hu₂⟩

/-! ## `foreach_property` -/

/-- **`foreach_property` returns** from a node of the list with fuel past
`bytes_used_ - t`. -/
theorem Arena.foreachProperty (h : Arena pa objs) :
    ∀ fuel t, NodeAt objs t → pa.bytesUsed < fuel + t → (foreachProperty fuel pa (some t)).isSome := by
  intro fuel
  induction fuel with
  | zero =>
    rintro t ⟨y, hy, -, rfl⟩ hlt
    have := h.below y hy; omega
  | succ fuel ih =>
    rintro t ⟨x, hx, hxk, rfl⟩ hlt
    have hok := h.ok x hx
    unfold ObjOk at hok; rw [hxk] at hok
    have hvisit : ∀ f, (f, Kind.node) ∈ linkFields → ∃ l,
        (if pa.load (x.off + f) ≠ 0 then
          Option.map Prod.fst (PropArea.foreachProperty fuel pa (toPropObj (pa.load (x.off + f))))
        else some []) = some l := by
      intro f hf
      split
      · rename_i hne
        obtain ⟨t, ht, hk, hoff, hlt'⟩ := (hok.2 _ hf).resolve_left hne
        dsimp only at hk hoff
        have := h.below t ht; have := h.used_le
        rw [← hoff, toPropObj_of_le (by omega)]
        obtain ⟨⟨l, b⟩, hl⟩ := Option.isSome_iff_exists.1 (ih t.off ⟨t, ht, hk, rfl⟩ (by omega))
        exact ⟨l, by rw [hl]; rfl⟩
      · exact ⟨[], rfl⟩
    obtain ⟨l₁, h₁⟩ := hvisit _ left_mem_linkFields
    obtain ⟨l₂, h₂⟩ := hvisit _ children_mem_linkFields
    obtain ⟨l₃, h₃⟩ := hvisit _ right_mem_linkFields
    simp only [PropArea.foreachProperty, Option.bind_eq_bind, h₁, h₂, h₃, Option.some_bind]
    split
    · split <;> rfl
    · rfl

end Arena

end PropArea

end SysProps
