import Mathlib.Data.List.Pairwise
import SysProps.Area.Trie

/-!
# The arena invariant

The data region of an area is carved by a bump allocator, and nothing is ever
freed: `remove` and `prune_trie` only zero bytes and clear links. This module
states what every area the writer can reach looks like, over a ghost list of
the objects handed out so far, in the order they were handed out:

* the objects lie one after another below `bytes_used_`, which is 4-aligned
  and within the data region, and everything past `bytes_used_` is zero;
* every link word of a node (`prop`, `left`, `right`, `children`) is 0 or
  the offset of a later object of the right kind, and no two link words hold
  the same nonzero offset;
* a node's name fits in its object, an entry's name ends inside it, and an
  entry that `is_long()` says is long holds the offset of a later blob.

The link conditions are local to one object's bytes (`ObjOk`), except the
uniqueness of links (`UniqueLinks`), so a write confined to one object keeps
every other object as it was (`Arena.write`).

**What is proved.** The primitive writes of `add` and `remove` keep the
invariant: allocating (`Arena.alloc`), constructing inside the newest object
(`Arena.write`), publishing a new object in a zero link (`Arena.storeLink`),
and clearing a link (`Arena.clearLink`).
-/

namespace SysProps

namespace PropArea

/-! ## Objects -/

/-- What an object handed out by `allocate_obj` holds. -/
inductive Kind where
  | node
  | entry
  | blob
  | other
deriving DecidableEq, Repr

/-- The fewest bytes an object of each kind takes: a node's fields, an
entry's fields and the NUL of its name, one byte otherwise. -/
def Kind.minSize : Kind → Nat
  | .node => sizeofPropBt
  | .entry => sizeofPropInfo + 1
  | .blob => 1
  | .other => 1

/-- An object: its offset, the bytes reserved for it, and its kind. -/
structure Obj where
  off : Nat
  size : Nat
  kind : Kind
deriving DecidableEq, Repr

theorem Kind.one_le_minSize (k : Kind) : 1 ≤ k.minSize := by cases k <;> decide

/-- The root node and the dirty backup buffer, which every area starts with. -/
def initObjs : List Obj := [⟨0, sizeofPropBt, .node⟩, ⟨sizeofPropBt, align4 propValueMax, .other⟩]

/-- The link words of a node, and the kind of object each points to. -/
def linkFields : List (Nat × Kind) :=
  [(btProp, .entry), (btLeft, .node), (btRight, .node), (btChildren, .node)]

/-! ## The invariant -/

/-- The word at `o + f` is 0 or the offset of a later object of kind `k`. -/
def LinkOk (pa : PropArea) (objs : List Obj) (o f : Nat) (k : Kind) : Prop :=
  pa.load (o + f) = 0 ∨ ∃ t ∈ objs, t.kind = k ∧ t.off = pa.load (o + f) ∧ o < t.off

/-- A node: its name fits in its object, and its links are well formed. -/
def NodeOk (pa : PropArea) (objs : List Obj) (x : Obj) : Prop :=
  sizeofPropBt + pa.load (x.off + btNamelen) ≤ x.size ∧ ∀ fk ∈ linkFields, LinkOk pa objs x.off fk.1 fk.2

/-- An entry: its name ends inside its object, and when `is_long()` holds its
long offset leads to a later blob. -/
def EntryOk (pa : PropArea) (objs : List Obj) (x : Obj) : Prop :=
  (∃ k, infoName + k < x.size ∧ pa.data (x.off + infoName + k) = 0) ∧
    (isLong (pa.load (x.off + infoSerial)) = true →
      ∃ b ∈ objs, b.kind = .blob ∧ b.off = x.off + pa.load (x.off + infoLongOffset) ∧ x.off < b.off)

/-- A blob holds a NUL. -/
def BlobOk (pa : PropArea) (x : Obj) : Prop := ∃ k < x.size, pa.data (x.off + k) = 0

/-- An object is well formed for its kind. -/
def ObjOk (pa : PropArea) (objs : List Obj) (x : Obj) : Prop :=
  match x.kind with
  | .node => NodeOk pa objs x
  | .entry => EntryOk pa objs x
  | .blob => BlobOk pa x
  | .other => True

/-- The offsets of the link words of every node. -/
def slots (objs : List Obj) : List Nat :=
  objs.flatMap fun x => if x.kind = .node then linkFields.map (x.off + ·.1) else []

/-- No two link words hold the same nonzero offset. -/
def UniqueLinks (pa : PropArea) (objs : List Obj) : Prop :=
  ∀ s ∈ slots objs, ∀ s' ∈ slots objs, pa.load s = pa.load s' → pa.load s ≠ 0 → s = s'

/-- **The arena invariant** of an area and the objects handed out in it. -/
structure Arena (pa : PropArea) (objs : List Obj) : Prop where
  used_le : pa.bytesUsed ≤ paDataSize
  used_dvd : pa.bytesUsed % 4 = 0
  sorted : objs.Pairwise fun a b => a.off + a.size ≤ b.off
  below : ∀ x ∈ objs, x.off + x.size ≤ pa.bytesUsed
  size_ge : ∀ x ∈ objs, x.kind.minSize ≤ x.size
  root : ⟨0, sizeofPropBt, .node⟩ ∈ objs
  zero_above : ∀ i, pa.bytesUsed ≤ i → pa.data i = 0
  ok : ∀ x ∈ objs, ObjOk pa objs x
  unique : UniqueLinks pa objs

/-! ## Reading the invariant -/

theorem mem_slots {objs : List Obj} {s : Nat} :
    s ∈ slots objs ↔ ∃ x ∈ objs, x.kind = .node ∧ ∃ fk ∈ linkFields, s = x.off + fk.1 := by
  simp only [slots, List.mem_flatMap]
  constructor
  · rintro ⟨x, hx, hs⟩
    split at hs
    · obtain ⟨fk, hfk, rfl⟩ := List.mem_map.1 hs
      exact ⟨x, hx, ‹_›, fk, hfk, rfl⟩
    · cases hs
  · rintro ⟨x, hx, hk, fk, hfk, rfl⟩
    exact ⟨x, hx, by simp only [hk, if_true]; exact List.mem_map.2 ⟨fk, hfk, rfl⟩⟩

theorem linkFields_lt {fk : Nat × Kind} (h : fk ∈ linkFields) : fk.1 + 4 ≤ sizeofPropBt := by
  simp only [linkFields, List.mem_cons, List.mem_singleton, List.not_mem_nil, or_false] at h
  rcases h with rfl | rfl | rfl | rfl <;> decide

theorem linkFields_ge {fk : Nat × Kind} (h : fk ∈ linkFields) : 4 ≤ fk.1 := by
  simp only [linkFields, List.mem_cons, List.mem_singleton, List.not_mem_nil, or_false] at h
  rcases h with rfl | rfl | rfl | rfl <;> decide

theorem prop_mem_linkFields : (btProp, Kind.entry) ∈ linkFields := by decide
theorem left_mem_linkFields : (btLeft, Kind.node) ∈ linkFields := by decide
theorem right_mem_linkFields : (btRight, Kind.node) ∈ linkFields := by decide
theorem children_mem_linkFields : (btChildren, Kind.node) ∈ linkFields := by decide

theorem slots_append (objs new : List Obj) : slots (objs ++ new) = slots objs ++ slots new :=
  List.flatMap_append _ _ _

/-- Objects that are not nodes hold no link words. -/
theorem slots_append_of_not_node (objs : List Obj) {new : List Obj} (h : ∀ x ∈ new, x.kind ≠ .node) :
    slots (objs ++ new) = slots objs := by
  rw [slots_append, List.append_right_eq_self, List.eq_nil_iff_forall_not_mem]
  intro s hs
  obtain ⟨x, hx, hk, -⟩ := mem_slots.1 hs
  exact h x hx hk

theorem slots_append_singleton (objs : List Obj) {x : Obj} (hx : x.kind ≠ .node) : slots (objs ++ [x]) = slots objs :=
  slots_append_of_not_node objs fun _ hy => List.mem_singleton.1 hy ▸ hx

theorem Kind.entry_ne_node : Kind.entry ≠ .node := nofun

theorem Kind.blob_ne_node : Kind.blob ≠ .node := nofun

/-- Two link words of one node do not overlap. -/
theorem linkFields_disjoint {fk fk' : Nat × Kind} (h : fk ∈ linkFields) (h' : fk' ∈ linkFields)
    (hne : fk.1 ≠ fk'.1) : fk.1 + 4 ≤ fk'.1 ∨ fk'.1 + 4 ≤ fk.1 := by
  simp only [linkFields, List.mem_cons, List.mem_singleton, List.not_mem_nil, or_false] at h h'
  rcases h with rfl | rfl | rfl | rfl <;> rcases h' with rfl | rfl | rfl | rfl <;> simp_all [btProp, btLeft,
    btRight, btChildren]

/-- A word of zero bytes. -/
theorem load_eq_zero {pa : PropArea} {o : Nat} (h : ∀ i, o ≤ i → i < o + 4 → pa.data i = 0) : pa.load o = 0 := by
  simp only [load, Mem.loadU32]
  rw [h o (by omega) (by omega), h (o + 1) (by omega) (by omega), h (o + 2) (by omega) (by omega),
    h (o + 3) (by omega) (by omega)]
  rfl

theorem isLong_zero : isLong 0 = false := by decide

section Arena

variable {pa pa' : PropArea} {objs : List Obj}

/-- Two objects of the list do not overlap. -/
theorem Arena.disjoint (h : Arena pa objs) {x y : Obj} (hx : x ∈ objs) (hy : y ∈ objs) (hne : x ≠ y) :
    x.off + x.size ≤ y.off ∨ y.off + y.size ≤ x.off :=
  List.Pairwise.forall (R := fun a b : Obj => a.off + a.size ≤ b.off ∨ b.off + b.size ≤ a.off)
    (fun _ _ h => h.symm) (h.sorted.imp Or.inl) hx hy hne

/-- Two objects of the list with one offset are one object. -/
theorem Arena.eq_of_off (h : Arena pa objs) {x y : Obj} (hx : x ∈ objs) (hy : y ∈ objs)
    (hoff : x.off = y.off) : x = y := by
  by_contra hne
  have := h.size_ge x hx; have := h.size_ge y hy
  have := x.kind.one_le_minSize; have := y.kind.one_le_minSize
  rcases h.disjoint hx hy hne with h' | h' <;> omega

/-- Two link words of the nodes of the list do not overlap. -/
theorem Arena.slots_disjoint (h : Arena pa objs) {s s' : Nat} (hs : s ∈ slots objs) (hs' : s' ∈ slots objs)
    (hne : s ≠ s') : s + 4 ≤ s' ∨ s' + 4 ≤ s := by
  obtain ⟨y, hy, hyk, fk, hfk, rfl⟩ := mem_slots.1 hs
  obtain ⟨y', hy', hyk', fk', hfk', rfl⟩ := mem_slots.1 hs'
  have := linkFields_lt hfk; have := linkFields_lt hfk'
  by_cases hyy : y = y'
  · subst hyy
    rcases linkFields_disjoint hfk hfk' (by omega) with h' | h' <;> omega
  · have := h.size_ge y hy; have := h.size_ge y' hy'
    rw [hyk] at *; rw [hyk'] at *
    rcases h.disjoint hy hy' hyy with h' | h' <;> simp only [Kind.minSize] at * <;> omega

/-- Every link word, and every word past `bytes_used_`, reads below
`bytes_used_`. -/
theorem Arena.load_lt_used (h : Arena pa objs) {s : Nat} (hs : s ∈ slots objs ∨ pa.bytesUsed ≤ s) :
    pa.load s < pa.bytesUsed := by
  have hroot := h.below _ h.root
  simp only [sizeofPropBt] at hroot
  rcases hs with hs | hs
  · obtain ⟨y, hy, hyk, fk, hfk, rfl⟩ := mem_slots.1 hs
    have hok := h.ok y hy
    unfold ObjOk at hok; rw [hyk] at hok
    rcases hok.2 fk hfk with h0 | ⟨t, ht, -, hoff, -⟩
    · rw [h0]; omega
    · have := h.below t ht; have := h.size_ge t ht; have := t.kind.one_le_minSize
      omega
  · rw [load_eq_zero fun i h₁ _ => h.zero_above i (by omega)]; omega

/-! ## Writes that keep the invariant -/

theorem linkOk_mono {objs' : List Obj} {o f : Nat} {k : Kind} (h : LinkOk pa objs o f k)
    (hsub : ∀ t ∈ objs, t ∈ objs') : LinkOk pa objs' o f k :=
  h.imp_right fun ⟨t, ht, hk, hoff, hlt⟩ => ⟨t, hsub t ht, hk, hoff, hlt⟩

/-- More objects keep an object well formed. -/
theorem objOk_mono {objs' : List Obj} {x : Obj} (h : ObjOk pa objs x) (hsub : ∀ t ∈ objs, t ∈ objs') :
    ObjOk pa objs' x := by
  unfold ObjOk at h ⊢
  split at h
  · exact ⟨h.1, fun fk hfk => linkOk_mono (h.2 fk hfk) hsub⟩
  · exact ⟨h.1, fun hl => (h.2 hl).imp fun b ⟨hb, hbk⟩ => ⟨hsub b hb, hbk⟩⟩
  · exact h
  · trivial

/-- Whether an object is well formed reads only its own bytes. -/
theorem objOk_of_agree {x : Obj} (hs : x.kind.minSize ≤ x.size)
    (hag : ∀ i, x.off ≤ i → i < x.off + x.size → pa'.data i = pa.data i) (h : ObjOk pa objs x) :
    ObjOk pa' objs x := by
  have hload : ∀ f, f + 4 ≤ x.size → pa'.load (x.off + f) = pa.load (x.off + f) := fun f hf =>
    Mem.loadU32_congr fun i h₁ h₂ => hag i (by omega) (by omega)
  unfold ObjOk at h ⊢
  split at h
  · rename_i hk
    rw [hk] at hs
    unfold NodeOk LinkOk at h ⊢
    rw [hload btNamelen (by simp only [Kind.minSize, sizeofPropBt, btNamelen] at hs ⊢; omega)]
    refine ⟨h.1, fun fk hfk => ?_⟩
    rw [hload fk.1 (by have := linkFields_lt hfk; simp only [Kind.minSize] at hs; omega)]
    exact h.2 fk hfk
  · rename_i hk
    rw [hk] at hs
    simp only [Kind.minSize, sizeofPropInfo, propValueMax] at hs
    obtain ⟨⟨k, hk, hz⟩, hl⟩ := h
    refine ⟨⟨k, hk, by rw [hag _ (by omega) (by simp only [infoName, sizeofPropInfo, propValueMax] at hk ⊢; omega)]; exact hz⟩, ?_⟩
    rw [hload infoSerial (by simp only [infoSerial]; omega), hload infoLongOffset (by
      simp only [infoLongOffset, infoValue, kLongLegacyErrorBufferSize]; omega)]
    exact hl
  · obtain ⟨k, hk, hz⟩ := h
    exact ⟨k, hk, by rw [hag _ (by omega) (by omega)]; exact hz⟩
  · trivial

/-- Links stay unique when each link word reads as before or 0. -/
theorem uniqueLinks_of_agree_or_zero (h : UniqueLinks pa objs)
    (hag : ∀ s ∈ slots objs, pa'.load s = pa.load s ∨ pa'.load s = 0) : UniqueLinks pa' objs := by
  intro s hs s' hs' heq hne
  have hs₁ : pa'.load s = pa.load s := (hag s hs).resolve_right hne
  have hs₁' : pa'.load s' = pa.load s' := (hag s' hs').resolve_right (heq ▸ hne)
  exact h s hs s' hs' (hs₁ ▸ hs₁' ▸ heq) (hs₁ ▸ hne)

/-- Links read the same when their words do. -/
theorem uniqueLinks_of_agree (h : UniqueLinks pa objs) (hag : ∀ s ∈ slots objs, pa'.load s = pa.load s) :
    UniqueLinks pa' objs :=
  uniqueLinks_of_agree_or_zero h fun s hs => Or.inl (hag s hs)

/-- **A write confined to one object** that leaves it well formed and the
links unique keeps the arena. -/
theorem Arena.write (h : Arena pa objs) {x : Obj} (hx : x ∈ objs) (hused : pa'.bytesUsed = pa.bytesUsed)
    (hout : ∀ i, i < x.off ∨ x.off + x.size ≤ i → pa'.data i = pa.data i)
    (hok : ObjOk pa' objs x) (huniq : UniqueLinks pa' objs) : Arena pa' objs where
  used_le := hused ▸ h.used_le
  used_dvd := hused ▸ h.used_dvd
  sorted := h.sorted
  below y hy := hused ▸ h.below y hy
  size_ge := h.size_ge
  root := h.root
  zero_above i hi := by
    have := h.below x hx
    rw [hout i (Or.inr (by omega))]; exact h.zero_above i (by omega)
  ok y hy := by
    by_cases hxy : y = x
    · exact hxy ▸ hok
    · exact objOk_of_agree (h.size_ge y hy)
        (fun i h₁ h₂ => hout i (by rcases h.disjoint hy hx hxy with h' | h' <;> omega)) (h.ok y hy)
  unique := huniq

/-- A write confined to an object that is not a node leaves every link word
as it was. -/
theorem Arena.slots_of_write (h : Arena pa objs) {x : Obj} (hx : x ∈ objs) (hnode : x.kind ≠ .node)
    (hout : ∀ i, i < x.off ∨ x.off + x.size ≤ i → pa'.data i = pa.data i) :
    ∀ s ∈ slots objs, pa'.load s = pa.load s := by
  intro s hs
  obtain ⟨y, hy, hyk, fk, hfk, rfl⟩ := mem_slots.1 hs
  have hyx : y ≠ x := fun hyx => hnode (hyx ▸ hyk)
  have hsz := h.size_ge y hy; rw [hyk] at hsz
  have := linkFields_lt hfk
  exact Mem.loadU32_congr fun i _ _ => hout i (by
    rcases h.disjoint hy hx hyx with h' | h' <;> simp only [Kind.minSize] at hsz <;> omega)

/-- **A write confined to an entry, a blob or the backup buffer** that leaves
it well formed keeps the arena. -/
theorem Arena.writeData (h : Arena pa objs) {x : Obj} (hx : x ∈ objs) (hnode : x.kind ≠ .node)
    (hused : pa'.bytesUsed = pa.bytesUsed) (hout : ∀ i, i < x.off ∨ x.off + x.size ≤ i → pa'.data i = pa.data i)
    (hok : ObjOk pa' objs x) : Arena pa' objs :=
  h.write hx hused hout hok (uniqueLinks_of_agree h.unique (h.slots_of_write hx hnode hout))

/-- **`allocate_obj`** hands out the zero bytes past `bytes_used_` as a new
object, of any kind they are enough for. -/
theorem Arena.alloc (h : Arena pa objs) (k : Kind) (size : Nat) (hsz : k.minSize ≤ align4 size)
    (hfit : pa.bytesUsed + align4 size ≤ paDataSize) :
    Arena { pa with bytesUsed := pa.bytesUsed + align4 size } (objs ++ [⟨pa.bytesUsed, align4 size, k⟩]) := by
  have hsub : ∀ t ∈ objs, t ∈ objs ++ [⟨pa.bytesUsed, align4 size, k⟩] := fun t ht => List.mem_append_left _ ht
  have hzero : ∀ f, pa.load (pa.bytesUsed + f) = 0 := fun f =>
    load_eq_zero fun i h₁ _ => h.zero_above i (by omega)
  have hnew : ObjOk { pa with bytesUsed := pa.bytesUsed + align4 size } (objs ++ [⟨pa.bytesUsed, align4 size, k⟩])
      ⟨pa.bytesUsed, align4 size, k⟩ := by
    unfold ObjOk
    dsimp only
    cases k with
    | node => exact ⟨by simp only [load] at hzero ⊢; rw [hzero]; exact hsz, fun fk _ => Or.inl (hzero _)⟩
    | entry =>
      refine ⟨⟨0, show infoName + 0 < align4 size by simp only [Kind.minSize] at hsz; simp only [infoName]; omega,
        h.zero_above (pa.bytesUsed + infoName + 0) (by omega)⟩, fun hl => ?_⟩
      simp only [load] at hzero hl; rw [hzero, isLong_zero] at hl; cases hl
    | blob => exact ⟨0, show 0 < align4 size by simp only [Kind.minSize] at hsz; omega,
        h.zero_above (pa.bytesUsed + 0) (by omega)⟩
    | other => trivial
  refine ⟨hfit, ?_, ?_, ?_, ?_, hsub _ h.root, fun i hi => h.zero_above i (by simp only at hi; omega), ?_, ?_⟩
  · have := h.used_dvd; simp only [align4]; omega
  · exact List.pairwise_append.2 ⟨h.sorted, List.pairwise_singleton _ _, fun a ha b hb => by
      rw [List.mem_singleton] at hb; subst hb; exact h.below a ha⟩
  · intro x hx
    rcases List.mem_append.1 hx with hx | hx
    · have := h.below x hx; simp only; omega
    · rw [List.mem_singleton] at hx; subst hx; simp only; omega
  · intro x hx
    rcases List.mem_append.1 hx with hx | hx
    · exact h.size_ge x hx
    · rw [List.mem_singleton] at hx; subst hx; exact hsz
  · intro x hx
    rcases List.mem_append.1 hx with hx | hx
    · exact objOk_mono (objOk_of_agree (h.size_ge x hx) (fun _ _ _ => rfl) (h.ok x hx)) hsub
    · rw [List.mem_singleton] at hx; subst hx; exact hnew
  · have hnewslot : ∀ s ∈ slots [⟨pa.bytesUsed, align4 size, k⟩], pa.load s = 0 := fun s hs => by
      obtain ⟨y, hy, -, fk, -, rfl⟩ := mem_slots.1 hs
      rw [List.mem_singleton] at hy; subst hy; exact hzero _
    intro s hs s' hs' heq hne
    simp only [slots, List.flatMap_append] at hs hs'
    change pa.load s = pa.load s' at heq
    change pa.load s ≠ 0 at hne
    rcases List.mem_append.1 hs with hs | hs
    · rcases List.mem_append.1 hs' with hs' | hs'
      · exact h.unique s hs s' hs' heq hne
      · exact absurd (heq.trans (hnewslot s' hs')) hne
    · exact absurd (hnewslot s hs) hne

/-- **Publishing** a later object in a link word that held 0, when no link
points to it yet. -/
theorem Arena.storeLink (h : Arena pa objs) {x t : Obj} {fk : Nat × Kind} (hx : x ∈ objs)
    (hnode : x.kind = .node) (hfk : fk ∈ linkFields) (ht : t ∈ objs) (hkind : t.kind = fk.2)
    (hlt : x.off < t.off) (hfree : ∀ s ∈ slots objs, pa.load s ≠ t.off) :
    Arena { pa with data := pa.data.storeU32 (x.off + fk.1) t.off } objs := by
  have hs₀ : x.off + fk.1 ∈ slots objs := mem_slots.2 ⟨x, hx, hnode, fk, hfk, rfl⟩
  have hlo := linkFields_ge hfk
  have hhi := linkFields_lt hfk
  have hsize : sizeofPropBt ≤ x.size := by have := h.size_ge x hx; rwa [hnode] at this
  have htlt : t.off < 2 ^ 32 := by
    have := h.below t ht; have := h.used_le; simp only [paDataSize, paSize, sizeofPropArea] at *; omega
  have hnew : ({ pa with data := pa.data.storeU32 (x.off + fk.1) t.off } : PropArea).load (x.off + fk.1) = t.off := by
    simp only [load, Mem.loadU32_storeU32, Nat.mod_eq_of_lt htlt]
  have hother : ∀ s, s + 4 ≤ x.off + fk.1 ∨ x.off + fk.1 + 4 ≤ s →
      ({ pa with data := pa.data.storeU32 (x.off + fk.1) t.off } : PropArea).load s = pa.load s :=
    fun s hs => Mem.loadU32_fill_of_disjoint _ hs
  refine h.write hx rfl (fun i hi => Mem.storeU32_apply_of_not_mem (by simp only [sizeofPropBt] at *; omega)) ?_ ?_
  · unfold ObjOk; rw [hnode]
    have hok := h.ok x hx
    unfold ObjOk at hok; rw [hnode] at hok
    refine ⟨by rw [hother _ (by simp only [btNamelen]; omega)]; exact hok.1, fun fk' hfk' => ?_⟩
    by_cases hff : fk'.1 = fk.1
    · have : fk' = fk := by
        simp only [linkFields, List.mem_cons, List.mem_singleton, List.not_mem_nil, or_false] at hfk hfk'
        rcases hfk with rfl | rfl | rfl | rfl <;> rcases hfk' with rfl | rfl | rfl | rfl <;> simp_all [btProp,
          btLeft, btRight, btChildren]
      subst this
      exact Or.inr ⟨t, ht, hkind, hnew.symm, hlt⟩
    · unfold LinkOk
      rw [hother _ (by rcases linkFields_disjoint hfk' hfk hff with h' | h' <;> omega)]
      exact hok.2 fk' hfk'
  · intro s hs s' hs' heq hne
    by_cases h₁ : s = x.off + fk.1 <;> by_cases h₂ : s' = x.off + fk.1
    · rw [h₁, h₂]
    · subst h₁
      rw [hnew, hother s' (h.slots_disjoint hs' hs₀ h₂)] at heq
      exact absurd heq.symm (hfree s' hs')
    · subst h₂
      rw [hnew, hother s (h.slots_disjoint hs hs₀ h₁)] at heq
      exact absurd heq (hfree s hs)
    · rw [hother s (h.slots_disjoint hs hs₀ h₁), hother s' (h.slots_disjoint hs' hs₀ h₂)] at heq
      rw [hother s (h.slots_disjoint hs hs₀ h₁)] at hne
      exact h.unique s hs s' hs' heq hne

/-- **Clearing** a link word. -/
theorem Arena.clearLink (h : Arena pa objs) {x : Obj} {fk : Nat × Kind} (hx : x ∈ objs)
    (hnode : x.kind = .node) (hfk : fk ∈ linkFields) :
    Arena { pa with data := pa.data.storeU32 (x.off + fk.1) 0 } objs := by
  have hs₀ : x.off + fk.1 ∈ slots objs := mem_slots.2 ⟨x, hx, hnode, fk, hfk, rfl⟩
  have hlo := linkFields_ge hfk
  have hhi := linkFields_lt hfk
  have hsize : sizeofPropBt ≤ x.size := by have := h.size_ge x hx; rwa [hnode] at this
  have hnew : ({ pa with data := pa.data.storeU32 (x.off + fk.1) 0 } : PropArea).load (x.off + fk.1) = 0 := by
    simp only [load, Mem.loadU32_storeU32, Nat.zero_mod]
  have hother : ∀ s, s + 4 ≤ x.off + fk.1 ∨ x.off + fk.1 + 4 ≤ s →
      ({ pa with data := pa.data.storeU32 (x.off + fk.1) 0 } : PropArea).load s = pa.load s :=
    fun s hs => Mem.loadU32_fill_of_disjoint _ hs
  refine h.write hx rfl (fun i hi => Mem.storeU32_apply_of_not_mem (by simp only [sizeofPropBt] at *; omega)) ?_ ?_
  · unfold ObjOk; rw [hnode]
    have hok := h.ok x hx
    unfold ObjOk at hok; rw [hnode] at hok
    refine ⟨by rw [hother _ (by simp only [btNamelen]; omega)]; exact hok.1, fun fk' hfk' => ?_⟩
    unfold LinkOk
    by_cases hff : fk'.1 = fk.1
    · rw [hff, hnew]; exact Or.inl rfl
    · rw [hother _ (by rcases linkFields_disjoint hfk' hfk hff with h' | h' <;> omega)]
      exact hok.2 fk' hfk'
  · intro s hs s' hs' heq hne
    by_cases h₁ : s = x.off + fk.1
    · subst h₁; exact absurd hnew hne
    by_cases h₂ : s' = x.off + fk.1
    · subst h₂; rw [hnew] at heq; exact absurd heq hne
    rw [hother s (h.slots_disjoint hs hs₀ h₁), hother s' (h.slots_disjoint hs' hs₀ h₂)] at heq
    rw [hother s (h.slots_disjoint hs hs₀ h₁)] at hne
    exact h.unique s hs s' hs' heq hne

/-! ## Growing the object list -/

/-- `Tiles o new o'`: the objects `new` lie end to end from offset `o` to
`o'`, which is how successive calls of `allocate_obj` hand them out: each at
the `bytes_used_` the one before left. -/
def Tiles : Nat → List Obj → Nat → Prop
  | o, [], o' => o = o'
  | o, x :: new, o' => x.off = o ∧ Tiles (o + x.size) new o'

instance Tiles.decidable : ∀ o new o', Decidable (Tiles o new o')
  | o, [], o' => inferInstanceAs (Decidable (o = o'))
  | o, x :: new, o' =>
    have := Tiles.decidable (o + x.size) new o'
    inferInstanceAs (Decidable (x.off = o ∧ _))

@[simp] theorem tiles_nil {o o' : Nat} : Tiles o [] o' ↔ o = o' := Iff.rfl

@[simp] theorem tiles_cons {o o' : Nat} {x : Obj} {new : List Obj} :
    Tiles o (x :: new) o' ↔ x.off = o ∧ Tiles (o + x.size) new o' := Iff.rfl

theorem tiles_singleton {o o' : Nat} {x : Obj} (hx : x.off = o) (hsz : o + x.size = o') : Tiles o [x] o' :=
  ⟨hx, hsz⟩

theorem Tiles.append {o m o' : Nat} {xs ys : List Obj} (h₁ : Tiles o xs m) (h₂ : Tiles m ys o') :
    Tiles o (xs ++ ys) o' := by
  induction xs generalizing o with
  | nil => exact (show o = m from h₁) ▸ h₂
  | cons x xs ih => exact ⟨h₁.1, ih h₁.2⟩

/-- Objects laid end to end lie between their two ends. -/
theorem Tiles.bounds {o o' : Nat} {new : List Obj} (h : Tiles o new o') :
    o ≤ o' ∧ ∀ x ∈ new, o ≤ x.off ∧ x.off + x.size ≤ o' := by
  induction new generalizing o with
  | nil => exact ⟨le_of_eq h, fun _ hx => absurd hx (List.not_mem_nil _)⟩
  | cons x new ih =>
    obtain ⟨hx, h⟩ := h
    obtain ⟨hle, hnew⟩ := ih h
    refine ⟨by omega, fun y hy => ?_⟩
    rcases List.mem_cons.1 hy with rfl | hy
    · omega
    · have := hnew y hy; omega

/-- `pa'` has the invariant over the objects `objs` of `pa` and the ones
handed out since, which lie end to end from `pa`'s `bytes_used_` to
`pa'`'s. -/
structure Extends (pa : PropArea) (objs : List Obj) (pa' : PropArea) (objs' : List Obj) : Prop where
  arena : Arena pa' objs'
  added : ∃ new, objs' = objs ++ new ∧ Tiles pa.bytesUsed new pa'.bytesUsed

theorem Extends.used_le_used {objs' : List Obj} (h : Extends pa objs pa' objs') : pa.bytesUsed ≤ pa'.bytesUsed :=
  let ⟨_, _, ht⟩ := h.added; ht.bounds.1

theorem Extends.refl (h : Arena pa objs) : Extends pa objs pa objs :=
  ⟨h, [], (List.append_nil _).symm, rfl⟩

theorem Extends.trans {pa₁ : PropArea} {objs₁ objs' : List Obj} (h₁ : Extends pa objs pa₁ objs₁)
    (h₂ : Extends pa₁ objs₁ pa' objs') : Extends pa objs pa' objs' := by
  obtain ⟨-, new₁, rfl, ht₁⟩ := h₁
  obtain ⟨ha, new₂, rfl, ht₂⟩ := h₂
  exact ⟨ha, new₁ ++ new₂, List.append_assoc _ _ _, ht₁.append ht₂⟩

/-- Objects handed out keep the ones there were. -/
theorem Extends.mem {objs' : List Obj} (h : Extends pa objs pa' objs') {x : Obj} (hx : x ∈ objs) : x ∈ objs' := by
  obtain ⟨new, rfl, -⟩ := h.added
  exact List.mem_append_left _ hx

/-- The same area over the same objects, written only inside them. -/
theorem Extends.of_write {objs : List Obj} (h : Arena pa' objs) (hused : pa'.bytesUsed = pa.bytesUsed) :
    Extends pa objs pa' objs :=
  ⟨h, [], (List.append_nil _).symm, hused.symm⟩

end Arena

/-- A node of the object list starts at `p`. -/
def NodeAt (objs : List Obj) (p : Nat) : Prop := ∃ y ∈ objs, y.kind = .node ∧ y.off = p

theorem NodeAt.mono {objs objs' : List Obj} {p : Nat} (h : NodeAt objs p) (hsub : ∀ x ∈ objs, x ∈ objs') :
    NodeAt objs' p :=
  let ⟨y, hy, hk, ho⟩ := h; ⟨y, hsub y hy, hk, ho⟩

end PropArea

end SysProps
