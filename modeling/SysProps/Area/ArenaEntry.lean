import SysProps.Area.ArenaWalk

/-!
# `add` keeps the arena invariant

Once `traverse_trie` has found or built the node of the last segment,
`find_property` allocates the entry (and, for a value of `PROP_VALUE_MAX`
bytes or more, a blob after it), fills it in, and publishes it with one store
into the node's `prop` link.

**What is proved.** `Arena.newPropInfo`: a `new_prop_info` that does not
fault appends an entry, and a blob when the value is long, each well formed,
and changes no link word. `Arena.add`: an `add` that does not fault keeps the
invariant over the objects there were and those it handed out.
-/

namespace SysProps

namespace PropArea

/-! ## Constructing an entry -/

section Construct

variable {pa pa' : PropArea} {p : Nat} {name value : Bytes} {namelen valuelen : Nat}

/-- What the short constructor of `prop_info` writes, inside the entry: the
name and its NUL, the serial `valuelen << 24`, and the value and its NUL in
the value buffer. -/
theorem constructShort_spec (h : pa.constructShort p name namelen value valuelen = some pa')
    (hv : valuelen < propValueMax) :
    pa'.bytesUsed = pa.bytesUsed ∧ (∀ i, i < p ∨ p + infoName + namelen + 1 ≤ i → pa'.data i = pa.data i) ∧
      pa'.data (p + infoName + namelen) = 0 ∧ pa'.load (p + infoSerial) = shortSerial valuelen % 2 ^ 32 ∧
      (∀ i < valuelen, pa'.data (p + infoValue + i) = value.getD i 0) ∧ pa'.data (p + infoValue + valuelen) = 0 ∧
      ∀ i < namelen, pa'.data (p + infoName + i) = name.getD i 0 := by
  simp only [constructShort, store, copy, storeByte, Option.bind_eq_bind] at h
  obtain ⟨pa₁, h₁, h⟩ := Option.bind_eq_some.1 h
  obtain ⟨pa₂, h₂, h⟩ := Option.bind_eq_some.1 h
  obtain ⟨pa₃, h₃, h⟩ := Option.bind_eq_some.1 h
  obtain ⟨pa₄, h₄, h₅⟩ := Option.bind_eq_some.1 h
  obtain ⟨-, rfl⟩ := fill_eq_some h₁
  obtain ⟨-, rfl⟩ := fill_eq_some h₂
  obtain ⟨-, rfl⟩ := fill_eq_some h₃
  obtain ⟨-, rfl⟩ := fill_eq_some h₄
  obtain ⟨-, rfl⟩ := fill_eq_some h₅
  refine ⟨rfl, fun i hi => ?_, ?_, ?_, fun i hi => ?_, ?_, fun i hi => ?_⟩ <;>
    simp only [infoName, infoSerial, infoValue, sizeofPropInfo, propValueMax] at *
  · rw [Mem.fill_apply_of_not_mem _ (by omega), Mem.fill_apply_of_not_mem _ (by omega),
      Mem.fill_apply_of_not_mem _ (by omega), Mem.fill_apply_of_not_mem _ (by omega),
      Mem.fill_apply_of_not_mem _ (by omega)]
  · rw [Mem.fill_apply_of_not_mem _ (by omega), Mem.fill_apply_of_not_mem _ (by omega),
      Mem.fill_apply_of_not_mem _ (by omega), Mem.fill_apply_of_mem _ (by omega) (by omega)]
  · simp only [load]
    rw [Mem.loadU32_fill_of_disjoint _ (by omega), Mem.loadU32_fill_of_disjoint _ (by omega)]
    exact Mem.loadU32_storeU32 _ _ _
  · rw [Mem.fill_apply_of_not_mem _ (by omega), Mem.fill_apply_of_mem _ (by omega) (by omega),
      Nat.add_sub_cancel_left]
  · rw [Mem.fill_apply_of_mem _ (by omega) (by omega)]
  · rw [Mem.fill_apply_of_not_mem _ (by omega), Mem.fill_apply_of_not_mem _ (by omega),
      Mem.fill_apply_of_not_mem _ (by omega), Mem.fill_apply_of_not_mem _ (by omega),
      Mem.fill_apply_of_mem _ (by omega) (by omega), Nat.add_sub_cancel_left]

/-- What the long constructor of `prop_info` writes, inside the entry: the
name and its NUL, the serial with `kLongFlag`, `kLongLegacyError` and its NUL
in the value buffer, and the offset of the value. -/
theorem constructLong_spec {longOffset : Nat} (h : pa.constructLong p name namelen longOffset = some pa') :
    pa'.bytesUsed = pa.bytesUsed ∧ (∀ i, i < p ∨ p + infoName + namelen + 1 ≤ i → pa'.data i = pa.data i) ∧
      pa'.data (p + infoName + namelen) = 0 ∧ pa'.load (p + infoSerial) = longSerial % 2 ^ 32 ∧
      pa'.load (p + infoLongOffset) = longOffset % 2 ^ 32 ∧
      pa'.data.read (p + infoValue) (kLongLegacyError.length + 1) = kLongLegacyError ++ [0] ∧
      ∀ i < namelen, pa'.data (p + infoName + i) = name.getD i 0 := by
  simp only [constructLong, store, copy, storeByte, Option.bind_eq_bind] at h
  obtain ⟨pa₁, h₁, h⟩ := Option.bind_eq_some.1 h
  obtain ⟨pa₂, h₂, h⟩ := Option.bind_eq_some.1 h
  obtain ⟨pa₃, h₃, h⟩ := Option.bind_eq_some.1 h
  obtain ⟨pa₄, h₄, h₅⟩ := Option.bind_eq_some.1 h
  obtain ⟨-, rfl⟩ := fill_eq_some h₁
  obtain ⟨-, rfl⟩ := fill_eq_some h₂
  obtain ⟨-, rfl⟩ := fill_eq_some h₃
  obtain ⟨-, rfl⟩ := fill_eq_some h₄
  obtain ⟨-, rfl⟩ := fill_eq_some h₅
  refine ⟨rfl, fun i hi => ?_, ?_, ?_, ?_, ?_, fun i hi => ?_⟩ <;>
    simp only [infoName, infoSerial, infoValue, infoLongOffset, kLongLegacyErrorBufferSize, sizeofPropInfo,
      propValueMax, kLongLegacyError_length] at *
  · rw [Mem.fill_apply_of_not_mem _ (by omega), Mem.fill_apply_of_not_mem _ (by omega),
      Mem.fill_apply_of_not_mem _ (by omega), Mem.fill_apply_of_not_mem _ (by omega),
      Mem.fill_apply_of_not_mem _ (by omega)]
  · rw [Mem.fill_apply_of_not_mem _ (by omega), Mem.fill_apply_of_not_mem _ (by omega),
      Mem.fill_apply_of_not_mem _ (by omega), Mem.fill_apply_of_mem _ (by omega) (by omega)]
  · simp only [load]
    rw [Mem.loadU32_fill_of_disjoint _ (by omega), Mem.loadU32_fill_of_disjoint _ (by omega)]
    exact Mem.loadU32_storeU32 _ _ _
  · exact Mem.loadU32_storeU32 _ _ _
  · rw [Mem.read_fill_of_disjoint _ (by omega), Mem.read_fill_self]; rfl
  · rw [Mem.fill_apply_of_not_mem _ (by omega), Mem.fill_apply_of_not_mem _ (by omega),
      Mem.fill_apply_of_not_mem _ (by omega), Mem.fill_apply_of_not_mem _ (by omega),
      Mem.fill_apply_of_mem _ (by omega) (by omega), Nat.add_sub_cancel_left]

end Construct

/-! ## New entries -/

section Entry

variable {pa pa' : PropArea} {objs : List Obj} {name value : Bytes} {namelen valuelen : Nat} {r : Ptr}

/-- **`new_prop_info`**, when it does not fault, appends an entry (and a blob
after it for a long value), each well formed, or appends nothing the caller
can reach; no link word changes, and the answer is `nullptr` or the new
entry. -/
theorem Arena.newPropInfo (h : Arena pa objs) (hres : pa.newPropInfo name namelen value valuelen = some (pa', r)) :
    ∃ objs', Extends pa objs pa' objs' ∧ slots objs' = slots objs ∧ (∀ s ∈ slots objs, pa'.load s = pa.load s) ∧
      ∀ e, r = some e → ∃ x ∈ objs', x.kind = .entry ∧ x.off = e ∧ pa.bytesUsed ≤ e := by
  unfold PropArea.newPropInfo allocateObj at hres
  by_cases hfit : pa.bytesUsed + align4 (sizeofPropInfo + namelen + 1) > paDataSize
  · rw [if_pos hfit] at hres
    obtain ⟨rfl, rfl⟩ := Prod.mk.inj (Option.some.inj hres)
    exact ⟨objs, .refl h, rfl, fun _ _ => rfl, fun _ he => by cases he⟩
  rw [if_neg hfit] at hres
  simp only at hres
  have hA : sizeofPropInfo + namelen + 1 ≤ align4 (sizeofPropInfo + namelen + 1) := by unfold align4; omega
  have h₁ := h.alloc .entry (sizeofPropInfo + namelen + 1) (by simp only [Kind.minSize]; omega) (by omega)
  generalize align4 (sizeofPropInfo + namelen + 1) = A at *
  have he : (⟨pa.bytesUsed, A, .entry⟩ : Obj) ∈ objs ++ [⟨pa.bytesUsed, A, .entry⟩] :=
    List.mem_append_right _ (List.mem_singleton_self _)
  have hslots₁ : slots (objs ++ [⟨pa.bytesUsed, A, .entry⟩]) = slots objs :=
    slots_append_singleton _ Kind.entry_ne_node
  have hext₁ : Extends pa objs _ (objs ++ [⟨pa.bytesUsed, A, .entry⟩]) :=
    ⟨h₁, _, rfl, tiles_singleton rfl rfl⟩
  simp only [sizeofPropInfo, propValueMax] at hA
  split at hres
  · -- A long value: its blob goes after the entry.
    rename_i hlong
    by_cases hfit₂ : pa.bytesUsed + A + align4 ((valuelen + 1) % 2 ^ 32) > paDataSize
    · rw [if_pos hfit₂] at hres
      obtain ⟨rfl, rfl⟩ := Prod.mk.inj (Option.some.inj hres)
      exact ⟨_, hext₁, hslots₁, fun _ _ => rfl, fun _ he => by cases he⟩
    rw [if_neg hfit₂] at hres
    simp only [Option.bind_eq_bind] at hres
    obtain ⟨pa₃, h₃, hres⟩ := Option.bind_eq_some.1 hres
    obtain ⟨pa₄, h₄, hres⟩ := Option.bind_eq_some.1 hres
    obtain ⟨pa₅, h₅, hres⟩ := Option.bind_eq_some.1 hres
    obtain ⟨rfl, rfl⟩ := Prod.mk.inj (Option.some.inj hres)
    obtain ⟨-, hpa₃⟩ := fill_eq_some h₃
    obtain ⟨hb₄, hpa₄⟩ := fill_eq_some h₄
    have hwrap : (valuelen + 1) % 2 ^ 32 = valuelen + 1 :=
      Nat.mod_eq_of_lt (by simp only [paDataSize, paSize, sizeofPropArea] at hb₄; omega)
    rw [hwrap] at hfit₂ hpa₃
    have hB : valuelen + 1 ≤ align4 (valuelen + 1) := by unfold align4; omega
    have h₂ := h₁.alloc .blob (valuelen + 1) (by simp only [Kind.minSize]; omega) (by simp only; omega)
    simp only at h₂
    generalize align4 (valuelen + 1) = B at *
    have hb : (⟨pa.bytesUsed + A, B, .blob⟩ : Obj) ∈ objs ++ [⟨pa.bytesUsed, A, .entry⟩] ++ [⟨pa.bytesUsed + A, B, .blob⟩] :=
      List.mem_append_right _ (List.mem_singleton_self _)
    have hused₄ : pa₄.bytesUsed = pa.bytesUsed + A + B := by rw [hpa₄, hpa₃]
    have hout₄ : ∀ i, i < pa.bytesUsed + A ∨ pa.bytesUsed + A + B ≤ i → pa₄.data i = pa.data i := fun i hi => by
      rw [hpa₄, hpa₃]
      simp (disch := omega) only [Mem.fill_apply_of_not_mem]
    have hnul₄ : pa₄.data (pa.bytesUsed + A + valuelen) = 0 := by
      rw [hpa₄]; simp (disch := omega) only [Mem.fill_apply_of_mem]
    have h₄ := h₂.writeData hb Kind.blob_ne_node hused₄ hout₄ ⟨valuelen, by simp only; omega, hnul₄⟩
    obtain ⟨hused₅, hout₅, hnul₅, hser₅, hoff₅, -⟩ := constructLong_spec h₅
    simp only [infoName, sizeofPropInfo, propValueMax] at hout₅ hnul₅
    have hlt : pa.bytesUsed + A - pa.bytesUsed < 2 ^ 32 := by
      simp only [paDataSize, paSize, sizeofPropArea] at hfit₂; omega
    have h₅ := h₄.writeData (List.mem_append_left _ he) Kind.entry_ne_node hused₅
      (fun i hi => hout₅ i (by simp only at hi; omega))
      ⟨⟨namelen, by simp only [infoName, sizeofPropInfo, propValueMax]; omega, hnul₅⟩, fun _ => ⟨_, hb, rfl, by
        simp only; rw [hoff₅, Nat.mod_eq_of_lt hlt]; omega, by simp only; omega⟩⟩
    refine ⟨_, ⟨h₅, [_, _], List.append_assoc _ _ _, tiles_cons.2 ⟨rfl, tiles_singleton rfl (by simp only at hused₅ ⊢; omega)⟩⟩, ?_, ?_,
      fun e he' => ⟨_, List.mem_append_left _ he, rfl, (Option.some.inj he').symm ▸ rfl, le_of_eq
        (Option.some.inj he')⟩⟩
    · rw [slots_append_singleton _ Kind.blob_ne_node, hslots₁]
    · intro s hs
      have hs' : s ∈ slots (objs ++ [⟨pa.bytesUsed, A, .entry⟩] ++ [⟨pa.bytesUsed + A, B, .blob⟩]) := by
        rw [slots_append, hslots₁]; exact List.mem_append_left _ hs
      rw [h₄.slots_of_write (List.mem_append_left _ he) Kind.entry_ne_node (fun i hi => hout₅ i (by simp only at hi; omega))
        s hs', h₂.slots_of_write hb Kind.blob_ne_node hout₄ s hs']
      rfl
  · -- A short value lives in the entry.
    rename_i hshort
    simp only [Option.bind_eq_bind] at hres
    obtain ⟨pa₂, h₂, hres⟩ := Option.bind_eq_some.1 hres
    obtain ⟨rfl, rfl⟩ := Prod.mk.inj (Option.some.inj hres)
    obtain ⟨hused, hout, hnul, hser, -⟩ := constructShort_spec h₂ (by omega)
    simp only [infoName, sizeofPropInfo, propValueMax] at hout hnul
    have hout' : ∀ i, i < pa.bytesUsed ∨ pa.bytesUsed + A ≤ i → pa₂.data i = pa.data i :=
      fun i hi => hout i (by omega)
    have h₂ := h₁.writeData he Kind.entry_ne_node hused hout'
      ⟨⟨namelen, by simp only [infoName, sizeofPropInfo, propValueMax]; omega, hnul⟩, fun hl => by rw [hser, isLong_shortSerial] at hl; cases hl⟩
    refine ⟨_, ⟨h₂, _, rfl, tiles_singleton rfl (by simp only at hused ⊢; omega)⟩, hslots₁, fun s hs => ?_,
      fun e he' => ⟨_, he, rfl, (Option.some.inj he').symm ▸ rfl, le_of_eq (Option.some.inj he')⟩⟩
    exact h₁.slots_of_write he Kind.entry_ne_node hout' s (by rw [hslots₁]; exact hs)

/-- **`find_property` from `root_node()`**, when it does not fault, keeps the
invariant over the objects there were and those it handed out. -/
theorem Arena.findProperty {alloc : Bool} (h : Arena pa objs)
    (hres : pa.findProperty walkBound rootNode name namelen value valuelen alloc = some (pa', r)) :
    ∃ objs', Extends pa objs pa' objs' := by
  simp only [PropArea.findProperty, Option.bind_eq_bind] at hres
  obtain ⟨⟨pa₁, c⟩, h₁, hres⟩ := Option.bind_eq_some.1 hres
  obtain ⟨pa₁', objs₁, c', htr, hext₁, hc, -⟩ := h.traverseTrie name alloc
  rw [htr] at h₁
  obtain ⟨rfl, rfl⟩ := Prod.mk.inj (Option.some.inj h₁)
  rcases c' with _ | cur
  · obtain ⟨rfl, -⟩ := Prod.mk.inj (Option.some.inj hres)
    exact ⟨objs₁, hext₁⟩
  obtain ⟨x, hx, hxk, rfl⟩ := hc _ rfl
  simp only at hres
  split at hres
  · obtain ⟨rfl, -⟩ := Prod.mk.inj (Option.some.inj hres)
    exact ⟨objs₁, hext₁⟩
  split at hres
  · obtain ⟨⟨pa₂, p⟩, h₂, hres⟩ := Option.bind_eq_some.1 hres
    obtain ⟨objs₂, hext₂, hslots, hloads, hentry⟩ := hext₁.arena.newPropInfo h₂
    rcases p with _ | e
    · obtain ⟨rfl, -⟩ := Prod.mk.inj (Option.some.inj hres)
      exact ⟨objs₂, hext₁.trans hext₂⟩
    obtain ⟨pa₃, h₃, hres⟩ := Option.bind_eq_some.1 hres
    obtain ⟨rfl, -⟩ := Prod.mk.inj (Option.some.inj hres)
    obtain ⟨-, rfl⟩ := fill_eq_some h₃
    obtain ⟨t, ht, htk, rfl, hle⟩ := hentry _ rfl
    have := hext₁.arena.below x hx
    have h₃ := hext₂.arena.storeLink (hext₂.mem hx) hxk prop_mem_linkFields ht htk
      (by have := hext₁.arena.size_ge x hx; have := x.kind.one_le_minSize; omega) fun s hs => by
        rw [hslots] at hs
        rw [hloads s hs]
        exact (Nat.lt_of_lt_of_le (hext₁.arena.load_lt_used (Or.inl hs)) hle).ne
    exact ⟨objs₂, hext₁.trans (hext₂.trans (.of_write h₃ rfl))⟩
  · obtain ⟨rfl, -⟩ := Prod.mk.inj (Option.some.inj hres)
    exact ⟨objs₁, hext₁⟩

/-- **`add` keeps the arena**, when it does not fault. -/
theorem Arena.add {b : Bool} (h : Arena pa objs) (hres : pa.add name namelen value valuelen = some (pa', b)) :
    ∃ objs', Extends pa objs pa' objs' := by
  obtain ⟨⟨pa'', r⟩, hf, heq⟩ := Option.map_eq_some'.1 hres
  obtain ⟨rfl, -⟩ := Prod.mk.inj heq
  exact h.findProperty hf

end Entry

end PropArea

end SysProps
