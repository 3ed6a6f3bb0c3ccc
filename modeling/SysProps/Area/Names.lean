import SysProps.Area.Walk

/-!
# The names a trie holds

A name is looked up one segment at a time: the first segment in the tree of
the root's children, each later one in the tree of the children of the node
the one before found. So the tree of one segment holds, for each of its
nodes, the name of one segment, the node's entry under that name, and the
names its children's tree holds, one segment longer (`PTrie.names`).

`PTrie.Wf` is what `add` keeps of such a tree: each node's name is a segment
(not empty, no NUL, no `'.'`), the names of one segment's tree are in
`cmp_prop_name` order, left below right, and the children's trees are so too.

**What is proved.** On a tree with `Wf`, the lookup of a name with no NUL
answers an entry exactly when the tree holds the name with that entry
(`lookup_eq_some_iff`); so every entry `foreach` hands over is what `find`
answers for one name, the segments of the chain of nodes to it joined by
`'.'` (`lookup_complete`), and two names answered the same entry are one.
-/

namespace SysProps

/-! ## Names and their segments -/

/-- Joining segments with `'.'`. -/
def joinSegments : List Bytes → Bytes
  | [] => []
  | [x] => x
  | x :: y :: q => x ++ dot :: joinSegments (y :: q)

theorem segments_ne_nil : ∀ name : Bytes, segments name ≠ []
  | [] => nofun
  | c :: cs => by
    simp only [segments]
    split
    · exact List.cons_ne_nil _ _
    · split <;> exact List.cons_ne_nil _ _

/-- A run with no `'.'` joins the first segment of what follows. -/
theorem segments_append {x : Bytes} (hx : dot ∉ x) {r : Bytes} {s : Bytes} {ss : List Bytes}
    (hr : segments r = s :: ss) : segments (x ++ r) = (x ++ s) :: ss := by
  induction x with
  | nil => exact hr
  | cons c x ih =>
    have hc : c ≠ dot := fun h => hx (h ▸ List.mem_cons_self _ _)
    rw [List.cons_append, segments, if_neg hc, ih fun h => hx (List.mem_cons_of_mem _ h)]
    rfl

/-- **Splitting undoes joining**, for segments with no `'.'`. -/
theorem segments_joinSegments : ∀ {q : List Bytes}, q ≠ [] → (∀ x ∈ q, dot ∉ x) → segments (joinSegments q) = q
  | [x], _, hq => by
    simpa [joinSegments] using segments_append (hq x (List.mem_singleton_self x)) (r := []) rfl
  | x :: y :: q, _, hq => by
    have hrest : segments (joinSegments (y :: q)) = y :: q :=
      segments_joinSegments (List.cons_ne_nil _ _) fun z hz => hq z (List.mem_cons_of_mem _ hz)
    have hdot : segments (dot :: joinSegments (y :: q)) = [] :: y :: q := by
      rw [segments, if_pos rfl, hrest]
    simpa [joinSegments] using segments_append (hq x (List.mem_cons_self _ _)) hdot

/-- **Joining undoes splitting.** -/
theorem joinSegments_segments : ∀ name : Bytes, joinSegments (segments name) = name
  | [] => rfl
  | c :: cs => by
    have ih := joinSegments_segments cs
    obtain ⟨s, ss, hs⟩ : ∃ s ss, segments cs = s :: ss := List.exists_cons_of_ne_nil (segments_ne_nil cs)
    rw [hs] at ih
    rw [segments]
    split
    · rename_i hc
      rw [hs, hc]
      cases ss <;> simp_all [joinSegments]
    · rw [hs]
      cases ss <;> simp_all [joinSegments]

theorem not_mem_joinSegments {a : UInt8} (ha : a ≠ dot) :
    ∀ {q : List Bytes}, (∀ x ∈ q, a ∉ x) → a ∉ joinSegments q
  | [], _ => nofun
  | [x], hq => by simpa [joinSegments] using hq x (List.mem_singleton_self x)
  | x :: y :: q, hq => by
    have hrest := not_mem_joinSegments ha (q := y :: q) fun z hz => hq z (List.mem_cons_of_mem _ hz)
    simp only [joinSegments, List.mem_append, List.mem_cons, not_or]
    exact ⟨hq x (List.mem_cons_self _ _), ha, hrest⟩

/-- A byte of a segment is a byte of the name. -/
theorem mem_of_mem_segments {a : UInt8} : ∀ {name : Bytes} {x : Bytes}, x ∈ segments name → a ∈ x → a ∈ name
  | [], x, hx, ha => by
    simp only [segments, List.mem_singleton] at hx; subst hx; exact ha
  | c :: cs, x, hx, ha => by
    simp only [segments] at hx
    split at hx
    · rcases List.mem_cons.1 hx with rfl | hx
      · cases ha
      · exact List.mem_cons_of_mem _ (mem_of_mem_segments hx ha)
    · split at hx
      · rename_i s ss hs
        rcases List.mem_cons.1 hx with rfl | hx
        · rcases List.mem_cons.1 ha with rfl | ha
          · exact List.mem_cons_self _ _
          · exact List.mem_cons_of_mem _ (mem_of_mem_segments (hs ▸ List.mem_cons_self s ss) ha)
        · exact List.mem_cons_of_mem _ (mem_of_mem_segments (hs ▸ List.mem_cons_of_mem s hx) ha)
      · simp only [List.mem_singleton] at hx; subst hx
        simp only [List.mem_singleton] at ha; subst ha
        exact List.mem_cons_self _ _

namespace PropArea

namespace PTrie

/-! ## Trees of names -/

/-- The names of one segment's tree: each node's, left subtree first. -/
def keys : PTrie → List Bytes
  | nil => []
  | node _ k _ l _ r => l.keys ++ k :: r.keys

/-- The name of one segment: not empty, no NUL, no `'.'`. -/
def KeyOk (k : Bytes) : Prop := k ≠ [] ∧ 0 ∉ k ∧ dot ∉ k

instance (k : Bytes) : Decidable (KeyOk k) := inferInstanceAs (Decidable (_ ∧ _ ∧ _))

/-- What `add` keeps of one segment's tree: each node's name is a segment,
the names left of a node are below its name and those right of it above,
and the trees of children are so too. -/
def Wf : PTrie → Prop
  | nil => True
  | node _ k _ l c r =>
    KeyOk k ∧ (∀ x ∈ l.keys, keyCmp x k = .lt) ∧ (∀ x ∈ r.keys, keyCmp k x = .lt) ∧ l.Wf ∧ c.Wf ∧ r.Wf

/-- The names one segment's tree holds, each as its segments, with its entry,
in the order `foreach_property` visits the entries. -/
def names : PTrie → List (List Bytes × Nat)
  | nil => []
  | node _ k p l c r =>
    l.names ++ ((if p = 0 then [] else [([k], p)]) ++ ((c.names.map fun x => (k :: x.1, x.2)) ++ r.names))

/-- The entries of the names are the entries `foreach_property` visits. -/
theorem names_map_snd : ∀ t : PTrie, t.names.map Prod.snd = t.entries
  | nil => rfl
  | node _ k p l c r => by
    have hown : (if p = 0 then [] else [([k], p)]).map Prod.snd = if p = 0 then [] else [p] := by split <;> rfl
    simp only [names, entries, List.map_append, List.map_map, Function.comp_def, names_map_snd, hown]

theorem Wf.keyOk : ∀ {t : PTrie}, t.Wf → ∀ x ∈ t.keys, KeyOk x
  | nil, _, _, hx => nomatch hx
  | node _ k _ l _ r, ⟨hk, _, _, hl, _, hr⟩, x, hx => by
    rcases List.mem_append.1 hx with hx | hx
    · exact hl.keyOk x hx
    · rcases List.mem_cons.1 hx with rfl | hx
      · exact hk
      · exact hr.keyOk x hx

/-- A name the tree holds starts with a name of its nodes, and all its
segments are names of nodes. -/
theorem mem_names {q : List Bytes} {e : Nat} : ∀ {t : PTrie}, t.Wf → (q, e) ∈ t.names →
    e ≠ 0 ∧ (∃ x rest, q = x :: rest ∧ x ∈ t.keys) ∧ ∀ x ∈ q, KeyOk x
  | nil, _, h => nomatch h
  | node _ k p l c r, hw, h => by
    obtain ⟨hk, -, -, hl, hc, hr⟩ := hw
    simp only [names, List.mem_append] at h
    rcases h with h | h | h | h
    · obtain ⟨he, ⟨x, rest, rfl, hx⟩, hq⟩ := mem_names hl h
      exact ⟨he, ⟨x, rest, rfl, by simp [keys, hx]⟩, hq⟩
    · split at h
      · cases h
      · rename_i hp
        obtain ⟨rfl, rfl⟩ := Prod.mk.inj (List.mem_singleton.1 h)
        exact ⟨hp, ⟨k, [], rfl, by simp [keys]⟩, by simpa using hk⟩
    · obtain ⟨⟨q', e'⟩, h', he'⟩ := List.mem_map.1 h
      obtain ⟨rfl, rfl⟩ := Prod.mk.inj he'
      obtain ⟨he, -, hq⟩ := mem_names hc h'
      exact ⟨he, ⟨k, q', rfl, by simp [keys]⟩, by simpa [hk] using hq⟩
    · obtain ⟨he, ⟨x, rest, rfl, hx⟩, hq⟩ := mem_names hr h
      exact ⟨he, ⟨x, rest, rfl, by simp [keys, hx]⟩, hq⟩

/-- **The lookup in one segment's tree.** In a tree with `Wf`, seeking the
first segment of a name with no NUL and walking the rest answers an entry
exactly when the tree holds the name with that entry. -/
theorem walk_seek_iff {e : Nat} : ∀ {t : PTrie} {s : Bytes} {ss : List Bytes}, t.Wf → 0 ∉ s → (∀ x ∈ ss, 0 ∉ x) →
    (((t.seek s).walk ss).entry = some e ↔ (s :: ss, e) ∈ t.names)
  | nil, _, _, _, _, _ => by simp [seek, entry, names]
  | node o k p l c r, s, ss, hw, hs, hss => by
    obtain ⟨hk, hlk, hrk, hl, hc, hr⟩ := id hw
    have hkey := hw.keyOk
    -- a name of the left or right subtree starts with a segment other than `k`
    have hnot : ∀ {u : PTrie} {rest : List Bytes} {e' : Nat}, u.Wf → (∀ x ∈ u.keys, x ≠ s) →
        (s :: rest, e') ∉ u.names := fun hu hne h => by
      obtain ⟨-, ⟨x, rest', he, hx⟩, -⟩ := mem_names hu h
      obtain ⟨rfl, -⟩ := List.cons.inj he
      exact hne _ hx rfl
    simp only [seek, names, List.mem_append]
    cases hcmp : keyCmp s k with
    | eq =>
      obtain rfl := (keyCmp_eq_iff hs).1 hcmp
      have hl' : ∀ {rest : List Bytes} {e' : Nat}, (s :: rest, e') ∉ l.names :=
        hnot hl fun x hx he => by have := hlk x hx; rw [he, keyCmp_self] at this; cases this
      have hr' : ∀ {rest : List Bytes} {e' : Nat}, (s :: rest, e') ∉ r.names :=
        hnot hr fun x hx he => by have := hrk x hx; rw [he, keyCmp_self] at this; cases this
      simp only [hl', hr', false_or, or_false]
      cases ss with
      | nil =>
        have hc' : ([s], e) ∉ c.names.map fun x => (s :: x.1, x.2) := fun h => by
          obtain ⟨⟨q, e'⟩, h', he'⟩ := List.mem_map.1 h
          obtain ⟨-, ⟨x, rest, rfl, -⟩, -⟩ := mem_names hc h'
          cases he'
        by_cases hp : p = 0 <;> simp [walk, entry, hp, hc', eq_comm]
      | cons s' ss =>
        have hown : (s :: s' :: ss, e) ∉ (if p = 0 then [] else [([s], p)]) := by split <;> simp
        simp only [hown, false_or, walk, child]
        have hmap : (s :: s' :: ss, e) ∈ (c.names.map fun x => (s :: x.1, x.2)) ↔ (s' :: ss, e) ∈ c.names := by
          simp
        rw [hmap]
        by_cases h0 : s'.length = 0
        · rw [if_pos h0]
          simp only [nil_walk, entry, reduceCtorEq, false_iff]
          intro h
          obtain ⟨-, -, hq⟩ := mem_names hc h
          exact (hq s' (List.mem_cons_self _ _)).1 (List.length_eq_zero.1 h0)
        · rw [if_neg h0]
          exact walk_seek_iff hc (hss s' (List.mem_cons_self _ _)) fun x hx => hss x (List.mem_cons_of_mem _ hx)
    | lt =>
      have hks : ¬ (s :: ss, e) ∈ (if p = 0 then [] else [([k], p)]) := by
        split
        · simp
        · intro h
          obtain ⟨h₁, -⟩ := Prod.mk.inj (List.mem_singleton.1 h)
          obtain rfl := (List.cons.inj h₁).1
          simp at hcmp
      have hc' : (s :: ss, e) ∉ c.names.map fun x => (k :: x.1, x.2) := fun h => by
        obtain ⟨_, _, he'⟩ := List.mem_map.1 h
        obtain ⟨rfl, -⟩ := List.cons.inj (Prod.mk.inj he').1
        simp at hcmp
      have hr' : (s :: ss, e) ∉ r.names := hnot hr fun x hx he => by
        have := keyCmp_lt_trans hs hk.2.1 hcmp (hrk x hx)
        rw [he, keyCmp_self] at this; cases this
      simp only [hks, hc', hr', or_false]
      exact walk_seek_iff hl hs hss
    | gt =>
      have hks : ¬ (s :: ss, e) ∈ (if p = 0 then [] else [([k], p)]) := by
        split
        · simp
        · intro h
          obtain ⟨h₁, -⟩ := Prod.mk.inj (List.mem_singleton.1 h)
          obtain rfl := (List.cons.inj h₁).1
          simp at hcmp
      have hc' : (s :: ss, e) ∉ c.names.map fun x => (k :: x.1, x.2) := fun h => by
        obtain ⟨_, _, he'⟩ := List.mem_map.1 h
        obtain ⟨rfl, -⟩ := List.cons.inj (Prod.mk.inj he').1
        simp at hcmp
      have hks' : keyCmp k s = .lt := by rw [keyCmp_swap, hcmp]; rfl
      have hl' : (s :: ss, e) ∉ l.names := hnot hl fun x hx he => by
        have := keyCmp_lt_trans (hkey x (by simp [keys, hx])).2.1 hk.2.1 (hlk x hx) hks'
        rw [he, keyCmp_self] at this; cases this
      simp only [hks, hc', hl', false_or]
      exact walk_seek_iff hr hs hss

/-! ## The trie the root heads -/

/-- A trie the root of an area heads, as `add` and `remove` keep it: the root
has an empty name, no entry and no neighbours, and the tree of its children
has `Wf`. -/
def RootOk (t : PTrie) : Prop := ∃ c, t = node 0 [] 0 nil c nil ∧ c.Wf

/-- **`find` on a well-formed trie.** For a name with no NUL, the lookup
answers an entry exactly when the tree of the root's children holds the
name's segments with that entry. -/
theorem lookup_eq_some_iff {t : PTrie} (ht : RootOk t) {name : Bytes} (hn : 0 ∉ name) {e : Nat} :
    t.lookup name = some e ↔ (segments name, e) ∈ (t.child .children).names := by
  obtain ⟨c, rfl, hc⟩ := ht
  obtain ⟨s, ss, hs⟩ : ∃ s ss, segments name = s :: ss := List.exists_cons_of_ne_nil (segments_ne_nil name)
  have hseg : ∀ x ∈ segments name, 0 ∉ x := fun x hx h0 => hn (mem_of_mem_segments hx h0)
  rw [hs] at hseg
  simp only [lookup, hs, walk, child]
  split
  · rename_i h0
    simp only [nil_walk, entry, reduceCtorEq, false_iff]
    intro h
    exact (mem_names hc h).2.2 s (List.mem_cons_self _ _) |>.1 (List.length_eq_zero.1 h0)
  · exact walk_seek_iff hc (hseg s (List.mem_cons_self _ _)) fun x hx => hseg x (List.mem_cons_of_mem _ hx)

/-- The entries of a well-formed trie are those of the tree of the root's
children. -/
theorem names_map_snd_root {t : PTrie} (ht : RootOk t) : (t.child .children).names.map Prod.snd = t.entries := by
  obtain ⟨c, rfl, -⟩ := ht
  simp [child, names_map_snd, entries]

/-- **Every entry is found under a name**: the segments of its chain of
nodes, joined by `'.'`. -/
theorem lookup_complete {t : PTrie} (ht : RootOk t) {e : Nat} (he : e ∈ t.entries) :
    ∃ name, 0 ∉ name ∧ t.lookup name = some e := by
  rw [← names_map_snd_root ht] at he
  obtain ⟨⟨q, _⟩, hq, rfl⟩ := List.mem_map.1 he
  obtain ⟨c, rfl, hc⟩ := id ht
  obtain ⟨-, ⟨x, rest, rfl, -⟩, hok⟩ := mem_names hc hq
  have hsegs := segments_joinSegments (List.cons_ne_nil x rest) fun y hy => (hok y hy).2.2
  have hn : 0 ∉ joinSegments (x :: rest) := not_mem_joinSegments (by decide) fun y hy => (hok y hy).2.1
  exact ⟨_, hn, (lookup_eq_some_iff ht hn).2 (by rw [hsegs]; exact hq)⟩

/-- **One name per entry.** When no entry is listed twice, two names with no
NUL that the lookup answers the same entry are one name. -/
theorem lookup_injective {t : PTrie} (ht : RootOk t) (hnd : t.entries.Nodup) {n n' : Bytes} (hn : 0 ∉ n)
    (hn' : 0 ∉ n') {e : Nat} (h : t.lookup n = some e) (h' : t.lookup n' = some e) : n = n' := by
  rw [← names_map_snd_root ht] at hnd
  have := List.inj_on_of_nodup_map hnd ((lookup_eq_some_iff ht hn).1 h) ((lookup_eq_some_iff ht hn').1 h') rfl
  rw [← joinSegments_segments n, ← joinSegments_segments n', (Prod.mk.inj this).1]

/-- What the lookup answers is an entry of the trie. -/
theorem lookup_mem_entries {t : PTrie} (ht : RootOk t) {n : Bytes} (hn : 0 ∉ n) {e : Nat}
    (h : t.lookup n = some e) : e ∈ t.entries := by
  rw [← names_map_snd_root ht]
  exact List.mem_map.2 ⟨_, (lookup_eq_some_iff ht hn).1 h, rfl⟩

end PTrie

end PropArea

end SysProps
