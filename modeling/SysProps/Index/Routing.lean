import Mathlib.Data.List.Infix
import Mathlib.Data.List.Pairwise
import SysProps.Index.Lookup

/-!
# Routing by the binary index is most-specific match

A well-formed index is read as a set of entries: the root's context as the
prefix `""`; a node at the path `a.b` carrying a context as the prefix
`a.b.`; a prefix entry `p` of that node as the prefix `a.b.p`; an exact-match
entry `x` of it as the exact name `a.b.x` (`HasPrefix`, `HasExact`). Routing
a name should answer the context of the exact entry equal to it, else that of
a longest prefix entry it starts with, else `~0u` (`MostSpecific`).

**What is proved.** `getPropAreaForName_most_specific`: for every
well-formed index and every name, `GetPropertyInfoIndexes` answers that
context, and `GetPropAreaForName` selects the area of its context node, or
none for `~0u`.

The proof leans on one step (`walk_mostSpecific`, by induction on the
walk): from any node, with any context found so far, the walk and what
follows it answer the most specific entry below that node, or the context
found so far when there is none. A node's own entries (its context and its
prefix entries, `OwnPrefix`) are all shorter than the node prefix of a child
the name goes on to, and the only child the name can match is the one the
binary search finds (`findChildForString_some`, `findChildForString_none`).

**What it does not establish.** Well-formedness is assumed, not checked:
the file is not parsed from bytes, and `LoadPath` checks only its size and
version. Reading "sorted" as strictly sorted matters: with two children of
one name, the binary search may pick the one without the entry.
-/

namespace SysProps

namespace Index

/-! ## Well-formed indexes -/

/-- A name as the index stores it: the bytes of a C string, with no `'.'`. -/
def IsSegment (s : Bytes) : Prop := 0 ∉ s ∧ dot ∉ s

instance : DecidablePred IsSegment := fun s => inferInstanceAs (Decidable (0 ∉ s ∧ dot ∉ s))

/-- What a well-formed index asks of each node: names that are segments;
at most `2^30` children, as their `uint32_t` offsets fit in an area that
`uint32_t` offsets address; children and exact matches sorted by `strcmp`
of their names; prefix entries
longest first, each `namelen` its name's length; every prefix and exact
entry carrying a context, and every context an index into the contexts. -/
structure NodeOk (numContexts : Nat) (n : TrieNode) : Prop where
  name_segment : IsSegment n.name
  context_lt : n.contextIndex = noIndex ∨ n.contextIndex < numContexts
  children_le : n.childNodes.length ≤ 2 ^ 30
  children_sorted : n.childNodes.Pairwise fun a b => strcmp a.name b.name = .lt
  prefixes_sorted : n.prefixes.Pairwise fun p q => q.namelen ≤ p.namelen
  exacts_sorted : n.exactMatches.Pairwise fun x y => strcmp x.name y.name = .lt
  entries_ok : ∀ p ∈ n.prefixes ++ n.exactMatches,
    IsSegment p.name ∧ p.contextIndex ≠ noIndex ∧ p.contextIndex < numContexts
  namelen_eq : ∀ p ∈ n.prefixes, p.namelen = p.name.length

instance (numContexts : Nat) (n : TrieNode) : Decidable (NodeOk numContexts n) :=
  decidable_of_iff (IsSegment n.name ∧ (n.contextIndex = noIndex ∨ n.contextIndex < numContexts) ∧
      n.childNodes.length ≤ 2 ^ 30 ∧ (n.childNodes.Pairwise fun a b => strcmp a.name b.name = .lt) ∧
      (n.prefixes.Pairwise fun p q => q.namelen ≤ p.namelen) ∧
      (n.exactMatches.Pairwise fun x y => strcmp x.name y.name = .lt) ∧
      (∀ p ∈ n.prefixes ++ n.exactMatches,
        IsSegment p.name ∧ p.contextIndex ≠ noIndex ∧ p.contextIndex < numContexts) ∧
      ∀ p ∈ n.prefixes, p.namelen = p.name.length)
    ⟨fun ⟨a, b, c, d, e, f, g, h⟩ => ⟨a, b, c, d, e, f, g, h⟩, fun ⟨a, b, c, d, e, f, g, h⟩ => ⟨a, b, c, d, e, f, g, h⟩⟩

/-- A well-formed index: every node is. -/
inductive WellFormed (numContexts : Nat) : TrieNode → Prop
  | mk {n : TrieNode} : NodeOk numContexts n → (∀ ch ∈ n.childNodes, WellFormed numContexts ch) →
      WellFormed numContexts n

section WellFormed

variable {k : Nat} {n ch : TrieNode}

theorem WellFormed.nodeOk (h : WellFormed k n) : NodeOk k n := by cases h; assumption

theorem WellFormed.child (h : WellFormed k n) (hch : ch ∈ n.childNodes) : WellFormed k ch := by
  cases h with | mk _ hc => exact hc ch hch

theorem NodeOk.prefix_ok (h : NodeOk k n) {p : PropertyEntry} (hp : p ∈ n.prefixes) :
    IsSegment p.name ∧ p.contextIndex ≠ noIndex ∧ p.contextIndex < k :=
  h.entries_ok p (List.mem_append_left _ hp)

theorem NodeOk.exact_ok (h : NodeOk k n) {x : PropertyEntry} (hx : x ∈ n.exactMatches) :
    IsSegment x.name ∧ x.contextIndex ≠ noIndex ∧ x.contextIndex < k :=
  h.entries_ok x (List.mem_append_right _ hx)

/-- In a list sorted strictly by `strcmp` of names, a name names one element. -/
theorem eq_of_name_eq {α : Type} {name : α → Bytes} {l : List α}
    (hs : l.Pairwise fun a b => strcmp (name a) (name b) = .lt) {a b : α} (ha : a ∈ l) (hb : b ∈ l)
    (h : name a = name b) : a = b := by
  have hne : l.Pairwise fun a b => name a ≠ name b :=
    hs.imp fun hlt e => by rw [e, strcmp_self] at hlt; cases hlt
  by_contra hab
  exact hne.forall (fun _ _ => Ne.symm) ha hb hab h

end WellFormed

/-! ## The entries an index is read as -/

/-- The prefix entries an index is read as, from the node it is read at:
the node's context as `""`, each of its prefix entries `p` as `p`, and those
of a child `b` behind `b.`. -/
inductive HasPrefix : TrieNode → Bytes → Nat → Prop
  | context {n : TrieNode} : n.contextIndex ≠ noIndex → HasPrefix n [] n.contextIndex
  | entry {n : TrieNode} {p : PropertyEntry} : p ∈ n.prefixes → HasPrefix n p.name p.contextIndex
  | child {n ch : TrieNode} {s : Bytes} {c : Nat} : ch ∈ n.childNodes → HasPrefix ch s c →
      HasPrefix n (ch.name ++ dot :: s) c

/-- The exact entries an index is read as: each exact-match entry `x` of
the node as `x`, and those of a child `b` behind `b.`. -/
inductive HasExact : TrieNode → Bytes → Nat → Prop
  | entry {n : TrieNode} {x : PropertyEntry} : x ∈ n.exactMatches → HasExact n x.name x.contextIndex
  | child {n ch : TrieNode} {s : Bytes} {c : Nat} : ch ∈ n.childNodes → HasExact ch s c →
      HasExact n (ch.name ++ dot :: s) c

/-- `c` is the context of a longest entry of `P` that
`name` starts with, or `dflt` when `name` starts with none. -/
def Longest (P : Bytes → Nat → Prop) (name : Bytes) (dflt c : Nat) : Prop :=
  (∃ s, P s c ∧ s <+: name ∧ ∀ s' c', P s' c' → s' <+: name → s'.length ≤ s.length) ∨
    ((∀ s c', P s c' → ¬s <+: name) ∧ c = dflt)

/-- Most-specific match: `c` is the context of the
exact entry equal to `name` if there is one, else that of a longest prefix
entry `name` starts with, else `dflt`. -/
def MostSpecific (n : TrieNode) (name : Bytes) (dflt c : Nat) : Prop :=
  (∀ c', HasExact n name c' → c = c') ∧ ((∀ c', ¬HasExact n name c') → Longest (HasPrefix n) name dflt c)

/-- A node's own prefix entries: its context as `""`, and its prefix entries. -/
def OwnPrefix (n : TrieNode) (s : Bytes) (c : Nat) : Prop :=
  (s = [] ∧ n.contextIndex ≠ noIndex ∧ c = n.contextIndex) ∨ ∃ p ∈ n.prefixes, s = p.name ∧ c = p.contextIndex

theorem OwnPrefix.hasPrefix {n : TrieNode} {s : Bytes} {c : Nat} : OwnPrefix n s c → HasPrefix n s c
  | .inl ⟨hs, hc, hcs⟩ => hs ▸ hcs ▸ .context hc
  | .inr ⟨_, hp, hs, hcs⟩ => hs ▸ hcs ▸ .entry hp

/-- An entry of a node is its own, or a child's behind the child's name. -/
theorem hasPrefix_cases {n : TrieNode} {s : Bytes} {c : Nat} (h : HasPrefix n s c) :
    OwnPrefix n s c ∨ ∃ ch ∈ n.childNodes, ∃ s', s = ch.name ++ dot :: s' ∧ HasPrefix ch s' c := by
  cases h with
  | context hc => exact .inl (.inl ⟨rfl, hc, rfl⟩)
  | entry hp => exact .inl (.inr ⟨_, hp, rfl, rfl⟩)
  | child hch hs => exact .inr ⟨_, hch, _, rfl, hs⟩

/-- Two predicates that agree on the entries a name starts with pick the same. -/
theorem Longest.congr {P Q : Bytes → Nat → Prop} {r : Bytes} {d c : Nat}
    (hPQ : ∀ s c', s <+: r → (P s c' ↔ Q s c')) (h : Longest P r d c) : Longest Q r d c := by
  rcases h with ⟨s, hs, hpre, hmax⟩ | ⟨hnone, rfl⟩
  · exact .inl ⟨s, (hPQ s c hpre).1 hs, hpre, fun s' c' hq hp => hmax s' c' ((hPQ s' c' hp).2 hq) hp⟩
  · exact .inr ⟨fun s c' hq hp => hnone s c' ((hPQ s c' hp).2 hq) hp, rfl⟩

/-! ## Names split at a dot -/

theorem append_dot_inj {s t : Bytes} : ∀ {a b : Bytes}, dot ∉ a → dot ∉ b →
    a ++ dot :: s = b ++ dot :: t → a = b ∧ s = t
  | [], [], _, _, h => ⟨rfl, (List.cons.inj h).2⟩
  | [], y :: _, _, hb, h => absurd ((List.cons.inj h).1 ▸ List.mem_cons_self _ _) hb
  | x :: _, [], ha, _, h => absurd ((List.cons.inj h).1 ▸ List.mem_cons_self _ _) ha
  | x :: _, y :: _, ha, hb, h => by
    obtain ⟨rfl, h'⟩ := List.cons.inj h
    obtain ⟨rfl, rfl⟩ := append_dot_inj (List.not_mem_of_not_mem_cons ha) (List.not_mem_of_not_mem_cons hb) h'
    exact ⟨rfl, rfl⟩

/-- A child's entry `b.s` starts a name `seg.rest` only behind the child named `seg`. -/
theorem append_dot_prefix_inv {a b s t : Bytes} (ha : dot ∉ a) (hb : dot ∉ b)
    (h : a ++ dot :: s <+: b ++ dot :: t) : a = b ∧ s <+: t := by
  obtain ⟨u, hu⟩ := h
  obtain ⟨rfl, rfl⟩ := append_dot_inj ha hb (by simpa only [List.append_assoc, List.cons_append] using hu)
  exact ⟨rfl, List.prefix_append _ _⟩

/-- A prefix with no `'.'` of `seg.rest` is no longer than `seg`. -/
theorem length_le_of_prefix_dot {p seg rest : Bytes} (hp : dot ∉ p) (h : p <+: seg ++ dot :: rest) :
    p.length ≤ seg.length := by
  have hseg : seg ++ [dot] <+: seg ++ dot :: rest := ⟨rest, by simp⟩
  rcases List.prefix_or_prefix_of_prefix h hseg with h' | h'
  · rcases List.prefix_concat_iff.mp h' with rfl | h'
    · exact absurd (by simp) hp
    · exact h'.length_le
  · exact absurd (h'.subset (by simp)) hp

theorem not_prefix_of_dot_not_mem {a s r : Bytes} (hr : dot ∉ r) : ¬a ++ dot :: s <+: r :=
  fun h => hr (h.subset (by simp))

/-! ## The code's steps against the entries -/

section Steps

variable {k : Nat} {n : TrieNode}

/-- `CheckPrefixMatch` over entries longest first sets the context of a
longest one the name starts with, or leaves the context it was given. -/
theorem checkPrefixMatch_longest {r : Bytes} : ∀ {ps : List PropertyEntry} {c t : Nat},
    (ps.Pairwise fun p q => q.namelen ≤ p.namelen) →
    (∀ p ∈ ps, 0 ∉ p.name ∧ p.contextIndex ≠ noIndex ∧ p.namelen = p.name.length) →
    Longest (fun s c' => ∃ p ∈ ps, s = p.name ∧ c' = p.contextIndex) r c (checkPrefixMatch r ps c t).1
  | [], _, _, _, _ => .inr ⟨fun _ _ ⟨_, hp, _⟩ => absurd hp (List.not_mem_nil _), rfl⟩
  | p :: ps, c, t, hsort, hok => by
    obtain ⟨hp0, hpc, hpl⟩ := hok p (List.mem_cons_self _ _)
    have ih := checkPrefixMatch_longest (r := r) (c := c) (t := t) hsort.of_cons
      fun q hq => hok q (List.mem_cons_of_mem _ hq)
    have skip : ¬p.name <+: r →
        Longest (fun s c' => ∃ q ∈ p :: ps, s = q.name ∧ c' = q.contextIndex) r c (checkPrefixMatch r ps c t).1 :=
      fun hnp => ih.congr fun s c' hs => ⟨fun ⟨q, hq, h⟩ => ⟨q, List.mem_cons_of_mem _ hq, h⟩,
        fun ⟨q, hq, hsq, hcq⟩ => (List.mem_cons.mp hq).elim (fun e => absurd (e ▸ hsq ▸ hs) hnp)
          fun hq => ⟨q, hq, hsq, hcq⟩⟩
    simp only [checkPrefixMatch]
    by_cases hfit : p.namelen > r.length
    · exact (if_pos hfit).symm ▸ skip fun h => by have := h.length_le; omega
    · rw [if_neg hfit]
      have hm := cstrncmp_length_eq_iff (r := r) hp0 (by omega)
      rw [← hpl] at hm
      by_cases hpre : p.name <+: r
      · rw [if_pos (hm.2 hpre), if_pos hpc]
        refine .inl ⟨p.name, ⟨p, List.mem_cons_self _ _, rfl, rfl⟩, hpre, fun s' c' ⟨q, hq, hs', _⟩ _ => ?_⟩
        rcases List.mem_cons.mp hq with rfl | hq
        · exact hs' ▸ le_rfl
        · rw [hs', ← (hok q (List.mem_cons_of_mem _ hq)).2.2, ← hpl]
          exact List.rel_of_pairwise_cons hsort hq
      · rw [if_neg (mt hm.1 hpre)]
        exact skip hpre

/-- Trying the same prefix entries twice sets nothing new. -/
theorem checkPrefixMatch_idem {r : Bytes} : ∀ {ps : List PropertyEntry} {c t : Nat},
    (checkPrefixMatch r ps (checkPrefixMatch r ps c t).1 (checkPrefixMatch r ps c t).2).1 =
      (checkPrefixMatch r ps c t).1
  | [], _, _ => rfl
  | p :: ps, c, t => by
    simp only [checkPrefixMatch]
    by_cases hfit : p.namelen > r.length
    · simp only [if_pos hfit]; exact checkPrefixMatch_idem
    · by_cases hm : cstrncmp p.namelen p.name r = .eq
      · by_cases hc : p.contextIndex ≠ noIndex
        · simp only [if_neg hfit, if_pos hm, if_pos hc]
        · simp only [if_neg hfit, if_pos hm, if_neg hc]
      · simp only [if_neg hfit, if_neg hm]; exact checkPrefixMatch_idem

/-- A node's own entries: its context, then its prefix entries, give the
context of a longest own entry the name starts with. -/
theorem longest_own (h : NodeOk k n) (r : Bytes) (c t : Nat) : Longest (OwnPrefix n) r c (visitNode n r c t).1 := by
  have hps := checkPrefixMatch_longest (r := r) (c := if n.contextIndex ≠ noIndex then n.contextIndex else c)
    (t := if n.typeIndex ≠ noIndex then n.typeIndex else t) h.prefixes_sorted
    fun p hp => ⟨(h.prefix_ok hp).1.1, (h.prefix_ok hp).2.1, h.namelen_eq p hp⟩
  rcases hps with ⟨s, ⟨p, hp, rfl, hc⟩, hpre, hmax⟩ | ⟨hnone, hres⟩
  · refine .inl ⟨p.name, .inr ⟨p, hp, rfl, hc⟩, hpre, fun s' c' hs' hpre' => ?_⟩
    rcases hs' with ⟨rfl, -⟩ | ⟨q, hq, rfl, rfl⟩
    · exact Nat.zero_le _
    · exact hmax _ _ ⟨q, hq, rfl, rfl⟩ hpre'
  · rw [visitNode, hres]
    have hent : ∀ s c', (∃ p ∈ n.prefixes, s = p.name ∧ c' = p.contextIndex) → ¬s <+: r :=
      fun s c' hp => hnone s c' hp
    by_cases hc : n.contextIndex ≠ noIndex
    · rw [if_pos hc]
      refine .inl ⟨[], .inl ⟨rfl, hc, rfl⟩, List.nil_prefix, fun s' c' hs' hpre' => ?_⟩
      rcases hs' with ⟨rfl, -⟩ | hp
      · exact le_rfl
      · exact absurd hpre' (hent s' c' hp)
    · rw [if_neg hc]
      exact .inr ⟨fun s c' hs => hs.elim (fun ⟨_, hc', _⟩ => absurd hc' hc) (hent s c'), rfl⟩

/-- In a well-formed node the children's names are C strings. -/
theorem WellFormed.names (hwf : WellFormed k n) : ∀ ch ∈ n.childNodes, 0 ∉ ch.name :=
  fun _ hch => (hwf.child hch).nodeOk.name_segment.1

/-- The child the binary search finds has the segment for its name. -/
theorem findChildForString_some (hwf : WellFormed k n) {seg rest : Bytes} {ch : TrieNode} (hseg : 0 ∉ seg)
    (h : n.findChildForString (seg ++ dot :: rest) seg.length = some ch) : ch ∈ n.childNodes ∧ ch.name = seg :=
  findChildForString_mem_name hwf.nodeOk.children_le hwf.names hseg h

/-- When the binary search finds none, no child has the segment for its name. -/
theorem findChildForString_none (hwf : WellFormed k n) {seg rest : Bytes} (hseg : 0 ∉ seg)
    (h : n.findChildForString (seg ++ dot :: rest) seg.length = none) : ∀ ch ∈ n.childNodes, ch.name ≠ seg := by
  intro ch hch hname
  have hsorted : n.childNodes.Pairwise fun a b => strcmp a.name b.name ≠ .gt :=
    hwf.nodeOk.children_sorted.imp fun hlt => by rw [hlt]; exact nofun
  have hsome : (n.findChildForString (seg ++ dot :: rest) seg.length).isSome :=
    (findChildForString_isSome_iff hwf.nodeOk.children_le hwf.names hseg hsorted).2 ⟨ch, hch, hname⟩
  rw [h] at hsome
  cases hsome

/-- A name `seg.rest` is an exact entry only of the child named `seg`. -/
theorem hasExact_append_dot (hwf : WellFormed k n) {seg rest : Bytes} {c : Nat} (hseg : dot ∉ seg)
    (h : HasExact n (seg ++ dot :: rest) c) : ∃ ch ∈ n.childNodes, ch.name = seg ∧ HasExact ch rest c := by
  generalize hr : seg ++ dot :: rest = r at h
  cases h with
  | entry hx => exact absurd (hr ▸ (by simp : dot ∈ seg ++ dot :: rest)) (hwf.nodeOk.exact_ok hx).1.2
  | child hch hs =>
    obtain ⟨rfl, rfl⟩ := append_dot_inj (hwf.child hch).nodeOk.name_segment.2 hseg hr.symm
    exact ⟨_, hch, rfl, hs⟩

end Steps

/-! ## The walk -/

section Walk

variable {k : Nat}

/-- When the name starts with no child's entry, a node's entries it starts
with are its own. -/
theorem longest_leaf {n : TrieNode} {r : Bytes} {c x : Nat}
    (hleaf : ∀ ch ∈ n.childNodes, ∀ s', ¬ch.name ++ dot :: s' <+: r) (h : Longest (OwnPrefix n) r c x) :
    Longest (HasPrefix n) r c x :=
  h.congr fun _ _ hs => ⟨OwnPrefix.hasPrefix, fun hp => (hasPrefix_cases hp).resolve_right
    fun ⟨ch, hch, s', hs', _⟩ => hleaf ch hch s' (hs' ▸ hs)⟩

/-- Where the walk stops, the node's exact matches and prefix entries decide. -/
theorem finish_leaf {n : TrieNode} {r : Bytes} {c t : Nat} (hwf : WellFormed k n) (hr : 0 ∉ r)
    (hleaf : ∀ ch ∈ n.childNodes, ∀ s', ¬ch.name ++ dot :: s' <+: r) :
    MostSpecific n r c (Cursor.finish ⟨n, r, (visitNode n r c t).1, (visitNode n r c t).2⟩).1 := by
  have hok := hwf.nodeOk
  have hown : ∀ c', HasExact n r c' → ∃ x ∈ n.exactMatches, x.name = r ∧ c' = x.contextIndex := fun c' h => by
    cases h with
    | entry hx => exact ⟨_, hx, rfl, rfl⟩
    | child hch _ => exact absurd List.prefix_rfl (hleaf _ hch _)
  simp only [Cursor.finish]
  split
  · rename_i x hx
    obtain ⟨hmem, heq⟩ := findExactMatch_some hx
    rw [strcmp_eq_iff (hok.exact_ok hmem).1.1 hr] at heq
    rw [if_pos (hok.exact_ok hmem).2.1]
    refine ⟨fun c' h => ?_, fun hno => absurd (heq ▸ HasExact.entry hmem) (hno _)⟩
    obtain ⟨y, hy, hyr, rfl⟩ := hown c' h
    rw [eq_of_name_eq hok.exacts_sorted hmem hy (heq.trans hyr.symm)]
  · rename_i hx
    have hno : ∀ c', ¬HasExact n r c' := fun c' h => by
      obtain ⟨y, hy, hyr, -⟩ := hown c' h
      exact findExactMatch_none hx y hy (by rw [hyr, strcmp_self])
    refine ⟨fun c' h => absurd h (hno c'), fun _ => ?_⟩
    rw [visitNode, checkPrefixMatch_idem]
    exact longest_leaf hleaf (longest_own hok r c _)

/-- Past a node into its child `seg`: the node's own entries are shorter
than the child's prefix `seg.`, and the name starts with no other child's. -/
theorem longest_descend {n ch : TrieNode} {seg rest : Bytes} {c x y : Nat} (hwf : WellFormed k n)
    (hch : ch ∈ n.childNodes) (hname : ch.name = seg) (hseg : dot ∉ seg)
    (hown : Longest (OwnPrefix n) (seg ++ dot :: rest) c x) (hsub : Longest (HasPrefix ch) rest x y) :
    Longest (HasPrefix n) (seg ++ dot :: rest) c y := by
  have hok := hwf.nodeOk
  have hshort : ∀ s c', OwnPrefix n s c' → s <+: seg ++ dot :: rest → s.length ≤ seg.length := by
    rintro s c' (⟨rfl, -⟩ | ⟨p, hp, rfl, -⟩) hpre
    · exact Nat.zero_le _
    · exact length_le_of_prefix_dot (hok.prefix_ok hp).1.2 hpre
  have hvia : ∀ s c', HasPrefix n s c' → s <+: seg ++ dot :: rest →
      OwnPrefix n s c' ∨ ∃ s', s = seg ++ dot :: s' ∧ HasPrefix ch s' c' ∧ s' <+: rest := by
    intro s c' h hpre
    rcases hasPrefix_cases h with hown | ⟨ch', hch', s', rfl, hs'⟩
    · exact .inl hown
    · obtain ⟨hn', hpre'⟩ := append_dot_prefix_inv (hwf.child hch').nodeOk.name_segment.2 hseg hpre
      obtain rfl := eq_of_name_eq hok.children_sorted hch' hch (hn'.trans hname.symm)
      exact .inr ⟨s', by rw [hn'], hs', hpre'⟩
  rcases hsub with ⟨s, hs, hpre, hmax⟩ | ⟨hnone, rfl⟩
  · refine .inl ⟨seg ++ dot :: s, hname ▸ .child hch hs,
      (List.prefix_append_right_inj seg).2 ((List.prefix_cons_inj dot).2 hpre), fun s' c' h' hpre' => ?_⟩
    simp only [List.length_append, List.length_cons]
    rcases hvia s' c' h' hpre' with hown' | ⟨s'', rfl, hs'', hpre''⟩
    · have := hshort s' c' hown' hpre'; omega
    · have := hmax s'' c' hs'' hpre''; simp only [List.length_append, List.length_cons]; omega
  · rcases hown with ⟨s, hs, hpre, hmax⟩ | ⟨hnone', rfl⟩
    · refine .inl ⟨s, hs.hasPrefix, hpre, fun s' c' h' hpre' => ?_⟩
      rcases hvia s' c' h' hpre' with hown' | ⟨s'', -, hs'', hpre''⟩
      · exact hmax s' c' hown' hpre'
      · exact absurd hpre'' (hnone s'' c' hs'')
    · refine .inr ⟨fun s' c' h' hpre' => ?_, rfl⟩
      rcases hvia s' c' h' hpre' with hown' | ⟨s'', -, hs'', hpre''⟩
      · exact hnone' s' c' hown' hpre'
      · exact hnone s'' c' hs'' hpre''

/-- **The walk answers the most specific entry.** From any node of a
well-formed index, with any context found so far, the loop of
`GetPropertyInfoIndexes` and what follows it answer the context of the most
specific entry below the node that the name matches, or the context found so
far when it matches none. -/
theorem walk_mostSpecific : ∀ (fuel : Nat) {n : TrieNode} {r : Bytes} {c t : Nat}, WellFormed k n → 0 ∉ r →
    r.length < fuel → MostSpecific n r c (walk fuel ⟨n, r, c, t⟩).finish.1
  | 0, _, _, _, _, _, _, h => absurd h (Nat.not_lt_zero _)
  | fuel + 1, n, r, c, t, hwf, hr, hlen => by
    simp only [walk]
    split
    · rename_i hsep
      exact finish_leaf hwf hr fun _ _ _ => not_prefix_of_dot_not_mem (strchrDot_eq_none hsep)
    · rename_i sep hsep
      obtain ⟨seg, rest, rfl, hseg, rfl⟩ := strchrDot_eq_some hsep
      have hseg0 : 0 ∉ seg := fun h => hr (List.mem_append_left _ h)
      split
      · rename_i hfind
        exact finish_leaf hwf hr fun ch hch _ hpre => findChildForString_none hwf hseg0 hfind ch hch
          (append_dot_prefix_inv (hwf.child hch).nodeOk.name_segment.2 hseg hpre).1
      · rename_i ch hfind
        obtain ⟨hch, hname⟩ := findChildForString_some hwf hseg0 hfind
        have hdrop : (seg ++ dot :: rest).drop (seg.length + 1) = rest := by simp
        have hrest : 0 ∉ rest := fun h => hr (List.mem_append_right _ (List.mem_cons_of_mem _ h))
        rw [hdrop]
        have ih := walk_mostSpecific fuel (c := (visitNode n (seg ++ dot :: rest) c t).1)
          (t := (visitNode n (seg ++ dot :: rest) c t).2) (hwf.child hch) hrest
          (by simp only [List.length_append, List.length_cons] at hlen; omega)
        refine ⟨fun c' h => ?_, fun hno => ?_⟩
        · obtain ⟨ch', hch', hn', h'⟩ := hasExact_append_dot hwf hseg h
          obtain rfl := eq_of_name_eq hwf.nodeOk.children_sorted hch' hch (hn'.trans hname.symm)
          exact ih.1 c' h'
        · exact longest_descend hwf hch hname hseg (longest_own hwf.nodeOk _ c t)
            (ih.2 fun c' h => hno c' (hname ▸ .child hch h))

end Walk

/-! ## Routing is most specific -/

section Route

variable {k : Nat}

/-- Every context an entry of a well-formed index carries names one of its contexts. -/
theorem HasPrefix.context_lt {n : TrieNode} {s : Bytes} {c : Nat} (h : HasPrefix n s c) (hwf : WellFormed k n) :
    c ≠ noIndex ∧ c < k := by
  induction h with
  | context hc => exact ⟨hc, hwf.nodeOk.context_lt.resolve_left hc⟩
  | entry hp => exact (hwf.nodeOk.prefix_ok hp).2
  | child hch _ ih => exact ih (hwf.child hch)

theorem HasExact.context_lt {n : TrieNode} {s : Bytes} {c : Nat} (h : HasExact n s c) (hwf : WellFormed k n) :
    c ≠ noIndex ∧ c < k := by
  induction h with
  | entry hx => exact (hwf.nodeOk.exact_ok hx).2
  | child hch _ ih => exact ih (hwf.child hch)

/-- The most specific match of a well-formed index names one of its
contexts, or is `~0u`. -/
theorem MostSpecific.context_lt {n : TrieNode} {r : Bytes} {c : Nat} (h : MostSpecific n r noIndex c)
    (hwf : WellFormed k n) : c = noIndex ∨ c ≠ noIndex ∧ c < k := by
  by_cases hex : ∃ c', HasExact n r c'
  · obtain ⟨c', hc'⟩ := hex
    exact .inr (h.1 c' hc' ▸ hc'.context_lt hwf)
  · rcases h.2 fun c' hc' => hex ⟨c', hc'⟩ with ⟨_, hs, -⟩ | ⟨-, rfl⟩
    · exact .inr (hs.context_lt hwf)
    · exact .inl rfl

/-- **Routing by the binary index is most-specific match.** For every
well-formed index and every name, `GetPropertyInfoIndexes` answers the
context of the exact entry equal to the name if there is one, else that of a
longest prefix entry (node prefixes and prefix entries alike) the name
starts with, else `~0u`; and `GetPropAreaForName` selects the area of that
context's node, or none for `~0u`. -/
theorem getPropAreaForName_most_specific (cs : ContextsSerialized)
    (hwf : WellFormed cs.propertyInfoArea.numContexts cs.propertyInfoArea.rootNode) (name : Bytes)
    (hname : 0 ∉ name) :
    MostSpecific cs.propertyInfoArea.rootNode name noIndex (cs.propertyInfoArea.getPropertyInfoIndexes name).1 ∧
      cs.getPropAreaForName name =
        if (cs.propertyInfoArea.getPropertyInfoIndexes name).1 = noIndex then none
        else cs.contextArea (cs.propertyInfoArea.getPropertyInfoIndexes name).1 := by
  have hms : MostSpecific cs.propertyInfoArea.rootNode name noIndex
      (cs.propertyInfoArea.getPropertyInfoIndexes name).1 :=
    walk_mostSpecific (name.length + 1) hwf hname (Nat.lt_succ_self _)
  refine ⟨hms, ?_⟩
  simp only [ContextsSerialized.getPropAreaForName, cs.numContextNodes_eq]
  rcases hms.context_lt hwf with h | ⟨hne, hlt⟩
  · simp only [h, true_or, if_true]
  · simp only [hne, Nat.not_le.2 hlt, or_self, if_false]

end Route

/-- An index with the root's context `0`; a node `ro` carrying no context,
with the prefix entry `build` for context `1` and the exact match `boot` for
context `2`; three contexts, all mapped. -/
def roIndex : ContextsSerialized where
  propertyInfoArea :=
    { numContexts := 3
      rootNode := .mk ⟨[114, 111, 111, 116], 4, 0, noIndex⟩
        [.mk ⟨[114, 111], 2, noIndex, noIndex⟩ [] [⟨[98, 117, 105, 108, 100], 5, 1, noIndex⟩]
          [⟨[98, 111, 111, 116], 4, 2, noIndex⟩]] [] [] }
  contextNodes := [true, true, true]
  numContextNodes_eq := rfl

/-- `ro.build.id` routes to the prefix entry `ro.build`. -/
theorem ro_build_id_most_specific :
    MostSpecific roIndex.propertyInfoArea.rootNode [114, 111, 46, 98, 117, 105, 108, 100, 46, 105, 100] noIndex
        (roIndex.propertyInfoArea.getPropertyInfoIndexes [114, 111, 46, 98, 117, 105, 108, 100, 46, 105, 100]).1 ∧
      roIndex.getPropAreaForName [114, 111, 46, 98, 117, 105, 108, 100, 46, 105, 100] =
        if (roIndex.propertyInfoArea.getPropertyInfoIndexes
            [114, 111, 46, 98, 117, 105, 108, 100, 46, 105, 100]).1 = noIndex then none
        else roIndex.contextArea
          (roIndex.propertyInfoArea.getPropertyInfoIndexes [114, 111, 46, 98, 117, 105, 108, 100, 46, 105, 100]).1 :=
  getPropAreaForName_most_specific roIndex
    (.mk (by decide) fun _ hch => (List.mem_singleton.mp hch) ▸ .mk (by decide) fun _ h => absurd h (List.not_mem_nil _))
    _ (by decide)

example : roIndex.getPropAreaForName [114, 111, 46, 98, 117, 105, 108, 100, 46, 105, 100] = some 1 := by decide

example : roIndex.getPropAreaForName [114, 111, 46, 98, 111, 111, 116] = some 2 := by decide

/-- Three children named `a`, sorted but not strictly: the binary search
lands on the middle one, and `a.x`, an exact entry of the first, routes to
`~0u`. -/
example : (PropertyInfoArea.getPropertyInfoIndexes
    { numContexts := 1
      rootNode := .mk ⟨[], 0, noIndex, noIndex⟩
        [.mk ⟨[97], 1, noIndex, noIndex⟩ [] [] [⟨[120], 1, 0, noIndex⟩],
         .mk ⟨[97], 1, noIndex, noIndex⟩ [] [] [],
         .mk ⟨[97], 1, noIndex, noIndex⟩ [] [] []] [] [] } [97, 46, 120]).1 = noIndex := by decide

end Index

end SysProps
