import SysProps.Area.Store

/-!
# The property service refines a map from names to values

`SystemProperties` routes each name to one of its areas, and a name's value
is the value its area holds for it (`SystemProperties.contents`). This module
states what the writer's `Add` and `Delete` do to that map, against an
abstract store whose calls answer as the C functions do (`Store.Step`): an
`Add` that answers 0 has inserted the name if it was absent, one that answers
-1 has changed nothing, and a `Delete` answers 0 exactly when the name had a
value, which it erases.

**What is proved.** `ServiceInv.step`: from a service whose areas keep the
store invariant, every `Add` or `Delete` with a C-string name keeps it and is
matched by a step of the abstract store with the same answer; it keeps the
names the entries store (`EntriesNamed`) when an `Add` copies at least the
name's bytes, so every such run keeps them (`EntriesNamed.runs`).
`Runs.refines`: every run of such calls from a freshly initialized service,
whatever its contexts and their routing, with the answers each call gave,
keeps the invariant and is a run of the abstract store from the empty map,
ending in the map the service then holds, from which `Get` answers.
`ServiceInv.get`: `Get` answers a short value with its bytes and its length,
a long one with `kLongLegacyError`; `get_after_add` is the round trip of a
short value.

**What it does not establish.** `Update` is not a step of the abstract
store: along a run of updates the serial of an entry reaches `kLongFlag`
(`SysProps.LongFlag`). Values are kept as the reader gets them back
(`Value.ofAdd`).
-/

namespace SysProps

/-- The empty store. -/
def Store.empty : Store := fun _ => none

/-- What `Get` answers for a name of the store: the bytes of a short value
and their count, `kLongLegacyError` for a long one, and length 0 and an empty
string for a name with no value. -/
def Store.get (s : Store) (name : Bytes) : Nat × Bytes :=
  match s name with
  | none => (0, [0])
  | some (.short v) => (v.length, v ++ [0])
  | some (.long _) => (kLongLegacyError.length, kLongLegacyError ++ [0])

/-- The store with the value of `name` replaced by `g` of it. -/
def Store.modify (s : Store) (name : Bytes) (g : Option Value → Option Value) : Store :=
  fun n => if n = name then g (s name) else s n

theorem Store.modify_id (s : Store) (name : Bytes) : s.modify name id = s := by
  funext n; unfold Store.modify; split
  · rename_i h; rw [h]; rfl
  · rfl

theorem Store.insertIfAbsent_eq_modify (s : Store) (name : Bytes) (v : Value) :
    s.insertIfAbsent name v = s.modify name fun o => if o = none then some v else o := by
  funext n; unfold Store.insertIfAbsent Store.modify
  by_cases h : n = name
  · subst h; simp only [true_and, if_true]
  · simp only [h, false_and, if_false]

theorem Store.erase_eq_modify (s : Store) (name : Bytes) : s.erase name = s.modify name fun _ => none := rfl

/-- Erasing a name with no value changes nothing. -/
theorem Store.erase_of_none {s : Store} {name : Bytes} (h : s name = none) : s.erase name = s := by
  funext n; unfold Store.erase; split
  · rename_i hn; rw [hn, h]
  · rfl

open SystemProperties in
/-- **The abstract store's calls**, with what each answers: an `Add` that
answers 0 gives the name the value if it held none, one that answers -1
changes nothing; a `Delete` of a name with a value erases it and answers 0,
and of a name with none answers -1. -/
inductive Store.Step : Store → Op → Int → Store → Prop
  | add {s : Store} {name value : Bytes} {namelen valuelen : Nat} :
      Store.Step s (.add name namelen value valuelen) 0 (s.insertIfAbsent name (Value.ofAdd value valuelen))
  | addFail {s : Store} {name value : Bytes} {namelen valuelen : Nat} :
      Store.Step s (.add name namelen value valuelen) (-1) s
  | delete {s : Store} {name : Bytes} {prune : Bool} : s name ≠ none →
      Store.Step s (.delete name prune) 0 (s.erase name)
  | deleteAbsent {s : Store} {name : Bytes} {prune : Bool} : s name = none →
      Store.Step s (.delete name prune) (-1) s

open SystemProperties in
/-- A run of the abstract store, with the answer of each call. -/
inductive Store.Runs : Store → List (Op × Int) → Store → Prop
  | nil (s : Store) : Store.Runs s [] s
  | cons {s s' s'' : Store} {op : Op} {r : Int} {tr : List (Op × Int)} :
      Store.Step s op r s' → Store.Runs s' tr s'' → Store.Runs s ((op, r) :: tr) s''

namespace SystemProperties

open PropArea

/-- The value each name has: that of its entry in the area it routes to. -/
def contents (sp : SystemProperties) : Store := fun name =>
  match sp.getPropAreaForName name with
  | none => none
  | some j => (sp.areas[j]?).bind fun pa => pa.contents name

/-- The service holds the map `s` for every name that is a C string. -/
def Refines (sp : SystemProperties) (s : Store) : Prop := ∀ n, 0 ∉ n → sp.contents n = s n

/-- **The service invariant**: initialized, mapped read-write, with its
serial area, and every area keeping the store invariant. -/
structure ServiceInv (sp : SystemProperties) : Prop where
  initialized : sp.initialized = true
  rw : sp.rw = true
  serial : sp.serialArea.isSome = true
  areas : ∀ pa ∈ sp.areas, ∃ objs t, StoreInv pa objs t

/-- A call of the writer with a name that is a C string: `Add` or `Delete`. -/
def Op.CName : Op → Prop
  | .add name _ _ _ => 0 ∉ name
  | .delete name _ => 0 ∉ name
  | .update .. => False

/-- Every area stores, in each entry `find` answers for a C-string name, that
name. -/
def EntriesNamed (sp : SystemProperties) : Prop := ∀ pa ∈ sp.areas, pa.NamesStored

/-- A call that copies at least the name's bytes into a new entry: an `Add`
given a `namelen` no shorter than the name. -/
def Op.CopiesName : Op → Prop
  | .add name namelen _ _ => name.length ≤ namelen
  | _ => True

/-- A run of the writer, with the answer of each call. -/
inductive Runs : SystemProperties → List (Op × Int) → SystemProperties → Prop
  | nil (sp : SystemProperties) : Runs sp [] sp
  | cons {sp sp' sp'' : SystemProperties} {op : Op} {r : Int} {tr : List (Op × Int)} :
      sp.step op = some (sp', r) → Runs sp' tr sp'' → Runs sp ((op, r) :: tr) sp''

/-- A run with its answers is a run of `run`. -/
theorem Runs.run {sp sp' : SystemProperties} {tr : List (Op × Int)} (h : Runs sp tr sp') :
    sp.run (tr.map Prod.fst) = some sp' := by
  induction h with
  | nil => rfl
  | cons hs _ ih => rw [List.map_cons, run_cons, hs, Option.some_bind]; exact ih

/-! ## Routing -/

section Routing

variable {sp sp' : SystemProperties}

theorem getPropAreaForName_of_sameShape (h : SameShape sp sp') : sp'.getPropAreaForName = sp.getPropAreaForName := by
  funext n; simp only [getPropAreaForName, h.route, h.length]

/-- A name routes to an area that exists. -/
theorem getElem?_of_route {name : Bytes} {j : Nat} (h : sp.getPropAreaForName name = some j) :
    ∃ pa, sp.areas[j]? = some pa := by
  unfold getPropAreaForName at h
  split at h
  · split at h
    · cases h; exact ⟨_, List.getElem?_eq_getElem ‹_›⟩
    · cases h
  · cases h

theorem contents_of_route {name : Bytes} {j : Nat} {pa : PropArea} (hj : sp.getPropAreaForName name = some j)
    (hpa : sp.areas[j]? = some pa) : sp.contents name = pa.contents name := by
  simp only [contents, hj, hpa, Option.some_bind]

theorem contents_of_route_none {name : Bytes} (hj : sp.getPropAreaForName name = none) : sp.contents name = none := by
  simp only [contents, hj]

/-- **The contents after one area is written**: the names routed to it read
the new area, the others what they read. -/
theorem contents_set (hs : SameShape sp sp') {j : Nat} {pa pa' : PropArea} (hpa : sp.areas[j]? = some pa)
    (hareas : sp'.areas = sp.areas.set j pa') (n : Bytes) :
    sp'.contents n = if sp.getPropAreaForName n = some j then pa'.contents n else sp.contents n := by
  have hj : j < sp.areas.length := (List.getElem?_eq_some_iff.1 hpa).1
  unfold contents
  rw [getPropAreaForName_of_sameShape hs, hareas]
  cases sp.getPropAreaForName n with
  | none => rfl
  | some k =>
    by_cases hk : k = j
    · subst hk; simp only [List.getElem?_set_self hj, Option.some_bind, if_true]
    · simp only [List.getElem?_set_ne (Ne.symm hk), Option.some.injEq, hk, if_false]

/-- The tail of `Add` and `Delete`: the area written back, and the serial
bumped when the area reports success. -/
theorem writeBack_eq {j : Nat} {sa : PropArea} {x : PropArea × Bool} {r : Int}
    (h : (if x.2 = true then some (({ sp with areas := sp.areas.set j x.1 } : SystemProperties).bumpSerial sa, (0 : Int))
      else some ({ sp with areas := sp.areas.set j x.1 }, -1)) = some (sp', r)) :
    SameShape sp sp' ∧ sp'.areas = sp.areas.set j x.1 ∧ (sp.serialArea.isSome → sp'.serialArea.isSome) ∧
      r = if x.2 = true then 0 else -1 := by
  split at h <;> cases h
  · exact ⟨(sameShape_set ..).trans (sameShape_bumpSerial ..), rfl, fun _ => rfl, by rw [if_pos ‹_›]⟩
  · exact ⟨sameShape_set .., rfl, id, by rw [if_neg ‹_›]⟩

theorem ServiceInv.set (hi : ServiceInv sp) (hs : SameShape sp sp') {j : Nat} {pa' : PropArea}
    (hareas : sp'.areas = sp.areas.set j pa') (hser : sp.serialArea.isSome → sp'.serialArea.isSome)
    (hpa' : ∃ objs t, StoreInv pa' objs t) : ServiceInv sp' :=
  ⟨hs.initialized.trans hi.initialized, hs.rw.trans hi.rw, hser hi.serial, fun pa hpa => by
    rw [hareas] at hpa
    rcases List.mem_or_eq_of_mem_set hpa with hpa | rfl
    · exact hi.areas pa hpa
    · exact hpa'⟩

theorem EntriesNamed.set (hnm : EntriesNamed sp) {j : Nat} {pa' : PropArea} (hareas : sp'.areas = sp.areas.set j pa')
    (hpa' : pa'.NamesStored) : EntriesNamed sp' := fun pa hpa => by
  rw [hareas] at hpa
  rcases List.mem_or_eq_of_mem_set hpa with hpa | rfl
  · exact hnm pa hpa
  · exact hpa'

/-- **Writing the area a name routes to.** When the new area holds what the
old one held with the value of `name` replaced by `g` of it, the service
holds the store with that value replaced alike. -/
theorem Refines.modify {s : Store} (hr : Refines sp s) (hs : SameShape sp sp') {name : Bytes} {j : Nat}
    {pa pa' : PropArea} (hj : sp.getPropAreaForName name = some j) (hpa : sp.areas[j]? = some pa)
    (hareas : sp'.areas = sp.areas.set j pa') (hn : 0 ∉ name) {g : Option Value → Option Value}
    (hc : ∀ n, 0 ∉ n → pa'.contents n = (pa.contents.modify name g) n) : Refines sp' (s.modify name g) :=
  fun n hn' => by
    rw [contents_set hs hpa hareas n, Store.modify]
    split
    · rename_i hnj
      rw [hc n hn', Store.modify]
      split
      · rw [← hr name hn, contents_of_route hj hpa]
      · rw [← hr n hn', contents_of_route hnj hpa]
    · rename_i hnj
      rw [if_neg fun h : n = name => hnj (h ▸ hj)]
      exact hr n hn'

end Routing

/-! ## `Add` and `Delete` against the store -/

section Step

variable {sp sp' : SystemProperties}

/-- **One call refines a step of the store.** An `Add` or a `Delete` with a
C-string name keeps the service invariant, and the names stored when an `Add`
copies at least the name's bytes, and its answer and what it leaves are those
of a step of the abstract store the service held. -/
theorem ServiceInv.step (hi : ServiceInv sp) {op : Op} {r : Int} (hs : sp.step op = some (sp', r)) (hop : op.CName)
    {s : Store} (hr : Refines sp s) :
    ServiceInv sp' ∧ (EntriesNamed sp → op.CopiesName → EntriesNamed sp') ∧
      ∃ s', Store.Step s op r s' ∧ Refines sp' s' := by
  cases op with
  | update => exact hop.elim
  | add name namelen value valuelen =>
    simp only [SystemProperties.step, SystemProperties.add] at hs
    -- every check that fails answers -1 and writes nothing
    repeat' split at hs
    all_goals first | (cases hs; exact ⟨hi, fun h _ => h, s, .addFail, hr⟩) | skip
    rename_i j hj _ pa hpa
    obtain ⟨x, hadd, hs⟩ := Option.bind_eq_some.1 hs
    obtain ⟨hshape, hareas, hser, rfl⟩ := writeBack_eq hs
    obtain ⟨objs, t, hinv⟩ := hi.areas pa (List.getElem?_mem hpa)
    obtain ⟨objs', t', hinv', hc⟩ := hinv.add hop hadd
    refine ⟨hi.set hshape hareas hser ⟨objs', t', hinv'⟩, fun hnm hcopy =>
      hnm.set hareas (hinv.namesStored_add (hnm pa (List.getElem?_mem hpa)) hop hcopy hadd), ?_⟩
    obtain ⟨pa', b⟩ := x
    cases b
    · -- the area reports failure: no C-string name changes
      have hr' := hr.modify hshape hj hpa hareas hop (g := id) fun n hn => by rw [hc n hn, Store.modify_id]; rfl
      rw [Store.modify_id] at hr'
      exact ⟨s, by rw [if_neg Bool.false_ne_true]; exact .addFail, hr'⟩
    · refine ⟨_, by rw [if_pos rfl]; exact .add, ?_⟩
      rw [Store.insertIfAbsent_eq_modify]
      exact hr.modify hshape hj hpa hareas hop fun n hn => by rw [hc n hn, if_pos rfl, Store.insertIfAbsent_eq_modify]
  | delete name prune =>
    simp only [SystemProperties.step, delete] at hs
    split at hs
    · rename_i h; rw [hi.initialized] at h; cases h
    split at hs
    · rename_i h; rw [hi.rw] at h; cases h
    split at hs
    · rename_i h; have := hi.serial; rw [h] at this; cases this
    split at hs
    · rename_i hj; cases hs
      exact ⟨hi, fun h _ => h, s, .deleteAbsent (by rw [← hr name hop, contents_of_route_none hj]), hr⟩
    rename_i j hj
    split at hs
    · rename_i h; obtain ⟨pa, hpa⟩ := getElem?_of_route hj; rw [hpa] at h; cases h
    rename_i pa hpa
    obtain ⟨x, hrem, hs⟩ := Option.bind_eq_some.1 hs
    obtain ⟨hshape, hareas, hser, rfl⟩ := writeBack_eq hs
    obtain ⟨objs, t, hinv⟩ := hi.areas pa (List.getElem?_mem hpa)
    obtain ⟨pa', b⟩ := x
    obtain ⟨t', hinv', hb, hc⟩ := hinv.remove hop prune hrem
    refine ⟨hi.set hshape hareas hser ⟨objs, t', hinv'⟩, fun hnm _ =>
      hnm.set hareas (hinv.namesStored_remove (hnm pa (List.getElem?_mem hpa)) hop prune hrem), ?_⟩
    have hname : s name = pa.contents name := by rw [← hr name hop, contents_of_route hj hpa]
    have hafter : Refines sp' (s.erase name) := by
      rw [Store.erase_eq_modify]
      exact hr.modify hshape hj hpa hareas hop fun n hn => by rw [hc n hn, Store.erase_eq_modify]
    cases b
    · -- no value to erase: the store is as it was
      have habs : s name = none := by rw [hname]; exact Option.not_isSome_iff_eq_none.1 (by rw [← hb]; decide)
      rw [Store.erase_of_none habs] at hafter
      exact ⟨s, by rw [if_neg Bool.false_ne_true]; exact .deleteAbsent habs, hafter⟩
    · refine ⟨s.erase name, ?_, hafter⟩
      rw [if_pos rfl]
      refine .delete fun h => ?_
      rw [hname] at h
      rw [h] at hb; cases hb

end Step

/-! ## Runs from a freshly initialized service -/

/-- What `Init` with `writable` leaves, whatever the contexts: initialized,
mapped read-write, with its serial area, the area of every context freshly
created, and any routing of names to them. -/
structure Initialized (sp : SystemProperties) : Prop where
  initialized : sp.initialized = true
  rw : sp.rw = true
  serial : sp.serialArea.isSome = true
  areas : ∀ pa ∈ sp.areas, pa = PropArea.fresh

theorem Initialized.serviceInv {sp : SystemProperties} (h : Initialized sp) : ServiceInv sp :=
  ⟨h.initialized, h.rw, h.serial, fun pa hpa => by rw [h.areas pa hpa]; exact storeInv_fresh⟩

/-- A freshly initialized service holds no value. -/
theorem Initialized.refines_empty {sp : SystemProperties} (h : Initialized sp) : Refines sp Store.empty :=
  fun n _ => by
    unfold contents
    cases hj : sp.getPropAreaForName n with
    | none => rfl
    | some j =>
      obtain ⟨pa, hpa⟩ := getElem?_of_route hj
      simp only [hpa, Option.some_bind, h.areas pa (List.getElem?_mem hpa), contents_fresh, Store.empty]

theorem initialized_fresh : Initialized fresh :=
  ⟨rfl, rfl, rfl, fun _ hpa => List.mem_singleton.1 hpa⟩

theorem serviceInv_fresh : ServiceInv fresh := initialized_fresh.serviceInv

theorem refines_fresh : Refines fresh Store.empty := initialized_fresh.refines_empty

/-- **A run refines a run of the store**: from a service with the invariant
that holds the map `s`, every run of calls of `Add` and `Delete` with C-string
names is a run of the abstract store from `s` with the same answers, ending in
the map the service then holds. -/
theorem ServiceInv.runs {sp sp' : SystemProperties} {tr : List (Op × Int)} (h : Runs sp tr sp') :
    ServiceInv sp → (∀ p ∈ tr, p.1.CName) → ∀ {s : Store}, Refines sp s →
      ServiceInv sp' ∧ ∃ s', Store.Runs s tr s' ∧ Refines sp' s' := by
  induction h with
  | nil sp => exact fun hi _ s hr => ⟨hi, s, .nil s, hr⟩
  | cons hs _ ih =>
    intro hi hops s hr
    obtain ⟨hi', -, s', hstep, hr'⟩ := hi.step hs (hops _ (List.mem_cons_self _ _)) hr
    obtain ⟨hi'', s'', hruns, hr''⟩ := ih hi' (fun p hp => hops p (List.mem_cons_of_mem _ hp)) hr'
    exact ⟨hi'', s'', .cons hstep hruns, hr''⟩

/-- **Runs keep the names stored**: from a service with the invariant whose
entries store their names, every run of calls of `Add`, each copying at least
the name's bytes, and `Delete`, with C-string names. -/
theorem EntriesNamed.runs {sp sp' : SystemProperties} {tr : List (Op × Int)} (h : Runs sp tr sp') :
    ServiceInv sp → EntriesNamed sp → (∀ p ∈ tr, p.1.CName ∧ p.1.CopiesName) → EntriesNamed sp' := by
  induction h with
  | nil => exact fun _ hnm _ => hnm
  | cons hs _ ih =>
    intro hi hnm hops
    obtain ⟨hop, hcopy⟩ := hops _ (List.mem_cons_self _ _)
    obtain ⟨hi', hnm', -⟩ := hi.step hs hop (s := _) fun _ _ => rfl
    exact ih hi' (hnm' hnm hcopy) fun p hp => hops p (List.mem_cons_of_mem _ hp)

theorem Initialized.entriesNamed {sp : SystemProperties} (h : Initialized sp) : EntriesNamed sp :=
  fun pa hpa => by rw [h.areas pa hpa]; exact namesStored_fresh

/-! ## `Get` -/

theorem Mem.read_succ_right (m : Mem) (o n : Nat) : m.read o (n + 1) = m.read o n ++ [m (o + n)] := by
  simp only [Mem.read, List.range_succ, List.map_append, List.map_cons, List.map_nil]

/-- **`Get` answers from the store.** In a service with the invariant, for a
C-string name, `Get` answers what `Store.get` says of the map it holds. -/
theorem ServiceInv.get {sp : SystemProperties} (hi : ServiceInv sp) {s : Store} (hr : Refines sp s) {name : Bytes}
    (hn : 0 ∉ name) : sp.get name = some (s.get name) := by
  unfold SystemProperties.get find Store.get
  simp only [hi.initialized, Bool.not_true, Bool.false_eq_true, if_false]
  rw [← hr name hn]
  cases hj : sp.getPropAreaForName name with
  | none => rw [contents_of_route_none hj]
  | some j =>
    obtain ⟨pa, hpa⟩ := getElem?_of_route hj
    obtain ⟨objs, t, hinv⟩ := hi.areas pa (List.getElem?_mem hpa)
    simp only [hpa, hinv.arena.find_eq_lookup hinv.heads, contents_of_route hj hpa, hinv.arena.contents_eq hinv.heads,
      Option.map_some']
    cases he : t.lookup name with
    | none => rfl
    | some e =>
      have hlive := hinv.live name e hn he
      simp only [Option.map_some', read, readMutablePropertyValue, hpa, hlive.clean, ne_eq, not_true_eq_false,
        if_false, Option.map_some', entryValue]
      by_cases hl : isLong (pa.load (e + infoSerial)) = true
      · have hleg := hlive.long hl
        have hlen := congrArg List.length hleg
        rw [Mem.length_read, List.length_append, List.length_singleton] at hlen
        simp only [hl, if_true, hleg, Option.some.injEq, Prod.mk.injEq, and_true]
        omega
      · obtain ⟨-, hz⟩ := hlive.short (by simpa using hl)
        simp only [hl, Bool.false_eq_true, if_false, Mem.read_succ_right, hz, Mem.length_read]

/-- **The round trip of a short value.** In a service with the invariant,
after an `Add` of a C-string name with no value, of a value of fewer than
`PROP_VALUE_MAX` bytes passed with its length, that answers 0, `Get` answers
the value and its length. -/
theorem get_after_add {sp sp' : SystemProperties} (hi : ServiceInv sp) {name value : Bytes} {namelen : Nat}
    (hn : 0 ∉ name) (hv : value.length < propValueMax) (hnone : sp.contents name = none)
    (hadd : sp.add name namelen value value.length = some (sp', 0)) :
    sp'.get name = some (value.length, value ++ [0]) := by
  have hs : sp.step (.add name namelen value value.length) = some (sp', 0) := hadd
  obtain ⟨hi', -, s', hstep, hr'⟩ := hi.step hs hn (s := sp.contents) fun _ _ => rfl
  cases hstep
  rw [hi'.get hr' hn]
  simp only [Store.get, Store.insertIfAbsent, hnone, and_self, if_true, Value.ofAdd, if_pos hv, copiedBytes,
    Mem.map_range_getD, List.length_map, List.length_range]

/-- `"persist.boot.count"`. -/
def bootCount : Bytes := [112, 101, 114, 115, 105, 115, 116, 46, 98, 111, 111, 116, 46, 99, 111, 117, 110, 116]

/-- The fresh service after `Add("persist.boot.count", "1")`. -/
def bootCountAdded : SystemProperties := ((fresh.add bootCount bootCount.length [49] 1).map Prod.fst).getD fresh

theorem get_boot_count_after_add : bootCountAdded.get bootCount = some (1, [49, 0]) :=
  @get_after_add fresh bootCountAdded serviceInv_fresh bootCount [49] bootCount.length (by decide) (by decide)
    (refines_fresh bootCount (by decide)) rfl

/-- **Deleting a name empties it and no other.** In a service with the
invariant, after a `Delete` of a C-string name, pruning or not, `Get` answers
length 0 and an empty string for it and what it answered before for every
other C-string name; the call answers 0 exactly when the name had a value. -/
theorem get_after_delete {sp sp' : SystemProperties} (hi : ServiceInv sp) {name : Bytes} (hn : 0 ∉ name)
    {prune : Bool} {r : Int} (hdel : sp.delete name prune = some (sp', r)) :
    sp'.get name = some (0, [0]) ∧ (r = 0 ↔ (sp.contents name).isSome) ∧
      ∀ n, 0 ∉ n → n ≠ name → sp'.get n = sp.get n := by
  have hs : sp.step (.delete name prune) = some (sp', r) := hdel
  obtain ⟨hi', -, s', hstep, hr'⟩ := hi.step hs hn (s := sp.contents) fun _ _ => rfl
  have hold := fun n (hn : 0 ∉ n) => hi.get (s := sp.contents) (fun _ _ => rfl) hn
  -- both answers of the store: the name erased, or absent and kept
  have hafter : ∀ n, 0 ∉ n → sp'.get n = some (Store.get (sp.contents.erase name) n) := fun n hn' => by
    rw [hi'.get hr' hn']
    cases hstep with
    | delete => rfl
    | deleteAbsent habs => rw [Store.erase_of_none habs]
  refine ⟨by rw [hafter name hn]; simp only [Store.get, Store.erase, if_true], ?_,
    fun n hn' hne => by rw [hafter n hn', hold n hn']; simp only [Store.get, Store.erase, if_neg hne]⟩
  cases hstep with
  | delete hsome => exact ⟨fun _ => Option.isSome_iff_ne_none.2 hsome, fun _ => rfl⟩
  | deleteAbsent habs => simp only [habs, Option.isSome_none, Bool.false_eq_true, iff_false]; decide

theorem runs_bootCountAdded : Runs fresh [(.add bootCount bootCount.length [49] 1, 0)] bootCountAdded :=
  .cons rfl (.nil _)

theorem serviceInv_bootCountAdded : ServiceInv bootCountAdded :=
  (ServiceInv.runs runs_bootCountAdded serviceInv_fresh
    (fun p hp => by rw [List.mem_singleton.1 hp]; exact (by decide : 0 ∉ bootCount)) refines_fresh).1

theorem entriesNamed_bootCountAdded : EntriesNamed bootCountAdded :=
  EntriesNamed.runs runs_bootCountAdded serviceInv_fresh initialized_fresh.entriesNamed fun p hp => by
    rw [List.mem_singleton.1 hp]; exact ⟨(by decide : 0 ∉ bootCount), le_rfl⟩

/-- The service above after `Delete("persist.boot.count", true)`. -/
def bootCountDeleted : SystemProperties :=
  ((bootCountAdded.delete bootCount true).map Prod.fst).getD bootCountAdded

theorem get_boot_count_after_delete :
    bootCountDeleted.get bootCount = some (0, [0]) ∧ ((0 : Int) = 0 ↔ (bootCountAdded.contents bootCount).isSome) ∧
      ∀ n, 0 ∉ n → n ≠ bootCount → bootCountDeleted.get n = bootCountAdded.get n :=
  get_after_delete serviceInv_bootCountAdded (by decide)
    (show bootCountAdded.delete bootCount true = some (bootCountDeleted, 0) from rfl)

/-- **Every run from a freshly initialized service refines a run of the
store from the empty map**, whatever the contexts and their routing: the run
keeps the service invariant, its answers are those of the store, and `Get`
then answers from the map it reaches. -/
theorem Runs.refines {sp₀ sp : SystemProperties} {tr : List (Op × Int)} (h : Runs sp₀ tr sp)
    (h₀ : Initialized sp₀) (hops : ∀ p ∈ tr, p.1.CName) :
    ServiceInv sp ∧ ∃ s, Store.Runs Store.empty tr s ∧ Refines sp s ∧
      ∀ name, 0 ∉ name → sp.get name = some (s.get name) := by
  obtain ⟨hi, s, hruns, hr⟩ := ServiceInv.runs h h₀.serviceInv hops h₀.refines_empty
  exact ⟨hi, s, hruns, hr, fun _ hn => hi.get hr hn⟩

/-- Two contexts, each with a fresh area; names starting with `p` route to
the second, every other name to the first. -/
def twoContexts : SystemProperties :=
  { initialized := true, rw := true, serialArea := some PropArea.fresh, areas := [PropArea.fresh, PropArea.fresh],
    route := fun n => if n.head? = some 112 then some 1 else some 0 }

/-- `Add("persist.boot.count", "1")` and `Add("a", "1")`, each answering 0. -/
def twoAdds : List (Op × Int) := [(.add bootCount bootCount.length [49] 1, 0), (.add [97] 1 [49] 1, 0)]

/-- The two contexts after `twoAdds`. -/
def twoContextsAdded : SystemProperties := (twoContexts.run (twoAdds.map Prod.fst)).getD twoContexts

theorem runs_twoAdds : Runs twoContexts twoAdds twoContextsAdded := .cons rfl (.cons rfl (.nil _))

theorem two_contexts_refine :
    ServiceInv twoContextsAdded ∧ ∃ s, Store.Runs Store.empty twoAdds s ∧ Refines twoContextsAdded s ∧
      ∀ name, 0 ∉ name → twoContextsAdded.get name = some (s.get name) :=
  Runs.refines runs_twoAdds ⟨rfl, rfl, rfl, fun pa hpa => by
      simp only [twoContexts, List.mem_cons, List.mem_singleton, List.not_mem_nil, or_false, or_self] at hpa
      exact hpa⟩ fun p hp => by
    simp only [twoAdds, List.mem_cons, List.mem_singleton, List.not_mem_nil, or_false] at hp
    rcases hp with rfl | rfl
    · exact (by decide : 0 ∉ bootCount)
    · exact (by decide : (0 : UInt8) ∉ [97])

end SystemProperties

end SysProps
