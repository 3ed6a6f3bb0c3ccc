import SysProps.Area.Trie

/-!
# `SystemProperties`: the writer's and the reader's entry points

`SystemProperties` holds the contexts object, and through it the areas and
the `properties_serial` area whose `serial_` word every write bumps. This
module translates the writer's three operations (`Update`, `Add`, `Delete`)
and the reader's `Find` and `ReadMutablePropertyValue` (run alone, so its
retry loop ends after one turn) over that state.

The contexts object is abstracted to what these functions ask of it: whether
it mapped its areas read-write (`rw_`), its serial area, and
`GetPropAreaForName` as a routing function from names to areas. Its two
implementations are translated on their own in `SysProps.Index` and
`SysProps.Split`. `__futex_wake` changes no memory and is left out.

An entry is referred to as the C code refers to it, by where it lives: an
area and an offset in it (`PropInfoRef`, the model of `prop_info*`).
-/

namespace SysProps

/-- `is_read_only(name)`: `strncmp(name, "ro.", 3) == 0`. -/
def isReadOnly (name : Bytes) : Bool := [114, 111, 46].isPrefixOf name

/-- A `prop_info*`: the area an entry lives in and its offset there. -/
structure PropInfoRef where
  area : Nat
  off : Nat
deriving DecidableEq, Repr

namespace PropArea

/-- The C string at `o`. -/
def cstr (pa : PropArea) (o : Nat) : Bytes := pa.data.read o (pa.strlen o)

/-- `strlcpy(data_ + o, src, size)` for `size ≥ 1`: at most `size - 1` bytes
of `src`, then a NUL. -/
def strlcpy (pa : PropArea) (o : Nat) (src : Bytes) (size : Nat) : Option PropArea := do
  let n := min src.length (size - 1)
  let pa ← pa.copy o src n
  pa.storeByte (o + n) 0

end PropArea

/-- What `SystemProperties` reaches: its flags, the serial area, and the
areas of its contexts with the routing between them. -/
structure SystemProperties where
  initialized : Bool
  rw : Bool
  serialArea : Option PropArea
  areas : List PropArea
  route : Bytes → Option Nat

namespace SystemProperties

/-- A property service with one context, its area and the serial area freshly
created, every name routed to that context. -/
def fresh : SystemProperties :=
  { initialized := true, rw := true, serialArea := some PropArea.fresh, areas := [PropArea.fresh],
    route := fun _ => some 0 }

/-- `contexts_->GetPropAreaForName(name)`, as the index of its area. -/
def getPropAreaForName (sp : SystemProperties) (name : Bytes) : Option Nat :=
  match sp.route name with
  | some i => if i < sp.areas.length then some i else none
  | none => none

/-- Apply a write to the area at index `i`. -/
def modifyArea (sp : SystemProperties) (i : Nat) (f : PropArea → Option PropArea) :
    Option SystemProperties :=
  match sp.areas[i]? with
  | none => none
  | some pa => do
    let pa ← f pa
    some { sp with areas := sp.areas.set i pa }

/-- The serial area after `atomic_store(serial, atomic_load(serial) + 1)`. -/
def bumpSerial (sp : SystemProperties) (serialPa : PropArea) : SystemProperties :=
  { sp with serialArea := some { serialPa with serial := (serialPa.serial + 1) % 2 ^ 32 } }

/-- `SystemProperties::Update(pi, value, len)`: the dirty-bit protocol. The
old value goes to the backup buffer of the area `pi`'s name routes to, the
serial is stored dirty, the new value copied in, the serial stored with the
new length and the next sequence number, and the serial area bumped. -/
def update (sp : SystemProperties) (pi : PropInfoRef) (value : Bytes) (len : Nat) :
    Option (SystemProperties × Int) :=
  if len ≥ propValueMax then some (sp, -1)
  else if !sp.initialized then some (sp, -1)
  else if !sp.rw then some (sp, -1)
  else match sp.serialArea with
  | none => some (sp, -1)
  | some serialPa =>
    match sp.areas[pi.area]? with
    | none => none
    | some home =>
      match sp.getPropAreaForName (home.cstr (pi.off + infoName)) with
      | none => some (sp, -1)
      | some j => do
        let serial := home.load (pi.off + infoSerial)
        let oldLen := serialValueLen serial
        let sp ← sp.modifyArea j fun pa =>
          pa.fill dirtyBackupArea (oldLen + 1) fun i => home.data (pi.off + infoValue + i)
        let sp ← sp.modifyArea pi.area fun pa => pa.store (pi.off + infoSerial) (dirtySerial serial)
        let sp ← sp.modifyArea pi.area fun pa => pa.strlcpy (pi.off + infoValue) value (len + 1)
        let sp ← sp.modifyArea pi.area fun pa =>
          pa.store (pi.off + infoSerial) (updatedSerial serial len)
        some (sp.bumpSerial serialPa, 0)

/-- `SystemProperties::Add(name, namelen, value, valuelen)`. An `add` that
fails in the area may already have linked new nodes; the area is kept as
`prop_area::add` left it. -/
def add (sp : SystemProperties) (name : Bytes) (namelen : Nat) (value : Bytes) (valuelen : Nat) :
    Option (SystemProperties × Int) :=
  if valuelen ≥ propValueMax ∧ !isReadOnly name then some (sp, -1)
  else if namelen < 1 then some (sp, -1)
  else if !sp.initialized then some (sp, -1)
  else if !sp.rw then some (sp, -1)
  else match sp.serialArea with
  | none => some (sp, -1)
  | some serialPa =>
    match sp.getPropAreaForName name with
    | none => some (sp, -1)
    | some j =>
      match sp.areas[j]? with
      | none => some (sp, -1)
      | some pa => do
        let (pa, ret) ← pa.add name namelen value valuelen
        let sp := { sp with areas := sp.areas.set j pa }
        if ret then some (sp.bumpSerial serialPa, 0) else some (sp, -1)

/-- `SystemProperties::Delete(name, prune)`. -/
def delete (sp : SystemProperties) (name : Bytes) (prune : Bool) : Option (SystemProperties × Int) :=
  if !sp.initialized then some (sp, -1)
  else if !sp.rw then some (sp, -1)
  else match sp.serialArea with
  | none => some (sp, -1)
  | some serialPa =>
    match sp.getPropAreaForName name with
    | none => some (sp, -1)
    | some j =>
      match sp.areas[j]? with
      | none => some (sp, -1)
      | some pa => do
        let (pa, ret) ← pa.remove name prune
        let sp := { sp with areas := sp.areas.set j pa }
        if ret then some (sp.bumpSerial serialPa, 0) else some (sp, -1)

/-- `SystemProperties::Find(name)`. -/
def find (sp : SystemProperties) (name : Bytes) : Option (Option PropInfoRef) :=
  if !sp.initialized then some none
  else match sp.getPropAreaForName name with
  | none => some none
  | some j =>
    match sp.areas[j]? with
    | none => some none
    | some pa => (pa.find name).map fun p => p.map (PropInfoRef.mk j)

/-- `ReadMutablePropertyValue(pi, value)` with no writer running: the serial
it returns and the `SERIAL_VALUE_LEN(serial) + 1` bytes it copies into the
caller's buffer, from the backup buffer when the serial is dirty. -/
def readMutablePropertyValue (sp : SystemProperties) (pi : PropInfoRef) : Option (Nat × Bytes) :=
  match sp.areas[pi.area]? with
  | none => none
  | some home =>
    let serial := home.load (pi.off + infoSerial)
    let len := serialValueLen serial
    if serialDirty serial ≠ 0 then
      match sp.getPropAreaForName (home.cstr (pi.off + infoName)) with
      | none => none
      | some j => (sp.areas[j]?).map fun pa => (serial, pa.data.read dirtyBackupArea (len + 1))
    else some (serial, home.data.read (pi.off + infoValue) (len + 1))

/-- `SystemProperties::Read(pi, nullptr, value)`: the length
`SERIAL_VALUE_LEN(serial)` it returns and the bytes `ReadMutablePropertyValue`
copied into the caller's buffer. The log lines it writes for a long read-only
value are left out. -/
def read (sp : SystemProperties) (pi : PropInfoRef) : Option (Nat × Bytes) :=
  (sp.readMutablePropertyValue pi).map fun r => (serialValueLen r.1, r.2)

/-- `SystemProperties::Get(name, value)`: `Find`, then `Read`; a name not
found gives length 0 and an empty string. -/
def get (sp : SystemProperties) (name : Bytes) : Option (Nat × Bytes) :=
  match sp.find name with
  | none => none
  | some none => some (0, [0])
  | some (some pi) => sp.read pi

/-- A call of the writer: the operations a run of the property service is made of. -/
inductive Op where
  | add (name : Bytes) (namelen : Nat) (value : Bytes) (valuelen : Nat)
  | update (pi : PropInfoRef) (value : Bytes) (len : Nat)
  | delete (name : Bytes) (prune : Bool)

/-- One call, and what it returns. -/
def step (sp : SystemProperties) : Op → Option (SystemProperties × Int)
  | .add name namelen value valuelen => sp.add name namelen value valuelen
  | .update pi value len => sp.update pi value len
  | .delete name prune => sp.delete name prune

/-- A run of calls, one after another; `none` when one of them faults. -/
def run (sp : SystemProperties) : List Op → Option SystemProperties
  | [] => some sp
  | op :: ops => (sp.step op).bind fun r => r.1.run ops

@[simp] theorem run_nil (sp : SystemProperties) : sp.run [] = some sp := rfl

theorem run_cons (sp : SystemProperties) (op : Op) (ops : List Op) :
    sp.run (op :: ops) = (sp.step op).bind fun r => r.1.run ops := rfl

theorem run_append (sp : SystemProperties) (ops ops' : List Op) :
    sp.run (ops ++ ops') = (sp.run ops).bind fun sp => sp.run ops' := by
  induction ops generalizing sp with
  | nil => rfl
  | cons op ops ih =>
    simp only [List.cons_append, run_cons, ih]
    cases sp.step op <;> rfl

/-! ## What no call changes -/

/-- Two states with the same flags, routing and number of areas. -/
structure SameShape (sp sp' : SystemProperties) : Prop where
  initialized : sp'.initialized = sp.initialized
  rw : sp'.rw = sp.rw
  route : sp'.route = sp.route
  length : sp'.areas.length = sp.areas.length

theorem SameShape.refl (sp : SystemProperties) : SameShape sp sp := ⟨rfl, rfl, rfl, rfl⟩

theorem SameShape.trans {a b c : SystemProperties} (h : SameShape a b) (h' : SameShape b c) :
    SameShape a c :=
  ⟨h'.1.trans h.1, h'.2.trans h.2, h'.3.trans h.3, h'.4.trans h.4⟩

theorem sameShape_set (sp : SystemProperties) (j : Nat) (pa : PropArea) :
    SameShape sp { sp with areas := sp.areas.set j pa } := ⟨rfl, rfl, rfl, List.length_set ..⟩

theorem sameShape_bumpSerial (sp : SystemProperties) (sa : PropArea) : SameShape sp (sp.bumpSerial sa) :=
  ⟨rfl, rfl, rfl, rfl⟩

/-- What `modifyArea` can do: write one area that exists. -/
theorem modifyArea_eq_some {sp sp' : SystemProperties} {i : Nat} {f : PropArea → Option PropArea}
    (h : sp.modifyArea i f = some sp') :
    ∃ pa pa', sp.areas[i]? = some pa ∧ f pa = some pa' ∧ sp' = { sp with areas := sp.areas.set i pa' } := by
  unfold modifyArea at h
  split at h
  · cases h
  · rename_i pa hpa
    obtain ⟨pa', hf, h⟩ := Option.bind_eq_some.1 h
    exact ⟨pa, pa', hpa, hf, (Option.some.inj h).symm⟩

/-- `modifyArea` of an area that exists writes that area with what `f` gives. -/
theorem modifyArea_self {sp sp' : SystemProperties} {i : Nat} {f : PropArea → Option PropArea} {pa : PropArea}
    (h : sp.modifyArea i f = some sp') (hpa : sp.areas[i]? = some pa) :
    ∃ pa', f pa = some pa' ∧ sp'.areas[i]? = some pa' := by
  obtain ⟨pa₀, pa', hpa₀, hf, rfl⟩ := modifyArea_eq_some h
  obtain rfl := Option.some.inj (hpa₀.symm.trans hpa)
  exact ⟨pa', hf, List.getElem?_set_self (List.getElem?_eq_some_iff.1 hpa).1⟩

theorem sameShape_modifyArea {sp sp' : SystemProperties} {i : Nat} {f : PropArea → Option PropArea}
    (h : sp.modifyArea i f = some sp') : SameShape sp sp' := by
  obtain ⟨-, pa', -, -, rfl⟩ := modifyArea_eq_some h
  exact sameShape_set ..

/-- The tail of `Add` and `Delete`: the area written back, and the serial bumped on success. -/
theorem sameShape_writeBack {sp sp' : SystemProperties} {j : Nat} {sa : PropArea} {x : PropArea × Bool} {r : Int}
    (h : (if x.2 = true then some (({ sp with areas := sp.areas.set j x.1 } : SystemProperties).bumpSerial sa, (0 : Int))
      else some ({ sp with areas := sp.areas.set j x.1 }, -1)) = some (sp', r)) :
    SameShape sp sp' := by
  split at h <;> cases h
  · exact (sameShape_set ..).trans (sameShape_bumpSerial ..)
  · exact sameShape_set ..

/-- No call changes the flags, the routing or the number of areas. -/
theorem step_sameShape {sp sp' : SystemProperties} {op : Op} {r : Int} (h : sp.step op = some (sp', r)) :
    SameShape sp sp' := by
  cases op with
  | update pi value len =>
    simp only [step, update] at h
    repeat' split at h
    all_goals first
      | (cases h; exact .refl _)
      | cases h
      | skip
    obtain ⟨sp₁, h₁, h⟩ := Option.bind_eq_some.1 h
    obtain ⟨sp₂, h₂, h⟩ := Option.bind_eq_some.1 h
    obtain ⟨sp₃, h₃, h⟩ := Option.bind_eq_some.1 h
    obtain ⟨sp₄, h₄, h⟩ := Option.bind_eq_some.1 h
    obtain ⟨rfl, -⟩ := Prod.mk.inj (Option.some.inj h)
    exact (sameShape_modifyArea h₁).trans <| (sameShape_modifyArea h₂).trans <|
      (sameShape_modifyArea h₃).trans <| (sameShape_modifyArea h₄).trans (sameShape_bumpSerial ..)
  | _ =>
    simp only [step, add, delete] at h
    repeat' split at h
    all_goals first
      | (cases h; exact .refl _)
      | (obtain ⟨x, -, h⟩ := Option.bind_eq_some.1 h; exact sameShape_writeBack h)

theorem run_sameShape {sp sp' : SystemProperties} {ops : List Op} (h : sp.run ops = some sp') :
    SameShape sp sp' := by
  induction ops generalizing sp with
  | nil => cases h; exact .refl _
  | cons op ops ih =>
    obtain ⟨⟨sp₁, r⟩, h₁, h⟩ := Option.bind_eq_some.1 h
    exact (step_sameShape h₁).trans (ih h)

end SystemProperties

end SysProps
