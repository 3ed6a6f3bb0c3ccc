import SysProps.Refinement
import SysProps.Split

/-!
# The setter's frames

`__system_property_set(key, value)` writes no area: it hands the request to
the property service over a socket, in the frame of one of two protocols,
chosen once per process from `ro.property_service.version`
(`detectProtocolVersion`). Version 1 sends a fixed `prop_msg` of 128 bytes
(`propMsg`); version 2 sends the command word, then the key and the value,
each as a 32-bit length and its bytes, through a `SocketWriter` of eight
iovecs (`setprop2Frame`).

The socket calls are answers of the environment (`Conn`): whether `socket`
and `connect` succeeded, and what `send`, `writev`, `recv` and `poll`
returned. The service's own code is not under `src/`; how it reads a frame
is stated here as the protocol lays the frames out (`readSetprop2`,
`readPropMsg`).

**What is proved.**
* The writer's one chain never trips a `CHECK`, and hands `writev` the
  frame (`SocketWriter.setprop2_bytes`); the frame reads back, followed by any
  bytes (`readSetprop2_setprop2Frame`), and so does the version 1 message
  (`readPropMsg_propMsg`).
* `systemPropertySet_v2_frame`, `systemPropertySet_v1_msg`: what a call sends
  reads back as its command, key and value. Version 2 lets through the value
  of any `ro.` name, `strncmp(key, "ro.", 3)` being `is_read_only`
  (`cstrncmp_ro`).

**What it does not establish.** `errno` and the log lines; a `writev` that
writes part of a frame (the code does not look); the 250 ms of `poll`, on
which the answer does not depend; `atoll` past the range of `long long`.
-/

namespace SysProps

namespace Setter

open SystemProperties

/-- `PROP_NAME_MAX`. -/
def propNameMax : Nat := 32

/-- `PROP_MSG_SETPROP`. -/
def propMsgSetprop : Nat := 1

/-- `PROP_MSG_SETPROP2`. -/
def propMsgSetprop2 : Nat := 0x00020001

/-- `PROP_SUCCESS`. -/
def propSuccess : Int := 0

/-- `kProtocolVersion1`. -/
def kProtocolVersion1 : Nat := 1

/-- `kProtocolVersion2`. -/
def kProtocolVersion2 : Nat := 2

/-- `POLLHUP`. -/
def pollhup : Nat := 0x10

/-- `SocketWriter::kUintBufSize`. -/
def kUintBufSize : Nat := 8

/-- `SocketWriter::kIovSize`. -/
def kIovSize : Nat := 8

/-- `kServiceVersionPropertyName`: `"ro.property_service.version"`. -/
def kServiceVersionPropertyName : Bytes :=
  [114, 111, 46, 112, 114, 111, 112, 101, 114, 116, 121, 95, 115, 101, 114, 118, 105, 99, 101, 46, 118, 101, 114,
    115, 105, 111, 110]

/-- `"ro."`, the prefix version 2 compares a key against. -/
def roPrefix : Bytes := [114, 111, 46]

/-- `sizeof(prop_msg)`: the command word, the name and the value. -/
def sizeofPropMsg : Nat := 4 + propNameMax + propValueMax

/-! ## Words and strings on the wire -/

/-- The four bytes of a `uint32_t` as the setter hands them to the socket:
little-endian, modulo `2 ^ 32`. -/
def u32 (v : Nat) : Bytes := [Mem.u32Bytes v 0, Mem.u32Bytes v 1, Mem.u32Bytes v 2, Mem.u32Bytes v 3]

@[simp] theorem length_u32 (v : Nat) : (u32 v).length = 4 := rfl

/-- A `uint32_t` read off the front of the bytes. -/
def readU32 : Bytes → Option (Nat × Bytes)
  | b0 :: b1 :: b2 :: b3 :: rest =>
    some (b0.toNat + 256 * b1.toNat + 65536 * b2.toNat + 16777216 * b3.toNat, rest)
  | _ => none

theorem readU32_u32 (v : Nat) (rest : Bytes) : readU32 (u32 v ++ rest) = some (v % 2 ^ 32, rest) := by
  simp only [u32, List.cons_append, List.nil_append, readU32, Mem.u32Bytes, Mem.toNat_ofNat_uint8, Nat.reducePow,
    pow_zero, pow_one, Nat.div_one, Option.some.injEq, Prod.mk.injEq, and_true]
  omega

/-- What `WriteString(value)` puts on the wire: `strlen(value)` as a
`uint32_t`, then that many of its bytes. -/
def frameString (s : Bytes) : Bytes := u32 (s.length % 2 ^ 32) ++ s.take (s.length % 2 ^ 32)

/-- A string read off the front: a 32-bit length, then that many bytes. -/
def readString (l : Bytes) : Option (Bytes × Bytes) := do
  let (n, l) ← readU32 l
  if n ≤ l.length then some (l.take n, l.drop n) else none

/-- A string's part of a frame reads back, whatever follows it; a string of
`2 ^ 32` bytes or more goes out cut to its length modulo `2 ^ 32`. -/
theorem readString_frameString (s rest : Bytes) :
    readString (frameString s ++ rest) = some (s.take (s.length % 2 ^ 32), rest) := by
  have hlen : (s.take (s.length % 2 ^ 32)).length = s.length % 2 ^ 32 := by
    rw [List.length_take]; exact Nat.min_eq_left (Nat.mod_le _ _)
  simp only [readString, frameString, List.append_assoc, readU32_u32, Nat.mod_mod, Option.bind_eq_bind,
    Option.some_bind, List.length_append, hlen, Nat.le_add_right, if_true, List.take_left' hlen, List.drop_left' hlen]

/-- The frame of version 2: `PROP_MSG_SETPROP2`, the key, the value. -/
def setprop2Frame (key value : Bytes) : Bytes := u32 propMsgSetprop2 ++ frameString key ++ frameString value

/-- A version 2 frame read off the front: the command, the key, the value and
the bytes after them. -/
def readSetprop2 (l : Bytes) : Option (Nat × Bytes × Bytes × Bytes) := do
  let (cmd, l) ← readU32 l
  let (key, l) ← readString l
  let (value, l) ← readString l
  some (cmd, key, value, l)

/-- **The version 2 frame reads back**, followed by any bytes. -/
theorem readSetprop2_setprop2Frame (key value rest : Bytes) :
    readSetprop2 (setprop2Frame key value ++ rest) =
      some (propMsgSetprop2, key.take (key.length % 2 ^ 32), value.take (value.length % 2 ^ 32), rest) := by
  simp only [readSetprop2, setprop2Frame, List.append_assoc, readU32_u32, Option.bind_eq_bind, Option.some_bind,
    readString_frameString]
  rfl

/-! ## `SocketWriter` -/

/-- A `SocketWriter`: the buffers `iov_[0 .. iov_index_)` point at, in order,
and `uint_buf_index_`. -/
structure SocketWriter where
  iov : List Bytes
  uintBufIndex : Nat

namespace SocketWriter

/-- `SocketWriter(connection)`: no iovec and no integer yet. -/
def init : SocketWriter := ⟨[], 0⟩

/-- `WriteUint32(value)`: the word into the integer buffer and an iovec at
it; `none` where a `CHECK` aborts. -/
def writeUint32 (w : SocketWriter) (value : Nat) : Option SocketWriter :=
  if w.uintBufIndex < kUintBufSize then
    if w.iov.length < kIovSize then some ⟨w.iov ++ [u32 value], w.uintBufIndex + 1⟩ else none
  else none

/-- `WriteString(value)`: its length as a `uint32_t`, then, unless that is
0, an iovec at its bytes. -/
def writeString (w : SocketWriter) (value : Bytes) : Option SocketWriter := do
  let valuelen := value.length % 2 ^ 32
  let w ← w.writeUint32 valuelen
  if valuelen = 0 then some w
  else if w.iov.length < kIovSize then some { w with iov := w.iov ++ [value.take valuelen] }
  else none

/-- The bytes `Send()` hands `writev`: every iovec, in order. -/
def bytes (w : SocketWriter) : Bytes := w.iov.flatten

/-- `WriteUint32(PROP_MSG_SETPROP2).WriteString(key).WriteString(value)`. -/
def setprop2 (key value : Bytes) : Option SocketWriter :=
  ((init.writeUint32 propMsgSetprop2).bind fun w => w.writeString key).bind fun w => w.writeString value

/-- `WriteString` with room for two iovecs and an integer: it adds the
string's part of the frame. -/
theorem writeString_spec {w : SocketWriter} (hu : w.uintBufIndex < kUintBufSize)
    (hi : w.iov.length + 2 ≤ kIovSize) (s : Bytes) :
    ∃ w', w.writeString s = some w' ∧ w'.bytes = w.bytes ++ frameString s ∧
      w'.uintBufIndex = w.uintBufIndex + 1 ∧ w'.iov.length ≤ w.iov.length + 2 := by
  have h1 : w.iov.length < kIovSize := by omega
  have h2 : (w.iov ++ [u32 (s.length % 2 ^ 32)]).length < kIovSize := by simp only [List.length_append]; simpa
  simp only [writeString, writeUint32, hu, h1, if_true, Option.bind_eq_bind, Option.some_bind, h2]
  split
  · rename_i h0
    refine ⟨_, rfl, ?_, rfl, by simp⟩
    simp only [bytes, frameString, List.flatten_append, h0, List.take_zero, List.append_nil]
    simp
  · refine ⟨_, rfl, ?_, rfl, by simp⟩
    simp [bytes, frameString, List.flatten_append]

/-- **The setter's chain never aborts** and hands `writev` the version 2 frame. -/
theorem setprop2_bytes (key value : Bytes) : ∃ w, setprop2 key value = some w ∧ w.bytes = setprop2Frame key value := by
  obtain ⟨w₁, hw₁, hb₁, hu₁, hi₁⟩ := writeString_spec (w := ⟨[u32 propMsgSetprop2], 1⟩) (by decide) (by decide) key
  obtain ⟨w₂, hw₂, hb₂, -, -⟩ :=
    writeString_spec (w := w₁) (by rw [hu₁]; decide) (by simp only [List.length_singleton] at hi₁; simp [kIovSize]; omega)
      value
  have h₀ : init.writeUint32 propMsgSetprop2 = some ⟨[u32 propMsgSetprop2], 1⟩ := rfl
  refine ⟨w₂, by rw [setprop2, h₀, Option.some_bind, hw₁, Option.some_bind, hw₂], ?_⟩
  rw [hb₂, hb₁, setprop2Frame]
  simp [bytes]

end SocketWriter

/-! ## The version 1 message -/

/-- `strlcpy(field, src, size)` into a zeroed field of `size` bytes: the
first `size - 1` bytes of `src` at most, then zeros. -/
def strlcpyField (src : Bytes) (size : Nat) : Bytes :=
  src.take (min src.length (size - 1)) ++ List.replicate (size - min src.length (size - 1)) 0

/-- The `prop_msg` version 1 sends, zeroed by `memset` and then filled:
`PROP_MSG_SETPROP`, the key in `name[PROP_NAME_MAX]`, the value in
`value[PROP_VALUE_MAX]`. -/
def propMsg (key value : Bytes) : Bytes :=
  u32 propMsgSetprop ++ strlcpyField key propNameMax ++ strlcpyField value propValueMax

/-- A `prop_msg` read: the command, and the C strings of its two fields. -/
def readPropMsg (l : Bytes) : Option (Nat × Bytes × Bytes) := do
  let (cmd, l) ← readU32 l
  if l.length = propNameMax + propValueMax then
    some (cmd, (l.take propNameMax).takeWhile (· != 0), (l.drop propNameMax).takeWhile (· != 0))
  else none

theorem length_strlcpyField (src : Bytes) (size : Nat) (h : 0 < size) : (strlcpyField src size).length = size := by
  simp only [strlcpyField, List.length_append, List.length_take, List.length_replicate]; omega

/-- A C string shorter than the field reads back from it. -/
theorem takeWhile_strlcpyField {src : Bytes} {size : Nat} (h : src.length < size) (h0 : 0 ∉ src) :
    (strlcpyField src size).takeWhile (· != 0) = src := by
  have hmin : min src.length (size - 1) = src.length := Nat.min_eq_left (by omega)
  obtain ⟨k, hk⟩ : ∃ k, size - src.length = k + 1 := ⟨size - src.length - 1, by omega⟩
  rw [strlcpyField, hmin, List.take_length, hk, List.takeWhile_append_of_pos fun a ha => ?_]
  · simp
  · exact bne_iff_ne.2 fun e => h0 (e ▸ ha)

/-- **The version 1 message reads back**: 128 bytes whose fields hold the key
and the value, when both fit. -/
theorem readPropMsg_propMsg {key value : Bytes} (hk : key.length < propNameMax) (hv : value.length < propValueMax)
    (hk0 : 0 ∉ key) (hv0 : 0 ∉ value) :
    (propMsg key value).length = sizeofPropMsg ∧ readPropMsg (propMsg key value) = some (propMsgSetprop, key, value) := by
  have hkl := length_strlcpyField key propNameMax (by decide)
  have hvl := length_strlcpyField value propValueMax (by decide)
  refine ⟨by simp only [propMsg, List.length_append, length_u32, hkl, hvl, sizeofPropMsg], ?_⟩
  simp only [readPropMsg, propMsg, List.append_assoc, readU32_u32, Option.bind_eq_bind, Option.some_bind,
    List.length_append, hkl, hvl,
    if_true, List.take_left' hkl, List.drop_left' hkl, takeWhile_strlcpyField hk hk0, takeWhile_strlcpyField hv hv0]
  rfl

/-! ## `__system_property_set` -/

/-- What the socket calls of one `PropertyServiceConnection` answer: the
`errno` of a failed `socket` or `connect` (`none` when the connection is
valid), what `send` or `writev` return, what `recv(fd, &result, 4,
MSG_WAITALL)` returns, the `int32_t` the service answered, and what `poll`
returns and sets in `revents`. -/
structure Conn where
  connectError : Option Int
  sent : Int
  received : Int
  reply : Int
  polled : Int
  revents : Nat

/-- `send_prop_msg(msg)`: the bytes it sends, if it connects, and what it
returns. An acknowledgement (`POLLHUP`) and a timeout both count as success. -/
def sendPropMsg (conn : Conn) (msg : Bytes) : Option Bytes × Int :=
  match conn.connectError with
  | some e => (none, e)
  | none =>
    if conn.sent = sizeofPropMsg then
      (some msg, if conn.polled = 1 ∧ conn.revents &&& pollhup ≠ 0 then 0 else 0)
    else (some msg, -1)

/-- `isdigit`. -/
def isDigit (c : UInt8) : Bool := 48 ≤ c && c ≤ 57

/-- The value of the decimal digits at the front of the bytes. -/
def digitsValue (s : Bytes) : Nat := (s.takeWhile isDigit).foldl (fun acc c => 10 * acc + (c.toNat - 48)) 0

/-- `atoll(s)`: white space, a sign, then decimal digits. -/
def atoll (s : Bytes) : Int :=
  match s.dropWhile ContextsSplit.isSpace with
  | [] => 0
  | c :: t => if c = 45 then -(digitsValue t : Int) else if c = 43 then digitsValue t else digitsValue (c :: t)

/-- `detect_protocol_version()`: version 1 when `__system_property_get` of
`ro.property_service.version` gives length 0, else version 2 when
`static_cast<uint32_t>(atoll(value))` is at least 2, else version 1. -/
def detectProtocolVersion (sp : SystemProperties) : Option Nat :=
  (sp.get kServiceVersionPropertyName).map fun r =>
    if r.1 = 0 then kProtocolVersion1
    else if kProtocolVersion2 ≤ (atoll (r.2.takeWhile (· != 0)) % ((2 ^ 32 : Nat) : Int)).toNat then
      kProtocolVersion2
    else kProtocolVersion1

/-- `__system_property_set(key, value)` past `detect_protocol_version`, the
protocol version being `g`: the bytes it hands the socket, if any, and what it
returns. -/
def setWithVersion (g : Nat) (conn : Conn) (key value : Bytes) : Option (Option Bytes × Int) :=
  if g = kProtocolVersion1 then
    if key.length ≥ propNameMax then some (none, -1)
    else if value.length ≥ propValueMax then some (none, -1)
    else some (sendPropMsg conn (propMsg key value))
  else if value.length ≥ propValueMax ∧ cstrncmp 3 key roPrefix ≠ .eq then some (none, -1)
  else
    match conn.connectError with
    | some _ => some (none, -1)
    | none => do
      let w ← SocketWriter.setprop2 key value
      if conn.sent = -1 then some (some w.bytes, -1)
      else if conn.received ≠ 4 then some (some w.bytes, -1)
      else if conn.reply ≠ propSuccess then some (some w.bytes, -1)
      else some (some w.bytes, 0)

/-- `__system_property_set(key, value)` with `g_propservice_protocol_version`
at `g`, `none` standing for a null pointer: the version after the call, the
bytes it hands the socket, if any, and what it returns. -/
def systemPropertySet (g : Nat) (sp : SystemProperties) (conn : Conn) (key value : Option Bytes) :
    Option (Nat × Option Bytes × Int) :=
  match key with
  | none => some (g, none, -1)
  | some key => do
    let g ← if g = 0 then detectProtocolVersion sp else some g
    (setWithVersion g conn key (value.getD [])).map fun r => (g, r)

/-- A connection on which every call goes through: `send` writes a whole
`prop_msg`, `recv` gets the four bytes of `PROP_SUCCESS`, and the service
hangs up. -/
def connOk : Conn :=
  { connectError := none, sent := sizeofPropMsg, received := 4, reply := propSuccess, polled := 1, revents := pollhup }

/-- `strncmp(key, p, p.length)` answers 0 exactly when `key` starts with `p`,
for a `p` with no NUL. -/
theorem cstrncmp_eq_iff_prefix : ∀ {p : Bytes} (key : Bytes), 0 ∉ p → (cstrncmp p.length key p = .eq ↔ p <+: key)
  | [], _, _ => by simp only [List.length_nil, cstrncmp, List.nil_prefix]
  | x :: xs, key, hp => by
    simp only [List.mem_cons, not_or] at hp
    cases key with
    | nil =>
      simp only [List.length_cons, cstrncmp, List.headD_nil, List.headD_cons, List.prefix_nil, reduceCtorEq,
        iff_false, if_pos hp.1]
      exact compare_uint8_ne_eq hp.1
    | cons y ys =>
      simp only [List.length_cons, cstrncmp, List.headD_cons, List.tail_cons, List.cons_prefix_cons]
      by_cases hxy : y = x
      · subst hxy
        simp only [ne_eq, not_true_eq_false, if_false, Ne.symm hp.1, true_and]
        exact cstrncmp_eq_iff_prefix ys hp.2
      · simp only [ne_eq, hxy, not_false_eq_true, if_true, compare_uint8_ne_eq hxy, Ne.symm hxy, false_and]

/-- `strncmp(key, "ro.", 3) == 0` is `is_read_only(key)`. -/
theorem cstrncmp_ro (key : Bytes) : cstrncmp 3 key roPrefix = .eq ↔ isReadOnly key = true := by
  rw [isReadOnly, List.isPrefixOf_iff_prefix]
  exact cstrncmp_eq_iff_prefix (p := roPrefix) key (by decide)

/-- A call with the version known is `setWithVersion`. -/
theorem systemPropertySet_of_ne_zero {g : Nat} (hg : g ≠ 0) (sp : SystemProperties) (conn : Conn) (key value : Bytes) :
    systemPropertySet g sp conn (some key) (some value) = (setWithVersion g conn key value).map fun r => (g, r) := by
  simp only [systemPropertySet, if_neg hg, Option.bind_eq_bind, Option.some_bind, Option.getD_some]

/-- **Version 2 sends one frame that reads back.** With version 2, a valid
connection and a value the local check lets through, the call hands the
socket a frame from which the service reads `PROP_MSG_SETPROP2`, the key and
the value (each cut to its length modulo `2 ^ 32`), whatever follows. -/
theorem systemPropertySet_v2_frame (g : Nat) (sp : SystemProperties) (conn : Conn) (key value : Bytes)
    (hg : g = kProtocolVersion2) (hc : conn.connectError = none)
    (hok : ¬(propValueMax ≤ value.length ∧ isReadOnly key = false)) :
    ∃ frame ret, systemPropertySet g sp conn (some key) (some value) = some (g, some frame, ret) ∧
      ∀ rest, readSetprop2 (frame ++ rest) =
        some (propMsgSetprop2, key.take (key.length % 2 ^ 32), value.take (value.length % 2 ^ 32), rest) := by
  subst hg
  obtain ⟨w, hw, hb⟩ := SocketWriter.setprop2_bytes key value
  have hchk : ¬(value.length ≥ propValueMax ∧ cstrncmp 3 key roPrefix ≠ .eq) := fun h =>
    hok ⟨h.1, by simpa [cstrncmp_ro] using h.2⟩
  have hsent : ∃ ret, systemPropertySet 2 sp conn (some key) (some value) = some (2, some w.bytes, ret) := by
    rw [systemPropertySet_of_ne_zero (by decide)]
    simp only [setWithVersion, kProtocolVersion1, OfNat.ofNat_ne_one, if_false, hchk, hc, hw, Option.bind_eq_bind,
      Option.some_bind]
    split_ifs <;> exact ⟨_, rfl⟩
  obtain ⟨ret, hret⟩ := hsent
  exact ⟨w.bytes, ret, hret, fun rest => by rw [hb, readSetprop2_setprop2Frame]⟩

theorem setprop2_a_b :
    ∃ frame ret, systemPropertySet kProtocolVersion2 fresh connOk (some [97]) (some [98]) =
        some (kProtocolVersion2, some frame, ret) ∧
      ∀ rest, readSetprop2 (frame ++ rest) = some (propMsgSetprop2, [97].take ([97].length % 2 ^ 32),
        [98].take ([98].length % 2 ^ 32), rest) :=
  systemPropertySet_v2_frame _ fresh connOk [97] [98] rfl rfl (by decide)

/-- **What version 1 sends reads back.** With version 1, a valid connection,
and a key and a value that fit their fields, the call sends the 128-byte
`prop_msg` whose fields read back as the key and the value, and returns 0
exactly when `send` wrote all of it, whatever `poll` answers. -/
theorem systemPropertySet_v1_msg (g : Nat) (sp : SystemProperties) (conn : Conn) (key value : Bytes)
    (hg : g = kProtocolVersion1) (hc : conn.connectError = none) (hk : key.length < propNameMax)
    (hv : value.length < propValueMax) (hk0 : 0 ∉ key) (hv0 : 0 ∉ value) :
    ∃ ret, systemPropertySet g sp conn (some key) (some value) = some (g, some (propMsg key value), ret) ∧
      (propMsg key value).length = sizeofPropMsg ∧ readPropMsg (propMsg key value) = some (propMsgSetprop, key, value) ∧
      (ret = 0 ↔ conn.sent = sizeofPropMsg) := by
  subst hg
  have hsend : sendPropMsg conn (propMsg key value) =
      (some (propMsg key value), if conn.sent = sizeofPropMsg then 0 else -1) := by
    simp only [sendPropMsg, hc, ite_self]; split_ifs <;> rfl
  obtain ⟨hlen, hread⟩ := readPropMsg_propMsg hk hv hk0 hv0
  refine ⟨if conn.sent = sizeofPropMsg then 0 else -1, ?_, hlen, hread, ?_⟩
  · rw [systemPropertySet_of_ne_zero (g := kProtocolVersion1) (by decide)]
    simp only [setWithVersion, kProtocolVersion1, if_true, ge_iff_le, Nat.not_le.2 hk, Nat.not_le.2 hv, if_false,
      hsend, Option.map_some']
  · split_ifs with h <;> simp [h]

theorem setprop_a_b :
    ∃ ret, systemPropertySet kProtocolVersion1 fresh connOk (some [97]) (some [98]) =
        some (kProtocolVersion1, some (propMsg [97] [98]), ret) ∧ (propMsg [97] [98]).length = sizeofPropMsg ∧
      readPropMsg (propMsg [97] [98]) = some (propMsgSetprop, [97], [98]) ∧ (ret = 0 ↔ connOk.sent = sizeofPropMsg) :=
  systemPropertySet_v1_msg _ fresh connOk [97] [98] rfl rfl (by decide) (by decide) (by decide) (by decide)

end Setter

end SysProps
