import GbfrLan.Broker.App
import GbfrLan.Json.Read
import GbfrLan.Json.Write
import GbfrLan.Lib.Digits
import GbfrLan.Lib.Utf8

/-!
# The frames of a web socket

The loop of an upgraded connection reads one frame after another: two bytes of header, a length in
one of three forms, a mask if there is one, and the payload. A frame that a client writes in the
shortest form is read as its payload and not one byte more, so a stream of frames is read as the
stream of their payloads. What the broker writes itself follows the same rules.

A stream is the bytes that arrive before it ends or falls silent for too long, and no write fails.
-/
namespace GbfrLan.Http
open Lib Json

/-! ### The loop -/

/-- The length above which a frame is not read. -/
def maxFrame : ℕ := 1000000

/-- `read_exact`: so many bytes and what follows them. -/
def readExact (n : ℕ) (stream : List UInt8) : Option (List UInt8 × List UInt8) :=
  if n ≤ stream.length then some (stream.take n, stream.drop n) else none

def applyMask (mask data : List UInt8) : List UInt8 :=
  data.mapIdx fun i b => b ^^^ mask.getD (i % 4) 0

structure WsFrame where
  opcode : UInt8
  data : List UInt8
  deriving DecidableEq, Repr

/-- The length behind the header. -/
def readLength (short : ℕ) (stream : List UInt8) : Option (ℕ × List UInt8) :=
  if short = 126 then (readExact 2 stream).map fun (ext, rest) => (Digits.ofBe ext, rest)
  else if short = 127 then (readExact 8 stream).map fun (ext, rest) => (Digits.ofBe ext, rest)
  else some (short, stream)

/-- The mask of the frame, which an unmasked one does not have. -/
def readMask (masked : Bool) (stream : List UInt8) : Option (List UInt8 × List UInt8) :=
  if masked then readExact 4 stream else some ([], stream)

/-- The reads of one turn; nothing where the loop ends. -/
def readFrame : List UInt8 → Option (WsFrame × List UInt8)
  | b₀ :: b₁ :: stream => do
      let masked := b₁ &&& 0x80 != 0
      let (length, stream) ← readLength (b₁ &&& 0x7f).toNat stream
      if maxFrame < length then none
      else
        let (mask, stream) ← readMask masked stream
        let (data, stream) ← readExact length stream
        return (⟨b₀ &&& 0x0f, if masked then applyMask mask data else data⟩, stream)
  | _ => none

/-- What a turn does with its frame. -/
inductive WsTurn where
  | payload (data : List UInt8)
  | ping (data : List UInt8)
  | ignored (opcode : UInt8) (data : List UInt8)
  deriving DecidableEq, Repr

/-- A frame that closes the connection has no turn. -/
def WsFrame.turn (f : WsFrame) : Option WsTurn :=
  if f.opcode = 0x8 then none
  else if f.opcode = 0x9 then some (.ping f.data)
  else if f.opcode = 0x1 ∨ f.opcode = 0x2 then some (.payload f.data)
  else some (.ignored f.opcode f.data)

theorem readExact_eq {n : ℕ} {stream data rest : List UInt8} (h : readExact n stream = some (data, rest)) :
    stream = data ++ rest ∧ data.length = n := by
  unfold readExact at h
  split_ifs at h with hn
  cases h
  exact ⟨(List.take_append_drop n stream).symm, List.length_take_of_le hn⟩

theorem readExact_length {n : ℕ} {stream data rest : List UInt8}
    (h : readExact n stream = some (data, rest)) : rest.length ≤ stream.length := by
  rw [(readExact_eq h).1, List.length_append]
  omega

theorem readLength_length {short n : ℕ} {stream rest : List UInt8}
    (h : readLength short stream = some (n, rest)) : rest.length ≤ stream.length := by
  unfold readLength at h
  split_ifs at h
  · obtain ⟨⟨ext, rest'⟩, hext, heq⟩ := Option.map_eq_some_iff.mp h
    cases heq
    exact readExact_length hext
  · obtain ⟨⟨ext, rest'⟩, hext, heq⟩ := Option.map_eq_some_iff.mp h
    cases heq
    exact readExact_length hext
  · cases h
    exact le_rfl

theorem readMask_length {masked : Bool} {stream mask rest : List UInt8}
    (h : readMask masked stream = some (mask, rest)) : rest.length ≤ stream.length := by
  unfold readMask at h
  split_ifs at h
  · exact readExact_length h
  · cases h
    exact le_rfl

/-- Every turn takes at least a header. -/
theorem readFrame_length {f : WsFrame} {stream rest : List UInt8}
    (h : readFrame stream = some (f, rest)) : rest.length < stream.length := by
  rcases stream with _ | ⟨b₀, _ | ⟨b₁, stream⟩⟩
  · cases h
  · cases h
  · simp only [readFrame, Option.bind_eq_bind, Option.bind_eq_some_iff] at h
    obtain ⟨⟨n, s₁⟩, hlength, h⟩ := h
    split at h
    · cases h
    · obtain ⟨⟨mask, s₂⟩, hmask, h⟩ := Option.bind_eq_some_iff.mp h
      obtain ⟨⟨data, s₃⟩, hdata, heq⟩ := Option.bind_eq_some_iff.mp h
      cases heq
      have h₁ := readLength_length hlength
      have h₂ := readMask_length hmask
      have h₃ := readExact_length hdata
      simp only [List.length_cons] at *
      omega

/-- The turns of `pump_websocket`. -/
def pumpWebsocket (stream : List UInt8) : List WsTurn :=
  match _h : readFrame stream with
  | none => []
  | some (f, rest) =>
      match f.turn with
      | none => []
      | some turn => turn :: pumpWebsocket rest
termination_by stream.length
decreasing_by exact readFrame_length _h

/-! ### Writing -/

/-- The bytes of `ws_send_binary`. -/
def wsSendBinary (payload : List UInt8) : List UInt8 :=
  let n := payload.length
  let hdr : List UInt8 :=
    if n < 126 then [0x82, UInt8.ofNat n]
    else if n < 65536 then [0x82, 126] ++ Digits.toBe 2 n
    else [0x82, 127] ++ Digits.toBe 8 n
  hdr ++ payload

section
variable (host : Broker.Host) (readFloat : List Char → Option UInt64)

/-- `from_slice` on bytes: a text that is not UTF-8 is no JSON. -/
def jsonOfBytes (data : List UInt8) : Option Value :=
  let s := Utf8.decodeLossy data
  if Utf8.bytes s = data then Read.fromSlice readFloat s.toList else none

/-- The reply to a JSON payload: its command and its parameters, with the id of the search among
them. -/
def commandReply (v : Value) : Value :=
  let cmd := ((v.get "command").bind Value.asStr).getD ""
  let params := ((v.get "params").bind Value.asObject).getD []
  let params :=
    if Entries.contains "lobby_search_id" params then params
    else
      match v.get "lobby_search_id" with
      | none | some .null => params
      | some id => Entries.insert "lobby_search_id" id params
  .obj [("command", .string cmd), ("params", .object params)]

/-- The reply of `handle_ws_payload`. -/
def payloadReply (data : List UInt8) : Option Value :=
  match jsonOfBytes readFloat data with
  | some v => some (commandReply v)
  | none =>
      if data.tails.any fun w => (Utf8.bytes "join_lobby").isPrefixOf w then
        some (.obj [("command", .string "join_lobby"), ("params", .obj [])])
      else none

/-- The bytes that a turn writes. -/
def WsTurn.written : WsTurn → List UInt8
  | .payload data =>
      match payloadReply readFloat data with
      | some reply => wsSendBinary (Utf8.bytes (String.ofList (reply.text (Broker.numberText host))))
      | none => []
  | .ping data => if data.length < 126 then [0x8a, UInt8.ofNat data.length] ++ data else []
  | .ignored _ _ => []

end

/-! ### Frames of a client -/

/-- A frame as a client writes it. -/
structure ClientFrame where
  /-- The flags and the opcode. -/
  first : UInt8
  mask : Option (List UInt8)
  payload : List UInt8
  mask_length : ∀ m ∈ mask, m.length = 4

namespace ClientFrame

def opcode (f : ClientFrame) : UInt8 := f.first &&& 0x0f

def maskBit (masked : Bool) : UInt8 := if masked then 0x80 else 0

/-- The shortest form of a length, with the mask bit. -/
def lengthBytes (masked : Bool) (n : ℕ) : List UInt8 :=
  if n < 126 then [maskBit masked ||| UInt8.ofNat n]
  else if n < 65536 then (maskBit masked ||| 126) :: Digits.toBe 2 n
  else (maskBit masked ||| 127) :: Digits.toBe 8 n

def bytes (f : ClientFrame) : List UInt8 :=
  f.first :: lengthBytes f.mask.isSome f.payload.length ++
    match f.mask with
    | some mask => mask ++ applyMask mask f.payload
    | none => f.payload

end ClientFrame

/-! ### Reading what was written -/

theorem readExact_append {n : ℕ} {data : List UInt8} (hlen : data.length = n) (rest : List UInt8) :
    readExact n (data ++ rest) = some (data, rest) := by
  subst hlen
  rw [readExact, if_pos (by simp), List.take_left, List.drop_left]

@[simp] theorem length_applyMask (mask data : List UInt8) : (applyMask mask data).length = data.length :=
  List.length_mapIdx

/-- A mask that is applied twice is off again. -/
theorem applyMask_applyMask (mask data : List UInt8) : applyMask mask (applyMask mask data) = data := by
  apply List.ext_getElem
  · simp
  · intro i hi hi'
    simp only [applyMask, List.getElem_mapIdx]
    rw [UInt8.xor_assoc, UInt8.xor_self, UInt8.xor_zero]

open ClientFrame (maskBit lengthBytes)

/-- The byte with the mask bit and seven bits of length. -/
theorem maskBit_or (masked : Bool) {n : ℕ} (h : n < 128) :
    ((maskBit masked ||| UInt8.ofNat n) &&& 0x80 != 0) = masked ∧
      ((maskBit masked ||| UInt8.ofNat n) &&& 0x7f).toNat = n := by
  have hall : ∀ (masked : Bool) (n : Fin 128),
      ((maskBit masked ||| UInt8.ofNat n) &&& 0x80 != 0) = masked ∧
        ((maskBit masked ||| UInt8.ofNat n) &&& 0x7f).toNat = n := by decide +kernel
  exact hall masked ⟨n, h⟩

/-- The shortest form of a length is read back, with the mask bit. -/
theorem readLength_lengthBytes (masked : Bool) {n : ℕ} (hn : n < 2 ^ 64) :
    ∃ b ext, lengthBytes masked n = b :: ext ∧ (b &&& 0x80 != 0) = masked ∧
      ∀ rest, readLength (b &&& 0x7f).toNat (ext ++ rest) = some (n, rest) := by
  unfold lengthBytes
  by_cases hshort : n < 126
  · obtain ⟨hbit, hlen⟩ := maskBit_or masked (show n < 128 by omega)
    refine ⟨_, [], if_pos hshort, hbit, fun rest => ?_⟩
    rw [hlen, readLength, if_neg (by omega), if_neg (by omega), List.nil_append]
  · rw [if_neg hshort]
    by_cases hmid : n < 65536
    · obtain ⟨hbit, hlen⟩ := maskBit_or masked (show 126 < 128 by omega)
      refine ⟨_, _, if_pos hmid, hbit, fun rest => ?_⟩
      have hread := readExact_append (Digits.length_toBe 2 n) rest
      have hvalue : Digits.ofBe (Digits.toBe 2 n) = n := Digits.ofBe_toBe (by omega)
      change readLength ((maskBit masked ||| UInt8.ofNat 126) &&& 0x7f).toNat _ = _
      rw [hlen, readLength, if_pos rfl, hread, Option.map_some]
      simp only [hvalue]
    · obtain ⟨hbit, hlen⟩ := maskBit_or masked (show 127 < 128 by omega)
      refine ⟨_, _, if_neg hmid, hbit, fun rest => ?_⟩
      have hread := readExact_append (Digits.length_toBe 8 n) rest
      have hvalue : Digits.ofBe (Digits.toBe 8 n) = n := Digits.ofBe_toBe (by omega)
      change readLength ((maskBit masked ||| UInt8.ofNat 127) &&& 0x7f).toNat _ = _
      rw [hlen, readLength, if_neg (by omega), if_pos rfl, hread, Option.map_some]
      simp only [hvalue]

/-- A frame is read as its payload, up to its last byte. -/
theorem readFrame_bytes (f : ClientFrame) (h : f.payload.length ≤ maxFrame) (rest : List UInt8) :
    readFrame (f.bytes ++ rest) = some (⟨f.opcode, f.payload⟩, rest) := by
  obtain ⟨first, mask, payload, hmask⟩ := f
  simp only at h
  have hsmall : payload.length < 2 ^ 64 := by
    unfold maxFrame at h
    omega
  obtain ⟨b, ext, hbytes, hbit, hlength⟩ := readLength_lengthBytes mask.isSome hsmall
  unfold ClientFrame.bytes ClientFrame.opcode
  simp only [hbytes]
  cases mask with
  | none =>
    have hread := readExact_append (n := payload.length) rfl rest
    simp only [List.cons_append, List.append_assoc, readFrame, hlength, hbit, readMask,
      Option.isSome_none, if_neg (not_lt.mpr h), hread, Option.bind_eq_bind, Option.bind_some,
      Bool.false_eq_true, if_false, Option.pure_def]
  | some mask =>
    have hkey := readExact_append (hmask mask rfl) (applyMask mask payload ++ rest)
    have hread := readExact_append (length_applyMask mask payload) rest
    simp only [List.cons_append, List.append_assoc, readFrame, hlength, hbit, readMask,
      Option.isSome_some, if_neg (not_lt.mpr h), hkey, hread, Option.bind_eq_bind, Option.bind_some,
      if_true, Option.pure_def, applyMask_applyMask]

/-- One turn of the loop. -/
theorem pumpWebsocket_turn {stream rest : List UInt8} {f : WsFrame} {turn : WsTurn}
    (hread : readFrame stream = some (f, rest)) (hturn : f.turn = some turn) :
    pumpWebsocket stream = turn :: pumpWebsocket rest := by
  rw [pumpWebsocket]
  split
  · rename_i hnone
    rw [hread] at hnone
    cases hnone
  · rename_i f' rest' hsome
    rw [hread] at hsome
    cases hsome
    rw [hturn]

/-- Frames with a payload, one behind another. -/
theorem pumpWebsocket_flatMap (fs : List ClientFrame)
    (hfs : ∀ f ∈ fs, (f.opcode = 1 ∨ f.opcode = 2) ∧ f.payload.length ≤ maxFrame) (rest : List UInt8) :
    pumpWebsocket (fs.flatMap ClientFrame.bytes ++ rest) =
      fs.map (fun f => .payload f.payload) ++ pumpWebsocket rest := by
  induction fs with
  | nil => rfl
  | cons f fs ih =>
    obtain ⟨hop, hlen⟩ := hfs f List.mem_cons_self
    have hturn : WsFrame.turn ⟨f.opcode, f.payload⟩ = some (.payload f.payload) := by
      unfold WsFrame.turn
      rcases hop with hop | hop <;> rw [hop] <;> rfl
    rw [List.flatMap_cons, List.append_assoc, pumpWebsocket_turn (readFrame_bytes f hlen _) hturn,
      ih fun g hg => hfs g (List.mem_cons_of_mem _ hg)]
    rfl

/-- A frame without a mask. -/
def ClientFrame.plain (first : UInt8) (payload : List UInt8) : ClientFrame where
  first := first
  mask := none
  payload := payload
  mask_length := nofun

theorem wsSendBinary_eq (payload : List UInt8) :
    wsSendBinary payload = (ClientFrame.plain 0x82 payload).bytes := by
  have hzero (b : UInt8) : maskBit false ||| b = b := UInt8.zero_or
  unfold wsSendBinary ClientFrame.bytes lengthBytes ClientFrame.plain
  simp only [Option.isSome_none, hzero]
  split_ifs <;> rfl

theorem written_ping (host : Broker.Host) (readFloat : List Char → Option UInt64) {data : List UInt8}
    (h : data.length ≤ 125) :
    WsTurn.written host readFloat (.ping data) = (ClientFrame.plain 0x8a data).bytes := by
  have hzero (b : UInt8) : maskBit false ||| b = b := UInt8.zero_or
  have hshort : data.length < 126 := Nat.lt_succ_of_le h
  unfold ClientFrame.bytes lengthBytes ClientFrame.plain
  simp only [WsTurn.written, Option.isSome_none, hzero, if_pos hshort, List.cons_append,
    List.nil_append]

/-- What the loop makes of the frames of a client, and a client of those of the broker. -/
structure Framing (host : Broker.Host) (readFloat : List Char → Option UInt64) : Prop where
  frame : ∀ (f : ClientFrame), f.payload.length ≤ maxFrame → ∀ rest,
    readFrame (f.bytes ++ rest) = some (⟨f.opcode, f.payload⟩, rest)
  stream : ∀ (fs : List ClientFrame),
    (∀ f ∈ fs, (f.opcode = 1 ∨ f.opcode = 2) ∧ f.payload.length ≤ maxFrame) → ∀ rest,
    pumpWebsocket (fs.flatMap ClientFrame.bytes ++ rest) =
      fs.map (fun f => .payload f.payload) ++ pumpWebsocket rest
  sent : ∀ (payload : List UInt8), payload.length ≤ maxFrame → ∀ rest,
    readFrame (wsSendBinary payload ++ rest) = some (⟨2, payload⟩, rest)
  ping : ∀ (f : ClientFrame), f.opcode = 9 → f.payload.length ≤ 125 → ∀ rest,
    pumpWebsocket (f.bytes ++ rest) = .ping f.payload :: pumpWebsocket rest
  pong : ∀ (data : List UInt8), data.length ≤ 125 → ∀ rest,
    readFrame (WsTurn.written host readFloat (.ping data) ++ rest) = some (⟨10, data⟩, rest)

theorem framing (host : Broker.Host) (readFloat : List Char → Option UInt64) : Framing host readFloat where
  frame f h rest := readFrame_bytes f h rest
  stream fs hfs rest := pumpWebsocket_flatMap fs hfs rest
  sent payload h rest := by
    have hop : (ClientFrame.plain 0x82 payload).opcode = 2 := by
      change (0x82 &&& 0x0f : UInt8) = 2
      decide
    have hread := readFrame_bytes (.plain 0x82 payload) h rest
    rw [hop] at hread
    rw [wsSendBinary_eq]
    exact hread
  ping f hop h rest := by
    have hlen : f.payload.length ≤ maxFrame := h.trans (by decide)
    refine pumpWebsocket_turn (readFrame_bytes f hlen rest) ?_
    unfold WsFrame.turn
    simp only [hop]
    rfl
  pong data h rest := by
    have hlen : data.length ≤ maxFrame := h.trans (by decide)
    have hop : (ClientFrame.plain 0x8a data).opcode = 10 := by
      change (0x8a &&& 0x0f : UInt8) = 10
      decide
    have hread := readFrame_bytes (.plain 0x8a data) hlen rest
    rw [hop] at hread
    rw [written_ping host readFloat h]
    exact hread

/-- A masked frame and one without a mask. -/
def twoFrames : List ClientFrame :=
  [⟨0x81, some [1, 2, 3, 4], Utf8.bytes "hello", by decide⟩, .plain 0x82 []]

theorem twoFrames_read : pumpWebsocket (twoFrames.flatMap ClientFrame.bytes ++ []) =
    [.payload (Utf8.bytes "hello"), .payload []] ++ pumpWebsocket [] :=
  (framing ⟨id, id, fun _ => "0.0", fun _ => 0⟩ fun _ => none).stream twoFrames (by decide) []

end GbfrLan.Http
