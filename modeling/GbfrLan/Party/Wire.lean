import GbfrLan.Lib.Bytes
import GbfrLan.Lib.Utf8
import GbfrLan.Party.Reliable

/-!
# The datagrams on the wire

A header with fields at fixed offsets and the payload behind it. The build with reliable delivery
has version 3 and a cumulative ack behind the sequence number, the older one has version 2 and the
payload in that place.
-/
namespace GbfrLan.Party.Wire
open Lib Lib.Bytes

/-- The letters `GBFR`. -/
def magic : Bytes := [0x47, 0x42, 0x46, 0x52]

def hdrLen : ℕ := 60
def hdrLenLegacy : ℕ := 56
def hdrVersion : UInt8 := 3
def hdrVersionLegacy : UInt8 := 2
def hdrAckOff : ℕ := 56
def netIdOff : ℕ := 8
def netIdLen : ℕ := 16
def entOff : ℕ := 24

/-- The entity id and a terminating zero. -/
def entLen : ℕ := 21

def payloadLenOff : ℕ := 44
def optionsOff : ℕ := 48
def seqOff : ℕ := 52

/-- Bound on the payload of a datagram. -/
def maxPayload : ℕ := 64 * 1024

inductive ParseError where
  | tooShort
  | badMagic
  | badVersion
  | badPayloadLen
  deriving DecidableEq, Repr

structure Parsed where
  kind : UInt8
  payloadLen : ℕ
  options : UInt32
  seq : UInt32
  ack : UInt32
  deriving DecidableEq, Repr

def headerLen (reliable : Bool) : ℕ := if reliable then hdrLen else hdrLenLegacy

def version (reliable : Bool) : UInt8 := if reliable then hdrVersion else hdrVersionLegacy

/-- Build one datagram. The ids are cut off at their fields. -/
def packet (netId : String) (localEnt : Bytes) (kind : UInt8) (options seq ack : UInt32)
    (payload : Bytes) (reliable : Bool) : Bytes :=
  let hdr := headerLen reliable
  let pkt := zeros (hdr + payload.length)
  let pkt := write pkt 0 magic
  let pkt := pkt.set 4 kind
  let pkt := pkt.set 5 (version reliable)
  let pkt := write pkt netIdOff ((Utf8.bytes netId).take netIdLen)
  let pkt := write pkt entOff (localEnt.take (entLen - 1))
  let pkt := write pkt payloadLenOff (le32 (UInt32.ofNat payload.length))
  let pkt := write pkt optionsOff (le32 options)
  let pkt := write pkt seqOff (le32 seq)
  let pkt := if reliable then write pkt hdrAckOff (le32 ack) else pkt
  write pkt hdr payload

def u32le (data : Bytes) (off : ℕ) : Option UInt32 := (slice data off 4).map ofLe32

/-- Decode the header of a datagram. -/
def parse (buf : Bytes) (reliable : Bool) : Except ParseError Parsed :=
  let hdr := headerLen reliable
  if buf.length < hdr then .error .tooShort
  else if buf.take 4 ≠ magic then .error .badMagic
  else if buf.getD 5 0 ≠ version reliable then .error .badVersion
  else
    match u32le buf payloadLenOff with
    | none => .error .tooShort
    | some n =>
        let payloadLen := n.toNat
        if maxPayload < payloadLen ∨ buf.length < hdr + payloadLen then .error .badPayloadLen
        else .ok {
          kind := buf.getD 4 0
          payloadLen := payloadLen
          options := (u32le buf optionsOff).getD 0
          seq := (u32le buf seqOff).getD 0
          ack := if reliable then (u32le buf hdrAckOff).getD 0 else 0 }

/-- A text field up to its first zero, read as UTF-8. -/
def field (buf : Bytes) (off len : ℕ) : String :=
  Utf8.decodeLossy (untilNul ((slice buf off len).getD []))

def entity (buf : Bytes) : String := field buf entOff (entLen - 1)

def networkId (buf : Bytes) : String := field buf netIdOff netIdLen

/-! ### The fields in a row -/

/-- The ack field, which the older version does not have. -/
def ackField (reliable : Bool) (ack : UInt32) : Bytes := if reliable then le32 ack else []

/-- The header and the payload as one row of fields. -/
def layout (netId : String) (localEnt : Bytes) (kind : UInt8) (options seq ack : UInt32)
    (payload : Bytes) (reliable : Bool) : Bytes :=
  magic ++ ([kind] ++ ([version reliable] ++ (zeros 2 ++ (pad netIdLen (Utf8.bytes netId) ++
    (pad (entLen - 1) localEnt ++ (le32 (UInt32.ofNat payload.length) ++ (le32 options ++
      (le32 seq ++ (ackField reliable ack ++ payload)))))))))

/-- What an accepted buffer looks like. -/
structure Accepted (buf : Bytes) (reliable : Bool) (p : Parsed) : Prop where
  header : headerLen reliable ≤ buf.length
  magic : buf.take 4 = magic
  version : buf.getD 5 0 = version reliable
  kind : buf.getD 4 0 = p.kind
  payloadLen : u32le buf payloadLenOff = some (UInt32.ofNat p.payloadLen)
  options : u32le buf optionsOff = some p.options
  seq : u32le buf seqOff = some p.seq
  ack : reliable = true → u32le buf hdrAckOff = some p.ack
  noAck : reliable = false → p.ack = 0
  fits : headerLen reliable + p.payloadLen ≤ buf.length
  bound : p.payloadLen ≤ maxPayload

theorem headerLen_ge (reliable : Bool) : 56 ≤ headerLen reliable := by
  cases reliable <;> decide

theorem u32le_getD {buf : Bytes} {off : ℕ} (h : off + 4 ≤ buf.length) :
    u32le buf off = some ((u32le buf off).getD 0) := by
  rw [u32le, slice, if_pos h]
  rfl

theorem parse_ok {buf : Bytes} {reliable : Bool} {p : Parsed} (hok : parse buf reliable = .ok p) :
    Accepted buf reliable p := by
  have hhdr := headerLen_ge reliable
  by_cases hshort : buf.length < headerLen reliable
  · simp [parse, hshort] at hok
  by_cases hmagic : buf.take 4 = magic
  swap
  · simp [parse, hshort, hmagic] at hok
  by_cases hversion : buf.getD 5 0 = version reliable
  swap
  · simp only [parse, if_neg hshort, hmagic, ne_eq, not_true_eq_false, if_false, hversion,
      not_false_eq_true, if_true, reduceCtorEq] at hok
  have hword {off : ℕ} (hoff : off + 4 ≤ 56) : u32le buf off = some ((u32le buf off).getD 0) :=
    u32le_getD (by omega)
  obtain ⟨n, hn⟩ : ∃ n, u32le buf payloadLenOff = some n := ⟨_, hword (by decide)⟩
  have hparse : parse buf reliable =
      if maxPayload < n.toNat ∨ buf.length < headerLen reliable + n.toNat then .error .badPayloadLen
      else .ok ⟨buf.getD 4 0, n.toNat, (u32le buf optionsOff).getD 0, (u32le buf seqOff).getD 0,
        if reliable then (u32le buf hdrAckOff).getD 0 else 0⟩ := by
    simp only [parse, if_neg hshort, hmagic, hversion, ne_eq, not_true_eq_false, if_false, hn]
  rw [hparse] at hok
  by_cases hbound : maxPayload < n.toNat ∨ buf.length < headerLen reliable + n.toNat
  · rw [if_pos hbound] at hok
    cases hok
  rw [if_neg hbound] at hok
  obtain rfl := Except.ok.inj hok
  obtain ⟨hmax, hfits⟩ := not_or.mp hbound
  refine ⟨by omega, hmagic, hversion, rfl, ?_, hword (by decide), hword (by decide), ?_, ?_,
    le_of_not_gt hfits, le_of_not_gt hmax⟩
  · rw [hn, UInt32.ofNat_toNat]
  · rintro rfl
    exact u32le_getD (le_of_not_gt hshort)
  · rintro rfl
    rfl

section
variable {netId : String} {localEnt : Bytes} {kind : UInt8} {options seq ack : UInt32}
  {payload : Bytes} {reliable : Bool}

theorem length_magic : magic.length = 4 := rfl

theorem length_ackField (reliable : Bool) (ack : UInt32) :
    (ackField reliable ack).length = headerLen reliable - 56 := by
  cases reliable <;> rfl

/-- The fields are written one behind the other. -/
theorem packet_eq_layout : packet netId localEnt kind options seq ack payload reliable =
    layout netId localEnt kind options seq ack payload reliable := by
  have hhdr := headerLen_ge reliable
  set ib := (Utf8.bytes netId).take netIdLen with hib
  set eb := localEnt.take (entLen - 1) with heb
  set len := le32 (UInt32.ofNat payload.length) with hlen
  have hiblen : ib.length ≤ 16 := by rw [hib, List.length_take]; exact min_le_left _ _
  have heblen : eb.length ≤ 20 := by rw [heb, List.length_take]; exact min_le_left _ _
  obtain ⟨k, hk⟩ : ∃ k, k = headerLen reliable - 56 + payload.length := ⟨_, rfl⟩
  have hsize : headerLen reliable + payload.length = 56 + k := by omega
  have h₁ : write (zeros (56 + k)) 0 magic = magic ++ zeros (52 + k) :=
    write_zeros (a := []) 0 (52 + k) rfl (by simp [magic]; omega)
  have h₂ : (magic ++ zeros (52 + k)).set 4 kind = magic ++ [kind] ++ zeros (51 + k) :=
    set_zeros (51 + k) rfl (by omega) kind
  obtain ⟨a₃, ha₃⟩ : ∃ a, a = magic ++ [kind] ++ [version reliable] := ⟨_, rfl⟩
  have h₃ : (magic ++ [kind] ++ zeros (51 + k)).set 5 (version reliable) = a₃ ++ zeros (50 + k) := by
    rw [ha₃]
    exact set_zeros (50 + k) rfl (by omega) (version reliable)
  have hlen₃ : a₃.length = 6 := by rw [ha₃]; rfl
  obtain ⟨a₄, ha₄⟩ : ∃ a, a = a₃ ++ (zeros 2 ++ ib) := ⟨_, rfl⟩
  have h₄ : write (a₃ ++ zeros (50 + k)) netIdOff ib = a₄ ++ zeros (48 - ib.length + k) := by
    rw [ha₄]
    exact write_zeros 2 _ (by rw [hlen₃]; rfl) (by omega)
  have hlen₄ : a₄.length = 8 + ib.length := by simp [ha₄, hlen₃]; omega
  obtain ⟨a₅, ha₅⟩ : ∃ a, a = a₄ ++ (zeros (16 - ib.length) ++ eb) := ⟨_, rfl⟩
  have h₅ : write (a₄ ++ zeros (48 - ib.length + k)) entOff eb = a₅ ++ zeros (32 - eb.length + k) := by
    rw [ha₅]
    exact write_zeros _ _ (by rw [hlen₄, entOff]; omega) (by omega)
  have hlen₅ : a₅.length = 24 + eb.length := by simp [ha₅, hlen₄]; omega
  obtain ⟨a₆, ha₆⟩ : ∃ a, a = a₅ ++ (zeros (20 - eb.length) ++ len) := ⟨_, rfl⟩
  have h₆ : write (a₅ ++ zeros (32 - eb.length + k)) payloadLenOff len = a₆ ++ zeros (8 + k) := by
    rw [ha₆]
    exact write_zeros _ _ (by rw [hlen₅, payloadLenOff]; omega) (by rw [hlen, length_le32]; omega)
  have hlen₆ : a₆.length = 48 := by simp [ha₆, hlen₅, hlen]; omega
  have h₇ : write (a₆ ++ zeros (8 + k)) optionsOff (le32 options) =
      a₆ ++ le32 options ++ zeros (4 + k) :=
    write_zeros 0 _ (by rw [hlen₆]; rfl) (by rw [length_le32]; omega)
  have h₈ : write (a₆ ++ le32 options ++ zeros (4 + k)) seqOff (le32 seq) =
      a₆ ++ le32 options ++ le32 seq ++ zeros k :=
    write_zeros 0 _ (by simp [hlen₆, seqOff]) (by rw [length_le32])
  have hrow : layout netId localEnt kind options seq ack payload reliable =
      a₆ ++ le32 options ++ le32 seq ++ (ackField reliable ack ++ payload) := by
    rw [ha₆, ha₅, ha₄, ha₃]
    simp only [layout, pad, ← hib, ← heb, ← hlen, List.append_assoc]
    rfl
  unfold packet
  simp only
  rw [hrow, hsize, h₁, h₂, h₃, h₄, h₅, h₆, h₇, h₈]
  obtain ⟨a₈, ha₈⟩ : ∃ a, a = a₆ ++ le32 options ++ le32 seq := ⟨_, rfl⟩
  have hlen₈ : a₈.length = 56 := by simp [ha₈, hlen₆]
  rw [← ha₈]
  have hend (a : Bytes) : a ++ (zeros 0 ++ payload) ++ zeros 0 = a ++ payload := by simp [zeros]
  cases reliable with
  | false =>
    have hpayload : write (a₈ ++ zeros k) 56 payload = a₈ ++ (zeros 0 ++ payload) ++ zeros 0 :=
      write_zeros 0 0 (by omega) (by rw [hk, headerLen]; simp [hdrLenLegacy])
    rw [hend] at hpayload
    exact hpayload
  | true =>
    have hack : write (a₈ ++ zeros k) 56 (le32 ack) = a₈ ++ le32 ack ++ zeros payload.length :=
      write_zeros 0 _ (by omega) (by rw [hk, headerLen]; simp [hdrLen])
    have hpayload : write (a₈ ++ le32 ack ++ zeros payload.length) 60 payload =
        a₈ ++ le32 ack ++ (zeros 0 ++ payload) ++ zeros 0 :=
      write_zeros 0 0 (by simp [hlen₈]) (by omega)
    rw [hend] at hpayload
    simp only [if_true]
    rw [hdrAckOff, hack]
    exact hpayload.trans (by simp [ackField])

/-! ### Reading the row back -/

theorem length_layout : (layout netId localEnt kind options seq ack payload reliable).length =
    headerLen reliable + payload.length := by
  have hhdr := headerLen_ge reliable
  simp only [layout, List.length_append, length_magic, List.length_singleton, length_zeros,
    length_pad, length_le32, length_ackField, netIdLen, entLen]
  omega

theorem layout_take : (layout netId localEnt kind options seq ack payload reliable).take 4 = magic := by
  rw [layout, List.take_left' length_magic]

theorem layout_kind :
    (layout netId localEnt kind options seq ack payload reliable).getD 4 0 = kind := rfl

theorem layout_version :
    (layout netId localEnt kind options seq ack payload reliable).getD 5 0 = version reliable := rfl

/-- The part from the network id on. -/
theorem slice_ids {off len : ℕ} (hoff : 8 ≤ off) :
    slice (layout netId localEnt kind options seq ack payload reliable) off len =
      slice (pad netIdLen (Utf8.bytes netId) ++ (pad (entLen - 1) localEnt ++
        (le32 (UInt32.ofNat payload.length) ++ (le32 options ++ (le32 seq ++
          (ackField reliable ack ++ payload)))))) (off - 8) len := by
  unfold layout
  rw [slice_skip length_magic (by omega), slice_skip List.length_singleton (by omega),
    slice_skip List.length_singleton (by omega), slice_skip (length_zeros 2) (by omega)]
  rfl

/-- The part from the payload length on. -/
theorem slice_words {off len : ℕ} (hoff : 44 ≤ off) :
    slice (layout netId localEnt kind options seq ack payload reliable) off len =
      slice (le32 (UInt32.ofNat payload.length) ++ (le32 options ++ (le32 seq ++
        (ackField reliable ack ++ payload)))) (off - 44) len := by
  have hnet : (pad netIdLen (Utf8.bytes netId)).length = 16 := length_pad netIdLen _
  have hent : (pad (entLen - 1) localEnt).length = 20 := length_pad (entLen - 1) _
  rw [slice_ids (by omega), slice_skip hnet (by omega),
    slice_skip hent (by omega)]
  rfl

theorem field_pad {text : String} {bs : Bytes} {n : ℕ} (hbs : bs = Utf8.bytes text)
    (hnul : 0 ∉ bs) (hlen : bs.length ≤ n) :
    Utf8.decodeLossy (untilNul (pad n bs)) = text := by
  rw [untilNul_pad hlen hnul, hbs, Utf8.decodeLossy_bytes]

theorem networkId_layout (hnul : 0 ∉ Utf8.bytes netId) (hlen : (Utf8.bytes netId).length ≤ 16) :
    networkId (layout netId localEnt kind options seq ack payload reliable) = netId := by
  have hslice : slice (layout netId localEnt kind options seq ack payload reliable) netIdOff
      netIdLen = some (pad netIdLen (Utf8.bytes netId)) := by
    rw [slice_ids (by decide)]
    exact slice_head (length_pad netIdLen _)
  rw [networkId, field, hslice]
  exact field_pad rfl hnul hlen

theorem entity_layout {ent : String} (hent : localEnt = Utf8.bytes ent) (hnul : 0 ∉ localEnt)
    (hlen : localEnt.length ≤ 20) :
    entity (layout netId localEnt kind options seq ack payload reliable) = ent := by
  have hslice : slice (layout netId localEnt kind options seq ack payload reliable) entOff
      (entLen - 1) = some (pad (entLen - 1) localEnt) := by
    rw [slice_ids (by decide), slice_skip (length_pad netIdLen _) (by decide)]
    exact slice_head (length_pad (entLen - 1) _)
  rw [entity, field, hslice]
  exact field_pad hent hnul hlen

theorem slice_payload : slice (layout netId localEnt kind options seq ack payload reliable)
    (headerLen reliable) payload.length = some payload := by
  have hhdr := headerLen_ge reliable
  have hack := length_ackField reliable ack
  have hrest : slice payload 0 payload.length = some payload := by
    rw [slice, if_pos (by omega), List.drop_zero, List.take_length]
  rw [slice_words (by omega), slice_skip (length_le32 _) (by omega),
    slice_skip (length_le32 _) (by omega), slice_skip (length_le32 _) (by omega),
    slice_skip hack (by omega)]
  rw [show headerLen reliable - 44 - 4 - 4 - 4 - (headerLen reliable - 56) = 0 by omega, hrest]

theorem u32le_payloadLen : u32le (layout netId localEnt kind options seq ack payload reliable)
    payloadLenOff = some (UInt32.ofNat payload.length) := by
  rw [u32le, payloadLenOff, slice_words (by omega), slice_head (length_le32 _),
    Option.map_some, ofLe32_le32]

theorem u32le_options : u32le (layout netId localEnt kind options seq ack payload reliable)
    optionsOff = some options := by
  rw [u32le, optionsOff, slice_words (by omega),
    slice_skip (length_le32 _) (by omega), slice_head (length_le32 _), Option.map_some, ofLe32_le32]

theorem u32le_seq : u32le (layout netId localEnt kind options seq ack payload reliable)
    seqOff = some seq := by
  rw [u32le, seqOff, slice_words (by omega),
    slice_skip (length_le32 _) (by omega), slice_skip (length_le32 _) (by omega),
    slice_head (length_le32 _), Option.map_some, ofLe32_le32]

theorem u32le_ack : u32le (layout netId localEnt kind options seq ack payload true)
    hdrAckOff = some ack := by
  rw [u32le, hdrAckOff, slice_words (by omega),
    slice_skip (length_le32 _) (by omega), slice_skip (length_le32 _) (by omega),
    slice_skip (length_le32 _) (by omega), ackField, if_pos rfl, slice_head (length_le32 _),
    Option.map_some, ofLe32_le32]

theorem parse_layout (hlen : payload.length ≤ maxPayload) :
    parse (layout netId localEnt kind options seq ack payload reliable) reliable =
      .ok ⟨kind, payload.length, options, seq, if reliable then ack else 0⟩ := by
  have hsize : (UInt32.ofNat payload.length).toNat = payload.length := by
    rw [UInt32.toNat_ofNat', Nat.mod_eq_of_lt]
    unfold maxPayload at hlen
    omega
  have hack : (if reliable = true then (u32le (layout netId localEnt kind options seq ack payload
      reliable) hdrAckOff).getD 0 else 0) = if reliable then ack else 0 := by
    cases reliable with
    | false => rfl
    | true => rw [u32le_ack]; rfl
  unfold parse
  simp only
  rw [length_layout, if_neg (by omega), layout_take, if_neg (by simp), layout_version,
    if_neg (by simp), u32le_payloadLen]
  simp only [hsize]
  rw [if_neg (by omega), layout_kind, u32le_options, u32le_seq, hack]
  rfl

/-- The version byte tells the two layouts apart. -/
theorem parse_other (p : Parsed) :
    parse (layout netId localEnt kind options seq ack payload reliable) (!reliable) ≠ .ok p := by
  have hversion : version reliable ≠ version (!reliable) := by
    cases reliable <;> decide
  intro hok
  have hread := (parse_ok hok).version
  rw [layout_version] at hread
  exact hversion hread

/-! ### Accepted buffers -/

/-- The row of an accepted buffer: its fields are the decoded ones. -/
theorem layout_of_parse {buf : Bytes} {p : Parsed} (hok : parse buf reliable = .ok p)
    {netId ent : String} (hreserved : slice buf 6 2 = some (zeros 2))
    (hnet : slice buf 8 16 = some (pad 16 (Utf8.bytes netId)))
    (hent : slice buf 24 20 = some (pad 20 (Utf8.bytes ent)))
    (hlen : buf.length = headerLen reliable + p.payloadLen) :
    layout netId (Utf8.bytes ent) p.kind p.options p.seq p.ack (buf.drop (headerLen reliable))
      reliable = buf := by
  have hhdr := headerLen_ge reliable
  have h := parse_ok hok
  have hpayload : (buf.drop (headerLen reliable)).length = p.payloadLen := by
    rw [List.length_drop, hlen]
    omega
  have hmagic : slice buf 0 4 = some magic := by
    rw [slice, if_pos (by omega), List.drop_zero, h.magic]
  have hkind : slice buf 4 1 = some [p.kind] := by
    rw [slice_one (by omega), h.kind]
  have hversion : slice buf 5 1 = some [version reliable] := by
    rw [slice_one (by omega), h.version]
  have hword {off : ℕ} {v : UInt32} (hv : u32le buf off = some v) : slice buf off 4 = some (le32 v) := by
    obtain ⟨d, hd, rfl⟩ := Option.map_eq_some_iff.mp hv
    rw [hd, le32_ofLe32 (slice_length hd)]
  have hsize : slice buf 44 4 = some (le32 (UInt32.ofNat p.payloadLen)) := hword h.payloadLen
  have hoptions : slice buf 48 4 = some (le32 p.options) := hword h.options
  have hseq : slice buf 52 4 = some (le32 p.seq) := hword h.seq
  have hack : buf.drop 56 = ackField reliable p.ack ++ buf.drop (headerLen reliable) := by
    cases reliable with
    | false => rfl
    | true => exact drop_eq_slice (hword (h.ack rfl))
  calc layout netId (Utf8.bytes ent) p.kind p.options p.seq p.ack (buf.drop (headerLen reliable))
        reliable
      = buf.drop 0 := by
        rw [drop_eq_slice hmagic, drop_eq_slice hkind, drop_eq_slice hversion,
          drop_eq_slice hreserved, drop_eq_slice hnet, drop_eq_slice hent, drop_eq_slice hsize,
          drop_eq_slice hoptions, drop_eq_slice hseq, hack, layout, hpayload]
        rfl
    _ = buf := rfl

end

/-- Both directions of the codec, for both versions. A packet of at most 65536 bytes of payload is
read back with its fields and its payload, its ids too when they fit, and never under the other
version. A buffer that is read has its payload, and when its reserved bytes are zero, its id fields
padded texts and its length exact, it is the packet of what was read. -/
theorem codec_round_trip (reliable : Bool) :
    (∀ (netId : String) (localEnt : Bytes) (kind : UInt8) (options seq ack : UInt32)
        (payload : Bytes), payload.length ≤ 65536 →
      let buf := packet netId localEnt kind options seq ack payload reliable
      parse buf reliable =
          .ok ⟨kind, payload.length, options, seq, if reliable then ack else 0⟩ ∧
        slice buf (headerLen reliable) payload.length = some payload ∧
        (∀ ent, localEnt = Utf8.bytes ent → 0 ∉ localEnt → localEnt.length ≤ 20 →
          entity buf = ent) ∧
        (0 ∉ Utf8.bytes netId → (Utf8.bytes netId).length ≤ 16 → networkId buf = netId) ∧
        ∃ e, parse buf (!reliable) = .error e) ∧
    ∀ (buf : Bytes) (p : Parsed), parse buf reliable = .ok p →
      headerLen reliable + p.payloadLen ≤ buf.length ∧ p.payloadLen ≤ 65536 ∧
        ∀ netId ent : String, slice buf 6 2 = some [0, 0] →
          0 ∉ Utf8.bytes netId → (Utf8.bytes netId).length ≤ 16 →
          slice buf 8 16 = some (Utf8.bytes netId ++ zeros (16 - (Utf8.bytes netId).length)) →
          0 ∉ Utf8.bytes ent → (Utf8.bytes ent).length ≤ 20 →
          slice buf 24 20 = some (Utf8.bytes ent ++ zeros (20 - (Utf8.bytes ent).length)) →
          buf.length = headerLen reliable + p.payloadLen →
          packet (networkId buf) (Utf8.bytes (entity buf)) p.kind p.options p.seq p.ack
            (buf.drop (headerLen reliable)) reliable = buf := by
  constructor
  · intro netId localEnt kind options seq ack payload hlen buf
    have hbuf : buf = layout netId localEnt kind options seq ack payload reliable :=
      packet_eq_layout
    rw [hbuf]
    refine ⟨?_, ?_, ?_, ?_, ?_⟩
    · exact parse_layout hlen
    · exact slice_payload
    · intro ent hent hnul hfit
      exact entity_layout hent hnul hfit
    · exact networkId_layout
    · cases hother : parse (layout netId localEnt kind options seq ack payload reliable)
          (!reliable) with
      | error e => exact ⟨e, rfl⟩
      | ok p => exact absurd hother (parse_other p)
  · intro buf p hok
    have h := parse_ok hok
    refine ⟨h.fits, h.bound, ?_⟩
    intro netId ent hreserved hnul hfit hnet hnul' hfit' hent hlen
    rw [← pad_of_le hfit] at hnet
    rw [← pad_of_le hfit'] at hent
    have hrow := layout_of_parse hok hreserved hnet hent hlen
    have hnetId : networkId buf = netId := by
      rw [← hrow]
      exact networkId_layout hnul hfit
    have hentity : entity buf = ent := by
      rw [← hrow]
      exact entity_layout rfl hnul' hfit'
    rw [hnetId, hentity, packet_eq_layout]
    exact hrow

/-- A message of three bytes, read back and built again. -/
theorem codec_round_trip_message :
    let buf := packet "net" (Utf8.bytes "guest") 2 3 42 41 [1, 2, 3] true
    parse buf true = .ok ⟨2, 3, 3, 42, 41⟩ ∧ entity buf = "guest" ∧ networkId buf = "net" ∧
      packet (networkId buf) (Utf8.bytes (entity buf)) 2 3 42 41 (buf.drop 60) true = buf := by
  intro buf
  obtain ⟨hread, -, hent, hnet, -⟩ := (codec_round_trip true).1 "net" (Utf8.bytes "guest") 2 3 42 41
    [1, 2, 3] (by decide)
  refine ⟨hread, hent "guest" rfl (by decide) (by decide), hnet (by decide) (by decide), ?_⟩
  exact ((codec_round_trip true).2 buf _ hread).2.2 "net" "guest" (by decide +kernel)
    (by decide) (by decide) (by decide +kernel) (by decide) (by decide) (by decide +kernel)
    (by decide +kernel)

end GbfrLan.Party.Wire
