import GbfrLan.Party.Datagram

/-!
# What a send reaches

A message goes to every remote of the network. A remote without an address is passed over before
the message gets its number there, and a message that leaves no room for the header in the
receive buffer is never read.
-/
namespace GbfrLan.Party
open Lib Lib.Bytes

/-! ### Remotes without an address -/

/-- The message was taken up for retransmission, under the next guaranteed number of the remote. -/
def Endpoint.Recorded (e e' : Endpoint) (payload : Bytes) (options : UInt32) : Prop :=
  e'.tx.nextGseq = e.tx.nextGseq + 1 ∧
    ∃ p ∈ e'.tx.pending.get? e.tx.nextGseq, p.payload = payload ∧ p.options = options

instance (e e' : Endpoint) (payload : Bytes) (options : UInt32) :
    Decidable (e.Recorded e' payload options) := inferInstanceAs (Decidable (_ ∧ _))

namespace Network

variable {n : Network} {eid : String} {e : Endpoint} {payload : Bytes} {options : UInt32}

theorem get?_sendUdpAll (hudp : n.udp = true) (kind : UInt8) (payload : Bytes) (options : UInt32)
    (now : ℕ) (eid : String) :
    (n.sendUdpAll kind payload options now).1.remotes.get? eid = (n.remotes.get? eid).map fun e =>
      if e.hasAddr then (e.sendTo n.localEntity kind payload options now).1 else e := by
  unfold sendUdpAll
  simp only [hudp, Bool.not_true, Bool.false_eq_true, if_false, OrdMap.get?_mapVals]

theorem sendTo_recorded (hg : guaranteed options = true) (entity : String) (now : ℕ) :
    e.Recorded (e.sendTo entity kindMsg payload options now).1 payload options := by
  have hsend : (e.sendTo entity kindMsg payload options now).1.tx =
      (e.tx.send payload options now).1 := by simp [Endpoint.sendTo]
  unfold Endpoint.Recorded
  rw [hsend]
  simp [Sender.send, partyReliable, hg]

theorem not_recorded_self : ¬e.Recorded e payload options := by
  rintro ⟨hnext, -⟩
  simp at hnext

/-- Every remote takes the message up exactly when every remote has an address. -/
theorem sendUdpAll_recorded_iff (hudp : n.udp = true) (hg : guaranteed options = true)
    (payload : Bytes) (now : ℕ) :
    (∀ eid e, n.remotes.get? eid = some e →
        ∃ e', (n.sendUdpAll kindMsg payload options now).1.remotes.get? eid = some e' ∧
          e.Recorded e' payload options) ↔
      ∀ eid e, n.remotes.get? eid = some e → e.hasAddr = true := by
  constructor
  · intro hall eid e he
    obtain ⟨e', he', hrec⟩ := hall eid e he
    rw [get?_sendUdpAll hudp, he, Option.map_some] at he'
    cases haddr : e.hasAddr with
    | true => rfl
    | false =>
      -- The remote is passed over, so nothing of it has changed.
      obtain rfl : e = e' := by simpa [haddr] using he'
      exact absurd hrec not_recorded_self
  · intro hall eid e he
    refine ⟨(e.sendTo n.localEntity kindMsg payload options now).1, ?_, ?_⟩
    · rw [get?_sendUdpAll hudp, he, Option.map_some, if_pos (hall eid e he)]
    · exact sendTo_recorded hg n.localEntity now

/-- The guest has an address. -/
theorem sendUdpAll_recorded_guest :
    ∃ n ∈ (run Handle.step Handle.new Receiving.meetRemote).boxes.get? 1,
      n.remotes.contains "guest" = true ∧ ∀ eid e, n.remotes.get? eid = some e →
        ∃ e', (n.sendUdpAll kindMsg [7] 3 2).1.remotes.get? eid = some e' ∧ e.Recorded e' [7] 3 := by
  have hbox : ((run Handle.step Handle.new Receiving.meetRemote).boxes.get? 1).any (fun n =>
      n.udp && n.remotes.contains "guest" && n.remotes.entries.all fun x => x.2.hasAddr) = true := by
    decide +kernel
  obtain ⟨n, hget, hn⟩ := (Option.any_eq_true _ _).mp hbox
  simp only [Bool.and_eq_true] at hn
  obtain ⟨⟨hudp, hguest⟩, haddr⟩ := hn
  refine ⟨n, hget, hguest, (sendUdpAll_recorded_iff hudp (by decide) [7] 2).mpr fun eid e he => ?_⟩
  exact List.all_eq_true.mp haddr (eid, e) ((OrdMap.mem_entries_iff n.remotes eid e).mpr he)

/-- A host that meets a remote whose row at the broker has no port. -/
def meetPortless : List ShimEvent :=
  [.connect "lan" (some "host"), .createEndpoint 1 (some "host"), .start 0,
    .finish 2 (some [some (controlSc 3 1 none), some (controlSc 10 1 none)]),
    .ensureRemote 1 "guest" "10.0.0.2" 0 true]

theorem meetPortless_passed_over :
    let h := run Handle.step Handle.new meetPortless
    (h.boxes.get? 1).map (fun n => (n.udp, (n.remotes.get? "guest").isSome)) = some (true, true) ∧
      guaranteed 3 = true ∧
      ∀ n ∈ h.boxes.get? 1, ∀ e ∈ n.remotes.get? "guest",
        ∀ e' ∈ (n.sendUdpAll kindMsg [7] 3 1).1.remotes.get? "guest", ¬e.Recorded e' [7] 3 := by
  decide +kernel

end Network

/-! ### Sizes -/

/-- The size check of `PartyEndpointSendMessage`. -/
def sendMessageAccepts (dataLen : ℕ) : Bool := dataLen != 0 && decide (dataLen ≤ 64 * 1024)

/-- The receive buffer. -/
def recvBufLen : ℕ := 65536

/-- What the socket does with a datagram that is longer than the buffer. -/
inductive Oversize where
  | rejects
  | truncates
  deriving DecidableEq, Repr

/-- What the buffer holds after `recv_from`. -/
def recvFrom (os : Oversize) (datagram : Bytes) : Option Bytes :=
  if datagram.length ≤ recvBufLen then some datagram
  else
    match os with
    | .rejects => none
    | .truncates => some (datagram.take recvBufLen)

namespace Packet

variable {p : Packet} {netId : String}

theorem length_toBytes : (p.toBytes netId).length = 60 + p.payload.length := by
  rw [toBytes, Wire.packet_eq_layout, Wire.length_layout]
  rfl

theorem ofBytes_toBytes (hlen : p.payload.length ≤ 65536) :
    ∃ q, ofBytes (p.toBytes netId) = .ok q ∧ q.payload = p.payload := by
  have hslice : slice (p.toBytes netId) Wire.hdrLen p.payload.length = some p.payload := by
    rw [toBytes, Wire.packet_eq_layout]
    exact Wire.slice_payload
  have hparse : Wire.parse (p.toBytes netId) partyReliable =
      .ok ⟨p.kind, p.payload.length, p.options, p.seq, p.ack⟩ := by
    rw [toBytes, Wire.packet_eq_layout]
    exact Wire.parse_layout hlen
  unfold ofBytes
  rw [hparse]
  exact ⟨_, rfl, (slice_some hslice).2⟩

/-- A datagram that is longer than the buffer is not read, whatever the socket does with it. -/
theorem undecodable (hlen : p.payload.length ≤ 65536) (hlong : 65476 < p.payload.length)
    {os : Oversize} {buf : Bytes} (hbuf : recvFrom os (p.toBytes netId) = some buf) :
    ∃ e, ofBytes buf = .error e := by
  have hd : (p.toBytes netId).length = 60 + p.payload.length := length_toBytes
  have htrunc : buf = (p.toBytes netId).take recvBufLen := by
    unfold recvFrom at hbuf
    rw [if_neg (by rw [hd, recvBufLen]; omega)] at hbuf
    cases os with
    | rejects => cases hbuf
    | truncates => exact (Option.some.inj hbuf).symm
  cases hread : Wire.parse buf partyReliable with
  | error e =>
    unfold ofBytes
    rw [hread]
    exact ⟨e, rfl⟩
  | ok q =>
    -- The header is complete and tells the length of the whole payload.
    have hok := Wire.parse_ok hread
    have hword : Wire.u32le buf Wire.payloadLenOff = some (UInt32.ofNat p.payload.length) := by
      have hfull : Wire.u32le (p.toBytes netId) Wire.payloadLenOff =
          some (UInt32.ofNat p.payload.length) := by
        rw [toBytes, Wire.packet_eq_layout]
        exact Wire.u32le_payloadLen
      rw [← hfull, htrunc, Wire.u32le, Wire.u32le, slice_take (by decide)]
    have hsame : UInt32.ofNat q.payloadLen = UInt32.ofNat p.payload.length :=
      Option.some.inj (hok.payloadLen.symm.trans hword)
    have hq := hok.bound
    have hfits := hok.fits
    have hlenq : q.payloadLen = p.payload.length := by
      have hnat := congrArg UInt32.toNat hsame
      unfold Wire.maxPayload at hq
      rw [UInt32.toNat_ofNat', UInt32.toNat_ofNat', Nat.mod_eq_of_lt (by omega),
        Nat.mod_eq_of_lt (by omega)] at hnat
      exact hnat
    have hbuflen : buf.length = 65536 := by
      rw [htrunc, List.length_take, hd, recvBufLen]
      omega
    have hhdr : Wire.headerLen partyReliable = 60 := rfl
    omega

end Packet

namespace Network

variable {n : Network} {payload : Bytes} {options : UInt32}

theorem mem_sendUdpAll {eid : String} {e : Endpoint} (hudp : n.udp = true)
    (he : n.remotes.get? eid = some e) (haddr : e.hasAddr = true) (kind : UInt8) (now : ℕ) :
    (eid, (e.sendTo n.localEntity kind payload options now).2) ∈
      (n.sendUdpAll kind payload options now).2 := by
  have hmem : (eid, e) ∈ n.remotes.entries.filter fun x => x.2.hasAddr :=
    List.mem_filter.mpr ⟨(OrdMap.mem_entries_iff n.remotes eid e).mpr he, haddr⟩
  unfold sendUdpAll
  simp only [hudp, Bool.not_true, Bool.false_eq_true, if_false]
  exact List.mem_map.mpr ⟨(eid, e), hmem, rfl⟩

theorem payload_of_mem_sendUdpAll {now : ℕ} {x : String × Packet}
    (hx : x ∈ (n.sendUdpAll kindMsg payload options now).2) : x.2.payload = payload := by
  have hsend (s : Sender) : (s.send payload options now).2.payload = payload := by
    unfold Sender.send
    split_ifs <;> rfl
  unfold sendUdpAll at hx
  split_ifs at hx
  · cases hx
  · obtain ⟨y, -, rfl⟩ := List.mem_map.mp hx
    simp [Endpoint.sendTo, hsend]

/-- For a message that the export accepts: its datagram fits the receive buffer, and what the
buffer holds is read back as the message, exactly when it leaves room for the header. -/
theorem sent_message_fits_iff (os : Oversize) (hlen : sendMessageAccepts payload.length = true)
    {now : ℕ} {x : String × Packet} (hx : x ∈ (n.sendUdpAll kindMsg payload options now).2) :
    ((x.2.toBytes n.id).length ≤ recvBufLen ↔ payload.length ≤ 65476) ∧
      ((∃ buf q, recvFrom os (x.2.toBytes n.id) = some buf ∧ Packet.ofBytes buf = .ok q ∧
          q.payload = payload) ↔ payload.length ≤ 65476) := by
  have hpayload := payload_of_mem_sendUdpAll hx
  have hmax : payload.length ≤ 65536 := of_decide_eq_true (Bool.and_eq_true_iff.mp hlen).2
  have hd : (x.2.toBytes n.id).length = 60 + payload.length := by
    rw [Packet.length_toBytes, hpayload]
  have hbuf : recvBufLen = 65536 := rfl
  have hsame : x.2.payload.length = payload.length := by rw [hpayload]
  refine ⟨by omega, ?_, ?_⟩
  · rintro ⟨buf, q, hfrom, hread, -⟩
    by_contra hlong
    obtain ⟨e, herr⟩ := Packet.undecodable (by omega) (by omega) hfrom
    rw [hread] at herr
    cases herr
  · intro hroom
    obtain ⟨q, hread, hq⟩ : ∃ q, Packet.ofBytes (x.2.toBytes n.id) = .ok q ∧
        q.payload = x.2.payload := Packet.ofBytes_toBytes (by omega)
    refine ⟨x.2.toBytes n.id, q, ?_, hread, hq.trans hpayload⟩
    unfold recvFrom
    rw [if_pos (by omega)]

/-- The host can send to the guest. -/
theorem meetRemote_sends (payload : Bytes) :
    ∃ n ∈ (run Handle.step Handle.new Receiving.meetRemote).boxes.get? 1,
      ∃ x, x ∈ (n.sendUdpAll kindMsg payload 3 2).2 := by
  have hbox : ((run Handle.step Handle.new Receiving.meetRemote).boxes.get? 1).any (fun n =>
      n.udp && (n.remotes.get? "guest").any Endpoint.hasAddr) = true := by decide +kernel
  obtain ⟨n, hget, hn⟩ := (Option.any_eq_true _ _).mp hbox
  obtain ⟨hudp, hguest⟩ := Bool.and_eq_true_iff.mp hn
  obtain ⟨e, he, haddr⟩ := (Option.any_eq_true _ _).mp hguest
  exact ⟨n, hget, _, mem_sendUdpAll hudp he haddr kindMsg 2⟩

/-- A message of one byte to the guest. -/
theorem sent_message_fits_byte :
    ∃ n ∈ (run Handle.step Handle.new Receiving.meetRemote).boxes.get? 1,
      ∃ x ∈ (n.sendUdpAll kindMsg [7] 3 2).2, ∃ buf q,
        recvFrom .rejects (x.2.toBytes n.id) = some buf ∧ Packet.ofBytes buf = .ok q ∧
          q.payload = [7] := by
  obtain ⟨n, hget, x, hx⟩ := meetRemote_sends [7]
  exact ⟨n, hget, x, hx, (sent_message_fits_iff .rejects (by decide) hx).2.mpr (by decide)⟩

/-- The largest message that the export accepts is lost on its way to the guest. -/
theorem largest_message_lost :
    let payload : Bytes := List.replicate 65536 7
    sendMessageAccepts payload.length = true ∧
      ∃ n ∈ (run Handle.step Handle.new Receiving.meetRemote).boxes.get? 1,
        ∃ x ∈ (n.sendUdpAll kindMsg payload 3 2).2, recvBufLen < (x.2.toBytes n.id).length ∧
          ∀ os buf, recvFrom os (x.2.toBytes n.id) = some buf →
            ∃ e, Packet.ofBytes buf = .error e := by
  intro payload
  have hlen : payload.length = 65536 := List.length_replicate
  obtain ⟨n, hget, x, hx⟩ := meetRemote_sends payload
  have hpayload := payload_of_mem_sendUdpAll hx
  refine ⟨by rw [hlen]; rfl, n, hget, x, hx, ?_, fun os buf hfrom => ?_⟩
  · rw [Packet.length_toBytes, hpayload, hlen]
    decide
  · apply Packet.undecodable _ _ hfrom
    · rw [hpayload, hlen]
    · rw [hpayload, hlen]
      decide

end Network

end GbfrLan.Party
