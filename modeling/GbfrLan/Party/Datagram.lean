import GbfrLan.Party.Stranger
import GbfrLan.Party.Wire

/-!
# Datagrams on the socket of a network

The receive path reads a datagram for the network whose socket it came in on. It takes the sender
from the header, but not the network id. So what a datagram of another session can change is
decided by its sender alone.
-/
namespace GbfrLan.Party
open Lib Lib.Bytes

/-- The datagram of a packet, in the build with reliable delivery. -/
def Packet.toBytes (netId : String) (p : Packet) : Bytes :=
  Wire.packet netId (Utf8.bytes p.entity) p.kind p.options p.seq p.ack p.payload partyReliable

/-- What the receive path reads of a datagram. -/
def Packet.ofBytes (buf : Bytes) : Except Wire.ParseError Packet :=
  match Wire.parse buf partyReliable with
  | .error e => .error e
  | .ok p => .ok ⟨Wire.entity buf, p.kind, p.options, p.seq, p.ack,
      (buf.drop Wire.hdrLen).take p.payloadLen⟩

namespace Handle

/-- The receive path for one datagram as it comes from the socket: what does not parse is dropped. -/
def recvBytes (h : Handle) (net : ℕ) (buf : Bytes) (srcIp : String) (srcPort : UInt16) (now : ℕ) :
    Handle :=
  match Packet.ofBytes buf with
  | .error _ => h
  | .ok p => h.recvDatagram net p srcIp srcPort now

end Handle

/-- The two differ at most in the network id. -/
structure SameButNetId (buf buf' : Bytes) : Prop where
  before : buf'.take Wire.netIdOff = buf.take Wire.netIdOff
  behind : buf'.drop Wire.entOff = buf.drop Wire.entOff
  length : buf'.length = buf.length

namespace SameButNetId

variable {buf buf' : Bytes}

theorem getD (h : SameButNetId buf buf') {i : ℕ} (hi : i < 8) : buf'.getD i 0 = buf.getD i 0 := by
  have hread (b : Bytes) : b.getD i 0 = (b.take 8).getD i 0 := by
    simp [List.getD, hi]
  have hbefore : buf'.take 8 = buf.take 8 := h.before
  rw [hread buf', hread buf, hbefore]

theorem slice_eq (h : SameButNetId buf buf') {off : ℕ} (hoff : 24 ≤ off) (len : ℕ) :
    slice buf' off len = slice buf off len := by
  have hbehind : buf'.drop 24 = buf.drop 24 := h.behind
  have hdrop (b : Bytes) : b.drop off = (b.drop 24).drop (off - 24) := by
    rw [List.drop_drop]
    congr 1
    omega
  unfold slice
  rw [h.length, hdrop buf', hdrop buf, hbehind]

theorem parse_eq (h : SameButNetId buf buf') (reliable : Bool) :
    Wire.parse buf' reliable = Wire.parse buf reliable := by
  have hmagic : buf'.take 4 = buf.take 4 := by
    have hbefore : buf'.take 8 = buf.take 8 := h.before
    have htake (b : Bytes) : b.take 4 = (b.take 8).take 4 := by rw [List.take_take]; rfl
    rw [htake buf', htake buf, hbefore]
  have hword (off : ℕ) (hoff : 24 ≤ off) : Wire.u32le buf' off = Wire.u32le buf off := by
    rw [Wire.u32le, Wire.u32le, h.slice_eq hoff]
  unfold Wire.parse
  rw [h.length, hmagic, h.getD (i := 5) (by omega), h.getD (i := 4) (by omega),
    hword Wire.payloadLenOff (by decide), hword Wire.optionsOff (by decide),
    hword Wire.seqOff (by decide), hword Wire.hdrAckOff (by decide)]

theorem ofBytes_eq (h : SameButNetId buf buf') : Packet.ofBytes buf' = Packet.ofBytes buf := by
  have hentity : Wire.entity buf' = Wire.entity buf := by
    rw [Wire.entity, Wire.entity, Wire.field, Wire.field, h.slice_eq (by decide)]
  have hpayload : buf'.drop Wire.hdrLen = buf.drop Wire.hdrLen := by
    have hbehind : buf'.drop 24 = buf.drop 24 := h.behind
    have hdrop (b : Bytes) : b.drop 60 = (b.drop 24).drop 36 := by rw [List.drop_drop]
    rw [Wire.hdrLen, hdrop buf', hdrop buf, hbehind]
  unfold Packet.ofBytes
  rw [h.parse_eq, hentity, hpayload]

end SameButNetId

namespace Handle

variable {h : Handle} {net : ℕ} {n : Network} {p : Packet}

/-- A datagram of a sender without an endpoint. -/
theorem recvDatagram_unregistered (hget : h.boxes.get? net = some n)
    (hnone : n.remotes.contains p.entity = false) (srcIp : String) (srcPort : UInt16) (now : ℕ) :
    (h.recvDatagram net p srcIp srcPort now).pending = h.pending ∧
      ∃ n', (h.recvDatagram net p srcIp srcPort now).boxes.get? net = some n' ∧
        n'.remotes = n.remotes ∧
        n'.pendingRx = if n.udp = true ∧ p.kind = kindMsg then (n.bufferFrame p.frame).pendingRx
          else n.pendingRx := by
  cases hudp : n.udp with
  | false =>
    rw [recvDatagram_closed (Or.inr ⟨n, hget, hudp⟩)]
    exact ⟨rfl, n, hget, rfl, by simp⟩
  | true =>
    have hnoted := Network.noted_of_unregistered srcIp srcPort hnone
    have hrx : (n.noted p srcIp srcPort).pendingRx = n.pendingRx := Network.noted_pendingRx
    have hremotes : (n.noted p srcIp srcPort).remotes = n.remotes := by rw [hnoted]; rfl
    by_cases hk : p.kind = kindMsg
    · have hr : n.ready p.entity = false := by
        rw [Network.ready, hnone]
        rfl
      rw [recvDatagram_unready hget hudp hk hr]
      refine ⟨rfl, _, (OrdMap.get?_insert _ _ _ _).trans (if_pos rfl), hremotes, ?_⟩
      rw [if_pos ⟨rfl, hk⟩]
      simp only [Network.bufferFrame, hrx]
    · rw [recvDatagram_other hget hudp hk]
      refine ⟨rfl, _, (OrdMap.get?_insert _ _ _ _).trans (if_pos rfl), hremotes, ?_⟩
      rw [if_neg (by simp [hk])]
      exact hrx

/-- The network id of a datagram plays no part. What does not parse changes nothing, and a datagram
of a sender that is not registered leaves the endpoints and the queue for the title alone: at most
its frame comes to wait. -/
theorem recvBytes_isolation (h : Handle) (net : ℕ) (buf : Bytes) (srcIp : String)
    (srcPort : UInt16) (now : ℕ) :
    (∀ buf', SameButNetId buf buf' →
        h.recvBytes net buf' srcIp srcPort now = h.recvBytes net buf srcIp srcPort now) ∧
      (∀ e, Wire.parse buf partyReliable = .error e → h.recvBytes net buf srcIp srcPort now = h) ∧
      ∀ n p, h.boxes.get? net = some n → Packet.ofBytes buf = .ok p →
        n.remotes.contains p.entity = false →
        (h.recvBytes net buf srcIp srcPort now).pending = h.pending ∧
          ∃ n', (h.recvBytes net buf srcIp srcPort now).boxes.get? net = some n' ∧
            n'.remotes = n.remotes ∧
            n'.pendingRx = if n.udp = true ∧ p.kind = kindMsg then
                (n.bufferFrame p.frame).pendingRx else n.pendingRx := by
  refine ⟨fun buf' hsame => ?_, fun e herr => ?_, fun n p hget hread hnone => ?_⟩
  · unfold recvBytes
    rw [hsame.ofBytes_eq]
  · unfold recvBytes Packet.ofBytes
    rw [herr]
  · unfold recvBytes
    rw [hread]
    exact recvDatagram_unregistered hget hnone srcIp srcPort now

/-- A late message of somebody who is not in this session. -/
theorem recvBytes_isolation_late :
    let h := run Handle.turn Handle.new (wholes Receiving.meetRemote)
    let buf := Wire.packet "last-session" (Utf8.bytes "stranger") kindMsg 3 1 0 [7] true
    (h.recvBytes 1 buf "10.0.0.9" 27015 2).pending = h.pending := by
  intro h buf
  have hread : Packet.ofBytes buf = .ok ⟨"stranger", kindMsg, 3, 1, 0, [7]⟩ := by decide +kernel
  have hbox : (h.boxes.get? 1).isSome = true := by decide +kernel
  have hnone : ∀ n ∈ h.boxes.get? 1, n.remotes.contains "stranger" = false := by decide +kernel
  obtain ⟨n, hget⟩ := Option.isSome_iff_exists.mp hbox
  exact ((recvBytes_isolation h 1 buf "10.0.0.9" 27015 2).2.2 n _ hget hread (hnone n hget)).1

/-- A message with the id of another network is handed to the title. -/
theorem foreign_message_heard :
    let h := run Handle.turn Handle.new (wholes Receiving.meetRemote)
    let buf := Wire.packet "last-session" (Utf8.bytes "guest") kindMsg 3 1 0 [7] true
    (h.boxes.get? 1).map (fun n => decide (pad 16 (Utf8.bytes n.id) =
        (slice buf Wire.netIdOff Wire.netIdLen).getD [])) = some false ∧
      (h.recvBytes 1 buf "10.0.0.2" 27015 2).pending ≠ h.pending := by
  decide +kernel

end Handle

end GbfrLan.Party
