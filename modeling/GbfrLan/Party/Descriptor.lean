import GbfrLan.Json.Read
import GbfrLan.Lib.Bytes
import GbfrLan.Lib.Digits
import GbfrLan.Lib.Utf8

/-!
# Network descriptors

A descriptor is a record of three byte fields: the id of the network, a region, and a blob with the
address that the host advertises. It travels through the lobby as the text `LAN1.<id>.<address>`
with the address as eight hexadecimal digits, which other machines read back.
-/
namespace GbfrLan.Party
open Lib Lib.Bytes Json.Read

def success : UInt32 := 0
def errFail : UInt32 := 0x80004005

def identLen : ℕ := 37
def regionLen : ℕ := 20
def opaqueLen : ℕ := 300

/-- A serialized descriptor is shorter than this. -/
def serializedMax : ℕ := 449

/-- The bytes after which `read_cstr` stops. -/
def readCap : ℕ := 4096

/-- `read_cstr` on the memory from a pointer on; a null pointer is an empty string. -/
def readCstr (mem : Option (List UInt8)) : String :=
  Utf8.decodeLossy (untilNul ((mem.getD []).take readCap))

/-! ### Addresses -/

/-- `[u8; 4]`. -/
structure Octets where
  a : UInt8
  b : UInt8
  c : UInt8
  d : UInt8
  deriving DecidableEq, Repr

namespace Octets

def bytes (ip : Octets) : List UInt8 := [ip.a, ip.b, ip.c, ip.d]

/-- The bytes of a word, the highest one first. -/
def ofWord (n : ℕ) : Octets :=
  ⟨UInt8.ofNat (n / 2 ^ 24), UInt8.ofNat (n / 2 ^ 16), UInt8.ofNat (n / 2 ^ 8), UInt8.ofNat n⟩

end Octets

/-- So many lower-case hexadecimal digits of a number that fits. -/
def hexFixed (k n : ℕ) : List Char := (Digits.toDigits 16 k n).reverse.map Nat.digitChar

/-- The address as two digits for each byte. -/
def Octets.hex (ip : Octets) : List Char := ip.bytes.flatMap fun b => hexFixed 2 b.toNat

/-- The number that hexadecimal digits stand for. -/
def hexValue (cs : List Char) : ℕ := Nat.ofDigits 16 (cs.filterMap hexDigit).reverse

def isHex (c : Char) : Bool := (hexDigit c).isSome

/-- The digits behind a plus sign, which there may be. -/
def unsigned : List Char → List Char
  | [] => []
  | c :: cs => if c = '+' then cs else c :: cs

/-- `u32::from_str_radix` in base 16. -/
def fromStrRadix16 (cs : List Char) : Option ℕ :=
  let ds := unsigned cs
  if ds = [] ∨ ¬ds.all isHex = true then none
  else (some (hexValue ds)).filter fun n => decide (n < 2 ^ 32)

/-! ### The text -/

def lan1 : List Char := "LAN1.".toList

/-- The parts of a text between its dots, after the optional mark at its front. -/
def lan1Parts (raw : String) : List (List Char) :=
  ((Text.stripPrefix lan1 raw.toList).getD raw.toList).splitOn '.'

def parseLan1 (raw : String) : String × Option Octets :=
  let parts := lan1Parts raw
  let id := parts.headD []
  let ip := (parts[1]?).bind fun h =>
    if Utf8.size h ≠ 8 then none
    else (fromStrRadix16 h).map Octets.ofWord
  (String.ofList id, ip)

/-! ### The record -/

structure Descriptor where
  identifier : List UInt8
  region : List UInt8
  blob : List UInt8
  identifier_length : identifier.length = identLen
  region_length : region.length = regionLen
  blob_length : blob.length = opaqueLen
  deriving DecidableEq

namespace Descriptor

/-- All bytes zero. -/
def zero : Descriptor :=
  ⟨zeros identLen, zeros regionLen, zeros opaqueLen, length_zeros _, length_zeros _, length_zeros _⟩

/-- `Descriptor::new`: the id is cut off in front of the last byte of its field. -/
def new (id : String) : Descriptor where
  identifier := pad identLen ((Utf8.bytes id).take (identLen - 1))
  region := pad regionLen (Utf8.bytes "lan")
  blob := zeros opaqueLen
  identifier_length := length_pad _ _
  region_length := length_pad _ _
  blob_length := length_zeros _

def idStr (d : Descriptor) : String :=
  let n := (d.identifier.findIdx? (· == 0)).getD (identLen - 1)
  Utf8.decodeLossy (d.identifier.take n)

def setAdvertIp (d : Descriptor) (ip : Octets) : Descriptor where
  identifier := d.identifier
  region := d.region
  blob := write d.blob 2 ip.bytes
  identifier_length := d.identifier_length
  region_length := d.region_length
  blob_length := by
    have hlen := d.blob_length
    have hfour : ip.bytes.length = 4 := rfl
    rw [write, List.length_append, List.length_append, List.length_take, List.length_drop, hfour, hlen]
    rfl

def advertIp (d : Descriptor) : Option Octets :=
  let ip : Octets := ⟨d.blob.getD 2 0, d.blob.getD 3 0, d.blob.getD 4 0, d.blob.getD 5 0⟩
  if ip = ⟨0, 0, 0, 0⟩ ∨ ip.a = 127 then none else some ip

/-- The text of a descriptor; without an advertised address it is that of the machine. -/
def text (d : Descriptor) (lanIp : Octets) : String :=
  let ip := d.advertIp.getD lanIp
  String.ofList (lan1 ++ d.idStr.toList ++ '.' :: ip.hex)

end Descriptor

/-- `serialize_desc` into the memory from a pointer on: the code, and the memory after the call. -/
def serializeDesc (d : Descriptor) (lanIp : Octets) (out : Option (List UInt8)) :
    UInt32 × Option (List UInt8) :=
  match out with
  | none => (errFail, none)
  | some mem =>
      let bytes := Utf8.bytes (d.text lanIp)
      if serializedMax ≤ bytes.length then (errFail, some mem)
      else (success, some (write mem 0 (bytes ++ [0])))

/-- `deserialize_desc`: the code, and the descriptor that the pointer leads to after the call. -/
def deserializeDesc (s : Option (List UInt8)) (out : Option Descriptor) : UInt32 × Option Descriptor :=
  if s.isNone ∨ out.isNone then (errFail, out)
  else
    let raw := readCstr s
    if ¬lan1 <+: raw.toList then (errFail, some .zero)
    else
      let (id, ip) := parseLan1 raw
      let d := Descriptor.new id
      (success, some (match ip with
        | some ip => d.setAdvertIp ip
        | none => d))

/-- `uuid_ident` from the clock in nanoseconds and the counter. -/
def uuidIdent (t : ℕ) (n : UInt64) : String :=
  String.ofList (hexFixed 8 (t / 2 ^ 32 % 2 ^ 32) ++ '-' :: hexFixed 4 (t / 2 ^ 16 % 2 ^ 16) ++
    '-' :: '4' :: hexFixed 3 (t % 2 ^ 12) ++ '-' :: '8' :: hexFixed 3 (n.toNat % 2 ^ 12) ++
    '-' :: hexFixed 12 ((n * 0x9e37).toNat % 2 ^ 48))

/-! ### Addresses in texts -/

theorem ascii_of_isHex {c : Char} (h : isHex c = true) : c.toNat < 0x80 := by
  obtain ⟨d, hd⟩ := Option.isSome_iff_exists.mp h
  exact ascii_of_hexDigit hd

theorem size_of_hex {cs : List Char} (h : cs.all isHex = true) : Utf8.size cs = cs.length :=
  Utf8.size_of_ascii fun c hc => ascii_of_isHex (List.all_eq_true.mp h c hc)

theorem hexValue_lt {cs : List Char} : hexValue cs < 16 ^ cs.length := by
  have hlt := Nat.ofDigits_lt_base_pow_length (b := 16) (l := (cs.filterMap hexDigit).reverse)
    (by omega) (by
      intro d hd
      obtain ⟨c, -, hc⟩ := List.mem_filterMap.mp (List.mem_reverse.mp hd)
      exact hexDigit_lt hc)
  refine hlt.trans_le (Nat.pow_le_pow_right (by omega) ?_)
  rw [List.length_reverse]
  exact List.length_filterMap_le _ _

/-- Exactly eight hexadecimal digits. -/
def EightHex (h : List Char) : Prop := h.length = 8 ∧ h.all isHex = true

/-- A plus sign and seven hexadecimal digits. -/
def SignedHex (h : List Char) : Prop := ∃ ds, h = '+' :: ds ∧ ds.length = 7 ∧ ds.all isHex = true

theorem unsigned_of_hex {cs : List Char} (h : cs.all isHex = true) : unsigned cs = cs := by
  cases cs with
  | nil => rfl
  | cons c cs =>
    rw [List.all_cons, Bool.and_eq_true] at h
    refine if_neg ?_
    rintro rfl
    exact absurd h.1 (by decide)

theorem fromStrRadix16_eq {cs : List Char} (hne : unsigned cs ≠ []) (hlen : (unsigned cs).length ≤ 8)
    (h : (unsigned cs).all isHex = true) : fromStrRadix16 cs = some (hexValue (unsigned cs)) := by
  have hlt : hexValue (unsigned cs) < 2 ^ 32 :=
    hexValue_lt.trans_le ((Nat.pow_le_pow_right (by omega) hlen).trans (by norm_num))
  unfold fromStrRadix16
  simp only
  rw [if_neg (by tauto), Option.filter_some, if_pos (by simpa using hlt)]

/-- What the reader takes besides eight digits is a plus sign and seven of them. -/
theorem fromStrRadix16_iff {h : List Char} (hsize : Utf8.size h = 8) {n : ℕ} :
    fromStrRadix16 h = some n ↔
      (EightHex h ∧ n = hexValue h) ∨ SignedHex h ∧ n = hexValue (unsigned h) := by
  constructor
  · intro hread
    unfold fromStrRadix16 at hread
    simp only at hread
    split_ifs at hread with hbad
    have hvalue := Option.some.inj (Option.filter_eq_some_iff.mp hread).1
    obtain ⟨hne, hhex⟩ := not_or.mp hbad
    rw [not_not] at hhex
    cases h with
    | nil => exact absurd rfl hne
    | cons c cs =>
      rw [unsigned] at hhex hvalue ⊢
      split_ifs at hhex hvalue ⊢ with hc
      · subst hc
        have hlen : Utf8.size ['+'] + Utf8.size cs = 8 := by
          rw [← Utf8.size_append]
          exact hsize
        rw [Utf8.size_singleton (by decide), size_of_hex hhex] at hlen
        exact .inr ⟨⟨cs, rfl, by omega, hhex⟩, hvalue.symm⟩
      · rw [size_of_hex hhex] at hsize
        exact .inl ⟨⟨hsize, hhex⟩, hvalue.symm⟩
  · rintro (⟨⟨hlen, hhex⟩, rfl⟩ | ⟨⟨ds, rfl, hlen, hhex⟩, rfl⟩)
    · have hsame := unsigned_of_hex hhex
      have hread := @fromStrRadix16_eq h
      rw [hsame] at hread
      refine hread ?_ hlen.le hhex
      rintro rfl
      cases hlen
    · refine fromStrRadix16_eq ?_ (hlen.trans_le (by omega)) hhex
      rintro hnil
      have hzero := congrArg List.length hnil
      change ds.length = 0 at hzero
      omega

/-- The address of a text is that of eight hexadecimal digits behind its id, and there is no other. -/
def AddressRight (raw : String) : Prop :=
  ∀ ip, (parseLan1 raw).2 = some ip ↔
    ∃ h, (lan1Parts raw)[1]? = some h ∧ EightHex h ∧ ip = Octets.ofWord (hexValue h)

theorem parseLan1_address_iff {raw : String} {ip : Octets} : (parseLan1 raw).2 = some ip ↔
    ∃ h, (lan1Parts raw)[1]? = some h ∧ Utf8.size h = 8 ∧
      ∃ n, fromStrRadix16 h = some n ∧ ip = Octets.ofWord n := by
  unfold parseLan1
  simp only
  rw [Option.bind_eq_some_iff]
  refine exists_congr fun h => and_congr_right fun _ => ?_
  split_ifs with hsize
  · exact ⟨nofun, fun hsome => absurd hsome.1 hsize⟩
  · rw [Option.map_eq_some_iff]
    push Not at hsize
    simp only [hsize, true_and, eq_comm]

theorem EightHex.size {h : List Char} (hh : EightHex h) : Utf8.size h = 8 := (size_of_hex hh.2).trans hh.1

/-- A text has the right address exactly when it has no signed digits behind its id. -/
theorem addressRight_iff (raw : String) :
    AddressRight raw ↔ ∀ h, (lan1Parts raw)[1]? = some h → ¬SignedHex h := by
  constructor
  · intro hright h hpart hsigned
    obtain ⟨ds, rfl, hlen, hhex⟩ := id hsigned
    have hsize : Utf8.size ('+' :: ds) = 8 := by
      rw [← List.singleton_append, Utf8.size_append, Utf8.size_singleton (by decide), size_of_hex hhex]
      omega
    have hread := (fromStrRadix16_iff hsize).mpr (.inr ⟨hsigned, rfl⟩)
    obtain ⟨h', hpart', ⟨-, hhex'⟩, -⟩ :=
      (hright _).mp (parseLan1_address_iff.mpr ⟨_, hpart, hsize, _, hread, rfl⟩)
    rw [hpart, Option.some.injEq] at hpart'
    rw [← hpart', List.all_cons, Bool.and_eq_true] at hhex'
    exact absurd hhex'.1 (by decide)
  · intro hgood ip
    rw [parseLan1_address_iff]
    refine exists_congr fun h => and_congr_right fun hpart => ?_
    constructor
    · rintro ⟨hsize, n, hread, rfl⟩
      rcases (fromStrRadix16_iff hsize).mp hread with ⟨height, rfl⟩ | ⟨hsigned, -⟩
      · exact ⟨height, rfl⟩
      · exact absurd hsigned (hgood h hpart)
    · rintro ⟨height, rfl⟩
      exact ⟨height.size, _, (fromStrRadix16_iff height.size).mpr (.inl ⟨height, rfl⟩), rfl⟩

/-- Seven digits behind a plus sign are an address. -/
theorem signed_address_taken : ¬AddressRight "LAN1.net.+1234567" := by
  intro hright
  have hpart : (lan1Parts "LAN1.net.+1234567")[1]? = some "+1234567".toList := by decide
  have hread : (parseLan1 "LAN1.net.+1234567").2 = some ⟨0x01, 0x23, 0x45, 0x67⟩ := by decide
  obtain ⟨h, hh, ⟨-, hhex⟩, -⟩ := (hright _).mp hread
  rw [hpart, Option.some.injEq] at hh
  rw [← hh] at hhex
  exact absurd hhex (by decide)

/-! ### C strings -/

/-- A text in front of a zero is read as it is. -/
theorem readCstr_bytes {s : String} (hnul : '\x00' ∉ s.toList) (hlen : (Utf8.bytes s).length < readCap)
    (rest : List UInt8) : readCstr (some (Utf8.bytes s ++ 0 :: rest)) = s := by
  have hkeep : ∀ b ∈ Utf8.bytes s, (b != 0) = true := by
    intro b hb
    rw [bne_iff_ne]
    rintro rfl
    exact Utf8.not_mem_encode (c := '\x00') (by decide) hnul hb
  obtain ⟨k, hk⟩ : ∃ k, readCap = (Utf8.bytes s).length + (k + 1) := ⟨readCap - (Utf8.bytes s).length - 1, by omega⟩
  have huntil : untilNul ((Utf8.bytes s ++ 0 :: rest).take readCap) = Utf8.bytes s := by
    rw [hk, List.take_length_add_append, List.take_succ_cons, untilNul,
      List.takeWhile_append_of_pos hkeep, List.takeWhile_cons_of_neg (by decide), List.append_nil]
  rw [readCstr, Option.getD_some, huntil, Utf8.decodeLossy_bytes]

/-- What is read starts with ASCII characters only if the memory does. -/
theorem prefix_of_readCstr {front : List Char} (hfront : ∀ c ∈ front, c.toNat < 0x80) {mem : List UInt8}
    (h : front <+: (readCstr (some mem)).toList) : front.flatMap String.utf8EncodeChar <+: mem := by
  rw [readCstr, Option.getD_some, Utf8.decodeLossy, String.toList_ofList] at h
  have hread := Utf8.prefix_of_decodeLoop hfront h
  exact hread.trans ((List.takeWhile_prefix _).trans (List.take_prefix _ _))

/-! ### Hexadecimal digits -/

theorem hexDigit_digitChar {n : ℕ} (h : n < 16) : hexDigit (Nat.digitChar n) = some n := by
  have hall : ∀ n : Fin 16, hexDigit (Nat.digitChar n) = some n.val := by decide
  exact hall ⟨n, h⟩

theorem mem_hexFixed {k n : ℕ} {c : Char} (h : c ∈ hexFixed k n) : ∃ d < 16, c = Nat.digitChar d := by
  obtain ⟨d, hd, rfl⟩ := List.mem_map.mp h
  exact ⟨d, Digits.lt_of_mem_toDigits (by omega) (List.mem_reverse.mp hd), rfl⟩

@[simp] theorem length_hexFixed (k n : ℕ) : (hexFixed k n).length = k := by
  rw [hexFixed, List.length_map, List.length_reverse, Digits.length_toDigits]

theorem isHex_of_mem_hexFixed {k n : ℕ} {c : Char} (h : c ∈ hexFixed k n) : isHex c = true := by
  obtain ⟨d, hd, rfl⟩ := mem_hexFixed h
  rw [isHex, hexDigit_digitChar hd]
  rfl

theorem filterMap_hexFixed (k n : ℕ) :
    (hexFixed k n).filterMap hexDigit = (Digits.toDigits 16 k n).reverse := by
  rw [hexFixed, List.filterMap_map]
  refine (List.filterMap_congr fun d hd => ?_).trans List.filterMap_some
  exact hexDigit_digitChar (Digits.lt_of_mem_toDigits (by omega) (List.mem_reverse.mp hd))

/-- A number that fits its digits is read back, with what follows it. -/
theorem hexValue_hexFixed_append {k n : ℕ} (h : n < 16 ^ k) (cs : List Char) :
    hexValue (hexFixed k n ++ cs) = hexValue cs + 16 ^ (cs.filterMap hexDigit).length * n := by
  rw [hexValue, List.filterMap_append, filterMap_hexFixed, List.reverse_append, List.reverse_reverse,
    Nat.ofDigits_append, Digits.ofDigits_toDigits h, List.length_reverse]
  rfl

namespace Octets

theorem eightHex_hex (ip : Octets) : EightHex ip.hex := by
  refine ⟨by simp [hex, bytes], List.all_eq_true.mpr fun c hc => ?_⟩
  obtain ⟨b, -, hc⟩ := List.mem_flatMap.mp hc
  exact isHex_of_mem_hexFixed hc

theorem hexValue_hex (ip : Octets) : hexValue ip.hex =
    ((ip.a.toNat * 256 + ip.b.toNat) * 256 + ip.c.toNat) * 256 + ip.d.toNat := by
  have hbyte (b : UInt8) : b.toNat < 16 ^ 2 := b.toNat_lt
  have hnil : hexValue [] = 0 := rfl
  simp only [hex, bytes, List.flatMap_cons, List.flatMap_nil, hexValue_hexFixed_append (hbyte _),
    List.filterMap_append, filterMap_hexFixed, List.length_append, List.length_reverse,
    Digits.length_toDigits, List.filterMap_nil, List.length_nil, hnil]
  ring

theorem ofWord_hex (ip : Octets) : ofWord (hexValue ip.hex) = ip := by
  obtain ⟨a, b, c, d⟩ := ip
  have ha := a.toNat_lt
  have hb := b.toNat_lt
  have hc := c.toNat_lt
  have hd := d.toNat_lt
  rw [hexValue_hex, ofWord]
  simp only [mk.injEq, ← UInt8.toNat_inj, UInt8.toNat_ofNat']
  refine ⟨?_, ?_, ?_, ?_⟩ <;> omega

end Octets

/-! ### The record -/

namespace Descriptor

/-- An id that fits its field and the text. -/
structure IsId (id : String) : Prop where
  ne : id ≠ ""
  size : (Utf8.bytes id).length < identLen
  dot : '.' ∉ id.toList
  nul : '\x00' ∉ id.toList

theorem idStr_new {id : String} (h : IsId id) : (new id).idStr = id := by
  have hkeep : ∀ b ∈ Utf8.bytes id, ¬(b == 0) = true := by
    intro b hb heq
    rw [beq_iff_eq] at heq
    subst heq
    exact Utf8.not_mem_encode (c := '\x00') (by decide) h.nul hb
  have hsize := h.size
  obtain ⟨k, hk⟩ : ∃ k, identLen - (Utf8.bytes id).length = k + 1 := ⟨_, (Nat.sub_add_cancel (by omega)).symm⟩
  have hident : (new id).identifier = Utf8.bytes id ++ zeros (k + 1) := by
    change pad identLen ((Utf8.bytes id).take (identLen - 1)) = _
    rw [List.take_of_length_le (by omega), pad_of_le (by omega), hk]
  have hplace : (new id).identifier.findIdx? (· == 0) = some (Utf8.bytes id).length := by
    rw [hident, List.findIdx?_append, List.findIdx?_eq_none_iff.mpr (by simpa using hkeep)]
    simp [zeros, List.replicate_succ, List.findIdx?_cons]
  rw [idStr, hplace, Option.getD_some, hident, List.take_left, Utf8.decodeLossy_bytes]

theorem advertIp_setAdvertIp (d : Descriptor) (ip : Octets) :
    (d.setAdvertIp ip).advertIp = if ip = ⟨0, 0, 0, 0⟩ ∨ ip.a = 127 then none else some ip := by
  obtain ⟨x, y, rest, hblob⟩ : ∃ x y rest, d.blob = x :: y :: rest := by
    have hlen := d.blob_length
    rcases hd : d.blob with _ | ⟨x, _ | ⟨y, rest⟩⟩
    · rw [hd] at hlen
      cases hlen
    · rw [hd] at hlen
      cases hlen
    · exact ⟨x, y, rest, rfl⟩
  have hread : (d.setAdvertIp ip).blob = x :: y :: ip.a :: ip.b :: ip.c :: ip.d :: rest.drop 4 := by
    change write d.blob 2 ip.bytes = _
    rw [hblob]
    rfl
  unfold advertIp
  rw [hread]
  rfl

/-! ### There and back -/

theorem text_toList (d : Descriptor) (lanIp : Octets) : (d.text lanIp).toList =
    lan1 ++ (d.idStr.toList ++ '.' :: (d.advertIp.getD lanIp).hex) := by
  rw [text, String.toList_ofList, List.append_assoc]

theorem lan1Parts_text {id : String} (hdot : '.' ∉ id.toList) (ip : Octets) {raw : String}
    (hraw : raw.toList = lan1 ++ (id.toList ++ '.' :: ip.hex)) : lan1Parts raw = [id.toList, ip.hex] := by
  have hstrip : Text.stripPrefix lan1 raw.toList = some (id.toList ++ '.' :: ip.hex) :=
    Text.stripPrefix_some_iff.mpr hraw
  have hhex : '.' ∉ ip.hex := by
    intro hmem
    exact absurd (List.all_eq_true.mp ip.eightHex_hex.2 _ hmem) (by decide)
  rw [lan1Parts, hstrip, Option.getD_some, List.splitOn_append_cons_self_of_not_mem hdot,
    List.splitOn_eq_singleton hhex]

theorem parseLan1_text {id : String} (hdot : '.' ∉ id.toList) (ip : Octets) {raw : String}
    (hraw : raw.toList = lan1 ++ (id.toList ++ '.' :: ip.hex)) : parseLan1 raw = (id, some ip) := by
  have hread := (fromStrRadix16_iff ip.eightHex_hex.size).mpr (.inl ⟨ip.eightHex_hex, rfl⟩)
  have hsize : ¬Utf8.size ip.hex ≠ 8 := not_not.mpr ip.eightHex_hex.size
  rw [parseLan1, lan1Parts_text hdot ip hraw]
  simp only [List.headD_cons, List.getElem?_cons_succ, List.getElem?_cons_zero, Option.bind_some,
    if_neg hsize, hread, Option.map_some, Octets.ofWord_hex, String.ofList_toList]

/-- Serialized and read back, a descriptor has the same id and the same address. -/
def RoundTrip (id : String) (ip lanIp : Octets) (mem : List UInt8) (out : Descriptor) : Prop :=
  let d := (new id).setAdvertIp ip
  ∃ mem' d', serializeDesc d lanIp (some mem) = (success, some mem') ∧
    deserializeDesc (some mem') (some out) = (success, some d') ∧
    d'.idStr = d.idStr ∧ d.idStr = id ∧ d'.advertIp = d.advertIp ∧ d.advertIp = some ip

/-- An address that is advertised. -/
def Advertises (ip : Octets) : Prop := ip ≠ ⟨0, 0, 0, 0⟩ ∧ ip.a ≠ 127

/-- What is serialized of a descriptor with an id and an address is read back whole. -/
theorem deserializeDesc_text {d : Descriptor} {id : String} {ip : Octets} (hid : IsId id)
    (hidStr : d.idStr = id) (hadvert : d.advertIp = some ip) (lanIp : Octets) (mem : List UInt8)
    (out : Descriptor) :
    serializeDesc d lanIp (some mem) =
        (success, some (write mem 0 (Utf8.bytes (d.text lanIp) ++ [0]))) ∧
      deserializeDesc (some (write mem 0 (Utf8.bytes (d.text lanIp) ++ [0]))) (some out) =
        (success, some ((new id).setAdvertIp ip)) := by
  have htext : (d.text lanIp).toList = lan1 ++ (id.toList ++ '.' :: ip.hex) := by
    rw [text_toList, hidStr, hadvert]
    rfl
  have hlen : (Utf8.bytes (d.text lanIp)).length ≤ 50 := by
    have hsize : (Utf8.bytes (d.text lanIp)).length = Utf8.size (d.text lanIp).toList := rfl
    have hidSize : Utf8.size id.toList < 37 := hid.size
    rw [hsize, htext, ← List.singleton_append, Utf8.size_append, Utf8.size_append, Utf8.size_append,
      Utf8.size_singleton (by decide), ip.eightHex_hex.size]
    have hmark : Utf8.size lan1 = 5 := rfl
    omega
  have hnul : '\x00' ∉ (d.text lanIp).toList := by
    rw [htext, List.mem_append, List.mem_append, List.mem_cons]
    rintro (hmem | hmem | hmem | hmem)
    · exact absurd hmem (by decide)
    · exact hid.nul hmem
    · exact absurd hmem (by decide)
    · exact absurd (List.all_eq_true.mp ip.eightHex_hex.2 _ hmem) (by decide)
  have hmem : write mem 0 (Utf8.bytes (d.text lanIp) ++ [0]) =
      Utf8.bytes (d.text lanIp) ++ 0 :: mem.drop (Utf8.bytes (d.text lanIp) ++ [0]).length := by
    rw [write, List.take_zero, List.nil_append, List.append_assoc, List.singleton_append, Nat.zero_add]
  have hraw : readCstr (some (write mem 0 (Utf8.bytes (d.text lanIp) ++ [0]))) = d.text lanIp := by
    rw [hmem]
    exact readCstr_bytes hnul (by unfold readCap; omega) _
  have hmark : ¬¬lan1 <+: (d.text lanIp).toList := not_not.mpr ⟨_, htext.symm⟩
  refine ⟨?_, ?_⟩
  · rw [serializeDesc]
    exact if_neg (by unfold serializedMax; omega)
  · rw [deserializeDesc, if_neg (by simp)]
    simp only [hraw, if_neg hmark, parseLan1_text hid.dot ip htext]

theorem roundTrip {id : String} {ip : Octets} (hid : IsId id) (hip : Advertises ip) (lanIp : Octets)
    (mem : List UInt8) (out : Descriptor) : RoundTrip id ip lanIp mem out := by
  have hidStr : ((new id).setAdvertIp ip).idStr = id := idStr_new hid
  have hadvert : ((new id).setAdvertIp ip).advertIp = some ip := by
    rw [advertIp_setAdvertIp, if_neg (not_or.mpr hip)]
  obtain ⟨hwrite, hread⟩ := deserializeDesc_text hid hidStr hadvert lanIp mem out
  exact ⟨_, _, hwrite, hread, rfl, hidStr, rfl, hadvert⟩

/-- A C string without the mark is refused, and clears the descriptor. -/
theorem deserializeDesc_of_not_prefix {mem : List UInt8} (h : ¬Utf8.bytes "LAN1." <+: mem)
    (out : Descriptor) : deserializeDesc (some mem) (some out) = (errFail, some .zero) := by
  have hall : lan1.all (fun c => decide (c.toNat < 0x80)) = true := by decide
  have hascii : ∀ c ∈ lan1, c.toNat < 0x80 := fun c hc =>
    of_decide_eq_true (List.all_eq_true.mp hall c hc)
  have hmark : ¬lan1 <+: (readCstr (some mem)).toList := fun hpre =>
    h (prefix_of_readCstr hascii hpre)
  rw [deserializeDesc, if_neg (by simp)]
  exact if_pos hmark

end Descriptor

/-! ### Ids of networks -/

theorem mem_uuidIdent {t : ℕ} {n : UInt64} {c : Char} (h : c ∈ (uuidIdent t n).toList) :
    isHex c = true ∨ c = '-' := by
  rw [uuidIdent, String.toList_ofList] at h
  simp only [List.mem_append, List.mem_cons] at h
  rcases h with ((((h | h | h) | h | h | h) | h | h | h) | h | h)
  all_goals
    first
      | exact .inl (isHex_of_mem_hexFixed h)
      | exact .inr h
      | exact .inl (by rw [h]; decide)

theorem length_uuidIdent (t : ℕ) (n : UInt64) : (uuidIdent t n).toList.length = 36 := by
  rw [uuidIdent, String.toList_ofList]
  simp only [List.length_append, List.length_cons, length_hexFixed]

theorem isId_uuidIdent (t : ℕ) (n : UInt64) : Descriptor.IsId (uuidIdent t n) := by
  have hascii : ∀ c ∈ (uuidIdent t n).toList, c.toNat < 0x80 := by
    intro c hc
    rcases mem_uuidIdent hc with hhex | rfl
    · exact ascii_of_isHex hhex
    · decide
  have hsize : (Utf8.bytes (uuidIdent t n)).length = 36 :=
    (Utf8.size_of_ascii hascii).trans (length_uuidIdent t n)
  refine ⟨?_, by rw [hsize]; decide, fun hdot => ?_, fun hnul => ?_⟩
  · intro hempty
    have hlen := length_uuidIdent t n
    rw [hempty] at hlen
    cases hlen
  · exact absurd (mem_uuidIdent hdot) (by decide)
  · exact absurd (mem_uuidIdent hnul) (by decide)

/-- Descriptors survive the lobby, and a text that is none leaves none behind. -/
theorem descriptor_codec :
    (∀ id ip, Descriptor.IsId id → Descriptor.Advertises ip →
      ∀ lanIp mem out, Descriptor.RoundTrip id ip lanIp mem out) ∧
    (∀ t n, Descriptor.IsId (uuidIdent t n)) ∧
    ∀ mem, ¬Utf8.bytes "LAN1." <+: mem →
      ∀ out, deserializeDesc (some mem) (some out) = (errFail, some .zero) :=
  ⟨fun _ _ hid hip lanIp mem out => Descriptor.roundTrip hid hip lanIp mem out, isId_uuidIdent,
    fun _ h out => Descriptor.deserializeDesc_of_not_prefix h out⟩

theorem uuid_descriptor_codec :
    Descriptor.RoundTrip (uuidIdent 1767225600000000000 1) ⟨192, 168, 1, 20⟩ ⟨127, 0, 0, 1⟩ [] .zero ∧
      deserializeDesc (some (Utf8.bytes "dummy" ++ [0])) (some (.new "old")) = (errFail, some .zero) :=
  ⟨descriptor_codec.1 _ _ (descriptor_codec.2.1 _ _) ⟨by decide, by decide⟩ _ _ _,
    descriptor_codec.2.2 _ (by decide) _⟩

end GbfrLan.Party
