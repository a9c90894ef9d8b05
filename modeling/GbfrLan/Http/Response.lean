import GbfrLan.Http.Framing

/-!
# Responses as the broker writes them and as the shims read them

The broker closes the connection behind each response, so the client reads until the stream ends.
It reads no length: what has arrived when the stream ends or fails is the response, in part or whole.
-/
namespace GbfrLan.Http
open Lib Json
open Broker (isSpace)

/-! ### The broker -/

/-- The reason phrase of a status. -/
def reason (code : UInt16) : String :=
  if code = 101 then "Switching Protocols"
  else if code = 204 then "No Content"
  else if code = 400 then "Bad Request"
  else if code = 404 then "Not Found"
  else if code = 409 then "Conflict"
  else if code = 500 then "Internal Server Error"
  else if code = 503 then "Service Unavailable"
  else "OK"

/-- The lines of the head of a response. -/
def responseLines (code : UInt16) (ctype : String) (body : List UInt8) : List String :=
  ["HTTP/1.1 " ++ toString code.toNat ++ " " ++ reason code, "Content-Type: " ++ ctype,
    "Content-Length: " ++ toString body.length, "Connection: close", "Access-Control-Allow-Origin: *"]

/-- The head that `send_http` writes. -/
def responseHead (code : UInt16) (ctype : String) (body : List UInt8) : List UInt8 :=
  (responseLines code ctype body).flatMap (fun line => Utf8.bytes line ++ [cr, lf]) ++ [cr, lf]

/-- What `send_http` writes. -/
def sendHttp (code : UInt16) (ctype : String) (body : List UInt8) : List UInt8 :=
  responseHead code ctype body ++ body

/-! ### The client -/

inductive HttpError where
  | connect
  | write
  | noHead
  | tooLarge
  deriving DecidableEq, Repr

structure Response where
  status : ℕ
  body : String
  deriving DecidableEq, Repr

/-- `MAX_RESPONSE_BYTES`. -/
def maxResponseBytes : ℕ := 4 * 1024 * 1024

/-- `str::parse::<u16>`. -/
def parseU16 (cs : List Char) : Option ℕ := (parseU64 cs).filter (· < 2 ^ 16)

/-- The loop of `read_response`: what has arrived when the stream ends or fails; `none` when that is
too large. -/
def readAll (maxBytes : ℕ) (buf : List UInt8) : List Received → Option (List UInt8)
  | .data (b :: bs) :: rest =>
      if maxBytes < buf.length + (b :: bs).length then none else readAll maxBytes (buf ++ b :: bs) rest
  | _ => some buf

/-- The status in a head, or 0. -/
def statusOf (head : List UInt8) : ℕ :=
  (((splitWhitespace (Utf8.decodeLossy head).toList)[1]?).bind parseU16).getD 0

def readResponse (maxBytes : ℕ) (stream : List Received) : Except HttpError Response :=
  match readAll maxBytes [] stream with
  | none => .error .tooLarge
  | some buf =>
      match position headEnd buf with
      | none => .error .noHead
      | some idx => .ok ⟨statusOf (buf.take idx), Utf8.decodeLossy (buf.drop (idx + headEnd.length))⟩

/-! ### What arrives is what is read -/

theorem readAll_eq (maxBytes : ℕ) (stream : List Received) (buf : List UInt8)
    (hbuf : buf.length ≤ maxBytes) : readAll maxBytes buf stream =
      if maxBytes < (buf ++ arrived stream).length then none else some (buf ++ arrived stream) := by
  induction stream generalizing buf with
  | nil => simp [readAll, arrived, hbuf]
  | cons r rest ih =>
    cases r with
    | failed timedOut => simp [readAll, arrived, hbuf]
    | data bs =>
      cases bs with
      | nil => simp [readAll, arrived, hbuf]
      | cons b bs =>
        have harrived : buf ++ arrived (.data (b :: bs) :: rest) = buf ++ b :: bs ++ arrived rest := by
          rw [arrived, List.append_assoc]
        rw [readAll, harrived]
        split_ifs with hlarge hall hall
        · rfl
        · simp only [List.length_append, List.length_cons] at hlarge hall
          omega
        · rw [ih _ (by simpa using hlarge), if_pos hall]
        · rw [ih _ (by simpa using hlarge), if_neg hall]

theorem responseLines_isLine {ctype : String} (hctype : OneLine ctype.toList) (code : UInt16)
    (body : List UInt8) : ∀ l ∈ responseLines code ctype body, IsLine l := by
  have hdigits (n : ℕ) : OneLine (toString n).toList := .of_forall_not_space (toString_not_space n)
  have hreason : OneLine (reason code).toList := by
    unfold reason
    split_ifs <;> exact .of_decide (by decide)
  intro l hl
  simp only [responseLines, List.mem_cons, List.not_mem_nil, or_false] at hl
  rcases hl with rfl | rfl | rfl | rfl | rfl
  · refine ⟨by simp, ?_⟩
    simp only [String.toList_append]
    exact (((OneLine.of_decide (by decide)).append (hdigits _)).append (.of_decide (by decide))).append
      hreason
  · refine ⟨by simp, ?_⟩
    simp only [String.toList_append]
    exact (OneLine.of_decide (by decide)).append hctype
  · refine ⟨by simp, ?_⟩
    simp only [String.toList_append]
    exact (OneLine.of_decide (by decide)).append (hdigits _)
  · exact ⟨by decide, .of_decide (by decide)⟩
  · exact ⟨by decide, .of_decide (by decide)⟩

/-- A head is a text that starts with its first line. -/
theorem headText_text (line : String) (lines : List String) :
    ∃ tail, headText (line :: lines) = Utf8.bytes (String.ofList (line.toList ++ tail)) := by
  induction lines generalizing line with
  | nil => exact ⟨[], by rw [List.append_nil, String.ofList_toList]; rfl⟩
  | cons line' lines ih =>
    obtain ⟨tail, htail⟩ := ih line'
    refine ⟨'\r' :: '\n' :: (line'.toList ++ tail), ?_⟩
    rw [headText_cons_cons, htail]
    simp only [Utf8.bytes, String.toList_ofList, List.flatMap_append, List.flatMap_cons]
    rfl

theorem statusOf_headText (code : UInt16) (ctype : String) (body : List UInt8) :
    statusOf (headText (responseLines code ctype body)) = code.toNat := by
  obtain ⟨tail, htail⟩ := headText_text ("HTTP/1.1 " ++ toString code.toNat ++ " " ++ reason code)
    ["Content-Type: " ++ ctype, "Content-Length: " ++ toString body.length, "Connection: close",
      "Access-Control-Allow-Origin: *"]
  have htext : ("HTTP/1.1 " ++ toString code.toNat ++ " " ++ reason code).toList ++ tail =
      "HTTP/1.1".toList ++ ' ' :: ((toString code.toNat).toList ++ ' ' :: ((reason code).toList ++ tail)) := by
    simp [String.toList_append]
  have hne : (toString code.toNat).toList ≠ [] := by
    intro hnil
    have hparse := Text.parseNat_toString code.toNat
    rw [hnil] at hparse
    simp [Text.parseNat] at hparse
  have hversion : "HTTP/1.1".toList ≠ [] := by decide
  obtain ⟨words, hwords⟩ := splitWhitespace_requestLine hversion
    (forall_not_of_decide (by decide)) hne (toString_not_space _) ((reason code).toList ++ tail)
  have hlt : code.toNat < 2 ^ 16 := code.toNat_lt
  have hparse : parseU16 (toString code.toNat).toList = some code.toNat := by
    rw [parseU16, parseU64_toString (by omega)]
    exact Option.filter_some_pos (decide_eq_true hlt)
  rw [statusOf, responseLines, htail, Utf8.decodeLossy_bytes, String.toList_ofList, htext, hwords]
  exact congrArg (fun o => Option.getD o 0) hparse

/-- What is read of a text that is cut after any number of bytes. -/
theorem readResponse_take {whole : List UInt8} {i : ℕ} (hpos : position headEnd whole = some i)
    (n maxBytes : ℕ) {chunks : List (List UInt8)} {rest : List Received}
    (hchunks : ∀ c ∈ chunks, c ≠ []) (hrest : arrived rest = []) (hflat : chunks.flatten = whole.take n) :
    readResponse maxBytes (chunks.map .data ++ rest) =
      if maxBytes < min n whole.length then .error .tooLarge
      else if n < i + headEnd.length then .error .noHead
      else .ok ⟨statusOf (whole.take i),
        Utf8.decodeLossy ((whole.take n).drop (i + headEnd.length))⟩ := by
  have hin : i + headEnd.length ≤ whole.length := by
    obtain ⟨hle, hat, -⟩ := position_eq_some_iff.mp hpos
    have hlength := hat.length_le
    rw [List.length_drop] at hlength
    have hfour : 0 < headEnd.length := by decide
    omega
  have hall := readAll_eq maxBytes (chunks.map .data ++ rest) [] (Nat.zero_le _)
  rw [arrived_chunks hchunks, hrest, List.append_nil, List.nil_append, hflat, List.length_take] at hall
  have hfound := position_of_prefix (List.take_prefix n whole) hpos
  rw [List.length_take] at hfound
  rw [readResponse, hall]
  split_ifs with hlarge hshort
  · rfl
  · rw [if_neg (by omega)] at hfound
    simp only [hfound]
  · rw [if_pos (by omega)] at hfound
    simp only [hfound, List.take_take, min_eq_left (by omega : i ≤ n)]

section
variable {code : UInt16} {ctype : String} {body : List UInt8}

theorem responseHead_eq : responseHead code ctype body =
    headText (responseLines code ctype body) ++ headEnd :=
  headText_append_headEnd (List.cons_ne_nil _ _)

theorem length_responseHead : (responseHead code ctype body).length =
    (headText (responseLines code ctype body)).length + headEnd.length := by
  rw [responseHead_eq, List.length_append]

theorem position_sendHttp (hctype : OneLine ctype.toList) : position headEnd (sendHttp code ctype body) =
    some (headText (responseLines code ctype body)).length := by
  rw [sendHttp, responseHead_eq]
  exact position_headText (List.cons_ne_nil _ _) (responseLines_isLine hctype code body) body

theorem statusOf_sendHttp : statusOf ((sendHttp code ctype body).take
    (headText (responseLines code ctype body)).length) = code.toNat := by
  rw [sendHttp, responseHead_eq, List.append_assoc, List.take_left, statusOf_headText]

/-- A whole response is read back. -/
theorem readResponse_whole (hctype : OneLine ctype.toList) {maxBytes : ℕ} {chunks : List (List UInt8)}
    {rest : List Received} (hchunks : ∀ c ∈ chunks, c ≠ []) (hrest : arrived rest = [])
    (hflat : chunks.flatten = sendHttp code ctype body)
    (hsize : (sendHttp code ctype body).length ≤ maxBytes) :
    readResponse maxBytes (chunks.map .data ++ rest) = .ok ⟨code.toNat, Utf8.decodeLossy body⟩ := by
  have hwhole : chunks.flatten = (sendHttp code ctype body).take (sendHttp code ctype body).length := by
    rw [hflat, List.take_length]
  have hlength : (sendHttp code ctype body).length =
      (responseHead code ctype body).length + body.length := List.length_append
  have hdrop : (sendHttp code ctype body).drop (responseHead code ctype body).length = body :=
    List.drop_left
  rw [readResponse_take (position_sendHttp hctype) _ maxBytes hchunks hrest hwhole, ← length_responseHead,
    if_neg (by omega), if_neg (by omega), statusOf_sendHttp, List.take_length, hdrop]

end

/-- What the client makes of a response that is cut after any number of bytes, however these are
split into reads and whether the stream then ends or fails: too large a one and one without its
whole head are errors, and otherwise it has the status and what has arrived of the body. -/
theorem readResponse_sendHttp (code : UInt16) (ctype : String) (body : List UInt8) (n maxBytes : ℕ)
    (chunks : List (List UInt8)) (rest : List Received) (hctype : OneLine ctype.toList)
    (hchunks : ∀ c ∈ chunks, c ≠ []) (hrest : arrived rest = [])
    (hflat : chunks.flatten = (sendHttp code ctype body).take n) :
    readResponse maxBytes (chunks.map .data ++ rest) =
      if maxBytes < min n (sendHttp code ctype body).length then .error .tooLarge
      else if n < (responseHead code ctype body).length then .error .noHead
      else .ok ⟨code.toNat,
        Utf8.decodeLossy (body.take (n - (responseHead code ctype body).length))⟩ := by
  have hdrop : ((sendHttp code ctype body).take n).drop (responseHead code ctype body).length =
      body.take (n - (responseHead code ctype body).length) := by
    rw [sendHttp, List.drop_take, List.drop_left]
  rw [readResponse_take (position_sendHttp hctype) n maxBytes hchunks hrest hflat, statusOf_sendHttp,
    ← length_responseHead, hdrop]

/-- A response whose body is cut inside a character, in two reads and a timeout. -/
def cutChunks : List (List UInt8) :=
  let bs := sendHttp 404 "application/json" (Utf8.bytes "né")
  [bs.take 20, (bs.drop 20).take (bs.length - 21)]

theorem readResponse_cut :
    readResponse maxResponseBytes (cutChunks.map .data ++ [.failed true]) =
      .ok ⟨404, "n\uFFFD"⟩ := by
  have h := readResponse_sendHttp 404 "application/json" (Utf8.bytes "né")
    ((sendHttp 404 "application/json" (Utf8.bytes "né")).length - 1) maxResponseBytes cutChunks
    [.failed true] (.of_decide (by decide)) (by decide +kernel) rfl (by decide +kernel)
  rw [h]
  decide +kernel

end GbfrLan.Http
