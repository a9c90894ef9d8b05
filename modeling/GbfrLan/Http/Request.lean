import GbfrLan.Broker.Party
import GbfrLan.Lib.Position
import GbfrLan.Lib.Utf8

/-!
# HTTP requests between the shims and the broker

The client writes one request on a fresh connection, and the broker reads one from a stream that
hands out its bytes in pieces. A read returns some bytes, none at the end of the stream, or an
error; a stream is the list of what its reads return, and it has ended behind the list.
-/
namespace GbfrLan.Http
open Lib Json
open Broker (isSpace)

def cr : UInt8 := 0x0D
def lf : UInt8 := 0x0A

/-- `HEAD_END`. -/
def headEnd : List UInt8 := [cr, lf, cr, lf]

/-! ### The client -/

/-- The lines of the head of a request. -/
def requestLines (host : String) (port : UInt16) (method path body : String) (auth : Option String) :
    List String :=
  [method ++ " " ++ path ++ " HTTP/1.1", "Host: " ++ host ++ ":" ++ toString port.toNat,
    "Content-Type: application/json"] ++
  (auth.filter fun a => !a.isEmpty).toList ++
  ["Content-Length: " ++ toString (Utf8.bytes body).length, "Connection: close"]

/-- The head of a request, up to the body. -/
def requestHead (host : String) (port : UInt16) (method path body : String) (auth : Option String) :
    List UInt8 :=
  (requestLines host port method path body auth).flatMap (fun line => Utf8.bytes line ++ [cr, lf]) ++
    [cr, lf]

/-- What `request_capped` writes. -/
def requestBytes (host : String) (port : UInt16) (method path body : String) (auth : Option String) :
    List UInt8 :=
  requestHead host port method path body auth ++ Utf8.bytes body

/-! ### The broker -/

/-- What a read returns; no bytes are the end of the stream. -/
inductive Received where
  | data (bs : List UInt8)
  | failed (timedOut : Bool)
  deriving DecidableEq, Repr

abbrev Headers := OrdMap String String

inductive ReadResult where
  | request (method path : String) (headers : Headers) (body : List UInt8)
  | tooLarge
  | dropped
  deriving DecidableEq

def maxHeadBytes : ℕ := 1024 * 1024

def maxBodyBytes : ℕ := 1024 * 1024

/-- The bytes start like a TLS handshake. -/
def isClientHello (buf : List UInt8) : Bool :=
  match buf with
  | a :: b :: _ :: _ => a == 0x16 && b == 0x03
  | _ => false

/-- The first loop: the bytes that have arrived when it ends, and the stream behind them; `none`
drops the request. -/
def readHead (buf : List UInt8) : List Received → Option (List UInt8 × List Received)
  | [] => some (buf, [])
  | .failed _ :: _ => none
  | .data [] :: rest => some (buf, rest)
  | .data (b :: bs) :: rest =>
      let buf := buf ++ b :: bs
      if isClientHello buf then none
      else if (position headEnd buf).isSome then some (buf, rest)
      else if maxHeadBytes < buf.length then none
      else readHead buf rest

/-- The second loop: the body when it ends; `none` drops the request. -/
def readBody (want : ℕ) (body : List UInt8) : List Received → Option (List UInt8)
  | [] => some body
  | r :: rest =>
      if want ≤ body.length then some body
      else
        match r with
        | .failed _ => none
        | .data [] => some body
        | .data (b :: bs) => readBody want (body ++ b :: bs) rest

/-- `str::trim`. -/
def trim (cs : List Char) : List Char :=
  ((cs.dropWhile isSpace).reverse.dropWhile isSpace).reverse

/-- `str::split_whitespace`. -/
def splitWhitespace (cs : List Char) : List (List Char) :=
  (cs.splitOnP isSpace).filter fun w => !w.isEmpty

/-- The line without the carriage returns at its end. -/
def trimEndCr (cs : List Char) : List Char := (cs.reverse.dropWhile (· = '\r')).reverse

/-- One line of the headers; one without a colon is passed over. -/
def putHeader (headers : Headers) (line : List UInt8) : Headers :=
  match Text.splitOnce ':' (trimEndCr (Utf8.decodeLossy line).toList) with
  | some (k, v) => headers.insert (String.ofList (Text.lower (trim k))) (String.ofList (trim v))
  | none => headers

/-- The method, the path and the headers of a head. -/
def parseHead (head : List UInt8) : Option (String × String × Headers) :=
  match head.splitOn lf with
  | [] => none
  | reqLine :: lines =>
      match splitWhitespace (Utf8.decodeLossy reqLine).toList with
      | method :: path :: _ =>
          some (String.ofList method, String.ofList path, lines.foldl putHeader OrdMap.empty)
      | _ => none

/-- The length that the headers declare. -/
def contentLength (headers : Headers) : Option ℕ :=
  (headers.get? "content-length").bind fun s => parseU64 s.toList

/-- A head that was received and parsed, what came with it of the body, and the stream behind. -/
structure Head where
  method : String
  path : String
  headers : Headers
  body : List UInt8
  rest : List Received

/-- The first part of `read_request`, up to the body. -/
def receiveHead (stream : List Received) : Option Head :=
  (readHead [] stream).bind fun (buf, rest) =>
    if buf = [] then none
    else
      (position headEnd buf).bind fun idx =>
        (parseHead (buf.take idx)).map fun (method, path, headers) =>
          ⟨method, path, headers, buf.drop (idx + headEnd.length), rest⟩

def readRequest (stream : List Received) : ReadResult :=
  match receiveHead stream with
  | none => .dropped
  | some h =>
      let want := (contentLength h.headers).getD 0
      if maxBodyBytes < want then .tooLarge
      else
        match readBody want h.body h.rest with
        | none => .dropped
        | some body => .request h.method h.path h.headers (body.take want)

end GbfrLan.Http
