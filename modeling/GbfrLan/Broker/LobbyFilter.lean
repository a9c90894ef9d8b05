import GbfrLan.Http.Request
import GbfrLan.Lib.F64

/-!
# The filter of a lobby search

`lobby_filter.rs` on lists of characters: the scanner with the text that it has still to read, the
loop that collects the clauses, and their meaning on the view of a lobby. What is not understood is
kept as text, and a filter with such text matches nothing.
-/
namespace GbfrLan.Broker.LobbyFilter
open Lib Json
open Http (trim)

/-- The number of a search key. -/
abbrev KeyNumber := {n : ℕ // 1 ≤ n ∧ n ≤ 30}

inductive Key where
  | stringKey (n : KeyNumber)
  | numberKey (n : KeyNumber)
  | memberCount
  | maxMemberCount
  | memberCountRemaining
  | membershipLock
  | amOwner
  | amMember
  | amServer
  | lobbyId
  deriving DecidableEq

inductive Op where
  | eq
  | ne
  | le
  | lt
  | ge
  | gt
  deriving DecidableEq, Repr

structure Clause where
  key : Key
  op : Op
  value : String
  raw : String
  deriving DecidableEq

/-- The clauses that can be evaluated, and the text of those that cannot. -/
structure Filter where
  clauses : List Clause
  unsupported : List String
  deriving DecidableEq

/-- What a filter and a sort string read of a lobby. -/
structure LobbyView where
  id : String
  maxPlayers : F64
  currentMembers : F64
  membershipLock : String
  searchData : Fields
  ownerId : String
  viewerId : Option String
  viewerIsMember : Bool
  hasServer : Bool

/-! ### Tokens -/

/-- `u8::is_ascii_whitespace`. -/
def isAsciiWs (c : Char) : Bool :=
  c == ' ' || c == '\t' || c == '\n' || c == '\x0c' || c == '\r'

def skipWs (cs : List Char) : List Char := cs.dropWhile isAsciiWs

/-- A run of characters that are no white space, and what follows it. -/
def takeBare (cs : List Char) : Option (List Char × List Char) :=
  let cs := skipWs cs
  match cs.takeWhile fun c => !isAsciiWs c with
  | [] => none
  | tok => some (tok, cs.dropWhile fun c => !isAsciiWs c)

/-- A value from behind its opening quote. -/
def quoted : List Char → Option (List Char × List Char)
  | [] => none
  | '\x27' :: '\x27' :: cs => (quoted cs).map fun (out, rest) => ('\x27' :: out, rest)
  | '\x27' :: cs => some ([], cs)
  | c :: cs => (quoted cs).map fun (out, rest) => (c :: out, rest)

/-- A string in single quotes, or a bare token. -/
def takeValue (cs : List Char) : Option (List Char × List Char) :=
  match skipWs cs with
  | '\x27' :: cs => quoted cs
  | cs => takeBare cs

/-! ### Keys, operators and values -/

/-- `str::parse::<u32>`. -/
def parseU32 (cs : List Char) : Option ℕ :=
  let ds := match cs with
    | '+' :: ds => ds
    | ds => ds
  (Text.parseNat ds).filter fun n => decide (n < 2 ^ 32)

/-- The number behind the name of a family of search keys. -/
def keyNumber (family tok : List Char) : Option KeyNumber :=
  ((Text.stripPrefix family tok).bind parseU32).bind fun n =>
    if h : 1 ≤ n ∧ n ≤ 30 then some ⟨n, h⟩ else none

def stringFamily : List Char := "string_key".toList

def numberFamily : List Char := "number_key".toList

def predefinedKeys : List (List Char × Key) :=
  [("lobby/memberCount".toList, .memberCount), ("lobby/currentMemberCount".toList, .memberCount),
    ("lobby/maxMemberCount".toList, .maxMemberCount),
    ("lobby/memberCountRemaining".toList, .memberCountRemaining),
    ("lobby/membershipLock".toList, .membershipLock), ("lobby/amOwner".toList, .amOwner),
    ("lobby/amMember".toList, .amMember), ("lobby/amServer".toList, .amServer),
    ("lobbyId".toList, .lobbyId), ("lobby/lobbyId".toList, .lobbyId), ("LobbyId".toList, .lobbyId)]

def parseKey (tok : List Char) : Option Key :=
  ((keyNumber stringFamily tok).map .stringKey).or
    (((keyNumber numberFamily tok).map .numberKey).or (predefinedKeys.lookup tok))

def Op.name : Op → List Char
  | .eq => "eq".toList
  | .ne => "ne".toList
  | .le => "le".toList
  | .lt => "lt".toList
  | .ge => "ge".toList
  | .gt => "gt".toList

def parseOp (tok : List Char) : Option Op :=
  [Op.eq, .ne, .le, .lt, .ge, .gt].find? fun op => tok == op.name

def parseBool (s : String) : Option Bool :=
  if s = "true" then some true else if s = "false" then some false else none

/-- A number value, white space around it aside. -/
def parseF64 (s : String) : Option F64 := F64.parse (trim s.toList)

def Op.isEquality (op : Op) : Bool := op == .eq || op == .ne

/-- The key accepts the operator, and the value has its type. -/
def clauseSupported (key : Key) (op : Op) (value : String) : Bool :=
  match key with
  | .stringKey _ | .lobbyId | .membershipLock => op.isEquality
  | .amOwner | .amMember | .amServer => op.isEquality && (parseBool value).isSome
  | .numberKey _ | .memberCount | .maxMemberCount | .memberCountRemaining => (parseF64 value).isSome

/-! ### The parser -/

/-- A key, an operator and a value, and what follows them. The word `or` is no key. -/
def takeClause (cs : List Char) : Option ((List Char × Op × List Char) × List Char) :=
  (takeBare cs).bind fun (keyTok, rest) =>
    if keyTok = "or".toList then none
    else
      (takeBare rest).bind fun (opTok, rest) =>
        (parseOp opTok).bind fun op =>
          (takeValue rest).map fun (value, rest) => ((keyTok, op, value), rest)

/-- Put one clause in front of those behind it. -/
def Filter.add (f : Filter) (key : Option Key) (op : Op) (value raw : String) : Filter :=
  match key with
  | some key =>
      if clauseSupported key op value then { f with clauses := ⟨key, op, value, raw⟩ :: f.clauses }
      else { f with unsupported := raw :: f.unsupported }
  | none => { f with unsupported := raw :: f.unsupported }

/-- The loop of `parse_filter`. Each turn reads a key, so the length of the text is enough fuel. -/
def parseLoop : ℕ → List Char → Filter
  | 0, _ => ⟨[], []⟩
  | fuel + 1, cs =>
      let start := skipWs cs
      if start = [] then ⟨[], []⟩
      else
        let tail := String.ofList (trim start)
        match takeClause start with
        | none => ⟨[], [tail]⟩
        | some ((keyTok, op, value), rest) =>
            let raw := String.ofList (trim (start.take (start.length - rest.length)))
            let behind : Filter :=
              match takeBare rest with
              | none => ⟨[], []⟩
              | some (join, rest) =>
                  if join = "and".toList then parseLoop fuel rest else ⟨[], [tail]⟩
            behind.add (parseKey keyTok) op (String.ofList value) raw

def parseFilter (s : String) : Filter := parseLoop (s.toList.length + 1) s.toList

/-! ### The meaning -/

/-- `Number::as_f64`. -/
def numberAsF64 : Number → F64
  | .posInt n => F64.ofInt n.toNat
  | .negInt n => F64.ofInt n.toInt
  | .float bits => F64.ofBits bits

def valueAsF64 : Value → Option F64
  | .number n => some (numberAsF64 n)
  | .string s => parseF64 s
  | .bool b => some (F64.ofInt (if b then 1 else 0))
  | _ => none

def numberKeyName (n : KeyNumber) : String := String.ofList (numberFamily ++ (toString n.1).toList)

def stringKeyName (n : KeyNumber) : String := String.ofList (stringFamily ++ (toString n.1).toList)

def searchNumber (l : LobbyView) (n : KeyNumber) : Option F64 :=
  (Entries.get? (numberKeyName n) l.searchData).bind valueAsF64

def cmpNum (a b : F64) (op : Op) : Bool :=
  let o := F64.partialCmp a b
  match op with
  | .eq => o == some .eq
  | .ne => o != some .eq
  | .le => o == some .lt || o == some .eq
  | .lt => o == some .lt
  | .ge => o == some .gt || o == some .eq
  | .gt => o == some .gt

/-- The two operators that every key has. -/
def equality (op : Op) (same : Bool) (raw : String) : Except String Bool :=
  match op with
  | .eq => .ok same
  | .ne => .ok !same
  | _ => .error raw

section
variable (host : Host)

def searchString (l : LobbyView) (n : KeyNumber) : Option String :=
  (Entries.get? (stringKeyName n) l.searchData).bind (valueAsString host)

def evalClause (c : Clause) (l : LobbyView) : Except String Bool :=
  let number (stored : Option F64) : Except String Bool :=
    match parseF64 c.value with
    | none => .error c.raw
    | some want => .ok ((stored.map fun x => cmpNum x want c.op).getD false)
  let flag (stored : Bool) : Except String Bool :=
    match parseBool c.value with
    | none => .error c.raw
    | some want => equality c.op (stored == want) c.raw
  match c.key with
  | .stringKey n =>
      match searchString host l n with
      | none => .ok false
      | some stored => equality c.op (stored == c.value) c.raw
  | .numberKey n => number (searchNumber l n)
  | .memberCount => number (some l.currentMembers)
  | .maxMemberCount => number (some l.maxPlayers)
  | .memberCountRemaining => number (some (F64.sub l.maxPlayers l.currentMembers))
  | .membershipLock =>
      equality c.op (Text.lower l.membershipLock.toList == Text.lower c.value.toList) c.raw
  | .amOwner => flag ((l.viewerId.map fun v => !v.isEmpty && v == l.ownerId).getD false)
  | .amMember => flag l.viewerIsMember
  | .amServer => flag l.hasServer
  | .lobbyId => equality c.op (l.id == c.value) c.raw

/-- `Filter::matches`. -/
def Filter.matchesView (f : Filter) (l : LobbyView) : Bool :=
  f.unsupported.isEmpty && f.clauses.all fun c =>
    match evalClause host c l with
    | .ok b => b
    | .error _ => false

end

end GbfrLan.Broker.LobbyFilter
