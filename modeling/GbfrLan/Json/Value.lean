import GbfrLan.Lib.OrdMap
import GbfrLan.Lib.Text

/-!
# JSON values

The value type of the broker's JSON library. Objects are ordered entry lists, so
an insertion keeps one entry for a key. A float is kept as the bits of its double.
-/
namespace GbfrLan.Json
open Lib

inductive Number where
  | posInt (n : UInt64)
  /-- Integers below zero. -/
  | negInt (n : Int64)
  | float (bits : UInt64)
  deriving DecidableEq, Repr

inductive Value where
  | null
  | bool (b : Bool)
  | number (n : Number)
  | string (s : String)
  | array (xs : List Value)
  | object (fields : List (String × Value))
  deriving Repr

/-- The map type behind an object. -/
abbrev Fields := Entries String Value

namespace Number

def asI64 : Number → Option ℤ
  | .posInt n => if n.toNat < 2 ^ 63 then some n.toNat else none
  | .negInt n => some n.toInt
  | .float _ => none

def asU64 : Number → Option ℕ
  | .posInt n => some n.toNat
  | _ => none

end Number

/-- The cast of an unsigned 64-bit number to a signed one. -/
def wrapI64 (n : ℕ) : ℤ := if n < 2 ^ 63 then n else n - 2 ^ 64

def parseI64 (s : String) : Option ℤ := Text.parseInt (-2 ^ 63) (2 ^ 63 - 1) s.toList

/-- An unsigned 64-bit number; a minus sign is no digit. -/
def parseU64 (cs : List Char) : Option ℕ :=
  let ds := match cs with
    | '+' :: ds => ds
    | ds => ds
  (Text.parseNat ds).filter fun n => decide (n < 2 ^ 64)

namespace Value

mutual

/-- Equality of values, entry by entry. -/
def beq : Value → Value → Bool
  | .null, .null => true
  | .bool a, .bool b => a == b
  | .number a, .number b => a == b
  | .string a, .string b => a == b
  | .array xs, .array ys => beqList xs ys
  | .object xs, .object ys => beqFields xs ys
  | _, _ => false

def beqList : List Value → List Value → Bool
  | [], [] => true
  | x :: xs, y :: ys => beq x y && beqList xs ys
  | _, _ => false

def beqFields : List (String × Value) → List (String × Value) → Bool
  | [], [] => true
  | x :: xs, y :: ys => beqField x y && beqFields xs ys
  | _, _ => false

def beqField : String × Value → String × Value → Bool
  | (k, v), (l, w) => k == l && beq v w

end

mutual

theorem beq_iff : ∀ a b : Value, beq a b = true ↔ a = b
  | .null, b => by cases b <;> simp [beq]
  | .bool a, b => by cases b <;> simp [beq]
  | .number a, b => by cases b <;> simp [beq]
  | .string a, b => by cases b <;> simp [beq]
  | .array xs, b => by cases b <;> simp [beq, beqList_iff xs]
  | .object xs, b => by cases b <;> simp [beq, beqFields_iff xs]

theorem beqList_iff : ∀ xs ys : List Value, beqList xs ys = true ↔ xs = ys
  | [], ys => by cases ys <;> simp [beqList]
  | x :: xs, ys => by cases ys <;> simp [beqList, beq_iff x, beqList_iff xs]

theorem beqFields_iff : ∀ xs ys : List (String × Value), beqFields xs ys = true ↔ xs = ys
  | [], ys => by cases ys <;> simp [beqFields]
  | x :: xs, ys => by cases ys <;> simp [beqFields, beqField_iff x, beqFields_iff xs]

theorem beqField_iff : ∀ x y : String × Value, beqField x y = true ↔ x = y
  | (k, v), (l, w) => by simp [beqField, beq_iff v]

end

instance : DecidableEq Value := fun a b => decidable_of_iff (beq a b = true) (beq_iff a b)

def asStr : Value → Option String
  | .string s => some s
  | _ => none

def asObject : Value → Option Fields
  | .object m => some m
  | _ => none

def asArray : Value → Option (List Value)
  | .array xs => some xs
  | _ => none

def asI64 : Value → Option ℤ
  | .number n => n.asI64
  | _ => none

def asU64 : Value → Option ℕ
  | .number n => n.asU64
  | _ => none

/-- The field of an object; nothing for other values. -/
def get (v : Value) (key : String) : Option Value := v.asObject.bind (Entries.get? key)

/-- Insert into an object, the way `as_object_mut` is used: other values stay. -/
def insertField (v : Value) (key : String) (x : Value) : Value :=
  match v with
  | .object m => .object (Entries.insert key x m)
  | v => v

/-- The object of the given fields. -/
def obj (fields : List (String × Value)) : Value :=
  .object (fields.foldl (fun m e => Entries.insert e.1 e.2 m) [])

@[simp] theorem get_object (m : Fields) (key : String) :
    (Value.object m).get key = Entries.get? key m := rfl

theorem get_obj (fields : List (String × Value)) (key : String) :
    (obj fields).get key = Entries.get? key fields.reverse := by
  rw [obj, get_object, Entries.get?_foldl_insert, Entries.get?_nil, Option.or_none]

/-- The fields of an object in their order, from the order of numbers in their places. -/
theorem obj_map {fields sorted : List (String × ℕ)} (f : ℕ → Value)
    (h : fields.foldl (fun m e => Entries.insert e.1 e.2 m) [] = sorted) :
    obj (fields.map (Prod.map id f)) = .object (sorted.map (Prod.map id f)) := by
  rw [← h, ← Entries.foldl_insert_map]
  rfl

/-- Inserting under another key leaves a field alone. -/
theorem get_insertField_of_ne {key key' : String} (h : key' ≠ key) (v x : Value) :
    (v.insertField key x).get key' = v.get key' := by
  cases v with
  | object m => simp [insertField, h]
  | _ => rfl

end Value

/-- `json_str` of the broker. -/
def jsonStr (v : Value) (key : String) : Option String := (v.get key).bind Value.asStr

/-- `json_i64` of the broker: a signed number, an unsigned one cast, or its text. -/
def jsonI64 (v : Value) (key : String) : Option ℤ :=
  (v.get key).bind fun x =>
    x.asI64.or ((x.asU64.map wrapI64).or (x.asStr.bind parseI64))

/-- The strings of the first of these fields that is an array. -/
def jsonStrArray (v : Value) : List String → List String
  | [] => []
  | key :: keys =>
      match (v.get key).bind Value.asArray with
      | some xs => xs.filterMap Value.asStr
      | none => jsonStrArray v keys

end GbfrLan.Json
