import StreamsConsumer.Json.Value

/-!
# DynamoDB JSON in the clients

The `ddb_json` conversions of the four clients. The Rust client converts the
attribute values themselves, the others what serde writes of them. The entries
of an object come in the order of the client's own map. A payload that serde
writes under no tag of this kind ends in `typeMismatch`, whatever the language
would make of it; `b64` is the base64 encoder.
-/

namespace StreamsConsumer
open Json

namespace Clients

inductive AttrValue where
  | s (text : String)
  | n (text : String)
  | bool (b : Bool)
  | null
  | b (bytes : List UInt8)
  | m (fields : List (String × AttrValue))
  | l (xs : List AttrValue)
  | ss (xs : List String)
  | ns (xs : List String)
  | bs (xs : List (List UInt8))

namespace AttrValue

mutual
/-- The maps are `BTreeMap`s: their keys ascend. -/
def Sorted : AttrValue → Prop
  | .m fields => SortedKeys fields ∧ SortedFields fields
  | .l xs => SortedList xs
  | _ => True
def SortedList : List AttrValue → Prop
  | [] => True
  | x :: xs => x.Sorted ∧ SortedList xs
def SortedFields : List (String × AttrValue) → Prop
  | [] => True
  | (_, x) :: fields => x.Sorted ∧ SortedFields fields
end

end AttrValue

/-- One attribute value, its maps in order. -/
structure Attr where
  value : AttrValue
  sorted : value.Sorted

structure Item where
  fields : List (String × AttrValue)
  keys_sorted : SortedKeys fields
  values_sorted : AttrValue.SortedFields fields

/-! ## The wire -/

def bytesToWire (bytes : List UInt8) : Value := .arr (bytes.map fun b => .num b.toNat)

mutual
/-- What serde writes: externally tagged, bytes as arrays of integers. -/
def toWire : AttrValue → Value
  | .s text => .obj [("S", .str text)]
  | .n text => .obj [("N", .str text)]
  | .bool b => .obj [("Bool", .bool b)]
  | .null => .str "Null"
  | .b bytes => .obj [("B", bytesToWire bytes)]
  | .m fields => .obj [("M", .obj (toWireFields fields))]
  | .l xs => .obj [("L", .arr (toWireList xs))]
  | .ss xs => .obj [("Ss", .arr (xs.map .str))]
  | .ns xs => .obj [("Ns", .arr (xs.map .str))]
  | .bs xs => .obj [("Bs", .arr (xs.map bytesToWire))]
def toWireList : List AttrValue → List Value
  | [] => []
  | x :: xs => toWire x :: toWireList xs
def toWireFields : List (String × AttrValue) → List (String × Value)
  | [] => []
  | (k, x) :: fields => (k, toWire x) :: toWireFields fields
end

/-! ## The Rust client -/

namespace Rust

mutual
def toDdbJson (b64 : List UInt8 → String) : AttrValue → Value
  | .s text => .obj [("S", .str text)]
  | .n text => .obj [("N", .str text)]
  | .bool b => .obj [("BOOL", .bool b)]
  | .null => .obj [("NULL", .bool true)]
  | .b bytes => .obj [("B", .str (b64 bytes))]
  | .m fields => .obj [("M", .obj (ofEntries (mapFields b64 fields)))]
  | .l xs => .obj [("L", .arr (mapList b64 xs))]
  | .ss xs => .obj [("SS", .arr (xs.map .str))]
  | .ns xs => .obj [("NS", .arr (xs.map .str))]
  | .bs xs => .obj [("BS", .arr (xs.map fun x => .str (b64 x)))]
def mapList (b64 : List UInt8 → String) : List AttrValue → List Value
  | [] => []
  | x :: xs => toDdbJson b64 x :: mapList b64 xs
def mapFields (b64 : List UInt8 → String) : List (String × AttrValue) → List (String × Value)
  | [] => []
  | (k, x) :: fields => (k, toDdbJson b64 x) :: mapFields b64 fields
end

def itemToJson (b64 : List UInt8 → String) (fields : List (String × AttrValue)) : Value :=
  .obj (ofEntries (mapFields b64 fields))

end Rust

/-! ## The other clients -/

inductive ConvertError where
  | invalidValue (v : Value)
  | tagCount (n : Nat)
  | unknownTag (tag : String)
  | bareString (s : String)
  | notTagged
  | byteRange (n : Int)
  | attr (k : String) (e : ConvertError)
  | typeMismatch

def textOf : Value → Except ConvertError String
  | .str s => .ok s
  | _ => .error .typeMismatch

def boolOf : Value → Except ConvertError Bool
  | .bool b => .ok b
  | _ => .error .typeMismatch

def arrayOf : Value → Except ConvertError (List Value)
  | .arr xs => .ok xs
  | _ => .error .typeMismatch

def bytesOf (byte : Int → Except ConvertError UInt8) (v : Value) : Except ConvertError (List UInt8) := do
  (← arrayOf v).mapM fun
    | .num n => byte n
    | _ => .error .typeMismatch

/-- A loop over converted entries that fills a new map: the first failure ends it. -/
def fill (set : List (String × Value) → String → Value → List (String × Value)) (wrap : String → ConvertError → ConvertError)
    (entries : List (String × Except ConvertError Value)) : Except ConvertError (List (String × Value)) :=
  entries.foldlM (fun out e => do return set out e.1 (← e.2.mapError (wrap e.1))) []

namespace Python

def byte (n : Int) : Except ConvertError UInt8 :=
  if 0 ≤ n ∧ n < 256 then .ok (UInt8.ofNat n.toNat) else .error (.byteRange n)

def dict : List (String × Except ConvertError Value) → Except ConvertError (List (String × Value)) :=
  fill assign fun _ e => e

mutual
def toDdbJson (b64 : List UInt8 → String) : Value → Except ConvertError Value
  | .str s => if s = "Null" then .ok (.obj [("NULL", .bool true)]) else .ok (.str s)
  | .obj [(tag, val)] =>
    match tag with
    | "S" => .ok (.obj [("S", val)])
    | "N" => .ok (.obj [("N", val)])
    | "Bool" => .ok (.obj [("BOOL", val)])
    | "B" => do return .obj [("B", .str (b64 (← bytesOf byte val)))]
    | "M" =>
      match val with
      | .obj fields => do return .obj [("M", .obj (← dict (convertFields b64 fields)))]
      | _ => .error .typeMismatch
    | "L" =>
      match val with
      | .arr xs => do return .obj [("L", .arr (← (convertList b64 xs).mapM id))]
      | _ => .error .typeMismatch
    | "Ss" => do return .obj [("SS", .arr (← arrayOf val))]
    | "Ns" => do return .obj [("NS", .arr (← arrayOf val))]
    | "Bs" => do return .obj [("BS", .arr (← (← arrayOf val).mapM fun b => do return .str (b64 (← bytesOf byte b))))]
    | _ => .ok (.obj [(tag, val)])
  | av => .ok av
def convertList (b64 : List UInt8 → String) : List Value → List (Except ConvertError Value)
  | [] => []
  | x :: xs => toDdbJson b64 x :: convertList b64 xs
def convertFields (b64 : List UInt8 → String) : List (String × Value) → List (String × Except ConvertError Value)
  | [] => []
  | (k, x) :: fields => (k, toDdbJson b64 x) :: convertFields b64 fields
end

def ddbJsonItem (b64 : List UInt8 → String) : Option (List (String × Value)) → Except ConvertError (List (String × Value))
  | none => .ok []
  | some fields => dict (convertFields b64 fields)

end Python

namespace Go

def byte (n : Int) : Except ConvertError UInt8 :=
  if n < 0 ∨ n > 255 then .error (.byteRange n) else .ok (UInt8.ofNat n.toNat)

def decodeBytes : Value → Except ConvertError (List UInt8) := bytesOf byte

mutual
def ddbJSONAttr (b64 : List UInt8 → String) : Value → Except ConvertError Value
  | .str s => if s = "Null" then .ok (.obj [("NULL", .bool true)]) else .error (.bareString s)
  | .null => .error (.bareString "")
  | .obj [(tag, val)] =>
    match tag with
    | "S" => do return .obj [("S", .str (← textOf val))]
    | "N" => do return .obj [("N", .str (← textOf val))]
    | "Bool" => do return .obj [("BOOL", .bool (← boolOf val))]
    | "B" => do return .obj [("B", .str (b64 (← decodeBytes val)))]
    | "Ss" => do return .obj [("SS", .arr ((← (← arrayOf val).mapM textOf).map .str))]
    | "Ns" => do return .obj [("NS", .arr ((← (← arrayOf val).mapM textOf).map .str))]
    | "Bs" => do return .obj [("BS", .arr (← (← arrayOf val).mapM fun a => do return .str (b64 (← decodeBytes a))))]
    | "M" =>
      match val with
      | .obj fields => do return .obj [("M", .obj (← fill assign .attr (convertFields b64 fields)))]
      | _ => .error .typeMismatch
    | "L" =>
      match val with
      | .arr xs => do return .obj [("L", .arr (← (convertList b64 xs).mapM id))]
      | _ => .error .typeMismatch
    | tag => .error (.unknownTag tag)
  | .obj fields => .error (.tagCount fields.length)
  | _ => .error .notTagged
def convertList (b64 : List UInt8 → String) : List Value → List (Except ConvertError Value)
  | [] => []
  | x :: xs => ddbJSONAttr b64 x :: convertList b64 xs
def convertFields (b64 : List UInt8 → String) : List (String × Value) → List (String × Except ConvertError Value)
  | [] => []
  | (k, x) :: fields => (k, ddbJSONAttr b64 x) :: convertFields b64 fields
end

def ddbJSONItem (b64 : List UInt8 → String) (fields : List (String × Value)) : Except ConvertError (List (String × Value)) :=
  fill assign .attr (convertFields b64 fields)

end Go

namespace Node

/-- `Buffer.from` takes every number modulo 256. -/
def byte (n : Int) : Except ConvertError UInt8 := .ok (UInt8.ofNat (n % 256).toNat)

/-- `out[k] = v` on an ordinary object: the key `__proto__` sets its prototype and makes no property. -/
def setOwn (out : List (String × Value)) (k : String) (v : Value) : List (String × Value) :=
  if k = "__proto__" then out else assign out k v

mutual
def toDdbJson (b64 : List UInt8 → String) : Value → Except ConvertError Value
  | .str s => if s = "Null" then .ok (.obj [("NULL", .bool true)]) else .error (.invalidValue (.str s))
  | .obj [(tag, val)] =>
    match tag with
    | "S" => do return .obj [("S", .str (← textOf val))]
    | "N" => do return .obj [("N", .str (← textOf val))]
    | "Bool" => do return .obj [("BOOL", .bool (← boolOf val))]
    | "B" => do return .obj [("B", .str (b64 (← bytesOf byte val)))]
    | "Ss" => do return .obj [("SS", .arr ((← (← arrayOf val).mapM textOf).map .str))]
    | "Ns" => do return .obj [("NS", .arr ((← (← arrayOf val).mapM textOf).map .str))]
    | "Bs" => do return .obj [("BS", .arr (← (← arrayOf val).mapM fun a => do return .str (b64 (← bytesOf byte a))))]
    | "M" =>
      match val with
      | .obj fields => do return .obj [("M", .obj (← fill setOwn (fun _ e => e) (convertFields b64 fields)))]
      | _ => .error .typeMismatch
    | "L" =>
      match val with
      | .arr xs => do return .obj [("L", .arr (← (convertList b64 xs).mapM id))]
      | _ => .error .typeMismatch
    | tag => .error (.unknownTag tag)
  | .obj fields => .error (.tagCount fields.length)
  | v => .error (.invalidValue v)
def convertList (b64 : List UInt8 → String) : List Value → List (Except ConvertError Value)
  | [] => []
  | x :: xs => toDdbJson b64 x :: convertList b64 xs
def convertFields (b64 : List UInt8 → String) : List (String × Value) → List (String × Except ConvertError Value)
  | [] => []
  | (k, x) :: fields => (k, toDdbJson b64 x) :: convertFields b64 fields
end

def ddbJsonItem (b64 : List UInt8 → String) : Option (List (String × Value)) → Except ConvertError (List (String × Value))
  | none => .ok []
  | some fields => fill setOwn (fun _ e => e) (convertFields b64 fields)

end Node

end Clients

end StreamsConsumer
