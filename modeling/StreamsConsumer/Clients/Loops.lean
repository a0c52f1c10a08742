import StreamsConsumer.Protocol.Messages

/-!
# The loops of the clients

The five bindings read the lines of the sidecar, call the customer's processor
and acknowledge what it has processed. They differ in what they make of lines
that no sidecar writes, and in how they end. `convert` is the conversion of one
record, which may fail; every hook is there; a broken pipe, an object with one
key twice (in Go: up to case) and the limits of the JSON readers other than
`System.Text.Json`, which are higher, are not modelled.
-/

namespace StreamsConsumer
open Json Sidecar

namespace Clients

/-! ## What a worker does -/

/-- A shard that is no text is what the message had there, or nothing. -/
inductive Call (R : Type) where
  | processRecords (records : List R)
  | shardEnded (shard : Option Value)
  | leaseLost (shard : Option Value)
  | shutdownRequested (shard : Option Value)

inductive Event (R : Type) where
  | called (c : Call R) (returned : Bool)
  | wrote (msg : Value)
  | closed

/-- The customer's code: whether a call returns may depend on the calls before. -/
abbrev Processor (R : Type) := List (Call R) → Call R → Bool

inductive Flow where
  | next
  | leave
  | raised
  deriving DecidableEq, Repr

structure Outcome (R : Type) where
  events : List (Event R)
  flow : Flow

section
variable {R : Type}

def Event.call? : Event R → Option (Call R)
  | .called c _ => some c
  | _ => none

def Event.isClosed : Event R → Bool
  | .closed => true
  | _ => false

def calls (past : List (Event R)) : List (Call R) := past.filterMap Event.call?

def isClosed (past : List (Event R)) : Bool := past.any Event.isClosed

/-- The entry of an object: the last one of a key counts. -/
def get (k : String) (fields : List (String × Value)) : Option Value := (fields.reverse.find? fun f => f.1 = k).map Prod.snd

def readyMessage : Value := .obj [("type", .str "ready")]

def stopMessage : Value := .obj [("type", .str "stop")]

def nothing : Outcome R := ⟨[], .next⟩

def raise : Outcome R := ⟨[], .raised⟩

variable (convert : Option Value → Value → Option R) (p : Processor R) (past : List (Event R))

def call (c : Call R) : Outcome R := ⟨[.called c (p (calls past) c)], if p (calls past) c then .next else .raised⟩

def process (records : List R) (ack : Outcome R) : Outcome R :=
  if p (calls past) (.processRecords records) then ⟨.called (.processRecords records) true :: ack.events, ack.flow⟩
  else ⟨[.called (.processRecords records) false], .raised⟩

/-- A message that is not written once the pipe is closed. -/
def send (msg : Value) : Outcome R := ⟨if isClosed past then [] else [.wrote msg], .next⟩

/-- `stop` of the binding's user, from any thread: the pipe stays open. -/
def stop : Outcome R := send past stopMessage

/-- The pipe is closed after a last `stop`. -/
def stopInternal : Outcome R := ⟨if isClosed past then [] else [.wrote stopMessage, .closed], .next⟩

namespace Python

def hook (c : Option Value → Call R) (fields : List (String × Value)) : Outcome R :=
  match get "shard" fields with
  | none => raise
  | some shard => call p past (c (some shard))

def ack (shard : Value) (fields : List (String × Value)) : Outcome R :=
  match get "last_seq" fields with
  | none => raise
  | some seq => send past (.obj [("type", .str "checkpoint"), ("shard", shard), ("seq", seq)])

/-- What `for` runs over. `from_wire` raises on the keys of a dict and on the letters of a text. -/
def records : Value → Option (List Value)
  | .arr xs => some xs
  | .obj [] => some []
  | .str "" => some []
  | _ => none

def handleRecords (fields : List (String × Value)) : Outcome R :=
  match get "shard" fields with
  | none => raise
  | some shard =>
    match (records ((get "records" fields).getD (.arr []))).bind fun xs => xs.mapM (convert (some shard)) with
    | none => raise
    | some rs => process p past rs (ack past shard fields)

def handle : Value → Outcome R
  | .obj fields =>
    match get "type" fields with
    | some (.str kind) =>
      match kind with
      | "records" => handleRecords convert p past fields
      | "shard_complete" => hook p past .shardEnded fields
      | "lease_lost" => hook p past .leaseLost fields
      | "shutdown_requested" => hook p past .shutdownRequested fields
      | "shutdown" => ⟨[], .leave⟩
      | _ => nothing
    | _ => nothing
  -- `msg.get` of what is no dict
  | _ => raise

end Python

namespace Go

/-- Besides the capitals, two letters fold to ASCII. -/
def foldRune (c : Char) : Char := if c = 'ſ' then 's' else if c = '\u212a' then 'k' else c.toLower

def foldName (k : String) : String := String.ofList (k.toList.map foldRune)

/-- The field of a struct: the case of the key does not matter. -/
def get (k : String) (fields : List (String × Value)) : Option Value :=
  Clients.get k (fields.map fun f => (foldName f.1, f.2))

/-- A field of type `string`: `none` if the line cannot be unmarshalled. -/
def string : Option Value → Option String
  | none => some ""
  | some .null => some ""
  | some (.str s) => some s
  | some _ => none

def map : Option Value → Bool
  | none => true
  | some .null => true
  | some (.obj _) => true
  | some _ => false

def wireRecord : Value → Bool
  | .null => true
  | .obj fields =>
    (string (get "event_name" fields)).isSome && (string (get "sequence_number" fields)).isSome &&
      (string (get "stream_view_type" fields)).isSome && map (get "keys" fields) && map (get "new_image" fields) &&
      map (get "old_image" fields)
  | _ => false

def records : Option Value → Option (List Value)
  | none => some []
  | some .null => some []
  | some (.arr xs) => if xs.all wireRecord then some xs else none
  | some _ => none

/-- A map is marshalled in the order of its keys. -/
def checkpoint (shard seq : String) : Value := .obj [("seq", .str seq), ("shard", .str shard), ("type", .str "checkpoint")]

def dispatch (kind shard seq : String) (xs : List Value) : Outcome R :=
  match kind with
  -- a record that cannot be decoded is skipped
  | "records" => process p past (xs.filterMap (convert (some (.str shard)))) (send past (checkpoint shard seq))
  | "shard_complete" => call p past (.shardEnded (some (.str shard)))
  | "lease_lost" => call p past (.leaseLost (some (.str shard)))
  | "shutdown_requested" => call p past (.shutdownRequested (some (.str shard)))
  | "shutdown" => ⟨[], .leave⟩
  | _ => nothing

def handle : Value → Outcome R
  | .obj fields =>
    match string (get "type" fields), string (get "shard" fields), string (get "last_seq" fields),
      records (get "records" fields) with
    | some kind, some shard, some seq, some xs => dispatch convert p past kind shard seq xs
    | _, _, _, _ => nothing
  | _ => nothing

end Go

namespace Node

/-- `JSON.stringify` leaves out what is undefined. -/
def checkpoint (shard seq : Option Value) : Value :=
  .obj (("type", .str "checkpoint") :: ((shard.map fun s => ("shard", s)).toList ++ (seq.map fun q => ("seq", q)).toList))

/-- `msg.records ?? []`; only an array has a `map`. -/
def records : Option Value → Option (List Value)
  | none => some []
  | some .null => some []
  | some (.arr xs) => some xs
  | some _ => none

def handleRecords (fields : List (String × Value)) : Outcome R :=
  match (records (get "records" fields)).bind fun xs => xs.mapM (convert (get "shard" fields)) with
  | none => raise
  | some rs => process p past rs (send past (checkpoint (get "shard" fields) (get "last_seq" fields)))

def handle : Value → Outcome R
  | .obj fields =>
    match get "type" fields with
    | some (.str kind) =>
      match kind with
      | "records" => handleRecords convert p past fields
      | "shard_complete" => call p past (.shardEnded (get "shard" fields))
      | "lease_lost" => call p past (.leaseLost (get "shard" fields))
      | "shutdown_requested" => call p past (.shutdownRequested (get "shard" fields))
      | "shutdown" => stopInternal past
      | _ => nothing
    | _ => nothing
  | .null => raise
  | _ => nothing

end Node

namespace Java

def asText (default : Option String) : Option Value → Option String
  | none => default
  | some .null => default
  | some (.str s) => some s
  | some (.num n) => some (toString n)
  | some (.bool b) => some (toString b)
  | some _ => some ""

def orNull : Option String → Value
  | none => .null
  | some s => .str s

def shard (fields : List (String × Value)) : Option Value := some (orNull (asText (some "") (get "shard" fields)))

def records : Option Value → List Value
  | some (.arr xs) => xs
  | _ => []

/-- Writing to the closed stream ends `run` with an `IOException`. -/
def ack (fields : List (String × Value)) : Outcome R :=
  if isClosed past then raise
  else
    send past (.obj [("type", .str "checkpoint"), ("shard", orNull (asText (some "") (get "shard" fields))),
      ("seq", orNull (asText none (get "last_seq" fields)))])

def handleRecords (fields : List (String × Value)) : Outcome R :=
  match (records (get "records" fields)).mapM (convert (shard fields)) with
  | none => raise
  | some rs => process p past rs (ack past fields)

def handle : Value → Outcome R
  | .obj fields =>
    match asText none (get "type" fields) with
    | some kind =>
      match kind with
      | "records" => handleRecords convert p past fields
      | "shard_complete" => call p past (.shardEnded (shard fields))
      | "lease_lost" => call p past (.leaseLost (shard fields))
      | "shutdown_requested" => call p past (.shutdownRequested (shard fields))
      | "shutdown" => stopInternal past
      | _ => nothing
    | none => nothing
  | _ => nothing

end Java

namespace DotNet

/-- `GetString` throws unless the element is a text or null. -/
def getString : Value → Option (Option String)
  | .str s => some (some s)
  | .null => some none
  | _ => none

def property (k : String) (fields : List (String × Value)) : Option (Option String) :=
  match get k fields with
  | none => some none
  | some v => getString v

def checkpoint (shard : String) (seq : Option String) : Value :=
  .obj [("type", .str "checkpoint"), ("shard", .str shard), ("seq", Java.orNull seq)]

def handleRecords (fields : List (String × Value)) : Outcome R :=
  match property "shard" fields, property "last_seq" fields with
  | some shard, some seq =>
    match (Java.records (get "records" fields)).mapM (convert (some (.str (shard.getD "")))) with
    | none => raise
    | some rs => process p past rs (send past (checkpoint (shard.getD "") seq))
  | _, _ => raise

def hook (c : Option Value → Call R) (fields : List (String × Value)) : Outcome R :=
  match get "shard" fields with
  | none => nothing
  | some v =>
    match getString v with
    | none => raise
    | some shard => call p past (c (some (.str (shard.getD ""))))

def handle : Value → Outcome R
  | .obj fields =>
    match get "type" fields with
    | none => nothing
    | some v =>
      match getString v with
      | none => raise
      | some none => nothing
      | some (some kind) =>
        match kind with
        | "records" => handleRecords convert p past fields
        | "shard_complete" => hook p past .shardEnded fields
        | "lease_lost" => hook p past .leaseLost fields
        | "shutdown_requested" => hook p past .shutdownRequested fields
        | "shutdown" => stopInternal past
        | _ => nothing
  | _ => nothing

end DotNet

end

/-! ## Whole runs -/

/-- A binding: the line breaks it knows, the lines and the values it takes in, how it looks a key up, what it does about
a message and at the end. -/
structure Client (R : Type) where
  brk : Char → Bool
  fits : List Char → Bool
  reads : Value → Bool
  get : String → List (String × Value) → Option Value
  handle : Processor R → List (Event R) → Value → Outcome R
  finish : List (Event R) → Flow → List (Event R)

namespace Client
variable {R : Type} (c : Client R) (p : Processor R)

/-- The values of the lines: a line that is too long ends the loop, and one that is no JSON is skipped, as is a value that is
not taken in. -/
def values (stream : List Char) : List Value :=
  ((lines c.brk stream).takeWhile c.fits).filterMap fun line => (Value.read line).filter c.reads

/-- The events up to the end of some messages that the loop goes through. -/
def after (past : List (Event R)) (vs : List Value) : List (Event R) :=
  vs.foldl (fun past v => past ++ (c.handle p past v).events) past

def follow : List (Event R) → List Value → List (Event R)
  | past, [] => past ++ c.finish past .next
  | past, v :: vs =>
    let o := c.handle p past v
    match o.flow with
    | .next => follow (past ++ o.events) vs
    | flow => past ++ o.events ++ c.finish (past ++ o.events) flow

def run (stream : List Char) : List (Event R) := c.follow p [.wrote readyMessage] (c.values stream)

end Client

section
variable {R : Type} (convert : Option Value → Value → Option R)

def universalNewline (c : Char) : Bool := c == '\n' || c == '\r'

/-- `finally: self._stop()`. -/
def python : Client R where
  brk := universalNewline
  fits _ := true
  reads _ := true
  get := get
  handle := Python.handle convert
  finish past _ := (stopInternal past).events

def MAX_LINE : Nat := 16 * 1024 * 1024

def go : Client R where
  brk := lineFeed
  fits line := (String.ofList line).utf8ByteSize < MAX_LINE
  reads _ := true
  get := Go.get
  handle := Go.handle convert
  finish past flow := if flow = .raised ∨ isClosed past then [] else [.closed]

/-- `readline` also breaks lines at U+2028 and U+2029. -/
def node : Client R where
  brk c := universalNewline c || c == '\u2028' || c == '\u2029'
  fits _ := true
  reads _ := true
  get := get
  handle := Node.handle convert
  finish _ _ := []

def java : Client R where
  brk := universalNewline
  fits _ := true
  reads _ := true
  get := get
  handle := Java.handle convert
  finish _ _ := []

def MAX_DEPTH : Nat := 64

def dotNet : Client R where
  brk := universalNewline
  fits _ := true
  reads v := v.depth ≤ MAX_DEPTH
  get := get
  handle := DotNet.handle convert
  finish _ _ := []

def bindings : List (Client R) := [python convert, go convert, node convert, java convert, dotNet convert]

end

end Clients

end StreamsConsumer
