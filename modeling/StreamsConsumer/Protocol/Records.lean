import StreamsConsumer.Clients.Agreement
import StreamsConsumer.Core.Position
import StreamsConsumer.Json.Text

/-!
# Records on the wire

`core/src/record.rs`: what serde writes of a change record and what it makes of
a JSON value. A map is read into a `BTreeMap`, the last entry of a key wins. An
object may have other fields than those of the struct, but none of these twice.
`serde_json` refuses a text that nests 128 deep, so `decode` gives back what
`encode` was given up to that depth, and nothing below.
-/

namespace StreamsConsumer
open Json
open Clients (AttrValue Attr Item bytesToWire toWire toWireList toWireFields)

/-! ## Reading values -/

namespace Serde

def text : Value → Option String
  | .str s => some s
  | _ => none

def byte : Value → Option UInt8
  | .num n => if 0 ≤ n ∧ n < 256 then some (UInt8.ofNat n.toNat) else none
  | _ => none

def int64 : Value → Option Int64
  | .num n => if Int64.minValue.toInt ≤ n ∧ n ≤ Int64.maxValue.toInt then some (Int64.ofInt n) else none
  | _ => none

def list {α : Type} (decode : Value → Option α) : Value → Option (List α)
  | .arr xs => xs.mapM decode
  | _ => none

def bytes : Value → Option (List UInt8) := list byte

/-- The field of a struct: `none` if it is there twice. -/
def field (k : String) (fields : List (String × Value)) : Option (Option Value) :=
  match fields.filter fun f => f.1 = k with
  | [] => some none
  | [f] => some (some f.2)
  | _ => none

def required {α : Type} (decode : Value → Option α) (k : String) (fields : List (String × Value)) : Option α := do
  decode (← (← field k fields))

/-- A field of type `Option`: absent and `null` are `None`. -/
def optional {α : Type} (decode : Value → Option α) (k : String) (fields : List (String × Value)) : Option (Option α) := do
  match ← field k fields with
  | none => return none
  | some .null => return none
  | some v => return some (← decode v)

end Serde

/-! ## Attribute values -/

namespace Clients

namespace Item

theorem ofList_sorted (fields : List (String × Attr)) :
    AttrValue.SortedFields (ofEntries (fields.map fun f => (f.1, f.2.value))) := by
  rw [AttrValue.sortedFields_iff]
  intro f hf
  obtain ⟨e, _, rfl⟩ := List.mem_map.mp ((ofEntries_sortedKeys _).2 f hf)
  exact e.2.sorted

def ofList (fields : List (String × Attr)) : Item :=
  ⟨ofEntries (fields.map fun f => (f.1, f.2.value)), (ofEntries_sortedKeys _).1, ofList_sorted fields⟩

end Item

namespace Attr

def m (item : Item) : Attr := ⟨.m item.fields, item.keys_sorted, item.values_sorted⟩

def l (xs : List Attr) : Attr :=
  ⟨.l (xs.map Attr.value), AttrValue.sortedList_iff.mpr fun x hx => by
    obtain ⟨a, _, rfl⟩ := List.mem_map.mp hx
    exact a.sorted⟩

mutual
def ofWire : Value → Option Attr
  | .str s => if s = "Null" then some ⟨.null, trivial⟩ else none
  | .obj [(tag, v)] =>
    match tag with
    | "S" => (Serde.text v).map fun s => ⟨.s s, trivial⟩
    | "N" => (Serde.text v).map fun s => ⟨.n s, trivial⟩
    | "Bool" =>
      match v with
      | .bool b => some ⟨.bool b, trivial⟩
      | _ => none
    | "Null" =>
      match v with
      | .null => some ⟨.null, trivial⟩
      | _ => none
    | "B" => (Serde.bytes v).map fun bytes => ⟨.b bytes, trivial⟩
    | "M" =>
      match v with
      | .obj fields => (fieldsOfWire fields).map fun fields => .m (.ofList fields)
      | _ => none
    | "L" =>
      match v with
      | .arr xs => (listOfWire xs).map .l
      | _ => none
    | "Ss" => (Serde.list Serde.text v).map fun xs => ⟨.ss xs, trivial⟩
    | "Ns" => (Serde.list Serde.text v).map fun xs => ⟨.ns xs, trivial⟩
    | "Bs" => (Serde.list Serde.bytes v).map fun xs => ⟨.bs xs, trivial⟩
    | _ => none
  | _ => none
def listOfWire : List Value → Option (List Attr)
  | [] => some []
  | x :: xs => do return (← ofWire x) :: (← listOfWire xs)
def fieldsOfWire : List (String × Value) → Option (List (String × Attr))
  | [] => some []
  | (k, x) :: fields => do return (k, ← ofWire x) :: (← fieldsOfWire fields)
end

end Attr

def Item.ofWire : Value → Option Item
  | .obj fields => (Attr.fieldsOfWire fields).map .ofList
  | _ => none

def Item.toWire (item : Item) : Value := .obj (toWireFields item.fields)

end Clients

/-! ## Change records -/

structure StreamRecord where
  eventName : Option String
  sequenceNumber : Option String
  sizeBytes : Option Int64
  streamViewType : Option String
  keys : Item
  newImage : Option Item
  oldImage : Option Item
  approxCreationTimeMs : Option Int64

namespace StreamRecord

def orNull {α : Type} (write : α → Value) : Option α → Value
  | none => .null
  | some a => write a

def int64ToValue (n : Int64) : Value := .num n.toInt

def entries (r : StreamRecord) : List (String × Value) :=
  [("event_name", orNull .str r.eventName), ("sequence_number", orNull .str r.sequenceNumber),
    ("size_bytes", orNull int64ToValue r.sizeBytes), ("stream_view_type", orNull .str r.streamViewType),
    ("keys", r.keys.toWire), ("new_image", orNull Item.toWire r.newImage), ("old_image", orNull Item.toWire r.oldImage)] ++
    (r.approxCreationTimeMs.map fun t => ("approx_creation_time_ms", int64ToValue t)).toList

def toValue (r : StreamRecord) : Value := .obj r.entries

def ofValue : Value → Option StreamRecord
  | .obj fields => do
    return {
      eventName := ← Serde.optional Serde.text "event_name" fields
      sequenceNumber := ← Serde.optional Serde.text "sequence_number" fields
      sizeBytes := ← Serde.optional Serde.int64 "size_bytes" fields
      streamViewType := ← Serde.optional Serde.text "stream_view_type" fields
      keys := ← Serde.required Item.ofWire "keys" fields
      newImage := ← Serde.optional Item.ofWire "new_image" fields
      oldImage := ← Serde.optional Item.ofWire "old_image" fields
      approxCreationTimeMs := ← Serde.optional Serde.int64 "approx_creation_time_ms" fields }
  | _ => none

end StreamRecord

/-! ## Round trips -/

namespace Serde

section
variable {α : Type} {decode : Value → Option α} {k : String} {fields : List (String × Value)}

theorem field_of_mem {v : Value} (hn : (fields.map Prod.fst).Nodup) (hm : (k, v) ∈ fields) :
    field k fields = some (some v) := by
  have hone : (fields.filter fun f => f.1 = k) = [(k, v)] := by
    obtain ⟨before, after, rfl⟩ := List.append_of_mem hm
    rw [List.map_append, List.map_cons, List.nodup_append, List.nodup_cons] at hn
    obtain ⟨-, ⟨hafter, -⟩, hbefore⟩ := hn
    rw [List.filter_append, List.filter_cons_of_pos (by simp)]
    have hnone : before.filter (fun f => f.1 = k) = [] := by
      rw [List.filter_eq_nil_iff]
      intro f hf
      simpa using hbefore f.1 (List.mem_map_of_mem hf) k (by simp)
    have hrest : after.filter (fun f => f.1 = k) = [] := by
      rw [List.filter_eq_nil_iff]
      rintro f hf hk
      simp only [decide_eq_true_eq] at hk
      exact hafter (List.mem_map.mpr ⟨f, hf, hk⟩)
    rw [hnone, hrest, List.nil_append]
  unfold field
  rw [hone]

theorem field_of_notMem (h : k ∉ fields.map Prod.fst) : field k fields = some none := by
  have hnone : (fields.filter fun f => f.1 = k) = [] := by
    rw [List.filter_eq_nil_iff]
    rintro f hf hk
    simp only [decide_eq_true_eq] at hk
    exact h (List.mem_map.mpr ⟨f, hf, hk⟩)
  unfold field
  rw [hnone]

theorem required_of_mem {v : Value} {a : α} (hn : (fields.map Prod.fst).Nodup) (hm : (k, v) ∈ fields)
    (h : decode v = some a) : required decode k fields = some a := by
  simp [required, field_of_mem hn hm, h]

theorem optional_of_mem {write : α → Value} {a : Option α} (hn : (fields.map Prod.fst).Nodup)
    (hm : (k, StreamRecord.orNull write a) ∈ fields) (h : ∀ b, decode (write b) = some b) (hnull : ∀ b, write b ≠ .null) :
    optional decode k fields = some a := by
  unfold optional
  rw [field_of_mem hn hm]
  cases a with
  | none => rfl
  | some b =>
    simp only [StreamRecord.orNull, Option.bind_eq_bind, Option.bind_some]
    split
    · rename_i hv
      cases hv
    · rename_i hv
      exact absurd (Option.some.inj hv) (hnull b)
    · rename_i hv
      cases hv
      simp [h]

theorem list_map {β : Type} (write : β → Value) (decode : Value → Option β) (h : ∀ b, decode (write b) = some b)
    (bs : List β) : list decode (.arr (bs.map write)) = some bs := by
  have hpure : bs.mapM (m := Option) (fun b => pure b) = pure (bs.map id) := List.mapM_pure
  rw [List.map_id] at hpure
  simp only [list, List.mapM_map, Function.comp_def, h]
  exact hpure

theorem bytes_toWire (bs : List UInt8) : bytes (bytesToWire bs) = some bs := by
  refine list_map (fun b : UInt8 => .num b.toNat) byte (fun b => ?_) bs
  have hlt := b.toNat_lt
  have hrange : (0 : Int) ≤ b.toNat ∧ (b.toNat : Int) < 256 := by omega
  simp [byte, hrange]

theorem int64_toValue (n : Int64) : int64 (StreamRecord.int64ToValue n) = some n := by
  simp only [int64, StreamRecord.int64ToValue, n.minValue_le_toInt, n.toInt_le, and_self, if_true, Int64.ofInt_toInt]

end

end Serde

namespace Clients

namespace Attr

theorem listOfWire_eq {xs : List AttrValue} (h : AttrValue.SortedList xs)
    (hx : ∀ x ∈ xs, ∀ hs : x.Sorted, ofWire (toWire x) = some ⟨x, hs⟩) :
    ∃ as, listOfWire (toWireList xs) = some as ∧ as.map Attr.value = xs := by
  induction xs with
  | nil => exact ⟨[], rfl, rfl⟩
  | cons x xs ih =>
    obtain ⟨hs, hss⟩ := h
    obtain ⟨as, has, hvalues⟩ := ih hss fun y hy => hx y (List.mem_cons_of_mem _ hy)
    refine ⟨⟨x, hs⟩ :: as, ?_, by simp [hvalues]⟩
    simp [toWireList, listOfWire, hx x List.mem_cons_self hs, has]

theorem fieldsOfWire_eq {fields : List (String × AttrValue)} (h : AttrValue.SortedFields fields)
    (hx : ∀ f ∈ fields, ∀ hs : f.2.Sorted, ofWire (toWire f.2) = some ⟨f.2, hs⟩) :
    ∃ as, fieldsOfWire (toWireFields fields) = some as ∧ (as.map fun f => (f.1, f.2.value)) = fields := by
  induction fields with
  | nil => exact ⟨[], rfl, rfl⟩
  | cons f fields ih =>
    obtain ⟨k, x⟩ := f
    obtain ⟨hs, hss⟩ := h
    obtain ⟨as, has, hvalues⟩ := ih hss fun y hy => hx y (List.mem_cons_of_mem _ hy)
    refine ⟨(k, ⟨x, hs⟩) :: as, ?_, by simp [hvalues]⟩
    simp [toWireFields, fieldsOfWire, hx (k, x) List.mem_cons_self hs, has]

end Attr

theorem Item.ofList_eq {item : Item} {as : List (String × Attr)}
    (h : (as.map fun f => (f.1, f.2.value)) = item.fields) : Item.ofList as = item := by
  cases item with
  | mk fields hk hv =>
    have hfill : ofEntries (as.map fun f => (f.1, f.2.value)) = fields := ofEntries_eq hk (by rw [h])
    simp only [Item.ofList, hfill]

theorem Attr.ofWire_toWire {v : AttrValue} : ∀ hs : v.Sorted, Attr.ofWire (toWire v) = some ⟨v, hs⟩ := by
  induction v using AttrValue.induct with
  | leaf v hm hl =>
    intro hs
    cases v with
    | s text => rfl
    | n text => rfl
    | bool b => rfl
    | null => simp [toWire, ofWire]
    | b bytes => simp [toWire, ofWire, Serde.bytes_toWire]
    | m fields => exact absurd rfl (hm fields)
    | l xs => exact absurd rfl (hl xs)
    | ss xs => simp [toWire, ofWire, Serde.list_map .str Serde.text fun _ => rfl]
    | ns xs => simp [toWire, ofWire, Serde.list_map .str Serde.text fun _ => rfl]
    | bs xs => simp [toWire, ofWire, Serde.list_map bytesToWire Serde.bytes Serde.bytes_toWire]
  | m fields ih =>
    intro hs
    obtain ⟨hk, hf⟩ : SortedKeys fields ∧ AttrValue.SortedFields fields := hs
    obtain ⟨as, has, hvalues⟩ := Attr.fieldsOfWire_eq hf ih
    have hitem : Item.ofList as = ⟨fields, hk, hf⟩ := Item.ofList_eq hvalues
    simp [toWire, ofWire, has, hitem, Attr.m]
  | l xs ih =>
    intro hs
    obtain ⟨as, has, hvalues⟩ := Attr.listOfWire_eq hs ih
    simp [toWire, ofWire, has, Attr.l, hvalues]

theorem Item.ofWire_toWire (item : Item) : Item.ofWire item.toWire = some item := by
  obtain ⟨as, has, hvalues⟩ := Attr.fieldsOfWire_eq item.values_sorted fun f _ hs => Attr.ofWire_toWire hs
  simp [Item.ofWire, Item.toWire, has, Item.ofList_eq hvalues]

end Clients

namespace StreamRecord

theorem entries_nodup (r : StreamRecord) : (r.entries.map Prod.fst).Nodup := by
  unfold entries
  cases r.approxCreationTimeMs <;> simp

theorem ofValue_of_perm {r : StreamRecord} {fields : List (String × Value)} (hp : fields.Perm r.entries) :
    ofValue (.obj fields) = some r := by
  have hn : (fields.map Prod.fst).Nodup := (hp.map Prod.fst).nodup_iff.mpr r.entries_nodup
  have hmem : ∀ f ∈ r.entries, f ∈ fields := fun f hf => hp.mem_iff.mpr hf
  have htext : ∀ {k a}, (k, orNull .str a) ∈ r.entries → Serde.optional Serde.text k fields = some a :=
    fun h => Serde.optional_of_mem hn (hmem _ h) (fun _ => rfl) (by simp)
  have hitem : ∀ {k a}, (k, orNull Item.toWire a) ∈ r.entries → Serde.optional Item.ofWire k fields = some a :=
    fun h => Serde.optional_of_mem hn (hmem _ h) Item.ofWire_toWire (by simp [Item.toWire])
  have hint : ∀ {k a}, (k, orNull int64ToValue a) ∈ r.entries → Serde.optional Serde.int64 k fields = some a :=
    fun h => Serde.optional_of_mem hn (hmem _ h) Serde.int64_toValue (by simp [int64ToValue])
  have hname : Serde.optional Serde.text "event_name" fields = some r.eventName := htext (by simp [entries])
  have hseq : Serde.optional Serde.text "sequence_number" fields = some r.sequenceNumber := htext (by simp [entries])
  have hsize : Serde.optional Serde.int64 "size_bytes" fields = some r.sizeBytes := hint (by simp [entries])
  have hview : Serde.optional Serde.text "stream_view_type" fields = some r.streamViewType := htext (by simp [entries])
  have hkeys : Serde.required Item.ofWire "keys" fields = some r.keys :=
    Serde.required_of_mem hn (hmem _ (by simp [entries])) (Item.ofWire_toWire _)
  have hnew : Serde.optional Item.ofWire "new_image" fields = some r.newImage := hitem (by simp [entries])
  have hold : Serde.optional Item.ofWire "old_image" fields = some r.oldImage := hitem (by simp [entries])
  have htime : Serde.optional Serde.int64 "approx_creation_time_ms" fields = some r.approxCreationTimeMs := by
    cases ht : r.approxCreationTimeMs with
    | some t => exact hint (a := some t) (by simp [entries, ht, orNull])
    | none =>
      have habsent : "approx_creation_time_ms" ∉ fields.map Prod.fst := by
        rw [(hp.map Prod.fst).mem_iff]
        simp [entries, ht]
      simp [Serde.optional, Serde.field_of_notMem habsent]
  simp [ofValue, hname, hseq, hsize, hview, hkeys, hnew, hold, htime]

theorem ofValue_toValue (r : StreamRecord) : ofValue r.toValue = some r := ofValue_of_perm (List.Perm.refl _)

end StreamRecord

/-! ## Texts -/

/-- The depth at which `serde_json` gives up. -/
def RECURSION_LIMIT : Nat := 128

namespace Serde

def fromStr {α : Type} (decode : Value → Option α) (text : List Char) : Option α := do
  let v ← Value.read text
  if v.depth < RECURSION_LIMIT then decode v else none

def toVec (v : Value) : List UInt8 := (String.ofList v.write).toByteArray.data.toList

def fromSlice {α : Type} (decode : Value → Option α) (bytes : List UInt8) : Option α := do
  let text ← (ByteArray.mk bytes.toArray).utf8Decode?
  fromStr decode text.toList

theorem fromStr_of {α : Type} (decode : Value → Option α) {v : Value} {t w w' : List Char} (h : v.TextOf t) (hw : Blanks w)
    (hw' : Blanks w') : fromStr decode (w ++ (t ++ w')) = if v.depth < RECURSION_LIMIT then decode v else none := by
  simp [fromStr, h.read hw hw']

theorem utf8_toVec (v : Value) : (ByteArray.mk (toVec v).toArray).utf8Decode? = some v.write.toArray := by
  simp only [toVec, Array.toArray_toList, String.toByteArray_ofList]
  exact List.utf8Decode?_utf8Encode

theorem fromSlice_toVec {α : Type} {decode : Value → Option α} (v : Value) :
    fromSlice decode (toVec v) = if v.depth < RECURSION_LIMIT then decode v else none := by
  have hread := fromStr_of decode v.write_of blanks_nil blanks_nil
  simp only [List.nil_append, List.append_nil] at hread
  simp [fromSlice, utf8_toVec, hread]

theorem toVec_injective : Function.Injective toVec := by
  intro v v' h
  have htext : v.write = v'.write := by
    have hread := utf8_toVec v
    rw [h, utf8_toVec v'] at hread
    simpa using hread.symm
  have hread := v.write_of.read blanks_nil blanks_nil
  rw [htext, v'.write_of.read blanks_nil blanks_nil] at hread
  exact (Option.some.inj hread).symm

end Serde

/-! ## Payloads -/

namespace StreamRecord

def encode (r : StreamRecord) : List UInt8 := Serde.toVec r.toValue

def decode : List UInt8 → Option StreamRecord := Serde.fromSlice ofValue

theorem encode_injective : Function.Injective encode := by
  intro r r' h
  have hvalue : r.toValue = r'.toValue := Serde.toVec_injective h
  have hread := ofValue_toValue r
  rw [hvalue, ofValue_toValue] at hread
  exact (Option.some.inj hread).symm

/-- What the sequence of a shard carries is decoded as it was, unless it nests too deep. -/
theorem decode_encode (r : StreamRecord) : decode r.encode = if r.toValue.depth < RECURSION_LIMIT then some r else none := by
  rw [decode, encode, Serde.fromSlice_toVec, ofValue_toValue]

end StreamRecord

/-! ### How deep a record nests -/

namespace Clients

mutual
/-- How many maps and lists stand inside one another. -/
def AttrValue.nesting : AttrValue → Nat
  | .m fields => AttrValue.nestingFields fields + 1
  | .l xs => AttrValue.nestingList xs + 1
  | _ => 0
def AttrValue.nestingList : List AttrValue → Nat
  | [] => 0
  | x :: xs => max x.nesting (AttrValue.nestingList xs)
def AttrValue.nestingFields : List (String × AttrValue) → Nat
  | [] => 0
  | (_, x) :: fields => max x.nesting (AttrValue.nestingFields fields)
end

theorem nesting_le_list {x : AttrValue} : ∀ {xs : List AttrValue}, x ∈ xs → x.nesting ≤ AttrValue.nestingList xs
  | y :: xs, h => by
    rcases List.mem_cons.mp h with rfl | h
    · exact le_max_left _ _
    · exact (nesting_le_list h).trans (le_max_right _ _)

theorem nesting_le_fields {f : String × AttrValue} : ∀ {fields : List (String × AttrValue)}, f ∈ fields →
    f.2.nesting ≤ AttrValue.nestingFields fields
  | y :: fields, h => by
    rcases List.mem_cons.mp h with rfl | h
    · exact le_max_left _ _
    · exact (nesting_le_fields h).trans (le_max_right _ _)

theorem depth_bytesToWire (bs : List UInt8) : (bytesToWire bs).depth ≤ 1 := by
  have hitems : Value.depthItems (bs.map fun b => Value.num b.toNat) ≤ 0 := Value.depthItems_le (by simp [Value.depth])
  simpa [bytesToWire, Value.depth] using hitems

theorem depth_single (tag : String) (v : Value) : (Value.obj [(tag, v)]).depth = v.depth + 1 := by
  simp [Value.depth, Value.depthFields]

theorem depth_toWire (v : AttrValue) : (toWire v).depth ≤ 2 * v.nesting + 3 := by
  induction v using AttrValue.induct with
  | leaf v hm hl =>
    have hsets : ∀ xs : List String, Value.depthItems (xs.map Value.str) ≤ 0 := fun xs => Value.depthItems_le (by simp [Value.depth])
    cases v with
    | m fields => exact absurd rfl (hm fields)
    | l xs => exact absurd rfl (hl xs)
    | b bs =>
      have h := depth_bytesToWire bs
      rw [toWire, depth_single]
      omega
    | bs xs =>
      have h : Value.depthItems (xs.map bytesToWire) ≤ 1 := by
        refine Value.depthItems_le fun x hx => ?_
        obtain ⟨bs, _, rfl⟩ := List.mem_map.mp hx
        exact depth_bytesToWire bs
      rw [toWire, depth_single, Value.depth]
      omega
    | ss xs =>
      have h := hsets xs
      rw [toWire, depth_single, Value.depth]
      omega
    | ns xs =>
      have h := hsets xs
      rw [toWire, depth_single, Value.depth]
      omega
    | _ => simp [toWire, Value.depth, Value.depthFields]
  | m fields ih =>
    have h : Value.depthFields (toWireFields fields) ≤ 2 * AttrValue.nestingFields fields + 3 := by
      rw [toWireFields_eq]
      refine Value.depthFields_le fun f hf => ?_
      obtain ⟨e, he, rfl⟩ := List.mem_map.mp hf
      have hle := nesting_le_fields he
      exact (ih e he).trans (by omega)
    rw [toWire, depth_single, Value.depth, AttrValue.nesting]
    omega
  | l xs ih =>
    have h : Value.depthItems (toWireList xs) ≤ 2 * AttrValue.nestingList xs + 3 := by
      rw [toWireList_eq]
      refine Value.depthItems_le fun x hx => ?_
      obtain ⟨e, he, rfl⟩ := List.mem_map.mp hx
      have hle := nesting_le_list he
      exact (ih e he).trans (by omega)
    rw [toWire, depth_single, Value.depth, AttrValue.nesting]
    omega

def Item.nesting (item : Item) : Nat := AttrValue.nestingFields item.fields

theorem Item.depth_toWire (item : Item) : item.toWire.depth ≤ 2 * item.nesting + 4 := by
  have h : Value.depthFields (toWireFields item.fields) ≤ 2 * item.nesting + 3 := by
    rw [toWireFields_eq]
    refine Value.depthFields_le fun f hf => ?_
    obtain ⟨e, he, rfl⟩ := List.mem_map.mp hf
    have hle : e.2.nesting ≤ item.nesting := nesting_le_fields he
    exact (Clients.depth_toWire e.2).trans (by omega)
  rw [Item.toWire, Value.depth]
  omega

end Clients

namespace StreamRecord

def images (r : StreamRecord) : List Item := r.keys :: (r.newImage.toList ++ r.oldImage.toList)

theorem depth_toValue (r : StreamRecord) {n : Nat} (h : ∀ item ∈ r.images, item.nesting ≤ n) :
    r.toValue.depth ≤ 2 * n + 5 := by
  have himage : ∀ image : Option Item, (∀ item ∈ image, item ∈ r.images) → (orNull Item.toWire image).depth ≤ 2 * n + 4 := by
    intro image hmem
    cases image with
    | none => simp [orNull, Value.depth]
    | some item =>
      have hle := h item (hmem item rfl)
      have hd := item.depth_toWire
      rw [orNull]
      omega
  have hkeys : r.keys.toWire.depth ≤ 2 * n + 4 := himage (some r.keys) (by simp [images])
  have hnew := himage r.newImage (by simp +contextual [images])
  have hold := himage r.oldImage (by simp +contextual [images])
  have htext : ∀ a : Option String, (orNull Value.str a).depth ≤ 2 * n + 4 := by
    intro a
    cases a <;> simp [orNull, Value.depth]
  have hint : ∀ a : Option Int64, (orNull int64ToValue a).depth ≤ 2 * n + 4 := by
    intro a
    cases a <;> simp [orNull, int64ToValue, Value.depth]
  have hentries : Value.depthFields r.entries ≤ 2 * n + 4 := by
    refine Value.depthFields_le ?_
    simp only [entries, List.forall_mem_append, List.forall_mem_cons, Option.mem_toList]
    refine ⟨⟨htext _, htext _, hint _, htext _, hkeys, hnew, hold, by simp⟩, ?_⟩
    intro f hf
    obtain ⟨t, _, rfl⟩ := Option.map_eq_some_iff.mp hf
    exact hint (some t)
  rw [toValue, Value.depth]
  omega

theorem decode_encode_of_nesting {r : StreamRecord} (h : ∀ item ∈ r.images, item.nesting ≤ 32) :
    decode r.encode = some r := by
  have hdepth := r.depth_toValue h
  rw [decode_encode, if_pos]
  unfold RECURSION_LIMIT
  omega

end StreamRecord

end StreamsConsumer
