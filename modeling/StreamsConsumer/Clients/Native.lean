import StreamsConsumer.Clients.Agreement

/-!
# Native values in the clients

The `native` conversions of the four clients, which give a processor plain
values of its language. They lose the tags: `plain` says how much, for every
client alike. As with DynamoDB JSON, a payload that serde writes under no tag
of its kind ends in `typeMismatch`, and the entries of a map come in the order
of their keys. In Node, an object that is assigned to `__proto__` becomes the
prototype, which later assignments may run into (the `length` of a Buffer cannot
be set): that is not modelled, and ends in `typeMismatch` as well.
-/

namespace StreamsConsumer
open Json

namespace Clients

inductive Native where
  | null
  | bool (b : Bool)
  | text (s : String)
  | bytes (bs : List UInt8)
  | list (xs : List Native)
  | map (fields : List (String × Native))
  /-- JSON that the Python client passes on as it is; serde writes nothing of the kind. -/
  | json (v : Value)

abbrev NativeFields := List (String × Native)

def gather (set : NativeFields → String → Native → Except ConvertError NativeFields)
    (wrap : String → ConvertError → ConvertError) (entries : List (String × Except ConvertError Native)) :
    Except ConvertError NativeFields :=
  entries.foldlM (fun out e => do set out e.1 (← e.2.mapError (wrap e.1))) []

def put (out : NativeFields) (k : String) (v : Native) : Except ConvertError NativeFields := .ok (assign out k v)

namespace Python

/-- What the `json` module made of a value. -/
def asLoaded : Value → Native
  | .null => .null
  | .bool b => .bool b
  | .str s => .text s
  | v => .json v

mutual
def decodeAttr : Value → Except ConvertError Native
  | .str s => if s = "Null" then .ok .null else .ok (.text s)
  | .obj [(tag, val)] =>
    match tag with
    | "S" => .ok (asLoaded val)
    | "N" => .ok (asLoaded val)
    | "Bool" => .ok (asLoaded val)
    | "B" => do return .bytes (← bytesOf byte val)
    | "M" =>
      match val with
      | .obj fields => do return .map (← gather put (fun _ e => e) (decodeFields fields))
      | _ => .error .typeMismatch
    | "L" =>
      match val with
      | .arr xs => do return .list (← (decodeList xs).mapM id)
      | _ => .error .typeMismatch
    | "Ss" => do return .list ((← arrayOf val).map asLoaded)
    | "Ns" => do return .list ((← arrayOf val).map asLoaded)
    | "Bs" => do return .list (← (← arrayOf val).mapM fun b => do return .bytes (← bytesOf byte b))
    | _ => .ok (.json (.obj [(tag, val)]))
  | av => .ok (asLoaded av)
def decodeList : List Value → List (Except ConvertError Native)
  | [] => []
  | x :: xs => decodeAttr x :: decodeList xs
def decodeFields : List (String × Value) → List (String × Except ConvertError Native)
  | [] => []
  | (k, x) :: fields => (k, decodeAttr x) :: decodeFields fields
end

def decodeItem : Option (List (String × Value)) → Except ConvertError NativeFields
  | none => .ok []
  | some fields => gather put (fun _ e => e) (decodeFields fields)

end Python

namespace Go

mutual
def decodeAttr : Value → Except ConvertError Native
  | .str s => if s = "Null" then .ok .null else .error (.bareString s)
  | .null => .error (.bareString "")
  | .obj [(tag, val)] =>
    match tag with
    | "S" => do return .text (← textOf val)
    | "N" => do return .text (← textOf val)
    | "Bool" => do return .bool (← boolOf val)
    | "B" => do return .bytes (← decodeBytes val)
    | "Ss" => do return .list ((← (← arrayOf val).mapM textOf).map .text)
    | "Ns" => do return .list ((← (← arrayOf val).mapM textOf).map .text)
    | "Bs" => do return .list (← (← arrayOf val).mapM fun a => do return .bytes (← decodeBytes a))
    | "M" =>
      match val with
      | .obj fields => do return .map (← gather put .attr (decodeFields fields))
      | _ => .error .typeMismatch
    | "L" =>
      match val with
      | .arr xs => do return .list (← (decodeList xs).mapM id)
      | _ => .error .typeMismatch
    | tag => .error (.unknownTag tag)
  | .obj fields => .error (.tagCount fields.length)
  | _ => .error .notTagged
def decodeList : List Value → List (Except ConvertError Native)
  | [] => []
  | x :: xs => decodeAttr x :: decodeList xs
def decodeFields : List (String × Value) → List (String × Except ConvertError Native)
  | [] => []
  | (k, x) :: fields => (k, decodeAttr x) :: decodeFields fields
end

def decodeItem (fields : List (String × Value)) : Except ConvertError NativeFields :=
  gather put .attr (decodeFields fields)

end Go

namespace Node

def isObject : Native → Bool
  | .bytes _ => true
  | .list _ => true
  | .map _ => true
  | _ => false

/-- `out[k] = v` again: `__proto__` makes no property, and is ignored unless it is an object or null. -/
def setProperty (out : NativeFields) (k : String) (v : Native) : Except ConvertError NativeFields :=
  if k = "__proto__" then if isObject v then .error .typeMismatch else .ok out else put out k v

mutual
def decodeAttr : Value → Except ConvertError Native
  | .str s => if s = "Null" then .ok .null else .error (.invalidValue (.str s))
  | .obj [(tag, val)] =>
    match tag with
    | "S" => do return .text (← textOf val)
    | "N" => do return .text (← textOf val)
    | "Bool" => do return .bool (← boolOf val)
    | "B" => do return .bytes (← bytesOf byte val)
    | "Ss" => do return .list ((← (← arrayOf val).mapM textOf).map .text)
    | "Ns" => do return .list ((← (← arrayOf val).mapM textOf).map .text)
    | "Bs" => do return .list (← (← arrayOf val).mapM fun a => do return .bytes (← bytesOf byte a))
    | "M" =>
      match val with
      | .obj fields => do return .map (← gather setProperty (fun _ e => e) (decodeFields fields))
      | _ => .error .typeMismatch
    | "L" =>
      match val with
      | .arr xs => do return .list (← (decodeList xs).mapM id)
      | _ => .error .typeMismatch
    | tag => .error (.unknownTag tag)
  | .obj fields => .error (.tagCount fields.length)
  | v => .error (.invalidValue v)
def decodeList : List Value → List (Except ConvertError Native)
  | [] => []
  | x :: xs => decodeAttr x :: decodeList xs
def decodeFields : List (String × Value) → List (String × Except ConvertError Native)
  | [] => []
  | (k, x) :: fields => (k, decodeAttr x) :: decodeFields fields
end

def decodeItem : Option (List (String × Value)) → Except ConvertError NativeFields
  | none => .ok []
  | some fields => gather setProperty (fun _ e => e) (decodeFields fields)

end Node

namespace Rust

mutual
/-- The Rust client has JSON for native values as well, with bytes in base64. -/
def toNativeJson (b64 : List UInt8 → String) : AttrValue → Value
  | .s text => .str text
  | .n text => .str text
  | .bool b => .bool b
  | .null => .null
  | .b bytes => .str (b64 bytes)
  | .m fields => .obj (ofEntries (nativeFields b64 fields))
  | .l xs => .arr (nativeList b64 xs)
  | .ss xs => .arr (xs.map .str)
  | .ns xs => .arr (xs.map .str)
  | .bs xs => .arr (xs.map fun x => .str (b64 x))
def nativeList (b64 : List UInt8 → String) : List AttrValue → List Value
  | [] => []
  | x :: xs => toNativeJson b64 x :: nativeList b64 xs
def nativeFields (b64 : List UInt8 → String) : List (String × AttrValue) → List (String × Value)
  | [] => []
  | (k, x) :: fields => (k, toNativeJson b64 x) :: nativeFields b64 fields
end

def itemToNativeJson (b64 : List UInt8 → String) (fields : List (String × AttrValue)) : Value :=
  .obj (ofEntries (nativeFields b64 fields))

end Rust

/-! ## What the clients give -/

section
variable (keep : String → Bool)

mutual
/-- The attributes whose names are kept, without their tags. -/
def native : AttrValue → Native
  | .s text => .text text
  | .n text => .text text
  | .bool b => .bool b
  | .null => .null
  | .b bytes => .bytes bytes
  | .m fields => .map (nativeFields fields)
  | .l xs => .list (nativeList xs)
  | .ss xs => .list (xs.map .text)
  | .ns xs => .list (xs.map .text)
  | .bs xs => .list (xs.map .bytes)
def nativeList : List AttrValue → List Native
  | [] => []
  | x :: xs => native x :: nativeList xs
def nativeFields : List (String × AttrValue) → NativeFields
  | [] => []
  | (k, x) :: fields => if keep k then (k, native x) :: nativeFields fields else nativeFields fields
end

end

mutual
/-- What a native value still shows of the tags: numbers are texts, and sets are lists. -/
def AttrValue.plain : AttrValue → AttrValue
  | .n text => .s text
  | .ss xs => .l (xs.map .s)
  | .ns xs => .l (xs.map .s)
  | .bs xs => .l (xs.map .b)
  | .m fields => .m (plainFields fields)
  | .l xs => .l (plainList xs)
  | v => v
def AttrValue.plainList : List AttrValue → List AttrValue
  | [] => []
  | x :: xs => x.plain :: plainList xs
def AttrValue.plainFields : List (String × AttrValue) → List (String × AttrValue)
  | [] => []
  | (k, x) :: fields => (k, x.plain) :: plainFields fields
end

mutual
def Native.toPlain : Native → AttrValue
  | .null => .null
  | .bool b => .bool b
  | .text s => .s s
  | .bytes bs => .b bs
  | .list xs => .l (toPlainList xs)
  | .map fields => .m (toPlainFields fields)
  | .json _ => .null
def Native.toPlainList : List Native → List AttrValue
  | [] => []
  | x :: xs => x.toPlain :: toPlainList xs
def Native.toPlainFields : NativeFields → List (String × AttrValue)
  | [] => []
  | (k, x) :: fields => (k, x.toPlain) :: toPlainFields fields
end

mutual
def Native.toJson (b64 : List UInt8 → String) : Native → Value
  | .null => .null
  | .bool b => .bool b
  | .text s => .str s
  | .bytes bs => .str (b64 bs)
  | .list xs => .arr (toJsonList b64 xs)
  | .map fields => .obj (toJsonFields b64 fields)
  | .json v => v
def Native.toJsonList (b64 : List UInt8 → String) : List Native → List Value
  | [] => []
  | x :: xs => x.toJson b64 :: toJsonList b64 xs
def Native.toJsonFields (b64 : List UInt8 → String) : NativeFields → List (String × Value)
  | [] => []
  | (k, x) :: fields => (k, x.toJson b64) :: toJsonFields b64 fields
end

section
variable {keep : String → Bool} {b64 : List UInt8 → String}

theorem nativeList_eq : ∀ xs : List AttrValue, nativeList keep xs = xs.map (native keep)
  | [] => rfl
  | x :: xs => by simp [nativeList, nativeList_eq xs]

theorem nativeFields_eq : ∀ fields : List (String × AttrValue), nativeFields keep fields =
    (fields.filter fun f => keep f.1).map fun f => (f.1, native keep f.2)
  | [] => rfl
  | (k, x) :: fields => by
    rw [nativeFields, nativeFields_eq fields]
    by_cases h : keep k
    · simp [h]
    · simp [h]

theorem Native.toPlainList_eq : ∀ xs : List Native, toPlainList xs = xs.map toPlain
  | [] => rfl
  | x :: xs => by simp [toPlainList, toPlainList_eq xs]

theorem Native.toPlainFields_eq : ∀ fields : NativeFields, toPlainFields fields = fields.map fun f => (f.1, f.2.toPlain)
  | [] => rfl
  | (k, x) :: fields => by simp [toPlainFields, toPlainFields_eq fields]

theorem Native.toJsonList_eq : ∀ xs : List Native, toJsonList b64 xs = xs.map (toJson b64)
  | [] => rfl
  | x :: xs => by simp [toJsonList, toJsonList_eq xs]

theorem Native.toJsonFields_eq : ∀ fields : NativeFields, toJsonFields b64 fields = fields.map fun f => (f.1, f.2.toJson b64)
  | [] => rfl
  | (k, x) :: fields => by simp [toJsonFields, toJsonFields_eq fields]

theorem AttrValue.plainList_eq : ∀ xs : List AttrValue, plainList xs = xs.map plain
  | [] => rfl
  | x :: xs => by simp [plainList, plainList_eq xs]

theorem AttrValue.plainFields_eq : ∀ fields : List (String × AttrValue), plainFields fields = fields.map fun f => (f.1, f.2.plain)
  | [] => rfl
  | (k, x) :: fields => by simp [plainFields, plainFields_eq fields]

/-! ## The clients -/

theorem gather_ok {set : NativeFields → String → Native → Except ConvertError NativeFields}
    {wrap : String → ConvertError → ConvertError} {entries : List (String × Except ConvertError Native)}
    {outs : NativeFields} (h : entries = outs.map fun o => (o.1, .ok o.2)) :
    gather set wrap entries = outs.foldlM (fun out o => set out o.1 o.2) [] := by
  subst h
  unfold gather
  rw [List.foldlM_map]
  rfl

theorem gather_native {set : NativeFields → String → Native → Except ConvertError NativeFields}
    {wrap : String → ConvertError → ConvertError} {fields u : List (String × AttrValue)}
    {entries : List (String × Except ConvertError Native)}
    (hset : (u.map fun f => (f.1, native keep f.2)).foldlM (fun out o => set out o.1 o.2) [] =
      .ok (ofEntries ((u.map fun f => (f.1, native keep f.2)).filter fun o => keep o.1)))
    (hk : SortedKeys fields) (hp : u.Perm fields) (h : entries = u.map fun f => (f.1, .ok (native keep f.2))) :
    gather set wrap entries = .ok (nativeFields keep fields) := by
  have houts : entries = (u.map fun f => (f.1, native keep f.2)).map fun o => (o.1, .ok o.2) := by
    rw [h, List.map_map]
    rfl
  rw [gather_ok houts, hset, ofEntries_kept hk hp, nativeFields_eq]

theorem decodeTexts_wire (xs : List String) :
    (do return Native.list ((← (xs.map Value.str).mapM textOf).map .text)) = Except.ok (.list (xs.map .text)) := by
  rw [textOf_wire]
  rfl

theorem decodeAll_wire {byte : Int → Except ConvertError UInt8} (h : ∀ b : UInt8, byte b.toNat = .ok b)
    (xs : List (List UInt8)) :
    (do return Native.list (← (xs.map bytesToWire).mapM fun b => do return Native.bytes (← bytesOf byte b))) =
      Except.ok (.list (xs.map .bytes)) := by
  have hall : ((xs.map bytesToWire).mapM fun b => do return Native.bytes (← bytesOf byte b)) = .ok (xs.map .bytes) := by
    apply mapM_ok
    intro x
    rw [bytesOf_wire h]
    rfl
  rw [hall]
  rfl

theorem foldlM_put : ∀ (outs out : NativeFields), outs.foldlM (fun out o => put out o.1 o.2) out =
    .ok (outs.foldl (fun out o => assign out o.1 o.2) out)
  | [], _ => rfl
  | (k, v) :: outs, out => foldlM_put outs (assign out k v)

theorem foldlM_put_all (outs : NativeFields) :
    outs.foldlM (fun out o => put out o.1 o.2) [] = .ok (ofEntries (outs.filter fun _ => true)) := by
  rw [List.filter_true]
  exact foldlM_put outs []

namespace Python

theorem decodeList_eq : ∀ xs : List Value, decodeList xs = xs.map decodeAttr
  | [] => rfl
  | x :: xs => by simp [decodeList, decodeList_eq xs]

theorem decodeFields_eq : ∀ fields : List (String × Value), decodeFields fields = fields.map fun f => (f.1, decodeAttr f.2)
  | [] => rfl
  | (k, x) :: fields => by simp [decodeFields, decodeFields_eq fields]

theorem asLoaded_wire (xs : List String) : (xs.map Value.str).map asLoaded = xs.map .text := by
  rw [List.map_map]
  rfl

theorem follows : Follows (fun _ _ => True) (native fun _ => true) decodeAttr where
  leaf v hm hl := by
    cases v with
    | m fields => exact absurd rfl (hm fields)
    | l xs => exact absurd rfl (hl xs)
    | b bytes =>
      simp only [toWire, decodeAttr, bytesOf_wire byte_ok]
      rfl
    | ss xs => exact congrArg (fun ys => Except.ok (Native.list ys)) (asLoaded_wire xs)
    | ns xs => exact congrArg (fun ys => Except.ok (Native.list ys)) (asLoaded_wire xs)
    | bs xs => exact decodeAll_wire byte_ok xs
    | _ => rfl
  l xs raws h := by
    simp only [decodeAttr, decodeList_eq, h, mapM_id_ok, native, nativeList_eq]
    rfl
  m fields u entries hk _ hp h := by
    simp only [decodeAttr, decodeFields_eq, gather_native (foldlM_put_all _) hk hp h]
    rfl

end Python

namespace Go

theorem decodeList_eq : ∀ xs : List Value, decodeList xs = xs.map decodeAttr
  | [] => rfl
  | x :: xs => by simp [decodeList, decodeList_eq xs]

theorem decodeFields_eq : ∀ fields : List (String × Value), decodeFields fields = fields.map fun f => (f.1, decodeAttr f.2)
  | [] => rfl
  | (k, x) :: fields => by simp [decodeFields, decodeFields_eq fields]

theorem follows : Follows (fun _ _ => True) (native fun _ => true) decodeAttr where
  leaf v hm hl := by
    cases v with
    | m fields => exact absurd rfl (hm fields)
    | l xs => exact absurd rfl (hl xs)
    | b bytes =>
      simp only [toWire, decodeAttr, decodeBytes, bytesOf_wire byte_ok]
      rfl
    | ss xs => exact decodeTexts_wire xs
    | ns xs => exact decodeTexts_wire xs
    | bs xs => exact decodeAll_wire byte_ok xs
    | _ => rfl
  l xs raws h := by
    simp only [decodeAttr, decodeList_eq, h, mapM_id_ok, native, nativeList_eq]
    rfl
  m fields u entries hk _ hp h := by
    simp only [decodeAttr, decodeFields_eq, gather_native (foldlM_put_all _) hk hp h]
    rfl

end Go

namespace Node

theorem decodeList_eq : ∀ xs : List Value, decodeList xs = xs.map decodeAttr
  | [] => rfl
  | x :: xs => by simp [decodeList, decodeList_eq xs]

theorem decodeFields_eq : ∀ fields : List (String × Value), decodeFields fields = fields.map fun f => (f.1, decodeAttr f.2)
  | [] => rfl
  | (k, x) :: fields => by simp [decodeFields, decodeFields_eq fields]

theorem foldlM_setProperty : ∀ {outs : NativeFields}, (∀ o ∈ outs, o.1 = "__proto__" → isObject o.2 = false) →
    ∀ out : NativeFields, outs.foldlM (fun out o => setProperty out o.1 o.2) out =
      .ok ((outs.filter fun o => o.1 ≠ "__proto__").foldl (fun out o => assign out o.1 o.2) out)
  | [], _, _ => rfl
  | (k, v) :: outs, h, out => by
    obtain ⟨hv, houts⟩ := List.forall_mem_cons.mp h
    rw [List.foldlM_cons]
    by_cases hk : k = "__proto__"
    · rw [setProperty, if_pos hk, hv hk, List.filter_cons_of_neg (by simp [hk])]
      exact foldlM_setProperty houts out
    · rw [setProperty, if_neg hk, List.filter_cons_of_pos (by simp [hk])]
      exact foldlM_setProperty houts (assign out k v)

def isScalar : AttrValue → Bool
  | .s _ => true
  | .n _ => true
  | .bool _ => true
  | .null => true
  | _ => false

/-- Whatever is called `__proto__` is no object. -/
def Harmless (k : String) (v : AttrValue) : Prop := k = "__proto__" → isScalar v = true

theorem isObject_native {keep : String → Bool} {v : AttrValue} (h : isScalar v = true) : isObject (native keep v) = false := by
  cases v with
  | s _ => rfl
  | n _ => rfl
  | bool _ => rfl
  | null => rfl
  | _ => cases h

theorem foldlM_harmless {fields u : List (String × AttrValue)} (hp : u.Perm fields)
    (h : ∀ f ∈ fields, Harmless f.1 f.2) :
    (u.map fun f => (f.1, native (fun k => k ≠ "__proto__") f.2)).foldlM (fun out o => setProperty out o.1 o.2) [] =
      .ok (ofEntries ((u.map fun f => (f.1, native (fun k => k ≠ "__proto__") f.2)).filter fun o => o.1 ≠ "__proto__")) := by
  refine foldlM_setProperty ?_ []
  intro o ho hk
  obtain ⟨f, hf, rfl⟩ := List.mem_map.mp ho
  exact isObject_native (h f (hp.mem_iff.mp hf) hk)

theorem follows : Follows Harmless (native fun k => k ≠ "__proto__") decodeAttr where
  leaf v hm hl := by
    cases v with
    | m fields => exact absurd rfl (hm fields)
    | l xs => exact absurd rfl (hl xs)
    | b bytes =>
      simp only [toWire, decodeAttr, bytesOf_wire byte_ok]
      rfl
    | ss xs => exact decodeTexts_wire xs
    | ns xs => exact decodeTexts_wire xs
    | bs xs => exact decodeAll_wire byte_ok xs
    | _ => rfl
  l xs raws h := by
    simp only [decodeAttr, decodeList_eq, h, mapM_id_ok, native, nativeList_eq]
    rfl
  m fields u entries hk hfits hp h := by
    simp only [decodeAttr, decodeFields_eq, gather_native (foldlM_harmless hp hfits) hk hp h]
    rfl

end Node

namespace Rust

theorem nativeList_eq : ∀ xs : List AttrValue, nativeList b64 xs = xs.map (toNativeJson b64)
  | [] => rfl
  | x :: xs => by simp [nativeList, nativeList_eq xs]

theorem nativeFields_eq : ∀ fields : List (String × AttrValue),
    nativeFields b64 fields = fields.map fun f => (f.1, toNativeJson b64 f.2)
  | [] => rfl
  | (k, x) :: fields => by simp [nativeFields, nativeFields_eq fields]

theorem toNativeJson_eq {v : AttrValue} : v.Sorted → toNativeJson b64 v = (native (fun _ => true) v).toJson b64 := by
  induction v using AttrValue.induct with
  | leaf v hm hl =>
    intro _
    cases v with
    | m fields => exact absurd rfl (hm fields)
    | l xs => exact absurd rfl (hl xs)
    | ss xs => simp [toNativeJson, native, Native.toJson, Native.toJsonList_eq]
    | ns xs => simp [toNativeJson, native, Native.toJson, Native.toJsonList_eq]
    | bs xs => simp [toNativeJson, native, Native.toJson, Native.toJsonList_eq]
    | _ => rfl
  | m fields ih =>
    intro hs
    obtain ⟨hk, hf⟩ : SortedKeys fields ∧ AttrValue.SortedFields fields := hs
    rw [AttrValue.sortedFields_iff] at hf
    rw [toNativeJson, native, Native.toJson, Native.toJsonFields_eq, Clients.nativeFields_eq, List.filter_true, List.map_map,
      nativeFields_eq]
    have hkeys : SortedKeys (fields.map fun f => (f.1, (native (fun _ => true) f.2).toJson b64)) :=
      sortedKeys_map hk fun v => (native (fun _ => true) v).toJson b64
    refine congrArg Value.obj (ofEntries_eq hkeys (List.Perm.of_eq ?_))
    apply List.map_congr_left
    intro f hm
    rw [ih f hm (hf f hm)]
    rfl
  | l xs ih =>
    intro hs
    have hx := AttrValue.sortedList_iff.mp hs
    rw [toNativeJson, native, Native.toJson, Native.toJsonList_eq, Clients.nativeList_eq, List.map_map, nativeList_eq]
    refine congrArg Value.arr (List.map_congr_left fun x hm => ?_)
    exact ih x hm (hx x hm)

end Rust

/-! ## What is lost -/

theorem native_plain {v : AttrValue} : native (fun _ => true) v.plain = native (fun _ => true) v := by
  induction v using AttrValue.induct with
  | leaf v hm hl =>
    cases v with
    | m fields => exact absurd rfl (hm fields)
    | l xs => exact absurd rfl (hl xs)
    | ss xs => simp [AttrValue.plain, native, nativeList_eq]
    | ns xs => simp [AttrValue.plain, native, nativeList_eq]
    | bs xs => simp [AttrValue.plain, native, nativeList_eq]
    | _ => rfl
  | m fields ih =>
    rw [AttrValue.plain, native, native, nativeFields_eq, nativeFields_eq, List.filter_true, List.filter_true,
      AttrValue.plainFields_eq, List.map_map]
    refine congrArg Native.map (List.map_congr_left fun f hf => ?_)
    simp only [Function.comp, ih f hf]
  | l xs ih =>
    rw [AttrValue.plain, native, native, nativeList_eq, nativeList_eq, AttrValue.plainList_eq, List.map_map]
    exact congrArg Native.list (List.map_congr_left fun x hx => ih x hx)

theorem toPlain_native {v : AttrValue} : (native (fun _ => true) v).toPlain = v.plain := by
  induction v using AttrValue.induct with
  | leaf v hm hl =>
    cases v with
    | m fields => exact absurd rfl (hm fields)
    | l xs => exact absurd rfl (hl xs)
    | ss xs => simp [AttrValue.plain, native, Native.toPlain, Native.toPlainList_eq]
    | ns xs => simp [AttrValue.plain, native, Native.toPlain, Native.toPlainList_eq]
    | bs xs => simp [AttrValue.plain, native, Native.toPlain, Native.toPlainList_eq]
    | _ => rfl
  | m fields ih =>
    rw [AttrValue.plain, native, Native.toPlain, nativeFields_eq, List.filter_true, Native.toPlainFields_eq,
      AttrValue.plainFields_eq, List.map_map]
    refine congrArg AttrValue.m (List.map_congr_left fun f hf => ?_)
    simp only [Function.comp, ih f hf]
  | l xs ih =>
    rw [AttrValue.plain, native, Native.toPlain, nativeList_eq, Native.toPlainList_eq, AttrValue.plainList_eq, List.map_map]
    exact congrArg AttrValue.l (List.map_congr_left fun x hx => ih x hx)

end

/-! ## Agreement -/

/-- Whatever the order of its entries in a client, the value is decoded to its native value, in Node without the
attributes called `__proto__`, as long as none of them is an object. -/
def DecodedAlike (a : Attr) : Prop := ∀ raw : Value, raw.canon = toWire a.value →
  Python.decodeAttr raw = .ok (native (fun _ => true) a.value) ∧ Go.decodeAttr raw = .ok (native (fun _ => true) a.value) ∧
    (a.value.Every Node.Harmless → Node.decodeAttr raw = .ok (native (fun k => k ≠ "__proto__") a.value))

def ItemDecodedAlike (item : Item) : Prop := ∀ raw : List (String × Value),
  (Value.obj raw).canon = .obj (toWireFields item.fields) →
    Python.decodeItem (some raw) = .ok (nativeFields (fun _ => true) item.fields) ∧
    Go.decodeItem raw = .ok (nativeFields (fun _ => true) item.fields) ∧
    (AttrValue.EveryField Node.Harmless item.fields →
      Node.decodeItem (some raw) = .ok (nativeFields (fun k => k ≠ "__proto__") item.fields))

theorem decodedAlike (a : Attr) : DecodedAlike a := fun raw hraw =>
  have hevery := AttrValue.every_of_all (p := fun _ _ => True) (fun _ _ => trivial) a.value
  ⟨Python.follows.gives a.sorted hevery raw hraw, Go.follows.gives a.sorted hevery raw hraw,
    fun hfits => Node.follows.gives a.sorted hfits raw hraw⟩

theorem itemDecodedAlike (item : Item) : ItemDecodedAlike item := by
  intro raw hraw
  have hs := AttrValue.sortedFields_iff.mp item.values_sorted
  have hevery := AttrValue.every_of_all (p := fun _ _ => True) (fun _ _ => trivial)
  obtain ⟨entries, he, hp⟩ := Value.canon_eq_obj hraw
  obtain rfl := Value.obj.inj he
  obtain ⟨u, hu, h⟩ := exists_converted hp fun f hf => Python.follows.gives (hs f hf) (hevery f.2)
  obtain ⟨u', hu', h'⟩ := exists_converted hp fun f hf => Go.follows.gives (hs f hf) (hevery f.2)
  refine ⟨?_, ?_, fun hfits => ?_⟩
  · rw [Python.decodeItem, Python.decodeFields_eq, gather_native (foldlM_put_all _) item.keys_sorted hu h]
  · rw [Go.decodeItem, Go.decodeFields_eq, gather_native (foldlM_put_all _) item.keys_sorted hu' h']
  · have hfit := AttrValue.everyField_iff.mp hfits
    obtain ⟨u'', hu'', h''⟩ := exists_converted hp fun f hf => Node.follows.gives (hs f hf) (hfit f hf).2
    rw [Node.decodeItem, Node.decodeFields_eq,
      gather_native (Node.foldlM_harmless hu'' fun f hf => (hfit f hf).1) item.keys_sorted hu'' h'']

/-- The four clients give a processor the same native values. Two attribute values look alike there exactly if they are
the same but for numbers that are texts and sets that are lists. -/
theorem native_values (b64 : List UInt8 → String) :
    (∀ item : Item, ItemDecodedAlike item ∧
      Rust.itemToNativeJson b64 item.fields = (Native.map (nativeFields (fun _ => true) item.fields)).toJson b64) ∧
    ∀ a : Attr, DecodedAlike a ∧ Rust.toNativeJson b64 a.value = (native (fun _ => true) a.value).toJson b64 ∧
      ∀ a' : Attr, native (fun _ => true) a'.value = native (fun _ => true) a.value ↔ a'.value.plain = a.value.plain := by
  constructor
  · intro item
    have hsorted : (AttrValue.m item.fields).Sorted := ⟨item.keys_sorted, item.values_sorted⟩
    exact ⟨itemDecodedAlike item, Rust.toNativeJson_eq hsorted⟩
  · intro a
    refine ⟨decodedAlike a, Rust.toNativeJson_eq a.sorted, fun a' => ⟨?_, ?_⟩⟩
    · intro h
      rw [← toPlain_native, h, toPlain_native]
    · intro h
      rw [← native_plain, h, native_plain]

end Clients

end StreamsConsumer
