import StreamsConsumer.Clients.DdbJson
import StreamsConsumer.Json.Base64

/-!
# The clients agree on DynamoDB JSON

`canonical` is what all conversions aim at: the attributes that a client keeps
at every level. A client that keeps every name gives the JSON of the Rust
client and loses nothing. The Node client does not keep `__proto__`.
-/

namespace StreamsConsumer
open Json

namespace Clients

namespace AttrValue

theorem induct {P : AttrValue → Prop} (leaf : ∀ v, (∀ fields, v ≠ .m fields) → (∀ xs, v ≠ .l xs) → P v)
    (m : ∀ fields, (∀ f ∈ fields, P f.2) → P (.m fields)) (l : ∀ xs, (∀ x ∈ xs, P x) → P (.l xs)) (v : AttrValue) : P v := by
  refine @AttrValue.rec P (fun fields => ∀ f ∈ fields, P f.2) (fun xs => ∀ x ∈ xs, P x) (fun f => P f.2)
    (fun t => leaf (.s t) (by simp) (by simp)) (fun t => leaf (.n t) (by simp) (by simp))
    (fun b => leaf (.bool b) (by simp) (by simp)) (leaf .null (by simp) (by simp))
    (fun bytes => leaf (.b bytes) (by simp) (by simp)) m l (fun xs => leaf (.ss xs) (by simp) (by simp))
    (fun xs => leaf (.ns xs) (by simp) (by simp)) (fun xs => leaf (.bs xs) (by simp) (by simp)) ?_ ?_ ?_ ?_ ?_ v
  · simp
  · intro f fields hf hfields e he
    rcases List.mem_cons.mp he with rfl | he
    · exact hf
    · exact hfields e he
  · simp
  · intro x xs hx hxs y hy
    rcases List.mem_cons.mp hy with rfl | hy
    · exact hx
    · exact hxs y hy
  · intro _ x hx
    exact hx

theorem sortedList_iff : ∀ {xs : List AttrValue}, SortedList xs ↔ ∀ x ∈ xs, x.Sorted
  | [] => by simp [SortedList]
  | x :: xs => by simp [SortedList, sortedList_iff]

theorem sortedFields_iff : ∀ {fields : List (String × AttrValue)}, SortedFields fields ↔ ∀ f ∈ fields, f.2.Sorted
  | [] => by simp [SortedFields]
  | (k, x) :: fields => by simp [SortedFields, sortedFields_iff]

mutual
/-- Every attribute name, at every level. -/
def Names (p : String → Prop) : AttrValue → Prop
  | .m fields => NamesFields p fields
  | .l xs => NamesList p xs
  | _ => True
def NamesList (p : String → Prop) : List AttrValue → Prop
  | [] => True
  | x :: xs => x.Names p ∧ NamesList p xs
def NamesFields (p : String → Prop) : List (String × AttrValue) → Prop
  | [] => True
  | (k, x) :: fields => p k ∧ x.Names p ∧ NamesFields p fields
end

section
variable {p : String → Prop}

theorem namesList_iff : ∀ {xs : List AttrValue}, NamesList p xs ↔ ∀ x ∈ xs, x.Names p
  | [] => by simp [NamesList]
  | x :: xs => by simp [NamesList, namesList_iff]

theorem namesFields_iff : ∀ {fields : List (String × AttrValue)}, NamesFields p fields ↔ ∀ f ∈ fields, p f.1 ∧ f.2.Names p
  | [] => by simp [NamesFields]
  | (k, x) :: fields => by simp [NamesFields, namesFields_iff, and_assoc]

end

mutual
def Every (p : String → AttrValue → Prop) : AttrValue → Prop
  | .m fields => EveryField p fields
  | .l xs => EveryElement p xs
  | _ => True
def EveryElement (p : String → AttrValue → Prop) : List AttrValue → Prop
  | [] => True
  | x :: xs => x.Every p ∧ EveryElement p xs
def EveryField (p : String → AttrValue → Prop) : List (String × AttrValue) → Prop
  | [] => True
  | (k, x) :: fields => p k x ∧ x.Every p ∧ EveryField p fields
end

section
variable {p : String → AttrValue → Prop}

theorem everyElement_iff : ∀ {xs : List AttrValue}, EveryElement p xs ↔ ∀ x ∈ xs, x.Every p
  | [] => by simp [EveryElement]
  | x :: xs => by simp [EveryElement, everyElement_iff]

theorem everyField_iff : ∀ {fields : List (String × AttrValue)}, EveryField p fields ↔ ∀ f ∈ fields, p f.1 f.2 ∧ f.2.Every p
  | [] => by simp [EveryField]
  | (k, x) :: fields => by simp [EveryField, everyField_iff, and_assoc]

theorem every_of_all (h : ∀ k v, p k v) (v : AttrValue) : v.Every p := by
  induction v using AttrValue.induct with
  | leaf v hm hl =>
    cases v with
    | m fields => exact absurd rfl (hm fields)
    | l xs => exact absurd rfl (hl xs)
    | _ => trivial
  | m fields ih => exact everyField_iff.mpr fun f hf => ⟨h f.1 f.2, ih f hf⟩
  | l xs ih => exact everyElement_iff.mpr ih

end

end AttrValue

theorem toWireList_eq : ∀ xs : List AttrValue, toWireList xs = xs.map toWire
  | [] => rfl
  | x :: xs => by simp [toWireList, toWireList_eq xs]

theorem toWireFields_eq : ∀ fields : List (String × AttrValue), toWireFields fields = fields.map fun f => (f.1, toWire f.2)
  | [] => rfl
  | (k, x) :: fields => by simp [toWireFields, toWireFields_eq fields]

theorem rigid_bytes (bytes : List UInt8) : Value.Rigid (bytesToWire bytes) :=
  Value.rigid_arr fun b _ => Value.rigid_num b.toNat

theorem rigid_leaf {v : AttrValue} (hm : ∀ fields, v ≠ .m fields) (hl : ∀ xs, v ≠ .l xs) : Value.Rigid (toWire v) := by
  cases v with
  | s text => exact Value.rigid_single (Value.rigid_str text) "S"
  | n text => exact Value.rigid_single (Value.rigid_str text) "N"
  | bool b => exact Value.rigid_single (Value.rigid_bool b) "Bool"
  | null => exact Value.rigid_str "Null"
  | b bytes => exact Value.rigid_single (rigid_bytes bytes) "B"
  | m fields => exact absurd rfl (hm fields)
  | l xs => exact absurd rfl (hl xs)
  | ss xs => exact Value.rigid_single (Value.rigid_arr fun x _ => Value.rigid_str x) "Ss"
  | ns xs => exact Value.rigid_single (Value.rigid_arr fun x _ => Value.rigid_str x) "Ns"
  | bs xs => exact Value.rigid_single (Value.rigid_arr fun x _ => rigid_bytes x) "Bs"

theorem sortedKeys_map {α β : Type} {fields : List (String × α)} (h : SortedKeys fields) (f : α → β) :
    SortedKeys (fields.map fun e => (e.1, f e.2)) := List.pairwise_map.mpr h

theorem canon_toWireFields {fields : List (String × AttrValue)} (hk : SortedKeys fields)
    (h : ∀ f ∈ fields, (toWire f.2).canon = toWire f.2) : (Value.obj (toWireFields fields)).canon = .obj (toWireFields fields) := by
  rw [toWireFields_eq]
  refine Value.canon_obj_sorted (sortedKeys_map hk toWire) ?_
  intro f hf
  obtain ⟨e, he, rfl⟩ := List.mem_map.mp hf
  exact h e he

theorem canon_single {v : Value} (h : v.canon = v) (tag : String) : (Value.obj [(tag, v)]).canon = .obj [(tag, v)] := by
  simp [Value.canon, Value.canonFields, h]

theorem canon_toWire {v : AttrValue} : v.Sorted → (toWire v).canon = toWire v := by
  induction v using AttrValue.induct with
  | leaf v hm hl =>
    intro _
    exact (rigid_leaf hm hl _).mpr rfl
  | m fields ih =>
    intro hs
    obtain ⟨hk, hf⟩ : SortedKeys fields ∧ AttrValue.SortedFields fields := hs
    rw [AttrValue.sortedFields_iff] at hf
    exact canon_single (canon_toWireFields hk fun f hm => ih f hm (hf f hm)) "M"
  | l xs ih =>
    intro hs
    have hx := AttrValue.sortedList_iff.mp hs
    refine canon_single ?_ "L"
    rw [toWireList_eq, Value.canon_arr, List.map_map]
    congr 1
    apply List.map_congr_left
    intro x hm
    exact ih x hm (hx x hm)

/-! ## Conversions of what serde writes -/

section
variable {β : Type} {fits : String → AttrValue → Prop} {target : AttrValue → β} {conv : Value → Except ConvertError β}

/-- A conversion of what serde writes, level by level, as long as every attribute fits; the entries of a map come in
any order. -/
structure Follows (fits : String → AttrValue → Prop) (target : AttrValue → β) (conv : Value → Except ConvertError β) : Prop where
  leaf : ∀ v : AttrValue, (∀ fields, v ≠ .m fields) → (∀ xs, v ≠ .l xs) → conv (toWire v) = .ok (target v)
  l : ∀ (xs : List AttrValue) (raws : List Value), raws.map conv = (xs.map target).map .ok →
    conv (.obj [("L", .arr raws)]) = .ok (target (.l xs))
  m : ∀ (fields u : List (String × AttrValue)) (entries : List (String × Value)), SortedKeys fields →
    (∀ f ∈ fields, fits f.1 f.2) → u.Perm fields →
    (entries.map fun e => (e.1, conv e.2)) = (u.map fun f => (f.1, .ok (target f.2))) →
    conv (.obj [("M", .obj entries)]) = .ok (target (.m fields))

theorem exists_converted {fields : List (String × AttrValue)} {entries : List (String × Value)}
    (hp : (entries.map fun e => (e.1, e.2.canon)).Perm (toWireFields fields))
    (ih : ∀ f ∈ fields, ∀ x : Value, x.canon = toWire f.2 → conv x = .ok (target f.2)) :
    ∃ u : List (String × AttrValue), u.Perm fields ∧
      (entries.map fun e => (e.1, conv e.2)) = u.map fun f => (f.1, .ok (target f.2)) := by
  rw [toWireFields_eq] at hp
  obtain ⟨u, hu, hperm⟩ := exists_perm_map hp
  refine ⟨u, hperm, map_convert hu ?_⟩
  intro e _ f hf he
  obtain ⟨hkey, hval⟩ := Prod.mk.inj he
  simp only [hkey, ih f (hperm.mem_iff.mp hf) e.2 hval]

theorem ofEntries_kept {keep : String → Bool} {fields u : List (String × AttrValue)} (hk : SortedKeys fields)
    (hp : u.Perm fields) : ofEntries ((u.map fun f => (f.1, target f.2)).filter fun o => keep o.1) =
      (fields.filter fun f => keep f.1).map fun f => (f.1, target f.2) := by
  rw [List.filter_map]
  refine ofEntries_eq (sortedKeys_map (hk.sublist List.filter_sublist) _) ?_
  exact (hp.filter _).map _

theorem Follows.gives (hc : Follows fits target conv) {v : AttrValue} :
    v.Sorted → v.Every fits → ∀ x : Value, x.canon = toWire v → conv x = .ok (target v) := by
  induction v using AttrValue.induct with
  | leaf v hm hl =>
    intro _ _ x hx
    obtain rfl := (rigid_leaf hm hl x).mp hx
    exact hc.leaf v hm hl
  | m fields ih =>
    intro hs hfits x hx
    have hfit := AttrValue.everyField_iff.mp hfits
    obtain ⟨hk, hf⟩ : SortedKeys fields ∧ AttrValue.SortedFields fields := hs
    rw [AttrValue.sortedFields_iff] at hf
    obtain ⟨y, rfl, hy⟩ := Value.canon_eq_single hx
    obtain ⟨entries, rfl, hp⟩ := Value.canon_eq_obj hy
    obtain ⟨u, hu, he⟩ := exists_converted hp fun f hm => ih f hm (hf f hm) (hfit f hm).2
    exact hc.m fields u entries hk (fun f hm => (hfit f hm).1) hu he
  | l xs ih =>
    intro hs hfits x hx
    have hsorted := AttrValue.sortedList_iff.mp hs
    have hfit := AttrValue.everyElement_iff.mp hfits
    obtain ⟨y, rfl, hy⟩ := Value.canon_eq_single hx
    obtain ⟨ys, rfl, hys⟩ := Value.canon_eq_arr hy
    rw [toWireList_eq] at hys
    refine hc.l xs ys ?_
    rw [List.map_map]
    exact map_convert hys fun y _ x hm he => ih x hm (hsorted x hm) (hfit x hm) y he

end

/-! ## What a conversion aims at -/

section
variable (b64 : List UInt8 → String) (keep : String → Bool)

mutual
/-- DynamoDB JSON of the attributes whose names are kept. -/
def canonical : AttrValue → Value
  | .s text => .obj [("S", .str text)]
  | .n text => .obj [("N", .str text)]
  | .bool b => .obj [("BOOL", .bool b)]
  | .null => .obj [("NULL", .bool true)]
  | .b bytes => .obj [("B", .str (b64 bytes))]
  | .m fields => .obj [("M", .obj (canonicalFields fields))]
  | .l xs => .obj [("L", .arr (canonicalList xs))]
  | .ss xs => .obj [("SS", .arr (xs.map .str))]
  | .ns xs => .obj [("NS", .arr (xs.map .str))]
  | .bs xs => .obj [("BS", .arr (xs.map fun x => .str (b64 x)))]
def canonicalList : List AttrValue → List Value
  | [] => []
  | x :: xs => canonical x :: canonicalList xs
def canonicalFields : List (String × AttrValue) → List (String × Value)
  | [] => []
  | (k, x) :: fields => if keep k then (k, canonical x) :: canonicalFields fields else canonicalFields fields
end

/-- A conversion of what serde writes, as far as `canonical` is concerned. -/
structure Converts (conv : Value → Except ConvertError Value) : Prop where
  null : conv (.str "Null") = .ok (.obj [("NULL", .bool true)])
  s : ∀ text, conv (.obj [("S", .str text)]) = .ok (.obj [("S", .str text)])
  n : ∀ text, conv (.obj [("N", .str text)]) = .ok (.obj [("N", .str text)])
  bool : ∀ b, conv (.obj [("Bool", .bool b)]) = .ok (.obj [("BOOL", .bool b)])
  b : ∀ bytes, conv (.obj [("B", bytesToWire bytes)]) = .ok (.obj [("B", .str (b64 bytes))])
  ss : ∀ xs : List String, conv (.obj [("Ss", .arr (xs.map .str))]) = .ok (.obj [("SS", .arr (xs.map .str))])
  ns : ∀ xs : List String, conv (.obj [("Ns", .arr (xs.map .str))]) = .ok (.obj [("NS", .arr (xs.map .str))])
  bs : ∀ xs : List (List UInt8), conv (.obj [("Bs", .arr (xs.map bytesToWire))]) =
    .ok (.obj [("BS", .arr (xs.map fun x => .str (b64 x)))])
  l : ∀ xs ys, xs.map conv = ys.map .ok → conv (.obj [("L", .arr xs)]) = .ok (.obj [("L", .arr ys)])
  m : ∀ (entries outs : List (String × Value)), (entries.map fun e => (e.1, conv e.2)) = outs.map (fun o => (o.1, .ok o.2)) →
    conv (.obj [("M", .obj entries)]) = .ok (.obj [("M", .obj (ofEntries (outs.filter fun o => keep o.1)))])

end

section
variable {b64 : List UInt8 → String} {keep : String → Bool}

theorem canonicalList_eq : ∀ xs : List AttrValue, canonicalList b64 keep xs = xs.map (canonical b64 keep)
  | [] => rfl
  | x :: xs => by simp [canonicalList, canonicalList_eq xs]

theorem canonicalFields_eq : ∀ fields : List (String × AttrValue), canonicalFields b64 keep fields =
    (fields.filter fun f => keep f.1).map fun f => (f.1, canonical b64 keep f.2)
  | [] => rfl
  | (k, x) :: fields => by
    rw [canonicalFields, canonicalFields_eq fields]
    by_cases h : keep k
    · simp [h]
    · simp [h]

theorem Converts.entries {conv : Value → Except ConvertError Value} {fields : List (String × AttrValue)}
    {entries : List (String × Value)} (hk : SortedKeys fields)
    (hp : (entries.map fun e => (e.1, e.2.canon)).Perm (toWireFields fields))
    (ih : ∀ f ∈ fields, ∀ x : Value, x.canon = toWire f.2 → conv x = .ok (canonical b64 keep f.2)) :
    ∃ outs : List (String × Value), (entries.map fun e => (e.1, conv e.2)) = outs.map (fun o => (o.1, .ok o.2)) ∧
      ofEntries (outs.filter fun o => keep o.1) = canonicalFields b64 keep fields := by
  obtain ⟨u, hu, he⟩ := exists_converted hp ih
  refine ⟨u.map fun f => (f.1, canonical b64 keep f.2), ?_, ?_⟩
  · rw [he, List.map_map]
    rfl
  · rw [ofEntries_kept hk hu, canonicalFields_eq]

theorem Converts.follows {conv : Value → Except ConvertError Value} (hc : Converts b64 keep conv) :
    Follows (fun _ _ => True) (canonical b64 keep) conv where
  leaf v hm hl := by
    cases v with
    | s text => exact hc.s text
    | n text => exact hc.n text
    | bool b => exact hc.bool b
    | null => exact hc.null
    | b bytes => exact hc.b bytes
    | m fields => exact absurd rfl (hm fields)
    | l xs => exact absurd rfl (hl xs)
    | ss xs => exact hc.ss xs
    | ns xs => exact hc.ns xs
    | bs xs => exact hc.bs xs
  l xs raws h := by
    rw [hc.l raws _ h, ← canonicalList_eq]
    rfl
  m fields u entries hk _ hp h := by
    have houts : (entries.map fun e => (e.1, conv e.2)) =
        (u.map fun f => (f.1, canonical b64 keep f.2)).map fun o => (o.1, .ok o.2) := by
      rw [h, List.map_map]
      rfl
    rw [hc.m entries _ houts, ofEntries_kept hk hp, ← canonicalFields_eq]
    rfl

theorem Converts.gives {conv : Value → Except ConvertError Value} (hc : Converts b64 keep conv) {v : AttrValue}
    (hs : v.Sorted) (x : Value) (hx : x.canon = toWire v) : conv x = .ok (canonical b64 keep v) :=
  hc.follows.gives hs (AttrValue.every_of_all (fun _ _ => trivial) v) x hx

/-! ## The clients -/

theorem mapM_ok {α β γ : Type} {f : β → Except ConvertError γ} {g : α → β} {k : α → γ} (h : ∀ x, f (g x) = .ok (k x)) :
    ∀ xs : List α, (xs.map g).mapM f = .ok (xs.map k)
  | [] => rfl
  | x :: xs => by
    rw [List.map_cons, List.mapM_cons, h, mapM_ok h xs]
    rfl

theorem mapM_id_ok {α : Type} (ys : List α) : (ys.map Except.ok).mapM (id : Except ConvertError α → _) = .ok ys := by
  have hmap := mapM_ok (f := (id : Except ConvertError α → _)) (g := Except.ok) (k := id) (fun _ => rfl) ys
  rw [List.map_id] at hmap
  exact hmap

theorem bytesOf_wire {byte : Int → Except ConvertError UInt8} (h : ∀ b : UInt8, byte b.toNat = .ok b) (bytes : List UInt8) :
    bytesOf byte (bytesToWire bytes) = .ok bytes := by
  refine (mapM_ok (k := id) ?_ bytes).trans (by rw [List.map_id])
  exact h

theorem encodeAll_wire {byte : Int → Except ConvertError UInt8} (h : ∀ b : UInt8, byte b.toNat = .ok b)
    (xs : List (List UInt8)) : ((xs.map bytesToWire).mapM fun b => do return Value.str (b64 (← bytesOf byte b))) =
      .ok (xs.map fun x => .str (b64 x)) := by
  apply mapM_ok
  intro x
  rw [bytesOf_wire h]
  rfl

theorem textOf_wire (xs : List String) : (xs.map Value.str).mapM textOf = .ok xs := by
  have hmap := mapM_ok (f := textOf) (g := Value.str) (k := id) (fun _ => rfl) xs
  rw [List.map_id] at hmap
  exact hmap

theorem fill_ok {set : List (String × Value) → String → Value → List (String × Value)}
    {wrap : String → ConvertError → ConvertError} (outs : List (String × Value)) :
    fill set wrap (outs.map fun o => (o.1, .ok o.2)) = .ok (outs.foldl (fun out o => set out o.1 o.2) []) := by
  unfold fill
  generalize ([] : List (String × Value)) = out
  induction outs generalizing out with
  | nil => rfl
  | cons o outs ih =>
    rw [List.map_cons, List.foldlM_cons]
    exact ih _

namespace Python

theorem convertList_eq : ∀ xs : List Value, convertList b64 xs = xs.map (toDdbJson b64)
  | [] => rfl
  | x :: xs => by simp [convertList, convertList_eq xs]

theorem convertFields_eq : ∀ fields : List (String × Value),
    convertFields b64 fields = fields.map fun f => (f.1, toDdbJson b64 f.2)
  | [] => rfl
  | (k, x) :: fields => by simp [convertFields, convertFields_eq fields]

theorem byte_ok (b : UInt8) : byte b.toNat = .ok b := by
  have hb := b.toNat_lt
  simp [byte]
  omega

theorem dict_ok {entries outs : List (String × Value)}
    (h : (entries.map fun e => (e.1, toDdbJson b64 e.2)) = outs.map (fun o => (o.1, .ok o.2))) :
    dict (convertFields b64 entries) = .ok (ofEntries (outs.filter fun _ => true)) := by
  rw [convertFields_eq, h, List.filter_true]
  exact fill_ok outs

theorem converts : Converts b64 (fun _ => true) (toDdbJson b64) where
  null := rfl
  s _ := rfl
  n _ := rfl
  bool _ := rfl
  b bytes := by
    simp only [toDdbJson, bytesOf_wire byte_ok]
    rfl
  ss _ := rfl
  ns _ := rfl
  bs xs := by
    show (do return Value.obj [("BS", .arr (← (xs.map bytesToWire).mapM fun b => do
      return Value.str (b64 (← bytesOf byte b))))]) = _
    rw [encodeAll_wire byte_ok]
    rfl
  l xs ys h := by
    simp only [toDdbJson, convertList_eq, h, mapM_id_ok]
    rfl
  m entries outs h := by
    simp only [toDdbJson, dict_ok h]
    rfl

end Python

namespace Go

theorem convertList_eq : ∀ xs : List Value, convertList b64 xs = xs.map (ddbJSONAttr b64)
  | [] => rfl
  | x :: xs => by simp [convertList, convertList_eq xs]

theorem convertFields_eq : ∀ fields : List (String × Value),
    convertFields b64 fields = fields.map fun f => (f.1, ddbJSONAttr b64 f.2)
  | [] => rfl
  | (k, x) :: fields => by simp [convertFields, convertFields_eq fields]

theorem byte_ok (b : UInt8) : byte b.toNat = .ok b := by
  have hb := b.toNat_lt
  simp [byte]
  omega

theorem fill_converted {entries outs : List (String × Value)}
    (h : (entries.map fun e => (e.1, ddbJSONAttr b64 e.2)) = outs.map (fun o => (o.1, .ok o.2))) :
    fill assign .attr (convertFields b64 entries) = .ok (ofEntries (outs.filter fun _ => true)) := by
  rw [convertFields_eq, h, fill_ok]
  rw [List.filter_true]
  rfl

theorem converts : Converts b64 (fun _ => true) (ddbJSONAttr b64) where
  null := rfl
  s _ := rfl
  n _ := rfl
  bool _ := rfl
  b bytes := by
    simp only [ddbJSONAttr, decodeBytes, bytesOf_wire byte_ok]
    rfl
  ss xs := by
    show (do return Value.obj [("SS", .arr ((← (xs.map Value.str).mapM textOf).map .str))]) = _
    rw [textOf_wire]
    rfl
  ns xs := by
    show (do return Value.obj [("NS", .arr ((← (xs.map Value.str).mapM textOf).map .str))]) = _
    rw [textOf_wire]
    rfl
  bs xs := by
    show (do return Value.obj [("BS", .arr (← (xs.map bytesToWire).mapM fun b => do
      return Value.str (b64 (← bytesOf byte b))))]) = _
    rw [encodeAll_wire byte_ok]
    rfl
  l xs ys h := by
    simp only [ddbJSONAttr, convertList_eq, h, mapM_id_ok]
    rfl
  m entries outs h := by
    simp only [ddbJSONAttr, fill_converted h]
    rfl

end Go

namespace Node

theorem convertList_eq : ∀ xs : List Value, convertList b64 xs = xs.map (toDdbJson b64)
  | [] => rfl
  | x :: xs => by simp [convertList, convertList_eq xs]

theorem convertFields_eq : ∀ fields : List (String × Value),
    convertFields b64 fields = fields.map fun f => (f.1, toDdbJson b64 f.2)
  | [] => rfl
  | (k, x) :: fields => by simp [convertFields, convertFields_eq fields]

theorem byte_ok (b : UInt8) : byte b.toNat = .ok b := by
  have hb := b.toNat_lt
  have hmod : ((b.toNat : Int) % 256).toNat = b.toNat := by omega
  simp [byte, hmod]

theorem foldl_setOwn : ∀ {outs out : List (String × Value)}, outs.foldl (fun out o => setOwn out o.1 o.2) out =
    (outs.filter fun o => o.1 ≠ "__proto__").foldl (fun out o => assign out o.1 o.2) out
  | [], _ => rfl
  | (k, v) :: outs, out => by
    rw [List.foldl_cons, foldl_setOwn]
    by_cases hk : k = "__proto__"
    · simp [setOwn, hk]
    · simp [setOwn, hk]

theorem fill_converted {entries outs : List (String × Value)}
    (h : (entries.map fun e => (e.1, toDdbJson b64 e.2)) = outs.map (fun o => (o.1, .ok o.2))) :
    fill setOwn (fun _ e => e) (convertFields b64 entries) = .ok (ofEntries (outs.filter fun o => o.1 ≠ "__proto__")) := by
  rw [convertFields_eq, h, fill_ok]
  rw [foldl_setOwn]
  rfl

theorem converts : Converts b64 (fun k => k ≠ "__proto__") (toDdbJson b64) where
  null := rfl
  s _ := rfl
  n _ := rfl
  bool _ := rfl
  b bytes := by
    simp only [toDdbJson, bytesOf_wire byte_ok]
    rfl
  ss xs := by
    show (do return Value.obj [("SS", .arr ((← (xs.map Value.str).mapM textOf).map .str))]) = _
    rw [textOf_wire]
    rfl
  ns xs := by
    show (do return Value.obj [("NS", .arr ((← (xs.map Value.str).mapM textOf).map .str))]) = _
    rw [textOf_wire]
    rfl
  bs xs := by
    show (do return Value.obj [("BS", .arr (← (xs.map bytesToWire).mapM fun b => do
      return Value.str (b64 (← bytesOf byte b))))]) = _
    rw [encodeAll_wire byte_ok]
    rfl
  l xs ys h := by
    simp only [toDdbJson, convertList_eq, h, mapM_id_ok]
    rfl
  m entries outs h := by
    simp only [toDdbJson, fill_converted h]
    rfl

end Node

namespace Rust

theorem mapList_eq : ∀ xs : List AttrValue, mapList b64 xs = xs.map (toDdbJson b64)
  | [] => rfl
  | x :: xs => by simp [mapList, mapList_eq xs]

theorem mapFields_eq : ∀ fields : List (String × AttrValue),
    mapFields b64 fields = fields.map fun f => (f.1, toDdbJson b64 f.2)
  | [] => rfl
  | (k, x) :: fields => by simp [mapFields, mapFields_eq fields]

theorem ofEntries_mapFields {fields : List (String × AttrValue)} (hk : SortedKeys fields)
    (h : ∀ f ∈ fields, toDdbJson b64 f.2 = canonical b64 (fun _ => true) f.2) :
    ofEntries (mapFields b64 fields) = canonicalFields b64 (fun _ => true) fields := by
  rw [mapFields_eq, canonicalFields_eq, List.filter_true]
  have hmap : (fields.map fun f => (f.1, toDdbJson b64 f.2)) = fields.map fun f => (f.1, canonical b64 (fun _ => true) f.2) := by
    apply List.map_congr_left
    intro f hf
    rw [h f hf]
  rw [hmap]
  exact ofEntries_eq (sortedKeys_map hk _) (List.Perm.refl _)

theorem toDdbJson_eq {v : AttrValue} : v.Sorted → toDdbJson b64 v = canonical b64 (fun _ => true) v := by
  induction v using AttrValue.induct with
  | leaf v hm hl =>
    intro _
    cases v with
    | m fields => exact absurd rfl (hm fields)
    | l xs => exact absurd rfl (hl xs)
    | _ => rfl
  | m fields ih =>
    intro hs
    obtain ⟨hk, hf⟩ : SortedKeys fields ∧ AttrValue.SortedFields fields := hs
    rw [AttrValue.sortedFields_iff] at hf
    rw [toDdbJson, canonical, ofEntries_mapFields hk fun f hm => ih f hm (hf f hm)]
  | l xs ih =>
    intro hs
    have hx := AttrValue.sortedList_iff.mp hs
    rw [toDdbJson, canonical, mapList_eq, canonicalList_eq]
    congr 4
    apply List.map_congr_left
    intro x hm
    exact ih x hm (hx x hm)

theorem itemToJson_eq (item : Item) :
    itemToJson b64 item.fields = .obj (canonicalFields b64 (fun _ => true) item.fields) := by
  have hs := AttrValue.sortedFields_iff.mp item.values_sorted
  rw [itemToJson, ofEntries_mapFields item.keys_sorted fun f hm => toDdbJson_eq (hs f hm)]

end Rust

/-! ## Names that are not kept -/

theorem canonicalFields_keep {fields : List (String × AttrValue)}
    (h : ∀ f ∈ fields, canonical b64 keep f.2 = canonical b64 (fun _ => true) f.2 ↔ f.2.Names (keep · = true)) :
    canonicalFields b64 keep fields = canonicalFields b64 (fun _ => true) fields ↔
      AttrValue.NamesFields (keep · = true) fields := by
  rw [canonicalFields_eq, canonicalFields_eq, List.filter_true, AttrValue.namesFields_iff]
  constructor
  · intro heq
    -- nothing was dropped, so the lists are equally long
    have hlen : (fields.filter fun f => keep f.1).length = fields.length := by simpa using congrArg List.length heq
    have hall := List.length_filter_eq_length_iff.mp hlen
    rw [List.filter_eq_self.mpr hall] at heq
    intro f hf
    have hf' := List.map_inj_left.mp heq f hf
    exact ⟨hall f hf, (h f hf).mp (Prod.mk.inj hf').2⟩
  · intro hall
    rw [List.filter_eq_self.mpr fun f hf => (hall f hf).1]
    apply List.map_congr_left
    intro f hf
    rw [(h f hf).mpr (hall f hf).2]

theorem canonical_keep {v : AttrValue} :
    canonical b64 keep v = canonical b64 (fun _ => true) v ↔ v.Names (keep · = true) := by
  induction v using AttrValue.induct with
  | leaf v hm hl =>
    cases v with
    | m fields => exact absurd rfl (hm fields)
    | l xs => exact absurd rfl (hl xs)
    | _ => simp [canonical, AttrValue.Names]
  | m fields ih =>
    simp only [canonical, AttrValue.Names, Value.obj.injEq, List.cons.injEq, Prod.mk.injEq, true_and, and_true]
    exact canonicalFields_keep ih
  | l xs ih =>
    simp only [canonical, AttrValue.Names, Value.obj.injEq, Value.arr.injEq, List.cons.injEq, Prod.mk.injEq, true_and, and_true]
    rw [canonicalList_eq, canonicalList_eq, List.map_inj_left, AttrValue.namesList_iff]
    exact forall₂_congr ih

/-! ## Nothing is lost -/

theorem canonicalFields_injective {fields fields' : List (String × AttrValue)}
    (ih : ∀ f ∈ fields, ∀ v', canonical b64 (fun _ => true) f.2 = canonical b64 (fun _ => true) v' → f.2 = v')
    (h : canonicalFields b64 (fun _ => true) fields = canonicalFields b64 (fun _ => true) fields') : fields = fields' := by
  rw [canonicalFields_eq, canonicalFields_eq, List.filter_true, List.filter_true] at h
  have hid : fields.map id = fields'.map id := by
    refine map_convert h ?_
    intro f hf f' _ he
    obtain ⟨hkey, hval⟩ := Prod.mk.inj he
    exact Prod.ext hkey (ih f hf f'.2 hval)
  simpa using hid

theorem canonical_injective (hb : Function.Injective b64) {v : AttrValue} :
    ∀ v', canonical b64 (fun _ => true) v = canonical b64 (fun _ => true) v' → v = v' := by
  have hstr : Function.Injective Value.str := fun _ _ h => Value.str.inj h
  induction v using AttrValue.induct with
  | leaf v hm hl =>
    intro v' h
    cases v with
    | m fields => exact absurd rfl (hm fields)
    | l xs => exact absurd rfl (hl xs)
    | b bytes =>
      cases v' <;> simp [canonical] at h
      rw [hb h]
    | ss xs =>
      cases v' <;> simp [canonical] at h
      rw [hstr.list_map h]
    | ns xs =>
      cases v' <;> simp [canonical] at h
      rw [hstr.list_map h]
    | bs xs =>
      cases v' <;> simp [canonical] at h
      rw [(hstr.comp hb).list_map h]
    | _ =>
      cases v' <;> simp [canonical] at h
      simp [h]
  | m fields ih =>
    intro v' h
    cases v' <;> simp [canonical] at h
    rw [canonicalFields_injective ih h]
  | l xs ih =>
    intro v' h
    cases v' <;> simp [canonical] at h
    rename_i ys
    rw [canonicalList_eq, canonicalList_eq] at h
    have hid : xs.map id = ys.map id := map_convert h fun x hx y _ he => ih x hx y he
    simpa using hid

end

/-! ## Agreement -/

section
variable (b64 : List UInt8 → String)

/-- Whatever the order of its entries in a client, the value is converted to the JSON of the Rust client. -/
def SameJson (a : Attr) : Prop := ∀ raw : Value, raw.canon = toWire a.value →
  Python.toDdbJson b64 raw = .ok (Rust.toDdbJson b64 a.value) ∧ Go.ddbJSONAttr b64 raw = .ok (Rust.toDdbJson b64 a.value) ∧
    Node.toDdbJson b64 raw = .ok (Rust.toDdbJson b64 a.value)

def SameItemJson (item : Item) : Prop := ∀ raw : List (String × Value), (Value.obj raw).canon = .obj (toWireFields item.fields) →
  (Python.ddbJsonItem b64 (some raw)).map Value.obj = .ok (Rust.itemToJson b64 item.fields) ∧
    (Go.ddbJSONItem b64 raw).map Value.obj = .ok (Rust.itemToJson b64 item.fields) ∧
    (Node.ddbJsonItem b64 (some raw)).map Value.obj = .ok (Rust.itemToJson b64 item.fields)

def Recoverable (a : Attr) : Prop := ∀ a' : Attr, Rust.toDdbJson b64 a'.value = Rust.toDdbJson b64 a.value → a' = a

def RecoverableItem (item : Item) : Prop :=
  ∀ item' : Item, Rust.itemToJson b64 item'.fields = Rust.itemToJson b64 item.fields → item' = item

end

section
variable {b64 : List UInt8 → String}

theorem recoverable (hb : Function.Injective b64) (a : Attr) : Recoverable b64 a := by
  intro a' h
  rw [Rust.toDdbJson_eq a'.sorted, Rust.toDdbJson_eq a.sorted] at h
  have hvalue := canonical_injective hb a.value h
  cases a
  cases a'
  simp_all

theorem recoverableItem (hb : Function.Injective b64) (item : Item) : RecoverableItem b64 item := by
  intro item' h
  rw [Rust.itemToJson_eq, Rust.itemToJson_eq] at h
  have hfields := canonicalFields_injective (fun f _ v' => canonical_injective hb v') (Value.obj.inj h)
  cases item
  cases item'
  simp_all

theorem node_names : (fun k => decide (k ≠ "__proto__") = true) = fun k : String => k ≠ "__proto__" := by
  funext k
  exact propext decide_eq_true_iff

theorem sameJson_iff (a : Attr) : SameJson b64 a ↔ a.value.Names (· ≠ "__proto__") := by
  unfold SameJson
  rw [Rust.toDdbJson_eq a.sorted, ← node_names, ← @canonical_keep b64]
  constructor
  · intro h
    have hraw := canon_toWire a.sorted
    have hsame := (h _ hraw).2.2
    rw [Node.converts.gives a.sorted _ hraw] at hsame
    exact Except.ok.inj hsame
  · intro hkeep raw hraw
    refine ⟨Python.converts.gives a.sorted raw hraw, Go.converts.gives a.sorted raw hraw, ?_⟩
    rw [← hkeep]
    exact Node.converts.gives a.sorted raw hraw

theorem sameItemJson_iff (item : Item) : SameItemJson b64 item ↔ AttrValue.NamesFields (· ≠ "__proto__") item.fields := by
  have hs := AttrValue.sortedFields_iff.mp item.values_sorted
  have hraws : ∀ raw : List (String × Value), (Value.obj raw).canon = .obj (toWireFields item.fields) →
      (Python.ddbJsonItem b64 (some raw)).map Value.obj = .ok (.obj (canonicalFields b64 (fun _ => true) item.fields)) ∧
        (Go.ddbJSONItem b64 raw).map Value.obj = .ok (.obj (canonicalFields b64 (fun _ => true) item.fields)) ∧
        (Node.ddbJsonItem b64 (some raw)).map Value.obj =
          .ok (.obj (canonicalFields b64 (fun k => k ≠ "__proto__") item.fields)) := by
    intro raw hraw
    obtain ⟨entries, he, hp⟩ := Value.canon_eq_obj hraw
    obtain rfl := Value.obj.inj he
    obtain ⟨outs, hout, heq⟩ := Converts.entries item.keys_sorted hp fun f hf => (@Python.converts b64).gives (hs f hf)
    obtain ⟨outs', hout', heq'⟩ := Converts.entries item.keys_sorted hp fun f hf => (@Go.converts b64).gives (hs f hf)
    obtain ⟨outs'', hout'', heq''⟩ := Converts.entries item.keys_sorted hp fun f hf => (@Node.converts b64).gives (hs f hf)
    refine ⟨?_, ?_, ?_⟩
    · rw [Python.ddbJsonItem, Python.dict_ok hout, heq]
      rfl
    · rw [Go.ddbJSONItem, Go.fill_converted hout', heq']
      rfl
    · rw [Node.ddbJsonItem, Node.fill_converted hout'', heq'']
      rfl
  unfold SameItemJson
  rw [Rust.itemToJson_eq, ← node_names, ← @canonicalFields_keep b64 _ _ fun f _ => canonical_keep]
  constructor
  · intro h
    have hraw := canon_toWireFields item.keys_sorted fun f hf => canon_toWire (hs f hf)
    have hsame := (h _ hraw).2.2
    rw [(hraws _ hraw).2.2] at hsame
    exact Value.obj.inj (Except.ok.inj hsame)
  · intro hkeep raw hraw
    obtain ⟨hpython, hgo, hnode⟩ := hraws raw hraw
    rw [hkeep] at hnode
    exact ⟨hpython, hgo, hnode⟩

/-- All clients convert a value or an item to the same JSON, from which it can be recovered, if and only if none of
its attributes, at any level, is called `__proto__`. -/
theorem clients_agree_iff (hb : Function.Injective b64) :
    (∀ a : Attr, SameJson b64 a ∧ Recoverable b64 a ↔ a.value.Names (· ≠ "__proto__")) ∧
      ∀ item : Item, SameItemJson b64 item ∧ RecoverableItem b64 item ↔
        AttrValue.NamesFields (· ≠ "__proto__") item.fields := by
  constructor
  · intro a
    rw [sameJson_iff]
    exact and_iff_left (recoverable hb a)
  · intro item
    rw [sameItemJson_iff]
    exact and_iff_left (recoverableItem hb item)

end

def bytesItem : Item where
  fields := [("a", .b [77, 97]), ("b", .l [.null, .m [("c", .n "1")]])]
  keys_sorted := by
    have hlt : "a" < "b" := by decide
    simpa [SortedKeys] using hlt
  values_sorted := by simp [AttrValue.SortedFields, AttrValue.Sorted, AttrValue.SortedList, SortedKeys]

/-- An item with bytes and a map inside a list. -/
theorem clients_agree_iff_nested : SameItemJson Base64.encode bytesItem ∧ RecoverableItem Base64.encode bytesItem := by
  apply ((clients_agree_iff Base64.encode_injective).2 bytesItem).mpr
  simp [bytesItem, AttrValue.NamesFields, AttrValue.Names, AttrValue.NamesList]

def protoItem : Item where
  fields := [("__proto__", .s "x")]
  keys_sorted := by simp [SortedKeys]
  values_sorted := by simp [AttrValue.SortedFields, AttrValue.Sorted]

/-- The Node client drops an attribute called `__proto__`. -/
theorem node_drops_proto : ¬ ∀ item : Item, SameItemJson Base64.encode item ∧ RecoverableItem Base64.encode item := by
  intro h
  have hsame := ((h protoItem).1 [("__proto__", .obj [("S", .str "x")])] rfl).2.2
  have hempty : (Except.ok (.obj []) : Except ConvertError Value) = .ok (.obj [("__proto__", .obj [("S", .str "x")])]) := hsame
  simp at hempty

end Clients

end StreamsConsumer
