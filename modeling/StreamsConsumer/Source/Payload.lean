import Mathlib.Data.List.Induction
import StreamsConsumer.Clients.Session
import StreamsConsumer.Source.DdbStreams

/-!
# Payloads

`source-ddbstreams/src/record.rs` and the loop of `get_records` over a page:
the record that the SDK returns becomes the typed change record, and that the
payload of a record. The maps of the SDK list their entries in any order; the
maps of a change record are ordered.
-/

namespace StreamsConsumer
open Json Clients

/-! ## Records of the SDK -/

inductive Sdk where
  | s (text : String)
  | n (text : String)
  | bool (b : Bool)
  | null (b : Bool)
  | b (bytes : List UInt8)
  | m (fields : List (String × Sdk))
  | l (xs : List Sdk)
  | ss (xs : List String)
  | ns (xs : List String)
  | bs (xs : List (List UInt8))
  | unknown

namespace Sdk

mutual
/-- The maps are `HashMap`s: each key stands in them once. -/
def Distinct : Sdk → Prop
  | .m fields => (fields.map Prod.fst).Nodup ∧ DistinctFields fields
  | .l xs => DistinctList xs
  | _ => True
def DistinctList : List Sdk → Prop
  | [] => True
  | x :: xs => x.Distinct ∧ DistinctList xs
def DistinctFields : List (String × Sdk) → Prop
  | [] => True
  | (_, x) :: fields => x.Distinct ∧ DistinctFields fields
end

mutual
def attr : Sdk → AttrValue
  | .s text => .s text
  | .n text => .n text
  | .bool flag => .bool flag
  | .null _ => .null
  | .b bytes => .b bytes
  | .m fields => .m (ofEntries (attrFields fields))
  | .l xs => .l (attrList xs)
  | .ss xs => .ss xs
  | .ns xs => .ns xs
  | .bs xs => .bs xs
  | .unknown => .null
def attrList : List Sdk → List AttrValue
  | [] => []
  | x :: xs => attr x :: attrList xs
def attrFields : List (String × Sdk) → List (String × AttrValue)
  | [] => []
  | (k, x) :: fields => (k, attr x) :: attrFields fields
end

def isNothing : Sdk → Bool
  | .null _ => true
  | .unknown => true
  | _ => false

mutual
/-- The same but for the order of maps, the flag of `NULL` and what the SDK does not know. -/
def Same : Sdk → Sdk → Prop
  | .m fields, v => ∃ fields', v = .m fields' ∧ SameFields fields fields'
  | .l xs, v => ∃ xs', v = .l xs' ∧ SameList xs xs'
  | .null _, v => v.isNothing = true
  | .unknown, v => v.isNothing = true
  | .s text, v => v = .s text
  | .n text, v => v = .n text
  | .bool flag, v => v = .bool flag
  | .b bytes, v => v = .b bytes
  | .ss xs, v => v = .ss xs
  | .ns xs, v => v = .ns xs
  | .bs xs, v => v = .bs xs
def SameList : List Sdk → List Sdk → Prop
  | [], ys => ys = []
  | x :: xs, ys => ∃ y rest, ys = y :: rest ∧ Same x y ∧ SameList xs rest
def SameFields : List (String × Sdk) → List (String × Sdk) → Prop
  | [], gs => gs = []
  | (k, x) :: fs, gs => ∃ y rest, gs.Perm ((k, y) :: rest) ∧ Same x y ∧ SameFields fs rest
end

theorem distinctFields_iff : ∀ {fs : List (String × Sdk)}, DistinctFields fs ↔ ∀ f ∈ fs, f.2.Distinct
  | [] => by simp [DistinctFields]
  | (k, x) :: fs => by simp [DistinctFields, distinctFields_iff]

theorem attrFields_eq : ∀ fs : List (String × Sdk), attrFields fs = fs.map fun f => (f.1, attr f.2)
  | [] => rfl
  | (k, x) :: fs => by rw [attrFields, attrFields_eq fs, List.map_cons]

theorem attrFields_keys (fs : List (String × Sdk)) : (attrFields fs).map Prod.fst = fs.map Prod.fst := by
  rw [attrFields_eq, List.map_map]
  rfl

theorem ofEntries_perm {es : List (String × AttrValue)} (h : (es.map Prod.fst).Nodup) : (ofEntries es).Perm es := by
  have hfill := (foldl_assign SortedKeys.nil (by rwa [List.nil_append])).2
  rwa [List.nil_append] at hfill

theorem ofEntries_inj {es es' : List (String × AttrValue)} (h : (es.map Prod.fst).Nodup) (h' : (es'.map Prod.fst).Nodup) :
    ofEntries es = ofEntries es' ↔ es.Perm es' := by
  refine ⟨fun heq => (ofEntries_perm h).symm.trans (heq ▸ ofEntries_perm h'), fun hp => ?_⟩
  exact ofEntries_eq (ofEntries_sortedKeys es').1 (hp.trans (ofEntries_perm h').symm)

mutual
theorem attr_eq_iff : ∀ {u v : Sdk}, u.Distinct → v.Distinct → (attr u = attr v ↔ Same u v)
  | .m fields, v, hu, hv => by
    cases v with
    | m fields' =>
      have hkeys : ((attrFields fields).map Prod.fst).Nodup := by rw [attrFields_keys]; exact hu.1
      have hkeys' : ((attrFields fields').map Prod.fst).Nodup := by rw [attrFields_keys]; exact hv.1
      rw [attr, attr, AttrValue.m.injEq, ofEntries_inj hkeys hkeys', attrFields_perm_iff hu.2 hv.2]
      simp [Same]
    | _ => simp [attr, Same]
  | .l xs, v, hu, hv => by
    cases v with
    | l ys =>
      rw [attr, attr, AttrValue.l.injEq, attrList_eq_iff hu hv]
      simp [Same]
    | _ => simp [attr, Same]
  | .s _, v, _, _ => by cases v <;> simp [attr, Same, eq_comm]
  | .n _, v, _, _ => by cases v <;> simp [attr, Same, eq_comm]
  | .bool _, v, _, _ => by cases v <;> simp [attr, Same, eq_comm]
  | .null _, v, _, _ => by cases v <;> simp [attr, Same, isNothing]
  | .b _, v, _, _ => by cases v <;> simp [attr, Same, eq_comm]
  | .ss _, v, _, _ => by cases v <;> simp [attr, Same, eq_comm]
  | .ns _, v, _, _ => by cases v <;> simp [attr, Same, eq_comm]
  | .bs _, v, _, _ => by cases v <;> simp [attr, Same, eq_comm]
  | .unknown, v, _, _ => by cases v <;> simp [attr, Same, isNothing]
theorem attrList_eq_iff : ∀ {xs ys : List Sdk}, DistinctList xs → DistinctList ys → (attrList xs = attrList ys ↔ SameList xs ys)
  | [], ys, _, _ => by cases ys <;> simp [attrList, SameList]
  | x :: xs, [], _, _ => by simp [attrList, SameList]
  | x :: xs, y :: ys, hx, hy => by
    rw [attrList, attrList, List.cons.injEq, attr_eq_iff hx.1 hy.1, attrList_eq_iff hx.2 hy.2]
    simp [SameList]
theorem attrFields_perm_iff : ∀ {fs gs : List (String × Sdk)}, DistinctFields fs → DistinctFields gs →
    ((attrFields fs).Perm (attrFields gs) ↔ SameFields fs gs)
  | [], gs, _, _ => by
    rw [attrFields, List.nil_perm, attrFields_eq, List.map_eq_nil_iff]
    rfl
  | (k, x) :: fs, gs, hf, hg => by
    constructor
    · intro hp
      rw [attrFields_eq, attrFields_eq] at hp
      obtain ⟨u, hu, hug⟩ := exists_perm_map hp
      cases u with
      | nil => simp at hu
      | cons e rest =>
        obtain ⟨k', y⟩ := e
        have hrest : DistinctFields ((k', y) :: rest) := distinctFields_iff.mpr fun f hm => distinctFields_iff.mp hg f (hug.subset hm)
        simp only [List.map_cons, List.cons.injEq, Prod.mk.injEq] at hu
        obtain ⟨⟨rfl, hxy⟩, htail⟩ := hu
        refine ⟨y, rest, hug.symm, (attr_eq_iff hf.1 hrest.1).mp hxy, (attrFields_perm_iff hf.2 hrest.2).mp ?_⟩
        rw [attrFields_eq, attrFields_eq, htail]
    · rintro ⟨y, rest, hp, hxy, hsame⟩
      have hrest : DistinctFields ((k, y) :: rest) := distinctFields_iff.mpr fun f hm => distinctFields_iff.mp hg f (hp.symm.subset hm)
      have hmap : (attrFields gs).Perm (attrFields ((k, y) :: rest)) := by
        rw [attrFields_eq, attrFields_eq]
        exact hp.map _
      refine List.Perm.trans ?_ hmap.symm
      rw [attrFields, attrFields, (attr_eq_iff hf.1 hrest.1).mpr hxy]
      exact ((attrFields_perm_iff hf.2 hrest.2).mpr hsame).cons _
end

mutual
theorem attr_sorted : ∀ v : Sdk, (attr v).Sorted
  | .m fields => by
    refine ⟨(ofEntries_sortedKeys _).1, ?_⟩
    rw [AttrValue.sortedFields_iff]
    intro f hf
    exact AttrValue.sortedFields_iff.mp (attrFields_sorted fields) f ((ofEntries_sortedKeys _).2 f hf)
  | .l xs => attrList_sorted xs
  | .s _ => trivial
  | .n _ => trivial
  | .bool _ => trivial
  | .null _ => trivial
  | .b _ => trivial
  | .ss _ => trivial
  | .ns _ => trivial
  | .bs _ => trivial
  | .unknown => trivial
theorem attrList_sorted : ∀ xs : List Sdk, AttrValue.SortedList (attrList xs)
  | [] => trivial
  | x :: xs => ⟨attr_sorted x, attrList_sorted xs⟩
theorem attrFields_sorted : ∀ fields : List (String × Sdk), AttrValue.SortedFields (attrFields fields)
  | [] => trivial
  | (_, x) :: fields => ⟨attr_sorted x, attrFields_sorted fields⟩
end

end Sdk

/-! ## Change records -/

structure SdkItem where
  fields : List (String × Sdk)
  nodup : (fields.map Prod.fst).Nodup
  distinct : Sdk.DistinctFields fields

/-- `DateTime`: `millis` is what `to_millis` makes of it, if that fits. -/
structure SdkDateTime where
  secs : Int64
  millis : Option Int64

structure SdkStreamRecord where
  sequenceNumber : Option String
  sizeBytes : Option Int64
  streamViewType : Option String
  keys : Option SdkItem
  newImage : Option SdkItem
  oldImage : Option SdkItem
  approximateCreationDateTime : Option SdkDateTime

structure SdkRecord where
  eventName : Option String
  dynamodb : Option SdkStreamRecord

def SdkDateTime.creationMs (t : SdkDateTime) : Int64 := t.millis.getD (t.secs * 1000)

def mapBtree (m : SdkItem) : Item where
  fields := ofEntries (Sdk.attrFields m.fields)
  keys_sorted := (ofEntries_sortedKeys _).1
  values_sorted := by
    rw [AttrValue.sortedFields_iff]
    intro f hf
    exact AttrValue.sortedFields_iff.mp (Sdk.attrFields_sorted m.fields) f ((ofEntries_sortedKeys _).2 f hf)

def emptyItem : Item := ⟨[], SortedKeys.nil, trivial⟩

/-- An image without attributes is none. -/
def imageOf (o : Option SdkItem) : Option Item := (o.filter fun m => !m.fields.isEmpty).map mapBtree

namespace SdkRecord

def created (r : SdkRecord) : Option Int64 :=
  (r.dynamodb.bind SdkStreamRecord.approximateCreationDateTime).map SdkDateTime.creationMs

def fromSdk (r : SdkRecord) : StreamRecord where
  eventName := r.eventName
  sequenceNumber := r.dynamodb.bind SdkStreamRecord.sequenceNumber
  sizeBytes := r.dynamodb.bind SdkStreamRecord.sizeBytes
  streamViewType := r.dynamodb.bind SdkStreamRecord.streamViewType
  keys := ((r.dynamodb.bind SdkStreamRecord.keys).map mapBtree).getD emptyItem
  newImage := imageOf (r.dynamodb.bind SdkStreamRecord.newImage)
  oldImage := imageOf (r.dynamodb.bind SdkStreamRecord.oldImage)
  approxCreationTimeMs := r.created

end SdkRecord

/-- No map is as good as an empty one. -/
def SameItem (o o' : Option SdkItem) : Prop :=
  Sdk.SameFields ((o.map SdkItem.fields).getD []) ((o'.map SdkItem.fields).getD [])

/-- The same change of the same item. -/
structure SdkRecord.Same (r r' : SdkRecord) : Prop where
  eventName : r.eventName = r'.eventName
  sequenceNumber : r.dynamodb.bind SdkStreamRecord.sequenceNumber = r'.dynamodb.bind SdkStreamRecord.sequenceNumber
  sizeBytes : r.dynamodb.bind SdkStreamRecord.sizeBytes = r'.dynamodb.bind SdkStreamRecord.sizeBytes
  streamViewType : r.dynamodb.bind SdkStreamRecord.streamViewType = r'.dynamodb.bind SdkStreamRecord.streamViewType
  keys : SameItem (r.dynamodb.bind SdkStreamRecord.keys) (r'.dynamodb.bind SdkStreamRecord.keys)
  newImage : SameItem (r.dynamodb.bind SdkStreamRecord.newImage) (r'.dynamodb.bind SdkStreamRecord.newImage)
  oldImage : SameItem (r.dynamodb.bind SdkStreamRecord.oldImage) (r'.dynamodb.bind SdkStreamRecord.oldImage)
  created : r.created = r'.created

/-! ### Nothing is lost -/

theorem sameItem_iff (o o' : Option SdkItem) : SameItem o o' ↔
    ofEntries (Sdk.attrFields ((o.map SdkItem.fields).getD [])) = ofEntries (Sdk.attrFields ((o'.map SdkItem.fields).getD [])) := by
  have hwell : ∀ o : Option SdkItem, ((Sdk.attrFields ((o.map SdkItem.fields).getD [])).map Prod.fst).Nodup ∧
      Sdk.DistinctFields ((o.map SdkItem.fields).getD []) := by
    intro o
    rw [Sdk.attrFields_keys]
    cases o with
    | none => exact ⟨List.nodup_nil, trivial⟩
    | some m => exact ⟨m.nodup, m.distinct⟩
  rw [Sdk.ofEntries_inj (hwell o).1 (hwell o').1, Sdk.attrFields_perm_iff (hwell o).2 (hwell o').2]
  rfl

theorem keys_eq_iff (o o' : Option SdkItem) :
    (o.map mapBtree).getD emptyItem = (o'.map mapBtree).getD emptyItem ↔ SameItem o o' := by
  have hfields : ∀ o : Option SdkItem,
      ((o.map mapBtree).getD emptyItem).fields = ofEntries (Sdk.attrFields ((o.map SdkItem.fields).getD [])) := by
    intro o
    cases o <;> rfl
  rw [sameItem_iff, ← hfields, ← hfields]
  refine ⟨congrArg Item.fields, fun h => ?_⟩
  cases h' : (o.map mapBtree).getD emptyItem
  cases h'' : (o'.map mapBtree).getD emptyItem
  rw [h', h''] at h
  cases h
  rfl

theorem imageOf_fields (o : Option SdkItem) : ((imageOf o).map Item.fields).getD [] =
    ofEntries (Sdk.attrFields ((o.map SdkItem.fields).getD [])) ∧ ∀ item ∈ imageOf o, item.fields ≠ [] := by
  cases o with
  | none => exact ⟨rfl, by simp [imageOf]⟩
  | some m =>
    by_cases hm : m.fields = []
    · have himage : imageOf (some m) = none := by simp [imageOf, Option.filter, hm]
      rw [himage]
      exact ⟨by simp [hm, Sdk.attrFields, ofEntries], by simp⟩
    · have himage : imageOf (some m) = some (mapBtree m) := by simp [imageOf, hm]
      rw [himage]
      refine ⟨rfl, fun item hitem hnil => hm ?_⟩
      obtain rfl := Option.some.inj hitem
      have hperm := Sdk.ofEntries_perm (by rw [Sdk.attrFields_keys]; exact m.nodup)
      rw [show ofEntries (Sdk.attrFields m.fields) = [] from hnil, Sdk.attrFields_eq] at hperm
      simpa using hperm.symm.eq_nil

theorem imageOf_eq_iff (o o' : Option SdkItem) : imageOf o = imageOf o' ↔ SameItem o o' := by
  obtain ⟨hfields, hne⟩ := imageOf_fields o
  obtain ⟨hfields', hne'⟩ := imageOf_fields o'
  rw [sameItem_iff, ← hfields, ← hfields']
  refine ⟨fun h => by rw [h], fun h => ?_⟩
  cases himage : imageOf o with
  | none =>
    cases himage' : imageOf o' with
    | none => rfl
    | some item' =>
      rw [himage, himage'] at h
      exact absurd h.symm (hne' item' himage')
  | some item =>
    cases himage' : imageOf o' with
    | none =>
      rw [himage, himage'] at h
      exact absurd h (hne item himage)
    | some item' =>
      rw [himage, himage'] at h
      cases item
      cases item'
      cases h
      rfl

/-- Two records of the SDK have the same payload exactly if they are the same change of the same item: whatever the order of
their maps, and with nothing else lost. -/
theorem payload_eq_iff (r r' : SdkRecord) : r.fromSdk.encode = r'.fromSdk.encode ↔ r.Same r' := by
  rw [StreamRecord.encode_injective.eq_iff]
  constructor
  · intro h
    have hkeys := congrArg StreamRecord.keys h
    have hnew := congrArg StreamRecord.newImage h
    have hold := congrArg StreamRecord.oldImage h
    exact ⟨congrArg StreamRecord.eventName h, congrArg StreamRecord.sequenceNumber h, congrArg StreamRecord.sizeBytes h,
      congrArg StreamRecord.streamViewType h, (keys_eq_iff _ _).mp hkeys, (imageOf_eq_iff _ _).mp hnew,
      (imageOf_eq_iff _ _).mp hold, congrArg StreamRecord.approxCreationTimeMs h⟩
  · intro h
    unfold SdkRecord.fromSdk
    rw [h.eventName, h.sequenceNumber, h.sizeBytes, h.streamViewType, h.created, (keys_eq_iff _ _).mpr h.keys,
      (imageOf_eq_iff _ _).mpr h.newImage, (imageOf_eq_iff _ _).mpr h.oldImage]

/-! ## Pages -/

/-- The loop over the records of a page: the records and when the newest of them was created. -/
def pageRecords (shard : ShardId) (page : List SdkRecord) : List Record × Option Int64 :=
  page.foldl (fun (records, newest) r =>
    match r.dynamodb with
    | none => (records, newest)
    | some sr =>
      let seq := sr.sequenceNumber.getD ""
      if seq = "" then (records, newest)
      else (records ++ [⟨shard, seq, r.fromSdk.encode⟩], r.created.or newest)) ([], none)

namespace SdkRecord

def seq (r : SdkRecord) : SequenceNumber := (r.dynamodb.bind SdkStreamRecord.sequenceNumber).getD ""

/-- A record without a sequence number is skipped. -/
def isPlaced (r : SdkRecord) : Bool := r.seq ≠ ""

def toRecord (shard : ShardId) (r : SdkRecord) : Record := ⟨shard, r.seq, r.fromSdk.encode⟩

end SdkRecord

theorem pageRecords_eq (shard : ShardId) (page : List SdkRecord) : pageRecords shard page =
    ((page.filter SdkRecord.isPlaced).map (SdkRecord.toRecord shard),
      ((page.filter SdkRecord.isPlaced).filterMap SdkRecord.created).getLast?) := by
  induction page using List.reverseRecOn with
  | nil => rfl
  | append_singleton page r ih =>
    have hloop : pageRecords shard (page ++ [r]) = match r.dynamodb with
        | none => pageRecords shard page
        | some sr =>
          if sr.sequenceNumber.getD "" = "" then pageRecords shard page
          else ((pageRecords shard page).1 ++ [⟨shard, sr.sequenceNumber.getD "", r.fromSdk.encode⟩],
            r.created.or (pageRecords shard page).2) := by
      simp only [pageRecords, List.foldl_append, List.foldl_cons, List.foldl_nil]
    rw [hloop, ih]
    cases hr : r.dynamodb with
    | none =>
      have hskip : r.isPlaced = false := by simp [SdkRecord.isPlaced, SdkRecord.seq, hr]
      simp [hskip]
    | some sr =>
      have hseq : r.seq = sr.sequenceNumber.getD "" := by simp [SdkRecord.seq, hr]
      by_cases hempty : sr.sequenceNumber.getD "" = ""
      · have hskip : r.isPlaced = false := by simp [SdkRecord.isPlaced, hseq, hempty]
        simp [hskip, hempty]
      · have hkeep : r.isPlaced = true := by simp [SdkRecord.isPlaced, hseq, hempty]
        cases hcreated : r.created <;> simp [hkeep, hempty, SdkRecord.toRecord, hseq, hcreated]

theorem pageRecords_decodeRecords (shard : ShardId) (page : List SdkRecord) :
    (pageRecords shard page).1 = DdbStreamsSource.decodeRecords shard (page.map (SdkRecord.toRecord "")) := by
  have hkeep : (fun r : Record => decide (r.seq ≠ "")) ∘ SdkRecord.toRecord "" = SdkRecord.isPlaced := rfl
  rw [pageRecords_eq, DdbStreamsSource.decodeRecords, List.filter_map, List.map_map, hkeep]
  rfl

theorem SdkRecord.sequenceNumber_of_placed {r : SdkRecord} (h : r.isPlaced = true) :
    r.fromSdk.sequenceNumber = some r.seq := by
  show r.dynamodb.bind SdkStreamRecord.sequenceNumber = some r.seq
  unfold isPlaced seq at h
  unfold seq
  cases hseq : r.dynamodb.bind SdkStreamRecord.sequenceNumber with
  | none => simp [hseq] at h
  | some q => rfl

/-- What the sidecar sends of a page that it got: every record that has a sequence number, as the SDK gave it, under that
number and in that order. -/
theorem page_sent_whole (shard : ShardId) {page : List SdkRecord}
    (h : ∀ r ∈ page, ∀ item ∈ r.fromSdk.images, item.nesting ≤ 32) :
    decoded (pageRecords shard page).1 = (page.filter SdkRecord.isPlaced).map SdkRecord.fromSdk ∧
      (decoded (pageRecords shard page).1).map StreamRecord.sequenceNumber =
        (pageRecords shard page).1.map (fun r => some r.seq) ∧
      (pageRecords shard page).2 = ((page.filter SdkRecord.isPlaced).filterMap SdkRecord.created).getLast? := by
  have hdecode : ∀ r ∈ page.filter SdkRecord.isPlaced, StreamRecord.decode r.fromSdk.encode = some r.fromSdk := fun r hr =>
    StreamRecord.decode_encode_of_nesting (h r (List.mem_of_mem_filter hr))
  have hwhole : decoded (pageRecords shard page).1 = (page.filter SdkRecord.isPlaced).map SdkRecord.fromSdk := by
    rw [pageRecords_eq, decoded, List.filterMap_map, ← List.filterMap_eq_map]
    exact List.filterMap_congr hdecode
  refine ⟨hwhole, ?_, by rw [pageRecords_eq]⟩
  rw [hwhole, pageRecords_eq, List.map_map, List.map_map]
  exact List.map_congr_left fun r hr => SdkRecord.sequenceNumber_of_placed (List.mem_filter.mp hr).2

def insertion : SdkRecord where
  eventName := some "INSERT"
  dynamodb := some {
    sequenceNumber := some "7"
    sizeBytes := none
    streamViewType := none
    keys := some ⟨[("pk", .s "k1")], by decide, ⟨trivial, trivial⟩⟩
    newImage := none
    oldImage := none
    approximateCreationDateTime := none }

theorem page_sent_whole_insertion : decoded (pageRecords "s0" [insertion]).1 = [insertion.fromSdk] := by
  have hnesting : ∀ r ∈ [insertion], ∀ item ∈ r.fromSdk.images, item.nesting ≤ 32 := by
    intro r hr item hitem
    obtain rfl := List.mem_singleton.mp hr
    obtain rfl := List.mem_singleton.mp hitem
    decide
  exact (page_sent_whole "s0" hnesting).1

end StreamsConsumer
