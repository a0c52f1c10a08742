import StreamsConsumer.Clients.Loops

/-!
# Conversations with the sidecar

What the sidecar says is answered alike by all five bindings: the same calls of
the processor, and one ack for each batch, right after the processor returned
from it. Only the farewell differs.
-/

namespace StreamsConsumer
open Json Sidecar

namespace Clients

/-! ## What is seen from outside -/

/-- What the sidecar makes of a value that is written to it. -/
def heard (v : Value) : Option ClientMessage := if v.depth < RECURSION_LIMIT then ClientMessage.ofValue v else none

inductive Act (R : Type) where
  | called (c : Call R) (returned : Bool)
  | sent (m : Option ClientMessage)
  | closed

section
variable {R : Type}

def Event.act : Event R → Act R
  | .called c returned => .called c returned
  | .wrote v => .sent (heard v)
  | .closed => .closed

def acts (es : List (Event R)) : List (Act R) := es.map Event.act

/-- What is done about messages other than the end. -/
def Act.isWork : Act R → Bool
  | .called _ _ => true
  | .sent m => m ≠ some .stop
  | .closed => false

variable (f : ShardId → StreamRecord → R) (p : Processor R)

/-- The answer to a message, and whether the loop goes on. -/
def replyCall (past : List (Call R)) (c : Call R) (answer : List (Act R)) : List (Act R) × Bool :=
  (.called c (p past c) :: if p past c then answer else [], p past c)

def reply (past : List (Call R)) : ServerMessage → List (Act R) × Bool
  | .records shard lastSeq rs =>
    replyCall p past (.processRecords (rs.map (f shard))) [.sent (some (.checkpoint shard lastSeq))]
  | .shardComplete shard => replyCall p past (.shardEnded (some (.str shard))) []
  | .leaseLost shard => replyCall p past (.leaseLost (some (.str shard))) []
  | .shutdownRequested shard => replyCall p past (.shutdownRequested (some (.str shard))) []
  | .shutdown _ => ([], true)

def Act.call? : Act R → Option (Call R)
  | .called c _ => some c
  | _ => none

/-- The answers to a conversation: the loop ends at a call that does not return. -/
def replies : List (Call R) → List ServerMessage → List (Act R)
  | _, [] => []
  | past, m :: ms =>
    let r := reply f p past m
    if r.2 then r.1 ++ replies (past ++ r.1.filterMap Act.call?) ms else r.1

def ServerMessage.isShutdown : ServerMessage → Bool
  | .shutdown _ => true
  | _ => false

def ServerMessage.isBatch : ServerMessage → Bool
  | .records _ _ _ => true
  | _ => false

/-- A binding that answers what the sidecar says. Once its pipe is closed, it acknowledges no batch. -/
structure Conforms (c : Client R) : Prop where
  answers : ∀ (p : Processor R) (past : List (Event R)) (m : ServerMessage),
    (isClosed past = true → ServerMessage.isBatch m = false) → ServerMessage.isShutdown m = false →
      acts (c.handle p past (ServerMessage.schema.toValue m)).events = (reply f p (calls past) m).1 ∧
        (c.handle p past (ServerMessage.schema.toValue m)).flow = if (reply f p (calls past) m).2 then .next else .raised
  late : ∀ (p : Processor R) (past : List (Event R)) (shard : ShardId) (lastSeq : SequenceNumber) (rs : List StreamRecord),
    isClosed past = true → acts (c.handle p past (ServerMessage.schema.toValue (.records shard lastSeq rs))).events =
      [.called (.processRecords (rs.map (f shard))) (p (calls past) (.processRecords (rs.map (f shard))))]
  leaves : ∀ (p : Processor R) (past : List (Event R)) (reason : String),
    (acts (c.handle p past (ServerMessage.schema.toValue (.shutdown reason))).events).filter Act.isWork = [] ∧
      (c.handle p past (ServerMessage.schema.toValue (.shutdown reason))).flow ≠ .raised
  finishes : ∀ (past : List (Event R)) (flow : Flow), (acts (c.finish past flow)).filter Act.isWork = []
  fits : ∀ line, (String.ofList line).utf8ByteSize < MAX_LINE → c.fits line = true
  reads : ∀ v : Value, v.depth ≤ MAX_DEPTH → c.reads v = true

/-! ## The five bindings conform -/

variable {p} {past : List (Event R)} {c : Call R}

theorem acts_call : acts (call p past c).events = (replyCall p (calls past) c []).1 ∧
    (call p past c).flow = if (replyCall p (calls past) c []).2 then .next else .raised := by
  unfold call replyCall
  cases p (calls past) c <;> exact ⟨rfl, rfl⟩

/-- A batch is processed, then acknowledged unless the pipe is closed. -/
def Batched (p : Processor R) (past : List (Event R)) (shard : ShardId) (lastSeq : SequenceNumber) (rs : List StreamRecord)
    (o : Outcome R) : Prop :=
  ∃ v ack, heard v = some (.checkpoint shard lastSeq) ∧ o = process p past (rs.map (f shard)) ack ∧
    (isClosed past = false → ack = send past v) ∧ (isClosed past = true → ack.events = [])

section
variable {f} {shard : ShardId} {lastSeq : SequenceNumber} {rs : List StreamRecord} {o : Outcome R}

theorem batched_send {v : Value} (hv : heard v = some (.checkpoint shard lastSeq))
    (ho : o = process p past (rs.map (f shard)) (send past v)) : Batched f p past shard lastSeq rs o :=
  ⟨v, send past v, hv, ho, fun _ => rfl, fun hc => by rw [send, if_pos hc]⟩

theorem Batched.answers (h : Batched f p past shard lastSeq rs o)
    (hc : isClosed past = true → ServerMessage.isBatch (.records shard lastSeq rs) = false) :
    acts o.events = (reply f p (calls past) (.records shard lastSeq rs)).1 ∧
      o.flow = if (reply f p (calls past) (.records shard lastSeq rs)).2 then .next else .raised := by
  obtain ⟨v, ack, hv, rfl, hack, -⟩ := h
  have hopen : isClosed past = false := by
    cases hclosed : isClosed past with
    | true => cases hc hclosed
    | false => rfl
  rw [hack hopen]
  unfold process reply replyCall
  cases hp : p (calls past) (.processRecords (rs.map (f shard))) with
  | false => simp [acts, Event.act, hp]
  | true => simp [send, hopen, acts, Event.act, hv, hp]

theorem Batched.late (h : Batched f p past shard lastSeq rs o) (hc : isClosed past = true) :
    acts o.events = [.called (.processRecords (rs.map (f shard))) (p (calls past) (.processRecords (rs.map (f shard))))] := by
  obtain ⟨v, ack, -, rfl, -, hack⟩ := h
  unfold process
  cases hp : p (calls past) (.processRecords (rs.map (f shard))) <;> simp [hack hc, acts, Event.act]

end

theorem acts_stopInternal (past : List (Event R)) : (acts (stopInternal past : Outcome R).events).filter Act.isWork = [] ∧
    (stopInternal past : Outcome R).flow = .next := by
  have hstop : heard stopMessage = some .stop := by rfl
  unfold stopInternal
  cases hc : isClosed past with
  | true => exact ⟨rfl, rfl⟩
  | false => simp [acts, Event.act, hstop, Act.isWork]

theorem heard_of_perm {m : ClientMessage} {fields : List (String × Value)} (hp : fields.Perm m.entries) :
    heard (.obj fields) = some m := by
  have hflat : Value.depthFields fields ≤ 0 := by
    refine Value.depthFields_le fun e he => ?_
    have hm := hp.mem_iff.mp he
    cases m <;> simp [ClientMessage.entries] at hm <;> aesop
  have hdepth : (Value.obj fields).depth < RECURSION_LIMIT := by
    rw [Value.depth, RECURSION_LIMIT]
    omega
  rw [heard, if_pos hdepth, ClientMessage.ofValue_of_perm hp]

variable {f} {convert : Option Value → Value → Option R}
  (hf : ∀ shard (r : StreamRecord), convert (some (.str shard)) r.toValue = some (f shard r))
include hf

theorem mapM_convert (shard : ShardId) (rs : List StreamRecord) :
    (rs.map StreamRecord.toValue).mapM (convert (some (.str shard))) = some (rs.map (f shard)) := by
  have hpure : rs.mapM (m := Option) (fun r => pure (f shard r)) = pure (rs.map (f shard)) := List.mapM_pure
  simp only [List.mapM_map, Function.comp_def, hf]
  exact hpure

theorem python_batch (shard : ShardId) (lastSeq : SequenceNumber) (rs : List StreamRecord) : Batched f p past shard lastSeq rs
    ((python convert).handle p past (ServerMessage.schema.toValue (.records shard lastSeq rs))) := by
  refine batched_send (heard_of_perm (List.Perm.refl (ClientMessage.entries (.checkpoint shard lastSeq)))) ?_
  simp [python, Python.handle, Python.handleRecords, Python.records, Python.ack, get, Serde.Schema.toValue, ServerMessage.schema,
    ServerMessage.entries, ClientMessage.entries, mapM_convert hf]

theorem python_conforms : Conforms f (python convert) where
  answers p past m hc hm := by
    cases m with
    | records shard lastSeq rs => exact (python_batch hf shard lastSeq rs).answers hc
    | shardComplete shard => exact acts_call
    | leaseLost shard => exact acts_call
    | shutdownRequested shard => exact acts_call
    | shutdown reason => cases hm
  late p past shard lastSeq rs hc := (python_batch hf shard lastSeq rs).late hc
  leaves p past reason := by
    refine ⟨rfl, ?_⟩
    show Flow.leave ≠ .raised
    decide
  finishes past _ := (acts_stopInternal past).1
  fits _ _ := rfl
  reads _ _ := rfl

omit hf in
theorem get_of_mem {k : String} {v : Value} {fields : List (String × Value)} (hn : (fields.map Prod.fst).Nodup)
    (hm : (k, v) ∈ fields) : get k fields = some v := by
  have hmem : (k, v) ∈ fields.reverse := List.mem_reverse.mpr hm
  have hsome : (fields.reverse.find? fun f => f.1 = k).isSome := List.find?_isSome.mpr ⟨_, hmem, by simp⟩
  obtain ⟨e, he⟩ := Option.isSome_iff_exists.mp hsome
  have hk : e.1 = k := by simpa using List.find?_some he
  have hv := List.inj_on_of_nodup_map hn (List.mem_reverse.mp (List.mem_of_find?_eq_some he)) hm hk
  rw [get, he, hv]
  rfl

omit hf in
theorem go_get {fields : List (String × Value)} (h : ∀ f ∈ fields, Go.foldName f.1 = f.1) (k : String) :
    Go.get k fields = get k fields := by
  have hfold : (fields.map fun f => (Go.foldName f.1, f.2)) = fields := by
    conv_rhs => rw [← List.map_id fields]
    exact List.map_congr_left fun f hf => by rw [h f hf]; rfl
  rw [Go.get, hfold]

omit hf in
theorem go_message_names (m : ServerMessage) : ∀ f ∈ m.entries, Go.foldName f.1 = f.1 := by
  have hnames : ∀ k ∈ ["type", "shard", "last_seq", "records", "reason"], Go.foldName k = k := by decide +kernel
  intro f hf
  refine hnames f.1 ?_
  cases m <;> simp [ServerMessage.entries] at hf <;> aesop

omit hf in
theorem go_handle {m : ServerMessage} {kind shard seq : String} {xs : List Value} (hk : Go.string (get "type" m.entries) = some kind)
    (hs : Go.string (get "shard" m.entries) = some shard) (hq : Go.string (get "last_seq" m.entries) = some seq)
    (hx : Go.records (get "records" m.entries) = some xs) :
    (go convert).handle p past (ServerMessage.schema.toValue m) = Go.dispatch convert p past kind shard seq xs := by
  show Go.handle convert p past (.obj m.entries) = _
  simp only [Go.handle, go_get (go_message_names m), hk, hs, hq, hx]

omit hf in
theorem go_names (r : StreamRecord) : ∀ f ∈ r.entries, Go.foldName f.1 = f.1 := by
  have hnames : ∀ k ∈ ["event_name", "sequence_number", "size_bytes", "stream_view_type", "keys", "new_image", "old_image",
      "approx_creation_time_ms"], Go.foldName k = k := by decide +kernel
  intro f hf
  refine hnames f.1 ?_
  cases ht : r.approxCreationTimeMs <;> simp [StreamRecord.entries, ht] at hf <;> aesop

omit hf in
theorem go_wireRecord (r : StreamRecord) : Go.wireRecord r.toValue = true := by
  have htext : ∀ {k a}, (k, StreamRecord.orNull .str a) ∈ r.entries → (Go.string (Go.get k r.entries)).isSome = true := by
    intro k a h
    rw [go_get (go_names r), get_of_mem r.entries_nodup h]
    cases a <;> rfl
  have hitem : ∀ {k a}, (k, StreamRecord.orNull Item.toWire a) ∈ r.entries → Go.map (Go.get k r.entries) = true := by
    intro k a h
    rw [go_get (go_names r), get_of_mem r.entries_nodup h]
    cases a <;> rfl
  have hkeys : Go.map (Go.get "keys" r.entries) = true := hitem (a := some r.keys) (by simp [StreamRecord.entries, StreamRecord.orNull])
  rw [StreamRecord.toValue, Go.wireRecord, htext (a := r.eventName) (by simp [StreamRecord.entries]),
    htext (a := r.sequenceNumber) (by simp [StreamRecord.entries]), htext (a := r.streamViewType) (by simp [StreamRecord.entries]),
    hkeys, hitem (a := r.newImage) (by simp [StreamRecord.entries]), hitem (a := r.oldImage) (by simp [StreamRecord.entries])]
  rfl

theorem go_batch (shard : ShardId) (lastSeq : SequenceNumber) (rs : List StreamRecord) : Batched f p past shard lastSeq rs
    ((go convert).handle p past (ServerMessage.schema.toValue (.records shard lastSeq rs))) := by
  have hack : heard (Go.checkpoint shard lastSeq) = some (.checkpoint shard lastSeq) :=
    heard_of_perm (List.reverse_perm (ClientMessage.entries (.checkpoint shard lastSeq)))
  have hwire : (rs.map StreamRecord.toValue).all Go.wireRecord = true := by simp [go_wireRecord]
  have hconvert : (rs.map StreamRecord.toValue).filterMap (convert (some (.str shard))) = rs.map (f shard) := by
    rw [List.filterMap_map]
    simp [hf]
  have hrecords : Go.records (get "records" (ServerMessage.records shard lastSeq rs).entries) =
      some (rs.map StreamRecord.toValue) := by simp [Go.records, get, ServerMessage.entries, hwire]
  refine batched_send hack ?_
  rw [go_handle rfl rfl rfl hrecords, Go.dispatch, hconvert]

theorem go_conforms : Conforms f (go convert) where
  answers p past m hc hm := by
    cases m with
    | records shard lastSeq rs => exact (go_batch hf shard lastSeq rs).answers hc
    | shardComplete shard =>
      rw [go_handle rfl rfl rfl rfl]
      exact acts_call
    | leaseLost shard =>
      rw [go_handle rfl rfl rfl rfl]
      exact acts_call
    | shutdownRequested shard =>
      rw [go_handle rfl rfl rfl rfl]
      exact acts_call
    | shutdown reason => cases hm
  late p past shard lastSeq rs hc := (go_batch hf shard lastSeq rs).late hc
  leaves p past reason := by
    rw [go_handle rfl rfl rfl rfl]
    refine ⟨rfl, ?_⟩
    show Flow.leave ≠ .raised
    decide
  finishes past flow := by
    simp only [go]
    split <;> rfl
  fits _ h := decide_eq_true h
  reads _ _ := rfl

theorem node_batch (shard : ShardId) (lastSeq : SequenceNumber) (rs : List StreamRecord) : Batched f p past shard lastSeq rs
    ((node convert).handle p past (ServerMessage.schema.toValue (.records shard lastSeq rs))) := by
  refine batched_send (heard_of_perm (List.Perm.refl (ClientMessage.entries (.checkpoint shard lastSeq)))) ?_
  simp [node, Node.handle, Node.handleRecords, Node.records, Node.checkpoint, get, Serde.Schema.toValue,
    ServerMessage.schema, ServerMessage.entries, ClientMessage.entries, mapM_convert hf]

theorem node_conforms : Conforms f (node convert) where
  answers p past m hc hm := by
    cases m with
    | records shard lastSeq rs => exact (node_batch hf shard lastSeq rs).answers hc
    | shardComplete shard => exact acts_call
    | leaseLost shard => exact acts_call
    | shutdownRequested shard => exact acts_call
    | shutdown reason => cases hm
  late p past shard lastSeq rs hc := (node_batch hf shard lastSeq rs).late hc
  leaves p past reason := by
    refine ⟨(acts_stopInternal past).1, ?_⟩
    show (stopInternal past : Outcome R).flow ≠ .raised
    rw [(acts_stopInternal past).2]
    decide
  finishes _ _ := rfl
  fits _ _ := rfl
  reads _ _ := rfl

theorem java_batch (shard : ShardId) (lastSeq : SequenceNumber) (rs : List StreamRecord) : Batched f p past shard lastSeq rs
    ((java convert).handle p past (ServerMessage.schema.toValue (.records shard lastSeq rs))) := by
  refine ⟨.obj (ClientMessage.entries (.checkpoint shard lastSeq)), if isClosed past then raise else send past _,
    heard_of_perm (List.Perm.refl _), ?_, fun hc => by rw [hc]; rfl, fun hc => by rw [hc]; rfl⟩
  simp [java, Java.handle, Java.handleRecords, Java.records, Java.ack, Java.asText, Java.orNull, Java.shard, get,
    Serde.Schema.toValue, ServerMessage.schema, ServerMessage.entries, ClientMessage.entries, mapM_convert hf]

theorem java_conforms : Conforms f (java convert) where
  answers p past m hc hm := by
    cases m with
    | records shard lastSeq rs => exact (java_batch hf shard lastSeq rs).answers hc
    | shardComplete shard => exact acts_call
    | leaseLost shard => exact acts_call
    | shutdownRequested shard => exact acts_call
    | shutdown reason => cases hm
  late p past shard lastSeq rs hc := (java_batch hf shard lastSeq rs).late hc
  leaves p past reason := by
    refine ⟨(acts_stopInternal past).1, ?_⟩
    show (stopInternal past : Outcome R).flow ≠ .raised
    rw [(acts_stopInternal past).2]
    decide
  finishes _ _ := rfl
  fits _ _ := rfl
  reads _ _ := rfl

theorem dotNet_batch (shard : ShardId) (lastSeq : SequenceNumber) (rs : List StreamRecord) : Batched f p past shard lastSeq rs
    ((dotNet convert).handle p past (ServerMessage.schema.toValue (.records shard lastSeq rs))) := by
  refine batched_send (heard_of_perm (List.Perm.refl (ClientMessage.entries (.checkpoint shard lastSeq)))) ?_
  simp [dotNet, DotNet.handle, DotNet.handleRecords, DotNet.property, DotNet.getString, DotNet.checkpoint, Java.records,
    Java.orNull, get, Serde.Schema.toValue, ServerMessage.schema, ServerMessage.entries, ClientMessage.entries,
    mapM_convert hf]

theorem dotNet_conforms : Conforms f (dotNet convert) where
  answers p past m hc hm := by
    cases m with
    | records shard lastSeq rs => exact (dotNet_batch hf shard lastSeq rs).answers hc
    | shardComplete shard => exact acts_call
    | leaseLost shard => exact acts_call
    | shutdownRequested shard => exact acts_call
    | shutdown reason => cases hm
  late p past shard lastSeq rs hc := (dotNet_batch hf shard lastSeq rs).late hc
  leaves p past reason := by
    refine ⟨(acts_stopInternal past).1, ?_⟩
    show (stopInternal past : Outcome R).flow ≠ .raised
    rw [(acts_stopInternal past).2]
    decide
  finishes _ _ := rfl
  fits _ _ := rfl
  reads _ h := decide_eq_true h

theorem bindings_conform {c : Client R} (hc : c ∈ bindings convert) : Conforms f c := by
  simp only [bindings, List.mem_cons, List.not_mem_nil, or_false] at hc
  rcases hc with rfl | rfl | rfl | rfl | rfl
  · exact python_conforms hf
  · exact go_conforms hf
  · exact node_conforms hf
  · exact java_conforms hf
  · exact dotNet_conforms hf

end

/-! ## Conversations -/

section
variable {R : Type} {f : ShardId → StreamRecord → R} {c : Client R} {p : Processor R}

def ShutdownLast : List ServerMessage → Prop
  | [] => True
  | m :: ms => (ServerMessage.isShutdown m = true → ms = []) ∧ ShutdownLast ms

theorem ShutdownLast.front : ∀ {done ms : List ServerMessage}, ShutdownLast ms → done <+: ms → ShutdownLast done
  | [], _, _, _ => trivial
  | m :: done, [], _, h => by simp at h
  | m :: done, m' :: ms, hlast, h => by
    obtain ⟨rfl, htail⟩ := List.cons_prefix_cons.mp h
    refine ⟨fun hm => ?_, hlast.2.front htail⟩
    rw [hlast.1 hm] at htail
    exact List.prefix_nil.mp htail

theorem calls_acts (es : List (Event R)) : (acts es).filterMap Act.call? = calls es := by
  rw [acts, List.filterMap_map, calls]
  apply List.filterMap_congr
  intro e _
  cases e <;> rfl

theorem reply_work (past : List (Call R)) (m : ServerMessage) : ∀ a ∈ (reply f p past m).1, a.isWork = true := by
  intro a ha
  cases m <;> simp only [reply, replyCall] at ha
  case records shard lastSeq rs =>
    split at ha <;> simp at ha
    · rcases ha with rfl | rfl <;> rfl
    · rw [ha]
      rfl
  case shutdown => simp at ha
  all_goals
    split at ha <;> simp at ha
    all_goals
      rw [ha]
      rfl

theorem acts_append (es es' : List (Event R)) : acts (es ++ es') = acts es ++ acts es' := List.map_append

theorem work_append (es es' : List (Event R)) :
    (acts (es ++ es')).filter Act.isWork = (acts es).filter Act.isWork ++ (acts es').filter Act.isWork := by
  rw [acts_append, List.filter_append]

theorem isClosed_of_work {es : List (Event R)} (h : ∀ a ∈ acts es, a.isWork = true) : isClosed es = false := by
  rw [isClosed, List.any_eq_false]
  intro e he
  have hwork := h e.act (List.mem_map_of_mem he)
  cases e with
  | closed => cases hwork
  | _ => exact Bool.false_ne_true

theorem Conforms.follow (hc : Conforms f c) : ∀ {ms : List ServerMessage} {past : List (Event R)}, ShutdownLast ms →
    isClosed past = false → (acts (c.follow p past (ms.map ServerMessage.schema.toValue))).filter Act.isWork =
      (acts past).filter Act.isWork ++ replies f p (calls past) ms
  | [], past, _, _ => by
    rw [List.map_nil, Client.follow, work_append, hc.finishes, replies]
  | m :: ms, past, hlast, hopen => by
    cases hm : ServerMessage.isShutdown m with
    | true =>
      obtain rfl : ms = [] := hlast.1 hm
      cases m with
      | shutdown reason =>
        obtain ⟨hwork, hflow⟩ := hc.leaves p past reason
        have hnone : replies f p (calls past) [.shutdown reason] = [] := rfl
        simp only [List.map_cons, List.map_nil, Client.follow, hnone]
        split
        · rw [work_append, work_append, hwork, hc.finishes, List.append_nil]
        · rw [work_append, work_append, hwork, hc.finishes, List.append_nil]
      | _ => cases hm
    | false =>
      obtain ⟨hacts, hflow⟩ := hc.answers p past m (fun hclosed => by simp [hopen] at hclosed) hm
      have hwork : ∀ a ∈ acts (c.handle p past (ServerMessage.schema.toValue m)).events, a.isWork = true := by
        rw [hacts]
        exact reply_work (calls past) m
      have hkeep := List.filter_eq_self.mpr hwork
      simp only [List.map_cons, Client.follow, replies]
      split
      · rename_i hnext
        have hgo : (reply f p (calls past) m).2 = true := by
          by_contra hstop
          rw [hnext, if_neg hstop] at hflow
          cases hflow
        have hopen' : isClosed (past ++ (c.handle p past (ServerMessage.schema.toValue m)).events) = false := by
          rw [isClosed, List.any_append, ← isClosed, ← isClosed, hopen, isClosed_of_work hwork]
          rfl
        have hcalls : calls (past ++ (c.handle p past (ServerMessage.schema.toValue m)).events) =
            calls past ++ (reply f p (calls past) m).1.filterMap Act.call? := by
          rw [← hacts, calls_acts, calls, List.filterMap_append]
          rfl
        rw [hc.follow hlast.2 hopen', work_append, hkeep, hcalls, hacts, if_pos hgo, List.append_assoc]
      · rename_i hne
        have hstop : ¬ (reply f p (calls past) m).2 = true := by
          intro hgo
          rw [if_pos hgo] at hflow
          exact hne hflow
        rw [work_append, work_append, hkeep, hc.finishes, hacts, if_neg hstop, List.append_nil]

/-- A message that the binding takes in: no line break stands inside that JSON leaves unescaped, and it keeps to the limits
of every binding. -/
structure Client.Takes (c : Client R) (m : ServerMessage) : Prop where
  line : ∀ b ∈ ServerMessage.schema.toJson m, 32 ≤ b.toNat → c.brk b = false
  size : (String.ofList (ServerMessage.schema.toJson m)).utf8ByteSize < MAX_LINE
  depth : (ServerMessage.schema.toValue m).depth ≤ MAX_DEPTH

theorem Client.Takes.unbroken {m : ServerMessage} (hm : c.Takes m) : ∀ b ∈ ServerMessage.schema.toJson m, c.brk b = false :=
  fun b hb => hm.line b hb (Value.printable_write _ b hb)

theorem read_toJson (m : ServerMessage) : Value.read (ServerMessage.schema.toJson m) = some (ServerMessage.schema.toValue m) := by
  have hread := (Value.write_of (ServerMessage.schema.toValue m)).read blanks_nil blanks_nil
  rwa [List.nil_append, List.append_nil] at hread

theorem read_front {m : ServerMessage} {t : List Char} (ht : t <+: ServerMessage.schema.toJson m)
    (hne : t ≠ ServerMessage.schema.toJson m) : Value.read t = none :=
  Value.read_cut (Value.write_of (.obj (ServerMessage.schema.entries m))) ht hne

theorem Conforms.read (hc : Conforms f c) {m : ServerMessage} (hm : c.Takes m) :
    (Value.read (ServerMessage.schema.toJson m)).filter c.reads = some (ServerMessage.schema.toValue m) := by
  rw [read_toJson, Option.filter_some_eq_some.mpr (hc.reads _ hm.depth)]

theorem flatMap_toLine (ms : List ServerMessage) :
    ms.flatMap ServerMessage.schema.toLine = (ms.map ServerMessage.schema.toJson).flatMap frame := by
  rw [List.flatMap_map]
  rfl

theorem values_lines (hc : Conforms f c) (hb : c.brk '\n' = true) {ms : List ServerMessage} (hms : ∀ m ∈ ms, c.Takes m)
    {tail : List Char} (htail : ∀ b ∈ tail, c.brk b = false) :
    c.values (ms.flatMap ServerMessage.schema.toLine ++ tail) = ms.map ServerMessage.schema.toValue ++
      ((if tail = [] then [] else [tail]).takeWhile c.fits).filterMap fun line => (Value.read line).filter c.reads := by
  have hplain : ∀ t ∈ ms.map ServerMessage.schema.toJson, ∀ b ∈ t, c.brk b = false := by
    simpa using fun m hm => (hms m hm).unbroken
  have hfits : ∀ t ∈ ms.map ServerMessage.schema.toJson, c.fits t = true := by
    simpa using fun m hm => hc.fits _ (hms m hm).size
  rw [Client.values, flatMap_toLine, lines_frames hb htail hplain, List.takeWhile_append_of_pos hfits, List.filterMap_append,
    List.filterMap_map]
  refine congrArg (· ++ _) ?_
  rw [← List.filterMap_eq_map]
  exact List.filterMap_congr fun m hm => hc.read (hms m hm)

theorem values_front (hc : Conforms f c) (hb : c.brk '\n' = true) {ms : List ServerMessage} (hms : ∀ m ∈ ms, c.Takes m)
    {stream : List Char} (hs : stream <+: ms.flatMap ServerMessage.schema.toLine) :
    ∃ done, done <+: ms ∧ c.values stream = done.map ServerMessage.schema.toValue := by
  rw [flatMap_toLine] at hs
  obtain ⟨front, rest, tail, hms', rfl, htail⟩ := prefix_frames hs
  obtain ⟨done, later, rfl, rfl, rfl⟩ := List.map_eq_append_iff.mp hms'
  have hdone : ∀ m ∈ done, c.Takes m := fun m hm => hms m (List.mem_append_left _ hm)
  rw [← flatMap_toLine]
  have hnil : ∀ b ∈ ([] : List Char), c.brk b = false := by simp
  rcases htail with rfl | ⟨t, after, hrest, ht⟩
  · exact ⟨done, List.prefix_append _ _, by simpa using values_lines hc hb hdone hnil⟩
  · obtain ⟨m, later, rfl, rfl, rfl⟩ := List.map_eq_cons_iff.mp hrest
    have hm : c.Takes m := hms m (by simp)
    rw [values_lines hc hb hdone fun b hbt => hm.unbroken b (ht.subset hbt)]
    by_cases hempty : tail = []
    · exact ⟨done, List.prefix_append _ _, by simp [hempty]⟩
    · rw [if_neg hempty]
      by_cases hwhole : tail = ServerMessage.schema.toJson m
      · have hread := hc.read hm
        have hfits := hc.fits _ hm.size
        exact ⟨done ++ [m], by simp, by simp [hwhole, hfits, hread]⟩
      · have hlost : ([tail].takeWhile c.fits).filterMap (fun line => (Value.read line).filter c.reads) = [] := by
          rw [List.filterMap_eq_nil_iff]
          intro l hl
          rw [List.mem_singleton.mp ((List.takeWhile_sublist _).subset hl), read_front ht hwhole]
          rfl
        exact ⟨done, List.prefix_append _ _, by rw [hlost, List.append_nil]⟩

/-- What a binding does about the output of the sidecar, wherever that ends: it greets, and answers the messages of a front
of it, all of them if the output is whole. -/
theorem Conforms.run (hc : Conforms f c) (hb : c.brk '\n' = true) {ms : List ServerMessage} (hlast : ShutdownLast ms)
    (hms : ∀ m ∈ ms, c.Takes m) {stream : List Char} (hs : stream <+: ms.flatMap ServerMessage.schema.toLine) :
    ∃ done, done <+: ms ∧ (stream = ms.flatMap ServerMessage.schema.toLine → done = ms) ∧
      (acts (c.run p stream)).filter Act.isWork = .sent (some .ready) :: replies f p [] done := by
  have hready : heard readyMessage = some .ready := heard_of_perm (List.Perm.refl _)
  have hgreet : (acts [(.wrote readyMessage : Event R)]).filter Act.isWork = [.sent (some .ready)] := by
    simp [acts, Event.act, hready, Act.isWork]
  obtain ⟨done, hdone, hvalues⟩ := values_front hc hb hms hs
  have hfollow : (acts (c.follow p [.wrote readyMessage] (done.map ServerMessage.schema.toValue))).filter Act.isWork =
      (acts [.wrote readyMessage]).filter Act.isWork ++ replies f p [] done := hc.follow (hlast.front hdone) rfl
  rw [hgreet, ← hvalues] at hfollow
  refine ⟨done, hdone, fun hall => ?_, hfollow⟩
  have hnil : ∀ b ∈ ([] : List Char), c.brk b = false := by simp
  have hwhole := values_lines hc hb hms hnil
  rw [List.append_nil, ← hall, hvalues] at hwhole
  have hlen : done.length = ms.length := by simpa using congrArg List.length hwhole
  exact hdone.eq_of_length hlen

end

def farewell : List ServerMessage := [.records "s" "2" [], .shutdown "stop"]

section
variable {R : Type}

/-- The text of a field, as the most lenient of the bindings reads it. -/
def fieldText (v : Option Value) : String := (Java.asText (some "") v).getD ""

/-- The message hands over these records of the shard, up to the sequence number. -/
def HandsOver (c : Client R) (convert : Option Value → Value → Option R) (v : Value) (shard : ShardId)
    (seq : SequenceNumber) (rs : List R) : Prop :=
  ∃ fields, v = .obj fields ∧ fieldText (c.get "type" fields) = "records" ∧ fieldText (c.get "shard" fields) = shard ∧
    fieldText (c.get "last_seq" fields) = seq ∧ rs = (Java.records (c.get "records" fields)).filterMap (convert (some (.str shard)))

/-- An ack comes right after the first call, which handed over its batch. -/
def AcksOf (B : ShardId → SequenceNumber → List R → Prop) (es : List (Event R)) : Prop :=
  ∀ before w after shard seq, es = before ++ .wrote w :: after → heard w = some (.checkpoint shard seq) →
    ∃ rs, before = [.called (.processRecords rs) true] ∧ B shard seq rs

variable {B : ShardId → SequenceNumber → List R → Prop} {convert : Option Value → Value → Option R} {p : Processor R}
  {past : List (Event R)} {shard : ShardId} {seq : SequenceNumber}

theorem acksOf_of_none {es : List (Event R)} (h : ∀ w, .wrote w ∈ es → ∀ shard seq, heard w ≠ some (.checkpoint shard seq)) :
    AcksOf B es := by
  rintro before w after shard seq rfl hw
  exact absurd hw (h w (by simp) shard seq)

theorem acksOf_nothing : AcksOf B (nothing : Outcome R).events := acksOf_of_none (by simp [nothing])

theorem acksOf_raise : AcksOf B (raise : Outcome R).events := acksOf_of_none (by simp [raise])

theorem acksOf_call (c : Call R) : AcksOf B (call p past c).events := acksOf_of_none (by simp [call])

theorem stopInternal_quiet {w : Value} (hw : .wrote w ∈ (stopInternal past : Outcome R).events) (shard : ShardId)
    (seq : SequenceNumber) : heard w ≠ some (.checkpoint shard seq) := by
  have hstop : heard stopMessage = some .stop := rfl
  unfold stopInternal at hw
  split at hw
  · cases hw
  · obtain rfl : w = stopMessage := by simpa using hw
    simp [hstop]

theorem acksOf_stopInternal : AcksOf B (stopInternal past : Outcome R).events := acksOf_of_none fun _ => stopInternal_quiet

theorem acksOf_process {ack : Outcome R} {rs : List R}
    (h : ∀ before w after, ack.events = before ++ .wrote w :: after → before = [] ∧
      ∀ shard seq, heard w = some (.checkpoint shard seq) → B shard seq rs) :
    AcksOf B (process p past rs ack).events := by
  unfold process
  split
  · intro before w after shard seq heq hw
    obtain ⟨e, before, rfl⟩ := List.exists_cons_of_ne_nil (l := before) (by rintro rfl; cases heq)
    obtain ⟨rfl, htail⟩ := List.cons.inj heq
    obtain ⟨rfl, hB⟩ := h before w after htail
    exact ⟨rs, rfl, hB shard seq hw⟩
  · exact acksOf_of_none (by simp)

theorem acksOf_batch {v : Value} {rs : List R} (h : ∀ shard seq, heard v = some (.checkpoint shard seq) → B shard seq rs) :
    AcksOf B (process p past rs (send past v)).events := by
  refine acksOf_process fun before w after heq => ?_
  unfold send at heq
  split at heq
  · simp at heq
  · cases before with
    | nil =>
      obtain rfl : v = w := by simpa using (List.cons.inj heq).1
      exact ⟨rfl, h⟩
    | cons e before => simp at heq

theorem mem_of_required {k t : String} {fields : List (String × Value)}
    (h : Serde.required Serde.text k fields = some t) : (k, .str t) ∈ fields := by
  unfold Serde.required Serde.field at h
  split at h
  · cases h
  · rename_i e he
    have hmem : e ∈ fields.filter fun f => f.1 = k := by simp [he]
    obtain ⟨hm, hk⟩ := List.mem_filter.mp hmem
    obtain ⟨k', v⟩ := e
    cases v <;> simp [Serde.text] at h
    simp at hk
    rwa [← h, ← hk]
  · cases h

theorem mem_of_heard {fields : List (String × Value)} (h : heard (.obj fields) = some (.checkpoint shard seq)) :
    ("shard", .str shard) ∈ fields ∧ ("seq", .str seq) ∈ fields := by
  obtain ⟨-, h⟩ := Option.ite_none_right_eq_some.mp h
  simp only [ClientMessage.ofValue, Option.bind_eq_bind, Option.bind_eq_some_iff] at h
  obtain ⟨kind, -, h⟩ := h
  split at h
  · cases h
  · simp only [Option.bind_eq_some_iff, Option.pure_def, Option.some.injEq, ClientMessage.checkpoint.injEq] at h
    obtain ⟨_, hshard, _, hseq, rfl, rfl⟩ := h
    exact ⟨mem_of_required hshard, mem_of_required hseq⟩
  · cases h
  · cases h

theorem filterMap_of_mapM {α β : Type} {g : α → Option β} : ∀ {xs : List α} {ys : List β}, xs.mapM g = some ys →
    xs.filterMap g = ys
  | [], ys, h => by simpa using h
  | x :: xs, ys, h => by
    simp only [List.mapM_cons, Option.bind_eq_bind, Option.bind_eq_some_iff, Option.pure_def, Option.some.injEq] at h
    obtain ⟨y, hy, ys, hys, rfl⟩ := h
    rw [List.filterMap_cons_some hy, filterMap_of_mapM hys]

theorem python_records {v : Option Value} {xs : List Value} (h : Python.records (v.getD (.arr [])) = some xs) :
    Java.records v = xs := by
  cases v with
  | none => exact Option.some.inj h
  | some v =>
    unfold Python.records at h
    split at h
    · rename_i hv
      obtain rfl : v = _ := hv
      exact Option.some.inj h
    · rename_i hv
      obtain rfl : v = _ := hv
      exact Option.some.inj h
    · rename_i hv
      obtain rfl : v = _ := hv
      exact Option.some.inj h
    · cases h

theorem python_acks (v : Value) : AcksOf (HandsOver (python convert) convert v) (Python.handle convert p past v).events := by
  have hhook : ∀ c fields, AcksOf (HandsOver (python convert) convert v) (Python.hook p past c fields).events := by
    intro c fields
    unfold Python.hook
    split
    · exact acksOf_raise
    · exact acksOf_call _
  have hrecords : ∀ fields, v = .obj fields → get "type" fields = some (.str "records") →
      AcksOf (HandsOver (python convert) convert v) (Python.handleRecords convert p past fields).events := by
    intro fields hv htype
    unfold Python.handleRecords
    split
    · exact acksOf_raise
    rename_i shard hshard
    split
    · exact acksOf_raise
    rename_i rs hrs
    obtain ⟨xs, hxs, hmap⟩ := Option.bind_eq_some_iff.mp hrs
    unfold Python.ack
    split
    · exact acksOf_process (by simp [raise])
    rename_i seq hseq
    refine acksOf_batch fun s q hheard => ?_
    obtain ⟨hs, hq⟩ := mem_of_heard hheard
    obtain rfl : Value.str s = shard := by simpa using hs
    obtain rfl : Value.str q = seq := by simpa using hq
    refine ⟨fields, hv, ?_, ?_, ?_, ?_⟩
    · exact congrArg fieldText htype
    · exact congrArg fieldText hshard
    · exact congrArg fieldText hseq
    · rw [← filterMap_of_mapM hmap, ← python_records hxs]
      rfl
  unfold Python.handle
  split
  · rename_i fields
    split
    · rename_i kind hkind
      split
      · exact hrecords fields rfl hkind
      · exact hhook _ _
      · exact hhook _ _
      · exact hhook _ _
      · exact acksOf_nothing
      · exact acksOf_nothing
    · exact acksOf_nothing
  · exact acksOf_raise

theorem go_text {v : Option Value} {t : String} (h : Go.string v = some t) : fieldText v = t := by
  unfold Go.string at h
  split at h
  · exact Option.some.inj h
  · exact Option.some.inj h
  · exact Option.some.inj h
  · cases h

theorem go_records {v : Option Value} {xs : List Value} (h : Go.records v = some xs) : Java.records v = xs := by
  unfold Go.records at h
  split at h
  · exact Option.some.inj h
  · exact Option.some.inj h
  · split at h
    · exact Option.some.inj h
    · cases h
  · cases h

theorem go_acks (v : Value) : AcksOf (HandsOver (go convert) convert v) (Go.handle convert p past v).events := by
  have hrecords : ∀ fields shard seq xs, v = .obj fields → Go.string (Go.get "type" fields) = some "records" →
      Go.string (Go.get "shard" fields) = some shard → Go.string (Go.get "last_seq" fields) = some seq →
      Go.records (Go.get "records" fields) = some xs → AcksOf (HandsOver (go convert) convert v)
        (process p past (xs.filterMap (convert (some (.str shard)))) (send past (Go.checkpoint shard seq))).events := by
    intro fields shard seq xs hv htype hshard hseq hxs
    refine acksOf_batch fun s q hheard => ?_
    obtain ⟨hs, hq⟩ := mem_of_heard hheard
    obtain rfl : s = shard := by simpa using hs
    obtain rfl : q = seq := by simpa using hq
    exact ⟨fields, hv, go_text htype, go_text hshard, go_text hseq, by rw [← go_records hxs]; rfl⟩
  unfold Go.handle
  split
  · rename_i fields
    split
    · rename_i kind shard seq xs hkind hshard hseq hxs
      unfold Go.dispatch
      split
      · exact hrecords fields shard seq xs rfl hkind hshard hseq hxs
      · exact acksOf_call _
      · exact acksOf_call _
      · exact acksOf_call _
      · exact acksOf_nothing
      · exact acksOf_nothing
    · exact acksOf_nothing
  · exact acksOf_nothing

theorem node_records {v : Option Value} {xs : List Value} (h : Node.records v = some xs) : Java.records v = xs := by
  unfold Node.records at h
  split at h
  · exact Option.some.inj h
  · exact Option.some.inj h
  · exact Option.some.inj h
  · cases h

theorem node_acks (v : Value) : AcksOf (HandsOver (node convert) convert v) (Node.handle convert p past v).events := by
  have hrecords : ∀ fields, v = .obj fields → get "type" fields = some (.str "records") →
      AcksOf (HandsOver (node convert) convert v) (Node.handleRecords convert p past fields).events := by
    intro fields hv htype
    unfold Node.handleRecords
    split
    · exact acksOf_raise
    rename_i rs hrs
    obtain ⟨xs, hxs, hmap⟩ := Option.bind_eq_some_iff.mp hrs
    refine acksOf_batch fun s q hheard => ?_
    obtain ⟨hs, hq⟩ := mem_of_heard hheard
    have hshard : get "shard" fields = some (.str s) := by simpa using hs
    have hseq : get "last_seq" fields = some (.str q) := by simpa using hq
    refine ⟨fields, hv, ?_, ?_, ?_, ?_⟩
    · exact congrArg fieldText htype
    · exact congrArg fieldText hshard
    · exact congrArg fieldText hseq
    · rw [← filterMap_of_mapM hmap, ← node_records hxs, hshard]
      rfl
  unfold Node.handle
  split
  · rename_i fields
    split
    · rename_i kind hkind
      split
      · exact hrecords fields rfl hkind
      · exact acksOf_call _
      · exact acksOf_call _
      · exact acksOf_call _
      · exact acksOf_stopInternal
      · exact acksOf_nothing
    · exact acksOf_nothing
  · exact acksOf_raise
  · exact acksOf_nothing

theorem java_text {d : Option String} {v : Option Value} {t : String} (hd : d = none ∨ d = some "")
    (h : Java.asText d v = some t) : fieldText v = t := by
  have hdefault : d = some t → "" = t := by
    rintro rfl
    rcases hd with hd | hd <;> cases hd
    rfl
  cases v with
  | none => exact hdefault h
  | some v =>
    cases v with
    | null => exact hdefault h
    | _ => exact Option.some.inj h

theorem eq_of_orNull {t : Option String} {u : String} (h : .str u = Java.orNull t) : t = some u := by
  cases t with
  | none => cases h
  | some t => exact congrArg some (Value.str.inj h).symm

theorem java_acks (v : Value) : AcksOf (HandsOver (java convert) convert v) (Java.handle convert p past v).events := by
  have hrecords : ∀ fields, v = .obj fields → Java.asText none (get "type" fields) = some "records" →
      AcksOf (HandsOver (java convert) convert v) (Java.handleRecords convert p past fields).events := by
    intro fields hv htype
    unfold Java.handleRecords
    split
    · exact acksOf_raise
    rename_i rs hmap
    unfold Java.ack
    split
    · exact acksOf_process (by simp [raise])
    refine acksOf_batch fun s q hheard => ?_
    obtain ⟨hs, hq⟩ := mem_of_heard hheard
    have hshard : Java.asText (some "") (get "shard" fields) = some s := eq_of_orNull (by simpa using hs)
    have hseq : Java.asText none (get "last_seq" fields) = some q := eq_of_orNull (by simpa using hq)
    refine ⟨fields, hv, ?_, ?_, ?_, ?_⟩
    · exact java_text (.inl rfl) htype
    · exact java_text (.inr rfl) hshard
    · exact java_text (.inl rfl) hseq
    · rw [← filterMap_of_mapM hmap, Java.shard, hshard]
      rfl
  unfold Java.handle
  split
  · rename_i fields
    split
    · rename_i kind hkind
      split
      · exact hrecords fields rfl hkind
      · exact acksOf_call _
      · exact acksOf_call _
      · exact acksOf_call _
      · exact acksOf_stopInternal
      · exact acksOf_nothing
    · exact acksOf_nothing
  · exact acksOf_nothing

theorem dotNet_text {k : String} {fields : List (String × Value)} {t : Option String}
    (h : DotNet.property k fields = some t) : fieldText (get k fields) = t.getD "" := by
  unfold DotNet.property at h
  split at h
  · rename_i hnone
    rw [hnone, ← Option.some.inj h]
    rfl
  · rename_i v hv
    rw [hv]
    unfold DotNet.getString at h
    split at h
    · rw [← Option.some.inj h]
      rfl
    · rw [← Option.some.inj h]
      rfl
    · cases h

theorem dotNet_acks (v : Value) : AcksOf (HandsOver (dotNet convert) convert v) (DotNet.handle convert p past v).events := by
  have hrecords : ∀ fields, v = .obj fields → get "type" fields = some (.str "records") →
      AcksOf (HandsOver (dotNet convert) convert v) (DotNet.handleRecords convert p past fields).events := by
    intro fields hv htype
    unfold DotNet.handleRecords
    split
    · rename_i shard seq hshard hseq
      split
      · exact acksOf_raise
      rename_i rs hmap
      refine acksOf_batch fun s q hheard => ?_
      obtain ⟨hs, hq⟩ := mem_of_heard hheard
      obtain rfl : s = shard.getD "" := by simpa using hs
      obtain rfl : seq = some q := eq_of_orNull (by simpa using hq)
      refine ⟨fields, hv, ?_, dotNet_text hshard, dotNet_text hseq, ?_⟩
      · exact congrArg fieldText htype
      · rw [← filterMap_of_mapM hmap]
        rfl
    · exact acksOf_raise
  have hhook : ∀ c fields, AcksOf (HandsOver (dotNet convert) convert v) (DotNet.hook p past c fields).events := by
    intro c fields
    unfold DotNet.hook
    split
    · exact acksOf_nothing
    · split
      · exact acksOf_raise
      · exact acksOf_call _
  unfold DotNet.handle
  split
  · rename_i fields
    split
    · exact acksOf_nothing
    rename_i t ht
    split
    · exact acksOf_raise
    · exact acksOf_nothing
    · rename_i kind hkind
      have htype : get "type" fields = some (.str kind) := by
        rw [ht]
        unfold DotNet.getString at hkind
        split at hkind
        · rw [Option.some.inj (Option.some.inj hkind)]
        · cases hkind
        · cases hkind
      split
      · exact hrecords fields rfl htype
      · exact hhook _ _
      · exact hhook _ _
      · exact hhook _ _
      · exact acksOf_stopInternal
      · exact acksOf_nothing
  · exact acksOf_nothing

theorem bindings_acks {c : Client R} (hc : c ∈ bindings convert) :
    (∀ p past v, AcksOf (HandsOver c convert v) (c.handle p past v).events) ∧
      ∀ past flow w, .wrote w ∈ c.finish past flow → ∀ shard seq, heard w ≠ some (.checkpoint shard seq) := by
  simp only [bindings, List.mem_cons, List.not_mem_nil, or_false] at hc
  rcases hc with rfl | rfl | rfl | rfl | rfl
  · exact ⟨fun _ _ => python_acks, fun past flow w hw => stopInternal_quiet hw⟩
  · refine ⟨fun _ _ => go_acks, fun past flow w hw => ?_⟩
    simp only [go] at hw
    split at hw <;> simp at hw
  · exact ⟨fun _ _ => node_acks, fun _ _ _ hw => nomatch hw⟩
  · exact ⟨fun _ _ => java_acks, fun _ _ _ hw => nomatch hw⟩
  · exact ⟨fun _ _ => dotNet_acks, fun _ _ _ hw => nomatch hw⟩

theorem append_eq_middle {α : Type} {as bs before after : List α} {x : α} (h : as ++ bs = before ++ x :: after) :
    (∃ after', as = before ++ x :: after') ∨ ∃ front, before = as ++ front ∧ bs = front ++ x :: after := by
  rcases List.append_eq_append_iff.mp h with ⟨front, hbefore, hbs⟩ | ⟨l, has, hl⟩
  · exact .inr ⟨front, hbefore, hbs⟩
  · cases l with
    | nil => exact .inr ⟨[], by simpa using has.symm, by simpa using hl.symm⟩
    | cons y l =>
      obtain ⟨rfl, -⟩ := List.cons.inj hl
      exact .inl ⟨l, has⟩

def AckAmong (c : Client R) (convert : Option Value → Value → Option R) (p : Processor R) (past : List (Event R))
    (vs : List Value) (shard : ShardId) (seq : SequenceNumber) (before : List (Event R)) : Prop :=
  ∃ done v rest rs, vs = done ++ v :: rest ∧ before = c.after p past done ++ [.called (.processRecords rs) true] ∧
    HandsOver c convert v shard seq rs

theorem follow_acks {c : Client R} (hc : c ∈ bindings convert) {before after : List (Event R)} {w : Value}
    (hw : heard w = some (.checkpoint shard seq)) : ∀ (vs : List Value) (past : List (Event R)),
    c.follow p past vs = before ++ .wrote w :: after →
      (∃ after', past = before ++ .wrote w :: after') ∨ AckAmong c convert p past vs shard seq before
  | [], past, h => by
    rcases append_eq_middle h with hpast | ⟨front, -, hfinish⟩
    · exact .inl hpast
    · exact absurd hw ((bindings_acks hc).2 past .next w (by simp [hfinish]) shard seq)
  | v :: vs, past, h => by
    -- an ack up to the end of this message is there before it, or the message's own
    have hstep : ∀ {after'}, past ++ (c.handle p past v).events = before ++ .wrote w :: after' →
        (∃ after', past = before ++ .wrote w :: after') ∨ AckAmong c convert p past (v :: vs) shard seq before := by
      intro after' heq
      rcases append_eq_middle heq with hpast | ⟨front, hbefore, hevents⟩
      · exact .inl hpast
      · obtain ⟨rs, rfl, hover⟩ := (bindings_acks hc).1 p past v front w after' shard seq hevents hw
        exact .inr ⟨[], v, vs, rs, rfl, hbefore, hover⟩
    simp only [Client.follow] at h
    split at h
    · rcases follow_acks hc hw vs _ h with ⟨after', heq⟩ | ⟨done, v', rest, rs, rfl, hbefore, hover⟩
      · exact hstep heq
      · exact .inr ⟨v :: done, v', rest, rs, rfl, hbefore, hover⟩
    · rcases append_eq_middle h with ⟨after', heq⟩ | ⟨front, -, hfinish⟩
      · exact hstep heq
      · have hmem : Event.wrote w ∈ front ++ .wrote w :: after := by simp
        rw [← hfinish] at hmem
        exact absurd hw ((bindings_acks hc).2 _ _ w hmem shard seq)

/-- Whatever JSON a binding reads and however records are converted: an ack comes right after the processor returned from the
batch of the message just read, and carries the shard and the sequence number of that message. -/
theorem acks_follow_processing {c : Client R} (hc : c ∈ bindings convert) (p : Processor R) (vs : List Value)
    {before after : List (Event R)} {w : Value} {shard : ShardId} {seq : SequenceNumber}
    (h : c.follow p [.wrote readyMessage] vs = before ++ .wrote w :: after) (hw : heard w = some (.checkpoint shard seq)) :
    ∃ done v rest rs, vs = done ++ v :: rest ∧
      before = c.after p [.wrote readyMessage] done ++ [.called (.processRecords rs) true] ∧
      HandsOver c convert v shard seq rs := by
  rcases follow_acks hc hw vs _ h with ⟨after', hready⟩ | hamong
  · cases before with
    | nil =>
      obtain rfl : readyMessage = w := by simpa using (List.cons.inj hready).1
      cases hw
    | cons e before => simp at hready
  · exact hamong

theorem acks_follow_processing_python : ∃ done v rest rs, farewell.map ServerMessage.schema.toValue = done ++ v :: rest ∧
    [.wrote readyMessage, .called (.processRecords []) true] =
      (python fun _ v => some v).after (fun _ _ => true) [.wrote readyMessage] done ++ [.called (.processRecords rs) true] ∧
    HandsOver (python fun _ v => some v) (fun _ v => some v) v "s" "2" rs :=
  have hbinding : (python fun _ v => some v) ∈ bindings fun (_ : Option Value) (v : Value) => some v :=
    List.mem_cons_self
  have hrun : (python fun _ v => some v).follow (fun _ _ => true) [.wrote readyMessage]
      (farewell.map ServerMessage.schema.toValue) = [.wrote readyMessage, .called (.processRecords []) true] ++
        .wrote (.obj (ClientMessage.entries (.checkpoint "s" "2"))) :: [.wrote stopMessage, .closed] := rfl
  acks_follow_processing hbinding _ _ hrun rfl

end

end Clients

end StreamsConsumer
