import StreamsConsumer.Clients.Conversation
import StreamsConsumer.Sidecar.Acks

/-!
# Sessions

The tasks of the sidecar at one end of two pipes, a binding at the other. Its
user may stop it at any time, also while it handles a message. A line that it
does not take in (it is too long or nests too deep, or a line break stands
inside) is skipped or ends its loop, and it may go away at any time, with the end
of what it wrote. Every delivery that returns an ack was processed.
-/

namespace StreamsConsumer
open Conc Json Sidecar

namespace Clients

/-- The second list is the first one with copies of `x` put in. -/
inductive Amid {α : Type} (x : α) : List α → List α → Prop where
  | nil : Amid x [] []
  | keep {a : α} {as bs : List α} (h : Amid x as bs) : Amid x (a :: as) (a :: bs)
  | put {as bs : List α} (h : Amid x as bs) : Amid x as (x :: bs)

namespace Amid
variable {α β : Type} {x a : α} {as bs : List α}

theorem refl : ∀ as : List α, Amid x as as
  | [] => .nil
  | _ :: as => .keep (refl as)

theorem map (g : α → β) (h : Amid x as bs) : Amid (g x) (as.map g) (bs.map g) := by
  induction h with
  | nil => exact .nil
  | keep _ ih => exact .keep ih
  | put _ ih => exact .put ih

theorem mem (h : Amid x as bs) (ha : a ∈ bs) : a = x ∨ a ∈ as := by
  induction h with
  | nil => cases ha
  | keep _ ih =>
    rcases List.mem_cons.mp ha with rfl | ha
    · exact .inr List.mem_cons_self
    · exact (ih ha).imp_right (List.mem_cons_of_mem _)
  | put _ ih =>
    rcases List.mem_cons.mp ha with rfl | ha
    · exact .inl rfl
    · exact ih ha

theorem of_cons (h : Amid x (a :: as) bs) : ∃ n rest, bs = List.replicate n x ++ a :: rest ∧ Amid x as rest := by
  generalize hl : a :: as = l at h
  induction h with
  | nil => cases hl
  | keep h _ =>
    cases hl
    exact ⟨0, _, rfl, h⟩
  | put _ ih =>
    obtain ⟨n, rest, rfl, h⟩ := ih hl
    exact ⟨n + 1, rest, rfl, h⟩

end Amid

section
variable {R : Type}

/-- The lines that the reader of the sidecar makes of what a binding does. -/
def Act.lines : Act R → List Line
  | .called _ _ => []
  | .sent (some m) => [.message m]
  | .sent none => [.malformed]
  | .closed => [.eof]

def written (es : List (Event R)) : List Line := (acts es).flatMap Act.lines

/-- The records of a batch as they are sent. A payload that cannot be decoded is skipped. -/
def decoded (records : List Record) : List StreamRecord := records.filterMap fun r => StreamRecord.decode r.data

end

/-- `caller` is the shard that opened a channel; `returned` are the deliveries that returned an ack, in their order. -/
structure Session (R : Type) where
  tasks : Tasks
  batch : ShardId → Batch
  caller : Nat → Option ShardId
  /-- What the sidecar has written and the binding has not read. -/
  output : List ServerMessage
  /-- What the binding has written and the sidecar has not read. -/
  input : List Line
  past : List (Event R)
  ended : Bool
  returned : List (Batch × SequenceNumber)

namespace Session
variable {R : Type}

def start : Session R where
  tasks := Sidecar.start
  batch shard := ⟨shard, "", []⟩
  caller _ := none
  output := []
  input := [.message .ready]
  past := [.wrote readyMessage]
  ended := false
  returned := []

/-- What a call of a shard's task writes, opens or returns. -/
def observe (s : Session R) (shard : ShardId) (t : Tasks) : Sidecar.Call → Choice → Session R
  | .channel, _ => { s with tasks := t, caller := Function.update s.caller s.tasks.world.fresh (some shard) }
  | .send msg, .sent true => { s with tasks := t, output := s.output ++ [.records msg.shard msg.lastSeq (decoded msg.records)] }
  | .recv rx, _ =>
    { s with
      tasks := t
      returned := s.returned ++ ((s.tasks.world.channels rx).value.map fun q => (s.batch shard, q)).toList }
  | _, _ => { s with tasks := t }

def acting (s : Session R) (es : List (Event R)) : Session R := { s with input := s.input ++ written es, past := s.past ++ es }

def answering (c : Client R) (s : Session R) (o : Outcome R) : Session R :=
  match o.flow with
  | .next => s.acting o.events
  | flow => { (s.acting o.events).acting (c.finish (s.past ++ o.events) flow) with ended := true }

inductive Step (c : Client R) (p : Processor R) : Session R → Session R → Prop where
  | start {s : Session R} {t : Tasks} {shard : ShardId} {records : List Record} {last : Record}
      (hl : records.getLast? = some last) (h : s.tasks.step machine (.start (some shard) (last.seq, records)) = some t) :
      Step c p s { s with tasks := t, batch := Function.update s.batch shard ⟨shard, last.seq, records⟩ }
  | task {s : Session R} {t : Tasks} {shard : ShardId} {π : List Nat} {choice : Choice}
      {x : (r : Sidecar.Call) × (Answer r → Sidecar.Task Unit)} (hf : (s.tasks.procs (some shard)).focus π = some x)
      (h : s.tasks.step machine (.call (some shard) π choice) = some t) : Step c p s (s.observe shard t x.1 choice)
  /-- The fleet tells the client about a shard, or that it stops. -/
  | signal {s : Session R} {m : ServerMessage} (hm : ServerMessage.isBatch m = false) :
      Step c p s { s with output := s.output ++ [m] }
  | line {s : Session R} {t : Tasks} {π : List Nat} {l : Line} {rest : List Line} (hi : s.input = l :: rest)
      (h : s.tasks.step machine (.call none π (.line l)) = some t) : Step c p s { s with tasks := t, input := rest }
  | reader {s : Session R} {t : Tasks} {π : List Nat} (h : s.tasks.step machine (.call none π .done) = some t) :
      Step c p s { s with tasks := t }
  | silent {s : Session R} {t : Tasks} {v : Option ShardId} {π : List Nat} (h : s.tasks.step machine (.silent v π) = some t) :
      Step c p s { s with tasks := t }
  | client {s : Session R} {m : ServerMessage} {rest : List ServerMessage} {es : List (Event R)} (ho : s.ended = false)
      (hm : s.output = m :: rest)
      (hes : Amid (.wrote stopMessage) (c.handle p s.past (ServerMessage.schema.toValue m)).events es) :
      Step c p s ({ s with output := rest }.answering c ⟨es, (c.handle p s.past (ServerMessage.schema.toValue m)).flow⟩)
  | skip {s : Session R} {m : ServerMessage} {rest : List ServerMessage} {flow : Flow} (ho : s.ended = false)
      (hm : s.output = m :: rest) : Step c p s ({ s with output := rest }.answering c ⟨[], flow⟩)
  | stop {s : Session R} : Step c p s (s.acting (stop s.past).events)
  /-- The binding goes away, with the end of what it wrote. -/
  | gone {s : Session R} {front torn : List Line} (hi : front <+: s.input) (ht : torn = [] ∨ torn = [.malformed]) :
      Step c p s { s with input := front ++ torn ++ [.eof], ended := true }

inductive Reached (c : Client R) (p : Processor R) : Session R → Prop where
  | start : Reached c p start
  | step {s s' : Session R} (h : Reached c p s) (hs : Step c p s s') : Reached c p s'

/-! ## The messages of one shard -/

def awaitAck (tx : Nat) : Sidecar.Task Unit := (Prog.req (Sidecar.Call.recv tx) : Sidecar.Task _).bind finish

def batchesIn (shard : ShardId) (ms : List ServerMessage) : List (SequenceNumber × List StreamRecord) :=
  ms.filterMap fun
    | .records shard' q rs => if shard' = shard then some (q, rs) else none
    | _ => none

def acksIn (shard : ShardId) (ls : List Line) : List SequenceNumber :=
  ls.filterMap fun
    | .message (.checkpoint shard' q) => if shard' = shard then some q else none
    | _ => none

/-- The line that the reader is about to route. -/
def routing (p : Sidecar.Task Unit) : List Line :=
  match p.focus [] with
  | some ⟨.route shard q, _⟩ => [.message (.checkpoint shard q)]
  | _ => []

def unread (s : Session R) (shard : ShardId) : List (SequenceNumber × List StreamRecord) := batchesIn shard s.output

def underWay (s : Session R) (shard : ShardId) : List SequenceNumber := acksIn shard (routing (s.tasks.procs none) ++ s.input)

def acked (s : Session R) (shard : ShardId) : List SequenceNumber := acksIn shard (written s.past)

def delivered (s : Session R) (shard : ShardId) : List SequenceNumber :=
  s.returned.filterMap fun e => if e.1.shard = shard then some e.2 else none

variable (f : ShardId → StreamRecord → R)

/-- The processor returned from the records of the batch, and then, after stops at most, the batch was acknowledged. -/
def Processed (s : Session R) (b : Batch) : Prop :=
  ∃ n, .called (.processRecords ((decoded b.records).map (f b.shard))) true :: (List.replicate n (.sent (some .stop)) ++
    [.sent (some (.checkpoint b.shard b.lastSeq))]) <:+: acts s.past

/-! ## Where a delivery is -/

structure Settled (s : Session R) (shard : ShardId) : Prop where
  unread : s.unread shard = []
  underWay : s.underWay shard = []
  acked : s.acked shard = s.delivered shard

/-- Where the message of a delivery is, or its ack. Both are lost if the binding goes away. -/
inductive Outstanding (s : Session R) (shard : ShardId) : Prop where
  | unread (hu : s.unread shard = [((s.batch shard).lastSeq, decoded (s.batch shard).records)]) (hw : s.underWay shard = [])
      (ha : s.acked shard = s.delivered shard)
  | answered (hu : s.unread shard = []) (hw : s.underWay shard = [(s.batch shard).lastSeq])
      (hd : s.Processed f (s.batch shard)) (ha : s.acked shard = s.delivered shard ++ [(s.batch shard).lastSeq])
  | lost (hu : s.unread shard = []) (hw : s.underWay shard = [])
      (ha : s.acked shard = s.delivered shard ∨ s.acked shard = s.delivered shard ++ [(s.batch shard).lastSeq])

structure Opened (s : Session R) (shard : ShardId) (tx : Nat) : Prop where
  caller_eq : s.caller tx = some shard
  shard_eq : (s.batch shard).shard = shard

inductive Stage (s : Session R) (shard : ShardId) : Sidecar.Task Unit → Prop where
  | idle (hs : Settled s shard) (hp : s.tasks.world.pending shard = none) : Stage s shard (.ret ())
  | entered {q : SequenceNumber} {records : List Record} (hs : Settled s shard) (hp : s.tasks.world.pending shard = none)
      (hb : s.batch shard = ⟨shard, q, records⟩) : Stage s shard ((deliverBatch shard q records).bind finish)
  | opened {tx : Nat} (hs : Settled s shard) (hp : s.tasks.world.pending shard = none) (hc : Opened s shard tx)
      (he : s.tasks.world.channels tx = .empty) : Stage s shard ((registerAndSend shard tx (s.batch shard)).bind finish)
  | registered {tx : Nat} (hs : Settled s shard) (hp : s.tasks.world.pending shard = some tx) (hc : Opened s shard tx)
      (he : s.tasks.world.channels tx = .empty) : Stage s shard ((sendBatch shard tx (s.batch shard)).bind finish)
  | failed {tx : Nat} (hs : Settled s shard) (hp : s.tasks.world.pending shard = some tx) (hc : Opened s shard tx) :
      Stage s shard (.call (.remove shard) fun _ => .ret ())
  | awaiting {tx : Nat} (ho : Outstanding f s shard) (hp : s.tasks.world.pending shard = some tx) (hc : Opened s shard tx)
      (he : s.tasks.world.channels tx = .empty) : Stage s shard (awaitAck tx)
  | routed {tx : Nat} (hu : s.unread shard = []) (hw : s.underWay shard = [])
      (hd : s.Processed f (s.batch shard)) (ha : s.acked shard = s.delivered shard ++ [(s.batch shard).lastSeq])
      (hp : s.tasks.world.pending shard = none) (hc : Opened s shard tx)
      (he : s.tasks.world.channels tx = .sent (s.batch shard).lastSeq) :
      Stage s shard (awaitAck tx)

structure Inv (s : Session R) : Prop where
  reader : Reading s.tasks.world (s.tasks.procs none)
  stages : ∀ shard, Stage f s shard (s.tasks.procs (some shard))
  opened : ∀ tx shard, s.caller tx = some shard → tx < s.tasks.world.fresh
  returned : ∀ e ∈ s.returned, e.2 = e.1.lastSeq ∧ s.Processed f e.1

/-! ## What a step leaves alone -/

/-- A step that is not about the shard may lose acks, but moves none. -/
structure Same (shard : ShardId) (s s' : Session R) : Prop where
  batch : s'.batch shard = s.batch shard
  caller : ∀ tx, s.caller tx = some shard → s'.caller tx = some shard
  pending : s'.tasks.world.pending shard = s.tasks.world.pending shard
  channels : ∀ tx, s.caller tx = some shard → s'.tasks.world.channels tx = s.tasks.world.channels tx
  unread : s'.unread shard = s.unread shard
  underWay : s'.underWay shard <+: s.underWay shard
  acked : s'.acked shard = s.acked shard
  delivered : s'.delivered shard = s.delivered shard
  past : s.past <+: s'.past

section
variable {f} {s s' : Session R} {shard : ShardId}

theorem Processed.mono {b : Batch} (h : s.Processed f b) (hp : s.past <+: s'.past) : s'.Processed f b := by
  obtain ⟨n, hn⟩ := h
  exact ⟨n, hn.trans (hp.map Event.act).isInfix⟩

theorem Settled.same (h : Settled s shard) (hs : Same shard s s') : Settled s' shard where
  unread := hs.unread.trans h.unread
  underWay := List.prefix_nil.mp (h.underWay ▸ hs.underWay)
  acked := by rw [hs.acked, hs.delivered, h.acked]

theorem Outstanding.same (h : Outstanding f s shard) (hs : Same shard s s') : Outstanding f s' shard := by
  have hway := hs.underWay
  cases h with
  | unread hu hw ha =>
    rw [hw] at hway
    refine .unread ?_ (List.prefix_nil.mp hway) ?_
    · rw [hs.unread, hs.batch, hu]
    · rw [hs.acked, hs.delivered, ha]
  | answered hu hw hd ha =>
    rw [hw] at hway
    have hacked : s'.acked shard = s'.delivered shard ++ [(s'.batch shard).lastSeq] := by
      rw [hs.acked, hs.delivered, hs.batch, ha]
    rcases List.prefix_cons_iff.mp hway with hnil | ⟨l, hl, hlnil⟩
    · exact .lost (hs.unread.trans hu) hnil (.inr hacked)
    · rw [List.prefix_nil.mp hlnil] at hl
      refine .answered (hs.unread.trans hu) (by rw [hl, hs.batch]) ?_ hacked
      rw [hs.batch]
      exact hd.mono hs.past
  | lost hu hw ha =>
    rw [hw] at hway
    refine .lost (hs.unread.trans hu) (List.prefix_nil.mp hway) ?_
    rw [hs.acked, hs.delivered, hs.batch]
    exact ha

theorem Opened.same {tx : Nat} (h : Opened s shard tx) (hs : Same shard s s') : Opened s' shard tx where
  caller_eq := hs.caller tx h.caller_eq
  shard_eq := by rw [hs.batch, h.shard_eq]

theorem Stage.same {p : Sidecar.Task Unit} (h : Stage f s shard p) (hs : Same shard s s') : Stage f s' shard p := by
  cases h with
  | idle hset hp => exact .idle (hset.same hs) (hs.pending.trans hp)
  | entered hset hp hb => exact .entered (hset.same hs) (hs.pending.trans hp) (hs.batch.trans hb)
  | opened hset hp hc he =>
    rw [← hs.batch]
    exact .opened (hset.same hs) (hs.pending.trans hp) (hc.same hs) ((hs.channels _ hc.caller_eq).trans he)
  | registered hset hp hc he =>
    rw [← hs.batch]
    exact .registered (hset.same hs) (hs.pending.trans hp) (hc.same hs) ((hs.channels _ hc.caller_eq).trans he)
  | failed hset hp hc => exact .failed (hset.same hs) (hs.pending.trans hp) (hc.same hs)
  | awaiting ho hp hc he =>
    exact .awaiting (ho.same hs) (hs.pending.trans hp) (hc.same hs) ((hs.channels _ hc.caller_eq).trans he)
  | routed hu hw hd ha hp hc he =>
    refine .routed (hs.unread.trans hu) (List.prefix_nil.mp (hw ▸ hs.underWay)) ?_ ?_ (hs.pending.trans hp) (hc.same hs) ?_
    · rw [hs.batch]
      exact hd.mono hs.past
    · rw [hs.acked, hs.delivered, hs.batch, ha]
    · rw [hs.channels _ hc.caller_eq, hs.batch, he]

theorem front_of_eq {α : Type} {l l' : List α} (h : l = l') : l <+: l' := h ▸ List.prefix_refl l

structure Quiet (s s' : Session R) : Prop where
  reader : s'.tasks.procs none = s.tasks.procs none
  output : s'.output = s.output
  input : s'.input = s.input
  past : s'.past = s.past
  returned : s'.returned = s.returned

theorem Quiet.task {q : Sidecar.Task Unit} (hprocs : s'.tasks.procs = Function.update s.tasks.procs (some shard) q)
    (ho : s'.output = s.output) (hi : s'.input = s.input) (hp : s'.past = s.past) (hr : s'.returned = s.returned) :
    Quiet s s' :=
  ⟨by rw [hprocs, Function.update_of_ne (by simp)], ho, hi, hp, hr⟩

theorem Quiet.same (h : Quiet s s') (hb : s'.batch shard = s.batch shard)
    (hc : ∀ tx, s.caller tx = some shard → s'.caller tx = some shard)
    (hp : s'.tasks.world.pending shard = s.tasks.world.pending shard)
    (hch : ∀ tx, s.caller tx = some shard → s'.tasks.world.channels tx = s.tasks.world.channels tx) : Same shard s s' where
  batch := hb
  caller := hc
  pending := hp
  channels := hch
  unread := by rw [Session.unread, h.output]; rfl
  underWay := front_of_eq (by rw [Session.underWay, h.reader, h.input]; rfl)
  acked := by rw [Session.acked, h.past]; rfl
  delivered := by rw [Session.delivered, h.returned]; rfl
  past := front_of_eq h.past.symm

theorem Settled.quiet (h : Settled s shard) (hq : Quiet s s') : Settled s' shard where
  unread := by rw [Session.unread, hq.output]; exact h.unread
  underWay := by rw [Session.underWay, hq.reader, hq.input]; exact h.underWay
  acked := by rw [Session.acked, Session.delivered, hq.past, hq.returned]; exact h.acked

theorem acksIn_append (shard : ShardId) (ls ls' : List Line) : acksIn shard (ls ++ ls') = acksIn shard ls ++ acksIn shard ls' :=
  List.filterMap_append

theorem batchesIn_append (shard : ShardId) (ms ms' : List ServerMessage) :
    batchesIn shard (ms ++ ms') = batchesIn shard ms ++ batchesIn shard ms' := List.filterMap_append

/-! ## The tasks of the shards -/

theorem Inv.task {q : Sidecar.Task Unit} (hi : Inv f s)
    (hprocs : s'.tasks.procs = Function.update s.tasks.procs (some shard) q)
    (hover : s'.tasks.world.inputOver = s.tasks.world.inputOver) (hstage : Stage f s' shard q)
    (hothers : ∀ other, other ≠ shard → Same other s s')
    (hopened : ∀ tx other, s'.caller tx = some other → tx < s'.tasks.world.fresh)
    (hreturned : ∀ e ∈ s'.returned, e.2 = e.1.lastSeq ∧ s'.Processed f e.1) : Inv f s' where
  reader := by
    rw [hprocs, Function.update_of_ne (by simp)]
    exact hi.reader.ended (by rw [hover]; exact id)
  stages other := by
    rw [hprocs]
    by_cases h : other = shard
    · subst h
      rw [Function.update_self]
      exact hstage
    · rw [Function.update_of_ne (by simpa using h)]
      exact (hi.stages other).same (hothers other h)
  opened := hopened
  returned := hreturned

theorem Inv.starts (hi : Inv f s) {t : Tasks} {q : SequenceNumber} {records : List Record}
    (h : s.tasks.step machine (.start (some shard) (q, records)) = some t) :
    Inv f { s with tasks := t, batch := Function.update s.batch shard ⟨shard, q, records⟩ } := by
  have hstage := hi.stages shard
  simp only [Pool.step] at h
  generalize hp : s.tasks.procs (some shard) = p at h hstage
  cases hstage with
  | idle hs hpend =>
    cases h
    have hquiet : Quiet s { s with
        tasks := ⟨s.tasks.world, Function.update s.tasks.procs (some shard) ((deliverBatch shard q records).bind finish)⟩
        batch := Function.update s.batch shard ⟨shard, q, records⟩ } :=
      .task rfl rfl rfl rfl rfl
    refine hi.task rfl rfl (.entered (hs.quiet hquiet) hpend (Function.update_self _ _ _)) ?_ hi.opened hi.returned
    intro other hne
    exact hquiet.same (Function.update_of_ne hne _ _) (fun _ h => h) rfl fun _ _ => rfl
  | _ => cases h

theorem Opened.ne {other : ShardId} {tx tx' : Nat} (h : Opened s shard tx) (hc : s.caller tx' = some other)
    (hne : other ≠ shard) : tx' ≠ tx := by
  rintro rfl
  rw [h.caller_eq] at hc
  exact hne (Option.some.inj hc).symm

theorem Inv.opens (hi : Inv f s) (hs : Settled s shard) (hp : s.tasks.world.pending shard = none)
    (hb : (s.batch shard).shard = shard) :
    Inv f { s with
      tasks := ⟨{ s.tasks.world with
          channels := Function.update s.tasks.world.channels s.tasks.world.fresh .empty
          fresh := s.tasks.world.fresh + 1 },
        Function.update s.tasks.procs (some shard)
          ((registerAndSend shard s.tasks.world.fresh (s.batch shard)).bind finish)⟩
      caller := Function.update s.caller s.tasks.world.fresh (some shard) } := by
  have hfresh : ∀ tx other, s.caller tx = some other → tx ≠ s.tasks.world.fresh := by
    intro tx other hc
    exact Nat.ne_of_lt (hi.opened tx other hc)
  have hquiet : Quiet s { s with
      tasks := ⟨{ s.tasks.world with
          channels := Function.update s.tasks.world.channels s.tasks.world.fresh .empty
          fresh := s.tasks.world.fresh + 1 },
        Function.update s.tasks.procs (some shard)
          ((registerAndSend shard s.tasks.world.fresh (s.batch shard)).bind finish)⟩
      caller := Function.update s.caller s.tasks.world.fresh (some shard) } :=
    .task rfl rfl rfl rfl rfl
  refine hi.task rfl rfl ?_ ?_ ?_ hi.returned
  · exact .opened (hs.quiet hquiet) hp ⟨Function.update_self _ _ _, hb⟩ (Function.update_self _ _ _)
  · intro other _
    refine hquiet.same rfl ?_ rfl ?_
    · intro tx hc
      rw [← hc]
      exact Function.update_of_ne (hfresh tx other hc) _ _
    · intro tx hc
      exact Function.update_of_ne (hfresh tx other hc) _ _
  · intro tx other hc
    by_cases htx : tx = s.tasks.world.fresh
    · rw [htx]
      exact Nat.lt_succ_self _
    · have hcaller : s.caller tx = some other := by simpa [Function.update_of_ne htx] using hc
      exact Nat.lt_succ_of_lt (hi.opened tx other hcaller)

theorem Inv.proceeds (hi : Inv f s) {w : Ipc} {q : Sidecar.Task Unit} (hover : w.inputOver = s.tasks.world.inputOver)
    (hfresh : w.fresh = s.tasks.world.fresh)
    (hpend : ∀ other, other ≠ shard → w.pending other = s.tasks.world.pending other)
    (hchan : ∀ tx other, s.caller tx = some other → other ≠ shard → w.channels tx = s.tasks.world.channels tx)
    (hstage : Quiet s { s with tasks := ⟨w, Function.update s.tasks.procs (some shard) q⟩ } →
      Stage f { s with tasks := ⟨w, Function.update s.tasks.procs (some shard) q⟩ } shard q) :
    Inv f { s with tasks := ⟨w, Function.update s.tasks.procs (some shard) q⟩ } := by
  have hquiet : Quiet s { s with tasks := ⟨w, Function.update s.tasks.procs (some shard) q⟩ } :=
    .task rfl rfl rfl rfl rfl
  refine hi.task rfl hover (hstage hquiet) ?_ ?_ hi.returned
  · intro other hne
    exact hquiet.same rfl (fun _ h => h) (hpend other hne) fun tx hc => hchan tx other hc hne
  · intro tx other hc
    rw [show w.fresh = s.tasks.world.fresh from hfresh]
    exact hi.opened tx other hc

theorem Inv.sends (hi : Inv f s) {tx : Nat} (hs : Settled s shard) (hp : s.tasks.world.pending shard = some tx)
    (hc : Opened s shard tx) (he : s.tasks.world.channels tx = .empty) :
    Inv f { s with
      tasks := ⟨s.tasks.world, Function.update s.tasks.procs (some shard) (awaitAck tx)⟩
      output := s.output ++ [.records (s.batch shard).shard (s.batch shard).lastSeq (decoded (s.batch shard).records)] } := by
  have hreader : Function.update s.tasks.procs (some shard) (awaitAck tx) none =
      s.tasks.procs none := Function.update_of_ne (by simp) _ _
  refine hi.task rfl rfl (.awaiting (.unread ?_ ?_ hs.acked) hp ⟨hc.caller_eq, hc.shard_eq⟩ he) ?_ hi.opened hi.returned
  · have hunread := hs.unread
    unfold Session.unread at hunread ⊢
    rw [batchesIn_append, hunread]
    simp [batchesIn, hc.shard_eq]
  · unfold Session.underWay
    simp only [hreader]
    exact hs.underWay
  · intro other hne
    refine ⟨rfl, fun _ h => h, rfl, fun _ _ => rfl, ?_, ?_, rfl, rfl, List.prefix_refl _⟩
    · unfold Session.unread
      rw [batchesIn_append]
      simp [batchesIn, hc.shard_eq, hne.symm]
    · unfold Session.underWay
      simp only [hreader]
      exact List.prefix_refl _

theorem Inv.returns (hi : Inv f s) {tx : Nat} (hu : s.unread shard = []) (hw : s.underWay shard = [])
    (hd : s.Processed f (s.batch shard)) (ha : s.acked shard = s.delivered shard ++ [(s.batch shard).lastSeq])
    (hp : s.tasks.world.pending shard = none) (hc : Opened s shard tx) :
    Inv f { s with
      tasks := ⟨s.tasks.world, Function.update s.tasks.procs (some shard) (.ret ())⟩
      returned := s.returned ++ [(s.batch shard, (s.batch shard).lastSeq)] } := by
  have hreader : Function.update s.tasks.procs (some shard) (.ret ()) none = s.tasks.procs none :=
    Function.update_of_ne (by simp) _ _
  refine hi.task rfl rfl (.idle ⟨hu, ?_, ?_⟩ hp) ?_ hi.opened ?_
  · unfold Session.underWay
    simp only [hreader]
    exact hw
  · refine ha.trans ?_
    unfold Session.delivered
    simp [hc.shard_eq]
  · intro other hne
    refine ⟨rfl, fun _ h => h, rfl, fun _ _ => rfl, rfl, ?_, rfl, ?_, List.prefix_refl _⟩
    · unfold Session.underWay
      simp only [hreader]
      exact List.prefix_refl _
    · unfold Session.delivered
      simp [hc.shard_eq, hne.symm]
  · intro e he
    rcases List.mem_append.mp he with he | he
    · exact hi.returned e he
    · rw [List.mem_singleton.mp he]
      exact ⟨rfl, hd⟩

theorem Inv.call {t : Tasks} {π : List Nat} {choice : Choice} {x : (r : Sidecar.Call) × (Answer r → Sidecar.Task Unit)}
    (hi : Inv f s) (hf : (s.tasks.procs (some shard)).focus π = some x)
    (h : s.tasks.step machine (.call (some shard) π choice) = some t) : Inv f (s.observe shard t x.1 choice) := by
  have hstage := hi.stages shard
  simp only [Pool.step] at h
  generalize s.tasks.procs (some shard) = p at h hf hstage
  cases hstage with
  | idle hs hp => cases h
  | entered hs hp hb =>
    cases hf
    cases choice <;> cases h
    have hopens := hi.opens hs hp (by rw [hb])
    rw [hb] at hopens
    exact hopens
  | opened hs hp hc he =>
    cases hf
    cases choice <;> cases h
    rw [Wire.dropPending_none hp]
    refine hi.proceeds rfl rfl (fun other hne => Function.update_of_ne hne _ _) (fun _ _ _ _ => rfl) fun hquiet => ?_
    exact .registered (hs.quiet hquiet) (Function.update_self _ _ _) ⟨hc.caller_eq, hc.shard_eq⟩ he
  | @registered tx hs hp hc he =>
    cases hf
    cases choice with
    | sent ok =>
      cases ok with
      | true =>
        cases h
        exact hi.sends hs hp hc he
      | false =>
        cases h
        exact hi.proceeds rfl rfl (fun _ _ => rfl) (fun _ _ _ _ => rfl) fun hquiet =>
          .failed (hs.quiet hquiet) hp ⟨hc.caller_eq, hc.shard_eq⟩
    | _ => cases h
  | @failed tx hs hp hc =>
    cases hf
    cases choice <;> cases h
    refine hi.proceeds dropPending_inputOver dropPending_fresh (fun other hne => Function.update_of_ne hne _ _) ?_
      fun hquiet => .idle (hs.quiet hquiet) (Function.update_self _ _ _)
    intro tx' other hcaller hne
    simp only [Ipc.dropPending, hp, Ipc.dropTx]
    split
    · exact Function.update_of_ne (hc.ne hcaller hne) _ _
    · rfl
  | @awaiting tx ho hp hc he =>
    cases hf
    cases choice with
    | done => simp [awaitAck, Prog.focus, Prog.req, Prog.bind, machine, exec, he] at h
    | _ => cases h
  | @routed tx hu hw hd ha hp hc he =>
    cases hf
    cases choice with
    | done =>
      have ht : t = ⟨s.tasks.world, Function.update s.tasks.procs (some shard) (.ret ())⟩ := by
        simpa [awaitAck, Prog.focus, Prog.req, Prog.bind, machine, exec, he, finish] using h.symm
      rw [ht]
      simp only [observe, he]
      exact hi.returns hu hw hd ha hp hc
    | _ => cases h

/-! ## The reader -/

theorem Inv.read {q : Sidecar.Task Unit} (hi : Inv f s) (hprocs : s'.tasks.procs = Function.update s.tasks.procs none q)
    (hq : Reading s'.tasks.world q) (hfresh : s'.tasks.world.fresh = s.tasks.world.fresh) (hcaller : s'.caller = s.caller)
    (hpast : s'.past = s.past) (hreturned : s'.returned = s.returned)
    (hstages : ∀ shard, Stage f s' shard (s.tasks.procs (some shard))) : Inv f s' where
  reader := by
    rw [hprocs, Function.update_self]
    exact hq
  stages shard := by
    rw [hprocs, Function.update_of_ne (by simp)]
    exact hstages shard
  opened tx shard hc := by
    rw [hfresh]
    rw [hcaller] at hc
    exact hi.opened tx shard hc
  returned := by
    unfold Processed
    rw [hpast, hreturned]
    exact hi.returned

theorem Inv.reads {w : Ipc} {q : Sidecar.Task Unit} {rest : List Line} (hi : Inv f s) (hq : Reading w q)
    (hfresh : w.fresh = s.tasks.world.fresh) (hpend : w.pending = s.tasks.world.pending)
    (hchan : w.channels = s.tasks.world.channels)
    (hacks : ∀ shard, acksIn shard (routing q ++ rest) = s.underWay shard) :
    Inv f { s with tasks := ⟨w, Function.update s.tasks.procs none q⟩, input := rest } := by
  refine hi.read rfl hq hfresh rfl rfl rfl fun shard => (hi.stages shard).same ?_
  refine ⟨rfl, fun _ h => h, by rw [← hpend], fun _ _ => by rw [← hchan], rfl, ?_, rfl, rfl, List.prefix_refl _⟩
  unfold Session.underWay at hacks ⊢
  simp only [Function.update_self]
  exact front_of_eq (hacks shard)

theorem Inv.line {t : Tasks} {π : List Nat} {l : Line} {rest : List Line} (hi : Inv f s) (hin : s.input = l :: rest)
    (h : s.tasks.step machine (.call none π (.line l)) = some t) : Inv f { s with tasks := t, input := rest } := by
  have hreader := hi.reader
  have hreads : ∀ {w q}, Reading w q → w = { s.tasks.world with inputOver := s.tasks.world.inputOver || l.isLast } →
      routing (s.tasks.procs none) = [] → (∀ shard, acksIn shard (routing q) = acksIn shard [l]) →
        Inv f { s with tasks := ⟨w, Function.update s.tasks.procs none q⟩, input := rest } := by
    rintro w q hq rfl hnone hline
    refine hi.reads hq rfl rfl rfl fun shard => ?_
    unfold Session.underWay
    rw [hnone, hin, acksIn_append, hline, ← acksIn_append]
    rfl
  simp only [Pool.step] at h
  generalize s.tasks.procs none = p at h hreader hreads
  cases hreader with
  | line =>
    cases l with
    | blank =>
      cases h
      exact hreads .again rfl rfl fun _ => rfl
    | malformed =>
      cases h
      exact hreads .again rfl rfl fun _ => rfl
    | eof =>
      cases h
      exact hreads (.stopping (Bool.or_true _)) rfl rfl fun _ => rfl
    | message m =>
      cases m with
      | ready =>
        cases h
        exact hreads .again rfl rfl fun _ => rfl
      | stop =>
        cases h
        exact hreads (.stopping (Bool.or_true _)) rfl rfl fun _ => rfl
      | checkpoint shard q =>
        cases h
        exact hreads (.routing shard q) rfl rfl fun _ => rfl
  | _ => cases h

theorem Stage.of_underWay {p : Sidecar.Task Unit} {q : SequenceNumber} {rest : List SequenceNumber} (h : Stage f s shard p)
    (hw : s.underWay shard = q :: rest) : ∃ tx, p = awaitAck tx ∧
      s.tasks.world.pending shard = some tx ∧ Opened s shard tx ∧ q = (s.batch shard).lastSeq ∧ rest = [] ∧
      s.unread shard = [] ∧ s.Processed f (s.batch shard) ∧
      s.acked shard = s.delivered shard ++ [(s.batch shard).lastSeq] := by
  have hsettled : ¬ Settled s shard := by
    intro hs
    rw [hs.underWay] at hw
    cases hw
  cases h with
  | idle hs hp => exact absurd hs hsettled
  | entered hs hp hb => exact absurd hs hsettled
  | opened hs hp hc he => exact absurd hs hsettled
  | registered hs hp hc he => exact absurd hs hsettled
  | failed hs hp hc => exact absurd hs hsettled
  | awaiting ho hp hc he =>
    cases ho with
    | unread hu hw' ha =>
      rw [hw'] at hw
      cases hw
    | answered hu hw' hd ha =>
      rw [hw'] at hw
      cases hw
      exact ⟨_, rfl, hp, hc, rfl, rfl, hu, hd, ha⟩
    | lost hu hw' ha =>
      rw [hw'] at hw
      cases hw
  | routed hu hw' hd ha hp hc he =>
    rw [hw'] at hw
    cases hw

theorem Inv.route {t : Tasks} {q : SequenceNumber} (hi : Inv f s)
    (hr : s.tasks.procs none = reading (.call (.route shard q) fun _ => .ret (.inl ())))
    (h : s.tasks.step machine (.call none [] .done) = some t) : Inv f { s with tasks := t } := by
  have hway : s.underWay shard = q :: acksIn shard s.input := by
    unfold Session.underWay
    rw [hr, acksIn_append]
    simp [routing, reading, Prog.focus, acksIn]
  obtain ⟨tx, hproc, hpend, hc, rfl, hnone, hu, hd, ha⟩ := (hi.stages shard).of_underWay hway
  have ht : t = ⟨{ s.tasks.world with
      pending := Function.update s.tasks.world.pending shard none
      channels := Function.update s.tasks.world.channels tx (.sent (s.batch shard).lastSeq) },
      Function.update s.tasks.procs none (reading (.ret (.inl ())))⟩ := by
    simpa [Pool.step, hr, Prog.focus, machine, exec, hpend, reading] using h.symm
  have hrouting : routing (reading (.ret (.inl ()))) = [] := rfl
  subst ht
  refine hi.read rfl .again rfl rfl rfl rfl fun other => ?_
  by_cases hother : other = shard
  · subst hother
    rw [hproc]
    refine .routed hu ?_ hd ha (Function.update_self _ _ _) ⟨hc.caller_eq, hc.shard_eq⟩ (Function.update_self _ _ _)
    unfold Session.underWay
    simp only [Function.update_self, hrouting, List.nil_append]
    exact hnone
  · refine (hi.stages other).same
      ⟨rfl, fun _ h => h, Function.update_of_ne hother _ _, ?_, rfl, ?_, rfl, rfl, List.prefix_refl _⟩
    · intro tx' hcaller
      exact Function.update_of_ne (hc.ne hcaller hother) _ _
    · unfold Session.underWay
      simp only [Function.update_self, hrouting, List.nil_append, hr, acksIn_append]
      simp [routing, reading, Prog.focus, acksIn, Ne.symm hother]

theorem Inv.reader_call {t : Tasks} {π : List Nat} (hi : Inv f s)
    (h : s.tasks.step machine (.call none π .done) = some t) : Inv f { s with tasks := t } := by
  have hreader := hi.reader
  generalize hp : s.tasks.procs none = p at hreader
  cases hreader with
  | routing shard q =>
    refine hi.route hp ?_
    rw [← h]
    simp [Pool.step, hp, reading, Prog.focus]
  | stopping ho =>
    have ht : t = ⟨{ s.tasks.world with stopped := true },
        Function.update s.tasks.procs none (reading (.ret (.inr ())))⟩ := by
      simpa [Pool.step, hp, Prog.focus, machine, exec, reading] using h.symm
    rw [ht]
    refine hi.reads (.leaving ho) rfl rfl rfl fun shard => ?_
    unfold Session.underWay
    rw [hp]
    rfl
  | _ =>
    simp only [Pool.step, hp] at h
    cases h

theorem Inv.silent {t : Tasks} {v : Option ShardId} {π : List Nat} (hi : Inv f s)
    (h : s.tasks.step machine (.silent v π) = some t) : Inv f { s with tasks := t } := by
  simp only [Pool.step] at h
  cases v with
  | none =>
    have hreader := hi.reader
    generalize hp : s.tasks.procs none = p at h hreader
    cases hreader with
    | again =>
      cases h
      refine hi.reads .line rfl rfl rfl fun shard => ?_
      unfold Session.underWay
      rw [hp]
      rfl
    | leaving ho =>
      cases h
      refine hi.reads (.exited ho) rfl rfl rfl fun shard => ?_
      unfold Session.underWay
      rw [hp]
      rfl
    | _ => cases h
  | some shard =>
    have hstage := hi.stages shard
    generalize s.tasks.procs (some shard) = p at h hstage
    cases hstage <;> cases h

/-! ## The binding -/

def Unacked (as : List (Act R)) : Prop := ∀ shard seq, .sent (some (.checkpoint shard seq)) ∉ as

theorem unacked_of_idle {as : List (Act R)} (h : as.filter Act.isWork = []) : Unacked as := by
  intro shard seq hm
  have hwork := List.filter_eq_nil_iff.mp h _ hm
  simp [Act.isWork] at hwork

theorem unacked_stops (n : Nat) : Unacked (List.replicate n (.sent (some .stop)) : List (Act R)) := by
  intro shard seq hm
  cases List.eq_of_mem_replicate hm

theorem Unacked.amid {as bs : List (Act R)} (has : Unacked as) (h : Amid (.sent (some .stop)) as bs) : Unacked bs := by
  intro shard seq hm
  rcases h.mem hm with hstop | hm
  · cases hstop
  · exact has shard seq hm

theorem Unacked.append {as bs : List (Act R)} (ha : Unacked as) (hb : Unacked bs) : Unacked (as ++ bs) := by
  intro shard seq hm
  rcases List.mem_append.mp hm with hm | hm
  · exact ha shard seq hm
  · exact hb shard seq hm

theorem acksIn_unacked {as : List (Act R)} (h : Unacked as) (shard : ShardId) : acksIn shard (as.flatMap Act.lines) = [] := by
  rw [acksIn, List.filterMap_eq_nil_iff]
  intro l hl
  obtain ⟨a, ha, hl⟩ := List.mem_flatMap.mp hl
  cases a with
  | called c returned => simp [Act.lines] at hl
  | closed =>
    rw [List.mem_singleton.mp hl]
  | sent m =>
    cases m with
    | none => rw [List.mem_singleton.mp hl]
    | some m =>
      rw [List.mem_singleton.mp hl]
      cases m with
      | checkpoint shard' seq => exact absurd ha (h shard' seq)
      | _ => rfl

theorem written_append (es es' : List (Event R)) : written (es ++ es') = written es ++ written es' := by
  rw [written, acts_append, List.flatMap_append]
  rfl

theorem Same.acts {es : List (Event R)} {output : List ServerMessage} {ended : Bool} (hb : batchesIn shard output = s.unread shard)
    (ha : acksIn shard (written es) = []) :
    Same shard s { s with output := output, input := s.input ++ written es, past := s.past ++ es, ended := ended } := by
  refine ⟨rfl, fun _ h => h, rfl, fun _ _ => rfl, hb, ?_, ?_, rfl, List.prefix_append _ _⟩
  · refine front_of_eq ?_
    unfold Session.underWay
    rw [← List.append_assoc, acksIn_append, ha, List.append_nil]
  · unfold Session.acked
    rw [written_append, acksIn_append, ha, List.append_nil]

theorem Inv.acts {es : List (Event R)} {output : List ServerMessage} {ended : Bool} (hi : Inv f s)
    (hstages : ∀ shard, Stage f { s with output := output, input := s.input ++ written es, past := s.past ++ es, ended := ended }
      shard (s.tasks.procs (some shard))) :
    Inv f { s with output := output, input := s.input ++ written es, past := s.past ++ es, ended := ended } where
  reader := hi.reader
  stages := hstages
  opened := hi.opened
  returned e he := ⟨(hi.returned e he).1, (hi.returned e he).2.mono (List.prefix_append _ _)⟩

theorem unread_cons {m : ServerMessage} {rest : List ServerMessage} (ho : s.output = m :: rest) (shard : ShardId) :
    s.unread shard = batchesIn shard [m] ++ batchesIn shard rest := by
  unfold Session.unread
  rw [ho, ← batchesIn_append]
  rfl

theorem Stage.of_unread {p : Sidecar.Task Unit} {q : SequenceNumber} {rs : List StreamRecord}
    {rest : List (SequenceNumber × List StreamRecord)} (h : Stage f s shard p) (hu : s.unread shard = (q, rs) :: rest) :
    ∃ tx, p = awaitAck tx ∧ s.tasks.world.pending shard = some tx ∧
      Opened s shard tx ∧ s.tasks.world.channels tx = .empty ∧ q = (s.batch shard).lastSeq ∧
      rs = decoded (s.batch shard).records ∧ rest = [] ∧ s.underWay shard = [] ∧ s.acked shard = s.delivered shard := by
  have hsettled : ¬ Settled s shard := by
    intro hs
    rw [hs.unread] at hu
    cases hu
  cases h with
  | idle hs hp => exact absurd hs hsettled
  | entered hs hp hb => exact absurd hs hsettled
  | opened hs hp hc he => exact absurd hs hsettled
  | registered hs hp hc he => exact absurd hs hsettled
  | failed hs hp hc => exact absurd hs hsettled
  | awaiting ho hp hc he =>
    cases ho with
    | unread hu' hw ha =>
      rw [hu'] at hu
      cases hu
      exact ⟨_, rfl, hp, hc, he, rfl, rfl, rfl, hw, ha⟩
    | answered hu' hw hd ha =>
      rw [hu'] at hu
      cases hu
    | lost hu' hw ha =>
      rw [hu'] at hu
      cases hu
  | routed hu' hw hd ha hp hc he =>
    rw [hu'] at hu
    cases hu

theorem batchesIn_single (shard : ShardId) (m : ServerMessage) :
    batchesIn shard [m] = [] ∨ ∃ q rs, m = .records shard q rs ∧ batchesIn shard [m] = [(q, rs)] := by
  cases m with
  | records shard' q rs =>
    by_cases h : shard' = shard
    · subst h
      exact .inr ⟨q, rs, rfl, by simp [batchesIn]⟩
    · exact .inl (by simp [batchesIn, h])
  | _ => exact .inl rfl

theorem Inv.ignores {m : ServerMessage} {rest : List ServerMessage} {es : List (Event R)} {ended : Bool} (hi : Inv f s)
    (ho : s.output = m :: rest) (hes : Unacked (Clients.acts es)) :
    Inv f { s with output := rest, input := s.input ++ written es, past := s.past ++ es, ended := ended } := by
  refine hi.acts fun shard => ?_
  have hnone : acksIn shard (written es) = [] := acksIn_unacked hes shard
  have hunread := unread_cons ho shard
  rcases batchesIn_single shard m with hm | ⟨q, rs, -, hm⟩
  · refine (hi.stages shard).same (.acts ?_ hnone)
    rw [hunread, hm, List.nil_append]
  · rw [hm, List.singleton_append] at hunread
    obtain ⟨tx, hproc, hpend, hc, he, -, -, hrest, hw, ha⟩ := (hi.stages shard).of_unread hunread
    rw [hproc]
    refine .awaiting (.lost hrest ?_ (.inl ?_)) hpend ⟨hc.caller_eq, hc.shard_eq⟩ he
    · unfold Session.underWay at hw ⊢
      rw [← List.append_assoc, acksIn_append, hw, hnone]
      rfl
    · unfold Session.acked at ha ⊢
      rw [written_append, acksIn_append, hnone, List.append_nil]
      exact ha

theorem Inv.acknowledges {q : SequenceNumber} {rs : List StreamRecord} {rest : List ServerMessage} {es : List (Event R)}
    {ended : Bool} {before after : List (Act R)} {n : Nat} (hi : Inv f s) (ho : s.output = .records shard q rs :: rest)
    (hes : Clients.acts es = before ++ .called (.processRecords (rs.map (f shard))) true ::
      (List.replicate n (.sent (some .stop)) ++ .sent (some (.checkpoint shard q)) :: after))
    (hbefore : Unacked before) (hafter : Unacked after) :
    Inv f { s with output := rest, input := s.input ++ written es, past := s.past ++ es, ended := ended } := by
  have hline : ∀ other, acksIn other (written es) = if shard = other then [q] else [] := by
    intro other
    rw [written, hes]
    simp only [List.flatMap_append, List.flatMap_cons, acksIn_append, acksIn_unacked hbefore, acksIn_unacked hafter,
      acksIn_unacked (unacked_stops n), List.nil_append, List.append_nil]
    by_cases h : shard = other <;> simp [Act.lines, acksIn, h]
  refine hi.acts fun other => ?_
  have hunread := unread_cons ho other
  by_cases hother : other = shard
  · subst hother
    rw [batchesIn, List.filterMap_cons_some (b := (q, rs)) (by simp), List.filterMap_nil, List.singleton_append] at hunread
    obtain ⟨tx, hproc, hpend, hc, he, rfl, rfl, hrest, hw, ha⟩ := (hi.stages other).of_unread hunread
    rw [hproc]
    refine .awaiting (.answered hrest ?_ ?_ ?_) hpend ⟨hc.caller_eq, hc.shard_eq⟩ he
    · unfold Session.underWay at hw ⊢
      rw [← List.append_assoc, acksIn_append, hw, hline, if_pos rfl]
      rfl
    · refine ⟨n, Clients.acts s.past ++ before, after, ?_⟩
      rw [hc.shard_eq, acts_append, hes]
      simp
    · unfold Session.acked at ha ⊢
      rw [written_append, acksIn_append, ha, hline, if_pos rfl]
      rfl
  · refine (hi.stages other).same (.acts ?_ (by rw [hline, if_neg (Ne.symm hother)]))
    rw [hunread]
    simp [batchesIn, Ne.symm hother]

theorem answering_eq {c : Client R} (hc : Conforms f c) (s : Session R) (o : Outcome R) :
    ∃ es ended, s.answering c o = { s with
      input := s.input ++ written (o.events ++ es)
      past := s.past ++ (o.events ++ es)
      ended := ended } ∧ Unacked (Clients.acts es) := by
  unfold answering
  split
  · exact ⟨[], s.ended, by simp [acting], nofun⟩
  · refine ⟨c.finish (s.past ++ o.events) o.flow, true, ?_, unacked_of_idle (hc.finishes _ _)⟩
    simp [acting, written_append]

theorem reply_unacked {p : Processor R} {past : List (Clients.Call R)} {m : ServerMessage}
    (hm : ServerMessage.isBatch m = false) : Unacked (reply f p past m).1 := by
  intro shard seq
  cases m with
  | records => cases hm
  | shutdown => simp [reply]
  | _ => simp [reply, replyCall]

theorem acts_amid {as es : List (Event R)} (h : Amid (.wrote stopMessage) as es) :
    Amid (.sent (some .stop)) (Clients.acts as) (Clients.acts es) := h.map Event.act

theorem Inv.client {c : Client R} {p : Processor R} {m : ServerMessage} {rest : List ServerMessage} {as : List (Event R)}
    (hc : Conforms f c) (hi : Inv f s) (hm : s.output = m :: rest)
    (has : Amid (.wrote stopMessage) (c.handle p s.past (ServerMessage.schema.toValue m)).events as) :
    Inv f ({ s with output := rest }.answering c ⟨as, (c.handle p s.past (ServerMessage.schema.toValue m)).flow⟩) := by
  obtain ⟨es, ended, heq, hes⟩ :=
    answering_eq hc { s with output := rest } ⟨as, (c.handle p s.past (ServerMessage.schema.toValue m)).flow⟩
  rw [heq]
  have hacts := acts_amid has
  have hignores : Unacked (Clients.acts (c.handle p s.past (ServerMessage.schema.toValue m)).events) →
      Inv f { s with output := rest, input := s.input ++ written (as ++ es), past := s.past ++ (as ++ es), ended := ended } := by
    intro hnone
    refine hi.ignores hm ?_
    rw [acts_append]
    exact (hnone.amid hacts).append hes
  cases hbatch : ServerMessage.isBatch m with
  | false =>
    refine hignores ?_
    cases m with
    | records => cases hbatch
    | shutdown reason => exact unacked_of_idle (hc.leaves p s.past reason).1
    | _ =>
      rw [(hc.answers p s.past _ (fun _ => rfl) rfl).1]
      exact reply_unacked rfl
  | true =>
    cases m with
    | records shard q rs =>
      have hlost : ∀ returned, Unacked [Act.called (.processRecords (rs.map (f shard))) returned] := by simp [Unacked]
      cases hclosed : isClosed s.past with
      | true =>
        refine hignores ?_
        rw [hc.late p s.past shard q rs hclosed]
        exact hlost _
      | false =>
        have hanswer := (hc.answers p s.past (.records shard q rs) (by simp [hclosed]) rfl).1
        cases hp : p (calls s.past) (.processRecords (rs.map (f shard))) with
        | true =>
          simp only [hanswer, reply, replyCall, hp, if_true] at hacts
          -- stops before the call, before the ack and after it
          obtain ⟨i, later, hcall, hrest⟩ := hacts.of_cons
          obtain ⟨n, last, rfl, hlast⟩ := hrest.of_cons
          have hquiet : Unacked ([] : List (Act R)) := by simp [Unacked]
          have hwhole : Clients.acts (as ++ es) = List.replicate i (.sent (some .stop)) ++
              .called (.processRecords (rs.map (f shard))) true :: (List.replicate n (.sent (some .stop)) ++
                .sent (some (.checkpoint shard q)) :: (last ++ Clients.acts es)) := by
            rw [acts_append, hcall]
            simp
          exact hi.acknowledges hm hwhole (unacked_stops i) ((hquiet.amid hlast).append hes)
        | false =>
          refine hignores ?_
          rw [hanswer]
          simp only [reply, replyCall, hp]
          exact hlost false
    | _ => cases hbatch

theorem Inv.skip {c : Client R} {m : ServerMessage} {rest : List ServerMessage} {flow : Flow} (hc : Conforms f c)
    (hi : Inv f s) (hm : s.output = m :: rest) : Inv f ({ s with output := rest }.answering c ⟨[], flow⟩) := by
  obtain ⟨es, ended, heq, hes⟩ := answering_eq hc { s with output := rest } ⟨[], flow⟩
  rw [heq]
  exact hi.ignores hm hes

theorem Inv.signal {m : ServerMessage} (hi : Inv f s) (hm : ServerMessage.isBatch m = false) :
    Inv f { s with output := s.output ++ [m] } := by
  refine { hi with stages := fun shard => (hi.stages shard).same ?_ }
  refine ⟨rfl, fun _ h => h, rfl, fun _ _ => rfl, ?_, List.prefix_refl _, rfl, rfl, List.prefix_refl _⟩
  unfold Session.unread
  rw [batchesIn_append]
  cases m with
  | records => cases hm
  | _ => exact List.append_nil _

theorem Inv.stop (hi : Inv f s) : Inv f (s.acting (Clients.stop s.past).events) := by
  have hnone : Unacked (Clients.acts (Clients.stop s.past : Outcome R).events) := by
    unfold Clients.stop send
    split
    · nofun
    · exact unacked_stops 1
  exact hi.acts fun shard => (hi.stages shard).same (.acts rfl (acksIn_unacked hnone shard))

theorem Inv.gone {front torn : List Line} (hi : Inv f s) (hin : front <+: s.input) (ht : torn = [] ∨ torn = [.malformed]) :
    Inv f { s with input := front ++ torn ++ [.eof], ended := true } := by
  have hnone : ∀ shard, acksIn shard (torn ++ [.eof]) = [] := by
    intro shard
    rcases ht with rfl | rfl <;> rfl
  refine { hi with stages := fun shard => (hi.stages shard).same ?_ }
  refine ⟨rfl, fun _ h => h, rfl, fun _ _ => rfl, rfl, ?_, rfl, rfl, List.prefix_refl _⟩
  obtain ⟨lost, hlost⟩ := hin
  have hkept : acksIn shard (routing (s.tasks.procs none) ++ (front ++ torn ++ [.eof])) =
      acksIn shard (routing (s.tasks.procs none) ++ front) := by
    rw [List.append_assoc, ← List.append_assoc, acksIn_append, hnone, List.append_nil]
  unfold Session.underWay
  rw [hkept, ← hlost, ← List.append_assoc, acksIn_append _ _ lost]
  exact List.prefix_append _ _

/-! ## Whole sessions -/

theorem inv_start : Inv f (start : Session R) where
  reader := .line
  stages _ := .idle ⟨rfl, rfl, rfl⟩ rfl
  opened _ _ hc := by cases hc
  returned _ he := by cases he

theorem Inv.step {c : Client R} {p : Processor R} (hc : Conforms f c) (hi : Inv f s) (h : Step c p s s') : Inv f s' := by
  cases h with
  | start hl h => exact hi.starts h
  | task hf h => exact hi.call hf h
  | signal hm => exact hi.signal hm
  | line hin h => exact hi.line hin h
  | reader h => exact hi.reader_call h
  | silent h => exact hi.silent h
  | client ho hm hes => exact hi.client hc hm hes
  | skip ho hm => exact hi.skip hc hm
  | stop => exact hi.stop
  | gone hin ht => exact hi.gone hin ht

theorem Reached.inv {c : Client R} {p : Processor R} (hc : Conforms f c) (h : Reached c p s) : Inv f s := by
  induction h with
  | start => exact inv_start
  | step _ hs ih => exact ih.step hc hs

theorem Stage.late {p : Sidecar.Task Unit} (h : Stage f s shard p) :
    ∃ late, s.acked shard = s.delivered shard ++ late ∧ late.length ≤ 1 := by
  have hnone : s.acked shard = s.delivered shard → ∃ late, s.acked shard = s.delivered shard ++ late ∧ late.length ≤ 1 :=
    fun ha => ⟨[], by rw [ha, List.append_nil], Nat.zero_le _⟩
  have hone : ∀ {q}, s.acked shard = s.delivered shard ++ [q] →
      ∃ late, s.acked shard = s.delivered shard ++ late ∧ late.length ≤ 1 := fun ha => ⟨_, ha, le_refl _⟩
  cases h with
  | idle hs hp => exact hnone hs.acked
  | entered hs hp hb => exact hnone hs.acked
  | opened hs hp hc he => exact hnone hs.acked
  | registered hs hp hc he => exact hnone hs.acked
  | failed hs hp hc => exact hnone hs.acked
  | awaiting ho hp hc he =>
    cases ho with
    | unread hu hw ha => exact hnone ha
    | answered hu hw hd ha => exact hone ha
    | lost hu hw ha =>
      rcases ha with ha | ha
      · exact hnone ha
      · exact hone ha
  | routed hu hw hd ha hp hc he => exact hone ha

end

end Session

/-- In every session with any of the bindings, a delivery that returns an ack returns the last sequence number of its own batch,
and the processor has returned from exactly the records of that batch. The deliveries of a shard return the acks that were
written for it, one each and in their order; at most one ack is still to come or lost. -/
theorem deliveries_processed {R : Type} {convert : Option Value → Value → Option R} {f : ShardId → StreamRecord → R}
    (hf : ∀ shard (r : StreamRecord), convert (some (.str shard)) r.toValue = some (f shard r)) {c : Client R}
    (hc : c ∈ bindings convert) {p : Processor R} {s : Session R} (h : Session.Reached c p s) :
    (∀ e ∈ s.returned, e.2 = e.1.lastSeq ∧ s.Processed f e.1) ∧
      ∀ shard, ∃ late, s.acked shard = s.delivered shard ++ late ∧ late.length ≤ 1 := by
  have hi := h.inv (bindings_conform hf hc)
  exact ⟨hi.returned, fun shard => (hi.stages shard).late⟩

/-! ### One delivery -/

def removal : StreamRecord where
  eventName := some "REMOVE"
  sequenceNumber := none
  sizeBytes := none
  streamViewType := none
  keys := ⟨[], SortedKeys.nil, trivial⟩
  newImage := none
  oldImage := none
  approxCreationTimeMs := none

def removalBatch : List Record := [⟨"s0", "7", removal.encode⟩]

theorem decoded_removalBatch : decoded removalBatch = [removal] := by
  have hdepth : removal.toValue.depth < RECURSION_LIMIT := by decide
  simp [decoded, removalBatch, StreamRecord.decode_encode, hdepth]

theorem Session.Reached.acknowledges {R : Type} {f : ShardId → StreamRecord → R} {c : Client R} (hc : Conforms f c)
    {s : Session R} (h : Session.Reached c (fun _ _ => true) s) (ho : s.ended = false) {shard : ShardId} {q : SequenceNumber}
    {rs : List StreamRecord} {rest : List ServerMessage} (hm : s.output = .records shard q rs :: rest)
    (hclosed : isClosed s.past = false) : ∃ past, Session.Reached c (fun _ _ => true)
      { s with output := rest, input := s.input ++ [.message (.checkpoint shard q)], past := past } := by
  obtain ⟨hacts, hflow⟩ := hc.answers (fun _ _ => true) s.past (.records shard q rs) (by simp [hclosed]) rfl
  have hstep := @Session.Step.client _ c (fun _ _ => true) s _ rest _ ho hm (.refl _)
  have hwritten : written (c.handle (fun _ _ => true) s.past (ServerMessage.schema.toValue (.records shard q rs))).events =
      [.message (.checkpoint shard q)] := by
    rw [written, hacts]
    rfl
  have hnext : (c.handle (fun _ _ => true) s.past (ServerMessage.schema.toValue (.records shard q rs))).flow = .next := hflow
  rw [Session.answering, hnext] at hstep
  simp only [Session.acting, hwritten] at hstep
  exact ⟨_, h.step hstep⟩

theorem deliveries_processed_once : ∃ s : Session Value,
    s.returned = [(⟨"s0", "7", removalBatch⟩, "7")] ∧ s.Processed (fun _ r => r.toValue) ⟨"s0", "7", removalBatch⟩ := by
  let convert : Option Value → Value → Option Value := fun _ v => some v
  have hf : ∀ shard (r : StreamRecord), convert (some (.str shard)) r.toValue = some r.toValue := fun _ _ => rfl
  have hbinding : python convert ∈ bindings convert := by simp [bindings]
  have hrun := (Session.Reached.start (c := python convert) (p := fun _ _ => true)).step
    (@Session.Step.start _ _ _ _ _ "s0" removalBatch ⟨"s0", "7", removal.encode⟩ rfl rfl)
  -- the call opens its channel, registers and sends
  have hrun := hrun.step (@Session.Step.task _ _ _ _ _ "s0" [] .done _ rfl rfl)
  have hrun := hrun.step (@Session.Step.task _ _ _ _ _ "s0" [] .done _ rfl rfl)
  have hrun := hrun.step (@Session.Step.task _ _ _ _ _ "s0" [] (.sent true) _ rfl rfl)
  -- the binding processes the batch and acknowledges it
  have hmessage : [ServerMessage.records "s0" "7" (decoded removalBatch)] = [.records "s0" "7" [removal]] := by
    rw [decoded_removalBatch]
  obtain ⟨past, hrun⟩ := hrun.acknowledges (python_conforms hf) rfl hmessage rfl
  -- the reader reads the greeting, then routes the ack
  have hrun := hrun.step (@Session.Step.line _ _ _ _ _ [] _ _ rfl rfl)
  have hrun := hrun.step (@Session.Step.silent _ _ _ _ _ none [] rfl)
  have hrun := hrun.step (@Session.Step.line _ _ _ _ _ [] _ _ rfl rfl)
  have hrun := hrun.step (@Session.Step.reader _ _ _ _ _ [] rfl)
  have hrun := hrun.step (@Session.Step.task _ _ _ _ _ "s0" [] .done _ rfl rfl)
  exact ⟨_, rfl, ((deliveries_processed hf hbinding hrun).1 _ List.mem_cons_self).2⟩

end Clients

end StreamsConsumer
