import Mathlib.Data.List.Nodup
import StreamsConsumer.Sidecar.Ipc

/-!
# Acks and the batches they are for

The tasks of the sidecar together with a conforming client at the other end of
the pipe. The client acknowledges each message it received at most once, with
the shard and the last sequence number of that message. Nothing in an ack says
which call it is for; `Wire` follows each message by the channel of its call.
-/

namespace StreamsConsumer
open Conc

namespace Sidecar

inductive Transit where
  | unsent
  | inFlight (b : Batch)
  | received (b : Batch)
  | acked
  deriving DecidableEq, Repr

inductive AckEvent where
  | acked (call : Nat)
  | routed (ack : Nat) (channel : Option Nat)
  | returned (call : Nat) (b : Batch) (result : Option SequenceNumber)
  deriving DecidableEq, Repr

/-- The tasks, the client, and the lines it has written that are not read yet. A call is known by its channel: `slot`
and `batch` are the latest call of a shard, `caller` is the shard that opened a channel. `routing` is the ack the
reader has just read. -/
structure Wire where
  tasks : Tasks
  slot : ShardId → Nat
  batch : ShardId → Batch
  caller : Nat → Option ShardId
  transit : Nat → Transit
  pipe : List (Line × Option Nat)
  routing : Option Nat
  /-- What happened, the latest first. -/
  trace : List AckEvent

def Channel.value : Channel → Option SequenceNumber
  | .sent q => some q
  | _ => none

namespace Wire

def observe (w : Wire) (shard : ShardId) (t : Tasks) : Call → Choice → Wire
  | .channel, _ =>
    { w with
      tasks := t
      slot := Function.update w.slot shard w.tasks.world.fresh
      caller := Function.update w.caller w.tasks.world.fresh (some shard) }
  | .send msg, .sent true =>
    -- the client may have got the message while it was being sent
    if w.transit (w.slot shard) = .unsent then
      { w with tasks := t, transit := Function.update w.transit (w.slot shard) (.inFlight msg) }
    else { w with tasks := t }
  | .remove _, _ => { w with tasks := t, trace := .returned (w.slot shard) (w.batch shard) none :: w.trace }
  | .recv rx, _ =>
    { w with tasks := t, trace := .returned (w.slot shard) (w.batch shard) (w.tasks.world.channels rx).value :: w.trace }
  | _, _ => { w with tasks := t }

def Harmless (l : Line) : Prop := l = .blank ∨ l = .malformed ∨ l = .message .ready

inductive Step : Wire → Wire → Prop where
  | start {w : Wire} {t : Tasks} {shard : ShardId} {q : SequenceNumber} {records : List Record}
      (h : w.tasks.step machine (.start (some shard) (q, records)) = some t) :
      Step w { w with tasks := t, batch := Function.update w.batch shard ⟨shard, q, records⟩ }
  /-- A message that was received was sent. -/
  | task {w : Wire} {t : Tasks} {shard : ShardId} {π : List Nat} {c : Choice} {x : (r : Call) × (Answer r → Task Unit)}
      (hf : (w.tasks.procs (some shard)).focus π = some x)
      (hs : c = .sent false → w.transit (w.slot shard) = .unsent)
      (h : w.tasks.step machine (.call (some shard) π c) = some t) : Step w (w.observe shard t x.1 c)
  | line {w : Wire} {t : Tasks} {π : List Nat} {l : Line} {ack : Option Nat} {rest : List (Line × Option Nat)}
      (hp : w.pipe = (l, ack) :: rest) (h : w.tasks.step machine (.call none π (.line l)) = some t) :
      Step w { w with tasks := t, pipe := rest, routing := ack }
  | route {w : Wire} {t : Tasks} {π : List Nat} {shard : ShardId} {q : SequenceNumber} {k : Unit → Task Unit}
      (hf : (w.tasks.procs none).focus π = some ⟨.route shard q, k⟩)
      (h : w.tasks.step machine (.call none π .done) = some t) :
      Step w { w with
        tasks := t
        routing := none
        trace := (w.routing.map fun ack => AckEvent.routed ack (w.tasks.world.pending shard)).toList ++ w.trace }
  | silent {w : Wire} {t : Tasks} {v : Option ShardId} {π : List Nat} (h : w.tasks.step machine (.silent v π) = some t) :
      Step w { w with tasks := t }
  | receiveEarly {w : Wire} {shard : ShardId} {π : List Nat} {msg : Batch} {k : Bool → Task Unit}
      (hf : (w.tasks.procs (some shard)).focus π = some ⟨.send msg, k⟩) (hu : w.transit (w.slot shard) = .unsent) :
      Step w { w with transit := Function.update w.transit (w.slot shard) (.received msg) }
  | receive {w : Wire} {call : Nat} {b : Batch} (h : w.transit call = .inFlight b) :
      Step w { w with transit := Function.update w.transit call (.received b) }
  | ack {w : Wire} {call : Nat} {b : Batch} (h : w.transit call = .received b) :
      Step w { w with
        transit := Function.update w.transit call .acked
        pipe := w.pipe ++ [(.message (.checkpoint b.shard b.lastSeq), some call)]
        trace := .acked call :: w.trace }
  | write {w : Wire} {l : Line} (h : Harmless l) : Step w { w with pipe := w.pipe ++ [(l, none)] }

def start : Wire where
  tasks := Sidecar.start
  slot _ := 0
  batch shard := ⟨shard, "", []⟩
  caller _ := none
  transit _ := .unsent
  pipe := []
  routing := none
  trace := []

inductive Reached : Wire → Prop where
  | start : Reached start
  | step {w w' : Wire} (h : Reached w) (hs : Step w w') : Reached w'

def ackedCalls (w : Wire) : List Nat :=
  w.trace.filterMap fun
    | .acked call => some call
    | _ => none

def routedAcks (w : Wire) : List Nat :=
  w.trace.filterMap fun
    | .routed ack _ => some ack
    | _ => none

def returnedCalls (w : Wire) : List Nat :=
  w.trace.filterMap fun
    | .returned call _ _ => some call
    | _ => none

def onTheWay (w : Wire) : List Nat := w.routing.toList ++ w.pipe.filterMap Prod.snd

/-! ## Where the tasks are -/

/-- `tx` is the channel of the call that the task of `shard` is in. -/
structure CallOf (w : Wire) (shard : ShardId) (tx : Nat) : Prop where
  slot_eq : w.slot shard = tx
  caller_eq : w.caller tx = some shard
  shard_eq : (w.batch shard).shard = shard
  open_ : tx ∉ w.returnedCalls

/-- The call waits for its ack, or has it in its channel. -/
def Awaited (w : Wire) (shard : ShardId) (tx : Nat) : Prop :=
  (w.tasks.world.pending shard = some tx ∧ w.tasks.world.channels tx = .empty ∧ tx ∉ w.routedAcks) ∨
    (w.tasks.world.pending shard = none ∧ w.tasks.world.channels tx = .sent (w.batch shard).lastSeq ∧
      w.transit tx = .acked ∧ tx ∈ w.routedAcks)

structure Between (w : Wire) (shard : ShardId) : Prop where
  pending_eq : w.tasks.world.pending shard = none
  closed : w.caller (w.slot shard) = some shard → w.slot shard ∈ w.returnedCalls

inductive Stage (w : Wire) (shard : ShardId) : Task Unit → Prop where
  | idle (hb : Between w shard) : Stage w shard (.ret ())
  | entered {q : SequenceNumber} {records : List Record} (hb : Between w shard) (he : w.batch shard = ⟨shard, q, records⟩) :
      Stage w shard ((deliverBatch shard q records).bind finish)
  | opened {tx : Nat} (hc : CallOf w shard tx) (hp : w.tasks.world.pending shard = none)
      (he : w.tasks.world.channels tx = .empty) (hu : w.transit tx = .unsent) (hr : tx ∉ w.routedAcks) :
      Stage w shard ((registerAndSend shard tx (w.batch shard)).bind finish)
  | registered {tx : Nat} (hc : CallOf w shard tx) (ha : Awaited w shard tx) :
      Stage w shard ((sendBatch shard tx (w.batch shard)).bind finish)
  | failed {tx : Nat} (hc : CallOf w shard tx) (hp : w.tasks.world.pending shard = some tx)
      (he : w.tasks.world.channels tx = .empty) (hu : w.transit tx = .unsent) :
      Stage w shard (.call (.remove shard) fun _ => .ret ())
  | awaiting {tx : Nat} (hc : CallOf w shard tx) (hu : w.transit tx ≠ .unsent) (ha : Awaited w shard tx) :
      Stage w shard ((Prog.req (Call.recv tx) : Task _).bind finish)

/-- The line acknowledges the message of a call that is still waiting for it. -/
structure Carries (w : Wire) (ack : Nat) (l : Line) : Prop where
  acked : w.transit ack = .acked
  unrouted : ack ∉ w.routedAcks
  line_eq : ∃ shard, CallOf w shard ack ∧ l = .message (.checkpoint shard (w.batch shard).lastSeq)

inductive Reading (w : Wire) : Task Unit → Prop where
  | line (hr : w.routing = none) : Reading w (reading readLine)
  | routing {ack : Nat} {shard : ShardId} {q : SequenceNumber} (hr : w.routing = some ack)
      (hc : Carries w ack (.message (.checkpoint shard q))) :
      Reading w (reading (.call (.route shard q) fun _ => .ret (.inl ())))
  | again (hr : w.routing = none) : Reading w (reading (.ret (.inl ())))

/-- What is known of the messages, the acks and the events, apart from where the tasks are. -/
structure Ledger (w : Wire) : Prop where
  opened : ∀ tx shard, w.caller tx = some shard → tx < w.tasks.world.fresh
  sent : ∀ tx, w.transit tx ≠ .unsent → ∃ shard, w.caller tx = some shard
  messages : ∀ tx b, w.transit tx = .inFlight b ∨ w.transit tx = .received b → CallOf w b.shard tx ∧ w.batch b.shard = b
  lines : ∀ l ack, (l, some ack) ∈ w.pipe → Carries w ack l
  others : ∀ l, (l, none) ∈ w.pipe → Harmless l
  distinct : w.onTheWay.Nodup
  underWay : ∀ ack ∈ w.onTheWay, w.transit ack = .acked ∧ ack ∉ w.routedAcks
  acked : ∀ tx, w.transit tx = .acked → tx ∈ w.routedAcks ∨ tx ∈ w.onTheWay
  ackedCalls : ∀ tx ∈ w.ackedCalls, w.transit tx = .acked
  ackedOnce : w.ackedCalls.Nodup
  routed : ∀ ack channel, .routed ack channel ∈ w.trace → channel = some ack
  routedAcks : ∀ ack ∈ w.routedAcks, w.transit ack = .acked ∧
    ((∃ b, .returned ack b (some b.lastSeq) ∈ w.trace) ∨ ∃ shard, CallOf w shard ack)
  routedOnce : w.routedAcks.Nodup
  returned : ∀ tx b q, .returned tx b (some q) ∈ w.trace → q = b.lastSeq ∧ tx ∈ w.routedAcks
  returnedCalls : ∀ tx ∈ w.returnedCalls, ∃ shard, w.caller tx = some shard
  returnedOnce : w.returnedCalls.Nodup

structure Inv (w : Wire) : Prop where
  reader : Reading w (w.tasks.procs none)
  stages : ∀ shard, Stage w shard (w.tasks.procs (some shard))
  ledger : Ledger w

/-! ## What a step leaves alone -/

/-- What is recorded of the calls of `shard`. -/
structure Alike (shard : ShardId) (w w' : Wire) : Prop where
  slot : w'.slot shard = w.slot shard
  batch : w'.batch shard = w.batch shard
  caller : ∀ tx, w'.caller tx = some shard ↔ w.caller tx = some shard
  transit : ∀ tx, w.caller tx = some shard → w'.transit tx = w.transit tx
  routedAcks : ∀ tx, w.caller tx = some shard → (tx ∈ w'.routedAcks ↔ tx ∈ w.routedAcks)
  returnedCalls : ∀ tx, w.caller tx = some shard → (tx ∈ w'.returnedCalls ↔ tx ∈ w.returnedCalls)

structure Same (shard : ShardId) (w w' : Wire) : Prop extends Alike shard w w' where
  pending : w'.tasks.world.pending shard = w.tasks.world.pending shard
  channels : ∀ tx, w.caller tx = some shard → w'.tasks.world.channels tx = w.tasks.world.channels tx

section
variable {w w' : Wire} {shard : ShardId} {tx : Nat} {l : Line}

theorem CallOf.alike (h : CallOf w shard tx) (hs : Alike shard w w') : CallOf w' shard tx where
  slot_eq := hs.slot.trans h.slot_eq
  caller_eq := (hs.caller tx).mpr h.caller_eq
  shard_eq := by rw [hs.batch, h.shard_eq]
  open_ := by rw [hs.returnedCalls tx h.caller_eq]; exact h.open_

theorem Awaited.same (h : Awaited w shard tx) (hc : w.caller tx = some shard) (hs : Same shard w w') :
    Awaited w' shard tx := by
  unfold Awaited
  rw [hs.pending, hs.channels tx hc, hs.routedAcks tx hc, hs.batch, hs.transit tx hc]
  exact h

theorem Between.same (h : Between w shard) (hs : Same shard w w') : Between w' shard where
  pending_eq := hs.pending.trans h.pending_eq
  closed hc := by
    rw [hs.slot] at hc ⊢
    have hc' := (hs.caller _).mp hc
    exact (hs.returnedCalls _ hc').mpr (h.closed hc')

theorem Stage.same {p : Task Unit} (h : Stage w shard p) (hs : Same shard w w') : Stage w' shard p := by
  cases h with
  | idle hb => exact .idle (hb.same hs)
  | entered hb he => exact .entered (hb.same hs) (hs.batch.trans he)
  | opened hc hp he hu hr =>
    rw [← hs.batch]
    refine .opened (hc.alike hs.toAlike) (hs.pending.trans hp) ((hs.channels _ hc.caller_eq).trans he)
      ((hs.transit _ hc.caller_eq).trans hu) ?_
    rw [hs.routedAcks _ hc.caller_eq]
    exact hr
  | registered hc ha =>
    rw [← hs.batch]
    exact .registered (hc.alike hs.toAlike) (ha.same hc.caller_eq hs)
  | failed hc hp he hu =>
    exact .failed (hc.alike hs.toAlike) (hs.pending.trans hp) ((hs.channels _ hc.caller_eq).trans he)
      ((hs.transit _ hc.caller_eq).trans hu)
  | awaiting hc hu ha =>
    refine .awaiting (hc.alike hs.toAlike) ?_ (ha.same hc.caller_eq hs)
    rw [hs.transit _ hc.caller_eq]
    exact hu

theorem Carries.alike {ack : Nat} (h : Carries w ack l) (hs : ∀ shard, CallOf w shard ack → Alike shard w w') :
    Carries w' ack l := by
  obtain ⟨shard, hc, hline⟩ := h.line_eq
  have hs' := hs shard hc
  refine ⟨(hs'.transit ack hc.caller_eq).trans h.acked, ?_, shard, hc.alike hs', ?_⟩
  · rw [hs'.routedAcks ack hc.caller_eq]
    exact h.unrouted
  · rw [hs'.batch]
    exact hline

theorem Reading.alike {p : Task Unit} (h : Reading w p) (hr : w'.routing = w.routing)
    (hs : ∀ ack shard, CallOf w shard ack → Alike shard w w') : Reading w' p := by
  cases h with
  | line h => exact .line (hr.trans h)
  | routing h hc => exact .routing (hr.trans h) (hc.alike (hs _))
  | again h => exact .again (hr.trans h)

theorem Between.no_call (h : Between w shard) : ¬ CallOf w shard tx := by
  intro hc
  refine hc.open_ ?_
  rw [← hc.slot_eq]
  exact h.closed (hc.slot_eq ▸ hc.caller_eq)

/-- A step that moves no message and no ack keeps the ledger if it keeps the calls that are under way. -/
theorem Ledger.alike (h : Ledger w) (ht : w'.transit = w.transit) (hp : w'.pipe = w.pipe) (hr : w'.routing = w.routing)
    (htr : w'.trace = w.trace) (hopen : ∀ tx shard, w'.caller tx = some shard → tx < w'.tasks.world.fresh)
    (hcaller : ∀ tx shard, w.caller tx = some shard → w'.caller tx = some shard)
    (hs : ∀ tx shard, CallOf w shard tx → Alike shard w w') : Ledger w' where
  opened := hopen
  sent tx hu := by
    rw [ht] at hu
    obtain ⟨shard, hc⟩ := h.sent tx hu
    exact ⟨shard, hcaller tx shard hc⟩
  messages tx b hm := by
    rw [ht] at hm
    obtain ⟨hc, hb⟩ := h.messages tx b hm
    have hs' := hs tx b.shard hc
    exact ⟨hc.alike hs', hs'.batch.trans hb⟩
  lines l ack hl := by
    rw [hp] at hl
    exact (h.lines l ack hl).alike (hs ack)
  others l hl := by
    rw [hp] at hl
    exact h.others l hl
  distinct := by
    unfold onTheWay
    rw [hp, hr]
    exact h.distinct
  underWay ack hm := by
    unfold onTheWay at hm
    unfold Wire.routedAcks
    rw [hp, hr] at hm
    rw [ht, htr]
    exact h.underWay ack hm
  acked tx ha := by
    unfold Wire.routedAcks onTheWay
    rw [hp, hr, htr]
    exact h.acked tx (ht ▸ ha)
  ackedCalls tx ha := by
    unfold Wire.ackedCalls at ha
    rw [htr] at ha
    rw [ht]
    exact h.ackedCalls tx ha
  ackedOnce := by
    unfold Wire.ackedCalls
    rw [htr]
    exact h.ackedOnce
  routed ack channel hm := h.routed ack channel (htr ▸ hm)
  routedAcks ack hm := by
    unfold Wire.routedAcks at hm
    rw [htr] at hm
    obtain ⟨ha, hb | ⟨shard, hc⟩⟩ := h.routedAcks ack hm
    · rw [ht, htr]
      exact ⟨ha, Or.inl hb⟩
    · rw [ht]
      exact ⟨ha, Or.inr ⟨shard, hc.alike (hs ack shard hc)⟩⟩
  routedOnce := by
    unfold Wire.routedAcks
    rw [htr]
    exact h.routedOnce
  returned tx b q hm := by
    unfold Wire.routedAcks
    rw [htr] at hm ⊢
    exact h.returned tx b q hm
  returnedCalls tx hm := by
    unfold Wire.returnedCalls at hm
    rw [htr] at hm
    obtain ⟨shard, hc⟩ := h.returnedCalls tx hm
    exact ⟨shard, hcaller tx shard hc⟩
  returnedOnce := by
    unfold Wire.returnedCalls
    rw [htr]
    exact h.returnedOnce

/-! ## Messages, acks and results -/

theorem CallOf.congr (h : CallOf w shard tx) (hs : w'.slot = w.slot) (hc : w'.caller = w.caller) (hb : w'.batch = w.batch)
    (hr : w'.returnedCalls = w.returnedCalls) : CallOf w' shard tx :=
  ⟨by rw [hs, h.slot_eq], by rw [hc, h.caller_eq], by rw [hb, h.shard_eq], by rw [hr]; exact h.open_⟩

theorem Carries.moves {ack : Nat} (h : Carries w ack l) {t : Tasks} {v : Transit} (hne : w.transit tx ≠ .acked) :
    Carries { w with tasks := t, transit := Function.update w.transit tx v } ack l := by
  have htx : ack ≠ tx := fun e => hne (e ▸ h.acked)
  obtain ⟨shard, hc, hline⟩ := h.line_eq
  exact ⟨by simpa [Function.update_of_ne htx] using h.acked, h.unrouted, shard, hc.congr rfl rfl rfl rfl, hline⟩

theorem Ledger.moves (h : Ledger w) {t : Tasks} (hf : t.world.fresh = w.tasks.world.fresh) {b : Batch} {v : Transit}
    (hne : w.transit tx ≠ .acked) (hc : CallOf w b.shard tx) (hb : w.batch b.shard = b) (hv : v = .inFlight b ∨ v = .received b) :
    Ledger { w with tasks := t, transit := Function.update w.transit tx v } where
  opened tx' shard hc' := by
    rw [hf]
    exact h.opened tx' shard hc'
  sent tx' hu := by
    by_cases htx : tx' = tx
    · exact ⟨b.shard, htx ▸ hc.caller_eq⟩
    · exact h.sent tx' (by simpa [Function.update_of_ne htx] using hu)
  messages tx' b' hm := by
    by_cases htx : tx' = tx
    · subst htx
      have hbb : b' = b := by
        simp only [Function.update_self] at hm
        rcases hv with rfl | rfl <;> simpa [eq_comm] using hm
      subst hbb
      exact ⟨hc.congr rfl rfl rfl rfl, hb⟩
    · obtain ⟨hc', hb'⟩ := h.messages tx' b' (by simpa [Function.update_of_ne htx] using hm)
      exact ⟨hc'.congr rfl rfl rfl rfl, hb'⟩
  lines l ack hl := (h.lines l ack hl).moves hne
  others := h.others
  distinct := h.distinct
  underWay ack hm := by
    obtain ⟨ha, hr⟩ := h.underWay ack hm
    have htx : ack ≠ tx := fun e => hne (e ▸ ha)
    exact ⟨by simpa [Function.update_of_ne htx] using ha, hr⟩
  acked tx' ha := by
    by_cases htx : tx' = tx
    · subst htx
      rcases hv with rfl | rfl <;> simp at ha
    · exact h.acked tx' (by simpa [Function.update_of_ne htx] using ha)
  ackedCalls tx' hm := by
    have htx : tx' ≠ tx := fun e => hne (e ▸ h.ackedCalls tx' hm)
    simpa [Function.update_of_ne htx] using h.ackedCalls tx' hm
  ackedOnce := h.ackedOnce
  routed := h.routed
  routedAcks ack hm := by
    obtain ⟨ha, hrest⟩ := h.routedAcks ack hm
    have htx : ack ≠ tx := fun e => hne (e ▸ ha)
    refine ⟨by simpa [Function.update_of_ne htx] using ha, hrest.imp id ?_⟩
    rintro ⟨shard, hc'⟩
    exact ⟨shard, hc'.congr rfl rfl rfl rfl⟩
  routedOnce := h.routedOnce
  returned := h.returned
  returnedCalls := h.returnedCalls
  returnedOnce := h.returnedOnce

theorem Carries.acks {ack : Nat} (h : Carries w ack l) {line : Line × Option Nat} (hne : w.transit tx ≠ .acked) :
    Carries { w with
      transit := Function.update w.transit tx .acked
      pipe := w.pipe ++ [line]
      trace := .acked tx :: w.trace } ack l := by
  have htx : ack ≠ tx := fun e => hne (e ▸ h.acked)
  obtain ⟨shard, hc, hline⟩ := h.line_eq
  exact ⟨by simpa [Function.update_of_ne htx] using h.acked, h.unrouted, shard, hc.congr rfl rfl rfl rfl, hline⟩

theorem Ledger.acks (h : Ledger w) {b : Batch} (hr : w.transit tx = .received b) :
    Ledger { w with
      transit := Function.update w.transit tx .acked
      pipe := w.pipe ++ [(.message (.checkpoint b.shard b.lastSeq), some tx)]
      trace := .acked tx :: w.trace } := by
  have hne : w.transit tx ≠ .acked := by
    rw [hr]
    simp
  have hnew : tx ∉ w.onTheWay := fun hm => hne (h.underWay tx hm).1
  have hunrouted : tx ∉ w.routedAcks := fun hm => hne (h.routedAcks tx hm).1
  obtain ⟨hc, hb⟩ := h.messages tx b (Or.inr hr)
  have hway : ∀ (l : Line), (Wire.onTheWay { w with
      transit := Function.update w.transit tx .acked
      pipe := w.pipe ++ [(l, some tx)]
      trace := .acked tx :: w.trace }) = w.onTheWay ++ [tx] := by
    intro l
    simp [onTheWay]
  refine
    { opened := h.opened
      sent := ?_
      messages := ?_
      lines := ?_
      others := ?_
      distinct := ?_
      underWay := ?_
      acked := ?_
      ackedCalls := ?_
      ackedOnce := ?_
      routed := ?_
      routedAcks := ?_
      routedOnce := h.routedOnce
      returned := ?_
      returnedCalls := h.returnedCalls
      returnedOnce := h.returnedOnce }
  · intro tx' hu
    by_cases htx : tx' = tx
    · exact ⟨b.shard, htx ▸ hc.caller_eq⟩
    · exact h.sent tx' (by simpa [Function.update_of_ne htx] using hu)
  · intro tx' b' hm
    have htx : tx' ≠ tx := by
      rintro rfl
      simp at hm
    obtain ⟨hc', hb'⟩ := h.messages tx' b' (by simpa [Function.update_of_ne htx] using hm)
    exact ⟨hc'.congr rfl rfl rfl rfl, hb'⟩
  · intro l ack hl
    rcases List.mem_append.mp hl with hl | hl
    · exact (h.lines l ack hl).acks hne
    · obtain ⟨rfl, hack⟩ := Prod.mk.inj (List.mem_singleton.mp hl)
      obtain rfl := Option.some.inj hack
      refine ⟨by simp, hunrouted, b.shard, hc.congr rfl rfl rfl rfl, ?_⟩
      simp only [hb]
  · intro l hl
    rcases List.mem_append.mp hl with hl | hl
    · exact h.others l hl
    · simp at hl
  · rw [hway]
    exact h.distinct.append (List.nodup_singleton _) (by simpa using hnew)
  · intro ack hm
    rw [hway] at hm
    by_cases htx : ack = tx
    · subst htx
      exact ⟨by simp, hunrouted⟩
    · obtain ⟨ha, hr'⟩ := h.underWay ack (by simpa [htx] using hm)
      exact ⟨by simpa [Function.update_of_ne htx] using ha, hr'⟩
  · intro tx' ha
    rw [hway]
    by_cases htx : tx' = tx
    · exact Or.inr (by simp [htx])
    · rcases h.acked tx' (by simpa [Function.update_of_ne htx] using ha) with hm | hm
      · exact Or.inl hm
      · exact Or.inr (List.mem_append_left _ hm)
  · intro tx' hm
    by_cases htx : tx' = tx
    · simp [htx]
    · have hm' : tx' ∈ w.ackedCalls := (List.mem_cons.mp hm).resolve_left htx
      simpa [Function.update_of_ne htx] using h.ackedCalls tx' hm'
  · exact List.nodup_cons.mpr ⟨fun hm => hne (h.ackedCalls tx hm), h.ackedOnce⟩
  · intro ack channel hm
    rcases List.mem_cons.mp hm with hm | hm
    · cases hm
    · exact h.routed ack channel hm
  · intro ack hm
    obtain ⟨ha, hrest⟩ := h.routedAcks ack hm
    have htx : ack ≠ tx := fun e => hne (e ▸ ha)
    refine ⟨by simpa [Function.update_of_ne htx] using ha, ?_⟩
    rcases hrest with ⟨b', hb'⟩ | ⟨shard, hc'⟩
    · exact Or.inl ⟨b', List.mem_cons_of_mem _ hb'⟩
    · exact Or.inr ⟨shard, hc'.congr rfl rfl rfl rfl⟩
  · intro tx' b' q hm
    rcases List.mem_cons.mp hm with hm | hm
    · cases hm
    · exact h.returned tx' b' q hm

theorem Ledger.writes (h : Ledger w) (hl : Harmless l) : Ledger { w with pipe := w.pipe ++ [(l, none)] } := by
  have hway : Wire.onTheWay { w with pipe := w.pipe ++ [(l, none)] } = w.onTheWay := by simp [onTheWay]
  have hcalls : ∀ {shard tx}, CallOf w shard tx → CallOf { w with pipe := w.pipe ++ [(l, none)] } shard tx :=
    fun hc => hc.congr rfl rfl rfl rfl
  refine { h with
    messages := ?_, lines := ?_, others := ?_, distinct := hway ▸ h.distinct, underWay := ?_, acked := ?_, routedAcks := ?_ }
  · intro tx b hm
    obtain ⟨hc, hb⟩ := h.messages tx b hm
    exact ⟨hcalls hc, hb⟩
  · intro l' ack hm
    have hm' : (l', some ack) ∈ w.pipe := by simpa using hm
    obtain ⟨ha, hu, shard, hc, hline⟩ := h.lines l' ack hm'
    exact ⟨ha, hu, shard, hcalls hc, hline⟩
  · intro l' hm
    rcases List.mem_append.mp hm with hm | hm
    · exact h.others l' hm
    · obtain ⟨rfl, _⟩ := Prod.mk.inj (List.mem_singleton.mp hm)
      exact hl
  · intro ack hm
    rw [hway] at hm
    exact h.underWay ack hm
  · intro tx ha
    rw [hway]
    exact h.acked tx ha
  · intro ack hm
    obtain ⟨ha, hrest⟩ := h.routedAcks ack hm
    exact ⟨ha, hrest.imp id fun ⟨shard, hc⟩ => ⟨shard, hcalls hc⟩⟩

theorem Ledger.reads (h : Ledger w) {t : Tasks} (hf : t.world.fresh = w.tasks.world.fresh) {ack : Option Nat}
    {rest : List (Line × Option Nat)} (hp : w.pipe = (l, ack) :: rest) (hr : w.routing = none) :
    Ledger { w with tasks := t, pipe := rest, routing := ack } := by
  have hway : Wire.onTheWay { w with tasks := t, pipe := rest, routing := ack } = w.onTheWay := by
    unfold onTheWay
    rw [hp, hr]
    cases ack <;> simp
  have hcalls : ∀ {shard tx}, CallOf w shard tx → CallOf { w with tasks := t, pipe := rest, routing := ack } shard tx :=
    fun hc => hc.congr rfl rfl rfl rfl
  have hmem : ∀ x, x ∈ rest → x ∈ w.pipe := fun x hx => hp ▸ List.mem_cons_of_mem _ hx
  refine { h with
    opened := ?_, messages := ?_, lines := ?_, others := ?_, distinct := hway ▸ h.distinct, underWay := ?_, acked := ?_,
    routedAcks := ?_ }
  · intro tx shard hc
    rw [hf]
    exact h.opened tx shard hc
  · intro tx b hm
    obtain ⟨hc, hb⟩ := h.messages tx b hm
    exact ⟨hcalls hc, hb⟩
  · intro l' ack' hm
    obtain ⟨ha, hu, shard, hc, hline⟩ := h.lines l' ack' (hmem _ hm)
    exact ⟨ha, hu, shard, hcalls hc, hline⟩
  · intro l' hm
    exact h.others l' (hmem _ hm)
  · intro ack' hm
    rw [hway] at hm
    exact h.underWay ack' hm
  · intro tx ha
    rw [hway]
    exact h.acked tx ha
  · intro ack' hm
    obtain ⟨ha, hrest⟩ := h.routedAcks ack' hm
    exact ⟨ha, hrest.imp id fun ⟨shard, hc⟩ => ⟨shard, hcalls hc⟩⟩

theorem Ledger.routes (h : Ledger w) {t : Tasks} (hf : t.world.fresh = w.tasks.world.fresh) {ack : Nat}
    (hr : w.routing = some ack) (hc : CallOf w shard ack) :
    Ledger { w with tasks := t, routing := none, trace := .routed ack (some ack) :: w.trace } := by
  have hway : w.onTheWay = ack :: w.pipe.filterMap Prod.snd := by
    unfold onTheWay
    rw [hr]
    rfl
  have hdistinct := h.distinct
  rw [hway, List.nodup_cons] at hdistinct
  obtain ⟨hacked, hunrouted⟩ := h.underWay ack (hway ▸ List.mem_cons_self)
  have hcalls : ∀ {shard tx}, CallOf w shard tx →
      CallOf { w with tasks := t, routing := none, trace := .routed ack (some ack) :: w.trace } shard tx :=
    fun hc => hc.congr rfl rfl rfl rfl
  have hnew : ∀ x, x ∈ w.pipe.filterMap Prod.snd → x ∉ w.routedAcks → x ∉ ack :: w.routedAcks := by
    intro x hx hu hm
    rcases List.mem_cons.mp hm with rfl | hm
    · exact hdistinct.1 hx
    · exact hu hm
  refine { h with
    opened := ?_, messages := ?_, lines := ?_, distinct := hdistinct.2, underWay := ?_, acked := ?_, routed := ?_,
    routedAcks := ?_, routedOnce := List.nodup_cons.mpr ⟨hunrouted, h.routedOnce⟩, returned := ?_ }
  · intro tx shard hc
    rw [hf]
    exact h.opened tx shard hc
  · intro tx b hm
    obtain ⟨hc', hb⟩ := h.messages tx b hm
    exact ⟨hcalls hc', hb⟩
  · intro l ack' hm
    obtain ⟨ha, hu, shard', hc', hline⟩ := h.lines l ack' hm
    exact ⟨ha, hnew ack' (List.mem_filterMap.mpr ⟨_, hm, rfl⟩) hu, shard', hcalls hc', hline⟩
  · intro ack' hm
    obtain ⟨ha, hu⟩ := h.underWay ack' (hway ▸ List.mem_cons_of_mem _ hm)
    exact ⟨ha, hnew ack' hm hu⟩
  · intro tx ha
    rcases h.acked tx ha with hm | hm
    · exact Or.inl (List.mem_cons_of_mem _ hm)
    · rw [hway] at hm
      rcases List.mem_cons.mp hm with rfl | hm
      · exact Or.inl List.mem_cons_self
      · exact Or.inr hm
  · intro ack' channel hm
    rcases List.mem_cons.mp hm with hm | hm
    · cases hm
      rfl
    · exact h.routed ack' channel hm
  · intro ack' hm
    rcases List.mem_cons.mp hm with rfl | hm
    · exact ⟨hacked, Or.inr ⟨shard, hcalls hc⟩⟩
    · obtain ⟨ha, hrest⟩ := h.routedAcks ack' hm
      refine ⟨ha, ?_⟩
      rcases hrest with ⟨b, hb⟩ | ⟨shard', hc'⟩
      · exact Or.inl ⟨b, List.mem_cons_of_mem _ hb⟩
      · exact Or.inr ⟨shard', hcalls hc'⟩
  · intro tx b q hm
    rcases List.mem_cons.mp hm with hm | hm
    · cases hm
    · obtain ⟨hq, hrouted⟩ := h.returned tx b q hm
      exact ⟨hq, List.mem_cons_of_mem _ hrouted⟩

theorem CallOf.returns {shard' : ShardId} {tx' : Nat} (h : CallOf w shard' tx') {t : Tasks} {b : Batch}
    {result : Option SequenceNumber} (hne : tx' ≠ tx) :
    CallOf { w with tasks := t, trace := .returned tx b result :: w.trace } shard' tx' := by
  refine ⟨h.slot_eq, h.caller_eq, h.shard_eq, ?_⟩
  intro hm
  rcases List.mem_cons.mp hm with he | hm
  · exact hne he
  · exact h.open_ hm

/-- What a call may return with: nothing if its message was not sent, else its own ack. -/
def MayReturn (w : Wire) (shard : ShardId) (tx : Nat) (result : Option SequenceNumber) : Prop :=
  (result = none ∧ w.transit tx = .unsent) ∨ (result = some (w.batch shard).lastSeq ∧ tx ∈ w.routedAcks)

theorem Carries.returns {ack : Nat} {result : Option SequenceNumber} (h : Carries w ack l) {t : Tasks} {b : Batch}
    (hres : MayReturn w shard tx result) :
    Carries { w with tasks := t, trace := .returned tx b result :: w.trace } ack l := by
  obtain ⟨ha, hu, shard', hc, hline⟩ := h
  refine ⟨ha, hu, shard', hc.returns ?_, hline⟩
  rintro rfl
  rcases hres with ⟨_, hu'⟩ | ⟨_, hrouted⟩
  · simp [hu'] at ha
  · exact hu hrouted

theorem Ledger.returns (h : Ledger w) {t : Tasks} (hf : t.world.fresh = w.tasks.world.fresh) (hc : CallOf w shard tx)
    {result : Option SequenceNumber} (hres : MayReturn w shard tx result) :
    Ledger { w with tasks := t, trace := .returned tx (w.batch shard) result :: w.trace } := by
  refine { h with
    opened := ?_, messages := ?_, lines := ?_, routed := ?_, routedAcks := ?_, returned := ?_, returnedCalls := ?_,
    returnedOnce := List.nodup_cons.mpr ⟨hc.open_, h.returnedOnce⟩ }
  · intro tx' shard' hc'
    rw [hf]
    exact h.opened tx' shard' hc'
  · intro tx' b hm
    obtain ⟨hc', hb⟩ := h.messages tx' b hm
    refine ⟨hc'.returns ?_, hb⟩
    rintro rfl
    rcases hres with ⟨_, hu⟩ | ⟨_, hrouted⟩
    · simp [hu] at hm
    · have ha := (h.routedAcks tx' hrouted).1
      simp [ha] at hm
  · intro l ack hm
    exact (h.lines l ack hm).returns hres
  · intro ack channel hm
    rcases List.mem_cons.mp hm with hm | hm
    · cases hm
    · exact h.routed ack channel hm
  · intro ack hm
    obtain ⟨ha, hrest⟩ := h.routedAcks ack hm
    refine ⟨ha, ?_⟩
    by_cases he : ack = tx
    · subst he
      rcases hres with ⟨_, hu⟩ | ⟨rfl, _⟩
      · rw [hu] at ha
        cases ha
      · exact Or.inl ⟨w.batch shard, List.mem_cons_self⟩
    · rcases hrest with ⟨b, hb⟩ | ⟨shard', hc'⟩
      · exact Or.inl ⟨b, List.mem_cons_of_mem _ hb⟩
      · exact Or.inr ⟨shard', hc'.returns he⟩
  · intro tx' b q hm
    rcases List.mem_cons.mp hm with hm | hm
    · obtain ⟨rfl, rfl, rfl⟩ := AckEvent.returned.inj hm
      rcases hres with ⟨hq, _⟩ | ⟨hq, hrouted⟩
      · cases hq
      · exact ⟨Option.some.inj hq, hrouted⟩
    · exact h.returned tx' b q hm
  · intro tx' hm
    rcases List.mem_cons.mp hm with he | hm
    · exact ⟨shard, he ▸ hc.caller_eq⟩
    · exact h.returnedCalls tx' hm

/-! ## One step -/

theorem inv_start : Inv start := by
  refine ⟨.line rfl, ?_, ?_⟩
  · intro shard
    refine .idle ⟨rfl, ?_⟩
    intro hc
    cases hc
  · refine
      { opened := ?_, sent := ?_, messages := ?_, lines := ?_, others := ?_, distinct := List.nodup_nil, underWay := ?_,
        acked := ?_, ackedCalls := ?_, ackedOnce := List.nodup_nil, routed := ?_, routedAcks := ?_,
        routedOnce := List.nodup_nil, returned := ?_, returnedCalls := ?_, returnedOnce := List.nodup_nil }
    all_goals simp [start, Wire.ackedCalls, Wire.routedAcks, Wire.returnedCalls, onTheWay]

theorem Inv.task {q : Task Unit} (hi : Inv w) (hprocs : w'.tasks.procs = Function.update w.tasks.procs (some shard) q)
    (hrouting : w'.routing = w.routing) (hstage : Stage w' shard q) (hledger : Ledger w')
    (hothers : ∀ other, other ≠ shard → Same other w w')
    (hcarries : ∀ ack l, Carries w ack l → Carries w' ack l) : Inv w' := by
  refine ⟨?_, ?_, hledger⟩
  · have hreader := hi.reader
    rw [hprocs, Function.update_of_ne (by simp)]
    generalize w.tasks.procs none = p at hreader ⊢
    cases hreader with
    | line h => exact .line (hrouting.trans h)
    | routing h hc => exact .routing (hrouting.trans h) (hcarries _ _ hc)
    | again h => exact .again (hrouting.trans h)
  · intro other
    rw [hprocs]
    by_cases h : other = shard
    · subst h
      rw [Function.update_self]
      exact hstage
    · rw [Function.update_of_ne (by simpa using h)]
      exact (hi.stages other).same (hothers other h)

theorem dropPending_none {s : Ipc} (h : s.pending shard = none) : s.dropPending shard = s := by
  unfold Ipc.dropPending
  rw [h]

theorem Inv.start_call (hi : Inv w) {t : Tasks} {q : SequenceNumber} {records : List Record}
    (h : w.tasks.step machine (.start (some shard) (q, records)) = some t) :
    Inv { w with tasks := t, batch := Function.update w.batch shard ⟨shard, q, records⟩ } := by
  have hstage := hi.stages shard
  simp only [Pool.step] at h
  generalize hp : w.tasks.procs (some shard) = p at h hstage
  cases hstage with
  | idle hb =>
    cases h
    have halike : ∀ other, other ≠ shard → Alike other w { w with
        tasks := ⟨w.tasks.world, Function.update w.tasks.procs (some shard) ((deliverBatch shard q records).bind finish)⟩
        batch := Function.update w.batch shard ⟨shard, q, records⟩ } := by
      intro other hne
      exact ⟨rfl, Function.update_of_ne hne _ _, fun _ => Iff.rfl, fun _ _ => rfl, fun _ _ => Iff.rfl, fun _ _ => Iff.rfl⟩
    have hne : ∀ ack other, CallOf w other ack → other ≠ shard := by
      rintro ack other hc rfl
      exact hb.no_call hc
    refine hi.task rfl rfl (.entered ⟨hb.pending_eq, hb.closed⟩ (Function.update_self _ _ _)) ?_ ?_ ?_
    · exact hi.ledger.alike rfl rfl rfl rfl hi.ledger.opened (fun _ _ hc => hc)
        fun ack other hc => halike other (hne ack other hc)
    · intro other hother
      exact ⟨halike other hother, rfl, fun _ _ => rfl⟩
    · intro ack l hcarries
      exact hcarries.alike fun other hc => halike other (hne ack other hc)
  | entered hb he => cases h
  | opened hc hp he hu hr => cases h
  | registered hc ha => cases h
  | failed hc hp he hu => cases h
  | awaiting hc hu ha => cases h

theorem CallOf.ne_of_caller {other : ShardId} {tx' : Nat} (h : CallOf w shard tx) (hc : w.caller tx' = some other)
    (hne : other ≠ shard) : tx' ≠ tx := by
  rintro rfl
  rw [h.caller_eq] at hc
  exact hne (Option.some.inj hc).symm

theorem Alike.tasks (other : ShardId) (w : Wire) (t : Tasks) : Alike other w { w with tasks := t } :=
  ⟨rfl, rfl, fun _ => Iff.rfl, fun _ _ => rfl, fun _ _ => Iff.rfl, fun _ _ => Iff.rfl⟩

theorem Ledger.tasks (h : Ledger w) {t : Tasks} (hf : t.world.fresh = w.tasks.world.fresh) : Ledger { w with tasks := t } := by
  refine h.alike rfl rfl rfl rfl ?_ (fun _ _ hc => hc) fun _ other _ => .tasks other w t
  intro tx shard hc
  rw [hf]
  exact h.opened tx shard hc

theorem Inv.opens (hi : Inv w) (hb : Between w shard) (hs : (w.batch shard).shard = shard) :
    Inv { w with
      tasks := ⟨{ w.tasks.world with
          channels := Function.update w.tasks.world.channels w.tasks.world.fresh .empty
          fresh := w.tasks.world.fresh + 1 },
        Function.update w.tasks.procs (some shard)
          ((registerAndSend shard w.tasks.world.fresh (w.batch shard)).bind finish)⟩
      slot := Function.update w.slot shard w.tasks.world.fresh
      caller := Function.update w.caller w.tasks.world.fresh (some shard) } := by
  have hfresh : ∀ tx other, w.caller tx = some other → tx ≠ w.tasks.world.fresh := by
    intro tx other hc
    exact Nat.ne_of_lt (hi.ledger.opened tx other hc)
  have hunsent : w.transit w.tasks.world.fresh = .unsent := by
    by_contra hu
    obtain ⟨other, hc⟩ := hi.ledger.sent _ hu
    exact hfresh _ other hc rfl
  have hunrouted : w.tasks.world.fresh ∉ w.routedAcks := by
    intro hm
    have ha := (hi.ledger.routedAcks _ hm).1
    rw [hunsent] at ha
    cases ha
  have hopen : w.tasks.world.fresh ∉ w.returnedCalls := by
    intro hm
    obtain ⟨other, hc⟩ := hi.ledger.returnedCalls _ hm
    exact hfresh _ other hc rfl
  have hsame : ∀ other, other ≠ shard → Same other w { w with
      tasks := ⟨{ w.tasks.world with
          channels := Function.update w.tasks.world.channels w.tasks.world.fresh .empty
          fresh := w.tasks.world.fresh + 1 },
        Function.update w.tasks.procs (some shard)
          ((registerAndSend shard w.tasks.world.fresh (w.batch shard)).bind finish)⟩
      slot := Function.update w.slot shard w.tasks.world.fresh
      caller := Function.update w.caller w.tasks.world.fresh (some shard) } := by
    intro other hne
    refine ⟨⟨Function.update_of_ne hne _ _, rfl, ?_, fun _ _ => rfl, fun _ _ => Iff.rfl, fun _ _ => Iff.rfl⟩, rfl, ?_⟩
    · intro tx
      by_cases htx : tx = w.tasks.world.fresh
      · subst htx
        simp only [Function.update_self, Option.some.injEq]
        exact ⟨fun e => absurd e.symm hne, fun hc => absurd rfl (hfresh _ other hc)⟩
      · simp only [Function.update_of_ne htx]
    · intro tx hc
      exact Function.update_of_ne (hfresh tx other hc) _ _
  have hne : ∀ ack other, CallOf w other ack → other ≠ shard := by
    rintro ack other hc rfl
    exact hb.no_call hc
  refine hi.task rfl rfl (.opened ?_ hb.pending_eq (Function.update_self _ _ _) hunsent hunrouted) ?_ hsame ?_
  · exact ⟨Function.update_self _ _ _, Function.update_self _ _ _, hs, hopen⟩
  · refine hi.ledger.alike rfl rfl rfl rfl ?_ ?_ fun ack other hc => (hsame other (hne ack other hc)).toAlike
    · intro tx other hc
      by_cases htx : tx = w.tasks.world.fresh
      · rw [htx]
        exact Nat.lt_succ_self _
      · have hc' : w.caller tx = some other := by simpa [Function.update_of_ne htx] using hc
        exact Nat.lt_succ_of_lt (hi.ledger.opened tx other hc')
    · intro tx other hc
      rw [← hc]
      exact Function.update_of_ne (hfresh tx other hc) _ _
  · intro ack l hcarries
    exact hcarries.alike fun other hc => (hsame other (hne ack other hc)).toAlike

theorem Inv.registers (hi : Inv w) (hc : CallOf w shard tx) (hp : w.tasks.world.pending shard = none)
    (he : w.tasks.world.channels tx = .empty) (hr : tx ∉ w.routedAcks) :
    Inv { w with
      tasks := ⟨{ w.tasks.world.dropPending shard with
          pending := Function.update w.tasks.world.pending shard (some tx) },
        Function.update w.tasks.procs (some shard) ((sendBatch shard tx (w.batch shard)).bind finish)⟩ } := by
  rw [dropPending_none hp]
  have hawaited : Awaited { w with
      tasks := ⟨{ w.tasks.world with pending := Function.update w.tasks.world.pending shard (some tx) },
        Function.update w.tasks.procs (some shard) ((sendBatch shard tx (w.batch shard)).bind finish)⟩ } shard tx :=
    Or.inl ⟨Function.update_self _ _ _, he, hr⟩
  refine hi.task rfl rfl (.registered (hc.alike (.tasks shard w _)) hawaited) (hi.ledger.tasks rfl) ?_ ?_
  · intro other hne
    exact ⟨.tasks other w _, Function.update_of_ne hne _ _, fun _ _ => rfl⟩
  · intro ack l hcarries
    exact hcarries.alike fun other _ => .tasks other w _

theorem Inv.sends (hi : Inv w) (hc : CallOf w shard tx) (hu : w.transit tx = .unsent) (ha : Awaited w shard tx) {v : Transit}
    (hv : v = .inFlight (w.batch shard) ∨ v = .received (w.batch shard)) {q : Task Unit}
    (hq : q = (sendBatch shard tx (w.batch shard)).bind finish ∨ q = (Prog.req (Call.recv tx) : Task _).bind finish) :
    Inv { w with
      tasks := ⟨w.tasks.world, Function.update w.tasks.procs (some shard) q⟩
      transit := Function.update w.transit tx v } := by
  have hne : w.transit tx ≠ .acked := by
    rw [hu]
    simp
  have hwaits : Awaited { w with
      tasks := ⟨w.tasks.world, Function.update w.tasks.procs (some shard) q⟩
      transit := Function.update w.transit tx v } shard tx := by
    rcases ha with ha | ⟨_, _, ha, _⟩
    · exact Or.inl ha
    · exact absurd ha hne
  have hc' : CallOf { w with
      tasks := ⟨w.tasks.world, Function.update w.tasks.procs (some shard) q⟩
      transit := Function.update w.transit tx v } shard tx := hc.congr rfl rfl rfl rfl
  refine hi.task rfl rfl ?_ ?_ ?_ fun ack l hcarries => hcarries.moves hne
  · rcases hq with rfl | rfl
    · exact .registered hc' hwaits
    · refine .awaiting hc' ?_ hwaits
      simp only [Function.update_self]
      rcases hv with rfl | rfl <;> simp
  · refine hi.ledger.moves ?_ hne (by rw [hc.shard_eq]; exact hc) (by rw [hc.shard_eq]) hv
    rfl
  · intro other hother
    refine ⟨⟨rfl, rfl, fun _ => Iff.rfl, ?_, fun _ _ => Iff.rfl, fun _ _ => Iff.rfl⟩, rfl, fun _ _ => rfl⟩
    intro tx' hcaller
    exact Function.update_of_ne (hc.ne_of_caller hcaller hother) _ _

theorem Inv.proceeds (hi : Inv w) {q : Task Unit}
    (hq : Stage { w with tasks := ⟨w.tasks.world, Function.update w.tasks.procs (some shard) q⟩ } shard q) :
    Inv { w with tasks := ⟨w.tasks.world, Function.update w.tasks.procs (some shard) q⟩ } := by
  refine hi.task rfl rfl hq (hi.ledger.tasks rfl) ?_ ?_
  · intro other _
    exact ⟨.tasks other w _, rfl, fun _ _ => rfl⟩
  · intro ack l hcarries
    exact hcarries.alike fun other _ => .tasks other w _

theorem Inv.finishes (hi : Inv w) (hc : CallOf w shard tx) {s : Ipc} (hpending : s.pending = Function.update w.tasks.world.pending shard none)
    (hchannels : ∀ tx', tx' ≠ tx → s.channels tx' = w.tasks.world.channels tx') (hfresh : s.fresh = w.tasks.world.fresh)
    {result : Option SequenceNumber} (hres : MayReturn w shard tx result) :
    Inv { w with
      tasks := ⟨s, Function.update w.tasks.procs (some shard) (.ret ())⟩
      trace := .returned tx (w.batch shard) result :: w.trace } := by
  refine hi.task rfl rfl (.idle ⟨?_, ?_⟩) (hi.ledger.returns hfresh hc hres) ?_ fun ack l hcarries => hcarries.returns hres
  · simp only [hpending, Function.update_self]
  · intro _
    show w.slot shard ∈ tx :: w.returnedCalls
    rw [hc.slot_eq]
    exact List.mem_cons_self
  · intro other hne
    have hmem : ∀ tx', w.caller tx' = some other → (tx' ∈ tx :: w.returnedCalls ↔ tx' ∈ w.returnedCalls) := by
      intro tx' hcaller
      have htx := hc.ne_of_caller hcaller hne
      simp [htx]
    refine ⟨⟨rfl, rfl, fun _ => Iff.rfl, fun _ _ => rfl, fun _ _ => Iff.rfl, hmem⟩, ?_, ?_⟩
    · simp only [hpending]
      exact Function.update_of_ne hne _ _
    · intro tx' hcaller
      exact hchannels tx' (hc.ne_of_caller hcaller hne)

theorem Inv.call_task {t : Tasks} {π : List Nat} {c : Choice} {x : (r : Call) × (Answer r → Task Unit)} (hi : Inv w)
    (hf : (w.tasks.procs (some shard)).focus π = some x) (hs : c = .sent false → w.transit (w.slot shard) = .unsent)
    (h : w.tasks.step machine (.call (some shard) π c) = some t) : Inv (w.observe shard t x.1 c) := by
  have hstage := hi.stages shard
  simp only [Pool.step] at h
  generalize w.tasks.procs (some shard) = p at h hf hstage
  cases hstage with
  | idle hb => cases h
  | entered hb he =>
    cases hf
    cases c <;> cases h
    have hopens := hi.opens hb (by rw [he])
    rw [he] at hopens
    exact hopens
  | opened hc hp he hu hr =>
    cases hf
    cases c <;> cases h
    exact hi.registers hc hp he hr
  | @registered tx hc ha =>
    cases hf
    cases c with
    | sent ok =>
      cases ok with
      | true =>
        cases h
        simp only [observe]
        split
        next hu =>
          rw [hc.slot_eq] at hu ⊢
          exact hi.sends hc hu ha (Or.inl rfl) (Or.inr rfl)
        next hu =>
          rw [hc.slot_eq] at hu
          refine hi.proceeds (.awaiting (hc.alike (.tasks shard w _)) hu ?_)
          exact ha.same hc.caller_eq ⟨.tasks shard w _, rfl, fun _ _ => rfl⟩
      | false =>
        cases h
        have hu : w.transit tx = .unsent := hc.slot_eq ▸ hs rfl
        obtain ⟨hpend, hempty, _⟩ : w.tasks.world.pending shard = some tx ∧ w.tasks.world.channels tx = .empty ∧
            tx ∉ w.routedAcks := by
          rcases ha with ha | ⟨_, _, hacked, _⟩
          · exact ha
          · rw [hu] at hacked
            cases hacked
        exact hi.proceeds (.failed (hc.alike (.tasks shard w _)) hpend hempty hu)
    | _ => cases h
  | @failed tx hc hpend he hu =>
    cases hf
    cases c <;> cases h
    simp only [observe]
    rw [hc.slot_eq]
    refine hi.finishes hc ?_ ?_ ?_ (Or.inl ⟨rfl, hu⟩)
    · rfl
    · intro tx' hne
      simp only [Ipc.dropPending, hpend, Ipc.dropTx, he, if_true]
      exact Function.update_of_ne hne _ _
    · exact dropPending_fresh
  | @awaiting tx hc hu ha =>
    cases hf
    cases c with
    | done =>
      rcases ha with ⟨_, hempty, _⟩ | ⟨hpend, hsent, _, hrouted⟩
      · simp [Prog.focus, Prog.req, Prog.bind, machine, exec, hempty] at h
      · have ht : t = ⟨w.tasks.world, Function.update w.tasks.procs (some shard) (.ret ())⟩ := by
          simpa [Prog.focus, Prog.req, Prog.bind, machine, exec, hsent, finish] using h.symm
        rw [ht]
        simp only [observe]
        rw [hc.slot_eq, hsent]
        refine hi.finishes hc ?_ (fun _ _ => rfl) rfl (Or.inr ⟨rfl, hrouted⟩)
        exact (Function.update_eq_self_iff.mpr hpend.symm).symm
    | _ => cases h

/-! ### The reader -/

theorem Inv.read {q : Task Unit} (hprocs : w'.tasks.procs = Function.update w.tasks.procs none q)
    (hq : Reading w' q) (hledger : Ledger w') (hstages : ∀ shard, Stage w' shard (w.tasks.procs (some shard))) : Inv w' := by
  refine ⟨?_, ?_, hledger⟩
  · rw [hprocs, Function.update_self]
    exact hq
  · intro shard
    rw [hprocs, Function.update_of_ne (by simp)]
    exact hstages shard

theorem Inv.line {t : Tasks} {π : List Nat} {ack : Option Nat} {rest : List (Line × Option Nat)} (hi : Inv w)
    (hp : w.pipe = (l, ack) :: rest) (h : w.tasks.step machine (.call none π (.line l)) = some t) :
    Inv { w with tasks := t, pipe := rest, routing := ack } := by
  have hreader := hi.reader
  have hmem : (l, ack) ∈ w.pipe := hp ▸ List.mem_cons_self
  simp only [Pool.step] at h
  generalize w.tasks.procs none = p at h hreader
  have hstages : ∀ (t : Tasks), t.world.pending = w.tasks.world.pending → t.world.channels = w.tasks.world.channels →
      ∀ shard, Stage { w with tasks := t, pipe := rest, routing := ack } shard (w.tasks.procs (some shard)) := by
    intro t hpend hchan shard
    refine (hi.stages shard).same ⟨⟨rfl, rfl, fun _ => Iff.rfl, fun _ _ => rfl, fun _ _ => Iff.rfl, fun _ _ => Iff.rfl⟩, ?_, ?_⟩
    · simp only [hpend]
    · intro tx _
      simp only [hchan]
  cases hreader with
  | line hr =>
    have hledger : ∀ (t : Tasks), t.world.fresh = w.tasks.world.fresh → Ledger { w with tasks := t, pipe := rest, routing := ack } :=
      fun t hf => hi.ledger.reads hf hp hr
    cases ack with
    | some ack =>
      have hcarries := hi.ledger.lines l ack hmem
      obtain ⟨shard, hc, rfl⟩ := hcarries.line_eq
      cases h
      refine Inv.read (w := w) rfl (.routing rfl ?_) (hledger _ rfl) (hstages _ rfl rfl)
      exact ⟨hcarries.acked, hcarries.unrouted, shard, hc.congr rfl rfl rfl rfl, rfl⟩
    | none =>
      -- lines that acknowledge nothing are skipped
      rcases hi.ledger.others l hmem with rfl | rfl | rfl
      · cases h
        exact Inv.read (w := w) rfl (.again rfl) (hledger _ rfl) (hstages _ rfl rfl)
      · cases h
        exact Inv.read (w := w) rfl (.again rfl) (hledger _ rfl) (hstages _ rfl rfl)
      · cases h
        exact Inv.read (w := w) rfl (.again rfl) (hledger _ rfl) (hstages _ rfl rfl)
  | routing hr hc => cases h
  | again hr => cases h

def Delivering (w : Wire) (shard : ShardId) (tx : Nat) (p : Task Unit) : Prop :=
  p = (sendBatch shard tx (w.batch shard)).bind finish ∨ p = (Prog.req (Call.recv tx) : Task _).bind finish

theorem Stage.delivering {p : Task Unit} (h : Stage w shard p) (hc : CallOf w shard tx) (hu : w.transit tx ≠ .unsent) :
    Delivering w shard tx p ∧ Awaited w shard tx := by
  have htx : ∀ {tx'}, CallOf w shard tx' → tx' = tx := fun hc' => hc'.slot_eq.symm.trans hc.slot_eq
  cases h with
  | idle hb => exact absurd hc hb.no_call
  | entered hb he => exact absurd hc hb.no_call
  | opened hc' hp he hu' hr =>
    rw [htx hc'] at hu'
    exact absurd hu' hu
  | registered hc' ha =>
    rw [htx hc'] at ha ⊢
    exact ⟨Or.inl rfl, ha⟩
  | failed hc' hp he hu' =>
    rw [htx hc'] at hu'
    exact absurd hu' hu
  | awaiting hc' hu' ha =>
    rw [htx hc'] at ha ⊢
    exact ⟨Or.inr rfl, ha⟩

theorem Delivering.stage {p : Task Unit} (h : Delivering w shard tx p) (hb : w'.batch shard = w.batch shard)
    (hc : CallOf w' shard tx) (hu : w'.transit tx ≠ .unsent) (ha : Awaited w' shard tx) : Stage w' shard p := by
  rcases h with rfl | rfl
  · rw [← hb]
    exact .registered hc ha
  · exact .awaiting hc hu ha

theorem Inv.route {t : Tasks} {π : List Nat} {q : SequenceNumber} {k : Unit → Task Unit} (hi : Inv w)
    (hf : (w.tasks.procs none).focus π = some ⟨.route shard q, k⟩)
    (h : w.tasks.step machine (.call none π .done) = some t) :
    Inv { w with
      tasks := t
      routing := none
      trace := (w.routing.map fun ack => AckEvent.routed ack (w.tasks.world.pending shard)).toList ++ w.trace } := by
  have hreader := hi.reader
  simp only [Pool.step] at h
  generalize w.tasks.procs none = p at h hf hreader
  cases hreader with
  | line hr => cases hf
  | again hr => cases hf
  | @routing ack shard' q' hr hcarries =>
    cases hf
    obtain ⟨hacked, hunrouted, shard', hc, hline⟩ := hcarries
    obtain ⟨rfl, rfl⟩ : shard = shard' ∧ q = (w.batch shard').lastSeq := by simpa using hline
    have hu : w.transit ack ≠ .unsent := by
      rw [hacked]
      simp
    obtain ⟨hdelivering, hawaited⟩ := (hi.stages shard).delivering hc hu
    obtain ⟨hpend, _, _⟩ := hawaited.resolve_right fun hr => hunrouted hr.2.2.2
    have ht : t = ⟨{ w.tasks.world with
        pending := Function.update w.tasks.world.pending shard none
        channels := Function.update w.tasks.world.channels ack (.sent (w.batch shard).lastSeq) },
        Function.update w.tasks.procs none (reading (.ret (.inl ())))⟩ := by
      simpa [Prog.focus, machine, exec, hpend, reading] using h.symm
    subst ht
    rw [hr, hpend]
    refine Inv.read (w := w) rfl (.again rfl) (hi.ledger.routes ?_ hr hc) ?_
    · rfl
    intro other
    by_cases hother : other = shard
    · subst hother
      refine hdelivering.stage rfl (hc.congr rfl rfl rfl rfl) hu (Or.inr ?_)
      exact ⟨Function.update_self _ _ _, Function.update_self _ _ _, hacked, List.mem_cons_self⟩
    · refine (hi.stages other).same ⟨⟨rfl, rfl, fun _ => Iff.rfl, fun _ _ => rfl, ?_, fun _ _ => Iff.rfl⟩, ?_, ?_⟩
      · intro tx hcaller
        have htx := hc.ne_of_caller hcaller hother
        show tx ∈ ack :: w.routedAcks ↔ tx ∈ w.routedAcks
        simp [htx]
      · exact Function.update_of_ne hother _ _
      · intro tx hcaller
        exact Function.update_of_ne (hc.ne_of_caller hcaller hother) _ _

theorem Inv.silent {t : Tasks} {v : Option ShardId} {π : List Nat} (hi : Inv w)
    (h : w.tasks.step machine (.silent v π) = some t) : Inv { w with tasks := t } := by
  simp only [Pool.step] at h
  cases v with
  | none =>
    have hreader := hi.reader
    generalize w.tasks.procs none = p at h hreader
    cases hreader with
    | line hr => cases h
    | routing hr hc => cases h
    | again hr =>
      cases h
      refine Inv.read (w := w) rfl (.line hr) (hi.ledger.tasks rfl) ?_
      intro shard
      exact (hi.stages shard).same ⟨.tasks shard w _, rfl, fun _ _ => rfl⟩
  | some shard =>
    have hstage := hi.stages shard
    generalize w.tasks.procs (some shard) = p at h hstage
    cases hstage <;> cases h

/-! ### The client -/

theorem Inv.client (hi : Inv w) (hc : CallOf w shard tx) (hu : w.transit tx ≠ .unsent) (hna : w.transit tx ≠ .acked)
    (htasks : w'.tasks = w.tasks) (hrouting : w'.routing = w.routing) (hcall : CallOf w' shard tx)
    (hbatch : w'.batch shard = w.batch shard) (hu' : w'.transit tx ≠ .unsent) (hrouted : w'.routedAcks = w.routedAcks)
    (hledger : Ledger w') (hothers : ∀ other, other ≠ shard → Alike other w w')
    (hcarries : ∀ ack l, Carries w ack l → Carries w' ack l) : Inv w' := by
  obtain ⟨hdelivering, hawaited⟩ := (hi.stages shard).delivering hc hu
  have hwaits := hawaited.resolve_right fun h => hna h.2.2.1
  refine hi.task ?_ hrouting (hdelivering.stage hbatch hcall hu' (Or.inl ?_)) hledger ?_ hcarries
  · rw [htasks, Function.update_eq_self]
  · rw [htasks, hrouted]
    exact hwaits
  · intro other hne
    refine ⟨hothers other hne, by rw [htasks], ?_⟩
    intro _ _
    rw [htasks]

theorem Inv.receiveEarly {π : List Nat} {msg : Batch} {k : Bool → Task Unit} (hi : Inv w)
    (hf : (w.tasks.procs (some shard)).focus π = some ⟨.send msg, k⟩) (hu : w.transit (w.slot shard) = .unsent) :
    Inv { w with transit := Function.update w.transit (w.slot shard) (.received msg) } := by
  have hstage := hi.stages shard
  generalize hp : w.tasks.procs (some shard) = p at hf hstage
  cases hstage with
  | registered hc ha =>
    cases hf
    rw [hc.slot_eq] at hu ⊢
    have hsends := hi.sends hc hu ha (Or.inr rfl) (Or.inl rfl)
    rw [← hp, Function.update_eq_self] at hsends
    exact hsends
  | _ => cases hf

theorem Inv.receive {b : Batch} (hi : Inv w) (h : w.transit tx = .inFlight b) :
    Inv { w with transit := Function.update w.transit tx (.received b) } := by
  obtain ⟨hc, hb⟩ := hi.ledger.messages tx b (Or.inl h)
  have hna : w.transit tx ≠ .acked := by
    rw [h]
    simp
  refine hi.client hc ?_ hna rfl rfl (hc.congr rfl rfl rfl rfl) rfl ?_ rfl (hi.ledger.moves rfl hna hc hb (Or.inr rfl)) ?_
    fun ack l hcarries => hcarries.moves hna
  · rw [h]
    simp
  · simp
  · intro other hne
    refine ⟨rfl, rfl, fun _ => Iff.rfl, ?_, fun _ _ => Iff.rfl, fun _ _ => Iff.rfl⟩
    intro tx' hcaller
    exact Function.update_of_ne (hc.ne_of_caller hcaller hne) _ _

theorem Inv.ack {b : Batch} (hi : Inv w) (h : w.transit tx = .received b) :
    Inv { w with
      transit := Function.update w.transit tx .acked
      pipe := w.pipe ++ [(.message (.checkpoint b.shard b.lastSeq), some tx)]
      trace := .acked tx :: w.trace } := by
  obtain ⟨hc, _⟩ := hi.ledger.messages tx b (Or.inr h)
  have hna : w.transit tx ≠ .acked := by
    rw [h]
    simp
  refine hi.client hc ?_ hna rfl rfl (hc.congr rfl rfl rfl rfl) rfl ?_ rfl (hi.ledger.acks h) ?_
    fun ack l hcarries => hcarries.acks hna
  · rw [h]
    simp
  · simp
  · intro other hne
    refine ⟨rfl, rfl, fun _ => Iff.rfl, ?_, fun _ _ => Iff.rfl, fun _ _ => Iff.rfl⟩
    intro tx' hcaller
    exact Function.update_of_ne (hc.ne_of_caller hcaller hne) _ _

theorem Inv.write (hi : Inv w) (h : Harmless l) : Inv { w with pipe := w.pipe ++ [(l, none)] } := by
  have halike : ∀ shard, Alike shard w { w with pipe := w.pipe ++ [(l, none)] } := fun shard =>
    ⟨rfl, rfl, fun _ => Iff.rfl, fun _ _ => rfl, fun _ _ => Iff.rfl, fun _ _ => Iff.rfl⟩
  refine ⟨hi.reader.alike rfl fun _ shard _ => halike shard, ?_, hi.ledger.writes h⟩
  intro shard
  exact (hi.stages shard).same ⟨halike shard, rfl, fun _ _ => rfl⟩

theorem Inv.step (hi : Inv w) (h : Step w w') : Inv w' := by
  cases h with
  | start h => exact hi.start_call h
  | task hf hs h => exact hi.call_task hf hs h
  | line hp h => exact hi.line hp h
  | route hf h => exact hi.route hf h
  | silent h => exact hi.silent h
  | receiveEarly hf hu => exact hi.receiveEarly hf hu
  | receive h => exact hi.receive h
  | ack h => exact hi.ack h
  | write h => exact hi.write h

theorem Reached.inv (h : Reached w) : Inv w := by
  induction h with
  | start => exact inv_start
  | step _ hs ih => exact ih.step hs

/-! ## Acks reach their batches -/

/-- The ack is written, and its call waits for it. -/
def Expected (w : Wire) (ack : Nat) : Prop :=
  ack ∈ w.onTheWay ∧ ∃ shard, CallOf w shard ack ∧ w.tasks.world.pending shard = some ack ∧
    w.tasks.world.channels ack = .empty

/-- The ack was routed to its own call, which has returned with it or finds it in its channel. -/
def HandedOver (w : Wire) (ack : Nat) : Prop :=
  .routed ack (some ack) ∈ w.trace ∧ ((∃ b, .returned ack b (some b.lastSeq) ∈ w.trace) ∨
    ∃ shard, CallOf w shard ack ∧ w.tasks.world.channels ack = .sent (w.batch shard).lastSeq)

/-- The call got this ack through its channel, and returned with it. -/
def Consumes (w : Wire) (call ack : Nat) : Prop :=
  .routed ack (some call) ∈ w.trace ∧ ∃ b q, .returned call b (some q) ∈ w.trace

theorem Ledger.routed_mem (h : Ledger w) {ack : Nat} (hm : ack ∈ w.routedAcks) : .routed ack (some ack) ∈ w.trace := by
  obtain ⟨e, he, hack⟩ := List.mem_filterMap.mp hm
  cases e with
  | routed ack' channel =>
    obtain rfl := Option.some.inj hack
    obtain rfl := h.routed _ _ he
    exact he
  | acked call => cases hack
  | returned call b result => cases hack

theorem Inv.expected (hi : Inv w) {ack : Nat} (hm : ack ∈ w.onTheWay) : Expected w ack := by
  obtain ⟨hacked, hunrouted⟩ := hi.ledger.underWay ack hm
  have hcall : ∃ shard, CallOf w shard ack := by
    unfold onTheWay at hm
    rcases List.mem_append.mp hm with hm | hm
    · have hr : w.routing = some ack := by simpa using hm
      have hreader := hi.reader
      generalize w.tasks.procs none = p at hreader
      cases hreader with
      | line hr' => simp [hr'] at hr
      | again hr' => simp [hr'] at hr
      | routing hr' hcarries =>
        obtain rfl := Option.some.inj (hr'.symm.trans hr)
        obtain ⟨shard, hc, _⟩ := hcarries.line_eq
        exact ⟨shard, hc⟩
    · obtain ⟨⟨l, a⟩, hl, rfl⟩ := List.mem_filterMap.mp hm
      obtain ⟨shard, hc, _⟩ := (hi.ledger.lines l ack hl).line_eq
      exact ⟨shard, hc⟩
  obtain ⟨shard, hc⟩ := hcall
  have hu : w.transit ack ≠ .unsent := by
    rw [hacked]
    simp
  obtain ⟨_, hawaited⟩ := (hi.stages shard).delivering hc hu
  obtain ⟨hpend, hempty, _⟩ := hawaited.resolve_right fun h => hunrouted h.2.2.2
  exact ⟨hm, shard, hc, hpend, hempty⟩

theorem Inv.handedOver (hi : Inv w) {ack : Nat} (hm : ack ∈ w.routedAcks) : HandedOver w ack := by
  refine ⟨hi.ledger.routed_mem hm, ?_⟩
  obtain ⟨hacked, hreturned | ⟨shard, hc⟩⟩ := hi.ledger.routedAcks ack hm
  · exact Or.inl hreturned
  · have hu : w.transit ack ≠ .unsent := by
      rw [hacked]
      simp
    obtain ⟨_, hawaited⟩ := (hi.stages shard).delivering hc hu
    obtain ⟨_, hsent, _⟩ := hawaited.resolve_left fun h => h.2.2 hm
    exact Or.inr ⟨shard, hc, hsent⟩

end

/-- In every run of the shard tasks, the reader and a conforming client: a call that returns an ack returns the last
sequence number of its own batch; an ack that the client has written waits in the pipe for a call that waits for it,
or was handed to that call; and no ack is routed twice or consumed by two calls. -/
theorem acks_reach_their_batch {w : Wire} (h : Reached w) :
    (∀ call b q, .returned call b (some q) ∈ w.trace → q = b.lastSeq ∧ Consumes w call call) ∧
      (∀ ack ∈ w.ackedCalls, Expected w ack ∨ HandedOver w ack) ∧
      (∀ call call' ack, Consumes w call ack → Consumes w call' ack → call = call') ∧
      w.routedAcks.Nodup ∧ w.returnedCalls.Nodup := by
  have hi := h.inv
  refine ⟨?_, ?_, ?_, hi.ledger.routedOnce, hi.ledger.returnedOnce⟩
  · intro call b q hm
    obtain ⟨hq, hrouted⟩ := hi.ledger.returned call b q hm
    exact ⟨hq, hi.ledger.routed_mem hrouted, b, q, hm⟩
  · intro ack hm
    rcases hi.ledger.acked ack (hi.ledger.ackedCalls ack hm) with hrouted | hway
    · exact Or.inr (hi.handedOver hrouted)
    · exact Or.inl (hi.expected hway)
  · intro call call' ack hc hc'
    have h₁ := hi.ledger.routed ack _ hc.1
    have h₂ := hi.ledger.routed ack _ hc'.1
    exact (Option.some.inj h₁).trans (Option.some.inj h₂).symm

/-- Two shards have a batch on the way at once; the later one is acknowledged first. The first shard then uses its slot
again. -/
theorem acks_reach_their_batch_once : ∃ w, Reached w ∧ .returned 0 ⟨"s0", "7", []⟩ (some "7") ∈ w.trace ∧
    .returned 1 ⟨"s1", "3", []⟩ (some "3") ∈ w.trace ∧ .returned 2 ⟨"s0", "9", []⟩ (some "9") ∈ w.trace ∧
    Consumes w 0 0 ∧ Consumes w 1 1 ∧ Consumes w 2 2 := by
  have hrun := Reached.start.step (@Step.start _ _ "s0" "7" [] rfl)
  have hrun := hrun.step (@Step.start _ _ "s1" "3" [] rfl)
  -- the calls open their channels, register and send
  have hrun := hrun.step (@Step.task _ _ "s0" [] .done _ rfl (by simp) rfl)
  have hrun := hrun.step (@Step.task _ _ "s1" [] .done _ rfl (by simp) rfl)
  have hrun := hrun.step (@Step.task _ _ "s0" [] .done _ rfl (by simp) rfl)
  have hrun := hrun.step (@Step.task _ _ "s1" [] .done _ rfl (by simp) rfl)
  have hrun := hrun.step (@Step.task _ _ "s0" [] (.sent true) _ rfl (by simp) rfl)
  have hrun := hrun.step (@Step.task _ _ "s1" [] (.sent true) _ rfl (by simp) rfl)
  -- the client gets both messages and acknowledges the second one first
  have hrun := hrun.step (@Step.receive _ 0 ⟨"s0", "7", []⟩ rfl)
  have hrun := hrun.step (@Step.receive _ 1 ⟨"s1", "3", []⟩ rfl)
  have hrun := hrun.step (@Step.ack _ 1 ⟨"s1", "3", []⟩ rfl)
  have hrun := hrun.step (.write (Or.inl rfl))
  have hrun := hrun.step (@Step.ack _ 0 ⟨"s0", "7", []⟩ rfl)
  -- the reader routes both and skips the blank line between them
  have hrun := hrun.step (@Step.line _ _ [] _ _ _ rfl rfl)
  have hrun := hrun.step (@Step.route _ _ [] _ _ _ rfl rfl)
  have hrun := hrun.step (@Step.silent _ _ none [] rfl)
  have hrun := hrun.step (@Step.line _ _ [] _ _ _ rfl rfl)
  have hrun := hrun.step (@Step.silent _ _ none [] rfl)
  have hrun := hrun.step (@Step.line _ _ [] _ _ _ rfl rfl)
  have hrun := hrun.step (@Step.route _ _ [] _ _ _ rfl rfl)
  have hrun := hrun.step (@Step.silent _ _ none [] rfl)
  have hrun := hrun.step (@Step.task _ _ "s0" [] .done _ rfl (by simp) rfl)
  have hrun := hrun.step (@Step.task _ _ "s1" [] .done _ rfl (by simp) rfl)
  -- the next batch of the first shard
  have hrun := hrun.step (@Step.start _ _ "s0" "9" [] rfl)
  have hrun := hrun.step (@Step.task _ _ "s0" [] .done _ rfl (by simp) rfl)
  have hrun := hrun.step (@Step.task _ _ "s0" [] .done _ rfl (by simp) rfl)
  have hrun := hrun.step (@Step.task _ _ "s0" [] (.sent true) _ rfl (by simp) rfl)
  have hrun := hrun.step (@Step.receive _ 2 ⟨"s0", "9", []⟩ rfl)
  have hrun := hrun.step (@Step.ack _ 2 ⟨"s0", "9", []⟩ rfl)
  have hrun := hrun.step (@Step.line _ _ [] _ _ _ rfl rfl)
  have hrun := hrun.step (@Step.route _ _ [] _ _ _ rfl rfl)
  have hrun := hrun.step (@Step.task _ _ "s0" [] .done _ rfl (by simp) rfl)
  have h := (acks_reach_their_batch hrun).1
  refine ⟨_, hrun, List.mem_of_getElem? (i := 4) rfl, List.mem_of_getElem? (i := 3) rfl, List.mem_cons_self, ?_, ?_, ?_⟩
  · exact (h 0 ⟨"s0", "7", []⟩ "7" (List.mem_of_getElem? (i := 4) rfl)).2
  · exact (h 1 ⟨"s1", "3", []⟩ "3" (List.mem_of_getElem? (i := 3) rfl)).2
  · exact (h 2 ⟨"s0", "9", []⟩ "9" List.mem_cons_self).2

end Wire

end Sidecar

end StreamsConsumer
