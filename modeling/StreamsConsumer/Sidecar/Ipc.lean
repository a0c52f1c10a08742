import StreamsConsumer.Conc.Pool
import StreamsConsumer.Core.Position

/-!
# Deliveries of the sidecar

`sidecar/src/ipc.rs`: the shard tasks register a one-shot channel, send their
batch to the client and await its ack; one reader task routes the acks and
ends at `Stop` or at the end of input. Nothing resolves a channel once the
reader has ended: `no_delivery_stranded` says when none is left over.
-/

namespace StreamsConsumer
open Conc

namespace Sidecar

inductive ClientMessage where
  | ready
  | checkpoint (shard : ShardId) (seq : SequenceNumber)
  | stop
  deriving DecidableEq, Repr

/-- What `next_line` and `ClientMessage::parse` make of the client's output; `eof` is also a read error. -/
inductive Line where
  | blank
  | message (m : ClientMessage)
  | malformed
  | eof
  deriving DecidableEq, Repr

def Line.isLast : Line → Bool
  | .message .stop => true
  | .eof => true
  | _ => false

structure Batch where
  shard : ShardId
  lastSeq : SequenceNumber
  records : List Record
  deriving DecidableEq, Repr

inductive Call : Type 1 where
  | channel
  | insert (shard : ShardId) (tx : Nat)
  | send (msg : Batch)
  | remove (shard : ShardId)
  | recv (rx : Nat)
  | nextLine
  | route (shard : ShardId) (seq : SequenceNumber)
  | signalStop

def Answer : Call → Type
  | .channel => Nat
  | .send _ => Bool
  | .recv _ => Option SequenceNumber
  | .nextLine => Line
  | _ => Unit

abbrev Task (α : Type) := Prog Call Answer α

inductive Channel where
  | empty
  | sent (seq : SequenceNumber)
  | closed
  deriving DecidableEq, Repr

/-- The shared state of `Ipc`, its one-shot channels, and whether the reader has read its last line. -/
structure Ipc where
  pending : ShardId → Option Nat
  channels : Nat → Channel
  fresh : Nat
  stopped : Bool
  inputOver : Bool

namespace Ipc

/-- Dropping a sender closes its channel unless a value is in it. -/
def dropTx (s : Ipc) (tx : Nat) : Ipc :=
  if s.channels tx = .empty then { s with channels := Function.update s.channels tx .closed } else s

def dropPending (s : Ipc) (shard : ShardId) : Ipc :=
  match s.pending shard with
  | some tx => s.dropTx tx
  | none => s

end Ipc

inductive Choice where
  | line (l : Line)
  | sent (ok : Bool)
  | done

/-- `recv` has no answer while its channel is empty. -/
def exec : (r : Call) → Choice → Ipc → Option (Answer r × Ipc)
  | .channel, .done, s =>
    some (s.fresh, { s with channels := Function.update s.channels s.fresh .empty, fresh := s.fresh + 1 })
  | .insert shard tx, .done, s =>
    some ((), { s.dropPending shard with pending := Function.update s.pending shard (some tx) })
  | .send _, .sent ok, s => some (ok, s)
  | .remove shard, .done, s =>
    some ((), { s.dropPending shard with pending := Function.update s.pending shard none })
  | .recv rx, .done, s =>
    match s.channels rx with
    | .empty => none
    | .sent seq => some (some seq, s)
    | .closed => some (none, s)
  | .nextLine, .line l, s => some (l, { s with inputOver := s.inputOver || l.isLast })
  | .route shard seq, .done, s =>
    match s.pending shard with
    | some tx =>
      some ((), { s with
        pending := Function.update s.pending shard none
        channels := Function.update s.channels tx (.sent seq) })
    | none => some ((), s)
  | .signalStop, .done, s => some ((), { s with stopped := true })
  | _, _, _ => none

/-! ## The tasks -/

def send (msg : Batch) : Task Bool := Prog.req (Call.send msg)

def sendBatch (shard : ShardId) (tx : Nat) (msg : Batch) : Task (Option SequenceNumber) := do
  if ← send msg then Prog.req (Call.recv tx)
  else
    Prog.req (Call.remove shard)
    return none

def registerAndSend (shard : ShardId) (tx : Nat) (msg : Batch) : Task (Option SequenceNumber) := do
  -- the waiter is registered before the batch is sent, so that no ack can overtake it
  Prog.req (Call.insert shard tx)
  sendBatch shard tx msg

def deliverBatch (shard : ShardId) (lastSeq : SequenceNumber) (records : List Record) :
    Task (Option SequenceNumber) := do
  let tx ← Prog.req Call.channel
  registerAndSend shard tx ⟨shard, lastSeq, records⟩

def readLine : Task (Unit ⊕ Unit) := do
  match ← Prog.req Call.nextLine with
  | .blank => return .inl ()
  | .message (.checkpoint shard seq) =>
    Prog.req (Call.route shard seq)
    return .inl ()
  | .message .ready => return .inl ()
  | .malformed => return .inl ()
  | .message .stop =>
    Prog.req Call.signalStop
    return .inr ()
  | .eof =>
    Prog.req Call.signalStop
    return .inr ()

def reader : Task Unit := Prog.iter (fun _ : Unit => readLine) ()

/-- The reader is the process `none`; the task of a shard delivers one batch after the other. -/
def machine : Machine Call Answer (Option ShardId) Choice Ipc Empty (SequenceNumber × List Record) where
  exec _ := exec
  job
    | none, _ => .ret ()
    | some shard, b => do
      let _ ← deliverBatch shard b.1 b.2
      return ()
  env e _ := nomatch e
  reset _ s := s

abbrev Tasks := Pool Call Answer (Option ShardId) Ipc

def start : Tasks :=
  ⟨⟨fun _ => none, fun _ => .empty, 0, false, false⟩, fun w => if w = none then reader else .ret ()⟩

/-! ## What a run can do -/

/-- Neither a task nor the reader is cancelled. -/
def Uncancelled : Label (Option ShardId) Choice Empty (SequenceNumber × List Record) → Bool
  | .stop _ => false
  | .crash _ => false
  | _ => true

def awaits (p : Task Unit) : Option Nat :=
  match p with
  | .call (.recv rx) _ => some rx
  | _ => none

/-- A delivery waits on a channel that nothing is in. -/
def Waiting (p : Tasks) (shard : ShardId) : Prop :=
  ∃ rx, awaits (p.procs (some shard)) = some rx ∧ p.world.channels rx = .empty

def ReaderExited (p : Tasks) : Prop := (p.procs none).ret? = some ()

/-- The steps that strand no delivery: the last line is read while no delivery waits, and after it a batch is
sent only if its waiter has been routed an ack already. -/
def Careful (p : Tasks) : Label (Option ShardId) Choice Empty (SequenceNumber × List Record) → Prop
  | .call none _ (.line l) => l.isLast = true → ∀ shard, ¬ Waiting p shard
  | .call (some shard) _ (.sent true) => p.world.inputOver = true → p.world.pending shard = none
  | _ => True

/-- The states of the runs whose steps all meet `C`. -/
inductive Reached (C : Tasks → Label (Option ShardId) Choice Empty (SequenceNumber × List Record) → Prop) :
    Tasks → Prop where
  | start : Reached C start
  | step {p q : Tasks} {l : Label (Option ShardId) Choice Empty (SequenceNumber × List Record)} (h : Reached C p)
      (hu : Uncancelled l = true) (hc : C p l) (hs : p.step machine l = some q) : Reached C q

/-! ## Where the tasks are -/

def finish : Option SequenceNumber → Task Unit := fun _ => .ret ()

/-- Where the task of a shard is in `deliver_batch`, and what is known of its channel. -/
inductive Stage (s : Ipc) (shard : ShardId) : Task Unit → Prop where
  | idle : Stage s shard (.ret ())
  | entered (q : SequenceNumber) (records : List Record) : Stage s shard ((deliverBatch shard q records).bind finish)
  | opened {tx : Nat} (msg : Batch) (hf : tx < s.fresh) : Stage s shard ((registerAndSend shard tx msg).bind finish)
  | registered {tx : Nat} (msg : Batch) (hf : tx < s.fresh)
      (hp : s.channels tx = .empty → s.pending shard = some tx) : Stage s shard ((sendBatch shard tx msg).bind finish)
  | failed : Stage s shard (.call (.remove shard) fun _ => .ret ())
  | awaiting {rx : Nat} (hf : rx < s.fresh) (hr : s.inputOver = true → s.channels rx ≠ .empty) :
      Stage s shard ((Prog.req (Call.recv rx) : Task _).bind finish)

def reading (cur : Task (Unit ⊕ Unit)) : Task Unit := .loop (fun _ : Unit => readLine) cur .ret

inductive Reading (s : Ipc) : Task Unit → Prop where
  | line : Reading s (reading readLine)
  | routing (shard : ShardId) (q : SequenceNumber) : Reading s (reading (.call (.route shard q) fun _ => .ret (.inl ())))
  | again : Reading s (reading (.ret (.inl ())))
  | stopping (h : s.inputOver = true) : Reading s (reading (.call .signalStop fun _ => .ret (.inr ())))
  | leaving (h : s.inputOver = true) : Reading s (reading (.ret (.inr ())))
  | exited (h : s.inputOver = true) : Reading s (.ret ())

/-- What a call of another task leaves of what a task knows. -/
structure Later (shard : ShardId) (s s' : Ipc) : Prop where
  fresh : s.fresh ≤ s'.fresh
  filled : ∀ tx < s.fresh, s'.channels tx = .empty → s.channels tx = .empty
  kept : ∀ tx < s.fresh, s'.channels tx = .empty → s.pending shard = some tx → s'.pending shard = some tx
  ended : s'.inputOver = s.inputOver

section
variable {s s' : Ipc} {shard : ShardId}

theorem Stage.later {p : Task Unit} (h : Stage s shard p) (hl : Later shard s s') : Stage s' shard p := by
  cases h with
  | idle => exact .idle
  | entered q records => exact .entered q records
  | opened msg hf => exact .opened msg (hf.trans_le hl.fresh)
  | registered msg hf hp =>
    refine .registered msg (hf.trans_le hl.fresh) ?_
    intro he
    exact hl.kept _ hf he (hp (hl.filled _ hf he))
  | failed => exact .failed
  | awaiting hf hr =>
    refine .awaiting (hf.trans_le hl.fresh) ?_
    intro ho he
    rw [hl.ended] at ho
    exact hr ho (hl.filled _ hf he)

theorem dropPending_channels {tx : Nat} (h : (s.dropPending shard).channels tx = .empty) : s.channels tx = .empty := by
  unfold Ipc.dropPending at h
  split at h
  · unfold Ipc.dropTx at h
    split at h
    · rename_i tx' _ _
      by_cases ht : tx = tx'
      · subst ht
        simp at h
      · simpa [ht] using h
    · exact h
  · exact h

theorem dropPending_fresh : (s.dropPending shard).fresh = s.fresh := by
  unfold Ipc.dropPending Ipc.dropTx
  split
  · split <;> rfl
  · rfl

theorem dropPending_inputOver : (s.dropPending shard).inputOver = s.inputOver := by
  unfold Ipc.dropPending Ipc.dropTx
  split
  · split <;> rfl
  · rfl

theorem Later.refl (shard : ShardId) (s : Ipc) : Later shard s s :=
  ⟨le_refl _, fun _ _ h => h, fun _ _ _ h => h, rfl⟩

theorem Later.slot {other : ShardId} (hne : other ≠ shard) (tx : Option Nat) :
    Later shard s { s.dropPending other with pending := Function.update s.pending other tx } where
  fresh := le_of_eq dropPending_fresh.symm
  filled _ _ h := dropPending_channels h
  kept _ _ _ h := by
    rw [← h]
    exact Function.update_of_ne (Ne.symm hne) _ _
  ended := dropPending_inputOver

theorem Later.channel (shard : ShardId) (s : Ipc) :
    Later shard s { s with channels := Function.update s.channels s.fresh .empty, fresh := s.fresh + 1 } where
  fresh := Nat.le_succ _
  filled tx ht h := by simpa [Nat.ne_of_lt ht] using h
  kept _ _ _ h := h
  ended := rfl

theorem Later.route {other : ShardId} {tx : Nat} (q : SequenceNumber) (hp : s.pending other = some tx) :
    Later shard s { s with
      pending := Function.update s.pending other none
      channels := Function.update s.channels tx (.sent q) } where
  fresh := le_refl _
  filled tx' _ h := by
    by_cases ht : tx' = tx
    · subst ht
      simp at h
    · simpa [ht] using h
  kept tx' _ h hs := by
    -- the routed waiter is not the one on the empty channel, so it belongs to another shard
    by_cases ht : tx' = tx
    · subst ht
      simp at h
    · have hne : shard ≠ other := by
        intro e
        subst e
        rw [hp] at hs
        exact ht (Option.some.inj hs).symm
      simpa [hne] using hs
  ended := rfl

/-! ## One step -/

/-- What holds of all tasks along a careful run. -/
structure Inv (p : Tasks) : Prop where
  reader : Reading p.world (p.procs none)
  stages : ∀ shard, Stage p.world shard (p.procs (some shard))

theorem Reading.ended {p : Task Unit} (h : Reading s p) (ho : s.inputOver = true → s'.inputOver = true) :
    Reading s' p := by
  cases h with
  | line => exact .line
  | routing shard q => exact .routing shard q
  | again => exact .again
  | stopping h => exact .stopping (ho h)
  | leaving h => exact .leaving (ho h)
  | exited h => exact .exited (ho h)

theorem Inv.start : Inv start := by
  constructor
  · exact .line
  · intro shard
    exact .idle

/-- A step of the task of `shard`: its own stage, and `Later` for everyone else. -/
theorem Inv.task {p : Tasks} (hi : Inv p) {q : Task Unit} (hq : Stage s shard q)
    (ho : s.inputOver = p.world.inputOver) (hl : ∀ other, other ≠ shard → Later other p.world s) :
    Inv ⟨s, Function.update p.procs (some shard) q⟩ := by
  constructor
  · have hreader : Function.update p.procs (some shard) q none = p.procs none := Function.update_of_ne (by simp) _ _
    simp only [hreader]
    exact hi.reader.ended (by rw [ho]; exact id)
  · intro other
    by_cases h : other = shard
    · subst h
      simpa using hq
    · have hother : Function.update p.procs (some shard) q (some other) = p.procs (some other) :=
        Function.update_of_ne (by simpa using h) _ _
      simp only [hother]
      exact (hi.stages other).later (hl other h)

theorem Inv.read {p : Tasks} (hi : Inv p) {q : Task Unit} (hq : Reading s q) (hl : ∀ shard, Later shard p.world s) :
    Inv ⟨s, Function.update p.procs none q⟩ := by
  constructor
  · simpa using hq
  · intro shard
    have hshard : Function.update p.procs none q (some shard) = p.procs (some shard) :=
      Function.update_of_ne (by simp) _ _
    simp only [hshard]
    exact (hi.stages shard).later (hl shard)

theorem Inv.callTask {p q : Tasks} {π : List Nat} {c : Choice} (hi : Inv p) (hc : Careful p (.call (some shard) π c))
    (h : p.step machine (.call (some shard) π c) = some q) : Inv q := by
  have hstage := hi.stages shard
  simp only [Pool.step] at h
  generalize hp : p.procs (some shard) = t at h hstage
  cases hstage with
  | idle => cases h
  | entered q records =>
    cases c <;> cases h
    refine hi.task (.opened _ (Nat.lt_succ_self _)) rfl ?_
    intro other _
    exact Later.channel other p.world
  | opened msg hf =>
    cases c <;> cases h
    refine hi.task (.registered msg ?_ ?_) dropPending_inputOver fun other hne => Later.slot (Ne.symm hne) _
    · exact hf.trans_le (le_of_eq dropPending_fresh.symm)
    · intro _
      exact Function.update_self _ _ _
  | @registered tx msg hf hreg =>
    cases c with
    | sent ok =>
      cases ok with
      | true =>
        cases h
        refine hi.task (.awaiting hf ?_) rfl fun other _ => .refl other _
        -- the waiter was taken from the slot, so the channel is not empty any more
        intro ho he
        have hnone : p.world.pending shard = none := hc ho
        rw [hreg he] at hnone
        cases hnone
      | false =>
        cases h
        exact hi.task .failed rfl fun other _ => .refl other _
    | _ => cases h
  | failed =>
    cases c <;> cases h
    exact hi.task .idle dropPending_inputOver fun other hne => Later.slot (Ne.symm hne) _
  | @awaiting rx hf hr =>
    cases c with
    | done =>
      have hq : q = ⟨p.world, Function.update p.procs (some shard) (.ret ())⟩ := by
        cases hch : p.world.channels rx with
        | empty => simp [Prog.focus, Prog.req, Prog.bind, machine, exec, hch] at h
        | sent seq => simpa [Prog.focus, Prog.req, Prog.bind, machine, exec, hch, finish] using h.symm
        | closed => simpa [Prog.focus, Prog.req, Prog.bind, machine, exec, hch, finish] using h.symm
      rw [hq]
      exact hi.task .idle rfl fun other _ => .refl other _
    | _ => cases h

theorem Inv.callReader {p q : Tasks} {π : List Nat} {c : Choice} (hi : Inv p) (hc : Careful p (.call none π c))
    (h : p.step machine (.call none π c) = some q) : Inv q := by
  have hreading := hi.reader
  simp only [Pool.step] at h
  generalize hp : p.procs none = t at h hreading
  cases hreading with
  | line =>
    cases c with
    | line l =>
      by_cases hlast : l.isLast = true
      · -- nobody waits at the last line, so every awaited channel has been filled
        have hdone : ∀ shard, Stage { p.world with inputOver := true } shard (p.procs (some shard)) := by
          intro shard
          have hnot := hc hlast shard
          have hstage := hi.stages shard
          unfold Waiting at hnot
          generalize p.procs (some shard) = t at hstage hnot
          cases hstage with
          | idle => exact .idle
          | entered q records => exact .entered q records
          | opened msg hf => exact .opened msg hf
          | registered msg hf hp => exact .registered msg hf hp
          | failed => exact .failed
          | awaiting hf _ =>
            refine .awaiting hf ?_
            intro _ he
            exact hnot ⟨_, rfl, he⟩
        have hq : some q = some ⟨{ p.world with inputOver := p.world.inputOver || l.isLast },
            Function.update p.procs none (reading (.call .signalStop fun _ => .ret (.inr ())))⟩ := by
          cases l with
          | eof => exact h.symm.trans rfl
          | message m =>
            cases m with
            | stop => exact h.symm.trans rfl
            | _ => cases hlast
          | _ => cases hlast
        rw [hlast, Bool.or_true] at hq
        obtain rfl := Option.some.inj hq
        constructor
        · simpa using Reading.stopping rfl
        · intro shard
          have hshard : Function.update p.procs none (reading (.call .signalStop fun _ => .ret (.inr ())))
              (some shard) = p.procs (some shard) := Function.update_of_ne (by simp) _ _
          simp only [hshard]
          exact hdone shard
      · have hl : ∀ shard, Later shard p.world { p.world with inputOver := p.world.inputOver || l.isLast } := by
          intro shard
          simp only [hlast, Bool.or_false]
          exact .refl shard _
        cases l with
        | eof => exact absurd rfl hlast
        | blank =>
          cases h
          exact hi.read .again hl
        | malformed =>
          cases h
          exact hi.read .again hl
        | message m =>
          cases m with
          | stop => exact absurd rfl hlast
          | ready =>
            cases h
            exact hi.read .again hl
          | checkpoint shard seq =>
            cases h
            exact hi.read (.routing shard seq) hl
    | _ => cases h
  | routing shard seq =>
    cases c with
    | done =>
      cases hpend : p.world.pending shard with
      | none =>
        have hq : q = ⟨p.world, Function.update p.procs none (reading (.ret (.inl ())))⟩ := by
          simpa [Prog.focus, machine, exec, hpend, reading] using h.symm
        rw [hq]
        exact hi.read .again fun other => .refl other _
      | some tx =>
        have hq : q = ⟨{ p.world with
            pending := Function.update p.world.pending shard none
            channels := Function.update p.world.channels tx (.sent seq) },
            Function.update p.procs none (reading (.ret (.inl ())))⟩ := by
          simpa [Prog.focus, machine, exec, hpend, reading] using h.symm
        rw [hq]
        exact hi.read .again fun other => Later.route seq hpend
    | _ => cases h
  | again => cases h
  | stopping ho =>
    cases c <;> cases h
    exact hi.read (.leaving ho) fun other => ⟨le_refl _, fun _ _ h => h, fun _ _ _ h => h, rfl⟩
  | leaving _ => cases h
  | exited _ => cases h

theorem Inv.step {p q : Tasks} {l : Label (Option ShardId) Choice Empty (SequenceNumber × List Record)} (hi : Inv p)
    (hu : Uncancelled l = true) (hc : Careful p l) (h : p.step machine l = some q) : Inv q := by
  cases l with
  | call w π c =>
    cases w with
    | none => exact hi.callReader hc h
    | some shard => exact hi.callTask hc h
  | silent w π =>
    cases w with
    | none =>
      have hreading := hi.reader
      simp only [Pool.step] at h
      generalize hp : p.procs none = t at h hreading
      cases hreading with
      | again =>
        cases h
        exact hi.read .line fun other => .refl other _
      | leaving ho =>
        cases h
        exact hi.read (.exited ho) fun other => .refl other _
      | _ => cases h
    | some shard =>
      have hstage := hi.stages shard
      simp only [Pool.step] at h
      generalize hp : p.procs (some shard) = t at h hstage
      cases hstage <;> cases h
  | start w j =>
    cases w with
    | none =>
      have hreading := hi.reader
      simp only [Pool.step] at h
      generalize hp : p.procs none = t at h hreading
      cases hreading with
      | exited ho =>
        cases h
        exact hi.read (.exited ho) fun other => .refl other _
      | _ => cases h
    | some shard =>
      have hstage := hi.stages shard
      simp only [Pool.step] at h
      generalize hp : p.procs (some shard) = t at h hstage
      cases hstage with
      | idle =>
        cases h
        exact hi.task (.entered j.1 j.2) rfl fun other _ => .refl other _
      | _ => cases h
  | stop w => cases hu
  | crash w => cases hu
  | env e => cases e

theorem Inv.reached {p : Tasks} (h : Reached Careful p) : Inv p := by
  induction h with
  | start => exact Inv.start
  | step _ hu hc hs ih => exact ih.step hu hc hs

end

/-! ## No delivery is stranded -/

/-- In every run whose steps are careful, no delivery waits for an ack once the reader has exited. -/
theorem no_delivery_stranded {p : Tasks} (h : Reached Careful p) (hr : ReaderExited p) (shard : ShardId) :
    ¬ Waiting p shard := by
  have hi := Inv.reached h
  intro hw
  obtain ⟨rx, ha, he⟩ := hw
  have hover : p.world.inputOver = true := by
    have hreading := hi.reader
    unfold ReaderExited at hr
    generalize p.procs none = t at hreading hr
    cases hreading with
    | exited ho => exact ho
    | _ => cases hr
  have hstage := hi.stages shard
  generalize p.procs (some shard) = t at hstage ha
  cases hstage with
  | awaiting hf hfilled =>
    obtain rfl := Option.some.inj ha
    exact hfilled hover he
  | _ => cases ha

abbrev Step := Label (Option ShardId) Choice Empty (SequenceNumber × List Record)

def attempts : List Step → Tasks → Tasks
  | [], p => p
  | l :: ls, p => attempts ls (p.attempt machine l)

theorem Reached.attempt {C : Tasks → Step → Prop} {p : Tasks} {l : Step} (h : Reached C p) (hu : Uncancelled l = true)
    (hc : C p l) : Reached C (p.attempt machine l) := by
  unfold Pool.attempt
  cases hs : p.step machine l with
  | none => exact h
  | some q => exact h.step hu hc hs

theorem Reached.attempts {C : Tasks → Step → Prop} : ∀ {ls : List Step} {p : Tasks}, Reached C p →
    (∀ l ∈ ls, Uncancelled l = true ∧ ∀ p, C p l) → Reached C (attempts ls p)
  | [], _, h, _ => h
  | l :: ls, p, h, hl => by
    obtain ⟨hu, hc⟩ := hl l List.mem_cons_self
    show Reached C (Sidecar.attempts ls (p.attempt machine l))
    exact (h.attempt hu (hc p)).attempts fun l' hl' => hl l' (List.mem_cons_of_mem _ hl')

theorem attempts_procs {w : Option ShardId} : ∀ {ls : List Step} {p : Tasks}, (∀ l ∈ ls, l.proc ≠ some w) →
    (attempts ls p).procs w = p.procs w
  | [], _, _ => rfl
  | l :: ls, p, h => by
    show (attempts ls (p.attempt machine l)).procs w = p.procs w
    rw [attempts_procs fun l' hl' => h l' (List.mem_cons_of_mem _ hl')]
    unfold Pool.attempt
    cases hs : p.step machine l with
    | none => rfl
    | some q => exact Pool.step_procs machine hs (h l List.mem_cons_self)

def sending : List Step := [.start (some "s0") ("7", []), .call (some "s0") [] .done, .call (some "s0") [] .done]

def acking : List Step :=
  [.call none [] (.line (.message (.checkpoint "s0" "7"))), .call none [] .done, .silent none [],
    .call (some "s0") [] .done]

def sentBatch : Tasks := attempts [.call (some "s0") [] (.sent true)] (attempts sending start)

def stopping (l : Line) : List Step := [.call none [] (.line l), .call none [] .done, .silent none []]

theorem reached_sending (C : Tasks → Step → Prop) (hstart : ∀ p j, C p (.start (some "s0") j))
    (hdone : ∀ p, C p (.call (some "s0") [] .done)) : Reached C (attempts sending start) := by
  refine Reached.attempts .start ?_
  intro l hl
  simp only [sending, List.mem_cons, List.not_mem_nil, or_false] at hl
  rcases hl with rfl | rfl | rfl
  · exact ⟨rfl, fun p => hstart p _⟩
  · exact ⟨rfl, hdone⟩
  · exact ⟨rfl, hdone⟩

/-- A delivery that is acked before the end of input leaves nobody waiting. -/
theorem no_delivery_stranded_acked : ReaderExited (attempts (stopping .eof) (attempts acking sentBatch)) ∧
    ¬ Waiting (attempts (stopping .eof) (attempts acking sentBatch)) "s0" := by
  have hexit : ReaderExited (attempts (stopping .eof) (attempts acking sentBatch)) := by
    unfold ReaderExited
    decide
  refine ⟨hexit, no_delivery_stranded ?_ hexit "s0"⟩
  have hsent : Reached Careful sentBatch := by
    refine (reached_sending Careful (fun _ _ => trivial) fun _ => trivial).attempt
      (l := .call (some "s0") [] (.sent true)) rfl ?_
    intro ho
    exact absurd ho (by decide)
  have hacked : Reached Careful (attempts acking sentBatch) := by
    refine hsent.attempts ?_
    intro l hl
    simp only [acking, List.mem_cons, List.not_mem_nil, or_false] at hl
    rcases hl with rfl | rfl | rfl | rfl
    · refine ⟨rfl, fun p hlast => ?_⟩
      cases hlast
    · exact ⟨rfl, fun _ => trivial⟩
    · exact ⟨rfl, fun _ => trivial⟩
    · exact ⟨rfl, fun _ => trivial⟩
  have hread : Reached Careful ((attempts acking sentBatch).attempt machine (.call none [] (.line .eof))) := by
    refine hacked.attempt rfl ?_
    intro _ shard hw
    obtain ⟨rx, ha, _⟩ := hw
    have hret : (attempts acking sentBatch).procs (some shard) = .ret () := by
      by_cases hs : shard = "s0"
      · subst hs
        rfl
      · have hne : (some "s0" : Option ShardId) ≠ some shard := fun e => hs (Option.some.inj e).symm
        rw [sentBatch, attempts_procs, attempts_procs, attempts_procs]
        · rfl
        · simp [sending, Label.proc, hne]
        · simp [Label.proc, hne]
        · simp [acking, Label.proc, hne]
    rw [hret] at ha
    cases ha
  exact (hread.attempt (l := .call none [] .done) rfl trivial).attempt (l := .silent none []) rfl trivial

/-- The client stops while a batch is unacknowledged: the delivery waits although the reader has exited. -/
theorem unacked_delivery_stranded : ¬ ∀ p, Reached (fun _ _ => True) p → ReaderExited p → ∀ shard, ¬ Waiting p shard := by
  intro hall
  have hsent : Reached (fun _ _ => True) sentBatch :=
    (reached_sending _ (fun _ _ => trivial) fun _ => trivial).attempt (l := .call (some "s0") [] (.sent true)) rfl trivial
  have hstop : Reached (fun _ _ => True) (attempts (stopping (.message .stop)) sentBatch) := by
    refine hsent.attempts ?_
    intro l hl
    simp only [stopping, List.mem_cons, List.not_mem_nil, or_false] at hl
    rcases hl with rfl | rfl | rfl
    · exact ⟨rfl, fun _ => trivial⟩
    · exact ⟨rfl, fun _ => trivial⟩
    · exact ⟨rfl, fun _ => trivial⟩
  exact hall _ hstop (by unfold ReaderExited; decide) "s0" ⟨0, by decide, by decide⟩

end Sidecar

end StreamsConsumer
