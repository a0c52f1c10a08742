import StreamsConsumer.Worker.PassUses
import StreamsConsumer.Worker.Rules

/-!
# Reports of a lost lease

A pass tells the processor and the metrics that its lease is lost whenever a
checkpoint fails, for whatever reason. Its checkpoint writes and its reports are
noted in order, each write with what the row looked like when it arrived. The
reports are right if and only if the writes that failed were either refused or
throttled for no longer than the retries last.
-/

namespace StreamsConsumer.LostReports
open Conc

inductive Note where
  | write (carried : Bool) (answer : Except AwsError Nat)
  | counted
  | reported

/-- The world, and what a pass wrote and reported in it, the latest first. -/
structure Noted where
  world : World
  notes : List Note

def carries (owner : Worker) (counter : Nat) (row : Option Lease) : Bool :=
  row.any fun r => r.owner = some owner && r.leaseCounter = counter

def note : (r : Req) → Resp r → World → Option Note
  | .db key (.checkpoint owner counter _), a, s => some (.write (carries owner counter (s.table key)) a)
  | .metric (.leaseLost _), _, _ => some .counted
  | .leaseLost _, _, _ => some .reported
  | _, _, _ => none

def notedExec (K : Contract) (w : Worker) (r : Req) (c : Choice) (s : Noted) : Option (Resp r × Noted) :=
  (exec K w r c s.world).map fun x => (x.1, ⟨x.2, (note r x.1 s.world).toList ++ s.notes⟩)

def notedHandler (K : Contract) : Handler Req Resp Worker Choice Noted := ⟨notedExec K⟩

/-- Everything else may happen in between. -/
def Elsewhere (s t : Noted) : Prop := t.notes = s.notes

namespace Note

def isWrite : Note → Bool
  | write _ _ => true
  | _ => false

def succeeded : Note → Bool
  | write _ (.ok _) => true
  | _ => false

/-- A write that failed because the row did not carry the owner and the counter it was made with. -/
def refused : Note → Bool
  | write false (.error e) => e.code = some CONDITIONAL_CHECK_FAILED
  | _ => false

def throttled : Note → Bool
  | write _ (.error e) => (classify e).isThrottled
  | _ => false

end Note

def writes (l : List Note) : List Note := l.filter Note.isWrite

def streak (l : List Note) : Nat := (l.takeWhile Note.throttled).length

/-- Every write succeeded, was refused or was throttled, and no five in a row were throttled. -/
def tolerable : List Note → Bool
  | [] => true
  | n :: l => (n.succeeded || n.refused || n.throttled) && decide (streak (n :: l) ≤ 4) && tolerable l

/-- Every report comes after a write that was refused. -/
def honest : List Note → Bool
  | [] => true
  | n :: l => (n.isWrite || (writes l).head?.any Note.refused) && honest l

/-! ## Writes that are still tried -/

/-- Nothing is reported, and the last `m` writes were throttled. -/
structure Trying (m : Nat) (l : List Note) : Prop where
  silent : ∀ n ∈ l, n.isWrite = true
  tolerable : tolerable l = true
  streak : streak l = m

/-- Nothing is reported, and it is right to report if and only if it had to be. -/
structure Failing (l : List Note) : Prop where
  silent : ∀ n ∈ l, n.isWrite = true
  refused_iff : l.head?.any Note.refused = true ↔ tolerable l = true

section
variable {m : Nat} {l : List Note} {b : Bool} {e : AwsError}

theorem writes_silent (h : ∀ n ∈ l, n.isWrite = true) : writes l = l := List.filter_eq_self.mpr h

theorem honest_silent : ∀ {l : List Note}, (∀ n ∈ l, n.isWrite = true) → honest l = true
  | [], _ => rfl
  | n :: l, h => by
    simp only [honest, h n List.mem_cons_self, Bool.true_or, Bool.true_and]
    exact honest_silent fun n hn => h n (List.mem_cons_of_mem _ hn)

theorem silent_write {a : Except AwsError Nat} (h : ∀ n ∈ l, n.isWrite = true) :
    ∀ n ∈ Note.write b a :: l, n.isWrite = true := by
  intro n hn
  rcases List.mem_cons.mp hn with rfl | hn
  · rfl
  · exact h n hn

theorem classify_conditionFailed (h : e.code = some CONDITIONAL_CHECK_FAILED) : (classify e).isThrottled = false := by
  simp [classify, h, LeaseError.isThrottled]

theorem not_refused_throttled (ht : (classify e).isThrottled = true) : (Note.write b (.error e)).refused = false := by
  cases b with
  | true => rfl
  | false =>
    simp only [Note.refused, decide_eq_false_iff_not]
    intro hc
    rw [classify_conditionFailed hc] at ht
    cases ht

theorem Trying.succeed {c : Nat} (h : Trying m l) : Trying 0 (.write b (.ok c) :: l) where
  silent := silent_write h.silent
  tolerable := by simp [LostReports.tolerable, Note.succeeded, LostReports.streak, Note.throttled, h.tolerable]
  streak := by simp [LostReports.streak, Note.throttled]

theorem streak_throttled (ht : (classify e).isThrottled = true) : streak (.write b (.error e) :: l) = streak l + 1 := by
  simp [streak, Note.throttled, ht]

theorem Trying.again (h : Trying m l) (hm : m < 4) (ht : (classify e).isThrottled = true) :
    Trying (m + 1) (.write b (.error e) :: l) := by
  have hs : LostReports.streak (.write b (.error e) :: l) = m + 1 := by rw [streak_throttled ht, h.streak]
  refine ⟨silent_write h.silent, ?_, hs⟩
  simp only [LostReports.tolerable, Note.throttled, ht, hs, h.tolerable, Bool.or_true, Bool.true_and, Bool.and_true,
    decide_eq_true_eq]
  omega

theorem Trying.exhausted (h : Trying 4 l) (ht : (classify e).isThrottled = true) :
    Failing (.write b (.error e) :: l) := by
  refine ⟨silent_write h.silent, ?_⟩
  have hs : LostReports.streak (.write b (.error e) :: l) = 5 := by rw [streak_throttled ht, h.streak]
  simp [not_refused_throttled ht, LostReports.tolerable, hs]

theorem Trying.fail (h : Trying m l) (ht : (classify e).isThrottled = false) : Failing (.write b (.error e) :: l) := by
  refine ⟨silent_write h.silent, ?_⟩
  have hs : LostReports.streak (.write b (.error e) :: l) = 0 := by simp [LostReports.streak, Note.throttled, ht]
  simp [LostReports.tolerable, Note.succeeded, Note.throttled, ht, hs, h.tolerable]

/-- What is reported agrees with what happened. -/
def Agrees (l : List Note) : Prop := honest l = true ↔ tolerable (writes l) = true

theorem Trying.agrees (h : Trying m l) : Agrees l := by
  unfold Agrees
  rw [honest_silent h.silent, writes_silent h.silent, h.tolerable]

theorem Failing.counted (h : Failing l) : Agrees (.counted :: l) := by
  have hw : writes (.counted :: l) = l := (List.filter_cons_of_neg Bool.false_ne_true).trans (writes_silent h.silent)
  unfold Agrees
  rw [hw, ← h.refused_iff]
  simp [honest, Note.isWrite, writes_silent h.silent, honest_silent h.silent]

theorem Failing.reported (h : Failing l) : Agrees (.reported :: .counted :: l) := by
  have hw : writes (.counted :: l) = l := (List.filter_cons_of_neg Bool.false_ne_true).trans (writes_silent h.silent)
  have hw' : writes (.reported :: .counted :: l) = l := (List.filter_cons_of_neg Bool.false_ne_true).trans hw
  unfold Agrees
  rw [hw', ← h.refused_iff]
  simp [honest, Note.isWrite, hw, writes_silent h.silent, honest_silent h.silent]

end

/-! ## The pass -/

/-- A request that is neither a checkpoint nor a report. -/
def Quiet (r : Req) : Prop := ∀ a s, note r a s = none

/-- At every moment of a pass, what was tolerable is reported as it was. -/
def Sound (s : Noted) : Prop := tolerable (writes s.notes) = true → honest s.notes = true

section
variable {K : Contract} {w : Worker} {l : List Note} {m : Nat} {s : Noted}

theorem Agrees.sound (h : Agrees s.notes) : Sound s := h.mpr

theorem sound_silent (h : ∀ n ∈ s.notes, n.isWrite = true) : Sound s := fun _ => honest_silent h

theorem notedExec_notes {r : Req} {c : Choice} {s t : Noted} {a : Resp r} (h : notedExec K w r c s = some (a, t)) :
    t.notes = (note r a s.world).toList ++ s.notes := by
  obtain ⟨x, _, hx⟩ := Option.map_eq_some_iff.mp h
  cases hx
  rfl

theorem solo_quiet {α : Type} {p : Fx α} (hp : Uses Quiet p) {F : List Note → Prop}
    (hF : ∀ s : Noted, F s.notes → Sound s) (hs : F s.notes) :
    solo (notedHandler K) Elsewhere w Sound p (fun _ s' => F s'.notes) s := by
  refine solo_of_uses (P := Quiet) (K := fun s : Noted => F s.notes) ?_ hF ?_ p hp hs
  · intro s s' hi h
    rw [show s'.notes = s.notes from hi]
    exact h
  · intro r hr c s a s' hs he
    rw [notedExec_notes he, hr]
    exact hs

theorem Trying.sound (h : Trying m s.notes) : Sound s := sound_silent h.silent

theorem Failing.sound (h : Failing s.notes) : Sound s := sound_silent h.silent

theorem solo_attempt {key : ShardId} {owner : Worker} {counter : Nat} {q : SequenceNumber} (h : Trying m s.notes) :
    solo (notedHandler K) Elsewhere w Sound (conditionalWrite key (.checkpoint owner counter q) (counter + 1))
      (fun x s' => ∃ l b a, Trying m l ∧ s'.notes = .write b a :: l ∧
        x = (a.map fun _ => counter + 1).mapError classify) s := by
  intro s₁ h₁ c a s₂ he
  have hn := notedExec_notes he
  rw [show s₁.notes = s.notes from h₁] at hn
  refine ⟨sound_silent ?_, ?_⟩
  · rw [hn]
    exact silent_write h.silent
  · cases a with
    | ok n => exact ⟨_, _, _, h, hn, rfl⟩
    | error e => exact ⟨_, _, _, h, hn, rfl⟩

theorem quiet_sleep (ms : Nat) : Uses Quiet (sleep ms) := ⟨fun _ _ => rfl, fun _ => trivial⟩

def Checkpointed {ε : Type} : Except ε Nat → List Note → Prop
  | .ok _, l => Trying 0 l
  | .error _, l => Failing l

theorem solo_throttleRetry {key : ShardId} {owner : Worker} {counter : Nat} {q : SequenceNumber} :
    ∀ (n delay : Nat) {s : Noted}, n ≤ 4 → Trying (4 - n) s.notes →
      solo (notedHandler K) Elsewhere w Sound
        (retryThrottled LeaseError.isThrottled (conditionalWrite key (.checkpoint owner counter q) (counter + 1)) n delay)
        (fun x s' => Checkpointed x s'.notes) s
  | 0, _, s, _, h => by
    refine solo_mono _ ?_ (solo_attempt h)
    intro x s' hx
    obtain ⟨l, b, a, hl, hn, rfl⟩ := hx
    rw [hn]
    cases a with
    | ok c => exact hl.succeed
    | error e =>
      cases ht : (classify e).isThrottled with
      | true => exact hl.exhausted ht
      | false => exact hl.fail ht
  | n + 1, delay, s, hle, h => by
    unfold retryThrottled
    refine solo_seq (solo_attempt h) ?_
    intro x s₁ hx
    obtain ⟨l, b, a, hl, hn, rfl⟩ := hx
    cases a with
    | ok c =>
      change Trying 0 s₁.notes
      rw [hn]
      exact hl.succeed
    | error e =>
      simp only [Except.map, Except.mapError]
      split
      · rename_i ht
        have hagain : Trying (4 - n) s₁.notes := by
          rw [hn, show 4 - n = 4 - (n + 1) + 1 by omega]
          exact hl.again (by omega) ht
        refine solo_seq (solo_quiet (quiet_sleep delay) (fun _ => Trying.sound) hagain) ?_
        intro _ s₂ h₂
        exact solo_throttleRetry n _ (by omega) h₂
      · rename_i ht
        change Failing s₁.notes
        rw [hn]
        exact hl.fail (by simpa using ht)

theorem solo_checkpoint {key : ShardId} {owner : Worker} {counter : Nat} {q : SequenceNumber} (h : Trying 0 s.notes) :
    solo (notedHandler K) Elsewhere w Sound (dynamoDbLeaseStore.checkpoint key owner counter q)
      (fun x s' => Checkpointed x s'.notes) s := by
  refine solo_seq (solo_throttleRetry 4 50 (le_refl 4) h) ?_
  intro x s' hx
  cases x with
  | ok c => exact hx
  | error e => exact hx

theorem solo_report (r : Req) {n : Note} (hnote : ∀ a s, note r a s = some n) {α : Type} {f : Resp r → Fx α}
    {Q : α → Noted → Prop} (hl : s.notes = l) (hs : Agrees (n :: l))
    (hk : ∀ a s', s'.notes = n :: l → solo (notedHandler K) Elsewhere w Sound (f a) Q s') :
    solo (notedHandler K) Elsewhere w Sound ((Prog.req r).bind f) Q s := by
  intro s₁ h₁ c a s₂ he
  have hn := notedExec_notes he
  rw [show s₁.notes = s.notes from h₁, hnote, hl] at hn
  refine ⟨Agrees.sound ?_, hk a s₂ hn⟩
  rw [hn]
  exact hs

theorem solo_lostLease {shard : ShardId} (h : Failing s.notes) :
    solo (notedHandler K) Elsewhere w Sound (lostLease shard) (fun _ s' => Agrees s'.notes) s := by
  refine solo_report (.metric (.leaseLost shard)) (fun _ _ => rfl) rfl h.counted ?_
  intro _ s₁ h₁
  refine solo_report (.leaseLost shard) (fun _ _ => rfl) h₁ h.reported ?_
  intro _ s₂ h₂
  change Agrees s₂.notes
  rw [h₂]
  exact h.reported

theorem quiet_withDefer {β : Type} (x : β) (f : CkptDefer → β × CkptDefer) : Uses Quiet (withDefer x f) :=
  ⟨fun _ _ => rfl, fun _ => trivial⟩

theorem solo_giveUp {α : Type} {shard : ShardId} {x : α} {Q : α → Noted → Prop}
    (hQ : ∀ s, Agrees s.notes → Q x s) (h : Failing s.notes) :
    solo (notedHandler K) Elsewhere w Sound
      ((forgetPending shard).bind fun _ => (lostLease shard).bind fun _ => (.ret x : Fx α)) Q s := by
  refine solo_seq (solo_quiet (quiet_withDefer _ _) (fun _ => Failing.sound) h) ?_
  intro _ s₁ h₁
  refine solo_seq (solo_lostLease h₁) ?_
  intro _ s₂ h₂
  exact hQ s₂ h₂

theorem solo_persistAck {task : ShardTask} {counter : Nat} {ack : SequenceNumber} (h : Trying 0 s.notes) :
    solo (notedHandler K) Elsewhere w Sound (persistAck dynamoDbLeaseStore task counter ack)
      (fun x s' => x.elim (Agrees s'.notes) fun _ => Trying 0 s'.notes) s := by
  have hdefer := fun {β : Type} (x : β) f {s : Noted} (h : Trying 0 s.notes) =>
    solo_quiet (K := K) (w := w) (quiet_withDefer x f) (fun _ => Trying.sound) h
  have hnow : Uses Quiet now := ⟨fun _ _ => rfl, fun _ => trivial⟩
  unfold persistAck
  split
  · refine solo_seq (solo_quiet hnow (fun _ => Trying.sound) h) ?_
    intro t s₁ h₁
    refine solo_seq (hdefer _ _ h₁) ?_
    intro due s₂ h₂
    split
    · exact h₂
    · refine solo_seq (solo_checkpoint h₂) ?_
      intro x s₃ h₃
      split
      · exact solo_seq (hdefer _ _ h₃) fun _ _ h₄ => h₄
      · exact solo_giveUp (fun _ h => h) h₃
  · refine solo_seq (solo_checkpoint h) ?_
    intro x s₁ h₁
    split
    · exact h₁
    · exact solo_seq (solo_lostLease h₁) fun _ _ h₂ => h₂

theorem solo_deliverRecords {task : ShardTask} {counter : Nat} {records : List Record} (h : Trying 0 s.notes) :
    solo (notedHandler K) Elsewhere w Sound (deliverRecords dynamoDbLeaseStore task counter records)
      (fun x s' => x.elim (Agrees s'.notes) fun _ => Trying 0 s'.notes) s := by
  have hdeliver : Uses Quiet (deliver task.shard records) := ⟨fun _ _ => rfl, fun _ => trivial⟩
  unfold deliverRecords
  refine solo_seq (solo_quiet hdeliver (fun _ => Trying.sound) h) ?_
  intro x s₁ h₁
  split
  · exact solo_persistAck h₁
  · exact h₁
  · split
    · exact solo_seq (solo_quiet (quiet_withDefer _ _) (fun _ => Trying.sound) h₁) fun _ _ h₂ => h₂.agrees
    · exact h₁.agrees

theorem quiet_completeShard (task : ShardTask) (counter : Nat) :
    Uses Quiet (completeShard dynamoDbLeaseStore task counter) := by
  refine ⟨fun _ _ => rfl, fun _ => ?_⟩
  refine uses_bind (p := dynamoDbLeaseStore.markComplete task.shard task.owner counter) ?_ ?_
  · exact uses_bind (uses_conditionalWrite fun _ _ => rfl) fun _ => trivial
  · exact fun _ => ⟨fun _ _ => rfl, fun _ => trivial⟩

theorem quiet_batchMetric (shard : ShardId) (batch : RecordBatch) : Uses Quiet (metric (batchMetric shard batch)) :=
  ⟨fun _ _ => rfl, fun _ => trivial⟩

theorem solo_endShard {task : ShardTask} {counter : Nat} (h : Trying 0 s.notes) :
    solo (notedHandler K) Elsewhere w Sound (endShard dynamoDbLeaseStore task counter)
      (fun _ s' => Agrees s'.notes) s := by
  have hcomplete : ∀ c {s : Noted}, Trying 0 s.notes → solo (notedHandler K) Elsewhere w Sound
      (completeShard dynamoDbLeaseStore task c) (fun _ s' => Agrees s'.notes) s := by
    intro c s h
    refine solo_mono _ ?_ (solo_quiet (quiet_completeShard task c) (fun _ => Trying.sound) h)
    exact fun _ _ h => h.agrees
  have hforget := fun {s : Noted} (h : Trying 0 s.notes) =>
    solo_quiet (K := K) (w := w) (quiet_withDefer () fun d => ((), d.forget task.shard)) (fun _ => Trying.sound) h
  unfold endShard
  split
  · refine solo_seq (solo_quiet (quiet_withDefer _ _) (fun _ => Trying.sound) h) ?_
    intro x s₁ h₁
    split
    · refine solo_seq (solo_checkpoint h₁) ?_
      intro x s₂ h₂
      split
      · exact solo_seq (hforget h₂) fun _ _ h₃ => hcomplete _ h₃
      · exact solo_giveUp (fun _ h => h) h₂
    · exact solo_seq (hforget h₁) fun _ _ h₂ => hcomplete _ h₂
  · exact hcomplete _ h

variable {source : AsyncStreamSource} (hsrc : ∀ shard after, Uses Quiet (source.getRecords shard after))
include hsrc

theorem solo_passBody {task : ShardTask} {st : PassState} (h : Trying 0 s.notes) :
    solo (notedHandler K) Elsewhere w Sound (passBody source dynamoDbLeaseStore task st)
      (Sum.elim (fun _ s' => Trying 0 s'.notes) fun _ s' => Agrees s'.notes) s := by
  unfold passBody
  refine solo_seq (solo_quiet (hsrc _ _) (fun _ => Trying.sound) h) ?_
  intro x s₁ h₁
  split
  · exact h₁.agrees
  · split
    · split
      · exact solo_seq (solo_endShard h₁) fun _ _ h₂ => h₂
      · exact h₁.agrees
    · refine solo_seq (solo_deliverRecords h₁) ?_
      intro x s₂ h₂
      split
      · exact h₂
      · refine solo_seq (solo_quiet (quiet_batchMetric _ _) (fun _ => Trying.sound) h₂) ?_
        intro _ s₃ h₃
        split
        · exact solo_seq (solo_endShard h₃) fun _ _ h₄ => h₄
        · exact h₃

theorem solo_processShard {task : ShardTask} (h : s.notes = []) :
    solo (notedHandler K) Elsewhere w Sound (processShard source dynamoDbLeaseStore task)
      (fun _ s' => Agrees s'.notes) s := by
  have h₀ : Trying 0 s.notes := by
    rw [h]
    exact ⟨by simp, rfl, rfl⟩
  have hresume : Uses Quiet (resumePosition task) := by
    unfold resumePosition
    split
    · exact uses_bind (quiet_withDefer _ _) fun _ => trivial
    · trivial
  refine solo_seq (solo_quiet hresume (fun _ => Trying.sound) h₀) ?_
  intro after s₁ h₁
  refine solo_iter (fun _ s => Trying 0 s.notes) ?_ (fun _ _ h => solo_passBody hsrc h) h₁
  intro _ s s' hi h
  rw [show s'.notes = s.notes from hi]
  exact h

/-- In every run of a pass, as far as it came: tolerable writes are reported as what they were. Once the pass has
returned, its reports are right only if the writes were tolerable. -/
theorem lease_lost_iff_tolerable {task : ShardTask} {t : Noted} {q : Fx (Except WorkerError PassOutcome)}
    (h : Runs (notedHandler K) Elsewhere w (processShard source dynamoDbLeaseStore task) s q t) (hs : s.notes = []) :
    (tolerable (writes t.notes) = true → honest t.notes = true) ∧
      ∀ r, q = .ret r → (honest t.notes = true ↔ tolerable (writes t.notes) = true) := by
  have hrefl : ∀ s, Elsewhere s s := fun _ => rfl
  have htrans : ∀ a b c, Elsewhere a b → Elsewhere b c → Elsewhere a c := fun _ _ _ hab hbc => hbc.trans hab
  have hp : solo (notedHandler K) Elsewhere w Sound (processShard source dynamoDbLeaseStore task)
    (fun _ s' => Agrees s'.notes) s := solo_processShard hsrc hs
  constructor
  · refine h.safe hrefl htrans ?_ ?_ (solo_mono _ (fun _ _ _ => trivial) hp)
    · intro s s' hi hsound
      unfold Sound
      rw [show s'.notes = s.notes from hi]
      exact hsound
    · exact sound_silent (by simp [hs])
  · intro r hr
    subst hr
    refine h.solo hrefl htrans ?_ hp
    intro _ s s' hi hagree
    rw [show s'.notes = s.notes from hi]
    exact hagree

end

/-! ## A write that is throttled five times -/

def passTask (counter : Nat) : ShardTask := ⟨"a", "s", counter, none, false⟩

def heldRow : Lease := ⟨"s", some "a", 1, false, none, []⟩

def heldWorld : Noted where
  world := ⟨Function.update (fun _ => none) "s" (some heldRow), [heldRow],
    ⟨[], ["s"], fun _ => [⟨"s", "1", []⟩], fun _ => false⟩,
    fun _ => Memory.init ⟨"a", 10, 30000, 1000, .trimHorizon, none, none⟩, 0, []⟩
  notes := []

def busyTable (n : Nat) (s : Noted) : Req → Choice
  | .getRecords _ _ => .batch 0 1 false
  | .deliver _ _ => .acked "1"
  | .db _ _ => if s.notes.length < n then .fault ⟨some "ThrottlingException"⟩ else .ok
  | _ => .ok

def busyPass (counter n : Nat) : Fx (Except WorkerError PassOutcome) × Noted :=
  drive (notedHandler exactContract) "a" (busyTable n) 20
    (processShard contractSource dynamoDbLeaseStore (passTask counter)) heldWorld

theorem quiet_contractSource (shard : ShardId) (after : Option SequenceNumber) :
    Uses Quiet (contractSource.getRecords shard after) :=
  ⟨fun _ _ => rfl, fun _ => trivial⟩

theorem runs_busyPass (counter n : Nat) : Runs (notedHandler exactContract) Elsewhere "a"
    (processShard contractSource dynamoDbLeaseStore (passTask counter)) heldWorld (busyPass counter n).1
    (busyPass counter n).2 := runs_drive

/-- Two throttled writes, and one that is refused since another counter is in the row. -/
theorem lease_lost_iff_tolerable_refused :
    (busyPass 7 2).1 = .ret (.ok .stopped) ∧ (writes (busyPass 7 2).2.notes).length = 3 ∧
      honest (busyPass 7 2).2.notes = true := by
  have hreports := lease_lost_iff_tolerable quiet_contractSource (runs_busyPass 7 2) rfl
  exact ⟨rfl, rfl, hreports.1 rfl⟩

/-- The lease is reported lost while its row still carries the owner and the counter. -/
theorem lease_lost_while_throttled :
    Runs (notedHandler exactContract) Elsewhere "a" (processShard contractSource dynamoDbLeaseStore (passTask 1))
        heldWorld (.ret (.ok .stopped)) (busyPass 1 5).2 ∧
      (busyPass 1 5).2.notes.head? = some .reported ∧ honest (busyPass 1 5).2.notes = false ∧
      carries "a" 1 ((busyPass 1 5).2.world.table "s") = true :=
  ⟨runs_busyPass 1 5, rfl, rfl, rfl⟩

end StreamsConsumer.LostReports
