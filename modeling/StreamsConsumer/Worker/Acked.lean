import StreamsConsumer.Worker.PassUses
import StreamsConsumer.Worker.Rules

/-!
# Completion and acknowledgement

One pass against an arbitrary source and an arbitrary consumer: what they
answer, call by call, is a script. The pass may complete the shard although the
last batch was not acknowledged, exactly when the script ends the shard at that
moment.
-/

namespace StreamsConsumer
open Conc

/-- The answers of `get_records` and of `deliver` to their successive calls. -/
structure Script where
  read : Nat → Except AwsError RecordBatch
  answer : Nat → Except AwsError (Option SequenceNumber)

structure PassLog where
  reads : Nat
  answers : List (Except AwsError (Option SequenceNumber))
  marked : Bool
  mem : Memory

inductive Reply where
  | ok
  | fault (e : AwsError)
  | lostReply (e : AwsError)
  | time (t : Nat)

namespace Script

def exec (sc : Script) : (r : Req) → Reply → PassLog → Option (Resp r × PassLog)
  | .getRecords _ _, _, s => some (sc.read s.reads, { s with reads := s.reads + 1 })
  | .deliver _ _, _, s =>
    some (sc.answer s.answers.length, { s with answers := sc.answer s.answers.length :: s.answers })
  | @Req.mem _ f, _, s => some ((f s.mem).1, { s with mem := (f s.mem).2 })
  | .db _ op, .ok, s => some (.ok 0, { s with marked := s.marked || op.isMarkComplete })
  | .db _ op, .lostReply e, s => some (.error e, { s with marked := s.marked || op.isMarkComplete })
  | .db _ _, .fault e, s => some (.error e, s)
  | .shardEnded _, .ok, s => some (.ok (), s)
  | .shardEnded _, .fault e, s => some (.error e, s)
  | .leaseLost _, .ok, s => some (.ok (), s)
  | .leaseLost _, .fault e, s => some (.error e, s)
  | .now, .time t, s => some (t, s)
  | .sleep _, _, s => some ((), s)
  | .metric _, _, s => some ((), s)
  | _, _, _ => none

def handler (sc : Script) : Handler Req Resp Worker Reply PassLog := ⟨fun _ => sc.exec⟩

/-- The `i`-th round of the pass goes on to the next: records, not the last ones, and no failed delivery. -/
def Goes (sc : Script) (i : Nat) : Prop :=
  ∃ b, sc.read i = .ok b ∧ b.records ≠ [] ∧ b.shardEnd = false ∧ ∃ a, sc.answer i = .ok a

/-- The shard ends while the latest batch is unacknowledged. -/
def UnackedEnd (sc : Script) : Prop :=
  ∃ e, (∀ i < e, sc.Goes i) ∧ ∃ b, sc.read e = .ok b ∧ b.shardEnd = true ∧
    (b.records ≠ [] ∧ sc.answer e = .ok none ∨ b.records = [] ∧ ∃ i, e = i + 1 ∧ sc.answer i = .ok none)

end Script

def Elsewhere (s s' : PassLog) : Prop := ∃ m, s' = { s with mem := m }

/-- If the lease was marked completed, the consumer had acked the latest batch. -/
def AckedEnd (s : PassLog) : Prop :=
  s.marked = true → ∀ a, s.answers.head? = some a → ∃ q, a = .ok (some q)

structure Between (sc : Script) (s : PassLog) : Prop where
  marked : s.marked = false
  length : s.answers.length = s.reads
  goes : ∀ i < s.reads, sc.Goes i
  last : ∀ i, s.reads = i + 1 → s.answers.head? = some (sc.answer i)

section
variable {sc : Script} {task : ShardTask} {s s' : PassLog} {w : Worker}

/-! ## Without such an end every completion is acknowledged -/

theorem Between.elsewhere (h : Between sc s) (ho : Elsewhere s s') : Between sc s' := by
  obtain ⟨m, rfl⟩ := ho
  exact ⟨h.marked, h.length, h.goes, h.last⟩

def Unlogged (sc : Script) (r : Req) : Prop :=
  ∀ c s a s', sc.exec r c s = some (a, s') → s'.reads = s.reads ∧ s'.answers = s.answers ∧ s'.marked = s.marked

def Closing (sc : Script) (r : Req) : Prop :=
  ∀ c s a s', sc.exec r c s = some (a, s') → s'.reads = s.reads ∧ s'.answers = s.answers

theorem persisting_unlogged (sc : Script) : Persisting (Unlogged sc) where
  mem f c s a s' h := by cases h; exact ⟨rfl, rfl, rfl⟩
  now c s a s' h := by cases c <;> cases h; exact ⟨rfl, rfl, rfl⟩
  sleep ms c s a s' h := by cases h; exact ⟨rfl, rfl, rfl⟩
  checkpoint key o n q c s a s' h := by
    cases c <;> cases h
    all_goals simp [DbOp.isMarkComplete]
  metric m c s a s' h := by cases h; exact ⟨rfl, rfl, rfl⟩
  leaseLost shard c s a s' h := by cases c <;> cases h <;> exact ⟨rfl, rfl, rfl⟩

theorem Unlogged.closing {r : Req} (h : Unlogged sc r) : Closing sc r :=
  fun c s a s' he => ⟨(h c s a s' he).1, (h c s a s' he).2.1⟩

theorem ending_closing (sc : Script) : Ending (Closing sc) where
  mem f := ((persisting_unlogged sc).mem f).closing
  now := (persisting_unlogged sc).now.closing
  sleep ms := ((persisting_unlogged sc).sleep ms).closing
  checkpoint key o c q := ((persisting_unlogged sc).checkpoint key o c q).closing
  metric m := ((persisting_unlogged sc).metric m).closing
  leaseLost shard := ((persisting_unlogged sc).leaseLost shard).closing
  shardEnded shard c s a s' h := by cases c <;> cases h <;> exact ⟨rfl, rfl⟩
  markComplete key o n c s a s' h := by cases c <;> cases h <;> exact ⟨rfl, rfl⟩

structure Handled (sc : Script) (n : Nat) (s : PassLog) : Prop where
  marked : s.marked = false
  reads : s.reads = n + 1
  length : s.answers.length = n + 1
  head : s.answers.head? = some (sc.answer n)

theorem solo_unlogged {n : Nat} {α : Type} {p : Fx α} (hp : Uses (Unlogged sc) p) (h : Handled sc n s) :
    solo sc.handler Elsewhere w AckedEnd p (fun _ => Handled sc n) s := by
  refine solo_of_uses (P := Unlogged sc) ?_ ?_ ?_ p hp h
  · intro s s' ho h
    obtain ⟨m, rfl⟩ := ho
    exact ⟨h.marked, h.reads, h.length, h.head⟩
  · intro s h hm
    rw [h.marked] at hm
    cases hm
  · intro r hr c s a s' h he
    obtain ⟨h₁, h₂, h₃⟩ := hr c s a s' he
    exact ⟨h₃ ▸ h.marked, h₁ ▸ h.reads, h₂ ▸ h.length, h₂ ▸ h.head⟩

theorem solo_endShard {c : Nat} (h : ∀ a, s.answers.head? = some a → ∃ q, a = .ok (some q)) :
    solo sc.handler Elsewhere w AckedEnd (endShard dynamoDbLeaseStore task c) (fun _ _ => True) s := by
  refine solo_mono _ (fun _ _ _ => trivial) (solo_of_uses (P := Closing sc)
    (K := fun s' => s'.answers = s.answers) ?_ ?_ ?_ _ (uses_endShard (ending_closing sc) task c) rfl)
  · intro s₁ s₂ ho h₁
    obtain ⟨m, rfl⟩ := ho
    exact h₁
  · intro s₁ h₁ _
    rw [h₁]
    exact h
  · intro r hr c s₁ a s₂ h₁ he
    exact (hr c s₁ a s₂ he).2.trans h₁

theorem solo_deliverScript {n c : Nat} {records : List Record} (hm : s.marked = false) (hr : s.reads = n + 1)
    (hl : s.answers.length = n) :
    solo sc.handler Elsewhere w AckedEnd (deliverRecords dynamoDbLeaseStore task c records)
      (fun r s' => ∀ c', r = some c' → Handled sc n s' ∧ ∃ a, sc.answer n = .ok a) s := by
  have hdeliver : solo sc.handler Elsewhere w AckedEnd (deliver task.shard records)
      (fun a s' => a = sc.answer n ∧ Handled sc n s') s := by
    intro s₁ h₁ c a s₂ he
    obtain ⟨m, rfl⟩ := h₁
    cases he
    refine ⟨fun h => ?_, ?_, ⟨hm, hr, ?_, ?_⟩⟩
    · exact absurd (hm.symm.trans h) (by decide)
    · exact congrArg sc.answer hl
    · simp [hl]
    · simp [hl]
  unfold deliverRecords
  refine solo_seq hdeliver ?_
  intro a s₁ h₁
  match a, h₁ with
  | .ok (some q), h₁ =>
    refine solo_mono _ ?_ (solo_unlogged (uses_persistAck (persisting_unlogged sc) task c q) h₁.2)
    intro r s₂ h₂ c' _
    exact ⟨h₂, _, h₁.1.symm⟩
  | .ok none, h₁ => exact fun c' _ => ⟨h₁.2, _, h₁.1.symm⟩
  | .error e, h₁ =>
    have hnone : ∀ s', solo sc.handler Elsewhere w AckedEnd (.ret none : Fx (Option Nat))
        (fun r s' => ∀ c', r = some c' → Handled sc n s' ∧ ∃ a, sc.answer n = .ok a) s' :=
      fun _ c' e => by cases e
    simp only [Prog.bind_eq, Prog.pure_eq]
    split
    · exact solo_seq (solo_unlogged (uses_withDefer (persisting_unlogged sc) _ _) h₁.2) fun _ s₂ _ => hnone s₂
    · exact hnone s₁

theorem solo_passRound (hno : ¬ sc.UnackedEnd) (st : PassState) (h : Between sc s) :
    solo sc.handler Elsewhere w AckedEnd (passBody contractSource dynamoDbLeaseStore task st)
      (Sum.elim (fun _ => Between sc) fun _ _ => True) s := by
  obtain ⟨n, hn⟩ : ∃ n, s.reads = n := ⟨_, rfl⟩
  have hread : solo sc.handler Elsewhere w AckedEnd (contractSource.getRecords task.shard st.after)
      (fun r s' => s'.marked = false ∧ s'.reads = n + 1 ∧ s'.answers = s.answers ∧ ∀ b, r = .ok b → sc.read n = .ok b)
      s := by
    refine solo_bind _ _ ?_
    intro s₁ h₁ c a s₂ he
    obtain ⟨m, rfl⟩ := h₁
    cases he
    refine ⟨fun hm => absurd (h.marked.symm.trans hm) (by decide), h.marked, by rw [← hn], rfl, ?_⟩
    intro b hb
    rw [← hn]
    exact mapError_eq_ok hb
  have hend : ∀ c s₁, (∀ a, s₁.answers.head? = some a → ∃ q, a = .ok (some q)) →
      solo sc.handler Elsewhere w AckedEnd ((endShard dynamoDbLeaseStore task c).bind fun o =>
        (.ret (.inr (.ok o)) : Fx (PassState ⊕ Except WorkerError PassOutcome)))
        (Sum.elim (fun _ => Between sc) fun _ _ => True) s₁ := by
    intro c s₁ hacked
    exact solo_seq (solo_endShard hacked) fun _ _ _ => trivial
  unfold passBody
  refine solo_seq hread ?_
  intro r s₁ h₁
  obtain ⟨hm, hr, ha, hb⟩ := h₁
  cases r with
  | error e => trivial
  | ok b =>
    have hrd := hb b rfl
    simp only [Prog.bind_eq, Prog.pure_eq]
    split
    · rename_i hempty
      split
      · rename_i hshard
        -- an empty last batch: the latest delivery was the one of the round before
        refine hend _ s₁ ?_
        intro a hhead
        rw [ha] at hhead
        cases n with
        | zero =>
          have hnil : s.answers = [] := List.eq_nil_of_length_eq_zero (h.length.trans hn)
          rw [hnil] at hhead
          cases hhead
        | succ i =>
          rw [h.last i hn] at hhead
          cases hhead
          obtain ⟨_, _, _, _, a, hans⟩ := h.goes i (by omega)
          cases a with
          | some q => exact ⟨q, hans⟩
          | none =>
            exact absurd ⟨i + 1, fun j hj => h.goes j (by omega), b, hrd, hshard,
              Or.inr ⟨List.isEmpty_iff.mp hempty, i, rfl, hans⟩⟩ hno
      · trivial
    · rename_i hne
      have hne' : b.records ≠ [] := fun e => hne (by simp [e])
      refine solo_seq (solo_deliverScript hm hr (by rw [ha, h.length, hn])) ?_
      intro r s₂ h₂
      cases r with
      | none => trivial
      | some c =>
        obtain ⟨hh, hok⟩ := h₂ c rfl
        refine solo_seq (solo_unlogged (uses_metric (persisting_unlogged sc) _) hh) ?_
        intro _ s₃ h₃
        split
        · rename_i hshard
          refine hend _ s₃ ?_
          intro a hhead
          rw [h₃.head] at hhead
          cases hhead
          obtain ⟨a, hans⟩ := hok
          cases a with
          | some q => exact ⟨q, hans⟩
          | none =>
            exact absurd ⟨n, fun j hj => h.goes j (by omega), b, hrd, hshard, Or.inl ⟨hne', hans⟩⟩ hno
        · rename_i hshard
          refine ⟨h₃.marked, h₃.length.trans h₃.reads.symm, ?_, ?_⟩
          · intro i hi
            rw [h₃.reads] at hi
            by_cases hin : i = n
            · exact hin ▸ ⟨b, hrd, hne', by simpa using hshard, hok⟩
            · exact h.goes i (by omega)
          · intro i hi
            obtain rfl : i = n := by
              rw [h₃.reads] at hi
              omega
            exact h₃.head

/-! ## With such an end some run completes unacknowledged -/

def accepting : Req → Reply
  | .now => .time 0
  | _ => .ok

end

section
variable (sc : Script) (w : Worker) (task : ShardTask) (s : PassLog)

theorem eval_checkpoint {key : ShardId} {o : Worker} {c : Nat} {q : SequenceNumber} :
    eval sc.handler w accepting (dynamoDbLeaseStore.checkpoint key o c q) s = some (.ok (c + 1), s) := by
  have hs : ({ s with marked := s.marked || false } : PassLog) = s := by rw [Bool.or_false]
  change some (Except.ok (c + 1), ({ s with marked := s.marked || false } : PassLog)) = _
  rw [hs]

theorem eval_withDefer {β : Type} (x : β) (f : CkptDefer → β × CkptDefer) :
    ∃ b m, eval sc.handler w accepting (withDefer x f) s = some (b, { s with mem := m }) := ⟨_, _, rfl⟩

theorem eval_persistAck (c : Nat) (q : SequenceNumber) :
    ∃ c' m, eval sc.handler w accepting (persistAck dynamoDbLeaseStore task c q) s =
      some (some c', { s with mem := m }) := by
  unfold persistAck
  split
  · obtain ⟨due, m, hdue⟩ := eval_withDefer sc w s none
      (fun d => d.recordAck task.shard q 0)
    have hnow : eval sc.handler w accepting now s = some (0, s) := rfl
    simp only [Prog.bind_eq, eval_bind, hnow, Option.bind_some, hdue]
    cases due with
    | none => exact ⟨c, m, rfl⟩
    | some due =>
      simp only [eval_bind, eval_checkpoint, Option.bind_some]
      exact ⟨c + 1, _, rfl⟩
  · simp only [Prog.bind_eq, eval_bind, eval_checkpoint, Option.bind_some]
    exact ⟨c + 1, s.mem, rfl⟩

theorem eval_completeShard {c : Nat} :
    eval sc.handler w accepting (completeShard dynamoDbLeaseStore task c) s =
      some (.ended, { s with marked := true }) := by
  have hs : ({ s with marked := s.marked || true } : PassLog) = { s with marked := true } := by rw [Bool.or_true]
  change some (PassOutcome.ended, ({ s with marked := s.marked || true } : PassLog)) = _
  rw [hs]

theorem eval_endShard (c : Nat) :
    ∃ o m, eval sc.handler w accepting (endShard dynamoDbLeaseStore task c) s =
      some (o, { s with marked := true, mem := m }) := by
  unfold endShard
  split
  · obtain ⟨due, m, hdue⟩ := eval_withDefer sc w s none
      (fun d => d.takePending task.shard)
    simp only [Prog.bind_eq, eval_bind, hdue, Option.bind_some]
    cases due with
    | none =>
      obtain ⟨_, m', hf⟩ := eval_withDefer sc w { s with mem := m } ()
        (fun d => ((), d.forget task.shard))
      simp only [forgetPending, eval_bind, hf, Option.bind_some, eval_completeShard]
      exact ⟨_, _, rfl⟩
    | some due =>
      obtain ⟨_, m', hf⟩ := eval_withDefer sc w { s with mem := m } ()
        (fun d => ((), d.forget task.shard))
      simp only [forgetPending, eval_bind, eval_checkpoint, hf, Option.bind_some, eval_completeShard]
      exact ⟨_, _, rfl⟩
  · exact ⟨_, s.mem, eval_completeShard ..⟩

def Script.answersTo (sc : Script) : Nat → List (Except AwsError (Option SequenceNumber))
  | 0 => []
  | n + 1 => sc.answer n :: sc.answersTo n

theorem length_answersTo : ∀ n, (sc.answersTo n).length = n
  | 0 => rfl
  | n + 1 => by rw [Script.answersTo, List.length_cons, length_answersTo n]

theorem eval_getRecords {b : RecordBatch} (shard : ShardId) (a : Option SequenceNumber) (h : sc.read s.reads = .ok b) :
    eval sc.handler w accepting (contractSource.getRecords shard a) s =
      some (.ok b, { s with reads := s.reads + 1 }) := by
  change some ((sc.read s.reads).mapError _, _) = _
  rw [h]
  rfl

theorem eval_deliverRecords (c : Nat) (records : List Record) {a : Option SequenceNumber}
    (h : sc.answer s.answers.length = .ok a) :
    ∃ c' m, eval sc.handler w accepting (deliverRecords dynamoDbLeaseStore task c records) s =
      some (some c', { s with answers := .ok a :: s.answers, mem := m }) := by
  have hd : eval sc.handler w accepting (deliver task.shard records) s =
      some (.ok a, { s with answers := .ok a :: s.answers }) := by
    change some (sc.answer s.answers.length, _) = _
    rw [h]
  unfold deliverRecords
  simp only [Prog.bind_eq, eval_bind, hd, Option.bind_some]
  cases a with
  | none => exact ⟨c, s.mem, rfl⟩
  | some q => exact eval_persistAck ..

theorem runs_round {n : Nat} {m : Memory} (h : sc.Goes n) (st : PassState) :
    ∃ st' m', Runs sc.handler Elsewhere w (passBody contractSource dynamoDbLeaseStore task st)
      ⟨n, sc.answersTo n, false, m⟩ (.ret (.inl st')) ⟨n + 1, sc.answersTo (n + 1), false, m'⟩ := by
  obtain ⟨b, hb, hne, hend, a, ha⟩ := h
  obtain ⟨c, m', hd⟩ := eval_deliverRecords sc w task ⟨n + 1, sc.answersTo n, false, m⟩ st.counter b.records
    (by rw [length_answersTo]; exact ha)
  refine ⟨⟨lastSeq b.records, c, true⟩, m', runs_of_eval accepting _ ?_⟩
  have hempty : b.records.isEmpty = false := by simpa using hne
  unfold passBody
  simp only [Prog.bind_eq, eval_bind, eval_getRecords sc w ⟨n, sc.answersTo n, false, m⟩ _ _ hb, Option.bind_some,
    hempty, Bool.false_eq_true, ite_false, hd, hend, metric, Script.answersTo, ha]
  rfl

theorem runs_rounds {n : Nat} {m : Memory} (h : ∀ i < n, sc.Goes i) (st : PassState) :
    ∃ st' m', ∀ q t, Runs sc.handler Elsewhere w (Prog.iter (passBody contractSource dynamoDbLeaseStore task) st')
        ⟨n, sc.answersTo n, false, m'⟩ q t →
      Runs sc.handler Elsewhere w (Prog.iter (passBody contractSource dynamoDbLeaseStore task) st)
        ⟨0, [], false, m⟩ q t := by
  induction n with
  | zero => exact ⟨st, m, fun q t h => h⟩
  | succ n ih =>
    obtain ⟨st₁, m₁, h₁⟩ := ih fun i hi => h i (by omega)
    obtain ⟨st₂, m₂, h₂⟩ := runs_round sc w task (m := m₁) (h n (by omega)) st₁
    exact ⟨st₂, m₂, fun q t ht => h₁ q t (.again h₂ ht)⟩

theorem runs_end {n : Nat} {m : Memory} {b : RecordBatch} (hb : sc.read n = .ok b) (hend : b.shardEnd = true)
    {answers : List (Except AwsError (Option SequenceNumber))}
    (ha : b.records = [] ∧ answers = sc.answersTo n ∨
      b.records ≠ [] ∧ answers = sc.answersTo (n + 1) ∧ ∃ a, sc.answer n = .ok a) (st : PassState) :
    ∃ o m', Runs sc.handler Elsewhere w (passBody contractSource dynamoDbLeaseStore task st)
      ⟨n, sc.answersTo n, false, m⟩ (.ret (.inr o)) ⟨n + 1, answers, true, m'⟩ := by
  have hread := fun shard a => eval_getRecords sc w ⟨n, sc.answersTo n, false, m⟩ shard a hb
  rcases ha with ⟨hnil, rfl⟩ | ⟨hne, rfl, a, ha⟩
  · obtain ⟨o, m', ho⟩ := eval_endShard sc w task ⟨n + 1, sc.answersTo n, false, m⟩ st.counter
    refine ⟨.ok o, m', runs_of_eval accepting _ ?_⟩
    unfold passBody
    simp only [Prog.bind_eq, eval_bind, hread, Option.bind_some, hnil, List.isEmpty_nil, ite_true, hend, ho]
    rfl
  · obtain ⟨c, m₁, hd⟩ := eval_deliverRecords sc w task ⟨n + 1, sc.answersTo n, false, m⟩ st.counter b.records
      (by rw [length_answersTo]; exact ha)
    obtain ⟨o, m', ho⟩ := eval_endShard sc w task ⟨n + 1, .ok a :: sc.answersTo n, false, m₁⟩ c
    refine ⟨.ok o, m', runs_of_eval accepting _ ?_⟩
    have hempty : b.records.isEmpty = false := by simpa using hne
    have hmetric : ∀ (x : Metric) (t : PassLog), eval sc.handler w accepting (metric x) t = some ((), t) :=
      fun _ _ => rfl
    unfold passBody
    simp only [Prog.bind_eq, eval_bind, hread, Option.bind_some, hempty, Bool.false_eq_true, ite_false, hd, hmetric,
      hend, ite_true, ho, Script.answersTo, ha]
    rfl

theorem runs_resume (m : Memory) :
    ∃ a m', ∀ q t, Runs sc.handler Elsewhere w (Prog.iter (passBody contractSource dynamoDbLeaseStore task)
        ⟨a, task.counter, false⟩) ⟨0, [], false, m'⟩ q t →
      Runs sc.handler Elsewhere w (processShard contractSource dynamoDbLeaseStore task) ⟨0, [], false, m⟩ q t := by
  have hresume : ∃ a m', eval sc.handler w accepting (resumePosition task) ⟨0, [], false, m⟩ =
      some (a, ⟨0, [], false, m'⟩) := by
    unfold resumePosition
    split
    · obtain ⟨r, m', hr⟩ := eval_withDefer sc w ⟨0, [], false, m⟩ none
        (fun d => (d.resumeFrom task.shard, d))
      simp only [Prog.bind_eq, eval_bind, hr, Option.bind_some]
      exact ⟨_, _, rfl⟩
    · exact ⟨_, _, rfl⟩
  obtain ⟨a, m', ha⟩ := hresume
  exact ⟨a, m', fun q t h => .seq (runs_of_eval accepting _ ha) h⟩

theorem unacked_end_completes (h : sc.UnackedEnd) :
    ∃ m q t, Runs sc.handler Elsewhere w (processShard contractSource dynamoDbLeaseStore task) ⟨0, [], false, m⟩ q t ∧
      ¬ AckedEnd t := by
  obtain ⟨e, hgo, b, hb, hend, hcase⟩ := h
  obtain ⟨a₀, m₀, hstart⟩ := runs_resume sc w task (Memory.init ⟨w, 0, 0, 0, .trimHorizon, none, none⟩)
  obtain ⟨st, m, hrun⟩ := runs_rounds sc w task (m := m₀) hgo ⟨a₀, task.counter, false⟩
  have hlast : ∃ answers, answers.head? = some (.ok none) ∧ (b.records = [] ∧ answers = sc.answersTo e ∨
      b.records ≠ [] ∧ answers = sc.answersTo (e + 1) ∧ ∃ a, sc.answer e = .ok a) := by
    rcases hcase with ⟨hne, ha⟩ | ⟨hnil, i, rfl, ha⟩
    · exact ⟨_, by rw [Script.answersTo, List.head?_cons, ha], Or.inr ⟨hne, rfl, _, ha⟩⟩
    · exact ⟨_, by rw [Script.answersTo, List.head?_cons, ha], Or.inl ⟨hnil, rfl⟩⟩
  obtain ⟨answers, hhead, hans⟩ := hlast
  obtain ⟨o, m', hfin⟩ := runs_end sc w task (m := m) hb hend hans st
  refine ⟨_, _, _, hstart _ _ (hrun _ _ (.leave hfin)), ?_⟩
  intro hacked
  obtain ⟨q, hq⟩ := hacked rfl _ hhead
  cases hq

end

/-- No completion without acknowledgement: whatever the store, the clock and the worker's other tasks do, a
pass that marks the lease completed has its latest batch acked, exactly when the source does not end the shard
on an unacknowledged batch. -/
theorem completion_acked_iff (sc : Script) (task : ShardTask) :
    (∀ m q t, Runs sc.handler Elsewhere task.owner (processShard contractSource dynamoDbLeaseStore task)
      ⟨0, [], false, m⟩ q t → AckedEnd t) ↔ ¬ sc.UnackedEnd := by
  constructor
  · intro h hbad
    obtain ⟨m, q, t, hrun, hnot⟩ := unacked_end_completes sc task.owner task hbad
    exact hnot (h m q t hrun)
  · intro hno m q t hrun
    have h₀ : Between sc ⟨0, [], false, m⟩ := ⟨rfl, rfl, nofun, nofun⟩
    refine hrun.safe (fun s => ⟨s.mem, rfl⟩) ?_ ?_ nofun ?_
    · intro a b c h₁ h₂
      obtain ⟨m₁, rfl⟩ := h₁
      obtain ⟨m₂, rfl⟩ := h₂
      exact ⟨m₂, rfl⟩
    · intro s s' ho h
      obtain ⟨m', rfl⟩ := ho
      exact h
    · unfold processShard
      refine solo_seq (P := fun _ => Between sc) ?_ ?_
      · unfold resumePosition
        split
        · refine solo_seq (P := fun _ => Between sc) ?_ fun _ _ h => h
          intro s₁ h₁ c a s₂ he
          have hb := h₀.elsewhere h₁
          cases he
          exact ⟨fun hm => absurd (hb.marked.symm.trans hm) (by decide), hb.marked, hb.length, hb.goes, hb.last⟩
        · exact h₀
      · intro a s₁ h₁
        refine solo_iter (fun _ => Between sc) (fun _ _ _ ho h => h.elsewhere ho) ?_ h₁
        intro st s₂ h₂
        exact solo_passRound hno st h₂

def clientGone : Script := ⟨fun _ => .ok ⟨[⟨"shard-0", "1", []⟩], true, none⟩, fun _ => .ok none⟩

theorem completed_without_ack : ¬ ∀ m q t, Runs clientGone.handler Elsewhere "a"
    (processShard contractSource dynamoDbLeaseStore ⟨"a", "shard-0", 1, none, false⟩) ⟨0, [], false, m⟩ q t →
    AckedEnd t := by
  intro h
  have hbad : clientGone.UnackedEnd := ⟨0, nofun, _, rfl, rfl, Or.inl ⟨by decide, rfl⟩⟩
  obtain ⟨m, q, t, hrun, hnot⟩ := unacked_end_completes clientGone "a" ⟨"a", "shard-0", 1, none, false⟩ hbad
  exact hnot (h m q t hrun)

end StreamsConsumer
