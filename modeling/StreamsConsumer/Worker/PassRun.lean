import StreamsConsumer.Worker.AtLeastOnce
import StreamsConsumer.Worker.PassUses
import StreamsConsumer.Worker.Routine

/-!
# What one pass delivers

A single run of `process_shard`, among other workers, the passes of this worker
over its other shards and an environment that may do anything but deliver this
shard in this worker's name, shorten its log or touch its pending ack. Its
deliveries are one contiguous run of the log, in order, right after the position
it resumed from.
-/

namespace StreamsConsumer
open Conc

def Event.recordsFor (w : Worker) (k : ShardId) : Event → List Record
  | .delivered v j records _ => if v = w ∧ j = k then records else []
  | _ => []

def deliveredBy (w : Worker) (k : ShardId) (es : List Event) : List Record :=
  es.reverse.flatMap (Event.recordsFor w k)

theorem deliveredBy_append (w : Worker) (k : ShardId) (es es' : List Event) :
    deliveredBy w k (es' ++ es) = deliveredBy w k es ++ deliveredBy w k es' := by
  simp [deliveredBy]

structure Others (w : Worker) (k : ShardId) (s s' : World) : Prop where
  log : s.stream.log k <+: s'.stream.log k
  seqs : ((s.stream.log k).map Record.seq).Nodup → ((s'.stream.log k).map Record.seq).Nodup
  mem : (s'.mem w).pending k = (s.mem w).pending k
  trace : ∃ new, s'.trace = new ++ s.trace ∧ deliveredBy w k new = []

namespace Others

variable {w : Worker} {k : ShardId}

theorem refl (s : World) : Others w k s s := ⟨List.prefix_rfl, id, rfl, [], rfl, rfl⟩

theorem trans (a b c : World) (h₁ : Others w k a b) (h₂ : Others w k b c) : Others w k a c := by
  obtain ⟨n₁, e₁, d₁⟩ := h₁.trace
  obtain ⟨n₂, e₂, d₂⟩ := h₂.trace
  refine ⟨h₁.log.trans h₂.log, fun h => h₂.seqs (h₁.seqs h), h₂.mem.trans h₁.mem, n₂ ++ n₁, ?_, ?_⟩
  · rw [e₂, e₁, List.append_assoc]
  · rw [deliveredBy_append, d₁, d₂]
    rfl

end Others

/-! ## What a pass runs beside -/

namespace Others

variable {w v : Worker} {k : ShardId} {s s' : World} {K : Contract}

theorem of_record (w : Worker) (k : ShardId) (s : World) {e : Event} (he : Event.recordsFor w k e = []) :
    Others w k s (s.record e) :=
  ⟨List.prefix_rfl, id, rfl, [e], rfl, by simp [deliveredBy, he]⟩

/-- Any step of another worker, and any of the worker's own that leaves the shard's consumer and pending ack alone. -/
theorem exec {r : Req} {c : Choice} {a : Resp r} (hd : v = w → ∀ records, r ≠ .deliver k records)
    (hm : v = w → ∀ (β : Type) (f : Memory → β × Memory), r = .mem f → ∀ m, (f m).2.pending k = m.pending k)
    (h : exec K v r c s = some (a, s')) : Others w k s s' := by
  rcases exec_cases h with rfl | ⟨_, f, rfl, rfl⟩ | ⟨_, _, _, _, _, rfl⟩ | ⟨j, records, answer, rfl, rfl⟩ |
    ⟨_, _, _, rfl⟩ | ⟨_, _, rfl⟩
  · exact refl _
  · refine ⟨List.prefix_rfl, id, ?_, [], rfl, rfl⟩
    by_cases hv : v = w
    · subst hv
      rw [World.setMem]
      simpa using hm rfl _ f rfl (s.mem v)
    · simp [World.setMem, Function.update_of_ne (Ne.symm hv)]
  · exact ⟨List.prefix_rfl, id, rfl, [_], rfl, rfl⟩
  · refine of_record w k s (if_neg ?_)
    rintro ⟨rfl, rfl⟩
    exact hd rfl records rfl
  · exact of_record w k s rfl
  · exact of_record w k s rfl

/-- The worker's passes over its other shards. -/
theorem sibling {r : Req} {c : Choice} {a : Resp r} (hr : Sibling k r)
    (h : StreamsConsumer.exec K w r c s = some (a, s')) : Others w k s s' := by
  refine exec (fun _ records e => ?_) (fun _ β f e => ?_) h
  · subst e
    exact hr rfl
  · subst e
    exact fun m => (Memory.pending_of_deferral (hr m).1).1

theorem env {e : Env} (h : envStep e s = some s') : Others w k s s' := by
  cases e <;> simp only [envStep, Option.ite_none_right_eq_some, Option.some.injEq] at h
  case append shard r =>
    obtain ⟨⟨_, _, _, _, hnew⟩, rfl⟩ := h
    by_cases hk : k = shard
    · subst hk
      refine ⟨by simp, fun hn => ?_, rfl, [], rfl, rfl⟩
      simp only [Function.update_self, List.map_append, List.map_cons, List.map_nil]
      exact List.nodup_append.mpr ⟨hn, List.nodup_singleton _, by simpa using hnew⟩
    · exact ⟨by simp [hk], fun hn => by simpa [hk] using hn, rfl, [], rfl, rfl⟩
  case trim shard =>
    obtain ⟨_, rfl⟩ := h
    exact ⟨List.prefix_rfl, id, rfl, [_], rfl, rfl⟩
  all_goals first
    | (subst h; exact ⟨List.prefix_rfl, id, rfl, [], rfl, rfl⟩)
    | (obtain ⟨_, rfl⟩ := h; exact ⟨List.prefix_rfl, id, rfl, [], rfl, rfl⟩)

end Others

/-! ## How far a pass is -/

/-- Since the trace was `base`, the worker has delivered `d`, the run of the log from `start` on, and
`a` is the position right after it. -/
structure Reached (w : Worker) (k : ShardId) (base : List Event) (start : Nat) (a : Option SequenceNumber)
    (d : List Record) (s : World) : Prop where
  trace : ∃ new, s.trace = new ++ base ∧ deliveredBy w k new = d
  run : RunAt (s.stream.log k) start d
  seqs : ((s.stream.log k).map Record.seq).Nodup
  known : Known (s.stream.log k) a
  pos : position (s.stream.log k) a = start + d.length

section
variable {w : Worker} {k : ShardId} {base : List Event} {start : Nat} {a : Option SequenceNumber} {d : List Record}
variable {s s' : World} {K : Contract}

theorem Reached.others (h : Reached w k base start a d s) (ho : Others w k s s') :
    Reached w k base start a d s' := by
  obtain ⟨n₁, e₁, d₁⟩ := h.trace
  obtain ⟨n₂, e₂, d₂⟩ := ho.trace
  refine ⟨⟨n₂ ++ n₁, by rw [e₂, e₁, List.append_assoc], ?_⟩, h.run.mono ho.log, ho.seqs h.seqs,
    h.known.mono ho.log, ?_⟩
  · rw [deliveredBy_append, d₁, d₂, List.append_nil]
  · rw [position_append ho.log h.known]
    exact h.pos

theorem Reached.setMem (h : Reached w k base start a d s) (v : Worker) (m : Memory) :
    Reached w k base start a d (s.setMem v m) :=
  ⟨h.trace, h.run, h.seqs, h.known, h.pos⟩

/-! ## Requests that deliver nothing -/

def Quiet (r : Req) : Prop := ∀ k records, r ≠ .deliver k records

theorem exec_quiet {r : Req} (hr : Quiet r) {v : Worker} {c : Choice} {a : Resp r}
    (h : exec K v r c s = some (a, s')) :
    s'.stream = s.stream ∧ ∃ new, s'.trace = new ++ s.trace ∧ deliveredBy w k new = [] := by
  rcases exec_cases h with rfl | ⟨_, f, _, rfl⟩ | ⟨key, op, row, _, _, rfl⟩ | ⟨j, records, answer, e, _⟩ |
    ⟨j, type, pos, rfl⟩ | ⟨parent, _, rfl⟩
  · exact ⟨rfl, [], rfl, rfl⟩
  · exact ⟨rfl, [], rfl, rfl⟩
  · exact ⟨rfl, [_], rfl, rfl⟩
  · exact absurd e (hr j records)
  · exact ⟨rfl, [_], rfl, rfl⟩
  · exact ⟨rfl, [_], rfl, rfl⟩

theorem Reached.quiet (h : Reached w k base start a d s) {r : Req} (hr : Quiet r) {v : Worker} {c : Choice}
    {x : Resp r} (he : exec K v r c s = some (x, s')) : Reached w k base start a d s' := by
  obtain ⟨hs, n₂, e₂, d₂⟩ := exec_quiet (w := w) (k := k) hr he
  obtain ⟨n₁, e₁, d₁⟩ := h.trace
  refine ⟨⟨n₂ ++ n₁, by rw [e₂, e₁, List.append_assoc], ?_⟩, hs ▸ h.run, hs ▸ h.seqs, hs ▸ h.known, hs ▸ h.pos⟩
  rw [deliveredBy_append, d₁, d₂, List.append_nil]

theorem ending_quiet : Ending Quiet :=
  ⟨⟨fun _ => nofun, nofun, nofun, nofun, nofun, nofun⟩, nofun, nofun⟩

/-! ## The pass -/

def Contiguous (w : Worker) (k : ShardId) (base : List Event) (start : Nat) (s : World) : Prop :=
  ∃ a d, Reached w k base start a d s

theorem solo_quiet {α : Type} {p : Fx α} (hp : Uses Quiet p) (h : Reached w k base start a d s) :
    solo (handler K) (Others w k) w (Contiguous w k base start) p (fun _ => Reached w k base start a d) s :=
  solo_of_uses (fun _ _ ho h => h.others ho) (fun _ h => ⟨a, d, h⟩) (fun _ hr _ _ _ _ h he => h.quiet hr he) p hp h

theorem solo_read (hK : K.Faithful) (h : Reached w k base start a d s) :
    solo (handler K) (Others w k) w (Contiguous w k base start) (contractSource.getRecords k a)
      (fun r s' => Reached w k base start a d s' ∧
        ∀ b, r = .ok b → RunAt (s'.stream.log k) (start + d.length) b.records) s := by
  intro s₁ h₁ c x s₂ he
  have hr := h.others h₁
  change execGetRecords K k a c s₁ = some (x, s₂) at he
  cases c <;> simp only [execGetRecords, reduceCtorEq] at he
  case batch st n shardEnd =>
    split at he
    · rename_i hreads
      cases he
      refine ⟨⟨a, d, hr⟩, hr, ?_⟩
      intro b hb
      cases hb
      have hstart := hK.start hreads hr.known
      rw [hr.pos] at hstart
      subst hstart
      exact (RunAt.slice (hK.bound hreads)).1
    · cases he
  case fault e =>
    cases he
    exact ⟨⟨a, d, hr⟩, hr, fun b hb => by cases hb⟩

theorem RunAt.append {log d d' : List Record} {start : Nat} (h : RunAt log start d)
    (h' : RunAt log (start + d.length) d') : RunAt log start (d ++ d') := by
  refine ⟨?_, ?_⟩
  · rw [List.length_append, List.take_add, h.1, List.drop_drop, h'.1]
  · rw [List.length_append]
    have := h'.2
    omega

theorem Reached.deliver (h : Reached w k base start a d s) {records : List Record}
    (hr : RunAt (s.stream.log k) (start + d.length) records) (hne : records ≠ [])
    (ans : Except AwsError (Option SequenceNumber)) :
    Reached w k base start (lastSeq records) (d ++ records) (s.record (.delivered w k records ans)) := by
  obtain ⟨new, e, hd⟩ := h.trace
  obtain ⟨hp, hk⟩ := hr.position_last h.seqs hne
  refine ⟨⟨.delivered w k records ans :: new, by rw [World.record, e]; rfl, ?_⟩, h.run.append hr, h.seqs, hk, ?_⟩
  · rw [← List.singleton_append, deliveredBy_append, hd]
    simp [deliveredBy, Event.recordsFor]
  · rw [List.length_append, ← Nat.add_assoc]
    exact hp

theorem solo_deliver (h : Reached w k base start a d s) {records : List Record}
    (hr : RunAt (s.stream.log k) (start + d.length) records) (hne : records ≠ []) :
    solo (handler K) (Others w k) w (Contiguous w k base start) (deliver k records)
      (fun _ => Reached w k base start (lastSeq records) (d ++ records)) s := by
  intro s₁ h₁ c x s₂ he
  have hstep : ∀ ans, s₂ = s₁.record (.delivered w k records ans) →
      Reached w k base start (lastSeq records) (d ++ records) s₂ := by
    intro ans e
    subst e
    exact (h.others h₁).deliver (hr.mono h₁.log) hne ans
  have hall : Reached w k base start (lastSeq records) (d ++ records) s₂ := by
    change execDeliver K w k records c s₁ = some (x, s₂) at he
    cases c <;> simp only [execDeliver, reduceCtorEq] at he
    case acked q => split at he <;> cases he; exact hstep _ rfl
    case unacked => cases he; exact hstep _ rfl
    case fault e => cases he; exact hstep _ rfl
  exact ⟨⟨_, _, hall⟩, hall⟩

theorem solo_deliverRecords {task : ShardTask} {c : Nat} (h : Reached w task.shard base start a d s)
    {records : List Record} (hr : RunAt (s.stream.log task.shard) (start + d.length) records) (hne : records ≠ []) :
    solo (handler K) (Others w task.shard) w (Contiguous w task.shard base start)
      (deliverRecords dynamoDbLeaseStore task c records)
      (fun _ => Reached w task.shard base start (lastSeq records) (d ++ records)) s := by
  unfold deliverRecords
  refine solo_seq (solo_deliver h hr hne) ?_
  intro x s₁ h₁
  match x with
  | .ok (some q) => exact solo_quiet (uses_persistAck ending_quiet.toPersisting task c q) h₁
  | .ok none => exact h₁
  | .error e =>
    simp only [Prog.pure_eq, Prog.bind_eq]
    split
    · exact solo_seq (solo_quiet (uses_withDefer ending_quiet.toPersisting _ _) h₁) fun _ _ h => h
    · exact h₁

theorem solo_passBody (hK : K.Faithful) {task : ShardTask} (st : PassState)
    (h : Reached w task.shard base start st.after d s) :
    solo (handler K) (Others w task.shard) w (Contiguous w task.shard base start)
      (passBody contractSource dynamoDbLeaseStore task st)
      (Sum.elim (fun st s' => ∃ d, Reached w task.shard base start st.after d s') fun _ _ => True) s := by
  have hend : ∀ c a d s, Reached w task.shard base start a d s →
      solo (handler K) (Others w task.shard) w (Contiguous w task.shard base start)
        ((endShard dynamoDbLeaseStore task c).bind fun o =>
          (.ret (.inr (.ok o)) : Fx (PassState ⊕ Except WorkerError PassOutcome)))
        (Sum.elim (fun st s' => ∃ d, Reached w task.shard base start st.after d s') fun _ _ => True) s := by
    intro c a d s h
    refine solo_seq (solo_quiet (uses_endShard ending_quiet task c) h) ?_
    intro _ _ _
    trivial
  unfold passBody
  refine solo_seq (solo_read hK h) ?_
  intro r s₁ ⟨h₁, hr⟩
  cases r with
  | error e => trivial
  | ok b =>
    simp only [Prog.pure_eq, Prog.bind_eq]
    split
    · split
      · exact hend _ _ _ s₁ h₁
      · trivial
    · rename_i hne
      refine solo_seq (solo_deliverRecords h₁ (hr b rfl) (fun e => hne (by simp [e]))) ?_
      intro x s₂ h₂
      cases x with
      | none => trivial
      | some c =>
        refine solo_seq (solo_quiet (uses_metric ending_quiet.toPersisting _) h₂) ?_
        intro _ s₃ h₃
        split
        · exact hend _ _ _ s₃ h₃
        · exact ⟨_, h₃⟩

end

def resumeAt (task : ShardTask) (m : Memory) : Option SequenceNumber :=
  (if task.deferred then m.pending task.shard else none).or task.checkpoint

theorem solo_resumePosition {K : Contract} {task : ShardTask} {base : List Event} {start : Nat}
    {d : List Record} {s : World}
    (h : Reached task.owner task.shard base start (resumeAt task (s.mem task.owner)) d s) :
    solo (handler K) (Others task.owner task.shard) task.owner (Contiguous task.owner task.shard base start)
      (resumePosition task) (fun a => Reached task.owner task.shard base start a d) s := by
  unfold resumePosition
  split
  · rename_i hdef
    refine solo_seq (P := fun x s' => x.or task.checkpoint = resumeAt task (s.mem task.owner) ∧
      Reached task.owner task.shard base start (resumeAt task (s.mem task.owner)) d s') ?_ ?_
    · intro s₁ h₁ c x s₂ he
      cases he
      have h₂ := (h.others h₁).setMem task.owner
      refine ⟨⟨_, _, h₂ _⟩, ?_, h₂ _⟩
      unfold resumeAt
      rw [← h₁.mem]
      unfold Memory.pending
      simp only [hdef, if_true]
      cases (s₁.mem task.owner).ckptDefer <;> rfl
    · intro x s₁ ⟨e, h₁⟩
      show Reached task.owner task.shard base start (x.or task.checkpoint) d s₁
      rw [e]
      exact h₁
  · rename_i hdef
    have e : resumeAt task (s.mem task.owner) = task.checkpoint := by
      unfold resumeAt
      simp [hdef]
    rw [e] at h
    exact h

theorem pass_delivers_run {K : Contract} (hK : K.Faithful) (task : ShardTask) {s t : World}
    {q : Fx (Except WorkerError PassOutcome)} (hs : ((s.stream.log task.shard).map Record.seq).Nodup)
    (hk : Known (s.stream.log task.shard) (resumeAt task (s.mem task.owner)))
    (h : Runs (handler K) (Others task.owner task.shard) task.owner
      (processShard contractSource dynamoDbLeaseStore task) s q t) :
    ∃ new, t.trace = new ++ s.trace ∧ RunAt (t.stream.log task.shard)
      (position (s.stream.log task.shard) (resumeAt task (s.mem task.owner)))
      (deliveredBy task.owner task.shard new) := by
  have h₀ : Reached task.owner task.shard s.trace
      (position (s.stream.log task.shard) (resumeAt task (s.mem task.owner)))
      (resumeAt task (s.mem task.owner)) [] s :=
    ⟨⟨[], rfl, rfl⟩, ⟨by simp, position_le⟩, hs, hk, rfl⟩
  have hsolo : solo (handler K) (Others task.owner task.shard) task.owner (Contiguous task.owner task.shard s.trace
      (position (s.stream.log task.shard) (resumeAt task (s.mem task.owner))))
      (processShard contractSource dynamoDbLeaseStore task) (fun _ _ => True) s := by
    refine solo_seq (solo_resumePosition h₀) ?_
    intro a s₁ h₁
    refine solo_iter (fun (st : PassState) s' => ∃ d, Reached task.owner task.shard s.trace
      (position (s.stream.log task.shard) (resumeAt task (s.mem task.owner))) st.after d s') ?_ ?_ ⟨[], h₁⟩
    · intro st s₁ s₂ ho ⟨d, hd⟩
      exact ⟨d, hd.others ho⟩
    · intro st s₁ ⟨d, hd⟩
      exact solo_passBody hK st hd
  obtain ⟨a, d, hd⟩ := h.safe Others.refl Others.trans (fun _ _ ho ⟨a, d, hd⟩ => ⟨a, d, hd.others ho⟩)
    ⟨_, _, h₀⟩ hsolo
  obtain ⟨new, e, hnew⟩ := hd.trace
  exact ⟨new, e, hnew ▸ hd.run⟩

/-- At least once, no gap. In every reachable state of a fleet, for a shard whose leases were seeded at
TRIM_HORIZON: everything up to the durable checkpoint was delivered, everything was delivered once the
lease has been marked completed, and a pass started from any row delivers one contiguous run. -/
theorem at_least_once_no_gap {D : Deployment} {K : Contract} (hK : K.Faithful) (hsrc : D.source = contractSource)
    {p : Pool Req Resp Worker World} (hp : D.Reachable K p) {k : ShardId} (hseed : SeededNone p.world k) :
    (∀ r, p.world.table k = some r → Known (p.world.stream.log k) r.checkpoint ∧
      ∀ x ∈ (p.world.stream.log k).take (position (p.world.stream.log k) r.checkpoint), Delivered p.world k x) ∧
    ((MarkedIn p.world.trace k ∨ ∃ r, p.world.table k = some r ∧ r.completed = true) →
      ∀ x ∈ p.world.stream.log k, Delivered p.world k x) ∧
    (∀ (w : Worker) (r : Lease) (q : Fx (Except WorkerError PassOutcome)) (t : World),
      r ∈ p.world.history → r.leaseKey = k →
      Runs (handler K) (Others w k) w (processShard D.source dynamoDbLeaseStore
        ⟨w, k, r.leaseCounter, r.checkpoint, (D.config w).deferred⟩) p.world q t →
      ∃ new, t.trace = new ++ p.world.trace ∧ RunAt (t.stream.log k)
        (position (p.world.stream.log k)
          (resumeAt ⟨w, k, r.leaseCounter, r.checkpoint, (D.config w).deferred⟩ (p.world.mem w)))
        (deliveredBy w k new)) := by
  have hi : CoverInv p.world := (coverProtocol hK hsrc).reachable (CoverInv.init D) hp
  have hrow : ∀ r ∈ p.world.history, r.leaseKey = k →
      Good p.world k r.checkpoint ∧ (r.completed = true → Finished p.world k) := by
    intro r hr hk
    subst hk
    exact hi.rows r hr hseed
  have hall : Finished p.world k → ∀ x ∈ p.world.stream.log k, Delivered p.world k x := by
    intro hf x hx
    exact hf.2 x (by rwa [List.take_length])
  refine ⟨?_, ?_, ?_⟩
  · intro r hr
    obtain ⟨hmem, hk⟩ := hi.sane.held k r hr
    exact (hrow r hmem hk).1
  · intro h
    rcases h with hm | ⟨r, hr, hc⟩
    · exact hall (hi.marked k hm hseed)
    · obtain ⟨hmem, hk⟩ := hi.sane.held k r hr
      exact hall ((hrow r hmem hk).2 hc)
  · intro w r q t hr hk hrun
    rw [hsrc] at hrun
    refine pass_delivers_run hK ⟨w, k, r.leaseCounter, r.checkpoint, (D.config w).deferred⟩ (hi.sane.seqs k) ?_ hrun
    have hresume : Good p.world k (resumeAt ⟨w, k, r.leaseCounter, r.checkpoint, (D.config w).deferred⟩
        (p.world.mem w)) := by
      unfold resumeAt
      split
      · cases hpend : (p.world.mem w).pending k with
        | none => exact (hrow r hr hk).1
        | some a => exact hi.pending w k a hpend hseed
      · exact (hrow r hr hk).1
    exact hresume.1

theorem exactContract_faithful : exactContract.Faithful where
  start h _ := by
    simp only [exactContract, Bool.and_eq_true, beq_iff_eq] at h
    exact h.1.1
  bound h := by
    simp only [exactContract, Bool.and_eq_true, decide_eq_true_eq] at h
    exact h.1.2
  shardEnd h := by
    simp only [exactContract, Bool.and_eq_true, beq_iff_eq, Bool.not_true, Bool.false_or] at h
    exact h.2
  acks h := by
    simpa [exactContract] using h

def drained : FleetPool :=
  plainFleet.perform exactContract World.serve "a" .cycle 60
    (plainFleet.envs exactContract [.appear ⟨"shard-0", []⟩, .append "shard-0" ⟨"shard-0", "1", []⟩,
      .append "shard-0" ⟨"shard-0", "2", []⟩, .close "shard-0"] (Pool.idle plainFleet.init))

def Event.seedsAt (k : ShardId) (cp : Option SequenceNumber) : Event → Bool
  | .wrote _ j (.createShardLease _ cp') _ => j != k || cp' == cp
  | _ => true

theorem seededNone_of_all {s : World} {k : ShardId} (h : s.trace.all (Event.seedsAt k none) = true) :
    SeededNone s k := by
  intro w ps cp row he
  have := List.all_eq_true.mp h _ he
  simpa [Event.seedsAt] using this

theorem at_least_once_no_gap_drained :
    drained.world.table "shard-0" = some ⟨"shard-0", some "a", 2, true, some "2", []⟩ ∧
      ∀ x ∈ drained.world.stream.log "shard-0", Delivered drained.world "shard-0" x := by
  have hrow : drained.world.table "shard-0" = some ⟨"shard-0", some "a", 2, true, some "2", []⟩ := by
    decide +kernel
  have hreach : plainFleet.Reachable exactContract drained :=
    Deployment.reachable_perform (Deployment.reachable_envs (Deployment.reachable_idle _ _))
  have hseed : SeededNone drained.world "shard-0" := seededNone_of_all (by decide +kernel)
  exact ⟨hrow, (at_least_once_no_gap exactContract_faithful rfl hreach hseed).2.1 (Or.inr ⟨_, hrow, rfl⟩)⟩

end StreamsConsumer
