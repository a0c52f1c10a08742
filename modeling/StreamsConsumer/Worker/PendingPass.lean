import StreamsConsumer.Worker.PendingAck

/-!
# A pass with a pending ack

One pass over the shard, request by request, beside whatever the worker's other
passes and the other workers do: it starts at the pending ack or at the row's
checkpoint, moves on with what it reads, and writes only what it was acked.
-/

namespace StreamsConsumer.PendingAck
open Conc

abbrev Does (D : Deployment) (K : Contract) (w : Worker) (k : ShardId) {α : Type} (p : Fx α) (Q : α → World → Prop)
    (s : World) : Prop :=
  joint (carefulMachine D K).toHandler w (duty D w k) p Q s

section
variable {D : Deployment} {K : Contract} {w : Worker} {k : ShardId} {s t : World} {a b : Option SequenceNumber}

theorem does_req {r : Req} {Q : Resp r → World → Prop} (h : ∀ s₁, Registry D s → Beside w k s s₁ → Registry D s₁ →
    Ahead w k r s₁ ∧ ∀ c a t, (carefulMachine D K).exec w r c s₁ = some (a, t) → Registry D t → Level w k t ∧ Q a t) :
    Does D K w k (Prog.req r) Q s := h

theorem does_calm {α : Type} {p : Fx α} (hp : Asks (Calm k) p) (h : Level w k s) :
    Does D K w k p (fun _ => Level w k) s := by
  refine joint_of_asks stable_level (fun _ h => h) ?_ p hp h
  intro r hr s hs hl
  exact ⟨hr.ahead, fun c a t he _ => level_calm hs hr hl he⟩

theorem does_sibling {L : World → Prop} (hL : (duty D w k).Stable L) (hlevel : ∀ s, L s → Level w k s) {α : Type}
    {p : Fx α} (hp : Asks (Sibling k) p) (h : L s) : Does D K w k p (fun _ => L) s := by
  refine joint_of_asks hL hlevel ?_ p hp h
  intro r hr s hs hl
  refine ⟨(Calm.sibling hr).ahead, ?_⟩
  intro c a t he ht
  exact hL s t hs (beside_sibling hs hr (exec_careful he).1) ht hl

theorem does_withDefer {β : Type} {x : β} {f : CkptDefer → β × CkptDefer} {Q : β → World → Prop}
    (hnone : ∀ s₁, Registry D s → Beside w k s s₁ → Registry D s₁ → (s₁.mem w).pending k = none →
      ∀ m, m.pending k = none → Level w k (s₁.setMem w m) ∧ Q x (s₁.setMem w m))
    (hsome : ∀ s₁ d, Registry D s → Beside w k s s₁ → Registry D s₁ → (s₁.mem w).pending k = d.resumeFrom k →
      ∀ m, m.pending k = (f d).2.resumeFrom k → Level w k (s₁.setMem w m) ∧ Q (f d).1 (s₁.setMem w m)) :
    Does D K w k (withDefer x f) Q s := by
  refine does_req ?_
  intro s₁ hs h₁ hs₁
  refine ⟨trivial, ?_⟩
  intro c a t he ht
  have hexec := (exec_careful he).1
  cases hexec
  cases hd : (s₁.mem w).ckptDefer with
  | none =>
    have hpend : (s₁.mem w).pending k = none := by simp [Memory.pending, hd]
    simp only [hd]
    exact hnone s₁ hs h₁ hs₁ hpend _ hpend
  | some d =>
    simp only [hd]
    refine hsome s₁ d hs h₁ hs₁ ?_ _ ?_
    · simp [Memory.pending, hd]
    · simp [Memory.pending]

theorem calm_withDefer {β : Type} {x : β} {f : CkptDefer → β × CkptDefer}
    (hf : ∀ d q, (f d).2.resumeFrom k = some q → d.resumeFrom k = some q) : Asks (Calm k) (withDefer x f) := by
  refine asks_req ?_
  intro m q hq
  cases hd : m.ckptDefer with
  | none => simpa only [hd] using hq
  | some d =>
    simp only [hd, Memory.pending, Option.bind_some] at hq ⊢
    exact hf d q hq

theorem calm_forgetPending : Asks (Calm k) (forgetPending k) := calm_withDefer fun _ _ h => CkptDefer.resumeFrom_forget h

theorem calm_lostLease (shard : ShardId) : Asks (Calm k) (lostLease shard) :=
  asks_bind (p := metric _) (asks_req trivial) fun _ =>
    asks_bind (p := consumerLeaseLost shard) (asks_req trivial) fun _ => trivial

theorem calm_giveUp {α : Type} (x : α) :
    Asks (Calm k) ((forgetPending k).bind fun _ => (lostLease k).bind fun _ => (.ret x : Fx α)) :=
  asks_bind calm_forgetPending fun _ => asks_bind (calm_lostLease k) fun _ => trivial

/-! ## Writing a checkpoint -/

/-- The worker is about to write `q`, or has written it, and goes on from `b`. -/
structure Writing (w : Worker) (k : ShardId) (q : SequenceNumber) (b : Option SequenceNumber) (s : World) : Prop where
  only : ∀ q', (s.mem w).pending k = some q' → q' = q
  known : Known (s.stream.log k) (some q)
  le : position (s.stream.log k) (some q) ≤ position (s.stream.log k) b
  behind : Behind w k s (some q)

theorem Writing.level {q : SequenceNumber} (h : Writing w k q b s) : Level w k s := by
  intro q' hq'
  rw [h.only q' hq']
  exact h.behind

theorem stable_writing {q : SequenceNumber} : (duty D w k).Stable (Writing w k q b) := by
  intro s t hs hb ht h
  refine ⟨?_, h.known.mono hb.log, ?_, h.behind.beside hb hs ht⟩
  · rw [hb.pending]
    exact h.only
  · rw [position_append hb.log h.known]
    exact h.le.trans (position_mono hb.log b)

theorem Writing.write {q : SequenceNumber} {c : Nat} {row : Option Lease} (h : Writing w k q b s)
    (ha : (DbOp.checkpoint w c q).apply k (s.table k) = some row) :
    Writing w k q b (s.write w k (.checkpoint w c q) row) := by
  refine ⟨h.only, h.known, h.le, ?_⟩
  intro r hr
  rw [heldRow_write] at hr
  cases hrow : row.filter fun r => decide (r.leaseKey = k ∧ r.owner = some w) with
  | none =>
    rw [hrow] at hr
    exact h.behind r hr
  | some r₁ =>
    rw [hrow, Option.some_or, Option.some.injEq] at hr
    subst hr
    obtain ⟨rfl, _⟩ := Option.filter_eq_some_iff.mp hrow
    obtain ⟨r₀, h₀, _, _⟩ := DbOp.apply_token (o := w) (c := c) rfl ha
    rw [h₀] at ha
    simp only [DbOp.apply, Option.ite_none_right_eq_some, Option.some.injEq] at ha
    obtain ⟨_, rfl⟩ := ha
    exact le_refl _

theorem Writing.ahead {q : SequenceNumber} {c : Nat} (hs : Registry D s) (h : Writing w k q b s) :
    Ahead w k (.db k (.checkpoint w c q)) s := by
  intro _
  refine ⟨h.behind, ?_⟩
  intro row ha
  obtain ⟨r₀, h₀, ho, _⟩ := DbOp.apply_token (o := w) (c := c) rfl ha
  have hle := h.behind r₀ (hs.heldRow_eq h₀ ho)
  rw [h₀] at ha ⊢
  simp only [DbOp.apply, Option.ite_none_right_eq_some, Option.some.injEq] at ha
  obtain ⟨_, rfl⟩ := ha
  exact hle

theorem does_checkpoint {q : SequenceNumber} {c : Nat} (h : Writing w k q b s) :
    Does D K w k (dynamoDbLeaseStore.checkpoint k w c q) (fun _ => Writing w k q b) s := by
  refine joint_of_asks (P := fun r => r = .db k (.checkpoint w c q) ∨ ∃ ms, r = .sleep ms) stable_writing
    (fun _ h => h.level) ?_ _ (asks_checkpoint (Or.inl rfl) fun ms => Or.inr ⟨ms, rfl⟩) h
  intro r hr s hs h
  rcases hr with rfl | ⟨ms, rfl⟩
  · refine ⟨h.ahead hs, ?_⟩
    intro c' a t he _
    rcases execDb_cases (exec_careful he).1 with ⟨rfl, _⟩ | ⟨row, ha, rfl⟩
    · exact h
    · exact h.write ha
  · refine ⟨trivial, ?_⟩
    intro c' a t he _
    cases (exec_careful he).1
    exact h

end

/-! ## Reading and delivering -/

/-- The records lie in the log, at or after the row that the worker works from. -/
def Read (w : Worker) (k : ShardId) (records : List Record) (s : World) : Prop :=
  ∃ start, RunAt (s.stream.log k) start records ∧
    ∀ r, heldRow w k s = some r → position (s.stream.log k) r.checkpoint ≤ start

section
variable {D : Deployment} {K : Contract} {w : Worker} {k : ShardId} {s t : World} {a b : Option SequenceNumber}
  {records : List Record} {q : SequenceNumber}

theorem stable_read : (duty D w k).Stable (Read w k records) := by
  intro s t hs hb ht h
  obtain ⟨start, hrun, hle⟩ := h
  refine ⟨start, hrun.mono hb.log, ?_⟩
  intro r hr
  rw [hb.held] at hr
  rw [position_held hs ht hb.log hr]
  exact hle r hr

theorem Read.acked (hs : Registry D s) (h : Read w k records s) (hq : q ∈ records.map Record.seq) :
    Known (s.stream.log k) (some q) ∧ Behind w k s (some q) ∧
      position (s.stream.log k) (some q) ≤ position (s.stream.log k) (lastSeq records) := by
  obtain ⟨start, hrun, hle⟩ := h
  have hne : records ≠ [] := by
    rintro rfl
    cases hq
  obtain ⟨hlt, hupto, hmem⟩ := hrun.position_mem (hs.sane.seqs k) hq
  obtain ⟨hlast, _⟩ := hrun.position_last (hs.sane.seqs k) hne
  refine ⟨?_, ?_, by omega⟩
  · intro q' e
    cases e
    exact hmem
  · intro r hr
    have := hle r hr
    omega

theorem Read.writing {m : Memory} (hs : Registry D s) (h : Read w k records s) (hq : q ∈ records.map Record.seq)
    (honly : ∀ q', m.pending k = some q' → q' = q) : Writing w k q (lastSeq records) (s.setMem w m) := by
  obtain ⟨hknown, hbehind, hle⟩ := h.acked hs hq
  refine ⟨?_, hknown, hle, behind_setMem.mpr hbehind⟩
  rw [pending_setMem]
  exact honly

theorem Read.ahead (hs : Registry D s) (h : Read w k records s) : Ahead w k (.deliver k records) s := by
  obtain ⟨start, hrun, hle⟩ := h
  intro _ rec hrec r hr
  obtain ⟨hlt, _⟩ := hrun.position_mem (hs.sane.seqs k) (List.mem_map_of_mem hrec)
  have := hle r hr
  omega

theorem Read.behind_last (hs : Registry D s) (h : Read w k records s) (hne : records ≠ []) :
    Behind w k s (lastSeq records) := by
  obtain ⟨start, hrun, hle⟩ := h
  obtain ⟨hlast, _⟩ := hrun.position_last (hs.sane.seqs k) hne
  intro r hr
  have := hle r hr
  omega

/-- Between two requests of a pass that goes on from `b`. -/
def Going (w : Worker) (k : ShardId) (b : Option SequenceNumber) (s : World) : Prop := Level w k s ∧ Behind w k s b

theorem stable_going : (duty D w k).Stable (Going w k b) := by
  intro s t hs hb ht h
  exact ⟨stable_level s t hs hb ht h.1, h.2.beside hb hs ht⟩

theorem Writing.going (h : Writing w k q b s) : Going w k b s := ⟨h.level, h.behind.mono h.le⟩

theorem does_drop {β : Type} {x : β} {f : CkptDefer → β × CkptDefer}
    (hf : ∀ d q, (f d).2.resumeFrom k = some q → d.resumeFrom k = some q) (h : Going w k b s) :
    Does D K w k (withDefer x f) (fun _ => Going w k b) s := by
  have hkeep : ∀ s₁ m, Going w k b s₁ → (∀ q, m.pending k = some q → (s₁.mem w).pending k = some q) →
      Level w k (s₁.setMem w m) ∧ Going w k b (s₁.setMem w m) := by
    intro s₁ m h₁ hm
    have hlevel := h₁.1.setMem hm
    exact ⟨hlevel, hlevel, h₁.2⟩
  refine does_withDefer ?_ ?_
  · intro s₁ hs h₁ hs₁ _ m hm
    refine hkeep s₁ m (stable_going s s₁ hs h₁ hs₁ h) ?_
    intro q hq
    rw [hm] at hq
    cases hq
  · intro s₁ d hs h₁ hs₁ hp m hm
    refine hkeep s₁ m (stable_going s s₁ hs h₁ hs₁ h) ?_
    intro q hq
    rw [hm] at hq
    rw [hp]
    exact hf d q hq

variable {task : ShardTask} (hdef : task.deferred = (D.config task.owner).deferred)
include hdef

theorem does_persistAck {c : Nat} (hs : Registry D s) (hl : Level task.owner task.shard s)
    (hr : Read task.owner task.shard records s) (hq : q ∈ records.map Record.seq) :
    Does D K task.owner task.shard (persistAck dynamoDbLeaseStore task c q) (fun r s' =>
      Level task.owner task.shard s' ∧ (r.isSome → Behind task.owner task.shard s' (lastSeq records))) s := by
  have hlost : ∀ {s' : World}, Level task.owner task.shard s' → Level task.owner task.shard s' ∧
      ((none : Option Nat).isSome → Behind task.owner task.shard s' (lastSeq records)) := fun h => ⟨h, nofun⟩
  unfold persistAck
  split
  · refine joint_seq hs (does_sibling (L := fun s => Level task.owner task.shard s ∧ Read task.owner task.shard records s)
      ?_ (fun _ h => h.1) (p := now) (asks_req trivial) ⟨hl, hr⟩) ?_
    · intro s t hs hb ht h
      exact ⟨stable_level s t hs hb ht h.1, stable_read s t hs hb ht h.2⟩
    intro now s₁ hs₁ h₁
    -- the ack is pending now, and it is the one that may be due
    refine joint_seq hs₁ (P := fun due s' => Writing task.owner task.shard q (lastSeq records) s' ∧
      ∀ x, due = some x → x = q) (does_withDefer ?_ ?_) ?_
    · intro s₂ _ h₂ hs₂ _ m hm
      have hw := (stable_read s₁ s₂ hs₁ h₂ hs₂ h₁.2).writing (m := m) hs₂ hq (by rw [hm]; nofun)
      exact ⟨hw.level, hw, nofun⟩
    · intro s₂ d _ h₂ hs₂ _ m hm
      rw [CkptDefer.resumeFrom_recordAck, if_pos rfl] at hm
      have hw := (stable_read s₁ s₂ hs₁ h₂ hs₂ h₁.2).writing (m := m) hs₂ hq (by rw [hm]; exact fun _ e => (Option.some.inj e).symm)
      exact ⟨hw.level, hw, fun x hx => CkptDefer.recordAck_due hx⟩
    intro due s₂ hs₂ h₂
    cases due with
    | none => exact ⟨h₂.1.level, fun _ => h₂.1.going.2⟩
    | some x =>
      obtain rfl := h₂.2 x rfl
      refine joint_seq hs₂ (does_checkpoint h₂.1) ?_
      intro r s₃ hs₃ h₃
      cases r with
      | error e =>
        refine joint_seq hs₃ (does_calm calm_forgetPending h₃.level) ?_
        intro _ s₄ hs₄ h₄
        refine joint_seq hs₄ (does_calm (calm_lostLease _) h₄) ?_
        intro _ s₅ _ h₅
        exact hlost h₅
      | ok c' =>
        refine joint_seq hs₃ (does_drop (fun _ _ h => CkptDefer.resumeFrom_persisted h) h₃.going) ?_
        intro _ s₄ _ h₄
        exact ⟨h₄.1, fun _ => h₄.2⟩
  · rename_i hd
    have hnone : ∀ q', (s.mem task.owner).pending task.shard = some q' → q' = q := by
      intro q' hq'
      exact absurd (hdef.trans (hs.pending _ _ _ hq').2) hd
    obtain ⟨hknown, hbehind, hle⟩ := hr.acked hs hq
    refine joint_seq hs (does_checkpoint (b := lastSeq records) ⟨hnone, hknown, hle, hbehind⟩) ?_
    intro r s₁ hs₁ h₁
    cases r with
    | error e =>
      refine joint_seq hs₁ (does_calm (calm_lostLease _) h₁.level) ?_
      intro _ s₂ _ h₂
      exact hlost h₂
    | ok c' => exact ⟨h₁.level, fun _ => h₁.going.2⟩

theorem does_deliverRecords {c : Nat} (hK : K.Forward) (hs : Registry D s) (hl : Level task.owner task.shard s)
    (hr : Read task.owner task.shard records s) (hne : records ≠ []) :
    Does D K task.owner task.shard (deliverRecords dynamoDbLeaseStore task c records) (fun r s' =>
      Level task.owner task.shard s' ∧ (r.isSome → Behind task.owner task.shard s' (lastSeq records))) s := by
  unfold deliverRecords
  refine joint_seq hs (P := fun x s' => Level task.owner task.shard s' ∧ Read task.owner task.shard records s' ∧
    ∀ q, x = .ok (some q) → q ∈ records.map Record.seq) (does_req ?_) ?_
  · intro s₁ hs h₁ hs₁
    refine ⟨(stable_read s s₁ hs h₁ hs₁ hr).ahead hs₁, ?_⟩
    intro ch x t he ht
    have hexec := (exec_careful he).1
    have hb : Beside task.owner task.shard s t :=
      h₁.trans (beside_outside (r := .deliver task.shard records) hs₁ (fun _ e => by cases e) (fun _ _ e => by cases e) hexec)
    have hl' := stable_level s t hs hb ht hl
    refine ⟨hl', hl', stable_read s t hs hb ht hr, ?_⟩
    rintro q rfl
    change execDeliver K task.owner task.shard records ch s₁ = _ at hexec
    cases ch <;> simp only [execDeliver, reduceCtorEq] at hexec
    case acked q' =>
      split at hexec
      · rename_i hack
        cases hexec
        exact hK.acks hack
      · cases hexec
    case unacked => cases hexec
    case fault => cases hexec
  intro x s₁ hs₁ h₁
  obtain ⟨hl₁, hr₁, hack⟩ := h₁
  have hlost : ∀ {s' : World}, Level task.owner task.shard s' → Level task.owner task.shard s' ∧
      ((none : Option Nat).isSome → Behind task.owner task.shard s' (lastSeq records)) := fun h => ⟨h, fun e => by cases e⟩
  cases x with
  | error e =>
    simp only [Prog.pure_eq, Prog.bind_eq]
    split
    · refine joint_seq hs₁ (does_calm calm_forgetPending hl₁) ?_
      intro _ s₂ _ h₂
      exact hlost h₂
    · exact hlost hl₁
  | ok ack =>
    cases ack with
    | some q => exact does_persistAck hdef hs₁ hl₁ hr₁ (hack q rfl)
    | none => exact ⟨hl₁, fun _ => hr₁.behind_last hs₁ hne⟩

omit hdef

/-! ## The end of a shard -/

theorem does_takePending (h : Level w k s) : Does D K w k (withDefer none fun d => d.takePending k)
    (fun x s' => Level w k s' ∧ ∀ q, x = some q → Writing w k q (some q) s') s := by
  refine does_withDefer ?_ ?_
  · intro s₁ _ _ _ _ m hm
    have hlevel : Level w k (s₁.setMem w m) := .of_none (pending_setMem.trans hm)
    exact ⟨hlevel, hlevel, nofun⟩
  · intro s₁ d hs h₁ hs₁ hp m hm
    have hnone : m.pending k = none := by
      rw [hm]
      unfold CkptDefer.takePending CkptDefer.resumeFrom
      cases hd : d.state k <;> simp [hd]
    have hlevel : Level w k (s₁.setMem w m) := .of_none (pending_setMem.trans hnone)
    refine ⟨hlevel, hlevel, ?_⟩
    intro q hq
    rw [CkptDefer.takePending_fst] at hq
    have hpend : (s₁.mem w).pending k = some q := hp.trans hq
    refine ⟨?_, (hs₁.pending w k q hpend).1, le_refl _, stable_level s s₁ hs h₁ hs₁ h q hpend⟩
    rw [pending_setMem, hnone]
    nofun

theorem calm_completeShard (c : Nat) : Asks (Calm task.shard) (completeShard dynamoDbLeaseStore task c) := by
  refine asks_bind (p := shardEnded task.shard) (asks_req trivial) ?_
  intro _
  refine asks_bind (asks_markComplete (fun _ _ _ _ => nofun)) ?_
  intro _
  exact asks_bind (p := metric _) (asks_req trivial) fun _ => trivial

theorem does_endShard {c : Nat} (hs : Registry D s) (h : Level task.owner task.shard s) :
    Does D K task.owner task.shard (endShard dynamoDbLeaseStore task c) (fun _ => Level task.owner task.shard) s := by
  have hfinish : ∀ c', Asks (Calm task.shard) ((forgetPending task.shard).bind fun _ =>
      completeShard dynamoDbLeaseStore task c') :=
    fun c' => asks_bind calm_forgetPending fun _ => calm_completeShard c'
  unfold endShard
  split
  · refine joint_seq hs (does_takePending h) ?_
    intro x s₁ hs₁ h₁
    cases x with
    | none => exact does_calm (hfinish c) h₁.1
    | some q =>
      refine joint_seq hs₁ (does_checkpoint (h₁.2 q rfl)) ?_
      intro r s₂ _ h₂
      cases r with
      | ok c' => exact does_calm (hfinish c') h₂.level
      | error e => exact does_calm (calm_giveUp _) h₂.level
  · exact does_calm (calm_completeShard c) h

/-! ## The whole pass -/

theorem does_getRecords (hK : K.Forward) (h : Going w k b s) :
    Does D K w k (contractSource.getRecords k b) (fun x s' => Level w k s' ∧ ∀ batch, x = .ok batch →
      Read w k batch.records s') s := by
  refine joint_bind _ _ (does_req ?_)
  intro s₁ hs h₁ hs₁
  have hgoing := stable_going s s₁ hs h₁ hs₁ h
  refine ⟨fun _ => hgoing.2, ?_⟩
  intro ch x t he ht
  have hexec := (exec_careful he).1
  change execGetRecords K k b ch s₁ = _ at hexec
  cases ch <;> simp only [execGetRecords, reduceCtorEq] at hexec
  case batch start n shardEnd =>
    split at hexec
    · rename_i hread
      cases hexec
      refine ⟨hgoing.1, hgoing.1, ?_⟩
      intro batch e
      cases e
      refine ⟨start, (RunAt.slice (hK.bound hread)).1, ?_⟩
      intro r hr
      exact (hgoing.2 r hr).trans (hK.start hread)
    · cases hexec
  case fault e =>
    cases hexec
    refine ⟨hgoing.1, hgoing.1, ?_⟩
    intro batch e
    cases e

include hdef

theorem does_passBody (hK : K.Forward) (hs : Registry D s) (st : PassState)
    (h : Going task.owner task.shard st.after s) :
    Does D K task.owner task.shard (passBody contractSource dynamoDbLeaseStore task st)
      (Sum.elim (fun st => Going task.owner task.shard st.after) fun _ => Level task.owner task.shard) s := by
  have hend : ∀ c s₁, Registry D s₁ → Level task.owner task.shard s₁ → Does D K task.owner task.shard
      ((endShard dynamoDbLeaseStore task c).bind fun o =>
        (.ret (.inr (.ok o)) : Fx (PassState ⊕ Except WorkerError PassOutcome)))
      (Sum.elim (fun st => Going task.owner task.shard st.after) fun _ => Level task.owner task.shard) s₁ := by
    intro c s₁ hs₁ h₁
    refine joint_seq hs₁ (does_endShard hs₁ h₁) ?_
    intro _ s₂ _ h₂
    exact h₂
  unfold passBody
  refine joint_seq hs (does_getRecords hK h) ?_
  intro x s₁ hs₁ h₁
  cases x with
  | error e => exact h₁.1
  | ok batch =>
    simp only [Prog.pure_eq, Prog.bind_eq]
    split
    · split
      · exact hend _ s₁ hs₁ h₁.1
      · exact h₁.1
    · rename_i hne
      have hne' : batch.records ≠ [] := fun e => hne (by simp [e])
      refine joint_seq hs₁ (does_deliverRecords hdef hK hs₁ h₁.1 (h₁.2 batch rfl) hne') ?_
      intro r s₂ hs₂ h₂
      cases r with
      | none => exact h₂.1
      | some c =>
        refine joint_seq hs₂ (does_sibling stable_going (fun _ h => h.1) (p := metric _) (asks_req trivial)
          ⟨h₂.1, h₂.2 rfl⟩) ?_
        intro _ s₃ hs₃ h₃
        split
        · exact hend _ s₃ hs₃ h₃.1
        · exact h₃

theorem does_processShard (hK : K.Forward) (hs : Registry D s) (h : Going task.owner task.shard task.checkpoint s) :
    Does D K task.owner task.shard (processShard contractSource dynamoDbLeaseStore task)
      (fun _ => Level task.owner task.shard) s := by
  unfold processShard
  refine joint_seq hs (P := fun a => Going task.owner task.shard a) ?_ ?_
  · unfold resumePosition
    split
    · refine joint_seq hs (P := fun x s' => Going task.owner task.shard (x.or task.checkpoint) s') (does_withDefer ?_ ?_) ?_
      · intro s₁ hs h₁ hs₁ hnone m hm
        have h' := stable_going s s₁ hs h₁ hs₁ h
        have hlevel : Level task.owner task.shard (s₁.setMem task.owner m) := .of_none (pending_setMem.trans hm)
        exact ⟨hlevel, hlevel, h'.2⟩
      · intro s₁ d hs h₁ hs₁ hp m hm
        have h' := stable_going s s₁ hs h₁ hs₁ h
        have hlevel : Level task.owner task.shard (s₁.setMem task.owner m) := by
          refine h'.1.setMem ?_
          rw [hm, ← hp]
          exact fun _ h => h
        refine ⟨hlevel, hlevel, ?_⟩
        cases hq : d.resumeFrom task.shard with
        | none => exact h'.2
        | some q => exact h'.1 q (hp.trans hq)
      · intro x s₁ _ h₁
        exact h₁
    · exact h
  · intro after s₁ hs₁ h₁
    refine joint_iter (fun st : PassState => Going task.owner task.shard st.after) (fun _ => stable_going) ?_ hs₁ h₁
    intro st s₂ hs₂ h₂
    exact does_passBody hdef hK hs₂ st h₂

end

/-- A pass that starts from the row that the worker works from. -/
theorem does_runPass {D : Deployment} {K : Contract} {w : Worker} {s : World} (hK : K.Forward)
    (hsrc : D.source = contractSource) {it : ShardId × Nat × Option SequenceNumber} (hs : Registry D s)
    (h : Going w it.1 it.2.2 s) : Does D K w it.1 (runPass (D.fleet w) it) (fun _ => Level w it.1) s := by
  have htask : shardTask (D.fleet w).config it = ⟨w, it.1, it.2.1, it.2.2, (D.config w).deferred⟩ := by
    simp [shardTask, Deployment.fleet, D.owner_eq w]
  unfold runPass
  rw [htask, show (D.fleet w).source = contractSource from hsrc]
  refine joint_seq hs (P := fun _ => Going w it.1 it.2.2) (does_req ?_) ?_
  · intro s₁ hs h₁ hs₁
    have h' := stable_going s s₁ hs h₁ hs₁ h
    refine ⟨fun _ => h'.1, ?_⟩
    intro c x t he _
    cases (exec_careful he).1
    exact ⟨h'.1, h'⟩
  · intro _ s₁ hs₁ h₁
    have hpass : Does D K w it.1 (processShard contractSource dynamoDbLeaseStore
        ⟨w, it.1, it.2.1, it.2.2, (D.config w).deferred⟩) (fun _ => Level w it.1) s₁ :=
      @does_processShard D K s₁ ⟨w, it.1, it.2.1, it.2.2, (D.config w).deferred⟩ rfl hK hs₁ h₁
    refine joint_seq hs₁ hpass ?_
    intro x s₂ _ h₂
    cases x with
    | ok o => exact h₂
    | error e => exact h₂

end StreamsConsumer.PendingAck
