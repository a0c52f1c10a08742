import StreamsConsumer.Worker.Deferral

/-!
# What a crash gives back

With deferred checkpoints an ack is pending until it is written. Only a later
ack, the end of the shard or a release writes it: the interval alone does not.
`crash_window` says when no pending ack is older than the interval, given that
every cycle which finds one that is gets a further ack.
-/

namespace StreamsConsumer
open Conc

/-! ## Acks and their times -/

/-- A site, and the acks of one shard, the latest first. An ack is dated by the reading of the clock that follows it;
until then it is `told`. `dropped` says that a pending ack was given up. -/
structure Dated where
  site : Site
  told : Option SequenceNumber
  acks : List (Nat × SequenceNumber)
  dropped : Bool

namespace Dated

def clock (d : Dated) : Nat := d.site.world.clock

def observe (w : Worker) (k : ShardId) (d : Dated) : (r : Req) → Resp r → Site → Dated
  | .deliver shard _, a, s =>
    if shard = k then
      match a with
      | .ok ack => { d with site := s, told := ack }
      -- a failed delivery forgets what is pending
      | .error _ => { d with site := s, dropped := d.dropped || ((s.mem w).pending k).isSome }
    else { d with site := s }
  -- with deferral the lease is only lost when a pending ack could not be written
  | .leaseLost shard, _, s => { d with site := s, dropped := d.dropped || decide (shard = k) }
  | .now, t, s =>
    match d.told with
    | some ack => { d with site := s, told := none, acks := (t, ack) :: d.acks }
    | none => { d with site := s }
  | _, _, s => { d with site := s }

/-- Nothing pending was given up, and every scan showed the shard's row as it was. -/
def steady (k : ShardId) (d : Dated) : Bool := !d.dropped && (d.site.mishaps k).all Mishap.fresh

end Dated

def datedHandler (P : ShardId → Partner) (k : ShardId) : Handler Req Resp Worker Choice Dated where
  exec w r c d := (siteExec P w r c d.site).map fun x => (x.1, d.observe w k r x.1 x.2)

/-- The other tasks and workers leave the shard, its row and what is deferred of it alone. Time passes. -/
structure Meanwhile (w : Worker) (k : ShardId) (d d' : Dated) : Prop where
  apart : Apart w k d.site d'.site
  deferral : (d'.site.mem w).deferral k = (d.site.mem w).deferral k
  clock : d.clock ≤ d'.clock
  told : d'.told = d.told
  acks : d'.acks = d.acks
  dropped : d'.dropped = d.dropped

theorem Meanwhile.refl (w : Worker) (k : ShardId) (d : Dated) : Meanwhile w k d d :=
  ⟨.refl w k d.site, rfl, le_refl _, rfl, rfl, rfl⟩

theorem Meanwhile.trans {w : Worker} {k : ShardId} {d₁ d₂ d₃ : Dated} (h₁ : Meanwhile w k d₁ d₂)
    (h₂ : Meanwhile w k d₂ d₃) : Meanwhile w k d₁ d₃ :=
  ⟨h₁.apart.trans h₂.apart, h₂.deferral.trans h₁.deferral, h₁.clock.trans h₂.clock, h₂.told.trans h₁.told,
    h₂.acks.trans h₁.acks, h₂.dropped.trans h₁.dropped⟩

def Call.isEnded : Call → Bool
  | .ended => true
  | _ => false

def timesEnded (l : List Call) : Nat := l.countP Call.isEnded

/-- The checkpoint is this ack or one that was given after it. -/
def Covers (acks : List (Nat × SequenceNumber)) (z : Option SequenceNumber) (x : Nat × SequenceNumber) : Prop :=
  ∃ newer older q, acks = newer ++ x :: older ∧ z = some q ∧ q ∈ (x :: newer).map Prod.snd

/-- Step 2 where the bounded pool does not come to the shard: it is not due yet. -/
def deferredCycle (F : Fleet) : Fx (Except WorkerError (Option PassOutcome)) :=
  attempt F.leases.list fun rows => do
    let rows := rows.filter fun r => isShardKey r.leaseKey
    let owned := (ownedRows rows F.config.owner).map Lease.leaseKey
    updateMem fun m => { m with ckptDefer := m.ckptDefer.map fun d => d.retain owned }
    return .ok none

/-- One cycle of a worker that owns the shard. -/
def Cycle (P : ShardId → Partner) (cfg : FleetConfig) (k : ShardId) (d d' : Dated) : Prop :=
  ∃ p ∈ [shardCycle (contractFleet cfg) k, deferredCycle (contractFleet cfg)],
    ∃ a, Runs (datedHandler P k) (Meanwhile cfg.owner k) cfg.owner p d (.ret a) d'

/-- An ack from before `t - interval` is not covered by the checkpoint. -/
def Overdue (k : ShardId) (interval t : Nat) (d : Dated) : Prop :=
  ∃ x ∈ d.acks, x.1 + interval < t ∧ ¬ Covers d.acks (d.site.checkpoint k) x

/-- The cycle that started at `t` gave up no pending ack and saw the row as it was; and if it started with an overdue
ack and no call to the lease table failed, the consumer acked a batch or was told the end of the shard. -/
structure Timely (k : ShardId) (interval t : Nat) (d d' : Dated) : Prop where
  steady : d'.steady k = true
  acked : d'.site.mishaps k = d.site.mishaps k → Overdue k interval t d →
    d.acks.length < d'.acks.length ∨ timesEnded (d.site.calls k) < timesEnded (d'.site.calls k)

/-- A worker that owns an unfinished shard, with nothing pending. -/
structure Taken (cfg : FleetConfig) (k : ShardId) (interval : Nat) (d : Dated) : Prop where
  configured : cfg.checkpointIntervalMs = some interval
  positive : 1 ≤ interval
  shard : isShardKey k = true
  row : ∃ r, d.site.row k = some r ∧ r.leaseKey = k ∧ r.owner = some cfg.owner ∧ r.completed = false
  deferral : (d.site.mem cfg.owner).deferral k = some (interval, none)
  acks : d.acks = []

/-- The states between the cycles of runs whose cycles all meet `C`. A cycle may have started before the shard's part
of it. -/
inductive Kept (P : ShardId → Partner) (cfg : FleetConfig) (k : ShardId) (interval : Nat)
    (C : Nat → Dated → Dated → Prop) : Dated → Prop where
  | taken {d : Dated} (h : Taken cfg k interval d) : Kept P cfg k interval C d
  | meanwhile {d d' : Dated} (h : Kept P cfg k interval C d) (hm : Meanwhile cfg.owner k d d') :
      Kept P cfg k interval C d'
  | cycle {d d' : Dated} {t : Nat} (h : Kept P cfg k interval C d) (ht : t ≤ d.clock) (hr : Cycle P cfg k d d')
      (hc : C t d d') : Kept P cfg k interval C d'

/-! ## What is written down and what is not -/

/-- What a worker has of a shard: what is deferred, the row, the acks so far, and a lower bound of the clock. -/
structure Tally where
  entry : Option PendingCkpt
  checkpoint : Option SequenceNumber
  completed : Bool
  acks : List (Nat × SequenceNumber)
  endings : Nat
  time : Nat

structure Keeping (w : Worker) (k : ShardId) (interval : Nat) (b : Tally) (d : Dated) : Prop where
  deferral : (d.site.mem w).deferral k = some (interval, b.entry)
  row : ∃ r, d.site.row k = some r ∧ r.leaseKey = k ∧ r.owner = some w ∧ r.checkpoint = b.checkpoint ∧
    r.completed = b.completed
  acks : d.acks = b.acks
  endings : timesEnded (d.site.calls k) = b.endings
  time : b.time ≤ d.clock

/-- The acks `late` are pending, those of `done` are covered. The last write is older than all that are pending. -/
structure Tally.Accounts (b : Tally) (late done : List (Nat × SequenceNumber)) : Prop where
  acks : b.acks = late ++ done
  covered : done = [] ∨ ∃ x rest, done = x :: rest ∧ b.checkpoint = some x.2
  pending : b.entry.bind PendingCkpt.ack = late.head?.map Prod.snd
  lastPersist : ∀ e, b.entry = some e → e.lastPersist ≤ b.time ∧ ∀ x ∈ late, e.lastPersist ≤ x.1
  completed : b.completed = true → late = []

/-- In a cycle that started at `t` with `b₀`: nothing pending is older than the interval, or nothing has happened yet. -/
def Tally.Current (interval t : Nat) (b₀ b : Tally) (late : List (Nat × SequenceNumber)) : Prop :=
  (∀ x ∈ late, t ≤ x.1 + interval) ∨ (b.acks = b₀.acks ∧ b.checkpoint = b₀.checkpoint ∧ b.endings = b₀.endings)

def Holds (w : Worker) (k : ShardId) (interval t : Nat) (b₀ : Tally) (d : Dated) : Prop :=
  ∃ b late done, Keeping w k interval b d ∧ b.Accounts late done ∧ b.Current interval t b₀ late ∧ t ≤ b.time

/-- During a pass the row is not completed. -/
def Passing (w : Worker) (k : ShardId) (interval t : Nat) (b₀ : Tally) (d : Dated) : Prop :=
  ∃ b late done, Keeping w k interval b d ∧ b.Accounts late done ∧ b.Current interval t b₀ late ∧ t ≤ b.time ∧
    b.completed = false

theorem Tally.Accounts.covers {b : Tally} {late done : List (Nat × SequenceNumber)} (h : b.Accounts late done)
    {x : Nat × SequenceNumber} (hx : x ∈ done) : Covers b.acks b.checkpoint x := by
  obtain ⟨l₁, l₂, hl⟩ := List.append_of_mem hx
  rcases h.covered with hnil | ⟨y, rest, hy, hz⟩
  · rw [hnil] at hx
    cases hx
  · refine ⟨late ++ l₁, l₂, y.2, by rw [h.acks, hl, List.append_assoc], hz, ?_⟩
    -- the checkpoint is the latest of the covered acks
    cases l₁ with
    | nil =>
      rw [hl] at hy
      obtain ⟨rfl, _⟩ := List.cons.inj hy
      simp
    | cons a l₁ =>
      rw [hl] at hy
      obtain ⟨rfl, _⟩ := List.cons.inj hy
      simp

section
variable {P : ShardId → Partner} {w : Worker} {k : ShardId} {interval t : Nat} {b b₀ : Tally} {d d' : Dated}

theorem Keeping.same (h : Keeping w k interval b d) (hm : (d'.site.mem w).deferral k = (d.site.mem w).deferral k)
    (hr : d'.site.row k = d.site.row k) (ha : d'.acks = d.acks) (he : timesEnded (d'.site.calls k) = timesEnded (d.site.calls k))
    (hc : d.clock ≤ d'.clock) : Keeping w k interval b d' :=
  ⟨hm.trans h.deferral, hr ▸ h.row, ha.trans h.acks, he.trans h.endings, h.time.trans hc⟩

theorem Keeping.meanwhile (h : Keeping w k interval b d) (hm : Meanwhile w k d d') : Keeping w k interval b d' :=
  h.same hm.deferral hm.apart.row hm.acks (by rw [hm.apart.calls]) hm.clock

theorem Holds.meanwhile (h : Holds w k interval t b₀ d) (hm : Meanwhile w k d d') : Holds w k interval t b₀ d' := by
  obtain ⟨b, late, done, hk, ha, hcur, ht⟩ := h
  exact ⟨b, late, done, hk.meanwhile hm, ha, hcur, ht⟩

theorem Passing.meanwhile (h : Passing w k interval t b₀ d) (hm : Meanwhile w k d d') : Passing w k interval t b₀ d' := by
  obtain ⟨b, late, done, hk, ha, hcur, ht⟩ := h
  exact ⟨b, late, done, hk.meanwhile hm, ha, hcur, ht⟩

theorem Passing.holds (h : Passing w k interval t b₀ d) : Holds w k interval t b₀ d := by
  obtain ⟨b, late, done, hk, ha, hcur, ht, _⟩ := h
  exact ⟨b, late, done, hk, ha, hcur, ht⟩

theorem Tally.Accounts.late_eq {late done : List (Nat × SequenceNumber)} (h : b.Accounts late done)
    (hn : b.entry.bind PendingCkpt.ack = none) : late = [] := by
  rw [h.pending, Option.map_eq_none_iff, List.head?_eq_none_iff] at hn
  exact hn

abbrev Steady {α : Type} (P : ShardId → Partner) (w : Worker) (k : ShardId) (p : Fx α) (Q : α → Dated → Prop) (d : Dated) :
    Prop :=
  solo ((datedHandler P k).within (Dated.steady k)) (Meanwhile w k) w (fun _ => True) p Q d

theorem steady_req {r : Req} {Q : Resp r → Dated → Prop} (h : ∀ d₁, Meanwhile w k d d₁ → ∀ c a s,
    siteExec P w r c d₁.site = some (a, s) → (d₁.observe w k r a s).steady k = true → Q a (d₁.observe w k r a s)) :
    Steady P w k (Prog.req r) Q d := by
  intro d₁ h₁ c a d₂ he
  obtain ⟨he, hok⟩ := Handler.exec_within.mp he
  obtain ⟨x, hx, heq⟩ := Option.map_eq_some_iff.mp he
  cases heq
  exact ⟨trivial, h d₁ h₁ c x.1 x.2 hx hok⟩

/-! ## Requests -/

theorem steady_metric (m : Metric) {K : Dated → Prop} (hK : ∀ d d', Meanwhile w k d d' → K d → K d') (h : K d) :
    Steady P w k (metric m) (fun _ => K) d := by
  refine steady_req ?_
  intro d₁ h₁ _ a s he _
  cases he
  exact hK d d₁ h₁ h

theorem steady_createConsumer (h : Keeping w k interval b d) :
    Steady P w k (createConsumer k) (fun _ => Keeping w k interval b) d := by
  refine steady_req ?_
  intro d₁ h₁ _ a s he _
  cases he
  refine (h.meanwhile h₁).same rfl rfl rfl ?_ (le_refl _)
  simp [Dated.observe, Site.asked, timesEnded, Call.isEnded]

theorem steady_getRecords {after : Option SequenceNumber} (h : Keeping w k interval b d) :
    Steady P w k (contractSource.getRecords k after) (fun _ => Keeping w k interval b) d := by
  refine solo_bind _ _ (steady_req ?_)
  intro d₁ h₁ _ a s he _
  cases he
  refine (h.meanwhile h₁).same rfl rfl rfl ?_ (le_refl _)
  simp [Dated.observe, Site.asked, timesEnded, Call.isEnded]

theorem steady_deliver {records : List Record} (h : Keeping w k interval b d) :
    Steady P w k (deliver k records) (fun a d' => Keeping w k interval b d' ∧
      match a with
      | .ok ack => d'.told = ack
      | .error _ => b.entry.bind PendingCkpt.ack = none) d := by
  refine steady_req ?_
  intro d₁ h₁ _ a s he hok
  cases he
  have hk := h.meanwhile h₁
  have hend : timesEnded ((d₁.site.asked k (.delivered records ((P k).deliver (d₁.site.calls k) records))).calls k) =
      timesEnded (d₁.site.calls k) := by simp [Site.asked, timesEnded, Call.isEnded]
  cases ha : (P k).deliver (d₁.site.calls k) records with
  | ok ack =>
    simp only [Dated.observe, if_true]
    exact ⟨hk.same rfl rfl rfl (ha ▸ hend) (le_refl _), trivial⟩
  | error e =>
    simp only [Dated.observe, ha, if_true] at hok ⊢
    refine ⟨hk.same rfl rfl rfl (ha ▸ hend) (le_refl _), ?_⟩
    simp only [Dated.steady, Bool.and_eq_true, Bool.not_eq_true', Bool.or_eq_false_iff] at hok
    have hnone := Option.isSome_eq_false_iff.mp hok.1.2
    obtain ⟨c, hc, hce⟩ := Option.map_eq_some_iff.mp hk.deferral
    obtain ⟨_, hstate⟩ := Prod.mk.inj hce
    have hc' : (d₁.site.world.mem w).ckptDefer = some c := hc
    rw [← hstate]
    simpa [Memory.pending, Site.asked, Site.mem, hc', CkptDefer.resumeFrom] using hnone

theorem steady_now {q : SequenceNumber} (h : Keeping w k interval b d) (ht : d.told = some q) :
    Steady P w k now (fun n d' => b.time ≤ n ∧ Keeping w k interval { b with acks := (n, q) :: b.acks, time := n } d') d := by
  refine steady_req ?_
  intro d₁ h₁ _ a s he _
  cases he
  have hk := h.meanwhile h₁
  have htold : d₁.told = some q := h₁.told.trans ht
  simp only [Dated.observe, htold]
  exact ⟨hk.time, hk.deferral, hk.row, by simp [hk.acks], hk.endings, le_refl _⟩

theorem steady_withDefer {β : Type} {x : β} {f : CkptDefer → β × CkptDefer} {R : β → Option PendingCkpt → Prop}
    (h : Keeping w k interval b d) (hf : ∀ c : CkptDefer, c.interval = interval → c.state k = b.entry →
      (f c).2.interval = interval ∧ R (f c).1 ((f c).2.state k)) :
    Steady P w k (withDefer x f) (fun a d' => ∃ e, R a e ∧ Keeping w k interval { b with entry := e } d') d := by
  refine steady_req ?_
  intro d₁ h₁ _ a s he _
  cases he
  have hk := h.meanwhile h₁
  obtain ⟨c, hc, hce⟩ := Option.map_eq_some_iff.mp hk.deferral
  obtain ⟨hint, hstate⟩ := Prod.mk.inj hce
  obtain ⟨hint', hr⟩ := hf c hint hstate
  have hc' : (d₁.site.world.mem w).ckptDefer = some c := hc
  simp only [Dated.observe, hc']
  refine ⟨(f c).2.state k, hr, ?_, hk.row, hk.acks, hk.endings, hk.time⟩
  simp [Memory.deferral, Site.mem, World.setMem, hint']

/-! ## Writes to the row -/

theorem steady_dbRequest {op : DbOp} {Q : Except AwsError Nat → Dated → Prop} (h : ∀ d₁, Meanwhile w k d d₁ → ∀ a u,
    (u = d₁.site.world ∧ ∃ e, a = .error e) ∨
      (∃ row, op.apply k (d₁.site.row k) = some row ∧ u = d₁.site.world.write w k op row) →
    Q a { d₁ with site := d₁.site.wrote k op u a }) : Steady P w k (dbRequest k op) Q d := by
  refine steady_req ?_
  intro d₁ h₁ _ a s he _
  obtain ⟨⟨a', u⟩, hdb, hx⟩ := Option.map_eq_some_iff.mp he
  cases hx
  exact h d₁ h₁ a' u (execDb_cases hdb)

theorem Keeping.refused (h : Keeping w k interval b d) {op : DbOp} {e : AwsError} :
    Keeping w k interval b { d with site := d.site.wrote k op d.site.world (.error e) } :=
  h.same rfl rfl rfl rfl (le_refl _)

theorem Keeping.wrote (h : Keeping w k interval b d) {op : DbOp} {r : Lease} {a : Except AwsError Nat}
    {z : Option SequenceNumber} {completed : Bool} (hr : r.leaseKey = k ∧ r.owner = some w ∧ r.checkpoint = z ∧
      r.completed = completed) : Keeping w k interval { b with checkpoint := z, completed := completed }
        { d with site := d.site.wrote k op (d.site.world.write w k op (some r)) a } := by
  refine ⟨?_, ⟨r, row_wrote, hr⟩, h.acks, ?_, ?_⟩
  · rw [← h.deferral]
    cases a <;> rfl
  · rw [← h.endings]
    cases a <;> rfl
  · refine h.time.trans (le_of_eq ?_)
    cases a <;> rfl

theorem steady_checkpointOnce {q : SequenceNumber} {c : Nat} {z : Option SequenceNumber}
    (h : Keeping w k interval { b with checkpoint := z } d) :
    Steady P w k (conditionalWrite k (.checkpoint w c q) (c + 1)) (fun x d' =>
      (∃ c, x = .ok c) ∧ Keeping w k interval { b with checkpoint := some q } d' ∨
        (∃ e, x = .error e) ∧ ∃ z, Keeping w k interval { b with checkpoint := z } d') d := by
  refine solo_bind _ _ (steady_dbRequest ?_)
  intro d₁ h₁ a u hu
  have hk := h.meanwhile h₁
  rcases hu with ⟨rfl, e, rfl⟩ | ⟨row, hrow, rfl⟩
  · exact Or.inr ⟨⟨_, rfl⟩, z, hk.refused⟩
  · obtain ⟨r, hr, hkey, howner, hz, hcomp⟩ := hk.row
    rw [hr, DbOp.apply] at hrow
    split at hrow
    · cases hrow
      cases a with
      | ok n => exact Or.inl ⟨⟨_, rfl⟩, hk.wrote ⟨hkey, howner, rfl, hcomp⟩⟩
      | error e => exact Or.inr ⟨⟨_, rfl⟩, some q, hk.wrote ⟨hkey, howner, rfl, hcomp⟩⟩
    · cases hrow

theorem steady_checkpoint {q : SequenceNumber} {c : Nat} (h : Keeping w k interval b d) :
    Steady P w k (dynamoDbLeaseStore.checkpoint k w c q) (fun x d' =>
      (∃ c, x = .ok c) ∧ Keeping w k interval { b with checkpoint := some q } d' ∨ ∃ e, x = .error e) d := by
  have hany : ∃ z, Keeping w k interval { b with checkpoint := z } d := ⟨b.checkpoint, h⟩
  refine solo_bind _ _ (solo_retryThrottled (J := fun d => ∃ z, Keeping w k interval { b with checkpoint := z } d)
    (K := fun d => ∃ z, Keeping w k interval { b with checkpoint := z } d) (fun _ h => h) ?_ ?_ ?_ _ _ hany)
  · intro e d' _
    exact Or.inr ⟨_, rfl⟩
  · intro ms d' ⟨z, h'⟩
    refine steady_req ?_
    intro d₁ h₁ _ _ s he _
    cases he
    exact ⟨z, h'.meanwhile h₁⟩
  · intro d' ⟨z, h'⟩
    refine solo_mono _ ?_ (steady_checkpointOnce h')
    intro x d'' hx
    rcases hx with ⟨⟨c', rfl⟩, h''⟩ | hx
    · exact Or.inl ⟨⟨_, rfl⟩, Or.inl ⟨⟨_, rfl⟩, h''⟩⟩
    · exact Or.inr hx

theorem steady_markComplete {c : Nat} (h : Keeping w k interval b d) :
    Steady P w k (dynamoDbLeaseStore.markComplete k w c) (fun _ d' =>
      ∃ completed, Keeping w k interval { b with completed := completed } d') d := by
  refine solo_bind _ _ (solo_bind _ _ (steady_dbRequest ?_))
  intro d₁ h₁ a u hu
  have hk := h.meanwhile h₁
  have hpost : ∃ completed, Keeping w k interval { b with completed := completed }
      { d₁ with site := d₁.site.wrote k (.markComplete w c) u a } := by
    rcases hu with ⟨rfl, e, rfl⟩ | ⟨row, hrow, rfl⟩
    · exact ⟨b.completed, hk.refused⟩
    · obtain ⟨r, hr, hkey, howner, hz, hcomp⟩ := hk.row
      rw [hr, DbOp.apply] at hrow
      split at hrow
      · cases hrow
        exact ⟨true, hk.wrote ⟨hkey, howner, hz, rfl⟩⟩
      · cases hrow
  cases a with
  | ok n => exact hpost
  | error e => exact hpost

theorem steady_lostLease {Q : Unit → Dated → Prop} : Steady P w k (lostLease k) Q d := by
  refine solo_seq (steady_metric _ (K := fun _ => True) (fun _ _ _ _ => trivial) trivial) ?_
  intro _ d₁ _
  refine solo_bind _ _ (steady_req ?_)
  intro d₂ _ _ a s he hok
  cases he
  simp [Dated.observe, Dated.steady] at hok

theorem steady_forsake {α : Type} {x : α} {Q : α → Dated → Prop} :
    Steady P w k ((forgetPending k).bind fun _ => (lostLease k).bind fun _ => .ret x) Q d := by
  refine solo_seq (P := fun _ _ => True) (steady_req fun _ _ _ _ _ _ _ => trivial) ?_
  intro _ d₁ _
  exact solo_bind _ _ steady_lostLease

/-! ## The parts of a pass -/

theorem steady_persistAck {task : ShardTask} (hd : task.deferred = true) {c : Nat} {q : SequenceNumber}
    {late done : List (Nat × SequenceNumber)} (h : Keeping task.owner task.shard interval b d) (ha : b.Accounts late done)
    (ht : t ≤ b.time) (hcomp : b.completed = false) (htold : d.told = some q) :
    Steady P task.owner task.shard (persistAck dynamoDbLeaseStore task c q)
      (fun _ => Passing task.owner task.shard interval t b₀) d := by
  unfold persistAck
  rw [if_pos hd]
  refine solo_seq (steady_now h htold) ?_
  intro n d₁ ⟨hn, h₁⟩
  generalize hp : (b.entry.getD ⟨none, n⟩).lastPersist = p
  have hpn : p ≤ n ∧ ∀ x ∈ late, p ≤ x.1 := by
    cases he : b.entry with
    | none =>
      have hlate : late = [] := ha.late_eq (by rw [he]; rfl)
      rw [← hp, he, hlate]
      exact ⟨le_refl _, fun _ hm => absurd hm List.not_mem_nil⟩
    | some e =>
      obtain ⟨hle, hall⟩ := ha.lastPersist e he
      rw [← hp, he]
      exact ⟨hle.trans hn, hall⟩
  have hrecord : ∀ c : CkptDefer, c.interval = interval → c.state task.shard = b.entry →
      (c.recordAck task.shard q n).2.interval = interval ∧
        ((c.recordAck task.shard q n).1 = (if interval ≤ n - p then some q else none) ∧
          (c.recordAck task.shard q n).2.state task.shard = some ⟨some q, p⟩) := by
    intro c hint hstate
    simp [CkptDefer.recordAck, hint, hstate, hp]
  refine solo_seq (steady_withDefer (R := fun a e => a = (if interval ≤ n - p then some q else none) ∧
    e = some ⟨some q, p⟩) h₁ hrecord) ?_
  rintro a d₂ ⟨e, ⟨rfl, rfl⟩, h₂⟩
  by_cases hdue : interval ≤ n - p
  · rw [if_pos hdue]
    refine solo_seq (steady_checkpoint h₂) ?_
    rintro x d₃ (⟨⟨c', rfl⟩, h₃⟩ | ⟨e, rfl⟩)
    · have hpersisted : ∀ c : CkptDefer, c.interval = interval → c.state task.shard = some ⟨some q, p⟩ →
          (c.persisted task.shard n).interval = interval ∧ (c.persisted task.shard n).state task.shard = some ⟨none, n⟩ := by
        intro c hint hstate
        simp [CkptDefer.persisted, hstate, hint]
      refine solo_seq (steady_withDefer (R := fun _ e => e = some ⟨none, n⟩) h₃ hpersisted) ?_
      rintro _ d₄ ⟨e, rfl, h₄⟩
      refine ⟨_, [], (n, q) :: b.acks, h₄, ?_, Or.inl (by simp), ht.trans hn, hcomp⟩
      exact ⟨rfl, Or.inr ⟨(n, q), b.acks, rfl, rfl⟩, rfl, by simp, fun _ => rfl⟩
    · exact steady_forsake
  · rw [if_neg hdue]
    refine ⟨_, (n, q) :: late, done, h₂, ?_, Or.inl ?_, ht.trans hn, hcomp⟩
    · refine ⟨by simp [ha.acks], ha.covered, rfl, ?_, ?_⟩
      · intro e he
        obtain rfl := Option.some.inj he
        exact ⟨hpn.1, by simpa using ⟨hpn.1, fun a b hm => hpn.2 (a, b) hm⟩⟩
      · intro hc
        rw [hcomp] at hc
        cases hc
    · -- the last write was less than the interval ago, and everything pending came after it
      intro x hx
      rcases List.mem_cons.mp hx with rfl | hx
      · exact (ht.trans hn).trans (Nat.le_add_right _ _)
      · have := hpn.2 x hx
        omega

theorem steady_forgetPending (h : Keeping w k interval b d) :
    Steady P w k (forgetPending k) (fun _ => Keeping w k interval { b with entry := none }) d := by
  have hforget : ∀ c : CkptDefer, c.interval = interval → c.state k = b.entry →
      (c.forget k).interval = interval ∧ (c.forget k).state k = none := by
    intro c hint _
    simp [CkptDefer.forget, hint]
  refine solo_mono _ ?_ (steady_withDefer (R := fun _ e => e = none) h hforget)
  rintro _ d' ⟨e, rfl, h'⟩
  exact h'

theorem steady_deliverRecords {task : ShardTask} (hd : task.deferred = true) {c : Nat} {records : List Record}
    (h : Passing task.owner task.shard interval t b₀ d) :
    Steady P task.owner task.shard (deliverRecords dynamoDbLeaseStore task c records)
      (fun _ => Passing task.owner task.shard interval t b₀) d := by
  obtain ⟨b, late, done, hk, ha, hcur, ht, hcomp⟩ := h
  unfold deliverRecords
  refine solo_seq (steady_deliver hk) ?_
  intro a d₁ ⟨h₁, hpost⟩
  cases a with
  | ok ack =>
    cases ack with
    | none => exact ⟨b, late, done, h₁, ha, hcur, ht, hcomp⟩
    | some q => exact steady_persistAck hd h₁ ha ht hcomp hpost
  | error e =>
    have hlate := ha.late_eq hpost
    subst hlate
    simp only [hd, if_true]
    refine solo_seq (steady_forgetPending h₁) ?_
    intro _ d₂ h₂
    refine ⟨_, [], done, h₂, ?_, Or.inl (by simp), ht, hcomp⟩
    exact ⟨ha.acks, ha.covered, rfl, by simp, fun _ => rfl⟩

theorem steady_completeShard {task : ShardTask} {c : Nat} {done : List (Nat × SequenceNumber)}
    (h : Keeping task.owner task.shard interval b d) (ha : b.Accounts [] done) (ht : t ≤ b.time) :
    Steady P task.owner task.shard (completeShard dynamoDbLeaseStore task c)
      (fun _ => Holds task.owner task.shard interval t b₀) d := by
  unfold completeShard
  refine solo_seq (P := fun _ => Keeping task.owner task.shard interval { b with endings := b.endings + 1 }) (steady_req ?_) ?_
  · intro d₁ h₁ _ a s he _
    cases he
    have hk := h.meanwhile h₁
    refine ⟨hk.deferral, hk.row, hk.acks, ?_, hk.time⟩
    simp [Dated.observe, Site.asked, timesEnded, Call.isEnded, ← hk.endings]
  · intro _ d₁ h₁
    refine solo_seq (steady_markComplete h₁) ?_
    rintro _ d₂ ⟨completed, h₂⟩
    have hholds : Holds task.owner task.shard interval t b₀ d₂ := by
      refine ⟨_, [], done, h₂, ?_, Or.inl (by simp), ht⟩
      exact ⟨ha.acks, ha.covered, ha.pending, ha.lastPersist, fun _ => rfl⟩
    exact solo_seq (steady_metric _ (fun _ _ hm h => h.meanwhile hm) hholds) fun _ _ h => h

theorem steady_endShard {task : ShardTask} (hd : task.deferred = true) {c : Nat}
    (h : Passing task.owner task.shard interval t b₀ d) :
    Steady P task.owner task.shard (endShard dynamoDbLeaseStore task c)
      (fun _ => Holds task.owner task.shard interval t b₀) d := by
  obtain ⟨b, late, done, hk, ha, _, ht, hcomp⟩ := h
  have htake : ∀ c : CkptDefer, c.interval = interval → c.state task.shard = b.entry →
      (c.takePending task.shard).2.interval = interval ∧ (c.takePending task.shard).1 = b.entry.bind PendingCkpt.ack := by
    intro c hint hstate
    rw [CkptDefer.takePending_fst, CkptDefer.resumeFrom, hstate]
    refine ⟨?_, rfl⟩
    rw [← hint, CkptDefer.takePending]
    split <;> rfl
  unfold endShard
  rw [if_pos hd]
  refine solo_seq (steady_withDefer (R := fun a _ => a = b.entry.bind PendingCkpt.ack) hk htake) ?_
  rintro a d₁ ⟨e, hpending, h₁⟩
  rw [ha.pending] at hpending
  cases late with
  | nil =>
    subst hpending
    refine solo_seq (steady_forgetPending h₁) ?_
    intro _ d₂ h₂
    exact steady_completeShard h₂ ⟨ha.acks, ha.covered, rfl, by simp, fun _ => rfl⟩ ht
  | cons x late =>
    subst hpending
    refine solo_seq (steady_checkpoint h₁) ?_
    rintro y d₂ (⟨⟨c', rfl⟩, h₂⟩ | ⟨e', rfl⟩)
    · refine solo_seq (steady_forgetPending h₂) ?_
      intro _ d₃ h₃
      have hnone : Tally.Accounts { b with entry := none, checkpoint := some x.2 } [] b.acks :=
        ⟨rfl, Or.inr ⟨x, late ++ done, ha.acks, rfl⟩, rfl, by simp, fun _ => rfl⟩
      exact steady_completeShard h₃ hnone ht
    · exact steady_forsake

theorem steady_passBody (task : ShardTask) (hd : task.deferred = true) (st : PassState)
    (h : Passing task.owner task.shard interval t b₀ d) :
    Steady P task.owner task.shard (passBody contractSource dynamoDbLeaseStore task st)
      (Sum.elim (fun _ => Passing task.owner task.shard interval t b₀)
        (fun _ => Holds task.owner task.shard interval t b₀)) d := by
  obtain ⟨b, late, done, hk, hrest⟩ := h
  unfold passBody
  refine solo_seq (steady_getRecords hk) ?_
  intro x d₁ h₁
  have hpass : Passing task.owner task.shard interval t b₀ d₁ := ⟨b, late, done, h₁, hrest⟩
  have hend : ∀ {c d₂}, Passing task.owner task.shard interval t b₀ d₂ →
      Steady P task.owner task.shard ((endShard dynamoDbLeaseStore task c).bind fun a => .ret (.inr (.ok a)))
        (Sum.elim (fun _ : PassState => Passing task.owner task.shard interval t b₀)
          (fun _ : Except WorkerError PassOutcome => Holds task.owner task.shard interval t b₀)) d₂ := by
    intro c d₂ h₂
    exact solo_seq (steady_endShard hd h₂) fun _ _ h => h
  cases x with
  | error e => exact hpass.holds
  | ok batch =>
    simp only [Prog.bind_eq, Prog.pure_eq]
    by_cases hempty : batch.records.isEmpty = true
    · rw [if_pos hempty]
      by_cases hse : batch.shardEnd = true
      · rw [if_pos hse]
        exact hend hpass
      · rw [if_neg hse]
        exact hpass.holds
    · rw [if_neg hempty]
      refine solo_seq (steady_deliverRecords hd hpass) ?_
      intro x d₂ h₂
      cases x with
      | none => exact h₂.holds
      | some c =>
        refine solo_seq (steady_metric _ (fun _ _ hm h => h.meanwhile hm) h₂) ?_
        intro _ d₃ h₃
        by_cases hse : batch.shardEnd = true
        · rw [if_pos hse]
          exact hend h₃
        · rw [if_neg hse]
          exact h₃

theorem steady_runPass {cfg : FleetConfig} (hd : cfg.deferred = true) {c : Nat} {z : Option SequenceNumber}
    (h : Passing cfg.owner k interval t b₀ d) :
    Steady P cfg.owner k (runPass (contractFleet cfg) (k, c, z)) (fun _ => Holds cfg.owner k interval t b₀) d := by
  obtain ⟨b, late, done, hk, hrest⟩ := h
  refine solo_seq (steady_createConsumer hk) ?_
  intro _ d₁ h₁
  refine solo_seq (P := fun _ => Holds cfg.owner k interval t b₀) ?_ ?_
  · refine solo_seq (P := fun _ => Passing cfg.owner k interval t b₀) ?_ ?_
    · unfold resumePosition
      have hd' : (shardTask (contractFleet cfg).config (k, c, z)).deferred = true := hd
      rw [if_pos hd']
      refine solo_seq (steady_withDefer (R := fun _ e => e = b.entry) h₁ fun _ hint hstate => ⟨hint, hstate⟩) ?_
      rintro _ d₂ ⟨e, rfl, h₂⟩
      exact ⟨b, late, done, h₂, hrest⟩
    · intro after d₂ h₂
      refine solo_iter (fun _ => Passing cfg.owner k interval t b₀) ?_ ?_ h₂
      · intro _ d d' hm h
        exact h.meanwhile hm
      · intro st d h
        exact steady_passBody (shardTask cfg (k, c, z)) hd st h
  · intro x d₂ h₂
    cases x with
    | ok outcome => exact h₂
    | error e => exact h₂

/-! ## The whole cycle -/

/-- What the worker sees of its shard in the rows of a scan. -/
def Sighted (w : Worker) (k : ShardId) (interval t : Nat) (b₀ : Tally) (rows : List Lease) (d : Dated) : Prop :=
  ∃ b late done, Keeping w k interval b d ∧ b.Accounts late done ∧ b.Current interval t b₀ late ∧ t ≤ b.time ∧
    (rows.map Lease.leaseKey).Nodup ∧ ∃ r ∈ rows, r.leaseKey = k ∧ r.owner = some w ∧ r.completed = b.completed

theorem Sighted.holds {rows : List Lease} (h : Sighted w k interval t b₀ rows d) : Holds w k interval t b₀ d := by
  obtain ⟨b, late, done, hk, ha, hcur, ht, _⟩ := h
  exact ⟨b, late, done, hk, ha, hcur, ht⟩

theorem steady_list (h : Holds w k interval t b₀ d) :
    Steady P w k dynamoDbLeaseStore.list (fun x d' =>
      ((∃ e, x = .error e) ∧ Holds w k interval t b₀ d') ∨ ∃ rows, x = .ok rows ∧ Sighted w k interval t b₀ rows d') d := by
  refine solo_bind _ _ (steady_req ?_)
  intro d₁ h₁ _ a s he hok
  obtain ⟨⟨a', u⟩, hscan, hx⟩ := Option.map_eq_some_iff.mp he
  cases hx
  obtain ⟨b, late, done, hk, hrest⟩ := h.meanwhile h₁
  have hk₂ : Keeping w k interval b { d₁ with site := d₁.site.scanned a' } := by
    cases a' <;> exact hk.same rfl rfl rfl rfl (le_refl _)
  cases a' with
  | error e => exact Or.inl ⟨⟨_, rfl⟩, b, late, done, hk₂, hrest⟩
  | ok rows =>
    have hfresh : lookupRow rows k = d₁.site.row k := by
      by_contra hne
      have hne' : ¬ lookupRow rows k = d₁.site.world.table k := hne
      simp [Dated.observe, Dated.steady, Site.scanned, hne', Mishap.fresh] at hok
    obtain ⟨r, hr, hkey, howner, _, hcomp⟩ := hk.row
    have hmem := lookupRow_mem (hfresh.trans hr)
    have hnodup := ((execScan_eq hscan).2 rows rfl).2
    exact Or.inr ⟨rows, rfl, b, late, done, hk₂, hrest.1, hrest.2.1, hrest.2.2, hnodup, r, hmem.1, hkey, howner, hcomp⟩

theorem deferral_retain {m : Memory} {owned : List ShardId} :
    ({ m with ckptDefer := m.ckptDefer.map fun d => d.retain owned } : Memory).deferral k =
      (m.deferral k).map fun x => (x.1, if owned.contains k then x.2 else none) := by
  unfold Memory.deferral
  cases m.ckptDefer <;> rfl

theorem steady_prune {rows : List Lease} {owned : List ShardId} (hs : isShardKey k = true)
    (ho : owned = (ownedRows (rows.filter fun r => isShardKey r.leaseKey) w).map Lease.leaseKey)
    (h : Sighted w k interval t b₀ rows d) :
    Steady P w k (updateMem fun m => { m with ckptDefer := m.ckptDefer.map fun d => d.retain owned })
      (fun _ => Sighted w k interval t b₀ rows) d := by
  refine steady_req ?_
  intro d₁ h₁ _ a s he _
  cases he
  obtain ⟨b, late, done, hk, ha, hcur, ht, hnodup, r, hr, hkey, howner, hcomp⟩ := h
  have hk₁ := hk.meanwhile h₁
  refine ⟨{ b with entry := if owned.contains k then b.entry else none }, late, done, ⟨?_, hk₁.row, hk₁.acks, hk₁.endings,
    hk₁.time⟩, ?_, hcur, ht, hnodup, r, hr, hkey, howner, hcomp⟩
  · have hdef : (d₁.site.world.mem w).deferral k = some (interval, b.entry) := hk₁.deferral
    simp only [Dated.observe, Site.mem, World.setMem, Function.update_self]
    rw [deferral_retain, hdef]
    rfl
  · by_cases hc : k ∈ owned
    · rw [if_pos (List.contains_iff_mem.mpr hc)]
      exact ha
    · rw [if_neg (fun h => hc (List.contains_iff_mem.mp h))]
      have hdone : b.completed = true := by
        rw [← hcomp]
        by_contra hne
        have hunf : r.completed = false := Bool.eq_false_of_not_eq_true hne
        refine hc ?_
        rw [ho]
        refine List.mem_map.mpr ⟨r, ?_, hkey⟩
        simp [ownedRows, hr, hkey, hs, howner, hunf]
      have hlate := ha.completed hdone
      subst hlate
      exact ⟨ha.acks, ha.covered, rfl, by simp, fun _ => rfl⟩

theorem steady_shardCycle {cfg : FleetConfig} (hs : isShardKey k = true) (hd : cfg.deferred = true)
    (h : Holds cfg.owner k interval t b₀ d) :
    Steady P cfg.owner k (shardCycle (contractFleet cfg) k) (fun _ => Holds cfg.owner k interval t b₀) d := by
  refine solo_seq (steady_list h) ?_
  intro x d₁ hx
  rcases hx with ⟨⟨e, rfl⟩, h₁⟩ | ⟨rows, rfl, h₁⟩
  · exact h₁
  · refine solo_seq (steady_prune hs rfl h₁) ?_
    intro _ d₂ h₂
    split
    · exact h₂.holds
    · rename_i item hitem
      obtain ⟨r', hr', _, hcomp', _, rfl⟩ := Protocol.mem_eligibleOwned (List.mem_of_find?_eq_some hitem)
      have hkey' : r'.leaseKey = k := by simpa using List.find?_some hitem
      obtain ⟨b, late, done, hk, ha, hcur, ht, hnodup, r, hr, hkey, _, hcomp⟩ := h₂
      obtain rfl : r' = r :=
        List.inj_on_of_nodup_map hnodup (List.mem_of_mem_filter hr') hr (hkey'.trans hkey.symm)
      rw [hkey]
      refine solo_seq (steady_runPass hd ⟨b, late, done, hk, ha, hcur, ht, hcomp.symm.trans hcomp'⟩) ?_
      intro _ d₃ h₃
      exact h₃

theorem steady_deferredCycle {cfg : FleetConfig} (hs : isShardKey k = true) (h : Holds cfg.owner k interval t b₀ d) :
    Steady P cfg.owner k (deferredCycle (contractFleet cfg)) (fun _ => Holds cfg.owner k interval t b₀) d := by
  refine solo_seq (steady_list h) ?_
  intro x d₁ hx
  rcases hx with ⟨⟨e, rfl⟩, h₁⟩ | ⟨rows, rfl, h₁⟩
  · exact h₁
  · refine solo_seq (steady_prune hs rfl h₁) ?_
    intro _ d₂ h₂
    exact h₂.holds

/-! ## Runs of cycles -/

theorem steady_of_exec {r : Req} {c : Choice} {a : Resp r} (h : (datedHandler P k).exec w r c d = some (a, d'))
    (hd : d'.steady k = true) : d.steady k = true := by
  obtain ⟨⟨a', s⟩, hx, heq⟩ := Option.map_eq_some_iff.mp h
  obtain ⟨rfl, rfl⟩ := Prod.mk.inj heq
  have hm := (siteExec_grows (k := k) hx).2
  have hsite : (d.observe w k r a' s).site = s ∧ (d.dropped = true → (d.observe w k r a' s).dropped = true) := by
    unfold Dated.observe
    split
    · split
      · split
        · exact ⟨rfl, id⟩
        · exact ⟨rfl, fun h => by simp [h]⟩
      · exact ⟨rfl, id⟩
    · exact ⟨rfl, fun h => by simp [h]⟩
    · split <;> exact ⟨rfl, id⟩
    · exact ⟨rfl, id⟩
  simp only [Dated.steady, Bool.and_eq_true, Bool.not_eq_true', List.all_eq_true, hsite.1] at hd ⊢
  refine ⟨?_, fun x hx => hd.2 x (hm.subset hx)⟩
  rw [← Bool.not_eq_true]
  intro hdrop
  rw [hsite.2 hdrop] at hd
  cases hd.1

theorem steady_of_meanwhile (h : Meanwhile w k d d') (hd : d'.steady k = true) : d.steady k = true := by
  unfold Dated.steady at hd ⊢
  rw [← h.dropped, ← h.apart.mishaps]
  exact hd

theorem Cycle.holds {cfg : FleetConfig} (hr : Cycle P cfg k d d') (hok : d'.steady k = true) (hs : isShardKey k = true)
    (hd : cfg.deferred = true) (h : Holds cfg.owner k interval t b₀ d) : Holds cfg.owner k interval t b₀ d' := by
  obtain ⟨p, hp, a, hrun⟩ := hr
  have hsolo : Steady P cfg.owner k p (fun _ => Holds cfg.owner k interval t b₀) d := by
    rcases List.mem_pair.mp hp with rfl | rfl
    · exact steady_shardCycle hs hd h
    · exact steady_deferredCycle hs h
  have hwithin := hrun.within (fun _ _ _ _ _ he => steady_of_exec he) (fun _ _ hm => steady_of_meanwhile hm) hok
  exact hwithin.2.solo (Meanwhile.refl _ _) (fun _ _ _ => Meanwhile.trans) (fun _ _ _ hm h => h.meanwhile hm) hsolo

structure Sound (cfg : FleetConfig) (k : ShardId) (interval : Nat) (d : Dated) : Prop where
  configured : cfg.checkpointIntervalMs = some interval
  positive : 1 ≤ interval
  shard : isShardKey k = true
  accounts : ∃ b late done, Keeping cfg.owner k interval b d ∧ b.Accounts late done

theorem Sound.deferred {cfg : FleetConfig} (h : Sound cfg k interval d) : cfg.deferred = true := by
  simp [FleetConfig.deferred, h.configured, h.positive]

theorem Sound.start {cfg : FleetConfig} (h : Sound cfg k interval d) (ht : t ≤ d.clock) :
    ∃ b₀, Keeping cfg.owner k interval b₀ d ∧ Holds cfg.owner k interval t b₀ d := by
  obtain ⟨b, late, done, hk, ha⟩ := h.accounts
  have hk' : Keeping cfg.owner k interval { b with time := d.clock } d := ⟨hk.deferral, hk.row, hk.acks, hk.endings, le_refl _⟩
  refine ⟨_, hk', _, late, done, hk', ⟨ha.acks, ha.covered, ha.pending, ?_, ha.completed⟩, Or.inr ⟨rfl, rfl, rfl⟩, ht⟩
  intro e he
  obtain ⟨hle, hall⟩ := ha.lastPersist e he
  exact ⟨hle.trans hk.time, hall⟩

theorem Kept.sound {cfg : FleetConfig} {C : Nat → Dated → Dated → Prop} (hC : ∀ t d d', C t d d' → d'.steady k = true)
    (h : Kept P cfg k interval C d) : Sound cfg k interval d := by
  induction h with
  | @taken d h =>
    obtain ⟨r, hr, hkey, howner, hcomp⟩ := h.row
    refine ⟨h.configured, h.positive, h.shard,
      ⟨none, r.checkpoint, false, [], timesEnded (d.site.calls k), d.clock⟩, [], [], ?_, ?_⟩
    · exact ⟨h.deferral, ⟨r, hr, hkey, howner, rfl, hcomp⟩, h.acks, rfl, le_refl _⟩
    · exact ⟨rfl, Or.inl rfl, rfl, by simp, fun _ => rfl⟩
  | meanwhile _ hm ih =>
    obtain ⟨b, late, done, hk, ha⟩ := ih.accounts
    exact ⟨ih.configured, ih.positive, ih.shard, b, late, done, hk.meanwhile hm, ha⟩
  | @cycle d d' t _ ht hr hc ih =>
    obtain ⟨b₀, _, hh⟩ := ih.start ht
    obtain ⟨b, late, done, hk, ha, _⟩ := hr.holds (hC t d d' hc) ih.shard ih.deferred hh
    exact ⟨ih.configured, ih.positive, ih.shard, b, late, done, hk, ha⟩

theorem Keeping.checkpoint_eq (h : Keeping w k interval b d) : d.site.checkpoint k = b.checkpoint := by
  obtain ⟨r, hr, _, _, hz, _⟩ := h.row
  simp [Site.checkpoint, hr, hz]

end

/-- Where every cycle that starts with an ack older than the interval and not covered gets a further ack, and no pending
ack is given up, the durable checkpoint covers at the end of every cycle that started at `t`, without errors from the
lease table, all that was acked before `t - interval`. -/
theorem crash_window {P : ShardId → Partner} {cfg : FleetConfig} {k : ShardId} {interval t : Nat} {d d' : Dated}
    (h : Kept P cfg k interval (Timely k interval) d) (ht : t ≤ d.clock) (hr : Cycle P cfg k d d')
    (hc : Timely k interval t d d') (hm : d'.site.mishaps k = d.site.mishaps k) :
    ∀ x ∈ d'.acks, x.1 + interval < t → Covers d'.acks (d'.site.checkpoint k) x := by
  intro x hx hlate
  have hsound := h.sound fun _ _ _ hc => hc.steady
  obtain ⟨b₀, hk₀, hstart⟩ := hsound.start ht
  obtain ⟨b, late, done, hk, ha, hcur, _⟩ := hr.holds hc.steady hsound.shard hsound.deferred hstart
  rcases hcur with hcur | ⟨hacks, hz, hends⟩
  · -- what is still pending is not that old
    rw [hk.acks, hk.checkpoint_eq]
    rw [hk.acks, ha.acks] at hx
    refine ha.covers ?_
    rcases List.mem_append.mp hx with hx | hx
    · have := hcur x hx
      omega
    · exact hx
  · -- nothing happened, so nothing was overdue
    have hacks' : d'.acks = d.acks := by rw [hk.acks, hk₀.acks, hacks]
    have hz' : d'.site.checkpoint k = d.site.checkpoint k := by rw [hk.checkpoint_eq, hk₀.checkpoint_eq, hz]
    rw [hacks', hz']
    rw [hacks'] at hx
    by_contra hcov
    rcases hc.acked hm ⟨x, hx, hlate, hcov⟩ with hlt | hlt
    · rw [hacks'] at hlt
      exact absurd hlt (lt_irrefl _)
    · rw [hk.endings, hk₀.endings, hends] at hlt
      exact absurd hlt (lt_irrefl _)

/-! ## A stream that stops -/

/-- A record, and in the second pass another one. The consumer acks what it gets. -/
def twoRecords (_ : ShardId) : Partner where
  read l after := .ok ⟨if after = none then [⟨"s", "1", []⟩]
    else if after = some "1" ∧ passes l = 2 then [⟨"s", "2", []⟩] else [], false, none⟩
  deliver _ records := .ok (lastSeq records)
  ended _ := .ok ()
  lost _ := .ok ()

def openDated : Dated := ⟨openSite (intervalConfig 5), none, [], false⟩

def Dated.later (ms : Nat) (d : Dated) : Dated :=
  { d with site := { d.site with world := { d.site.world with clock := d.site.world.clock + ms } } }

def datedCycle (P : ShardId → Partner) (d : Dated) : Fx (Except WorkerError (Option PassOutcome)) × Dated :=
  drive (datedHandler P "s") "a" (fun d => freshScan d.site) 30 (shardCycle (contractFleet (intervalConfig 5)) "s") d

def afterIdling (P : ShardId → Partner) : Dated := (datedCycle P openDated).2.later 10

theorem taken_openDated : Taken (intervalConfig 5) "s" 5 openDated :=
  ⟨rfl, by decide, by decide, ⟨firstRow, rfl, rfl, rfl, rfl⟩, rfl, rfl⟩

theorem meanwhile_later (w : Worker) (k : ShardId) (ms : Nat) (d : Dated) : Meanwhile w k d (d.later ms) :=
  ⟨⟨rfl, rfl, rfl, rfl, rfl⟩, rfl, Nat.le_add_right _ _, rfl, rfl, rfl⟩

theorem cycle_datedCycle {P : ShardId → Partner} {d : Dated} {a : Except WorkerError (Option PassOutcome)}
    (h : (datedCycle P d).1 = .ret a) : Cycle P (intervalConfig 5) "s" d (datedCycle P d).2 := by
  refine ⟨_, List.mem_cons_self, a, ?_⟩
  rw [← h]
  exact runs_drive

theorem kept_afterIdling {P : ShardId → Partner} {C : Nat → Dated → Dated → Prop}
    {a : Except WorkerError (Option PassOutcome)} (h : (datedCycle P openDated).1 = .ret a)
    (hc : C 0 openDated (datedCycle P openDated).2) : Kept P (intervalConfig 5) "s" 5 C (afterIdling P) :=
  .meanwhile (.cycle (.taken taken_openDated) (Nat.zero_le _) (cycle_datedCycle h) hc) (meanwhile_later _ _ _ _)

theorem crash_window_twoRecords : Covers [(10, "2"), (0, "1")] (some "2") (0, "1") := by
  have hfirst : Timely "s" 5 0 openDated (datedCycle twoRecords openDated).2 := by
    refine ⟨rfl, ?_⟩
    rintro _ ⟨x, hx, _⟩
    cases hx
  have hsecond : Timely "s" 5 10 (afterIdling twoRecords) (datedCycle twoRecords (afterIdling twoRecords)).2 :=
    ⟨rfl, fun _ _ => Or.inl (by decide)⟩
  exact crash_window (kept_afterIdling rfl hfirst) (by decide) (cycle_datedCycle rfl) hsecond rfl (0, "1") (by decide)
    (by decide)

/-- One record is acked, then the stream is idle. Ten milliseconds later the ack is not durable after another cycle. -/
theorem crash_window_open : ¬ ∀ (P : ShardId → Partner) (cfg : FleetConfig) (k : ShardId) (interval t : Nat) (d d' : Dated),
    Kept P cfg k interval (fun _ _ _ => True) d → t ≤ d.clock → Cycle P cfg k d d' →
    d'.site.mishaps k = d.site.mishaps k → ∀ x ∈ d'.acks, x.1 + interval < t → Covers d'.acks (d'.site.checkpoint k) x := by
  intro h
  obtain ⟨_, _, q, _, hz, _⟩ := h ackOnce (intervalConfig 5) "s" 5 10 (afterIdling ackOnce) _
    (kept_afterIdling rfl trivial) (by decide) (cycle_datedCycle rfl) rfl (0, "1") (by decide) (by decide)
  cases hz

end StreamsConsumer
