import StreamsConsumer.Worker.World

/-!
# Rules for the requests of a worker

What each request needs in order to keep a protocol, and what its answer
tells. `Keeps` is the one obligation of a conditional write: wherever the
world has moved to by then, a write that succeeds keeps the invariant and
moves the world up.
-/

namespace StreamsConsumer
open Conc

def handler (K : Contract) : Handler Req Resp Worker Choice World := ⟨exec K⟩

def Keeps (L : Rely World) (w : Worker) (key : ShardId) (op : DbOp) (s : World) : Prop :=
  ∀ s₁, L.le s s₁ → L.Inv s₁ → ∀ row, op.apply key (s₁.table key) = some row →
    L.Inv (s₁.write w key op row) ∧ L.le s₁ (s₁.write w key op row)

theorem Keeps.up {L : Rely World} {w : Worker} {key : ShardId} {op : DbOp} : L.Up (Keeps L w key op) :=
  fun _ _ hl _ hk s₁ h₁ => hk s₁ (L.trans hl h₁)

section
variable {K : Contract} {L : Rely World} {w : Worker} {s : World}

/-! ## Requests that leave the world as it is -/

def Harmless (K : Contract) (w : Worker) (r : Req) : Prop :=
  ∀ c s a s', exec K w r c s = some (a, s') → s' = s

theorem wp_harmless {r : Req} (h : Harmless K w r) : wp (handler K) L w (Prog.req r) (fun _ _ => True) s := by
  intro s₁ _ i₁ c a s₂ he
  have := h c s₁ a s₂ he
  subst this
  exact ⟨i₁, L.refl _, trivial⟩

theorem execRead_eq {α : Type} {a : α} {c : Choice} {s s' : World} {r : Except AwsError α}
    (h : execRead a c s = some (r, s')) : s' = s ∧ ∀ b, r = .ok b → b = a := by
  cases c <;> simp [execRead] at h
  all_goals
    obtain ⟨rfl, rfl⟩ := h
    simp

theorem mapError_eq_ok {ε ε' α : Type} {x : Except ε α} {f : ε → ε'} {a : α} (h : x.mapError f = .ok a) :
    x = .ok a := by
  cases x with
  | error e => cases h
  | ok b => cases h; rfl

theorem harmless_now : Harmless K w .now := by
  intro c s a s' h
  cases h
  rfl

theorem harmless_sleep (ms : Nat) : Harmless K w (.sleep ms) := by
  intro c s a s' h
  cases h
  rfl

theorem harmless_metric (m : Metric) : Harmless K w (.metric m) := by
  intro c s a s' h
  cases h
  rfl

theorem harmless_createConsumer (shard : ShardId) : Harmless K w (.createConsumer shard) := by
  intro c s a s' h
  cases h
  rfl

theorem harmless_hashOrder : Harmless K w .hashOrder := by
  intro c s a s' h
  cases c <;> cases h
  rfl

theorem harmless_shardEnded (shard : ShardId) : Harmless K w (.shardEnded shard) :=
  fun _ _ _ _ h => (execRead_eq h).1

theorem harmless_leaseLost (shard : ShardId) : Harmless K w (.leaseLost shard) :=
  fun _ _ _ _ h => (execRead_eq h).1

theorem wp_now : wp (handler K) L w now (fun _ _ => True) s := wp_harmless harmless_now

theorem wp_sleep (ms : Nat) : wp (handler K) L w (sleep ms) (fun _ _ => True) s := wp_harmless (harmless_sleep ms)

theorem wp_metric (m : Metric) : wp (handler K) L w (metric m) (fun _ _ => True) s :=
  wp_harmless (harmless_metric m)

theorem wp_hashOrder : wp (handler K) L w hashOrder (fun _ _ => True) s := wp_harmless harmless_hashOrder

theorem wp_createConsumer (shard : ShardId) : wp (handler K) L w (createConsumer shard) (fun _ _ => True) s :=
  wp_harmless (harmless_createConsumer shard)

theorem wp_lostLease (hi : L.Inv s) (shard : ShardId) :
    wp (handler K) L w (lostLease shard) (fun _ _ => True) s := by
  unfold lostLease
  refine wp_seq hi (wp_metric _) ?_
  intro _ s₁ _ i₁ _
  refine wp_seq i₁ (wp_harmless (harmless_leaseLost shard)) ?_
  intro _ _ _ _ _
  trivial

/-! ## Memory -/

theorem wp_accessMem {β : Type} {f : Memory → β × Memory} {Q : β → World → Prop}
    (h : ∀ s₁, L.le s s₁ → L.Inv s₁ →
      L.Inv (s₁.setMem w (f (s₁.mem w)).2) ∧ L.le s₁ (s₁.setMem w (f (s₁.mem w)).2) ∧
        Q (f (s₁.mem w)).1 (s₁.setMem w (f (s₁.mem w)).2)) :
    wp (handler K) L w (accessMem f) Q s := by
  intro s₁ h₁ i₁ c a s₂ he
  cases he
  exact h s₁ h₁ i₁

theorem setMem_self (s : World) (w : Worker) : s.setMem w (s.mem w) = s := by
  unfold World.setMem
  rw [Function.update_eq_self]

theorem wp_readMem {β : Type} {f : Memory → β} {Q : β → World → Prop}
    (h : ∀ s₁, L.le s s₁ → L.Inv s₁ → Q (f (s₁.mem w)) s₁) :
    wp (handler K) L w (accessMem fun m => (f m, m)) Q s := by
  refine wp_accessMem fun s₁ h₁ i₁ => ?_
  simp only [setMem_self]
  exact ⟨i₁, L.refl _, h s₁ h₁ i₁⟩

/-! ## The stream and the consumer -/

theorem wp_deliver {shard : ShardId} {records : List Record}
    {Q : Except AwsError (Option SequenceNumber) → World → Prop}
    (h : ∀ s₁ a, L.le s s₁ → L.Inv s₁ → (∀ q, a = .ok (some q) → K.acks records q = true) →
      L.Inv (s₁.record (.delivered w shard records a)) ∧ L.le s₁ (s₁.record (.delivered w shard records a)) ∧
        Q a (s₁.record (.delivered w shard records a))) :
    wp (handler K) L w (deliver shard records) Q s := by
  intro s₁ h₁ i₁ c a s₂ he
  change execDeliver K w shard records c s₁ = some (a, s₂) at he
  cases c <;> simp only [execDeliver, reduceCtorEq] at he
  case acked q =>
    split at he
    · rename_i hq
      cases he
      refine h s₁ _ h₁ i₁ ?_
      intro q' e
      cases e
      exact hq
    · cases he
  case unacked =>
    cases he
    exact h s₁ _ h₁ i₁ fun q e => by cases e
  case fault e =>
    cases he
    exact h s₁ _ h₁ i₁ fun q e => by cases e

theorem wp_contractRead {shard : ShardId} {after : Option SequenceNumber}
    {Q : Except WorkerError RecordBatch → World → Prop} (hi : L.Inv s)
    (hok : ∀ s₁ start n shardEnd, L.le s s₁ → L.Inv s₁ →
      K.reads (s₁.stream.log shard) (s₁.stream.closed shard) after start n shardEnd = true →
      Q (.ok ⟨((s₁.stream.log shard).drop start).take n, shardEnd, none⟩) s₁)
    (herr : ∀ s₁ e, Q (.error e) s₁) :
    wp (handler K) L w (contractSource.getRecords shard after) Q s := by
  refine wp_bind _ _ hi ?_
  intro s₁ h₁ i₁ c a s₂ he
  change execGetRecords K shard after c s₁ = some (a, s₂) at he
  cases c <;> simp only [execGetRecords, reduceCtorEq] at he
  case batch start n shardEnd =>
    split at he
    · rename_i hr
      cases he
      exact ⟨i₁, L.refl _, hok s₁ start n shardEnd h₁ i₁ hr⟩
    · cases he
  case fault e =>
    cases he
    exact ⟨i₁, L.refl _, herr s₁ _⟩

/-! ## The lease table -/

theorem execDb_cases {key : ShardId} {op : DbOp} {c : Choice} {s s' : World} {a : Except AwsError Nat}
    (h : execDb w key op c s = some (a, s')) :
    (s' = s ∧ ∃ e, a = .error e) ∨
      ∃ row, op.apply key (s.table key) = some row ∧ s' = s.write w key op row := by
  cases c <;> simp only [execDb, reduceCtorEq] at h
  case ok =>
    split at h
    · rename_i row hr
      cases h
      exact Or.inr ⟨row, hr, rfl⟩
    · cases h
      exact Or.inl ⟨rfl, _, rfl⟩
  case fault e =>
    split at h
    · cases h
    · cases h
      exact Or.inl ⟨rfl, _, rfl⟩
  case lostReply e =>
    split at h
    · rename_i row hr
      cases h
      exact Or.inr ⟨row, hr, rfl⟩
    · cases h

theorem wp_dbRequest {key : ShardId} {op : DbOp} {Q : Except AwsError Nat → World → Prop}
    (hk : Keeps L w key op s)
    (hok : ∀ s₁ row n, L.le s s₁ → L.Inv s₁ → op.apply key (s₁.table key) = some row →
      Q (.ok n) (s₁.write w key op row))
    (herr : ∀ s₁ e, L.le s s₁ → L.Inv s₁ → Q (.error e) s₁) :
    wp (handler K) L w (dbRequest key op) Q s := by
  intro s₁ h₁ i₁ c a s₂ he
  rcases execDb_cases he with ⟨rfl, e, rfl⟩ | ⟨row, hr, rfl⟩
  · exact ⟨i₁, L.refl _, herr _ e h₁ i₁⟩
  · obtain ⟨i₂, h₂⟩ := hk s₁ h₁ i₁ row hr
    refine ⟨i₂, h₂, ?_⟩
    cases a with
    | ok n => exact hok s₁ row n h₁ i₁ hr
    | error e => exact herr _ e (L.trans h₁ h₂) i₂

theorem wp_dbRequest' {key : ShardId} {op : DbOp} (hk : Keeps L w key op s) :
    wp (handler K) L w (dbRequest key op) (fun _ _ => True) s :=
  wp_dbRequest hk (fun _ _ _ _ _ _ => trivial) (fun _ _ _ _ => trivial)

theorem wp_conditionalWrite {α : Type} {key : ShardId} {op : DbOp} {a : α}
    {Q : Except LeaseError α → World → Prop} (hi : L.Inv s) (hk : Keeps L w key op s)
    (hok : ∀ s₁ row, L.le s s₁ → L.Inv s₁ → op.apply key (s₁.table key) = some row →
      Q (.ok a) (s₁.write w key op row))
    (herr : ∀ s₁ e, L.le s s₁ → L.Inv s₁ → Q (.error e) s₁) :
    wp (handler K) L w (conditionalWrite key op a) Q s := by
  unfold conditionalWrite
  refine wp_bind _ _ hi ?_
  refine wp_dbRequest hk ?_ ?_
  · intro s₁ row _ h₁ i₁ hr
    exact hok s₁ row h₁ i₁ hr
  · intro s₁ e h₁ i₁
    exact herr s₁ _ h₁ i₁

theorem wp_retryThrottled {ε α : Type} {throttled : ε → Bool} {op : Fx (Except ε α)}
    {Q : Except ε α → World → Prop} (hQ : ∀ r, L.Up (Q r)) : ∀ (n delay : Nat) {s : World}, L.Inv s →
      wp (handler K) L w op Q s → wp (handler K) L w (retryThrottled throttled op n delay) Q s
  | 0, _, _, _, h => h
  | n + 1, delay, s, hi, h => by
    unfold retryThrottled
    refine wp_seq hi h ?_
    intro r s₁ h₁ i₁ hr
    cases r with
    | ok a => exact hr
    | error e =>
      simp only
      split
      · refine wp_seq i₁ (wp_sleep _) ?_
        intro _ s₂ h₂ i₂ _
        exact wp_retryThrottled hQ n _ i₂ (wp_up op hQ s s₂ (L.trans h₁ h₂) i₂ h)
      · exact hr

theorem wp_boxLease {α : Type} {p : Fx (Except LeaseError α)} {Q : Except WorkerError α → World → Prop}
    (hi : L.Inv s) (h : wp (handler K) L w p (fun r => Q (r.mapError WorkerError.lease)) s) :
    wp (handler K) L w (boxLease p) Q s :=
  wp_bind _ _ hi h

theorem execScan_eq {c : Choice} {s s' : World} {a : Except AwsError (List Lease)}
    (h : execScan c s = some (a, s')) :
    s' = s ∧ ∀ rows, a = .ok rows → (∀ r ∈ rows, r ∈ s.history) ∧ (rows.map Lease.leaseKey).Nodup := by
  cases c <;> simp only [execScan, reduceCtorEq] at h
  case rows rs =>
    split at h
    · rename_i hr
      cases h
      refine ⟨rfl, ?_⟩
      intro rows e
      cases e
      exact hr
    · cases h
  case fault e =>
    cases h
    exact ⟨rfl, fun _ e => by cases e⟩

theorem wp_list (hi : L.Inv s) : wp (handler K) L w dynamoDbLeaseStore.list
    (fun r s' => ∀ rows, r = .ok rows → (∀ x ∈ rows, x ∈ s'.history) ∧ (rows.map Lease.leaseKey).Nodup) s := by
  refine wp_bind _ _ hi ?_
  intro s₁ _ i₁ c a s₂ he
  obtain ⟨rfl, h⟩ := execScan_eq he
  refine ⟨i₁, L.refl _, ?_⟩
  intro rows hr
  exact h rows (mapError_eq_ok hr)

theorem wp_get (key : ShardId) : wp (handler K) L w (DynamoDbLeaseStore.get key) (fun _ _ => True) s :=
  wp_harmless fun _ _ _ _ h => (execRead_eq h).1

theorem wp_acquire {key : ShardId} {owner : Worker} (hi : L.Inv s) (hput : Keeps L w key (.put owner) s)
    (hclaim : ∀ c, Keeps L w key (.claim owner c) s) :
    wp (handler K) L w (dynamoDbLeaseStore.acquire key owner) (fun _ _ => True) s := by
  refine wp_boxLease hi (wp_bind _ _ hi ?_)
  unfold DynamoDbLeaseStore.acquire
  refine wp_seq hi (wp_dbRequest' hput) ?_
  intro r s₁ h₁ i₁ _
  split
  · trivial
  · split
    · trivial
    · refine wp_seq i₁ (wp_get key) ?_
      intro r s₂ h₂ i₂ _
      split
      · trivial
      · trivial
      · rename_i current
        have hk := (hclaim current.leaseCounter).up s s₂ (L.trans h₁ h₂) i₂
        exact wp_conditionalWrite i₂ hk (fun _ _ _ _ _ => trivial) (fun _ _ _ _ => trivial)

theorem wp_renew {key : ShardId} {owner : Worker} {counter : Nat} (hi : L.Inv s)
    (hk : Keeps L w key (.renew owner counter) s) :
    wp (handler K) L w (dynamoDbLeaseStore.renew key owner counter) (fun _ _ => True) s := by
  refine wp_boxLease hi (wp_retryThrottled (fun _ _ _ _ _ h => h) _ _ hi ?_)
  exact wp_conditionalWrite hi hk (fun _ _ _ _ _ => trivial) (fun _ _ _ _ => trivial)

theorem wp_heartbeat {owner : Worker} (hi : L.Inv s) (hk : Keeps L w (heartbeatKey owner) (.heartbeat owner) s) :
    wp (handler K) L w (dynamoDbLeaseStore.heartbeat owner) (fun _ _ => True) s := by
  refine wp_boxLease hi (wp_retryThrottled (fun _ _ _ _ _ h => h) _ _ hi ?_)
  refine wp_seq hi (wp_dbRequest' hk) ?_
  intro r _ _ _ _
  split <;> trivial

theorem wp_checkpoint {key : ShardId} {owner : Worker} {counter : Nat} {seq : SequenceNumber} {P : World → Prop}
    (hP : L.Up P) (hi : L.Inv s) (hk : Keeps L w key (.checkpoint owner counter seq) s)
    (hok : ∀ s₁ row, L.le s s₁ → L.Inv s₁ →
      DbOp.apply key (.checkpoint owner counter seq) (s₁.table key) = some row →
      P (s₁.write w key (.checkpoint owner counter seq) row)) :
    wp (handler K) L w (dynamoDbLeaseStore.checkpoint key owner counter seq)
      (fun r s' => ∀ c, r = .ok c → c = counter + 1 ∧ P s') s := by
  refine wp_boxLease hi ?_
  have h : wp (handler K) L w (DynamoDbLeaseStore.checkpoint key owner counter seq)
      (fun r s' => ∀ c, r = .ok c → c = counter + 1 ∧ P s') s := by
    refine wp_retryThrottled ?_ _ _ hi ?_
    · intro r s₁ s₂ hl hi' h c hc
      exact ⟨(h c hc).1, hP s₁ s₂ hl hi' (h c hc).2⟩
    · refine wp_conditionalWrite hi hk ?_ ?_
      · intro s₁ row h₁ i₁ hr c hc
        cases hc
        exact ⟨rfl, hok s₁ row h₁ i₁ hr⟩
      · intro s₁ e _ _ c hc
        cases hc
  refine wp_mono _ ?_ hi h
  intro r s' _ hr c hc
  exact hr c (mapError_eq_ok hc)

theorem wp_markComplete {key : ShardId} {owner : Worker} {counter : Nat} (hi : L.Inv s)
    (hk : Keeps L w key (.markComplete owner counter) s) :
    wp (handler K) L w (dynamoDbLeaseStore.markComplete key owner counter) (fun _ _ => True) s :=
  wp_boxLease hi (wp_conditionalWrite hi hk (fun _ _ _ _ _ => trivial) (fun _ _ _ _ => trivial))

theorem wp_release {key : ShardId} {owner : Worker} {counter : Nat} (hi : L.Inv s)
    (hk : Keeps L w key (.release owner counter) s) :
    wp (handler K) L w (dynamoDbLeaseStore.release key owner counter) (fun _ _ => True) s :=
  wp_boxLease hi (wp_conditionalWrite hi hk (fun _ _ _ _ _ => trivial) (fun _ _ _ _ => trivial))

theorem wp_deleteLease {key : ShardId} (hi : L.Inv s) (hk : Keeps L w key .deleteLease s) :
    wp (handler K) L w (dynamoDbLeaseStore.deleteLease key) (fun _ _ => True) s :=
  wp_boxLease hi (wp_conditionalWrite hi hk (fun _ _ _ _ _ => trivial) (fun _ _ _ _ => trivial))

theorem wp_createShardLease {key : ShardId} {parents : List ShardId} {cp : Option SequenceNumber} (hi : L.Inv s)
    (hk : Keeps L w key (.createShardLease parents cp) s) :
    wp (handler K) L w (dynamoDbLeaseStore.createShardLease key parents cp) (fun _ _ => True) s := by
  refine wp_boxLease hi (wp_seq hi (wp_dbRequest' hk) ?_)
  intro r _ _ _ _
  split
  · trivial
  · split <;> trivial

theorem wp_tryAcquireLeadership {key : ShardId} {owner : Worker} {expected : Option Nat} (hi : L.Inv s)
    (hput : Keeps L w key (.put owner) s) (hclaim : ∀ c, Keeps L w key (.claim owner c) s) :
    wp (handler K) L w (dynamoDbLeaseStore.tryAcquireLeadership key owner expected) (fun _ _ => True) s := by
  have hbid : ∀ op c, Keeps L w key op s →
      wp (handler K) L w (DynamoDbLeaseStore.bid key op c) (fun _ _ => True) s := by
    intro op c hk
    refine wp_seq hi (wp_dbRequest' hk) ?_
    intro r _ _ _ _
    split
    · trivial
    · split <;> trivial
  refine wp_boxLease hi ?_
  cases expected with
  | none => exact hbid _ _ hput
  | some c => exact hbid _ _ (hclaim c)

theorem execChildShards_cases {p : ShardId} {c : Choice} {s s' : World} {a : Except AwsError (List ShardMeta)}
    (h : execChildShards w p c s = some (a, s')) :
    (s' = s ∧ ∃ e, a = .error e) ∨
      (a = .ok (s.stream.children p) ∧ s' = s.record (.listed w p (s.stream.children p))) := by
  cases c <;> simp only [execChildShards, reduceCtorEq] at h
  case ok =>
    cases h
    exact Or.inr ⟨rfl, rfl⟩
  case fault e =>
    cases h
    exact Or.inl ⟨rfl, e, rfl⟩

/-! ## What one request can do -/

/-- A request leaves the world, changes the caller's memory, writes one row, or is recorded. -/
theorem exec_cases {r : Req} {c : Choice} {s' : World} {a : Resp r} (h : exec K w r c s = some (a, s')) :
    s' = s ∨ (∃ (β : Type) (f : Memory → β × Memory), r = .mem f ∧ s' = s.setMem w (f (s.mem w)).2) ∨
    (∃ key op row, r = .db key op ∧ op.apply key (s.table key) = some row ∧ s' = s.write w key op row) ∨
    (∃ shard records answer, r = .deliver shard records ∧ s' = s.record (.delivered w shard records answer)) ∨
    (∃ shard type pos, s' = s.record (.derived w shard type pos)) ∨
    ∃ parent, r = .describeChildShards parent ∧ s' = s.record (.listed w parent (s.stream.children parent)) := by
  cases r with
  | scan => exact Or.inl (execScan_eq h).1
  | getItem key => exact Or.inl (execRead_eq h).1
  | describeShards => exact Or.inl (execRead_eq h).1
  | describeChildShards p =>
    rcases execChildShards_cases h with ⟨e, _⟩ | ⟨rfl, rfl⟩
    · exact Or.inl e
    · exact Or.inr (Or.inr (Or.inr (Or.inr (Or.inr ⟨p, rfl, rfl⟩))))
  | shardEnded shard => exact Or.inl (execRead_eq h).1
  | leaseLost shard => exact Or.inl (execRead_eq h).1
  | db key op =>
    rcases execDb_cases h with ⟨e, _⟩ | ⟨row, ha, rfl⟩
    · exact Or.inl e
    · exact Or.inr (Or.inr (Or.inl ⟨key, op, row, rfl, ha, rfl⟩))
  | getRecords shard after =>
    left
    change execGetRecords K shard after c s = some (a, s') at h
    cases c <;> simp only [execGetRecords, reduceCtorEq] at h
    case batch => split at h <;> cases h; rfl
    case fault => cases h; rfl
  | getShardIterator shard type q =>
    change execGetShardIterator w shard type q c s = some (a, s') at h
    cases c <;> simp only [execGetShardIterator, reduceCtorEq] at h
    case ok =>
      obtain ⟨pos, _, e⟩ := Option.map_eq_some_iff.mp h
      cases e
      exact Or.inr (Or.inr (Or.inr (Or.inr (Or.inl ⟨shard, type, pos, rfl⟩))))
    case fault => cases h; exact Or.inl rfl
  | getRecordsAt it limit =>
    left
    change execGetRecordsAt it c s = some (a, s') at h
    cases c <;> simp only [execGetRecordsAt, reduceCtorEq] at h
    case batch => split at h <;> cases h; rfl
    case fault => cases h; rfl
  | deliver shard records =>
    refine Or.inr (Or.inr (Or.inr (Or.inl ?_)))
    change execDeliver K w shard records c s = some (a, s') at h
    cases c <;> simp only [execDeliver, reduceCtorEq] at h
    case acked q => split at h <;> cases h; exact ⟨shard, records, _, rfl, rfl⟩
    case unacked => cases h; exact ⟨shard, records, _, rfl, rfl⟩
    case fault => cases h; exact ⟨shard, records, _, rfl, rfl⟩
  | mem f => cases h; exact Or.inr (Or.inl ⟨_, f, rfl, rfl⟩)
  | hashOrder => cases c <;> cases h; exact Or.inl rfl
  | _ => cases h; exact Or.inl rfl

theorem mem_exec {r : Req} {c : Choice} {s' : World} {a : Resp r} (h : exec K w r c s = some (a, s')) :
    s'.mem w = s.mem w ∨ ∃ (β : Type) (f : Memory → β × Memory), r = .mem f ∧ s'.mem w = (f (s.mem w)).2 := by
  rcases exec_cases h with rfl | ⟨β, f, rfl, rfl⟩ | ⟨_, _, _, _, _, rfl⟩ | ⟨_, _, _, _, rfl⟩ | ⟨_, _, _, rfl⟩ |
    ⟨_, _, rfl⟩
  case inr.inl => exact Or.inr ⟨β, f, rfl, by simp [World.setMem]⟩
  all_goals exact Or.inl rfl

end

theorem wp_attempt {K : Contract} {L : Rely World} {w : Worker} {s : World} {ε α β : Type} {p : Fx (Except ε α)}
    {k : α → Fx (Except ε β)} {P : Except ε α → World → Prop} (hi : L.Inv s) (hp : wp (handler K) L w p P s)
    (hk : ∀ a s', L.le s s' → L.Inv s' → P (.ok a) s' → wp (handler K) L w (k a) (fun _ _ => True) s') :
    wp (handler K) L w (attempt p k) (fun _ _ => True) s := by
  unfold attempt
  refine wp_seq hi hp ?_
  intro r s' hl hi' hr
  cases r with
  | error e => trivial
  | ok a => exact hk a s' hl hi' hr

end StreamsConsumer
