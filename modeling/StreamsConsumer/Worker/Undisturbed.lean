import StreamsConsumer.Worker.Site

/-!
# Undisturbed passes

A pass over a shard in which no delivery fails and the lease is not lost, with
deferred checkpoints or without. The position of the shard is then what is
pending, or else the checkpoint of its row, at every moment of the pass.
-/

namespace StreamsConsumer
open Conc

/-! ## Undisturbed runs -/

def Call.smooth : Call → Bool
  | .delivered _ (.error _) => false
  | .lost => false
  | _ => true

def Mishap.fresh : Mishap → Bool
  | .staleScan => false
  | _ => true

/-- No delivery of the shard failed, its lease was not lost, and every scan showed its row as it was. -/
def Site.undisturbed (k : ShardId) (s : Site) : Bool := (s.calls k).all Call.smooth && (s.mishaps k).all Mishap.fresh

/-- A completion of the shard's lease failed. -/
def Slipped (k : ShardId) (s : Site) : Prop := ∃ op, Mishap.failedWrite op ∈ s.mishaps k ∧ op.isMarkComplete = true

theorem undisturbed_of_exec {P : ShardId → Partner} {w : Worker} {k : ShardId} {r : Req} {c : Choice} {s t : Site}
    {a : Resp r} (h : siteExec P w r c s = some (a, t)) (ht : t.undisturbed k = true) : s.undisturbed k = true := by
  obtain ⟨hc, hm⟩ := siteExec_grows (k := k) h
  simp only [Site.undisturbed, Bool.and_eq_true, List.all_eq_true] at ht ⊢
  exact ⟨fun x hx => ht.1 x (hc.subset hx), fun x hx => ht.2 x (hm.subset hx)⟩

theorem undisturbed_of_apart {w : Worker} {k : ShardId} {s t : Site} (h : Apart w k s t)
    (ht : t.undisturbed k = true) : s.undisturbed k = true := by
  unfold Site.undisturbed at ht ⊢
  rw [← h.calls, ← h.mishaps]
  exact ht

/-! ## Where a worker stands with a shard -/

/-- The worker holds the shard's lease with counter `c`; `l` was asked so far, `y` is pending, and `z` is durable. -/
structure Holding (w : Worker) (k : ShardId) (deferred : Bool) (c : Nat) (l : List Call)
    (y z : Option SequenceNumber) (s : Site) : Prop where
  calls : s.calls k = l
  deferring : (s.mem w).ckptDefer.isSome = deferred
  pending : (s.mem w).pending k = y
  row : ∃ r, s.row k = some r ∧ r.leaseKey = k ∧ r.owner = some w ∧ r.leaseCounter = c ∧ r.completed = false ∧
    r.checkpoint = z
  unended : Call.ended ∈ l → Slipped k s

/-- The shard's lease is marked completed at `z`, and that was the end of the calls. -/
structure Concluded (w : Worker) (k : ShardId) (deferred : Bool) (l : List Call) (z : Option SequenceNumber)
    (s : Site) : Prop where
  calls : s.calls k = l
  deferring : (s.mem w).ckptDefer.isSome = deferred
  pending : (s.mem w).pending k = none
  row : ∃ r, s.row k = some r ∧ r.leaseKey = k ∧ r.completed = true ∧ r.checkpoint = z
  ended : ∃ l', l = l' ++ [.ended] ∧ (Call.ended ∈ l' → Slipped k s)

abbrev Undisturbed {α : Type} (P : ShardId → Partner) (w : Worker) (k : ShardId) (B : List Call → Prop) (p : Fx α)
    (Q : α → Site → Prop) (s : Site) : Prop :=
  solo ((siteHandler P).within (Site.undisturbed k)) (Apart w k) w (fun s => B (s.calls k)) p Q s

section
variable {P : ShardId → Partner} {w : Worker} {k : ShardId} {B : List Call → Prop} {deferred : Bool} {c : Nat}
  {l : List Call} {y z : Option SequenceNumber} {s t : Site}

theorem Slipped.mono (h : Slipped k s) (hm : s.mishaps k <:+ t.mishaps k) : Slipped k t := by
  obtain ⟨op, ho, hop⟩ := h
  exact ⟨op, hm.mem ho, hop⟩

theorem Holding.apart (h : Holding w k deferred c l y z s) (ha : Apart w k s t) : Holding w k deferred c l y z t := by
  refine ⟨ha.calls.trans h.calls, ha.deferring.trans h.deferring, ha.pending.trans h.pending, ?_, ?_⟩
  · rw [ha.row]
    exact h.row
  · intro he
    exact (h.unended he).mono (ha.mishaps ▸ List.suffix_refl _)

theorem Concluded.apart (h : Concluded w k deferred l z s) (ha : Apart w k s t) : Concluded w k deferred l z t := by
  refine ⟨ha.calls.trans h.calls, ha.deferring.trans h.deferring, ha.pending.trans h.pending, ?_, ?_⟩
  · rw [ha.row]
    exact h.row
  · obtain ⟨l', e, he⟩ := h.ended
    exact ⟨l', e, fun hl => (he hl).mono (ha.mishaps ▸ List.suffix_refl _)⟩

theorem Holding.pending_eq (h : Holding w k false c l y z s) : y = none := by
  have hnone := Option.not_isSome_iff_eq_none.mp (Bool.eq_false_iff.mp h.deferring)
  rw [← h.pending, Memory.pending, hnone]
  rfl

theorem undisturbed_req {r : Req} {Q : Resp r → Site → Prop} (h : ∀ s₁, Apart w k s s₁ → ∀ c a s₂,
    siteExec P w r c s₁ = some (a, s₂) → s₂.undisturbed k = true → B (s₂.calls k) ∧ Q a s₂) :
    Undisturbed P w k B (Prog.req r) Q s := by
  intro s₁ h₁ c a s₂ he
  obtain ⟨he, hok⟩ := Handler.exec_within.mp he
  exact h s₁ h₁ c a s₂ he hok

/-! ## Requests that ask the source and the consumer -/

theorem Holding.asked (h : Holding w k deferred c l y z s) {x : Call} (hx : x ≠ .ended) :
    Holding w k deferred c (l ++ [x]) y z (s.asked k x) := by
  refine ⟨by simp [Site.asked, h.calls], h.deferring, h.pending, h.row, ?_⟩
  intro he
  rcases List.mem_append.mp he with he | he
  · exact h.unended he
  · exact absurd (List.mem_singleton.mp he).symm hx

theorem undisturbed_createConsumer (h : Holding w k deferred c l y z s) (hB : B (l ++ [.created])) :
    Undisturbed P w k B (createConsumer k) (fun _ => Holding w k deferred c (l ++ [.created]) y z) s := by
  refine undisturbed_req ?_
  intro s₁ h₁ _ a s₂ he _
  cases he
  have h₂ := (h.apart h₁).asked (x := .created) (by simp)
  exact ⟨h₂.calls ▸ hB, h₂⟩

theorem undisturbed_getRecords {after : Option SequenceNumber} (h : Holding w k deferred c l y z s)
    (hB : B (l ++ [.read after])) :
    Undisturbed P w k B (contractSource.getRecords k after) (fun r s' =>
      r = ((P k).read l after).mapError (fun e => .box (.sdk e)) ∧
        Holding w k deferred c (l ++ [.read after]) y z s') s := by
  refine solo_bind _ _ (undisturbed_req ?_)
  intro s₁ h₁ _ a s₂ he _
  cases he
  have h₂ := (h.apart h₁).asked (x := .read after) (by simp)
  refine ⟨h₂.calls ▸ hB, ?_, h₂⟩
  rw [h₁.calls, h.calls]

theorem undisturbed_deliver {records : List Record} (h : Holding w k deferred c l y z s)
    (hB : B (l ++ [.delivered records ((P k).deliver l records)])) :
    Undisturbed P w k B (deliver k records) (fun a s' => a = (P k).deliver l records ∧ (∃ ack, a = .ok ack) ∧
      Holding w k deferred c (l ++ [.delivered records ((P k).deliver l records)]) y z s') s := by
  refine undisturbed_req ?_
  intro s₁ h₁ _ a s₂ he hok
  cases he
  rw [h₁.calls, h.calls] at hok ⊢
  have h₂ := (h.apart h₁).asked (x := .delivered records ((P k).deliver l records)) (by simp)
  refine ⟨h₂.calls ▸ hB, rfl, ?_, h₂⟩
  simp only [Site.undisturbed, h₂.calls, Bool.and_eq_true, List.all_append, List.all_cons] at hok
  cases ha : (P k).deliver l records with
  | ok ack => exact ⟨ack, rfl⟩
  | error e => simp [ha, Call.smooth] at hok

/-! ## Requests that ask neither -/

theorem Holding.same (h : Holding w k deferred c l y z s) (hr : t.row k = s.row k) (hc : t.calls k = s.calls k)
    (hm : s.mishaps k <:+ t.mishaps k) (hp : (t.mem w).pending k = (s.mem w).pending k)
    (hd : (t.mem w).ckptDefer.isSome = (s.mem w).ckptDefer.isSome) : Holding w k deferred c l y z t := by
  refine ⟨hc.trans h.calls, hd.trans h.deferring, hp.trans h.pending, hr ▸ h.row, ?_⟩
  intro he
  exact (h.unended he).mono hm

theorem undisturbed_metric (m : Metric) (h : Holding w k deferred c l y z s) (hB : B l) :
    Undisturbed P w k B (metric m) (fun _ => Holding w k deferred c l y z) s := by
  refine undisturbed_req ?_
  intro s₁ h₁ _ a s₂ he _
  cases he
  have h₂ := h.apart h₁
  exact ⟨h₂.calls ▸ hB, h₂⟩

theorem undisturbed_now (h : Holding w k deferred c l y z s) (hB : B l) :
    Undisturbed P w k B now (fun _ => Holding w k deferred c l y z) s := by
  refine undisturbed_req ?_
  intro s₁ h₁ _ a s₂ he _
  cases he
  have h₂ := h.apart h₁
  exact ⟨h₂.calls ▸ hB, h₂⟩

theorem undisturbed_accessMem {β : Type} {f : Memory → β × Memory} {Q : β → Site → Prop} (hB : B (s.calls k))
    (h : ∀ s₁, Apart w k s s₁ → Q (f (s₁.mem w)).1 (s₁.setMem w (f (s₁.mem w)).2)) :
    Undisturbed P w k B (accessMem f) Q s := by
  refine undisturbed_req ?_
  intro s₁ h₁ _ a s₂ he _
  cases he
  exact ⟨h₁.calls ▸ hB, h s₁ h₁⟩

theorem undisturbed_withDefer {β : Type} {x : β} {f : CkptDefer → β × CkptDefer} {R : β → Option SequenceNumber → Prop}
    (h : Holding w k true c l y z s) (hB : B l)
    (hf : ∀ d : CkptDefer, d.resumeFrom k = y → R (f d).1 ((f d).2.resumeFrom k)) :
    Undisturbed P w k B (withDefer x f) (fun a s' => ∃ y', R a y' ∧ Holding w k true c l y' z s') s := by
  refine undisturbed_accessMem (h.calls ▸ hB) ?_
  intro s₁ h₁
  have h₂ := h.apart h₁
  obtain ⟨d, hd⟩ := Option.isSome_iff_exists.mp h₂.deferring
  have hy : d.resumeFrom k = y := by
    rw [← h₂.pending, Memory.pending, hd]
    rfl
  simp only [hd]
  exact ⟨(f d).2.resumeFrom k, hf d hy, h₂.calls, by simp, by simp [Memory.pending], h₂.row, h₂.unended⟩

theorem undisturbed_forgetPending (h : Holding w k true c l y z s) (hB : B l) :
    Undisturbed P w k B (forgetPending k) (fun _ => Holding w k true c l none z) s := by
  have hf : ∀ d : CkptDefer, d.resumeFrom k = y → (d.forget k).resumeFrom k = none := by
    intro d _
    simp [CkptDefer.forget, CkptDefer.resumeFrom]
  refine solo_mono _ ?_ (undisturbed_withDefer (R := fun _ y' => y' = none) h hB hf)
  intro _ s' hx
  obtain ⟨y', e, h'⟩ := hx
  exact e ▸ h'

theorem undisturbed_takePending (h : Holding w k true c l y z s) (hB : B l) :
    Undisturbed P w k B (withDefer none fun d => d.takePending k) (fun a s' => a = y ∧
      Holding w k true c l none z s') s := by
  have hf : ∀ d : CkptDefer, d.resumeFrom k = y →
      (d.takePending k).1 = y ∧ (d.takePending k).2.resumeFrom k = none := by
    intro d hd
    refine ⟨(d.takePending_fst k).trans hd, ?_⟩
    unfold CkptDefer.takePending CkptDefer.resumeFrom
    split
    · simp
    · rename_i hn
      simp [hn]
  refine solo_mono _ ?_ (undisturbed_withDefer (R := fun a y' => a = y ∧ y' = none) h hB hf)
  intro a s' hx
  obtain ⟨y', e, h'⟩ := hx
  exact ⟨e.1, e.2 ▸ h'⟩

/-! ## Losing the lease -/

theorem undisturbed_unasked {α : Type} {p : Fx α} (hp : Uses (fun r => (∃ m, r = .metric m) ∨
    ∃ (β : Type) (f : Memory → β × Memory), r = .mem f) p) (hl : s.calls k = l) (hB : B l) :
    Undisturbed P w k B p (fun _ s' => s'.calls k = l) s := by
  refine solo_of_uses (K := fun s' : Site => s'.calls k = l) ?_ ?_ ?_ p hp hl
  · intro s s' ha h
    exact ha.calls.trans h
  · intro s h
    exact h.symm ▸ hB
  · intro r hr c s a s' h he
    obtain ⟨he, _⟩ := Handler.exec_within.mp he
    rcases hr with ⟨m, rfl⟩ | ⟨β, f, rfl⟩
    · cases he
      exact h
    · cases he
      exact h

theorem undisturbed_lostLease {Q : Unit → Site → Prop} (hl : s.calls k = l) (hB : B l) :
    Undisturbed P w k B (lostLease k) Q s := by
  refine solo_seq (undisturbed_unasked (p := metric (.leaseLost k)) ⟨Or.inl ⟨_, rfl⟩, fun _ => trivial⟩ hl hB) ?_
  intro _ s₁ h₁
  refine solo_bind _ _ (undisturbed_req ?_)
  intro s₂ h₂ _ a s₃ he hok
  cases he
  simp [Site.undisturbed, Site.asked, Call.smooth] at hok

/-! ## Writes to the lease row -/

theorem undisturbed_dbRequest {op : DbOp} {Q : Except AwsError Nat → Site → Prop} (hB : B (s.calls k))
    (h : ∀ s₁, Apart w k s s₁ → ∀ a u, (u = s₁.world ∧ ∃ e, a = .error e) ∨
      (∃ row, op.apply k (s₁.row k) = some row ∧ u = s₁.world.write w k op row) → Q a (s₁.wrote k op u a)) :
    Undisturbed P w k B (dbRequest k op) Q s := by
  refine undisturbed_req ?_
  intro s₁ h₁ _ a s₂ he _
  obtain ⟨⟨a', u⟩, hdb, hx⟩ := Option.map_eq_some_iff.mp he
  cases hx
  refine ⟨?_, h s₁ h₁ a' u (execDb_cases hdb)⟩
  have hcalls : (s₁.wrote k op u a').calls = s₁.calls := by
    unfold Site.wrote
    split <;> rfl
  rw [hcalls, h₁.calls]
  exact hB

/-- The lease row has moved on from the counter `c`. -/
def Spent (k : ShardId) (c : Nat) (l : List Call) (s : Site) : Prop :=
  s.calls k = l ∧ ∃ r, s.row k = some r ∧ r.leaseCounter ≠ c

theorem Spent.apart (h : Spent k c l s) (ha : Apart w k s t) : Spent k c l t := by
  refine ⟨ha.calls.trans h.1, ?_⟩
  rw [ha.row]
  exact h.2

theorem Holding.refused (h : Holding w k deferred c l y z s) {op : DbOp} {e : AwsError} :
    Holding w k deferred c l y z (s.wrote k op s.world (.error e)) :=
  h.same rfl rfl (mishaps_wrote s k op s.world (.error e)) rfl rfl

theorem row_wrote {op : DbOp} {row : Option Lease} {a : Except AwsError Nat} :
    (s.wrote k op (s.world.write w k op row) a).row k = row := by
  unfold Site.wrote Site.row World.write
  split <;> simp

theorem Holding.wrote (h : Holding w k deferred c l y z s) {op : DbOp} {r : Lease} {a : Except AwsError Nat} {c' : Nat}
    {z' : Option SequenceNumber} (hr : r.leaseKey = k ∧ r.owner = some w ∧ r.leaseCounter = c' ∧ r.completed = false ∧
      r.checkpoint = z') : Holding w k deferred c' l y z' (s.wrote k op (s.world.write w k op (some r)) a) := by
  have hm := mishaps_wrote (k := k) s k op (s.world.write w k op (some r)) a
  refine ⟨?_, ?_, ?_, ⟨r, row_wrote, hr⟩, fun he => (h.unended he).mono hm⟩
  · rw [← h.calls]
    unfold Site.wrote
    split <;> rfl
  · rw [← h.deferring]
    unfold Site.wrote
    split <;> rfl
  · rw [← h.pending]
    unfold Site.wrote
    split <;> rfl

/-- The state of a write that is tried again: not done yet, or done while its reply was lost. -/
def Trying (w : Worker) (k : ShardId) (deferred : Bool) (c : Nat) (l : List Call) (y z : Option SequenceNumber) (n : Nat)
    (s : Site) : Prop :=
  (Holding w k deferred c l y z s ∨ Spent k c l s) ∧ n ≤ (s.mishaps k).length

theorem Trying.calls {n : Nat} (h : Trying w k deferred c l y z n s) : s.calls k = l := h.1.elim Holding.calls And.left

theorem Trying.apart {n : Nat} (h : Trying w k deferred c l y z n s) (ha : Apart w k s t) :
    Trying w k deferred c l y z n t :=
  ⟨h.1.imp (·.apart ha) (·.apart ha), ha.mishaps ▸ h.2⟩

theorem length_wrote_error {op : DbOp} {u : World} {e : AwsError} :
    ((s.wrote k op u (.error e)).mishaps k).length = (s.mishaps k).length + 1 := by
  simp [Site.wrote]

theorem undisturbed_checkpointOnce {q : SequenceNumber} {n : Nat} (h : Trying w k deferred c l y z n s) (hB : B l) :
    Undisturbed P w k B (conditionalWrite k (.checkpoint w c q) (c + 1)) (fun x s' =>
      (x = .ok (c + 1) ∧ Holding w k deferred (c + 1) l y (some q) s') ∨
        (∃ e, x = .error e) ∧ Trying w k deferred c l y z (n + 1) s') s := by
  refine solo_bind _ _ (undisturbed_dbRequest (h.calls ▸ hB) ?_)
  intro s₁ h₁ a u hu
  obtain ⟨h, hn⟩ := h.apart h₁
  have hn' : ∀ e, n + 1 ≤ ((s₁.wrote k (.checkpoint w c q) u (.error e)).mishaps k).length := by
    intro e
    rw [length_wrote_error]
    exact Nat.succ_le_succ hn
  rcases h with h | ⟨hl, r, hr, hne⟩
  · rcases hu with ⟨rfl, e, rfl⟩ | ⟨row, hrow, rfl⟩
    · exact Or.inr ⟨⟨_, rfl⟩, Or.inl h.refused, hn' e⟩
    · obtain ⟨r, hr, hkey, howner, hc, hcomp, hz⟩ := h.row
      rw [hr, DbOp.apply, if_pos ⟨hc, howner⟩] at hrow
      cases hrow
      have hs₂ : Holding w k deferred (c + 1) l y (some q) (s₁.wrote k (.checkpoint w c q) (s₁.world.write w k
          (.checkpoint w c q) (some { r with checkpoint := some q, leaseCounter := r.leaseCounter + 1 })) a) :=
        h.wrote ⟨hkey, howner, congrArg (· + 1) hc, hcomp, rfl⟩
      cases a with
      | ok n => exact Or.inl ⟨rfl, hs₂⟩
      | error e =>
        obtain ⟨r', hr', _, _, hc', _⟩ := hs₂.row
        exact Or.inr ⟨⟨_, rfl⟩, Or.inr ⟨hs₂.calls, r', hr', by omega⟩, hn' e⟩
  · rcases hu with ⟨rfl, e, rfl⟩ | ⟨row, hrow, rfl⟩
    · exact Or.inr ⟨⟨_, rfl⟩, Or.inr ⟨hl, r, hr, hne⟩, hn' e⟩
    · simp [hr, DbOp.apply, hne] at hrow

theorem undisturbed_retryThrottled {ε α : Type} {throttled : ε → Bool} {op : Fx (Except ε α)} {J K : Site → Prop}
    {Q : Except ε α → Site → Prop} (hJ : ∀ s s', Apart w k s s' → J s → J s') (hB : ∀ s, J s → B (s.calls k))
    (hK : ∀ s, K s → J s) (hQ : ∀ e s, K s → Q (.error e) s)
    (hop : ∀ s, J s → Undisturbed P w k B op (fun x s' => (∃ a, x = .ok a) ∧ Q x s' ∨ (∃ e, x = .error e) ∧ K s') s)
    (n delay : Nat) (h : J s) : Undisturbed P w k B (retryThrottled throttled op n delay) Q s := by
  refine solo_retryThrottled hK hQ ?_ hop n delay h
  intro ms s hj
  refine undisturbed_req ?_
  intro s₁ h₁ _ _ s₂ he _
  cases he
  have hj₁ := hJ s s₁ h₁ hj
  exact ⟨hB s₁ hj₁, hj₁⟩

theorem undisturbed_checkpoint {q : SequenceNumber} (h : Holding w k deferred c l y z s) (hB : B l) :
    Undisturbed P w k B (dynamoDbLeaseStore.checkpoint k w c q) (fun x s' =>
      (x = .ok (c + 1) ∧ Holding w k deferred (c + 1) l y (some q) s') ∨
        (∃ e, x = .error e) ∧ s'.calls k = l ∧ (s.mishaps k).length < (s'.mishaps k).length) s := by
  refine solo_bind _ _ (undisturbed_retryThrottled (J := Trying w k deferred c l y z (s.mishaps k).length)
    (K := Trying w k deferred c l y z ((s.mishaps k).length + 1)) ?_ ?_ ?_ ?_ ?_ _ _ ⟨Or.inl h, le_rfl⟩)
  · intro s s' ha h
    exact h.apart ha
  · intro s h
    exact h.calls ▸ hB
  · intro s h
    exact ⟨h.1, Nat.le_of_succ_le h.2⟩
  · intro e s' h
    exact Or.inr ⟨⟨_, rfl⟩, h.calls, h.2⟩
  · intro s h
    refine solo_mono _ ?_ (undisturbed_checkpointOnce h hB)
    intro x s' hx
    rcases hx with ⟨rfl, hs⟩ | ⟨he, hs⟩
    · exact Or.inl ⟨⟨_, rfl⟩, Or.inl ⟨rfl, hs⟩⟩
    · exact Or.inr ⟨he, hs⟩

/-! ## The parts of a pass -/

theorem resumeFrom_persisted_self (d : CkptDefer) (k : ShardId) (t : Nat) : (d.persisted k t).resumeFrom k = none := by
  unfold CkptDefer.persisted CkptDefer.resumeFrom
  split
  · simp
  · rename_i hn
    simp [hn]

theorem undisturbed_recordAck {q : SequenceNumber} {n : Nat} (h : Holding w k true c l y z s) (hB : B l) :
    Undisturbed P w k B (withDefer none fun d => d.recordAck k q n) (fun a s' => (a = none ∨ a = some q) ∧
      Holding w k true c l (some q) z s') s := by
  have hf : ∀ d : CkptDefer, d.resumeFrom k = y → ((d.recordAck k q n).1 = none ∨ (d.recordAck k q n).1 = some q) ∧
      (d.recordAck k q n).2.resumeFrom k = some q := by
    intro d _
    refine ⟨?_, by simp [CkptDefer.resumeFrom_recordAck]⟩
    cases hdue : (d.recordAck k q n).1 with
    | none => exact Or.inl rfl
    | some due => exact Or.inr (congrArg some (CkptDefer.recordAck_due hdue))
  refine solo_mono _ ?_ (undisturbed_withDefer (R := fun a y' => (a = none ∨ a = some q) ∧ y' = some q) h hB hf)
  intro a s' hx
  obtain ⟨y', e, h'⟩ := hx
  exact ⟨e.1, e.2 ▸ h'⟩

theorem undisturbed_persisted {n : Nat} (h : Holding w k true c l y z s) (hB : B l) :
    Undisturbed P w k B (withDefer () fun d => ((), d.persisted k n)) (fun _ => Holding w k true c l none z) s := by
  have hf : ∀ d : CkptDefer, d.resumeFrom k = y → (d.persisted k n).resumeFrom k = none :=
    fun d _ => resumeFrom_persisted_self d k n
  refine solo_mono _ ?_ (undisturbed_withDefer (R := fun _ y' => y' = none) h hB hf)
  intro _ s' hx
  obtain ⟨y', e, h'⟩ := hx
  exact e ▸ h'

theorem undisturbed_forsake {α : Type} {x : α} {Q : α → Site → Prop} (hl : s.calls k = l) (hB : B l) :
    Undisturbed P w k B ((forgetPending k).bind fun _ => (lostLease k).bind fun _ => .ret x) Q s := by
  refine solo_seq (undisturbed_unasked (p := forgetPending k) ⟨Or.inr ⟨_, _, rfl⟩, fun _ => trivial⟩ hl hB) ?_
  intro _ s₁ h₁
  exact solo_bind _ _ (undisturbed_lostLease h₁ hB)

theorem undisturbed_persistAck {task : ShardTask} {q : SequenceNumber}
    (h : Holding task.owner task.shard task.deferred c l y z s) (hB : B l) :
    Undisturbed P task.owner task.shard B (persistAck dynamoDbLeaseStore task c q) (fun x s' => ∃ c' y' z',
      x = some c' ∧ y'.or z' = some q ∧ Holding task.owner task.shard task.deferred c' l y' z' s') s := by
  unfold persistAck
  split
  · rename_i hd
    rw [hd] at h ⊢
    refine solo_seq (undisturbed_now h hB) ?_
    intro n s₁ h₁
    refine solo_seq (undisturbed_recordAck h₁ hB) ?_
    intro a s₂ ⟨ha, h₂⟩
    rcases ha with rfl | rfl
    · exact ⟨c, some q, z, rfl, rfl, h₂⟩
    · refine solo_seq (undisturbed_checkpoint h₂ hB) ?_
      intro x s₃ hx
      rcases hx with ⟨rfl, h₃⟩ | ⟨⟨e, rfl⟩, hl, _⟩
      · refine solo_seq (undisturbed_persisted h₃ hB) ?_
        intro _ s₄ h₄
        exact ⟨c + 1, none, some q, rfl, rfl, h₄⟩
      · exact undisturbed_forsake hl hB
  · rename_i hd
    rw [Bool.not_eq_true] at hd
    rw [hd] at h ⊢
    obtain rfl := h.pending_eq
    refine solo_seq (undisturbed_checkpoint h hB) ?_
    intro x s₁ hx
    rcases hx with ⟨rfl, h₁⟩ | ⟨⟨e, rfl⟩, hl, _⟩
    · exact ⟨c + 1, none, some q, rfl, rfl, h₁⟩
    · exact solo_bind _ _ (undisturbed_lostLease hl hB)

def ackOf : Except AwsError (Option SequenceNumber) → Option SequenceNumber
  | .ok ack => ack
  | .error _ => none

theorem undisturbed_deliverRecords {task : ShardTask} {records : List Record}
    (h : Holding task.owner task.shard task.deferred c l y z s)
    (hB : B (l ++ [.delivered records ((P task.shard).deliver l records)])) :
    Undisturbed P task.owner task.shard B (deliverRecords dynamoDbLeaseStore task c records) (fun x s' => ∃ c' y' z',
      x = some c' ∧ y'.or z' = (ackOf ((P task.shard).deliver l records)).or (y.or z) ∧
        Holding task.owner task.shard task.deferred c' (l ++ [.delivered records ((P task.shard).deliver l records)])
          y' z' s') s := by
  unfold deliverRecords
  refine solo_seq (undisturbed_deliver h hB) ?_
  intro a s₁ ⟨ha, ⟨ack, hack⟩, h₁⟩
  rw [hack] at ha
  subst hack
  rw [← ha] at h₁ hB ⊢
  cases ack with
  | none => exact ⟨c, y, z, rfl, rfl, h₁⟩
  | some q =>
    refine solo_mono _ ?_ (undisturbed_persistAck h₁ hB)
    intro x s' ⟨c', y', z', hx, he, h'⟩
    exact ⟨c', y', z', hx, he, h'⟩

/-! ## The end of a shard -/

/-- Between passes: the lease is held at the logical position `p`, or completed there. -/
def Resting (w : Worker) (k : ShardId) (deferred : Bool) (l : List Call) (p : Option SequenceNumber) (s : Site) : Prop :=
  (∃ c y z, y.or z = p ∧ Holding w k deferred c l y z s) ∨ Concluded w k deferred l p s

theorem Resting.apart {p : Option SequenceNumber} (h : Resting w k deferred l p s) (ha : Apart w k s t) :
    Resting w k deferred l p t := by
  rcases h with ⟨c, y, z, e, h⟩ | h
  · exact Or.inl ⟨c, y, z, e, h.apart ha⟩
  · exact Or.inr (h.apart ha)

theorem Resting.calls {p : Option SequenceNumber} (h : Resting w k deferred l p s) : s.calls k = l := by
  rcases h with ⟨_, _, _, _, h⟩ | h
  · exact h.calls
  · exact h.calls

theorem undisturbed_restingMetric {p : Option SequenceNumber} (m : Metric) (h : Resting w k deferred l p s) (hB : B l) :
    Undisturbed P w k B (metric m) (fun _ => Resting w k deferred l p) s := by
  refine undisturbed_req ?_
  intro s₁ h₁ _ a s₂ he _
  cases he
  have h₂ := h.apart h₁
  exact ⟨h₂.calls ▸ hB, h₂⟩

/-- The consumer has been told the end of the shard, the lease is not completed yet. -/
structure Sealing (w : Worker) (k : ShardId) (deferred : Bool) (c : Nat) (l : List Call) (z : Option SequenceNumber)
    (s : Site) : Prop where
  calls : s.calls k = l ++ [.ended]
  deferring : (s.mem w).ckptDefer.isSome = deferred
  pending : (s.mem w).pending k = none
  row : ∃ r, s.row k = some r ∧ r.leaseKey = k ∧ r.owner = some w ∧ r.leaseCounter = c ∧ r.completed = false ∧
    r.checkpoint = z
  earlier : Call.ended ∈ l → Slipped k s

theorem Sealing.apart (h : Sealing w k deferred c l z s) (ha : Apart w k s t) : Sealing w k deferred c l z t := by
  refine ⟨ha.calls.trans h.calls, ha.deferring.trans h.deferring, ha.pending.trans h.pending, ha.row ▸ h.row, ?_⟩
  intro he
  exact (h.earlier he).mono (ha.mishaps ▸ List.suffix_refl _)

theorem slipped_wrote {op : DbOp} (hop : op.isMarkComplete = true) {u : World} {e : AwsError} :
    Slipped k (s.wrote k op u (.error e)) :=
  ⟨op, by simp [Site.wrote], hop⟩

theorem undisturbed_markComplete (h : Sealing w k deferred c l z s) (hB : B (l ++ [.ended])) :
    Undisturbed P w k B (dynamoDbLeaseStore.markComplete k w c) (fun _ => Resting w k deferred (l ++ [.ended]) z) s := by
  refine solo_bind _ _ (solo_bind _ _ (undisturbed_dbRequest (h.calls ▸ hB) ?_))
  intro s₁ h₁ a u hu
  have hs₁ := h.apart h₁
  obtain ⟨r, hr, hkey, howner, hc, hcomp, hz⟩ := hs₁.row
  have hrest : Resting w k deferred (l ++ [.ended]) z (s₁.wrote k (.markComplete w c) u a) := by
    rcases hu with ⟨rfl, e, rfl⟩ | ⟨row, hrow, rfl⟩
    · exact Or.inl ⟨c, none, z, rfl, hs₁.calls, hs₁.deferring, hs₁.pending, ⟨r, hr, hkey, howner, hc, hcomp, hz⟩,
        fun _ => slipped_wrote rfl⟩
    · rw [hr, DbOp.apply, if_pos ⟨hc, howner⟩] at hrow
      cases hrow
      have hsame : ∀ a : Except AwsError Nat, (s₁.wrote k (.markComplete w c) (s₁.world.write w k (.markComplete w c)
          (some { r with completed := true })) a).calls = s₁.calls ∧
          (s₁.wrote k (.markComplete w c) (s₁.world.write w k (.markComplete w c)
            (some { r with completed := true })) a).mem w = s₁.mem w := by
        intro a
        cases a <;> exact ⟨rfl, rfl⟩
      obtain ⟨hcalls, hmem⟩ := hsame a
      refine Or.inr ⟨hcalls ▸ hs₁.calls, hmem ▸ hs₁.deferring, hmem ▸ hs₁.pending, ⟨_, row_wrote, hkey, rfl, hz⟩,
        l, rfl, fun he => (hs₁.earlier he).mono (mishaps_wrote s₁ k _ _ a)⟩
  cases a with
  | ok n => exact hrest
  | error e => exact hrest

theorem undisturbed_completeShard {task : ShardTask} (h : Holding task.owner task.shard task.deferred c l none z s)
    (hB : B (l ++ [.ended])) :
    Undisturbed P task.owner task.shard B (completeShard dynamoDbLeaseStore task c) (fun _ =>
      Resting task.owner task.shard task.deferred (l ++ [.ended]) z) s := by
  unfold completeShard
  refine solo_seq (P := fun _ => Sealing task.owner task.shard task.deferred c l z) (undisturbed_req ?_) ?_
  · intro s₁ h₁ _ a s₂ he _
    cases he
    have hs₁ := h.apart h₁
    have hcalls : (s₁.asked task.shard .ended).calls task.shard = l ++ [.ended] := by simp [Site.asked, hs₁.calls]
    exact ⟨hcalls ▸ hB, hcalls, hs₁.deferring, hs₁.pending, hs₁.row, hs₁.unended⟩
  · intro _ s₁ h₁
    refine solo_seq (undisturbed_markComplete h₁ hB) ?_
    intro _ s₂ h₂
    exact solo_seq (undisturbed_restingMetric _ h₂ hB) fun _ _ h => h

theorem undisturbed_endShard {task : ShardTask} (h : Holding task.owner task.shard task.deferred c l y z s)
    (hB : B l) (hB' : B (l ++ [.ended])) :
    Undisturbed P task.owner task.shard B (endShard dynamoDbLeaseStore task c) (fun _ =>
      Resting task.owner task.shard task.deferred (l ++ [.ended]) (y.or z)) s := by
  unfold endShard
  split
  · rename_i hd
    rw [hd] at h
    refine solo_seq (undisturbed_takePending h hB) ?_
    intro a s₁ ⟨ha, h₁⟩
    subst ha
    cases a with
    | none =>
      refine solo_seq (undisturbed_forgetPending h₁ hB) ?_
      intro _ s₂ h₂
      exact undisturbed_completeShard (hd ▸ h₂) hB'
    | some q =>
      refine solo_seq (undisturbed_checkpoint h₁ hB) ?_
      intro x s₂ hx
      rcases hx with ⟨rfl, h₂⟩ | ⟨⟨e, rfl⟩, hl, _⟩
      · refine solo_seq (undisturbed_forgetPending h₂ hB) ?_
        intro _ s₃ h₃
        exact undisturbed_completeShard (hd ▸ h₃) hB'
      · exact undisturbed_forsake hl hB
  · rename_i hd
    rw [Bool.not_eq_true] at hd
    rw [hd] at h
    obtain rfl := h.pending_eq
    exact undisturbed_completeShard (hd ▸ h) hB'

end

end StreamsConsumer
