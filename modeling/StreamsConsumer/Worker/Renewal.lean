import Mathlib.Data.List.Chain
import Mathlib.Data.List.Dedup
import StreamsConsumer.Conc.Trail
import StreamsConsumer.Worker.Rules

/-!
# The renewals of a leader

`Leadership::step` feeds only the sentinel row to its coordinator, and the
coordinator takes its signs of life from heartbeat rows. So the clock of a
foreign leader starts when a follower first sees it and no renewal moves it:
`renewing_leader_kept_iff` says how long such a leader is left alone.
-/

namespace StreamsConsumer
open Conc

/-- Since when the coordinator has had no sign of life of `o`; at first sight the clock starts. -/
def LeaseCoordinator.since (c : LeaseCoordinator) (o : Worker) (nowMs : Nat) : Nat :=
  ((c.seen o).map Seen.lastChangeMs).getD nowMs

section
variable {c : LeaseCoordinator} {r : Lease} {o : Worker} {nowMs : Nat}

theorem observe_sentinel (hk : r.leaseKey = LEADER_LEASE_KEY) (ho : r.owner = some o) (hne : o ≠ c.me) :
    c.observe [r] nowMs =
      { c with seen := fun v => if v = o then some ((c.seen o).getD ⟨0, nowMs⟩) else none } := by
  have hhb : isHeartbeatKey r.leaseKey = false := by
    rw [hk]
    decide
  simp only [LeaseCoordinator.observe, LeaseCoordinator.mk.injEq, true_and]
  funext v
  by_cases hv : v = o
  · subst hv
    cases hs : c.seen v <;> simp [hhb, ho, hs, hne, LeaseCoordinator.seedGrace]
  · simp [ho, hv]

theorem isOwnerExpired_observe_sentinel (hk : r.leaseKey = LEADER_LEASE_KEY) (ho : r.owner = some o)
    (hne : o ≠ c.me) : (c.observe [r] nowMs).isOwnerExpired r.owner nowMs =
      decide (c.leaseDurationMs < nowMs - c.since o nowMs) := by
  rw [observe_sentinel hk ho hne, ho]
  unfold LeaseCoordinator.isOwnerExpired LeaseCoordinator.since
  cases hs : c.seen o <;> simp [hne]

theorem computeLeasesToTake_single {order : List Worker} {me : Worker} {l : LeaseSnapshot} (hl : l.owner = some o)
    (hne : o ≠ me) :
    computeLeasesToTake order [l] me 1 = if l.completed = false ∧ l.expired = true then [l.leaseKey] else [] := by
  obtain ⟨key, owner, expired, completed⟩ := l
  obtain rfl : owner = some o := hl
  have hone : ∀ v : Worker, [v].dedup = [v] := fun v => (List.nodup_singleton v).dedup
  cases completed
  case true => rfl
  cases expired
  · have hme : [me, o].dedup = [me, o] := List.Nodup.dedup (by simp [Ne.symm hne])
    -- the only owner holds one lease, which is not more than its share
    have hcounts : ownerCounts [⟨key, some o, false, false⟩] me = [(o, 1)] := by simp [ownerCounts, hne, hone]
    simp only [computeLeasesToTake, Bool.not_false, List.filter_cons_of_pos, List.filter_nil, hcounts]
    cases hm : mostLoaded (hashIter order Prod.fst [(o, 1)]) with
    | none => simp [hme, hne, sortByKey, pushKeys]
    | some x =>
      obtain rfl := List.mem_singleton.mp (mem_of_mem_hashIter (mem_of_mostLoaded hm))
      simp [hme, hne, sortByKey, pushKeys]
  · simp [computeLeasesToTake, hne, hone, sortByKey, pushKeys]

theorem tick_sentinel (order : List Worker) (hk : r.leaseKey = LEADER_LEASE_KEY) (ho : r.owner = some o)
    (hne : o ≠ c.me) (hmax : c.maxTake = 1) :
    LEADER_LEASE_KEY ∈ (c.tick order [r] nowMs).1 ↔
      r.completed = false ∧ c.leaseDurationMs < nowMs - c.since o nowMs := by
  have hhb : isHeartbeatKey r.leaseKey = false := by
    rw [hk]
    decide
  have hme : (c.observe [r] nowMs).me = c.me ∧ (c.observe [r] nowMs).maxTake = 1 := by
    rw [observe_sentinel hk ho hne]
    exact ⟨rfl, hmax⟩
  have hsnap : (c.observe [r] nowMs).snapshot [r] nowMs =
      [⟨r.leaseKey, r.owner, decide (c.leaseDurationMs < nowMs - c.since o nowMs), r.completed⟩] := by
    rw [← isOwnerExpired_observe_sentinel hk ho hne]
    simp [LeaseCoordinator.snapshot, hhb]
  unfold LeaseCoordinator.tick
  simp only [hsnap, hme.1, hme.2]
  rw [computeLeasesToTake_single ho hne]
  split
  · rename_i h
    simpa [hk] using h
  · rename_i h
    simpa using h

end

/-! ## The steps of a follower -/

/-- What a `Leadership` carries from its construction on. -/
structure Candidate (w : Worker) (l : Leadership) : Prop where
  me : l.coord.me = w
  maxTake : l.coord.maxTake = 1

/-- What happens beside the steps: everything that leaves the `Leadership` of `w` alone. -/
def Beside (w : Worker) (s s' : World) : Prop := (s'.mem w).leadership = (s.mem w).leadership

/-- A sequence of step calls, each with a scan and a time: what was asked, and what each call returned. -/
inductive Steps (D : Deployment) (K : Contract) (w : Worker) :
    World → List (List Lease × Nat) → List ((r : Req) × Resp r) → List Bool → Prop where
  | nil (s : World) : Steps D K w s [] [] []
  | cons {s s' : World} {rows : List Lease} {t : Nat} {calls : List (List Lease × Nat)}
      {log logs : List ((r : Req) × Resp r)} {b : Bool} {bs : List Bool}
      (h : Trail (handler K) (Beside w) w (leadershipStep (D.fleet w) rows t) s log (.ret b) s')
      (hs : Steps D K w s' calls logs bs) : Steps D K w s ((rows, t) :: calls) (log ++ logs) (b :: bs)

def isBid : Req → Bool
  | .db key (.put _) => key == LEADER_LEASE_KEY
  | .db key (.claim _ _) => key == LEADER_LEASE_KEY
  | _ => false

def leaderRow (rows : List Lease) : Option Lease := rows.find? fun r => r.leaseKey = LEADER_LEASE_KEY

/-- A foreign leader that renews: at every step the sentinel is owned by `o`, its counter differs from the
one of the step before, and at most `dur` passed since. -/
structure Renewing (o : Worker) (dur : Nat) (calls : List (List Lease × Nat)) : Prop where
  owned : ∀ c ∈ calls, ∃ r, leaderRow c.1 = some r ∧ r.owner = some o
  renewed : calls.IsChain fun c c' => (leaderRow c.1).map Lease.leaseCounter ≠ (leaderRow c'.1).map Lease.leaseCounter
  timely : calls.IsChain fun c c' => c.2 ≤ c'.2 ∧ c'.2 - c.2 ≤ dur

section
variable {D : Deployment} {K : Contract} {w o : Worker} {s s' : World} {rows : List Lease} {r : Lease} {t : Nat}
  {log : List ((r : Req) × Resp r)} {b : Bool}

theorem Beside.of_many (h : Relation.ReflTransGen (Beside w) s s') : Beside w s s' := by
  induction h with
  | refl => rfl
  | tail _ h ih => exact Eq.trans h ih

theorem execDb_mem {v : Worker} {key : ShardId} {op : DbOp} {c : Choice} {a : Except AwsError Nat}
    (h : execDb v key op c s = some (a, s')) : s'.mem = s.mem := by
  rcases execDb_cases h with ⟨rfl, _⟩ | ⟨row, _, rfl⟩
  · rfl
  · rfl

theorem holdLeadership_coord {granted : Except WorkerError (Option Nat)}
    (h : Trail (handler K) (Beside w) w (holdLeadership granted) s log (.ret b) s') :
    (s'.mem w).leadership.coord = (s.mem w).leadership.coord := by
  unfold holdLeadership at h
  split at h
  · obtain ⟨s₁, c, a, s₂, l, h₁, he, rfl, ht⟩ := h.of_req
    obtain ⟨_, _, h₂⟩ := ht.of_ret
    cases he
    rw [Beside.of_many h₂, ← Beside.of_many h₁]
    simp [World.setMem]
  · obtain ⟨_, _, h₁⟩ := h.of_ret
    rw [Beside.of_many h₁]

theorem bid_spec {c : Nat} (h : Trail (handler K) (Beside w) w
      ((dynamoDbLeaseStore.tryAcquireLeadership LEADER_LEASE_KEY w (some c)).bind holdLeadership) s log (.ret b) s') :
    (s'.mem w).leadership.coord = (s.mem w).leadership.coord ∧ ∃ e ∈ log, isBid e.1 = true := by
  obtain ⟨granted, u, l₁, l₂, rfl, hbid, hhold⟩ := h.of_bind
  obtain ⟨r, u₁, l₃, l₄, rfl, hbid, hret⟩ := hbid.of_bind
  obtain ⟨_, _, h₂⟩ := hret.of_ret
  obtain ⟨s₁, c₁, a, s₂, l, h₁, he, rfl, hk⟩ := hbid.of_req
  have hrest : Beside w s₂ u₁ := by
    cases a with
    | ok n => exact Beside.of_many hk.of_ret.2.2
    | error e =>
      by_cases hcode : e.code = some CONDITIONAL_CHECK_FAILED
      · simp only [hcode, if_true] at hk
        exact Beside.of_many hk.of_ret.2.2
      · simp only [hcode, if_false] at hk
        exact Beside.of_many hk.of_ret.2.2
  constructor
  · rw [holdLeadership_coord hhold, Beside.of_many h₂, hrest, execDb_mem he, Beside.of_many h₁]
  · exact ⟨_, List.mem_append_left _ (List.mem_append_left _ List.mem_cons_self), rfl⟩

theorem step_foreign (hr : leaderRow rows = some r) (ho : r.owner = some o) (hne : o ≠ w)
    (hc : Candidate w (s.mem w).leadership)
    (h : Trail (handler K) (Beside w) w (leadershipStep (D.fleet w) rows t) s log (.ret b) s') :
    (s'.mem w).leadership.coord = (s.mem w).leadership.coord.observe [r] t ∧
      ((b = false ∧ ∀ e ∈ log, isBid e.1 = false) ↔ (r.completed = true ∨
        t - (s.mem w).leadership.coord.since o t ≤ (s.mem w).leadership.coord.leaseDurationMs)) := by
  obtain ⟨s₁, c₁, order, s₂, l₁, h₁, he₁, rfl, ht₁⟩ := h.of_req
  obtain ⟨s₃, c₃, takeable, s₄, l₃, h₃, he₃, rfl, ht₃⟩ := ht₁.of_req
  have horder : (s₂.mem w).leadership = (s₁.mem w).leadership := by
    cases c₁ <;> cases he₁
    rfl
  have hsame : (s₃.mem w).leadership = (s.mem w).leadership :=
    (Beside.of_many h₃).trans (horder.trans (Beside.of_many h₁))
  have hkey : r.leaseKey = LEADER_LEASE_KEY := by simpa using List.find?_some hr
  have hrow : rows.find? (fun r => r.leaseKey = LEADER_LEASE_KEY) = some r := hr
  have hme : o ≠ (s.mem w).leadership.coord.me := by rwa [hc.me]
  rw [hrow] at he₃ ht₃
  have hfour : (s₄.mem w).leadership.coord = (s.mem w).leadership.coord.observe [r] t := by
    cases he₃
    simp [World.setMem, leaderTick, LeaseCoordinator.tick, hsame]
  have htake : takeable = true ↔ r.completed = false ∧ (s.mem w).leadership.coord.leaseDurationMs <
      t - (s.mem w).leadership.coord.since o t := by
    rw [← tick_sentinel order hkey ho hme hc.maxTake]
    cases he₃
    simp only [leaderTick, hsame, Option.toList_some, List.contains_eq_mem]
    exact decide_eq_true_iff
  have hforeign : r.owner ≠ some (D.fleet w).config.owner := by
    rw [ho]
    intro e
    exact hne ((Option.some.inj e).trans (D.owner_eq w))
  simp only [hforeign, if_false] at ht₃
  by_cases hb : takeable = true
  · simp only [hb, if_true] at ht₃
    have hbid : Trail (handler K) (Beside w) w ((dynamoDbLeaseStore.tryAcquireLeadership LEADER_LEASE_KEY w
        (some r.leaseCounter)).bind holdLeadership) s₄ l₃ (.ret b) s' := by
      have hown : (D.fleet w).config.owner = w := D.owner_eq w
      rwa [hown] at ht₃
    obtain ⟨hcoord, e, he, hbid⟩ := bid_spec hbid
    refine ⟨hcoord.trans hfour, ?_⟩
    constructor
    · intro hno
      have := hno.2 e (List.mem_cons_of_mem _ (List.mem_cons_of_mem _ he))
      rw [hbid] at this
      cases this
    · intro hno
      have := htake.mp hb
      rcases hno with hno | hno
      · rw [hno] at this
        cases this.1
      · omega
  · simp only [hb] at ht₃
    obtain ⟨rfl, rfl, h₄⟩ := ht₃.of_ret
    constructor
    · rw [Beside.of_many h₄]
      exact hfour
    · refine iff_of_true ⟨rfl, by simp [isBid]⟩ ?_
      rw [htake] at hb
      by_cases hcomp : r.completed = true
      · exact Or.inl hcomp
      · right
        simp only [Bool.not_eq_true] at hcomp
        simp only [hcomp, true_and] at hb
        omega

theorem Candidate.observe {l l' : Leadership} (hc : Candidate w l) (hk : r.leaseKey = LEADER_LEASE_KEY)
    (ho : r.owner = some o) (hne : o ≠ w) (h : l'.coord = l.coord.observe [r] t) : Candidate w l' := by
  rw [observe_sentinel hk ho (by rwa [hc.me])] at h
  constructor
  · rw [h]
    exact hc.me
  · rw [h]
    exact hc.maxTake

theorem since_observe {c : LeaseCoordinator} (hk : r.leaseKey = LEADER_LEASE_KEY) (ho : r.owner = some o)
    (hne : o ≠ c.me) (t' : Nat) : (c.observe [r] t).since o t' = c.since o t := by
  rw [observe_sentinel hk ho hne]
  unfold LeaseCoordinator.since
  cases c.seen o <;> simp

end

/-! ## How long a renewing leader is left alone -/

/-- The sentinel is not expired at any of the calls: no call comes more than a lease duration after `base`. -/
def WithinGrace (base dur : Nat) (calls : List (List Lease × Nat)) : Prop :=
  ∀ c ∈ calls, (∃ r, leaderRow c.1 = some r ∧ r.completed = true) ∨ c.2 - base ≤ dur

theorem steps_kept_iff {D : Deployment} {K : Contract} {w o : Worker} {s : World}
    {calls : List (List Lease × Nat)} {log : List ((r : Req) × Resp r)} {bs : List Bool} (hne : o ≠ w)
    (h : Steps D K w s calls log bs) :
    ∀ (base dur : Nat), Candidate w (s.mem w).leadership → (∀ c ∈ calls, ∃ r, leaderRow c.1 = some r ∧ r.owner = some o) →
      (s.mem w).leadership.coord.leaseDurationMs = dur →
      (∀ c ∈ calls.head?, (s.mem w).leadership.coord.since o c.2 = base) →
      (((∀ b ∈ bs, b = false) ∧ ∀ e ∈ log, isBid e.1 = false) ↔ WithinGrace base dur calls) := by
  induction h with
  | nil s => simp [WithinGrace]
  | @cons s s' rows t calls log logs b bs h hs ih =>
    intro base dur hc hrows hdur hbase
    obtain ⟨r, hr, ho⟩ := hrows (rows, t) List.mem_cons_self
    obtain ⟨hcoord, hiff⟩ := step_foreign hr ho hne hc h
    have hkey : r.leaseKey = LEADER_LEASE_KEY := by simpa using List.find?_some hr
    have hme : o ≠ (s.mem w).leadership.coord.me := by rwa [hc.me]
    have hfirst : (s.mem w).leadership.coord.since o t = base := hbase (rows, t) rfl
    have hdur' : (s'.mem w).leadership.coord.leaseDurationMs = dur := by
      rw [hcoord, observe_sentinel hkey ho hme]
      exact hdur
    have hbase' : ∀ c ∈ calls.head?, (s'.mem w).leadership.coord.since o c.2 = base := by
      intro c _
      rw [hcoord, since_observe hkey ho hme, hfirst]
    have hrest := ih base dur (hc.observe hkey ho hne hcoord) (fun c hc => hrows c (List.mem_cons_of_mem _ hc))
      hdur' hbase'
    rw [hfirst, hdur] at hiff
    have hhead : (b = false ∧ ∀ e ∈ log, isBid e.1 = false) ↔
        ((∃ r, leaderRow rows = some r ∧ r.completed = true) ∨ t - base ≤ dur) := by
      rw [hiff]
      simp [hr]
    unfold WithinGrace at hrest ⊢
    simp only [List.mem_cons, List.mem_append, forall_eq_or_imp]
    rw [← hhead, ← hrest]
    constructor
    · intro hall
      exact ⟨⟨hall.1.1, fun e he => hall.2 e (Or.inl he)⟩, hall.1.2, fun e he => hall.2 e (Or.inr he)⟩
    · intro hall
      refine ⟨⟨hall.1.1, hall.2.1⟩, ?_⟩
      intro e he
      rcases he with he | he
      · exact hall.1.2 e he
      · exact hall.2.2 e he

/-- A renewing leader is left alone exactly as long as no step comes more than a lease duration after the time
at which the follower first saw it. -/
theorem renewing_leader_kept_iff {D : Deployment} {K : Contract} {w o : Worker} {s : World} {rows : List Lease}
    {t : Nat} {calls : List (List Lease × Nat)} {log : List ((r : Req) × Resp r)} {bs : List Bool} (hne : o ≠ w)
    (hc : Candidate w (s.mem w).leadership)
    (hr : Renewing o (s.mem w).leadership.coord.leaseDurationMs ((rows, t) :: calls))
    (h : Steps D K w s ((rows, t) :: calls) log bs) :
    ((∀ b ∈ bs, b = false) ∧ ∀ e ∈ log, isBid e.1 = false) ↔
      WithinGrace ((s.mem w).leadership.coord.since o t) (s.mem w).leadership.coord.leaseDurationMs
        ((rows, t) :: calls) :=
  steps_kept_iff hne h _ _ hc hr.owned rfl (by simp)

def sentinel (o : Worker) (counter : Nat) : Lease := ⟨LEADER_LEASE_KEY, some o, counter, false, none, []⟩

theorem exec_total (K : Contract) (w : Worker) (r : Req) (s : World) : ∃ c a s', (handler K).exec w r c s = some (a, s') := by
  cases r with
  | db key op =>
    refine ⟨.fault ⟨none⟩, .error ⟨none⟩, s, ?_⟩
    show execDb w key op (.fault ⟨none⟩) s = some (.error ⟨none⟩, s)
    simp [execDb]
  | hashOrder => exact ⟨.order [], [], s, rfl⟩
  | _ => exact ⟨.fault ⟨none⟩, _, _, rfl⟩

theorem straight_retryThrottled {ε α : Type} {throttled : ε → Bool} {op : Fx (Except ε α)} (h : Straight op) :
    ∀ (n delay : Nat), Straight (retryThrottled throttled op n delay)
  | 0, _ => h
  | n + 1, delay => by
    refine straight_bind ?_ h
    intro r
    cases r with
    | ok a => trivial
    | error e =>
      by_cases he : throttled e = true
      · simp only [he, if_true]
        exact straight_bind (fun _ => straight_retryThrottled h n _) (straight_req _)
      · simp only [he]
        trivial

theorem straight_boxLease {α : Type} {p : Fx (Except LeaseError α)} (h : Straight p) : Straight (boxLease p) := by
  apply straight_bind
  · intro _
    trivial
  · exact h

theorem straight_leadershipStep (D : Deployment) (w : Worker) (rows : List Lease) (t : Nat) :
    Straight (leadershipStep (D.fleet w) rows t) := by
  have hhold : ∀ r, Straight (holdLeadership r) := by
    intro r
    unfold holdLeadership
    split
    · apply straight_bind
      · intro _
        trivial
      · exact straight_req _
    · trivial
  have hbid : ∀ op n, Straight ((boxLease (DynamoDbLeaseStore.bid LEADER_LEASE_KEY op n)).bind holdLeadership) := by
    intro op n
    apply straight_bind hhold
    refine straight_boxLease (straight_bind ?_ (straight_req _))
    intro a
    cases a with
    | ok _ => trivial
    | error e =>
      by_cases he : e.code = some CONDITIONAL_CHECK_FAILED
      · simp [he, Straight]
      · simp [he, Straight]
  have hrenew : ∀ o n, Straight (dynamoDbLeaseStore.renew LEADER_LEASE_KEY o n) := by
    intro o n
    refine straight_boxLease (straight_retryThrottled (straight_bind ?_ (straight_req _)) _ _)
    intro a
    cases a <;> trivial
  unfold leadershipStep
  apply straight_bind
  · intro order
    apply straight_bind
    · intro takeable
      split
      · exact hbid _ _
      · split
        · apply straight_bind
          · intro r
            cases r with
            | ok c =>
              apply straight_bind
              · intro _
                trivial
              · exact straight_req _
            | error e => trivial
          · exact hrenew _ _
        · split
          · exact hbid _ _
          · trivial
    · exact straight_req _
  · exact straight_req _

theorem exists_steps (D : Deployment) (K : Contract) (w : Worker) : ∀ (calls : List (List Lease × Nat)) (s : World),
    ∃ log bs, Steps D K w s calls log bs
  | [], s => ⟨[], [], .nil s⟩
  | (rows, t) :: calls, s => by
    obtain ⟨log, b, s', h⟩ := exists_trail (I := Beside w) (exec_total K w) (straight_leadershipStep D w rows t) s
    obtain ⟨logs, bs, hs⟩ := exists_steps D K w calls s'
    exact ⟨log ++ logs, b :: bs, .cons h hs⟩

def renewal (counter t : Nat) : List Lease × Nat := ([sentinel "leader-x" counter], t)

theorem leaderRow_renewal (counter t : Nat) : leaderRow (renewal counter t).1 = some (sentinel "leader-x" counter) := by
  simp [leaderRow, renewal, sentinel]

theorem renewing_of_renewals {dur : Nat} (cs : List (Nat × Nat)) (hc : cs.IsChain fun a b => a.1 ≠ b.1)
    (ht : cs.IsChain fun a b => a.2 ≤ b.2 ∧ b.2 - a.2 ≤ dur) :
    Renewing "leader-x" dur (cs.map fun c => renewal c.1 c.2) := by
  constructor
  · intro c hc
    obtain ⟨x, _, rfl⟩ := List.mem_map.mp hc
    exact ⟨_, leaderRow_renewal x.1 x.2, rfl⟩
  · rw [List.isChain_map]
    refine hc.imp fun a b h => ?_
    rw [leaderRow_renewal, leaderRow_renewal]
    simpa [sentinel] using h
  · rw [List.isChain_map]
    exact ht

theorem candidate_init (D : Deployment) (w : Worker) : Candidate w (D.init.mem w).leadership := by
  constructor
  · exact D.owner_eq w
  · rfl

theorem renewing_leader_kept_iff_two : ∃ log bs,
    Steps plainFleet exactContract "w2" plainFleet.init [renewal 5 0, renewal 6 30000] log bs ∧
      (∀ b ∈ bs, b = false) ∧ ∀ e ∈ log, isBid e.1 = false := by
  obtain ⟨log, bs, h⟩ := exists_steps plainFleet exactContract "w2" [renewal 5 0, renewal 6 30000] plainFleet.init
  have hr : Renewing "leader-x" 30000 [renewal 5 0, renewal 6 30000] :=
    renewing_of_renewals [(5, 0), (6, 30000)] (by simp) (by simp)
  refine ⟨log, bs, h, (renewing_leader_kept_iff (by decide) (candidate_init plainFleet "w2") hr h).mpr ?_⟩
  intro c hc
  simp only [List.mem_cons, List.not_mem_nil, or_false] at hc
  rcases hc with rfl | rfl
  · exact Or.inr (by decide)
  · exact Or.inr (by decide)

/-- Three renewals one lease duration apart: at the third the follower tries to depose the leader. -/
theorem renewing_leader_deposed : ¬ ∀ (w o : Worker) (s : World) (calls : List (List Lease × Nat))
    (log : List ((r : Req) × Resp r)) (bs : List Bool), o ≠ w → Candidate w (s.mem w).leadership →
    Renewing o (s.mem w).leadership.coord.leaseDurationMs calls → Steps plainFleet exactContract w s calls log bs →
    (∀ b ∈ bs, b = false) ∧ ∀ e ∈ log, isBid e.1 = false := by
  intro hall
  have hr : Renewing "leader-x" 30000 [renewal 5 0, renewal 6 30000, renewal 7 60000] :=
    renewing_of_renewals [(5, 0), (6, 30000), (7, 60000)] (by simp) (by simp)
  obtain ⟨log, bs, h⟩ := exists_steps plainFleet exactContract "w2" _ plainFleet.init
  have hkept := hall "w2" "leader-x" _ _ _ _ (by decide) (candidate_init plainFleet "w2") hr h
  have hgrace := (steps_kept_iff (by decide) h 0 30000 (candidate_init plainFleet "w2") hr.owned rfl
    (by intro c hc; cases hc; rfl)).mp hkept
  rcases hgrace (renewal 7 60000) (by simp) with ⟨r, hrow, hdone⟩ | hlate
  · rw [leaderRow_renewal] at hrow
    obtain rfl := Option.some.inj hrow
    cases hdone
  · exact absurd hlate (by decide)

end StreamsConsumer
