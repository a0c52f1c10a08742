import StreamsConsumer.Conc.Trail
import StreamsConsumer.Core.FairShare
import StreamsConsumer.Worker.Order
import StreamsConsumer.Worker.PassUses
import StreamsConsumer.Worker.SyncTrail

/-!
# The lease cap

`max_leases` reaches the taker as the most that one tick may take. What a worker
holds grows tick by tick towards its fair share: `lease_cap_kept` says which
ticks keep it within the cap.
-/

namespace StreamsConsumer
open Conc

def Owns (s : World) (w : Worker) (k : ShardId) : Prop :=
  isShardKey k = true ∧ ∃ r, s.table k = some r ∧ r.owner = some w ∧ r.completed = false

def HoldsAtMost (s : World) (w : Worker) (m : Nat) : Prop :=
  ∀ ks : List ShardId, ks.Nodup → (∀ k ∈ ks, Owns s w k) → ks.length ≤ m

/-- Decide and claim: step 1 of a cycle after its scan. -/
def claimKeys (F : Fleet) (rows : List Lease) (nowMs : Nat) : Fx Unit := do
  let rows := rows.filter fun r => r.leaseKey ≠ LEADER_LEASE_KEY
  let order ← hashOrder
  let keys ← accessMem fun m =>
    let (keys, coordinator) := m.coordinator.tick order rows nowMs
    (keys, { m with coordinator := coordinator })
  Prog.each (takeLease F) keys

theorem claimShare_eq (F : Fleet) (nowMs : Nat) : claimShare F nowMs =
    attempt F.leases.list fun rows => (claimKeys F rows nowMs).bind fun _ => rereadAndProcess F := rfl

/-! ## What gives a worker a lease -/

def Takes (w : Worker) : Req → Prop
  | .db key (.put o) => isShardKey key = true ∧ o = w
  | .db key (.claim o _) => isShardKey key = true ∧ o = w
  | .db key (.heartbeat o) => isShardKey key = true ∧ o = w
  | _ => False

/-- Everything else that happens: steps of the stream, of other workers, and of `w` beside its claims. -/
inductive Spares (D : Deployment) (K : Contract) (w : Worker) : World → World → Prop where
  | exec {s t : World} {v : Worker} {r : Req} {c : Choice} {a : Resp r} (h : exec K v r c s = some (a, t))
      (hr : ¬ Takes w r) (hc : (t.mem w).coordinator = (s.mem w).coordinator) : Spares D K w s t
  | env {s t : World} {e : Env} (h : envStep e s = some t) : Spares D K w s t
  | reset (s : World) {v : Worker} (hv : v ≠ w) : Spares D K w s (s.setMem v (Memory.init (D.config v)))

section
variable {D : Deployment} {K : Contract} {w v : Worker} {s t : World} {k : ShardId} {m : Nat}

theorem owns_of_apply {key : ShardId} {op : DbOp} {row : Option Lease} {r : Lease}
    (ha : op.apply key row = some (some r)) (ho : r.owner = some w) (hc : r.completed = false) :
    (∃ r₀, row = some r₀ ∧ r₀.owner = some w ∧ r₀.completed = false) ∨
      op = .put w ∨ (∃ n, op = .claim w n) ∨ op = .heartbeat w := by
  cases row with
  | none =>
    cases op <;> simp [DbOp.apply] at ha
    all_goals
      subst ha
      simp_all
  | some r₀ =>
    cases op <;> simp [DbOp.apply] at ha
    all_goals first
      | (subst ha; simp_all)
      | (obtain ⟨_, rfl⟩ := ha; simp_all)

theorem owns_of_exec {r : Req} {c : Choice} {a : Resp r} (h : exec K v r c s = some (a, t)) (hk : Owns t w k) :
    Owns s w k ∨ Takes w r ∧ ∃ op, r = .db k op := by
  rcases exec_cases h with rfl | ⟨_, f, _, rfl⟩ | ⟨key, op, row, rfl, ha, rfl⟩ | ⟨_, _, _, _, rfl⟩ | ⟨_, _, _, rfl⟩ |
    ⟨_, _, rfl⟩
  case inr.inr.inl =>
    by_cases hkey : k = key
    · subst hkey
      obtain ⟨hshard, r, hr, ho, hc⟩ := hk
      have hrow : row = some r := by simpa [World.write] using hr
      subst hrow
      rcases owns_of_apply ha ho hc with ⟨r₀, hr₀, ho₀, hc₀⟩ | hop
      · exact Or.inl ⟨hshard, r₀, hr₀, ho₀, hc₀⟩
      · right
        refine ⟨?_, op, rfl⟩
        rcases hop with rfl | ⟨n, rfl⟩ | rfl
        · exact ⟨hshard, rfl⟩
        · exact ⟨hshard, rfl⟩
        · exact ⟨hshard, rfl⟩
    · left
      obtain ⟨hshard, r, hr, hrest⟩ := hk
      exact ⟨hshard, r, by simpa [World.write, hkey] using hr, hrest⟩
  all_goals exact Or.inl hk

theorem Spares.owns (h : Spares D K w s t) (hk : Owns t w k) : Owns s w k := by
  cases h with
  | exec h hr _ =>
    rcases owns_of_exec h hk with hk | ⟨htakes, _⟩
    · exact hk
    · exact absurd htakes hr
  | env h =>
    obtain ⟨hshard, r, hr, hrest⟩ := hk
    rw [(envStep_frame h).1] at hr
    exact ⟨hshard, r, hr, hrest⟩
  | reset _ => exact hk

theorem Spares.coordinator (h : Spares D K w s t) : (t.mem w).coordinator = (s.mem w).coordinator := by
  cases h with
  | exec _ _ hc => exact hc
  | env h => rw [(envStep_frame h).2.2.1]
  | reset hv => simp [World.setMem, Ne.symm hv]

end

/-! ## The claims of one tick -/

/-- What the coordinator of `w` makes of a scan. -/
def tickSnapshot (s : World) (w : Worker) (rows : List Lease) (nowMs : Nat) : List LeaseSnapshot :=
  let rows := rows.filter fun r => r.leaseKey ≠ LEADER_LEASE_KEY
  ((s.mem w).coordinator.observe rows nowMs).snapshot rows nowMs

/-- A tick that keeps its worker within the cap: the worker holds nothing yet, its fair share is within the cap, or
there is not enough to take. -/
def WithinCap (m : Nat) (me : Worker) (leases : List LeaseSnapshot) : Prop :=
  holding leases me = 0 ∨ fairShare leases me ≤ m ∨
    holding leases me + (freeLeases leases me).length + stealable leases me ≤ m

section
variable {D : Deployment} {K : Contract} {w : Worker} {s t : World} {rows : List Lease} {nowMs m : Nat}
  {log : List ((r : Req) × Resp r)}

theorem owns_of_spares (h : Relation.ReflTransGen (Spares D K w) s t) :
    (∀ k, Owns t w k → Owns s w k) ∧ (t.mem w).coordinator = (s.mem w).coordinator := by
  induction h with
  | refl => exact ⟨fun _ h => h, rfl⟩
  | tail _ h ih => exact ⟨fun k hk => ih.1 k (h.owns hk), h.coordinator.trans ih.2⟩

theorem uses_takeLease {P : Req → Prop} {F : Fleet} {key : ShardId} (hF : F.leases = dynamoDbLeaseStore)
    (hdb : ∀ op, P (.db key op)) (hget : P (.getItem key)) (hmetric : ∀ x, P (.metric x)) :
    Uses P (takeLease F key) := by
  have hacquire : Uses P (DynamoDbLeaseStore.acquire key F.config.owner) := by
    unfold DynamoDbLeaseStore.acquire
    refine uses_bind (uses_req (hdb _)) ?_
    intro a
    cases a with
    | ok n => trivial
    | error e =>
      by_cases he : e.code = some CONDITIONAL_CHECK_FAILED
      · simp only [he, ne_eq, not_true_eq_false, if_false]
        refine uses_bind (uses_req hget) ?_
        intro b
        match b with
        | .error e => trivial
        | .ok none => trivial
        | .ok (some current) => exact uses_conditionalWrite (hdb _)
      · simp only [he, ne_eq, not_false_eq_true, if_true]
        trivial
  unfold takeLease
  rw [hF]
  refine uses_bind (uses_bind (uses_bind hacquire fun _ => trivial) fun _ => trivial) ?_
  intro a
  cases a with
  | ok h => exact uses_req (hmetric _)
  | error e => trivial

theorem owns_of_takes {keys : List ShardId} {q : Fx Unit}
    (h : Trail (handler K) (Spares D K w) w (Prog.each (takeLease (D.fleet w)) keys) s log q t) :
    (∀ k, Owns t w k → Owns s w k ∨ k ∈ keys) ∧ (t.mem w).coordinator = (s.mem w).coordinator := by
  have huses : Uses (fun r => Outer r ∧ ∀ key op, r = .db key op → key ∈ keys)
      (Prog.each (takeLease (D.fleet w)) keys) := by
    refine uses_each fun key hkey => uses_takeLease rfl ?_ ?_ ?_
    · intro op
      refine ⟨trivial, ?_⟩
      rintro key' op' ⟨⟩
      exact hkey
    · exact ⟨trivial, by simp⟩
    · intro x
      exact ⟨trivial, by simp⟩
  refine h.moves.rel (L := fun s t => (∀ k, Owns t w k → Owns s w k ∨ k ∈ keys) ∧
    (t.mem w).coordinator = (s.mem w).coordinator) ?_ ?_ ?_ ?_
  · intro s
    exact ⟨fun k hk => Or.inl hk, rfl⟩
  · intro a b c hab hbc
    refine ⟨?_, hbc.2.trans hab.2⟩
    intro k hk
    rcases hbc.1 k hk with hk | hk
    · exact hab.1 k hk
    · exact Or.inr hk
  · intro s s' hs
    exact ⟨fun k hk => Or.inl (hs.owns hk), hs.coordinator⟩
  · intro e he c s s' hx
    obtain ⟨hout, hkeys⟩ := h.uses huses e he
    refine ⟨?_, by rw [exec_outer hout hx]⟩
    intro k hk
    rcases owns_of_exec hx hk with hk | ⟨_, op, hop⟩
    · exact Or.inl hk
    · exact Or.inr (hkeys k op hop)

theorem owns_of_claim {q : Fx Unit}
    (h : Trail (handler K) (Spares D K w) w (claimKeys (D.fleet w) rows nowMs) s log q t)
    (hme : (s.mem w).coordinator.me = w) (hmax : (s.mem w).coordinator.maxTake = m) :
    ((t.mem w).coordinator.me = w ∧ (t.mem w).coordinator.maxTake = m) ∧ ∃ keys : List ShardId,
      keys.length ≤ takeCount m (tickSnapshot s w rows nowMs) w ∧ ∀ k, Owns t w k → Owns s w k ∨ k ∈ keys := by
  unfold claimKeys at h
  rcases h.of_req_any with ⟨_, h₁⟩ | ⟨s₁, c₁, order, s₂, l₁, h₁, he₁, _, h⟩
  · obtain ⟨hown, hcoord⟩ := owns_of_spares h₁
    rw [hcoord]
    exact ⟨⟨hme, hmax⟩, [], Nat.zero_le _, fun k hk => Or.inl (hown k hk)⟩
  obtain rfl := harmless_hashOrder c₁ s₁ order s₂ he₁
  rcases h.of_req_any with ⟨_, h₂⟩ | ⟨s₃, c₃, keys, s₄, l₃, h₃, he₃, _, h⟩
  · obtain ⟨hown, hcoord⟩ := owns_of_spares (h₁.trans h₂)
    rw [hcoord]
    exact ⟨⟨hme, hmax⟩, [], Nat.zero_le _, fun k hk => Or.inl (hown k hk)⟩
  obtain ⟨hown, hcoord⟩ := owns_of_spares (h₁.trans h₃)
  cases he₃
  obtain ⟨htake, hkept⟩ := owns_of_takes h
  rw [hkept]
  refine ⟨?_, ((s₃.mem w).coordinator.tick order (rows.filter fun r => r.leaseKey ≠ LEADER_LEASE_KEY) nowMs).1, ?_, ?_⟩
  · simp [World.setMem, LeaseCoordinator.tick, LeaseCoordinator.observe, hcoord, hme, hmax]
  · have hlen := @length_tick order (s.mem w).coordinator (rows.filter fun r => r.leaseKey ≠ LEADER_LEASE_KEY) nowMs
    rw [hme, hmax] at hlen
    rw [hcoord]
    exact hlen.le
  · intro k hk
    rcases htake k hk with hk | hk
    · exact Or.inl (hown k hk)
    · exact Or.inr hk

/-- The scan shows the worker every lease that it holds; for the rest it may be out of date. -/
def ShowsOwn (s : World) (w : Worker) (rows : List Lease) : Prop :=
  ∀ k, Owns s w k → ∃ r ∈ rows, r.leaseKey = k ∧ r.owner = some w ∧ r.completed = false

theorem Scan.showsOwn (h : Scan s rows) : ShowsOwn s w rows := by
  rintro k ⟨-, r, hr, ho, hc⟩
  obtain ⟨hmem, hkey⟩ := (h k r).mp hr
  exact ⟨r, hmem, hkey, ho, hc⟩

theorem mem_of_owns (hscan : ShowsOwn s w rows) (hme : (s.mem w).coordinator.me = w) {k : ShardId} (hk : Owns s w k) :
    k ∈ ((activeLeases (tickSnapshot s w rows nowMs)).filter fun l => !l.expired && l.owner == some w).map
      LeaseSnapshot.leaseKey := by
  obtain ⟨hshard, -⟩ := id hk
  obtain ⟨r, hmem, rfl, ho, hc⟩ := hscan k hk
  have hkey : r.leaseKey ≠ LEADER_LEASE_KEY ∧ isHeartbeatKey r.leaseKey = false := by
    unfold isShardKey at hshard
    simpa using hshard
  have hexp : (((s.mem w).coordinator.observe (rows.filter fun r => r.leaseKey ≠ LEADER_LEASE_KEY) nowMs).isOwnerExpired
      r.owner nowMs) = false := by
    rw [ho]
    simp [LeaseCoordinator.isOwnerExpired, LeaseCoordinator.observe, hme]
  refine List.mem_map.mpr ⟨⟨r.leaseKey, r.owner, false, r.completed⟩, ?_, rfl⟩
  simp only [activeLeases, List.mem_filter, ho, hc]
  refine ⟨⟨?_, rfl⟩, by simp⟩
  unfold tickSnapshot LeaseCoordinator.snapshot
  simp only [List.mem_map, List.mem_filter]
  refine ⟨r, ⟨⟨hmem, by simp [hkey.1]⟩, by simp [hkey.2]⟩, ?_⟩
  rw [hexp, ho, hc]

theorem WithinCap.holds (hscan : ShowsOwn s w rows) (hme : (s.mem w).coordinator.me = w)
    (hcap : WithinCap m w (tickSnapshot s w rows nowMs)) (hs : HoldsAtMost s w m) {keys : List ShardId}
    (hlen : keys.length ≤ takeCount m (tickSnapshot s w rows nowMs) w)
    (hown : ∀ k, Owns t w k → Owns s w k ∨ k ∈ keys) : HoldsAtMost t w m := by
  intro ks hnodup hks
  by_cases hfull : fairShare (tickSnapshot s w rows nowMs) w ≤ holding (tickSnapshot s w rows nowMs) w
  · -- nothing is taken
    have hzero : keys = [] := by
      apply List.eq_nil_of_length_eq_zero
      unfold takeCount at hlen
      omega
    refine hs ks hnodup ?_
    intro k hk
    rcases hown k (hks k hk) with hk | hk
    · exact hk
    · simp [hzero] at hk
  · have hsub : ks ⊆ ((activeLeases (tickSnapshot s w rows nowMs)).filter
        fun l => !l.expired && l.owner == some w).map LeaseSnapshot.leaseKey ++ keys := by
      intro k hk
      rcases hown k (hks k hk) with hk | hk
      · exact List.mem_append_left _ (mem_of_owns hscan hme hk)
      · exact List.mem_append_right _ hk
    have hle := (List.subperm_of_subset hnodup hsub).length_le
    rw [List.length_append, List.length_map] at hle
    change ks.length ≤ holding (tickSnapshot s w rows nowMs) w + keys.length at hle
    unfold takeCount at hlen
    rcases hcap with h | h | h
    · omega
    · omega
    · omega

end

/-! ## Runs of any number of cycles -/

/-- A run of `w`: claims, each on a scan that shows it what it holds, and everything else in between. It keeps what the
ticks were told and the requests of the claims. -/
inductive ClaimRun (D : Deployment) (K : Contract) (w : Worker) (s₀ : World) :
    List (List LeaseSnapshot) → List ((r : Req) × Resp r) → World → Prop where
  | start : ClaimRun D K w s₀ [] [] s₀
  | spares {ticks : List (List LeaseSnapshot)} {log : List ((r : Req) × Resp r)} {s t : World}
      (h : ClaimRun D K w s₀ ticks log s) (hs : Spares D K w s t) : ClaimRun D K w s₀ ticks log t
  | claim {ticks : List (List LeaseSnapshot)} {log log' : List ((r : Req) × Resp r)} {s t : World} {rows : List Lease}
      {nowMs : Nat} {q : Fx Unit} (h : ClaimRun D K w s₀ ticks log s) (hscan : ShowsOwn s w rows)
      (ht : Trail (handler K) (Spares D K w) w (claimKeys (D.fleet w) rows nowMs) s log' q t) :
      ClaimRun D K w s₀ (ticks ++ [tickSnapshot s w rows nowMs]) (log ++ log') t

/-- The cap bounds what a worker holds in every run whose ticks are all within the cap. -/
theorem lease_cap_kept {D : Deployment} {K : Contract} {w : Worker} {s₀ s : World}
    {ticks : List (List LeaseSnapshot)} {log : List ((r : Req) × Resp r)}
    (h₀ : (s₀.mem w).coordinator = (Memory.init (D.config w)).coordinator) (hnone : ∀ k, ¬ Owns s₀ w k)
    (hrun : ClaimRun D K w s₀ ticks log s) (hcap : ∀ leases ∈ ticks, WithinCap (D.config w).maxLeases w leases) :
    HoldsAtMost s w (D.config w).maxLeases := by
  have hinv : ((s.mem w).coordinator.me = w ∧ (s.mem w).coordinator.maxTake = (D.config w).maxLeases) ∧
      HoldsAtMost s w (D.config w).maxLeases := by
    induction hrun with
    | start =>
      rw [h₀]
      refine ⟨⟨D.owner_eq w, rfl⟩, ?_⟩
      intro ks _ hks
      cases ks with
      | nil => simp
      | cons k ks => exact absurd (hks k List.mem_cons_self) (hnone k)
    | spares _ hs ih =>
      obtain ⟨hcoord, hholds⟩ := ih hcap
      rw [hs.coordinator]
      exact ⟨hcoord, fun ks hn hks => hholds ks hn fun k hk => hs.owns (hks k hk)⟩
    | claim _ hscan ht ih =>
      obtain ⟨hcoord, hholds⟩ := ih fun l hl => hcap l (List.mem_append_left _ hl)
      obtain ⟨hcoord', keys, hlen, hown⟩ := owns_of_claim ht hcoord.1 hcoord.2
      exact ⟨hcoord', (hcap _ (by simp)).holds hscan hcoord.1 hholds hlen hown⟩
  exact hinv.2

/-! ## A worker above its cap -/

def cappedFleet : Deployment :=
  ⟨contractSource, fun w => { plainConfig .trimHorizon w with maxLeases := 1 }, fun _ => rfl⟩

def twoShards : World :=
  { cappedFleet.init with
    table := Function.update (Function.update (fun _ => none) "a" (some ⟨"a", none, 0, false, none, []⟩)) "b"
      (some ⟨"b", none, 0, false, none, []⟩) }

def claimedWorld (rows : List Lease) (s : World) : World :=
  ((script (handler exactContract) "w" (claimKeys (cappedFleet.fleet "w") rows 0)
    [.order [], .ok, .ok, .ok, .ok, .ok] s).map fun x => x.2.2).getD s

theorem scan_two {s : World} {ra rb : Lease} (ha : s.table "a" = some ra) (hb : s.table "b" = some rb)
    (hka : ra.leaseKey = "a") (hkb : rb.leaseKey = "b") (hnone : ∀ k, k ≠ "a" → k ≠ "b" → s.table k = none) :
    Scan s [ra, rb] := by
  intro k r
  by_cases hk : k = "a"
  · subst hk
    rw [ha]
    constructor
    · rintro ⟨⟩
      exact ⟨List.mem_cons_self, hka⟩
    · rintro ⟨hr, hkey⟩
      rcases List.mem_cons.mp hr with rfl | hr
      · rfl
      · rw [List.mem_singleton.mp hr, hkb] at hkey
        simp at hkey
  by_cases hk' : k = "b"
  · subst hk'
    rw [hb]
    constructor
    · rintro ⟨⟩
      exact ⟨by simp, hkb⟩
    · rintro ⟨hr, hkey⟩
      rcases List.mem_cons.mp hr with rfl | hr
      · rw [hka] at hkey
        simp at hkey
      · rw [List.mem_singleton.mp hr]
  · rw [hnone k hk hk']
    constructor
    · intro h
      cases h
    · rintro ⟨hr, rfl⟩
      rcases List.mem_cons.mp hr with rfl | hr
      · exact absurd hka hk
      · rw [List.mem_singleton.mp hr] at hk'
        exact absurd hkb hk'

theorem twoShards_scan : Scan twoShards [⟨"a", none, 0, false, none, []⟩, ⟨"b", none, 0, false, none, []⟩] := by
  refine scan_two rfl rfl rfl rfl ?_
  intro k ha hb
  simp [twoShards, ha, hb]

theorem twoShards_unowned (k : ShardId) : ¬ Owns twoShards "w" k := by
  rintro ⟨_, r, hr, ho, _⟩
  rcases ((twoShards_scan k r).mp hr).1 with _ | ⟨_, _ | ⟨_, ⟨⟩⟩⟩
  · cases ho
  · cases ho

def claimedOnce : World := claimedWorld [⟨"a", none, 0, false, none, []⟩, ⟨"b", none, 0, false, none, []⟩] twoShards

def claimedTwice : World :=
  claimedWorld [⟨"a", some "w", 1, false, none, []⟩, ⟨"b", none, 0, false, none, []⟩] claimedOnce

def shared : World := claimedOnce.write "v" "b" (.claim "v" 0) (some ⟨"b", some "v", 1, false, none, []⟩)

def sharedRows : List Lease := [⟨"a", some "w", 1, false, none, []⟩, ⟨"b", some "v", 1, false, none, []⟩]

theorem shared_scan : Scan shared sharedRows := by
  refine scan_two rfl rfl rfl rfl ?_
  intro k ha hb
  have htable : shared.table = Function.update (Function.update twoShards.table "a" (some ⟨"a", some "w", 1, false, none, []⟩))
      "b" (some ⟨"b", some "v", 1, false, none, []⟩) := rfl
  simp [htable, twoShards, ha, hb]

/-- The worker takes one shard, another worker the other one, and the next tick leaves it at that. -/
theorem lease_cap_kept_twice : ∃ s, HoldsAtMost s "w" 1 ∧ Owns s "w" "a" := by
  have hshared : Spares cappedFleet exactContract "w" claimedOnce shared := by
    refine @Spares.exec _ _ _ claimedOnce shared "v" (.db "b" (.claim "v" 0)) .ok (.ok 1) rfl ?_ rfl
    exact fun h => absurd h.2 (by decide)
  have ht : Trail (handler exactContract) (Spares cappedFleet exactContract "w") "w" (claimKeys (cappedFleet.fleet "w")
      [⟨"a", none, 0, false, none, []⟩, ⟨"b", none, 0, false, none, []⟩] 0) twoShards _ (.ret ()) claimedOnce :=
    .of_script (l := [.order [], .ok, .ok, .ok, .ok, .ok]) rfl
  have ht' : Trail (handler exactContract) (Spares cappedFleet exactContract "w") "w"
      (claimKeys (cappedFleet.fleet "w") sharedRows 0) shared _ (.ret ()) _ :=
    .of_script (l := [.order [], .ok]) rfl
  have hrun := ClaimRun.claim (.spares (.claim .start twoShards_scan.showsOwn ht) hshared) shared_scan.showsOwn ht'
  refine ⟨_, lease_cap_kept (D := cappedFleet) rfl twoShards_unowned hrun ?_, by decide, _, rfl, rfl, rfl⟩
  intro leases hl
  rcases List.mem_append.mp hl with hl | hl
  · rw [List.nil_append, List.mem_singleton] at hl
    subst hl
    left
    decide
  · rw [List.mem_singleton] at hl
    subst hl
    right
    left
    decide

/-- A request of an `acquire` that does not make it fail. -/
def Granted : (e : (r : Req) × Resp r) → Prop
  | ⟨.db _ (.put _), .error e⟩ => e.code = some CONDITIONAL_CHECK_FAILED
  | ⟨.db _ _, .error _⟩ => False
  | ⟨.getItem _, .error _⟩ => False
  | _ => True

/-- The next tick takes one more: the worker holds two leases under a cap of one. -/
theorem lease_cap_exceeded :
    ¬ ∀ (D : Deployment) (K : Contract) (w : Worker) (s₀ s : World) (ticks : List (List LeaseSnapshot))
      (log : List ((r : Req) × Resp r)), (s₀.mem w).coordinator = (Memory.init (D.config w)).coordinator →
      (∀ k, ¬ Owns s₀ w k) → ClaimRun D K w s₀ ticks log s → (∀ e ∈ log, Granted e) →
      HoldsAtMost s w (D.config w).maxLeases := by
  intro hall
  have ht : Trail (handler exactContract) (Spares cappedFleet exactContract "w") "w" (claimKeys (cappedFleet.fleet "w")
      [⟨"a", none, 0, false, none, []⟩, ⟨"b", none, 0, false, none, []⟩] 0) twoShards _ (.ret ()) claimedOnce :=
    .of_script (l := [.order [], .ok, .ok, .ok, .ok, .ok]) rfl
  have ht' : Trail (handler exactContract) (Spares cappedFleet exactContract "w") "w" (claimKeys (cappedFleet.fleet "w")
      [⟨"a", some "w", 1, false, none, []⟩, ⟨"b", none, 0, false, none, []⟩] 0) claimedOnce _ (.ret ()) claimedTwice :=
    .of_script (l := [.order [], .ok, .ok, .ok, .ok, .ok]) rfl
  have hscan : Scan claimedOnce [⟨"a", some "w", 1, false, none, []⟩, ⟨"b", none, 0, false, none, []⟩] := by
    refine scan_two rfl rfl rfl rfl ?_
    intro k ha hb
    have htable : claimedOnce.table = Function.update twoShards.table "a" (some ⟨"a", some "w", 1, false, none, []⟩) := rfl
    simp [htable, twoShards, ha, hb]
  have hholds := hall cappedFleet exactContract "w" twoShards claimedTwice _ _ rfl twoShards_unowned
    (.claim (.claim .start twoShards_scan.showsOwn ht) hscan.showsOwn ht') (by simp [Granted, AwsError.conditionFailed]) ["a", "b"] (by decide)
  have htwo : ∀ k ∈ ["a", "b"], Owns claimedTwice "w" k := by
    intro k hk
    rcases List.mem_cons.mp hk with rfl | hk
    · exact ⟨by decide, _, rfl, rfl, rfl⟩
    · rw [List.mem_singleton.mp hk]
      exact ⟨by decide, _, rfl, rfl, rfl⟩
  exact absurd (hholds htwo) (by decide)

end StreamsConsumer
