import StreamsConsumer.Worker.Discovery

/-!
# The verdict that all shards are complete

`run_cycle` returns `true` when every row of its last scan is completed. The
scan knows only the shards that some leader has published, so the verdict is
right about exactly those: `all_complete_of_published` needs that no shard of
the stream is missing from the scan, unless its row was deleted.
-/

namespace StreamsConsumer
open Conc

/-- The last scan that was answered. -/
def lastScan : List ((r : Req) × Resp r) → Option (List Lease)
  | [] => none
  | ⟨.scan, .ok rows⟩ :: log => (lastScan log).or (some rows)
  | _ :: log => lastScan log

section
variable {K : Contract} {I : World → World → Prop} {w : Worker} {s t : World} {log : List ((r : Req) × Resp r)}

theorem Trail.of_attempt {ε α β : Type} {p : Fx (Except ε α)} {k : α → Fx (Except ε β)} {b : β}
    (h : Trail (handler K) I w (attempt p k) s log (.ret (.ok b)) t) : ∃ a u l₁ l₂, log = l₁ ++ l₂ ∧
      Trail (handler K) I w p s l₁ (.ret (.ok a)) u ∧ Trail (handler K) I w (k a) u l₂ (.ret (.ok b)) t := by
  obtain ⟨r, u, l₁, l₂, rfl, h₁, h₂⟩ := h.of_bind
  cases r with
  | error e =>
    obtain ⟨_, e, _⟩ := h₂.of_ret
    cases e
  | ok a => exact ⟨a, u, l₁, l₂, rfl, h₁, h₂⟩

theorem trail_list {rows : List Lease}
    (h : Trail (handler K) I w dynamoDbLeaseStore.list s log (.ret (.ok rows)) t) :
    ∃ s₁, Relation.ReflTransGen I s s₁ ∧ (∀ r ∈ rows, r ∈ s₁.history) ∧ (rows.map Lease.leaseKey).Nodup ∧
      log = [⟨.scan, .ok rows⟩] ∧ Relation.ReflTransGen I s₁ t := by
  obtain ⟨s₁, c, a, s₂, l, h₁, he, rfl, hk⟩ := h.of_call
  obtain ⟨rfl, hrows⟩ := execScan_eq he
  obtain ⟨rfl, e, h₂⟩ := hk.of_ret
  obtain rfl : a = .ok rows := mapError_eq_ok e.symm
  exact ⟨s₂, h₁, (hrows rows rfl).1, (hrows rows rfl).2, rfl, h₂⟩

theorem lastScan_append {l₁ l₂ : List ((r : Req) × Resp r)} :
    lastScan (l₁ ++ l₂) = (lastScan l₂).or (lastScan l₁) := by
  induction l₁ with
  | nil => simp [lastScan]
  | cons e l ih =>
    obtain ⟨r, a⟩ := e
    cases r with
    | scan =>
      cases a with
      | ok rows => simp [lastScan, ih]
      | error e => simpa [lastScan] using ih
    | _ => simpa [lastScan] using ih

theorem mem_completedKeys_of_allComplete {rows : List Lease} {r : Lease} (h : allComplete rows = true) (hr : r ∈ rows)
    (hk : isShardKey r.leaseKey = true) : r.leaseKey ∈ completedKeys rows := by
  unfold allComplete at h
  simp only [Bool.and_eq_true, List.all_eq_true, List.contains_eq_mem, decide_eq_true_eq] at h
  refine h.2 ⟨r.leaseKey, r.parents⟩ ?_
  unfold shardMetasFromLeases
  exact List.mem_map.mpr ⟨r, List.mem_filter.mpr ⟨hr, hk⟩, rfl⟩

/-! ## Where the verdict comes from -/

theorem trail_verdict {F : Fleet} {rows : List Lease}
    (h : Trail (handler K) I w ((if allComplete rows then .ret (.ok true) else
      (processOwned F rows).bind fun _ => .ret (.ok false)) : Fx (Except WorkerError Bool)) s log (.ret (.ok true)) t) :
    allComplete rows = true ∧ log = [] := by
  by_cases hall : allComplete rows = true
  · rw [if_pos hall] at h
    exact ⟨hall, h.of_ret.1⟩
  · rw [if_neg hall] at h
    obtain ⟨_, _, _, _, _, _, hret⟩ := h.of_bind
    obtain ⟨_, e, _⟩ := hret.of_ret
    cases e

theorem trail_reread {D : Deployment}
    (h : Trail (handler K) I w (rereadAndProcess (D.fleet w)) s log (.ret (.ok true)) t) :
    ∃ s₁ rows l, Relation.ReflTransGen I s s₁ ∧ (∀ r ∈ rows, r ∈ s₁.history) ∧ lastScan log = some rows ∧
      Moves (handler K) I w s₁ l t ∧ allComplete (rows.filter fun r => isShardKey r.leaseKey) = true := by
  obtain ⟨rows, u, l₁, l₂, rfl, hlist, hk₁⟩ := Trail.of_attempt h
  obtain ⟨s₁, h₁, hrows, _, rfl, h₂⟩ := trail_list hlist
  have hmoves : Moves (handler K) I w s₁ l₂ t := (Moves.others h₂).trans hk₁.moves
  obtain ⟨s₂, c₂, _, s₃, l₃, _, _, rfl, hk₂⟩ := hk₁.of_req
  obtain ⟨s₄, c₄, _, s₅, l₅, _, _, rfl, hk₄⟩ := hk₂.of_req
  obtain ⟨s₆, c₆, poolMax, s₇, l₇, _, _, rfl, hk₆⟩ := hk₄.of_req
  have hend : allComplete (rows.filter fun r => isShardKey r.leaseKey) = true ∧ lastScan l₇ = none := by
    cases poolMax with
    | none =>
      obtain ⟨hall, rfl⟩ := trail_verdict hk₆
      exact ⟨hall, rfl⟩
    | some n =>
      obtain ⟨s₈, c₈, _, s₉, l₉, _, _, rfl, hk₈⟩ := hk₆.of_req
      obtain ⟨hall, rfl⟩ := trail_verdict hk₈
      exact ⟨hall, rfl⟩
  refine ⟨s₁, rows, _, h₁, hrows, ?_, hmoves, hend.1⟩
  simp [lastScan, hend.2]

theorem reread_of_claimShare {D : Deployment} {nowMs : Nat} {b : Bool}
    (h : Trail (handler K) I w (claimShare (D.fleet w) nowMs) s log (.ret (.ok b)) t) :
    ∃ u l₁ l₂, log = l₁ ++ l₂ ∧ Moves (handler K) I w s l₁ u ∧
      Trail (handler K) I w (rereadAndProcess (D.fleet w)) u l₂ (.ret (.ok b)) t := by
  obtain ⟨rows, u₁, l₁, l₂, rfl, hlist, hk₁⟩ := Trail.of_attempt h
  obtain ⟨order, u₂, l₃, l₄, rfl, horder, hk₂⟩ := hk₁.of_bind
  obtain ⟨keys, u₃, l₅, l₆, rfl, htick, hk₃⟩ := hk₂.of_bind
  obtain ⟨_, u₄, l₇, l₈, rfl, htake, hk₄⟩ := hk₃.of_bind
  refine ⟨u₄, l₁ ++ (l₃ ++ (l₅ ++ l₇)), l₈, by simp, ?_, hk₄⟩
  exact hlist.moves.trans (horder.moves.trans (htick.moves.trans htake.moves))

theorem reread_of_heartbeat {D : Deployment} {nowMs : Nat} {b : Bool}
    (h : Trail (handler K) I w (heartbeatAndClaim (D.fleet w) nowMs) s log (.ret (.ok b)) t) :
    ∃ u l₁ l₂, log = l₁ ++ l₂ ∧ Moves (handler K) I w s l₁ u ∧
      Trail (handler K) I w (rereadAndProcess (D.fleet w)) u l₂ (.ret (.ok b)) t := by
  obtain ⟨_, u₁, l₁, l₂, rfl, hbeat, hk⟩ := h.of_bind
  obtain ⟨u, l₃, l₄, rfl, hm, hr⟩ := reread_of_claimShare hk
  exact ⟨u, l₁ ++ l₃, l₄, by simp, hbeat.moves.trans hm, hr⟩

theorem reread_of_cycle {D : Deployment} {nowMs : Nat} {b : Bool}
    (h : Trail (handler K) I w (runCycle (D.fleet w) nowMs) s log (.ret (.ok b)) t) :
    ∃ u l₁ l₂, log = l₁ ++ l₂ ∧ Moves (handler K) I w s l₁ u ∧
      Trail (handler K) I w (rereadAndProcess (D.fleet w)) u l₂ (.ret (.ok b)) t := by
  obtain ⟨rows, u₁, l₁, l₂, rfl, hlist, hk₁⟩ := Trail.of_attempt h
  obtain ⟨leads, u₂, l₃, l₄, rfl, hstep, hk₂⟩ := hk₁.of_bind
  by_cases hl : leads = true
  · simp only [hl, if_true] at hk₂
    obtain ⟨_, u₃, l₅, l₆, rfl, hsync, hk₃⟩ := Trail.of_attempt hk₂
    obtain ⟨_, u₄, l₇, l₈, rfl, hclean, hk₄⟩ := hk₃.of_bind
    obtain ⟨u, l₉, l₁₀, rfl, hm, hr⟩ := reread_of_heartbeat hk₄
    refine ⟨u, l₁ ++ (l₃ ++ (l₅ ++ (l₇ ++ l₉))), l₁₀, by simp, ?_, hr⟩
    exact hlist.moves.trans (hstep.moves.trans (hsync.moves.trans (hclean.moves.trans hm)))
  · simp only [hl] at hk₂
    obtain ⟨u, l₅, l₆, rfl, hm, hr⟩ := reread_of_heartbeat hk₂
    refine ⟨u, l₁ ++ (l₃ ++ l₅), l₆, by simp, ?_, hr⟩
    exact hlist.moves.trans (hstep.moves.trans hm)

end

section
variable {D : Deployment} {K : Contract} {w : Worker} {nowMs : Nat} {t : World} {log : List ((r : Req) × Resp r)}

/-- The verdict of a cycle is right when every shard of the stream has a row in the scan it was computed from, or had
a row that was deleted. -/
theorem all_complete_of_published {p : FleetPool} (hp : D.Reachable K p)
    (h : Trail (handler K) (Around D K w) w (runCycle (D.fleet w) nowMs) p.world log (.ret (.ok true)) t)
    (hpub : ∀ k ∈ t.stream.listed, (∃ rows, lastScan log = some rows ∧ k ∈ rows.map Lease.leaseKey) ∨
      ∃ v row, Event.wrote v k .deleteLease row ∈ t.trace) :
    ∀ k ∈ t.stream.listed, MarkedIn t.trace k := by
  obtain ⟨u, l₁, l₂, rfl, hm, hr⟩ := reread_of_cycle h
  obtain ⟨s₁, rows, l, h₁, hrows, hscan, hm', hall⟩ := trail_reread hr
  have hend : Ahead s₁ t := ahead_of_moves hm'
  have hi₁ : Accounted s₁ :=
    ((ahead_of_moves hm).trans (ahead_of_moves (Moves.others h₁))).accounted (accounted_of_reachable hp)
  have hi : Accounted t := hend.accounted hi₁
  intro k hk
  rcases hpub k hk with ⟨rows', hlast, hrow⟩ | ⟨v, row, hdel⟩
  · rw [lastScan_append, hscan, Option.some_or, Option.some.injEq] at hlast
    subst hlast
    obtain ⟨r, hr, rfl⟩ := List.mem_map.mp hrow
    have hshard : isShardKey r.leaseKey = true := by
      obtain ⟨m, hm, hid⟩ := List.mem_map.mp (hi.sane.listed _ hk)
      rw [← hid]
      exact hi.sane.shardKey m hm
    have hdone : r.leaseKey ∈ completedKeys (rows.filter fun r => isShardKey r.leaseKey) :=
      mem_completedKeys_of_allComplete hall (List.mem_filter.mpr ⟨hr, hshard⟩) hshard
    obtain ⟨r', hr', hc, hkey⟩ := mem_completedKeys.mp hdone
    have hmark := hi₁.completed r' (hrows r' (List.mem_filter.mp hr').1) hc
    rw [hkey] at hmark
    exact hmark.mono hend.extend.trace
  · exact hi.deleted v k row hdel

end

/-! ## A verdict that is wrong -/

def rootCompleted : FleetPool :=
  plainFleet.perform exactContract World.serve "a" .cycle 60
    (plainFleet.envs exactContract [.appear ⟨"root", []⟩, .append "root" ⟨"root", "1", []⟩, .close "root"]
      (Pool.idle plainFleet.init))

theorem rootCompleted_reachable : plainFleet.Reachable exactContract rootCompleted :=
  Deployment.reachable_perform (Deployment.reachable_envs (Deployment.reachable_idle _ _))

def childAppeared : FleetPool := plainFleet.envs exactContract [.appear ⟨"child", ["root"]⟩] rootCompleted

def followerCycle (s : World) : Option (List ((r : Req) × Resp r) × Except WorkerError Bool × World) :=
  script (handler exactContract) "b" (runCycle (plainFleet.fleet "b") 0) [.rows s.rows, .order [], .ok, .ok,
    .rows s.rows, .order [], .ok, .rows s.rows, .ok, .ok, .ok] s

theorem trail_followerCycle {s t : World} {log : List ((r : Req) × Resp r)} {r : Except WorkerError Bool}
    (h : followerCycle s = some (log, r, t)) (hr : r.toOption = some true) :
    Trail (handler exactContract) (Around plainFleet exactContract "b") "b" (runCycle (plainFleet.fleet "b") 0) s log
      (.ret (.ok true)) t := by
  obtain rfl : r = .ok true := by
    cases r with
    | error e => cases hr
    | ok b =>
      cases hr
      rfl
  exact .of_script h

theorem all_complete_of_published_root : ∃ t, "root" ∈ t.stream.listed ∧
    (∃ log, Trail (handler exactContract) (Around plainFleet exactContract "b") "b" (runCycle (plainFleet.fleet "b") 0)
      rootCompleted.world log (.ret (.ok true)) t) ∧ ∀ k ∈ t.stream.listed, MarkedIn t.trace k := by
  have hrun : (followerCycle rootCompleted.world).map (fun x => (x.2.1.toOption, x.2.2.stream.listed,
      (lastScan x.1).map (List.map Lease.leaseKey))) =
      some (some true, ["root"], some ["__hb__:a", "root", "__shard_sync_leader__"]) := by decide +kernel
  obtain ⟨⟨log, r, t⟩, hs, he⟩ := Option.map_eq_some_iff.mp hrun
  simp only [Prod.mk.injEq, Option.map_eq_some_iff] at he
  obtain ⟨hr, hl, rows, hscan, hkeys⟩ := he
  have h := trail_followerCycle hs hr
  refine ⟨t, by simp [hl], ⟨log, h⟩, all_complete_of_published rootCompleted_reachable h ?_⟩
  intro k hk
  refine Or.inl ⟨rows, hscan, ?_⟩
  rw [hl] at hk
  rw [hkeys, List.mem_singleton.mp hk]
  decide

/-- The child of the completed root is not published yet when `b` scans the rows and stops. -/
theorem all_complete_with_unpublished_child :
    ¬ ∀ (D : Deployment) (K : Contract) (w : Worker) (p : FleetPool) (nowMs : Nat) (log : List ((r : Req) × Resp r))
      (t : World), D.Reachable K p →
      Trail (handler K) (Around D K w) w (runCycle (D.fleet w) nowMs) p.world log (.ret (.ok true)) t →
      ∀ k ∈ t.stream.listed, MarkedIn t.trace k := by
  intro hall
  have hrun : (followerCycle childAppeared.world).map (fun x => (x.2.1.toOption, x.2.2.stream.listed,
      x.2.2.trace.any (Event.marks "child"))) = some (some true, ["child", "root"], false) := by decide +kernel
  obtain ⟨⟨log, r, t⟩, hs, he⟩ := Option.map_eq_some_iff.mp hrun
  simp only [Prod.mk.injEq] at he
  obtain ⟨hr, hl, hmark⟩ := he
  have hreach : plainFleet.Reachable exactContract childAppeared := Deployment.reachable_envs rootCompleted_reachable
  obtain ⟨v, o, c, row, hm⟩ := hall _ _ _ _ _ _ _ hreach (trail_followerCycle hs hr) "child" (by simp [hl])
  rw [List.any_eq_false] at hmark
  exact hmark _ hm (by simp [Event.marks])

end StreamsConsumer
