import StreamsConsumer.Lease.Items
import StreamsConsumer.Worker.Rules

/-!
# The lease table of a fleet as items

In every run of a fleet the rows of the world are what `item_to_lease` reads of
the items that its writes have left in DynamoDB, and the service answers every
further request on those items as `DbOp.apply` does on the rows.
-/

namespace StreamsConsumer
open Conc Dynamo

def Event.write : Event → Option (ShardId × DbOp)
  | .wrote _ key op _ => some (key, op)
  | _ => none

/-- The writes that went through, the first one first. -/
def World.writes (s : World) : List (ShardId × DbOp) := (s.trace.filterMap Event.write).reverse

def World.items (s : World) : ShardId → Option Item := s.writes.foldl serveItems fun _ => none

def TableServed (s : World) : Prop := s.table = s.writes.foldl serveRows fun _ => none

theorem TableServed.write {s : World} (h : TableServed s) {w : Worker} {key : ShardId} {op : DbOp} {row : Option Lease}
    (ha : op.apply key (s.table key) = some row) : TableServed (s.write w key op row) := by
  unfold TableServed at *
  have hw : (s.write w key op row).writes = s.writes ++ [(key, op)] := by
    simp [World.writes, World.write, Event.write]
  rw [hw, List.foldl_append, ← h]
  simp [serveRows, ha, World.write]

theorem TableServed.record {s : World} (h : TableServed s) {e : Event} (he : e.write = none) :
    TableServed (s.record e) := by
  unfold TableServed at *
  have hw : (s.record e).writes = s.writes := by simp [World.writes, World.record, he]
  rw [hw, ← h]
  rfl

theorem TableServed.exec {K : Contract} {w : Worker} {r : Req} {c : Choice} {s t : World} {a : Resp r}
    (h : TableServed s) (hx : exec K w r c s = some (a, t)) : TableServed t := by
  rcases exec_cases hx with rfl | ⟨_, f, -, rfl⟩ | ⟨key, op, row, -, ha, rfl⟩ | ⟨_, _, _, -, rfl⟩ | ⟨_, _, _, rfl⟩ |
    ⟨_, -, rfl⟩
  · exact h
  · exact h
  · exact h.write ha
  · exact h.record rfl
  · exact h.record rfl
  · exact h.record rfl

theorem TableServed.env {e : Env} {s t : World} (h : TableServed s) (he : envStep e s = some t) : TableServed t := by
  cases e <;> simp only [envStep, Option.ite_none_right_eq_some, Option.some.injEq] at he
  case trim shard =>
    obtain ⟨-, rfl⟩ := he
    exact TableServed.record (s := { s with stream := _ }) h rfl
  all_goals first
    | (subst he; exact h)
    | (obtain ⟨-, rfl⟩ := he; exact h)

theorem table_served {D : Deployment} {K : Contract} {p : FleetPool} (hp : D.Reachable K p) : TableServed p.world := by
  refine Pool.Reaches.invariant ?_ ?_ ?_ hp rfl
  · intro w r c s a s' hi h
    exact hi.exec h
  · intro e s s' hi h
    exact hi.env h
  · intro w s hi
    exact hi

/-- The rows of every reachable state are read of items that its writes produced, and the next write to
any row has the same outcome on the items as on the rows. -/
theorem table_read_of_items {D : Deployment} {K : Contract} {p : FleetPool} (hp : D.Reachable K p)
    (hn : p.world.writes.length + 1 < U64) (key : ShardId) :
    (p.world.items key).map itemToLease = p.world.table key ∧
      ∀ op : DbOp, (performDb key op (p.world.items key)).map (Option.map itemToLease) =
        outcome (op.apply key (p.world.table key)) := by
  have h := serve_run p.world.writes (by omega)
  rw [← table_served hp] at h
  exact ⟨h.reads key, fun op => h.decides hn key op⟩

def storedCycle : FleetPool :=
  plainFleet.perform exactContract World.serve "a" .cycle 60
    (plainFleet.envs exactContract [.appear ⟨"shard-0", []⟩, .append "shard-0" ⟨"shard-0", "1", []⟩] (Pool.idle plainFleet.init))

theorem table_read_of_items_cycle : storedCycle.world.writes.length = 5 ∧
    (storedCycle.world.items "shard-0").map itemToLease = storedCycle.world.table "shard-0" :=
  have hreach : plainFleet.Reachable exactContract storedCycle :=
    Deployment.reachable_perform (Deployment.reachable_envs (Deployment.reachable_idle _ _))
  ⟨by decide +kernel, (table_read_of_items hreach (by decide +kernel) "shard-0").1⟩

/-! ## Scans of a running fleet -/

/-- Every row is in the history under its key. -/
def Recorded (s : World) : Prop := ∀ key r, s.table key = some r → r.leaseKey = key ∧ r ∈ s.history

theorem Recorded.exec {K : Contract} {w : Worker} {r : Req} {c : Choice} {s t : World} {a : Resp r}
    (h : Recorded s) (hx : exec K w r c s = some (a, t)) : Recorded t ∧ ∀ x ∈ s.history, x ∈ t.history := by
  rcases exec_cases hx with rfl | ⟨_, f, -, rfl⟩ | ⟨key, op, row, -, ha, rfl⟩ | ⟨_, _, _, -, rfl⟩ | ⟨_, _, _, rfl⟩ |
    ⟨_, -, rfl⟩
  case inr.inr.inl =>
    refine ⟨fun k r hr => ?_, fun x hx => List.mem_append_right _ hx⟩
    by_cases hk : k = key
    · subst hk
      simp only [World.write, Function.update_self] at hr ⊢
      subst hr
      exact ⟨DbOp.apply_key ha fun r₀ h₀ => (h k r₀ h₀).1, by simp⟩
    · simp only [World.write, Function.update_of_ne hk] at hr ⊢
      exact ⟨(h k r hr).1, List.mem_append_right _ (h k r hr).2⟩
  all_goals exact ⟨h, fun x hx => hx⟩

theorem envStep_rows {e : Env} {s t : World} (he : envStep e s = some t) : t.table = s.table ∧ t.history = s.history := by
  cases e <;> simp only [envStep, Option.ite_none_right_eq_some, Option.some.injEq] at he
  all_goals first
    | (subst he; exact ⟨rfl, rfl⟩)
    | (obtain ⟨-, rfl⟩ := he; exact ⟨rfl, rfl⟩)

theorem recorded_of_reaches {D : Deployment} {K : Contract} {p q : FleetPool} (h : p.Reaches (D.machine K) q)
    (hp : Recorded p.world) : Recorded q.world ∧ ∀ x ∈ p.world.history, x ∈ q.world.history := by
  refine Pool.Reaches.invariant (I := fun s => Recorded s ∧ ∀ x ∈ p.world.history, x ∈ s.history)
    ?_ ?_ ?_ h ⟨hp, fun x hx => hx⟩
  · intro w r c s a s' hi hx
    exact ⟨(hi.1.exec hx).1, fun x hm => (hi.1.exec hx).2 x (hi.2 x hm)⟩
  · intro e s s' hi he
    obtain ⟨ht, hh⟩ := envStep_rows he
    rw [Recorded, ht, hh]
    exact hi
  · intro w s hi
    exact hi

theorem recorded_of_reachable {D : Deployment} {K : Contract} {p : FleetPool} (hp : D.Reachable K p) : Recorded p.world :=
  (recorded_of_reaches hp fun _ _ h => by cases h).1

/-- `list_all` reads its pages at different times of a run. Each row that it returns stood in the table at the time
of some page, the rows are one of the scans that the model allows, and there is one for every key that had a row
all along. -/
theorem paged_scan_allowed {D : Deployment} {K : Contract} {place : String → ℕ} {q : FleetPool}
    {ps : List (FleetPool × ScanPage)} (hps : ∀ x ∈ ps, D.Reachable K x.1 ∧ x.1.Reaches (D.machine K) q)
    (hn : ∀ x ∈ ps, x.1.world.writes.length + 1 < U64)
    (h : ScanPages LEASE_KEY place none (ps.map fun x => (x.1.world.items, x.2))) :
    ∃ rows, listAllPages (ps.map Prod.snd) = some rows ∧
      (∀ r ∈ rows, ∃ x ∈ ps, x.1.world.table r.leaseKey = some r) ∧
      execScan (.rows rows) q.world = some (.ok rows, q.world) ∧
      ∀ key, (∀ x ∈ ps, (x.1.world.table key).isSome) → ∃ r ∈ rows, r.leaseKey = key := by
  have hlist := listAllPages_scanned h
  rw [List.map_map] at hlist
  have hstood : ∀ r ∈ (scanned (ps.map fun x => (x.1.world.items, x.2))).map itemToLease,
      ∃ x ∈ ps, x.1.world.table r.leaseKey = some r := by
    intro r hr
    obtain ⟨item, hi, rfl⟩ := List.mem_map.mp hr
    obtain ⟨y, hy, key, -, ht, -⟩ := h.sound item hi
    obtain ⟨x, hx, rfl⟩ := List.mem_map.mp hy
    have hread := (table_read_of_items (hps x hx).1 (hn x hx) key).1
    simp only at ht
    rw [ht] at hread
    have hkey := (recorded_of_reachable (hps x hx).1 key _ hread.symm).1
    exact ⟨x, hx, hkey.symm ▸ hread.symm⟩
  have hrows : ∀ r ∈ (scanned (ps.map fun x => (x.1.world.items, x.2))).map itemToLease, r ∈ q.world.history := by
    intro r hr
    obtain ⟨x, hx, ht⟩ := hstood r hr
    have hrec := recorded_of_reachable (hps x hx).1
    exact (recorded_of_reaches (hps x hx).2 hrec).2 _ (hrec _ _ ht).2
  refine ⟨_, hlist, hstood, if_pos ⟨hrows, scanned_keys h⟩, fun key hall => ?_⟩
  have hsome : ∀ y ∈ ps.map (fun x => (x.1.world.items, x.2)), (y.1 key).isSome := by
    intro y hy
    obtain ⟨x, hx, rfl⟩ := List.mem_map.mp hy
    have := hall x hx
    rwa [← (table_read_of_items (hps x hx).1 (hn x hx) key).1, Option.isSome_map] at this
  obtain ⟨y, hy, item, hi, he⟩ := h.complete (fun _ hk => by cases hk) hsome
  refine ⟨itemToLease item, List.mem_map_of_mem hi, ?_⟩
  obtain ⟨x, hx, rfl⟩ := List.mem_map.mp hy
  exact itemToLease_key ((serve_run x.1.world.writes (by have := hn x hx; omega)).readable key item he).1.key_eq

/-- The first page is read before the cycle, the second one after it: the row of the shard is missed. -/
theorem paged_scan_allowed_cycle :
    ∃ rows, listAllPages [⟨[], some "shard-0"⟩,
        ⟨["__hb__:a", "__shard_sync_leader__"].filterMap storedCycle.world.items, none⟩] = some rows ∧
      execScan (.rows rows) storedCycle.world = some (.ok rows, storedCycle.world) := by
  have hidle : plainFleet.Reachable exactContract (Pool.idle plainFleet.init) := Deployment.reachable_idle _ _
  have hcycle : (Pool.idle plainFleet.init).Reaches (plainFleet.machine exactContract) storedCycle :=
    Deployment.reachable_perform (Deployment.reachable_envs hidle)
  have hw : storedCycle.world.writes.length + 1 < U64 := by decide +kernel
  have hread := serve_run storedCycle.world.writes (by omega)
  have hkeys : ∀ key, (storedCycle.world.items key).isSome → key ∈ storedCycle.world.writes.map Prod.fst := by
    intro key h
    by_contra hno
    rw [World.items, serve_frame hno] at h
    cases h
  have h₁ : IsScanPage LEASE_KEY String.length (Pool.idle plainFleet.init : FleetPool).world.items none ⟨[], some "shard-0"⟩ :=
    ⟨fun _ h => (by cases h), fun _ _ h => (by cases h), List.nodup_nil, fun _ _ _ h => (by cases h)⟩
  have h₂ : IsScanPage LEASE_KEY String.length storedCycle.world.items (some "shard-0")
      ⟨["__hb__:a", "__shard_sync_leader__"].filterMap storedCycle.world.items, none⟩ := by
    refine IsScanPage.last (by decide) (fun key item h => (hread.readable key item h).1.key_eq) ?_ ?_
    · intro key hk j hj
      cases hj
      revert key
      decide
    · intro key hk hb
      have hlt := hb "shard-0" rfl
      have hm := hkeys key hk
      have : ∀ k ∈ storedCycle.world.writes.map Prod.fst, String.length "shard-0" < String.length k →
          k ∈ ["__hb__:a", "__shard_sync_leader__"] := by decide +kernel
      exact this key hm hlt
  obtain ⟨rows, hr, -, hx, -⟩ := @paged_scan_allowed plainFleet exactContract String.length storedCycle
    [(Pool.idle plainFleet.init, _), (storedCycle, _)]
    (by
      intro x hx
      simp only [List.mem_cons, List.not_mem_nil, or_false] at hx
      rcases hx with rfl | rfl
      · exact ⟨hidle, hcycle⟩
      · exact ⟨hcycle, ⟨[], rfl⟩⟩)
    (by
      intro x hx
      simp only [List.mem_cons, List.not_mem_nil, or_false] at hx
      rcases hx with rfl | rfl
      · decide +kernel
      · exact hw)
    ⟨h₁, h₂, rfl⟩
  exact ⟨rows, hr, hx⟩

end StreamsConsumer
