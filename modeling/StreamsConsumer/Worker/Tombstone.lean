import StreamsConsumer.Worker.Lineage

/-!
# Tombstones

A completed row is the only memory that its shard is done. As long as it stays
no path creates the row anew; the cleanup deletes it once the children are being
processed, whether or not DescribeStream still lists the shard.
-/

namespace StreamsConsumer
open Conc

/-- The row of the shard is deleted only after the shard has left DescribeStream. -/
def DeletedOnceGone (k : ShardId) : List Event → Prop
  | [] => True
  | e :: tr => (e.deletes k = true → Event.trimmed k ∈ tr) ∧ DeletedOnceGone k tr

def Remembered (s : World) (k : ShardId) : Prop :=
  MarkedIn s.trace k → Event.trimmed k ∈ s.trace ∨ ∃ r, s.table k = some r ∧ r.completed = true

theorem DbOp.apply_markComplete {key : ShardId} {o : Worker} {c : Nat} {row row' : Option Lease}
    (h : DbOp.apply key (.markComplete o c) row = some row') : ∃ r, row' = some r ∧ r.completed = true := by
  cases row with
  | none => cases h
  | some r =>
    simp only [DbOp.apply, Option.ite_none_right_eq_some, Option.some.injEq] at h
    obtain ⟨_, rfl⟩ := h
    exact ⟨_, rfl, rfl⟩

theorem Remembered.write {s : World} {k key : ShardId} {w : Worker} {op : DbOp} {row : Option Lease}
    (h : Remembered s k) (hd : DeletedOnceGone k (.wrote w key op row :: s.trace))
    (ha : op.apply key (s.table key) = some row) : Remembered (s.write w key op row) k := by
  intro hm
  by_cases hk : k = key
  · subst hk
    by_cases hmark : ∃ o c, op = .markComplete o c
    · obtain ⟨o, c, rfl⟩ := hmark
      right
      rw [World.write_table_self]
      exact DbOp.apply_markComplete ha
    · have hold : MarkedIn s.trace k := by
        refine MarkedIn.of_cons hm ?_
        intro w' o c row' e
        cases e
        exact hmark ⟨o, c, rfl⟩
      rcases h hold with hg | ⟨r, hr, hc⟩
      · exact Or.inl (List.mem_cons_of_mem _ hg)
      · rw [hr] at ha
        rcases DbOp.apply_completed ha hc with rfl | hr'
        · exact Or.inl (List.mem_cons_of_mem _ (hd.1 (by simp [Event.deletes])))
        · right
          rwa [World.write_table_self]
  · have hold : MarkedIn s.trace k := by
      refine MarkedIn.of_cons hm ?_
      intro w' o c row' e
      cases e
      exact hk rfl
    rw [World.write_table_of_ne s hk]
    exact (h hold).imp_left (List.mem_cons_of_mem _)

theorem Remembered.record {s : World} {k : ShardId} {e : Event} (h : Remembered s k)
    (hne : ∀ w o c row, e ≠ .wrote w k (.markComplete o c) row) : Remembered (s.record e) k :=
  fun hm => (h (hm.of_cons hne)).imp_left (List.mem_cons_of_mem _)

structure TombstoneInv (k : ShardId) (s : World) : Prop where
  sane : Sane s
  kept : DeletedOnceGone k s.trace → Remembered s k

variable {D : Deployment} {K : Contract} {k : ShardId}

theorem TombstoneInv.exec {w : Worker} {r : Req} {c : Choice} {s s' : World} {a : Resp r} (hi : TombstoneInv k s)
    (h : exec K w r c s = some (a, s')) : TombstoneInv k s' := by
  rcases exec_cases h with rfl | ⟨_, f, _, rfl⟩ | ⟨key, op, row, _, ha, rfl⟩ | ⟨j, records, answer, _, rfl⟩ |
    ⟨j, type, pos, rfl⟩ | ⟨parent, _, rfl⟩
  · exact hi
  · exact ⟨hi.sane.setMem w _, hi.kept⟩
  · exact ⟨hi.sane.write ha, fun hd => (hi.kept hd.2).write hd ha⟩
  · exact ⟨hi.sane.record nofun, fun hd => (hi.kept hd.2).record nofun⟩
  · exact ⟨hi.sane.record nofun, fun hd => (hi.kept hd.2).record nofun⟩
  · exact ⟨hi.sane.record nofun, fun hd => (hi.kept hd.2).record nofun⟩

theorem TombstoneInv.env {e : Env} {s s' : World} (hi : TombstoneInv k s) (h : envStep e s = some s') :
    TombstoneInv k s' := by
  refine ⟨hi.sane.env h, ?_⟩
  cases e <;> simp only [envStep, Option.ite_none_right_eq_some, Option.some.injEq] at h
  case trim shard =>
    obtain ⟨_, rfl⟩ := h
    intro hd
    refine Remembered.record (s := { s with stream := _ }) (hi.kept hd.2) ?_
    intros
    simp
  all_goals first
    | (subst h; exact hi.kept)
    | (obtain ⟨_, rfl⟩ := h; exact hi.kept)

theorem TombstoneInv.init (D : Deployment) (k : ShardId) : TombstoneInv k D.init where
  sane := Sane.init D
  kept _ hm := by
    obtain ⟨_, _, _, _, h⟩ := hm
    cases h

/-- A finished shard is not replayed while it is listed, in every run that deletes its row only after it
has left DescribeStream: its row stays and stays completed. -/
theorem finished_shard_not_replayed {p : FleetPool} (hp : D.Reachable K p) (hd : DeletedOnceGone k p.world.trace)
    (hl : k ∈ p.world.stream.listed) (hm : MarkedIn p.world.trace k) :
    ∃ r, p.world.table k = some r ∧ r.completed = true := by
  have hi : TombstoneInv k p.world := by
    refine Pool.Reaches.invariant ?_ ?_ ?_ hp (TombstoneInv.init D k)
    · intro w r c s a s' hi h
      exact hi.exec h
    · intro e s s' hi h
      exact hi.env h
    · intro w s hi
      exact ⟨hi.sane.setMem w _, hi.kept⟩
  rcases hi.kept hd hm with hg | hr
  · exact absurd hl (hi.sane.gone k hg).2
  · exact hr

theorem deletedOnceGone_of_all : ∀ {tr : List Event}, tr.all (fun e => !e.deletes k) = true → DeletedOnceGone k tr
  | [], _ => trivial
  | e :: tr, h => by
    rw [List.all_cons, Bool.and_eq_true] at h
    refine ⟨fun he => ?_, deletedOnceGone_of_all h.2⟩
    rw [he] at h
    cases h.1

theorem finished_shard_not_replayed_split :
    MarkedIn splitShard.world.trace "root" ∧ ∃ r, splitShard.world.table "root" = some r ∧ r.completed = true := by
  have hreach : plainFleet.Reachable exactContract splitShard := splitShard_reachable
  have hm : MarkedIn splitShard.world.trace "root" := markedIn_of_any (by decide +kernel)
  have hd : DeletedOnceGone "root" splitShard.world.trace := deletedOnceGone_of_all (by decide +kernel)
  exact ⟨hm, finished_shard_not_replayed hreach hd (by decide +kernel) hm⟩

/-- The next cycle of the leader deletes the tombstone of the root, which is still listed. The leader
stops, and once its lease has expired another worker becomes leader and seeds the stream anew. -/
def newLeader : FleetPool :=
  plainFleet.perform exactContract World.serve "b" .cycle 12
    (plainFleet.envs exactContract [.advance 30001]
      (plainFleet.perform exactContract World.serve "b" .cycle 80
        (plainFleet.perform exactContract World.serve "a" .cycle 80 splitShard)))

theorem finished_root_seeded_again : ¬ ∀ p, plainFleet.Reachable exactContract p → ∀ k ∈ p.world.stream.listed,
    MarkedIn p.world.trace k → ∀ r, p.world.table k = some r → r.completed = true := by
  intro h
  have hreach : plainFleet.Reachable exactContract newLeader :=
    Deployment.reachable_perform (Deployment.reachable_envs (Deployment.reachable_perform
      (Deployment.reachable_perform splitShard_reachable)))
  have hm : MarkedIn newLeader.world.trace "root" := markedIn_of_any (by decide +kernel)
  have hr : newLeader.world.table "root" = some ⟨"root", none, 0, false, none, []⟩ := by decide +kernel
  exact absurd (h newLeader hreach "root" (by decide +kernel) hm _ hr) (by decide)

end StreamsConsumer
