import StreamsConsumer.Worker.Lineage

/-!
# Heartbeat counters

Whatever happens in a fleet, the heartbeat row of a worker either stays as it is
or moves to a larger counter: shard sync, takes, passes and cleanup touch the
rows of shards only, and every other write counts up.
-/

namespace StreamsConsumer
open Conc

def beatCount (row : Option Lease) : Nat := row.elim 0 Lease.leaseCounter

/-- The heartbeat row of `w` stays, or its counter moves up. -/
def BeatUp (w : Worker) (s s' : World) : Prop :=
  s'.table (heartbeatKey w) = s.table (heartbeatKey w) ∨
    beatCount (s.table (heartbeatKey w)) < beatCount (s'.table (heartbeatKey w))

theorem BeatUp.trans {w : Worker} {a b c : World} (h₁ : BeatUp w a b) (h₂ : BeatUp w b c) : BeatUp w a c := by
  unfold BeatUp at *
  rcases h₁ with h₁ | h₁
  · rw [← h₁]
    exact h₂
  · rcases h₂ with h₂ | h₂
    · rw [h₂]
      exact Or.inr h₁
    · exact Or.inr (h₁.trans h₂)

structure BeatInv (s : World) : Prop where
  metas : ∀ m ∈ s.stream.metas, isShardKey m.id = true
  pool : ∀ w, ∀ it ∈ (s.mem w).pool, isShardKey it.shard = true

def beatRely (w : Worker) : Rely World := ⟨BeatInv, BeatUp w, fun _ => Or.inl rfl, BeatUp.trans⟩

/-- The writes that may also go to heartbeat rows. -/
def DbOp.countsUp : DbOp → Bool
  | .createShardLease _ _ => false
  | .markComplete _ _ => false
  | .deleteLease => false
  | _ => true

theorem beatCount_apply {key : ShardId} {op : DbOp} {row row' : Option Lease} (h : op.apply key row = some row')
    (hop : op.countsUp = true) : beatCount row < beatCount row' := by
  cases row with
  | none =>
    cases op <;> simp [DbOp.apply] at h
    case createShardLease => cases hop
    all_goals
      subst h
      simp [beatCount]
  | some r =>
    have hd : op ≠ .deleteLease := by
      rintro rfl
      cases hop
    have hm : op.isMarkComplete = false := by
      cases op with
      | markComplete _ _ => cases hop
      | _ => rfl
    obtain ⟨r', rfl, hc⟩ := DbOp.apply_some h hd
    simp [beatCount, hc, hm]

theorem ne_heartbeatKey {key : ShardId} (h : isShardKey key = true) (w : Worker) : heartbeatKey w ≠ key := by
  rintro rfl
  rw [isShardKey_heartbeat] at h
  cases h

section
variable {w v : Worker} {s : World}

theorem keeps_beat {key : ShardId} {op : DbOp} (h : isShardKey key = true ∨ op.countsUp = true) :
    Keeps (beatRely w) v key op s := by
  intro s₁ _ i₁ row ha
  refine ⟨⟨i₁.metas, i₁.pool⟩, ?_⟩
  by_cases hk : heartbeatKey w = key
  · subst hk
    rcases h with h | h
    · exact absurd rfl (ne_heartbeatKey h w)
    · right
      simpa [World.write] using beatCount_apply ha h
  · left
    simp [World.write, hk]

theorem BeatInv.setMem {m : Memory} (hi : BeatInv s) (hq : ∀ it ∈ m.pool, isShardKey it.shard = true) :
    BeatInv (s.setMem v m) where
  metas := hi.metas
  pool := World.forall_setMem (Q := fun _ m => ∀ it ∈ m.pool, isShardKey it.shard = true) hi.pool hq

theorem BeatInv.env {e : Env} {s' : World} (hi : BeatInv s) (h : envStep e s = some s') : BeatInv s' := by
  refine ⟨?_, ?_⟩
  · cases e <;> simp only [envStep, Option.ite_none_right_eq_some, Option.some.injEq] at h
    case appear m =>
      obtain ⟨hm, rfl⟩ := h
      intro x hx
      rcases List.mem_append.mp hx with hx | hx
      · exact hi.metas x hx
      · rw [List.mem_singleton.mp hx]
        exact hm.2.1
    all_goals first | (subst h; exact hi.metas) | (obtain ⟨_, rfl⟩ := h; exact hi.metas)
  · rw [(envStep_frame h).2.2.1]
    exact hi.pool

theorem BeatInv.init (D : Deployment) : BeatInv D.init := ⟨by simp [Deployment.init], by simp [Deployment.init, Memory.init]⟩

end

variable {D : Deployment} {K : Contract}

def beatGround (D : Deployment) (K : Contract) (w : Worker) : Ground D K where
  L := beatRely w
  Row _ _ := True
  Item _ it _ := isShardKey it.1 = true
  row_up _ _ _ _ _ _ := trivial
  item_up _ _ _ _ _ _ h := h
  env _ _ _ hi h := ⟨hi.env h, Or.inl (congrFun (envStep_frame h).1 _)⟩
  history _ _ _ _ := trivial
  item _ _ _ _ _ _ _ hk := hk
  pool _ v hi := hi.pool v
  mem _ _ _ hi _ _ hq := ⟨hi.setMem hq, Or.inl rfl⟩
  leader _ _ _ := ⟨keeps_beat (Or.inr rfl), fun _ => keeps_beat (Or.inr rfl), fun _ => keeps_beat (Or.inr rfl)⟩
  heartbeat _ _ _ := keeps_beat (Or.inr rfl)
  take _ _ _ _ _ _ _ := ⟨keeps_beat (Or.inr rfl), fun _ => keeps_beat (Or.inr rfl)⟩
  delete _ _ _ _ hk := keeps_beat (Or.inl hk)
  release _ _ _ _ _ _ := keeps_beat (Or.inr rfl)
  flush _ _ _ _ _ _ _ _ := keeps_beat (Or.inr rfl)

def beatOutline (hsrc : D.source = contractSource) (w : Worker) (task : ShardTask) (hk : isShardKey task.shard = true) :
    (beatGround D K w).Outline task where
  At _ _ _ := True
  Got _ _ _ _ := True
  Acked _ _ _ _ _ := True
  Done _ _ _ _ := True
  at_up _ _ _ _ _ _ _ := trivial
  acked_up _ _ _ _ _ _ _ _ _ := trivial
  done_up _ _ _ _ _ _ _ _ := trivial
  resume _ _ _ _ _ _ := trivial
  read s a c hi _ := by
    rw [hsrc]
    exact wp_contractRead hi (fun _ _ _ _ _ _ _ _ _ => trivial) (fun _ _ _ _ => trivial)
  empty _ _ _ _ _ _ _ := trivial
  deliver s a c b hi _ _ := by
    refine wp_deliver ?_
    intro s₁ ans _ i₁ _
    exact ⟨⟨i₁.metas, i₁.pool⟩, Or.inl rfl, fun _ _ => trivial, fun _ => trivial⟩
  write _ _ _ _ _ _ _ := ⟨keeps_beat (Or.inr rfl), fun _ _ _ _ _ => trivial⟩
  defer s _ _ _ _ _ _ _ hi _ _ := ⟨hi.setMem (hi.pool task.owner), Or.inl rfl⟩
  deferred _ _ _ _ _ _ _ _ := trivial
  next _ _ _ _ _ _ _ _ := trivial
  flush _ _ _ _ _ _ _ _ _ _ := ⟨keeps_beat (Or.inr rfl), fun _ _ _ _ _ => trivial⟩
  complete _ _ _ _ _ _ _ := keeps_beat (Or.inl hk)

def beatProtocol (hsrc : D.source = contractSource) (w : Worker) : Protocol D K where
  toGround := beatGround D K w
  sync s v rows hi _ := by
    have hshard : ∀ {s₁ : World} {m : ShardMeta}, BeatInv s₁ → m ∈ s₁.stream.describe → isShardKey m.id = true := by
      intro s₁ m i₁ hm
      obtain ⟨m', hm', rfl⟩ := List.mem_map.mp hm
      exact i₁.metas m' (List.mem_filter.mp hm').1
    refine (beatGround D K w).wp_leaderShardSync ((beatGround D K w).describes_of_contract hsrc) hi ⟨?_, ?_, ?_, ?_⟩
    · intro s₁ m _ i₁ hm _
      exact keeps_beat (Or.inl (hshard i₁ hm))
    · intro p _ s₁ _ i₁
      exact ⟨⟨i₁.metas, i₁.pool⟩, Or.inl rfl⟩
    · intro s₁ p c _ i₁ _ hc _
      exact keeps_beat (Or.inl (i₁.metas c (List.mem_filter.mp hc).1))
    · intro s₁ m _ i₁ hm _
      exact keeps_beat (Or.inl (hshard i₁ hm))
  pass s v it hi h := (beatGround D K w).wp_runPass (beatOutline hsrc w _ h) hi trivial

theorem beatUp_step (hsrc : D.source = contractSource) (w : Worker) {p q : FleetPool} {l : Label Worker Choice Env Job}
    (hp : D.Reachable K p) (h : p.step (D.machine K) l = some q) : BeatUp w p.world q.world := by
  refine (beatProtocol hsrc w).le_of_reaches (BeatInv.init D) hp ⟨[l], ?_⟩
  simp [Pool.run, h]

end StreamsConsumer
