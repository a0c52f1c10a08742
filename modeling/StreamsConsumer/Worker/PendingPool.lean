import StreamsConsumer.Worker.Passes
import StreamsConsumer.Worker.PendingPass

/-!
# Pending acks and the passes of one cycle

All passes of a cycle keep the pending ack of the shard at or ahead of its row:
the one over the shard is alone with it, and the others leave it.
-/

namespace StreamsConsumer.PendingAck
open Conc

abbrev Whole (D : Deployment) (K : Contract) (w : Worker) (k : ShardId) {α : Type} (p : Fx α) (Q : α → World → Prop)
    (s : World) : Prop :=
  joint (carefulMachine D K).toHandler w (wholeDuty D w k) p Q s

section
variable {D : Deployment} {K : Contract} {w : Worker} {k : ShardId} {s t : World}

theorem whole_of_does {α : Type} {p : Fx α} {Q : α → World → Prop} (h : Does D K w k p Q s) : Whole D K w k p Q s :=
  joint_others (fun _ _ h => h.1) p h

theorem stable_whole {P : World → Prop} (h : (duty D w k).Stable P) : (wholeDuty D w k).Stable P :=
  fun s t hs ha ht => h s t hs ha.1 ht

theorem company : Company (carefulMachine D K).toHandler w k (duty D w k) (Away w k) (fun s => (s.mem w).pool) where
  refl := Beside.refl
  trans _ _ _ := Beside.trans
  keeps := stable_level
  others h := ⟨h.1, by rw [h.2]⟩
  asks h := (Calm.sibling h).ahead
  sibling hr hs he := beside_sibling hs hr (exec_careful he).1
  stays hr he := by
    rcases mem_exec (exec_careful he).1 with hm | ⟨β, f, rfl, hm⟩
    · rw [hm]
    · rw [hm]
      exact hr _
  asksPop _ := trivial
  pop he := by
    cases (exec_careful he).1
    refine ⟨rfl, by simp [World.setMem], List.prefix_rfl, ?_, rfl⟩
    rw [pending_setMem]
    rfl

theorem whole_join (hK : K.Forward) (hsrc : D.source = contractSource)
    {items : List (ShardId × Nat × Option SequenceNumber)} (hnodup : (items.map Prod.fst).Nodup) (hs : Registry D s)
    (hl : Level w k s) (hit : ∀ it ∈ items, it.1 = k → Behind w k s it.2.2) :
    Whole D K w k (Prog.join (items.map (runPass (D.fleet w)))) (fun _ => Level w k) s := by
  refine company.joint_passes stable_level (fun _ h => h) rfl hsrc hnodup hl ?_ (fun _ => hl)
  rintro it hmem rfl
  exact does_runPass hK hsrc hs ⟨hl, hit it hmem rfl⟩

/-- The shard waits in the queue with a position at or ahead of the row. -/
abbrev Waiting (w : Worker) (k : ShardId) : World → Prop :=
  Queued (fun s => (s.mem w).pool) k (Level w k) fun it s => Behind w k s it.checkpoint

theorem whole_pool (hK : K.Forward) (hsrc : D.source = contractSource) {n : Nat} (h : Waiting w k s) :
    Whole D K w k (Prog.join (List.replicate n (poolWorker (D.fleet w)))) (fun _ => Level w k) s := by
  have hbehind : ∀ it : PoolItem, (duty D w k).Stable fun s => Behind w k s it.checkpoint :=
    fun _ s t hs hb ht h => h.beside hb hs ht
  refine company.joint_pool stable_level rfl hsrc hbehind (fun _ h => h) ?_ h
  rintro it s rfl hs hl hb
  exact @does_runPass D K w s hK hsrc (it.shard, it.counter, it.checkpoint) hs ⟨hl, hb⟩

end

end StreamsConsumer.PendingAck
