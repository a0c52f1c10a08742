import StreamsConsumer.Worker.Rules
import StreamsConsumer.Worker.PassUses

/-!
# Sources and consumers as functions

The world with the stream and the consumers replaced by functions: what a
source or a consumer answers about a shard depends on nothing but what it was
asked about that shard before. Two runs against the same functions can be
compared call by call. The lease table behaves as in `Worker.World`.
-/

namespace StreamsConsumer
open Conc

/-- What the source and the consumer of a shard are asked, with the answers of the consumer. -/
inductive Call where
  | created
  | read (after : Option SequenceNumber)
  | delivered (records : List Record) (answer : Except AwsError (Option SequenceNumber))
  | ended
  | lost
  deriving DecidableEq

def Call.isCreated : Call → Bool
  | .created => true
  | _ => false

/-- Every pass creates a consumer first. -/
def passes (l : List Call) : Nat := l.countP Call.isCreated

structure Partner where
  read : List Call → Option SequenceNumber → Except AwsError RecordBatch
  deliver : List Call → List Record → Except AwsError (Option SequenceNumber)
  ended : List Call → Except AwsError Unit
  lost : List Call → Except AwsError Unit

/-- What may go wrong with the lease table, as far as it concerns one shard. -/
inductive Mishap where
  | staleScan
  | failedScan
  | failedWrite (op : DbOp)

structure Site where
  world : World
  calls : ShardId → List Call
  mishaps : ShardId → List Mishap

namespace Site

def asked (s : Site) (k : ShardId) (c : Call) : Site :=
  { s with calls := Function.update s.calls k (s.calls k ++ [c]) }

/-- A scan is stale for a shard if it shows another row than the table holds, or none where there is one. -/
def scanned (s : Site) : Except AwsError (List Lease) → Site
  | .ok rows => { s with
      mishaps := fun k => if lookupRow rows k = s.world.table k then s.mishaps k else .staleScan :: s.mishaps k }
  | .error _ => { s with mishaps := fun k => .failedScan :: s.mishaps k }

def wrote (s : Site) (key : ShardId) (op : DbOp) (u : World) : Except AwsError Nat → Site
  | .ok _ => { s with world := u }
  | .error _ => { s with
      world := u
      mishaps := Function.update s.mishaps key (.failedWrite op :: s.mishaps key) }

def row (s : Site) (k : ShardId) : Option Lease := s.world.table k

def checkpoint (s : Site) (k : ShardId) : Option SequenceNumber := (s.row k).bind Lease.checkpoint

def completed (s : Site) (k : ShardId) : Bool := (s.row k).elim false Lease.completed

def mem (s : Site) (w : Worker) : Memory := s.world.mem w

def setMem (s : Site) (w : Worker) (m : Memory) : Site := { s with world := s.world.setMem w m }

@[simp] theorem mem_setMem (s : Site) (w : Worker) (m : Memory) : (s.setMem w m).mem w = m := by
  simp [setMem, mem, World.setMem]

end Site

def siteExec (P : ShardId → Partner) (w : Worker) : (r : Req) → Choice → Site → Option (Resp r × Site)
  | .scan, c, s => (execScan c s.world).map fun x => (x.1, s.scanned x.1)
  | .db key op, c, s => (execDb w key op c s.world).map fun x => (x.1, s.wrote key op x.2 x.1)
  | .getRecords shard after, _, s => some ((P shard).read (s.calls shard) after, s.asked shard (.read after))
  | .deliver shard records, _, s =>
    let answer := (P shard).deliver (s.calls shard) records
    some (answer, s.asked shard (.delivered records answer))
  | .createConsumer shard, _, s => some ((), s.asked shard .created)
  | .shardEnded shard, _, s => some ((P shard).ended (s.calls shard), s.asked shard .ended)
  | .leaseLost shard, _, s => some ((P shard).lost (s.calls shard), s.asked shard .lost)
  | r, c, s => (exec exactContract w r c s.world).map fun x => (x.1, { s with world := x.2 })

def siteHandler (P : ShardId → Partner) : Handler Req Resp Worker Choice Site := ⟨siteExec P⟩

section
variable {P : ShardId → Partner} {w : Worker} {k : ShardId}

theorem calls_asked (s : Site) (j : ShardId) (c : Call) : s.calls k <+: (s.asked j c).calls k := by
  unfold Site.asked
  by_cases h : k = j
  · subst h
    simp
  · simp [h]

theorem mishaps_scanned (s : Site) (a : Except AwsError (List Lease)) : s.mishaps k <:+ (s.scanned a).mishaps k := by
  unfold Site.scanned
  split
  · simp only
    split
    · exact List.suffix_refl _
    · exact List.suffix_cons _ _
  · exact List.suffix_cons _ _

theorem mishaps_wrote (s : Site) (j : ShardId) (op : DbOp) (u : World) (a : Except AwsError Nat) :
    s.mishaps k <:+ (s.wrote j op u a).mishaps k := by
  unfold Site.wrote
  split
  · exact List.suffix_refl _
  · by_cases h : k = j
    · subst h
      simp
    · simp [h]

theorem siteExec_grows {r : Req} {c : Choice} {s t : Site} {a : Resp r} (h : siteExec P w r c s = some (a, t)) :
    s.calls k <+: t.calls k ∧ s.mishaps k <:+ t.mishaps k := by
  have hrest : ∀ x, (exec exactContract w r c s.world).map (fun x => (x.1, { s with world := x.2 })) = some x →
      s.calls k <+: x.2.calls k ∧ s.mishaps k <:+ x.2.mishaps k := by
    intro x hx
    obtain ⟨y, _, rfl⟩ := Option.map_eq_some_iff.mp hx
    exact ⟨List.prefix_refl _, List.suffix_refl _⟩
  cases r
  case scan =>
    obtain ⟨y, _, hy⟩ := Option.map_eq_some_iff.mp h
    cases hy
    refine ⟨?_, mishaps_scanned s y.1⟩
    unfold Site.scanned
    split <;> exact List.prefix_refl _
  case db key op =>
    obtain ⟨y, _, hy⟩ := Option.map_eq_some_iff.mp h
    cases hy
    refine ⟨?_, mishaps_wrote s key op y.2 y.1⟩
    unfold Site.wrote
    split <;> exact List.prefix_refl _
  case getRecords shard after =>
    cases h
    exact ⟨calls_asked s shard _, List.suffix_refl _⟩
  case createConsumer shard =>
    cases h
    exact ⟨calls_asked s shard _, List.suffix_refl _⟩
  case deliver shard records =>
    cases h
    exact ⟨calls_asked s shard _, List.suffix_refl _⟩
  case shardEnded shard =>
    cases h
    exact ⟨calls_asked s shard _, List.suffix_refl _⟩
  case leaseLost shard =>
    cases h
    exact ⟨calls_asked s shard _, List.suffix_refl _⟩
  all_goals exact hrest _ h

end

/-- What the other tasks of a worker, its other shards, and the rest of the world leave alone. -/
structure Apart (w : Worker) (k : ShardId) (s t : Site) : Prop where
  row : t.row k = s.row k
  calls : t.calls k = s.calls k
  mishaps : t.mishaps k = s.mishaps k
  pending : (t.mem w).pending k = (s.mem w).pending k
  deferring : (t.mem w).ckptDefer.isSome = (s.mem w).ckptDefer.isSome

theorem Apart.refl (w : Worker) (k : ShardId) (s : Site) : Apart w k s s := ⟨rfl, rfl, rfl, rfl, rfl⟩

theorem Apart.trans {w : Worker} {k : ShardId} {s t u : Site} (h₁ : Apart w k s t) (h₂ : Apart w k t u) :
    Apart w k s u :=
  ⟨h₂.row.trans h₁.row, h₂.calls.trans h₁.calls, h₂.mishaps.trans h₁.mishaps, h₂.pending.trans h₁.pending,
    h₂.deferring.trans h₁.deferring⟩

theorem solo_retryThrottled {σ ε α : Type} {H : Handler Req Resp Worker Choice σ} {I : σ → σ → Prop} {w : Worker}
    {G : σ → Prop} {throttled : ε → Bool} {op : Fx (Except ε α)} {J K : σ → Prop} {Q : Except ε α → σ → Prop}
    (hK : ∀ s, K s → J s) (hQ : ∀ e s, K s → Q (.error e) s)
    (hsleep : ∀ ms s, J s → solo H I w G (sleep ms) (fun _ => J) s)
    (hop : ∀ s, J s → solo H I w G op (fun x s' => (∃ a, x = .ok a) ∧ Q x s' ∨ (∃ e, x = .error e) ∧ K s') s) :
    ∀ (n delay : Nat) {s : σ}, J s → solo H I w G (retryThrottled throttled op n delay) Q s
  | 0, _, s, h => by
    refine solo_mono _ ?_ (hop s h)
    intro x s' hx
    rcases hx with ⟨_, hx⟩ | ⟨⟨e, rfl⟩, hs'⟩
    · exact hx
    · exact hQ e s' hs'
  | n + 1, delay, s, h => by
    unfold retryThrottled
    refine solo_seq (hop s h) ?_
    intro x s₁ hx
    rcases hx with ⟨⟨a, rfl⟩, hx⟩ | ⟨⟨e, rfl⟩, hs₁⟩
    · exact hx
    · simp only
      split
      · refine solo_seq (hsleep delay s₁ (hK s₁ hs₁)) ?_
        intro _ s₂ hj₂
        exact solo_retryThrottled hK hQ hsleep hop n _ hj₂
      · exact hQ e s₁ hs₁

def contractFleet (cfg : FleetConfig) : Fleet := ⟨contractSource, dynamoDbLeaseStore, cfg⟩

end StreamsConsumer
