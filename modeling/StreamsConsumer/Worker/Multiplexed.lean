import StreamsConsumer.Formal.Multiplexing
import StreamsConsumer.Worker.Lineage
import StreamsConsumer.Worker.Progress

/-!
# The lease table runs the specification

Every write of a fleet to a shard row, up to the one that marks the shard
complete, is read as actions of `Multiplexing.tla` by the worker that made it. A
claim takes the lease from its former holder, a checkpoint passes over the
records up to it, the mark over what is left of the shard. In runs that
checkpoint every batch these actions are enabled one after another, and the state
they lead to has the owners and checkpoints of the table's open shards. What the
fleet writes to a shard's row after its mark is not read: the specification has
no tombstones, and a leader may seed a finished shard again.
-/

namespace StreamsConsumer
open Conc

namespace Multiplexing

/-! ## The trace as actions -/

def lastRow : List Event → ShardId → Option Lease
  | [], _ => none
  | .wrote _ key _ row :: tr, k => if k = key then row else lastRow tr k
  | _ :: tr, k => lastRow tr k

/-- How many records of the log the row leaves behind. -/
def passed (log : List Record) (row : Option Lease) : ℕ := position log (row.bind Lease.checkpoint)

/-- A write to the row of a shard that was not complete. -/
def readWrite (maxSeq : ℕ) (log : List Record) (w : Worker) (key : ShardId) (before row : Option Lease) :
    DbOp → List (Action Worker ShardId)
  | .put _ => [.acquireLease w key]
  | .claim _ _ => (before.bind Lease.owner).toList.map (fun o => .loseLease o key) ++ [.acquireLease w key]
  | .checkpoint _ _ _ => passes w key (passed log row - passed log before)
  | .markComplete _ _ => passes w key (maxSeq - passed log before)
  | .release _ _ => [.loseLease w key]
  | _ => []

/-- The actions of a trace: of each shard's row the writes up to its completion mark, none after it. -/
def specActions (maxSeq : ℕ) (log : ShardId → List Record) : List Event → List (Action Worker ShardId)
  | [] => []
  | .wrote w key op row :: tr => specActions maxSeq log tr ++
      if isShardKey key = true ∧ tr.any (Event.marks key) = false then
        readWrite maxSeq (log key) w key (lastRow tr key) row op
      else []
  | _ :: tr => specActions maxSeq log tr

/-- The constants leave room for the logs and the writes of the run. Their parents are parents of the stream, none of
them trimmed before it is complete. -/
structure Fits (C : Constants ShardId) (s : World) : Prop where
  logs : ∀ m ∈ s.stream.metas, (s.stream.log m.id).length < C.MaxSeq
  handoffs : s.trace.length ≤ C.MaxHandoffs
  parents : ∀ pr ∈ C.ParentOf, ∀ m ∈ s.stream.metas, m.id = pr.1 → pr.2 ∈ m.parents
  retained : ∀ pr ∈ C.ParentOf, ∀ new old, s.trace = new ++ .trimmed pr.2 :: old → MarkedIn old pr.2

/-- The specification's view of the lease table. Shards that were never marked have their owner and their checkpoint
in it, the others are complete whatever their row has become. -/
structure Shows (C : Constants ShardId) (s : World) (σ : State Worker ShardId) : Prop where
  resting : Resting σ
  owner : ∀ k, isShardKey k = true → ¬ MarkedIn s.trace k → σ.owner k = (s.table k).bind Lease.owner
  checkpoint : ∀ k, isShardKey k = true → ¬ MarkedIn s.trace k → σ.checkpoint k = passed (s.stream.log k) (s.table k)
  complete : ∀ k, isShardKey k = true → MarkedIn s.trace k → σ.checkpoint k = C.MaxSeq

/-! ## What the workers write -/

/-- A worker writes under its own name, starts rows at their beginning or at LATEST, and beats on its own row. -/
structure Shaped (w : Worker) (key : ShardId) (op : DbOp) : Prop where
  actor : ∀ o, op.actor = some o → o = w
  start : ∀ ps cp, op = .createShardLease ps cp → cp = none ∨ cp = some SENTINEL_LATEST
  beat : ∀ o, op = .heartbeat o → isShardKey key = false

def AllShaped (s : World) : Prop := ∀ w key op row, .wrote w key op row ∈ s.trace → Shaped w key op

def shapeRely : Rely World := ⟨AllShaped, fun _ _ => True, fun _ => trivial, fun _ _ => trivial⟩

theorem keeps_shape {w : Worker} {key : ShardId} {op : DbOp} {s : World} (h : Shaped w key op) :
    Keeps shapeRely w key op s := by
  intro s₁ _ i₁ row _
  refine ⟨?_, trivial⟩
  intro v j o r he
  rcases List.mem_cons.mp he with he | he
  · cases he
    exact h
  · exact i₁ v j o r he

theorem AllShaped.of_trace {s s' : World} (h : AllShaped s)
    (ht : ∀ w key op row, Event.wrote w key op row ∈ s'.trace → Event.wrote w key op row ∈ s.trace) : AllShaped s' :=
  fun w key op row he => h w key op row (ht w key op row he)

variable {D : Deployment} {K : Contract}

def shapeGround (D : Deployment) (K : Contract) : Ground D K where
  L := shapeRely
  Row _ _ := True
  Item _ _ _ := True
  row_up _ _ _ _ _ _ := trivial
  item_up _ _ _ _ _ _ _ := trivial
  env e s s' hi h := by
    refine ⟨hi.of_trace fun w key op row he => ?_, trivial⟩
    obtain ⟨_, _, _, ht⟩ := envStep_frame h
    exact (ht _ he).resolve_right nofun
  history _ _ _ _ := trivial
  item _ _ _ _ _ _ _ _ := trivial
  pool _ _ _ _ _ := trivial
  mem _ _ _ hi _ _ _ := ⟨hi, trivial⟩
  leader _ w _ := by
    refine ⟨keeps_shape ⟨?_, nofun, nofun⟩, fun c => keeps_shape ⟨?_, nofun, nofun⟩, fun c => keeps_shape ⟨?_, nofun, nofun⟩⟩
    all_goals
      intro o ho
      exact (Option.some.inj ho).symm
  heartbeat _ w _ := keeps_shape ⟨fun _ ho => (Option.some.inj ho).symm, nofun, fun _ _ => isShardKey_heartbeat w⟩
  take _ w r _ _ _ _ := by
    refine ⟨keeps_shape ⟨?_, nofun, nofun⟩, fun c => keeps_shape ⟨?_, nofun, nofun⟩⟩
    all_goals
      intro o ho
      exact (Option.some.inj ho).symm
  delete _ _ _ _ _ := keeps_shape ⟨nofun, nofun, nofun⟩
  release _ _ _ _ _ _ := keeps_shape ⟨fun _ ho => (Option.some.inj ho).symm, nofun, nofun⟩
  flush _ _ _ _ _ _ _ _ := keeps_shape ⟨fun _ ho => (Option.some.inj ho).symm, nofun, nofun⟩

def shapeOutline (hsrc : D.source = contractSource) (task : ShardTask) : (shapeGround D K).Outline task where
  At _ _ _ := True
  Got _ _ _ _ := True
  Acked _ _ _ _ _ := True
  Done _ _ _ _ := True
  at_up _ _ _ _ _ _ _ := trivial
  acked_up _ _ _ _ _ _ _ _ _ := trivial
  done_up _ _ _ _ _ _ _ _ := trivial
  resume _ _ _ _ _ _ := trivial
  read s a c hi h := by
    rw [hsrc]
    exact wp_contractRead hi (fun _ _ _ _ _ _ _ _ _ => trivial) fun _ _ _ _ => trivial
  empty _ _ _ _ _ _ _ := trivial
  deliver s a c b hi h hb := by
    refine wp_deliver ?_
    intro s₁ ans h₁ i₁ _
    refine ⟨i₁.of_trace fun w key op row he => ?_, trivial, fun _ _ => trivial, fun _ => trivial⟩
    exact (List.mem_cons.mp he).resolve_left nofun
  write _ _ _ _ _ _ _ :=
    ⟨keeps_shape ⟨fun _ ho => (Option.some.inj ho).symm, nofun, nofun⟩, fun _ _ _ _ _ => trivial⟩
  defer _ _ _ _ _ _ _ _ hi _ _ := ⟨hi, trivial⟩
  deferred _ _ _ _ _ _ _ _ := trivial
  next _ _ _ _ _ _ _ _ := trivial
  flush _ _ _ _ _ _ _ _ _ _ :=
    ⟨keeps_shape ⟨fun _ ho => (Option.some.inj ho).symm, nofun, nofun⟩, fun _ _ _ _ _ => trivial⟩
  complete _ _ _ _ _ _ _ := keeps_shape ⟨fun _ ho => (Option.some.inj ho).symm, nofun, nofun⟩

def shapeProtocol (hsrc : D.source = contractSource) : Protocol D K where
  toGround := shapeGround D K
  sync s w rows hi _ := by
    refine (shapeGround D K).wp_leaderShardSync ((shapeGround D K).describes_of_contract hsrc) hi ⟨?_, ?_, ?_, ?_⟩
    · intro _ _ _ _ _ _
      refine keeps_shape ⟨nofun, ?_, nofun⟩
      intro ps cp e
      cases e
      exact seedCheckpoint_cases _
    · intro _ _ s₁ _ i₁
      refine ⟨i₁.of_trace fun w key op row he => ?_, trivial⟩
      exact (List.mem_cons.mp he).resolve_left nofun
    all_goals
      intros
      refine keeps_shape ⟨nofun, ?_, nofun⟩
      intro ps cp e
      cases e
      exact childCp_cases _ _
  pass s w it hi _ := (shapeGround D K).wp_runPass (shapeOutline hsrc _) hi trivial

theorem allShaped_of_reachable (hsrc : D.source = contractSource) {p : FleetPool} (hp : D.Reachable K p) :
    AllShaped p.world := (shapeProtocol hsrc).reachable (fun _ _ _ _ he => by cases he) hp

/-! ## The trace and the table -/

/-- A step that writes no row. -/
structure Unwritten (s s' : World) : Prop where
  table : s'.table = s.table
  history : s'.history = s.history
  log : ∀ k, s.stream.log k <+: s'.stream.log k
  trace : s'.trace = s.trace ∨ ∃ e, s'.trace = e :: s.trace ∧ ∀ w key op row, e ≠ .wrote w key op row

theorem unwritten_or_write {p q : FleetPool} {l : Label Worker Choice Env Job} (h : p.step (D.machine K) l = some q) :
    Unwritten p.world q.world ∨ ∃ w key op row, op.apply key (p.world.table key) = some row ∧
      q.world = p.world.write w key op row := by
  have hrec : ∀ e, (∀ w key op row, e ≠ .wrote w key op row) → Unwritten p.world (p.world.record e) := fun e he =>
    ⟨rfl, rfl, fun _ => List.prefix_rfl, Or.inr ⟨e, rfl, he⟩⟩
  have hmem : ∀ w m, Unwritten p.world (p.world.setMem w m) := fun _ _ => ⟨rfl, rfl, fun _ => List.prefix_rfl, Or.inl rfl⟩
  rcases Pool.step_world h with e | ⟨w, r, c, a, hx⟩ | ⟨e, he⟩ | ⟨w, e⟩
  · exact Or.inl (e ▸ ⟨rfl, rfl, fun _ => List.prefix_rfl, Or.inl rfl⟩)
  · rcases exec_cases hx with e | ⟨_, f, -, e⟩ | ⟨key, op, row, -, ha, e⟩ | ⟨_, _, _, -, e⟩ | ⟨_, _, _, e⟩ | ⟨_, -, e⟩
    · exact Or.inl (e ▸ ⟨rfl, rfl, fun _ => List.prefix_rfl, Or.inl rfl⟩)
    · exact Or.inl (e ▸ hmem _ _)
    · exact Or.inr ⟨w, key, op, row, ha, e⟩
    all_goals exact Or.inl (e ▸ hrec _ nofun)
  · obtain ⟨ht, hh, -, -⟩ := envStep_frame he
    refine Or.inl ⟨ht, hh, (Extends.env he).log, ?_⟩
    rcases envStep_trace he with e | ⟨k, e⟩
    · exact Or.inl e
    · exact Or.inr ⟨_, e, nofun⟩
  · exact Or.inl (e ▸ hmem _ _)

section
variable {s s' : World} {w : Worker} {key k : ShardId} {op : DbOp} {row : Option Lease} {tr : List Event} {e : Event}

theorem lastRow_cons (he : ∀ w key op row, e ≠ .wrote w key op row) : lastRow (e :: tr) k = lastRow tr k := by
  cases e with
  | wrote w key op row => exact absurd rfl (he w key op row)
  | _ => rfl

theorem specActions_cons {m : ℕ} {log : ShardId → List Record} (he : ∀ w key op row, e ≠ .wrote w key op row) :
    specActions m log (e :: tr) = specActions m log tr := by
  cases e with
  | wrote w key op row => exact absurd rfl (he w key op row)
  | _ => rfl

theorem lastRow_mem {r : Lease} : ∀ {tr : List Event}, lastRow tr k = some r → ∃ w op, Event.wrote w k op (some r) ∈ tr
  | e :: tr, h => by
    have hrest : lastRow tr k = some r → ∃ w op, Event.wrote w k op (some r) ∈ e :: tr := fun h => by
      obtain ⟨w, op, hm⟩ := lastRow_mem h
      exact ⟨w, op, List.mem_cons_of_mem _ hm⟩
    cases e with
    | wrote w key op row =>
      by_cases hk : k = key
      · subst hk
        simp only [lastRow, if_true] at h
        subst h
        exact ⟨w, op, List.mem_cons_self ..⟩
      · simp only [lastRow, hk, if_false] at h
        exact hrest h
    | _ => exact hrest h

theorem Unwritten.wrote (h : Unwritten s s') (he : Event.wrote w key op row ∈ s'.trace) : Event.wrote w key op row ∈ s.trace := by
  rcases h.trace with ht | ⟨e, ht, hne⟩
  · exact ht ▸ he
  · rw [ht] at he
    exact (List.mem_cons.mp he).resolve_left (hne w key op row).symm

theorem Unwritten.suffix (h : Unwritten s s') : s.trace <:+ s'.trace := by
  rcases h.trace with ht | ⟨e, ht, _⟩
  · exact ht ▸ List.suffix_rfl
  · exact ht ▸ List.suffix_cons _ _

theorem Unwritten.marked (h : Unwritten s s') : MarkedIn s'.trace k ↔ MarkedIn s.trace k := by
  refine ⟨?_, MarkedIn.mono h.suffix⟩
  rintro ⟨w, o, c, row, he⟩
  exact ⟨w, o, c, row, h.wrote he⟩

theorem Unwritten.lastRow (h : Unwritten s s') : lastRow s'.trace k = lastRow s.trace k := by
  rcases h.trace with ht | ⟨e, ht, hne⟩
  · rw [ht]
  · rw [ht, lastRow_cons hne]

theorem Unwritten.specActions (h : Unwritten s s') {m : ℕ} {log : ShardId → List Record} :
    specActions m log s'.trace = specActions m log s.trace := by
  rcases h.trace with ht | ⟨e, ht, hne⟩
  · rw [ht]
  · rw [ht, specActions_cons hne]

theorem marked_write : MarkedIn (s.write w key op row).trace k ↔ MarkedIn s.trace k ∨ k = key ∧ op.isMarkComplete = true := by
  constructor
  · rintro ⟨v, o, c, r, he⟩
    rcases List.mem_cons.mp he with he | he
    · cases he
      exact Or.inr ⟨rfl, rfl⟩
    · exact Or.inl ⟨v, o, c, r, he⟩
  · rintro (h | ⟨rfl, hop⟩)
    · exact h.mono (List.suffix_cons _ _)
    · cases op <;> simp only [DbOp.isMarkComplete, Bool.false_eq_true] at hop
      exact ⟨w, _, _, row, List.mem_cons_self ..⟩

theorem marked_iff_any : tr.any (Event.marks k) = true ↔ MarkedIn tr k := by
  refine ⟨markedIn_of_any, ?_⟩
  rintro ⟨w, o, c, row, he⟩
  exact List.any_eq_true.mpr ⟨_, he, by simp [Event.marks]⟩

structure Traced (s : World) : Prop where
  table : ∀ k, s.table k = lastRow s.trace k
  rows : ∀ w k op r, .wrote w k op (some r) ∈ s.trace → r ∈ s.history ∧ r.leaseKey = k
  /-- Only rows of completed shards are ever deleted. -/
  deleted : ∀ w k row, .wrote w k .deleteLease row ∈ s.trace → MarkedIn s.trace k

theorem Traced.unwritten (h : Unwritten s s') (ht : Traced s) : Traced s' where
  table k := by rw [h.table, ht.table, h.lastRow]
  rows w k op r he := by
    rw [h.history]
    exact ht.rows w k op r (h.wrote he)
  deleted w k row he := (ht.deleted w k row (h.wrote he)).mono h.suffix

theorem DbOp.apply_deleteLease {before : Option Lease} (h : DbOp.apply key .deleteLease before = some row) :
    ∃ r, before = some r ∧ r.completed = true := by
  cases before with
  | none => cases h
  | some r =>
    simp only [DbOp.apply, Option.ite_none_right_eq_some] at h
    exact ⟨r, rfl, h.1⟩

theorem Traced.write (hi : LineageInv s) (ht : Traced s) (ha : op.apply key (s.table key) = some row) :
    Traced (s.write w key op row) where
  table k := by
    by_cases hk : k = key
    · subst hk
      simp [World.write, lastRow]
    · rw [World.write_table_of_ne _ hk, ht.table]
      simp [World.write, lastRow, hk]
  rows v k o r he := by
    rcases List.mem_cons.mp he with he | he
    · cases he
      exact ((hi.sane.write ha).held key r (World.write_table_self ..))
    · obtain ⟨hm, hkey⟩ := ht.rows v k o r he
      exact ⟨List.mem_append_right _ hm, hkey⟩
  deleted v k r he := by
    rcases List.mem_cons.mp he with he | he
    · cases he
      obtain ⟨r₀, h₀, hc⟩ := DbOp.apply_deleteLease ha
      obtain ⟨hm, hkey⟩ := hi.sane.held key r₀ h₀
      exact (hkey ▸ hi.completed r₀ hm hc : MarkedIn s.trace key).mono (List.suffix_cons _ _)
    · exact (ht.deleted v k r he).mono (List.suffix_cons _ _)

end

theorem traced_of_reachable (hsrc : D.source = contractSource) {p : FleetPool} (hp : D.Reachable K p) : Traced p.world := by
  refine Pool.Reaches.induction (I := fun p => Traced p.world) hp ?_ ?_
  · exact ⟨fun _ => rfl, fun _ _ _ _ he => by (cases he), fun _ _ _ he => by cases he⟩
  · intro r r' l hr hs ht
    have hi : LineageInv r.world := (lineageProtocol hsrc).reachable (LineageInv.init D) hr
    rcases unwritten_or_write hs with hq | ⟨w, key, op, row, ha, e⟩
    · exact ht.unwritten hq
    · rw [e]
      exact ht.write hi ha

/-! ## What a write shows -/

section
variable {C : Constants ShardId} {σ : State Worker ShardId} {w : Worker} {key : ShardId} {op : DbOp}
  {before row : Option Lease} {log : List Record}

/-- What the table, the stream and the specification are known to satisfy when a row of a shard is written. -/
structure Written (C : Constants ShardId) (σ : State Worker ShardId) (log : List Record) (w : Worker) (key : ShardId)
    (op : DbOp) (before row : Option Lease) : Prop where
  applied : op.apply key before = some row
  shaped : Shaped w key op
  shard : isShardKey key = true
  kept : op ≠ .deleteLease
  real : ∀ r ∈ log, r.seq ≠ SENTINEL_LATEST
  room : log.length < C.MaxSeq
  handoff : σ.handoffs < C.MaxHandoffs
  resting : Resting σ
  owner : σ.owner key = before.bind Lease.owner
  checkpoint : σ.checkpoint key = passed log before
  parents : op.isMarkComplete = false → ParentComplete C σ key
  forward : op.isMarkComplete = false → before ≠ none → passed log before ≤ passed log row

theorem passed_le : passed log row ≤ log.length := position_le

namespace Written

theorem lt (h : Written C σ log w key op before row) : σ.checkpoint key < C.MaxSeq := by
  rw [h.checkpoint]
  exact lt_of_le_of_lt passed_le h.room

theorem held (h : Written C σ log w key op before row) {o : Worker} {c : ℕ} (ht : op.token = some (o, c)) :
    σ.owner key = some w := by
  obtain ⟨r, hr, ho, -⟩ := DbOp.apply_token ht h.applied
  have hw : o = w := h.shaped.actor o (by cases op <;> simp_all [DbOp.token, DbOp.actor])
  rw [h.owner, hr]
  exact hw ▸ ho

theorem brings_claim (h : Written C σ log w key op before row) (hm : op.isMarkComplete = false) :
    Brings C ((before.bind Lease.owner).toList.map (fun o => .loseLease o key) ++ [.acquireLease w key]) σ key (some w)
      (σ.checkpoint key) 1 := by
  have he : Eligible C σ key := ⟨h.lt, h.parents hm⟩
  cases ho : before.bind Lease.owner with
  | none => exact (brings_acquire h.resting (h.owner.trans ho) he).mono (Nat.zero_le _)
  | some o =>
    have hboth : Brings C ([.loseLease o key] ++ [.acquireLease w key]) σ key (some w) (σ.checkpoint key) (1 + 0) := by
      refine (brings_lose h.resting (h.owner.trans ho) h.handoff).append fun σ' hr ho' hc _ => ?_
      have hsame : σ'.checkpoint = σ.checkpoint := by rw [hc, Function.update_eq_self]
      have he' : Eligible C σ' key := by
        unfold Eligible ParentComplete
        rw [hsame]
        exact he
      rw [← hsame]
      exact brings_acquire hr (by rw [ho', Function.update_self]) he'
    exact hboth

theorem brings_upTo (h : Written C σ log w key op before row) {o : Worker} {c n : ℕ} (ht : op.token = some (o, c))
    (hle : σ.checkpoint key ≤ n) (hn : n ≤ C.MaxSeq) :
    Brings C (passes w key (n - passed log before)) σ key (some w) n 1 := by
  have hn' : σ.checkpoint key + (n - σ.checkpoint key) = n := Nat.add_sub_of_le hle
  have hup := (brings_passes h.resting (h.held ht) (by rw [hn']; exact hn)).mono (Nat.zero_le 1)
  rwa [hn', h.checkpoint] at hup

theorem brings_nothing (h : Written C σ log w key op before row) (ho : row.bind Lease.owner = before.bind Lease.owner)
    (hc : passed log row = passed log before) : Brings C [] σ key (row.bind Lease.owner) (passed log row) 1 := by
  rw [ho, hc, ← h.owner, ← h.checkpoint]
  exact (Brings.nil h.resting).mono (Nat.zero_le _)

/-- The actions of a write are enabled and lead to what the row then shows. -/
theorem brings (h : Written C σ log w key op before row) :
    ∃ o n, Brings C (readWrite C.MaxSeq log w key before row op) σ key o n 1 ∧
      if op.isMarkComplete = true then n = C.MaxSeq else o = row.bind Lease.owner ∧ n = passed log row := by
  have ha := h.applied
  cases op with
  | put o =>
    obtain rfl := h.shaped.actor o rfl
    cases before with
    | some r => cases ha
    | none =>
      cases ha
      exact ⟨_, _, h.brings_claim rfl, rfl, h.checkpoint⟩
  | claim o c =>
    obtain rfl := h.shaped.actor o rfl
    cases before with
    | none => cases ha
    | some r =>
      simp only [DbOp.apply, Option.ite_none_right_eq_some, Option.some.injEq] at ha
      obtain ⟨-, rfl⟩ := ha
      exact ⟨_, _, h.brings_claim rfl, rfl, h.checkpoint⟩
  | renew o c =>
    cases before with
    | none => cases ha
    | some r =>
      simp only [DbOp.apply, Option.ite_none_right_eq_some, Option.some.injEq] at ha
      obtain ⟨-, rfl⟩ := ha
      exact ⟨_, _, h.brings_nothing rfl rfl, rfl, rfl⟩
  | checkpoint o c q =>
    obtain rfl := h.shaped.actor o rfl
    cases before with
    | none => cases ha
    | some r =>
      have hup := h.forward rfl (Option.some_ne_none r)
      simp only [DbOp.apply, Option.ite_none_right_eq_some, Option.some.injEq] at ha
      obtain ⟨hown, rfl⟩ := ha
      rw [← h.checkpoint] at hup
      refine ⟨_, _, h.brings_upTo rfl hup (le_of_lt (lt_of_le_of_lt passed_le h.room)), ?_, rfl⟩
      exact hown.2.symm
  | markComplete o c => exact ⟨_, _, h.brings_upTo rfl (le_of_lt h.lt) (le_refl _), rfl⟩
  | release o c =>
    have hown := h.held rfl
    cases before with
    | none => cases ha
    | some r =>
      simp only [DbOp.apply, Option.ite_none_right_eq_some, Option.some.injEq] at ha
      obtain ⟨-, rfl⟩ := ha
      exact ⟨_, _, brings_lose h.resting hown h.handoff, rfl, h.checkpoint⟩
  | createShardLease ps cp =>
    cases before with
    | some r => cases ha
    | none =>
      cases ha
      refine ⟨_, _, h.brings_nothing rfl ?_, rfl, rfl⟩
      rcases h.shaped.start ps cp rfl with rfl | rfl
      · rfl
      · exact position_latest h.real
  | deleteLease => exact absurd rfl h.kept
  | heartbeat o => exact absurd (h.shaped.beat o rfl) (by simp [h.shard])

end Written

end

/-! ## Runs -/

variable {C : Constants ShardId}

theorem Fits.anti {s s' : World} (h : Extends s s') (hC : Fits C s') : Fits C s where
  logs m hm := lt_of_le_of_lt (h.log m.id).length_le (hC.logs m (h.mem_metas hm))
  handoffs := le_trans h.trace.length_le hC.handoffs
  parents pr hpr m hm := hC.parents pr hpr m (h.mem_metas hm)
  retained pr hpr new old ht := by
    obtain ⟨newer, e⟩ := h.trace
    exact hC.retained pr hpr (newer ++ new) old (by rw [← e, ht, List.append_assoc])

theorem Fits.marked {s : World} (hC : Fits C s) {m : ShardMeta} (hm : m ∈ s.stream.metas)
    (hdone : ∀ p ∈ m.parents, MarkedIn s.trace p ∨ .trimmed p ∈ s.trace) {pr : ShardId × ShardId} (hpr : pr ∈ C.ParentOf)
    (hid : m.id = pr.1) : MarkedIn s.trace pr.2 := by
  rcases hdone pr.2 (hC.parents pr hpr m hm hid) with hp | hp
  · exact hp
  · obtain ⟨new, old, e⟩ := List.append_of_mem hp
    rw [e]
    exact (hC.retained pr hpr new old e).mono ((List.suffix_cons _ _).trans (List.suffix_append _ _))

theorem passed_settled {s s' : World} (hi : ProgressInv s) (hi' : ProgressInv s')
    (hlog : ∀ k, s.stream.log k <+: s'.stream.log k) {k : ShardId} {r : Lease} (hr : r ∈ s.history ∧ r.leaseKey = k) :
    passed (s'.stream.log k) (some r) = passed (s.stream.log k) (some r) := by
  obtain ⟨hm, rfl⟩ := hr
  exact (hi.rows r hm).1.position_eq (hlog r.leaseKey) (hi'.sane.real r.leaseKey)

theorem Shows.unwritten {s s' : World} {σ : State Worker ShardId} (hq : Unwritten s s') (hi : ProgressInv s) (hi' : ProgressInv s')
    (h : Shows C s σ) : Shows C s' σ where
  resting := h.resting
  owner k hk hn := by
    rw [hq.table]
    exact h.owner k hk fun hm => hn (hq.marked.mpr hm)
  checkpoint k hk hn := by
    rw [hq.table, h.checkpoint k hk fun hm => hn (hq.marked.mpr hm)]
    cases ht : s.table k with
    | none => rfl
    | some r => exact (passed_settled hi hi' hq.log (hi.sane.held k r ht)).symm
  complete k hk hm := h.complete k hk (hq.marked.mp hm)

theorem Shows.write {s : World} {σ σ' : State Worker ShardId} {w : Worker} {key : ShardId} {op : DbOp} {row : Option Lease}
    {o : Option Worker} {n : ℕ} (h : Shows C s σ) (hr : Resting σ') (ho : σ'.owner = Function.update σ.owner key o)
    (hc : σ'.checkpoint = Function.update σ.checkpoint key n)
    (hn : if op.isMarkComplete = true then n = C.MaxSeq else o = row.bind Lease.owner ∧ n = passed (s.stream.log key) row)
    (hm : ¬ MarkedIn s.trace key) : Shows C (s.write w key op row) σ' where
  resting := hr
  owner k hk hnew := by
    rw [marked_write] at hnew
    push Not at hnew
    rw [ho]
    by_cases hkey : k = key
    · subst hkey
      rw [if_neg (hnew.2 rfl)] at hn
      rw [Function.update_self, World.write_table_self]
      exact hn.1
    · rw [Function.update_of_ne hkey, World.write_table_of_ne _ hkey]
      exact h.owner k hk hnew.1
  checkpoint k hk hnew := by
    rw [marked_write] at hnew
    push Not at hnew
    rw [hc]
    by_cases hkey : k = key
    · subst hkey
      rw [if_neg (hnew.2 rfl)] at hn
      rw [Function.update_self, World.write_table_self]
      exact hn.2
    · rw [Function.update_of_ne hkey, World.write_table_of_ne _ hkey]
      exact h.checkpoint k hk hnew.1
  complete k hk hnew := by
    rw [hc]
    by_cases hkey : k = key
    · subst hkey
      have hop := ((marked_write.mp hnew).resolve_left hm).2
      rw [if_pos hop] at hn
      rw [Function.update_self, hn]
    · rw [Function.update_of_ne hkey]
      exact h.complete k hk ((marked_write.mp hnew).resolve_right fun h => hkey h.1)

theorem Shows.unread {s : World} {σ : State Worker ShardId} {w : Worker} {key : ShardId} {op : DbOp} {row : Option Lease}
    (h : Shows C s σ) (hkey : isShardKey key = true → MarkedIn s.trace key) : Shows C (s.write w key op row) σ where
  resting := h.resting
  owner k hk hnew := by
    have hn : ¬ MarkedIn s.trace k := fun hm => hnew (marked_write.mpr (Or.inl hm))
    have hne : k ≠ key := fun e => hn (e ▸ hkey (e ▸ hk))
    rw [World.write_table_of_ne _ hne]
    exact h.owner k hk hn
  checkpoint k hk hnew := by
    have hn : ¬ MarkedIn s.trace k := fun hm => hnew (marked_write.mpr (Or.inl hm))
    have hne : k ≠ key := fun e => hn (e ▸ hkey (e ▸ hk))
    rw [World.write_table_of_ne _ hne]
    exact h.checkpoint k hk hn
  complete k hk hnew := by
    refine h.complete k hk ?_
    rcases marked_write.mp hnew with hm | ⟨rfl, -⟩
    · exact hm
    · exact hkey hk

theorem specActions_congr {m : ℕ} {log log' : ShardId → List Record} : ∀ {tr : List Event},
    (∀ w k op r, Event.wrote w k op (some r) ∈ tr → passed (log' k) (some r) = passed (log k) (some r)) →
    specActions m log' tr = specActions m log tr
  | [], _ => rfl
  | e :: tr, h => by
    have ih : specActions m log' tr = specActions m log tr :=
      specActions_congr fun w k op r he => h w k op r (List.mem_cons_of_mem _ he)
    cases e with
    | wrote w key op row =>
      have hrow : passed (log' key) row = passed (log key) row := by
        cases row with
        | none => rfl
        | some r => exact h w key op r (List.mem_cons_self ..)
      have hbefore : passed (log' key) (lastRow tr key) = passed (log key) (lastRow tr key) := by
        cases hl : lastRow tr key with
        | none => rfl
        | some r =>
          obtain ⟨v, o, he⟩ := lastRow_mem hl
          exact h v key o r (List.mem_cons_of_mem _ he)
      have hread : readWrite m (log' key) w key (lastRow tr key) row op =
          readWrite m (log key) w key (lastRow tr key) row op := by
        cases op <;> simp only [readWrite, hrow, hbefore]
      simp only [specActions, ih, hread]
    | _ => exact ih

theorem DbOp.apply_row {key : ShardId} {op : DbOp} {before row : Option Lease} (h : op.apply key before = some row)
    (hd : op ≠ .deleteLease) : ∃ r, row = some r := by
  cases before with
  | some r =>
    obtain ⟨r', e, -⟩ := DbOp.apply_some h hd
    exact ⟨r', e⟩
  | none => cases op <;> cases h <;> exact ⟨_, rfl⟩

section
variable {s : World} {σ : State Worker ShardId} {w : Worker} {key : ShardId} {op : DbOp} {row : Option Lease}

theorem written (hl : LineageInv (s.write w key op row)) (hf : Forest (s.write w key op row))
    (hp : Progress s (s.write w key op row)) (ht : Traced (s.write w key op row)) (hw : AllShaped (s.write w key op row))
    (hC : Fits C (s.write w key op row)) (h : Shows C s σ) (hh : σ.handoffs ≤ s.trace.length)
    (ha : op.apply key (s.table key) = some row) (hk : isShardKey key = true) (hm : ¬ MarkedIn s.trace key) :
    Written C σ (s.stream.log key) w key op (s.table key) row := by
  have hkept : op ≠ .deleteLease := by
    rintro rfl
    rcases marked_write.mp (ht.deleted w key row (List.mem_cons_self ..)) with hd | ⟨-, hd⟩
    · exact hm hd
    · cases hd
  obtain ⟨r, rfl⟩ := DbOp.apply_row ha hkept
  obtain ⟨hr, hkey⟩ := hl.sane.held key r (World.write_table_self ..)
  obtain ⟨m, hmem, hid, hdone⟩ := (hkey ▸ hl.rows r hr : Gate _ key) hk (hl.listings hf)
  refine ⟨ha, hw _ _ _ _ (List.mem_cons_self ..), hk, hkept, hl.sane.real key, ?_, ?_, h.resting, h.owner key hk hm,
    h.checkpoint key hk hm, ?_, ?_⟩
  · exact hid ▸ hC.logs m hmem
  · exact lt_of_le_of_lt hh (lt_of_lt_of_le (Nat.lt_succ_self _) hC.handoffs)
  · intro hop pr hpr hid'
    have hmarked := hC.marked hmem hdone hpr (hid.trans hid'.symm)
    have hpar := hC.parents pr hpr m hmem (hid.trans hid'.symm)
    obtain ⟨m', hm', hid''⟩ := List.mem_map.mp (hl.sane.parents m hmem pr.2 hpar)
    refine h.complete pr.2 (hid'' ▸ hl.sane.shardKey m' hm') ((marked_write.mp hmarked).resolve_right ?_)
    rintro ⟨-, hop'⟩
    rw [hop] at hop'
    cases hop'
  · intro hop hne
    obtain ⟨r₀, h₀⟩ := Option.ne_none_iff_exists'.mp hne
    have hnd : NotDeleted (s.write w key op (some r)) key := by
      intro v row he
      rcases marked_write.mp (ht.deleted v key row he) with hd | ⟨-, hd⟩
      · exact hm hd
      · rw [hop] at hd
        cases hd
    obtain ⟨r', hr', hle⟩ := hp.2 key hnd r₀ h₀
    rw [World.write_table_self] at hr'
    cases hr'
    rw [h₀]
    exact hle.forward

theorem write_simulated (hl : LineageInv (s.write w key op row)) (hf : Forest (s.write w key op row))
    (hp : Progress s (s.write w key op row)) (ht : Traced (s.write w key op row)) (hw : AllShaped (s.write w key op row))
    (hC : Fits C (s.write w key op row)) (h : Shows C s σ) (hh : σ.handoffs ≤ s.trace.length)
    (htable : s.table key = lastRow s.trace key) (ha : op.apply key (s.table key) = some row) {σ₀ : State Worker ShardId}
    (hrun : performAll C (specActions C.MaxSeq s.stream.log s.trace) σ₀ = some σ) :
    ∃ σ', performAll C (specActions C.MaxSeq s.stream.log (s.write w key op row).trace) σ₀ = some σ' ∧
      Shows C (s.write w key op row) σ' ∧ σ'.handoffs ≤ (s.write w key op row).trace.length := by
  have hsplit : specActions C.MaxSeq s.stream.log (s.write w key op row).trace =
      specActions C.MaxSeq s.stream.log s.trace ++ if isShardKey key = true ∧ s.trace.any (Event.marks key) = false then
        readWrite C.MaxSeq (s.stream.log key) w key (s.table key) row op else [] := by
    rw [htable]
    rfl
  rw [hsplit, performAll_append, hrun]
  by_cases hread : isShardKey key = true ∧ s.trace.any (Event.marks key) = false
  · obtain ⟨hk, hany⟩ := hread
    have hm : ¬ MarkedIn s.trace key := fun hm => by
      rw [marked_iff_any.mpr hm] at hany
      cases hany
    obtain ⟨o, n, ⟨σ', hperf, hr, ho, hc, hh'⟩, hn⟩ := (written hl hf hp ht hw hC h hh ha hk hm).brings
    refine ⟨σ', ?_, h.write hr ho hc hn hm, le_trans hh' (Nat.succ_le_succ hh)⟩
    rw [if_pos ⟨hk, hany⟩]
    exact hperf
  · refine ⟨σ, by rw [if_neg hread]; rfl, h.unread fun hk => ?_, le_trans hh (Nat.le_succ _)⟩
    rw [not_and] at hread
    exact marked_iff_any.mp (by simpa using hread hk)

end

/-- The fleet runs the specification up to the completion marks. Whatever the workers do, their writes to the row of a
shard until it is marked complete are actions of `Multiplexing.tla`, each of them enabled in its turn. They lead to a
state with the owners and the checkpoints of the shards not marked, for which all that is safe in the specification
holds. -/
theorem table_runs_specification (hK : K.Forward) (hsrc : D.source = contractSource)
    (hdef : ∀ w, (D.config w).deferred = false) {p : FleetPool} (hp : D.Reachable K p) (hf : Forest p.world)
    (hC : Fits C p.world) :
    ∃ σ, performAll C (specActions C.MaxSeq p.world.stream.log p.world.trace) State.init = some σ ∧ Shows C p.world σ ∧
      Safe C σ := by
  have hrun : Forest p.world → Fits C p.world → ∃ σ,
      performAll C (specActions C.MaxSeq p.world.stream.log p.world.trace) State.init = some σ ∧ Shows C p.world σ ∧
        σ.handoffs ≤ p.world.trace.length := by
    refine Pool.Reaches.induction (I := fun p => Forest p.world → Fits C p.world → ∃ σ,
      performAll C (specActions C.MaxSeq p.world.stream.log p.world.trace) State.init = some σ ∧ Shows C p.world σ ∧
        σ.handoffs ≤ p.world.trace.length) hp ?_ ?_
    · intro _ _
      refine ⟨State.init, rfl, ⟨⟨fun _ => rfl, fun _ => rfl, fun _ => le_refl _⟩, fun _ _ _ => rfl, fun _ _ _ => rfl, ?_⟩,
        le_refl _⟩
      rintro k - ⟨w, o, c, row, he⟩
      cases he
    · intro r r' l hr hs ih hf hC
      have hr' : D.Reachable K r' := hr.trans _ ⟨[l], by simp [Pool.run, hs]⟩
      have hstep : r.Reaches (D.machine K) r' := ⟨[l], by simp [Pool.run, hs]⟩
      have hle : Progress r.world r'.world := (progressProtocol hK hsrc hdef).le_of_reaches (ProgressInv.init D) hr hstep
      have hi : ProgressInv r.world := (progressProtocol hK hsrc hdef).reachable (ProgressInv.init D) hr
      have hi' : ProgressInv r'.world := (progressProtocol hK hsrc hdef).reachable (ProgressInv.init D) hr'
      have hl : LineageInv r'.world := (lineageProtocol hsrc).reachable (LineageInv.init D) hr'
      obtain ⟨σ, hperf, hshow, hh⟩ := ih (hf.anti hle.1) (hC.anti hle.1)
      have ht := traced_of_reachable hsrc hr
      rcases unwritten_or_write hs with hq | ⟨w, key, op, row, ha, e⟩
      · refine ⟨σ, ?_, hshow.unwritten hq hi hi', le_trans hh hq.suffix.length_le⟩
        rw [hq.specActions, specActions_congr fun w k op r he => passed_settled hi hi' hq.log (ht.rows w k op r he)]
        exact hperf
      · have ht' := traced_of_reachable hsrc hr'
        have hw := allShaped_of_reachable hsrc hr'
        rw [e] at hl hf hle ht' hw hC ⊢
        exact write_simulated hl hf hle ht' hw hC hshow hh (ht.table key) ha hperf
  obtain ⟨σ, hperf, hshow, -⟩ := hrun hf hC
  exact ⟨σ, hperf, hshow, (reachable_of_performAll .init hperf).inv.safe⟩

def splitConstants : Constants ShardId := ⟨{("child", "root")}, 3, 1, 0, 14, by decide, by decide⟩

def Event.isTrim : Event → Bool
  | .trimmed _ => true
  | _ => false

theorem splitShard_fits : Fits splitConstants splitShard.world where
  logs := by
    rw [splitShard_metas]
    decide +kernel
  handoffs := by decide +kernel
  parents := by
    rw [splitShard_metas]
    decide
  retained pr _ new old e := by
    have htrim : splitShard.world.trace.any Event.isTrim = false := by decide +kernel
    rw [e] at htrim
    simp [Event.isTrim] at htrim

theorem table_runs_specification_split :
    specActions 3 splitShard.world.stream.log splitShard.world.trace =
      .acquireLease "a" "root" :: passes "a" "root" 3 ++ .acquireLease "a" "child" :: passes "a" "child" 1 ∧
      ∃ σ, performAll splitConstants (specActions 3 splitShard.world.stream.log splitShard.world.trace) State.init = some σ ∧
        Shows splitConstants splitShard.world σ ∧ Safe splitConstants σ :=
  ⟨by decide +kernel, table_runs_specification exactContract_forward rfl (fun _ => rfl) splitShard_reachable
    splitShard_forest splitShard_fits⟩

end Multiplexing

end StreamsConsumer
