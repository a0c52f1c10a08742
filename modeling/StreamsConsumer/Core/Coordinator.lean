import Mathlib.Data.List.Dedup
import StreamsConsumer.Core.Lease

/-!
# Taking leases

`compute_leases_to_take` of `core/src/taker.rs` and the stateful
`LeaseCoordinator` of `core/src/coordinator.rs` that feeds it. Where the
source iterates a hash map, the iteration order is an argument: a list of
keys that come first, in that order.
-/

namespace StreamsConsumer

/-- The elements of a map with unique keys in the iteration order `order`. -/
def hashIter {α : Type} (order : List String) (key : α → String) (xs : List α) : List α :=
  (order.dedup.filterMap fun k => xs.find? fun x => key x = k) ++ xs.filter fun x => !order.contains (key x)

theorem mem_of_mem_hashIter {α : Type} {order : List String} {key : α → String} {xs : List α} {x : α}
    (h : x ∈ hashIter order key xs) : x ∈ xs := by
  unfold hashIter at h
  rcases List.mem_append.mp h with h | h
  · obtain ⟨k, _, hk⟩ := List.mem_filterMap.mp h
    exact List.mem_of_find?_eq_some hk
  · exact (List.mem_filter.mp h).1

theorem mem_hashIter {α : Type} {order : List String} {key : α → String} {xs : List α} {x : α}
    (hn : (xs.map key).Nodup) (h : x ∈ xs) : x ∈ hashIter order key xs := by
  unfold hashIter
  by_cases ho : key x ∈ order
  · refine List.mem_append_left _ (List.mem_filterMap.mpr ⟨key x, List.mem_dedup.mpr ho, ?_⟩)
    cases hf : xs.find? fun y => key y = key x with
    | none =>
      have := List.find?_eq_none.mp hf x h
      simp at this
    | some y =>
      have hy : key y = key x := by simpa using List.find?_some hf
      rw [List.inj_on_of_nodup_map hn (List.mem_of_find?_eq_some hf) h hy]
  · exact List.mem_append_right _ (List.mem_filter.mpr ⟨h, by simpa using ho⟩)

structure LeaseSnapshot where
  leaseKey : ShardId
  owner : Option Worker
  expired : Bool
  completed : Bool
  deriving DecidableEq, Repr

def sortByKey (ls : List LeaseSnapshot) : List LeaseSnapshot :=
  ls.insertionSort fun a b => a.leaseKey ≤ b.leaseKey

/-- The loop that pushes keys while more leases are needed and the cap allows it: what is still
needed, and the keys taken so far. -/
def pushKeys (maxToTake : Nat) : List LeaseSnapshot → Nat → List ShardId → Nat × List ShardId
  | [], need, take => (need, take)
  | l :: ls, need, take =>
    if need = 0 ∨ take.length = maxToTake then (need, take)
    else pushKeys maxToTake ls (need - 1) (take ++ [l.leaseKey])

/-- `max_by_key` over the counts: the last of the largest. -/
def mostLoaded : List (Worker × Nat) → Option (Worker × Nat)
  | [] => none
  | c :: cs => some (cs.foldl (fun best x => if best.2 ≤ x.2 then x else best) c)

theorem mem_of_mostLoaded {cs : List (Worker × Nat)} {c : Worker × Nat} (h : mostLoaded cs = some c) : c ∈ cs := by
  have hfold : ∀ (xs : List (Worker × Nat)) (b : Worker × Nat),
      xs.foldl (fun best x => if best.2 ≤ x.2 then x else best) b ∈ b :: xs := by
    intro xs
    induction xs with
    | nil => simp
    | cons x xs ih =>
      intro b
      rw [List.foldl_cons]
      by_cases hb : b.2 ≤ x.2
      · rw [if_pos hb]
        exact List.mem_cons_of_mem _ (ih x)
      · rw [if_neg hb]
        rcases List.mem_cons.mp (ih b) with hx | hx
        · simp [hx]
        · exact List.mem_cons_of_mem _ (List.mem_cons_of_mem _ hx)
  cases cs with
  | nil => cases h
  | cons x xs =>
    simp only [mostLoaded, Option.some.injEq] at h
    exact h ▸ hfold xs x

theorem le_mostLoaded {cs : List (Worker × Nat)} {c x : Worker × Nat} (h : mostLoaded cs = some c) (hx : x ∈ cs) :
    x.2 ≤ c.2 := by
  have hfold : ∀ (xs : List (Worker × Nat)) (b y : Worker × Nat), y ∈ b :: xs →
      y.2 ≤ (xs.foldl (fun best x => if best.2 ≤ x.2 then x else best) b).2 := by
    intro xs
    induction xs with
    | nil => simp
    | cons z zs ih =>
      intro b y hy
      rw [List.foldl_cons]
      by_cases hb : b.2 ≤ z.2
      · rw [if_pos hb]
        rcases List.mem_cons.mp hy with rfl | hy
        · exact hb.trans (ih z z List.mem_cons_self)
        · exact ih z y hy
      · rw [if_neg hb]
        have hbest := ih b b List.mem_cons_self
        rcases List.mem_cons.mp hy with rfl | hy
        · exact hbest
        rcases List.mem_cons.mp hy with rfl | hy
        · omega
        · exact ih b y (List.mem_cons_of_mem _ hy)
  cases cs with
  | nil => cases h
  | cons y ys =>
    simp only [mostLoaded, Option.some.injEq] at h
    exact h ▸ hfold ys y x hx

def ownerCounts (active : List LeaseSnapshot) (me : Worker) : List (Worker × Nat) :=
  let owners := (active.filter fun l => !l.expired).filterMap LeaseSnapshot.owner |>.filter (· ≠ me)
  owners.dedup.map fun o => (o, owners.count o)

def computeLeasesToTake (order : List Worker) (leases : List LeaseSnapshot) (me : Worker)
    (maxToTake : Nat) : List ShardId :=
  let active := leases.filter fun l => !l.completed
  if active.isEmpty || maxToTake == 0 then []
  else
    let workers := (me :: (active.filter fun l => !l.expired).filterMap LeaseSnapshot.owner).dedup
    let target := (active.length + workers.length - 1) / workers.length
    let myCurrent := (active.filter fun l => !l.expired && l.owner == some me).length
    if target ≤ myCurrent then []
    else
      let available := (active.filter fun l => l.owner != some me).filter fun l => l.owner.isNone || l.expired
      let (need, take) := pushKeys maxToTake (sortByKey available) (target - myCurrent) []
      if 0 < need ∧ take.length < maxToTake then
        match mostLoaded (hashIter order Prod.fst (ownerCounts active me)) with
        | none => take
        | some (victim, count) =>
          if target < count then
            let victimLeases := active.filter fun l => !l.expired && l.owner == some victim
            (pushKeys maxToTake ((sortByKey victimLeases).take (count - target)) need take).2
          else take
      else take

structure Seen where
  counter : Nat
  lastChangeMs : Nat
  deriving DecidableEq, Repr

structure LeaseCoordinator where
  me : Worker
  maxTake : Nat
  leaseDurationMs : Nat
  seen : Worker → Option Seen

namespace LeaseCoordinator

def new (me : Worker) (maxTake leaseDurationMs : Nat) : LeaseCoordinator :=
  ⟨me, maxTake, leaseDurationMs, fun _ => none⟩

def noteHeartbeat (nowMs : Nat) (seen : Worker → Option Seen) (r : Lease) : Worker → Option Seen :=
  match r.owner with
  | none => seen
  | some worker =>
    match seen worker with
    | some s =>
      if r.leaseCounter ≠ s.counter then Function.update seen worker (some ⟨r.leaseCounter, nowMs⟩) else seen
    | none => Function.update seen worker (some ⟨r.leaseCounter, nowMs⟩)

def seedGrace (me : Worker) (nowMs : Nat) (seen : Worker → Option Seen) (r : Lease) : Worker → Option Seen :=
  match r.owner with
  | none => seen
  | some o =>
    if o = me then seen
    else
      match seen o with
      | some _ => seen
      | none => Function.update seen o (some ⟨0, nowMs⟩)

def observe (c : LeaseCoordinator) (rows : List Lease) (nowMs : Nat) : LeaseCoordinator :=
  let seen := (rows.filter fun r => isHeartbeatKey r.leaseKey).foldl (noteHeartbeat nowMs) c.seen
  let seen := (rows.filter fun r => !isHeartbeatKey r.leaseKey).foldl (seedGrace c.me nowMs) seen
  let live := rows.filterMap Lease.owner
  { c with seen := fun w => if live.contains w then seen w else none }

def isOwnerExpired (c : LeaseCoordinator) (owner : Option Worker) (nowMs : Nat) : Bool :=
  match owner with
  | none => false
  | some o =>
    if o = c.me then false
    else
      match c.seen o with
      | some s => decide (c.leaseDurationMs < nowMs - s.lastChangeMs)
      | none => false

def snapshot (c : LeaseCoordinator) (rows : List Lease) (nowMs : Nat) : List LeaseSnapshot :=
  (rows.filter fun r => !isHeartbeatKey r.leaseKey).map fun r =>
    ⟨r.leaseKey, r.owner, c.isOwnerExpired r.owner nowMs, r.completed⟩

def tick (order : List Worker) (c : LeaseCoordinator) (rows : List Lease) (nowMs : Nat) :
    List ShardId × LeaseCoordinator :=
  let c := c.observe rows nowMs
  (computeLeasesToTake order (c.snapshot rows nowMs) c.me c.maxTake, c)

end LeaseCoordinator

/-! ## Only keys of the scan are taken -/

theorem mem_pushKeys {maxToTake : Nat} : ∀ {ls : List LeaseSnapshot} {need : Nat} {take : List ShardId}
    {k : ShardId}, k ∈ (pushKeys maxToTake ls need take).2 → k ∈ take ∨ ∃ l ∈ ls, l.leaseKey = k
  | [], _, _, _, h => Or.inl h
  | l :: ls, need, take, k, h => by
    unfold pushKeys at h
    split at h
    · exact Or.inl h
    rcases mem_pushKeys h with h | ⟨l', hl', rfl⟩
    · rcases List.mem_append.mp h with h | h
      · exact Or.inl h
      · refine Or.inr ⟨l, by simp, ?_⟩
        simpa using (List.mem_singleton.mp h).symm
    · exact Or.inr ⟨l', List.mem_cons_of_mem _ hl', rfl⟩

theorem mem_sortByKey {l : LeaseSnapshot} {ls : List LeaseSnapshot} : l ∈ sortByKey ls ↔ l ∈ ls := by
  unfold sortByKey
  exact List.mem_insertionSort _

theorem mem_computeLeasesToTake {order : List Worker} {leases : List LeaseSnapshot} {me : Worker}
    {maxToTake : Nat} {k : ShardId} (h : k ∈ computeLeasesToTake order leases me maxToTake) :
    ∃ l ∈ leases, l.leaseKey = k ∧ l.completed = false := by
  unfold computeLeasesToTake at h
  simp only at h
  split at h
  · cases h
  split at h
  · cases h
  have hact : ∀ l ∈ leases.filter (fun l => !l.completed), ∃ l' ∈ leases, l'.leaseKey = l.leaseKey ∧
      l'.completed = false := by
    intro l hl
    obtain ⟨hl, hc⟩ := List.mem_filter.mp hl
    exact ⟨l, hl, rfl, by simpa using hc⟩
  -- the first loop pushes available leases, the second leases of the victim
  have havail : ∀ need k', k' ∈ (pushKeys maxToTake (sortByKey (((leases.filter fun l => !l.completed).filter
      fun l => l.owner != some me).filter fun l => l.owner.isNone || l.expired)) need []).2 →
      ∃ l ∈ leases, l.leaseKey = k' ∧ l.completed = false := by
    intro need k' hk'
    rcases mem_pushKeys hk' with hk' | ⟨l, hl, rfl⟩
    · cases hk'
    · have hl' := mem_sortByKey.mp hl
      exact hact l (List.mem_filter.mp (List.mem_filter.mp hl').1).1
  split at h
  · split at h
    · exact havail _ k h
    · split at h
      · rcases mem_pushKeys h with h | ⟨l, hl, rfl⟩
        · exact havail _ k h
        · have hl' := mem_sortByKey.mp (List.mem_of_mem_take hl)
          exact hact l (List.mem_filter.mp hl').1
      · exact havail _ k h
  · exact havail _ k h

theorem mem_tick {order : List Worker} {c : LeaseCoordinator} {rows : List Lease} {nowMs : Nat} {k : ShardId}
    (h : k ∈ (c.tick order rows nowMs).1) :
    ∃ r ∈ rows, r.leaseKey = k ∧ r.completed = false ∧ isHeartbeatKey k = false := by
  unfold LeaseCoordinator.tick at h
  obtain ⟨l, hl, rfl, hc⟩ := mem_computeLeasesToTake h
  unfold LeaseCoordinator.snapshot at hl
  simp only [List.mem_map, List.mem_filter] at hl
  obtain ⟨r, ⟨hr, hk⟩, rfl⟩ := hl
  exact ⟨r, hr, rfl, hc, by simpa using hk⟩

end StreamsConsumer
