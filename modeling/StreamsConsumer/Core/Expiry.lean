import Mathlib.Data.List.DropRight
import StreamsConsumer.Core.Coordinator

/-!
# Expiry over the whole history

A coordinator keeps one `Seen` for each worker and updates it in three passes
over the rows of a tick. `expiry_of_history` says what that comes to: when an
owner counts as expired, in terms of all the rows that were ever scanned.
-/

namespace StreamsConsumer

structure Tick where
  rows : List Lease
  nowMs : Nat

/-! ## The history -/

def ownsRow (o : Worker) (t : Tick) : Bool := t.rows.any fun r => r.owner == some o

def beatRows (o : Worker) (t : Tick) : List Lease := t.rows.filter fun r => isHeartbeatKey r.leaseKey && r.owner == some o

def beatOf (o : Worker) (t : Tick) : Option Nat := (beatRows o t).head?.map Lease.leaseCounter

/-- The unbroken run of ticks up to the last one in which `o` owned a row. -/
def unbroken (o : Worker) (ticks : List Tick) : List Tick := ticks.rtakeWhile (ownsRow o)

def lastBeat (o : Worker) (run : List Tick) : Option Nat := (run.filterMap (beatOf o)).getLast?

/-- At tick `i` of the run the heartbeat counter differs from the last one seen before. -/
def isChange (o : Worker) (run : List Tick) (i : Nat) : Bool :=
  match (run[i]?).bind (beatOf o) with
  | some c => decide (lastBeat o (run.take i) ≠ some c)
  | none => false

/-- The latest tick of the run with such a change, or its first tick. -/
def latestChange (o : Worker) (run : List Tick) : Nat :=
  ((List.range run.length).filter (isChange o run)).getLast?.getD 0

def aliveSince (o : Worker) (ticks : List Tick) : Option Nat :=
  ((unbroken o ticks)[latestChange o (unbroken o ticks)]?).map Tick.nowMs

def LeaseCoordinator.after (c : LeaseCoordinator) (ticks : List Tick) : LeaseCoordinator :=
  ticks.foldl (fun c t => c.observe t.rows t.nowMs) c

/-- Expired by the history alone. -/
def expiredByHistory (me : Worker) (durationMs : Nat) (ticks : List Tick) (nowMs : Nat) : Option Worker → Bool
  | none => false
  | some o => decide (o ≠ me) && (aliveSince o ticks).any fun t => decide (durationMs < nowMs - t)

/-- Each worker owns at most one heartbeat row, and heartbeat counters start at one. -/
structure Beating (t : Tick) : Prop where
  one : ∀ o, (beatRows o t).length ≤ 1
  positive : ∀ r ∈ t.rows, isHeartbeatKey r.leaseKey = true → 1 ≤ r.leaseCounter

/-! ## One tick -/

section
variable {o me : Worker} {nowMs : Nat} {seen : Worker → Option Seen}

def noteBeat (nowMs : Nat) (s : Option Seen) (counter : Nat) : Option Seen :=
  match s with
  | some s => if counter ≠ s.counter then some ⟨counter, nowMs⟩ else some s
  | none => some ⟨counter, nowMs⟩

theorem noteHeartbeat_self {r : Lease} (h : r.owner = some o) :
    LeaseCoordinator.noteHeartbeat nowMs seen r o = noteBeat nowMs (seen o) r.leaseCounter := by
  unfold LeaseCoordinator.noteHeartbeat noteBeat
  simp only [h]
  cases hs : seen o with
  | none => simp
  | some s =>
    by_cases hc : r.leaseCounter = s.counter
    · simp [hc, hs]
    · simp [hc]

theorem noteHeartbeat_other {r : Lease} (h : r.owner ≠ some o) : LeaseCoordinator.noteHeartbeat nowMs seen r o = seen o := by
  unfold LeaseCoordinator.noteHeartbeat
  cases hr : r.owner with
  | none => rfl
  | some w =>
    have hne : o ≠ w := by
      intro e
      rw [hr, e] at h
      exact h rfl
    simp only
    cases seen w with
    | none => simp [hne]
    | some s =>
      simp only
      split
      · simp [hne]
      · rfl

theorem foldl_noteHeartbeat (rows : List Lease) (seen : Worker → Option Seen) :
    rows.foldl (LeaseCoordinator.noteHeartbeat nowMs) seen o =
      ((rows.filter fun r => r.owner == some o).map Lease.leaseCounter).foldl (noteBeat nowMs) (seen o) := by
  induction rows generalizing seen with
  | nil => rfl
  | cons r rows ih =>
    rw [List.foldl_cons, ih]
    by_cases h : r.owner = some o
    · rw [noteHeartbeat_self h]
      simp [h]
    · rw [noteHeartbeat_other h]
      simp [h]

theorem seedGrace_other {r : Lease} (h : r.owner ≠ some o) : LeaseCoordinator.seedGrace me nowMs seen r o = seen o := by
  unfold LeaseCoordinator.seedGrace
  cases hr : r.owner with
  | none => rfl
  | some w =>
    have hne : o ≠ w := by
      intro e
      rw [hr, e] at h
      exact h rfl
    simp only
    split
    · rfl
    · cases seen w <;> simp [hne]

theorem seedGrace_self {r : Lease} (h : r.owner = some o) (hme : o ≠ me) :
    LeaseCoordinator.seedGrace me nowMs seen r o = some ((seen o).getD ⟨0, nowMs⟩) := by
  unfold LeaseCoordinator.seedGrace
  simp only [h, hme, if_false]
  cases hs : seen o <;> simp [hs]

theorem foldl_seedGrace (hme : o ≠ me) (rows : List Lease) (seen : Worker → Option Seen) :
    rows.foldl (LeaseCoordinator.seedGrace me nowMs) seen o =
      if rows.any fun r => r.owner == some o then some ((seen o).getD ⟨0, nowMs⟩) else seen o := by
  induction rows generalizing seen with
  | nil => simp
  | cons r rows ih =>
    rw [List.foldl_cons, ih]
    by_cases h : r.owner = some o
    · rw [seedGrace_self h hme]
      simp [h]
    · rw [seedGrace_other h]
      simp [h]

def nextSeen (o : Worker) (s : Option Seen) (t : Tick) : Option Seen :=
  if ownsRow o t then
    match beatOf o t with
    | some c => noteBeat t.nowMs s c
    | none => some (s.getD ⟨0, t.nowMs⟩)
  else none

theorem seen_observe {c : LeaseCoordinator} {t : Tick} (hme : o ≠ c.me) (hone : (beatRows o t).length ≤ 1) :
    (c.observe t.rows t.nowMs).seen o = nextSeen o (c.seen o) t := by
  have hlive : (t.rows.filterMap Lease.owner).contains o = ownsRow o t := by
    rw [Bool.eq_iff_iff]
    simp [ownsRow]
  have hbeats : (t.rows.filter fun r => isHeartbeatKey r.leaseKey).filter (fun r => r.owner == some o) = beatRows o t := by
    rw [List.filter_filter, beatRows]
    congr 1
    funext r
    rw [Bool.and_comm]
  simp only [LeaseCoordinator.observe, hlive, nextSeen]
  by_cases hown : ownsRow o t = true
  · rw [if_pos hown, if_pos hown, foldl_seedGrace hme, foldl_noteHeartbeat, hbeats]
    match hb : beatRows o t, hone with
    | [], _ =>
      -- without a heartbeat row, `o` owns one of the others
      have hany : ((t.rows.filter fun r => !isHeartbeatKey r.leaseKey).any fun r => r.owner == some o) = true := by
        obtain ⟨r, hr, ho⟩ := List.any_eq_true.mp hown
        refine List.any_eq_true.mpr ⟨r, List.mem_filter.mpr ⟨hr, ?_⟩, ho⟩
        by_contra hk
        have hmem : r ∈ beatRows o t := List.mem_filter.mpr ⟨hr, by simpa [ho] using hk⟩
        rw [hb] at hmem
        cases hmem
      simp [hany, beatOf, hb]
    | [r], _ =>
      have hsome : noteBeat t.nowMs (c.seen o) r.leaseCounter ≠ none := by
        unfold noteBeat
        split
        · split <;> simp
        · simp
      obtain ⟨s, hs⟩ := Option.ne_none_iff_exists'.mp hsome
      simp [beatOf, hb, hs]
  · rw [if_neg hown, if_neg hown]

end

/-! ## All ticks -/

section
variable {o : Worker} {run ticks : List Tick} {t : Tick}

theorem isChange_append {i : Nat} (hi : i < run.length) : isChange o (run ++ [t]) i = isChange o run i := by
  unfold isChange
  rw [List.getElem?_append_left hi, List.take_append_of_le_length hi.le]

theorem isChange_last : isChange o (run ++ [t]) run.length =
    match beatOf o t with
    | some c => decide (lastBeat o run ≠ some c)
    | none => false := by
  unfold isChange
  simp

theorem latestChange_lt (h : run ≠ []) : latestChange o run < run.length := by
  have hpos : 0 < run.length := List.length_pos_of_ne_nil h
  unfold latestChange
  cases hl : ((List.range run.length).filter (isChange o run)).getLast? with
  | none => exact hpos
  | some i => exact List.mem_range.mp (List.mem_filter.mp (List.mem_of_getLast? hl)).1

theorem latestChange_append : latestChange o (run ++ [t]) =
    if isChange o (run ++ [t]) run.length then run.length else latestChange o run := by
  have hold : (List.range run.length).filter (isChange o (run ++ [t])) = (List.range run.length).filter (isChange o run) :=
    List.filter_congr fun i hi => isChange_append (List.mem_range.mp hi)
  unfold latestChange
  rw [List.length_append, List.length_singleton, List.range_succ, List.filter_append, hold]
  by_cases h : isChange o (run ++ [t]) run.length = true
  · simp [h]
  · simp [h]

theorem lastBeat_append : lastBeat o (run ++ [t]) = (beatOf o t).or (lastBeat o run) := by
  unfold lastBeat
  cases h : beatOf o t <;> simp [h]

theorem unbroken_append : unbroken o (ticks ++ [t]) = if ownsRow o t then unbroken o ticks ++ [t] else [] :=
  List.rtakeWhile_concat ..

/-- What the history says of a worker. -/
def historySeen (o : Worker) (ticks : List Tick) : Option Seen :=
  (aliveSince o ticks).map fun t => ⟨(lastBeat o (unbroken o ticks)).getD 0, t⟩

theorem aliveSince_append (hown : ownsRow o t = true) : aliveSince o (ticks ++ [t]) =
    if isChange o (unbroken o ticks ++ [t]) (unbroken o ticks).length then some t.nowMs
    else some ((aliveSince o ticks).getD t.nowMs) := by
  unfold aliveSince
  rw [unbroken_append, if_pos hown, latestChange_append]
  generalize unbroken o ticks = run
  by_cases hc : isChange o (run ++ [t]) run.length = true
  · rw [if_pos hc, if_pos hc]
    simp
  · rw [if_neg hc, if_neg hc]
    by_cases hrun : run = []
    · subst hrun
      simp [latestChange]
    · have hlt := latestChange_lt (o := o) hrun
      rw [List.getElem?_append_left hlt, List.getElem?_eq_getElem hlt]
      rfl

theorem aliveSince_none (h : aliveSince o ticks = none) : unbroken o ticks = [] := by
  by_contra hrun
  have hlt := latestChange_lt (o := o) hrun
  unfold aliveSince at h
  rw [List.getElem?_eq_getElem hlt] at h
  cases h

theorem historySeen_append (hb : Beating t) : historySeen o (ticks ++ [t]) = nextSeen o (historySeen o ticks) t := by
  unfold nextSeen
  by_cases hown : ownsRow o t = true
  · rw [if_pos hown]
    unfold historySeen
    rw [aliveSince_append hown, isChange_last, unbroken_append, if_pos hown, lastBeat_append]
    cases hbeat : beatOf o t with
    | none =>
      cases hs : aliveSince o ticks with
      | none => simp [aliveSince_none hs, lastBeat]
      | some s => simp
    | some c =>
      have hc : 1 ≤ c := by
        obtain ⟨r, hr, rfl⟩ := Option.map_eq_some_iff.mp hbeat
        have hmem := List.mem_filter.mp (List.mem_of_mem_head? hr)
        simp only [Bool.and_eq_true] at hmem
        exact hb.positive r hmem.1 hmem.2.1
      -- zero stands for no counter at all
      have hdiff : lastBeat o (unbroken o ticks) ≠ some c ↔ c ≠ (lastBeat o (unbroken o ticks)).getD 0 := by
        cases lastBeat o (unbroken o ticks) with
        | none => simp; omega
        | some d => simp [eq_comm]
      cases hs : aliveSince o ticks with
      | none => simp [aliveSince_none hs, lastBeat, noteBeat]
      | some s =>
        simp only [hdiff, decide_eq_true_eq, Option.map_some, noteBeat]
        by_cases hne : c = (lastBeat o (unbroken o ticks)).getD 0
        · simp [hne]
        · simp [hne]
  · rw [if_neg hown]
    unfold historySeen aliveSince
    rw [unbroken_append, if_neg hown]
    rfl

theorem LeaseCoordinator.after_append (c : LeaseCoordinator) : c.after (ticks ++ [t]) = (c.after ticks).observe t.rows t.nowMs := by
  simp [LeaseCoordinator.after]

theorem LeaseCoordinator.after_new (me : Worker) (maxTake dur : Nat) (ticks : List Tick) :
    ((new me maxTake dur).after ticks).me = me ∧ ((new me maxTake dur).after ticks).leaseDurationMs = dur ∧
      ((new me maxTake dur).after ticks).maxTake = maxTake := by
  induction ticks using List.reverseRecOn with
  | nil => exact ⟨rfl, rfl, rfl⟩
  | append_singleton ticks t ih =>
    rw [after_append]
    exact ih

/-- What a coordinator remembers of another worker is what the history says. -/
theorem seen_after {me : Worker} {maxTake dur : Nat} (hme : o ≠ me) (hb : ∀ t ∈ ticks, Beating t) :
    ((LeaseCoordinator.new me maxTake dur).after ticks).seen o = historySeen o ticks := by
  induction ticks using List.reverseRecOn with
  | nil => rfl
  | append_singleton ticks t ih =>
    have hlast : Beating t := hb t (by simp)
    have hme' : o ≠ ((LeaseCoordinator.new me maxTake dur).after ticks).me := by
      rw [(LeaseCoordinator.after_new me maxTake dur ticks).1]
      exact hme
    rw [LeaseCoordinator.after_append, seen_observe hme' (hlast.one o), ih fun t ht => hb t (List.mem_append_left _ ht),
      historySeen_append hlast]

end

def historySnapshot (me : Worker) (durationMs : Nat) (ticks : List Tick) (last : Tick) : List LeaseSnapshot :=
  (last.rows.filter fun r => !isHeartbeatKey r.leaseKey).map fun r =>
    ⟨r.leaseKey, r.owner, expiredByHistory me durationMs (ticks ++ [last]) last.nowMs r.owner, r.completed⟩

theorem isOwnerExpired_after {me : Worker} {maxTake durationMs : Nat} {ticks : List Tick} (hb : ∀ t ∈ ticks, Beating t)
    (owner : Option Worker) (nowMs : Nat) :
    ((LeaseCoordinator.new me maxTake durationMs).after ticks).isOwnerExpired owner nowMs =
      expiredByHistory me durationMs ticks nowMs owner := by
  have hme := LeaseCoordinator.after_new me maxTake durationMs ticks
  cases owner with
  | none => rfl
  | some o =>
    unfold LeaseCoordinator.isOwnerExpired expiredByHistory
    simp only [hme.1, hme.2.1]
    by_cases ho : o = me
    · simp [ho]
    · rw [seen_after ho hb, historySeen]
      cases aliveSince o ticks <;> simp [ho]

/-- The leases that a tick hands to `compute_leases_to_take` are marked expired by the history of the scans: the owner is
another worker, and its heartbeat counter has not changed for more than the lease duration, counted from the last change in
the unbroken run of ticks in which it owned a row, or from the first tick of that run. -/
theorem expiry_of_history (me : Worker) (maxTake durationMs : Nat) (ticks : List Tick) (last : Tick)
    (hb : ∀ t ∈ ticks ++ [last], Beating t) :
    (((LeaseCoordinator.new me maxTake durationMs).after ticks).observe last.rows last.nowMs).snapshot last.rows last.nowMs =
        historySnapshot me durationMs ticks last ∧
      ∀ order, (((LeaseCoordinator.new me maxTake durationMs).after ticks).tick order last.rows last.nowMs).1 =
        computeLeasesToTake order (historySnapshot me durationMs ticks last) me maxTake := by
  have hsnap : (((LeaseCoordinator.new me maxTake durationMs).after ticks).observe last.rows last.nowMs).snapshot last.rows
      last.nowMs = historySnapshot me durationMs ticks last := by
    rw [← LeaseCoordinator.after_append]
    unfold LeaseCoordinator.snapshot historySnapshot
    simp only [isOwnerExpired_after hb]
  refine ⟨hsnap, ?_⟩
  intro order
  have hme := LeaseCoordinator.after_new me maxTake durationMs ticks
  unfold LeaseCoordinator.tick
  simp only [hsnap]
  show computeLeasesToTake order _ ((LeaseCoordinator.new me maxTake durationMs).after ticks).me
    ((LeaseCoordinator.new me maxTake durationMs).after ticks).maxTake = _
  rw [hme.1, hme.2.2]

def stalled (nowMs : Nat) : Tick :=
  ⟨[⟨"shard", some "w2", 7, false, none, []⟩, ⟨heartbeatKey "w2", some "w2", 200, false, none, []⟩], nowMs⟩

theorem beating_stalled (nowMs : Nat) : Beating (stalled nowMs) := by
  constructor
  · intro o
    have hk : isHeartbeatKey "shard" = false := by decide
    have hfilter : beatRows o (stalled nowMs) = [⟨heartbeatKey "w2", some "w2", 200, false, none, []⟩].filter
        fun r => isHeartbeatKey r.leaseKey && r.owner == some o := by simp [beatRows, stalled, hk]
    rw [hfilter]
    exact List.length_filter_le _ _
  · intro r hr hk
    rcases List.mem_pair.mp hr with rfl | rfl
    · revert hk
      decide
    · decide

theorem expiry_of_history_stalled :
    (((LeaseCoordinator.new "w1" 10 30000).after [stalled 0]).tick [] (stalled 30001).rows 30001).1 =
      computeLeasesToTake [] [⟨"shard", some "w2", true, false⟩] "w1" 10 := by
  refine (expiry_of_history "w1" 10 30000 [stalled 0] (stalled 30001) ?_).2 []
  intro t ht
  rcases List.mem_pair.mp ht with rfl | rfl
  · exact beating_stalled 0
  · exact beating_stalled 30001

end StreamsConsumer
