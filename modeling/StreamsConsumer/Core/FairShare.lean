import Mathlib.Data.List.MinMax
import Mathlib.Order.Nat
import StreamsConsumer.Core.Coordinator

/-!
# How many leases a tick takes

`max_to_take` bounds what one call of `compute_leases_to_take` returns, not what
the caller holds: the call fills the caller up to its fair share, as far as
there are leases to take.
-/

namespace StreamsConsumer

def activeLeases (leases : List LeaseSnapshot) : List LeaseSnapshot := leases.filter fun l => !l.completed

/-- The active leases divided by the workers that own a live one, the caller included, rounded up. -/
def fairShare (leases : List LeaseSnapshot) (me : Worker) : Nat :=
  let workers := (me :: ((activeLeases leases).filter fun l => !l.expired).filterMap LeaseSnapshot.owner).dedup
  ((activeLeases leases).length + workers.length - 1) / workers.length

def holding (leases : List LeaseSnapshot) (me : Worker) : Nat :=
  ((activeLeases leases).filter fun l => !l.expired && l.owner == some me).length

/-- Unowned or expired leases of others. -/
def freeLeases (leases : List LeaseSnapshot) (me : Worker) : List LeaseSnapshot :=
  ((activeLeases leases).filter fun l => l.owner != some me).filter fun l => l.owner.isNone || l.expired

/-- What the most loaded other worker holds above its fair share. -/
def stealable (leases : List LeaseSnapshot) (me : Worker) : Nat :=
  ((ownerCounts (activeLeases leases) me).map Prod.snd).foldr max 0 - fairShare leases me

/-- How many leases a tick takes: enough to fill the caller up to its fair share, at most `m`, and no more than
there are. -/
def takeCount (m : Nat) (leases : List LeaseSnapshot) (me : Worker) : Nat :=
  min m (min (fairShare leases me - holding leases me) ((freeLeases leases me).length + stealable leases me))

/-- The second loop of the call: what is taken from the most loaded other worker. -/
def stealFrom (order : List Worker) (leases : List LeaseSnapshot) (me : Worker) (m : Nat) (first : Nat × List ShardId) :
    List ShardId :=
  match mostLoaded (hashIter order Prod.fst (ownerCounts (activeLeases leases) me)) with
  | none => first.2
  | some (victim, count) =>
    if fairShare leases me < count then
      let victimLeases := (activeLeases leases).filter fun l => !l.expired && l.owner == some victim
      (pushKeys m ((sortByKey victimLeases).take (count - fairShare leases me)) first.1 first.2).2
    else first.2

section
variable {order : List Worker} {leases : List LeaseSnapshot} {me : Worker} {m : Nat}

theorem length_pushKeys : ∀ (ls : List LeaseSnapshot) (need : Nat) (take : List ShardId), take.length ≤ m →
    (pushKeys m ls need take).2.length = take.length + min (min ls.length need) (m - take.length) ∧
      (pushKeys m ls need take).1 = need - min (min ls.length need) (m - take.length)
  | [], need, take, h => by simp [pushKeys]
  | l :: ls, need, take, h => by
    unfold pushKeys
    by_cases hstop : need = 0 ∨ take.length = m
    · rw [if_pos hstop]
      simp only [List.length_cons]
      omega
    · rw [if_neg hstop]
      have hlen : (take ++ [l.leaseKey]).length = take.length + 1 := by simp
      obtain ⟨h₁, h₂⟩ := length_pushKeys ls (need - 1) (take ++ [l.leaseKey]) (by omega)
      rw [h₁, h₂, hlen, List.length_cons]
      omega

theorem length_sortByKey (ls : List LeaseSnapshot) : (sortByKey ls).length = ls.length :=
  (List.perm_insertionSort _ ls).length_eq

theorem count_owners {v : Worker} (hv : v ≠ me) : ∀ (ls : List LeaseSnapshot),
    ((ls.filterMap LeaseSnapshot.owner).filter (· ≠ me)).count v = (ls.filter fun l => l.owner == some v).length
  | [] => rfl
  | l :: ls => by
    have ih := count_owners hv ls
    cases ho : l.owner with
    | none => simpa [ho] using ih
    | some o =>
      by_cases hov : o = v
      · subst hov
        simpa [ho, hv] using ih
      · by_cases hom : o = me
        · simpa [ho, hom, Ne.symm hv] using ih
        · simpa [ho, hom, hov] using ih

theorem mem_ownerCounts {active : List LeaseSnapshot} {c : Worker × Nat} (h : c ∈ ownerCounts active me) :
    c.2 = (active.filter fun l => !l.expired && l.owner == some c.1).length := by
  unfold ownerCounts at h
  simp only [List.mem_map, List.mem_dedup, List.mem_filter, decide_eq_true_eq] at h
  obtain ⟨o, ⟨_, ho⟩, rfl⟩ := h
  simp only
  rw [count_owners ho, List.filter_filter]
  congr 1
  refine List.filter_congr fun l _ => ?_
  rw [Bool.and_comm]

theorem nodup_ownerCounts (active : List LeaseSnapshot) : ((ownerCounts active me).map Prod.fst).Nodup := by
  unfold ownerCounts
  simp only [List.map_map]
  have hid : (Prod.fst ∘ fun o : Worker => (o, List.count o
      (List.filter (· ≠ me) ((active.filter fun l => !l.expired).filterMap LeaseSnapshot.owner)))) = id := rfl
  rw [hid, List.map_id]
  exact List.nodup_dedup _

theorem mostLoaded_count {active : List LeaseSnapshot} {c : Worker × Nat}
    (h : mostLoaded (hashIter order Prod.fst (ownerCounts active me)) = some c) :
    c ∈ ownerCounts active me ∧ c.2 = ((ownerCounts active me).map Prod.snd).foldr max 0 := by
  have hc : c ∈ ownerCounts active me := mem_of_mem_hashIter (mem_of_mostLoaded h)
  have hle : ∀ n ∈ (ownerCounts active me).map Prod.snd, n ≤ c.2 := by
    intro n hn
    obtain ⟨x, hx, rfl⟩ := List.mem_map.mp hn
    exact le_mostLoaded h (mem_hashIter (nodup_ownerCounts active) hx)
  refine ⟨hc, le_antisymm ?_ (List.max_le_of_forall_le (α := Nat) _ _ hle)⟩
  exact List.le_max_of_le' 0 (List.mem_map_of_mem hc) le_rfl

theorem stealable_of_none (h : mostLoaded (hashIter order Prod.fst (ownerCounts (activeLeases leases) me)) = none) :
    stealable leases me = 0 := by
  have hempty : ownerCounts (activeLeases leases) me = [] := by
    by_contra hne
    obtain ⟨c, hc⟩ := List.exists_mem_of_ne_nil _ hne
    have hm : c ∈ hashIter order Prod.fst (ownerCounts (activeLeases leases) me) :=
      mem_hashIter (nodup_ownerCounts _) hc
    cases hh : hashIter order Prod.fst (ownerCounts (activeLeases leases) me) with
    | nil =>
      rw [hh] at hm
      cases hm
    | cons x xs =>
      rw [hh] at h
      cases h
  simp [stealable, hempty]

theorem stealable_of_some {victim : Worker} {count : Nat}
    (h : mostLoaded (hashIter order Prod.fst (ownerCounts (activeLeases leases) me)) = some (victim, count)) :
    stealable leases me = count - fairShare leases me ∧
      count = ((activeLeases leases).filter fun l => !l.expired && l.owner == some victim).length := by
  obtain ⟨hc, hmax⟩ := mostLoaded_count h
  constructor
  · unfold stealable
    rw [← hmax]
  · exact mem_ownerCounts hc

theorem length_stealFrom {first : Nat × List ShardId} (hle : first.2.length ≤ m) :
    (stealFrom order leases me m first).length =
      first.2.length + min (min (stealable leases me) first.1) (m - first.2.length) := by
  unfold stealFrom
  cases hload : mostLoaded (hashIter order Prod.fst (ownerCounts (activeLeases leases) me)) with
  | none =>
    have hsteal : stealable leases me = 0 := stealable_of_none hload
    simp [hsteal]
  | some c =>
    obtain ⟨hsteal, hcount⟩ := stealable_of_some hload
    simp only
    by_cases hover : fairShare leases me < c.2
    · rw [if_pos hover, (length_pushKeys _ _ _ hle).1, List.length_take, length_sortByKey, hsteal, ← hcount]
      omega
    · rw [if_neg hover]
      omega

theorem computeLeasesToTake_eq : computeLeasesToTake order leases me m =
    if (activeLeases leases).isEmpty || m == 0 then []
    else if fairShare leases me ≤ holding leases me then []
    else
      let first := pushKeys m (sortByKey (freeLeases leases me)) (fairShare leases me - holding leases me) []
      if 0 < first.1 ∧ first.2.length < m then stealFrom order leases me m first else first.2 := rfl

theorem length_computeLeasesToTake : (computeLeasesToTake order leases me m).length = takeCount m leases me := by
  unfold takeCount
  rw [computeLeasesToTake_eq]
  by_cases hnone : ((activeLeases leases).isEmpty || m == 0) = true
  · rw [if_pos hnone]
    rw [Bool.or_eq_true, List.isEmpty_iff, beq_iff_eq] at hnone
    rcases hnone with hnone | hnone
    · simp [fairShare, hnone]
    · simp [hnone]
  rw [if_neg hnone]
  by_cases hfull : fairShare leases me ≤ holding leases me
  · rw [if_pos hfull, List.length_nil]
    omega
  rw [if_neg hfull]
  simp only
  obtain ⟨hlen, hneed⟩ := length_pushKeys (m := m) (sortByKey (freeLeases leases me))
    (fairShare leases me - holding leases me) [] (by simp)
  simp only [List.length_nil, length_sortByKey, Nat.zero_add, Nat.sub_zero] at hlen hneed
  generalize pushKeys m (sortByKey (freeLeases leases me)) (fairShare leases me - holding leases me) [] = first at *
  by_cases hmore : 0 < first.1 ∧ first.2.length < m
  · rw [if_pos hmore, length_stealFrom (by omega)]
    omega
  · rw [if_neg hmore]
    omega

theorem length_tick {c : LeaseCoordinator} {rows : List Lease} {nowMs : Nat} :
    (c.tick order rows nowMs).1.length = takeCount c.maxTake ((c.observe rows nowMs).snapshot rows nowMs) c.me :=
  length_computeLeasesToTake

end

end StreamsConsumer
