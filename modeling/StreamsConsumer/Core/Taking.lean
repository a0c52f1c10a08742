import Mathlib.Data.List.Sort
import StreamsConsumer.Core.FairShare

/-!
# What a tick takes

`compute_leases_to_take` in closed form: the smallest free keys up to a quota,
then the smallest keys of the most loaded other worker, as far as its surplus
goes. `taker_bounds` says what may be taken; `taker_reproducible_iff` when the
choice depends on the leases alone.
-/

namespace StreamsConsumer

/-- How many leases the caller is short of, at most `m`. -/
def quota (m : Nat) (leases : List LeaseSnapshot) (me : Worker) : Nat := min m (fairShare leases me - holding leases me)

def leasesOf (leases : List LeaseSnapshot) (v : Worker) : List LeaseSnapshot :=
  (activeLeases leases).filter fun l => !l.expired && l.owner == some v

def takenFree (m : Nat) (leases : List LeaseSnapshot) (me : Worker) : List LeaseSnapshot :=
  (sortByKey (freeLeases leases me)).take (quota m leases me)

/-- What is taken from `v`, who holds `count` live leases. -/
def takenOf (m : Nat) (leases : List LeaseSnapshot) (me : Worker) (v : Worker) (count : Nat) : List LeaseSnapshot :=
  (sortByKey (leasesOf leases v)).take
    (min (count - fairShare leases me) (quota m leases me - (freeLeases leases me).length))

def victimOf (order : List Worker) (leases : List LeaseSnapshot) (me : Worker) : Option (Worker × Nat) :=
  mostLoaded (hashIter order Prod.fst (ownerCounts (activeLeases leases) me))

def takenStolen (order : List Worker) (m : Nat) (leases : List LeaseSnapshot) (me : Worker) : List LeaseSnapshot :=
  match victimOf order leases me with
  | none => []
  | some (v, count) => takenOf m leases me v count

section
variable {order : List Worker} {leases : List LeaseSnapshot} {me : Worker} {m : Nat}

theorem pushKeys_eq_take : ∀ (ls : List LeaseSnapshot) (need : Nat) (take : List ShardId), take.length ≤ m →
    pushKeys m ls need take = (need - min ls.length (min need (m - take.length)),
      take ++ (ls.take (min need (m - take.length))).map LeaseSnapshot.leaseKey)
  | [], need, take, h => by simp [pushKeys]
  | l :: ls, need, take, h => by
    unfold pushKeys
    by_cases hstop : need = 0 ∨ take.length = m
    · have hzero : min need (m - take.length) = 0 := by omega
      rw [if_pos hstop, hzero]
      simp
    · have hlen : (take ++ [l.leaseKey]).length = take.length + 1 := by simp
      have hsucc : min need (m - take.length) = min (need - 1) (m - (take ++ [l.leaseKey]).length) + 1 := by omega
      rw [if_neg hstop, pushKeys_eq_take ls (need - 1) (take ++ [l.leaseKey]) (by omega), hsucc]
      simp only [List.length_cons, List.take_succ_cons, List.map_cons, List.append_assoc, List.singleton_append,
        Prod.mk.injEq, and_true]
      omega

theorem length_freeLeases_sorted : (sortByKey (freeLeases leases me)).length = (freeLeases leases me).length :=
  length_sortByKey _

theorem computeLeasesToTake_eq_append : computeLeasesToTake order leases me m =
    (takenFree m leases me ++ takenStolen order m leases me).map LeaseSnapshot.leaseKey := by
  rw [computeLeasesToTake_eq]
  have hnothing : quota m leases me = 0 →
      ([] : List ShardId) = (takenFree m leases me ++ takenStolen order m leases me).map LeaseSnapshot.leaseKey := by
    intro hq
    unfold takenFree takenStolen takenOf
    rw [hq]
    cases victimOf order leases me <;> simp
  by_cases hnone : ((activeLeases leases).isEmpty || m == 0) = true
  · rw [if_pos hnone]
    apply hnothing
    rw [Bool.or_eq_true, List.isEmpty_iff, beq_iff_eq] at hnone
    rcases hnone with hnone | hnone
    · simp [quota, fairShare, hnone]
    · simp [quota, hnone]
  rw [if_neg hnone]
  by_cases hfull : fairShare leases me ≤ holding leases me
  · rw [if_pos hfull]
    apply hnothing
    unfold quota
    omega
  rw [if_neg hfull, pushKeys_eq_take _ _ _ (Nat.zero_le m)]
  have hq : min (fairShare leases me - holding leases me) (m - ([] : List ShardId).length) = quota m leases me := by
    unfold quota
    simp [Nat.min_comm]
  rw [hq, length_freeLeases_sorted]
  simp only [List.nil_append, List.length_map, List.length_take, length_freeLeases_sorted]
  -- the second loop runs exactly when there are fewer free leases than the quota
  by_cases hmore : (freeLeases leases me).length < quota m leases me
  · have hcond : 0 < fairShare leases me - holding leases me - min (freeLeases leases me).length (quota m leases me) ∧
        min (quota m leases me) (freeLeases leases me).length < m := by
      unfold quota at hmore ⊢
      omega
    rw [if_pos hcond]
    unfold stealFrom takenStolen victimOf
    cases hload : mostLoaded (hashIter order Prod.fst (ownerCounts (activeLeases leases) me)) with
    | none => simp [takenFree]
    | some c =>
      simp only
      have hlen : ((sortByKey (freeLeases leases me)).take (quota m leases me)).length = (freeLeases leases me).length := by
        rw [List.length_take, length_freeLeases_sorted]
        omega
      by_cases hover : fairShare leases me < c.2
      · rw [if_pos hover, pushKeys_eq_take _ _ _ (by rw [List.length_map, hlen]; unfold quota at hmore; omega)]
        simp only [List.map_append, takenFree, takenOf, List.length_map, hlen, List.take_take]
        congr 3
        unfold quota at hmore ⊢
        omega
      · have hzero : c.2 - fairShare leases me = 0 := by omega
        rw [if_neg hover]
        simp [takenFree, takenOf, hzero]
  · have hcond : ¬ (0 < fairShare leases me - holding leases me - min (freeLeases leases me).length (quota m leases me) ∧
        min (quota m leases me) (freeLeases leases me).length < m) := by
      unfold quota at hmore ⊢
      omega
    rw [if_neg hcond]
    have hzero : quota m leases me - (freeLeases leases me).length = 0 := by omega
    unfold takenStolen takenOf
    cases victimOf order leases me <;> simp [takenFree, hzero]

/-! ## What is taken -/

theorem mem_leasesOf {v : Worker} {l : LeaseSnapshot} :
    l ∈ leasesOf leases v ↔ l ∈ leases ∧ l.completed = false ∧ l.expired = false ∧ l.owner = some v := by
  unfold leasesOf activeLeases
  simp only [List.mem_filter, Bool.and_eq_true, Bool.not_eq_true', beq_iff_eq, and_assoc]

theorem mem_freeLeases {l : LeaseSnapshot} : l ∈ freeLeases leases me ↔
    l ∈ leases ∧ l.completed = false ∧ l.owner ≠ some me ∧ (l.owner = none ∨ l.expired = true) := by
  unfold freeLeases activeLeases
  simp only [List.mem_filter, Bool.or_eq_true, Option.isNone_iff_eq_none, Bool.not_eq_true', bne_iff_ne, and_assoc]

theorem holding_eq_length (leases : List LeaseSnapshot) (v : Worker) : holding leases v = (leasesOf leases v).length := rfl

theorem mem_takenFree {l : LeaseSnapshot} (h : l ∈ takenFree m leases me) : l ∈ freeLeases leases me :=
  mem_sortByKey.mp (List.mem_of_mem_take h)

theorem mem_takenStolen {l : LeaseSnapshot} (h : l ∈ takenStolen order m leases me) :
    ∃ v count, victimOf order leases me = some (v, count) ∧ l ∈ takenOf m leases me v count ∧ l ∈ leasesOf leases v := by
  unfold takenStolen at h
  cases hv : victimOf order leases me with
  | none =>
    rw [hv] at h
    cases h
  | some c =>
    rw [hv] at h
    exact ⟨c.1, c.2, rfl, h, mem_sortByKey.mp (List.mem_of_mem_take h)⟩

theorem mem_ownerCounts_of_pos {u : Worker} (hu : u ≠ me) (hpos : 0 < holding leases u) :
    (u, holding leases u) ∈ ownerCounts (activeLeases leases) me := by
  obtain ⟨l, hl⟩ := List.exists_mem_of_length_pos hpos
  obtain ⟨hmem, hc, he, ho⟩ := mem_leasesOf.mp hl
  have hcount := count_owners hu ((activeLeases leases).filter fun l => !l.expired)
  unfold ownerCounts
  simp only [List.mem_map, List.mem_dedup, List.mem_filter, decide_eq_true_eq]
  refine ⟨u, ⟨List.mem_filterMap.mpr ⟨l, ?_, ho⟩, hu⟩, ?_⟩
  · simp [activeLeases, hmem, hc, he]
  · rw [hcount, List.filter_filter, holding]
    congr 2
    refine List.filter_congr fun l _ => ?_
    rw [Bool.and_comm]

theorem victim_spec {v : Worker} {count : Nat} (h : victimOf order leases me = some (v, count)) :
    v ≠ me ∧ count = holding leases v ∧ ∀ u, u ≠ me → holding leases u ≤ count := by
  obtain ⟨hc, _⟩ := mostLoaded_count h
  refine ⟨?_, mem_ownerCounts hc, ?_⟩
  · unfold ownerCounts at hc
    simp only [List.mem_map, List.mem_dedup, List.mem_filter, decide_eq_true_eq] at hc
    obtain ⟨o, ⟨_, ho⟩, he⟩ := hc
    cases he
    exact ho
  · intro u hu
    by_cases hpos : 0 < holding leases u
    · exact le_mostLoaded h (mem_hashIter (nodup_ownerCounts _) (mem_ownerCounts_of_pos hu hpos))
    · omega

theorem length_takenFree : (takenFree m leases me).length = min (quota m leases me) (freeLeases leases me).length := by
  rw [takenFree, List.length_take, length_sortByKey]

theorem length_takenStolen_le : (takenStolen order m leases me).length ≤ quota m leases me - (freeLeases leases me).length := by
  unfold takenStolen
  cases victimOf order leases me with
  | none => exact Nat.zero_le _
  | some c =>
    simp only [takenOf, List.length_take]
    omega

theorem nodup_taken (hk : (leases.map LeaseSnapshot.leaseKey).Nodup) :
    (takenFree m leases me ++ takenStolen order m leases me).Nodup := by
  have hn : leases.Nodup := hk.of_map
  have hsort : ∀ {ls : List LeaseSnapshot}, ls.Nodup → (sortByKey ls).Nodup := fun h =>
    (List.perm_insertionSort _ _).nodup_iff.mpr h
  refine List.Nodup.append ?_ ?_ ?_
  · exact (hsort ((hn.filter _).filter _ |>.filter _)).sublist (List.take_sublist _ _)
  · unfold takenStolen
    cases victimOf order leases me with
    | none => exact List.nodup_nil
    | some c => exact (hsort ((hn.filter _).filter _)).sublist (List.take_sublist _ _)
  · intro l hl hl'
    obtain ⟨_, _, _, hfree⟩ := mem_freeLeases.mp (mem_takenFree hl)
    obtain ⟨v, _, _, _, hof⟩ := mem_takenStolen hl'
    obtain ⟨_, _, he, ho⟩ := mem_leasesOf.mp hof
    rw [he, ho] at hfree
    simp at hfree

theorem mem_leases_of_taken {l : LeaseSnapshot} (h : l ∈ takenFree m leases me ++ takenStolen order m leases me) :
    l ∈ leases ∧ l.completed = false ∧ l.owner ≠ some me := by
  rcases List.mem_append.mp h with h | h
  · obtain ⟨hl, hc, ho, _⟩ := mem_freeLeases.mp (mem_takenFree h)
    exact ⟨hl, hc, ho⟩
  · obtain ⟨v, count, hv, _, hof⟩ := mem_takenStolen h
    obtain ⟨hl, hc, _, ho⟩ := mem_leasesOf.mp hof
    refine ⟨hl, hc, ?_⟩
    rw [ho]
    intro e
    exact (victim_spec hv).1 (Option.some.inj e)

theorem mem_taken_iff (hk : (leases.map LeaseSnapshot.leaseKey).Nodup) {l : LeaseSnapshot} (hl : l ∈ leases) :
    l.leaseKey ∈ computeLeasesToTake order leases me m ↔ l ∈ takenFree m leases me ++ takenStolen order m leases me := by
  rw [computeLeasesToTake_eq_append]
  constructor
  · intro h
    obtain ⟨l', hl', he⟩ := List.mem_map.mp h
    rw [← List.inj_on_of_nodup_map hk (mem_leases_of_taken hl').1 hl he]
    exact hl'
  · exact fun h => List.mem_map_of_mem h


/-! ## The bounds -/

theorem mem_take_of_lt {ls : List LeaseSnapshot} {n : Nat} {l l' : LeaseSnapshot} (h : l ∈ (sortByKey ls).take n)
    (hl' : l' ∈ ls) (hlt : l'.leaseKey < l.leaseKey) : l' ∈ (sortByKey ls).take n := by
  have hsorted : (sortByKey ls).Pairwise fun a b => a.leaseKey ≤ b.leaseKey := List.pairwise_insertionSort _ ls
  rw [← List.take_append_drop n (sortByKey ls), List.pairwise_append] at hsorted
  have hmem : l' ∈ (sortByKey ls).take n ++ (sortByKey ls).drop n := by
    rw [List.take_append_drop]
    exact mem_sortByKey.mpr hl'
  rcases List.mem_append.mp hmem with h' | h'
  · exact h'
  · exact absurd (hsorted.2.2 l h l' h') (String.not_le.mpr hlt)

theorem length_filter_le_add {α : Type} {p q r : α → Bool} : ∀ {xs : List α},
    (∀ x ∈ xs, p x = true → q x = true ∨ r x = true) → (xs.filter p).length ≤ (xs.filter q).length + (xs.filter r).length
  | [], _ => by simp
  | x :: xs, h => by
    have ih := length_filter_le_add fun y hy => h y (List.mem_cons_of_mem _ hy)
    have hx := h x List.mem_cons_self
    simp only [List.filter_cons]
    split <;> split <;> split <;> simp_all <;> omega

/-- The table once every claim of the call has succeeded. -/
def applied (leases : List LeaseSnapshot) (me : Worker) (keys : List ShardId) : List LeaseSnapshot :=
  leases.map fun l => if l.leaseKey ∈ keys then { l with owner := some me, expired := false } else l

theorem holding_eq_filter (leases : List LeaseSnapshot) (v : Worker) : holding leases v =
    (leases.filter fun l => !l.completed && (!l.expired && l.owner == some v)).length := by
  unfold holding activeLeases
  rw [List.filter_filter]
  congr 2
  funext l
  rw [Bool.and_comm]

theorem holding_applied (leases : List LeaseSnapshot) (me v : Worker) (keys : List ShardId) :
    holding (applied leases me keys) v = (leases.filter fun l => !l.completed &&
      (if l.leaseKey ∈ keys then decide (me = v) else !l.expired && l.owner == some v)).length := by
  rw [holding_eq_filter, applied, List.filter_map, List.length_map]
  congr 2
  funext l
  simp only [Function.comp]
  by_cases hl : l.leaseKey ∈ keys
  · rw [if_pos hl, if_pos hl]
    simp only [Bool.not_false, Bool.true_and, Option.some_beq_some]
    rfl
  · rw [if_neg hl, if_neg hl]

theorem length_filter_mem_le {p : LeaseSnapshot → Bool} {keys : List ShardId}
    (hk : (leases.map LeaseSnapshot.leaseKey).Nodup) (h : ∀ l ∈ leases, p l = true → l.leaseKey ∈ keys) :
    (leases.filter p).length ≤ keys.length := by
  have hsub : (leases.filter p).map LeaseSnapshot.leaseKey ⊆ keys := by
    intro k hmem
    obtain ⟨l, hl, rfl⟩ := List.mem_map.mp hmem
    obtain ⟨hl, hp⟩ := List.mem_filter.mp hl
    exact h l hl hp
  have hn : ((leases.filter p).map LeaseSnapshot.leaseKey).Nodup :=
    hk.sublist (List.filter_sublist.map LeaseSnapshot.leaseKey)
  simpa using (List.subperm_of_subset hn hsub).length_le

theorem length_computeLeasesToTake_le : (computeLeasesToTake order leases me m).length ≤ quota m leases me := by
  rw [computeLeasesToTake_eq_append, List.length_map, List.length_append, length_takenFree]
  have hstolen : (takenStolen order m leases me).length ≤ _ := length_takenStolen_le
  omega

theorem holding_applied_me_le (hk : (leases.map LeaseSnapshot.leaseKey).Nodup) (keys : List ShardId) :
    holding (applied leases me keys) me ≤ holding leases me + keys.length := by
  rw [holding_applied, holding_eq_filter]
  refine (length_filter_le_add (r := fun l => decide (l.leaseKey ∈ keys)) ?_).trans
    (Nat.add_le_add_left (length_filter_mem_le hk fun l _ h => by simpa using h) _)
  intro l _ h
  by_cases hl : l.leaseKey ∈ keys
  · exact Or.inr (by simpa using hl)
  · exact Or.inl (by simpa [hl] using h)

theorem holding_le_applied (hk : (leases.map LeaseSnapshot.leaseKey).Nodup) {v : Worker} {count : Nat}
    (hv : victimOf order leases me = some (v, count)) : holding leases v ≤
      holding (applied leases me (computeLeasesToTake order leases me m)) v + (takenOf m leases me v count).length := by
  rw [holding_applied, holding_eq_filter]
  have hstolen : (leases.filter fun l => !l.completed && (!l.expired && l.owner == some v) &&
      decide (l.leaseKey ∈ computeLeasesToTake order leases me m)).length ≤
        ((takenOf m leases me v count).map LeaseSnapshot.leaseKey).length := by
    refine length_filter_mem_le hk ?_
    intro l hl h
    simp only [Bool.and_eq_true, Bool.not_eq_true', beq_iff_eq, decide_eq_true_eq] at h
    obtain ⟨⟨hc, he, ho⟩, hmem⟩ := h
    rcases List.mem_append.mp ((mem_taken_iff hk hl).mp hmem) with h' | h'
    · have hfree := (mem_freeLeases.mp (mem_takenFree h')).2.2.2
      simp [he, ho] at hfree
    · unfold takenStolen at h'
      rw [hv] at h'
      exact List.mem_map_of_mem h'
  rw [List.length_map] at hstolen
  refine (length_filter_le_add ?_).trans (Nat.add_le_add_left hstolen _)
  intro l _ h
  by_cases hl : l.leaseKey ∈ computeLeasesToTake order leases me m
  · exact Or.inr (by simpa [hl] using h)
  · exact Or.inl (by simpa [hl] using h)


theorem stolen_spec (hk : (leases.map LeaseSnapshot.leaseKey).Nodup) {l : LeaseSnapshot} {v : Worker}
    (hl : l ∈ leasesOf leases v) (hmem : l.leaseKey ∈ computeLeasesToTake order leases me m) :
    victimOf order leases me = some (v, holding leases v) ∧ l ∈ takenOf m leases me v (holding leases v) := by
  obtain ⟨hmem', _, he, ho⟩ := mem_leasesOf.mp hl
  rcases List.mem_append.mp ((mem_taken_iff hk hmem').mp hmem) with h | h
  · have hfree := (mem_freeLeases.mp (mem_takenFree h)).2.2.2
    simp [he, ho] at hfree
  · obtain ⟨u, count, hv, hof, hu⟩ := mem_takenStolen h
    have hown : some u = some v := (mem_leasesOf.mp hu).2.2.2.symm.trans ho
    cases hown
    obtain ⟨_, rfl, _⟩ := victim_spec hv
    exact ⟨hv, hof⟩

theorem pos_of_mem_takenOf {l : LeaseSnapshot} {v : Worker} {count : Nat} (h : l ∈ takenOf m leases me v count) :
    fairShare leases me < count ∧ (freeLeases leases me).length < quota m leases me := by
  have hpos : 0 < (takenOf m leases me v count).length := List.length_pos_of_mem h
  rw [takenOf, List.length_take] at hpos
  omega

theorem takenFree_eq_all (h : (freeLeases leases me).length ≤ quota m leases me) :
    takenFree m leases me = sortByKey (freeLeases leases me) := by
  rw [takenFree, List.take_of_length_le]
  rw [length_sortByKey]
  exact h

def LeaseSnapshot.Available (l : LeaseSnapshot) : Prop := l.completed = false ∧ (l.owner = none ∨ l.expired = true)

def LeaseSnapshot.HeldBy (l : LeaseSnapshot) (v : Worker) : Prop :=
  l.completed = false ∧ l.expired = false ∧ l.owner = some v

structure TakerBounds (leases : List LeaseSnapshot) (me : Worker) (m : Nat) (taken : List ShardId) : Prop where
  nodup : taken.Nodup
  few : taken.length ≤ min m (fairShare leases me - holding leases me)
  others : ∀ k ∈ taken, ∃ l ∈ leases, l.leaseKey = k ∧ l.completed = false ∧ l.owner ≠ some me
  smallest : ∀ l ∈ leases, ∀ l' ∈ leases, l.Available → l'.Available → l.leaseKey ∈ taken →
    l'.leaseKey < l.leaseKey → l'.leaseKey ∈ taken
  availableFirst : ∀ l ∈ leases, ∀ l' ∈ leases, ∀ v, l.HeldBy v → l'.Available → l.leaseKey ∈ taken → l'.leaseKey ∈ taken
  oneVictim : ∀ l ∈ leases, ∀ l' ∈ leases, ∀ v v', l.HeldBy v → l'.HeldBy v' → l.leaseKey ∈ taken → l'.leaseKey ∈ taken → v = v'
  mostLoaded : ∀ l ∈ leases, ∀ v, l.HeldBy v → l.leaseKey ∈ taken →
    fairShare leases me < holding leases v ∧ ∀ u, u ≠ me → holding leases u ≤ holding leases v
  mine : taken ≠ [] → holding (applied leases me taken) me ≤ fairShare leases me
  spared : ∀ l ∈ leases, ∀ v, l.HeldBy v → l.leaseKey ∈ taken → fairShare leases me ≤ holding (applied leases me taken) v

theorem taker_bounds (order : List Worker) (leases : List LeaseSnapshot) (me : Worker) (m : Nat)
    (hk : (leases.map LeaseSnapshot.leaseKey).Nodup) (hmine : ∀ l ∈ leases, l.expired = true → l.owner ≠ some me) :
    TakerBounds leases me m (computeLeasesToTake order leases me m) := by
  have hfree : ∀ l ∈ leases, l.Available → l ∈ freeLeases leases me := by
    intro l hl h
    refine mem_freeLeases.mpr ⟨hl, h.1, ?_, h.2⟩
    rcases h.2 with h | h
    · rw [h]
      simp
    · exact hmine l hl h
  have hheld : ∀ l ∈ leases, ∀ v, l.HeldBy v → l ∈ leasesOf leases v := fun l hl v h => mem_leasesOf.mpr ⟨hl, h⟩
  have hlen : (computeLeasesToTake order leases me m).length ≤ quota m leases me := length_computeLeasesToTake_le
  refine ⟨?_, hlen, ?_, ?_, ?_, ?_, ?_, ?_, ?_⟩
  · rw [computeLeasesToTake_eq_append]
    refine List.Nodup.map_on ?_ (nodup_taken hk)
    intro l hl l' hl' he
    exact List.inj_on_of_nodup_map hk (mem_leases_of_taken hl).1 (mem_leases_of_taken hl').1 he
  · intro k hmem
    rw [computeLeasesToTake_eq_append] at hmem
    obtain ⟨l, hl, rfl⟩ := List.mem_map.mp hmem
    obtain ⟨hl, hc, ho⟩ := mem_leases_of_taken hl
    exact ⟨l, hl, rfl, hc, ho⟩
  · intro l hl l' hl' ha ha' hmem hlt
    rcases List.mem_append.mp ((mem_taken_iff hk hl).mp hmem) with h | h
    · exact (mem_taken_iff hk hl').mpr (List.mem_append_left _ (mem_take_of_lt h (hfree l' hl' ha') hlt))
    · obtain ⟨v, _, _, _, hof⟩ := mem_takenStolen h
      obtain ⟨_, _, he, ho⟩ := mem_leasesOf.mp hof
      simp [LeaseSnapshot.Available, he, ho] at ha
  · intro l hl l' hl' v hv ha' hmem
    obtain ⟨_, hpos⟩ := pos_of_mem_takenOf (stolen_spec hk (hheld l hl v hv) hmem).2
    refine (mem_taken_iff hk hl').mpr (List.mem_append_left _ ?_)
    rw [takenFree_eq_all hpos.le]
    exact mem_sortByKey.mpr (hfree l' hl' ha')
  · intro l hl l' hl' v v' hv hv' hmem hmem'
    have hvictim := (stolen_spec hk (hheld l hl v hv) hmem).1
    have hvictim' := (stolen_spec hk (hheld l' hl' v' hv') hmem').1
    rw [hvictim] at hvictim'
    cases hvictim'
    rfl
  · intro l hl v hv hmem
    obtain ⟨hvictim, hof⟩ := stolen_spec hk (hheld l hl v hv) hmem
    exact ⟨(pos_of_mem_takenOf hof).1, (victim_spec hvictim).2.2⟩
  · intro hne
    have hpos : 0 < (computeLeasesToTake order leases me m).length := List.length_pos_iff.mpr hne
    have happly : holding (applied leases me (computeLeasesToTake order leases me m)) me ≤ _ :=
      holding_applied_me_le hk _
    unfold quota at hlen
    omega
  · intro l hl v hv hmem
    obtain ⟨hvictim, hof⟩ := stolen_spec hk (hheld l hl v hv) hmem
    have hloss := holding_le_applied (m := m) hk hvictim
    obtain ⟨hover, _⟩ := pos_of_mem_takenOf hof
    have hfew : (takenOf m leases me v (holding leases v)).length ≤ holding leases v - fairShare leases me := by
      rw [takenOf, List.length_take]
      omega
    omega

end

def unevenLeases : List LeaseSnapshot :=
  [⟨"s6", some "b", false, false⟩, ⟨"s5", some "b", false, false⟩, ⟨"s4", none, false, false⟩,
    ⟨"s3", some "c", false, false⟩, ⟨"s2", some "b", false, false⟩, ⟨"s1", some "b", false, false⟩]

theorem taker_bounds_uneven : computeLeasesToTake [] unevenLeases "a" 8 = ["s4", "s1"] ∧
    TakerBounds unevenLeases "a" 8 (computeLeasesToTake [] unevenLeases "a" 8) :=
  ⟨by decide, taker_bounds [] unevenLeases "a" 8 (by decide) (by decide)⟩

/-! ## What the choice depends on -/

section
variable {order : List Worker} {leases leases' : List LeaseSnapshot} {me : Worker} {m : Nat}

theorem sortByKey_perm {ls ls' : List LeaseSnapshot} (hp : ls.Perm ls') (hk : (ls.map LeaseSnapshot.leaseKey).Nodup) :
    sortByKey ls = sortByKey ls' := by
  have hperm : (sortByKey ls).Perm (sortByKey ls') :=
    (List.perm_insertionSort _ ls).trans (hp.trans (List.perm_insertionSort _ ls').symm)
  refine hperm.eq_of_pairwise ?_ (List.pairwise_insertionSort _ ls) (List.pairwise_insertionSort _ ls')
  intro a b ha hb hab hba
  have hb' : b ∈ ls := hp.mem_iff.mpr (mem_sortByKey.mp hb)
  exact List.inj_on_of_nodup_map hk (mem_sortByKey.mp ha) hb' (String.le_antisymm hab hba)

theorem fairShare_perm (hp : leases.Perm leases') : fairShare leases me = fairShare leases' me := by
  unfold fairShare
  have hactive : (activeLeases leases).Perm (activeLeases leases') := hp.filter _
  have hworkers := (((hactive.filter fun l => !l.expired).filterMap LeaseSnapshot.owner).cons me).dedup
  simp only [hactive.length_eq, hworkers.length_eq]

theorem leasesOf_perm (hp : leases.Perm leases') (v : Worker) : (leasesOf leases v).Perm (leasesOf leases' v) :=
  (hp.filter _).filter _

theorem holding_perm (hp : leases.Perm leases') (v : Worker) : holding leases v = holding leases' v :=
  (leasesOf_perm hp v).length_eq

theorem freeLeases_perm (hp : leases.Perm leases') : (freeLeases leases me).Perm (freeLeases leases' me) :=
  ((hp.filter _).filter _).filter _

theorem quota_perm (hp : leases.Perm leases') : quota m leases me = quota m leases' me := by
  unfold quota
  rw [fairShare_perm hp, holding_perm hp]

theorem nodup_leasesOf (hk : (leases.map LeaseSnapshot.leaseKey).Nodup) (v : Worker) :
    ((leasesOf leases v).map LeaseSnapshot.leaseKey).Nodup :=
  hk.sublist ((List.filter_sublist.trans List.filter_sublist).map _)

theorem takenFree_perm (hk : (leases.map LeaseSnapshot.leaseKey).Nodup) (hp : leases.Perm leases') :
    takenFree m leases me = takenFree m leases' me := by
  have hkeys : ((freeLeases leases me).map LeaseSnapshot.leaseKey).Nodup :=
    hk.sublist ((List.filter_sublist.trans (List.filter_sublist.trans List.filter_sublist)).map _)
  unfold takenFree
  rw [sortByKey_perm (freeLeases_perm hp) hkeys, quota_perm hp]

theorem takenOf_perm (hk : (leases.map LeaseSnapshot.leaseKey).Nodup) (hp : leases.Perm leases') (v : Worker) (count : Nat) :
    takenOf m leases me v count = takenOf m leases' me v count := by
  unfold takenOf
  rw [sortByKey_perm (leasesOf_perm hp v) (nodup_leasesOf hk v), fairShare_perm hp, quota_perm hp,
    (freeLeases_perm hp).length_eq]

/-- Another worker holds more than the target and nobody but the caller holds more than it. -/
def TopLoaded (leases : List LeaseSnapshot) (me v : Worker) : Prop :=
  v ≠ me ∧ fairShare leases me < holding leases v ∧ ∀ u, u ≠ me → holding leases u ≤ holding leases v

/-- The call goes on to steal, and two workers tie for the victim. -/
def Tied (leases : List LeaseSnapshot) (me : Worker) (m : Nat) : Prop :=
  (freeLeases leases me).length < min m (fairShare leases me - holding leases me) ∧
    ∃ u v, u ≠ v ∧ TopLoaded leases me u ∧ TopLoaded leases me v

theorem topLoaded_perm (hp : leases.Perm leases') {v : Worker} (h : TopLoaded leases' me v) : TopLoaded leases me v := by
  obtain ⟨hne, hover, hmost⟩ := h
  refine ⟨hne, ?_, ?_⟩
  · rw [fairShare_perm hp, holding_perm hp]
    exact hover
  · intro u hu
    rw [holding_perm hp, holding_perm hp]
    exact hmost u hu

theorem topLoaded_of_takenStolen {l : LeaseSnapshot} (h : l ∈ takenStolen order m leases me) :
    ∃ v, victimOf order leases me = some (v, holding leases v) ∧ TopLoaded leases me v ∧
      (freeLeases leases me).length < quota m leases me := by
  obtain ⟨v, count, hv, hof, _⟩ := mem_takenStolen h
  obtain ⟨hne, rfl, hmost⟩ := victim_spec hv
  obtain ⟨hover, hfew⟩ := pos_of_mem_takenOf hof
  exact ⟨v, hv, ⟨hne, hover, hmost⟩, hfew⟩

theorem exists_victim_of_top (order : List Worker) {v : Worker} (h : TopLoaded leases me v) :
    ∃ u, victimOf order leases me = some (u, holding leases u) ∧ TopLoaded leases me u := by
  obtain ⟨hne, hover, hmost⟩ := h
  have hmem : (v, holding leases v) ∈ hashIter order Prod.fst (ownerCounts (activeLeases leases) me) :=
    mem_hashIter (nodup_ownerCounts _) (mem_ownerCounts_of_pos hne (by omega))
  cases hv : victimOf order leases me with
  | none =>
    unfold victimOf at hv
    cases hiter : hashIter order Prod.fst (ownerCounts (activeLeases leases) me) with
    | nil =>
      rw [hiter] at hmem
      cases hmem
    | cons c cs =>
      rw [hiter] at hv
      cases hv
  | some c =>
    obtain ⟨hu, hcount, hall⟩ := victim_spec hv
    have hle := hall v hne
    refine ⟨c.1, by rw [← hcount], hu, by omega, ?_⟩
    rw [← hcount]
    exact hall

theorem mem_takenStolen_untied {order' : List Worker} (hk : (leases.map LeaseSnapshot.leaseKey).Nodup)
    (hp : leases.Perm leases') (htie : ¬ Tied leases me m) {l : LeaseSnapshot} (h : l ∈ takenStolen order m leases me) :
    takenStolen order m leases me = takenStolen order' m leases' me := by
  obtain ⟨v, hv, htop, hfew⟩ := topLoaded_of_takenStolen h
  have htop' : TopLoaded leases' me v := topLoaded_perm hp.symm htop
  obtain ⟨u, hu, hu'⟩ := exists_victim_of_top order' htop'
  have hsame : u = v := by
    by_contra hne
    exact htie ⟨hfew, u, v, hne, topLoaded_perm hp hu', htop⟩
  subst hsame
  unfold takenStolen
  rw [hv, hu]
  simp only
  rw [takenOf_perm hk hp, holding_perm hp]


theorem tied_perm (hp : leases.Perm leases') (h : Tied leases' me m) : Tied leases me m := by
  obtain ⟨hfew, u, v, hne, hu, hv⟩ := h
  refine ⟨?_, u, v, hne, topLoaded_perm hp hu, topLoaded_perm hp hv⟩
  rw [(freeLeases_perm hp).length_eq, fairShare_perm hp, holding_perm hp]
  exact hfew

theorem takenStolen_untied {order' : List Worker} (hk : (leases.map LeaseSnapshot.leaseKey).Nodup)
    (hp : leases.Perm leases') (htie : ¬ Tied leases me m) :
    takenStolen order m leases me = takenStolen order' m leases' me := by
  cases hs : takenStolen order m leases me with
  | cons l ls =>
    rw [← hs]
    exact mem_takenStolen_untied hk hp htie (l := l) (by simp [hs])
  | nil =>
    cases hs' : takenStolen order' m leases' me with
    | nil => rfl
    | cons l ls =>
      have hk' : (leases'.map LeaseSnapshot.leaseKey).Nodup := (hp.map _).nodup_iff.mp hk
      have htie' : ¬ Tied leases' me m := fun h => htie (tied_perm hp h)
      rw [← hs, ← hs']
      exact (mem_takenStolen_untied hk' hp.symm htie' (l := l) (by simp [hs'])).symm

theorem mostLoaded_concat {cs : List (Worker × Nat)} {c : Worker × Nat} (h : ∀ x ∈ cs, x.2 ≤ c.2) :
    mostLoaded (cs ++ [c]) = some c := by
  cases cs with
  | nil => rfl
  | cons x xs =>
    have hbest := mem_of_mostLoaded (show mostLoaded (x :: xs) = some _ from rfl)
    simp only [List.cons_append, mostLoaded, List.foldl_append, List.foldl_cons, List.foldl_nil, Option.some.injEq]
    rw [if_pos (h _ hbest)]

theorem exists_hashIter_concat {α : Type} {key : α → String} {xs : List α} (hn : (xs.map key).Nodup) {x : α} (hx : x ∈ xs) :
    ∃ order ys, hashIter order key xs = ys ++ [x] := by
  classical
  refine ⟨(xs.map key).filter (· ≠ key x), _, congrArg (_ ++ ·) (?_ : _ = [x])⟩
  have hlast : ∀ y ∈ xs, (!((xs.map key).filter (· ≠ key x)).contains (key y)) = (y == x) := by
    intro y hy
    by_cases he : y = x
    · subst he
      simp
    · have hkey : key y ≠ key x := fun h => he (List.inj_on_of_nodup_map hn hy hx h)
      have hmem : key y ∈ (xs.map key).filter (· ≠ key x) := by
        simp only [List.mem_filter, decide_eq_true_eq]
        exact ⟨List.mem_map_of_mem hy, hkey⟩
      rw [List.contains_iff_mem.mpr hmem, beq_false_of_ne he]
      rfl
  rw [List.filter_congr hlast, List.filter_beq, List.count_eq_one_of_mem hn.of_map hx]
  rfl

theorem exists_order_victim {v : Worker} (h : TopLoaded leases me v) :
    ∃ order, victimOf order leases me = some (v, holding leases v) := by
  obtain ⟨hne, hover, hmost⟩ := h
  obtain ⟨order, ys, hys⟩ := exists_hashIter_concat (nodup_ownerCounts (activeLeases leases))
    (mem_ownerCounts_of_pos hne (by omega : 0 < holding leases v))
  refine ⟨order, ?_⟩
  unfold victimOf
  rw [hys]
  refine mostLoaded_concat ?_
  intro x hx
  have hmem : x ∈ ownerCounts (activeLeases leases) me := by
    have hiter : x ∈ hashIter order Prod.fst (ownerCounts (activeLeases leases) me) := by
      rw [hys]
      exact List.mem_append_left _ hx
    exact mem_of_mem_hashIter hiter
  have hother : x.1 ≠ me := by
    unfold ownerCounts at hmem
    simp only [List.mem_map, List.mem_dedup, List.mem_filter, decide_eq_true_eq] at hmem
    obtain ⟨o, ⟨_, ho⟩, rfl⟩ := hmem
    exact ho
  have hcount : x.2 = holding leases x.1 := mem_ownerCounts hmem
  rw [hcount]
  exact hmost x.1 hother

/-- The call returns the same list for every permutation of the leases and every iteration order of its map
exactly when it does not come to a tie. -/
theorem taker_reproducible_iff (leases : List LeaseSnapshot) (me : Worker) (m : Nat)
    (hk : (leases.map LeaseSnapshot.leaseKey).Nodup) :
    (∀ order order' leases', leases.Perm leases' →
      computeLeasesToTake order leases me m = computeLeasesToTake order' leases' me m) ↔ ¬ Tied leases me m := by
  constructor
  · rintro hsame ⟨hfew, u, v, hne, hu, hv⟩
    obtain ⟨order, hou⟩ := exists_order_victim hu
    obtain ⟨order', hov⟩ := exists_order_victim hv
    have heq := hsame order order' leases (List.Perm.refl _)
    -- a lease of `u` is taken in the one order, and in the other only leases of `v` are stolen
    have hpos : 0 < (takenOf m leases me u (holding leases u)).length := by
      have hlt := hu.2.1
      have hlen := holding_eq_length leases u
      rw [takenOf, List.length_take, length_sortByKey]
      unfold quota
      omega
    obtain ⟨l, hl⟩ := List.exists_mem_of_length_pos hpos
    have hlu : l ∈ leasesOf leases u := mem_sortByKey.mp (List.mem_of_mem_take hl)
    have hmem : l.leaseKey ∈ computeLeasesToTake order leases me m := by
      refine (mem_taken_iff hk (mem_leasesOf.mp hlu).1).mpr (List.mem_append_right _ ?_)
      unfold takenStolen
      rw [hou]
      exact hl
    rw [heq] at hmem
    have hvictim := (stolen_spec hk hlu hmem).1
    rw [hov] at hvictim
    cases hvictim
    exact hne rfl
  · intro htie order order' leases' hp
    rw [computeLeasesToTake_eq_append, computeLeasesToTake_eq_append, takenFree_perm hk hp, takenStolen_untied hk hp htie]

end

theorem taker_reproducible_uneven : computeLeasesToTake [] unevenLeases "a" 8 = ["s4", "s1"] ∧
    ∀ order leases', unevenLeases.Perm leases' →
      computeLeasesToTake [] unevenLeases "a" 8 = computeLeasesToTake order leases' "a" 8 := by
  refine ⟨by decide, fun order => (taker_reproducible_iff unevenLeases "a" 8 (by decide)).mpr ?_ [] order⟩
  have honly : ∀ w, fairShare unevenLeases "a" < holding unevenLeases w → w = "b" := by
    intro w hover
    by_contra hb
    by_cases hc : w = "c"
    · subst hc
      revert hover
      decide
    · have hzero : holding unevenLeases w = 0 := by
        simp [holding, activeLeases, unevenLeases, Ne.symm hb, Ne.symm hc]
      omega
  rintro ⟨_, u, v, hne, hu, hv⟩
  exact hne ((honly u hu.2.1).trans (honly v hv.2.1).symm)

def tiedLeases : List LeaseSnapshot :=
  [⟨"s1", some "b", false, false⟩, ⟨"s2", some "b", false, false⟩, ⟨"s3", some "b", false, false⟩,
    ⟨"s4", some "c", false, false⟩, ⟨"s5", some "c", false, false⟩, ⟨"s6", some "c", false, false⟩]

theorem taker_order_dependent : (tiedLeases.map LeaseSnapshot.leaseKey).Nodup ∧
    computeLeasesToTake ["b", "c"] tiedLeases "a" 8 = ["s4"] ∧ computeLeasesToTake ["c", "b"] tiedLeases "a" 8 = ["s1"] := by
  decide

end StreamsConsumer
