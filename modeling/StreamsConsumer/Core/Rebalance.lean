import Mathlib.Algebra.BigOperators.Ring.Finset
import Mathlib.Algebra.Group.Action.Defs
import Mathlib.Algebra.Order.BigOperators.Group.Finset
import Mathlib.Data.Finset.Card
import Mathlib.Data.Prod.Lex
import Mathlib.Order.OrderIsoNat
import Mathlib.Tactic.Linarith
import StreamsConsumer.Core.FairShare

/-!
# Rebalancing

Workers that take turns with `compute_leases_to_take` on one table of live
leases, each taking all that its call returned. A turn takes unowned leases or
moves leases from a worker above its target to one below, so the unowned leases
and then the squares of the loads go down: the turns that take something come
to an end. Where they end is even up to the rounding of the targets only.
-/

namespace StreamsConsumer

theorem finite_descents {α : Type} [PartialOrder α] [WellFoundedLT α] {x : Nat → α} {P : Nat → Prop}
    (hdown : ∀ n, P n → x (n + 1) < x n) (hstay : ∀ n, ¬ P n → x (n + 1) = x n) : {n | P n}.Finite := by
  have hanti : Antitone x := by
    refine antitone_nat_of_succ_le ?_
    intro n
    by_cases hn : P n
    · exact (hdown n hn).le
    · exact (hstay n hn).le
  obtain ⟨n, hn⟩ := WellFoundedGT.monotone_chain_condition (⟨fun k => OrderDual.toDual (x k), hanti⟩ : Nat →o αᵒᵈ)
  refine (Set.finite_Iio n).subset ?_
  intro k hk
  by_contra hle
  have hnk : n ≤ k := not_lt.mp hle
  have he : x (k + 1) = x k := (hn (k + 1) (Nat.le_succ_of_le hnk)).symm.trans (hn k hnk)
  exact (hdown k hk).ne he

theorem ceil_bounds (total : Nat) {n : Nat} (hn : 0 < n) :
    total ≤ n * ((total + n - 1) / n) ∧ n * ((total + n - 1) / n) < total + n := by
  have hdiv := Nat.div_add_mod (total + n - 1) n
  have hmod := Nat.mod_lt (total + n - 1) hn
  omega

/-- Leases that are neither completed nor expired, each unowned or owned by one of the live workers. -/
structure Assignment (live : Finset Worker) where
  leases : List LeaseSnapshot
  active : ∀ l ∈ leases, l.completed = false ∧ l.expired = false
  keys : (leases.map LeaseSnapshot.leaseKey).Nodup
  owners : ∀ l ∈ leases, ∀ o, l.owner = some o → o ∈ live

/-- A call of `compute_leases_to_take`; `order` is the iteration order of its hash map. -/
structure Turn (live : Finset Worker) where
  worker : Worker
  isLive : worker ∈ live
  maxToTake : Nat
  atLeastOne : 1 ≤ maxToTake
  order : List Worker

def LeaseSnapshot.takenBy (w : Worker) (keys : List ShardId) (l : LeaseSnapshot) : LeaseSnapshot :=
  if l.leaseKey ∈ keys then { l with owner := some w } else l

namespace Assignment

variable {live : Finset Worker}

def load (a : Assignment live) (w : Worker) : Nat := a.leases.countP fun l => l.owner = some w

def unowned (a : Assignment live) : Nat := a.leases.countP fun l => l.owner = none

def holders (a : Assignment live) : Finset Worker := (a.leases.filterMap LeaseSnapshot.owner).toFinset

/-- The workers a worker counts: those that hold a lease, and itself. -/
def target (a : Assignment live) (w : Worker) : Nat :=
  (a.leases.length + (insert w a.holders).card - 1) / (insert w a.holders).card

def taken (a : Assignment live) (t : Turn live) : List ShardId :=
  computeLeasesToTake t.order a.leases t.worker t.maxToTake

/-- All claims of the turn succeed. -/
def step (a : Assignment live) (t : Turn live) : Assignment live where
  leases := a.leases.map (LeaseSnapshot.takenBy t.worker (a.taken t))
  active := by
    intro l hl
    obtain ⟨l₀, hl₀, rfl⟩ := List.mem_map.mp hl
    unfold LeaseSnapshot.takenBy
    split <;> exact a.active l₀ hl₀
  keys := by
    have hkey : LeaseSnapshot.leaseKey ∘ LeaseSnapshot.takenBy t.worker (a.taken t) = LeaseSnapshot.leaseKey := by
      funext l
      simp only [Function.comp, LeaseSnapshot.takenBy]
      split <;> rfl
    rw [List.map_map, hkey]
    exact a.keys
  owners := by
    intro l hl o ho
    obtain ⟨l₀, hl₀, rfl⟩ := List.mem_map.mp hl
    unfold LeaseSnapshot.takenBy at ho
    split at ho
    · cases ho
      exact t.isLive
    · exact a.owners l₀ hl₀ o ho

def run (a : Assignment live) (turns : Nat → Turn live) : Nat → Assignment live
  | 0 => a
  | n + 1 => (a.run turns n).step (turns n)

/-- Every live worker has a call that returns nothing. -/
def Settled (a : Assignment live) : Prop := ∀ w ∈ live, ∃ t : Turn live, t.worker = w ∧ a.taken t = []

/-! ## What a call sees -/

variable {a : Assignment live} {w : Worker}

theorem activeLeases_eq (a : Assignment live) : activeLeases a.leases = a.leases :=
  List.filter_eq_self.mpr fun l hl => by simp [(a.active l hl).1]

theorem unexpired_eq (a : Assignment live) : (a.leases.filter fun l => !l.expired) = a.leases :=
  List.filter_eq_self.mpr fun l hl => by simp [(a.active l hl).2]

theorem fairShare_eq (a : Assignment live) (w : Worker) : fairShare a.leases w = a.target w := by
  unfold fairShare target holders
  simp only [activeLeases_eq, unexpired_eq]
  rw [← List.toFinset_cons, List.card_toFinset]

theorem owned_eq (a : Assignment live) (w : Worker) :
    (a.leases.filter fun l => !l.expired && l.owner == some w).length = a.load w := by
  unfold load
  rw [List.countP_eq_length_filter]
  congr 1
  refine List.filter_congr fun l hl => ?_
  by_cases ho : l.owner = some w
  · simp [ho, (a.active l hl).2]
  · simp [ho]

theorem holding_eq (a : Assignment live) (w : Worker) : holding a.leases w = a.load w := by
  unfold holding
  rw [activeLeases_eq, owned_eq]

theorem freeLeases_eq (a : Assignment live) (w : Worker) :
    freeLeases a.leases w = a.leases.filter fun l => decide (l.owner = none) := by
  unfold freeLeases
  rw [activeLeases_eq, List.filter_filter]
  refine List.filter_congr fun l hl => ?_
  cases ho : l.owner with
  | none => simp
  | some o => simp [(a.active l hl).2]

theorem length_freeLeases (a : Assignment live) (w : Worker) : (freeLeases a.leases w).length = a.unowned := by
  rw [freeLeases_eq, unowned, List.countP_eq_length_filter]

theorem load_pos {v : Worker} : 0 < a.load v ↔ v ∈ a.holders := by
  unfold load holders
  rw [List.countP_pos_iff, List.mem_toFinset, List.mem_filterMap]
  simp

theorem holders_subset (a : Assignment live) : a.holders ⊆ live := by
  intro v hv
  unfold holders at hv
  rw [List.mem_toFinset, List.mem_filterMap] at hv
  obtain ⟨l, hl, ho⟩ := hv
  exact a.owners l hl v ho

theorem le_of_stealable (h : stealable a.leases w = 0) {v : Worker} (hv : v ≠ w) : a.load v ≤ a.target w := by
  by_cases hzero : a.load v = 0
  · omega
  have hmem : (v, a.load v) ∈ ownerCounts (activeLeases a.leases) w := by
    have hcount : ∀ n, (v, n) ∈ ownerCounts (activeLeases a.leases) w → n = a.load v := by
      intro n hn
      have := mem_ownerCounts hn
      rw [activeLeases_eq] at this
      exact this.trans (owned_eq a v)
    have hown : ∃ n, (v, n) ∈ ownerCounts (activeLeases a.leases) w := by
      obtain ⟨l, hl, ho⟩ := List.mem_filterMap.mp (List.mem_toFinset.mp (load_pos.mp (Nat.pos_of_ne_zero hzero)))
      unfold ownerCounts
      simp only [activeLeases_eq, unexpired_eq, List.mem_map, List.mem_dedup, List.mem_filter]
      exact ⟨_, v, ⟨List.mem_filterMap.mpr ⟨l, hl, ho⟩, by simpa using hv⟩, rfl⟩
    obtain ⟨n, hn⟩ := hown
    exact hcount n hn ▸ hn
  have hle : a.load v ≤ ((ownerCounts (activeLeases a.leases) w).map Prod.snd).foldr max 0 :=
    List.le_max_of_le' 0 (List.mem_map_of_mem hmem) le_rfl
  unfold stealable at h
  rw [fairShare_eq] at h
  omega

/-! ## What a turn takes -/

theorem pushKeys_eq {m : Nat} : ∀ (ls : List LeaseSnapshot) (need : Nat) (take : List ShardId), ∃ j ≤ need,
    pushKeys m ls need take = (need - j, take ++ (ls.take j).map LeaseSnapshot.leaseKey)
  | [], need, take => ⟨0, Nat.zero_le _, by simp [pushKeys]⟩
  | l :: ls, need, take => by
    unfold pushKeys
    by_cases hstop : need = 0 ∨ take.length = m
    · exact ⟨0, Nat.zero_le _, by simp [hstop]⟩
    · obtain ⟨j, hj, he⟩ := pushKeys_eq ls (need - 1) (take ++ [l.leaseKey])
      refine ⟨j + 1, by omega, ?_⟩
      rw [if_neg hstop, he]
      simp only [List.take_succ_cons, List.map_cons, List.append_assoc, List.singleton_append, Prod.mk.injEq, and_true]
      omega

/-- What a turn takes: unowned leases, and leases of a worker above the target that do not bring it below. -/
structure Takes (a : Assignment live) (w : Worker) (keys : List ShardId) (free stolen : List LeaseSnapshot) (v : Worker) :
    Prop where
  keys_eq : keys = (free ++ stolen).map LeaseSnapshot.leaseKey
  free_sub : ∀ l ∈ free, l ∈ a.leases ∧ l.owner = none
  stolen_sub : ∀ l ∈ stolen, l ∈ a.leases ∧ l.owner = some v
  other : v ≠ w
  below : a.load w + (free.length + stolen.length) ≤ a.target w ∨ free ++ stolen = []
  above : a.target w + stolen.length ≤ a.load v ∨ stolen = []

theorem takes_nothing (a : Assignment live) {v : Worker} (hv : v ≠ w) : Takes a w [] [] [] v :=
  ⟨rfl, by simp, by simp, hv, Or.inr rfl, Or.inr rfl⟩

theorem exists_takes (a : Assignment live) (t : Turn live) : ∃ free stolen v, Takes a t.worker (a.taken t) free stolen v := by
  have hother : ∃ v, v ≠ t.worker := by
    by_cases h : t.worker = ""
    · exact ⟨"a", by simp [h]⟩
    · exact ⟨"", Ne.symm h⟩
  obtain ⟨u, hu⟩ := hother
  unfold taken
  rw [computeLeasesToTake_eq]
  split
  · exact ⟨[], [], u, takes_nothing a hu⟩
  split
  · exact ⟨[], [], u, takes_nothing a hu⟩
  rename_i hbelow
  rw [fairShare_eq, holding_eq] at *
  obtain ⟨j, hj, hfirst⟩ := pushKeys_eq (m := t.maxToTake) (sortByKey (freeLeases a.leases t.worker))
    (a.target t.worker - a.load t.worker) []
  rw [hfirst]
  simp only [List.nil_append]
  have hfree : ∀ l ∈ (sortByKey (freeLeases a.leases t.worker)).take j, l ∈ a.leases ∧ l.owner = none := by
    intro l hl
    have hmem := (List.perm_insertionSort _ _).mem_iff.mp (List.mem_of_mem_take hl)
    rw [freeLeases_eq, List.mem_filter] at hmem
    simpa using hmem
  have hlen : ((sortByKey (freeLeases a.leases t.worker)).take j).length ≤ j := List.length_take_le _ _
  have hplain : Takes a t.worker (((sortByKey (freeLeases a.leases t.worker)).take j).map LeaseSnapshot.leaseKey)
      ((sortByKey (freeLeases a.leases t.worker)).take j) [] u := by
    refine ⟨by simp, hfree, by simp, hu, Or.inl ?_, Or.inr rfl⟩
    simp only [List.length_nil]
    omega
  split
  · unfold stealFrom
    split
    · exact ⟨_, [], u, hplain⟩
    rename_i v count hload
    obtain ⟨hc, _⟩ := mostLoaded_count hload
    have hcount : count = a.load v := by
      have := mem_ownerCounts hc
      rw [activeLeases_eq] at this
      exact this.trans (owned_eq a v)
    have hv : v ≠ t.worker := by
      unfold ownerCounts at hc
      simp only [List.mem_map, List.mem_dedup, List.mem_filter] at hc
      obtain ⟨o, ⟨_, ho⟩, he⟩ := hc
      cases he
      simpa using ho
    rw [fairShare_eq]
    split
    · rename_i hover
      simp only [activeLeases_eq]
      obtain ⟨i, hi, hsecond⟩ := pushKeys_eq (m := t.maxToTake)
        ((sortByKey (a.leases.filter fun l => !l.expired && l.owner == some v)).take (count - a.target t.worker))
        (a.target t.worker - a.load t.worker - j)
        (((sortByKey (freeLeases a.leases t.worker)).take j).map LeaseSnapshot.leaseKey)
      rw [hsecond]
      refine ⟨_, _, v, ⟨by rw [List.map_append], hfree, ?_, hv, Or.inl ?_, ?_⟩⟩
      · intro l hl
        have hmem := (List.perm_insertionSort _ _).mem_iff.mp (List.mem_of_mem_take (List.mem_of_mem_take hl))
        simp only [List.mem_filter, Bool.and_eq_true, beq_iff_eq] at hmem
        exact ⟨hmem.1, hmem.2.2⟩
      · have := List.length_take_le i
          ((sortByKey (a.leases.filter fun l => !l.expired && l.owner == some v)).take (count - a.target t.worker))
        omega
      · left
        have h₁ := List.length_take_le' i
          ((sortByKey (a.leases.filter fun l => !l.expired && l.owner == some v)).take (count - a.target t.worker))
        have h₂ := List.length_take_le (count - a.target t.worker)
          (sortByKey (a.leases.filter fun l => !l.expired && l.owner == some v))
        omega
    · exact ⟨_, [], u, hplain⟩
  · exact ⟨_, [], u, hplain⟩

/-! ## What a turn changes -/

/-- How many of the taken leases have the owner `o` before the turn. -/
def takenFrom (a : Assignment live) (t : Turn live) (o : Option Worker) : Nat :=
  a.leases.countP fun l => decide (l.leaseKey ∈ a.taken t) && decide (l.owner = o)

section
variable {t : Turn live}

theorem unowned_step (a : Assignment live) (t : Turn live) : a.unowned = (a.step t).unowned + a.takenFrom t none := by
  unfold unowned takenFrom step
  simp only
  generalize a.taken t = keys
  induction a.leases with
  | nil => rfl
  | cons l ls ih =>
    rw [List.map_cons, List.countP_cons, List.countP_cons, List.countP_cons]
    by_cases hk : l.leaseKey ∈ keys
    · simp only [LeaseSnapshot.takenBy, hk, if_true, decide_true, Bool.true_and, reduceCtorEq, decide_false,
        Bool.false_eq_true, if_false]
      omega
    · simp only [LeaseSnapshot.takenBy, hk, if_false, decide_false, Bool.false_and, Bool.false_eq_true]
      omega

theorem load_step {v : Worker} (hv : v ≠ t.worker) : a.load v = (a.step t).load v + a.takenFrom t (some v) := by
  unfold load takenFrom step
  simp only
  generalize a.taken t = keys
  induction a.leases with
  | nil => rfl
  | cons l ls ih =>
    rw [List.map_cons, List.countP_cons, List.countP_cons, List.countP_cons]
    by_cases hk : l.leaseKey ∈ keys
    · simp only [LeaseSnapshot.takenBy, hk, if_true, decide_true, Bool.true_and, Option.some.injEq, Ne.symm hv, decide_false,
        Bool.false_eq_true, if_false]
      omega
    · simp only [LeaseSnapshot.takenBy, hk, if_false, decide_false, Bool.false_and, Bool.false_eq_true]
      omega

theorem load_worker (a : Assignment live) (t : Turn live) :
    (a.step t).load t.worker = a.load t.worker +
      a.leases.countP fun l => decide (l.leaseKey ∈ a.taken t) && !decide (l.owner = some t.worker) := by
  unfold load step
  simp only
  generalize a.taken t = keys
  induction a.leases with
  | nil => rfl
  | cons l ls ih =>
    rw [List.map_cons, List.countP_cons, List.countP_cons, List.countP_cons]
    by_cases hk : l.leaseKey ∈ keys
    · by_cases ho : l.owner = some t.worker
      · simp only [LeaseSnapshot.takenBy, hk, if_true, decide_true, ho, Bool.not_true, Bool.and_false, Bool.false_eq_true,
          if_false]
        omega
      · simp only [LeaseSnapshot.takenBy, hk, if_true, decide_true, ho, Bool.not_false, Bool.and_true, if_false, decide_false,
          Bool.false_eq_true]
        omega
    · simp only [LeaseSnapshot.takenBy, hk, if_false, decide_false, Bool.false_and, Bool.false_eq_true]
      omega

variable {free stolen : List LeaseSnapshot} {v : Worker}

theorem Takes.mem (h : Takes a t.worker (a.taken t) free stolen v) {l : LeaseSnapshot} (hl : l ∈ a.leases)
    (hk : l.leaseKey ∈ a.taken t) : l ∈ free ++ stolen := by
  rw [h.keys_eq] at hk
  obtain ⟨l', hl', he⟩ := List.mem_map.mp hk
  have hin : l' ∈ a.leases := by
    rcases List.mem_append.mp hl' with h' | h'
    · exact (h.free_sub l' h').1
    · exact (h.stolen_sub l' h').1
  rwa [List.inj_on_of_nodup_map a.keys hin hl he] at hl'

theorem Takes.owner (h : Takes a t.worker (a.taken t) free stolen v) {l : LeaseSnapshot} (hl : l ∈ a.leases)
    (hk : l.leaseKey ∈ a.taken t) : l.owner = none ∨ l.owner = some v := by
  rcases List.mem_append.mp (h.mem hl hk) with h' | h'
  · exact Or.inl (h.free_sub l h').2
  · exact Or.inr (h.stolen_sub l h').2

theorem Takes.load_worker (h : Takes a t.worker (a.taken t) free stolen v) :
    (a.step t).load t.worker = a.load t.worker + (a.takenFrom t none + a.takenFrom t (some v)) := by
  rw [Assignment.load_worker]
  unfold takenFrom
  have howner : ∀ l ∈ a.leases, l.leaseKey ∈ a.taken t → l.owner = none ∨ l.owner = some v := fun l hl => h.owner hl
  have hne := h.other
  generalize a.taken t = keys at howner
  generalize a.leases = ls at howner
  congr 1
  induction ls with
  | nil => rfl
  | cons l ls ih =>
    have hls := ih fun l hl => howner l (List.mem_cons_of_mem _ hl)
    rw [List.countP_cons, List.countP_cons, List.countP_cons, hls]
    by_cases hk : l.leaseKey ∈ keys
    · rcases howner l List.mem_cons_self hk with ho | ho
      · simp [hk, ho]
        omega
      · simp [hk, ho, hne]
        omega
    · simp [hk]

theorem Takes.taken_le (h : Takes a t.worker (a.taken t) free stolen v) :
    a.takenFrom t none ≤ free.length ∧ a.takenFrom t (some v) ≤ stolen.length := by
  have hnodup : a.leases.Nodup := List.Nodup.of_map _ a.keys
  have hle : ∀ {o : Option Worker} {ls : List LeaseSnapshot},
      (∀ l ∈ a.leases, l.leaseKey ∈ a.taken t → l.owner = o → l ∈ ls) → a.takenFrom t o ≤ ls.length := by
    intro o ls hsub
    unfold takenFrom
    rw [List.countP_eq_length_filter]
    refine (List.subperm_of_subset (hnodup.filter _) ?_).length_le
    intro l hl
    simp only [List.mem_filter, Bool.and_eq_true, decide_eq_true_eq] at hl
    exact hsub l hl.1 hl.2.1 hl.2.2
  refine ⟨hle ?_, hle ?_⟩
  · intro l hl hk ho
    rcases List.mem_append.mp (h.mem hl hk) with h' | h'
    · exact h'
    · rw [(h.stolen_sub l h').2] at ho
      cases ho
  · intro l hl hk ho
    rcases List.mem_append.mp (h.mem hl hk) with h' | h'
    · rw [(h.free_sub l h').2] at ho
      cases ho
    · exact h'

theorem Takes.taken_pos (h : Takes a t.worker (a.taken t) free stolen v) (hne : a.taken t ≠ []) :
    0 < a.takenFrom t none + a.takenFrom t (some v) := by
  obtain ⟨k, hk⟩ := List.exists_mem_of_ne_nil _ hne
  have hin : ∃ l ∈ a.leases, l.leaseKey ∈ a.taken t := by
    have hk' := hk
    rw [h.keys_eq] at hk'
    obtain ⟨l, hl, rfl⟩ := List.mem_map.mp hk'
    rcases List.mem_append.mp hl with h' | h'
    · exact ⟨l, (h.free_sub l h').1, hk⟩
    · exact ⟨l, (h.stolen_sub l h').1, hk⟩
  obtain ⟨l, hl, hlk⟩ := hin
  have hpos : ∀ {o : Option Worker}, l.owner = o → 0 < a.takenFrom t o := by
    intro o ho
    exact List.countP_pos_iff.mpr ⟨l, hl, by simp [hlk, ho]⟩
  rcases h.owner hl hlk with ho | ho
  · exact Nat.add_pos_left (hpos ho) _
  · exact Nat.add_pos_right _ (hpos ho)

end

/-! ## The measure -/

def squares (a : Assignment live) : Nat := ∑ w ∈ live, a.load w ^ 2

/-- The unowned leases first, then the squares of the loads. -/
def disorder (a : Assignment live) : Nat ×ₗ Nat := toLex (a.unowned, a.squares)

theorem step_nothing {t : Turn live} (h : a.taken t = []) : a.step t = a := by
  have hleases : a.leases.map (LeaseSnapshot.takenBy t.worker []) = a.leases := by
    have hid : LeaseSnapshot.takenBy t.worker [] = id := by
      funext l
      simp [LeaseSnapshot.takenBy]
    rw [hid, List.map_id]
  cases a
  unfold step
  simp only [h, mk.injEq]
  exact hleases

/-- Moving leases from a worker above the target to one below lowers the squares. -/
theorem squares_lt {b : Assignment live} {v w : Worker} {n m : Nat} (hv : v ∈ live) (hw : w ∈ live) (hne : v ≠ w)
    (hn : 0 < n) (hfrom : a.load v = b.load v + n) (hto : b.load w = a.load w + n) (hw' : a.load w + n ≤ m)
    (hv' : m + n ≤ a.load v) (hrest : ∀ u ∈ live, u ≠ v → u ≠ w → b.load u = a.load u) : b.squares < a.squares := by
  have hwv : w ∈ live.erase v := Finset.mem_erase.mpr ⟨Ne.symm hne, hw⟩
  have hsum : ∀ c : Assignment live, c.squares = c.load v ^ 2 + (c.load w ^ 2 + ∑ u ∈ (live.erase v).erase w, c.load u ^ 2) := by
    intro c
    unfold squares
    rw [← Finset.add_sum_erase _ _ hv, ← Finset.add_sum_erase _ _ hwv]
  have hsame : ∑ u ∈ (live.erase v).erase w, b.load u ^ 2 = ∑ u ∈ (live.erase v).erase w, a.load u ^ 2 := by
    refine Finset.sum_congr rfl ?_
    intro u hu
    simp only [Finset.mem_erase] at hu
    rw [hrest u hu.2.2 hu.2.1 hu.1]
  rw [hsum a, hsum b, hsame, hto, hfrom]
  obtain ⟨d, hd⟩ : ∃ d, b.load v = a.load w + n + d := ⟨b.load v - (a.load w + n), by omega⟩
  rw [hd]
  nlinarith [Nat.mul_pos hn hn]

theorem disorder_lt {t : Turn live} (h : a.taken t ≠ []) : (a.step t).disorder < a.disorder := by
  obtain ⟨free, stolen, v, ht⟩ := a.exists_takes t
  have hpos := ht.taken_pos h
  obtain ⟨hfree, hstolen⟩ := ht.taken_le
  have hunowned := a.unowned_step t
  have hbelow : a.load t.worker + (free.length + stolen.length) ≤ a.target t.worker := by
    rcases ht.below with hb | hb
    · exact hb
    · rw [List.append_eq_nil_iff] at hb
      simp only [hb.1, hb.2, List.length_nil] at hfree hstolen
      omega
  unfold disorder
  rw [Prod.Lex.toLex_lt_toLex]
  by_cases hnone : a.takenFrom t none = 0
  · -- only leases of another worker were taken
    right
    refine ⟨by simp only; omega, ?_⟩
    have habove : a.target t.worker + stolen.length ≤ a.load v := by
      rcases ht.above with hb | hb
      · exact hb
      · simp only [hb, List.length_nil] at hstolen
        omega
    have hv : v ∈ live := a.holders_subset (load_pos.mp (by omega))
    refine squares_lt hv t.isLive ht.other (n := a.takenFrom t (some v)) (m := a.target t.worker) (by omega)
      (load_step ht.other) ?_ (by omega) (by omega) ?_
    · rw [ht.load_worker, hnone, Nat.zero_add]
    · intro u _ huv huw
      have hu := load_step (a := a) (t := t) huw
      have hzero : a.takenFrom t (some u) = 0 := by
        unfold takenFrom
        rw [List.countP_eq_zero]
        intro l hl hlu
        simp only [Bool.and_eq_true, decide_eq_true_eq] at hlu
        rcases ht.owner hl hlu.1 with ho | ho
        · rw [ho] at hlu
          cases hlu.2
        · rw [ho] at hlu
          exact huv (Option.some.inj hlu.2).symm
      omega
  · left
    simp only
    omega

/-! ## Where the turns end -/

theorem length_eq (a : Assignment live) : a.leases.length = ∑ w ∈ live, a.load w + a.unowned := by
  unfold load unowned
  have howners := a.owners
  generalize a.leases = ls at howners
  induction ls with
  | nil => simp
  | cons l ls ih =>
    have hls := ih fun l hl => howners l (List.mem_cons_of_mem _ hl)
    simp only [List.countP_cons, List.length_cons, Finset.sum_add_distrib]
    cases ho : l.owner with
    | none =>
      simp
      omega
    | some o =>
      have hlive : o ∈ live := howners l List.mem_cons_self o ho
      have hone : (∑ w ∈ live, if decide (some o = some w) = true then 1 else 0) = 1 := by
        simp [hlive]
      rw [hone]
      simp
      omega

theorem sum_holders (a : Assignment live) : ∑ w ∈ a.holders, a.load w = ∑ w ∈ live, a.load w := by
  refine Finset.sum_subset a.holders_subset ?_
  intro w _ hw
  have := mt load_pos.mp hw
  omega

theorem target_holder (h : w ∈ a.holders) : a.target w = (a.leases.length + a.holders.card - 1) / a.holders.card := by
  unfold target
  rw [Finset.insert_eq_self.mpr h]

theorem Settled.cases (h : a.Settled) (hw : w ∈ live) :
    a.target w ≤ a.load w ∨ (a.unowned = 0 ∧ ∀ v, v ≠ w → a.load v ≤ a.target w) := by
  obtain ⟨t, rfl, ht⟩ := h w hw
  have hcount : takeCount t.maxToTake a.leases t.worker = 0 := by
    have hlen : (computeLeasesToTake t.order a.leases t.worker t.maxToTake).length = takeCount t.maxToTake a.leases t.worker :=
      length_computeLeasesToTake
    rw [← hlen]
    exact List.length_eq_zero_iff.mpr ht
  unfold takeCount at hcount
  rw [fairShare_eq, holding_eq, length_freeLeases] at hcount
  have hm := t.atLeastOne
  by_cases hfull : a.target t.worker ≤ a.load t.worker
  · exact Or.inl hfull
  · refine Or.inr ⟨by omega, ?_⟩
    intro v hv
    exact le_of_stealable (by omega) hv

theorem Settled.owned (h : a.Settled) (hlive : live.Nonempty) : a.unowned = 0 := by
  by_contra hne
  have hfull : ∀ w ∈ live, a.target w ≤ a.load w := by
    intro w hw
    rcases h.cases hw with hc | hc
    · exact hc
    · exact absurd hc.1 hne
  have htotal := a.length_eq
  obtain hempty | hholders := a.holders.eq_empty_or_nonempty
  · -- nobody holds a lease, so everyone's target is the whole table
    obtain ⟨w, hw⟩ := hlive
    have hload : a.load w = 0 := by
      by_contra h0
      have hpos := load_pos.mp (Nat.pos_of_ne_zero h0)
      rw [hempty] at hpos
      cases hpos
    have hle := hfull w hw
    have hceil := (ceil_bounds a.leases.length (Finset.card_pos.mpr ⟨w, Finset.mem_insert_self w a.holders⟩)).1
    have htarget : a.target w = 0 := by omega
    unfold target at htarget
    rw [htarget] at hceil
    omega
  · have hsum : a.holders.card * ((a.leases.length + a.holders.card - 1) / a.holders.card) ≤ ∑ w ∈ a.holders, a.load w := by
      rw [← smul_eq_mul]
      refine Finset.card_nsmul_le_sum _ _ _ ?_
      intro w hw
      rw [← target_holder hw]
      exact hfull w (a.holders_subset hw)
    have hceil := (ceil_bounds a.leases.length (Finset.card_pos.mpr hholders)).1
    rw [sum_holders] at hsum
    omega

theorem Settled.load_le (h : a.Settled) (hlive : live.Nonempty) (v : Worker) :
    a.load v ≤ (a.leases.length + a.holders.card - 1) / a.holders.card := by
  by_contra hover
  have hv : v ∈ a.holders := load_pos.mp ((Nat.zero_le _).trans_lt (not_le.mp hover))
  have htotal := a.length_eq
  rw [h.owned hlive, ← sum_holders] at htotal
  have hceil := (ceil_bounds a.leases.length (Finset.card_pos.mpr ⟨v, hv⟩)).1
  have hlow : ∃ w ∈ a.holders, a.load w < (a.leases.length + a.holders.card - 1) / a.holders.card := by
    by_contra hall
    have hge : ∀ w ∈ a.holders, (a.leases.length + a.holders.card - 1) / a.holders.card ≤ a.load w := by
      intro w hw
      by_contra hlt
      exact hall ⟨w, hw, by omega⟩
    have hsum := Finset.sum_lt_sum hge ⟨v, hv, by omega⟩
    rw [Finset.sum_const, smul_eq_mul] at hsum
    omega
  obtain ⟨w, hw, hlt⟩ := hlow
  rw [← target_holder hw] at hlt hover
  rcases h.cases (a.holders_subset hw) with hc | hc
  · omega
  · have hvw : v ≠ w := by
      rintro rfl
      omega
    have := hc.2 v hvw
    omega

/-- Only finitely many turns take a lease. Where no call returns any, no lease is unowned and nobody holds more than the
fair share of the workers that hold one. -/
theorem rebalancing_terminates (a : Assignment live) (turns : Nat → Turn live) :
    {n | (a.run turns n).taken (turns n) ≠ []}.Finite ∧
    ∀ b : Assignment live, b.Settled → (∀ l ∈ b.leases, l.owner ≠ none) ∧
      ∀ w, b.load w ≤ (b.leases.length + b.holders.card - 1) / b.holders.card := by
  have hlive : live.Nonempty := ⟨(turns 0).worker, (turns 0).isLive⟩
  refine ⟨?_, ?_⟩
  · refine finite_descents (x := fun n => (a.run turns n).disorder) ?_ ?_
    · intro n hn
      exact disorder_lt hn
    · intro n hn
      have hnothing : (a.run turns n).taken (turns n) = [] := not_not.mp hn
      simp only [run, step_nothing hnothing]
  · intro b hb
    refine ⟨?_, hb.load_le hlive⟩
    intro l hl ho
    have hzero := hb.owned hlive
    unfold unowned at hzero
    rw [List.countP_eq_zero] at hzero
    exact hzero l hl (by simpa using ho)

/-- A settled table is even up to the number of live workers: two loads differ by less than that, and a worker goes without
a lease only if the table is small. -/
theorem rebalancing_nearly_even (h : a.Settled) {v : Worker} (hw : w ∈ live) :
    a.load v ≤ a.load w + (live.card - 1) ∧ ((live.card - 1) ^ 2 < a.leases.length → 0 < a.load w) := by
  have hlive : live.Nonempty := ⟨w, hw⟩
  have htotal := a.length_eq
  rw [h.owned hlive, ← sum_holders] at htotal
  by_cases hheld : w ∈ a.holders
  · -- everyone else fills at most its share, so `w` lacks less than one lease for each holder
    refine ⟨?_, fun _ => load_pos.mpr hheld⟩
    have hle := h.load_le hlive
    have hceil := (ceil_bounds a.leases.length (Finset.card_pos.mpr ⟨w, hheld⟩)).2
    have hcard : a.holders.card ≤ live.card := Finset.card_le_card a.holders_subset
    have hrest : ∑ u ∈ a.holders.erase w, a.load u ≤
        (a.holders.erase w).card • ((a.leases.length + a.holders.card - 1) / a.holders.card) :=
      Finset.sum_le_card_nsmul _ _ _ fun u _ => hle u
    rw [Finset.card_erase_of_mem hheld, smul_eq_mul] at hrest
    rw [← Finset.add_sum_erase _ _ hheld] at htotal
    obtain ⟨n, hn⟩ := Nat.exists_eq_add_one.mpr (Finset.card_pos.mpr ⟨w, hheld⟩)
    have hv := hle v
    generalize (a.leases.length + a.holders.card - 1) / a.holders.card = share at *
    rw [hn] at hceil hrest hcard
    rw [Nat.add_sub_cancel] at hrest
    rw [Nat.succ_mul] at hceil
    omega
  · -- `w` holds nothing, so the others hold at most what its target is
    have hload : a.load w = 0 := by
      have := mt load_pos.mp hheld
      omega
    have hcard : (insert w a.holders).card = a.holders.card + 1 := Finset.card_insert_of_notMem hheld
    have hsub : a.holders.card + 1 ≤ live.card :=
      hcard ▸ Finset.card_le_card (Finset.insert_subset hw a.holders_subset)
    have hceil := @ceil_bounds a.leases.length (a.holders.card + 1) (Nat.succ_pos _)
    have htarget : a.target w = (a.leases.length + (a.holders.card + 1) - 1) / (a.holders.card + 1) := by
      unfold target
      rw [hcard]
    rw [← htarget, Nat.succ_mul] at hceil
    have hle : ∀ u, u ≠ w → a.load u ≤ a.target w := by
      rcases h.cases hw with hc | hc
      · -- a target of nothing means that there is nothing to hold
        intro u _
        have hzero : a.target w = 0 := by omega
        rw [hzero] at hceil
        have hnone : ∑ u ∈ a.holders, a.load u = 0 := by omega
        have hall := Finset.sum_eq_zero_iff.mp hnone
        by_cases hu : u ∈ a.holders
        · have := hall u hu
          omega
        · have := mt load_pos.mp hu
          omega
      · exact hc.2
    have hsum : ∑ u ∈ a.holders, a.load u ≤ a.holders.card • a.target w :=
      Finset.sum_le_card_nsmul _ _ _ fun u hu => hle u fun e => hheld (e ▸ hu)
    rw [smul_eq_mul] at hsum
    have hshare : a.target w ≤ a.holders.card := by omega
    refine ⟨?_, ?_⟩
    · by_cases hv : v = w
      · rw [hv]
        omega
      · have := hle v hv
        omega
    · intro hlarge
      have hsq : a.holders.card * a.target w ≤ (live.card - 1) ^ 2 := by
        rw [pow_two]
        exact Nat.mul_le_mul (by omega) (by omega)
      omega

/-! ## Four leases and three workers -/

def threeWorkers : Finset Worker := {"a", "b", "c"}

def fourLeases : Assignment threeWorkers where
  leases := ["s1", "s2", "s3", "s4"].map fun k => ⟨k, none, false, false⟩
  active := by decide
  keys := by decide
  owners := by decide

def turnOf (w : Worker) (h : w ∈ threeWorkers) : Turn threeWorkers := ⟨w, h, 10, by decide, []⟩

/-- First `a` takes all leases, then `b` steals two of them. -/
def threeTurns : Nat → Turn threeWorkers
  | 0 => turnOf "a" (by decide)
  | 1 => turnOf "b" (by decide)
  | _ => turnOf "c" (by decide)

theorem settled_fourLeases : (fourLeases.run threeTurns 2).Settled := by
  intro w hw
  unfold threeWorkers at hw
  simp only [Finset.mem_insert, Finset.mem_singleton] at hw
  rcases hw with rfl | rfl | rfl
  · exact ⟨turnOf "a" (by decide), rfl, by decide⟩
  · exact ⟨turnOf "b" (by decide), rfl, by decide⟩
  · exact ⟨turnOf "c" (by decide), rfl, by decide⟩

theorem rebalancing_terminates_four : {n | (fourLeases.run threeTurns n).taken (threeTurns n) ≠ []}.Finite ∧
    ∀ w, (fourLeases.run threeTurns 2).load w ≤ 2 := by
  obtain ⟨hfinite, hsettled⟩ := rebalancing_terminates fourLeases threeTurns
  refine ⟨hfinite, ?_⟩
  intro w
  have hw := (hsettled _ settled_fourLeases).2 w
  have hshare : ((fourLeases.run threeTurns 2).leases.length + (fourLeases.run threeTurns 2).holders.card - 1) /
      (fourLeases.run threeTurns 2).holders.card = 2 := by decide
  rwa [hshare] at hw

theorem rebalancing_nearly_even_four : (fourLeases.run threeTurns 2).load "a" ≤ (fourLeases.run threeTurns 2).load "c" + 2 :=
  (rebalancing_nearly_even settled_fourLeases (by decide : "c" ∈ threeWorkers)).1

/-- `a` and `b` hold two leases each. The target of `c` is two, and it steals from nobody who has no more than that. -/
theorem rebalancing_leaves_idle_worker : ¬ ∀ (live : Finset Worker) (a : Assignment live) (turns : Nat → Turn live) (n : Nat),
    (a.run turns n).Settled → ∀ v ∈ live, ∀ w ∈ live, (a.run turns n).load v ≤ (a.run turns n).load w + 1 := by
  intro h
  have hle := h threeWorkers fourLeases threeTurns 2 settled_fourLeases "a" (by decide) "c" (by decide)
  revert hle
  decide

end Assignment

end StreamsConsumer
