import StreamsConsumer.Worker.Fleet

/-!
# The idle backoff

The schedule of the bounded pool over cycles and pass outcomes. Doubling is
capped at `MAX_IDLE_BACKOFF_MS`, the first idle step is not: the ceiling holds
for the poll intervals that are themselves below it.
-/

namespace StreamsConsumer

/-- What `run_bounded_pool` does to the schedule: a cycle begins with the shards owned then, or a pass outcome is folded
in. -/
inductive SchedStep where
  | cycle (eligibleOwned : List (ShardId × Nat × Option SequenceNumber)) (t : Nat)
  | outcome (shard : ShardId) (result : PassOutcome) (t : Nat)
  deriving DecidableEq, Repr

def SchedStep.apply (pollIntervalMs : Nat) (sched : List (ShardId × ShardSched)) : SchedStep → List (ShardId × ShardSched)
  | .cycle eligibleOwned t => (refreshSched sched eligibleOwned t).2
  | .outcome shard result t => foldOutcome pollIntervalMs t sched (shard, result)

def runSched (pollIntervalMs : Nat) (steps : List SchedStep) : List (ShardId × ShardSched) :=
  steps.foldl (SchedStep.apply pollIntervalMs) []

/-- What holds of the schedule reached and of the next step on it; `2 ^ 64` bounds the `u64` that is doubled. -/
structure BackoffFits (pollIntervalMs : Nat) (sched : List (ShardId × ShardSched)) (step : SchedStep) : Prop where
  ceiling : ∀ s e, sched.lookup s = some e → e.backoffMs ≤ MAX_IDLE_BACKOFF_MS
  grows : ∀ s t e e', step = .outcome s .idle t → sched.lookup s = some e →
    (step.apply pollIntervalMs sched).lookup s = some e' → e.backoffMs ≤ e'.backoffMs
  kept : ∀ s e e', (∀ result t, step ≠ .outcome s result t) → sched.lookup s = some e →
    (step.apply pollIntervalMs sched).lookup s = some e' → e'.backoffMs = e.backoffMs
  reset : ∀ s t e, step = .outcome s .active t → (step.apply pollIntervalMs sched).lookup s = some e → e.backoffMs = 0
  fits : ∀ s t e, step = .outcome s .idle t → sched.lookup s = some e → e.backoffMs ≠ 0 → e.backoffMs * 2 < 2 ^ 64

/-! ## One step -/

theorem lookup_map_of_key {α : Type} {f : ShardId × α → ShardId × α} (hf : ∀ e, (f e).1 = e.1) (s : ShardId) :
    ∀ (xs : List (ShardId × α)), (xs.map f).lookup s = (xs.lookup s).map fun v => (f (s, v)).2
  | [] => rfl
  | (k, v) :: xs => by
    have hk : (f (k, v)).1 = k := hf (k, v)
    rw [List.map_cons, List.lookup_cons, List.lookup_cons, hk]
    by_cases hs : s = k
    · subst hs
      simp
    · rw [beq_false_of_ne hs]
      exact lookup_map_of_key hf s xs

theorem lookup_filter_fst {α : Type} (p : ShardId → Bool) (s : ShardId) : ∀ (xs : List (ShardId × α)),
    (xs.filter fun e => p e.1).lookup s = if p s then xs.lookup s else none
  | [] => by simp
  | (k, v) :: xs => by
    have ih := lookup_filter_fst p s xs
    rw [List.filter_cons, List.lookup_cons]
    by_cases hs : s = k
    · subst hs
      by_cases hp : p s = true
      · simp [hp]
      · simpa [hp] using ih
    · rw [beq_false_of_ne hs]
      by_cases hp : p k = true
      · rw [if_pos hp, List.lookup_cons, beq_false_of_ne hs]
        exact ih
      · rw [if_neg hp]
        exact ih

theorem lookup_refreshSched {sched : List (ShardId × ShardSched)} {items : List (ShardId × Nat × Option SequenceNumber)}
    {t : Nat} {s : ShardId} {e : ShardSched} (h : (refreshSched sched items t).2.lookup s = some e) :
    sched.lookup s = some e ∨ sched.lookup s = none ∧ e = ⟨0, t, t⟩ := by
  have hkept := lookup_filter_fst (fun k => (items.map Prod.fst).contains k) s sched
  generalize hk : (sched.filter fun e => (items.map Prod.fst).contains e.1) = kept at hkept
  -- entries are only ever added, for a shard of the list that has none
  have hfold : ((refreshSched sched items t).2.lookup s = none → kept.lookup s = none) ∧
      ∀ e, (refreshSched sched items t).2.lookup s = some e →
        kept.lookup s = some e ∨ kept.lookup s = none ∧ s ∈ items.map Prod.fst ∧ e = ⟨0, t, t⟩ := by
    unfold refreshSched
    rw [hk]
    refine List.foldlRecOn (motive := fun acc : List PoolItem × List (ShardId × ShardSched) =>
      (acc.2.lookup s = none → kept.lookup s = none) ∧ ∀ e, acc.2.lookup s = some e →
        kept.lookup s = some e ∨ kept.lookup s = none ∧ s ∈ items.map Prod.fst ∧ e = ⟨0, t, t⟩) items _
      ⟨id, fun e he => Or.inl he⟩ ?_
    rintro ⟨due, old⟩ ⟨hnone, hsome⟩ ⟨shard, counter, cp⟩ hitem
    simp only
    cases hold : old.lookup shard with
    | some e₀ => exact ⟨hnone, hsome⟩
    | none =>
      simp only [List.lookup_append]
      by_cases hs : s = shard
      · subst hs
        simp only [hold, List.lookup_cons_self, Option.none_or, reduceCtorEq, false_imp_iff, Option.some.injEq, true_and]
        rintro e rfl
        exact Or.inr ⟨hnone hold, List.mem_map_of_mem hitem, rfl⟩
      · have hsame : (old.lookup s).or (List.lookup s [(shard, (⟨0, t, t⟩ : ShardSched))]) = old.lookup s := by
          rw [List.lookup_cons, beq_false_of_ne hs]
          simp
        rw [hsame]
        exact ⟨hnone, hsome⟩
  rcases hfold.2 e h with he | ⟨hnone, hmem, rfl⟩
  · left
    rw [hkept] at he
    by_cases hmem : (items.map Prod.fst).contains s = true
    · rwa [if_pos hmem] at he
    · rw [if_neg hmem] at he
      cases he
  · right
    rw [hkept, if_pos (List.contains_iff_mem.mpr hmem)] at hnone
    exact ⟨hnone, rfl⟩

def idleBackoff (pollIntervalMs backoffMs : Nat) : Nat :=
  if backoffMs = 0 then max pollIntervalMs 1 else min (backoffMs * 2) MAX_IDLE_BACKOFF_MS

section
variable {poll t : Nat} {sched : List (ShardId × ShardSched)} {step : SchedStep} {shard s : ShardId} {e e' : ShardSched}

theorem lookup_foldOutcome {result : PassOutcome} (h : (foldOutcome poll t sched (shard, result)).lookup s = some e') :
    ∃ e, sched.lookup s = some e ∧ (s ≠ shard ∧ e' = e ∨ s = shard ∧ (result = .active ∧ e'.backoffMs = 0 ∨
      result = .idle ∧ e'.backoffMs = idleBackoff poll e.backoffMs)) := by
  have hdrop : (sched.filter fun e => e.1 ≠ shard).lookup s = some e' → ∃ e, sched.lookup s = some e ∧ s ≠ shard ∧ e' = e := by
    intro h
    rw [lookup_filter_fst (fun k => decide (k ≠ shard))] at h
    by_cases hs : s = shard
    · simp [hs] at h
    · rw [if_pos (by simpa using hs)] at h
      exact ⟨e', h, hs, rfl⟩
  unfold foldOutcome at h
  cases result with
  | active =>
    simp only at h
    rw [lookup_map_of_key (by intro e; split <;> rfl), Option.map_eq_some_iff] at h
    obtain ⟨e, he, rfl⟩ := h
    refine ⟨e, he, ?_⟩
    by_cases hs : s = shard
    · exact Or.inr ⟨hs, Or.inl ⟨rfl, by simp [hs]⟩⟩
    · exact Or.inl ⟨hs, by simp [hs]⟩
  | idle =>
    simp only at h
    rw [lookup_map_of_key (by intro e; split <;> rfl), Option.map_eq_some_iff] at h
    obtain ⟨e, he, rfl⟩ := h
    refine ⟨e, he, ?_⟩
    by_cases hs : s = shard
    · exact Or.inr ⟨hs, Or.inr ⟨rfl, by simp [hs, idleBackoff]⟩⟩
    · exact Or.inl ⟨hs, by simp [hs]⟩
  | ended =>
    obtain ⟨e, he, hne⟩ := hdrop h
    exact ⟨e, he, Or.inl hne⟩
  | stopped =>
    obtain ⟨e, he, hne⟩ := hdrop h
    exact ⟨e, he, Or.inl hne⟩

theorem idleBackoff_le (hp : poll ≤ MAX_IDLE_BACKOFF_MS) (b : Nat) : idleBackoff poll b ≤ MAX_IDLE_BACKOFF_MS := by
  unfold idleBackoff MAX_IDLE_BACKOFF_MS at *
  split <;> omega

theorem le_idleBackoff {b : Nat} (hb : b ≤ MAX_IDLE_BACKOFF_MS) : b ≤ idleBackoff poll b := by
  unfold idleBackoff
  split <;> omega

/-- No backoff in the schedule is above the ceiling. -/
def Capped (sched : List (ShardId × ShardSched)) : Prop :=
  ∀ s e, sched.lookup s = some e → e.backoffMs ≤ MAX_IDLE_BACKOFF_MS

theorem capped_apply (hp : poll ≤ MAX_IDLE_BACKOFF_MS) (h : Capped sched) (step : SchedStep) :
    Capped (step.apply poll sched) := by
  intro s e' he'
  cases step with
  | cycle items t =>
    rcases lookup_refreshSched he' with he | ⟨_, rfl⟩
    · exact h s e' he
    · exact Nat.zero_le _
  | outcome shard result t =>
    obtain ⟨e, he, hcase⟩ := lookup_foldOutcome he'
    rcases hcase with ⟨_, rfl⟩ | ⟨_, ⟨_, hzero⟩ | ⟨_, hidle⟩⟩
    · exact h s e' he
    · rw [hzero]
      exact Nat.zero_le _
    · rw [hidle]
      exact idleBackoff_le hp _

theorem capped_runSched (hp : poll ≤ MAX_IDLE_BACKOFF_MS) (steps : List SchedStep) : Capped (runSched poll steps) := by
  unfold runSched
  refine List.foldlRecOn (motive := Capped) steps _ ?_ ?_
  · intro s e he
    cases he
  · intro sched h step _
    exact capped_apply hp h step

theorem backoffFits_of_capped (h : Capped sched) (step : SchedStep) : BackoffFits poll sched step := by
  refine ⟨h, ?_, ?_, ?_, ?_⟩
  · rintro s t e e' rfl he he'
    rw [SchedStep.apply] at he'
    obtain ⟨e₀, he₀, hcase⟩ := lookup_foldOutcome he'
    rw [he] at he₀
    cases he₀
    rcases hcase with ⟨hne, _⟩ | ⟨_, ⟨hcon, _⟩ | ⟨_, hidle⟩⟩
    · exact absurd rfl hne
    · cases hcon
    · rw [hidle]
      exact le_idleBackoff (h s e he)
  · intro s e e' hstep he he'
    cases step with
    | cycle items t =>
      rcases lookup_refreshSched he' with he₀ | ⟨hnone, _⟩
      · rw [he] at he₀
        cases he₀
        rfl
      · rw [he] at hnone
        cases hnone
    | outcome shard result t =>
      obtain ⟨e₀, he₀, ⟨_, rfl⟩ | ⟨rfl, _⟩⟩ := lookup_foldOutcome he'
      · rw [he] at he₀
        cases he₀
        rfl
      · exact absurd rfl (hstep result t)
  · rintro s t e' rfl he'
    rw [SchedStep.apply] at he'
    obtain ⟨e, _, ⟨hne, _⟩ | ⟨_, ⟨_, hzero⟩ | ⟨hcon, _⟩⟩⟩ := lookup_foldOutcome he'
    · exact absurd rfl hne
    · exact hzero
    · cases hcon
  · rintro s t e rfl he _
    have hle := h s e he
    unfold MAX_IDLE_BACKOFF_MS at hle
    omega

end

/-! ## Every run -/

def idlePasses (n : Nat) : List SchedStep :=
  .cycle [("s", 1, none)] 0 :: List.replicate n (.outcome "s" .idle 0)

/-- The ceiling holds over all cycles and pass outcomes exactly for the poll intervals below it. -/
theorem idle_backoff_fits_iff (pollIntervalMs : UInt64) :
    (∀ steps step, BackoffFits pollIntervalMs.toNat (runSched pollIntervalMs.toNat steps) step) ↔
      pollIntervalMs.toNat ≤ MAX_IDLE_BACKOFF_MS := by
  constructor
  · intro h
    have hfirst : (runSched pollIntervalMs.toNat (idlePasses 1)).lookup "s" =
        some ⟨max pollIntervalMs.toNat 1, 0 + max pollIntervalMs.toNat 1, 0⟩ := rfl
    exact le_trans (le_max_left _ _) ((h (idlePasses 1) (.cycle [] 0)).ceiling "s" _ hfirst)
  · intro hp steps step
    exact backoffFits_of_capped (capped_runSched hp steps) step

/-- With ten seconds between polls the first idle pass waits ten and the second five. -/
theorem idle_backoff_above_ceiling :
    ((runSched 10000 (idlePasses 1)).lookup "s").map ShardSched.backoffMs = some 10000 ∧
      ((runSched 10000 (idlePasses 2)).lookup "s").map ShardSched.backoffMs = some 5000 ∧
      ((runSched (2 ^ 63) (idlePasses 1)).lookup "s").map ShardSched.backoffMs = some (2 ^ 63) ∧ ¬ 2 ^ 63 * 2 < 2 ^ 64 ∧
      ¬ ∀ (pollIntervalMs : UInt64) (steps : List SchedStep) (step : SchedStep),
        BackoffFits pollIntervalMs.toNat (runSched pollIntervalMs.toNat steps) step := by
  refine ⟨by decide, by decide, by decide, by decide, ?_⟩
  intro h
  have hle := (h 10000 (idlePasses 1) (.cycle [] 0)).ceiling "s" ⟨10000, 10000, 0⟩ (by decide)
  exact absurd hle (by decide)

end StreamsConsumer
