import Mathlib.Order.ConditionallyCompleteLattice.Basic
import Mathlib.Order.Lattice.Nat

/-!
# Behaviours and fairness

A behaviour is an infinite sequence of states. An action relates a state to a
next one, and may leave it as it is; fairness and `Stutter` count only the
steps that change the state.
-/

namespace Conc

section
variable {σ : Type}

def Enabled (A : σ → σ → Prop) (s : σ) : Prop := ∃ s', A s s'

def Stutter (A : σ → σ → Prop) (s s' : σ) : Prop := A s s' ∨ s' = s

def Angle (A : σ → σ → Prop) (s s' : σ) : Prop := A s s' ∧ s' ≠ s

def WeaklyFair (A : σ → σ → Prop) (e : ℕ → σ) : Prop :=
  ∀ n, (∀ m ≥ n, Enabled (Angle A) (e m)) → ∃ m ≥ n, Angle A (e m) (e (m + 1))

def StronglyFair (A : σ → σ → Prop) (e : ℕ → σ) : Prop :=
  (∀ n, ∃ m ≥ n, Enabled (Angle A) (e m)) → ∀ n, ∃ m ≥ n, Angle A (e m) (e (m + 1))

theorem StronglyFair.weaklyFair {A : σ → σ → Prop} {e : ℕ → σ} (h : StronglyFair A e) : WeaklyFair A e := by
  intro n hn
  refine h (fun k => ⟨max n k, le_max_right n k, hn _ (le_max_left n k)⟩) n

theorem stronglyFair_of_disabled {A : σ → σ → Prop} {e : ℕ → σ} {n : ℕ}
    (h : ∀ m ≥ n, ¬ Enabled A (e m)) : StronglyFair A e := by
  intro hi
  obtain ⟨m, hm, s', ha, _⟩ := hi n
  exact absurd ⟨s', ha⟩ (h m hm)

theorem always_of_step {P : σ → Prop} {A : σ → σ → Prop} {e : ℕ → σ} (h0 : P (e 0))
    (hn : ∀ n, Stutter A (e n) (e (n + 1))) (hs : ∀ s s', P s → A s s' → P s') : ∀ n, P (e n)
  | 0 => h0
  | n + 1 => by
    have ih := always_of_step h0 hn hs n
    rcases hn n with h | h
    · exact hs _ _ ih h
    · rwa [h]

theorem persists {P : σ → Prop} {e : ℕ → σ} {n : ℕ} (hs : ∀ m ≥ n, P (e m) → P (e (m + 1)))
    {k : ℕ} (hk : n ≤ k) (h : P (e k)) : ∀ m ≥ k, P (e m) := by
  intro m hm
  induction m, hm using Nat.le_induction with
  | base => exact h
  | succ m hm ih => exact hs m (hk.trans hm) ih

theorem WeaklyFair.occurs {A : σ → σ → Prop} {e : ℕ → σ} (hf : WeaklyFair A e) {n : ℕ}
    (he : ∀ m ≥ n, Enabled A (e m)) (hc : ∀ s s', A s s' → s' ≠ s) : ∃ m ≥ n, A (e m) (e (m + 1)) := by
  obtain ⟨m, hm, ha, _⟩ := hf n fun m hm => by
    obtain ⟨s', hs⟩ := he m hm
    exact ⟨s', hs, hc _ _ hs⟩
  exact ⟨m, hm, ha⟩

theorem eventually_constant {f : ℕ → ℕ} {B : ℕ} (hm : ∀ n, f n ≤ f (n + 1)) (hB : ∀ n, f n ≤ B) :
    ∃ N, ∀ n ≥ N, f n = f N := by
  have hne : (Set.range f).Nonempty := ⟨f 0, 0, rfl⟩
  have hbd : BddAbove (Set.range f) := ⟨B, by rintro _ ⟨n, rfl⟩; exact hB n⟩
  obtain ⟨N, hN⟩ := Nat.sSup_mem hne hbd
  refine ⟨N, fun n hn => le_antisymm ?_ (monotone_nat_of_le_succ hm hn)⟩
  rw [hN]
  exact le_csSup hbd ⟨n, rfl⟩

/-- The rule of ranks: while the goal is missed the rank falls again and again. -/
theorem eventually_of_rank (goal : σ → Prop) (rank : σ → ℕ) {e : ℕ → σ} {N : ℕ}
    (h : ∀ n ≥ N, ¬ goal (e n) → ∃ m ≥ n, rank (e m) < rank (e n)) : ∃ n ≥ N, goal (e n) := by
  have key : ∀ r, ∀ n ≥ N, rank (e n) = r → ∃ m ≥ n, goal (e m) := by
    intro r
    induction r using Nat.strong_induction_on with
    | _ r ih =>
      intro n hn hr
      by_cases hg : goal (e n)
      · exact ⟨n, le_refl n, hg⟩
      · obtain ⟨m, hm, hlt⟩ := h n hn hg
        obtain ⟨k, hk, hgk⟩ := ih _ (hr ▸ hlt) m (hn.trans hm) rfl
        exact ⟨k, hm.trans hk, hgk⟩
  exact key _ N (le_refl N) rfl

end

end Conc
