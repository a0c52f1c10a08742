import StreamsConsumer.Conc.Prog

/-!
# Reasoning about one thread among others

A shared state evolves along a preorder `le` and keeps an invariant `Inv`.
What a thread knows about the shared state is upward closed along `le`, so no
step of another thread can take it away. `wp` is the weakest such
precondition of a program; a loop carries an upward-closed loop invariant.
-/

namespace Conc

/-- How a shared state answers the requests of the caller `w`. A choice `c` resolves what the
environment decides; `none` means that the choice is not possible here. -/
structure Handler (R : Type 1) (A : R → Type) (W C σ : Type) where
  exec : W → (r : R) → C → σ → Option (A r × σ)

structure Rely (σ : Type) where
  Inv : σ → Prop
  le : σ → σ → Prop
  refl : ∀ s, le s s
  trans : ∀ {a b c}, le a b → le b c → le a c

def Rely.Up {σ : Type} (L : Rely σ) (P : σ → Prop) : Prop :=
  ∀ s s', L.le s s' → L.Inv s' → P s → P s'

section
variable {R : Type 1} {A : R → Type} {W C σ α β γ : Type} (H : Handler R A W C σ) (L : Rely σ) (w : W)

/-- Issuing `r` from `s`, after any steps of other threads, keeps the protocol and leads to `Q`. -/
def ask (r : R) (Q : A r → σ → Prop) (s : σ) : Prop :=
  ∀ s₁, L.le s s₁ → L.Inv s₁ → ∀ c a s₂, H.exec w r c s₁ = some (a, s₂) →
    L.Inv s₂ ∧ L.le s₁ s₂ ∧ Q a s₂

def wp : {α : Type} → Prog R A α → (α → σ → Prop) → σ → Prop
  | _, .ret a, Q, s => Q a s
  | _, .call r k, Q, s => ask H L w r (fun a s' => wp (k a) Q s') s
  | _, @Prog.loop _ _ _ β _ body cur k, Q, s =>
    ∃ J : β → σ → Prop, (∀ b, L.Up (J b)) ∧
      (∀ b s', L.Inv s' → J b s' → wp (body b) (Sum.elim J fun c => wp (k c) Q) s') ∧
      wp cur (Sum.elim J fun c => wp (k c) Q) s
  | _, @Prog.par _ _ _ β n ts k, Q, s =>
    ∃ P : Fin n → β → σ → Prop, (∀ i b, L.Up (P i b)) ∧ (∀ i, wp (ts i) (P i) s) ∧
      ∀ b s', L.le s s' → L.Inv s' → (∀ i, P i (b i) s') → wp (k b) Q s'

variable {H L w}

theorem wp_loop (body : β → Prog R A (β ⊕ γ)) (cur : Prog R A (β ⊕ γ)) (k : γ → Prog R A α)
    (Q : α → σ → Prop) (s : σ) :
    wp H L w (.loop body cur k) Q s ↔ ∃ J : β → σ → Prop, (∀ b, L.Up (J b)) ∧
      (∀ b s', L.Inv s' → J b s' → wp H L w (body b) (Sum.elim J fun c => wp H L w (k c) Q) s') ∧
      wp H L w cur (Sum.elim J fun c => wp H L w (k c) Q) s := Iff.rfl

theorem wp_par {n : Nat} (ts : Fin n → Prog R A β) (k : (Fin n → β) → Prog R A α)
    (Q : α → σ → Prop) (s : σ) :
    wp H L w (.par n ts k) Q s ↔ ∃ P : Fin n → β → σ → Prop, (∀ i b, L.Up (P i b)) ∧
      (∀ i, wp H L w (ts i) (P i) s) ∧
      ∀ b s', L.le s s' → L.Inv s' → (∀ i, P i (b i) s') → wp H L w (k b) Q s' := Iff.rfl

theorem ask_mono {r : R} {Q Q' : A r → σ → Prop} (h : ∀ a s, L.Inv s → Q a s → Q' a s) {s : σ}
    (ha : ask H L w r Q s) : ask H L w r Q' s := by
  intro s₁ h₁ i₁ c a s₂ he
  obtain ⟨i₂, h₂, hq⟩ := ha s₁ h₁ i₁ c a s₂ he
  exact ⟨i₂, h₂, h a s₂ i₂ hq⟩

theorem wp_mono : ∀ {α : Type} (p : Prog R A α) {Q Q' : α → σ → Prop},
    (∀ a s, L.Inv s → Q a s → Q' a s) → ∀ {s}, L.Inv s → wp H L w p Q s → wp H L w p Q' s
  | _, .ret a, _, _, h, s, hi, hp => h a s hi hp
  | _, .call r k, _, _, h, s, _, hp => ask_mono (fun a _ hi hq => wp_mono (k a) h hi hq) hp
  | _, .loop body cur k, Q, Q', h, s, hi, hp => by
    rw [wp_loop] at hp ⊢
    obtain ⟨J, hJ, hb, hc⟩ := hp
    have hk : ∀ x s, L.Inv s → Sum.elim J (fun c => wp H L w (k c) Q) x s →
        Sum.elim J (fun c => wp H L w (k c) Q') x s := by
      rintro (b | c) s hi hx
      · exact hx
      · exact wp_mono (k c) h hi hx
    exact ⟨J, hJ, fun b s' hi' hj => wp_mono (body b) hk hi' (hb b s' hi' hj), wp_mono cur hk hi hc⟩
  | _, .par n ts k, _, _, h, s, _, hp => by
    rw [wp_par] at hp ⊢
    obtain ⟨P, hP, ht, hk⟩ := hp
    exact ⟨P, hP, ht, fun b s' hl hi hb => wp_mono (k b) h hi (hk b s' hl hi hb)⟩

theorem wp_up : ∀ {α : Type} (p : Prog R A α) {Q : α → σ → Prop}, (∀ a, L.Up (Q a)) →
    L.Up (wp H L w p Q)
  | _, .ret a, _, h => h a
  | _, .call r k, _, _ => fun s s' hl _ hp s₁ h₁ => hp s₁ (L.trans hl h₁)
  | _, .loop body cur k, Q, h => by
    intro s s' hl hi hp
    rw [wp_loop] at hp ⊢
    obtain ⟨J, hJ, hb, hc⟩ := hp
    refine ⟨J, hJ, hb, wp_up cur ?_ s s' hl hi hc⟩
    rintro (b | c)
    · exact hJ b
    · exact wp_up (k c) h
  | _, .par n ts k, _, h => by
    intro s s' hl hi hp
    rw [wp_par] at hp ⊢
    obtain ⟨P, hP, ht, hk⟩ := hp
    exact ⟨P, hP, fun i => wp_up (ts i) (hP i) s s' hl hi (ht i),
      fun b s'' hl' hi' hb => hk b s'' (L.trans hl hl') hi' hb⟩

theorem wp_bind : ∀ {α : Type} (p : Prog R A α) (f : α → Prog R A β) {Q : β → σ → Prop} {s},
    L.Inv s → wp H L w p (fun a => wp H L w (f a) Q) s → wp H L w (p.bind f) Q s
  | _, .ret _, _, _, _, _, hp => hp
  | _, .call _ k, f, _, _, _, hp => ask_mono (fun a _ hi hq => wp_bind (k a) f hi hq) hp
  | _, .loop body cur k, f, Q, s, hi, hp => by
    rw [Prog.bind, wp_loop]
    obtain ⟨J, hJ, hb, hc⟩ := (wp_loop ..).mp hp
    have hk : ∀ x s, L.Inv s → Sum.elim J (fun c => wp H L w (k c) fun a => wp H L w (f a) Q) x s →
        Sum.elim J (fun c => wp H L w ((k c).bind f) Q) x s := by
      rintro (b | c) s hi hx
      · exact hx
      · exact wp_bind (k c) f hi hx
    exact ⟨J, hJ, fun b s' hi' hj => wp_mono (body b) hk hi' (hb b s' hi' hj), wp_mono cur hk hi hc⟩
  | _, .par n ts k, f, _, _, _, hp => by
    rw [Prog.bind, wp_par]
    obtain ⟨P, hP, ht, hk⟩ := (wp_par ..).mp hp
    exact ⟨P, hP, ht, fun b s' hl hi hb => wp_bind (k b) f hi (hk b s' hl hi hb)⟩

/-- The frame rule: what is upward closed and known before is known after. -/
theorem wp_frame {F : σ → Prop} (hF : L.Up F) : ∀ {α : Type} (p : Prog R A α) {Q : α → σ → Prop} {s : σ},
    L.Inv s → F s → wp H L w p Q s → wp H L w p (fun a s' => Q a s' ∧ F s') s
  | _, .ret _, _, _, _, hf, hp => ⟨hp, hf⟩
  | _, .call _ k, Q, s, _, hf, hp => by
    intro s₁ h₁ i₁ c a s₂ he
    obtain ⟨i₂, h₂, hq⟩ := hp s₁ h₁ i₁ c a s₂ he
    have hf₂ : F s₂ := hF s s₂ (L.trans h₁ h₂) i₂ hf
    exact ⟨i₂, h₂, wp_frame hF (k a) i₂ hf₂ hq⟩
  | _, .loop body cur k, Q, s, hi, hf, hp => by
    obtain ⟨J, hJ, hb, hc⟩ := (wp_loop ..).mp hp
    have hk : ∀ x s, L.Inv s → (Sum.elim J (fun c => wp H L w (k c) Q) x s ∧ F s) →
        Sum.elim (fun b s => J b s ∧ F s) (fun c => wp H L w (k c) fun a s' => Q a s' ∧ F s') x s := by
      intro x s hi hx
      cases x with
      | inl b => exact hx
      | inr c => exact wp_frame hF (k c) hi hx.2 hx.1
    refine (wp_loop ..).mpr ⟨fun b s => J b s ∧ F s, ?_, ?_, ?_⟩
    · intro b s s' hl hi' hj
      exact ⟨hJ b s s' hl hi' hj.1, hF s s' hl hi' hj.2⟩
    · intro b s' hi' hj
      exact wp_mono (body b) hk hi' (wp_frame hF (body b) hi' hj.2 (hb b s' hi' hj.1))
    · exact wp_mono cur hk hi (wp_frame hF cur hi hf hc)
  | _, .par n ts k, Q, s, hi, hf, hp => by
    obtain ⟨P, hP, ht, hk⟩ := (wp_par ..).mp hp
    refine (wp_par ..).mpr ⟨P, hP, ht, fun b s' hl hi' hb => ?_⟩
    exact wp_frame hF (k b) hi' (hF s s' hl hi' hf) (hk b s' hl hi' hb)

/-- Sequencing: a specification of the first part, then the rest from any later state it leaves. -/
theorem wp_seq {p : Prog R A α} {f : α → Prog R A β} {P : α → σ → Prop} {Q : β → σ → Prop} {s : σ}
    (hi : L.Inv s) (hp : wp H L w p P s)
    (hf : ∀ a s', L.le s s' → L.Inv s' → P a s' → wp H L w (f a) Q s') : wp H L w (p.bind f) Q s := by
  have hle : L.Up (L.le s) := fun _ _ hl _ h => L.trans h hl
  have hp' := wp_frame hle p hi (L.refl s) hp
  exact wp_bind p f hi (wp_mono p (fun a s' hi' h => hf a s' h.2 hi' h.1) hi hp')

/-- The loop rule: an upward-closed `J` that the body keeps until it yields a result in `Q`. -/
theorem wp_iter {body : β → Prog R A (β ⊕ γ)} {b : β} {Q : γ → σ → Prop} (J : β → σ → Prop)
    (hJ : ∀ b, L.Up (J b)) (hb : ∀ b s, L.Inv s → J b s → wp H L w (body b) (Sum.elim J Q) s)
    {s : σ} (hi : L.Inv s) (h : J b s) : wp H L w (Prog.iter body b) Q s :=
  (wp_loop ..).mpr ⟨J, hJ, hb, hb b s hi h⟩

theorem wp_each {f : β → Prog R A Unit} {J : σ → Prop} :
    ∀ {xs : List β}, (∀ x ∈ xs, ∀ s, L.Inv s → J s → wp H L w (f x) (fun _ => J) s) →
      ∀ {s}, L.Inv s → J s → wp H L w (Prog.each f xs) (fun _ => J) s
  | [], _, _, _, hj => hj
  | x :: xs, hf, s, hi, hj => by
    refine wp_seq hi (hf x (by simp) s hi hj) ?_
    intro _ s' _ hi' hj'
    exact wp_each (fun y hy => hf y (List.mem_cons_of_mem _ hy)) hi' hj'

theorem wp_join {ts : List (Prog R A β)} {Q : List β → σ → Prop} {s : σ}
    (ht : ∀ t ∈ ts, wp H L w t (fun _ _ => True) s)
    (hk : ∀ bs s', L.le s s' → L.Inv s' → Q bs s') : wp H L w (Prog.join ts) Q s :=
  (wp_par ..).mpr ⟨fun _ _ _ => True, fun _ _ _ _ _ _ h => h, fun i => ht _ (List.get_mem ts i),
    fun _ s' hl hi _ => hk _ s' hl hi⟩

/-! ## Steps keep the precondition -/

theorem wp_focus : ∀ {α : Type} (p : Prog R A α) {Q : α → σ → Prop} {π : List Nat} {s : σ}
    {x : (r : R) × (A r → Prog R A α)} {c : C} {a : A x.1} {s' : σ},
    (∀ a, L.Up (Q a)) → L.Inv s → wp H L w p Q s → p.focus π = some x →
    H.exec w x.1 c s = some (a, s') → L.Inv s' ∧ L.le s s' ∧ wp H L w (x.2 a) Q s'
  | _, .ret _, _, _, _, _, _, _, _, _, _, _, hf, _ => by simp [Prog.focus] at hf
  | _, .call r k, Q, π, s, x, c, a, s', _, hi, hp, hf, he => by
    simp only [Prog.focus, Option.some.injEq] at hf
    subst hf
    exact hp s (L.refl s) hi c a s' he
  | _, .loop body cur k, Q, π, s, x, c, a, s', hQ, hi, hp, hf, he => by
    obtain ⟨J, hJ, hb, hc⟩ := (wp_loop ..).mp hp
    simp only [Prog.focus, Option.map_eq_some_iff] at hf
    obtain ⟨y, hy, rfl⟩ := hf
    have hK : ∀ x, L.Up (Sum.elim J (fun c => wp H L w (k c) Q) x) := by
      rintro (b | c)
      · exact hJ b
      · exact wp_up (k c) hQ
    obtain ⟨i', l', h'⟩ := wp_focus cur hK hi hc hy he
    exact ⟨i', l', (wp_loop ..).mpr ⟨J, hJ, hb, h'⟩⟩
  | _, .par n ts k, Q, [], _, _, _, _, _, _, _, _, hf, _ => by simp [Prog.focus] at hf
  | _, .par n ts k, Q, i :: π, s, x, c, a, s', hQ, hi, hp, hf, he => by
    obtain ⟨P, hP, ht, hk⟩ := (wp_par ..).mp hp
    simp only [Prog.focus] at hf
    split at hf
    case isFalse => cases hf
    rename_i hn
    simp only [Option.map_eq_some_iff] at hf
    obtain ⟨y, hy, rfl⟩ := hf
    obtain ⟨i', l', h'⟩ := wp_focus (ts ⟨i, hn⟩) (hP ⟨i, hn⟩) hi (ht ⟨i, hn⟩) hy he
    refine ⟨i', l', (wp_par ..).mpr ⟨P, hP, fun j => ?_, fun b s'' hl hi' hb =>
      hk b s'' (L.trans l' hl) hi' hb⟩⟩
    -- the stepped branch by the hypothesis, every other branch because its precondition is upward closed
    by_cases hj : j = ⟨i, hn⟩
    · subst hj; simpa using h'
    · rw [Function.update_of_ne hj]
      exact wp_up (ts j) (hP j) s s' l' i' (ht j)

theorem wp_silent : ∀ {α : Type} (p : Prog R A α) {Q : α → σ → Prop} {π : List Nat} {s : σ}
    {p' : Prog R A α}, L.Inv s → wp H L w p Q s → p.silent π = some p' → wp H L w p' Q s
  | _, .ret _, _, _, _, _, _, _, hs => by simp [Prog.silent] at hs
  | _, .call _ _, _, _, _, _, _, _, hs => by simp [Prog.silent] at hs
  | _, .loop body cur k, Q, π, s, p', hi, hp, hs => by
    obtain ⟨J, hJ, hb, hc⟩ := (wp_loop ..).mp hp
    simp only [Prog.silent] at hs
    split at hs
    · rename_i b hr
      cases hs
      rw [Prog.eq_ret_of_ret? hr] at hc
      exact (wp_loop ..).mpr ⟨J, hJ, hb, hb b s hi hc⟩
    · rename_i c hr
      cases hs
      rw [Prog.eq_ret_of_ret? hr] at hc
      exact hc
    · simp only [Option.map_eq_some_iff] at hs
      obtain ⟨cur', hcur, rfl⟩ := hs
      exact (wp_loop ..).mpr ⟨J, hJ, hb, wp_silent cur hi hc hcur⟩
  | _, .par n ts k, Q, [], s, p', hi, hp, hs => by
    obtain ⟨P, hP, ht, hk⟩ := (wp_par ..).mp hp
    simp only [Prog.silent, Option.map_eq_some_iff] at hs
    obtain ⟨b, hb, rfl⟩ := hs
    refine hk b s (L.refl s) hi fun i => ?_
    have := ht i
    rwa [Prog.results_eq hb i] at this
  | _, .par n ts k, Q, i :: π, s, p', hi, hp, hs => by
    obtain ⟨P, hP, ht, hk⟩ := (wp_par ..).mp hp
    simp only [Prog.silent] at hs
    split at hs
    case isFalse => cases hs
    rename_i hn
    simp only [Option.map_eq_some_iff] at hs
    obtain ⟨t, htt, rfl⟩ := hs
    refine (wp_par ..).mpr ⟨P, hP, fun j => ?_, hk⟩
    by_cases hj : j = ⟨i, hn⟩
    · subst hj; simpa using wp_silent (ts ⟨i, hn⟩) hi (ht ⟨i, hn⟩) htt
    · rw [Function.update_of_ne hj]; exact ht j

end

end Conc
