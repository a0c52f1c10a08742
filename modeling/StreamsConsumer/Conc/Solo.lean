import StreamsConsumer.Conc.Logic

/-!
# Runs of one thread

One program without concurrent branches, among others that are known only by
their interference `I` with the shared state. Unlike in `Conc.Logic`, what such
a thread knows need not survive its own steps, only those of the others. `G` is
what has to hold at every moment of a run.
-/

namespace Conc

section
variable {R : Type 1} {A : R → Type} {W C σ α β γ : Type}

/-- The runs of a program: its own requests and silent steps, and steps of the others in between. -/
inductive Runs (H : Handler R A W C σ) (I : σ → σ → Prop) (w : W) {α : Type} :
    Prog R A α → σ → Prog R A α → σ → Prop where
  | refl (p : Prog R A α) (s : σ) : Runs H I w p s p s
  | call {p q : Prog R A α} {s s' t : σ} {π : List Nat} {x : (r : R) × (A r → Prog R A α)} {c : C} {a : A x.1}
      (hf : p.focus π = some x) (he : H.exec w x.1 c s = some (a, s')) (h : Runs H I w (x.2 a) s' q t) :
      Runs H I w p s q t
  | silent {p p' q : Prog R A α} {s t : σ} {π : List Nat} (hs : p.silent π = some p') (h : Runs H I w p' s q t) :
      Runs H I w p s q t
  | other {p q : Prog R A α} {s s' t : σ} (hi : I s s') (h : Runs H I w p s' q t) : Runs H I w p s q t

variable (H : Handler R A W C σ) (I : σ → σ → Prop) (w : W) (G : σ → Prop)

def solo : {α : Type} → Prog R A α → (α → σ → Prop) → σ → Prop
  | _, .ret a, Q, s => Q a s
  | _, .call r k, Q, s => ∀ s₁, I s s₁ → ∀ c a s₂, H.exec w r c s₁ = some (a, s₂) → G s₂ ∧ solo (k a) Q s₂
  | _, @Prog.loop _ _ _ β _ body cur k, Q, s =>
    ∃ J : β → σ → Prop, (∀ b s s', I s s' → J b s → J b s') ∧
      (∀ b s', J b s' → solo (body b) (Sum.elim J fun c => solo (k c) Q) s') ∧
      solo cur (Sum.elim J fun c => solo (k c) Q) s
  | _, .par _ _ _, _, _ => False

variable {H I w G}

theorem solo_mono : ∀ {α : Type} (p : Prog R A α) {Q Q' : α → σ → Prop}, (∀ a s, Q a s → Q' a s) →
    ∀ {s}, solo H I w G p Q s → solo H I w G p Q' s
  | _, .ret a, _, _, h, s, hp => h a s hp
  | _, .call _ k, _, _, h, _, hp => by
    intro s₁ h₁ c a s₂ he
    obtain ⟨hg, hk⟩ := hp s₁ h₁ c a s₂ he
    exact ⟨hg, solo_mono (k a) h hk⟩
  | _, .loop body cur k, Q, Q', h, s, hp => by
    obtain ⟨J, hJ, hb, hc⟩ := hp
    have hk : ∀ x s, Sum.elim J (fun c => solo H I w G (k c) Q) x s →
        Sum.elim J (fun c => solo H I w G (k c) Q') x s := by
      intro x s hx
      cases x with
      | inl b => exact hx
      | inr c => exact solo_mono (k c) h hx
    exact ⟨J, hJ, fun b s' hj => solo_mono (body b) hk (hb b s' hj), solo_mono cur hk hc⟩
  | _, .par _ _ _, _, _, _, _, hp => hp.elim

theorem solo_bind : ∀ {α : Type} (p : Prog R A α) (f : α → Prog R A β) {Q : β → σ → Prop} {s},
    solo H I w G p (fun a => solo H I w G (f a) Q) s → solo H I w G (p.bind f) Q s
  | _, .ret _, _, _, _, hp => hp
  | _, .call _ k, f, _, _, hp => by
    intro s₁ h₁ c a s₂ he
    obtain ⟨hg, hk⟩ := hp s₁ h₁ c a s₂ he
    exact ⟨hg, solo_bind (k a) f hk⟩
  | _, .loop body cur k, f, Q, s, hp => by
    obtain ⟨J, hJ, hb, hc⟩ := hp
    have hk : ∀ x s, Sum.elim J (fun c => solo H I w G (k c) fun a => solo H I w G (f a) Q) x s →
        Sum.elim J (fun c => solo H I w G ((k c).bind f) Q) x s := by
      intro x s hx
      cases x with
      | inl b => exact hx
      | inr c => exact solo_bind (k c) f hx
    exact ⟨J, hJ, fun b s' hj => solo_mono (body b) hk (hb b s' hj), solo_mono cur hk hc⟩
  | _, .par _ _ _, _, _, _, hp => hp.elim

theorem solo_seq {p : Prog R A α} {f : α → Prog R A β} {P : α → σ → Prop} {Q : β → σ → Prop} {s : σ}
    (hp : solo H I w G p P s) (hf : ∀ a s', P a s' → solo H I w G (f a) Q s') :
    solo H I w G (p.bind f) Q s :=
  solo_bind p f (solo_mono p hf hp)

theorem solo_iter {body : β → Prog R A (β ⊕ γ)} {b : β} {Q : γ → σ → Prop} (J : β → σ → Prop)
    (hJ : ∀ b s s', I s s' → J b s → J b s') (hb : ∀ b s, J b s → solo H I w G (body b) (Sum.elim J Q) s)
    {s : σ} (h : J b s) : solo H I w G (Prog.iter body b) Q s :=
  ⟨J, hJ, hb, hb b s h⟩

theorem solo_frame {F : σ → Prop} (hI : ∀ s s', I s s' → F s → F s')
    (hF : ∀ r c s a s', H.exec w r c s = some (a, s') → F s → F s') :
    ∀ {α : Type} (p : Prog R A α) {Q : α → σ → Prop} {s : σ}, F s → solo H I w G p Q s →
      solo H I w G p (fun a s' => Q a s' ∧ F s') s
  | _, .ret _, _, _, hf, hp => ⟨hp, hf⟩
  | _, .call r k, Q, s, hf, hp => by
    intro s₁ h₁ c a s₂ he
    obtain ⟨hg, hk⟩ := hp s₁ h₁ c a s₂ he
    exact ⟨hg, solo_frame hI hF (k a) (hF r c s₁ a s₂ he (hI s s₁ h₁ hf)) hk⟩
  | _, @Prog.loop _ _ _ β γ body cur k, Q, s, hf, hp => by
    obtain ⟨J, hJ, hb, hc⟩ := hp
    have hk : ∀ (x : β ⊕ γ) s', Sum.elim J (fun c => solo H I w G (k c) Q) x s' ∧ F s' →
        Sum.elim (fun b s' => J b s' ∧ F s') (fun c => solo H I w G (k c) fun a s' => Q a s' ∧ F s') x s' := by
      intro x s' hx
      cases x with
      | inl b => exact hx
      | inr c => exact solo_frame hI hF (k c) hx.2 hx.1
    refine ⟨fun b s' => J b s' ∧ F s', fun b s s' hi hj => ⟨hJ b s s' hi hj.1, hI s s' hi hj.2⟩, ?_, ?_⟩
    · intro b s' hj
      exact solo_mono (body b) hk (solo_frame hI hF (body b) hj.2 (hb b s' hj.1))
    · exact solo_mono cur hk (solo_frame hI hF cur hf hc)
  | _, .par _ _ _, _, _, _, hp => hp.elim

def Uses (P : R → Prop) : {α : Type} → Prog R A α → Prop
  | _, .ret _ => True
  | _, .call r k => P r ∧ ∀ a, Uses P (k a)
  | _, .loop body cur k => (∀ b, Uses P (body b)) ∧ Uses P cur ∧ ∀ c, Uses P (k c)
  | _, .par _ _ _ => False

theorem uses_bind {P : R → Prop} : ∀ {α : Type} {p : Prog R A α} {f : α → Prog R A β},
    Uses P p → (∀ a, Uses P (f a)) → Uses P (p.bind f)
  | _, .ret a, _, _, hf => hf a
  | _, .call _ _, _, hp, hf => ⟨hp.1, fun a => uses_bind (hp.2 a) hf⟩
  | _, .loop _ _ _, _, hp, hf => ⟨hp.1, hp.2.1, fun c => uses_bind (hp.2.2 c) hf⟩
  | _, .par _ _ _, _, hp, _ => hp.elim

theorem solo_of_uses {P : R → Prop} {K : σ → Prop} (hI : ∀ s s', I s s' → K s → K s') (hG : ∀ s, K s → G s)
    (h : ∀ r, P r → ∀ c s a s', K s → H.exec w r c s = some (a, s') → K s') :
    ∀ {α : Type} (p : Prog R A α), Uses P p → ∀ {s}, K s → solo H I w G p (fun _ => K) s
  | _, .ret _, _, _, hk => hk
  | _, .call r k, hp, s, hk => by
    intro s₁ h₁ c a s₂ he
    have hk₂ := h r hp.1 c s₁ a s₂ (hI s s₁ h₁ hk) he
    exact ⟨hG s₂ hk₂, solo_of_uses hI hG h (k a) (hp.2 a) hk₂⟩
  | _, @Prog.loop _ _ _ δ ε body cur k, hp, s, hk => by
    have hx : ∀ (x : δ ⊕ ε) s, K s → Sum.elim (fun _ => K) (fun c => solo H I w G (k c) fun _ => K) x s := by
      intro x s hk
      cases x with
      | inl b => exact hk
      | inr c => exact solo_of_uses hI hG h (k c) (hp.2.2 c) hk
    refine ⟨fun _ => K, fun _ => hI, fun b s' hk' => ?_, ?_⟩
    · exact solo_mono (body b) hx (solo_of_uses hI hG h (body b) (hp.1 b) hk')
    · exact solo_mono cur hx (solo_of_uses hI hG h cur hp.2.1 hk)
  | _, .par _ _ _, hp, _, _ => hp.elim

/-! ## Steps keep the precondition -/

theorem solo_stable (ht : ∀ a b c, I a b → I b c → I a c) : ∀ {α : Type} (p : Prog R A α) {Q : α → σ → Prop},
    (∀ a s s', I s s' → Q a s → Q a s') → ∀ {s s'}, I s s' → solo H I w G p Q s → solo H I w G p Q s'
  | _, .ret a, _, hQ, s, s', hi, hp => hQ a s s' hi hp
  | _, .call _ _, _, _, s, s', hi, hp => fun s₁ h₁ => hp s₁ (ht s s' s₁ hi h₁)
  | _, .loop body cur k, Q, hQ, s, s', hi, hp => by
    obtain ⟨J, hJ, hb, hc⟩ := hp
    refine ⟨J, hJ, hb, solo_stable ht cur ?_ hi hc⟩
    intro x s s' hi hx
    cases x with
    | inl b => exact hJ b s s' hi hx
    | inr c => exact solo_stable ht (k c) hQ hi hx
  | _, .par _ _ _, _, _, _, _, _, hp => hp.elim

theorem solo_focus (hr : ∀ s, I s s) : ∀ {α : Type} (p : Prog R A α) {Q : α → σ → Prop} {π : List Nat} {s : σ}
    {x : (r : R) × (A r → Prog R A α)} {c : C} {a : A x.1} {s' : σ}, solo H I w G p Q s → p.focus π = some x →
    H.exec w x.1 c s = some (a, s') → G s' ∧ solo H I w G (x.2 a) Q s'
  | _, .ret _, _, _, _, _, _, _, _, _, hf, _ => by simp [Prog.focus] at hf
  | _, .call r k, Q, π, s, x, c, a, s', hp, hf, he => by
    simp only [Prog.focus, Option.some.injEq] at hf
    subst hf
    exact hp s (hr s) c a s' he
  | _, .loop body cur k, Q, π, s, x, c, a, s', hp, hf, he => by
    obtain ⟨J, hJ, hb, hc⟩ := hp
    simp only [Prog.focus, Option.map_eq_some_iff] at hf
    obtain ⟨y, hy, rfl⟩ := hf
    obtain ⟨hg, h'⟩ := solo_focus hr cur hc hy he
    exact ⟨hg, J, hJ, hb, h'⟩
  | _, .par _ _ _, _, _, _, _, _, _, _, hp, _, _ => hp.elim

theorem solo_silent : ∀ {α : Type} (p : Prog R A α) {Q : α → σ → Prop} {π : List Nat} {s : σ} {p' : Prog R A α},
    solo H I w G p Q s → p.silent π = some p' → solo H I w G p' Q s
  | _, .ret _, _, _, _, _, _, hs => by simp [Prog.silent] at hs
  | _, .call _ _, _, _, _, _, _, hs => by simp [Prog.silent] at hs
  | _, .loop body cur k, Q, π, s, p', hp, hs => by
    obtain ⟨J, hJ, hb, hc⟩ := hp
    simp only [Prog.silent] at hs
    split at hs
    · rename_i b hr
      cases hs
      rw [Prog.eq_ret_of_ret? hr] at hc
      exact ⟨J, hJ, hb, hb b s hc⟩
    · rename_i c hr
      cases hs
      rw [Prog.eq_ret_of_ret? hr] at hc
      exact hc
    · simp only [Option.map_eq_some_iff] at hs
      obtain ⟨cur', hcur, rfl⟩ := hs
      exact ⟨J, hJ, hb, solo_silent cur hc hcur⟩
  | _, .par _ _ _, _, _, _, _, hp, _ => hp.elim

theorem Runs.safe (hr : ∀ s, I s s) (ht : ∀ a b c, I a b → I b c → I a c) (hG : ∀ s s', I s s' → G s → G s')
    {p q : Prog R A α} {s t : σ} (h : Runs H I w p s q t) (hg : G s) (hp : solo H I w G p (fun _ _ => True) s) :
    G t := by
  induction h with
  | refl => exact hg
  | call hf he _ ih =>
    obtain ⟨hg', hp'⟩ := solo_focus hr _ hp hf he
    exact ih hg' hp'
  | silent hs _ ih => exact ih hg (solo_silent _ hp hs)
  | other hi _ ih => exact ih (hG _ _ hi hg) (solo_stable ht _ (fun _ _ _ _ h => h) hi hp)

theorem Runs.solo (hr : ∀ s, I s s) (ht : ∀ a b c, I a b → I b c → I a c) {Q : α → σ → Prop}
    (hQ : ∀ a s s', I s s' → Q a s → Q a s') {p q : Prog R A α} {s t : σ} (h : Runs H I w p s q t)
    (hp : solo H I w G p Q s) : solo H I w G q Q t := by
  induction h with
  | refl => exact hp
  | call hf he _ ih => exact ih (solo_focus hr _ hp hf he).2
  | silent hs _ ih => exact ih (solo_silent _ hp hs)
  | other hi _ ih => exact ih (solo_stable ht _ hQ hi hp)

/-! ## Runs that stay within bounds -/

/-- The handler without the answers that lead out of `ok`. -/
def Handler.within (H : Handler R A W C σ) (ok : σ → Bool) : Handler R A W C σ where
  exec w r c s := (H.exec w r c s).filter fun x => ok x.2

theorem Handler.exec_within {ok : σ → Bool} {r : R} {c : C} {a : A r} {s s' : σ} :
    (H.within ok).exec w r c s = some (a, s') ↔ H.exec w r c s = some (a, s') ∧ ok s' = true := by
  simp [Handler.within, Option.filter_eq_some_iff]

/-- A run that ends within bounds never left them, if what is outside stays outside. -/
theorem Runs.within {ok : σ → Bool} (hback : ∀ r c s a s', H.exec w r c s = some (a, s') → ok s' = true → ok s = true)
    (hI : ∀ s s', I s s' → ok s' = true → ok s = true) {p q : Prog R A α} {s t : σ} (h : Runs H I w p s q t)
    (hok : ok t = true) : ok s = true ∧ Runs (H.within ok) I w p s q t := by
  induction h with
  | refl => exact ⟨hok, .refl _ _⟩
  | call hf he _ ih =>
    obtain ⟨hs', hrun⟩ := ih hok
    exact ⟨hback _ _ _ _ _ he hs', .call hf (Handler.exec_within.mpr ⟨he, hs'⟩) hrun⟩
  | silent hs _ ih =>
    obtain ⟨hs', hrun⟩ := ih hok
    exact ⟨hs', .silent hs hrun⟩
  | other hi _ ih =>
    obtain ⟨hs', hrun⟩ := ih hok
    exact ⟨hI _ _ hi hs', .other hi hrun⟩

/-! ## Building runs -/

theorem focus_bind : ∀ {α : Type} (p : Prog R A α) (f : α → Prog R A β) {π : List Nat}
    {x : (r : R) × (A r → Prog R A α)}, p.focus π = some x → (p.bind f).focus π = some ⟨x.1, fun a => (x.2 a).bind f⟩
  | _, .ret _, _, _, _, h => by simp [Prog.focus] at h
  | _, .call r k, f, π, x, h => by
    simp only [Prog.focus, Option.some.injEq] at h
    subst h
    rfl
  | _, .loop body cur k, f, π, x, h => by
    simp only [Prog.focus, Option.map_eq_some_iff] at h
    obtain ⟨y, hy, rfl⟩ := h
    simp [Prog.bind, Prog.focus, hy]
  | _, .par n ts k, f, [], x, h => by simp [Prog.focus] at h
  | _, .par n ts k, f, i :: π, x, h => by
    simp only [Prog.focus] at h
    split at h
    case isFalse => cases h
    rename_i hn
    simp only [Option.map_eq_some_iff] at h
    obtain ⟨y, hy, rfl⟩ := h
    simp [Prog.bind, Prog.focus, hn, hy]

theorem silent_bind : ∀ {α : Type} (p : Prog R A α) (f : α → Prog R A β) {π : List Nat} {p' : Prog R A α},
    p.silent π = some p' → (p.bind f).silent π = some (p'.bind f)
  | _, .ret _, _, _, _, h => by simp [Prog.silent] at h
  | _, .call _ _, _, _, _, h => by simp [Prog.silent] at h
  | _, .loop body cur k, f, π, p', h => by
    simp only [Prog.silent] at h
    simp only [Prog.bind, Prog.silent]
    split at h
    · cases h
      rfl
    · cases h
      rfl
    · simp only [Option.map_eq_some_iff] at h
      obtain ⟨cur', hc, rfl⟩ := h
      simp [hc, Prog.bind]
  | _, .par n ts k, f, [], p', h => by
    simp only [Prog.silent, Option.map_eq_some_iff] at h
    obtain ⟨b, hb, rfl⟩ := h
    simp [Prog.bind, Prog.silent, hb]
  | _, .par n ts k, f, i :: π, p', h => by
    simp only [Prog.silent] at h
    split at h
    case isFalse => cases h
    rename_i hn
    simp only [Option.map_eq_some_iff] at h
    obtain ⟨t, ht, rfl⟩ := h
    simp [Prog.bind, Prog.silent, hn, ht]

theorem Runs.trans {p q r : Prog R A α} {s t u : σ} (h₁ : Runs H I w p s q t) (h₂ : Runs H I w q t r u) :
    Runs H I w p s r u := by
  induction h₁ with
  | refl => exact h₂
  | call hf he _ ih => exact .call hf he (ih h₂)
  | silent hs _ ih => exact .silent hs (ih h₂)
  | other hi _ ih => exact .other hi (ih h₂)

theorem Runs.others {J : σ → σ → Prop} (hJ : ∀ s t, I s t → J s t) {p q : Prog R A α} {s t : σ} (h : Runs H I w p s q t) :
    Runs H J w p s q t := by
  induction h with
  | refl => exact .refl _ _
  | call hf he _ ih => exact .call hf he ih
  | silent hs _ ih => exact .silent hs ih
  | other hi _ ih => exact .other (hJ _ _ hi) ih

theorem Runs.seq {p : Prog R A α} {f : α → Prog R A β} {a : α} {q : Prog R A β} {s t u : σ}
    (h₁ : Runs H I w p s (.ret a) t) (h₂ : Runs H I w (f a) t q u) : Runs H I w (p.bind f) s q u := by
  generalize hr : (Prog.ret a : Prog R A α) = r at h₁
  induction h₁ with
  | refl =>
    subst hr
    exact h₂
  | call hf he _ ih => exact .call (focus_bind _ f hf) he (ih h₂ hr)
  | silent hs _ ih => exact .silent (silent_bind _ f hs) (ih h₂ hr)
  | other hi _ ih => exact .other hi (ih h₂ hr)

theorem Runs.cur {body : β → Prog R A (β ⊕ γ)} {p q : Prog R A (β ⊕ γ)} {k : γ → Prog R A α} {s t : σ}
    (h : Runs H I w p s q t) : Runs H I w (.loop body p k) s (.loop body q k) t := by
  induction h with
  | refl => exact .refl _ _
  | @call p _ _ _ _ π x _ _ hf he _ ih =>
    have hf' : (Prog.loop body p k).focus π = some ⟨x.1, fun a => .loop body (x.2 a) k⟩ := by
      simp only [Prog.focus, hf, Option.map_some]
    exact .call hf' he ih
  | @silent p p' _ _ _ π hs _ ih =>
    refine .silent (π := π) ?_ ih
    have hret : p.ret? = none := by
      cases p with
      | ret _ => simp [Prog.silent] at hs
      | _ => rfl
    simp [Prog.silent, hret, hs]
  | other hi _ ih => exact .other hi ih

theorem Runs.again {body : β → Prog R A (β ⊕ γ)} {b b' : β} {q : Prog R A γ} {s t u : σ}
    (h₁ : Runs H I w (body b) s (.ret (.inl b')) t) (h₂ : Runs H I w (Prog.iter body b') t q u) :
    Runs H I w (Prog.iter body b) s q u :=
  (Runs.cur h₁).trans (.silent (π := []) rfl h₂)

theorem Runs.leave {body : β → Prog R A (β ⊕ γ)} {b : β} {c : γ} {s t : σ}
    (h : Runs H I w (body b) s (.ret (.inr c)) t) : Runs H I w (Prog.iter body b) s (.ret c) t :=
  (Runs.cur h).trans (.silent (π := []) rfl (.refl _ _))

/-- Evaluate a program without loops and branches; `oracle` resolves its requests. -/
def eval (H : Handler R A W C σ) (w : W) (oracle : R → C) : {α : Type} → Prog R A α → σ → Option (α × σ)
  | _, .ret a, s => some (a, s)
  | _, .call r k, s => (H.exec w r (oracle r) s).bind fun x => eval H w oracle (k x.1) x.2
  | _, .loop _ _ _, _ => none
  | _, .par _ _ _, _ => none

theorem eval_bind {oracle : R → C} : ∀ {α : Type} (p : Prog R A α) (f : α → Prog R A β) (s : σ),
    eval H w oracle (p.bind f) s = (eval H w oracle p s).bind fun x => eval H w oracle (f x.1) x.2
  | _, .ret _, _, _ => rfl
  | _, .call r k, f, s => by
    simp only [Prog.bind, eval]
    cases H.exec w r (oracle r) s with
    | none => rfl
    | some x => exact eval_bind (k x.1) f x.2
  | _, .loop _ _ _, _, _ => rfl
  | _, .par _ _ _, _, _ => rfl

theorem runs_of_eval (oracle : R → C) : ∀ {α : Type} (p : Prog R A α) {s t : σ} {a : α},
    eval H w oracle p s = some (a, t) → Runs H I w p s (.ret a) t
  | _, .ret _, _, _, _, h => by
    cases h
    exact .refl _ _
  | _, .call r k, s, t, a, h => by
    obtain ⟨x, hx, h⟩ := Option.bind_eq_some_iff.mp h
    exact .call (π := []) rfl hx (runs_of_eval oracle (k x.1) h)
  | _, .loop _ _ _, _, _, _, h => by cases h
  | _, .par _ _ _, _, _, _, h => by cases h

/-- Run a program without branches for some steps; `oracle` resolves its requests. -/
def drive (H : Handler R A W C σ) (w : W) (oracle : σ → R → C) : Nat → Prog R A α → σ → Prog R A α × σ
  | 0, p, s => (p, s)
  | n + 1, p, s =>
    match p.focus [] with
    | some x =>
      match H.exec w x.1 (oracle s x.1) s with
      | some (a, s') => drive H w oracle n (x.2 a) s'
      | none => (p, s)
    | none =>
      match p.silent [] with
      | some p' => drive H w oracle n p' s
      | none => (p, s)

theorem runs_drive {oracle : σ → R → C} : ∀ {n : Nat} {p : Prog R A α} {s : σ},
    Runs H I w p s (drive H w oracle n p s).1 (drive H w oracle n p s).2
  | 0, _, _ => .refl _ _
  | n + 1, p, s => by
    unfold drive
    split
    · rename_i x hf
      split
      · rename_i he
        exact .call hf he runs_drive
      · exact .refl _ _
    · split
      · rename_i hs
        exact .silent hs runs_drive
      · exact .refl _ _

end

end Conc
