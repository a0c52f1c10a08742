import StreamsConsumer.Conc.Pool
import StreamsConsumer.Conc.Solo

/-!
# One process and its branches

A program with concurrent branches, among other processes that are known by
their interference only. As in `Conc.Solo`, what the process knows need not
survive its own steps. Branches are described together, by an invariant of all of
them, so that a branch may know something that only it can change, and hand it to
another one.
-/

namespace Conc

/-- What is known of every state anyway, what the others may do, what has to hold when a request is issued, and what
has to hold at every moment. -/
structure Duty (R : Type 1) (σ : Type) where
  known : σ → Prop
  others : σ → σ → Prop
  asks : R → σ → Prop
  keeps : σ → Prop

section
variable {R : Type 1} {A : R → Type} {W C σ α β γ : Type} (H : Handler R A W C σ) (w : W) (D : Duty R σ)

def Duty.Stable (P : σ → Prop) : Prop := ∀ s t, D.known s → D.others s t → D.known t → P s → P t

/-- An invariant of branches that take turns. -/
structure Branches {n : Nat} (J : (Fin n → Prog R A β) → σ → Prop) : Prop where
  stable : ∀ ts, D.Stable (J ts)
  call : ∀ ts i π x s, D.known s → J ts s → (ts i).focus π = some x → D.asks x.1 s ∧
    ∀ c a t, H.exec w x.1 c s = some (a, t) → D.known t → D.keeps t ∧ J (Function.update ts i (x.2 a)) t
  silent : ∀ ts i π p s, D.known s → J ts s → (ts i).silent π = some p → J (Function.update ts i p) s

def joint : {α : Type} → Prog R A α → (α → σ → Prop) → σ → Prop
  | _, .ret a, Q, s => Q a s
  | _, .call r k, Q, s => ∀ s₁, D.known s → D.others s s₁ → D.known s₁ → D.asks r s₁ ∧
      ∀ c a t, H.exec w r c s₁ = some (a, t) → D.known t → D.keeps t ∧ joint (k a) Q t
  | _, @Prog.loop _ _ _ β _ body cur k, Q, s =>
    ∃ J : β → σ → Prop, (∀ b, D.Stable (J b)) ∧
      (∀ b s', D.known s' → J b s' → joint (body b) (Sum.elim J fun c => joint (k c) Q) s') ∧
      joint cur (Sum.elim J fun c => joint (k c) Q) s
  | _, @Prog.par _ _ _ β n ts k, Q, s =>
    ∃ J : (Fin n → Prog R A β) → σ → Prop, Branches H w D J ∧ J ts s ∧
      ∀ b s', D.known s' → J (fun i => .ret (b i)) s' → joint (k b) Q s'

variable {H w D}

theorem joint_mono : ∀ {α : Type} (p : Prog R A α) {Q Q' : α → σ → Prop}, (∀ a s, Q a s → Q' a s) →
    ∀ {s}, joint H w D p Q s → joint H w D p Q' s
  | _, .ret a, _, _, h, s, hp => h a s hp
  | _, .call _ k, _, _, h, _, hp => by
    intro s₁ hs h₁ hs₁
    refine ⟨(hp s₁ hs h₁ hs₁).1, ?_⟩
    intro c a t he ht
    obtain ⟨hg, hk⟩ := (hp s₁ hs h₁ hs₁).2 c a t he ht
    exact ⟨hg, joint_mono (k a) h hk⟩
  | _, .loop body cur k, Q, Q', h, s, hp => by
    obtain ⟨J, hJ, hb, hc⟩ := hp
    have hk : ∀ x s, Sum.elim J (fun c => joint H w D (k c) Q) x s → Sum.elim J (fun c => joint H w D (k c) Q') x s := by
      intro x s hx
      cases x with
      | inl b => exact hx
      | inr c => exact joint_mono (k c) h hx
    exact ⟨J, hJ, fun b s' hs' hj => joint_mono (body b) hk (hb b s' hs' hj), joint_mono cur hk hc⟩
  | _, .par _ _ k, _, _, h, _, hp => by
    obtain ⟨J, hJ, ht, hk⟩ := hp
    exact ⟨J, hJ, ht, fun b s' hs' hj => joint_mono (k b) h (hk b s' hs' hj)⟩

theorem joint_bind : ∀ {α : Type} (p : Prog R A α) (f : α → Prog R A β) {Q : β → σ → Prop} {s},
    joint H w D p (fun a => joint H w D (f a) Q) s → joint H w D (p.bind f) Q s
  | _, .ret _, _, _, _, hp => hp
  | _, .call _ k, f, _, _, hp => by
    intro s₁ hs h₁ hs₁
    refine ⟨(hp s₁ hs h₁ hs₁).1, ?_⟩
    intro c a t he ht
    obtain ⟨hg, hk⟩ := (hp s₁ hs h₁ hs₁).2 c a t he ht
    exact ⟨hg, joint_bind (k a) f hk⟩
  | _, .loop body cur k, f, Q, s, hp => by
    obtain ⟨J, hJ, hb, hc⟩ := hp
    have hk : ∀ x s, Sum.elim J (fun c => joint H w D (k c) fun a => joint H w D (f a) Q) x s →
        Sum.elim J (fun c => joint H w D ((k c).bind f) Q) x s := by
      intro x s hx
      cases x with
      | inl b => exact hx
      | inr c => exact joint_bind (k c) f hx
    exact ⟨J, hJ, fun b s' hs' hj => joint_mono (body b) hk (hb b s' hs' hj), joint_mono cur hk hc⟩
  | _, .par _ _ k, f, _, _, hp => by
    obtain ⟨J, hJ, ht, hk⟩ := hp
    exact ⟨J, hJ, ht, fun b s' hs' hj => joint_bind (k b) f (hk b s' hs' hj)⟩

theorem joint_known : ∀ {α : Type} (p : Prog R A α) {Q : α → σ → Prop} {s : σ}, D.known s → joint H w D p Q s →
    joint H w D p (fun a s' => D.known s' ∧ Q a s') s
  | _, .ret _, _, _, hs, hp => ⟨hs, hp⟩
  | _, .call _ k, _, _, _, hp => by
    intro s₁ hs h₁ hs₁
    refine ⟨(hp s₁ hs h₁ hs₁).1, ?_⟩
    intro c a t he ht
    obtain ⟨hg, hk⟩ := (hp s₁ hs h₁ hs₁).2 c a t he ht
    exact ⟨hg, joint_known (k a) ht hk⟩
  | _, @Prog.loop _ _ _ δ ε body cur k, Q, s, hs, hp => by
    obtain ⟨J, hJ, hb, hc⟩ := hp
    have hk : ∀ (x : δ ⊕ ε) s, D.known s ∧ Sum.elim J (fun c => joint H w D (k c) Q) x s →
        Sum.elim J (fun c => joint H w D (k c) fun a s' => D.known s' ∧ Q a s') x s := by
      intro x s hx
      cases x with
      | inl b => exact hx.2
      | inr c => exact joint_known (k c) hx.1 hx.2
    refine ⟨J, hJ, ?_, joint_mono cur hk (joint_known cur hs hc)⟩
    intro b s' hs' hj
    exact joint_mono (body b) hk (joint_known (body b) hs' (hb b s' hs' hj))
  | _, .par _ _ k, _, _, _, hp => by
    obtain ⟨J, hJ, ht, hk⟩ := hp
    exact ⟨J, hJ, ht, fun b s' hs' hj => joint_known (k b) hs' (hk b s' hs' hj)⟩

theorem joint_seq {p : Prog R A α} {f : α → Prog R A β} {P : α → σ → Prop} {Q : β → σ → Prop} {s : σ} (hs : D.known s)
    (hp : joint H w D p P s) (hf : ∀ a s', D.known s' → P a s' → joint H w D (f a) Q s') :
    joint H w D (p.bind f) Q s :=
  joint_bind p f (joint_mono p (fun a s' h => hf a s' h.1 h.2) (joint_known p hs hp))

theorem joint_iter {body : β → Prog R A (β ⊕ γ)} {b : β} {Q : γ → σ → Prop} (J : β → σ → Prop)
    (hJ : ∀ b, D.Stable (J b)) (hb : ∀ b s, D.known s → J b s → joint H w D (body b) (Sum.elim J Q) s) {s : σ}
    (hs : D.known s) (h : J b s) : joint H w D (Prog.iter body b) Q s :=
  ⟨J, hJ, hb, hb b s hs h⟩

theorem free_update {n : Nat} {Free : Prog R A β → Prop} {ts : Fin n → Prog R A β} {i : Fin n} {p : Prog R A β}
    (h : ∀ j, j ≠ i → Free (ts j)) (hp : Free p) (j : Fin n) : Free (Function.update ts i p j) := by
  by_cases hj : j = i
  · subst hj
    rwa [Function.update_self]
  · rw [Function.update_of_ne hj]
    exact h j hj

theorem joint_of_asks {P : R → Prop} {K : σ → Prop} (hK : D.Stable K) (hG : ∀ s, K s → D.keeps s)
    (h : ∀ r, P r → ∀ s, D.known s → K s → D.asks r s ∧
      ∀ c a t, H.exec w r c s = some (a, t) → D.known t → K t) :
    ∀ {α : Type} (p : Prog R A α), Asks P p → ∀ {s}, K s → joint H w D p (fun _ => K) s
  | _, .ret _, _, _, hk => hk
  | _, .call r k, hp, s, hk => by
    intro s₁ hs h₁ hs₁
    obtain ⟨ha, hstep⟩ := h r hp.1 s₁ hs₁ (hK s s₁ hs h₁ hs₁ hk)
    refine ⟨ha, ?_⟩
    intro c a t he ht
    exact ⟨hG t (hstep c a t he ht), joint_of_asks hK hG h (k a) (hp.2 a) (hstep c a t he ht)⟩
  | _, @Prog.loop _ _ _ δ ε body cur k, hp, s, hk => by
    have hx : ∀ (x : δ ⊕ ε) s, K s → Sum.elim (fun _ => K) (fun c => joint H w D (k c) fun _ => K) x s := by
      intro x s hk
      cases x with
      | inl b => exact hk
      | inr c => exact joint_of_asks hK hG h (k c) (hp.2.2 c) hk
    refine ⟨fun _ => K, fun _ => hK, fun b s' _ hk' => ?_, ?_⟩
    · exact joint_mono (body b) hx (joint_of_asks hK hG h (body b) (hp.1 b) hk')
    · exact joint_mono cur hx (joint_of_asks hK hG h cur hp.2.1 hk)
  | _, @Prog.par _ _ _ δ n ts k, hp, s, hk => by
    refine ⟨fun ts s => (∀ i, Asks P (ts i)) ∧ K s, ⟨?_, ?_, ?_⟩, ⟨hp.1, hk⟩, ?_⟩
    · intro ts s t hs hi ht hj
      exact ⟨hj.1, hK s t hs hi ht hj.2⟩
    · intro ts i π x s hs hj hf
      obtain ⟨hr, hx⟩ := asks_focus (hj.1 i) hf
      obtain ⟨ha, hstep⟩ := h x.1 hr s hs hj.2
      exact ⟨ha, fun c a t he ht => ⟨hG t (hstep c a t he ht), free_update (fun j _ => hj.1 j) (hx a), hstep c a t he ht⟩⟩
    · intro ts i π p s _ hj hs
      exact ⟨free_update (fun j _ => hj.1 j) (asks_silent (hj.1 i) hs), hj.2⟩
    · intro b s' _ hj
      exact joint_of_asks hK hG h (k b) (hp.2 b) hj.2

theorem joint_others {I : σ → σ → Prop} (hI : ∀ s t, I s t → D.others s t) : ∀ {α : Type} (p : Prog R A α)
    {Q : α → σ → Prop} {s : σ}, joint H w D p Q s → joint H w { D with others := I } p Q s
  | _, .ret _, _, _, hp => hp
  | _, .call _ k, _, s, hp => by
    intro s₁ hs h₁ hs₁
    refine ⟨(hp s₁ hs (hI s s₁ h₁) hs₁).1, ?_⟩
    intro c a t he ht
    obtain ⟨hg, hk⟩ := (hp s₁ hs (hI s s₁ h₁) hs₁).2 c a t he ht
    exact ⟨hg, joint_others hI (k a) hk⟩
  | _, @Prog.loop _ _ _ δ ε body cur k, Q, s, hp => by
    obtain ⟨J, hJ, hb, hc⟩ := hp
    have hk : ∀ (x : δ ⊕ ε) s, Sum.elim J (fun c => joint H w D (k c) Q) x s →
        Sum.elim J (fun c => joint H w { D with others := I } (k c) Q) x s := by
      intro x s hx
      cases x with
      | inl b => exact hx
      | inr c => exact joint_others hI (k c) hx
    refine ⟨J, fun b s t hs hi ht hj => hJ b s t hs (hI s t hi) ht hj, ?_, joint_mono cur hk (joint_others hI cur hc)⟩
    intro b s' hs' hj
    exact joint_mono (body b) hk (joint_others hI (body b) (hb b s' hs' hj))
  | _, .par _ _ k, _, _, hp => by
    obtain ⟨J, hJ, ht, hk⟩ := hp
    refine ⟨J, ⟨?_, hJ.call, hJ.silent⟩, ht, fun b s' hs' hj => joint_others hI (k b) (hk b s' hs' hj)⟩
    intro ts s t hs hi ht hj
    exact hJ.stable ts s t hs (hI s t hi) ht hj

/-! ## Steps keep the precondition -/

theorem joint_stable (htrans : ∀ a b c, D.others a b → D.others b c → D.others a c) : ∀ {α : Type} (p : Prog R A α)
    {Q : α → σ → Prop}, (∀ a, D.Stable (Q a)) → D.Stable (joint H w D p Q)
  | _, .ret a, _, hQ => hQ a
  | _, .call _ _, _, _ => by
    intro s t hs hi ht hp s₁ _ h₁ hs₁
    exact hp s₁ hs (htrans s t s₁ hi h₁) hs₁
  | _, .loop body cur k, Q, hQ => by
    intro s t hs hi ht hp
    obtain ⟨J, hJ, hb, hc⟩ := hp
    refine ⟨J, hJ, hb, joint_stable htrans cur ?_ s t hs hi ht hc⟩
    intro x
    cases x with
    | inl b => exact hJ b
    | inr c => exact joint_stable htrans (k c) hQ
  | _, .par _ ts _, _, _ => by
    intro s t hs hi ht hp
    obtain ⟨J, hJ, hts, hk⟩ := hp
    exact ⟨J, hJ, hJ.stable ts s t hs hi ht hts, hk⟩

theorem joint_focus (hrefl : ∀ s, D.others s s) : ∀ {α : Type} (p : Prog R A α) {Q : α → σ → Prop} {π : List Nat} {s : σ}
    {x : (r : R) × (A r → Prog R A α)}, D.known s → joint H w D p Q s → p.focus π = some x →
    D.asks x.1 s ∧ ∀ c a t, H.exec w x.1 c s = some (a, t) → D.known t → D.keeps t ∧ joint H w D (x.2 a) Q t
  | _, .ret _, _, _, _, _, _, _, hf => by simp [Prog.focus] at hf
  | _, .call r k, Q, π, s, x, hs, hp, hf => by
    simp only [Prog.focus, Option.some.injEq] at hf
    subst hf
    exact hp s hs (hrefl s) hs
  | _, .loop body cur k, Q, π, s, x, hs, hp, hf => by
    obtain ⟨J, hJ, hb, hc⟩ := hp
    simp only [Prog.focus, Option.map_eq_some_iff] at hf
    obtain ⟨y, hy, rfl⟩ := hf
    obtain ⟨ha, hstep⟩ := joint_focus hrefl cur hs hc hy
    refine ⟨ha, ?_⟩
    intro c a t he ht
    exact ⟨(hstep c a t he ht).1, J, hJ, hb, (hstep c a t he ht).2⟩
  | _, .par _ _ _, _, [], _, _, _, _, hf => by simp [Prog.focus] at hf
  | _, .par n ts k, Q, i :: π, s, x, hs, hp, hf => by
    obtain ⟨J, hJ, hts, hk⟩ := hp
    simp only [Prog.focus] at hf
    split at hf
    case isFalse => cases hf
    rename_i hn
    obtain ⟨y, hy, rfl⟩ := Option.map_eq_some_iff.mp hf
    obtain ⟨ha, hstep⟩ := hJ.call ts ⟨i, hn⟩ π y s hs hts hy
    refine ⟨ha, ?_⟩
    intro c a t he ht
    exact ⟨(hstep c a t he ht).1, J, hJ, (hstep c a t he ht).2, hk⟩

theorem joint_silent : ∀ {α : Type} (p : Prog R A α) {Q : α → σ → Prop} {π : List Nat} {s : σ} {p' : Prog R A α},
    D.known s → joint H w D p Q s → p.silent π = some p' → joint H w D p' Q s
  | _, .ret _, _, _, _, _, _, _, hs => by simp [Prog.silent] at hs
  | _, .call _ _, _, _, _, _, _, _, hs => by simp [Prog.silent] at hs
  | _, .loop body cur k, Q, π, s, p', hk, hp, hs => by
    obtain ⟨J, hJ, hb, hc⟩ := hp
    simp only [Prog.silent] at hs
    split at hs
    · rename_i b hr
      cases hs
      rw [Prog.eq_ret_of_ret? hr] at hc
      exact ⟨J, hJ, hb, hb b s hk hc⟩
    · rename_i c hr
      cases hs
      rw [Prog.eq_ret_of_ret? hr] at hc
      exact hc
    · obtain ⟨cur', hcur, rfl⟩ := Option.map_eq_some_iff.mp hs
      exact ⟨J, hJ, hb, joint_silent cur hk hc hcur⟩
  | _, .par n ts k, _, [], s, p', hk, hp, hs => by
    obtain ⟨J, hJ, hts, hrest⟩ := hp
    obtain ⟨b, hb, rfl⟩ := Option.map_eq_some_iff.mp hs
    have hall : ts = fun i => .ret (b i) := funext (Prog.results_eq hb)
    exact hrest b s hk (hall ▸ hts)
  | _, .par n ts k, _, i :: π, s, p', hk, hp, hs => by
    obtain ⟨J, hJ, hts, hrest⟩ := hp
    simp only [Prog.silent] at hs
    split at hs
    case isFalse => cases hs
    rename_i hn
    obtain ⟨t, ht, rfl⟩ := Option.map_eq_some_iff.mp hs
    exact ⟨J, hJ, hJ.silent ts ⟨i, hn⟩ π t s hk hts ht, hrest⟩

theorem Runs.joint (hrefl : ∀ s, D.others s s) (htrans : ∀ a b c, D.others a b → D.others b c → D.others a c)
    (hknown : ∀ s, D.known s) {Q : α → σ → Prop} (hQ : ∀ a, D.Stable (Q a)) {p q : Prog R A α} {s t : σ}
    (h : Runs H D.others w p s q t) (hp : joint H w D p Q s) : joint H w D q Q t := by
  induction h with
  | refl => exact hp
  | call hf he _ ih => exact ih (((joint_focus hrefl _ (hknown _) hp hf).2 _ _ _ he (hknown _)).2)
  | silent hs _ ih => exact ih (joint_silent _ (hknown _) hp hs)
  | other hi _ ih => exact ih (joint_stable htrans _ hQ _ _ (hknown _) hi (hknown _) hp)

theorem joint_of_steps (hasks : ∀ r s, D.asks r s) (hkeeps : ∀ s, D.keeps s) : ∀ {α : Type} (p : Prog R A α)
    (T : Prog R A α → σ → Prop), (∀ p, D.Stable (T p)) →
    (∀ p π x s c a t, T p s → p.focus π = some x → H.exec w x.1 c s = some (a, t) → T (x.2 a) t) →
    (∀ p π p' s, T p s → p.silent π = some p' → T p' s) →
    ∀ {s}, T p s → joint H w D p (fun a => T (.ret a)) s
  | _, .ret _, _, _, _, _, _, h => h
  | _, .call r k, T, hT, hcall, hsilent, s, h => by
    intro s₁ hs h₁ hs₁
    refine ⟨hasks r s₁, ?_⟩
    intro c a t he _
    have ht := hcall _ [] ⟨r, k⟩ s₁ c a t (hT _ s s₁ hs h₁ hs₁ h) rfl he
    exact ⟨hkeeps t, joint_of_steps hasks hkeeps (k a) T hT hcall hsilent ht⟩
  | _, @Prog.loop _ _ _ δ ε body cur k, T, hT, hcall, hsilent, s, h => by
    have hcall' : ∀ p π x s c a t, T (.loop body p k) s → p.focus π = some x → H.exec w x.1 c s = some (a, t) →
        T (.loop body (x.2 a) k) t := by
      intro p π x s c a t h hf he
      exact hcall _ π ⟨x.1, fun a => .loop body (x.2 a) k⟩ s c a t h (by simp [Prog.focus, hf]) he
    have hsilent' : ∀ p π p' s, T (.loop body p k) s → p.silent π = some p' → T (.loop body p' k) s := by
      intro p π p' s h hs
      refine hsilent _ π _ s h ?_
      have hret : p.ret? = none := by
        cases p with
        | ret _ => simp [Prog.silent] at hs
        | _ => rfl
      simp [Prog.silent, hret, hs]
    have hx : ∀ (x : δ ⊕ ε) s, T (.loop body (.ret x) k) s →
        Sum.elim (fun b => T (.loop body (body b) k)) (fun c => joint H w D (k c) fun a => T (.ret a)) x s := by
      intro x s h
      cases x with
      | inl b => exact hsilent _ [] _ s h rfl
      | inr c => exact joint_of_steps hasks hkeeps (k c) T hT hcall hsilent (hsilent _ [] _ s h rfl)
    refine ⟨fun b => T (.loop body (body b) k), fun b => hT _, ?_, ?_⟩
    · intro b s' _ hb
      exact joint_mono (body b) hx (joint_of_steps hasks hkeeps (body b) _ (fun _ => hT _) hcall' hsilent' hb)
    · exact joint_mono cur hx (joint_of_steps hasks hkeeps cur _ (fun _ => hT _) hcall' hsilent' h)
  | _, @Prog.par _ _ _ δ n ts k, T, hT, hcall, hsilent, s, h => by
    refine ⟨fun ts => T (.par n ts k), ⟨fun ts => hT _, ?_, ?_⟩, h, ?_⟩
    · intro ts i π x s _ h hf
      refine ⟨hasks _ _, ?_⟩
      intro c a t he _
      have hf' : (Prog.par n ts k).focus (i.1 :: π) = some ⟨x.1, fun a => .par n (Function.update ts i (x.2 a)) k⟩ := by
        simp [Prog.focus, hf]
      exact ⟨hkeeps t, hcall _ _ _ s c a t h hf' he⟩
    · intro ts i π p s _ h hs
      exact hsilent _ (i.1 :: π) _ s h (by simp [Prog.silent, hs])
    · intro b s' _ h
      refine joint_of_steps hasks hkeeps (k b) T hT hcall hsilent (hsilent _ [] _ s' h ?_)
      simp [Prog.silent, Prog.results_ret (b := b) fun _ => rfl]

theorem joint_of_runs (hasks : ∀ r s, D.asks r s) (hkeeps : ∀ s, D.keeps s) {p₀ p : Prog R A α} {s₀ s : σ}
    (h : Runs H D.others w p₀ s₀ p s) : joint H w D p (fun a t => Runs H D.others w p₀ s₀ (.ret a) t) s := by
  refine joint_of_steps hasks hkeeps p (Runs H D.others w p₀ s₀) ?_ ?_ ?_ h
  · exact fun p s t _ hi _ h => h.trans (.other hi (.refl _ _))
  · exact fun p π x s c a t h hf he => h.trans (.call hf he (.refl _ _))
  · exact fun p π p' s h hs => h.trans (.silent hs (.refl _ _))

/-! ## Passing something on -/

/-- One branch at a time holds something that the others do not touch; while none does, it rests in the shared state. -/
structure Baton (H : Handler R A W C σ) (w : W) (D : Duty R σ) (Free : Prog R A β → Prop) (Holds : Prog R A β → σ → Prop)
    (Rest : σ → Prop) : Prop where
  rest_stable : D.Stable Rest
  holds_stable : ∀ p, D.Stable (Holds p)
  free_call : ∀ p π x s, D.known s → Free p → Rest s → p.focus π = some x → D.asks x.1 s ∧
    ∀ c a t, H.exec w x.1 c s = some (a, t) → D.known t → D.keeps t ∧ (Rest t ∧ Free (x.2 a) ∨ Holds (x.2 a) t)
  free_beside : ∀ p π x s p', D.known s → Free p → Holds p' s → p.focus π = some x → D.asks x.1 s ∧
    ∀ c a t, H.exec w x.1 c s = some (a, t) → D.known t → D.keeps t ∧ Free (x.2 a) ∧ Holds p' t
  free_silent : ∀ p π p', Free p → p.silent π = some p' → Free p'
  holds_call : ∀ p π x s, D.known s → Holds p s → p.focus π = some x → D.asks x.1 s ∧
    ∀ c a t, H.exec w x.1 c s = some (a, t) → D.known t → D.keeps t ∧ Holds (x.2 a) t
  holds_silent : ∀ p π p' s, D.known s → Holds p s → p.silent π = some p' → Rest s ∧ Free p' ∨ Holds p' s

section
variable {n : Nat} {Free : Prog R A β → Prop} {Holds : Prog R A β → σ → Prop} {Rest : σ → Prop}

def HeldByOne (Free : Prog R A β → Prop) (Holds : Prog R A β → σ → Prop) (Rest : σ → Prop) (ts : Fin n → Prog R A β)
    (s : σ) : Prop :=
  Rest s ∧ (∀ i, Free (ts i)) ∨ ∃ i, Holds (ts i) s ∧ ∀ j, j ≠ i → Free (ts j)

theorem HeldByOne.update {ts : Fin n → Prog R A β} {i : Fin n} {p : Prog R A β} {s : σ} (h : ∀ j, j ≠ i → Free (ts j))
    (hp : Rest s ∧ Free p ∨ Holds p s) : HeldByOne Free Holds Rest (Function.update ts i p) s := by
  rcases hp with ⟨hr, hp⟩ | hp
  · exact Or.inl ⟨hr, free_update h hp⟩
  · refine Or.inr ⟨i, by rwa [Function.update_self], ?_⟩
    intro j hj
    rw [Function.update_of_ne hj]
    exact h j hj

theorem HeldByOne.beside {ts : Fin n → Prog R A β} {i j : Fin n} {p : Prog R A β} {s : σ} (hij : i ≠ j)
    (h : ∀ j', j' ≠ j → Free (ts j')) (hp : Free p) (hj : Holds (ts j) s) :
    HeldByOne Free Holds Rest (Function.update ts i p) s := by
  refine Or.inr ⟨j, by rwa [Function.update_of_ne hij.symm], ?_⟩
  intro j' hj'
  by_cases he : j' = i
  · subst he
    rwa [Function.update_self]
  · rw [Function.update_of_ne he]
    exact h j' hj'

theorem Baton.branches (B : Baton H w D Free Holds Rest) : Branches H w D (HeldByOne (n := n) Free Holds Rest) := by
  refine ⟨?_, ?_, ?_⟩
  · intro ts s t hs hi ht h
    rcases h with ⟨hr, hfree⟩ | ⟨i, hh, hfree⟩
    · exact Or.inl ⟨B.rest_stable s t hs hi ht hr, hfree⟩
    · exact Or.inr ⟨i, B.holds_stable _ s t hs hi ht hh, hfree⟩
  · intro ts i π x s hs h hf
    rcases h with ⟨hr, hfree⟩ | ⟨j, hh, hfree⟩
    · obtain ⟨ha, hstep⟩ := B.free_call _ π x s hs (hfree i) hr hf
      refine ⟨ha, ?_⟩
      intro c a t he ht
      exact ⟨(hstep c a t he ht).1, .update (fun j _ => hfree j) (hstep c a t he ht).2⟩
    · by_cases hij : i = j
      · subst hij
        obtain ⟨ha, hstep⟩ := B.holds_call _ π x s hs hh hf
        refine ⟨ha, ?_⟩
        intro c a t he ht
        exact ⟨(hstep c a t he ht).1, .update hfree (Or.inr (hstep c a t he ht).2)⟩
      · obtain ⟨ha, hstep⟩ := B.free_beside _ π x s _ hs (hfree i hij) hh hf
        refine ⟨ha, ?_⟩
        intro c a t he ht
        obtain ⟨hk, hp, hj⟩ := hstep c a t he ht
        exact ⟨hk, .beside hij hfree hp hj⟩
  · intro ts i π p s hs h hsil
    rcases h with ⟨hr, hfree⟩ | ⟨j, hh, hfree⟩
    · exact .update (fun j _ => hfree j) (Or.inl ⟨hr, B.free_silent _ π p (hfree i) hsil⟩)
    · by_cases hij : i = j
      · subst hij
        exact .update hfree (B.holds_silent _ π p s hs hh hsil)
      · exact .beside hij hfree (B.free_silent _ π p (hfree i hij) hsil) hh

theorem joint_join (B : Baton H w D Free Holds Rest) {ts : List (Prog R A β)} {P : σ → Prop} {s : σ}
    (h : HeldByOne Free Holds Rest ts.get s) (hrest : ∀ s, Rest s → P s) (hholds : ∀ b s, Holds (.ret b) s → P s) :
    joint H w D (Prog.join ts) (fun _ => P) s := by
  refine ⟨_, B.branches, h, ?_⟩
  intro b s' _ h'
  rcases h' with ⟨hr, _⟩ | ⟨i, hh, _⟩
  · exact hrest s' hr
  · exact hholds (b i) s' hh

end

end

/-! ## One process of a pool -/

section
variable {R : Type 1} {A : R → Type} {W C σ E J : Type} [DecidableEq W] {M : Machine R A W C σ E J} {w : W} {D : Duty R σ}

/-- A process that does its duty goes on doing it, whichever step of the pool comes next. -/
theorem Pool.joint_step (hrefl : ∀ s, D.others s s) (htrans : ∀ a b c, D.others a b → D.others b c → D.others a c)
    (hkeeps : D.Stable D.keeps) (hreset : ∀ s, D.keeps s → D.keeps (M.reset w s))
    (hjob : ∀ j s, D.known s → D.keeps s → joint M.toHandler w D (M.job w j) (fun _ _ => True) s)
    {p q : Pool R A W σ} {l : Label W C E J} (h : p.step M l = some q) (hp : D.known p.world) (hq : D.known q.world)
    (hothers : l.proc ≠ some w → D.others p.world q.world)
    (hw : D.keeps p.world ∧ joint M.toHandler w D (p.procs w) (fun _ _ => True) p.world) :
    D.keeps q.world ∧ joint M.toHandler w D (q.procs w) (fun _ _ => True) q.world := by
  by_cases hl : l.proc = some w
  · cases l <;> simp only [Label.proc, Option.some.injEq, reduceCtorEq] at hl <;> subst hl <;>
      simp only [Pool.step] at h
    case call v π c =>
      split at h
      · cases h
      rename_i x hx
      split at h
      · cases h
      rename_i a s he
      cases h
      simpa using (joint_focus hrefl _ hp hw.2 hx).2 c a s he hq
    case silent v π =>
      split at h <;> cases h
      rename_i r hr
      exact ⟨hw.1, by simpa using joint_silent _ hp hw.2 hr⟩
    case start v j =>
      split at h <;> cases h
      exact ⟨hw.1, by simpa using hjob j p.world hp hw.1⟩
    case stop v =>
      cases h
      exact ⟨hw.1, by simp [joint]⟩
    case crash v =>
      cases h
      exact ⟨hreset p.world hw.1, by simp [joint]⟩
  · have hi := hothers hl
    rw [Pool.step_procs M h hl]
    exact ⟨hkeeps _ _ hp hi hq hw.1,
      joint_stable htrans _ (fun _ _ _ _ _ _ ht => ht) _ _ hp hi hq hw.2⟩

end

end Conc
