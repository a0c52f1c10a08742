import StreamsConsumer.Conc.Pool

/-!
# What a program may ask

`ok r a` says which answers a request may get. `Returns` and `Issues` are the
results and the requests of a program over all such answers. They compose
exactly, so the requests of a whole program are computed part by part.
-/

namespace Conc

section
variable {R : Type 1} {A : R → Type} {α β : Type} (ok : (r : R) → A r → Prop)

inductive Returns : {α : Type} → Prog R A α → α → Prop where
  | ret {α : Type} (a : α) : Returns (.ret a) a
  | call {α : Type} {r : R} {k : A r → Prog R A α} {x : A r} {a : α} (hx : ok r x) (h : Returns (k x) a) :
      Returns (.call r k) a
  | again {α β γ : Type} {body : β → Prog R A (β ⊕ γ)} {cur : Prog R A (β ⊕ γ)} {k : γ → Prog R A α} {b : β} {a : α}
      (hc : Returns cur (.inl b)) (h : Returns (.loop body (body b) k) a) : Returns (.loop body cur k) a
  | leave {α β γ : Type} {body : β → Prog R A (β ⊕ γ)} {cur : Prog R A (β ⊕ γ)} {k : γ → Prog R A α} {c : γ} {a : α}
      (hc : Returns cur (.inr c)) (h : Returns (k c) a) : Returns (.loop body cur k) a
  | par {α β : Type} {n : Nat} {ts : Fin n → Prog R A β} {k : (Fin n → β) → Prog R A α} {b : Fin n → β} {a : α}
      (ht : ∀ i, Returns (ts i) (b i)) (h : Returns (k b) a) : Returns (.par n ts k) a

inductive Issues : {α : Type} → Prog R A α → R → Prop where
  | here {α : Type} (r : R) (k : A r → Prog R A α) : Issues (.call r k) r
  | call {α : Type} {r q : R} {k : A r → Prog R A α} {x : A r} (hx : ok r x) (h : Issues (k x) q) :
      Issues (.call r k) q
  | body {α β γ : Type} {body : β → Prog R A (β ⊕ γ)} {cur : Prog R A (β ⊕ γ)} {k : γ → Prog R A α} {q : R}
      (h : Issues cur q) : Issues (.loop body cur k) q
  | again {α β γ : Type} {body : β → Prog R A (β ⊕ γ)} {cur : Prog R A (β ⊕ γ)} {k : γ → Prog R A α} {b : β} {q : R}
      (hc : Returns ok cur (.inl b)) (h : Issues (.loop body (body b) k) q) : Issues (.loop body cur k) q
  | leave {α β γ : Type} {body : β → Prog R A (β ⊕ γ)} {cur : Prog R A (β ⊕ γ)} {k : γ → Prog R A α} {c : γ} {q : R}
      (hc : Returns ok cur (.inr c)) (h : Issues (k c) q) : Issues (.loop body cur k) q
  | branch {α β : Type} {n : Nat} {ts : Fin n → Prog R A β} {k : (Fin n → β) → Prog R A α} {q : R} (i : Fin n)
      (h : Issues (ts i) q) : Issues (.par n ts k) q
  | par {α β : Type} {n : Nat} {ts : Fin n → Prog R A β} {k : (Fin n → β) → Prog R A α} {b : Fin n → β} {q : R}
      (ht : ∀ i, Returns ok (ts i) (b i)) (h : Issues (k b) q) : Issues (.par n ts k) q

variable {ok}

/-! ## Composition -/

theorem Returns.bind {p : Prog R A α} {f : α → Prog R A β} {a : α} {b : β} (hp : Returns ok p a)
    (hf : Returns ok (f a) b) : Returns ok (p.bind f) b := by
  induction hp with
  | ret a => exact hf
  | call hx _ ih => exact .call hx (ih hf)
  | again hc _ _ ih => exact .again hc (ih hf)
  | leave hc _ _ ih => exact .leave hc (ih hf)
  | par ht _ _ ih => exact .par ht (ih hf)

theorem Issues.bind_left {p : Prog R A α} {f : α → Prog R A β} {q : R} (hp : Issues ok p q) :
    Issues ok (p.bind f) q := by
  induction hp with
  | here r k => exact .here r _
  | call hx _ ih => exact .call hx ih
  | body h _ => exact .body h
  | again hc _ ih => exact .again hc ih
  | leave hc _ ih => exact .leave hc ih
  | branch i h _ => exact .branch i h
  | par ht _ ih => exact .par ht ih

theorem Issues.bind_right {p : Prog R A α} {f : α → Prog R A β} {a : α} {q : R} (hp : Returns ok p a)
    (hf : Issues ok (f a) q) : Issues ok (p.bind f) q := by
  induction hp with
  | ret a => exact hf
  | call hx _ ih => exact .call hx (ih hf)
  | again hc _ _ ih => exact .again hc (ih hf)
  | leave hc _ _ ih => exact .leave hc (ih hf)
  | par ht _ _ ih => exact .par ht (ih hf)

theorem returns_of_bind {q : Prog R A β} {b : β} (h : Returns ok q b) : ∀ {α : Type} {p : Prog R A α}
    {f : α → Prog R A β}, q = p.bind f → ∃ a, Returns ok p a ∧ Returns ok (f a) b := by
  induction h with
  | ret b =>
    intro α p f e
    cases p with
    | ret a => exact ⟨a, .ret a, (show _ = f a from e) ▸ .ret b⟩
    | _ => cases e
  | call hx h ih =>
    intro α p f e
    cases p with
    | ret a => exact ⟨a, .ret a, (show _ = f a from e) ▸ .call hx h⟩
    | call r k =>
      cases e
      obtain ⟨a, ha, hb⟩ := ih rfl
      exact ⟨a, .call hx ha, hb⟩
    | _ => cases e
  | again hc h _ ih =>
    intro α p f e
    cases p with
    | ret a => exact ⟨a, .ret a, (show _ = f a from e) ▸ .again hc h⟩
    | loop body cur k =>
      cases e
      obtain ⟨a, ha, hb⟩ := ih (Prog.loop_bind ..).symm
      exact ⟨a, .again hc ha, hb⟩
    | _ => cases e
  | leave hc h _ ih =>
    intro α p f e
    cases p with
    | ret a => exact ⟨a, .ret a, (show _ = f a from e) ▸ .leave hc h⟩
    | loop body cur k =>
      cases e
      obtain ⟨a, ha, hb⟩ := ih rfl
      exact ⟨a, .leave hc ha, hb⟩
    | _ => cases e
  | par ht h _ ih =>
    intro α p f e
    cases p with
    | ret a => exact ⟨a, .ret a, (show _ = f a from e) ▸ .par ht h⟩
    | par n ts k =>
      cases e
      obtain ⟨a, ha, hb⟩ := ih rfl
      exact ⟨a, .par ht ha, hb⟩
    | _ => cases e

theorem issues_of_bind {p' : Prog R A β} {q : R} (h : Issues ok p' q) : ∀ {α : Type} {p : Prog R A α}
    {f : α → Prog R A β}, p' = p.bind f → Issues ok p q ∨ ∃ a, Returns ok p a ∧ Issues ok (f a) q := by
  induction h with
  | here r k =>
    intro α p f e
    cases p with
    | ret a => exact .inr ⟨a, .ret a, (show _ = f a from e) ▸ .here r k⟩
    | call r k => cases e; exact .inl (.here ..)
    | _ => cases e
  | call hx h ih =>
    intro α p f e
    cases p with
    | ret a => exact .inr ⟨a, .ret a, (show _ = f a from e) ▸ .call hx h⟩
    | call r k =>
      cases e
      exact (ih rfl).imp (.call hx) fun ⟨a, ha, hb⟩ => ⟨a, .call hx ha, hb⟩
    | _ => cases e
  | body h _ =>
    intro α p f e
    cases p with
    | ret a => exact .inr ⟨a, .ret a, (show _ = f a from e) ▸ .body h⟩
    | loop body cur k => cases e; exact .inl (.body h)
    | _ => cases e
  | again hc h ih =>
    intro α p f e
    cases p with
    | ret a => exact .inr ⟨a, .ret a, (show _ = f a from e) ▸ .again hc h⟩
    | loop body cur k =>
      cases e
      exact (ih (Prog.loop_bind ..).symm).imp (.again hc) fun ⟨a, ha, hb⟩ => ⟨a, .again hc ha, hb⟩
    | _ => cases e
  | leave hc h ih =>
    intro α p f e
    cases p with
    | ret a => exact .inr ⟨a, .ret a, (show _ = f a from e) ▸ .leave hc h⟩
    | loop body cur k =>
      cases e
      exact (ih rfl).imp (.leave hc) fun ⟨a, ha, hb⟩ => ⟨a, .leave hc ha, hb⟩
    | _ => cases e
  | branch i h _ =>
    intro α p f e
    cases p with
    | ret a => exact .inr ⟨a, .ret a, (show _ = f a from e) ▸ .branch i h⟩
    | par n ts k => cases e; exact .inl (.branch i h)
    | _ => cases e
  | par ht h ih =>
    intro α p f e
    cases p with
    | ret a => exact .inr ⟨a, .ret a, (show _ = f a from e) ▸ .par ht h⟩
    | par n ts k =>
      cases e
      exact (ih rfl).imp (.par ht) fun ⟨a, ha, hb⟩ => ⟨a, .par ht ha, hb⟩
    | _ => cases e

theorem returns_bind {p : Prog R A α} {f : α → Prog R A β} {b : β} :
    Returns ok (p.bind f) b ↔ ∃ a, Returns ok p a ∧ Returns ok (f a) b :=
  ⟨fun h => returns_of_bind h rfl, fun ⟨_, ha, hb⟩ => ha.bind hb⟩

theorem issues_bind {p : Prog R A α} {f : α → Prog R A β} {q : R} :
    Issues ok (p.bind f) q ↔ Issues ok p q ∨ ∃ a, Returns ok p a ∧ Issues ok (f a) q :=
  ⟨fun h => issues_of_bind h rfl, fun h => h.elim .bind_left fun ⟨_, ha, hb⟩ => .bind_right ha hb⟩

@[simp] theorem not_issues_ret {a : α} {q : R} : ¬ Issues ok (.ret a) q := by
  intro h
  cases h

@[simp] theorem returns_ret {a b : α} : Returns ok (.ret a) b ↔ b = a := by
  constructor
  · intro h
    cases h
    rfl
  · intro h
    exact h ▸ .ret b

theorem issues_call {r q : R} {k : A r → Prog R A α} :
    Issues ok (.call r k) q ↔ q = r ∨ ∃ x, ok r x ∧ Issues ok (k x) q := by
  constructor
  · intro h
    cases h with
    | here => exact .inl rfl
    | call hx h => exact .inr ⟨_, hx, h⟩
  · intro h
    rcases h with rfl | ⟨x, hx, h⟩
    · exact .here ..
    · exact .call hx h

theorem returns_call {r : R} {k : A r → Prog R A α} {a : α} :
    Returns ok (.call r k) a ↔ ∃ x, ok r x ∧ Returns ok (k x) a := by
  constructor
  · intro h
    cases h with
    | call hx h => exact ⟨_, hx, h⟩
  · intro h
    obtain ⟨x, hx, h⟩ := h
    exact .call hx h

@[simp] theorem issues_req {r q : R} : Issues ok (Prog.req r : Prog R A (A r)) q ↔ q = r := by
  unfold Prog.req
  simp [issues_call]

@[simp] theorem returns_req {r : R} {a : A r} : Returns ok (Prog.req r) a ↔ ok r a := by
  unfold Prog.req
  simp [returns_call]

theorem Issues.of_asks {P : R → Prop} {p : Prog R A α} {q : R} (h : Issues ok p q) : Asks P p → P q := by
  induction h with
  | here r k => exact fun hp => hp.1
  | call _ _ ih => exact fun hp => ih (hp.2 _)
  | body _ ih => exact fun hp => ih hp.2.1
  | again _ _ ih => exact fun hp => ih ⟨hp.1, hp.1 _, hp.2.2⟩
  | leave _ _ ih => exact fun hp => ih (hp.2.2 _)
  | branch i _ ih => exact fun hp => ih (hp.1 i)
  | par _ _ ih => exact fun hp => ih (hp.2 _)

theorem returns_each {f : β → Prog R A Unit} : ∀ {xs : List β}, (∀ x ∈ xs, Returns ok (f x) ()) →
    Returns ok (Prog.each f xs) ()
  | [], _ => .ret ()
  | x :: xs, h => (h x (by simp)).bind (returns_each fun y hy => h y (List.mem_cons_of_mem _ hy))

theorem issues_each {f : β → Prog R A Unit} {q : R} : ∀ {xs : List β}, (∀ x ∈ xs, Returns ok (f x) ()) →
    (Issues ok (Prog.each f xs) q ↔ ∃ x ∈ xs, Issues ok (f x) q)
  | [], _ => by simp [Prog.each]
  | x :: xs, h => by
    have hxs : ∀ y ∈ xs, Returns ok (f y) () := fun y hy => h y (List.mem_cons_of_mem _ hy)
    have hx : Returns ok (f x) () := h x (by simp)
    unfold Prog.each
    rw [issues_bind, issues_each hxs]
    simp only [List.mem_cons, exists_eq_or_imp]
    refine or_congr_right ⟨fun ⟨_, _, h⟩ => h, fun h => ⟨(), hx, h⟩⟩

end

end Conc
