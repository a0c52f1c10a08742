import Mathlib.Data.List.Nodup

/-!
# Listings in pages

A listing walks a list that only grows at its end and returns what is visible of
it page by page, each page as the list is at its time. If nothing appears or
disappears among the elements that are already there, the pages together are
what a single answer would have been at the time of the last of them.
-/

namespace Dynamo

structure Snapshot (α : Type) where
  elements : List α
  visible : α → Bool

/-- What a page returns, and the id of the element it stopped at if there may be more. -/
structure Window (α κ : Type) where
  items : List α
  last : Option κ

section
variable {α κ : Type} [DecidableEq κ] (id : α → κ)

def behind : Option κ → List α → List α
  | none, xs => xs
  | some k, xs => (xs.dropWhile fun x => id x ≠ k).tail

def StartsIn (start : Option κ) (xs : List α) : Prop := ∀ k, start = some k → k ∈ xs.map id

/-- The page has what is visible of a front of the elements behind `start`, and names the last of that front
unless nothing visible is left. -/
def IsWindow (s : Snapshot α) (start : Option κ) (p : Window α κ) : Prop :=
  ∃ front later, behind id start s.elements = front ++ later ∧ p.items = front.filter s.visible ∧
    match p.last with
    | none => later.filter s.visible = []
    | some k => front.getLast?.map id = some k

/-- A whole listing: each page starts where the one before it stopped. -/
def ListingPages : Option κ → List (Snapshot α × Window α κ) → Prop
  | _, [] => False
  | start, (s, p) :: rest => IsWindow id s start p ∧
      match p.last with
      | none => rest = []
      | some k => ListingPages (some k) rest

def covered (ps : List (Snapshot α × Window α κ)) : List α := ps.flatMap fun x => x.2.items

/-- The later snapshot has more elements at its end, and the ones of the first look the same. -/
def Snapshot.Grows (s t : Snapshot α) : Prop :=
  s.elements <+: t.elements ∧ ∀ x ∈ s.elements, s.visible x = t.visible x

variable {id} {start : Option κ} {xs ys zs : List α} {x : α}

theorem behind_append (h : ((ys ++ x :: zs).map id).Nodup) : behind id (some (id x)) (ys ++ x :: zs) = zs := by
  have hne : ∀ y ∈ ys, decide (id y ≠ id x) = true := by
    intro y hy
    rw [List.map_append, List.map_cons, List.nodup_append] at h
    exact decide_eq_true (h.2.2 _ (List.mem_map_of_mem hy) _ (List.mem_cons_self ..))
  change ((ys ++ x :: zs).dropWhile fun y => id y ≠ id x).tail = zs
  rw [List.dropWhile_append_of_pos hne, List.dropWhile_cons_of_neg (by simp)]
  rfl

omit [DecidableEq κ] in
theorem StartsIn.mono (h : StartsIn id start xs) (hp : xs <+: ys) : StartsIn id start ys := by
  intro k hk
  obtain ⟨x, hx, rfl⟩ := List.mem_map.mp (h k hk)
  exact List.mem_map_of_mem (hp.mem hx)

omit [DecidableEq κ] in
theorem startsIn_of_mem (h : x ∈ xs) : StartsIn id (some (id x)) xs := by
  intro k hk
  cases hk
  exact List.mem_map_of_mem h

theorem behind_suffix : behind id start xs <:+ xs := by
  cases start with
  | none => exact List.suffix_rfl
  | some k => exact (List.tail_suffix _).trans (List.dropWhile_suffix _)

theorem behind_grows (h : ((ys ++ zs).map id).Nodup) (hs : StartsIn id start ys) :
    behind id start (ys ++ zs) = behind id start ys ++ zs := by
  cases start with
  | none => rfl
  | some k =>
    obtain ⟨x, hx, rfl⟩ := List.mem_map.mp (hs k rfl)
    obtain ⟨a, b, rfl⟩ := List.append_of_mem hx
    have hshort : behind id (some (id x)) (a ++ x :: b) = b := by
      refine behind_append ?_
      rw [List.map_append] at h
      exact (List.nodup_append.mp h).1
    have hlong : behind id (some (id x)) (a ++ x :: (b ++ zs)) = b ++ zs := behind_append (by simpa using h)
    rw [hshort, List.append_assoc, List.cons_append]
    exact hlong

theorem behind_front {front later : List α} (h : (xs.map id).Nodup) (hb : behind id start xs = front ++ later)
    (hl : front.getLast? = some x) : behind id (some (id x)) xs = later := by
  obtain ⟨pre, hpre⟩ := (behind_suffix : behind id start xs <:+ xs)
  obtain ⟨init, rfl⟩ := List.getLast?_eq_some_iff.mp hl
  have hxs : xs = (pre ++ init) ++ x :: later := by
    rw [← hpre, hb]
    simp
  rw [hxs] at h ⊢
  exact behind_append h

theorem IsWindow.mem {s : Snapshot α} {p : Window α κ} (h : IsWindow id s start p) : ∀ y ∈ p.items, y ∈ s.elements := by
  obtain ⟨front, later, hb, hi, -⟩ := h
  intro y hy
  rw [hi] at hy
  refine (behind_suffix : behind id start s.elements <:+ s.elements).mem ?_
  rw [hb]
  exact List.mem_append_left _ (List.mem_filter.mp hy).1

theorem Snapshot.Grows.refl (s : Snapshot α) : s.Grows s := ⟨List.prefix_rfl, fun _ _ => rfl⟩

theorem IsWindow.next {s t : Snapshot α} {p : Window α κ} {k : κ} (h : IsWindow id s start p) (hp : p.last = some k)
    (hgrow : s.Grows t) (hn : (t.elements.map id).Nodup) (hs : StartsIn id start s.elements) :
    StartsIn id (some k) s.elements ∧ ∃ front, front ≠ [] ∧ p.items = front.filter t.visible ∧
      behind id start t.elements = front ++ behind id (some k) t.elements := by
  obtain ⟨front, later, hb, hi, hl⟩ := h
  rw [hp] at hl
  obtain ⟨x, hx, rfl⟩ := Option.map_eq_some_iff.mp hl
  obtain ⟨⟨extra, hextra⟩, hsame⟩ := hgrow
  have hmem : ∀ y ∈ front, y ∈ s.elements := by
    intro y hy
    refine (behind_suffix : behind id start s.elements <:+ s.elements).mem ?_
    rw [hb]
    exact List.mem_append_left _ hy
  -- the later list continues this one, so it has this page's front as well
  have hb' : behind id start t.elements = front ++ (later ++ extra) := by
    rw [← hextra] at hn ⊢
    rw [behind_grows hn hs, hb, List.append_assoc]
  refine ⟨startsIn_of_mem (hmem x (List.mem_of_getLast? hx)), front, ?_, ?_, ?_⟩
  · rintro rfl
    cases hx
  · rw [hi]
    exact List.filter_congr fun y hy => hsame y (hmem y hy)
  · rw [behind_front hn hb' hx, hb']

/-- The pages of a listing are what is visible, when the last of them is read, behind the start. -/
theorem ListingPages.whole : ∀ {start : Option κ} {ps : List (Snapshot α × Window α κ)}, ListingPages id start ps →
    (∀ a ∈ ps, (a.1.elements.map id).Nodup ∧ StartsIn id start a.1.elements) →
    (ps.Pairwise fun a b => a.1.Grows b.1) →
    ∃ a ∈ ps, covered ps = (behind id start a.1.elements).filter a.1.visible
  | start, (s, p) :: rest, ⟨hw, hr⟩, hids, hgrow => by
    cases hp : p.last with
    | none =>
      obtain ⟨front, later, hb, hi, hl⟩ := hw
      rw [hp] at hl hr
      subst hr
      refine ⟨_, List.mem_cons_self, ?_⟩
      rw [hb, List.filter_append, hl, List.append_nil, ← hi]
      simp [covered]
    | some k =>
      rw [hp] at hr
      rw [List.pairwise_cons] at hgrow
      obtain ⟨hn, hs⟩ := hids _ List.mem_cons_self
      have hk : StartsIn id (some k) s.elements := (hw.next hp (.refl s) hn hs).1
      obtain ⟨a, ha, he⟩ := ListingPages.whole hr
        (fun a ha => ⟨(hids a (List.mem_cons_of_mem _ ha)).1, hk.mono (hgrow.1 a ha).1⟩) hgrow.2
      have hna := (hids a (List.mem_cons_of_mem _ ha)).1
      refine ⟨a, List.mem_cons_of_mem _ ha, ?_⟩
      obtain ⟨-, front, -, hi, hb⟩ := hw.next hp (hgrow.1 a ha) hna hs
      rw [hb, List.filter_append, ← he, ← hi]
      rfl

end

end Dynamo
