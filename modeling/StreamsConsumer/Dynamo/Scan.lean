import StreamsConsumer.Dynamo.Write
import Mathlib.Data.List.Nodup

/-!
# Scans in pages

A scan walks the keys of a table in the order of their places and returns them
page by page, each page as the table is at its time. Rows may come and go
between two pages.
-/

namespace Dynamo

structure ScanPage where
  items : List Item
  lastEvaluatedKey : Option String

section
variable (pk : String) (place : String → ℕ)

def Behind (start : Option String) (key : String) : Prop := ∀ k, start = some k → place k < place key

def Within (last : Option String) (key : String) : Prop := ∀ k, last = some k → place key ≤ place k

/-- A page of the table `t` that starts behind `start` and ends at its last evaluated key. -/
structure IsScanPage (t : String → Option Item) (start : Option String) (p : ScanPage) : Prop where
  sound : ∀ item ∈ p.items, ∃ key, item pk = some (.s key) ∧ t key = some item ∧ Behind place start key ∧
    Within place p.lastEvaluatedKey key
  complete : ∀ key item, t key = some item → Behind place start key → Within place p.lastEvaluatedKey key → item ∈ p.items
  nodup : (p.items.map (· pk)).Nodup
  advance : ∀ k, p.lastEvaluatedKey = some k → Behind place start k

/-- A whole scan: each page starts where the one before it ended, and the last one has no last
evaluated key. -/
def ScanPages : Option String → List ((String → Option Item) × ScanPage) → Prop
  | _, [] => False
  | start, (t, p) :: rest =>
    IsScanPage pk place t start p ∧
      match p.lastEvaluatedKey with
      | none => rest = []
      | some k => ScanPages (some k) rest

def scanned (ps : List ((String → Option Item) × ScanPage)) : List Item := ps.flatMap fun x => x.2.items

variable {pk place}

theorem Behind.mono {start : Option String} {k key : String} (h : Behind place start k) (hk : Behind place (some k) key) :
    Behind place start key := fun j hj => (h j hj).trans (hk k rfl)

theorem ScanPages.sound : ∀ {start : Option String} {ps : List ((String → Option Item) × ScanPage)}, ScanPages pk place start ps →
    ∀ item ∈ scanned ps, ∃ x ∈ ps, ∃ key, item pk = some (.s key) ∧ x.1 key = some item ∧ Behind place start key
  | start, (t, p) :: rest, ⟨hp, hr⟩, item, hi => by
    rw [scanned, List.flatMap_cons, List.mem_append] at hi
    rcases hi with hi | hi
    · obtain ⟨key, hk, ht, hb, -⟩ := hp.sound item hi
      exact ⟨_, List.mem_cons_self, key, hk, ht, hb⟩
    · cases hl : p.lastEvaluatedKey with
      | none =>
        rw [hl] at hr
        simp [hr] at hi
      | some k =>
        rw [hl] at hr
        obtain ⟨x, hx, key, hk, ht, hb⟩ := ScanPages.sound hr item hi
        exact ⟨x, List.mem_cons_of_mem _ hx, key, hk, ht, (hp.advance k hl).mono hb⟩

theorem IsScanPage.last {t : String → Option Item} {start : Option String} {keys : List String} (hn : keys.Nodup)
    (hk : ∀ key item, t key = some item → item pk = some (.s key))
    (hb : ∀ key ∈ keys, Behind place start key)
    (ha : ∀ key, (t key).isSome → Behind place start key → key ∈ keys) :
    IsScanPage pk place t start ⟨keys.filterMap t, none⟩ where
  sound item hi := by
    obtain ⟨key, hm, ht⟩ := List.mem_filterMap.mp hi
    exact ⟨key, hk key item ht, ht, hb key hm, fun _ h => by cases h⟩
  complete key item ht hbe _ := List.mem_filterMap.mpr ⟨key, ha key (by rw [ht]; rfl) hbe, ht⟩
  nodup := by
    rw [List.map_filterMap]
    refine List.Nodup.filterMap (fun a b x hxa hxb => ?_) hn
    rw [Option.mem_def, Option.map_eq_some_iff] at hxa hxb
    obtain ⟨i, hi, rfl⟩ := hxa
    obtain ⟨j, hj, he⟩ := hxb
    rw [hk a i hi, hk b j hj] at he
    simpa using he.symm
  advance k h := by cases h

theorem ScanPages.nodup : ∀ {start : Option String} {ps : List ((String → Option Item) × ScanPage)}, ScanPages pk place start ps →
    ((scanned ps).map (· pk)).Nodup
  | start, (t, p) :: rest, ⟨hp, hr⟩ => by
    rw [scanned, List.flatMap_cons, List.map_append, List.nodup_append]
    cases hl : p.lastEvaluatedKey with
    | none =>
      rw [hl] at hr
      simp [hr, hp.nodup]
    | some k =>
      rw [hl] at hr
      refine ⟨hp.nodup, ScanPages.nodup hr, ?_⟩
      rintro a ha b hb rfl
      obtain ⟨i, hi, rfl⟩ := List.mem_map.mp ha
      obtain ⟨j, hj, he⟩ := List.mem_map.mp hb
      obtain ⟨key, hk, -, -, hw⟩ := hp.sound i hi
      obtain ⟨x, -, key', hk', -, hb'⟩ := ScanPages.sound hr j hj
      simp only [hk, hk', Option.some.injEq, AttributeValue.s.injEq] at he
      subst he
      exact absurd (hb' k rfl) (Nat.not_lt.mpr (hw k hl))

theorem ScanPages.complete {key : String} : ∀ {start : Option String} {ps : List ((String → Option Item) × ScanPage)},
    ScanPages pk place start ps → Behind place start key → (∀ x ∈ ps, (x.1 key).isSome) →
      ∃ x ∈ ps, ∃ item ∈ scanned ps, x.1 key = some item
  | start, (t, p) :: rest, ⟨hp, hr⟩, hb, ha => by
    obtain ⟨item, hi⟩ := Option.isSome_iff_exists.mp (ha _ List.mem_cons_self)
    by_cases hw : Within place p.lastEvaluatedKey key
    · exact ⟨_, List.mem_cons_self, item, by
        rw [scanned, List.flatMap_cons, List.mem_append]
        exact Or.inl (hp.complete key item hi hb hw), hi⟩
    · cases hl : p.lastEvaluatedKey with
      | none => exact absurd (by simp [Within, hl]) hw
      | some k =>
        rw [hl] at hr hw
        have hk : Behind place (some k) key := by
          intro j hj
          cases hj
          by_contra hlt
          exact hw fun j hj => by cases hj; omega
        obtain ⟨x, hx, i, hi, he⟩ := ScanPages.complete hr hk fun x hx => ha x (List.mem_cons_of_mem _ hx)
        exact ⟨x, List.mem_cons_of_mem _ hx, i, by
          rw [scanned, List.flatMap_cons, List.mem_append]
          exact Or.inr hi, he⟩

end

end Dynamo
