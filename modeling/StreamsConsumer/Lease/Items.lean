import StreamsConsumer.Dynamo.Scan
import StreamsConsumer.Lease.Table
import Mathlib.Data.List.Induction

/-!
# Lease rows as DynamoDB items

The requests of `lease-dynamodb/src/dynamodb.rs` with their expressions, and
`item_to_lease`, which reads a row back. On rows with a readable counter the
service does what `DbOp.apply` says; a row without one is read as free at
counter 0, and no request of a worker ever gets hold of it.
-/

namespace StreamsConsumer
open Dynamo

def LEASE_KEY : String := "leaseKey"
def LEASE_OWNER : String := "leaseOwner"
def LEASE_COUNTER : String := "leaseCounter"
def CHECKPOINT : String := "checkpoint"
def COMPLETED : String := "completed"
def PARENTS : String := "parentShardIds"

def asS : AttributeValue → Option String
  | .s text => some text
  | _ => none

def asBool : AttributeValue → Option Bool
  | .bool b => some b
  | _ => none

def asL : AttributeValue → Option (List AttributeValue)
  | .l xs => some xs
  | _ => none

/-- What a `u64` stays under: 2 to the 64th. -/
def U64 : ℕ := 18446744073709551616

def asU64 : AttributeValue → Option ℕ
  | .n v => if v.den = 1 ∧ 0 ≤ v.num ∧ v.num.toNat < U64 then some v.num.toNat else none
  | _ => none

def itemToLease (item : Item) : Lease where
  leaseKey := ((item LEASE_KEY).bind asS).getD ""
  owner := (item LEASE_OWNER).bind asS
  leaseCounter := ((item LEASE_COUNTER).bind asU64).getD 0
  completed := ((item COMPLETED).bind asBool).getD false
  checkpoint := (item CHECKPOINT).bind asS
  parents := (((item PARENTS).bind asL).map fun l => l.filterMap asS).getD []

/-! ## The requests -/

def bumpCounter : Clause := .set LEASE_COUNTER (.plus (.attr LEASE_COUNTER) (.value ":one"))

def counterIs : Condition := .eq (.attr LEASE_COUNTER) (.value ":c")

def heldBy : Condition := .and counterIs (.eq (.attr LEASE_OWNER) (.value ":o"))

def createLease (key : ShardId) (owner : Worker) : Write :=
  .put (Item.of [(LEASE_KEY, .s key), (LEASE_OWNER, .s owner), (LEASE_COUNTER, .n 1)]) (.attributeNotExists LEASE_KEY)

def shardLeaseItem (key : ShardId) (parents : List ShardId) (checkpoint : Option SequenceNumber) : Item :=
  Item.of ([(LEASE_KEY, .s key), (LEASE_COUNTER, .n 0)] ++ (checkpoint.map fun cp => (CHECKPOINT, .s cp)).toList ++
    if parents.isEmpty then [] else [(PARENTS, .l (parents.map .s))])

namespace DbOp

def request (key : ShardId) : DbOp → Write
  | put owner => createLease key owner
  | claim owner seen =>
    .update [.set LEASE_OWNER (.value ":o"), bumpCounter] (some counterIs)
      [(":o", .s owner), (":one", .n 1), (":c", .n seen)]
  | renew owner counter =>
    .update [bumpCounter] (some heldBy) [(":one", .n 1), (":c", .n counter), (":o", .s owner)]
  | checkpoint owner counter seq =>
    .update [.set CHECKPOINT (.value ":cp"), bumpCounter] (some heldBy)
      [(":cp", .s seq), (":one", .n 1), (":c", .n counter), (":o", .s owner)]
  | markComplete owner counter =>
    .update [.set COMPLETED (.value ":t")] (some heldBy)
      [(":t", .bool true), (":c", .n counter), (":o", .s owner)]
  | release owner counter =>
    .update [.remove LEASE_OWNER, bumpCounter] (some heldBy)
      [(":one", .n 1), (":c", .n counter), (":o", .s owner)]
  | createShardLease parents cp => .put (shardLeaseItem key parents cp) (.attributeNotExists LEASE_KEY)
  | deleteLease =>
    .delete (.and (.attributeExists LEASE_KEY) (.eq (.attr COMPLETED) (.value ":t"))) [(":t", .bool true)]
  | heartbeat worker =>
    .update [.set LEASE_OWNER (.value ":w"), .add LEASE_COUNTER ":one"] none [(":w", .s worker), (":one", .n 1)]

end DbOp

def performDb (key : ShardId) (op : DbOp) (row : Option Item) : Except Fault (Option Item) :=
  Dynamo.perform LEASE_KEY key (op.request key) row

/-- A row under its own key, with a counter that a `u64` holds. -/
structure Readable (key : ShardId) (item : Item) : Prop where
  key_eq : item LEASE_KEY = some (.s key)
  counter : ∃ n < U64, item LEASE_COUNTER = some (.n (n : ℕ))

theorem asU64_natCast (n : ℕ) : asU64 (.n n) = if n < U64 then some n else none := by
  simp [asU64]

theorem asU64_eq_some {v : AttributeValue} {n : ℕ} (h : asU64 v = some n) : n < U64 ∧ v = .n n := by
  cases v with
  | n q =>
    simp only [asU64, Option.ite_none_right_eq_some, Option.some.injEq] at h
    obtain ⟨⟨hd, h0, hlt⟩, rfl⟩ := h
    refine ⟨hlt, congrArg _ (Rat.ext ?_ hd)⟩
    simp [h0]
  | _ => cases h

theorem Readable.lease {key : ShardId} {item : Item} (h : Readable key item) :
    (itemToLease item).leaseKey = key ∧ (itemToLease item).leaseCounter < U64 ∧
      item LEASE_COUNTER = some (.n (itemToLease item).leaseCounter) := by
  obtain ⟨hk, n, hn, hc⟩ := h
  simp [itemToLease, hk, hc, asS, asU64_natCast, hn]

/-! ## One attribute at a time -/

section
variable (item : Item) (v : Option AttributeValue)

@[simp] theorem itemToLease_owner : itemToLease (Function.update item LEASE_OWNER v) =
    { itemToLease item with owner := v.bind asS } := rfl

@[simp] theorem itemToLease_counter : itemToLease (Function.update item LEASE_COUNTER v) =
    { itemToLease item with leaseCounter := (v.bind asU64).getD 0 } := rfl

@[simp] theorem itemToLease_checkpoint : itemToLease (Function.update item CHECKPOINT v) =
    { itemToLease item with checkpoint := v.bind asS } := rfl

@[simp] theorem itemToLease_completed : itemToLease (Function.update item COMPLETED v) =
    { itemToLease item with completed := (v.bind asBool).getD false } := rfl

end

/-! ## Conditions and counters on a readable row -/

theorem asS_eq_some {v : AttributeValue} {x : String} : asS v = some x ↔ v = .s x := by
  cases v <;> simp [asS]

theorem any_same_s {v : Option AttributeValue} {x : String} : v.any (·.same (.s x)) = true ↔ v.bind asS = some x := by
  cases v with
  | none => simp
  | some v => simp [AttributeValue.same_s, asS_eq_some]

theorem any_same_bool (v : Option AttributeValue) : v.any (·.same (.bool true)) = true ↔ (v.bind asBool).getD false = true := by
  cases v with
  | none => simp
  | some v => cases v <;> simp [AttributeValue.same_bool, asBool]

section
variable {key : ShardId} {item : Item} (h : Readable key item) {vals : Values}
include h

theorem counterIs_holds {c : ℕ} (hc : vals.lookup ":c" = some (.n c)) :
    counterIs.holds vals item = true ↔ (itemToLease item).leaseCounter = c := by
  rw [counterIs, holds_eq_value hc, h.lease.2.2]
  simp [AttributeValue.same_n]

theorem heldBy_holds {c : ℕ} {o : Worker} (hc : vals.lookup ":c" = some (.n c)) (ho : vals.lookup ":o" = some (.s o)) :
    heldBy.holds vals item = true ↔ (itemToLease item).leaseCounter = c ∧ (itemToLease item).owner = some o := by
  rw [heldBy, Condition.holds, Bool.and_eq_true, counterIs_holds h hc, holds_eq_value ho, any_same_s]
  rfl

theorem bumpCounter_result (vals : Values) (h1 : vals.lookup ":one" = some (.n 1)) :
    bumpCounter.result vals item = some (some (.n ((itemToLease item).leaseCounter + 1 : ℕ))) := by
  simp only [bumpCounter, Clause.result, Operand.eval, h.lease.2.2, h1]
  simp

end

def outcome (r : Option (Option Lease)) : Except Fault (Option Lease) :=
  r.elim (.error .conditionalCheckFailed) .ok

@[simp] theorem outcome_ite {P : Prop} [Decidable P] {row : Option Lease} :
    outcome (if P then some row else none) = if P then .ok row else .error .conditionalCheckFailed := by
  split <;> rfl

theorem itemToLease_create (key : ShardId) (owner : Worker) :
    itemToLease (Item.of [(LEASE_KEY, .s key), (LEASE_OWNER, .s owner), (LEASE_COUNTER, .n 1)]) =
      ⟨key, some owner, 1, false, none, []⟩ := by
  have h1 : asU64 (.n 1) = some 1 := by decide
  simp [itemToLease, Item.of, List.lookup_cons, asS, LEASE_KEY, LEASE_OWNER, LEASE_COUNTER, CHECKPOINT, COMPLETED, PARENTS, h1]

theorem itemToLease_shardLease (key : ShardId) (parents : List ShardId) (cp : Option SequenceNumber) :
    itemToLease (shardLeaseItem key parents cp) = ⟨key, none, 0, false, cp, parents⟩ := by
  have h0 : asU64 (.n 0) = some 0 := by decide
  have hp : (parents.map AttributeValue.s).filterMap asS = parents := by
    rw [List.filterMap_map]
    exact List.filterMap_some
  cases cp <;> cases parents <;>
    simp_all [itemToLease, shardLeaseItem, Item.of, List.lookup_cons, asS, asL, LEASE_KEY, LEASE_OWNER, LEASE_COUNTER,
      CHECKPOINT, COMPLETED, PARENTS]

theorem perform_held {key : ShardId} {item : Item} (h : Readable key item) {clauses : List Clause} {vals : Values}
    {after : Item} {c : ℕ} {o : Worker} (hn : LEASE_KEY ∉ clauses.map Clause.name ∧ (clauses.map Clause.name).Nodup)
    (hu : update vals item clauses = some after) (hc : vals.lookup ":c" = some (.n c))
    (ho : vals.lookup ":o" = some (.s o)) :
    Dynamo.perform LEASE_KEY key (.update clauses (some heldBy) vals) (some item) =
      if (itemToLease item).leaseCounter = c ∧ (itemToLease item).owner = some o then .ok (some after)
      else .error .conditionalCheckFailed :=
  perform_update hn.1 hn.2 hu (heldBy_holds h hc ho)

theorem performDb_present {key : ShardId} {op : DbOp} {item : Item} (h : Readable key item)
    (hn : (itemToLease item).leaseCounter + 1 < U64) :
    (performDb key op (some item)).map (Option.map itemToLease) = outcome (op.apply key (some (itemToLease item))) := by
  have hb := bumpCounter_result h
  have hc : asU64 (.n (((itemToLease item).leaseCounter : ℚ) + 1)) = some ((itemToLease item).leaseCounter + 1) := by
    simpa [hn] using asU64_natCast ((itemToLease item).leaseCounter + 1)
  cases op with
  | put owner =>
    simp [performDb, DbOp.request, createLease, perform, Condition.holds, h.key_eq, DbOp.apply, outcome]
    rfl
  | createShardLease parents cp =>
    simp [performDb, DbOp.request, perform, Condition.holds, h.key_eq, DbOp.apply, outcome]
    rfl
  | claim owner seen =>
    have e : performDb key (.claim owner seen) (some item) = _ :=
      perform_update (by decide) (by decide) (update_cons (v := some (.s owner)) rfl (update_cons (hb _ rfl) (update_nil _ _)))
        (counterIs_holds h rfl)
    rw [e]
    simp only [DbOp.apply, outcome_ite]
    split
    · simp [Except.map, bumpCounter, Clause.name, asS, hc]
    · rfl
  | renew owner counter =>
    have e : performDb key (.renew owner counter) (some item) = _ :=
      perform_held h (by decide) (update_cons (hb _ rfl) (update_nil _ _)) rfl rfl
    rw [e]
    simp only [DbOp.apply, outcome_ite]
    split
    · simp [Except.map, bumpCounter, Clause.name, hc]
    · rfl
  | checkpoint owner counter seq =>
    have e : performDb key (.checkpoint owner counter seq) (some item) = _ :=
      perform_held h (by decide) (update_cons (v := some (.s seq)) rfl (update_cons (hb _ rfl) (update_nil _ _))) rfl rfl
    rw [e]
    simp only [DbOp.apply, outcome_ite]
    split
    · simp [Except.map, bumpCounter, Clause.name, asS, hc]
    · rfl
  | markComplete owner counter =>
    have e : performDb key (.markComplete owner counter) (some item) = _ :=
      perform_held h (by decide) (update_cons (v := some (.bool true)) rfl (update_nil _ _)) rfl rfl
    rw [e]
    simp only [DbOp.apply, outcome_ite]
    split
    · simp [Except.map, Clause.name, asBool]
    · rfl
  | release owner counter =>
    have e : performDb key (.release owner counter) (some item) = _ :=
      perform_held h (by decide) (update_cons (v := none) rfl (update_cons (hb _ rfl) (update_nil _ _))) rfl rfl
    rw [e]
    simp only [DbOp.apply, outcome_ite]
    split
    · simp [Except.map, bumpCounter, Clause.name, hc]
    · rfl
  | deleteLease =>
    have hd := any_same_bool (item COMPLETED)
    have hc : Condition.holds [(":t", .bool true)] item
        (.and (.attributeExists LEASE_KEY) (.eq (.attr COMPLETED) (.value ":t"))) = (itemToLease item).completed := by
      rw [Condition.holds, holds_eq_value rfl, Bool.eq_iff_iff, Bool.and_eq_true, hd]
      simp [Condition.holds, h.key_eq, itemToLease]
    simp only [performDb, DbOp.request, perform, Option.getD_some, hc, DbOp.apply, outcome_ite]
    split <;> rfl
  | heartbeat worker =>
    have hadd : Clause.result [(":w", .s worker), (":one", .n 1)] item (.add LEASE_COUNTER ":one") =
        some (some (.n ((itemToLease item).leaseCounter + 1))) := by
      simp [Clause.result, h.lease.2.2, List.lookup_cons]
    have e : performDb key (.heartbeat worker) (some item) = _ :=
      perform_update (P := True) (by decide) (by decide)
        (update_cons (v := some (.s worker)) rfl (update_cons hadd (update_nil _ _))) (by simp)
    rw [e]
    simp [DbOp.apply, outcome, Except.map, Clause.name, asS, hc]

theorem performDb_absent {key : ShardId} {op : DbOp} :
    (performDb key op none).map (Option.map itemToLease) = outcome (op.apply key none) := by
  cases op with
  | createShardLease parents cp =>
    simp [performDb, DbOp.request, perform, Condition.holds, Item.empty, DbOp.apply, outcome, Except.map,
      itemToLease_shardLease]
  | put owner =>
    simp [performDb, DbOp.request, createLease, perform, Condition.holds, Item.empty, DbOp.apply, outcome, Except.map,
      itemToLease_create]
  | heartbeat worker =>
    have hadd : Clause.result [(":w", .s worker), (":one", .n 1)] (Item.of [(LEASE_KEY, .s key)])
        (.add LEASE_COUNTER ":one") = some (some (.n 1)) := rfl
    have e : performDb key (.heartbeat worker) none = _ :=
      perform_update (P := True) (by decide) (by decide)
        (update_cons (v := some (.s worker)) rfl (update_cons hadd (update_nil _ _))) (by simp)
    have h1 : asU64 (.n 1) = some 1 := by decide
    rw [e]
    simp [DbOp.apply, outcome, Except.map, Clause.name, asS, h1]
    simp [itemToLease, Item.of, List.lookup_cons, asS, LEASE_KEY, LEASE_OWNER, LEASE_COUNTER, CHECKPOINT, COMPLETED, PARENTS]
  | _ => rfl

/-! ## What a write leaves behind -/

/-- Every attribute a request of the store names. -/
def leaseAttributes : List String := [LEASE_KEY, LEASE_OWNER, LEASE_COUNTER, CHECKPOINT, COMPLETED, PARENTS]

theorem request_names {key : ShardId} {op : DbOp} {clauses : List Clause} {condition : Option Condition} {vals : Values}
    (h : op.request key = .update clauses condition vals) : ∀ c ∈ clauses, c.name ∈ leaseAttributes := by
  cases op <;> simp only [DbOp.request, createLease, Write.update.injEq, reduceCtorEq] at h
  all_goals
    obtain ⟨rfl, -⟩ := h
    simp [bumpCounter, Clause.name, leaseAttributes]

theorem request_counter {key : ShardId} {op : DbOp} {clauses : List Clause} {condition : Option Condition} {vals : Values}
    (h : op.request key = .update clauses condition vals) :
    (∀ c ∈ clauses, c.name ≠ LEASE_COUNTER) ∨
      vals.lookup ":one" = some (.n 1) ∧ (bumpCounter ∈ clauses ∨ .add LEASE_COUNTER ":one" ∈ clauses) := by
  cases op <;> simp only [DbOp.request, createLease, Write.update.injEq, reduceCtorEq] at h
  case markComplete o c =>
    obtain ⟨rfl, -⟩ := h
    exact Or.inl (by decide)
  all_goals
    obtain ⟨rfl, -, rfl⟩ := h
    exact Or.inr (by simp [List.lookup_cons])

theorem createLease_readable (key : ShardId) (owner : Worker) :
    Readable key (Item.of [(LEASE_KEY, .s key), (LEASE_OWNER, .s owner), (LEASE_COUNTER, .n 1)]) :=
  ⟨rfl, 1, by decide, rfl⟩

theorem shardLeaseItem_readable (key : ShardId) (parents : List ShardId) (cp : Option SequenceNumber) :
    Readable key (shardLeaseItem key parents cp) := ⟨rfl, 0, by decide, rfl⟩

theorem request_put {key : ShardId} {op : DbOp} {item : Item} {condition : Condition}
    (h : op.request key = .put item condition) : Readable key item ∧ condition = .attributeNotExists LEASE_KEY := by
  cases op <;> simp only [DbOp.request, createLease, Write.put.injEq, reduceCtorEq] at h
  case put owner =>
    obtain ⟨rfl, rfl⟩ := h
    exact ⟨createLease_readable key owner, rfl⟩
  case createShardLease parents cp =>
    obtain ⟨rfl, rfl⟩ := h
    exact ⟨shardLeaseItem_readable key parents cp, rfl⟩

theorem performDb_key {key : ShardId} {op : DbOp} {row : Option Item} {after : Item}
    (hr : ∀ item, row = some item → item LEASE_KEY = some (.s key)) (h : performDb key op row = .ok (some after)) :
    after LEASE_KEY = some (.s key) :=
  perform_key (fun _ _ hp => (request_put hp).1.key_eq) hr h

theorem performDb_created {key : ShardId} {op : DbOp} {after : Item} (h : performDb key op none = .ok (some after)) :
    ∃ n : ℕ, after LEASE_COUNTER = some (.n n) ∧ n ≤ 1 := by
  cases op with
  | put owner =>
    cases h
    exact ⟨1, rfl, le_refl 1⟩
  | createShardLease parents cp =>
    cases h
    exact ⟨0, rfl, Nat.zero_le 1⟩
  | heartbeat worker =>
    cases h
    exact ⟨1, rfl, le_refl 1⟩
  | _ => cases h

theorem performDb_counter {key : ShardId} {op : DbOp} {item after : Item} (hr : Readable key item)
    (h : performDb key op (some item) = .ok (some after)) :
    ∃ n : ℕ, after LEASE_COUNTER = some (.n n) ∧ n ≤ (itemToLease item).leaseCounter + 1 := by
  unfold performDb at h
  cases hq : op.request key with
  | put i condition =>
    rw [hq, (request_put hq).2] at h
    simp [perform, Condition.holds, hr.key_eq] at h
  | delete condition vals =>
    rw [hq] at h
    simp only [perform] at h
    split at h <;> cases h
  | update clauses condition vals =>
    rw [hq] at h
    obtain ⟨-, hnd, after', he, hu⟩ := perform_update_ok h
    cases he
    rcases request_counter hq with hno | ⟨h1, hb | ha⟩
    · exact ⟨_, (update_frame hu hno).trans hr.lease.2.2, Nat.le_succ _⟩
    · have hv := update_result hu hnd hb
      rw [Option.getD_some, bumpCounter_result hr vals h1] at hv
      exact ⟨_, (Option.some.inj hv).symm, le_refl _⟩
    · have hv := update_result hu hnd ha
      simp only [Option.getD_some, Clause.result, hr.lease.2.2, h1, Option.some.injEq] at hv
      exact ⟨_, by rw [← Clause.name.eq_3 LEASE_COUNTER ":one", ← hv]; simp, le_refl _⟩

theorem performDb_readable {key : ShardId} {op : DbOp} {row : Option Item} {after : Item} {n : ℕ}
    (hr : ∀ item, row = some item → Readable key item ∧ (itemToLease item).leaseCounter ≤ n) (hn : n + 1 < U64)
    (h : performDb key op row = .ok (some after)) : Readable key after ∧ (itemToLease after).leaseCounter ≤ n + 1 := by
  have hk := performDb_key (fun item hi => (hr item hi).1.key_eq) h
  obtain ⟨c, hc, hle⟩ : ∃ c : ℕ, after LEASE_COUNTER = some (.n c) ∧ c ≤ n + 1 := by
    cases row with
    | none =>
      obtain ⟨c, hc, hle⟩ := performDb_created h
      exact ⟨c, hc, by omega⟩
    | some item =>
      obtain ⟨c, hc, hle⟩ := performDb_counter (hr item rfl).1 h
      have := (hr item rfl).2
      exact ⟨c, hc, by omega⟩
  have hlt : c < U64 := by omega
  refine ⟨⟨hk, c, hlt, hc⟩, ?_⟩
  simpa [itemToLease, hc, asU64_natCast, hlt] using hle

theorem performDb_deletes {key : ShardId} {op : DbOp} {row : Option Item} (h : performDb key op row = .ok none) :
    op = .deleteLease := by
  unfold performDb at h
  cases hq : op.request key with
  | put i condition =>
    rw [hq] at h
    simp only [perform] at h
    split at h <;> cases h
  | update clauses condition vals =>
    rw [hq] at h
    obtain ⟨-, -, after, he, -⟩ := perform_update_ok h
    cases he
  | delete condition vals => cases op <;> cases hq; rfl

theorem performDb_frame {key : ShardId} {op : DbOp} {item after : Item} {name : String}
    (hk : item LEASE_KEY = some (.s key)) (hn : name ∉ leaseAttributes)
    (h : performDb key op (some item) = .ok (some after)) : after name = item name := by
  unfold performDb at h
  cases hq : op.request key with
  | put i condition =>
    rw [hq, (request_put hq).2] at h
    simp [perform, Condition.holds, hk] at h
  | delete condition vals =>
    rw [hq] at h
    simp only [perform] at h
    split at h <;> cases h
  | update clauses condition vals =>
    rw [hq] at h
    obtain ⟨-, -, after', he, hu⟩ := perform_update_ok h
    cases he
    exact update_frame hu fun c hc e => hn (e ▸ request_names hq c hc)

/-! ## Rows without a readable counter -/

def DbOp.seenCounter : DbOp → Option ℕ
  | .claim _ c => some c
  | .renew _ c => some c
  | .checkpoint _ c _ => some c
  | .markComplete _ c => some c
  | .release _ c => some c
  | _ => none

theorem counterIs_fails {item : Item} (h : (item LEASE_COUNTER).bind asU64 = none) {vals : Values} {c : ℕ}
    (hc : vals.lookup ":c" = some (.n c)) (hlt : c < U64) : counterIs.holds vals item = false := by
  rw [counterIs, holds_eq_value hc]
  cases hi : item LEASE_COUNTER with
  | none => rfl
  | some v =>
    rw [hi, Option.bind_some] at h
    rw [Option.any_some, Bool.eq_false_iff, ne_eq, AttributeValue.same_n]
    rintro rfl
    simp [asU64_natCast, hlt] at h

theorem unreadable_row_refused {key : ShardId} {op : DbOp} {item : Item} (hk : (item LEASE_KEY).isSome)
    (hc : (item LEASE_COUNTER).bind asU64 = none) (hop : op ≠ .deleteLease ∧ ∀ w, op ≠ .heartbeat w)
    (hlt : ∀ c, op.seenCounter = some c → c < U64) : performDb key op (some item) = .error .conditionalCheckFailed := by
  have hkey : Option.isNone (item LEASE_KEY) = false := by simpa using hk
  have hfail : ∀ vals : Values, ∀ c < U64, vals.lookup ":c" = some (.n (c : ℕ)) →
      counterIs.holds vals item = false ∧ heldBy.holds vals item = false := by
    intro vals c hlt hv
    have := counterIs_fails hc hv hlt
    exact ⟨this, by rw [heldBy, Condition.holds, this, Bool.false_and]⟩
  cases op with
  | put owner => simp [performDb, DbOp.request, createLease, perform, Condition.holds, hkey]
  | createShardLease parents cp => simp [performDb, DbOp.request, perform, Condition.holds, hkey]
  | deleteLease => exact absurd rfl hop.1
  | heartbeat w => exact absurd rfl (hop.2 w)
  | claim owner c => exact perform_refused (by decide) (by decide) (hfail _ c (hlt c rfl) rfl).1
  | renew owner c => exact perform_refused (by decide) (by decide) (hfail _ c (hlt c rfl) rfl).2
  | checkpoint owner c seq => exact perform_refused (by decide) (by decide) (hfail _ c (hlt c rfl) rfl).2
  | markComplete owner c => exact perform_refused (by decide) (by decide) (hfail _ c (hlt c rfl) rfl).2
  | release owner c => exact perform_refused (by decide) (by decide) (hfail _ c (hlt c rfl) rfl).2

/-- The service and the table of `DbOp.apply` agree on a row exactly when its counter can be read. -/
theorem agrees_iff_readable {key : ShardId} {item : Item} (hk : item LEASE_KEY = some (.s key))
    (hn : (itemToLease item).leaseCounter + 1 < U64) :
    (∀ op : DbOp, (∀ c, op.seenCounter = some c → c < U64) →
      (performDb key op (some item)).map (Option.map itemToLease) = outcome (op.apply key (some (itemToLease item)))) ↔
      ((item LEASE_COUNTER).bind asU64).isSome := by
  constructor
  · intro h
    by_contra hno
    have hc : (item LEASE_COUNTER).bind asU64 = none := by simpa using hno
    have h0 := h (.claim "" 0) fun c hc => by cases hc; decide
    rw [unreadable_row_refused (by simp [hk]) hc ⟨by simp, by simp⟩ fun c hc => by cases hc; decide] at h0
    simp [DbOp.apply, itemToLease, hc, outcome, Except.map] at h0
  · intro h op _
    obtain ⟨n, hn'⟩ := Option.isSome_iff_exists.mp h
    obtain ⟨v, hv, hu⟩ := Option.bind_eq_some_iff.mp hn'
    obtain ⟨hlt, rfl⟩ := asU64_eq_some hu
    exact performDb_present ⟨hk, n, hlt, hv⟩ hn

/-- A row whose counter is a text. -/
theorem agrees_iff_readable_text :
    ¬ ∀ op : DbOp, (∀ c, op.seenCounter = some c → c < U64) →
      (performDb "shard-0" op (some (Item.of [(LEASE_KEY, .s "shard-0"), (LEASE_COUNTER, .s "7")]))).map
          (Option.map itemToLease) =
        outcome (op.apply "shard-0" (some (itemToLease (Item.of [(LEASE_KEY, .s "shard-0"), (LEASE_COUNTER, .s "7")])))) :=
  fun h => absurd ((agrees_iff_readable rfl (by decide)).mp h) (by decide)

/-! ## Whole tables -/

def serveItems (items : ShardId → Option Item) (x : ShardId × DbOp) : ShardId → Option Item :=
  match performDb x.1 x.2 (items x.1) with
  | .ok row => Function.update items x.1 row
  | .error _ => items

def serveRows (rows : ShardId → Option Lease) (x : ShardId × DbOp) : ShardId → Option Lease :=
  match x.2.apply x.1 (rows x.1) with
  | some row => Function.update rows x.1 row
  | none => rows

/-- The items and what is read of them, with counters up to `n`. -/
structure ReadAs (n : ℕ) (items : ShardId → Option Item) (rows : ShardId → Option Lease) : Prop where
  reads : ∀ key, (items key).map itemToLease = rows key
  readable : ∀ key item, items key = some item → Readable key item ∧ (itemToLease item).leaseCounter ≤ n

theorem ReadAs.decides {n : ℕ} {items : ShardId → Option Item} {rows : ShardId → Option Lease} (h : ReadAs n items rows)
    (hn : n + 1 < U64) (key : ShardId) (op : DbOp) :
    (performDb key op (items key)).map (Option.map itemToLease) = outcome (op.apply key (rows key)) := by
  rw [← h.reads key]
  cases hi : items key with
  | none => exact performDb_absent
  | some item =>
    obtain ⟨hr, hle⟩ := h.readable key item hi
    exact performDb_present hr (by omega)

theorem ReadAs.serve {n : ℕ} {items : ShardId → Option Item} {rows : ShardId → Option Lease} (h : ReadAs n items rows)
    (hn : n + 1 < U64) (x : ShardId × DbOp) : ReadAs (n + 1) (serveItems items x) (serveRows rows x) := by
  obtain ⟨key, op⟩ := x
  have hd := h.decides hn key op
  cases ha : op.apply key (rows key) with
  | none =>
    rw [ha] at hd
    cases hp : performDb key op (items key) with
    | error e =>
      simp only [serveItems, serveRows, hp, ha]
      exact ⟨h.reads, fun k item hi => ⟨(h.readable k item hi).1, (h.readable k item hi).2.trans (Nat.le_succ n)⟩⟩
    | ok row => rw [hp] at hd; cases hd
  | some row' =>
    rw [ha] at hd
    cases hp : performDb key op (items key) with
    | error e => rw [hp] at hd; cases hd
    | ok row =>
      rw [hp] at hd
      have he : row.map itemToLease = row' := Except.ok.inj hd
      simp only [serveItems, serveRows, hp, ha]
      refine ⟨fun k => ?_, fun k item hi => ?_⟩
      · by_cases hk : k = key
        · subst hk; simp [he]
        · simp [hk, h.reads k]
      · by_cases hk : k = key
        · subst hk
          rw [Function.update_self] at hi
          subst hi
          exact performDb_readable (fun i hi => h.readable k i hi) hn hp
        · rw [Function.update_of_ne hk] at hi
          exact ⟨(h.readable k item hi).1, (h.readable k item hi).2.trans (Nat.le_succ n)⟩

theorem serve_run (xs : List (ShardId × DbOp)) (hn : xs.length < U64) :
    ReadAs xs.length (xs.foldl serveItems fun _ => none) (xs.foldl serveRows fun _ => none) := by
  induction xs using List.reverseRecOn with
  | nil => exact ⟨fun _ => rfl, fun _ _ h => by cases h⟩
  | append_singleton xs x ih =>
    rw [List.length_append] at hn ⊢
    rw [List.foldl_append, List.foldl_append]
    exact (ih (by simp at hn; omega)).serve (by simpa using hn) x

/-- Whatever else a row carries, a tag or a TTL, stays while every delete of the row is refused. -/
theorem foreign_attribute_kept {key : ShardId} {name : String} (hn : name ∉ leaseAttributes) {xs : List (ShardId × DbOp)}
    {items : ShardId → Option Item} {item : Item} (hd : ∀ pre rest, xs = pre ++ (key, DbOp.deleteLease) :: rest →
      ∃ e, performDb key .deleteLease (pre.foldl serveItems items key) = .error e) (hi : items key = some item)
    (hk : item LEASE_KEY = some (.s key)) :
    ∃ after, xs.foldl serveItems items key = some after ∧ after name = item name := by
  induction xs generalizing items item with
  | nil => exact ⟨item, hi, rfl⟩
  | cons x xs ih =>
    rw [List.foldl_cons]
    have hrest : ∀ pre rest, xs = pre ++ (key, DbOp.deleteLease) :: rest →
        ∃ e, performDb key .deleteLease (pre.foldl serveItems (serveItems items x) key) = .error e :=
      fun pre rest h => hd (x :: pre) rest (by rw [h]; rfl)
    by_cases hx : x.1 = key
    · subst hx
      cases hp : performDb x.1 x.2 (items x.1) with
      | error e =>
        have he : serveItems items x x.1 = some item := by simp only [serveItems, hp]; exact hi
        exact ih hrest he hk
      | ok row =>
        have he : serveItems items x x.1 = row := by simp [serveItems, hp]
        rw [hi] at hp
        cases row with
        | none =>
          obtain ⟨e, he⟩ := hd [] xs (by rw [← performDb_deletes hp]; rfl)
          rw [← performDb_deletes hp, List.foldl_nil, hi, hp] at he
          cases he
        | some after =>
          obtain ⟨last, hl, hv⟩ := ih hrest he (performDb_key (fun i h => by cases h; exact hk) hp)
          exact ⟨last, hl, hv.trans (performDb_frame hk hn hp)⟩
    · have he : serveItems items x key = some item := by
        unfold serveItems
        cases performDb x.1 x.2 (items x.1) with
        | error e => exact hi
        | ok row => exact (Function.update_of_ne (Ne.symm hx) _ _).trans hi
      exact ih hrest he hk

theorem foreign_attribute_kept_ttl :
    ∃ after, [("shard-0", DbOp.claim "w" 0), ("shard-0", .deleteLease), ("shard-0", .checkpoint "w" 1 "7")].foldl
        serveItems (Function.update (fun _ => none) "shard-0"
          (some (Item.of [(LEASE_KEY, .s "shard-0"), (LEASE_COUNTER, .n 0), ("ttl", .n 86400)]))) "shard-0" = some after ∧
      after "ttl" = some (.n 86400) :=
  foreign_attribute_kept (by decide) (by
    intro pre rest h
    -- the only delete comes after the claim, while the shard is not completed
    match pre, h with
    | [_], h =>
      cases h
      exact ⟨_, rfl⟩
    | [_, _], h => cases h
    | [_, _, _], h => cases h) (Function.update_self _ _ _) rfl

theorem serve_frame {xs : List (ShardId × DbOp)} {key : ShardId} (h : key ∉ xs.map Prod.fst) :
    (xs.foldl serveItems fun _ => none) key = none := by
  induction xs using List.reverseRecOn with
  | nil => rfl
  | append_singleton xs x ih =>
    rw [List.map_append, List.mem_append, not_or] at h
    rw [List.foldl_append, List.foldl_cons, List.foldl_nil]
    cases hp : performDb x.1 x.2 ((xs.foldl serveItems fun _ => none) x.1) with
    | ok row =>
      simp only [serveItems, hp]
      rw [Function.update_of_ne (by simpa using h.2)]
      exact ih h.1
    | error e =>
      simp only [serveItems, hp]
      exact ih h.1

/-! ## The scan -/

/-- The loop of `list_all` over the responses it gets; nothing while the last one asks for more. -/
def listAllPages : List ScanPage → Option (List Lease)
  | [] => none
  | resp :: rest =>
    match resp.lastEvaluatedKey with
    | none => some (resp.items.map itemToLease)
    | some _ => (listAllPages rest).map (resp.items.map itemToLease ++ ·)

theorem listAllPages_scanned {place : String → ℕ} : ∀ {start : Option String} {ps : List ((String → Option Item) × ScanPage)},
    ScanPages LEASE_KEY place start ps → listAllPages (ps.map Prod.snd) = some ((scanned ps).map itemToLease)
  | start, (t, p) :: rest, ⟨hp, hr⟩ => by
    rw [List.map_cons, listAllPages]
    cases hl : p.lastEvaluatedKey with
    | none =>
      rw [hl] at hr
      simp [hr, scanned]
    | some k =>
      rw [hl] at hr
      simp [listAllPages_scanned hr, scanned]

theorem itemToLease_key {item : Item} {key : String} (h : item LEASE_KEY = some (.s key)) :
    (itemToLease item).leaseKey = key := by simp [itemToLease, h, asS]

theorem scanned_keys {place : String → ℕ} {start : Option String} {ps : List ((String → Option Item) × ScanPage)}
    (h : ScanPages LEASE_KEY place start ps) : (((scanned ps).map itemToLease).map Lease.leaseKey).Nodup := by
  rw [List.map_map]
  refine List.Nodup.map_on ?_ (List.Nodup.of_map _ h.nodup)
  intro i hi j hj he
  obtain ⟨-, -, ki, hki, -⟩ := h.sound i hi
  obtain ⟨-, -, kj, hkj, -⟩ := h.sound j hj
  simp only [Function.comp, itemToLease_key hki, itemToLease_key hkj] at he
  subst he
  exact List.inj_on_of_nodup_map h.nodup hi hj (hki.trans hkj.symm)

end StreamsConsumer
