import StreamsConsumer.Conc.Trail
import StreamsConsumer.Source.Cursors

/-!
# Dead iterators

`get_records` tells an expired iterator and a throttled request from other
errors by the text of the error. The SDK's text names the kind of failure and
not its code, so neither is ever recognised: an iterator that the service has
refused stays in the cache, and a throttled request is not repeated.
-/

namespace StreamsConsumer
open Conc

/-- The texts of an `SdkError`: one for all errors of the service, whatever their code or without one, and one for each
way not to get an answer. -/
structure SdkDisplay (display : AwsError → String) : Prop where
  service : ∀ e, e.code.isSome = true → display e = "service error"
  other : ∀ e, e.code = none → display e ∈
    ["service error", "failed to construct request", "request has timed out", "dispatch failure", "response error"]

def DEAD_ITERATOR_CODES : List String := ["ExpiredIteratorException", "TrimmedDataAccessException"]

def AwsError.isDeadIterator (e : AwsError) : Bool := e.code.elim false DEAD_ITERATOR_CODES.contains

def AwsError.isThrottle (e : AwsError) : Bool := e.code.elim false THROTTLE_CODES.contains

abbrev Exchange := (r : Req) × Resp r

/-- A call of `get_records`: its requests with their answers, and the cached cursor of the shard before and after. -/
structure Poll where
  shard : ShardId
  after : Option SequenceNumber
  cached : Option Cursor
  log : List Exchange
  left : Option Cursor

/-- A source called for one shard after another, while the stream moves on. -/
inductive Polls (src : DdbStreamsSource) : Feed → List Poll → Feed → Prop where
  | nil (s : Feed) : Polls src s [] s
  | call {s t u : Feed} {shard : ShardId} {after : Option SequenceNumber} {r : Except BoxError RecordBatch}
      {log : List Exchange} {polls : List Poll}
      (h : Trail feedHandler Feed.Passes () (src.getRecords shard after) s log (.ret r) t) (hrest : Polls src t polls u) :
      Polls src s (⟨shard, after, s.mem.cursors shard, log, t.mem.cursors shard⟩ :: polls) u

def Presents (log : List Exchange) (it : ShardIterator) : Prop := ∃ limit answer, (⟨.getRecordsAt it limit, answer⟩ : Exchange) ∈ log

def isPageRequest : Req → Bool
  | .getRecordsAt _ _ => true
  | _ => false

def attempts (log : List Exchange) : Nat := log.countP fun e => isPageRequest e.1

namespace Poll

/-- The service refused the cached iterator of the shard; `later` is what the call asked then. -/
def Refuses (p : Poll) (it : ShardIterator) (later : List Exchange) : Prop :=
  (∃ c, p.cached = some c ∧ cursorContinues c.after p.after = true ∧ c.iterator = it) ∧
    ∃ earlier limit e, p.log = earlier ++ ⟨.getRecordsAt it limit, .error e⟩ :: later ∧ e.isDeadIterator = true

def Throttled (p : Poll) (it : ShardIterator) (earlier later : List Exchange) : Prop :=
  ∃ limit e, p.log = earlier ++ ⟨.getRecordsAt it limit, .error e⟩ :: later ∧ e.isThrottle = true

end Poll

/-- A refused iterator leaves the cache and is not presented again. -/
def DropsDead : List Poll → Prop
  | [] => True
  | p :: ps => (∀ it later, p.Refuses it later → (∀ c, p.left = some c → c.iterator ≠ it) ∧ ¬ Presents later it ∧
      ∀ q ∈ ps, q.shard = p.shard → ¬ Presents q.log it) ∧ DropsDead ps

/-- A throttled request is repeated, unless it was the fifth. -/
def RetriesThrottled (p : Poll) : Prop :=
  ∀ it earlier later, p.Throttled it earlier later → 5 ≤ attempts earlier + 1 ∨ Presents later it

/-- The service neither refuses a cached iterator nor throttles a request. -/
def Undisturbing (p : Poll) : Prop := (∀ it later, ¬ p.Refuses it later) ∧ ∀ it earlier later, ¬ p.Throttled it earlier later

/-! ## What the texts say -/

section
variable {src : DdbStreamsSource} {s t : Feed} {shard : ShardId} {after : Option SequenceNumber} {it : ShardIterator}
  {log : List Exchange}

theorem unmentioned : ∀ msg ∈ ["service error", "failed to construct request", "request has timed out", "dispatch failure",
    "response error"], ∀ name ∈ ["TrimmedDataAccessException", "ExpiredIteratorException", "ResourceNotFoundException",
      "ProvisionedThroughputExceededException", "ThrottlingException", "RequestLimitExceeded", "LimitExceededException"],
    ¬ name.toList <:+: msg.toList := by
  decide +kernel

theorem display_mem (hd : SdkDisplay src.display) (e : AwsError) : src.display e ∈ ["service error",
    "failed to construct request", "request has timed out", "dispatch failure", "response error"] := by
  cases hc : e.code with
  | some c => simp [hd.service e (by simp [hc])]
  | none => exact hd.other e hc

theorem mentions_sdk (hd : SdkDisplay src.display) {names : List String} (hn : ∀ name ∈ names, name ∈
    ["TrimmedDataAccessException", "ExpiredIteratorException", "ResourceNotFoundException",
      "ProvisionedThroughputExceededException", "ThrottlingException", "RequestLimitExceeded", "LimitExceededException"])
    (e : AwsError) : src.mentions names (.sdk e) = false := by
  unfold DdbStreamsSource.mentions
  rw [List.any_eq_false]
  intro name hname
  have := unmentioned _ (display_mem hd e) name (hn name hname)
  rw [Bool.not_eq_true, decide_eq_false_iff_not]
  exact this

theorem isRecoverable_sdk (hd : SdkDisplay src.display) (e : AwsError) : src.isRecoverable (.sdk e) = false :=
  mentions_sdk hd (by decide) e

theorem isThrottling_sdk (hd : SdkDisplay src.display) (e : AwsError) : src.isThrottling (.sdk e) = false :=
  mentions_sdk hd (by decide) e

theorem withThrottleRetry_send (hd : SdkDisplay src.display) (it : ShardIterator) :
    src.withThrottleRetry (sendGetRecords src.maxRecords it) = sendGetRecords src.maxRecords it := by
  unfold DdbStreamsSource.withThrottleRetry
  show Prog.call _ _ = Prog.call _ _
  congr 1
  funext a
  cases a with
  | ok page => rfl
  | error e =>
    simp only [Prog.bind, Except.mapError, isThrottling_sdk hd e]
    rfl

theorem readPage_eq (hd : SdkDisplay src.display) (shard : ShardId) (after : Option SequenceNumber) (it : ShardIterator) :
    src.readPage shard after it = (sendGetRecords src.maxRecords it).bind fun
      | .ok page => .ret (.inl page)
      | .error e => .ret (.inr (.error e)) := by
  unfold DdbStreamsSource.readPage
  rw [withThrottleRetry_send hd]
  show Prog.call _ _ = Prog.call _ _
  congr 1
  funext a
  cases a with
  | ok page => rfl
  | error e =>
    simp only [Prog.bind, Except.mapError, isRecoverable_sdk hd e]
    rfl

theorem passes_of_star (h : Relation.ReflTransGen Feed.Passes s t) : s.Passes t := by
  induction h with
  | refl => exact .refl _
  | tail _ h ih => exact ih.trans h

theorem trail_readPage (hd : SdkDisplay src.display) {x : Page ⊕ Except BoxError RecordBatch}
    (h : Trail feedHandler Feed.Passes () (src.readPage shard after it) s log (.ret x) t) :
    ∃ a, log = [⟨.getRecordsAt it src.maxRecords, a⟩] ∧ t.mem = s.mem ∧
      ∀ e, a = .error e → x = .inr (.error (.sdk e)) := by
  rw [readPage_eq hd] at h
  obtain ⟨s₁, c, a, s₂, l, h₁, he, rfl, hk⟩ := h.of_call
  have hmem : s₂.mem = s₁.mem := by
    rcases execPage_cases he with ⟨_, _, _, _, rfl, _⟩ | ⟨_, _, rfl⟩
    · rfl
    · rfl
  cases a with
  | ok page =>
    obtain ⟨rfl, _, ht⟩ := hk.of_ret
    exact ⟨_, rfl, (passes_of_star ht).mem.trans (hmem.trans (passes_of_star h₁).mem), nofun⟩
  | error e =>
    obtain ⟨rfl, hx, ht⟩ := hk.of_ret
    refine ⟨_, rfl, (passes_of_star ht).mem.trans (hmem.trans (passes_of_star h₁).mem), ?_⟩
    intro e' he'
    cases he'
    exact hx

theorem uses_obtainIterator (shard : ShardId) (after : Option SequenceNumber) :
    Uses (fun r => isPageRequest r = false) (src.obtainIterator shard after) := by
  have hderive : ∀ after, Uses (fun r => isPageRequest r = false) (deriveIterator shard after) :=
    fun after => ⟨rfl, fun _ => trivial⟩
  refine uses_bind (p := cachedIterator shard after) ⟨rfl, fun _ => trivial⟩ ?_
  intro cached
  cases cached with
  | some it => trivial
  | none =>
    refine uses_bind (hderive after) ?_
    intro r
    cases r with
    | ok it =>
      cases it with
      | some it => trivial
      | none => exact ⟨rfl, fun _ => trivial⟩
    | error e =>
      simp only
      split
      · refine uses_bind (hderive none) ?_
        intro r
        cases r with
        | ok it => cases it <;> trivial
        | error e => trivial
      · trivial

theorem trail_cachedIterator {x : Option ShardIterator}
    (h : Trail feedHandler Feed.Passes () (cachedIterator shard after) s log (.ret x) t) :
    t.mem = s.mem ∧ x = ((s.mem.cursors shard).filter fun c => cursorContinues c.after after).map Cursor.iterator := by
  obtain ⟨s₁, choice, a, s₂, l, h₁, he, rfl, hk⟩ := h.of_call
  obtain ⟨_, rfl, ht⟩ := hk.of_ret
  have hmem : s₁.mem = s.mem := (passes_of_star h₁).mem
  cases he
  rw [(passes_of_star ht).mem, ← hmem]
  exact ⟨rfl, rfl⟩

theorem trail_obtainIterator {x : ShardIterator ⊕ Except BoxError RecordBatch}
    (h : Trail feedHandler Feed.Passes () (src.obtainIterator shard after) s log (.ret x) t) {c : Cursor}
    (hc : s.mem.cursors shard = some c) (hcont : cursorContinues c.after after = true) :
    t.mem.cursors shard = some c := by
  obtain ⟨cached, u, l₁, l₂, rfl, hcached, hk⟩ := h.of_bind
  obtain ⟨hmem, rfl⟩ := trail_cachedIterator hcached
  rw [hc] at hk
  simp only [Option.filter_some, hcont, if_true, Option.map_some] at hk
  obtain ⟨_, _, ht⟩ := hk.of_ret
  rw [(passes_of_star ht).mem, hmem]
  exact hc

theorem attempts_cons {e : Exchange} (h : isPageRequest e.1 = true) (l : List Exchange) : attempts (e :: l) = attempts l + 1 := by
  unfold attempts
  rw [List.countP_cons, if_pos h]

theorem attempts_append (l₁ l₂ : List Exchange) : attempts (l₁ ++ l₂) = attempts l₁ + attempts l₂ := List.countP_append

theorem attempts_eq_zero (h : ∀ e ∈ log, isPageRequest e.1 = false) : attempts log = 0 := by
  unfold attempts
  rw [List.countP_eq_zero]
  intro e he
  simp [h e he]

theorem trail_getRecords (hd : SdkDisplay src.display) {r : Except BoxError RecordBatch}
    (h : Trail feedHandler Feed.Passes () (src.getRecords shard after) s log (.ret r) t) :
    attempts log ≤ 1 ∧ ∀ it limit e, (⟨.getRecordsAt it limit, .error e⟩ : Exchange) ∈ log →
      ∀ c, s.mem.cursors shard = some c → cursorContinues c.after after = true → t.mem.cursors shard = some c := by
  obtain ⟨x, u, l₁, l₂, rfl, hobtain, hk⟩ := h.of_bind
  have hnone₁ := hobtain.uses (uses_obtainIterator shard after)
  have hzero₁ : attempts l₁ = 0 := attempts_eq_zero hnone₁
  cases x with
  | inr r' =>
    obtain ⟨rfl, _, _⟩ := hk.of_ret
    refine ⟨by simp [hzero₁], ?_⟩
    intro it limit e he
    rw [List.append_nil] at he
    cases hnone₁ _ he
  | inl it =>
    obtain ⟨y, v, l₃, l₄, rfl, hread, hk'⟩ := hk.of_bind
    obtain ⟨a, rfl, hmem, herr⟩ := trail_readPage hd hread
    have hafter : ∀ e ∈ l₄, isPageRequest e.1 = false := by
      refine hk'.uses (P := fun r => isPageRequest r = false) ?_
      cases y with
      | inr r' => trivial
      | inl page =>
        obtain ⟨records, created, next⟩ := page
        refine ⟨rfl, fun _ => ?_⟩
        cases created with
        | none => trivial
        | some created => exact ⟨rfl, fun _ => trivial⟩
    refine ⟨?_, ?_⟩
    · rw [attempts_append, hzero₁, List.singleton_append, attempts_cons rfl, attempts_eq_zero hafter]
    · intro it' limit e he c hc hcont
      have ha : a = .error e := by
        rcases List.mem_append.mp he with he | he
        · cases hnone₁ _ he
        rcases List.mem_append.mp he with he | he
        · cases List.mem_singleton.mp he
          rfl
        · cases hafter _ he
      rw [herr e ha] at hk'
      obtain ⟨_, _, ht⟩ := hk'.of_ret
      rw [(passes_of_star ht).mem, hmem]
      exact trail_obtainIterator hobtain hc hcont

/-! ## Every sequence of calls -/

theorem undisturbing_of_heals (hd : SdkDisplay src.display) {polls : List Poll} (h : Polls src s polls t)
    (hdead : DropsDead polls) (hretry : ∀ p ∈ polls, RetriesThrottled p) : ∀ p ∈ polls, Undisturbing p := by
  induction h with
  | nil => simp
  | @call s t u shard after r log polls htrail _ ih =>
    obtain ⟨honce, hstays⟩ := trail_getRecords hd htrail
    intro p hp
    rcases List.mem_cons.mp hp with rfl | hp
    · refine ⟨?_, ?_⟩
      · intro it later href
        obtain ⟨⟨c, hc, hcont, rfl⟩, earlier, limit, e, hlog, _⟩ := id href
        have hleft := hstays c.iterator limit e (by rw [show log = _ from hlog]; simp) c hc hcont
        exact (hdead.1 c.iterator later href).1 c hleft rfl
      · intro it earlier later hthr
        obtain ⟨limit, e, hlog, _⟩ := id hthr
        have hlog : log = earlier ++ ⟨.getRecordsAt it limit, .error e⟩ :: later := hlog
        have hcount : attempts log = attempts earlier + (attempts later + 1) := by
          rw [hlog, attempts_append, attempts_cons rfl]
        rcases hretry _ hp it earlier later hthr with hfive | ⟨limit', answer, hmem⟩
        · omega
        · have hpos : 0 < attempts later := List.countP_pos_iff.mpr ⟨_, hmem, rfl⟩
          omega
    · exact ih hdead.2 (fun q hq => hretry q (List.mem_cons_of_mem _ hq)) p hp

theorem dropsDead_of_undisturbing {polls : List Poll} (h : ∀ p ∈ polls, Undisturbing p) : DropsDead polls := by
  induction polls with
  | nil => trivial
  | cons p polls ih =>
    refine ⟨?_, ih fun q hq => h q (List.mem_cons_of_mem _ hq)⟩
    intro it later href
    exact absurd href ((h p List.mem_cons_self).1 it later)

end

/-- Over every sequence of calls, refused iterators are dropped and throttled requests repeated exactly when the
service gives no occasion for either. -/
theorem heals_iff {src : DdbStreamsSource} (hd : SdkDisplay src.display) {s t : Feed} {polls : List Poll}
    (h : Polls src s polls t) :
    (DropsDead polls ∧ ∀ p ∈ polls, RetriesThrottled p) ↔ ∀ p ∈ polls, Undisturbing p := by
  constructor
  · rintro ⟨hdead, hretry⟩
    exact undisturbing_of_heals hd h hdead hretry
  · intro hquiet
    refine ⟨dropsDead_of_undisturbing hquiet, ?_⟩
    intro p hp it earlier later hthr
    exact absurd hthr ((hquiet p hp).2 it earlier later)

def sdkTexts (e : AwsError) : String := if e.code.isSome then "service error" else "dispatch failure"

theorem sdkTexts_display : SdkDisplay sdkTexts where
  service e he := if_pos he
  other e he := by simp [sdkTexts, he]

def sdkSource : DdbStreamsSource := ⟨sdkTexts, some 2⟩

def polled (after : Option SequenceNumber) (choices : List FeedChoice) (s : Feed) : List Exchange × Feed :=
  ((script feedHandler () (sdkSource.getRecords "a" after) choices s).map fun x => (x.1, x.2.2)).getD ([], s)

def pollOf (after : Option SequenceNumber) (choices : List FeedChoice) (s : Feed) : Poll :=
  ⟨"a", after, s.mem.cursors "a", (polled after choices s).1, (polled after choices s).2.mem.cursors "a"⟩

def firstPoll : List FeedChoice := [.ok, .ok, .page 2 false none, .ok]

def afterFirstPoll : Feed := (polled none firstPoll threeRecords).2

theorem firstPoll_polls : Polls sdkSource threeRecords [pollOf none firstPoll threeRecords] afterFirstPoll :=
  .call (Trail.of_script (l := firstPoll) (a := .ok ⟨[⟨"a", "1", []⟩, ⟨"a", "2", []⟩], false, none⟩) rfl) (.nil _)

def pageFailed : Exchange → Bool
  | ⟨.getRecordsAt _ _, .error _⟩ => true
  | _ => false

theorem heals_iff_first_page : DropsDead [pollOf none firstPoll threeRecords] := by
  refine ((heals_iff sdkTexts_display firstPoll_polls).mpr ?_).1
  intro p hp
  obtain rfl := List.mem_singleton.mp hp
  have hok : ∀ e ∈ (pollOf none firstPoll threeRecords).log, pageFailed e = false := by
    have hany : (pollOf none firstPoll threeRecords).log.any pageFailed = false := rfl
    simpa using List.any_eq_false.mp hany
  refine ⟨?_, ?_⟩
  · rintro it later ⟨_, earlier, limit, e, hlog, _⟩
    cases hok ⟨.getRecordsAt it limit, .error e⟩ (by rw [hlog]; simp)
  · rintro it earlier later ⟨limit, e, hlog, _⟩
    cases hok ⟨.getRecordsAt it limit, .error e⟩ (by rw [hlog]; simp)

def expiredPoll : List FeedChoice := [.ok, .fault ⟨some "ExpiredIteratorException"⟩]

def afterExpired : Feed := (polled (some "2") expiredPoll afterFirstPoll).2

/-- The next call presents the expired iterator again. -/
theorem expired_iterator_presented_again : ¬ ∀ (src : DdbStreamsSource) (s t : Feed) (polls : List Poll),
    SdkDisplay src.display → Polls src s polls t → DropsDead polls ∧ ∀ p ∈ polls, RetriesThrottled p := by
  intro h
  have hpolls : Polls sdkSource threeRecords [pollOf none firstPoll threeRecords,
      pollOf (some "2") expiredPoll afterFirstPoll, pollOf (some "2") expiredPoll afterExpired] _ :=
    .call (Trail.of_script (l := firstPoll) (a := .ok ⟨[⟨"a", "1", []⟩, ⟨"a", "2", []⟩], false, none⟩) rfl)
      (.call (Trail.of_script (l := expiredPoll) (a := .error (.sdk ⟨some "ExpiredIteratorException"⟩)) rfl)
        (.call (Trail.of_script (l := expiredPoll) (a := .error (.sdk ⟨some "ExpiredIteratorException"⟩)) rfl) (.nil _)))
  have hdead := (h sdkSource _ _ _ sdkTexts_display hpolls).1.2.1 ⟨"a", 2⟩ []
    ⟨⟨⟨some "2", ⟨"a", 2⟩⟩, rfl, rfl, rfl⟩, [_], some 2, ⟨some "ExpiredIteratorException"⟩, rfl, rfl⟩
  refine hdead.2.2 _ List.mem_cons_self rfl ⟨some 2, .error ⟨some "ExpiredIteratorException"⟩, ?_⟩
  exact List.mem_cons_of_mem _ List.mem_cons_self

end StreamsConsumer
