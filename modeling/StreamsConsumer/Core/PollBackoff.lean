import Mathlib.Data.List.Induction

/-!
# Polling backoff

`core/src/backoff.rs`: how long to sleep before the next `GetRecords`. After
records the floor, after the `n`-th empty poll in a row the base doubled `n - 1`
times, up to the cap. The first idle sleep is the base itself, even above the cap.
-/

namespace StreamsConsumer

def MILLIS_MAX : Nat := 18446744073709551615

def saturatingMul (a b : Nat) : Nat := min (a * b) MILLIS_MAX

/-- Milliseconds, each at most `u64::MAX`. -/
structure PollBackoff where
  minIntervalMs : Nat
  idleBaseMs : Nat
  maxMs : Nat
  currentIdleMs : Nat
  max_le : maxMs ≤ MILLIS_MAX

namespace PollBackoff

def new (minIntervalMs idleBaseMs maxMs : Nat) (h : maxMs ≤ MILLIS_MAX) : PollBackoff :=
  ⟨minIntervalMs, idleBaseMs, maxMs, idleBaseMs, h⟩

def ddbDefaults : PollBackoff := new 250 1000 5000 (by decide)

def nextSleepMs (b : PollBackoff) (gotRecords : Bool) : Nat × PollBackoff :=
  if gotRecords then (b.minIntervalMs, { b with currentIdleMs := b.idleBaseMs })
  else (b.currentIdleMs, { b with currentIdleMs := min (saturatingMul b.currentIdleMs 2) b.maxMs })

/-- The state after a history of polls. -/
def after (b : PollBackoff) (polls : List Bool) : PollBackoff := polls.foldl (fun b got => (b.nextSleepMs got).2) b

def idlePolls (polls : List Bool) : Nat := (polls.reverse.takeWhile fun got => !got).length

/-- The sleep after `n` empty polls in a row and one more. -/
def idleSleep (b : PollBackoff) (n : Nat) : Nat := if n = 0 then b.idleBaseMs else min (b.idleBaseMs <<< n) b.maxMs

variable {b : PollBackoff}

theorem idlePolls_snoc (polls : List Bool) (got : Bool) :
    idlePolls (polls ++ [got]) = if got then 0 else idlePolls polls + 1 := by
  cases got <;> simp [idlePolls]

theorem idleSleep_succ (b : PollBackoff) (n : Nat) : min (saturatingMul (b.idleSleep n) 2) b.maxMs = b.idleSleep (n + 1) := by
  have hmax := b.max_le
  have hdouble : b.idleBaseMs <<< (n + 1) = 2 * (b.idleBaseMs <<< n) := Nat.shiftLeft_succ _ _
  unfold idleSleep saturatingMul
  rw [if_neg (Nat.succ_ne_zero n), hdouble]
  split
  next h =>
    subst h
    rw [Nat.shiftLeft_zero]
    omega
  next => omega

theorem after_spec (b : PollBackoff) (hb : b.currentIdleMs = b.idleBaseMs) (polls : List Bool) :
    b.after polls = { b with currentIdleMs := b.idleSleep (idlePolls polls) } := by
  induction polls using List.reverseRecOn with
  | nil =>
    obtain ⟨minIntervalMs, idleBaseMs, maxMs, currentIdleMs, hmax⟩ := b
    obtain rfl : currentIdleMs = idleBaseMs := hb
    rfl
  | append_singleton polls got ih =>
    have hstep : b.after (polls ++ [got]) = ((b.after polls).nextSleepMs got).2 := by simp [after]
    rw [hstep, ih, idlePolls_snoc]
    cases got with
    | true => rfl
    | false =>
      have hnext := b.idleSleep_succ (idlePolls polls)
      simp only [nextSleepMs, Bool.false_eq_true, if_false, hnext]

/-- After any history of polls, records are followed by the floor, and an empty poll by the base doubled for each empty poll
before it since the last records, up to the cap. -/
theorem next_sleep {minIntervalMs idleBaseMs maxMs : Nat} (h : maxMs ≤ MILLIS_MAX) (polls : List Bool) (got : Bool) :
    (((new minIntervalMs idleBaseMs maxMs h).after polls).nextSleepMs got).1 =
      if got then minIntervalMs
      else if idlePolls polls = 0 then idleBaseMs else min (idleBaseMs <<< idlePolls polls) maxMs := by
  rw [after_spec _ rfl]
  cases got <;> rfl

theorem next_sleep_capped :
    ((ddbDefaults.after [true, false, false, false]).nextSleepMs false).1 = if idlePolls [true, false, false, false] = 0
      then 1000 else min (1000 <<< idlePolls [true, false, false, false]) 5000 :=
  next_sleep (by decide) [true, false, false, false] false

end PollBackoff

end StreamsConsumer
