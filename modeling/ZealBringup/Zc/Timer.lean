import Mathlib.Tactic.NormNum
import Mathlib.Tactic.Ring
import Mathlib.Tactic.SplitIfs

/-!
# Timers

The conversions between milliseconds, ticks of the counter and nanoseconds in `runtime.c`, and the
comparison of the counter with a deadline.

* `deadlineAfterMilliseconds`, `hostMonotonicNs`, `hostSleep`, `hostSleepUntil` — the functions up to
  the deadline; an intermediate that does not fit in its word is an outcome.
* `deadlineReached` — the comparison, on counters that wrap.
* `div_parts` — a quotient put together from the parts of its dividend, which is what each of the
  functions does.
* `timer_conversions` — they all compute the same floors, and fail when these are too large.
-/

namespace ZealBringup.Zc

/-! ## Words -/

/-- What ends a conversion: `zc_fail`, or a wrap in an intermediate. -/
inductive TimerFault where
  | zcFail (msg : String)
  | wrapped
  deriving DecidableEq

def int64Max : ℕ := 2 ^ 63 - 1

def uint64Max : ℕ := 2 ^ 64 - 1

/-- A number that fits in a word. -/
def fits (n : ℕ) : Except TimerFault ℕ := if n < 2 ^ 64 then .ok n else .error .wrapped

/-- A difference of words. -/
def subWord (a b : ℕ) : Except TimerFault ℕ := if b ≤ a then .ok (a - b) else .error .wrapped

/-- The sum of counters and ticks, which may wrap. -/
def wrapAdd (a b : ℕ) : ℕ := (a + b) % 2 ^ 64

/-- `(int64_t)n`. -/
def toSigned (n : ℕ) : ℤ := if n < 2 ^ 63 then n else (n : ℤ) - 2 ^ 64

/-- `if (bad) zc_fail(msg);` -/
def failIf (bad : Prop) [Decidable bad] (msg : String) : Except TimerFault Unit :=
  if bad then .error (.zcFail msg) else .ok ()

/-! ## The functions -/

/-- `deadline_after_milliseconds`, for what the counter reads at its end. -/
def deadlineAfterMilliseconds (frequency milliseconds counter : ℕ) : Except TimerFault ℕ := do
  failIf (frequency = 0) "generic timer frequency unavailable"
  let seconds := milliseconds / 1000
  let remainder := milliseconds % 1000
  failIf (seconds > int64Max / frequency) "timed wait duration too long"
  let ticks ← fits (seconds * frequency)
  let perMs := frequency / 1000
  let room ← subWord uint64Max ticks
  failIf (remainder ≠ 0 ∧ perMs > room / remainder) "timed wait duration too long"
  let whole ← fits (perMs * remainder)
  let part ← fits (frequency % 1000 * remainder)
  let fractional ← fits (whole + part / 1000)
  let room ← subWord int64Max ticks
  failIf (fractional > room) "timed wait duration too long"
  let ticks ← fits (ticks + fractional)
  return wrapAdd counter (if ticks = 0 then 1 else ticks)

/-- `host_monotonic_ns`, for what the counter reads. -/
def hostMonotonicNs (frequency ticks : ℕ) : Except TimerFault ℕ := do
  failIf (frequency = 0) "generic timer frequency unavailable"
  let seconds := ticks / frequency
  let remainder := ticks % frequency
  failIf (seconds > int64Max / 1000000000) "monotonic clock overflow"
  let whole ← fits (seconds * 1000000000)
  let part ← fits (remainder * 1000000000)
  let ns ← fits (whole + part / frequency)
  failIf (ns > int64Max) "monotonic clock overflow"
  return ns

/-- The ticks of `host_sleep` and of `host_sleep_until`, which differ in the text of the failure. -/
def sleepTicks (frequency milliseconds : ℕ) (msg : String) : Except TimerFault ℕ := do
  failIf (frequency = 0) "generic timer frequency unavailable"
  let seconds := milliseconds / 1000
  failIf (seconds > int64Max / frequency) msg
  let whole ← fits (seconds * frequency)
  let part ← fits (milliseconds % 1000 * frequency)
  let ticks ← fits (whole + part / 1000)
  failIf (ticks > int64Max) msg
  return ticks

/-- The deadline of `host_sleep`; it only yields when there is nothing to wait for. -/
def hostSleep (frequency : ℕ) (a0 : ℤ) (counter : ℕ) : Except TimerFault (Option ℕ) :=
  if a0 ≤ 0 then .ok none
  else do
    let ticks ← sleepTicks frequency a0.toNat "Sleep duration too long"
    return some (wrapAdd counter (if ticks = 0 then 1 else ticks))

/-- The deadline of `host_sleep_until`, for what the counter reads at its start and when the deadline
is made; it only yields when the time has come. -/
def hostSleepUntil (frequency : ℕ) (a0 : ℤ) (start counter : ℕ) :
    Except TimerFault (Option ℕ) := do
  let ns ← hostMonotonicNs frequency start
  let nowJiffies := ns / 1000000
  if a0 ≤ nowJiffies then return none
  else
    let ticks ← sleepTicks frequency (a0 - nowJiffies).toNat "SleepUntil deadline too far away"
    return some (wrapAdd counter ticks)

/-- The comparison of `wait_ready` and of the loops that wait. -/
def deadlineReached (now deadline : ℕ) : Bool :=
  decide (toSigned ((now + 2 ^ 64 - deadline) % 2 ^ 64) ≥ 0)

/-! ## Quotients by parts -/

theorem div_parts (a b c : ℕ) (hc : 0 < c) : a / c * b + a % c * b / c = a * b / c := by
  have hsplit : a * b = a % c * b + c * (a / c * b) := by
    calc a * b = (a % c + c * (a / c)) * b := by rw [Nat.mod_add_div]
      _ = a % c * b + c * (a / c * b) := by ring
  rw [hsplit, Nat.add_mul_div_left _ _ hc, Nat.add_comm]

variable {f m t c n : ℕ} {a : ℤ}

/-- A guard before the product is exactly as strict as one behind it. -/
theorem guard_iff (hf : 0 < f) (s : ℕ) : s > int64Max / f ↔ int64Max < s * f :=
  Nat.div_lt_iff_lt_mul hf

theorem fits_ok (h : n < 2 ^ 64) : fits n = .ok n := if_pos h

theorem subWord_ok {b : ℕ} (h : b ≤ n) : subWord n b = .ok (n - b) := if_pos h

theorem failIf_pos {bad : Prop} [Decidable bad] (h : bad) (msg : String) :
    failIf bad msg = .error (.zcFail msg) := if_pos h

theorem failIf_neg {bad : Prop} [Decidable bad] (h : ¬bad) (msg : String) :
    failIf bad msg = .ok () := if_neg h

theorem ok_bind {α β : Type} (v : α) (g : α → Except TimerFault β) : (Except.ok v >>= g) = g v := rfl

theorem error_bind {α β : Type} (e : TimerFault) (g : α → Except TimerFault β) :
    (Except.error e >>= g) = .error e := rfl

/-- A sum of two parts that is checked last. -/
theorem parts_checked {w p q : ℕ} (hn : w + p / q = n) (hw : w < 2 ^ 64) (hp : p < 2 ^ 64)
    (hsum : n < 2 ^ 64) (msg : String) :
    (fits w >>= fun whole => fits p >>= fun part => fits (whole + part / q) >>= fun n =>
        failIf (n > int64Max) msg >>= fun _ => pure n) =
      if n ≤ int64Max then .ok n else .error (.zcFail msg) := by
  rw [fits_ok hw, ok_bind, fits_ok hp, ok_bind, hn, fits_ok hsum, ok_bind]
  by_cases h : n ≤ int64Max
  · rw [failIf_neg (not_lt.mpr h), if_pos h]
    rfl
  · rw [failIf_pos (not_le.mp h), if_neg h]
    rfl

theorem rest_lt {r b : ℕ} (hf : f < 2 ^ 32) (hr : r < b) (hb : b ≤ 2 ^ 30) : r * f < 2 ^ 62 := by
  calc r * f ≤ 2 ^ 30 * f := Nat.mul_le_mul_right _ (by omega)
    _ < 2 ^ 30 * 2 ^ 32 := Nat.mul_lt_mul_of_pos_left hf (by decide)

/-! ## The conversions -/

/-- `floor(m * f / 1000)` ticks, or the failure. -/
theorem sleepTicks_eq (hf : 0 < f) (hf' : f < 2 ^ 32) (msg : String) :
    sleepTicks f m msg =
      if m * f / 1000 ≤ int64Max then .ok (m * f / 1000) else .error (.zcFail msg) := by
  have hparts := div_parts m f 1000 (by decide)
  have hrest := rest_lt hf' (Nat.mod_lt m (y := 1000) (by decide)) (by decide)
  rw [sleepTicks, failIf_neg hf.ne', ok_bind]
  dsimp only
  by_cases hguard : m / 1000 > int64Max / f
  · have hlarge := (guard_iff hf _).mp hguard
    rw [failIf_pos hguard, error_bind, if_neg (by omega)]
  · have hsmall : m / 1000 * f ≤ 2 ^ 63 - 1 := not_lt.mp (mt (guard_iff hf _).mpr hguard)
    rw [failIf_neg hguard, ok_bind, parts_checked hparts (by omega) (by omega) (by omega)]

/-- `floor(m * f / 1000)` ticks by way of the ticks of a millisecond, or the failure. -/
theorem deadlineAfterMilliseconds_eq (hf : 0 < f) (hf' : f < 2 ^ 32) :
    deadlineAfterMilliseconds f m c =
      if m * f / 1000 ≤ int64Max then .ok (wrapAdd c (max 1 (m * f / 1000)))
      else .error (.zcFail "timed wait duration too long") := by
  have hparts := div_parts m f 1000 (by decide)
  have hms := div_parts f (m % 1000) 1000 (by decide)
  have hrest := rest_lt hf' (Nat.mod_lt m (y := 1000) (by decide)) (by decide)
  have hpart : f % 1000 * (m % 1000) ≤ 1000 * 1000 :=
    Nat.mul_le_mul (Nat.mod_lt f (by decide)).le (Nat.mod_lt m (by decide)).le
  rw [Nat.mul_comm f (m % 1000)] at hms
  rw [deadlineAfterMilliseconds, failIf_neg hf.ne', ok_bind]
  dsimp only
  by_cases hguard : m / 1000 > int64Max / f
  · have hlarge := (guard_iff hf _).mp hguard
    rw [failIf_pos hguard, error_bind, if_neg (by omega)]
  · have hsmall : m / 1000 * f ≤ 2 ^ 63 - 1 := not_lt.mp (mt (guard_iff hf _).mpr hguard)
    have hroom : ¬(m % 1000 ≠ 0 ∧
        f / 1000 > (uint64Max - m / 1000 * f) / (m % 1000)) := by
      rintro ⟨hne, hgt⟩
      have hgt := (Nat.div_lt_iff_lt_mul (Nat.pos_of_ne_zero hne)).mp hgt
      simp only [uint64Max] at hgt
      omega
    rw [failIf_neg hguard, ok_bind, fits_ok (by omega), ok_bind,
      subWord_ok (by simp only [uint64Max]; omega), ok_bind, failIf_neg hroom, ok_bind,
      fits_ok (by omega), ok_bind, fits_ok (by omega), ok_bind, fits_ok (by omega), ok_bind, hms,
      subWord_ok (show m / 1000 * f ≤ int64Max from hsmall), ok_bind]
    have hmax : int64Max = 2 ^ 63 - 1 := rfl
    by_cases hfits : m * f / 1000 ≤ int64Max
    · have hle : ¬ m % 1000 * f / 1000 > int64Max - m / 1000 * f := by omega
      rw [failIf_neg hle, ok_bind, if_pos hfits, hparts, fits_ok, ok_bind]
      · refine congrArg (fun ticks => Except.ok (wrapAdd c ticks)) ?_
        split <;> omega
      · omega
    · have hgt : m % 1000 * f / 1000 > int64Max - m / 1000 * f := by omega
      rw [failIf_pos hgt, error_bind, if_neg hfits]

/-- `floor(t * 10 ^ 9 / f)` nanoseconds, or the failure. -/
theorem hostMonotonicNs_eq (hf : 0 < f) (hf' : f < 2 ^ 32) :
    hostMonotonicNs f t =
      if t * 1000000000 / f ≤ int64Max then .ok (t * 1000000000 / f)
      else .error (.zcFail "monotonic clock overflow") := by
  have hparts := div_parts t 1000000000 f hf
  have hrest : t % f * 1000000000 < 2 ^ 62 := by
    have := Nat.mod_lt t hf
    omega
  have hquot : t % f * 1000000000 / f ≤ t % f * 1000000000 := Nat.div_le_self ..
  rw [hostMonotonicNs, failIf_neg hf.ne', ok_bind]
  dsimp only
  have hnonneg := Nat.zero_le (t % f * 1000000000 / f)
  have hmax : int64Max / 1000000000 = 9223372036 := by norm_num [int64Max]
  by_cases hguard : t / f > int64Max / 1000000000
  · have hlarge : ¬ t * 1000000000 / f ≤ int64Max := by
      simp only [int64Max] at hguard ⊢
      omega
    rw [failIf_pos hguard, error_bind, if_neg hlarge]
  · have hsmall : t / f ≤ 9223372036 := by omega
    have hwhole : t / f * 1000000000 < 2 ^ 64 :=
      (Nat.mul_le_mul_right _ hsmall).trans_lt (by norm_num)
    have hpart : t % f * 1000000000 < 2 ^ 64 := hrest.trans (by norm_num)
    have hsum : t * 1000000000 / f < 2 ^ 64 := by omega
    rw [failIf_neg hguard, ok_bind, parts_checked hparts hwhole hpart hsum]

/-- The clock does not go back. -/
theorem hostMonotonicNs_mono {t' n' : ℕ} (hf : 0 < f) (hf' : f < 2 ^ 32) (ht : t ≤ t')
    (hn : hostMonotonicNs f t = .ok n) (hn' : hostMonotonicNs f t' = .ok n') : n ≤ n' := by
  rw [hostMonotonicNs_eq hf hf'] at hn hn'
  split_ifs at hn hn'
  cases hn
  cases hn'
  exact Nat.div_le_div_right (Nat.mul_le_mul_right _ ht)

theorem hostSleep_eq (hf : 0 < f) (hf' : f < 2 ^ 32) (hm : 0 < m) :
    hostSleep f m c =
      if m * f / 1000 ≤ int64Max then .ok (some (wrapAdd c (max 1 (m * f / 1000))))
      else .error (.zcFail "Sleep duration too long") := by
  rw [hostSleep, if_neg (by omega), Int.toNat_natCast, sleepTicks_eq hf hf']
  split_ifs
  · rw [ok_bind]
    refine congrArg (fun ticks => Except.ok (some (wrapAdd c ticks))) ?_
    split <;> omega
  · rfl

theorem hostSleepUntil_eq (hf : 0 < f) (hf' : f < 2 ^ 32) {a0 : ℤ}
    (hns : hostMonotonicNs f t = .ok n) (hm : a0 = n / 1000000 + m) (hm₀ : 0 < m) :
    hostSleepUntil f a0 t c =
      if m * f / 1000 ≤ int64Max then .ok (some (wrapAdd c (m * f / 1000)))
      else .error (.zcFail "SleepUntil deadline too far away") := by
  have hdiff : (a0 - (n / 1000000 : ℕ)).toNat = m := by omega
  rw [hostSleepUntil, hns, ok_bind]
  simp only
  rw [if_neg (by omega), hdiff, sleepTicks_eq hf hf']
  split_ifs <;> rfl

/-- A deadline that is less than half the counter's range ahead. -/
theorem deadlineReached_iff {now deadline : ℕ} (h : deadline < now + 2 ^ 63) :
    deadlineReached (now % 2 ^ 64) (deadline % 2 ^ 64) ↔
      deadline ≤ now ∧ (now - deadline) / 2 ^ 63 % 2 = 0 := by
  rw [deadlineReached, decide_eq_true_eq, toSigned]
  split <;> omega

/-! ## Together -/

/-- The conversions at a frequency of the counter, and its comparison with deadlines. -/
structure TimerExact (f : ℕ) : Prop where
  deadlineAfter : ∀ m c, deadlineAfterMilliseconds f m c =
    if m * f / 1000 ≤ int64Max then .ok (wrapAdd c (max 1 (m * f / 1000)))
    else .error (.zcFail "timed wait duration too long")
  sleep : ∀ m c : ℕ, 0 < m → hostSleep f m c =
    if m * f / 1000 ≤ int64Max then .ok (some (wrapAdd c (max 1 (m * f / 1000))))
    else .error (.zcFail "Sleep duration too long")
  sleepUntil : ∀ t n m c : ℕ, ∀ a0 : ℤ, hostMonotonicNs f t = .ok n → a0 = n / 1000000 + m → 0 < m →
    hostSleepUntil f a0 t c =
      if m * f / 1000 ≤ int64Max then .ok (some (wrapAdd c (m * f / 1000)))
      else .error (.zcFail "SleepUntil deadline too far away")
  agree : ∀ m c d : ℕ, 0 < m →
    (hostSleep f m c = .ok (some d) ↔ deadlineAfterMilliseconds f m c = .ok d)
  agreeUntil : ∀ t n m c d : ℕ, ∀ a0 : ℤ, hostMonotonicNs f t = .ok n → a0 = n / 1000000 + m →
    0 < m * f / 1000 →
    (hostSleepUntil f a0 t c = .ok (some d) ↔ deadlineAfterMilliseconds f m c = .ok d)
  monotonicNs : ∀ t, hostMonotonicNs f t =
    if t * 1000000000 / f ≤ int64Max then .ok (t * 1000000000 / f)
    else .error (.zcFail "monotonic clock overflow")
  monotone : ∀ t t' n n', t ≤ t' → hostMonotonicNs f t = .ok n → hostMonotonicNs f t' = .ok n' →
    n ≤ n'
  reached : ∀ now deadline : ℕ, deadline < now + 2 ^ 63 →
    (deadlineReached (now % 2 ^ 64) (deadline % 2 ^ 64) ↔
      deadline ≤ now ∧ (now - deadline) / 2 ^ 63 % 2 = 0)

/-- **Timer conversions are exact**: every function computes the floor of one quotient, and fails
exactly when that is too large for a signed word. -/
theorem timer_exact (f : ℕ) (hf : 0 < f) (hf' : f < 2 ^ 32) : TimerExact f where
  deadlineAfter := fun _ _ => deadlineAfterMilliseconds_eq hf hf'
  sleep := fun _ _ hm => hostSleep_eq hf hf' hm
  sleepUntil := fun _ _ _ _ _ hns ha hm => hostSleepUntil_eq hf hf' hns ha hm
  agree := fun m c d hm => by
    rw [hostSleep_eq hf hf' hm, deadlineAfterMilliseconds_eq hf hf']
    split_ifs <;> simp
  agreeUntil := fun t n m c d a0 hns ha hticks => by
    have hm : 0 < m := by
      rcases Nat.eq_zero_or_pos m with rfl | hm
      · simp at hticks
      · exact hm
    rw [hostSleepUntil_eq hf hf' hns ha hm, deadlineAfterMilliseconds_eq hf hf',
      Nat.max_eq_right hticks]
    split_ifs <;> simp
  monotonicNs := fun _ => hostMonotonicNs_eq hf hf'
  monotone := fun _ _ _ _ => hostMonotonicNs_mono hf hf'
  reached := fun _ _ => deadlineReached_iff

theorem timer_exact_62500000 : TimerExact 62500000 ∧
    deadlineAfterMilliseconds 62500000 3 100 = .ok 187600 :=
  ⟨timer_exact 62500000 (by decide) (by decide),
    (timer_exact 62500000 (by decide) (by decide)).deadlineAfter 3 100⟩

/-- A deadline that was passed by half the counter's range counts as ahead again. -/
theorem long_passed_not_reached : ¬ ∀ now deadline : ℕ, deadline < now + 2 ^ 63 →
    (deadlineReached (now % 2 ^ 64) (deadline % 2 ^ 64) ↔ deadline ≤ now) := by
  intro h
  have hlate := (h (2 ^ 63 + 1) 1 (by norm_num)).mpr (by norm_num)
  exact absurd hlate (by decide)

end ZealBringup.Zc
