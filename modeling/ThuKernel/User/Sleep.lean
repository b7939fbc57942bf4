-- The `sleep` of user programs (lib/syscall.c), which asks for the time until it
-- is late enough. `get_time` counts milliseconds, and from 0 again after 65536
-- seconds.
import ThuKernel.Lib.Prog
import Mathlib.Algebra.Group.Nat.Defs
import Mathlib.Order.Monotone.Defs
import Mathlib.Data.Nat.Find

namespace ThuKernel

/-- The time as a program sees it: the true microseconds at each of its calls,
and the number of calls so far. -/
structure Clock where
  now : Nat → Nat
  calls : Nat

structure TimeVal where
  sec : BitVec 64
  usec : BitVec 64

namespace Clock

/-- The system call. The kernel reports the true time. -/
def sys_get_time : Prog Clock (Int × TimeVal) := do
  let c ← get
  set { c with calls := c.calls + 1 }
  pure (0, ⟨BitVec.ofNat 64 (c.now c.calls / 1000000), BitVec.ofNat 64 (c.now c.calls % 1000000)⟩)

/-- The `int64` is here by its bits, as `sleep` takes it. -/
def get_time : Prog Clock (BitVec 64) := do
  let (err, time) ← sys_get_time
  if err = 0 then pure ((time.sec &&& 0xffff) * 1000 + time.usec / 1000)
  else pure (-1)

/-- The other processes do not change what the clock will show. -/
def sched_yield : Prog Clock Unit := pure ()

/-- `while (get_time() < wake) sched_yield();`, for at most `fuel` polls. -/
def sleepLoop (wake : BitVec 64) : (fuel : Nat) → Prog Clock Unit
  | 0 => Prog.fault "sleep: asleep"
  | fuel + 1 => do
    let t ← get_time
    if t < wake then do
      sched_yield
      sleepLoop wake fuel
    else pure ()

def sleep (fuel : Nat) (time : BitVec 64) : Prog Clock Int := do
  let s ← get_time
  sleepLoop (s + time) fuel
  pure 0

/-! ## How long `sleep` lasts -/

/-- The milliseconds after which `get_time` starts again. -/
def FOLD : Nat := 65536000

/-- The true milliseconds at a call. -/
def millis (now : Nat → Nat) (i : Nat) : Nat := now i / 1000

/-- The number of times that `get_time` started again between the start of
`sleep` and a poll. -/
def folds (now : Nat → Nat) (i : Nat) : Nat := millis now i / FOLD - millis now 0 / FOLD

/-- The poll is `time` milliseconds after the start, or later. -/
def Due (now : Nat → Nat) (time : BitVec 64) (i : Nat) : Prop :=
  millis now 0 + time.toNat ≤ millis now i

/-- Call 0 takes the start; the polls are the calls from 1 on. -/
structure FirstPoll (p : Nat → Prop) (n : Nat) : Prop where
  poll : 1 ≤ n
  holds : p n
  before : ∀ i, 1 ≤ i → i < n → ¬ p i

/-- `sleep` returns after poll `n`. -/
def LeavesAt (now : Nat → Nat) (time : BitVec 64) (n : Nat) : Prop :=
  ∃ fuel, Runs (fun _ => False) (sleep fuel time) ⟨now, 0⟩ fun r c => r = 0 ∧ c.calls = n + 1

/-- `sleep` leaves its loop at the first poll that is due. -/
def EndsWhenDue (now : Nat → Nat) (time : BitVec 64) : Prop :=
  ∀ n, LeavesAt now time n ↔ FirstPoll (Due now time) n

/-- The sum `s + time`. -/
def wake (now : Nat → Nat) (time : BitVec 64) : Nat := (millis now 0 % FOLD + time.toNat) % 2 ^ 64

/-- The first poll that is due is late by all the folds since the start. When
`s + time` overflows, that poll shows at least the sum, and no earlier one does. -/
structure InTime (now : Nat → Nat) (time : BitVec 64) : Prop where
  folded : millis now 0 % FOLD + time.toNat < 2 ^ 64 → ∀ n, FirstPoll (Due now time) n →
    millis now 0 + time.toNat + folds now n * FOLD ≤ millis now n
  wrapped : 2 ^ 64 ≤ millis now 0 % FOLD + time.toNat →
    (∀ n, FirstPoll (Due now time) n → wake now time ≤ millis now n % FOLD) ∧
    ∀ i, 1 ≤ i → ¬ Due now time i → millis now i % FOLD < wake now time

/-! ## The loop -/

variable {E : Stop → Prop} {c : Clock} {now : Nat → Nat} {time : BitVec 64} {n : Nat}
  {p q : Nat → Prop}

theorem folded_lt (t : Nat) : t % FOLD < FOLD := Nat.mod_lt _ (by decide)

theorem toNat_folded (t : Nat) : (BitVec.ofNat 64 (t % FOLD)).toNat = t % FOLD := by
  rw [BitVec.toNat_ofNat]
  exact Nat.mod_eq_of_lt ((folded_lt t).trans (by decide))

/-- The low 16 bits of the seconds, and the milliseconds of the rest. -/
theorem fold_parts (x : Nat) :
    x / 1000000 % 65536 * 1000 + x % 1000000 / 1000 = x / 1000 % FOLD := by
  have hsec : x / 1000000 = x / 1000 / 1000 := by omega
  have husec : x % 1000000 / 1000 = x / 1000 % 1000 := by omega
  have hparts : x / 1000 % (1000 * 65536) = x / 1000 % 1000 + 1000 * (x / 1000 / 1000 % 65536) :=
    Nat.mod_mul
  unfold FOLD
  omega

theorem runs_get_time {Q : BitVec 64 → Clock → Prop} : Runs E get_time c Q ↔
    Q (BitVec.ofNat 64 (millis c.now c.calls % FOLD)) { c with calls := c.calls + 1 } := by
  have hval : (BitVec.ofNat 64 (c.now c.calls / 1000000) &&& 0xffff) * 1000 +
      BitVec.ofNat 64 (c.now c.calls % 1000000) / 1000 =
      BitVec.ofNat 64 (millis c.now c.calls % FOLD) := by
    have hmask : c.now c.calls / 1000000 % 2 ^ 64 &&& 65535 % 2 ^ 64 =
        c.now c.calls / 1000000 % 65536 := by
      rw [← Nat.mod_mod_of_dvd (c.now c.calls / 1000000) (by decide : 65536 ∣ 2 ^ 64)]
      exact Nat.and_two_pow_sub_one_eq_mod _ 16
    have husec : c.now c.calls % 1000000 % 2 ^ 64 = c.now c.calls % 1000000 :=
      Nat.mod_eq_of_lt (by omega)
    have hsec : c.now c.calls / 1000000 % 65536 * 1000 % 2 ^ 64 =
        c.now c.calls / 1000000 % 65536 * 1000 :=
      Nat.mod_eq_of_lt (by omega)
    have hthousand : 1000 % 2 ^ 64 = 1000 := by decide
    apply BitVec.eq_of_toNat_eq
    simp only [BitVec.ofNat_eq_ofNat, BitVec.toNat_add, BitVec.toNat_mul, BitVec.toNat_and,
      BitVec.toNat_udiv, BitVec.toNat_ofNat, hmask, hthousand, husec, hsec]
    rw [fold_parts]
    rfl
  rw [← hval]
  rfl

/-- The loop ends at the first call that shows the time to wake up. -/
theorem sleepLoop_leaves_iff (w : BitVec 64) (fuel : Nat) :
    Runs (fun _ => False) (sleepLoop w fuel) c (fun _ c' => c'.calls = n + 1) ↔
      c.calls ≤ n ∧ n < c.calls + fuel ∧ w.toNat ≤ millis c.now n % FOLD ∧
        ∀ i, c.calls ≤ i → i < n → millis c.now i % FOLD < w.toNat := by
  induction fuel generalizing c with
  | zero =>
    unfold sleepLoop
    rw [Runs.fault_iff, false_iff]
    rintro ⟨hle, hlt, _⟩
    omega
  | succ fuel ih =>
    unfold sleepLoop
    rw [Runs.bind_iff, runs_get_time]
    by_cases hasleep : millis c.now c.calls % FOLD < w.toNat
    · -- One more turn: call `c.calls` is before `n`.
      rw [if_pos (by rw [BitVec.lt_def, toNat_folded]; exact hasleep)]
      unfold sched_yield
      rw [Runs.bind_iff, Runs.pure_iff, ih]
      dsimp only
      constructor
      · rintro ⟨hle, hlt, hwake, hbefore⟩
        refine ⟨by omega, by omega, hwake, fun i hi hin => ?_⟩
        rcases Nat.eq_or_lt_of_le hi with heq | hlater
        · rw [← heq]
          exact hasleep
        · exact hbefore i hlater hin
      · rintro ⟨hle, hlt, hwake, hbefore⟩
        have hne : c.calls ≠ n := by
          intro heq
          rw [heq] at hasleep
          omega
        exact ⟨by omega, by omega, hwake, fun i hi => hbefore i (by omega)⟩
    · rw [if_neg (by rw [BitVec.lt_def, toNat_folded]; exact hasleep), Runs.pure_iff]
      constructor
      · intro hcalls
        have heq : c.calls = n := by simpa using hcalls
        rw [← heq]
        exact ⟨Nat.le_refl _, by omega, by omega, fun i hi hin => by omega⟩
      · rintro ⟨hle, _, _, hbefore⟩
        have heq : c.calls = n := by
          by_contra hne
          exact hasleep (hbefore c.calls (Nat.le_refl _) (by omega))
        simp [heq]

/-- `sleep` leaves at the first poll that shows at least the sum. -/
theorem leavesAt_iff : LeavesAt now time n ↔
    FirstPoll (fun i => wake now time ≤ millis now i % FOLD) n := by
  have hwake : (BitVec.ofNat 64 (millis now 0 % FOLD) + time).toNat = wake now time := by
    rw [BitVec.toNat_add, toNat_folded]
    rfl
  have hrun : ∀ fuel, Runs (fun _ => False) (sleep fuel time) ⟨now, 0⟩ (fun r c => r = 0 ∧
      c.calls = n + 1) ↔
      1 ≤ n ∧ n < 1 + fuel ∧ wake now time ≤ millis now n % FOLD ∧
        ∀ i, 1 ≤ i → i < n → millis now i % FOLD < wake now time := by
    intro fuel
    unfold sleep
    rw [Runs.bind_iff, runs_get_time, Runs.bind_iff, ← hwake]
    simp only [Runs.pure_iff, true_and]
    exact sleepLoop_leaves_iff _ fuel
  constructor
  · rintro ⟨fuel, h⟩
    obtain ⟨hn, _, hp, hbefore⟩ := (hrun fuel).mp h
    exact ⟨hn, hp, fun i hi hin => not_le.mpr (hbefore i hi hin)⟩
  · rintro ⟨hn, hp, hbefore⟩
    exact ⟨n, (hrun n).mpr ⟨hn, by omega, hp, fun i hi hin => not_le.mp (hbefore i hi hin)⟩⟩

/-! ## First polls -/

/-- If a poll has a property, some poll up to it is the first one with it. -/
theorem FirstPoll.exists_le {i : Nat} (hi : 1 ≤ i) (hp : p i) : ∃ m ≤ i, FirstPoll p m := by
  classical
  have hex : ∃ m, 1 ≤ m ∧ p m := ⟨i, hi, hp⟩
  obtain ⟨hm, hpm⟩ := Nat.find_spec hex
  exact ⟨Nat.find hex, Nat.find_min' hex ⟨hi, hp⟩, hm, hpm,
    fun j hj hlt hpj => Nat.find_min hex hlt ⟨hj, hpj⟩⟩

/-- Two properties have the same first poll, whichever it is, just when the first
poll of the one has the other, and no poll has the other alone. The first one
stays, once it holds. -/
theorem FirstPoll.same_iff (hstays : ∀ i j, i ≤ j → p i → p j) :
    (∀ n, FirstPoll q n ↔ FirstPoll p n) ↔
    (∀ n, FirstPoll p n → q n) ∧ ∀ i, 1 ≤ i → ¬ p i → ¬ q i := by
  constructor
  · intro h
    refine ⟨fun n hn => ((h n).mpr hn).holds, fun i hi hpi hqi => ?_⟩
    obtain ⟨m, hm, hfirst⟩ := FirstPoll.exists_le hi hqi
    exact hpi (hstays m i hm ((h m).mp hfirst).holds)
  · rintro ⟨hfirst, hearly⟩ n
    constructor
    · intro hn
      have hpn : p n := by
        by_contra hc
        exact hearly n hn.poll hc hn.holds
      refine ⟨hn.poll, hpn, fun i hi hin hpi => ?_⟩
      obtain ⟨m, hm, hfm⟩ := FirstPoll.exists_le hi hpi
      exact hn.before m hfm.poll (by omega) (hfirst m hfm)
    · intro hn
      exact ⟨hn.poll, hfirst n hn, fun i hi hin => hearly i hi (hn.before i hi hin)⟩

/-! ## When the first poll that is due ends the sleep -/

/-- Without overflow, the clock shows the sum at the polls that are late by all
the folds. -/
theorem shows_iff (hmono : Monotone now) (hsum : millis now 0 % FOLD + time.toNat < 2 ^ 64)
    (i : Nat) :
    wake now time ≤ millis now i % FOLD ↔ millis now 0 + time.toNat + folds now i * FOLD ≤
    millis now i := by
  have hle : millis now 0 ≤ millis now i := Nat.div_le_div_right (hmono (Nat.zero_le i))
  have hdiv : millis now 0 / FOLD ≤ millis now i / FOLD := Nat.div_le_div_right hle
  have h₀ := Nat.div_add_mod (millis now 0) FOLD
  have h₁ := Nat.div_add_mod (millis now i) FOLD
  have hfolds : folds now i * FOLD = millis now i / FOLD * FOLD - millis now 0 / FOLD * FOLD :=
    Nat.sub_mul ..
  have hmul : millis now 0 / FOLD * FOLD ≤ millis now i / FOLD * FOLD := Nat.mul_le_mul_right _ hdiv
  unfold wake
  rw [Nat.mod_eq_of_lt hsum, hfolds]
  rw [Nat.mul_comm] at h₀ h₁
  omega

/-- `sleep` leaves its loop at the first poll that is due, just when that poll is
late by the folds of the clock since the start; when `s + time` overflows, just
when that poll shows the sum, and no earlier one does. -/
theorem sleep_ends_when_due_iff (hmono : Monotone now) :
    EndsWhenDue now time ↔ InTime now time := by
  have hstays : ∀ i j, i ≤ j → Due now time i → Due now time j := fun i j hij hdue =>
    hdue.trans (Nat.div_le_div_right (hmono hij))
  unfold EndsWhenDue
  simp only [leavesAt_iff]
  rw [FirstPoll.same_iff hstays]
  rcases Nat.lt_or_ge (millis now 0 % FOLD + time.toNat) (2 ^ 64) with hsum | hsum
  · constructor
    · rintro ⟨hfirst, _⟩
      exact ⟨fun _ n hn => (shows_iff hmono hsum n).mp (hfirst n hn),
        fun hc => absurd hsum (by omega)⟩
    · rintro ⟨hfolded, _⟩
      refine ⟨fun n hn => (shows_iff hmono hsum n).mpr (hfolded hsum n hn),
        fun i _ hdue hshows => ?_⟩
      -- A poll that shows the sum is due.
      have := (shows_iff hmono hsum i).mp hshows
      unfold Due at hdue
      omega
  · constructor
    · rintro ⟨hfirst, hearly⟩
      exact ⟨fun hc => absurd hsum (by omega),
        fun _ => ⟨hfirst, fun i hi hdue => not_le.mp (hearly i hi hdue)⟩⟩
    · rintro ⟨_, hwrapped⟩
      exact ⟨(hwrapped hsum).1, fun i hi hdue => not_le.mpr ((hwrapped hsum).2 i hi hdue)⟩

/-- Polls a millisecond after each other, from the start of the machine on. -/
theorem sleep_ends_when_due_after_the_start :
    EndsWhenDue (fun i => i * 1000) 5 ↔ InTime (fun i => i * 1000) 5 :=
  sleep_ends_when_due_iff fun _ _ hij => Nat.mul_le_mul_right 1000 hij

/-- Two seconds, from the last second before the clock starts again. -/
theorem sleep_misses_its_end : ¬ ∀ (now : Nat → Nat) (time : BitVec 64), Monotone now →
    EndsWhenDue now time := by
  intro hall
  have hends := hall (fun i => (65535 + i) * 1000000) 2000 fun i j hij =>
    Nat.mul_le_mul_right 1000000 (Nat.add_le_add_left hij 65535)
  -- Poll 2 is due and shows 1000 milliseconds.
  have hfirst : FirstPoll (Due (fun i => (65535 + i) * 1000000) 2000) 2 := by
    refine ⟨by decide, by unfold Due; decide, fun i hi hin => ?_⟩
    obtain rfl : i = 1 := by omega
    unfold Due
    decide
  have hleaves := leavesAt_iff.mp ((hends 2).mpr hfirst)
  exact absurd hleaves.holds (by decide)

end Clock

end ThuKernel
