-- The clock of the kernel: `get_time` reads the cycle counter once for the
-- seconds and once more for the microseconds, so a second may end in between.
import ThuKernel.Kernel.Results
import Mathlib.Data.Prod.Lex

namespace ThuKernel

/-- A call of `get_time`, with its two readings of the counter. `meanwhile` is
what the machine did since the call before. -/
structure TimeCall where
  meanwhile : Kernel → Kernel
  ts : Nat
  cycle₀ : Nat
  cycle₁ : Nat

/-- The pair of seconds and microseconds at an address. -/
def timeVal (mem : Bytes) (ts : Nat) : Nat × Nat := (mem.get64 ts, mem.get64 (ts + 8))

/-- Calls one after the other, and the pair that each of them leaves. -/
def times : List TimeCall → Prog Kernel (List (Nat × Nat))
  | [] => pure []
  | c :: calls => do
    modify c.meanwhile
    let _ ← get_time c.ts c.cycle₀ c.cycle₁
    let k ← get
    let rest ← times calls
    pure (timeVal k.mm.mem c.ts :: rest)

/-- The readings of all calls, in the order in which they are made. -/
def readings (calls : List TimeCall) : List Nat := calls.flatMap fun c => [c.cycle₀, c.cycle₁]

def second (cycle : Nat) : Nat := cycle / 12500000

/-- The microsecond within the second. -/
def microsecond (cycle : Nat) : Nat := cycle % 12500000 * 10 / 125

/-- The pairs of a clock that never runs backwards. -/
structure Forward (pairs : List (Nat × Nat)) : Prop where
  usec : ∀ p ∈ pairs, p.2 < 1000000
  order : pairs.Pairwise fun p q => toLex p ≤ toLex q

/-- A second ends between the readings of `b`, after a call in that second, and
the new second is no less far than the old one was at that call. -/
def Caught (a b : TimeCall) : Prop :=
  second a.cycle₀ = second b.cycle₀ → second b.cycle₀ < second b.cycle₁ →
    microsecond a.cycle₁ ≤ microsecond b.cycle₁

/-! ## One call -/

variable {E : Stop → Prop} {k : Kernel} {calls : List TimeCall}

theorem microsecond_lt (cycle : Nat) : microsecond cycle < 1000000 := by
  unfold microsecond
  omega

theorem microsecond_mono {a b : Nat} (hsec : second a = second b) (hab : a ≤ b) :
    microsecond a ≤ microsecond b := by
  unfold second at hsec
  unfold microsecond
  omega

theorem second_mono {a b : Nat} (hab : a ≤ b) : second a ≤ second b := Nat.div_le_div_right hab

/-- What `get_time` leaves at its address. -/
theorem get_time_leaves {ts cycle₀ cycle₁ : Nat} (hts : PGSIZE ≤ ts) (hcycle : cycle₀ < 2 ^ 64) :
    Runs E (get_time ts cycle₀ cycle₁) k fun _ k' => timeVal k'.mm.mem ts = (second cycle₀,
      microsecond cycle₁) := by
  have hsec : second cycle₀ < 2 ^ 64 := lt_of_le_of_lt (Nat.div_le_self ..) hcycle
  have husec : microsecond cycle₁ < 2 ^ 64 := (microsecond_lt cycle₁).trans (by decide)
  unfold get_time storeU64
  rw [if_neg (by omega), if_neg (by omega)]
  simp only [Runs.bind_iff, runs_onMm, Runs.modify_iff, Runs.pure_iff]
  unfold timeVal
  apply Prod.ext
  · dsimp only
    rw [Bytes.get64_put64_ne (by omega)]
    exact Bytes.get64_put64 hsec
  · exact Bytes.get64_put64 husec

/-- The pairs are those of the readings, whatever else the machine does. -/
theorem times_leave (hts : ∀ c ∈ calls, PGSIZE ≤ c.ts) (hcycle : ∀ c ∈ readings calls, c < 2 ^ 64) :
    Runs E (times calls) k fun pairs _ => pairs = calls.map fun c =>
    (second c.cycle₀, microsecond c.cycle₁) := by
  induction calls generalizing k with
  | nil => rfl
  | cons c calls ih =>
    have hc : c.cycle₀ < 2 ^ 64 := hcycle c.cycle₀ (by simp [readings])
    have hcalls : ∀ x ∈ readings calls, x < 2 ^ 64 := fun x hx => hcycle x (by
      simp only [readings, List.flatMap_cons, List.mem_append]
      exact Or.inr hx)
    unfold times
    rw [Runs.bind_iff, Runs.modify_iff]
    refine (get_time_leaves (hts c (List.mem_cons_self ..)) hc).bind fun _ k₁ hpair => ?_
    rw [Runs.bind_iff, Runs.get_iff]
    refine (ih (fun x hx => hts x (List.mem_cons_of_mem _ hx)) hcalls).bind fun rest _ hrest => ?_
    rw [Runs.pure_iff, hpair, hrest, List.map_cons]

/-! ## Two calls, and all of them -/

/-- The pair of the later call is no earlier just when the end of a second does
not get between its readings, or is caught up with. -/
theorem pair_le_iff {a b : TimeCall} (h₁ : a.cycle₀ ≤ a.cycle₁) (h₂ : a.cycle₁ ≤ b.cycle₀)
    (h₃ : b.cycle₀ ≤ b.cycle₁) :
    toLex (second a.cycle₀, microsecond a.cycle₁) ≤ toLex (second b.cycle₀, microsecond b.cycle₁) ↔
    Caught a b := by
  have hab : second a.cycle₀ ≤ second b.cycle₀ := second_mono (h₁.trans h₂)
  rw [Prod.Lex.toLex_le_toLex]
  dsimp only
  constructor
  · rintro (hlt | ⟨_, hle⟩) heq _
    · omega
    · exact hle
  · intro hcaught
    rcases Nat.lt_or_ge (second a.cycle₀) (second b.cycle₀) with hlt | hge
    · exact Or.inl hlt
    · have heq : second a.cycle₀ = second b.cycle₀ := by omega
      refine Or.inr ⟨heq, ?_⟩
      rcases Nat.lt_or_ge (second b.cycle₀) (second b.cycle₁) with hends | hsame
      · exact hcaught heq hends
      · -- All four readings are in one second.
        have hsec : second a.cycle₁ = second b.cycle₁ := by
          have := second_mono h₁
          have := second_mono h₂
          have := second_mono h₃
          omega
        exact microsecond_mono hsec (h₂.trans h₃)

/-- The pairs of neighbouring calls. -/
theorem pairs_chain_iff (hmono : (readings calls).Pairwise (· ≤ ·)) :
    (calls.map fun c => (second c.cycle₀, microsecond c.cycle₁)).IsChain
    (fun p q => toLex p ≤ toLex q) ↔
      calls.IsChain Caught := by
  induction calls with
  | nil => simp
  | cons a calls ih =>
    have hcons : readings (a :: calls) = a.cycle₀ :: a.cycle₁ :: readings calls := rfl
    rw [hcons, List.pairwise_cons, List.pairwise_cons] at hmono
    obtain ⟨h₀, h₁, hrest⟩ := hmono
    cases calls with
    | nil => simp
    | cons b calls =>
      have hb : b.cycle₀ ≤ b.cycle₁ := (List.pairwise_cons.mp hrest).1 b.cycle₁ (by simp)
      have hab := pair_le_iff (h₀ a.cycle₁ (by simp)) (h₁ b.cycle₀ (by simp [readings])) hb
      rw [List.map_cons, List.map_cons, List.isChain_cons_cons, List.isChain_cons_cons, hab,
        ← ih hrest, List.map_cons]

/-- The clock never runs backwards just when each end of a second that falls
between two readings is caught up with. -/
theorem forward_iff (hmono : (readings calls).Pairwise (· ≤ ·)) :
    Forward (calls.map fun c => (second c.cycle₀, microsecond c.cycle₁)) ↔
    calls.IsChain Caught := by
  rw [← pairs_chain_iff hmono, List.isChain_iff_pairwise]
  constructor
  · exact fun h => h.order
  · intro h
    refine ⟨fun p hp => ?_, h⟩
    obtain ⟨c, _, rfl⟩ := List.mem_map.mp hp
    exact microsecond_lt c.cycle₁

/-- Calls of `get_time` give a clock that never runs backwards, just when each
end of a second between the two readings of a call comes after no call of that
second, or is caught up with. -/
theorem time_never_runs_backwards (hts : ∀ c ∈ calls, PGSIZE ≤ c.ts)
    (hcycle : ∀ c ∈ readings calls, c < 2 ^ 64) (hmono : (readings calls).Pairwise (· ≤ ·)) :
    Runs (fun _ => False) (times calls) k (fun pairs _ => Forward pairs) ↔
    calls.IsChain Caught := by
  have hleave : Runs (fun _ => False) (times calls) k fun pairs _ =>
      pairs = calls.map fun c => (second c.cycle₀, microsecond c.cycle₁) := times_leave hts hcycle
  rw [← forward_iff hmono]
  constructor
  · intro h
    obtain ⟨pairs, _, hret, rfl, hf⟩ := (hleave.and h).exists_ok fun _ he => he.1
    exact hf
  · intro h
    exact hleave.imp fun pairs _ hpairs => hpairs ▸ h

/-- Two calls, half a second after each other. -/
def twoCalls : List TimeCall := [⟨id, PGSIZE, 0, 1⟩, ⟨id, PGSIZE, 6250000, 6250001⟩]

theorem time_never_runs_backwards_in_two_calls :
    Runs (fun _ => False) (times twoCalls) onePageKernel (fun pairs _ => Forward pairs) ↔
    twoCalls.IsChain Caught :=
  time_never_runs_backwards (by simp [twoCalls]) (by simp [twoCalls, readings])
    (by simp [twoCalls, readings])

/-- A call in the last cycle of the second 0, and one that reads that cycle again
and then the first one of the second 1. -/
def lateCalls : List TimeCall :=
  [⟨id, PGSIZE, 12499999, 12499999⟩, ⟨id, PGSIZE, 12499999, 12500000⟩]

theorem time_runs_backwards_at_the_end_of_a_second : ¬ ∀ (k : Kernel) (calls : List TimeCall),
    (∀ c ∈ calls, PGSIZE ≤ c.ts) → (∀ c ∈ readings calls, c < 2 ^ 64) → (readings calls).Pairwise
    (· ≤ ·) → Runs (fun _ => False) (times calls) k fun pairs _ => Forward pairs := by
  intro hall
  have hts : ∀ c ∈ lateCalls, PGSIZE ≤ c.ts := by simp [lateCalls]
  have hcycle : ∀ c ∈ readings lateCalls, c < 2 ^ 64 := by simp [lateCalls, readings]
  have hruns := hall onePageKernel lateCalls hts hcycle (by simp [lateCalls, readings])
  obtain ⟨pairs, _, _, rfl, hf⟩ :=
    ((times_leave (E := fun _ => False) hts hcycle).and hruns).exists_ok fun _ he => he.1
  -- The pairs are (0, 999999) and (0, 0).
  have hle := (List.pairwise_cons.mp hf.order).1 (0, 0) (by simp [second, microsecond])
  simp [Prod.Lex.toLex_le_toLex, second, microsecond] at hle

end ThuKernel
