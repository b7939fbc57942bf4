-- What the copies do, in the terms of the page table: which user addresses it
-- maps, and which byte of a range is the first one that it does not.
import ThuKernel.Vm.CopyStr

namespace ThuKernel

/-! ## User addresses -/

/-- The entry for a user address. -/
def leafOf (mem : Bytes) (root a : Nat) : Nat := pteAt mem root (a % 2 ^ 64 / PGSIZE)

/-- The frame that the entry of a user address leads to. -/
def frameOf (mem : Bytes) (root a : Nat) : Nat := PTE2PA (leafOf mem root a)

/-- The page table maps the address, and for the user. -/
def UserMapped (mem : Bytes) (root a : Nat) : Prop :=
  a % 2 ^ 64 < MAXVA ∧ (leafOf mem root a).testBit 0 = true ∧ (leafOf mem root a).testBit 4 = true

/-- No user page is at the physical address 0, which stands for no page. -/
def NonzeroFrames (mem : Bytes) (root : Nat) : Prop :=
  ∀ a, UserMapped mem root a → frameOf mem root a ≠ 0

variable {E : Stop → Prop} {s t : Mm} {mem mem' : Bytes} {root va max k a b : Nat} {src : List Byte}

theorem userPage_mod (mem : Bytes) (root a : Nat) : userPage mem root (PGROUNDDOWN (a % 2 ^ 64)) =
    if MAXVA ≤ a % 2 ^ 64 then 0
    else if (leafOf mem root a).testBit 0 ∧ (leafOf mem root a).testBit 4 then frameOf mem root a
    else 0 := by
  rw [userPage_PGROUNDDOWN, userPage_eq]
  rfl

theorem mapped_iff (hz : NonzeroFrames mem root) : Mapped mem root a ↔ UserMapped mem root a := by
  unfold Mapped
  rw [userPage_mod]
  constructor
  · intro h
    split at h
    · exact absurd rfl h
    · split at h
      · rename_i hlt hbits
        exact ⟨by omega, hbits⟩
      · exact absurd rfl h
  · intro h
    rw [if_neg (by have := h.1; omega), if_pos h.2]
    exact hz a h

/-! ## Strings -/

/-- The scan of at most `max` bytes meets one that is not mapped before a NUL. -/
def MeetsHole (mem : Bytes) (root va max : Nat) : Prop :=
  ∃ u < max, ¬ UserMapped mem root (va + u) ∧
    ∀ v < u, UserMapped mem root (va + v) ∧ userByte mem root (va + v) ≠ 0

/-- The number of bytes before the first NUL is `k`, or `max` when there is none. -/
structure StrLen (mem : Bytes) (root va max k : Nat) : Prop where
  le : k ≤ max
  bytes : NoNul mem root va k
  nul : k < max → userByte mem root (va + k) = 0

/-- The result says `k`, which fits an `int`; the `k` bytes are written, and the
NUL if there is one, and no more. -/
structure StrResult (mem : Bytes) (root va max k : Nat) (r : Int × List Byte) : Prop where
  count : r.1 = k
  int : k < 2 ^ 31
  written : r.2.length = min (k + 1) max
  bytes : ∀ u < k, r.2[u]? = some (userByte mem root (va + u))
  nul : r.2[k]? = some 0 ↔ k < max

/-- The same bytes are mapped and have the same values, up to the NUL. -/
def AgreeTo (mem mem' : Bytes) (root va max k : Nat) : Prop :=
  ∀ u < min (k + 1) max, (UserMapped mem' root (va + u) ↔ UserMapped mem root (va + u)) ∧
    userByte mem' root (va + u) = userByte mem root (va + u)

theorem userBytes_getElem? (mem : Bytes) (root va : Nat) {n u : Nat} (hu : u < n) :
    (userBytes mem root va n)[u]? = some (userByte mem root (va + u)) := by
  simp [userBytes, userByte, hu]

/-- How many bytes are written, when no hole is met. -/
theorem CopiedStr.strLen {r : Int × List Byte} (h : CopiedStr s root va max 0 r) (hr : r.1 ≠ -1) :
    ∃ k, StrLen s.mem root va max k ∧ r.1 = k ∧ r.2.length = min (k + 1) max := by
  rcases h.result with ⟨n, hn, hcount, hlen, hno, hzero⟩ | ⟨hcount, hlen, hno⟩ | ⟨hneg, _⟩
  · exact ⟨n, ⟨by omega, hno, fun _ => hzero⟩, by rw [hcount, Nat.zero_add], by omega⟩
  · exact ⟨max, ⟨Nat.le_refl _, hno, fun hc => absurd hc (by omega)⟩, by rw [hcount,
      Nat.zero_add], by omega⟩
  · exact absurd hneg hr

/-- `copyinstr` fails just when it meets a hole. -/
theorem CopiedStr.hole_iff {r : Int × List Byte} (hz : NonzeroFrames s.mem root)
    (h : CopiedStr s root va max 0 r) :
    r.1 = -1 ↔ MeetsHole s.mem root va max := by
  have hall : ∀ u < r.2.length, UserMapped s.mem root (va + u) :=
    fun u hu => (mapped_iff hz).mp (h.mapped u hu)
  constructor
  · intro hneg
    rcases h.result with ⟨n, _, hcount, _⟩ | ⟨hcount, _⟩ | ⟨_, hlen, hno, hhole⟩
    · omega
    · omega
    · exact ⟨r.2.length, hlen, fun hm => hhole ((mapped_iff hz).mpr hm),
        fun v hv => ⟨hall v hv, hno v hv⟩⟩
  · rintro ⟨u, hu, hhole, hbefore⟩
    have hlen : r.2.length ≤ u := by
      by_contra hc
      exact hhole (hall u (by omega))
    rcases h.result with ⟨n, _, _, hwritten, _, hzero⟩ | ⟨_, hwritten, _⟩ | ⟨hneg, _⟩
    · exact absurd hzero (hbefore n (by omega)).2
    · omega
    · exact hneg

/-- The length of a string is unique, and the same where the bytes are. -/
theorem StrLen.unique {j : Nat} (h : StrLen mem root va max k) (h' : StrLen mem' root va max j)
    (hsame : ∀ u < min (k + 1) max, userByte mem' root (va + u) = userByte mem root (va + u)) : j =
    k := by
  have hle := h.le
  have hle' := h'.le
  rcases Nat.lt_trichotomy j k with hlt | heq | hlt
  · have hzero := h'.nul (by omega)
    rw [hsame j (by omega)] at hzero
    exact absurd hzero (h.bytes j hlt)
  · exact heq
  · have hzero := h.nul (by omega)
    rw [← hsame k (by omega)] at hzero
    exact absurd hzero (h'.bytes k hlt)

/-- `copyinstr` fails just when a byte that is not mapped comes before the NUL
and within `max` bytes. Otherwise it gives the bytes up to the NUL, and nothing
that comes after these in the memory of the user matters. -/
theorem copyinstr_stops_at_the_nul (hz : NonzeroFrames s.mem root) (hmax : max < 2 ^ 31) :
    Runs (fun _ => False) (copyinstr root va max) s fun r s' => s' = s ∧
      (r.1 = -1 ↔ MeetsHole s.mem root va max) ∧
      (r.1 ≠ -1 → ∃ k, StrLen s.mem root va max k ∧ StrResult s.mem root va max k r ∧
        ∀ t : Mm, NonzeroFrames t.mem root → AgreeTo s.mem t.mem root va max k →
          Runs (fun _ => False) (copyinstr root va max) t fun r' _ => r' = r) := by
  apply (copyinstr_copies root va max).imp
  rintro r s' ⟨hs, h⟩
  refine ⟨hs, h.hole_iff hz, fun hr => ?_⟩
  obtain ⟨k, hk, hcount, hlen⟩ := h.strLen hr
  have hle := hk.le
  have hwritten : ∀ u < min (k + 1) max, r.2[u]? = some (userByte s.mem root (va + u)) := by
    intro u hu
    rw [h.bytes, hlen]
    exact userBytes_getElem? _ _ _ hu
  refine ⟨k, hk, ⟨hcount, by omega, hlen, fun u hu => hwritten u (by omega), ?_⟩,
    fun t hzt hagree => ?_⟩
  · constructor
    · intro hget
      have := (List.getElem?_eq_some_iff.mp hget).1
      omega
    · intro hlt
      rw [hwritten k (by omega), hk.nul hlt]
  · -- The copy in the other memory ends at the same byte.
    apply (copyinstr_copies root va max).imp
    rintro r' _ ⟨_, h'⟩
    have hr' : r'.1 ≠ -1 := by
      rw [Ne, h'.hole_iff hzt]
      rintro ⟨u, hu, hhole, hbefore⟩
      have huk : ¬ u < min (k + 1) max := fun hlt =>
        hr ((h.hole_iff hz).mpr ⟨u, hu, fun hm => hhole ((hagree u hlt).1.mpr hm), fun v hv => by
          rw [← (hagree v (by omega)).1, ← (hagree v (by omega)).2]
          exact hbefore v hv⟩)
      have hzero := hk.nul (by omega)
      rw [← (hagree k (by omega)).2] at hzero
      exact absurd hzero (hbefore k (by omega)).2
    obtain ⟨j, hj, hcount', hlen'⟩ := h'.strLen hr'
    have heq : j = k := hk.unique hj fun u hu => (hagree u hu).2
    rw [heq] at hcount' hlen'
    refine Prod.ext (hcount'.trans hcount.symm) (List.ext_getElem? fun u => ?_)
    by_cases hu : u < min (k + 1) max
    · rw [hwritten u hu, h'.bytes, hlen', userBytes_getElem? _ _ _ hu, (hagree u hu).2]
    · rw [List.getElem?_eq_none (by omega), List.getElem?_eq_none (by omega)]

/-! ## Ranges -/

/-- The first `m` of `len` indices have a property, and the one behind them has
it not, if it is one of them. -/
structure UpTo (p : Nat → Prop) (len m : Nat) : Prop where
  le : m ≤ len
  all : ∀ u < m, p u
  stop : m < len → ¬ p m

theorem UpTo.exists (p : Nat → Prop) (len : Nat) : ∃ m, UpTo p len m := by
  induction len with
  | zero => exact ⟨0, Nat.le_refl 0, fun u hu => absurd hu (Nat.not_lt_zero u),
    fun h => absurd h (Nat.lt_irrefl 0)⟩
  | succ len ih =>
    obtain ⟨m, hle, hall, hstop⟩ := ih
    rcases Nat.eq_or_lt_of_le hle with heq | hlt
    · by_cases hnext : p len
      · refine ⟨len + 1, Nat.le_refl _, fun u hu => ?_, fun h => absurd h (Nat.lt_irrefl _)⟩
        rcases Nat.eq_or_lt_of_le (Nat.le_of_lt_succ hu) with rfl | hlt
        · exact hnext
        · exact hall u (by omega)
      · exact ⟨m, by omega, hall, fun _ => by rw [heq]; exact hnext⟩
    · exact ⟨m, by omega, hall, fun _ => hstop hlt⟩

theorem UpTo.all_iff {p : Nat → Prop} {len m : Nat} (h : UpTo p len m) :
    (∀ u < len, p u) ↔ m = len := by
  constructor
  · intro hall
    by_contra hne
    have hle := h.le
    exact h.stop (by omega) (hall m (by omega))
  · intro heq
    rw [← heq]
    exact h.all

theorem UpTo.congr {p q : Nat → Prop} {len m : Nat} (h : UpTo p len m) (hpq : ∀ u, p u ↔ q u) :
    UpTo q len m :=
  ⟨h.le, fun u hu => (hpq u).mp (h.all u hu), fun hlt hc => h.stop hlt ((hpq m).mpr hc)⟩

theorem Mapped.lt_MAXVA (h : Mapped mem root a) : a % 2 ^ 64 < 2 ^ 38 := by
  have hlt : ¬ MAXVA ≤ PGROUNDDOWN (a % 2 ^ 64) := by
    intro hc
    unfold Mapped at h
    rw [userPage_eq, if_pos hc] at h
    exact h rfl
  rw [MAXVA_eq] at hlt
  unfold PGROUNDDOWN at hlt
  rw [PGSIZE_eq] at hlt
  omega

/-- A range that is mapped is not longer than the addresses of the user. -/
theorem mapped_range_le {m : Nat} (h : ∀ u < m, Mapped mem root (va + u)) : m ≤ 2 ^ 38 := by
  by_contra hc
  have hfirst := (h 0 (by omega)).lt_MAXVA
  rw [Nat.add_zero] at hfirst
  have htop := (h (2 ^ 38 - va % 2 ^ 64) (by omega)).lt_MAXVA
  omega

/-- The user pages have frames of their own, other than 0. -/
structure UserTable (mem : Bytes) (root : Nat) : Prop where
  page : IsPage root
  nonzero : NonzeroFrames mem root
  distinct : ∀ a b, UserMapped mem root a → UserMapped mem root b →
    frameOf mem root a = frameOf mem root b → a % 2 ^ 64 / PGSIZE = b % 2 ^ 64 / PGSIZE

/-- No user page is one of the tables. -/
def TablesApart (mem : Bytes) (root : Nat) : Prop :=
  ∀ a, UserMapped mem root a → ¬ TableOf mem root (frameOf mem root a)

theorem userPage_ne_zero (h : userPage mem root a ≠ 0) : a < MAXVA ∧ UserMapped mem root a ∧
    userPage mem root a = frameOf mem root a := by
  have hlt : a < MAXVA := by
    by_contra hc
    rw [userPage_eq, if_pos (by omega)] at h
    exact h rfl
  have hsmall : a % 2 ^ 64 = a := by
    rw [MAXVA_eq] at hlt
    exact Nat.mod_eq_of_lt (by omega)
  have hpage := userPage_mod mem root a
  rw [hsmall, userPage_PGROUNDDOWN, if_neg (by omega)] at hpage
  by_cases hbits : (leafOf mem root a).testBit 0 = true ∧ (leafOf mem root a).testBit 4 = true
  · rw [if_pos hbits] at hpage
    exact ⟨hlt, ⟨by rwa [hsmall], hbits⟩, hpage⟩
  · rw [if_neg hbits] at hpage
    exact absurd hpage h

theorem UserTable.separate (ht : UserTable mem root) (ha : TablesApart mem root) :
    Separate mem root := by
  refine ⟨ht.page, fun va hva => ?_, fun va va' hva heq => ?_⟩
  · obtain ⟨_, hm, hp⟩ := userPage_ne_zero hva
    rw [hp]
    exact ha va hm
  · obtain ⟨hlt, hm, hp⟩ := userPage_ne_zero hva
    obtain ⟨hlt', hm', hp'⟩ := userPage_ne_zero (heq ▸ hva)
    have := ht.distinct va va' hm hm' (by rw [← hp, heq, hp'])
    rw [MAXVA_eq] at hlt hlt'
    rwa [Nat.mod_eq_of_lt (by omega), Nat.mod_eq_of_lt (by omega)] at this

/-! ## Copies to the user -/

/-- A copy that meets a hole is the copy of the bytes before it, but fails. -/
theorem copyoutLoop_stops {m fuel fuel' : Nat} {Q : Int → Mm → Prop} (hs : Separate s.mem root)
    (hva : va < 2 ^ 64) (hfuel : src.length < fuel) (hfuel' : m < fuel') (hm : m < src.length)
    (hall : ∀ u < m, Mapped s.mem root (va + u)) (hhole : ¬ Mapped s.mem root (va + m))
    (h : Runs E (copyoutLoop root fuel' va (src.take m)) s fun _ s' => Q (-1) s') :
    Runs E (copyoutLoop root fuel va src) s Q := by
  induction fuel generalizing va src s m fuel' with
  | zero => omega
  | succ fuel ih =>
    have h1 := PGROUNDDOWN_le va
    have h2 := lt_PGROUNDDOWN_add va
    obtain ⟨fuel', rfl⟩ : ∃ n, fuel' = n + 1 := ⟨fuel' - 1, by omega⟩
    have hlen : (src.take m).length = m := by
      rw [List.length_take]
      omega
    unfold copyoutLoop at h ⊢
    rw [if_neg (by omega), Runs.bind_iff, runs_walkaddr]
    rw [hlen] at h
    by_cases hpa : userPage s.mem root (PGROUNDDOWN va) = 0
    · -- The hole is the first byte.
      have hm0 : m = 0 := by
        by_contra hc
        exact (mapped_page hva (by omega)).mp (hall 0 (by omega)) hpa
      rw [if_pos hm0] at h
      rw [if_pos hpa]
      exact h
    · -- The first page is mapped, so the hole is behind it.
      have hn : PGSIZE - (va - PGROUNDDOWN va) ≤ m := by
        by_contra hc
        exact hhole ((mapped_page hva (by omega)).mpr hpa)
      rw [if_neg (by omega), Runs.bind_iff, runs_walkaddr] at h
      dsimp only at h ⊢
      rw [if_neg hpa, Runs.bind_iff, Runs.modify_iff] at h ⊢
      rw [Nat.min_eq_left hn, List.take_take, Nat.min_eq_left hn, List.drop_take] at h
      rw [Nat.min_eq_left (by omega)]
      have hshort : (src.take (PGSIZE - (va - PGROUNDDOWN va))).length ≤
          PGSIZE - (va - PGROUNDDOWN va) :=
        List.length_take_le ..
      obtain ⟨hs₁, hpages⟩ := hs.write hpa (SameOn.store (o := va - PGROUNDDOWN va)
        (l := src.take (PGSIZE - (va - PGROUNDDOWN va)))
        (isPage_userPage s.mem root (PGROUNDDOWN va)).aligned (by omega))
      have hmapped : ∀ a,
          Mapped (s.mem.store (userPage s.mem root (PGROUNDDOWN va) + (va - PGROUNDDOWN va))
          (src.take (PGSIZE - (va - PGROUNDDOWN va)))) root a ↔ Mapped s.mem root a := by
        intro a
        unfold Mapped
        rw [hpages]
      have hnext : ∀ u, PGROUNDDOWN va + PGSIZE + u =
          va + (PGSIZE - (va - PGROUNDDOWN va) + u) := by
        intro u
        omega
      refine ih hs₁ (Nat.mod_lt _ (by omega)) (by rw [List.length_drop]; omega) (by omega)
        (by rw [List.length_drop]; omega) (fun u hu => ?_) (fun hc => hhole ?_) h
      · dsimp only
        rw [mapped_mod, hmapped, hnext]
        exact hall _ (by omega)
      · dsimp only at hc
        rwa [mapped_mod, hmapped, hnext, Nat.add_sub_cancel' hn] at hc

/-- `copyout` copies the bytes before the first one that is not mapped, and
fails just when there is one. -/
theorem copyout_upTo {m : Nat} (hs : Separate s.mem root)
    (hm : UpTo (fun u => Mapped s.mem root (va + u)) src.length m) :
    Runs E (copyout root va src) s (fun r s' => r = (if m = src.length then 0 else -1) ∧
      CopiedOut s root va (src.take m) 0 s') := by
  have hle := hm.le
  have hshort := mapped_range_le hm.all
  have hlen : (src.take m).length = m := by
    rw [List.length_take]
    omega
  have hfirst : Runs E (copyout root va (src.take m)) s
      (fun r s' => r = 0 ∧ CopiedOut s root va (src.take m) 0 s') := by
    apply (copyout_separate hs (by omega)).imp
    intro r s' h
    obtain rfl : r = 0 := h.iff.mpr (by rw [hlen]; exact hm.all)
    exact ⟨rfl, h⟩
  rcases Nat.eq_or_lt_of_le hle with heq | hlt
  · rw [heq, List.take_length] at hfirst ⊢
    rw [if_pos rfl]
    exact hfirst
  · rw [if_neg (by omega)]
    unfold copyout at hfirst ⊢
    refine copyoutLoop_stops hs (Nat.mod_lt _ (by decide)) (Nat.lt_succ_self _) (m := m)
      (by rw [hlen]; exact Nat.lt_succ_self m) hlt (fun u hu => ?_) (fun hc => hm.stop hlt ?_)
      (hfirst.imp fun r s' h => ⟨rfl, h.2⟩)
    · rw [mapped_mod]
      exact hm.all u hu
    · rwa [mapped_mod] at hc

/-- A copy of more bytes than the user has addresses fails, whatever the tables. -/
theorem copyout_fails (hlen : 2 ^ 38 < src.length) :
    Runs E (copyout root va src) s fun r _ => r = -1 := by
  have hloop : ∀ fuel va src (s : Mm), src.length < fuel → va < 2 ^ 64 →
      (va < 2 ^ 38 → 2 ^ 38 < va + src.length) →
      src.length ≠ 0 → Runs E (copyoutLoop root fuel va src) s fun r _ => r = -1 := by
    intro fuel
    induction fuel with
    | zero =>
      intro va src s h
      omega
    | succ fuel ih =>
      intro va src s h hva hpast hne
      have h1 := PGROUNDDOWN_le va
      have h2 := lt_PGROUNDDOWN_add va
      unfold copyoutLoop
      rw [if_neg hne, Runs.bind_iff, runs_walkaddr]
      split
      · rfl
      · rename_i hpa
        have hlt : PGROUNDDOWN va < 2 ^ 38 := by
          rw [userPage_eq, MAXVA_eq] at hpa
          by_contra hc
          rw [if_pos (by omega)] at hpa
          exact hpa rfl
        -- The page ends at the top of the addresses, or before it.
        have hend : PGROUNDDOWN va + PGSIZE ≤ 2 ^ 38 := by
          have hpage : PGROUNDDOWN va = va / 4096 * 4096 := rfl
          clear ih
          rw [PGSIZE_eq]
          omega
        dsimp only
        rw [Runs.bind_iff, Runs.modify_iff]
        have hdrop : (src.drop (min (PGSIZE - (va - PGROUNDDOWN va)) src.length)).length =
            src.length - (PGSIZE - (va - PGROUNDDOWN va)) := by
          rw [List.length_drop]
          omega
        rw [Nat.mod_eq_of_lt (by omega)]
        exact ih _ _ _ (by rw [hdrop]; omega) (by omega) (fun _ => by rw [hdrop]; omega)
          (by rw [hdrop]; omega)
  exact hloop _ _ _ s (Nat.lt_succ_self _) (Nat.mod_lt va (by decide : 0 < 2 ^ 64))
    (fun _ => by omega) (by omega)

/-- `copyin` gives the bytes before the first one that is not mapped. -/
theorem copyin_upTo {len m : Nat} (hm : UpTo (fun u => Mapped s.mem root (va + u)) len m) :
    Runs E (copyin root va len) s (fun r s' => s' = s ∧
      r = (if m = len then 0 else -1, userBytes s.mem root va m)) := by
  apply (copyin_runs root va len).imp
  rintro r s' ⟨hs, hbytes, hmapped, hresult⟩
  have hle := hm.le
  have hlen : r.2.length = m ∧ r.1 = if m = len then 0 else -1 := by
    rcases hresult with ⟨h0, hlen⟩ | ⟨h1, hlt, hhole⟩
    · have heq : m = len := hm.all_iff.mp (by rw [← hlen]; exact hmapped)
      rw [if_pos heq]
      exact ⟨by omega, h0⟩
    · have heq : r.2.length = m := by
        rcases Nat.lt_trichotomy r.2.length m with hc | heq | hc
        · exact absurd (hm.all _ hc) hhole
        · exact heq
        · exact absurd (hmapped m hc) (hm.stop (by omega))
      rw [if_neg (by omega)]
      exact ⟨heq, h1⟩
  exact ⟨hs, Prod.ext hlen.2 (by rw [hbytes, hlen.1])⟩

/-- What `copyout` does: the bytes before the first one that is not mapped are
at their user addresses, nothing else has changed, and 0 says that these are all. -/
structure CopyoutFine (s : Mm) (root va : Nat) (src : List Byte) (r : Int) (s' : Mm) : Prop where
  result : r = 0 ∨ r = -1
  zero_iff : r = 0 ↔ ∀ u < src.length, UserMapped s.mem root (va + u)
  bytes : ∃ m, UpTo (fun u => UserMapped s.mem root (va + u)) src.length m ∧
    (∀ u < m, some (userByte s'.mem root (va + u)) = src[u]?) ∧
    ∀ a, UserMapped s.mem root a → (∀ u < m, a % 2 ^ 64 ≠ (va + u) % 2 ^ 64) →
      userByte s'.mem root a = userByte s.mem root a
  leaf : ∀ a, a % 2 ^ 64 < MAXVA → leafOf s'.mem root a = leafOf s.mem root a

/-- What `copyin` does: 0 says that all bytes are mapped, and then it gives them. -/
structure CopyinFine (s : Mm) (root va len : Nat) (r : Int × List Byte) : Prop where
  result : r.1 = 0 ∨ r.1 = -1
  zero_iff : r.1 = 0 ↔ ∀ u < len, UserMapped s.mem root (va + u)
  bytes : r.1 = 0 → r.2 = userBytes s.mem root va len

/-- What leaves the tables alone leaves the entries alone. -/
theorem leafOf_frame {keep : Nat → Prop} (hroot : IsPage root) (hsame : SameOn PGSIZE keep mem mem')
    (hkeep : ∀ t, TableOf mem root t → keep t) (ha : a % 2 ^ 64 < MAXVA) : leafOf mem' root a =
    leafOf mem root a := by
  unfold leafOf
  refine pteAt_frame hroot hsame hkeep ?_
  rw [MAXVA_eq] at ha
  rw [PGSIZE_eq]
  omega

theorem userMapped_congr (h : ∀ a, a % 2 ^ 64 < MAXVA → leafOf mem' root a = leafOf mem root a)
    (a : Nat) :
    UserMapped mem' root a ↔ UserMapped mem root a := by
  unfold UserMapped
  constructor
  · rintro ⟨hlt, hbits⟩
    exact ⟨hlt, by rwa [← h a hlt]⟩
  · rintro ⟨hlt, hbits⟩
    exact ⟨hlt, by rwa [h a hlt]⟩

/-- The entries say what the user pages are. -/
theorem UserTable.congr (ht : UserTable mem root)
    (h : ∀ a, a % 2 ^ 64 < MAXVA → leafOf mem' root a = leafOf mem root a) :
    UserTable mem' root := by
  have hframe : ∀ a, UserMapped mem' root a → UserMapped mem root a ∧
      frameOf mem' root a = frameOf mem root a := by
    intro a ha
    refine ⟨(userMapped_congr h a).mp ha, ?_⟩
    unfold frameOf
    rw [h a ha.1]
  refine ⟨ht.page, fun a ha => ?_, fun a b ha hb heq => ?_⟩
  · rw [(hframe a ha).2]
    exact ht.nonzero a (hframe a ha).1
  · rw [(hframe a ha).2, (hframe b hb).2] at heq
    exact ht.distinct a b (hframe a ha).1 (hframe b hb).1 heq

/-- A copy changes no page but those of the user. -/
theorem CopiedOut.sameOn {r : Int} {s' : Mm} (h : CopiedOut s root va src r s') :
    SameOn PGSIZE (fun t => ∀ a, userPage s.mem root a ≠ 0 → t ≠ userPage s.mem root a)
    s.mem s'.mem := by
  intro x hx
  apply h.frame
  rintro u hu hm rfl
  refine hx _ hm (page_of_inside (isPage_userPage ..).aligned (Nat.mod_lt _ ?_))
  decide

theorem Separate.keeps_tables (hs : Separate mem root) :
    ∀ t, TableOf mem root t → ∀ a, userPage mem root a ≠ 0 → t ≠ userPage mem root a := by
  rintro t ht a ha rfl
  exact hs.tables a ha ht

theorem copyout_fine (ht : UserTable s.mem root) (ha : TablesApart s.mem root) :
    Runs E (copyout root va src) s (fun r s' => CopyoutFine s root va src r s') := by
  have hs := ht.separate ha
  obtain ⟨m, hm⟩ := UpTo.exists (fun u => Mapped s.mem root (va + u)) src.length
  have hum : UpTo (fun u => UserMapped s.mem root (va + u)) src.length m :=
    hm.congr fun u => mapped_iff ht.nonzero
  have hle := hm.le
  have hlen : (src.take m).length = m := by
    rw [List.length_take]
    omega
  apply (copyout_upTo hs hm).imp
  rintro r s' ⟨hr, h⟩
  have hbyte : ∀ a, userByte s'.mem root a = s'.mem (userAddr s.mem root a) := by
    intro a
    unfold userByte userAddr
    rw [h.pages]
  refine ⟨?_, ?_, ⟨m, hum, fun u hu => ?_, fun a hua hout => ?_⟩,
    fun a hlt => leafOf_frame hs.page h.sameOn hs.keeps_tables hlt⟩
  · rw [hr]
    split
    · exact Or.inl rfl
    · exact Or.inr rfl
  · rw [hum.all_iff, hr]
    split
    · exact iff_of_true rfl ‹_›
    · exact iff_of_false (by decide) ‹_›
  · rw [hbyte, h.bytes rfl u (by omega), List.getElem?_take_of_lt hu]
  · rw [hbyte, h.frame]
    · rfl
    · intro u hu _ hc
      exact hout u (by omega) (hs.userAddr_inj ((mapped_iff ht.nonzero).mpr hua) hc)

theorem copyin_fine {len : Nat} (hz : NonzeroFrames s.mem root) :
    Runs E (copyin root va len) s (fun r s' => s' = s ∧ CopyinFine s root va len r) := by
  obtain ⟨m, hm⟩ := UpTo.exists (fun u => Mapped s.mem root (va + u)) len
  have hum : UpTo (fun u => UserMapped s.mem root (va + u)) len m := hm.congr fun u => mapped_iff hz
  apply (copyin_upTo hm).imp
  rintro r s' ⟨hs, rfl⟩
  refine ⟨hs, ?_, ?_, ?_⟩
  · dsimp only
    split
    · exact Or.inl rfl
    · exact Or.inr rfl
  · rw [hum.all_iff]
    dsimp only
    split
    · exact iff_of_true rfl ‹_›
    · exact iff_of_false (by decide) ‹_›
  · dsimp only
    split
    · rename_i heq
      exact fun _ => by rw [heq]
    · exact fun hc => absurd hc (by decide)

/-- User copies are right, when the user pages have frames of their own that are
not tables: `copyout` puts the bytes before the first one that is not mapped in
their places, and nothing else, and returns 0 just when that is all of them;
`copyin` gives the bytes of the range under the same condition, and what a
`copyout` has put there. -/
theorem user_copies_are_right (ht : UserTable s.mem root) (ha : TablesApart s.mem root) :
    Runs (fun _ => False) (copyout root va src) s (fun r s' => CopyoutFine s root va src r s' ∧
      (r = 0 → Runs (fun _ => False) (copyin root va src.length) s' fun r' s'' => s'' = s' ∧
      r' = (0, src))) ∧
    ∀ len, Runs (fun _ => False) (copyin root va len) s fun r s' => s' = s ∧
    CopyinFine s root va len r := by
  refine ⟨(copyout_fine ht ha).imp fun r s' h => ⟨h, fun h0 => ?_⟩,
    fun len => copyin_fine ht.nonzero⟩
  have hmapped := userMapped_congr h.leaf
  have hz := (ht.congr h.leaf).nonzero
  have hall := h.zero_iff.mp h0
  obtain ⟨m, hm, hbytes, _⟩ := h.bytes
  rw [hm.all_iff.mp hall] at hbytes
  apply (copyin_fine hz).imp
  rintro r' s'' ⟨hs, hr⟩
  have hr0 : r'.1 = 0 := hr.zero_iff.mpr fun u hu => (hmapped _).mpr (hall u hu)
  refine ⟨hs, Prod.ext hr0 ?_⟩
  rw [hr.bytes hr0]
  apply List.ext_getElem?
  intro u
  by_cases hu : u < src.length
  · rw [userBytes_getElem? _ _ _ hu, hbytes u hu]
  · rw [List.getElem?_eq_none (by simpa using hu), List.getElem?_eq_none (by simpa using hu)]

/-! ## A page table with one user page -/

/-- The tables of the address 0, with its entry. -/
def oneEntry (pte : Nat) : Bytes :=
  let zero : Bytes := fun _ => 0
  ((zero.put64 0x1000 (PA2PTE 0x2000 ||| PTE_V)).put64 0x2000 (PA2PTE 0x3000 ||| PTE_V)).put64
  0x3000 pte

variable {pte i : Nat}

theorem get64_oneEntry (hpte : pte < 2 ^ 64) (a : Nat) (ha : a % 8 = 0) : (oneEntry pte).get64 a =
    if a = 0x3000 then pte else if a = 0x2000 then PA2PTE 0x3000 ||| PTE_V
    else if a = 0x1000 then PA2PTE 0x2000 ||| PTE_V else 0 := by
  have hzero : Bytes.get64 (fun _ => 0) a = 0 := Bytes.getLE_zero fun _ _ => rfl
  unfold oneEntry
  dsimp only
  by_cases h3 : a = 0x3000
  · rw [if_pos h3, h3, Bytes.get64_put64 hpte]
  · rw [if_neg h3, Bytes.get64_put64_ne (by omega)]
    by_cases h2 : a = 0x2000
    · rw [if_pos h2, h2, Bytes.get64_put64 (by decide)]
    · rw [if_neg h2, Bytes.get64_put64_ne (by omega)]
      by_cases h1 : a = 0x1000
      · rw [if_pos h1, h1, Bytes.get64_put64 (by decide)]
      · rw [if_neg h1, Bytes.get64_put64_ne (by omega), hzero]

/-- The tables at the three levels. -/
theorem tableAt_oneEntry (hpte : pte < 2 ^ 64) {d n : Nat} (hd : d ≤ 2) (hn : n < 512 ^ d) :
    tableAt (oneEntry pte) 0x1000 d n = if n = 0 then some (0x1000 * (d + 1)) else none := by
  have hnone : child 0 = none := rfl
  induction d generalizing n with
  | zero =>
    obtain rfl : n = 0 := by omega
    rfl
  | succ d ih =>
    unfold tableAt
    rw [ih (by omega) (by omega)]
    by_cases hup : n / 512 = 0
    · rw [if_pos hup]
      dsimp only
      unfold entry
      rw [get64_oneEntry hpte _ (by omega)]
      by_cases hn0 : n = 0
      · rw [if_pos hn0, hn0]
        have hd' : d = 0 ∨ d = 1 := by omega
        rcases hd' with rfl | rfl
        · rw [if_neg (by decide), if_neg (by decide), if_pos (by decide)]
          decide
        · rw [if_neg (by decide), if_pos (by decide)]
          decide
      · rw [if_neg hn0, if_neg (by omega), if_neg (by omega), if_neg (by omega), hnone]
    · rw [if_neg hup, if_neg (by omega)]

theorem pteAt_oneEntry (hpte : pte < 2 ^ 64) {vpn : Nat} (hvpn : vpn < 512 ^ 3) :
    pteAt (oneEntry pte) 0x1000 vpn = if vpn = 0 then pte else 0 := by
  unfold pteAt
  rw [tableAt_oneEntry hpte (Nat.le_refl 2) (by omega)]
  by_cases hup : vpn / 512 = 0
  · rw [if_pos hup]
    dsimp only
    unfold entry
    rw [get64_oneEntry hpte _ (by omega)]
    by_cases h0 : vpn = 0
    · rw [if_pos h0, h0, if_pos rfl]
    · rw [if_neg h0, if_neg (by omega), if_neg (by omega), if_neg (by omega)]
  · rw [if_neg hup, if_neg (by omega)]

/-- Only the addresses of page 0 may be mapped. -/
theorem UserMapped.oneEntry (hpte : pte < 2 ^ 64) (h : UserMapped (oneEntry pte) 0x1000 a) :
    a % 2 ^ 64 / PGSIZE = 0 ∧ frameOf (ThuKernel.oneEntry pte) 0x1000 a = PTE2PA pte := by
  obtain ⟨hlt, hv, _⟩ := h
  have hvpn : a % 2 ^ 64 / PGSIZE < 512 ^ 3 := by
    rw [MAXVA_eq] at hlt
    rw [PGSIZE_eq]
    omega
  unfold frameOf leafOf at *
  rw [pteAt_oneEntry hpte hvpn] at hv ⊢
  by_cases h0 : a % 2 ^ 64 / PGSIZE = 0
  · exact ⟨h0, by rw [if_pos h0]⟩
  · rw [if_neg h0] at hv
    simp at hv

theorem leafOf_oneEntry (hpte : pte < 2 ^ 64) (ha : a < PGSIZE) :
    leafOf (oneEntry pte) 0x1000 a = pte := by
  have hpage : a % 2 ^ 64 / PGSIZE = 0 := by
    rw [PGSIZE_eq] at *
    omega
  unfold leafOf
  rw [hpage, pteAt_oneEntry hpte (by decide), if_pos rfl]

theorem userMapped_oneEntry (hpte : pte < 2 ^ 64) (hv : pte.testBit 0 = true)
    (hu : pte.testBit 4 = true) (ha : a < PGSIZE) : UserMapped (oneEntry pte) 0x1000 a := by
  have hleaf := leafOf_oneEntry hpte ha
  refine ⟨?_, by rwa [hleaf], by rwa [hleaf]⟩
  rw [MAXVA_eq]
  rw [PGSIZE_eq] at ha
  omega

theorem userTable_oneEntry (hpte : pte < 2 ^ 64) (hz : PTE2PA pte ≠ 0) :
    UserTable (oneEntry pte) 0x1000 := by
  refine ⟨⟨by decide, by decide⟩, fun a ha => ?_, fun a b ha hb _ => ?_⟩
  · rw [(ha.oneEntry hpte).2]
    exact hz
  · rw [(ha.oneEntry hpte).1, (hb.oneEntry hpte).1]

theorem tablesApart_oneEntry (hpte : pte < 2 ^ 64) (hpage : 0x3000 < PTE2PA pte) :
    TablesApart (oneEntry pte) 0x1000 := by
  rintro a ha ⟨d, hd, n, hn, ht⟩
  rw [(ha.oneEntry hpte).2, tableAt_oneEntry hpte hd hn] at ht
  split at ht
  · have := Option.some.inj ht
    omega
  · cases ht

/-- One user page, at the address 0, which starts with the bytes `l`. -/
def onePage (l : List Byte) : Bytes := (oneEntry (PA2PTE 0x4000 ||| 0x1f)).store 0x4000 l

variable {l : List Byte}

/-- The bytes of the page are none of the tables. -/
theorem sameOn_onePage (hl : l.length ≤ PGSIZE) :
    SameOn PGSIZE (· ≠ 0x4000) (oneEntry (PA2PTE 0x4000 ||| 0x1f)) (onePage l) :=
  SameOn.store (o := 0) (by decide) (by rwa [Nat.zero_add])

theorem tableOf_ne_onePage {t : Nat} (ht : TableOf (oneEntry (PA2PTE 0x4000 ||| 0x1f)) 0x1000 t) :
    t ≠ 0x4000 := by
  rintro rfl
  obtain ⟨d, hd, n, hn, hat⟩ := ht
  rw [tableAt_oneEntry (by decide) hd hn] at hat
  split at hat
  · have := Option.some.inj hat
    omega
  · cases hat

theorem leafOf_onePage (hl : l.length ≤ PGSIZE) (ha : a % 2 ^ 64 < MAXVA) :
    leafOf (onePage l) 0x1000 a = leafOf (oneEntry (PA2PTE 0x4000 ||| 0x1f)) 0x1000 a :=
  leafOf_frame ⟨by decide, by decide⟩ (sameOn_onePage hl) (fun _ ht => tableOf_ne_onePage ht) ha

theorem userMapped_onePage_iff (hl : l.length ≤ PGSIZE) (a : Nat) :
    UserMapped (onePage l) 0x1000 a ↔ UserMapped (oneEntry (PA2PTE 0x4000 ||| 0x1f)) 0x1000 a :=
  userMapped_congr (fun _ ha => leafOf_onePage hl ha) a

theorem frameOf_onePage (hl : l.length ≤ PGSIZE) (ha : UserMapped (onePage l) 0x1000 a) :
    frameOf (onePage l) 0x1000 a = frameOf (oneEntry (PA2PTE 0x4000 ||| 0x1f)) 0x1000 a := by
  unfold frameOf
  rw [leafOf_onePage hl ha.1]

theorem userTable_onePage (hl : l.length ≤ PGSIZE) : UserTable (onePage l) 0x1000 :=
  (userTable_oneEntry (by decide) (by decide)).congr fun _ ha => leafOf_onePage hl ha

theorem tablesApart_onePage (hl : l.length ≤ PGSIZE) : TablesApart (onePage l) 0x1000 := by
  intro a ha ht
  rw [frameOf_onePage hl ha] at ht
  have hkeep : ∀ t, TableOf (oneEntry (PA2PTE 0x4000 ||| 0x1f)) 0x1000 t → t ≠ 0x4000 :=
    fun _ => tableOf_ne_onePage
  rw [tableOf_congr fun d hd n hn => tableAt_frame ⟨by decide, by decide⟩ (sameOn_onePage hl)
    hkeep hd hn] at ht
  exact tablesApart_oneEntry (by decide) (by decide) a ((userMapped_onePage_iff hl a).mp ha) ht

theorem separate_onePage (hl : l.length ≤ PGSIZE) : Separate (onePage l) 0x1000 :=
  (userTable_onePage hl).separate (tablesApart_onePage hl)

theorem userMapped_onePage (hl : l.length ≤ PGSIZE) (ha : a < PGSIZE) :
    UserMapped (onePage l) 0x1000 a :=
  (userMapped_onePage_iff hl a).mpr (userMapped_oneEntry (by decide) (by decide) (by decide) ha)

/-- A page with the string `ab`. -/
def pageAb : Mm := ⟨onePage [97, 98, 0], 0⟩

theorem pageAb_short : [97, 98, (0 : Byte)].length ≤ PGSIZE := by decide

theorem copyinstr_stops_at_the_nul_of_ab :
    Runs (fun _ => False) (copyinstr 0x1000 0 200) pageAb fun r s' => s' = pageAb ∧
      (r.1 = -1 ↔ MeetsHole pageAb.mem 0x1000 0 200) ∧
      (r.1 ≠ -1 → ∃ k, StrLen pageAb.mem 0x1000 0 200 k ∧ StrResult pageAb.mem 0x1000 0 200 k r ∧
        ∀ t : Mm, NonzeroFrames t.mem 0x1000 → AgreeTo pageAb.mem t.mem 0x1000 0 200 k →
          Runs (fun _ => False) (copyinstr 0x1000 0 200) t fun r' _ => r' = r) :=
  copyinstr_stops_at_the_nul (userTable_onePage pageAb_short).nonzero (by decide)

theorem user_copies_are_right_of_a_byte :
    Runs (fun _ => False) (copyout 0x1000 5 [7]) ⟨oneEntry (PA2PTE 0x4000 ||| 0x1f), 0⟩ (fun r s' =>
      CopyoutFine ⟨oneEntry (PA2PTE 0x4000 ||| 0x1f), 0⟩ 0x1000 5 [7] r s' ∧
      (r = 0 → Runs (fun _ => False) (copyin 0x1000 5 1) s' fun r' s'' => s'' = s' ∧
      r' = (0, [7]))) ∧
    ∀ len, Runs (fun _ => False) (copyin 0x1000 5 len) ⟨oneEntry (PA2PTE 0x4000 ||| 0x1f),
      0⟩ fun r s' =>
      s' = ⟨oneEntry (PA2PTE 0x4000 ||| 0x1f), 0⟩ ∧
        CopyinFine ⟨oneEntry (PA2PTE 0x4000 ||| 0x1f), 0⟩ 0x1000 5 len r :=
  user_copies_are_right (userTable_oneEntry (by decide) (by decide))
    (tablesApart_oneEntry (by decide) (by decide))

/-- The page 0 of the user is the root table. -/
def rootPage : Mm := ⟨oneEntry (PA2PTE 0x1000 ||| 0x1f), 0⟩

/-- A copy of 8 zeros to it ends the mapping of page 0. -/
theorem a_copy_to_the_root_is_not_read_back : ¬ ∀ (s : Mm) (root va : Nat) (src : List Byte),
    UserTable s.mem root →
    Runs (fun _ => False) (copyout root va src) s (fun r s' => CopyoutFine s root va src r s' ∧
      (r = 0 → Runs (fun _ => False) (copyin root va src.length) s' fun r' s'' => s'' = s' ∧
      r' = (0, src))) ∧
    ∀ len, Runs (fun _ => False) (copyin root va len) s fun r s' => s' = s ∧
    CopyinFine s root va len r := by
  intro hall
  have hruns :=
    (hall rootPage 0x1000 0 (List.replicate 8 0) (userTable_oneEntry (by decide) (by decide))).1
  have hret : (copyout 0x1000 0 (List.replicate 8 0)).returns rootPage = true := by decide +kernel
  obtain ⟨r, hr⟩ := Prog.returns_iff.mp hret
  obtain ⟨hfine, hback⟩ := hruns.of_ok hr
  have hmapped : ∀ u < 8, UserMapped rootPage.mem 0x1000 (0 + u) := fun u hu =>
    userMapped_oneEntry (by decide) (by decide) (by decide) (by rw [PGSIZE_eq]; omega)
  have hcopied :=
    ((copyin_runs (E := fun _ => False) 0x1000 0 8).and
      (hback (hfine.zero_iff.mpr hmapped))).exists_ok
    fun _ he => he.1
  obtain ⟨r', s'', _, ⟨_, hin⟩, _, hval⟩ := hcopied
  -- After the copy, the address 0 is not mapped.
  have hgone : userPage ((copyout 0x1000 0 (List.replicate 8 0)).final rootPage).mem 0x1000 0 =
      0 := by decide +kernel
  exact hin.mapped 0 (by rw [hval]; decide) hgone

end ThuKernel
