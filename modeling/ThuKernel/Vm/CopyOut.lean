-- Copies to user pages: when all the bytes arrive. A copy writes to the pages
-- of a process, so it matters that none of these holds one of its tables.
import ThuKernel.Vm.Table

namespace ThuKernel

/-- No user page of a process is one of its tables, and each is mapped once. -/
structure Separate (mem : Bytes) (root : Nat) : Prop where
  page : IsPage root
  tables : ∀ va, userPage mem root va ≠ 0 → ¬ TableOf mem root (userPage mem root va)
  unshared : ∀ va va', userPage mem root va ≠ 0 → userPage mem root va = userPage mem root va' →
    va / PGSIZE = va' / PGSIZE

variable {E : Stop → Prop} {s : Mm} {mem mem' : Bytes} {root va : Nat} {src : List Byte}

instance (mem : Bytes) (root a : Nat) : Decidable (Mapped mem root a) :=
  inferInstanceAs (Decidable (userPage mem root (PGROUNDDOWN (a % 2 ^ 64)) ≠ 0))

theorem userPage_eq (mem : Bytes) (root va : Nat) : userPage mem root va =
    if MAXVA ≤ va then 0
    else if (pteAt mem root (va / PGSIZE)).testBit 0 ∧ (pteAt mem root (va / PGSIZE)).testBit 4 then
      PTE2PA (pteAt mem root (va / PGSIZE))
    else 0 := by
  unfold userPage
  rw [slotAt_root]
  split
  · rfl
  · cases h : slot mem root (va / PGSIZE) with
    | none =>
      rw [slot_none h]
      rfl
    | some pte =>
      dsimp only
      rw [get64_slot h]

theorem isPage_userPage (mem : Bytes) (root va : Nat) : IsPage (userPage mem root va) := by
  have hzero : IsPage 0 := ⟨by decide, by decide⟩
  rw [userPage_eq]
  split
  · exact hzero
  · split
    · exact isPage_PTE2PA _
    · exact hzero

/-- The first address above those of the user is not mapped. -/
theorem not_mapped_top (mem : Bytes) (root : Nat) : ¬ Mapped mem root (2 ^ 38) := by
  have hpage : MAXVA ≤ PGROUNDDOWN (2 ^ 38 % 2 ^ 64) := by
    rw [MAXVA_eq]
    decide
  unfold Mapped
  rw [userPage_eq, if_pos hpage]
  simp

/-- All addresses of a page have the same user page. -/
theorem userPage_PGROUNDDOWN (mem : Bytes) (root va : Nat) :
    userPage mem root (PGROUNDDOWN va) = userPage mem root va := by
  have hpage : PGROUNDDOWN va / PGSIZE = va / PGSIZE := by
    unfold PGROUNDDOWN PGSIZE
    omega
  have hmax : MAXVA ≤ PGROUNDDOWN va ↔ MAXVA ≤ va := by
    rw [MAXVA_eq]
    unfold PGROUNDDOWN PGSIZE
    omega
  rw [userPage_eq, userPage_eq, hpage, ite_cond_congr (propext hmax)]

/-- Within a page, user addresses are one after the other. -/
theorem userAddr_add {u : Nat} (hva : va < 2 ^ 64) (hu : va % PGSIZE + u < PGSIZE) :
    userAddr mem root (va + u) = userAddr mem root va + u := by
  have hpage : PGROUNDDOWN ((va + u) % 2 ^ 64) = PGROUNDDOWN (va % 2 ^ 64) := by
    unfold PGROUNDDOWN PGSIZE at *
    omega
  have hoff : (va + u) % PGSIZE = va % PGSIZE + u := by
    unfold PGSIZE at *
    omega
  unfold userAddr
  rw [hpage, hoff, Nat.add_assoc]

theorem runs_useraddr (hva : va < 2 ^ 64) {Q : Nat → Mm → Prop} :
    Runs E (useraddr root va) s Q ↔ Q (userAddr s.mem root va) s := by
  obtain ⟨c, hc⟩ := Nat.dvd_of_mod_eq_zero (isPage_userPage s.mem root va).aligned
  have hoff : va &&& 0xFFF = va % PGSIZE := Nat.and_two_pow_sub_one_eq_mod va 12
  have hlt : va % PGSIZE < 2 ^ 12 := Nat.mod_lt va (by decide : 0 < PGSIZE)
  have haddr : userPage s.mem root va ||| (va &&& 0xFFF) = userAddr s.mem root va := by
    rw [userAddr, Nat.mod_eq_of_lt hva, userPage_PGROUNDDOWN, hoff, hc]
    exact (Nat.two_pow_add_eq_or_of_lt hlt c).symm
  unfold useraddr
  rw [Runs.bind_iff, runs_walkaddr, Runs.pure_iff, haddr]

/-- Where the tables are the same, the user pages are. -/
theorem userPage_frame {keep : Nat → Prop} (hroot : IsPage root)
    (hsame : SameOn PGSIZE keep mem mem') (hkeep : ∀ a, TableOf mem root a → keep a)
    (va : Nat) : userPage mem' root va = userPage mem root va := by
  rw [userPage_eq, userPage_eq]
  split
  · rfl
  · rw [pteAt_frame hroot hsame hkeep]
    rw [MAXVA_eq] at *
    rw [PGSIZE_eq]
    omega

namespace Separate

theorem write (hs : Separate mem root) (hpa : userPage mem root va ≠ 0)
    (hsame : SameOn PGSIZE (· ≠ userPage mem root va) mem mem') :
    Separate mem' root ∧ ∀ va', userPage mem' root va' = userPage mem root va' := by
  have hkeep : ∀ a, TableOf mem root a → a ≠ userPage mem root va := by
    rintro a ha rfl
    exact hs.tables va hpa ha
  have hpages := userPage_frame hs.page hsame hkeep
  have htables := @tableOf_congr mem mem' root
    fun d hd n hn => tableAt_frame hs.page hsame hkeep hd hn
  refine ⟨⟨hs.page, fun va' => ?_, fun va₁ va₂ => ?_⟩, hpages⟩
  · rw [hpages, htables]
    exact hs.tables va'
  · rw [hpages, hpages]
    exact hs.unshared va₁ va₂

/-- Two user addresses of one byte are the same. -/
theorem userAddr_inj (hs : Separate mem root) {a b : Nat} (ha : Mapped mem root a)
    (h : userAddr mem root a = userAddr mem root b) : a % 2 ^ 64 = b % 2 ^ 64 := by
  unfold userAddr at h
  have hpa := (isPage_userPage mem root (PGROUNDDOWN (a % 2 ^ 64))).aligned
  have hpb := (isPage_userPage mem root (PGROUNDDOWN (b % 2 ^ 64))).aligned
  have hpage : userPage mem root (PGROUNDDOWN (a % 2 ^ 64)) =
      userPage mem root (PGROUNDDOWN (b % 2 ^ 64)) := by
    rw [PGSIZE_eq] at *
    omega
  have hnum := hs.unshared _ _ ha hpage
  unfold PGROUNDDOWN at hnum
  rw [PGSIZE_eq] at *
  omega

end Separate

/-- What `copyout` does: with 0, all the bytes are at their user addresses, and
no other byte has changed; with -1, some address is not mapped. -/
structure CopiedOut (s : Mm) (root va : Nat) (src : List Byte) (r : Int) (s' : Mm) : Prop where
  result : (r = 0 ∧ ∀ u < src.length, Mapped s.mem root (va + u)) ∨
    (r = -1 ∧ ∃ u < src.length, ¬ Mapped s.mem root (va + u))
  bytes : r = 0 → ∀ u < src.length, some (s'.mem (userAddr s.mem root (va + u))) = src[u]?
  frame : ∀ x, (∀ u < src.length, Mapped s.mem root (va + u) → x ≠ userAddr s.mem root (va + u)) →
    s'.mem x = s.mem x
  pages : ∀ a, userPage s'.mem root a = userPage s.mem root a

theorem CopiedOut.userBytes {r : Int} {s' : Mm} (h : CopiedOut s root va src r s') (h0 : r = 0) :
    userBytes s'.mem root va src.length = src := by
  apply List.ext_getElem?
  intro u
  by_cases hu : u < src.length
  · rw [← h.bytes h0 u hu]
    unfold ThuKernel.userBytes userAddr
    simp [hu, h.pages]
  · rw [List.getElem?_eq_none (by simpa using hu), List.getElem?_eq_none (by simpa using hu)]

theorem CopiedOut.iff {r : Int} {s' : Mm} (h : CopiedOut s root va src r s') :
    r = 0 ↔ ∀ u < src.length, Mapped s.mem root (va + u) := by
  rcases h.result with ⟨h0, hall⟩ | ⟨h1, u, hu, hno⟩
  · exact ⟨fun _ => hall, fun _ => h0⟩
  · constructor
    · intro h0
      omega
    · intro hall
      exact absurd (hall u hu) hno

/-- Inside the first page, a user address is an address of the page. -/
theorem userAddr_page {a u : Nat} (ha : a < 2 ^ 64) (hu : u < PGSIZE - (a - PGROUNDDOWN a)) :
    userAddr mem root (a + u) = userPage mem root (PGROUNDDOWN a) + (a - PGROUNDDOWN a) + u := by
  have hpage : PGROUNDDOWN ((a + u) % 2 ^ 64) = PGROUNDDOWN a := by
    unfold PGROUNDDOWN at *
    rw [PGSIZE_eq] at *
    omega
  unfold userAddr
  rw [hpage]
  unfold PGROUNDDOWN at *
  rw [PGSIZE_eq] at *
  omega

/-- The first page, and then the copy to the page after it. -/
theorem CopiedOut.page {n : Nat} {r : Int} {s' : Mm} (hs : Separate s.mem root) (hva : va < 2 ^ 64)
    (hlen : src.length ≤ 2 ^ 63) (hn : n = min (PGSIZE - (va - PGROUNDDOWN va)) src.length)
    (hpa : userPage s.mem root (PGROUNDDOWN va) ≠ 0)
    (h : CopiedOut { s with mem := s.mem.store (userPage s.mem root (PGROUNDDOWN va) +
      (va - PGROUNDDOWN va)) (src.take n) } root ((PGROUNDDOWN va + PGSIZE) % 2 ^ 64)
      (src.drop n) r s') :
    CopiedOut s root va src r s' := by
  have h1 := PGROUNDDOWN_le va
  have h2 := lt_PGROUNDDOWN_add va
  have hshort : (src.take n).length = n := by
    rw [List.length_take]
    omega
  have hfits : n ≤ PGSIZE - (va - PGROUNDDOWN va) := by omega
  have hle : n ≤ src.length := by omega
  -- Behind the first page, both addresses are the same.
  have hnext : ∀ u, n + u < src.length → PGROUNDDOWN va + PGSIZE + u = va + (n + u) := by
    intro u hu
    omega
  clear hn
  have hpage := isPage_userPage s.mem root (PGROUNDDOWN va)
  obtain ⟨_, hpages⟩ :=
    hs.write hpa (SameOn.store (o := va - PGROUNDDOWN va) (l := src.take n) hpage.aligned
    (by rw [hshort]; omega))
  generalize hmem : s.mem.store (userPage s.mem root (PGROUNDDOWN va) + (va - PGROUNDDOWN va))
    (src.take n) = mem₁ at h hpages
  have hmapped : ∀ a, Mapped mem₁ root a ↔ Mapped s.mem root a := by
    intro a
    unfold Mapped
    rw [hpages]
  have haddr : ∀ a, userAddr mem₁ root a = userAddr s.mem root a := by
    intro a
    unfold userAddr
    rw [hpages]
  obtain ⟨hresult, hbytes, hframe, hsame⟩ := h
  simp only [mapped_mod, userAddr_mod, hmapped, haddr, List.length_drop] at hresult hbytes hframe
  have hfirst : ∀ u < n, Mapped s.mem root (va + u) := fun u hu =>
    (mapped_page hva (hu.trans_le hfits)).mpr hpa
  have hplace : ∀ u < n, userAddr s.mem root (va + u) =
      userPage s.mem root (PGROUNDDOWN va) + (va - PGROUNDDOWN va) + u := fun u hu =>
    userAddr_page hva (hu.trans_le hfits)
  refine ⟨?_, fun h0 u hu => ?_, fun x hx => ?_, fun a => (hsame a).trans (hpages a)⟩
  · rcases hresult with ⟨h0, hall⟩ | ⟨h0, u, hu, hno⟩
    · refine Or.inl ⟨h0, fun u hu => ?_⟩
      by_cases hlt : u < n
      · exact hfirst u hlt
      · have := hall (u - n) (by omega)
        rwa [hnext _ (by omega), show n + (u - n) = u by omega] at this
    · rw [hnext u (by omega)] at hno
      exact Or.inr ⟨h0, n + u, by omega, hno⟩
  · by_cases hlt : u < n
    · -- The bytes of the first page are not written again.
      rw [hframe, ← hmem, hplace u hlt, Bytes.store_inside (Nat.le_add_right _ _)
        (by rwa [Nat.add_sub_cancel_left, hshort])]
      · rw [List.getElem_take, List.getElem?_eq_getElem hu]
        simp only [Nat.add_sub_cancel_left]
      · intro u' hu' hm' hc
        rw [hnext u' (by omega)] at hc
        have := hs.userAddr_inj (hfirst u hlt) hc
        omega
    · have := hbytes h0 (u - n) (by omega)
      rwa [hnext _ (by omega), show n + (u - n) = u by omega, List.getElem?_drop,
        show n + (u - n) = u by omega] at this
  · rw [hframe, ← hmem]
    · apply Bytes.store_outside
      rw [hshort]
      by_contra hin
      obtain ⟨hge, hlt⟩ := not_or.mp hin
      obtain ⟨j, rfl⟩ := Nat.exists_eq_add_of_le (Nat.le_of_not_lt hge)
      have hj : j < n := Nat.lt_of_add_lt_add_left (Nat.lt_of_not_le hlt)
      exact hx j (hj.trans_le hle) (hfirst j hj) (hplace j hj).symm
    · intro u hu hm
      rw [hnext u (by omega)] at hm ⊢
      exact hx (n + u) (by omega) hm

theorem copyout_separate (hs : Separate s.mem root) (hlen : src.length ≤ 2 ^ 63) :
    Runs E (copyout root va src) s (fun r s' => CopiedOut s root va src r s') := by
  have hloop : ∀ fuel va src (s : Mm), src.length < fuel → va < 2 ^ 64 → src.length ≤ 2 ^ 63 →
      Separate s.mem root →
      Runs E (copyoutLoop root fuel va src) s (fun r s' => CopiedOut s root va src r s') := by
    intro fuel
    induction fuel with
    | zero =>
      intro va src s h
      omega
    | succ fuel ih =>
      intro va src s h hva hlen hs
      have h1 := PGROUNDDOWN_le va
      have h2 := lt_PGROUNDDOWN_add va
      unfold copyoutLoop
      split
      · rename_i h0
        refine ⟨Or.inl ⟨rfl, fun u hu => ?_⟩, fun _ u hu => ?_, fun _ _ => rfl, fun _ => rfl⟩
        · omega
        · omega
      · rename_i h0
        rw [Runs.bind_iff, runs_walkaddr]
        split
        · rename_i hpa
          refine ⟨Or.inr ⟨rfl, 0, by omega, ?_⟩, fun hc => absurd hc (by decide), fun _ _ => rfl,
            fun _ => rfl⟩
          rw [mapped_page hva (by omega)]
          exact fun hno => hno hpa
        · rename_i hpa
          dsimp only
          rw [Runs.bind_iff, Runs.modify_iff]
          have hshort : (src.take (min (PGSIZE - (va - PGROUNDDOWN va)) src.length)).length ≤
              PGSIZE - (va - PGROUNDDOWN va) := by
            rw [List.length_take]
            omega
          obtain ⟨hs₁, _⟩ := hs.write hpa (SameOn.store (o := va - PGROUNDDOWN va)
            (l := src.take (min (PGSIZE - (va - PGROUNDDOWN va)) src.length))
            (isPage_userPage s.mem root (PGROUNDDOWN va)).aligned (by omega))
          have hdrop : (src.drop (min (PGSIZE - (va - PGROUNDDOWN va)) src.length)).length =
              src.length - min (PGSIZE - (va - PGROUNDDOWN va)) src.length := List.length_drop
          apply (ih _ _ _ (by omega) (Nat.mod_lt _ (by omega)) (by omega) hs₁).imp
          intro r s' hr
          exact hr.page hs hva hlen rfl hpa
  have hrun := hloop _ _ _ s (Nat.lt_succ_self src.length) (Nat.mod_lt va (by decide : 0 < 2 ^ 64))
    hlen hs
  apply hrun.imp
  rintro r s' ⟨hresult, hbytes, hframe, hpages⟩
  simp only [mapped_mod, userAddr_mod] at hresult hbytes hframe
  exact ⟨hresult, hbytes, hframe, hpages⟩

end ThuKernel
