-- What a loaded application consists of: the bytes of its image, a stack of
-- zeros, and the registers of its first instruction. `exec` and `spawn` both
-- make it.
import ThuKernel.Kernel.Ownership

namespace ThuKernel

variable {lk : Link} {E : Stop → Prop} {s s₁ s₂ : Mm} {r tf a v n i : Nat} {R X P : Nat → Prop}
  {l l₁ : List Nat}
variable {k k' : Kernel} {app : App} {mem mem' : Bytes}

/-! ## What a loaded application has -/

/-- The image of the application lies below the pages of the allocator. -/
def App.Inside (lk : Link) (app : App) : Prop := PGROUNDUP app.stop ≤ lk.ekernel

/-- The pages of the user hold the image, as `mem` has it, over a stack of
zeros. -/
structure HasImage (app : App) (mem mem' : Bytes) (r : Nat) : Prop where
  stack : ∀ o < PGSIZE, mem' (frameAt mem' r 0 + o) = 0
  pages : ∀ i < imagePages app.start app.stop, ∀ o < PGSIZE,
    mem' (frameAt mem' r (1 + i) + o) = mem (PGROUNDDOWN app.start + i * PGSIZE + o)

/-- The saved registers of an application that starts: `epc`, `sp`, and zeros. -/
def firstRegs : Bytes :=
  (Bytes.put64 (fun _ => 0) 24 BASE_ADDRESS).put64 48 (USTACK_BOTTOM + USTACK_SIZE)

/-- Slot `i` has the application, and nothing of it was executed yet. -/
structure Launched (lk : Link) (app : App) (mem : Bytes) (k : Kernel) (i : Nat) : Prop where
  size : (k.pool i).sz = (imagePages app.start app.stop + 1) * PGSIZE
  loaded : Loaded lk k.mm.mem (k.pool i).pagetable (k.pool i).trapframe
    (imagePages app.start app.stop + 1)
  image : app.Inside lk → HasImage app mem k.mm.mem (k.pool i).pagetable
  registers : ∀ o < TRAPFRAME_REGS, k.mm.mem ((k.pool i).trapframe + o) = firstRegs o

/-! ## Pages that stay -/

/-- The pages that are neither free nor tables of `r`. -/
def Apart (l : List Nat) (mem : Bytes) (r a : Nat) : Prop := a ∉ l ∧ ¬ TableOf mem r a

/-- A page outside of the allocator stays. -/
theorem Spaces.apart_of_not_frame (hs : Spaces lk s R l X) (hr : R r) (ha : ¬ IsFrame lk a) :
    Apart l s.mem r a :=
  ⟨fun hc => ha (hs.free.frames a hc), fun hc => ha ((hs.space r hr).tables a hc)⟩

/-- A page that is mapped stays. -/
theorem Spaces.apart_of_mapped {q : Nat} (hs : Spaces lk s R l X) (hr : R r)
    (h : MapsTo lk s.mem r q a) :
    Apart l s.mem r a :=
  ⟨(hs.space r hr).unfree q a h, (hs.space r hr).unmixed q a h⟩

/-- A page that stays while pages are mapped. -/
theorem Within.apart (h : Within lk R X r s l s₁ l₁) (hr : R r)
    (hold : ∀ q < 512 ^ 3, IsMapped s.mem r q → pteAt s₁.mem r q = pteAt s.mem r q)
    (ha : Apart l s.mem r a) :
    Apart l₁ s₁.mem r a := by
  have hpages := (moved_nil.mp h.moved).1 a
  have hmapped : (∃ q, MapsTo lk s.mem r q a) → Apart l₁ s₁.mem r a := by
    rintro ⟨q, hq⟩
    apply h.spaces.apart_of_mapped hr (q := q)
    exact (mapsTo_congr fun hlimit => hold q hlimit hq.mapped).mpr hq
  constructor
  · intro hc
    rcases hpages.mp (Or.inl hc) with hl | ht | hq
    · exact ha.1 hl
    · exact ha.2 ht
    · exact (hmapped hq).1 hc
  · intro hc
    rcases hpages.mp (Or.inr (Or.inl hc)) with hl | ht | hq
    · exact ha.1 hl
    · exact ha.2 ht
    · exact (hmapped hq).2 hc

theorem AddsPage.apart {page perm m : Nat} {fill : Nat → Bytes → Bytes}
    (h : AddsPage lk R X r v page perm m fill s l s₁ l₁) (hr : R r)
    (ha : Apart l s.mem r a) : Apart l₁ s₁.mem r a := by
  refine h.toWithin.apart hr (fun q hq hm => ?_) ha
  rw [h.ptes q hq, if_neg]
  rintro rfl
  exact h.unmapped hm

/-- The new page stays. -/
theorem AddsPage.apart_new {page perm m : Nat} {fill : Nat → Bytes → Bytes}
    (h : AddsPage lk R X r v page perm m fill s l s₁ l₁) (hr : R r) (hv : v < 512 ^ 3)
    (hperm : perm < 1024) :
    frameAt s₁.mem r v = page ∧ Apart l₁ s₁.mem r page := by
  have hpte := h.ptes v hv
  rw [if_pos rfl] at hpte
  have hframe : frameAt s₁.mem r v = page := by
    unfold frameAt
    rw [hpte, (leafPte_decode h.frame.aligned hperm).1, Nat.mod_eq_of_lt h.frame.isPage.below]
  refine ⟨hframe, h.spaces.apart_of_mapped hr (q := v) ⟨hv, ?_, hframe, h.frame⟩⟩
  unfold IsMapped
  rw [hpte, leafPte_valid]

/-! ## loader.c -/

/-- A word at `d` of the page `t`. -/
theorem put64_at {t d w o : Nat} (h : mem (t + o) = mem' o) :
    mem.put64 (t + d) w (t + o) = mem'.put64 d w o := by
  unfold Bytes.put64 Bytes.putLE
  by_cases hin : d ≤ o ∧ o < d + 8
  · rw [if_pos (by omega), if_pos hin, Nat.add_sub_add_left]
  · rw [if_neg (by omega), if_neg hin, h]

/-- The pages that `loadPages` maps have the bytes from `pa` on. -/
theorem loadPages_bytes (pa : Nat) (hs : Spaces lk s R l X) (hr : R r) (hv : v + n ≤ 2 ^ 26)
    (hun : ∀ q, v ≤ q → q < v + n → ¬ IsMapped s.mem r q) :
    Runs (fun _ => True) (loadPages r n (v * PGSIZE) pa) s (fun _ s' =>
      SameOn PGSIZE (Apart l s.mem r) s.mem s'.mem ∧
      (pa % PGSIZE = 0 → (∀ i < n, ¬ IsFrame lk (pa + i * PGSIZE)) → ∀ i < n, ∀ o < PGSIZE,
        s'.mem (frameAt s'.mem r (v + i) + o) = s.mem (pa + i * PGSIZE + o))) := by
  induction n generalizing s l v pa with
  | zero => exact ⟨SameOn.refl, fun _ _ i hi => absurd hi (Nat.not_lt_zero i)⟩
  | succ n ih =>
    unfold loadPages
    refine hs.newPage_runs (m := 2) hr (by omega) (by decide) (by decide) (missing_le ..)
      (fun page mem hpage => sameOn_copy pa mem hpage) (fun _ => trivial) (fun _ _ _ _ => trivial)
      fun page s₁ l₁ h₁ => ?_
    have hun₁ : ∀ q, v + 1 ≤ q → q < v + 1 + n → ¬ IsMapped s₁.mem r q := by
      intro q h1 h2
      unfold IsMapped
      rw [h₁.ptes q (by omega), if_neg (by omega)]
      exact hun q (by omega) (by omega)
    obtain ⟨hframe, hnew⟩ := h₁.apart_new hr (by omega) (by decide)
    have hih := (ih (pa + PGSIZE) h₁.spaces (by omega) hun₁).and
      (loadPages_runs (t := 0) (pa + PGSIZE) h₁.spaces hr (by omega) hun₁ (Or.inl rfl))
    rw [Nat.add_mul v 1, Nat.one_mul] at hih
    apply hih.mono fun _ _ => trivial
    rintro _ s₂ ⟨⟨hsame₂, hbytes₂⟩, l₂, _, hload⟩
    refine ⟨h₁.same.trans (hsame₂.mono fun a ha => h₁.apart hr ha), fun hpa hsrc i hi o ho => ?_⟩
    cases i with
    | zero =>
      -- The first page, which the later ones leave alone.
      obtain ⟨mem, hmem, hcopy⟩ := h₁.bytes
      have hstay : frameAt s₂.mem r (v + 0) = page := by
        rw [Nat.add_zero, ← hframe]
        unfold frameAt
        rw [hload.rest v (by omega) (by omega)]
      have hother : pa ≠ page := by
        rintro rfl
        exact hsrc 0 hi (by rw [Nat.zero_mul]; exact h₁.frame)
      rw [hstay, hsame₂.byte h₁.frame.aligned hnew ho, hcopy o ho, copied_byte _ _ _ _ ho,
        hmem.byte hpa hother ho, Nat.zero_mul, Nat.add_zero]
    | succ i =>
      have hplace : pa + (i + 1) * PGSIZE = pa + PGSIZE + i * PGSIZE := by
        rw [Nat.add_mul]
        omega
      have hnext : (pa + PGSIZE) % PGSIZE = 0 := by
        rw [Nat.add_mod_right]
        exact hpa
      have hrest : ∀ j < n, ¬ IsFrame lk (pa + PGSIZE + j * PGSIZE) := by
        intro j hj
        have := hsrc (j + 1) (by omega)
        rwa [Nat.add_mul, Nat.one_mul, Nat.add_comm (j * PGSIZE), ← Nat.add_assoc] at this
      have halign : (pa + PGSIZE + i * PGSIZE) % PGSIZE = 0 := by
        rw [Nat.add_mul_mod_self_right]
        exact hnext
      have h := hbytes₂ hnext hrest i (by omega) o ho
      rw [show v + (i + 1) = v + 1 + i by omega, h, hplace]
      exact h₁.same.byte halign (hs.apart_of_not_frame hr (hrest i (by omega))) ho

/-- The stack is a page of zeros, and the saved `sp` its end. -/
theorem alloc_ustack_bytes (hs : Spaces lk s R l X) (hr : R r)
    (htf : MapsTo lk s.mem r trapframePage tf) :
    Runs (fun _ => True) (alloc_ustack r tf) s (fun _ s' =>
      SameOn PGSIZE (fun a => Apart l s.mem r a ∧ a ≠ tf) s.mem s'.mem ∧
      (∀ o < PGSIZE, s'.mem (frameAt s'.mem r 0 + o) = 0) ∧
      ∀ o < PGSIZE, s'.mem (tf + o) = s.mem.put64 (tf + 48) (USTACK_BOTTOM + USTACK_SIZE)
      (tf + o)) := by
  unfold alloc_ustack
  refine hs.newPage_runs (v := 0) (m := 2) hr (by decide) (by decide) (by decide) (missing_le ..)
    (fun page mem hpage => SameOn.fill hpage (Nat.le_refl _)) (fun _ => trivial)
    (fun _ _ _ _ => trivial) fun page s₁ l₁ h₁ => ?_
  obtain ⟨hframe, hnew⟩ := h₁.apart_new hr (by decide) (by decide)
  obtain ⟨mem, _, hzero⟩ := h₁.bytes
  have htf₁ : MapsTo lk s₁.mem r trapframePage tf := by
    apply (mapsTo_congr fun hlimit => ?_).mpr htf
    rw [h₁.ptes _ hlimit, if_neg (by decide)]
  have hapart := h₁.spaces.trapframe_apart hr htf₁
  have hne : page ≠ tf := by
    intro hc
    apply (hs.space r hr).unfree _ _ htf
    rw [← hc]
    exact h₁.free
  have hput : SameOn PGSIZE (· ≠ tf) s₁.mem
      (s₁.mem.put64 (tf + 48) (USTACK_BOTTOM + USTACK_SIZE)) :=
    SameOn.put64 htf.alloc.aligned (by decide)
  obtain ⟨_, hall⟩ := h₁.spaces.write hput hapart.1 hapart.2
  rw [if_neg (by decide), storePte, Runs.modify_iff]
  refine ⟨(h₁.same.mono fun a ha => ha.1).trans (hput.mono fun a ha => ha.2), fun o ho => ?_,
    fun o ho => ?_⟩
  · have hstay : frameAt (s₁.mem.put64 (tf + 48) (USTACK_BOTTOM + USTACK_SIZE)) r 0 = page := by
      rw [← hframe]
      unfold frameAt
      rw [(hall r hr).2 0 (by decide)]
    dsimp only
    rw [hstay, hput.byte h₁.frame.aligned hne ho, hzero o ho,
      Bytes.fill_inside (by omega) (by omega)]
  · have hsame := h₁.same.byte htf.alloc.aligned (hs.apart_of_mapped hr htf) ho
    have h : (s₁.mem.put64 (tf + 48) (USTACK_BOTTOM + USTACK_SIZE)) (tf + o) =
        Bytes.put64 (fun o => s₁.mem (tf + o)) 48 (USTACK_BOTTOM + USTACK_SIZE) o := put64_at rfl
    have h' : (s.mem.put64 (tf + 48) (USTACK_BOTTOM + USTACK_SIZE)) (tf + o) =
        Bytes.put64 (fun o => s₁.mem (tf + o)) 48 (USTACK_BOTTOM + USTACK_SIZE) o :=
        put64_at hsame.symm
    dsimp only
    rw [h, h']

/-- The image starts at a page, and no page of it is the allocator's. -/
theorem App.Inside.page (h : app.Inside lk) (hi : i < imagePages app.start app.stop) :
    (PGROUNDDOWN app.start + i * PGSIZE) % PGSIZE = 0 ∧ ¬ IsFrame lk
    (PGROUNDDOWN app.start + i * PGSIZE) := by
  have hle := app.le
  unfold App.Inside at h
  refine ⟨?_, fun hc => ?_⟩
  · unfold PGROUNDDOWN
    rw [← Nat.add_mul, Nat.mul_mod_left]
  · have habove := hc.above
    unfold imagePages at hi
    unfold PGROUNDUP PGROUNDDOWN at *
    simp only [PGSIZE_eq] at *
    omega

theorem bin_loader_bytes (hs : Spaces lk s R l X) (hr : R r) (htf : IsFrame lk tf) (app : App)
    (hptes : HasPtes s.mem r (procPtes lk tf fun _ => 0)) :
    Runs (fun _ => True) (bin_loader app.start app.stop r tf) s (fun _ s' =>
      (app.Inside lk → HasImage app s.mem s'.mem r) ∧
      ((∀ o < TRAPFRAME_REGS, s.mem (tf + o) = 0) →
      ∀ o < TRAPFRAME_REGS, s'.mem (tf + o) = firstRegs o)) := by
  have hle := @imagePages_le app.start _ app.below
  have hempty : ∀ q, q ≠ trampolinePage → q ≠ trapframePage → q < 512 ^ 3 →
      pteAt s.mem r q = 0 := by
    intro q h1 h2 hq
    rw [hptes q hq, procPtes_user h1 h2]
  have hmaps : MapsTo lk s.mem r trapframePage tf := by
    apply mapsTo_trapframe htf
    rw [hptes _ (by decide), procPtes, if_neg (by decide), if_pos rfl]
  have hun : ∀ q, 1 ≤ q → q < 1 + imagePages app.start app.stop → ¬ IsMapped s.mem r q := by
    intro q _ hq
    unfold IsMapped
    rw [hempty q (by unfold trampolinePage; omega) (by unfold trapframePage; omega) (by omega),
      Nat.zero_testBit]
    decide
  unfold bin_loader
  dsimp only
  rw [Runs.bind_iff]
  have hload := (loadPages_bytes (PGROUNDDOWN app.start) hs hr (v := 1) (by omega) hun).and
    (loadPages_runs (t := 0) (PGROUNDDOWN app.start) hs hr (by omega) hun (Or.inl rfl))
  rw [Nat.one_mul] at hload
  apply hload.mono fun _ _ => trivial
  rintro _ s₁ ⟨⟨hsame₁, hbytes₁⟩, l₁, h₁, hpages⟩
  have htf₁ : MapsTo lk s₁.mem r trapframePage tf := by
    apply (mapsTo_congr fun hlimit => ?_).mpr hmaps
    rw [hpages.rest _ hlimit (by unfold trapframePage; omega)]
  have hput : SameOn PGSIZE (· ≠ tf) s₁.mem (s₁.mem.put64 (tf + 24) BASE_ADDRESS) :=
    SameOn.put64 htf.aligned (by decide)
  obtain ⟨htable₁, hl₁⟩ := h₁.spaces.trapframe_apart hr htf₁
  obtain ⟨h₂, hall₂⟩ := h₁.spaces.write hput htable₁ hl₁
  obtain ⟨_, hptes₂⟩ := hall₂ r hr
  have hzero₂ : ∀ q < 512 ^ 3, pteAt (s₁.mem.put64 (tf + 24) BASE_ADDRESS) r q = pteAt s₁.mem r q :=
    hptes₂
  have htf₂ : MapsTo lk (s₁.mem.put64 (tf + 24) BASE_ADDRESS) r trapframePage tf :=
    (mapsTo_congr fun hlimit => hptes₂ _ hlimit).mpr htf₁
  have hun₂ : ¬ IsMapped (s₁.mem.put64 (tf + 24) BASE_ADDRESS) r 0 := by
    unfold IsMapped
    rw [hzero₂ 0 (by decide), hpages.rest 0 (by decide) (by omega),
      hempty 0 (by decide) (by decide) (by decide), Nat.zero_testBit]
    decide
  have hentry₂ : pteAt (s₁.mem.put64 (tf + 24) BASE_ADDRESS) r trapframePage =
      leafPte tf (PTE_R ||| PTE_W) := by
    rw [hzero₂ _ (by decide), hpages.rest _ (by decide) (by unfold trapframePage; omega),
      hptes _ (by decide), procPtes, if_neg (by decide), if_pos rfl]
  rw [Runs.bind_iff, storePte, Runs.modify_iff, Runs.bind_iff]
  apply ((alloc_ustack_bytes h₂ hr htf₂).and
    (alloc_ustack_runs h₂ hr hun₂ (missing_le _ _ _ 2) htf hentry₂)).mono fun _ _ => trivial
  rintro _ s₃ ⟨⟨hsame₃, hstack, hregs₃⟩, l₃, h₃, _, hrest₃⟩
  rw [Runs.pure_iff]
  refine ⟨fun hin => ⟨hstack, fun i hi o ho => ?_⟩, fun hzero o ho => ?_⟩
  · -- A page of the image is mapped, so the stack leaves it alone.
    have huser := hpages.pages (1 + i) (by omega) (by omega)
    have hframe : IsFrame lk (frameAt s₁.mem r (1 + i)) := huser.decode.2.1
    have hframe₁ : MapsTo lk s₁.mem r (1 + i) (frameAt s₁.mem r (1 + i)) :=
      ⟨by omega, huser.decode.1, rfl, hframe⟩
    have hmaps₂ := (mapsTo_congr fun hlimit => hptes₂ _ hlimit).mpr hframe₁
    have hstay : frameAt s₃.mem r (1 + i) = frameAt s₁.mem r (1 + i) := by
      unfold frameAt
      rw [hrest₃ _ (by omega) (by omega), hzero₂ _ (by omega)]
    have hne : frameAt s₁.mem r (1 + i) ≠ tf := by
      intro hc
      rw [hc] at hframe₁
      have := (h₁.spaces.space r hr).unshared _ _ _ hframe₁ htf₁
      unfold trapframePage at this
      omega
    have hsrc : ∀ j < imagePages app.start app.stop,
        ¬ IsFrame lk (PGROUNDDOWN app.start + j * PGSIZE) :=
      fun j hj => (hin.page hj).2
    have halign : PGROUNDDOWN app.start % PGSIZE = 0 := by
      unfold PGROUNDDOWN
      rw [Nat.mul_mod_left]
    rw [hstay, hsame₃.byte hframe.aligned ⟨h₂.apart_of_mapped hr hmaps₂, hne⟩ ho]
    dsimp only
    rw [hput.byte hframe.aligned hne ho]
    exact hbytes₁ halign hsrc i hi o ho
  · have hpage : o < PGSIZE := by
      unfold TRAPFRAME_REGS at ho
      rw [PGSIZE_eq]
      omega
    rw [hregs₃ o hpage]
    apply put64_at
    apply put64_at
    rw [hsame₁.byte htf.aligned (hs.apart_of_mapped hr hmaps) hpage, hzero o ho]

theorem HasImage.congr {r : Nat} (h : HasImage app mem s.mem r) (hin : app.Inside lk) {mem₀ : Bytes}
    (hsame : SameOn PGSIZE (fun a => ¬ IsFrame lk a) mem₀ mem) : HasImage app mem₀ s.mem r := by
  refine ⟨h.stack, fun i hi o ho => ?_⟩
  obtain ⟨halign, hno⟩ := hin.page hi
  rw [h.pages i hi o ho, hsame.byte halign hno ho]

/-- An application that was loaded is the address space of a process. -/
theorem Loaded.procImage {p : proc} (h : Loaded lk mem p.pagetable p.trapframe n)
    (hsz : p.sz ≤ TRAPFRAME) :
    ProcImage lk mem p := by
  have h' : Loaded lk ({ mem := mem, freelist := 0 } : Mm).mem p.pagetable p.trapframe n := h
  refine ⟨hsz, h.trampoline, h.trapframe, fun q hq h1 h2 hm => ?_⟩
  obtain ⟨huser, hlt⟩ := loaded_users h' hq h1 h2 hm
  exact ⟨huser, (h.pages q hlt).decode.2.1⟩

/-- The process after `loader`. -/
def loadedProc (p : proc) (app : App) : proc :=
  { p with sz := (imagePages app.start app.stop + 1) * PGSIZE, ustack := USTACK_BOTTOM }

theorem loader_runs {id : Nat} {p : proc} (hp : k.pool i = p) (hs : Spaces lk k.mm R l X)
    (hr : R p.pagetable) (htf : IsFrame lk p.trapframe)
    (hptes : HasPtes k.mm.mem p.pagetable (procPtes lk p.trapframe fun _ => 0))
    (hzero : ∀ o < TRAPFRAME_REGS, k.mm.mem (p.trapframe + o) = 0) :
    Runs (fun _ => lk.apps[id]? = none ∨ ∃ app, lk.apps[id]? = some app ∧
      l.length + 3 < loadPagesNeeded app)
      (loader lk id i) k (fun _ k' => ∃ app, lk.apps[id]? = some app ∧
      Launched lk app k.mm.mem k' i ∧
        (∃ l', Within lk R X p.pagetable k.mm l k'.mm l') ∧
        k' = { k with mm := k'.mm, pool := Function.update k.pool i (loadedProc p app) }) := by
  subst hp
  unfold loader
  cases happ : lk.apps[id]? with
  | none => exact Or.inl rfl
  | some app =>
    dsimp only
    rw [Runs.bind_iff, runs_getProc, Runs.bind_iff, runs_onMm]
    apply ((bin_loader_runs hs hr app.below htf hptes).and
      (bin_loader_bytes hs hr htf app hptes)).mono
    · rintro e ⟨hfew, _⟩
      refine Or.inr ⟨app, rfl, ?_⟩
      unfold loadPagesNeeded
      omega
    rintro sz s' ⟨⟨rfl, hloaded, l', hfills⟩, himage, hregs⟩
    rw [Runs.bind_iff, runs_getProc, runs_setProc]
    refine ⟨app, rfl, ⟨?_, ?_, fun hin => ?_, fun o ho => ?_⟩, ⟨l', hfills.toWithin⟩, rfl⟩
    · dsimp only
      rw [Function.update_self]
    · dsimp only
      rw [Function.update_self]
      exact hloaded
    · dsimp only
      rw [Function.update_self]
      exact himage hin
    · dsimp only
      rw [Function.update_self]
      exact hregs hzero o ho

/-! ## proc.c -/

/-- The saved registers that `proc_pagetable` leaves are zeros. -/
theorem proc_pagetable_regs (hs : Spaces lk s R l X) (htf : X tf) :
    Runs (fun _ => True) (proc_pagetable lk tf) s (fun r s' =>
      r ≠ 0 → ∀ o < TRAPFRAME_REGS, s'.mem (tf + o) = 0) := by
  have hframe := (hs.kept tf htf).1
  unfold proc_pagetable
  apply (hs.uvmcreate_runs).bind
  rintro r s₁ (⟨_, rfl, rfl⟩ | ⟨hr, l₁, _, h₁, _⟩)
  · rw [if_pos rfl, Runs.panic_iff]
    trivial
  rw [if_neg hr]
  have hin : (fun p => R p ∨ p = r) r := Or.inr rfl
  have hhand : ([] : List Nat) = (if IsFrame lk lk.trampoline then [lk.trampoline] else []) ++
      [] := by
    rw [if_neg trampoline_not_frame]
    rfl
  apply ((h₁.space r hin).mappages_runs trampoline_page trampoline_in hframe.trampoline
    (by decide) (by decide) hhand).bind
  rintro r₁ s₂ ⟨l₂, hsp₂, hmoved₂, _⟩
  rw [ite_self] at hsp₂ hmoved₂
  obtain ⟨h₂, _⟩ := h₁.step hin (fun a ha => by cases ha) hsp₂ hmoved₂
  split
  · apply Runs.bind_iff.mpr
    exact Runs.of_forall fun _ _ _ hc => absurd rfl hc
  · have hkept : X tf ∧ tf ∉ ([] : List Nat) := ⟨htf, List.not_mem_nil⟩
    obtain ⟨_, hl₂, hno₂⟩ := h₂.kept tf (Or.inl hkept)
    have hfill : SameOn PGSIZE (· ≠ tf) s₂.mem (s₂.mem.fill tf TRAPFRAME_REGS 0) :=
      SameOn.fill hframe.aligned (by decide)
    obtain ⟨h₃, hall₃⟩ := h₂.write hfill (fun p hp hc => hno₂ p hp (Or.inl hc)) hl₂
    have htable₃ : ¬ TableOf (s₂.mem.fill tf TRAPFRAME_REGS 0) r tf := by
      rw [(hall₃ r hin).1.tableOf tf]
      exact fun hc => hno₂ r hin (Or.inl hc)
    rw [Runs.bind_iff, memset, Runs.modify_iff, trapframe_page]
    apply (h₃.mappages_runs hin (Or.inl hkept) (by decide) (by decide) (by decide)).bind
    rintro r₂ s₄ ⟨_, _, _, _, _, hsame₄⟩
    split
    · trivial
    · rw [Runs.pure_iff]
      intro _ o ho
      have hpage : o < PGSIZE := Nat.lt_trans ho (by decide)
      rw [hsame₄.byte hframe.aligned ⟨hl₂, htable₃⟩ hpage]
      exact Bytes.fill_inside (by omega) (by omega)

/-- The saved registers of a new process are zeros. -/
theorem allocproc_regs : Runs (fun _ => True) (allocproc lk) k (fun r k' =>
    ∀ np, r = some np → ∀ o < PGSIZE, k'.mm.mem ((k.pool np).trapframe + o) = 0) := by
  rw [runs_allocproc]
  refine ⟨fun _ np hnp => (by cases hnp), fun np _ => Runs.of_forall fun root s₁ _ =>
    ⟨fun _ => trivial, fun _ => ?_⟩⟩
  rintro np' hnp o ho
  obtain rfl := Option.some.inj hnp
  dsimp only
  exact Bytes.fill_inside (by omega) (by omega)

/-- Slot `i` gets a new address space. The files, and all other slots, are as
before, and so is the memory outside of the allocator. -/
structure Takes (lk : Link) (P : Nat → Prop) (k k' : Kernel) (i : Nat) : Prop where
  pages : ∃ l', PagesOk lk k' P l'
  others : ∀ j ≠ i, k'.pool j = k.pool j
  files : (k'.pool i).files = (k.pool i).files
  trapframe : (k'.pool i).trapframe = (k.pool i).trapframe
  live : ¬ Dead (k'.pool i)
  filepool : k'.filepool = k.filepool
  pipes : k'.pipes = k.pipes
  current : k'.current_proc = k.current_proc
  outside : SameOn PGSIZE (fun a => ¬ IsFrame lk a) k.mm.mem k'.mm.mem

theorem Within.outside (h : Within lk R X r s l s₁ l₁) (hs : Spaces lk s R l X) (hr : R r) :
    SameOn PGSIZE (fun a => ¬ IsFrame lk a) s.mem s₁.mem := by
  apply (moved_nil.mp h.moved).2.mono
  rintro a ha (hc | hc)
  · exact ha (hs.free.frames a hc)
  · exact ha (hc.frame (hs.space r hr))

theorem NewImage.outside (h : NewImage lk R X tf s l r s₁ l₁) (hs : Spaces lk s R l X)
    (htf : X tf) :
    SameOn PGSIZE (fun a => ¬ IsFrame lk a) s.mem s₁.mem := by
  apply h.same.mono
  intro a ha
  refine ⟨fun hc => ha (hs.free.frames a hc), ?_⟩
  rintro rfl
  exact ha (hs.kept a htf).1

theorem imagePages_size (app : App) : (imagePages app.start app.stop + 1) * PGSIZE ≤ TRAPFRAME := by
  have hle := @imagePages_le app.start _ app.below
  rw [trapframe_page, trapframePage]
  simp only [PGSIZE_eq]
  omega

/-- The application of a number. -/
theorem get_id_by_name_app {name : CStr} {id : Nat} (h : get_id_by_name lk name = some id) :
    ∃ app, lk.apps[id]? = some app := by
  have hfound := List.find?_some h
  split at hfound
  · rename_i app happ
    exact ⟨app, happ⟩
  · cases hfound

/-- The pages that are free once the address space of process `i` is gone. -/
structure FreedPages (lk : Link) (k : Kernel) (i : Nat) (l l' : List Nat) : Prop where
  nodup : l'.Nodup
  mem_iff : ∀ a, a ∈ l' ↔ a ∈ l ∨ TableOf k.mm.mem (k.pool i).pagetable a ∨
    ∃ q < npages (k.pool i).sz, MapsTo lk k.mm.mem (k.pool i).pagetable q a

/-- How `exec` may stop: the old address space cannot be given back, or there are
too few pages for the new one. -/
def ExecStop (lk : Link) (k : Kernel) (l : List Nat) (name : CStr) : Prop :=
  ¬ Freeable lk k.mm.mem (k.pool k.current_proc).pagetable (k.pool k.current_proc).sz ∨
    ∃ id app l', get_id_by_name lk name = some id ∧ lk.apps[id]? = some app ∧
      FreedPages lk k k.current_proc l l' ∧ l'.length < loadPagesNeeded app

/-- How `spawn` may stop: there is no free slot, or there are too few pages. -/
def SpawnStop (lk : Link) (k : Kernel) (l : List Nat) (name : CStr) : Prop :=
  freeSlot k.pool = none ∨ l.length < 3 ∨
    ∃ id app, get_id_by_name lk name = some id ∧ lk.apps[id]? = some app ∧
    l.length < loadPagesNeeded app

/-- `exec` gives the current process a new address space with the application. -/
theorem PagesOk.exec_runs (h : PagesOk lk k P l) (hcur : k.current_proc < NPROC)
    (hlive : ¬ Dead (k.pool k.current_proc))
    (name : CStr) : Runs (fun _ => ExecStop lk k l name) (exec lk name) k (fun ret k' =>
      (ret = -1 ∧ k' = k ∧ get_id_by_name lk name = none) ∨
        (ret = 0 ∧ Takes lk P k k' k.current_proc ∧ ∃ id app,
        get_id_by_name lk name = some id ∧ lk.apps[id]? = some app ∧
        Launched lk app k.mm.mem k' k.current_proc ∧
        ∃ root, k'.pool k.current_proc =
        loadedProc { k.pool k.current_proc with sz := 0, pagetable := root } app)) := by
  obtain ⟨hr, hne⟩ := h.root hcur hlive
  have hframe := h.frames _ hcur
  unfold exec ExecStop
  cases hid : get_id_by_name lk name with
  | none => exact Or.inl ⟨rfl, rfl, rfl⟩
  | some id =>
    dsimp only
    obtain ⟨app₀, happ₀⟩ := get_id_by_name_app hid
    rw [Runs.bind_iff, runs_curr_proc, Runs.bind_iff, runs_onMm]
    apply (proc_freepagetable_runs h.spaces hr (h.image _ hcur hne).size).mono fun _ hno =>
      Or.inl hno
    rintro _ s₁ ⟨_, l₁, hgone⟩
    have hfreed : FreedPages lk k k.current_proc l l₁ := ⟨hgone.spaces.free.nodup, hgone.pages⟩
    have hstop : l₁.length < loadPagesNeeded app₀ → ExecStop lk k l name :=
      fun hfew => Or.inr ⟨id, app₀, l₁, hid, happ₀, hfreed, hfew⟩
    unfold ExecStop at hstop
    rw [hid] at hstop
    -- In between, the slot has no address space, like that of a process that ended.
    generalize hk₁ : ({ k with
      mm := s₁
      pool := Function.update k.pool k.current_proc
        { k.pool k.current_proc with pagetable := 0, state := .UNUSED } } : Kernel) = k₁
    have h₁ : PagesOk lk k₁ P l₁ := by
      rw [← hk₁]
      exact h.leave hcur hne hgone rfl rfl rfl (Or.inl rfl)
    have hmm : k₁.mm = s₁ := by
      rw [← hk₁]
    have hslot : k₁.pool k.current_proc =
        { k.pool k.current_proc with pagetable := 0, state := .UNUSED } := by
      rw [← hk₁]
      exact Function.update_self ..
    have hkept : Reserved k₁ P (k.pool k.current_proc).trapframe := by
      refine Or.inr ⟨k.current_proc, hcur, ?_, ?_⟩
      · rw [hslot]
      · rw [hslot]
    have hs₁ := h₁.spaces
    rw [hmm] at hs₁
    rw [Runs.bind_iff, runs_onMm]
    have hthree : 3 ≤ loadPagesNeeded app₀ := Nat.le_add_right ..
    apply ((proc_pagetable_runs hs₁ hkept).and (proc_pagetable_regs hs₁ hkept)).mono
    · rintro e ⟨⟨_, hnil⟩, _⟩
      apply hstop
      rw [hnil, List.length_nil]
      omega
    rintro r s₂ ⟨⟨rfl, l₂, h₂⟩ | ⟨hr₂, l₂, h₂⟩, hzero⟩
    · rw [Runs.bind_iff, runs_modifyCurr, if_pos rfl, Runs.panic_iff]
      have := h₂.few
      exact hstop (by omega)
    rw [Runs.bind_iff, runs_modifyCurr, if_neg hr₂, Runs.bind_iff, Runs.get_iff, Runs.bind_iff]
    dsimp only
    generalize hq : ({ k.pool k.current_proc with sz := 0, pagetable := r } : proc) = q
    have hqroot : q.pagetable = r := by
      rw [← hq]
    have hqtf : q.trapframe = (k.pool k.current_proc).trapframe := by
      rw [← hq]
    have hqfiles : q.files = (k.pool k.current_proc).files := by
      rw [← hq]
    have hqlive : ¬ Dead q := by
      rw [← hq]
      exact hlive
    apply (loader_runs (Function.update_self ..) h₂.spaces (Or.inr hqroot)
      (by rw [hqtf]; exact hframe)
      (by rw [hqroot, hqtf]; exact h₂.ptes) (by rw [hqtf]; exact hzero hr₂)).mono
    · rintro e (hnone | ⟨app, happ, hfew⟩)
      · rw [happ₀] at hnone
        cases hnone
      · obtain rfl := Option.some.inj (happ₀.symm.trans happ)
        have := h₂.count
        exact hstop (by omega)
    rintro _ k₃ ⟨app, happ, hbegins, ⟨l₃, h₃⟩, hk₃⟩
    rw [hqroot] at h₃
    dsimp only at hk₃ h₃
    rw [Function.update_idem] at hk₃
    have hself : k₃.pool k.current_proc = loadedProc q app := by
      rw [hk₃]
      exact Function.update_self ..
    have houtside : SameOn PGSIZE (fun a => ¬ IsFrame lk a) k.mm.mem s₂.mem := by
      apply SameOn.trans (hgone.same.mono _) (h₂.outside hs₁ hkept)
      intro a ha
      exact ⟨fun hc => ha (h.spaces.free.frames a hc),
        fun hc => ha (hc.frame (h.spaces.space _ hr))⟩
    have hpool : k₃.pool = Function.update k₁.pool k.current_proc (loadedProc q app) := by
      rw [hk₃, ← hk₁]
      dsimp only
      rw [Function.update_idem]
    have hloaded := hbegins.loaded
    rw [Runs.pure_iff]
    refine Or.inr ⟨rfl, ⟨⟨l₃, h₁.gain hcur hr₂ ?_ h₂.fresh ?_ hpool hqroot ?_ hqlive ?_⟩,
      fun j hj => ?_, ?_, ?_, ?_, ?_, ?_, ?_, ?_⟩, id, app, rfl, happ, ?_⟩
    · rw [hslot]
      exact h₃.spaces
    · rw [hmm]
      exact h₂.others.trans (h₃.others.all h₂.fresh)
    · rw [hslot]
      exact hqtf
    · rw [hself] at hloaded
      exact hloaded.procImage (imagePages_size app)
    · rw [hk₃]
      exact Function.update_of_ne hj ..
    · rw [hself]
      exact hqfiles
    · rw [hself]
      exact hqtf
    · rw [hself]
      exact hqlive
    · rw [hk₃]
    · rw [hk₃]
    · rw [hk₃]
    · exact houtside.trans (h₃.outside h₂.spaces (Or.inr rfl))
    · exact ⟨⟨hbegins.size, hloaded, fun hin => (hbegins.image hin).congr hin houtside,
        hbegins.registers⟩, r, by rw [hself, ← hq]⟩

/-- A slot that got an empty address space gets the application. The kept pages
`P` are as before. -/
theorem PagesOk.loads {root pid id np : Nat} {s₁ : Mm} {l₁ : List Nat} {q : proc}
    (h : PagesOk lk k P l) (hnp : np < NPROC) (hfree : (k.pool np).pagetable = 0) (hroot : root ≠ 0)
    (h₁ : NewImage lk (Root k) (Reserved k P) (k.pool np).trapframe k.mm l root s₁ l₁)
    (hregs : ∀ o < TRAPFRAME_REGS, s₁.mem ((k.pool np).trapframe + o) = 0)
    (hqroot : q.pagetable = root) (hqtf : q.trapframe = (k.pool np).trapframe) (hqlive : ¬ Dead q)
    (hqfiles : q.files = (k.pool np).files) :
    Runs (fun _ => lk.apps[id]? = none ∨ ∃ app, lk.apps[id]? = some app ∧
      l.length < loadPagesNeeded app) (loader lk id np)
      { k with mm := s₁, PID := pid, pool := Function.update k.pool np q }
      (fun _ k' => ∃ app, lk.apps[id]? = some app ∧
        Launched lk app k.mm.mem k' np ∧ Takes lk P k k' np ∧ SameOn PGSIZE P k.mm.mem k'.mm.mem ∧
        k' = { k with
          mm := k'.mm
          PID := pid
          pool := Function.update k.pool np (loadedProc q app) }) := by
  have hkept : Reserved k P (k.pool np).trapframe := Or.inr ⟨np, hnp, hfree, rfl⟩
  have hframe := h.frames np hnp
  have houtside := h₁.outside h.spaces hkept
  apply (loader_runs (Function.update_self ..) h₁.spaces (Or.inr hqroot)
    (by rw [hqtf]; exact hframe)
    (by rw [hqroot, hqtf]; exact h₁.ptes) (by rw [hqtf]; exact hregs)).mono
  · rintro e (hnone | ⟨app, happ, hfew⟩)
    · exact Or.inl hnone
    · have := h₁.count
      exact Or.inr ⟨app, happ, by omega⟩
  rintro _ k₃ ⟨app, happ, hbegins, ⟨l₃, h₃⟩, hk₃⟩
  rw [hqroot] at h₃
  dsimp only at hk₃ h₃
  rw [Function.update_idem] at hk₃
  have hself : k₃.pool np = loadedProc q app := by
    rw [hk₃]
    exact Function.update_self ..
  have hloaded := hbegins.loaded
  have hpool : k₃.pool = Function.update k.pool np (loadedProc q app) := by
    rw [hk₃]
  -- The kept pages are not free, and not those of the new address space.
  have hkeep : SameOn PGSIZE P k.mm.mem k₃.mm.mem := by
    refine (h₁.same.mono fun a ha => ?_).trans ((moved_nil.mp h₃.moved).2.mono fun a ha => ?_)
    · refine ⟨(h.spaces.kept a (Or.inl ha)).2.1, ?_⟩
      rintro rfl
      exact h.pipes np hnp ha
    · obtain ⟨_, hl, hno⟩ := h₁.spaces.kept a ⟨Or.inl ha, fun hc => h.pipes np hnp (hc ▸ ha)⟩
      rintro (hc | hc)
      · exact hl hc
      · exact hno root (Or.inr rfl) hc
  refine ⟨app, happ, ⟨hbegins.size, hloaded, fun hin => (hbegins.image hin).congr hin houtside,
    hbegins.registers⟩,
    ⟨⟨l₃, h.gain hnp hroot h₃.spaces h₁.fresh (h₁.others.trans (h₃.others.all h₁.fresh)) hpool
      hqroot hqtf hqlive ?_⟩,
      fun j hj => ?_, ?_, ?_, ?_, ?_, ?_, ?_, houtside.trans (h₃.outside h₁.spaces (Or.inr rfl))⟩,
      hkeep, hk₃⟩
  · rw [hself] at hloaded
    exact hloaded.procImage (imagePages_size app)
  · rw [hk₃]
    exact Function.update_of_ne hj ..
  · rw [hself]
    exact hqfiles
  · rw [hself]
    exact hqtf
  · rw [hself]
    exact hqlive
  · rw [hk₃]
  · rw [hk₃]
  · rw [hk₃]

/-- `spawn` takes a slot, also when there is no such application. -/
theorem PagesOk.spawn_runs (h : PagesOk lk k P l) (name : CStr) :
    Runs (fun _ => SpawnStop lk k l name) (spawn lk name) k (fun ret k' =>
      ∃ np, freeSlot k.pool = some np ∧ Takes lk P k k' np ∧
        ((ret = -1 ∧ get_id_by_name lk name = none) ∨
        (ret = k.PID ∧ ∃ id app, get_id_by_name lk name = some id ∧ lk.apps[id]? = some app ∧
          Launched lk app k.mm.mem k' np ∧ ∃ root,
            k'.pool np =
            loadedProc { newProc k np root with parent := some k.current_proc, state := .RUNNABLE }
            app))) := by
  rw [runs_spawn]
  cases hslot : freeSlot k.pool with
  | none =>
    rw [runs_allocproc_full hslot]
    exact ⟨fun _ => Or.inl hslot, fun _ _ hc => by cases hc⟩
  | some np =>
    have hnp := freeSlot_lt hslot
    have hfree : (k.pool np).pagetable = 0 := (h.rooted np hnp).mpr (Or.inl (freeSlot_some hslot))
    have hkept : Reserved k P (k.pool np).trapframe := Or.inr ⟨np, hnp, hfree, rfl⟩
    apply ((allocproc_runs h.spaces hslot hkept).and allocproc_regs).mono fun _ hfew =>
      Or.inr (Or.inl hfew.1)
    rintro _ _ ⟨⟨rfl, root, s₁, l₁, hroot, h₁, rfl⟩, hzero⟩
    refine ⟨fun hc => (by cases hc), ?_⟩
    rintro _ _ ⟨⟩ rfl
    have hregs : ∀ o < TRAPFRAME_REGS, s₁.mem ((k.pool np).trapframe + o) = 0 :=
      fun o ho => hzero np rfl o (Nat.lt_trans ho (by decide))
    have houtside := h₁.outside h.spaces hkept
    dsimp only
    rw [Function.update_self, Function.update_idem]
    generalize hq :
      ({ newProc k np root with parent := some k.current_proc, state := .RUNNABLE } : proc) = q
    have hqroot : q.pagetable = root := by
      rw [← hq]
      rfl
    have hqtf : q.trapframe = (k.pool np).trapframe := by
      rw [← hq]
      rfl
    have hqlive : ¬ Dead q := by
      rw [← hq]
      exact not_dead_runnable
    have hqfiles : q.files = (k.pool np).files := by
      rw [← hq]
      rfl
    have hqsz : q.sz = 0 := by
      rw [← hq]
      rfl
    have hqpid : (newProc k np root).pid = k.PID := rfl
    constructor
    · intro hid
      have hself : Function.update k.pool np q np = q := Function.update_self ..
      have hloaded : Loaded lk s₁.mem q.pagetable q.trapframe 0 := by
        rw [hqroot, hqtf]
        exact h₁.loaded
      refine ⟨np, rfl,
        ⟨⟨l₁, h.gain hnp hroot h₁.spaces h₁.fresh h₁.others rfl hqroot hqtf hqlive ?_⟩,
        fun j hj => Function.update_of_ne hj .., ?_, ?_, ?_, rfl, rfl, rfl, houtside⟩,
        Or.inl ⟨rfl, hid⟩⟩
      · exact hloaded.procImage (by rw [hqsz]; exact Nat.zero_le _)
      · dsimp only
        rw [hself, hqfiles]
      · dsimp only
        rw [hself, hqtf]
      · dsimp only
        rw [hself]
        exact hqlive
    · intro id hid
      apply (h.loads hnp hfree hroot h₁ hregs hqroot hqtf hqlive hqfiles).mono
      · rintro e (hnone | ⟨app, happ, hfew⟩)
        · obtain ⟨app, happ⟩ := get_id_by_name_app hid
          rw [happ] at hnone
          cases hnone
        · exact Or.inr (Or.inr ⟨id, app, hid, happ, hfew⟩)
      rintro _ k₃ ⟨app, happ, hbegins, htakes, _, hk₃⟩
      refine ⟨np, rfl, htakes, Or.inr ⟨by rw [hqpid], id, app, hid, happ, hbegins, root, ?_⟩⟩
      rw [hk₃, ← hq]
      exact Function.update_self ..

end ThuKernel
