-- `spawn` makes the process that `fork` and then `exec` in the child make: the
-- same memory, size and registers, on other pages.
import ThuKernel.Kernel.PageRuns

namespace ThuKernel

/-- `trapframe->a0 = ret`, at the end of `syscall` in process `i`. -/
def setA0 (k : Kernel) (i : Nat) (ret : Int) : Kernel :=
  { k with
    mm := { k.mm with
      mem := k.mm.mem.put64 ((k.pool i).trapframe + 112) (BitVec.ofInt 64 ret).toNat } }

/-- Two processes that look the same from user mode: the same size, the same
pages with the same flags and bytes, and the same registers. -/
structure SameView (k : Kernel) (i : Nat) (k' : Kernel) (i' : Nat) : Prop where
  size : (k'.pool i').sz = (k.pool i).sz
  users : ∀ q < 512 ^ 3, IsUser k'.mm.mem (k'.pool i').pagetable q ↔
    IsUser k.mm.mem (k.pool i).pagetable q
  flags : ∀ q < 512 ^ 3, IsUser k.mm.mem (k.pool i).pagetable q →
    PTE_FLAGS (pteAt k'.mm.mem (k'.pool i').pagetable q) =
    PTE_FLAGS (pteAt k.mm.mem (k.pool i).pagetable q)
  bytes : ∀ q < 512 ^ 3, IsUser k.mm.mem (k.pool i).pagetable q → ∀ o < PGSIZE,
    k'.mm.mem (frameAt k'.mm.mem (k'.pool i').pagetable q + o) =
    k.mm.mem (frameAt k.mm.mem (k.pool i).pagetable q + o)
  registers : ∀ o < TRAPFRAME_REGS, k'.mm.mem ((k'.pool i').trapframe + o) =
    k.mm.mem ((k.pool i).trapframe + o)

variable {lk : Link} {E : Stop → Prop} {k k' k₁ k₂ k₃ : Kernel} {l l₁ : List Nat} {P : Nat → Prop}
  {app : App}
variable {i i' np id r tf n m root : Nat} {mem mem' : Bytes} {s s₁ : Mm} {R X : Nat → Prop}
  {name : CStr}

/-! ## What a process sees -/

/-- The pages of an application that was loaded are those below its size. -/
theorem Loaded.user_iff (h : Loaded lk s.mem r tf n) (htf : IsFrame lk tf) {q : Nat}
    (hq : q < 512 ^ 3) :
    IsUser s.mem r q ↔ q < n := by
  constructor
  · intro hu
    refine (loaded_users h hq ?_ ?_ hu.1).2
    · rintro rfl
      exact not_user_trampoline h.trampoline hu
    · rintro rfl
      exact not_user_trapframe htf h.trapframe hu
  · intro hlt
    exact ⟨(h.pages q hlt).decode.1, isUserPte_user (h.pages q hlt)⟩

/-- An application that starts looks the same in every slot. -/
theorem Launched.sameView (h : Launched lk app mem k i) (h' : Launched lk app mem' k' i')
    (hin : app.Inside lk) (htf : IsFrame lk (k.pool i).trapframe)
    (htf' : IsFrame lk (k'.pool i').trapframe)
    (hsame : SameOn PGSIZE (fun a => ¬ IsFrame lk a) mem mem') : SameView k i k' i' := by
  have himage := h.image hin
  have himage' := (h'.image hin).congr hin hsame
  refine ⟨h'.size.trans h.size.symm, fun q hq => ?_, fun q hq hu => ?_, fun q hq hu o ho => ?_,
    fun o ho => ?_⟩
  · rw [h.loaded.user_iff htf hq, h'.loaded.user_iff htf' hq]
  · have hlt := (h.loaded.user_iff htf hq).mp hu
    rw [(h.loaded.pages q hlt).decode.2.2, (h'.loaded.pages q hlt).decode.2.2]
  · have hlt := (h.loaded.user_iff htf hq).mp hu
    cases q with
    | zero => rw [himage.stack o ho, himage'.stack o ho]
    | succ j =>
      rw [Nat.add_comm j 1, himage.pages j (by omega) o ho, himage'.pages j (by omega) o ho]
  · rw [h.registers o ho, h'.registers o ho]

/-- The result 0 of `exec` is what the saved `a0` is already. -/
theorem firstRegs_a0 {o : Nat} : firstRegs.put64 112 0 o = firstRegs o := by
  by_cases hin : 112 ≤ o ∧ o < 120
  · have hzero : firstRegs o = 0 := by
      unfold firstRegs Bytes.put64
      rw [Bytes.putLE_outside (by omega), Bytes.putLE_outside (by omega)]
    rw [hzero]
    unfold Bytes.put64 Bytes.putLE
    rw [if_pos hin, Nat.zero_div]
    rfl
  · unfold Bytes.put64
    exact Bytes.putLE_outside (by omega)

theorem Launched.setA0 (h : Launched lk app mem k i) (hp : PagesOk lk k P l) (hi : i < NPROC)
    (hlive : ¬ Dead (k.pool i)) :
    Launched lk app mem (setA0 k i 0) i := by
  obtain ⟨hr, hne⟩ := hp.root hi hlive
  have hframe := hp.frames i hi
  have hput : SameOn PGSIZE (· ≠ (k.pool i).trapframe) k.mm.mem
      (k.mm.mem.put64 ((k.pool i).trapframe + 112) 0) :=
    SameOn.put64 hframe.aligned (by decide)
  obtain ⟨htable, hl⟩ := hp.spaces.mapped_apart hr (hp.maps_tf hi hne)
  obtain ⟨_, hall⟩ := hp.spaces.write hput htable hl
  obtain ⟨_, hptes⟩ := hall _ hr
  have hn : imagePages app.start app.stop + 1 ≤ trapframePage := by
    have hle := @imagePages_le app.start _ app.below
    unfold trapframePage
    omega
  -- The pages of the user are not that of the registers.
  have hother : ∀ q < imagePages app.start app.stop + 1, ∀ o < PGSIZE,
      (k.mm.mem.put64 ((k.pool i).trapframe + 112) 0)
        (frameAt (k.mm.mem.put64 ((k.pool i).trapframe + 112) 0) (k.pool i).pagetable q + o) =
      k.mm.mem (frameAt k.mm.mem (k.pool i).pagetable q + o) := by
    intro q hq o ho
    have hlimit : q < 512 ^ 3 := by
      unfold trapframePage at hn
      omega
    have hleaf : UserLeaf k i q (frameAt k.mm.mem (k.pool i).pagetable q) :=
      ⟨⟨hi, hlive, hlimit, (h.loaded.pages q hq).decode.1, rfl⟩,
        isUserPte_user (h.loaded.pages q hq)⟩
    have hsame : frameAt (k.mm.mem.put64 ((k.pool i).trapframe + 112) 0) (k.pool i).pagetable q =
        frameAt k.mm.mem (k.pool i).pagetable q := by
      unfold frameAt
      rw [hptes q hlimit]
    rw [hsame]
    exact hput.byte (hp.userLeaf hleaf).2.alloc.aligned (hp.userLeaf_regs hleaf hi).symm ho
  refine ⟨h.size, h.loaded.congr hptes hn, fun hin => ⟨fun o ho => ?_, fun j hj o ho => ?_⟩,
    fun o ho => ?_⟩
  · rw [← (h.image hin).stack o ho]
    exact hother 0 (Nat.zero_lt_succ _) o ho
  · rw [← (h.image hin).pages j hj o ho]
    exact hother (1 + j) (by omega) o ho
  · rw [← firstRegs_a0]
    exact put64_at (h.registers o ho)

/-! ## The child of fork -/

/-- The address space of a child can be given back, and what it took is free
again then. -/
theorem Child.freeable {sz : Nat} (h : Child lk R X tf r m root s l s₁ l₁) (htf : IsFrame lk tf)
    (hm : m = npages sz) (hle : m ≤ trapframePage) : Freeable lk s₁.mem root sz := by
  have hleaf : ∀ q < 512 ^ 3, IsMapped s₁.mem root q → PTE_FLAGS (pteAt s₁.mem root q) ≠ PTE_V :=
    fun q hq => h.space.leafAt hq
  have htop := h.trampoline hle
  have hregs := h.trapframe htf hle
  refine ⟨⟨htop, hleaf _ (by decide) htop, fun hc => by cases hc⟩,
    ⟨hregs.mapped, hleaf _ (by decide) hregs.mapped, fun hc => by cases hc⟩, fun q hq => ?_⟩
  have hmaps := h.mapsTo hle (hm ▸ hq)
  exact ⟨hmaps.mapped, hleaf q hmaps.limit hmaps.mapped, fun _ => hmaps.alloc⟩

theorem Child.freed {l₂ : List Nat} (h : Child lk R X tf r m root s l s₁ l₁)
    (hs : Spaces lk s R l X) (htf : X tf)
    (hl₂ : ∀ a, a ∈ l₂ ↔ a ∈ l₁ ∨ TableOf s₁.mem root a ∨ ∃ q < m, MapsTo lk s₁.mem root q a) :
    l.length ≤ l₂.length := by
  obtain ⟨hframe, htfl, _⟩ := hs.kept tf htf
  have hsub : l ⊆ l₂ := by
    intro a ha
    rw [hl₂]
    rcases (h.owned a).mpr (Or.inl ha) with hc | hc | ⟨q, hc⟩
    · exact Or.inl hc
    · exact Or.inr (Or.inl hc)
    · refine Or.inr (Or.inr ⟨q, ?_, hc⟩)
      by_contra hge
      have hm := hc.mapped
      have hf := hc.frame
      have hpte := h.rest q hc.limit (Nat.le_of_not_lt hge)
      unfold IsMapped at hm
      unfold frameAt at hf
      rw [hpte] at hm hf
      unfold procPtes at hm hf
      split at hf
      · rw [(leafPte_decode lk.aligned (by decide)).1,
          Nat.mod_eq_of_lt hframe.trampoline.below] at hf
        have := hc.alloc
        rw [← hf] at this
        exact trampoline_not_frame this
      · rename_i h1
        rw [if_neg h1] at hm
        split at hf
        · rw [(leafPte_decode hframe.aligned (by decide)).1,
            Nat.mod_eq_of_lt hframe.isPage.below] at hf
          rw [← hf] at ha
          exact htfl ha
        · rename_i h2
          rw [if_neg h2, Nat.zero_testBit] at hm
          cases hm
  exact (hs.free.nodup.subperm hsub).length_le

/-! ## Both ways -/

/-- There is a free slot, the pages below the size are mapped, and there are
pages for a copy of them and for the application. -/
structure CanStart (lk : Link) (k : Kernel) (l : List Nat) (app : App) (np : Nat) : Prop where
  slot : freeSlot k.pool = some np
  mapped : ∀ q < npages (k.pool k.current_proc).sz,
  IsMapped k.mm.mem (k.pool k.current_proc).pagetable q
  copy : 3 + (npages (k.pool k.current_proc).sz + tablesFor (npages (k.pool k.current_proc).sz)) ≤
    l.length
  load : loadPagesNeeded app ≤ l.length

theorem CanStart.spawns (h : CanStart lk k l app np) (hp : PagesOk lk k P l)
    (hid : get_id_by_name lk name = some id) (happ : lk.apps[id]? = some app) : ∃ k₁,
    spawn lk name k = .ok ((k.PID : Int), k₁) ∧ Takes lk P k k₁ np ∧
      Launched lk app k.mm.mem k₁ np ∧ ∃ root,
        k₁.pool np =
        loadedProc { newProc k np root with parent := some k.current_proc, state := .RUNNABLE }
        app := by
  have hstop : ∀ e : Stop, ¬ SpawnStop lk k l name := by
    rintro e (hc | hc | ⟨id', app', hid', happ', hc⟩)
    · rw [h.slot] at hc
      cases hc
    · have := h.copy
      omega
    · obtain rfl := Option.some.inj (hid.symm.trans hid')
      obtain rfl := Option.some.inj (happ.symm.trans happ')
      have := h.load
      omega
  obtain ⟨ret, k₁, hrun, np', hslot, htakes, hcase⟩ := (hp.spawn_runs name).exists_ok hstop
  obtain rfl := Option.some.inj (h.slot.symm.trans hslot)
  rcases hcase with ⟨_, hnone⟩ | ⟨rfl, id', app', hid', happ', hbegins⟩
  · rw [hid] at hnone
    cases hnone
  · obtain rfl := Option.some.inj (hid.symm.trans hid')
    obtain rfl := Option.some.inj (happ.symm.trans happ')
    exact ⟨k₁, hrun, htakes, hbegins⟩

/-- `fork` returns, and what it made can start another application. -/
theorem CanStart.forks (h : CanStart lk k l app np) (hp : PagesOk lk k P l)
    (hcur : k.current_proc < NPROC) (hlive : ¬ Dead (k.pool k.current_proc))
    (hid : get_id_by_name lk name = some id) (happ : lk.apps[id]? = some app) : ∃ k₂ l₂, fork lk k =
    .ok ((k.PID : Int), k₂) ∧ PagesOk lk k₂ P l₂ ∧
      ¬ Dead (k₂.pool np) ∧ SameOn PGSIZE (fun a => ¬ IsFrame lk a) k.mm.mem k₂.mm.mem ∧
      ¬ ExecStop lk (k₂.switch np) l₂ name ∧
      ∃ root files, k₂.pool np = forkedProc k np root files := by
  have hforking := hp.forking hcur hlive h.slot
  have hnp := npages_trapframe hforking.size
  have hstop : ∀ e : Stop, ¬ (ForkStop k (k.pool k.current_proc).pagetable
      (npages (k.pool k.current_proc).sz) l ∧ True) := by
    rintro e ⟨hc | ⟨v, hv, hun, _⟩, _⟩
    · have := h.copy
      omega
    · exact hun (h.mapped v hv)
  obtain ⟨ret, k₂, hrun, ⟨rfl, _, root, l', m, hchild, hcase⟩, ⟨l₂, hpages⟩, _⟩ :=
    ((fork_runs hforking rfl rfl).and (hp.fork_runs hcur hlive)).exists_ok hstop
  rcases hcase with ⟨rfl, _, hnew, _, hforked⟩ | ⟨_, _, v, hv, _, hfew⟩
  · obtain ⟨q', hpool, rfl, hsz, htf, _⟩ := hnew.pool
    have hslot : k₂.pool np = q' := by
      rw [hpool, Function.update_self]
    have hframe := (hforking.spaces.kept _ hforking.kept).1
    have hroot : q'.pagetable ≠ 0 := (hchild.space.tables _ (tableOf_root _ _)).ne_zero
    have hnp' := freeSlot_lt h.slot
    have hl₂ : l₂ = l' := hpages.spaces.free.unique hchild.space.space.free
    refine ⟨k₂, l₂, hrun, hpages, fun hc => hroot ?_, hchild.same.mono fun a ha => ?_,
      ?_, _, hforked⟩
    · rw [← hslot]
      exact (hpages.rooted np hnp').mpr hc
    · refine ⟨fun hc => ha (hp.spaces.free.frames a hc), ?_⟩
      rintro rfl
      exact ha hframe
    · rintro (hc | ⟨id', app', l₃, hid', happ', hfreed, hfew⟩)
      · apply hc
        change Freeable lk k₂.mm.mem (k₂.pool np).pagetable (k₂.pool np).sz
        rw [hslot]
        exact hchild.freeable hframe (by rw [hsz]) hnp
      · obtain rfl := Option.some.inj (hid.symm.trans hid')
        obtain rfl := Option.some.inj (happ.symm.trans happ')
        have hmem := hfreed.mem_iff
        change ∀ a, a ∈ l₃ ↔ a ∈ l₂ ∨ TableOf k₂.mm.mem (k₂.pool np).pagetable a ∨
          ∃ q < npages (k₂.pool np).sz, MapsTo lk k₂.mm.mem (k₂.pool np).pagetable q a at hmem
        rw [hslot, hsz, hl₂] at hmem
        have := hchild.freed hforking.spaces hforking.kept hmem
        have := h.load
        omega
  · have := tablesFor_mono (v := v + 1) hv
    have := h.copy
    omega

/-- With a free slot and enough pages, `spawn` of an application, and `fork` with
`exec` of it in the child, both succeed. The two children look the same from
user mode, and in the same slot all is the same but the page table and the files: those
of the slot, and those that `fork` gave. -/
theorem spawn_is_fork_then_exec (h : PagesOk lk k P l) (hcur : k.current_proc < NPROC)
    (hlive : ¬ Dead (k.pool k.current_proc)) (hid : get_id_by_name lk name = some id)
    (happ : lk.apps[id]? = some app) (hin : app.Inside lk) (hcan : CanStart lk k l app np) :
    ∃ k₁ k₂ k₃, spawn lk name k = .ok ((k.PID : Int), k₁) ∧ fork lk k = .ok ((k.PID : Int), k₂) ∧
      exec lk name (k₂.switch np) = .ok (0, k₃) ∧ SameView k₁ np (setA0 k₃ np 0) np ∧
      k₃.pool np =
      { k₁.pool np with pagetable := (k₃.pool np).pagetable, files := (k₃.pool np).files } ∧
      (k₁.pool np).files = (k.pool np).files ∧ (k₃.pool np).files = (k₂.pool np).files := by
  obtain ⟨k₁, hspawn, htakes₁, hbegins₁, root₁, hslot₁⟩ := hcan.spawns h hid happ
  obtain ⟨k₂, l₂, hfork, hpages₂, hlive₂, hsame, hstop, root₂, files₂, hslot₂⟩ :=
    hcan.forks h hcur hlive hid happ
  have hnp := freeSlot_lt hcan.slot
  have hswitch : PagesOk lk (k₂.switch np) P l₂ :=
    hpages₂.same rfl (fun _ ha => ha) (fun _ => rfl) (fun _ => rfl) (fun _ => rfl) fun _ => Iff.rfl
  obtain ⟨ret, k₃, hexec, hcase⟩ := (hswitch.exec_runs hnp hlive₂ name).exists_ok fun _ => hstop
  rcases hcase with ⟨_, _, hnone⟩ | ⟨rfl, htakes₃, id', app', hid', happ', hbegins₃, root₃, hslot₃⟩
  · rw [hid] at hnone
    cases hnone
  obtain rfl := Option.some.inj (hid.symm.trans hid')
  obtain rfl := Option.some.inj (happ.symm.trans happ')
  obtain ⟨l₁, hpages₁⟩ := htakes₁.pages
  obtain ⟨l₃, hpages₃⟩ := htakes₃.pages
  refine ⟨k₁, k₂, k₃, hspawn, hfork, hexec, ?_, ?_, htakes₁.files, htakes₃.files⟩
  swap
  · have hslot₃ : k₃.pool np = loadedProc { k₂.pool np with sz := 0, pagetable := root₃ } app :=
      hslot₃
    rw [hslot₃, hslot₂, hslot₁]
    rfl
  exact hbegins₁.sameView (hbegins₃.setA0 hpages₃ hnp htakes₃.live) hin (hpages₁.frames np hnp)
    (hpages₃.frames np hnp) hsame

/-! ## One application of one page -/

section OneApp

def oneAppLink : Link := { pageLink with apps := [onePageApp] }

/-- The running process of `runningKernel` starts the only application. -/
theorem spawn_is_fork_then_exec_one_page :
    ∃ k k₁ k₂ k₃ : Kernel, spawn oneAppLink onePageApp.name k = .ok ((k.PID : Int), k₁) ∧
    fork oneAppLink k = .ok ((k.PID : Int), k₂) ∧ exec oneAppLink onePageApp.name (k₂.switch 1) =
    .ok (0, k₃) ∧ SameView k₁ 1 (setA0 k₃ 1 0) 1 ∧
    k₃.pool 1 =
    { k₁.pool 1 with pagetable := (k₃.pool 1).pagetable, files := (k₃.pool 1).files } := by
  obtain ⟨mm, root, sz, l, h, hlen, hnp, hmapped⟩ := @runningKernel_loaded oneAppLink rfl
  have hcan : CanStart oneAppLink (runningKernel mm root sz) l onePageApp 1 := by
    have hcopy : 3 + (npages sz + tablesFor (npages sz)) = 7 := by
      rw [hnp]
      decide
    have hload : loadPagesNeeded onePageApp = 7 := by decide
    refine ⟨?_, fun q hq => hmapped q (hnp ▸ hq), ?_, ?_⟩
    · rfl
    · exact hcopy.trans_le (by omega)
    · omega
  have hin : PGROUNDUP onePageApp.stop ≤ oneAppLink.ekernel := by decide
  have hid : get_id_by_name oneAppLink onePageApp.name = some 0 := by decide
  obtain ⟨k₁, k₂, k₃, hspawn, hfork, hexec, hview, hslot, _⟩ :=
    spawn_is_fork_then_exec h (Nat.zero_lt_succ _) runningKernel_live hid rfl hin hcan
  exact ⟨_, k₁, k₂, k₃, hspawn, hfork, hexec, hview, hslot⟩

end OneApp

end ThuKernel
