-- Who owns a page, over runs of the calls that make, copy, map, unmap and free
-- pages: each page that a user can reach is mapped once, by one process, and no
-- page that is in use is free.
import ThuKernel.Kernel.Loading
import ThuKernel.Kernel.PipeEndRuns
import ThuKernel.Kernel.Unmapping
import ThuKernel.Kernel.UserStrings

namespace ThuKernel

/-- A leaf of the tables of process `p`: page number `q` leads to `a`. -/
structure Leaf (k : Kernel) (p q a : Nat) : Prop where
  slot : p < NPROC
  live : ¬ Dead (k.pool p)
  limit : q < 512 ^ 3
  mapped : IsMapped k.mm.mem (k.pool p).pagetable q
  frame : frameAt k.mm.mem (k.pool p).pagetable q = a

/-- A leaf that the user may access. -/
structure UserLeaf (k : Kernel) (p q a : Nat) : Prop extends Leaf k p q a where
  user : (pteAt k.mm.mem (k.pool p).pagetable q).testBit 4 = true

/-- The exit code that `wait` stores at `code` is all on one page that process `p`
may access. -/
def CodeFits (k : Kernel) (p : Nat) (code : Nat) : Prop :=
  ∃ q a, UserLeaf k p q a ∧ a ≤ code ∧ code + 4 ≤ a + PGSIZE

/-- A step of the machine: one of the pipes and files, or a call of a live
process that changes its own or a new address space, or a turn of `wait`. No
close and no read has a number that is no descriptor. No `mmap` takes the last
free page: the next one would map page 0. No `munmap` has the page of the saved
registers in its range. The pointer of a `wait` leads to a place for the whole
exit code, or nowhere: then the kernel ends the caller, after the zombie went. -/
inductive SpaceStep (lk : Link) : EndSys → EndSys → Prop
  | ends {s s' : EndSys} (h : EndStep lk IsFd s s') : SpaceStep lk s s'
  | exec {s : EndSys} {k' : Kernel} {r : Int} (p : Nat) (name : Bytes) (va : Nat) (hp : p < NPROC)
      (hlive : ¬ Dead (s.k.pool p)) (hrun : sys_exec lk name va (s.k.switch p) = .ok (r, k')) :
      SpaceStep lk s (s.move k' s.calls [])
  | spawn {s : EndSys} {k' : Kernel} {r : Int} (p : Nat) (name : Bytes) (va : Nat) (hp : p < NPROC)
      (hlive : ¬ Dead (s.k.pool p)) (hrun : sys_spawn lk name va (s.k.switch p) = .ok (r, k')) :
      SpaceStep lk s (s.move k' s.calls [])
  | mmap {s : EndSys} {k' : Kernel} {r : Int} (p start len port : Nat) (hp : p < NPROC)
      (hlive : ¬ Dead (s.k.pool p)) (hrun : sys_mmap start len port (s.k.switch p) = .ok (r, k'))
      (hleft : ∃ a, IsFree lk k'.mm a) : SpaceStep lk s (s.move k' s.calls [])
  | munmap {s : EndSys} {k' : Kernel} {r : Int} (p start len : Nat) (hp : p < NPROC)
      (hlive : ¬ Dead (s.k.pool p)) (hrun : sys_munmap lk start len (s.k.switch p) = .ok (r, k'))
      (hout : ¬ (start ≤ TRAPFRAME ∧ TRAPFRAME < start + PGROUNDUP len)) : SpaceStep lk s
      (s.move k' s.calls [])
  | wait {s : EndSys} {k' : Kernel} {r : WaitScan} (p : Nat) (pid : Int) (code : Nat)
      (hp : p < NPROC)
      (hlive : ¬ Dead (s.k.pool p)) (hrun : waitTurn pid code (s.k.switch p) = .ok (r, k'))
      (hcode : CodeFits s.k p code) :
      SpaceStep lk s (s.move k' s.calls [])
  | reap {s : EndSys} (p : Nat) (hzombie : (s.k.pool p).state = .ZOMBIE) : SpaceStep lk s
      (s.move { s.k with pool := Function.update s.k.pool p { s.k.pool p with state := .UNUSED } }
      s.calls [])

/-- Each page has one owner. -/
structure PagesOwned (lk : Link) (k : Kernel) : Prop where
  user : ∀ p q a, UserLeaf k p q a → IsFrame lk a ∧ ¬ IsFree lk k.mm a ∧ ∀ p' q', Leaf k p' q' a →
    p' = p ∧ q' = q
  apart : ∀ p q a, UserLeaf k p q a → ¬ PipePage k a ∧ ∀ p' < NPROC, (k.pool p').trapframe ≠ a ∧
    (¬ Dead (k.pool p') → ¬ TableOf k.mm.mem (k.pool p').pagetable a)
  tables : ∀ p < NPROC, ¬ Dead (k.pool p) → ∀ a, TableOf k.mm.mem (k.pool p).pagetable a →
    ¬ IsFree lk k.mm a
  registers : ∀ p < NPROC, ¬ IsFree lk k.mm (k.pool p).trapframe
  pipes : ∀ a, PipePage k a → ¬ IsFree lk k.mm a

variable {lk : Link} {E : Stop → Prop} {k k' : Kernel} {s s' : EndSys} {l l₁ : List Nat}
  {P : Nat → Prop}
variable {T : Nat → Prop} {p q a i start len port : Nat} {m : Mm}

/-! ## Owners -/

namespace PagesOk

/-- A page of a process that the user may access is a page of the allocator. -/
theorem userLeaf (h : PagesOk lk k P l) (hu : UserLeaf k p q a) :
    Root k (k.pool p).pagetable ∧ MapsTo lk k.mm.mem (k.pool p).pagetable q a := by
  obtain ⟨hr, hne⟩ := h.root hu.slot hu.live
  refine ⟨hr, hu.limit, hu.mapped, hu.frame, ?_⟩
  rw [← hu.frame]
  exact (h.image p hu.slot hne).userFrames (h.frames p hu.slot) q hu.limit ⟨hu.mapped, hu.user⟩

/-- A page of the allocator is mapped once. -/
theorem leaf_unique {p' q' : Nat} (h : PagesOk lk k P l) (hu : UserLeaf k p q a)
    (hleaf : Leaf k p' q' a) :
    p' = p ∧ q' = q := by
  obtain ⟨hr, hmaps⟩ := h.userLeaf hu
  obtain ⟨hr', hne'⟩ := h.root hleaf.slot hleaf.live
  have hmaps' : MapsTo lk k.mm.mem (k.pool p').pagetable q' a :=
    ⟨hleaf.limit, hleaf.mapped, hleaf.frame, hmaps.alloc⟩
  have hroots := h.spaces.apart _ _ a hr' hr (Or.inr ⟨q', hmaps'⟩) (Or.inr ⟨q, hmaps⟩)
  obtain rfl := h.own p' hleaf.slot p hu.slot hne' hroots
  exact ⟨rfl, (h.spaces.space _ hr).unshared _ _ a hmaps' hmaps⟩

/-- A page of the user is not that of saved registers. -/
theorem userLeaf_regs {p' : Nat} (h : PagesOk lk k P l) (hu : UserLeaf k p q a) (hp' : p' < NPROC) :
    (k.pool p').trapframe ≠ a := by
  rintro rfl
  obtain ⟨hr, hmaps⟩ := h.userLeaf hu
  by_cases hne : (k.pool p').pagetable = 0
  · exact (h.spaces.kept _ (Or.inr ⟨p', hp', hne, rfl⟩)).2.2 _ hr (Or.inr ⟨q, hmaps⟩)
  · have htf := h.maps_tf hp' hne
    have hlive : ¬ Dead (k.pool p') := fun hc => hne ((h.rooted p' hp').mpr hc)
    obtain ⟨rfl, rfl⟩ := h.leaf_unique hu ⟨hp', hlive, htf.limit, htf.mapped, htf.frame⟩
    exact not_user_trapframe (h.frames p' hp') (h.image p' hp' hne).trapframe ⟨hu.mapped, hu.user⟩

theorem owned (h : PagesOk lk k (PipePage k) l) : PagesOwned lk k := by
  have hfree : ∀ a, IsFree lk k.mm a ↔ a ∈ l := fun a => isFree_iff h.spaces.free
  refine ⟨fun p q a hu => ?_, fun p q a hu => ?_, fun p hp hlive a ha => ?_, fun p hp => ?_,
    fun a ha => ?_⟩
  · obtain ⟨hr, hmaps⟩ := h.userLeaf hu
    refine ⟨hmaps.alloc, ?_, fun p' q' hleaf => h.leaf_unique hu hleaf⟩
    rw [hfree]
    exact (h.spaces.space _ hr).unfree q a hmaps
  · obtain ⟨hr, hmaps⟩ := h.userLeaf hu
    refine ⟨fun hpipe => ?_, fun p' hp' => ⟨h.userLeaf_regs hu hp', fun hlive' ht => ?_⟩⟩
    · exact (h.spaces.kept a (Or.inl hpipe)).2.2 _ hr (Or.inr ⟨q, hmaps⟩)
    · exact (h.spaces.mapped_apart hr hmaps).1 _ (h.root hp' hlive').1 ht
  · rw [hfree]
    exact fun hl => (h.spaces.space _ (h.root hp hlive).1).unowned hl (Or.inl ha)
  · rw [hfree]
    by_cases hne : (k.pool p).pagetable = 0
    · exact (h.spaces.kept _ (Or.inr ⟨p, hp, hne, rfl⟩)).2.1
    · exact (h.spaces.space _ ⟨p, hp, rfl, hne⟩).unfree _ _ (h.maps_tf hp hne)
  · rw [hfree]
    exact (h.spaces.kept a (Or.inl ha)).2.1

/-! ## mmap and munmap -/

/-- The tables of one live process change. -/
theorem within (h : PagesOk lk k P l) (hi : i < NPROC) (hs : Spaces lk m (Root k) l₁ (Reserved k P))
    (hothers : OthersSame (Root k) (k.pool i).pagetable k.mm m)
    (himage : ProcImage lk m.mem (k.pool i)) :
    PagesOk lk { k with mm := m } P l₁ := by
  refine ⟨hs, h.rooted, h.own, h.frames, h.regs, h.pipes, fun j hj hne => ?_⟩
  by_cases heq : (k.pool j).pagetable = (k.pool i).pagetable
  · obtain rfl := h.own j hj i hi hne heq
    exact himage
  · exact (h.image j hj hne).congr (hothers _ ⟨j, hj, rfl, hne⟩ heq).2

/-- `mmap` keeps the uses of the pages apart, when it leaves a free page. -/
theorem sys_mmap_runs (h : PagesOk lk k P l) (hcur : k.current_proc < NPROC)
    (hlive : ¬ Dead (k.pool k.current_proc)) :
    Runs (fun _ => True) (sys_mmap start len port) k (fun _ k' => k' = { k with mm := k'.mm } ∧
      ((∃ a, IsFree lk k'.mm a) → ∃ l', PagesOk lk k' P l')) := by
  obtain ⟨hr, hne⟩ := h.root hcur hlive
  have himage := h.image _ hcur hne
  by_cases hport : port < 1 ∨ 7 < port
  · unfold sys_mmap
    rw [if_pos hport, Runs.pure_iff]
    exact ⟨rfl, fun _ => ⟨l, h⟩⟩
  obtain ⟨hperm, _⟩ := @mmapPerm port (by omega) (by omega)
  apply (ThuKernel.sys_mmap_runs rfl (h.spaces.space _ hr) fun _ => trivial).imp
  rintro _ k' ⟨hk, l', hand', hs', hmoved, hptes⟩
  refine ⟨hk, ?_⟩
  rintro ⟨b, hb⟩
  have hX : ∀ a ∈ ([] : List Nat), Reserved k P a := fun a ha => by cases ha
  obtain ⟨hspaces, hothers⟩ := h.spaces.step hr hX hs' hmoved
  rw [hk]
  refine ⟨l', h.within hcur (hspaces.congr (fun _ hp => hp) fun a ha =>
    Or.inl ⟨ha, List.not_mem_nil⟩) hothers ⟨himage.size, ?_, ?_, fun q hq h1 h2 hm => ?_⟩⟩
  · rw [hptes.old _ (by decide), himage.trampoline]
    unfold IsMapped
    rw [himage.trampoline, leafPte_valid]
  · rw [hptes.old _ (by decide), himage.trapframe]
    unfold IsMapped
    rw [himage.trapframe, leafPte_valid]
  · rcases hptes.new q hq with hsame | ⟨pa, hpte, hpa⟩
    · unfold IsMapped at hm
      unfold frameAt
      rw [hsame] at hm ⊢
      exact himage.users q hq h1 h2 hm
    · -- A new page came from the allocator: one is left.
      have hframe : IsFrame lk pa := by
        refine hpa.resolve_right fun hc => ?_
        rw [isFree_iff hspaces.free, hc.2] at hb
        cases hb
      unfold frameAt
      rw [← testBit_flags (by decide), hpte, (leafPte_decode hframe.aligned hperm).1,
        (leafPte_decode hframe.aligned hperm).2, Nat.mod_eq_of_lt hframe.isPage.below]
      refine ⟨?_, hframe⟩
      have huser : PTE_U.testBit 4 = true := by decide
      simp [Nat.testBit_or, huser]

end PagesOk

/-- `munmap` leaves what is outside of its range. -/
theorem AddrSpace.sys_munmap_outside {root : Nat} {hand : List Nat}
    (hroot : (k.pool k.current_proc).pagetable = root)
    (h : AddrSpace lk k.mm root l hand) : Runs (fun _ => True) (sys_munmap lk start len)
    k (fun _ k' =>
      ∀ q < 512 ^ 3, ¬ (start ≤ q * PGSIZE ∧ q * PGSIZE < start + PGROUNDUP len) →
        pteAt k'.mm.mem root q = pteAt k.mm.mem root q) := by
  by_cases hstart : start % PGSIZE = 0
  · have hstop : (start + PGROUNDUP len / PGSIZE * PGSIZE) % 2 ^ 64 % PGSIZE = 0 := by
      simp only [PGSIZE_eq] at *
      omega
    have hn := PGROUNDUP_mul len
    rw [sys_munmap_aligned hroot hstart]
    apply (munmapLoop_runs (fun _ => trivial) hstart hstop).imp
    rintro ok s₁ ⟨rfl, hok⟩
    cases ok with
    | false => exact fun _ _ _ => rfl
    | true =>
      rw [if_neg (by decide)]
      by_cases hlt : start < (start + PGROUNDUP len / PGSIZE * PGSIZE) % 2 ^ 64
      · obtain ⟨hmax, _⟩ := hok rfl hlt
        have hMAX := MAXVA_eq
        have hsmall : PGROUNDUP len < 2 ^ 64 := by
          unfold PGROUNDUP
          simp only [PGSIZE_eq]
          omega
        have hend : start + PGROUNDUP len / PGSIZE * PGSIZE ≤ MAXVA := by
          simp only [PGSIZE_eq] at *
          omega
        apply (h.uvmunmap_runs hstart hend).mono fun _ _ => trivial
        rintro _ s₂ ⟨_, _, _, hun⟩ q hq hout
        dsimp only
        rw [hun.pte q hq, if_neg]
        rintro ⟨h1, h2⟩
        apply hout
        simp only [PGSIZE_eq] at *
        omega
      · apply (uvmunmap_none hstart (Nat.le_of_not_lt hlt)).imp
        rintro _ s₂ rfl
        exact fun _ _ _ => rfl
  · unfold sys_munmap
    rw [if_pos (by rwa [← PGSIZE_eq]), Runs.pure_iff]
    exact fun _ _ _ => rfl

/-- `munmap` keeps the uses of the pages apart, when its range leaves out the page
of the saved registers. -/
theorem PagesOk.sys_munmap_runs (h : PagesOk lk k P l) (hcur : k.current_proc < NPROC)
    (hlive : ¬ Dead (k.pool k.current_proc))
    (hout : ¬ (start ≤ TRAPFRAME ∧ TRAPFRAME < start + PGROUNDUP len)) :
    Runs (fun _ => True) (sys_munmap lk start len) k (fun _ k' => k' = { k with mm := k'.mm } ∧
      ∃ l', PagesOk lk k' P l') := by
  obtain ⟨hr, hne⟩ := h.root hcur hlive
  have himage := h.image _ hcur hne
  have hsp := h.spaces.space _ hr
  apply ((ThuKernel.sys_munmap_runs rfl hsp fun _ => trivial).and (hsp.sys_munmap_outside rfl)).mono
    fun _ _ => trivial
  rintro _ k' ⟨⟨hk, l', hs', hmoved, hptes⟩, houtside⟩
  refine ⟨hk, ?_⟩
  have hX : ∀ a ∈ ([] : List Nat), Reserved k P a := fun a ha => by cases ha
  obtain ⟨hspaces, hothers⟩ := h.spaces.step hr hX hs' hmoved
  rw [hk]
  refine ⟨l', h.within hcur (hspaces.congr (fun _ hp => hp) fun a ha =>
    Or.inl ⟨ha, List.not_mem_nil⟩) hothers ⟨himage.size, ?_, ?_, fun q hq h1 h2 hm => ?_⟩⟩
  · rcases hptes.ptes trampolinePage (by decide) with hp | ⟨_, hc⟩
    · rw [hp, himage.trampoline]
    · exact absurd hc (Owner.trampoline_stays himage.trampoline)
  · rw [houtside _ (by decide) (by rwa [← trapframe_page]), himage.trapframe]
  · rcases hptes.ptes q hq with hsame | ⟨hzero, _⟩
    · unfold IsMapped at hm
      unfold frameAt
      rw [hsame] at hm ⊢
      exact himage.users q hq h1 h2 hm
    · rw [IsMapped, hzero, Nat.zero_testBit] at hm
      cases hm

/-! ## Stores -/

/-- The pages that the user of `root` may access. -/
def UserPages (mem : Bytes) (root a : Nat) : Prop :=
  ∃ q < 512 ^ 3, IsUser mem root q ∧ frameAt mem root q = a

theorem SamePtes.userPages {root : Nat} {s s₁ : Mm} (h : SamePtes root s s₁) :
    UserPages s₁.mem root a ↔ UserPages s.mem root a := by
  unfold UserPages IsUser IsMapped frameAt
  apply exists_congr
  intro q
  constructor
  · rintro ⟨hq, h₁⟩
    rw [h q hq] at h₁
    exact ⟨hq, h₁⟩
  · rintro ⟨hq, h₁⟩
    rw [← h q hq] at h₁
    exact ⟨hq, h₁⟩

theorem userPages_userPage {mem : Bytes} {root va : Nat} (h : userPage mem root va ≠ 0) :
    UserPages mem root (userPage mem root va) := by
  rw [userPage_eq] at h ⊢
  split at h
  · exact absurd rfl h
  · rename_i hmax
    rw [if_neg hmax]
    split at h
    · rename_i hu
      rw [if_pos hu]
      refine ⟨va / PGSIZE, ?_, hu, rfl⟩
      rw [MAXVA_eq] at hmax
      rw [PGSIZE_eq]
      omega
    · exact absurd rfl h

/-- A copy to the user changes no page but those that the user may access. -/
theorem Spaces.copyout_same {R X : Nat → Prop} {root : Nat} {s : Mm} (hs : Spaces lk s R l X)
    (hr : R root) (hu : UserFrames lk s.mem root) (va : Nat)
    (src : List Byte) : Runs E (copyout root va src) s (fun _ s' =>
      SameOn PGSIZE (fun a => ¬ UserPages s.mem root a) s.mem s'.mem) := by
  have hloop : ∀ fuel va src (s : Mm), src.length < fuel → Spaces lk s R l X →
      UserFrames lk s.mem root → Runs E (copyoutLoop root fuel va src) s (fun _ s' =>
        SameOn PGSIZE (fun a => ¬ UserPages s.mem root a) s.mem s'.mem) := by
    intro fuel
    induction fuel with
    | zero =>
      intro va src s hlen
      omega
    | succ fuel ih =>
      intro va src s hlen hs hu
      unfold copyoutLoop
      split
      · rw [Runs.pure_iff]
        exact SameOn.refl
      · rename_i hne
        rw [Runs.bind_iff, runs_walkaddr]
        split
        · rw [Runs.pure_iff]
          exact SameOn.refl
        · rename_i hpa
          obtain ⟨htable, hl⟩ := hs.mapped_apart hr (hu.mapsTo hpa)
          have h1 := PGROUNDDOWN_le va
          have h2 := lt_PGROUNDDOWN_add va
          have hshort : (src.take (min (PGSIZE - (va - PGROUNDDOWN va)) src.length)).length ≤
              PGSIZE - (va - PGROUNDDOWN va) := by
            rw [List.length_take]
            omega
          dsimp only
          rw [Runs.bind_iff, Runs.modify_iff]
          have hstore := SameOn.store (m := s.mem) (o := va - PGROUNDDOWN va)
            (l := src.take (min (PGSIZE - (va - PGROUNDDOWN va)) src.length))
            (isPage_userPage s.mem root (PGROUNDDOWN va)).aligned (by omega : _ ≤ PGSIZE)
          obtain ⟨hs₁, hall₁⟩ := hs.write hstore htable hl
          have hdrop : (src.drop (min (PGSIZE - (va - PGROUNDDOWN va)) src.length)).length =
              src.length - min (PGSIZE - (va - PGROUNDDOWN va)) src.length := List.length_drop
          apply (ih _ _ _ (by omega) hs₁ (hu.congr (hall₁ root hr).2)).imp
          rintro _ s' hs'
          apply (hstore.mono _).trans (hs'.mono _)
          · rintro a ha rfl
            exact ha (userPages_userPage hpa)
          · intro a ha
            rwa [(hall₁ root hr).2.userPages]
  exact hloop _ _ _ s (Nat.lt_succ_self _) hs hu

/-! ## Runs -/

theorem runs_copyinName {α : Type} {g : CStr → Prog Kernel α} {Q : α → Kernel → Prop}
    (stack : Bytes) (va : Nat) (h : ∀ name, Runs E (g name) k Q) :
    Runs E (copyinName stack va >>= g) k Q := by
  obtain ⟨bytes, _, hok⟩ := copyinName_ok (k := k) stack va
  rw [Runs.bind_iff, Runs.ok_iff hok]
  exact h _

/-- A call that gives a slot a new address space moves no file. -/
theorem Takes.idle (h : Takes lk (PipePage s.k) (s.k.switch p) k' i) : Idle lk s.k k' := by
  refine ⟨h.pages, h.filepool, fun pi w => ?_, fun j => ?_, fun j hj => ?_⟩
  · rw [h.pipes]
    rfl
  · by_cases hji : j = i
    · rw [hji, h.files]
      rfl
    · rw [h.others j hji]
      rfl
  · by_cases hji : j = i
    · rw [hji] at hj
      exact absurd hj h.live
    · rw [h.others j hji] at hj
      exact hj

/-- A store on a page that the user may access. -/
theorem PagesOk.writeUser {mem : Bytes} (h : PagesOk lk k P l) (hu : UserLeaf k p q a)
    (hsame : SameOn PGSIZE (· ≠ a) k.mm.mem mem) :
    PagesOk lk { k with mm := { k.mm with mem := mem } } P l := by
  obtain ⟨hr, hmaps⟩ := h.userLeaf hu
  obtain ⟨htable, hl⟩ := h.spaces.mapped_apart hr hmaps
  obtain ⟨hs, hall⟩ := h.spaces.write hsame htable hl
  exact h.setMm hs hall h.pipes

/-- A zombie goes. -/
theorem Idle.reap (h : Idle lk k k') (hzombie : (k'.pool i).state = .ZOMBIE) :
    Idle lk k
    { k' with pool := Function.update k'.pool i { k'.pool i with state := .UNUSED } } := by
  obtain ⟨l, hp⟩ := h.pages
  have hdead : Dead (k'.pool i) := Or.inr hzombie
  refine ⟨⟨l, hp.setProc rfl rfl rfl ⟨fun _ => hdead, fun _ => Or.inl rfl⟩⟩, h.files, h.opened,
    fun j => ?_, fun j hj => ?_⟩
  · dsimp only
    by_cases hji : j = i
    · rw [hji, Function.update_self, ← h.fds]
    · rw [Function.update_of_ne hji, h.fds]
  · dsimp only at hj
    by_cases hji : j = i
    · rw [hji]
      exact h.dead i hdead
    · rw [Function.update_of_ne hji] at hj
      exact h.dead j hj

/-- A turn of `wait` that stores the code on a page of the caller. -/
theorem EndsOk.wait_idle {pid : Int} {code : Nat} (h : EndsOk lk T s) (hlive : ¬ Dead (s.k.pool p))
    (hcode : CodeFits s.k p code) :
    Runs (fun _ => True) (waitTurn pid code) (s.k.switch p) (fun _ k' => Idle lk s.k k') := by
  have hswitch := h.idle_switch p
  unfold waitTurn
  rw [Runs.bind_iff, Runs.get_iff]
  dsimp only
  split
  · rename_i j hj
    have hfound := List.find?_some hj
    rw [Bool.and_eq_true, beq_iff_eq] at hfound
    rw [Runs.bind_iff, runs_getProc, Runs.bind_iff, runs_setProc]
    unfold storeCode
    split
    · trivial
    · rw [Runs.bind_iff, runs_onMm, Runs.modify_iff, Runs.pure_iff]
      obtain ⟨q, a, hu, hlow, hhigh⟩ := hcode
      obtain ⟨o, rfl⟩ := Nat.exists_eq_add_of_le hlow
      obtain ⟨l, hp⟩ := hswitch.pages
      have hframe :=
        (hp.userLeaf (k := s.k.switch p) ⟨⟨hu.slot, hu.live, hu.limit, hu.mapped, hu.frame⟩,
          hu.user⟩).2.alloc
      have hwrite := hp.writeUser (p := p) (q := q) (a := a) ⟨⟨hu.slot, hu.live, hu.limit,
        hu.mapped, hu.frame⟩, hu.user⟩
        (SameOn.put32 (o := o) (v := (BitVec.ofInt 32 ((s.k.switch p).pool j).exit_code).toNat)
        hframe.aligned (by omega))
      exact (hswitch.setMm hwrite).reap hfound.2
  · split
    · rw [Runs.bind_iff, runs_modifyCurr, Runs.pure_iff]
      exact hswitch.setState hlive not_dead_runnable
    · exact hswitch

/-- What every step keeps. -/
theorem EndsOk.page_moves (h : EndsOk lk T s) (hs : SpaceStep lk s s') :
    ∃ k' calls new, s' = s.move k' calls new ∧
    (∃ T', EndMove lk T T' s.k k' new) ∧ ∀ p c, calls p = some c → Holds k' p c := by
  have hquiet : ∀ k', Idle lk s.k k' →
      ∃ k'' calls new, s.move k' s.calls [] = s.move k'' calls new ∧
      (∃ T', EndMove lk T T' s.k k'' new) ∧ ∀ p c, calls p = some c → Holds k'' p c :=
    fun k' hidle => ⟨k', s.calls, [], rfl, ⟨T, h.of_idle hidle⟩, h.blocked_idle hidle⟩
  cases hs with
  | ends hstep => exact h.step_moves hstep
  | exec p name va hp hlive hrun =>
    have hswitch := h.idle_switch p
    obtain ⟨l, hpages⟩ := hswitch.pages
    have hexec : Runs (fun _ => True) (sys_exec lk name va) (s.k.switch p) (fun _ k' =>
        Idle lk s.k k') := by
      apply runs_copyinName
      intro name'
      apply (hpages.exec_runs hp hlive name').mono fun _ _ => trivial
      rintro r k' (⟨_, rfl, _⟩ | ⟨_, htakes, _⟩)
      · exact hswitch
      · exact htakes.idle
    exact hquiet _ (hexec.of_ok hrun)
  | spawn p name va hp hlive hrun =>
    obtain ⟨l, hpages⟩ := (h.idle_switch p).pages
    have hspawn : Runs (fun _ => True) (sys_spawn lk name va) (s.k.switch p) (fun _ k' =>
        Idle lk s.k k') := by
      apply runs_copyinName
      intro name'
      apply (hpages.spawn_runs name').mono fun _ _ => trivial
      rintro r k' ⟨np, _, htakes, _⟩
      exact htakes.idle
    exact hquiet _ (hspawn.of_ok hrun)
  | mmap p start len port hp hlive hrun hleft =>
    have hswitch := h.idle_switch p
    obtain ⟨l, hpages⟩ := hswitch.pages
    obtain ⟨hk, hkeep⟩ := (hpages.sys_mmap_runs hp hlive).of_ok hrun
    obtain ⟨l', hpages'⟩ := hkeep hleft
    rw [hk] at hpages' ⊢
    exact hquiet _ (hswitch.setMm hpages')
  | munmap p start len hp hlive hrun hout =>
    have hswitch := h.idle_switch p
    obtain ⟨l, hpages⟩ := hswitch.pages
    obtain ⟨hk, l', hpages'⟩ := (hpages.sys_munmap_runs hp hlive hout).of_ok hrun
    rw [hk] at hpages' ⊢
    exact hquiet _ (hswitch.setMm hpages')
  | wait p pid code hp hlive hrun hcode => exact hquiet _ ((h.wait_idle hlive hcode).of_ok hrun)
  | reap p hzombie =>
    have hstart : Idle lk s.k s.k := ⟨h.pages, rfl, fun _ _ => rfl, fun _ => rfl, fun _ hd => hd⟩
    exact hquiet _ (hstart.reap hzombie)

theorem EndsOk.page_run {s₀ : EndSys} (hstart : EndStart lk s₀)
    (hrun : Relation.ReflTransGen (SpaceStep lk) s₀ s) :
    ∃ T, EndsOk lk T s := by
  induction hrun with
  | refl => exact ⟨_, hstart.ok⟩
  | tail _ hstep ih =>
    obtain ⟨T, ih⟩ := ih
    obtain ⟨k', calls, new, rfl, ⟨T', hmove⟩, hblocked⟩ := ih.page_moves hstep
    exact ⟨T', ih.move hmove hblocked⟩

/-- What process `p` stores in its memory leaves the memory of all others alone:
their pages, all tables, all saved registers, the pipes and the free pages. -/
def StoresAlone (lk : Link) (k : Kernel) (p : Nat) (mem : Bytes) : Prop :=
  SameOn PGSIZE (fun a => IsFree lk k.mm a ∨ PipePage k a ∨
    (∃ i < NPROC, (k.pool i).trapframe = a) ∨
    ∃ i < NPROC, ¬ Dead (k.pool i) ∧ (TableOf k.mm.mem (k.pool i).pagetable a ∨
      (i ≠ p ∧ ∃ q, Leaf k i q a))) k.mm.mem mem

/-- Over every run, each page that a user can reach is a page of the allocator,
is not free, and is mapped once, by one process; no table, no page of saved
registers and no page of a pipe is free or can be reached. So no process stores
in the memory of another one. -/
theorem a_user_page_has_one_owner {s₀ : EndSys} (hstart : EndStart lk s₀)
    (hrun : Relation.ReflTransGen (SpaceStep lk) s₀ s) :
    PagesOwned lk s.k ∧ ∀ p < NPROC, ¬ Dead (s.k.pool p) → ∀ va bytes,
      Runs (fun _ => True) (copyout (s.k.pool p).pagetable va bytes) s.k.mm fun _ mm =>
      StoresAlone lk s.k p mm.mem := by
  obtain ⟨T, hok⟩ := EndsOk.page_run hstart hrun
  obtain ⟨l, hpages⟩ := hok.pages
  have howned := hpages.owned
  refine ⟨howned, fun p hp hlive va bytes => ?_⟩
  obtain ⟨hr, hne⟩ := hpages.root hp hlive
  apply (hpages.spaces.copyout_same hr ((hpages.image p hp hne).userFrames (hpages.frames p hp))
    va bytes).imp
  intro _ mm hsame
  apply hsame.mono
  rintro a ha ⟨q, hq, hu, hframe⟩
  have hleaf : UserLeaf s.k p q a := ⟨⟨hp, hlive, hq, hu.1, hframe⟩, hu.2⟩
  rcases ha with ha | ha | ⟨i, hi, ha⟩ | ⟨i, hi, hlive', ha | ⟨hip, q', ha⟩⟩
  · exact (howned.user p q a hleaf).2.1 ha
  · exact (howned.apart p q a hleaf).1 ha
  · exact ((howned.apart p q a hleaf).2 i hi).1 ha
  · exact ((howned.apart p q a hleaf).2 i hi).2 hlive' ha
  · exact hip ((howned.user p q a hleaf).2.2 i q' ha).1

/-- The first page of the running process goes, and is free from then on. -/
theorem runningKernel_munmap {mm : Mm} {root sz : Nat} {l : List Nat}
    (h : PagesOk pageLink (runningKernel mm root sz) (fun _ => False) l)
    (hm : ∀ q < 2, IsMapped mm.mem root q) :
    ∃ r mm₁ a l₁, sys_munmap pageLink 0 4096 (runningKernel mm root sz) =
    .ok (r, runningKernel mm₁ root sz) ∧
      PagesOk pageLink (runningKernel mm₁ root sz) (fun _ => False) (a :: l₁) ∧
      IsMapped mm₁.mem root 1 := by
  obtain ⟨hr, hne⟩ := h.root (by decide : 0 < NPROC) runningKernel_live
  obtain ⟨_, hframe⟩ := (h.image 0 (by decide) hne).users 0 (by decide) (by decide) (by decide)
    (hm 0 (by decide))
  have haddr : AddrSpace pageLink mm root l [] := h.spaces.space root hr
  have hone : ∀ i < pagesOf 4096, i = 0 := by decide
  have hall : ∀ i < pagesOf 4096, PageMapped mm.mem root 0 i := by
    intro i hi
    rw [hone i hi]
    refine ⟨?_, hm 0 (by decide)⟩
    rw [MAXVA_eq]
    decide
  have hframes : AllFrames pageLink mm.mem root 0 4096 := by
    intro i hi
    refine ⟨hall i hi, ?_⟩
    rw [hone i hi]
    exact hframe
  have hfine : MunmapFine pageLink (runningKernel mm root sz) 0 4096 :=
    (munmap_mapped (k := runningKernel mm root sz) haddr rfl (by decide) (by decide) (by decide)
      hall).mpr hframes
  have hout : ¬ (0 ≤ TRAPFRAME ∧ TRAPFRAME < 0 + PGROUNDUP 4096) := by
    rw [TRAPFRAME_eq]
    decide
  obtain ⟨r, k₁, hrun, hcase, hk₁, l₁, h₁⟩ :=
    (hfine.and (h.sys_munmap_runs (Nat.zero_lt_succ _) runningKernel_live
    hout)).exists_ok fun e he => he.1
  rcases hcase with ⟨hbad | ⟨i, hi, hbad⟩, _⟩ | ⟨_, _, hun⟩
  · exact absurd rfl hbad
  · exact absurd (hall i hi) hbad
  have hpte := hun.ptes 1 (by decide)
  have hm₁ : IsMapped k₁.mm.mem root 1 := by
    change pteAt k₁.mm.mem root 1 = _ at hpte
    rw [if_neg (by decide)] at hpte
    unfold IsMapped
    rw [hpte]
    exact hm 1 (by decide)
  have hfree := (isFree_iff h₁.spaces.free).mp ((hun.free _).mpr (Or.inr ⟨0, by decide, rfl⟩))
  cases l₁ with
  | nil => cases hfree
  | cons a l₁ =>
    rw [hk₁] at h₁ hrun
    exact ⟨r, _, a, l₁, hrun, h₁, hm₁⟩

/-- A process that runs unmaps its first page, and makes a pipe whose numbers go to
the second one. -/
theorem a_user_page_has_one_owner_after_a_pipe :
    ∃ (s : EndSys) (m : Made), ¬ Dead (s.k.pool 0) ∧ m ∈ s.made ∧
    PipePage s.k m.page ∧ PagesOwned pageLink s.k := by
  obtain ⟨mm, root, sz, l, h, _, _, hm⟩ := @runningKernel_loaded pageLink rfl
  obtain ⟨r, mm₁, a, l₁, hrun, h₁, hm₁⟩ := runningKernel_munmap h hm
  have hout : ¬ (0 ≤ TRAPFRAME ∧ TRAPFRAME < 0 + PGROUNDUP 4096) := by
    rw [TRAPFRAME_eq]
    decide
  have hstep : SpaceStep pageLink ⟨runningKernel mm root sz, fun _ => none, []⟩
      ⟨runningKernel mm₁ root sz, fun _ => none, []⟩ :=
    .munmap 0 0 4096 (by decide) runningKernel_live hrun hout
  obtain ⟨k', m, hpipe⟩ := runningKernel_pipe h₁ (by decide) hm₁
  obtain ⟨x, hx, htype, _, hpage, hw⟩ := hpipe.read
  have hruns := Relation.ReflTransGen.tail (.single hstep) (.ends (hpipe.step IsFd))
  refine ⟨_, m, hpipe.live, List.mem_singleton_self _, ⟨false, m.file false, ?_⟩,
    (a_user_page_has_one_owner (runningKernel_start h) hruns).1⟩
  exact ⟨by rw [hx, htype], by rw [hx, hpage], by rw [hx, hw]⟩

end ThuKernel
