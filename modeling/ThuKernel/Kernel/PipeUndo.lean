-- When `sys_pipe` makes a pipe, and when it leaves nothing behind: the steps
-- of the call with the resources that each of them takes.
import ThuKernel.Kernel.PipeEnds
import ThuKernel.Kernel.RoundTrip

namespace ThuKernel

variable {lk : Link} {E : Stop → Prop} {k k' : Kernel} {P : Nat → Prop} {l : List Nat}
variable {files : Nat → Option Nat} {a b f f0 f1 pi : Nat}

/-! ## Descriptors -/

/-- Two descriptors are free when `fdalloc` finds one twice. -/
theorem twoFree_iff (f : Nat) : TwoFree files ↔
    ∃ a b, firstFd files = some a ∧ firstFd (Function.update files a (some f)) = some b := by
  constructor
  · rintro ⟨a, b, hab, ⟨ha3, hamax, ha⟩, hb3, hbmax, hb⟩
    cases hfirst : firstFd files with
    | none => exact absurd ha (firstFd_none hfirst ha3 hamax)
    | some c =>
      cases hsecond : firstFd (Function.update files c (some f)) with
      | some d => exact ⟨c, d, rfl, hsecond⟩
      | none =>
        have hother : ∀ i, i ≠ c → files i = none → Function.update files c (some f) i = none := by
          intro i hi hnone
          rw [Function.update_of_ne hi, hnone]
        by_cases hc : a = c
        · exact absurd (hother b (fun h => hab (hc.trans h.symm)) hb)
            (firstFd_none hsecond hb3 hbmax)
        · exact absurd (hother a hc ha) (firstFd_none hsecond ha3 hamax)
  · rintro ⟨a, b, ha, hb⟩
    obtain ⟨hb3, hbmax, hbnone⟩ := firstFd_some hb
    have hba : b ≠ a := by
      rintro rfl
      rw [Function.update_self] at hbnone
      cases hbnone
    rw [Function.update_of_ne hba] at hbnone
    exact ⟨a, b, hba.symm, firstFd_some ha, hb3, hbmax, hbnone⟩

theorem not_twoFree_iff (f : Nat) :
    ¬ TwoFree files ↔ firstFd (putFd files (firstFd files) f) = none := by
  rw [twoFree_iff f, ← not_iff_not, not_not]
  cases ha : firstFd files with
  | none =>
    constructor
    · rintro ⟨_, _, hc, _⟩
      cases hc
    · exact fun hc => absurd ha hc
  | some a =>
    constructor
    · rintro ⟨_, b, ha, hb⟩ hc
      obtain rfl := Option.some.inj ha
      unfold putFd at hc
      dsimp only at hc
      rw [hb] at hc
      cases hc
    · intro hc
      obtain ⟨b, hb⟩ := Option.ne_none_iff_exists'.mp hc
      exact ⟨a, b, rfl, hb⟩

/-- Two descriptors that were free are free again. -/
theorem cleared_twice {x y : Option Nat} (ha : files a = none) (hb : files b = none) :
    Function.update (Function.update (Function.update (Function.update files a x) b y) a none) b
    none = files := by
  funext i
  by_cases hib : i = b
  · rw [hib, Function.update_self, hb]
  · by_cases hia : i = a
    · rw [hia, Function.update_of_ne (hia ▸ hib), Function.update_self, ha]
    · rw [Function.update_of_ne hib, Function.update_of_ne hia, Function.update_of_ne hib,
        Function.update_of_ne hia]

/-- The descriptors that were found are free again. When one was missing, the exit
code is lost. -/
theorem dropped_twice {p : proc} {fd0 fd1 : Option Nat} (h0 : firstFd p.files = fd0)
    (h1 : firstFd (putFd p.files fd0 f0) = fd1) :
    dropFd (dropFd { p with files := putFd (putFd p.files fd0 f0) fd1 f1 } fd0) fd1 =
      if fd1 = none then { p with exit_code := 0 } else p := by
  cases fd0 with
  | none =>
    have hnone : fd1 = none := h1.symm.trans h0
    subst hnone
    rw [if_pos rfl]
    rfl
  | some a =>
    have ha := (firstFd_some h0).2.2
    cases fd1 with
    | none =>
      rw [if_pos rfl]
      unfold dropFd putFd
      dsimp only
      rw [Function.update_idem, ← ha, Function.update_eq_self]
    | some b =>
      have hb := (firstFd_some h1).2.2
      have hba : b ≠ a := by
        rintro rfl
        unfold putFd at hb
        dsimp only at hb
        rw [Function.update_self] at hb
        cases hb
      unfold putFd at hb
      dsimp only at hb
      rw [Function.update_of_ne hba] at hb
      rw [if_neg (Option.some_ne_none b)]
      unfold dropFd putFd
      dsimp only
      rw [cleared_twice ha hb]

/-! ## The pipe in hand -/

/-- The kernel after `pipealloc` took the page `pi` and two files. -/
structure Opened (lk : Link) (P : Nat → Prop) (k k' : Kernel) (pi f0 f1 : Nat) (l : List Nat) :
    Prop where
  ne : f1 ≠ f0
  free0 : (k.filepool f0).ref = 0
  free1 : (k.filepool f1).ref = 0
  read : k'.filepool f0 = { k.filepool f0 with
    type := .FD_PIPE, ref := 1, readable := true, writable := false, pipe := pi }
  write : k'.filepool f1 = { k.filepool f1 with
    type := .FD_PIPE, ref := 1, readable := false, writable := true, pipe := pi }
  rest : ∀ f, f ≠ f0 → f ≠ f1 → k'.filepool f = k.filepool f
  page : k'.pipes pi = ⟨fun _ => 0, 0, 0, true, true⟩
  pool : k'.pool = k.pool
  current : k'.current_proc = k.current_proc
  pages : PagesOk lk k' (fun a => P a ∨ a = pi) l
  same : AllSame (Root k) k.mm k'.mm

/-- The second file is free like the first one, and another one. -/
theorem secondFile_some (h0 : freeFile k.filepool = some f0)
    (h1 : secondFile k.filepool = some f1) :
    (k.filepool f0).ref = 0 ∧ (k.filepool f1).ref = 0 ∧ f1 ≠ f0 := by
  unfold secondFile at h1
  rw [h0] at h1
  dsimp only at h1
  unfold freeFile at h0 h1
  have href0 : (k.filepool f0).ref = 0 := by simpa using List.find?_some h0
  have href1 := List.find?_some h1
  have hne : f1 ≠ f0 := by
    rintro rfl
    rw [Function.update_self] at href1
    simp at href1
  rw [Function.update_of_ne hne] at href1
  exact ⟨href0, by simpa using href1, hne⟩

/-- The first steps of `sys_pipe`, when there are a page and two files. -/
theorem open_runs {fdarray : Nat} {Q : Int → Kernel → Prop} (h : PagesOk lk k P (pi :: l))
    (h0 : freeFile k.filepool = some f0) (h1 : secondFile k.filepool = some f1)
    (hg : ∀ k', Opened lk P k k' pi f0 f1 l → Runs E (pipeFds lk f0 f1 fdarray) k' Q) :
    Runs E (sys_pipe lk fdarray) k Q := by
  obtain ⟨href0, href1, hne⟩ := secondFile_some h0 h1
  unfold secondFile at h1
  rw [h0] at h1
  dsimp only at h1
  rw [runs_sys_pipe, runs_filealloc_some h0, runs_filealloc_some h1]
  dsimp only
  rw [Function.update_of_ne hne]
  generalize hfiles : Function.update
    (Function.update k.filepool f0 { k.filepool f0 with ref := 1 }) f1
    { k.filepool f1 with ref := 1 } = files
  generalize hk₁ : ({ k with filepool := files } : Kernel) = k₁
  have hp₁ : PagesOk lk k₁ P (pi :: l) := by
    subst hk₁
    exact h.same rfl (fun _ ha => ha) (fun _ => rfl) (fun _ => rfl) (fun _ => rfl) fun _ => Iff.rfl
  rw [runs_pipealloc]
  apply hp₁.kalloc_runs.imp
  rintro r k₂ (⟨hc, _⟩ | ⟨hr, l', hl, hp₂, _, hsame₂, hk₂⟩)
  · cases hc
  obtain ⟨rfl, rfl⟩ := List.cons.inj hl
  refine ⟨fun hc => absurd hc hr, fun _ => ?_⟩
  apply (hp₂.memset_runs (Or.inr rfl) 0).imp
  rintro _ k₃ ⟨hp₃, hsame₃, hk₃⟩
  refine ⟨fun hc => (by rcases hc with hc | hc <;> cases hc), ?_⟩
  rintro _ _ _ ⟨⟩ ⟨⟩ rfl
  refine ⟨fun hc => absurd hc (by decide),
    fun _ => ⟨fun hc => (by rcases hc with hc | hc <;> cases hc), ?_⟩⟩
  rintro _ ⟨⟩ _ ⟨⟩
  have hall : AllSame (Root k) k.mm k₃.mm := by
    have hroot₁ : Root k₁ = Root k := by rw [← hk₁]; rfl
    have hroot₂ : Root k₂ = Root k₁ := by rw [hk₂]; rfl
    have hmm₁ : k₁.mm = k.mm := by rw [← hk₁]
    rw [hroot₁, hmm₁] at hsame₂
    rw [hroot₂, hroot₁] at hsame₃
    exact hsame₂.trans hsame₃
  have hfile₃ : k₃.filepool = k₁.filepool := by rw [hk₃, hk₂]
  have hpool₃ : k₃.pool = k.pool := by rw [hk₃, hk₂, ← hk₁]
  have hcur₃ : k₃.current_proc = k.current_proc := by rw [hk₃, hk₂, ← hk₁]
  apply hg
  have hat0 : k₁.filepool f0 = { k.filepool f0 with ref := 1 } := by
    rw [← hk₁, ← hfiles]
    dsimp only
    rw [Function.update_of_ne hne.symm, Function.update_self]
  have hat1 : k₁.filepool f1 = { k.filepool f1 with ref := 1 } := by
    rw [← hk₁, ← hfiles]
    exact Function.update_self _ _ _
  refine ⟨hne, href0, href1, ?_, ?_, fun f hf0 hf1 => ?_, ?_, hpool₃, hcur₃, ?_, hall⟩
  · dsimp only
    rw [Function.update_of_ne hne.symm, Function.update_self, hfile₃, hat0]
    rfl
  · dsimp only
    rw [Function.update_self, Function.update_of_ne hne, hfile₃, hat1]
    rfl
  · dsimp only
    rw [Function.update_of_ne hf1, Function.update_of_ne hf0, hfile₃, ← hk₁, ← hfiles]
    dsimp only
    rw [Function.update_of_ne hf1, Function.update_of_ne hf0]
  · exact Function.update_self _ _ _
  · exact hp₃.same rfl (fun _ ha => ha) (fun _ => rfl) (fun _ => rfl) (fun _ => rfl) fun _ =>
      Iff.rfl

/-! ## Closing the two ends -/

/-- The last reference of a file of a pipe. -/
theorem runs_fileclose_pipe {x : file} {Q : Unit → Kernel → Prop} (hx : k.filepool f = x)
    (htype : x.type = .FD_PIPE) (href : x.ref = 1) : Runs E (fileclose lk f) k Q ↔
      Runs E (pipeclose lk x.pipe x.writable)
      { k with filepool := Function.update k.filepool f { x with ref := 0 } }
        (fun _ k₁ =>
        Q () { k₁ with filepool := Function.update k₁.filepool f (k₁.filepool f).closed }) := by
  rw [runs_fileclose hx, runs_closeLast]
  simp [htype, href]

/-- The first end is closed, and the page stays. -/
theorem runs_pipeclose_first {Q : Unit → Kernel → Prop}
    (hpage : k.pipes pi = ⟨fun _ => 0, 0, 0, true, true⟩) :
    Runs E (pipeclose lk pi false) k Q ↔
      Q () { k with pipes := Function.update k.pipes pi ⟨fun _ => 0, 0, 0, false, true⟩ } := by
  rw [runs_pipeclose (y := ⟨fun _ => 0, 0, 0, false, true⟩) (by rw [hpage]; rfl)]
  simp

/-- The second one is, and the page is free. -/
theorem runs_pipeclose_second {Q : Unit → Kernel → Prop}
    (hpage : k.pipes pi = ⟨fun _ => 0, 0, 0, false, true⟩) :
    Runs E (pipeclose lk pi true) k Q ↔ Runs E (onMm (kfree lk pi))
      { k with pipes := Function.update k.pipes pi ⟨fun _ => 0, 0, 0, false, false⟩ } Q := by
  rw [runs_pipeclose (y := ⟨fun _ => 0, 0, 0, false, false⟩) (by rw [hpage]; rfl)]
  simp

/-- Both ends are closed: the files are free, and so is the page. -/
theorem closeEnds_runs {α : Type} {g : Prog Kernel α} {Q : α → Kernel → Prop} {x y : file}
    (hp : PagesOk lk k P l) (hpi : P pi) (hne : f1 ≠ f0) (h0 : k.filepool f0 = x)
    (h1 : k.filepool f1 = y) (hx : x.type = .FD_PIPE ∧ x.ref = 1 ∧ x.pipe = pi ∧ x.writable = false)
    (hy : y.type = .FD_PIPE ∧ y.ref = 1 ∧ y.pipe = pi ∧ y.writable = true)
    (hpage : k.pipes pi = ⟨fun _ => 0, 0, 0, true, true⟩)
    (hg : ∀ k', k'.pool = k.pool → k'.current_proc = k.current_proc → (k'.filepool f0).ref = 0 →
      (k'.filepool f1).ref = 0 → (∀ f, f ≠ f0 → f ≠ f1 → k'.filepool f = k.filepool f) →
      PagesOk lk k' (fun b => P b ∧ b ≠ pi) (pi :: l) → Runs E g k' Q) :
    Runs E (do
      fileclose lk f0
      fileclose lk f1
      g) k Q := by
  obtain ⟨hx1, hx2, hx3, hx4⟩ := hx
  obtain ⟨hy1, hy2, hy3, hy4⟩ := hy
  rw [Runs.bind_iff, runs_fileclose_pipe h0 hx1 hx2, hx3, hx4]
  refine (runs_pipeclose_first ?_).mpr ?_
  · exact hpage
  dsimp only
  generalize hk₁ : ({ k with filepool := _, pipes := _ } : Kernel) = k₁
  have hfile₁ : ∀ f, f ≠ f0 → k₁.filepool f = k.filepool f := by
    intro f hf
    rw [← hk₁]
    dsimp only
    rw [Function.update_of_ne hf, Function.update_of_ne hf]
  have href₁ : (k₁.filepool f0).ref = 0 := by
    rw [← hk₁]
    dsimp only
    rw [Function.update_self, file.closed_ref]
  have hpage₁ : k₁.pipes pi = ⟨fun _ => 0, 0, 0, false, true⟩ := by
    rw [← hk₁]
    exact Function.update_self _ _ _
  have hp₁ : PagesOk lk k₁ P l := by
    subst hk₁
    exact hp.same rfl (fun _ ha => ha) (fun _ => rfl) (fun _ => rfl) (fun _ => rfl) fun _ => Iff.rfl
  have hpool₁ : k₁.pool = k.pool := by rw [← hk₁]
  have hcur₁ : k₁.current_proc = k.current_proc := by rw [← hk₁]
  clear hk₁
  rw [Runs.bind_iff, runs_fileclose_pipe ((hfile₁ f1 hne).trans h1) hy1 hy2, hy3, hy4]
  refine (runs_pipeclose_second ?_).mpr ?_
  · exact hpage₁
  dsimp only
  generalize hk₂ : ({ k₁ with filepool := _, pipes := _ } : Kernel) = k₂
  have hp₂ : PagesOk lk k₂ P l := by
    subst hk₂
    exact hp₁.same rfl (fun _ ha => ha) (fun _ => rfl) (fun _ => rfl) (fun _ => rfl) fun _ =>
      Iff.rfl
  have hfile₂ : ∀ f, f ≠ f1 → k₂.filepool f = k₁.filepool f := by
    intro f hf
    rw [← hk₂]
    exact Function.update_of_ne hf _ _
  have hpool₂ : k₂.pool = k.pool := by rw [← hk₂, ← hpool₁]
  have hcur₂ : k₂.current_proc = k.current_proc := by rw [← hk₂, ← hcur₁]
  clear hk₂
  apply (hp₂.kfree_runs hpi).imp
  rintro _ k₃ ⟨hp₃, hk₃⟩
  apply hg
  · dsimp only
    rw [hk₃, hpool₂]
  · dsimp only
    rw [hk₃, hcur₂]
  · dsimp only
    rw [Function.update_of_ne hne.symm, hk₃]
    dsimp only
    rw [hfile₂ f0 hne.symm, href₁]
  · dsimp only
    rw [Function.update_self, file.closed_ref]
  · intro f hf0 hf1
    dsimp only
    rw [Function.update_of_ne hf1, hk₃]
    dsimp only
    rw [hfile₂ f hf1, hfile₁ f hf0]
  · exact hp₃.same rfl (fun _ ha => ha) (fun _ => rfl) (fun _ => rfl) (fun _ => rfl) fun _ =>
      Iff.rfl

/-! ## The two numbers -/

theorem SamePtes.userPage {root va : Nat} {s s' : Mm} (h : SamePtes root s s') :
    ThuKernel.userPage s'.mem root va = ThuKernel.userPage s.mem root va := by
  rw [userPage_eq, userPage_eq]
  split
  · rfl
  · rw [h _ ?_]
    rw [MAXVA_eq] at *
    rw [PGSIZE_eq]
    omega

theorem length_u64Bytes (x : Nat) : (u64Bytes x).length = 8 := by
  simp [u64Bytes]

/-- A copy to the user that is spelled out, and the pages are good after it. -/
theorem PagesOk.copied_runs (h : PagesOk lk k P l) (hcur : k.current_proc < NPROC)
    (hlive : ¬ Dead (k.pool k.current_proc)) (va : Nat) {src : List Byte}
    (hlen : src.length ≤ 2 ^ 63) :
    Runs E (onMm (copyout (k.pool k.current_proc).pagetable va src)) k (fun r k' =>
      PagesOk lk k' P l ∧ k' = { k with mm := k'.mm } ∧
      CopiedOut k.mm (k.pool k.current_proc).pagetable va src r k'.mm) := by
  obtain ⟨hr, hne⟩ := h.root hcur hlive
  have hsep := (h.spaces.space _ hr).separate ((h.image _ hcur hne).userFrames (h.frames _ hcur))
  have hcopied : Runs E (onMm (copyout (k.pool k.current_proc).pagetable va src)) k (fun r k' =>
      CopiedOut k.mm (k.pool k.current_proc).pagetable va src r k'.mm) := by
    rw [runs_onMm]
    exact copyout_separate hsep hlen
  refine (hcopied.and (h.copyout_runs (E := E) hcur hlive va src)).mono (fun _ hE => hE.1) ?_
  rintro r k' ⟨hc, hp, hk'⟩
  exact ⟨hp, hk', hc⟩

/-- Two copies, the one after the other. -/
theorem twoCopies {s s₁ s₂ : Mm} {root va : Nat} {src₁ src₂ : List Byte} (hs : Separate s.mem root)
    (h₁ : CopiedOut s root va src₁ 0 s₁) (h₂ : CopiedOut s₁ root (va + src₁.length) src₂ 0 s₂)
    (hlen : src₁.length + src₂.length < 2 ^ 64) :
    userBytes s₂.mem root va (src₁.length + src₂.length) = src₁ ++ src₂ := by
  have hpages : ∀ a, userPage s₂.mem root a = userPage s.mem root a :=
    fun a => (h₂.pages a).trans (h₁.pages a)
  have haddr : ∀ a, userAddr s₂.mem root a = userAddr s.mem root a :=
    fun a => by rw [userAddr, userAddr, hpages]
  have haddr₁ : ∀ a, userAddr s₁.mem root a = userAddr s.mem root a :=
    fun a => by rw [userAddr, userAddr, h₁.pages]
  have hm₁ := h₁.iff.mp rfl
  have hbytes : ∀ u < src₁.length, s₂.mem (userAddr s.mem root (va + u)) =
      s₁.mem (userAddr s.mem root (va + u)) := by
    intro u hu
    apply h₂.frame
    intro v hv _ hc
    rw [haddr₁] at hc
    have heq := hs.userAddr_inj (hm₁ u hu) hc
    omega
  have hfirst : userBytes s₂.mem root va src₁.length = src₁ := by
    rw [← h₁.userBytes rfl]
    unfold userBytes
    rw [List.length_map, List.length_range]
    apply List.map_congr_left
    intro u hu
    rw [haddr, haddr₁, hbytes u (List.mem_range.mp hu)]
  have hsecond : userBytes s₂.mem root (va + src₁.length) src₂.length = src₂ := h₂.userBytes rfl
  rw [userBytes_add, hfirst, hsecond]

/-- The two numbers are at `va`, or some byte of them has no place. -/
def NumbersStored (lk : Link) (P : Nat → Prop) (l : List Nat) (k : Kernel) (root va : Nat)
    (src : List Byte) (r : Int) (k' : Kernel) : Prop :=
  PagesOk lk k' P l ∧ k' = { k with mm := k'.mm } ∧
    (r = 0 ∧ (∀ u < 16, Mapped k.mm.mem root (va + u)) ∧ userBytes k'.mm.mem root va 16 = src ∨
      r = -1 ∧ ∃ u < 16, ¬ Mapped k.mm.mem root (va + u))

theorem storeNumbers_runs {src₁ src₂ : List Byte} {root : Nat} (h : PagesOk lk k P l)
    (hcur : k.current_proc < NPROC) (hlive : ¬ Dead (k.pool k.current_proc))
    (hroot : root = (k.pool k.current_proc).pagetable) (h₁ : src₁.length = 8) (h₂ : src₂.length = 8)
    (va : Nat) : Runs E (onMm (copyout root va src₁)) k fun r0 k₁ =>
      (r0 < 0 → NumbersStored lk P l k root va (src₁ ++ src₂) (-1) k₁) ∧
      (¬ r0 < 0 → Runs E (onMm (copyout root (va + 8) src₂)) k₁
      (NumbersStored lk P l k root va (src₁ ++ src₂))) := by
  subst hroot
  obtain ⟨hr, hne⟩ := h.root hcur hlive
  have hsep := (h.spaces.space _ hr).separate ((h.image _ hcur hne).userFrames (h.frames _ hcur))
  apply (h.copied_runs hcur hlive va (by omega)).imp
  rintro r0 k₁ ⟨hp₁, hk₁, hc₁⟩
  rcases hc₁.result with ⟨rfl, hm₁⟩ | ⟨rfl, u, hu, hno⟩
  · refine ⟨fun hc => absurd hc (by decide), fun _ => ?_⟩
    have hpool₁ : k₁.pool = k.pool := by rw [hk₁]
    have hcur₁ : k₁.current_proc = k.current_proc := by rw [hk₁]
    have hcopy := hp₁.copied_runs (E := E) (by rwa [hcur₁]) (by rwa [hpool₁, hcur₁]) (va + 8)
      (by omega : src₂.length ≤ 2 ^ 63)
    rw [hpool₁, hcur₁] at hcopy
    apply hcopy.imp
    rintro r1 k₂ ⟨hp₂, hk₂, hc₂⟩
    refine ⟨hp₂, by rw [hk₂, hk₁], ?_⟩
    have hmap : ∀ a, Mapped k₁.mm.mem (k.pool k.current_proc).pagetable a ↔
        Mapped k.mm.mem (k.pool k.current_proc).pagetable a := by
      intro a
      unfold Mapped
      rw [hc₁.pages]
    rcases hc₂.result with ⟨rfl, hm₂⟩ | ⟨rfl, u, hu, hno⟩
    · refine Or.inl ⟨rfl, fun u hu => ?_, ?_⟩
      · by_cases hu8 : u < 8
        · exact hm₁ u (by omega)
        · have hlast := hm₂ (u - 8) (by omega)
          rw [hmap] at hlast
          rwa [show va + u = va + 8 + (u - 8) by omega]
      · have h16 := twoCopies hsep hc₁ (h₁ ▸ hc₂) (by omega)
        rwa [h₁, h₂] at h16
    · rw [hmap] at hno
      exact Or.inr ⟨rfl, 8 + u, by omega, by rwa [← Nat.add_assoc]⟩
  · exact ⟨fun _ => ⟨hp₁, hk₁, Or.inr ⟨rfl, u, by omega, hno⟩⟩, fun hc => absurd (by decide) hc⟩

/-! ## What the call has to do -/

/-- The user may write to the byte at `a`. -/
def UserWrites (mem : Bytes) (root a : Nat) : Prop :=
  Mapped mem root a ∧ (pteAt mem root (a % 2 ^ 64 / PGSIZE)).testBit 2 = true

/-- Two entries of the file pool are free. -/
def TwoFiles (filepool : Nat → file) : Prop :=
  ∃ f g, f ≠ g ∧ (f < FILE_MAX ∧ (filepool f).ref = 0) ∧ g < FILE_MAX ∧ (filepool g).ref = 0

/-- All that a pipe takes is there: two files, a page, two descriptors, and 16
bytes for the numbers. -/
structure CanPipe (k : Kernel) (fdarray : Nat) : Prop where
  files : TwoFiles k.filepool
  page : k.mm.freelist ≠ 0
  fds : TwoFree (k.pool k.current_proc).files
  stores : ∀ u < 16, UserWrites k.mm.mem (k.pool k.current_proc).pagetable (fdarray + u)

/-- There is a new pipe on page `pi`: its read end is at the descriptor `fd0`,
its write end at `fd1`, and the numbers are at `fdarray`. -/
structure MadePipe (lk : Link) (k k' : Kernel) (fdarray fd0 fd1 f0 f1 pi : Nat) : Prop where
  range : (3 ≤ fd0 ∧ fd0 < FD_MAX) ∧ 3 ≤ fd1 ∧ fd1 < FD_MAX
  ne : fd0 ≠ fd1
  unused : (k.pool k.current_proc).files fd0 = none ∧ (k.pool k.current_proc).files fd1 = none
  slots : (k'.pool k.current_proc).files =
    Function.update (Function.update (k.pool k.current_proc).files fd0 (some f0)) fd1 (some f1)
  free : (k.filepool f0).ref = 0 ∧ (k.filepool f1).ref = 0 ∧ IsFree lk k.mm pi
  read : k'.filepool f0 = { k.filepool f0 with
    type := .FD_PIPE, ref := 1, readable := true, writable := false, pipe := pi }
  write : k'.filepool f1 = { k.filepool f1 with
    type := .FD_PIPE, ref := 1, readable := false, writable := true, pipe := pi }
  empty : k'.pipes pi = ⟨fun _ => 0, 0, 0, true, true⟩
  numbers : userBytes k'.mm.mem (k.pool k.current_proc).pagetable fdarray 16 =
    u64Bytes fd0 ++ u64Bytes fd1

/-- The processes, the files in use and the free pages are as before, and so is
the file pool up to the contents of its free entries. -/
structure NothingMade (lk : Link) (k k' : Kernel) : Prop where
  pool : ∀ i, k'.pool i = k.pool i
  refs : ∀ f, (k'.filepool f).ref = (k.filepool f).ref
  files : ∀ f, (k.filepool f).ref ≠ 0 → k'.filepool f = k.filepool f
  pages : ∀ a, IsFree lk k'.mm a ↔ IsFree lk k.mm a

/-- What the undoing leaves. When the second descriptor `fd1` was not found, the
exit code of the process is lost. -/
structure Undone (lk : Link) (fd1 : Option Nat) (k k' : Kernel) : Prop where
  own : k'.pool k.current_proc =
    if fd1 = none then { k.pool k.current_proc with exit_code := 0 } else k.pool k.current_proc
  others : ∀ i, i ≠ k.current_proc → k'.pool i = k.pool i
  refs : ∀ f, (k'.filepool f).ref = (k.filepool f).ref
  files : ∀ f, (k.filepool f).ref ≠ 0 → k'.filepool f = k.filepool f
  pages : ∀ a, IsFree lk k'.mm a ↔ IsFree lk k.mm a

/-- Nothing is left behind, if both descriptors were found or the exit code was 0
before. -/
theorem Undone.nothing_iff {fd1 : Option Nat} (h : Undone lk fd1 k k') :
    NothingMade lk k k' ↔ (fd1 = none → (k.pool k.current_proc).exit_code = 0) := by
  have hown := h.own
  constructor
  · rintro hno rfl
    rw [hno.pool, if_pos rfl] at hown
    rw [hown]
  · intro hcode
    refine ⟨fun i => ?_, h.refs, h.files, h.pages⟩
    by_cases hi : i = k.current_proc
    · subst hi
      rw [hown]
      split
      · rename_i hnone
        rw [← hcode hnone]
      · rfl
    · exact h.others i hi

/-- A call makes a pipe, when it can, or leaves nothing behind. -/
def PipeOrNothing (lk : Link) (k : Kernel) (fdarray : Nat) : Prop :=
  Runs (fun _ => False) (sys_pipe lk fdarray) k fun r k' =>
    r = 0 ∧ CanPipe k fdarray ∧ (∃ fd0 fd1 f0 f1 pi, MadePipe lk k k' fdarray fd0 fd1 f0 f1 pi) ∨
      r = -1 ∧ NothingMade lk k k'

/-- `sys_pipe` keeps what it has to: there is neither a page nor a file, or there
is all that it takes, and the bytes for the numbers are not on a page that the
user can only read. Without two descriptors it does so when the numbers have no
place and the exit code is the one that it stores, 0. -/
structure PipeIsClean (k : Kernel) (fdarray : Nat) : Prop where
  either : (k.mm.freelist = 0 ∧ freeFile k.filepool = none) ∨
    (k.mm.freelist ≠ 0 ∧ TwoFiles k.filepool ∧ (TwoFree (k.pool k.current_proc).files ∨
      (k.pool k.current_proc).exit_code = 0 ∧
        ∃ u < 16, ¬ Mapped k.mm.mem (k.pool k.current_proc).pagetable (fdarray + u)))
  stores : k.mm.freelist ≠ 0 →
    (∀ u < 16, Mapped k.mm.mem (k.pool k.current_proc).pagetable (fdarray + u)) →
    ∀ u < 16, UserWrites k.mm.mem (k.pool k.current_proc).pagetable (fdarray + u)

theorem twoFiles_iff : TwoFiles k.filepool ↔
    ∃ f0 f1, freeFile k.filepool = some f0 ∧ secondFile k.filepool = some f1 := by
  have hfind : ∀ {pool : Nat → file} {f : Nat}, freeFile pool = some f → f < FILE_MAX ∧
      (pool f).ref = 0 := by
    intro pool f hf
    unfold freeFile at hf
    exact ⟨List.mem_range.mp (List.mem_of_find?_eq_some hf), by simpa using List.find?_some hf⟩
  have hnone : ∀ {pool : Nat → file} {f : Nat}, freeFile pool = none → f < FILE_MAX →
      (pool f).ref ≠ 0 := by
    intro pool f hf hmax
    unfold freeFile at hf
    simpa using List.find?_eq_none.mp hf f (List.mem_range.mpr hmax)
  constructor
  · rintro ⟨f, g, hfg, ⟨hfmax, hf⟩, hgmax, hg⟩
    cases h0 : freeFile k.filepool with
    | none => exact absurd hf (hnone h0 hfmax)
    | some c =>
      unfold secondFile
      rw [h0]
      dsimp only
      cases h1 : freeFile (Function.update k.filepool c { k.filepool c with ref := 1 }) with
      | some d => exact ⟨c, d, rfl, rfl⟩
      | none =>
        have hother : ∀ i, i ≠ c → i < FILE_MAX → (k.filepool i).ref ≠ 0 := by
          intro i hi hmax
          have := hnone h1 hmax
          rwa [Function.update_of_ne hi] at this
        by_cases hc : f = c
        · exact absurd hg (hother g (fun h => hfg (hc.trans h.symm)) hgmax)
        · exact absurd hf (hother f hc hfmax)
  · rintro ⟨f0, f1, h0, h1⟩
    obtain ⟨href0, href1, hne⟩ := secondFile_some h0 h1
    unfold secondFile at h1
    rw [h0] at h1
    exact ⟨f0, f1, hne.symm, hfind h0, (hfind h1).1, href1⟩

/-! ## Each of the ways through -/

/-- A pipe is made, if there are two descriptors, or all is undone. -/
def Finished (lk : Link) (k : Kernel) (fdarray : Nat) (fd0 fd1 : Option Nat) (f0 f1 pi : Nat)
    (r : Int) (k' : Kernel) : Prop :=
  (r = 0 ∧ (∀ u < 16, Mapped k.mm.mem (k.pool k.current_proc).pagetable (fdarray + u)) ∧
    ∀ a b, fd0 = some a → fd1 = some b → MadePipe lk k k' fdarray a b f0 f1 pi) ∨
  (r = -1 ∧ (∃ u < 16, ¬ Mapped k.mm.mem (k.pool k.current_proc).pagetable (fdarray + u)) ∧
  Undone lk fd1 k k')

/-- The kernel `k'` after the two descriptors were looked for, too. -/
structure FdsTaken (lk : Link) (P : Nat → Prop) (k k' : Kernel) (pi f0 f1 : Nat)
    (fd0 fd1 : Option Nat) (l : List Nat) : Prop where
  own : k'.pool k.current_proc = { k.pool k.current_proc with
    files := putFd (putFd (k.pool k.current_proc).files fd0 f0) fd1 f1 }
  others : ∀ i, i ≠ k.current_proc → k'.pool i = k.pool i
  current : k'.current_proc = k.current_proc
  read : k'.filepool f0 = { k.filepool f0 with
    type := .FD_PIPE, ref := 1, readable := true, writable := false, pipe := pi }
  write : k'.filepool f1 = { k.filepool f1 with
    type := .FD_PIPE, ref := 1, readable := false, writable := true, pipe := pi }
  rest : ∀ f, f ≠ f0 → f ≠ f1 → k'.filepool f = k.filepool f
  page : k'.pipes pi = ⟨fun _ => 0, 0, 0, true, true⟩
  pages : PagesOk lk k' (fun a => P a ∨ a = pi) l
  mapped : ∀ x, Mapped k'.mm.mem (k.pool k.current_proc).pagetable x ↔
    Mapped k.mm.mem (k.pool k.current_proc).pagetable x

/-- The descriptors take a file each, and nothing else changes. -/
theorem Opened.fdsTaken {k₃ k₅ : Kernel} {fd0 fd1 : Option Nat} (ho : Opened lk P k k₃ pi f0 f1 l)
    (hok : PagesOk lk k P (pi :: l)) (hcur : k.current_proc < NPROC)
    (hlive : ¬ Dead (k.pool k.current_proc))
    (hk₅ : k₅ = { k₃ with
      pool := Function.update k.pool k.current_proc { k.pool k.current_proc with
        files := putFd (putFd (k.pool k.current_proc).files fd0 f0) fd1 f1 }
      current_proc := k.current_proc }) :
    FdsTaken lk P k k₅ pi f0 f1 fd0 fd1 l := by
  have hself : k₅.pool k.current_proc = { k.pool k.current_proc with
      files := putFd (putFd (k.pool k.current_proc).files fd0 f0) fd1 f1 } := by
    rw [hk₅]
    exact Function.update_self _ _ _
  have hothers : ∀ i, i ≠ k.current_proc → k₅.pool i = k.pool i := by
    intro i hi
    rw [hk₅]
    exact Function.update_of_ne hi _ _
  have hfiles : k₅.filepool = k₃.filepool := by rw [hk₅]
  have hmm : k₅.mm = k₃.mm := by rw [hk₅]
  refine ⟨hself, hothers, by rw [hk₅], by rw [hfiles, ho.read],
    by rw [hfiles, ho.write], fun f hf0 hf1 => by rw [hfiles, ho.rest f hf0 hf1],
    by rw [hk₅, ho.page], ?_, fun x => ?_⟩
  · have hfield : ∀ i, (k₅.pool i).pagetable = (k₃.pool i).pagetable ∧
        (k₅.pool i).sz = (k₃.pool i).sz ∧
        (k₅.pool i).trapframe = (k₃.pool i).trapframe ∧ (Dead (k₅.pool i) ↔ Dead (k₃.pool i)) := by
      intro i
      rw [ho.pool]
      by_cases hi : i = k.current_proc
      · rw [hi, hself]
        exact ⟨rfl, rfl, rfl, Iff.rfl⟩
      · rw [hothers i hi]
        exact ⟨rfl, rfl, rfl, Iff.rfl⟩
    exact ho.pages.same hmm (fun _ hx => hx) (fun i => (hfield i).1) (fun i => (hfield i).2.1)
      (fun i => (hfield i).2.2.1) fun i => (hfield i).2.2.2
  · obtain ⟨hr, _⟩ := hok.root hcur hlive
    unfold Mapped
    rw [hmm, (ho.same _ hr).2.userPage]

/-- The second half of `sys_pipe`, up to the undoing. -/
theorem Opened.fds_runs {k₃ : Kernel} {fd0 fd1 : Option Nat} {Q : Int → Kernel → Prop}
    (ho : Opened lk P k k₃ pi f0 f1 l) (hok : PagesOk lk k P (pi :: l))
    (hcur : k.current_proc < NPROC) (hlive : ¬ Dead (k.pool k.current_proc))
    (h0 : firstFd (k.pool k.current_proc).files = fd0)
    (h1 : firstFd (putFd (k.pool k.current_proc).files fd0 f0) = fd1) (fdarray : Nat)
    (hg : ∀ k₅, FdsTaken lk P k k₅ pi f0 f1 fd0 fd1 l → ∀ r k₆,
      NumbersStored lk (fun x => P x ∨ x = pi) l k₅ (k.pool k.current_proc).pagetable fdarray
        (u64Bytes (fdValue fd0) ++ u64Bytes (fdValue fd1)) r k₆ →
      Runs E (pipeUndo lk f0 f1 fd0 fd1 r) k₆ Q) :
    Runs E (pipeFds lk f0 f1 fdarray) k₃ Q := by
  rw [runs_pipeFds, runs_fdalloc]
  unfold withFd
  rw [ho.pool, ho.current, h0]
  dsimp only
  rw [runs_fdalloc]
  unfold withFd
  dsimp only
  simp only [Function.update_self, Function.update_idem, h1]
  generalize hk₅ : ({ k₃ with pool := _, current_proc := _ } : Kernel) = k₅
  have ht := ho.fdsTaken hok hcur hlive hk₅.symm
  have hlive₅ : ¬ Dead (k₅.pool k₅.current_proc) := by
    rw [ht.current, ht.own]
    exact hlive
  clear hk₅
  rintro root hroot
  have hroot' : (k.pool k.current_proc).pagetable = (k₅.pool k₅.current_proc).pagetable := by
    rw [ht.current, ht.own]
  have hcur₅ : k₅.current_proc < NPROC := by rwa [ht.current]
  subst hroot
  apply (storeNumbers_runs ht.pages hcur₅ hlive₅ hroot' (length_u64Bytes _)
    (length_u64Bytes _) fdarray).imp
  intro r0 k₆ hstored
  exact ⟨fun hr => hg k₅ ht _ _ (hstored.1 hr),
    fun hr => (hstored.2 hr).imp fun r k₆ => hg k₅ ht r k₆⟩

/-- The numbers are stored: the pipe is made. -/
theorem FdsTaken.made {k₅ k₆ : Kernel} {fdarray : Nat}
    (ht : FdsTaken lk P k k₅ pi f0 f1 (some a) (some b) l)
    (hok : PagesOk lk k P (pi :: l)) (hfree : (k.filepool f0).ref = 0 ∧ (k.filepool f1).ref = 0)
    (h0 : firstFd (k.pool k.current_proc).files = some a)
    (h1 : firstFd (putFd (k.pool k.current_proc).files (some a) f0) = some b)
    (hk₆ : k₆ = { k₅ with mm := k₆.mm })
    (hbytes : userBytes k₆.mm.mem (k.pool k.current_proc).pagetable fdarray 16 =
      u64Bytes a ++ u64Bytes b) : MadePipe lk k k₆ fdarray a b f0 f1 pi := by
  obtain ⟨ha3, hamax, hanone⟩ := firstFd_some h0
  obtain ⟨hb3, hbmax, hbnone⟩ := firstFd_some h1
  have hba : b ≠ a := by
    rintro rfl
    unfold putFd at hbnone
    dsimp only at hbnone
    rw [Function.update_self] at hbnone
    cases hbnone
  unfold putFd at hbnone
  dsimp only at hbnone
  rw [Function.update_of_ne hba] at hbnone
  refine ⟨⟨⟨ha3, hamax⟩, hb3, hbmax⟩, hba.symm, ⟨hanone, hbnone⟩, ?_,
    ⟨hfree.1, hfree.2, (isFree_iff hok.spaces.free).mpr (List.mem_cons_self ..)⟩, ?_, ?_, ?_,
    hbytes⟩
  · rw [hk₆]
    dsimp only
    rw [ht.own]
    rfl
  · rw [hk₆]
    exact ht.read
  · rw [hk₆]
    exact ht.write
  · rw [hk₆]
    exact ht.page

/-- The numbers have no place: all is undone. -/
theorem FdsTaken.undone_runs {k₅ k₆ : Kernel} {fd0 fd1 : Option Nat}
    (ht : FdsTaken lk P k k₅ pi f0 f1 fd0 fd1 l) (hok : PagesOk lk k P (pi :: l)) (hne : f1 ≠ f0)
    (hfree : (k.filepool f0).ref = 0 ∧ (k.filepool f1).ref = 0)
    (h0 : firstFd (k.pool k.current_proc).files = fd0)
    (h1 : firstFd (putFd (k.pool k.current_proc).files fd0 f0) = fd1)
    (hp₆ : PagesOk lk k₆ (fun x => P x ∨ x = pi) l) (hk₆ : k₆ = { k₅ with mm := k₆.mm }) :
    Runs E (pipeUndo lk f0 f1 fd0 fd1 (-1)) k₆ fun r k' => r = -1 ∧ Undone lk fd1 k k' := by
  unfold pipeUndo
  rw [if_pos (by decide)]
  have hfile₆ : k₆.filepool = k₅.filepool := by rw [hk₆]
  apply closeEnds_runs hp₆ (show P pi ∨ pi = pi from Or.inr rfl) hne rfl rfl
  · rw [hfile₆, ht.read]
    exact ⟨rfl, rfl, rfl, rfl⟩
  · rw [hfile₆, ht.write]
    exact ⟨rfl, rfl, rfl, rfl⟩
  · rw [hk₆]
    exact ht.page
  rintro k₇ hpool₇ hcur₇ href0 href1 hrest₇ hp₇
  have hcur : k₇.current_proc = k.current_proc := by rw [hcur₇, hk₆, ← ht.current]
  have hpool : k₇.pool = k₅.pool := by rw [hpool₇, hk₆]
  rw [Runs.bind_iff, runs_clearFd, Runs.bind_iff, runs_clearFd, Runs.pure_iff]
  dsimp only
  rw [hcur, Function.update_self, Function.update_idem, hpool, ht.own, dropped_twice h0 h1]
  refine ⟨rfl, Function.update_self _ _ _, fun i hi => ?_, fun f => ?_, fun f hf => ?_,
    fun x => ?_⟩
  · dsimp only
    rw [Function.update_of_ne hi, ht.others i hi]
  · dsimp only
    by_cases hf0 : f = f0
    · rw [hf0, href0, hfree.1]
    · by_cases hf1 : f = f1
      · rw [hf1, href1, hfree.2]
      · rw [hrest₇ f hf0 hf1, hfile₆, ht.rest f hf0 hf1]
  · dsimp only
    have hf0 : f ≠ f0 := fun hc => hf (hc ▸ hfree.1)
    have hf1 : f ≠ f1 := fun hc => hf (hc ▸ hfree.2)
    rw [hrest₇ f hf0 hf1, hfile₆, ht.rest f hf0 hf1]
  · dsimp only
    rw [isFree_iff hok.spaces.free, isFree_iff hp₇.spaces.free]

/-- With a page and two files, it all depends on the place for the numbers. -/
theorem finish_runs {k₃ : Kernel} {fd0 fd1 : Option Nat} (hok : PagesOk lk k P (pi :: l))
    (ho : Opened lk P k k₃ pi f0 f1 l) (hcur : k.current_proc < NPROC)
    (hlive : ¬ Dead (k.pool k.current_proc)) (h0 : firstFd (k.pool k.current_proc).files = fd0)
    (h1 : firstFd (putFd (k.pool k.current_proc).files fd0 f0) = fd1) (fdarray : Nat) :
    Runs E (pipeFds lk f0 f1 fdarray) k₃ (Finished lk k fdarray fd0 fd1 f0 f1 pi) := by
  have hfree := And.intro ho.free0 ho.free1
  apply ho.fds_runs hok hcur hlive h0 h1
  rintro k₅ ht r k₆ ⟨hp₆, hk₆, ⟨rfl, hm, hbytes⟩ | ⟨rfl, u, hu, hno⟩⟩
  · unfold pipeUndo
    rw [if_neg (by decide), Runs.pure_iff]
    refine Or.inl ⟨rfl, fun u hu => (ht.mapped _).mp (hm u hu), ?_⟩
    rintro a b rfl rfl
    exact ht.made hok hfree h0 h1 hk₆ hbytes
  · apply (ht.undone_runs hok ho.ne hfree h0 h1 hp₆ hk₆).imp
    rintro r k' ⟨hr, hundone⟩
    exact Or.inr ⟨hr, ⟨u, hu, fun hc => hno ((ht.mapped _).mpr hc)⟩, hundone⟩

theorem pipealloc_empty {r0 r1 : Option Nat} {Q : Int → Kernel → Prop} (h : k.mm.freelist = 0)
    (hQ : Q (-1) k) :
    Runs E (pipealloc r0 r1) k Q := by
  rw [runs_pipealloc, runs_onMm]
  exact runs_kalloc.mpr ⟨fun _ => ⟨fun _ => hQ, fun hc => absurd rfl hc⟩, fun hc => absurd h hc⟩

/-- Without a page the call fails, and the files that it took stay in use. -/
theorem no_page_runs (h : k.mm.freelist = 0) (fdarray : Nat) :
    Runs E (sys_pipe lk fdarray) k (fun r k' =>
    r = -1 ∧ (freeFile k.filepool = none → k' = k) ∧
      ∀ f0, freeFile k.filepool = some f0 → (k'.filepool f0).ref = 1) := by
  rw [runs_sys_pipe]
  cases h0 : freeFile k.filepool with
  | none =>
    rw [runs_filealloc_none h0, runs_filealloc_none h0]
    apply pipealloc_empty h
    exact ⟨fun _ => ⟨rfl, fun _ => rfl, fun f0 hf0 => by cases hf0⟩,
      fun hc => absurd (by decide) hc⟩
  | some f0 =>
    rw [runs_filealloc_some h0, runs_filealloc]
    constructor
    · intro _
      refine pipealloc_empty h ?_
      refine ⟨fun _ => ⟨rfl, (fun hc => by cases hc), fun f hf => ?_⟩,
        fun hc => absurd (by decide) hc⟩
      cases hf
      dsimp only
      rw [Function.update_self]
    · intro f1 h1
      have hne : f1 ≠ f0 := (secondFile_some h0 (by unfold secondFile; rw [h0]; exact h1)).2.2
      refine pipealloc_empty h ?_
      refine ⟨fun _ => ⟨rfl, (fun hc => by cases hc), fun f hf => ?_⟩,
        fun hc => absurd (by decide) hc⟩
      cases hf
      dsimp only
      rw [Function.update_of_ne hne.symm, Function.update_self]

/-- With a page and less than two files, the call stores to a null file. -/
theorem no_files_stops (hpage : k.mm.freelist ≠ 0) (hfiles : ¬ TwoFiles k.filepool)
    (fdarray : Nat) :
    Runs (fun _ => True) (sys_pipe lk fdarray) k (fun _ _ => False) := by
  have hstop : ∀ (r0 r1 : Option Nat) (k' : Kernel), k'.mm = k.mm → (r0 = none ∨ r1 = none) →
      Runs (fun _ => True) (pipealloc r0 r1) k' (fun _ _ => False) := by
    intro r0 r1 k' hmm hnone
    rw [runs_pipealloc, runs_onMm, hmm]
    refine runs_kalloc.mpr ⟨fun hc => absurd hc hpage,
      fun _ => ⟨fun hc => absurd hc hpage, fun _ => ?_⟩⟩
    rw [runs_onMm, memset, Runs.modify_iff]
    refine ⟨fun _ => trivial, ?_⟩
    rintro a b _ rfl rfl _
    rcases hnone with hc | hc
    · cases hc
    · cases hc
  have hnone : freeFile k.filepool = none ∨ secondFile k.filepool = none := by
    by_contra hc
    push Not at hc
    obtain ⟨f0, h0⟩ := Option.ne_none_iff_exists'.mp hc.1
    obtain ⟨f1, h1⟩ := Option.ne_none_iff_exists'.mp hc.2
    exact hfiles (twoFiles_iff.mpr ⟨f0, f1, h0, h1⟩)
  unfold secondFile at hnone
  rw [runs_sys_pipe]
  cases h0 : freeFile k.filepool with
  | none =>
    rw [runs_filealloc_none h0, runs_filealloc_none h0]
    exact (hstop none none k rfl (Or.inl rfl)).imp fun _ _ h => h.elim
  | some f0 =>
    rw [h0] at hnone
    dsimp only at hnone
    rcases hnone with hc | h1
    · cases hc
    · rw [runs_filealloc_some h0, runs_filealloc_none h1]
      refine (hstop (some f0) none _ ?_ (Or.inr rfl)).imp fun _ _ h => h.elim
      rfl

theorem full_runs {fd0 fd1 : Option Nat} (h : PagesOk lk k P (pi :: l))
    (hcur : k.current_proc < NPROC) (hlive : ¬ Dead (k.pool k.current_proc))
    (h0 : freeFile k.filepool = some f0) (h1 : secondFile k.filepool = some f1)
    (hfd0 : firstFd (k.pool k.current_proc).files = fd0)
    (hfd1 : firstFd (putFd (k.pool k.current_proc).files fd0 f0) = fd1) (fdarray : Nat) :
    Runs E (sys_pipe lk fdarray) k (Finished lk k fdarray fd0 fd1 f0 f1 pi) := by
  apply open_runs h h0 h1
  rintro k₃ ho
  exact finish_runs h ho hcur hlive hfd0 hfd1 fdarray

/-- `sys_pipe` with a page and two files fails just when the numbers have no place. -/
theorem sys_pipe_fails_iff (h : PagesOk lk k P l) (hcur : k.current_proc < NPROC)
    (hlive : ¬ Dead (k.pool k.current_proc)) (hpage : k.mm.freelist ≠ 0)
    (hfiles : secondFile k.filepool ≠ none)
    (fdarray : Nat) : Runs E (sys_pipe lk fdarray) k (fun r _ =>
      r = -1 ↔ ∃ u < 16, ¬ Mapped k.mm.mem (k.pool k.current_proc).pagetable (fdarray + u)) := by
  cases l with
  | nil => exact absurd (h.spaces.free.chain.head_eq_zero_iff.mpr rfl) hpage
  | cons pi l =>
    obtain ⟨f1, h1⟩ := Option.ne_none_iff_exists'.mp hfiles
    have h0 : freeFile k.filepool ≠ none := by
      intro hc
      unfold secondFile at h1
      rw [hc] at h1
      cases h1
    obtain ⟨f0, h0⟩ := Option.ne_none_iff_exists'.mp h0
    apply (full_runs h hcur hlive h0 h1 rfl rfl fdarray).imp
    rintro r k' (⟨rfl, hm, _⟩ | ⟨rfl, hno, _⟩)
    · exact ⟨fun hc => absurd hc (by decide), fun ⟨u, hu, hno⟩ => absurd (hm u hu) hno⟩
    · exact ⟨fun _ => hno, fun _ => rfl⟩

/-- A call of `sys_pipe` makes a pipe or leaves nothing behind just when it finds
neither a page nor a file, or it finds all that it takes and the numbers do not
go to a page that the user can only read. -/
theorem a_pipe_or_nothing (h : PagesOk lk k P l) (hcur : k.current_proc < NPROC)
    (hlive : ¬ Dead (k.pool k.current_proc)) (fdarray : Nat) :
    PipeOrNothing lk k fdarray ↔ PipeIsClean k fdarray := by
  by_cases hpage : k.mm.freelist = 0
  · -- No page: the files that were taken decide.
    have hclean : PipeIsClean k fdarray ↔ freeFile k.filepool = none := by
      constructor
      · rintro ⟨⟨_, h⟩ | ⟨hc, _⟩, _⟩
        · exact h
        · exact absurd hpage hc
      · exact fun h => ⟨Or.inl ⟨hpage, h⟩, fun hc => absurd hpage hc⟩
    rw [hclean]
    constructor
    · intro hruns
      obtain ⟨r, k', _, ⟨hr, _, hf⟩, hpost⟩ :=
        ((no_page_runs (E := fun _ => False) hpage fdarray).and hruns).exists_ok fun e he => he.1
      rcases hpost with ⟨hc, _⟩ | ⟨_, hno⟩
      · omega
      · cases h0 : freeFile k.filepool with
        | none => rfl
        | some f0 =>
          have href := hno.refs f0
          rw [hf f0 h0] at href
          unfold freeFile at h0
          have hzero : (k.filepool f0).ref = 0 := by simpa using List.find?_some h0
          omega
    · intro hnone
      apply (no_page_runs hpage fdarray).imp
      rintro r k' ⟨hr, hsame, _⟩
      rw [hsame hnone]
      exact Or.inr ⟨hr, fun _ => rfl, fun _ => rfl, fun _ _ => rfl, fun _ => Iff.rfl⟩
  cases l with
  | nil => exact absurd (h.spaces.free.chain.head_eq_zero_iff.mpr rfl) hpage
  | cons pi l =>
    by_cases hfiles : TwoFiles k.filepool
    · obtain ⟨f0, f1, h0, h1⟩ := twoFiles_iff.mp hfiles
      have hfull := full_runs (E := fun _ => False) h hcur hlive h0 h1 rfl rfl fdarray
      have hnofds := @not_twoFree_iff (k.pool k.current_proc).files f0
      constructor
      · intro hruns
        obtain ⟨r, k', _, hcase, hpost⟩ := (hfull.and hruns).exists_ok fun e he => he.1
        rcases hpost with ⟨hr, hcan, _⟩ | ⟨hr, hno⟩
        · exact ⟨Or.inr ⟨hpage, hfiles, Or.inl hcan.fds⟩, fun _ _ => hcan.stores⟩
        · rcases hcase with ⟨hc, _⟩ | ⟨_, hplace, hundone⟩
          · omega
          · refine ⟨Or.inr ⟨hpage, hfiles, ?_⟩, fun _ hmapped => ?_⟩
            · by_cases hfds : TwoFree (k.pool k.current_proc).files
              · exact Or.inl hfds
              · exact Or.inr ⟨hundone.nothing_iff.mp hno (hnofds.mp hfds), hplace⟩
            · obtain ⟨u, hu, hun⟩ := hplace
              exact absurd (hmapped u hu) hun
      · rintro ⟨⟨hc, _⟩ | ⟨_, _, hfds⟩, hstores⟩
        · exact absurd hc hpage
        apply hfull.imp
        rintro r k' (⟨hr, hmapped, hmade⟩ | ⟨hr, _, hundone⟩)
        · have htwo : TwoFree (k.pool k.current_proc).files :=
            hfds.resolve_right fun ⟨_, u, hu, hun⟩ => hun (hmapped u hu)
          obtain ⟨a, b, ha, hb⟩ := (twoFree_iff f0).mp htwo
          rw [ha] at hmade
          exact Or.inl ⟨hr, ⟨hfiles, hpage, htwo, hstores hpage hmapped⟩, a, b, _, _, _,
            hmade a b rfl hb⟩
        · refine Or.inr ⟨hr, hundone.nothing_iff.mpr fun hnone => ?_⟩
          rcases hfds with htwo | ⟨hcode, _⟩
          · exact absurd htwo (hnofds.mpr hnone)
          · exact hcode
    · -- A file is missing.
      constructor
      · intro hruns
        obtain ⟨_, _, _, hc, _⟩ := ((no_files_stops hpage hfiles fdarray).and hruns).exists_ok
          fun e he => he.2
        exact hc.elim
      · rintro ⟨⟨hc, _⟩ | ⟨_, hc, _⟩, _⟩
        · exact absurd hc hpage
        · exact absurd hc hfiles

/-! ## A process that runs -/

section Running

/-- The page of the saved registers of a slot. -/
def regsPage (i : Nat) : Nat := 0x100000 + i * 0x1000

/-- A process with the address space `root`. All other slots are free. -/
def runningKernel (mm : Mm) (root sz : Nat) : Kernel :=
  { onePageKernel with
    mm := mm
    pool := fun i =>
      if i = 0 then { onePageKernel.pool 0 with
        pagetable := root
        sz := sz
        trapframe := regsPage 0 }
      else { onePageKernel.pool 0 with
        state := .UNUSED
        pagetable := 0
        sz := 0
        trapframe := regsPage i } }

theorem runningKernel_slot {mm : Mm} {root sz i : Nat} (hi : i ≠ 0) :
    (runningKernel mm root sz).pool i =
    { onePageKernel.pool 0 with
      state := .UNUSED
      pagetable := 0
      sz := 0
      trapframe := regsPage i } := if_neg hi

theorem runningKernel_live {mm : Mm} {root sz : Nat} :
    ¬ Dead ((runningKernel mm root sz).pool 0) := by
  have hstate : ((runningKernel mm root sz).pool 0).state = .RUNNING := rfl
  apply not_dead
  · rw [hstate]
    decide
  · rw [hstate]
    decide

theorem regsPage_frame {i : Nat} (h1 : lk.ekernel = 4096) (hi : i < NPROC) :
    IsFrame lk (regsPage i) := by
  unfold NPROC at hi
  have h2 : PHYSTOP = 0x88000000 := by decide
  refine ⟨?_, ?_, ?_⟩
  · unfold regsPage PGSIZE
    omega
  · unfold regsPage
    omega
  · unfold regsPage
    omega

theorem regsPage_inj {i j : Nat} (h : regsPage i = regsPage j) : i = j := by
  unfold regsPage at h
  omega

theorem regsPage_not_free {i : Nat} : regsPage i ∉ twentyPages := by
  unfold twentyPages regsPage
  intro hc
  obtain ⟨j, hj, heq⟩ := List.mem_map.mp hc
  have := List.mem_range.mp hj
  omega

/-- An application of one page is loaded, and pages are left. -/
theorem runningKernel_loaded (hk : lk.ekernel = 4096) : ∃ mm root sz l,
    PagesOk lk (runningKernel mm root sz) (fun _ => False) l ∧ 13 ≤ l.length ∧ npages sz = 2 ∧
      ∀ q < 2, IsMapped mm.mem root q := by
  have hframes : ∀ a ∈ twentyPages, IsFrame lk a := by
    intro a ha
    obtain ⟨j, hj, rfl⟩ := List.mem_map.mp ha
    have := List.mem_range.mp hj
    have h2 : PHYSTOP = 0x88000000 := by decide
    refine ⟨?_, ?_, ?_⟩
    · rw [PGSIZE_eq]
      omega
    · omega
    · omega
  have hfree : FreeList lk (freePages lk twentyPages) twentyPages :=
    freePages_freeList hframes (by decide)
  have hs : Spaces lk (freePages lk twentyPages) (fun _ => False) twentyPages (fun a => ∃ i < NPROC,
      a = regsPage i) := by
    refine ⟨hfree, fun r hr => hr.elim, fun r _ _ hr => hr.elim, ?_⟩
    rintro a ⟨i, hi, rfl⟩
    exact ⟨regsPage_frame hk hi, regsPage_not_free, fun r hr => hr.elim⟩
  obtain ⟨⟨root, sz⟩, mm, _, ⟨hroot, hsz⟩, l, hb, hcount⟩ :=
    (loadTask_runs hs ⟨0, by decide, rfl⟩ onePageApp).exists_ok fun _ => by decide
  have hnp : npages sz = 2 := by
    rw [show sz = _ from hsz, npages_mul (by rw [MAXVA_eq]; decide)]
    decide
  have hseven : loadPagesNeeded onePageApp = 7 := by decide
  have htwenty : twentyPages.length = 20 := by decide
  have hzero : ∀ i, ((runningKernel mm root sz).pool i).pagetable ≠ 0 → i = 0 := by
    intro i hne
    by_contra hi
    rw [runningKernel_slot hi] at hne
    exact hne rfl
  have htf : ∀ i, ((runningKernel mm root sz).pool i).trapframe = regsPage i := by
    intro i
    by_cases hi : i = 0
    · rw [hi]
      rfl
    · rw [runningKernel_slot hi]
  refine ⟨mm, root, sz, l, ⟨hb.spaces.congr ?_ ?_, fun i _ => ?_, fun i _ j _ hne heq => ?_,
    fun i hi => ?_,
    fun i _ j _ heq => ?_, fun _ _ hc => hc, fun i _ hne => ?_⟩, by omega, hnp, fun q hq => ?_⟩
  · rintro p ⟨i, _, rfl, hne⟩
    right
    rw [hzero i hne]
    rfl
  · rintro a (ha | ⟨i, hi, hnone, rfl⟩)
    · exact ha.elim
    · rw [htf]
      refine ⟨⟨i, hi, rfl⟩, fun hc => ?_⟩
      obtain rfl := regsPage_inj hc
      exact hroot hnone
  · by_cases hi : i = 0
    · subst hi
      exact ⟨fun hc => absurd hc hroot, fun hc => absurd hc runningKernel_live⟩
    · rw [runningKernel_slot hi]
      exact ⟨fun _ => Or.inl rfl, fun _ => rfl⟩
  · rw [hzero i hne, hzero j (heq ▸ hne)]
  · rw [htf]
    exact regsPage_frame hk hi
  · rw [htf, htf] at heq
    exact regsPage_inj heq
  · obtain rfl := hzero i hne
    refine ⟨hb.size, hb.loaded.trampoline, hb.loaded.trapframe, fun q hq h1 h2 hm => ?_⟩
    obtain ⟨huser, hlt⟩ := loaded_users hb.loaded hq h1 h2 hm
    exact ⟨huser, (hb.loaded.pages q hlt).decode.2.1⟩
  · exact (hb.loaded.pages q (hnp ▸ hq)).decode.1

/-- The first two files of the pool, when they are free. -/
theorem firstFiles_free {filepool : Nat → file} (h0 : (filepool 0).ref = 0)
    (h1 : (filepool 1).ref = 0) :
    freeFile filepool = some 0 ∧ secondFile filepool = some 1 := by
  have hfirst : ∀ (pool : Nat → file) (n : Nat), n < FILE_MAX → (∀ m < n, (pool m).ref ≠ 0) →
      (pool n).ref = 0 → freeFile pool = some n := by
    intro pool n hmax hbelow hn
    unfold freeFile
    rw [List.find?_range_eq_some]
    refine ⟨by simp [hn], List.mem_range.mpr hmax, fun m hm => by simp [hbelow m hm]⟩
  have hfree := hfirst filepool 0 (by decide) (fun m hm => by omega) h0
  refine ⟨hfree, ?_⟩
  unfold secondFile
  rw [hfree]
  apply hfirst _ 1 (by decide)
  · intro m hm
    obtain rfl : m = 0 := by omega
    simp
  · rwa [Function.update_of_ne (by decide)]

/-- The user may access both pages. -/
theorem runningKernel_mapped {mm : Mm} {root sz q : Nat}
    (h : PagesOk lk (runningKernel mm root sz) P l) (hq : q < 2) (hm : IsMapped mm.mem root q)
    (ha : a / PGSIZE = q) : Mapped mm.mem root a := by
  obtain ⟨_, hne⟩ := h.root (by decide : 0 < NPROC) runningKernel_live
  have htop : trampolinePage = 2 ^ 26 - 1 := rfl
  have htf : trapframePage = 2 ^ 26 - 2 := rfl
  obtain ⟨huser, hframe⟩ := (h.image 0 (by decide) hne).users q (by omega) (by omega) (by omega) hm
  change (pteAt mm.mem root q).testBit 4 = true at huser
  change IsFrame lk (frameAt mm.mem root q) at hframe
  have hMAX := MAXVA_eq
  rw [PGSIZE_eq] at ha
  have hmod : a % 2 ^ 64 = a := by omega
  have hdown : PGROUNDDOWN a / PGSIZE = q ∧ PGROUNDDOWN a < MAXVA := by
    unfold PGROUNDDOWN
    simp only [PGSIZE_eq]
    omega
  unfold Mapped
  rw [hmod, userPage_eq, if_neg (by omega), hdown.1, if_pos ⟨hm, huser⟩]
  exact hframe.ne_zero

theorem runningKernel_pages :
    ∃ mm root sz l, PagesOk pageLink (runningKernel mm root sz) (fun _ => False) l := by
  obtain ⟨mm, root, sz, l, h, _⟩ := @runningKernel_loaded pageLink rfl
  exact ⟨mm, root, sz, l, h⟩

end Running

/-! ## A process with all its descriptors in use -/

section Full

/-- A process with a file at each of its descriptors. -/
def fullFiles (k : Kernel) : Kernel :=
  { k with
    filepool := fun f => if 3 ≤ f ∧ f < FD_MAX then ⟨.FD_INODE, 1, true, false, 0, some 0, 0⟩ else
      k.filepool f
    pool := Function.update k.pool k.current_proc { k.pool k.current_proc with
      files := fun fd => if 3 ≤ fd ∧ fd < FD_MAX then some fd else none } }

theorem fullFiles_fds : ¬ TwoFree ((fullFiles k).pool (fullFiles k).current_proc).files := by
  rintro ⟨a, _, _, ⟨h3, hmax, hnone⟩, _⟩
  have hself : ((fullFiles k).pool (fullFiles k).current_proc).files a =
      if 3 ≤ a ∧ a < FD_MAX then some a else none := by
    unfold fullFiles
    dsimp only
    rw [Function.update_self]
  rw [hself, if_pos ⟨h3, hmax⟩] at hnone
  cases hnone

/-- The first two files are free, as before. -/
theorem fullFiles_free (h : ∀ f, (k.filepool f).ref = 0) :
    freeFile (fullFiles k).filepool = some 0 ∧ secondFile (fullFiles k).filepool = some 1 := by
  have hlow : ∀ f < 3, ((fullFiles k).filepool f).ref = 0 := by
    intro f hf
    unfold fullFiles
    dsimp only
    rw [if_neg (by omega), h]
  exact firstFiles_free (hlow 0 (by decide)) (hlow 1 (by decide))

theorem PagesOk.fullFiles (h : PagesOk lk k P l) : PagesOk lk (fullFiles k) P l := h.setFiles _ _

/-- A process that runs, in a kernel that has files for it. -/
theorem a_pipe_or_nothing_running : ∃ k, ¬ Dead (k.pool k.current_proc) ∧
    (PipeOrNothing pageLink k 0 ↔ PipeIsClean k 0) := by
  obtain ⟨mm, root, sz, l, h⟩ := runningKernel_pages
  exact ⟨runningKernel mm root sz, runningKernel_live,
    a_pipe_or_nothing h (Nat.zero_lt_succ _) runningKernel_live 0⟩

/-- No descriptor is free: the call takes a file or a page, and keeps it. -/
theorem a_full_process_keeps_files : ¬ ∀ (lk : Link) (k : Kernel) (P : Nat → Prop) (l : List Nat),
    PagesOk lk k P l → k.current_proc < NPROC → ¬ Dead (k.pool k.current_proc) →
    ∀ fdarray, PipeOrNothing lk k fdarray := by
  intro hall
  obtain ⟨mm, root, sz, l, h, hlen, _, hm⟩ := @runningKernel_loaded pageLink rfl
  have hlive : ¬ Dead ((fullFiles (runningKernel mm root sz)).pool 0) :=
    @runningKernel_live mm root sz
  have hruns := hall pageLink _ _ l h.fullFiles (Nat.zero_lt_succ _) hlive 0
  obtain ⟨h0, h1⟩ := fullFiles_free (k := runningKernel mm root sz) fun _ => rfl
  cases l with
  | nil => exact absurd hlen (by decide)
  | cons pi l =>
    have hfull := full_runs (E := fun _ => False) h.fullFiles (Nat.zero_lt_succ _) hlive
      h0 h1 rfl rfl 0
    obtain ⟨r, k', _, hcase, hpost⟩ := (hfull.and hruns).exists_ok fun e he => he.1
    rcases hcase with ⟨hr, _⟩ | ⟨_, ⟨u, hu, hno⟩, _⟩
    · rcases hpost with ⟨_, hcan, _⟩ | ⟨hc, _⟩
      · exact fullFiles_fds hcan.fds
      · omega
    · apply hno
      rw [Nat.zero_add]
      exact runningKernel_mapped h (by decide) (hm 0 (by decide))
        (Nat.div_eq_of_lt (Nat.lt_of_lt_of_le hu (by decide)))

end Full

end ThuKernel
