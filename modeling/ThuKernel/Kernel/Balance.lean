-- The references of the inode table against the open files: a call that
-- returns has given back what it took, or the file that it opened has it.
import ThuKernel.Fs.Refs
import ThuKernel.Kernel.CallRules
import ThuKernel.Kernel.Proc
import Mathlib.Algebra.BigOperators.Group.Finset.Basic
import Mathlib.Logic.Relation

namespace ThuKernel

/-! ## The open files -/

/-- The file is open on entry `i` of the inode table. -/
def OpenOn (x : file) (i : Nat) : Prop := 0 < x.ref ∧ x.type = .FD_INODE ∧ x.ip = some i

instance (x : file) (i : Nat) : Decidable (OpenOn x i) := by
  unfold OpenOn
  infer_instance

/-- The number of files that are open on entry `i`. -/
def openFiles (filepool : Nat → file) (i : Nat) : Int :=
  ∑ f ∈ Finset.range FILE_MAX, if OpenOn (filepool f) i then 1 else 0

/-- The references of entry `i` that no open file has. -/
def excess (k : Kernel) (i : Nat) : Int := (k.fs.itable i).ref - openFiles k.filepool i

/-- Each reference is that of an open file. -/
def Balanced (k : Kernel) : Prop := ∀ i, (k.fs.itable i).ref = openFiles k.filepool i

theorem balanced_iff {k : Kernel} : Balanced k ↔ excess k = 0 := by
  unfold Balanced excess
  constructor
  · intro h
    funext i
    rw [h i, sub_self]
    rfl
  · intro h i
    have := congrFun h i
    simp only [Pi.zero_apply] at this
    omega

/-- A file of the table changed. -/
theorem openFiles_update {filepool : Nat → file} {f : Nat} {x : file} (hf : f < FILE_MAX)
    (i : Nat) :
    openFiles (Function.update filepool f x) i = openFiles filepool i +
      ((if OpenOn x i then 1 else 0) - if OpenOn (filepool f) i then 1 else 0) := by
  unfold openFiles
  have hmem : f ∈ Finset.range FILE_MAX := Finset.mem_range.mpr hf
  rw [← Finset.add_sum_erase _ _ hmem, ← Finset.add_sum_erase _ (fun g =>
    if OpenOn (filepool g) i then (1 : Int) else 0) hmem, Function.update_self]
  have hrest : ∑ g ∈ (Finset.range FILE_MAX).erase f,
      (if OpenOn (Function.update filepool f x g) i then (1 : Int) else 0) =
      ∑ g ∈ (Finset.range FILE_MAX).erase f, if OpenOn (filepool g) i then 1 else 0 := by
    apply Finset.sum_congr rfl
    intro g hg
    rw [Function.update_of_ne (Finset.ne_of_mem_erase hg)]
  rw [hrest]
  omega

/-- The file table: a file in no use is of no type, and processes have files
of the table only. -/
structure FilesOk (k : Kernel) : Prop where
  free : ∀ f, (k.filepool f).ref = 0 → (k.filepool f).type ≠ .FD_INODE
  nonneg : ∀ f, 0 ≤ (k.filepool f).ref
  fds : ∀ p fd f, (k.pool p).files fd = some f → f < FILE_MAX

/-- From `k` to `k'`, the references that no open file has grew by `d`. -/
structure KMoves (d : Nat → Int) (k k' : Kernel) : Prop where
  excess : excess k' = excess k + d
  files : FilesOk k'
  distinct : Distinct k.fs → Distinct k'.fs

namespace KMoves

variable {d d' : Nat → Int} {k k₁ k₂ : Kernel}

theorem refl (hk : FilesOk k) : KMoves 0 k k := ⟨by rw [add_zero], hk, fun h => h⟩

theorem trans (h : KMoves d k k₁) (h' : KMoves d' k₁ k₂) : KMoves (d + d') k k₂ :=
  ⟨by rw [h'.excess, h.excess, add_assoc], h'.files, fun hd => h'.distinct (h.distinct hd)⟩

theorem idle (h : KMoves d k k₁) (h' : KMoves 0 k₁ k₂) : KMoves d k k₂ := by
  have := h.trans h'
  rwa [add_zero] at this

/-- A function of fs.c. -/
theorem ofFs {s : Fs} (hk : FilesOk k) (h : Moves d k.fs s) : KMoves d k { k with fs := s } := by
  refine ⟨?_, ⟨hk.free, hk.nonneg, hk.fds⟩, h.distinct⟩
  funext i
  show (s.itable i).ref - openFiles k.filepool i = _
  rw [Pi.add_apply, h.ref]
  unfold ThuKernel.excess
  omega

/-- A change of the file table. -/
theorem setFile {f : Nat} {x : file} (hk : FilesOk k) (hf : f < FILE_MAX) (hpos : 0 ≤ x.ref)
    (hfree : x.ref = 0 → x.type ≠ .FD_INODE) :
    KMoves (fun i => (if OpenOn (k.filepool f) i then 1 else 0) - if OpenOn x i then 1 else 0) k
      { k with filepool := Function.update k.filepool f x } := by
  refine ⟨?_, ⟨fun g => ?_, fun g => ?_, hk.fds⟩, fun h => h⟩
  · funext i
    show (k.fs.itable i).ref - openFiles (Function.update k.filepool f x) i = _
    rw [openFiles_update hf, Pi.add_apply]
    unfold ThuKernel.excess
    omega
  · dsimp only
    by_cases hg : g = f
    · subst hg
      rw [Function.update_self]
      exact hfree
    · rw [Function.update_of_ne hg]
      exact hk.free g
  · dsimp only
    by_cases hg : g = f
    · subst hg
      rw [Function.update_self]
      exact hpos
    · rw [Function.update_of_ne hg]
      exact hk.nonneg g

/-- A change of a file that stays open where it was, or stays shut. -/
theorem setFile_same {f : Nat} {x : file} (hk : FilesOk k) (hf : f < FILE_MAX) (hpos : 0 ≤ x.ref)
    (hfree : x.ref = 0 → x.type ≠ .FD_INODE)
    (hsame : ∀ i, OpenOn x i ↔ OpenOn (k.filepool f) i) :
    KMoves 0 k { k with filepool := Function.update k.filepool f x } := by
  have h := setFile hk hf hpos hfree
  have hd : (fun i => (if OpenOn (k.filepool f) i then (1 : Int) else 0) -
      if OpenOn x i then 1 else 0) = 0 := by
    funext i
    simp only [hsame i, sub_self, Pi.zero_apply]
  rwa [hd] at h

/-- A change outside the file system and the file table. -/
theorem ofSame (hk : FilesOk k) (hfs : k₁.fs = k.fs) (hpool : k₁.filepool = k.filepool)
    (hfds : ∀ p fd f, (k₁.pool p).files fd = some f → f < FILE_MAX) : KMoves 0 k k₁ := by
  refine ⟨?_, ⟨hpool ▸ hk.free, hpool ▸ hk.nonneg, hfds⟩, fun h => hfs ▸ h⟩
  funext i
  unfold ThuKernel.excess
  rw [hfs, hpool]
  simp

end KMoves

variable {lk : Link} {k : Kernel}

/-! ## The functions of file.c -/

/-- The reference that a shut file had. -/
def shut (x : file) (i : Nat) : Int := if x.type = .FD_INODE ∧ x.ip = some i then -1 else 0

theorem shut_of_type {x : file} (h : x.type ≠ .FD_INODE) : shut x = 0 := by
  funext i
  unfold shut
  rw [if_neg (fun hc => h hc.1)]
  rfl

theorem shut_of_ip {x : file} {ip : Nat} (h : x.type = .FD_INODE) (hip : x.ip = some ip) :
    shut x = only ip (-1) := by
  funext i
  unfold shut only
  simp only [h, hip, Option.some.injEq, true_and]
  by_cases hi : i = ip
  · rw [if_pos hi.symm, if_pos hi]
  · rw [if_neg fun hc => hi hc.symm, if_neg hi]

theorem closeLast_moves (x : file) :
    Runs NotIget (closeLast lk x) k (fun _ k' => k'.filepool = k.filepool ∧ k'.pool = k.pool ∧
      Moves (shut x) k.fs k'.fs) := by
  rw [runs_closeLast]
  refine ⟨fun hx => ?_, fun hx => ?_, fun hx => ⟨fun _ => by simp, fun ip hip => ?_⟩⟩
  · rw [shut_of_type (by rw [hx]; simp)]
    exact ⟨rfl, rfl, (Quiet.refl _).moves⟩
  · rw [shut_of_type (by rw [hx]; simp), runs_pipeclose rfl, runs_onMm]
    refine ⟨fun _ => ?_, fun _ => ⟨rfl, rfl, (Quiet.refl _).moves⟩⟩
    exact runs_kfree.mpr ⟨fun _ => by simp, fun _ => ⟨rfl, rfl, (Quiet.refl _).moves⟩⟩
  · rw [runs_onFs, shut_of_ip hx hip]
    apply (iput_moves k.fs ip).imp
    intro _ s h
    exact ⟨rfl, rfl, h⟩

/-- A closed file gives its reference back. -/
theorem fileclose_moves (hk : FilesOk k) {f : Nat} (hf : f < FILE_MAX) :
    Runs NotIget (fileclose lk f) k (fun _ k' => KMoves 0 k k' ∧ k'.pool = k.pool) := by
  rw [runs_fileclose rfl]
  refine ⟨fun _ => by simp, fun hmore => ?_, fun hlast => ?_⟩
  · refine ⟨?_, rfl⟩
    apply KMoves.setFile_same hk hf
    · dsimp only
      omega
    · intro h0
      dsimp only at h0
      omega
    · intro i
      unfold OpenOn
      dsimp only
      constructor
      · rintro ⟨_, h2, h3⟩
        exact ⟨by omega, h2, h3⟩
      · rintro ⟨_, h2, h3⟩
        exact ⟨by omega, h2, h3⟩
  · -- The last reference: the inode is put, and the file is shut.
    apply (closeLast_moves _).imp
    intro _ k₂ h
    obtain ⟨h1, h2, h3⟩ := h
    refine ⟨⟨?_, ⟨?_, ?_, fun p fd g hg => hk.fds p fd g (h2 ▸ hg)⟩, h3.distinct⟩, h2⟩
    · funext i
      show (k₂.fs.itable i).ref - openFiles (Function.update k₂.filepool f _) i = _
      rw [h1, Function.update_idem, openFiles_update hf, h3.ref, Pi.add_apply]
      have hold : (if OpenOn (k.filepool f) i then (1 : Int) else 0) = -shut (k.filepool f) i := by
        have hpos : 0 < (k.filepool f).ref := by omega
        unfold shut
        by_cases hc : (k.filepool f).type = .FD_INODE ∧ (k.filepool f).ip = some i
        · rw [if_pos (show OpenOn _ _ from ⟨hpos, hc⟩), if_pos hc, neg_neg]
        · rw [if_neg fun h : OpenOn _ _ => hc h.2, if_neg hc, neg_zero]
      rw [hold, if_neg (by simp [OpenOn])]
      show _ = (k.fs.itable i).ref - openFiles k.filepool i + (0 : Int)
      show (k.fs.itable i).ref + _ - _ = _
      omega
    · intro g
      dsimp only
      rw [h1, Function.update_idem]
      by_cases hg : g = f
      · subst hg
        rw [Function.update_self]
        simp
      · rw [Function.update_of_ne hg]
        exact hk.free g
    · intro g
      dsimp only
      rw [h1, Function.update_idem]
      by_cases hg : g = f
      · subst hg
        rw [Function.update_self, file.closed_ref]
      · rw [Function.update_of_ne hg]
        exact hk.nonneg g

/-- A free file is found. -/
theorem filealloc_moves (hk : FilesOk k) :
    Runs NotIget filealloc k (fun r k' => KMoves 0 k k' ∧ k'.pool = k.pool ∧
      ∀ f, r = some f → f < FILE_MAX ∧ (k'.filepool f).type ≠ .FD_INODE ∧
      (k'.filepool f).ref = 1) := by
  rw [runs_filealloc]
  refine ⟨fun _ => ⟨KMoves.refl hk, rfl, fun _ hf => by cases hf⟩, fun i h => ?_⟩
  unfold freeFile at h
  have hi := List.mem_range.mp (List.mem_of_find?_eq_some h)
  have h0 : (k.filepool i).ref = 0 := by simpa using List.find?_some h
  have htype := hk.free i h0
  refine ⟨?_, rfl, ?_⟩
  · apply KMoves.setFile_same hk hi
    · exact Int.one_nonneg
    · intro _
      exact htype
    · intro j
      constructor
      · intro hopen
        exact absurd hopen.2.1 htype
      · intro hopen
        exact absurd hopen.2.1 htype
  · intro f hf
    cases hf
    dsimp only
    rw [Function.update_self]
    exact ⟨hi, htype, rfl⟩

/-- A descriptor of the running process changes. -/
theorem KMoves.setFds (hk : FilesOk k) (i : Nat) {p : proc}
    (hp : ∀ fd f, p.files fd = some f → f < FILE_MAX) :
    KMoves 0 k { k with pool := Function.update k.pool i p } := by
  refine KMoves.ofSame hk rfl rfl fun q fd f => ?_
  dsimp only
  by_cases hq : q = i
  · subst hq
    rw [Function.update_self]
    exact hp fd f
  · rw [Function.update_of_ne hq]
    exact hk.fds q fd f

theorem fds_update {k : Kernel} (hk : FilesOk k) (i fd : Nat) {x : Option Nat}
    (hx : ∀ f, x = some f → f < FILE_MAX) (fd' f : Nat)
    (h : Function.update (k.pool i).files fd x fd' = some f) : f < FILE_MAX := by
  by_cases hfd : fd' = fd
  · subst hfd
    rw [Function.update_self] at h
    exact hx f h
  · rw [Function.update_of_ne hfd] at h
    exact hk.fds i fd' f h

theorem fdalloc_moves (hk : FilesOk k) {f : Nat} (hf : f < FILE_MAX) :
    Runs NotIget (fdalloc f) k (fun _ k' => KMoves 0 k k' ∧ k'.filepool = k.filepool) := by
  rw [runs_fdalloc]
  cases h : firstFd (k.pool k.current_proc).files with
  | none =>
    rw [withFd_none h]
    exact ⟨KMoves.refl hk, rfl⟩
  | some i =>
    rw [withFd_some h]
    refine ⟨?_, rfl⟩
    apply KMoves.setFds hk
    apply fds_update hk
    intro g hg
    cases hg
    exact hf

/-- A file that is not open yet, with a descriptor. -/
theorem openFile_moves (hk : FilesOk k) :
    Runs NotIget (openFile lk) k (fun r k' => KMoves 0 k k' ∧
      ∀ f fd, r = some (f, fd) → f < FILE_MAX ∧ (k'.filepool f).type ≠ .FD_INODE ∧
        (k'.filepool f).ref = 1) := by
  unfold openFile
  apply (filealloc_moves hk).bind
  intro r k₁ h1
  obtain ⟨h1, _, hnew⟩ := h1
  cases r with
  | none => exact ⟨h1, fun _ _ h => by cases h⟩
  | some f =>
    obtain ⟨hf, htype, href⟩ := hnew f rfl
    apply (fdalloc_moves h1.files hf).bind
    intro r k₂ h2
    obtain ⟨h2, hpool⟩ := h2
    have h12 := h1.idle h2
    cases r with
    | none =>
      apply (fileclose_moves h12.files hf).bind
      intro _ k₃ h3
      exact ⟨h12.idle h3.1, fun _ _ h => by cases h⟩
    | some fd =>
      refine ⟨h12, fun f' fd' h => ?_⟩
      cases h
      rw [hpool]
      exact ⟨hf, htype, href⟩

/-- The reference that comes with the inode goes to the new file, or is given
back. What the search for the inode keeps stays. -/
theorem fileopen_moves {E : Stop → Prop} (hE : ∀ e, NotIget e → E e) {P : (Nat → Int) → Prop}
    (hk : FilesOk k) {path : CStr} {omode : Nat}
    (hopen : Runs E (openInode path omode) k.fs
      (fun r s => ∃ d, P d ∧ Moves (d + result r) k.fs s)) :
    Runs E (fileopen lk path omode) k (fun _ k' => ∃ d, P d ∧ KMoves d k k') := by
  unfold fileopen
  rw [Runs.bind_iff, runs_onFs]
  apply hopen.imp
  intro r s₁ h
  obtain ⟨d, hd, h⟩ := h
  have h1 := KMoves.ofFs hk h
  cases r with
  | none => exact ⟨d, hd, by rwa [result, add_zero] at h1⟩
  | some ip =>
    dsimp only
    rw [Runs.bind_iff, runs_onFs, runs_getInode]
    split
    · exact hE _ (by simp)
    · rw [Runs.bind_iff]
      apply (openFile_moves h1.files).mono hE
      intro r k₂ h2
      obtain ⟨h2, hnew⟩ := h2
      have h12 := h1.idle h2
      cases r with
      | none =>
        -- No file: the inode is put.
        dsimp only
        rw [Runs.bind_iff, runs_onFs]
        apply (iput_moves k₂.fs ip).mono hE
        intro _ s₃ h3
        have h13 := h12.trans (KMoves.ofFs h12.files h3)
        rw [result, add_assoc, one_add_only, add_zero] at h13
        exact ⟨d, hd, h13⟩
      | some r =>
        obtain ⟨hf, htype, href⟩ := hnew r.1 r.2 rfl
        simp only [Runs.bind_iff, runs_getFile, runs_setFile, runs_onFs, runs_getInode,
          Runs.when_iff, Runs.pure_iff]
        have h3 := KMoves.setFile (x := { k₂.filepool r.1 with
          type := .FD_INODE, off := 0, ip := some ip
          readable := !hasFlag omode O_WRONLY
          writable := hasFlag omode O_WRONLY || hasFlag omode O_RDWR }) h12.files hf
          (by dsimp only; omega) (fun h0 => by dsimp only at h0; omega)
        have h13 := h12.trans h3
        have hd0 : d + result (some ip) + (fun i =>
            (if OpenOn (k₂.filepool r.1) i then (1 : Int) else 0) -
              if OpenOn { k₂.filepool r.1 with
                type := .FD_INODE, off := 0, ip := some ip
                readable := !hasFlag omode O_WRONLY
                writable := hasFlag omode O_WRONLY || hasFlag omode O_RDWR } i then
                  1 else 0) = d := by
          funext i
          have hold : ¬ OpenOn (k₂.filepool r.1) i := fun ho => htype ho.2.1
          simp only [result, one, only, Pi.add_apply, if_neg hold]
          by_cases hi : i = ip
          · rw [if_pos hi, if_pos ⟨by dsimp only; omega, rfl, by rw [hi]⟩]
            omega
          · rw [if_neg hi, if_neg fun ho => hi (Option.some.inj ho.2.2).symm]
            omega
        rw [hd0] at h13
        refine ⟨fun _ => ?_, fun _ => ⟨d, hd, h13⟩⟩
        apply (itrunc_quiet ip _).mono hE
        intro _ s₄ h4
        exact ⟨d, hd, h13.idle (KMoves.ofFs h13.files h4.moves)⟩

/-! ## The memory functions -/

/-- A change of the memory. -/
theorem onMm_moves {α : Type} (hk : FilesOk k) {f : Prog Mm α} (hf : StopsIn NotIget f) :
    Runs NotIget (onMm f) k (fun _ k' => KMoves 0 k k' ∧ k'.pool = k.pool) := by
  rw [runs_onMm]
  apply (hf k.mm).imp
  intro _ m _
  exact ⟨KMoves.ofSame hk rfl rfl hk.fds, rfl⟩

namespace StopsIn

theorem kalloc : StopsIn NotIget kalloc := by
  unfold ThuKernel.kalloc
  apply get.bind
  intro s
  apply ite (pure _)
  apply (set _).bind
  intro _
  exact pure _

theorem kfree (pa : Nat) : StopsIn NotIget (kfree lk pa) := by
  unfold ThuKernel.kfree
  exact ite (panic (by simp)) (modify _)

theorem walkFrom (va : Nat) (alloc : Bool) (level pagetable : Nat) :
    StopsIn NotIget (walkFrom va alloc level pagetable) := by
  induction level generalizing pagetable with
  | zero => exact pure _
  | succ level ih =>
    unfold ThuKernel.walkFrom
    apply get.bind
    intro s
    apply ite (ih _)
    apply ite (pure _)
    apply kalloc.bind
    intro child
    apply ite (pure _)
    apply (modify _).bind
    intro _
    apply (modify _).bind
    intro _
    exact ih _

theorem walk (pagetable va : Nat) (alloc : Bool) : StopsIn NotIget (walk pagetable va alloc) := by
  unfold ThuKernel.walk
  exact ite (panic (by simp)) (walkFrom _ _ _ _)

theorem mappages (pagetable va size pa perm : Nat) :
    StopsIn NotIget (mappages pagetable va size pa perm) := by
  unfold ThuKernel.mappages
  generalize MAXVA / PGSIZE + 1 = fuel
  generalize PGROUNDDOWN va = a
  induction fuel generalizing a pa with
  | zero => exact fault (by simp)
  | succ n ih =>
    unfold mappagesLoop
    apply (walk _ _ _).bind
    intro r
    cases r with
    | none => exact pure _
    | some pte =>
      apply get.bind
      intro s
      apply ite (pure _)
      apply (modify _).bind
      intro _
      exact ite (pure _) (ih _ _)

theorem uvmunmap (pagetable va npages : Nat) (do_free : Bool) :
    StopsIn NotIget (uvmunmap lk pagetable va npages do_free) := by
  unfold ThuKernel.uvmunmap
  apply ite (panic (by simp))
  generalize MAXVA / PGSIZE + 1 = fuel
  generalize (va + npages * PGSIZE) % 2 ^ 64 = stop
  induction fuel generalizing va with
  | zero => exact fault (by simp)
  | succ n ih =>
    unfold uvmunmapLoop
    apply ite _ (pure _)
    apply (walk _ _ _).bind
    intro r
    cases r with
    | none => exact panic (by simp)
    | some pte =>
      apply get.bind
      intro s
      apply ite (panic (by simp))
      apply ite (panic (by simp))
      apply (when (kfree _)).bind
      intro _
      apply (modify _).bind
      intro _
      exact ih _

theorem freewalk (depth pagetable : Nat) : StopsIn NotIget (freewalk lk depth pagetable) := by
  induction depth generalizing pagetable with
  | zero => exact fault (by simp)
  | succ depth ih =>
    unfold ThuKernel.freewalk
    apply StopsIn.bind
    · apply forUp
      intro i
      apply get.bind
      intro s
      apply when
      apply (ih _).bind
      intro _
      exact modify _
    · intro _
      exact kfree _

theorem uvmfree (pagetable sz : Nat) : StopsIn NotIget (uvmfree lk pagetable sz) := by
  unfold ThuKernel.uvmfree
  apply (when (uvmunmap _ _ _ _)).bind
  intro _
  exact freewalk _ _

theorem uvmcreate : StopsIn NotIget uvmcreate := by
  unfold ThuKernel.uvmcreate
  apply kalloc.bind
  intro pagetable
  apply ite (pure _)
  apply (modify _).bind
  intro _
  exact pure _

theorem proc_pagetable (trapframe : Nat) : StopsIn NotIget (proc_pagetable lk trapframe) := by
  unfold ThuKernel.proc_pagetable
  apply uvmcreate.bind
  intro pagetable
  apply ite (panic (by simp))
  apply (mappages _ _ _ _ _).bind
  intro r
  apply ite
  · apply (uvmfree _ _).bind
    intro _
    exact pure _
  · apply (modify _).bind
    intro _
    apply (mappages _ _ _ _ _).bind
    intro r
    exact ite (panic (by simp)) (pure _)

theorem proc_freepagetable (pagetable sz : Nat) :
    StopsIn NotIget (proc_freepagetable lk pagetable sz) := by
  unfold ThuKernel.proc_freepagetable
  apply (uvmunmap _ _ _ _).bind
  intro _
  apply (uvmunmap _ _ _ _).bind
  intro _
  exact uvmfree _ _

theorem uvmcopy (old new sz : Nat) : StopsIn NotIget (uvmcopy lk old new sz) := by
  unfold ThuKernel.uvmcopy
  generalize MAXVA / PGSIZE + 1 = fuel
  generalize 0 = i
  induction fuel generalizing i with
  | zero => exact fault (by simp)
  | succ n ih =>
    unfold uvmcopyLoop
    apply ite _ (pure _)
    apply (walk _ _ _).bind
    intro r
    cases r with
    | none => exact panic (by simp)
    | some pte =>
      apply get.bind
      intro s
      apply ite (panic (by simp))
      apply kalloc.bind
      intro mem
      apply ite
      · apply (uvmunmap _ _ _ _).bind
        intro _
        exact pure _
      · apply (modify _).bind
        intro _
        apply (mappages _ _ _ _ _).bind
        intro r
        apply ite _ (ih _)
        apply (kfree _).bind
        intro _
        apply (uvmunmap _ _ _ _).bind
        intro _
        exact pure _

end StopsIn

/-! ## The system calls on files -/

/-- A reference that no file has stays with some entry. -/
def Pinned (d : Nat → Int) : Prop := ∃ i, 0 < d i

theorem found_nonneg (r : Option (Nat × Nat)) (i : Nat) : 0 ≤ found r i := by
  cases r with
  | none => exact le_refl _
  | some r =>
    show 0 ≤ (if i = r.1 then (1 : Int) else 0)
    split
    · exact Int.one_nonneg
    · exact le_refl _

/-- A reference to the root directory that is not given back. -/
theorem pinned_one_add (dp : Nat) {d : Nat → Int} (hd : ∀ i, 0 ≤ d i) : Pinned (one dp + d) := by
  refine ⟨dp, ?_⟩
  have := hd dp
  rw [Pi.add_apply]
  unfold one only
  rw [if_pos rfl]
  omega

theorem openInode_create {path : CStr} {omode : Nat} (hc : hasFlag omode O_CREATE = true) (s : Fs) :
    Runs (FullButTwo s) (openInode path omode) s
      (fun r s' => ∃ d, d = 0 ∧ Moves (d + result r) s s') := by
  unfold openInode
  rw [if_pos hc]
  apply (create_moves s path T_FILE).imp
  intro r s' h
  exact ⟨0, rfl, by rwa [zero_add]⟩

/-- Without `O_CREATE`, the reference of `namei` to the root directory stays. -/
theorem openInode_existing {path : CStr} {omode : Nat} (hc : ¬ hasFlag omode O_CREATE = true)
    (s : Fs) : Runs (fun _ => True) (openInode path omode) s
      (fun r s' => ∃ d, Pinned d ∧ Moves (d + result r) s s') := by
  unfold openInode
  rw [if_neg hc]
  apply (namei_moves s path).bind
  intro r s₁ h
  obtain ⟨dp, _, h1⟩ := h
  have hpin : Pinned (one dp) := by
    have := pinned_one_add dp (d := 0) fun _ => le_refl _
    rwa [add_zero] at this
  cases r with
  | none => exact ⟨one dp, hpin, h1⟩
  | some ip =>
    dsimp only
    rw [Runs.bind_iff]
    apply (ivalid_moves h1 ip).mono (fun _ _ => trivial)
    intro _ s₂ h2
    exact ⟨one dp, hpin, h2⟩

theorem linkat_moves (s : Fs) (oldpath newpath : Bytes) :
    Runs (fun _ => True) (linkat oldpath newpath) s (fun _ s' => ∃ d, Pinned d ∧ Moves d s s') := by
  unfold linkat
  rw [Runs.bind_iff]
  apply (root_dir_moves s).mono (fun _ _ => trivial)
  intro dp s₁ h1
  split
  · refine ⟨one dp + 0, pinned_one_add dp fun _ => le_refl _, ?_⟩
    rw [add_zero]
    exact h1.1
  · rw [Runs.bind_iff]
    apply (dirlookup_moves s₁ dp _).mono (fun _ _ => trivial)
    intro r s₂ h2
    have h12 := h1.1.trans h2
    have hpin := pinned_one_add dp (found_nonneg r)
    cases r with
    | none => exact ⟨_, hpin, h12⟩
    | some r =>
      dsimp only
      rw [Runs.bind_iff, runs_getInode, Runs.bind_iff]
      apply (dirlink_moves s₂ dp _ _).mono (fun _ _ => trivial)
      intro r' s₃ h3
      have h13 := h12.trans h3
      rw [add_zero] at h13
      split
      · exact ⟨_, hpin, h13⟩
      · exact ⟨_, hpin, h13⟩

theorem unlinkat_moves (s : Fs) (path behind : Bytes) :
    Runs (fun _ => True) (unlinkat path behind) s (fun _ s' => ∃ d, Pinned d ∧ Moves d s s') := by
  unfold unlinkat
  rw [Runs.bind_iff]
  apply (root_dir_moves s).mono (fun _ _ => trivial)
  intro dp s₁ h1
  rw [Runs.bind_iff]
  apply (dirlookup_moves s₁ dp _).mono (fun _ _ => trivial)
  intro r s₂ h2
  have h12 := h1.1.trans h2
  cases r with
  | none => exact ⟨_, pinned_one_add dp (found_nonneg none), h12⟩
  | some r =>
    dsimp only
    rw [Runs.bind_iff]
    apply (dirunlink_moves s₂ dp _ behind).mono (fun _ _ => trivial)
    intro r' s₃ h3
    obtain ⟨q, h3⟩ := h3
    have h13 := h12.trans h3
    rw [add_assoc] at h13
    have hpin : Pinned (one dp + (found (some r) + found q)) :=
      pinned_one_add dp fun i => Int.add_nonneg (found_nonneg _ i) (found_nonneg _ i)
    split
    · exact ⟨_, hpin, h13⟩
    · exact ⟨_, hpin, h13⟩

theorem countLinks_quiet (dp inum : Nat) : Quietly (countLinks dp inum) := by
  have hloop : ∀ n off nlink, Quietly (nlinkLoop dp inum n off nlink) := by
    intro n
    induction n with
    | zero =>
      intro off nlink
      exact Quietly.fault
    | succ n ih =>
      intro off nlink
      unfold nlinkLoop
      apply (Quietly.getInode dp).bind
      intro x
      apply Quietly.ite
      · apply (readi_quiet dp _ _ _).bind
        intro r
        exact Quietly.ite (Quietly.pure _) (ih _ _)
      · exact Quietly.pure _
  unfold countLinks
  apply (Quietly.getInode dp).bind
  intro x
  exact hloop _ _ _

/-- A file of the table moves on. -/
theorem advance_moves (hk : FilesOk k) {f : Nat} (hf : f < FILE_MAX) (r : Int) :
    Runs NotIget (advance f r) k (fun _ k' => KMoves 0 k k') := by
  unfold advance
  rw [Runs.when_iff]
  refine ⟨fun _ => ?_, fun _ => KMoves.refl hk⟩
  rw [Runs.bind_iff, runs_getFile, runs_setFile]
  exact KMoves.setFile_same hk hf (hk.nonneg f) (hk.free f) fun _ => Iff.rfl

theorem fileread_moves (hk : FilesOk k) {f : Nat} (hf : f < FILE_MAX) (va len : Nat) :
    Runs NotIget (fileread f va len) k (fun _ k' => KMoves 0 k k') := by
  unfold fileread
  rw [Runs.bind_iff, runs_getFile, Runs.bind_iff]
  apply runs_deref (by simp)
  intro ip _
  rw [Runs.bind_iff, runs_onFs]
  apply (ivalid_quiet ip k.fs).imp
  intro _ s₁ h1
  simp only [Runs.bind_iff, Runs.get_iff, runs_curr_proc, runs_onFs]
  have hk1 := KMoves.ofFs hk h1.moves
  apply (readi_quiet ip _ _ _ s₁).imp
  rintro ⟨r, dst⟩ s₂ h2
  have hk2 := KMoves.ofFs hk (h1.trans h2).moves
  have hput : Runs NotIget (putDst dst) { k with fs := s₂ } (fun _ k' => KMoves 0 k k') := by
    cases dst with
    | user mm pagetable va =>
      exact hk2.idle (KMoves.ofSame hk2.files rfl rfl hk2.files.fds)
    | kernel got => exact hk2
  apply hput.imp
  intro _ k₃ h3
  apply (advance_moves h3.files hf r).imp
  intro _ k₄ h4
  exact h3.idle h4

theorem filewrite_moves (hk : FilesOk k) {f : Nat} (hf : f < FILE_MAX) (va len : Nat) :
    Runs NotIget (filewrite f va len) k (fun _ k' => KMoves 0 k k') := by
  unfold filewrite
  rw [Runs.bind_iff, runs_getFile, Runs.bind_iff]
  apply runs_deref (by simp)
  intro ip _
  rw [Runs.bind_iff, runs_onFs]
  apply (ivalid_quiet ip k.fs).imp
  intro _ s₁ h1
  simp only [Runs.bind_iff, Runs.get_iff, runs_curr_proc, runs_onFs, Runs.pure_iff]
  apply (writei_quiet ip _ _ _ s₁).imp
  intro r s₂ h2
  have hk2 := KMoves.ofFs hk (h1.trans h2).moves
  apply (advance_moves hk2.files hf r).imp
  intro _ k₃ h3
  exact hk2.idle h3

theorem sys_openat_moves {E : Stop → Prop} (hE : ∀ e, NotIget e → E e) {P : (Nat → Int) → Prop}
    (hk : FilesOk k) {omode : Nat}
    (hopen : ∀ path, Runs E (openInode path omode) k.fs
      (fun r s => ∃ d, P d ∧ Moves (d + result r) k.fs s)) (path : Bytes) (va : Nat) :
    Runs E (sys_openat lk path va omode) k (fun _ k' => ∃ d, P d ∧ KMoves d k k') := by
  unfold sys_openat
  rw [Runs.bind_iff, runs_curr_proc, Runs.bind_iff, runs_onMm]
  apply (copyinstr_runs _ _ _).imp
  rintro ⟨r, bytes⟩ m h
  have h1 : KMoves 0 k { k with mm := m } := KMoves.ofSame hk rfl rfl hk.fds
  apply (fileopen_moves (k := { k with mm := m }) hE h1.files (hopen _)).imp
  intro _ k₂ h2
  obtain ⟨d, hd, h2⟩ := h2
  refine ⟨d, hd, ?_⟩
  have := h1.trans h2
  rwa [zero_add] at this

theorem sys_close_moves (hk : FilesOk k) (fd : Int) :
    Runs NotIget (sys_close lk fd) k (fun _ k' => KMoves 0 k k') := by
  unfold sys_close
  split
  · exact KMoves.refl hk
  · rw [Runs.bind_iff]
    apply runs_fileAt (by simp)
    intro f _ _ hfd
    apply (fileclose_moves hk (hk.fds _ _ _ hfd)).bind
    intro _ k₁ h1
    obtain ⟨h1, _⟩ := h1
    rw [Runs.bind_iff, runs_modifyCurr, Runs.pure_iff]
    apply h1.idle
    apply KMoves.setFds h1.files
    apply fds_update h1.files
    intro f hf
    cases hf

theorem sys_read_moves (hk : FilesOk k) (str : Bytes) (fd : Int) (va len : Nat) :
    Runs NotIget (sys_read str fd va len) k (fun _ k' => KMoves 0 k k') := by
  unfold sys_read
  split
  · unfold console_read
    rw [Runs.map_iff, Runs.bind_iff, runs_curr_proc, Runs.bind_iff, runs_onMm]
    apply (copyout_runs _ _ _).imp
    intro _ m _
    exact KMoves.ofSame hk rfl rfl hk.fds
  · rw [Runs.bind_iff]
    apply runs_fileAt (by simp)
    intro f _ _ hfd
    rw [Runs.bind_iff, runs_getFile]
    cases (k.filepool f).type with
    | FD_NONE => simp
    | FD_PIPE => exact KMoves.refl hk
    | FD_INODE => exact Runs.map_iff.mpr (fileread_moves hk (hk.fds _ _ _ hfd) va len)

theorem sys_write_moves (hk : FilesOk k) (fd : Int) (va len : Nat) :
    Runs NotIget (sys_write fd va len) k (fun _ k' => KMoves 0 k k') := by
  unfold sys_write
  split
  · exact KMoves.refl hk
  · split
    · unfold console_write
      rw [Runs.map_iff, Runs.bind_iff, runs_curr_proc, Runs.bind_iff, runs_onMm]
      apply (copyinstr_runs _ _ _).imp
      rintro ⟨r, bytes⟩ m _
      exact KMoves.ofSame hk rfl rfl hk.fds
    · rw [Runs.bind_iff]
      apply runs_fileAt (by simp)
      intro f _ _ hfd
      rw [Runs.bind_iff, runs_getFile]
      cases (k.filepool f).type with
      | FD_NONE => simp
      | FD_PIPE => exact KMoves.refl hk
      | FD_INODE => exact Runs.map_iff.mpr (filewrite_moves hk (hk.fds _ _ _ hfd) va len)

theorem copyinPath_moves (path : Bytes) (va : Nat) {E : Stop → Prop} :
    Runs E (copyinPath path va) k (fun _ k' => k'.fs = k.fs ∧ k'.filepool = k.filepool ∧
      k'.pool = k.pool) := by
  unfold copyinPath
  rw [Runs.bind_iff, runs_curr_proc, Runs.bind_iff, runs_onMm]
  apply (copyin_runs _ _ _).imp
  rintro ⟨r, bytes⟩ m _
  exact ⟨rfl, rfl, rfl⟩

theorem sys_linkat_moves (hk : FilesOk k) (oldpath newpath : Bytes) (oldpath_ newpath_ : Nat) :
    Runs (fun _ => True) (sys_linkat oldpath newpath oldpath_ newpath_) k
      (fun _ k' => ∃ d, Pinned d ∧ KMoves d k k') := by
  unfold sys_linkat
  apply (copyinPath_moves oldpath oldpath_).bind
  rintro old k₁ ⟨a1, a2, a3⟩
  apply (copyinPath_moves newpath newpath_).bind
  rintro new k₂ ⟨b1, b2, b3⟩
  have h1 : KMoves 0 k k₂ := KMoves.ofSame hk (b1.trans a1) (b2.trans a2) ((b3.trans a3) ▸ hk.fds)
  rw [runs_onFs]
  apply (linkat_moves k₂.fs old new).imp
  intro _ s h
  obtain ⟨d, hd, h⟩ := h
  have := h1.trans (KMoves.ofFs h1.files h)
  rw [zero_add] at this
  exact ⟨d, hd, this⟩

theorem sys_unlinkat_moves (hk : FilesOk k) (path behind : Bytes) (path_ : Nat) :
    Runs (fun _ => True) (sys_unlinkat path behind path_) k
      (fun _ k' => ∃ d, Pinned d ∧ KMoves d k k') := by
  unfold sys_unlinkat
  apply (copyinPath_moves path path_).bind
  rintro name k₁ ⟨a1, a2, a3⟩
  have h1 : KMoves 0 k k₁ := KMoves.ofSame hk a1 a2 (a3 ▸ hk.fds)
  rw [runs_onFs]
  apply (unlinkat_moves k₁.fs name behind).imp
  intro _ s h
  obtain ⟨d, hd, h⟩ := h
  have := h1.trans (KMoves.ofFs h1.files h)
  rw [zero_add] at this
  exact ⟨d, hd, this⟩

/-- `fstat` never gives the root directory back. -/
theorem sys_fstat_moves (hk : FilesOk k) (sst : Bytes) {fd : Nat} (st : Nat) (hfd : ¬ FD_MAX ≤ fd) :
    Runs (fun _ => True) (sys_fstat sst fd st) k (fun _ k' => ∃ d, Pinned d ∧ KMoves d k k') := by
  unfold sys_fstat
  rw [if_neg hfd, Runs.bind_iff, runs_onFs]
  apply (root_dir_moves k.fs).mono (fun _ _ => trivial)
  intro dp s₁ h1
  have hk1 := KMoves.ofFs hk h1.1
  have hpin : Pinned (one dp) := by
    have := pinned_one_add dp (d := 0) fun _ => le_refl _
    rwa [add_zero] at this
  unfold statInode
  simp only [Runs.bind_iff]
  apply runs_fileAt (by simp)
  intro f _ _ _
  rw [runs_getFile]
  apply runs_deref (by simp)
  intro ip _
  rw [runs_onFs, runs_getInode, runs_onFs]
  apply (countLinks_quiet dp _ s₁).mono (fun _ _ => trivial)
  intro r s₂ h2
  have hk2 := KMoves.ofFs hk (h1.1.quiet h2)
  cases r with
  | none => exact ⟨_, hpin, hk2⟩
  | some nlink =>
    dsimp only
    rw [Runs.bind_iff, runs_onFs, runs_getInode]
    split
    · exact ⟨_, hpin, hk2⟩
    · rw [Runs.bind_iff, runs_curr_proc, Runs.bind_iff, runs_onMm]
      apply (copyout_runs _ _ _).imp
      intro r m _
      have hmm : KMoves 0 { k with fs := s₂ } { k with fs := s₂, mm := m } :=
        KMoves.ofSame hk2.files rfl rfl hk2.files.fds
      have hk3 := hk2.idle hmm
      split
      · exact ⟨_, hpin, hk3⟩
      · exact ⟨_, hpin, hk3⟩

/-! ## Processes -/

/-- A process keeps its files. -/
theorem KMoves.setProc (hk : FilesOk k) (i : Nat) {p : proc} (hp : p.files = (k.pool i).files) :
    KMoves 0 k { k with pool := Function.update k.pool i p } :=
  KMoves.setFds hk i (hp ▸ hk.fds i)

theorem allocproc_moves (hk : FilesOk k) :
    Runs NotIget (allocproc lk) k (fun _ k' => KMoves 0 k k') := by
  rw [runs_allocproc]
  refine ⟨fun _ => KMoves.refl hk, fun i _ => ?_⟩
  apply (StopsIn.proc_pagetable _ _).imp
  rintro root s _
  refine ⟨fun _ => by simp, fun _ => ?_⟩
  have h1 := KMoves.setProc hk i (p := newProc k i root) rfl
  exact h1.idle (KMoves.ofSame h1.files rfl rfl h1.files.fds)

/-- A file of the parent is a file of the copy, with one more reference. -/
theorem dupFile_moves (hk : FilesOk k) (i np fd : Nat) :
    Runs NotIget (dupFile i np fd) k (fun _ k' => KMoves 0 k k') := by
  unfold dupFile
  rw [Runs.bind_iff, runs_getProc]
  cases hfd : (k.pool i).files fd with
  | none => exact KMoves.refl hk
  | some f =>
    have hf := hk.fds i fd f hfd
    dsimp only
    rw [Runs.bind_iff, runs_getFile, Runs.when_iff]
    refine ⟨fun _ => ?_, fun _ => KMoves.refl hk⟩
    rw [Runs.bind_iff, runs_setFile, Runs.bind_iff, runs_getProc, runs_setProc]
    have hpos := hk.nonneg f
    have h1 := KMoves.setFile_same (x := { k.filepool f with ref := (k.filepool f).ref + 1 }) hk hf
      (by dsimp only; omega) (fun h0 => by dsimp only at h0; omega) fun j => by
        constructor
        · rintro ⟨_, h2, h3⟩
          refine ⟨?_, h2, h3⟩
          by_contra hc
          exact hk.free f (by omega) h2
        · rintro ⟨h1, h2, h3⟩
          exact ⟨by dsimp only; omega, h2, h3⟩
    apply h1.idle
    apply KMoves.setFds h1.files
    apply fds_update h1.files
    intro g hg
    cases hg
    exact hf

theorem fork_moves (hk : FilesOk k) : Runs NotIget (fork lk) k (fun _ k' => KMoves 0 k k') := by
  rw [runs_fork]
  apply (allocproc_moves hk).imp
  rintro r k₁ h1 i _ np _ _ rfl _ rfl
  apply (onMm_moves h1.files (StopsIn.uvmcopy _ _ _)).imp
  rintro r' k₂ ⟨h2, hpool2⟩
  have h12 := h1.idle h2
  refine ⟨fun _ => h12, fun _ => ?_⟩
  have h3 := h12.idle (KMoves.setProc h12.files np (p := {
    k₁.pool np with sz := (k₁.pool i).sz }) (by rw [hpool2]))
  apply (onMm_moves h3.files (StopsIn.modify _)).imp
  rintro _ k₄ ⟨h4, _⟩
  have hloop : Runs NotIget (Prog.forUp (dupFile i np) 0 FD_MAX) k₄ (fun _ k' =>
      KMoves 0 k k') := by
    refine Runs.forUp (fun _ k' => KMoves 0 k k') (fun fd k' _ _ h => ?_) (h3.idle h4)
    apply (dupFile_moves h.files _ _ fd).imp
    intro _ k'' h'
    exact h.idle h'
  apply hloop.imp
  intro _ k₅ h5
  apply (onMm_moves h5.files (StopsIn.modify _)).imp
  rintro _ k₆ ⟨h6, _⟩
  have h16 := h5.idle h6
  exact h16.idle (KMoves.setProc h16.files np rfl)

theorem closeFiles_moves (hk : FilesOk k) (i : Nat) :
    Runs NotIget (closeFiles lk i) k (fun _ k' => KMoves 0 k k') := by
  unfold closeFiles
  refine Runs.forUp (fun _ k' => KMoves 0 k k') (fun fd k₁ _ _ h1 => ?_) (KMoves.refl hk)
  rw [Runs.bind_iff, runs_getProc]
  cases hfd : (k₁.pool i).files fd with
  | none => exact h1
  | some f =>
    apply (fileclose_moves h1.files (h1.files.fds i fd f hfd)).bind
    intro _ k₂ h2
    have h12 := h1.idle h2.1
    rw [Runs.bind_iff, runs_getProc, runs_setProc]
    apply h12.idle
    apply KMoves.setFds h12.files
    apply fds_update h12.files
    intro g hg
    cases hg

theorem freeproc_moves (hk : FilesOk k) (i : Nat) :
    Runs NotIget (freeproc lk i) k (fun _ k' => KMoves 0 k k') := by
  rw [runs_freeproc]
  have hmm : Runs NotIget (Prog.when ((k.pool i).pagetable ≠ 0)
      (onMm (proc_freepagetable lk (k.pool i).pagetable (k.pool i).sz))) k
      (fun _ k' => KMoves 0 k k') := by
    rw [Runs.when_iff]
    refine ⟨fun _ => ?_, fun _ => KMoves.refl hk⟩
    apply (onMm_moves hk (StopsIn.proc_freepagetable _ _)).imp
    intro _ k₁ h1
    exact h1.1
  apply hmm.imp
  intro _ k₂ h2
  have h3 := h2.idle (KMoves.setProc h2.files i (p := { k₂.pool i with
    pagetable := 0, state := .UNUSED }) rfl)
  apply (closeFiles_moves h3.files i).imp
  intro _ k₄ h4
  exact h3.idle h4

theorem exit_moves (hk : FilesOk k) (code : Int) :
    Runs NotIget (exit lk code) k (fun _ k' => KMoves 0 k k') := by
  rw [runs_exit]
  have h1 :=
    KMoves.setProc hk k.current_proc (p := { k.pool k.current_proc with exit_code := code }) rfl
  apply (freeproc_moves h1.files _).imp
  intro _ k₂ h2
  have h12 := h1.idle h2
  exact ⟨fun _ => h12.idle (KMoves.setProc h12.files _ rfl), fun _ => h12⟩

end ThuKernel
