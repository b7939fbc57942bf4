-- The buffer cache over runs of the file system calls: what the cache holds
-- of a block is what the disk holds, as long as no write to a file fails in
-- the middle of a block.
import ThuKernel.Fs.Buffers
import ThuKernel.Kernel.CallRules
import Mathlib.Logic.Relation

namespace ThuKernel

/-! ## What a call keeps -/

/-- Every file on an inode is on the one disk. -/
def FilesOnDisk (k : Kernel) : Prop :=
  ∀ f, (k.filepool f).type = .FD_INODE → ∀ ip, (k.filepool f).ip = some ip →
    (k.fs.itable ip).dev = ROOTDEV

/-- What a call keeps: the rules of the file system code, and that files are
on the one disk. -/
structure KTame (c : Prop) (k k' : Kernel) : Prop where
  fs : Tame c k.fs k'.fs
  files : FilesOnDisk k → FilesOnDisk k'

namespace KTame

variable {c c' : Prop} {k k₁ k₂ : Kernel}

theorem refl (hs : CacheOk k.fs.bio) : KTame c k k := ⟨Tame.refl hs, fun h => h⟩

theorem trans (h : KTame c k k₁) (h' : KTame c k₁ k₂) : KTame c k k₂ :=
  ⟨h.fs.trans h'.fs, fun hk => h'.files (h.files hk)⟩

theorem weaken (h : KTame c k k₁) (hc : c' → c) : KTame c' k k₁ := ⟨h.fs.weaken hc, h.files⟩

theorem cache (h : KTame c k k₁) : CacheOk k₁.fs.bio := h.fs.cache

theorem room2 (h : KTame c k k₁) (hr : Room2 k.fs.bio) : Room2 k₁.fs.bio := h.fs.room2 hr

theorem ofFs {s : Fs} (h : Tame c k.fs s) : KTame c k { k with fs := s } :=
  ⟨h, fun hk f hf ip hip => h.dev ip (hk f hf ip hip)⟩

/-- A change outside the file system that makes no new file on an inode. -/
theorem ofSame (hs : CacheOk k.fs.bio) (hfs : k₁.fs = k.fs)
    (hfiles : ∀ f, (k₁.filepool f).type = .FD_INODE →
      (k.filepool f).type = .FD_INODE ∧ (k₁.filepool f).ip = (k.filepool f).ip) :
    KTame c k k₁ := by
  refine ⟨by rw [hfs]; exact Tame.refl hs, fun hk f hf ip hip => ?_⟩
  obtain ⟨h1, h2⟩ := hfiles f hf
  rw [hfs]
  exact hk f h1 ip (by rw [← h2]; exact hip)

theorem setFile {f : Nat} {x : file} (h : KTame c k k₁)
    (hx : x.type = .FD_INODE → ∀ ip, x.ip = some ip → (k₁.fs.itable ip).dev = ROOTDEV) :
    KTame c k { k₁ with filepool := Function.update k₁.filepool f x } := by
  refine ⟨h.fs, fun hk g hg ip hip => ?_⟩
  by_cases hgf : g = f
  · subst hgf
    simp only [Function.update_self] at hg hip
    exact hx hg ip hip
  · simp only [Function.update_of_ne hgf] at hg hip
    exact h.files hk g hg ip hip

end KTame

variable {k : Kernel} {lk : Link}

/-! ## The functions of file.c -/

theorem pipeclose_ktame (c : Prop) (hs : CacheOk k.fs.bio) (pi : Nat) (writable : Bool) :
    Runs NotBget (pipeclose lk pi writable) k (fun _ k' => KTame c k k') := by
  rw [runs_pipeclose rfl, runs_onMm]
  refine ⟨fun _ => ?_, fun _ => KTame.ofSame hs rfl fun _ h => ⟨h, rfl⟩⟩
  exact runs_kfree.mpr ⟨fun _ => by simp, fun _ => KTame.ofSame hs rfl fun _ h => ⟨h, rfl⟩⟩

theorem closeLast_ktame (c : Prop) (hs : CacheOk k.fs.bio) (x : file) :
    Runs NotBget (closeLast lk x) k (fun _ k' => KTame c k k') := by
  rw [runs_closeLast]
  refine ⟨fun _ => KTame.refl hs, fun _ => pipeclose_ktame c hs _ _,
    fun _ => ⟨fun _ => by simp, fun ip _ => ?_⟩⟩
  rw [runs_onFs]
  exact (iput_tame c hs ip).imp fun _ _ h => KTame.ofFs h

theorem fileclose_ktame (c : Prop) (hs : CacheOk k.fs.bio) (hf : FilesOnDisk k) (f : Nat) :
    Runs NotBget (fileclose lk f) k (fun _ k' => KTame c k k') := by
  have h1 := (KTame.refl (c := c) hs).setFile (f := f)
    (x := { k.filepool f with ref := (k.filepool f).ref - 1 }) fun hx ip hip => hf f hx ip hip
  rw [runs_fileclose rfl]
  refine ⟨fun _ => by simp, fun _ => h1, fun _ => ?_⟩
  refine (closeLast_ktame c h1.cache (k.filepool f)).imp fun _ k₂ h2 => ?_
  exact (h1.trans h2).setFile fun hx => by cases hx

theorem filealloc_ktame (c : Prop) (hs : CacheOk k.fs.bio) (hf : FilesOnDisk k) :
    Runs NotBget filealloc k (fun _ k' => KTame c k k') := by
  rw [runs_filealloc]
  exact ⟨fun _ => KTame.refl hs, fun i _ => (KTame.refl hs).setFile fun hx ip hip => hf i hx ip hip⟩

theorem fdalloc_ktame (c : Prop) (hs : CacheOk k.fs.bio) (f : Nat) :
    Runs NotBget (fdalloc f) k (fun _ k' => KTame c k k') := by
  rw [runs_fdalloc]
  exact KTame.ofSame hs rfl fun _ h => ⟨h, rfl⟩

theorem openFile_ktame (c : Prop) (hs : CacheOk k.fs.bio) (hf : FilesOnDisk k) :
    Runs NotBget (openFile lk) k (fun _ k' => KTame c k k') := by
  unfold openFile
  refine (filealloc_ktame c hs hf).bind fun r k₁ h1 => ?_
  cases r with
  | none => exact h1
  | some f =>
    refine (fdalloc_ktame c h1.cache f).bind fun r k₂ h2 => ?_
    have h12 := h1.trans h2
    cases r with
    | none =>
      refine (fileclose_ktame c h12.cache (h12.files hf) f).bind fun _ k₃ h3 => ?_
      exact h12.trans h3
    | some fd => exact h12

theorem openInode_tame (c : Prop) {s : Fs} (hs : CacheOk s.bio) (hr : Room2 s.bio) (path : CStr)
    (omode : Nat) : Runs NotBget (openInode path omode) s (fun r s' => Tame c s s' ∧
      ∀ ip, r = some ip → (s'.itable ip).dev = ROOTDEV) := by
  unfold openInode
  split
  · exact create_tame c hs hr path T_FILE
  · refine (namei_tame c hs hr path).bind ?_
    rintro r s₁ ⟨h1, hip⟩
    cases r with
    | none => exact ⟨h1, fun _ h => by cases h⟩
    | some ip =>
      refine (ivalid_tame c h1.cache (h1.room hr.room) (hip ip rfl)).bind fun _ s₂ h2 => ?_
      refine ⟨h1.trans h2, fun ip' he => ?_⟩
      cases he
      exact h2.dev ip (hip ip rfl)

theorem fileopen_ktame (c : Prop) (hs : CacheOk k.fs.bio) (hr : Room2 k.fs.bio)
    (hf : FilesOnDisk k) (path : CStr) (omode : Nat) :
    Runs NotBget (fileopen lk path omode) k (fun _ k' => KTame c k k') := by
  unfold fileopen
  rw [Runs.bind_iff, runs_onFs]
  refine (openInode_tame c hs hr path omode).imp ?_
  rintro r s₁ ⟨h, hdev⟩
  have h1 := KTame.ofFs h
  cases r with
  | none => exact h1
  | some ip =>
    dsimp only
    rw [Runs.bind_iff, runs_onFs, runs_getInode]
    split
    · simp
    · refine (openFile_ktame c h1.cache (h1.files hf)).bind fun r k₂ h2 => ?_
      have h12 := h1.trans h2
      have hip := h2.fs.dev ip (hdev ip rfl)
      cases r with
      | none =>
        dsimp only
        rw [Runs.bind_iff, runs_onFs]
        exact (iput_tame c h12.cache ip).imp fun _ _ h3 => h12.trans (KTame.ofFs h3)
      | some r =>
        simp only [Runs.bind_iff, runs_getFile, runs_setFile, runs_onFs, runs_getInode,
          Runs.when_iff, Runs.pure_iff]
        have h3 := h12.setFile (f := r.1) (x := { k₂.filepool r.1 with
          type := .FD_INODE, off := 0, ip := some ip
          readable := !hasFlag omode O_WRONLY
          writable := hasFlag omode O_WRONLY || hasFlag omode O_RDWR })
          fun _ ip' he => by cases he; exact hip
        refine ⟨fun _ => ?_, fun _ => h3⟩
        exact (itrunc_tame c h3.cache (h3.room2 hr) hip).imp fun _ _ h4 => h3.trans (KTame.ofFs h4)

theorem advance_ktame (c : Prop) (hs : CacheOk k.fs.bio) (hf : FilesOnDisk k) (f : Nat) (r : Int) :
    Runs NotBget (advance f r) k (fun _ k' => KTame c k k') := by
  unfold advance
  rw [Runs.when_iff, Runs.bind_iff, runs_getFile, runs_setFile]
  exact ⟨fun _ => (KTame.refl hs).setFile fun hx ip hip => hf f hx ip hip, fun _ => KTame.refl hs⟩

theorem fileread_ktame (c : Prop) (hs : CacheOk k.fs.bio) (hr : Room2 k.fs.bio)
    (hf : FilesOnDisk k) {f : Nat} (hfile : (k.filepool f).type = .FD_INODE) (va len : Nat) :
    Runs NotBget (fileread f va len) k (fun _ k' => KTame c k k') := by
  unfold fileread
  rw [Runs.bind_iff, runs_getFile, Runs.bind_iff]
  refine runs_deref (by simp) fun ip hip => ?_
  have hdev := hf f hfile ip hip
  rw [Runs.bind_iff, runs_onFs]
  refine (ivalid_tame c hs hr.room hdev).imp fun _ s₁ h1 => ?_
  simp only [Runs.bind_iff, Runs.get_iff, runs_curr_proc, runs_onFs]
  have hk1 := KTame.ofFs h1
  refine (readi_tame c h1.cache (h1.room2 hr) (h1.dev ip hdev) _ _ _).imp ?_
  rintro ⟨r, dst⟩ s₂ h2
  have hk2 := KTame.ofFs (h1.trans h2)
  have hput : Runs NotBget (putDst dst) { k with fs := s₂ } (fun _ k' => KTame c k k') := by
    cases dst with
    | user mm pagetable va =>
      exact hk2.trans (KTame.ofSame hk2.cache rfl fun _ h => ⟨h, rfl⟩)
    | kernel got => exact hk2
  refine hput.imp fun _ k₃ h3 => ?_
  refine (advance_ktame c h3.cache (h3.files hf) f r).imp fun _ k₄ h4 => h3.trans h4

theorem filewrite_ktame (hs : CacheOk k.fs.bio) (hr : Room2 k.fs.bio) (hf : FilesOnDisk k) {f : Nat}
    (hfile : (k.filepool f).type = .FD_INODE) (va len : Nat) :
    Runs NotBget (filewrite f va len) k (fun _ k' => KTame
      (WholeChunks (.user k.mm (k.pool k.current_proc).pagetable va) (len % 2 ^ 32)
        (len % 2 ^ 32 + 1) 0 (k.filepool f).off) k k') := by
  unfold filewrite
  rw [Runs.bind_iff, runs_getFile, Runs.bind_iff]
  refine runs_deref (by simp) fun ip hip => ?_
  have hdev := hf f hfile ip hip
  rw [Runs.bind_iff, runs_onFs]
  refine (ivalid_tame (WholeChunks (.user k.mm (k.pool k.current_proc).pagetable va)
    (len % 2 ^ 32) (len % 2 ^ 32 + 1) 0 (k.filepool f).off) hs hr.room hdev).imp fun _ s₁ h1 => ?_
  simp only [Runs.bind_iff, Runs.get_iff, runs_curr_proc, runs_onFs, Runs.pure_iff]
  refine (writei_tame h1.cache (h1.room2 hr) (h1.dev ip hdev) _ _ _).imp fun r s₂ h2 => ?_
  have hk2 := KTame.ofFs (k := k) (h1.trans h2)
  exact (advance_ktame _ hk2.cache (hk2.files hf) f r).imp fun _ _ h3 => hk2.trans h3

/-! ## The system calls -/

theorem linkat_tame (c : Prop) {s : Fs} (hs : CacheOk s.bio) (hr : Room2 s.bio)
    (oldpath newpath : Bytes) :
    Runs NotBget (linkat oldpath newpath) s (fun _ s' => Tame c s s') := by
  unfold linkat
  refine (root_dir_tame c hs hr.room).bind ?_
  rintro dp s₁ ⟨h1, hdp⟩
  split
  · exact h1
  · refine (dirlookup_tame c h1.cache (h1.room2 hr) hdp _).bind ?_
    rintro r s₂ ⟨h2, _⟩
    have h12 := h1.trans h2
    cases r with
    | none => exact h12
    | some r =>
      dsimp only
      rw [Runs.bind_iff, runs_getInode]
      refine (dirlink_tame c h12.cache (h12.room2 hr) (h2.dev dp hdp) _ _).bind fun r s₃ h3 => ?_
      split
      · exact h12.trans h3
      · exact h12.trans h3

theorem unlinkat_tame (c : Prop) {s : Fs} (hs : CacheOk s.bio) (hr : Room2 s.bio)
    (path behind : Bytes) :
    Runs NotBget (unlinkat path behind) s (fun _ s' => Tame c s s') := by
  unfold unlinkat
  refine (root_dir_tame c hs hr.room).bind ?_
  rintro dp s₁ ⟨h1, hdp⟩
  refine (dirlookup_tame c h1.cache (h1.room2 hr) hdp _).bind ?_
  rintro r s₂ ⟨h2, _⟩
  have h12 := h1.trans h2
  cases r with
  | none => exact h12
  | some r =>
    refine (dirunlink_tame c h12.cache (h12.room2 hr) (h2.dev dp hdp) _ _).bind fun r s₃ h3 => ?_
    split
    · exact h12.trans h3
    · exact h12.trans h3

theorem nlinkLoop_tame (c : Prop) {s : Fs} (hs : CacheOk s.bio) (hr : Room2 s.bio) {dp : Nat}
    (hdp : (s.itable dp).dev = ROOTDEV) (inum n off nlink : Nat) :
    Runs NotBget (nlinkLoop dp inum n off nlink) s (fun _ s' => Tame c s s') := by
  induction n generalizing s off nlink with
  | zero => simp [nlinkLoop]
  | succ n ih =>
    unfold nlinkLoop
    rw [Runs.bind_iff, runs_getInode]
    split
    · refine (readi_tame c hs hr hdp _ _ _).bind ?_
      rintro ⟨r, dst⟩ s₁ h1
      dsimp only
      split
      · exact h1
      · exact (ih h1.cache (h1.room2 hr) (h1.dev dp hdp) _ _).imp fun _ _ h2 => h1.trans h2
    · exact Tame.refl hs

theorem countLinks_tame (c : Prop) {s : Fs} (hs : CacheOk s.bio) (hr : Room2 s.bio) {dp : Nat}
    (hdp : (s.itable dp).dev = ROOTDEV) (inum : Nat) :
    Runs NotBget (countLinks dp inum) s (fun _ s' => Tame c s s') := by
  unfold countLinks
  rw [Runs.bind_iff, runs_getInode]
  exact nlinkLoop_tame c hs hr hdp _ _ _ _

/-- A copy between the kernel and user pages touches no file. -/
theorem onMm_ktame {α : Type} (c : Prop) (hs : CacheOk k.fs.bio) {f : Prog Mm α}
    (hf : Runs NotBget f k.mm fun _ _ => True) :
    Runs NotBget (onMm f) k (fun _ k' => KTame c k k') := by
  rw [runs_onMm]
  exact hf.imp fun _ _ _ => KTame.ofSame hs rfl fun _ h => ⟨h, rfl⟩

theorem onFs_ktame {α : Type} {c : Prop} {f : Prog Fs α} {Q : α → Fs → Prop}
    (hf : Runs NotBget f k.fs fun a s' => Tame c k.fs s' ∧ Q a s') :
    Runs NotBget (onFs f) k (fun a k' => KTame c k k' ∧ Q a k'.fs) := by
  rw [runs_onFs]
  exact hf.imp fun _ _ h => ⟨KTame.ofFs h.1, h.2⟩

theorem copyinPath_ktame (c : Prop) (hs : CacheOk k.fs.bio) (path : Bytes) (va : Nat) :
    Runs NotBget (copyinPath path va) k (fun _ k' => KTame c k k') := by
  unfold copyinPath
  rw [Runs.bind_iff, runs_curr_proc]
  refine (onMm_ktame c hs ((copyin_runs _ _ _).imp fun _ _ _ => trivial)).bind ?_
  rintro ⟨r, bytes⟩ k₁ h1
  exact h1

/-- The pages that `write` copies from. The first byte that is not mapped, if
there is one in the buffer, is the start of the buffer or goes to the start
of a block. -/
def GapAtBlock (mem : Bytes) (pagetable va off n : Nat) : Prop :=
  ∀ t < n, (∀ u < t, Mapped mem pagetable (va + u)) → ¬ Mapped mem pagetable (va + t) →
    t = 0 ∨ (off + t) % BSIZE = 0

/-- Such a gap is found at the start of a chunk, so no chunk fails half way. -/
theorem GapAtBlock.wholeChunks {mm : Mm} {pagetable va off n : Nat}
    (hgap : GapAtBlock mm.mem pagetable va off n) (fuel tot : Nat)
    (hmap : ∀ u < tot, Mapped mm.mem pagetable (va + u))
    (hstart : tot = 0 ∨ (off + tot) % BSIZE = 0 ∨ tot = n) :
    WholeChunks (.user mm pagetable va) n fuel tot (off + tot) := by
  induction fuel generalizing tot with
  | zero => trivial
  | succ fuel ih =>
    intro htot r bytes hcopy
    have hm : min (n - tot) (BSIZE - (off + tot) % BSIZE) ≤ n - tot := Nat.min_le_left _ _
    have hm' : min (n - tot) (BSIZE - (off + tot) % BSIZE) = n - tot ∨
        (off + tot + min (n - tot) (BSIZE - (off + tot) % BSIZE)) % BSIZE = 0 := by
      unfold BSIZE
      omega
    have hm'' : min (n - tot) (BSIZE - (off + tot) % BSIZE) ≤ BSIZE - (off + tot) % BSIZE :=
      Nat.min_le_right _ _
    generalize hlen : min (n - tot) (BSIZE - (off + tot) % BSIZE) = m at *
    dsimp only [either_copyin] at hcopy
    have hc := copyin_runs (E := fun _ => False) (s := mm) pagetable (va + tot) m
    cases hrun : copyin pagetable (va + tot) m mm with
    | error e => exact (hc.of_error hrun).elim
    | ok res =>
      obtain ⟨⟨r', bytes'⟩, mm'⟩ := res
      rw [hrun] at hcopy
      cases hcopy
      obtain ⟨_, _, hall, hend⟩ := hc.of_ok hrun
      dsimp only at hall hend
      have hmapped : ∀ u < tot + bytes.length, Mapped mm.mem pagetable (va + u) := by
        intro u hu
        by_cases hut : u < tot
        · exact hmap u hut
        · have := hall (u - tot) (by omega)
          rwa [show va + tot + (u - tot) = va + u by omega] at this
      refine ⟨fun hr => ?_, fun hr => ?_⟩
      · -- The copy failed: its first unmapped byte starts the chunk.
        rcases hend with ⟨h0, _⟩ | ⟨_, hlt, hnot⟩
        · omega
        · rw [Nat.add_assoc] at hnot
          have hat := hgap (tot + bytes.length) (by omega) hmapped hnot
          have : bytes.length = 0 := by
            unfold BSIZE at *
            omega
          exact List.length_eq_zero_iff.mp this
      · rcases hend with ⟨_, hlen'⟩ | ⟨h1, _⟩
        · rw [Nat.add_assoc]
          refine ih (tot + m) (fun u hu => hmapped u (by omega)) ?_
          rw [Nat.add_assoc] at hm'
          omega
        · exact absurd h1 hr

/-- When a call keeps the cache as the disk is: always, but for a write to a
file whose buffer has a gap inside a block, and for a call that follows a pointer
from outside of the descriptors. -/
def NoGapInBlock (k : Kernel) : FileCall → Prop
  | .write fd va len => ∀ f, (k.pool k.current_proc).files fd.toNat = some f →
    (k.filepool f).type = .FD_INODE →
    GapAtBlock k.mm.mem (k.pool k.current_proc).pagetable va (k.filepool f).off (len % 2 ^ 32)
  | call => ¬ call.Outside

theorem sys_openat_ktame (c : Prop) (hs : CacheOk k.fs.bio) (hr : Room2 k.fs.bio)
    (hf : FilesOnDisk k) (path : Bytes) (va omode : Nat) :
    Runs NotBget (sys_openat lk path va omode) k (fun _ k' => KTame c k k') := by
  unfold sys_openat
  rw [Runs.bind_iff, runs_curr_proc]
  refine (onMm_ktame c hs ((copyinstr_runs _ _ _).imp fun _ _ _ => trivial)).bind ?_
  rintro ⟨r, bytes⟩ k₁ h1
  exact (fileopen_ktame c h1.cache (h1.room2 hr) (h1.files hf) _ _).imp fun _ _ h2 => h1.trans h2

theorem sys_close_ktame (c : Prop) (hs : CacheOk k.fs.bio) (hf : FilesOnDisk k) (fd : Int) :
    Runs NotBget (sys_close lk fd) k (fun _ k' => KTame c k k') := by
  unfold sys_close
  split
  · exact KTame.refl hs
  · rw [Runs.bind_iff]
    refine runs_fileAt (by simp) fun f _ _ _ => ?_
    refine (fileclose_ktame c hs hf f).bind fun _ k₁ h1 => ?_
    rw [Runs.bind_iff, runs_modifyCurr]
    exact h1.trans (KTame.ofSame h1.cache rfl fun _ h => ⟨h, rfl⟩)

theorem sys_read_ktame (c : Prop) (hs : CacheOk k.fs.bio) (hr : Room2 k.fs.bio)
    (hf : FilesOnDisk k) (str : Bytes) (fd : Int) (va len : Nat) :
    Runs NotBget (sys_read str fd va len) k (fun _ k' => KTame c k k') := by
  unfold sys_read
  split
  · unfold console_read
    rw [Runs.map_iff, Runs.bind_iff, runs_curr_proc]
    refine (onMm_ktame c hs ((copyout_runs _ _ _).imp fun _ _ _ => trivial)).bind fun _ k₁ h1 => ?_
    exact h1
  · rw [Runs.bind_iff]
    refine runs_fileAt (by simp) fun f _ _ _ => ?_
    rw [Runs.bind_iff, runs_getFile]
    cases hx : (k.filepool f).type with
    | FD_NONE => simp
    | FD_PIPE => exact KTame.refl hs
    | FD_INODE =>
      dsimp only
      rw [Runs.map_iff]
      exact fileread_ktame c hs hr hf hx va len

theorem sys_write_ktame (hs : CacheOk k.fs.bio) (hr : Room2 k.fs.bio) (hf : FilesOnDisk k)
    (fd : Int) (va len : Nat) :
    Runs NotBget (sys_write fd va len) k
      (fun _ k' => KTame (NoGapInBlock k (.write fd va len)) k k') := by
  unfold sys_write
  split
  · exact KTame.refl hs
  · split
    · unfold console_write
      rw [Runs.map_iff, Runs.bind_iff, runs_curr_proc]
      refine (onMm_ktame (NoGapInBlock k (.write fd va len)) hs
        ((copyinstr_runs _ _ _).imp fun _ _ _ => trivial)).bind ?_
      rintro ⟨r, bytes⟩ k₁ h1
      exact h1
    · rw [Runs.bind_iff]
      refine runs_fileAt (by simp) fun f _ _ hfile => ?_
      rw [Runs.bind_iff, runs_getFile]
      cases hx : (k.filepool f).type with
      | FD_NONE => simp
      | FD_PIPE => exact KTame.refl hs
      | FD_INODE =>
        dsimp only
        rw [Runs.map_iff]
        refine (filewrite_ktame hs hr hf hx va len).imp fun _ _ h => h.weaken fun hgap => ?_
        exact (hgap f hfile hx).wholeChunks _ 0 (by omega) (Or.inl rfl)

theorem sys_linkat_ktame (c : Prop) (hs : CacheOk k.fs.bio) (hr : Room2 k.fs.bio)
    (oldpath newpath : Bytes) (oldpath_ newpath_ : Nat) :
    Runs NotBget (sys_linkat oldpath newpath oldpath_ newpath_) k (fun _ k' => KTame c k k') := by
  unfold sys_linkat
  refine (copyinPath_ktame c hs oldpath oldpath_).bind fun old k₁ h1 => ?_
  refine (copyinPath_ktame c h1.cache newpath newpath_).bind fun new k₂ h2 => ?_
  have h12 := h1.trans h2
  rw [runs_onFs]
  exact (linkat_tame c h12.cache (h12.room2 hr) old new).imp fun _ _ h => h12.trans (KTame.ofFs h)

theorem sys_unlinkat_ktame (c : Prop) (hs : CacheOk k.fs.bio) (hr : Room2 k.fs.bio)
    (path behind : Bytes) (path_ : Nat) :
    Runs NotBget (sys_unlinkat path behind path_) k (fun _ k' => KTame c k k') := by
  unfold sys_unlinkat
  refine (copyinPath_ktame c hs path path_).bind fun name k₁ h1 => ?_
  rw [runs_onFs]
  exact (unlinkat_tame c h1.cache (h1.room2 hr) name behind).imp fun _ _ h =>
    h1.trans (KTame.ofFs h)

theorem sys_fstat_ktame (c : Prop) (hs : CacheOk k.fs.bio) (hr : Room2 k.fs.bio)
    (sst : Bytes) (fd st : Nat) :
    Runs NotBget (sys_fstat sst fd st) k (fun _ k' => KTame c k k') := by
  unfold sys_fstat
  split
  · exact KTame.refl hs
  · refine (onFs_ktame (root_dir_tame c hs hr.room)).bind ?_
    rintro dp k₁ ⟨h1, hdp⟩
    unfold statInode
    simp only [Runs.bind_iff]
    refine runs_fileAt (by simp) fun f _ _ _ => ?_
    rw [runs_getFile]
    refine runs_deref (by simp) fun ip _ => ?_
    rw [runs_onFs, runs_getInode, runs_onFs]
    refine (countLinks_tame c h1.cache (h1.room2 hr) hdp _).imp fun r s₂ h2 => ?_
    have h12 := h1.trans (KTame.ofFs h2)
    cases r with
    | none => exact h12
    | some nlink =>
      dsimp only
      rw [Runs.bind_iff, runs_onFs, runs_getInode]
      split
      · exact h12
      · rw [Runs.bind_iff, runs_curr_proc]
        refine (onMm_ktame c h12.cache ((copyout_runs _ _ _).imp fun _ _ _ => trivial)).bind
          fun r k₃ h3 => ?_
        split
        · exact h12.trans h3
        · exact h12.trans h3

theorem NoGapInBlock.inside {call : FileCall} (h : NoGapInBlock k call) : ¬ call.Outside := by
  cases call with
  | write => exact id
  | _ => exact h

/-- Every system call on files keeps the rules of the file system code, and
keeps the cache as the disk is if it is not a write with a gap. -/
theorem FileCall.run_ktame (hs : CacheOk k.fs.bio) (hr : Room2 k.fs.bio) (hf : FilesOnDisk k)
    (call : FileCall) :
    Runs NotBget (call.run lk) k (fun _ k' => KTame (NoGapInBlock k call) k k') := by
  cases call with
  | openat path va omode =>
    exact Runs.map_iff.mpr (sys_openat_ktame _ hs hr hf path va omode)
  | close fd => exact Runs.map_iff.mpr (sys_close_ktame _ hs hf fd)
  | read str fd va len => exact sys_read_ktame _ hs hr hf str fd va len
  | write fd va len => exact sys_write_ktame hs hr hf fd va len
  | linkat oldpath newpath oldpath_ newpath_ =>
    exact Runs.map_iff.mpr (sys_linkat_ktame _ hs hr oldpath newpath oldpath_ newpath_)
  | unlinkat path behind path_ =>
    exact Runs.map_iff.mpr (sys_unlinkat_ktame _ hs hr path behind path_)
  | fstat sst fd st => exact Runs.map_iff.mpr (sys_fstat_ktame _ hs hr sst fd st)

/-! ## Runs -/

/-- A call that follows a pointer from outside of `p->files` is where the model
of it stops. -/
theorem FileCall.run_outside {call : FileCall} (h : call.Outside) :
    call.run lk k = .error (.fault "files: out of range") := by
  have hat : ∀ {fd : Int}, ¬ IsFd fd →
      fd ≠ 0 ∧ fileAt fd k = .error (.fault "files: out of range") := by
    intro fd hfd
    refine ⟨?_, ?_⟩
    · rintro rfl
      exact hfd ⟨by decide, by decide⟩
    · unfold fileAt
      rw [if_neg (show ¬ (0 ≤ fd ∧ fd < FD_MAX) from hfd)]
      rfl
  cases call with
  | close fd =>
    obtain ⟨h0, hstop⟩ := hat h
    have hrun : sys_close lk fd k = .error (.fault "files: out of range") := by
      unfold sys_close
      rw [if_neg h0]
      exact Prog.bind_error hstop
    exact Prog.map_error hrun
  | read str fd va len =>
    obtain ⟨h0, hstop⟩ := hat h
    change sys_read str fd va len k = _
    unfold sys_read
    rw [if_neg h0]
    exact Prog.bind_error hstop
  | _ => exact absurd h id

/-- A step of the machine: a system call on files of any process, in a state
and with arguments that `ok` allows, or anything else, which leaves the blocks
alone and puts no file on an inode. A call that follows a pointer from outside of
the descriptors may do anything. A null pointer ends the process: in `sys_fstat`
`root_dir` has run by then, all other calls meet it before they change anything. -/
inductive FileStep (lk : Link) (ok : Kernel → FileCall → Prop) : Kernel → Kernel → Prop
  | call {k k' : Kernel} (p : Nat) (call : FileCall) (r : Outcome) (hok : ok (k.switch p) call)
      (hrun : call.run lk (k.switch p) = .ok (r, k')) : FileStep lk ok k k'
  | outside {k k' : Kernel} (p : Nat) (call : FileCall) (hok : ok (k.switch p) call)
      (hout : call.Outside) :
      FileStep lk ok k k'
  | trap {k k' : Kernel} (p : Nat) (sst : Bytes) (fd st dp : Nat)
      (hok : ok (k.switch p) (.fstat sst fd st))
      (hfd : fd < FD_MAX) (hnull : statInode fd (k.switch p) = .error (.fault "null pointer"))
      (hrun : onFs root_dir (k.switch p) = .ok (dp, k')) : FileStep lk ok k k'
  | other {k k' : Kernel} (hbio : k'.fs.bio = k.fs.bio) (hsb : k'.fs.sb = k.fs.sb)
      (hdev : ∀ i, (k'.fs.itable i).dev = (k.fs.itable i).dev)
      (hfiles : ∀ f, (k'.filepool f).type = .FD_INODE →
        (k.filepool f).type = .FD_INODE ∧ (k'.filepool f).ip = (k.filepool f).ip) :
      FileStep lk ok k k'

/-- The file system before `fsinit`. -/
def startFs (disk : Nat → Bytes) : Fs where
  sb := ⟨0, 0, 0, 0, 0, 0⟩
  bio := binit disk
  itable _ := ⟨0, 0, 0, false, 0, 0, fun _ => 0⟩

/-- The kernel when the file system has started on a disk. No file is open. -/
def FsBoot (disk : Nat → Bytes) (k : Kernel) : Prop :=
  fsinit (startFs disk) = .ok ((), k.fs) ∧ ∀ f, (k.filepool f).type = .FD_NONE

/-- When no buffer is in use, every buffer with data holds what the disk
holds. -/
def Coherent (s : Bio) : Prop :=
  (∀ i < NBUF, (s.buf i).refcnt = 0) →
    ∀ i < NBUF, (s.buf i).valid = true → (s.buf i).data = s.disk (s.buf i).blockno

/-- What holds between two calls. -/
structure AtRest (k : Kernel) : Prop where
  cache : CacheOk k.fs.bio
  free : ∀ i < NBUF, (k.fs.bio.core i).refcnt = 0
  clean : AllClean k.fs.bio
  files : FilesOnDisk k

theorem AtRest.room2 (h : AtRest k) : Room2 k.fs.bio :=
  ⟨0, by decide, 1, by decide, by decide, h.free 0 (by decide), h.free 1 (by decide)⟩

theorem AtRest.coherent (h : AtRest k) : Coherent k.fs.bio := fun _ i hi hv => h.clean _ i hi hv rfl

theorem AtRest.boot {disk : Nat → Bytes} (h : FsBoot disk k) : AtRest k := by
  obtain ⟨hinit, hfiles⟩ := h
  obtain ⟨h1, h2, h3⟩ := binit_spec disk
  have hroom : Room (binit disk) := ⟨0, by decide, (h3 0).1⟩
  have hclean : AllClean (binit disk) := fun b i hi hv => by
    rw [(h3 i).2] at hv
    cases hv
  have hspec : ∀ s : Fs, s.bio = binit disk → Runs (fun _ => True) fsinit s fun _ s' =>
      CacheOk s'.bio ∧ Follows ∅ (binit disk) s'.bio := by
    intro s hs
    unfold fsinit readsb
    simp only [Runs.bind_iff]
    refine (onBread (hs ▸ h1) (hs ▸ hroom) 1).imp ?_
    rintro bp _ ⟨t, rfl, hh, _, _⟩
    simp only [runs_bpData, Runs.modify_iff, runs_brelse, Runs.get_iff]
    split
    · simp
    · exact hs ▸ hh.release
  obtain ⟨h4, h5⟩ := (hspec _ rfl).of_ok hinit
  refine ⟨h4, fun i hi => ?_, fun b => h5.clean b (by simp) (hclean b), fun f hf => ?_⟩
  · rw [h5.refcnt i hi, (h3 i).1]
    simp
  · rw [hfiles f] at hf
    cases hf

theorem AtRest.step {k' : Kernel} (h : AtRest k) (hs : FileStep lk NoGapInBlock k k') :
    AtRest k' := by
  cases hs with
  | call p call r hok hrun =>
    have ht := (FileCall.run_ktame (k := k.switch p) h.cache h.room2 h.files call).of_ok hrun
    refine ⟨ht.cache, fun i hi => ?_, ht.fs.clean hok h.clean, ht.files h.files⟩
    rw [ht.fs.bio.refcnt i hi, if_neg (by simp), add_zero]
    exact h.free i hi
  | outside p call hok hout => exact absurd hout hok.inside
  | trap p sst fd st dp hok hfd hnull hrun =>
    have hroot := onFs_ktame (k := k.switch p) (root_dir_tame True h.cache h.room2.room)
    obtain ⟨ht, _⟩ := hroot.of_ok hrun
    refine ⟨ht.cache, fun i hi => ?_, ht.fs.clean trivial h.clean, ht.files h.files⟩
    rw [ht.fs.bio.refcnt i hi, if_neg (by simp), add_zero]
    exact h.free i hi
  | other hbio hsb hdev hfiles =>
    refine ⟨hbio ▸ h.cache, hbio ▸ h.free, hbio ▸ h.clean, fun f hf ip hip => ?_⟩
    obtain ⟨h1, h2⟩ := hfiles f hf
    rw [hdev]
    exact h.files f h1 ip (h2 ▸ hip)

/-- In every run whose writes have no gap inside a block, and whose reads and
closes have a descriptor, whenever no buffer is in use the cache holds what the
disk holds. -/
theorem the_cache_is_as_the_disk {disk : Nat → Bytes} {k' : Kernel} (hboot : FsBoot disk k)
    (hrun : Relation.ReflTransGen (FileStep lk NoGapInBlock) k k') : Coherent k'.fs.bio := by
  have hrest : AtRest k' := by
    induction hrun with
    | refl => exact AtRest.boot hboot
    | tail _ hstep ih => exact ih.step hstep
  exact hrest.coherent

/-! ## A write with a gap -/

section Gap

def zeros : Bytes := fun _ => 0

/-- A disk with one file, `a`, of one block. -/
def oneFileDisk : Nat → Bytes
  | 1 => (((((zeros.put32 0 FSMAGIC).put32 4 100).put32 8 90).put32 12 16).put32 16 2).put32 20 3
  | 2 =>
    putDinode (putDinode zeros 1 T_DIR 16 fun k => if k = 0 then 10 else 0) 2 T_FILE 1024
      fun k => if k = 0 then 11 else 0
  | 10 => zeros.store 0 (direntBytes 2 [97])
  | _ => zeros

/-- A process with one page, at address 0. It starts with the path and ends
with a byte to write. -/
def onePageMem : Bytes :=
  let tables := ((zeros.put64 0x1000 (PA2PTE 0x2000 ||| PTE_V)).put64 0x2000
    (PA2PTE 0x3000 ||| PTE_V)).put64 0x3000 (PA2PTE 0x4000 ||| PTE_V ||| PTE_R ||| PTE_W ||| PTE_U)
  (tables.store 0x4000 [97, 0]).store 0x4fff [7]

def onePageKernel : Kernel where
  mm := ⟨onePageMem, 0⟩
  fs := fsinit.final (startFs oneFileDisk)
  filepool _ := ⟨.FD_NONE, 0, false, false, 0, none, 0⟩
  pipes _ := ⟨zeros, 0, 0, false, false⟩
  pool _ := ⟨.RUNNING, 1, 0x1000, 0, 0, 4096, none, 0, fun _ => none, .zero, 16, 6250⟩
  current_proc := 0
  PID := 2

def noLink : Link := ⟨4096, 0, [], Link.zero_aligned, Link.zero_inside⟩

theorem fsinit_returns : fsinit.returns (startFs oneFileDisk) = true := by decide +kernel

theorem onePageKernel_boots : FsBoot oneFileDisk onePageKernel := by
  obtain ⟨_, h⟩ := Prog.returns_iff.mp fsinit_returns
  exact ⟨h, fun _ => rfl⟩

def openCall : FileCall := .openat zeros 0 O_WRONLY

/-- The kernel after the file was opened for writing. -/
def openKernel : Kernel := (openCall.run noLink).final (onePageKernel.switch 0)

theorem openCall_returns : (openCall.run noLink).returns (onePageKernel.switch 0) = true := by
    decide +kernel

theorem openKernel_step (ok : Kernel → FileCall → Prop)
    (hok : ok (onePageKernel.switch 0) openCall) :
    FileStep noLink ok onePageKernel openKernel := by
  obtain ⟨r, h⟩ := Prog.returns_iff.mp openCall_returns
  exact FileStep.call 0 _ r hok h

/-- The last two bytes of the page. -/
def mappedCall : FileCall := .write 3 4094 2

theorem mappedCall_returns : (mappedCall.run noLink).returns (openKernel.switch 0) = true := by
    decide +kernel

theorem mappedCall_noGap : NoGapInBlock (openKernel.switch 0) mappedCall := by
  intro f _ _ t ht _ hgap
  have hmapped : ∀ t < 2, userPage (openKernel.switch 0).mm.mem
      ((openKernel.switch 0).pool (openKernel.switch 0).current_proc).pagetable
      (PGROUNDDOWN ((4094 + t) % 2 ^ 64)) ≠ 0 := by
    decide +kernel
  exact absurd (hmapped t ht) hgap

theorem the_cache_is_as_the_disk_after_a_write :
    Coherent ((mappedCall.run noLink).final (openKernel.switch 0)).fs.bio := by
  obtain ⟨r, h⟩ := Prog.returns_iff.mp mappedCall_returns
  exact the_cache_is_as_the_disk onePageKernel_boots
    ((Relation.ReflTransGen.single (openKernel_step _ id)).tail
      (.call 0 _ r mappedCall_noGap h))

/-- The last byte of the page, and the byte after it. -/
def gapCall : FileCall := .write 3 4095 2

def gapKernel : Kernel := (gapCall.run noLink).final (openKernel.switch 0)

theorem gapCall_returns : (gapCall.run noLink).returns (openKernel.switch 0) = true := by
    decide +kernel

theorem gapKernel_free : ∀ i < NBUF, (gapKernel.fs.bio.buf i).refcnt = 0 := by decide +kernel

theorem gapKernel_buf : (gapKernel.fs.bio.buf 3).valid = true ∧
    (gapKernel.fs.bio.buf 3).data 0 ≠
      gapKernel.fs.bio.disk (gapKernel.fs.bio.buf 3).blockno 0 := by
  decide +kernel

/-- A write of two bytes, the second one not mapped: the first one stays in
the cache and never reaches the disk. -/
theorem a_write_with_a_gap_stays_in_the_cache :
    ¬ ∀ (lk : Link) (disk : Nat → Bytes) (k k' : Kernel), FsBoot disk k →
      Relation.ReflTransGen (FileStep lk fun _ _ => True) k k' → Coherent k'.fs.bio := by
  intro hall
  obtain ⟨r, h⟩ := Prog.returns_iff.mp gapCall_returns
  have hc := hall noLink oneFileDisk onePageKernel gapKernel onePageKernel_boots
    ((Relation.ReflTransGen.single (openKernel_step _ trivial)).tail (.call 0 _ r trivial h))
  exact gapKernel_buf.2 (congrFun (hc gapKernel_free 3 (by decide) gapKernel_buf.1) 0)

end Gap

end ThuKernel
