-- The balance of the references over runs of the system calls: which calls
-- keep it, and when there is really no entry left.
import Mathlib.Algebra.Order.BigOperators.Group.Finset
import ThuKernel.Kernel.Balance
import ThuKernel.Kernel.MemCalls
import ThuKernel.Kernel.Coherence

namespace ThuKernel

/-! ## The calls -/

/-- A system call that takes part in the references. -/
inductive InodeCall where
  | file (call : FileCall)
  | fork
  | exit (code : Int)

def InodeCall.run (lk : Link) : InodeCall → Prog Kernel Outcome
  | .file call => call.run lk
  | .fork => .ret <$> sys_clone lk
  | .exit code => .ret <$> sys_exit lk code

/-- The calls that give back what they take: not those that look up the root
directory, but for `create`, and none that follows a pointer from outside of the
descriptors. -/
def KeepsBalance : InodeCall → Prop
  | .file (.openat _ _ omode) => hasFlag omode O_CREATE = true
  | .file (.linkat ..) => False
  | .file (.unlinkat ..) => False
  | .file (.fstat _ fd _) => FD_MAX ≤ fd
  | .file call => ¬ call.Outside
  | _ => True

/-- What a call leaves behind. -/
def Leaves (call : InodeCall) (d : Nat → Int) : Prop :=
  (KeepsBalance call ∧ d = 0) ∨ (¬ KeepsBalance call ∧ Pinned d)

/-- How a call may stop: for lack of an entry with at most two of them in no
use, if it is one that keeps the balance. -/
def MayStop (call : InodeCall) (s : Fs) (e : Stop) : Prop := KeepsBalance call → FullButTwo s e

variable {lk : Link} {k : Kernel}

/-- A call that keeps the balance whatever it does. -/
theorem leaves_nothing {call : InodeCall} (hc : KeepsBalance call) {f : Prog Kernel Outcome}
    (h : Runs NotIget f k fun _ k' => KMoves 0 k k') :
    Runs (MayStop call k.fs) f k (fun _ k' => ∃ d, Leaves call d ∧ KMoves d k k') := by
  apply h.mono
  · intro e he _
    exact he.fullButTwo
  · intro _ k' h
    exact ⟨0, Or.inl ⟨hc, rfl⟩, h⟩

/-- A call that never gives everything back. -/
theorem leaves_something {call : InodeCall} (hc : ¬ KeepsBalance call) {f : Prog Kernel Outcome}
    (h : Runs (fun _ => True) f k fun _ k' => ∃ d, Pinned d ∧ KMoves d k k') :
    Runs (MayStop call k.fs) f k (fun _ k' => ∃ d, Leaves call d ∧ KMoves d k k') := by
  apply h.mono
  · intro e _ hkeep
    exact absurd hkeep hc
  · intro _ k' h
    obtain ⟨d, hd, h⟩ := h
    exact ⟨d, Or.inr ⟨hc, hd⟩, h⟩

/-- A call that follows a pointer from outside of the descriptors is none that
keeps the balance, and the model of it stops. -/
theorem outside_leaves {call : FileCall} (h : call.Outside) :
    Runs (MayStop (.file call) k.fs) ((InodeCall.file call).run lk) k
      (fun _ k' => ∃ d, Leaves (.file call) d ∧ KMoves d k k') := by
  have hc : ¬ KeepsBalance (.file call) := by
    cases call with
    | close fd => exact fun hkeep => hkeep h
    | read str fd va len => exact fun hkeep => hkeep h
    | _ => exact absurd h id
  unfold Runs
  rw [show (InodeCall.file call).run lk k = _ from FileCall.run_outside h]
  exact fun hkeep => absurd hkeep hc

theorem openat_leaves (hk : FilesOk k) (path : Bytes) (va omode : Nat) :
    Runs (MayStop (.file (.openat path va omode)) k.fs)
      ((InodeCall.file (.openat path va omode)).run lk) k
      (fun _ k' => ∃ d, Leaves (.file (.openat path va omode)) d ∧ KMoves d k k') := by
  have hE : ∀ e, NotIget e → FullButTwo k.fs e := fun e he => he.fullButTwo
  by_cases hc : hasFlag omode O_CREATE = true
  · apply Runs.map_iff.mpr
    apply (sys_openat_moves hE hk (fun p => openInode_create hc k.fs) path va).mono
    · intro e he _
      exact he
    · intro _ k' h
      obtain ⟨d, hd, h⟩ := h
      exact ⟨d, Or.inl ⟨hc, hd⟩, h⟩
  · apply leaves_something
    · exact hc
    · apply Runs.map_iff.mpr
      exact sys_openat_moves (fun _ _ => trivial) hk (fun p => openInode_existing hc k.fs) path va

/-- Every call leaves nothing, or an entry pinned. -/
theorem InodeCall.run_leaves (hk : FilesOk k) (call : InodeCall) :
    Runs (MayStop call k.fs) (call.run lk) k (fun _ k' => ∃ d, Leaves call d ∧ KMoves d k k') := by
  cases call with
  | file call =>
    cases call with
    | openat path va omode => exact openat_leaves hk path va omode
    | close fd =>
      by_cases hfd : IsFd fd
      · apply leaves_nothing
        · exact not_not_intro hfd
        · exact Runs.map_iff.mpr (sys_close_moves hk fd)
      · exact outside_leaves hfd
    | read str fd va len =>
      by_cases hfd : IsFd fd
      · apply leaves_nothing
        · exact not_not_intro hfd
        · exact sys_read_moves hk str fd va len
      · exact outside_leaves hfd
    | write fd va len =>
      apply leaves_nothing
      · exact id
      · exact sys_write_moves hk fd va len
    | linkat oldpath newpath oldpath_ newpath_ =>
      apply leaves_something
      · intro h
        exact h
      · exact Runs.map_iff.mpr (sys_linkat_moves hk oldpath newpath oldpath_ newpath_)
    | unlinkat path behind path_ =>
      apply leaves_something
      · intro h
        exact h
      · exact Runs.map_iff.mpr (sys_unlinkat_moves hk path behind path_)
    | fstat sst fd st =>
      by_cases hfd : FD_MAX ≤ fd
      · apply leaves_nothing
        · exact hfd
        · apply Runs.map_iff.mpr
          unfold sys_fstat
          rw [if_pos hfd]
          exact KMoves.refl hk
      · apply leaves_something
        · exact hfd
        · exact Runs.map_iff.mpr (sys_fstat_moves hk sst st hfd)
  | fork =>
    apply leaves_nothing
    · trivial
    · exact Runs.map_iff.mpr (fork_moves hk)
  | exit code =>
    apply leaves_nothing
    · trivial
    · apply Runs.map_iff.mpr
      unfold sys_exit
      apply (exit_moves hk code).bind
      intro _ k' h
      exact h

/-! ## Runs -/

/-- A step of the machine: a call of any process that `ok` allows, or anything
else, which leaves the inodes and the files on them alone. A call that follows a
pointer from outside of the descriptors may do anything, and a null pointer ends
the process, in `sys_fstat` after `root_dir`. -/
inductive InodeStep (lk : Link) (ok : InodeCall → Prop) : Kernel → Kernel → Prop
  | call {k k' : Kernel} (p : Nat) (call : InodeCall) (r : Outcome) (hok : ok call)
      (hrun : call.run lk (k.switch p) = .ok (r, k')) : InodeStep lk ok k k'
  | outside {k k' : Kernel} (call : FileCall) (hok : ok (.file call)) (hout : call.Outside) :
      InodeStep lk ok k k'
  | trap {k k' : Kernel} (p : Nat) (sst : Bytes) (fd st dp : Nat)
      (hok : ok (.file (.fstat sst fd st)))
      (hfd : fd < FD_MAX) (hnull : statInode fd (k.switch p) = .error (.fault "null pointer"))
      (hrun : onFs root_dir (k.switch p) = .ok (dp, k')) : InodeStep lk ok k k'
  | other {k k' : Kernel} (hquiet : Quiet k.fs k'.fs)
      (hopen : ∀ f i, OpenOn (k'.filepool f) i ↔ OpenOn (k.filepool f) i) (hfiles : FilesOk k') :
      InodeStep lk ok k k'

/-- The kernel when the file system has started: no file is in use, and no
process has one. -/
structure InodeBoot (disk : Nat → Bytes) (k : Kernel) : Prop where
  fs : FsBoot disk k
  free : ∀ f, (k.filepool f).ref = 0
  fds : ∀ p fd, (k.pool p).files fd = none

/-- What holds between two calls of a run in which every call keeps the
balance. -/
structure AtBalance (k : Kernel) : Prop where
  balanced : Balanced k
  files : FilesOk k
  distinct : Distinct k.fs

/-- Every entry, but for two that the running call has, is that of an open
file. -/
def AllOpenButTwo (k : Kernel) : Prop :=
  ∃ r ip, ∀ i < NINODE, i ≠ r → i ≠ ip → ∃ f < FILE_MAX, OpenOn (k.filepool f) i

theorem fsinit_quiet : Quietly fsinit := by
  unfold fsinit readsb
  apply Quietly.bind
  · apply (Quietly.bread _ _).bind
    intro bp
    apply (Quietly.bpData bp).bind
    intro d s
    rw [Runs.bind_iff, Runs.modify_iff]
    apply (Quietly.brelse bp _).imp
    intro _ s' h
    exact h
  · intro _
    apply Quietly.get.bind
    intro s
    exact Quietly.ite (Quietly.panic (by simp)) (Quietly.pure _)

theorem openFiles_eq_zero {filepool : Nat → file} {i : Nat} (h : ∀ f, ¬ OpenOn (filepool f) i) :
    openFiles filepool i = 0 := by
  unfold openFiles
  apply Finset.sum_eq_zero
  intro f _
  exact if_neg (h f)

/-- Each open file has one reference, so an `int` holds `ref`. -/
theorem Balanced.ref_le (h : Balanced k) (i : Nat) : (k.fs.itable i).ref ≤ FILE_MAX := by
  rw [h i]
  refine (Finset.sum_le_card_nsmul _ _ 1 fun f _ => ?_).trans_eq (by simp)
  split
  · exact le_refl _
  · decide

theorem AtBalance.boot {disk : Nat → Bytes} (h : InodeBoot disk k) : AtBalance k := by
  obtain ⟨⟨hinit, htype⟩, hfree, hfds⟩ := h
  have hquiet := (fsinit_quiet _).of_ok hinit
  have href : ∀ i, (k.fs.itable i).ref = 0 := fun i => (hquiet i).1
  refine ⟨fun i => ?_, ⟨fun f _ => ?_, fun f => ?_, fun p fd f hf => ?_⟩, fun i _ j _ hi => ?_⟩
  · rw [href, openFiles_eq_zero]
    intro f hopen
    have := hopen.1
    rw [hfree f] at this
    omega
  · rw [htype f]
    simp
  · rw [hfree f]
  · rw [hfds p fd] at hf
    cases hf
  · rw [href i] at hi
    omega

theorem balanced_switch {p : Nat} : Balanced (k.switch p) ↔ Balanced k := Iff.rfl

theorem FilesOk.switch (h : FilesOk k) (p : Nat) : FilesOk (k.switch p) := ⟨h.free, h.nonneg, h.fds⟩

theorem AtBalance.step {k' : Kernel} (h : AtBalance k) (hs : InodeStep lk KeepsBalance k k') :
    AtBalance k' := by
  cases hs with
  | call p call r hok hrun =>
    obtain ⟨d, hd, hmoves⟩ := (InodeCall.run_leaves (h.files.switch p) call).of_ok hrun
    rcases hd with ⟨_, rfl⟩ | ⟨hno, _⟩
    · refine ⟨balanced_iff.mpr ?_, hmoves.files, hmoves.distinct h.distinct⟩
      rw [hmoves.excess, add_zero]
      exact balanced_iff.mp (balanced_switch.mpr h.balanced)
    · exact absurd hok hno
  | outside call hok hout =>
    cases call with
    | close fd => exact absurd hout hok
    | read str fd va len => exact absurd hout hok
    | _ => exact absurd hout id
  | trap p sst fd st dp hok hfd hnull hrun => exact absurd hok (Nat.not_le_of_lt hfd)
  | other hquiet hopen hfiles =>
    refine ⟨fun i => ?_, hfiles, hquiet.moves.distinct h.distinct⟩
    rw [(hquiet i).1, h.balanced i]
    unfold openFiles
    apply Finset.sum_congr rfl
    intro f _
    simp only [hopen f i]

/-- A call from a balanced state ends in one exactly if it is one that keeps
the balance. -/
theorem AtBalance.call_iff (h : AtBalance k) {p : Nat} {call : InodeCall} {r : Outcome}
    {k' : Kernel} (hrun : call.run lk (k.switch p) = .ok (r, k')) : Balanced k' ↔
    KeepsBalance call := by
  obtain ⟨d, hd, hmoves⟩ := (InodeCall.run_leaves (h.files.switch p) call).of_ok hrun
  have h0 : excess (k.switch p) = 0 := balanced_iff.mp (balanced_switch.mpr h.balanced)
  have hexcess : excess k' = d := by rw [hmoves.excess, h0, zero_add]
  rcases hd with ⟨hkeep, rfl⟩ | ⟨hno, i, hi⟩
  · exact ⟨fun _ => hkeep, fun _ => balanced_iff.mpr hexcess⟩
  · constructor
    · intro hbal
      rw [← hexcess, balanced_iff.mp hbal] at hi
      exact absurd hi (lt_irrefl _)
    · intro hkeep
      exact absurd hkeep hno

/-- Entries in use are those of open files. -/
theorem AtBalance.exists_open (h : AtBalance k) {i : Nat} (hi : (k.fs.itable i).ref ≠ 0) :
    ∃ f < FILE_MAX, OpenOn (k.filepool f) i := by
  by_contra hc
  push Not at hc
  apply hi
  rw [h.balanced i]
  unfold openFiles
  apply Finset.sum_eq_zero
  intro f hf
  exact if_neg (hc f (Finset.mem_range.mp hf))

theorem AtBalance.no_inodes (h : AtBalance k) {p : Nat} {call : InodeCall}
    (hkeep : KeepsBalance call)
    (hrun : call.run lk (k.switch p) = .error (.panic "iget: no inodes")) : AllOpenButTwo k := by
  have hstop := (InodeCall.run_leaves (h.files.switch p) call).of_error hrun
  obtain ⟨r, ip, hfull⟩ := hstop hkeep rfl
  exact ⟨r, ip, fun i hi hr hip => h.exists_open (hfull i hi hr hip)⟩

/-- In every run whose calls all keep the balance, the references of an entry
are the open files on it. From there, a call ends balanced exactly if it is
such a call, and one that finds no entry finds them all in use, by open files
or by itself. -/
theorem the_references_are_the_open_files {disk : Nat → Bytes} {k' : Kernel}
    (hboot : InodeBoot disk k) (hrun : Relation.ReflTransGen (InodeStep lk KeepsBalance) k k') :
    Balanced k' ∧ Distinct k'.fs ∧
      (∀ p call r k'', call.run lk (k'.switch p) = .ok (r, k'') →
        (Balanced k'' ↔ KeepsBalance call)) ∧
      (∀ p call, KeepsBalance call →
        call.run lk (k'.switch p) = .error (.panic "iget: no inodes") → AllOpenButTwo k') := by
  have h : AtBalance k' := by
    induction hrun with
    | refl => exact AtBalance.boot hboot
    | tail _ hstep ih => exact ih.step hstep
  refine ⟨h.balanced, h.distinct, ?_, ?_⟩
  · intro p call r k'' hcall
    exact h.call_iff hcall
  · intro p call hkeep hcall
    exact h.no_inodes hkeep hcall

/-! ## An `openat` without `O_CREATE` -/

section Pinned

theorem onePageKernel_inodeBoots : InodeBoot oneFileDisk onePageKernel :=
  ⟨onePageKernel_boots, fun _ => rfl, fun _ _ => rfl⟩

/-- `openat` of the file `a`, with `O_CREATE`. -/
def createCall : InodeCall := .file (.openat zeros 0 (O_CREATE ||| O_RDWR))

theorem createCall_keeps : KeepsBalance createCall := by
  show hasFlag (O_CREATE ||| O_RDWR) O_CREATE = true
  decide

theorem createCall_returns : (createCall.run noLink).returns (onePageKernel.switch 0) = true := by
  decide +kernel

theorem the_references_are_the_open_files_after_create :
    Balanced ((createCall.run noLink).final (onePageKernel.switch 0)) := by
  obtain ⟨r, h⟩ := Prog.returns_iff.mp createCall_returns
  exact (the_references_are_the_open_files onePageKernel_inodeBoots
    (Relation.ReflTransGen.single (.call 0 createCall r createCall_keeps h))).1

/-- `openat` of the file `a`, for writing. -/
def openInodeCall : InodeCall := .file openCall

/-- `openat` without `O_CREATE` looks the root directory up and never puts it. -/
theorem openat_pins_the_root_directory :
    ¬ ∀ (lk : Link) (disk : Nat → Bytes) (k k' : Kernel), InodeBoot disk k →
      Relation.ReflTransGen (InodeStep lk fun _ => True) k k' → Balanced k' := by
  intro hall
  obtain ⟨r, h⟩ := Prog.returns_iff.mp openCall_returns
  have hrun : openInodeCall.run noLink (onePageKernel.switch 0) = .ok (r, openKernel) := h
  have hbal := hall noLink oneFileDisk onePageKernel openKernel onePageKernel_inodeBoots
    (Relation.ReflTransGen.single (.call 0 openInodeCall r trivial hrun))
  have hkeep := ((AtBalance.boot onePageKernel_inodeBoots).call_iff hrun).mp hbal
  exact absurd (show hasFlag O_WRONLY O_CREATE = true from hkeep) (by decide)

end Pinned

end ThuKernel
