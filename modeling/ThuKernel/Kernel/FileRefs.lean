-- The references of the open files: which calls keep `ref` at the number of
-- descriptors, of all processes, that point to the file.
import Mathlib.Algebra.BigOperators.Pi
import ThuKernel.Fs.Refs
import ThuKernel.Kernel.CallRules
import ThuKernel.Vm.Uvmcopy

namespace ThuKernel

/-! ## Descriptors -/

/-- The descriptors of one process that point to file `f`. -/
def fdsOf (files : Nat → Option Nat) (f : Nat) : Int :=
  ∑ fd ∈ Finset.range FD_MAX, if files fd = some f then 1 else 0

/-- The descriptors of all processes that point to file `f`. -/
def descriptors (pool : Nat → proc) (f : Nat) : Int :=
  ∑ i ∈ Finset.range NPROC, fdsOf (pool i).files f

/-- The references that no descriptor has. -/
def surplus (k : Kernel) (f : Nat) : Int := (k.filepool f).ref - descriptors k.pool f

/-- A slot with no process that runs in it. -/
def Dead (p : proc) : Prop := p.state = .UNUSED ∨ p.state = .ZOMBIE

/-- A slot without a process has no open file. -/
def Cleared (k : Kernel) : Prop := ∀ i, Dead (k.pool i) → ∀ fd < FD_MAX, (k.pool i).files fd = none

variable {lk : Link} {E : Stop → Prop} {k k₁ k₂ k' : Kernel} {d d' : Nat → Int} {X : Nat → Prop}
variable {f fd i np : Nat}

/-- The reference counts of the files that `r` names. -/
def ones (r : Option Nat) : Nat → Int := fun j => if r = some j then 1 else 0

theorem ones_some (f : Nat) : ones (some f) = one f := by
  funext j
  unfold ones one only
  by_cases h : j = f
  · rw [if_pos (by rw [h]), if_pos h]
  · rw [if_neg (fun hc => h (Option.some.inj hc).symm), if_neg h]

theorem ones_none : ones none = 0 := by
  funext j
  exact if_neg (by simp)

/-- A sum over a table after one update. -/
theorem sum_range_update {α : Type} {n i : Nat} (hi : i < n) (t : Nat → α) (v : α) (g : α → Int) :
    ∑ j ∈ Finset.range n, g (Function.update t i v j) = ∑ j ∈ Finset.range n,
    g (t j) - g (t i) + g v := by
  rw [← Finset.sum_erase_add _ _ (Finset.mem_range.mpr hi),
    ← Finset.sum_erase_add (Finset.range n) (fun j => g (t j)) (Finset.mem_range.mpr hi),
    Function.update_self]
  have hrest : ∑ j ∈ (Finset.range n).erase i, g (Function.update t i v j) =
      ∑ j ∈ (Finset.range n).erase i, g (t j) := by
    apply Finset.sum_congr rfl
    intro j hj
    rw [Function.update_of_ne (Finset.ne_of_mem_erase hj)]
  rw [hrest]
  ring

theorem fdsOf_update {files : Nat → Option Nat} (hfd : fd < FD_MAX) (v : Option Nat) (f : Nat) :
    fdsOf (Function.update files fd v) f = fdsOf files f - ones (files fd) f + ones v f :=
  sum_range_update hfd files v fun x => if x = some f then 1 else 0

theorem fdsOf_none {files : Nat → Option Nat} (h : ∀ fd < FD_MAX, files fd = none) (f : Nat) :
    fdsOf files f = 0 := by
  apply Finset.sum_eq_zero
  intro fd hfd
  rw [h fd (Finset.mem_range.mp hfd), if_neg (by simp)]

theorem descriptors_update {pool : Nat → proc} (hi : i < NPROC) (p : proc) (f : Nat) :
    descriptors (Function.update pool i p) f =
      descriptors pool f - fdsOf (pool i).files f + fdsOf p.files f :=
  sum_range_update hi pool p fun x => fdsOf x.files f

theorem descriptors_same {pool pool' : Nat → proc} (h : ∀ i, (pool' i).files = (pool i).files)
    (f : Nat) :
    descriptors pool' f = descriptors pool f := by
  unfold descriptors
  apply Finset.sum_congr rfl
  intro i _
  rw [h i]

theorem one_ne_zero (f : Nat) : one f ≠ 0 := by
  intro hc
  have := congrFun hc f
  unfold one only at this
  rw [if_pos rfl, Pi.zero_apply] at this
  exact absurd this (by decide)

theorem one_add_ones_ne_zero (f : Nat) (r : Option Nat) : one f + ones r ≠ 0 := by
  intro hc
  have := congrFun hc f
  rw [Pi.add_apply] at this
  unfold one only ones at this
  rw [if_pos rfl, Pi.zero_apply] at this
  split at this
  · exact absurd this (by decide)
  · exact absurd this (by decide)

/-- Two descriptors are free. -/
def TwoFree (files : Nat → Option Nat) : Prop :=
  ∃ a b, a ≠ b ∧ (3 ≤ a ∧ a < FD_MAX ∧ files a = none) ∧ 3 ≤ b ∧ b < FD_MAX ∧ files b = none

/-- The second file that `sys_pipe` takes. -/
def secondFile (filepool : Nat → file) : Option Nat :=
  match freeFile filepool with
  | none => none
  | some f => freeFile (Function.update filepool f { filepool f with ref := 1 })

/-- `pipe` gives back what it takes when it returns `r`: there is no file to take,
or there are a page, two files and two descriptors, or the numbers of the
descriptors could not be stored. -/
def PipeGivesBack (k : Kernel) (r : Int) : Prop :=
  freeFile k.filepool = none ∨
    k.mm.freelist ≠ 0 ∧ secondFile k.filepool ≠ none ∧
    (TwoFree (k.pool k.current_proc).files ∨ r = -1)

/-- What two calls of `fdalloc` find in the descriptors `files` of a process, and
leave in `files'`. -/
structure TwoFds (files files' : Nat → Option Nat) (f0 f1 : Nat) (fd0 fd1 : Option Nat) : Prop where
  range0 : ∀ i, fd0 = some i → i < FD_MAX
  range1 : ∀ i, fd1 = some i → i < FD_MAX
  apart : ∀ i, fd0 = some i → fd1 ≠ some i
  back0 : fd0.bind files' = fd0.map fun _ => f0
  back1 : fd1.bind files' = fd1.map fun _ => f1
  order : fd0 = none → fd1 = none
  free : fd1 ≠ none ↔ TwoFree files

/-- The references of the two files have their descriptors just when two were free. -/
theorem TwoFds.left_iff {files files' : Nat → Option Nat} {f0 f1 : Nat} {fd0 fd1 : Option Nat}
    (h : TwoFds files files' f0 f1 fd0 fd1) :
    one f0 + one f1 - ones (fd0.map fun _ => f0) - ones (fd1.map fun _ => f1) = 0 ↔
    TwoFree files := by
  rw [← h.free]
  cases fd1 with
  | none =>
    rw [Option.map_none, ones_none, sub_zero]
    refine ⟨fun hc => ?_, fun hc => absurd rfl hc⟩
    cases fd0 with
    | none =>
      rw [Option.map_none, ones_none, sub_zero, ← ones_some f1] at hc
      exact absurd hc (one_add_ones_ne_zero f0 _)
    | some a =>
      rw [Option.map_some, ones_some, add_sub_cancel_left] at hc
      exact absurd hc (one_ne_zero f1)
  | some b =>
    cases fd0 with
    | none => exact absurd (h.order rfl) (Option.some_ne_none b)
    | some a =>
      rw [Option.map_some, Option.map_some, ones_some, ones_some, add_sub_cancel_left, sub_self]
      exact ⟨fun _ => Option.some_ne_none b, fun _ => rfl⟩

/-- The second search fails just when two descriptors were not free. -/
theorem twoFree_left_iff {files files' : Nat → Option Nat} {a f0 : Nat}
    (ha : 3 ≤ a ∧ a < FD_MAX ∧ files a = none)
    (hfiles' : files' = Function.update files a (some f0)) :
    TwoFree files ↔ ∃ b, 3 ≤ b ∧ b < FD_MAX ∧ files' b = none := by
  have hother : ∀ b, b ≠ a → files' b = files b := by
    intro b hb
    rw [hfiles', Function.update_of_ne hb]
  constructor
  · rintro ⟨b, b', hbb', ⟨hb3, hbmax, hbnone⟩, hb3', hbmax', hbnone'⟩
    -- One of two free descriptors is left for the second file.
    by_cases hba : b = a
    · exact ⟨b', hb3', hbmax', (hother b' fun hc => hbb' (by rw [hba, hc])).trans hbnone'⟩
    · exact ⟨b, hb3, hbmax, (hother b hba).trans hbnone⟩
  · rintro ⟨b, hb3, hbmax, hbnone⟩
    have hba : b ≠ a := by
      rintro rfl
      rw [hfiles', Function.update_self] at hbnone
      cases hbnone
    exact ⟨a, b, hba.symm, ha, hb3, hbmax, (hother b hba) ▸ hbnone⟩

/-! ## A running call -/

/-- The state inside a call of a live process, when `d` references are not in
any descriptor. A process of `X` is about to exit: it need not be live. -/
structure Tally (X : Nat → Prop) (d : Nat → Int) (k : Kernel) : Prop where
  surplus : ∀ f, surplus k f = d f
  cleared : ∀ i, Dead (k.pool i) → X i ∨ ∀ fd < FD_MAX, (k.pool i).files fd = none
  current : k.current_proc < NPROC
  live : Dead (k.pool k.current_proc) → X k.current_proc

namespace Tally

/-- The memory, the file system, the pipes and the other fields of the processes
do not count. -/
theorem same (h : Tally X d k) (href : ∀ f, (k'.filepool f).ref = (k.filepool f).ref)
    (hfiles : ∀ i, (k'.pool i).files = (k.pool i).files)
    (hdead : ∀ i, Dead (k'.pool i) → Dead (k.pool i)) (hcur : k'.current_proc = k.current_proc) :
    Tally X d k' := by
  refine ⟨fun f => ?_, fun i hi => ?_, ?_, fun hc => ?_⟩
  · have := h.surplus f
    unfold ThuKernel.surplus at *
    rw [href f, descriptors_same hfiles]
    exact this
  · rw [hfiles i]
    exact h.cleared i (hdead i hi)
  · rw [hcur]
    exact h.current
  · rw [hcur] at hc ⊢
    exact h.live (hdead _ hc)

/-- A file with another number of references. -/
theorem setFile (h : Tally X d k) (x : file) :
    Tally X (d + fun j => if j = f then x.ref - (k.filepool f).ref else 0)
      { k with filepool := Function.update k.filepool f x } := by
  refine ⟨fun j => ?_, h.cleared, h.current, h.live⟩
  have := h.surplus j
  unfold ThuKernel.surplus at *
  rw [Pi.add_apply, ← this]
  by_cases hj : j = f
  · subst hj
    dsimp only
    rw [Function.update_self, if_pos rfl]
    ring
  · dsimp only
    rw [Function.update_of_ne hj, if_neg hj, add_zero]

theorem setFile_same (h : Tally X d k) {x : file} (hx : x.ref = (k.filepool f).ref) :
    Tally X d { k with filepool := Function.update k.filepool f x } := by
  have h' := h.setFile (f := f) x
  have hzero : (fun j => if j = f then x.ref - (k.filepool f).ref else 0) = (0 : Nat → Int) := by
    funext j
    rw [hx, sub_self, ite_self]
    rfl
  rwa [hzero, add_zero] at h'

/-- A descriptor with another file. -/
theorem setFd (h : Tally X d k) (hi : i < NPROC) (hfd : fd < FD_MAX) (v : Option Nat) {p : proc}
    (hp : p.files = Function.update (k.pool i).files fd v) (hlive : Dead p → X i) :
    Tally X (d + ones ((k.pool i).files fd) - ones v)
    { k with pool := Function.update k.pool i p } := by
  refine ⟨fun f => ?_, fun j hj => ?_, h.current, fun hc => ?_⟩
  · have := h.surplus f
    unfold ThuKernel.surplus at *
    dsimp only
    rw [descriptors_update hi, hp, fdsOf_update hfd, Pi.sub_apply, Pi.add_apply, ← this]
    ring
  · dsimp only at hj ⊢
    by_cases hji : j = i
    · subst hji
      rw [Function.update_self] at hj
      exact Or.inl (hlive hj)
    · rw [Function.update_of_ne hji] at hj ⊢
      exact h.cleared j hj
  · dsimp only at hc ⊢
    by_cases hcur : k.current_proc = i
    · rw [hcur, Function.update_self] at hc
      rw [hcur]
      exact hlive hc
    · rw [Function.update_of_ne hcur] at hc
      exact h.live hc

/-- Other fields of a process. -/
theorem setProc (h : Tally X d k) {p : proc} (hp : p.files = (k.pool i).files)
    (hlive : Dead p → Dead (k.pool i)) :
    Tally X d { k with pool := Function.update k.pool i p } := by
  refine h.same (fun _ => rfl) (fun j => ?_) (fun j hj => ?_) rfl
  · dsimp only
    by_cases hji : j = i
    · rw [hji, Function.update_self, hp]
    · rw [Function.update_of_ne hji]
  · dsimp only at hj
    by_cases hji : j = i
    · rw [hji, Function.update_self] at hj
      rw [hji]
      exact hlive hj
    · rwa [Function.update_of_ne hji] at hj

theorem onMm {α : Type} (h : Tally X d k) (g : Prog Mm α) :
    Runs (fun _ => True) (onMm g) k (fun _ k' => Tally X d k' ∧ k' = { k with mm := k'.mm }) := by
  rw [runs_onMm]
  apply Runs.of_forall
  intro _ m _
  exact ⟨h.same (fun _ => rfl) (fun _ => rfl) (fun _ hd => hd) rfl, rfl⟩

theorem onFs {α : Type} (h : Tally X d k) (g : Prog Fs α) :
    Runs (fun _ => True) (onFs g) k (fun _ k' => Tally X d k' ∧ k' = { k with fs := k'.fs }) := by
  rw [runs_onFs]
  apply Runs.of_forall
  intro _ m _
  exact ⟨h.same (fun _ => rfl) (fun _ => rfl) (fun _ hd => hd) rfl, rfl⟩

/-! ## Files -/

theorem filealloc_runs (h : Tally X d k) :
    Runs E filealloc k (fun r k' => Tally X (d + ones r) k' ∧ k'.pool = k.pool ∧ k'.mm = k.mm ∧
      k'.current_proc = k.current_proc ∧ r = freeFile k.filepool ∧ (r = none → k' = k) ∧
      ∀ f, r = some f → freeFile k'.filepool = secondFile k.filepool) := by
  rw [runs_filealloc]
  constructor
  · intro hf
    refine ⟨?_, rfl, rfl, rfl, hf.symm, fun _ => rfl, fun f hc => by cases hc⟩
    rwa [ones_none, add_zero]
  · intro f hf
    have h0 : (k.filepool f).ref = 0 := by
      unfold freeFile at hf
      simpa using List.find?_some hf
    refine ⟨?_, rfl, rfl, rfl, hf.symm, fun hc => (by cases hc), fun _ _ => ?_⟩
    on_goal 2 =>
      unfold secondFile
      rw [hf]
    have h' := h.setFile (f := f) { k.filepool f with ref := 1 }
    rw [h0] at h'
    rwa [ones_some]

theorem fdalloc_runs (h : Tally X d k) (f : Nat) :
    Runs E (fdalloc f) k (fun r k' => Tally X (d - ones (r.map fun _ => f)) k' ∧
      k'.filepool = k.filepool ∧ k'.mm = k.mm ∧ k'.current_proc = k.current_proc ∧
      (r = none → k'.pool = k.pool ∧ ∀ fd, 3 ≤ fd → fd < FD_MAX →
      (k.pool k.current_proc).files fd ≠ none) ∧
      ∀ fd, r = some fd → 3 ≤ fd ∧ fd < FD_MAX ∧ (k.pool k.current_proc).files fd = none ∧
        k'.pool = Function.update k.pool k.current_proc { k.pool k.current_proc with
          files := Function.update (k.pool k.current_proc).files fd (some f) }) := by
  rw [runs_fdalloc]
  cases hf : firstFd (k.pool k.current_proc).files with
  | none =>
    rw [withFd_none hf]
    refine ⟨?_, rfl, rfl, rfl, fun _ => ⟨rfl, fun fd h3 hfd => firstFd_none hf h3 hfd⟩,
      fun fd hfd => by cases hfd⟩
    rwa [Option.map_none, ones_none, sub_zero]
  | some fd =>
    obtain ⟨h3, hfd, hnone⟩ := firstFd_some hf
    rw [withFd_some hf]
    refine ⟨?_, rfl, rfl, rfl, (fun hc => by cases hc), fun fd' hfd' => ?_⟩
    · have h' := h.setFd h.current hfd (some f) (p := { k.pool k.current_proc with
        files := Function.update (k.pool k.current_proc).files fd (some f) }) rfl h.live
      rwa [hnone, ones_none, add_zero] at h'
    · cases hfd'
      exact ⟨h3, hfd, hnone, rfl⟩

/-- What the last reference needs: it leaves the references alone. -/
theorem closeLast_runs (h : Tally X d k) (x : file) :
    Runs (fun _ => True) (closeLast lk x) k (fun _ k' => Tally X d k' ∧ k'.filepool = k.filepool ∧
      k'.pool = k.pool ∧ k'.current_proc = k.current_proc) := by
  rw [runs_closeLast]
  refine ⟨fun _ => ⟨h, rfl, rfl, rfl⟩, fun _ => ?_, fun _ => ⟨fun _ => trivial, fun ip _ => ?_⟩⟩
  · rw [runs_pipeclose rfl]
    have h' : ∀ y, Tally X d { k with pipes := Function.update k.pipes x.pipe y } := fun y =>
      h.same (fun _ => rfl) (fun _ => rfl) (fun _ hd => hd) rfl
    refine ⟨fun _ => ?_, fun _ => ⟨h' _, rfl, rfl, rfl⟩⟩
    apply ((h' _).onMm _).imp
    rintro _ k₂ ⟨h₂, hk₂⟩
    exact ⟨h₂, by rw [hk₂], by rw [hk₂], by rw [hk₂]⟩
  · apply (h.onFs _).imp
    rintro _ k₂ ⟨h₂, hk₂⟩
    exact ⟨h₂, by rw [hk₂], by rw [hk₂], by rw [hk₂]⟩

theorem fileclose_runs (h : Tally X d k) (f : Nat) :
    Runs (fun _ => True) (fileclose lk f) k (fun _ k' => Tally X (d - one f) k' ∧ k'.pool = k.pool ∧
      k'.current_proc = k.current_proc) := by
  have hone : ∀ x : file, x.ref = (k.filepool f).ref - 1 →
      (fun j => if j = f then x.ref - (k.filepool f).ref else 0) = - one f := by
    intro x hx
    funext j
    rw [hx, Pi.neg_apply]
    unfold one only
    split
    · ring
    · rfl
  have h₁ := h.setFile (f := f) { k.filepool f with ref := (k.filepool f).ref - 1 }
  rw [hone _ rfl, ← sub_eq_add_neg] at h₁
  rw [runs_fileclose rfl]
  refine ⟨fun _ => trivial, fun _ => ⟨h₁, rfl, rfl⟩, fun hlast => ?_⟩
  apply (h₁.closeLast_runs _).imp
  rintro _ k₂ ⟨h₂, hfile₂, hpool₂, hcur₂⟩
  refine ⟨h₂.setFile_same ?_, hpool₂, hcur₂⟩
  rw [hfile₂, file.closed_ref]
  dsimp only
  rw [Function.update_self]
  dsimp only
  omega

theorem openFile_runs (h : Tally X d k) :
    Runs (fun _ => True) (openFile lk) k (fun _ k' => Tally X d k' ∧
      k'.current_proc = k.current_proc) := by
  unfold openFile
  apply (h.filealloc_runs).bind
  rintro r k₁ ⟨h₁, _, _, hcur₁, _⟩
  cases r with
  | none =>
    rw [ones_none, add_zero] at h₁
    exact ⟨h₁, hcur₁⟩
  | some f =>
    apply (h₁.fdalloc_runs f).bind
    rintro r k₂ ⟨h₂, _, _, hcur₂, _⟩
    cases r with
    | none =>
      apply (h₂.fileclose_runs f).bind
      rintro _ k₃ ⟨h₃, _, hcur₃⟩
      rw [Option.map_none, ones_none, sub_zero, ones_some, add_sub_cancel_right] at h₃
      exact ⟨h₃, hcur₃.trans (hcur₂.trans hcur₁)⟩
    | some fd =>
      rw [Option.map_some, add_sub_cancel_right] at h₂
      exact ⟨h₂, hcur₂.trans hcur₁⟩

theorem fileopen_runs (h : Tally X d k) (path : CStr) (omode : Nat) :
    Runs (fun _ => True) (fileopen lk path omode) k (fun _ k' => Tally X d k') := by
  unfold fileopen
  apply (h.onFs _).bind
  rintro r k₁ ⟨h₁, _⟩
  cases r with
  | none => exact h₁
  | some ip =>
    apply (h₁.onFs _).bind
    rintro x k₂ ⟨h₂, _⟩
    split
    · trivial
    · apply (h₂.openFile_runs).bind
      rintro r k₃ ⟨h₃, _⟩
      cases r with
      | none =>
        apply (h₃.onFs _).bind
        rintro _ k₄ ⟨h₄, _⟩
        exact h₄
      | some q =>
        dsimp only
        rw [Runs.bind_iff, runs_getFile, Runs.bind_iff, runs_setFile]
        have h₄ := h₃.setFile_same (f := q.1) (x := { k₃.filepool q.1 with
          type := .FD_INODE, off := 0, ip := some ip
          readable := !hasFlag omode O_WRONLY
          writable := hasFlag omode O_WRONLY || hasFlag omode O_RDWR }) rfl
        apply (h₄.onFs _).bind
        rintro y k₅ ⟨h₅, _⟩
        rw [Runs.bind_iff, Runs.when_iff]
        refine ⟨fun _ => ?_, fun _ => h₅⟩
        apply (h₅.onFs _).imp
        rintro _ k₆ ⟨h₆, _⟩
        exact h₆

theorem sys_openat_runs (h : Tally X d k) (path : Bytes) (va omode : Nat) :
    Runs (fun _ => True) (sys_openat lk path va omode) k (fun _ k' => Tally X d k') := by
  unfold sys_openat
  rw [Runs.bind_iff, runs_curr_proc]
  apply (h.onMm _).bind
  rintro r k₁ ⟨h₁, _⟩
  exact h₁.fileopen_runs _ _

theorem sys_close_runs (h : Tally X d k) (fd : Int) :
    Runs (fun _ => True) (sys_close lk fd) k (fun _ k' => Tally X d k') := by
  unfold sys_close
  split
  · exact h
  · apply Runs.bind_iff.mpr
    apply runs_fileAt (fun _ => trivial)
    intro f h0 hmax hf
    apply (h.fileclose_runs f).bind
    rintro _ k₁ ⟨h₁, hpool₁, hcur₁⟩
    rw [Runs.bind_iff, runs_modifyCurr, Runs.pure_iff]
    have h₂ := h₁.setFd h₁.current (show fd.toNat < FD_MAX by omega) none
      (p := { k₁.pool k₁.current_proc with
      files := Function.update (k₁.pool k₁.current_proc).files fd.toNat none }) rfl h₁.live
    rw [hcur₁, hpool₁, hf, ones_some, ones_none, sub_zero, sub_add_cancel] at h₂
    rw [hcur₁, hpool₁]
    exact h₂

/-! ## Pipes -/

theorem kalloc_zero {s : Mm} : Runs E kalloc s (fun r _ => r = 0 ↔ s.freelist = 0) := by
  exact runs_kalloc.mpr ⟨fun h => iff_of_true rfl h, fun h => iff_of_false h h⟩

theorem pipealloc_runs (h : Tally X d k) (f0 f1 : Option Nat) :
    Runs (fun _ => True) (pipealloc f0 f1) k (fun r k' => Tally X d k' ∧ k'.pool = k.pool ∧
      k'.current_proc = k.current_proc ∧
      ((r = -1 ∧ k.mm.freelist = 0) ∨ (r = 0 ∧ k.mm.freelist ≠ 0))) := by
  rw [runs_pipealloc, runs_onMm]
  apply (kalloc_zero).imp
  intro pi m hpi
  have hmm : ∀ m pipes, Tally X d { k with mm := m, pipes := pipes } := fun m pipes =>
    h.same (fun _ => rfl) (fun _ => rfl) (fun _ hd => hd) rfl
  refine ⟨fun hzero => ⟨hmm m k.pipes, rfl, rfl, Or.inl ⟨rfl, hpi.mp hzero⟩⟩, fun hpos => ?_⟩
  have hpos : k.mm.freelist ≠ 0 := fun hc => hpos (hpi.mpr hc)
  rw [runs_onMm, memset, Runs.modify_iff]
  refine ⟨fun _ => trivial, ?_⟩
  rintro g0 g1 files _ _ rfl
  refine ⟨?_, rfl, rfl, Or.inr ⟨rfl, hpos⟩⟩
  have h₁ := (hmm m k.pipes).setFile_same (f := g0) (x := (k.filepool g0).onPipe pi false) rfl
  have h₂ := h₁.setFile_same (f := g1) (x := (Function.update k.filepool g0
    ((k.filepool g0).onPipe pi false) g1).onPipe pi true) rfl
  exact h₂.same (fun _ => rfl) (fun _ => rfl) (fun _ hd => hd) rfl

theorem clearFd_runs (h : Tally X d k) {fd : Option Nat} (hfd : ∀ i, fd = some i → i < FD_MAX) :
    Runs (fun _ => True) (clearFd fd) k (fun _ k' =>
      Tally X (d + ones (fd.bind (k.pool k.current_proc).files)) k' ∧
        k'.current_proc = k.current_proc ∧
      ∀ j, fd ≠ some j → (k'.pool k.current_proc).files j = (k.pool k.current_proc).files j) := by
  unfold clearFd
  cases fd with
  | none =>
    rw [runs_modifyCurr, Option.bind_none, ones_none, add_zero]
    refine ⟨h.setProc rfl fun hd => hd, rfl, fun j _ => ?_⟩
    dsimp only
    rw [Function.update_self]
  | some i =>
    rw [runs_modifyCurr, Option.bind_some]
    have h' := h.setFd h.current (hfd i rfl) none (p := { k.pool k.current_proc with
      files := Function.update (k.pool k.current_proc).files i none }) rfl h.live
    rw [ones_none, sub_zero] at h'
    refine ⟨h', rfl, fun j hj => ?_⟩
    have hji : j ≠ i := fun hc => hj (by rw [hc])
    dsimp only
    rw [Function.update_self]
    exact Function.update_of_ne hji _ _

/-- The end of `sys_pipe`: the descriptors stay, or all is undone. -/
theorem pipeUndo_runs (h : Tally X d k) {f0 f1 : Nat} {fd0 fd1 : Option Nat} (r : Int)
    (h0 : ∀ i, fd0 = some i → i < FD_MAX) (h1 : ∀ i, fd1 = some i → i < FD_MAX)
    (hne : ∀ i, fd0 = some i → fd1 ≠ some i) :
    Runs (fun _ => True) (pipeUndo lk f0 f1 fd0 fd1 r) k (fun r k' => r = 0 ∧ Tally X d k' ∨
      r = -1 ∧ Tally X (d - one f0 - one f1 + ones (fd0.bind (k.pool k.current_proc).files) +
        ones (fd1.bind (k.pool k.current_proc).files)) k') := by
  unfold pipeUndo
  split
  · apply (h.fileclose_runs f0).bind
    rintro _ k₃ ⟨h₃, hpool₃, hcur₃⟩
    apply (h₃.fileclose_runs f1).bind
    rintro _ k₄ ⟨h₄, hpool₄, hcur₄⟩
    have hcur : k₄.current_proc = k.current_proc := by
      rw [hcur₄, hcur₃]
    have hpool : k₄.pool = k.pool := by
      rw [hpool₄, hpool₃]
    apply (h₄.clearFd_runs h0).bind
    rintro _ k₅ ⟨h₅, hcur₅, hrest₅⟩
    apply (h₅.clearFd_runs h1).bind
    rintro _ k₆ ⟨h₆, _⟩
    have hsame : fd1.bind (k₅.pool k₅.current_proc).files =
        fd1.bind (k.pool k.current_proc).files := by
      cases fd1 with
      | none => rfl
      | some b =>
        have hb : fd0 ≠ some b := fun hc => hne b hc rfl
        rw [Option.bind_some, Option.bind_some, hcur₅, hrest₅ b hb, hcur, hpool]
    rw [hsame, hcur, hpool] at h₆
    exact Or.inr ⟨rfl, h₆⟩
  · exact Or.inl ⟨rfl, h⟩

theorem fdalloc_twice (h : Tally X d k) (f0 f1 : Nat) :
    Runs E (fdalloc f0) k fun fd0 k₁ => Runs E (fdalloc f1) k₁ fun fd1 k₂ =>
      Tally X (d - ones (fd0.map fun _ => f0) - ones (fd1.map fun _ => f1)) k₂ ∧
        k₂.current_proc = k.current_proc ∧
      TwoFds (k.pool k.current_proc).files (k₂.pool k.current_proc).files f0 f1 fd0 fd1 := by
  apply (h.fdalloc_runs f0).imp
  rintro fd0 k₁ ⟨h₁, _, _, hcur₁, hno₁, hyes₁⟩
  apply (h₁.fdalloc_runs f1).imp
  rintro fd1 k₂ ⟨h₂, _, _, hcur₂, hno₂, hyes₂⟩
  rw [hcur₁] at hno₂ hyes₂
  refine ⟨h₂, hcur₂.trans hcur₁, ?_⟩
  have hback1 : fd1.bind (k₂.pool k.current_proc).files = fd1.map fun _ => f1 := by
    cases fd1 with
    | none => rfl
    | some b =>
      rw [Option.bind_some, Option.map_some, (hyes₂ b rfl).2.2.2, Function.update_self]
      exact Function.update_self _ _ _
  cases fd0 with
  | none =>
    -- No descriptor is free, so the second search fails as well.
    obtain ⟨hsame₁, hfull⟩ := hno₁ rfl
    have hfd1 : fd1 = none := by
      rw [Option.eq_none_iff_forall_ne_some]
      intro b hb
      obtain ⟨hb3, hbmax, hbnone, _⟩ := hyes₂ b hb
      rw [hsame₁] at hbnone
      exact hfull b hb3 hbmax hbnone
    refine ⟨fun i hi => (by cases hi), fun i hi => (hyes₂ i hi).2.1, fun i hi => (by cases hi),
      rfl, hback1, fun _ => hfd1, fun hc => absurd hfd1 hc, ?_⟩
    rintro ⟨a, _, _, ha, _⟩
    exact absurd ha.2.2 (hfull a ha.1 ha.2.1)
  | some a =>
    obtain ⟨ha3, hamax, hanone, hpool₁⟩ := hyes₁ a rfl
    have hfiles₁ : (k₁.pool k.current_proc).files = Function.update (k.pool k.current_proc).files a
        (some f0) := by
      rw [hpool₁, Function.update_self]
    have hne : fd1 ≠ some a := by
      intro hc
      have hnone := (hyes₂ a hc).2.2.1
      rw [hfiles₁, Function.update_self] at hnone
      cases hnone
    have hback0 : (k₂.pool k.current_proc).files a = some f0 := by
      have hat : (k₁.pool k.current_proc).files a = some f0 := by
        rw [hfiles₁]
        exact Function.update_self _ _ _
      rw [← hat]
      cases fd1 with
      | none => rw [(hno₂ rfl).1]
      | some b =>
        have hab : a ≠ b := fun hc => hne (by rw [hc])
        rw [(hyes₂ b rfl).2.2.2, Function.update_self]
        exact Function.update_of_ne hab _ _
    refine ⟨fun i hi => ?_, fun i hi => (hyes₂ i hi).2.1, fun i hi => ?_, hback0, hback1,
      fun hc => (by cases hc), ?_⟩
    · cases hi
      exact hamax
    · cases hi
      exact hne
    · rw [twoFree_left_iff ⟨ha3, hamax, hanone⟩ hfiles₁]
      cases fd1 with
      | none =>
        refine ⟨fun hc => absurd rfl hc, ?_⟩
        rintro ⟨b, hb3, hbmax, hbnone⟩
        exact absurd hbnone ((hno₂ rfl).2 b hb3 hbmax)
      | some b =>
        obtain ⟨hb3, hbmax, hbnone, _⟩ := hyes₂ b rfl
        exact ⟨fun _ => ⟨b, hb3, hbmax, hbnone⟩, fun _ => Option.some_ne_none b⟩

/-- What `sys_pipe` leaves when it returns. -/
theorem sys_pipe_runs (h : Tally X 0 k) (fdarray : Nat) :
    Runs (fun _ => True) (sys_pipe lk fdarray) k (fun r k' => ∃ d, Tally X d k' ∧
      (d = 0 ↔ PipeGivesBack k r)) := by
  rw [runs_sys_pipe]
  apply (h.filealloc_runs).imp
  rintro r0 k₁ ⟨h₁, hpool₁, hmm₁, hcur₁, hr0, hsame₁, hsecond⟩
  apply (h₁.filealloc_runs).imp
  rintro r1 k₂ ⟨h₂, hpool₂, hmm₂, hcur₂, hr1, _⟩
  apply (h₂.pipealloc_runs r0 r1).imp
  rintro r k₃ ⟨h₃, hpool₃, hcur₃, hr⟩
  rw [hmm₂, hmm₁] at hr
  rw [zero_add] at h₃
  rcases hr with ⟨rfl, hzero⟩ | ⟨rfl, hpos⟩
  · -- There is no page.
    refine ⟨fun _ => ⟨_, h₃, ?_⟩, fun hc => absurd (by decide) hc⟩
    cases r0 with
    | none =>
      have hr1 : r1 = none := by
        rw [hr1, hsame₁ rfl, ← hr0]
      rw [hr1, ones_none, add_zero]
      exact ⟨fun _ => Or.inl hr0.symm, fun _ => rfl⟩
    | some f0 =>
      rw [ones_some]
      constructor
      · intro hc
        exact absurd hc (one_add_ones_ne_zero f0 r1)
      · rintro (hc | ⟨hc, _⟩)
        · rw [hc] at hr0
          cases hr0
        · exact absurd hzero hc
  · refine ⟨fun hc => absurd hc (by decide), fun _ => ⟨fun _ => trivial, ?_⟩⟩
    rintro f0 rfl f1 rfl
    rw [runs_pipeFds]
    rw [ones_some, ones_some] at h₃
    have hcur : k₃.current_proc = k.current_proc := hcur₃.trans (hcur₂.trans hcur₁)
    have hpool : k₃.pool = k.pool := hpool₃.trans (hpool₂.trans hpool₁)
    have hok : ∀ r, PipeGivesBack k r ↔ TwoFree (k.pool k.current_proc).files ∨ r = -1 := by
      have hboth : secondFile k.filepool ≠ none := by
        rw [← hsecond f0 rfl, ← hr1]
        exact Option.some_ne_none f1
      intro r
      constructor
      · rintro (hc | ⟨_, _, h⟩)
        · rw [hc] at hr0
          cases hr0
        · exact h
      · exact fun h => Or.inr ⟨hpos, hboth, h⟩
    apply (h₃.fdalloc_twice f0 f1).imp
    intro fd0 k₄ hsecond
    apply hsecond.imp
    rintro fd1 k₅ ⟨h₅, hcur₅, hfds⟩ _ rfl
    rw [hcur] at hcur₅ hfds
    rw [hpool] at hfds
    have hend : ∀ k', Tally X (one f0 + one f1 - ones (fd0.map fun _ => f0) -
        ones (fd1.map fun _ => f1)) k' →
        k'.pool = k₅.pool → k'.current_proc = k₅.current_proc → ∀ r : Int,
        Runs (fun _ => True) (pipeUndo lk f0 f1 fd0 fd1 r) k' (fun r k' => ∃ d, Tally X d k' ∧
          (d = 0 ↔ PipeGivesBack k r)) := by
      intro k₆ h₆ hpool₆ hcur₆ r
      apply (h₆.pipeUndo_runs r hfds.range0 hfds.range1 hfds.apart).imp
      rw [hpool₆, hcur₆, hcur₅, hfds.back0, hfds.back1]
      rintro r' k₇ (⟨rfl, h₇⟩ | ⟨rfl, h₇⟩)
      · refine ⟨_, h₇, hfds.left_iff.trans ?_⟩
        rw [hok]
        exact ⟨Or.inl, fun hc => hc.resolve_right (by decide)⟩
      · refine ⟨_, h₇, fun _ => ?_, fun _ => by ring⟩
        rw [hok]
        exact Or.inr rfl
    apply (h₅.onMm _).imp
    rintro r0 k₆ ⟨h₆, hk₆⟩
    refine ⟨fun _ => hend k₆ h₆ (by rw [hk₆]) (by rw [hk₆]) _, fun _ => ?_⟩
    apply (h₆.onMm _).imp
    rintro r1 k₇ ⟨h₇, hk₇⟩
    exact hend k₇ h₇ (by rw [hk₇, hk₆]) (by rw [hk₇, hk₆]) _

/-- What `sys_pipe` leaves when it stops at a null file: a file that was the only
one in no use. -/
theorem pipeTrap_runs (h : Tally X 0 k) :
    Runs (fun _ => True) pipeTrap k (fun _ k' => secondFile k.filepool = none ∧ ∃ d, Tally X d k' ∧
      (d = 0 ↔ freeFile k.filepool = none)) := by
  unfold pipeTrap
  apply (h.filealloc_runs).bind
  rintro r0 k₁ ⟨h₁, _, _, _, hr0, hsame₁, hsecond⟩
  apply (h₁.filealloc_runs).bind
  rintro r1 k₂ ⟨h₂, _, _, _, hr1, _⟩
  apply (h₂.onMm _).bind
  rintro pi k₃ ⟨h₃, _⟩
  split
  · trivial
  apply (h₃.onMm _).bind
  rintro _ k₄ ⟨h₄, _⟩
  rw [Runs.bind_iff, runs_setPipe]
  have h₅ : Tally X (0 + ones r0 + ones r1)
      { k₄ with pipes := Function.update k₄.pipes pi ⟨fun _ => 0, 0, 0, true, true⟩ } :=
    h₄.same (fun _ => rfl) (fun _ => rfl) (fun _ hd => hd) rfl
  cases r0 with
  | none =>
    have hnone : r1 = none := by
      rw [hr1, hsame₁ rfl, ← hr0]
    have hsecond' : secondFile k.filepool = none := by
      unfold secondFile
      rw [← hr0]
    rw [hnone] at h₅
    exact ⟨hsecond', _, h₅, fun _ => hr0.symm, fun _ => rfl⟩
  | some f0 =>
    cases r1 with
    | some f1 => trivial
    | none =>
      dsimp only
      rw [Runs.bind_iff, runs_getFile, runs_setFile]
      refine ⟨by rw [← hsecond f0 rfl, ← hr1], _, h₅.setFile_same rfl, fun hd => ?_, fun hc => ?_⟩
      · rw [zero_add, ones_some] at hd
        exact absurd hd (one_add_ones_ne_zero f0 none)
      · rw [hc] at hr0
        cases hr0

end Tally

theorem filealloc_returns : ∃ r k', filealloc k = .ok (r, k') := by
  have hruns : Runs (fun _ => False) filealloc k fun _ _ => True :=
    runs_filealloc.mpr ⟨fun _ => trivial, fun _ _ => trivial⟩
  obtain ⟨r, k', h, _⟩ := hruns.exists_ok fun _ he => he
  exact ⟨r, k', h⟩

/-- Where `pipeTrap` returns, `sys_pipe` stops at a null pointer. -/
theorem pipeTrap_stops {fdarray : Nat} (h : pipeTrap k = .ok ((), k')) :
    sys_pipe lk fdarray k = .error (.fault "null pointer") := by
  obtain ⟨f0, k₁, h0⟩ := @filealloc_returns k
  obtain ⟨f1, k₂, h1⟩ := @filealloc_returns k₁
  have hkalloc : Runs (fun _ => False) (onMm kalloc) k₂ fun _ _ => True := by
    rw [runs_onMm]
    exact Tally.kalloc_zero.imp fun _ _ _ => trivial
  obtain ⟨pi, k₃, h2, _⟩ := hkalloc.exists_ok fun _ he => he
  unfold pipeTrap at h
  rw [Prog.bind_ok h0, Prog.bind_ok h1, Prog.bind_ok h2] at h
  split at h
  · cases h
  · rename_i hpi
    have hstops : Runs (fun e => e = .fault "null pointer") (sys_pipe lk fdarray) k fun _ _ =>
        False := by
      rw [runs_sys_pipe, Runs.ok_iff h0, Runs.ok_iff h1, runs_pipealloc, Runs.ok_iff h2]
      refine ⟨fun hc => absurd hc hpi, fun _ => ?_⟩
      rw [runs_onMm, memset, Runs.modify_iff]
      refine ⟨fun _ => rfl, ?_⟩
      rintro a b _ rfl rfl _
      cases h
    exact hstops.error_of_not fun _ _ hc => hc

end ThuKernel
