-- The number of descriptors of each file over runs: which calls on files,
-- pipes and processes give back what they do not finish.
import ThuKernel.Kernel.PipeUndo

namespace ThuKernel

variable {lk : Link} {k k' : Kernel}

/-! ## When `pipe` gives back what it takes -/

/-- The numbers of two descriptors have no place at `fdarray`, in a kernel in which
each page has one use. -/
def NoPlace (lk : Link) (k : Kernel) (fdarray : Nat) : Prop :=
  (∃ P l, PagesOk lk k P l) ∧ ∃ u < 16, ¬ Mapped k.mm.mem (k.pool k.current_proc).pagetable
    (fdarray + u)

/-- `pipe` finds no file to take, or a page, two files and two descriptors, or a
page and two files which it gives back, as the numbers have no place. -/
def PipeKeepsCount (lk : Link) (k : Kernel) (fdarray : Nat) : Prop :=
  freeFile k.filepool = none ∨ k.mm.freelist ≠ 0 ∧ secondFile k.filepool ≠ none ∧
    (TwoFree (k.pool k.current_proc).files ∨ NoPlace lk k fdarray)

theorem PipeKeepsCount.gives_back {fdarray : Nat} (h : PipeKeepsCount lk k fdarray)
    (hcur : k.current_proc < NPROC) (hlive : ¬ Dead (k.pool k.current_proc)) :
    Runs (fun _ => True) (sys_pipe lk fdarray) k (fun r _ => PipeGivesBack k r) := by
  have hall : PipeGivesBack k 0 →
      Runs (fun _ => True) (sys_pipe lk fdarray) k (fun r _ => PipeGivesBack k r) := by
    intro hback
    apply Runs.of_forall
    rintro r _ _
    rcases hback with hnone | ⟨hpage, hfiles, hfds⟩
    · exact Or.inl hnone
    · exact Or.inr ⟨hpage, hfiles, Or.inl (hfds.resolve_right (by decide))⟩
  rcases h with hnone | ⟨hpage, hfiles, hfds | ⟨⟨P, l, hpages⟩, hplace⟩⟩
  · exact hall (Or.inl hnone)
  · exact hall (Or.inr ⟨hpage, hfiles, Or.inl hfds⟩)
  · apply (sys_pipe_fails_iff hpages hcur hlive hpage hfiles fdarray).imp
    rintro r _ hr
    exact Or.inr ⟨hpage, hfiles, Or.inr (hr.mpr hplace)⟩

theorem PagesOk.gives_back_iff {P : Nat → Prop} {l : List Nat} (h : PagesOk lk k P l)
    (hcur : k.current_proc < NPROC) (hlive : ¬ Dead (k.pool k.current_proc)) (fdarray : Nat) :
    Runs (fun _ => True) (sys_pipe lk fdarray) k (fun r _ => PipeGivesBack k r ↔
      PipeKeepsCount lk k fdarray) := by
  by_cases hboth : k.mm.freelist ≠ 0 ∧ secondFile k.filepool ≠ none
  · apply (sys_pipe_fails_iff h hcur hlive hboth.1 hboth.2 fdarray).imp
    rintro r _ hr
    apply or_congr_right
    apply and_congr_right
    intro _
    apply and_congr_right
    intro _
    rw [hr]
    exact or_congr_right ⟨fun hplace => ⟨⟨P, l, h⟩, hplace⟩, fun hplace => hplace.2⟩
  · apply Runs.of_forall
    rintro r _ _
    apply or_congr_right
    exact ⟨fun hc => absurd ⟨hc.1, hc.2.1⟩ hboth, fun hc => absurd ⟨hc.1, hc.2.1⟩ hboth⟩

/-! ## The calls -/

/-- A system call that makes or drops references of files. -/
inductive RefCall where
  | openat (path : Bytes) (va omode : Nat)
  | pipe (fdarray : Nat)
  | close (fd : Int)
  | fork
  | spawn (name : Bytes) (va : Nat)
  | exec (name : Bytes) (va : Nat)
  | exit (code : Int)

def RefCall.run (lk : Link) : RefCall → Prog Kernel Outcome
  | .openat path va omode => .ret <$> sys_openat lk path va omode
  | .pipe fdarray => .ret <$> sys_pipe lk fdarray
  | .close fd => .ret <$> sys_close lk fd
  | .fork => .ret <$> sys_clone lk
  | .spawn name va => .ret <$> sys_spawn lk name va
  | .exec name va => .ret <$> sys_exec lk name va
  | .exit code => .ret <$> sys_exit lk code

/-- The calls that undo what they did not finish, and close files of descriptors
only. -/
def KeepsCount (lk : Link) (k : Kernel) : RefCall → Prop
  | .pipe fdarray => PipeKeepsCount lk k fdarray
  | .close fd => IsFd fd
  | .fork => ForkKeepsCount lk k
  | _ => True

theorem RefCall.run_counts (h : Tally nobody 0 k) {call : RefCall} (hok : KeepsCount lk k call) :
    Runs (fun _ => True) (call.run lk) k (fun _ k' => Counted k' ∧ Cleared k') := by
  cases call with
  | openat path va omode => exact Runs.map_iff.mpr ((h.sys_openat_runs path va omode).imp
    fun _ _ h' => h'.counted)
  | pipe fdarray =>
    apply Runs.map_iff.mpr
    apply ((h.sys_pipe_runs fdarray).and (hok.gives_back h.current h.alive)).mono fun _ _ => trivial
    rintro r k' ⟨⟨d, h', hd⟩, hback⟩
    rw [hd.mpr hback] at h'
    exact h'.counted
  | close fd => exact Runs.map_iff.mpr ((h.sys_close_runs fd).imp fun _ _ h' => h'.counted)
  | fork => exact Runs.map_iff.mpr ((h.fork_runs hok).imp fun _ _ h' => h'.counted)
  | spawn name va =>
    apply Runs.map_iff.mpr
    apply (h.copyinName_runs name va).bind
    intro name k₁ h₁
    exact (h₁.spawn_runs name).imp fun _ _ h' => h'.counted
  | exec name va =>
    apply Runs.map_iff.mpr
    apply (h.copyinName_runs name va).bind
    intro name k₁ h₁
    exact (h₁.exec_runs name).imp fun _ _ h' => h'.counted
  | exit code =>
    apply Runs.map_iff.mpr
    apply (h.exit_runs code).bind
    intro _ k₁ h₁
    exact h₁

/-! ## Runs -/

/-- A step of the machine: a call of a live process that `ok` allows, or
anything else, which leaves the references and the descriptors alone and ends
no process. A close of what lies outside of the descriptors may do anything. A
null pointer ends the process, as `exit` does: only `sys_pipe` has changed
something before it meets one. -/
inductive RefStep (lk : Link) (ok : Kernel → RefCall → Prop) : Kernel → Kernel → Prop
  | call {k k' : Kernel} (p : Nat) (call : RefCall) (r : Outcome) (hp : p < NPROC)
      (hlive : ¬ Dead (k.pool p))
      (hok : ok (k.switch p) call) (hrun : call.run lk (k.switch p) = .ok (r, k')) :
      RefStep lk ok k k'
  | outside {k k' : Kernel} (p : Nat) (fd : Int) (hok : ok (k.switch p) (.close fd))
      (hout : ¬ IsFd fd) :
      RefStep lk ok k k'
  | trap {k k' : Kernel} (p fdarray : Nat) (hp : p < NPROC) (hlive : ¬ Dead (k.pool p))
      (hok : ok (k.switch p) (.pipe fdarray))
      (hrun : pipeTrap (k.switch p) = .ok ((), k')) : RefStep lk ok k k'
  | other {k k' : Kernel} (hrefs : ∀ f, (k'.filepool f).ref = (k.filepool f).ref)
      (hfiles : ∀ i, (k'.pool i).files = (k.pool i).files)
      (hdead : ∀ i, Dead (k'.pool i) → Dead (k.pool i)) : RefStep lk ok k k'

theorem RefStep.counted (h : Counted k) (h' : Cleared k) (hs : RefStep lk (KeepsCount lk) k k') :
    Counted k' ∧ Cleared k' := by
  cases hs with
  | call p call r hp hlive hok hrun =>
    exact (RefCall.run_counts (Tally.start h h' hp hlive) hok).of_ok hrun
  | outside p fd hok hout => exact absurd hok hout
  | trap p fdarray hp hlive hok hrun =>
    obtain ⟨hsecond, d, htally, hd⟩ := (Tally.start h h' hp hlive).pipeTrap_runs.of_ok hrun
    have hnone : freeFile (k.switch p).filepool = none :=
      Or.resolve_right hok fun hc => hc.2.1 hsecond
    rw [hd.mpr hnone] at htally
    exact htally.counted
  | other hrefs hfiles hdead =>
    constructor
    · intro f
      rw [hrefs f, h f, descriptors_same hfiles]
    · intro i hi fd hfd
      rw [hfiles i]
      exact h' i (hdead i hi) fd hfd

/-- Between two calls, in a process that goes on. -/
theorem PagesOk.entered {P : Nat → Prop} {l : List Nat} (h : PagesOk lk k P l) (p : Nat) :
    PagesOk lk (k.switch p) P l :=
  h.same rfl (fun _ ha => ha) (fun _ => rfl) (fun _ => rfl) (fun _ => rfl) fun _ => Iff.rfl

/-- A `pipe` that returns keeps the counts exactly if it gives back what it took. -/
theorem RefCall.pipe_counts {p fdarray : Nat} {r : Outcome} (h : Counted k ∧ Cleared k)
    (hp : p < NPROC) (hlive : ¬ Dead (k.pool p))
    (hrun : (RefCall.pipe fdarray).run lk (k.switch p) = .ok (r, k')) :
    ∃ n, Counted k' ↔ PipeGivesBack (k.switch p) n := by
  have hruns : Runs (fun _ => True) ((RefCall.pipe fdarray).run lk) (k.switch p) (fun _ k' =>
      ∃ n, Counted k' ↔ PipeGivesBack (k.switch p) n) := by
    apply Runs.map_iff.mpr
    apply ((Tally.start h.1 h.2 hp hlive).sys_pipe_runs fdarray).imp
    rintro n k' ⟨d, h', hd⟩
    exact ⟨n, h'.counted_iff.trans hd⟩
  exact hruns.of_ok hrun

/-- Where each page has one use, this can be seen before the call. -/
theorem RefCall.pipe_iff {p fdarray : Nat} {r : Outcome} {P : Nat → Prop} {l : List Nat}
    (h : Counted k ∧ Cleared k) (hpages : PagesOk lk k P l) (hp : p < NPROC)
    (hlive : ¬ Dead (k.pool p)) (hrun : (RefCall.pipe fdarray).run lk (k.switch p) = .ok (r, k')) :
    Counted k' ↔ PipeKeepsCount lk (k.switch p) fdarray := by
  have hruns : Runs (fun _ => True) ((RefCall.pipe fdarray).run lk) (k.switch p) (fun _ k' =>
      Counted k' ↔ PipeKeepsCount lk (k.switch p) fdarray) := by
    apply Runs.map_iff.mpr
    apply (((Tally.start h.1 h.2 hp hlive).sys_pipe_runs fdarray).and
      ((hpages.entered p).gives_back_iff hp hlive fdarray)).mono fun _ _ => trivial
    rintro r k' ⟨⟨d, h', hd⟩, hback⟩
    exact h'.counted_iff.trans (hd.trans hback)
  exact hruns.of_ok hrun

/-- So does one that stops at a null file. -/
theorem pipeTrap_iff {p fdarray : Nat} (h : Counted k ∧ Cleared k) (hp : p < NPROC)
    (hlive : ¬ Dead (k.pool p)) (hrun : pipeTrap (k.switch p) = .ok ((), k')) : Counted k' ↔
    PipeKeepsCount lk (k.switch p) fdarray := by
  obtain ⟨hsecond, d, h', hd⟩ := (Tally.start h.1 h.2 hp hlive).pipeTrap_runs.of_ok hrun
  rw [h'.counted_iff, hd]
  exact ⟨Or.inl, fun hok => hok.resolve_right fun hc => hc.2.1 hsecond⟩

/-- In every run whose pipes and forks give back what they take, and whose closes
have a descriptor, `ref` is the number of descriptors, and a file is free exactly
when no descriptor points to it. From there, where each page has one use, a `pipe`
that returns or meets a null file keeps this exactly if it is such a call. -/
theorem ref_is_the_number_of_descriptors (hboot : NoFiles k)
    (hrun : Relation.ReflTransGen (RefStep lk (KeepsCount lk)) k k') :
    Counted k' ∧ (∀ f, (k'.filepool f).ref = 0 ↔
        ∀ i < NPROC, ∀ fd < FD_MAX, (k'.pool i).files fd ≠ some f) ∧
      ∀ p fdarray k'', p < NPROC → ¬ Dead (k'.pool p) → (∃ P l, PagesOk lk k' P l) →
        ((∃ r, (RefCall.pipe fdarray).run lk (k'.switch p) = .ok (r, k'')) ∨
        pipeTrap (k'.switch p) = .ok ((), k'')) →
        (Counted k'' ↔ KeepsCount lk (k'.switch p) (.pipe fdarray)) := by
  have h : Counted k' ∧ Cleared k' := by
    induction hrun with
    | refl => exact hboot.counted
    | tail _ hstep ih => exact hstep.counted ih.1 ih.2
  obtain ⟨hcount, hcleared⟩ := h
  refine ⟨hcount, fun f => ?_, fun p fdarray k'' hp hlive hpages hcall => ?_⟩
  · rw [hcount f]
    exact descriptors_eq_zero
  · obtain ⟨P, l, hpages⟩ := hpages
    rcases hcall with ⟨r, hcall⟩ | htrap
    · exact RefCall.pipe_iff ⟨hcount, hcleared⟩ hpages hp hlive hcall
    · exact pipeTrap_iff ⟨hcount, hcleared⟩ hp hlive htrap

/-! ## A `pipe` without a page -/

section NoPage

theorem ref_is_the_number_of_descriptors_after_openat : Counted openKernel := by
  obtain ⟨r, h⟩ := Prog.returns_iff.mp openCall_returns
  exact (@ref_is_the_number_of_descriptors noLink _ _ onePageKernel_noFiles
    (Relation.ReflTransGen.single (.call 0 (.openat zeros 0 O_WRONLY) r (by decide)
    onePageKernel_live trivial h))).1

theorem freeFile_ne_none {filepool : Nat → file} (h : (filepool 0).ref = 0) :
    freeFile filepool ≠ none := by
  unfold freeFile
  intro hc
  have := List.find?_eq_none.mp hc 0 (List.mem_range.mpr (by decide))
  rw [h] at this
  exact this rfl

theorem pipe_returns : ((RefCall.pipe 0).run noLink).returns (onePageKernel.switch 0) = true := by
    decide +kernel

/-- `pipe` with two free files and without a page. -/
theorem pipe_leaves_two_files : ¬ ∀ (lk : Link) (k k' : Kernel), NoFiles k →
    Relation.ReflTransGen (RefStep lk fun _ _ => True) k k' → Counted k' := by
  intro hall
  obtain ⟨r, h⟩ := Prog.returns_iff.mp pipe_returns
  have hcount := hall noLink onePageKernel _ onePageKernel_noFiles
    (Relation.ReflTransGen.single (.call 0 (.pipe 0) r (by decide) onePageKernel_live trivial h))
  obtain ⟨n, hn⟩ := RefCall.pipe_counts onePageKernel_noFiles.counted (by decide)
    onePageKernel_live h
  rcases hn.mp hcount with hc | ⟨hc, _⟩
  · exact freeFile_ne_none rfl hc
  · exact hc rfl

end NoPage

end ThuKernel
