-- The ends of the pipes over runs: which pipes were made, and which of their
-- files have been in use ever since. The page of a pipe goes back with its
-- second end, also while processes stand in the loops of pipe.c.
import ThuKernel.Kernel.PipeUndo

namespace ThuKernel

/-- A system call that makes or closes files of pipes. -/
inductive EndCall where
  | pipe (fdarray : Nat)
  | fork
  | close (fd : Int)
  | exit (code : Int)

def EndCall.run (lk : Link) : EndCall → Prog Kernel Int
  | .pipe fdarray => sys_pipe lk fdarray
  | .fork => sys_clone lk
  | .close fd => sys_close lk fd
  | .exit code => sys_exit lk code

def PipeCall.page : PipeCall → Nat
  | .write pi _ _ _ => pi
  | .wait pi _ _ => pi
  | .read pi _ _ _ _ => pi

/-- A pipe that `sys_pipe` made: its page, the file of each end, the write end at
`true`, and whether that file has been in use ever since. It is `whole` if
`sys_pipe` returned it, and else was stopped after the first file. -/
structure Made where
  page : Nat
  file : Bool → Nat
  held : Bool → Bool
  whole : Bool

/-- An end has been in use ever since. -/
def Made.Alive (m : Made) : Prop := ∃ w, m.held w = true

/-- The ends whose file is in no use now are shut for ever. -/
def Made.see (m : Made) (k : Kernel) : Made :=
  { m with held := fun w => m.held w && decide (0 < (k.filepool (m.file w)).ref) }

/-- The pipe that `sys_pipe` made: its files were the first two free ones. -/
def newPipe (k k' : Kernel) : Made where
  page := (k'.filepool ((freeFile k.filepool).getD 0)).pipe
  file w := ((if w then secondFile k.filepool else freeFile k.filepool)).getD 0
  held _ := true
  whole := true

/-- The pipe that was left with its first file, the only free one. -/
def halfPipe (k k' : Kernel) : Made where
  page := (k'.filepool ((freeFile k.filepool).getD 0)).pipe
  file _ := (freeFile k.filepool).getD 0
  held w := !w
  whole := false

/-- What `sys_pipe` made when it was stopped at a null file. -/
def trapMakes (k k' : Kernel) : List Made :=
  if (freeFile k.filepool).isSome then [halfPipe k k'] else []

/-- The pipes that a call made. -/
def EndCall.makes (call : EndCall) (r : Int) (k k' : Kernel) : List Made :=
  match call with
  | .pipe _ => if r = 0 then [newPipe k k'] else []
  | _ => []

/-- The kernel, the processes that are in a loop of pipe.c, and the pipes that
were made. -/
structure EndSys where
  k : Kernel
  calls : Nat → Option PipeCall
  made : List Made

/-- The system after a step to `k'` that made the pipes `new`. -/
def EndSys.move (s : EndSys) (k' : Kernel) (calls : Nat → Option PipeCall) (new : List Made) :
    EndSys :=
  ⟨k', calls, new ++ s.made.map (·.see k')⟩

/-- A step of the machine: a call of a live process that is in no loop of
pipe.c, the start of such a loop or a turn of it. A process also writes to its
memory, its registers are saved, and it is chosen to run or not. A null file ends
the process in `sys_pipe`, as `exit` does; no other call has changed anything
before it meets one. A close or read of what lies outside of the descriptors may
do anything; `ok` says for which numbers they are made. -/
inductive EndStep (lk : Link) (ok : Int → Prop) : EndSys → EndSys → Prop
  | call {s : EndSys} {k' : Kernel} (p : Nat) (call : EndCall) (r : Int) (hp : p < NPROC)
      (hlive : ¬ Dead (s.k.pool p)) (hfree : s.calls p = none)
      (hrun : call.run lk (s.k.switch p) = .ok (r, k')) :
      EndStep lk ok s (s.move k' s.calls (call.makes r s.k k'))
  | enterRead {s : EndSys} {k₁ k' : Kernel} (p : Nat) (str : Bytes) (fd : Int)
      (va len pi addr : Nat) (n : Int)
      (c : PipeCall) (hp : p < NPROC) (hlive : ¬ Dead (s.k.pool p)) (hfree : s.calls p = none)
      (hcall : sys_read str fd va len (s.k.switch p) = .ok (.piperead pi addr n, k₁))
      (hrun : piperead pi addr n k₁ = .ok (c, k')) :
      EndStep lk ok s (s.move k' (Function.update s.calls p (some c)) [])
  | enterWrite {s : EndSys} {k₁ k' : Kernel} (p : Nat) (fd : Int) (va len pi addr : Nat) (n : Int)
      (c : PipeCall) (hp : p < NPROC) (hlive : ¬ Dead (s.k.pool p)) (hfree : s.calls p = none)
      (hcall : sys_write fd va len (s.k.switch p) = .ok (.pipewrite pi addr n, k₁))
      (hrun : pipewrite pi addr n k₁ = .ok (c, k')) :
      EndStep lk ok s (s.move k' (Function.update s.calls p (some c)) [])
  | turn {s : EndSys} {k' : Kernel} (p : Nat) (c : PipeCall) (t : Turn) (hc : s.calls p = some c)
      (hrun : c.turn (s.k.switch p) = .ok (t, k')) :
      EndStep lk ok s (s.move k' (Function.update s.calls p t.call) [])
  | store {s : EndSys} {mm : Mm} (p va : Nat) (bytes : List Byte) (r : Int) (hp : p < NPROC)
      (hlive : ¬ Dead (s.k.pool p)) (hrun : copyout (s.k.pool p).pagetable va bytes s.k.mm =
      .ok (r, mm)) :
      EndStep lk ok s (s.move { s.k with mm := mm } s.calls [])
  | save {s : EndSys} {mem : Bytes} (p : Nat) (hp : p < NPROC) (hlive : ¬ Dead (s.k.pool p))
      (hsame : SameOn PGSIZE (· ≠ (s.k.pool p).trapframe) s.k.mm.mem mem) :
      EndStep lk ok s (s.move { s.k with mm := { s.k.mm with mem := mem } } s.calls [])
  | choose {s : EndSys} (p : Nat) (st : procstate) (hlive : ¬ Dead (s.k.pool p))
      (hst : ¬ Dead { s.k.pool p with state := st }) :
      EndStep lk ok s
      (s.move { s.k with pool := Function.update s.k.pool p { s.k.pool p with state := st } }
      s.calls [])
  | trap {s : EndSys} {k' : Kernel} (p : Nat) (hp : p < NPROC) (hlive : ¬ Dead (s.k.pool p))
      (hfree : s.calls p = none)
      (hrun : pipeTrap (s.k.switch p) = .ok ((), k')) : EndStep lk ok s
      (s.move k' s.calls (trapMakes s.k k'))
  | outside {s : EndSys} (k' : Kernel) (calls : Nat → Option PipeCall) (fd : Int) (hok : ok fd)
      (hout : ¬ IsFd fd) :
      EndStep lk ok s (s.move k' calls [])

/-- The start: each page has one use, no file is a pipe, no file has more
descriptors than references, and no process is in a loop of pipe.c. -/
structure EndStart (lk : Link) (s : EndSys) : Prop where
  pages : ∃ l, PagesOk lk s.k (fun _ => False) l
  files : ∀ f, (s.k.filepool f).type ≠ .FD_PIPE
  extra : ∀ f, 0 ≤ surplus s.k f
  cleared : Cleared s.k
  calls : ∀ p, s.calls p = none
  made : s.made = []

/-- Process `p` is in a call on a pipe that one of its descriptors points to. -/
structure Holds (k : Kernel) (p : Nat) (c : PipeCall) : Prop where
  slot : p < NPROC
  live : ¬ Dead (k.pool p)
  file : ∃ fd < FD_MAX, ∃ w f, (k.pool p).files fd = some f ∧ IsEnd k c.page w f

/-- The invariant: the ends of pipes are those of the pipes that were made and
are not shut. The pages `T` are of no whole pipe. -/
structure EndsOk (lk : Link) (T : Nat → Prop) (s : EndSys) : Prop where
  pages : ∃ l, PagesOk lk s.k (PipePage s.k) l
  ends : Ends T s.k
  whole : ∀ m ∈ s.made, m.whole = true → m.Alive → ¬ T m.page
  extra : ∀ f, 0 ≤ surplus s.k f
  cleared : Cleared s.k
  held : ∀ m ∈ s.made, ∀ w, m.held w = true → IsEnd s.k m.page w (m.file w)
  made : ∀ pi w f, IsEnd s.k pi w f → ∃ m ∈ s.made, m.page = pi ∧ m.held w = true ∧ m.file w = f
  one : ∀ m ∈ s.made, ∀ m' ∈ s.made, m.Alive → m'.Alive → m.page = m'.page → m = m'
  blocked : ∀ p c, s.calls p = some c → Holds s.k p c

variable {lk : Link} {E : Stop → Prop} {k k' : Kernel} {s s' : EndSys} {l : List Nat} {m : Made}
  {new : List Made}
variable {T T' : Nat → Prop} {calls : Nat → Option PipeCall} {p f fd pi : Nat} {w : Bool}
  {c : PipeCall}

/-! ## Descriptors and pages -/

/-- A file with a descriptor has a reference. -/
theorem ref_pos_of_descriptor (hextra : ∀ f, 0 ≤ surplus k f) (hp : p < NPROC) (hfd : fd < FD_MAX)
    (hf : (k.pool p).files fd = some f) : 0 < (k.filepool f).ref := by
  have hne : descriptors k.pool f ≠ 0 := fun hc => descriptors_eq_zero.mp hc p hp fd hfd hf
  have hnonneg : 0 ≤ descriptors k.pool f := by
    apply Finset.sum_nonneg
    intro i _
    apply Finset.sum_nonneg
    intro j _
    split
    · decide
    · decide
  have := hextra f
  unfold surplus at this
  omega

/-- The page of an end is not free. -/
theorem IsEnd.not_free (h : PagesOk lk k (PipePage k) l) (hf : IsEnd k pi w f) :
    ¬ IsFree lk k.mm pi := by
  rw [isFree_iff h.spaces.free]
  exact (h.spaces.kept pi (Or.inl ⟨w, f, hf⟩)).2.1

/-- A descriptor of another process keeps its end. -/
theorem Holds.keep (h : Holds k p c) (hpool : k'.pool p = k.pool p)
    (hstay : ∀ pi w f, IsEnd k pi w f → IsEnd k' pi w f ∨ (k'.filepool f).ref ≤ 0)
    (hextra : ∀ f, 0 ≤ surplus k' f) : Holds k' p c := by
  obtain ⟨fd, hfd, w, f, hf, hend⟩ := h.file
  rw [← hpool] at hf
  refine ⟨h.slot, by rw [hpool]; exact h.live, fd, hfd, w, f, hf, (hstay _ _ _
    hend).resolve_right ?_⟩
  have := ref_pos_of_descriptor hextra h.slot hfd hf
  omega

theorem Holds.same {c' : PipeCall} (h : Holds k p c) (hfiles : k'.filepool = k.filepool)
    (hfds : (k'.pool p).files = (k.pool p).files) (hdead : Dead (k'.pool p) → Dead (k.pool p))
    (hpage : c'.page = c.page) : Holds k' p c' := by
  obtain ⟨fd, hfd, w, f, hf, hend⟩ := h.file
  refine ⟨h.slot, fun hc => h.live (hdead hc), fd, hfd, w, f, by rw [hfds, hf], ?_⟩
  rw [hpage]
  exact hend.congr (by rw [hfiles])

/-! ## A step -/

/-- What a step has to keep. The pages of pipes stay so, or go to the free
list. -/
structure EndMove (lk : Link) (T T' : Nat → Prop) (k k' : Kernel) (new : List Made) : Prop where
  pages : ∃ l, PagesOk lk k' (PipePage k') l ∧ ∀ pi, PipePage k pi → ¬ T pi →
    PipePage k' pi ∨ pi ∈ l
  ends : Ends T' k'
  half : ∀ a, T' a → T a ∨ ∃ m ∈ new, m.whole = false ∧ m.page = a
  whole : ∀ m ∈ new, m.whole = true → ¬ T' m.page
  extra : ∀ f, 0 ≤ surplus k' f
  cleared : Cleared k'
  stay : ∀ pi w f, IsEnd k pi w f → IsEnd k' pi w f ∨ (k'.filepool f).ref ≤ 0
  back : ∀ pi w f, IsEnd k' pi w f → IsEnd k pi w f ∨ ∃ m ∈ new, m.page = pi ∧ m.held w = true ∧
    m.file w = f
  fresh : ∀ m ∈ new, ¬ PipePage k m.page ∧ ∀ w, m.held w = true → IsEnd k' m.page w (m.file w)
  one : ∀ m ∈ new, ∀ m' ∈ new, m = m'

/-- What a pipe that was made looks like after a step. -/
theorem Made.see_held : (m.see k').held w = true ↔ m.held w = true ∧
    0 < (k'.filepool (m.file w)).ref := by
  unfold Made.see
  rw [Bool.and_eq_true, decide_eq_true_iff]

theorem Made.alive_of_see (h : (m.see k').Alive) : m.Alive := by
  obtain ⟨w, hw⟩ := h
  exact ⟨w, (Made.see_held.mp hw).1⟩

theorem EndsOk.pipePage (h : EndsOk lk T s) (hm : m ∈ s.made) (halive : m.Alive) :
    PipePage s.k m.page := by
  obtain ⟨w, hw⟩ := halive
  exact ⟨w, m.file w, h.held m hm w hw⟩

theorem EndsOk.move (h : EndsOk lk T s) (hmove : EndMove lk T T' s.k k' new)
    (hblocked : ∀ p c, calls p = some c → Holds k' p c) : EndsOk lk T' (s.move k' calls new) := by
  obtain ⟨l, hpages, _⟩ := hmove.pages
  -- A new pipe is on a page that no pipe had.
  have hapart : ∀ m ∈ new, ∀ m' ∈ s.made, m'.Alive → m.page ≠ m'.page := by
    intro m hm m' hm' halive hc
    apply (hmove.fresh m hm).1
    rw [hc]
    exact h.pipePage hm' halive
  refine ⟨⟨l, hpages⟩, hmove.ends, fun m hm hw halive hT => ?_, hmove.extra, hmove.cleared,
    fun m hm w hw => ?_, fun pi w f hf => ?_, fun m hm m' hm' halive halive' hpage => ?_, hblocked⟩
  · rcases List.mem_append.mp hm with hm | hm
    · exact hmove.whole m hm hw hT
    · obtain ⟨m₀, hm₀, rfl⟩ := List.mem_map.mp hm
      rcases hmove.half _ hT with hold | ⟨m₁, hm₁, _, hpage⟩
      · exact h.whole m₀ hm₀ hw (Made.alive_of_see halive) hold
      · exact hapart m₁ hm₁ m₀ hm₀ (Made.alive_of_see halive) hpage
  · rcases List.mem_append.mp hm with hm | hm
    · exact (hmove.fresh m hm).2 w hw
    · obtain ⟨m₀, hm₀, rfl⟩ := List.mem_map.mp hm
      obtain ⟨hw, hpos⟩ := Made.see_held.mp hw
      refine (hmove.stay _ _ _ (h.held m₀ hm₀ w hw)).resolve_right ?_
      omega
  · rcases hmove.back pi w f hf with hold | ⟨m, hm, hres⟩
    · obtain ⟨m, hm, hpi, hw, rfl⟩ := h.made pi w f hold
      exact ⟨m.see k', List.mem_append_right _ (List.mem_map_of_mem hm), hpi,
        Made.see_held.mpr ⟨hw, hmove.ends.pos hf⟩, rfl⟩
    · exact ⟨m, List.mem_append_left _ hm, hres⟩
  · rcases List.mem_append.mp hm with hm | hm
    · rcases List.mem_append.mp hm' with hm' | hm'
      · exact hmove.one m hm m' hm'
      · obtain ⟨m₁, hm₁, rfl⟩ := List.mem_map.mp hm'
        exact absurd hpage (hapart m hm m₁ hm₁ (Made.alive_of_see halive'))
    · obtain ⟨m₀, hm₀, rfl⟩ := List.mem_map.mp hm
      rcases List.mem_append.mp hm' with hm' | hm'
      · exact absurd hpage.symm (hapart m' hm' m₀ hm₀ (Made.alive_of_see halive))
      · obtain ⟨m₁, hm₁, rfl⟩ := List.mem_map.mp hm'
        rw [h.one m₀ hm₀ m₁ hm₁ (Made.alive_of_see halive) (Made.alive_of_see halive') hpage]

/-- The page of a pipe is given back exactly when no end is left. -/
theorem EndsOk.given_back (h : EndsOk lk T s) (hmove : EndMove lk T T' s.k k' new) (hm : m ∈ s.made)
    (hwhole : m.whole = true) (halive : m.Alive) : IsFree lk k'.mm m.page ↔ ¬ (m.see k').Alive := by
  obtain ⟨l, hpages, hback⟩ := hmove.pages
  constructor
  · rintro hfree ⟨w, hw⟩
    obtain ⟨hw, hpos⟩ := Made.see_held.mp hw
    have hend := (hmove.stay _ _ _ (h.held m hm w hw)).resolve_right (by omega)
    exact hend.not_free hpages hfree
  · intro hshut
    rcases hback _ (h.pipePage hm halive) (h.whole m hm hwhole halive) with ⟨w, f, hf⟩ | hl
    · rcases hmove.back _ w f hf with hold | ⟨m', hm', hpage, _⟩
      · obtain ⟨m', hm', hpage, hw, rfl⟩ := h.made _ w f hold
        obtain rfl := h.one m' hm' m hm ⟨w, hw⟩ halive hpage
        exact absurd ⟨w, Made.see_held.mpr ⟨hw, hmove.ends.pos hf⟩⟩ hshut
      · apply absurd (h.pipePage hm halive)
        rw [← hpage]
        exact (hmove.fresh m' hm').1
    · exact (isFree_iff hpages.spaces.free).mpr hl

/-! ## The calls -/

/-- No file changes. -/
theorem EndsOk.quiet (h : EndsOk lk T s) (hpages : ∃ l, PagesOk lk k' (PipePage s.k) l)
    (hfiles : k'.filepool = s.k.filepool)
    (hopen : ∀ pi w, (k'.pipes pi).isOpen w = (s.k.pipes pi).isOpen w)
    (hfds : ∀ i, (k'.pool i).files = (s.k.pool i).files)
    (hdead : ∀ i, Dead (k'.pool i) → Dead (s.k.pool i)) :
    EndMove lk T T s.k k' [] := by
  have hends : ∀ pi w f, IsEnd k' pi w f ↔ IsEnd s.k pi w f := by
    intro pi w f
    exact isEnd_same fun g => by rw [hfiles]; exact ⟨rfl, rfl, rfl⟩
  obtain ⟨l, hp⟩ := hpages
  refine ⟨⟨l, ?_, ?_⟩, h.ends.same hends (fun f => ?_) fun pi w _ => hopen pi w,
    fun _ hT => Or.inl hT,
    fun m hm => absurd hm List.not_mem_nil, fun f => ?_, fun i hi fd hfd => ?_,
    fun pi w f hf => Or.inl ((hends ..).mpr hf), fun pi w f hf => Or.inl ((hends ..).mp hf),
    fun m hm => absurd hm List.not_mem_nil, fun m hm => absurd hm List.not_mem_nil⟩
  · refine hp.same rfl ?_ (fun _ => rfl) (fun _ => rfl) (fun _ => rfl) fun _ => Iff.rfl
    rintro a ⟨w, f, hf⟩
    exact ⟨w, f, (hends ..).mp hf⟩
  · rintro pi ⟨w, f, hf⟩ _
    exact Or.inl ⟨w, f, (hends ..).mpr hf⟩
  · rw [hfiles]
    exact h.ends.free f
  · unfold surplus
    rw [hfiles, descriptors_same hfds]
    exact h.extra f
  · rw [hfds]
    exact h.cleared i (hdead i hi) fd hfd

/-- The state at the start of a call of a live process. -/
theorem EndsOk.enter (h : EndsOk lk T s) (hp : p < NPROC) (hlive : ¬ Dead (s.k.pool p)) :
    ∃ l, PipesGood lk T nobody (surplus s.k) (s.k.switch p) l := by
  obtain ⟨l, hpages⟩ := h.pages
  refine ⟨l, ⟨?_, ?_, ⟨fun _ => rfl, fun i hi => Or.inr (h.cleared i hi), hp, hlive⟩⟩⟩
  · refine hpages.same rfl ?_ (fun _ => rfl) (fun _ => rfl) (fun _ => rfl) fun _ => Iff.rfl
    rintro a ⟨w, f, hf⟩
    exact ⟨w, f, hf.congr rfl⟩
  · exact h.ends.same (fun _ _ _ => isEnd_same fun _ => ⟨rfl, rfl, rfl⟩) h.ends.free fun _ _ _ =>
      rfl

theorem PipesGood.cleared {d : Nat → Int} (h : PipesGood lk T nobody d k l) : Cleared k :=
  fun i hi => (h.tally.cleared i hi).resolve_left fun hc => hc

theorem PipesGood.extra {X : Nat → Prop} {d : Nat → Int} (h : PipesGood lk T X d k l) (hd : 0 ≤ d)
    (f : Nat) :
    0 ≤ surplus k f := by
  rw [h.tally.surplus f]
  exact hd f

/-- A call that shuts ends only. -/
theorem EndMove.shutting {l' : List Nat} {X : Nat → Prop} {d : Nat → Int}
    (h : PipesGood lk T X d k' l') (hd : 0 ≤ d) (hcleared : Cleared k') (hshut : OnlyShuts k k')
    (hback : GivesBack T k k' l l') : EndMove lk T T k k' [] :=
  ⟨⟨l', h.pages, hback.page⟩, h.ends, fun _ hT => Or.inl hT, fun _ hm => absurd hm List.not_mem_nil,
    h.extra hd, hcleared, hshut.stay, fun pi w f hf => Or.inl (hshut.back pi w f hf),
    fun _ hm => absurd hm List.not_mem_nil, fun _ hm => absurd hm List.not_mem_nil⟩

theorem OnlyShuts.switch {k₁ : Kernel} (h : OnlyShuts (k.switch p) k₁) : OnlyShuts k k₁ := by
  have hstart : OnlyShuts k (k.switch p) := OnlyShuts.of_files rfl
  exact hstart.trans h

theorem GivesBack.switch {k₁ : Kernel} {l' : List Nat} (h : GivesBack T (k.switch p) k₁ l l') :
    GivesBack T k k₁ l l' := by
  have hstart : GivesBack T k (k.switch p) l l := GivesBack.of_files rfl
  exact hstart.trans h

theorem EndsOk.close_moves (h : EndsOk lk T s) (hp : p < NPROC) (hlive : ¬ Dead (s.k.pool p))
    (fd : Int) :
    Runs (fun _ => True) (sys_close lk fd) (s.k.switch p) (fun _ k' => EndMove lk T T s.k k' [] ∧
      Others (s.k.switch p) k') := by
  obtain ⟨l, hgood⟩ := h.enter hp hlive
  apply (hgood.sys_close_runs fd).imp
  rintro _ k' ⟨l', h', hothers, _, hshut, hback⟩
  exact ⟨.shutting h' h.extra h'.cleared hshut.switch hback.switch, hothers⟩

theorem EndsOk.exit_moves (h : EndsOk lk T s) (hp : p < NPROC) (hlive : ¬ Dead (s.k.pool p))
    (code : Int) :
    Runs (fun _ => True) (sys_exit lk code) (s.k.switch p) (fun _ k' =>
      EndMove lk T T s.k k' [] ∧ Others (s.k.switch p) k') := by
  obtain ⟨l, hgood⟩ := h.enter hp hlive
  unfold sys_exit
  apply (hgood.exit_runs code).bind
  rintro _ k' ⟨l', h', _, hothers, hshut, hback, hnone⟩
  rw [Runs.pure_iff]
  refine ⟨.shutting h' h.extra (fun i hi => ?_) hshut.switch hback.switch, hothers⟩
  rcases h'.tally.cleared i hi with hc | hc
  · rw [hc]
    exact hnone
  · exact hc

theorem EndsOk.fork_moves (h : EndsOk lk T s) (hp : p < NPROC) (hlive : ¬ Dead (s.k.pool p)) :
    Runs (fun _ => True) (sys_clone lk) (s.k.switch p) (fun _ k' =>
      EndMove lk T T s.k k' [] ∧ Others (s.k.switch p) k') := by
  obtain ⟨l, hgood⟩ := h.enter hp hlive
  unfold sys_clone
  apply ((hgood.pages.fork_runs hp hlive).and (hgood.tally.fork_grows h.extra)).mono
    (fun _ _ => trivial)
  rintro _ k' ⟨⟨⟨l', hp'⟩, hothers, hpipes, _⟩, d', hd', htally, hgrown⟩
  have hends : ∀ pi w f, IsEnd k' pi w f ↔ IsEnd s.k pi w f := by
    intro pi w f
    exact isEnd_same fun g => ⟨(hgrown g).1, (hgrown g).2.1, (hgrown g).2.2.1⟩
  have hfree : ∀ f, (k'.filepool f).ref ≤ 0 → (k'.filepool f).type ≠ .FD_PIPE := by
    intro f hf
    rw [(hgrown f).1]
    exact h.ends.free f ((hgrown f).2.2.2.trans hf)
  have hends' : Ends T k' := h.ends.same hends hfree fun _ _ _ => by rw [hpipes]; rfl
  have hpage : ∀ a, PipePage k' a → PipePage (s.k.switch p) a := by
    rintro a ⟨w, f, hf⟩
    exact ⟨w, f, ((hends ..).mp hf).congr rfl⟩
  have hgood' : PipesGood lk T nobody d' k' l' :=
    ⟨hp'.same rfl hpage (fun _ => rfl) (fun _ => rfl) (fun _ => rfl) fun _ => Iff.rfl,
      hends', htally⟩
  refine ⟨⟨⟨l', hgood'.pages, ?_⟩, hends', fun _ hT => Or.inl hT,
    fun m hm => absurd hm List.not_mem_nil,
    hgood'.extra hd', hgood'.cleared, fun pi w f hf => Or.inl ((hends ..).mpr hf),
    fun pi w f hf => Or.inl ((hends ..).mp hf),
    fun m hm => absurd hm List.not_mem_nil, fun m hm => absurd hm List.not_mem_nil⟩, hothers⟩
  rintro pi ⟨w, f, hf⟩ _
  exact Or.inl ⟨w, f, (hends ..).mpr hf⟩

theorem EndsOk.pipe_moves (h : EndsOk lk T s) (hp : p < NPROC) (hlive : ¬ Dead (s.k.pool p))
    (fdarray : Nat) :
    Runs (fun _ => True) (sys_pipe lk fdarray) (s.k.switch p) (fun r k' =>
      (∃ T', EndMove lk T T' s.k k' ((EndCall.pipe fdarray).makes r s.k k')) ∧
        Others (s.k.switch p) k') := by
  obtain ⟨l, hgood⟩ := h.enter hp hlive
  apply (hgood.sys_pipe_runs h.extra fdarray).imp
  rintro r k' ⟨T', l', d', hd', hT', h', hothers, _, hcase⟩
  refine ⟨⟨T', ?_⟩, hothers⟩
  unfold EndCall.makes
  dsimp only
  rcases hcase with ⟨rfl, hends⟩ | ⟨rfl, f0, f1, pi, hf0, hf1, hwhole, hfresh, hends⟩
  · rw [if_neg (by decide)]
    refine ⟨⟨l', h'.pages, ?_⟩, h'.ends, fun a ha => Or.inl (hT' a ha),
      fun m hm => absurd hm List.not_mem_nil,
      h'.extra hd', h'.cleared, fun pi w f hf => Or.inl ((hends ..).mpr (hf.congr rfl)),
      fun pi w f hf => Or.inl (((hends ..).mp hf).congr rfl),
      fun m hm => absurd hm List.not_mem_nil, fun m hm => absurd hm List.not_mem_nil⟩
    rintro pi ⟨w, f, hf⟩ _
    exact Or.inl ⟨w, f, (hends ..).mpr (hf.congr rfl)⟩
  · rw [if_pos rfl]
    have hnew : ∀ w, IsEnd k' pi w ((newPipe s.k k').file w) := by
      intro w
      refine (hends ..).mpr (Or.inr ⟨rfl, ?_⟩)
      unfold newPipe
      change freeFile s.k.filepool = some f0 at hf0
      change secondFile s.k.filepool = some f1 at hf1
      cases w with
      | true =>
        dsimp only
        rw [if_pos rfl, if_pos rfl, hf1]
        rfl
      | false =>
        dsimp only
        rw [if_neg (by decide), if_neg (by decide), hf0]
        rfl
    have hpage : (newPipe s.k k').page = pi := (hnew false).page
    have hone : ∀ m ∈ [newPipe s.k k'], m = newPipe s.k k' := fun m hm => List.mem_singleton.mp hm
    refine ⟨⟨l', h'.pages, ?_⟩, h'.ends, fun a ha => Or.inl (hT' a ha),
      fun m hm _ => by rwa [hone m hm, hpage], h'.extra hd', h'.cleared,
      fun pi w f hf => Or.inl ((hends ..).mpr (Or.inl (hf.congr rfl))), fun pi' w f hf => ?_,
      fun m hm => ?_, fun m hm m' hm' => (hone m hm).trans (hone m' hm').symm⟩
    · rintro pi ⟨w, f, hf⟩ _
      exact Or.inl ⟨w, f, (hends ..).mpr (Or.inl (hf.congr rfl))⟩
    · rcases (hends ..).mp hf with hold | ⟨rfl, hw⟩
      · exact Or.inl (hold.congr rfl)
      · exact Or.inr ⟨newPipe s.k k', List.mem_singleton_self _, hpage, rfl,
          h'.ends.one _ _ _ _ (hnew w) hf⟩
    · rw [hone m hm, hpage]
      refine ⟨?_, fun w _ => hnew w⟩
      rintro ⟨w, f, hf⟩
      exact hfresh ⟨w, f, hf.congr rfl⟩

/-- The first steps of `sys_pipe`, up to a null file. -/
theorem EndsOk.trap_moves (h : EndsOk lk T s) (hp : p < NPROC) (hlive : ¬ Dead (s.k.pool p)) :
    Runs (fun _ => True) pipeTrap (s.k.switch p) (fun _ k' =>
      (∃ T', EndMove lk T T' s.k k' (trapMakes s.k k')) ∧ Others (s.k.switch p) k') := by
  obtain ⟨l, hgood⟩ := h.enter hp hlive
  apply (hgood.pipeTrap_runs h.extra).imp
  rintro _ k' ⟨T', l', d', hd', h', hothers, _, hcase⟩
  refine ⟨⟨T', ?_⟩, hothers⟩
  unfold trapMakes
  rcases hcase with ⟨hf0, rfl, hends⟩ | ⟨f0, pi, hf0, hT', hfresh, hends⟩
  · change freeFile s.k.filepool = none at hf0
    rw [hf0, if_neg (by decide)]
    refine ⟨⟨l', h'.pages, ?_⟩, h'.ends, fun a ha => Or.inl ha,
      fun m hm => absurd hm List.not_mem_nil, h'.extra hd',
      h'.cleared, fun pi w f hf => Or.inl ((hends ..).mpr (hf.congr rfl)),
      fun pi w f hf => Or.inl (((hends ..).mp hf).congr rfl),
      fun m hm => absurd hm List.not_mem_nil, fun m hm => absurd hm List.not_mem_nil⟩
    rintro pi ⟨w, f, hf⟩ _
    exact Or.inl ⟨w, f, (hends ..).mpr (hf.congr rfl)⟩
  · change freeFile s.k.filepool = some f0 at hf0
    have hnew : IsEnd k' pi false f0 := (hends ..).mpr (Or.inr ⟨rfl, rfl, rfl⟩)
    have hfile : ∀ w, (halfPipe s.k k').file w = f0 := by
      intro w
      unfold halfPipe
      rw [hf0]
      rfl
    have hpage : (halfPipe s.k k').page = pi := by
      unfold halfPipe
      rw [hf0]
      exact hnew.page
    rw [hf0, if_pos (by rfl)]
    have hone : ∀ m ∈ [halfPipe s.k k'], m = halfPipe s.k k' := fun m hm => List.mem_singleton.mp hm
    refine ⟨⟨l', h'.pages, ?_⟩, h'.ends, fun a ha => ?_, fun m hm hw => ?_, h'.extra hd',
      h'.cleared,
      fun pi w f hf => Or.inl ((hends ..).mpr (Or.inl (hf.congr rfl))), fun pi' w f hf => ?_,
      fun m hm => ?_, fun m hm m' hm' => (hone m hm).trans (hone m' hm').symm⟩
    · rintro pi ⟨w, f, hf⟩ _
      exact Or.inl ⟨w, f, (hends ..).mpr (Or.inl (hf.congr rfl))⟩
    · rcases (hT' a).mp ha with hold | rfl
      · exact Or.inl hold
      · exact Or.inr ⟨_, List.mem_singleton_self _, rfl, hpage⟩
    · rw [hone m hm] at hw
      cases hw
    · rcases (hends ..).mp hf with hold | ⟨rfl, rfl, rfl⟩
      · exact Or.inl (hold.congr rfl)
      · exact Or.inr ⟨halfPipe s.k k', List.mem_singleton_self _, hpage, rfl, hfile false⟩
    · rw [hone m hm, hpage]
      refine ⟨?_, fun w hw => ?_⟩
      · rintro ⟨w, f, hf⟩
        exact hfresh ⟨w, f, hf.congr rfl⟩
      · obtain rfl : w = false := by
          cases w with
          | false => rfl
          | true => cases hw
        rwa [hfile]

/-- A call of a live process. The processes in the loops of pipe.c keep their
descriptors. -/
theorem EndsOk.call_moves (h : EndsOk lk T s) (call : EndCall) (hp : p < NPROC)
    (hlive : ¬ Dead (s.k.pool p)) :
    Runs (fun _ => True) (call.run lk) (s.k.switch p) (fun r k' =>
      (∃ T', EndMove lk T T' s.k k' (call.makes r s.k k')) ∧ Others (s.k.switch p) k') := by
  cases call with
  | pipe fdarray => exact h.pipe_moves hp hlive fdarray
  | fork => exact (h.fork_moves hp hlive).imp fun _ _ ⟨hmove, hothers⟩ => ⟨⟨T, hmove⟩, hothers⟩
  | close fd => exact (h.close_moves hp hlive fd).imp fun _ _ ⟨hmove,
    hothers⟩ => ⟨⟨T, hmove⟩, hothers⟩
  | exit code => exact (h.exit_moves hp hlive code).imp fun _ _ ⟨hmove,
    hothers⟩ => ⟨⟨T, hmove⟩, hothers⟩

/-! ## The loops of pipe.c -/

/-- No file changes, and no process ends. The loop of process `p` is still on
the same pipe. -/
structure Idle (lk : Link) (k k' : Kernel) : Prop where
  pages : ∃ l, PagesOk lk k' (PipePage k) l
  files : k'.filepool = k.filepool
  opened : ∀ pi w, (k'.pipes pi).isOpen w = (k.pipes pi).isOpen w
  fds : ∀ i, (k'.pool i).files = (k.pool i).files
  dead : ∀ i, Dead (k'.pool i) → Dead (k.pool i)

/-- The processor was given to process `p`. -/
theorem EndsOk.idle_switch (h : EndsOk lk T s) (p : Nat) : Idle lk s.k (s.k.switch p) := by
  obtain ⟨l, hp⟩ := h.pages
  exact ⟨⟨l, hp.same rfl (fun _ ha => ha) (fun _ => rfl) (fun _ => rfl) (fun _ => rfl) fun _ =>
    Iff.rfl⟩, rfl, fun _ _ => rfl, fun _ => rfl, fun _ hd => hd⟩

namespace Idle

theorem setPipe {x : pipe} (h : Idle lk k k') (hx : ∀ w, x.isOpen w = (k'.pipes pi).isOpen w) :
    Idle lk k { k' with pipes := Function.update k'.pipes pi x } := by
  obtain ⟨l, hp⟩ := h.pages
  refine ⟨⟨l, hp.same rfl (fun _ ha => ha) (fun _ => rfl) (fun _ => rfl) (fun _ => rfl) fun _ =>
    Iff.rfl⟩, h.files, fun pi' w => ?_, h.fds, h.dead⟩
  dsimp only
  by_cases hpi : pi' = pi
  · rw [hpi, Function.update_self, hx, h.opened]
  · rw [Function.update_of_ne hpi, h.opened]

/-- The state of a live process. -/
theorem setState {st : procstate} {i : Nat} (h : Idle lk k k') (hlive : ¬ Dead (k'.pool i))
    (hst : ¬ Dead { k'.pool i with state := st }) :
    Idle lk k { k' with pool := Function.update k'.pool i { k'.pool i with state := st } } := by
  obtain ⟨l, hp⟩ := h.pages
  refine ⟨⟨l, hp.setProc rfl rfl rfl ⟨fun hc => absurd hc hst, fun hc => absurd hc hlive⟩⟩,
    h.files, h.opened, fun j => ?_, fun j hj => ?_⟩
  · dsimp only
    by_cases hji : j = i
    · rw [hji, Function.update_self, ← h.fds]
    · rw [Function.update_of_ne hji, h.fds]
  · dsimp only at hj
    by_cases hji : j = i
    · rw [hji, Function.update_self] at hj
      exact absurd hj hst
    · rw [Function.update_of_ne hji] at hj
      exact h.dead j hj

theorem setMm {mm : Mm} (h : Idle lk k k') (hp : PagesOk lk { k' with mm := mm } (PipePage k) l) :
    Idle lk k { k' with mm := mm } := ⟨⟨l, hp⟩, h.files, h.opened, h.fds, h.dead⟩

end Idle

theorem EndsOk.of_idle (h : EndsOk lk T s) (hidle : Idle lk s.k k') : EndMove lk T T s.k k' [] :=
  h.quiet hidle.pages hidle.files hidle.opened hidle.fds hidle.dead

theorem onMm_ok {α : Type} {g : Prog Mm α} {a : α} {mm : Mm} (h : g k.mm = .ok (a, mm)) :
    onMm g k = .ok (a, { k with mm := mm }) := by
  unfold onMm Prog.on
  rw [h]

/-- A turn of a loop leaves the files, and stays on its pipe. -/
theorem EndsOk.turn_idle (h : EndsOk lk T s) (hc : s.calls p = some c) :
    Runs (fun _ => True) c.turn (s.k.switch p) (fun t k' => Idle lk s.k k' ∧
      ∀ c', t.call = some c' → c'.page = c.page) := by
  have hlive := (h.blocked p c hc).live
  have hswitch := h.idle_switch p
  have hyield : Idle lk s.k (yielded (s.k.switch p)) := hswitch.setState hlive not_dead_runnable
  have hstay : ∀ {c' c₁ : PipeCall}, some c' = some c₁ → c'.page = c.page → c₁.page = c.page := by
    intro c' c₁ heq hpage
    rwa [← Option.some.inj heq]
  cases c with
  | write pi addr n w =>
    apply (pipewriteTurn_runs trivial n w).imp
    intro t k' ht
    cases ht with
    | closed _ => exact ⟨hswitch, fun c' hc' => by cases hc'⟩
    | full => exact ⟨hyield, fun c' hc' => hstay hc' rfl⟩
    | done _ => exact ⟨hswitch, fun c' hc' => by cases hc'⟩
    | copy _ bytes _ _ =>
      exact ⟨hswitch.setPipe fun w => by cases w <;> rfl, fun c' hc' => hstay hc' rfl⟩
  | wait pi addr n =>
    apply (pipewaitTurn_runs n).imp
    intro t k' ht
    cases ht with
    | empty => exact ⟨hyield, fun c' hc' => hstay hc' rfl⟩
    | closed _ _ => exact ⟨hswitch, fun c' hc' => by cases hc'⟩
    | copy => exact ⟨hswitch, fun c' hc' => hstay hc' rfl⟩
  | read pi addr n r size =>
    apply (pipereadTurn_runs trivial n r size).imp
    intro t k' ht
    cases ht with
    | done => exact ⟨hswitch, fun c' hc' => by cases hc'⟩
    | copy _ bytes m _ hout =>
      obtain ⟨l, hp⟩ := hswitch.pages
      have hcopy :=
        (hp.copyout_runs (E := fun _ => True) (h.blocked p _ hc).slot hlive (addr + r) bytes).of_ok
        (onMm_ok hout)
      exact ⟨(hswitch.setMm hcopy.1).setPipe
        fun w => by cases w <;> rfl, fun c' hc' => hstay hc' rfl⟩

/-- A descriptor of a pipe leads to the page of the pipe. -/
theorem sys_read_pipe (str : Bytes) (fd : Int) (va len : Nat) :
    Runs (fun _ => True) (sys_read str fd va len) k
    (fun r k' => ∀ pi addr n, r = .piperead pi addr n → k' = k ∧ ∃ fd < FD_MAX, ∃ w f,
      (k.pool k.current_proc).files fd = some f ∧ IsEnd k pi w f) := by
  unfold sys_read
  split
  · exact Runs.map_iff.mpr (Runs.of_forall fun _ _ _ pi addr n hc => by cases hc)
  · apply Runs.bind_iff.mpr
    apply runs_fileAt (fun _ => trivial)
    intro f h0 hmax hf
    rw [Runs.bind_iff, runs_getFile]
    cases htype : (k.filepool f).type with
    | FD_NONE => trivial
    | FD_INODE => exact Runs.map_iff.mpr (Runs.of_forall fun _ _ _ pi addr n hc => by cases hc)
    | FD_PIPE =>
      intro pi addr n hr
      cases hr
      exact ⟨rfl, fd.toNat, by omega, _, f, hf, htype, rfl, rfl⟩

theorem sys_write_pipe (fd : Int) (va len : Nat) : Runs (fun _ => True) (sys_write fd va len) k
    (fun r k' => ∀ pi addr n, r = .pipewrite pi addr n → k' = k ∧ ∃ fd < FD_MAX, ∃ w f,
      (k.pool k.current_proc).files fd = some f ∧ IsEnd k pi w f) := by
  unfold sys_write
  split
  · intro pi addr n hc
    cases hc
  · split
    · exact Runs.map_iff.mpr (Runs.of_forall fun _ _ _ pi addr n hc => by cases hc)
    · apply Runs.bind_iff.mpr
      apply runs_fileAt (fun _ => trivial)
      intro f h0 hmax hf
      rw [Runs.bind_iff, runs_getFile]
      cases htype : (k.filepool f).type with
      | FD_NONE => trivial
      | FD_INODE => exact Runs.map_iff.mpr (Runs.of_forall fun _ _ _ pi addr n hc => by cases hc)
      | FD_PIPE =>
        intro pi addr n hr
        cases hr
        exact ⟨rfl, fd.toNat, by omega, _, f, hf, htype, rfl, rfl⟩

theorem piperead_wait {addr : Nat} {n : Int} (h : piperead pi addr n k = .ok (c, k')) :
    k' = k ∧ c = .wait pi addr n.toNat := by
  unfold piperead at h
  split at h
  · cases h
  · cases h
    exact ⟨rfl, rfl⟩

theorem pipewrite_write {addr : Nat} {n : Int} (h : pipewrite pi addr n k = .ok (c, k')) :
    k' = k ∧ c = .write pi addr n.toNat 0 := by
  unfold pipewrite at h
  split at h
  · cases h
  · cases h
    exact ⟨rfl, rfl⟩

/-! ## Runs -/

/-- The other processes in loops, and process `p` in `call`. -/
theorem blocked_update {call : Option PipeCall} (hp : ∀ c, call = some c → Holds k' p c)
    (hq : ∀ q c, q ≠ p → s.calls q = some c → Holds k' q c) :
    ∀ q c, Function.update s.calls p call q = some c → Holds k' q c := by
  intro q c hc
  by_cases hqp : q = p
  · subst hqp
    rw [Function.update_self] at hc
    exact hp c hc
  · rw [Function.update_of_ne hqp] at hc
    exact hq q c hqp hc

theorem EndsOk.blocked_idle (h : EndsOk lk T s) (hidle : Idle lk s.k k') :
    ∀ q c, s.calls q = some c → Holds k' q c :=
  fun q c hc => (h.blocked q c hc).same hidle.files (hidle.fds q) (hidle.dead q) rfl

/-- The processes in loops keep their descriptors in a call of another one. -/
theorem EndsOk.blocked_call (h : EndsOk lk T s) (hfree : s.calls p = none)
    (hmove : EndMove lk T T' s.k k' new) (hothers : Others (s.k.switch p) k') : ∀ q c, s.calls q =
    some c → Holds k' q c := by
  intro q c hc
  have hhold := h.blocked q c hc
  have hqp : q ≠ p := by
    rintro rfl
    rw [hfree] at hc
    cases hc
  exact hhold.keep (hothers q hqp hhold.live) hmove.stay hmove.extra

/-- What a step of the machine keeps. -/
theorem EndsOk.step_moves (h : EndsOk lk T s) (hs : EndStep lk IsFd s s') :
    ∃ k' calls new, s' = s.move k' calls new ∧
    (∃ T', EndMove lk T T' s.k k' new) ∧ ∀ p c, calls p = some c → Holds k' p c := by
  cases hs with
  | call p call r hp hlive hfree hrun =>
    obtain ⟨⟨T', hmove⟩, hothers⟩ := (h.call_moves call hp hlive).of_ok hrun
    exact ⟨_, _, _, rfl, ⟨T', hmove⟩, h.blocked_call hfree hmove hothers⟩
  | enterRead p str fd va len pi addr n c hp hlive hfree hcall hrun =>
    obtain ⟨rfl, fd, hfd, w, f, hf, hend⟩ := (sys_read_pipe str fd va len).of_ok hcall pi addr n rfl
    obtain ⟨rfl, rfl⟩ := piperead_wait hrun
    have hidle := h.idle_switch p
    refine ⟨_, _, _, rfl, ⟨T, h.of_idle hidle⟩, blocked_update ?_ fun q c _ hc =>
      h.blocked_idle hidle q c hc⟩
    intro c hc
    obtain rfl := Option.some.inj hc
    exact ⟨hp, hlive, fd, hfd, w, f, hf, hend⟩
  | enterWrite p fd va len pi addr n c hp hlive hfree hcall hrun =>
    obtain ⟨rfl, fd, hfd, w, f, hf, hend⟩ := (sys_write_pipe fd va len).of_ok hcall pi addr n rfl
    obtain ⟨rfl, rfl⟩ := pipewrite_write hrun
    have hidle := h.idle_switch p
    refine ⟨_, _, _, rfl, ⟨T, h.of_idle hidle⟩, blocked_update ?_ fun q c _ hc =>
      h.blocked_idle hidle q c hc⟩
    intro c hc
    obtain rfl := Option.some.inj hc
    exact ⟨hp, hlive, fd, hfd, w, f, hf, hend⟩
  | turn p c t hc hrun =>
    obtain ⟨hidle, hpage⟩ := (h.turn_idle hc).of_ok hrun
    refine ⟨_, _, _, rfl, ⟨T, h.of_idle hidle⟩, blocked_update ?_ fun q c _ hc =>
      h.blocked_idle hidle q c hc⟩
    intro c' hc'
    exact (h.blocked p c hc).same hidle.files (hidle.fds p) (hidle.dead p) (hpage c' hc')
  | store p va bytes r hp hlive hrun =>
    obtain ⟨l, hpages⟩ := h.pages
    have hcopy := (hpages.copyout_runs (E := fun _ => True) hp hlive va bytes).of_ok (onMm_ok hrun)
    have hidle : Idle lk s.k _ := ⟨⟨l, hcopy.1⟩, rfl, fun _ _ => rfl, fun _ => rfl, fun _ hd => hd⟩
    exact ⟨_, _, _, rfl, ⟨T, h.of_idle hidle⟩, h.blocked_idle hidle⟩
  | save p hp hlive hsame =>
    obtain ⟨l, hpages⟩ := h.pages
    have hne := (hpages.root hp hlive).2
    have hidle : Idle lk s.k _ := ⟨⟨l, hpages.writeRegs hp hne hsame⟩, rfl, fun _ _ => rfl,
      fun _ => rfl, fun _ hd => hd⟩
    exact ⟨_, _, _, rfl, ⟨T, h.of_idle hidle⟩, h.blocked_idle hidle⟩
  | choose p st hlive hst =>
    have hstart : Idle lk s.k s.k := ⟨h.pages, rfl, fun _ _ => rfl, fun _ => rfl, fun _ hd => hd⟩
    have hidle := hstart.setState hlive hst
    exact ⟨_, _, _, rfl, ⟨T, h.of_idle hidle⟩, h.blocked_idle hidle⟩
  | trap p hp hlive hfree hrun =>
    obtain ⟨⟨T', hmove⟩, hothers⟩ := (h.trap_moves hp hlive).of_ok hrun
    exact ⟨_, _, _, rfl, ⟨T', hmove⟩, h.blocked_call hfree hmove hothers⟩
  | outside k' calls fd hok hout => exact absurd hok hout

theorem EndStart.ok (h : EndStart lk s) : EndsOk lk (fun _ => False) s := by
  obtain ⟨l, hpages⟩ := h.pages
  have hnone : ∀ pi w f, ¬ IsEnd s.k pi w f := fun pi w f hf => h.files f hf.type
  have hmade : ∀ m, m ∉ s.made := by
    intro m hm
    rw [h.made] at hm
    exact absurd hm List.not_mem_nil
  refine ⟨⟨l, ?_⟩, ⟨fun f _ => h.files f, fun pi w hpage => ?_,
    fun pi w f g hf => (hnone pi w f hf).elim,
    fun _ _ _ _ _ hT => hT.elim⟩, fun _ _ _ _ hT => hT, h.extra, h.cleared,
    fun m hm => absurd hm (hmade m), fun pi w f hf => (hnone pi w f hf).elim,
    fun m hm => absurd hm (hmade m), fun p c hc => ?_⟩
  · refine hpages.same rfl ?_ (fun _ => rfl) (fun _ => rfl) (fun _ => rfl) fun _ => Iff.rfl
    rintro a ⟨w, f, hf⟩
    exact hnone _ _ _ hf
  · obtain ⟨w', f, hf⟩ := hpage
    exact (hnone _ _ _ hf).elim
  · rw [h.calls p] at hc
    cases hc

/-- While an end of a pipe is in use, the pipe is open at exactly the ends whose
files have been in use ever since `sys_pipe` made them, and its page is not
free and of no other such pipe. -/
structure PipeLives (lk : Link) (s : EndSys) (m : Made) : Prop where
  opened : ∀ w, (s.k.pipes m.page).isOpen w = m.held w
  ends : ∀ w, m.held w = true → IsEnd s.k m.page w (m.file w) ∧ 0 < (s.k.filepool (m.file w)).ref
  used : ¬ IsFree lk s.k.mm m.page
  own : ∀ m' ∈ s.made, m'.Alive → m'.page = m.page → m' = m

theorem EndsOk.lives (h : EndsOk lk T s) (hm : m ∈ s.made) (hwhole : m.whole = true)
    (halive : m.Alive) :
    PipeLives lk s m := by
  refine ⟨fun w => ?_, fun w hw => ?_, ?_, fun m' hm' halive' hpage =>
    h.one m' hm' m hm halive' halive hpage⟩
  · rw [Bool.eq_iff_iff, h.ends.opened _ w (h.pipePage hm halive) (h.whole m hm hwhole halive)]
    constructor
    · rintro ⟨f, hf⟩
      obtain ⟨m', hm', hpage, hw, _⟩ := h.made _ w f hf
      obtain rfl := h.one m' hm' m hm ⟨w, hw⟩ halive hpage
      exact hw
    · intro hw
      exact ⟨_, h.held m hm w hw⟩
  · have hend := h.held m hm w hw
    exact ⟨hend, h.ends.pos hend⟩
  · obtain ⟨l, hpages⟩ := h.pages
    obtain ⟨w, f, hf⟩ := h.pipePage hm halive
    exact hf.not_free hpages

theorem EndsOk.end_run {s₀ : EndSys} (hstart : EndStart lk s₀)
    (hrun : Relation.ReflTransGen (EndStep lk IsFd) s₀ s) :
    ∃ T, EndsOk lk T s := by
  induction hrun with
  | refl => exact ⟨_, hstart.ok⟩
  | tail _ hstep ih =>
    obtain ⟨T, ih⟩ := ih
    obtain ⟨k', calls, new, rfl, ⟨T', hmove⟩, hblocked⟩ := ih.step_moves hstep
    exact ⟨T', ih.move hmove hblocked⟩

/-- Over every run whose closes and reads have a descriptor, a pipe is open at an
end exactly while the file of that end is in use. A step gives the page of a pipe
back exactly when it leaves no end. A file in use that is a pipe, and a process in
a loop of pipe.c, are on a page that is not free and belongs to a pipe with this
end. -/
theorem a_pipe_lives_as_long_as_an_end {s₀ : EndSys} (hstart : EndStart lk s₀)
    (hrun : Relation.ReflTransGen (EndStep lk IsFd) s₀ s) :
    (∀ m ∈ s.made, m.whole = true → m.Alive → PipeLives lk s m) ∧
    (∀ s', EndStep lk IsFd s s' → ∀ m ∈ s.made, m.whole = true → m.Alive →
      (IsFree lk s'.k.mm m.page ↔ ¬ (m.see s'.k).Alive)) ∧
    (∀ f, 0 < (s.k.filepool f).ref → (s.k.filepool f).type = .FD_PIPE →
      ¬ IsFree lk s.k.mm (s.k.filepool f).pipe ∧ ∃ m ∈ s.made, m.page = (s.k.filepool f).pipe ∧
        m.held (s.k.filepool f).writable = true ∧ m.file (s.k.filepool f).writable = f) ∧
    ∀ p c, s.calls p = some c → ¬ IsFree lk s.k.mm c.page ∧ ∃ m ∈ s.made, m.page = c.page ∧
    m.Alive := by
  obtain ⟨T, h⟩ := EndsOk.end_run hstart hrun
  obtain ⟨l, hpages⟩ := h.pages
  refine ⟨fun m hm hwhole halive => h.lives hm hwhole halive, fun s' hs m hm hwhole halive => ?_,
    fun f _ htype => ?_, fun p c hc => ?_⟩
  · obtain ⟨k', calls, new, rfl, ⟨T', hmove⟩, _⟩ := h.step_moves hs
    exact h.given_back hmove hm hwhole halive
  · have hend : IsEnd s.k (s.k.filepool f).pipe (s.k.filepool f).writable f := ⟨htype, rfl, rfl⟩
    exact ⟨hend.not_free hpages, h.made _ _ f hend⟩
  · obtain ⟨fd, _, w, f, _, hend⟩ := (h.blocked p c hc).file
    obtain ⟨m, hm, hpage, hw, _⟩ := h.made _ w f hend
    exact ⟨hend.not_free hpages, m, hm, hpage, w, hw⟩

/-! ## A run that makes a pipe -/

section OnePipe

theorem runningKernel_start {mm : Mm} {root sz : Nat} {l : List Nat}
    (h : PagesOk pageLink (runningKernel mm root sz) (fun _ => False) l) :
    EndStart pageLink ⟨runningKernel mm root sz, fun _ => none, []⟩ := by
  have hfiles : NoFiles (runningKernel mm root sz) := by
    refine ⟨fun _ => rfl, fun p fd => ?_⟩
    by_cases hp : p = 0
    · rw [hp]
      rfl
    · rw [runningKernel_slot hp]
      rfl
  obtain ⟨hcount, hcleared⟩ := hfiles.counted
  have htype : ∀ f, ((runningKernel mm root sz).filepool f).type = .FD_NONE := fun _ => rfl
  refine ⟨⟨l, h⟩, fun f hc => ?_, fun f => ?_, hcleared, fun _ => rfl, rfl⟩
  · rw [htype] at hc
    cases hc
  · unfold surplus
    rw [hcount f, sub_self]

/-- A process makes a pipe, and the numbers of its ends are in its memory. -/
structure OnePipe (k k' : Kernel) (m : Made) : Prop where
  start : EndStart pageLink ⟨k, fun _ => none, []⟩
  step : ∀ ok, EndStep pageLink ok ⟨k, fun _ => none, []⟩ ⟨k', fun _ => none, [m]⟩
  whole : m.whole = true
  held : ∀ w, m.held w = true
  empty : k'.pipes m.page = ⟨fun _ => 0, 0, 0, true, true⟩
  current : k'.current_proc = 0
  live : ¬ Dead (k'.pool 0)
  slot : (k'.pool 0).files 3 = some (m.file false)
  read : ∃ x, k'.filepool (m.file false) = x ∧ x.type = .FD_PIPE ∧ x.ref = 1 ∧ x.pipe = m.page ∧
    x.writable = false
  write : m.file true ≠ m.file false ∧ 0 < (k'.filepool (m.file true)).ref

theorem runningKernel_pipe {mm : Mm} {root sz q : Nat}
    (h : PagesOk pageLink (runningKernel mm root sz) (fun _ => False) (pi :: l)) (hq : q < 2)
    (hm : IsMapped mm.mem root q) : ∃ k' m, OnePipe (runningKernel mm root sz) k' m := by
  have hstart := runningKernel_start h
  obtain ⟨h0, h1⟩ := @firstFiles_free (runningKernel mm root sz).filepool rfl rfl
  have hfull := full_runs (E := fun _ => False) h (Nat.zero_lt_succ _) runningKernel_live h0 h1
    (show _ = some 3 from rfl) (show _ = some 4 from rfl) (q * PGSIZE)
  obtain ⟨r, k', hrun, hcase⟩ := hfull.exists_ok fun e he => he
  rcases hcase with ⟨rfl, _, hmade⟩ | ⟨_, ⟨u, hu, hno⟩, _⟩
  · have hpipe := hmade 3 4 rfl rfl
    obtain ⟨l', hgood⟩ := hstart.ok.enter (p := 0) (by decide) runningKernel_live
    obtain ⟨_, _, _, _, _, hgood', _, hcur, _⟩ :=
      (hgood.sys_pipe_runs hstart.ok.extra (q * PGSIZE)).of_ok hrun
    have hcur : k'.current_proc = 0 := hcur
    have halive := hgood'.tally.alive
    rw [hcur] at halive
    have hnew : (newPipe (runningKernel mm root sz) k').page = pi := by
      unfold newPipe
      rw [h0]
      change (k'.filepool 0).pipe = pi
      rw [hpipe.read]
    have hfile : (newPipe (runningKernel mm root sz) k').file false = 0 := by
      unfold newPipe
      rw [h0]
      rfl
    have hfile' : (newPipe (runningKernel mm root sz) k').file true = 1 := by
      unfold newPipe
      dsimp only
      rw [if_pos rfl, h1]
      rfl
    refine ⟨k', newPipe (runningKernel mm root sz) k', hstart,
      fun ok => .call 0 (.pipe (q * PGSIZE)) 0 (by decide) runningKernel_live rfl hrun, rfl,
      fun _ => rfl, ?_, hcur, halive,
      ?_, ⟨_, by rw [hfile, hpipe.read], rfl, rfl, hnew.symm, rfl⟩, ?_⟩
    · rw [hnew, hpipe.empty]
    · rw [hfile]
      have hslots := hpipe.slots
      change (k'.pool 0).files = _ at hslots
      rw [hslots]
      rfl
    · rw [hfile', hfile, hpipe.write]
      exact ⟨by decide, Int.one_pos⟩
  · refine absurd (runningKernel_mapped h hq hm ?_) hno
    rw [PGSIZE_eq]
    omega

/-- The process of an application of one page makes a pipe. -/
theorem onePipe : ∃ k k' m, OnePipe k k' m := by
  obtain ⟨mm, root, sz, l, h, hlen, _, hm⟩ := @runningKernel_loaded pageLink rfl
  cases l with
  | nil => exact absurd hlen (by decide)
  | cons pi l =>
    obtain ⟨k', m, hpipe⟩ := runningKernel_pipe h (by decide) (hm 0 (by decide))
    exact ⟨_, k', m, hpipe⟩

/-- The read end is closed after that: the pipe is open for writing only, and its
page is in use. -/
theorem a_pipe_lives_as_long_as_an_end_after_a_close :
    ∃ (s : EndSys) (m : Made), m ∈ s.made ∧ m.held = (fun w => w) ∧
    (∀ w, (s.k.pipes m.page).isOpen w = w) ∧ ¬ IsFree pageLink s.k.mm m.page := by
  obtain ⟨k, k', m, h⟩ := onePipe
  obtain ⟨x, hx, htype, href, hpage, hw⟩ := h.read
  have hclose : Runs (fun _ => False) (sys_close pageLink 3) (k'.switch 0) (fun _ k'' =>
      (k''.filepool (m.file false)).ref = 0 ∧ ∀ f, f ≠ m.file false →
        k''.filepool f = k'.filepool f) := by
    unfold sys_close
    rw [if_neg (by decide), Runs.bind_iff, Runs.ok_iff (fileAt_ok (by decide) (by decide) h.slot),
      Runs.bind_iff, runs_fileclose_pipe (k := k'.switch 0) hx htype href, hpage, hw]
    refine (runs_pipeclose_first ?_).mpr ?_
    · exact h.empty
    · rw [Runs.bind_iff, runs_modifyCurr, Runs.pure_iff]
      refine ⟨?_, fun f hf => ?_⟩
      · dsimp only
        rw [Function.update_self, file.closed_ref]
      · dsimp only
        rw [Function.update_of_ne hf, Function.update_of_ne hf]
        rfl
  obtain ⟨r, k'', hrun, h0, hrest⟩ := hclose.exists_ok fun _ he => he
  have hruns := Relation.ReflTransGen.tail (.single (h.step IsFd))
    (.call 0 (.close 3) r (by decide) h.live rfl hrun)
  have hheld : (m.see k'').held = fun w => w := by
    funext w
    unfold Made.see
    dsimp only
    rw [h.held, Bool.true_and]
    cases w with
    | false => rw [h0, decide_eq_false (by decide)]
    | true => rw [hrest _ h.write.1, decide_eq_true h.write.2]
  have hlives := (a_pipe_lives_as_long_as_an_end h.start hruns).1 (m.see k'')
    (List.mem_singleton_self _) h.whole ⟨true, by rw [hheld]⟩
  refine ⟨_, m.see k'', List.mem_singleton_self _, hheld, fun w => ?_, hlives.used⟩
  rw [hlives.opened, hheld]

/-- A process has left the address of a file structure of its own making in its
mails, where `p->files[26]` is: it is of type `FD_PIPE`, has one reference and says
that it is the write end of the pipe. Closing it shuts the pipe, which the process
holds open. -/
theorem a_forged_file_shuts_a_pipe : ¬ ∀ (lk : Link) (s₀ s : EndSys), EndStart lk s₀ →
    Relation.ReflTransGen (EndStep lk fun _ => True) s₀ s →
    ∀ m ∈ s.made, m.whole = true → m.Alive → PipeLives lk s m := by
  intro hall
  obtain ⟨k, k', m, h⟩ := onePipe
  have hclose : Runs (fun _ => False) (pipeclose pageLink m.page true) k' (fun _ k'' =>
      k''.filepool = k'.filepool ∧ (k''.pipes m.page).writeopen = false) := by
    rw [runs_pipeclose rfl, h.empty]
    refine ⟨fun hc => absurd hc (by decide), fun _ => ⟨rfl, ?_⟩⟩
    dsimp only
    rw [Function.update_self]
    rfl
  obtain ⟨_, k'', _, hfiles, hshut⟩ := hclose.exists_ok fun _ he => he
  have hruns := Relation.ReflTransGen.tail (.single (h.step fun _ => True))
    (.outside k'' (fun _ => none) 26 trivial (by unfold IsFd FD_MAX; omega))
  have hheld : (m.see k'').held true = true := by
    rw [Made.see_held, hfiles]
    exact ⟨h.held true, h.write.2⟩
  have hlives := hall _ _ _ h.start hruns (m.see k'') (List.mem_singleton_self _) h.whole
    ⟨true, hheld⟩
  have hopen := hlives.opened true
  rw [hheld] at hopen
  change (k''.pipes m.page).writeopen = true at hopen
  rw [hshut] at hopen
  cases hopen

end OnePipe

end ThuKernel
