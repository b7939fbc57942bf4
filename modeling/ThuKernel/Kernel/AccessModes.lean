-- `sys_read` and `sys_write` on a descriptor that is not open for it: no call looks at
-- `readable` and `writable`, so a call fails for other reasons only.
import ThuKernel.Kernel.FileStreams
import ThuKernel.Kernel.PipeLaws

namespace ThuKernel

/-! ## Copies that change nothing -/

section Copies

variable {s s₁ s' : Mm} {root va : Nat} {src src' : List Byte}

/-- Two copies, one behind the other. -/
theorem CopiedOut.append (h : CopiedOut s root va src 0 s₁)
    (h' : CopiedOut s₁ root (va + src.length) src' 0 s') (hs : Separate s.mem root) :
    CopiedOut s root va (src ++ src') 0 s' := by
  have hm := h.iff.mp rfl
  have hm' : ∀ u < src'.length, Mapped s.mem root (va + src.length + u) :=
    fun u hu => (h.mapped _).mp (h'.iff.mp rfl u hu)
  have hall : ∀ u < (src ++ src').length, Mapped s.mem root (va + u) := by
    intro u hu
    rw [List.length_append] at hu
    by_cases hlt : u < src.length
    · exact hm u hlt
    · have := hm' (u - src.length) (by omega)
      rwa [Nat.add_assoc, Nat.add_sub_cancel' (by omega)] at this
  have hshort := mapped_range_le hall
  have haddr : ∀ a, userAddr s₁.mem root a = userAddr s.mem root a := by
    intro a
    unfold userAddr
    rw [h.pages]
  refine ⟨Or.inl ⟨rfl, hall⟩, fun _ u hu => ?_, fun x hx => ?_,
    fun a => (h'.pages a).trans (h.pages a)⟩
  · rw [List.length_append] at hu hshort
    by_cases hlt : u < src.length
    · rw [List.getElem?_append_left hlt, ← h.bytes rfl u hlt]
      refine congrArg some (h'.frame _ fun v hv _ hc => ?_)
      rw [haddr] at hc
      have := hs.userAddr_inj (hm u hlt) hc
      omega
    · have hbyte := h'.bytes rfl (u - src.length) (by omega)
      rw [haddr, Nat.add_assoc, Nat.add_sub_cancel' (by omega)] at hbyte
      rw [hbyte, List.getElem?_append_right (by omega)]
  · rw [h'.frame x fun v hv hmv => ?_, h.frame x fun v hv hmv => ?_]
    · exact hx v (by rw [List.length_append]; omega) hmv
    · rw [haddr, Nat.add_assoc]
      exact hx _ (by rw [List.length_append]; omega) (by rw [← Nat.add_assoc]; exact hm' v hv)

/-- A copy leaves the memory as it is when the bytes are there already. -/
theorem CopiedOut.mem_eq_iff (h : CopiedOut s root va src 0 s') :
    s'.mem = s.mem ↔ src = ThuKernel.userBytes s.mem root va src.length := by
  constructor
  · intro heq
    rw [← heq, h.userBytes rfl]
  · intro heq
    funext x
    by_cases hx : ∃ u < src.length, x = userAddr s.mem root (va + u)
    · obtain ⟨u, hu, rfl⟩ := hx
      have hbyte := h.bytes rfl u hu
      rw [heq] at hbyte
      rw [userBytes_getElem? _ _ _ hu] at hbyte
      exact Option.some.inj hbyte
    · exact h.frame x fun u hu _ hc => hx ⟨u, hu, hc⟩

theorem CopiedOut.nil (s : Mm) (root va : Nat) : CopiedOut s root va [] 0 s :=
  ⟨Or.inl ⟨rfl, fun _ hu => absurd hu (Nat.not_lt_zero _)⟩,
    fun _ _ hu => absurd hu (Nat.not_lt_zero _), fun _ _ => rfl, fun _ => rfl⟩

end Copies

/-! ## An open file -/

/-- The descriptor is for the open file `f`, on inode `inum`. -/
structure InodeFd (k : Kernel) (fd : Int) (f ip inum : Nat) : Prop where
  ge : 3 ≤ fd
  lt : fd < FD_MAX
  file : (k.pool k.current_proc).files fd.toNat = some f
  type : (k.filepool f).type = .FD_INODE
  inode : (k.filepool f).ip = some ip
  ok : FsOk k.fs
  entry : Entry k.fs ip inum

/-- The files, the pipes, the offset and the memory are as before. -/
structure NothingChanged (k k' : Kernel) (f : Nat) : Prop where
  contents : ∀ j, IsInode k.fs j → contents k'.fs j = contents k.fs j
  pipes : k'.pipes = k.pipes
  off : (k'.filepool f).off = (k.filepool f).off
  mem : k'.mm.mem = k.mm.mem

/-- The call returns -1, and changes nothing. -/
def Denied (k : Kernel) (f : Nat) (call : Prog Kernel Outcome) : Prop :=
  ∃ k', call k = .ok (.ret (-1), k') ∧ NothingChanged k k' f

variable {E : Stop → Prop} {k k' : Kernel} {fd : Int} {f ip inum va len n pi addr w : Nat}
  {str : Bytes} {r : Int}

namespace InodeFd

theorem sys_write (h : InodeFd k fd f ip inum) {Q : Outcome → Kernel → Prop} :
    Runs E (ThuKernel.sys_write fd va len) k Q ↔
    Runs E (writei ip (.user k.mm k.root va) (k.filepool f).off (len % 2 ^ 32)) k.fs fun r s' =>
      Runs E (advance f r) { k with fs := s' } fun _ k' => Q (.ret r) k' := by
  have hlt := h.lt
  have hge := h.ge
  have hmax : (FD_MAX : Int) = 16 := rfl
  unfold ThuKernel.sys_write
  rw [if_neg (by omega), if_neg (by omega), Runs.bind_iff,
    Runs.ok_iff (fileAt_ok (by omega) hlt h.file), Runs.bind_iff, runs_getFile, h.type]
  dsimp only
  rw [Runs.map_iff]
  unfold filewrite
  rw [Runs.bind_iff, runs_getFile, h.inode]
  dsimp only [deref]
  rw [Runs.bind_iff, Runs.pure_iff, Runs.bind_iff, runs_onFs, runs_ivalid h.entry.valid,
    Runs.bind_iff, Runs.get_iff, Runs.bind_iff, runs_curr_proc, Runs.bind_iff, runs_onFs]
  exact Runs.congr fun r s' => by rw [Runs.bind_iff]; rfl

theorem sys_read (h : InodeFd k fd f ip inum) {Q : Outcome → Kernel → Prop} :
    Runs E (ThuKernel.sys_read str fd va len) k Q ↔
    Runs E (readi ip (.user k.mm k.root va) (k.filepool f).off (len % 2 ^ 32)) k.fs fun r s' =>
      Runs E (do
        putDst r.2
        advance f r.1) { k with fs := s' } fun _ k' => Q (.ret r.1) k' := by
  have hlt := h.lt
  have hge := h.ge
  unfold ThuKernel.sys_read
  rw [if_neg (by omega), Runs.bind_iff, Runs.ok_iff (fileAt_ok (by omega) hlt h.file),
    Runs.bind_iff, runs_getFile, h.type]
  dsimp only
  rw [Runs.map_iff]
  unfold fileread
  rw [Runs.bind_iff, runs_getFile, h.inode]
  dsimp only [deref]
  rw [Runs.bind_iff, Runs.pure_iff, Runs.bind_iff, runs_onFs, runs_ivalid h.entry.valid,
    Runs.bind_iff, Runs.get_iff, Runs.bind_iff, runs_curr_proc, Runs.bind_iff, runs_onFs]
  refine Runs.congr fun r s' => ?_
  dsimp only
  rw [Runs.bind_iff, Runs.bind_iff]
  exact Runs.congr fun _ k' => by rw [Runs.bind_iff]; rfl

/-- A write fails just when `writei` refuses it. -/
theorem write_denied_iff (h : InodeFd k fd f ip inum) :
    Denied k f (ThuKernel.sys_write fd va len) ↔
    Refused (inoOf k.fs inum).size (k.filepool f).off (len % 2 ^ 32) := by
  have hlen : ((Src.user k.mm k.root va).data (len % 2 ^ 32)).length = len % 2 ^ 32 :=
    length_userBytes ..
  constructor
  · rintro ⟨k', hrun, _⟩
    by_contra hr
    have hruns : Runs (fun _ => True) (ThuKernel.sys_write fd va len) k fun o _ => ∃ tot : Nat,
        o = .ret tot := by
      rw [h.sys_write]
      refine (writei_runs h.ok h.entry (gives_data hlen _) hr).mono (fun _ _ => trivial) ?_
      rintro r s' ⟨tot, _, rfl, _⟩
      unfold advance
      rw [Runs.when_iff]
      exact ⟨fun _ => ⟨tot, rfl⟩, fun _ => ⟨tot, rfl⟩⟩
    obtain ⟨tot, htot⟩ := hruns.of_ok hrun
    cases htot
  · intro hr
    have hruns : Runs (fun _ => False) (ThuKernel.sys_write fd va len) k fun o k' => o = .ret (-1) ∧
        k' = k := by
      rw [h.sys_write]
      refine (writei_refused h.ok h.entry (Nat.mod_lt _ (by decide)) hr).imp ?_
      rintro _ _ ⟨rfl, rfl⟩
      exact ⟨rfl, rfl⟩
    obtain ⟨o, k', hrun, rfl, rfl⟩ := hruns.exists_ok fun _ hf => hf
    exact ⟨_, hrun, fun _ _ => rfl, rfl, rfl, rfl⟩

end InodeFd

/-! ## Reading -/

theorem UpTo.unique {p : Nat → Prop} {m m' : Nat} (h : UpTo p len m) (h' : UpTo p len m') :
    m = m' := by
  have hle := h.le
  have hle' := h'.le
  by_contra hne
  rcases Nat.lt_or_gt_of_ne hne with hlt | hlt
  · exact h.stop (by omega) (h'.all m hlt)
  · exact h'.stop (by omega) (h.all m' hlt)

/-- The bytes before the first address that is not mapped are copied, of the `n` bytes of a read. -/
theorem copiesOut_start {s : Fs} {mm : Mm} {root start : Nat} (hs : Separate mm.mem root)
    (hclean : DataClean s inum) :
    CopiesOut (fun tot dst => (∀ u < tot, Mapped mm.mem root (va + u)) ∧
        ∃ mm', dst = .user mm' root va ∧ CopiedOut mm root va (bytesAt s inum start tot) 0 mm')
      (fun dst => ∃ m < n, UpTo (fun u => Mapped mm.mem root (va + u)) n m ∧
        ∃ mm', dst = .user mm' root va ∧
        CopiedOut mm root va (bytesAt s inum start m) 0 mm') s inum start n := by
  rintro tot _ m src ⟨hmapped, mm', rfl, hcopied⟩ _ hm hlen hsrc
  have hsrc := hsrc hclean
  obtain ⟨j, hj⟩ := UpTo.exists (fun u => Mapped mm'.mem root (va + tot + u)) src.length
  obtain ⟨r, mm'', hrun, hr, hnext⟩ :=
    (@copyout_upTo (fun _ => False) mm' root (va + tot) src j (hcopied.separate hs)
    hj).exists_ok fun _ hf => hf
  have hjle := hj.le
  have htake : src.take j = bytesAt s inum (start + tot) j := by
    rw [hsrc]
    unfold bytesAt
    rw [← List.map_take, List.take_range, Nat.min_eq_left (by omega)]
  rw [htake] at hnext
  have hcat : CopiedOut mm root va (bytesAt s inum start (tot + j)) 0 mm'' := by
    rw [bytesAt_add]
    refine hcopied.append ?_ hs
    rwa [length_bytesAt]
  have hall : ∀ u < tot + j, Mapped mm.mem root (va + u) := by
    intro u hu
    by_cases hlt : u < tot
    · exact hmapped u hlt
    · have := (hcopied.mapped _).mp (hj.all (u - tot) (by omega))
      rwa [Nat.add_assoc, Nat.add_sub_cancel' (by omega)] at this
  refine ⟨r, .user mm'' root va, ?_, ?_⟩
  · dsimp only [either_copyout]
    rw [hrun]
  · by_cases heq : j = src.length
    · rw [if_pos heq] at hr
      rw [heq, hlen] at hcat hall
      exact Or.inl ⟨hr, hall, mm'', rfl, hcat⟩
    · rw [if_neg heq] at hr
      refine Or.inr ⟨hr,
        tot + j, by omega, ⟨by omega, hall, fun _ hc => hj.stop (by omega) ?_⟩, mm'', rfl, hcat⟩
      rwa [hcopied.mapped, Nat.add_assoc]

/-- Not all the bytes of the read have mapped addresses, and those that have, before the
first that has none, are there already. -/
def AlreadyThere (k : Kernel) (inum off va n : Nat) : Prop :=
  ∃ m < n, UpTo (fun u => Mapped k.mm.mem k.root (va + u)) n m ∧
    bytesAt k.fs inum off m = userBytes k.mm.mem k.root va m

/-- A read fails just when a byte has no mapped address. -/
theorem InodeFd.read_denied_iff (h : InodeFd k fd f ip inum) (hclean : DataClean k.fs inum)
    (hs : Separate k.mm.mem k.root) :
    Denied k f (ThuKernel.sys_read str fd va len) ↔
      AlreadyThere k inum (k.filepool f).off va (readLen (inoOf k.fs inum).size (k.filepool f).off
        (len % 2 ^ 32)) := by
  have hruns : Runs (fun _ => False) (ThuKernel.sys_read str fd va len) k fun o k' =>
      (∀ j, IsInode k.fs j → contents k'.fs j = contents k.fs j) ∧ k'.pipes = k.pipes ∧
        ((∃ n : Nat, o = .ret n) ∧
            (∀ u < readLen (inoOf k.fs inum).size (k.filepool f).off (len % 2 ^ 32),
            Mapped k.mm.mem k.root (va + u)) ∨
          o = .ret (-1) ∧ k'.filepool = k.filepool ∧
            ∃ m < readLen (inoOf k.fs inum).size (k.filepool f).off (len % 2 ^ 32),
              UpTo (fun u => Mapped k.mm.mem k.root (va + u))
              (readLen (inoOf k.fs inum).size (k.filepool f).off (len % 2 ^ 32)) m ∧
                CopiedOut k.mm k.root va (bytesAt k.fs inum (k.filepool f).off m) 0 k'.mm) := by
    rw [h.sys_read]
    refine (readi_runs h.ok h.entry (Nat.mod_lt _ (by decide)) (copiesOut_start hs hclean)
      ⟨fun u hu => absurd hu (Nat.not_lt_zero u), k.mm, rfl, CopiedOut.nil ..⟩).imp ?_
    rintro ⟨r, dst⟩ s' ⟨hcase, u, rfl, hu⟩
    have hcontents : ∀ j, IsInode k.fs j → contents { k.fs with bio := u } j = contents k.fs j := by
      intro j _
      unfold contents
      rw [hu.inoOf]
      exact hu.bytesAt j 0 _
    rcases hcase with ⟨hr, hall, mm', hdst, _⟩ | ⟨hr, m, hm, hup, mm', hdst, hcopied⟩
    · dsimp only at hr hdst ⊢
      rw [hdst, hr, Runs.bind_iff]
      dsimp only [putDst]
      rw [Runs.modify_iff]
      unfold advance
      rw [Runs.when_iff]
      exact ⟨fun _ => ⟨hcontents, rfl, Or.inl ⟨⟨_, rfl⟩, hall⟩⟩,
        fun _ => ⟨hcontents, rfl, Or.inl ⟨⟨_, rfl⟩, hall⟩⟩⟩
    · dsimp only at hr hdst ⊢
      rw [hdst, hr, Runs.bind_iff]
      dsimp only [putDst]
      rw [Runs.modify_iff]
      unfold advance
      rw [Runs.when_iff]
      exact ⟨fun hc => absurd hc (by decide),
        fun _ => ⟨hcontents, rfl, Or.inr ⟨rfl, rfl, m, hm, hup, hcopied⟩⟩⟩
  constructor
  · rintro ⟨k', hrun, hsame⟩
    obtain ⟨_, _, ⟨⟨n, hn⟩, _⟩ | ⟨_, _, m, hm, hup, hcopied⟩⟩ := hruns.of_ok hrun
    · cases hn
    · have hthere := hcopied.mem_eq_iff.mp hsame.mem
      rw [length_bytesAt] at hthere
      exact ⟨m, hm, hup, hthere⟩
  · rintro ⟨m, hm, hup, hthere⟩
    obtain ⟨o, k', hrun, hcontents, hpipes, ⟨_, hall⟩ | ⟨rfl, hfiles, m', hm', hup', hcopied⟩⟩ :=
      hruns.exists_ok fun _ hf => hf
    · exact absurd (hup.all_iff.mp hall) (by omega)
    · obtain rfl := hup.unique hup'
      refine ⟨k', hrun, hcontents, hpipes, by rw [hfiles], hcopied.mem_eq_iff.mpr ?_⟩
      rwa [length_bytesAt]

/-! ## A pipe -/

/-- The descriptor is for an end of the pipe `pi`. -/
structure PipeFd (k : Kernel) (fd : Int) (f pi : Nat) : Prop where
  ge : 3 ≤ fd
  lt : fd < FD_MAX
  file : (k.pool k.current_proc).files fd.toNat = some f
  type : (k.filepool f).type = .FD_PIPE
  pipe : (k.filepool f).pipe = pi

/-- The turns of a call, up to its return, with the states before and after each. After
a turn that calls `yield`, other processes run. -/
inductive Turns : PipeCall → Kernel → List (Kernel × Kernel) → Int → Prop
  | ret {c : PipeCall} {k k' : Kernel} {r : Int} : c.turn k = .ok (.ret r, k') →
      Turns c k [(k, k')] r
  | next {c c' : PipeCall} {k k' : Kernel} {l : List (Kernel × Kernel)} {r : Int} :
      c.turn k = .ok (.next c', k') → Turns c' k' l r → Turns c k ((k, k') :: l) r
  | yield {c c' : PipeCall} {k k' k'' : Kernel} {l : List (Kernel × Kernel)} {r : Int} :
      c.turn k = .ok (.yield c', k') → Turns c' k'' l r → Turns c k ((k, k') :: l) r

/-- A call of `sys_write` on a pipe. -/
def PipeWriteCall (k : Kernel) (fd : Int) (va len : Nat) (l : List (Kernel × Kernel)) (r : Int) :
    Prop :=
  ∃ pi n c k₁ k₂, sys_write fd va len k = .ok (.pipewrite pi va n, k₁) ∧
    pipewrite pi va n k₁ = .ok (c, k₂) ∧ Turns c k₂ l r

/-- A call of `sys_read` on a pipe. -/
def PipeReadCall (k : Kernel) (str : Bytes) (fd : Int) (va len : Nat) (l : List (Kernel × Kernel))
    (r : Int) : Prop :=
  ∃ pi n c k₁ k₂, sys_read str fd va len k = .ok (.piperead pi va n, k₁) ∧
    piperead pi va n k₁ = .ok (c, k₂) ∧ Turns c k₂ l r

/-- The call returns -1, and none of its turns changes anything. -/
def DeniedTurns (f : Nat) (l : List (Kernel × Kernel)) (r : Int) : Prop :=
  r = -1 ∧ ∀ t ∈ l, NothingChanged t.1 t.2 f

/-- A writer finds no reader, or no room. -/
def WriteStuck (x : pipe) : Prop := x.readopen = false ∨ x.nwrite = (x.nread + PIPESIZE) % 2 ^ 32

/-- A reader finds no byte. -/
def ReadStuck (x : pipe) : Prop := x.nread = x.nwrite

theorem NothingChanged.refl (k : Kernel) (f : Nat) : NothingChanged k k f :=
  ⟨fun _ _ => rfl, rfl, rfl, rfl⟩

theorem nothingChanged_yielded (k : Kernel) (f : Nat) : NothingChanged k (yielded k) f :=
  ⟨fun _ _ => rfl, rfl, rfl, rfl⟩

/-- A pipe with room takes at least one byte. -/
theorem writeSize_ne_zero {x : pipe} (hn : 0 < n) (hx : x.nwrite < 2 ^ 32)
    (hroom : x.nwrite ≠ (x.nread + PIPESIZE) % 2 ^ 32) :
    0 < writeSize x n 0 ∧ writeSize x n 0 ≤ PIPESIZE := by
  unfold writeSize PIPESIZE at *
  omega

theorem pipewriteTurn_first (hn : 0 < n) (hx : (k.pipes pi).nwrite < 2 ^ 32) :
    Runs (fun _ => True) (pipewriteTurn pi addr n 0) k fun t k' =>
      (WriteStuck (k.pipes pi) → NothingChanged k k' f ∧
        (t = .yield (.write pi addr n 0) ∨ t = .ret (-1))) ∧
        (¬ WriteStuck (k.pipes pi) → ¬ NothingChanged k k' f) := by
  unfold pipewriteTurn
  rw [if_pos hn, Runs.bind_iff, runs_getPipe]
  split
  · rename_i hclosed
    exact ⟨fun _ => ⟨NothingChanged.refl k f, Or.inr rfl⟩, fun hc => absurd (Or.inl hclosed) hc⟩
  · rename_i hopen
    split
    · rename_i hfull
      exact runs_yield.mpr (Runs.pure_iff.mpr ⟨fun _ => ⟨nothingChanged_yielded k f, Or.inl rfl⟩,
        fun hc => absurd (Or.inr hfull) hc⟩)
    · rename_i hroom
      rw [Runs.bind_iff, runs_curr_proc, Runs.bind_iff, runs_onMm]
      refine (copyin_runs _ _ _).imp ?_
      rintro ⟨r, l⟩ m ⟨rfl, _⟩
      dsimp only
      split
      · trivial
      · rw [Runs.bind_iff, runs_setPipe, Runs.pure_iff]
        refine ⟨fun hc => absurd hc fun hs => hs.elim hopen hroom, fun _ hsame => ?_⟩
        obtain ⟨h1, h2⟩ := writeSize_ne_zero hn hx hroom
        have hpipe := congrFun hsame.pipes pi
        dsimp only at hpipe
        rw [Function.update_self] at hpipe
        have hcount := congrArg pipe.nwrite hpipe
        dsimp only at hcount
        unfold PIPESIZE at h2
        omega

theorem not_denied_of_copy {t : Turn} {l : List (Kernel × Kernel)} (hn : 0 < n)
    (hx : (k.pipes pi).nwrite < 2 ^ 32) (hturn : pipewriteTurn pi addr n 0 k = .ok (t, k'))
    (hstuck : ¬ WriteStuck (k.pipes pi)) :
    DeniedTurns f ((k, k') :: l) r ↔ ∀ t ∈ (k, k') :: l, WriteStuck (t.1.pipes pi) := by
  have htouched := ((pipewriteTurn_first (f := f) hn hx).of_ok hturn).2 hstuck
  exact iff_of_false (fun hd => htouched (hd.2 _ (List.mem_cons_self ..))) fun hs =>
    hstuck (hs _ (List.mem_cons_self ..))

/-- A write to a pipe fails, and changes nothing, just when each turn of it is stuck. -/
theorem write_turns_denied_iff {l : List (Kernel × Kernel)} (hn : 0 < n)
    (h : Turns (.write pi addr n 0) k l r)
    (hx : ∀ t ∈ l, (t.1.pipes pi).nwrite < 2 ^ 32) : DeniedTurns f l r ↔
    ∀ t ∈ l, WriteStuck (t.1.pipes pi) := by
  generalize hc : PipeCall.write pi addr n 0 = c at h
  induction h with
  | @ret c k k' r hturn =>
    subst hc
    have hx := hx _ (List.mem_cons_self ..)
    by_cases hstuck : WriteStuck (k.pipes pi)
    · obtain ⟨hsame, ht | ht⟩ := ((pipewriteTurn_first (f := f) hn hx).of_ok hturn).1 hstuck
      · cases ht
      · cases ht
        refine iff_of_true ⟨rfl, fun t ht => ?_⟩ fun t ht => ?_
        · obtain rfl := List.mem_singleton.mp ht
          exact hsame
        · obtain rfl := List.mem_singleton.mp ht
          exact hstuck
    · exact not_denied_of_copy hn hx hturn hstuck
  | @next c c' k k' l r hturn _ _ =>
    subst hc
    have hx := hx _ (List.mem_cons_self ..)
    by_cases hstuck : WriteStuck (k.pipes pi)
    · obtain ⟨_, ht | ht⟩ := ((pipewriteTurn_first (f := f) hn hx).of_ok hturn).1 hstuck
      · cases ht
      · cases ht
    · exact not_denied_of_copy hn hx hturn hstuck
  | @yield c c' k k' k'' l r hturn _ ih =>
    subst hc
    have hx₀ := hx _ (List.mem_cons_self ..)
    by_cases hstuck : WriteStuck (k.pipes pi)
    · obtain ⟨hsame, ht | ht⟩ := ((pipewriteTurn_first (f := f) hn hx₀).of_ok hturn).1 hstuck
      · cases ht
        have ih := ih (fun t ht => hx t (List.mem_cons_of_mem _ ht)) rfl
        unfold DeniedTurns at ih ⊢
        rw [List.forall_mem_cons, List.forall_mem_cons]
        exact ⟨fun hd => ⟨hstuck, ih.mp ⟨hd.1, hd.2.2⟩⟩,
          fun hs => ⟨(ih.mpr hs.2).1, hsame, (ih.mpr hs.2).2⟩⟩
      · cases ht
    · exact not_denied_of_copy hn hx₀ hturn hstuck

/-- A call that has begun to copy out of a pipe returns the number of bytes. -/
theorem read_turns_result {l : List (Kernel × Kernel)} {m size : Nat}
    (h : Turns (.read pi addr n m size) k l r) : ∃ m : Nat, r = m := by
  generalize hc : PipeCall.read pi addr n m size = c at h
  induction h generalizing m size with
  | ret hturn =>
    subst hc
    cases (pipereadTurn_runs (E := fun _ => True) trivial n m size).of_ok hturn with
    | done => exact ⟨m, rfl⟩
  | next hturn _ ih =>
    subst hc
    cases (pipereadTurn_runs (E := fun _ => True) trivial n m size).of_ok hturn with
    | copy => exact ih rfl
  | yield hturn _ _ =>
    subst hc
    cases (pipereadTurn_runs (E := fun _ => True) trivial n m size).of_ok hturn

theorem pipewaitTurn_first : Runs E (pipewaitTurn pi addr n) k fun t k' =>
    (ReadStuck (k.pipes pi) → NothingChanged k k' f ∧
      (t = .yield (.wait pi addr n) ∨ t = .ret (-1))) ∧
      (¬ ReadStuck (k.pipes pi) → t = .next (.read pi addr n 0 (2 ^ 64 - 1))) := by
  unfold pipewaitTurn
  rw [Runs.bind_iff, runs_getPipe]
  split
  · rename_i hempty
    split
    · exact runs_yield.mpr (Runs.pure_iff.mpr ⟨fun _ => ⟨nothingChanged_yielded k f, Or.inl rfl⟩,
        fun hc => absurd hempty hc⟩)
    · exact ⟨fun _ => ⟨NothingChanged.refl k f, Or.inr rfl⟩, fun hc => absurd hempty hc⟩
  · rename_i hbytes
    exact ⟨fun hc => absurd hc hbytes, fun _ => rfl⟩

/-- A read of a pipe fails, and changes nothing, just when each turn of it finds no byte. -/
theorem read_turns_denied_iff {l : List (Kernel × Kernel)} (h : Turns (.wait pi addr n) k l r) :
    DeniedTurns f l r ↔ ∀ t ∈ l, ReadStuck (t.1.pipes pi) := by
  generalize hc : PipeCall.wait pi addr n = c at h
  unfold DeniedTurns
  induction h with
  | @ret c k k' r hturn =>
    subst hc
    obtain ⟨hstuck, hnext⟩ := (pipewaitTurn_first (E := fun _ => False) (f := f)).of_ok hturn
    by_cases hs : ReadStuck (k.pipes pi)
    · obtain ⟨hsame, ht | ht⟩ := hstuck hs
      · cases ht
      · cases ht
        rw [List.forall_mem_singleton, List.forall_mem_singleton]
        exact ⟨fun _ => hs, fun _ => ⟨rfl, hsame⟩⟩
    · cases hnext hs
  | @next c c' k k' l r hturn hrest _ =>
    subst hc
    obtain ⟨hstuck, hnext⟩ := (pipewaitTurn_first (E := fun _ => False) (f := f)).of_ok hturn
    by_cases hs : ReadStuck (k.pipes pi)
    · obtain ⟨_, ht | ht⟩ := hstuck hs
      · cases ht
      · cases ht
    · cases hnext hs
      obtain ⟨m, rfl⟩ := read_turns_result hrest
      exact iff_of_false (fun hd => absurd hd.1 (by omega)) fun hall =>
        hs (hall _ (List.mem_cons_self ..))
  | @yield c c' k k' k'' l r hturn _ ih =>
    subst hc
    obtain ⟨hstuck, hnext⟩ := (pipewaitTurn_first (E := fun _ => False) (f := f)).of_ok hturn
    by_cases hs : ReadStuck (k.pipes pi)
    · obtain ⟨hsame, ht | ht⟩ := hstuck hs
      · cases ht
        have ih := ih rfl
        rw [List.forall_mem_cons, List.forall_mem_cons]
        exact ⟨fun hd => ⟨hs, ih.mp ⟨hd.1, hd.2.2⟩⟩,
          fun hall => ⟨(ih.mpr hall.2).1, hsame, (ih.mpr hall.2).2⟩⟩
      · cases ht
    · cases hnext hs

namespace PipeFd

theorem sys_write (h : PipeFd k fd f pi) :
    ThuKernel.sys_write fd va len k = .ok (.pipewrite pi va (toInt len), k) := by
  have hlt := h.lt
  have hge := h.ge
  have hmax : (FD_MAX : Int) = 16 := rfl
  have hruns : Runs (fun _ => False) (ThuKernel.sys_write fd va len) k fun o k' =>
      o = .pipewrite pi va (toInt len) ∧ k' = k := by
    unfold ThuKernel.sys_write
    rw [if_neg (by omega), if_neg (by omega), Runs.bind_iff,
      Runs.ok_iff (fileAt_ok (by omega) hlt h.file), Runs.bind_iff, runs_getFile, h.type]
    dsimp only
    rw [Runs.pure_iff, h.pipe]
    exact ⟨rfl, rfl⟩
  obtain ⟨_, _, hrun, rfl, rfl⟩ := hruns.exists_ok fun _ hf => hf
  exact hrun

theorem sys_read (h : PipeFd k fd f pi) :
    ThuKernel.sys_read str fd va len k = .ok (.piperead pi va (toInt len), k) := by
  have hlt := h.lt
  have hge := h.ge
  have hruns : Runs (fun _ => False) (ThuKernel.sys_read str fd va len) k fun o k' =>
      o = .piperead pi va (toInt len) ∧ k' = k := by
    unfold ThuKernel.sys_read
    rw [if_neg (by omega), Runs.bind_iff, Runs.ok_iff (fileAt_ok (by omega) hlt h.file),
      Runs.bind_iff, runs_getFile, h.type]
    dsimp only
    rw [Runs.pure_iff, h.pipe]
    exact ⟨rfl, rfl⟩
  obtain ⟨_, _, hrun, rfl, rfl⟩ := hruns.exists_ok fun _ hf => hf
  exact hrun

/-- A complete call has a positive length. -/
theorem write_turns {l : List (Kernel × Kernel)} (h : PipeFd k fd f pi)
    (hcall : PipeWriteCall k fd va len l r) :
    0 < toInt len ∧ Turns (.write pi va (toInt len).toNat 0) k l r := by
  obtain ⟨_, _, _, _, _, hrun, hstart, hturns⟩ := hcall
  rw [h.sys_write] at hrun
  cases hrun
  unfold pipewrite at hstart
  split at hstart
  · cases hstart
  · cases hstart
    exact ⟨by omega, hturns⟩

theorem read_turns {l : List (Kernel × Kernel)} (h : PipeFd k fd f pi)
    (hcall : PipeReadCall k str fd va len l r) :
    0 < toInt len ∧ Turns (.wait pi va (toInt len).toNat) k l r := by
  obtain ⟨_, _, _, _, _, hrun, hstart, hturns⟩ := hcall
  rw [h.sys_read] at hrun
  cases hrun
  unfold piperead at hstart
  split at hstart
  · cases hstart
  · cases hstart
    exact ⟨by omega, hturns⟩

end PipeFd

/-! ## When a call is denied -/

/-- Whatever `readable` and `writable` are: a write to a file is denied just when it is
too long, a read of a file just when it meets an address that is not mapped and has
changed nothing before, and a call on a pipe just when each of its turns is stuck. -/
theorem a_call_is_denied_iff (k : Kernel) (fd : Int) (f va len : Nat) (str : Bytes) :
    (∀ ip inum, InodeFd k fd f ip inum →
      (Denied k f (sys_write fd va len) ↔
      Refused (inoOf k.fs inum).size (k.filepool f).off (len % 2 ^ 32)) ∧
        (DataClean k.fs inum → Separate k.mm.mem k.root → (Denied k f (sys_read str fd va len) ↔
          AlreadyThere k inum (k.filepool f).off va
          (readLen (inoOf k.fs inum).size (k.filepool f).off (len % 2 ^ 32))))) ∧
      ∀ pi, PipeFd k fd f pi →
        (toInt len ≤ 0 → ∀ l r, ¬ PipeWriteCall k fd va len l r ∧
        ¬ PipeReadCall k str fd va len l r) ∧
          (∀ l r, PipeWriteCall k fd va len l r → (∀ t ∈ l, (t.1.pipes pi).nwrite < 2 ^ 32) →
            (DeniedTurns f l r ↔ ∀ t ∈ l, WriteStuck (t.1.pipes pi))) ∧
          ∀ l r, PipeReadCall k str fd va len l r →
          (DeniedTurns f l r ↔ ∀ t ∈ l, ReadStuck (t.1.pipes pi)) := by
  refine ⟨fun ip inum h => ⟨h.write_denied_iff, h.read_denied_iff⟩,
    fun pi h => ⟨fun hlen l r => ⟨fun hc => ?_, fun hc => ?_⟩,
    fun l r hc hx => ?_, fun l r hc => ?_⟩⟩
  · have := (h.write_turns hc).1
    omega
  · have := (h.read_turns hc).1
    omega
  · obtain ⟨hpos, hturns⟩ := h.write_turns hc
    exact write_turns_denied_iff (by omega) hturns hx
  · exact read_turns_denied_iff (h.read_turns hc).2

/-- Descriptor 3 is for a file of two bytes that is not open for writing. -/
def readOnlyKernel : Kernel :=
  { smallKernel with
    filepool := fun _ => ⟨.FD_INODE, 1, true, false, 0, some 1, 0⟩
    pool := fun i => { smallKernel.pool i with files := fun _ => some 0 } }

theorem readOnlyKernel_fd : InodeFd readOnlyKernel 3 0 1 2 :=
  ⟨by decide, by decide, rfl, rfl, rfl, smallKernel_open.ok, smallKernel_open.entry⟩

theorem a_call_is_denied_iff_of_a_long_write :
    Denied readOnlyKernel 0 (sys_write 3 0 (2 ^ 32 - 1)) := by
  have hiff := (a_call_is_denied_iff readOnlyKernel 3 0 0 (2 ^ 32 - 1) fun _ => 0).1 1 2
    readOnlyKernel_fd
  refine hiff.1.mpr (Or.inr ?_)
  change MAXFILE * BSIZE < 0 + (2 ^ 32 - 1) % 2 ^ 32
  decide

/-- A byte is written to it. -/
theorem a_file_that_is_not_writable_is_written :
    (readOnlyKernel.filepool 0).writable = false ∧ InodeFd readOnlyKernel 3 0 1 2 ∧
    ¬ Denied readOnlyKernel 0 (sys_write 3 0 1) := by
  refine ⟨rfl, readOnlyKernel_fd, ?_⟩
  rintro ⟨k', hrun, _⟩
  have hone : ((sys_write 3 0 1) readOnlyKernel).toOption.map Prod.fst = some (.ret 1) := by
    decide +kernel
  rw [hrun] at hone
  cases hone

end ThuKernel
