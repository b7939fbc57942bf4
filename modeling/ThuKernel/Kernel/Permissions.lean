-- The permissions of user pages: `walkaddr` looks at `PTE_V` and `PTE_U` only, so
-- when the copies respect `PTE_R` and `PTE_W` is up to the caller.
import ThuKernel.Fs.Room
import ThuKernel.Kernel.LinkCounts
import ThuKernel.Kernel.MailBounds
import ThuKernel.Kernel.PipeUndo
import ThuKernel.Vm.CopyLaws

namespace ThuKernel

/-- The user may write to the address. -/
def PermitsWrite (mem : Bytes) (root a : Nat) : Prop :=
  UserMapped mem root a ∧ (leafOf mem root a).testBit 2 = true

/-- The user may read from the address. -/
def PermitsRead (mem : Bytes) (root a : Nat) : Prop :=
  UserMapped mem root a ∧ (leafOf mem root a).testBit 1 = true

/-- Byte `u` of a range, and all bytes before it, are mapped. -/
def Reached (mem : Bytes) (root va len u : Nat) : Prop :=
  u < len ∧ ∀ v ≤ u, UserMapped mem root (va + v)

/-- The bytes of the user that `keep` says are the same, and so is its table. -/
structure Spares (keep : Nat → Prop) (root : Nat) (s s' : Mm) : Prop where
  leaf : ∀ a, a % 2 ^ 64 < MAXVA → leafOf s'.mem root a = leafOf s.mem root a
  tables : ∀ a, TableOf s'.mem root a ↔ TableOf s.mem root a
  bytes : ∀ a, UserMapped s.mem root a → keep a → userByte s'.mem root a = userByte s.mem root a

/-- Whatever the data, a copy of this length changes only bytes that the user may
write to, and fails if it may not write to all of the range. -/
def CopyoutRespects (s : Mm) (root va len : Nat) : Prop :=
  ∀ src : List Byte, src.length = len → Runs (fun _ => False) (copyout root va src) s fun r s' =>
    Spares (fun a => ¬ PermitsWrite s.mem root a) root s s' ∧
    ((∃ u < len, ¬ PermitsWrite s.mem root (va + u)) → r = -1)

/-- A copy of this length takes only bytes that the user may read, and fails if it
may not read all of the range. -/
def CopyinRespects (s : Mm) (root va len : Nat) : Prop :=
  Runs (fun _ => False) (copyin root va len) s fun r _ =>
    (∀ u < r.2.length, PermitsRead s.mem root (va + u)) ∧
      ((∃ u < len, ¬ PermitsRead s.mem root (va + u)) → r.1 = -1)

variable {lk : Link} {E : Stop → Prop} {s s' s'' : Mm} {root va len m a b : Nat} {src : List Byte}
  {keep : Nat → Prop}

/-! ## Copies -/

theorem permitsWrite_congr (h : a % 2 ^ 64 = b % 2 ^ 64) :
    PermitsWrite s.mem root a ↔ PermitsWrite s.mem root b := by
  unfold PermitsWrite UserMapped leafOf
  rw [h]

theorem UpTo.lt_iff {p : Nat → Prop} {len m u : Nat} (h : UpTo p len m) :
    u < m ↔ u < len ∧ ∀ v ≤ u, p v := by
  constructor
  · intro hu
    exact ⟨hu.trans_le h.le, fun v hv => h.all v (by omega)⟩
  · rintro ⟨hu, hall⟩
    by_contra hc
    exact h.stop (by omega) (hall m (by omega))

/-- A copy changes only the bytes before the first one that is not mapped. -/
theorem copyout_spares (ht : UserTable s.mem root) (ha : TablesApart s.mem root)
    (hm : UpTo (fun u => UserMapped s.mem root (va + u)) src.length m)
    (hkeep : ∀ a, keep a → ∀ u < m, a % 2 ^ 64 ≠ (va + u) % 2 ^ 64) :
    Runs E (copyout root va src) s fun r s' => Spares keep root s s' ∧ (r = 0 ∨ r = -1) ∧
    (r = 0 ↔ m = src.length) := by
  have hs := ht.separate ha
  apply (copyout_upTo hs (hm.congr fun u => (mapped_iff ht.nonzero).symm)).imp
  rintro r s' ⟨hr, h⟩
  refine ⟨⟨fun a => leafOf_frame hs.page h.sameOn hs.keeps_tables, fun a => ?_, fun a hua hk => ?_⟩,
    ?_, ?_⟩
  · exact tableOf_congr (fun d hd n hn => tableAt_frame hs.page h.sameOn hs.keeps_tables hd hn) a
  · have hbyte : userByte s'.mem root a = s'.mem (userAddr s.mem root a) := by
      unfold userByte userAddr
      rw [h.pages]
    rw [hbyte, h.frame]
    · rfl
    · intro u hu _ hc
      rw [List.length_take] at hu
      exact hkeep a hk u (by omega) (hs.userAddr_inj ((mapped_iff ht.nonzero).mpr hua) hc)
  · rw [hr]
    split
    · exact Or.inl rfl
    · exact Or.inr rfl
  · rw [hr]
    split
    · exact iff_of_true rfl ‹_›
    · exact iff_of_false (by decide) ‹_›

/-- `copyout` respects the permissions just when the user may write to all that
it reaches. -/
theorem copyout_respects_iff (ht : UserTable s.mem root) (ha : TablesApart s.mem root) :
    CopyoutRespects s root va len ↔ ∀ u, Reached s.mem root va len u →
    PermitsWrite s.mem root (va + u) := by
  obtain ⟨m, hm⟩ := UpTo.exists (fun u => UserMapped s.mem root (va + u)) len
  constructor
  · intro h u hu
    by_contra hno
    -- Another byte than the one that is there.
    obtain ⟨b, hb⟩ : ∃ b : Byte, b ≠ userByte s.mem root (va + u) := by
      by_cases h0 : userByte s.mem root (va + u) = 0
      · exact ⟨1, by rw [h0]; decide⟩
      · exact ⟨0, fun hc => h0 hc.symm⟩
    have hlen : (List.replicate len b).length = len := List.length_replicate
    obtain ⟨r, s', _, hfine, hspares, _⟩ := ((copyout_fine (E := fun _ => False) ht ha).and
      (h (List.replicate len b) hlen)).exists_ok fun _ he => he.1
    obtain ⟨n, hn, hbytes, _⟩ := hfine.bytes
    rw [hlen] at hn
    have hat := hbytes u (hn.lt_iff.mpr hu)
    rw [hspares.bytes _ (hu.2 u (Nat.le_refl u)) hno, List.getElem?_replicate, if_pos hu.1] at hat
    exact hb (Option.some.inj hat).symm
  · rintro h src rfl
    have hkeep : ∀ a, ¬ PermitsWrite s.mem root a → ∀ u < m, a % 2 ^ 64 ≠ (va + u) % 2 ^ 64 :=
      fun a hno u hu heq => hno ((permitsWrite_congr heq).mpr (h u (hm.lt_iff.mp hu)))
    apply (copyout_spares ht ha hm hkeep).imp
    rintro r s' ⟨hspares, hresult, hzero⟩
    refine ⟨hspares, fun ⟨u, hu, hno⟩ => hresult.resolve_left fun h0 =>
      hno (h u ⟨hu, fun v hv => ?_⟩)⟩
    exact hm.all v (by rw [hzero.mp h0]; omega)

/-- `copyin` respects the permissions just when the user may read all that it
reaches. -/
theorem copyin_respects_iff (hz : NonzeroFrames s.mem root) :
    CopyinRespects s root va len ↔ ∀ u, Reached s.mem root va len u →
    PermitsRead s.mem root (va + u) := by
  obtain ⟨m, hm⟩ := UpTo.exists (fun u => UserMapped s.mem root (va + u)) len
  have hrun := copyin_upTo (E := fun _ => False) (hm.congr fun u => (mapped_iff hz).symm)
  constructor
  · intro h u hu
    obtain ⟨r, s', _, ⟨_, rfl⟩, hread, _⟩ := (hrun.and h).exists_ok fun _ he => he.1
    exact hread u (by rw [length_userBytes]; exact hm.lt_iff.mpr hu)
  · intro h
    apply hrun.imp
    rintro r s' ⟨_, rfl⟩
    refine ⟨fun u hu => h u (hm.lt_iff.mp (by rwa [length_userBytes] at hu)),
      fun ⟨u, hu, hno⟩ => ?_⟩
    dsimp only
    rw [if_neg]
    intro heq
    exact hno (h u (hm.lt_iff.mp (by omega)))

/-! ## System calls -/

/-- A system call that copies to the user, up to the copy or for one turn of its
loop. -/
inductive UserCall where
  | console (str : Bytes) (va len : Nat)
  | file (f va len : Nat)
  | pipeTurn (pi va n r size : Nat)
  | fstat (sst : Bytes) (fd st : Nat)
  | mailread (buf : Nat) (len : Int)
  | pipe (fdarray : Nat)

def UserCall.run (lk : Link) : UserCall → Prog Kernel Unit
  | .console str va len => discard (console_read str va len)
  | .file f va len => discard (fileread f va len)
  | .pipeTurn pi va n r size => discard (pipereadTurn pi va n r size)
  | .fstat sst fd st => discard (sys_fstat sst fd st)
  | .mailread buf len => discard (mail_read buf len)
  | .pipe fdarray => discard (sys_pipe lk fdarray)

/-- A page that is no table, and no page of the user. -/
structure Outside (s : Mm) (root p : Nat) : Prop where
  aligned : p % PGSIZE = 0
  table : ¬ TableOf s.mem root p
  frame : ∀ a, UserMapped s.mem root a → frameOf s.mem root a ≠ p

/-- A buffer of the user: what a copy reaches of it is none of the bytes `keep`. -/
structure Buffer (keep : Nat → Prop) (s : Mm) (root va n : Nat) : Prop where
  table : UserTable s.mem root
  apart : TablesApart s.mem root
  outside : ∀ a, keep a → ∀ u, Reached s.mem root va n u → a % 2 ^ 64 ≠ (va + u) % 2 ^ 64

variable {k k' : Kernel} {n t pi f p : Nat}

theorem Spares.refl : Spares keep root s s := ⟨fun _ _ => rfl, fun _ => Iff.rfl, fun _ _ _ => rfl⟩

theorem Spares.mapped (h : Spares keep root s s') (a : Nat) :
    UserMapped s'.mem root a ↔ UserMapped s.mem root a :=
  userMapped_congr h.leaf a

theorem Spares.frame (h : Spares keep root s s') (ha : UserMapped s.mem root a) :
    frameOf s'.mem root a = frameOf s.mem root a := by
  unfold frameOf
  rw [h.leaf a ha.1]

theorem Spares.trans (h : Spares keep root s s') (h' : Spares keep root s' s'') :
    Spares keep root s s'' :=
  ⟨fun a ha => (h'.leaf a ha).trans (h.leaf a ha), fun a => (h'.tables a).trans (h.tables a),
    fun a ha hk => (h'.bytes a ((h.mapped a).mpr ha) hk).trans (h.bytes a ha hk)⟩

theorem Spares.outside (h : Spares keep root s s') (ho : Outside s root pi) :
    Outside s' root pi := by
  refine ⟨ho.aligned, fun hc => ho.table ((h.tables pi).mp hc), fun a ha => ?_⟩
  have ha' := (h.mapped a).mp ha
  rw [h.frame ha']
  exact ho.frame a ha'

theorem Spares.buffer (h : Spares keep root s s') (hb : Buffer keep s root va n) :
    Buffer keep s' root va n := by
  refine ⟨hb.table.congr h.leaf, fun a ha hc => ?_,
    fun a hk u hu => hb.outside a hk u ⟨hu.1, fun v hv => (h.mapped _).mp (hu.2 v hv)⟩⟩
  have ha' := (h.mapped a).mp ha
  rw [h.frame ha', h.tables] at hc
  exact hb.apart a ha' hc

/-- A copy to a part of the buffer, when the part before it is mapped. -/
theorem Buffer.copyout_runs (hb : Buffer keep s root va n)
    (hbefore : ∀ v < t, UserMapped s.mem root (va + v))
    (hlen : t + src.length ≤ n) : Runs E (copyout root (va + t) src) s fun r s' =>
    Spares keep root s s' ∧
      (r = 0 ∨ r = -1) ∧ (r = 0 → ∀ v < t + src.length, UserMapped s.mem root (va + v)) := by
  obtain ⟨m, hm⟩ := UpTo.exists (fun u => UserMapped s.mem root (va + t + u)) src.length
  have hall : ∀ v < t + m, UserMapped s.mem root (va + v) := by
    intro v hv
    by_cases hvt : v < t
    · exact hbefore v hvt
    · have := hm.all (v - t) (by omega)
      rwa [show va + t + (v - t) = va + v by omega] at this
  have hkeep : ∀ a, keep a → ∀ u < m, a % 2 ^ 64 ≠ (va + t + u) % 2 ^ 64 := by
    intro a hk u hu
    have hle := hm.le
    rw [Nat.add_assoc]
    exact hb.outside a hk (t + u) ⟨by omega, fun v hv => hall v (by omega)⟩
  refine (copyout_spares hb.table hb.apart hm hkeep).imp ?_
  rintro r s' ⟨hspares, hresult, hzero⟩
  refine ⟨hspares, hresult, fun h0 v hv => hall v ?_⟩
  rwa [hzero.mp h0]

/-- A change of a page outside. -/
theorem Outside.spares (ho : Outside s root pi) (ht : UserTable s.mem root)
    (hsame : SameOn PGSIZE (· ≠ pi) s.mem s'.mem) :
    Spares keep root s s' := by
  have hkeep : ∀ t, TableOf s.mem root t → t ≠ pi := by
    rintro t ht rfl
    exact ho.table ht
  have hleaf : ∀ a, a % 2 ^ 64 < MAXVA → leafOf s'.mem root a = leafOf s.mem root a :=
    fun a => leafOf_frame ht.page hsame hkeep
  refine ⟨hleaf, fun a => ?_, fun a ha _ => ?_⟩
  · exact tableOf_congr (fun d hd n hn => tableAt_frame ht.page hsame hkeep hd hn) a
  · have hpage : ∀ mem, UserMapped mem root a → userPage mem root (PGROUNDDOWN (a % 2 ^ 64)) =
        frameOf mem root a := by
      intro mem h
      rw [userPage_mod, if_neg (by have := h.1; omega), if_pos h.2]
    have ha' := (userMapped_congr hleaf a).mpr ha
    have hframe : frameOf s'.mem root a = frameOf s.mem root a := by
      unfold frameOf
      rw [hleaf a ha.1]
    unfold userByte userAddr
    rw [hpage _ ha, hpage _ ha', hframe]
    exact hsame.byte (isPage_PTE2PA _).aligned (ho.frame a ha) (Nat.mod_lt _ (by decide))

/-- What a call leaves: the process, its page table and the bytes `keep`. -/
structure CallSpares (keep : Nat → Prop) (k k' : Kernel) : Prop where
  current : k'.current_proc = k.current_proc
  root : (k'.pool k.current_proc).pagetable = (k.pool k.current_proc).pagetable
  spares : Spares keep (k.pool k.current_proc).pagetable k.mm k'.mm

theorem CallSpares.of_mm (hmm : k'.mm = k.mm) (hcur : k'.current_proc = k.current_proc)
    (hroot : (k'.pool k.current_proc).pagetable = (k.pool k.current_proc).pagetable) :
    CallSpares keep k k' :=
  ⟨hcur, hroot, by rw [hmm]; exact Spares.refl⟩

theorem CallSpares.trans {k'' : Kernel} (h : CallSpares keep k k') (h' : CallSpares keep k' k'') :
    CallSpares keep k k'' := by
  have hcur := h'.current
  have hroot := h'.root
  have hspares := h'.spares
  rw [h.current] at hcur hroot hspares
  rw [h.root] at hroot hspares
  exact ⟨hcur, hroot, h.spares.trans hspares⟩

/-! ## The calls, one by one -/

/-- Any result of a step that does not matter. -/
theorem runs_any {σ α : Type} {f : Prog σ α} {s : σ} {Q : α → σ → Prop} (h : ∀ a s', Q a s') :
    Runs (fun _ => True) f s Q :=
  Runs.of_forall fun a s' _ => h a s'

theorem readiLoop_spares (hb : Buffer keep s root va n) (ip fuel tot off : Nat)
    (hbefore : ∀ v < tot, UserMapped s.mem root (va + v))
    (fs : Fs) : Runs (fun _ => True) (readiLoop ip n fuel tot off (.user s root va)) fs fun r _ =>
      ∃ s', r.2 = .user s' root va ∧ Spares keep root s s' := by
  induction fuel generalizing tot off s fs with
  | zero => trivial
  | succ fuel ih =>
    unfold readiLoop
    split
    · rename_i hlt
      rw [Runs.bind_iff]
      refine runs_any fun addr fs₁ => ?_
      rw [Runs.bind_iff, runs_getInode, Runs.bind_iff]
      refine runs_any fun bp fs₂ => ?_
      dsimp only
      rw [Runs.bind_iff, runs_bpData, Runs.bind_iff, runs_liftM]
      refine ⟨fun x hx => ?_, fun _ _ => trivial⟩
      unfold either_copyout at hx
      dsimp only at hx
      cases hcopy : copyout root (va + tot)
        ((fs₂.bio.core bp).data.load (off % BSIZE) (min (n - tot) (BSIZE - off % BSIZE))) s with
      | error e =>
        rw [hcopy] at hx
        cases hx
      | ok r =>
        rw [hcopy] at hx
        cases hx
        obtain ⟨hspares, hresult, hall⟩ :=
          (hb.copyout_runs (E := fun _ => True) hbefore (by rw [Bytes.length_load]; omega)).of_ok
            hcopy
        rw [Bytes.length_load] at hall
        rw [Runs.bind_iff, runs_brelse]
        dsimp only
        split
        · exact ⟨_, rfl, hspares⟩
        · rename_i hne
          apply (ih (hspares.buffer hb) _ _ (fun v hv =>
            (hspares.mapped _).mpr (hall (hresult.resolve_right hne) v hv)) _).imp
          rintro r' _ ⟨s', hr, hs'⟩
          exact ⟨s', hr, hspares.trans hs'⟩
    · exact ⟨s, rfl, Spares.refl⟩

/-- The bytes that `readi` reads of a file of this size. -/
def readAmount (size off n : Nat) : Nat :=
  if size < off ∨ (off + n) % 2 ^ 32 < off then 0 else if size < (off + n) % 2 ^ 32 then
    size - off else n

theorem readi_spares (fs : Fs) (ip off m : Nat)
    (hb : Buffer keep s root va (readAmount (fs.itable ip).size off m)) :
    Runs (fun _ => True) (readi ip (.user s root va) off m) fs fun r _ =>
      ∃ s', r.2 = .user s' root va ∧ Spares keep root s s' := by
  unfold readi
  unfold readAmount at hb
  rw [Runs.bind_iff, runs_getInode]
  dsimp only
  split
  · exact ⟨s, rfl, Spares.refl⟩
  · rename_i hin
    rw [if_neg hin] at hb
    exact readiLoop_spares hb _ _ _ _ (fun v hv => absurd hv (Nat.not_lt_zero v)) fs

theorem fileread_spares (hvalid : ∀ ip, (k.filepool f).ip = some ip → (k.fs.itable ip).valid = true)
    (hb : ∀ ip, (k.filepool f).ip = some ip → Buffer keep k.mm (k.pool k.current_proc).pagetable va
      (readAmount (k.fs.itable ip).size (k.filepool f).off (n % 2 ^ 32))) :
    Runs (fun _ => True) (fileread f va n) k fun _ k' => CallSpares keep k k' := by
  unfold fileread
  rw [Runs.bind_iff, runs_getFile, Runs.bind_iff]
  refine runs_deref (fun _ => trivial) fun ip hip => ?_
  rw [Runs.bind_iff, runs_onFs, runs_ivalid (hvalid ip hip), Runs.bind_iff, Runs.get_iff,
    Runs.bind_iff, runs_curr_proc, Runs.bind_iff, runs_onFs]
  dsimp only
  apply (readi_spares k.fs ip _ (n % 2 ^ 32) (hb ip hip)).imp
  rintro ⟨r, dst⟩ fs' ⟨s', rfl, hspares⟩
  dsimp only
  unfold putDst advance
  rw [Runs.bind_iff, Runs.modify_iff, Runs.bind_iff, Runs.when_iff]
  refine ⟨fun _ => ?_, fun _ => ?_⟩
  · rw [Runs.bind_iff, runs_getFile, runs_setFile]
    exact ⟨rfl, rfl, hspares⟩
  · exact ⟨rfl, rfl, hspares⟩

theorem CallSpares.buffer (h : CallSpares keep k k')
    (hb : Buffer keep k.mm (k.pool k.current_proc).pagetable va n) :
    Buffer keep k'.mm (k'.pool k'.current_proc).pagetable va n := by
  rw [h.current, h.root]
  exact h.spares.buffer hb

/-- A copy to the buffer, as a step of a call. -/
theorem copied_runs (hb : Buffer keep k.mm (k.pool k.current_proc).pagetable va n)
    (hlen : src.length ≤ n) :
    Runs (fun _ => True) (onMm (copyout (k.pool k.current_proc).pagetable va src)) k fun _ k' =>
    CallSpares keep k k' := by
  rw [runs_onMm]
  refine (hb.copyout_runs (t := 0) (fun v hv => absurd hv (Nat.not_lt_zero v)) ?_).imp fun _ _ h =>
    ⟨rfl, rfl, h.1⟩
  rwa [Nat.zero_add]

theorem console_read_spares (hb : Buffer keep k.mm (k.pool k.current_proc).pagetable va n)
    (str : Bytes) :
    Runs (fun _ => True) (console_read str va n) k fun _ k' => CallSpares keep k k' := by
  have hlen : (str.load 0 n).length ≤ n := (Bytes.length_load ..).le
  unfold console_read
  rw [Runs.bind_iff, runs_curr_proc, Runs.bind_iff]
  exact (copied_runs hb hlen).imp fun _ _ h => h

/-- The bytes that a turn of `piperead` copies. -/
def turnSize (x : pipe) (n r size : Nat) : Nat :=
  if r < n ∧ size ≠ 0 ∧ x.nread ≠ x.nwrite then readSize x n r else 0

theorem pipereadTurn_spares {r size : Nat}
    (hb : Buffer keep k.mm (k.pool k.current_proc).pagetable (va + r)
    (turnSize (k.pipes pi) n r size)) :
    Runs (fun _ => True) (pipereadTurn pi va n r size) k fun _ k' => CallSpares keep k k' := by
  unfold pipereadTurn
  split
  · rename_i hr
    rw [Runs.bind_iff, runs_getPipe]
    split
    · exact CallSpares.of_mm rfl rfl rfl
    · rename_i hne
      unfold turnSize at hb
      rw [if_pos ⟨hr.1, hr.2, hne⟩] at hb
      dsimp only
      rw [Runs.bind_iff, runs_curr_proc, Runs.bind_iff]
      apply (copied_runs hb (Bytes.length_load ..).le).imp
      intro e k' h
      split
      · trivial
      · rw [Runs.bind_iff, runs_setPipe, Runs.pure_iff]
        exact h.trans (CallSpares.of_mm rfl rfl rfl)
  · exact CallSpares.of_mm rfl rfl rfl

/-- The file of the descriptor has an inode that was read, and the root directory is sound. -/
structure StatReady (k : Kernel) (fd : Nat) : Prop where
  root : RootOk k.fs
  entry : ∀ f ip, (k.pool k.current_proc).files fd = some f → (k.filepool f).ip = some ip →
    OpenEntry k.fs ip

/-- The bytes that `fstat` copies: none when it knows no file, or not the type of its inode. -/
def statSize (k : Kernel) (fd : Nat) : Nat :=
  match ((k.pool k.current_proc).files fd).bind fun f => (k.filepool f).ip with
  | none => 0
  | some ip => if fd < FD_MAX ∧ KnownType (k.fs.itable ip) then STAT_SIZE else 0

theorem statSize_eq {fd f ip : Nat} (hlt : fd < FD_MAX)
    (hf : (k.pool k.current_proc).files fd = some f)
    (hip : (k.filepool f).ip = some ip) : statSize k fd =
    if KnownType (k.fs.itable ip) then STAT_SIZE else 0 := by
  unfold statSize
  rw [hf, Option.bind_some, hip]
  simp only [hlt, true_and]

/-- The entry of an inode that was read keeps its type when `root_dir` returns. -/
theorem AtRoot.type {fs s₁ : Fs} {dp ip : Nat} (h : AtRoot fs dp s₁) (hr : RootOk fs)
    (ho : OpenEntry fs ip) :
    (s₁.itable ip).type = (fs.itable ip).type := by
  have he := ho.entry hr.synced
  exact h.rereads.type hr.synced he
    (he.of_open h.opened ((h.rereads.isInode hr.synced _).mpr he.ino))

theorem sys_fstat_spares {fd : Nat} (h : StatReady k fd)
    (hb : Buffer keep k.mm (k.pool k.current_proc).pagetable va (statSize k fd))
    (sst : Bytes) : Runs (fun _ => True) (sys_fstat sst fd va) k fun _ k' =>
    CallSpares keep k k' := by
  have hdone : ∀ fs, CallSpares keep k { k with fs := fs } := fun _ => CallSpares.of_mm rfl rfl rfl
  unfold sys_fstat statInode
  split
  · exact CallSpares.of_mm rfl rfl rfl
  · rename_i hfd
    rw [Runs.bind_iff, runs_onFs]
    refine (root_dir_at h.root (Or.inr fun _ => trivial)).imp ?_
    rintro dp s₁ hat
    rw [Runs.bind_iff, Runs.bind_iff]
    refine runs_fileAt (fun _ => trivial) fun f _ _ hf => ?_
    rw [Runs.bind_iff, runs_getFile]
    refine runs_deref (fun _ => trivial) fun ip hip => ?_
    rw [Int.toNat_natCast] at hf
    have htype := hat.type h.root (h.entry f ip hf hip)
    rw [Runs.bind_iff, runs_onFs, runs_getInode, Runs.bind_iff, runs_onFs]
    refine (countLinks_runs ((hat.rereads.rootOk h.root).isDir hat.entry) _).imp ?_
    rintro _ _ ⟨rfl, u, rfl, _⟩
    dsimp only
    rw [Runs.bind_iff, runs_onFs, runs_getInode]
    split
    · exact hdone _
    · rename_i hknown
      rw [htype] at hknown
      rw [statSize_eq (k := k) (by omega) hf hip, if_pos (by unfold KnownType; tauto)] at hb
      rw [Runs.bind_iff, runs_curr_proc, Runs.bind_iff]
      refine (copied_runs (k := { k with fs := { s₁ with bio := u } }) hb
        (length_statBytes ..).le).imp ?_
      intro r k' h
      split
      · exact (hdone _).trans h
      · exact (hdone _).trans h

/-- The copy of a mail, if it comes to one. -/
theorem copyoutMail_spares {len : Int}
    (hb : Buffer keep k.mm (k.pool k.current_proc).pagetable va (copySize len)) (mail : Bytes) :
    Runs (fun _ => True) (copyoutMail (k.pool k.current_proc).pagetable va mail len) k fun _ k' =>
    CallSpares keep k k' := by
  have hcopy := copied_runs hb (Bytes.length_load mail 0 (copySize len)).le
  unfold copyoutMail
  dsimp only
  split
  · exact hcopy
  · rw [Runs.bind_iff, runs_onMm]
    apply (copyin_runs (k.pool k.current_proc).pagetable va (copySize len)).imp
    rintro ⟨r, mapped⟩ mm ⟨rfl, _⟩
    split
    · trivial
    · exact hcopy

/-- The bytes that `mailread` copies: none of an empty mailbox, and none into a buffer of length 0.
-/
def mailAmount (m : Mailbox) (len : Int) : Nat :=
  if m.tail = m.head ∨ len = 0 then
    0 else copySize (if m.len m.head < len then m.len m.head else len)

theorem mail_read_spares {len : Int}
    (hb : Buffer keep k.mm (k.pool k.current_proc).pagetable va
    (mailAmount (k.pool k.current_proc).mailbox len)) :
    Runs (fun _ => True) (mail_read va len) k fun _ k' => CallSpares keep k k' := by
  unfold mail_read
  rw [Runs.bind_iff, runs_curr_proc]
  dsimp only
  split
  · exact CallSpares.of_mm rfl rfl rfl
  · rename_i hempty
    split
    · exact CallSpares.of_mm rfl rfl rfl
    · rename_i hlen
      unfold mailAmount at hb
      rw [if_neg (by tauto)] at hb
      rw [Runs.bind_iff]
      apply (copyoutMail_spares hb _).imp
      intro r k' h
      split
      · exact h
      · rw [Runs.bind_iff, Runs.get_iff, Runs.bind_iff, runs_setMailbox, Runs.pure_iff]
        refine h.trans (CallSpares.of_mm rfl rfl ?_)
        exact Kernel.setMailbox_pagetable ..

/-! ## Pipes -/

/-- A file that is a pipe has its data on the page. -/
def OnPage (k : Kernel) (f p : Nat) : Prop :=
  (k.filepool f).type = .FD_PIPE → (k.filepool f).pipe = p

/-- What the steps of `sys_pipe` keep. -/
structure PipeSpares (keep : Nat → Prop) (p : Nat) (k k' : Kernel) : Prop where
  call : CallSpares keep k k'
  files : ∀ f, OnPage k f p → OnPage k' f p

theorem PipeSpares.trans {k'' : Kernel} {p : Nat} (h : PipeSpares keep p k k')
    (h' : PipeSpares keep p k' k'') :
    PipeSpares keep p k k'' :=
  ⟨h.call.trans h'.call, fun f hf => h'.files f (h.files f hf)⟩

theorem kfree_same (pa : Nat) (s : Mm) : Runs (fun _ => True) (kfree lk pa) s fun _ s' =>
    SameOn PGSIZE (· ≠ pa) s.mem s'.mem := by
  rw [runs_kfree]
  refine ⟨fun _ => trivial, fun hframe => ?_⟩
  apply SameOn.trans (SameOn.fill hframe.aligned (Nat.le_refl _))
  exact SameOn.put64 (o := 0) hframe.aligned (by decide)

theorem setFile_spares {p : Nat} {x : file} (hx : OnPage k f p → x.type = .FD_PIPE → x.pipe = p) :
    PipeSpares keep p k { k with filepool := Function.update k.filepool f x } := by
  refine ⟨CallSpares.of_mm rfl rfl rfl, fun g hg => ?_⟩
  unfold OnPage
  dsimp only
  by_cases hgf : g = f
  · rw [hgf, Function.update_self]
    exact hx (hgf ▸ hg)
  · rw [Function.update_of_ne hgf]
    exact hg

/-- What happens to the page `p`, which no process has, and to the pipes. -/
theorem Outside.call_spares (ho : Outside k.mm (k.pool k.current_proc).pagetable p)
    (ht : UserTable k.mm.mem (k.pool k.current_proc).pagetable)
    (hsame : SameOn PGSIZE (· ≠ p) k.mm.mem s.mem)
    (pipes : Nat → pipe) : PipeSpares keep p k { k with mm := s, pipes := pipes } :=
  ⟨⟨rfl, rfl, ho.spares ht hsame⟩, fun _ hf => hf⟩

theorem pipeclose_spares (ho : Outside k.mm (k.pool k.current_proc).pagetable p)
    (ht : UserTable k.mm.mem (k.pool k.current_proc).pagetable) (writable : Bool) :
    Runs (fun _ => True) (pipeclose lk p writable) k fun _ k' => PipeSpares keep p k k' := by
  rw [runs_pipeclose rfl, runs_onMm]
  refine ⟨fun _ => ?_, fun _ => ho.call_spares ht SameOn.refl _⟩
  exact (kfree_same p _).imp fun _ _ hsame => ho.call_spares ht hsame _

theorem closeLast_spares (ho : Outside k.mm (k.pool k.current_proc).pagetable p)
    (ht : UserTable k.mm.mem (k.pool k.current_proc).pagetable) {x : file}
    (hx : x.type = .FD_PIPE → x.pipe = p) :
    Runs (fun _ => True) (closeLast lk x) k fun _ k' => PipeSpares keep p k k' := by
  rw [runs_closeLast]
  refine ⟨fun _ => ho.call_spares ht SameOn.refl k.pipes, fun htype => ?_,
    fun _ => ⟨fun _ => trivial, fun ip _ => ?_⟩⟩
  · rw [hx htype]
    exact pipeclose_spares ho ht _
  · rw [runs_onFs]
    exact runs_any fun _ _ => ⟨CallSpares.of_mm rfl rfl rfl, fun _ hf => hf⟩

theorem CallSpares.outside (h : CallSpares keep k k')
    (ho : Outside k.mm (k.pool k.current_proc).pagetable p) :
    Outside k'.mm (k'.pool k'.current_proc).pagetable p := by
  rw [h.current, h.root]
  exact h.spares.outside ho

theorem CallSpares.table (h : CallSpares keep k k')
    (ht : UserTable k.mm.mem (k.pool k.current_proc).pagetable) :
    UserTable k'.mm.mem (k'.pool k'.current_proc).pagetable := by
  rw [h.current, h.root]
  exact ht.congr h.spares.leaf

theorem fileclose_spares (ho : Outside k.mm (k.pool k.current_proc).pagetable p)
    (ht : UserTable k.mm.mem (k.pool k.current_proc).pagetable) (hf : OnPage k f p) :
    Runs (fun _ => True) (fileclose lk f) k fun _ k' => PipeSpares keep p k k' := by
  have hset : PipeSpares keep p k { k with
      filepool := Function.update k.filepool f { k.filepool f with ref := (k.filepool f).ref - 1 }
        } := setFile_spares fun h => h
  rw [runs_fileclose rfl]
  refine ⟨fun _ => trivial, fun _ => hset, fun _ => ?_⟩
  apply (closeLast_spares (hset.call.outside ho) (hset.call.table ht) hf).imp
  intro _ k' hclose
  exact (hset.trans hclose).trans (setFile_spares fun _ hc => by cases hc)

/-- The page that `pipealloc` takes is the first free one, and both files are on
it then. -/
theorem pipealloc_spares (ht : UserTable k.mm.mem (k.pool k.current_proc).pagetable)
    (ho : k.mm.freelist ≠ 0 → Outside k.mm (k.pool k.current_proc).pagetable k.mm.freelist)
    (f0 f1 : Option Nat) :
    Runs (fun _ => True) (pipealloc f0 f1) k fun r k' => CallSpares keep k k' ∧
      (r < 0 ∨ k.mm.freelist ≠ 0 ∧ ∀ f, f0 = some f ∨ f1 = some f → OnPage k' f k.mm.freelist) := by
  rw [runs_pipealloc, runs_onMm]
  refine runs_kalloc.mpr ⟨fun _ => ⟨fun _ => ?_, fun hc => absurd rfl hc⟩,
    fun hne => ⟨fun hc => absurd hc hne, fun _ => ?_⟩⟩
  · exact ⟨CallSpares.of_mm rfl rfl rfl, Or.inl (by decide)⟩
  · have hout := ho hne
    have hsame : SameOn PGSIZE (· ≠ k.mm.freelist) k.mm.mem
        ((k.mm.mem.fill k.mm.freelist PGSIZE 5).fill k.mm.freelist PGSIZE 0) :=
      (SameOn.fill hout.aligned (Nat.le_refl _)).trans (SameOn.fill hout.aligned (Nat.le_refl _))
    rw [runs_onMm, memset, Runs.modify_iff]
    refine ⟨fun _ => trivial, ?_⟩
    rintro f g _ hf hg rfl
    refine ⟨⟨rfl, rfl, hout.spares ht hsame⟩, Or.inr ⟨hne, fun i hi _ => ?_⟩⟩
    dsimp only
    by_cases hig : i = g
    · rw [hig, Function.update_self, file.onPipe_pipe]
    · have hif : i = f := by
        rcases hi with hi | hi
        · exact Option.some.inj (hi.symm.trans hf)
        · exact absurd (Option.some.inj (hi.symm.trans hg)) hig
      rw [Function.update_of_ne hig, hif, Function.update_self, file.onPipe_pipe]

theorem withFd_spares (k : Kernel) (f p : Nat) : PipeSpares keep p k (withFd k f) := by
  unfold withFd
  refine ⟨CallSpares.of_mm rfl rfl ?_, fun _ hf => hf⟩
  dsimp only
  rw [Function.update_self]

theorem clearFd_spares (fd : Option Nat) (p : Nat) :
    Runs (fun _ => True) (clearFd fd) k fun _ k' => PipeSpares keep p k k' := by
  rw [runs_clearFd]
  refine ⟨CallSpares.of_mm rfl rfl ?_, fun _ hf => hf⟩
  dsimp only
  rw [Function.update_self]
  unfold dropFd
  split
  · rfl
  · rfl

/-- A copy to a part of the buffer, as a step that keeps the files. -/
theorem copied_files (hb : Buffer keep k.mm (k.pool k.current_proc).pagetable va n)
    (hbefore : ∀ v < t, UserMapped k.mm.mem (k.pool k.current_proc).pagetable (va + v))
    (hlen : t + src.length ≤ n) (p : Nat) :
    Runs (fun _ => True) (onMm (copyout (k.pool k.current_proc).pagetable (va + t) src))
    k fun r k' =>
      PipeSpares keep p k k' ∧ (¬ r < 0 →
        ∀ v < t + src.length, UserMapped k.mm.mem (k.pool k.current_proc).pagetable (va + v)) := by
  rw [runs_onMm]
  refine (hb.copyout_runs hbefore hlen).imp ?_
  rintro r s' ⟨hs, hresult, hall⟩
  exact ⟨⟨⟨rfl, rfl, hs⟩, fun _ hf => hf⟩, fun hr => hall (hresult.resolve_right (by omega))⟩

/-- What is undone after a copy that fails. -/
theorem undo_spares {fd0 fd1 : Option Nat} {f0 f1 : Nat} {r : Int}
    (ht : UserTable k.mm.mem (k.pool k.current_proc).pagetable)
    (ho : Outside k.mm (k.pool k.current_proc).pagetable p) (h0 : OnPage k f0 p)
    (h1 : OnPage k f1 p) :
    Runs (fun _ => True) (pipeUndo lk f0 f1 fd0 fd1 r) k fun _ k' => PipeSpares keep p k k' := by
  unfold pipeUndo
  split
  on_goal 2 => exact ⟨CallSpares.of_mm rfl rfl rfl, fun _ hf => hf⟩
  refine (@fileclose_spares lk keep _ _ _ ho ht h0).bind fun _ k₁ c₁ => ?_
  refine (fileclose_spares (c₁.call.outside ho) (c₁.call.table ht) (c₁.files _ h1)).bind
    fun _ k₂ (c₂ : PipeSpares keep p k₁ k₂) => ?_
  refine (@clearFd_spares keep k₂ fd0 p).bind fun _ k₃ c₃ => ?_
  refine (@clearFd_spares keep k₃ fd1 p).bind fun _ k₄ c₄ => ?_
  exact ((c₁.trans c₂).trans c₃).trans c₄

theorem sys_pipe_spares (ht : UserTable k.mm.mem (k.pool k.current_proc).pagetable)
    (hb : k.mm.freelist ≠ 0 → Buffer keep k.mm (k.pool k.current_proc).pagetable va 16)
    (ho : k.mm.freelist ≠ 0 → Outside k.mm (k.pool k.current_proc).pagetable k.mm.freelist) :
    Runs (fun _ => True) (sys_pipe lk va) k fun _ k' => CallSpares keep k k' := by
  have hfiles : ∀ fp, CallSpares keep k { k with filepool := fp } :=
    fun _ => CallSpares.of_mm rfl rfl rfl
  have halloc : ∀ fp, Runs (fun _ => True) filealloc { k with filepool := fp } fun _ k' =>
      ∃ fp', k' = { k with filepool := fp' } := by
    intro fp
    rw [runs_filealloc]
    exact ⟨fun _ => ⟨_, rfl⟩, fun _ _ => ⟨_, rfl⟩⟩
  rw [runs_sys_pipe]
  refine (halloc k.filepool).imp ?_
  rintro f0 _ ⟨fp₁, rfl⟩
  refine (halloc fp₁).imp ?_
  rintro f1 _ ⟨fp₂, rfl⟩
  refine (@pipealloc_spares keep { k with filepool := fp₂ } ht ho f0 f1).imp ?_
  rintro r k₁ ⟨c₁, hr⟩
  have c₁ := (hfiles fp₂).trans c₁
  refine ⟨fun _ => c₁, fun hpos => ⟨fun _ => trivial, fun f hf g hg => ?_⟩⟩
  · obtain ⟨hne, hon⟩ := hr.resolve_left hpos
    have hb₁ := c₁.buffer (hb hne)
    have ho₁ := c₁.outside (ho hne)
    have hfds := (@withFd_spares keep k₁ f k.mm.freelist).trans (withFd_spares _ g _)
    rw [runs_pipeFds, runs_fdalloc, runs_fdalloc]
    rintro _ rfl
    generalize withFd (withFd k₁ f) g = k₂ at hfds ⊢
    have hb₂ := hfds.call.buffer hb₁
    refine (copied_files (t := 0) hb₂ (fun v hv => absurd hv (Nat.not_lt_zero v))
      (by rw [length_u64Bytes]; decide) k.mm.freelist).imp ?_
    rintro r0 k₃ ⟨c₃, hfirst⟩
    have hrest : ∀ (r1 : Int) k₄, PipeSpares keep k.mm.freelist k₃ k₄ → ∀ fd0 fd1,
        Runs (fun _ => True) (pipeUndo lk f g fd0 fd1 r1) k₄ fun _ k' => CallSpares keep k k' := by
      intro r1 k₄ c₄ fd0 fd1
      have c₄ := (hfds.trans c₃).trans c₄
      apply (undo_spares (c₄.call.table hb₁.table) (c₄.call.outside ho₁)
        (c₄.files f (hon f (Or.inl hf))) (c₄.files g (hon g (Or.inr hg)))).imp
      intro _ k₅ c₅
      exact c₁.trans (c₄.trans c₅).call
    refine ⟨fun _ => hrest _ _ ⟨CallSpares.of_mm rfl rfl rfl, fun _ hf => hf⟩ _ _, fun hpos₂ => ?_⟩
    · have hroot : (k₂.pool k₂.current_proc).pagetable = (k₃.pool k₃.current_proc).pagetable := by
        rw [c₃.call.current, c₃.call.root]
      rw [hroot]
      refine (copied_files (c₃.call.buffer hb₂) (fun v hv => ?_) (by rw [length_u64Bytes]) _).imp
        fun r1 k₄ c₄ => hrest r1 k₄ c₄.1 _ _
      rw [← hroot]
      refine (c₃.call.spares.mapped _).mpr (hfirst hpos₂ v ?_)
      rw [length_u64Bytes]
      omega

/-! ## The page tables of the kernel -/

theorem UserFrames.mapsTo_frameOf (h : UserFrames lk s.mem root) (ha : UserMapped s.mem root a) :
    MapsTo lk s.mem root (a % 2 ^ 64 / PGSIZE) (frameOf s.mem root a) := by
  obtain ⟨hlt, hv, hu⟩ := ha
  have hq : a % 2 ^ 64 / PGSIZE < 512 ^ 3 := by
    rw [MAXVA_eq] at hlt
    rw [PGSIZE_eq]
    omega
  exact ⟨hq, hv, rfl, h _ hq ⟨hv, hu⟩⟩

/-- What the theorem on permissions supposes holds of every process that is alive,
as long as each page has one use. -/
theorem PagesOk.userTable {P : Nat → Prop} {l : List Nat} (h : PagesOk lk k P l)
    (hcur : k.current_proc < NPROC)
    (hlive : ¬ Dead (k.pool k.current_proc)) : UserTable k.mm.mem
    (k.pool k.current_proc).pagetable ∧ TablesApart k.mm.mem (k.pool k.current_proc).pagetable ∧
    (k.mm.freelist ≠ 0 → Outside k.mm (k.pool k.current_proc).pagetable k.mm.freelist) := by
  obtain ⟨hroot, hne⟩ := h.root hcur hlive
  have hspace := h.spaces.space _ hroot
  have hmaps := fun a ha => ((h.image _ hcur hne).userFrames (h.frames _ hcur)).mapsTo_frameOf
    (a := a) ha
  refine ⟨⟨hspace.space.table.page, fun a ha => (hmaps a ha).alloc.ne_zero,
    fun a b ha hb heq => ?_⟩, fun a ha => hspace.unmixed _ _ (hmaps a ha), fun hfree => ?_⟩
  · have hb' := hmaps b hb
    rw [← heq] at hb'
    exact hspace.unshared _ _ _ (hmaps a ha) hb'
  · have hmem : k.mm.freelist ∈ l := by
      have hchain := h.spaces.free.chain
      cases l with
      | nil => exact absurd hchain hfree
      | cons p l =>
        rw [hchain.1]
        exact List.mem_cons_self ..
    refine ⟨(h.spaces.free.frames _ hmem).aligned, fun hc => hspace.space.apart _ hmem hc,
      fun a ha hc => ?_⟩
    exact hspace.unfree _ _ (hmaps a ha) (hc ▸ hmem)

end ThuKernel
