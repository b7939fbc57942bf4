-- One open file, written or read in chunks: by any processes that share it, in any
-- order, the chunks one after the other are the contents of the file.
import ThuKernel.Fs.Trunc
import ThuKernel.Fs.WriteRead
import ThuKernel.Kernel.Rules
import ThuKernel.Vm.CopyLaws

namespace ThuKernel

/-! ## The calls -/

/-- The open file `f` is on inode `inum`, in entry `ip`, at offset `off`. -/
structure OpenAt (k : Kernel) (f ip inum off : Nat) : Prop where
  inode : (k.filepool f).ip = some ip
  offset : (k.filepool f).off = off
  ok : FsOk k.fs
  entry : Entry k.fs ip inum

/-- The page table of the process that runs. -/
def Kernel.root (k : Kernel) : Nat := (k.pool k.current_proc).pagetable

/-- Anything else that happens: another process gets the processor, and the memory
changes. The file system and the open file do not. -/
structure Elsewhere (f : Nat) (k k' : Kernel) : Prop where
  fs : k'.fs = k.fs
  file : k'.filepool f = k.filepool f

/-- A call of `filewrite` with a mapped buffer. -/
structure WriteCall (f : Nat) (k : Kernel) (va len : Nat) (r : Int) (k' : Kernel) : Prop where
  call : filewrite f va len k = .ok (r, k')
  mapped : ∀ u < len, Mapped k.mm.mem k.root (va + u)

/-- The chunks that were written, in the order of the calls. -/
inductive WriteRun (f : Nat) (k : Kernel) : List (List Byte) → Kernel → Prop
  | start : WriteRun f k [] k
  | elsewhere {cs : List (List Byte)} {k₁ k₂ : Kernel} : WriteRun f k cs k₁ → Elsewhere f k₁ k₂ →
      WriteRun f k cs k₂
  | write {cs : List (List Byte)} {k₁ k₂ : Kernel} (va len : Nat) (r : Int) :
      WriteRun f k cs k₁ → WriteCall f k₁ va len r k₂ →
      WriteRun f k (cs ++ [userBytes k₁.mm.mem k₁.root va len]) k₂

/-- A call of `fileread`. The user pages of the process are different pages, and none
of them is a page table. -/
structure ReadCall (f : Nat) (k : Kernel) (va len : Nat) (r : Int) (k' : Kernel) : Prop where
  call : fileread f va len k = .ok (r, k')
  memory : Separate k.mm.mem k.root

/-- The chunks that were read: what is in the buffer after each call that read bytes. -/
inductive ReadRun (f : Nat) (k : Kernel) : List (List Byte) → Kernel → Prop
  | start : ReadRun f k [] k
  | elsewhere {cs : List (List Byte)} {k₁ k₂ : Kernel} : ReadRun f k cs k₁ → Elsewhere f k₁ k₂ →
      ReadRun f k cs k₂
  | read {cs : List (List Byte)} {k₁ k₂ : Kernel} (va len : Nat) (r : Int) :
      ReadRun f k cs k₁ → ReadCall f k₁ va len r k₂ →
      ReadRun f k (cs ++ [userBytes k₂.mm.mem k₁.root va r.toNat]) k₂

variable {E : Stop → Prop} {k k₁ k₂ : Kernel} {f ip inum off len va n : Nat} {mm : Mm} {root : Nat}

/-- `itrunc` leaves an empty file. -/
theorem OpenAt.itrunc (h : OpenAt k f ip inum off) :
    OpenAt { k with fs := (ThuKernel.itrunc ip).final k.fs } f ip inum off ∧
    (inoOf ((ThuKernel.itrunc ip).final k.fs) inum).size = 0 := by
  obtain ⟨_, s', hrun, ht⟩ := (itrunc_runs (E := fun _ => False) h.ok h.entry).returns
  rw [Prog.final_of_ok hrun]
  exact ⟨⟨h.inode, h.offset, ht.ok, ht.spares.entryOk h.entry⟩, congrArg Ino.size ht.ino⟩

theorem OpenAt.size (h : OpenAt k f ip inum off) : (k.fs.itable ip).size = (inoOf k.fs inum).size :=
  entry_size h.entry h.ok.table

theorem runs_ivalid {s : Fs} {Q : Unit → Fs → Prop} (h : (s.itable ip).valid = true) :
    Runs E (ivalid ip) s Q ↔ Q () s := by
  unfold ivalid
  rw [Runs.bind_iff, Runs.get_iff]
  dsimp only
  rw [if_pos h, Runs.pure_iff]

/-! ## A chunk more -/

theorem allCopied_of_mapped (h : ∀ u < n, Mapped mm.mem root (va + u)) :
    AllCopied (.user mm root va) n := by
  intro tot m r bytes hm hcopy
  have hc := copyin_runs (E := fun _ => False) (s := mm) root (va + tot) m
  dsimp only [either_copyin] at hcopy
  cases hrun : copyin root (va + tot) m mm with
  | error e => exact (hc.of_error hrun).elim
  | ok x =>
    rw [hrun] at hcopy
    obtain ⟨x, mm'⟩ := x
    obtain ⟨_, hin⟩ := hc.of_ok hrun
    cases hcopy
    rcases hin.result with ⟨h0, _⟩ | ⟨_, hlt, hhole⟩
    · exact h0
    · dsimp only at hlt hhole
      rw [Nat.add_assoc] at hhole
      exact absurd (h (tot + bytes.length) (by omega)) hhole

/-- What the calls so far have written: it is the file, and the offset is at its end. -/
structure WrittenSoFar (k : Kernel) (f ip inum : Nat) (data : List Byte) : Prop where
  file : OpenAt k f ip inum data.length
  size : (inoOf k.fs inum).size = data.length
  bytes : ∀ p < data.length, some (byteAt k.fs inum p) = data[p]?
  clean : DataClean k.fs inum

theorem WrittenSoFar.write {data : List Byte} {r : Int} (h : WrittenSoFar k f ip inum data)
    (hc : WriteCall f k va len r k₂)
    (hmax : data.length + len ≤ MAXFILE * BSIZE) : WrittenSoFar k₂ f ip inum
    (data ++ userBytes k.mm.mem k.root va len) := by
  obtain ⟨hfile, hsize, hbytes, hclean⟩ := h
  have hM : MAXFILE * BSIZE < 2 ^ 32 := by decide
  have hlen : len % 2 ^ 32 = len := Nat.mod_eq_of_lt (by omega)
  have hgives := @gives_data len (.user k.mm k.root va) (length_userBytes ..) data.length
  have hr : ¬ Refused (inoOf k.fs inum).size data.length len := by
    unfold Refused
    omega
  have hruns : Runs (NoBlockFor k.fs inum data.length (data.length + len)) (filewrite f va len)
      k fun _ k' =>
      WrittenSoFar k' f ip inum (data ++ userBytes k.mm.mem k.root va len) := by
    unfold filewrite
    rw [Runs.bind_iff, runs_getFile, hfile.inode]
    dsimp only [deref]
    rw [Runs.bind_iff, Runs.pure_iff, Runs.bind_iff, runs_onFs, runs_ivalid hfile.entry.valid,
      Runs.bind_iff, Runs.get_iff,
      Runs.bind_iff, runs_curr_proc, hfile.offset, hlen, Runs.bind_iff, runs_onFs]
    refine (writei_runs hfile.ok hfile.entry hgives hr).imp ?_
    rintro r s' ⟨tot, _, rfl, hw, hkeep, hall⟩
    obtain rfl := hall (allCopied_of_mapped hc.mapped)
    have hdata : (data ++ userBytes k.mm.mem k.root va tot).length = data.length + tot := by simp
    have hsize' : (inoOf s' inum).size = (data ++ userBytes k.mm.mem k.root va tot).length := by
      rw [hw.size, hsize, hdata]
      omega
    have hclean' := hw.dataClean (hkeep rfl) hfile.ok hfile.entry.ino (by omega) hclean
    have hbytes' : ∀ p < data.length + tot, some (byteAt s' inum p) =
        (data ++ userBytes k.mm.mem k.root va tot)[p]? := by
      intro p hp
      by_cases hold : p < data.length
      · rw [hw.old p (by omega) (hclean p (by omega)) (Or.inl hold), hbytes p hold,
          List.getElem?_append_left hold]
      · rw [hw.new p (by omega) hp, List.getElem?_append_right (by omega),
          List.getD_eq_getElem?_getD]
        dsimp only [Src.data]
        rw [List.getElem?_eq_getElem (by rw [length_userBytes]; omega)]
        rfl
    have hentry' := hw.touches.entryOk hfile.entry
    unfold advance
    rw [Runs.bind_iff, Runs.when_iff]
    refine ⟨fun hpos => ?_, fun hzero => ?_⟩
    · rw [Runs.bind_iff, runs_getFile, runs_setFile, Runs.pure_iff]
      refine ⟨⟨?_, ?_, hw.ok, hentry'⟩, hsize', by rwa [hdata], hclean'⟩
      · dsimp only
        rw [Function.update_self]
        exact hfile.inode
      · dsimp only
        rw [Function.update_self, hdata]
        dsimp only
        rw [hfile.offset, Int.toNat_natCast, Nat.mod_eq_of_lt (by omega)]
    · obtain rfl : tot = 0 := by omega
      rw [Runs.pure_iff]
      exact ⟨⟨hfile.inode, by rw [hdata]; exact hfile.offset, hw.ok, hentry'⟩,
        hsize', by rwa [hdata], hclean'⟩
  exact hruns.of_ok hc.call

theorem WrittenSoFar.elsewhere {data : List Byte} (h : WrittenSoFar k f ip inum data)
    (he : Elsewhere f k k₂) :
    WrittenSoFar k₂ f ip inum data := by
  obtain ⟨⟨h1, h2, h3, h4⟩, h5, h6, h7⟩ := h
  obtain ⟨hfs, hf⟩ := he
  exact ⟨⟨hf ▸ h1, hf ▸ h2, hfs ▸ h3, hfs ▸ h4⟩, hfs ▸ h5, hfs ▸ h6, hfs ▸ h7⟩

theorem bytesAt_eq {s : Fs} {data : List Byte}
    (h : ∀ p < data.length, some (byteAt s inum p) = data[p]?) :
    bytesAt s inum 0 data.length = data := by
  apply List.ext_getElem?
  intro p
  by_cases hp : p < data.length
  · rw [← h p hp]
    simp [bytesAt, hp]
  · rw [List.getElem?_eq_none (by simpa using hp), List.getElem?_eq_none (by simpa using hp)]

/-- The run lemma for writing. -/
theorem WriteRun.soFar {cs : List (List Byte)} (hrun : WriteRun f k cs k₂)
    (hstart : WrittenSoFar k f ip inum [])
    (hmax : cs.flatten.length ≤ MAXFILE * BSIZE) : WrittenSoFar k₂ f ip inum cs.flatten := by
  induction hrun with
  | start => exact hstart
  | elsewhere _ he ih => exact (ih hmax).elsewhere he
  | write va len r _ hc ih =>
    rw [List.flatten_append, List.length_append] at hmax
    rw [List.flatten_append]
    simp only [List.flatten_cons, List.flatten_nil, List.append_nil, length_userBytes] at hmax ⊢
    exact (ih (by omega)).write hc hmax

/-! ## A chunk that is read -/

section UserMemory

variable {s s' : Mm} {src : List Byte} {r : Int}

/-- A copy leaves the user pages as they are. -/
theorem CopiedOut.separate (h : CopiedOut s root va src r s') (hs : Separate s.mem root) :
    Separate s'.mem root := by
  have htables := @tableOf_congr s.mem s'.mem root
    fun d hd n hn => tableAt_frame hs.page h.sameOn hs.keeps_tables hd hn
  refine ⟨hs.page, fun a => ?_, fun a b => ?_⟩
  · rw [h.pages, htables]
    exact hs.tables a
  · rw [h.pages, h.pages]
    exact hs.unshared a b

theorem CopiedOut.mapped (h : CopiedOut s root va src r s') (a : Nat) :
    Mapped s'.mem root a ↔ Mapped s.mem root a := by
  unfold Mapped
  rw [h.pages]

/-- The bytes in front of the copied ones stay. -/
theorem CopiedOut.before (h : CopiedOut s root (va + n) src r s') (hs : Separate s.mem root)
    (hmapped : ∀ u < n, Mapped s.mem root (va + u)) (hlen : n + src.length ≤ 2 ^ 64) :
    ThuKernel.userBytes s'.mem root va n = ThuKernel.userBytes s.mem root va n := by
  unfold ThuKernel.userBytes
  apply List.map_congr_left
  intro u hu
  have hu := List.mem_range.mp hu
  have haddr : userAddr s'.mem root (va + u) = userAddr s.mem root (va + u) := by
    unfold userAddr
    rw [h.pages]
  rw [haddr]
  apply h.frame
  intro u' hu' _ hc
  have := hs.userAddr_inj (hmapped u hu) hc
  omega

end UserMemory

/-- The state of the memory after `tot` bytes of a `readi` to the user. -/
structure UserRead (s : Fs) (inum start : Nat) (mm : Mm) (root va tot : Nat) (dst : Dst) :
    Prop where
  copied : ∃ mm', dst = .user mm' root va ∧ Separate mm'.mem root ∧
    (∀ u < tot, Mapped mm'.mem root (va + u)) ∧
    (DataClean s inum → userBytes mm'.mem root va tot = bytesAt s inum start tot)

theorem copiesOut_user {s : Fs} {start : Nat} (hn : n ≤ 2 ^ 32) :
    CopiesOut (UserRead s inum start mm root va)
    (fun dst => ∃ mm', dst = .user mm' root va) s inum start n := by
  rintro tot _ m src ⟨mm', rfl, hsep, hmapped, hbytes⟩ _ hm hlen hsrc
  obtain ⟨r, mm'', hrun, hcopied⟩ :=
    (@copyout_separate (fun _ => False) mm' root (va + tot) src hsep
    (by omega)).exists_ok fun _ h => h
  refine ⟨r, .user mm'' root va, ?_, ?_⟩
  · dsimp only [either_copyout]
    rw [hrun]
  · rcases hcopied.result with ⟨h0, hall⟩ | ⟨h1, _⟩
    · refine Or.inl ⟨h0, mm'', rfl, hcopied.separate hsep, fun u hu => ?_, fun hclean => ?_⟩
      · rw [hcopied.mapped]
        by_cases hlt : u < tot
        · exact hmapped u hlt
        · have := hall (u - tot) (by omega)
          rwa [Nat.add_assoc, Nat.add_sub_cancel' (by omega)] at this
      · have hnew := hcopied.userBytes h0
        rw [hlen] at hnew
        rw [userBytes_add, bytesAt_add, hnew, hcopied.before hsep hmapped (by omega), hbytes hclean,
          hsrc hclean]
    · exact Or.inr ⟨h1, mm'', rfl⟩

/-- What the calls so far have read: the bytes before the offset. -/
structure ReadSoFar (k : Kernel) (f ip inum : Nat) (data : List Byte) (k' : Kernel) : Prop where
  file : OpenAt k' f ip inum data.length
  cached : ∃ u, k'.fs = { k.fs with bio := u } ∧ Cached k.fs.bio u
  le : data.length ≤ (inoOf k.fs inum).size
  bytes : data = bytesAt k.fs inum 0 data.length

/-- One call: it reads to the end of the file, or as much as was asked for, or it fails. -/
theorem ReadSoFar.read {data : List Byte} {r : Int} (h : ReadSoFar k f ip inum data k₁)
    (hclean : DataClean k.fs inum) (hc : ReadCall f k₁ va len r k₂) :
    ReadSoFar k f ip inum (data ++ userBytes k₂.mm.mem k₁.root va r.toNat) k₂ ∧
      (r = -1 ∨ r = readLen (inoOf k.fs inum).size data.length (len % 2 ^ 32)) := by
  obtain ⟨hfile, ⟨u, hfs, hu⟩, hle, hbytes⟩ := h
  have hM : MAXFILE * BSIZE < 2 ^ 31 := by decide
  have hmod : len % 2 ^ 32 < 2 ^ 32 := Nat.mod_lt _ (by decide)
  have hclean₁ : DataClean k₁.fs inum := by
    rw [hfs]
    exact hu.dataClean hclean
  have hino : inoOf k₁.fs inum = inoOf k.fs inum := by
    rw [hfs]
    exact hu.inoOf inum
  have hsame : ∀ off n, bytesAt k₁.fs inum off n = bytesAt k.fs inum off n := by
    intro off n
    rw [hfs]
    exact hu.bytesAt inum off n
  have hfits := (hfile.ok.fits inum hfile.entry.ino).2
  have hshort : readLen (inoOf k₁.fs inum).size data.length (len % 2 ^ 32) ≤ 2 ^ 32 := by
    have := readLen_le (inoOf k₁.fs inum).size data.length (len % 2 ^ 32)
    omega
  have hcopies : CopiesOut (UserRead k₁.fs inum data.length k₁.mm k₁.root va) _ k₁.fs inum
      data.length _ := copiesOut_user hshort
  have hzero : UserRead k₁.fs inum data.length k₁.mm k₁.root va 0 (.user k₁.mm k₁.root va) :=
    ⟨k₁.mm, rfl, hc.memory, fun u hu => absurd hu (Nat.not_lt_zero u), fun _ => rfl⟩
  have hruns : Runs (fun _ => False) (fileread f va len) k₁ fun r k' =>
      ReadSoFar k f ip inum (data ++ userBytes k'.mm.mem k₁.root va r.toNat) k' ∧
        (r = -1 ∨ r = readLen (inoOf k.fs inum).size data.length (len % 2 ^ 32)) := by
    unfold fileread
    rw [Runs.bind_iff, runs_getFile, hfile.inode]
    dsimp only [deref]
    rw [Runs.bind_iff, Runs.pure_iff, Runs.bind_iff, runs_onFs, runs_ivalid hfile.entry.valid,
      Runs.bind_iff, Runs.get_iff,
      Runs.bind_iff, runs_curr_proc, hfile.offset, Runs.bind_iff, runs_onFs]
    refine (readi_runs hfile.ok hfile.entry hmod hcopies hzero).imp ?_
    rintro ⟨r, dst⟩ _ ⟨hcase, v, rfl, hv⟩
    dsimp only at hcase ⊢
    have hcached : Cached k.fs.bio v := by
      rw [hfs] at hv
      exact hu.trans hv
    have hfs' : { k₁.fs with bio := v } = { k.fs with bio := v } := by rw [hfs]
    have hok' : FsOk { k₁.fs with bio := v } := hv.fsOk hfile.ok
    have hentry' : Entry { k₁.fs with bio := v } ip inum := hv.entry hfile.entry
    rcases hcase with ⟨rfl, mm', rfl, _, _, hread⟩ | ⟨rfl, mm', rfl⟩
    · have hread := hread hclean₁
      rw [hsame, hino] at hread
      rw [hino] at hshort ⊢
      generalize hc : readLen (inoOf k.fs inum).size data.length (len % 2 ^ 32) =
        c at hread hshort ⊢
      have hend := readLen_le (inoOf k.fs inum).size data.length (len % 2 ^ 32)
      rw [hc] at hend
      have hlen : (data ++ userBytes mm'.mem k₁.root va c).length = data.length + c := by simp
      have hdata : data ++ userBytes mm'.mem k₁.root va c =
          bytesAt k.fs inum 0 (data.length + c) := by
        rw [bytesAt_add, Nat.zero_add, ← hread, ← hbytes]
      unfold putDst advance
      rw [Runs.bind_iff, Runs.modify_iff, Runs.bind_iff, Runs.when_iff]
      refine ⟨fun hpos => ?_, fun hz => ?_⟩
      · rw [Runs.bind_iff, runs_getFile, runs_setFile, Runs.pure_iff]
        refine ⟨⟨⟨?_, ?_, hok', hentry'⟩,
          ⟨v, hfs', hcached⟩, by rw [Int.toNat_natCast, hlen]; omega,
          by rw [Int.toNat_natCast, hlen]; exact hdata⟩, Or.inr rfl⟩
        · dsimp only
          rw [Function.update_self]
          exact hfile.inode
        · dsimp only
          rw [Function.update_self, Int.toNat_natCast, hlen]
          dsimp only
          rw [hfile.offset]
          rw [hino] at hfits
          exact Nat.mod_eq_of_lt (by omega)
      · obtain rfl : c = 0 := by omega
        rw [Runs.pure_iff]
        refine ⟨⟨⟨hfile.inode, ?_, hok', hentry'⟩,
          ⟨v, hfs', hcached⟩, by rw [Int.toNat_natCast, hlen]; omega,
          by rw [Int.toNat_natCast, hlen]; exact hdata⟩, Or.inr rfl⟩
        rw [Int.toNat_natCast, hlen]
        exact hfile.offset
    · unfold putDst advance
      rw [Runs.bind_iff, Runs.modify_iff, Runs.bind_iff, Runs.when_iff]
      refine ⟨fun hpos => absurd hpos (by decide), fun _ => ?_⟩
      rw [Runs.pure_iff]
      have hnil : data ++ userBytes mm'.mem k₁.root va (Int.toNat (-1)) = data :=
        List.append_nil data
      dsimp only
      rw [hnil]
      exact ⟨⟨⟨hfile.inode, hfile.offset, hok', hentry'⟩, ⟨v, hfs', hcached⟩, hle, hbytes⟩,
        Or.inl rfl⟩
  exact hruns.of_ok hc.call

theorem ReadSoFar.elsewhere {data : List Byte} (h : ReadSoFar k f ip inum data k₁)
    (he : Elsewhere f k₁ k₂) :
    ReadSoFar k f ip inum data k₂ := by
  obtain ⟨⟨h1, h2, h3, h4⟩, h5, h6, h7⟩ := h
  obtain ⟨hfs, hf⟩ := he
  exact ⟨⟨hf ▸ h1, hf ▸ h2, hfs ▸ h3, hfs ▸ h4⟩, hfs ▸ h5, h6, h7⟩

/-- The run lemma for reading. -/
theorem ReadRun.soFar {cs : List (List Byte)} (hrun : ReadRun f k cs k₂)
    (hopen : OpenAt k f ip inum 0)
    (hclean : DataClean k.fs inum) : ReadSoFar k f ip inum cs.flatten k₂ := by
  induction hrun with
  | start => exact ⟨hopen, ⟨k.fs.bio, rfl, Cached.refl hopen.ok.cache⟩, Nat.zero_le _, rfl⟩
  | elsewhere _ he ih => exact ih.elsewhere he
  | read va len r _ hc ih =>
    rw [List.flatten_append]
    simp only [List.flatten_cons, List.flatten_nil, List.append_nil]
    exact (ih.read hclean hc).1

/-! ## Chunks do not matter -/

/-- What is written in chunks on an empty file is the file, and what is read in chunks,
up to a call that reads nothing, is the file. -/
theorem chunks_do_not_matter (hopen : OpenAt k f ip inum 0) :
    ((inoOf k.fs inum).size = 0 → ∀ cs k', WriteRun f k cs k' →
    cs.flatten.length ≤ MAXFILE * BSIZE →
      (k'.fs.itable ip).size = cs.flatten.length ∧ contents k'.fs inum = cs.flatten ∧
        reads k'.fs ip 0 cs.flatten.length = some cs.flatten) ∧
    (DataClean k.fs inum → ∀ cs k' k'' va len, ReadRun f k cs k' → ReadCall f k' va len 0 k'' →
      0 < len → (k'.filepool f).off + len < 2 ^ 32 →
      cs.flatten = contents k.fs inum ∧ reads k.fs ip 0 (k.fs.itable ip).size =
      some cs.flatten) := by
  have hfits := (hopen.ok.fits inum hopen.entry.ino).2
  have hM : MAXFILE * BSIZE < 2 ^ 31 := by decide
  refine ⟨fun hempty cs k' hrun hmax => ?_, fun hclean cs k' k'' va len hrun hlast hpos hlen => ?_⟩
  · have hstart : WrittenSoFar k f ip inum [] :=
      ⟨hopen, hempty, fun p hp => absurd hp (Nat.not_lt_zero p), fun p hp => absurd hp (by omega)⟩
    obtain ⟨hfile, hsize, hbytes, hclean⟩ := hrun.soFar hstart hmax
    have hcontents := bytesAt_eq hbytes
    have hread : readLen (inoOf k'.fs inum).size 0 cs.flatten.length = cs.flatten.length := by
      unfold readLen
      rw [if_neg (by omega)]
      omega
    refine ⟨hfile.size.trans hsize, ?_, ?_⟩
    · unfold contents
      rw [hsize]
      exact hcontents
    · rw [reads_eq hfile.ok hfile.entry hclean (by omega), hread, hcontents]
  · have hsofar := hrun.soFar hopen hclean
    have hoff := hsofar.file.offset
    obtain ⟨_, hres⟩ := hsofar.read hclean hlast
    have hle := hsofar.le
    have hall : cs.flatten.length = (inoOf k.fs inum).size := by
      rcases hres with h | h
      · exact absurd h (by decide)
      · unfold readLen at h
        rw [Nat.mod_eq_of_lt (by omega), if_neg (by omega)] at h
        omega
    have hcontents : cs.flatten = contents k.fs inum := by
      unfold contents
      rw [← hall]
      exact hsofar.bytes
    have hread : readLen (inoOf k.fs inum).size 0 (inoOf k.fs inum).size =
        (inoOf k.fs inum).size := by
      unfold readLen
      rw [if_neg (by omega)]
      omega
    refine ⟨hcontents, ?_⟩
    rw [hopen.size, reads_eq hopen.ok hopen.entry hclean (by omega), hread, hcontents]
    rfl

/-! ## Two calls -/

/-- One process, with one page of memory at address 0, and an open file on inode 2. -/
def smallKernel : Kernel where
  mm := ⟨oneEntry (PA2PTE 0x4000 ||| 0x1f), 0⟩
  fs := smallFs (binit smallDisk)
  filepool _ := ⟨.FD_INODE, 1, true, true, 0, some 1, 0⟩
  pipes _ := ⟨fun _ => 0, 0, 0, false, false⟩
  pool _ := ⟨.RUNNING, 1, 0x1000, 0, 0, 4096, none, 0, fun _ => none, .zero, 16, 6250⟩
  current_proc := 0
  PID := 2

theorem smallKernel_open : OpenAt smallKernel 0 1 2 0 :=
  ⟨rfl, rfl, small_binit, small_entry (binit_spec smallDisk).2.1 (by decide)⟩

theorem smallKernel_separate : Separate smallKernel.mm.mem 0x1000 :=
  (userTable_oneEntry (by decide) (by decide)).separate
    (tablesApart_oneEntry (by decide) (by decide))

theorem smallKernel_clean : DataClean smallKernel.fs 2 := fun _ _ => binit_clean _ _

/-- Some time after a call, when the memory is as before. -/
def after (f : Prog Kernel Int) (k : Kernel) : Kernel :=
  { smallKernel with fs := (f.final k).fs, filepool := (f.final k).filepool }

/-- What a read of one byte at the address 0 leaves there. -/
def byteRead (k : Kernel) : List Byte := userBytes ((fileread 0 0 1).final k).mm.mem 0x1000 0 1

theorem call_run {f : Prog Kernel Int} {k : Kernel} {r : Int}
    (hr : (f k).toOption.map Prod.fst = some r) : f k = .ok (r, f.final k) := by
  unfold Prog.final
  cases h : f k with
  | error e =>
    rw [h] at hr
    cases hr
  | ok x =>
    rw [h] at hr
    cases hr
    rfl

theorem smallKernel_reads {k : Kernel} {cs : List (List Byte)} (hrun : ReadRun 0 smallKernel cs k)
    (hmm : k.mm = smallKernel.mm) (hroot : k.root = 0x1000)
    (hr : ((fileread 0 0 1) k).toOption.map Prod.fst = some 1) :
    ReadRun 0 smallKernel (cs ++ [byteRead k]) (after (fileread 0 0 1) k) := by
  have hcall : ReadCall 0 k 0 1 1 ((fileread 0 0 1).final k) :=
    ⟨call_run hr, by rw [hmm, hroot]; exact smallKernel_separate⟩
  have hread := hrun.read 0 1 1 hcall
  rw [hroot] at hread
  exact hread.elsewhere ⟨rfl, rfl⟩

/-- The file is empty. -/
def emptyKernel : Kernel := { smallKernel with fs := (itrunc 1).final smallKernel.fs }

theorem emptyKernel_open : OpenAt emptyKernel 0 1 2 0 ∧ (inoOf emptyKernel.fs 2).size = 0 :=
  smallKernel_open.itrunc

/-- The bytes at the addresses 0 and 1 are written. -/
theorem emptyKernel_writes : WriteRun 0 emptyKernel [userBytes smallKernel.mm.mem 0x1000 0 1,
    userBytes smallKernel.mm.mem 0x1000 1 1]
    (after (filewrite 0 1 1) (after (filewrite 0 0 1) emptyKernel)) := by
  have hmapped : ∀ va < 2, ∀ u < 1, Mapped smallKernel.mm.mem 0x1000 (va + u) := by
    intro va hva u hu
    refine (mapped_iff (userTable_oneEntry (by decide) (by decide)).nonzero).mpr ?_
    exact userMapped_oneEntry (by decide) (by decide) (by decide) (by rw [PGSIZE_eq]; omega)
  have h1 : WriteCall 0 emptyKernel 0 1 1 ((filewrite 0 0 1).final emptyKernel) :=
    ⟨call_run (by decide +kernel), hmapped 0 (by decide)⟩
  have h2 : WriteCall 0 (after (filewrite 0 0 1) emptyKernel) 1 1 1
      ((filewrite 0 1 1).final (after (filewrite 0 0 1) emptyKernel)) :=
    ⟨call_run (by decide +kernel), hmapped 1 (by decide)⟩
  have hfirst : WriteRun 0 emptyKernel _ (after (filewrite 0 0 1) emptyKernel) :=
    (WriteRun.start.write 0 1 1 h1).elsewhere ⟨rfl, rfl⟩
  exact (hfirst.write 1 1 1 h2).elsewhere ⟨rfl, rfl⟩

/-- Two bytes are written and read one by one. -/
theorem chunks_do_not_matter_for_two_bytes :
    contents (after (filewrite 0 1 1) (after (filewrite 0 0 1) emptyKernel)).fs 2 =
        [userBytes smallKernel.mm.mem 0x1000 0 1, userBytes smallKernel.mm.mem 0x1000 1 1].flatten ∧
      contents smallKernel.fs 2 = [byteRead smallKernel,
        byteRead (after (fileread 0 0 1) smallKernel)].flatten := by
  obtain ⟨hopen, hsize⟩ := emptyKernel_open
  refine ⟨((chunks_do_not_matter hopen).1 hsize _ _ emptyKernel_writes (by decide)).2.1, ?_⟩
  have hfirst := smallKernel_reads .start rfl rfl (by decide +kernel)
  have hsecond := smallKernel_reads hfirst rfl rfl (by decide +kernel)
  have hlast : ReadCall 0 (after (fileread 0 0 1) (after (fileread 0 0 1) smallKernel)) 0 1 0
      ((fileread 0 0 1).final (after (fileread 0 0 1) (after (fileread 0 0 1) smallKernel))) :=
    ⟨call_run (by decide +kernel), smallKernel_separate⟩
  have hoff : ((after (fileread 0 0 1) (after (fileread 0 0 1) smallKernel)).filepool 0).off =
      2 := by decide +kernel
  exact ((chunks_do_not_matter smallKernel_open).2 smallKernel_clean _ _ _ 0 1 hsecond hlast
    (by decide) (by rw [hoff]; decide)).1.symm

/-- After one byte, a read of `2 ^ 32 - 1` bytes gives 0, and the second byte is not read. -/
theorem a_long_read_ends_too_early : OpenAt smallKernel 0 1 2 0 ∧ DataClean smallKernel.fs 2 ∧
    ∃ cs k' k'', ReadRun 0 smallKernel cs k' ∧ ReadCall 0 k' 0 (2 ^ 32 - 1) 0 k'' ∧
    cs.flatten ≠ contents smallKernel.fs 2 := by
  have hlast : ReadCall 0 (after (fileread 0 0 1) smallKernel) 0 (2 ^ 32 - 1) 0
      ((fileread 0 0 (2 ^ 32 - 1)).final (after (fileread 0 0 1) smallKernel)) :=
      ⟨call_run (by decide +kernel), smallKernel_separate⟩
  refine ⟨smallKernel_open, smallKernel_clean, _, _, _,
    smallKernel_reads .start rfl rfl (by decide +kernel), hlast, fun hc => ?_⟩
  have hlen := congrArg List.length hc
  unfold contents at hlen
  have hsize : (inoOf smallKernel.fs 2).size = 2 :=
    congrArg Ino.size ((@small_inoOf (binit smallDisk)).2 2 (Or.inl rfl))
  rw [length_bytesAt, hsize] at hlen
  simp [byteRead] at hlen

end ThuKernel
