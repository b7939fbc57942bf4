-- The system calls that copy to the user: the range that each one comes to copy, and that
-- this range decides whether the call respects the permissions, whatever bytes the user has.
import ThuKernel.Kernel.Permissions

namespace ThuKernel

variable {lk : Link} {E : Stop → Prop} {s s' : Mm} {root va a u n : Nat} {b : Byte}
  {src : List Byte} {keep : Nat → Prop} {k k' : Kernel}

/-! ## Another byte in a user page -/

/-- The memory with another byte at a physical address. -/
def Mm.poke (s : Mm) (x : Nat) (b : Byte) : Mm := { s with mem := Function.update s.mem x b }

def Kernel.poke (k : Kernel) (x : Nat) (b : Byte) : Kernel := { k with mm := k.mm.poke x b }

/-- The memory differs in bytes of user pages alone. -/
structure OtherBytes (root : Nat) (s t : Mm) : Prop where
  freelist : t.freelist = s.freelist
  same : SameOn PGSIZE (fun p => ∀ a, UserMapped s.mem root a → frameOf s.mem root a ≠ p)
    s.mem t.mem

theorem userAddr_eq (h : UserMapped s.mem root a) :
    userAddr s.mem root a = frameOf s.mem root a + a % PGSIZE := by
  unfold userAddr
  rw [userPage_mod, if_neg (by have := h.1; omega), if_pos h.2]

theorem Spares.userAddr (h : Spares keep root s s') (ha : UserMapped s.mem root a) :
    userAddr s'.mem root a = userAddr s.mem root a := by
  rw [userAddr_eq ha, userAddr_eq ((h.mapped a).mpr ha), h.frame ha]

theorem OtherBytes.refl (root : Nat) (s : Mm) : OtherBytes root s s := ⟨rfl, SameOn.refl⟩

theorem Spares.apart (h : Spares keep root s s') (ha : TablesApart s.mem root) :
    TablesApart s'.mem root := by
  intro v hv hc
  have hv' := (h.mapped v).mp hv
  rw [h.frame hv', h.tables] at hc
  exact ha v hv' hc

/-- The page table is the same. -/
theorem OtherBytes.spares {t : Mm} (h : OtherBytes root s t) (ht : UserTable s.mem root)
    (ha : TablesApart s.mem root) :
    Spares (fun _ => False) root s t := by
  have hkeep : ∀ p, TableOf s.mem root p → ∀ a, UserMapped s.mem root a →
      frameOf s.mem root a ≠ p := by
    rintro p hp a hua rfl
    exact ha a hua hp
  refine ⟨fun a => leafOf_frame ht.page h.same hkeep, fun a => ?_, fun _ _ hc => hc.elim⟩
  exact tableOf_congr (fun d hd n hn => tableAt_frame ht.page h.same hkeep hd hn) a

theorem OtherBytes.poke (h : UserMapped s.mem root a) (b : Byte) :
    OtherBytes root s (s.poke (userAddr s.mem root a) b) := by
  refine ⟨rfl, fun x hx => Function.update_of_ne ?_ ..⟩
  rintro rfl
  apply hx a h
  rw [userAddr_eq h]
  exact (page_of_inside (isPage_PTE2PA _).aligned (Nat.mod_lt _ (by decide))).symm

/-! ## Copies -/

theorem copyoutLoop_freelist (root fuel va : Nat) (src : List Byte) :
    Runs (fun _ => True) (copyoutLoop root fuel va src) s fun _ s' => s'.freelist = s.freelist := by
  induction fuel generalizing va src s with
  | zero => trivial
  | succ fuel ih =>
    unfold copyoutLoop
    split
    · rfl
    · rw [Runs.bind_iff, runs_walkaddr]
      split
      · rfl
      · rw [Runs.bind_iff, Runs.modify_iff]
        exact ih _ _

/-- A byte that a copy overwrites makes no difference, and another one stays. -/
theorem copyout_poke (ht : UserTable s.mem root) (ha : TablesApart s.mem root)
    (hua : UserMapped s.mem root a) {m : Nat}
    (hm : UpTo (fun u => UserMapped s.mem root (va + u)) src.length m) (b : Byte) :
    ∃ r s' t', copyout root va src s = .ok (r, s') ∧
    copyout root va src (s.poke (userAddr s.mem root a) b) = .ok (r, t') ∧
      (r = 0 ↔ m = src.length) ∧ ((∃ u < m, (va + u) % 2 ^ 64 = a % 2 ^ 64) → t' = s') ∧
      ((∀ u < m, (va + u) % 2 ^ 64 ≠ a % 2 ^ 64) → t' = s'.poke (userAddr s.mem root a) b) := by
  have hother := (OtherBytes.poke hua b).spares ht ha
  have ht' : UserTable (s.poke (userAddr s.mem root a) b).mem root := ht.congr hother.leaf
  have ha' : TablesApart (s.poke (userAddr s.mem root a) b).mem root := hother.apart ha
  have hmapped : ∀ {mem : Bytes}, NonzeroFrames mem root → ∀ u, UserMapped mem root (va + u) ↔
      Mapped mem root (va + u) :=
    fun hz u => (mapped_iff hz).symm
  have hm' := hm.congr fun u => (hother.mapped (va + u)).symm
  have hruns := copyout_upTo (E := fun _ => False) (ht.separate ha) (hm.congr (hmapped ht.nonzero))
  have hruns' := copyout_upTo (E := fun _ => False) (ht'.separate ha')
    (hm'.congr (hmapped ht'.nonzero))
  obtain ⟨r, s', hok, hr, h⟩ := hruns.exists_ok fun _ he => he
  obtain ⟨r', t', hok', hr', h'⟩ := hruns'.exists_ok fun _ he => he
  have hfree : t'.freelist = s'.freelist :=
    ((copyoutLoop_freelist ..).of_ok hok').trans ((copyoutLoop_freelist ..).of_ok hok).symm
  have hlen : (src.take m).length = m := by
    rw [List.length_take]
    have := hm.le
    omega
  have haddr : ∀ u < m, userAddr (s.poke (userAddr s.mem root a) b).mem root (va + u) =
      userAddr s.mem root (va + u) :=
    fun u hu => hother.userAddr (hm.all u hu)
  -- A byte that was copied is the same in both, and another one is as before.
  have hat : ∀ x, (∃ u < m, x = userAddr s.mem root (va + u)) → t'.mem x = s'.mem x := by
    rintro x ⟨u, hu, rfl⟩
    have h1 := h.bytes rfl u (by omega)
    have h2 := h'.bytes rfl u (by omega)
    rw [haddr u hu] at h2
    exact Option.some.inj (h2.trans h1.symm)
  have hother' : ∀ x, (∀ u < m, x ≠ userAddr s.mem root (va + u)) →
      s'.mem x = s.mem x ∧ t'.mem x = Function.update s.mem (userAddr s.mem root a) b x := by
    intro x hx
    refine ⟨h.frame x fun u hu _ => hx u (by omega), h'.frame x fun u hu _ => ?_⟩
    rw [haddr u (by omega)]
    exact hx u (by omega)
  refine ⟨r, s', t', hok, ?_, ?_, ?_, ?_⟩
  · rw [hok', hr', hr]
  · rw [hr]
    split
    · exact iff_of_true rfl ‹_›
    · exact iff_of_false (by decide) ‹_›
  · rintro ⟨v, hv, heq⟩
    have hmod : ∀ c, userAddr s.mem root (c % 2 ^ 64) = userAddr s.mem root c :=
      fun c => userAddr_mod s.mem root c 0
    have hcopied : userAddr s.mem root a = userAddr s.mem root (va + v) := by
      rw [← hmod a, ← heq, hmod]
    have hmem : t'.mem = s'.mem := by
      funext x
      by_cases hx : ∃ u < m, x = userAddr s.mem root (va + u)
      · exact hat x hx
      · have hx : ∀ u < m, x ≠ userAddr s.mem root (va + u) := fun u hu hc => hx ⟨u, hu, hc⟩
        have hxa : x ≠ userAddr s.mem root a := by
          rw [hcopied]
          exact hx v hv
        rw [(hother' x hx).1, (hother' x hx).2, Function.update_of_ne hxa]
    cases s'
    cases t'
    cases hmem
    cases hfree
    rfl
  · intro hno
    have hmem : t'.mem = Function.update s'.mem (userAddr s.mem root a) b := by
      funext x
      by_cases hx : ∃ u < m, x = userAddr s.mem root (va + u)
      · rw [hat x hx, Function.update_of_ne]
        obtain ⟨u, hu, rfl⟩ := hx
        intro hc
        exact hno u hu ((ht.separate ha).userAddr_inj
          ((mapped_iff ht.nonzero).mpr (hm.all u hu)) hc)
      · have hx : ∀ u < m, x ≠ userAddr s.mem root (va + u) := fun u hu hc => hx ⟨u, hu, hc⟩
        rw [(hother' x hx).2]
        by_cases hxa : x = userAddr s.mem root a
        · rw [hxa, Function.update_self, Function.update_self]
        · rw [Function.update_of_ne hxa, Function.update_of_ne hxa, (hother' x hx).1]
    cases s'
    cases t'
    cases hmem
    cases hfree
    rfl

/-- What a copy reaches, it overwrites. -/
theorem copyout_reached (ht : UserTable s.mem root) (ha : TablesApart s.mem root)
    (hu : Reached s.mem root va src.length u) (b : Byte) :
    copyout root va src (s.poke (userAddr s.mem root (va + u)) b) = copyout root va src s := by
  obtain ⟨m, hm⟩ := UpTo.exists (fun u => UserMapped s.mem root (va + u)) src.length
  obtain ⟨r, s', t', hok, hok', _, hsame, _⟩ := copyout_poke ht ha (hu.2 u (Nat.le_refl u)) hm b
  rw [hok, hok', hsame ⟨u, hm.lt_iff.mpr hu, rfl⟩]

/-! ## Reading a file -/

theorem bind_congr_ok {σ α β : Type} {f : Prog σ α} {g g' : α → Prog σ β} {t : σ}
    (h : ∀ a t', f t = .ok (a, t') → g a t' = g' a t') :
    (f >>= g) t = (f >>= g') t := by
  cases hf : f t with
  | error e => rw [Prog.bind_error hf, Prog.bind_error hf]
  | ok r => rw [Prog.bind_ok hf, Prog.bind_ok hf, h _ _ hf]

/-- The loop of `readi` overwrites each byte up to its end. -/
theorem readiLoop_reached (ht : UserTable s.mem root) (ha : TablesApart s.mem root)
    (ip fuel tot off : Nat) (htot : tot ≤ u) (hun : u < n)
    (hall : ∀ v ≤ u, UserMapped s.mem root (va + v)) (b : Byte) (fs : Fs) :
    readiLoop ip n fuel tot off (.user (s.poke (userAddr s.mem root (va + u)) b) root va) fs =
      readiLoop ip n fuel tot off (.user s root va) fs := by
  induction fuel generalizing tot off s fs with
  | zero => rfl
  | succ fuel ih =>
    unfold readiLoop
    rw [if_pos (by omega), if_pos (by omega)]
    refine bind_congr_ok fun addr fs₁ _ => bind_congr_ok fun x fs₂ _ =>
      bind_congr_ok fun bp fs₃ _ => bind_congr_ok fun d fs₄ _ => ?_
    generalize hsrc : d.load (off % BSIZE) (min (n - tot) (BSIZE - off % BSIZE)) = src
    have hlen : src.length = min (n - tot) (BSIZE - off % BSIZE) := by
      rw [← hsrc, Bytes.length_load]
    obtain ⟨m, hm⟩ := UpTo.exists (fun w => UserMapped s.mem root (va + tot + w)) src.length
    obtain ⟨r, s', t', hok, hok', hzero, hsame, hstays⟩ :=
      copyout_poke ht ha (hall u (Nat.le_refl u)) hm b
    have hcopied : either_copyout (.user s root va) tot src = .ok (r, .user s' root va) := by
      unfold either_copyout
      dsimp only
      rw [hok]
    have hcopied' : either_copyout (.user (s.poke (userAddr s.mem root (va + u)) b) root va) tot
        src = .ok (r, .user t' root va) := by
      unfold either_copyout
      dsimp only
      rw [hok']
    rw [hcopied, hcopied']
    by_cases hhit : ∃ w < m, (va + tot + w) % 2 ^ 64 = (va + u) % 2 ^ 64
    · rw [hsame hhit]
    · -- The byte lies behind this copy, which is whole.
      push Not at hhit
      have hbehind : m ≤ u - tot := by
        by_contra hc
        exact hhit (u - tot) (by omega) (by rw [Nat.add_assoc, Nat.add_sub_cancel' htot])
      have hwhole : m = src.length := by
        by_contra hc
        refine hm.stop (lt_of_le_of_ne hm.le hc) ?_
        rw [Nat.add_assoc]
        exact hall _ (by omega)
      obtain rfl := hzero.mpr hwhole
      have hspares : Spares (fun _ => False) root s s' :=
        ((copyout_spares (E := fun _ => False) ht ha hm fun _ (hc : False) => hc.elim).of_ok hok).1
      have hmapped : ∀ v ≤ u, UserMapped s'.mem root (va + v) :=
        fun v hv => (hspares.mapped _).mpr (hall v hv)
      rw [hstays hhit, ← hspares.userAddr (hall u (Nat.le_refl u))]
      have hlift : ∀ dst : Dst,
          (liftM (Except.ok (0, dst) : Except Stop (Int × Dst)) : Prog Fs (Int × Dst)) fs₄ = .ok
          ((0, dst), fs₄) := fun _ => rfl
      rw [Prog.bind_ok (hlift _), Prog.bind_ok (hlift _)]
      refine bind_congr_ok fun _ fs₅ _ => ?_
      rw [if_neg (by decide), if_neg (by decide)]
      exact ih (ht.congr hspares.leaf) (hspares.apart ha) _ _ (by omega) hmapped fs₅

theorem readi_reached (ht : UserTable s.mem root) (ha : TablesApart s.mem root) (fs : Fs)
    (ip off m : Nat) (hu : Reached s.mem root va (readAmount (fs.itable ip).size off m) u)
    (b : Byte) :
    readi ip (.user (s.poke (userAddr s.mem root (va + u)) b) root va) off m fs =
    readi ip (.user s root va) off m fs := by
  obtain ⟨hlt, hall⟩ := hu
  unfold readi
  have hget : getInode ip fs = .ok (fs.itable ip, fs) := rfl
  rw [Prog.bind_ok hget, Prog.bind_ok hget]
  dsimp only
  unfold readAmount at hlt
  split at hlt
  · exact absurd hlt (Nat.not_lt_zero u)
  · rename_i hin
    rw [if_neg hin, if_neg hin]
    exact readiLoop_reached ht ha _ _ _ _ (Nat.zero_le u) hlt hall b fs

/-! ## The calls, one by one -/

theorem onMm_bind {α β : Type} (f : Prog Mm α) (g : α → Prog Kernel β) (k : Kernel) :
    (onMm f >>= g) k =
    match f k.mm with
    | .ok (x, m) => g x { k with mm := m }
    | .error e => .error e := by
  cases hf : f k.mm with
  | error e => exact Prog.bind_error (by unfold onMm Prog.on; rw [hf])
  | ok r => exact Prog.bind_ok (by unfold onMm Prog.on; rw [hf])

theorem onFs_bind {α β : Type} (f : Prog Fs α) (g : α → Prog Kernel β) (k : Kernel) :
    (onFs f >>= g) k =
    match f k.fs with
    | .ok (x, t) => g x { k with fs := t }
    | .error e => .error e := by
  cases hf : f k.fs with
  | error e => exact Prog.bind_error (by unfold onFs Prog.on; rw [hf])
  | ok r => exact Prog.bind_ok (by unfold onFs Prog.on; rw [hf])

theorem onFs_ok {α : Type} {f : Prog Fs α} {x : α} {t : Fs} (h : f k.fs = .ok (x, t)) :
    onFs f k = .ok (x, { k with fs := t }) := by
  unfold onFs Prog.on
  rw [h]

/-- What `fstat` does of a file that it knows: it stops before it copies, or comes to the copy. -/
theorem sys_fstat_form {fd f ip : Nat} (va : Nat) (h : StatReady k fd) (hfd : fd < FD_MAX)
    (hf : (k.pool k.current_proc).files fd = some f) (hip : (k.filepool f).ip = some ip)
    (hknown : KnownType (k.fs.itable ip)) (sst : Bytes) :
    (∃ e, ∀ m, sys_fstat sst fd va { k with mm := m } = .error e) ∨
    ∃ fs src, src.length = STAT_SIZE ∧
      ∀ m, sys_fstat sst fd va { k with mm := m } =
      (onMm (copyout (k.pool k.current_proc).pagetable va src) >>= fun r =>
        if r < 0 then pure (-1) else pure 0) { k with mm := m, fs := fs } := by
  cases hroot : root_dir k.fs with
  | error e =>
    refine Or.inl ⟨e, fun m => ?_⟩
    unfold sys_fstat
    rw [if_neg (by omega), onFs_bind]
    dsimp only
    rw [hroot]
  | ok x =>
    obtain ⟨dp, s₁⟩ := x
    have hat := (root_dir_at (E := fun _ => True) h.root (Or.inr fun _ => trivial)).of_ok hroot
    have htype := hat.type h.root (h.entry f ip hf hip)
    obtain ⟨_, _, hcount, rfl, u, rfl, _⟩ :=
      (countLinks_runs (E := fun _ => False) ((hat.rereads.rootOk h.root).isDir hat.entry)
      (s₁.itable ip).inum).exists_ok fun _ he => he
    refine Or.inr ⟨{ s₁ with bio := u }, statBytes sst (s₁.itable ip).dev (s₁.itable ip).inum
      (if (s₁.itable ip).type = T_DIR then DIR else FILE)
      (entriesFor s₁ ROOTINO (s₁.itable ip).inum 0), length_statBytes .., fun m => ?_⟩
    have hstat : statInode fd { k with mm := m, fs := s₁ } =
        .ok (ip, { k with mm := m, fs := s₁ }) := by
      have hfile : getFile f { k with mm := m, fs := s₁ } = .ok (k.filepool f,
          { k with mm := m, fs := s₁ }) := rfl
      have hat : fileAt fd { k with mm := m, fs := s₁ } = .ok (f, { k with mm := m, fs := s₁ }) :=
        fileAt_ok (Int.natCast_nonneg fd) (by exact_mod_cast hfd) hf
      unfold statInode
      rw [Prog.bind_ok hat, Prog.bind_ok hfile, hip]
      rfl
    unfold sys_fstat
    have hget : ∀ t : Fs, getInode ip t = .ok (t.itable ip, t) := fun _ => rfl
    rw [if_neg (by omega)]
    refine (Prog.bind_ok (onFs_ok (k := { k with mm := m }) hroot)).trans
      ((Prog.bind_ok hstat).trans ?_)
    refine (Prog.bind_ok (onFs_ok (k := { k with mm := m, fs := s₁ }) (hget s₁))).trans ?_
    refine (Prog.bind_ok (onFs_ok (k := { k with mm := m, fs := s₁ }) hcount)).trans ?_
    refine (Prog.bind_ok (onFs_ok (k := { k with mm := m, fs := { s₁ with bio := u } })
      (hget _))).trans ?_
    dsimp only
    rw [if_neg]
    · rfl
    · rw [htype]
      unfold KnownType at hknown
      tauto

section Reached

variable (ht : UserTable k.mm.mem (k.pool k.current_proc).pagetable)
  (ha : TablesApart k.mm.mem (k.pool k.current_proc).pagetable)

include ht ha

/-- A copy, as a step of a call. -/
theorem copied_reached {α : Type} {g : Int → Prog Kernel α}
    (hu : Reached k.mm.mem (k.pool k.current_proc).pagetable va src.length u) (b : Byte) :
    (onMm (copyout (k.pool k.current_proc).pagetable va src) >>= g)
        (k.poke (userAddr k.mm.mem (k.pool k.current_proc).pagetable (va + u)) b) =
      (onMm (copyout (k.pool k.current_proc).pagetable va src) >>= g) k := by
  rw [onMm_bind, onMm_bind]
  unfold Kernel.poke
  dsimp only
  rw [copyout_reached ht ha hu]

theorem console_read_reached (str : Bytes)
    (hu : Reached k.mm.mem (k.pool k.current_proc).pagetable va n u) (b : Byte) :
    console_read str va n (k.poke (userAddr k.mm.mem (k.pool k.current_proc).pagetable (va + u))
      b) = console_read str va n k := by
  have hlen : (str.load 0 n).length = n := Bytes.length_load ..
  exact copied_reached ht ha (g := fun _ => pure (n : Int)) (by rwa [hlen]) b

theorem fileread_reached {f ip : Nat} (hip : (k.filepool f).ip = some ip)
    (hvalid : (k.fs.itable ip).valid = true)
    (hu : Reached k.mm.mem (k.pool k.current_proc).pagetable va
      (readAmount (k.fs.itable ip).size (k.filepool f).off (n % 2 ^ 32)) u) (b : Byte) :
    fileread f va n (k.poke (userAddr k.mm.mem (k.pool k.current_proc).pagetable (va + u)) b) =
    fileread f va n k := by
  have hread : ∀ k' : Kernel, (k'.filepool f).ip = some ip → (k'.fs.itable ip).valid = true →
      fileread f va n k' =
      (onFs (readi ip (.user k'.mm (k'.pool k'.current_proc).pagetable va) (k'.filepool f).off
      (n % 2 ^ 32)) >>= fun x => do
        putDst x.2
        advance f x.1
        pure x.1) k' := by
    intro k' hip hvalid
    have hfile : getFile f k' = .ok (k'.filepool f, k') := rfl
    have hderef : deref (some ip) k' = .ok (ip, k') := rfl
    have hok : ivalid ip k'.fs = .ok ((), k'.fs) := by
      unfold ivalid
      have hget : (get : Prog Fs Fs) k'.fs = .ok (k'.fs, k'.fs) := rfl
      rw [Prog.bind_ok hget, if_pos hvalid]
      rfl
    unfold fileread
    rw [Prog.bind_ok hfile, hip, Prog.bind_ok hderef, onFs_bind, hok]
    rfl
  rw [hread k hip hvalid, hread (k.poke _ b) hip hvalid, onFs_bind, onFs_bind]
  unfold Kernel.poke
  dsimp only
  rw [readi_reached ht ha _ _ _ _ hu]
  have hdst : Runs (fun _ => True)
      (readi ip (.user k.mm (k.pool k.current_proc).pagetable va) (k.filepool f).off (n % 2 ^ 32))
      k.fs fun r _ => ∃ s', r.2 = .user s' (k.pool k.current_proc).pagetable va ∧
        Spares (fun _ => False) (k.pool k.current_proc).pagetable k.mm s' :=
    readi_spares k.fs ip _ _ ⟨ht, ha, fun _ hc => hc.elim⟩
  cases hrun : readi ip (.user k.mm (k.pool k.current_proc).pagetable va) (k.filepool f).off
    (n % 2 ^ 32) k.fs with
  | error e => rfl
  | ok x =>
    obtain ⟨⟨r, dst⟩, fs'⟩ := x
    obtain ⟨s', rfl, _⟩ := hdst.of_ok hrun
    rfl

theorem pipereadTurn_reached {pi r size : Nat}
    (hu : Reached k.mm.mem (k.pool k.current_proc).pagetable (va + r)
    (turnSize (k.pipes pi) n r size) u) (b : Byte) :
    pipereadTurn pi va n r size (k.poke (userAddr k.mm.mem (k.pool k.current_proc).pagetable
      (va + r + u)) b) =
      pipereadTurn pi va n r size k := by
  have hne : r < n ∧ size ≠ 0 ∧ (k.pipes pi).nread ≠ (k.pipes pi).nwrite := by
    by_contra hc
    have := hu.1
    unfold turnSize at this
    rw [if_neg hc] at this
    exact Nat.not_lt_zero u this
  unfold turnSize at hu
  rw [if_pos hne] at hu
  have hpipe : ∀ k' : Kernel, k'.pipes = k.pipes → k'.pool = k.pool →
      k'.current_proc = k.current_proc →
      pipereadTurn pi va n r size k' = (onMm (copyout (k.pool k.current_proc).pagetable (va + r)
        ((k.pipes pi).data.load ((k.pipes pi).nread % PIPESIZE) (readSize (k.pipes pi) n r))) >>=
        fun e =>
          if e < 0 then Prog.panic "copyout"
          else do
            setPipe pi
              { k.pipes pi with nread := ((k.pipes pi).nread + readSize (k.pipes pi) n r) % 2 ^ 32 }
            pure (.next (.read pi va n (r + readSize (k.pipes pi) n r)
              (readSize (k.pipes pi) n r)))) k' := by
    intro k' hpipes hpool hcur
    have hget : getPipe pi k' = .ok (k.pipes pi, k') := by
      rw [← hpipes]
      rfl
    have hproc : curr_proc k' = .ok (k.pool k.current_proc, k') := by
      rw [← hpool, ← hcur]
      rfl
    unfold pipereadTurn
    rw [if_pos ⟨hne.1, hne.2.1⟩, Prog.bind_ok hget, if_neg hne.2.2]
    dsimp only
    rw [Prog.bind_ok hproc]
  rw [hpipe k rfl rfl rfl, hpipe (k.poke _ b) rfl rfl rfl]
  have hlen : ((k.pipes pi).data.load ((k.pipes pi).nread % PIPESIZE)
      (readSize (k.pipes pi) n r)).length = readSize (k.pipes pi) n r :=
    Bytes.length_load ..
  exact copied_reached ht ha (by rwa [hlen]) b

theorem copyoutMail_reached {len : Int} (mail : Bytes)
    (hu : Reached k.mm.mem (k.pool k.current_proc).pagetable va (copySize len) u) (b : Byte) :
    copyoutMail (k.pool k.current_proc).pagetable va mail len
        (k.poke (userAddr k.mm.mem (k.pool k.current_proc).pagetable (va + u)) b) =
      copyoutMail (k.pool k.current_proc).pagetable va mail len k := by
  have hlen : (mail.load 0 (copySize len)).length = copySize len := Bytes.length_load ..
  have hcopy : onMm (copyout (k.pool k.current_proc).pagetable va (mail.load 0 (copySize len)))
      (k.poke (userAddr k.mm.mem (k.pool k.current_proc).pagetable (va + u)) b) =
        onMm (copyout (k.pool k.current_proc).pagetable va (mail.load 0 (copySize len))) k := by
    have := copied_reached ht ha (g := pure) (by rwa [hlen]) b
    rwa [bind_pure] at this
  unfold copyoutMail
  dsimp only
  split
  · exact hcopy
  · -- The bytes that are read differ, but not how many there are.
    have hua := hu.2 u (Nat.le_refl u)
    have hother := (OtherBytes.poke hua b).spares ht ha
    obtain ⟨m, hm⟩ :=
      UpTo.exists (fun u => UserMapped k.mm.mem (k.pool k.current_proc).pagetable (va + u))
        (copySize len)
    have hm' := hm.congr fun u => (hother.mapped (va + u)).symm
    have hruns := copyin_upTo (E := fun _ => False) (hm.congr fun u => (mapped_iff ht.nonzero).symm)
    have hruns' := copyin_upTo (E := fun _ => False) (hm'.congr fun u =>
      (mapped_iff (ht.congr hother.leaf).nonzero).symm)
    obtain ⟨_, _, hok, rfl, rfl⟩ := hruns.exists_ok fun _ he => he
    obtain ⟨_, _, hok', rfl, rfl⟩ := hruns'.exists_ok fun _ he => he
    rw [onMm_bind, onMm_bind, hok]
    unfold Kernel.poke
    dsimp only
    rw [hok']
    dsimp only
    rw [length_userBytes, length_userBytes]
    split
    · rfl
    · exact hcopy

theorem mail_read_reached {len : Int}
    (hu : Reached k.mm.mem (k.pool k.current_proc).pagetable va
    (mailAmount (k.pool k.current_proc).mailbox len) u) (b : Byte) :
    mail_read va len (k.poke (userAddr k.mm.mem (k.pool k.current_proc).pagetable (va + u)) b) =
    mail_read va len k := by
  have hne : ¬ ((k.pool k.current_proc).mailbox.tail = (k.pool k.current_proc).mailbox.head ∨
      len = 0) := by
    intro hc
    have := hu.1
    unfold mailAmount at this
    rw [if_pos hc] at this
    exact Nat.not_lt_zero u this
  unfold mailAmount at hu
  rw [if_neg hne] at hu
  push Not at hne
  have hproc : ∀ k' : Kernel, k'.pool = k.pool → k'.current_proc = k.current_proc →
      curr_proc k' = .ok (k.pool k.current_proc, k') := by
    intro k' hpool hcur
    rw [← hpool, ← hcur]
    rfl
  unfold mail_read
  rw [Prog.bind_ok (hproc k rfl rfl), Prog.bind_ok (hproc (k.poke _ b) rfl rfl)]
  dsimp only
  rw [if_neg hne.1, if_neg hne.2]
  have hcopy :=
    copyoutMail_reached ht ha ((k.pool k.current_proc).mailbox.mails
      (k.pool k.current_proc).mailbox.head) hu b
  cases hrun : copyoutMail (k.pool k.current_proc).pagetable va
      ((k.pool k.current_proc).mailbox.mails (k.pool k.current_proc).mailbox.head) _ k with
  | error e => rw [Prog.bind_error hrun, Prog.bind_error (hcopy.trans hrun)]
  | ok x => rw [Prog.bind_ok hrun, Prog.bind_ok (hcopy.trans hrun)]

theorem sys_fstat_reached {fd : Nat} (h : StatReady k fd)
    (hu : Reached k.mm.mem (k.pool k.current_proc).pagetable va (statSize k fd) u) (sst : Bytes)
    (b : Byte) :
    sys_fstat sst fd va (k.poke (userAddr k.mm.mem (k.pool k.current_proc).pagetable (va + u)) b) =
    sys_fstat sst fd va k := by
  have hpos : statSize k fd ≠ 0 := Nat.ne_of_gt (Nat.zero_lt_of_lt hu.1)
  cases hf : (k.pool k.current_proc).files fd with
  | none =>
    unfold statSize at hpos
    rw [hf] at hpos
    exact absurd rfl hpos
  | some f =>
    cases hip : (k.filepool f).ip with
    | none =>
      unfold statSize at hpos
      rw [hf, Option.bind_some, hip] at hpos
      exact absurd rfl hpos
    | some ip =>
      have hfd : fd < FD_MAX := by
        by_contra hc
        unfold statSize at hpos
        rw [hf, Option.bind_some, hip] at hpos
        dsimp only at hpos
        rw [if_neg fun hk => hc hk.1] at hpos
        exact hpos rfl
      rw [statSize_eq hfd hf hip] at hu hpos
      have hknown : KnownType (k.fs.itable ip) := by
        by_contra hc
        rw [if_neg hc] at hpos
        exact hpos rfl
      rw [if_pos hknown] at hu
      rcases sys_fstat_form va h hfd hf hip hknown sst with ⟨e, he⟩ | ⟨fs, src, hlen, hform⟩
      · exact (he _).trans (he k.mm).symm
      · refine (hform _).trans (Eq.trans ?_ (hform k.mm).symm)
        exact copied_reached (k := { k with fs := fs }) ht ha (by rwa [hlen]) b

end Reached

/-! ## Pipes -/

/-- The memory after `kalloc` and the `memset` of `pipealloc`. -/
def Mm.taken (s : Mm) : Mm :=
  ⟨(s.mem.fill s.freelist PGSIZE 5).fill s.freelist PGSIZE 0, s.mem.get64 s.freelist⟩

/-- What no step reads and writes makes no difference to the page that is taken. -/
theorem taken_poke {x : Nat} (hp : s.freelist % PGSIZE = 0) (hx : x / PGSIZE * PGSIZE ≠ s.freelist)
    (b : Byte) :
    (s.poke x b).taken = s.taken.poke x b := by
  have hfar : x < s.freelist ∨ s.freelist + PGSIZE ≤ x := by
    simp only [PGSIZE_eq] at hp hx ⊢
    omega
  have hnext : Bytes.get64 (Function.update s.mem x b) s.freelist = s.mem.get64 s.freelist := by
    refine Bytes.getLE_congr fun i hi => Function.update_of_ne ?_ ..
    simp only [PGSIZE_eq] at hfar
    omega
  have hmem : (Bytes.fill (Function.update s.mem x b) s.freelist PGSIZE 5).fill
      s.freelist PGSIZE 0 =
      Function.update ((s.mem.fill s.freelist PGSIZE 5).fill s.freelist PGSIZE 0) x b := by
    funext y
    by_cases hy : y = x
    · rw [hy, Function.update_self, Bytes.fill_outside hfar, Bytes.fill_outside hfar,
        Function.update_self]
    · rw [Function.update_of_ne hy]
      unfold Bytes.fill
      rw [Function.update_of_ne hy]
  unfold Mm.taken Mm.poke
  dsimp only
  rw [hnext, hmem]

theorem filealloc_ok (k : Kernel) :
    ∃ r fp, ∀ m, filealloc { k with mm := m } = .ok (r, { k with mm := m, filepool := fp }) := by
  cases hfree : freeFile k.filepool with
  | none =>
    refine ⟨none, k.filepool, fun m => Runs.eq_ok ?_⟩
    exact (runs_filealloc_none (k := { k with mm := m }) hfree).mpr ⟨rfl, rfl⟩
  | some i =>
    refine ⟨some i, Function.update k.filepool i { k.filepool i with ref := 1 },
      fun m => Runs.eq_ok ?_⟩
    exact (runs_filealloc_some (k := { k with mm := m }) hfree).mpr ⟨rfl, rfl⟩

theorem fdalloc_ok (k : Kernel) (f : Nat) :
    fdalloc f k = .ok (firstFd (k.pool k.current_proc).files, withFd k f) := by
  exact Runs.eq_ok (runs_fdalloc.mpr ⟨rfl, rfl⟩)

/-- With a page, `pipealloc` stops at a file that there is not, or makes the pipe. -/
theorem pipealloc_form (h : k.mm.freelist ≠ 0) (f0 f1 : Option Nat) :
    (∃ e, ∀ m, m.freelist = k.mm.freelist → pipealloc f0 f1 { k with mm := m } = .error e) ∨
      ∃ a b fp pipes, f0 = some a ∧ f1 = some b ∧ ∀ m, m.freelist = k.mm.freelist →
        pipealloc f0 f1 { k with mm := m } =
        .ok (0, { k with mm := m.taken, filepool := fp, pipes := pipes }) := by
  by_cases hnone : f0 = none ∨ f1 = none
  · refine Or.inl ⟨.fault "null pointer",
      fun m hm => Runs.error_of_not (Q := fun _ _ => False) ?_ fun _ _ hc => hc⟩
    rw [runs_pipealloc, runs_onMm]
    refine runs_kalloc.mpr ⟨fun hc => absurd (hm ▸ hc) h,
      fun hne => ⟨fun hc => absurd hc hne, fun _ => ?_⟩⟩
    rw [runs_onMm, memset, Runs.modify_iff]
    refine ⟨fun _ => rfl, ?_⟩
    rintro a b _ rfl rfl _
    rcases hnone with hc | hc
    · cases hc
    · cases hc
  · push Not at hnone
    obtain ⟨a, rfl⟩ := Option.ne_none_iff_exists'.mp hnone.1
    obtain ⟨b, rfl⟩ := Option.ne_none_iff_exists'.mp hnone.2
    let fp := Function.update k.filepool a ((k.filepool a).onPipe k.mm.freelist false)
    refine Or.inr ⟨a, b, Function.update fp b ((fp b).onPipe k.mm.freelist true),
      Function.update k.pipes k.mm.freelist emptyPipe, rfl, rfl, fun m hm => Runs.eq_ok ?_⟩
    rw [runs_pipealloc, runs_onMm]
    refine runs_kalloc.mpr ⟨fun hc => absurd (hm ▸ hc) h,
      fun hne => ⟨fun hc => absurd hc hne, fun _ => ?_⟩⟩
    rw [runs_onMm, memset, Runs.modify_iff]
    refine ⟨fun hc => (by rcases hc with hc | hc <;> cases hc), ?_⟩
    rintro _ _ _ ⟨⟩ ⟨⟩ rfl
    unfold Mm.taken
    dsimp only
    rw [hm]
    exact ⟨rfl, rfl⟩

/-- With a page, `sys_pipe` stops before it copies, or comes to the two copies. -/
theorem sys_pipe_form (h : k.mm.freelist ≠ 0) (lk : Link) (va : Nat) :
    (∃ e, ∀ m, m.freelist = k.mm.freelist → sys_pipe lk va { k with mm := m } = .error e) ∨
      ∃ (k₂ : Kernel) (src0 src1 : List Byte) (rest : Int → Prog Kernel Int), src0.length = 8 ∧
      src1.length = 8 ∧
        ∀ m, m.freelist = k.mm.freelist → sys_pipe lk va { k with mm := m } =
          (onMm (copyout (k.pool k.current_proc).pagetable va src0) >>= fun r0 =>
            if r0 < 0 then pure (-1) >>= rest else onMm
              (copyout (k.pool k.current_proc).pagetable (va + 8) src1) >>= rest)
              { k₂ with mm := m.taken } := by
  obtain ⟨f0, fp₁, h0⟩ := filealloc_ok k
  obtain ⟨f1, fp₂, h1⟩ := filealloc_ok { k with filepool := fp₁ }
  have hstart : ∀ {α : Type} (g : Option Nat → Option Nat → Prog Kernel α) (m : Mm),
      (filealloc >>= fun f0 => filealloc >>= fun f1 => g f0 f1) { k with mm := m } = g f0 f1
      { k with mm := m, filepool := fp₂ } :=
    fun g m => (Prog.bind_ok (h0 m)).trans (Prog.bind_ok (h1 m))
  rcases pipealloc_form (k := { k with filepool := fp₂ }) h f0 f1 with ⟨e, he⟩ | ⟨a, b, fp, pipes,
    rfl, rfl, hmade⟩
  · refine Or.inl ⟨e, fun m hm => ?_⟩
    unfold sys_pipe
    rw [hstart]
    exact Prog.bind_error (he m hm)
  · have hfiles : ∀ (k : Kernel) (f : Nat), ((withFd k f).pool k.current_proc).pagetable =
        (k.pool k.current_proc).pagetable := by
      intro k f
      unfold withFd
      dsimp only
      rw [Function.update_self]
    let k₁ : Kernel := { k with filepool := fp, pipes := pipes }
    have hroot : ((withFd (withFd k₁ a) b).pool k.current_proc).pagetable =
        (k.pool k.current_proc).pagetable :=
      (hfiles (withFd k₁ a) b).trans (hfiles k₁ a)
    refine Or.inr ⟨withFd (withFd k₁ a) b,
      u64Bytes (fdValue (firstFd (k.pool k.current_proc).files)),
      u64Bytes (fdValue (firstFd ((withFd k₁ a).pool k.current_proc).files)), fun r1 =>
        if r1 < 0 then do
          fileclose lk a
          fileclose lk b
          clearFd (firstFd (k.pool k.current_proc).files)
          clearFd (firstFd ((withFd k₁ a).pool k.current_proc).files)
          pure (-1)
        else pure 0, length_u64Bytes _, length_u64Bytes _, fun m hm => ?_⟩
    unfold sys_pipe
    rw [hstart, Prog.bind_ok (hmade m hm)]
    refine (Prog.bind_ok rfl).trans ((Prog.bind_ok rfl).trans ?_)
    refine (Prog.bind_ok (fdalloc_ok _ _)).trans ((Prog.bind_ok (fdalloc_ok _ _)).trans ?_)
    refine (Prog.bind_ok (a := (withFd (withFd k₁ a) b).pool k.current_proc) rfl).trans ?_
    rw [hroot]
    rfl

theorem sys_pipe_reached (ht : UserTable k.mm.mem (k.pool k.current_proc).pagetable)
    (ha : TablesApart k.mm.mem (k.pool k.current_proc).pagetable)
    (ho : k.mm.freelist ≠ 0 → Outside k.mm (k.pool k.current_proc).pagetable k.mm.freelist)
    (lk : Link)
    (hu : Reached k.mm.mem (k.pool k.current_proc).pagetable va
    (if k.mm.freelist = 0 then 0 else 16) u) (b : Byte) :
    sys_pipe lk va (k.poke (userAddr k.mm.mem (k.pool k.current_proc).pagetable (va + u)) b) =
    sys_pipe lk va k := by
  have hfree : k.mm.freelist ≠ 0 := by
    intro hc
    have := hu.1
    rw [if_pos hc] at this
    exact Nat.not_lt_zero u this
  rw [if_neg hfree] at hu
  have hout := ho hfree
  have hua := hu.2 u (Nat.le_refl u)
  -- The memory after the page was taken has the same page table.
  have hsame : SameOn PGSIZE (· ≠ k.mm.freelist) k.mm.mem k.mm.taken.mem :=
    (SameOn.fill hout.aligned (Nat.le_refl _)).trans (SameOn.fill hout.aligned (Nat.le_refl _))
  have hspares : Spares (fun _ => False) (k.pool k.current_proc).pagetable k.mm k.mm.taken :=
    hout.spares ht hsame
  have ht' := ht.congr hspares.leaf
  have ha' := hspares.apart ha
  have hall : ∀ v ≤ u, UserMapped k.mm.taken.mem (k.pool k.current_proc).pagetable (va + v) :=
    fun v hv => (hspares.mapped _).mpr (hu.2 v hv)
  have hfar : userAddr k.mm.mem (k.pool k.current_proc).pagetable (va + u) / PGSIZE * PGSIZE ≠
      k.mm.freelist := by
    have hin :=
      page_of_inside
        (isPage_PTE2PA (leafOf k.mm.mem (k.pool k.current_proc).pagetable (va + u))).aligned
      (Nat.mod_lt (va + u) (by decide))
    rw [userAddr_eq hua]
    exact hin ▸ hout.frame _ hua
  have hpoke := taken_poke hout.aligned hfar b
  rcases sys_pipe_form hfree lk va with ⟨e, he⟩ | ⟨k₂, src0, src1, rest, hlen0, hlen1, hform⟩
  · exact (he (k.mm.poke _ b) rfl).trans (he k.mm rfl).symm
  · refine (hform (k.mm.poke _ b) rfl).trans (Eq.trans ?_ (hform k.mm rfl).symm)
    rw [hpoke, ← hspares.userAddr hua, onMm_bind, onMm_bind]
    dsimp only
    by_cases hfirst : u < 8
    · rw [copyout_reached ht' ha' ⟨by omega, hall⟩]
    · -- The byte is one of the second copy, and the first is whole.
      have hwhole : UpTo (fun v => UserMapped k.mm.taken.mem (k.pool k.current_proc).pagetable
          (va + v)) src0.length 8 :=
        ⟨by omega, fun v hv => hall v (by omega), fun hlt => absurd hlt (by omega)⟩
      obtain ⟨r, s', t', hok, hok', hzero, hhit, hstays⟩ :=
        copyout_poke ht' ha' (hall u (Nat.le_refl u)) hwhole b
      obtain rfl := hzero.mpr hlen0.symm
      rw [hok, hok']
      dsimp only
      rw [if_neg (by decide)]
      by_cases hin : ∃ v < 8, (va + v) % 2 ^ 64 = (va + u) % 2 ^ 64
      · rw [hhit hin]
      · push Not at hin
        have hspares' : Spares (fun _ => False) (k.pool k.current_proc).pagetable k.mm.taken s' :=
          ((copyout_spares (E := fun _ => False) ht' ha' hwhole fun _ hc => hc.elim).of_ok hok).1
        have hreached : Reached s'.mem (k.pool k.current_proc).pagetable (va + 8) src1.length
            (u - 8) := by
          refine ⟨by have := hu.1; omega, fun v hv => (hspares'.mapped _).mpr ?_⟩
          rw [Nat.add_assoc]
          exact hall _ (by omega)
        have hat : va + 8 + (u - 8) = va + u := by omega
        rw [hstays hin, ← hspares'.userAddr (hall u (Nat.le_refl u)), onMm_bind, onMm_bind]
        dsimp only
        rw [← hat, copyout_reached (ht'.congr hspares'.leaf) (hspares'.apart ha') hreached]

/-! ## Permissions -/

/-- The bytes that `fileread` reads of the inode of a file. -/
def fileAmount (k : Kernel) (f len : Nat) : Nat :=
  match (k.filepool f).ip with
  | none => 0
  | some ip => readAmount (k.fs.itable ip).size (k.filepool f).off (len % 2 ^ 32)

theorem fileAmount_eq {f ip : Nat} (h : (k.filepool f).ip = some ip) (len : Nat) :
    fileAmount k f len = readAmount (k.fs.itable ip).size (k.filepool f).off (len % 2 ^ 32) := by
  unfold fileAmount
  rw [h]

/-- The range that a call comes to copy to. -/
def UserCall.copy (k : Kernel) : UserCall → Nat × Nat
  | .console _ va len => (va, len)
  | .file f va len => (va, fileAmount k f len)
  | .pipeTurn pi va n r size => (va + r, turnSize (k.pipes pi) n r size)
  | .fstat _ fd st => (st, statSize k fd)
  | .mailread buf len => (buf, mailAmount (k.pool k.current_proc).mailbox len)
  | .pipe fdarray => (fdarray, if k.mm.freelist = 0 then 0 else 16)

/-- The inode of an open file was read, and what `fstat` looks at is sound. -/
def UserCall.Ready (k : Kernel) : UserCall → Prop
  | .file f _ _ => ∀ ip, (k.filepool f).ip = some ip → (k.fs.itable ip).valid = true
  | .fstat _ fd _ => StatReady k fd
  | _ => True

/-- The user may write to all that the call reaches. -/
def UserCall.Permitted (k : Kernel) (c : UserCall) : Prop :=
  let root := (k.pool k.current_proc).pagetable
  ∀ u, Reached k.mm.mem root (c.copy k).1 (c.copy k).2 u →
    PermitsWrite k.mm.mem root ((c.copy k).1 + u)

/-- Whatever bytes the user pages have, the call changes only those that the user may write to. -/
def UserCall.Respects (lk : Link) (k : Kernel) (c : UserCall) : Prop :=
  let root := (k.pool k.current_proc).pagetable
  ∀ s, OtherBytes root k.mm s → Runs (fun _ => True) (c.run lk) { k with mm := s } fun _ k' =>
    CallSpares (fun a => ¬ PermitsWrite k.mm.mem root a) { k with mm := s } k'

theorem discard_congr {σ α : Type} {f : Prog σ α} {t t' : σ} (h : f t = f t') :
    (discard f : Prog σ Unit) t = (discard f : Prog σ Unit) t' := by
  change Except.bind (f t) _ = Except.bind (f t') _
  rw [h]

section Calls

variable (ht : UserTable k.mm.mem (k.pool k.current_proc).pagetable)
  (ho : k.mm.freelist ≠ 0 → Outside k.mm (k.pool k.current_proc).pagetable k.mm.freelist)

include ht ho

/-- A call changes no byte that it does not reach. -/
theorem UserCall.spares {c : UserCall} (hready : c.Ready k)
    (hb : Buffer keep k.mm (k.pool k.current_proc).pagetable (c.copy k).1 (c.copy k).2) :
    Runs (fun _ => True) (c.run lk) k fun _ k' => CallSpares keep k k' := by
  cases c with
  | console str va len => exact Runs.map_iff.mpr (console_read_spares hb str)
  | file f va len =>
    have hb : Buffer keep k.mm (k.pool k.current_proc).pagetable va (fileAmount k f len) := hb
    exact Runs.map_iff.mpr (fileread_spares hready fun ip hip => fileAmount_eq hip len ▸ hb)
  | pipeTurn pi va n r size => exact Runs.map_iff.mpr (pipereadTurn_spares hb)
  | fstat sst fd st => exact Runs.map_iff.mpr (sys_fstat_spares hready hb sst)
  | mailread buf len => exact Runs.map_iff.mpr (mail_read_spares hb)
  | pipe fdarray =>
    have hb : Buffer keep k.mm (k.pool k.current_proc).pagetable fdarray
        (if k.mm.freelist = 0 then 0 else 16) := hb
    refine Runs.map_iff.mpr (sys_pipe_spares ht (fun hfree => ?_) ho)
    rwa [if_neg hfree] at hb

variable (ha : TablesApart k.mm.mem (k.pool k.current_proc).pagetable)

include ha

/-- A byte that a call reaches, it overwrites. -/
theorem UserCall.reached {c : UserCall} (hready : c.Ready k)
    (hu : Reached k.mm.mem (k.pool k.current_proc).pagetable (c.copy k).1 (c.copy k).2 u)
    (b : Byte) :
    c.run lk (k.poke (userAddr k.mm.mem (k.pool k.current_proc).pagetable ((c.copy k).1 + u)) b) =
    c.run lk k := by
  cases c with
  | console str va len => exact discard_congr (console_read_reached ht ha str hu b)
  | file f va len =>
    have hu : Reached k.mm.mem (k.pool k.current_proc).pagetable va (fileAmount k f len) u := hu
    cases hip : (k.filepool f).ip with
    | none =>
      unfold fileAmount at hu
      rw [hip] at hu
      exact absurd hu.1 (Nat.not_lt_zero u)
    | some ip =>
      rw [fileAmount_eq hip] at hu
      exact discard_congr (fileread_reached ht ha hip (hready ip hip) hu b)
  | pipeTurn pi va n r size => exact discard_congr (pipereadTurn_reached ht ha hu b)
  | fstat sst fd st => exact discard_congr (sys_fstat_reached ht ha hready hu sst b)
  | mailread buf len => exact discard_congr (mail_read_reached ht ha hu b)
  | pipe fdarray => exact discard_congr (sys_pipe_reached ht ha ho lk hu b)

theorem UserCall.respects {c : UserCall} (hready : c.Ready k) (hc : c.Permitted k) :
    c.Respects lk k := by
  intro s hs
  have hspares := hs.spares ht ha
  have ho' : s.freelist ≠ 0 → Outside s (k.pool k.current_proc).pagetable s.freelist := by
    rw [hs.freelist]
    exact fun hfree => hspares.outside (ho hfree)
  have hcopy : c.copy { k with mm := s } = c.copy k := by
    cases c with
    | pipe fdarray =>
      unfold UserCall.copy
      dsimp only
      rw [hs.freelist]
    | _ => rfl
  have hready' : c.Ready { k with mm := s } := by
    cases c with
    | fstat sst fd st => exact ⟨hready.root, hready.entry⟩
    | _ => exact hready
  refine UserCall.spares (k := { k with mm := s }) (ht.congr hspares.leaf) ho' hready'
    ⟨ht.congr hspares.leaf, hspares.apart ha, fun a hno u hu heq => ?_⟩
  rw [hcopy] at hu heq
  exact hno ((permitsWrite_congr heq).mpr
    (hc u ⟨hu.1, fun v hv => (hspares.mapped _).mp (hu.2 v hv)⟩))

theorem UserCall.permitted {c : UserCall} (hready : c.Ready k) (hret : (c.run lk).returns k = true)
    (hc : c.Respects lk k) :
    c.Permitted k := by
  unfold UserCall.Permitted
  intro root u hu
  by_contra hno
  have hua := hu.2 u (Nat.le_refl u)
  -- The call runs with another byte than the one that is there.
  obtain ⟨b, hb⟩ : ∃ b : Byte, b ≠ userByte k.mm.mem root ((c.copy k).1 + u) := by
    by_cases h0 : userByte k.mm.mem root ((c.copy k).1 + u) = 0
    · exact ⟨1, by rw [h0]; decide⟩
    · exact ⟨0, fun hc => h0 hc.symm⟩
  have hother := OtherBytes.poke hua b
  obtain ⟨r, hok⟩ := Prog.returns_iff.mp hret
  have hsame := (hc _ (OtherBytes.refl ..)).of_ok hok
  have hpoked := (hc _ hother).of_ok ((UserCall.reached ht ho ha hready hu b).trans hok)
  have hbyte := hsame.spares.bytes _ hua hno
  have hbyte' := hpoked.spares.bytes _ (((hother.spares ht ha).mapped _).mpr hua) hno
  have hat : userByte (k.mm.poke (userAddr k.mm.mem root ((c.copy k).1 + u)) b).mem root
      ((c.copy k).1 + u) = b := by
    unfold userByte
    rw [(hother.spares ht ha).userAddr hua]
    exact Function.update_self ..
  exact hb (hat.symm.trans (hbyte'.symm.trans hbyte))

end Calls

/-- The copies respect the permissions just when all that they reach has them, and so do
the calls that return. -/
theorem copies_respect_permissions (ht : UserTable k.mm.mem (k.pool k.current_proc).pagetable)
    (ha : TablesApart k.mm.mem (k.pool k.current_proc).pagetable)
    (ho : k.mm.freelist ≠ 0 → Outside k.mm (k.pool k.current_proc).pagetable k.mm.freelist) :
    (∀ va len, CopyoutRespects k.mm (k.pool k.current_proc).pagetable va len ↔
      ∀ u, Reached k.mm.mem (k.pool k.current_proc).pagetable va len u →
        PermitsWrite k.mm.mem (k.pool k.current_proc).pagetable (va + u)) ∧
    (∀ va len, CopyinRespects k.mm (k.pool k.current_proc).pagetable va len ↔
      ∀ u, Reached k.mm.mem (k.pool k.current_proc).pagetable va len u →
        PermitsRead k.mm.mem (k.pool k.current_proc).pagetable (va + u)) ∧
    ∀ (lk : Link) (c : UserCall), c.Ready k → (c.Permitted k → c.Respects lk k) ∧
      ((c.run lk).returns k = true → (c.Respects lk k ↔ c.Permitted k)) :=
  ⟨fun _ _ => copyout_respects_iff ht ha, fun _ _ => copyin_respects_iff ht.nonzero,
    fun _ _ hready =>
    ⟨UserCall.respects ht ho ha hready, fun hret =>
      ⟨UserCall.permitted ht ho ha hready hret, UserCall.respects ht ho ha hready⟩⟩⟩

/-- A process with a page at the address 0 that it may read and write, and a free
page. -/
def freePageKernel : Kernel :=
  { ownPageKernel with mm := ⟨oneEntry (PA2PTE 0x4000 ||| 0x1f), 0x5000⟩ }

theorem outside_oneEntry {pte q : Nat} (hpte : pte < 2 ^ 64) (hq : q % PGSIZE = 0)
    (htable : 0x3000 < q) (hframe : PTE2PA pte ≠ q)
    (free : Nat) : Outside ⟨oneEntry pte, free⟩ 0x1000 q := by
  refine ⟨hq, ?_, fun a ha => ?_⟩
  · rintro ⟨d, hd, n, hn, ht⟩
    rw [tableAt_oneEntry hpte hd hn] at ht
    split at ht
    · have := Option.some.inj ht
      omega
    · cases ht
  · rw [(ha.oneEntry hpte).2]
    exact hframe

/-- A read of the console into the page. -/
theorem copies_respect_permissions_of_a_page :
    (UserCall.console (fun _ => 1) 0 1).Permitted freePageKernel ∧
    ∀ lk, ((UserCall.console (fun _ => 1) 0 1).run lk).returns freePageKernel = true ∧
      (UserCall.console (fun _ => 1) 0 1).Respects lk freePageKernel := by
  have ht : UserTable freePageKernel.mm.mem 0x1000 := userTable_oneEntry (by decide) (by decide)
  have ha : TablesApart freePageKernel.mm.mem 0x1000 := tablesApart_oneEntry (by decide) (by decide)
  have h := @copies_respect_permissions freePageKernel ht ha fun _ =>
    outside_oneEntry (by decide) (by decide) (by decide) (by decide) _
  have hpermitted : (UserCall.console (fun _ => 1) 0 1).Permitted freePageKernel := by
    unfold UserCall.Permitted
    rintro root u ⟨hu, hall⟩
    obtain rfl : u = 0 := Nat.lt_one_iff.mp hu
    refine ⟨hall 0 (Nat.le_refl 0), ?_⟩
    have hleaf : leafOf freePageKernel.mm.mem 0x1000 (0 + 0) = PA2PTE 0x4000 ||| 0x1f :=
      leafOf_oneEntry (by decide) (by decide)
    have hbit : (PA2PTE 0x4000 ||| 0x1f).testBit 2 = true := by decide
    exact (congrArg (fun x => x.testBit 2) hleaf).trans hbit
  have hready : (UserCall.console (fun _ => 1) 0 1).Ready freePageKernel := trivial
  refine ⟨hpermitted, fun lk => ⟨?_, (h.2.2 lk _ hready).1 hpermitted⟩⟩
  have hruns : Runs (fun _ => False) ((UserCall.console (fun _ => 1) 0 1).run lk) freePageKernel
      fun _ _ => True := by
    refine Runs.map_iff.mpr ?_
    unfold console_read
    rw [Runs.bind_iff, runs_curr_proc, Runs.bind_iff, runs_onMm]
    exact (copyout_fine (E := fun _ => False) ht ha).imp fun _ _ _ => trivial
  obtain ⟨_, _, hok, _⟩ := hruns.returns
  exact Prog.returns_of_ok hok

/-- A page that the user may only read. -/
def readPage : Mm := ⟨oneEntry (PA2PTE 0x4000 ||| 0x13), 0⟩

/-- It takes what the kernel copies there. -/
theorem a_copy_changes_a_page_to_read : ¬ ∀ (s : Mm) (root va len : Nat), UserTable s.mem root →
    TablesApart s.mem root → CopyoutRespects s root va len ∧ CopyinRespects s root va len := by
  intro hall
  have ht : UserTable readPage.mem 0x1000 := userTable_oneEntry (by decide) (by decide)
  have ha : TablesApart readPage.mem 0x1000 := tablesApart_oneEntry (by decide) (by decide)
  have hreached : Reached readPage.mem 0x1000 0 1 0 := by
    refine ⟨Nat.one_pos, fun v hv => ?_⟩
    exact userMapped_oneEntry (by decide) (by decide) (by decide) (by rw [PGSIZE_eq]; omega)
  have hbit := ((copyout_respects_iff ht ha).mp (hall readPage 0x1000 0 1 ht ha).1 0 hreached).2
  have hleaf : leafOf readPage.mem 0x1000 (0 + 0) = PA2PTE 0x4000 ||| 0x13 :=
    leafOf_oneEntry (by decide) (by decide)
  rw [hleaf] at hbit
  exact absurd hbit (by decide)

end ThuKernel
