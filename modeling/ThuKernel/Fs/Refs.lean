-- The references of the inode table: which functions of fs.c leave them alone,
-- and which take one or give one back.
import ThuKernel.Fs.FsRules
import ThuKernel.Fs.Dir
import Mathlib.Algebra.Group.Pi.Basic

namespace ThuKernel

/-! ## Functions that take no reference -/

/-- Any stop but the panic of `iget`. -/
def NotIget (e : Stop) : Prop := e ≠ .panic "iget: no inodes"

@[simp] theorem notIget_fault (why : String) : NotIget (.fault why) := by
  simp [NotIget]

@[simp] theorem notIget_panic (msg : String) :
    NotIget (.panic msg) ↔ msg ≠ "iget: no inodes" := by
  simp [NotIget]

/-- The entries stand for the same inodes, with the same references. -/
def Quiet (s s' : Fs) : Prop :=
  ∀ i, (s'.itable i).ref = (s.itable i).ref ∧ (s'.itable i).dev = (s.itable i).dev ∧
    (s'.itable i).inum = (s.itable i).inum

theorem Quiet.refl (s : Fs) : Quiet s s := fun _ => ⟨rfl, rfl, rfl⟩

theorem Quiet.trans {s s₁ s₂ : Fs} (h : Quiet s s₁) (h' : Quiet s₁ s₂) : Quiet s s₂ := by
  intro i
  obtain ⟨h1, h2, h3⟩ := h i
  obtain ⟨k1, k2, k3⟩ := h' i
  exact ⟨k1.trans h1, k2.trans h2, k3.trans h3⟩

/-- A change of an entry that keeps what it stands for. -/
theorem Quiet.update {s : Fs} {ip : Nat} {x : inode} (hx : x.ref = (s.itable ip).ref ∧
    x.dev = (s.itable ip).dev ∧ x.inum = (s.itable ip).inum) :
    Quiet s { s with itable := Function.update s.itable ip x } := by
  intro i
  dsimp only
  by_cases hi : i = ip
  · subst hi
    rw [Function.update_self]
    exact hx
  · rw [Function.update_of_ne hi]
    exact ⟨rfl, rfl, rfl⟩

/-- A program that leaves the references alone, from any state. -/
def Quietly {α : Type} (f : Prog Fs α) : Prop :=
  ∀ s, Runs NotIget f s fun _ s' => Quiet s s'

namespace Quietly

variable {α β : Type} {f : Prog Fs α} {g : α → Prog Fs β}

theorem pure (a : α) : Quietly (Pure.pure a : Prog Fs α) := by
  intro s
  exact Quiet.refl s

theorem bind (hf : Quietly f) (hg : ∀ a, Quietly (g a)) : Quietly (f >>= g) := by
  intro s
  apply (hf s).bind
  intro a s₁ h1
  apply (hg a s₁).imp
  intro b s₂ h2
  exact h1.trans h2

theorem get : Quietly (MonadState.get : Prog Fs Fs) := by
  intro s
  exact Quiet.refl s

theorem panic {msg : String} (h : msg ≠ "iget: no inodes") :
    Quietly (Prog.panic msg : Prog Fs α) := by
  intro s
  rw [Runs.panic_iff, notIget_panic]
  exact h

theorem fault {why : String} : Quietly (Prog.fault why : Prog Fs α) := by
  intro s
  simp

theorem ite {c : Prop} [Decidable c] {f' : Prog Fs α} (h : Quietly f) (h' : Quietly f') :
    Quietly (if c then f else f') := by
  split
  · exact h
  · exact h'

theorem when {c : Prop} [Decidable c] {f : Prog Fs Unit} (h : Quietly f) :
    Quietly (Prog.when c f) := by
  unfold Prog.when
  exact h.ite (Quietly.pure ())

theorem forUp {body : Nat → Prog Fs Unit} {lo n : Nat} (h : ∀ i, Quietly (body i)) :
    Quietly (Prog.forUp body lo n) := by
  intro s
  apply Runs.forUp (fun _ s' => Quiet s s')
  · intro i t _ _ ht
    apply (h i t).imp
    intro _ t' ht'
    exact ht.trans ht'
  · exact Quiet.refl s

theorem onBio {f : Prog Bio α} (hf : ∀ s, Runs NotIget f s fun _ _ => True) :
    Quietly (onBio f) := by
  intro s
  rw [runs_onBio]
  apply (hf s.bio).imp
  intro _ t _
  exact Quiet.refl s

theorem bread (dev b : Nat) : Quietly (ThuKernel.onBio (bread dev b)) := by
  apply onBio
  intro s
  unfold ThuKernel.bread bget
  simp only [Runs.bind_iff, Runs.get_iff]
  cases firstAlong s.next (fun i => (s.buf i).dev == dev && (s.buf i).blockno == b)
      HEAD (NBUF + 1) (s.next HEAD) with
  | none => simp
  | some r =>
    cases r with
    | some i =>
      simp only [Runs.bind_iff, Runs.set_iff, Runs.pure_iff]
      split <;> simp
    | none =>
      dsimp only
      cases firstAlong s.prev (fun i => (s.buf i).refcnt == 0) HEAD (NBUF + 1) (s.prev HEAD) with
      | none => simp
      | some r =>
        cases r with
        | some i => simp
        | none => simp

theorem bwrite (bp : Nat) : Quietly (ThuKernel.onBio (bwrite bp)) := onBio fun _ => trivial

theorem brelse (bp : Nat) : Quietly (ThuKernel.onBio (brelse bp)) := onBio fun _ => trivial

theorem bpData (bp : Nat) : Quietly (bpData bp) := fun s => Quiet.refl s

theorem setBpData (bp : Nat) (d : Bytes) : Quietly (setBpData bp d) := onBio fun _ => trivial

theorem getInode (ip : Nat) : Quietly (getInode ip) := fun s => Quiet.refl s

/-- A change of the entry that was read just before. -/
theorem setInode {ip : Nat} {c : inode → inode} {g : Prog Fs α}
    (hc : ∀ x, (c x).ref = x.ref ∧ (c x).dev = x.dev ∧ (c x).inum = x.inum) (hg : Quietly g) :
    Quietly (do let y ← ThuKernel.getInode ip; ThuKernel.setInode ip (c y); g) := by
  intro s
  rw [Runs.bind_iff, runs_getInode, Runs.bind_iff, runs_setInode]
  apply (hg _).imp
  intro _ s' hs'
  exact (Quiet.update (hc _)).trans hs'

end Quietly

/-! ## The functions of fs.c that take no reference -/

theorem bzero_quiet (dev bno : Nat) : Quietly (bzero dev bno) := by
  unfold bzero
  apply (Quietly.bread _ _).bind
  intro bp
  apply (Quietly.bpData bp).bind
  intro d
  apply (Quietly.setBpData bp _).bind
  intro _
  apply (Quietly.bwrite bp).bind
  intro _
  exact Quietly.brelse bp

theorem ballocLoop_quiet (dev n b : Nat) : Quietly (ballocLoop dev n b) := by
  induction n generalizing b with
  | zero => exact Quietly.panic (by simp)
  | succ n ih =>
    unfold ballocLoop
    apply Quietly.get.bind
    intro s
    apply Quietly.ite
    · apply (Quietly.bread _ _).bind
      intro bp
      apply (Quietly.bpData bp).bind
      intro d
      cases firstFree d s.sb.size b BPB 0 with
      | some bi =>
        apply (Quietly.setBpData bp _).bind
        intro _
        apply (Quietly.bwrite bp).bind
        intro _
        apply (Quietly.brelse bp).bind
        intro _
        apply (bzero_quiet _ _).bind
        intro _
        exact Quietly.pure _
      | none =>
        apply (Quietly.brelse bp).bind
        intro _
        exact ih _
    · exact Quietly.panic (by simp)

theorem balloc_quiet (dev : Nat) : Quietly (balloc dev) := by
  unfold balloc
  apply Quietly.get.bind
  intro s
  exact ballocLoop_quiet _ _ _

theorem bfree_quiet (dev b : Nat) : Quietly (bfree dev b) := by
  unfold bfree
  apply Quietly.get.bind
  intro s
  apply (Quietly.bread _ _).bind
  intro bp
  apply (Quietly.bpData bp).bind
  intro d
  apply Quietly.ite
  · exact Quietly.panic (by simp)
  · apply (Quietly.setBpData bp _).bind
    intro _
    apply (Quietly.bwrite bp).bind
    intro _
    exact Quietly.brelse bp

theorem iupdate_quiet (ip : Nat) : Quietly (iupdate ip) := by
  unfold iupdate
  apply Quietly.get.bind
  intro s
  apply (Quietly.bread _ _).bind
  intro bp
  apply (Quietly.bpData bp).bind
  intro d
  apply (Quietly.setBpData bp _).bind
  intro _
  apply (Quietly.bwrite bp).bind
  intro _
  exact Quietly.brelse bp

/-- The entry is filled in from the disk: the buffers were in between, but
they change no entry. -/
theorem ivalid_quiet (ip : Nat) : Quietly (ivalid ip) := by
  intro s
  unfold ivalid
  rw [Runs.bind_iff, Runs.get_iff]
  dsimp only
  split
  · exact Quiet.refl s
  · apply (Quietly.bread _ _ s).bind
    intro bp s₁ h1
    rw [Runs.bind_iff, runs_bpData, Runs.bind_iff, runs_brelse, Runs.bind_iff, runs_setInode]
    obtain ⟨h2, h3, h4⟩ := h1 ip
    have h5 : Quiet s { s₁ with itable := Function.update s₁.itable ip { s.itable ip with
        type := dinodeType (s₁.bio.core bp).data (s.itable ip).inum
        size := dinodeSize (s₁.bio.core bp).data (s.itable ip).inum
        addrs := dinodeAddr (s₁.bio.core bp).data (s.itable ip).inum
        valid := true } } := h1.trans (Quiet.update ⟨h2.symm, h3.symm, h4.symm⟩)
    split
    · simp
    · exact h5

theorem bmapAddr_quiet (ip k : Nat) : Quietly (bmapAddr ip k) := by
  unfold bmapAddr
  apply (Quietly.getInode ip).bind
  intro x
  apply Quietly.ite
  · apply (balloc_quiet _).bind
    intro addr
    exact Quietly.setInode (fun _ => ⟨rfl, rfl, rfl⟩) (Quietly.pure _)
  · exact Quietly.pure _

theorem bmapIndirect_quiet (ip addr bn : Nat) : Quietly (bmapIndirect ip addr bn) := by
  unfold bmapIndirect
  apply (Quietly.getInode ip).bind
  intro x
  apply (Quietly.bread _ _).bind
  intro bp
  apply (Quietly.bpData bp).bind
  intro a
  apply Quietly.ite
  · apply (balloc_quiet _).bind
    intro addr
    apply (Quietly.bpData bp).bind
    intro a
    apply (Quietly.setBpData bp _).bind
    intro _
    apply (Quietly.bwrite bp).bind
    intro _
    apply (Quietly.brelse bp).bind
    intro _
    exact Quietly.pure _
  · apply (Quietly.brelse bp).bind
    intro _
    exact Quietly.pure _

theorem bmap_quiet (ip bn : Nat) : Quietly (bmap ip bn) := by
  unfold bmap
  apply Quietly.ite
  · exact bmapAddr_quiet ip bn
  · apply Quietly.ite
    · apply (bmapAddr_quiet ip NDIRECT).bind
      intro addr
      exact bmapIndirect_quiet ip addr _
    · exact Quietly.panic (by simp)

theorem itrunc_quiet (ip : Nat) : Quietly (itrunc ip) := by
  have hset : ∀ c : inode → inode,
      (∀ x, (c x).ref = x.ref ∧ (c x).dev = x.dev ∧ (c x).inum = x.inum) →
      Quietly (do let y ← getInode ip; setInode ip (c y)) := by
    intro c hc s
    rw [Runs.bind_iff, runs_getInode, runs_setInode]
    exact Quiet.update (hc _)
  unfold itrunc
  apply Quietly.bind
  · apply Quietly.forUp
    intro i
    apply (Quietly.getInode ip).bind
    intro x
    apply Quietly.when
    apply (bfree_quiet _ _).bind
    intro _
    exact hset _ fun _ => ⟨rfl, rfl, rfl⟩
  · intro _
    apply (Quietly.getInode ip).bind
    intro x
    apply Quietly.bind
    · apply Quietly.when
      apply (Quietly.bread _ _).bind
      intro bp
      apply Quietly.bind
      · apply Quietly.forUp
        intro j
        apply (Quietly.bpData bp).bind
        intro a
        exact Quietly.when (bfree_quiet _ _)
      · intro _
        apply (Quietly.brelse bp).bind
        intro _
        apply (bfree_quiet _ _).bind
        intro _
        exact hset _ fun _ => ⟨rfl, rfl, rfl⟩
    · intro _
      exact Quietly.setInode (fun _ => ⟨rfl, rfl, rfl⟩) (iupdate_quiet ip)

/-- A copy to or from any place touches no entry. -/
theorem Quietly.copyout {β : Type} {dst : Dst} {tot : Nat} {src : List Byte}
    {g : Int × Dst → Prog Fs β} (hg : ∀ a, Quietly (g a)) :
    Quietly ((liftM (either_copyout dst tot src) : Prog Fs (Int × Dst)) >>= g) := by
  intro s
  rw [Runs.bind_iff]
  apply runs_either_copyout
  intro r dst' _ _
  exact hg _ s

theorem Quietly.copyin {β : Type} {src : Src} {tot len : Nat} {g : Int × List Byte → Prog Fs β}
    (hg : ∀ a, Quietly (g a)) :
    Quietly ((liftM (either_copyin src tot len) : Prog Fs (Int × List Byte)) >>= g) := by
  intro s
  rw [Runs.bind_iff]
  apply runs_either_copyin
  intro r bytes _ _ _
  exact hg _ s

theorem readiLoop_quiet (ip n fuel tot off : Nat) (dst : Dst) :
    Quietly (readiLoop ip n fuel tot off dst) := by
  induction fuel generalizing tot off dst with
  | zero => exact Quietly.fault
  | succ fuel ih =>
    unfold readiLoop
    apply Quietly.ite
    · apply (bmap_quiet ip _).bind
      intro addr
      apply (Quietly.getInode ip).bind
      intro x
      apply (Quietly.bread _ _).bind
      intro bp
      apply (Quietly.bpData bp).bind
      intro d
      apply Quietly.copyout
      intro r
      apply (Quietly.brelse bp).bind
      intro _
      apply Quietly.ite
      · exact Quietly.pure _
      · exact ih _ _ _
    · exact Quietly.pure _

theorem readi_quiet (ip : Nat) (dst : Dst) (off n : Nat) : Quietly (readi ip dst off n) := by
  unfold readi
  apply (Quietly.getInode ip).bind
  intro x
  apply Quietly.ite
  · exact Quietly.pure _
  · exact readiLoop_quiet _ _ _ _ _ _

theorem writeiLoop_quiet (ip : Nat) (src : Src) (n fuel tot off : Nat) :
    Quietly (writeiLoop ip src n fuel tot off) := by
  induction fuel generalizing tot off with
  | zero => exact Quietly.fault
  | succ fuel ih =>
    unfold writeiLoop
    apply Quietly.ite
    · apply (bmap_quiet ip _).bind
      intro addr
      apply (Quietly.getInode ip).bind
      intro x
      apply (Quietly.bread _ _).bind
      intro bp
      apply Quietly.copyin
      intro r
      apply (Quietly.bpData bp).bind
      intro d
      apply (Quietly.setBpData bp _).bind
      intro _
      apply Quietly.ite
      · apply (Quietly.brelse bp).bind
        intro _
        exact Quietly.pure _
      · apply (Quietly.bwrite bp).bind
        intro _
        apply (Quietly.brelse bp).bind
        intro _
        exact ih _ _
    · exact Quietly.pure _

theorem writei_quiet (ip : Nat) (src : Src) (off n : Nat) : Quietly (writei ip src off n) := by
  unfold writei
  apply (Quietly.getInode ip).bind
  intro x
  apply Quietly.ite
  · exact Quietly.pure _
  · apply Quietly.ite
    · exact Quietly.pure _
    · apply (writeiLoop_quiet ip src n _ _ _).bind
      intro r s
      rw [Runs.bind_iff, runs_getInode, Runs.bind_iff, Runs.when_iff]
      have hend : ∀ s', Quiet s s' → Runs NotIget (do iupdate ip; pure (r.1 : Int)) s'
          fun _ t => Quiet s t := by
        intro s' hs'
        apply ((iupdate_quiet ip).bind fun _ => Quietly.pure _) s' |>.imp
        intro _ t ht
        exact hs'.trans ht
      refine ⟨fun _ => ?_, fun _ => hend s (Quiet.refl s)⟩
      rw [runs_setInode]
      exact hend _ (Quiet.update ⟨rfl, rfl, rfl⟩)

theorem dirScan_quiet (dp : Nat) (stop : List Byte → Bool) (n off : Nat) (de : List Byte) :
    Quietly (dirScan dp stop n off de) := by
  induction n generalizing off de with
  | zero => exact Quietly.fault
  | succ n ih =>
    unfold dirScan
    apply (Quietly.getInode dp).bind
    intro x
    apply Quietly.ite
    · apply (readi_quiet dp _ _ _).bind
      intro r
      apply Quietly.ite
      · exact Quietly.panic (by simp)
      · apply Quietly.ite
        · exact Quietly.pure _
        · exact ih _ _
    · exact Quietly.pure _

/-! ## References taken and given back -/

/-- No two entries in use stand for one inode. -/
def Distinct (s : Fs) : Prop :=
  ∀ i < NINODE, ∀ j < NINODE, 0 < (s.itable i).ref → 0 < (s.itable j).ref →
    (s.itable i).dev = (s.itable j).dev → (s.itable i).inum = (s.itable j).inum → i = j

/-- From `s` to `s'`, entry `i` got `d i` references. -/
structure Moves (d : Nat → Int) (s s' : Fs) : Prop where
  ref : ∀ i, (s'.itable i).ref = (s.itable i).ref + d i
  distinct : Distinct s → Distinct s'

/-- `n` references to entry `i`. -/
def only (i : Nat) (n : Int) : Nat → Int := fun j => if j = i then n else 0

/-- One reference, to entry `i`. -/
def one (i : Nat) : Nat → Int := only i 1

theorem one_add_only (i : Nat) : one i + only i (-1) = 0 := by
  funext j
  show (if j = i then (1 : Int) else 0) + (if j = i then -1 else 0) = 0
  split <;> rfl

theorem Quiet.moves {s s' : Fs} (h : Quiet s s') : Moves 0 s s' := by
  refine ⟨fun i => by rw [(h i).1]; simp, fun hd i hi j hj h1 h2 h3 h4 => ?_⟩
  obtain ⟨a1, a2, a3⟩ := h i
  obtain ⟨b1, b2, b3⟩ := h j
  rw [a1] at h1
  rw [b1] at h2
  rw [a2, b2] at h3
  rw [a3, b3] at h4
  exact hd i hi j hj h1 h2 h3 h4

theorem Moves.trans {d d' : Nat → Int} {s s₁ s₂ : Fs} (h : Moves d s s₁) (h' : Moves d' s₁ s₂) :
    Moves (d + d') s s₂ := by
  refine ⟨fun i => ?_, fun hd => h'.distinct (h.distinct hd)⟩
  rw [h'.ref, h.ref, Pi.add_apply, add_assoc]

theorem Moves.quiet {d : Nat → Int} {s s₁ s₂ : Fs} (h : Moves d s s₁) (h' : Quiet s₁ s₂) :
    Moves d s s₂ := by
  have := h.trans h'.moves
  rwa [add_zero] at this

/-- All entries are in use. -/
def TableFull (s : Fs) : Prop := ∀ i < NINODE, (s.itable i).ref ≠ 0

/-- What a stop for lack of an entry says of the state. -/
def OnlyIfFull (s : Fs) (e : Stop) : Prop := e = .panic "iget: no inodes" → TableFull s

theorem NotIget.onlyIfFull {s : Fs} {e : Stop} (h : NotIget e) : OnlyIfFull s e := fun he =>
  absurd he h

/-- An entry that no other one in use stands for. -/
theorem Distinct.update {s : Fs} {i : Nat} {x : inode} (hd : Distinct s)
    (hx : ∀ j < NINODE, j ≠ i → 0 < (s.itable j).ref → (s.itable j).dev = x.dev →
      (s.itable j).inum ≠ x.inum) : Distinct { s with itable := Function.update s.itable i x } := by
  intro a ha b hb
  dsimp only
  by_cases hai : a = i
  · by_cases hbi : b = i
    · intro _ _ _ _
      rw [hai, hbi]
    · rw [hai, Function.update_self, Function.update_of_ne hbi]
      intro _ h2 h3 h4
      exact absurd h4.symm (hx b hb hbi h2 h3.symm)
  · rw [Function.update_of_ne hai]
    by_cases hbi : b = i
    · rw [hbi, Function.update_self]
      intro h1 _ h3 h4
      exact absurd h4 (hx a ha hai h1 h3)
    · rw [Function.update_of_ne hbi]
      exact hd a ha b hb

theorem ref_update {s : Fs} {i : Nat} {x : inode} {n : Int} (hx : x.ref = (s.itable i).ref + n)
    (j : Nat) : (Function.update s.itable i x j).ref = (s.itable j).ref + only i n j := by
  unfold only
  by_cases hj : j = i
  · subst hj
    rw [Function.update_self, if_pos rfl, hx]
  · rw [Function.update_of_ne hj, if_neg hj, add_zero]

theorem iget_moves (s : Fs) (dev inum : Nat) :
    Runs (OnlyIfFull s) (iget dev inum) s (fun i s' => Moves (one i) s s' ∧ i < NINODE) := by
  unfold iget
  rw [Runs.bind_iff, Runs.get_iff]
  cases h : (List.range NINODE).find? (fun i =>
      decide (0 < (s.itable i).ref) && (s.itable i).dev == dev && (s.itable i).inum == inum) with
  | some i =>
    have hi := List.mem_range.mp (List.mem_of_find?_eq_some h)
    have hp := List.find?_some h
    simp only [Bool.and_eq_true, decide_eq_true_eq] at hp
    dsimp only
    rw [Runs.bind_iff, runs_setInode, Runs.pure_iff]
    refine ⟨⟨ref_update rfl, fun hd => ?_⟩, hi⟩
    apply hd.update
    intro j hj hji h1 h2 h3
    exact hji (hd j hj i hi h1 hp.1.1 h2 h3)
  | none =>
    dsimp only
    cases hfree : (List.range NINODE).find? (fun i => (s.itable i).ref == 0) with
    | none =>
      intro _ i hi
      have := List.find?_eq_none.mp hfree i (List.mem_range.mpr hi)
      simpa using this
    | some i =>
      have hi := List.mem_range.mp (List.mem_of_find?_eq_some hfree)
      have h0 : (s.itable i).ref = 0 := by simpa using List.find?_some hfree
      dsimp only
      rw [Runs.bind_iff, runs_setInode, Runs.pure_iff]
      refine ⟨⟨ref_update (by rw [h0]; rfl), fun hd => ?_⟩, hi⟩
      apply hd.update
      intro j hj _ h1 h2 h3
      have := List.find?_eq_none.mp h j (List.mem_range.mpr hj)
      simp only [Bool.and_eq_true, decide_eq_true_eq, beq_iff_eq] at this
      exact this ⟨⟨h1, h2⟩, h3⟩

theorem iput_moves (s : Fs) (ip : Nat) :
    Runs NotIget (iput ip) s (fun _ s' => Moves (only ip (-1)) s s') := by
  unfold iput
  rw [Runs.bind_iff, runs_getInode, runs_setInode]
  refine ⟨ref_update rfl, fun hd i hi j hj => ?_⟩
  have hsame : ∀ a, 0 < (Function.update s.itable ip { s.itable ip with
      ref := (s.itable ip).ref - 1 } a).ref → 0 < (s.itable a).ref ∧
      (Function.update s.itable ip { s.itable ip with
        ref := (s.itable ip).ref - 1 } a).dev = (s.itable a).dev ∧
      (Function.update s.itable ip { s.itable ip with
        ref := (s.itable ip).ref - 1 } a).inum = (s.itable a).inum := by
    intro a ha
    by_cases hap : a = ip
    · subst hap
      rw [Function.update_self] at ha ⊢
      exact ⟨by dsimp only at ha; omega, rfl, rfl⟩
    · rw [Function.update_of_ne hap] at ha ⊢
      exact ⟨ha, rfl, rfl⟩
  intro h1 h2 h3 h4
  obtain ⟨a1, a2, a3⟩ := hsame i h1
  obtain ⟨b1, b2, b3⟩ := hsame j h2
  exact hd i hi j hj a1 b1 (by rw [← a2, ← b2]; exact h3) (by rw [← a3, ← b3]; exact h4)

/-! ## The functions that take references -/

/-- What a stop for lack of an entry says of a state in which the call holds
no reference yet: at most two entries, `r` and `ip`, are in no use. -/
def FullButTwo (s : Fs) (e : Stop) : Prop :=
  e = .panic "iget: no inodes" → ∃ r ip, ∀ i < NINODE, i ≠ r → i ≠ ip → (s.itable i).ref ≠ 0

theorem NotIget.fullButTwo {s : Fs} {e : Stop} (h : NotIget e) : FullButTwo s e := fun he =>
  absurd he h

theorem OnlyIfFull.fullButTwo {d : Nat → Int} {s s' : Fs} {e : Stop} (h : OnlyIfFull s' e)
    (hm : Moves d s s') (r ip : Nat) (hd : ∀ i, i ≠ r → i ≠ ip → d i = 0) : FullButTwo s e := by
  intro he
  refine ⟨r, ip, fun i hi hr hip => ?_⟩
  have := h he i hi
  rwa [hm.ref, hd i hr hip, add_zero] at this

theorem ivalid_moves {d : Nat → Int} {s s₁ : Fs} (h : Moves d s s₁) (ip : Nat) :
    Runs NotIget (ivalid ip) s₁ (fun _ s' => Moves d s s') :=
  (ivalid_quiet ip s₁).imp fun _ _ h' => h.quiet h'

theorem root_dir_moves (s : Fs) :
    Runs (OnlyIfFull s) root_dir s (fun r s' => Moves (one r) s s' ∧ r < NINODE) := by
  unfold root_dir
  apply (iget_moves s ROOTDEV ROOTINO).bind
  intro r s₁ h1
  rw [Runs.bind_iff]
  apply (ivalid_quiet r s₁).mono
  · intro e he
    exact he.onlyIfFull
  · intro _ s₂ h2
    exact ⟨h1.1.quiet h2, h1.2⟩

/-- The references that a look-up takes. -/
def found (r : Option (Nat × Nat)) : Nat → Int :=
  match r with
  | some (ip, _) => one ip
  | none => 0

theorem dirlookup_moves (s : Fs) (dp : Nat) (name : CStr) :
    Runs (OnlyIfFull s) (dirlookup dp name) s (fun r s' => Moves (found r) s s') := by
  have hloop : ∀ n off (s₁ : Fs), Quiet s s₁ → Runs (OnlyIfFull s) (dirlookupLoop dp name n off) s₁
      (fun r s' => Moves (found r) s s') := by
    intro n
    induction n with
    | zero =>
      intro off s₁ _
      exact NotIget.onlyIfFull (by simp)
    | succ n ih =>
      intro off s₁ h1
      unfold dirlookupLoop
      rw [Runs.bind_iff, runs_getInode]
      split
      · rw [Runs.bind_iff]
        apply (readi_quiet dp _ _ _ s₁).mono
        · intro e he
          exact he.onlyIfFull
        · intro r s₂ h2
          have h12 := h1.trans h2
          dsimp only
          split
          · exact NotIget.onlyIfFull (by simp)
          · split
            · exact ih _ s₂ h12
            · split
              · rw [Runs.bind_iff]
                apply (iget_moves s₂ _ _).mono
                · intro e he hm i hi
                  rw [← (h12 i).1]
                  exact he hm i hi
                · intro ip s₃ h3
                  have := h12.moves.trans h3.1
                  rwa [zero_add] at this
              · exact ih _ s₂ h12
      · exact h1.moves
  unfold dirlookup
  rw [Runs.bind_iff, runs_getInode]
  split
  · exact NotIget.onlyIfFull (by simp)
  · exact hloop _ _ s (Quiet.refl s)

theorem dirinsert_quiet (dp : Nat) (name : CStr) (inum : Nat) :
    Quietly (dirinsert dp name inum) := by
  unfold dirinsert
  apply (Quietly.getInode dp).bind
  intro x
  apply (dirScan_quiet dp _ _ _ _).bind
  intro r
  apply (writei_quiet dp _ _ _).bind
  intro r
  apply Quietly.ite
  · exact Quietly.panic (by simp)
  · exact Quietly.pure _

theorem dirremove_quiet (dp : Nat) (name : CStr) (behind : Bytes) :
    Quietly (dirremove dp name behind) := by
  unfold dirremove
  apply (Quietly.getInode dp).bind
  intro x
  apply (dirScan_quiet dp _ _ _ _).bind
  intro r
  apply (Quietly.getInode dp).bind
  intro x
  apply Quietly.ite
  · exact Quietly.pure _
  · apply (writei_quiet dp _ _ _).bind
    intro _
    exact Quietly.pure _

/-- A new entry takes no reference that it does not give back. -/
theorem dirlink_moves (s : Fs) (dp : Nat) (name : CStr) (inum : Nat) :
    Runs (OnlyIfFull s) (dirlink dp name inum) s (fun _ s' => Moves 0 s s') := by
  unfold dirlink
  apply (dirlookup_moves s dp name).bind
  intro r s₁ h1
  cases r with
  | some r =>
    dsimp only
    rw [Runs.bind_iff]
    apply (iput_moves s₁ r.1).mono
    · intro e he
      exact he.onlyIfFull
    · intro _ s₂ h2
      have := h1.trans h2
      unfold found at this
      rwa [one_add_only] at this
  | none =>
    apply (dirinsert_quiet dp name inum s₁).mono
    · intro e he
      exact he.onlyIfFull
    · intro _ s₂ h2
      exact h1.quiet h2

theorem dirunlink_moves (s : Fs) (dp : Nat) (name : CStr) (behind : Bytes) :
    Runs (OnlyIfFull s) (dirunlink dp name behind) s
      (fun _ s' => ∃ r, Moves (found r) s s') := by
  unfold dirunlink
  apply (dirlookup_moves s dp name).bind
  intro r s₁ h1
  cases r with
  | none => exact ⟨none, h1⟩
  | some r =>
    apply (dirremove_quiet dp name behind s₁).mono
    · intro e he
      exact he.onlyIfFull
    · intro _ s₂ h2
      exact ⟨some r, h1.quiet h2⟩

theorem iallocLoop_moves (s : Fs) (dev type n inum : Nat) :
    Runs (OnlyIfFull s) (iallocLoop dev type n inum) s
      (fun i s' => Moves (one i) s s' ∧ i < NINODE) := by
  have hloop : ∀ n inum (s₁ : Fs), Quiet s s₁ → Runs (OnlyIfFull s) (iallocLoop dev type n inum) s₁
      (fun i s' => Moves (one i) s s' ∧ i < NINODE) := by
    intro n
    induction n with
    | zero =>
      intro inum s₁ _
      exact NotIget.onlyIfFull (by simp)
    | succ n ih =>
      intro inum s₁ h1
      unfold iallocLoop
      rw [Runs.bind_iff, Runs.get_iff]
      split
      · rw [Runs.bind_iff]
        apply (Quietly.bread _ _ s₁).mono
        · intro e he
          exact he.onlyIfFull
        · intro bp s₂ h2
          rw [Runs.bind_iff, runs_bpData]
          split
          · rw [Runs.bind_iff, runs_setBpData, Runs.bind_iff, runs_bwrite, Runs.bind_iff,
              runs_brelse]
            have h12 := h1.trans h2
            apply (iget_moves _ _ _).mono
            · intro e he hm i hi
              rw [← (h12 i).1]
              exact he hm i hi
            · intro i s₃ h3
              refine ⟨?_, h3.2⟩
              have := h12.moves.trans ⟨h3.1.ref, h3.1.distinct⟩
              rwa [zero_add] at this
          · rw [Runs.bind_iff, runs_brelse]
            exact ih _ _ (h1.trans h2)
      · exact NotIget.onlyIfFull (by simp)
  exact hloop n inum s (Quiet.refl s)

/-- The references that the caller of `create` or `namei` gets. -/
def result (r : Option Nat) : Nat → Int :=
  match r with
  | some ip => one ip
  | none => 0

theorem namei_moves (s : Fs) (path : CStr) :
    Runs (fun _ => True) (namei path) s
      (fun r s' => ∃ dp < NINODE, Moves (one dp + result r) s s') := by
  unfold namei
  rw [Runs.bind_iff]
  apply (root_dir_moves s).mono (fun _ _ => trivial)
  intro dp s₁ h1
  rw [Runs.bind_iff]
  apply (dirlookup_moves s₁ dp path).mono (fun _ _ => trivial)
  intro r s₂ h2
  rw [Runs.pure_iff]
  refine ⟨dp, h1.2, ?_⟩
  have h12 := h1.1.trans h2
  cases r with
  | some r => exact h12
  | none => exact h12

theorem one_of_ne {r i : Nat} (h : i ≠ r) : one r i = 0 := if_neg h

theorem create_found (s s₁ : Fs) (dp ip type : Nat) (h1 : Moves (one dp + one ip) s s₁) :
    Runs (FullButTwo s) (do
        iput dp
        ivalid ip
        let x ← getInode ip
        if type = T_FILE ∧ x.type = T_FILE then pure (some ip)
        else do
          iput ip
          pure none) s₁ (fun r s' => Moves (result r) s s') := by
  rw [Runs.bind_iff]
  apply (iput_moves s₁ dp).mono
  · intro e he
    exact he.fullButTwo
  · intro _ s₂ h2
    have h12 : Moves (one ip) s s₂ := by
      have := h1.trans h2
      rwa [add_right_comm, one_add_only, zero_add] at this
    rw [Runs.bind_iff]
    apply (ivalid_moves h12 ip).mono
    · intro e he
      exact he.fullButTwo
    · intro _ s₃ h3
      rw [Runs.bind_iff, runs_getInode]
      split
      · exact h3
      · rw [Runs.bind_iff]
        apply (iput_moves s₃ ip).mono
        · intro e he
          exact he.fullButTwo
        · intro _ s₄ h4
          have := h3.trans h4
          rwa [one_add_only] at this

theorem create_new (s s₁ : Fs) (dp type : Nat) (path : CStr) (h1 : Moves (one dp) s s₁) :
    Runs (FullButTwo s) (do
        let d ← getInode dp
        let ip ← ialloc d.dev type
        ivalid ip
        iupdate ip
        let x ← getInode ip
        let r ← dirlink dp path x.inum
        if r < 0 then Prog.panic "create: dirlink"
        else do
          iput dp
          pure (some ip)) s₁ (fun r s' => Moves (result r) s s') := by
  rw [Runs.bind_iff, runs_getInode, Runs.bind_iff]
  unfold ialloc
  rw [Runs.bind_iff, Runs.get_iff]
  apply (iallocLoop_moves s₁ _ _ _ _).mono
  · intro e he
    exact he.fullButTwo h1 dp dp fun i hi _ => one_of_ne hi
  · intro ip s₂ h2
    have h12 := h1.trans h2.1
    rw [Runs.bind_iff]
    apply (ivalid_moves h12 ip).mono
    · intro e he
      exact he.fullButTwo
    · intro _ s₃ h3
      rw [Runs.bind_iff]
      apply (iupdate_quiet ip s₃).mono
      · intro e he
        exact he.fullButTwo
      · intro _ s₄ h4
        have h14 := h3.quiet h4
        rw [Runs.bind_iff, runs_getInode, Runs.bind_iff]
        apply (dirlink_moves s₄ dp path _).mono
        · intro e he
          refine he.fullButTwo h14 dp ip fun i hi hi' => ?_
          rw [Pi.add_apply, one_of_ne hi, one_of_ne hi', add_zero]
        · intro r s₅ h5
          split
          · exact NotIget.fullButTwo (by simp)
          · rw [Runs.bind_iff]
            apply (iput_moves s₅ dp).mono
            · intro e he
              exact he.fullButTwo
            · intro _ s₆ h6
              have := (h14.trans h5).trans h6
              rwa [add_zero, add_right_comm, one_add_only, zero_add] at this

/-- `create` keeps a reference to the inode that it returns. When it stops for
lack of an entry, it holds the root directory and the new inode at most. -/
theorem create_moves (s : Fs) (path : CStr) (type : Nat) :
    Runs (FullButTwo s) (create path type) s (fun r s' => Moves (result r) s s') := by
  unfold create
  rw [Runs.bind_iff]
  apply (root_dir_moves s).mono
  · intro e he
    exact he.fullButTwo (Quiet.refl s).moves 0 0 fun _ _ _ => rfl
  · intro dp s₁ h1
    rw [Runs.bind_iff]
    apply (ivalid_moves h1.1 dp).mono
    · intro e he
      exact he.fullButTwo
    · intro _ s₂ h2
      rw [Runs.bind_iff]
      apply (dirlookup_moves s₂ dp path).mono
      · intro e he
        exact he.fullButTwo h2 dp dp fun i hi _ => one_of_ne hi
      · intro r s₃ h3
        have h23 := h2.trans h3
        cases r with
        | some r => exact create_found s s₃ dp r.1 type h23
        | none => exact create_new s s₃ dp type path (by rwa [found, add_zero] at h23)

end ThuKernel
