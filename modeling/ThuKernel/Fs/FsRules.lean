-- The steps of the file system code as rules: what `bread` gives, and what
-- one block looks like after it was read, or changed and written.
import ThuKernel.Fs.Fs
import ThuKernel.Fs.BioLaws
import ThuKernel.Vm.Copy

namespace ThuKernel

variable {E : Stop → Prop} {s : Fs} {α : Type}

/-! ## The small steps -/

theorem runs_onBio {f : Prog Bio α} {Q : α → Fs → Prop} :
    Runs E (onBio f) s Q ↔ Runs E f s.bio (fun a t => Q a { s with bio := t }) :=
  Runs.on_iff

@[simp] theorem runs_bpData {bp : Nat} {Q : Bytes → Fs → Prop} :
    Runs E (bpData bp) s Q ↔ Q (s.bio.core bp).data s := Iff.rfl

@[simp] theorem runs_setBpData {bp : Nat} {d : Bytes} {Q : Unit → Fs → Prop} :
    Runs E (setBpData bp d) s Q ↔ Q () { s with bio := s.bio.setData bp d } := Iff.rfl

@[simp] theorem runs_bwrite {bp : Nat} {Q : Unit → Fs → Prop} :
    Runs E (onBio (bwrite bp)) s Q ↔ Q () { s with bio := s.bio.diskWrite bp } := Iff.rfl

@[simp] theorem runs_brelse {bp : Nat} {Q : Unit → Fs → Prop} :
    Runs E (onBio (brelse bp)) s Q ↔ Q () { s with bio := s.bio.release bp } := Iff.rfl

@[simp] theorem runs_getInode {ip : Nat} {Q : inode → Fs → Prop} :
    Runs E (getInode ip) s Q ↔ Q (s.itable ip) s := Iff.rfl

@[simp] theorem runs_setInode {ip : Nat} {x : inode} {Q : Unit → Fs → Prop} :
    Runs E (setInode ip x) s Q ↔ Q () { s with itable := Function.update s.itable ip x } := Iff.rfl

@[simp] theorem runs_liftM {x : Except Stop α} {Q : α → Fs → Prop} :
    Runs E (liftM x : Prog Fs α) s Q ↔
      (∀ a, x = .ok a → Q a s) ∧ ∀ e, x = .error e → E e := by
  cases x with
  | error e => simp [Runs, liftM, monadLift, MonadLift.monadLift, StateT.lift, bind, Except.bind]
  | ok a => simp [Runs, liftM, monadLift, MonadLift.monadLift, StateT.lift, bind, Except.bind, pure,
      Except.pure]

/-- A copy to any destination returns 0 or -1. -/
theorem runs_either_copyout {dst : Dst} {tot : Nat} {src : List Byte} {Q : Int × Dst → Fs → Prop}
    (h : ∀ r dst', either_copyout dst tot src = .ok (r, dst') → r = 0 ∨ r = -1 → Q (r, dst') s) :
    Runs E (liftM (either_copyout dst tot src) : Prog Fs (Int × Dst)) s Q := by
  rw [runs_liftM]
  cases dst with
  | kernel got =>
    refine ⟨fun a ha => ?_, fun e he => by simp [either_copyout] at he⟩
    have h0 : either_copyout (.kernel got) tot src = .ok (0, .kernel (got ++ src)) := rfl
    rw [h0] at ha
    cases ha
    exact h _ _ h0 (Or.inl rfl)
  | user mm pagetable va =>
    have hc := copyout_runs (E := fun _ => False) (s := mm) pagetable (va + tot) src
    cases hrun : copyout pagetable (va + tot) src mm with
    | error e => exact (hc.of_error hrun).elim
    | ok r =>
      have h0 : either_copyout (.user mm pagetable va) tot src =
          .ok (r.1, .user r.2 pagetable va) := by
        dsimp only [either_copyout]
        rw [hrun]
      refine ⟨fun a ha => ?_, fun e he => by rw [h0] at he; cases he⟩
      rw [h0] at ha
      cases ha
      exact h _ _ h0 (hc.of_ok hrun).1

/-- A copy from any source returns 0 with all the bytes, or -1 with fewer. A
kernel buffer never fails. -/
theorem runs_either_copyin {src : Src} {tot len : Nat} {Q : Int × List Byte → Fs → Prop}
    (h : ∀ r bytes, either_copyin src tot len = .ok (r, bytes) → r = 0 ∨ r = -1 →
      bytes.length ≤ len → Q (r, bytes) s) :
    Runs E (liftM (either_copyin src tot len) : Prog Fs (Int × List Byte)) s Q := by
  rw [runs_liftM]
  cases src with
  | kernel bytes =>
    refine ⟨fun a ha => ?_, fun e he => by simp [either_copyin] at he⟩
    have h0 : either_copyin (.kernel bytes) tot len = .ok (0, (bytes.drop tot).take len) := rfl
    rw [h0] at ha
    cases ha
    exact h _ _ h0 (Or.inl rfl) (List.length_take_le _ _)
  | user mm pagetable va =>
    have hc := copyin_runs (E := fun _ => False) (s := mm) pagetable (va + tot) len
    cases hrun : copyin pagetable (va + tot) len mm with
    | error e => exact (hc.of_error hrun).elim
    | ok r =>
      have h0 : either_copyin (.user mm pagetable va) tot len = .ok r.1 := by
        dsimp only [either_copyin]
        rw [hrun]
      refine ⟨fun a ha => ?_, fun e he => by rw [h0] at he; cases he⟩
      rw [h0] at ha
      cases ha
      obtain ⟨_, hr⟩ := hc.of_ok hrun
      exact h _ _ h0 (hr.result.imp And.left And.left) hr.length_le

/-! ## One block -/

/-- In `t`, buffer `bp` is taken for block `b`, and since `s` only blocks in
`T` were changed. -/
structure Held (T : Set Nat) (s t : Bio) (bp b : Nat) : Prop where
  cache : CacheOk t
  since : Since (some bp) T s t
  has : HasBlock t bp b

namespace Held

variable {T : Set Nat} {s t u : Bio} {bp b : Nat} {d : Bytes}

theorem follow (hh : Held T s t bp b) (hc : CacheOk u) (hu : Follows T t u) : Held T s u bp b :=
  ⟨hc, hh.since.trans hu, hu.hasBlock hh.has⟩

theorem mono {T' : Set Nat} (hh : Held T s t bp b) (hT : T ⊆ T') : Held T' s t bp b :=
  ⟨hh.cache, hh.since.mono hT, hh.has⟩

theorem update (hh : Held T s t bp b) (hT : b ∈ T) (hu : u = (t.setData bp d).diskWrite bp) :
    Held T s u bp b := by
  obtain ⟨h1, h2, _⟩ := update_spec hh.cache hh.has hu
  exact ⟨h1, hh.since.update hh.cache hh.has hT hu, h2⟩

/-- New data in the buffer, not yet written. -/
theorem setData (hh : Held T s t bp b) (hT : b ∈ T) : Held T s (t.setData bp d) bp b := by
  obtain ⟨h1, h2, _⟩ := setData_spec (d := d) hh.cache hh.has
  exact ⟨h1, hh.since.setData hh.cache hh.has hT, h2⟩

theorem release (hh : Held T s t bp b) : CacheOk (t.release bp) ∧ Follows T s (t.release bp) :=
  ⟨(release_spec hh.cache hh.has).1, hh.since.release hh.cache hh.has⟩

end Held

/-- Every block that the cache holds is as on the disk. -/
def AllClean (s : Bio) : Prop := ∀ b, Clean s b

theorem onBread (hs : CacheOk s.bio) (hr : Room s.bio) (b : Nat) :
    Runs E (onBio (bread ROOTDEV b)) s (fun bp s' => ∃ t, s' = { s with bio := t } ∧
      Held ∅ s.bio t bp b ∧ t.disk = s.bio.disk ∧
      (Clean s.bio b → (t.core bp).data = s.bio.disk b)) := by
  rw [runs_onBio]
  refine (bread_spec hs hr b).imp fun bp t h => ?_
  exact ⟨t, rfl, ⟨h.1, h.2.1, h.2.2.1⟩, h.2.2.2⟩

section Block

variable {s t u : Bio} {bp b : Nat} {d : Bytes} {T : Set Nat}

/-- A block that was only read. -/
theorem Held.read (hh : Held T s t bp b) (hd : t.disk = s.disk) :
    CacheOk (t.release bp) ∧ Follows T s (t.release bp) ∧ (t.release bp).disk = s.disk ∧
      ∀ b', Clean t b' → Clean (t.release bp) b' :=
  ⟨hh.release.1, hh.release.2, (release_spec hh.cache hh.has).2.1.trans hd,
    fun _ hc => hc.release hh.cache hh.has⟩

/-- A block that was changed, written and released. -/
theorem Held.write (hh : Held T s t bp b) (hT : b ∈ T) :
    CacheOk (((t.setData bp d).diskWrite bp).release bp) ∧
      Follows T s (((t.setData bp d).diskWrite bp).release bp) ∧
      (((t.setData bp d).diskWrite bp).release bp).disk = Function.update t.disk b d ∧
      Clean (((t.setData bp d).diskWrite bp).release bp) b ∧
      ∀ b', Clean t b' → Clean (((t.setData bp d).diskWrite bp).release bp) b' := by
  obtain ⟨_, _, _, _, h5, h6, h7⟩ := update_spec (d := d) hh.cache hh.has rfl
  have hu := hh.update (d := d) hT rfl
  refine ⟨hu.release.1, hu.release.2, ?_, h6.release hu.cache hu.has,
    fun b' hc => (h7 b' hc).release hu.cache hu.has⟩
  rw [(release_spec hu.cache hu.has).2.1, h5]

end Block

end ThuKernel
