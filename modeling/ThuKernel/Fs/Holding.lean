-- Which buffers the file system code holds: each function gives back all that it takes,
-- and holds two at most at any time.
import ThuKernel.Lib.Through
import ThuKernel.Fs.Lru
import ThuKernel.Fs.FsRules
import ThuKernel.Fs.Dir
import ThuKernel.Fs.WriteRead
import Mathlib.Algebra.BigOperators.Group.Finset.Basic
import Mathlib.Algebra.Order.BigOperators.Group.Finset

namespace ThuKernel

/-- The steps of the file system code that do not take or give back a buffer on the way. -/
inductive FsStep : (α : Type) → Prog Fs α → Prop
  | ret {α : Type} (a : α) : FsStep α (pure a)
  | state : FsStep Fs get
  | table (ip : Nat) (x : inode) : FsStep Unit (setInode ip x)
  | data (bp : Nat) (d : Bytes) : FsStep Unit (setBpData bp d)
  | bread (dev b : Nat) : FsStep Nat (onBio (bread dev b))
  | bwrite (bp : Nat) : FsStep Unit (onBio (bwrite bp))
  | brelse (bp : Nat) : FsStep Unit (onBio (brelse bp))
  | copy {α : Type} (x : Except Stop α) : FsStep α (liftM x)
  | panic {α : Type} (msg : String) : FsStep α (Prog.panic msg)
  | fault {α : Type} (why : String) : FsStep α (Prog.fault why)

/-- Beyond the counts `r`, at most `n` buffers are held. -/
structure Holding (r : Nat → Int) (n : Nat) (t : Bio) : Prop where
  list : ListOk t
  ge : ∀ i, r i ≤ counts t i
  le : (Finset.range NBUF).sum (fun i => counts t i - r i) ≤ n

/-- How many buffers are in no use. -/
def unused (r : Nat → Int) : Nat := ((Finset.range NBUF).filter fun i => r i = 0).card

/-- From `s`, the program holds at most `n` buffers beyond `r` at any time, and has given
them back when it returns. It lacks a buffer only if fewer than `n` were in no use. -/
structure Borrows {α : Type} (n : Nat) (r : Nat → Int) (f : Prog Fs α) (s : Fs) : Prop where
  through : Through FsStep (fun t => Holding r n t.bio) f s
  runs : Runs (fun e => e = noBuffers → unused r < n) f s fun _ s' => ListOk s'.bio ∧
    counts s'.bio = r

/-- The program gives back all that it takes. -/
def Keeps {α : Type} (n : Nat) (f : Prog Fs α) : Prop :=
  ∀ s, ListOk s.bio → Borrows n (counts s.bio) f s

/-- The counts without one hold of buffer `bp`. -/
def without (r : Nat → Int) (bp : Nat) : Nat → Int := Function.update r bp (r bp - 1)

/-- The program also gives back buffer `bp`, which is held at its start. -/
def HandsBack {α : Type} (n bp : Nat) (f : Prog Fs α) : Prop :=
  ∀ s, ListOk s.bio → bp < NBUF → 0 < counts s.bio bp → Borrows n (without (counts s.bio) bp) f s

variable {α β : Type} {f : Prog Fs α} {g : α → Prog Fs β} {m n bp i dev b : Nat} {r : Nat → Int}
  {s s' : Fs} {t u : Bio}

/-! ## Counts -/

theorem Holding.refl (h : ListOk t) (n : Nat) : Holding (counts t) n t := by
  refine ⟨h, fun i => Int.le_refl _, ?_⟩
  simp

theorem Holding.mono (h : Holding r m t) (hmn : m ≤ n) : Holding r n t :=
  ⟨h.list, h.ge, h.le.trans (by exact_mod_cast hmn)⟩

/-- The sum of the counts, with one hold more. -/
theorem sum_without (hbp : bp < NBUF) (f : Nat → Int) :
    (Finset.range NBUF).sum (fun i => f i - without r bp i) = (Finset.range NBUF).sum
    (fun i => f i - r i) + 1 := by
  have hmem : bp ∈ Finset.range NBUF := Finset.mem_range.mpr hbp
  rw [← Finset.add_sum_erase _ _ hmem, ← Finset.add_sum_erase _ (fun i => f i - r i) hmem]
  have hrest : ((Finset.range NBUF).erase bp).sum (fun i => f i - without r bp i) =
      ((Finset.range NBUF).erase bp).sum fun i => f i - r i := by
    apply Finset.sum_congr rfl
    intro i hi
    unfold without
    rw [Function.update_of_ne (Finset.ne_of_mem_erase hi)]
  rw [hrest]
  unfold without
  rw [Function.update_self]
  omega

theorem without_le (r : Nat → Int) (bp i : Nat) : without r bp i ≤ r i := by
  unfold without
  rw [Function.update_apply]
  split
  · rename_i hi
    rw [hi]
    omega
  · exact Int.le_refl _

/-- What a program holds beyond `r` when it holds `bp` already. -/
theorem Holding.without (h : Holding r m t) (hbp : bp < NBUF) :
    Holding (without r bp) (m + 1) t := by
  refine ⟨h.list, fun i => (without_le r bp i).trans (h.ge i), ?_⟩
  have := h.le
  rw [sum_without hbp]
  push_cast
  omega

theorem unused_without (r : Nat → Int) (bp : Nat) : unused (without r bp) ≤ unused r + 1 := by
  have hsub : (Finset.range NBUF).filter (fun i => without r bp i = 0) ⊆
      insert bp ((Finset.range NBUF).filter fun i => r i = 0) := by
    intro i hi
    rw [Finset.mem_filter] at hi
    by_cases hib : i = bp
    · rw [hib]
      exact Finset.mem_insert_self ..
    · unfold ThuKernel.without at hi
      rw [Function.update_of_ne hib] at hi
      exact Finset.mem_insert_of_mem (Finset.mem_filter.mpr hi)
  exact (Finset.card_le_card hsub).trans (Finset.card_insert_le _ _)

/-! ## The rules -/

theorem Borrows.bind {Q : α → Fs → Prop} (hf : Through FsStep (fun t => Holding r n t.bio) f s)
    (hr : Runs (fun e => e = noBuffers → unused r < n) f s Q)
    (hg : ∀ a s', Q a s' → Borrows n r (g a) s') :
    Borrows n r (f >>= g) s :=
  ⟨.bind hf fun a s' hok => (hg a s' (hr.of_ok hok)).through, hr.bind fun a s' h =>
    (hg a s' h).runs⟩

theorem Keeps.mono (hf : Keeps m f) (hmn : m ≤ n) : Keeps n f := by
  intro s hs
  obtain ⟨h1, h2⟩ := hf s hs
  exact ⟨h1.mono fun _ h => h.mono hmn,
    h2.mono (fun e he hn => (he hn).trans_le hmn) fun _ _ h => h⟩

theorem Keeps.bind (hf : Keeps n f) (hg : ∀ a, Keeps n (g a)) : Keeps n (f >>= g) := by
  intro s hs
  obtain ⟨h1, h2⟩ := hf s hs
  refine Borrows.bind h1 h2 fun a s' h => ?_
  rw [← h.2]
  exact hg a s' h.1

/-- A step that leaves the list and the counts alone. -/
theorem Keeps.step (hA : FsStep α f)
    (h : ∀ s, ListOk s.bio → Runs (· ≠ noBuffers) f s fun _ s' => ListOk s'.bio ∧
    counts s'.bio = counts s.bio) : Keeps n f := by
  intro s hs
  refine ⟨.step hA (Holding.refl hs n) fun a s' hok => ?_,
    (h s hs).mono (fun e he hn => absurd hn he) fun _ _ h => h⟩
  obtain ⟨h1, h2⟩ := (h s hs).of_ok hok
  rw [← h2]
  exact Holding.refl h1 n

theorem Taken.before {l : List Nat} {block : Nat × Nat} (h : Taken t l block i u) :
    without (ThuKernel.counts u) i = ThuKernel.counts t := by
  unfold ThuKernel.without
  rw [h.counts, Function.update_self, Function.update_idem, Int.add_sub_cancel,
    Function.update_eq_self]

/-- A buffer is taken, and the rest gives it back. -/
theorem Keeps.take {g : Nat → Prog Fs β} (hn : 0 < n) (hg : ∀ bp, HandsBack n bp (g bp)) :
    Keeps n (onBio (bread dev b) >>= g) := by
  intro s hs
  obtain ⟨⟨l, hring, hperm⟩, _⟩ := id hs
  have hread : Runs (fun e => e = noBuffers ∧ ∀ i < NBUF, counts s.bio i ≠ 0)
      (onBio (bread dev b)) s
      fun bp s' => ∃ t, s' = { s with bio := t } ∧ Taken s.bio l (dev, b) bp t := by
    rw [runs_onBio]
    exact (bread_taken hring hperm dev b).imp fun bp t h => ⟨t, rfl, h⟩
  refine Borrows.bind (.step (.bread dev b) (Holding.refl hs n) fun bp s' hok => ?_)
    (hread.mono (fun e he _ => ?_) fun _ _ h => h) ?_
  · obtain ⟨t, rfl, h⟩ := hread.of_ok hok
    have hheld := (Holding.refl (h.listOk hs) 0).without h.lt
    rw [h.before] at hheld
    exact hheld.mono hn
  · -- All buffers are in use.
    have hnone : unused (counts s.bio) = 0 := by
      unfold unused
      rw [Finset.card_eq_zero, Finset.filter_eq_empty_iff]
      exact fun i hi => he.2 i (Finset.mem_range.mp hi)
    rwa [hnone]
  · rintro bp _ ⟨t, rfl, h⟩
    have hpos : 0 < counts t bp := by
      have := hs.counts bp
      rw [h.counts, Function.update_self]
      omega
    have hgive := hg bp { s with bio := t } (h.listOk hs) h.lt hpos
    rwa [h.before] at hgive

namespace HandsBack

/-- Work with the buffer held. -/
theorem bind (hf : Keeps m f) (hmn : m < n) (hg : ∀ a, HandsBack n bp (g a)) :
    HandsBack n bp (f >>= g) := by
  intro s hs hbp hpos
  obtain ⟨h1, h2⟩ := hf s hs
  refine Borrows.bind (h1.mono fun _ h => (h.without hbp).mono hmn)
    (h2.mono (fun e he hn => ?_) fun _ _ h => h) fun a s' h => ?_
  · have h3 := he hn
    have h4 := unused_without (counts s.bio) bp
    omega
  · rw [← h.2] at hpos ⊢
    exact hg a s' h.1 hbp hpos

theorem give (hn : 0 < n) : HandsBack n bp (onBio (brelse bp)) := by
  intro s hs hbp hpos
  have hok := release_listOk hs hbp hpos
  have hcounts : counts (s.bio.release bp) = without (counts s.bio) bp := release_counts s.bio bp
  refine ⟨.step (.brelse bp) (((Holding.refl hs 0).without hbp).mono hn) fun _ s' hrel => ?_, ?_⟩
  · cases hrel
    dsimp only
    rw [← hcounts]
    exact Holding.refl hok n
  · rw [runs_brelse]
    exact ⟨hok, hcounts⟩

/-- A panic gives nothing back, but it does not return. -/
theorem panic {msg : String} (hn : 0 < n) (h : msg ≠ "bget: no buffers") :
    HandsBack n bp (Prog.panic msg : Prog Fs α) := by
  intro s hs hbp _
  refine ⟨.step (.panic msg) (((Holding.refl hs 0).without hbp).mono hn) fun _ _ hok =>
    (by cases hok), ?_⟩
  rw [Runs.panic_iff]
  intro hc
  cases hc
  exact absurd rfl h

theorem ite {c : Prop} [Decidable c] {f' : Prog Fs α} (h : HandsBack n bp f)
    (h' : HandsBack n bp f') : HandsBack n bp (if c then f else f') := by
  split
  · exact h
  · exact h'

/-- Work after the buffer was given back. -/
theorem tail (hf : HandsBack n bp f) (hg : ∀ a, Keeps n (g a)) : HandsBack n bp (f >>= g) := by
  intro s hs hbp hpos
  obtain ⟨h1, h2⟩ := hf s hs hbp hpos
  refine Borrows.bind h1 h2 fun a s' h => ?_
  rw [← h.2]
  exact hg a s' h.1

end HandsBack

/-! ## The steps that leave the buffers alone -/

namespace Keeps

theorem ret (a : α) : Keeps n (pure a : Prog Fs α) := .step (.ret a) fun _ hs => ⟨hs, rfl⟩

theorem state : Keeps n (get : Prog Fs Fs) := .step .state fun _ hs => ⟨hs, rfl⟩

theorem getInode (ip : Nat) : Keeps n (getInode ip) := state.bind fun _ => ret _

theorem setInode (ip : Nat) (x : inode) : Keeps n (setInode ip x) :=
  .step (.table ip x) fun _ hs => ⟨hs, rfl⟩

theorem bpData (bp : Nat) : Keeps n (bpData bp) := state.bind fun _ => ret _

theorem setBpData (bp : Nat) (d : Bytes) : Keeps n (setBpData bp d) := by
  refine .step (.data bp d) fun s hs => ?_
  rw [runs_setBpData]
  have hcounts : counts (s.bio.setData bp d) = counts s.bio := by
    funext i
    unfold counts
    rw [Bio.core_setData]
    split
    · rename_i hi
      rw [hi]
    · rfl
  obtain ⟨h1, h2⟩ := s.bio.links_set bp { s.bio.buf bp with data := d } rfl rfl
  exact ⟨⟨hs.ring.of_links h1 h2, fun i => by rw [hcounts]; exact hs.counts i⟩, hcounts⟩

theorem bwrite (bp : Nat) : Keeps n (onBio (bwrite bp)) := by
  refine .step (.bwrite bp) fun s hs => ?_
  rw [runs_bwrite]
  exact ⟨⟨hs.ring, hs.counts⟩, rfl⟩

theorem copyout (dst : Dst) (tot : Nat) (src : List Byte) :
    Keeps n (liftM (either_copyout dst tot src) : Prog Fs (Int × Dst)) :=
  .step (.copy _) fun _ hs => runs_either_copyout fun _ _ _ _ => ⟨hs, rfl⟩

theorem copyin (src : Src) (tot len : Nat) :
    Keeps n (liftM (either_copyin src tot len) : Prog Fs (Int × List Byte)) :=
  .step (.copy _) fun _ hs => runs_either_copyin fun _ _ _ _ _ => ⟨hs, rfl⟩

theorem panic {msg : String} (h : msg ≠ "bget: no buffers") :
    Keeps n (Prog.panic msg : Prog Fs α) := by
  refine .step (.panic msg) fun _ _ => ?_
  rw [Runs.panic_iff]
  intro hc
  cases hc
  exact h rfl

theorem fault (why : String) : Keeps n (Prog.fault why : Prog Fs α) := by
  refine .step (.fault why) fun _ _ => ?_
  rw [Runs.fault_iff]
  intro hc
  cases hc

theorem ite {c : Prop} [Decidable c] {f' : Prog Fs α} (h : Keeps n f) (h' : Keeps n f') :
    Keeps n (if c then f else f') := by
  split
  · exact h
  · exact h'

theorem when {c : Prop} [Decidable c] {f : Prog Fs Unit} (h : Keeps n f) :
    Keeps n (Prog.when c f) := ite h (ret ())

theorem forUp {body : Nat → Prog Fs Unit} (h : ∀ i, Keeps n (body i)) (lo k : Nat) :
    Keeps n (Prog.forUp body lo k) := by
  induction k generalizing lo with
  | zero => exact ret ()
  | succ k ih => exact (h lo).bind fun _ => ih (lo + 1)

end Keeps

/-! ## Blocks -/

namespace HandsBack

/-- The buffer is given back, and then the rest runs. -/
theorem done {f : Prog Fs α} (hn : 0 < n) (hf : Keeps n f) :
    HandsBack n bp (onBio (brelse bp) >>= fun _ => f) :=
  (give hn).tail fun _ => hf

/-- The buffer is changed, written and given back. -/
theorem write {d : Bytes} {f : Prog Fs α} (hn : 0 < n) (hf : Keeps n f) : HandsBack n bp (do
    setBpData bp d
    onBio (bwrite bp)
    onBio (brelse bp)
    f) :=
  .bind (.setBpData bp d) hn fun _ => .bind (.bwrite bp) hn fun _ => .done hn hf

end HandsBack

variable {ip : Nat}

theorem bzero_keeps (dev bno : Nat) : Keeps 1 (bzero dev bno) := by
  refine Keeps.take Nat.one_pos fun bp => .bind (.bpData bp) Nat.one_pos fun d => ?_
  exact .bind (.setBpData bp _) Nat.one_pos fun _ => .bind (.bwrite bp) Nat.one_pos fun _ =>
    .give Nat.one_pos

theorem ballocLoop_keeps (dev k b : Nat) : Keeps 1 (ballocLoop dev k b) := by
  induction k generalizing b with
  | zero => exact .panic (by decide)
  | succ k ih =>
    refine Keeps.state.bind fun s => .ite ?_ (.panic (by decide))
    refine Keeps.take Nat.one_pos fun bp => .bind (.bpData bp) Nat.one_pos fun d => ?_
    cases firstFree d s.sb.size b BPB 0 with
    | some bi => exact .write Nat.one_pos ((bzero_keeps dev _).bind fun _ => .ret _)
    | none => exact .done Nat.one_pos (ih _)

theorem balloc_keeps (dev : Nat) : Keeps 1 (balloc dev) :=
  Keeps.state.bind fun _ => ballocLoop_keeps dev _ 0

theorem bfree_keeps (dev b : Nat) : Keeps 1 (bfree dev b) := by
  refine Keeps.state.bind fun s => Keeps.take Nat.one_pos fun bp =>
    .bind (.bpData bp) Nat.one_pos fun d => ?_
  refine .ite (.panic Nat.one_pos (by decide)) ?_
  exact .bind (.setBpData bp _) Nat.one_pos fun _ => .bind (.bwrite bp) Nat.one_pos fun _ =>
    .give Nat.one_pos

/-! ## Inodes -/

theorem iget_keeps (dev inum : Nat) : Keeps n (iget dev inum) := by
  refine Keeps.state.bind fun s => ?_
  cases (List.range NINODE).find? (fun i =>
      decide (0 < (s.itable i).ref) && (s.itable i).dev == dev && (s.itable i).inum == inum) with
  | some i => exact (Keeps.setInode i _).bind fun _ => .ret i
  | none =>
    dsimp only
    cases (List.range NINODE).find? (fun i => (s.itable i).ref == 0) with
    | none => exact .panic (by decide)
    | some i => exact (Keeps.setInode i _).bind fun _ => .ret i

theorem iallocLoop_keeps (dev type k inum : Nat) : Keeps 1 (iallocLoop dev type k inum) := by
  induction k generalizing inum with
  | zero => exact .panic (by decide)
  | succ k ih =>
    refine Keeps.state.bind fun s => .ite ?_ (.panic (by decide))
    refine Keeps.take Nat.one_pos fun bp => .bind (.bpData bp) Nat.one_pos fun d => .ite ?_ ?_
    · exact .write Nat.one_pos (iget_keeps dev inum)
    · exact .done Nat.one_pos (ih _)

theorem ialloc_keeps (dev type : Nat) : Keeps 1 (ialloc dev type) :=
  Keeps.state.bind fun _ => iallocLoop_keeps dev type _ 1

theorem iupdate_keeps (ip : Nat) : Keeps 1 (iupdate ip) := by
  refine Keeps.state.bind fun s => Keeps.take Nat.one_pos fun bp =>
    .bind (.bpData bp) Nat.one_pos fun d => ?_
  exact .bind (.setBpData bp _) Nat.one_pos fun _ => .bind (.bwrite bp) Nat.one_pos fun _ =>
    .give Nat.one_pos

theorem ivalid_keeps (ip : Nat) : Keeps 1 (ivalid ip) := by
  refine Keeps.state.bind fun s => .ite (.ret ()) ?_
  refine Keeps.take Nat.one_pos fun bp => .bind (.bpData bp) Nat.one_pos fun d =>
    .done Nat.one_pos ?_
  exact (Keeps.setInode ip _).bind fun _ => .ite (.panic (by decide)) (.ret ())

theorem iput_keeps (ip : Nat) : Keeps n (iput ip) :=
  (Keeps.getInode ip).bind fun _ => .setInode ip _

/-! ## Inode content -/

theorem bmapAddr_keeps (ip k : Nat) : Keeps 1 (bmapAddr ip k) := by
  refine (Keeps.getInode ip).bind fun x => .ite ?_ (.ret _)
  exact (balloc_keeps x.dev).bind fun addr => (Keeps.getInode ip).bind fun y =>
    (Keeps.setInode ip _).bind fun _ => .ret addr

/-- `balloc` runs while the indirect block is held. -/
theorem bmapIndirect_keeps (ip addr bn : Nat) : Keeps 2 (bmapIndirect ip addr bn) := by
  refine (Keeps.getInode ip).bind fun x => Keeps.take Nat.two_pos fun bp =>
    .bind (.bpData bp) Nat.two_pos fun a => .ite ?_ ?_
  · refine .bind (balloc_keeps x.dev) Nat.one_lt_two fun addr =>
      .bind (.bpData bp) Nat.two_pos fun a => ?_
    exact .write Nat.two_pos (.ret addr)
  · exact .done Nat.two_pos (.ret _)

theorem bmap_keeps (ip bn : Nat) : Keeps 2 (bmap ip bn) := by
  refine .ite ((bmapAddr_keeps ip bn).mono (Nat.le_succ 1)) (.ite ?_ (.panic (by decide)))
  exact ((bmapAddr_keeps ip NDIRECT).mono (Nat.le_succ 1)).bind fun addr =>
    bmapIndirect_keeps ip addr _

/-- The blocks of the indirect block are freed while it is held. -/
theorem itrunc_keeps (ip : Nat) : Keeps 2 (itrunc ip) := by
  have hfree : ∀ dev b, Keeps 2 (bfree dev b) :=
    fun dev b => (bfree_keeps dev b).mono (Nat.le_succ 1)
  refine Keeps.bind (Keeps.forUp (fun i => ?_) 0 NDIRECT) fun _ =>
    (Keeps.getInode ip).bind fun x => ?_
  · refine (Keeps.getInode ip).bind fun x => .when ?_
    exact (hfree x.dev _).bind fun _ => (Keeps.getInode ip).bind fun y => .setInode ip _
  refine Keeps.bind (.when ?_) fun _ => (Keeps.getInode ip).bind fun y =>
    (Keeps.setInode ip _).bind fun _ =>
    (iupdate_keeps ip).mono (Nat.le_succ 1)
  refine Keeps.take Nat.two_pos fun bp =>
    .bind (Keeps.forUp (fun j => ?_) 0 NINDIRECT) Nat.one_lt_two fun _ => ?_
  · exact (Keeps.bpData bp).bind fun a => .when (bfree_keeps x.dev _)
  · exact .done Nat.two_pos ((hfree x.dev _).bind fun _ => (Keeps.getInode ip).bind fun y =>
      .setInode ip _)

theorem readiLoop_keeps (ip k fuel tot off : Nat) (dst : Dst) :
    Keeps 2 (readiLoop ip k fuel tot off dst) := by
  induction fuel generalizing tot off dst with
  | zero => exact .fault _
  | succ fuel ih =>
    refine .ite ?_ (.ret _)
    refine (bmap_keeps ip _).bind fun addr => (Keeps.getInode ip).bind fun x =>
      Keeps.take Nat.two_pos fun bp => ?_
    refine .bind (.bpData bp) Nat.two_pos fun d => .bind (.copyout dst tot _) Nat.two_pos fun r =>
      .done Nat.two_pos ?_
    exact .ite (.ret _) (ih _ _ _)

theorem readi_keeps (ip : Nat) (dst : Dst) (off k : Nat) : Keeps 2 (readi ip dst off k) := by
  exact (Keeps.getInode ip).bind fun x => .ite (.ret _) (readiLoop_keeps ip _ _ _ _ _)

/-- Also when a copy fails with the buffer held. -/
theorem writeiLoop_keeps (ip : Nat) (src : Src) (k fuel tot off : Nat) :
    Keeps 2 (writeiLoop ip src k fuel tot off) := by
  induction fuel generalizing tot off with
  | zero => exact .fault _
  | succ fuel ih =>
    refine .ite ?_ (.ret _)
    refine (bmap_keeps ip _).bind fun addr => (Keeps.getInode ip).bind fun x =>
      Keeps.take Nat.two_pos fun bp => ?_
    refine .bind (.copyin src tot _) Nat.two_pos fun r => .bind (.bpData bp) Nat.two_pos fun d => ?_
    refine .bind (.setBpData bp _) Nat.two_pos fun _ => .ite (.done Nat.two_pos (.ret _)) ?_
    exact .bind (.bwrite bp) Nat.two_pos fun _ => .done Nat.two_pos (ih _ _)

theorem writei_keeps (ip : Nat) (src : Src) (off k : Nat) : Keeps 2 (writei ip src off k) := by
  refine (Keeps.getInode ip).bind fun x => .ite (.ret _) (.ite (.ret _) ?_)
  refine (writeiLoop_keeps ip src k _ 0 off).bind fun r => (Keeps.getInode ip).bind fun x => ?_
  refine Keeps.bind (.when (.setInode ip _)) fun _ => ?_
  exact ((iupdate_keeps ip).mono (Nat.le_succ 1)).bind fun _ => .ret _

/-! ## The directory -/

theorem dirlookupLoop_keeps (dp : Nat) (name : CStr) (k off : Nat) :
    Keeps 2 (dirlookupLoop dp name k off) := by
  induction k generalizing off with
  | zero => exact .fault _
  | succ k ih =>
    refine (Keeps.getInode dp).bind fun x => .ite ?_ (.ret _)
    refine (readi_keeps dp _ off _).bind fun r =>
      .ite (.panic (by decide)) (.ite (ih _) (.ite ?_ (ih _)))
    exact (iget_keeps x.dev _).bind fun ip => .ret _

theorem dirlookup_keeps (dp : Nat) (name : CStr) : Keeps 2 (dirlookup dp name) := by
  exact (Keeps.getInode dp).bind fun x =>
    .ite (.panic (by decide)) (dirlookupLoop_keeps dp name _ 0)

theorem dirScan_keeps (dp : Nat) (stop : List Byte → Bool) (k off : Nat) (de : List Byte) :
    Keeps 2 (dirScan dp stop k off de) := by
  induction k generalizing off de with
  | zero => exact .fault _
  | succ k ih =>
    refine (Keeps.getInode dp).bind fun x => .ite ?_ (.ret _)
    exact (readi_keeps dp _ off _).bind fun r => .ite (.panic (by decide)) (.ite (.ret _) (ih _ _))

theorem dirlink_keeps (dp : Nat) (name : CStr) (inum : Nat) : Keeps 2 (dirlink dp name inum) := by
  refine (dirlookup_keeps dp name).bind fun r => ?_
  cases r with
  | some r => exact (iput_keeps r.1).bind fun _ => .ret _
  | none =>
    refine (Keeps.getInode dp).bind fun x => (dirScan_keeps dp _ _ _ _).bind fun e => ?_
    exact (writei_keeps dp _ _ _).bind fun r => .ite (.panic (by decide)) (.ret _)

theorem dirunlink_keeps (dp : Nat) (name : CStr) (behind : Bytes) :
    Keeps 2 (dirunlink dp name behind) := by
  refine (dirlookup_keeps dp name).bind fun r => ?_
  cases r with
  | none => exact .ret _
  | some r =>
    refine (Keeps.getInode dp).bind fun x => (dirScan_keeps dp _ _ _ _).bind fun e => ?_
    exact (Keeps.getInode dp).bind fun x =>
      .ite (.ret _) ((writei_keeps dp _ _ _).bind fun _ => .ret _)

/-! ## File operations -/

/-- A call of a function of fs.c. -/
inductive FileOp where
  | balloc (dev : Nat)
  | bfree (dev b : Nat)
  | ialloc (dev type : Nat)
  | iupdate (ip : Nat)
  | ivalid (ip : Nat)
  | bmap (ip bn : Nat)
  | itrunc (ip : Nat)
  | readi (ip : Nat) (dst : Dst) (off n : Nat)
  | writei (ip : Nat) (src : Src) (off n : Nat)
  | dirlookup (dp : Nat) (name : CStr)
  | dirlink (dp : Nat) (name : CStr) (inum : Nat)
  | dirunlink (dp : Nat) (name : CStr) (behind : Bytes)

/-- The call, without its result. -/
def FileOp.run : FileOp → Prog Fs Unit
  | .balloc dev => do
    let _ ← ThuKernel.balloc dev
  | .bfree dev b => ThuKernel.bfree dev b
  | .ialloc dev type => do
    let _ ← ThuKernel.ialloc dev type
  | .iupdate ip => ThuKernel.iupdate ip
  | .ivalid ip => ThuKernel.ivalid ip
  | .bmap ip bn => do
    let _ ← ThuKernel.bmap ip bn
  | .itrunc ip => ThuKernel.itrunc ip
  | .readi ip dst off n => do
    let _ ← ThuKernel.readi ip dst off n
  | .writei ip src off n => do
    let _ ← ThuKernel.writei ip src off n
  | .dirlookup dp name => do
    let _ ← ThuKernel.dirlookup dp name
  | .dirlink dp name inum => do
    let _ ← ThuKernel.dirlink dp name inum
  | .dirunlink dp name behind => do
    let _ ← ThuKernel.dirunlink dp name behind

/-- Calls one after the other. -/
def runOps : List FileOp → Prog Fs Unit
  | [] => pure ()
  | op :: ops => do
    op.run
    runOps ops

theorem FileOp.keeps (op : FileOp) : Keeps 2 op.run := by
  cases op with
  | balloc dev => exact ((balloc_keeps dev).mono (Nat.le_succ 1)).bind fun _ => .ret ()
  | bfree dev b => exact (bfree_keeps dev b).mono (Nat.le_succ 1)
  | ialloc dev type => exact ((ialloc_keeps dev type).mono (Nat.le_succ 1)).bind fun _ => .ret ()
  | iupdate ip => exact (iupdate_keeps ip).mono (Nat.le_succ 1)
  | ivalid ip => exact (ivalid_keeps ip).mono (Nat.le_succ 1)
  | bmap ip bn => exact (bmap_keeps ip bn).bind fun _ => .ret ()
  | itrunc ip => exact itrunc_keeps ip
  | readi ip dst off n => exact (readi_keeps ip dst off n).bind fun _ => .ret ()
  | writei ip src off n => exact (writei_keeps ip src off n).bind fun _ => .ret ()
  | dirlookup dp name => exact (dirlookup_keeps dp name).bind fun _ => .ret ()
  | dirlink dp name inum => exact (dirlink_keeps dp name inum).bind fun _ => .ret ()
  | dirunlink dp name behind => exact (dirunlink_keeps dp name behind).bind fun _ => .ret ()

theorem runOps_keeps (ops : List FileOp) : Keeps 2 (runOps ops) := by
  induction ops with
  | nil => exact .ret ()
  | cons op ops ih => exact op.keeps.bind fun _ => ih

/-- After the start, no buffer is in use. -/
theorem unused_zero : unused 0 = NBUF := by
  unfold unused
  simp

/-- Each call holds at most two buffers beyond those that were held before it, at any
time, and leaves every count as it was when it returns. So it finds a buffer when two are
in no use, and calls one after the other always find one. -/
theorem every_buffer_is_given_back :
    (∀ (op : FileOp) (s : Fs), ListOk s.bio →
      Through FsStep (fun t => Holding (counts s.bio) 2 t.bio) op.run s ∧
      (∀ s', op.run s = .ok ((), s') → counts s'.bio = counts s.bio) ∧
      (2 ≤ unused (counts s.bio) → op.run s ≠ .error noBuffers)) ∧
    ∀ (ops : List FileOp) (disk : Nat → Bytes) (s : Fs), s.bio = binit disk →
    runOps ops s ≠ .error noBuffers := by
  refine ⟨fun op s hs => ?_, fun ops disk s hbio herr => ?_⟩
  · obtain ⟨h1, h2⟩ := op.keeps s hs
    refine ⟨h1, fun s' hok => (h2.of_ok hok).2, fun hfree herr => ?_⟩
    have := h2.of_error herr rfl
    omega
  · obtain ⟨hlist, hzero⟩ := binit_listOk disk
    have hruns := (runOps_keeps ops s (by rw [hbio]; exact hlist)).runs
    have hfew := hruns.of_error herr rfl
    rw [hbio, hzero, unused_zero] at hfew
    exact absurd hfew (by decide)

/-- A file of the small disk is written, read and emptied. -/
theorem every_buffer_is_given_back_of_a_file :
    Through FsStep (fun t => Holding (counts (binit smallDisk)) 2 t.bio) (FileOp.itrunc 1).run
    (smallFs (binit smallDisk)) ∧
    (runOps [.writei 1 (.kernel [1]) 1 1, .readi 1 (.kernel []) 0 2,
    .itrunc 1] (smallFs (binit smallDisk)) ≠ .error noBuffers) ∧
    (runOps [.writei 1 (.kernel [1]) 1 1, .readi 1 (.kernel []) 0 2, .itrunc 1]).returns
    (smallFs (binit smallDisk)) = true :=
  ⟨(every_buffer_is_given_back.1 (.itrunc 1) (smallFs (binit smallDisk))
    (binit_listOk smallDisk).1).1, every_buffer_is_given_back.2 _ _ _ rfl, by decide +kernel⟩

end ThuKernel
