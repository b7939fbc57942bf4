-- The buffer rules of the file system code: each function gives back every
-- buffer it takes, holds two at most, and writes each block it changes.
import ThuKernel.Fs.FsRules
import ThuKernel.Fs.Dir

namespace ThuKernel

/-- Any stop but the panic of `bget`. -/
def NotBget (e : Stop) : Prop := e ≠ .panic "bget: no buffers"

@[simp] theorem notBget_fault (why : String) : NotBget (.fault why) := by
  simp [NotBget]

@[simp] theorem notBget_panic (msg : String) :
    NotBget (.panic msg) ↔ msg ≠ "bget: no buffers" := by
  simp [NotBget]

/-- What every function of the file system keeps. `c` is the condition under
which the cache stays equal to the disk. -/
structure Tame (c : Prop) (s s' : Fs) : Prop where
  cache : CacheOk s'.bio
  bio : Follows Set.univ s.bio s'.bio
  sb : s'.sb = s.sb
  dev : ∀ i, (s.itable i).dev = ROOTDEV → (s'.itable i).dev = ROOTDEV
  clean : c → AllClean s.bio → AllClean s'.bio

namespace Tame

variable {c c' : Prop} {s s₁ s₂ : Fs}

theorem refl (hs : CacheOk s.bio) : Tame c s s :=
  ⟨hs, Since.refl _ _, rfl, fun _ h => h, fun _ h => h⟩

theorem trans (h : Tame c s s₁) (h' : Tame c s₁ s₂) : Tame c s s₂ :=
  ⟨h'.cache, h.bio.trans h'.bio, h'.sb.trans h.sb, fun i hi => h'.dev i (h.dev i hi),
    fun hc hs => h'.clean hc (h.clean hc hs)⟩

theorem weaken (h : Tame c s s₁) (hc : c' → c) : Tame c' s s₁ :=
  ⟨h.cache, h.bio, h.sb, h.dev, fun h1 => h.clean (hc h1)⟩

theorem room (h : Tame c s s₁) (hr : Room s.bio) : Room s₁.bio := h.bio.room hr

theorem room2 (h : Tame c s s₁) (hr : Room2 s.bio) : Room2 s₁.bio := h.bio.room2 hr

/-- A change of the inode table that keeps the device numbers. -/
theorem setItable {t : Nat → inode} (h : Tame c s s₁)
    (ht : ∀ i, (s₁.itable i).dev = ROOTDEV → (t i).dev = ROOTDEV) :
    Tame c s { s₁ with itable := t } :=
  ⟨h.cache, h.bio, h.sb, fun i hi => ht i (h.dev i hi), h.clean⟩

theorem setInode {i : Nat} {x : inode} (h : Tame c s s₁) (hx : x.dev = (s₁.itable i).dev) :
    Tame c s { s₁ with itable := Function.update s₁.itable i x } := by
  apply h.setItable
  intro j hj
  rw [Function.update_apply]
  split
  · subst j; rw [hx]; exact hj
  · exact hj

/-- A new cache, from the state in which the buffers were counted last. -/
theorem setBio {u : Bio} (hc : CacheOk u) (hf : Follows Set.univ s.bio u)
    (hclean : c → AllClean s.bio → AllClean u) : Tame c s { s with bio := u } :=
  ⟨hc, hf, rfl, fun _ h => h, hclean⟩

end Tame

variable {s : Fs}

theorem Held.tame_read {c : Prop} {t : Bio} {bp b : Nat} (hh : Held ∅ s.bio t bp b) :
    Tame c s { s with bio := t.release bp } := by
  refine Tame.setBio hh.release.1 (hh.release.2.mono (Set.empty_subset _)) fun _ hs b' => ?_
  exact (hh.since.clean b' (by simp) (hs b')).release hh.cache hh.has

theorem Held.tame_write {c : Prop} {t : Bio} {bp b : Nat} {d : Bytes} (hh : Held ∅ s.bio t bp b) :
    Tame c s { s with bio := ((t.setData bp d).diskWrite bp).release bp } := by
  obtain ⟨h1, h2, _, _, h5⟩ := (hh.mono (Set.empty_subset Set.univ)).write (d := d) (Set.mem_univ b)
  exact Tame.setBio h1 h2 fun _ hs b' => h5 b' (hh.since.clean b' (by simp) (hs b'))

/-- A block that was changed and released without a write stays as on the
disk only if the change was none. -/
theorem Held.tame_dirty {c : Prop} {t : Bio} {bp b : Nat} {d : Bytes} (hh : Held ∅ s.bio t bp b)
    (hd : c → d = (t.core bp).data) :
    Tame c s { s with bio := (t.setData bp d).release bp } := by
  have hu := (hh.mono (Set.empty_subset Set.univ)).setData (d := d) (Set.mem_univ b)
  refine Tame.setBio hu.release.1 hu.release.2 fun hc hs b' => ?_
  refine Clean.release hu.cache hu.has (Clean.of_core (s := t) ?_ (fun i _ => ?_) rfl)
  · exact hh.since.clean b' (by simp) (hs b')
  · rw [Bio.core_setData]
    split
    · subst i; rw [hd hc]
    · rfl

/-! ## Blocks -/

theorem bzero_tame (c : Prop) (hs : CacheOk s.bio) (hr : Room s.bio) (b : Nat) :
    Runs NotBget (bzero ROOTDEV b) s
      (fun _ s' => Tame c s s' ∧ s'.itable = s.itable) := by
  refine (onBread hs hr b).bind ?_
  rintro bp _ ⟨t, rfl, hh, _, _⟩
  simp only [Runs.bind_iff, runs_bpData, runs_setBpData, runs_bwrite, runs_brelse]
  exact ⟨hh.tame_write, trivial⟩

theorem ballocLoop_tame (c : Prop) (hs : CacheOk s.bio) (hr : Room s.bio) (n b : Nat) :
    Runs NotBget (ballocLoop ROOTDEV n b) s
      (fun _ s' => Tame c s s' ∧ s'.itable = s.itable) := by
  induction n generalizing s b with
  | zero => simp [ballocLoop]
  | succ n ih =>
    unfold ballocLoop
    simp only [Runs.bind_iff, Runs.get_iff]
    split
    · refine (onBread hs hr _).bind ?_
      rintro bp _ ⟨t, rfl, hh, _, _⟩
      simp only [Runs.bind_iff, runs_bpData]
      cases firstFree (t.core bp).data s.sb.size b BPB 0 with
      | some bi =>
        simp only [Runs.bind_iff, runs_setBpData, runs_bwrite, runs_brelse, Runs.pure_iff]
        have h1 := hh.tame_write (c := c) (d := (t.core bp).data.setBit bi)
        refine (bzero_tame c h1.cache (h1.room hr) (b + bi)).imp fun _ s' h2 => ?_
        exact ⟨h1.trans h2.1, h2.2⟩
      | none =>
        simp only [Runs.bind_iff, runs_brelse]
        have h1 := hh.tame_read (c := c)
        refine (ih h1.cache (h1.room hr) _).imp fun _ s' h2 => ?_
        exact ⟨h1.trans h2.1, h2.2⟩
    · simp

theorem balloc_tame (c : Prop) (hs : CacheOk s.bio) (hr : Room s.bio) :
    Runs NotBget (balloc ROOTDEV) s (fun _ s' => Tame c s s' ∧ s'.itable = s.itable) := by
  unfold balloc
  simp only [Runs.bind_iff, Runs.get_iff]
  exact ballocLoop_tame c hs hr _ _

theorem bfree_tame (c : Prop) (hs : CacheOk s.bio) (hr : Room s.bio) (b : Nat) :
    Runs NotBget (bfree ROOTDEV b) s (fun _ s' => Tame c s s' ∧ s'.itable = s.itable) := by
  unfold bfree
  simp only [Runs.bind_iff, Runs.get_iff]
  refine (onBread hs hr _).imp ?_
  rintro bp _ ⟨t, rfl, hh, _, _⟩
  simp only [runs_bpData]
  split
  · simp
  · simp only [Runs.bind_iff, runs_setBpData, runs_bwrite, runs_brelse]
    exact ⟨hh.tame_write, trivial⟩

/-! ## Inodes -/

theorem iget_tame (c : Prop) (hs : CacheOk s.bio) (inum : Nat) :
    Runs NotBget (iget ROOTDEV inum) s
      (fun i s' => Tame c s s' ∧ (s'.itable i).dev = ROOTDEV) := by
  unfold iget
  simp only [Runs.bind_iff, Runs.get_iff]
  cases h : (List.range NINODE).find? (fun i =>
      decide (0 < (s.itable i).ref) && (s.itable i).dev == ROOTDEV &&
        (s.itable i).inum == inum) with
  | some i =>
    have hp := List.find?_some h
    simp only [Bool.and_eq_true, beq_iff_eq] at hp
    simp only [Runs.bind_iff, runs_setInode, Runs.pure_iff]
    exact ⟨(Tame.refl hs).setInode rfl, by simpa using hp.1.2⟩
  | none =>
    simp only
    cases (List.range NINODE).find? (fun i => (s.itable i).ref == 0) with
    | none => simp
    | some i =>
      simp only [Runs.bind_iff, runs_setInode, Runs.pure_iff]
      refine ⟨(Tame.refl hs).setItable fun j hj => ?_, by simp⟩
      rw [Function.update_apply]
      split
      · rfl
      · exact hj

theorem iallocLoop_tame (c : Prop) (hs : CacheOk s.bio) (hr : Room s.bio) (type n inum : Nat) :
    Runs NotBget (iallocLoop ROOTDEV type n inum) s
      (fun i s' => Tame c s s' ∧ (s'.itable i).dev = ROOTDEV) := by
  induction n generalizing s inum with
  | zero => simp [iallocLoop]
  | succ n ih =>
    unfold iallocLoop
    simp only [Runs.bind_iff, Runs.get_iff]
    split
    · refine (onBread hs hr _).bind ?_
      rintro bp _ ⟨t, rfl, hh, _, _⟩
      simp only [Runs.bind_iff, runs_bpData]
      split
      · simp only [Runs.bind_iff, runs_setBpData, runs_bwrite, runs_brelse]
        have h1 := hh.tame_write (c := c) (d := freshDinode (t.core bp).data inum type)
        refine (iget_tame c h1.cache inum).imp fun i s' h2 => ?_
        exact ⟨h1.trans h2.1, h2.2⟩
      · simp only [Runs.bind_iff, runs_brelse]
        have h1 := hh.tame_read (c := c)
        refine (ih h1.cache (h1.room hr) _).imp fun i s' h2 => ?_
        exact ⟨h1.trans h2.1, h2.2⟩
    · simp

theorem ialloc_tame (c : Prop) (hs : CacheOk s.bio) (hr : Room s.bio) (type : Nat) :
    Runs NotBget (ialloc ROOTDEV type) s
      (fun i s' => Tame c s s' ∧ (s'.itable i).dev = ROOTDEV) := by
  unfold ialloc
  simp only [Runs.bind_iff, Runs.get_iff]
  exact iallocLoop_tame c hs hr _ _ _

theorem iupdate_tame (c : Prop) (hs : CacheOk s.bio) (hr : Room s.bio) {ip : Nat}
    (hip : (s.itable ip).dev = ROOTDEV) :
    Runs NotBget (iupdate ip) s (fun _ s' => Tame c s s') := by
  unfold iupdate
  simp only [Runs.bind_iff, Runs.get_iff, hip]
  refine (onBread hs hr _).imp ?_
  rintro bp _ ⟨t, rfl, hh, _, _⟩
  simp only [runs_bpData, runs_setBpData, runs_bwrite, runs_brelse]
  exact hh.tame_write

theorem ivalid_tame (c : Prop) (hs : CacheOk s.bio) (hr : Room s.bio) {ip : Nat}
    (hip : (s.itable ip).dev = ROOTDEV) :
    Runs NotBget (ivalid ip) s (fun _ s' => Tame c s s') := by
  unfold ivalid
  simp only [Runs.bind_iff, Runs.get_iff, hip]
  split
  · simp only [Runs.pure_iff]
    exact Tame.refl hs
  · refine (onBread hs hr _).bind ?_
    rintro bp _ ⟨t, rfl, hh, _, _⟩
    simp only [Runs.bind_iff, runs_bpData, runs_brelse, runs_setInode]
    split
    · simp
    · simp only [Runs.pure_iff]
      exact hh.tame_read.setInode hip.symm

theorem iput_tame (c : Prop) (hs : CacheOk s.bio) (ip : Nat) :
    Runs NotBget (iput ip) s (fun _ s' => Tame c s s') := by
  unfold iput
  simp only [Runs.bind_iff, runs_getInode, runs_setInode]
  exact (Tame.refl hs).setInode rfl

/-! ## Inode content -/

/-- A block that stayed in a buffer while another function ran, then was
changed, written and released. -/
theorem Held.tame_write_after {c : Prop} {s s₁ : Fs} {t : Bio} {bp b : Nat} {d : Bytes}
    (hh : Held ∅ s.bio t bp b) (h : Tame c { s with bio := t } s₁) :
    Tame c s { s₁ with bio := ((s₁.bio.setData bp d).diskWrite bp).release bp } := by
  have hh₁ := (hh.mono (Set.empty_subset Set.univ)).follow h.cache h.bio
  obtain ⟨h1, h2, _, _, h5⟩ := hh₁.write (d := d) (Set.mem_univ b)
  exact ⟨h1, h2, h.sb, h.dev, fun hc hs b' =>
    h5 b' (h.clean hc (fun b'' => hh.since.clean b'' (by simp) (hs b'')) b')⟩

theorem Held.tame_read_after {c : Prop} {s s₁ : Fs} {t : Bio} {bp b : Nat}
    (hh : Held ∅ s.bio t bp b) (h : Tame c { s with bio := t } s₁) :
    Tame c s { s₁ with bio := s₁.bio.release bp } := by
  have hh₁ := (hh.mono (Set.empty_subset Set.univ)).follow h.cache h.bio
  obtain ⟨h1, h2⟩ := hh₁.release
  refine ⟨h1, h2, h.sb, h.dev, fun hc hs b' => ?_⟩
  have := h.clean hc (fun b'' => hh.since.clean b'' (by simp) (hs b'')) b'
  exact this.release hh₁.cache hh₁.has

theorem bmapAddr_tame (c : Prop) (hs : CacheOk s.bio) (hr : Room s.bio) {ip : Nat}
    (hip : (s.itable ip).dev = ROOTDEV) (k : Nat) :
    Runs NotBget (bmapAddr ip k) s (fun _ s' => Tame c s s') := by
  unfold bmapAddr
  rw [Runs.bind_iff, runs_getInode, hip]
  split
  · refine (balloc_tame c hs hr).bind fun addr s₁ h1 => ?_
    simp only [Runs.bind_iff, runs_getInode, runs_setInode, Runs.pure_iff]
    exact h1.1.setInode rfl
  · exact Tame.refl hs

theorem bmapIndirect_tame (c : Prop) (hs : CacheOk s.bio) (hr : Room2 s.bio) {ip : Nat}
    (hip : (s.itable ip).dev = ROOTDEV) (addr bn : Nat) :
    Runs NotBget (bmapIndirect ip addr bn) s (fun _ s' => Tame c s s') := by
  unfold bmapIndirect
  rw [Runs.bind_iff, runs_getInode, hip]
  refine (onBread hs hr.room addr).bind ?_
  rintro bp _ ⟨t, rfl, hh, _, _⟩
  rw [Runs.bind_iff, runs_bpData]
  split
  · refine (balloc_tame c hh.cache (hh.since.room_of_room2 hr)).bind fun b s₂ h2 => ?_
    simp only [Runs.bind_iff, runs_bpData, runs_setBpData, runs_bwrite, runs_brelse, Runs.pure_iff]
    exact hh.tame_write_after h2.1
  · simp only [Runs.bind_iff, runs_brelse, Runs.pure_iff]
    exact hh.tame_read

theorem bmap_tame (c : Prop) (hs : CacheOk s.bio) (hr : Room2 s.bio) {ip : Nat}
    (hip : (s.itable ip).dev = ROOTDEV) (bn : Nat) :
    Runs NotBget (bmap ip bn) s (fun _ s' => Tame c s s') := by
  unfold bmap
  split
  · exact bmapAddr_tame c hs hr.room hip bn
  · split
    · refine (bmapAddr_tame c hs hr.room hip NDIRECT).bind fun addr s₁ h1 => ?_
      exact (bmapIndirect_tame c h1.cache (h1.room2 hr) (h1.dev ip hip) addr _).imp
        fun _ _ h2 => h1.trans h2
    · simp

theorem itrunc_tame (c : Prop) (hs : CacheOk s.bio) (hr : Room2 s.bio) {ip : Nat}
    (hip : (s.itable ip).dev = ROOTDEV) : Runs NotBget (itrunc ip) s (fun _ s' => Tame c s s') := by
  unfold itrunc
  refine Runs.bind (P := fun _ s' => Tame c s s') ?_ fun _ s₁ h1 => ?_
  · refine Runs.forUp (fun _ s' => Tame c s s') (fun i s' _ _ h => ?_) (Tame.refl hs)
    rw [Runs.bind_iff, runs_getInode, Runs.when_iff, h.dev ip hip]
    refine ⟨fun _ => ?_, fun _ => h⟩
    refine (bfree_tame c h.cache (h.room hr.room) _).bind fun _ s₂ h2 => ?_
    simp only [Runs.bind_iff, runs_getInode, runs_setInode]
    exact (h.trans h2.1).setInode rfl
  · rw [Runs.bind_iff, runs_getInode, h1.dev ip hip]
    refine Runs.bind (P := fun _ s' => Tame c s s') ?_ fun _ s₂ h2 => ?_
    · rw [Runs.when_iff]
      refine ⟨fun _ => ?_, fun _ => h1⟩
      refine (onBread h1.cache (h1.room2 hr).room _).bind ?_
      rintro bp _ ⟨t, rfl, hh, _, _⟩
      refine Runs.bind (P := fun _ s' => Tame c { s₁ with bio := t } s') ?_ fun _ s₂ h2 => ?_
      · have hroom := hh.since.room_of_room2 (h1.room2 hr)
        refine Runs.forUp (fun _ s' => Tame c { s₁ with bio := t } s') (fun j s' _ _ h => ?_)
          (Tame.refl hh.cache)
        rw [Runs.bind_iff, runs_bpData, Runs.when_iff]
        refine ⟨fun _ => ?_, fun _ => h⟩
        exact (bfree_tame c h.cache (h.room hroom) _).imp fun _ _ h3 => h.trans h3.1
      · have h3 := h1.trans (hh.tame_read_after h2)
        rw [Runs.bind_iff, runs_brelse]
        refine (bfree_tame c h3.cache (h3.room hr.room) _).bind fun _ s₃ h4 => ?_
        simp only [Runs.bind_iff, runs_getInode, runs_setInode]
        exact (h3.trans h4.1).setInode rfl
    · simp only [Runs.bind_iff, runs_getInode, runs_setInode]
      have h3 := h2.setInode (i := ip) (x := { s₂.itable ip with size := 0 }) rfl
      exact (iupdate_tame c h3.cache (h3.room hr.room) (h3.dev ip hip)).imp fun _ _ h4 =>
        h3.trans h4

theorem readiLoop_tame (c : Prop) (hs : CacheOk s.bio) (hr : Room2 s.bio) {ip : Nat}
    (hip : (s.itable ip).dev = ROOTDEV) (n fuel tot off : Nat) (dst : Dst) :
    Runs NotBget (readiLoop ip n fuel tot off dst) s (fun _ s' => Tame c s s') := by
  induction fuel generalizing s tot off dst with
  | zero => simp [readiLoop]
  | succ fuel ih =>
    unfold readiLoop
    split
    · refine (bmap_tame c hs hr hip _).bind fun addr s₁ h1 => ?_
      rw [Runs.bind_iff, runs_getInode, h1.dev ip hip]
      refine (onBread h1.cache (h1.room2 hr).room addr).bind ?_
      rintro bp _ ⟨t, rfl, hh, _, _⟩
      simp only [Runs.bind_iff, runs_bpData, runs_brelse]
      refine runs_either_copyout fun r dst' _ _ => ?_
      have h2 := h1.trans (hh.tame_read (c := c))
      split
      · exact h2
      · exact (ih h2.cache (h2.room2 hr) (h2.dev ip hip) _ _ _).imp fun _ _ h3 => h2.trans h3
    · exact Tame.refl hs

theorem readi_tame (c : Prop) (hs : CacheOk s.bio) (hr : Room2 s.bio) {ip : Nat}
    (hip : (s.itable ip).dev = ROOTDEV) (dst : Dst) (off n : Nat) :
    Runs NotBget (readi ip dst off n) s (fun _ s' => Tame c s s') := by
  unfold readi
  rw [Runs.bind_iff, runs_getInode]
  dsimp only
  split
  · exact Tame.refl hs
  · exact readiLoop_tame c hs hr hip _ _ _ _ _

/-- No chunk of the write fails with bytes copied: a chunk that starts on a
page of the source does not run on to a page that is not mapped. -/
def WholeChunks (src : Src) (n : Nat) : (fuel : Nat) → (tot off : Nat) → Prop
  | 0, _, _ => True
  | fuel + 1, tot, off =>
    tot < n → ∀ r bytes,
      either_copyin src tot (min (n - tot) (BSIZE - off % BSIZE)) = .ok (r, bytes) →
      (r = -1 → bytes = []) ∧
        (r ≠ -1 → WholeChunks src n fuel (tot + min (n - tot) (BSIZE - off % BSIZE))
          (off + min (n - tot) (BSIZE - off % BSIZE)))

theorem wholeChunks_kernel (bytes : List Byte) (n fuel tot off : Nat) :
    WholeChunks (.kernel bytes) n fuel tot off := by
  induction fuel generalizing tot off with
  | zero => trivial
  | succ fuel ih =>
    intro _ r bs h
    cases h
    exact ⟨fun h => by simp at h, fun _ => ih _ _⟩

theorem writeiLoop_tame (hs : CacheOk s.bio) (hr : Room2 s.bio) {ip : Nat}
    (hip : (s.itable ip).dev = ROOTDEV) (src : Src) (n fuel tot off : Nat) :
    Runs NotBget (writeiLoop ip src n fuel tot off) s
      (fun _ s' => Tame (WholeChunks src n fuel tot off) s s') := by
  induction fuel generalizing s tot off with
  | zero => simp [writeiLoop]
  | succ fuel ih =>
    unfold writeiLoop
    split
    · rename_i htot
      refine (bmap_tame (WholeChunks src n (fuel + 1) tot off) hs hr hip _).bind
        fun addr s₁ h1 => ?_
      rw [Runs.bind_iff, runs_getInode, h1.dev ip hip]
      refine (onBread h1.cache (h1.room2 hr).room addr).bind ?_
      rintro bp _ ⟨t, rfl, hh, _, _⟩
      rw [Runs.bind_iff]
      refine runs_either_copyin fun r bytes hcopy _ _ => ?_
      simp only [Runs.bind_iff, runs_bpData, runs_setBpData]
      split
      · -- The block is released without a write: it must be as it was.
        rename_i hfail
        simp only [Runs.bind_iff, runs_brelse, Runs.pure_iff]
        refine h1.trans (hh.tame_dirty fun hw => ?_)
        rw [(hw htot r bytes hcopy).1 hfail, Bytes.store_nil]
      · rename_i hok
        simp only [Runs.bind_iff, runs_bwrite, runs_brelse]
        have h2 := h1.trans (hh.tame_write (d := (t.core bp).data.store (off % BSIZE) bytes))
        refine (ih h2.cache (h2.room2 hr) (h2.dev ip hip) _ _).imp fun _ _ h3 => ?_
        exact h2.trans (h3.weaken fun hw => (hw htot r bytes hcopy).2 hok)
    · exact Tame.refl hs

theorem writei_tame (hs : CacheOk s.bio) (hr : Room2 s.bio) {ip : Nat}
    (hip : (s.itable ip).dev = ROOTDEV) (src : Src) (off n : Nat) :
    Runs NotBget (writei ip src off n) s
      (fun _ s' => Tame (WholeChunks src n (n + 1) 0 off) s s') := by
  unfold writei
  rw [Runs.bind_iff, runs_getInode]
  dsimp only
  split
  · exact Tame.refl hs
  · split
    · exact Tame.refl hs
    · refine (writeiLoop_tame hs hr hip src n (n + 1) 0 off).bind ?_
      rintro ⟨tot, off'⟩ s₁ h1
      simp only [Runs.bind_iff, runs_getInode, Runs.when_iff, runs_setInode, Runs.pure_iff]
      refine ⟨fun _ => ?_, fun _ => ?_⟩
      · have h2 := h1.setInode (i := ip) (x := { s₁.itable ip with size := off' }) rfl
        exact (iupdate_tame _ h2.cache (h2.room hr.room) (h2.dev ip hip)).imp
          fun _ _ h3 => h2.trans h3
      · exact (iupdate_tame _ h1.cache (h1.room hr.room) (h1.dev ip hip)).imp
          fun _ _ h3 => h1.trans h3

/-- A write from a kernel buffer never fails half way. -/
theorem writei_kernel_tame (c : Prop) (hs : CacheOk s.bio) (hr : Room2 s.bio) {ip : Nat}
    (hip : (s.itable ip).dev = ROOTDEV) (bytes : List Byte) (off n : Nat) :
    Runs NotBget (writei ip (.kernel bytes) off n) s (fun _ s' => Tame c s s') :=
  (writei_tame hs hr hip _ off n).imp fun _ _ h =>
    h.weaken fun _ => wholeChunks_kernel bytes n _ _ _

/-! ## The directory -/

theorem dirlookupLoop_tame (c : Prop) (hs : CacheOk s.bio) (hr : Room2 s.bio) {dp : Nat}
    (hdp : (s.itable dp).dev = ROOTDEV) (name : CStr) (n off : Nat) :
    Runs NotBget (dirlookupLoop dp name n off) s (fun r s' => Tame c s s' ∧
      ∀ ip poff, r = some (ip, poff) → (s'.itable ip).dev = ROOTDEV) := by
  induction n generalizing s off with
  | zero => simp [dirlookupLoop]
  | succ n ih =>
    unfold dirlookupLoop
    rw [Runs.bind_iff, runs_getInode]
    split
    · refine (readi_tame c hs hr hdp _ _ _).bind ?_
      rintro ⟨r, dst⟩ s₁ h1
      dsimp only
      have hnext := (ih h1.cache (h1.room2 hr) (h1.dev dp hdp) (off + DIRENT_SIZE)).imp
        fun _ _ h2 => (⟨h1.trans h2.1, h2.2⟩ : _ ∧ _)
      split
      · simp
      · split
        · exact hnext
        · split
          · rw [hdp]
            refine (iget_tame c h1.cache _).bind fun ip s₂ h2 => ?_
            rw [Runs.pure_iff]
            refine ⟨h1.trans h2.1, fun ip' poff he => ?_⟩
            cases he
            exact h2.2
          · exact hnext
    · exact ⟨Tame.refl hs, fun _ _ h => by cases h⟩

theorem dirlookup_tame (c : Prop) (hs : CacheOk s.bio) (hr : Room2 s.bio) {dp : Nat}
    (hdp : (s.itable dp).dev = ROOTDEV) (name : CStr) :
    Runs NotBget (dirlookup dp name) s (fun r s' => Tame c s s' ∧
      ∀ ip poff, r = some (ip, poff) → (s'.itable ip).dev = ROOTDEV) := by
  unfold dirlookup
  rw [Runs.bind_iff, runs_getInode]
  split
  · simp
  · exact dirlookupLoop_tame c hs hr hdp name _ _

theorem dirScan_tame (c : Prop) (hs : CacheOk s.bio) (hr : Room2 s.bio) {dp : Nat}
    (hdp : (s.itable dp).dev = ROOTDEV) (stop : List Byte → Bool) (n off : Nat) (de : List Byte) :
    Runs NotBget (dirScan dp stop n off de) s (fun _ s' => Tame c s s') := by
  induction n generalizing s off de with
  | zero => simp [dirScan]
  | succ n ih =>
    unfold dirScan
    rw [Runs.bind_iff, runs_getInode]
    split
    · refine (readi_tame c hs hr hdp _ _ _).bind ?_
      rintro ⟨r, dst⟩ s₁ h1
      dsimp only
      split
      · simp
      · split
        · exact h1
        · exact (ih h1.cache (h1.room2 hr) (h1.dev dp hdp) _ _).imp fun _ _ h2 => h1.trans h2
    · exact Tame.refl hs

theorem dirlink_tame (c : Prop) (hs : CacheOk s.bio) (hr : Room2 s.bio) {dp : Nat}
    (hdp : (s.itable dp).dev = ROOTDEV) (name : CStr) (inum : Nat) :
    Runs NotBget (dirlink dp name inum) s (fun _ s' => Tame c s s') := by
  unfold dirlink
  refine (dirlookup_tame c hs hr hdp name).bind ?_
  rintro r s₁ ⟨h1, _⟩
  cases r with
  | some r =>
    exact (iput_tame c h1.cache r.1).imp fun _ _ h2 => h1.trans h2
  | none =>
    dsimp only
    unfold dirinsert
    rw [Runs.bind_iff, runs_getInode]
    refine (dirScan_tame c h1.cache (h1.room2 hr) (h1.dev dp hdp) _ _ _ _).bind ?_
    rintro ⟨off, de⟩ s₂ h2
    dsimp only
    have h12 := h1.trans h2
    refine (writei_kernel_tame c h12.cache (h12.room2 hr) (h12.dev dp hdp) _ _ _).bind
      fun r s₃ h3 => ?_
    split
    · simp
    · exact h12.trans h3

theorem root_dir_tame (c : Prop) (hs : CacheOk s.bio) (hr : Room s.bio) :
    Runs NotBget root_dir s (fun r s' => Tame c s s' ∧ (s'.itable r).dev = ROOTDEV) := by
  unfold root_dir
  refine (iget_tame c hs ROOTINO).bind ?_
  rintro r s₁ ⟨h1, hdev⟩
  refine (ivalid_tame c h1.cache (h1.room hr) hdev).bind fun _ s₂ h2 => ?_
  exact ⟨h1.trans h2, h2.dev r hdev⟩

theorem dirunlink_tame (c : Prop) (hs : CacheOk s.bio) (hr : Room2 s.bio) {dp : Nat}
    (hdp : (s.itable dp).dev = ROOTDEV) (name : CStr) (behind : Bytes) :
    Runs NotBget (dirunlink dp name behind) s (fun _ s' => Tame c s s') := by
  unfold dirunlink
  refine (dirlookup_tame c hs hr hdp name).bind ?_
  rintro r s₁ ⟨h1, _⟩
  cases r with
  | none => exact h1
  | some r =>
    dsimp only
    unfold dirremove
    rw [Runs.bind_iff, runs_getInode]
    refine (dirScan_tame c h1.cache (h1.room2 hr) (h1.dev dp hdp) _ _ _ _).bind ?_
    rintro ⟨off, de⟩ s₂ h2
    rw [Runs.bind_iff, runs_getInode]
    have h12 := h1.trans h2
    split
    · exact h12
    · refine (writei_kernel_tame c h12.cache (h12.room2 hr) (h12.dev dp hdp) _ _ _).bind
        fun r s₃ h3 => ?_
      exact h12.trans h3

theorem namei_tame (c : Prop) (hs : CacheOk s.bio) (hr : Room2 s.bio) (path : CStr) :
    Runs NotBget (namei path) s (fun r s' => Tame c s s' ∧
      ∀ ip, r = some ip → (s'.itable ip).dev = ROOTDEV) := by
  unfold namei
  refine (root_dir_tame c hs hr.room).bind ?_
  rintro dp s₁ ⟨h1, hdp⟩
  refine (dirlookup_tame c h1.cache (h1.room2 hr) hdp path).bind ?_
  rintro r s₂ ⟨h2, hr'⟩
  rw [Runs.pure_iff]
  refine ⟨h1.trans h2, fun ip he => ?_⟩
  obtain ⟨⟨ip', poff⟩, rfl, rfl⟩ := Option.map_eq_some_iff.mp he
  exact hr' _ _ rfl

theorem create_tame (c : Prop) (hs : CacheOk s.bio) (hr : Room2 s.bio) (path : CStr) (type : Nat) :
    Runs NotBget (create path type) s (fun r s' => Tame c s s' ∧
      ∀ ip, r = some ip → (s'.itable ip).dev = ROOTDEV) := by
  unfold create
  refine (root_dir_tame c hs hr.room).bind ?_
  rintro dp s₁ ⟨h1, hdp₁⟩
  refine (ivalid_tame c h1.cache (h1.room hr.room) hdp₁).bind fun _ s₂ h2 => ?_
  have h12 := h1.trans h2
  have hdp₂ := h2.dev dp hdp₁
  refine (dirlookup_tame c h12.cache (h12.room2 hr) hdp₂ path).bind ?_
  rintro r s₃ ⟨h3, hr'⟩
  have h13 := h12.trans h3
  cases r with
  | some r =>
    obtain ⟨ip, poff⟩ := r
    dsimp only
    refine (iput_tame c h13.cache dp).bind fun _ s₄ h4 => ?_
    have h14 := h13.trans h4
    have hip := h4.dev ip (hr' ip poff rfl)
    refine (ivalid_tame c h14.cache (h14.room hr.room) hip).bind fun _ s₅ h5 => ?_
    have h15 := h14.trans h5
    rw [Runs.bind_iff, runs_getInode]
    split
    · refine ⟨h15, fun ip' he => ?_⟩
      cases he
      exact h5.dev ip hip
    · refine (iput_tame c h15.cache ip).bind fun _ s₆ h6 => ?_
      exact ⟨h15.trans h6, fun _ he => by cases he⟩
  | none =>
    have hdp₃ := h3.dev dp hdp₂
    rw [Runs.bind_iff, runs_getInode, hdp₃]
    refine (ialloc_tame c h13.cache (h13.room hr.room) type).bind ?_
    rintro ip s₄ ⟨h4, hip⟩
    have h14 := h13.trans h4
    refine (ivalid_tame c h14.cache (h14.room hr.room) hip).bind fun _ s₅ h5 => ?_
    have h15 := h14.trans h5
    refine (iupdate_tame c h15.cache (h15.room hr.room) (h5.dev ip hip)).bind fun _ s₆ h6 => ?_
    have h16 := h15.trans h6
    rw [Runs.bind_iff, runs_getInode]
    have hdp₆ := h6.dev dp (h5.dev dp (h4.dev dp hdp₃))
    refine (dirlink_tame c h16.cache (h16.room2 hr) hdp₆ path _).bind fun r s₇ h7 => ?_
    split
    · simp
    · refine (iput_tame c (h16.trans h7).cache dp).bind fun _ s₈ h8 => ?_
      refine ⟨(h16.trans h7).trans h8, fun ip' he => ?_⟩
      cases he
      exact h8.dev ip (h7.dev ip (h6.dev ip (h5.dev ip hip)))

end ThuKernel
