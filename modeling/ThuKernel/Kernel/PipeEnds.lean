-- The two ends of a pipe: which file is an end of which pipe, and what the
-- calls that make and close files do to the ends and to the pages of pipes.
import ThuKernel.Kernel.Ownership
import ThuKernel.Kernel.PipeLaws

namespace ThuKernel

/-- File `f` is an end of the pipe on page `pi`, the write end if `w`. -/
structure IsEnd (k : Kernel) (pi : Nat) (w : Bool) (f : Nat) : Prop where
  type : (k.filepool f).type = .FD_PIPE
  page : (k.filepool f).pipe = pi
  writable : (k.filepool f).writable = w

/-- Some file is an end of the pipe on page `pi`. -/
def PipePage (k : Kernel) (pi : Nat) : Prop := ∃ w f, IsEnd k pi w f

/-- `writeopen`, if `w`, and else `readopen`. -/
def pipe.isOpen (x : pipe) (w : Bool) : Bool := if w then x.writeopen else x.readopen

/-- A pipe is open at an end while there is a file for it, and there is one. The
pages `T` are of pipes that were left half made: they have one end only. -/
structure Ends (T : Nat → Prop) (k : Kernel) : Prop where
  free : ∀ f, (k.filepool f).ref ≤ 0 → (k.filepool f).type ≠ .FD_PIPE
  opened : ∀ pi w, PipePage k pi → ¬ T pi → ((k.pipes pi).isOpen w = true ↔ ∃ f, IsEnd k pi w f)
  one : ∀ pi w f g, IsEnd k pi w f → IsEnd k pi w g → f = g
  single : ∀ pi w f w' g, T pi → IsEnd k pi w f → IsEnd k pi w' g → f = g

/-- The state inside a call: pages, pipes and references. -/
structure PipesGood (lk : Link) (T X : Nat → Prop) (d : Nat → Int) (k : Kernel) (l : List Nat) :
    Prop where
  pages : PagesOk lk k (PipePage k) l
  ends : Ends T k
  tally : Tally X d k

variable {lk : Link} {E : Stop → Prop} {k k₁ k' : Kernel} {T X : Nat → Prop} {d : Nat → Int}
variable {P : Nat → Prop} {pi f g i : Nat} {w : Bool} {l l₁ : List Nat} {x y : pipe}

theorem IsEnd.congr (h : IsEnd k pi w f) (hf : k'.filepool f = k.filepool f) : IsEnd k' pi w f := by
  refine ⟨?_, ?_, ?_⟩
  · rw [hf]
    exact h.type
  · rw [hf]
    exact h.page
  · rw [hf]
    exact h.writable

theorem IsEnd.unique {pi' : Nat} {w' : Bool} (h : IsEnd k pi w f) (h' : IsEnd k pi' w' f) :
    pi = pi' ∧ w = w' :=
  ⟨h.page.symm.trans h'.page, h.writable.symm.trans h'.writable⟩

theorem Ends.pos (h : Ends T k) (hf : IsEnd k pi w f) : 0 < (k.filepool f).ref := by
  by_contra hc
  exact h.free f (by omega) hf.type

/-- The ends in another kernel with the same files. -/
theorem isEnd_same (hsame : ∀ f, (k'.filepool f).type = (k.filepool f).type ∧
    (k'.filepool f).pipe = (k.filepool f).pipe ∧
    (k'.filepool f).writable = (k.filepool f).writable) :
    IsEnd k' pi w f ↔ IsEnd k pi w f := by
  obtain ⟨h1, h2, h3⟩ := hsame f
  constructor
  · rintro ⟨h4, h5, h6⟩
    exact ⟨h1 ▸ h4, h2 ▸ h5, h3 ▸ h6⟩
  · rintro ⟨h4, h5, h6⟩
    exact ⟨h1 ▸ h4, h2 ▸ h5, h3 ▸ h6⟩

/-- The same ends, and the same pipes. -/
theorem Ends.same (h : Ends T k) (hends : ∀ pi w f, IsEnd k' pi w f ↔ IsEnd k pi w f)
    (hfree : ∀ f, (k'.filepool f).ref ≤ 0 → (k'.filepool f).type ≠ .FD_PIPE)
    (hopen : ∀ pi w, PipePage k pi → (k'.pipes pi).isOpen w = (k.pipes pi).isOpen w) :
    Ends T k' := by
  refine ⟨hfree, fun pi w hpage hT => ?_, fun pi w f g hf hg => ?_, fun pi w f w' g hT hf hg => ?_⟩
  · obtain ⟨w', f, hf⟩ := hpage
    rw [hopen pi w ⟨w', f, (hends ..).mp hf⟩, h.opened pi w ⟨w', f, (hends ..).mp hf⟩ hT]
    simp only [hends]
  · exact h.one pi w f g ((hends ..).mp hf) ((hends ..).mp hg)
  · exact h.single pi w f w' g hT ((hends ..).mp hf) ((hends ..).mp hg)

/-! ## Closing a file -/

/-- File `f` has one reference less. With its last one it is no end any more. -/
structure Closes (k k' : Kernel) (f : Nat) : Prop where
  ends : ∀ pi w g, IsEnd k' pi w g ↔ IsEnd k pi w g ∧ (g = f → 1 < (k.filepool f).ref)
  ref : ∀ g, (k'.filepool g).ref = (k.filepool g).ref - one f g
  pos : 1 ≤ (k.filepool f).ref
  pool : k'.pool = k.pool
  current : k'.current_proc = k.current_proc

/-- A page of a pipe that was made whole has a file that is an end of it, or it
went to the free list. -/
structure GivesBack (T : Nat → Prop) (k k' : Kernel) (l l' : List Nat) : Prop where
  free : ∀ a ∈ l, a ∈ l'
  page : ∀ pi, PipePage k pi → ¬ T pi → PipePage k' pi ∨ pi ∈ l'

theorem GivesBack.refl (hpage : ∀ pi, PipePage k pi → PipePage k' pi) : GivesBack T k k' l l :=
  ⟨fun _ ha => ha, fun pi hpi _ => Or.inl (hpage pi hpi)⟩

theorem GivesBack.trans {l₂ : List Nat} (h : GivesBack T k k₁ l l₁) (h' : GivesBack T k₁ k' l₁ l₂) :
    GivesBack T k k' l l₂ := by
  refine ⟨fun a ha => h'.free a (h.free a ha), fun pi hpi hT => ?_⟩
  rcases h.page pi hpi hT with hp | hp
  · exact h'.page pi hp hT
  · exact Or.inr (h'.free pi hp)

/-- What is left of the ends when file `f` is no pipe any more. -/
theorem isEnd_shut {x : file} (hfile : k'.filepool = Function.update k.filepool f x)
    (hx : x.type ≠ .FD_PIPE) :
    IsEnd k' pi w g ↔ IsEnd k pi w g ∧ g ≠ f := by
  have hcases : g ≠ f → k'.filepool g = k.filepool g := by
    intro hne
    rw [hfile, Function.update_of_ne hne]
  constructor
  · intro h
    have hne : g ≠ f := by
      rintro rfl
      have := h.type
      rw [hfile, Function.update_self] at this
      exact hx this
    exact ⟨h.congr (hcases hne).symm, hne⟩
  · rintro ⟨h, hne⟩
    exact h.congr (hcases hne)

theorem pipe.isOpen_shut (x : pipe) (w w' : Bool) :
    (x.shut w).isOpen w' = (x.isOpen w' && (w' != w)) := by
  cases w <;> cases w' <;> simp [pipe.isOpen, pipe.shut]

theorem pipe.closed_iff (x : pipe) (w : Bool) : (x.readopen = false ∧ x.writeopen = false) ↔
    x.isOpen w = false ∧ x.isOpen (!w) = false := by
  cases w <;> simp [pipe.isOpen, and_comm]

/-- One reference of several is dropped. -/
theorem closes_more (hp : PagesOk lk k (PipePage k) l) (he : Ends T k)
    (hmore : 0 < (k.filepool f).ref - 1)
    (hk : k' = { k with filepool := Function.update k.filepool f { k.filepool f with
      ref := (k.filepool f).ref - 1 } }) :
    PagesOk lk k' (PipePage k') l ∧ Ends T k' ∧ Closes k k' f ∧ GivesBack T k k' l l := by
  subst hk
  have hfile : ∀ g, g ≠ f → Function.update k.filepool f { k.filepool f with
      ref := (k.filepool f).ref - 1 } g = k.filepool g := fun g hg => Function.update_of_ne hg _ _
  have hsame : ∀ pi w g, IsEnd { k with filepool := Function.update k.filepool f { k.filepool f with
      ref := (k.filepool f).ref - 1 } } pi w g ↔ IsEnd k pi w g := by
    intro pi w g
    apply isEnd_same
    intro j
    dsimp only
    by_cases hj : j = f
    · rw [hj, Function.update_self]
      exact ⟨rfl, rfl, rfl⟩
    · rw [hfile j hj]
      exact ⟨rfl, rfl, rfl⟩
  refine ⟨?_, he.same hsame (fun g hg => ?_) (fun _ _ _ => rfl),
    ⟨fun pi w g => ?_, fun g => ?_, by omega, rfl, rfl⟩, GivesBack.refl ?_⟩
  · refine hp.same rfl ?_ (fun _ => rfl) (fun _ => rfl) (fun _ => rfl) fun _ => Iff.rfl
    rintro a ⟨w, g, hg⟩
    exact ⟨w, g, (hsame ..).mp hg⟩
  · dsimp only at hg ⊢
    by_cases hgf : g = f
    · rw [hgf, Function.update_self] at hg
      dsimp only at hg
      omega
    · rw [hfile g hgf] at hg ⊢
      exact he.free g hg
  · rw [hsame]
    exact ⟨fun h => ⟨h, fun _ => by omega⟩, fun h => h.1⟩
  · dsimp only
    unfold one only
    by_cases hgf : g = f
    · rw [hgf, Function.update_self, if_pos rfl]
    · rw [hfile g hgf, if_neg hgf, sub_zero]
  · rintro pi ⟨w, g, hg⟩
    exact ⟨w, g, (hsame ..).mpr hg⟩

/-- A file is shut with its last reference. -/
theorem Closes.last {x : file} (hfile : k'.filepool = Function.update k.filepool f x)
    (hx : x.type ≠ .FD_PIPE) (hx0 : x.ref = 0) (h1 : (k.filepool f).ref = 1)
    (hpool : k'.pool = k.pool) (hcur : k'.current_proc = k.current_proc) : Closes k k' f := by
  refine ⟨fun pi w g => ?_, fun g => ?_, by omega, hpool, hcur⟩
  · rw [isEnd_shut hfile hx]
    apply and_congr_right
    intro _
    rw [h1]
    exact ⟨fun hne hg => absurd hg hne, fun hlt hg => absurd (hlt hg) (by decide)⟩
  · rw [hfile]
    unfold one only
    by_cases hg : g = f
    · rw [hg, Function.update_self, if_pos rfl, hx0, h1]
      rfl
    · rw [Function.update_of_ne hg, if_neg hg, sub_zero]

/-- The last reference of a file that is no pipe. -/
theorem closes_other {x : file} (hp : PagesOk lk k (PipePage k) l) (he : Ends T k)
    (h1 : (k.filepool f).ref = 1) (hf : (k.filepool f).type ≠ .FD_PIPE) (hx : x.type ≠ .FD_PIPE)
    (hx0 : x.ref = 0) (hfile : k'.filepool = Function.update k.filepool f x) (hmm : k'.mm = k.mm)
    (hpipes : k'.pipes = k.pipes) (hpool : k'.pool = k.pool)
    (hcur : k'.current_proc = k.current_proc) :
    PagesOk lk k' (PipePage k') l ∧ Ends T k' ∧ Closes k k' f ∧ GivesBack T k k' l l := by
  have hsame : ∀ pi w g, IsEnd k' pi w g ↔ IsEnd k pi w g := by
    intro pi w g
    rw [isEnd_shut hfile hx]
    refine ⟨fun h => h.1, fun h => ⟨h, ?_⟩⟩
    rintro rfl
    exact hf h.type
  refine ⟨?_, he.same hsame (fun g hg => ?_) (fun _ _ _ => by rw [hpipes]),
    Closes.last hfile hx hx0 h1 hpool hcur, GivesBack.refl ?_⟩
  · refine hp.same hmm ?_ (fun _ => by rw [hpool]) (fun _ => by rw [hpool]) (fun _ => by rw [hpool])
      fun _ => by rw [hpool]
    rintro a ⟨w, g, hg⟩
    exact ⟨w, g, (hsame ..).mp hg⟩
  · rw [hfile] at hg ⊢
    by_cases hgf : g = f
    · rw [hgf, Function.update_self]
      exact hx
    · rw [Function.update_of_ne hgf] at hg ⊢
      exact he.free g hg
  · rintro pi ⟨w, g, hg⟩
    exact ⟨w, g, (hsame ..).mpr hg⟩

/-- The last reference of an end: the pipe is shut at this end. -/
theorem Ends.shut {x : file} {y : pipe} (he : Ends T k) (hend : IsEnd k pi w f)
    (hx : x.type ≠ .FD_PIPE) (hfile : k'.filepool = Function.update k.filepool f x)
    (hpipes : k'.pipes = Function.update k.pipes pi y)
    (hy : ∀ w', y.isOpen w' = ((k.pipes pi).isOpen w' && (w' != w))) : Ends T k' := by
  have hends : ∀ pi' w' g, IsEnd k' pi' w' g ↔ IsEnd k pi' w' g ∧ g ≠ f :=
    fun _ _ _ => isEnd_shut hfile hx
  refine ⟨fun g hg => ?_, fun pi' w' hpage hT => ?_, fun pi' w' g g' hg hg' => ?_,
    fun pi' w₁ g w₂ g' hT hg hg' => ?_⟩
  · rw [hfile] at hg ⊢
    by_cases hgf : g = f
    · rw [hgf, Function.update_self]
      exact hx
    · rw [Function.update_of_ne hgf] at hg ⊢
      exact he.free g hg
  · have hpage' : PipePage k pi' := by
      obtain ⟨w₁, g, hg⟩ := hpage
      exact ⟨w₁, g, ((hends ..).mp hg).1⟩
    have hopen := he.opened pi' w' hpage' hT
    simp only [hends]
    by_cases hpi : pi' = pi
    · subst hpi
      rw [hpipes, Function.update_self, hy, Bool.and_eq_true, hopen, bne_iff_ne]
      constructor
      · rintro ⟨⟨g, hg⟩, hne⟩
        refine ⟨g, hg, ?_⟩
        rintro rfl
        exact hne (hg.unique hend).2
      · rintro ⟨g, hg, hne⟩
        refine ⟨⟨g, hg⟩, ?_⟩
        rintro rfl
        exact hne (he.one _ _ g f hg hend)
    · rw [hpipes, Function.update_of_ne hpi, hopen]
      constructor
      · rintro ⟨g, hg⟩
        refine ⟨g, hg, ?_⟩
        rintro rfl
        exact hpi (hg.unique hend).1
      · rintro ⟨g, hg, _⟩
        exact ⟨g, hg⟩
  · exact he.one pi' w' g g' ((hends ..).mp hg).1 ((hends ..).mp hg').1
  · exact he.single pi' w₁ g w₂ g' hT ((hends ..).mp hg).1 ((hends ..).mp hg').1

/-- `pipeclose` of an end gives the page back when the other end is shut. -/
theorem pipeclose_runs_end (hp : PagesOk lk k P l) (hP : P pi) :
    Runs E (pipeclose lk pi w) k (fun _ k' => ∃ y l',
      (∀ w', y.isOpen w' = ((k.pipes pi).isOpen w' && (w' != w))) ∧
      k' = { k with pipes := Function.update k.pipes pi y, mm := k'.mm } ∧
      ((k.pipes pi).isOpen (!w) = true ∧ l' = l ∧ PagesOk lk k' P l' ∨
        (k.pipes pi).isOpen (!w) = false ∧ l' = pi :: l ∧ PagesOk lk k'
        (fun a => P a ∧ a ≠ pi) l')) := by
  rw [runs_pipeclose rfl]
  have hy := (k.pipes pi).isOpen_shut w
  have hclosed := pipe.closed_iff ((k.pipes pi).shut w) w
  rw [hy, hy, bne_self_eq_false, Bool.and_false, Bool.not_bne_self, Bool.and_true] at hclosed
  generalize (k.pipes pi).shut w = y at hy hclosed ⊢
  have hp₁ : PagesOk lk { k with pipes := Function.update k.pipes pi y } P l :=
    hp.same rfl (fun _ ha => ha) (fun _ => rfl) (fun _ => rfl) (fun _ => rfl) fun _ => Iff.rfl
  rw [hclosed]
  refine ⟨fun hc => ?_, fun hc => ?_⟩
  · apply (hp₁.kfree_runs hP).imp
    rintro _ k₂ ⟨hp₂, hk₂⟩
    exact ⟨y, _, hy, hk₂, Or.inr ⟨hc.2, rfl, hp₂⟩⟩
  · refine ⟨y, l, hy, rfl, Or.inl ⟨?_, rfl, hp₁⟩⟩
    cases hopen : (k.pipes pi).isOpen (!w) with
    | true => rfl
    | false => exact absurd ⟨rfl, hopen⟩ hc

theorem fileclose_ends (hp : PagesOk lk k (PipePage k) l) (he : Ends T k) (f : Nat) :
    Runs (fun _ => True) (fileclose lk f) k (fun _ k' => ∃ l', PagesOk lk k' (PipePage k') l' ∧
      Ends T k' ∧ Closes k k' f ∧ GivesBack T k k' l l') := by
  rw [runs_fileclose rfl]
  refine ⟨fun _ => trivial, fun hmore => ⟨l, closes_more hp he (by omega) rfl⟩, fun h1 => ?_⟩
  generalize hk₁ : ({ k with filepool := Function.update k.filepool f { k.filepool f with
    ref := (k.filepool f).ref - 1 } } : Kernel) = k₁
  have hfile₁ : ∀ x, Function.update k₁.filepool f x = Function.update k.filepool f x := by
    intro x
    rw [← hk₁]
    exact Function.update_idem ..
  have hp₁ : PagesOk lk k₁ (PipePage k) l := by
    subst hk₁
    exact hp.same rfl (fun _ ha => ha) (fun _ => rfl) (fun _ => rfl) (fun _ => rfl) fun _ => Iff.rfl
  obtain ⟨hmm₁, hpipes₁, hpool₁, hcur₁⟩ : k₁.mm = k.mm ∧ k₁.pipes = k.pipes ∧ k₁.pool = k.pool ∧
      k₁.current_proc = k.current_proc := by
    subst hk₁
    exact ⟨rfl, rfl, rfl, rfl⟩
  have hnone : ∀ x : file, x.closed.type ≠ .FD_PIPE := fun _ hc => by cases hc
  clear hk₁
  rw [runs_closeLast]
  refine ⟨fun htype => ?_, fun htype => ?_, fun htype => ⟨fun _ => trivial, fun ip _ => ?_⟩⟩
  · exact ⟨l, closes_other hp he h1 (by rw [htype]; decide) (hnone _) rfl (hfile₁ _) hmm₁ hpipes₁
      hpool₁ hcur₁⟩
  on_goal 2 =>
    rw [runs_onFs]
    refine Runs.of_forall fun _ s _ => ?_
    exact ⟨l, closes_other hp he h1 (by rw [htype]; decide) (hnone _) rfl (hfile₁ _) hmm₁ hpipes₁
      hpool₁ hcur₁⟩
  · have hend : IsEnd k (k.filepool f).pipe (k.filepool f).writable f := ⟨htype, rfl, rfl⟩
    generalize (k.filepool f).pipe = pi at hend ⊢
    generalize (k.filepool f).writable = w at hend ⊢
    have hpage : PipePage k pi := ⟨w, f, hend⟩
    apply (pipeclose_runs_end (w := w) hp₁ hpage).imp
    rintro _ k₂ ⟨y, l', hy, hk₂, hpages⟩
    rw [hpipes₁] at hy hk₂ hpages
    generalize hx : (k₂.filepool f).closed = x
    have hxtype : x.type ≠ .FD_PIPE := hx ▸ hnone _
    have hfile : ({ k₂ with filepool := Function.update k₂.filepool f x } : Kernel).filepool =
        Function.update k.filepool f x := by
      rw [hk₂]
      exact hfile₁ x
    have hpipes : k₂.pipes = Function.update k.pipes pi y := by rw [hk₂]
    have hpool : k₂.pool = k.pool := by rw [hk₂, ← hpool₁]
    have hcur : k₂.current_proc = k.current_proc := by rw [hk₂, ← hcur₁]
    have hends : ∀ pi' w' g, IsEnd { k₂ with filepool := Function.update k₂.filepool f x }
      pi' w' g ↔ IsEnd k pi' w' g ∧ g ≠ f := fun _ _ _ => isEnd_shut hfile hxtype
    have hother := he.opened pi (!w) hpage
    have hsingle : T pi → ∀ w' g, IsEnd k pi w' g → g = f :=
      fun hT w' g hg => he.single pi w' g w f hT hg hend
    refine ⟨l', ?_, he.shut hend hxtype hfile hpipes hy,
      Closes.last hfile hxtype (by rw [← hx, file.closed_ref]) h1 hpool hcur, ?_⟩
    · rcases hpages with ⟨_, _, hp₂⟩ | ⟨hshut, _, hp₂⟩
      · refine hp₂.same rfl ?_ (fun _ => rfl) (fun _ => rfl) (fun _ => rfl) fun _ => Iff.rfl
        rintro a ⟨w', g, hg⟩
        exact ⟨w', g, ((hends ..).mp hg).1⟩
      · refine hp₂.same rfl ?_ (fun _ => rfl) (fun _ => rfl) (fun _ => rfl) fun _ => Iff.rfl
        rintro a ⟨w', g, hg⟩
        obtain ⟨hg, hne⟩ := (hends ..).mp hg
        refine ⟨⟨w', g, hg⟩, ?_⟩
        rintro rfl
        -- No other file is an end of this pipe.
        by_cases hw : w' = w
        · subst hw
          exact hne (he.one _ _ g f hg hend)
        · by_cases hT : T a
          · exact hne (hsingle hT w' g hg)
          · have hw' : w' = !w := Bool.eq_not.mpr hw
            rw [hshut] at hother
            exact absurd ((hother hT).mpr ⟨g, hw' ▸ hg⟩) (by decide)
    · rcases hpages with ⟨hopen, rfl, _⟩ | ⟨_, rfl, _⟩
      · refine ⟨fun _ ha => ha, fun pi' hpage' hT => Or.inl ?_⟩
        obtain ⟨w', g', hg'⟩ := hpage'
        by_cases hgf' : g' = f
        · subst hgf'
          obtain ⟨rfl, rfl⟩ := hg'.unique hend
          obtain ⟨g, hg⟩ := (hother hT).mp hopen
          refine ⟨_, g, (hends ..).mpr ⟨hg, ?_⟩⟩
          rintro rfl
          exact Bool.not_ne_self _ (hg.unique hend).2
        · exact ⟨w', g', (hends ..).mpr ⟨hg', hgf'⟩⟩
      · refine ⟨fun a ha => List.mem_cons_of_mem _ ha, fun pi' hpage' _ => ?_⟩
        obtain ⟨w', g', hg'⟩ := hpage'
        by_cases hgf' : g' = f
        · subst hgf'
          obtain ⟨rfl, rfl⟩ := hg'.unique hend
          exact Or.inr (List.mem_cons_self ..)
        · exact Or.inl ⟨w', g', (hends ..).mpr ⟨hg', hgf'⟩⟩

namespace PipesGood

/-- Closing a file keeps pages, pipes and references in order. -/
theorem fileclose_runs (h : PipesGood lk T X d k l) (f : Nat) :
    Runs (fun _ => True) (fileclose lk f) k (fun _ k' => ∃ l', PipesGood lk T X (d - one f) k' l' ∧
      Closes k k' f ∧ GivesBack T k k' l l') := by
  apply ((fileclose_ends h.pages h.ends f).and (h.tally.fileclose_runs f)).mono (fun _ _ => trivial)
  rintro _ k₁ ⟨⟨l', hp, he, hcloses, hback⟩, ht, _⟩
  exact ⟨l', ⟨hp, he, ht⟩, hcloses, hback⟩

end PipesGood

/-! ## Making a pipe -/

/-- `filealloc` takes the first free file, if any. -/
theorem filealloc_runs : Runs E filealloc k (fun r k' => r = freeFile k.filepool ∧
    (r = none ∧ k' = k ∨
    ∃ f, r = some f ∧ (k.filepool f).ref = 0 ∧
      k' = { k with
        filepool := Function.update k.filepool f { k.filepool f with ref := 1 } })) := by
  rw [runs_filealloc]
  refine ⟨fun hf => ⟨hf.symm, Or.inl ⟨rfl, rfl⟩⟩, fun f hf => ⟨hf.symm, Or.inr ⟨f, rfl, ?_, rfl⟩⟩⟩
  unfold freeFile at hf
  simpa using List.find?_some hf

/-- `fdalloc` takes a free descriptor, if any. -/
theorem fdalloc_runs (f : Nat) : Runs E (fdalloc f) k (fun r k' => r = none ∧ k' = k ∨
    ∃ i, r = some i ∧ i < FD_MAX ∧ (k.pool k.current_proc).files i = none ∧
      k' = { k with pool := Function.update k.pool k.current_proc { k.pool k.current_proc with
        files := Function.update (k.pool k.current_proc).files i (some f) } }) := by
  rw [runs_fdalloc]
  cases hf : firstFd (k.pool k.current_proc).files with
  | none => exact Or.inl ⟨rfl, withFd_none hf⟩
  | some i =>
    obtain ⟨_, hlt, hnone⟩ := firstFd_some hf
    exact Or.inr ⟨i, rfl, hlt, hnone, withFd_some hf⟩

/-- The files `f0` and `f1` are the ends of a new pipe. -/
structure NewPipe (k k' : Kernel) (pi f0 f1 : Nat) : Prop where
  fresh : ¬ PipePage k pi
  ends : ∀ pi' w g, IsEnd k' pi' w g ↔ IsEnd k pi' w g ∨ (pi' = pi ∧ g = if w then f1 else f0)
  ref : ∀ g, (k'.filepool g).ref = (k.filepool g).ref
  pool : k'.pool = k.pool
  current : k'.current_proc = k.current_proc

theorem ones_nonneg (r : Option Nat) (f : Nat) : 0 ≤ ones r f := by
  unfold ones
  split
  · decide
  · decide

/-- A file with one reference that is no pipe. -/
def Unpiped (k : Kernel) (f : Nat) : Prop := (k.filepool f).ref = 1 ∧ (k.filepool f).type ≠ .FD_PIPE

namespace PipesGood

theorem same {X' : Nat → Prop} {d' : Nat → Int} (h : PipesGood lk T X d k l)
    (hpages : PagesOk lk k' (PipePage k) l₁) (hfiles : k'.filepool = k.filepool)
    (hpipes : k'.pipes = k.pipes) (ht : Tally X' d' k') :
    PipesGood lk T X' d' k' l₁ := by
  have hends : ∀ pi w f, IsEnd k' pi w f ↔ IsEnd k pi w f := by
    intro pi w f
    exact isEnd_same fun g => by rw [hfiles]; exact ⟨rfl, rfl, rfl⟩
  refine ⟨hpages.same rfl ?_ (fun _ => rfl) (fun _ => rfl) (fun _ => rfl) fun _ => Iff.rfl,
    h.ends.same hends (fun f => ?_) (fun _ _ _ => by rw [hpipes]), ht⟩
  · rintro a ⟨w, f, hf⟩
    exact ⟨w, f, (hends ..).mp hf⟩
  · rw [hfiles]
    exact h.ends.free f

/-- A file is taken that no descriptor points to yet. -/
theorem filealloc_runs (h : PipesGood lk T X d k l) :
    Runs E filealloc k (fun r k' => PipesGood lk T X (d + ones r) k' l ∧ r = freeFile k.filepool ∧
      (∀ pi w f, IsEnd k' pi w f ↔ IsEnd k pi w f) ∧ k'.pool = k.pool ∧
      k'.current_proc = k.current_proc ∧
      k'.mm = k.mm ∧ (∀ g, r ≠ some g → k'.filepool g = k.filepool g) ∧
      ∀ f, r = some f → (k.filepool f).ref = 0 ∧ Unpiped k' f ∧
        k'.filepool = Function.update k.filepool f { k.filepool f with ref := 1 }) := by
  apply (ThuKernel.filealloc_runs.and (h.tally.filealloc_runs (E := E))).mono (fun _ he => he.1)
  rintro r k₁ ⟨⟨hr, hcase⟩, ht, _⟩
  rcases hcase with ⟨rfl, rfl⟩ | ⟨f, rfl, h0, rfl⟩
  · exact ⟨⟨h.pages, h.ends, ht⟩, hr, fun _ _ _ => Iff.rfl, rfl, rfl, rfl, fun _ _ => rfl,
      fun f hf => by cases hf⟩
  have hf := h.ends.free f h0.le
  have hends : ∀ pi w g, IsEnd { k with filepool := Function.update k.filepool f { k.filepool f with
      ref := 1 } } pi w g ↔ IsEnd k pi w g := by
    intro pi w g
    apply isEnd_same
    intro j
    dsimp only
    by_cases hj : j = f
    · rw [hj, Function.update_self]
      exact ⟨rfl, rfl, rfl⟩
    · rw [Function.update_of_ne hj]
      exact ⟨rfl, rfl, rfl⟩
  refine ⟨⟨h.pages.same rfl ?_ (fun _ => rfl) (fun _ => rfl) (fun _ => rfl) fun _ => Iff.rfl,
    h.ends.same hends (fun g hg => ?_) (fun _ _ _ => rfl), ht⟩, hr, hends, rfl, rfl, rfl,
    fun g hg => Function.update_of_ne (fun hc => hg (by rw [hc])) _ _, fun g hg => ?_⟩
  · rintro a ⟨w, g, hg⟩
    exact ⟨w, g, (hends ..).mp hg⟩
  · dsimp only at hg ⊢
    by_cases hgf : g = f
    · rw [hgf, Function.update_self]
      exact hf
    · rw [Function.update_of_ne hgf] at hg ⊢
      exact h.ends.free g hg
  · cases hg
    refine ⟨h0, ⟨?_, ?_⟩, rfl⟩
    · dsimp only
      rw [Function.update_self]
    · dsimp only
      rw [Function.update_self]
      exact hf

/-- Two files in use, and a page that was free, make a pipe. -/
theorem newPipe {x y : file} {f0 f1 : Nat} {l' : List Nat} (h : PipesGood lk T X d k l)
    (hp : PagesOk lk k₁ (fun a => PipePage k a ∨ a = pi) l') (hfresh : ¬ PipePage k pi)
    (hff : f1 ≠ f0) (h0 : Unpiped k f0) (h1 : Unpiped k f1)
    (hx : x.type = .FD_PIPE ∧ x.pipe = pi ∧ x.writable = false ∧ x.ref = (k.filepool f0).ref)
    (hy : y.type = .FD_PIPE ∧ y.pipe = pi ∧ y.writable = true ∧ y.ref = (k.filepool f1).ref)
    (hfile : k'.filepool = Function.update (Function.update k.filepool f0 x) f1 y)
    (hpipes : k'.pipes = Function.update k.pipes pi ⟨fun _ => 0, 0, 0, true, true⟩)
    (hmm : k'.mm = k₁.mm) (hpool₁ : k₁.pool = k.pool) (hpool : k'.pool = k.pool)
    (hcur : k'.current_proc = k.current_proc) :
    PipesGood lk (fun a => T a ∧ a ≠ pi) X d k' l' ∧ NewPipe k k' pi f0 f1 := by
  obtain ⟨hx1, hx2, hx3, hx4⟩ := hx
  obtain ⟨hy1, hy2, hy3, hy4⟩ := hy
  have hat1 : k'.filepool f1 = y := by
    rw [hfile, Function.update_self]
  have hat0 : k'.filepool f0 = x := by
    rw [hfile, Function.update_of_ne hff.symm, Function.update_self]
  have hat : ∀ g, g ≠ f0 → g ≠ f1 → k'.filepool g = k.filepool g := by
    intro g hg0 hg1
    rw [hfile, Function.update_of_ne hg1, Function.update_of_ne hg0]
  have href : ∀ g, (k'.filepool g).ref = (k.filepool g).ref := by
    intro g
    by_cases hg1 : g = f1
    · rw [hg1, hat1, hy4]
    · by_cases hg0 : g = f0
      · rw [hg0, hat0, hx4]
      · rw [hat g hg0 hg1]
  have hends : ∀ pi' w g, IsEnd k' pi' w g ↔ IsEnd k pi' w g ∨
      (pi' = pi ∧ g = if w then f1 else f0) := by
    intro pi' w g
    by_cases hg1 : g = f1
    · subst hg1
      constructor
      · rintro ⟨_, h2, h3⟩
        rw [hat1] at h2 h3
        rw [← h2, ← h3, hy2, hy3]
        exact Or.inr ⟨rfl, rfl⟩
      · rintro (hg | ⟨rfl, hw⟩)
        · exact absurd hg.type h1.2
        · cases w with
          | true => exact ⟨by rw [hat1, hy1], by rw [hat1, hy2], by rw [hat1, hy3]⟩
          | false => exact absurd hw hff
    · by_cases hg0 : g = f0
      · subst hg0
        constructor
        · rintro ⟨_, h2, h3⟩
          rw [hat0] at h2 h3
          rw [← h2, ← h3, hx2, hx3]
          exact Or.inr ⟨rfl, rfl⟩
        · rintro (hg | ⟨rfl, hw⟩)
          · exact absurd hg.type h0.2
          · cases w with
            | true => exact absurd hw.symm hff
            | false => exact ⟨by rw [hat0, hx1], by rw [hat0, hx2], by rw [hat0, hx3]⟩
      · constructor
        · exact fun hg => Or.inl (hg.congr (hat g hg0 hg1).symm)
        · rintro (hg | ⟨_, hw⟩)
          · exact hg.congr (hat g hg0 hg1)
          · cases w with
            | true => exact absurd hw hg1
            | false => exact absurd hw hg0
  have hpage : ∀ a, PipePage k' a → PipePage k a ∨ a = pi := by
    rintro a ⟨w, g, hg⟩
    rcases (hends ..).mp hg with hg | ⟨rfl, _⟩
    · exact Or.inl ⟨w, g, hg⟩
    · exact Or.inr rfl
  refine ⟨⟨?_, ⟨fun g hg => ?_, fun pi' w hpi' hT => ?_, fun pi' w g g' hg hg' => ?_,
    fun pi' w g w' g' hT hg hg' => ?_⟩, ?_⟩, ⟨hfresh, hends, href, hpool, hcur⟩⟩
  · refine hp.same hmm hpage ?_ ?_ ?_ ?_
    all_goals
      intro i
      rw [hpool, hpool₁]
  · have hnot0 : g ≠ f0 := by
      rintro rfl
      rw [href, h0.1] at hg
      exact absurd hg (by decide)
    have hnot1 : g ≠ f1 := by
      rintro rfl
      rw [href, h1.1] at hg
      exact absurd hg (by decide)
    rw [hat g hnot0 hnot1] at hg ⊢
    exact h.ends.free g hg
  · by_cases hne : pi' = pi
    · subst hne
      rw [hpipes, Function.update_self]
      have hopen : pipe.isOpen ⟨fun _ => 0, 0, 0, true, true⟩ w = true := by
        cases w
        · rfl
        · rfl
      exact ⟨fun _ => ⟨_, (hends ..).mpr (Or.inr ⟨rfl, rfl⟩)⟩, fun _ => hopen⟩
    · rw [hpipes, Function.update_of_ne hne,
        h.ends.opened pi' w ((hpage pi' hpi').resolve_right hne) fun hc => hT ⟨hc, hne⟩]
      simp only [hends, hne, false_and, or_false]
  · rcases (hends ..).mp hg with hg | ⟨hpi, hg⟩
    · rcases (hends ..).mp hg' with hg' | ⟨hpi', _⟩
      · exact h.ends.one pi' w g g' hg hg'
      · exact absurd ⟨w, g, hpi' ▸ hg⟩ hfresh
    · rcases (hends ..).mp hg' with hg' | ⟨_, hg'⟩
      · exact absurd ⟨w, g', hpi ▸ hg'⟩ hfresh
      · rw [hg, hg']
  · have hold : ∀ {w g}, IsEnd k' pi' w g → IsEnd k pi' w g :=
      fun hg => ((hends ..).mp hg).resolve_right fun hc => hT.2 hc.1
    exact h.ends.single pi' w g w' g' hT.1 (hold hg) (hold hg')
  · exact h.tally.same href (fun i => by rw [hpool]) (fun i hi => by rwa [hpool] at hi) hcur

/-- One file in use, and a page that was free, make a pipe with one end. -/
theorem halfPipe {x : file} {f0 : Nat} {l' : List Nat} (k' : Kernel) (h : PipesGood lk T X d k l)
    (hp : PagesOk lk k₁ (fun a => PipePage k a ∨ a = pi) l') (hfresh : ¬ PipePage k pi)
    (h0 : Unpiped k f0) (hfile : k'.filepool = Function.update k.filepool f0 x)
    (hx : x.type = .FD_PIPE ∧ x.pipe = pi ∧ x.writable = false ∧ x.ref = (k.filepool f0).ref)
    (hopen : ∀ pi' w, PipePage k pi' → (k'.pipes pi').isOpen w = (k.pipes pi').isOpen w)
    (hmm : k'.mm = k₁.mm) (hpool₁ : k₁.pool = k.pool) (hpool : k'.pool = k.pool)
    (hcur : k'.current_proc = k.current_proc) :
    PipesGood lk (fun a => T a ∨ a = pi) X d k' l' ∧
      ∀ pi' w g, IsEnd k' pi' w g ↔ IsEnd k pi' w g ∨ (pi' = pi ∧ w = false ∧ g = f0) := by
  obtain ⟨hx1, hx2, hx3, hx4⟩ := hx
  have hat0 : k'.filepool f0 = x := by
    rw [hfile, Function.update_self]
  have hat : ∀ g, g ≠ f0 → k'.filepool g = k.filepool g := by
    intro g hg
    rw [hfile, Function.update_of_ne hg]
  have href : ∀ g, (k'.filepool g).ref = (k.filepool g).ref := by
    intro g
    by_cases hg : g = f0
    · rw [hg, hat0, hx4]
    · rw [hat g hg]
  have hends : ∀ pi' w g, IsEnd k' pi' w g ↔ IsEnd k pi' w g ∨ (pi' = pi ∧ w = false ∧ g = f0) := by
    intro pi' w g
    by_cases hg : g = f0
    · subst hg
      constructor
      · rintro ⟨_, h2, h3⟩
        rw [hat0] at h2 h3
        exact Or.inr ⟨h2.symm.trans hx2, h3.symm.trans hx3, rfl⟩
      · rintro (hg | ⟨rfl, rfl, _⟩)
        · exact absurd hg.type h0.2
        · exact ⟨by rw [hat0, hx1], by rw [hat0, hx2], by rw [hat0, hx3]⟩
    · constructor
      · exact fun h => Or.inl (h.congr (hat g hg).symm)
      · rintro (h | ⟨_, _, hc⟩)
        · exact h.congr (hat g hg)
        · exact absurd hc hg
  have hpage : ∀ a, PipePage k' a → PipePage k a ∨ a = pi := by
    rintro a ⟨w, g, hg⟩
    rcases (hends ..).mp hg with hg | ⟨rfl, _⟩
    · exact Or.inl ⟨w, g, hg⟩
    · exact Or.inr rfl
  refine ⟨⟨?_, ⟨fun g hg => ?_, fun pi' w hpi' hT => ?_, fun pi' w g g' hg hg' => ?_,
    fun pi' w g w' g' hT hg hg' => ?_⟩, ?_⟩, hends⟩
  · refine hp.same hmm hpage ?_ ?_ ?_ ?_
    all_goals
      intro i
      rw [hpool, hpool₁]
  · have hne : g ≠ f0 := by
      rintro rfl
      rw [href, h0.1] at hg
      exact absurd hg (by decide)
    rw [hat g hne] at hg ⊢
    exact h.ends.free g hg
  · have hne : pi' ≠ pi := fun hc => hT (Or.inr hc)
    have hpage' := (hpage pi' hpi').resolve_right hne
    rw [hopen pi' w hpage', h.ends.opened pi' w hpage' fun hc => hT (Or.inl hc)]
    simp only [hends, hne, false_and, or_false]
  · rcases (hends ..).mp hg with hg | ⟨hpi, _, rfl⟩
    · rcases (hends ..).mp hg' with hg' | ⟨hpi', _⟩
      · exact h.ends.one pi' w g g' hg hg'
      · exact absurd ⟨w, g, hpi' ▸ hg⟩ hfresh
    · rcases (hends ..).mp hg' with hg' | ⟨_, _, rfl⟩
      · exact absurd ⟨w, g', hpi ▸ hg'⟩ hfresh
      · rfl
  · rcases (hends ..).mp hg with hold | ⟨hpi, _, rfl⟩
    · rcases (hends ..).mp hg' with hold' | ⟨hpi', _⟩
      · rcases hT with hT | hT
        · exact h.ends.single pi' w g w' g' hT hold hold'
        · exact absurd ⟨w, g, hT ▸ hold⟩ hfresh
      · exact absurd ⟨w, g, hpi' ▸ hold⟩ hfresh
    · rcases (hends ..).mp hg' with hold' | ⟨_, _, rfl⟩
      · exact absurd ⟨w', g', hpi ▸ hold'⟩ hfresh
      · rfl
  · exact h.tally.same href (fun i => by rw [hpool]) (fun i hi => by rwa [hpool] at hi) hcur

/-- The two files become the ends of a pipe, on a page that was free. -/
theorem pipealloc_runs (h : PipesGood lk T X d k l) {r0 r1 : Option Nat}
    (h0 : ∀ f, r0 = some f → Unpiped k f) (h1 : ∀ f, r1 = some f → Unpiped k f)
    (hne : ∀ f, r0 = some f → r1 ≠ some f) :
    Runs (fun _ => True) (pipealloc r0 r1) k (fun r k' => (r = -1 ∧ k' = k) ∨
      (r = 0 ∧ ∃ f0 f1 pi l', r0 = some f0 ∧ r1 = some f1 ∧ l = pi :: l' ∧
        PipesGood lk (fun a => T a ∧ a ≠ pi) X d k' l' ∧ NewPipe k k' pi f0 f1)) := by
  rw [runs_pipealloc]
  apply (h.pages.kalloc_runs).imp
  rintro pi k₁ (⟨_, rfl, rfl⟩ | ⟨hpi, l', hl, hp₁, hfresh, _, hk₁⟩)
  · exact ⟨fun _ => Or.inl ⟨rfl, rfl⟩, fun hc => absurd rfl hc⟩
  refine ⟨fun hc => absurd hc hpi, fun _ => ?_⟩
  apply (hp₁.memset_runs (Or.inr rfl) 0).imp
  rintro _ k₂ ⟨hp₂, _, hk₂⟩
  refine ⟨fun _ => trivial, ?_⟩
  rintro f0 f1 _ rfl rfl rfl
  have hff : f1 ≠ f0 := fun hc => hne f0 rfl (by rw [hc])
  have hfile : k₂.filepool = k.filepool := by rw [hk₂, hk₁]
  have hpipes : k₂.pipes = k.pipes := by rw [hk₂, hk₁]
  have hpool : k₂.pool = k.pool := by rw [hk₂, hk₁]
  have hcur : k₂.current_proc = k.current_proc := by rw [hk₂, hk₁]
  rw [Function.update_of_ne hff, hfile, hpipes]
  exact Or.inr ⟨rfl, f0, f1, pi, l', rfl, rfl, hl,
    h.newPipe (x := (k.filepool f0).onPipe pi false) (y := (k.filepool f1).onPipe pi true) hp₂
    hfresh hff (h0 f0 rfl)
      (h1 f1 rfl) ⟨rfl, rfl, rfl, rfl⟩ ⟨rfl, rfl, rfl, rfl⟩ rfl rfl rfl hpool hpool hcur⟩

theorem fdalloc_runs (h : PipesGood lk T X d k l) (f : Nat) :
    Runs E (fdalloc f) k (fun r k' => PipesGood lk T X (d - ones (r.map fun _ => f)) k' l ∧
      (r = none ∧ k' = k ∨
      ∃ i, r = some i ∧ i < FD_MAX ∧ (k.pool k.current_proc).files i = none ∧
        k' = { k with pool := Function.update k.pool k.current_proc { k.pool k.current_proc with
          files := Function.update (k.pool k.current_proc).files i (some f) } })) := by
  apply ((ThuKernel.fdalloc_runs f).and (h.tally.fdalloc_runs (E := E) f)).mono (fun _ he => he.1)
  rintro r k₁ ⟨hcase, ht, _⟩
  refine ⟨?_, hcase⟩
  rcases hcase with ⟨rfl, rfl⟩ | ⟨i, rfl, _, _, rfl⟩
  · exact ⟨h.pages, h.ends, ht⟩
  · exact h.same (h.pages.setFiles _ k.filepool) rfl rfl ht

theorem clearFd_runs (h : PipesGood lk T X d k l) {fd : Option Nat}
    (hfd : ∀ i, fd = some i → i < FD_MAX) :
    Runs (fun _ => True) (clearFd fd) k (fun _ k' =>
      PipesGood lk T X (d + ones (fd.bind (k.pool k.current_proc).files)) k' l ∧
      k' = { k with pool := k'.pool } ∧ (∀ i, i ≠ k.current_proc → k'.pool i = k.pool i) ∧
      ∀ j, fd ≠ some j → (k'.pool k.current_proc).files j = (k.pool k.current_proc).files j) := by
  unfold clearFd
  cases fd with
  | none =>
    rw [runs_modifyCurr, Option.bind_none, ones_none, add_zero]
    refine ⟨h.same (h.pages.setProc rfl rfl rfl Iff.rfl) rfl rfl (h.tally.setProc rfl fun hd => hd),
      rfl, fun i hi => Function.update_of_ne hi _ _, fun j _ => ?_⟩
    dsimp only
    rw [Function.update_self]
  | some i =>
    rw [runs_modifyCurr, Option.bind_some]
    have ht := h.tally.setFd h.tally.current (hfd i rfl) none (p := { k.pool k.current_proc with
      files := Function.update (k.pool k.current_proc).files i none }) rfl h.tally.live
    rw [ones_none, sub_zero] at ht
    refine ⟨h.same (h.pages.setFiles _ k.filepool) rfl rfl ht, rfl,
      fun i hi => Function.update_of_ne hi _ _, fun j hj => ?_⟩
    have hji : j ≠ i := fun hc => hj (by rw [hc])
    dsimp only
    rw [Function.update_self]
    exact Function.update_of_ne hji _ _

theorem copyout_runs (h : PipesGood lk T nobody d k l) (va : Nat) (src : List Byte) :
    Runs E (onMm (copyout (k.pool k.current_proc).pagetable va src)) k (fun _ k' =>
      PipesGood lk T nobody d k' l ∧ k' = { k with mm := k'.mm }) := by
  apply (h.pages.copyout_runs h.tally.current h.tally.alive va src).imp
  rintro _ k₁ ⟨hp, hk₁⟩
  have ht : Tally nobody d k₁ := h.tally.same (fun _ => by rw [hk₁]) (fun _ => by rw [hk₁])
    (fun _ hd => by rwa [hk₁] at hd) (by rw [hk₁])
  exact ⟨h.same hp (by rw [hk₁]) (by rw [hk₁]) ht, hk₁⟩

/-- The undoing of `sys_pipe`: both files are shut, and both descriptors free. -/
theorem pipeUndo_runs (h : PipesGood lk T X d k l) {f0 f1 : Nat} {fd0 fd1 : Option Nat} {r : Int}
    (hr : r < 0) (hff : f1 ≠ f0) (h0 : (k.filepool f0).ref = 1) (h1 : (k.filepool f1).ref = 1)
    (hfd0 : ∀ i, fd0 = some i → i < FD_MAX ∧ (k.pool k.current_proc).files i = some f0)
    (hfd1 : ∀ i, fd1 = some i → i < FD_MAX ∧ (k.pool k.current_proc).files i = some f1) :
    Runs (fun _ => True) (pipeUndo lk f0 f1 fd0 fd1 r) k (fun r k' => r = -1 ∧ ∃ l',
      PipesGood lk T X (d - one f0 - one f1 + ones (fd0.map fun _ => f0) +
        ones (fd1.map fun _ => f1)) k' l' ∧
      Others k k' ∧ k'.current_proc = k.current_proc ∧
      ∀ pi w g, IsEnd k' pi w g ↔ IsEnd k pi w g ∧ g ≠ f0 ∧ g ≠ f1) := by
  unfold pipeUndo
  rw [if_pos hr]
  apply (h.fileclose_runs f0).bind
  rintro _ k₁ ⟨l₁, h₁, hc₁, _⟩
  apply (h₁.fileclose_runs f1).bind
  rintro _ k₂ ⟨l₂, h₂, hc₂, _⟩
  have hpool : k₂.pool = k.pool := by rw [hc₂.pool, hc₁.pool]
  have hcur : k₂.current_proc = k.current_proc := by rw [hc₂.current, hc₁.current]
  have hends : ∀ pi w g, IsEnd k₂ pi w g ↔ IsEnd k pi w g ∧ g ≠ f0 ∧ g ≠ f1 := by
    intro pi w g
    have href : (k₁.filepool f1).ref = 1 := by
      rw [hc₁.ref, h1]
      unfold one only
      rw [if_neg hff, sub_zero]
    rw [hc₂.ends, hc₁.ends, h0, href, and_assoc]
    have hlt : ∀ {a b : Nat}, (a = b → (1 : Int) < 1) ↔ a ≠ b :=
      ⟨fun hab hc => absurd (hab hc) (by decide), fun hab hc => absurd hc hab⟩
    rw [hlt, hlt]
  -- A descriptor that was found is that of its file.
  have hfile : ∀ {fd : Option Nat} {f : Nat},
      (∀ i, fd = some i → i < FD_MAX ∧ (k.pool k.current_proc).files i = some f) →
      fd.bind (k.pool k.current_proc).files = fd.map fun _ => f := by
    intro fd f hfd
    cases fd with
    | none => rfl
    | some i => exact (hfd i rfl).2
  apply (h₂.clearFd_runs fun i hi => (hfd0 i hi).1).bind
  rintro _ k₃ ⟨h₃, hk₃, hother₃, hsame₃⟩
  apply (h₃.clearFd_runs fun i hi => (hfd1 i hi).1).bind
  rintro _ k₄ ⟨h₄, hk₄, hother₄, _⟩
  have hcur₃ : k₃.current_proc = k.current_proc := by rw [hk₃, hcur]
  have hsame : fd1.bind (k₃.pool k₃.current_proc).files =
      fd1.bind (k.pool k.current_proc).files := by
    cases fd1 with
    | none => rfl
    | some b =>
      have hb : fd0 ≠ some b := by
        intro hc
        have heq := (hfd0 b hc).2
        rw [(hfd1 b rfl).2] at heq
        exact hff (Option.some.inj heq)
      rw [Option.bind_some, Option.bind_some, hcur₃, ← hcur, hsame₃ b hb, hpool]
  rw [hsame, hcur, hpool, hfile hfd0, hfile hfd1] at h₄
  rw [Runs.pure_iff]
  refine ⟨rfl, l₂, h₄, fun j hj _ => ?_, by rw [hk₄, hcur₃], fun pi w g => ?_⟩
  · rw [hother₄ j (by rwa [hcur₃]), hother₃ j (by rwa [hcur]), hpool]
  · rw [← hends]
    apply isEnd_same
    intro j
    rw [hk₄, hk₃]
    exact ⟨rfl, rfl, rfl⟩

/-- The kernel `k'` in the middle of a `sys_pipe` from `k` on: two files are the
ends of a pipe, at the descriptors that were found for them. -/
structure Halfway (k k' : Kernel) (pi f0 f1 : Nat) (fd0 fd1 : Option Nat) : Prop where
  ne : f1 ≠ f0
  first : freeFile k.filepool = some f0
  second : secondFile k.filepool = some f1
  fresh : ¬ PipePage k pi
  unused : ∀ pi' w g, IsEnd k pi' w g → g ≠ f0 ∧ g ≠ f1
  ends : ∀ pi' w g, IsEnd k' pi' w g ↔ IsEnd k pi' w g ∨ (pi' = pi ∧ g = if w then f1 else f0)
  ref0 : (k'.filepool f0).ref = 1
  ref1 : (k'.filepool f1).ref = 1
  current : k'.current_proc = k.current_proc
  others : ∀ j, j ≠ k.current_proc → k'.pool j = k.pool j
  fd0 : ∀ i, fd0 = some i → i < FD_MAX ∧ (k'.pool k.current_proc).files i = some f0
  fd1 : ∀ i, fd1 = some i → i < FD_MAX ∧ (k'.pool k.current_proc).files i = some f1

/-- A copy to the user leaves the files and the descriptors alone. -/
theorem Halfway.copied {pi f0 f1 : Nat} {fd0 fd1 : Option Nat} (h : Halfway k k₁ pi f0 f1 fd0 fd1)
    (hk' : k' = { k₁ with mm := k'.mm }) : Halfway k k' pi f0 f1 fd0 fd1 := by
  rw [hk']
  refine ⟨h.ne, h.first, h.second, h.fresh, h.unused, fun pi' w g => ?_, h.ref0, h.ref1, h.current,
    h.others, h.fd0, h.fd1⟩
  rw [← h.ends]
  exact isEnd_same fun _ => ⟨rfl, rfl, rfl⟩

/-- Two files get the descriptors that are found for them. -/
theorem fdalloc_twice {f0 f1 : Nat} {fd0 fd1 : Option Nat}
    (h0 : fd0 = none ∧ k₁ = k ∨ ∃ i, fd0 = some i ∧ i < FD_MAX ∧
    (k.pool k.current_proc).files i = none ∧
      k₁ = { k with pool := Function.update k.pool k.current_proc { k.pool k.current_proc with
        files := Function.update (k.pool k.current_proc).files i (some f0) } })
    (h1 : fd1 = none ∧ k' = k₁ ∨ ∃ i, fd1 = some i ∧ i < FD_MAX ∧
    (k₁.pool k₁.current_proc).files i = none ∧
      k' = { k₁ with pool := Function.update k₁.pool k₁.current_proc { k₁.pool k₁.current_proc with
        files := Function.update (k₁.pool k₁.current_proc).files i (some f1) } }) :
    k'.filepool = k.filepool ∧ k'.current_proc = k.current_proc ∧
      (∀ j, j ≠ k.current_proc → k'.pool j = k.pool j) ∧
      (∀ i, fd0 = some i → i < FD_MAX ∧ (k'.pool k.current_proc).files i = some f0) ∧
      ∀ i, fd1 = some i → i < FD_MAX ∧ (k'.pool k.current_proc).files i = some f1 := by
  obtain ⟨hfile₁, hcur₁, hother₁, hfd₁⟩ : k₁.filepool = k.filepool ∧
      k₁.current_proc = k.current_proc ∧ (∀ j, j ≠ k.current_proc → k₁.pool j = k.pool j) ∧
      ∀ i, fd0 = some i → i < FD_MAX ∧ (k₁.pool k.current_proc).files i = some f0 := by
    rcases h0 with ⟨rfl, rfl⟩ | ⟨i, rfl, hi, _, rfl⟩
    · exact ⟨rfl, rfl, fun _ _ => rfl, fun i hi => by cases hi⟩
    · refine ⟨rfl, rfl, fun j hj => Function.update_of_ne hj .., fun i' hi' => ?_⟩
      cases hi'
      refine ⟨hi, ?_⟩
      dsimp only
      rw [Function.update_self]
      exact Function.update_self _ _ _
  rcases h1 with ⟨rfl, rfl⟩ | ⟨i, rfl, hi, hnone, rfl⟩
  · exact ⟨hfile₁, hcur₁, hother₁, hfd₁, fun i hi => by cases hi⟩
  · rw [hcur₁] at hnone
    refine ⟨hfile₁, hcur₁, fun j hj => ?_, fun i' hi' => ?_, fun i' hi' => ?_⟩
    · dsimp only
      rw [hcur₁, Function.update_of_ne hj, hother₁ j hj]
    · obtain ⟨hlt, hfi⟩ := hfd₁ i' hi'
      refine ⟨hlt, ?_⟩
      dsimp only
      rw [hcur₁, Function.update_self]
      dsimp only
      rw [Function.update_of_ne _, hfi]
      rintro rfl
      rw [hnone] at hfi
      cases hfi
    · cases hi'
      refine ⟨hi, ?_⟩
      dsimp only
      rw [hcur₁, Function.update_self]
      exact Function.update_self _ _ _

/-- Two files of which each may have its reference at a descriptor. -/
theorem surplus_nonneg (hd : 0 ≤ d) (f0 f1 : Nat) (fd0 fd1 : Option Nat) :
    0 ≤ d + one f0 + one f1 - ones (fd0.map fun _ => f0) - ones (fd1.map fun _ => f1) := by
  intro j
  have hle : ∀ (fd : Option Nat) f, ones (fd.map fun _ => f) j ≤ one f j := by
    intro fd f
    cases fd with
    | none =>
      rw [Option.map_none, ones_none, ← ones_some]
      exact ones_nonneg (some f) j
    | some i => rw [Option.map_some, ones_some]
  have h0 := hle fd0 f0
  have h1 := hle fd1 f1
  have h2 := hd j
  simp only [Pi.zero_apply, Pi.add_apply, Pi.sub_apply] at h2 ⊢
  omega

/-- What `sys_pipe` does to the ends: it makes a pipe, or changes nothing. -/
def PipeEnding (lk : Link) (T : Nat → Prop) (k : Kernel) (r : Int) (k' : Kernel) : Prop :=
  ∃ T' l' d', 0 ≤ d' ∧ (∀ a, T' a → T a) ∧ PipesGood lk T' nobody d' k' l' ∧ Others k k' ∧
    k'.current_proc = k.current_proc ∧
    (r = -1 ∧ (∀ pi w g, IsEnd k' pi w g ↔ IsEnd k pi w g) ∨
      r = 0 ∧ ∃ f0 f1 pi, freeFile k.filepool = some f0 ∧ secondFile k.filepool = some f1 ∧
      ¬ T' pi ∧
        ¬ PipePage k pi ∧ ∀ pi' w g, IsEnd k' pi' w g ↔ IsEnd k pi' w g ∨
        (pi' = pi ∧ g = if w then f1 else f0))

/-- Both ways on: the descriptors stay, or all is undone. -/
theorem Halfway.ending {pi f0 f1 : Nat} {fd0 fd1 : Option Nat} (h : Halfway k k₁ pi f0 f1 fd0 fd1)
    (hd : 0 ≤ d) (hgood : PipesGood lk (fun a => T a ∧ a ≠ pi) nobody
      (d + one f0 + one f1 - ones (fd0.map fun _ => f0) - ones (fd1.map fun _ => f1)) k₁ l)
      (r : Int) :
    Runs (fun _ => True) (pipeUndo lk f0 f1 fd0 fd1 r) k₁ (PipeEnding lk T k) := by
  have hcur := h.current
  by_cases hr : r < 0
  · apply (hgood.pipeUndo_runs hr h.ne h.ref0 h.ref1 (hcur ▸ h.fd0) (hcur ▸ h.fd1)).imp
    rintro _ k' ⟨rfl, l', h', hoth', hcur', hends'⟩
    have hd' : d + one f0 + one f1 - ones (fd0.map fun _ => f0) - ones (fd1.map fun _ => f1) -
        one f0 - one f1 + ones (fd0.map fun _ => f0) + ones (fd1.map fun _ => f1) = d := by ring
    rw [hd'] at h'
    refine ⟨_, l', d, hd, fun _ ha => ha.1, h', fun j hj hl => ?_, hcur'.trans hcur,
      Or.inl ⟨rfl, fun pi' w g => ?_⟩⟩
    · rw [hoth' j (by rwa [hcur]) (by rwa [h.others j hj]), h.others j hj]
    · rw [hends', h.ends]
      constructor
      · rintro ⟨hg | ⟨_, hg⟩, hg0, hg1⟩
        · exact hg
        · cases w with
          | true => exact absurd hg hg1
          | false => exact absurd hg hg0
      · exact fun hg => ⟨Or.inl hg, h.unused pi' w g hg⟩
  · unfold pipeUndo
    rw [if_neg hr, Runs.pure_iff]
    exact ⟨_, l, _, surplus_nonneg hd f0 f1 fd0 fd1, fun _ ha => ha.1, hgood,
      fun j hj _ => h.others j hj, hcur,
      Or.inr ⟨rfl, f0, f1, pi, h.first, h.second, fun hc => hc.2 rfl, h.fresh, h.ends⟩⟩

theorem sys_pipe_runs (h : PipesGood lk T nobody d k l) (hd : 0 ≤ d) (fdarray : Nat) :
    Runs (fun _ => True) (sys_pipe lk fdarray) k (PipeEnding lk T k) := by
  rw [runs_sys_pipe]
  apply (h.filealloc_runs).imp
  rintro r0 k₁ ⟨h₁, hr0, hends₁, hpool₁, hcur₁, _, _, hnew₁⟩
  apply (h₁.filealloc_runs).imp
  rintro r1 k₂ ⟨h₂, hr1, hends₂, hpool₂, hcur₂, _, hsame₂, hnew₂⟩
  have hpool₂ : k₂.pool = k.pool := hpool₂.trans hpool₁
  have hcur₂ : k₂.current_proc = k.current_proc := hcur₂.trans hcur₁
  have hends₂ : ∀ pi w g, IsEnd k₂ pi w g ↔ IsEnd k pi w g :=
    fun pi w g => (hends₂ pi w g).trans (hends₁ pi w g)
  have hne : ∀ f, r0 = some f → r1 ≠ some f := by
    intro f hf hc
    have h0 := (hnew₂ f hc).1
    rw [(hnew₁ f hf).2.1.1] at h0
    exact absurd h0 (by decide)
  have hun0 : ∀ f, r0 = some f → Unpiped k₂ f := by
    intro f hf
    have hun := (hnew₁ f hf).2.1
    unfold Unpiped
    rw [hsame₂ f (hne f hf)]
    exact hun
  apply (h₂.pipealloc_runs hun0 (fun f hf => (hnew₂ f hf).2.1) hne).imp
  rintro r k₃ (⟨rfl, rfl⟩ | ⟨rfl, f0, f1, pi, l', rfl, rfl, hl, h₃, hpipe⟩)
  · refine ⟨fun _ => ⟨T, l, _, ?_, fun _ ha => ha, h₂,
      fun j _ _ => by rw [hpool₂], hcur₂, Or.inl ⟨rfl, hends₂⟩⟩, fun hc => absurd (by decide) hc⟩
    exact fun f => add_nonneg (add_nonneg (hd f) (ones_nonneg r0 f)) (ones_nonneg r1 f)
  refine ⟨fun hc => absurd hc (by decide), fun _ => ⟨fun _ => trivial, ?_⟩⟩
  rintro _ ⟨⟩ _ ⟨⟩
  rw [runs_pipeFds]
  rw [ones_some, ones_some] at h₃
  have hpool₃ : k₃.pool = k.pool := hpipe.pool.trans hpool₂
  have hcur₃ : k₃.current_proc = k.current_proc := hpipe.current.trans hcur₂
  apply (h₃.fdalloc_runs f0).imp
  rintro fd0 k₄ ⟨h₄, hcase₄⟩
  apply (h₄.fdalloc_runs f1).imp
  rintro fd1 k₅ ⟨h₅, hcase₅⟩ _ rfl
  obtain ⟨hfile₅, hcur₅, hother₅, hfd0, hfd1⟩ := fdalloc_twice hcase₄ hcase₅
  rw [hcur₃] at hcur₅ hother₅ hfd0 hfd1
  have hhalf : Halfway k k₅ pi f0 f1 fd0 fd1 := by
    refine ⟨fun hc => hne f0 rfl (by rw [hc]), hr0.symm, ?_, ?_, fun pi' w g hg => ⟨?_, ?_⟩,
      fun pi' w g => ?_, ?_, ?_,
      hcur₅, fun j hj => (hother₅ j hj).trans (by rw [hpool₃]), hfd0, hfd1⟩
    · unfold secondFile
      rw [← hr0]
      dsimp only
      rw [← (hnew₁ f0 rfl).2.2, ← hr1]
    · rintro ⟨w, g, hg⟩
      exact hpipe.fresh ⟨w, g, (hends₂ ..).mpr hg⟩
    · rintro rfl
      exact (hun0 g rfl).2 ((hends₂ ..).mpr hg).type
    · rintro rfl
      exact (hnew₂ g rfl).2.1.2 ((hends₂ ..).mpr hg).type
    · have hsame : IsEnd k₅ pi' w g ↔ IsEnd k₃ pi' w g :=
        isEnd_same fun j => by rw [hfile₅]; exact ⟨rfl, rfl, rfl⟩
      rw [hsame, hpipe.ends, hends₂]
    · rw [hfile₅, hpipe.ref]
      exact (hun0 f0 rfl).1
    · rw [hfile₅, hpipe.ref]
      exact (hnew₂ f1 rfl).2.1.1
  apply (h₅.copyout_runs _ _).imp
  rintro r0 k₆ ⟨h₆, hk₆⟩
  refine ⟨fun _ => (hhalf.copied hk₆).ending hd h₆ _, fun _ => ?_⟩
  have hp : k₅.pool k₅.current_proc = k₆.pool k₆.current_proc := by rw [hk₆]
  rw [hp]
  apply (h₆.copyout_runs _ _).imp
  rintro r1 k₇ ⟨h₇, hk₇⟩
  exact ((hhalf.copied hk₆).copied hk₇).ending hd h₇ _

/-- What `sys_pipe` does to the ends when it stops at a null file: the first file is
the only end of a pipe, or there is no file. -/
theorem pipeTrap_runs (h : PipesGood lk T nobody d k l) (hd : 0 ≤ d) :
    Runs (fun _ => True) pipeTrap k (fun _ k' => ∃ T' l' d', 0 ≤ d' ∧
      PipesGood lk T' nobody d' k' l' ∧ Others k k' ∧ k'.current_proc = k.current_proc ∧
      (freeFile k.filepool = none ∧ T' = T ∧ (∀ pi w g, IsEnd k' pi w g ↔ IsEnd k pi w g) ∨
        ∃ f0 pi, freeFile k.filepool = some f0 ∧ (∀ a, T' a ↔ T a ∨ a = pi) ∧ ¬ PipePage k pi ∧
          ∀ pi' w g, IsEnd k' pi' w g ↔ IsEnd k pi' w g ∨ (pi' = pi ∧ w = false ∧ g = f0))) := by
  unfold pipeTrap
  apply (h.filealloc_runs).bind
  rintro r0 k₁ ⟨h₁, hr0, hends₁, hpool₁, hcur₁, _, hsame₁, hnew₁⟩
  apply (h₁.filealloc_runs).bind
  rintro r1 k₂ ⟨h₂, hr1, hends₂, hpool₂, hcur₂, _, hsame₂, _⟩
  have hpool₂ : k₂.pool = k.pool := hpool₂.trans hpool₁
  have hcur₂ : k₂.current_proc = k.current_proc := hcur₂.trans hcur₁
  have hends₂ : ∀ pi w g, IsEnd k₂ pi w g ↔ IsEnd k pi w g :=
    fun pi w g => (hends₂ pi w g).trans (hends₁ pi w g)
  apply (h₂.pages.kalloc_runs).bind
  rintro pi k₃ (⟨_, rfl, rfl⟩ | ⟨hpi, l', hl, hp₃, hfresh, _, hk₃⟩)
  · rw [if_pos rfl]
    trivial
  rw [if_neg hpi]
  apply (hp₃.memset_runs (Or.inr rfl) 0).bind
  rintro _ k₄ ⟨hp₄, _, hk₄⟩
  rw [Runs.bind_iff, runs_setPipe]
  have hfile₄ : k₄.filepool = k₂.filepool := by rw [hk₄, hk₃]
  have hpipes₄ : k₄.pipes = k₂.pipes := by rw [hk₄, hk₃]
  have hpool₄ : k₄.pool = k₂.pool := by rw [hk₄, hk₃]
  have hcur₄ : k₄.current_proc = k₂.current_proc := by rw [hk₄, hk₃]
  have hfresh' : ¬ PipePage k pi := by
    rintro ⟨w, g, hg⟩
    exact hfresh ⟨w, g, (hends₂ ..).mpr hg⟩
  have hd₂ : 0 ≤ d + ones r0 + ones r1 :=
    fun f => add_nonneg (add_nonneg (hd f) (ones_nonneg r0 f)) (ones_nonneg r1 f)
  have hopen : ∀ pi' w, PipePage k₂ pi' →
      (Function.update k₄.pipes pi ⟨fun _ => 0, 0, 0, true, true⟩ pi').isOpen w =
      (k₂.pipes pi').isOpen w := by
    intro pi' w hpage
    have hne : pi' ≠ pi := fun hc => hfresh (hc ▸ hpage)
    rw [Function.update_of_ne hne, hpipes₄]
  cases r0 with
  | none =>
    generalize hk₅ :
      ({ k₄ with pipes := Function.update k₄.pipes pi ⟨fun _ => 0, 0, 0, true, true⟩ } : Kernel) =
      k₅
    have hends : ∀ pi' w g, IsEnd k₅ pi' w g ↔ IsEnd k₂ pi' w g := by
      intro pi' w g
      exact isEnd_same fun j => by rw [← hk₅, ← hfile₄]; exact ⟨rfl, rfl, rfl⟩
    subst hk₅
    refine ⟨T, l', _, hd₂, ⟨hp₄.same rfl ?_ (fun _ => rfl) (fun _ => rfl) (fun _ => rfl) fun _ =>
      Iff.rfl, h₂.ends.same hends (by rw [hfile₄]; exact h₂.ends.free) hopen,
      h₂.tally.same (fun _ => by rw [hfile₄]) (fun _ => by rw [hpool₄])
      (fun _ hd => by rwa [hpool₄] at hd) hcur₄⟩,
      fun j _ _ => by rw [hpool₄, hpool₂], hcur₄.trans hcur₂, Or.inl ⟨hr0.symm, rfl,
        fun pi' w g => ?_⟩⟩
    · rintro a ⟨w, g, hg⟩
      exact Or.inl ⟨w, g, (hends ..).mp hg⟩
    · rw [hends, hends₂]
  | some f0 =>
    cases r1 with
    | some f1 => trivial
    | none =>
      dsimp only
      rw [Runs.bind_iff, runs_getFile, runs_setFile]
      have hun : Unpiped k₂ f0 := by
        have hun := (hnew₁ f0 rfl).2.1
        unfold Unpiped
        rwa [hsame₂ f0 (Option.some_ne_none f0).symm]
      rw [hfile₄]
      obtain ⟨hgood, hends⟩ := h₂.halfPipe { k₄ with
          filepool := Function.update k₂.filepool f0 { k₂.filepool f0 with
            type := .FD_PIPE, readable := true, writable := false, pipe := pi }
          pipes := Function.update k₄.pipes pi ⟨fun _ => 0, 0, 0, true, true⟩ }
        hp₄ hfresh hun rfl ⟨rfl, rfl, rfl, rfl⟩ hopen rfl hpool₄ hpool₄ hcur₄
      refine ⟨_, l', _, hd₂, hgood, fun j _ _ => by rw [hpool₄, hpool₂], hcur₄.trans hcur₂,
        Or.inr ⟨f0, pi, hr0.symm, fun _ => Iff.rfl, hfresh', fun pi' w g => ?_⟩⟩
      rw [hends, hends₂]

end PipesGood

/-! ## Closing and exiting -/

/-- Ends are shut only: an end is as it was, or its file is in no use. -/
structure OnlyShuts (k k' : Kernel) : Prop where
  stay : ∀ pi w f, IsEnd k pi w f → IsEnd k' pi w f ∨ (k'.filepool f).ref ≤ 0
  back : ∀ pi w f, IsEnd k' pi w f → IsEnd k pi w f
  zero : ∀ f, (k.filepool f).ref ≤ 0 → (k'.filepool f).ref ≤ 0

namespace OnlyShuts

theorem refl : OnlyShuts k k := ⟨fun _ _ _ h => Or.inl h, fun _ _ _ h => h, fun _ h => h⟩

theorem trans (h : OnlyShuts k k₁) (h' : OnlyShuts k₁ k') : OnlyShuts k k' := by
  refine ⟨fun pi w f hf => ?_, fun pi w f hf => h.back pi w f (h'.back pi w f hf),
    fun f hf => h'.zero f (h.zero f hf)⟩
  rcases h.stay pi w f hf with hf | hf
  · exact h'.stay pi w f hf
  · exact Or.inr (h'.zero f hf)

/-- The files did not change. -/
theorem of_files (hfiles : k'.filepool = k.filepool) : OnlyShuts k k' := by
  have hends : ∀ pi w f, IsEnd k' pi w f ↔ IsEnd k pi w f := by
    intro pi w f
    exact isEnd_same fun g => by rw [hfiles]; exact ⟨rfl, rfl, rfl⟩
  exact ⟨fun pi w f hf => Or.inl ((hends ..).mpr hf), fun pi w f hf => (hends ..).mp hf,
    fun f hf => by rwa [hfiles]⟩

end OnlyShuts

theorem Closes.onlyShuts (h : Closes k k' f) : OnlyShuts k k' := by
  have hone : ∀ g, 0 ≤ one f g := by
    intro g
    unfold one only
    split
    · decide
    · decide
  refine ⟨fun pi w g hg => ?_, fun pi w g hg => ((h.ends ..).mp hg).1, fun g hg => ?_⟩
  · by_cases hlast : g = f → 1 < (k.filepool f).ref
    · exact Or.inl ((h.ends ..).mpr ⟨hg, hlast⟩)
    · obtain ⟨rfl, hle⟩ := not_forall.mp hlast
      right
      rw [h.ref]
      unfold one only
      rw [if_pos rfl]
      omega
  · have := hone g
    rw [h.ref]
    omega

/-- The same files: no page of a pipe was given back. -/
theorem GivesBack.of_files (hfiles : k'.filepool = k.filepool) : GivesBack T k k' l l := by
  apply GivesBack.refl
  rintro pi ⟨w, g, hg⟩
  exact ⟨w, g, hg.congr (by rw [hfiles])⟩

namespace PipesGood

/-- What `close` does to the ends. -/
theorem sys_close_runs (h : PipesGood lk T nobody d k l) (fd : Int) :
    Runs (fun _ => True) (sys_close lk fd) k (fun _ k' => ∃ l', PipesGood lk T nobody d k' l' ∧
      Others k k' ∧ k'.current_proc = k.current_proc ∧ OnlyShuts k k' ∧ GivesBack T k k' l l') := by
  unfold sys_close
  split
  · exact ⟨l, h, fun _ _ _ => rfl, rfl, OnlyShuts.refl, GivesBack.of_files rfl⟩
  · apply Runs.bind_iff.mpr
    apply runs_fileAt (fun _ => trivial)
    intro f h0 hmax hf
    apply (h.fileclose_runs f).bind
    rintro _ k₁ ⟨l₁, h₁, hc, hback⟩
    rw [Runs.bind_iff, runs_modifyCurr, Runs.pure_iff]
    have ht := h₁.tally.setFd h₁.tally.current (show fd.toNat < FD_MAX by omega) none
      (p := { k₁.pool k₁.current_proc with
      files := Function.update (k₁.pool k₁.current_proc).files fd.toNat none }) rfl h₁.tally.live
    rw [hc.current, hc.pool, hf, ones_some, ones_none, sub_zero, sub_add_cancel] at ht
    have hp := h₁.pages.setFiles (i := k₁.current_proc)
      (Function.update (k₁.pool k₁.current_proc).files fd.toNat none) k₁.filepool
    rw [hc.current, hc.pool] at hp ⊢
    refine ⟨l₁, h₁.same hp rfl rfl ht, fun j hj _ => ?_, rfl,
      hc.onlyShuts.trans (OnlyShuts.of_files rfl), hback.trans (GivesBack.of_files rfl)⟩
    dsimp only
    rw [Function.update_of_ne hj]

/-- The loop over the files of a process that exits. -/
theorem closeFiles_runs (h : PipesGood lk T (· = k.current_proc) d k l) :
    Runs (fun _ => True) (closeFiles lk k.current_proc) k (fun _ k' => ∃ l',
      PipesGood lk T (· = k.current_proc) d k' l' ∧ k'.current_proc = k.current_proc ∧
      (∀ j, j ≠ k.current_proc → k'.pool j = k.pool j) ∧ OnlyShuts k k' ∧ GivesBack T k k' l l' ∧
      (k'.pool k.current_proc).state = (k.pool k.current_proc).state ∧
      ∀ fd < FD_MAX, (k'.pool k.current_proc).files fd = none) := by
  -- After turn `fd`, the descriptors below `fd` are free.
  refine (Runs.forUp (fun fd k' => ∃ l', PipesGood lk T (· = k.current_proc) d k' l' ∧
    k'.current_proc = k.current_proc ∧ (∀ j, j ≠ k.current_proc → k'.pool j = k.pool j) ∧
    OnlyShuts k k' ∧
    GivesBack T k k' l l' ∧ (k'.pool k.current_proc).state = (k.pool k.current_proc).state ∧
    ∀ fd' < fd, (k'.pool k.current_proc).files fd' = none) ?_ ?_).imp ?_
  · rintro fd k₁ _ hfd ⟨l₁, h₁, hcur₁, hoth₁, hs₁, hb₁, hstate₁, hnone₁⟩
    rw [Nat.zero_add] at hfd
    rw [Runs.bind_iff, runs_getProc]
    have hbelow : ∀ {files : Nat → Option Nat}, (∀ fd' < fd, files fd' = none) → files fd = none →
        ∀ fd' < fd + 1, files fd' = none := by
      intro files hlt heq fd' hfd'
      rcases Nat.lt_succ_iff_lt_or_eq.mp hfd' with hc | rfl
      · exact hlt fd' hc
      · exact heq
    cases hf : (k₁.pool k.current_proc).files fd with
    | none => exact ⟨l₁, h₁, hcur₁, hoth₁, hs₁, hb₁, hstate₁, hbelow hnone₁ hf⟩
    | some f =>
      dsimp only
      apply (h₁.fileclose_runs f).bind
      rintro _ k₂ ⟨l₂, h₂, hc, hb₂⟩
      rw [Runs.bind_iff, runs_getProc, runs_setProc, hc.pool]
      have ht := h₂.tally.setFd h.tally.current hfd none (p := { k₂.pool k.current_proc with
        files := Function.update (k₂.pool k.current_proc).files fd none }) rfl fun _ => rfl
      rw [hc.pool, hf, ones_some, ones_none, sub_zero, sub_add_cancel] at ht
      have hp := h₂.pages.setFiles (i := k.current_proc)
        (Function.update (k₂.pool k.current_proc).files fd none) k₂.filepool
      rw [hc.pool] at hp
      refine ⟨l₂, h₂.same hp rfl rfl ht, hc.current.trans hcur₁, fun j hj => ?_,
        hs₁.trans (hc.onlyShuts.trans (OnlyShuts.of_files rfl)),
        hb₁.trans (hb₂.trans (GivesBack.of_files rfl)), ?_, ?_⟩
      · dsimp only
        rw [Function.update_of_ne hj]
        exact hoth₁ j hj
      · dsimp only
        rw [Function.update_self]
        exact hstate₁
      · dsimp only
        rw [Function.update_self]
        apply hbelow
        · intro fd' hfd'
          dsimp only
          rw [Function.update_of_ne (Nat.ne_of_lt hfd')]
          exact hnone₁ fd' hfd'
        · exact Function.update_self _ _ _
  · exact ⟨l, h, rfl, fun _ _ => rfl, OnlyShuts.refl, GivesBack.of_files rfl, rfl,
      fun fd' hfd' => absurd hfd' (Nat.not_lt_zero _)⟩
  · rintro _ k' h'
    exact h'

/-- The pages and the slot of a process that exits. -/
theorem freeproc_runs (h : PipesGood lk T (· = k.current_proc) d k l)
    (hlive : ¬ Dead (k.pool k.current_proc)) :
    Runs (fun _ => True) (freeproc lk k.current_proc) k (fun _ k' => ∃ l',
      PipesGood lk T (· = k.current_proc) d k' l' ∧ k'.current_proc = k.current_proc ∧
      (∀ j, j ≠ k.current_proc → k'.pool j = k.pool j) ∧ OnlyShuts k k' ∧ GivesBack T k k' l l' ∧
      Dead (k'.pool k.current_proc) ∧ ∀ fd < FD_MAX, (k'.pool k.current_proc).files fd = none) := by
  have hcur := h.tally.current
  obtain ⟨hr, hne⟩ := h.pages.root hcur hlive
  rw [runs_freeproc, Runs.when_iff]
  refine ⟨fun _ => ?_, fun hc => absurd hne hc⟩
  rw [runs_onMm]
  apply (proc_freepagetable_runs h.pages.spaces hr (h.pages.image _ hcur hne).size).mono
    (fun _ _ => trivial)
  rintro _ m ⟨_, l₁, hgone⟩
  dsimp only
  generalize hk₁ :
    ({ k with mm := m, pool := Function.update k.pool k.current_proc { k.pool k.current_proc with
    pagetable := 0, state := .UNUSED } } : Kernel) = k₁
  have hcur₁ : k₁.current_proc = k.current_proc := by rw [← hk₁]
  have hp₁ : PagesOk lk k₁ (PipePage k) l₁ := by
    refine h.pages.leave hcur hne
      (q := { k.pool k.current_proc with pagetable := 0, state := .UNUSED }) ?_ ?_ rfl rfl
      (Or.inl rfl)
    · rw [← hk₁]
      exact hgone
    · rw [← hk₁]
  have ht₁ : Tally (· = k.current_proc) d k₁ := by
    have ht := h.tally.setOwn (p := { k.pool k.current_proc with pagetable := 0, state := .UNUSED })
      rfl
    rw [← hk₁]
    exact ht.same (fun _ => rfl) (fun _ => rfl) (fun _ hd => hd) rfl
  have h₁ : PipesGood lk T (· = k.current_proc) d k₁ l₁ :=
    h.same hp₁ (by rw [← hk₁]) (by rw [← hk₁]) ht₁
  have hdead₁ : Dead (k₁.pool k.current_proc) := by
    rw [← hk₁]
    dsimp only
    rw [Function.update_self]
    exact Or.inl rfl
  have hoth₁ : ∀ j, j ≠ k.current_proc → k₁.pool j = k.pool j := by
    intro j hj
    rw [← hk₁]
    exact Function.update_of_ne hj _ _
  have hb₁ : GivesBack T k k₁ l l₁ := by
    refine ⟨fun a ha => (hgone.pages a).mpr (Or.inl ha), ?_⟩
    rintro pi ⟨w, g, hg⟩ _
    exact Or.inl ⟨w, g, hg.congr (by rw [← hk₁])⟩
  rw [← hcur₁] at h₁ ⊢
  apply h₁.closeFiles_runs.imp
  rintro _ k₂ ⟨l₂, h₂, hcur₂, hoth₂, hs₂, hb₂, hstate₂, hnone₂⟩
  rw [hcur₁] at *
  refine ⟨l₂, h₂, hcur₂, fun j hj => (hoth₂ j hj).trans (hoth₁ j hj),
    (OnlyShuts.of_files (by rw [← hk₁])).trans hs₂, hb₁.trans hb₂, ?_, hnone₂⟩
  unfold Dead
  rw [hstate₂]
  exact hdead₁

/-- A process exits: it has no file left, and all else is in order. -/
theorem exit_runs (h : PipesGood lk T nobody d k l) (code : Int) :
    Runs (fun _ => True) (exit lk code) k (fun _ k' =>
      ∃ l', PipesGood lk T (· = k.current_proc) d k' l' ∧
      k'.current_proc = k.current_proc ∧ Others k k' ∧ OnlyShuts k k' ∧ GivesBack T k k' l l' ∧
      ∀ fd < FD_MAX, (k'.pool k.current_proc).files fd = none) := by
  have hlive := h.tally.alive
  rw [runs_exit]
  generalize hk₁ :
    ({ k with pool := Function.update k.pool k.current_proc { k.pool k.current_proc with
    exit_code := code } } : Kernel) = k₁
  have hcur₁ : k₁.current_proc = k.current_proc := by rw [← hk₁]
  have hoth₁ : ∀ j, j ≠ k.current_proc → k₁.pool j = k.pool j := by
    intro j hj
    rw [← hk₁]
    exact Function.update_of_ne hj _ _
  have hlive₁ : ¬ Dead (k₁.pool k.current_proc) := by
    rw [← hk₁]
    dsimp only
    rw [Function.update_self]
    exact hlive
  have h₁ : PipesGood lk T (· = k.current_proc) d k₁ l := by
    have ht := (h.tally.leaving k.current_proc).setOwn
      (p := { k.pool k.current_proc with exit_code := code }) rfl
    have hp := h.pages.setProc (i := k.current_proc)
      (q := { k.pool k.current_proc with exit_code := code }) rfl rfl rfl Iff.rfl
    rw [hk₁] at ht hp
    exact h.same hp (by rw [← hk₁]) (by rw [← hk₁]) ht
  have hfiles₁ : k₁.filepool = k.filepool := by rw [← hk₁]
  clear hk₁
  rw [← hcur₁] at h₁ hlive₁ hoth₁
  rw [← hcur₁]
  apply (h₁.freeproc_runs hlive₁).imp
  rintro _ k₂ ⟨l₂, h₂, hcur₂, hoth₂, hs₂, hb₂, hdead₂, hnone₂⟩
  have hs : OnlyShuts k k₂ := (OnlyShuts.of_files hfiles₁).trans hs₂
  have hb : GivesBack T k k₂ l l₂ := (GivesBack.of_files hfiles₁).trans hb₂
  have hoth : ∀ j, j ≠ k.current_proc → k₂.pool j = k.pool j := by
    intro j hj
    rw [← hcur₁] at hj
    rw [hoth₂ j hj, hoth₁ j hj]
  rw [hcur₁] at *
  refine ⟨fun _ => ?_, fun _ => ⟨l₂, h₂, hcur₂, fun j hj _ => hoth j hj, hs, hb, hnone₂⟩⟩
  rw [hcur₂]
  rw [← hcur₂] at h₂
  have ht := h₂.tally.setOwn (p := { k₂.pool k₂.current_proc with state := .ZOMBIE }) rfl
  have hp := h₂.pages.setProc (i := k₂.current_proc)
    (q := { k₂.pool k₂.current_proc with state := .ZOMBIE }) rfl rfl rfl
    ⟨fun _ => by rwa [hcur₂], fun _ => Or.inr rfl⟩
  have h₃ := h₂.same hp rfl rfl ht
  rw [hcur₂] at h₃
  refine ⟨l₂, h₃, rfl, fun j hj _ => ?_, hs.trans (OnlyShuts.of_files rfl),
    hb.trans (GivesBack.of_files rfl), fun fd hfd => ?_⟩
  · dsimp only
    rw [Function.update_of_ne hj]
    exact hoth j hj
  · dsimp only
    rw [Function.update_self]
    exact hnone₂ fd hfd

end PipesGood

/-! ## fork -/

/-- The same files, with at least as many references. -/
def Grown (k k' : Kernel) : Prop :=
  ∀ f, (k'.filepool f).type = (k.filepool f).type ∧ (k'.filepool f).pipe = (k.filepool f).pipe ∧
    (k'.filepool f).writable = (k.filepool f).writable ∧ (k.filepool f).ref ≤ (k'.filepool f).ref

theorem Grown.refl : Grown k k := fun _ => ⟨rfl, rfl, rfl, le_refl _⟩

theorem Grown.trans (h : Grown k k₁) (h' : Grown k₁ k') : Grown k k' := by
  intro f
  obtain ⟨h1, h2, h3, h4⟩ := h f
  obtain ⟨h1', h2', h3', h4'⟩ := h' f
  exact ⟨h1'.trans h1, h2'.trans h2, h3'.trans h3, h4.trans h4'⟩

theorem Grown.of_files (hfiles : k'.filepool = k.filepool) : Grown k k' := by
  intro f
  rw [hfiles]
  exact ⟨rfl, rfl, rfl, le_refl _⟩

theorem allocproc_files :
    Runs (fun _ => True) (allocproc lk) k (fun _ k' => k'.filepool = k.filepool) := by
  rw [runs_allocproc]
  exact ⟨fun _ => rfl, fun np _ => Runs.of_forall fun root s _ => ⟨fun _ => trivial, fun _ => rfl⟩⟩

namespace Tally

/-- A turn of `fork` over the files: a descriptor that was in use is lost. -/
theorem dupFile_grows {np fd : Nat} (h : Tally nobody d k) (hd : 0 ≤ d) (hnp : np < NPROC)
    (hlive : ¬ Dead (k.pool np)) (hfd : fd < FD_MAX) : Runs E (dupFile i np fd) k (fun _ k' =>
    ∃ d', 0 ≤ d' ∧ Tally nobody d' k' ∧
      ¬ Dead (k'.pool np) ∧ Grown k k') := by
  unfold dupFile
  rw [Runs.bind_iff, runs_getProc]
  split
  · exact ⟨d, hd, h, hlive, Grown.refl⟩
  · rename_i f _
    rw [Runs.bind_iff, runs_getFile, Runs.when_iff]
    refine ⟨fun _ => ?_, fun _ => ⟨d, hd, h, hlive, Grown.refl⟩⟩
    rw [Runs.bind_iff, runs_setFile, Runs.bind_iff, runs_getProc, runs_setProc]
    have h₁ := h.setFile (f := f) { k.filepool f with ref := (k.filepool f).ref + 1 }
    have hone : (fun j => if j = f then (k.filepool f).ref + 1 - (k.filepool f).ref else 0) =
        one f := by
      funext j
      unfold one only
      rw [add_sub_cancel_left]
    rw [hone] at h₁
    have h₂ := h₁.setFd hnp hfd (some f) (p := { k.pool np with
      files := Function.update (k.pool np).files fd (some f) }) rfl (fun hc => absurd hc hlive)
    rw [ones_some, show ∀ x y : Nat → Int, x + one f + y - one f = x + y by intros; ring] at h₂
    refine ⟨_, ?_, h₂, ?_, fun g => ?_⟩
    · intro j
      have h1 := hd j
      have h2 : 0 ≤ ones ((k.pool np).files fd) j := by
        unfold ones
        split
        · decide
        · decide
      exact add_nonneg h1 h2
    · dsimp only
      rw [Function.update_self]
      exact hlive
    · dsimp only
      by_cases hg : g = f
      · rw [hg, Function.update_self]
        exact ⟨rfl, rfl, rfl, by dsimp only; omega⟩
      · rw [Function.update_of_ne hg]
        exact ⟨rfl, rfl, rfl, le_refl _⟩

/-- `fork` never leaves a file with fewer references than descriptors. -/
theorem fork_grows (h : Tally nobody d k) (hd : 0 ≤ d) :
    Runs (fun _ => True) (fork lk) k (fun _ k' => ∃ d', 0 ≤ d' ∧ Tally nobody d' k' ∧
      Grown k k') := by
  rw [runs_fork]
  apply ((@allocproc_files lk k).and h.allocproc_runs).mono (fun _ _ => trivial)
  rintro r k₁ ⟨hfiles₁, _, _, h₁, hsame₁, hnew⟩ _ rfl np hnp _ rfl _ rfl
  have hlt : r.getD k.current_proc < NPROC ∧ ¬ Dead (k₁.pool (r.getD k.current_proc)) := by
    cases r with
    | none =>
      rw [hsame₁ rfl]
      exact ⟨h.current, h.alive⟩
    | some np =>
      obtain ⟨hlt, _, hlive, _⟩ := hnew np rfl
      exact ⟨hlt, hlive⟩
  rw [hnp] at hlt
  obtain ⟨hlt, hlive⟩ := hlt
  apply (h₁.onMm _).imp
  rintro r k₂ ⟨h₂, hk₂⟩
  have hfiles₂ : k₂.filepool = k.filepool := by rw [hk₂, ← hfiles₁]
  constructor
  · exact fun _ => ⟨d, hd, h₂, Grown.of_files hfiles₂⟩
  · intro _
    have hpool₂ : k₂.pool = k₁.pool := by rw [hk₂]
    rw [← hpool₂] at hlive ⊢
    have h₃ := h₂.setProc (i := np) (p := { k₂.pool np with sz := (k₂.pool k.current_proc).sz }) rfl
      (fun hc => hc)
    apply (h₃.onMm _).imp
    rintro _ k₄ ⟨h₄, hk₄⟩
    -- Every turn adds references and live descriptors only.
    refine (Runs.forUp (fun _ k' => ∃ d', 0 ≤ d' ∧ Tally nobody d' k' ∧ ¬ Dead (k'.pool np) ∧
      Grown k k') ?_ ?_).imp ?_
    · rintro fd k₅ _ hfd ⟨d₅, hd₅, h₅, hlive₅, hgrown₅⟩
      rw [Nat.zero_add] at hfd
      apply (h₅.dupFile_grows hd₅ hlt hlive₅ hfd).imp
      rintro _ k₆ ⟨d₆, hd₆, h₆, hlive₆, hgrown₆⟩
      exact ⟨d₆, hd₆, h₆, hlive₆, hgrown₅.trans hgrown₆⟩
    · refine ⟨d, hd, h₄, ?_, Grown.of_files ?_⟩
      · rw [hk₄]
        dsimp only
        rw [Function.update_self]
        exact hlive
      · rw [hk₄, ← hfiles₂]
    · rintro _ k₆ ⟨d₆, hd₆, h₆, _, hgrown₆⟩
      apply (h₆.onMm _).imp
      rintro _ k₇ ⟨h₇, hk₇⟩
      refine ⟨d₆, hd₆, h₇.setProc rfl fun hc => absurd hc not_dead_runnable,
        hgrown₆.trans (Grown.of_files ?_)⟩
      rw [hk₇]

end Tally

end ThuKernel
