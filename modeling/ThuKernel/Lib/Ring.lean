-- Circular doubly linked lists: a head, and two pointers in each node. What
-- a walk along the pointers meets, how a node is taken out, and how it is
-- put back at the front.
import Mathlib.Logic.Function.Basic
import Mathlib.Tactic.Tauto

namespace ThuKernel

variable {α : Type} {next prev next' prev' : α → α} {a b h x : α} {l l₁ l₂ : List α}

/-- From `a`, the `next` pointers run through `l` to `b`, and the `prev`
pointers run back. -/
def Linked (next prev : α → α) : α → List α → α → Prop
  | a, [], b => next a = b ∧ prev b = a
  | a, x :: l, b => next a = x ∧ prev x = a ∧ Linked next prev x l b

/-- A ring: the nodes of `l` in order, between the head and itself. -/
structure Ring (next prev : α → α) (h : α) (l : List α) : Prop where
  linked : Linked next prev h l h
  nodup : (h :: l).Nodup

namespace Linked

theorem congr (hl : Linked next prev a l b) (hn : ∀ y ∈ a :: l, next' y = next y)
    (hp : ∀ y, y ∈ l ∨ y = b → prev' y = prev y) : Linked next' prev' a l b := by
  induction l generalizing a with
  | nil =>
    obtain ⟨h1, h2⟩ := hl
    exact ⟨(hn a (by simp)).trans h1, (hp b (Or.inr rfl)).trans h2⟩
  | cons y l ih =>
    obtain ⟨h1, h2, h3⟩ := hl
    refine ⟨(hn a (by simp)).trans h1, (hp y (Or.inl (by simp))).trans h2, ?_⟩
    apply ih h3
    · intro z hz
      exact hn z (List.mem_cons_of_mem _ hz)
    · rintro z (hz | hz)
      · exact hp z (Or.inl (List.mem_cons_of_mem _ hz))
      · exact hp z (Or.inr hz)

theorem append_iff :
    Linked next prev a (l₁ ++ x :: l₂) b ↔ Linked next prev a l₁ x ∧ Linked next prev x l₂ b := by
  induction l₁ generalizing a with
  | nil => simp [Linked, and_assoc]
  | cons y l₁ ih => simp [Linked, ih, and_assoc]

theorem reverse (hl : Linked next prev a l b) : Linked prev next b l.reverse a := by
  induction l generalizing a with
  | nil => exact ⟨hl.2, hl.1⟩
  | cons y l ih =>
    obtain ⟨h1, h2, h3⟩ := hl
    rw [List.reverse_cons]
    exact append_iff.mpr ⟨ih h3, h2, h1⟩

theorem next_mem (hl : Linked next prev a l b) : next a ∈ l ∨ next a = b := by
  cases l with
  | nil => exact Or.inr hl.1
  | cons y l => exact Or.inl (by simp [hl.1])

theorem prev_mem (hl : Linked next prev a l b) : prev b ∈ l ∨ prev b = a := by
  have := hl.reverse.next_mem
  simpa using this

/-- `x->next->prev = x->prev; x->prev->next = x->next;` -/
theorem unlink [DecidableEq α] (hl : Linked next prev a (l₁ ++ x :: l₂) b)
    (hnd : (l₁ ++ x :: l₂).Nodup) (ha : a ∉ l₁ ++ x :: l₂) (hb : b ∉ l₁ ++ x :: l₂) :
    Linked (Function.update next (prev x) (next x)) (Function.update prev (next x) (prev x))
      a (l₁ ++ l₂) b := by
  induction l₁ generalizing a with
  | nil =>
    obtain ⟨_, h2, h3⟩ := hl
    rw [h2]
    cases l₂ with
    | nil =>
      obtain ⟨h4, _⟩ := h3
      simp [Linked, h4]
    | cons y l₂ =>
      obtain ⟨h4, _, h5⟩ := h3
      simp only [List.nil_append, List.nodup_cons, List.mem_cons, not_or] at hnd ha hb ⊢
      refine ⟨by simp [h4], by simp [h4], ?_⟩
      apply h5.congr
      · intro z hz
        apply Function.update_of_ne
        rintro rfl
        simp only [List.mem_cons] at hz
        tauto
      · rintro z hz
        rw [h4]
        apply Function.update_of_ne
        rintro rfl
        rcases hz with hz | hz
        · tauto
        · exact hb.2.1 hz.symm
  | cons y l₁ ih =>
    obtain ⟨h1, h2, h3⟩ := hl
    have hsplit := append_iff.mp h3
    have hpx := hsplit.1.prev_mem
    have hnx := hsplit.2.next_mem
    simp only [List.cons_append, List.nodup_cons, List.mem_cons, List.mem_append, not_or]
      at hnd ha hb
    have hpa : prev x ≠ a := by
      rintro rfl
      rcases hpx with h | h
      · exact ha.2.1 h
      · exact ha.1 h
    have hny : next x ≠ y := by
      rintro rfl
      rcases hnx with h | h
      · tauto
      · exact hb.1 h.symm
    refine ⟨by rw [Function.update_of_ne hpa.symm]; exact h1,
      by rw [Function.update_of_ne hny.symm]; exact h2, ?_⟩
    apply ih h3 hnd.2
    · simp only [List.mem_append, List.mem_cons, not_or]; tauto
    · simp only [List.mem_append, List.mem_cons, not_or]; tauto

end Linked

namespace Ring

variable [DecidableEq α]

/-- Taking a node out of the ring. -/
theorem unlink (hr : Ring next prev h (l₁ ++ x :: l₂)) :
    Ring (Function.update next (prev x) (next x)) (Function.update prev (next x) (prev x))
      h (l₁ ++ l₂) := by
  have hnd := hr.nodup
  rw [List.nodup_cons] at hnd
  refine ⟨hr.linked.unlink hnd.2 hnd.1 hnd.1, ?_⟩
  rw [List.nodup_cons]
  refine ⟨fun hm => hnd.1 ?_, hnd.2.sublist (by simp)⟩
  simp only [List.mem_append, List.mem_cons] at hm ⊢
  tauto

/-- `x->next = head.next; x->prev = &head; head.next->prev = x; head.next = x;` -/
theorem push (hr : Ring next prev h l) (hx : x ∉ h :: l) :
    Ring (Function.update (Function.update next x (next h)) h x)
      (Function.update (Function.update prev x h) (next h) x) h (x :: l) := by
  have hnd := hr.nodup
  simp only [List.nodup_cons, List.mem_cons, not_or] at hnd hx ⊢
  refine ⟨?_, by
    simp only [List.nodup_cons, List.mem_cons, not_or]
    exact ⟨⟨fun he => hx.1 he.symm, hnd.1⟩, hx.2, hnd.2⟩⟩
  have hnx : next h ≠ x := by
    rintro rfl
    rcases hr.linked.next_mem with hm | hm
    · exact hx.2 hm
    · exact hx.1 hm
  refine ⟨by simp, by simp [Function.update_of_ne hnx.symm], ?_⟩
  have hl := hr.linked
  cases l with
  | nil =>
    obtain ⟨h1, _⟩ := hl
    exact ⟨by simp [Function.update_of_ne hx.1, h1], by simp [h1]⟩
  | cons y l =>
    obtain ⟨h1, _, h3⟩ := hl
    simp only [List.nodup_cons, List.mem_cons, not_or] at hnd hx
    refine ⟨by simp [Function.update_of_ne hx.1, h1], by simp [h1], ?_⟩
    apply h3.congr
    · intro z hz
      have hzh : z ≠ h := by
        rintro rfl
        simp only [List.mem_cons] at hz
        tauto
      have hzx : z ≠ x := by
        rintro rfl
        simp only [List.mem_cons] at hz
        tauto
      rw [Function.update_of_ne hzh, Function.update_of_ne hzx]
    · rintro z hz
      have hzy : z ≠ next h := by
        rw [h1]
        rintro rfl
        rcases hz with hz | hz
        · tauto
        · exact hnd.1.1 hz.symm
      have hzx : z ≠ x := by
        rintro rfl
        rcases hz with hz | hz
        · tauto
        · exact hx.1 hz
      rw [Function.update_of_ne hzy, Function.update_of_ne hzx]

end Ring

/-! ## A walk along the pointers -/

variable [DecidableEq α]

/-- `for (b = ..; b != stop; b = b->next) if (p(b)) return b;`: the outer
`none` is a walk that meets no end. -/
def firstAlong (next : α → α) (p : α → Bool) (stop : α) : (fuel : Nat) → α → Option (Option α)
  | 0, _ => none
  | n + 1, b =>
    if b = stop then some none
    else if p b then some (some b)
    else firstAlong next p stop n (next b)

/-- The walk from the start of a linked list finds what `find?` finds in it. -/
theorem firstAlong_linked (p : α → Bool) {fuel : Nat} (hl : Linked next prev a l b) (hb : b ∉ l)
    (hf : l.length < fuel) : firstAlong next p b fuel (next a) = some (l.find? p) := by
  induction l generalizing a fuel with
  | nil =>
    obtain ⟨n, rfl⟩ := Nat.exists_eq_succ_of_ne_zero (by omega : fuel ≠ 0)
    simp [firstAlong, hl.1]
  | cons y l ih =>
    obtain ⟨h1, _, h3⟩ := hl
    obtain ⟨n, rfl⟩ := Nat.exists_eq_succ_of_ne_zero (by omega : fuel ≠ 0)
    simp only [List.mem_cons, not_or] at hb
    have hyb : y ≠ b := fun he => hb.1 he.symm
    simp only [firstAlong, h1, if_neg hyb, List.find?_cons]
    cases hp : p y with
    | true => rfl
    | false =>
      simp only [Bool.false_eq_true, if_false]
      exact ih h3 hb.2 (by simpa using hf)

/-- The nodes that a walk meets before it is back at `h`. -/
def around (next : α → α) (h : α) : (fuel : Nat) → α → List α
  | 0, _ => []
  | n + 1, a => if next a = h then [] else next a :: around next h n (next a)

theorem around_linked {fuel : Nat} (hl : Linked next prev a l b) (hb : b ∉ l)
    (hf : l.length < fuel) :
    around next b fuel a = l := by
  induction l generalizing a fuel with
  | nil =>
    obtain ⟨n, rfl⟩ := Nat.exists_eq_succ_of_ne_zero (by omega : fuel ≠ 0)
    unfold around
    rw [if_pos hl.1]
  | cons y l ih =>
    obtain ⟨h1, _, h3⟩ := hl
    obtain ⟨n, rfl⟩ := Nat.exists_eq_succ_of_ne_zero (by omega : fuel ≠ 0)
    rw [List.mem_cons, not_or] at hb
    rw [List.length_cons] at hf
    unfold around
    rw [h1, if_neg fun he => hb.1 he.symm, ih h3 hb.2 (by omega)]

/-- The two walks around a ring meet its nodes in opposite orders. -/
theorem Ring.around (hr : Ring next prev h l) {fuel : Nat} (hf : l.length < fuel) :
    around next h fuel h = l ∧ around prev h fuel h = l.reverse := by
  have hnd := (List.nodup_cons.mp hr.nodup).1
  exact ⟨around_linked hr.linked hnd hf,
    around_linked hr.linked.reverse (by simpa using hnd) (by simpa using hf)⟩

theorem Ring.firstAlong_next (hr : Ring next prev h l) (p : α → Bool) {fuel : Nat}
    (hf : l.length < fuel) : firstAlong next p h fuel (next h) = some (l.find? p) :=
  firstAlong_linked p hr.linked (List.nodup_cons.mp hr.nodup).1 hf

theorem Ring.firstAlong_prev (hr : Ring next prev h l) (p : α → Bool) {fuel : Nat}
    (hf : l.length < fuel) : firstAlong prev p h fuel (prev h) = some (l.reverse.find? p) :=
  firstAlong_linked p hr.linked.reverse (by simpa using (List.nodup_cons.mp hr.nodup).1)
    (by simpa using hf)

end ThuKernel
