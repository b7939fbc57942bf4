-- A table of rows, each with a value and a key: a row with the value `free` is in no use,
-- and its key counts for nothing. What is found for a key, when a row is put into the
-- table, or goes out of use.
import Mathlib.Data.Set.Card
import Mathlib.Logic.Function.Basic

namespace ThuKernel

namespace Rows

variable {ν κ : Type} [DecidableEq ν] [DecidableEq κ] {free v w : ν} {rows : List (ν × κ)}
  {i j : Nat} {k k' : κ} {r : ν × κ}

/-- The value of the first row in use with the key. -/
def lookup (free : ν) (rows : List (ν × κ)) (k : κ) : Option ν :=
  (rows.find? fun r => decide (r.1 ≠ free ∧ r.2 = k)).map Prod.fst

/-- No two rows in use have one key. -/
def Distinct (free : ν) (rows : List (ν × κ)) : Prop :=
  ∀ (i j : Nat) v w k, rows[i]? = some (v, k) → rows[j]? = some (w, k) → v ≠ free → w ≠ free → i = j

/-- Row `i` becomes `r`. The row behind the last one is a new row. -/
def put (rows : List (ν × κ)) (i : Nat) (r : ν × κ) : List (ν × κ) :=
  if i < rows.length then rows.set i r else rows ++ [r]

omit [DecidableEq ν] [DecidableEq κ] in
theorem getElem?_put (hi : i ≤ rows.length) (j : Nat) :
    (put rows i r)[j]? = if j = i then some r else rows[j]? := by
  unfold put
  split
  · rename_i hlt
    rw [List.getElem?_set]
    by_cases hji : j = i
    · rw [if_pos hji.symm, if_pos hji, if_pos hlt]
    · rw [if_neg (Ne.symm hji), if_neg hji]
  · obtain rfl : i = rows.length := by omega
    by_cases hji : j = rows.length
    · rw [if_pos hji, hji, List.getElem?_append_right (Nat.le_refl _), Nat.sub_self]
      rfl
    · rw [if_neg hji]
      by_cases hlt : j < rows.length
      · exact List.getElem?_append_left hlt
      · rw [List.getElem?_eq_none (by rw [List.length_append, List.length_singleton]; omega),
          List.getElem?_eq_none (by omega)]

omit [DecidableEq ν] [DecidableEq κ] in
theorem mem_put {r' : ν × κ} (h : r' ∈ put rows i r) : r' = r ∨ r' ∈ rows := by
  unfold put at h
  split at h
  · exact (List.mem_or_eq_of_mem_set h).symm
  · exact (List.mem_append.mp h).symm.imp List.mem_singleton.mp id

theorem lookup_eq_none : lookup free rows k = none ↔ ∀ (i : Nat) v, rows[i]? = some (v, k) →
    v = free := by
  unfold lookup
  rw [Option.map_eq_none_iff, List.find?_eq_none]
  constructor
  · intro h i v hi
    by_contra hv
    exact h _ (List.mem_of_getElem? hi) (decide_eq_true ⟨hv, rfl⟩)
  · rintro h ⟨v, _⟩ hr hd
    obtain ⟨hv, rfl⟩ := of_decide_eq_true hd
    obtain ⟨i, hi⟩ := List.getElem?_of_mem hr
    exact hv (h i v hi)

/-- The first row in use with the key is the one that is found. -/
theorem lookup_first (hi : rows[i]? = some (v, k)) (hv : v ≠ free)
    (hbefore : ∀ j w, j < i → rows[j]? = some (w, k) → w = free) : lookup free rows k = some v := by
  obtain ⟨hlt, hat⟩ := List.getElem?_eq_some_iff.mp hi
  have hfind : rows.find? (fun r => decide (r.1 ≠ free ∧ r.2 = k)) = some (v, k) := by
    rw [List.find?_eq_some_iff_getElem]
    refine ⟨decide_eq_true ⟨hv, rfl⟩, i, hlt, hat, fun j hj => ?_⟩
    rw [Bool.not_eq_true', decide_eq_false_iff_not]
    rintro ⟨h0, hk⟩
    refine h0 (hbefore j _ hj ?_)
    rw [List.getElem?_eq_getElem (hj.trans hlt), ← hk]
  unfold lookup
  rw [hfind]
  rfl

theorem lookup_eq_some (hd : Distinct free rows) :
    lookup free rows k = some v ↔ v ≠ free ∧ ∃ i : Nat, rows[i]? = some (v, k) := by
  unfold lookup
  rw [Option.map_eq_some_iff]
  constructor
  · rintro ⟨⟨w, k'⟩, hfind, rfl⟩
    have hin := List.find?_some hfind
    obtain ⟨hv, rfl⟩ := of_decide_eq_true hin
    exact ⟨hv, List.getElem?_of_mem (List.mem_of_find?_eq_some hfind)⟩
  · rintro ⟨hv, i, hi⟩
    cases hfind : rows.find? fun r => decide (r.1 ≠ free ∧ r.2 = k) with
    | none =>
      have := List.find?_eq_none.mp hfind _ (List.mem_of_getElem? hi)
      exact absurd (decide_eq_true ⟨hv, rfl⟩) this
    | some r =>
      have hin := List.find?_some hfind
      obtain ⟨w, k'⟩ := r
      obtain ⟨hr, rfl⟩ := of_decide_eq_true hin
      obtain ⟨j, hj⟩ := List.getElem?_of_mem (List.mem_of_find?_eq_some hfind)
      obtain rfl := hd i j v w k' hi hj hv hr
      rw [hi] at hj
      cases hj
      exact ⟨_, rfl, rfl⟩

/-- Two tables give the same for a key when they have the same rows in use for it. -/
theorem lookup_congr {rows' : List (ν × κ)} (hd : Distinct free rows) (hd' : Distinct free rows')
    (h : ∀ v, v ≠ free → ((∃ i : Nat, rows[i]? = some (v, k)) ↔
    ∃ i : Nat, rows'[i]? = some (v, k))) :
    lookup free rows k = lookup free rows' k := by
  apply Option.ext
  intro v
  rw [lookup_eq_some hd, lookup_eq_some hd']
  exact and_congr_right fun hv => h v hv

/-! ## A new row -/

section Insert

variable (hi : i ≤ rows.length) (hfree : ∀ r, rows[i]? = some r → r.1 = free)
  (hnew : lookup free rows k = none)

include hi hnew in
theorem Distinct.insert (hd : Distinct free rows) : Distinct free (put rows i (v, k)) := by
  have hother : ∀ j w, j ≠ i → rows[j]? = some (w, k) → w = free :=
    fun j w _ hj => lookup_eq_none.mp hnew j w hj
  intro a b va vb ka ha hb hva hvb
  rw [getElem?_put hi] at ha hb
  by_cases hai : a = i
  · by_cases hbi : b = i
    · rw [hai, hbi]
    · rw [if_pos hai] at ha
      rw [if_neg hbi] at hb
      cases ha
      exact absurd (hother b vb hbi hb) hvb
  · rw [if_neg hai] at ha
    by_cases hbi : b = i
    · rw [if_pos hbi] at hb
      cases hb
      exact absurd (hother a va hai ha) hva
    · rw [if_neg hbi] at hb
      exact hd a b va vb ka ha hb hva hvb

include hi hnew in
theorem lookup_insert (hd : Distinct free rows) (hv : v ≠ free) :
    lookup free (put rows i (v, k)) k = some v := by
  rw [lookup_eq_some (hd.insert hi hnew)]
  exact ⟨hv, i, by rw [getElem?_put hi, if_pos rfl]⟩

include hi hfree hnew in
theorem lookup_insert_ne (hd : Distinct free rows) (hk : k' ≠ k) :
    lookup free (put rows i (v, k)) k' = lookup free rows k' := by
  refine lookup_congr (hd.insert hi hnew) hd fun w hw => ⟨?_, ?_⟩
  · rintro ⟨j, hj⟩
    rw [getElem?_put hi] at hj
    split at hj
    · cases hj
      exact absurd rfl hk
    · exact ⟨j, hj⟩
  · rintro ⟨j, hj⟩
    refine ⟨j, ?_⟩
    rw [getElem?_put hi, if_neg]
    · exact hj
    · rintro rfl
      exact hw (hfree _ hj)

end Insert

/-! ## A row that goes out of use -/

section Clear

variable (hrow : rows[i]? = some (w, k'))

omit [DecidableEq ν] [DecidableEq κ] in
include hrow in
theorem lt_length : i < rows.length := (List.getElem?_eq_some_iff.mp hrow).1

omit [DecidableEq ν] [DecidableEq κ] in
include hrow in
theorem Distinct.clear (hd : Distinct free rows) : Distinct free (put rows i (free, k')) := by
  have hle := (lt_length hrow).le
  intro a b va vb ka ha hb hva hvb
  rw [getElem?_put hle] at ha hb
  by_cases hai : a = i
  · rw [if_pos hai] at ha
    cases ha
    exact absurd rfl hva
  · by_cases hbi : b = i
    · rw [if_pos hbi] at hb
      cases hb
      exact absurd rfl hvb
    · rw [if_neg hai] at ha
      rw [if_neg hbi] at hb
      exact hd a b va vb ka ha hb hva hvb

include hrow in
theorem lookup_clear (hd : Distinct free rows) (hw : w ≠ free) :
    lookup free (put rows i (free, k')) k' = none := by
  rw [lookup_eq_none]
  intro j v hj
  rw [getElem?_put (lt_length hrow).le] at hj
  split at hj
  · cases hj
    rfl
  · rename_i hji
    by_contra hv
    exact hji (hd j i v w k' hj hrow hv hw)

include hrow in
theorem lookup_clear_ne (hd : Distinct free rows) (hk : k ≠ k' ∨ w = free) :
    lookup free (put rows i (free, k')) k = lookup free rows k := by
  have hle := (lt_length hrow).le
  refine lookup_congr (hd.clear hrow) hd fun v hv => ⟨?_, ?_⟩
  · rintro ⟨j, hj⟩
    rw [getElem?_put hle] at hj
    split at hj
    · cases hj
      exact absurd rfl hv
    · exact ⟨j, hj⟩
  · rintro ⟨j, hj⟩
    refine ⟨j, ?_⟩
    rw [getElem?_put hle, if_neg]
    · exact hj
    · rintro rfl
      rw [hrow] at hj
      cases hj
      exact hk.elim (fun hc => hc rfl) hv

end Clear

/-! ## Counting -/

/-- The rows with a value are as many as the keys that give it. -/
theorem countP_eq (hd : Distinct free rows) (hv : v ≠ free) :
    rows.countP (fun r => decide (r.1 = v)) = {k | lookup free rows k = some v}.ncard := by
  have hnodup : ((rows.filter fun r => decide (r.1 = v)).map Prod.snd).Nodup := by
    have hpair : rows.Pairwise fun r r' => r.1 = v → r'.1 = v → r.2 ≠ r'.2 := by
      rw [List.pairwise_iff_getElem]
      intro i j hi hj hij h1 h2 heq
      have hri : rows[i]? = some (v, rows[i].2) := by rw [List.getElem?_eq_getElem hi, ← h1]
      have hrj : rows[j]? = some (v, rows[i].2) := by rw [List.getElem?_eq_getElem hj, ← h2, heq]
      have := hd i j v v _ hri hrj hv hv
      omega
    unfold List.Nodup
    rw [List.pairwise_map, List.pairwise_filter]
    exact hpair.imp fun h h1 h2 => h (of_decide_eq_true h1) (of_decide_eq_true h2)
  have hmem : {k | lookup free rows k = some v} =
      ↑((rows.filter fun r => decide (r.1 = v)).map Prod.snd).toFinset := by
    ext k
    simp only [Set.mem_ofPred_eq, List.coe_toFinset, List.mem_map, List.mem_filter,
      decide_eq_true_eq]
    rw [lookup_eq_some hd]
    constructor
    · rintro ⟨_, i, hi⟩
      exact ⟨(v, k), ⟨List.mem_of_getElem? hi, rfl⟩, rfl⟩
    · rintro ⟨⟨w, _⟩, ⟨hr, rfl⟩, rfl⟩
      exact ⟨hv, List.getElem?_of_mem hr⟩
  rw [hmem, Set.ncard_coe_finset, List.toFinset_card_of_nodup hnodup, List.length_map,
    List.countP_eq_length_filter]

end Rows

end ThuKernel
