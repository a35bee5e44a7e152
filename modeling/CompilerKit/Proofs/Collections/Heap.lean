import CompilerKit.Collections.Heap
import Mathlib

/-! # Heaps

A heap keeps its entries. The comparison may put either of two equal entries behind the other; all that counts is
an order that it refines. In this order no entry goes before the one above it, so that none goes before the first.
-/

namespace CompilerKit.Heap

open scoped List

variable {α : Type} {cmp : α → α → Ordering} {h rest : Heap α} {x y : α} {j k : Nat}

theorem swapIfInBounds_perm (h : Heap α) (j k : Nat) : (h.swapIfInBounds j k).toList ~ h.toList := by
  rw [Array.swapIfInBounds_def]
  split
  case isTrue hj =>
    split
    case isTrue hk => exact (Array.swap_perm hj hk).toList
    case isFalse => exact List.Perm.refl _
  case isFalse => exact List.Perm.refl _

theorem siftUp_perm (fuel : Nat) (h : Heap α) (k : Nat) : (siftUp cmp fuel h k).toList ~ h.toList := by
  induction fuel generalizing h k with
  | zero => exact List.Perm.refl _
  | succ fuel ih =>
    rw [siftUp]
    split
    · split
      · exact (ih _ _).trans (swapIfInBounds_perm h _ _)
      · exact List.Perm.refl _
    · exact List.Perm.refl _

theorem siftDown_perm (fuel : Nat) (h : Heap α) (k : Nat) : (siftDown cmp fuel h k).toList ~ h.toList := by
  induction fuel generalizing h k with
  | zero => exact List.Perm.refl _
  | succ fuel ih =>
    rw [siftDown]
    split
    · split
      · exact (ih _ _).trans (swapIfInBounds_perm h _ _)
      · exact List.Perm.refl _
    · exact List.Perm.refl _

theorem insert_perm (h : Heap α) (x : α) : (insert cmp h x).toList ~ x :: h.toList := by
  refine (siftUp_perm _ _ _).trans ?_
  rw [Array.toList_push]
  exact List.perm_append_singleton x h.toList

theorem takeFirst?_eq_none (hnone : takeFirst? cmp h = none) : h.toList = [] := by
  rw [takeFirst?, Option.map_eq_none_iff, Array.getElem?_eq_none_iff, Nat.le_zero] at hnone
  rw [Array.toList_eq_nil_iff]
  exact Array.eq_empty_of_size_eq_zero hnone

theorem takeFirst?_perm (hsome : takeFirst? cmp h = some (x, rest)) : h.toList ~ x :: rest.toList := by
  obtain ⟨y, hy, heq⟩ := Option.map_eq_some_iff.mp hsome
  obtain ⟨rfl, rfl⟩ := Prod.mk.inj heq
  obtain ⟨hpos, rfl⟩ := Array.getElem?_eq_some_iff.mp hy
  have hlast : h.size - 1 < h.size := by omega
  -- the first entry is exchanged with the last one and cut off there
  have hswap : h.swapIfInBounds 0 (h.size - 1) = h.swap 0 (h.size - 1) := by
    rw [Array.swapIfInBounds_def, dif_pos hpos, dif_pos hlast]
  have hcut : (h.swap 0 (h.size - 1)).toList = (h.swap 0 (h.size - 1)).pop.toList ++ [h[0]] := by
    have hne : (h.swap 0 (h.size - 1)).toList ≠ [] := by
      rw [ne_eq, Array.toList_eq_nil_iff, ← Array.size_eq_zero_iff, Array.size_swap]
      omega
    have hgetLast : (h.swap 0 (h.size - 1)).toList.getLast hne = h[0] := by
      rw [List.getLast_eq_getElem, Array.getElem_toList]
      simp
    rw [Array.toList_pop, ← hgetLast, List.dropLast_append_getLast]
  rw [hswap]
  calc h.toList
    _ ~ (h.swap 0 (h.size - 1)).toList := (Array.swap_perm hpos hlast).toList.symm
    _ ~ h[0] :: (h.swap 0 (h.size - 1)).pop.toList := by
      rw [hcut]
      exact List.perm_append_singleton _ _
    _ ~ _ := ((siftDown_perm _ _ _).symm).cons _

theorem foldl_insert_perm (h : Heap α) (l : List α) : (l.foldl (insert cmp) h).toList ~ h.toList ++ l := by
  induction l generalizing h with
  | nil => rw [List.foldl_nil, List.append_nil]
  | cons x l ih => exact (ih _).trans (((insert_perm h x).append_right l).trans List.perm_middle.symm)

/-! ## Order -/

/-- The comparison contradicts the order only between equals. -/
structure Refines (cmp : α → α → Ordering) (le : α → α → Prop) : Prop where
  trans : ∀ {x y z}, le x y → le y z → le x z
  le_of_ne_gt : ∀ {x y}, cmp x y ≠ .gt → le x y
  ge_of_ne_lt : ∀ {x y}, cmp x y ≠ .lt → le y x

variable {le : α → α → Prop}

theorem Refines.refl (hle : Refines cmp le) (x : α) : le x x := by
  by_cases hgt : cmp x x = .gt
  · exact hle.ge_of_ne_lt (by rw [hgt]; nofun)
  · exact hle.le_of_ne_gt hgt

/-- No entry goes before the one above it. -/
def Ordered (le : α → α → Prop) (h : Heap α) : Prop :=
  ∀ k, 0 < k → ∀ x y, h[(k - 1) / 2]? = some x → h[k]? = some y → le x y

/-- The entries at some positions may go before the one above them. But what stands below position `k` does not
go before what stands above it. -/
structure OrderedBut (le : α → α → Prop) (h : Heap α) (k : Nat) (p : Nat → Prop) : Prop where
  pair : ∀ j, 0 < j → ¬p j → ∀ x y, h[(j - 1) / 2]? = some x → h[j]? = some y → le x y
  bridge : 0 < k → ∀ j, 0 < j → (j - 1) / 2 = k → ∀ x y, h[(k - 1) / 2]? = some x → h[j]? = some y → le x y

theorem getElem?_swapIfInBounds (hx : h[j]? = some x) (hy : h[k]? = some y) (i : Nat) :
    (h.swapIfInBounds j k)[i]? = if i = k then some x else if i = j then some y else h[i]? := by
  obtain ⟨hj, rfl⟩ := Array.getElem?_eq_some_iff.mp hx
  obtain ⟨hk, rfl⟩ := Array.getElem?_eq_some_iff.mp hy
  rw [Array.swapIfInBounds_def, dif_pos hj, dif_pos hk, Array.getElem?_swap]
  grind

theorem OrderedBut.up (hle : Refines cmp le) (hh : OrderedBut le h k (· = k)) (hx : h[k]? = some x)
    (hy : h[(k - 1) / 2]? = some y) (hxy : le x y) :
    OrderedBut le (h.swapIfInBounds k ((k - 1) / 2)) ((k - 1) / 2) (· = (k - 1) / 2) where
  pair j hj hne a b ha hb := by
    rw [getElem?_swapIfInBounds hx hy] at ha hb
    rw [if_neg hne] at hb
    by_cases hjk : j = k
    · rw [hjk, if_pos rfl] at ha hb
      rwa [← Option.some.inj ha, ← Option.some.inj hb]
    rw [if_neg hjk] at hb
    by_cases hbeside : (j - 1) / 2 = (k - 1) / 2
    · rw [if_pos hbeside] at ha
      rw [← Option.some.inj ha]
      exact hle.trans hxy (hh.pair j hj hjk y b (hbeside ▸ hy) hb)
    rw [if_neg hbeside] at ha
    by_cases hbelow : (j - 1) / 2 = k
    · rw [if_pos hbelow] at ha
      rw [← Option.some.inj ha]
      exact hh.bridge (by omega) j hj hbelow y b hy hb
    · rw [if_neg hbelow] at ha
      exact hh.pair j hj hjk a b ha hb
  bridge hpos j hj hbeside a b ha hb := by
    rw [getElem?_swapIfInBounds hx hy] at ha hb
    rw [if_neg (by omega), if_neg (by omega)] at ha
    rw [if_neg (by omega)] at hb
    have habove : le a y := hh.pair _ hpos (by omega) a y ha hy
    by_cases hjk : j = k
    · rw [if_pos hjk] at hb
      rwa [← Option.some.inj hb]
    · rw [if_neg hjk] at hb
      exact hle.trans habove (hh.pair j hj hjk y b (hbeside ▸ hy) hb)

theorem siftUp_ordered (hle : Refines cmp le) (fuel : Nat) (hk : k ≤ fuel) (hh : OrderedBut le h k (· = k)) :
    Ordered le (siftUp cmp fuel h k) := by
  induction fuel generalizing h k with
  | zero =>
    intro j hj
    exact hh.pair j hj (by omega)
  | succ fuel ih =>
    rw [siftUp]
    -- The only pair in doubt is that of the position and the one above it.
    have hdone (hpair : ∀ x y, h[k]? = some x → h[(k - 1) / 2]? = some y → le y x) : Ordered le h := by
      intro j hj a b ha hb
      by_cases hjk : j = k
      · subst hjk
        exact hpair b a hb ha
      · exact hh.pair j hj hjk a b ha hb
    split
    · next x y hx hy =>
      split
      · next hlt => exact ih (by omega) (hh.up hle hx hy (hle.le_of_ne_gt (by rw [hlt]; nofun)))
      · next hge =>
        refine hdone fun a b ha hb => ?_
        rw [← Option.some.inj (hx.symm.trans ha), ← Option.some.inj (hy.symm.trans hb)]
        exact hle.ge_of_ne_lt hge
    · next hnone => exact hdone fun a b ha hb => (hnone a b ha hb).elim

theorem child_cases (h : Heap α) (k : Nat) : child cmp h k = 2 * k + 1 ∨ child cmp h k = 2 * k + 2 := by
  unfold child
  split
  · split
    · exact Or.inr rfl
    · exact Or.inl rfl
  · exact Or.inl rfl

/-- The entry at the chosen position does not go after the other one. -/
theorem child_le (hle : Refines cmp le) (hj : 0 < j) (hjk : (j - 1) / 2 = k) (hx : h[child cmp h k]? = some x)
    (hy : h[j]? = some y) : le x y := by
  have hrefl := hle.refl
  have hlt := @hle.le_of_ne_gt
  have hgt := @hle.ge_of_ne_lt
  obtain rfl | rfl : j = 2 * k + 1 ∨ j = 2 * k + 2 := by omega
  all_goals
    unfold child at hx
    grind

theorem OrderedBut.down (hh : OrderedBut le h k fun j => (j - 1) / 2 = k) (hj : 0 < j) (hjk : (j - 1) / 2 = k)
    (hx : h[k]? = some x) (hy : h[j]? = some y) (hyx : le y x)
    (hfirst : ∀ i, 0 < i → (i - 1) / 2 = k → ∀ z, h[i]? = some z → le y z) :
    OrderedBut le (h.swapIfInBounds k j) j fun i => (i - 1) / 2 = j where
  pair i hi hne a b ha hb := by
    rw [getElem?_swapIfInBounds hx hy] at ha hb
    rw [if_neg hne] at ha
    by_cases hij : i = j
    · rw [if_pos hij] at hb
      rw [hij, if_pos hjk] at ha
      rwa [← Option.some.inj ha, ← Option.some.inj hb]
    rw [if_neg hij] at hb
    by_cases hik : i = k
    · rw [if_pos hik] at hb
      rw [hik, if_neg (by omega)] at ha
      rw [← Option.some.inj hb]
      exact hh.bridge (by omega) j hj hjk a y ha hy
    rw [if_neg hik] at hb
    by_cases hbelow : (i - 1) / 2 = k
    · rw [if_pos hbelow] at ha
      rw [← Option.some.inj ha]
      exact hfirst i hi hbelow b hb
    · rw [if_neg hbelow] at ha
      exact hh.pair i hi hbelow a b ha hb
  bridge _ i hi hij a b ha hb := by
    rw [getElem?_swapIfInBounds hx hy] at ha hb
    rw [if_neg (by omega), if_pos hjk] at ha
    rw [if_neg (by omega), if_neg (by omega)] at hb
    rw [← Option.some.inj ha]
    exact hh.pair i hi (by omega) y b (hij ▸ hy) hb

theorem siftDown_ordered (hle : Refines cmp le) (fuel : Nat) (hk : h.size ≤ fuel + k)
    (hh : OrderedBut le h k fun j => (j - 1) / 2 = k) : Ordered le (siftDown cmp fuel h k) := by
  -- The only pairs in doubt are those of the position and the ones below it.
  have hdone {h : Heap α} {k : Nat} (hh : OrderedBut le h k fun j => (j - 1) / 2 = k)
      (hpair : ∀ j, 0 < j → (j - 1) / 2 = k → ∀ x y, h[k]? = some x → h[j]? = some y → le x y) :
      Ordered le h := by
    intro j hj a b ha hb
    by_cases hjk : (j - 1) / 2 = k
    · exact hpair j hj hjk a b (hjk ▸ ha) hb
    · exact hh.pair j hj hjk a b ha hb
  induction fuel generalizing h k with
  | zero =>
    rw [siftDown]
    refine hdone hh fun j hj hjk x y hx hy => ?_
    obtain ⟨hlt, -⟩ := Array.getElem?_eq_some_iff.mp hx
    omega
  | succ fuel ih =>
    rw [siftDown]
    have hchild : child cmp h k = 2 * k + 1 ∨ child cmp h k = 2 * k + 2 := child_cases h k
    split
    · next x y hx hy =>
      have hfirst (j : Nat) (hj : 0 < j) (hjk : (j - 1) / 2 = k) (z : α) (hz : h[j]? = some z) : le y z :=
        child_le hle hj hjk hy hz
      split
      · next hgt =>
        have hyx : le y x := hle.ge_of_ne_lt (by rw [hgt]; nofun)
        refine ih ?_ (hh.down (by omega) (by omega) hx hy hyx hfirst)
        rw [Array.size_swapIfInBounds]
        omega
      · next hle' =>
        refine hdone hh fun j hj hjk a b ha hb => ?_
        rw [← Option.some.inj (hx.symm.trans ha)]
        exact hle.trans (hle.le_of_ne_gt hle') (hfirst j hj hjk b hb)
    · next hnone =>
      refine hdone hh fun j hj hjk a b ha hb => ?_
      have hsome : ∃ y, h[child cmp h k]? = some y := by
        obtain ⟨hlt, -⟩ := Array.getElem?_eq_some_iff.mp hb
        unfold child
        grind
      obtain ⟨y, hy⟩ := hsome
      exact (hnone a y ha hy).elim

theorem insert_ordered (hle : Refines cmp le) (hh : Ordered le h) (x : α) : Ordered le (insert cmp h x) := by
  refine siftUp_ordered hle h.size le_rfl ⟨fun j hj hne a b ha hb => ?_, fun _ j hj hjk a b ha hb => ?_⟩
  · rw [Array.getElem?_push] at ha hb
    exact hh j hj a b (by grind) (by grind)
  · obtain ⟨hlt, -⟩ := Array.getElem?_eq_some_iff.mp hb
    rw [Array.size_push] at hlt
    omega

theorem foldl_insert_ordered (hle : Refines cmp le) (hh : Ordered le h) (l : List α) :
    Ordered le (l.foldl (insert cmp) h) :=
  List.foldlRecOn l _ (motive := Ordered le) hh fun _ hh x _ => insert_ordered hle hh x

theorem Ordered.first_le (hle : Refines cmp le) (hh : Ordered le h) (hx : h[0]? = some x)
    (hy : h[k]? = some y) : le x y := by
  induction k using Nat.strong_induction_on generalizing y with
  | _ k ih =>
    rcases Nat.eq_zero_or_pos k with rfl | hk
    · rw [Option.some.inj (hx.symm.trans hy)]
      exact hle.refl y
    · obtain ⟨hlt, -⟩ := Array.getElem?_eq_some_iff.mp hy
      have habove : h[(k - 1) / 2]? = some (h[(k - 1) / 2]) := Array.getElem?_eq_getElem (by omega)
      exact hle.trans (ih _ (by omega) habove) (hh k hk _ _ habove hy)

/-- What is taken goes before all that is left, in the order. -/
theorem takeFirst?_ordered (hle : Refines cmp le) (hh : Ordered le h)
    (hsome : takeFirst? cmp h = some (x, rest)) : Ordered le rest ∧ ∀ y ∈ h.toList, le x y := by
  obtain ⟨a, ha, heq⟩ := Option.map_eq_some_iff.mp hsome
  obtain ⟨rfl, rfl⟩ := Prod.mk.inj heq
  constructor
  · obtain ⟨hpos, -⟩ := Array.getElem?_eq_some_iff.mp ha
    have hlast : h[h.size - 1]? = some h[h.size - 1] := Array.getElem?_eq_getElem (by omega)
    have hget := getElem?_swapIfInBounds ha hlast
    refine siftDown_ordered hle _ (by omega)
      ⟨fun j hj hne x y hx hy => ?_, fun hk => absurd hk (Nat.lt_irrefl 0)⟩
    simp only [Array.getElem?_pop, hget, Array.size_swapIfInBounds] at hx hy
    exact hh j hj x y (by grind) (by grind)
  · intro y hy
    obtain ⟨k, hk⟩ := List.getElem?_of_mem hy
    exact hh.first_le hle ha (by rwa [Array.getElem?_toList] at hk)

end CompilerKit.Heap
