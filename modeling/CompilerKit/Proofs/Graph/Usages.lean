import CompilerKit.Graph.Usages
import Mathlib

/-! # Usage lists are packed

The places of a usage list hold its entries without a gap, whatever is added and taken out.
-/
namespace CompilerKit.Usages

open scoped List

/-- The places hold the entries of a list in order, and nothing behind them. -/
structure Lists (us : Usages) (l : List NodeId) : Prop where
  at?_eq : ∀ k, us.at? k = l[k]?
  moreCount_eq : us.moreCount = l.length - 2

variable {us : Usages} {l : List NodeId} {u v : NodeId} {k : Nat}

theorem lists_empty : ({} : Usages).Lists [] := by
  constructor
  · intro k
    match k with
    | 0 | 1 | k + 2 => simp [at?]
  · rfl

theorem map_getElem?_range (l : List NodeId) (n : Nat) (h : l.length ≤ n) :
    (List.range n).map (l[·]?) = l.map some ++ List.replicate (n - l.length) none := by
  apply List.ext_getElem?
  intro j
  rw [List.getElem?_map, List.getElem?_append, List.length_map]
  rcases Nat.lt_or_ge j l.length with hj | hj
  · have hn : j < n := by omega
    simp [hj, hn]
  · rcases Nat.lt_or_ge j n with hn | hn
    · have hr : j - l.length < n - l.length := by omega
      simp [hj.not_gt, hn, hr]
    · have hr : n - l.length ≤ j - l.length := by omega
      simp [hj.not_gt, hn, hr]

theorem at?_put (us : Usages) (j k : Nat) (user? : Option NodeId) :
    (us.put j user?).at? k = if k = j ∧ j < us.more.size + 2 then user? else us.at? k := by
  match j, k with
  | 0, 0 | 0, 1 | 0, k + 2 | 1, 0 | 1, 1 | 1, k + 2 | j + 2, 0 | j + 2, 1 => simp [put, at?]
  | j + 2, k + 2 =>
    simp only [put, at?, Array.getElem?_setIfInBounds]
    by_cases hj : j = k
    · subst hj
      by_cases hs : j < us.more.size <;> simp [hs]
    · simp [hj, Ne.symm hj]

theorem size_put (us : Usages) (j : Nat) (user? : Option NodeId) :
    (us.put j user?).more.size = us.more.size := by
  match j with
  | 0 | 1 => rfl
  | j + 2 => simp [put]

theorem moreCount_put (us : Usages) (j : Nat) (user? : Option NodeId) :
    (us.put j user?).moreCount = us.moreCount := by
  match j with
  | 0 | 1 | j + 2 => rfl

namespace Lists

theorem count_eq (h : us.Lists l) : us.count = l.length := by
  have first : us.first? = l[0]? := h.at?_eq 0
  have second : us.second? = l[1]? := h.at?_eq 1
  have more := h.moreCount_eq
  match l with
  | [] => simp [count, first]
  | [a] => simp [count, first, second]
  | a :: b :: l =>
    simp [count, first, second, inlineCount, more]
    omega

theorem toList_eq (h : us.Lists l) : us.toList = l := by
  have places : us.at? = (l[·]?) := funext h.at?_eq
  have room : l.length ≤ inlineCount + us.moreCount := by
    rw [h.moreCount_eq, inlineCount]
    omega
  rw [toList, places, map_getElem?_range l _ room, List.takeWhile_append_of_pos (by simp)]
  simp [List.filterMap_map]

theorem lt_size (h : us.Lists l) (hk : k < l.length) : k < us.more.size + 2 := by
  match k with
  | 0 | 1 => omega
  | k + 2 =>
    have entry : us.more[k]?.join = some l[k + 2] := by
      rw [← List.getElem?_eq_getElem hk]
      exact h.at?_eq (k + 2)
    obtain ⟨hsize, -⟩ := Array.getElem?_eq_some_iff.1 (Option.join_eq_some_iff.1 entry)
    omega

theorem getElem?_grown (us : Usages) (k : Nat) : us.grown[k]?.join = us.more[k]?.join := by
  unfold grown
  split
  · next h =>
    have outside : us.more[k]? = none := Array.getElem?_eq_none (by omega)
    by_cases hk : k < 4 <;> simp [outside, hk]
  · split
    · rw [Array.getElem?_append]
      split
      · rfl
      · next h =>
        have outside : us.more[k]? = none := Array.getElem?_eq_none (by omega)
        by_cases hk : k - us.more.size < us.more.size + 1 <;> simp [outside, hk]
    · rfl

theorem lt_size_grown (h : us.moreCount ≤ us.more.size) : us.moreCount < us.grown.size := by
  unfold grown
  split
  · simp
    omega
  · split
    · simp
      omega
    · omega

theorem add (h : us.Lists l) (u : NodeId) : (us.add u).Lists (l ++ [u]) := by
  have first : us.first? = l[0]? := h.at?_eq 0
  have second : us.second? = l[1]? := h.at?_eq 1
  have more : ∀ k, us.more[k]?.join = l[k + 2]? := fun k => h.at?_eq (k + 2)
  have total := h.moreCount_eq
  match l with
  | [] =>
    constructor
    · intro k
      match k with
      | 0 | 1 | k + 2 => simp_all [Usages.add, at?]
    · simp_all [Usages.add]
  | [a] =>
    constructor
    · intro k
      match k with
      | 0 | 1 | k + 2 => simp_all [Usages.add, at?]
    · simp_all [Usages.add]
  | a :: b :: l =>
    have full : us.moreCount = l.length := by simpa using total
    have room : us.moreCount < us.grown.size := by
      apply lt_size_grown
      rw [full]
      rcases Nat.eq_zero_or_pos l.length with h0 | h0
      · omega
      · have := h.lt_size (k := l.length + 1) (by simp)
        omega
    constructor
    · intro k
      match k with
      | 0 | 1 => simp_all [Usages.add, at?]
      | k + 2 =>
        have entry : ((us.grown.setIfInBounds l.length (some u))[k]?).join = (l ++ [u])[k]? := by
          rw [Array.getElem?_setIfInBounds, List.getElem?_append]
          rcases Nat.lt_trichotomy k l.length with hk | hk | hk
          · simp [hk, hk.ne', getElem?_grown, more]
          · simp [hk, full ▸ room]
          · have hk' : ¬ k - l.length < 1 := by omega
            simp [hk.not_gt, hk.ne, getElem?_grown, more, hk']
        simpa [Usages.add, first, second, at?, full] using entry
    · simp_all [Usages.add]

theorem moveLastTo (h : us.Lists (l ++ [u])) (hk : k ≤ l.length) :
    (us.moveLastTo k).Lists (l.set k u) := by
  have count : us.count - 1 = l.length := by simp [h.count_eq]
  have last : us.at? l.length = some u := by simp [h.at?_eq]
  have places : ∀ j, ((us.put k (some u)).put l.length none).at? j = (l.set k u)[j]? := by
    intro j
    have hlast : l.length < us.more.size + 2 := h.lt_size (by simp)
    have hput : k < us.more.size + 2 := by omega
    rw [at?_put, at?_put, size_put, h.at?_eq, List.getElem?_set, List.getElem?_append]
    rcases Nat.lt_trichotomy j l.length with hj | hj | hj
    · by_cases hjk : j = k
      · simp [hjk, hput, hjk ▸ hj, (hjk ▸ hj).ne]
      · simp [hjk, Ne.symm hjk, hj, hj.ne]
    · simp [hj, hlast]
      omega
    · have hj' : j - l.length ≠ 0 := by omega
      have hjk : j ≠ k := by omega
      simp [hj.ne', hjk, Ne.symm hjk, hj.not_gt, hj']
  constructor
  · intro j
    rw [← places j]
    simp only [Usages.moveLastTo, count, last]
    split
    · rfl
    · match j with
      | 0 | 1 | j + 2 => rfl
  · have total := h.moreCount_eq
    simp only [Usages.moveLastTo, count, last, inlineCount, List.length_set]
    simp only [List.length_append, List.length_singleton] at total
    split
    · rw [moreCount_put, moreCount_put]
      omega
    · simp only
      omega

theorem position?_some (h : us.Lists l) (hk : us.position? u = some k) : l[k]? = some u := by
  rw [← h.at?_eq]
  unfold position? at hk
  split at hk
  · next h0 =>
    cases hk
    exact h0
  · split at hk
    · next h1 =>
      cases hk
      exact h1
    · obtain ⟨j, hj, rfl⟩ := Option.map_eq_some_iff.1 hk
      simpa [at?, inlineCount] using List.find?_some hj

theorem notMem_of_position?_none (h : us.Lists l) (hnone : us.position? u = none) : u ∉ l := by
  intro hu
  obtain ⟨k, hk⟩ := List.mem_iff_getElem?.1 hu
  have entry : us.at? k = some u := (h.at?_eq k).trans hk
  unfold position? at hnone
  split at hnone
  · cases hnone
  · split at hnone
    · cases hnone
    · next h0 h1 =>
      rw [Option.map_eq_none_iff, List.find?_eq_none] at hnone
      match k with
      | 0 => exact h0 entry
      | 1 => exact h1 entry
      | k + 2 =>
        have hlt : k < us.moreCount := by
          have := (List.getElem?_eq_some_iff.1 hk).1
          rw [h.moreCount_eq]
          omega
        exact hnone k (by simpa using hlt) (by simpa [at?] using entry)

theorem exists_moveLastTo (h : us.Lists l) (hk : l[k]? = some v) :
    ∃ rest, (us.moveLastTo k).Lists rest ∧ rest.Perm (l.erase v) := by
  rcases List.eq_nil_or_concat l with rfl | ⟨init, last, rfl⟩
  · cases hk
  · rw [List.concat_eq_append] at h hk ⊢
    have bound : k ≤ init.length := by
      have := (List.getElem?_eq_some_iff.1 hk).1
      simp at this
      omega
    have kept : (v :: init.set k last).Perm (init ++ [last]) := by
      rcases bound.lt_or_eq with hlt | rfl
      · have hv : init[k] = v := by simpa [List.getElem?_append, hlt] using hk
        calc v :: init.set k last
          _ ~ v :: last :: init.eraseIdx k := (List.set_perm_cons_eraseIdx hlt last).cons v
          _ ~ last :: v :: init.eraseIdx k := List.Perm.swap ..
          _ ~ last :: init := (hv ▸ List.getElem_cons_eraseIdx_perm hlt).cons last
          _ ~ init ++ [last] := (List.perm_append_singleton last init).symm
      · have hv : last = v := by simpa using hk
        rw [hv, List.set_eq_of_length_le le_rfl]
        exact (List.perm_append_singleton v init).symm
    exact ⟨init.set k last, h.moveLastTo bound, (List.cons_perm_iff_perm_erase.1 kept).2⟩

theorem exists_remove (h : us.Lists l) (u : NodeId) :
    ∃ rest, (us.remove u).Lists rest ∧ rest.Perm (l.erase u) := by
  unfold Usages.remove
  cases hk : us.position? u with
  | some k => exact h.exists_moveLastTo (h.position?_some hk)
  | none => exact ⟨l, h, by rw [List.erase_of_not_mem (h.notMem_of_position?_none hk)]⟩

end Lists

/-- A list without gaps. -/
def Packed (us : Usages) : Prop := us.Lists us.toList

theorem Lists.packed (h : us.Lists l) : us.Packed := by
  rw [Packed, h.toList_eq]
  exact h

theorem packed_empty : ({} : Usages).Packed := lists_empty.packed

namespace Packed

variable (h : us.Packed)
include h

theorem count_eq : us.count = us.toList.length := Lists.count_eq h

theorem at?_eq (k : Nat) : us.at? k = us.toList[k]? := Lists.at?_eq h k

theorem add (u : NodeId) : (us.add u).Packed ∧ (us.add u).toList = us.toList ++ [u] :=
  have added := Lists.add h u
  ⟨added.packed, added.toList_eq⟩

theorem remove (u : NodeId) :
    (us.remove u).Packed ∧ (us.remove u).toList.Perm (us.toList.erase u) := by
  obtain ⟨rest, hrest, perm⟩ := Lists.exists_remove h u
  exact ⟨hrest.packed, hrest.toList_eq ▸ perm⟩

theorem moveLastTo (hk : us.at? k = some u) :
    (us.moveLastTo k).Packed ∧ (us.moveLastTo k).toList.Perm (us.toList.erase u) := by
  obtain ⟨rest, hrest, perm⟩ := Lists.exists_moveLastTo h ((h.at?_eq k).symm.trans hk)
  exact ⟨hrest.packed, hrest.toList_eq ▸ perm⟩

end Packed

end CompilerKit.Usages
