import CompilerKit.Collections.Ordered
import Mathlib

/-! # Maps in the order of insertion: what a lookup finds -/
namespace CompilerKit.OrderedMap

variable {κ ν : Type} [DecidableEq κ] (m : OrderedMap κ ν)

theorem lookup_map_put (k j : κ) (v : ν) (l : List (κ × ν)) :
    (l.map fun e => if e.1 = k then (k, v) else e).lookup j =
      if j = k then (l.lookup k).map fun _ => v else l.lookup j := by
  induction l with
  | nil => simp
  | cons e l ih =>
    rw [List.map_cons, List.lookup_cons, ih, List.lookup_cons, List.lookup_cons]
    grind

theorem get?_put (k j : κ) (v : ν) : (m.put k v).get? j = if j = k then some v else m.get? j := by
  by_cases h : m.contains k
  · obtain ⟨w, hw⟩ := Option.isSome_iff_exists.1 h
    rw [get?] at hw
    simp [get?, put, h, lookup_map_put, hw]
  · have absent : m.entries.lookup k = none := Option.not_isSome_iff_eq_none.1 h
    rw [put, if_neg h, get?, List.lookup_append]
    by_cases hj : j = k
    · simp [hj, absent]
    · simp [hj, get?, List.lookup_cons, beq_eq_false_iff_ne.2 hj]

theorem get?_of_isEmpty (h : m.isEmpty) (k : κ) : m.get? k = none := by
  simp [get?, List.isEmpty_iff.1 h]

theorem isEmpty_put (k : κ) (v : ν) : (m.put k v).isEmpty = false := by
  cases h : (m.put k v).isEmpty with
  | false => rfl
  | true => simpa [get?_put] using get?_of_isEmpty _ h k

theorem entries_put_of_notMem {k : κ} (h : k ∉ m.entries.map Prod.fst) (v : ν) :
    (m.put k v).entries = m.entries ++ [(k, v)] := by
  have absent : m.get? k = none := by
    rw [get?, List.lookup_eq_none_iff]
    intro e he
    simp only [bne_iff_ne, ne_eq]
    rintro rfl
    exact h (List.mem_map_of_mem he)
  simp [put, contains, absent]

theorem entries_ofList {l : List (κ × ν)} (h : (l.map Prod.fst).Nodup) : (ofList l).entries = l := by
  have grow : ∀ (l : List (κ × ν)) (m : OrderedMap κ ν), ((m.entries ++ l).map Prod.fst).Nodup →
      (l.foldl (fun m e => m.put e.1 e.2) m).entries = m.entries ++ l := by
    intro l
    induction l with
    | nil => intro m _; simp
    | cons e l ih =>
      intro m h
      have fresh : e.1 ∉ m.entries.map Prod.fst := by
        rw [List.map_append, List.nodup_append] at h
        intro he
        exact h.2.2 _ he _ (by simp) rfl
      have step := entries_put_of_notMem m fresh e.2
      rw [List.foldl_cons, ih, step, List.append_assoc, List.singleton_append]
      rw [step, List.append_assoc]
      exact h
  simpa [ofList] using grow l {} (by simpa using h)

theorem mem_of_mem_put {k : κ} {v : ν} {e : κ × ν} (h : e ∈ (m.put k v).entries) :
    e ∈ m.entries ∨ e = (k, v) := by
  rw [put] at h
  dsimp only at h
  split at h
  · obtain ⟨d, hd, rfl⟩ := List.mem_map.1 h
    split
    · exact .inr rfl
    · exact .inl hd
  · simpa using h

theorem mem_of_mem_ofList {l : List (κ × ν)} {e : κ × ν} (h : e ∈ (ofList l).entries) : e ∈ l := by
  have grow : ∀ (l : List (κ × ν)) (m : OrderedMap κ ν),
      e ∈ (l.foldl (fun m e => m.put e.1 e.2) m).entries → e ∈ m.entries ∨ e ∈ l := by
    intro l
    induction l with
    | nil => exact fun m h => .inl h
    | cons d l ih =>
      intro m h
      obtain h | h := ih _ h
      · exact (mem_of_mem_put m h).imp id fun h => by simp [h]
      · exact .inr (by simp [h])
  simpa using grow l {} h

end CompilerKit.OrderedMap
