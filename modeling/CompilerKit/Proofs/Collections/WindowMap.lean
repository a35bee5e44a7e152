import CompilerKit.Collections.WindowMap
import CompilerKit.Proofs.Result

/-! # Maps on a window of numbers

The slot of a key is its distance from the start of the window, modulo 2 ^ 32. A window has fewer than
2 ^ 31 slots, so that no two keys share one, and when it grows on either side every key keeps its value.
-/

namespace CompilerKit.WindowMap

variable {α : Type} {room : Nat} {m n : WindowMap α} {low key k : BitVec 32} {slots : Array (Option α)}
  {v : Option α}

theorem toInt_cases (x : BitVec 32) :
    x.toInt = x.toNat ∧ x.toNat < 2 ^ 31 ∨ x.toInt = x.toNat - 2 ^ 32 ∧ 2 ^ 31 ≤ x.toNat := by
  rw [BitVec.toInt_eq_toNat_cond]
  split
  case isTrue h => exact .inl ⟨rfl, by omega⟩
  case isFalse h => exact .inr ⟨rfl, by omega⟩

theorem distance_inj : (k - low).toNat = (key - low).toNat ↔ k = key := by
  rw [← BitVec.toNat_eq, BitVec.sub_left_inj]

theorem distance_start (key : BitVec 32) : (key - (key - 2)).toNat = 2 := by
  rw [sub_sub_cancel]
  rfl

theorem get?_eq (hsize : slots.size ≤ 2 ^ 31) :
    ({ low, slots? := some slots } : WindowMap α).get? k = slots[(k - low).toNat]?.join := by
  simp only [get?, Option.bind_some]
  obtain ⟨hint, -⟩ | ⟨hint, hfar⟩ := toInt_cases (k - low)
  · rw [hint, if_neg (by omega), Int.toNat_natCast]
  · have hlt := (k - low).isLt
    rw [hint, if_pos (by omega), Array.getElem?_eq_none (by omega)]
    rfl

theorem join_getElem?_empty (size i : Nat) : (Array.replicate size (none : Option α))[i]?.join = none := by
  rw [Array.getElem?_replicate]
  split <;> rfl

theorem getElem?_append_empty (size i : Nat) :
    (slots ++ Array.replicate size none)[i]?.join = slots[i]?.join := by
  rw [Array.getElem?_append]
  split
  case isTrue => rfl
  case isFalse h => rw [Array.getElem?_eq_none (Nat.le_of_not_lt h), join_getElem?_empty]; rfl

/-- A window that starts earlier: the distances grow by that of the two starts. -/
theorem getElem?_empty_append {start : BitVec 32} (hsize : (low - start).toNat + slots.size < 2 ^ 32) :
    (Array.replicate (low - start).toNat none ++ slots)[(k - start).toNat]?.join = slots[(k - low).toNat]?.join := by
  have hdistance : (k - start).toNat = ((low - start).toNat + (k - low).toNat) % 2 ^ 32 := by
    rw [← BitVec.toNat_add]
    congr 1
    ring
  have hlt := (k - low).isLt
  rw [Array.getElem?_append, Array.size_replicate]
  split
  case isTrue h =>
    have hfar : slots.size ≤ (k - low).toNat := by omega
    rw [Array.getElem?_eq_none hfar, join_getElem?_empty]
    rfl
  case isFalse h =>
    have hsame : (k - start).toNat - (low - start).toNat = (k - low).toNat := by omega
    rw [hsame]

theorem join_getElem?_set {i j : Nat} (hj : j < slots.size) :
    (slots.setIfInBounds j v)[i]?.join = if i = j then v else slots[i]?.join := by
  rw [Array.getElem?_setIfInBounds]
  split
  case isTrue h => rw [if_pos h.symm]; rfl
  case isFalse h => rw [if_neg (Ne.symm h)]

/-- Fewer than 2 ^ 31 slots, and before there are any the window starts at zero. -/
structure Sound (m : WindowMap α) : Prop where
  start : m.slots? = none → m.low = 0
  small : ∀ slots, m.slots? = some slots → slots.size < 2 ^ 31

theorem sound_empty : Sound ({} : WindowMap α) where
  start _ := rfl
  small slots h := by cases h

theorem sound_between {high : BitVec 32} (h : between room low high = .ok m) :
    Sound m ∧ ∀ k, m.get? k = none := by
  obtain ⟨size, hsize, hm⟩ := Result.bind_eq_ok.1 h
  obtain ⟨-, -, rfl⟩ := storeSize_eq_ok.1 hsize
  cases hm
  have hlt : (high - low + 1).toInt.toNat < 2 ^ 31 := by
    have := (high - low + 1).toInt_lt
    omega
  constructor
  · constructor
    · rintro ⟨⟩
    · rintro slots ⟨⟩
      simpa using hlt
  · intro k
    rw [get?_eq (by simpa using hlt.le), join_getElem?_empty]

/-- The map after a put: the key has its value, and all others theirs. -/
def Puts (m : WindowMap α) (key : BitVec 32) (v : Option α) (n : WindowMap α) : Prop :=
  Sound n ∧ ∀ k, n.get? k = if k = key then v else m.get? k

theorem puts_slots (hget : ∀ k, m.get? k = slots[(k - low).toNat]?.join) (hsize : slots.size < 2 ^ 31)
    (hkey : (key - low).toNat < slots.size) :
    Puts m key v { low, slots? := some (slots.setIfInBounds (key - low).toNat v) } := by
  constructor
  · constructor
    · rintro ⟨⟩
    · rintro slots ⟨⟩
      simpa using hsize
  · intro k
    rw [get?_eq (by simpa using hsize.le), join_getElem?_set hkey, hget]
    simp only [distance_inj]

def growth? (m : WindowMap α) (key : BitVec 32) : Option Nat :=
  match m.slots? with
  | none => some 5
  | some slots =>
    if (key - m.low).toInt < 0 then some (slots.size + (m.low - key).toNat + 2)
    else if slots.size ≤ (key - m.low).toInt then some ((key - m.low).toNat + 3)
    else none

/-- The window grows as far as it has to, unless it would have too many slots. -/
def Grows (room : Nat) (m : WindowMap α) (key : BitVec 32) (v : Option α) (need : Nat)
    (r : Result (WindowMap α)) : Prop :=
  (∃ n, r = .ok n ∧ Puts m key v n) ∨ (room < need ∨ 2 ^ 31 ≤ need) ∧ ∃ fault, r = .error fault

theorem grows_growForward (hsize : slots.size < 2 ^ 31) (hkey : slots.size ≤ (key - low).toInt) :
    Grows room { low, slots? := some slots } key v ((key - low).toNat + 3)
      (growForward room low slots key v) := by
  have hnear : (key - low).toNat < 2 ^ 31 ∧ slots.size ≤ (key - low).toNat := by
    have := toInt_cases (key - low)
    omega
  have hsum : (key - low + 3).toNat = (key - low).toNat + 3 :=
    BitVec.toNat_add_of_lt (show (key - low).toNat + 3 < 2 ^ 32 by omega)
  have hint := toInt_cases (key - low + 3)
  by_cases hfits : (key - low).toNat + 3 ≤ room ∧ (key - low).toNat + 3 < 2 ^ 31
  · have hstore : storeSize room (key - low + 3).toInt = .ok ((key - low).toNat + 3) :=
      storeSize_eq_ok.2 (by omega)
    have hgrown : (slots ++ Array.replicate ((key - low).toNat + 3 - slots.size) none).size =
        (key - low).toNat + 3 := by
      rw [Array.size_append, Array.size_replicate]
      omega
    refine .inl ⟨_, Result.bind_eq_ok.2 ⟨_, hstore, rfl⟩, puts_slots ?_ (by omega) (by omega)⟩
    intro k
    rw [getElem?_append_empty]
    exact get?_eq hsize.le
  · obtain ⟨fault, hfault⟩ : ∃ fault, storeSize room (key - low + 3).toInt = .error fault :=
      exists_storeSize_error (by omega)
    refine .inr ⟨by omega, fault, ?_⟩
    rw [growForward, hfault]
    rfl

theorem grows_growBackward (hsize : slots.size < 2 ^ 31) (hkey : (key - low).toInt < 0) :
    Grows room { low, slots? := some slots } key v (slots.size + (low - key).toNat + 2)
      (growBackward room low slots key v) := by
  have hfar : 0 < (low - key).toNat ∧ (low - key).toNat ≤ 2 ^ 31 := by
    have := toInt_cases (key - low)
    rw [← neg_sub key low, BitVec.toNat_neg]
    omega
  have hshift : (low - (key - 2)).toNat = (low - key).toNat + 2 := by
    rw [← sub_add]
    exact BitVec.toNat_add_of_lt (show (low - key).toNat + 2 < 2 ^ 32 by omega)
  have hstart := distance_start key
  have hsum : (low - (key - 2) + BitVec.ofNat 32 slots.size).toNat =
      (slots.size + (low - key).toNat + 2) % 2 ^ 32 := by
    rw [BitVec.toNat_add, hshift, BitVec.toNat_ofNat]
    omega
  have hint := toInt_cases (low - (key - 2) + BitVec.ofNat 32 slots.size)
  have hshiftInt := toInt_cases (low - (key - 2))
  rw [growBackward]
  by_cases hfits : slots.size + (low - key).toNat + 2 ≤ room ∧ slots.size + (low - key).toNat + 2 < 2 ^ 31
  · have hstore : storeSize room (low - (key - 2) + BitVec.ofNat 32 slots.size).toInt =
        .ok (slots.size + (low - key).toNat + 2) := storeSize_eq_ok.2 (by omega)
    have hnew : slots.size + (low - key).toNat + 2 - slots.size = (low - (key - 2)).toNat := by omega
    have hgrown : (Array.replicate (low - (key - 2)).toNat none ++ slots).size =
        slots.size + (low - key).toNat + 2 := by
      rw [Array.size_append, Array.size_replicate]
      omega
    refine .inl ⟨_, Result.bind_eq_ok.2 ⟨_, hstore, (if_neg (by omega)).trans rfl⟩, ?_⟩
    rw [hnew, ← hstart]
    refine puts_slots ?_ (by omega) (by omega)
    intro k
    rw [getElem?_empty_append (by omega)]
    exact get?_eq hsize.le
  · refine .inr ⟨by omega, ?_⟩
    cases hstore : storeSize room (low - (key - 2) + BitVec.ofNat 32 slots.size).toInt with
    | error fault => exact ⟨fault, rfl⟩
    | ok size =>
      have hsize := storeSize_eq_ok.1 hstore
      exact ⟨.outOfRange, if_pos (by omega)⟩

theorem get?_of_slots?_eq_none (h : m.slots? = none) (k : BitVec 32) : m.get? k = none := by
  rw [get?, h]
  exact ite_self _

theorem grows_put_first (key : BitVec 32) (v : Option α) :
    Grows room {} key v 5 (({} : WindowMap α).put room key v) := by
  cases hstore : storeSize room 5 with
  | error fault =>
    refine .inr ⟨?_, fault, ?_⟩
    · by_contra hroom
      rw [storeSize_of_le (by omega) (by omega)] at hstore
      cases hstore
    · rw [put]
      dsimp only
      rw [hstore]
      rfl
  | ok size =>
    obtain ⟨-, -, rfl⟩ := storeSize_eq_ok.1 hstore
    refine .inl ⟨_, Result.bind_eq_ok.2 ⟨_, hstore, rfl⟩, ?_⟩
    change Puts _ _ _ { low := key - 0 - 2, slots? := some ((Array.replicate 5 none).setIfInBounds 2 v) }
    rw [sub_zero, ← distance_start key]
    refine puts_slots ?_ (by simp) (by rw [distance_start]; simp)
    intro k
    rw [join_getElem?_empty, get?_of_slots?_eq_none rfl]

theorem put_cases (hm : Sound m) (key : BitVec 32) (v : Option α) :
    (∃ n, m.put room key v = .ok n ∧ Puts m key v n) ∨
      ∃ need, m.growth? key = some need ∧ (room < need ∨ 2 ^ 31 ≤ need) ∧
        ∃ fault, m.put room key v = .error fault := by
  obtain ⟨low, _ | slots⟩ := m
  · obtain rfl := hm.start rfl
    exact (grows_put_first key v).imp_right fun h => ⟨5, rfl, h⟩
  · have hsize := hm.small slots rfl
    rw [put, growth?]
    dsimp only
    split
    case isTrue hneg =>
      exact (grows_growBackward hsize hneg).imp_right fun h => ⟨_, rfl, h⟩
    case isFalse hneg =>
      split
      case isTrue hfar =>
        exact (grows_growForward hsize hfar).imp_right fun h => ⟨_, rfl, h⟩
      case isFalse hfar =>
        have hint := toInt_cases (key - low)
        have hnat : (key - low).toInt.toNat = (key - low).toNat := by omega
        refine .inl ⟨_, rfl, ?_⟩
        rw [hnat]
        exact puts_slots (fun k => get?_eq hsize.le) hsize (by omega)

def putAll (room : Nat) (m : WindowMap α) (puts : List (BitVec 32 × Option α)) : Result (WindowMap α) :=
  puts.foldlM (fun m p => m.put room p.1 p.2) m

def lastPut (puts : List (BitVec 32 × Option α)) (k : BitVec 32) : Option α := (puts.reverse.lookup k).join

/-- One of the puts needs a window of more slots than there is room for, or of 2 ^ 31 and more. -/
def Exceeds (room : Nat) (m : WindowMap α) (puts : List (BitVec 32 × Option α)) : Prop :=
  ∃ done p rest n need, puts = done ++ p :: rest ∧ putAll room m done = .ok n ∧
    n.growth? p.1 = some need ∧ (room < need ∨ 2 ^ 31 ≤ need)

theorem lastPut_concat (puts : List (BitVec 32 × Option α)) (p : BitVec 32 × Option α) (k : BitVec 32) :
    lastPut (puts ++ [p]) k = if k = p.1 then p.2 else lastPut puts k := by
  rw [lastPut, List.reverse_append, List.reverse_singleton, List.singleton_append, List.lookup_cons]
  split
  case h_1 h => rw [if_pos (eq_of_beq h)]; rfl
  case h_2 h => rw [if_neg (ne_of_beq_false h)]; rfl

theorem putAll_concat (m : WindowMap α) (puts : List (BitVec 32 × Option α)) (p : BitVec 32 × Option α) :
    putAll room m (puts ++ [p]) = putAll room m puts >>= fun n => n.put room p.1 p.2 := by
  rw [putAll, List.foldlM_append]
  congr 1
  funext n
  exact bind_pure _

theorem putAll_cases (room : Nat) (hm : Sound m) (hempty : ∀ k, m.get? k = none)
    (puts : List (BitVec 32 × Option α)) :
    (∃ n, putAll room m puts = .ok n ∧ Sound n ∧ ∀ k, n.get? k = lastPut puts k) ∨
      Exceeds room m puts ∧ ∃ fault, putAll room m puts = .error fault := by
  induction puts using List.reverseRecOn with
  | nil => exact .inl ⟨m, rfl, hm, hempty⟩
  | append_singleton puts p ih =>
    rw [putAll_concat]
    obtain ⟨n, hn, hsound, hget⟩ | ⟨⟨done, q, rest, n, need, rfl, hdone, hneed⟩, fault, hfault⟩ := ih
    · rw [hn]
      obtain ⟨n', hput, hsound', hget'⟩ | ⟨need, hneed, hroom, hfault⟩ := put_cases hsound p.1 p.2
      · refine .inl ⟨n', hput, hsound', ?_⟩
        intro k
        rw [hget', hget, lastPut_concat]
      · exact .inr ⟨⟨puts, p, [], n, need, rfl, hn, hneed, hroom⟩, hfault⟩
    · rw [hfault]
      exact .inr ⟨⟨done, q, rest ++ [p], n, need, by simp, hdone, hneed⟩, fault, rfl⟩

/-- A map that starts empty, with or without a window, is a finite map: after all puts every key has the
value with which it was put last. Only a window with too many slots keeps a put from going through. -/
theorem puts_keep_last_values (room : Nat) (start : WindowMap α)
    (hstart : start = {} ∨ ∃ low high, between room low high = .ok start)
    (puts : List (BitVec 32 × Option α)) :
    (∀ m, putAll room start puts = .ok m → ∀ k, m.get? k = lastPut puts k) ∧
      ∀ fault, putAll room start puts = .error fault → Exceeds room start puts := by
  have hempty : Sound start ∧ ∀ k, start.get? k = none := by
    obtain rfl | ⟨low, high, hbetween⟩ := hstart
    · exact ⟨sound_empty, get?_of_slots?_eq_none rfl⟩
    · exact sound_between hbetween
  obtain ⟨n, hn, -, hget⟩ | ⟨hexceeds, fault, hfault⟩ := putAll_cases room hempty.1 hempty.2 puts
  · rw [hn]
    constructor
    · rintro m ⟨⟩
      exact hget
    · rintro fault ⟨⟩
  · rw [hfault]
    constructor
    · rintro m ⟨⟩
    · intro _ _
      exact hexceeds

theorem puts_keep_last_values_across_ends :
    ∃ m, putAll 9 ({} : WindowMap Nat) [(0x80000000, some 1), (0x7ffffffd, some 2), (0x80000000, some 3),
        (0x7ffffffd, none)] = .ok m ∧
      m.get? 0x80000000 = some 3 ∧ m.get? 0x7ffffffd = none ∧ m.get? 7 = none := by
  obtain ⟨m, hm⟩ : ∃ m, putAll 9 ({} : WindowMap Nat) [(0x80000000, some 1), (0x7ffffffd, some 2),
      (0x80000000, some 3), (0x7ffffffd, none)] = .ok m := ⟨_, rfl⟩
  have hget := (puts_keep_last_values 9 {} (.inl rfl) _).1 m hm
  exact ⟨m, hm, hget _, hget _, hget _⟩

end CompilerKit.WindowMap
