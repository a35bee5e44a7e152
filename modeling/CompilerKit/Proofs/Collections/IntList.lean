import CompilerKit.Collections.IntList
import CompilerKit.Proofs.Result

/-! # Growing lists of numbers

Several lists are compared with the elements that they should have. As long as every row of cells finds
room they have them, if a greater size leaves the elements as they are. If a greater size should fill the
list up with zeros, they have them only until the first such request.
-/

namespace CompilerKit

namespace IntList

variable {room n : Nat} {l k : IntList} {xs : List Int}

/-- What a list tells about itself is told of these elements. -/
structure Shows (l : IntList) (xs : List Int) : Prop where
  size : l.size = xs.length
  get : ∀ i (h : i < xs.length), l.get i = .ok xs[i]
  render : l.render = .ok ("[" ++ String.intercalate ", " (xs.map toString) ++ "]")

/-- The elements are the first cells; what is behind them does not show. -/
structure Holds (room : Nat) (l : IntList) (xs : List Int) : Prop where
  size : l.size = xs.length
  cells : ∃ stale, l.cells = xs ++ stale
  small : l.cells.length ≤ room

theorem Holds.shows (h : Holds room l xs) : Shows l xs := by
  obtain ⟨stale, hcells⟩ := h.cells
  have hsize := h.size
  constructor
  case size => exact hsize
  case get =>
    intro i hi
    have hposition : l.position i = .ok i := by
      rw [position, if_neg (by omega), if_neg (by omega), Int.toNat_natCast]
    rw [get, hposition, hcells]
    change Except.ok ((xs ++ stale).getD i 0) = _
    rw [List.getD_append _ _ _ _ hi, List.getD_eq_getElem _ _ hi]
  case render =>
    rw [render, if_neg (by omega), elements, hsize, hcells, Int.toNat_natCast, List.take_left]

theorem resize_of_le (h : xs.length ≤ n) : resize xs n = xs ++ List.replicate (n - xs.length) 0 := by
  rw [resize, List.take_of_length_le h]

theorem length_resize (xs : List Int) (n : Nat) : (resize xs n).length = n := by
  rw [resize, List.length_append, List.length_take, List.length_replicate]
  omega

theorem growth_of_lt {n : Int} (h : 0 ≤ n) (hlt : n < 715827883) : growth n = n * 3 / 2 + 1 := by
  rw [growth, BitVec.toInt_ofInt_eq_self (by decide) (by omega) (by omega), Int.tdiv_eq_ediv_of_nonneg (by omega)]

/-- From 715827883 cells on, three times their number leaves the 32 bit range. -/
theorem growth_le {n : Int} (h : 715827883 ≤ n) (hlt : n < 2 ^ 31) : growth n ≤ n := by
  have hwrap : (BitVec.ofInt 32 (n * 3)).toInt = n * 3 - 2 ^ 32 := by
    rw [BitVec.toInt_ofInt, Int.bmod_def]
    split <;> omega
  rw [growth, hwrap, Int.tdiv_eq_ediv]
  change _ + (if _ then 0 else 1) + 1 ≤ n
  split <;> omega

theorem Holds.clear (h : Holds room l xs) : Holds room l.clear [] where
  size := rfl
  cells := ⟨l.cells, rfl⟩
  small := h.small

theorem Holds.set (h : Holds room l xs) {i : Int} (hi : 0 ≤ i ∧ i < xs.length) (v : Int) :
    ∃ k, l.set i v = .ok k ∧ Holds room k (xs.set i.toNat v) := by
  obtain ⟨stale, hcells⟩ := h.cells
  have hsize := h.size
  have hposition : l.position i = .ok i.toNat := by
    rw [position, if_neg (by omega), if_neg (by omega)]
  refine ⟨{ l with cells := l.cells.set i.toNat v }, by rw [IntList.set, hposition]; rfl, ?_⟩
  constructor
  case size => rw [List.length_set, h.size]
  case cells => exact ⟨stale, by rw [hcells, List.set_append_left _ _ (by omega)]⟩
  case small => simpa using h.small

theorem Holds.setSize_of_le (h : Holds room l xs) {n : Int} (hn : 0 ≤ n) (hle : n ≤ l.size) :
    ∃ k, l.setSize room n = .ok k ∧ Holds room k (xs.take n.toNat) := by
  obtain ⟨stale, hcells⟩ := h.cells
  have hsize := h.size
  rw [IntList.setSize]
  split
  case isTrue hlt =>
    refine ⟨_, rfl, ?_, ⟨xs.drop n.toNat ++ stale, ?_⟩, h.small⟩
    · change n = _
      rw [List.length_take]
      omega
    · rw [← List.append_assoc, List.take_append_drop, hcells]
  case isFalse hge =>
    rw [if_pos (by omega), List.take_of_length_le (by omega)]
    exact ⟨l, rfl, h⟩

theorem Holds.setSize_of_lt (h : Holds room l xs) {n : Int} (hlt : l.size < n) (hroom : n ≤ room) :
    ∃ k, l.setSize room n = .ok k ∧ Holds room k xs := by
  obtain ⟨stale, hcells⟩ := h.cells
  have hsize := h.size
  rw [IntList.setSize, if_neg (by omega), if_neg (by omega), storeSize_of_le (by omega) hroom]
  refine ⟨_, rfl, hsize, ?_, ?_⟩
  · have hkept : (xs ++ stale).take n.toNat = xs ++ stale.take (n.toNat - xs.length) := by
      rw [List.take_append, List.take_of_length_le (by omega)]
    exact ⟨_, by rw [resize, hcells, hkept, List.append_assoc]⟩
  · rw [length_resize]
    omega

theorem of_setSize_eq_ok {n : Int} (hlt : l.size < n) (hset : l.setSize room n = .ok k) :
    n ≤ room ∧ k.size = l.size := by
  rw [IntList.setSize, if_neg (by omega), if_neg (by omega)] at hset
  obtain ⟨m, hm, hk⟩ := Result.bind_eq_ok.1 hset
  cases hk
  exact ⟨(storeSize_eq_ok.1 hm).2.1, rfl⟩

/-- Room for one more element: a full row of cells grows by half, within the room and the 32 bit range. -/
def Spacious (room : Nat) (l : IntList) : Prop :=
  l.size = l.capacity → l.size < 715827883 ∧ l.size * 3 / 2 + 1 ≤ room

theorem Holds.exists_spacious (h : Holds room l xs) (hgrow : Spacious room l) :
    ∃ v stale, l.spacious room = .ok (xs ++ v :: stale) ∧ (xs ++ v :: stale).length ≤ room := by
  obtain ⟨stale, hcells⟩ := h.cells
  have hsize := h.size
  have hcapacity : l.capacity = xs.length + stale.length := by
    rw [capacity, hcells, List.length_append, Nat.cast_add]
  rw [spacious]
  split
  case isTrue hfull =>
    obtain ⟨hlt, hroom⟩ := hgrow hfull
    obtain rfl : stale = [] := List.eq_nil_of_length_eq_zero (by omega)
    rw [List.append_nil] at hcells
    obtain ⟨more, hmore⟩ : ∃ more, (l.size * 3 / 2 + 1).toNat = xs.length + (more + 1) :=
      Nat.exists_eq_add_of_lt (by omega)
    refine ⟨0, List.replicate more 0, ?_, ?_⟩
    · rw [growth_of_lt (by omega) hlt, storeSize_of_le (by omega) hroom, hmore, hcells]
      change Except.ok (resize xs (xs.length + (more + 1))) = _
      rw [resize_of_le (by omega), Nat.add_sub_cancel_left, List.replicate_succ]
    · rw [List.length_append, List.length_cons, List.length_replicate]
      omega
  case isFalse hspare =>
    obtain ⟨v, rest, rfl⟩ := List.exists_cons_of_length_pos (show 0 < stale.length by omega)
    exact ⟨v, rest, by rw [hcells], hcells ▸ h.small⟩

theorem Holds.add (h : Holds room l xs) (hgrow : Spacious room l) (v : Int) :
    ∃ k, l.add room v = (.ok (), k) ∧ Holds room k (xs ++ [v]) := by
  obtain ⟨u, stale, hspacious, hlength⟩ := h.exists_spacious hgrow
  have hsize := h.size
  have hset : (xs ++ u :: stale).set l.size.toNat v = xs ++ [v] ++ stale := by
    rw [hsize, Int.toNat_natCast, List.set_append_right _ _ (Nat.le_refl _), Nat.sub_self, List.set_cons_zero,
      List.append_assoc, List.singleton_append]
  have hinside : 0 ≤ l.size ∧ l.size < (xs ++ u :: stale).length := by
    rw [List.length_append, List.length_cons]
    omega
  refine ⟨⟨xs ++ [v] ++ stale, l.size + 1⟩, ?_, ?_, ⟨stale, rfl⟩, ?_⟩
  · rw [IntList.add, hspacious]
    change (if _ then _ else _) = _
    rw [if_pos hinside, hset]
  · rw [List.length_append, hsize]
    rfl
  · simpa using hlength

theorem Holds.add_error (h : Holds room l xs) (hroom : room < 2 ^ 31) (hfull : ¬ Spacious room l) (v : Int) :
    ∃ fault, (l.add room v).1 = .error fault := by
  rw [Spacious, Classical.not_imp] at hfull
  obtain ⟨hfull, hgrow⟩ := hfull
  have hsize := h.size
  have hsmall : l.capacity ≤ room := Int.ofNat_le.2 h.small
  have hspacious : l.spacious room = do return resize l.cells (← storeSize room (growth l.size)) := if_pos hfull
  rw [IntList.add, hspacious]
  cases hstore : storeSize room (growth l.size) with
  | error fault => exact ⟨fault, rfl⟩
  | ok size =>
    obtain ⟨hnonneg, hle, rfl⟩ := storeSize_eq_ok.1 hstore
    have hlarge : growth l.size ≤ l.size := by
      refine growth_le ?_ (by omega)
      by_contra hlt
      rw [growth_of_lt (by omega) (by omega)] at hle
      omega
    refine ⟨.outOfRange, ?_⟩
    change Prod.fst (if _ then _ else _) = _
    rw [if_neg (by rw [length_resize]; omega)]

theorem Holds.copy (h : Holds room l xs) {start length capacity : Int} (hstart : 0 ≤ start) (hlength : 0 ≤ length)
    (hin : start + length ≤ xs.length) (hcapacity : length ≤ capacity ∧ capacity ≤ room) :
    ∃ k, l.copy room start length capacity = .ok k ∧ Holds room k ((xs.drop start.toNat).take length.toNat) := by
  obtain ⟨stale, hcells⟩ := h.cells
  have hinside : ¬ (start < 0 ∨ length < 0 ∨ l.capacity < start + length ∨ capacity < length) := by
    rw [IntList.capacity, hcells, List.length_append]
    omega
  have hsame : (l.cells.drop start.toNat).take length.toNat = (xs.drop start.toNat).take length.toNat := by
    rw [hcells, List.drop_append_of_le_length (by omega), List.take_append_of_le_length]
    rw [List.length_drop]
    omega
  have hsize : ((xs.drop start.toNat).take length.toNat).length = length.toNat := by
    rw [List.length_take, List.length_drop]
    omega
  refine ⟨_, Result.bind_eq_ok.2 ⟨capacity.toNat, storeSize_of_le (by omega) hcapacity.2,
    (if_neg hinside).trans rfl⟩, ?_, ?_, ?_⟩
  · change length = _
    omega
  · exact ⟨_, by rw [hsame, resize_of_le (by omega)]⟩
  · rw [length_resize]
    omega

theorem copy_error {start length capacity : Int} (h : ¬ (length ≤ capacity ∧ capacity ≤ room)) :
    ∃ fault, l.copy room start length capacity = .error fault := by
  rw [IntList.copy]
  cases hstore : storeSize room capacity with
  | error fault => exact ⟨fault, rfl⟩
  | ok size =>
    obtain ⟨-, hle, -⟩ := storeSize_eq_ok.1 hstore
    exact ⟨.outOfRange, if_pos (by omega)⟩

end IntList

/-- What a greater size does: it fills the list up with zeros, or it leaves the elements as they are. -/
inductive SizeRule where
  | filled
  | kept

def SizeRule.resized (xs : List Int) (n : Nat) : SizeRule → List Int
  | filled => IntList.resize xs n
  | kept => xs.take n

theorem SizeRule.resized_of_le (rule : SizeRule) {xs : List Int} {n : Nat} (h : n ≤ xs.length) :
    rule.resized xs n = xs.take n := by
  cases rule with
  | filled => rw [resized, IntList.resize, Nat.sub_eq_zero_of_le h, List.replicate_zero, List.append_nil]
  | kept => rfl

namespace ListRequest

variable {rule : SizeRule} {room : Nat} {l : IntList} {xs : List Int} {r : ListRequest}

def effect (rule : SizeRule) (xs : List Int) : ListRequest → List Int
  | add v => xs ++ [v]
  | get _ => xs
  | set i v => xs.set i.toNat v
  | setSize n => rule.resized xs n.toNat
  | clear => []
  | copy start length _ => (xs.drop start.toNat).take length.toNat

/-- The positions, the sizes and the ranges that are allowed. -/
def InRange (xs : List Int) : ListRequest → Prop
  | get i | set i _ => 0 ≤ i ∧ i < xs.length
  | setSize n => 0 ≤ n
  | copy start length _ => 0 ≤ start ∧ 0 ≤ length ∧ start + length ≤ xs.length
  | add _ | clear => True

/-- The requests that have their effect. -/
def Works (rule : SizeRule) (room : Nat) (l : IntList) : ListRequest → Prop
  | add _ => IntList.Spacious room l
  | setSize n => n ≤ l.size ∨ rule = .kept ∧ n ≤ room
  | copy _ length capacity => length ≤ capacity ∧ capacity ≤ room
  | get _ | set .. | clear => True

theorem exists_answer (h : IntList.Holds room l xs) (hin : r.InRange xs) (hworks : r.Works rule room l) :
    ∃ a k, l.answer room r = (.ok a, k) ∧ IntList.Holds room k (r.effect rule xs) := by
  cases r with
  | add v =>
    obtain ⟨k, hk, hholds⟩ := h.add hworks v
    refine ⟨none, k, ?_, hholds⟩
    rw [IntList.answer, hk]
    rfl
  | get i =>
    obtain ⟨n, rfl⟩ := Int.eq_ofNat_of_zero_le hin.1
    refine ⟨some (xs.getD n 0), l, ?_, h⟩
    have hn : n < xs.length := by exact_mod_cast hin.2
    rw [IntList.answer, h.shows.get n hn, List.getD_eq_getElem _ _ hn]
    rfl
  | set i v =>
    obtain ⟨k, hk, hholds⟩ := h.set hin v
    refine ⟨none, k, ?_, hholds⟩
    rw [IntList.answer, hk]
    rfl
  | setSize n =>
    obtain ⟨k, hk, hholds⟩ : ∃ k, l.setSize room n = .ok k ∧ IntList.Holds room k (rule.resized xs n.toNat) := by
      have hsize := h.size
      have hn : 0 ≤ n := hin
      obtain hle | hlt := le_or_gt n l.size
      · rw [rule.resized_of_le (by omega)]
        exact h.setSize_of_le hn hle
      · obtain ⟨rfl, hroom⟩ := hworks.resolve_left (by omega)
        rw [SizeRule.resized, List.take_of_length_le (by omega)]
        exact h.setSize_of_lt hlt hroom
    refine ⟨none, k, ?_, hholds⟩
    rw [IntList.answer, hk]
    rfl
  | clear => exact ⟨none, l.clear, rfl, h.clear⟩
  | copy start length capacity =>
    obtain ⟨k, hk, hholds⟩ := h.copy hin.1 hin.2.1 hin.2.2 hworks
    refine ⟨none, k, ?_, hholds⟩
    rw [IntList.answer, hk]
    rfl

/-- Any other request is refused, or it is for a greater size and the list keeps its own. -/
theorem answer_of_not_works (h : IntList.Holds room l xs) (hroom : room < 2 ^ 31)
    (hworks : ¬ r.Works rule room l) :
    (∃ fault, (l.answer room r).1 = .error fault) ∨
      ∃ n, r = setSize n ∧ (l.answer room r).2.size ≠ (r.effect rule xs).length := by
  cases r with
  | add v =>
    obtain ⟨fault, hfault⟩ := h.add_error hroom hworks v
    refine .inl ⟨fault, ?_⟩
    change Except.map _ (l.add room v).1 = _
    rw [hfault]
    rfl
  | get i => exact absurd trivial hworks
  | set i v => exact absurd trivial hworks
  | setSize n =>
    obtain ⟨hlt, hrule⟩ := not_or.1 hworks
    have hsize := h.size
    rw [IntList.answer]
    cases hset : l.setSize room n with
    | error fault => exact .inl ⟨fault, rfl⟩
    | ok k =>
      obtain ⟨hroom, hkept⟩ := IntList.of_setSize_eq_ok (by omega) hset
      refine .inr ⟨n, rfl, ?_⟩
      change k.size ≠ (rule.resized xs n.toNat).length
      cases rule with
      | filled =>
        rw [SizeRule.resized, IntList.length_resize]
        omega
      | kept => exact absurd ⟨rfl, hroom⟩ hrule
  | clear => exact absurd trivial hworks
  | copy start length capacity =>
    obtain ⟨fault, hfault⟩ : ∃ fault, l.copy room start length capacity = .error fault :=
      IntList.copy_error hworks
    refine .inl ⟨fault, ?_⟩
    rw [IntList.answer, hfault]
    rfl

/-- Where the list belongs that answers a request: a copy behind the others, all else in its place. -/
def place {β : Type} (i : Nat) (x : β) (lists : List β) : ListRequest → List β
  | copy .. => lists ++ [x]
  | _ => lists.set i x

end ListRequest

/-- What is done with several lists. -/
inductive ListCall where
  | create (capacity : Int)
  | ask (list : Nat) (request : ListRequest)

namespace ListCall

open IntList

variable {rule : SizeRule} {room : Nat} {lists : List IntList} {expected : List (List Int)} {c : ListCall}

def perform (room : Nat) (lists : List IntList) : ListCall → Result (List IntList)
  | create capacity => do return lists ++ [← withCapacity room capacity]
  | ask i r =>
    match lists[i]? with
    | none => .error .outside
    | some l =>
      match l.answer room r with
      | (.ok _, k) => .ok (r.place i k lists)
      | (.error fault, _) => .error fault

def effect (rule : SizeRule) (expected : List (List Int)) : ListCall → List (List Int)
  | create _ => expected ++ [[]]
  | ask i r =>
    match expected[i]? with
    | none => expected
    | some xs => r.place i (r.effect rule xs) expected

def InRange (expected : List (List Int)) : ListCall → Prop
  | create capacity => 0 ≤ capacity
  | ask i r => ∃ xs, expected[i]? = some xs ∧ r.InRange xs

def Works (rule : SizeRule) (room : Nat) (lists : List IntList) : ListCall → Prop
  | create capacity => capacity ≤ room
  | ask i r => ∃ l, lists[i]? = some l ∧ r.Works rule room l

theorem forall₂_getElem? {β γ : Type} {R : β → γ → Prop} {l : List β} {m : List γ} (h : List.Forall₂ R l m)
    {i : Nat} {b : γ} (hb : m[i]? = some b) : ∃ a, l[i]? = some a ∧ R a b := by
  induction h generalizing i with
  | nil => cases hb
  | cons hab h ih =>
    cases i with
    | zero =>
      cases hb
      exact ⟨_, rfl, hab⟩
    | succ i => exact ih hb

theorem forall₂_set {β γ : Type} {R : β → γ → Prop} {l : List β} {m : List γ} (h : List.Forall₂ R l m)
    {a : β} {b : γ} (hab : R a b) (i : Nat) : List.Forall₂ R (l.set i a) (m.set i b) := by
  induction h generalizing i with
  | nil => exact .nil
  | cons hcd h ih =>
    cases i with
    | zero => exact .cons hab h
    | succ i => exact .cons hcd (ih i)

theorem forall₂_place {β γ : Type} {R : β → γ → Prop} {l : List β} {m : List γ} (h : List.Forall₂ R l m)
    {a : β} {b : γ} (hab : R a b) (i : Nat) (r : ListRequest) :
    List.Forall₂ R (r.place i a l) (r.place i b m) := by
  cases r with
  | copy => exact List.rel_append h (.cons hab .nil)
  | _ => exact forall₂_set h hab i

theorem exists_perform (h : List.Forall₂ (Holds room) lists expected) (hin : c.InRange expected)
    (hworks : c.Works rule room lists) :
    ∃ lists', c.perform room lists = .ok lists' ∧ List.Forall₂ (Holds room) lists' (c.effect rule expected) := by
  cases c with
  | create capacity =>
    have hstore : storeSize room capacity = .ok capacity.toNat := storeSize_of_le hin hworks
    refine ⟨lists ++ [⟨List.replicate capacity.toNat 0, 0⟩], ?_, List.rel_append h (.cons ?_ .nil)⟩
    · rw [perform, withCapacity, hstore]
      rfl
    · have := storeSize_eq_ok.1 hstore
      exact ⟨rfl, ⟨_, rfl⟩, by rw [List.length_replicate]; omega⟩
  | ask i r =>
    obtain ⟨xs, hxs, hin⟩ := hin
    obtain ⟨l, hl, hworks⟩ := hworks
    obtain ⟨l', hl', hholds⟩ := forall₂_getElem? h hxs
    obtain rfl := Option.some_inj.1 (hl.symm.trans hl')
    obtain ⟨a, k, hanswer, hk⟩ := r.exists_answer hholds hin hworks
    refine ⟨r.place i k lists, ?_, ?_⟩
    · rw [perform, hl]
      dsimp only
      rw [hanswer]
    · rw [effect, hxs]
      exact forall₂_place h hk i r

/-- Any other call fails, or a list does not show its elements afterwards. -/
theorem works_of_shows (hroom : room < 2 ^ 31) (h : List.Forall₂ (Holds room) lists expected)
    (hin : c.InRange expected) {lists' : List IntList} (hok : c.perform room lists = .ok lists')
    (hshows : List.Forall₂ Shows lists' (c.effect rule expected)) : c.Works rule room lists := by
  cases c with
  | create capacity =>
    obtain ⟨l, hl, -⟩ := Result.bind_eq_ok.1 hok
    obtain ⟨size, hsize, -⟩ := Result.bind_eq_ok.1 hl
    exact (storeSize_eq_ok.1 hsize).2.1
  | ask i r =>
    obtain ⟨xs, hxs, hin⟩ := hin
    obtain ⟨l, hl, hholds⟩ := forall₂_getElem? h hxs
    refine ⟨l, hl, ?_⟩
    by_contra hworks
    rw [perform, hl] at hok
    dsimp only at hok
    cases hanswer : l.answer room r with
    | mk answer k =>
      rw [hanswer] at hok
      obtain ⟨fault, hfault⟩ | ⟨n, rfl, hsize⟩ := ListRequest.answer_of_not_works hholds hroom hworks
      · rw [hanswer] at hfault
        cases hfault
        cases hok
      · cases answer with
        | error fault => cases hok
        | ok answer =>
          cases hok
          have hi : i < lists.length := (List.getElem?_eq_some_iff.1 hl).1
          rw [effect, hxs] at hshows
          obtain ⟨k', hk', hshown⟩ := forall₂_getElem? hshows
            (List.getElem?_set_self (h.length_eq ▸ hi))
          obtain rfl := Option.some_inj.1 ((List.getElem?_set_self hi).symm.trans hk')
          rw [hanswer] at hsize
          exact hsize hshown.size

def AllInRange (rule : SizeRule) (expected : List (List Int)) : List ListCall → Prop
  | [] => True
  | c :: calls => c.InRange expected ∧ AllInRange rule (c.effect rule expected) calls

/-- Calls that have their effects, one after the other. -/
def AllWork (rule : SizeRule) (room : Nat) (lists : List IntList) : List ListCall → Prop
  | [] => True
  | c :: calls =>
    c.Works rule room lists ∧ ∀ lists', c.perform room lists = .ok lists' → AllWork rule room lists' calls

/-- No call fails, and at every point the lists show their elements. -/
def AllShow (rule : SizeRule) (room : Nat) (lists : List IntList) (expected : List (List Int)) :
    List ListCall → Prop
  | [] => List.Forall₂ Shows lists expected
  | c :: calls =>
    List.Forall₂ Shows lists expected ∧
      ∃ lists', c.perform room lists = .ok lists' ∧ AllShow rule room lists' (c.effect rule expected) calls

theorem AllShow.shows {calls : List ListCall} (h : AllShow rule room lists expected calls) :
    List.Forall₂ Shows lists expected := by
  cases calls with
  | nil => exact h
  | cons c calls => exact h.1

theorem allShow_iff_allWork (hroom : room < 2 ^ 31) (calls : List ListCall)
    (h : List.Forall₂ (Holds room) lists expected) (hin : AllInRange rule expected calls) :
    AllShow rule room lists expected calls ↔ AllWork rule room lists calls := by
  have hshows : List.Forall₂ Shows lists expected := h.imp fun l xs hholds => hholds.shows
  induction calls generalizing lists expected with
  | nil => exact iff_of_true hshows trivial
  | cons c calls ih =>
    obtain ⟨hc, hcalls⟩ := hin
    constructor
    · rintro ⟨-, lists', hok, hrest⟩
      have hworks := works_of_shows hroom h hc hok hrest.shows
      obtain ⟨lists'', hok', hholds⟩ := exists_perform h hc hworks
      obtain rfl := Except.ok.inj (hok.symm.trans hok')
      refine ⟨hworks, ?_⟩
      intro lists'' hok''
      obtain rfl := Except.ok.inj (hok.symm.trans hok'')
      exact (ih hholds hcalls hrest.shows).1 hrest
    · rintro ⟨hworks, hrest⟩
      obtain ⟨lists', hok, hholds⟩ := exists_perform h hc hworks
      have hshows' := hholds.imp fun l xs hholds => hholds.shows
      exact ⟨hshows, lists', hok, (ih hholds hcalls hshows').2 (hrest lists' hok)⟩

/-- Under both rules for a greater size, the lists show their elements all along if and only if every
request works. If greater sizes leave the elements as they are, only room is needed for that; if they
should fill the lists up, no list may be asked for a greater size. -/
theorem lists_show_elements_iff (rule : SizeRule) (room : Nat) (hroom : room < 2 ^ 31) (calls : List ListCall)
    (hin : AllInRange rule [] calls) : AllShow rule room [] [] calls ↔ AllWork rule room [] calls :=
  allShow_iff_allWork hroom calls .nil hin

theorem lists_show_elements_iff_regrown :
    AllShow .kept 8 [] [] [create 1, ask 0 (.add 5), ask 0 (.setSize 0), ask 0 (.setSize 1)] ∧
      ¬ AllShow .filled 8 [] [] [create 1, ask 0 (.add 5), ask 0 (.setSize 0), ask 0 (.setSize 1)] := by
  have hin (rule : SizeRule) :
      AllInRange rule [] [create 1, ask 0 (.add 5), ask 0 (.setSize 0), ask 0 (.setSize 1)] := by
    cases rule <;> simp [AllInRange, InRange, ListRequest.InRange, effect, ListRequest.effect, ListRequest.place]
  have hcreate : (1 : Int) ≤ (8 : Nat) := by decide
  have hadd : ListRequest.Works .kept 8 ⟨[0], 0⟩ (.add 5) := fun h => absurd h (by decide)
  constructor
  · refine (lists_show_elements_iff .kept 8 (by decide) _ (hin .kept)).2 ⟨hcreate, ?_⟩
    rintro _ ⟨⟩
    refine ⟨⟨_, rfl, hadd⟩, ?_⟩
    rintro _ ⟨⟩
    refine ⟨⟨_, rfl, .inl (by decide)⟩, ?_⟩
    rintro _ ⟨⟩
    refine ⟨⟨_, rfl, .inr ⟨rfl, by decide⟩⟩, ?_⟩
    rintro _ ⟨⟩
    trivial
  · intro hshow
    obtain ⟨-, hrest⟩ := (lists_show_elements_iff .filled 8 (by decide) _ (hin .filled)).1 hshow
    obtain ⟨-, hrest⟩ := hrest _ rfl
    obtain ⟨-, hrest⟩ := hrest _ rfl
    obtain ⟨⟨_, ⟨⟩, hworks⟩, -⟩ := hrest _ rfl
    exact absurd hworks (by simp [ListRequest.Works])

/-- A list that is given the size 3 stays empty, where three zeros are documented. -/
theorem greater_size_adds_nothing :
    AllInRange .filled [] [create 0, ask 0 (.setSize 3)] ∧
      ([create 0, ask 0 (.setSize 3)].foldl (effect .filled) []) = [[0, 0, 0]] ∧
      ([create 0, ask 0 (.setSize 3)].foldlM (perform 8) []) = .ok [⟨[0, 0, 0], 0⟩] ∧
      ¬ AllShow .filled 8 [] [] [create 0, ask 0 (.setSize 3)] := by
  refine ⟨⟨le_refl _, ⟨[], rfl, show (0 : Int) ≤ 3 by decide⟩, trivial⟩, rfl, rfl, ?_⟩
  rintro ⟨-, _, ⟨⟩, -, _, ⟨⟩, hshows⟩
  obtain _ | ⟨hlist, -⟩ := hshows
  exact absurd hlist.size (by decide)

end ListCall

end CompilerKit
