import CompilerKit.Proofs.Aarch64.Jump

/-! # Branches to labels of a program

A program is a sequence of branches to labels, labels that are bound and other instructions. Its listing
can be written down from the program alone: where a label is bound is a matter of how many words stand
before it, and a branch is a word that depends on the position of its label, or a waiting word if there
is none yet. The assembler always holds the listing of what it has run so far (`Sound`). Binding a label
replaces the waiting words of its branches, which is what the listing of the longer program asks for.
-/

namespace CompilerKit.Aarch64

open Assembler

inductive Step where
  | emit (i : Instr)
  | branch (b : Branch) (l : Nat)
  | bind (l : Nat)

namespace Step

def run : Step → Assembler Unit
  | emit i => emitInstr i
  | branch b l => b.toLabel l
  | bind l => bindLabel l

def binds (l : Nat) : Step → Bool
  | bind k => k = l
  | _ => false

theorem eq_bind {l : Nat} {s : Step} (h : s.binds l) : s = bind l := by
  cases s with
  | bind k => simpa [binds] using h
  | emit i => cases h
  | branch b k => cases h

def label? : Step → Option Nat
  | emit _ => none
  | branch _ l | bind l => some l

def size : Step → Nat
  | emit _ | branch .. => 4
  | bind _ => 0

def use (l position : Nat) : Step → List Nat
  | branch _ k => if k = l then [position] else []
  | _ => []

end Step

def Branch.word (b : Branch) (places : Nat → Option Nat) (l position : Nat) : Instr :=
  match places l with
  | some target => b.instr (BitVec.ofInt 32 (target - position))
  | none => b.pending

def Step.words (places : Nat → Option Nat) (position : Nat) : Step → List Instr
  | emit i => [i]
  | branch b l => [b.word places l position]
  | bind _ => []

/-! Programs as listings. -/

def size (p : List Step) : Nat := (p.map Step.size).sum

def place? (l : Nat) : Nat → List Step → Option Nat
  | _, [] => none
  | position, s :: p => if s.binds l then some position else place? l (position + s.size) p

def uses (l : Nat) : Nat → List Step → List Nat
  | _, [] => []
  | position, s :: p => s.use l position ++ uses l (position + s.size) p

def listing (places : Nat → Option Nat) : Nat → List Step → List Instr
  | _, [] => []
  | position, s :: p => s.words places position ++ listing places (position + s.size) p

def codeOf (is : List Instr) : Code := is.flatMap (Code.littleEndian 4)

section Append

variable (l position : Nat) (places : Nat → Option Nat) (p q : List Step) (s : Step)

@[simp] theorem size_append : size (p ++ q) = size p + size q := by
  simp [size]

theorem place?_append :
    place? l position (p ++ q) = (place? l position p).or (place? l (position + size p) q) := by
  induction p generalizing position with
  | nil => simp [place?, size]
  | cons s p ih =>
    rw [List.cons_append, place?, place?]
    cases s.binds l with
    | true => simp
    | false => simp [ih, size, Nat.add_assoc]

theorem uses_append : uses l position (p ++ q) = uses l position p ++ uses l (position + size p) q := by
  induction p generalizing position with
  | nil => simp [uses, size]
  | cons s p ih => simp [uses, ih, size, Nat.add_assoc]

theorem listing_append : listing places position (p ++ q) =
    listing places position p ++ listing places (position + size p) q := by
  induction p generalizing position with
  | nil => simp [listing, size]
  | cons s p ih => simp [listing, ih, size, Nat.add_assoc]

theorem codeOf_append (is js : List Instr) : codeOf (is ++ js) = codeOf is ++ codeOf js :=
  List.flatMap_append

theorem codeOf_singleton (i : Instr) : codeOf [i] = Code.littleEndian 4 i := List.flatMap_singleton ..

theorem length_codeOf_words : (codeOf (s.words places position)).length = s.size := by
  cases s <;> simp [Step.words, codeOf, Step.size, Code.length_littleEndian]

theorem length_codeOf_listing : (codeOf (listing places position p)).length = size p := by
  induction p generalizing position with
  | nil => rfl
  | cons s p ih => simp [listing, codeOf_append, length_codeOf_words, ih, size]

theorem place?_snoc : place? l 0 (p ++ [s]) =
    (place? l 0 p).or (if s.binds l then some (size p) else none) := by
  rw [place?_append, Nat.zero_add]
  rfl

theorem uses_snoc : uses l 0 (p ++ [s]) = uses l 0 p ++ s.use l (size p) := by
  rw [uses_append, Nat.zero_add]
  simp [uses]

theorem listing_snoc : listing places 0 (p ++ [s]) = listing places 0 p ++ s.words places (size p) := by
  rw [listing_append, Nat.zero_add]
  simp [listing]

end Append

/-! Patching. -/

/-- Some code has been replaced by code of the same length, and nothing else has changed. -/
structure Recoded (code : Code) (a c : Assembly) : Prop where
  code : c.code = code
  length : c.code.length = a.code.length
  labels : c.labels = a.labels
  capacity : c.capacity = a.capacity

theorem Recoded.hasRoom {code : Code} {a c : Assembly} (h : Recoded code a c) (hroom : HasRoom a) :
    HasRoom c := by
  rw [HasRoom, h.length, h.capacity]
  exact hroom

section Patch

variable {places : Nat → Option Nat} {l : Nat} (hl : places l = none) (target : Nat) {a : Assembly}
  (front back : Code)

include hl

theorem exists_patched_step {s : Step} (hplain : ∀ b, s = .branch b l → b.IsPlain) (hroom : HasRoom a)
    (hcode : a.code = front ++ codeOf (s.words places front.length) ++ back) :
    ∃ c, ((s.use l front.length).forM fun site => patch site target).run.run a = (.ok (), c) ∧
      Recoded (front ++ codeOf (s.words (Function.update places l (some target)) front.length) ++ back)
        a c := by
  cases s with
  | emit i => exact ⟨a, rfl, hcode, rfl, rfl, rfl⟩
  | bind k => exact ⟨a, rfl, hcode, rfl, rfl, rfl⟩
  | branch b k =>
    by_cases hk : k = l
    · subst hk
      have hlength (i : Instr) : (codeOf [i]).length = 4 := by
        rw [codeOf_singleton, Code.length_littleEndian]
      simp only [Step.words, Branch.word, hl, Function.update_self] at hcode ⊢
      have hend : front.length + 4 ≤ a.code.length := by
        rw [hcode, List.length_append, List.length_append, hlength]
        omega
      have hheld : a.code.Holds front.length (Code.littleEndian 4 b.pending) := by
        rw [hcode, ← codeOf_singleton]
        exact (Code.holds_append _ _).append_right _
      have hrun := run_patch (hplain b rfl) hroom hend hheld target
      rw [Step.use, if_pos rfl]
      refine ⟨_, run_bind_of_ok hrun _, ?_, Code.length_overwrite .., rfl, rfl⟩
      · rw [Assembly.overwrite, hcode, ← codeOf_singleton]
        exact Code.overwrite_append front back (by rw [hlength, hlength])
    · refine ⟨a, by rw [Step.use, if_neg hk]; rfl, ?_, rfl, rfl, rfl⟩
      rw [hcode, Step.words, Step.words, Branch.word, Branch.word, Function.update_of_ne hk]

theorem exists_patched {p : List Step} (hplain : ∀ b k, Step.branch b k ∈ p → b.IsPlain)
    (hroom : HasRoom a) (hcode : a.code = front ++ codeOf (listing places front.length p) ++ back) :
    ∃ c, ((uses l front.length p).forM fun site => patch site target).run.run a = (.ok (), c) ∧
      Recoded (front ++ codeOf (listing (Function.update places l (some target)) front.length p) ++ back)
        a c := by
  induction p generalizing a front with
  | nil => exact ⟨a, rfl, hcode, rfl, rfl, rfl⟩
  | cons s p ih =>
    rw [listing, codeOf_append, ← List.append_assoc, List.append_assoc] at hcode
    obtain ⟨c, hrun, hc⟩ := exists_patched_step hl target front _
      (fun b hb => hplain b l (hb ▸ List.mem_cons_self)) hroom hcode
    -- The words of the step are in front of what is still to be patched.
    obtain ⟨front', hfront'⟩ : ∃ front',
        front' = front ++ codeOf (s.words (Function.update places l (some target)) front.length) := ⟨_, rfl⟩
    have hfront : front'.length = front.length + s.size := by
      rw [hfront', List.length_append, length_codeOf_words]
    have hnext := ih front' (fun b k hb => hplain b k (List.mem_cons_of_mem s hb)) (hc.hasRoom hroom)
      (by rw [hc.code, hfront, hfront', ← List.append_assoc])
    rw [hfront] at hnext
    obtain ⟨d, hrun', hd⟩ := hnext
    refine ⟨d, ?_, ?_, hd.length.trans hc.length, hd.labels.trans hc.labels,
      hd.capacity.trans hc.capacity⟩
    · have happend : (uses l front.length (s :: p)).forM (fun site => patch site target) =
          (s.use l front.length).forM (fun site => patch site target) >>= fun _ =>
            (uses l (front.length + s.size) p).forM fun site => patch site target :=
        List.forM_append
      rw [happend, run_bind_of_ok hrun, hrun']
    · rw [hd.code, hfront', listing, codeOf_append, ← List.append_assoc]

end Patch

/-! Running a program. -/

/-- The state after an instruction has been written. -/
def appended (a : Assembly) (i : Instr) : Assembly :=
  { a with
    code := a.code ++ Code.littleEndian 4 i
    capacity := Assembly.grownBy a.capacity a.code.length [.number 4 i] }

theorem bytes_number (i : Instr) : Chunks.bytes [.number 4 i] = Code.littleEndian 4 i :=
  List.flatMap_singleton ..

theorem run_emitInstr (a : Assembly) (i : Instr) : (emitInstr i).run.run a = (.ok (), appended a i) := by
  rw [appended, ← bytes_number]
  rfl

theorem hasRoom_appended {a : Assembly} (h : HasRoom a) (i : Instr) : HasRoom (appended a i) := by
  have hgrown := lt_grownBy [.number 4 i] h
  rwa [bytes_number, ← List.length_append] at hgrown

/-- The state with a label at a position, whatever it was before. -/
def boundAt (a : Assembly) (l target : Nat) : Assembly :=
  { a with
    labels := fun k => if k = l then { a.labels l with position? := some target } else a.labels k }

theorem run_toLabel_known (b : Branch) {a : Assembly} {l t : Nat} (h : (a.labels l).position? = some t) :
    (b.toLabel l).run.run a = (.ok (), appended a (b.instr (BitVec.ofInt 32 (t - a.code.length)))) := by
  have hlabel : (label l).run.run a = (.ok (a.labels l), a) := rfl
  have hposition : position.run.run a = (.ok a.code.length, a) := rfl
  rw [Branch.toLabel, run_bind_of_ok hlabel, h]
  exact (run_bind_of_ok hposition _).trans (run_emitInstr a _)

theorem run_toLabel_unknown (b : Branch) {a : Assembly} {l : Nat} (h : (a.labels l).position? = none) :
    (b.toLabel l).run.run a = (.ok (), { appended a b.pending with
      labels := fun k =>
        if k = l then { a.labels l with sites := (a.labels l).sites ++ [a.code.length] }
        else a.labels k }) := by
  have hlabel : (label l).run.run a = (.ok (a.labels l), a) := rfl
  rw [Branch.toLabel, run_bind_of_ok hlabel, h, appended, ← bytes_number]
  rfl

/-- An assembly agrees with the program that it comes from. -/
structure Sound (a : Assembly) (p : List Step) : Prop where
  room : HasRoom a
  code : a.code = codeOf (listing (place? · 0 p) 0 p)
  position? : ∀ l, (a.labels l).position? = place? l 0 p
  sites : ∀ l, place? l 0 p = none → (a.labels l).sites = uses l 0 p

theorem sound_empty : Sound {} [] where
  room := show 0 < 232 by decide
  code := rfl
  position? _ := rfl
  sites _ _ := rfl

namespace Sound

variable {a : Assembly} {p : List Step}

theorem length (h : Sound a p) : a.code.length = size p := by
  rw [h.code, length_codeOf_listing]

theorem push (h : Sound a p) {s : Step} (hs : ∀ l, s.binds l = false) {i : Instr}
    (hi : s.words (place? · 0 p) (size p) = [i]) {labels : Nat → CodeLabel}
    (hposition : ∀ l, (labels l).position? = (a.labels l).position?)
    (hsites : ∀ l, place? l 0 p = none → (labels l).sites = (a.labels l).sites ++ s.use l (size p)) :
    Sound { appended a i with labels } (p ++ [s]) := by
  have hplace (l : Nat) : place? l 0 (p ++ [s]) = place? l 0 p := by simp [place?_snoc, hs]
  refine ⟨hasRoom_appended h.room i, ?_, fun l => ?_, fun l hl => ?_⟩
  · simp only [hplace]
    rw [listing_snoc, hi, codeOf_append, codeOf_singleton, ← h.code]
    rfl
  · rw [hplace, ← h.position?]
    exact hposition l
  · rw [hplace] at hl
    rw [uses_snoc, ← h.sites l hl]
    exact hsites l hl

theorem emit (h : Sound a p) (i : Instr) : Sound (appended a i) (p ++ [.emit i]) :=
  h.push (fun _ => rfl) rfl (fun _ => rfl) (fun _ _ => (List.append_nil _).symm)

theorem branch (h : Sound a p) (b : Branch) (l : Nat) :
    ∃ c, (b.toLabel l).run.run a = (.ok (), c) ∧ Sound c (p ++ [.branch b l]) := by
  cases hl : (a.labels l).position? with
  | some t =>
    have hplace := (h.position? l).symm.trans hl
    refine ⟨_, run_toLabel_known b hl, h.push (fun _ => rfl) ?_ (fun _ => rfl) fun k hk => ?_⟩
    · rw [Step.words, Branch.word, hplace, h.length]
    · have hne : l ≠ k := by
        rintro rfl
        rw [hplace] at hk
        cases hk
      rw [Step.use, if_neg hne, List.append_nil]
  | none =>
    have hplace := (h.position? l).symm.trans hl
    refine ⟨_, run_toLabel_unknown b hl, h.push (fun _ => rfl) ?_ (fun k => ?_) fun k hk => ?_⟩
    · rw [Step.words, Branch.word, hplace]
    · by_cases hk : k = l
      · rw [if_pos hk, hk]
      · rw [if_neg hk]
    · by_cases hk : k = l
      · simp [Step.use, hk, h.length]
      · simp [Step.use, hk, Ne.symm hk]

/-- A label that is bound gets the next position, and the branches that wait for it are patched. -/
theorem bind (h : Sound a p) (hplain : ∀ b k, Step.branch b k ∈ p → b.IsPlain) {l : Nat}
    (hl : place? l 0 p = none) :
    ∃ c, (bindLabel l).run.run a = (.ok (), c) ∧ Sound c (p ++ [.bind l]) := by
  have hplace : (place? · 0 (p ++ [Step.bind l])) =
      Function.update (place? · 0 p) l (some (size p)) := by
    funext k
    by_cases hk : k = l
    · simp [place?_snoc, Step.binds, hk, hl]
    · simp [place?_snoc, Step.binds, hk, Ne.symm hk]
  obtain ⟨c, hrun, hc⟩ := exists_patched hl (size p) (a := boundAt a l (size p)) [] [] hplain h.room
    (by rw [List.append_nil]; exact h.code)
  refine ⟨c, ?_, hc.hasRoom h.room, ?_, fun k => ?_, fun k hk => ?_⟩
  · rw [← hrun, ← h.length, List.length_nil, ← h.sites l hl]
    rfl
  · rw [hc.code, hplace, listing_snoc]
    simp [Step.words]
  · rw [congrFun hplace k, hc.labels]
    by_cases hk : k = l
    · simp [boundAt, hk]
    · simp [boundAt, hk, h.position?]
  · rw [congrFun hplace k] at hk
    have hne : k ≠ l := by
      rintro rfl
      simp at hk
    rw [Function.update_of_ne hne] at hk
    rw [hc.labels, uses_snoc, ← h.sites k hk]
    simp [boundAt, hne, Step.use]

theorem step (h : Sound a p) {s : Step} (hplain : ∀ b k, Step.branch b k ∈ p → b.IsPlain)
    (hs : ∀ l, s.binds l → place? l 0 p = none) :
    ∃ c, s.run.run.run a = (.ok (), c) ∧ Sound c (p ++ [s]) := by
  cases s with
  | emit i => exact ⟨_, run_emitInstr a i, h.emit i⟩
  | branch b l => exact h.branch b l
  | bind l => exact h.bind hplain (hs l (by simp [Step.binds]))

end Sound

def runAll (p : List Step) : Except Fault Unit × Assembly := (p.forM Step.run).run.run {}

def assembled (p : List Step) : Assembly := (runAll p).2

theorem runAll_snoc {p : List Step} {a : Assembly} (h : runAll p = (.ok (), a)) (s : Step) :
    runAll (p ++ [s]) = s.run.run.run a := by
  have happend : (p ++ [s]).forM Step.run = p.forM Step.run >>= fun _ => s.run := by
    have hlast : [s].forM Step.run = s.run := bind_pure_unit
    rw [← hlast]
    exact List.forM_append
  rw [runAll, happend, run_bind_of_ok h]

theorem place?_eq_none {l : Nat} {p : List Step} (h : p.countP (Step.binds l) = 0) (position : Nat) :
    place? l position p = none := by
  induction p generalizing position with
  | nil => rfl
  | cons s p ih =>
    have hnone := List.countP_eq_zero.mp h
    rw [place?, if_neg (hnone s List.mem_cons_self)]
    exact ih (List.countP_eq_zero.mpr fun t ht => hnone t (List.mem_cons_of_mem s ht)) _

theorem sound_assembled {p : List Step} (honce : ∀ l, p.countP (Step.binds l) ≤ 1)
    (hplain : ∀ b l, Step.branch b l ∈ p → b.IsPlain) :
    runAll p = (.ok (), assembled p) ∧ Sound (assembled p) p := by
  induction p using List.reverseRecOn with
  | nil => exact ⟨rfl, sound_empty⟩
  | append_singleton p s ih =>
    simp only [List.countP_append, List.countP_singleton] at honce
    obtain ⟨hrun, hsound⟩ := ih (fun l => (Nat.le_add_right ..).trans (honce l))
      fun b l hb => hplain b l (List.mem_append_left _ hb)
    have hfree (l : Nat) (hs : s.binds l) : place? l 0 p = none := by
      have := honce l
      rw [if_pos hs] at this
      exact place?_eq_none (by omega) 0
    obtain ⟨c, hstep, hc⟩ := hsound.step (fun b l hb => hplain b l (List.mem_append_left _ hb)) hfree
    have hall := (runAll_snoc hrun s).trans hstep
    rw [assembled, hall]
    exact ⟨rfl, hc⟩

theorem place?_of_bind {l : Nat} {front back : List Step}
    (honce : (front ++ Step.bind l :: back).countP (Step.binds l) ≤ 1) :
    place? l 0 (front ++ Step.bind l :: back) = some (size front) := by
  have hbinds : Step.binds l (.bind l) = true := by simp [Step.binds]
  rw [List.countP_append, List.countP_cons, if_pos hbinds] at honce
  rw [place?_append, place?_eq_none (by omega), place?, if_pos hbinds]
  simp

theorem exists_branch_of_ne {places places' : Nat → Option Nat} {l : Nat}
    (hplaces : ∀ k, k ≠ l → places' k = places k) {p : List Step} {position i : Nat}
    (h : (codeOf (listing places' position p))[i]? ≠ (codeOf (listing places position p))[i]?) :
    ∃ front b back, p = front ++ Step.branch b l :: back ∧ size front ≤ i ∧ i < size front + 4 := by
  induction p generalizing position i with
  | nil => exact absurd rfl h
  | cons s p ih =>
    rw [listing, listing, codeOf_append, codeOf_append] at h
    by_cases hi : i < s.size
    · rw [List.getElem?_append_left (by rwa [length_codeOf_words]),
        List.getElem?_append_left (by rwa [length_codeOf_words])] at h
      cases s with
      | emit j => exact absurd rfl h
      | bind k => exact absurd rfl h
      | branch b k =>
        obtain rfl : k = l := by
          by_contra hk
          rw [Step.words, Step.words, Branch.word, Branch.word, hplaces k hk] at h
          exact h rfl
        exact ⟨[], b, p, rfl, Nat.zero_le _, by simpa [size, Step.size] using hi⟩
    · rw [List.getElem?_append_right (by rw [length_codeOf_words]; omega),
        List.getElem?_append_right (by rw [length_codeOf_words]; omega), length_codeOf_words,
        length_codeOf_words] at h
      obtain ⟨front, b, back, rfl, hl, hu⟩ := ih h
      have hsize : size (s :: front) = s.size + size front := by simp [size]
      exact ⟨s :: front, b, back, rfl, by omega, by omega⟩

theorem four_dvd_size (p : List Step) : 4 ∣ size p := by
  induction p with
  | nil => exact dvd_zero 4
  | cons s p ih =>
    have hs : 4 ∣ s.size := by cases s <;> simp [Step.size]
    simpa [size] using dvd_add hs ih

theorem Sound.holds_words {a : Assembly} {before after : List Step} {s : Step}
    (h : Sound a (before ++ s :: after)) :
    a.code.Holds (size before)
      (codeOf (s.words (place? · 0 (before ++ s :: after)) (size before))) := by
  rw [h.code]
  generalize (place? · 0 (before ++ s :: after)) = places
  have hheld := Code.holds_append (codeOf (listing places 0 before)) (codeOf (s.words places (size before)))
  rw [length_codeOf_listing] at hheld
  rw [listing_append, codeOf_append, listing, codeOf_append, ← List.append_assoc, Nat.zero_add]
  exact hheld.append_right _

section Program

variable {p : List Step} (honce : ∀ s ∈ p, ∀ l, s.label? = some l → p.countP (Step.binds l) = 1)
  (hplain : ∀ b l, Step.branch b l ∈ p → b.IsPlain)

include honce

theorem countP_binds_le (l : Nat) : p.countP (Step.binds l) ≤ 1 := by
  rcases Nat.eq_zero_or_pos (p.countP (Step.binds l)) with hzero | hpos
  · omega
  · obtain ⟨s, hs, hbinds⟩ := List.countP_pos_iff.mp hpos
    obtain rfl := Step.eq_bind hbinds
    exact (honce _ hs l rfl).le

include hplain

theorem sound_before {before after : List Step} (hp : p = before ++ after) :
    runAll before = (.ok (), assembled before) ∧ Sound (assembled before) before := by
  have hsublist : before.Sublist p := hp ▸ List.sublist_append_left before after
  exact sound_assembled (fun l => hsublist.countP_le.trans (countP_binds_le honce l))
    fun b l hb => hplain b l (hsublist.subset hb)

theorem holds_branch {before after front back : List Step} {b : Branch} {l : Nat}
    (hp : p = before ++ Step.branch b l :: after) (hl : p = front ++ Step.bind l :: back) :
    (assembled p).code.Holds (assembled before).code.length
      (Code.littleEndian 4 (b.instr (BitVec.ofInt 32
        ((assembled front).code.length - (assembled before).code.length)))) := by
  have hplace : place? l 0 p = some (size front) := by
    rw [hl]
    exact place?_of_bind (hl ▸ countP_binds_le honce l)
  obtain ⟨-, hsound⟩ := sound_before honce hplain (List.append_nil p).symm
  obtain ⟨-, hbefore⟩ := sound_before honce hplain hp
  obtain ⟨-, hfront⟩ := sound_before honce hplain hl
  rw [hp] at hsound
  have hheld := hsound.holds_words
  rwa [← hp, Step.words, Branch.word, hplace, codeOf_singleton, ← hbefore.length, ← hfront.length] at hheld

end Program

/-- Labels may be bound before or after the branches to them, in any order. If every label is bound once,
and no branch has to go too far, each branch ends up as the word that it would have been written as with
its label in place, which is read as the same test and leads to the label. Binding a label changes the
branches to it and no other word. -/
theorem branches_resolved (p : List Step)
    (honce : ∀ s ∈ p, ∀ l, s.label? = some l → p.countP (Step.binds l) = 1)
    (hplain : ∀ b l, Step.branch b l ∈ p → b.IsPlain)
    (hspans : ∀ before b l after front back, p = before ++ Step.branch b l :: after →
      p = front ++ Step.bind l :: back →
      b.Spans ((assembled front).code.length - (assembled before).code.length)) :
    (runAll p).1 = .ok () ∧
    (∀ before b l after, p = before ++ Step.branch b l :: after →
      ∃ front back, ∃ i : Instr, ∃ j, p = front ++ Step.bind l :: back ∧
        (assembled p).code.Holds (assembled before).code.length (Code.littleEndian 4 i) ∧
        (b.toLabel l).run.run (boundAt (assembled before) l (assembled front).code.length) =
          (.ok (), appended (boundAt (assembled before) l (assembled front).code.length) i) ∧
        i.jump? = some j ∧ j.test = b.test ∧
        (assembled before).code.length + j.distance = (assembled front).code.length) ∧
    (∀ before i after, p = before ++ Step.emit i :: after →
      (assembled p).code.Holds (assembled before).code.length (Code.littleEndian 4 i)) ∧
    ∀ before l after, p = before ++ Step.bind l :: after → ∀ n,
      (assembled (before ++ [Step.bind l])).code[n]? ≠ (assembled before).code[n]? →
      ∃ front b back, before = front ++ Step.branch b l :: back ∧
        (assembled front).code.length ≤ n ∧ n < (assembled front).code.length + 4 := by
  obtain ⟨hrun, hsound⟩ := sound_before honce hplain (List.append_nil p).symm
  refine ⟨by rw [hrun], ?_, ?_, ?_⟩
  · intro before b l after hp
    have hmem : Step.branch b l ∈ p := by simp [hp]
    obtain ⟨s, hs, hbinds⟩ := List.countP_pos_iff.mp (honce _ hmem l rfl ▸ Nat.one_pos)
    obtain ⟨front, back, hl⟩ := List.append_of_mem hs
    obtain rfl := Step.eq_bind hbinds
    obtain ⟨-, hbefore⟩ := sound_before honce hplain hp
    obtain ⟨-, hfront⟩ := sound_before honce hplain hl
    have hfour : 4 ∣ ((assembled front).code.length - (assembled before).code.length : Int) := by
      rw [hbefore.length, hfront.length]
      exact dvd_sub (Int.natCast_dvd_natCast.mpr (four_dvd_size _))
        (Int.natCast_dvd_natCast.mpr (four_dvd_size _))
    refine ⟨front, back, _, _, hl, holds_branch honce hplain hp hl, ?_,
      Branch.jump?_instr (hplain b l hmem) hfour (hspans before b l after front back hp hl), rfl, ?_⟩
    · exact run_toLabel_known b (by simp [boundAt])
    · exact add_sub_cancel ..
  · intro before i after hp
    obtain ⟨-, hbefore⟩ := sound_before honce hplain hp
    rw [hp] at hsound
    have hheld := hsound.holds_words
    rwa [← hp, Step.words, codeOf_singleton, ← hbefore.length] at hheld
  · intro before l after hp n hn
    obtain ⟨-, hbefore⟩ := sound_before honce hplain hp
    obtain ⟨-, hbound⟩ := sound_before honce hplain (hp.trans (List.append_cons ..))
    have hplaces (k : Nat) (hk : k ≠ l) : place? k 0 (before ++ [Step.bind l]) = place? k 0 before := by
      simp [place?_snoc, Step.binds, Ne.symm hk]
    rw [hbefore.code, hbound.code, listing_snoc, Step.words, List.append_nil] at hn
    obtain ⟨front, b, back, rfl, hl, hu⟩ := exists_branch_of_ne hplaces hn
    obtain ⟨-, hfront⟩ := sound_before honce hplain (hp.trans (List.append_assoc ..))
    exact ⟨front, b, back, rfl, by rwa [hfront.length], by rwa [hfront.length]⟩

/-- A program with branches in both directions. -/
def crossing : List Step :=
  [.branch (.onRegister true 64 (.general 3)) 1, .branch (.onFlag .gt) 0, .emit Instr.nop, .bind 1,
    .branch .always 0, .branch (.onRegister false 32 (.general 30)) 1, .bind 0, .branch (.onFlag .ne) 0]

theorem branches_resolved_crossing :
    (∀ s ∈ crossing, ∀ l, s.label? = some l → crossing.countP (Step.binds l) = 1) ∧
    (∀ b l, Step.branch b l ∈ crossing → b.IsPlain) ∧
    (∀ before b l after front back, crossing = before ++ Step.branch b l :: after →
      crossing = front ++ Step.bind l :: back →
      b.Spans ((assembled front).code.length - (assembled before).code.length)) ∧
    (runAll crossing).1 = .ok () ∧
    ∃ front back, ∃ i : Instr, ∃ j, crossing = front ++ Step.bind 1 :: back ∧
      (assembled crossing).code.Holds (assembled []).code.length (Code.littleEndian 4 i) ∧
      ((Branch.onRegister true 64 (.general 3)).toLabel 1).run.run
          (boundAt (assembled []) 1 (assembled front).code.length) =
        (.ok (), appended (boundAt (assembled []) 1 (assembled front).code.length) i) ∧
      i.jump? = some j ∧ j.test = .register true 64 3 ∧
      (assembled []).code.length + j.distance = (assembled front).code.length := by
  have honce : ∀ s ∈ crossing, ∀ l, s.label? = some l → crossing.countP (Step.binds l) = 1 := by
    simp [crossing, Step.label?, Step.binds]
  have hplain : ∀ b l, Step.branch b l ∈ crossing → b.IsPlain := by
    intro b l h
    simp only [crossing, List.mem_cons, List.not_mem_nil, Step.branch.injEq, reduceCtorEq, false_or,
      or_false] at h
    rcases h with ⟨rfl, -⟩ | ⟨rfl, -⟩ | ⟨rfl, -⟩ | ⟨rfl, -⟩ | ⟨rfl, -⟩ <;> simp [Branch.IsPlain]
  have hle {before after : List Step} (hp : crossing = before ++ after) :
      (assembled before).code.length ≤ 24 := by
    obtain ⟨-, hsound⟩ := sound_before honce hplain hp
    have hsize : size crossing = size before + size after := by rw [hp, size_append]
    have hall : size crossing = 24 := rfl
    rw [hsound.length]
    omega
  have hspans : ∀ before b l after front back, crossing = before ++ Step.branch b l :: after →
      crossing = front ++ Step.bind l :: back →
      b.Spans ((assembled front).code.length - (assembled before).code.length) := by
    intro before b l after front back hp hl
    have hbefore := hle hp
    have hfront := hle hl
    cases b <;> simp only [Branch.Spans] <;> omega
  obtain ⟨hok, hbranch, -⟩ := branches_resolved crossing honce hplain hspans
  exact ⟨honce, hplain, hspans, hok, hbranch [] _ 1 _ rfl⟩

end CompilerKit.Aarch64
