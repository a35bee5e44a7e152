import CompilerKit.Amd64.Branch
import CompilerKit.Proofs.Assembly.Assembler

/-! # Branches in the code

How the processor reads a branch, and that the forms of a branch are read back as itself. Patching a branch
gives it another target and leaves all other bytes alone; so does patching several branches that do not
overlap, one after the other. A short branch cannot be patched if it does not reach its target.
-/

namespace CompilerKit.Amd64

open Assembler

/-! Reading branches. -/

/-- A branch as the processor reads it: the number of its flag test if it has one, how long it is, and
the distance from its end. -/
structure Jump where
  test : Option (BitVec 4)
  length : Nat
  displacement : Int
  deriving DecidableEq

def longTest? : Code → Option Jump
  | [] => none
  | b :: code =>
    if b.extractLsb' 4 4 = 8 then
      (Code.signed? 4 code).map fun d => ⟨some (b.extractLsb' 0 4), 6, d.1.toInt⟩
    else none

/-- Reads the four forms of a branch. -/
def jump? : Code → Option Jump
  | [] => none
  | b :: code =>
    if b = 0xEB then (Code.signed? 1 code).map fun d => ⟨none, 2, d.1.toInt⟩
    else if b = 0xE9 then (Code.signed? 4 code).map fun d => ⟨none, 5, d.1.toInt⟩
    else if b.extractLsb' 4 4 = 7 then
      (Code.signed? 1 code).map fun d => ⟨some (b.extractLsb' 0 4), 2, d.1.toInt⟩
    else if b = 0x0F then longTest? code
    else none

namespace Branch

def test : Branch → Option (BitVec 4)
  | always => none
  | onFlag c => some c.encoding

/-- The bytes that hold a flag test are told apart from other opcodes by their upper halves. -/
theorem bits_of_test : ∀ n : BitVec 4,
    (7#4 ++ n : Byte) ≠ 0xEB ∧ (7#4 ++ n : Byte) ≠ 0xE9 ∧ (7#4 ++ n : Byte).extractLsb' 4 4 = 7 ∧
      (7#4 ++ n : Byte).extractLsb' 0 4 = n ∧ (8#4 ++ n : Byte).extractLsb' 4 4 = 8 ∧
      (8#4 ++ n : Byte).extractLsb' 0 4 = n := by
  decide

theorem jump?_short (b : Branch) {d : Int} (hd : fitsByte d) (rest : Code) :
    jump? ((b.short d).bytes ++ rest) = some ⟨b.test, 2, d⟩ := by
  obtain ⟨hl, hu⟩ : -128 ≤ d ∧ d ≤ 127 := by simpa [fitsByte] using hd
  obtain ⟨v, hread, hv⟩ :=
    Code.signed?_ofInt (n := 1) (d := d) (by decide) (by decide) (by omega) (by omega) rest
  have hbytes (opcode : Byte) : opcode :: BitVec.ofInt 8 d :: rest =
      opcode :: (Code.littleEndian 1 (BitVec.ofInt (8 * 1) d) ++ rest) := by
    simp [Code.littleEndian]
  cases b with
  | always =>
    calc jump? ((always.short d).bytes ++ rest)
      _ = jump? (0xEB :: (Code.littleEndian 1 (BitVec.ofInt (8 * 1) d) ++ rest)) := by rw [← hbytes]; rfl
      _ = some ⟨none, 2, d⟩ := by rw [jump?, if_pos rfl, hread, Option.map_some, hv]
  | onFlag c =>
    obtain ⟨hne, hne', hhigh, hlow, -⟩ := bits_of_test c.encoding
    calc jump? (((onFlag c).short d).bytes ++ rest)
      _ = jump? ((7#4 ++ c.encoding) :: (Code.littleEndian 1 (BitVec.ofInt (8 * 1) d) ++ rest)) := by
        rw [← hbytes]; rfl
      _ = some ⟨some c.encoding, 2, d⟩ := by
        rw [jump?, if_neg hne, if_neg hne', if_pos hhigh, hread, Option.map_some, hv, hlow]

theorem jump?_long (b : Branch) {d : Int} (hl : -2 ^ 31 ≤ d) (hu : d < 2 ^ 31) (rest : Code) :
    jump? ((b.long d).bytes ++ rest) = some ⟨b.test, b.longSize, d⟩ := by
  obtain ⟨v, hread, hv⟩ := Code.signed?_ofInt (n := 4) (by decide) (by decide) hl hu rest
  cases b with
  | always =>
    change jump? (0xE9 :: (Code.littleEndian 4 (BitVec.ofInt (8 * 4) d) ++ rest)) = _
    rw [jump?, if_neg (by decide), if_pos rfl, hread, Option.map_some, hv]
    rfl
  | onFlag c =>
    obtain ⟨-, -, -, -, hhigh, hlow⟩ := bits_of_test c.encoding
    change jump? (0x0F :: (8#4 ++ c.encoding) :: (Code.littleEndian 4 (BitVec.ofInt (8 * 4) d) ++ rest)) = _
    rw [jump?, if_neg (by decide), if_neg (by decide), if_neg (by decide), if_pos rfl, longTest?,
      if_pos hhigh, hread, Option.map_some, hv, hlow]
    rfl

theorem length_long (b : Branch) (d : Int) : (b.long d).bytes.length = b.longSize := by
  cases b <;> rfl

theorem bytes_long (b : Branch) (d : Int) :
    (b.long d).bytes = b.longOpcode.bytes ++ Code.littleEndian 4 (BitVec.ofInt 32 d) := by
  cases b <;> rfl

theorem length_longOpcode (b : Branch) : b.longOpcode.bytes.length = b.longOpcode.length := by
  cases b <;> rfl

theorem bytes_short (b : Branch) (d : Int) :
    (b.short d).bytes = b.shortOpcode.bytes ++ [BitVec.ofInt 8 d] := by
  cases b <;> rfl

theorem length_shortOpcode (b : Branch) : b.shortOpcode.bytes.length = 1 := by
  cases b <;> rfl

theorem length_short (b : Branch) (d : Int) : (b.short d).bytes.length = 2 := by
  cases b <;> rfl

theorem two_lt_longSize (b : Branch) : 2 < b.longSize := by
  cases b <;> exact Nat.lt_of_sub_eq_succ rfl

theorem jump?_short_ofInt (b : Branch) (d : Int) (rest : Code) :
    jump? ((b.short d).bytes ++ rest) = some ⟨b.test, 2, (BitVec.ofInt 8 d).toInt⟩ := by
  have hbyte : fitsByte (BitVec.ofInt 8 d).toInt := by
    have hl := BitVec.le_toInt (BitVec.ofInt 8 d)
    have hu := BitVec.toInt_lt (x := BitVec.ofInt 8 d)
    simp only [fitsByte, Bool.and_eq_true, decide_eq_true_eq]
    omega
  have hsame : (b.short (BitVec.ofInt 8 d).toInt).bytes = (b.short d).bytes := by
    rw [bytes_short, bytes_short, BitVec.ofInt_toInt]
  rw [← hsame, jump?_short b hbyte]

end Branch

/-! Patching. -/

theorem run_read_first {a : Assembly} {position : Nat} {b : Byte} {bytes : Code} (hroom : HasRoom a)
    (hheld : a.code.Holds position (b :: bytes)) :
    (read position 1).run.run a = (.ok b.toNat, a) := by
  have hfirst : a.code[position]? = some b := hheld 0 (by simp)
  have hlt : position < a.code.length := hheld.lt_length (i := 0) (by simp)
  rw [run_read (Nat.succ_le_of_lt (hlt.trans hroom))]
  simp [Assembly.byteAt, hfirst, Code.toNat]

theorem run_patch {a : Assembly} {b : Branch} {d : Int} {position : Nat} (hroom : HasRoom a)
    (hheld : a.code.Holds position (b.long d).bytes) (target : Nat) :
    (patch position target).run.run a = (.ok (), a.overwrite (position + b.longOpcode.length)
      (Code.littleEndian 4 (BitVec.ofInt 32 (target - (position + b.longSize : Nat))))) := by
  have hend : position + b.longSize ≤ a.code.length := by
    have := hheld.lt_length (i := b.longSize - 1) (by rw [b.length_long, Branch.longSize]; omega)
    omega
  have hoverwrite := run_overwrite (position + b.longOpcode.length)
    (Code.littleEndian 4 (BitVec.ofInt 32 ((target : Int) - (position + b.longSize : Nat)))) hroom
    (by rw [Code.length_littleEndian]; exact hend)
  cases b with
  | always =>
    rw [patch, run_bind_of_ok (run_read_first (b := 0xE9) hroom hheld)]
    rw [← hoverwrite]
    rfl
  | onFlag c =>
    rw [patch, run_bind_of_ok (run_read_first (b := 0x0F) hroom hheld)]
    rw [← hoverwrite]
    rfl

theorem Branch.holds_overwrite {code : Code} {position : Nat} {b : Branch} {d : Int}
    (h : code.Holds position (b.long d).bytes) (e : Int) :
    (code.overwrite (position + b.longOpcode.length)
      (Code.littleEndian 4 (BitVec.ofInt 32 e))).Holds position (b.long e).bytes := by
  rw [bytes_long, Code.holds_append_iff, length_longOpcode] at h ⊢
  constructor
  · refine h.1.of_eq fun i hlo hhi => ?_
    rw [length_longOpcode] at hhi
    rw [Code.getElem?_overwrite, if_neg (by omega)]
  · apply Code.holds_overwrite
    have := h.2.lt_length (i := 3) (by rw [Code.length_littleEndian]; decide)
    rw [Code.length_littleEndian]
    omega

theorem Branch.holds_overwrite_short {code : Code} {position : Nat} {b : Branch} {d : Int}
    (h : code.Holds position (b.short d).bytes) (e : Int) :
    (code.overwrite (position + 1) [BitVec.ofInt 8 e]).Holds position (b.short e).bytes := by
  rw [bytes_short, Code.holds_append_iff, length_shortOpcode] at h ⊢
  constructor
  · refine h.1.of_eq fun i hlo hhi => ?_
    rw [length_shortOpcode] at hhi
    rw [Code.getElem?_overwrite, if_neg (by omega)]
  · have hend := h.2.lt_length (i := 0) (by simp)
    exact Code.holds_overwrite (by simpa using hend)

/-- The first byte of a short branch is told apart from those of a jump table and of a long branch. -/
theorem toNat_shortOpcode : ∀ n : BitVec 4, (7#4 ++ n : Byte).toNat ≠ 0 ∧ (7#4 ++ n : Byte).toNat / 16 = 7 := by
  decide

theorem exists_read_short {a : Assembly} {b : Branch} {d : Int} {position : Nat} (hroom : HasRoom a)
    (hheld : a.code.Holds position (b.short d).bytes) :
    ∃ opcode, (read position 1).run.run a = (.ok opcode, a) ∧ opcode ≠ 0 ∧
      (opcode = 0xEB ∨ opcode / 16 = 7) := by
  cases b with
  | always => exact ⟨_, run_read_first (b := 0xEB) hroom hheld, by decide, Or.inl rfl⟩
  | onFlag c =>
    have hopcode := toNat_shortOpcode c.encoding
    exact ⟨_, run_read_first (b := 7#4 ++ c.encoding) hroom hheld, hopcode.1, Or.inr hopcode.2⟩

theorem run_patch_short {a : Assembly} {b : Branch} {d : Int} {position target : Nat} (hroom : HasRoom a)
    (hheld : a.code.Holds position (b.short d).bytes) (hlength : a.code.length < 2 ^ 31)
    (ht : target < 2 ^ 31) : (patch position target).run.run a =
      if fitsByte (target - (position + 2)) then
        (.ok (), a.overwrite (position + 1) [BitVec.ofInt 8 (target - (position + 2))])
      else (.error (.branchTooFar (target - (position + 2))), a) := by
  obtain ⟨opcode, hread, hzero, hshort⟩ := exists_read_short hroom hheld
  have hend : position + 1 < a.code.length := hheld.lt_length (i := 1) (by rw [b.length_short]; decide)
  have hdistance : (BitVec.ofInt 32 ((target : Int) - (position + 2))).toInt = target - (position + 2) := by
    rw [BitVec.toInt_ofInt, Word.bmod_of_range (by decide) (by omega) (by omega)]
  rw [patch, run_bind_of_ok hread, if_neg hzero, if_pos hshort]
  simp only [hdistance]
  split
  · exact run_overwrite (position + 1) [BitVec.ofInt 8 (target - (position + 2))] hroom hend
  · rfl

/-! Several branches, of either form. -/

/-- A branch that has been written: where it stands, what it is, which label it leads to, how many bytes
it has, whether it was written before its label was bound, and whether it was forced to be short. -/
structure Site where
  position : Nat
  branch : Branch
  label : Nat
  size : Nat
  isForward : Bool
  isForced : Bool

namespace Site

/-- Branches that do not overlap. -/
def Apart (s t : Site) : Prop :=
  s.position + s.size ≤ t.position ∨ t.position + t.size ≤ s.position

instance : Std.Symm Apart := ⟨fun _ _ => Or.symm⟩

/-- Where the displacement starts. -/
def field (s : Site) : Nat := s.position + if s.size = 2 then 1 else s.branch.longOpcode.length

def code (s : Site) (d : Int) : Code :=
  if s.size = 2 then (s.branch.short d).bytes else (s.branch.long d).bytes

def distance (s : Site) (target : Nat) : Int := target - (s.position + s.size : Nat)

def fits (s : Site) (target : Nat) : Bool := s.size ≠ 2 || fitsByte (s.distance target)

/-- The size is that of one of the forms. -/
def Formed (s : Site) : Prop := s.size = 2 ∨ s.size = s.branch.longSize

theorem Formed.length_code {s : Site} (h : s.Formed) (d : Int) : (s.code d).length = s.size := by
  rw [code]
  split
  case isTrue hshort => rw [Branch.length_short, hshort]
  case isFalse hlong => rw [Branch.length_long, h.resolve_left hlong]

theorem size_ne_two {s : Site} (h : s.size = s.branch.longSize) : s.size ≠ 2 := by
  rw [h]
  exact s.branch.two_lt_longSize.ne'

/-- A branch that reaches its target is read back as itself. -/
theorem Formed.exists_jump {s : Site} {target : Nat} (h : s.Formed) (hfits : s.fits target)
    (hend : s.position + s.size < 2 ^ 31) (ht : target < 2 ^ 31) (rest : Code) :
    ∃ j, jump? (s.code (s.distance target) ++ rest) = some j ∧ j.test = s.branch.test ∧
      j.length = s.size ∧ s.position + j.length + j.displacement = target := by
  rw [code]
  split
  case isTrue hshort =>
    have hbyte : fitsByte (s.distance target) := by simpa [fits, hshort] using hfits
    refine ⟨_, s.branch.jump?_short hbyte rest, rfl, hshort.symm, ?_⟩
    rw [distance, hshort]
    push_cast
    ring
  case isFalse hlong =>
    have hsize := h.resolve_left hlong
    refine ⟨_, s.branch.jump?_long ?_ ?_ rest, rfl, hsize.symm, ?_⟩ <;> rw [distance]
    · omega
    · omega
    · rw [hsize]
      push_cast
      ring

end Site

/-- The branches at some sites lead to a target, and nothing changes elsewhere. -/
structure Redirected (sites : List Site) (target : Nat) (a b : Assembly) : Prop where
  labels : b.labels = a.labels
  capacity : b.capacity = a.capacity
  length : b.code.length = a.code.length
  frame : ∀ i, (∀ s ∈ sites, ¬(s.field ≤ i ∧ i < s.position + s.size)) → b.code[i]? = a.code[i]?
  held : ∀ s ∈ sites, b.code.Holds s.position (s.code (s.distance target))

theorem Redirected.hasRoom {sites : List Site} {target : Nat} {a b : Assembly}
    (h : Redirected sites target a b) (hroom : HasRoom a) : HasRoom b := by
  rw [HasRoom, h.length, h.capacity]
  exact hroom

theorem Redirected.holds_of_apart {sites : List Site} {target : Nat} {a b : Assembly}
    (h : Redirected sites target a b) {t : Site} (hapart : ∀ s ∈ sites, s.Apart t) {bytes : Code}
    (hlength : bytes.length = t.size) (hheld : a.code.Holds t.position bytes) :
    b.code.Holds t.position bytes := by
  refine hheld.of_eq fun i hlo hhi => h.frame i fun s hs => ?_
  have hapart := hapart s hs
  rw [Site.Apart] at hapart
  rw [Site.field]
  omega

theorem Redirected.cons {s : Site} {sites : List Site} {target : Nat} {a b c : Assembly}
    (hfirst : Redirected [s] target a b) (hrest : Redirected sites target b c) (hs : s.Formed)
    (hapart : ∀ t ∈ sites, s.Apart t) : Redirected (s :: sites) target a c where
  labels := hrest.labels.trans hfirst.labels
  capacity := hrest.capacity.trans hfirst.capacity
  length := hrest.length.trans hfirst.length
  frame i hi := by
    obtain ⟨hout, houts⟩ := List.forall_mem_cons.mp hi
    rw [hrest.frame i houts, hfirst.frame i (List.forall_mem_singleton.mpr hout)]
  held := by
    refine List.forall_mem_cons.mpr ⟨?_, hrest.held⟩
    exact hrest.holds_of_apart (fun t ht => Std.Symm.symm _ _ (hapart t ht)) (hs.length_code _)
      (hfirst.held s List.mem_cons_self)

section Redirect

variable {a : Assembly} {s : Site} {d : Int} {target : Nat}

theorem redirected_of_short (hroom : HasRoom a) (hheld : a.code.Holds s.position (s.branch.short d).bytes)
    (hlength : a.code.length < 2 ^ 31) (ht : target < 2 ^ 31) (hsize : s.size = 2)
    (hfits : fitsByte (s.distance target)) :
    ∃ b, (patch s.position target).run.run a = (.ok (), b) ∧ Redirected [s] target a b := by
  have hdistance : s.distance target = target - (s.position + 2) := by
    rw [Site.distance, hsize]
    rfl
  rw [hdistance] at hfits
  refine ⟨_, (run_patch_short hroom hheld hlength ht).trans (if_pos hfits), rfl, rfl,
    Code.length_overwrite .., ?_, ?_⟩
  · intro i hi
    have hi := List.forall_mem_singleton.mp hi
    rw [Site.field, if_pos hsize] at hi
    rw [Assembly.overwrite, Code.getElem?_overwrite, List.length_singleton, if_neg (by omega)]
  · refine List.forall_mem_singleton.mpr ?_
    rw [Site.code, if_pos hsize, hdistance]
    exact Branch.holds_overwrite_short hheld _

theorem redirected_of_long (hroom : HasRoom a) (hheld : a.code.Holds s.position (s.branch.long d).bytes)
    (hsize : s.size = s.branch.longSize) :
    ∃ b, (patch s.position target).run.run a = (.ok (), b) ∧ Redirected [s] target a b := by
  have hlong := Site.size_ne_two hsize
  refine ⟨_, run_patch hroom hheld target, rfl, rfl, Code.length_overwrite .., ?_, ?_⟩
  · intro i hi
    have hi := List.forall_mem_singleton.mp hi
    rw [Site.field, if_neg hlong, hsize, Branch.longSize] at hi
    rw [Assembly.overwrite, Code.getElem?_overwrite, Code.length_littleEndian, if_neg (by omega)]
  · refine List.forall_mem_singleton.mpr ?_
    rw [Site.code, if_neg hlong, Site.distance, hsize]
    exact Branch.holds_overwrite hheld _

theorem redirected_or_tooFar (hroom : HasRoom a) (hheld : a.code.Holds s.position (s.code d))
    (hs : s.Formed) (hlength : a.code.length < 2 ^ 31) (ht : target < 2 ^ 31) :
    (s.fits target ∧ ∃ b, (patch s.position target).run.run a = (.ok (), b) ∧ Redirected [s] target a b) ∨
      ¬s.fits target ∧
        (patch s.position target).run.run a = (.error (.branchTooFar (s.distance target)), a) := by
  rw [Site.code] at hheld
  split at hheld
  case isTrue hshort =>
    have hfits : s.fits target = fitsByte (s.distance target) := by
      simp [Site.fits, hshort]
    rw [hfits]
    cases hbyte : fitsByte (s.distance target) with
    | true => exact Or.inl ⟨rfl, redirected_of_short hroom hheld hlength ht hshort hbyte⟩
    | false =>
      refine Or.inr ⟨Bool.false_ne_true, ?_⟩
      have hrun := run_patch_short hroom hheld hlength ht
      rw [Site.distance, hshort] at hbyte ⊢
      rwa [if_neg (by simpa using hbyte)] at hrun
  case isFalse hlong =>
    exact Or.inl ⟨by simp [Site.fits, hlong], redirected_of_long hroom hheld (hs.resolve_left hlong)⟩

end Redirect

theorem allRedirected_or_tooFar {a : Assembly} (hroom : HasRoom a) {target : Nat}
    (hlength : a.code.length < 2 ^ 31) (ht : target < 2 ^ 31) {sites : List Site}
    (hapart : sites.Pairwise Site.Apart) (hformed : ∀ s ∈ sites, s.Formed)
    (hheld : ∀ s ∈ sites, ∃ d, a.code.Holds s.position (s.code d)) :
    ((∀ s ∈ sites, s.fits target) ∧
      ∃ b, ((sites.map Site.position).forM fun p => patch p target).run.run a = (.ok (), b) ∧
        Redirected sites target a b) ∨
    ∃ s ∈ sites, ¬s.fits target ∧
      (((sites.map Site.position).forM fun p => patch p target).run.run a).1 =
        .error (.branchTooFar (s.distance target)) := by
  induction sites generalizing a with
  | nil =>
    refine Or.inl ⟨by rintro s ⟨⟩, a, rfl, rfl, rfl, rfl, fun _ _ => rfl, ?_⟩
    rintro s ⟨⟩
  | cons s sites ih =>
    obtain ⟨hfirst, hrest⟩ := List.pairwise_cons.mp hapart
    obtain ⟨hs, hsites⟩ := List.forall_mem_cons.mp hformed
    obtain ⟨⟨d, hd⟩, hheld⟩ := List.forall_mem_cons.mp hheld
    rcases redirected_or_tooFar hroom hd hs hlength ht with ⟨hfits, c, hpatch, hc⟩ | ⟨hfar, hpatch⟩
    · -- The other sites still hold their branches when the first one has been redirected.
      have hkept (t : Site) (ht : t ∈ sites) : ∃ e, c.code.Holds t.position (t.code e) := by
        obtain ⟨e, he⟩ := hheld t ht
        exact ⟨e, hc.holds_of_apart (List.forall_mem_singleton.mpr (hfirst t ht))
          ((hsites t ht).length_code e) he⟩
      have hcode : c.code.length < 2 ^ 31 := hc.length ▸ hlength
      have hrun := run_bind_of_ok hpatch fun _ => (sites.map Site.position).forM fun p => patch p target
      rcases ih (hc.hasRoom hroom) hcode hrest hsites hkept with ⟨hall, b, hrest', hb⟩ | ⟨t, hmem, hfar, herror⟩
      · exact Or.inl ⟨List.forall_mem_cons.mpr ⟨hfits, hall⟩, b, hrun.trans hrest', hc.cons hb hs hfirst⟩
      · exact Or.inr ⟨t, List.mem_cons_of_mem s hmem, hfar, (congrArg Prod.fst hrun).trans herror⟩
    · refine Or.inr ⟨s, List.mem_cons_self, hfar, ?_⟩
      change ((patch s.position target >>= fun _ =>
        (sites.map Site.position).forM fun p => patch p target).run.run a).1 = _
      rw [run_bind, hpatch]

end CompilerKit.Amd64
