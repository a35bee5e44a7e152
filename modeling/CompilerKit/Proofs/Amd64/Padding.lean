import CompilerKit.Amd64.Instruction
import CompilerKit.Proofs.Amd64.RoundTrip
import CompilerKit.Proofs.Assembly.Assembler

/-! # Padding has no effect

The processor reads padding as instructions without effect, which end where the padding ends. It has
exactly the length that was asked for, so that aligned code starts at a multiple.
-/

namespace CompilerKit.Amd64

namespace Decoder

/-- Reads the opcode and the operand of an instruction without effect. The operand is in memory, which is
not accessed. -/
def idleOpcode? : Code → Option Code
  | 0x90#8 :: rest => some rest
  | 0x0F#8 :: 0x1F#8 :: b :: rest =>
    if b.extractLsb' 3 3 = 0 ∧ b.extractLsb' 6 2 ≠ 3 then
      (address? {} (b.extractLsb' 6 2) (b.extractLsb' 0 3) rest).map Prod.snd
    else none
  | _ => none

/-- Reads one instruction without effect, behind any number of prefixes for the operand size. No
instruction has more than fifteen bytes. -/
def idle? (code : Code) : Option Code :=
  (idleOpcode? (code.dropWhile (· = 0x66))).filter fun rest => code.length ≤ rest.length + 15

/-- The code is a sequence of whole instructions without effect. -/
inductive IsIdle : Code → Prop
  | nil : IsIdle []
  | cons {code rest : Code} (first : idle? code = some rest) (others : IsIdle rest) : IsIdle code

theorem idle?_prefixed {n : Nat} {code rest : Code} (hread : idleOpcode? (code ++ rest) = some rest)
    (hhead : ∃ b tail, code = b :: tail ∧ b ≠ 0x66) (hlength : n + code.length ≤ 15) :
    idle? (List.replicate n 0x66 ++ code ++ rest) = some rest := by
  obtain ⟨b, tail, rfl, hb⟩ := hhead
  have hskip : (List.replicate n 0x66 ++ (b :: tail) ++ rest).dropWhile (· = 0x66) = b :: tail ++ rest := by
    rw [List.append_assoc, List.dropWhile_append_of_pos, List.cons_append,
      List.dropWhile_cons_of_neg (by simpa using hb)]
    intro c hc
    simpa using List.eq_of_mem_replicate hc
  rw [idle?, hskip, hread, Option.filter_some, if_pos]
  simp only [List.length_append, List.length_replicate, decide_eq_true_eq]
  omega

section

variable {mode : BitVec 2} {d : BitVec 32} {code rest : Code}

theorem snd_address?_alone (hmode : mode ≠ 0)
    (hread : Code.signed? (displacementLength mode) code = some (d, rest)) :
    (address? {} mode 0 code).map Prod.snd = some rest := by
  have haddress := @address?_alone {} 0 rfl (by decide) mode (fun h => absurd h hmode) code
  rw [show (0 : BitVec 4).setWidth 3 = 0 from rfl, hread] at haddress
  rw [haddress]
  rfl

theorem snd_address?_indexed (hmode : mode ≠ 0)
    (hread : Code.signed? (displacementLength mode) code = some (d, rest)) :
    (address? {} mode 4 (0 :: code)).map Prod.snd = some rest := by
  have haddress := @address?_indexed {} 0 0 rfl (by decide) rfl .times1 mode (fun h => absurd h hmode) code
  rw [show scaleIndexBase Scale.times1.log2 ((0 : BitVec 4).setWidth 3) ((0 : BitVec 4).setWidth 3) = 0 from rfl,
    hread] at haddress
  rw [haddress]
  rfl

end

end Decoder

open Decoder

namespace Padding

theorem idleOpcode?_addressed {k : Nat} (hk : k ∈ [4, 5, 7, 8]) (rest : Code) :
    idleOpcode? ((addressed k).bytes ++ rest) = some rest := by
  have hbyte : Code.signed? 1 (0 :: rest) = some (0, rest) := Code.signed?_littleEndian 1 0#8 rest
  have hfour : Code.signed? 4 (0 :: 0 :: 0 :: 0 :: rest) = some (0, rest) := signed?_four 0 rest
  simp only [List.mem_cons, List.not_mem_nil, or_false] at hk
  obtain rfl | rfl | rfl | rfl := hk
  · exact @snd_address?_alone 1 _ _ _ (by decide) hbyte
  · exact @snd_address?_indexed 1 _ _ _ (by decide) hbyte
  · exact @snd_address?_alone 2 _ _ _ (by decide) hfour
  · exact @snd_address?_indexed 2 _ _ _ (by decide) hfour

/-- An instruction of padding: prefixes in front of an opcode that is read to the last byte. -/
structure Reads (bytes : Code) (n : Nat) (code : Code) : Prop where
  split : bytes = List.replicate n 0x66 ++ code
  head : ∃ b tail, code = b :: tail ∧ b ≠ 0x66
  opcode : ∀ rest, idleOpcode? (code ++ rest) = some rest

theorem exists_reads {k : Nat} (hpos : 0 < k) (hk : k ≤ 11) : ∃ n code, Reads (one k).bytes n code := by
  interval_cases k
  · exact ⟨0, [0x90], rfl, ⟨_, _, rfl, by decide⟩, fun _ => rfl⟩
  · exact ⟨1, [0x90], rfl, ⟨_, _, rfl, by decide⟩, fun _ => rfl⟩
  · exact ⟨2, [0x90], rfl, ⟨_, _, rfl, by decide⟩, fun _ => rfl⟩
  · exact ⟨0, _, rfl, ⟨_, _, rfl, by decide⟩, @idleOpcode?_addressed 4 (by decide)⟩
  · exact ⟨0, _, rfl, ⟨_, _, rfl, by decide⟩, @idleOpcode?_addressed 5 (by decide)⟩
  · exact ⟨1, _, rfl, ⟨_, _, rfl, by decide⟩, @idleOpcode?_addressed 5 (by decide)⟩
  · exact ⟨0, _, rfl, ⟨_, _, rfl, by decide⟩, @idleOpcode?_addressed 7 (by decide)⟩
  · exact ⟨0, _, rfl, ⟨_, _, rfl, by decide⟩, @idleOpcode?_addressed 8 (by decide)⟩
  · exact ⟨1, _, rfl, ⟨_, _, rfl, by decide⟩, @idleOpcode?_addressed 8 (by decide)⟩
  · exact ⟨2, _, rfl, ⟨_, _, rfl, by decide⟩, @idleOpcode?_addressed 8 (by decide)⟩
  · exact ⟨3, _, rfl, ⟨_, _, rfl, by decide⟩, @idleOpcode?_addressed 8 (by decide)⟩

theorem length_one : ∀ k ≤ 11, (one k).bytes.length = k := by
  decide

theorem isIdle_one_append {k : Nat} (hk : k ≤ 11) {rest : Code} (hrest : IsIdle rest) :
    IsIdle ((one k).bytes ++ rest) := by
  obtain rfl | hpos := Nat.eq_zero_or_pos k
  · exact hrest
  obtain ⟨n, code, hsplit, hhead, hopcode⟩ := exists_reads hpos hk
  have hlength := length_one k hk
  rw [hsplit, List.length_append, List.length_replicate] at hlength
  rw [hsplit]
  exact .cons (idle?_prefixed (hopcode rest) hhead (by omega)) hrest

/-- At the end the rest is divided between two instructions. -/
theorem firstOfTwo_bounds {n : Nat} (hn : n < 22) :
    firstOfTwo n ≤ 11 ∧ firstOfTwo n ≤ n ∧ n - firstOfTwo n ≤ 11 := by
  unfold firstOfTwo
  split <;> omega

theorem length_fill (n : Nat) : (fill n).bytes.length = n := by
  fun_induction fill n with
  | case1 n hn first =>
    obtain ⟨hfirst, hle, hsecond⟩ := firstOfTwo_bounds hn
    rw [Chunks.bytes_append, List.length_append, length_one _ hfirst, length_one _ hsecond]
    omega
  | case2 n hn ih =>
    rw [Chunks.bytes_append, List.length_append, length_one _ (by decide), ih]
    omega

theorem isIdle_fill (n : Nat) : IsIdle (fill n).bytes := by
  fun_induction fill n with
  | case1 n hn first =>
    obtain ⟨hfirst, -, hsecond⟩ := firstOfTwo_bounds hn
    have hlast := isIdle_one_append hsecond .nil
    rw [List.append_nil] at hlast
    rw [Chunks.bytes_append]
    exact isIdle_one_append hfirst hlast
  | case2 n hn ih =>
    rw [Chunks.bytes_append]
    exact isIdle_one_append (by decide) ih

theorem isIdle_toMultiple (position : Nat) (modulus : Int) : IsIdle (toMultiple position modulus).bytes := by
  unfold toMultiple
  dsimp only
  split
  · exact .nil
  · exact isIdle_fill _

theorem length_toMultiple (position : Nat) {modulus : Int} (hmodulus : 0 < modulus) :
    ((toMultiple position modulus).bytes.length : Int) < modulus ∧
      modulus ∣ position + (toMultiple position modulus).bytes.length := by
  have hrest : Int.tmod position modulus = position % modulus :=
    Int.tmod_eq_emod_of_nonneg (Int.natCast_nonneg position)
  have hnonneg := Int.emod_nonneg position hmodulus.ne'
  have hlt := Int.emod_lt_of_pos position hmodulus
  have hdiv := Int.emod_add_mul_ediv position modulus
  unfold toMultiple
  dsimp only
  rw [hrest]
  split
  case isTrue hzero =>
    exact ⟨hmodulus, Int.dvd_of_emod_eq_zero (by simpa [Chunks.bytes] using hzero)⟩
  case isFalse hne =>
    rw [length_fill, Int.toNat_of_nonneg (by omega)]
    refine ⟨by omega, position / modulus + 1, ?_⟩
    rw [mul_add, mul_one]
    omega

end Padding

/-- The step of a mnemonic appends bytes to the code and leaves the labels alone. -/
def Appends (step? : Option (Assembler (Reply Address))) (a : Assembly) (bytes : Code) : Prop :=
  ∃ step b, step? = some step ∧ step.run.run a = (.ok .none, b) ∧ b.code = a.code ++ bytes ∧
    b.labels = a.labels

theorem appends_nop (n : BitVec 32) (a : Assembly) :
    Appends (instruction? "nop" [.int n]) a (Padding.fill n.toInt.toNat).bytes :=
  ⟨_, _, rfl, rfl, rfl, rfl⟩

theorem appends_align {n : BitVec 32} (hn : n.toInt ≠ 0) (a : Assembly) :
    Appends (instruction? "align" [.int n]) a (Padding.toMultiple a.code.length n.toInt).bytes := by
  obtain ⟨b, hb⟩ : ∃ b, (Assembler.emit (Padding.toMultiple a.code.length n.toInt)).run.run a = (.ok (), b) :=
    ⟨_, rfl⟩
  have halign : (align n.toInt).run.run a = (.ok (), b) := by
    rw [align, if_neg hn, ← hb]
    rfl
  refine ⟨_, b, rfl, ?_, ?_, ?_⟩
  · exact Assembler.run_bind_of_ok halign _
  · cases hb
    rfl
  · cases hb
    rfl

/-- Padding has the length that was asked for and is read as whole instructions without effect. Aligned code
starts at a multiple, behind less padding than the modulus. -/
theorem padding_is_idle (a : Assembly) (count modulus : BitVec 32) :
    (0 ≤ count.toInt → ∃ bytes, Appends (instruction? "nop" [.int count]) a bytes ∧
      (bytes.length : Int) = count.toInt ∧ IsIdle bytes) ∧
    (0 < modulus.toInt → ∃ bytes, Appends (instruction? "align" [.int modulus]) a bytes ∧
      (bytes.length : Int) < modulus.toInt ∧ modulus.toInt ∣ (a.code ++ bytes).length ∧ IsIdle bytes) := by
  constructor
  · intro hcount
    refine ⟨_, appends_nop count a, ?_, Padding.isIdle_fill _⟩
    rw [Padding.length_fill, Int.toNat_of_nonneg hcount]
  · intro hmodulus
    obtain ⟨hlt, hdvd⟩ := Padding.length_toMultiple a.code.length hmodulus
    refine ⟨_, appends_align hmodulus.ne' a, hlt, ?_, Padding.isIdle_toMultiple _ _⟩
    rw [List.length_append, Nat.cast_add]
    exact hdvd

theorem padding_is_idle_behind_return :
    (0 ≤ (61 : BitVec 32).toInt ∧
      ∃ bytes, Appends (instruction? "nop" [.int 61]) { code := [0xC3] } bytes ∧
        (bytes.length : Int) = (61 : BitVec 32).toInt ∧ IsIdle bytes) ∧
    0 < (24 : BitVec 32).toInt ∧
      ∃ bytes, Appends (instruction? "align" [.int 24]) { code := [0xC3] } bytes ∧
        (bytes.length : Int) < (24 : BitVec 32).toInt ∧
        (24 : BitVec 32).toInt ∣ (({ code := [0xC3] } : Assembly).code ++ bytes).length ∧ IsIdle bytes :=
  ⟨⟨by decide, (padding_is_idle { code := [0xC3] } 61 24).1 (by decide)⟩, by decide,
    (padding_is_idle { code := [0xC3] } 61 24).2 (by decide)⟩

end CompilerKit.Amd64
