import CompilerKit.Options.Setting
import CompilerKit.Proofs.Result
import CompilerKit.Proofs.Word

/-! # Numbers in settings

A setting of a numeric option is a decimal number, which a last letter may scale. The number itself is
compared with the limits of 64 bits before it is scaled; the product and its cut to the width of the
option are not looked at again. So a setting is refused or read exactly just where the product stays
inside that width.
-/

namespace CompilerKit

/-! ## Decimal texts -/

namespace Text

/-- Digits that stand for a number, the most significant first. -/
def Decimal (cs : List Char) (n : Nat) : Prop :=
  cs ≠ [] ∧ ∃ ds, cs.mapM digit? = some ds ∧ Nat.ofDigits 10 ds.reverse = n

inductive Numeral : List Char → Int → Prop
  | unsigned {cs : List Char} {n : Nat} (h : Decimal cs n) : Numeral cs n
  | positive {cs : List Char} {n : Nat} (h : Decimal cs n) : Numeral ('+' :: cs) n
  | negative {cs : List Char} {n : Nat} (h : Decimal cs n) : Numeral ('-' :: cs) (-n)

theorem foldlM_map_eq {α β γ : Type} (f : α → Option β) (g : γ → β → γ) (l : List α) (start : γ) :
    l.foldlM (fun c a => (f a).map (g c)) start = (l.mapM f).map fun bs => bs.foldl g start := by
  induction l generalizing start with
  | nil => rfl
  | cons a l ih =>
    rw [List.foldlM_cons, List.mapM_cons]
    cases f a with
    | none => rfl
    | some b =>
      simp only [Option.map_some, Option.bind_eq_bind, Option.bind_some, ih]
      cases l.mapM f <;> rfl

theorem digits?_eq_some {cs : List Char} {n : Nat} : digits? cs = some n ↔ Decimal cs n := by
  cases cs with
  | nil => simp [digits?, Decimal]
  | cons c cs =>
    have value : ∀ ds, Nat.ofDigits 10 (List.reverse ds) = ds.foldl (fun n d => n * 10 + d) 0 := by
      intro ds
      rw [Nat.ofDigits_eq_foldr, List.foldr_reverse]
      simp [Nat.mul_comm, Nat.add_comm]
    rw [digits?, foldlM_map_eq digit? (fun n d => n * 10 + d), Option.map_eq_some_iff, Decimal]
    · simp [value]
    · simp

theorem not_decimal_sign {c : Char} (hc : c = '+' ∨ c = '-') (cs : List Char) (n : Nat) :
    ¬ Decimal (c :: cs) n := by
  rintro ⟨-, ds, hds, -⟩
  have hnone : digit? c = none := by
    obtain rfl | rfl := hc <;> decide
  simp [hnone] at hds

theorem map_digits?_eq_some {cs : List Char} {f : Nat → Int} {n : Int} :
    (digits? cs).map f = some n ↔ ∃ m, Decimal cs m ∧ f m = n := by
  simp only [Option.map_eq_some_iff, digits?_eq_some]

theorem integer?_eq_some {cs : List Char} {n : Int} : integer? cs = some n ↔ Numeral cs n := by
  unfold integer?
  split
  · rename_i cs
    rw [map_digits?_eq_some]
    constructor
    · rintro ⟨m, hm, rfl⟩
      exact .negative hm
    · rintro (h | h | h)
      · exact absurd h (not_decimal_sign (.inr rfl) cs _)
      · exact ⟨_, h, rfl⟩
  · rename_i cs
    rw [map_digits?_eq_some]
    constructor
    · rintro ⟨m, hm, rfl⟩
      exact .positive hm
    · rintro (h | h | h)
      · exact absurd h (not_decimal_sign (.inl rfl) cs _)
      · exact ⟨_, h, rfl⟩
  · rename_i hminus hplus
    rw [map_digits?_eq_some]
    constructor
    · rintro ⟨m, hm, rfl⟩
      exact .unsigned hm
    · rintro (h | h | h)
      · exact ⟨_, h, rfl⟩
      · exact absurd rfl (hplus _)
      · exact absurd rfl (hminus _)

theorem Decimal.exists_getLast? {cs : List Char} {n : Nat} (h : Decimal cs n) :
    ∃ c d, cs.getLast? = some c ∧ digit? c = some d := by
  obtain ⟨hne, ds, hds, -⟩ := h
  obtain ⟨front, c, rfl⟩ := (List.eq_nil_or_concat' cs).resolve_left hne
  rw [List.mapM_append] at hds
  obtain ⟨_, _, hlast⟩ := Option.bind_eq_some_iff.1 hds
  obtain ⟨_, hlast, _⟩ := Option.bind_eq_some_iff.1 hlast
  cases hc : digit? c with
  | none => simp [hc] at hlast
  | some d => exact ⟨c, d, by simp, hc⟩

theorem Numeral.exists_getLast? {cs : List Char} {n : Int} (h : Numeral cs n) :
    ∃ c d, cs.getLast? = some c ∧ digit? c = some d := by
  cases h with
  | unsigned h => exact h.exists_getLast?
  | positive h | negative h =>
    obtain ⟨c, d, hc, hd⟩ := h.exists_getLast?
    exact ⟨c, d, by rw [List.getLast?_cons, hc]; rfl, hd⟩

end Text

/-! ## Scaled numbers -/

namespace Options

open Result Text

def suffixes : List (Char × Nat) :=
  [('k', 2 ^ 10), ('K', 2 ^ 10), ('m', 2 ^ 20), ('M', 2 ^ 20), ('g', 2 ^ 30), ('G', 2 ^ 30),
    ('t', 2 ^ 40), ('T', 2 ^ 40)]

/-- A number and the scale that a letter behind it gives. -/
inductive Scaled : List Char → Int → Nat → Prop
  | whole {cs : List Char} {n : Int} (h : Numeral cs n) : Scaled cs n 1
  | suffixed {cs : List Char} {n : Int} {c : Char} {scale : Nat} (h : Numeral cs n)
      (hc : (c, scale) ∈ suffixes) : Scaled (cs ++ [c]) n scale

/-- The Kelvin sign behind a number; its small letter is a k. -/
def InKelvin (cs : List Char) (n : Int) : Prop := ∃ ds, cs = ds ++ ['\u212a'] ∧ Numeral ds n

def Taken (cs : List Char) (n : Int) (scale : Nat) : Prop :=
  Scaled cs n scale ∨ InKelvin cs n ∧ scale = 2 ^ 10

theorem scale?_eq_some {c : Char} {scale : Nat} :
    scale? c = some scale ↔ (c, scale) ∈ suffixes ∨ c = '\u212a' ∧ scale = 2 ^ 10 := by
  constructor
  · intro h
    simp only [scale?, Nat.pow_eq] at h
    split_ifs at h with hkilo hmega hgiga htera
    · obtain rfl | rfl | rfl := hkilo <;> simp_all [suffixes]
    · obtain rfl | rfl := hmega <;> simp_all [suffixes]
    · obtain rfl | rfl := hgiga <;> simp_all [suffixes]
    · obtain rfl | rfl := htera <;> simp_all [suffixes]
  · have all : ∀ e ∈ suffixes, scale? e.1 = some e.2 := by decide
    rintro (h | ⟨rfl, rfl⟩)
    · exact all _ h
    · rfl

theorem digit?_eq_none_of_scale? {c : Char} {scale : Nat} (h : scale? c = some scale) :
    digit? c = none := by
  have all : ∀ e ∈ ('\u212a', 2 ^ 10) :: suffixes, digit? e.1 = none := by decide
  rw [scale?_eq_some] at h
  exact all (c, scale) (by simpa [or_comm] using h)

theorem splitScale_append (cs : List Char) {c : Char} {scale : Nat} (h : scale? c = some scale) :
    splitScale (cs ++ [c]) = (cs, scale) := by
  simp [splitScale, h]

theorem splitScale_of_numeral {cs : List Char} {n : Int} (h : Numeral cs n) :
    splitScale cs = (cs, 1) := by
  obtain ⟨c, d, hc, hd⟩ := h.exists_getLast?
  have unscaled : scale? c = none := by
    by_contra hscale
    obtain ⟨scale, hscale⟩ := Option.ne_none_iff_exists'.1 hscale
    rw [digit?_eq_none_of_scale? hscale] at hd
    cases hd
  simp [splitScale, hc, unscaled]

theorem taken_iff {cs : List Char} {n : Int} {scale : Nat} :
    Taken cs n scale ↔ integer? (splitScale cs).1 = some n ∧ (splitScale cs).2 = scale := by
  rw [integer?_eq_some]
  constructor
  · rintro ((h | ⟨h, hc⟩) | ⟨⟨ds, rfl, h⟩, rfl⟩)
    · rw [splitScale_of_numeral h]
      exact ⟨h, rfl⟩
    · rw [splitScale_append _ (scale?_eq_some.2 (.inl hc))]
      exact ⟨h, rfl⟩
    · rw [splitScale_append ds (scale?_eq_some.2 (.inr ⟨rfl, rfl⟩))]
      exact ⟨h, rfl⟩
  · unfold splitScale
    split
    · rename_i found hfound
      rintro ⟨h, rfl⟩
      obtain ⟨c, hc, hscale⟩ := Option.bind_eq_some_iff.1 hfound
      obtain ⟨ds, rfl⟩ := List.getLast?_eq_some_iff.1 hc
      rw [List.dropLast_concat] at h
      obtain hsuffix | ⟨rfl, hkilo⟩ := scale?_eq_some.1 hscale
      · exact .inl (.suffixed h hsuffix)
      · exact .inr ⟨⟨ds, rfl, h⟩, hkilo⟩
    · rintro ⟨h, rfl⟩
      exact .inl (.whole h)

theorem Taken.unique {cs : List Char} {n m : Int} {scale other : Nat} (h : Taken cs n scale)
    (h' : Taken cs m other) : n = m ∧ scale = other := by
  rw [taken_iff] at h h'
  exact ⟨Option.some.inj (h.1.symm.trans h'.1), h.2.symm.trans h'.2⟩

theorem readLong_eq_ok {value : String} {v : Word} :
    readLong value = .ok v ↔ ∃ n scale, Taken value.toList n scale ∧
      (-2 ^ 63 ≤ n ∧ n < 2 ^ 63) ∧ v = BitVec.ofInt 64 (n * scale) := by
  simp only [taken_iff, readLong, Nat.pow_eq, BitVec.ofInt_mul, BitVec.ofInt_natCast]
  cases hn : integer? (splitScale value.toList).1 with
  | none => simp
  | some n =>
    dsimp only
    split
    case isTrue hfits => simpa [eq_comm] using fun _ => hfits
    case isFalse hfits => simpa using fun hlo hhi _ => absurd ⟨hlo, hhi⟩ hfits

theorem readLong_eq_error {value : String} {fault : Fault} (h : readLong value = .error fault) :
    fault = .malformedNumber := by
  unfold readLong at h
  split at h
  split at h
  · split at h
    · cases h
    · exact (Except.error.inj h).symm
  · exact (Except.error.inj h).symm

/-! ## Settings -/

def OptionType.width? : OptionType → Option Nat
  | .integer => some 32
  | .long => some 64
  | _ => none

def OptionType.wrapped (z : Int) : OptionType → Reading
  | .integer => .int (BitVec.ofInt 32 z)
  | _ => .long (BitVec.ofInt 64 z)

def Reading.number? : Reading → Option Int
  | .int n | .long n => some n.toInt
  | _ => none

def InWidth (w : Nat) (z : Int) : Prop := -2 ^ (w - 1) ≤ z ∧ z < 2 ^ (w - 1)

theorem number?_wrapped {t : OptionType} {w : Nat} (hw : t.width? = some w) (z : Int) :
    (t.wrapped z).number? = some z ↔ InWidth w z := by
  have kept : ∀ w, 0 < w → ((BitVec.ofInt w z).toInt = z ↔ InWidth w z) := by
    intro w h0
    constructor
    · intro h
      rw [← h]
      exact ⟨BitVec.le_toInt _, BitVec.toInt_lt⟩
    · rintro ⟨hlo, hhi⟩
      exact BitVec.toInt_ofInt_eq_self h0 hlo hhi
  cases t with
  | integer =>
    cases hw
    simpa [OptionType.wrapped, Reading.number?] using kept 32 (by decide)
  | long =>
    cases hw
    simpa [OptionType.wrapped, Reading.number?] using kept 64 (by decide)
  | _ => cases hw

theorem setWidth_ofInt (z : Int) : (BitVec.ofInt 64 z).setWidth 32 = BitVec.ofInt 32 z := by
  apply BitVec.eq_of_toInt_eq
  rw [← Word.low, Word.toInt_low (by decide), BitVec.toInt_ofInt, BitVec.toInt_ofInt,
    Int.bmod_bmod_of_dvd (by decide)]

section Setting

variable {options : Declared} {name : String} {t : OptionType} {w : Nat}
  (ht : typeOf? options name = some t) (hw : t.width? = some w) {value : String}
include ht hw

theorem readSetting_eq (value : String) :
    ∃ f : Word → Reading, (∀ z, f (BitVec.ofInt 64 z) = t.wrapped z) ∧
      readSetting options name value = readLong value >>= fun v => .ok (f v) := by
  rw [readSetting, ht]
  cases t with
  | integer =>
    exact ⟨fun v => .int (v.setWidth 32), fun z => congrArg Reading.int (setWidth_ofInt z), rfl⟩
  | long => exact ⟨.long, fun _ => rfl, rfl⟩
  | _ => cases hw

theorem readSetting_of_taken {n : Int} {scale : Nat} (h : Taken value.toList n scale)
    (hn : InWidth 64 n) : readSetting options name value = .ok (t.wrapped (n * scale)) := by
  obtain ⟨f, hf, hread⟩ := readSetting_eq ht hw value
  rw [hread, bind_eq_ok]
  exact ⟨_, readLong_eq_ok.2 ⟨n, scale, h, hn, rfl⟩, congrArg Except.ok (hf _)⟩

theorem readSetting_of_not_taken (h : ¬ ∃ n scale, Taken value.toList n scale ∧ InWidth 64 n) :
    readSetting options name value = .error .malformedNumber := by
  obtain ⟨f, -, hread⟩ := readSetting_eq ht hw value
  rw [hread]
  cases hlong : readLong value with
  | error fault => rw [readLong_eq_error hlong]; rfl
  | ok v =>
    obtain ⟨n, scale, taken, fits, -⟩ := readLong_eq_ok.1 hlong
    exact absurd ⟨n, scale, taken, fits⟩ h

end Setting

/-! ## Sequences of settings -/

/-- What was read before the first setting that is refused, and why that is refused. -/
abbrev Outcome := List (String × Reading) × Option Fault

def Outcome.Refuses (outcome : Outcome) (k : Nat) : Prop :=
  outcome.1.length = k ∧ outcome.2 = some .malformedNumber

/-- The setting at a position gives an option a value. -/
def Outcome.Gives (outcome : Outcome) (k : Nat) (name : String) (r : Reading) : Prop :=
  outcome.1[k]? = some (name, r)

/-- A number is read as it is written, or refused. -/
def Outcome.Exact (outcome : Outcome) (k : Nat) (name value : String) : Prop :=
  outcome.Refuses k ∨ ∃ n scale r, Scaled value.toList n scale ∧ outcome.Gives k name r ∧
    r.number? = some (n * scale)

theorem readSettings_append {options : Declared} {before : List (String × String)}
    (h : (readSettings options before).2 = none) (rest : List (String × String)) :
    (readSettings options before).1.length = before.length ∧
      readSettings options (before ++ rest) =
        ((readSettings options before).1 ++ (readSettings options rest).1,
          (readSettings options rest).2) := by
  induction before with
  | nil => simp [readSettings]
  | cons e before ih =>
    obtain ⟨name, value⟩ := e
    rw [readSettings] at h
    rw [List.cons_append, readSettings, readSettings]
    cases hread : readSetting options name value with
    | error fault => simp [hread] at h
    | ok r =>
      obtain ⟨hlength, hrest⟩ := ih (by simpa [hread] using h)
      simp [hlength, hrest]

theorem refuses_of_error {options : Declared} {before : List (String × String)} {name value : String}
    (hbefore : (readSettings options before).2 = none)
    (h : readSetting options name value = .error .malformedNumber) (after : List (String × String)) :
    Outcome.Refuses (readSettings options (before ++ (name, value) :: after)) before.length := by
  obtain ⟨hlength, hrest⟩ := readSettings_append hbefore ((name, value) :: after)
  rw [Outcome.Refuses, hrest, readSettings, h]
  exact ⟨by simpa using hlength, rfl⟩

theorem gives_of_ok {options : Declared} {before : List (String × String)} {name value : String}
    {r : Reading} (hbefore : (readSettings options before).2 = none)
    (h : readSetting options name value = .ok r) (after : List (String × String)) :
    Outcome.Gives (readSettings options (before ++ (name, value) :: after)) before.length name r := by
  obtain ⟨hlength, hrest⟩ := readSettings_append hbefore ((name, value) :: after)
  rw [Outcome.Gives, hrest, readSettings, h, List.getElem?_append_right hlength.le, hlength]
  simp

theorem Outcome.Gives.not_refuses {outcome : Outcome} {k : Nat} {name : String} {r : Reading}
    (h : outcome.Gives k name r) : ¬ outcome.Refuses k := by
  rintro ⟨hlength, -⟩
  obtain ⟨hk, -⟩ := List.getElem?_eq_some_iff.1 h
  omega

/-- A setting of a numeric option is read exactly or refused just if what is taken for a scaled number
is one, and the product is inside the width of the option. Otherwise the option gets the product cut to
that width. -/
theorem numbers_exact_iff (options : Declared) (name : String) (t : OptionType) (w : Nat)
    (ht : typeOf? options name = some t) (hw : t.width? = some w) (value : String)
    (before after : List (String × String)) (hbefore : (readSettings options before).2 = none) :
    let outcome : Outcome := readSettings options (before ++ (name, value) :: after)
    ((¬ ∃ n scale, Taken value.toList n scale ∧ InWidth 64 n) → outcome.Refuses before.length) ∧
    (∀ n scale, Taken value.toList n scale → InWidth 64 n →
      outcome.Gives before.length name (t.wrapped (n * scale))) ∧
    (outcome.Exact before.length name value ↔
      ∀ n scale, Taken value.toList n scale → InWidth 64 n →
        Scaled value.toList n scale ∧ InWidth w (n * scale)) := by
  intro outcome
  have refuses : (¬ ∃ n scale, Taken value.toList n scale ∧ InWidth 64 n) →
      outcome.Refuses before.length := fun h =>
    refuses_of_error hbefore (readSetting_of_not_taken ht hw h) after
  have gives : ∀ n scale, Taken value.toList n scale → InWidth 64 n →
      outcome.Gives before.length name (t.wrapped (n * scale)) := fun n scale taken fits =>
    gives_of_ok hbefore (readSetting_of_taken ht hw taken fits) after
  refine ⟨refuses, gives, ?_, ?_⟩
  · rintro exact n scale taken fits
    have given := gives n scale taken fits
    obtain ⟨n', scale', r, scaled, given', hr⟩ := exact.resolve_left given.not_refuses
    obtain ⟨rfl, rfl⟩ := Taken.unique (.inl scaled) taken
    obtain rfl : t.wrapped (n' * scale') = r := by
      rw [Outcome.Gives, given] at given'
      cases given'
      rfl
    exact ⟨scaled, (number?_wrapped hw _).1 hr⟩
  · intro fine
    by_cases h : ∃ n scale, Taken value.toList n scale ∧ InWidth 64 n
    · obtain ⟨n, scale, taken, fits⟩ := h
      obtain ⟨scaled, inside⟩ := fine n scale taken fits
      exact .inr ⟨n, scale, _, scaled, gives n scale taken fits, (number?_wrapped hw _).2 inside⟩
    · exact .inl (refuses h)

theorem numbers_exact_iff_gibi :
    let options : Declared := .ofList [("Depth", .integer), ("Size", .long)]
    let outcome : Outcome := readSettings options [("Depth", "2k"), ("Size", "-3G")]
    typeOf? options "Size" = some .long ∧ (readSettings options [("Depth", "2k")]).2 = none ∧
      Taken "-3G".toList (-3) (2 ^ 30) ∧ outcome.Gives 1 "Size" (.long (-3221225472)) := by
  intro options outcome
  have ht : typeOf? options "Size" = some .long := by decide
  have hbefore : (readSettings options [("Depth", "2k")]).2 = none := by decide
  have taken : Taken "-3G".toList (-3) (2 ^ 30) := taken_iff.2 (by decide)
  exact ⟨ht, hbefore, taken, (numbers_exact_iff options "Size" .long 64 ht rfl "-3G" [("Depth", "2k")] []
    hbefore).2.1 (-3) (2 ^ 30) taken (by constructor <;> decide)⟩

/-- Four gibi is no number of 32 bits, but is not refused. -/
theorem four_gibi_read_as_zero :
    let outcome : Outcome := readSettings (.ofList [("Size", .integer)]) [("Size", "4g")]
    outcome = ([("Size", .int 0)], none) ∧ ¬ outcome.Exact 0 "Size" "4g" := by
  intro outcome
  have zero : outcome = ([("Size", .int 0)], none) := by decide
  refine ⟨zero, ?_⟩
  rw [zero]
  rintro (⟨-, refused⟩ | ⟨n, scale, r, scaled, given, hr⟩)
  · cases refused
  · cases given
    have four : Taken "4g".toList 4 (2 ^ 30) := taken_iff.2 (by decide)
    obtain ⟨rfl, rfl⟩ := Taken.unique (.inl scaled) four
    revert hr
    decide

end Options

end CompilerKit
