import CompilerKit.Proofs.Amd64.ShortBranch

/-! # Branches lead to their labels

A program that leaves the form of its branches to the assembler is one that forces none of them to be short
(`Step.unforced`). Its branches wait for their labels in the long form, which reaches every target, so that
binding a label never fails.
-/

namespace CompilerKit.Amd64

open Assembler

/-- A step of a program. Code other than branches to labels may depend on all that has been assembled. -/
inductive Step where
  | emit (code : Assembly → Chunks)
  | branch (b : Branch) (l : Nat)
  | bind (l : Nat)

namespace Step

def run : Step → Assembler Unit
  | emit code => do Assembler.emit (code (← get))
  | branch b l => b.toLabel l
  | bind l => bindLabel l

def binds (l : Nat) : Step → Bool
  | bind k => k = l
  | _ => false

def unforced : Step → Forced.Step
  | emit code => .emit code
  | branch b l => .branch b l
  | bind l => .bind l

theorem run_unforced (s : Step) : s.unforced.run = s.run := by
  cases s <;> rfl

theorem binds_unforced (l : Nat) (s : Step) : s.unforced.binds l = s.binds l := by
  cases s <;> rfl

theorem unforced_ne_short (s : Step) (b : Branch) (l : Nat) : s.unforced ≠ .short b l := by
  cases s <;> exact nofun

theorem eq_branch_of_uses {s : Step} {l : Nat} (h : s.unforced.uses l) : ∃ b, s = .branch b l := by
  cases s with
  | branch b k => exact ⟨b, by simpa [unforced, Forced.Step.uses] using h⟩
  | emit code => cases h
  | bind k => cases h

end Step

def runFrom (a : Assembly) (p : List Step) : Except Fault Unit × Assembly :=
  (p.forM Step.run).run.run a

def assembled (p : List Step) : Assembly := (runFrom {} p).2

/-! The same program, with the forms of its branches. -/

def unforced (p : List Step) : List Forced.Step := p.map Step.unforced

theorem unforced_append (p q : List Step) : unforced (p ++ q) = unforced p ++ unforced q :=
  List.map_append

theorem runAll_unforced (p : List Step) : Forced.runAll (unforced p) = runFrom {} p := by
  simp [Forced.runAll, runFrom, unforced, Step.run_unforced]

theorem assembled_unforced (p : List Step) : Forced.assembled (unforced p) = assembled p := by
  rw [Forced.assembled, runAll_unforced, assembled]

theorem countP_unforced (l : Nat) (p : List Step) :
    (unforced p).countP (Forced.Step.binds l) = p.countP (Step.binds l) := by
  simp [unforced, List.countP_map, Function.comp_def, Step.binds_unforced]

theorem exists_of_unforced {p : List Step} {pre post : List Forced.Step} {x : Forced.Step}
    (h : unforced p = pre ++ x :: post) :
    ∃ before s after, p = before ++ s :: after ∧ pre = unforced before ∧ s.unforced = x := by
  obtain ⟨before, rest, rfl, rfl, hrest⟩ := List.map_eq_append_iff.mp h
  obtain ⟨s, after, rfl, hs, -⟩ := List.map_eq_cons_iff.mp hrest
  exact ⟨before, s, after, rfl, rfl, hs⟩

theorem not_short {p : List Step} {pre post : List Forced.Step} {b : Branch} {l : Nat} :
    unforced p ≠ pre ++ .short b l :: post := by
  intro h
  obtain ⟨before, s, after, -, -, hs⟩ := exists_of_unforced h
  exact s.unforced_ne_short b l hs

theorem exists_branch {p : List Step} {a : Assembly} {sites : List Site}
    (h : Forced.Traced (unforced p) a sites) {s : Site} (hs : s ∈ sites) :
    (∃ before after, p = before ++ .branch s.branch s.label :: after ∧
      s.position = (assembled before).code.length) ∧
    s.isForced = false ∧ (s.isForward → s.size = s.branch.longSize) := by
  obtain ⟨pre, x, post, hp, hsite⟩ := h.origin s hs
  obtain ⟨hposition, ⟨rfl, hforced, hlong⟩ | ⟨rfl, -⟩⟩ := Forced.Step.of_site? hsite
  · obtain ⟨before, t, after, rfl, rfl, ht⟩ := exists_of_unforced hp
    rw [assembled_unforced] at hposition
    refine ⟨⟨before, after, ?_, hposition⟩, hforced, hlong⟩
    cases t with
    | branch b l => simpa [Step.unforced] using ht
    | emit code => cases ht
    | bind l => cases ht
  · exact absurd hp not_short

section Program

variable {p : List Step} (hbound : ∀ b l, Step.branch b l ∈ p → p.countP (Step.binds l) = 1)
  (hlength : (assembled p).code.length < 2 ^ 31)

include hbound

theorem binds_le_one {before after : List Step} (hp : p = before ++ after) (l : Nat)
    (hused : ∃ x ∈ unforced before, x.uses l) : (unforced before).countP (Forced.Step.binds l) ≤ 1 := by
  obtain ⟨x, hx, huses⟩ := hused
  obtain ⟨s, hs, rfl⟩ := List.mem_map.mp hx
  obtain ⟨b, rfl⟩ := Step.eq_branch_of_uses huses
  have hcount := hbound b l (hp ▸ List.mem_append_left _ hs)
  rw [hp, List.countP_append] at hcount
  rw [countP_unforced]
  omega

include hlength

theorem exists_traced {before after : List Step} (hp : p = before ++ after) :
    (assembled before).code.length < 2 ^ 31 ∧ (runFrom {} before).1 = .ok () ∧
      ∃ sites, Forced.Traced (unforced before) (assembled before) sites := by
  have hsize : (assembled before).code.length < 2 ^ 31 := by
    have hle := Forced.length_le_assembled (unforced before) (unforced after)
    rw [← unforced_append, ← hp, assembled_unforced, assembled_unforced] at hle
    exact hle.trans_lt hlength
  rcases Forced.traced_or_stops (binds_le_one hbound hp) (assembled_unforced before ▸ hsize)
    (fun _ _ _ _ _ hshort => absurd hshort not_short) with ⟨a, sites, hrun, h⟩ | ⟨_, _, _, _, _, hshort, -⟩
  · rw [runAll_unforced] at hrun
    obtain rfl : assembled before = a := congrArg Prod.snd hrun
    exact ⟨hsize, congrArg Prod.fst hrun, sites, h⟩
  · exact absurd hshort not_short

theorem exists_jump {before after : List Step} {b : Branch} {l : Nat}
    (hp : p = before ++ Step.branch b l :: after) :
    ∃ pre post j, p = pre ++ Step.bind l :: post ∧
      ((assembled p).labels l).position? = some (assembled pre).code.length ∧
      jump? ((assembled p).code.drop (assembled before).code.length) = some j ∧ j.test = b.test ∧
      (assembled before).code.length + j.length + j.displacement = (assembled pre).code.length := by
  obtain ⟨-, -, sites, h⟩ := exists_traced hbound hlength (List.append_nil p).symm
  have hused : Step.branch b l ∈ p := by simp [hp]
  cases hl : ((assembled p).labels l).position? with
  | none =>
    have hcount := h.unbound l hl
    rw [countP_unforced, hbound b l hused] at hcount
    cases hcount
  | some t =>
    obtain ⟨pre, post, hbind, rfl⟩ := h.bound l t hl
    obtain ⟨front, s, back, hfront, rfl, hs⟩ := exists_of_unforced hbind
    rw [assembled_unforced] at hl ⊢
    obtain rfl : s = .bind l := by
      cases s with
      | bind k => simpa [Step.unforced] using hs
      | emit code => cases hs
      | branch b k => cases hs
    -- The branch is the site that the program has written there, and it has not been forced.
    have hsite : b.site l (assembled before) ∈ sites := by
      refine h.written (unforced before) (.branch b l) (unforced after) _ ?_ ?_
      · simp [unforced, hp, Step.unforced]
      · rw [assembled_unforced]
        rfl
    obtain ⟨hb, hlabel, hposition⟩ := b.site_eq l (assembled before)
    obtain ⟨-, hforced, -⟩ := exists_branch h hsite
    have ht := hlabel.symm ▸ hl
    obtain ⟨d, -, hmeant⟩ := h.held _ hsite
    have hfits : (b.site l (assembled before)).fits (assembled front).code.length := by
      refine (hmeant _ ht).2.resolve_right fun hover => ?_
      rw [Forced.Overshoots, hforced] at hover
      exact absurd hover.1 Bool.false_ne_true
    obtain ⟨j, hread, htest, -, htarget⟩ := h.exists_jump hsite ht hlength hfits
    rw [hposition] at hread htarget
    exact ⟨front, back, j, hfront, rfl, hread, hb ▸ htest, htarget⟩

theorem frame_of_bind {before after : List Step} {l : Nat} (hp : p = before ++ Step.bind l :: after) :
    (assembled (before ++ [Step.bind l])).code.length = (assembled before).code.length ∧
      ∀ i, (assembled (before ++ [Step.bind l])).code[i]? ≠ (assembled before).code[i]? →
        ∃ pre b post, before = pre ++ Step.branch b l :: post ∧
          (assembled pre).code.length + b.longOpcode.length ≤ i ∧
          i < (assembled pre).code.length + b.longSize := by
  obtain ⟨hsize, hok, sites, h⟩ := exists_traced hbound hlength hp
  have honce := binds_le_one hbound (hp.trans (List.append_cons before _ after))
  rw [unforced_append] at honce
  have hrun : runFrom {} (before ++ [Step.bind l]) = (bindLabel l).run.run (assembled before) := by
    have hbefore : Forced.runAll (unforced before) = (.ok (), assembled before) := by
      rw [runAll_unforced]
      exact Prod.ext hok rfl
    rw [← runAll_unforced, unforced_append]
    exact Forced.runAll_snoc hbefore (.bind l)
  rcases h.bind hsize l (h.notBound honce l (by simp [Step.unforced, Forced.Step.binds])) with
    ⟨c, hbind, -, hc⟩ | ⟨s, hs, hfar, -⟩
  · have hstate : assembled (before ++ [Step.bind l]) = c := by rw [assembled, hrun, hbind]
    rw [hstate]
    refine ⟨hc.length, fun i hi => ?_⟩
    by_contra hnot
    refine hi (hc.frame i fun t ht hfield => hnot ?_)
    obtain ⟨hmem, hforward, rfl⟩ := Site.mem_waitingFor.mp ht
    obtain ⟨⟨pre, post, hbefore, hposition⟩, -, hlong⟩ := exists_branch h hmem
    rw [Site.field, if_neg (Site.size_ne_two (hlong hforward)), hlong hforward, hposition] at hfield
    exact ⟨pre, t.branch, post, hbefore, hfield⟩
  · obtain ⟨hmem, hforward, -⟩ := Site.mem_waitingFor.mp hs
    obtain ⟨-, -, hlong⟩ := exists_branch h hmem
    exact absurd (by simp [Site.fits, Site.size_ne_two (hlong hforward)]) hfar

end Program

/-- If every label that branches lead to is bound once, then each branch is read back as itself, with the
place where its label is bound as its target. A label that is bound changes no bytes but the displacements
of the branches to it that have been written before. -/
theorem branches_lead_to_labels (p : List Step)
    (hbound : ∀ b l, Step.branch b l ∈ p → p.countP (Step.binds l) = 1)
    (hlength : (assembled p).code.length < 2 ^ 31) :
    (runFrom {} p).1 = .ok () ∧
    (∀ before b l after, p = before ++ Step.branch b l :: after → ∃ pre post j,
      p = pre ++ Step.bind l :: post ∧
      ((assembled p).labels l).position? = some (assembled pre).code.length ∧
      jump? ((assembled p).code.drop (assembled before).code.length) = some j ∧
      j.test = b.test ∧
      (assembled before).code.length + j.length + j.displacement = (assembled pre).code.length) ∧
    ∀ before l after, p = before ++ Step.bind l :: after →
      (assembled (before ++ [Step.bind l])).code.length = (assembled before).code.length ∧
      ∀ i, (assembled (before ++ [Step.bind l])).code[i]? ≠ (assembled before).code[i]? →
        ∃ pre b post, before = pre ++ Step.branch b l :: post ∧
          (assembled pre).code.length + b.longOpcode.length ≤ i ∧
          i < (assembled pre).code.length + b.longSize := by
  obtain ⟨-, hok, -⟩ := exists_traced hbound hlength (List.append_nil p).symm
  exact ⟨hok, fun _ _ _ _ hp => exists_jump hbound hlength hp,
    fun _ _ _ hp => frame_of_bind hbound hlength hp⟩

/-- A program with branches in both directions. -/
def crossing : List Step :=
  [.branch .always 0, .branch (.onFlag .less) 1, .emit fun _ => [0x90], .bind 1,
    .branch (.onFlag .equal) 0, .branch .always 1, .bind 0, .branch .always 0]

theorem branches_lead_to_labels_crossing :
    (∀ b l, Step.branch b l ∈ crossing → crossing.countP (Step.binds l) = 1) ∧
    (assembled crossing).code.length < 2 ^ 31 ∧
    (runFrom {} crossing).1 = .ok () ∧
    ∃ pre post j, crossing = pre ++ .bind 1 :: post ∧
      ((assembled crossing).labels 1).position? = some (assembled pre).code.length ∧
      jump? ((assembled crossing).code.drop (assembled [.branch .always 0]).code.length) = some j ∧
      j.test = (Branch.onFlag .less).test ∧
      (assembled [.branch .always 0]).code.length + j.length + j.displacement =
        (assembled pre).code.length := by
  have hbound : ∀ b l, Step.branch b l ∈ crossing → crossing.countP (Step.binds l) = 1 := by
    intro b l h
    obtain rfl | rfl : l = 0 ∨ l = 1 := by
      simp only [crossing, List.mem_cons, List.not_mem_nil, Step.branch.injEq, reduceCtorEq] at h
      tauto
    · rfl
    · rfl
  have hlength : (assembled crossing).code.length < 2 ^ 31 := by decide +kernel
  obtain ⟨hok, hlead, -⟩ := branches_lead_to_labels crossing hbound hlength
  exact ⟨hbound, hlength, hok, hlead [.branch .always 0] (.onFlag .less) 1 _ rfl⟩

end CompilerKit.Amd64
