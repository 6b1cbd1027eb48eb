import Elementwise.Proofs.Optimize.Preservation

/-!
# Optimisation ends at a fixpoint

A pass that finds nothing leaves code as it is, and one that finds something makes it lighter and no longer.
So rounds of passes cannot go on finding something forever: after at most as many of them as the code weighs,
no pass finds anything, and optimising again changes nothing. Registers, slots and target stay, and so does
verification.
-/

namespace Elementwise

namespace Instr

/-- What is left of code is no longer; it is lighter if something was found, and the same if nothing was. -/
structure Shrinks (p : Passed (List Instr)) (code : List Instr) : Prop where
  length_le : lengthAll p.result ≤ lengthAll code
  weight_lt : p.found = true → weightAll p.result < weightAll code
  same : p.found = false → p.result = code

/-- The weight of code after code. -/
theorem weightAll_append (a b : List Instr) : weightAll (a ++ b) = weightAll a + weightAll b := by
  induction a with
  | nil => simp [weightAll]
  | cons i rest ih => rw [List.cons_append, weightAll, weightAll, ih, Nat.add_assoc]

/-- The length of code after code. -/
theorem lengthAll_append (a b : List Instr) : lengthAll (a ++ b) = lengthAll a + lengthAll b := by
  induction a with
  | nil => simp [lengthAll]
  | cons i rest ih => rw [List.cons_append, lengthAll, lengthAll, ih, Nat.add_assoc]

theorem weight_pos (i : Instr) : 0 < i.weight := by cases i <;> simp only [weight] <;> omega

/-- Code weighs at most two for each instruction. -/
theorem weightAll_le (code : List Instr) : weightAll code ≤ 2 * lengthAll code := by
  induction code using code_induction with
  | nil => exact Nat.le_refl _
  | leaf i rest hleaf ih =>
    have hi : i.weight ≤ 2 ∧ i.length = 1 := by cases i <;> simp_all [weight, length, bodies]
    simp only [weightAll, lengthAll]
    omega
  | branch | loop =>
    simp only [weightAll, lengthAll, weight, length]
    omega

namespace Shrinks

variable {code rest t e b s : List Instr} {p rest' t' e' b' s' : Passed (List Instr)}

theorem refl (code : List Instr) : Shrinks ⟨code, false⟩ code := ⟨Nat.le_refl _, by simp, fun _ => rfl⟩

theorem weight_le (h : Shrinks p code) : weightAll p.result ≤ weightAll code := by
  cases hfound : p.found with
  | false => exact Nat.le_of_eq (congrArg weightAll (h.same hfound))
  | true => exact Nat.le_of_lt (h.weight_lt hfound)

theorem append (h : Shrinks p code) (hrest : Shrinks rest' rest) :
    Shrinks ⟨p.result ++ rest'.result, rest'.found || p.found⟩ (code ++ rest) := by
  have hweight := h.weight_le
  have hweight' := hrest.weight_le
  obtain ⟨hlength, hlt, hsame⟩ := h
  obtain ⟨hlength', hlt', hsame'⟩ := hrest
  constructor
  · rw [lengthAll_append, lengthAll_append]
    omega
  · rw [weightAll_append, weightAll_append, Bool.or_eq_true]
    rintro (hfound | hfound)
    · have := hlt' hfound
      omega
    · have := hlt hfound
      omega
  · rw [Bool.or_eq_false_iff]
    rintro ⟨hfound', hfound⟩
    rw [hsame hfound, hsame' hfound']

/-- A branch whose bodies shrink. -/
theorem branch (c : Reg) (ht : Shrinks t' t) (he : Shrinks e' e) :
    Shrinks ⟨[.branch c t'.result e'.result], e'.found || t'.found⟩ [.branch c t e] := by
  obtain ⟨hlength, hlt, hsame⟩ := ht.append he
  rw [lengthAll_append, lengthAll_append] at hlength
  rw [weightAll_append, weightAll_append] at hlt
  refine ⟨?_, fun hfound => ?_, ?_⟩
  · simp only [lengthAll, length]
    omega
  · have := hlt hfound
    simp only [weightAll, weight]
    omega
  · rw [Bool.or_eq_false_iff]
    rintro ⟨hfound', hfound⟩
    rw [ht.same hfound, he.same hfound']

/-- A loop whose parts shrink. -/
theorem loop (k : LoopKind) (c : Option Reg) (ht : Shrinks t' t) (hb : Shrinks b' b) (hs : Shrinks s' s) :
    Shrinks ⟨[.loop k t'.result c b'.result s'.result], (s'.found || b'.found) || t'.found⟩ [.loop k t c b s] := by
  obtain ⟨hlength, hlt, -⟩ := ht.append (hb.append hs)
  simp only [lengthAll_append] at hlength
  simp only [weightAll_append] at hlt
  refine ⟨?_, fun hfound => ?_, ?_⟩
  · simp only [lengthAll, length]
    omega
  · have := hlt hfound
    simp only [weightAll, weight]
    omega
  · simp only [Bool.or_eq_false_iff]
    rintro ⟨⟨hfound'', hfound'⟩, hfound⟩
    rw [ht.same hfound, hb.same hfound', hs.same hfound'']

/-- Code that is lighter and no longer. -/
theorem of_lt {code' : List Instr} (hweight : weightAll code' < weightAll code)
    (hlength : lengthAll code' ≤ lengthAll code) : Shrinks ⟨code', true⟩ code := ⟨hlength, fun _ => hweight, by simp⟩

/-- Nothing weighs less than something. -/
theorem nil (code : List Instr) : Shrinks ⟨[], !code.isEmpty⟩ code := by
  cases code with
  | nil => exact .refl _
  | cons i rest =>
    have hpos := weight_pos i
    refine .of_lt ?_ (Nat.zero_le _)
    simp only [weightAll]
    omega

end Shrinks

/-- A pass shrinks code: a constant is lighter than what it takes the place of, since a constant is never folded, and a
body lighter than the branch that it stood in. -/
theorem Thins.shrinks {types : Array Ty} {known : Constants} {code : List Instr} {p : Passed (List Instr)}
    (h : Thins types known code p) : Shrinks p code := by
  induction h with
  | nil => exact .refl _
  | @leaf i rest p rest' hleaf hturn _ ih =>
    suffices hhead : Shrinks p [i] from hhead.append ih
    cases hturn with
    | drop => exact .nil [i]
    | keep => exact .refl _
    | fold _ hv =>
      have hi : weight i = 2 ∧ length i = 1 := by cases i <;> first | exact ⟨rfl, rfl⟩ | cases hv
      refine .of_lt ?_ ?_
      · simp only [weightAll, weight, hi.1]
        omega
      · simp only [lengthAll, length, hi.2]
        omega
  | branch _ _ _ iht ihe ih => exact (Shrinks.branch _ iht ihe).append ih
  | @taken c v t e rest t' e' rest' _ _ _ _ iht ihe ih =>
    suffices hbranch : Shrinks ⟨if v.truthy then t'.result else e'.result, true⟩ [.branch c t e] from hbranch.append ih
    have hlength := iht.length_le
    have hlength' := ihe.length_le
    have hweight := iht.weight_le
    have hweight' := ihe.weight_le
    split
    all_goals
      refine .of_lt ?_ ?_
      · simp only [weightAll, weight]
        omega
      · simp only [lengthAll, length]
        omega
  | loop _ _ _ _ iht ihb ihs ih => exact (Shrinks.loop _ _ iht ihb ihs).append ih
  | @jump word rest _ =>
    have hshrinks := (Shrinks.refl [.jump word]).append (.nil rest)
    rwa [Bool.or_false] at hshrinks

end Instr

/-- What is left of code has its registers, slots and target, and a body that shrank. -/
structure Passed.Shrinks (p : Passed Code) (c : Code) : Prop where
  target : p.result.target = c.target
  regs : p.result.regs = c.regs
  slots : p.result.slots = c.slots
  body : Instr.Shrinks ⟨p.result.body, p.found⟩ c.body

namespace Passed

variable {c : Code} {p q : Passed Code}

theorem Thinned.shrinks (h : p.Thinned c) : p.Shrinks c := ⟨h.target, h.regs, h.slots, h.body.shrinks⟩

namespace Shrinks

theorem refl (c : Code) : Shrinks (pure c) c := ⟨rfl, rfl, rfl, .refl _⟩

/-- Where nothing was found, the code is the same. -/
theorem eq_pure (h : p.Shrinks c) (hfound : p.found = false) : p = pure c := by
  obtain ⟨⟨target, regs, slots, body⟩, found⟩ := p
  obtain ⟨rfl, rfl, rfl, hbody⟩ := h
  obtain rfl : body = c.body := hbody.same hfound
  obtain rfl : found = false := hfound
  rfl

theorem trans (h : p.Shrinks c) (h' : q.Shrinks p.result) : Shrinks ⟨q.result, q.found || p.found⟩ c where
  target := h'.target.trans h.target
  regs := h'.regs.trans h.regs
  slots := h'.slots.trans h.slots
  body := by
    have hweight := h.body.weight_le
    have hweight' := h'.body.weight_le
    refine ⟨Nat.le_trans h'.body.length_le h.body.length_le, ?_, ?_⟩
    · rw [Bool.or_eq_true]
      rintro (hfound | hfound)
      · exact Nat.lt_of_lt_of_le (h'.body.weight_lt hfound) hweight
      · exact Nat.lt_of_le_of_lt hweight' (h.body.weight_lt hfound)
    · rw [Bool.or_eq_false_iff]
      exact fun hfound => (h'.body.same hfound.1).trans (h.body.same hfound.2)

end Shrinks

end Passed

namespace Code

/-- No pass of a level finds anything. -/
def Settled (level : OptLevel) (c : Code) : Prop := ∀ pass ∈ passes level, pass c = pure c

/-- Rounds of passes, without a bound on their number, as long as one finds something: `rounds` of them do. -/
inductive Optimizes (level : OptLevel) : Nat → Code → Code → Prop
  | settled {c : Code} (h : (c.optimizeOnce level).found = false) : Optimizes level 0 c (c.optimizeOnce level).result
  | round {rounds : Nat} {c result : Code} (h : (c.optimizeOnce level).found = true)
      (hrest : Optimizes level rounds (c.optimizeOnce level).result result) : Optimizes level (rounds + 1) c result

/-- A round of passes shrinks code, and finds something exactly if one of its passes does. -/
theorem optimizeOnce_shrinks (level : OptLevel) (c : Code) :
    (c.optimizeOnce level).Shrinks c ∧ ((c.optimizeOnce level).found = false ↔ c.Settled level) := by
  have hpass : ∀ pass ∈ passes level, ∀ c, (pass c).Shrinks c :=
    fun pass hmem c => (thinned_of_mem_passes pass hmem c).shrinks
  unfold optimizeOnce Settled
  generalize passes level = ps at hpass ⊢
  induction ps generalizing c with
  | nil => exact ⟨.refl c, by simp [pure]⟩
  | cons pass rest ih =>
    rw [List.forall_mem_cons] at hpass ⊢
    obtain ⟨hrest, hsettled⟩ := ih (pass c).result hpass.2
    refine ⟨(hpass.1 c).trans hrest, Bool.or_eq_false_iff.trans ⟨?_, ?_⟩⟩
    · rintro ⟨hnone, hfound⟩
      have hsame := (hpass.1 c).eq_pure hfound
      rw [hsame] at hsettled
      exact ⟨hsame, hsettled.mp (hsame ▸ hnone)⟩
    · rintro ⟨hsame, hsettled'⟩
      dsimp only
      rw [hsame] at hsettled ⊢
      exact ⟨hsettled.mpr hsettled', rfl⟩

theorem Settled.optimize_eq {level : OptLevel} {c : Code} (h : c.Settled level) : c.optimize level = c := by
  obtain ⟨hshrinks, hfound⟩ := c.optimizeOnce_shrinks level
  rw [optimize, optimizeWithin, hshrinks.eq_pure (hfound.mpr h)]
  rfl

/-- Bounded rounds of passes are the rounds without a bound, if the bound is above the weight. -/
theorem optimizes_optimizeWithin (level : OptLevel) {fuel : Nat} {c : Code} (hfuel : c.weight < fuel) :
    ∃ rounds, rounds ≤ c.weight ∧ Optimizes level rounds c (c.optimizeWithin level fuel) := by
  induction fuel generalizing c with
  | zero => exact absurd hfuel (Nat.not_lt_zero _)
  | succ fuel ih =>
    rw [optimizeWithin]
    split
    · next hfound =>
      have hlt : (c.optimizeOnce level).result.weight < c.weight :=
        (c.optimizeOnce_shrinks level).1.body.weight_lt hfound
      obtain ⟨rounds, hrounds, hrest⟩ := ih (c := (c.optimizeOnce level).result) (by omega)
      exact ⟨rounds + 1, by omega, .round hfound hrest⟩
    · next hfound => exact ⟨0, Nat.zero_le _, .settled (Bool.eq_false_iff.mpr hfound)⟩

/-- What rounds of passes end at is no longer, and no pass finds anything in it. -/
theorem Optimizes.shrinks_settled {level : OptLevel} {rounds : Nat} {c result : Code} (h : Optimizes level rounds c result) :
    (∃ found, Passed.Shrinks ⟨result, found⟩ c) ∧ result.Settled level := by
  induction h with
  | @settled c h =>
    obtain ⟨hshrinks, hfound⟩ := c.optimizeOnce_shrinks level
    refine ⟨⟨_, hshrinks⟩, ?_⟩
    rw [hshrinks.eq_pure h]
    exact hfound.mp h
  | @round rounds c result _ _ ih =>
    obtain ⟨⟨found, hrest⟩, hsettled⟩ := ih
    exact ⟨⟨_, (c.optimizeOnce_shrinks level).1.trans hrest⟩, hsettled⟩

/-- Optimisation ends, of any code and at every level: the rounds of passes that go on as long as a pass finds
something come to an end after at most two for each instruction, at the optimised code. It is no longer, has the
same target, registers and slots, is left as it is by every pass and by optimising again, and passes
verification if the code did. -/
theorem optimize_reaches_fixpoint (level : OptLevel) (c : Code) :
    (∃ rounds, rounds ≤ 2 * c.length ∧ Optimizes level rounds c (c.optimize level)) ∧
    (c.optimize level).length ≤ c.length ∧
    ((c.optimize level).target = c.target ∧ (c.optimize level).regs = c.regs ∧ (c.optimize level).slots = c.slots) ∧
    (c.optimize level).Settled level ∧
    (c.optimize level).optimize level = c.optimize level ∧
    (c.verify = .ok () → (c.optimize level).verify = .ok ()) := by
  obtain ⟨rounds, hrounds, hoptimizes⟩ := optimizes_optimizeWithin level (Nat.lt_succ_self c.weight)
  obtain ⟨⟨_, hshrinks⟩, hsettled⟩ := hoptimizes.shrinks_settled
  refine ⟨⟨rounds, Nat.le_trans hrounds (Instr.weightAll_le _), hoptimizes⟩, hshrinks.body.length_le,
    ⟨hshrinks.target, hshrinks.regs, hshrinks.slots⟩, hsettled, hsettled.optimize_eq, ?_⟩
  exact (optimize_standsFor level c).verified

/-- Takes the first of two branches, copies what it computes and writes the copy. Only when the branch is resolved
is the register of the sum written once, so that the copy folds, and the sum and its operands are dead. -/
def cascade : Code where
  target := .points
  regs := #[.bool, .int32, .int32, .int32, .int32]
  slots := 1
  body := [
    .const 0 (.bool true), .const 1 (.int32 2), .const 2 (.int32 3),
    .branch 0 [.binary 3 .add 1 2] [.jump .return, .const 3 (.int32 0)],
    .copy 4 3, .write 0 4]

/-- What is left of it is one constant and the write, and that stays. -/
theorem optimize_reaches_fixpoint_cascade :
    cascade.verify = .ok () ∧ (cascade.optimize .full).verify = .ok () ∧
      (cascade.optimize .full).body = [.const 4 (.int32 5), .write 0 4] ∧
      (cascade.optimize .full).optimize .full = cascade.optimize .full := by
  obtain ⟨-, -, -, -, hagain, hverify⟩ := optimize_reaches_fixpoint .full cascade
  exact ⟨rfl, hverify rfl, rfl, hagain⟩

end Code

end Elementwise
