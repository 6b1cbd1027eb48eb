import Elementwise.Proofs.Code.Trace

/-!
# What verification promises

Verified code, read as a statement about its instructions: every register they name exists, and what
they demand of their operands holds, in all bodies.
-/

namespace Elementwise

/-- A check in two parts passes if both parts do. -/
theorem VerifyError.bind_eq_ok {x : Except VerifyError Unit} {k : Unit → Except VerifyError Unit} :
    (x >>= k) = .ok () ↔ x = .ok () ∧ k () = .ok () := by
  cases x with
  | error e => simp [bind, Except.bind]
  | ok u => simp [bind, Except.bind]

/-- The registers of a list pass if all of them exist. -/
theorem Frame.registers_eq_ok {f : Frame} {rs : List Reg} :
    f.registers rs = .ok () ↔ ∀ r ∈ rs, r < f.regs.size := by
  induction rs with
  | nil => simp [registers]
  | cons r rest ih =>
    have hr : f.ty r = if h : r < f.regs.size then .ok f.regs[r] else .error (.badRegister r f.regs.size) := by
      by_cases h : r < f.regs.size <;> simp [ty, h]
    by_cases h : r < f.regs.size
    · simp [registers, hr, h, ih, bind, Except.bind]
    · simp [registers, hr, h, bind, Except.bind]

/-- The type of a register that exists. -/
theorem Frame.ty_eq_ok {f : Frame} {r : Reg} {ty : Ty} : f.ty r = .ok ty ↔ f.regs[r]? = some ty := by
  unfold Frame.ty
  cases f.regs[r]? <;> simp

/-- A register is as expected if it exists with the expected type. -/
theorem Frame.expect_eq_ok {f : Frame} {instr : String} {r : Reg} {ty : Ty} :
    f.expect instr r ty = .ok () ↔ f.regs[r]? = some ty := by
  unfold Frame.expect Frame.ty
  cases f.regs[r]? with
  | none => simp [bind, Except.bind]
  | some found => simp [bind, Except.bind]

/-- A slot is as expected if it exists. -/
theorem Frame.slot_eq_ok {f : Frame} {slot : Nat} : f.slot slot = .ok () ↔ slot < f.slots := by
  unfold Frame.slot
  split <;> simp_all

namespace Instr

variable {f : Frame} {inLoop : Bool}

/-- A body passes if its first instruction and the others do. -/
theorem checkAll_cons {i : Instr} {rest : List Instr} :
    checkAll f inLoop (i :: rest) = .ok () ↔ i.check f inLoop = .ok () ∧ checkAll f inLoop rest = .ok () := by
  rw [checkAll, VerifyError.bind_eq_ok]

/-- Code after code passes if both pass. -/
theorem checkAll_append {a b : List Instr} :
    checkAll f inLoop (a ++ b) = .ok () ↔ checkAll f inLoop a = .ok () ∧ checkAll f inLoop b = .ok () := by
  induction a with
  | nil => simp [checkAll]
  | cons i rest ih => rw [List.cons_append, checkAll_cons, checkAll_cons, ih, and_assoc]

/-- An instruction without bodies passes if its registers exist and its operands fit. -/
theorem check_leaf {i : Instr} (hleaf : i.bodies = []) :
    i.check f inLoop = .ok () ↔
      f.registers (i.dst?.toList ++ i.uses) = .ok () ∧ i.checkOperands f inLoop = .ok () := by
  cases i <;> first
    | (simp only [check, VerifyError.bind_eq_ok, and_true]; done)
    | simp [bodies] at hleaf

/-- A branch passes if its condition is a truth value and both bodies pass. -/
theorem check_branch {c : Reg} {t e : List Instr} :
    (branch c t e).check f inLoop = .ok () ↔
      (c < f.regs.size ∧ f.expect "if" c .bool = .ok ()) ∧
        checkAll f inLoop t = .ok () ∧ checkAll f inLoop e = .ok () := by
  simp only [check, VerifyError.bind_eq_ok, checkOperands, uses, dst?, Option.toList, List.nil_append,
    Frame.registers_eq_ok, List.mem_singleton, forall_eq, and_assoc]

/-- A loop passes if its condition is a truth value and its parts pass, the body as inside a loop. -/
theorem check_loop {k : LoopKind} {t b s : List Instr} {c : Option Reg} :
    (loop k t c b s).check f inLoop = .ok () ↔
      (∀ r ∈ c, r < f.regs.size ∧ f.expect "loop" r .bool = .ok ()) ∧
        checkAll f inLoop t = .ok () ∧ checkAll f true b = .ok () ∧ checkAll f inLoop s = .ok () := by
  cases c with
  | none => simp [check, VerifyError.bind_eq_ok, checkOperands, uses, dst?, Frame.registers_eq_ok]
  | some r =>
    simp only [check, VerifyError.bind_eq_ok, checkOperands, uses, dst?, Frame.registers_eq_ok,
      Option.toList, List.nil_append, List.mem_singleton, forall_eq, Option.mem_some, forall_eq', true_and]
    constructor
    · rintro ⟨hr, ht, hc, hb, hs⟩
      exact ⟨⟨hr, hc⟩, ht, hb, hs⟩
    · rintro ⟨⟨hr, hc⟩, ht, hb, hs⟩
      exact ⟨hr, ht, hc, hb, hs⟩

/-- The registers and the slot that an instruction itself names exist. -/
structure Bounded (count slots : Nat) (i : Instr) : Prop where
  regs : ∀ r ∈ i.dst?.toList ++ i.uses, r < count
  slot : ∀ slot src, i = write slot src → slot < slots

/-- All instructions of code that passes verification name registers and slots that exist. -/
theorem bounded_of_checkAll {f : Frame} {inLoop : Bool} {code : List Instr} (h : checkAll f inLoop code = .ok ()) :
    ∀ i ∈ partsAll code, i.Bounded f.regs.size f.slots := by
  induction code using code_induction generalizing inLoop with
  | nil => simp [partsAll]
  | leaf i rest hleaf ih =>
    obtain ⟨hi, hrest⟩ := checkAll_cons.mp h
    obtain ⟨hregs, hoperands⟩ := (check_leaf hleaf).mp hi
    rw [partsAll, parts_leaf hleaf, List.singleton_append, List.forall_mem_cons]
    refine ⟨⟨Frame.registers_eq_ok.mp hregs, ?_⟩, ih hrest⟩
    rintro slot src rfl
    exact Frame.slot_eq_ok.mp hoperands
  | branch c t e rest iht ihe ih =>
    obtain ⟨hi, hrest⟩ := checkAll_cons.mp h
    obtain ⟨⟨hc, -⟩, ht, he⟩ := check_branch.mp hi
    simp only [partsAll, parts, List.cons_append, List.forall_mem_cons, List.forall_mem_append]
    exact ⟨⟨by simpa [dst?, uses] using hc, by simp⟩, ⟨iht ht, ihe he⟩, ih hrest⟩
  | loop k t c b st rest iht ihb ihs ih =>
    obtain ⟨hi, hrest⟩ := checkAll_cons.mp h
    obtain ⟨hc, ht, hb, hs⟩ := check_loop.mp hi
    simp only [partsAll, parts, List.cons_append, List.forall_mem_cons, List.forall_mem_append]
    refine ⟨⟨fun r hr => (hc r ?_).1, by simp⟩, ⟨⟨iht ht, ihb hb⟩, ihs hs⟩, ih hrest⟩
    simpa [dst?, uses] using hr

end Instr

end Elementwise
