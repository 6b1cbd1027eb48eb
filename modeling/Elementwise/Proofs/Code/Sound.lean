import Elementwise.Proofs.Code.Verify
import Elementwise.Proofs.Optimize.Constants
import Elementwise.Proofs.Value.Typing
import Mathlib.Data.List.Forall2
import Mathlib.Data.Set.Insert

/-!
# Sound code

A judgement on code that is made from the inside out: the registers that an instruction names have the
types that it wants, it reads only registers of a set that were written, and jumps out of a loop stand
in one. Sound code passes verification, and no run of it reads a register before it is written. If the
types of values are tracked too, every instruction keeps registers and slots within their types.
-/

namespace Elementwise

/-- What code is judged by: the types that a slot may be used with, and whether the types of values are
tracked. -/
structure Regime where
  slots : Nat → Ty → Prop
  typed : Prop

/-- Slots that are listed are used with the types they are listed with. -/
instance : Coe (List Ty) (Nat → Ty → Prop) := ⟨fun slots slot ty => slots[slot]? = some ty⟩

/-- Every register of the first array is in the second, with the same type. -/
def KeepsTypes (types types' : Array Ty) : Prop := ∀ (r : Reg) ty, types[r]? = some ty → types'[r]? = some ty

namespace Instr

variable {i : Instr}

/-- What an instruction demands of the types of the registers it reads and of its own register. If the
types of values are tracked, it puts values of the type of its register there whenever it reads values
of the types of the others. -/
def Rule (σ : Regime) : Instr → List Ty → Ty → Prop
  | const _ v, _, res => σ.typed → v.HasType res
  | copy _ _, tys, res => tys = [res]
  | binary _ op _ _, tys, res => ∃ ty, tys = [ty, ty] ∧
      (σ.typed → ∀ a b : Value, a.HasType ty → b.HasType ty → (Value.binary op a b).HasType res)
  | unary _ op _, tys, res => ∃ ty, tys = [ty] ∧
      (σ.typed → ∀ a : Value, a.HasType ty → (Value.unary op a).HasType res)
  | convert _ _, tys, res => ∃ ty, tys = [ty] ∧
      (σ.typed → ∀ a : Value, a.HasType ty → ∃ b, a.convert? res = some b ∧ b.HasType res)
  | pack _ _, tys, res => σ.typed → ∀ vs, List.Forall₂ Value.HasType vs tys → (Value.pack vs res).HasType res
  | extract _ _ _, tys, res => ∃ ty, tys = [ty, .int32] ∧ res = ty.elementTy
  | insert _ _ _ _, tys, res => tys = [res, .int32, res.elementTy]
  | read _ slot, _, res => σ.slots slot res
  | write slot _, tys, _ => ∃ ty, tys = [ty] ∧ σ.slots slot ty
  | intrinsic _ op, _, res => res = op.ty
  | call _ _ body _, tys, res => σ.typed → body.Respects tys res
  | branch _ _ _, tys, _ => tys = [.bool]
  | loop _ _ _ _ _, tys, _ => ∀ ty ∈ tys, ty = .bool
  | jump _, _, _ => True

/-- The registers of a list exist and have these types. -/
def HaveTypes (types : Array Ty) (rs : List Reg) (tys : List Ty) : Prop :=
  List.Forall₂ (fun (r : Reg) ty => types[r]? = some ty) rs tys

/-- The registers of an instruction exist, with types that follow its rule. -/
def Fits (σ : Regime) (types : Array Ty) (i : Instr) : Prop :=
  ∃ tys res, HaveTypes types i.uses tys ∧
    (∀ d, i.dst? = some d → types[d]? = some res) ∧ i.Rule σ tys res

variable {σ : Regime} {types types' : Array Ty}

theorem Fits.mono (h : i.Fits σ types) (hle : KeepsTypes types types') : i.Fits σ types' := by
  obtain ⟨tys, res, huses, hdst, hrule⟩ := h
  exact ⟨tys, res, huses.imp fun r ty => hle r ty, fun d hd => hle _ _ (hdst d hd), hrule⟩

/-- Registers that have types exist. -/
theorem HaveTypes.lt_size {rs : List Reg} {tys : List Ty} (h : HaveTypes types rs tys) : ∀ r ∈ rs, r < types.size := by
  induction h with
  | nil => simp
  | cons hr _ ih => exact List.forall_mem_cons.mpr ⟨(Array.getElem?_eq_some_iff.mp hr).1, ih⟩

/-- The registers of an instruction that fits exist. -/
theorem Fits.lt_size (h : i.Fits σ types) : ∀ r ∈ i.dst?.toList ++ i.uses, r < types.size := by
  obtain ⟨tys, res, huses, hdst, -⟩ := h
  intro r hr
  rcases List.mem_append.mp hr with hr | hr
  · exact (Array.getElem?_eq_some_iff.mp (hdst r (Option.mem_toList.mp hr))).1
  · exact huses.lt_size r hr

/-- An instruction that fits passes verification, apart from its bodies. -/
theorem Fits.checkOperands {slots : List Ty} {typed : Prop} (h : i.Fits ⟨slots, typed⟩ types) (inLoop : Bool)
    (hjump : ∀ word, i = jump word → word = .return ∨ inLoop = true) :
    i.checkOperands ⟨types, slots.length⟩ inLoop = .ok () := by
  obtain ⟨tys, res, huses, hdst, hrule⟩ := h
  have hslot {slot : Nat} {ty : Ty} (h : slots[slot]? = some ty) : slot < slots.length :=
    (List.getElem?_eq_some_iff.mp h).1
  cases i with
  | copy d s =>
    obtain rfl : tys = [res] := hrule
    rcases huses with _ | ⟨hs, -⟩
    rw [Instr.checkOperands, (Frame.ty_eq_ok (f := ⟨types, _⟩)).mpr (hdst d rfl)]
    exact Frame.expect_eq_ok.mpr hs
  | binary d op l r =>
    obtain ⟨ty, rfl, -⟩ := hrule
    rcases huses with _ | ⟨hl, _ | ⟨hr, -⟩⟩
    rw [Instr.checkOperands, (Frame.ty_eq_ok (f := ⟨types, _⟩)).mpr hl]
    exact Frame.expect_eq_ok.mpr hr
  | extract d s i =>
    obtain ⟨ty, rfl, -⟩ := hrule
    rcases huses with _ | ⟨-, _ | ⟨hi, -⟩⟩
    exact Frame.expect_eq_ok.mpr hi
  | insert d s i v =>
    obtain rfl : tys = [res, .int32, res.elementTy] := hrule
    rcases huses with _ | ⟨hs, _ | ⟨hi, _ | ⟨hv, -⟩⟩⟩
    rw [Instr.checkOperands, (Frame.ty_eq_ok (f := ⟨types, _⟩)).mpr (hdst d rfl)]
    refine VerifyError.bind_eq_ok.mpr ⟨Frame.expect_eq_ok.mpr hs, ?_⟩
    exact VerifyError.bind_eq_ok.mpr ⟨Frame.expect_eq_ok.mpr hi, Frame.expect_eq_ok.mpr hv⟩
  | read d slot => exact Frame.slot_eq_ok.mpr (hslot hrule)
  | write slot s =>
    obtain ⟨ty, -, hty⟩ := hrule
    exact Frame.slot_eq_ok.mpr (hslot hty)
  | branch c t e =>
    obtain rfl : tys = [.bool] := hrule
    rcases huses with _ | ⟨hc, -⟩
    exact Frame.expect_eq_ok.mpr hc
  | jump word =>
    rcases hjump word rfl with rfl | rfl
    · rfl
    · cases word <;> rfl
  | _ => rfl

theorem fits_jump {word : Jump} : (jump word).Fits σ types := ⟨[], .void, .nil, nofun, trivial⟩

/-- The condition of a loop that fits is a truth value. -/
theorem Fits.condition {k : LoopKind} {t b s : List Instr} {c : Option Reg} (h : (loop k t c b s).Fits σ types)
    {r : Reg} (hr : r ∈ c) : types[r]? = some .bool := by
  obtain ⟨tys, res, huses, -, hrule⟩ := h
  obtain rfl := Option.mem_def.mp hr
  rcases huses with _ | ⟨hty, -⟩
  exact hrule _ List.mem_cons_self ▸ hty

/-- Sound code, with the jumps it may make, the registers that are known to be written before it, and
those that are written after it if control reaches its end. -/
inductive Sound (σ : Regime) (types : Array Ty) : Set Jump → Set Reg → List Instr → Set Reg → Prop
  | nil {J W W'} (hle : W' ⊆ W) : Sound σ types J W [] W'
  | leaf {J W W' i rest} (hleaf : i.bodies = []) (hjump : i.isJump = false) (hfits : i.Fits σ types)
      (huses : ∀ r ∈ i.uses, r ∈ W) (hrest : Sound σ types J (W ∪ {r | i.dst? = some r}) rest W') :
      Sound σ types J W (i :: rest) W'
  | branch {J W Wt We W' c t e rest} (hfits : (branch c t e).Fits σ types) (hc : c ∈ W)
      (hthen : Sound σ types J W t Wt) (helse : Sound σ types J W e We) (hrest : Sound σ types J W rest W') :
      Sound σ types J W (branch c t e :: rest) W'
  /-- The step may read what the body writes if the body never jumps. -/
  | loop {J Jb W Wt Wb Ws Ws' W' k t c b s rest} (hfits : (loop k t c b s).Fits σ types)
      (htest : Sound σ types ∅ W t Wt) (hc : ∀ r ∈ c, r ∈ Wt) (hbody : Sound σ types Jb W b Wb)
      (hreturn : .return ∈ Jb → .return ∈ J) (hbetween : Ws ⊆ W ∨ (Ws ⊆ Wb ∧ Jb = ∅))
      (hstep : Sound σ types J Ws s Ws') (hrest : Sound σ types J W rest W') :
      Sound σ types J W (loop k t c b s :: rest) W'
  | jump {J W W' word rest} (hword : word ∈ J) (hrest : Sound σ types J W rest W') :
      Sound σ types J W (jump word :: rest) W'

namespace Sound

variable {J J' : Set Jump} {W W' V V' : Set Reg} {a b code : List Instr}

theorem weaken (h : Sound σ types J W code W') (hJ : J ⊆ J') (hW : W ⊆ V) (hW' : V' ⊆ W') :
    Sound σ types J' V code V' := by
  induction h generalizing J' V V' with
  | nil hle => exact .nil (hW'.trans (hle.trans hW))
  | leaf hleaf hjump hfits huses hrest ih =>
    exact .leaf hleaf hjump hfits (fun r hr => hW (huses r hr)) (ih hJ (Set.union_subset_union_left _ hW) hW')
  | branch hfits hc hthen helse hrest iht ihe ih =>
    exact .branch hfits (hW hc) (iht hJ hW subset_rfl) (ihe hJ hW subset_rfl) (ih hJ hW hW')
  | loop hfits htest hc hbody hreturn hbetween hstep hrest iht ihb ihs ih =>
    refine .loop hfits (iht subset_rfl hW subset_rfl) hc (ihb subset_rfl hW subset_rfl) (fun h => hJ (hreturn h)) ?_
      (ihs hJ subset_rfl subset_rfl) (ih hJ hW hW')
    exact hbetween.imp_left fun h => h.trans hW
  | jump hword hrest ih => exact .jump (hJ hword) (ih hJ hW hW')

theorem mono (h : Sound σ types J W code W') (hle : KeepsTypes types types') : Sound σ types' J W code W' := by
  induction h with
  | nil hW => exact .nil hW
  | leaf hleaf hjump hfits huses hrest ih => exact .leaf hleaf hjump (hfits.mono hle) huses ih
  | branch hfits hc hthen helse hrest iht ihe ih => exact .branch (hfits.mono hle) hc iht ihe ih
  | loop hfits htest hc hbody hreturn hbetween hstep hrest iht ihb ihs ih =>
    exact .loop (hfits.mono hle) iht hc ihb hreturn hbetween ihs ih
  | jump hword hrest ih => exact .jump hword ih

theorem append (ha : Sound σ types J W a V) (hb : Sound σ types J V b W') : Sound σ types J W (a ++ b) W' := by
  induction ha with
  | nil hle => exact hb.weaken subset_rfl hle subset_rfl
  | leaf hleaf hjump hfits huses hrest ih => exact .leaf hleaf hjump hfits huses (ih hb)
  | branch hfits hc hthen helse hrest iht ihe ih => exact .branch hfits hc hthen helse (ih hb)
  | loop hfits htest hc hbody hreturn hbetween hstep hrest iht ihb ihs ih =>
    exact .loop hfits htest hc hbody hreturn hbetween hstep (ih hb)
  | jump hword hrest ih => exact .jump hword (ih hb)

/-- Every instruction of sound code fits. -/
theorem fits (h : Sound σ types J W code W') : ∀ i ∈ partsAll code, i.Fits σ types := by
  induction h with
  | nil => simp [partsAll]
  | leaf hleaf hjump hfits huses hrest ih =>
    rw [partsAll, parts_leaf hleaf]
    exact List.forall_mem_cons.mpr ⟨hfits, ih⟩
  | branch hfits hc hthen helse hrest iht ihe ih =>
    simp only [partsAll, parts, List.cons_append, List.mem_cons, List.mem_append]
    rintro i (rfl | (hi | hi) | hi)
    · exact hfits
    · exact iht i hi
    · exact ihe i hi
    · exact ih i hi
  | loop hfits htest hc hbody hreturn hbetween hstep hrest iht ihb ihs ih =>
    simp only [partsAll, parts, List.cons_append, List.mem_cons, List.mem_append]
    rintro i (rfl | ((hi | hi) | hi) | hi)
    · exact hfits
    · exact iht i hi
    · exact ihb i hi
    · exact ihs i hi
    · exact ih i hi
  | jump hword hrest ih => exact List.forall_mem_cons.mpr ⟨fits_jump, ih⟩

/-- Sound code passes verification, inside a loop if it jumps out of one. -/
theorem checkAll {slots : List Ty} {typed : Prop} (h : Sound ⟨slots, typed⟩ types J W code W') {inLoop : Bool}
    (hinLoop : ∀ word ∈ J, word = .return ∨ inLoop = true) :
    checkAll ⟨types, slots.length⟩ inLoop code = .ok () := by
  have hregs {i : Instr} (hfits : i.Fits ⟨slots, typed⟩ types) :
      Frame.registers ⟨types, slots.length⟩ (i.dst?.toList ++ i.uses) = .ok () :=
    Frame.registers_eq_ok.mpr hfits.lt_size
  induction h generalizing inLoop with
  | nil => rfl
  | leaf hleaf hjump hfits huses hrest ih =>
    rw [checkAll_cons, check_leaf hleaf]
    refine ⟨⟨hregs hfits, hfits.checkOperands _ ?_⟩, ih hinLoop⟩
    rintro word rfl
    cases hjump
  | branch hfits hc hthen helse hrest iht ihe ih =>
    rw [checkAll_cons, check_branch]
    have hoperands := hfits.checkOperands true (by simp)
    exact ⟨⟨⟨hfits.lt_size _ (by simp [uses]), hoperands⟩, iht hinLoop, ihe hinLoop⟩, ih hinLoop⟩
  | loop hfits htest hc hbody hreturn hbetween hstep hrest iht ihb ihs ih =>
    rw [checkAll_cons, check_loop]
    refine ⟨⟨fun r hr => ?_, iht (by simp), ihb fun _ _ => .inr rfl, ihs hinLoop⟩, ih hinLoop⟩
    have hbool := hfits.condition hr
    exact ⟨(Array.getElem?_eq_some_iff.mp hbool).1, Frame.expect_eq_ok.mpr hbool⟩
  | @jump J W W' word rest hword hrest ih =>
    rw [checkAll_cons, check_leaf rfl]
    have hfits : (Instr.jump word).Fits ⟨slots, typed⟩ types := fits_jump
    refine ⟨⟨hregs hfits, hfits.checkOperands _ fun word' h => ?_⟩, ih hinLoop⟩
    exact jump.inj h ▸ hinLoop _ hword

end Sound

end Instr

/-- A run from where some registers are written reads only written ones, and leaves those of a set
written that depends on its result. -/
def Traced.Defines {α : Type} (W : Set Reg) (t : Traced α) (post : α → Set Reg) : Prop :=
  ∀ (m : Machine) (V : List Reg), (∀ r ∈ W, r ∈ V) →
    ReadsWritten V (t.steps m) ∧ ∀ a n, t.run m = .done a n → ∀ r ∈ post a, r ∈ writtenAfter V (t.steps m)

namespace Traced.Defines

variable {α β : Type} {W W' : Set Reg}

variable {post : α → Set Reg} {t : Traced α}

/-- A step that reads what is written, writes its register. -/
theorem one {i : Instr} {run : Machine → Outcome α} {P : α → Prop} (huses : ∀ r ∈ i.uses, r ∈ W)
    (hrun : ∀ m, (run m).Post fun a _ => P a) :
    Defines W (.one i run) fun a => {r | P a → r ∈ W ∪ {r | i.dst? = some r}} := by
  refine fun m V hV => ⟨⟨fun r hr => hV r (huses r hr), trivial⟩, fun a n ha r hr => ?_⟩
  rcases hr ((hrun m).of_done ha) with hr | hr
  · exact List.mem_append_right _ (hV r hr)
  · exact List.mem_append_left _ (by simpa using hr)

theorem weaken {post' : α → Set Reg} (h : Defines W t post) (hW : W ⊆ W') (hpost : ∀ a, post' a ⊆ post a) :
    Defines W' t post' := by
  intro m V hV
  obtain ⟨hreads, hdone⟩ := h m V fun r hr => hV r (hW hr)
  exact ⟨hreads, fun a n hrun r hr => hdone a n hrun r (hpost a hr)⟩

/-- What was written before a run is still written after it. -/
theorem frame (h : Defines W t post) : Defines W t fun a => W ∪ post a := by
  intro m V hV
  obtain ⟨hreads, hdone⟩ := h m V hV
  refine ⟨hreads, fun a n hrun r hr => ?_⟩
  rcases hr with hr | hr
  · exact mem_writtenAfter (hV r hr) _
  · exact hdone a n hrun r hr

theorem bind {k : α → Traced β} {post' : β → Set Reg} (h : Defines W t post) (hk : ∀ a, Defines (post a) (k a) post') :
    Defines W (t.bind k) post' := by
  intro m V hV
  obtain ⟨hreads, hdone⟩ := h m V hV
  simp only [Traced.bind]
  cases hrun : t.run m with
  | done a n =>
    obtain ⟨hreads', hdone'⟩ := hk a n _ (hdone a n hrun)
    rw [readsWritten_append, writtenAfter_append]
    exact ⟨⟨hreads, hreads'⟩, hdone'⟩
  | failed fault n => simpa using hreads
  | exhausted => simpa using hreads

/-- What is written after code that ends in some flow: the registers of a set if control goes on, and
those written before if it makes one of the given jumps. It makes no other jump. -/
def after (J : Set Jump) (W W' : Set Reg) : Flow → Set Reg
  | .next => W'
  | .jump word => {r | word ∈ J → r ∈ W}

/-- Code after code, up to the first jump. -/
theorem sequence {J : Set Jump} {V : Set Reg} {t rest : Traced Flow} (h : Defines W t (after J W V)) (hV : W ⊆ V)
    (hrest : Defines V rest (after J V W')) :
    Defines W (t.bind fun
      | .next => rest
      | .jump word => .pure (.jump word)) (after J W W') := by
  refine h.bind fun flow => ?_
  cases flow with
  | next =>
    refine hrest.weaken subset_rfl fun flow => ?_
    cases flow with
    | next => exact subset_rfl
    | jump word => exact fun r hr hword => hV (hr hword)
  | jump word => exact fun m L hL => ⟨trivial, by rintro _ _ ⟨⟩; exact hL⟩

/-- What is written after the test of a loop. -/
def afterTest (J : Set Jump) (W : Set Reg) : Option Bool → Set Reg
  | none => after J W W (.jump .return)
  | some _ => W

/-- What is written after the body or the step of a loop, if what comes next needs the given registers. -/
def afterPart (J : Set Jump) (W needed : Set Reg) : Flow → Set Reg
  | .jump .return => after J W W (.jump .return)
  | .jump .break => W
  | _ => needed

theorem leave {J : Set Jump} (flow : Flow) : Defines (after J W W flow) (.pure flow) (after J W W) :=
  fun m L hL => ⟨trivial, by rintro _ _ ⟨⟩; exact hL⟩

/-- What follows the step of a loop. -/
theorem again {test : Traced (Option Bool)} {body step : Traced Flow} {J : Set Jump} {fuel : Nat}
    (hloop : Defines W (.loop test body step fuel false) (after J W W)) (flow : Flow) :
    Defines (afterPart J W W flow) (match flow with
      | .jump .return => .pure (.jump .return)
      | _ => Traced.loop test body step fuel false) (after J W W) := by
  rcases flow with _ | _ | _ | _
  · exact hloop
  · exact leave (.jump .return)
  · exact hloop
  · exact hloop

/-- The passes of a loop. -/
theorem loop {test : Traced (Option Bool)} {body step : Traced Flow} {J : Set Jump} {Ws : Set Reg}
    (htest : Defines W test (afterTest J W)) (hbody : Defines W body (afterPart J W (W ∪ Ws)))
    (hstep : Defines (W ∪ Ws) step (afterPart J W W)) (fuel : Nat) (first : Bool) :
    Defines W (.loop test body step fuel first) (after J W W) := by
  induction fuel generalizing first with
  | zero => exact fun m V hV => ⟨trivial, by rintro _ _ ⟨⟩⟩
  | succ fuel ih =>
    have hstart : Defines W (if first then .pure (some true) else test) (afterTest J W) := by
      cases first
      · exact htest
      · exact fun m V hV => ⟨trivial, by rintro _ _ ⟨⟩; exact hV⟩
    refine hstart.bind fun goesOn => ?_
    rcases goesOn with _ | _ | _
    · exact leave (.jump .return)
    · exact leave .next
    · refine hbody.bind fun flow => ?_
      rcases flow with _ | _ | _ | _
      · exact hstep.bind (again (ih false))
      · exact leave (.jump .return)
      · exact leave .next
      · exact hstep.bind (again (ih false))

end Traced.Defines

/-- A look at the condition of a loop tells whether to go on. -/
theorem Traced.look_post (c : Option Reg) (m : Machine) : (Traced.look c m).Post fun again _ => again ≠ none := by
  unfold Traced.look
  split
  · exact nofun
  · split
    · exact nofun
    · trivial

namespace Instr.Sound

variable {σ : Regime} {types : Array Ty} {J : Set Jump} {W W' : Set Reg} {code : List Instr}

/-- Sound code reads only what was written, at its end what it promises is written, and it makes no
other jump than it may. -/
theorem defines (h : Sound σ types J W code W') (types' : Array Ty) (fuel : Nat) :
    (tracedAll types' fuel code).Defines W (Traced.Defines.after J W W') := by
  induction h with
  | nil hle => exact fun m V hV => ⟨trivial, by rintro _ _ ⟨⟩ r hr; exact hV r (hle hr)⟩
  | @leaf J W W' i rest hleaf hjump hfits huses hrest ih =>
    rw [tracedAll, traced_leaf hleaf]
    refine .sequence ((Traced.Defines.one huses fun _ => (run_effect hleaf).mono fun _ _ h => h.flow hjump).weaken subset_rfl fun flow => ?_)
      Set.subset_union_left ih
    cases flow with
    | next => exact fun r hr _ => hr
    | jump word => exact fun r _ hnext => absurd hnext (by simp)
  | @branch J W Wt We W' c t e rest hfits hc hthen helse hrest iht ihe ih =>
    have huses : ∀ r ∈ (Instr.branch c t e).uses, r ∈ W := by simpa [uses] using hc
    have hlook (run : Machine → Outcome Bool) : (Traced.one (Instr.branch c t e) run).Defines W fun _ => W :=
      (Traced.Defines.one huses fun m => .trivial (run m)).weaken subset_rfl fun _ r hr _ => .inl hr
    have hbody {code : List Instr} {V : Set Reg}
        (h : (tracedAll types' fuel code).Defines W (Traced.Defines.after J W V)) :
        (tracedAll types' fuel code).Defines W (Traced.Defines.after J W W) :=
      h.frame.weaken subset_rfl fun flow => by
        cases flow with
        | next => exact Set.subset_union_left
        | jump word => exact Set.subset_union_right
    refine .sequence ((hlook _).bind fun taken => ?_) subset_rfl ih
    cases taken
    · exact hbody ihe
    · exact hbody iht
  | @loop J Jb W Wt Wb Ws Ws' W' k t c b s rest hfits htest hc hbody hreturn hbetween hstep hrest iht ihb ihs ih =>
    have htest : (Traced.test (Instr.loop k t c b s) c (tracedAll types' fuel t)).Defines W
        (Traced.Defines.afterTest J W) := by
      have hlook {V : Set Reg} (hV : W ∪ Wt ⊆ V) : (Traced.one (Instr.loop k t c b s) (Traced.look c)).Defines V
          (Traced.Defines.afterTest J W) := by
        refine (Traced.Defines.one (fun r hr => hV (.inr (hc r ?_))) (Traced.look_post c)).weaken subset_rfl fun again => ?_
        · simpa [uses] using hr
        · cases again with
          | none => exact fun r _ h => absurd rfl h
          | some again => exact fun r hr _ => .inl (hV (.inl hr))
      have hnever (word : Jump) : W ∪ Wt ⊆ W ∪ Traced.Defines.after ∅ W Wt (.jump word) := fun r _ => .inr (by rintro ⟨⟩)
      refine iht.frame.bind fun flow => ?_
      rcases flow with _ | _ | _ | _
      · exact hlook subset_rfl
      · exact fun m L hL => ⟨trivial, fun _ _ _ r _ => hL r (.inr (by rintro ⟨⟩))⟩
      · exact hlook (hnever _)
      · exact hlook (hnever _)
    have hbody : (tracedAll types' fuel b).Defines W (Traced.Defines.afterPart J W (W ∪ Ws)) := by
      refine ihb.frame.weaken subset_rfl fun flow => ?_
      rcases flow with _ | _ | _ | _
      · refine Set.union_subset Set.subset_union_left ?_
        rcases hbetween with hWs | ⟨hWs, -⟩
        · exact hWs.trans Set.subset_union_left
        · exact hWs.trans Set.subset_union_right
      · exact fun r hr => .inr fun h => hr (hreturn h)
      · exact Set.subset_union_left
      · refine Set.union_subset Set.subset_union_left ?_
        rcases hbetween with hWs | ⟨-, rfl⟩
        · exact hWs.trans Set.subset_union_left
        · exact fun r _ => .inr (by rintro ⟨⟩)
    have hstep : (tracedAll types' fuel s).Defines (W ∪ Ws) (Traced.Defines.afterPart J W W) := by
      refine (ihs.weaken Set.subset_union_right fun _ => subset_rfl).frame.weaken subset_rfl fun flow => ?_
      rcases flow with _ | _ | _ | _
      · exact fun r hr => .inl (.inl hr)
      · intro r hr
        by_cases h : Jump.return ∈ J
        · exact .inl (.inl (hr h))
        · exact .inr fun h' => absurd h' h
      · exact fun r hr => .inl (.inl hr)
      · exact fun r hr => .inl (.inl hr)
    exact .sequence (.loop htest hbody hstep _ _) subset_rfl ih
  | @jump J W W' word rest hword hrest ih =>
    have hrun (m : Machine) : ((Instr.jump word).run types' fuel m).Post fun flow _ => flow = .jump word := rfl
    refine .sequence ((Traced.Defines.one (by simp [uses]) hrun).weaken subset_rfl fun flow => ?_) subset_rfl ih
    cases flow with
    | next => exact fun r _ h => absurd h (by simp)
    | jump word' =>
      intro r hr h
      obtain rfl : word' = word := Flow.jump.inj h
      exact .inl (hr hword)

/-- No run of sound code reads a register before it was written. -/
theorem readsWritten (h : Sound σ types J ∅ code W') (types' : Array Ty) (fuel : Nat) (m : Machine) :
    ReadsWritten [] ((tracedAll types' fuel code).steps m) :=
  (h.defines types' fuel m [] (by simp)).1

end Instr.Sound

end Elementwise
