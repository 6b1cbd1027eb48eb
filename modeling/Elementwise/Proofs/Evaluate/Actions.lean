import Elementwise.Proofs.Evaluate.Computes
import Elementwise.Proofs.Generate.Relation

/-!
# Generated operations compute what they mean

The code of operators, of conversions, of arrays and of the operands of calls leaves in a register what
the operation gives on the data that its operands hold.
-/

namespace Elementwise

open Builder

theorem Computes.ofOption {types : Array Ty} {fuel n : Nat} {b b' : Builder} {m : Machine} {α : Type} {r : Option α}
    {a : α} {post : α → Machine → Prop} (hr : r = some a) (h : Computes types fuel n b b' m (Pure.pure a) post) :
    Computes types fuel n b b' m (Eval.ofOption r) post := by
  subst hr
  exact h

/-- A register that gets one datum and, in a branch, maybe another that is computed there. -/
theorem computes_choice {types : Array Ty} {fuel : Nat} {c x o result : Operand} {dc dx : Datum} {ty : Ty} {y : Eval Datum}
    {t : Prop} [Decidable t] {body : List Instr} {b₁ b₂ b₃ b₄ b₅ b₆ b₇ : Builder} {m : Machine} {u : Unit}
    (hc : c.Holds b₁ dc m) (hx : x.Holds b₁ dx m) (hty : dx.ty = ty) (halloc : alloc ty b₁ = (result, b₂))
    (hassign : assign result x b₂ = (u, b₃)) (hg : (beginBlock b₃).2.Grows b₄)
    (hbody : ∀ m₃, m.Later b₁.regs.size b₃.regs.size m₃ → Computes types fuel b₃.regs.size (beginBlock b₃).2 b₄ m₃ y
      fun d m' => m'.regs[o.reg]? = some d.value ∧ d.ty = ty)
    (hreassign : assign result o b₄ = (u, b₅)) (hend : endBlock b₅ = (body, b₆))
    (hbranch : Builder.emit (.branch c.reg (if t then body else []) (if t then [] else body)) b₆ = (u, b₇)) :
    Computes types fuel b₁.regs.size b₁ b₇ m (if dc.value.truthy = decide t then y else pure dx) (result.Holds b₇) := by
  have hresult : result = ⟨b₁.regs.size, ty⟩ := (Prod.mk.inj halloc).1.symm
  have hg₃ : b₁.Grows b₃ := (Grows.of_eq halloc).trans (Grows.of_eq hassign)
  have hg₅ : (beginBlock b₃).2.Grows b₅ := hg.trans (Grows.of_eq hreassign)
  obtain ⟨hadds₇, hregs₇⟩ := hg₅.closed hend hbranch
  have hg₇ : b₃.Grows b₇ := ⟨_, hadds₇⟩
  refine .bindWithin (y := fun _ => if dc.value.truthy = decide t then y else pure dx) hg₃ hg₇ (Nat.le_refl _) (Nat.le_refl _)
    (computes_copy halloc hassign hx hty).result fun d m₃ hlater hd => ?_
  obtain ⟨rfl, hd⟩ := hd
  refine .branch ((hlater.regs _ (.inl hc.bound)).trans hc.value) hg₅ hend hbranch ?_ (hd.later (.refl _ b₃.regs.size _) hg₇)
  rw [← Eval.bind_pure y]
  refine .bindWithin hg (Grows.of_eq hreassign) hg₃.size_le (Nat.le_refl _) (hbody m₃ hlater) fun d' m₄ hlater₄ hd' => ?_
  have hoverwrite : Computes types fuel b₁.regs.size b₄ b₅ m₄ (pure d') (result.Holds b₅) :=
    computes_overwrite hreassign (by rw [hresult]) (Nat.lt_of_lt_of_le hd.bound hg.size_le) hd'.1 (hd'.2.trans (by rw [hresult]))
  exact hoverwrite.weaken fun _ _ _ h => ⟨h.value, h.type, hregs₇ ▸ h.bound⟩

namespace Generate

variable {types : Array Ty} {fuel : Nat} {b b' : Builder} {m : Machine} {o l r v : Operand} {d dl dr : Datum}

instance (op : BinaryOp) (l r : Operand) (common : Ty) : Placing (applyBinary op l r common) := by
  unfold applyBinary; infer_instance
instance (op : UnaryOp) (o : Operand) (ty : Ty) : Placing (applyUnary op o ty) := by unfold applyUnary; infer_instance
instance (os : List Operand) (ty : Ty) : Placing (applyPack os ty) := by unfold applyPack; infer_instance
instance (n : UInt8) (row column : Operand) : Placing (entryIndex n row column) := by unfold entryIndex; infer_instance

instance (s : Signature) (i : Nat) (os : List Operand) : Placing (convertArguments s i os) := by
  induction os generalizing i with
  | nil => exact inferInstanceAs (Placing (pure []))
  | cons o os ih =>
    rw [convertArguments]
    cases s.param? i <;> infer_instance

instance (p : Place) : Placing (load p) := by
  cases p <;> (unfold load; infer_instance)

instance (p : Place) (o : Operand) : Placing (store p o) := by
  induction p generalizing o with
  | register x => exact inferInstanceAs (Placing (assign x o))
  | slot slot ty => exact inferInstanceAs (Placing (writeSlot slot o))
  | component base container index ih =>
    unfold store
    cases base with
    | register | slot | component => infer_instance

instance (op : CrementOp) (post : Bool) (p : Place) : Placing (step op post p) := by
  unfold step; infer_instance

/-- The code of an operator on two operands. -/
theorem does_applyBinary (op : BinaryOp) (common : Ty) (hl : l.Holds b dl m) (hr : r.Holds b dr m) :
    Does types fuel b (applyBinary op l r common) m
      (pure (.binary op (dl.convert (operandTy op.opClass common)) (dr.convert (operandTy op.opClass common))
        (resultTy op.opClass (operandTy op.opClass common)))) Operand.Holds := by
  refine (does_convert hl _).before fun l' b₁ m₁ hb hlater hl' => ?_
  refine (does_convert (hr.later hlater hb) _).before fun r' b₂ m₂ hb₂ hlater₂ hr' => ?_
  exact does_binary (hl'.later hlater₂ hb₂) hr' op _

/-- The code of an operator on one operand. -/
theorem does_applyUnary (op : UnaryOp) (ty : Ty) (h : o.Holds b d m) :
    Does types fuel b (applyUnary op o ty) m (pure ⟨ty, Value.unary op (d.convert ty).value⟩) Operand.Holds :=
  (does_convert h ty).before fun _ _ _ _ _ hv => does_unary hv op ty

/-- The code of an array. -/
theorem does_applyPack {os : List Operand} {ds : List Datum} (h : AllHold os b ds m) (ty : Ty) :
    Does types fuel b (applyPack os ty) m (pure (.ofComponents (ds.map fun d => d.convert ty.elementTy) ty))
      Operand.Holds := by
  have hitems : Does types fuel b (os.mapM fun o => convert o ty.elementTy) m
      (pure (ds.map fun d => d.convert ty.elementTy)) AllHold := by
    refine .mapM (List.forall₂_map_right_iff.mpr (List.Forall₂.imp (fun o d ho b₁ m₁ hb hlater => ?_) h))
    exact does_convert (ho.later hlater hb) ty.elementTy
  exact hitems.before fun _ _ _ _ _ hos => does_pack hos ty

/-- The code of the position of a matrix entry. -/
theorem does_entryIndex (n : UInt8) (hl : l.Holds b dl m) (hr : r.Holds b dr m) :
    Does types fuel b (entryIndex n l r) m (pure (.entryIndex n dl dr)) Operand.Holds := by
  refine (does_constant (.int32 (Int32.ofInt n.toNat))).before fun size b₁ m₁ hb hlater hsize => ?_
  refine (does_binary (hl.later hlater hb) hsize .mul .int32).before fun start b₂ m₂ hb₂ hlater₂ hstart => ?_
  exact does_binary hstart ((hr.later hlater hb).later hlater₂ hb₂) .add .int32

/-- The operands of a call, each converted to the parameter that receives it. -/
theorem does_convertArguments {os : List Operand} {ds : List Datum} (h : AllHold os b ds m) (s : Signature) (i : Nat) :
    Does types fuel b (convertArguments s i os) m (pure (Evaluate.convertArguments s i ds)) AllHold := by
  induction os generalizing ds b m i with
  | nil =>
    cases h
    exact .pure .nil
  | cons o os ih =>
    cases h with
    | @cons _ d _ ds ho hos =>
      rw [convertArguments, Evaluate.convertArguments]
      have hrest {o' : Operand} {d' : Datum} {b₁ : Builder} {m₁ : Machine} (hb : b.Grows b₁)
          (hlater : m.Later b.regs.size b₁.regs.size m₁) (ho' : o'.Holds b₁ d' m₁) :
          Does types fuel b₁ (do let rest ← convertArguments s (i + 1) os; return o' :: rest) m₁
            (pure (d' :: Evaluate.convertArguments s (i + 1) ds)) AllHold :=
        (ih (AllHold.later hos hlater hb) (i + 1)).before fun _ b₂ m₂ hb₂ hlater₂ hrest =>
          .pure (.cons (ho'.later hlater₂ hb₂) hrest)
      cases s.param? i with
      | none => exact hrest (.refl b) (.refl _ _ m) ho
      | some param => exact (does_convert ho param.1).before fun o' b₁ m₁ hb hlater ho' => hrest hb hlater ho'

/-- An operator on two operands gives what it gives on the data they hold. -/
theorem Operated.computes {op : BinaryOp} (h : Operated op l r o b b') (hl : l.Holds b dl m) (hr : r.Holds b dr m) :
    Computes types fuel b.regs.size b b' m (Eval.ofOption (Datum.operate? op dl dr)) (o.Holds b') := by
  obtain ⟨common, hfit, hcommon, hbuild⟩ := h
  refine .ofOption ?_ ((does_applyBinary op common hl hr).computes hbuild)
  rw [Datum.operate?, hl.type, hr.type, hfit, if_pos rfl, hcommon]

/-- A scalar as a truth value. -/
theorem Truth.computes (h : Truth v o b b') (hv : v.Holds b d m) :
    Computes types fuel b.regs.size b b' m (Eval.ofOption d.truth?) (o.Holds b') := by
  refine .ofOption ?_ ((does_convert hv .bool).computes h.2)
  rw [Datum.truth?, hv.type, if_pos h.1]

/-- An operator only adds to the open block. -/
theorem Operated.grows {op : BinaryOp} (h : Operated op l r o b b') : b.Grows b' := by
  obtain ⟨common, -, -, hbuild⟩ := h
  exact Grows.of_eq hbuild

theorem Truth.grows (h : Truth v o b b') : b.Grows b' := Grows.of_eq h.2

theorem Coerced.grows {ty : Ty} (h : Coerced v ty o b b') : b.Grows b' := Grows.of_eq h.2

end Generate

end Elementwise
