import Elementwise.Proofs.Evaluate.Actions
import Elementwise.Proofs.Function.Standard

/-!
# Inline functions compute what they mean

The code that an inline function of the standard library puts in place of a call leaves in a register what
the function gives on the data that its operands hold, and makes the same native calls.
-/

namespace Elementwise

open Builder

/-- A step of building whose result may be missing adds code that realizes a computation, if the result is
there. -/
def DoesPart {α γ : Type} (types : Array Ty) (fuel : Nat) (b : Builder) (action : OptionT BuildM α) (m : Machine)
    (x : Eval γ) (post : α → Builder → γ → Machine → Prop) : Prop :=
  ∀ a b', action.run b = (some a, b') → Computes types fuel b.regs.size b b' m x (post a b')

section

variable {α β : Type}

instance (action : BuildM α) [Placing action] : Placing (liftM action : OptionT BuildM α).run :=
  inferInstanceAs (Placing (action >>= fun a => pure (some a)))

instance : Placing (failure : OptionT BuildM α).run := inferInstanceAs (Placing (pure none))

instance (a : α) : Placing (pure a : OptionT BuildM α).run := inferInstanceAs (Placing (pure (some a)))

instance (action : OptionT BuildM α) (k : α → OptionT BuildM β) [Placing action.run] [hk : ∀ a, Placing (k a).run] :
    Placing (action >>= k).run := by
  rw [OptionT.run_bind, Option.elimM]
  have (r : Option α) : Placing (r.elim (pure none) fun a => (k a).run) := by
    cases r with
    | none => exact inferInstanceAs (Placing (pure none))
    | some a => exact hk a
  infer_instance

instance (f : α → OptionT BuildM β) [∀ x, Placing (f x).run] (xs : List α) : Placing (xs.mapM f).run := by
  induction xs with
  | nil =>
    rw [List.mapM_nil]
    infer_instance
  | cons x xs ih =>
    rw [List.mapM_cons]
    infer_instance

end

namespace DoesPart

variable {types : Array Ty} {fuel : Nat} {b : Builder} {m : Machine} {α β γ δ : Type}

variable {post : α → Builder → γ → Machine → Prop}

theorem pure {a : α} {c : γ} (h : post a b c m) : DoesPart types fuel b (Pure.pure a) m (Pure.pure c) post := by
  intro a' b' heq
  obtain ⟨ha, rfl⟩ := Prod.mk.inj heq
  obtain rfl := Option.some.inj ha
  exact Computes.pure h

theorem failure {x : Eval γ} : DoesPart types fuel b (failure : OptionT BuildM α) m x post := by
  intro a b' heq
  cases (Prod.mk.inj heq).1

theorem lift {action : BuildM α} {x : Eval γ} (h : Does types fuel b action m x post) :
    DoesPart types fuel b (liftM action) m x post := by
  intro a b' heq
  obtain ⟨ha, rfl⟩ := Prod.mk.inj heq
  obtain rfl := Option.some.inj ha
  exact h

theorem bind {action : OptionT BuildM α} {k : α → OptionT BuildM β} [Placing action.run] [∀ a, Placing (k a).run]
    {x : Eval γ} {y : γ → Eval δ} {post' : β → Builder → δ → Machine → Prop}
    (h : DoesPart types fuel b action m x post)
    (hk : ∀ a b₁ c m₁, b.Grows b₁ → m.Later b.regs.size b₁.regs.size m₁ → post a b₁ c m₁ →
      DoesPart types fuel b₁ (k a) m₁ (y c) post') :
    DoesPart types fuel b (action >>= k) m (x >>= y) post' := by
  intro e b₂ heq
  obtain ⟨a, b₁, hrun, heq⟩ := run_bind_eq_some heq
  have hgrows : b.Grows b₁ := Grows.of_eq hrun
  have hgrows' : b₁.Grows b₂ := .of_eq (show (k a).run b₁ = _ from heq)
  exact .bind hgrows hgrows' (h a b₁ hrun) fun c m₁ hlater hc => hk a b₁ c m₁ hgrows hlater hc e b₂ heq

/-- A step after one whose result is known. -/
theorem before {action : OptionT BuildM α} {k : α → OptionT BuildM β} [Placing action.run] [∀ a, Placing (k a).run]
    {c : γ} {x : Eval δ} {post' : β → Builder → δ → Machine → Prop}
    (h : DoesPart types fuel b action m (Pure.pure c) post)
    (hk : ∀ a b₁ m₁, b.Grows b₁ → m.Later b.regs.size b₁.regs.size m₁ → post a b₁ c m₁ →
      DoesPart types fuel b₁ (k a) m₁ x post') :
    DoesPart types fuel b (action >>= k) m x post' := by
  have hresult : DoesPart types fuel b action m (Pure.pure c) fun a b' c' m' => c' = c ∧ post a b' c' m' :=
    fun a b' heq => Computes.result (h a b' heq)
  exact hresult.bind (y := fun _ => x) fun a b₁ _ m₁ hb hlater hc => hk a b₁ m₁ hb hlater (hc.1 ▸ hc.2)

end DoesPart

/-- Operands that hold data, taken in pairs. -/
theorem AllHold.zip {os os' : List Operand} {ds ds' : List Datum} {b b' : Builder} {m m' : Machine}
    {R : Operand × Operand → Datum → Prop} {f : Datum → Datum → Datum} (h : AllHold os b ds m) (h' : AllHold os' b' ds' m')
    (hR : ∀ o o' d d', o.Holds b d m → o'.Holds b' d' m' → R (o, o') (f d d')) :
    List.Forall₂ R (os.zip os') (List.zipWith f ds ds') := by
  induction h generalizing os' ds' with
  | nil => exact .nil
  | cons ho _ ih =>
    cases h' with
    | nil => exact .nil
    | cons ho' hrest' => exact .cons (hR _ _ _ _ ho ho') (ih hrest')

/-- Operands that hold data, taken from positions where there are some. -/
theorem AllHold.pick {os : List Operand} {ds : List Datum} {b : Builder} {m : Machine} (h : AllHold os b ds m)
    (position : Nat → Nat) (is : List Nat) :
    AllHold (is.filterMap fun i => os[position i]?) b (is.filterMap fun i => ds[position i]?) m := by
  induction is with
  | nil => exact .nil
  | cons i is ih =>
    have hlength := h.length_eq
    rw [List.filterMap_cons, List.filterMap_cons]
    by_cases hi : position i < os.length
    · rw [List.getElem?_eq_getElem hi, List.getElem?_eq_getElem (hlength ▸ hi)]
      exact .cons (h.get hi (hlength ▸ hi)) ih
    · rw [List.getElem?_eq_none (by omega), List.getElem?_eq_none (by omega)]
      exact ih

namespace Emitted

variable {types : Array Ty} {fuel : Nat} {b : Builder} {m : Machine} {v x y : Operand} {d dx dy : Datum}

instance (v : Operand) : Placing (components v) := by unfold components; infer_instance

instance (ty : Ty) (total : Operand) (os : List Operand) : Placing (sum ty total os) := by
  induction os generalizing total with
  | nil => exact inferInstanceAs (Placing (pure total))
  | cons o os ih =>
    rw [sum]
    infer_instance

/-- A sum of operands of which there may be none. -/
theorem placing_sumOf (ty : Ty) (products : List Operand) : Placing (OptionT.run (match products with
    | [] => failure
    | first :: rest => liftM (sum ty first rest) : OptionT BuildM Operand)) := by
  cases products <;> infer_instance

instance (a b : Operand) : Placing (dotProduct a b).run := by
  unfold dotProduct
  have := placing_sumOf
  infer_instance

instance (ty : Ty) (a b c d : Operand) : Placing (crossComponent ty a b c d) := by unfold crossComponent; infer_instance

/-- A one in place of a divisor that is zero. -/
theorem placing_oneOf (ty : Ty) (isZero result : Operand) : Placing (do
    let (_, body) ← inBlock do
      let one ← constantAs (.int32 1) ty
      assign result one
    emit (.branch isZero.reg body [])
    return result) := by
  refine .inBlock fun _ body hbody => ?_
  have hemit : Placing (emit (.branch isZero.reg body [])) := .emit (by rw [Instr.jumpsPlaced, hbody]; rfl)
  infer_instance

instance (v : Operand) : Placing (divisor v) := by
  unfold divisor
  have := placing_oneOf
  infer_instance

/-- A cross product of components. -/
theorem placing_crossOf (a : Operand) (xs ys : List Operand) : Placing (OptionT.run (match xs, ys with
    | [x0, x1, x2], [y0, y1, y2] => do
      let c0 ← crossComponent a.ty.elementTy x1 y2 x2 y1
      let c1 ← crossComponent a.ty.elementTy x2 y0 x0 y2
      let c2 ← crossComponent a.ty.elementTy x0 y1 x1 y0
      Builder.pack [c0, c1, c2] a.ty
    | _, _ => failure : OptionT BuildM Operand)) := by
  split <;> infer_instance

section

variable (custom : CustomData) (args : List Operand)

instance : Placing (dot custom args).run := by
  unfold dot
  split <;> infer_instance

instance : Placing (cross custom args).run := by
  have := placing_crossOf
  unfold cross
  split <;> infer_instance

instance : Placing (lengthsq custom args).run := by
  unfold lengthsq
  split <;> infer_instance

instance : Placing (length custom args).run := by
  unfold length; infer_instance

instance : Placing (normalize custom args).run := by
  unfold normalize
  split <;> infer_instance

instance : Placing (transpose custom args).run := by
  unfold transpose
  split
  · split <;> infer_instance
  · infer_instance

instance (op : Intrinsic) : Placing (intrinsic op custom args).run := by
  unfold intrinsic; infer_instance

end

/-- The components of an operand. -/
theorem does_components (hv : v.Holds b d m) :
    Does types fuel b (components v) m (pure d.components) AllHold := by
  unfold components Datum.components
  rw [hv.type]
  refine .mapM (List.forall₂_map_right_iff.mpr (List.forall₂_same.mpr fun i _ b₁ m₁ hb hlater => ?_))
  exact does_extractAt (hv.later hlater hb) i

/-- A sum of operands. -/
theorem does_sum {os : List Operand} {ds : List Datum} (hx : x.Holds b dx m) (h : AllHold os b ds m) (ty : Ty) :
    Does types fuel b (sum ty x os) m (pure (ds.foldl (fun total p => .binary .add total p ty) dx)) Operand.Holds := by
  induction os generalizing ds x dx b m with
  | nil =>
    cases h
    exact .pure hx
  | cons o os ih =>
    cases h with
    | @cons _ d _ ds ho hos =>
      refine (does_binary hx ho .add ty).before fun total b₁ m₁ hb hlater htotal => ?_
      have hrest := ih htotal (AllHold.later hos hlater hb)
      exact hrest

/-- The dot product. -/
theorem does_dotProduct (hx : x.Holds b dx m) (hy : y.Holds b dy m) :
    DoesPart types fuel b (dotProduct x y) m (Eval.ofOption (dx.dot? dy)) Operand.Holds := by
  unfold dotProduct Datum.dot?
  rw [hx.type]
  have := placing_sumOf
  refine (DoesPart.lift (does_components hx)).before fun xs b₁ m₁ hb₁ hlater₁ hxs => ?_
  refine (DoesPart.lift (does_components (hy.later hlater₁ hb₁))).before fun ys b₂ m₂ hb₂ hlater₂ hys => ?_
  have hproducts : DoesPart types fuel b₂ ((xs.zip ys).mapM fun p => liftM (binary .mul p.1 p.2 x.ty.elementTy)) m₂
      (pure (List.zipWith (fun x' y' => .binary .mul x' y' x.ty.elementTy) dx.components dy.components)) AllHold := by
    rw [mapM_lift]
    refine .lift (.mapM (hxs.zip hys fun u w du dw hu hw b₃ m₃ hb₃ hlater₃ => ?_))
    exact does_binary ((hu.later hlater₂ hb₂).later hlater₃ hb₃) (hw.later hlater₃ hb₃) .mul _
  refine hproducts.before fun products b₃ m₃ hb₃ hlater₃ hall => ?_
  generalize List.zipWith (fun x' y' => Datum.binary .mul x' y' x.ty.elementTy) dx.components dy.components = ds at hall ⊢
  cases hall with
  | nil => exact .failure
  | cons hfirst hrest => exact .lift (does_sum hfirst hrest _)

/-- One component of a cross product. -/
theorem does_crossComponent {u w : Operand} {du dw : Datum} (hx : x.Holds b dx m) (hy : y.Holds b dy m)
    (hu : u.Holds b du m) (hw : w.Holds b dw m) (ty : Ty) :
    Does types fuel b (crossComponent ty x y u w) m (pure (Datum.crossComponent ty dx dy du dw)) Operand.Holds := by
  refine (does_binary hx hy .mul ty).before fun l b₁ m₁ hb₁ hlater₁ hl => ?_
  refine (does_binary (hu.later hlater₁ hb₁) (hw.later hlater₁ hb₁) .mul ty).before fun r b₂ m₂ hb₂ hlater₂ hr => ?_
  exact does_binary (hl.later hlater₂ hb₂) hr .sub ty

/-- The cross product. -/
theorem does_cross (custom : CustomData) (rest : List Operand) (hx : x.Holds b dx m) (hy : y.Holds b dy m) :
    DoesPart types fuel b (cross custom (x :: y :: rest)) m (Eval.ofOption (dx.cross? dy)) Operand.Holds := by
  have := placing_crossOf
  unfold cross Datum.cross?
  rw [hx.type]
  refine (DoesPart.lift (does_components hx)).before fun xs b₁ m₁ hb₁ hlater₁ hxs => ?_
  refine (DoesPart.lift (does_components (hy.later hlater₁ hb₁))).before fun ys b₂ m₂ hb₂ hlater₂ hys => ?_
  generalize dx.components = dxs at hxs ⊢
  generalize dy.components = dys at hys ⊢
  split
  · next x0 x1 x2 y0 y1 y2 =>
    rcases hxs.later hlater₂ hb₂ with _ | ⟨hx0, _ | ⟨hx1, _ | ⟨hx2, _ | _⟩⟩⟩
    rcases hys with _ | ⟨hy0, _ | ⟨hy1, _ | ⟨hy2, _ | _⟩⟩⟩
    refine (DoesPart.lift (does_crossComponent hx1 hy2 hx2 hy1 _)).before fun c0 b₃ m₃ hb₃ hlater₃ hc0 => ?_
    refine (DoesPart.lift (does_crossComponent (hx2.later hlater₃ hb₃) (hy0.later hlater₃ hb₃) (hx0.later hlater₃ hb₃)
      (hy2.later hlater₃ hb₃) _)).before fun c1 b₄ m₄ hb₄ hlater₄ hc1 => ?_
    have hlater := hlater₃.then hlater₄ hb₃ hb₄
    have hb := hb₃.trans hb₄
    refine (DoesPart.lift (does_crossComponent (hx0.later hlater hb) (hy1.later hlater hb) (hx1.later hlater hb)
      (hy0.later hlater hb) _)).before fun c2 b₅ m₅ hb₅ hlater₅ hc2 => .lift ?_
    have hc0 := hc0.later (hlater₄.then hlater₅ hb₄ hb₅) (hb₄.trans hb₅)
    exact does_pack (.cons hc0 (.cons (hc1.later hlater₅ hb₅) (.cons hc2 .nil))) x.ty
  · exact .failure

/-- The square of the length. -/
theorem does_lengthsq (custom : CustomData) (rest : List Operand) (hx : x.Holds b dx m) :
    DoesPart types fuel b (lengthsq custom (x :: rest)) m (Eval.ofOption (dx.dot? dx)) Operand.Holds :=
  does_dotProduct hx hx

/-- The length. -/
theorem does_length (custom : CustomData) (rest : List Operand) (hx : x.Holds b dx m) :
    DoesPart types fuel b (length custom (x :: rest)) m (Builtin.lengthOf dx) Operand.Holds := by
  refine (does_lengthsq custom rest hx).bind fun square b₁ dsquare m₁ hb hlater hsquare => .lift ?_
  rw [← hsquare.type]
  exact does_callNative (.cons hsquare .nil) "sqrt" Native.sqrt dsquare.ty

/-- The divisor in place of a scalar that may be zero. -/
theorem does_divisor (hx : x.Holds b dx m) : Does types fuel b (divisor x) m (pure dx.divisor) Operand.Holds := by
  have := placing_oneOf
  refine (does_constant ((Value.int32 0).convert x.ty)).before fun zero b₁ m₁ hb₁ hlater₁ hzero => ?_
  refine (does_binary (hx.later hlater₁ hb₁) hzero .eq .bool).before fun isZero b₂ m₂ hb₂ hlater₂ hisZero => ?_
  have hx₂ := (hx.later hlater₁ hb₁).later hlater₂ hb₂
  have hdivisor : (pure dx.divisor : Eval Datum) =
      if (Value.binary .eq dx.value ((Value.int32 0).convert x.ty)).truthy = decide True
      then pure ⟨dx.ty, (Value.int32 1).convert x.ty⟩ else pure dx := by
    rw [Datum.divisor, hx.type, decide_true]
    split <;> rw [← hx.type]
  rw [hdivisor]
  refine computes_choice (t := True) hisZero hx₂ hx.type rfl rfl (@Placing.places _ (constantAs _ _) _ _).grows
    (fun m₃ hlater₃ => ?_) rfl rfl rfl
  exact (does_constant ((Value.int32 1).convert x.ty)).retold fun m' _ hone => ⟨hone.value, hx.type⟩

/-- The vector of length one. -/
theorem does_normalize (custom : CustomData) (rest : List Operand) (hx : x.Holds b dx m) :
    DoesPart types fuel b (normalize custom (x :: rest)) m (do
      let len ← Builtin.lengthOf dx
      return Datum.binary .div dx (len.divisor.convert dx.ty) dx.ty) Operand.Holds := by
  refine (does_length custom rest hx).bind fun len b₁ dlen m₁ hb₁ hlater₁ hlen => ?_
  refine (DoesPart.lift (does_divisor hlen)).before fun d b₂ m₂ hb₂ hlater₂ hd => ?_
  refine (DoesPart.lift (does_convert hd x.ty)).before fun d' b₃ m₃ hb₃ hlater₃ hd' => .lift ?_
  rw [hx.type]
  exact does_binary (((hx.later hlater₁ hb₁).later hlater₂ hb₂).later hlater₃ hb₃) hd' .div x.ty

/-- The transposed matrix. -/
theorem does_transpose (custom : CustomData) (rest : List Operand) (hx : x.Holds b dx m) :
    DoesPart types fuel b (transpose custom (x :: rest)) m (Eval.ofOption dx.transpose?) Operand.Holds := by
  unfold transpose Datum.transpose?
  rw [hx.type]
  dsimp only
  split
  · next kind n hty =>
    simp only [hty]
    refine (DoesPart.lift (does_components hx)).before fun entries b₁ m₁ hb hlater hentries => .lift ?_
    exact does_pack (hentries.pick (fun i => i % n.toNat * n.toNat + i / n.toNat) _) _
  · exact .failure

end Emitted

namespace Builtin

/-- The code of a function. -/
def generator : Builtin → Generator
  | dot => Emitted.dot
  | cross => Emitted.cross
  | length => Emitted.length
  | lengthsq => Emitted.lengthsq
  | normalize => Emitted.normalize
  | transpose => Emitted.transpose
  | voxel op => Emitted.intrinsic op

/-- The number of parameters of a function. -/
def arity : Builtin → Nat
  | dot | cross => 2
  | length | lengthsq | normalize | transpose => 1
  | voxel _ => 0

/-- The code of a function computes what the function gives. -/
theorem does_generator {types : Array Ty} {fuel : Nat} {b : Builder} {m : Machine} {os : List Operand} {ds : List Datum}
    (builtin : Builtin) (custom : CustomData) (h : AllHold os b ds m) (harity : os.length = builtin.arity) :
    DoesPart types fuel b (builtin.generator custom os) m (builtin.apply m.state ds) Operand.Holds := by
  cases builtin with
  | dot =>
    match os, h, harity with
    | [_, _], .cons hx (.cons hy .nil), _ => exact Emitted.does_dotProduct hx hy
  | cross =>
    match os, h, harity with
    | [_, _], .cons hx (.cons hy .nil), _ => exact Emitted.does_cross custom [] hx hy
  | length =>
    match os, h, harity with
    | [_], .cons hx .nil, _ => exact Emitted.does_length custom [] hx
  | lengthsq =>
    match os, h, harity with
    | [_], .cons hx .nil, _ => exact Emitted.does_lengthsq custom [] hx
  | normalize =>
    match os, h, harity with
    | [_], .cons hx .nil, _ => exact Emitted.does_normalize custom [] hx
  | transpose =>
    match os, h, harity with
    | [_], .cons hx .nil, _ => exact Emitted.does_transpose custom [] hx
  | voxel op =>
    match os, h, harity with
    | [], .nil, _ => exact .lift (does_intrinsic op)

instance (builtin : Builtin) (custom : CustomData) (args : List Operand) :
    Placing (builtin.generator custom args).run := by
  cases builtin <;> (unfold generator; infer_instance)

end Builtin

/-- A step of building gives a register that it made, if it gives one. -/
def FreshPart (action : OptionT BuildM Operand) : Prop :=
  ∀ b o b', action.run b = (some o, b') → b.regs.size ≤ o.reg

namespace FreshPart

theorem failure : FreshPart failure := fun _ _ _ heq => by cases (Prod.mk.inj heq).1

theorem lift {action : BuildM Operand} [hf : Fresh action] : FreshPart (liftM action) := by
  intro b o b' heq
  obtain rfl := Option.some.inj (Prod.mk.inj heq).1
  exact hf.fresh b

/-- A step after which the result is made. -/
theorem after {α : Type} {action : OptionT BuildM α} {k : α → OptionT BuildM Operand} [Placing action.run]
    (hk : ∀ a, FreshPart (k a)) : FreshPart (action >>= k) := by
  intro b o b' heq
  obtain ⟨a, b₁, hrun, hrun'⟩ := run_bind_eq_some heq
  exact Nat.le_trans (Grows.of_eq hrun).size_le (hk a b₁ o b' hrun')

end FreshPart

namespace Emitted

/-- The results of steps that make registers were made by them. -/
theorem fresh_mapM {α : Type} {f : α → BuildM Operand} [∀ x, Placing (f x)] [hf : ∀ x, Fresh (f x)] {xs : List α}
    {b b' : Builder} {os : List Operand}
    (h : (xs.mapM fun x => (liftM (f x) : OptionT BuildM Operand)).run b = (some os, b')) :
    ∀ o ∈ os, b.regs.size ≤ o.reg := by
  induction xs generalizing b b' os with
  | nil =>
    obtain rfl := Option.some.inj (Prod.mk.inj h).1
    exact nofun
  | cons x xs ih =>
    rw [List.mapM_cons] at h
    obtain ⟨o, b₁, hfirst, h⟩ := run_bind_eq_some h
    obtain ⟨os', b₂, hrest, h⟩ := run_bind_eq_some h
    obtain rfl := Option.some.inj (Prod.mk.inj h).1
    obtain rfl := Option.some.inj (Prod.mk.inj hfirst).1
    have hgrows : b.Grows b₁ := Grows.of_eq hfirst
    refine List.forall_mem_cons.mpr ⟨(hf x).fresh b, fun o ho => ?_⟩
    exact Nat.le_trans hgrows.size_le (ih hrest o ho)

/-- A sum is the first operand or a register that was made. -/
theorem fresh_sum {n : Nat} {ty : Ty} {x : Operand} {os : List Operand} {b : Builder} (hx : n ≤ x.reg)
    (hb : n ≤ b.regs.size) : n ≤ (sum ty x os b).1.reg := by
  induction os generalizing x b with
  | nil => exact hx
  | cons o os ih =>
    refine ih (Nat.le_trans hb (Nat.le_refl _)) (Nat.le_trans hb ?_)
    exact (@Placing.places _ (binary .add x o ty) _ b).grows.size_le

/-- A dot product is in a register that was made for it. -/
theorem fresh_dotProduct (x y : Operand) : FreshPart (dotProduct x y) := by
  intro b o b' h
  obtain ⟨xs, b₁, hxs, h⟩ := run_bind_eq_some h
  obtain ⟨ys, b₂, hys, h⟩ := run_bind_eq_some h
  obtain ⟨products, b₃, hproducts, h⟩ := run_bind_eq_some h
  have hgrows : b.Grows b₂ := Grows.trans (Grows.of_eq hxs) (Grows.of_eq hys)
  have hgrows' : b₂.Grows b₃ := Grows.of_eq hproducts
  have hfresh := fresh_mapM hproducts
  cases products with
  | nil => cases (Prod.mk.inj h).1
  | cons first rest =>
    obtain rfl := Option.some.inj (Prod.mk.inj h).1
    exact fresh_sum (Nat.le_trans hgrows.size_le (hfresh first List.mem_cons_self))
      (Nat.le_trans hgrows.size_le hgrows'.size_le)

end Emitted

/-- The result of a function is in a register that was made for it. -/
theorem Builtin.fresh_generator (builtin : Builtin) (custom : CustomData) (args : List Operand) :
    FreshPart (builtin.generator custom args) := by
  cases builtin with
  | dot =>
    rw [generator]
    unfold Emitted.dot
    split
    · exact Emitted.fresh_dotProduct _ _
    · exact .failure
  | cross =>
    rw [generator]
    unfold Emitted.cross
    split
    · refine .after fun xs => .after fun ys => ?_
      split
      · exact .after fun _ => .after fun _ => .after fun _ => .lift
      · exact .failure
    · exact .failure
  | length => exact .after fun _ => .lift
  | lengthsq =>
    rw [generator]
    unfold Emitted.lengthsq
    split
    · exact Emitted.fresh_dotProduct _ _
    · exact .failure
  | normalize =>
    rw [generator]
    unfold Emitted.normalize
    split
    · exact .after fun _ => .after fun _ => .after fun _ => .lift
    · exact .failure
  | transpose =>
    rw [generator]
    unfold Emitted.transpose
    split
    · split
      · exact .after fun _ => .lift
      · exact .failure
    · exact .failure
  | voxel op => exact .lift

/-- Every inline function of a group is the one of its name, with as many parameters. -/
def Group.Builtins (g : Group) : Prop :=
  ∀ f ∈ g.functions, ∀ gen, f.implementation = .emitted gen →
    ∃ builtin, Builtin.ofName? g.name = some builtin ∧ gen = builtin.generator ∧
      f.signature.params.length = builtin.arity

namespace Library

/-- A native group has no inline functions. -/
theorem nativeGroup_builtins (name doc : String) (types : List Ty) (arity : Nat) (ret : Ty → Ty) (body : NativeBody) :
    (nativeGroup name doc types arity ret body).Builtins := by
  intro f hf gen hgen
  obtain ⟨ty, -, rfl⟩ := List.mem_map.mp hf
  cases hgen

/-- An inline group has the function of its name. -/
theorem inlineGroup_builtins {name : String} (builtin : Builtin) (hname : Builtin.ofName? name = some builtin)
    (doc : String) (types : List Ty) (ret : Ty → Ty) :
    (inlineGroup name doc types builtin.arity ret builtin.generator).Builtins := by
  intro f hf gen hgen
  obtain ⟨ty, -, rfl⟩ := List.mem_map.mp hf
  exact ⟨builtin, hname, (Implementation.emitted.inj hgen).symm, List.length_replicate⟩

/-- A group that provides something of the voxel has the function of its name. -/
theorem voxelGroup_builtins {name : String} {op : Intrinsic} (hname : Builtin.ofName? name = some (.voxel op))
    (doc : String) : (voxelGroup name doc op).Builtins := by
  intro f hf gen hgen
  obtain rfl := List.mem_singleton.mp hf
  exact ⟨.voxel op, hname, (Implementation.emitted.inj hgen).symm, rfl⟩

/-- The groups of the standard library have the functions of their names. -/
theorem standardGroups_builtins : ∀ g ∈ standardGroups, g.Builtins := by
  unfold standardGroups
  simp only [List.forall_mem_cons, nativeGroup_builtins, true_and]
  exact ⟨inlineGroup_builtins .dot rfl _ _ _, inlineGroup_builtins .cross rfl _ _ _,
    inlineGroup_builtins .length rfl _ _ _, inlineGroup_builtins .lengthsq rfl _ _ _,
    inlineGroup_builtins .normalize rfl _ _ _, inlineGroup_builtins .transpose rfl _ _ _,
    voxelGroup_builtins rfl _, voxelGroup_builtins rfl _, voxelGroup_builtins rfl _, voxelGroup_builtins rfl _, nofun⟩

/-- The inline functions of a library add code whose jumps are placed wherever it stands. -/
def Placing (library : Library) : Prop :=
  ∀ name g, library.get? name = some g → ∀ f ∈ g.functions, ∀ gen, f.implementation = .emitted gen →
    ∀ custom args, Builder.Placing (gen custom args).run

/-- The inline functions of the standard library have no jumps. -/
theorem standard_placing : standard.Placing := by
  intro name g hg f hf gen hgen custom args
  obtain ⟨builtin, -, rfl, -⟩ := standardGroups_builtins g (mem_standardGroups hg).1 f hf gen hgen
  infer_instance

end Library

end Elementwise
