import Elementwise.Proofs.Function.Native
import Elementwise.Proofs.Generate.Actions

/-!
# Inline functions build sound code

Over operands that are ready and have the types of the parameters, the inline functions of the standard
library put sound code in place of a call.
-/

namespace Elementwise.Emitted

open Builder

variable {σ : Regime} {b : Builder} {W : Set Reg} {x y : Operand} {ty : Ty}

variable {custom : CustomData} {rest : List Operand}

/-- The components of an operand. -/
theorem makes_components (hx : x.Ready σ b W) :
    Makes σ W b (components x) fun xs b' W' =>
      xs.length = x.ty.componentCount ∧ ∀ c ∈ xs, ReadyAs σ x.ty.elementTy c b' W' := by
  refine (Makes.mapM (Q := ReadyAs σ x.ty.elementTy) (fun c b₁ W₁ b₂ W₂ hsince hc => hc.since hsince)
    fun i _ b₁ W₁ hsince => makes_extractAt (hx.since hsince) i).weaken fun xs b' W' _ h => ?_
  simpa using h

/-- Floating scalars are numbers. -/
theorem computes_of_mem (hty : ty ∈ [Ty.double, .float]) : ty.Computes := by
  simp only [List.mem_cons, List.not_mem_nil, or_false] at hty
  rcases hty with rfl | rfl <;> exact ⟨_, rfl, nofun⟩

/-- Arithmetic on two operands of one type of numbers. -/
theorem makes_arith {op : BinaryOp} (hop : op.opClass = .arithmetic) (hx : ReadyAs σ ty x b W)
    (hy : ReadyAs σ ty y b W) (hty : ty.Computes) : Makes σ W b (binary op x y ty) (ReadyAs σ ty) :=
  makes_binary hx hy fun h => ⟨fun _ _ hu hv => hu.binary_arith (.inl hop) hv hty, hx.2 ▸ hx.1.regular h⟩

/-- A sum of operands. -/
theorem makes_sum {xs : List Operand} (hx : ReadyAs σ ty x b W) (hxs : ∀ c ∈ xs, ReadyAs σ ty c b W)
    (hty : ty.Computes) : Makes σ W b (sum ty x xs) (ReadyAs σ ty) := by
  induction xs generalizing b W x with
  | nil => exact .pure hx
  | cons c rest ih =>
    rw [List.forall_mem_cons] at hxs
    refine (makes_arith rfl hx hxs.1 hty).bind fun total b₁ W₁ hsince htotal => ?_
    exact ih htotal fun c hc => (hxs.2 c hc).since hsince

/-- Steps that do not fail, one after another. -/
theorem mapM_lift {α β : Type} (f : α → BuildM β) (xs : List α) :
    (xs.mapM fun x => (liftM (f x) : OptionT BuildM β)) = liftM (xs.mapM f) := by
  induction xs with
  | nil => rfl
  | cons x xs ih =>
    rw [List.mapM_cons, List.mapM_cons, ih]
    rfl

/-- The dot product. -/
theorem makes_dotProduct (hx : x.Ready σ b W) (hy : ReadyAs σ x.ty y b W)
    (hty : x.ty.elementTy.Computes) : MakesPart σ W b (dotProduct x y) (ReadyAs σ x.ty.elementTy) := by
  refine (MakesPart.lift (makes_components hx)).bind fun xs b₁ W₁ hsince₁ hxs => ?_
  refine (MakesPart.lift (makes_components (hy.1.since hsince₁))).bind fun ys b₂ W₂ hsince₂ hys => ?_
  have hproducts : MakesPart σ W₂ b₂ ((xs.zip ys).mapM fun p => liftM (binary .mul p.1 p.2 x.ty.elementTy))
      fun os b' W' => os.length = (xs.zip ys).length ∧ ∀ o ∈ os, ReadyAs σ x.ty.elementTy o b' W' := by
    rw [mapM_lift]
    refine .lift (.mapM (fun _ _ _ _ _ hsince ho => ho.since hsince) fun p hp b₃ W₃ hsince₃ => ?_)
    have hx' := hxs.2 p.1 (List.of_mem_zip hp).1
    have hy' := hys.2 p.2 (List.of_mem_zip hp).2
    rw [hy.2] at hy'
    exact makes_arith rfl (hx'.since (hsince₂.trans hsince₃)) (hy'.since hsince₃) hty
  refine hproducts.bind fun products b₃ W₃ hsince₃ hproducts => ?_
  cases products with
  | nil => exact .failure
  | cons first rest =>
    have hready := List.forall_mem_cons.mp hproducts.2
    exact .lift (makes_sum hready.1 hready.2 hty)

/-- One component of a cross product. -/
theorem makes_crossComponent {u v : Operand} (hx : ReadyAs σ ty x b W) (hy : ReadyAs σ ty y b W)
    (hu : ReadyAs σ ty u b W) (hv : ReadyAs σ ty v b W) (hty : ty.Computes) :
    Makes σ W b (crossComponent ty x y u v) (ReadyAs σ ty) := by
  refine (makes_arith rfl hx hy hty).bind fun l b₁ W₁ hsince₁ hl => ?_
  refine (makes_arith rfl (hu.since hsince₁) (hv.since hsince₁) hty).bind fun r b₂ W₂ hsince₂ hr => ?_
  exact makes_arith rfl (hl.since hsince₂) hr hty

/-- The cross product. -/
theorem makes_cross (hx : x.Ready σ b W) (hy : ReadyAs σ x.ty y b W) (hcomputes : x.ty.elementTy.Computes)
    (harray : x.ty.isArray = true) (hcount : x.ty.componentCount = 3) :
    MakesPart σ W b (cross custom (x :: y :: rest)) (ReadyAs σ x.ty) := by
  refine (MakesPart.lift (makes_components hx)).bind fun xs b₁ W₁ hsince₁ hxs => ?_
  refine (MakesPart.lift (makes_components (hy.1.since hsince₁))).bind fun ys b₂ W₂ hsince₂ hys => ?_
  split
  · next x0 x1 x2 y0 y1 y2 =>
    have hc (c : Operand) (h : c ∈ [x0, x1, x2]) := (hxs.2 c h).since hsince₂
    have hd (c : Operand) (h : c ∈ [y0, y1, y2]) : ReadyAs σ x.ty.elementTy c b₂ W₂ := hy.2 ▸ hys.2 c h
    refine (MakesPart.lift (makes_crossComponent (hc x1 (by simp)) (hd y2 (by simp)) (hc x2 (by simp)) (hd y1 (by simp))
      hcomputes)).bind fun c0 b₃ W₃ hsince₃ hc0 => ?_
    refine (MakesPart.lift (makes_crossComponent ((hc x2 (by simp)).since hsince₃) ((hd y0 (by simp)).since hsince₃)
      ((hc x0 (by simp)).since hsince₃) ((hd y2 (by simp)).since hsince₃) hcomputes)).bind fun c1 b₄ W₄ hsince₄ hc1 => ?_
    have hsince := hsince₃.trans hsince₄
    refine (MakesPart.lift (makes_crossComponent ((hc x0 (by simp)).since hsince) ((hd y1 (by simp)).since hsince)
      ((hc x1 (by simp)).since hsince) ((hd y0 (by simp)).since hsince) hcomputes)).bind fun c2 b₅ W₅ hsince₅ hc2 => ?_
    have hready : ∀ c ∈ [c0, c1, c2], ReadyAs σ x.ty.elementTy c b₅ W₅ := by
      simpa using ⟨hc0.since (hsince₄.trans hsince₅), hc1.since hsince₅, hc2⟩
    refine .lift (makes_pack (fun c hc => (hready c hc).1) fun h => ?_)
    exact ⟨hx.regular h, harray, hcount.symm, fun c hc => (hready c hc).2⟩
  · exact .failure

/-- The length. -/
theorem makes_length (hx : x.Ready σ b W) (hty : x.ty.elementTy ∈ [Ty.double, .float]) :
    MakesPart σ W b (length custom (x :: rest)) (ReadyAs σ x.ty.elementTy) := by
  refine (makes_dotProduct hx ⟨hx, rfl⟩ (computes_of_mem hty)).bind fun square b₁ W₁ hsince hsquare => .lift ?_
  have hsqrt : Native.sqrt.Respects [x.ty.elementTy] x.ty.elementTy := Native.respects_floating1 _ hty []
  rw [hsquare.2]
  exact makes_callNative (by simpa using hsquare.1) fun h => ⟨by simpa [hsquare.2] using hsqrt, Ty.regular_elementTy _⟩

/-- The divisor in place of a scalar that may be zero. -/
theorem makes_divisor (hx : x.Ready σ b W) (hscalar : x.ty.isScalar = true) :
    Makes σ W b (divisor x) (ReadyAs σ x.ty) := by
  refine (Generate.makes_constantAs hscalar).bind fun zero b₁ W₁ hsince₁ hzero => ?_
  have heq : Makes σ W₁ b₁ (binary .eq x zero .bool) (ReadyAs σ .bool) :=
    makes_binary ⟨hx.since hsince₁, rfl⟩ hzero fun _ =>
      ⟨fun u v _ _ => Value.hasType_binary_compare (.inl rfl) u v, trivial⟩
  refine heq.bind fun isZero b₂ W₂ hsince₂ hisZero => ?_
  refine (makes_alloc x.ty).bind fun result b₃ W₃ hsince₃ ⟨htype, hresult⟩ => ?_
  have hx₃ := hx.since (hsince₁.trans (hsince₂.trans hsince₃))
  refine (makes_assign htype ⟨hx₃, rfl⟩).bind fun _ b₄ W₄ hsince₄ hwritten => ?_
  have hblock : Makes σ W₄ b₄ (inBlock do
      let one ← constantAs (.int32 1) x.ty
      assign result one) _ :=
    makes_inBlock fun b₅ hsince₅ => (Generate.makes_constantAs hscalar).bind fun one b₆ W₆ hsince₆ hone =>
      makes_assign (hsince₆.types _ _ (hsince₅.types _ _ (hsince₄.types _ _ htype))) hone
  refine hblock.bind fun body b₅ W₅ hsince₅ ⟨Wb, hbody⟩ => ?_
  have hisZero₅ := hisZero.since (hsince₃.trans (hsince₄.trans hsince₅))
  refine (makes_branch hisZero₅ (hbody.weaken subset_rfl hsince₅.written subset_rfl) (.nil subset_rfl)).bind
    fun _ b₆ W₆ hsince₆ _ => .pure ⟨⟨?_, hsince₆.written (hsince₅.written hwritten), fun h => ?_⟩, hresult⟩
  · exact hresult ▸ hsince₆.types _ _ (hsince₅.types _ _ (hsince₄.types _ _ htype))
  · exact hresult ▸ hx.regular h

/-- The vector of length one. -/
theorem makes_normalize (hx : x.Ready σ b W) (hty : x.ty.elementTy ∈ [Ty.double, .float]) :
    MakesPart σ W b (normalize custom (x :: rest)) (ReadyAs σ x.ty) := by
  have hnumeric : x.ty.isNumeric = true := by
    cases h : x.ty <;> first | rfl | simp [h, Ty.elementTy, Ty.element?] at hty
  have hscalar : x.ty.elementTy.isScalar = true := by
    cases h : x.ty <;> first | rfl | simp [h, Ty.isNumeric, Ty.element?] at hnumeric
  have hcomputes : x.ty.Computes := by
    obtain ⟨kind, hkind⟩ := Option.isSome_iff_exists.mp hnumeric
    refine ⟨kind, hkind, ?_⟩
    rintro rfl
    simp [Ty.elementTy, hkind] at hty
  refine (makes_length hx hty).bind fun len b₁ W₁ hsince₁ hlen => ?_
  refine (MakesPart.lift (makes_divisor hlen.1 (hlen.2 ▸ hscalar))).bind fun d b₂ W₂ hsince₂ hd => ?_
  refine (MakesPart.lift (makes_convert hd.1 fun h => ⟨?_, hx.regular h⟩)).bind fun d' b₃ W₃ hsince₃ hd' => .lift ?_
  · exact Ty.convertsTo_of_isScalar (hd.2 ▸ hlen.2 ▸ hscalar) hnumeric
  · exact makes_arith rfl ⟨hx.since (hsince₁.trans (hsince₂.trans hsince₃)), rfl⟩ hd' hcomputes

/-- The transposed matrix. -/
theorem makes_transpose (hx : x.Ready σ b W) : MakesPart σ W b (transpose custom (x :: rest)) (ReadyAs σ x.ty) := by
  unfold transpose
  dsimp only
  split
  · next kind n hty =>
    refine (MakesPart.lift (makes_components hx)).bind fun entries b₁ W₁ hsince ⟨hlength, hentries⟩ => .lift ?_
    have hcount : entries.length = n.toNat * n.toNat := by rw [hlength, hty, Ty.componentCount]
    have hready : ∀ c ∈ (List.range (n.toNat * n.toNat)).filterMap
        (fun i => entries[i % n.toNat * n.toNat + i / n.toNat]?), ReadyAs σ x.ty.elementTy c b₁ W₁ := by
      intro c hc
      obtain ⟨i, -, hi⟩ := List.mem_filterMap.mp hc
      exact hentries c (List.mem_of_getElem? hi)
    refine makes_pack (fun c hc => (hready c hc).1) fun h => ⟨hx.regular h, by rw [hty]; rfl, ?_, fun c hc => (hready c hc).2⟩
    rw [hty, Ty.componentCount, List.length_filterMap_eq_countP, List.countP_eq_length.mpr, List.length_range]
    intro i hi
    simp [hcount, Ty.exchanged_lt (List.mem_range.mp hi)]
  · exact .failure

end Elementwise.Emitted
