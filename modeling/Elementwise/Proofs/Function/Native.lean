import Elementwise.Function.Native
import Elementwise.Proofs.Value.Typing

/-!
# Native bodies respect types

The native bodies of the standard library answer with a value of the declared type whenever their
arguments have the types of the parameters.
-/

namespace Elementwise.Native

variable {ty : Ty}

/-- A body that prints nothing. -/
theorem respects_silent {f : List Value → Option Value} {params : List Ty} {ret : Ty}
    (h : ∀ vs v, List.Forall₂ Value.HasType vs params → f vs = some v → v.HasType ret) :
    (silent f : NativeBody).Respects params ret := by
  intro vs result hvs hresult
  obtain ⟨v, hv, rfl⟩ := Option.map_eq_some_iff.mp hresult
  exact h vs v hvs hv

theorem scalar_of_hasType {v : Value} {kind : ScalarKind} (h : v.HasType (.scalar kind)) :
    ∃ s, v = .scalar s ∧ s.kind = kind := Value.scalarKind?_eq_some (Value.hasType_scalar_iff.mp h)

/-- A function of floating numbers is as precise as its first argument. -/
theorem respects_floating {f : List Float → Option Float} (hty : ty ∈ [Ty.double, .float]) (params : List Ty) :
    (floating f : NativeBody).Respects (ty :: params) ty := by
  simp only [List.mem_cons, List.not_mem_nil, or_false] at hty
  refine respects_silent fun vs v hvs hv => ?_
  obtain ⟨x, -, rfl⟩ := Option.map_eq_some_iff.mp hv
  obtain _ | ⟨ha, -⟩ := hvs
  rcases hty with rfl | rfl
  all_goals
    obtain ⟨s, rfl, hs⟩ := scalar_of_hasType ha
    cases s <;> first | exact .scalar rfl | cases hs

theorem respects_floating1 (f : Float → Float) (hty : ty ∈ [Ty.double, .float]) (params : List Ty) :
    (floating1 f).Respects (ty :: params) ty := respects_floating hty params

theorem respects_floating2 (f : Float → Float → Float) (hty : ty ∈ [Ty.double, .float]) (params : List Ty) :
    (floating2 f).Respects (ty :: params) ty := respects_floating hty params

theorem respects_floating3 (f : Float → Float → Float → Float) (hty : ty ∈ [Ty.double, .float]) (params : List Ty) :
    (floating3 f).Respects (ty :: params) ty := respects_floating hty params

/-- The absolute value. -/
theorem respects_abs (hty : ty ∈ [Ty.int32, .scalar .int64, .float, .double]) : abs.Respects [ty] ty := by
  simp only [List.mem_cons, List.not_mem_nil, or_false] at hty
  refine respects_silent fun vs v hvs hv => ?_
  obtain _ | ⟨ha, _ | _⟩ := hvs
  rcases hty with rfl | rfl | rfl | rfl
  all_goals
    obtain ⟨s, rfl, hs⟩ := scalar_of_hasType ha
    cases s <;> first | (obtain rfl := Option.some.inj hv; exact .scalar rfl) | cases hs

/-- Values that are all 32-bit integers. -/
theorem exists_int32 {vs : List Value} {n : Nat} (h : List.Forall₂ Value.HasType vs (List.replicate n .int32)) :
    ∃ ns : List Int32, ns.length = n ∧ vs = ns.map Value.int32 := by
  induction n generalizing vs with
  | zero =>
    obtain rfl := List.forall₂_nil_right_iff.mp h
    exact ⟨[], rfl, rfl⟩
  | succ n ih =>
    obtain _ | ⟨hv, hrest⟩ := h
    obtain ⟨ns, hlength, rfl⟩ := ih hrest
    obtain ⟨s, rfl, hs⟩ := scalar_of_hasType hv
    obtain ⟨k, rfl⟩ : ∃ k, s = .int32 k := by cases s <;> first | exact ⟨_, rfl⟩ | cases hs
    exact ⟨k :: ns, by simp [hlength], rfl⟩

/-- A function of scalars that has a body of its own for 32-bit integers. -/
theorem respects_scalars {body g : NativeBody} {n : Nat} (hg : ∃ f, g = floating f)
    (hty : ty ∈ [Ty.int32, .double, .float])
    (hint : ∀ ns : List Int32, ns.length = n + 1 → ∃ k, body (ns.map Value.int32) = some ⟨.int32 k, []⟩)
    (hfloating : ∀ s rest, s.kind ≠ .int32 → body (.scalar s :: rest) = g (.scalar s :: rest)) :
    body.Respects (List.replicate (n + 1) ty) ty := by
  intro vs result hvs hresult
  rw [List.mem_cons] at hty
  rcases hty with rfl | hty
  · obtain ⟨ns, hlength, rfl⟩ := exists_int32 hvs
    obtain ⟨k, hk⟩ := hint ns hlength
    rw [hk] at hresult
    exact Option.some.inj hresult ▸ .scalar rfl
  · obtain ⟨f, rfl⟩ := hg
    have hrespects : (floating f).Respects (List.replicate (n + 1) ty) ty := respects_floating hty _
    obtain ⟨kind, rfl, hkind⟩ : ∃ kind, ty = .scalar kind ∧ kind ≠ .int32 := by
      simp only [List.mem_cons, List.not_mem_nil, or_false] at hty
      rcases hty with rfl | rfl <;> exact ⟨_, rfl, nofun⟩
    obtain _ | ⟨ha, hrest⟩ := hvs
    obtain ⟨s, rfl, rfl⟩ := scalar_of_hasType ha
    rw [hfloating s _ hkind] at hresult
    exact hrespects _ _ (.cons ha hrest) hresult

/-- Choosing one of two values. -/
theorem respects_choose (ofInts : Int32 → Int32 → Int32) (ofFloats : Float → Float → Float)
    (hty : ty ∈ [Ty.int32, .double, .float]) : (choose ofInts ofFloats).Respects (List.replicate 2 ty) ty := by
  have hfloating : ∃ f, (floating2 ofFloats : NativeBody) = floating f := ⟨_, rfl⟩
  refine respects_scalars hfloating hty (fun ns hns => ?_) fun s rest hs => ?_
  · obtain ⟨a, b, rfl⟩ := List.length_eq_two.mp hns
    exact ⟨_, rfl⟩
  · cases s <;> first | rfl | exact absurd rfl hs

/-- Limiting a value. -/
theorem respects_clamp (hty : ty ∈ [Ty.int32, .double, .float]) : clamp.Respects (List.replicate 3 ty) ty := by
  have hfloating : ∃ f, (floating3 fun x lo hi => Number.greater (Number.lesser x hi) lo : NativeBody) = floating f := ⟨_, rfl⟩
  refine respects_scalars hfloating hty (fun ns hns => ?_) fun s rest hs => ?_
  · obtain ⟨a, b, c, rfl⟩ := List.length_eq_three.mp hns
    exact ⟨_, rfl⟩
  · cases s <;> first | rfl | exact absurd rfl hs

/-- Mapping a value to another range. -/
theorem respects_fit (params : List Ty) : fit.Respects params .double := by
  refine respects_silent fun vs v _ hv => ?_
  obtain ⟨x, -, rfl⟩ := Option.map_eq_some_iff.mp hv
  exact .scalar rfl

/-- A product of matrices has the type that the first of them tells. -/
theorem hasType_matrixProduct {a b : List Value} {kind : ScalarKind} {n : UInt8}
    (hty : (Value.matrix a).ty = .matrix kind n) (hkind : kind = .float ∨ kind = .double) :
    (matrixProduct a b).HasType (.matrix kind n) := by
  obtain ⟨helement, hrows⟩ := Ty.matrix.inj hty
  have hsize : (if a.length = 16 then 4 else 3) = n.toNat := by
    rw [← hrows]
    split <;> rfl
  unfold matrixProduct
  simp only [hsize]
  refine .matrix (by simp) fun v hv => ?_
  obtain ⟨i, -, rfl⟩ := List.mem_map.mp hv
  -- an array without a first scalar is taken for one of the less precise kind
  rcases hkind with rfl | rfl
  · split
    · cases helement
    · rfl
  · obtain ⟨x, rest, rfl⟩ : ∃ x rest, a = .double x :: rest := by
      rcases a with _ | ⟨first, rest⟩
      · cases helement
      · cases first with
        | scalar s => cases s <;> first | exact ⟨_, _, rfl⟩ | cases helement
        | _ => cases helement
    rfl

/-- The matrix product. -/
theorem respects_mmmult (hty : ty ∈ [Ty.matrix .float 3, .matrix .double 3, .matrix .float 4, .matrix .double 4]) :
    mmmult.Respects [ty, ty] ty := by
  refine respects_silent fun vs v hvs hv => ?_
  obtain _ | ⟨ha, _ | ⟨-, _ | _⟩⟩ := hvs
  obtain rfl := Option.some.inj hv
  obtain ⟨kind, n, rfl, hkind, hn⟩ : ∃ kind n, ty = .matrix kind n ∧ (kind = .float ∨ kind = .double) ∧
      (n = 3 ∨ n = 4) := by
    simp only [List.mem_cons, List.not_mem_nil, or_false] at hty
    rcases hty with rfl | rfl | rfl | rfl <;> simp
  have hregular : (Ty.matrix kind n).Regular := ⟨by rcases hkind with rfl | rfl <;> rfl, hn⟩
  have htells := ha.ty_eq hregular
  cases ha
  exact hasType_matrixProduct htells hkind

/-- Printing. -/
theorem respects_print (params : List Ty) : print.Respects params .void := by
  intro vs result _ hresult
  obtain rfl := Option.some.inj hresult
  exact .void

end Elementwise.Native
