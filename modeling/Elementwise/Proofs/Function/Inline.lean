import Elementwise.Proofs.Evaluate.Builtin
import Elementwise.Proofs.Function.Results

/-!
# Inline functions are hygienic

The code that an inline function puts in place of a call writes only registers that were made for it and
no slot, whatever registers its operands share with the code around the call, and control goes on after
it. In the register of the result it leaves the dot product, the cross product, the length, its square, the
vector of length one or the transposed matrix, told here on the components of the arguments.
-/

namespace Elementwise

open Builder

namespace Inline

/-- The products of components, added from left to right to a number. -/
def dotFrom (total : Value) : List Value → List Value → Value
  | a :: as, b :: bs => dotFrom (.binary .add total (.binary .mul a b)) as bs
  | _, _ => total

/-- The sum of the products of components, from left to right. -/
def dot : List Value → List Value → Value
  | a :: as, b :: bs => dotFrom (.binary .mul a b) as bs
  | _, _ => .void

/-- One component of a cross product. -/
def minor (a b c d : Value) : Value := .binary .sub (.binary .mul a b) (.binary .mul c d)

/-- The square root, as precise as the number. -/
def root : Value → Value
  | .scalar (.float x) => .float (Number.narrow (Float.sqrt (Number.widen x)))
  | v => .double (Float.sqrt v.toFloat)

/-- The length of a vector. -/
def norm (items : List Value) : Value := root (dot items items)

/-- What a vector is divided by for its length to be one: its length, or one if that is zero. -/
def divisor (kind : ScalarKind) (items : List Value) : Value :=
  if (norm items).equals ((Value.int32 0).convert (.scalar kind)) then (Value.int32 1).convert (.scalar kind)
  else norm items

end Inline

/-- What an inline function gives on arguments of the types of its parameters. -/
inductive Builtin.Gives (element : ElementState) : Builtin → List Ty → List Value → Value → Prop
  | dot {params as bs} : Gives element .dot params [.vector as, .vector bs] (Inline.dot as bs)
  | cross {params a0 a1 a2 b0 b1 b2} :
      Gives element .cross params [.vector [a0, a1, a2], .vector [b0, b1, b2]]
        (.vector [Inline.minor a1 b2 a2 b1, Inline.minor a2 b0 a0 b2, Inline.minor a0 b1 a1 b0])
  | lengthsq {params items} : Gives element .lengthsq params [.vector items] (Inline.dot items items)
  | length {params items} : Gives element .length params [.vector items] (Inline.norm items)
  | normalize {kind n items} : Gives element .normalize [.vector kind n] [.vector items]
      (.vector (items.map fun a => .binary .div a (.castItem kind (Inline.divisor kind items))))
  /-- The entry in a row and a column is the one in that column and row. -/
  | transpose {kind n entries transposed} (hlength : transposed.length = entries.length)
      (hentry : ∀ r c, r < n.toNat → c < n.toNat → transposed[r * n.toNat + c]? = entries[c * n.toNat + r]?) :
      Gives element .transpose [.matrix kind n] [.matrix entries] (.matrix transposed)
  | voxel {op} : Gives element (.voxel op) [] [] (op.value (element.coord.getD ⟨0, 0, 0⟩))

/-! ## Components -/

/-- A constant index stands for its position. -/
theorem Value.index?_int32_ofInt {i : Nat} (hi : i < 2147483648) : (Value.int32 (Int32.ofInt i)).index? = some i := by
  have htoInt : (Int32.ofInt i).toInt = i := Int32.toInt_ofInt_of_le (by omega) (by omega)
  have hindex : (Value.int32 (Int32.ofInt i)).toInt64.toInt = i := (Int32.toInt_toInt64 _).trans htoInt
  rw [Value.index?, hindex]
  simp

/-- The positions in an array fit in an index. -/
theorem Ty.componentCount_lt (ty : Ty) : ty.componentCount < 2147483648 := by
  cases ty with
  | vector kind n =>
    have hn := n.toNat_lt
    simp only [componentCount]
    omega
  | matrix kind n =>
    have hn : n.toNat * n.toNat ≤ 255 * 255 := Nat.mul_le_mul (by have := n.toNat_lt; omega) (by have := n.toNat_lt; omega)
    simp only [componentCount]
    omega
  | scalar | string | void => simp [componentCount]

namespace Datum

variable {d : Datum} {items : List Value} {kind : ScalarKind} {n : UInt8}

/-- The components of a vector are its items. -/
theorem components_eq {ty : Ty} {v : Value} (hitems : ∀ i, v.extract? i = items[i]?)
    (hlength : items.length = ty.componentCount) : components ⟨ty, v⟩ = items.map (Datum.mk ty.elementTy) := by
  refine List.ext_getElem (by simp [components, hlength]) fun i hi hi' => ?_
  have hlt : i < items.length := by simpa using hi'
  have hindex := Value.index?_int32_ofInt (Nat.lt_trans (hlength ▸ hlt) ty.componentCount_lt)
  simp only [components, component, ofValue, Value.extractAt?, List.getElem_map, List.getElem_range, hindex,
    Option.bind_some, hitems, List.getElem?_eq_getElem hlt, Option.getD_some]

/-- The components of a vector. -/
theorem components_vector (hlength : items.length = n.toNat) :
    components ⟨.vector kind n, .vector items⟩ = items.map (Datum.mk (.scalar kind)) :=
  components_eq (fun _ => rfl) hlength

/-- Data that are added one after another. -/
theorem foldl_add (ty : Ty) (total : Value) (as bs : List Value) :
    (List.zipWith (fun x y => binary .mul x y ty) (as.map (Datum.mk ty)) (bs.map (Datum.mk ty))).foldl
      (fun sum p => binary .add sum p ty) ⟨ty, total⟩ = ⟨ty, Inline.dotFrom total as bs⟩ := by
  induction as generalizing bs total with
  | nil => rfl
  | cons a as ih =>
    cases bs with
    | nil => rfl
    | cons b bs => exact ih _ bs

/-- The dot product of vectors. -/
theorem dot?_vector {as bs : List Value} (has : as.length = n.toNat) (hbs : bs.length = n.toNat)
    (h : dot? ⟨.vector kind n, .vector as⟩ ⟨.vector kind n, .vector bs⟩ = some d) :
    d = ⟨.scalar kind, Inline.dot as bs⟩ := by
  unfold dot? at h
  rw [components_vector has, components_vector hbs] at h
  cases as with
  | nil => cases h
  | cons a as =>
    cases bs with
    | nil => cases h
    | cons b bs => exact (Option.some.inj h).symm.trans (foldl_add (.scalar kind) _ as bs)

/-- The cross product of vectors. -/
theorem cross?_vector {as bs : List Value} (has : as.length = n.toNat) (hbs : bs.length = n.toNat)
    (h : cross? ⟨.vector kind n, .vector as⟩ ⟨.vector kind n, .vector bs⟩ = some d) :
    ∃ a0 a1 a2 b0 b1 b2, as = [a0, a1, a2] ∧ bs = [b0, b1, b2] ∧
      d.value = .vector [Inline.minor a1 b2 a2 b1, Inline.minor a2 b0 a0 b2, Inline.minor a0 b1 a1 b0] := by
  unfold cross? at h
  rw [components_vector has, components_vector hbs] at h
  split at h
  · next x0 x1 x2 y0 y1 y2 hx hy =>
    obtain ⟨a0, a1, a2, rfl⟩ := List.length_eq_three.mp (by simpa using congrArg List.length hx)
    obtain ⟨b0, b1, b2, rfl⟩ := List.length_eq_three.mp (by simpa using congrArg List.length hy)
    simp only [List.map_cons, List.map_nil, List.cons.injEq, and_true] at hx hy
    obtain ⟨rfl, rfl, rfl⟩ := hx
    obtain ⟨rfl, rfl, rfl⟩ := hy
    exact ⟨a0, a1, a2, b0, b1, b2, rfl, rfl, congrArg Datum.value (Option.some.inj h).symm⟩
  · cases h

/-- The transposed matrix. -/
theorem transpose?_matrix {entries : List Value} (hlength : entries.length = n.toNat * n.toNat)
    (h : transpose? ⟨.matrix kind n, .matrix entries⟩ = some d) :
    ∃ transposed, d.value = .matrix transposed ∧ transposed.length = entries.length ∧
      ∀ r c, r < n.toNat → c < n.toNat → transposed[r * n.toNat + c]? = entries[c * n.toNat + r]? := by
  let entry (i : Nat) : Value := entries.getD (i % n.toNat * n.toNat + i / n.toNat) .void
  have hentry : ∀ i ∈ List.range (n.toNat * n.toNat),
      entries[i % n.toNat * n.toNat + i / n.toNat]? = some (entry i) := by
    intro i hi
    have hlt := hlength ▸ Ty.exchanged_lt (List.mem_range.mp hi)
    simp [entry, hlt]
  refine ⟨(List.range (n.toNat * n.toNat)).map entry, ?_, by simp [hlength], fun r c hr hc => ?_⟩
  · have hcomponents : components ⟨.matrix kind n, .matrix entries⟩ = entries.map (Datum.mk (.scalar kind)) :=
      components_eq (fun _ => rfl) hlength
    obtain rfl := Option.some.inj h
    simp only [ofComponents, Value.pack, hcomponents, List.map_filterMap, List.getElem?_map, Option.map_map]
    refine congrArg Value.matrix ?_
    rw [← List.filterMap_eq_map]
    exact List.filterMap_congr fun i hi => by simp [hentry i hi]
  · have hlt : r * n.toNat + c < n.toNat * n.toNat := Ty.entry_lt hr hc
    have hplace := hentry _ (List.mem_range.mpr hlt)
    rw [Ty.entry_mod r hc, Ty.entry_div r hc] at hplace
    simp [hlt, hplace]

/-- A vector divided by a scalar in every component. -/
theorem divide_vector {c : Value} (hlength : items.length = n.toNat) (hitems : ∀ v ∈ items, v.scalarKind? = some kind)
    (hc : ∃ s, c = .scalar s) :
    Value.binary .div (.vector items) (convert ⟨.scalar kind, c⟩ (.vector kind n)).value =
      .vector (items.map fun a => .binary .div a (.castItem kind c)) := by
  obtain ⟨s, rfl⟩ := hc
  have hconvert : (convert ⟨.scalar kind, .scalar s⟩ (.vector kind n)).value =
      .vector (List.replicate items.length (.scalar (s.cast kind))) := by
    rw [hlength]
    rfl
  rw [hconvert]
  refine congrArg Value.vector (List.ext_getElem (by simp) fun i hi hi' => ?_)
  have hlt : i < items.length := by simpa using hi'
  obtain ⟨a, ha, -⟩ := Value.scalarKind?_eq_some (hitems _ (List.getElem_mem hlt))
  simp only [List.getElem_zipWith, List.getElem_map, List.getElem_replicate, ha]
  rfl

end Datum

/-! ## What the functions give -/

namespace Inline

/-- The square root of the standard library. -/
theorem sqrt_eq (v : Value) : Native.sqrt [v] = some ⟨root v, []⟩ := by
  cases v with
  | scalar s => cases s <;> rfl
  | _ => rfl

/-- A square root is a scalar. -/
theorem root_scalar (v : Value) : ∃ s, root v = .scalar s := by
  unfold root
  split <;> exact ⟨_, rfl⟩

theorem divisor_norm (kind : ScalarKind) (items : List Value) :
    Datum.divisor ⟨.scalar kind, norm items⟩ = ⟨.scalar kind, divisor kind items⟩ := rfl

/-- What a vector is divided by is a scalar. -/
theorem divisor_scalar (kind : ScalarKind) (items : List Value) : ∃ s, divisor kind items = .scalar s := by
  unfold divisor
  split
  · cases kind <;> exact ⟨_, rfl⟩
  · exact root_scalar _

end Inline

namespace Eval

variable {α β : Type} {calls calls' : List NativeCall}

theorem bind_eq_value {x : Eval α} {k : α → Eval β} {b : β} (h : (x >>= k) calls = .value b calls') :
    ∃ a calls₁, x calls = .value a calls₁ ∧ k a calls₁ = .value b calls' := by
  rw [bind_apply] at h
  cases hx : x calls with
  | value a calls₁ =>
    rw [hx] at h
    exact ⟨a, calls₁, rfl, h⟩
  | fault | stuck =>
    rw [hx] at h
    cases h

/-- A result that may be missing is there. -/
theorem ofOption_eq_value {o : Option α} {a : α} (h : ofOption o calls = .value a calls') :
    o = some a ∧ calls' = calls := by
  cases o with
  | none => cases h
  | some a' =>
    cases h
    exact ⟨rfl, rfl⟩

/-- A computation that does not fail, and whose only native calls are square roots, which print nothing. -/
structure Rooted (x : Eval α) : Prop where
  no_fault : ∀ calls fault calls', x calls ≠ .fault fault calls'
  calls : ∀ calls a calls', x calls = .value a calls' →
    ∃ made, calls' = made ++ calls ∧ ∀ c ∈ made, c.name = "sqrt" ∧ c.printed = []

namespace Rooted

theorem ofOption (o : Option α) : Rooted (ofOption o) where
  no_fault calls fault calls' h := by cases o <;> cases h
  calls calls a calls' h := ⟨[], (ofOption_eq_value h).2, by simp⟩

theorem bind {x : Eval α} {k : α → Eval β} (hx : Rooted x) (hk : ∀ a, Rooted (k a)) : Rooted (x >>= k) where
  no_fault calls fault calls' h := by
    rw [bind_apply] at h
    cases hanswer : x calls with
    | value a calls₁ =>
      rw [hanswer] at h
      exact (hk a).no_fault _ _ _ h
    | fault fault calls₁ => exact hx.no_fault _ _ _ hanswer
    | stuck =>
      rw [hanswer] at h
      cases h
  calls calls b calls' h := by
    obtain ⟨a, calls₁, ha, hb⟩ := bind_eq_value h
    obtain ⟨made, rfl, hmade⟩ := hx.calls _ _ _ ha
    obtain ⟨made', rfl, hmade'⟩ := (hk a).calls _ _ _ hb
    exact ⟨made' ++ made, by simp, fun c hc => (List.mem_append.mp hc).elim (hmade' c) (hmade c)⟩

end Rooted

/-- A call of the square root. -/
theorem native_sqrt (d : Datum) (ty : Ty) (calls : List NativeCall) :
    native "sqrt" Native.sqrt [d] ty calls =
      .value ⟨ty, Inline.root d.value⟩ (⟨"sqrt", [d.value], []⟩ :: calls) := by
  simp only [native, List.map_cons, List.map_nil, Inline.sqrt_eq]

/-- A square root is one. -/
theorem rooted_sqrt (d : Datum) (ty : Ty) : Rooted (native "sqrt" Native.sqrt [d] ty) where
  no_fault calls fault calls' h := by
    cases h
  calls calls a calls' h := by
    cases h
    exact ⟨[_], rfl, by simp⟩

end Eval

namespace Builtin

open Eval (Rooted)

theorem rooted_lengthOf (d : Datum) : Rooted (lengthOf d) :=
  (Rooted.ofOption _).bind fun square => Eval.rooted_sqrt square _

/-- No inline function fails. -/
theorem rooted_apply (element : ElementState) (builtin : Builtin) (ds : List Datum) :
    Rooted (builtin.apply element ds) := by
  have hpure (d : Datum) : Rooted (pure d : Eval Datum) := .ofOption (some d)
  unfold apply
  split
  · exact .ofOption _
  · exact .ofOption _
  · exact .ofOption _
  · exact rooted_lengthOf _
  · exact (rooted_lengthOf _).bind fun _ => hpure _
  · exact .ofOption _
  · exact hpure _
  · exact .ofOption none

/-- The length of a vector. -/
theorem lengthOf_vector {kind : ScalarKind} {n : UInt8} {items : List Value} {d : Datum} {calls calls' : List NativeCall}
    (hlength : items.length = n.toNat) (h : lengthOf ⟨.vector kind n, .vector items⟩ calls = .value d calls') :
    d = ⟨.scalar kind, Inline.norm items⟩ := by
  obtain ⟨square, calls₁, hsquare, h⟩ := Eval.bind_eq_value h
  obtain rfl := Datum.dot?_vector hlength hlength (Eval.ofOption_eq_value hsquare).1
  rw [Eval.native_sqrt] at h
  cases h
  rfl

/-- The types of the parameters that a function may have. -/
def Takes : Builtin → List Ty → Prop
  | dot, params | cross, params => ∃ kind n, params = [.vector kind n, .vector kind n]
  | length, params | lengthsq, params | normalize, params => ∃ kind n, params = [.vector kind n]
  | transpose, params => ∃ kind n, params = [.matrix kind n]
  | voxel _, params => params = []

/-- What a function computes from typed arguments is what it gives on them. -/
theorem apply_gives {element : ElementState} {builtin : Builtin} {params : List Ty} {values : List Value} {d : Datum}
    {calls calls' : List NativeCall} (htakes : builtin.Takes params) (htyped : List.Forall₂ Value.HasType values params)
    (h : builtin.apply element (List.zipWith Datum.mk params values) calls = .value d calls') :
    builtin.Gives element params values d.value := by
  cases builtin with
  | dot =>
    obtain ⟨kind, n, rfl⟩ := htakes
    obtain _ | ⟨_ | ⟨has, -⟩, _ | ⟨_ | ⟨hbs, -⟩, _ | _⟩⟩ := htyped
    obtain rfl := Datum.dot?_vector has hbs (Eval.ofOption_eq_value h).1
    exact .dot
  | cross =>
    obtain ⟨kind, n, rfl⟩ := htakes
    obtain _ | ⟨_ | ⟨has, -⟩, _ | ⟨_ | ⟨hbs, -⟩, _ | _⟩⟩ := htyped
    obtain ⟨a0, a1, a2, b0, b1, b2, rfl, rfl, hd⟩ := Datum.cross?_vector has hbs (Eval.ofOption_eq_value h).1
    rw [hd]
    exact .cross
  | lengthsq =>
    obtain ⟨kind, n, rfl⟩ := htakes
    obtain _ | ⟨_ | ⟨hlength, -⟩, _ | _⟩ := htyped
    obtain rfl := Datum.dot?_vector hlength hlength (Eval.ofOption_eq_value h).1
    exact .lengthsq
  | length =>
    obtain ⟨kind, n, rfl⟩ := htakes
    obtain _ | ⟨_ | ⟨hlength, -⟩, _ | _⟩ := htyped
    obtain rfl := lengthOf_vector hlength h
    exact .length
  | normalize =>
    obtain ⟨kind, n, rfl⟩ := htakes
    obtain _ | ⟨_ | ⟨hlength, hitems⟩, _ | _⟩ := htyped
    obtain ⟨len, calls₁, hlen, h⟩ := Eval.bind_eq_value h
    obtain rfl := lengthOf_vector hlength hlen
    cases h
    rw [Inline.divisor_norm, Datum.binary, Datum.divide_vector hlength hitems (Inline.divisor_scalar kind _)]
    exact .normalize
  | transpose =>
    obtain ⟨kind, n, rfl⟩ := htakes
    obtain _ | ⟨_ | _ | @⟨entries, _, _, hlength, -⟩, _ | _⟩ := htyped
    change Eval.ofOption (Datum.transpose? ⟨.matrix kind n, .matrix entries⟩) calls = .value d calls' at h
    obtain ⟨transposed, hd, hlength', hentry⟩ := Datum.transpose?_matrix hlength (Eval.ofOption_eq_value h).1
    rw [hd]
    exact .transpose hlength' hentry
  | voxel op =>
    obtain rfl := htakes
    cases htyped
    cases h
    exact .voxel

end Builtin

/-- The overloads of a group have parameters that the inline function of its name takes, if there is one. -/
def Group.Takes (g : Group) : Prop :=
  ∀ f ∈ g.functions, ∀ builtin, Builtin.ofName? g.name = some builtin → builtin.Takes f.signature.params

namespace Library

variable {doc name : String}

/-- A group of native overloads under a name of its own. -/
theorem nativeGroup_takes {types : List Ty} {arity : Nat} {ret : Ty → Ty} {body : NativeBody}
    (hname : Builtin.ofName? name = none) : (nativeGroup name doc types arity ret body).Takes := by
  intro f _ builtin hbuiltin
  cases hname.symm.trans hbuiltin

/-- A group of inline overloads. -/
theorem inlineGroup_takes {types : List Ty} {arity : Nat} {ret : Ty → Ty} {gen : Generator} {builtin : Builtin}
    (hname : Builtin.ofName? name = some builtin) (h : ∀ ty ∈ types, builtin.Takes (List.replicate arity ty)) :
    (inlineGroup name doc types arity ret gen).Takes := by
  intro f hf builtin' hbuiltin
  obtain ⟨ty, hty, rfl⟩ := List.mem_map.mp hf
  obtain rfl := Option.some.inj (hname.symm.trans hbuiltin)
  exact h ty hty

/-- A group that provides something of the voxel. -/
theorem voxelGroup_takes {op : Intrinsic} (hname : Builtin.ofName? name = some (.voxel op)) :
    (voxelGroup name doc op).Takes := by
  intro f hf builtin hbuiltin
  obtain rfl := List.mem_singleton.mp hf
  obtain rfl := Option.some.inj (hname.symm.trans hbuiltin)
  rfl

/-- The groups of the standard library have the parameters that their functions take. -/
theorem standardGroups_takes : ∀ g ∈ standardGroups, g.Takes := by
  have hvectors : ∀ ty ∈ vectors, ∃ kind n, ty = .vector kind n := by simp [vectors, vectorsOf]
  have hthree : ∀ ty ∈ vectorsOf 3, ∃ kind n, ty = .vector kind n := by simp [vectorsOf]
  have hmatrices : ∀ ty ∈ matrices, ∃ kind n, ty = .matrix kind n := by simp [matrices]
  have hpair {ty : Ty} (h : ∃ kind n, ty = .vector kind n) :
      ∃ kind n, List.replicate 2 ty = [.vector kind n, .vector kind n] := by
    obtain ⟨kind, n, rfl⟩ := h
    exact ⟨kind, n, rfl⟩
  have hfloat : ∀ ty ∈ floatVectors, ∃ kind n, List.replicate 1 ty = [.vector kind n] := by
    intro ty hty
    obtain ⟨kind, n, rfl⟩ := hvectors ty (List.mem_filter.mp hty).1
    exact ⟨kind, n, rfl⟩
  unfold standardGroups
  simp only [List.forall_mem_cons]
  repeat refine ⟨nativeGroup_takes rfl, ?_⟩
  refine ⟨inlineGroup_takes rfl fun ty hty => hpair (hvectors ty hty),
    inlineGroup_takes rfl fun ty hty => hpair (hthree ty hty), inlineGroup_takes rfl hfloat, inlineGroup_takes rfl hfloat,
    inlineGroup_takes rfl hfloat, inlineGroup_takes rfl fun ty hty => ?_, voxelGroup_takes rfl, voxelGroup_takes rfl,
    voxelGroup_takes rfl, voxelGroup_takes rfl, by simp⟩
  obtain ⟨kind, n, rfl⟩ := hmatrices ty hty
  exact ⟨kind, n, rfl⟩

end Library

/-- Operands hold the values of their registers. -/
theorem AllHold.of_fetch {b : Builder} {m : Machine} {args : List Operand} {values : List Value}
    (hbound : ∀ a ∈ args, a.reg < b.regs.size) (h : m.fetch (args.map Operand.reg) = .ok values) :
    AllHold args b (List.zipWith Datum.mk (args.map Operand.ty) values) m := by
  induction args generalizing values with
  | nil =>
    cases h
    exact .nil
  | cons a args ih =>
    rw [List.forall_mem_cons] at hbound
    simp only [List.map_cons, Machine.fetch] at h
    split at h
    · cases h
    · cases h
    · next v vs hv hvs =>
      cases h
      exact .cons ⟨hv, rfl, hbound.1⟩ (ih hbound.2 hvs)

/-- The code that an inline function puts in place of a call writes only registers that were made for it,
calls nothing but the square root, and lets control go on; the register of its result then holds what the
function gives on the values of its operands. -/
theorem Library.inline_hygienic {g : Group} {f : Function} {gen : Generator} (hg : g ∈ standardGroups)
    (hf : f ∈ g.functions) (hgen : f.implementation = .emitted gen) (custom : CustomData) (b : Builder)
    (args : List Operand) (hargs : args.map Operand.ty = f.signature.params)
    (hregs : ∀ a ∈ args, b.regs[a.reg]? = some a.ty) :
    ∃ builtin o b' code, Builtin.ofName? g.name = some builtin ∧ (gen custom args).run b = (some o, b') ∧
      b.Adds code b' ∧ o.ty = f.signature.ret ∧ b'.regs[o.reg]? = some o.ty ∧ b.regs.size ≤ o.reg ∧
      ∀ types fuel m, KeepsTypes b'.regs types → m.regs.size = types.size →
        ∃ m' v, Instr.runAll types fuel code m = .done .next m' ∧ m.Later b.regs.size b'.regs.size m' ∧
          (∃ made, m'.calls = made ++ m.calls ∧ ∀ c ∈ made, c.name = "sqrt" ∧ c.printed = []) ∧
          m'.regs[o.reg]? = some v ∧
          ∀ values, m.fetch (args.map Operand.reg) = .ok values →
            List.Forall₂ Value.HasType values f.signature.params →
              builtin.Gives m.state f.signature.params values v := by
  obtain ⟨builtin, hname, rfl, harity⟩ := standardGroups_builtins g hg f hf gen hgen
  obtain ⟨o, ho, hty⟩ := standardGroups_hasResult g hg f hf _ hgen custom args hargs b
  have htakes := standardGroups_takes g hg f hf builtin hname
  have hrun : (builtin.generator custom args).run b = (some o, ((builtin.generator custom args).run b).2) :=
    Prod.ext ho rfl
  generalize ((builtin.generator custom args).run b).2 = b' at hrun
  obtain ⟨code, hcode⟩ : b.Grows b' := Grows.of_eq hrun
  have htype : b'.regs[o.reg]? = some o.ty := by
    have hsound := (standardGroups_sound (σ := ⟨fun _ _ => False, False⟩) g hg f hf).implementation
    rw [hgen] at hsound
    have hready : ∀ a ∈ args, a.Ready ⟨fun _ _ => False, False⟩ b Set.univ := fun a ha => ⟨hregs a ha, trivial, False.elim⟩
    obtain ⟨-, W, -, -, -, hpost⟩ := hsound custom args b Set.univ hready hargs
    rw [hrun] at hpost
    exact (hpost o rfl).type
  refine ⟨builtin, o, b', code, hname, hrun, hcode, hty, htype, builtin.fresh_generator custom args b o b' hrun, ?_⟩
  intro types fuel m htypes hsize
  have hbound : ∀ a ∈ args, a.reg < b.regs.size := fun a ha => (Array.getElem?_eq_some_iff.mp (hregs a ha)).1
  obtain ⟨values, hvalues⟩ : ∃ values, m.fetch (args.map Operand.reg) = .ok values := by
    refine Instr.exists_fetch fun r hr => ?_
    obtain ⟨a, ha, rfl⟩ := List.mem_map.mp hr
    exact hsize ▸ Nat.lt_of_lt_of_le (hbound a ha) (Nat.le_trans hcode.size_le (KeepsTypes.size_le htypes))
  have hhold := AllHold.of_fetch hbound hvalues
  rw [hargs] at hhold
  have hlength : args.length = builtin.arity := by rw [← harity, ← hargs, List.length_map]
  have hdoes : DoesPart types fuel b (builtin.generator custom args) m
      (builtin.apply m.state (List.zipWith Datum.mk f.signature.params values)) Operand.Holds :=
    builtin.does_generator custom hhold hlength
  have hrealizes := hdoes o b' hrun code hcode htypes hsize
  have honly := builtin.rooted_apply m.state (List.zipWith Datum.mk f.signature.params values)
  generalize hanswer : builtin.apply m.state (List.zipWith Datum.mk f.signature.params values) m.calls = answer at hrealizes
  generalize Instr.runAll types fuel code m = out at hrealizes
  cases hrealizes with
  | fault => exact absurd hanswer (honly.no_fault _ _ _)
  | @value d m' hlater hholds =>
    refine ⟨m', d.value, rfl, hlater, honly.calls _ _ _ hanswer, hholds.value, fun values' hvalues' htyped => ?_⟩
    obtain rfl := Except.ok.inj (hvalues.symm.trans hvalues')
    exact Builtin.apply_gives htakes htyped hanswer

/-- The dot product of a vector with itself: both operands are the register of one variable, which is kept. -/
theorem Library.inline_hygienic_same_register : ∃ o b' code,
    (Emitted.dot {} [⟨0, .vector .int32 3⟩, ⟨0, .vector .int32 3⟩]).run
      { target := .points, regs := #[.vector .int32 3], slots := 0 } = (some o, b') ∧
    Builder.Adds { target := .points, regs := #[.vector .int32 3], slots := 0 } code b' ∧ 1 ≤ o.reg ∧
    ∀ types fuel m, KeepsTypes b'.regs types → m.regs.size = types.size →
      m.regs[0]? = some (.vector [.int32 1, .int32 2, .int32 3]) →
      ∃ m', Instr.runAll types fuel code m = .done .next m' ∧ m'.state = m.state ∧
        m'.regs[0]? = some (.vector [.int32 1, .int32 2, .int32 3]) ∧ m'.regs[o.reg]? = some (.int32 14) := by
  obtain ⟨builtin, o, b', code, hname, hrun, hadds, -, -, hfresh, hcode⟩ := inline_hygienic
    (g := inlineGroup "dot" "Dot product." vectors 2 Ty.elementTy Emitted.dot)
    (f := ⟨{ params := [.vector .int32 3, .vector .int32 3], ret := .int32 : Signature }.reading, .emitted Emitted.dot⟩)
    (by simp [standardGroups]) (List.mem_map.mpr ⟨.vector .int32 3, by decide, rfl⟩) rfl {}
    { target := .points, regs := #[.vector .int32 3], slots := 0 }
    [⟨0, .vector .int32 3⟩, ⟨0, .vector .int32 3⟩] rfl (by simp)
  obtain rfl : .dot = builtin := Option.some.inj hname
  refine ⟨o, b', code, hrun, hadds, hfresh, fun types fuel m htypes hsize hvalue => ?_⟩
  obtain ⟨m', v, hdone, hlater, -, hv, hgives⟩ := hcode types fuel m htypes hsize
  have hfetch : m.fetch [0, 0] = .ok [.vector [.int32 1, .int32 2, .int32 3], .vector [.int32 1, .int32 2, .int32 3]] := by
    simp only [Machine.fetch, hvalue]
  have htyped : Value.HasType (.vector [.int32 1, .int32 2, .int32 3]) (.vector .int32 3) :=
    .vector rfl (by simp [Value.scalarKind?, Scalar.kind])
  have hkept := (hlater.regs 0 (.inl (by decide))).trans hvalue
  cases hgives _ hfetch (.cons htyped (.cons htyped .nil))
  exact ⟨m', hdone, hlater.state, hkept, hv⟩

end Elementwise
