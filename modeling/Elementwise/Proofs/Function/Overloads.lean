import Elementwise.Proofs.Function.Standard

/-!
# One more overload

A call takes the first overload of its group whose parameters are the argument types, else the first to which
the arguments convert. An overload that is added at the end is therefore taken only if none was before, or if it
is the first that fits exactly. What fits is told here on the lists of parameters and arguments: a variadic
signature takes further arguments as it takes one in the place of its last parameter.
-/

namespace Elementwise

namespace Signature

variable {s : Signature} {args : List Ty} {tier : MatchTier} {R Q : Ty → Ty × Bool → Prop}

/-- The parameters with their flags; a flag that is not there is not set. -/
def flagged (s : Signature) : List (Ty × Bool) :=
  s.params.zipIdx.map fun param => (param.1, s.readonly[param.2]?.getD false)

/-- Arguments that are related to the parameters one by one; all further ones of a variadic signature to its last
parameter. -/
def Receives (s : Signature) (R : Ty → Ty × Bool → Prop) (args : List Ty) : Prop :=
  ∃ own further, args = own ++ further ∧ List.Forall₂ R own s.flagged ∧ (further = [] ∨ s.variadic = true) ∧
    ∀ arg ∈ further, ∃ param, s.flagged.getLast? = some param ∧ R arg param

/-- The argument types are those of the parameters. -/
def Exactly (s : Signature) : List Ty → Prop := s.Receives fun arg param => arg = param.1

/-- Every argument may be passed to its parameter. -/
def Admits (s : Signature) : List Ty → Prop := s.Receives fun arg param => arg.convertsToParameter param.1 param.2 = true

/-- Every argument type converts to the type of its parameter. -/
def Converts (s : Signature) : List Ty → Prop := s.Receives fun arg param => arg.convertsTo param.1 = true

/-- What is related to the parameters in one way is so in a weaker one. -/
theorem Receives.imp (h : s.Receives R args) (himp : ∀ arg param, R arg param → Q arg param) : s.Receives Q args := by
  obtain ⟨own, further, hargs, hown, hvariadic, hfurther⟩ := h
  refine ⟨own, further, hargs, hown.imp himp, hvariadic, fun arg harg => ?_⟩
  obtain ⟨param, hlast, hR⟩ := hfurther arg harg
  exact ⟨param, hlast, himp arg param hR⟩

/-- How a tier relates an argument to its parameter. -/
def Accepted (tier : MatchTier) (arg : Ty) (param : Ty × Bool) : Prop :=
  if tier = .explicit then arg = param.1 else arg.convertsToParameter param.1 param.2 = true

theorem length_flagged (s : Signature) : s.flagged.length = s.params.length := by simp [flagged]

/-- The parameter that receives an argument. -/
theorem param?_eq (s : Signature) (i : Nat) :
    s.param? i = if s.variadic = true ∧ s.params.length ≤ i then s.flagged.getLast? else s.flagged[i]? := by
  have hget (j : Nat) : s.flagged[j]? = s.params[j]?.map fun ty => (ty, s.readonly[j]?.getD false) := by
    simp [flagged, List.getElem?_map, List.getElem?_zipIdx, Option.map_map, Function.comp_def]
  rw [List.getLast?_eq_getElem?, length_flagged, hget, hget, param?]
  by_cases h : s.variadic = true ∧ s.params.length ≤ i
  · simp [h]
  · rw [if_neg h, if_neg (by simpa using h)]

/-- An argument fits the parameter that receives it. -/
theorem accepts_iff {i : Nat} {arg : Ty} :
    s.accepts tier i arg = true ↔ ∃ param, s.param? i = some param ∧ Accepted tier arg param := by
  unfold accepts Accepted
  split
  · next param readonly hparam =>
    split <;> simp_all
  · next hparam => simp [hparam]

/-- The argument types fit if they are as many as the signature takes and each fits the parameter that receives it. -/
theorem fits_iff_forall : s.fits tier args = true ↔ s.acceptsCount args.length = true ∧
    ∀ i arg, args[i]? = some arg → ∃ param, s.param? i = some param ∧ Accepted tier arg param := by
  rw [fits, Bool.and_eq_true, List.all_eq_true]
  refine and_congr_right fun _ => ⟨fun h i arg harg => ?_, fun h entry hentry => ?_⟩
  · exact accepts_iff.mp (h (arg, i) (List.mem_zipIdx_iff_getElem?.mpr harg))
  · exact accepts_iff.mpr (h entry.2 entry.1 (List.mem_zipIdx_iff_getElem?.mp hentry))

/-- The argument types fit if they are related to the parameters in the way of the tier. -/
theorem fits_iff : s.fits tier args = true ↔ s.Receives (Accepted tier) args := by
  rw [fits_iff_forall, acceptsCount]
  constructor
  · rintro ⟨hcount, haccepted⟩
    have hle : s.params.length ≤ args.length := by
      split at hcount
      · exact of_decide_eq_true hcount
      · exact Nat.le_of_eq (beq_iff_eq.mp hcount).symm
    refine ⟨args.take s.params.length, args.drop s.params.length, (List.take_append_drop ..).symm, ?_, ?_, ?_⟩
    · refine List.forall₂_iff_get.mpr ⟨by simp [length_flagged, hle], fun i hi hi' => ?_⟩
      have hlt : i < s.params.length := length_flagged s ▸ hi'
      obtain ⟨param, hparam, haccept⟩ := haccepted i args[i] (List.getElem?_eq_getElem _)
      rw [param?_eq, if_neg (fun h => Nat.not_le.mpr hlt h.2), List.getElem?_eq_getElem hi'] at hparam
      obtain rfl := Option.some.inj hparam
      simpa using haccept
    · split at hcount
      · next hvariadic => exact .inr hvariadic
      · exact .inl (by simpa using Nat.le_of_eq (beq_iff_eq.mp hcount))
    · intro arg harg
      obtain ⟨i, hi⟩ := List.mem_iff_getElem?.mp harg
      rw [List.getElem?_drop] at hi
      obtain ⟨param, hparam, haccept⟩ := haccepted _ arg hi
      refine ⟨param, ?_, haccept⟩
      rw [param?_eq] at hparam
      split at hparam
      · exact hparam
      · -- beyond the parameters there is one only for a variadic signature
        rw [List.getElem?_eq_none (by rw [length_flagged]; omega)] at hparam
        cases hparam
  · rintro ⟨own, further, rfl, hown, hvariadic, hfurther⟩
    have hlength : own.length = s.params.length := by rw [hown.length_eq, length_flagged]
    refine ⟨?_, fun i arg harg => ?_⟩
    · rcases hvariadic with rfl | hvariadic
      · simp [hlength]
      · simp [hvariadic, hlength]
    · rw [param?_eq]
      by_cases hi : i < own.length
      · rw [if_neg (fun h => absurd h.2 (by omega))]
        rw [List.getElem?_append_left hi] at harg
        have hi' : i < s.flagged.length := hown.length_eq ▸ hi
        refine ⟨s.flagged[i], List.getElem?_eq_getElem hi', ?_⟩
        have hpair := (List.forall₂_iff_get.mp hown).2 i hi hi'
        rw [List.getElem?_eq_getElem hi] at harg
        exact Option.some.inj harg ▸ hpair
      · rw [List.getElem?_append_right (Nat.not_lt.mp hi)] at harg
        have hmem := List.mem_of_getElem? harg
        have hvariadic : s.variadic = true := hvariadic.resolve_left (List.ne_nil_of_mem hmem)
        rw [if_pos ⟨hvariadic, by omega⟩]
        exact hfurther arg hmem

theorem fits_explicit_iff : s.fits .explicit args = true ↔ s.Exactly args := fits_iff

theorem fits_implicit_iff : s.fits .implicit args = true ↔ s.Admits args := fits_iff

instance : DecidablePred s.Exactly := fun _ => decidable_of_iff _ fits_explicit_iff

instance : DecidablePred s.Admits := fun _ => decidable_of_iff _ fits_implicit_iff

theorem Exactly.admits (h : s.Exactly args) : s.Admits args :=
  h.imp fun arg param heq => by simp [heq, Ty.convertsToParameter]

theorem Admits.converts (h : s.Admits args) : s.Converts args :=
  h.imp fun _ _ => Ty.convertsTo_of_convertsToParameter

end Signature

namespace Group

variable {g : Group} {args : List Ty} {tier : MatchTier} {r : Resolution} {e : ResolutionError}

/-- The first overload that fits, with one more at the end: the one from before, or else the new one if it fits. -/
theorem firstFit?_push (g : Group) (s : Signature) (implementation : Implementation) (tier : MatchTier) (args : List Ty) :
    (g.push s implementation).firstFit? tier args = (g.firstFit? tier args).or
      (if s.fits tier args = true then some ⟨⟨s, implementation⟩, tier, g.functions.length⟩ else none) := by
  unfold firstFit? push
  rw [List.zipIdx_append, List.find?_append, Option.map_or, List.zipIdx_singleton, List.find?_singleton, Nat.zero_add]
  dsimp only
  split <;> rfl

/-- The first overload that fits in a way fits in that way. -/
theorem firstFit?_eq_some (h : g.firstFit? tier args = some r) :
    r.tier = tier ∧ r.function.signature.fits tier args = true := by
  obtain ⟨entry, hfind, rfl⟩ := Option.map_eq_some_iff.mp h
  have hfits := List.find?_some hfind
  exact ⟨rfl, hfits⟩

theorem resolve_of_explicit (h : g.firstFit? .explicit args = some r) : g.resolve args = .ok r := by
  rw [resolve, h]

/-- A call that fits none exactly takes the first overload that fits. -/
theorem resolve_of_implicit (hnone : g.firstFit? .explicit args = none) (h : g.firstFit? .implicit args = some r) :
    g.resolve args = .ok r := by
  rw [resolve, hnone, h]

/-- The error of a call that fits no overload tells whether one takes as many arguments. -/
def refusal (g : Group) (args : List Ty) : ResolutionError :=
  ⟨g.name, args, if g.functions.any fun f => f.signature.acceptsCount args.length then .size else .none, g.signatures⟩

/-- A call that fits no overload is an error. -/
theorem resolve_of_none (hnone : g.firstFit? .explicit args = none) (hnone' : g.firstFit? .implicit args = none) :
    g.resolve args = .error (g.refusal args) := by
  rw [resolve, hnone, hnone']
  rfl

/-- A call that is resolved fits an overload exactly, or none exactly and one by conversion. -/
theorem firstFit?_of_resolve (h : g.resolve args = .ok r) :
    (r.tier = .explicit ∧ g.firstFit? .explicit args = some r) ∨
      (r.tier = .implicit ∧ g.firstFit? .explicit args = none ∧ g.firstFit? .implicit args = some r) := by
  cases hexplicit : g.firstFit? .explicit args with
  | some r' =>
    obtain rfl := Except.ok.inj ((resolve_of_explicit hexplicit).symm.trans h)
    exact .inl ⟨(firstFit?_eq_some hexplicit).1, rfl⟩
  | none =>
    cases himplicit : g.firstFit? .implicit args with
    | some r' =>
      obtain rfl := Except.ok.inj ((resolve_of_implicit hexplicit himplicit).symm.trans h)
      exact .inr ⟨(firstFit?_eq_some himplicit).1, rfl, rfl⟩
    | none => cases (resolve_of_none hexplicit himplicit).symm.trans h

/-- A call that is an error fits no overload. -/
theorem firstFit?_of_resolve_error (h : g.resolve args = .error e) :
    g.firstFit? .explicit args = none ∧ g.firstFit? .implicit args = none ∧ e = g.refusal args := by
  cases hexplicit : g.firstFit? .explicit args with
  | some r => cases (resolve_of_explicit hexplicit).symm.trans h
  | none =>
    cases himplicit : g.firstFit? .implicit args with
    | some r => cases (resolve_of_implicit hexplicit himplicit).symm.trans h
    | none => exact ⟨rfl, rfl, (Except.error.inj ((resolve_of_none hexplicit himplicit).symm.trans h)).symm⟩

section Push

variable {s : Signature} {implementation : Implementation}

/-- An overload that fits before keeps its place. -/
theorem firstFit?_push_of_some (h : g.firstFit? tier args = some r) :
    (g.push s implementation).firstFit? tier args = some r := by
  rw [firstFit?_push, h, Option.some_or]

/-- The new overload is the first that fits if none did before. -/
theorem firstFit?_push_of_fits (hnone : g.firstFit? tier args = none) (h : s.fits tier args = true) :
    (g.push s implementation).firstFit? tier args = some ⟨⟨s, implementation⟩, tier, g.functions.length⟩ := by
  rw [firstFit?_push, hnone, Option.none_or, if_pos h]

/-- There is still none if the new overload does not fit. -/
theorem firstFit?_push_of_not_fits (hnone : g.firstFit? tier args = none) (h : ¬s.fits tier args = true) :
    (g.push s implementation).firstFit? tier args = none := by
  rw [firstFit?_push, hnone, Option.none_or, if_neg h]

end Push

/-- The error with one more overload. -/
theorem refusal_push (g : Group) (s : Signature) (implementation : Implementation) (args : List Ty) :
    (g.push s implementation).refusal args = { g.refusal args with
      tier := if (g.refusal args).tier = .size ∨ s.acceptsCount args.length = true then .size else .none
      candidates := (g.refusal args).candidates ++ [s] } := by
  unfold refusal push signatures
  rw [List.any_append, List.map_append]
  cases g.functions.any fun f => f.signature.acceptsCount args.length <;> simp

/-- What a call is resolved to after an overload `f` was added at the end. An exact fit stays what it is. So does a fit by
conversion, unless the parameters of `f` are exactly the argument types: then the call takes `f`. A call that was not
resolved takes `f`, exactly or by conversion, if `f` takes the arguments; if not, the error lists `f` with the others,
and tells that the number of arguments fits if it did before or fits `f`. And whatever a call is resolved to, the
argument types convert to those of the parameters that receive them. -/
theorem resolve_push (g : Group) (s : Signature) (implementation : Implementation) (args : List Ty) :
    let f : Function := ⟨s, implementation⟩
    let more := g.push s implementation
    (∀ r, g.resolve args = .ok r → r.tier = .explicit → more.resolve args = .ok r) ∧
      (∀ r, g.resolve args = .ok r → r.tier = .implicit →
        (s.Exactly args → more.resolve args = .ok ⟨f, .explicit, g.functions.length⟩) ∧
          (¬s.Exactly args → more.resolve args = .ok r)) ∧
      (∀ e, g.resolve args = .error e →
        (s.Exactly args → more.resolve args = .ok ⟨f, .explicit, g.functions.length⟩) ∧
          (¬s.Exactly args → s.Admits args → more.resolve args = .ok ⟨f, .implicit, g.functions.length⟩) ∧
          (¬s.Admits args → more.resolve args = .error { e with
            tier := if e.tier = .size ∨ s.acceptsCount args.length = true then .size else .none
            candidates := e.candidates ++ [s] })) ∧
      ∀ r, g.resolve args = .ok r →
        (r.tier = .explicit ∨ r.tier = .implicit) ∧ r.function.signature.Converts args := by
  intro f more
  rw [← Signature.fits_explicit_iff, ← Signature.fits_implicit_iff]
  refine ⟨fun r hr htier => ?_, fun r hr htier => ?_, fun e he => ?_, fun r hr => ?_⟩
  · rcases firstFit?_of_resolve hr with ⟨-, hfirst⟩ | ⟨htier', -⟩
    · exact resolve_of_explicit (firstFit?_push_of_some hfirst)
    · exact absurd (htier.symm.trans htier') (by decide)
  · rcases firstFit?_of_resolve hr with ⟨htier', -⟩ | ⟨-, hnone, hfirst⟩
    · exact absurd (htier.symm.trans htier') (by decide)
    · refine ⟨fun hfits => resolve_of_explicit (firstFit?_push_of_fits hnone hfits), fun hfits => ?_⟩
      exact resolve_of_implicit (firstFit?_push_of_not_fits hnone hfits) (firstFit?_push_of_some hfirst)
  · obtain ⟨hnone, hnone', rfl⟩ := firstFit?_of_resolve_error he
    refine ⟨fun hfits => resolve_of_explicit (firstFit?_push_of_fits hnone hfits), fun hfits hfits' => ?_,
      fun hfits' => ?_⟩
    · exact resolve_of_implicit (firstFit?_push_of_not_fits hnone hfits) (firstFit?_push_of_fits hnone' hfits')
    · -- what does not fit by conversion does not fit exactly
      have hfits : ¬s.fits .explicit args = true := fun hfits =>
        hfits' (Signature.fits_implicit_iff.mpr (Signature.fits_explicit_iff.mp hfits).admits)
      rw [← refusal_push]
      exact resolve_of_none (firstFit?_push_of_not_fits hnone hfits) (firstFit?_push_of_not_fits hnone' hfits')
  · rcases firstFit?_of_resolve hr with ⟨htier, hfirst⟩ | ⟨htier, -, hfirst⟩
    · exact ⟨.inl htier, (Signature.fits_explicit_iff.mp (firstFit?_eq_some hfirst).2).admits.converts⟩
    · exact ⟨.inr htier, (Signature.fits_implicit_iff.mp (firstFit?_eq_some hfirst).2).converts⟩

/-- A variadic overload for integers after one for two numbers. It takes two integers, which converted before, and any
other number of numbers; two numbers that are not integers are taken as before, and three texts by none. -/
theorem resolve_push_variadic :
    let two : Function := ⟨{ params := [.float, .float], ret := .float }, .native Native.min⟩
    let g : Group := { name := "least", functions := [two] }
    let s : Signature := { params := [.int32], ret := .int32, variadic := true, readonly := [] }
    let f : Function := ⟨s, .native Native.min⟩
    let more := g.push s (.native Native.min)
    (g.resolve [.float, .float] = .ok ⟨two, .explicit, 0⟩ ∧ more.resolve [.float, .float] = .ok ⟨two, .explicit, 0⟩) ∧
      (g.resolve [.int32, .int32] = .ok ⟨two, .implicit, 0⟩ ∧ s.Exactly [.int32, .int32] ∧
        more.resolve [.int32, .int32] = .ok ⟨f, .explicit, 1⟩) ∧
      (g.resolve [.double, .bool] = .ok ⟨two, .implicit, 0⟩ ∧ ¬s.Exactly [.double, .bool] ∧
        more.resolve [.double, .bool] = .ok ⟨two, .implicit, 0⟩ ∧ two.signature.Converts [.double, .bool]) ∧
      (g.resolve [.bool] = .error (g.refusal [.bool]) ∧ s.Admits [.bool] ∧ ¬s.Exactly [.bool] ∧
        more.resolve [.bool] = .ok ⟨f, .implicit, 1⟩) ∧
      g.resolve [.string, .string, .string] = .error (g.refusal [.string, .string, .string]) ∧
        (g.refusal [.string, .string, .string]).tier = .none ∧ ¬s.Admits [.string, .string, .string] ∧
        ∃ e, more.resolve [.string, .string, .string] = .error e ∧ e.tier = .size := by
  intro two g s f more
  have hpush := g.resolve_push s (.native Native.min)
  refine ⟨⟨rfl, (hpush _).1 _ rfl rfl⟩, ⟨rfl, by decide, ((hpush _).2.1 _ rfl rfl).1 (by decide)⟩,
    ⟨rfl, by decide, ((hpush _).2.1 _ rfl rfl).2 (by decide), ((hpush _).2.2.2 ⟨two, .implicit, 0⟩ rfl).2⟩,
    ⟨rfl, by decide, by decide, ((hpush _).2.2.1 _ rfl).2.1 (by decide) (by decide)⟩, rfl, rfl, by decide,
    _, ((hpush _).2.2.1 _ rfl).2.2 (by decide), rfl⟩

end Group

end Elementwise
