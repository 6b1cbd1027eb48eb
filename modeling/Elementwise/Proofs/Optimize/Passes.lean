import Elementwise.Proofs.Code.Verify
import Elementwise.Proofs.Optimize.Constants

/-!
# The passes of the optimiser

Each pass gives code that follows the code it was made from. Folding, resolving branches and dropping
what follows a jump leave the machine exactly as it was; dropping dead instructions leaves it the same
in every register that is read anywhere. What any of them makes of code is one relation, with whether
something was found: what is kept as it is raises no flag, and everything else does.
-/

namespace Elementwise

namespace Instr

variable {types : Array Ty} {fuel : Nat} {known : Constants}

/-- Registers whose values are known are fetched with these values. -/
theorem fetch_of_lookup {m : Machine} {rs : List Reg} {vs : List Value}
    (hknown : ∀ r ∈ rs, ∀ v, known.lookup r = some v → m.regs[r]? = some v)
    (hvs : (rs.mapM fun r => known.lookup r) = some vs) : m.fetch rs = .ok vs := by
  induction rs generalizing vs with
  | nil =>
    obtain rfl : [] = vs := by simpa using hvs
    rfl
  | cons r rest ih =>
    simp only [List.mapM_cons, bind, Option.bind_eq_some_iff, pure, Option.some.injEq] at hvs
    obtain ⟨v, hv, ws, hws, rfl⟩ := hvs
    have hrest := ih (fun x hx => hknown x (List.mem_cons_of_mem _ hx)) hws
    simp [Machine.fetch, hknown r List.mem_cons_self v hv, hrest]

/-- An instruction whose value is known writes that value, where the machine holds what is known. -/
theorem run_of_evaluate? {i : Instr} {d : Reg} {v : Value} {m : Machine}
    (h : i.evaluate? types known = some v) (hdst : i.dst? = some d)
    (hknown : ∀ r ∈ i.uses, ∀ u, known.lookup r = some u → m.regs[r]? = some u) :
    i.run types fuel m = m.set d v := by
  cases i with
  | copy d' s =>
    obtain rfl : d' = d := by simpa [dst?] using hdst
    simp [run, Machine.withReg, hknown s (by simp [uses]) v h]
  | binary d' op l r =>
    obtain rfl : d' = d := by simpa [dst?] using hdst
    simp only [evaluate?, bind, Option.bind_eq_some_iff, Option.some.injEq] at h
    obtain ⟨a, ha, b, hb, rfl⟩ := h
    simp [run, Machine.withReg, hknown l (by simp [uses]) a ha, hknown r (by simp [uses]) b hb]
  | unary d' op s =>
    obtain rfl : d' = d := by simpa [dst?] using hdst
    simp only [evaluate?, bind, Option.bind_eq_some_iff, Option.some.injEq] at h
    obtain ⟨a, ha, rfl⟩ := h
    simp [run, Machine.withReg, hknown s (by simp [uses]) a ha]
  | convert d' s =>
    obtain rfl : d' = d := by simpa [dst?] using hdst
    simp only [evaluate?, bind, Option.bind_eq_some_iff] at h
    obtain ⟨a, ha, ty, hty, hv⟩ := h
    simp [run, Machine.withReg, hknown s (by simp [uses]) a ha, Value.convert, hty, hv]
  | pack d' items =>
    obtain rfl : d' = d := by simpa [dst?] using hdst
    simp only [evaluate?, bind, Option.bind_eq_some_iff, Option.some.injEq] at h
    obtain ⟨vs, hvs, ty, hty, rfl⟩ := h
    have hfetch : m.fetch items = .ok vs := fetch_of_lookup (fun r hr => hknown r (by simpa [uses] using hr)) hvs
    simp [run, Machine.withRegs, hfetch, hty]
  | extract d' s j =>
    obtain rfl : d' = d := by simpa [dst?] using hdst
    simp only [evaluate?, bind, Option.bind_eq_some_iff] at h
    obtain ⟨x, hx, a, ha, hv⟩ := h
    simp only [run, Machine.withReg, hknown j (by simp [uses]) x hx, hknown s (by simp [uses]) a ha]
    cases hc : a.extractAt? x with
    | some c => simp_all
    | none =>
      simp only [hc, Option.bind_eq_some_iff, Option.some.injEq] at hv
      obtain ⟨ty, hty, rfl⟩ := hv
      simp [hty]
  | _ => simp [evaluate?] at h

/-- Folding puts a constant in place of an instruction, and notes it, or leaves the instruction. -/
theorem foldHead_cases (types : Array Ty) (known : Constants) (i : Instr) :
    i.foldHead types known = ⟨i, false⟩ ∨
      ∃ d v, i.dst? = some d ∧ i.evaluate? types known = some v ∧ i.foldHead types known = ⟨const d v, true⟩ := by
  unfold foldHead
  split
  · next v d hv hd => exact .inr ⟨d, v, hd, hv, rfl⟩
  · exact .inl rfl

theorem fold_leaf {i : Instr} (hleaf : i.bodies = []) : i.fold types known = i.foldHead types known := by
  cases i <;> first | rfl | simp [bodies] at hleaf

/-- What a pass makes of code: other instructions in place of those without bodies, one body in place of a branch whose
condition is decided, and nothing after a jump. All else stays, with the bodies in it rewritten. -/
inductive Rewrites (turns : Instr → Passed (List Instr) → Prop) (decides : Reg → Value → Prop) :
    List Instr → Passed (List Instr) → Prop
  | nil : Rewrites turns decides [] ⟨[], false⟩
  | leaf {i : Instr} {rest : List Instr} {p rest' : Passed (List Instr)} (hleaf : i.bodies = []) (hturns : turns i p)
      (hrest : Rewrites turns decides rest rest') :
      Rewrites turns decides (i :: rest) ⟨p.result ++ rest'.result, rest'.found || p.found⟩
  | branch {c : Reg} {t e rest : List Instr} {t' e' rest' : Passed (List Instr)} (ht : Rewrites turns decides t t')
      (he : Rewrites turns decides e e') (hrest : Rewrites turns decides rest rest') :
      Rewrites turns decides (branch c t e :: rest)
        ⟨Instr.branch c t'.result e'.result :: rest'.result, rest'.found || (e'.found || t'.found)⟩
  | taken {c : Reg} {v : Value} {t e rest : List Instr} {t' e' rest' : Passed (List Instr)} (hc : decides c v)
      (ht : Rewrites turns decides t t') (he : Rewrites turns decides e e') (hrest : Rewrites turns decides rest rest') :
      Rewrites turns decides (Instr.branch c t e :: rest)
        ⟨(if v.truthy then t'.result else e'.result) ++ rest'.result, rest'.found || true⟩
  | loop {k : LoopKind} {c : Option Reg} {t b s rest : List Instr} {t' b' s' rest' : Passed (List Instr)}
      (ht : Rewrites turns decides t t') (hb : Rewrites turns decides b b') (hs : Rewrites turns decides s s')
      (hrest : Rewrites turns decides rest rest') :
      Rewrites turns decides (loop k t c b s :: rest)
        ⟨Instr.loop k t'.result c b'.result s'.result :: rest'.result,
          rest'.found || ((s'.found || b'.found) || t'.found)⟩
  | jump {word : Jump} {rest : List Instr} (hturns : turns (jump word) ⟨[Instr.jump word], false⟩) :
      Rewrites turns decides (Instr.jump word :: rest) ⟨[Instr.jump word], !rest.isEmpty⟩

variable {turns : Instr → Passed (List Instr) → Prop} {decides : Reg → Value → Prop} {code : List Instr}
  {p : Passed (List Instr)}

/-- Folding rewrites code. -/
theorem foldAll_rewrites (types : Array Ty) (known : Constants) (code : List Instr) :
    Rewrites (fun i p => p = ⟨[(i.foldHead types known).result], (i.foldHead types known).found⟩) (fun _ _ => False)
      code (foldAll types known code) := by
  induction code using code_induction with
  | nil => exact .nil
  | leaf i rest hleaf ih =>
    rw [foldAll, fold_leaf hleaf]
    exact .leaf hleaf rfl ih
  | branch c t e rest iht ihe ih => exact .branch iht ihe ih
  | loop k t c b s rest iht ihb ihs ih => exact .loop iht ihb ihs ih

/-- Resolving branches rewrites code. -/
theorem resolveAll_rewrites (known : Constants) (code : List Instr) :
    Rewrites (fun i p => p = ⟨[i], false⟩) (fun c v => known.lookup c = some v) code (resolveAll known code) := by
  induction code using code_induction with
  | nil => exact .nil
  | leaf i rest hleaf ih =>
    have hresolve : i.resolve known = ⟨[i], false⟩ := by cases i <;> first | rfl | simp [bodies] at hleaf
    rw [resolveAll, hresolve]
    exact .leaf hleaf rfl ih
  | branch c t e rest iht ihe ih =>
    rw [resolveAll, resolve]
    cases hc : known.lookup c with
    | none => exact .branch iht ihe ih
    | some v => exact .taken hc iht ihe ih
  | loop k t c b s rest iht ihb ihs ih => exact .loop iht ihb ihs ih

/-- Dropping what follows jumps rewrites code. -/
theorem pruneAll_rewrites (code : List Instr) :
    Rewrites (fun i p => p = ⟨[i], false⟩) (fun _ _ => False) code (pruneAll code) := by
  induction code using code_induction with
  | nil => exact .nil
  | leaf i rest hleaf ih =>
    have hprune : i.prune = ⟨i, false⟩ := by cases i <;> first | rfl | simp [bodies] at hleaf
    rw [pruneAll, hprune]
    split
    · next hjump =>
      obtain ⟨word, rfl⟩ : ∃ word, i = jump word := by cases i <;> simp_all [isJump]
      exact .jump rfl
    · exact .leaf hleaf rfl ih
  | branch c t e rest iht ihe ih => exact .branch iht ihe ih
  | loop k t c b s rest iht ihb ihs ih => exact .loop iht ihb ihs ih

/-- Dropping dead instructions rewrites code. -/
theorem sweepAll_rewrites (used : Reg → Bool) (code : List Instr) :
    Rewrites (fun i p => p = if i.isLive used then ⟨[i], false⟩ else ⟨[], true⟩) (fun _ _ => False) code
      (sweepAll used code) := by
  induction code using code_induction with
  | nil => exact .nil
  | leaf i rest hleaf ih =>
    have hsweep : i.sweep used = ⟨i, false⟩ := by cases i <;> first | rfl | simp [bodies] at hleaf
    rw [sweepAll, hsweep]
    split
    · next hlive => exact .leaf hleaf (if_pos hlive).symm ih
    · next hdead => exact .leaf hleaf (if_neg hdead).symm ih
  | branch c t e rest iht ihe ih => exact .branch iht ihe ih
  | loop k t c b s rest iht ihb ihs ih => exact .loop iht ihb ihs ih

/-- What any pass may put in place of an instruction without bodies: nothing, the instruction itself, or the constant that
it is known to give. -/
inductive Turn (types : Array Ty) (known : Constants) (i : Instr) : Passed (List Instr) → Prop
  | drop : Turn types known i ⟨[], true⟩
  | keep : Turn types known i ⟨[i], false⟩
  | fold {d : Reg} {v : Value} (hd : i.dst? = some d) (hv : i.evaluate? types known = some v) :
      Turn types known i ⟨[const d v], true⟩

/-- What any pass makes of code. -/
abbrev Thins (types : Array Ty) (known : Constants) : List Instr → Passed (List Instr) → Prop :=
  Rewrites (Turn types known) fun _ _ => True

/-- Code as a pass makes it is code as any pass may make it. -/
theorem Rewrites.thins (h : Rewrites turns decides code p) (hturns : ∀ i p, turns i p → Turn types known i p) :
    Thins types known code p := by
  induction h with
  | nil => exact .nil
  | leaf hleaf hi _ ih => exact .leaf hleaf (hturns _ _ hi) ih
  | branch _ _ _ iht ihe ih => exact .branch iht ihe ih
  | taken _ _ _ _ iht ihe ih => exact .taken trivial iht ihe ih
  | loop _ _ _ _ iht ihb ihs ih => exact .loop iht ihb ihs ih
  | jump _ => exact .jump .keep

theorem Thins.refl (code : List Instr) : Thins types known code ⟨code, false⟩ := by
  induction code using code_induction with
  | nil => exact .nil
  | leaf i rest hleaf ih => exact .leaf hleaf .keep ih
  | branch c t e rest iht ihe ih => exact .branch iht ihe ih
  | loop k t c b s rest iht ihb ihs ih => exact .loop iht ihb ihs ih

/-- Nothing after a jump is run. -/
theorem tracedAll_jump (word : Jump) (rest : List Instr) :
    tracedAll types fuel (jump word :: rest) = tracedAll types fuel [jump word] := by
  simp [tracedAll, traced, Traced.bind, Traced.one, run]

/-- Rewritten code follows the code it was made from, under a tie that shows the registers it reads, if what takes the
place of each instruction follows it and decided conditions are as decided. -/
theorem Rewrites.follows {T : Tie} {U : Reg → Prop} (h : Rewrites turns decides code p)
    (hsees : ∀ {W m W' m'}, T W m W' m' → ∀ r, U r → r ∈ W → r ∈ W' ∧ m'.regs[r]? = m.regs[r]?)
    (hvisible : ∀ {W m W' m'}, T W m W' m' → m.state = m'.state ∧ m.calls = m'.calls)
    (hdecides : ∀ {W m W' m'}, T W m W' m' → ∀ c v, decides c v → c ∈ W → m.regs[c]? = some v)
    (hparts : ∀ i ∈ partsAll code, (∀ r ∈ i.uses, U r) ∧ (i.bodies = [] → ∀ p, turns i p →
      Follows T (i.traced types fuel) (tracedAll types fuel p.result))) :
    Follows T (tracedAll types fuel code) (tracedAll types fuel p.result) := by
  induction h with
  | nil => exact Follows.pure _
  | leaf hleaf hturns _ ih =>
    simp only [partsAll, parts_leaf hleaf, List.singleton_append, List.forall_mem_cons] at hparts
    exact Follows.cons (hparts.1.2 hleaf _ hturns) (ih hparts.2)
  | @branch c t e rest t' e' rest' _ _ _ iht ihe ih =>
    simp only [partsAll, parts, List.forall_mem_append, List.cons_append, List.forall_mem_cons] at hparts
    have hbranch : Follows T ((Instr.branch c t e).traced types fuel)
        (tracedAll types fuel [Instr.branch c t'.result e'.result]) := by
      rw [tracedAll_singleton]
      refine Follows.bind (Follows.one rfl rfl rfl rfl (fun hT r hr => hsees hT r (hparts.1.1 r hr)) fun hT hregs => ?_)
        fun taken => ?_
      · rw [hregs c (by simp [uses])]
        split
        · exact .done _ hT
        · exact .failed _ (hvisible hT).1 (hvisible hT).2
      · cases taken
        · exact ihe hparts.2.1.2
        · exact iht hparts.2.1.1
    exact Follows.cons hbranch (ih hparts.2.2)
  | @taken c v t e rest t' e' rest' hc _ _ _ iht ihe ih =>
    simp only [partsAll, parts, List.forall_mem_append, List.cons_append, List.forall_mem_cons] at hparts
    refine Follows.cons ?_ (ih hparts.2.2)
    -- the run reads the condition, so it has been written and is as decided
    intro W m W' m' hT hreads
    simp only [traced, Traced.bind, Traced.one, ReadsWritten, uses, dst?, Option.toList, List.nil_append,
      List.singleton_append, List.mem_singleton, forall_eq, writtenAfter] at hreads ⊢
    simp only [hdecides hT c v hc hreads.1] at hreads ⊢
    cases hv : v.truthy with
    | true =>
      simp only [hv, if_true] at hreads ⊢
      exact iht hparts.2.1.1 W m W' m' hT hreads.2
    | false =>
      simp only [hv] at hreads ⊢
      exact ihe hparts.2.1.2 W m W' m' hT hreads.2
  | @loop k c t b s rest t' b' s' rest' _ _ _ _ iht ihb ihs ih =>
    simp only [partsAll, parts, List.forall_mem_append, List.cons_append, List.forall_mem_cons] at hparts
    have hloop : Follows T ((Instr.loop k t c b s).traced types fuel) (tracedAll types fuel
        [Instr.loop k t'.result c b'.result s'.result]) := by
      rw [tracedAll_singleton]
      exact Follows.loop (Follows.test (iht hparts.2.1.1.1) rfl rfl rfl rfl (fun hT r hr => hsees hT r (hparts.1.1 r hr))
        hvisible) (ihb hparts.2.1.1.2) (ihs hparts.2.1.2) fuel _
    exact Follows.cons hloop (ih hparts.2.2)
  | @jump word rest hturns =>
    rw [tracedAll_jump]
    exact Follows.cons ((hparts (.jump word) (by simp [partsAll, parts])).2 rfl _ hturns) (Follows.pure _)

/-- An instruction without bodies follows itself where the machine holds what is known. -/
theorem follows_held {i : Instr} (hleaf : i.bodies = []) (hi : i.Respects known) :
    Follows (Held known) (i.traced types fuel) (tracedAll types fuel [i]) := by
  rw [tracedAll_singleton, traced_leaf hleaf]
  exact Held.follows hleaf hi rfl (fun _ h => h) fun _ _ => rfl

/-- Rewritten code follows the code it was made from where the machine holds what is known. -/
theorem Rewrites.follows_held (h : Rewrites turns decides code p)
    (hdecides : ∀ c v, decides c v → known.lookup c = some v)
    (hparts : ∀ i ∈ partsAll code, i.bodies = [] → ∀ p, turns i p →
      Follows (Held known) (i.traced types fuel) (tracedAll types fuel p.result)) :
    Follows (Held known) (tracedAll types fuel code) (tracedAll types fuel p.result) := by
  refine h.follows (U := fun _ => True) (fun hT r _ hr => hT.sees r hr) (fun hT => ?_) (fun hT c v hc hr => ?_)
    fun i hi => ⟨fun _ _ => trivial, hparts i hi⟩
  · obtain ⟨rfl, rfl, -⟩ := hT
    exact ⟨rfl, rfl⟩
  · exact hT.2.2 c hr v (hdecides c v hc)

/-- Folded code follows the code it was made from. -/
theorem foldAll_follows (h : ∀ i ∈ partsAll code, i.Respects known) :
    Follows (Held known) (tracedAll types fuel code) (tracedAll types fuel (foldAll types known code).result) := by
  refine (foldAll_rewrites types known code).follows_held (fun _ _ h => h.elim) ?_
  rintro i hi hleaf _ rfl
  rcases foldHead_cases types known i with heq | ⟨d, v, hd, hv, heq⟩
  · rw [heq]
    exact Instr.follows_held hleaf (h i hi)
  · rw [heq, tracedAll_singleton, traced_leaf hleaf, traced_leaf (i := const d v) rfl]
    exact Held.follows hleaf (h i hi) hd.symm (by simp [uses]) fun m hm => (run_of_evaluate? hv hd hm).symm

/-- Code with branches on constants resolved follows the code it was made from. -/
theorem resolveAll_follows (h : ∀ i ∈ partsAll code, i.Respects known) :
    Follows (Held known) (tracedAll types fuel code) (tracedAll types fuel (resolveAll known code).result) := by
  refine (resolveAll_rewrites known code).follows_held (fun _ _ h => h) ?_
  rintro i hi hleaf _ rfl
  exact Instr.follows_held hleaf (h i hi)

/-- Code without what follows its jumps follows the code it was made from. -/
theorem pruneAll_follows (code : List Instr) :
    Follows (Held []) (tracedAll types fuel code) (tracedAll types fuel (pruneAll code).result) := by
  refine (pruneAll_rewrites code).follows_held (fun _ _ h => h.elim) ?_
  rintro i _ hleaf _ rfl
  exact Instr.follows_held hleaf (by simp [Respects])

end Instr

/-- Two machines that are the same in the registers that are used, which are written on the right if
they are on the left. -/
def Live (types : Array Ty) (used : Reg → Bool) : Tie := fun W m W' m' =>
  m.SameOn (fun r => used r) m' ∧ (∀ r ∈ W, used r → r ∈ W') ∧ m.regs.size = types.size

namespace Live

variable {types : Array Ty} {fuel : Nat} {used : Reg → Bool}

/-- An instruction without bodies that reads used registers follows itself. -/
theorem leaf {i : Instr} (hleaf : i.bodies = []) (huses : ∀ r ∈ i.uses, used r) :
    Follows (Live types used) (i.traced types fuel) (Instr.tracedAll types fuel [i]) := by
  rw [Instr.tracedAll_singleton, Instr.traced_leaf hleaf]
  rintro W m W' m' ⟨hsame, hwritten, hsize⟩ hreads
  simp only [Traced.one, ReadsWritten, writtenAfter, and_true] at hreads ⊢
  refine ⟨fun r hr => hwritten r (hreads r hr) (huses r hr), ?_⟩
  have heffect : (i.run types fuel m).Post (i.Effect m) := Instr.run_effect hleaf
  have hagree : (i.run types fuel m).Agree _ (i.run types fuel m') := Instr.run_sameOn hleaf hsame huses
  generalize i.run types fuel m = o at hagree heffect ⊢
  generalize i.run types fuel m' = o' at hagree ⊢
  cases hagree with
  | done flow hsame' =>
    refine .done flow ⟨⟨hsame'.state, hsame'.calls, hsame'.size, fun r hr => hsame'.regs r (.inl hr)⟩, ?_,
      heffect.keeps.1.trans hsize⟩
    intro r hr hused
    rcases List.mem_append.mp hr with hr | hr
    · exact List.mem_append_left _ hr
    · exact List.mem_append_right _ (hwritten r hr hused)
  | failed fault hstate hcalls => exact .failed fault hstate hcalls
  | exhausted => exact .exhausted

/-- An instruction without effects that writes a register nobody uses may be left out. -/
theorem drop {i : Instr} (hdead : i.isLive used = false)
    (hregs : ∀ r ∈ i.dst?.toList ++ i.uses, r < types.size) :
    Follows (Live types used) (i.traced types fuel) (Instr.tracedAll types fuel []) := by
  obtain ⟨hpure, hunused⟩ : i.hasEffects = false ∧ (i.dst?.map used).getD false = false := by
    simpa [Instr.isLive] using hdead
  have hleaf : i.bodies = [] := by cases i <;> simp_all [Instr.hasEffects, Instr.bodies]
  rw [Instr.traced_leaf hleaf]
  rintro W m W' m' ⟨hsame, hwritten, hsize⟩ -
  obtain ⟨d, v, hd, hrun⟩ := Instr.run_pure (m := m) types fuel hpure (by simpa [hsize] using hregs)
  have hd' : used d = false := by simpa [hd] using hunused
  simp only [Traced.one, Instr.tracedAll, Traced.pure, ReadsWritten, writtenAfter, hrun, hd, true_and]
  refine .done _ ⟨⟨hsame.state, hsame.calls, by simpa using hsame.size, fun r hr => ?_⟩, ?_, by simpa using hsize⟩
  · have hne : d ≠ r := by
      rintro rfl
      simp [hd'] at hr
    simpa [hne] using hsame.regs r hr
  · intro r hr hused
    have hne : r ≠ d := by
      rintro rfl
      simp [hd'] at hused
    exact hwritten r (by simpa [hne] using hr) hused

end Live

namespace Instr

variable {types : Array Ty} {fuel : Nat} {used : Reg → Bool}

/-- Code without its dead instructions follows the code it was made from. -/
theorem sweepAll_follows {slots : Nat} {inLoop : Bool} {code : List Instr}
    (hcheck : checkAll ⟨types, slots⟩ inLoop code = .ok ())
    (huses : ∀ i ∈ partsAll code, ∀ r ∈ i.uses, used r) :
    Follows (Live types used) (tracedAll types fuel code) (tracedAll types fuel (sweepAll used code).result) := by
  refine (sweepAll_rewrites used code).follows (U := fun r => used r)
    (fun hT r hr hW => ⟨hT.2.1 r hW hr, hT.1.regs r hr⟩) (fun hT => ⟨hT.1.state, hT.1.calls⟩)
    (fun _ _ _ h => h.elim) fun i hi => ⟨huses i hi, ?_⟩
  rintro hleaf _ rfl
  split
  · exact Live.leaf hleaf (huses i hi)
  · next hdead => exact Live.drop (by simpa using hdead) (bounded_of_checkAll hcheck i hi).regs

end Instr

/-- What a pass makes of code: code with the same target, registers and slots. -/
structure Passed.Thinned (p : Passed Code) (c : Code) : Prop where
  target : p.result.target = c.target
  regs : p.result.regs = c.regs
  slots : p.result.slots = c.slots
  body : Instr.Thins c.regs c.constants c.body ⟨p.result.body, p.found⟩

namespace Code

/-- Constant folding is a pass. -/
theorem foldConstants_thinned (c : Code) : c.foldConstants.Thinned c := by
  unfold foldConstants
  split
  · exact ⟨rfl, rfl, rfl, .refl _⟩
  · refine ⟨rfl, rfl, rfl, (Instr.foldAll_rewrites _ _ _).thins ?_⟩
    rintro i _ rfl
    rcases Instr.foldHead_cases c.regs c.constants i with heq | ⟨d, v, hd, hv, heq⟩
    · rw [heq]
      exact .keep
    · rw [heq]
      exact .fold hd hv

/-- Dropping dead instructions is a pass. -/
theorem removeDead_thinned (c : Code) : c.removeDead.Thinned c := by
  refine ⟨rfl, rfl, rfl, (Instr.sweepAll_rewrites _ _).thins ?_⟩
  rintro i _ rfl
  split
  · exact .keep
  · exact .drop

theorem resolveBranches_thinned (c : Code) : c.resolveBranches.Thinned c :=
  ⟨rfl, rfl, rfl, (Instr.resolveAll_rewrites _ _).thins fun _ _ h => h ▸ .keep⟩

theorem removeUnreachable_thinned (c : Code) : c.removeUnreachable.Thinned c :=
  ⟨rfl, rfl, rfl, (Instr.pruneAll_rewrites _).thins fun _ _ h => h ▸ .keep⟩

/-- What holds of the four passes holds of those of every level. -/
theorem forall_mem_passes {Q : (Code → Passed Code) → Prop} (hfold : Q foldConstants) (hresolve : Q resolveBranches)
    (hprune : Q removeUnreachable) (hsweep : Q removeDead) (level : OptLevel) : ∀ pass ∈ passes level, Q pass := by
  cases level <;> simp [passes, hfold, hresolve, hprune, hsweep]

/-- What is listed as a pass is one. -/
theorem thinned_of_mem_passes {level : OptLevel} : ∀ pass ∈ passes level, ∀ c, (pass c).Thinned c :=
  forall_mem_passes foldConstants_thinned resolveBranches_thinned removeUnreachable_thinned removeDead_thinned level

/-- What every pass of a level keeps, optimisation keeps. -/
theorem optimize_induction {P : Code → Prop} {level : OptLevel}
    (hpass : ∀ pass ∈ passes level, ∀ c, P c → P (pass c).result) {c : Code} (h : P c) : P (c.optimize level) := by
  have hround {c : Code} (h : P c) : P (c.optimizeOnce level).result := by
    unfold optimizeOnce
    generalize passes level = ps at hpass ⊢
    induction ps generalizing c with
    | nil => exact h
    | cons pass rest ih =>
      rw [List.forall_mem_cons] at hpass
      exact ih (hpass.1 c h) hpass.2
  unfold optimize
  generalize c.weight + 1 = fuel
  induction fuel generalizing c with
  | zero => exact h
  | succ fuel ih =>
    rw [optimizeWithin]
    split
    · exact ih (hround h)
    · exact hround h

end Code

end Elementwise
