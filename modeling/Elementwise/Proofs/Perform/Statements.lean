import Elementwise.Proofs.Perform.Expressions

/-!
# Generated statements perform what they mean

The code of statements, run where the registers of locals hold what their cells hold, takes the course of
the statements, with the same fuel. Every declaration allocates the register of its cell, so the layout is
what the declarations of a program add to it, one after another.
-/

namespace Elementwise

open Builder

/-- How the end of code matches a course. -/
inductive Accords (L : Layout) (size : Nat) : Outcome Flow → Course → Prop
  | done {flow : Flow} {s : Store} {m : Machine} (hsize : m.regs.size = size) (hmirrors : Mirrors L s m) :
      Accords L size (.done flow m) (.done flow s)
  | fault {reason : Fault} {s : Store} {m : Machine} (hmirrors : Mirrors L s m) :
      Accords L size (.failed reason m) (.fault reason s)
  | exhausted : Accords L size .exhausted .exhausted

/-- How the end of the test of a loop matches an action. -/
inductive Decides (L : Layout) (size : Nat) : Outcome (Option Bool) → Result Bool → Prop
  | value {again : Bool} {s : Store} {m : Machine} (hsize : m.regs.size = size) (hmirrors : Mirrors L s m) :
      Decides L size (.done (some again) m) (.value again s)
  | fault {reason : Fault} {s : Store} {m : Machine} (hmirrors : Mirrors L s m) :
      Decides L size (.failed reason m) (.fault reason s)

/-- What follows the step of a loop matches if the step and the passes after it do. -/
theorem Accords.goesOn {L : Layout} {size : Nat} {step again : Machine → Outcome Flow} {step' again' : Store → Course}
    (hstep : ∀ m s, m.regs.size = size → Mirrors L s m → Accords L size (step m) (step' s))
    (hagain : ∀ m s, m.regs.size = size → Mirrors L s m → Accords L size (again m) (again' s))
    {m : Machine} {s : Store} (hsize : m.regs.size = size) (hmirrors : Mirrors L s m) :
    Accords L size
      (match step m with
        | .exhausted => .exhausted
        | .failed reason m => .failed reason m
        | .done (.jump .return) m => .done (.jump .return) m
        | .done _ m => again m)
      (match step' s with
        | .done (.jump .return) s => .done (.jump .return) s
        | .done _ s => again' s
        | other => other) := by
  have hrun := hstep m s hsize hmirrors
  generalize step m = out at hrun
  generalize step' s = course at hrun
  cases hrun with
  | fault hmirrors => exact .fault hmirrors
  | exhausted => exact .exhausted
  | @done flow s₁ m₁ hsize₁ hmirrors₁ =>
    rcases flow with _ | _ | _ | _
    · exact hagain m₁ s₁ hsize₁ hmirrors₁
    · exact .done hsize₁ hmirrors₁
    · exact hagain m₁ s₁ hsize₁ hmirrors₁
    · exact hagain m₁ s₁ hsize₁ hmirrors₁

/-- The passes of a loop match if its parts do. -/
theorem Accords.loop {L : Layout} {size : Nat} {test : Machine → Outcome (Option Bool)}
    {body step : Machine → Outcome Flow} {x : Act Bool} {body' step' : Store → Course}
    (htest : ∀ m s, m.regs.size = size → Mirrors L s m → Decides L size (test m) (x s))
    (hbody : ∀ m s, m.regs.size = size → Mirrors L s m → Accords L size (body m) (body' s))
    (hstep : ∀ m s, m.regs.size = size → Mirrors L s m → Accords L size (step m) (step' s))
    (fuel : Nat) (first : Bool) {m : Machine} {s : Store} (hsize : m.regs.size = size) (hmirrors : Mirrors L s m) :
    Accords L size (runLoop test body step fuel first m) (Perform.passes x body' step' fuel first s) := by
  induction fuel generalizing first m s with
  | zero => exact .exhausted
  | succ fuel ih =>
    have hfirst : Decides L size (if first then .done (some true) m else test m) ((if first then pure true else x : Act Bool) s) := by
      cases first with
      | true => exact .value hsize hmirrors
      | false => exact htest m s hsize hmirrors
    rw [runLoop, Perform.passes]
    generalize (if first then Outcome.done (some true) m else test m) = out at hfirst
    generalize (if first then pure true else x : Act Bool) s = result at hfirst
    cases hfirst with
    | fault hmirrors => exact .fault hmirrors
    | @value again s₁ m₁ hsize₁ hmirrors₁ =>
      cases again with
      | false => exact .done hsize₁ hmirrors₁
      | true =>
        have hrun := hbody m₁ s₁ hsize₁ hmirrors₁
        simp only [Result.andThen, if_true]
        generalize body m₁ = out at hrun
        generalize body' s₁ = course at hrun
        cases hrun with
        | fault hmirrors => exact .fault hmirrors
        | exhausted => exact .exhausted
        | @done flow s₂ m₂ hsize₂ hmirrors₂ =>
          rcases flow with _ | _ | _ | _
          · exact goesOn hstep (fun _ _ => ih false) hsize₂ hmirrors₂
          · exact .done hsize₂ hmirrors₂
          · exact .done hsize₂ hmirrors₂
          · exact goesOn hstep (fun _ _ => ih false) hsize₂ hmirrors₂

/-- The code that was added between two builders takes a course. -/
def Takes (types : Array Ty) (fuel : Nat) (L : Layout) (b b' : Builder) (m : Machine) (c : Course) : Prop :=
  ∀ code, b.Adds code b' → KeepsTypes b'.regs types → m.regs.size = types.size →
    Accords L types.size (Instr.runAll types fuel code m) c

namespace Takes

variable {types : Array Ty} {fuel n : Nat} {L : Layout} {b b₁ b₂ : Builder} {m : Machine} {s : Store} {α : Type}

variable {c : Course}

theorem nil (hmirrors : Mirrors L s m) : Takes types fuel L b b m (.done .next s) := by
  intro code hadds _ hsize
  rw [hadds.unique (.refl b)]
  exact .done hsize hmirrors

/-- Code after registers were made. -/
theorem skip (hadds : b.Adds [] b₁) (hg : b₁.Grows b₂) (h : Takes types fuel L b₁ b₂ m c) :
    Takes types fuel L b b₂ m c := by
  intro code hcode htypes hsize
  obtain ⟨code₁, hadds₁⟩ := hg
  rw [hcode.unique (hadds.trans hadds₁), List.nil_append]
  exact h code₁ hadds₁ htypes hsize

theorem andThen {k : Store → Course} (hg : b.Grows b₁) (hg' : b₁.Grows b₂) (h : Takes types fuel L b b₁ m c)
    (hk : ∀ s₁ m₁, Mirrors L s₁ m₁ → Takes types fuel L b₁ b₂ m₁ (k s₁)) : Takes types fuel L b b₂ m (c.andThen k) := by
  intro code hadds htypes hsize
  obtain ⟨code₁, code₂, rfl, hadds₁, hadds₂, htypes₁⟩ := hadds.split hg hg' htypes
  rw [Instr.runAll_append]
  have h₁ := h code₁ hadds₁ htypes₁ hsize
  generalize Instr.runAll types fuel code₁ m = out at h₁
  cases h₁ with
  | fault hmirrors => exact .fault hmirrors
  | exhausted => exact .exhausted
  | @done flow s₁ m₁ hsize₁ hmirrors₁ =>
    cases flow with
    | next => exact hk s₁ m₁ hmirrors₁ code₂ hadds₂ htypes hsize₁
    | jump word => exact .done hsize₁ hmirrors₁

/-- Code after code that performs an action. -/
theorem after {x : Act α} {post : α → Machine → Prop} {k : α → Store → Course} (hg : b.Grows b₁) (hg' : b₁.Grows b₂)
    (h : Performs types fuel L n b b₁ m s x post)
    (hk : ∀ a s₁ m₁, Mirrors L s₁ m₁ → post a m₁ → Takes types fuel L b₁ b₂ m₁ (k a s₁)) :
    Takes types fuel L b b₂ m ((x s).andThen k) := by
  intro code hadds htypes hsize
  obtain ⟨code₁, code₂, rfl, hadds₁, hadds₂, htypes₁⟩ := hadds.split hg hg' htypes
  rw [Instr.runAll_append]
  have h₁ := h code₁ hadds₁ htypes₁ hsize
  generalize Instr.runAll types fuel code₁ m = out at h₁
  generalize x s = result at h₁
  cases h₁ with
  | fault hmirrors => exact .fault hmirrors
  | value hkept hmirrors₁ hpost => exact hk _ _ _ hmirrors₁ hpost code₂ hadds₂ htypes (hkept.size.trans hsize)

/-- A block of code takes the course that the code in it takes. -/
theorem block {body : List Instr} (hg : (beginBlock b).2.Grows b₁) (hend : endBlock b₁ = (body, b₂))
    (h : Takes types fuel L (beginBlock b).2 b₁ m c) (htypes : KeepsTypes b₁.regs types)
    (hsize : m.regs.size = types.size) : Accords L types.size (Instr.runAll types fuel body m) c :=
  h body (hg.block hend).1 htypes hsize

end Takes

namespace Layout

variable {L K ext ext₁ ext₂ : Layout} {n n₁ n₂ : Nat} {types types₁ types₂ : Array Ty}

/-- The cells of declarations that made their registers from a bound on, in order. -/
structure Spans (ext : Layout) (n : Nat) (types : Array Ty) : Prop where
  made : ∀ o ∈ ext, n ≤ o.reg ∧ types[o.reg]? = some o.ty
  sorted : ext.Pairwise fun o o' => o.reg < o'.reg

theorem Spans.nil : Spans [] n types := ⟨nofun, .nil⟩

theorem Spans.bound (h : ext.Spans n types) {o : Operand} (ho : o ∈ ext) : o.reg < types.size :=
  (Array.getElem?_eq_some_iff.mp (h.made o ho).2).1

/-- Different declarations made different registers. -/
theorem Spans.distinct (h : ext.Spans n types) : ext.Distinct := by
  have hlt {i j : Nat} {o o' : Operand} (hi : ext[i]? = some o) (hj : ext[j]? = some o') (hij : i < j) : o.reg < o'.reg := by
    obtain ⟨hilt, rfl⟩ := List.getElem?_eq_some_iff.mp hi
    obtain ⟨hjlt, rfl⟩ := List.getElem?_eq_some_iff.mp hj
    exact List.pairwise_iff_getElem.mp h.sorted i j hilt hjlt hij
  intro i j o o' hi hj heq
  rcases Nat.lt_trichotomy i j with hij | hij | hij
  · exact absurd heq (Nat.ne_of_lt (hlt hi hj hij))
  · exact hij
  · exact absurd heq.symm (Nat.ne_of_lt (hlt hj hi hij))

theorem Spans.mono (h : ext.Spans n₁ types₁) (hle : n ≤ n₁) (htypes : KeepsTypes types₁ types) : ext.Spans n types :=
  ⟨fun o ho => ⟨Nat.le_trans hle (h.made o ho).1, htypes _ _ (h.made o ho).2⟩, h.sorted⟩

theorem Spans.append (h₁ : ext₁.Spans n types₁) (h₂ : ext₂.Spans types₁.size types₂) (hle : n ≤ types₁.size)
    (htypes : KeepsTypes types₁ types₂) : Spans (ext₁ ++ ext₂) n types₂ := by
  have hlow := h₁.mono (Nat.le_refl n) htypes
  have hhigh := h₂.mono hle fun _ _ h => h
  refine ⟨fun o ho => (List.mem_append.mp ho).elim (hlow.made o) (hhigh.made o), ?_⟩
  refine List.pairwise_append.mpr ⟨h₁.sorted, h₂.sorted, fun o ho o' ho' => ?_⟩
  exact Nat.lt_of_lt_of_le (h₁.bound ho) (h₂.made o' ho').1

/-- The layout of a program, at declarations that made their registers up to a bound: the cells before them,
their own, and those of the declarations after them. -/
structure Lays (L K ext : Layout) (n : Nat) : Prop where
  distinct : L.Distinct
  parts : ∃ rest, L = K ++ ext ++ rest ∧ ∀ o ∈ rest, n ≤ o.reg

/-- The first of two stretches. -/
theorem Lays.left (h : L.Lays K (ext₁ ++ ext₂) n₁) (h₂ : ext₂.Spans n types) (hle : n ≤ n₁) : L.Lays K ext₁ n := by
  obtain ⟨rest, rfl, hrest⟩ := h.parts
  refine ⟨h.distinct, ext₂ ++ rest, by simp only [List.append_assoc], fun o ho => ?_⟩
  rcases List.mem_append.mp ho with ho | ho
  · exact (h₂.made o ho).1
  · exact Nat.le_trans hle (hrest o ho)

/-- The second of two stretches. -/
theorem Lays.right (h : L.Lays K (ext₁ ++ ext₂) n) : L.Lays (K ++ ext₁) ext₂ n := by
  obtain ⟨rest, rfl, hrest⟩ := h.parts
  exact ⟨h.distinct, rest, by simp only [List.append_assoc], hrest⟩

/-- No declaration, up to where the next ones begin. -/
theorem Lays.start (h : L.Lays K ext n₁) (hext : ext.Spans n types) (hle : n ≤ n₁) : L.Lays K [] n := by
  have hnone : L.Lays K ([] ++ ext) n₁ := h
  exact hnone.left hext hle

/-- Where nothing is declared, no cell has a register. -/
theorem Lays.clear (h : L.Lays K [] n₁) (hK : ∀ o ∈ K, o.reg < n) : L.Clear n n₁ := by
  obtain ⟨rest, rfl, hrest⟩ := h.parts
  rw [List.append_nil]
  intro o ho
  exact (List.mem_append.mp ho).imp (hK o) (hrest o)

/-- The cells before a stretch, and its own. -/
theorem Lays.getElem? (h : L.Lays K ext n) {i : Nat} {o : Operand} (ho : (K ++ ext)[i]? = some o) : L[i]? = some o := by
  obtain ⟨rest, rfl, -⟩ := h.parts
  rw [List.getElem?_append_left (List.getElem?_eq_some_iff.mp ho).1]
  exact ho

end Layout

/-- The names of a program and the operands in scope are in step: each name has the cell of its operand. -/
structure Tracks (names : Names) (scopes : Scopes) (K : Layout) (types : Array Ty) : Prop where
  cells : names.types = K.map Operand.ty
  scopes : List.Forall₂ (List.Forall₂ fun entry name =>
    name.1 = entry.1 ∧ name.2.2 = entry.2.ty ∧ K[name.2.1]? = some entry.2) scopes names.scopes
  made : ∀ o ∈ K, types[o.reg]? = some o.ty

namespace Tracks

variable {names : Names} {scopes : Scopes} {L K ext : Layout} {n : Nat} {types types' : Array Ty}

section

variable (h : Tracks names scopes K types)

include h

theorem next : names.next = K.length := by
  rw [Names.next, h.cells, List.length_map]

theorem bound : ∀ o ∈ K, o.reg < types.size :=
  fun o ho => (Array.getElem?_eq_some_iff.mp (h.made o ho)).1

theorem mono (htypes : KeepsTypes types types') : Tracks names scopes K types' :=
  ⟨h.cells, h.scopes, fun o ho => htypes _ _ (h.made o ho)⟩

theorem enter : Tracks names.enter ([] :: scopes) K types :=
  ⟨h.cells, .cons .nil h.scopes, h.made⟩

/-- A scope is left. -/
theorem leave : Tracks names.leave scopes.tail K types := by
  refine ⟨h.cells, ?_, h.made⟩
  have hscopes := h.scopes
  unfold Names.leave
  generalize names.scopes = innermost at hscopes
  cases hscopes with
  | nil => exact .nil
  | cons _ hrest => exact hrest

/-- A local is declared. -/
theorem declare {o : Operand} (name : String) (htypes : KeepsTypes types types')
    (ho : types'[o.reg]? = some o.ty) : Tracks (names.declare name o.ty) (scopes.declare name o) (K ++ [o]) types' := by
  have hgrown : List.Forall₂ (List.Forall₂ fun entry name =>
      name.1 = entry.1 ∧ name.2.2 = entry.2.ty ∧ (K ++ [o])[name.2.1]? = some entry.2) scopes names.scopes := by
    refine h.scopes.imp fun _ _ hscope => hscope.imp fun entry name ⟨hname, hty, hcell⟩ => ⟨hname, hty, ?_⟩
    rw [List.getElem?_append_left (List.getElem?_eq_some_iff.mp hcell).1]
    exact hcell
  refine ⟨by simp [Names.declare, h.cells], ?_, fun o' ho' => ?_⟩
  · unfold Names.declare Scopes.declare
    generalize names.scopes = inScope at hgrown
    cases hgrown with
    | nil => exact .nil
    | cons hscope hrest => exact .cons (.cons ⟨rfl, rfl, by simp [h.next]⟩ hscope) hrest
  · rcases List.mem_append.mp ho' with ho' | ho'
    · exact htypes _ _ (h.made o' ho')
    · rw [List.mem_singleton.mp ho']
      exact ho

/-- A name is in scope if it stands for a cell, that of its operand. -/
theorem find? (name : String) :
    Option.Rel (fun o cell => cell.2 = o.ty ∧ K[cell.1]? = some o) (scopes.find? name) (names.find? name) := by
  have hscope {scope : List (String × Operand)} {entries : List (String × Nat × Ty)}
      (h : List.Forall₂ (fun entry name => name.1 = entry.1 ∧ name.2.2 = entry.2.ty ∧ K[name.2.1]? = some entry.2)
        scope entries) :
      Option.Rel (fun o cell => cell.2 = o.ty ∧ K[cell.1]? = some o) (scope.lookup name) (entries.lookup name) := by
    induction h with
    | nil => exact .none
    | cons hentry _ ih =>
      rw [List.lookup_cons, List.lookup_cons, hentry.1]
      split
      · exact .some hentry.2
      · exact ih
  have hscopes := h.scopes
  clear h
  unfold Scopes.find? Names.find?
  generalize names.scopes = entries at hscopes
  induction hscopes with
  | nil => exact .none
  | @cons scope entries _ _ hfirst _ ih =>
    have hlookup := hscope hfirst
    rw [List.findSome?_cons, List.findSome?_cons]
    generalize scope.lookup name = o at hlookup ⊢
    generalize entries.lookup name = cell at hlookup ⊢
    cases hlookup with
    | some hcell => exact .some hcell
    | none => exact ih

end

/-- Each name that is in scope stands for the cell of its operand. -/
theorem agrees {b : Builder} (h : Tracks names scopes K b.regs) (hL : L.Lays K ext n) : names.Agrees L b scopes := by
  intro name o hfind
  have hrel := h.find? name
  rw [hfind] at hrel
  generalize hname : names.find? name = found at hrel
  cases hrel with
  | @some _ cell hcell =>
    obtain ⟨hty, hcell⟩ := hcell
    refine ⟨cell.1, by rw [← hty], hL.getElem? ?_, h.bound o (List.mem_of_getElem? hcell)⟩
    rw [List.getElem?_append_left (List.getElem?_eq_some_iff.mp hcell).1]
    exact hcell

end Tracks

namespace Perform

variable (δ : Discipline) (w : World) (fuel : Nat)

/-- Perform a statement that may be absent. -/
def exec? : Option Term → Names → Store → Course
  | none, _, s => .done .next s
  | some t, names, s => exec δ w fuel t names s

/-- The course of a loop. -/
theorem exec_loop (id : NodeId) (kind : LoopKind) (start test step : Option Term) (body : Term) (names : Names) (s : Store) :
    exec δ w fuel (.node id (.loop kind start test step body)) names s =
      (exec? δ w fuel start names.enter s).andThen (passes (continues δ w (names.enter.after? start) test)
        (exec δ w fuel body (names.enter.after? start))
        (exec? δ w fuel step ((names.enter.after? start).after body)) fuel (kind == LoopKind.doWhile)) := by
  cases start <;> cases step <;> (rw [exec]; rfl)

end Perform

/-- The names after a loop. -/
theorem Names.after_loop (names : Names) (id : NodeId) (kind : LoopKind) (start test step : Option Term) (body : Term) :
    names.after (.node id (.loop kind start test step body)) =
      (((names.enter.after? start).after body).after? step).leave := by
  cases start <;> cases step <;> (rw [Names.after]; rfl)

namespace Generate

variable {ctx : Context} {scopes scopes' : Scopes} {depth : Nat} {phrase : Phrase} {b b' : Builder}
  (hstd : ctx.library = .standard)

/-- The names after statements. -/
def Phrase.names : Phrase → Names → Names
  | .one t, names => names.after t
  | .list ts, names => names.afterAll ts
  | .maybe t, names => names.after? t

/-- The course of statements. -/
def Phrase.course (w : World) (fuel : Nat) : Phrase → Names → Store → Course
  | .one t => Perform.exec .lazy w fuel t
  | .list ts => Perform.execAll .lazy w fuel ts
  | .maybe t => Perform.exec? .lazy w fuel t

/-- An expression declares nothing. -/
theorem Emits.names_after {id : NodeId} {content : Node Term} {o : Operand}
    (h : Emits ctx scopes (.value (.node id content) o) b b') (names : Names) : names.after (.node id content) = names := by
  cases h <;> rfl

/-- An expression as a statement is performed for its effects. -/
theorem Emits.exec_eq {id : NodeId} {content : Node Term} {o : Operand}
    (h : Emits ctx scopes (.value (.node id content) o) b b') (w : World) (fuel : Nat) (names : Names) (s : Store) :
    Perform.exec .lazy w fuel (.node id content) names s =
      (Perform.referent .lazy w names (.node id content) s).andThen fun _ s => .done .next s := by
  cases h <;> rfl

section

include hstd

theorem Tests.grows {test : Option Term} {o : Option Operand} (h : Tests ctx scopes test o b b') : b.Grows b' :=
  (h.places (hstd ▸ Library.standard_placing)).grows

/-- Generating statements only adds to the open block. -/
theorem Issues.grows (h : Issues ctx depth phrase scopes b scopes' b') : b.Grows b' := by
  have hblock {b b₁ b₂ : Builder} {body : List Instr} (hg : (beginBlock b).2.Grows b₁) (hend : endBlock b₁ = (body, b₂)) :
      b.Grows b₂ := ⟨_, (hg.block hend).2.1⟩
  induction h with
  | absent | nil => exact .refl _
  | present _ ih | block _ ih => exact ih
  | cons _ _ ihhead ihtail => exact ihhead.trans ihtail
  | conditional htest htruth _ hthenEnd _ helseEnd hbranch ihthen ihelse =>
    exact ((((htest.grows hstd).trans htruth.grows).trans (hblock ihthen hthenEnd)).trans (hblock ihelse helseEnd)).trans
      (Grows.of_emit hbranch)
  | loop _ htest htestEnd _ hbodyEnd _ hstepEnd hloop ihstart ihbody ihstep =>
    exact (((ihstart.trans (hblock (htest.grows hstd) htestEnd)).trans (hblock ihbody hbodyEnd)).trans
      (hblock ihstep hstepEnd)).trans (Grows.of_emit hloop)
  | jump _ hbuild => exact Grows.of_emit hbuild
  | declareZero _ _ halloc hbuild => exact (Grows.of_eq halloc).trans (Grows.of_emit hbuild)
  | declareValue _ _ hstart hcoerce halloc hbuild =>
    exact (((hstart.grows hstd).trans hcoerce.grows).trans (Grows.of_eq halloc)).trans (Grows.of_eq hbuild)
  | expression h => exact h.grows hstd

variable {types : Array Ty} {fuel : Nat} {L : Layout} {names : Names} {m : Machine} {s : Store}
  (hdistinct : L.Distinct) (hclear : L.Clear b.regs.size b'.regs.size) (hagrees : names.Agrees L b scopes)
  (hmirrors : Mirrors L s m)

include hdistinct hclear hagrees hmirrors

/-- The code of a condition leaves in a register whether it holds. -/
theorem performs_holds {test : Term} {c o : Operand} {b₁ : Builder}
    (hvalue : Emits ctx scopes (.value test c) b b₁) (htruth : Truth c o b₁ b') :
    Performs types fuel L b.regs.size b b' m s (Perform.holds .lazy ctx.world names test)
      fun yes m' => ∃ v : Value, m'.regs[o.reg]? = some v ∧ v.truthy = yes := by
  have hg₁ := hvalue.grows hstd
  have hg₂ := htruth.grows
  refine .bind hg₁ hg₂ (hvalue.performs hstd hdistinct (hclear.below hg₂.size_le) hagrees hmirrors)
    fun h s₁ m₁ _ hmirrors₁ hv => ?_
  exact (htruth.performs hv hmirrors₁ (hclear.above hg₁.size_le)).map fun d m' hd => ⟨d.value, hd.1.value, rfl⟩

/-- The code of the test of a loop decides whether it goes on. -/
theorem Tests.decides {test : Option Term} {o : Option Operand} (h : Tests ctx scopes test o b b')
    {code : List Instr} (hadds : b.Adds code b') (htypes : KeepsTypes b'.regs types)
    (hsize : m.regs.size = types.size) :
    Decides L types.size (runTest (Instr.runAll types fuel code) (o.map Operand.reg) m)
      (Perform.continues .lazy ctx.world names test s) := by
  cases h with
  | always =>
    rw [hadds.unique (.refl b)]
    exact .value hsize hmirrors
  | condition hvalue htruth =>
    have hperforms : Ensues L b.regs.size m _ (Instr.runAll types fuel code m) _ :=
      performs_holds hstd hdistinct hclear hagrees hmirrors hvalue htruth code hadds htypes hsize
    rw [Perform.continues, runTest]
    generalize Instr.runAll types fuel code m = out at hperforms
    generalize Perform.holds .lazy ctx.world names _ s = result at hperforms
    cases hperforms with
    | fault hmirrors => exact .fault hmirrors
    | value hkept hmirrors' hv =>
      obtain ⟨v, hv, rfl⟩ := hv
      simp only [Option.map_some, hv]
      exact .value (hkept.size.trans hsize) hmirrors'

end

/-- Statements that are issued where names and scopes are in step declare cells of their own, and their code
takes their course in every layout that has these cells. -/
def Phrase.Performed (ctx : Context) (phrase : Phrase) (scopes : Scopes) (b : Builder) (scopes' : Scopes) (b' : Builder) :
    Prop :=
  ∀ (names : Names) (K : Layout), Tracks names scopes K b.regs →
    ∃ ext : Layout, ext.Spans b.regs.size b'.regs ∧ Tracks (phrase.names names) scopes' (K ++ ext) b'.regs ∧
      ∀ L : Layout, L.Lays K ext b'.regs.size → ∀ types fuel m s, Mirrors L s m →
        Takes types fuel L b b' m (phrase.course ctx.world fuel names s)

namespace Phrase.Performed

variable {b₃ : Builder} {id : NodeId} {o : Operand} {scopes₁ scopes₂ scopes₃ : Scopes} {u : Unit}

theorem cons {t : Term} {ts : List Term} {b₁ b₂ : Builder} (hg₁ : b₁.Grows b₂) (hg₂ : b₂.Grows b₃)
    (hhead : (one t).Performed ctx scopes₁ b₁ scopes₂ b₂) (htail : (list ts).Performed ctx scopes₂ b₂ scopes₃ b₃) :
    (list (t :: ts)).Performed ctx scopes₁ b₁ scopes₃ b₃ := by
  intro names K htracks
  obtain ⟨ext₁, hspans₁, htracks₁, hruns₁⟩ := hhead names K htracks
  obtain ⟨ext₂, hspans₂, htracks₂, hruns₂⟩ := htail _ _ htracks₁
  refine ⟨ext₁ ++ ext₂, hspans₁.append hspans₂ hg₁.size_le hg₂.types, ?_, fun L hL types fuel m s hmirrors => ?_⟩
  · rw [← List.append_assoc]
    exact htracks₂
  · exact .andThen hg₁ hg₂ (hruns₁ L (hL.left hspans₂ hg₂.size_le) types fuel m s hmirrors)
      fun s₁ m₁ hmirrors₁ => hruns₂ L hL.right types fuel m₁ s₁ hmirrors₁

/-- Statements in a scope of their own. -/
theorem block {statements : List Term} (h : (list statements).Performed ctx ([] :: scopes) b scopes' b') :
    (one (.node id (.block statements))).Performed ctx scopes b scopes'.tail b' := by
  intro names K htracks
  obtain ⟨ext, hspans, htracks', hruns⟩ := h names.enter K htracks.enter
  refine ⟨ext, hspans, htracks'.leave, fun L hL types fuel m s hmirrors => ?_⟩
  exact hruns L hL types fuel m s hmirrors

/-- A jump. -/
theorem jump {word : Jump} (hbuild : Builder.emit (.jump word) b = (u, b')) :
    (one (.node id (.jump word))).Performed ctx scopes b scopes b' := by
  intro names K htracks
  have hadds' := Adds.of_emit hbuild
  refine ⟨[], .nil, ?_, fun L hL types fuel m s hmirrors => ?_⟩
  · rw [List.append_nil]
    exact htracks.mono hadds'.types
  · intro code hadds _ hsize
    rw [hadds.unique hadds', Instr.runAll_singleton]
    exact .done hsize hmirrors

/-- A declaration: the register of its cell is made after the code of what it starts with. -/
theorem declaration {nameId : NodeId} {ty : Ty} {name : String} {start : Option Term} {i : Instr} {b₁ b₂ : Builder}
    (hg : b.Grows b₁) (halloc : Builder.alloc ty b₁ = (o, b₂)) (hbuild : Builder.emit i b₂ = (u, b'))
    (hinitial : ∀ (names : Names) (K L : Layout) types fuel m s, Tracks names scopes K b.regs →
      L.Lays K [] b₁.regs.size → Mirrors L s m →
      Performs types fuel L b.regs.size b b₁ m s (Perform.initial .lazy ctx.world names ty start) fun d m' =>
        i.run types fuel m' = m'.set o.reg d.value) :
    (one (.node id (.declare ty (.node nameId (.localName name)) start))).Performed ctx scopes b
      (scopes.declare name o) b' := by
  intro names K htracks
  obtain ⟨rfl, rfl⟩ := Prod.mk.inj halloc
  have hadds := Adds.alloc b₁ ty
  have hadds' := Adds.of_emit hbuild
  have hmade : b'.regs[b₁.regs.size]? = some ty := hadds'.types _ _ Array.getElem?_push_size
  have hspans : Layout.Spans [⟨b₁.regs.size, ty⟩] b₁.regs.size b'.regs := by
    refine ⟨fun o ho => ?_, List.pairwise_singleton _ _⟩
    rw [List.mem_singleton.mp ho]
    exact ⟨Nat.le_refl _, hmade⟩
  refine ⟨[⟨b₁.regs.size, ty⟩], hspans.mono hg.size_le fun _ _ h => h, ?_, fun L hL types fuel m s hmirrors => ?_⟩
  · exact htracks.declare (o := ⟨b₁.regs.size, ty⟩) name (fun r ty h => hadds'.types r ty (hadds.types r ty (hg.types r ty h))) hmade
  · have hcell : L[names.next]? = some ⟨b₁.regs.size, ty⟩ := hL.getElem? (by simp [htracks.next])
    have hle : b₁.regs.size ≤ b'.regs.size := Nat.le_trans hadds.size_le hadds'.size_le
    refine .after hg ⟨_, hadds.trans hadds'⟩ (hinitial names K L types fuel m s htracks (hL.start hspans hle) hmirrors)
      fun d s₁ m₁ hmirrors₁ hrun => ?_
    have hwrite : Performs types fuel L 0 _ b' m₁ s₁ (Act.change fun s => s.setCell names.next d.value) _ :=
      .writeCell hbuild rfl hrun hcell hmirrors₁ hL.distinct
    exact .skip hadds ⟨_, hadds'⟩ (.after (k := fun _ s => .done .next s) ⟨_, hadds'⟩ (.refl b') hwrite
      fun _ s₂ m₂ hmirrors₂ _ => .nil hmirrors₂)

include hstd

/-- An expression that is performed for its effects. -/
theorem expression {content : Node Term} (h : Emits ctx scopes (.value (.node id content) o) b b') :
    (one (.node id content)).Performed ctx scopes b scopes b' := by
  intro names K htracks
  have hg := h.grows hstd
  refine ⟨[], .nil, ?_, fun L hL types fuel m s hmirrors => ?_⟩
  · rw [List.append_nil, Phrase.names, h.names_after]
    exact htracks.mono hg.types
  · rw [course, h.exec_eq]
    exact .after hg (.refl b') (h.performs hstd hL.distinct (hL.clear htracks.bound) (htracks.agrees hL) hmirrors)
      fun _ s₁ m₁ hmirrors₁ _ => .nil hmirrors₁

/-- A conditional. -/
theorem conditional {test thenBranch elseBranch : Term} {c : Operand}
    {thenBody elseBody : List Instr} {b₁ b₂ b₄ b₅ b₆ b₇ b₈ : Builder}
    (htest : Emits ctx scopes₁ (.value test c) b₁ b₂) (htruth : Truth c o b₂ b₃) (hg₃ : (beginBlock b₃).2.Grows b₄)
    (hthen : (one thenBranch).Performed ctx scopes₁ (beginBlock b₃).2 scopes₂ b₄)
    (hthenEnd : endBlock b₄ = (thenBody, b₅)) (hg₅ : (beginBlock b₅).2.Grows b₆)
    (helse : (one elseBranch).Performed ctx scopes₂ (beginBlock b₅).2 scopes₃ b₆)
    (helseEnd : endBlock b₆ = (elseBody, b₇)) (hbranch : Builder.emit (.branch o.reg thenBody elseBody) b₇ = (u, b₈)) :
    (one (.node id (.conditional test thenBranch elseBranch))).Performed ctx scopes₁ b₁ scopes₃ b₈ := by
  intro names K htracks
  have hg₁ : b₁.Grows b₃ := (htest.grows hstd).trans htruth.grows
  obtain ⟨-, hadds₃, hregs₅⟩ := hg₃.block hthenEnd
  obtain ⟨hadds₅, hregs₈⟩ := hg₅.closed helseEnd hbranch
  obtain ⟨ext₁, hspans₁, htracks₁, hruns₁⟩ := hthen names K (htracks.mono hg₁.types)
  rw [← hregs₅] at hspans₁ htracks₁
  obtain ⟨ext₂, hspans₂, htracks₂, hruns₂⟩ := helse _ _ htracks₁
  rw [← hregs₈] at hspans₂ htracks₂
  have htypes₅ : KeepsTypes b₅.regs b₈.regs := hregs₈ ▸ hg₅.types
  have hspans : (ext₁ ++ ext₂).Spans b₃.regs.size b₈.regs := hspans₁.append hspans₂ hadds₃.size_le htypes₅
  refine ⟨ext₁ ++ ext₂, hspans.mono hg₁.size_le fun _ _ h => h, ?_, fun L hL types fuel m s hmirrors => ?_⟩
  · rw [← List.append_assoc]
    exact htracks₂
  · have hL₃ : L.Lays K [] b₃.regs.size := hL.start hspans (Nat.le_trans hadds₃.size_le htypes₅.size_le)
    have hL₄ : L.Lays K ext₁ b₅.regs.size := hL.left hspans₂ htypes₅.size_le
    rw [hregs₅] at hL₄
    rw [hregs₈] at hL
    refine .after hg₁ ⟨_, hadds₃.trans hadds₅⟩
      (performs_holds hstd hL.distinct (hL₃.clear htracks.bound) (htracks.agrees hL₃) hmirrors htest htruth)
      fun yes s₁ m₁ hmirrors₁ hyes => ?_
    obtain ⟨v, hv, rfl⟩ := hyes
    intro code hadds htypes hsize
    rw [hadds.unique (hadds₃.trans hadds₅), List.nil_append, Instr.runAll_singleton]
    have htypes₄ : KeepsTypes b₄.regs types := fun r ty h => htypes r ty (htypes₅ r ty (hregs₅.symm ▸ h))
    rw [hregs₈] at htypes
    simp only [Instr.run, hv]
    split
    · exact (hruns₁ L hL₄ types fuel m₁ s₁ hmirrors₁).block hg₃ hthenEnd htypes₄ hsize
    · exact (hruns₂ L hL.right types fuel m₁ s₁ hmirrors₁).block hg₅ helseEnd htypes hsize

/-- A loop. -/
theorem loop {kind : LoopKind} {start test step : Option Term} {body : Term}
    {o : Option Operand} {testBody loopBody stepBody : List Instr} {scopes₄ : Scopes}
    {b₁ b₂ b₄ b₅ b₆ b₇ b₈ b₉ : Builder} (hg₁ : b₁.Grows b₂)
    (hstart : (maybe start).Performed ctx ([] :: scopes₁) b₁ scopes₂ b₂)
    (htest : Tests ctx scopes₂ test o (beginBlock b₂).2 b₃) (htestEnd : endBlock b₃ = (testBody, b₄))
    (hg₄ : (beginBlock b₄).2.Grows b₅) (hbody : (one body).Performed ctx scopes₂ (beginBlock b₄).2 scopes₃ b₅)
    (hbodyEnd : endBlock b₅ = (loopBody, b₆)) (hg₆ : (beginBlock b₆).2.Grows b₇)
    (hstep : (maybe step).Performed ctx scopes₃ (beginBlock b₆).2 scopes₄ b₇)
    (hstepEnd : endBlock b₇ = (stepBody, b₈))
    (hloop : Builder.emit (.loop kind testBody (o.map Operand.reg) loopBody stepBody) b₈ = (u, b₉)) :
    (one (.node id (.loop kind start test step body))).Performed ctx scopes₁ b₁ scopes₄.tail b₉ := by
  intro names K htracks
  obtain ⟨htestCode, hadds₂, hregs₄⟩ := (htest.grows hstd).block htestEnd
  obtain ⟨-, hadds₄, hregs₆⟩ := hg₄.block hbodyEnd
  obtain ⟨hadds₆, hregs₉⟩ := hg₆.closed hstepEnd hloop
  have htypes₆ : KeepsTypes b₆.regs b₉.regs := hregs₉ ▸ hg₆.types
  have htypes₄ : KeepsTypes b₄.regs b₉.regs := fun r ty h => htypes₆ r ty (hadds₄.types r ty h)
  have htypes₂ : KeepsTypes b₂.regs b₉.regs := fun r ty h => htypes₄ r ty (hadds₂.types r ty h)
  obtain ⟨ext₁, hspans₁, htracks₁, hruns₁⟩ := hstart names.enter K htracks.enter
  obtain ⟨ext₂, hspans₂, htracks₂, hruns₂⟩ := hbody _ _ (htracks₁.mono hadds₂.types)
  rw [← hregs₆] at hspans₂ htracks₂
  obtain ⟨ext₃, hspans₃, htracks₃, hruns₃⟩ := hstep _ _ htracks₂
  rw [← hregs₉] at hspans₃ htracks₃
  have hspans₂₃ : (ext₂ ++ ext₃).Spans b₄.regs.size b₉.regs := hspans₂.append hspans₃ hadds₄.size_le htypes₆
  have hspans : (ext₁ ++ (ext₂ ++ ext₃)).Spans b₁.regs.size b₉.regs :=
    hspans₁.append (hspans₂₃.mono hadds₂.size_le fun _ _ h => h) hg₁.size_le htypes₂
  refine ⟨ext₁ ++ (ext₂ ++ ext₃), hspans, ?_, fun L hL types fuel m s hmirrors => ?_⟩
  · rw [Phrase.names, Names.after_loop, ← List.append_assoc, ← List.append_assoc]
    exact htracks₃.leave
  · have hL₁ : L.Lays K ext₁ b₂.regs.size := hL.left (hspans₂₃.mono hadds₂.size_le fun _ _ h => h) htypes₂.size_le
    have hL₂ : L.Lays (K ++ ext₁) [] b₄.regs.size := hL.right.start hspans₂₃ htypes₄.size_le
    have hL₃ : L.Lays (K ++ ext₁) ext₂ b₆.regs.size := hL.right.left hspans₃ htypes₆.size_le
    have hL₄ : L.Lays (K ++ ext₁ ++ ext₂) ext₃ b₉.regs.size := hL.right.right
    rw [hregs₄] at hL₂
    rw [hregs₆] at hL₃
    rw [hregs₉] at hL₄
    rw [course, Perform.exec_loop]
    have hadds₉ : b₂.Adds [.loop kind testBody (o.map Operand.reg) loopBody stepBody] b₉ :=
      (hadds₂.trans hadds₄).trans hadds₆
    refine .andThen hg₁ ⟨_, hadds₉⟩ (hruns₁ L hL₁ types fuel m s hmirrors)
      fun s₁ m₁ hmirrors₁ => ?_
    intro code hadds htypes hsize
    rw [hadds.unique hadds₉, Instr.runAll_singleton, Instr.run]
    have htypesTest : KeepsTypes b₃.regs types := fun r ty h => htypes r ty (htypes₄ r ty (hregs₄.symm ▸ h))
    have htypesBody : KeepsTypes b₅.regs types := fun r ty h => htypes r ty (htypes₆ r ty (hregs₆.symm ▸ h))
    have htypesStep : KeepsTypes b₇.regs types := fun r ty h => htypes r ty (hregs₉.symm ▸ h)
    refine Accords.loop (fun m s hsize hmirrors => ?_) (fun m s hsize hmirrors => ?_) (fun m s hsize hmirrors => ?_) fuel _
      hsize hmirrors₁
    · exact htest.decides (b := (beginBlock b₂).2) hstd hL.distinct (hL₂.clear htracks₁.bound) (htracks₁.agrees hL₂)
        hmirrors htestCode htypesTest hsize
    · exact (hruns₂ L hL₃ types fuel m s hmirrors).block hg₄ hbodyEnd htypesBody hsize
    · exact (hruns₃ L hL₄ types fuel m s hmirrors).block hg₆ hstepEnd htypesStep hsize

end Phrase.Performed

include hstd in
/-- The code of statements takes their course. -/
theorem Issues.performed (h : Issues ctx depth phrase scopes b scopes' b') :
    phrase.Performed ctx scopes b scopes' b' := by
  induction h with
  | absent | nil =>
    intro names K htracks
    exact ⟨[], .nil, by rwa [List.append_nil], fun L hL types fuel m s hmirrors => .nil hmirrors⟩
  | present _ ih => exact ih
  | cons hhead htail ihhead ihtail => exact ihhead.cons (hhead.grows hstd) (htail.grows hstd) ihtail
  | block _ ih => exact ih.block
  | conditional htest htruth hthen hthenEnd helse helseEnd hbranch ihthen ihelse =>
    exact .conditional hstd htest htruth (hthen.grows hstd) ihthen hthenEnd (helse.grows hstd) ihelse helseEnd hbranch
  | loop hstart htest htestEnd hbody hbodyEnd hstep hstepEnd hloop ihstart ihbody ihstep =>
    exact .loop hstd (hstart.grows hstd) ihstart htest htestEnd (hbody.grows hstd) ihbody hbodyEnd (hstep.grows hstd) ihstep
      hstepEnd hloop
  | jump _ hbuild => exact .jump hbuild
  | declareZero _ _ halloc hbuild =>
    refine .declaration (.refl _) halloc hbuild fun names K L types fuel m s _ _ hmirrors => ?_
    exact .pure hmirrors rfl
  | @declareValue depth id ty nameId name start v w o u scopes b₁ b₂ b₃ b₄ b₅ _ _ hstart hcoerce halloc hbuild =>
    have hg₁ := hstart.grows hstd
    have hg₂ := hcoerce.grows
    refine .declaration (hg₁.trans hg₂) halloc hbuild fun names K L types fuel m s htracks hL hmirrors => ?_
    have hclear := hL.clear htracks.bound
    refine .bind hg₁ hg₂ (hstart.performs hstd hL.distinct (hclear.below hg₂.size_le) (htracks.agrees hL)
      hmirrors) fun h s₁ m₁ _ hmirrors₁ hv => ?_
    refine .bind hg₂ (.refl b₃) (hcoerce.performs hg₁.size_le hmirrors₁ (hclear.above hg₁.size_le) hv)
      fun h' s₂ m₂ _ hmirrors₂ hw => ?_
    refine (Performs.pure (a := s₂.read h') hmirrors₂ ?_).congr rfl
    simp only [Instr.run, Machine.withReg, (hw.holds hmirrors₂).value]
  | expression h => exact .expression hstd h

end Generate

end Elementwise
