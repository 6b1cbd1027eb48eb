import Elementwise.Proofs.Perform.Targets

/-!
# Performing and evaluating

A program whose expressions change nothing is performed as it is evaluated, with the same fuel. The locals of
the scene are what the cells of the visible names hold; a jump leaves locals of the scopes that it
passes, and the statement that ends these scopes drops them. Only a declaration that is itself a branch of a
conditional would tell the two apart.
-/

namespace Elementwise

open Act (Shows)

namespace Names

/-- The locals that are visible were not lost; inner ones may be in front of them. -/
def Kept (names : Names) (_ : Flow) (σ : Store) (locals : List (String × Datum)) : Prop := names.locals σ <:+ locals

/-- The locals after a statement: those that the names then tell, where control goes on. -/
def Reaches (names names' : Names) : Flow → Store → List (String × Datum) → Prop
  | .next, σ, locals => locals = names'.locals σ
  | .jump _, σ, locals => names.locals σ <:+ locals

variable {names names' : Names} {σ : Store}

theorem locals_congr (h : names.scopes = names'.scopes) (σ : Store) : names.locals σ = names'.locals σ := by
  rw [locals, locals, h]

/-- Locals are added in front. -/
theorem Grown.suffix (h : Grown names names') (σ : Store) : names.locals σ <:+ names'.locals σ := by
  refine List.IsSuffix.map _ ?_
  rcases h.scopes with ⟨hnil, -⟩ | ⟨added, scope, rest, hscopes, hscopes'⟩
  · rw [hnil]
    exact List.nil_suffix
  · rw [hscopes, hscopes', List.flatten_cons, List.flatten_cons, List.append_assoc]
    exact List.suffix_append added _

/-- After a statement the locals that were visible are still there. -/
theorem Reaches.kept (h : Grown names names') {flow : Flow} {locals : List (String × Datum)}
    (hlocals : names.Reaches names' flow σ locals) : names.Kept flow σ locals := by
  cases flow with
  | next => exact (show locals = _ from hlocals) ▸ h.suffix σ
  | jump word => exact hlocals

/-- What is told after a later statement is told after both. -/
theorem Reaches.outer {names₁ : Names} (h : Grown names names₁) {flow : Flow} {locals : List (String × Datum)}
    (hlocals : names₁.Reaches names' flow σ locals) : names.Reaches names' flow σ locals := by
  cases flow with
  | next => exact hlocals
  | jump word => exact (h.suffix σ).trans hlocals

theorem length_locals (names : Names) (σ : Store) : (names.locals σ).length = names.scopes.flatten.length :=
  List.length_map _

/-- A local that is declared holds what its cell is set to; the others hold what they held. -/
theorem Numbered.locals_declare (h : names.Numbered) (hscopes : names.scopes ≠ []) (name : String) (d : Datum) (σ : Store) :
    (names.declare name d.ty).locals (σ.setCell names.next d.value) = (name, d) :: names.locals σ := by
  have hrest : names.locals (σ.setCell names.next d.value) = names.locals σ := by
    refine List.map_congr_left fun e he => ?_
    have hne : e.2.1 ≠ names.next := Nat.ne_of_lt (h.bound e he)
    simp [Store.cell, Store.setCell, hne]
  rw [← hrest]
  unfold locals declare
  cases hcase : names.scopes with
  | nil => exact absurd hcase hscopes
  | cons scope rest => simp [Store.cell, Store.setCell]

end Names

/-- The locals of a scene after its inner scopes end. -/
theorem Scene.leave_of_suffix {names : Names} {σ : Store} {locals : List (String × Datum)} (h : names.locals σ <:+ locals)
    (σ₀ : Store) : Scene.leave ⟨locals, σ.element, σ.calls⟩ (σ₀.scene names).locals.length = σ.scene names := by
  have hlength : (σ₀.scene names).locals.length = (names.locals σ).length :=
    (names.length_locals σ₀).trans (names.length_locals σ).symm
  rw [Scene.leave, hlength, Store.scene, ← List.suffix_iff_eq_drop.mp h]

/-- How a course shows a run: they end in the same way with the same element and the same calls, and the
locals are as `Q` tells. -/
inductive Course.Shows (Q : Flow → Store → List (String × Datum) → Prop) : Course → Run → Prop
  | done {flow : Flow} {σ : Store} {locals : List (String × Datum)} (h : Q flow σ locals) :
      Shows Q (.done flow σ) (.done flow ⟨locals, σ.element, σ.calls⟩)
  | fault {reason : Fault} {σ : Store} {locals : List (String × Datum)} :
      Shows Q (.fault reason σ) (.fault reason ⟨locals, σ.element, σ.calls⟩)
  | stuck : Shows Q .stuck .stuck
  | exhausted : Shows Q .exhausted .exhausted

namespace Course.Shows

variable {Q Q' : Flow → Store → List (String × Datum) → Prop} {c : Course} {r : Run} {names names' : Names} {σ : Store}

theorem mono (h : Course.Shows Q c r) (hQ : ∀ flow σ locals, Q flow σ locals → Q' flow σ locals) : Course.Shows Q' c r := by
  cases h with
  | done h => exact .done (hQ _ _ _ h)
  | fault => exact .fault
  | stuck => exact .stuck
  | exhausted => exact .exhausted

theorem ending?_eq (h : Course.Shows Q c r) : c.ending? = r.ending? := by cases h <;> rfl

theorem next (σ : Store) : Course.Shows (names.Reaches names') (.done .next σ) (.done .next (σ.scene names')) := .done rfl

theorem andThen {k : Store → Course} {k' : Scene → Run} (h : Course.Shows (names.Reaches names') c r)
    (hjump : ∀ word σ locals, names.locals σ <:+ locals → Q (.jump word) σ locals)
    (hk : ∀ σ, Course.Shows Q (k σ) (k' (σ.scene names'))) : Course.Shows Q (c.andThen k) (r.andThen k') := by
  cases h with
  | @done flow σ locals h =>
    cases flow with
    | next =>
      obtain rfl : locals = names'.locals σ := h
      exact hk σ
    | jump word => exact .done (hjump word σ locals h)
  | fault => exact .fault
  | stuck => exact .stuck
  | exhausted => exact .exhausted

/-- A statement after a computation that changes nothing. -/
theorem after {α β : Type} {P : α → β → Prop} {x : Act α} {y : Eval β} {k : α → Store → Course} {k' : β → Scene → Run}
    (hx : Act.Shows σ P x y)
    (hk : ∀ a b calls, P a b → Course.Shows Q (k a { σ with calls }) (k' b { σ.scene names with calls })) :
    Course.Shows Q ((x σ).andThen k) ((σ.scene names).after y k') := by
  have hfirst : Result.Shows σ P (x σ) (y (σ.scene names).calls) := hx σ.calls
  unfold Scene.after
  generalize x σ = result at hfirst
  generalize y (σ.scene names).calls = answer at hfirst
  cases hfirst with
  | value h => exact hk _ _ _ h
  | fault => exact .fault
  | stuck => exact .stuck

/-- The end of a scope drops the locals that were declared in it. -/
theorem leave (h : Course.Shows names.Kept c r) (σ₀ : Store) (hscopes : names.scopes = names'.scopes) :
    Course.Shows (names.Reaches names') c (r.leave (σ₀.scene names).locals.length) := by
  cases h with
  | @done flow σ locals h =>
    change Course.Shows _ _ (.done flow (Scene.leave ⟨locals, σ.element, σ.calls⟩ _))
    rw [Scene.leave_of_suffix h]
    refine .done ?_
    cases flow with
    | next => exact Names.locals_congr hscopes σ
    | jump word => exact List.suffix_refl _
  | fault => exact .fault
  | stuck => exact .stuck
  | exhausted => exact .exhausted

end Course.Shows

/-- Going on after two actions. -/
theorem Result.andThen_bind {α β : Type} (x : Act α) (k : α → Act β) (f : β → Store → Course) (σ : Store) :
    ((x >>= k) σ).andThen f = (x σ).andThen fun a s => (k a s).andThen f := by
  rw [Act.bind_apply]
  cases x σ <;> rfl

namespace Evaluate

variable (w : World) (fuel : Nat)

/-- Evaluate a statement that may be absent. -/
def exec? : Option Term → Scene → Run
  | none, s => .done .next s
  | some t, s => exec w fuel t s

/-- The run of a loop. -/
theorem exec_loop (id : NodeId) (kind : LoopKind) (start test step : Option Term) (body : Term) (s : Scene) :
    exec w fuel (.node id (.loop kind start test step body)) s =
      ((exec? w fuel start s).andThen (passes (continues w test) (exec w fuel body) (exec? w fuel step) fuel
        (kind == LoopKind.doWhile))).leave s.locals.length := by
  cases start <;> cases step <;> (rw [exec]; rfl)

end Evaluate

namespace Perform

variable {w : World} {fuel : Nat} {names names₁ names₂ : Names} {σ : Store}

variable {step : Store → Course} {step' : Scene → Run}

section

variable (hgrown₁ : names.Grown names₁) (hgrown₂ : names₁.Grown names₂)

include hgrown₁ hgrown₂

/-- What follows the step of a loop is shown, after a body that ended with the locals of `names₁`. -/
theorem shows_goesOn {again : Store → Course} {again' : Scene → Run}
    (hstep : ∀ σ, Course.Shows (names₁.Reaches names₂) (step σ) (step' (σ.scene names₁)))
    (hagain : ∀ σ, Course.Shows names.Kept (again σ) (again' (σ.scene names))) (σ₀ σ₂ : Store) :
    Course.Shows names.Kept
      (match step σ₂ with
        | .done (.jump .return) s => .done (.jump .return) s
        | .done _ s => again s
        | other => other)
      (match step' (σ₂.scene names₁) with
        | .done (.jump .return) s => .done (.jump .return) s
        | .done _ s => again' (s.leave (σ₀.scene names).locals.length)
        | other => other) := by
  have hstep := (hstep σ₂).mono fun _ σ _ h => (hgrown₁.suffix σ).trans (Names.Reaches.kept hgrown₂ h)
  generalize step σ₂ = course at hstep
  generalize step' (σ₂.scene names₁) = run at hstep
  cases hstep with
  | @done flow σ₃ locals h =>
    have hagain : Course.Shows names.Kept (again σ₃)
        (again' (Scene.leave ⟨locals, σ₃.element, σ₃.calls⟩ (σ₀.scene names).locals.length)) := by
      rw [Scene.leave_of_suffix h]
      exact hagain σ₃
    rcases flow with _ | _ | _ | _
    · exact hagain
    · exact .done h
    · exact hagain
    · exact hagain
  | fault => exact .fault
  | stuck => exact .stuck
  | exhausted => exact .exhausted

/-- One pass of a loop is shown. What the body declares is visible in the step; a body that may continue declares
nothing. -/
theorem shows_pass {body : Store → Course} {body' : Scene → Run} {again : Store → Course} {again' : Scene → Run}
    (hbody : ∀ σ, Course.Shows (names.Reaches names₁) (body σ) (body' (σ.scene names)))
    (hcontinue : names₁.scopes = names.scopes ∨ ∀ σ σ', body σ ≠ .done (.jump .continue) σ')
    (hstep : ∀ σ, Course.Shows (names₁.Reaches names₂) (step σ) (step' (σ.scene names₁)))
    (hagain : ∀ σ, Course.Shows names.Kept (again σ) (again' (σ.scene names))) (σ₁ : Store) :
    Course.Shows names.Kept
      (match body σ₁ with
        | .done (.jump .break) s => .done .next s
        | .done (.jump .return) s => .done (.jump .return) s
        | .done _ s =>
          match step s with
          | .done (.jump .return) s => .done (.jump .return) s
          | .done _ s => again s
          | other => other
        | other => other)
      (match body' (σ₁.scene names) with
        | .done (.jump .break) s => .done .next s
        | .done (.jump .return) s => .done (.jump .return) s
        | .done flow s =>
          match step' (if flow = .next then s else s.leave (σ₁.scene names).locals.length) with
          | .done (.jump .return) s => .done (.jump .return) s
          | .done _ s => again' (s.leave (σ₁.scene names).locals.length)
          | other => other
        | other => other) := by
  have hrest := shows_goesOn hgrown₁ hgrown₂ hstep hagain σ₁
  have hrun := hbody σ₁
  cases hcourse : body σ₁ with
  | done flow σ₂ =>
    rw [hcourse] at hrun
    generalize body' (σ₁.scene names) = run at hrun
    cases hrun with
    | @done _ _ locals h =>
      rcases flow with _ | _ | _ | _
      · obtain rfl : locals = names₁.locals σ₂ := h
        exact hrest σ₂
      · exact .done h
      · exact .done h
      · have hscopes : names₁.scopes = names.scopes := hcontinue.resolve_right fun hne => hne _ _ hcourse
        have hscene : Scene.leave ⟨locals, σ₂.element, σ₂.calls⟩ (σ₁.scene names).locals.length = σ₂.scene names₁ := by
          rw [Scene.leave_of_suffix h, Store.scene, Store.scene, Names.locals_congr hscopes]
        have hafter := hrest σ₂
        rw [← hscene] at hafter
        exact hafter
  | fault reason σ₂ | stuck | exhausted =>
    rw [hcourse] at hrun
    generalize body' (σ₁.scene names) = run at hrun
    cases hrun
    constructor

/-- The passes of a loop are shown if its parts are. -/
theorem shows_passes {x : Act Bool} {y : Scene → Eval Bool} {body : Store → Course} {body' : Scene → Run}
    (htest : ∀ σ, Shows σ Eq x (y (σ.scene names)))
    (hbody : ∀ σ, Course.Shows (names.Reaches names₁) (body σ) (body' (σ.scene names)))
    (hcontinue : names₁.scopes = names.scopes ∨ ∀ σ σ', body σ ≠ .done (.jump .continue) σ')
    (hstep : ∀ σ, Course.Shows (names₁.Reaches names₂) (step σ) (step' (σ.scene names₁))) (fuel : Nat) (first : Bool)
    (σ : Store) :
    Course.Shows names.Kept (passes x body step fuel first σ) (Evaluate.passes y body' step' fuel first (σ.scene names)) := by
  induction fuel generalizing first σ with
  | zero => exact .exhausted
  | succ fuel ih =>
    have hfirst : Shows σ Eq (if first then pure true else x) (if first then pure true else y (σ.scene names)) := by
      cases first with
      | true => exact .pure rfl
      | false => exact htest σ
    refine .after hfirst ?_
    rintro again _ calls rfl
    cases again with
    | false => exact .done (List.suffix_refl _)
    | true => exact shows_pass hgrown₁ hgrown₂ hbody hcontinue hstep (fun σ => ih false σ) { σ with calls }

end

/-- Whether a condition holds. -/
theorem shows_holds {test : Term} (h : Quiet w test) (names : Names) (σ : Store) :
    Shows σ Eq (holds .lazy w names test) (Evaluate.holds w (σ.scene names) test) := by
  refine (h names σ).bind ?_
  rintro a _ rfl
  refine (shows_truth a).bind ?_
  rintro d _ rfl
  exact .pure rfl

/-- Whether a loop goes on. -/
theorem shows_continues {test : Option Term} (h : ∀ t, test = some t → Quiet w t) (names : Names) (σ : Store) :
    Shows σ Eq (continues .lazy w names test) (Evaluate.continues w test (σ.scene names)) := by
  cases test with
  | none => exact .pure rfl
  | some t => exact shows_holds (h t rfl) names σ

/-- What a local starts with. -/
theorem shows_initial {start : Option Term} (h : ∀ t, start = some t → Quiet w t) (ty : Ty) (names : Names) (σ : Store) :
    Shows σ (fun d d' => d = d' ∧ d.ty = ty) (initial .lazy w names ty start) (Evaluate.initial w (σ.scene names) ty start) := by
  cases start with
  | none => exact .pure ⟨rfl, rfl⟩
  | some t =>
    refine (h t rfl names σ).bind ?_
    rintro a _ rfl
    rw [← Eval.bind_pure (Eval.ofOption _)]
    refine (shows_coerce a ty).known.bind ?_
    rintro b _ ⟨rfl, hcoerce⟩
    exact .settle (.pure ⟨rfl, Datum.ty_of_coerce? hcoerce⟩)

/-- What an assignment puts into a site is what it puts into the spot. -/
theorem shows_revised {site : Site} {spot : Spot} (hspot : σ.Spotted names site spot) (compound : Option BinaryOp) (a : Referent) :
    Shows σ (fun b d => σ.read b = d ∧ d.ty = site.ty) (revised .lazy compound site a)
      (Evaluate.revised compound (σ.held site) (σ.read a)) := by
  have hcoerce (b : Referent) : Shows σ (fun b d => σ.read b = d ∧ d.ty = site.ty) (coerce b site.ty)
      (Eval.ofOption ((σ.read b).coerce? (σ.held site).ty)) := by
    rw [σ.ty_held site, ← bind_pure (coerce b site.ty), ← Eval.bind_pure (Eval.ofOption _)]
    refine (shows_coerce b _).known.bind ?_
    rintro c d ⟨hc, hd⟩
    exact .pure ⟨hc, Datum.ty_of_coerce? hd⟩
  cases compound with
  | none => exact hcoerce a
  | some op =>
    refine hspot.shows_load.given fun current hcurrent => ?_
    rw [← show σ.read current = σ.held site from hcurrent]
    refine (shows_operate op current a).bind ?_
    rintro b _ rfl
    rw [hcurrent]
    exact hcoerce b

/-- What is stored after a computation that changes nothing is written to the spot. -/
theorem shows_store {x : Act (Site × Referent × Referent)} {y : Eval (Spot × Datum)} (hnumbered : names.Numbered)
    (hx : Shows σ (fun p c => σ.Spotted names p.1 c.1 ∧ σ.read p.2.1 = c.2 ∧ c.2.ty = p.1.ty) x y) :
    Course.Shows (names.Reaches names)
      (((x >>= fun p => store .lazy p.1 p.2.1 >>= fun _ => pure p.2.2) σ).andThen fun _ s => .done .next s)
      ((σ.scene names).after y fun change s => .done .next (s.write change.1 change.2)) := by
  rw [Result.andThen_bind]
  refine .after hx ?_
  rintro ⟨site, a, result⟩ ⟨spot, _⟩ calls ⟨hspot, rfl, hty⟩
  have hread : ({ σ with calls } : Store).read a = σ.read a := by cases a <;> rfl
  obtain ⟨σ', hstore, hscene⟩ := (hspot.calls calls).store hnumbered (hread ▸ hty)
  rw [Act.bind_apply, hstore]
  rw [hread] at hscene
  change Course.Shows _ (.done .next σ') (.done .next ((({ σ with calls } : Store).scene names).write spot (σ.read a)))
  rw [← hscene]
  exact .next σ'

/-- An assignment writes the spot of its target. -/
theorem shows_assign {target value : Term} (htarget : target.Everywhere Node.Calm) (hvalue : Quiet w value)
    (compound : Option BinaryOp) (hnumbered : names.Numbered) (σ : Store) :
    Course.Shows (names.Reaches names)
      ((referentNode .lazy w names (.assign target value compound) σ).andThen fun _ s => .done .next s)
      ((σ.scene names).after (Evaluate.assignment w (σ.scene names) target value compound) fun change s =>
        .done .next (s.write change.1 change.2)) := by
  have hnode : referentNode .lazy w names (.assign target value compound) =
      (do
        let site ← place .lazy w names target
        let a ← referent .lazy w names value
        let a ← revised .lazy compound site a
        return (site, a, a)) >>= fun p => store .lazy p.1 p.2.1 >>= fun _ => pure p.2.2 := by
    simp only [referentNode, assign_eq, bind_assoc, pure_bind]
  rw [hnode]
  refine shows_store hnumbered ((shows_place w target htarget names σ).bind fun site spot hspot => ?_)
  refine (hvalue names σ).bind ?_
  rintro a _ rfl
  rw [hspot.read?]
  refine (shows_revised hspot compound a).bind ?_
  rintro b _ ⟨rfl, hty⟩
  exact .pure ⟨hspot, rfl, hty⟩

/-- A step writes the spot of its target. -/
theorem shows_crement {target : Term} (htarget : target.Everywhere Node.Calm) (op : CrementOp) (post : Bool)
    (hnumbered : names.Numbered) (σ : Store) :
    Course.Shows (names.Reaches names)
      ((referentNode .lazy w names (.crement op post target) σ).andThen fun _ s => .done .next s)
      ((σ.scene names).after (Evaluate.stepping w (σ.scene names) op target) fun change s =>
        .done .next (s.write change.1 change.2)) := by
  have hnode : referentNode .lazy w names (.crement op post target) =
      (do
        let site ← place .lazy w names target
        let current ← load .lazy site
        let d ← settle current
        return (site, .datum (d.step op), .datum (if post then d else d.step op))) >>=
          fun p => store .lazy p.1 p.2.1 >>= fun _ => pure p.2.2 := by
    simp only [referentNode, step, bind_assoc, pure_bind]
  rw [hnode]
  refine shows_store hnumbered ((shows_place w target htarget names σ).bind fun site spot hspot => ?_)
  rw [hspot.read?]
  refine hspot.shows_load.given fun current hcurrent => .settle ?_
  rw [show σ.read current = σ.held site from hcurrent]
  exact .pure ⟨hspot, rfl, σ.ty_held site⟩

/-- A declaration does not jump. -/
theorem exec_declare_ne_continue {t : Term} (hkind : t.kind? = some .declare) {σ' : Store} :
    exec .lazy w fuel t names σ ≠ .done (.jump .continue) σ' := by
  intro heq
  cases t with
  | missing id => cases hkind
  | node id content =>
    cases content with
    | declare ty name start =>
      rw [exec] at heq
      cases hname : name.localName? with
      | none =>
        rw [hname] at heq
        cases heq
      | some name =>
        rw [hname] at heq
        cases hinitial : initial .lazy w names ty start σ <;> simp [hinitial, Result.andThen] at heq
    | _ => cases hkind

/-- Statements that are performed as they are evaluated, one after another. -/
theorem shows_execAll {ts : List Term}
    (h : ∀ t ∈ ts, ∀ names : Names, names.Numbered → names.scopes ≠ [] → ∀ σ : Store,
      Course.Shows (names.Reaches (names.after t)) (exec .lazy w fuel t names σ) (Evaluate.exec w fuel t (σ.scene names)))
    (hnumbered : names.Numbered) (hscopes : names.scopes ≠ []) (σ : Store) :
    Course.Shows (names.Reaches (names.afterAll ts)) (execAll .lazy w fuel ts names σ)
      (Evaluate.execAll w fuel ts (σ.scene names)) := by
  induction ts generalizing names σ with
  | nil => exact .next σ
  | cons t ts ih =>
    rw [List.forall_mem_cons] at h
    have hgrown := Names.grown_after t names
    refine (h.1 names hnumbered hscopes σ).andThen (fun _ _ _ h => h) fun σ₁ => ?_
    exact (ih h.2 (hgrown.numbered hnumbered) (hgrown.scopes_ne_nil hscopes) σ₁).mono fun _ _ _ => Names.Reaches.outer hgrown

/-- A loop is performed as it is evaluated, if its statements are. -/
theorem shows_loop {start test step : Option Term} {body : Term} (id : NodeId) (kind : LoopKind)
    (htest : ∀ t, test = some t → Quiet w t) (hbody : body.Everywhere Node.Scoped)
    (h : ∀ t, t = body ∨ start = some t ∨ step = some t → ∀ names : Names, names.Numbered → names.scopes ≠ [] → ∀ σ : Store,
      Course.Shows (names.Reaches (names.after t)) (exec .lazy w fuel t names σ) (Evaluate.exec w fuel t (σ.scene names)))
    (hnumbered : names.Numbered) (σ : Store) :
    Course.Shows (names.Reaches (names.after (.node id (.loop kind start test step body))))
      (exec .lazy w fuel (.node id (.loop kind start test step body)) names σ)
      (Evaluate.exec w fuel (.node id (.loop kind start test step body)) (σ.scene names)) := by
  have hmaybe {part : Option Term} (hpart : ∀ t, part = some t → start = some t ∨ step = some t) {names : Names}
      (hnumbered : names.Numbered) (hscopes : names.scopes ≠ []) (σ : Store) :
      Course.Shows (names.Reaches (names.after? part)) (exec? .lazy w fuel part names σ)
        (Evaluate.exec? w fuel part (σ.scene names)) := by
    cases part with
    | none => exact .next σ
    | some t => exact h t (.inr (hpart t rfl)) names hnumbered hscopes σ
  -- the scope of the loop, with what its start, its body and its step declare
  have hstart := Names.grown_after? start names.enter
  have hinner := Names.grown_after body (names.enter.after? start)
  have hstep := Names.grown_after? step ((names.enter.after? start).after body)
  have hscopes₁ := hstart.scopes_ne_nil (List.cons_ne_nil _ _)
  have hnumbered₁ := hstart.numbered hnumbered.enter
  rw [Names.after_loop, exec_loop, Evaluate.exec_loop]
  have hbegun := hmaybe (fun t ht => .inl ht) hnumbered.enter (List.cons_ne_nil _ _) σ
  refine Course.Shows.leave ?_ σ ((hstart.trans hinner).trans hstep).inner.2.symm
  refine hbegun.andThen (fun _ _ _ h => h) fun σ₁ => ?_
  refine (shows_passes hinner hstep (shows_continues htest _) (h body (.inl rfl) _ hnumbered₁ hscopes₁) ?_
    (hmaybe (fun t ht => .inr ht) (hinner.numbered hnumbered₁) (hinner.scopes_ne_nil hscopes₁)) fuel _ σ₁).mono
    fun _ σ _ h => (hstart.suffix σ).trans h
  by_cases hkind : body.kind? = some .declare
  · exact .inr fun σ σ' => exec_declare_ne_continue hkind
  · exact .inl (Names.scopes_after hbody hkind _)

/-- A statement in which expressions change nothing is performed as it is evaluated. -/
theorem shows_exec (w : World) (fuel : Nat) (t : Term) (hcalm : t.Everywhere Node.Calm) (hscoped : t.Everywhere Node.Scoped)
    {names : Names} (hnumbered : names.Numbered) (hdeclare : t.kind? = some .declare → names.scopes ≠ []) (σ : Store) :
    Course.Shows (names.Reaches (names.after t)) (exec .lazy w fuel t names σ) (Evaluate.exec w fuel t (σ.scene names)) := by
  induction t using Term.children_induction generalizing names σ with
  | missing id => exact .next σ
  | node id content ih =>
    have hquiet (c : Term) (hc : c ∈ content.operands) : Quiet w c :=
      quiet_of_calm w c (hcalm.here c hc) (hcalm.below (content.operands_subset hc))
    have hchild (c : Term) (hc : c ∈ content.children) (names : Names) (hnumbered : names.Numbered)
        (hdeclare : c.kind? = some .declare → names.scopes ≠ []) (σ : Store) :
        Course.Shows (names.Reaches (names.after c)) (exec .lazy w fuel c names σ) (Evaluate.exec w fuel c (σ.scene names)) :=
      ih c hc (hcalm.below hc) (hscoped.below hc) hnumbered hdeclare σ
    have hexpression (hchange : (Term.node 0 content).isChange = false) : Course.Shows (names.Reaches names)
        ((referentNode .lazy w names content σ).andThen fun _ s => .done .next s)
        ((σ.scene names).after (Evaluate.valueNode w (σ.scene names) content) fun _ s => .done .next s) :=
      .after (shows_referentNode hchange (fun c hc h => quiet_of_calm w c h (hcalm.below hc)) hcalm.here names σ)
        fun _ _ calls _ => .next { σ with calls }
    cases content with
    | block statements =>
      have hall := shows_execAll (w := w) (fun t ht names hnumbered hscopes σ => hchild t ht names hnumbered (fun _ => hscopes) σ)
        hnumbered.enter (List.cons_ne_nil _ _) σ
      have hgrown := Names.grown_afterAll statements names.enter
      have hkept : Course.Shows names.Kept _ _ := hall.mono fun _ _ _ => Names.Reaches.kept hgrown
      exact hkept.leave σ hgrown.inner.2.symm
    | conditional test thenBranch elseBranch =>
      have hbranches := hscoped.here
      have hthen := hbranches thenBranch (by simp [Node.branches])
      have helse := hbranches elseBranch (by simp [Node.branches])
      have hgrown₁ := Names.grown_after thenBranch names
      have hgrown₂ := Names.grown_after elseBranch (names.after thenBranch)
      have hscopes₁ := Names.scopes_after (hscoped.below (c := thenBranch) (by simp)) hthen names
      have hscopes₂ := Names.scopes_after hscoped (by simp [Term.kind?, Node.kind]) names
      refine .after (shows_holds (hquiet test (by simp [Node.operands])) names σ) ?_
      rintro yes _ calls rfl
      refine Course.Shows.leave ?_ { σ with calls } hscopes₂.symm
      cases yes with
      | true =>
        exact (hchild thenBranch (by simp) names hnumbered (fun h => absurd h hthen) { σ with calls }).mono
          fun _ _ _ => Names.Reaches.kept hgrown₁
      | false =>
        have hrun := hchild elseBranch (by simp) (names.after thenBranch) (hgrown₁.numbered hnumbered)
          (fun h => absurd h helse) { σ with calls }
        have hscene : ({ σ with calls } : Store).scene (names.after thenBranch) = ({ σ with calls } : Store).scene names := by
          rw [Store.scene, Store.scene, Names.locals_congr hscopes₁]
        rw [hscene] at hrun
        exact hrun.mono fun _ σ _ h => (hgrown₁.suffix σ).trans (Names.Reaches.kept hgrown₂ h)
    | loop kind start test step body =>
      refine shows_loop id kind (fun t ht => hquiet t (by simp [Node.operands, ht])) (hscoped.below (by simp))
        (fun t ht names hnumbered hscopes σ => hchild t ?_ names hnumbered (fun _ => hscopes) σ) hnumbered σ
      rcases ht with rfl | rfl | rfl <;> simp
    | jump word => exact .done (List.suffix_refl _)
    | declare ty name start =>
      have hstart : Shows σ _ (initial .lazy w names ty start) _ :=
        shows_initial (fun t ht => hquiet t (by simp [Node.operands, ht])) ty names σ
      rw [exec, Evaluate.exec, Names.after]
      cases name.localName? with
      | none => exact .stuck
      | some name =>
        refine .after hstart ?_
        rintro d _ calls ⟨rfl, rfl⟩
        refine .done ?_
        exact (hnumbered.locals_declare (hdeclare rfl) name d { σ with calls }).symm
    | assign target value compound =>
      exact shows_assign (hcalm.below (by simp)) (hquiet value (by simp [Node.operands]))
        compound hnumbered σ
    | crement op post target => exact shows_crement (hcalm.below (by simp)) op post hnumbered σ
    | _ => exact hexpression rfl

/-- A program in which expressions change nothing is performed as it is evaluated. -/
theorem shows_program (w : World) (fuel : Nat) (t : Term) (hcalm : t.Everywhere Node.Calm) (hscoped : t.Everywhere Node.Scoped)
    (element : ElementState) :
    Course.Shows (fun _ _ _ => True) (exec .lazy w fuel t {} { element }) (Evaluate.exec w fuel t { element }) := by
  by_cases hkind : t.kind? = some .declare
  · -- a program that is one declaration has no scope for its local
    cases t with
    | missing id => cases hkind
    | node id content =>
      cases content with
      | declare ty name start =>
        have hquiet (t : Term) (ht : start = some t) : Quiet w t :=
          quiet_of_calm w t (hcalm.here t (by simp [Node.operands, ht])) (hcalm.below (by simp [ht]))
        have hstart := shows_initial hquiet ty {} { element }
        change Course.Shows _ _ (Evaluate.exec w fuel _ (Store.scene { element } {}))
        rw [exec, Evaluate.exec]
        cases name.localName? with
        | none => exact .stuck
        | some name => exact .after hstart fun _ _ _ _ => .done trivial
      | _ => cases hkind
  · exact (shows_exec w fuel t hcalm hscoped .empty (fun h => absurd h hkind) { element }).mono fun _ _ _ _ => trivial

end Perform

end Elementwise
