import Elementwise.Proofs.Code.Verify

/-!
# Jumps and loops

How control moves through the loops of a run. The events of a run are its steps, and between them where a
loop begins, which of its parts is entered, and where it is left. A `break` in the body of a loop leaves
that loop next, and a `continue` goes on with its step and then its test. In the test or the step of a loop
they only end that part. What holds of the events is proved backwards: `Watched.Meets` says what a run adds
in front of the events that come after it.
-/

namespace Elementwise

/-- A part of a loop. -/
inductive LoopPart where
  | test
  | body
  | step
  deriving DecidableEq

/-- What happens in a run: an instruction is executed, or control moves through a loop. -/
inductive Event where
  | exec (s : Step)
  /-- A loop begins, inside those that control is in. -/
  | start
  /-- Control enters a part of the innermost loop. -/
  | enter (part : LoopPart)
  /-- The innermost loop is left. -/
  | leave

namespace Event

variable {rest : List Event}

/-- The step that an event is. -/
def step? : Event → Option Step
  | exec s => some s
  | _ => none

/-- The parts of the loops that control is in after an event, the innermost first. -/
def after (parts : List LoopPart) : Event → List LoopPart
  | exec _ => parts
  | start => .test :: parts
  | enter part => part :: parts.tail
  | leave => parts.tail

/-- The parts of the loops that control is in after some events, the innermost first. -/
def around (events : List Event) : List LoopPart := events.foldl after []

/-- The next move of a loop, where control is inside a number of loops in it. -/
def nextMove? : Nat → List Event → Option Event
  | _, [] => none
  | depth, exec _ :: rest => nextMove? depth rest
  | depth, start :: rest => nextMove? (depth + 1) rest
  | 0, e :: _ => some e
  | depth + 1, enter _ :: rest => nextMove? (depth + 1) rest
  | depth + 1, leave :: rest => nextMove? depth rest

/-- What comes after a jump that is executed in the given parts of loops. -/
inductive Follows : List LoopPart → Jump → List Event → Prop
  /-- A return ends the run. -/
  | return {parts} : Follows parts .return []
  /-- The loop is left. -/
  | break {outer rest} : Follows (.body :: outer) .break (leave :: rest)
  /-- The loop goes on with its step, and after that with its test. -/
  | continue {outer rest} (htest : ∀ e ∈ nextMove? 0 rest, e = enter .test) :
      Follows (.body :: outer) .continue (enter .step :: rest)
  /-- In a test the jump has no effect but to end it: the loop looks at its condition. -/
  | test {outer word s rest k t c b u} (hword : word ≠ .return) (hloop : s.instr = .loop k t c b u) :
      Follows (.test :: outer) word (exec s :: rest)
  /-- In a step the jump has no effect but to end it: the loop goes on with its test. -/
  | step {outer word rest} (hword : word ≠ .return) (htest : ∀ e ∈ rest.head?, e = enter .test) :
      Follows (.step :: outer) word rest

/-- Every jump among events is followed by what it asks for; if `strict`, each of them is a return or stands
in the body of the innermost loop. -/
def Obeyed (strict : Prop) (parts : List LoopPart) : List Event → Prop
  | [] => True
  | e :: rest =>
    (∀ s word, e = exec s → s.instr = .jump word →
      Follows parts word rest ∧ (strict → word = .return ∨ parts.head? = some .body)) ∧
    Obeyed strict (e.after parts) rest

variable {strict : Prop} {parts : List LoopPart}

/-- What follows a jump among events that are obeyed. -/
theorem Obeyed.jump {before : List Event} {s : Step} {word : Jump}
    (h : Obeyed strict parts (before ++ exec s :: rest)) (hs : s.instr = .jump word) :
    Follows (before.foldl after parts) word rest ∧
      (strict → word = .return ∨ (before.foldl after parts).head? = some .body) := by
  induction before generalizing parts with
  | nil => exact h.1 s word rfl hs
  | cons e before ih => exact ih h.2

/-- A step that is no jump. -/
theorem Obeyed.exec {s : Step} (hs : ∀ word, s.instr ≠ .jump word) (h : Obeyed strict parts rest) :
    Obeyed strict parts (exec s :: rest) := by
  refine ⟨fun s' word hexec hjump => ?_, h⟩
  obtain rfl := Event.exec.inj hexec
  exact absurd hjump (hs word)

/-- A move through a loop. -/
theorem Obeyed.move {e : Event} (he : e.step? = none) (h : Obeyed strict (e.after parts) rest) :
    Obeyed strict parts (e :: rest) := by
  refine ⟨fun s word hexec _ => ?_, h⟩
  subst hexec
  cases he

end Event

/-- A way to run from a machine, with the events of the run. -/
structure Watched (α : Type) where
  traced : Traced α
  events : Machine → List Event

namespace Watched

open Event (Obeyed nextMove?)

variable {α β : Type}

/-- Give a result without any event. -/
def pure (a : α) : Watched α := ⟨.pure a, fun _ => []⟩

/-- One step, which executes the given instruction. -/
def one (i : Instr) (run : Machine → Outcome α) : Watched α := ⟨.one i run, fun m => [.exec ⟨m, i⟩]⟩

/-- An event, and then a run. -/
def note (e : Event) (x : Watched α) : Watched α := ⟨x.traced, fun m => e :: x.events m⟩

/-- Go on with the result of a run. -/
def bind (x : Watched α) (k : α → Watched β) : Watched β where
  traced := x.traced.bind fun a => (k a).traced
  events m := x.events m ++ match x.traced.run m with
    | .done a m => (k a).events m
    | _ => []

/-- The passes of a loop, as many as there is fuel. -/
def loop (test : Watched (Option Bool)) (body step : Watched Flow) : Nat → Bool → Watched Flow
  | 0, _ => ⟨⟨fun _ => .exhausted, fun _ => []⟩, fun _ => []⟩
  | fuel + 1, first => (if first then pure (some true) else note (.enter .test) test).bind fun
    | none => pure (.jump .return)
    | some false => note .leave (pure .next)
    | some true => (note (.enter .body) body).bind fun
      | .jump .break => note .leave (pure .next)
      | .jump .return => pure (.jump .return)
      | _ => (note (.enter .step) step).bind fun
        | .jump .return => pure (.jump .return)
        | _ => loop test body step fuel false

/-- The test of a loop: its instructions, then one step that looks at its condition. -/
def test (self : Instr) (condition : Option Reg) (instrs : Watched Flow) : Watched (Option Bool) :=
  instrs.bind fun
    | .jump .return => pure none
    | _ => one self (Traced.look condition)

/-- The watched run of a traced one: the steps are among the events, in order, and no other steps. -/
structure Watches (x : Watched α) (t : Traced α) : Prop where
  traced : x.traced = t
  steps : ∀ m, (x.events m).filterMap Event.step? = t.steps m

namespace Watches

theorem pure (a : α) : (pure a).Watches (.pure a) := ⟨rfl, fun _ => rfl⟩

theorem one (i : Instr) (run : Machine → Outcome α) : (one i run).Watches (.one i run) := ⟨rfl, fun _ => rfl⟩

theorem note {x : Watched α} {t : Traced α} (h : x.Watches t) {e : Event} (he : e.step? = none) : (x.note e).Watches t :=
  ⟨h.traced, fun m => (List.filterMap_cons_none he).trans (h.steps m)⟩

theorem bind {x : Watched α} {t : Traced α} {k : α → Watched β} {l : α → Traced β} (h : x.Watches t)
    (hk : ∀ a, (k a).Watches (l a)) : (x.bind k).Watches (t.bind l) := by
  obtain rfl := h.traced
  obtain rfl : (fun a => (k a).traced) = l := funext fun a => (hk a).traced
  refine ⟨rfl, fun m => ?_⟩
  simp only [Watched.bind, Traced.bind, List.filterMap_append, h.steps m]
  cases x.traced.run m with
  | done a m' => exact congrArg _ ((hk a).steps m')
  | failed | exhausted => rfl

/-- The passes of a loop. -/
theorem loop {test : Watched (Option Bool)} {body step : Watched Flow} {test' : Traced (Option Bool)}
    {body' step' : Traced Flow} (htest : test.Watches test') (hbody : body.Watches body') (hstep : step.Watches step')
    (fuel : Nat) (first : Bool) : (loop test body step fuel first).Watches (.loop test' body' step' fuel first) := by
  induction fuel generalizing first with
  | zero => exact ⟨rfl, fun _ => rfl⟩
  | succ fuel ih =>
    refine bind ?_ fun again => ?_
    · cases first
      · exact htest.note rfl
      · exact pure _
    · rcases again with _ | _ | _
      · exact pure _
      · exact (pure _).note rfl
      · refine bind (hbody.note rfl) fun flow => ?_
        rcases flow with _ | _ | _ | _
        case jump.break => exact (pure _).note rfl
        case jump.return => exact pure _
        all_goals
          refine bind (hstep.note rfl) fun flow => ?_
          rcases flow with _ | _ | _ | _ <;> first | exact pure _ | exact ih false

/-- The test of a loop. -/
theorem test {instrs : Watched Flow} {instrs' : Traced Flow} (h : instrs.Watches instrs') (self : Instr)
    (condition : Option Reg) : (test self condition instrs).Watches (.test self condition instrs') := by
  refine h.bind fun flow => ?_
  rcases flow with _ | _ | _ | _ <;> first | exact pure _ | exact one _ _

end Watches

/-- Whatever a run is followed by, the events from its start are as stated if those after it are, given its
result; a run that has none is followed by nothing. -/
def Meets (x : Watched α) (P : List Event → Prop) (post : α → List Event → Prop) : Prop :=
  ∀ m rest, (∀ a m', x.traced.run m = .done a m' → post a rest) →
    ((∀ a m', x.traced.run m ≠ .done a m') → rest = []) → P (x.events m ++ rest)

namespace Meets

variable {x : Watched α} {P P' : List Event → Prop} {post post' : α → List Event → Prop}

theorem pure {a : α} (h : ∀ rest, post a rest → P rest) : Meets (pure a) P post :=
  fun m rest hpost _ => h rest (hpost a m rfl)

theorem note (h : Meets x P' post) {e : Event} (he : ∀ rest, P' rest → P (e :: rest)) : Meets (x.note e) P post :=
  fun m rest hpost hnone => he _ (h m rest hpost hnone)

theorem bind {k : α → Watched β} {Q : α → List Event → Prop} {post : β → List Event → Prop} (h : Meets x P Q)
    (hk : ∀ a, Meets (k a) (Q a) post) : Meets (x.bind k) P post := by
  intro m rest hpost hnone
  simp only [Watched.bind, Traced.bind] at hpost hnone ⊢
  rw [List.append_assoc]
  cases hrun : x.traced.run m with
  | done a m₁ =>
    rw [hrun] at hpost hnone
    refine h m _ (fun a' m' hdone => ?_) fun hno => absurd hrun (hno a m₁)
    obtain ⟨rfl, rfl⟩ := Outcome.done.inj (hrun.symm.trans hdone)
    exact hk a m₁ rest hpost hnone
  | failed | exhausted =>
    rw [hrun] at hnone
    rw [hnone (by simp)]
    exact h m [] (by simp [hrun]) fun _ => rfl

/-- Two statements at once. -/
theorem and (h : Meets x P post) (h' : Meets x P' post') :
    Meets x (fun rest => P rest ∧ P' rest) fun a rest => post a rest ∧ post' a rest :=
  fun m rest hpost hnone =>
    ⟨h m rest (fun a m' ha => (hpost a m' ha).1) hnone, h' m rest (fun a m' ha => (hpost a m' ha).2) hnone⟩

theorem weaken (h : Meets x P post) (hP : ∀ rest, P rest → P' rest) : Meets x P' post :=
  fun m rest hpost hnone => hP _ (h m rest hpost hnone)

/-- One step, where what is known of the events after it holds of none. -/
theorem step {i : Instr} {run : Machine → Outcome α} (hnil : P' [])
    (hstep : ∀ m rest, P' rest → P (.exec ⟨m, i⟩ :: rest)) (hpost : ∀ a rest, post a rest → P' rest) :
    Meets (one i run) P post := by
  intro m rest hdone hnone
  refine hstep m rest ?_
  cases hrun : run m with
  | done a m' => exact hpost a rest (hdone a m' hrun)
  | failed | exhausted =>
    rw [hnone fun a m' h => by cases hrun.symm.trans h]
    exact hnil

/-- Code after code, up to the first jump. -/
theorem sequence {x rest : Watched Flow} {post : Flow → List Event → Prop} (hx : Meets x P post)
    (hrest : Meets rest P post) (hnext : ∀ l, P l → post .next l) :
    Meets (x.bind fun
      | .next => rest
      | .jump word => .pure (.jump word)) P post := by
  refine hx.bind fun flow => ?_
  cases flow with
  | next => exact hrest.weaken hnext
  | jump word => exact pure fun _ h => h

end Meets

/-- The next move of the loop that a run is in is as stated, if there is one. -/
def Moves (depth : Nat) (Q : Event → Prop) (events : List Event) : Prop := ∀ e ∈ nextMove? depth events, Q e

/-- The next move of the loop after instructions that end in some flow; after a return there is none. -/
def MovesAfter (depth : Nat) (Q : Event → Prop) (flow : Flow) (events : List Event) : Prop :=
  Moves depth Q events ∧ (flow = .jump .return → events = [])

/-- Instructions inside a loop leave the next move of the loop to what comes after them. -/
def Passes (x : Watched Flow) : Prop := ∀ depth Q, Meets x (Moves depth Q) (MovesAfter depth Q)

namespace Passes

variable {depth : Nat} {Q : Event → Prop}

theorem moves_nil : Moves depth Q [] := fun e he => by cases he

/-- The test of a loop inside the loop. -/
theorem test {instrs : Watched Flow} (h : instrs.Passes) (self : Instr) (condition : Option Reg) :
    Meets (test self condition instrs) (Moves depth Q) fun again rest =>
      Moves depth Q rest ∧ (again = none → rest = []) := by
  refine (h depth Q).bind fun flow => ?_
  have hlook : Meets (one self (Traced.look condition)) (Moves depth Q) fun again rest =>
      Moves depth Q rest ∧ (again = none → rest = []) :=
    .step moves_nil (fun _ _ h => h) fun _ _ h => h.1
  rcases flow with _ | _ | _ | _
  case jump.return => exact .pure fun rest h => ⟨h.1, fun _ => h.2 rfl⟩
  all_goals exact hlook.weaken (fun rest h => ⟨h, by simp⟩)

/-- The passes of a loop inside the loop. -/
theorem loop {test : Watched (Option Bool)} {body step : Watched Flow} (hbody : body.Passes) (hstep : step.Passes)
    (htest : Meets test (Moves (depth + 1) Q) fun again rest => Moves (depth + 1) Q rest ∧ (again = none → rest = []))
    (fuel : Nat) (first : Bool) :
    Meets (loop test body step fuel first) (Moves (depth + 1) Q) (MovesAfter depth Q) := by
  have hreturn : Meets (pure (Flow.jump .return)) (MovesAfter (depth + 1) Q (.jump .return)) (MovesAfter depth Q) := by
    refine .pure fun rest h => ?_
    rw [h.2 rfl]
    exact ⟨moves_nil, fun _ => rfl⟩
  have hleave : Meets (note .leave (pure .next)) (Moves (depth + 1) Q) (MovesAfter depth Q) :=
    .note (.pure fun rest h => h.1) fun rest h => h
  induction fuel generalizing first with
  | zero =>
    intro m rest _ hnone
    rw [hnone (by intro a m' h; cases h)]
    exact moves_nil
  | succ fuel ih =>
    refine Meets.bind (Q := fun again rest => Moves (depth + 1) Q rest ∧ (again = none → rest = [])) ?_ fun again => ?_
    · cases first
      · exact .note htest fun rest h => h
      · exact .pure fun rest h => h.1
    · rcases again with _ | _ | _
      · exact hreturn.weaken (fun rest h => ⟨h.1, fun _ => h.2 rfl⟩)
      · exact hleave.weaken (fun rest h => ⟨h, by simp⟩)
      · refine Meets.weaken (P := Moves (depth + 1) Q) ?_ (fun rest h => ⟨h, by simp⟩)
        refine Meets.bind (.note (hbody (depth + 1) Q) fun rest h => h) fun flow => ?_
        rcases flow with _ | _ | _ | _
        case jump.break => exact hleave.weaken (fun rest h => ⟨h, by simp⟩)
        case jump.return => exact hreturn
        all_goals
          refine Meets.weaken (P := Moves (depth + 1) Q) ?_ (fun rest h => ⟨h, by simp⟩)
          refine Meets.bind (.note (hstep (depth + 1) Q) fun rest h => h) fun flow => ?_
          rcases flow with _ | _ | _ | _
          case jump.return => exact hreturn
          all_goals exact (ih false).weaken (fun rest h => ⟨h, by simp⟩)

end Passes

end Watched

namespace Instr

open Watched (Meets Passes)

mutual
/-- One instruction with its events. -/
def watched (types : Array Ty) (fuel : Nat) : Instr → Watched Flow
  | branch condition thenBody elseBody =>
    (Watched.one (branch condition thenBody elseBody) fun m =>
      match m.regs[condition]? with
      | some v => .done v.truthy m
      | none => .failed (.register condition) m).bind fun taken =>
        if taken then watchedAll types fuel thenBody else watchedAll types fuel elseBody
  | loop kind test condition body step =>
    (Watched.loop (Watched.test (loop kind test condition body step) condition (watchedAll types fuel test))
      (watchedAll types fuel body) (watchedAll types fuel step) fuel (kind == .doWhile)).note .start
  | i => Watched.one i (i.run types fuel)

/-- Instructions one after another, with their events. -/
def watchedAll (types : Array Ty) (fuel : Nat) : List Instr → Watched Flow
  | [] => Watched.pure .next
  | i :: rest => (i.watched types fuel).bind fun
    | .next => watchedAll types fuel rest
    | .jump word => Watched.pure (.jump word)
end

/-- An instruction without bodies is one step. -/
theorem watched_leaf {i : Instr} (hleaf : i.bodies = []) (types : Array Ty) (fuel : Nat) :
    i.watched types fuel = Watched.one i (i.run types fuel) := by
  cases i <;> first | rfl | simp [bodies] at hleaf

/-- Code that is watched is traced as before, and its steps are among its events. -/
theorem watchedAll_watches (types : Array Ty) (fuel : Nat) (code : List Instr) :
    (watchedAll types fuel code).Watches (tracedAll types fuel code) := by
  have hcons {i : Instr} {rest : List Instr} (hi : (i.watched types fuel).Watches (i.traced types fuel))
      (hrest : (watchedAll types fuel rest).Watches (tracedAll types fuel rest)) :
      (watchedAll types fuel (i :: rest)).Watches (tracedAll types fuel (i :: rest)) := by
    refine hi.bind fun flow => ?_
    cases flow with
    | next => exact hrest
    | jump word => exact .pure _
  induction code using code_induction with
  | nil => exact .pure _
  | leaf i rest hleaf hrest =>
    refine hcons ?_ hrest
    rw [watched_leaf hleaf, traced_leaf hleaf]
    exact .one _ _
  | branch c t e rest ht he hrest =>
    refine hcons (.bind (.one _ _) fun taken => ?_) hrest
    cases taken with
    | false => exact he
    | true => exact ht
  | loop k t c b s rest ht hb hs hrest => exact hcons ((ht.test _ _).loop hb hs _ _ |>.note rfl) hrest

/-- Code inside a loop leaves the next move of the loop to what comes after it. -/
theorem watchedAll_passes (types : Array Ty) (fuel : Nat) (code : List Instr) : (watchedAll types fuel code).Passes := by
  have hcons {i : Instr} {rest : List Instr} (hi : (i.watched types fuel).Passes)
      (hrest : (watchedAll types fuel rest).Passes) : (watchedAll types fuel (i :: rest)).Passes :=
    fun depth Q => (hi depth Q).sequence (hrest depth Q) fun l h => ⟨h, by simp⟩
  induction code using code_induction with
  | nil => exact fun depth Q => .pure fun rest h => h.1
  | leaf i rest hleaf hrest =>
    refine hcons ?_ hrest
    rw [watched_leaf hleaf]
    exact fun depth Q => .step Passes.moves_nil (fun _ _ h => h) fun _ _ h => h.1
  | branch c t e rest ht he hrest =>
    refine hcons (fun depth Q => ?_) hrest
    refine Meets.bind (.step Passes.moves_nil (fun _ _ h => h) fun _ _ h => h) fun taken => ?_
    cases taken with
    | false => exact he depth Q
    | true => exact ht depth Q
  | loop k t c b s rest ht hb hs hrest =>
    refine hcons (fun depth Q => ?_) hrest
    exact .note (hb.loop hs (ht.test _ _) _ _) fun _ h => h

end Instr

namespace Watched

open Event (Obeyed)

variable {strict : Prop} {outer parts : List LoopPart}

/-- What comes after instructions that end in some flow, in the given parts of loops. -/
structure Awaits (strict : Prop) (parts : List LoopPart) (flow : Flow) (rest : List Event) : Prop where
  obeyed : Obeyed strict parts rest
  ended : flow = .jump .return → rest = []
  follows : ∀ word, flow = .jump word → word ≠ .return → parts ≠ [] → (strict → parts.head? = some .body) →
    Event.Follows parts word rest

/-- Instructions in the given parts of loops, with jumps that are obeyed if what comes after them awaits them. -/
def Obeys (strict : Prop) (parts : List LoopPart) (x : Watched Flow) : Prop :=
  Meets x (Obeyed strict parts) (Awaits strict parts)

theorem Awaits.next {rest : List Event} (h : Obeyed strict parts rest) : Awaits strict parts .next rest :=
  ⟨h, by simp, by simp⟩

theorem Awaits.nothing : Awaits strict parts (.jump .return) [] := ⟨trivial, fun _ => rfl, by simp⟩

namespace Obeys

/-- The test of a loop: whatever its instructions jump to, the loop looks at its condition. -/
theorem test {instrs : Watched Flow} (h : instrs.Obeys strict (.test :: outer)) {k : LoopKind} {t b s : List Instr}
    {c : Option Reg} :
    Meets (test (.loop k t c b s) c instrs) (Obeyed strict (.test :: outer)) fun again rest =>
      (∀ part, Obeyed strict (part :: outer) rest) ∧ (again = none → rest = []) := by
  refine h.bind fun flow => ?_
  rcases flow with _ | _ | _ | _
  case jump.return => exact .pure fun rest h => by rw [h.2 rfl]; exact .nothing
  all_goals
    refine .step trivial (fun m rest hrest => ?_) fun _ _ h => h.1 .test
    exact ⟨.exec (by simp) hrest, by simp, fun word _ hreturn _ _ => .test hreturn rfl⟩

/-- A loop is left. -/
theorem leave : Meets (note .leave (pure .next))
    (fun rest => ∃ rest', rest = .leave :: rest' ∧ Obeyed strict outer rest') (Awaits strict outer) :=
  .note (.pure fun _ h => h.obeyed) fun rest h => ⟨rest, rfl, h⟩

/-- A loop goes on with its step, and then with its test. -/
theorem again {test : Watched (Option Bool)} {body step : Watched Flow} {fuel : Nat}
    (hstep : step.Obeys strict (.step :: outer)) (hpasses : step.Passes)
    (hloop : Meets (loop test body step fuel false)
      (fun rest => (∀ part, Obeyed strict (part :: outer) rest) ∧ ∀ e ∈ rest.head?, e = .enter .test)
      (Awaits strict outer)) :
    Meets ((note (.enter .step) step).bind fun
        | .jump .return => .pure (.jump .return)
        | _ => loop test body step fuel false)
      (fun rest => ∃ rest', rest = .enter .step :: rest' ∧ Obeyed strict (.step :: outer) rest' ∧
        Moves 0 (· = .enter .test) rest') (Awaits strict outer) := by
  refine Meets.bind (.note (hstep.and (hpasses 0 (· = .enter .test))) fun rest h => ⟨rest, rfl, h⟩) fun flow => ?_
  rcases flow with _ | _ | _ | _
  case jump.return =>
    refine .pure fun rest h => ?_
    rw [h.ended rfl]
    exact ⟨.nothing, Passes.moves_nil, fun _ => rfl⟩
  all_goals
    refine hloop.weaken fun rest h =>
      ⟨⟨h.1 .step, by simp, fun word _ hreturn _ _ => .step hreturn h.2⟩, ?_, by simp⟩
    cases rest with
    | nil => exact Passes.moves_nil
    | cons e rest =>
      obtain rfl := h.2 e rfl
      rintro e ⟨⟩
      rfl

/-- The passes of a loop. -/
theorem loop {test : Watched (Option Bool)} {body step : Watched Flow}
    (htest : Meets test (Obeyed strict (.test :: outer)) fun again rest =>
      (∀ part, Obeyed strict (part :: outer) rest) ∧ (again = none → rest = []))
    (hbody : body.Obeys strict (.body :: outer)) (hstep : step.Obeys strict (.step :: outer)) (hpasses : step.Passes)
    (fuel : Nat) (first : Bool) :
    Meets (loop test body step fuel first)
      (fun rest => (∀ part, Obeyed strict (part :: outer) rest) ∧
        (first = false → ∀ e ∈ rest.head?, e = .enter .test))
      (Awaits strict outer) := by
  induction fuel generalizing first with
  | zero =>
    intro m rest _ hnone
    rw [hnone (by intro a m' h; cases h)]
    exact ⟨fun _ => trivial, fun _ e he => by cases he⟩
  | succ fuel ih =>
    refine Meets.bind
      (Q := fun again rest => (∀ part, Obeyed strict (part :: outer) rest) ∧ (again = none → rest = [])) ?_ fun again => ?_
    · cases first
      · exact .note htest fun rest h => ⟨fun _ => .move rfl h, by simp⟩
      · exact .pure fun rest h => ⟨h.1, by simp⟩
    · rcases again with _ | _ | _
      · refine .pure fun rest h => ?_
        rw [h.ended rfl]
        exact ⟨fun _ => trivial, fun _ => rfl⟩
      · refine leave.weaken ?_
        rintro _ ⟨rest, rfl, h⟩
        exact ⟨fun _ => .move rfl h, by simp⟩
      · refine Meets.bind (.note hbody fun rest h => ⟨fun _ => .move rfl h, by simp⟩) fun flow => ?_
        have hagain := again hstep hpasses ((ih false).weaken fun rest h => ⟨h.1, h.2 rfl⟩)
        rcases flow with _ | _ | _ | _
        · refine hagain.weaken ?_
          rintro _ ⟨rest, rfl, h, -⟩
          exact .next (.move rfl h)
        · refine .pure fun rest h => ?_
          rw [h.ended rfl]
          exact .nothing
        · refine leave.weaken ?_
          rintro _ ⟨rest, rfl, h⟩
          exact ⟨.move rfl h, by simp, fun word hword _ _ _ => by cases hword; exact .break⟩
        · refine hagain.weaken ?_
          rintro _ ⟨rest, rfl, h, hmoves⟩
          exact ⟨.move rfl h, by simp, fun word hword _ _ _ => by cases hword; exact .continue hmoves⟩

end Obeys

end Watched

namespace Instr

variable {inBody : Bool}

mutual
/-- Whether no `break` and no `continue` in an instruction has the test or the step of a loop nearest around it;
`inBody` tells whether the instruction itself has the body of a loop nearest around it. -/
def jumpsPlaced (inBody : Bool) : Instr → Bool
  | jump word => word == .return || inBody
  | branch _ thenBody elseBody => jumpsPlacedAll inBody thenBody && jumpsPlacedAll inBody elseBody
  | loop _ test _ body step => jumpsPlacedAll false test && jumpsPlacedAll true body && jumpsPlacedAll false step
  | _ => true

/-- Whether no `break` and no `continue` in a body has the test or the step of a loop nearest around it. -/
def jumpsPlacedAll (inBody : Bool) : List Instr → Bool
  | [] => true
  | i :: rest => i.jumpsPlaced inBody && jumpsPlacedAll inBody rest
end

/-- A `break` or a `continue` that passes is in the body of a loop. -/
theorem check_jump {f : Frame} {inLoop : Bool} {word : Jump} (h : (jump word).check f inLoop = .ok ()) :
    word = .return ∨ inLoop = true := by
  have hoperands := ((check_leaf rfl).mp h).2
  cases inLoop with
  | true => exact .inr rfl
  | false => cases word <;> first | exact .inl rfl | cases hoperands

/-- The jumps of a body are placed if those of its first instruction and of the others are. -/
theorem jumpsPlacedAll_cons {i : Instr} {rest : List Instr} :
    jumpsPlacedAll inBody (i :: rest) = true ↔ i.jumpsPlaced inBody = true ∧ jumpsPlacedAll inBody rest = true := by
  rw [jumpsPlacedAll, Bool.and_eq_true]

/-- The jumps of a branch are placed if those of its bodies are. -/
theorem jumpsPlaced_branch {c : Reg} {t e : List Instr} :
    (branch c t e).jumpsPlaced inBody = true ↔
    jumpsPlacedAll inBody t = true ∧ jumpsPlacedAll inBody e = true := by
  rw [jumpsPlaced, Bool.and_eq_true]

/-- The jumps of a loop are placed if those of its parts are. -/
theorem jumpsPlaced_loop {k : LoopKind} {t b s : List Instr} {c : Option Reg} :
    (loop k t c b s).jumpsPlaced inBody = true ↔
      jumpsPlacedAll false t = true ∧ jumpsPlacedAll true b = true ∧ jumpsPlacedAll false s = true := by
  rw [jumpsPlaced, Bool.and_eq_true, Bool.and_eq_true, and_assoc]

/-- Code after code has its jumps placed if both have. -/
theorem jumpsPlacedAll_append {a b : List Instr} :
    jumpsPlacedAll inBody (a ++ b) = true ↔ jumpsPlacedAll inBody a = true ∧ jumpsPlacedAll inBody b = true := by
  induction a with
  | nil => simp [jumpsPlacedAll]
  | cons i rest ih => rw [List.cons_append, jumpsPlacedAll_cons, jumpsPlacedAll_cons, ih, and_assoc]

/-- Jumps that are placed outside of bodies are placed in them. -/
theorem jumpsPlacedAll_inBody {code : List Instr} (h : jumpsPlacedAll false code = true) :
    jumpsPlacedAll inBody code = true := by
  induction code using code_induction with
  | nil => rfl
  | leaf i rest hleaf ih =>
    obtain ⟨hi, hrest⟩ := jumpsPlacedAll_cons.mp h
    refine jumpsPlacedAll_cons.mpr ⟨?_, ih hrest⟩
    cases i <;> simp_all [jumpsPlaced, bodies]
  | branch c t e rest iht ihe ih =>
    obtain ⟨hi, hrest⟩ := jumpsPlacedAll_cons.mp h
    obtain ⟨ht, he⟩ := jumpsPlaced_branch.mp hi
    exact jumpsPlacedAll_cons.mpr ⟨jumpsPlaced_branch.mpr ⟨iht ht, ihe he⟩, ih hrest⟩
  | loop k t c b s rest _ _ _ ih =>
    obtain ⟨hi, hrest⟩ := jumpsPlacedAll_cons.mp h
    exact jumpsPlacedAll_cons.mpr ⟨hi, ih hrest⟩

/-- Code that passes, in the given parts of loops, has its jumps obeyed. -/
theorem watchedAll_obeys (types : Array Ty) (fuel : Nat) {strict : Prop} {code : List Instr} {f : Frame} {inLoop : Bool}
    {parts : List LoopPart} (hcheck : checkAll f inLoop code = .ok ()) (hloop : inLoop = true → parts ≠ [])
    (hplaced : strict → jumpsPlacedAll (parts.head? == some .body) code = true) :
    (watchedAll types fuel code).Obeys strict parts := by
  have hcons {i : Instr} {rest : List Instr} {parts : List LoopPart} (hi : (i.watched types fuel).Obeys strict parts)
      (hrest : (watchedAll types fuel rest).Obeys strict parts) : (watchedAll types fuel (i :: rest)).Obeys strict parts :=
    hi.sequence hrest fun _ h => .next h
  induction code using code_induction generalizing inLoop parts with
  | nil => exact .pure fun rest h => h.obeyed
  | leaf i rest hleaf hrest =>
    obtain ⟨hi, hcheck⟩ := checkAll_cons.mp hcheck
    refine hcons ?_ (hrest hcheck hloop fun h => (jumpsPlacedAll_cons.mp (hplaced h)).2)
    rw [watched_leaf hleaf]
    by_cases hjump : ∃ word, i = jump word
    · obtain ⟨word, rfl⟩ := hjump
      have hbody (h : strict) : word = .return ∨ parts.head? = some .body := by
        simpa [jumpsPlaced] using (jumpsPlacedAll_cons.mp (hplaced h)).1
      intro m rest hdone _
      have hawaits := hdone (.jump word) m rfl
      refine ⟨fun s word' hs hword => ?_, hawaits.obeyed⟩
      obtain rfl := Event.exec.inj hs
      obtain rfl := Instr.jump.inj hword
      refine ⟨?_, hbody⟩
      by_cases hreturn : word = .return
      · subst hreturn
        rw [hawaits.ended rfl]
        exact .return
      · exact hawaits.follows word rfl hreturn (hloop ((check_jump hi).resolve_left hreturn)) fun h =>
          (hbody h).resolve_left hreturn
    · refine .step trivial (fun m rest h => .exec (fun word hword => hjump ⟨word, hword⟩) h) fun _ _ h => h.obeyed
  | branch c t e rest ht he hrest =>
    obtain ⟨hi, hcheck⟩ := checkAll_cons.mp hcheck
    obtain ⟨-, hthen, helse⟩ := check_branch.mp hi
    refine hcons ?_ (hrest hcheck hloop fun h => (jumpsPlacedAll_cons.mp (hplaced h)).2)
    have hbodies (h : strict) := jumpsPlaced_branch.mp (jumpsPlacedAll_cons.mp (hplaced h)).1
    refine Watched.Meets.bind (.step trivial (fun m rest h => .exec (by simp) h) fun _ _ h => h) fun taken => ?_
    cases taken with
    | false => exact he helse hloop fun h => (hbodies h).2
    | true => exact ht hthen hloop fun h => (hbodies h).1
  | loop k t c b s rest ht hb hs hrest =>
    obtain ⟨hi, hcheck⟩ := checkAll_cons.mp hcheck
    obtain ⟨-, htest, hbody, hstep⟩ := check_loop.mp hi
    refine hcons ?_ (hrest hcheck hloop fun h => (jumpsPlacedAll_cons.mp (hplaced h)).2)
    have hparts (h : strict) := jumpsPlaced_loop.mp (jumpsPlacedAll_cons.mp (hplaced h)).1
    have htest : (watchedAll types fuel t).Obeys strict (.test :: parts) := ht htest (by simp) fun h => (hparts h).1
    have hbody : (watchedAll types fuel b).Obeys strict (.body :: parts) := hb hbody (by simp) fun h => (hparts h).2.1
    have hstep : (watchedAll types fuel s).Obeys strict (.step :: parts) := hs hstep (by simp) fun h => (hparts h).2.2
    exact .note (Watched.Obeys.loop htest.test hbody hstep (watchedAll_passes types fuel s) _ _) fun rest h =>
      .move rfl (h.1 .test)

end Instr

/-- The events of running a program on an element. -/
def Program.events (p : Program) (fuel : Nat) (state : ElementState) : List Event :=
  (Instr.watchedAll p.code.regs fuel p.code.body).events (p.start state)

/-- The steps of a run are its events that are no moves through loops. -/
theorem Program.filterMap_events (p : Program) (fuel : Nat) (state : ElementState) :
    (p.events fuel state).filterMap Event.step? = p.steps fuel state :=
  (Instr.watchedAll_watches p.code.regs fuel p.code.body).steps _

/-- The jumps of a run are obeyed. -/
theorem Program.events_obeyed (p : Program) (fuel : Nat) (state : ElementState) :
    Event.Obeyed (Instr.jumpsPlacedAll false p.code.body = true) [] (p.events fuel state) := by
  have hobeys : (Instr.watchedAll p.code.regs fuel p.code.body).Obeys (Instr.jumpsPlacedAll false p.code.body = true) [] :=
    Instr.watchedAll_obeys p.code.regs fuel p.verified (by simp) fun h => h
  have hevents := hobeys (p.start state) [] (fun flow _ _ => ⟨trivial, fun _ => rfl, by simp⟩) fun _ => rfl
  rwa [List.append_nil] at hevents

end Elementwise
