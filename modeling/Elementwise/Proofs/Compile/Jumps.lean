import Elementwise.Proofs.Compile.Sound
import Elementwise.Proofs.Generate.Jumps
import Elementwise.Proofs.Optimize.Preservation

/-!
# Jumps take effect

What follows the jumps of a run, for every program that passes verification. In the body of a loop a `break`
leaves the loop and a `continue` goes on with its step and its test. Verification also lets them stand in the
test or the step of a loop inside another, and there they have no effect but to end that part. Compiled trees
have none in a test, and have one in a step only where the tree has one.
-/

namespace Elementwise

/-- Where jumps stand is a property that code has by its instructions, in the bodies of loops and elsewhere. -/
theorem Instr.compositional_jumpsPlaced : Compositional fun inBody code => jumpsPlacedAll inBody code = true where
  nil := rfl
  cons {_ i _} := by rw [← List.singleton_append, jumpsPlacedAll_append]
  const _ _ _ := rfl
  branch h := by
    obtain ⟨ht, he⟩ := jumpsPlaced_branch.mp (jumpsPlacedAll_cons.mp h).1
    exact ⟨ht, he, fun _ _ ht he => jumpsPlacedAll_cons.mpr ⟨jumpsPlaced_branch.mpr ⟨ht, he⟩, rfl⟩⟩
  loop h := by
    obtain ⟨ht, hb, hs⟩ := jumpsPlaced_loop.mp (jumpsPlacedAll_cons.mp h).1
    exact ⟨_, _, _, ht, hb, hs, fun _ _ _ ht hb hs => jumpsPlacedAll_cons.mpr ⟨jumpsPlaced_loop.mpr ⟨ht, hb, hs⟩, rfl⟩⟩

namespace Code

/-- No `break` and no `continue` of the code has the test or the step of a loop nearest around it. -/
def JumpsPlaced (c : Code) : Prop := Instr.jumpsPlacedAll false c.body = true

/-- Passes leave jumps where they are. -/
theorem JumpsPlaced.optimize {c : Code} (h : c.JumpsPlaced) (level : OptLevel) : (c.optimize level).JumpsPlaced :=
  optimize_induction
    (fun pass hpass c hc => Instr.compositional_jumpsPlaced.thins (thinned_of_mem_passes pass hpass c).body hc) h

end Code

/-- A jump of a lowered program stands where the program has one. -/
theorem Lowers.misplaces {t t' : Term} (h : Lowers t t') {inBody : Bool} (hjump : t'.Misplaces inBody) :
    t.Misplaces inBody := by
  induction h generalizing inBody with
  | missing => simp at hjump
  | lookup => cases hjump
  | node hshape h ih =>
    obtain ⟨z, rfl, rfl, hz⟩ := Node.exists_zip_of_forall hshape ih
    cases z with
    | block statements =>
      rw [Node.map_block, Term.misplaces_block] at hjump ⊢
      obtain ⟨s, hs, hjump⟩ := hjump
      obtain ⟨p, hp, rfl⟩ := List.mem_map.mp hs
      exact ⟨p.1, List.mem_map_of_mem hp, hz p hp hjump⟩
    | conditional test thenBranch elseBranch =>
      cases hjump with
      | thenBranch hjump => exact .thenBranch (hz thenBranch (by simp) hjump)
      | elseBranch hjump => exact .elseBranch (hz elseBranch (by simp) hjump)
    | loop kind start test step body =>
      rw [Node.map_loop, Term.misplaces_loop] at hjump ⊢
      refine hjump.imp (fun hstart => ?_) (Or.imp (fun hstep => ?_) fun hbody => ?_)
      · obtain ⟨s, hs, hjump⟩ := hstart
        obtain ⟨p, rfl, rfl⟩ := Option.map_eq_some_iff.mp hs
        exact ⟨p.1, rfl, hz p (by simp) hjump⟩
      · obtain ⟨s, hs, hjump⟩ := hstep
        obtain ⟨p, rfl, rfl⟩ := Option.map_eq_some_iff.mp hs
        exact ⟨p.1, rfl, hz p (by simp) hjump⟩
      · exact hz body (by simp) hbody
    | jump word =>
      cases hjump with
      | jump hword => exact .jump hword
    | _ => cases hjump

/-- A compiled tree has its jumps in the bodies of loops if the tree has. -/
theorem Tree.jumpsPlaced_of_compile {t : Tree} {map : SourceMap} {target : Target} {options : CompileOptions}
    {e : Executable} (h : t.compile map target options = .ok e) (hlibrary : options.library.Placing)
    (hplaced : ¬t.program.Misplaces false) : e.program.code.JumpsPlaced := by
  obtain ⟨-, program, spanOf, scopes, b, hlowers, hissues, hcompile, -⟩ := compile_eq_ok h
  have hjumps : ∀ t ∈ (Generate.Phrase.one program).terms, ¬t.Misplaces false := by
    simpa [Generate.Phrase.terms] using fun hjump => hplaced (hlowers.misplaces hjump)
  obtain ⟨code, hadds, hcode⟩ := hissues.places hlibrary hjumps
  rw [Code.code_of_compile hcompile]
  refine Code.JumpsPlaced.optimize ?_ _
  rw [Code.JumpsPlaced, hadds.finish.1]
  exact hcode

/-- A `break` leaves the innermost loop next; a `continue` makes it go on with its step, and after that with its
test. -/
def Event.TakesEffect (word : Jump) (rest : List Event) : Prop :=
  (word = .break → ∃ rest', rest = .leave :: rest') ∧
    (word = .continue → ∃ rest', rest = .enter .step :: rest' ∧ ∀ e ∈ nextMove? 0 rest', e = .enter .test)

/-- What follows a `break` or a `continue`, by the part of the innermost loop that it stands in. -/
theorem Event.Follows.part {parts : List LoopPart} {word : Jump} {rest : List Event} (h : Follows parts word rest)
    (hword : word ≠ .return) : ∃ part outer, parts = part :: outer ∧ (TakesEffect word rest ↔ part = .body) ∧
      (part = .test → ∃ look rest' k t c b u, rest = .exec look :: rest' ∧ look.instr = .loop k t c b u) ∧
      (part = .step → ∀ e ∈ rest.head?, e = .enter .test) := by
  cases h with
  | «return» => exact absurd rfl hword
  | «break» => exact ⟨.body, _, rfl, by simp [TakesEffect], by simp, by simp⟩
  | «continue» htest => exact ⟨.body, _, rfl, by simpa [TakesEffect] using htest, by simp, by simp⟩
  | test _ hloop =>
    refine ⟨.test, _, rfl, ?_, fun _ => ⟨_, _, _, _, _, _, _, rfl, hloop⟩, by simp⟩
    cases word <;> simp [TakesEffect] at hword ⊢
  | step _ htest =>
    refine ⟨.step, _, rfl, ?_, by simp, fun _ => htest⟩
    cases rest with
    | nil => cases word <;> simp [TakesEffect] at hword ⊢
    | cons e rest =>
      obtain rfl := htest e rfl
      cases word <;> simp [TakesEffect] at hword ⊢

/-- A `break` or a `continue` takes effect exactly if it stands in the body of the innermost loop around it. In the
test of that loop it is followed by a look at the condition, and in the step by the test; no other part has any in
code with placed jumps, as that of a tree that has none in a step. -/
theorem Program.jumps_take_effect (p : Program) (fuel : Nat) (state : ElementState) :
    (p.events fuel state).filterMap Event.step? = p.steps fuel state ∧
    (∀ before s rest word, p.events fuel state = before ++ .exec s :: rest → s.instr = .jump word →
      word ≠ .return →
      ∃ part outer, Event.around before = part :: outer ∧ (Event.TakesEffect word rest ↔ part = .body) ∧
        (part = .test → ∃ look rest' k t c b u, rest = .exec look :: rest' ∧ look.instr = .loop k t c b u) ∧
        (part = .step → ∀ e ∈ rest.head?, e = .enter .test) ∧
        (p.code.JumpsPlaced → part = .body)) ∧
    ∀ (t : Tree) map target options e, t.compile map target options = .ok e → e.program = p →
      options.library.Placing → ¬t.program.Misplaces false → p.code.JumpsPlaced := by
  refine ⟨p.filterMap_events fuel state, fun before s rest word hevents hs hword => ?_,
    fun t map target options e h he hlibrary hplaced => he ▸ t.jumpsPlaced_of_compile h hlibrary hplaced⟩
  have hobeyed := p.events_obeyed fuel state
  rw [hevents] at hobeyed
  obtain ⟨hfollows, hstrict⟩ := hobeyed.jump hs
  obtain ⟨part, outer, hparts, heffect, htest, hstep⟩ := hfollows.part hword
  refine ⟨part, outer, hparts, heffect, htest, hstep, fun hplaced => ?_⟩
  simpa [hparts, hword] using hstrict hplaced

/-- Two loops without conditions, with a `break` in the body of each: the inner loop is left, and then the outer one.
The code of a tree with a `break` and a `continue` in bodies has its jumps in bodies, at every level. -/
theorem Program.jumps_take_effect_nested :
    (∃ (p : Program) (state : ElementState) (before rest : List Event) (s : Step),
      p.events 1 state = before ++ .exec s :: rest ∧ s.instr = .jump .break ∧ rest.length = 3 ∧
        Event.TakesEffect .break rest) ∧
    let t := [Tree.Call.add (.jump .break), .add (.block [1]), .add (.loop .for none none none 2), .add (.jump .continue),
      .add (.block [3, 4]), .add (.loop .while none none none 5), .pushStatement 0 6].foldl Tree.Call.after (.empty 0)
    ∃ e, t.compile (.empty t) .points {} = .ok e ∧ ¬t.program.Misplaces false ∧ e.program.code.JumpsPlaced := by
  refine ⟨?_, ?_⟩
  · let inner : Instr := .loop .while [] none [.jump .break] []
    let outer : Instr := .loop .while [] none [inner, .jump .break] []
    let p : Program := ⟨⟨.points, #[], 0, [outer]⟩, rfl⟩
    let state := ElementState.start #[] none
    let m := p.start state
    let before : List Event := [.start, .enter .test, .exec ⟨m, outer⟩, .enter .body, .start, .enter .test,
      .exec ⟨m, inner⟩, .enter .body]
    have hevents : p.events 1 state =
        before ++ .exec ⟨m, .jump .break⟩ :: [.leave, .exec ⟨m, .jump .break⟩, .leave] := rfl
    obtain ⟨-, hjumps, -⟩ := p.jumps_take_effect 1 state
    obtain ⟨part, parts, -, heffect, -, -, hbody⟩ := hjumps before _ _ .break hevents rfl (by decide)
    exact ⟨p, state, before, _, _, hevents, rfl, rfl, heffect.mpr (hbody rfl)⟩
  · intro t
    have hplaced : ¬t.program.Misplaces false := by
      have hprogram : t.program = .node 0 (.block [.node 6 (.loop .while none none none (.node 5 (.block [
        .node 3 (.loop .for none none none (.node 2 (.block [.node 1 (.jump .break)]))),
        .node 4 (.jump .continue)])))]) := rfl
      rw [hprogram]
      simp
    have hok : (t.compile (.empty t) .points {}).isOk = true := by decide +kernel
    obtain ⟨e, h⟩ := exists_ok_of_isOk hok
    obtain ⟨-, -, hcompile⟩ := e.program.jumps_take_effect 0 (.start #[] none)
    exact ⟨e, h, hplaced, hcompile t _ _ _ e h rfl Library.standard_placing hplaced⟩

/-- A `break` in the step of a loop inside the body of another: it is executed, and the loop goes on with its test. -/
theorem Program.break_in_step_ignored :
    ∃ (p : Program) (state : ElementState) (before rest : List Event) (s : Step),
      p.events 2 state = before ++ .exec s :: rest ∧ s.instr = .jump .break ∧ Event.around before = [.step, .body] ∧
        rest.head? = some (.enter .test) ∧ ¬Event.TakesEffect .break rest := by
  let inner : Instr := .loop .while [] none [] [.jump .break]
  let outer : Instr := .loop .while [] none [inner] []
  let p : Program := ⟨⟨.points, #[], 0, [outer]⟩, rfl⟩
  let m := p.start (.start #[] none)
  let before : List Event := [.start, .enter .test, .exec ⟨m, outer⟩, .enter .body, .start, .enter .test,
    .exec ⟨m, inner⟩, .enter .body, .enter .step]
  let rest : List Event := [.enter .test, .exec ⟨m, inner⟩, .enter .body, .enter .step, .exec ⟨m, .jump .break⟩]
  refine ⟨p, .start #[] none, before, rest, ⟨m, .jump .break⟩, rfl, rfl, rfl, rfl, ?_⟩
  simp [Event.TakesEffect, rest]

end Elementwise
