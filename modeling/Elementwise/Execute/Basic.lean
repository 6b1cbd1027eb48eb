import Elementwise.Code.Machine
import Elementwise.Compile.Basic
import Elementwise.DataSet.Points
import Elementwise.DataSet.Volumes
import Elementwise.Execute.Bind

/-!
# Running a program over a data set

The chosen elements are run in chunks: the elements of a chunk are all read, then run, then what
they wrote is put back in order. Before each chunk the host is asked whether to go on. Elements of
a chunk do not see what others of it write, so it makes no difference to the data in which order they
run, or whether a pool runs them at the same time.
-/

namespace Elementwise

/-- Why an execution ends early. -/
inductive ExecuteError where
  | binding (cause : BindingError)
  | interrupted (completed total : Nat)
  | selectionOutOfRange (index size : Nat)
  /-- An element failed. -/
  | fault (cause : Fault)
  /-- An element used up its fuel. -/
  | exhausted
  deriving DecidableEq, Repr

/-- The text of an error. -/
def ExecuteError.message : ExecuteError → String
  | binding cause => cause.message
  | interrupted completed total =>
    "execution interrupted after " ++ Nat.repr completed ++ " of " ++ Nat.repr total ++ " elements"
  | selectionOutOfRange index size =>
    "selection index " ++ Nat.repr index ++ " is out of range for " ++ Nat.repr size ++ " elements"
  | fault (.register reg) => "register " ++ reg.text ++ " does not exist"
  | fault (.native name) => "'" ++ name ++ "' failed"
  | exhausted => "out of fuel"

/-- Run a program on elements one after another, up to the first that does not end: what they
printed, and how they ended. -/
def Program.runAll (p : Program) (fuel : Nat) : List ElementState → List String × Except ExecuteError (List ElementState)
  | [] => ([], .ok [])
  | s :: rest =>
    match p.run fuel s with
    | .done _ m =>
      let (printed, result) := p.runAll fuel rest
      (m.printed ++ printed, result.map fun states => m.state :: states)
    | .failed fault m => (m.printed, .error (.fault fault))
    | .exhausted => ([], .error .exhausted)

/-- A way to run a program on elements: what they printed, and how they ended. -/
abbrev Evaluation := Program → Nat → List ElementState → List String × Except ExecuteError (List ElementState)

/-- Elements are run as if they were alone. If all of them end, they end as they do one after another, and have printed
the same, in some order. If not, the run ends as it does one after another in some order. -/
structure Evaluation.Isolates (evaluate : Evaluation) : Prop where
  ended {p : Program} {fuel : Nat} {start final : List ElementState} : (p.runAll fuel start).2 = .ok final →
    (evaluate p fuel start).2 = .ok final ∧ (evaluate p fuel start).1.Perm (p.runAll fuel start).1
  failed {p : Program} {fuel : Nat} {start : List ElementState} {e : ExecuteError} :
    (p.runAll fuel start).2 = .error e → ∃ e' order, (evaluate p fuel start).2 = .error e' ∧
      order.Perm start ∧ (p.runAll fuel order).2 = .error e'

/-- What runs elements at the same time. -/
structure Pool where
  evaluate : Evaluation
  isolates : evaluate.Isolates

/-- What an execution is set to. -/
structure ExecuteOptions where
  /-- The positions of the elements to run, if not all. -/
  selection : Option (List Nat) := none
  /-- Whether the elements of a chunk may be run at the same time. -/
  parallel : Bool := false
  /-- What runs those of the `n`th chunk then. -/
  pool : Nat → Pool := fun _ => ⟨Program.runAll, fun h => ⟨h, .refl _⟩, fun h => ⟨_, _, h, .refl _, h⟩⟩
  chunkSize : Nat := 1024
  /-- Whether the host stops the run when it is asked for the `n`th time. -/
  interrupt : Option (Nat → Bool) := none

/-- The summary text of options. -/
def ExecuteOptions.text (o : ExecuteOptions) : String :=
  let selection := match o.selection with
    | none => "None"
    | some positions => "Some([" ++ String.intercalate ", " (positions.map Nat.repr) ++ "])"
  let yes (b : Bool) := if b then "true" else "false"
  "ExecuteOptions \x7b selection: " ++ selection ++ ", parallel: " ++ yes o.parallel ++ ", chunk_size: " ++
    Nat.repr o.chunkSize ++ ", interrupt: " ++ yes o.interrupt.isSome ++ " \x7d"

/-- How the elements of the `n`th chunk are run. -/
def ExecuteOptions.evaluate (o : ExecuteOptions) (n : Nat) : Evaluation :=
  if o.parallel then (o.pool n).evaluate else Program.runAll

/-- What a completed execution did. -/
structure Report where
  processed : Nat := 0
  chunks : Nat := 0
  created : List String := []
  deriving DecidableEq, Repr

/-- An execution: the data set it leaves, what was printed, how often the host was asked whether to
stop, and how it ended. -/
structure Execution (D : Type) where
  data : D
  printed : List String := []
  polls : Nat := 0
  result : Except ExecuteError Report

/-- Divide elements into chunks of a size, which is at least one. -/
def chunksOf {E : Type} (size : Nat) : List E → List (List E)
  | [] => []
  | e :: rest => (e :: rest.take (size - 1)) :: chunksOf size (rest.drop (size - 1))
termination_by elements => elements.length
decreasing_by simp only [List.length_drop, List.length_cons]; omega

/-- The elements at chosen positions. -/
def select {E : Type} (elements : List E) : Option (List Nat) → Except ExecuteError (List E)
  | none => .ok elements
  | some positions => positions.mapM fun i =>
    match elements[i]? with
    | some e => .ok e
    | none => .error (.selectionOutOfRange i elements.length)

section

variable {D E : Type} [DataSet D E]

/-- The state in which an element is run. -/
def gather (handles : List Handle) (data : D) (e : E) : ElementState :=
  .start (handles.map fun handle => DataSet.read data handle e).toArray (DataSet.coord D e)

/-- Put back what an element wrote. -/
def scatter (targets : List (Option Handle)) (data : D) (e : E) (state : ElementState) : D :=
  state.changes.foldl
    (fun data (slot, value) =>
      match targets[slot]?.join with
      | some handle => DataSet.write data handle e value
      | none => data)
    data

/-- How a bound program is run. -/
structure Plan where
  program : Program
  handles : List Handle
  targets : List (Option Handle)
  options : ExecuteOptions
  fuel : Nat
  /-- The number of elements. -/
  total : Nat

/-- An execution in progress. -/
structure Progress (D : Type) where
  data : D
  printed : List String := []
  polls : Nat := 0
  processed : Nat := 0
  chunks : Nat := 0

/-- End an execution. -/
def Progress.finish (s : Progress D) (result : Except ExecuteError Report) : Execution D :=
  { data := s.data, printed := s.printed, polls := s.polls, result }

/-- Ask the host whether to stop. -/
def Progress.poll (s : Progress D) (interrupt : Option (Nat → Bool)) : Bool × Progress D :=
  match interrupt with
  | some stops => (stops s.polls, { s with polls := s.polls + 1 })
  | none => (false, s)

/-- Run chunks one after another. -/
def Plan.runChunks (plan : Plan) : List (List E) → Progress D → Execution D
  | [], s => s.finish (.ok { processed := s.processed, chunks := s.chunks })
  | chunk :: rest, s =>
    match s.poll plan.options.interrupt with
    | (true, s) => s.finish (.error (.interrupted s.processed plan.total))
    | (false, s) =>
      match plan.options.evaluate s.chunks plan.program plan.fuel (chunk.map (gather plan.handles s.data)) with
      | (printed, .error e) => { s with printed := s.printed ++ printed }.finish (.error e)
      | (printed, .ok states) =>
        let data := (chunk.zip states).foldl
          (fun data (e, state) => scatter plan.targets data e state) s.data
        plan.runChunks rest
          { data, printed := s.printed ++ printed, polls := s.polls,
            processed := s.processed + chunk.length, chunks := s.chunks + 1 }

/-- Run a bound program on elements. -/
def Executable.runOn (exe : Executable) (options : ExecuteOptions) (fuel : Nat) (b : Binding D)
    (elements : List E) : Execution D :=
  let plan : Plan :=
    { program := exe.program
      handles := b.handles
      targets := exe.registry.writeTargets b.handles
      options
      fuel
      total := elements.length }
  let run := plan.runChunks (chunksOf options.chunkSize elements) { data := b.data }
  { run with result := run.result.map fun report => { report with created := b.created } }

end

/-- Run a program once per chosen point; the choice is checked before the fields are bound. -/
def Executable.runPoints (exe : Executable) (data : PointSet) (options : ExecuteOptions) (fuel : Nat) :
    Execution PointSet :=
  match select (List.range data.size) options.selection with
  | .error e => { data, result := .error e }
  | .ok points =>
    match Binding.ofRegistry exe.registry data with
    | (b, some e) => { data := b.data, result := .error (.binding e) }
    | (b, none) => exe.runOn options fuel b points

/-- The voxels a program runs on: those active in a grid that it writes, or in any of its grids if
it writes none, in the order of their coordinates. -/
def iterated (registry : Registry) (b : Binding VolumeSet) : List Coord :=
  let written := (registry.writeTargets b.handles).filterMap id
  let grids := if written.isEmpty then b.handles else written
  let voxels := (grids.flatMap b.data.active).foldl (fun voxels c => Grid.insertVoxel c .void voxels) []
  voxels.map Prod.fst

/-- Run a program once per chosen voxel; the choice is among the voxels it runs on, once the fields
are bound. -/
def Executable.runVolumes (exe : Executable) (data : VolumeSet) (options : ExecuteOptions) (fuel : Nat) :
    Execution VolumeSet :=
  match Binding.ofRegistry exe.registry data with
  | (b, some e) => { data := b.data, result := .error (.binding e) }
  | (b, none) =>
    match select (iterated exe.registry b) options.selection with
    | .error e => { data := b.data, result := .error e }
    | .ok voxels => exe.runOn options fuel b voxels

end Elementwise
