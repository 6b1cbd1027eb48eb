import Elementwise.Code.Optimize
import Elementwise.Code.Verify
import Elementwise.Compile.External
import Elementwise.Compile.Generate
import Elementwise.Function.Standard
import Elementwise.Registry.Build

/-!
# Compiling a program

From a tree to a verified program: external lookups are replaced in a copy of the tree, the fields
are registered, code is generated, optimised and verified. Compilation stops after the first of
these that reports an error.
-/

namespace Elementwise

/-- What a compilation is set to. -/
structure CompileOptions where
  level : OptLevel := .fold
  library : Library := .standard
  custom : CustomData := {}
  /-- The most errors that are recorded. -/
  maxErrors : Option Nat := some 32
  /-- Whether warnings count as errors. -/
  promote : Bool := false

/-- How far a compilation came. -/
inductive Stage where
  | parsed
  | registered
  | generated
  deriving DecidableEq, Repr

/-- The name of a stage. -/
def Stage.name : Stage → String
  | parsed => "parsed"
  | registered => "registry built"
  | generated => "code generated"

/-- A compilation that reported errors, with the last stage that was completed. -/
structure CompileFailure where
  stage : Option Stage
  diagnostics : List Diagnostic

/-- A program that is ready to run, with its fields and the warnings of its compilation. -/
structure Executable where
  registry : Registry
  program : Program
  warnings : List Diagnostic

namespace Tree

/-- Stop a compilation. -/
def abort (stage : Stage) (sink : Sink) : Except CompileFailure Executable :=
  .error ⟨some stage, sink.diagnostics⟩

/-- Generate, optimise and verify the code of a tree whose fields are registered. -/
def compileRegistered (t : Tree) (map : SourceMap) (registry : Registry) (options : CompileOptions)
    (sink : Sink) : Except CompileFailure Executable :=
  let ctx : Context :=
    { registry, library := options.library, custom := options.custom, spanOf := map.lookup t }
  let (code, sink) := Code.generate ctx t.program sink
  if sink.hasFatal then abort .registered sink
  else
    match (code.optimize options.level).compile with
    | .ok program => .ok ⟨registry, program, sink.diagnostics⟩
    | .error e => abort .generated (sink.push (.error .backend e.message none))

/-- Compile a tree for a target; `map` has the spans of its nodes. -/
def compile (t : Tree) (map : SourceMap) (target : Target) (options : CompileOptions) :
    Except CompileFailure Executable :=
  let copy := t.copy (t.id + 1)
  let sink : Sink := { maxErrors := options.maxErrors, promote := options.promote }
  let lowered := Lowering.run copy (map.rebase copy) sink
  if lowered.sink.hasFatal then abort .parsed lowered.sink
  else
    let (registry, sink) := Registry.build lowered.tree target lowered.map lowered.sink
    if sink.hasFatal then abort .parsed sink
    else lowered.tree.compileRegistered lowered.map registry options sink

end Tree

end Elementwise
