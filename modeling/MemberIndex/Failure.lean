import MemberIndex.Duration
import MemberIndex.Path.Basic

/-! # Failures

A task fails alone and is counted; a run fails as a whole. A stall is neither: the
call does not come back with an answer at all.
-/

namespace MemberIndex

inductive TaskError
  | invocation (program : String) (source : IoError)
  | reading (source : IoError)
  | timeout (limit : Duration)
  | identity (path : Path)
deriving DecidableEq

namespace TaskError

def kind : TaskError → String
  | invocation .. => "ToolInvocationError"
  | reading .. => "ExtractionIOError"
  | timeout .. => "ToolTimeout"
  | identity .. => "IdentityError"

def source? : TaskError → Option IoError
  | invocation _ e | reading e => some e
  | _ => none

def message : TaskError → String
  | invocation program e => "failed to start " ++ program ++ ": " ++ e.text
  | reading e => "failed to read disassembly output: " ++ e.text
  | timeout limit => "disassembler did not finish within " ++ limit.text
  | identity path => path.display ++ " is not under the scan root"

end TaskError

/-- The part of a run that failed. Two more failures are left out: a pool whose threads the machine
does not grant, and a pattern that does not compile, since the patterns are fixed ones that do. -/
inductive RunStage
  | discovery
  | transcript
  | report
deriving DecidableEq

structure RunError where
  stage : RunStage
  path : Path
  source : IoError
deriving DecidableEq

namespace RunError

def message (e : RunError) : String :=
  (match e.stage with
    | .discovery => "cannot read scan root "
    | .transcript => "cannot write transcript log "
    | .report => "cannot write report ") ++ e.path.display ++ ": " ++ e.source.text

end RunError

/-- Why a call never answers: the clock cannot name its deadline, or nothing that
it waits for will happen. -/
inductive Stall
  | clockOverflow
  | endless
deriving DecidableEq

namespace Stall

def message : Stall → String
  | clockOverflow => "overflow when adding duration to instant"
  | endless => "waiting for a tool that never ends"

end Stall

end MemberIndex
