import MemberIndex.Duration
import MemberIndex.IoError

/-! # Behaviour of a tool

What a started tool does as far as its caller can see: how long it does nothing, the
bytes it prints, where reading them breaks off, and how it ends.
-/

namespace MemberIndex

inductive ExitStatus
  | code (n : Nat)
  | signal (n : Nat)
deriving DecidableEq

namespace ExitStatus

def killed : ExitStatus := .signal 9

def success (s : ExitStatus) : Bool := s = .code 0

def signalNames : Array String :=
  #["", "SIGHUP", "SIGINT", "SIGQUIT", "SIGILL", "SIGTRAP", "SIGABRT", "SIGBUS", "SIGFPE",
    "SIGKILL", "SIGUSR1", "SIGSEGV", "SIGUSR2", "SIGPIPE", "SIGALRM", "SIGTERM", "SIGSTKFLT",
    "SIGCHLD", "SIGCONT", "SIGSTOP", "SIGTSTP", "SIGTTIN", "SIGTTOU", "SIGURG", "SIGXCPU",
    "SIGXFSZ", "SIGVTALRM", "SIGPROF", "SIGWINCH", "SIGIO", "SIGPWR", "SIGSYS"]

def text : ExitStatus → String
  | code n => "exit status: " ++ toString n
  | signal n => "signal: " ++ toString n ++
      match signalNames[n]? with
      | some name => " (" ++ name ++ ")"
      | none => ""

end ExitStatus

/-- How a tool ends if nobody stops it. One that leaves a process behind closes its output, but
the process holds its diagnostics open and never ends; where it holds the output open as well, the
tool is no other to its caller than one that hangs, which does so with its output open. -/
inductive Ending
  | exits (status : ExitStatus)
  | leaves (status : ExitStatus)
  | hangs
  | closesAndHangs
deriving DecidableEq

/-- What a tool does that prints no more than finitely many bytes. -/
structure Behaviour where
  delay : Duration := ⟨0⟩
  output : List UInt8 := []
  fault : Option IoError := none
  diagnostics : List UInt8 := []
  ending : Ending := .exits (.code 0)
deriving DecidableEq

namespace Behaviour

/-- Whether a reader comes to the end of the output. -/
def closesOutput (b : Behaviour) : Bool := b.ending ≠ .hangs && b.fault.isNone

/-- What shows of a behaviour within a limit: nothing at all if the delay is longer. -/
def within (b : Behaviour) (limit : Option Duration) : Behaviour :=
  if limit.any (·.nanos < b.delay.nanos) then { ending := .hangs } else b

end Behaviour

structure Script where
  echoesArguments : Bool := false
  output : List UInt8 := []
  diagnostics : List UInt8 := []
  ending : Ending := .exits (.code 0)
deriving DecidableEq

namespace Script

def echo (arguments : List (List UInt8)) : List UInt8 :=
  "args=".toUTF8.toList ++ arguments.flatMap (fun a => 91 :: a ++ [93]) ++ [10]

def perform (s : Script) (arguments : List (List UInt8)) : Behaviour where
  output := (if s.echoesArguments then echo arguments else []) ++ s.output
  diagnostics := s.diagnostics
  ending := s.ending

end Script

end MemberIndex
