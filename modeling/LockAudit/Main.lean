import LockAudit.CommandLine.Run
import Std.Time

/-! # The program

A session on the machine itself. The analysis of a file sees the clock as it stands when it begins, so a
time budget does not run out within one file.
-/

namespace LockAudit.CommandLine

/-- Reads a file from the disk. Where the way to it leads through something that is no directory, the
fault is one of opening it, and a directory itself is opened but not read. -/
def readContents (path : PathName) : IO (Except Crash Contents) := do
  if isLonger path.render nameLimit || path.parts.any fun part => isLonger part partLimit then
    return .error (.file (.tooLong path.render))
  try
    return .ok (.text (Text.ofPlain (← IO.FS.readFile (Text.toPlain path.render))))
  catch
    | .noFileOrDirectory .. | .invalidArgument .. | .inappropriateType (some _) .. => return .ok .missing
    | .inappropriateType none .. =>
      return .ok (.unreadable (FileError.isDirectory path.render).message)
    | e => return .ok (.unreadable (toString e))

def moments : IO (String × String) := do
  let now ← Std.Time.PlainDateTime.now
  return (now.format "uuuu-MM-dd HH:mm:ss", now.format "uuuu-MM-dd'T'HH:mm:ss.SSSSSS")

def secondsOf (nanoseconds : Nat) : Binary64 :=
  Binary64.ofRatio false nanoseconds 1000000000

def timedWork (work : Walk.Clock → Except Crash FileResult) :
    IO (Except Crash (FileResult × FileTiming)) := do
  let start ← IO.monoNanosNow
  let clock : Walk.Clock := { readings := [.real (secondsOf start)] }
  let result ← IO.lazyPure fun _ => work clock
  let seconds := secondsOf ((← IO.monoNanosNow) - start)
  let (moment, _) ← moments
  return result.map fun r => (r, { clock, seconds, moment })

def writeTexts (texts : List (String × String)) : IO (Except Crash (List (List String × String))) := do
  if texts.all fun t => Text.isWhole t.2 then
    texts.forM fun t => IO.FS.writeFile (Text.toPlain t.1) (Text.toPlain t.2)
    return .ok []
  else return .error .unencodable

def machine : Host (ExceptT Crash IO) where
  read path := .mk (readContents path)
  timed _ work := .mk (timedWork work)
  timestamp := do return (← moments).2
  write texts := .mk (writeTexts texts)

def noticeText (moment : String) : Notice → String
  | .usage program complaint => program ++ ": error: " ++ complaint
  | .line text => text
  | .log r => moment ++ " " ++ r.level.name ++ " " ++ r.source ++ ": " ++ r.message
  | .trace => "(no trace is kept)"

def emit (outcome : Outcome) : IO UInt32 := do
  let (moment, _) ← moments
  outcome.notices.forM fun n => IO.eprintln (Text.toPlain (noticeText moment n))
  IO.print (Text.toPlain outcome.output)
  return outcome.exit.toUInt32

end LockAudit.CommandLine

open LockAudit LockAudit.CommandLine in
def main (words : List String) : IO UInt32 := do
  let environment : Environment :=
    { flags := (← IO.getEnv "LOCKGUARD_FLAGS").map Text.ofPlain
      log := (← IO.getEnv "LOCKGUARD_LOG").map Text.ofPlain }
  match ← machine.run environment (words.map Text.ofPlain) with
  | .ok outcome => emit outcome
  | .error crash =>
    IO.eprintln (Text.toPlain crash.message)
    return 1
