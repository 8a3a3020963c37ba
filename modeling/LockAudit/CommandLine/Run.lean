import LockAudit.CommandLine.Session

/-! # Running a command line

From the words of a command line, the environment and the files to the outcome: exit code, both outputs
and the files written. A session runs on a host, which has the files and the clocks; a working directory
with given times is one.
-/

namespace LockAudit.CommandLine

structure Environment where
  flags : Option String := none
  log : Option String := none
  deriving Repr, DecidableEq, Inhabited

def helpText : String :=
  "usage: lockguard [-h] [--output OUTPUT] [--json JSON] [--ci-mode]\n" ++
  "                 [--max-probably MAX_PROBABLY] [--debug] [--quiet] [--version]\n" ++
  "                 [-k \x7bdeadlock\x7d] [-b] [-l CRATE_NAME_LIST]\n" ++
  "                 [--max-depth MAX_DEPTH] [--max-revisits MAX_REVISITS]\n" ++
  "                 [--max-paths MAX_PATHS]\n" ++
  "                 [--max-cycle-length MAX_CYCLE_LENGTH] [--workers WORKERS]\n" ++
  "                 [--time-budget TIME_BUDGET]\n" ++
  "                 [files ...]\n" ++
  "\n" ++
  "LockGuard: interprocedural static deadlock detector\n" ++
  "\n" ++
  "positional arguments:\n" ++
  "  files                 Program model JSON files to analyze\n" ++
  "\n" ++
  "options:\n" ++
  "  -h, --help            show this help message and exit\n" ++
  "  --output OUTPUT, -o OUTPUT\n" ++
  "                        Output file for the text report\n" ++
  "  --json JSON           Output JSON reports to file\n" ++
  "  --ci-mode             Run in CI mode with non-zero exit on findings\n" ++
  "  --max-probably MAX_PROBABLY\n" ++
  "                        Maximum allowed Probably findings (CI mode)\n" ++
  "  --debug               Enable debug logging and stack traces\n" ++
  "  --quiet, -q           Suppress non-essential output\n" ++
  "  --version             show program's version number and exit\n" ++
  "  -k \x7bdeadlock\x7d, --detector-kind \x7bdeadlock\x7d\n" ++
  "                        Detector to run\n" ++
  "  -b, --blacklist-mode  Treat --crate-name-list as a deny-list instead of an\n" ++
  "                        allow-list\n" ++
  "  -l CRATE_NAME_LIST, --crate-name-list CRATE_NAME_LIST\n" ++
  "                        Comma separated compilation unit names to allow (or\n" ++
  "                        deny with -b)\n" ++
  "  --max-depth MAX_DEPTH\n" ++
  "                        Maximum call depth\n" ++
  "  --max-revisits MAX_REVISITS\n" ++
  "                        Times a block or function may be revisited on one path\n" ++
  "  --max-paths MAX_PATHS\n" ++
  "                        Maximum lock paths per root\n" ++
  "  --max-cycle-length MAX_CYCLE_LENGTH\n" ++
  "                        Longest lock-order cycle to search for\n" ++
  "  --workers WORKERS     Threads used to enumerate roots\n" ++
  "  --time-budget TIME_BUDGET\n" ++
  "                        Stop starting new roots after this many seconds\n" ++
  "\n" ++
  "Examples:\n" ++
  "  lockguard model.json\n" ++
  "  lockguard --json reports.json --ci-mode unit_a.json unit_b.json\n" ++
  "  lockguard -b -l build_helpers --max-depth 8 model.json\n" ++
  "\n" ++
  "Analysis flags are also read from $LOCKGUARD_FLAGS; flags on the command line win.\n" ++
  "\n" ++
  "Exit Codes:\n" ++
  "  0: Success\n" ++
  "  1: More probable deadlocks than --max-probably (CI mode)\n" ++
  "  3: Analysis error\n"

def refused (complaints : List (String × String)) : Outcome :=
  { exit := 2, byArguments := true, notices := complaints.map fun c => .usage c.1 c.2 }

def beginSession (environment : Environment) (words : List String) :
    Except Crash (Except Outcome Session) :=
  match environmentFlags environment.flags with
  | .error e => .error (.environment e)
  | .ok flags =>
    match if flags.isEmpty then .ok {} else Flags.parse flags with
    | .error e =>
      .ok (.error (refused [("LOCKGUARD_FLAGS", e.message),
        ("lockguard", (FlagsError.grammar flags e).message)]))
    | .ok defaults =>
      match request defaults words with
      | .help => .ok (.error { exit := 0, byArguments := true, output := helpText })
      | .version =>
        .ok (.error { exit := 0, byArguments := true, output := s!"LockGuard {versionText}\n" })
      | .fault e => .ok (.error (refused [("lockguard", e.message)]))
      | .run arguments =>
        if arguments.files.isEmpty then .ok (.error { exit := 1, output := helpText })
        else
          match logLevel arguments environment.log with
          | .error e => .error (.level e)
          | .ok level =>
            match arguments.flags.settings.check with
            | .error e =>
              if e.isReported then
                .ok (.error { exit := 3, notices := [.line ("Error: " ++ e.message)] })
              else .error (.setting e)
            | .ok options => .ok (.ok { arguments, options, level })

/-! ### On a host -/

structure Host (m : Type → Type) where
  read : PathName → m Contents
  /-- Does the work on the file at a position, which takes readings of a clock, and times it. -/
  timed : Nat → (Walk.Clock → Except Crash FileResult) → m (FileResult × FileTiming)
  timestamp : m String
  /-- Writes texts by name in order, and gives those below the working directory. -/
  write : List (String × String) → m (List (List String × String))

namespace Host

variable {m : Type → Type} [Monad m] [MonadLiftT (Except Crash) m]

def takeFile (host : Host m) (s : Session) (n : String × Nat) : m Session := do
  if s.stopped then return s
  let path := PathName.parse n.1
  let contents ← host.read path
  let (result, timing) ← host.timed n.2 (s.examine path.render contents)
  liftM (s.absorb path.render timing result)

def takeFiles (host : Host m) (s : Session) : m Session :=
  s.arguments.files.zipIdx.foldlM host.takeFile s

def run (host : Host m) (environment : Environment) (words : List String) : m Outcome := do
  match ← liftM (beginSession environment words) with
  | .error outcome => return outcome
  | .ok session =>
    let session ← host.takeFiles session
    let (session, texts) := session.give (← host.timestamp)
    let written ← host.write texts
    liftM (session.finish written)

end Host

/-! ### In a working directory -/

def writeText (written : List (List String × String)) (place : List String) (text : String) :
    List (List String × String) :=
  if written.any fun w => w.1 == place then
    written.map fun w => if w.1 == place then (place, text) else w
  else written ++ [(place, text)]

/-- Writes files by name in order, and gives those below the working directory. A file that was written
stands in the way of a later one like any other. -/
def writeAll (files : FileTree) (texts : List (String × String)) :
    Except Crash (List (List String × String)) :=
  texts.foldlM (fun written t => do
    let now : FileTree := { entries := files.entries ++ written.map fun w => (w.1, .file w.2) }
    let place ← (now.placeFor t.1).mapError .file
    if !Text.isWhole t.2 then throw .unencodable
    match place with
    | .inside parts => return writeText written parts t.2
    | _ => return written) []

/-- Readings of the clocks for one session: those for the file at each position, and the moment of the JSON
document. -/
structure Timing where
  file : Nat → FileTiming
  timestamp : String

/-- A working directory, where the clocks show the given times. -/
def directory (files : FileTree) (timing : Timing) : Host (Except Crash) where
  read path := (files.read path).mapError .file
  timed position work := (work (timing.file position).clock).map fun result => (result, timing.file position)
  timestamp := .ok timing.timestamp
  write := writeAll files

def run (environment : Environment) (files : FileTree) (timing : Timing) (words : List String) :
    Except Crash Outcome :=
  (directory files timing).run environment words

end LockAudit.CommandLine
