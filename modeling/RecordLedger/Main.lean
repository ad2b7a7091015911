import RecordLedger.Command.Run
import RecordLedger.Store.Archive
import Std.Time.DateTime.Timestamp

/-!
The command line on a real directory. The files that a command may touch are read first, the command
runs on them, and those that it changed are written back.
-/

namespace RecordLedger.Command

def fileOf (text : String) : File :=
  match Store.ofArchive? text with
  | some s => .store s
  | none => .text text

def textOf : File → String
  | .text s => s
  | .store s => s.archive

/-- Adds what is at a path, and the directory around it. -/
def load (path : String) (d : Directory) : IO Directory := do
  match Directory.resolve? path with
  | none => return d
  | some ps =>
    let base ← IO.currentDir
    let place := base / path
    let around := (place.parent).getD base
    let d := if ← around.isDir then { d with directories := ps.dropLast :: d.directories } else d
    if ← place.isDir then return { d with directories := ps :: d.directories }
    else if ← place.pathExists then
      return (d.put? path (fileOf (← IO.FS.readFile place))).getD d
    else return d

def save (path : String) (before after : Directory) : IO Unit := do
  match after.file? path with
  | none => return ()
  | some file =>
    if before.file? path ≠ some file then
      IO.FS.writeFile ((← IO.currentDir) / path) (textOf file)

/-- The clock's reading and a new id. -/
def readSurroundings : IO Surroundings := do
  let nanos := (← Std.Time.Timestamp.now).toNanosecondsSinceUnixEpoch.val
  let bytes ← IO.getRandomBytes 10
  let chance := bytes.toList.foldl (fun n b => 256 * n + b.toNat) 0
  return {
    now := (Instant.ofMicros? (nanos / 1000)).getD .epoch
    fresh := .generated (nanos / 1000000).toNat chance }

def runHere (i : Invocation) : IO (Except Failure String) := do
  let before ← load i.settings .empty
  let store? := storePath? i before
  let before ← match store? with
    | some path => load path before
    | none => pure before
  let (result, after) := run (← readSurroundings) i before
  save i.settings before after
  match store? with
  | some path => save path before after
  | none => pure ()
  return result

end RecordLedger.Command

open RecordLedger in
def main (args : List String) : IO UInt32 := do
  let result ← match Command.Invocation.ofArguments args with
    | .error u => pure (.error (.usage u))
    | .ok i => Command.runHere i
  match result with
  | .ok output =>
    IO.print output
    return 0
  | .error (.usage u) =>
    if u.isRequest then IO.println u.message else IO.eprintln s!"error: {u.message}"
    return if u.isRequest then 0 else 2
  | .error e =>
    IO.eprintln s!"Error: {e.message}"
    return 1
