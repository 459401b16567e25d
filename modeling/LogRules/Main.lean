import LogRules.Command
import Std.Time.DateTime.Timestamp

/-!
The program: reads the files that the command names, runs it, and prints its outcome.
-/
namespace LogRules

-- The instance of the core library, whatever else a file has in scope.
attribute [local instance (high)] instPowNat

/-- The contents of those files that can be read. -/
def readableFiles (paths : List String) : IO (List (String × String)) :=
  paths.filterMapM fun (path : String) => do
    try
      return some (path, ← IO.FS.readFile path)
    catch _ => return none

/-- An identifier of random bits, marked as such. -/
def freshId : IO MessageId := do
  let bytes ← IO.getRandomBytes 16
  let bits := bytes.toList.foldl (fun n byte => 256 * n + byte.toNat) 0
  let random := BitVec.ofNat 128 bits
  let cleared := random &&& ~~~(BitVec.ofNat 128 (0xf * 2 ^ (76 : Nat) + 0x3 * 2 ^ (62 : Nat)))
  return ⟨cleared ||| BitVec.ofNat 128 (0x4 * 2 ^ (76 : Nat) + 0x2 * 2 ^ (62 : Nat))⟩

def currentInstant : IO Instant := do
  let now ← Std.Time.Timestamp.now
  let nanos := now.toNanosecondsSinceUnixEpoch.val
  return ⟨nanos / 1000000000, (nanos % 1000000000).toNat⟩

end LogRules

open LogRules in
def main (args : List String) : IO UInt32 := do
  match Command.Request.ofArgs? args with
  | none =>
    IO.eprintln ("usage: check FILE... | fmt FILE | simulate --message JSON [--rules FILE...] " ++
      "[--pipeline FILE...] [--stream NAME] [--run NAME] [--config FILE]")
    return 2
  | some request =>
    let files ← readableFiles request.paths
    let world : Command.World :=
      { file? := fun path => (files.find? (·.1 == path)).map (·.2)
        registry := .builtin 1
        id := ← freshId
        timestamp := ← currentInstant }
    let outcome := request.run world
    outcome.output.forM IO.println
    match outcome.error with
    | none => return 0
    | some error =>
      IO.eprintln s!"Error: {error}"
      return 1
