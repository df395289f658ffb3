import Rtl.CommandLine

/-!
The program: it reads the configuration file that an invocation names, runs the invocation and writes what it leaves
behind.
-/
namespace Rtl.CommandLine

def openFailure (path : String) (e : IO.Error) : String :=
  match e with
  | .noFileOrDirectory _ _ _ => "open " ++ path ++ ": no such file or directory"
  | .permissionDenied _ _ _ => "open " ++ path ++ ": permission denied"
  | .inappropriateType _ _ _ => "open " ++ path ++ ": is a directory"
  | _ => "open " ++ path ++ ": " ++ toString e

def readConfig (path : String) : IO (Except String String) := do
  try return .ok (← IO.FS.readFile path) catch e => return .error (openFailure path e)

def store (o : Outcome) : IO Outcome := do
  match o.written with
  | none => return o
  | some (path, lines) =>
    try
      IO.FS.writeFile path (String.join (lines.map (· ++ "\n")))
      return o
    catch e => return o.notWritten (openFailure path e)

def execute (words : List String) : IO Outcome := do
  match Invocation.parse words with
  | .error e => return .failure e.message
  | .ok invocation =>
    let file ← match invocation.configPath? with
      | some path => readConfig path
      | none => pure (.ok "")
    store (invocation.run file)

end Rtl.CommandLine

def main (args : List String) : IO UInt32 := do
  let o ← Rtl.CommandLine.execute args
  for line in o.stdout do IO.println line
  for line in o.stderr do IO.eprintln line
  match o.failed with
  | none => return 0
  | some message =>
    IO.eprintln message
    return 1
