import JsonTemplate.CommandLine.Outcome

namespace JsonTemplate

def readFile (path : String) : IO (Except FileError String) := do
  try
    let bytes ← IO.FS.readBinFile path
    return (String.fromUTF8? bytes).elim (.error .notText) .ok
  catch
    | .noFileOrDirectory _ _ _ => return .error .notFound
    | .permissionDenied _ _ _ => return .error .denied
    | .inappropriateType _ code _ =>
      return .error (if code = 21 then .isDirectory else .notDirectory)
    | e => return .error (.other (toString e))

end JsonTemplate

open JsonTemplate

def main (words : List String) : IO UInt32 := do
  let paths := match Command.ofWords words with
    | .ok c => c.files
    | .error _ => []
  let texts ← paths.mapM fun path => do
    let text ← readFile path
    pure (path, text)
  let outcome := Command.run (fun path => (texts.lookup path).getD (.error .notFound)) words
  IO.print outcome.stdout
  IO.eprint outcome.stderr
  return UInt32.ofNat outcome.status
