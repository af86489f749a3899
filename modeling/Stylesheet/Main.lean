import Stylesheet.Command

/-!
The program: reads its command line, carries the command out on the real files and prints what it
reports.
-/

namespace Stylesheet

/-- What an error in reading a file says about its path. A path that leads through a file or is too
long leads nowhere; the reading of a folder fails once it is open, without its name. -/
def Source.ofError : IO.Error → Source
  | .noFileOrDirectory .. | .inappropriateType (some _) .. | .invalidArgument .. => .missing
  | _ => .unreadable

instance : Files IO where
  read path := do
    try return .bytes (← IO.FS.readBinFile path)
    catch error => return Source.ofError error
  create path := do
    try
      IO.FS.writeBinFile path .empty
      return true
    catch _ => return false
  write path content := IO.FS.writeBinFile path content
  remove path := do
    try IO.FS.removeFile path
    catch _ => return ()

def Report.print (report : Report) : IO UInt32 := do
  let stdout ← IO.getStdout
  stdout.write report.stdout
  stdout.flush
  let text := report.stderr
  (← IO.getStderr).putStr (if text.isEmpty || text.endsWith "\n" then text else text ++ "\n")
  return report.exit.toUInt32

end Stylesheet

def main (arguments : List String) : IO UInt32 := do
  let report : Stylesheet.Report ← Stylesheet.execute arguments
  report.print
