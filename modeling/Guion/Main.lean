import Guion.CommandLine.Report

namespace Guion.CommandLine

def readAll (stream : IO.FS.Stream) : IO String := do
  let mut text := ""
  repeat
    let line ← stream.getLine
    if line.isEmpty then break
    text := text ++ line
  return text

def lookAt (path : String) : IO Found := do
  try
    let bytes ← IO.FS.readBinFile path
    return .file bytes
  catch e =>
    match e with
    | .noFileOrDirectory .. => return .nothing
    | .inappropriateType .. => return .directory
    | _ => return .refused

def deliver (report : Report) : IO UInt32 := do
  for (path, text) in report.files do
    IO.FS.writeFile path text
  IO.print report.stdout
  IO.eprint report.stderr
  match report.status with
  | .ok status => return status.toUInt32
  | .error _ => return 1

end Guion.CommandLine

open Guion CommandLine in
/-- The program: looks at its paths and what is typed, and delivers the report. -/
def main (args : List String) : IO UInt32 := do
  match Invocation.ofArgs args with
  | .error e => deliver e.report
  | .ok inv =>
    let disk ← inv.paths.mapM fun path => return (path, ← lookAt path)
    let typed ← if inv.reads then readAll (← IO.getStdin) else pure ""
    deliver (inv.perform ampleFuel disk typed)
