import Guion.CommandLine.Options
import Guion.Json.Printer
import Guion.Json.Reader
import Guion.Session
import Guion.Text.Digit
import Guion.Tree.Codec
import Guion.Tree.Reading
import Guion.Tree.Writing

namespace Guion.CommandLine

inductive Found where
  | nothing
  | directory
  | refused
  | file (bytes : ByteArray)

/-- The paths that were looked at and what there is. -/
abbrev Disk := List (String × Found)

def Disk.find (disk : Disk) (path : String) : Found :=
  (disk.lookup path).getD .nothing

def helpText : String :=
  "usage: espanolscript [-h] [-v] [--emit-ast ES_FILE | --ast AST_JSON_FILE | -i]\n" ++
  "                     [program]\n\n" ++
  "EspañolScript interpreter\n\n" ++
  "positional arguments:\n" ++
  "  program              EspañolScript program file (.es) to execute\n\n" ++
  "options:\n" ++
  "  -h, --help           show this help message and exit\n" ++
  "  -v                   increase debug verbosity (can be repeated)\n" ++
  "  --emit-ast ES_FILE   emit AST JSON for the given .es file\n" ++
  "  --ast AST_JSON_FILE  execute AST from a JSON file\n" ++
  "  -i, --interactivo    run lines typed on standard input\n"

/-- What ends the program itself rather than the run that it was asked for. -/
inductive Escape where
  | stuck (why : Stuck)
  | exhausted
  | overrun
  | unwritten
  | undecodable
  | directory
  | refused
deriving DecidableEq, Repr

/-- The visible effects of an invocation: the texts written, the files written, and the exit status
unless it broke off. -/
structure Report where
  stdout : String := ""
  stderr : String := ""
  files : List (String × String) := []
  status : Except Escape Nat := .ok 0

def debugFile : String := "debug.txt"

def depthLimit : Int := 1000

def Report.failed (message : String) : Report :=
  { stderr := message ++ "\n", status := .ok 1 }

def Report.escaped (why : Escape) : Report :=
  { status := .error why }

def textOf? (bytes : ByteArray) : Option String :=
  (String.fromUTF8? bytes).map fun text => String.ofList (unifyLines text.toList)

def traceFiles (verbosity : Nat) (text : String) : List (String × String) :=
  if 0 < verbosity then [(debugFile, text)] else []

/-- Run a program on the text of the terminal. The command line runs programs on a stack that holds
everything, and what is typed is text that a trace file can take. -/
def runProgram (fuel verbosity : Nat) (program : Program) (stdin : String) : Report :=
  let (r, m) := run fuel program (Machine.start (.terminal stdin) verbosity depthLimit)
  let report : Report :=
    { stdout := m.console.written, files := traceFiles verbosity (m.trace.textOf .file) }
  match r with
  | .ok () => report
  | .error (.fault cause place) =>
    { report with stderr := "Error de ejecución: " ++ cause.report place ++ "\n", status := .ok 1 }
  | .error (.stuck why) => { report with status := .error (.stuck why) }
  | .error .exhausted => { report with status := .error .exhausted }
  | .error .overrun => { report with status := .error .overrun }
  | .error .unwritten => { report with status := .error .unwritten }

inductive Unusable where
  | encoding
  | json
  | tree (cause : DecodeFault)
  | root
deriving DecidableEq, Repr

def Unusable.message : Unusable → String
  | encoding => "codificación incorrecta"
  | json => "JSON incorrecto"
  | tree cause => cause.message?.getD "nodo incorrecto"
  | root => "el nodo raíz debe ser Program"

def storedProgram (bytes : ByteArray) : Except Unusable (Except Stuck Program) :=
  match textOf? bytes with
  | none => .error .encoding
  | some text =>
    match Json.parse? text with
    | none => .error .json
    | some json =>
      match Tree.ofJson json with
      | .error cause => .error (.tree cause)
      | .ok tree =>
        match tree.isProgram, tree.program? with
        | true, some program => .ok program
        | _, _ => .error .root

def replay (fuel verbosity : Nat) (path : String) (bytes : ByteArray) (stdin : String) : Report :=
  match storedProgram bytes with
  | .error why => .failed ("Error: AST inválido en " ++ path ++ ": " ++ why.message)
  | .ok (.error why) => { files := traceFiles verbosity "", status := .error (.stuck why) }
  | .ok (.ok program) => runProgram fuel verbosity program stdin

def withProgram (bytes : ByteArray) (next : Program → Report) : Report :=
  match textOf? bytes with
  | none => .escaped .undecodable
  | some text =>
    match parse text with
    | .error e => .failed ("Error: " ++ e.report)
    | .ok program => next program

def targetOf (path : String) : String :=
  path ++ ".ast.json"

def emit (path : String) (program : Program) : Report :=
  let target := targetOf path
  { stdout := target ++ "\n", files := [(target, (Tree.ofProgram program).toJson.render)] }

structure Transcript where
  pending : List Char
  stdout : String := ""
  stderr : String := ""
  trace : String := ""

def takeLine (cs : List Char) : List Char × List Char :=
  let line := cs.takeWhile (· != '\n')
  (cs.take (line.length + 1), cs.drop (line.length + 1))

def banner : String :=
  "EspañolScript - modo interactivo\nEscribe 'salir' para terminar\n"

/-- Run one line as a program of its own. It may read what follows it. -/
def runLine (fuel verbosity : Nat) (line : List Char) (t : Transcript) :
    Except Escape Unit × Transcript :=
  match parse (String.ofList line) with
  | .error e => (.ok (), { t with stderr := t.stderr ++ "Error: " ++ e.report ++ "\n" })
  | .ok program =>
    let (r, m) :=
      run fuel program (Machine.start ⟨.stream, t.pending, ""⟩ verbosity depthLimit)
    let t : Transcript :=
      ⟨m.console.pending, t.stdout ++ m.console.written, t.stderr, t.trace ++ m.trace.textOf .file⟩
    match r with
    | .ok () => (.ok (), t)
    | .error (.fault cause place) =>
      (.ok (), { t with stderr := t.stderr ++ "Error: " ++ cause.report place ++ "\n" })
    | .error (.stuck why) => (.error (.stuck why), t)
    | .error .exhausted => (.error .exhausted, t)
    | .error .overrun => (.error .overrun, t)
    | .error .unwritten => (.error .unwritten, t)

def interactLines (fuel verbosity : Nat) : Nat → Transcript → Except Escape Unit × Transcript
  | 0, t => (.error .exhausted, t)
  | rounds + 1, t =>
    let t := { t with stdout := t.stdout ++ ">>> " }
    let (line, rest) := takeLine t.pending
    let t := { t with pending := rest }
    let word := Text.strip line
    if line = [] ∨ word = "salir".toList then
      (.ok (), { t with stdout := t.stdout ++ "¡Hasta luego!\n" })
    else if word = [] then interactLines fuel verbosity rounds t
    else
      match runLine fuel verbosity line t with
      | (.ok (), t) => interactLines fuel verbosity rounds t
      | (.error why, t) => (.error why, t)

def interact (fuel verbosity : Nat) (stdin : String) : Report :=
  let pending := unifyLines stdin.toList
  let (r, t) := interactLines fuel verbosity (pending.length + 1) { pending, stdout := banner }
  { stdout := t.stdout, stderr := t.stderr, files := traceFiles verbosity t.trace,
    status := r.map fun () => 0 }

def Report.onto (disk : Disk) (report : Report) : Report :=
  match report.files.map fun (path, _) => disk.find path with
  | .directory :: _ => .escaped .directory
  | .refused :: _ => .escaped .refused
  | _ => report

namespace Invocation

def path? (inv : Invocation) : Option String :=
  match inv.task with
  | .help => none
  | .interact => none
  | .emit path => some path
  | .replay path => some path
  | .run path => some path

def paths (inv : Invocation) : List String :=
  debugFile ::
    match inv.task with
    | .emit path => [path, targetOf path]
    | _ => inv.path?.toList

def reads (inv : Invocation) : Bool :=
  match inv.task with
  | .help => false
  | .interact => true
  | .emit _ => false
  | .replay _ => true
  | .run _ => true

def process (fuel : Nat) (inv : Invocation) (path : String) (bytes : ByteArray) (stdin : String) :
    Report :=
  match inv.task with
  | .emit _ => withProgram bytes (CommandLine.emit path)
  | .replay _ => CommandLine.replay fuel inv.verbosity path bytes stdin
  | _ => withProgram bytes fun program => runProgram fuel inv.verbosity program stdin

/-- Do what an invocation asks for, given what there is at its paths and the text typed. -/
def perform (fuel : Nat) (inv : Invocation) (disk : Disk) (stdin : String) : Report :=
  match inv.task, inv.path? with
  | .help, _ => { stdout := helpText }
  | _, none => (interact fuel inv.verbosity stdin).onto disk
  | _, some path =>
    match disk.find path with
    | .nothing => .failed ("Error: file " ++ path ++ " not found")
    | .directory => .escaped .directory
    | .refused => .escaped .refused
    | .file bytes => (inv.process fuel path bytes stdin).onto disk

end Invocation

def UsageError.report (e : UsageError) : Report :=
  { stderr := "espanolscript: error: " ++ e.message ++ "\n", status := .ok 2 }

end Guion.CommandLine
