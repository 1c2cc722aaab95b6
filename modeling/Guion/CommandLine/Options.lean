import Guion.Double.Read
import Guion.Text.Hidden

namespace Guion.CommandLine

def splitSlashes : List Char → List (List Char)
  | [] => [[]]
  | '/' :: cs => [] :: splitSlashes cs
  | c :: cs =>
    match splitSlashes cs with
    | part :: parts => (c :: part) :: parts
    | [] => [[c]]

/-- The leading slashes that a path keeps: two where there are exactly two, else one. -/
def rootOf : List Char → String
  | '/' :: '/' :: '/' :: _ => "/"
  | '/' :: '/' :: _ => "//"
  | '/' :: _ => "/"
  | _ => ""

def pathParts (path : String) : List String :=
  ((splitSlashes path.toList).map String.ofList).filter fun part => part != "" && part != "."

def normalPath (path : String) : String :=
  let text := rootOf path.toList ++ "/".intercalate (pathParts path)
  if text = "" then "." else text

inductive Flag where
  | help
  | verbose
  | emit
  | replay
  | interactive
deriving DecidableEq, Repr

namespace Flag

def spellings : List (String × Flag) :=
  [("-h", help), ("--help", help), ("-v", verbose), ("--emit-ast", emit), ("--ast", replay),
    ("-i", interactive), ("--interactivo", interactive)]

def name : Flag → String
  | help => "-h/--help"
  | verbose => "-v"
  | emit => "--emit-ast"
  | replay => "--ast"
  | interactive => "-i/--interactivo"

def takesValue : Flag → Bool
  | emit => true
  | replay => true
  | _ => false

def exclusive : List Flag :=
  [emit, replay, interactive]

end Flag

inductive UsageError where
  | ambiguous (given : String) (matching : List String)
  | noValue (flag : Flag)
  | needlessValue (flag : Flag) (value : String)
  | conflict (flag other : Flag)
  | unrecognized (given : List String)
  | noProgram
deriving DecidableEq, Repr

def UsageError.message : UsageError → String
  | .ambiguous given matching =>
    s!"ambiguous option: {given} could match " ++ ", ".intercalate matching
  | .noValue flag => s!"argument {flag.name}: expected one argument"
  | .needlessValue flag value =>
    s!"argument {flag.name}: ignored explicit argument {Text.shown value}"
  | .conflict flag other => s!"argument {flag.name}: not allowed with argument {other.name}"
  | .unrecognized given => "unrecognized arguments: " ++ " ".intercalate given
  | .noProgram => "missing program file; or use --emit-ast/--ast/--interactivo"

/-- A value written in one word with its option: after an equals sign, or right behind a short
option, where it may also be further short options. -/
structure Attached where
  afterEquals : Bool
  text : List Char
deriving DecidableEq, Repr

inductive Word where
  | plain
  | separator
  | option (flag : Flag) (short : Bool) (attached : Option Attached)
  | unknown
deriving DecidableEq, Repr

def splitEquals (cs : List Char) : List Char × Option (List Char) :=
  let before := cs.takeWhile (· != '=')
  match cs.drop before.length with
  | _ :: after => (before, some after)
  | [] => (before, none)

def isNegativeNumber : List Char → Bool
  | '-' :: cs =>
    let whole := cs.takeWhile Double.isDigit
    match cs.drop whole.length with
    | [] => !whole.isEmpty
    | '.' :: fraction => !fraction.isEmpty && fraction.all Double.isDigit
    | _ => false
  | _ => false

/-- The options that a word abbreviates, or that it begins with in their short form. -/
def candidates (cs : List Char) : List (String × Word) :=
  match cs with
  | '-' :: '-' :: _ =>
    let (start, value) := splitEquals cs
    (Flag.spellings.filter fun (spelling, _) => start.isPrefixOf spelling.toList).map
      fun (spelling, flag) => (spelling, .option flag false (value.map (⟨true, ·⟩)))
  | dash :: letter :: rest =>
    Flag.spellings.filterMap fun (spelling, flag) =>
      if spelling.toList = [dash, letter] then some (spelling, .option flag true (some ⟨false, rest⟩))
      else if cs.isPrefixOf spelling.toList then some (spelling, .option flag true none)
      else none
  | _ => []

def classify (word : String) : Except UsageError Word :=
  let cs := word.toList
  match Flag.spellings.lookup word, cs with
  | some flag, _ => .ok (.option flag (cs.length = 2) none)
  | none, ['-', '-'] => .ok .separator
  | none, '-' :: _ :: _ =>
    let (start, value) := splitEquals cs
    match value, Flag.spellings.lookup (String.ofList start) with
    | some value, some flag => .ok (.option flag (start.length = 2) (some ⟨true, value⟩))
    | _, _ =>
      match candidates cs with
      | [(_, found)] => .ok found
      | [] => .ok (if isNegativeNumber cs || cs.contains ' ' then .plain else .unknown)
      | several => .error (.ambiguous word (several.map Prod.fst))
  | none, _ => .ok .plain

def classifyAll : List String → Except UsageError (List (String × Word))
  | [] => .ok []
  | word :: words => do
    match ← classify word with
    | .separator => .ok ((word, .separator) :: words.map (·, .plain))
    | kind => do
      let rest ← classifyAll words
      .ok ((word, kind) :: rest)

structure Options where
  help : Bool := false
  verbosity : Nat := 0
  emit : Option String := none
  replay : Option String := none
  interactive : Bool := false
  program : Option (Option String) := none
  seen : List Flag := []
  extra : List String := []
deriving DecidableEq, Repr

namespace Options

def conflict? (o : Options) (flag : Flag) : Option Flag :=
  if Flag.exclusive.contains flag then
    Flag.exclusive.find? fun other => other != flag && o.seen.contains other
  else none

def set (o : Options) (flag : Flag) (value : String) : Options :=
  let o := { o with seen := flag :: o.seen }
  match flag with
  | .help => { o with help := true }
  | .verbose => { o with verbosity := o.verbosity + 1 }
  | .emit => { o with emit := some value }
  | .replay => { o with replay := some value }
  | .interactive => { o with interactive := true }

def take (o : Options) (flag : Flag) (value : String) : Except UsageError Options :=
  match o.conflict? flag with
  | some other => .error (.conflict flag other)
  | none => .ok (o.set flag value)

def takeAll (o : Options) : List Flag → Except UsageError Options
  | [] => .ok o
  | flag :: flags => do
    let o ← o.take flag ""
    if o.help then .ok o else o.takeAll flags

def shortFlag? (c : Char) : Option Flag :=
  Flag.spellings.lookup (String.ofList ['-', c])

def unfold (flag : Flag) (found : List Flag) (afterEquals : Bool) :
    List Char → Except UsageError (List Flag × Option String)
  | [] =>
    if afterEquals then .error (.needlessValue flag "") else .ok (flag :: found, none)
  | c :: cs =>
    if afterEquals || c == '-' then .error (.needlessValue flag (String.ofList (c :: cs)))
    else
      match shortFlag? c with
      | none => .ok (flag :: found, some (String.ofList ('-' :: c :: cs)))
      | some next =>
        match cs with
        | '=' :: value =>
          if value.isEmpty then .error (.needlessValue next "")
          else .error (.needlessValue next (String.ofList value))
        | cs => unfold next (flag :: found) false cs

def takePlain (o : Options) (word : String) : Options :=
  match o.program with
  | none => { o with program := some (some word) }
  | some _ => { o with extra := o.extra ++ [word] }

/-- The words after the last option. A separator before or after the program's name is dropped. -/
def takeRest (o : Options) (words : List String) : Options :=
  match o.program, words with
  | some _, words => { o with extra := o.extra ++ words }
  | none, [] => o
  | none, "--" :: [] => { o with program := some none }
  | none, "--" :: word :: rest => { o with program := some (some word), extra := o.extra ++ rest }
  | none, word :: "--" :: rest => { o with program := some (some word), extra := o.extra ++ rest }
  | none, word :: rest => { o with program := some (some word), extra := o.extra ++ rest }

def isOption : String × Word → Bool
  | (_, .option ..) => true
  | (_, .unknown) => true
  | _ => false

def read (o : Options) (words : List (String × Word)) : Except UsageError Options :=
  if o.help then .ok o
  else if !words.any isOption then .ok (o.takeRest (words.map Prod.fst))
  else
    match words with
    | [] => .ok o
    | (word, .plain) :: rest => read (o.takePlain word) rest
    | (word, .separator) :: rest => read (o.takePlain word) rest
    | (word, .unknown) :: rest => read { o with extra := o.extra ++ [word] } rest
    | (_, .option flag short attached) :: rest =>
      if flag.takesValue then
        match attached, rest with
        | some value, rest => do
          let o ← o.take flag (String.ofList value.text)
          read o rest
        | none, (value, .plain) :: rest => do
          let o ← o.take flag value
          read o rest
        | none, _ => .error (.noValue flag)
      else
        match attached with
        | none => do
          let o ← o.take flag ""
          read o rest
        | some value =>
          if short then do
            let (flags, left) ← unfold flag [] value.afterEquals value.text
            let o ← { o with extra := o.extra ++ left.toList }.takeAll flags.reverse
            read o rest
          else .error (.needlessValue flag (String.ofList value.text))
termination_by words.length

end Options

inductive Task where
  | help
  | interact
  | emit (path : String)
  | replay (path : String)
  | run (path : String)
deriving DecidableEq, Repr

structure Invocation where
  verbosity : Nat
  task : Task
deriving DecidableEq, Repr

def nonempty? : Option String → Option String
  | some "" => none
  | text => text

/-- Make sense of a command line. An empty path counts as absent. -/
def Invocation.ofArgs (args : List String) : Except UsageError Invocation := do
  let words ← classifyAll args
  let o ← ({} : Options).read words
  if o.help then .ok ⟨o.verbosity, .help⟩
  else if o.extra ≠ [] then .error (.unrecognized o.extra)
  else if o.interactive then .ok ⟨o.verbosity, .interact⟩
  else
    match nonempty? o.emit, nonempty? o.replay, nonempty? o.program.join with
    | some path, _, _ => .ok ⟨o.verbosity, .emit (normalPath path)⟩
    | none, some path, _ => .ok ⟨o.verbosity, .replay (normalPath path)⟩
    | none, none, some path => .ok ⟨o.verbosity, .run (normalPath path)⟩
    | none, none, none => .error .noProgram

end Guion.CommandLine
