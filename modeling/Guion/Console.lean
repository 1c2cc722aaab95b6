import Guion.Tree.Display

namespace Guion

/-- The two ends that a program can talk to. A stream takes a carriage return before the newline
as part of the line end, a terminal has turned every line end into a newline beforehand. A stream is
written texts only, a terminal shows any data. -/
inductive Channel where
  | stream
  | terminal
deriving DecidableEq, Repr

structure Console where
  channel : Channel
  pending : List Char
  written : String := ""
deriving DecidableEq

def unifyLines : List Char → List Char
  | '\r' :: '\n' :: cs => '\n' :: unifyLines cs
  | '\r' :: cs => '\n' :: unifyLines cs
  | c :: cs => c :: unifyLines cs
  | [] => []

namespace Console

def stream (text : String) : Console :=
  ⟨.stream, text.toList, ""⟩

def terminal (text : String) : Console :=
  ⟨.terminal, unifyLines text.toList, ""⟩

def splitLine (cs : List Char) : List Char × List Char :=
  (cs.takeWhile (· != '\n'), (cs.dropWhile (· != '\n')).drop 1)

def withoutReturn (line : List Char) : List Char :=
  if line.getLast? = some '\r' then line.dropLast else line

/-- Read a line without its end. After the last line every read gives the empty text. -/
def readLine (c : Console) : String × Console :=
  let (line, rest) := splitLine c.pending
  let line := match c.channel with
    | .stream => withoutReturn line
    | .terminal => line
  (String.ofList line, { c with pending := rest })

def writeLine (c : Console) (text : String) : Console :=
  { c with written := c.written ++ text ++ "\n" }

def writeData? (c : Console) (data : Tree) : Option Console :=
  match data, c.channel with
  | .text s, _ => some (c.writeLine s)
  | _, .stream => none
  | data, .terminal => some (c.writeLine data.display)

end Console

end Guion
