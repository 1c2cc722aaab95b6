import Guion.Parse.Step
import Guion.Token.Lexer

namespace Guion

inductive Misreading where
  | unexpected (text : List Char)
  | unknown (c : Char)
  | tooLong (digits : Nat)
deriving DecidableEq, Repr

structure ParseError where
  cause : Misreading
  mark : Option Mark
deriving DecidableEq, Repr

namespace ParseError

def message (e : ParseError) : String :=
  "Error de sintaxis: " ++
    match e.cause with
    | .unexpected text => "símbolo inesperado '" ++ String.ofList text ++ "'"
    | .unknown c => "carácter no reconocido '" ++ c.toString ++ "'"
    | .tooLong digits =>
      s!"Exceeds the limit (4300 digits) for integer string conversion: value has {digits} digits; " ++
        "use sys.set_int_max_str_digits() to increase the limit"

def place? (e : ParseError) : Option Pos :=
  e.mark.map Mark.pos

def report (e : ParseError) : String :=
  Pos.report e.place? e.message

end ParseError

namespace Parse

/-- Read tokens to the end of a text. The scanner looks only for tokens that the state accepts,
and a token that it cannot place is the error. -/
def scan : Nat → State → Mark → List Token → List Char → Except ParseError (Program × List Token)
  | 0, _, mark, _, _ => .error ⟨.unexpected [], some mark⟩
  | fuel + 1, st, mark, seen, cs =>
    match layout? cs with
    | some n => scan fuel st (mark.advance (cs.take n)) seen (cs.drop n)
    | none =>
      match cs with
      | [] =>
        match st.program? with
        | some program => .ok (program, seen.reverse)
        | none => .error ⟨.unexpected [], seen.head?.map Token.mark⟩
      | c :: _ =>
        match lexeme? st.focus.accepts cs with
        | some (terminal, n) =>
          let token : Token := ⟨terminal, cs.take n, mark⟩
          match st.next? token with
          | some st => scan fuel st (mark.advance (cs.take n)) (token :: seen) (cs.drop n)
          | none => .error ⟨.unexpected token.text, some mark⟩
        | none =>
          match lexeme? (fun _ => true) cs with
          | some (_, n) => .error ⟨.unexpected (cs.take n), some mark⟩
          | none => .error ⟨.unknown c, some mark⟩

def isTooLong (t : Token) : Bool :=
  t.terminal == .integer && Double.digitLimit < t.text.length

end Parse

/-- Read a program. An integer with too many digits is reported only where the rest is right.
Reading takes no stack: programs nested to any depth are read. -/
def parse (source : String) : Except ParseError Program :=
  let cs := source.toList
  match Parse.scan (cs.length + 1) {} {} [] cs with
  | .error e => .error e
  | .ok (program, tokens) =>
    match tokens.find? Parse.isTooLong with
    | some t => .error ⟨.tooLong t.text.length, none⟩
    | none => .ok program

end Guion
