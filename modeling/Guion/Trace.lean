import Guion.Program

namespace Guion

inductive Signal where
  | normal
  | broken
  | continued
  | returned (value : Option Value)
deriving DecidableEq

inductive Loop where
  | whileLoop
  | forLoop
deriving DecidableEq, Repr

/-- What a run reports about itself. -/
inductive Event where
  | started (count : Nat)
  | stopped (signal : Signal) (line : Tree)
  | finished
  | loopEnded (loop : Loop) (line : Tree) (found : Value)
  | declared (type : TypeName) (name : Name) (value : Value)
  | defined (function : Name) (types : List TypeName)
  | called (function : Name) (arguments : List Value)
  | returned (function : Name) (value : Value)
  | branched (value : Bool)
deriving DecidableEq

inductive Sink where
  | file
  | screen
deriving DecidableEq, Repr

/-- The messages of a run, latest first. They go to a file until it is closed. A text that the
encoding of messages cannot express is one with characters that it is `lacking`: in UTF-8, which has
all characters, these are such as stand for unpaired surrogates. The screen is taken to have the
encoding of the file. -/
structure Trace where
  verbosity : Int := 0
  sink : Sink := .file
  entries : List (Sink × Event) := []
  lacking : List Char := []
deriving DecidableEq

namespace Signal

def name : Signal → String
  | normal => "NormalSignal"
  | broken => "BreakSignal"
  | continued => "ContinueSignal"
  | returned _ => "ReturnSignal"

def result : Signal → Value
  | returned (some v) => v
  | _ => .null

end Signal

def Loop.keyword : Loop → String
  | whileLoop => "mientras"
  | forLoop => "para"

namespace Event

def level : Event → Int
  | started _ => 1
  | stopped _ _ => 1
  | finished => 1
  | loopEnded _ _ _ => 1
  | declared _ _ _ => 2
  | defined _ _ => 2
  | called _ _ => 3
  | returned _ _ => 3
  | branched _ => 3

def text : Event → String
  | started count => s!"run: {count} top-level declarations"
  | stopped signal line => s!"program stopped early by {signal.name} at line {line.display}"
  | finished => "run: finished"
  | loopEnded loop line found =>
    s!"{loop.keyword} at line {line.display}: non-boolean condition {found.kindName} ends the loop"
  | declared type name value => s!"declare {type.name} {name.display} = {value.text}"
  | defined function types =>
    s!"define function {function.display}(" ++ ", ".intercalate (types.map TypeName.name) ++ ")"
  | called function arguments =>
    s!"call {function.display}(" ++ ", ".intercalate (arguments.map Value.text) ++ ")"
  | returned function value => s!"return {function.display} -> {value.text}"
  | branched value => "si condition -> " ++ (Value.booleano value).text

def quoted : Event → List String
  | started _ => []
  | stopped _ _ => []
  | finished => []
  | loopEnded _ _ _ => []
  | declared type name value => [type.name, name.display, value.text]
  | defined function types => function.display :: types.map TypeName.name
  | called function arguments => function.display :: arguments.map Value.text
  | returned function value => [function.display, value.text]
  | branched _ => []

end Event

namespace Trace

/-- Whether an event that the verbosity asks for quotes what cannot be written. -/
def refuses (t : Trace) (event : Event) : Bool :=
  event.level ≤ t.verbosity && event.quoted.any (·.toList.any t.lacking.contains)

def note (t : Trace) (event : Event) : Trace :=
  if event.level ≤ t.verbosity then { t with entries := (t.sink, event) :: t.entries } else t

/-- Close the file. Later messages go to the screen. -/
def close (t : Trace) : Trace :=
  { t with sink := .screen }

def events (t : Trace) : List Event :=
  t.entries.reverse.map Prod.snd

def textOf (t : Trace) (sink : Sink) : String :=
  String.join ((t.entries.reverse.filter (·.1 == sink)).map (·.2.text ++ "\n"))

@[simp]
theorem note_verbosity (t : Trace) (event : Event) : (t.note event).verbosity = t.verbosity := by
  unfold note
  split <;> rfl

@[simp]
theorem note_lacking (t : Trace) (event : Event) : (t.note event).lacking = t.lacking := by
  unfold note
  split <;> rfl

@[simp]
theorem close_verbosity (t : Trace) : t.close.verbosity = t.verbosity := rfl

@[simp]
theorem close_lacking (t : Trace) : t.close.lacking = t.lacking := rfl

theorem refuses_plain (t : Trace) {event : Event} (h : event.quoted = []) :
    t.refuses event = false := by
  simp [refuses, h]

structure Alike (t t' : Trace) : Prop where
  verbosity : t'.verbosity = t.verbosity
  lacking : t'.lacking = t.lacking

namespace Alike

variable {t t' : Trace}

theorem refl (t : Trace) : t.Alike t := ⟨rfl, rfl⟩

theorem note (h : t.Alike t') (event event' : Event) : (t.note event).Alike (t'.note event') :=
  ⟨by simp [h.verbosity], by simp [h.lacking]⟩

theorem close (h : t.Alike t') : t.close.Alike t'.close := ⟨h.verbosity, h.lacking⟩

theorem refuses (h : t.Alike t') {event event' : Event} (hlevel : event'.level = event.level)
    (hquoted : event'.quoted = event.quoted) : t'.refuses event' = t.refuses event := by
  simp only [Trace.refuses, h.verbosity, h.lacking, hlevel, hquoted]

end Alike

end Trace

end Guion
