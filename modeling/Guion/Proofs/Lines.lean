import Mathlib.Data.List.TakeWhile
import Guion.Proofs.Input

namespace Guion.Console

/-- The calls that a program makes on a console. -/
inductive Call where
  | readLine
  | writeLine (text : String)
deriving DecidableEq

def perform (c : Console) : List Call → List String × Console
  | [] => ([], c)
  | .readLine :: rest =>
    let (line, c) := c.readLine
    let (lines, c) := c.perform rest
    (line :: lines, c)
  | .writeLine text :: rest => (c.writeLine text).perform rest

/-- What a call writes. -/
def Call.output : Call → String
  | readLine => ""
  | writeLine text => text ++ "\n"

def linesOf (text : String) : List String :=
  (text.toList.splitOn '\n').map fun line => String.ofList (withoutReturn line)

/-- The texts of so many reads: the lines of a text and after them the empty text. -/
def firstLines (text : String) (count : Nat) : List String :=
  (List.range count).map fun i => ((linesOf text)[i]?).getD ""

/-- Each carriage return has a newline right after it. -/
def ReturnsPaired (cs : List Char) : Prop :=
  ∀ i, cs[i]? = some '\r' → cs[i + 1]? = some '\n'

/-- What a console gives once so many lines were read. -/
def line (c : Console) (i : Nat) : String :=
  (((c.pending.splitOn '\n')[i]?).map (lineRead c.channel)).getD ""

section Reading

variable {c : Console} {cs rest : List Char}

theorem lineRead_nil (channel : Channel) : lineRead channel [] = "" := by
  cases channel <;> rfl

theorem readLine_split (h : splitLine c.pending = (cs, rest)) :
    c.readLine = (lineRead c.channel cs, { c with pending := rest }) := by
  unfold readLine
  rw [h]
  cases c.channel <;> rfl

theorem splitLine_last (h : '\n' ∉ cs) : splitLine cs = (cs, []) := by
  have hkeep : ∀ x ∈ cs, (x != '\n') = true :=
    fun x hx => bne_iff_ne.mpr fun heq => h (heq ▸ hx)
  simp [splitLine, List.takeWhile_eq_self_iff.mpr hkeep, List.dropWhile_eq_nil_iff.mpr hkeep]

theorem readLine_line (c : Console) :
    c.readLine.1 = c.line 0 ∧ ∀ i, c.readLine.2.line i = c.line (i + 1) := by
  by_cases h : '\n' ∈ c.pending
  · obtain ⟨cs, rest, hpending, hcs⟩ := List.eq_append_cons_of_mem h
    have hlines := List.splitOn_append_cons_self_of_not_mem hcs rest
    rw [readLine_split (by rw [hpending, splitLine_append hcs])]
    simp only [line, hpending, hlines]
    exact ⟨rfl, fun i => rfl⟩
  · rw [readLine_split (splitLine_last h)]
    simp only [line, List.splitOn_eq_singleton h, List.splitOn_nil]
    refine ⟨rfl, fun i => ?_⟩
    cases i with
    | zero => exact lineRead_nil c.channel
    | succ i => rfl

theorem line_writeLine (c : Console) (text : String) (i : Nat) :
    (c.writeLine text).line i = c.line i := rfl

theorem perform_lines (c : Console) (calls : List Call) :
    (c.perform calls).1 = (List.range (calls.count .readLine)).map c.line := by
  induction calls generalizing c with
  | nil => rfl
  | cons call rest ih =>
    cases call with
    | readLine =>
      obtain ⟨hfirst, hothers⟩ := readLine_line c
      simp only [perform, ih, hfirst, funext hothers, List.count_cons_self,
        List.range_succ_eq_map, List.map_cons, List.map_map, Function.comp_def]
    | writeLine text =>
      have hcount : (Call.writeLine text :: rest).count .readLine = rest.count .readLine :=
        List.count_cons_of_ne (by simp)
      simp only [perform, ih, funext (line_writeLine c text), hcount]

theorem perform_written (c : Console) (calls : List Call) :
    (c.perform calls).2.written = c.written ++ String.join (calls.map Call.output) := by
  induction calls generalizing c with
  | nil => simp [perform]
  | cons call rest ih =>
    cases call with
    | readLine => simp [perform, ih, Call.output, readLine]
    | writeLine text => simp [perform, ih, Call.output, writeLine, String.append_assoc]

end Reading

section Channels

variable {cs : List Char}

theorem stream_line (text : String) (i : Nat) :
    (stream text).line i = ((linesOf text)[i]?).getD "" := by
  simp only [line, stream, linesOf, List.getElem?_map]
  rfl

theorem ReturnsPaired.tail {x : Char} (h : ReturnsPaired (x :: cs)) : ReturnsPaired cs :=
  fun i hi => h (i + 1) hi

theorem withoutReturn_cons {x : Char} (hx : x ≠ '\r') (cs : List Char) :
    withoutReturn (x :: cs) = x :: withoutReturn cs := by
  cases cs with
  | nil => simp [withoutReturn, hx]
  | cons y ys =>
    simp only [withoutReturn, List.getLast?_cons_cons, List.dropLast_cons_cons]
    split <;> rfl

/-- A text with its carriage returns before newlines only comes to a terminal as the lines that a
stream makes of it. -/
theorem splitOn_unifyLines (h : ReturnsPaired cs) :
    (unifyLines cs).splitOn '\n' = (cs.splitOn '\n').map withoutReturn := by
  induction cs using unifyLines.induct with
  | case1 cs ih =>
    have hreturn : '\n' ∉ ['\r'] := by decide
    rw [← List.singleton_append, List.splitOn_append_cons_self_of_not_mem hreturn,
      List.singleton_append, unifyLines, List.splitOn_cons_eq_if_modifyHead, ih h.tail.tail]
    rfl
  | case2 cs hnewline ih =>
    have hnext := h 0 rfl
    cases cs with
    | nil => cases hnext
    | cons y rest =>
      cases hnext
      exact absurd rfl (hnewline rest)
  | case3 x cs hpair hreturn ih =>
    rw [unifyLines.eq_3 x cs hpair hreturn, List.splitOn_cons_eq_if_modifyHead,
      List.splitOn_cons_eq_if_modifyHead, ih h.tail]
    split
    · rfl
    · cases cs.splitOn '\n' with
      | nil => rfl
      | cons first others =>
        simp only [List.map_cons, List.modifyHead_cons, withoutReturn_cons hreturn]
  | case4 => rfl

theorem terminal_line {text : String} (h : ReturnsPaired text.toList) (i : Nat) :
    (terminal text).line i = ((linesOf text)[i]?).getD "" := by
  simp only [line, terminal, linesOf, splitOn_unifyLines h, List.getElem?_map, Option.map_map]
  rfl

end Channels

section RoundTrip

/-- A text that can be told from the end of the line it makes. -/
def IsLine (text : String) : Prop :=
  '\n' ∉ text.toList ∧ text.toList.getLast? ≠ some '\r'

instance (text : String) : Decidable (IsLine text) :=
  inferInstanceAs (Decidable (_ ∧ _))

theorem IsLine.lineRead {text : String} (h : IsLine text) (channel : Channel) :
    lineRead channel text.toList = text := by
  cases channel with
  | stream => simp [Console.lineRead, withoutReturn, h.2]
  | terminal => simp [Console.lineRead]

theorem join_lines (texts : List String) :
    (String.join ((texts.map .writeLine).map Call.output)).toList =
      textOf (texts.map String.toList) := by
  induction texts with
  | nil => rfl
  | cons text rest ih =>
    simp only [List.map_cons, String.join_cons, Call.output, String.toList_append, ih, textOf,
      List.flatMap_cons]
    rfl

theorem perform_textOf {texts : List String} (htexts : ∀ text ∈ texts, IsLine text)
    (channel : Channel) (rest : List Char) (written : String) :
    perform ⟨channel, textOf (texts.map String.toList) ++ rest, written⟩
        (texts.map fun _ => .readLine) =
      (texts, ⟨channel, rest, written⟩) := by
  induction texts with
  | nil => rfl
  | cons text others ih =>
    obtain ⟨htext, hothers⟩ := List.forall_mem_cons.mp htexts
    have hpending : textOf ((text :: others).map String.toList) ++ rest =
        text.toList ++ '\n' :: (textOf (others.map String.toList) ++ rest) := by
      simp [textOf]
    rw [hpending, List.map_cons, perform, readLine_split (splitLine_append htext.1 _)]
    simp only [ih hothers, htext.lineRead]

end RoundTrip

/-- Streams and terminals agree. Where a text has each carriage return right before a newline, calls
read from a stream of it and from a terminal the same texts, its lines and after them the empty
text, and write the same. And texts with no newline and with no carriage return at their end are
read back from what was written of them. -/
theorem stream_terminal_agree :
    (∀ text : String, ReturnsPaired text.toList → ∀ calls : List Call,
      let count := calls.count .readLine
      let output := String.join (calls.map Call.output)
      ((stream text).perform calls).1 = firstLines text count ∧
        ((terminal text).perform calls).1 = firstLines text count ∧
        ((stream text).perform calls).2.written = output ∧
        ((terminal text).perform calls).2.written = output) ∧
    ∀ (texts : List String) (stdin : String), (∀ text ∈ texts, IsLine text) →
      let c := (stream ((stream stdin).perform (texts.map .writeLine)).2.written).perform
        (texts.map fun _ => .readLine)
      c.1 = texts ∧ c.2.pending = [] := by
  refine ⟨fun text htext calls => ?_, fun texts stdin htexts => ?_⟩
  · refine ⟨?_, ?_, ?_, ?_⟩
    · rw [perform_lines, funext (stream_line text), firstLines]
    · rw [perform_lines, funext (terminal_line htext), firstLines]
    · rw [perform_written]
      exact String.empty_append
    · rw [perform_written]
      exact String.empty_append
  · have hwritten : stream ((stream stdin).perform (texts.map .writeLine)).2.written =
        ⟨.stream, textOf (texts.map String.toList) ++ [], ""⟩ := by
      rw [perform_written, stream, stream, String.empty_append, join_lines, List.append_nil]
    simp only [hwritten, perform_textOf htexts, and_self]

/-- Four reads of a text with an empty line in it, and a write between them. -/
theorem stream_terminal_agree_returns :
    ReturnsPaired "uno\r\n\r\ndos".toList ∧
      (let calls := [.readLine, .writeLine "a", .readLine, .readLine, .readLine];
        ((stream "uno\r\n\r\ndos").perform calls).1 = ["uno", "", "dos", ""] ∧
          ((terminal "uno\r\n\r\ndos").perform calls).1 = ["uno", "", "dos", ""] ∧
          ((stream "uno\r\n\r\ndos").perform calls).2.written = "a\n" ∧
          ((terminal "uno\r\n\r\ndos").perform calls).2.written = "a\n") ∧
      (∀ text ∈ ["x", "", "y\rz"], IsLine text) ∧
      ((stream ((stream "").perform (["x", "", "y\rz"].map .writeLine)).2.written).perform
        (["x", "", "y\rz"].map fun _ => .readLine)).1 = ["x", "", "y\rz"] := by
  have hpaired : ReturnsPaired "uno\r\n\r\ndos".toList := by
    intro i hi
    have hlength : i < 10 := (List.getElem?_eq_some_iff.mp hi).1
    exact (by decide : ∀ i < 10, "uno\r\n\r\ndos".toList[i]? = some '\r' →
      "uno\r\n\r\ndos".toList[i + 1]? = some '\n') i hlength hi
  have hlines : ∀ text ∈ ["x", "", "y\rz"], IsLine text := by decide
  obtain ⟨hagree, hback⟩ := stream_terminal_agree
  refine ⟨hpaired, hagree _ hpaired _, hlines, (hback _ "" hlines).1⟩

end Guion.Console
