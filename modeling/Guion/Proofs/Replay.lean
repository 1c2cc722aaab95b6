import Guion.CommandLine.Report
import Guion.Proofs.Tree.Stored

namespace Guion

open Double (digitLimit ReadsBack)

section Marks

theorem Mark.advance_le (mark : Mark) (cs : List Char) :
    (mark.advance cs).line ≤ mark.line + cs.length ∧
      (mark.advance cs).column ≤ mark.column + cs.length := by
  induction cs generalizing mark with
  | nil => exact ⟨Nat.le_refl _, Nat.le_refl _⟩
  | cons c cs ih =>
    have hnext : (mark.next c).line ≤ mark.line + 1 ∧ (mark.next c).column ≤ mark.column + 1 := by
      by_cases hc : c = '\n' <;> simp [Mark.next, hc]
    have hrest := ih (mark.next c)
    have hstep : mark.advance (c :: cs) = (mark.next c).advance cs := rfl
    rw [hstep, List.length_cons]
    omega

theorem Terminal.Matches.ne_nil {terminal : Terminal} {cs : List Char} (h : terminal.Matches cs) :
    cs ≠ [] := by
  cases h with
  | name => simp
  | integer hne => exact hne
  | decimal => simp
  | text => simp
  | keyword k =>
    cases k with
    | type kind => cases kind <;> decide
    | _ => decide
  | symbol s => cases s <;> decide

theorem Splits.mark_lt {mark : Mark} {cs : List Char} {ts : List Token} (h : Splits mark cs ts) :
    ∀ t ∈ ts, t.mark.line < mark.line + cs.length ∧ t.mark.column < mark.column + cs.length := by
  induction h with
  | nil => exact fun t ht => nomatch ht
  | @layout mark piece cs ts _ _ ih =>
    intro t ht
    have hadvance := mark.advance_le piece
    have hrest := ih t ht
    rw [List.length_append]
    omega
  | @token u cs ts hu _ ih =>
    intro t ht
    have hadvance := u.mark.advance_le u.text
    have hpos := List.length_pos_iff.mpr hu.ne_nil
    rw [List.length_append]
    obtain rfl | ht := List.mem_cons.mp ht
    · omega
    · have hrest := ih t ht
      omega

theorem Mark.durable_pos {mark : Mark} (hline : mark.line < 10 ^ digitLimit)
    (hcolumn : mark.column < 10 ^ digitLimit) : mark.pos.Durable :=
  ⟨.int (Double.length_toDigits_le (by decide) hline),
    .int (Double.length_toDigits_le (by decide) hcolumn)⟩

end Marks

theorem Grammar.Denotes.short {t : Token} {l : Literal} (h : Grammar.Denotes t l)
    (ht : t.terminal.Matches t.text) (hlong : Parse.isTooLong t = false) : l.Short := by
  cases h with
  | integer hint =>
    have hlength : t.text.length ≤ digitLimit := by
      simpa [Parse.isTooLong, hint] using hlong
    rw [hint] at ht
    cases ht with
    | integer hne hds =>
      have hvalue := Double.digitsValue_lt hds
      have hle := Double.length_toDigits_le (List.length_pos_iff.mpr hne) hvalue
      exact Nat.le_trans hle hlength
  | decimal | text | verdadero | falso => exact trivial

/-- A program that was read from a text whose size can be written down is durable, as far as its
doubles are read back. -/
theorem parse_durable {source : String} {p : Program} (h : parse source = .ok p)
    (hsize : source.length < 10 ^ digitLimit)
    (hdoubles : ∀ pos x, p.Contains (.eval (.literal pos (.decimal x))) → ReadsBack x) :
    p.Durable := by
  obtain ⟨tokens, hsplit, hbody, hpos, hshort⟩ := exists_tokens h
  have htokens : ∀ t ∈ tokens, Grammar.Fits Pos.Durable Literal.Short t := by
    intro t ht
    have hmark := hsplit.mark_lt t ht
    rw [String.length_toList] at hmark
    have hline : t.mark.line < 1 + source.length := hmark.1
    have hcolumn : t.mark.column < 1 + source.length := hmark.2
    refine ⟨Mark.durable_pos (by omega) (by omega), fun l hl => ?_⟩
    exact hl.short (hsplit.texts t ht) (hshort t ht)
  have hfits : ∀ t, p.Contains t → t.Fits Pos.Durable Literal.Short := fun t ht =>
    (Task.Throughout.contains (hbody.placed htokens) ht).self
  refine ⟨?_, fun t ht => ?_⟩
  · rw [hpos]
    cases tokens with
    | nil =>
      have hzero : 0 < 10 ^ digitLimit := Nat.pow_pos (by decide)
      exact (Mark.durable_pos hzero hzero : (Mark.pos ⟨0, 0⟩).Durable)
    | cons t ts => exact Grammar.start_at (by simp) htokens
  · refine (hfits t ht).mono fun pos l hl hshort => ⟨hshort, fun x hx => ?_⟩
    subst hl hx
    exact hdoubles pos x ht

namespace CommandLine

theorem unifyLines_eq {cs : List Char} (h : '\r' ∉ cs) : unifyLines cs = cs := by
  fun_induction unifyLines cs with
  | case1 cs ih => simp at h
  | case2 cs _ ih => simp at h
  | case3 c cs _ _ ih => rw [ih fun hm => h (List.mem_cons_of_mem _ hm)]
  | case4 => rfl

theorem textOf?_toUTF8 {text : String} (h : '\r' ∉ text.toList) :
    textOf? text.toUTF8 = some text := by
  have hbytes : String.fromUTF8? text.toUTF8 = some text := dif_pos text.isValidUTF8
  rw [textOf?, hbytes, Option.map_some, unifyLines_eq h, String.ofList_toList]

theorem storedProgram_render {p : Program} (hp : p.Written) (h : p.Durable) :
    storedProgram (Tree.ofProgram p).toJson.render.toUTF8 = .ok (.ok p) := by
  have htree := Tree.durable_ofProgram hp h
  have hplain : '\r' ∉ (Tree.ofProgram p).toJson.render.toList := by
    rw [Json.render, String.toList_ofList]
    exact (htree.legible.spells 0).plain
  have hroot : (Tree.ofProgram p).isProgram = true := rfl
  rw [storedProgram, textOf?_toUTF8 hplain]
  simp only [htree.legible.parse?_render, htree.ofJson_toJson, hroot, Tree.program?_ofProgram hp]

/-- What there is after the files of a report have been written. -/
def Disk.after (disk : Disk) (report : Report) : Disk :=
  report.files.map (fun f => (f.1, .file f.2.toUTF8)) ++ disk

theorem Disk.find_written {disk : Disk} {path text : String} {report : Report}
    (h : report.files = [(path, text)]) : (disk.after report).find path = .file text.toUTF8 := by
  simp [after, find, h]

theorem Disk.find_other {disk : Disk} {path other text : String} {report : Report}
    (h : report.files = [(path, text)]) (hne : other ≠ path) :
    (disk.after report).find other = disk.find other := by
  simp [after, find, h, List.lookup_cons, beq_false_of_ne hne]

theorem targetOf_ne_debugFile (path : String) : debugFile ≠ targetOf path := by
  intro h
  have hlast := congrArg (fun s => s.toList.getLast?) h
  simp [targetOf, debugFile, List.getLast?_append] at hlast

theorem runProgram_files (fuel verbosity : Nat) (p : Program) (stdin : String) :
    ∀ f ∈ (runProgram fuel verbosity p stdin).files, f.1 = debugFile := by
  have htrace (text : String) : ∀ f ∈ traceFiles verbosity text, f.1 = debugFile := by
    unfold traceFiles
    split <;> simp
  unfold runProgram
  simp only
  split <;> exact htrace _

theorem Report.onto_eq {report : Report} {disk other : Disk}
    (h : ∀ f ∈ report.files, other.find f.1 = disk.find f.1) :
    report.onto other = report.onto disk := by
  have hfound : report.files.map (fun f => other.find f.1) =
      report.files.map (fun f => disk.find f.1) := List.map_congr_left h
  unfold onto
  simp only [hfound]

section Perform

variable {disk : Disk} {path source : String} {bytes : ByteArray} {p : Program}

theorem perform_emit (hfile : disk.find path = .file bytes) (hsource : textOf? bytes = some source)
    (hp : parse source = .ok p) (hdirectory : disk.find (targetOf path) ≠ .directory)
    (hrefused : disk.find (targetOf path) ≠ .refused) (fuel verbosity : Nat) (stdin : String) :
    Invocation.perform fuel ⟨verbosity, .emit path⟩ disk stdin = emit path p := by
  have honto : (emit path p).onto disk = emit path p := by
    simp only [Report.onto, emit, List.map_cons, List.map_nil]
    split
    next h => exact absurd (List.cons.inj h).1 hdirectory
    next h => exact absurd (List.cons.inj h).1 hrefused
    next => rfl
  simp [Invocation.perform, Invocation.path?, hfile, Invocation.process, withProgram, hsource, hp,
    honto]

theorem perform_run (hfile : disk.find path = .file bytes) (hsource : textOf? bytes = some source)
    (hp : parse source = .ok p) (fuel verbosity : Nat) (stdin : String) :
    Invocation.perform fuel ⟨verbosity, .run path⟩ disk stdin =
      (runProgram fuel verbosity p stdin).onto disk := by
  simp [Invocation.perform, Invocation.path?, hfile, Invocation.process, withProgram, hsource, hp]

theorem perform_replay (hfile : disk.find path = .file bytes)
    (hstored : storedProgram bytes = .ok (.ok p)) (fuel verbosity : Nat) (stdin : String) :
    Invocation.perform fuel ⟨verbosity, .replay path⟩ disk stdin =
      (runProgram fuel verbosity p stdin).onto disk := by
  simp [Invocation.perform, Invocation.path?, hfile, Invocation.process, replay, hstored]

end Perform

/-- Storing the program of a text and running what was stored comes to the same as running the text.
The stored text is read as the data that was written, the data as the tree, and the tree as the
program with all its positions. The text may have any size that can be written down, so that its
positions can, and the doubles among its literals are those that are read back. -/
theorem replay_emitted {disk : Disk} {path source : String} {bytes : ByteArray} {p : Program}
    (hfile : disk.find path = .file bytes) (hsource : textOf? bytes = some source)
    (hp : parse source = .ok p) (hsize : source.length < 10 ^ digitLimit)
    (hdoubles : ∀ pos x, p.Contains (.eval (.literal pos (.decimal x))) → ReadsBack x)
    (hdirectory : disk.find (targetOf path) ≠ .directory)
    (hrefused : disk.find (targetOf path) ≠ .refused) (fuel level : Nat) (typed : String) :
    let stored := (Tree.ofProgram p).toJson
    let emitted := Invocation.perform fuel ⟨level, .emit path⟩ disk typed
    Json.parse? stored.render = some stored ∧ Tree.ofJson stored = .ok (Tree.ofProgram p) ∧
      (Tree.ofProgram p).program? = some (.ok p) ∧
      emitted = { stdout := targetOf path ++ "\n", files := [(targetOf path, stored.render)] } ∧
      ∀ (verbosity : Nat) (stdin : String),
        Invocation.perform fuel ⟨verbosity, .replay (targetOf path)⟩ (disk.after emitted) stdin =
          Invocation.perform fuel ⟨verbosity, .run path⟩ disk stdin := by
  intro stored emitted
  have hwritten := parse_written hp
  have hdurable := parse_durable hp hsize hdoubles
  have htree := Tree.durable_ofProgram hwritten hdurable
  have hemitted : emitted = emit path p :=
    perform_emit hfile hsource hp hdirectory hrefused fuel level typed
  have hfiles : emitted.files = [(targetOf path, stored.render)] := by
    rw [hemitted]
    rfl
  refine ⟨htree.legible.parse?_render, htree.ofJson_toJson, Tree.program?_ofProgram hwritten,
    hemitted, fun verbosity stdin => ?_⟩
  have hstored := storedProgram_render hwritten hdurable
  rw [perform_replay (Disk.find_written hfiles) hstored, perform_run hfile hsource hp]
  apply Report.onto_eq
  intro f hf
  rw [runProgram_files fuel verbosity p stdin f hf]
  exact Disk.find_other hfiles (targetOf_ne_debugFile path)

theorem replay_emitted_decimal :
    let source := "decimal x = 0.1;\nimprimir \"a\tb\" + x;"
    let disk : Disk := [("a.es", .file source.toUTF8)]
    let emitted := Invocation.perform 9 ⟨0, .emit "a.es"⟩ disk ""
    Invocation.perform 9 ⟨1, .replay "a.es.ast.json"⟩ (disk.after emitted) "" =
        Invocation.perform 9 ⟨1, .run "a.es"⟩ disk "" ∧
      (Invocation.perform 9 ⟨1, .run "a.es"⟩ disk "").stdout = "a\tb0.1\n" := by
  intro source disk emitted
  let p : Program := ⟨Mark.pos ⟨1, 1⟩,
    [.declare (Mark.pos ⟨1, 1⟩) (.known .decimal) "x"
      (some (.literal (Mark.pos ⟨1, 13⟩) (.decimal (Double.ofDigits ['0'] ['1'] 0)))),
    .print (Mark.pos ⟨2, 1⟩) (.binary (Mark.pos ⟨2, 10⟩) .add
      (.literal (Mark.pos ⟨2, 10⟩) (.text "a\tb")) (.name (Mark.pos ⟨2, 18⟩) "x"))]⟩
  have hp : parse "decimal x = 0.1;\nimprimir \"a\tb\" + x;" = .ok p := by rfl
  have hfile : disk.find "a.es" = .file source.toUTF8 := rfl
  have hsource : textOf? source.toUTF8 = some source := textOf?_toUTF8 (by decide)
  have hsize : source.length < 10 ^ digitLimit :=
    Nat.lt_of_le_of_lt (by decide : source.length ≤ digitLimit) (Nat.lt_pow_self (by decide))
  have hback : ReadsBack (Double.ofDigits ['0'] ['1'] 0) := by
    rw [ReadsBack]
    decide +kernel
  have hall : ∀ s ∈ p.body, (Task.exec s).Throughout fun t => ∀ pos x,
      t = .eval (.literal pos (.decimal x)) → ReadsBack x := by
    simp only [p, List.forall_mem_cons]
    refine ⟨.single (by rintro _ _ ⟨⟩) rfl (.leaf ?_ rfl), .single (by rintro _ _ ⟨⟩) rfl ?_,
      by simp⟩
    · intro pos x h
      cases h
      exact hback
    · refine .pair ?_ rfl (.leaf ?_ rfl) (.leaf ?_ rfl) <;> rintro _ _ ⟨⟩
  have hdoubles : ∀ pos x, p.Contains (.eval (.literal pos (.decimal x))) → ReadsBack x :=
    fun pos x hx => (Task.Throughout.contains hall hx).self pos x rfl
  have hnothing : disk.find (targetOf "a.es") = .nothing := rfl
  have hreplay := replay_emitted hfile hsource hp hsize hdoubles (by rw [hnothing]; rintro ⟨⟩)
    (by rw [hnothing]; rintro ⟨⟩) 9 0 ""
  exact ⟨hreplay.2.2.2.2 1 "", by decide +kernel⟩

end CommandLine

end Guion
