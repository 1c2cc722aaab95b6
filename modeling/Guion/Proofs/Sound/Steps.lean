import Guion.Proofs.Sound.Machine

namespace Guion

theorem Exec.conformAll_yields (function : Name) (index : Nat) {params : List Param}
    {given : List Value} (hp : ∀ p ∈ params, p.Written) (hv : ∀ v ∈ given, v.Regular) :
    Yields (fun ws => ∀ w ∈ ws, w.Regular) Failure.Worded
      (conformAll function index params given) := by
  induction params generalizing index given with
  | nil => exact fun w hw => nomatch hw
  | cons p ps ih =>
    cases given with
    | nil => exact fun w hw => nomatch hw
    | cons v vs =>
      obtain ⟨⟨kind, hkind⟩, _⟩ := hp p List.mem_cons_self
      have hfirst := Value.conform_yields kind (.argument index function) (hv v List.mem_cons_self)
      have hrest := ih (index + 1) (fun q hq => hp q (List.mem_cons_of_mem _ hq))
        (fun w hw => hv w (List.mem_cons_of_mem _ hw))
      unfold conformAll
      rw [hkind]
      refine hfirst.bind fun w hw => hrest.bind fun ws hws => ?_
      exact List.forall_mem_cons.mpr ⟨hw.1, hws⟩

namespace Plan

variable {failure : Failure → Prop}

theorem values_meets {es : List Expr} (h : ∀ e ∈ es, e.Written) :
    (values es).Meets (regular failure) (fun vs => ∀ v ∈ vs, v.Regular) := by
  induction es with
  | nil => exact fun v hv => nomatch hv
  | cons e es ih =>
    refine Meets.bind (Meets.value (h e List.mem_cons_self)) fun v hv => ?_
    refine Meets.bind (ih fun e' he' => h e' (List.mem_cons_of_mem _ he')) fun vs hvs => ?_
    exact List.forall_mem_cons.mpr ⟨hv, hvs⟩

theorem bindAll_meets {params : List Param} {vs : List Value} (hp : ∀ p ∈ params, p.Written)
    (hv : ∀ v ∈ vs, v.Regular) : (bindAll params vs).Meets (regular failure) (fun _ => True) := by
  induction params generalizing vs with
  | nil => trivial
  | cons p ps ih =>
    cases vs with
    | nil => trivial
    | cons v vs =>
      obtain ⟨hkind, hname⟩ := hp p List.mem_cons_self
      have hdeclare : (regular failure).requires (.declare p.name p.type (some v)) := by
        refine ⟨hname, hkind, ?_⟩
        rintro _ ⟨⟩
        exact hv v List.mem_cons_self
      refine Meets.bind (Meets.perform hdeclare) fun _ _ => ?_
      exact ih (fun q hq => hp q (List.mem_cons_of_mem _ hq))
        (fun w hw => hv w (List.mem_cons_of_mem _ hw))

theorem noteCall_meets (name : Name) {vs : List Value} (hv : ∀ v ∈ vs, v.Regular) :
    (noteCall name vs).Meets (regular failure) (fun _ => True) := by
  have hnone : vs.any Value.isForeign = false := by
    simp only [List.any_eq_false, Bool.not_eq_true]
    exact fun v hmem => (hv v hmem).2
  simp only [noteCall, hnone, Bool.false_eq_true, ↓reduceIte]
  exact Meets.perform trivial

theorem body_meets {f : Function} {vs : List Value} (hf : f.Written) (hv : ∀ v ∈ vs, v.Regular) :
    (body f vs).Meets (regular failure) Signal.Regular := by
  refine Meets.bind (bindAll_meets hf.1 hv) fun _ _ => ?_
  exact Meets.signal hf.2

theorem enter_meets {f : Function} {vs : List Value} (hf : f.Written)
    (hv : ∀ v ∈ vs, v.Regular) : (enter f vs).Meets (regular failure) Value.Regular := by
  refine Meets.bind (Meets.perform trivial) fun _ _ => ?_
  refine Meets.bind (noteCall_meets f.name hv) fun _ _ => ?_
  refine Meets.bind (Meets.inside (Meets.inside (body_meets hf hv))) fun signal hsignal => ?_
  refine Meets.bind (Meets.perform trivial) fun _ _ => ?_
  exact hsignal.result

theorem sequence_meets {body : List Stmt} (h : ∀ s ∈ body, s.Written) :
    (sequence body).Meets (regular failure) Signal.Regular := by
  induction body with
  | nil => trivial
  | cons s rest ih =>
    refine Meets.bind (Meets.signal (h s List.mem_cons_self)) fun signal hsignal => ?_
    split
    · exact ih fun s' hs' => h s' (List.mem_cons_of_mem _ hs')
    · exact hsignal

theorem condition_meets (loop : Loop) {test : Expr} (ht : test.Written) :
    (condition loop test).Meets (regular failure) (fun _ => True) := by
  refine Meets.bind (Meets.value ht) fun v _ => ?_
  split
  · trivial
  · refine Meets.bind (Meets.perform trivial) fun _ _ => ?_
    trivial

theorem initial_meets {first : Option Expr} (h : ∀ e, first = some e → e.Written) :
    (initial first).Meets (regular failure) (fun value => ∀ v, value = some v → v.Regular) := by
  cases first with
  | none => exact fun v hv => nomatch hv
  | some e =>
    refine Meets.bind (Meets.value (h e rfl)) fun v hv => ?_
    rintro _ ⟨⟩
    exact hv

theorem declareVariable_meets (kind : Kind) (s : String) {first : Option Expr}
    (h : ∀ e, first = some e → e.Written) :
    (declareVariable (.known kind) s first).Meets (regular failure) Signal.Regular := by
  refine Meets.bind (initial_meets h) fun value hvalue => ?_
  refine Meets.bind (Meets.perform ⟨⟨s, rfl⟩, ⟨kind, rfl⟩, hvalue⟩) fun _ _ => ?_
  refine Meets.bind (Meets.perform trivial) fun _ _ => ?_
  trivial

theorem define_meets (s : String) {params : List Param} {body : Stmt}
    (hp : ∀ p ∈ params, p.Written) (hb : body.Written) :
    (define s params body).Meets (regular failure) Signal.Regular := by
  have htexts : params.all (·.type.isText) = true := by
    rw [List.all_eq_true]
    intro p hmem
    obtain ⟨⟨kind, hkind⟩, _⟩ := hp p hmem
    rw [hkind]
    rfl
  refine Meets.bind (Meets.perform ⟨⟨s, rfl⟩, hp, hb⟩) fun _ _ => ?_
  simp only [htexts, Bool.not_true, Bool.false_eq_true, ↓reduceIte]
  refine Meets.bind (Meets.perform trivial) fun _ _ => ?_
  trivial

theorem statements_meets {body : List Stmt} (h : ∀ s ∈ body, s.Written) :
    (statements body).Meets (regular failure) (fun _ => True) := by
  induction body with
  | nil => trivial
  | cons s rest ih =>
    refine Meets.bind (Meets.signal (h s List.mem_cons_self)) fun signal _ => ?_
    split
    · exact ih fun s' hs' => h s' (List.mem_cons_of_mem _ hs')
    · exact Meets.perform trivial

theorem program_meets {p : Program} (hp : p.Written) (hno : failure (.stuck .noStack))
    (hhuge : failure (.stuck .hugeStack)) (hdeep : failure (.stuck .deepStack)) :
    (program p).Meets (regular failure) (fun _ => True) := by
  refine Meets.bind (Meets.perform trivial) fun _ _ => ?_
  refine Meets.bind (Meets.perform ⟨hno, hhuge, hdeep⟩) fun _ _ => ?_
  refine Meets.inside (Meets.bind (statements_meets hp) fun _ _ => ?_)
  exact Meets.perform trivial

variable (hw : ∀ e, e.Worded → failure e)
include hw

theorem ofExcept_meets {α : Type} {good : α → Prop} {r : Except Failure α}
    (h : Yields good Failure.Worded r) : (ofExcept r).Meets (regular failure) good := by
  refine Meets.ofExcept ?_ ?_
  · rintro a rfl
    exact h
  · rintro e rfl
    exact hw e h

theorem literal_meets {l : Literal} (hl : l.Written) :
    (literal l).Meets (regular failure) Value.Regular := by
  cases hl with
  | integer n => exact ofExcept_meets hw (Value.ofLiteral_yields n)
  | decimal x => exact Value.regular_decimal x
  | text s => exact Value.regular_cadena s
  | truth b => exact Value.regular_booleano b

theorem fetch_meets (s : String) : (fetch s).Meets (regular failure) Value.Regular := by
  refine Meets.bind (Meets.perform ⟨s, rfl⟩) fun var hvar => ?_
  split
  · exact hvar.regular
  · exact hw _ trivial

theorem second_meets {op : LogicalOp} {right : Expr} (hr : right.Written) :
    (second op right).Meets (regular failure) Value.Regular := by
  refine Meets.bind (Meets.value hr) fun v hv => ?_
  split
  · exact Value.regular_booleano _
  · exact hw _ trivial

theorem logical_meets {op : LogicalOp} {left right : Expr} (hl : left.Written)
    (hr : right.Written) : (logical op left right).Meets (regular failure) Value.Regular := by
  refine Meets.bind (Meets.value hl) fun v hv => ?_
  split
  · exact Value.regular_booleano _
  · exact Value.regular_booleano _
  · exact second_meets hw hr
  · exact hw _ trivial

theorem call_meets (s : String) {arguments : List Expr} (h : ∀ e ∈ arguments, e.Written) :
    (call s arguments).Meets (regular failure) Value.Regular := by
  refine Meets.bind (Meets.perform ⟨s, rfl⟩) fun f hf => ?_
  refine Meets.bind (values_meets h) fun given hgiven => ?_
  split
  · refine Meets.bind (ofExcept_meets hw (Exec.conformAll_yields _ _ hf.1 hgiven)) fun vs hvs => ?_
    exact enter_meets hf hvs
  · exact hw _ trivial

theorem eval_meets {e : Expr} (he : e.Written)
    (hr : ∀ pos op left right, e = .binary pos op left right →
      failure (.stuck .remainderOfInfinity)) :
    (eval e).Meets (regular failure) Value.Regular := by
  cases he with
  | literal hl => exact literal_meets hw hl
  | name s => exact fetch_meets hw s
  | assign s he =>
    refine Meets.bind (Meets.value he) fun v hv => ?_
    exact Meets.perform ⟨⟨s, rfl⟩, hv⟩
  | logical hop hleft hright => exact logical_meets hw hleft hright
  | binary hop hleft hright =>
    refine Meets.bind (Meets.value hleft) fun a ha => ?_
    refine Meets.bind (Meets.value hright) fun b hb => ?_
    have hyields := Value.binary_yields hop ha hb
    refine Meets.ofExcept ?_ ?_
    · intro v hv
      rw [hv] at hyields
      exact hyields
    · intro f hf
      rw [hf] at hyields
      obtain hworded | ⟨rfl, _⟩ := hyields
      · exact hw f hworded
      · exact hr _ _ _ _ rfl
  | unary hop he =>
    refine Meets.bind (Meets.value he) fun v hv => ?_
    exact ofExcept_meets hw (Value.unary_yields hop hv)
  | call s ha => exact call_meets hw s ha
  | read =>
    refine Meets.bind (Meets.perform trivial) fun line _ => ?_
    exact Value.regular_cadena line

theorem iterate_meets {test : Plan Bool} {body : Stmt} {next : Plan Unit} (rounds : Nat)
    (ht : test.Meets (regular failure) (fun _ => True)) (hb : body.Written)
    (hn : next.Meets (regular failure) (fun _ => True)) :
    (iterate test body next rounds).Meets (regular failure) Signal.Regular := by
  induction rounds with
  | zero => exact hw _ trivial
  | succ rounds ih =>
    refine Meets.bind ht fun b _ => ?_
    split
    · refine Meets.bind (Meets.signal hb) fun signal hsignal => ?_
      split
      · trivial
      · exact hsignal
      · exact Meets.bind hn fun _ _ => ih
    · trivial

theorem branch_meets {test : Expr} {yes : Stmt} {no : Option Stmt} (ht : test.Written)
    (hy : yes.Written) (hn : ∀ s, no = some s → s.Written) :
    (branch test yes no).Meets (regular failure) Signal.Regular := by
  refine Meets.bind (Meets.value ht) fun v _ => ?_
  split
  · refine Meets.bind (Meets.perform trivial) fun _ _ => ?_
    split
    · exact Meets.signal hy
    · split
      · rename_i s
        exact Meets.signal (hn s rfl)
      · trivial
  · exact hw _ trivial

theorem forLoop_meets {first : Stmt} {test update : Expr} {body : Stmt} (rounds : Nat)
    (hf : first.Written) (ht : test.Written) (hu : update.Written) (hb : body.Written) :
    (forLoop first test update body rounds).Meets (regular failure) Signal.Regular := by
  refine Meets.bind (Meets.signal hf) fun _ _ => ?_
  refine iterate_meets hw rounds (condition_meets .forLoop ht) hb ?_
  exact Meets.bind (Meets.value hu) fun _ _ => trivial

theorem exec_meets (rounds : Nat) {s : Stmt} (hs : s.Written) :
    (exec rounds s).Meets (regular failure) Signal.Regular := by
  cases hs with
  | declare kind s h => exact declareVariable_meets kind s h
  | function s hp hb => exact define_meets s hp (.block hb)
  | block hb => exact Meets.inside (sequence_meets hb)
  | branch ht hy _ hn _ => exact branch_meets hw ht hy hn
  | whileLoop ht hb _ => exact iterate_meets hw rounds (condition_meets .whileLoop ht) hb trivial
  | forLoop hf ht hu hb _ => exact Meets.inside (forLoop_meets hw rounds hf ht hu hb)
  | returns hv =>
    refine Meets.bind (initial_meets hv) fun value hvalue => ?_
    cases value with
    | none => trivial
    | some v => exact hvalue v rfl
  | print he =>
    refine Meets.bind (Meets.value he) fun v hv => ?_
    refine Meets.bind (Meets.perform hv) fun _ _ => ?_
    trivial
  | breaks => trivial
  | continues => trivial
  | expr he =>
    refine Meets.bind (Meets.value he) fun _ _ => ?_
    trivial

end Plan

end Guion
