import Guion.Proofs.Printing

namespace Guion

/-- A position that many lines further down. -/
def Pos.down (lines : Nat) (pos : Pos) : Pos :=
  match pos.line with
  | .int n => { pos with line := .int (n + lines) }
  | _ => pos

mutual

def Expr.moved (move : Pos → Pos) : Expr → Expr
  | .literal pos l => .literal (move pos) l
  | .name pos s => .name (move pos) s
  | .assign pos s e => .assign (move pos) s (e.moved move)
  | .logical pos op left right => .logical (move pos) op (left.moved move) (right.moved move)
  | .binary pos op left right => .binary (move pos) op (left.moved move) (right.moved move)
  | .unary pos op e => .unary (move pos) op (e.moved move)
  | .call pos function arguments => .call (move pos) function (Expr.movedAll move arguments)
  | .read pos => .read (move pos)
  | .stuck why => .stuck why

def Expr.movedAll (move : Pos → Pos) : List Expr → List Expr
  | [] => []
  | e :: es => e.moved move :: Expr.movedAll move es

end

def Param.moved (move : Pos → Pos) (p : Param) : Param := { p with pos := move p.pos }

mutual

/-- A statement with its positions changed. -/
def Stmt.moved (move : Pos → Pos) : Stmt → Stmt
  | .declare pos type name initial => .declare (move pos) type name (initial.map (Expr.moved move))
  | .function pos name params body =>
    .function (move pos) name (params.map (Param.moved move)) (body.moved move)
  | .unusable pos name why => .unusable (move pos) name why
  | .block pos body => .block (move pos) (Stmt.movedAll move body)
  | .branch pos test yes none => .branch (move pos) (test.moved move) (yes.moved move) none
  | .branch pos test yes (some no) =>
    .branch (move pos) (test.moved move) (yes.moved move) (some (no.moved move))
  | .whileLoop pos test body => .whileLoop (move pos) (test.moved move) (body.moved move)
  | .forLoop pos initial test update body =>
    .forLoop (move pos) (initial.moved move) (test.moved move) (update.moved move) (body.moved move)
  | .returns pos value => .returns (move pos) (value.map (Expr.moved move))
  | .print pos e => .print (move pos) (e.moved move)
  | .breaks pos => .breaks (move pos)
  | .continues pos => .continues (move pos)
  | .expr pos e => .expr (move pos) (e.moved move)
  | .stuck why => .stuck why

def Stmt.movedAll (move : Pos → Pos) : List Stmt → List Stmt
  | [] => []
  | s :: ss => s.moved move :: Stmt.movedAll move ss

end

def Function.moved (move : Pos → Pos) (f : Function) : Function :=
  ⟨f.name, f.params.map (Param.moved move), f.body.moved move⟩

namespace Task

def moved (move : Pos → Pos) : Task → Task
  | eval e => eval (e.moved move)
  | exec s => exec (s.moved move)

end Task

section

variable {move : Pos → Pos}

@[simp]
theorem Expr.movedAll_eq (es : List Expr) : movedAll move es = es.map (moved move) := by
  induction es with
  | nil => rfl
  | cons e es ih => rw [movedAll, ih, List.map_cons]

@[simp]
theorem Stmt.movedAll_eq (ss : List Stmt) : movedAll move ss = ss.map (moved move) := by
  induction ss with
  | nil => rfl
  | cons s ss ih => rw [movedAll, ih, List.map_cons]

theorem Stmt.moved_branch (pos : Pos) (test : Expr) (yes : Stmt) (no : Option Stmt) :
    (Stmt.branch pos test yes no).moved move =
      .branch (move pos) (test.moved move) (yes.moved move) (no.map (Stmt.moved move)) := by
  cases no <;> rw [moved] <;> rfl

theorem Task.pos_moved {t : Task} (h : t.pos ≠ .none) : (t.moved move).pos = move t.pos := by
  cases t with
  | eval e =>
    cases e with
    | stuck why => exact absurd rfl h
    | _ => rfl
  | exec s =>
    cases s with
    | stuck why => exact absurd rfl h
    | branch pos test yes no => cases no <;> rfl
    | _ => rfl

end

section Unmoved

mutual

theorem Expr.moved_id : (e : Expr) → e.moved id = e
  | .literal _ _ | .name _ _ | .read _ | .stuck _ => rfl
  | .assign _ _ e => by rw [Expr.moved, Expr.moved_id e, id]
  | .logical _ _ left right => by rw [Expr.moved, Expr.moved_id left, Expr.moved_id right, id]
  | .binary _ _ left right => by rw [Expr.moved, Expr.moved_id left, Expr.moved_id right, id]
  | .unary _ _ e => by rw [Expr.moved, Expr.moved_id e, id]
  | .call _ _ arguments => by rw [Expr.moved, Expr.movedAll_id arguments, id]

theorem Expr.movedAll_id : (es : List Expr) → Expr.movedAll id es = es
  | [] => rfl
  | e :: es => by rw [Expr.movedAll, Expr.moved_id e, Expr.movedAll_id es]

end

theorem Expr.moved_id_eq : Expr.moved id = id := funext Expr.moved_id

theorem Param.moved_id_eq : Param.moved id = id := rfl

mutual

theorem Stmt.moved_id : (s : Stmt) → s.moved id = s
  | .declare _ _ _ _ | .returns _ _ => by rw [Stmt.moved, Expr.moved_id_eq, Option.map_id, id, id]
  | .unusable _ _ _ | .breaks _ | .continues _ | .stuck _ => rfl
  | .function _ _ _ body => by
    rw [Stmt.moved, Param.moved_id_eq, List.map_id, Stmt.moved_id body, id]
  | .block _ body => by rw [Stmt.moved, Stmt.movedAll_id body, id]
  | .branch _ test yes none => by rw [Stmt.moved, Expr.moved_id test, Stmt.moved_id yes, id]
  | .branch _ test yes (some no) => by
    rw [Stmt.moved, Expr.moved_id test, Stmt.moved_id yes, Stmt.moved_id no, id]
  | .whileLoop _ test body => by rw [Stmt.moved, Expr.moved_id test, Stmt.moved_id body, id]
  | .forLoop _ initial test update body => by
    rw [Stmt.moved, Stmt.moved_id initial, Expr.moved_id test, Expr.moved_id update,
      Stmt.moved_id body, id]
  | .print _ e | .expr _ e => by rw [Stmt.moved, Expr.moved_id e, id]

theorem Stmt.movedAll_id : (ss : List Stmt) → Stmt.movedAll id ss = ss
  | [] => rfl
  | s :: ss => by rw [Stmt.movedAll, Stmt.moved_id s, Stmt.movedAll_id ss]

end

theorem Function.moved_id (f : Function) : f.moved id = f := by
  rw [moved, Param.moved_id_eq, List.map_id, Stmt.moved_id]

theorem Task.moved_id (t : Task) : t.moved id = t := by
  cases t with
  | eval e => rw [moved, Expr.moved_id]
  | exec s => rw [moved, Stmt.moved_id]

end Unmoved

section Erased

mutual

theorem Expr.erase_eq : (e : Expr) → e.erase = e.moved fun _ => .none
  | .literal _ _ | .name _ _ | .read _ | .stuck _ => rfl
  | .assign _ _ e => by rw [Expr.erase, Expr.moved, Expr.erase_eq e]
  | .logical _ _ left right => by
    rw [Expr.erase, Expr.moved, Expr.erase_eq left, Expr.erase_eq right]
  | .binary _ _ left right => by
    rw [Expr.erase, Expr.moved, Expr.erase_eq left, Expr.erase_eq right]
  | .unary _ _ e => by rw [Expr.erase, Expr.moved, Expr.erase_eq e]
  | .call _ _ arguments => by rw [Expr.erase, Expr.moved, Expr.eraseAll_eq arguments]

theorem Expr.eraseAll_eq : (es : List Expr) → Expr.eraseAll es = Expr.movedAll (fun _ => .none) es
  | [] => rfl
  | e :: es => by rw [Expr.eraseAll, Expr.movedAll, Expr.erase_eq e, Expr.eraseAll_eq es]

end

theorem Expr.erase_eq_moved : Expr.erase = Expr.moved fun _ => .none := funext Expr.erase_eq

mutual

theorem Stmt.erase_eq : (s : Stmt) → s.erase = s.moved fun _ => .none
  | .declare _ _ _ _ | .returns _ _ => by rw [Stmt.erase, Stmt.moved, Expr.erase_eq_moved]
  | .unusable _ _ _ | .breaks _ | .continues _ | .stuck _ => rfl
  | .function _ _ _ body => by
    rw [Stmt.erase, Stmt.moved, Stmt.erase_eq body]
    rfl
  | .block _ body => by rw [Stmt.erase, Stmt.moved, Stmt.eraseAll_eq body]
  | .branch _ test yes none => by
    rw [Stmt.erase, Stmt.moved, Expr.erase_eq test, Stmt.erase_eq yes]
  | .branch _ test yes (some no) => by
    rw [Stmt.erase, Stmt.moved, Expr.erase_eq test, Stmt.erase_eq yes, Stmt.erase_eq no]
  | .whileLoop _ test body => by
    rw [Stmt.erase, Stmt.moved, Expr.erase_eq test, Stmt.erase_eq body]
  | .forLoop _ initial test update body => by
    rw [Stmt.erase, Stmt.moved, Stmt.erase_eq initial, Expr.erase_eq test, Expr.erase_eq update,
      Stmt.erase_eq body]
  | .print _ e | .expr _ e => by rw [Stmt.erase, Stmt.moved, Expr.erase_eq e]

theorem Stmt.eraseAll_eq : (ss : List Stmt) → Stmt.eraseAll ss = Stmt.movedAll (fun _ => .none) ss
  | [] => rfl
  | s :: ss => by rw [Stmt.eraseAll, Stmt.movedAll, Stmt.erase_eq s, Stmt.eraseAll_eq ss]

end

theorem Program.erase_eq (p : Program) :
    p.erase = ⟨.none, p.body.map (Stmt.moved fun _ => .none)⟩ := by
  rw [erase, Stmt.eraseAll_eq, Stmt.movedAll_eq]

end Erased

end Guion
