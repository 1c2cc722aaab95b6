import Guion.Tree

namespace Guion.Tree

mutual

/-- Whether two trees are equal as data. Numbers are equal by size, and where a node stands makes
no difference. -/
def equals : Tree → Tree → Bool
  | null, null => true
  | text s, text t => s == t
  | list ss, list ts => equalsAll ss ts
  | node k _ _ ss, node l _ _ ts => k == l && equalsAll ss ts
  | s, t =>
    match s.number?, t.number? with
    | some m, some n => m.equals n
    | _, _ => false

def equalsAll : List Tree → List Tree → Bool
  | [], [] => true
  | s :: ss, t :: ts => equals s t && equalsAll ss ts
  | _, _ => false

end

mutual

def isSame : Tree → Tree → Bool
  | null, null => true
  | bool a, bool b => a == b
  | int m, int n => m == n
  | float x, float y => decide (x = y)
  | text s, text t => s == t
  | list ss, list ts => areSame ss ts
  | node k a b ss, node l c d ts => k == l && isSame a c && isSame b d && areSame ss ts
  | _, _ => false

def areSame : List Tree → List Tree → Bool
  | [], [] => true
  | s :: ss, t :: ts => isSame s t && areSame ss ts
  | _, _ => false

end

mutual

theorem isSame_self : ∀ t : Tree, isSame t t = true
  | null => rfl
  | bool _ => by simp [isSame]
  | int _ => by simp [isSame]
  | float _ => by simp [isSame]
  | text _ => by simp [isSame]
  | list ts => by simp [isSame, areSame_self ts]
  | node _ a b ts => by simp [isSame, isSame_self a, isSame_self b, areSame_self ts]

theorem areSame_self : ∀ ts : List Tree, areSame ts ts = true
  | [] => rfl
  | t :: ts => by simp [areSame, isSame_self t, areSame_self ts]

end

mutual

theorem eq_of_isSame : ∀ s t : Tree, isSame s t = true → s = t := by
  intro s t h
  cases s <;> cases t <;> simp only [isSame, Bool.false_eq_true] at h
  case null.null => rfl
  case bool.bool => simpa using h
  case int.int => simpa using h
  case float.float => simpa using h
  case text.text => simpa using h
  case list.list ss ts => rw [eq_of_areSame ss ts h]
  case node.node k a b ss l c d ts =>
    simp only [Bool.and_eq_true, beq_iff_eq] at h
    rw [h.1.1.1, eq_of_isSame a c h.1.1.2, eq_of_isSame b d h.1.2, eq_of_areSame ss ts h.2]

theorem eq_of_areSame : ∀ ss ts : List Tree, areSame ss ts = true → ss = ts := by
  intro ss ts h
  cases ss <;> cases ts <;> simp only [areSame, Bool.false_eq_true, Bool.and_eq_true] at h
  case nil.nil => rfl
  case cons.cons s ss t ts => rw [eq_of_isSame s t h.1, eq_of_areSame ss ts h.2]

end

instance : DecidableEq Tree := fun s t =>
  if h : isSame s t = true then .isTrue (eq_of_isSame s t h)
  else .isFalse fun e => h (e ▸ isSame_self s)

end Guion.Tree
