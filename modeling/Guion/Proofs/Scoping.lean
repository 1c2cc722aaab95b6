import Guion.Proofs.Conformity
import Guion.Proofs.Places
import Guion.Store.History

namespace Guion

/-- The names of a frame lead to different variables, and a variable of none of the language's types
holds no value. -/
structure Frame.Orderly (frame : Frame) : Prop where
  distinct : (frame.map Prod.fst).Pairwise fun a b => a.agrees b = false
  untyped : ∀ entry ∈ frame, ∀ data, entry.2.type = .unknown data → entry.2.value = .null

/-- The frames below a height are the same, with the same names and types in the same order, and
other values only at the places told. In the frame at that height what was there keeps its place. -/
structure Layers.Follows (height : Nat) (touched : Place → Prop) (layers layers' : Layers) :
    Prop where
  names : ∀ p, p.1 < height → (layers'.binding? p).map (fun e => (e.1, e.2.type)) =
    (layers.binding? p).map fun e => (e.1, e.2.type)
  values : ∀ p, p.1 < height → ¬ touched p → layers'.binding? p = layers.binding? p
  order : ∀ p key var, p.1 ≤ height → layers.binding? p = some (key, var) →
    ∃ var', layers'.binding? p = some (key, var') ∧ var'.type = var.type

namespace Store

def Action.isPlain : Action → Bool
  | declare _ _ _ => true
  | lookup _ => true
  | assign _ _ => true
  | _ => false

/-- The store after operations one after the other, whether those before them failed or not. -/
def after (s : Store) (actions : List Action) : Store :=
  actions.foldl (fun s action => (s.perform action).2) s

/-- The operations of a scope that come to be performed: those up to the first that fails. -/
def performed (s : Store) : List Action → List Action
  | [] => []
  | action :: rest =>
    match s.perform action with
    | (.ok _, s) => action :: s.performed rest
    | (.error _, _) => [action]

/-- The operations start with so many frames that may be closed and end with so many. They close no
other frame, and in each scope none but those opened in it, which they all close. -/
inductive Opens : Nat → List Action → Nat → Prop where
  | nil (n : Nat) : Opens n [] n
  | plain {n m : Nat} {action : Action} {rest : List Action} : action.isPlain = true →
    Opens n rest m → Opens n (action :: rest) m
  | openScope {n m : Nat} {rest : List Action} : Opens (n + 1) rest m →
    Opens n (.openScope :: rest) m
  | closeScope {n m : Nat} {rest : List Action} : Opens n rest m →
    Opens (n + 1) (.closeScope :: rest) m
  | inScope {n m : Nat} {contents rest : List Action} : Opens 0 contents 0 → Opens n rest m →
    Opens n (.inScope contents :: rest) m

inductive Occurs : Store → List Action → Store → Action → Prop where
  | here (s : Store) (action : Action) (rest : List Action) : Occurs s (action :: rest) s action
  | inside {s q : Store} {contents rest : List Action} {action : Action} :
    Occurs s.openScope (s.openScope.performed contents) q action →
    Occurs s (.inScope contents :: rest) q action
  | later {s q : Store} {first action : Action} {rest : List Action} :
    Occurs (s.perform first).2 rest q action → Occurs s (first :: rest) q action

/-- In the course of the operations, a value is stored at a place, under a name that stands for the
variable there by then. -/
def Assigned (s : Store) (actions : List Action) (p : Place) : Prop :=
  ∃ q name v w t var, Occurs s actions q (.assign name v) ∧ q.assign name v = (.ok w, t) ∧
    q.layers.Resolves name p var

section Perform

variable {s q t : Store} {action : Action} {actions rest contents : List Action}

theorem performAll_error {cause : Failure} (h : s.perform action = (.error cause, q)) :
    s.performAll (action :: rest) = (.error cause, q) := by
  simp only [performAll, h]

theorem performAll_ok {reply : Reply} (h : s.perform action = (.ok reply, q)) :
    (s.performAll (action :: rest)).2 = (q.performAll rest).2 := by
  simp only [performAll, h]
  rcases q.performAll rest with ⟨cause | others, l⟩ <;> rfl

theorem performAll_cons_ok {replies : List Reply}
    (h : (s.performAll (action :: rest)).1 = .ok replies) :
    ∃ reply others, (s.perform action).1 = .ok reply ∧
      ((s.perform action).2.performAll rest).1 = .ok others := by
  rcases hr : s.perform action with ⟨cause | reply, q⟩
  · rw [performAll_error hr] at h
    cases h
  · simp only [performAll, hr] at h
    rcases ho : q.performAll rest with ⟨cause | others, l⟩
    · simp only [ho] at h
      cases h
    · exact ⟨reply, others, rfl, rfl⟩

theorem perform_inScope (s : Store) (contents : List Action) :
    (s.perform (.inScope contents)).2 = (s.openScope.performAll contents).2.closeScope ∧
      ∀ reply, (s.perform (.inScope contents)).1 = .ok reply →
        ∃ replies, (s.openScope.performAll contents).1 = .ok replies := by
  simp only [perform]
  rcases s.openScope.performAll contents with ⟨cause | replies, l⟩
  · exact ⟨rfl, nofun⟩
  · exact ⟨rfl, fun _ _ => ⟨replies, rfl⟩⟩

theorem performAll_snd (s : Store) (actions : List Action) :
    (s.performAll actions).2 = s.after (s.performed actions) := by
  induction actions generalizing s with
  | nil => simp [performAll, performed, after]
  | cons action rest ih =>
    rcases h : s.perform action with ⟨cause | reply, q⟩
    · rw [performAll_error h]
      simp [performed, h, after]
    · rw [performAll_ok h, ih]
      simp [performed, h, after]

theorem performed_prefix (s : Store) (actions : List Action) :
    s.performed actions <+: actions := by
  induction actions generalizing s with
  | nil => exact List.prefix_rfl
  | cons action rest ih =>
    simp only [performed]
    split
    · exact List.prefix_cons_inj action |>.mpr (ih _)
    · exact ⟨rest, rfl⟩

theorem performed_ok {replies : List Reply} (h : (s.performAll actions).1 = .ok replies) :
    s.performed actions = actions := by
  induction actions generalizing s replies with
  | nil => rfl
  | cons action rest ih =>
    obtain ⟨_, others, hreply, hothers⟩ := performAll_cons_ok h
    rcases hr : s.perform action with ⟨cause | reply, q⟩ <;> rw [hr] at hreply hothers
    · cases hreply
    · simp only [performed, hr, ih hothers]

theorem perform_inScope_snd (s : Store) (contents : List Action) :
    (s.perform (.inScope contents)).2 =
      (s.openScope.after (s.openScope.performed contents)).closeScope := by
  rw [(perform_inScope s contents).1, performAll_snd]

end Perform

section Plain

variable {s t : Store} {name : Name}

theorem declare_layers {type : TypeName} {value : Option Value} {var : Variable}
    (h : s.declare name type value = (.ok var, t)) :
    ∃ outer, s.layers = s.current :: outer ∧ t.layers = (s.current ++ [(name, var)]) :: outer := by
  obtain ⟨outer, hlayers, hinsert⟩ := s.exists_layers
  rw [(declare_ok h).2]
  exact ⟨outer, hlayers, hinsert name var⟩

theorem assign_layers {v w : Value} (h : s.assign name v = (.ok w, t)) :
    ∃ p var, s.layers.Resolves name p var ∧
      Value.conform var.type v (.assignment name) = .ok w ∧
      t.layers.length = s.layers.length ∧ ∀ q, t.layers.binding? q =
        if q = p then (s.layers.binding? q).map (fun e => (e.1, ⟨var.type, w, true⟩))
        else s.layers.binding? q := by
  obtain ⟨var, hfind, hconform, rfl⟩ := assign_ok h
  rw [find?_layers] at hfind
  obtain ⟨p, hresolves, hset⟩ := Layers.findSome?_resolves hfind
  refine ⟨p, var, hresolves, hconform, ?_, fun q => ?_⟩
  · rw [layers_set, Layers.length_set]
  · rw [layers_set, hset]

theorem plain_cases {action : Action} (ha : action.isPlain = true) :
    (s.perform action).2 = s ∨ ∃ reply, (s.perform action).1 = .ok reply ∧
      ((∃ name type value var, s.declare name type value = (.ok var, (s.perform action).2)) ∨
        ∃ name v w, action = .assign name v ∧
          s.assign name v = (.ok w, (s.perform action).2)) := by
  cases action with
  | declare name type value =>
    rcases h : s.declare name type value with ⟨cause | var, t⟩
    · obtain ⟨_, rfl⟩ := declare_error h
      exact .inl (by simp only [perform, h])
    · refine .inr ⟨.var name var, by simp only [perform, h], .inl ⟨name, type, value, var, ?_⟩⟩
      simp only [perform, h]
  | lookup name =>
    simp only [perform]
    split <;> exact .inl rfl
  | assign name v =>
    rcases h : s.assign name v with ⟨cause | w, t⟩
    · obtain ⟨_, rfl⟩ := assign_error h
      exact .inl (by simp only [perform, h])
    · refine .inr ⟨.value w, by simp only [perform, h], .inr ⟨name, v, w, rfl, ?_⟩⟩
      simp only [perform, h]
  | openScope | closeScope | inScope => cases ha

theorem perform_atomic {action : Action} {cause : Failure} (ha : action.isPlain = true)
    (h : (s.perform action).1 = .error cause) : (s.perform action).2 = s := by
  obtain hsame | ⟨reply, hreply, _⟩ := plain_cases ha
  · exact hsame
  · rw [h] at hreply
    cases hreply

end Plain

end Store

namespace Layers

variable {height : Nat} {touched : Place → Prop} {layers mid layers' outer : Layers}

namespace Follows

theorem refl (layers : Layers) : Follows height touched layers layers :=
  ⟨fun _ _ => rfl, fun _ _ _ => rfl, fun _ _ var _ h => ⟨var, h, rfl⟩⟩

theorem trans (h : Follows height touched layers mid) (h' : Follows height touched mid layers') :
    Follows height touched layers layers' := by
  refine ⟨fun p hp => ?_, fun p hp hnot => ?_, fun p key var hp hentry => ?_⟩
  · exact (h'.names p hp).trans (h.names p hp)
  · exact (h'.values p hp hnot).trans (h.values p hp hnot)
  · obtain ⟨between, hbetween, htype⟩ := h.order p key var hp hentry
    obtain ⟨last, hlast, htype'⟩ := h'.order p key between hp hbetween
    exact ⟨last, hlast, htype'.trans htype⟩

theorem mono {low : Nat} {touched' : Place → Prop} (h : Follows height touched layers layers')
    (hlow : low ≤ height) (hsub : ∀ p, touched p → touched' p) :
    Follows low touched' layers layers' :=
  ⟨fun p hp => h.names p (Nat.lt_of_lt_of_le hp hlow),
    fun p hp hnot => h.values p (Nat.lt_of_lt_of_le hp hlow) fun ht => hnot (hsub p ht),
    fun p key var hp => h.order p key var (Nat.le_trans hp hlow)⟩

theorem of_entries (hbelow : ∀ p, p.1 < height → layers'.binding? p = layers.binding? p)
    (hown : ∀ p entry, p.1 = height → layers.binding? p = some entry →
      layers'.binding? p = some entry) : Follows height touched layers layers' := by
  refine ⟨fun p hp => by rw [hbelow p hp], fun p hp _ => hbelow p hp, fun p key var hp h => ?_⟩
  obtain hlt | heq := Nat.lt_or_eq_of_le hp
  · exact ⟨var, (hbelow p hlt).trans h, rfl⟩
  · exact ⟨var, hown p _ heq h, rfl⟩

theorem append (frame : Frame) (entry : Name × Variable) (h : height ≤ outer.length) :
    Follows height touched (frame :: outer) ((frame ++ [entry]) :: outer) := by
  refine .of_entries (fun p hp => ?_) fun p other _ hother => ?_
  · rw [binding?_append, if_neg]
    rintro rfl
    exact Nat.lt_irrefl _ (Nat.lt_of_lt_of_le hp h)
  · rw [binding?_append, if_neg, hother]
    rintro rfl
    rw [binding?_own] at hother
    simp at hother

theorem push (frame : Frame) (h : height < layers.length) :
    Follows height touched layers (frame :: layers) :=
  .of_entries (fun _ hp => binding?_outer (Nat.lt_trans hp h))
    fun _ _ hp hentry => (binding?_outer (hp ▸ h)).trans hentry

theorem pop (frame : Frame) (h : height < outer.length) :
    Follows height touched (frame :: outer) outer :=
  .of_entries (fun _ hp => (binding?_outer (Nat.lt_trans hp h)).symm)
    fun _ _ hp hentry => (binding?_outer (hp ▸ h)).symm.trans hentry

theorem store {p : Place} {key : Name} {var : Variable} {w : Value}
    (hp : layers.binding? p = some (key, var)) (htouched : touched p)
    (hset : ∀ q, layers'.binding? q =
      if q = p then (layers.binding? q).map (fun e => (e.1, ⟨var.type, w, true⟩))
      else layers.binding? q) : Follows height touched layers layers' := by
  have hthere : layers'.binding? p = some (key, ⟨var.type, w, true⟩) := by
    rw [hset, if_pos rfl, hp]
    rfl
  have helse : ∀ q, q ≠ p → layers'.binding? q = layers.binding? q := fun q hq => by
    rw [hset, if_neg hq]
  refine ⟨fun q _ => ?_, fun q _ hnot => helse q fun heq => hnot (heq ▸ htouched),
    fun q other old _ hq => ?_⟩
  · by_cases heq : q = p
    · rw [heq, hthere, hp]
      rfl
    · rw [helse q heq]
  · by_cases heq : q = p
    · subst heq
      rw [hp] at hq
      cases hq
      exact ⟨_, hthere, rfl⟩
    · exact ⟨old, (helse q heq).trans hq, rfl⟩

end Follows

theorem Resolves.congr {name : Name} {p : Place} {var : Variable}
    (hnames : ∀ q, (layers'.binding? q).map Prod.fst = (layers.binding? q).map Prod.fst)
    (h : layers.Resolves name p var) : ∃ var', layers'.Resolves name p var' := by
  have hback : ∀ q key old, layers'.binding? q = some (key, old) →
      ∃ new, layers.binding? q = some (key, new) := by
    intro q key old hq
    have hkey : (layers.binding? q).map Prod.fst = some key := by rw [← hnames, hq]; rfl
    obtain ⟨⟨_, new⟩, hnew, rfl⟩ := Option.map_eq_some_iff.mp hkey
    exact ⟨new, hnew⟩
  obtain ⟨⟨key, hp, hagrees⟩, hinnermost⟩ := h
  have hkey : (layers'.binding? p).map Prod.fst = some key := by rw [hnames, hp]; rfl
  obtain ⟨⟨_, new⟩, hnew, rfl⟩ := Option.map_eq_some_iff.mp hkey
  refine ⟨new, ⟨_, hnew, hagrees⟩, fun q other old hq hother => ?_⟩
  obtain ⟨_, hq'⟩ := hback q other old hq
  exact hinnermost q other _ hq' hother

theorem Follows.resolves (h : Follows layers.length touched layers layers')
    (hlength : layers'.length = layers.length) (name : Name) (p : Place) :
    (∃ var, layers'.Resolves name p var) ↔ ∃ var, layers.Resolves name p var := by
  have hnames : ∀ q, (layers'.binding? q).map Prod.fst = (layers.binding? q).map Prod.fst := by
    intro q
    by_cases hq : q.1 < layers.length
    · have hpairs := congrArg (Option.map Prod.fst) (h.names q hq)
      simpa [Option.map_map, Function.comp_def] using hpairs
    · rw [binding?_of_length_le (by omega), binding?_of_length_le (by omega)]
  constructor
  · rintro ⟨var, hvar⟩
    exact hvar.congr fun q => (hnames q).symm
  · rintro ⟨var, hvar⟩
    exact hvar.congr hnames

end Layers

namespace Store

variable {s own : Store} {height n m : Nat} {actions contents ran : List Action}

theorem after_cons (s : Store) (action : Action) (rest : List Action) :
    s.after (action :: rest) = (s.perform action).2.after rest := rfl

theorem Assigned.later {action : Action} {p : Place} {rest : List Action}
    (h : (s.perform action).2.Assigned rest p) : s.Assigned (action :: rest) p := by
  obtain ⟨q, name, v, w, t, var, hoccurs, hassign⟩ := h
  exact ⟨q, name, v, w, t, var, .later hoccurs, hassign⟩

theorem Assigned.inside {p : Place} {rest : List Action}
    (h : s.openScope.Assigned (s.openScope.performed contents) p) :
    s.Assigned (.inScope contents :: rest) p := by
  obtain ⟨q, name, v, w, t, var, hoccurs, hassign⟩ := h
  exact ⟨q, name, v, w, t, var, .inside hoccurs, hassign⟩

theorem openScope_length (s : Store) : s.openScope.layers.length = s.layers.length + 1 := rfl

theorem closeScope_length (s : Store) :
    s.closeScope.layers.length = max (s.layers.length - 1) 1 := by
  obtain ⟨globals, frames⟩ := s
  cases frames <;> simp [closeScope, layers]

theorem closeScope_follows {touched : Place → Prop}
    (h : Layers.Follows s.layers.length touched s.openScope.layers own.layers)
    (hlength : s.layers.length < own.layers.length) :
    own.closeScope.layers = own.layers.tail ∧
      Layers.Follows s.layers.length touched s.layers own.closeScope.layers := by
  have hpos := s.layers_pos
  have hclose : own.closeScope.layers = own.layers.tail := layers_closeScope (by omega)
  obtain ⟨outer, hown, _⟩ := own.exists_layers
  rw [hown, List.length_cons] at hlength
  have houter : ∀ p : Place, p.1 < s.layers.length →
      own.closeScope.layers.binding? p = own.layers.binding? p := by
    intro p hp
    rw [hclose, hown, List.tail_cons, Layers.binding?_outer (by omega)]
  have hopened : ∀ p : Place, p.1 < s.layers.length →
      s.openScope.layers.binding? p = s.layers.binding? p := fun p hp => by
    rw [layers_openScope, Layers.binding?_outer hp]
  refine ⟨hclose, fun p hp => ?_, fun p hp hnot => ?_, fun p key var _ hentry => ?_⟩
  · rw [houter p hp, h.names p hp, hopened p hp]
  · rw [houter p hp, h.values p hp hnot, hopened p hp]
  · have hp := Layers.lt_length hentry
    rw [houter p hp]
    exact h.order p key var (Nat.le_of_lt hp) ((hopened p hp).trans hentry)

theorem plain_follows {action : Action} (ha : action.isPlain = true)
    (hheight : height < s.layers.length) (rest : List Action) :
    Layers.Follows height (s.Assigned (action :: rest)) s.layers (s.perform action).2.layers ∧
      (s.perform action).2.layers.length = s.layers.length := by
  obtain hsame | ⟨_, _, ⟨name, type, value, var, hdeclare⟩ | ⟨name, v, w, rfl, hassign⟩⟩ :=
    plain_cases ha
  · rw [hsame]
    exact ⟨.refl _, rfl⟩
  · obtain ⟨outer, hlayers, hnew⟩ := declare_layers hdeclare
    rw [hlayers, List.length_cons] at hheight
    rw [hlayers, hnew]
    exact ⟨.append _ _ (by omega), rfl⟩
  · obtain ⟨p, var, hresolves, _, hlength, hset⟩ := assign_layers hassign
    obtain ⟨key, hp, _⟩ := hresolves.declared
    have htouched : s.Assigned (.assign name v :: rest) p :=
      ⟨s, name, v, w, _, var, .here _ _ _, hassign, hresolves⟩
    exact ⟨.store hp htouched hset, hlength⟩

theorem follows_nil (h : height + n < s.layers.length) :
    Layers.Follows height (s.Assigned []) s.layers (s.after []).layers ∧
      height < (s.after []).layers.length :=
  ⟨.refl _, Nat.lt_of_le_of_lt (Nat.le_add_right height n) h⟩

theorem follows_cons {action : Action} {rest : List Action}
    (hstep : Layers.Follows height (s.Assigned (action :: rest)) s.layers
      (s.perform action).2.layers)
    (hrest : Layers.Follows height ((s.perform action).2.Assigned rest)
      (s.perform action).2.layers ((s.perform action).2.after rest).layers) :
    Layers.Follows height (s.Assigned (action :: rest)) s.layers
      (s.after (action :: rest)).layers :=
  hstep.trans (hrest.mono (Nat.le_refl _) fun _ => .later)

/-- Operations that close none of the frames that are open up to a height leave those as they are,
but for what is assigned in them. -/
theorem Opens.follows (h : Opens n actions m) (hheight : height + n < s.layers.length)
    (hran : ran <+: actions) :
    Layers.Follows height (s.Assigned ran) s.layers (s.after ran).layers ∧
      height < (s.after ran).layers.length := by
  -- `n` frames may be closed, and more than `height` stay even then
  induction h generalizing s height ran with
  | nil n =>
    rw [List.prefix_nil.mp hran]
    exact follows_nil hheight
  | plain ha _ ih =>
    obtain rfl | ⟨ran, rfl, hprefix⟩ := List.prefix_cons_iff.mp hran
    · exact follows_nil hheight
    · obtain ⟨hstep, hlength⟩ := plain_follows ha (Nat.lt_of_le_of_lt (Nat.le_add_right ..) hheight)
        ran
      obtain ⟨hrest, hend⟩ := ih (hlength ▸ hheight) hprefix
      exact ⟨follows_cons hstep hrest, hend⟩
  | @openScope n m rest _ ih =>
    obtain rfl | ⟨ran, rfl, hprefix⟩ := List.prefix_cons_iff.mp hran
    · exact follows_nil hheight
    · have hopen : height + (n + 1) < s.openScope.layers.length := Nat.succ_lt_succ hheight
      obtain ⟨hrest, hend⟩ := ih hopen hprefix
      exact ⟨follows_cons (.push [] (by omega)) hrest, hend⟩
  | @closeScope n m rest _ ih =>
    obtain rfl | ⟨ran, rfl, hprefix⟩ := List.prefix_cons_iff.mp hran
    · exact follows_nil hheight
    · have hclose : s.closeScope.layers = s.layers.tail := layers_closeScope (by omega)
      obtain ⟨outer, hlayers, _⟩ := s.exists_layers
      rw [hlayers, List.tail_cons] at hclose
      rw [hlayers, List.length_cons] at hheight
      have hstep : Layers.Follows height (s.Assigned (.closeScope :: ran)) s.layers
          s.closeScope.layers := by
        rw [hclose, hlayers]
        exact .pop _ (by omega)
      have hopen : height + n < s.closeScope.layers.length := by
        rw [hclose]
        omega
      obtain ⟨hrest, hend⟩ := ih hopen hprefix
      exact ⟨follows_cons hstep hrest, hend⟩
  | @inScope n m contents rest _ _ ihi ih =>
    obtain rfl | ⟨ran, rfl, hprefix⟩ := List.prefix_cons_iff.mp hran
    · exact follows_nil hheight
    · -- for what is inside, all frames of `s` are below the height
      have hown : s.layers.length + 0 < s.openScope.layers.length := Nat.lt_succ_self _
      obtain ⟨hinner, hopen⟩ := ihi hown (s.openScope.performed_prefix contents)
      obtain ⟨hclose, hkept⟩ := closeScope_follows hinner hopen
      have hperform := perform_inScope_snd s contents
      rw [← hperform] at hclose hkept
      have hlength : height + n < (s.perform (.inScope contents)).2.layers.length := by
        rw [hclose, List.length_tail]
        omega
      obtain ⟨hrest, hend⟩ := ih hlength hprefix
      exact ⟨follows_cons (hkept.mono (by omega) fun _ => .inside) hrest, hend⟩

theorem Opens.length_eq (h : Opens n actions m) (hn : n < s.layers.length) {replies : List Reply}
    (hok : (s.performAll actions).1 = .ok replies) :
    (s.after actions).layers.length + n = s.layers.length + m := by
  induction h generalizing s replies with
  | nil n => rfl
  | plain ha _ ih =>
    obtain ⟨_, others, _, hothers⟩ := performAll_cons_ok hok
    obtain ⟨_, hlength⟩ := plain_follows ha s.layers_pos []
    have hrest := ih (hlength ▸ hn) hothers
    rw [after_cons, hrest, hlength]
  | @openScope n m rest _ ih =>
    obtain ⟨_, others, _, hothers⟩ := performAll_cons_ok hok
    have hlength := s.openScope_length
    have hrest := ih (s := s.openScope) (by omega) hothers
    have hafter : s.after (.openScope :: rest) = s.openScope.after rest := rfl
    rw [hafter]
    omega
  | @closeScope n m rest _ ih =>
    obtain ⟨_, others, _, hothers⟩ := performAll_cons_ok hok
    have hlength := s.closeScope_length
    have hrest := ih (s := s.closeScope) (by omega) hothers
    have hafter : s.after (.closeScope :: rest) = s.closeScope.after rest := rfl
    rw [hafter]
    omega
  | @inScope n m contents rest hcontents _ ihi ih =>
    obtain ⟨reply, others, hreply, hothers⟩ := performAll_cons_ok hok
    obtain ⟨inner, hinner⟩ := (perform_inScope s contents).2 reply hreply
    have hown := ihi (s := s.openScope) (Nat.succ_pos _) hinner
    rw [openScope_length] at hown
    have hlength : (s.perform (.inScope contents)).2.layers.length = s.layers.length := by
      have hpos := s.layers_pos
      rw [perform_inScope_snd, performed_ok hinner, closeScope_length]
      omega
    have hrest := ih (hlength ▸ hn) hothers
    rw [after_cons, hrest, hlength]

theorem Opens.length_le (h : Opens n actions m) (hran : ran <+: actions)
    (hnone : ∀ q, ¬ Occurs s ran q .openScope) :
    (s.after ran).layers.length ≤ s.layers.length := by
  induction h generalizing s ran with
  | nil n =>
    rw [List.prefix_nil.mp hran]
    exact Nat.le_refl _
  | plain ha _ ih =>
    obtain rfl | ⟨ran, rfl, hprefix⟩ := List.prefix_cons_iff.mp hran
    · exact Nat.le_refl _
    · obtain ⟨_, hlength⟩ := plain_follows ha s.layers_pos []
      exact hlength ▸ ih hprefix fun q hq => hnone q (.later hq)
  | openScope _ ih =>
    obtain rfl | ⟨ran, rfl, hprefix⟩ := List.prefix_cons_iff.mp hran
    · exact Nat.le_refl _
    · exact absurd (.here s .openScope ran) (hnone s)
  | closeScope _ ih =>
    obtain rfl | ⟨ran, rfl, hprefix⟩ := List.prefix_cons_iff.mp hran
    · exact Nat.le_refl _
    · have hrest := ih (s := s.closeScope) hprefix fun q hq => hnone q (.later hq)
      have hpos := s.layers_pos
      rw [closeScope_length] at hrest
      exact hrest.trans (by omega)
  | @inScope n m contents rest _ _ ihi ih =>
    obtain rfl | ⟨ran, rfl, hprefix⟩ := List.prefix_cons_iff.mp hran
    · exact Nat.le_refl _
    · have hown := ihi (s.openScope.performed_prefix contents) fun q hq => hnone q (.inside hq)
      have hrest := ih hprefix fun q hq => hnone q (.later hq)
      have hpos := s.layers_pos
      rw [openScope_length] at hown
      rw [perform_inScope_snd, closeScope_length] at hrest
      rw [after_cons, perform_inScope_snd]
      exact hrest.trans (by omega)

end Store

namespace Value

theorem eq_null_of_unknown {v w : Value} {data : Tree} {slot : Slot}
    (h : conform (.unknown data) v slot = .ok w) : w = .null := by
  have hcompatible := (conform_ok h).2
  cases w with
  | null => rfl
  | _ => cases hcompatible

end Value

namespace Frame

variable {frame : Frame} {name : Name} {var : Variable}

theorem mem_set {entry : Name × Variable} (h : entry ∈ frame.set name var) :
    entry ∈ frame ∨ entry.2 = var := by
  induction frame with
  | nil => cases h
  | cons first rest ih =>
    simp only [Frame.set] at h
    split at h
    · obtain rfl | h := List.mem_cons.mp h
      · exact .inr rfl
      · exact .inl (List.mem_cons_of_mem _ h)
    · obtain rfl | h := List.mem_cons.mp h
      · exact .inl List.mem_cons_self
      · exact (ih h).imp_left (List.mem_cons_of_mem _)

theorem Orderly.nil : Orderly [] := ⟨.nil, nofun⟩

theorem Orderly.append (h : frame.Orderly) (hnone : frame.get? name = none)
    (hvar : ∀ data, var.type = .unknown data → var.value = .null) :
    Orderly (frame ++ [(name, var)]) := by
  refine ⟨?_, List.forall_mem_append.mpr ⟨h.untyped, List.forall_mem_singleton.mpr hvar⟩⟩
  rw [List.map_append]
  have hnew : ([(name, var)].map Prod.fst).Pairwise fun a b : Name => a.agrees b = false :=
    List.pairwise_singleton _ _
  refine List.pairwise_append.mpr ⟨h.distinct, hnew, fun key hkey last hlast => ?_⟩
  obtain ⟨entry, hentry, rfl⟩ := List.mem_map.mp hkey
  obtain rfl := List.mem_singleton.mp hlast
  exact get?_none.mp hnone entry hentry

theorem Orderly.set (h : frame.Orderly)
    (hvar : ∀ data, var.type = .unknown data → var.value = .null) :
    Orderly (frame.set name var) := by
  refine ⟨map_set name var frame ▸ h.distinct, fun entry hentry => ?_⟩
  obtain hold | rfl := mem_set hentry
  · exact h.untyped entry hold
  · exact hvar

end Frame

namespace Store

variable {s t : Store} {name : Name}

def Orderly (s : Store) : Prop := ∀ frame ∈ s.layers, frame.Orderly

theorem Orderly.openScope (h : s.Orderly) : s.openScope.Orderly :=
  List.forall_mem_cons.mpr ⟨.nil, h⟩

theorem Orderly.closeScope (h : s.Orderly) : s.closeScope.Orderly := by
  obtain ⟨globals, frames⟩ := s
  cases frames with
  | nil => exact h
  | cons first rest => exact (List.forall_mem_cons.mp h).2

theorem declare_empty {type : TypeName} {value : Option Value} {var : Variable}
    (h : s.declare name type value = (.ok var, t)) :
    s.current.get? name = none ∧ ∀ data, var.type = .unknown data → var.value = .null := by
  obtain ⟨_, _, h⟩ := bind_eq_ok (declare_ok h).1
  split at h
  · cases h
  · rename_i hfree
    refine ⟨Option.not_isSome_iff_eq_none.mp hfree, ?_⟩
    cases value with
    | none =>
      cases h
      exact fun _ _ => rfl
    | some v =>
      obtain ⟨w, hconform, h⟩ := bind_eq_ok h
      cases h
      rintro data rfl
      exact Value.eq_null_of_unknown hconform

theorem Orderly.declare {type : TypeName} {value : Option Value} {var : Variable} (h : s.Orderly)
    (hdeclare : s.declare name type value = (.ok var, t)) : t.Orderly := by
  obtain ⟨outer, hlayers, hnew⟩ := declare_layers hdeclare
  obtain ⟨hnone, hvar⟩ := declare_empty hdeclare
  unfold Orderly at h ⊢
  rw [hlayers] at h
  rw [hnew]
  obtain ⟨hcurrent, houter⟩ := List.forall_mem_cons.mp h
  exact List.forall_mem_cons.mpr ⟨hcurrent.append hnone hvar, houter⟩

theorem Orderly.assign {v w : Value} (h : s.Orderly) (hassign : s.assign name v = (.ok w, t)) :
    t.Orderly := by
  obtain ⟨var, _, hconform, rfl⟩ := assign_ok hassign
  have hvar : ∀ data, var.type = .unknown data → w = .null := fun data htype => by
    rw [htype] at hconform
    exact Value.eq_null_of_unknown hconform
  unfold Orderly
  rw [layers_set]
  exact Layers.forall_set h fun frame hframe => hframe.set hvar

theorem plain_orderly {action : Action} (ha : action.isPlain = true) (h : s.Orderly) :
    (s.perform action).2.Orderly := by
  obtain hsame | ⟨_, _, ⟨name, type, value, var, hdeclare⟩ | ⟨name, v, w, rfl, hassign⟩⟩ :=
    plain_cases ha
  · exact hsame ▸ h
  · exact h.declare hdeclare
  · exact h.assign hassign

mutual

theorem perform_orderly {s : Store} (h : s.Orderly) :
    (action : Action) → (s.perform action).2.Orderly
  | .declare _ _ _ => plain_orderly rfl h
  | .lookup _ => plain_orderly rfl h
  | .assign _ _ => plain_orderly rfl h
  | .openScope => h.openScope
  | .closeScope => h.closeScope
  | .inScope contents => by
    rw [(perform_inScope s contents).1]
    exact (performAll_orderly h.openScope contents).closeScope

theorem performAll_orderly {s : Store} (h : s.Orderly) :
    (actions : List Action) → (s.performAll actions).2.Orderly
  | [] => h
  | action :: rest => by
    have hfirst := perform_orderly h action
    rcases hr : s.perform action with ⟨cause | reply, q⟩ <;> rw [hr] at hfirst
    · rw [performAll_error hr]
      exact hfirst
    · rw [performAll_ok hr]
      exact performAll_orderly hfirst rest

end

theorem after_orderly (h : s.Orderly) (actions : List Action) : (s.after actions).Orderly := by
  induction actions generalizing s with
  | nil => exact h
  | cons action rest ih => exact ih (perform_orderly h action)

section Lookup

variable {var : Variable} {cause : Failure}

theorem lookup_ok_iff (hname : name.isUsable = true) :
    s.lookup name = .ok var ↔ ∃ p, s.layers.Resolves name p var := by
  rw [lookup_usable hname]
  cases hfind : s.find? name with
  | some found =>
    rw [find?_layers] at hfind
    obtain ⟨p, hresolves, _⟩ := Layers.findSome?_resolves hfind
    constructor
    · rintro ⟨⟩
      exact ⟨p, hresolves⟩
    · rintro ⟨q, hvar⟩
      rw [(hresolves.unique hvar).2]
  | none =>
    rw [find?_layers] at hfind
    refine iff_of_false nofun ?_
    rintro ⟨p, ⟨⟨key, hp, hagrees⟩, _⟩⟩
    have hmissing := Layers.findSome?_none hfind hp
    rw [hagrees] at hmissing
    cases hmissing

theorem lookup_error_iff (hname : name.isUsable = true) :
    s.lookup name = .error cause ↔ cause = .fault (.variableMissing name) none ∧
      ∀ p entry, s.layers.binding? p = some entry → entry.1.agrees name = false := by
  rw [lookup_usable hname]
  cases hfind : s.find? name with
  | some found =>
    rw [find?_layers] at hfind
    obtain ⟨p, ⟨⟨key, hp, hagrees⟩, _⟩, _⟩ := Layers.findSome?_resolves hfind
    refine iff_of_false nofun ?_
    rintro ⟨_, hnone⟩
    have hmissing := hnone p _ hp
    rw [hagrees] at hmissing
    cases hmissing
  | none =>
    rw [find?_layers] at hfind
    constructor
    · rintro ⟨⟩
      exact ⟨rfl, fun p entry => Layers.findSome?_none hfind⟩
    · rintro ⟨rfl, _⟩
      rfl

end Lookup

/-- `t` is the store after a scope on `s` in which the operations `ran` were performed. Below it
every variable is as it was, but for what was assigned under a name that stood for the variable. If
its own frame is the only one left open in it, every name stands for the same variable as before.
That is so unless another frame was opened in it; if one was left open, the innermost such frame is
closed and those below stay. -/
structure Restores (s : Store) (ran : List Action) (t : Store) : Prop where
  follows : Layers.Follows s.layers.length (s.openScope.Assigned ran) s.layers t.layers
  visible : (s.openScope.after ran).layers.length = s.layers.length + 1 →
    t.layers.length = s.layers.length ∧ ∀ name p,
      (∃ var, t.layers.Resolves name p var) ↔ ∃ var, s.layers.Resolves name p var
  plain : (∀ q, ¬ Occurs s.openScope ran q .openScope) →
    (s.openScope.after ran).layers.length = s.layers.length + 1
  left : t.layers = (s.openScope.after ran).layers.tail

theorem Opens.restores (h : Opens 0 contents 0) (hran : ran <+: contents) :
    s.Restores ran (s.openScope.after ran).closeScope := by
  have hown : s.layers.length + 0 < s.openScope.layers.length := Nat.lt_succ_self _
  obtain ⟨hinner, hopen⟩ := h.follows hown hran
  obtain ⟨hclose, hfollows⟩ := closeScope_follows hinner hopen
  refine ⟨hfollows, fun hlength => ?_, fun hnone => ?_, hclose⟩
  · have hsame : (s.openScope.after ran).closeScope.layers.length = s.layers.length := by
      rw [hclose, List.length_tail, hlength, Nat.add_sub_cancel]
    exact ⟨hsame, hfollows.resolves hsame⟩
  · exact Nat.le_antisymm (h.length_le hran hnone) hopen

/-- The laws of a store: its frames are orderly, what fails changes nothing, a declaration adds a
variable at the end of the innermost frame, a name stands for the variable in the innermost frame
that declares it, an assignment changes that variable only, frames keep their variables in their
places as long as they are open, and scopes restore what was visible. -/
structure Scoped (s : Store) : Prop where
  orderly : ∀ frame ∈ s.layers, frame.Orderly
  atomic : ∀ action cause, action.isPlain = true → (s.perform action).1 = .error cause →
    (s.perform action).2 = s
  declared : ∀ name type value var t, s.declare name type value = (.ok var, t) →
    ∃ outer, s.layers = s.current :: outer ∧ t.layers = (s.current ++ [(name, var)]) :: outer
  found : ∀ name var, name.isUsable = true →
    (s.lookup name = .ok var ↔ ∃ p, s.layers.Resolves name p var)
  missing : ∀ name cause, name.isUsable = true →
    (s.lookup name = .error cause ↔ cause = .fault (.variableMissing name) none ∧
      ∀ p entry, s.layers.binding? p = some entry → entry.1.agrees name = false)
  assigned : ∀ name v w t, s.assign name v = (.ok w, t) →
    ∃ p var, s.layers.Resolves name p var ∧
      Value.conform var.type v (.assignment name) = .ok w ∧
      t.layers.length = s.layers.length ∧ ∀ q, t.layers.binding? q =
        if q = p then (s.layers.binding? q).map (fun e => (e.1, ⟨var.type, w, true⟩))
        else s.layers.binding? q
  ordered : ∀ n actions m height, Opens n actions m → height + n < s.layers.length →
    ∀ p key var, p.1 ≤ height → s.layers.binding? p = some (key, var) →
      ∃ var', (s.after actions).layers.binding? p = some (key, var') ∧ var'.type = var.type
  scope : ∀ contents, Opens 0 contents 0 →
    s.Restores (s.openScope.performed contents) (s.perform (.inScope contents)).2
  ended : ∀ contents reply, Opens 0 contents 0 →
    (s.perform (.inScope contents)).1 = .ok reply →
    (s.openScope.after (s.openScope.performed contents)).layers.length = s.layers.length + 1
  opened : ∀ contents, Opens 0 contents 0 →
    s.Restores contents (s.after (.openScope :: (contents ++ [.closeScope])))

/-- After every history of operations the store has the laws of scoping. -/
theorem scoping_kept (history : List Action) : (after {} history).Scoped := by
  have hempty : Orderly {} := List.forall_mem_singleton.mpr .nil
  generalize hs : after {} history = s
  refine ⟨hs ▸ after_orderly hempty history, ?_, ?_, ?_, ?_, ?_, ?_, ?_, ?_, ?_⟩
  · exact fun action cause => perform_atomic
  · exact fun name type value var t => declare_layers
  · exact fun name var => lookup_ok_iff
  · exact fun name cause => lookup_error_iff
  · exact fun name v w t => assign_layers
  · exact fun n actions m height h hheight => (h.follows hheight List.prefix_rfl).1.order
  · intro contents h
    rw [perform_inScope_snd]
    exact h.restores (s.openScope.performed_prefix contents)
  · intro contents reply h hreply
    obtain ⟨replies, hreplies⟩ := (perform_inScope s contents).2 reply hreply
    rw [performed_ok hreplies]
    exact h.length_eq (s := s.openScope) (Nat.succ_pos _) hreplies
  · intro contents h
    have hafter : s.after (.openScope :: (contents ++ [.closeScope])) =
        (s.openScope.after contents).closeScope := by
      simp [after, perform]
    rw [hafter]
    exact h.restores List.prefix_rfl

/-- A scope that fails leaves the variable that was shadowed in it as it was, and the one that was
not as it was assigned to. -/
theorem scoping_kept_shadowing :
    let s := after {} [.declare "x" (.known .entero) (some (.entero 1)),
      .declare "y" (.known .largo) (some (.entero 2))]
    let contents := [.declare "x" (.known .cadena) (some (.cadena "a")), .openScope,
      .assign "y" (.entero 5), .closeScope, .lookup "z"]
    s.Scoped ∧ Opens 0 contents 0 ∧
      (s.perform (.inScope contents)).1 = .error (.fault (.variableMissing "z") none) ∧
      s.Restores (s.openScope.performed contents) (s.perform (.inScope contents)).2 ∧
      (s.perform (.inScope contents)).2.lookup "x" = .ok ⟨.known .entero, .entero 1, true⟩ ∧
      (s.perform (.inScope contents)).2.lookup "y" = .ok ⟨.known .largo, .largo 5, true⟩ := by
  intro s contents
  have hscoped : s.Scoped := scoping_kept _
  have hcontents : Opens 0 contents 0 :=
    .plain rfl (.openScope (.plain rfl (.closeScope (.plain rfl (.nil 0)))))
  exact ⟨hscoped, hcontents, by rfl, hscoped.scope contents hcontents, by rfl, by rfl⟩

/-- A scope fails while a frame that was opened in it is still open. It closes that frame, and its
own stays, with the variable that shadows the global one. -/
theorem scope_left_open :
    let s := after {} [.declare "x" (.known .entero) (some (.entero 1))]
    let contents := [.declare "x" (.known .cadena) (some (.cadena "a")), .openScope, .lookup "z",
      .closeScope]
    Opens 0 contents 0 ∧
      s.lookup "x" = .ok ⟨.known .entero, .entero 1, true⟩ ∧
      (s.perform (.inScope contents)).1 = .error (.fault (.variableMissing "z") none) ∧
      (s.perform (.inScope contents)).2.layers.length = s.layers.length + 1 ∧
      (s.perform (.inScope contents)).2.lookup "x" =
        .ok ⟨.known .cadena, .cadena "a", true⟩ := by
  refine ⟨?_, by rfl, by rfl, by rfl, by rfl⟩
  exact .plain rfl (.openScope (.plain rfl (.closeScope (.nil 0))))

end Store

end Guion
