import Mathlib.Logic.Function.Basic
import Mathlib.Data.List.Induction

/-! Agents that share a state. Each agent has a state of its own from the time it enters until
it leaves, and an action of an agent reads and writes both states at once. -/
namespace Roofline.Library.Agents

/-- What the actions of agents do, and what an agent puts out when it leaves. -/
structure System (S L A O : Type) where
  start : S
  fresh : L
  act : S → L → A → S × L
  leave : S → L → O

inductive Move (T A : Type) where
  | enter (t : T)
  | act (t : T) (a : A)
  | leave (t : T)
  deriving DecidableEq, Repr

namespace Move
variable {T A : Type}

@[simp] def agent : Move T A → T
  | .enter t => t
  | .act t _ => t
  | .leave t => t

@[simp] def action : Move T A → Option A
  | .act _ a => some a
  | _ => none

end Move

structure State (T S L O : Type) where
  shared : S
  own : T → Option L
  outs : List (T × O)

variable {T S L A O : Type} [DecidableEq T]

namespace System
variable (sys : System S L A O)

def init : State T S L O := ⟨sys.start, fun _ => none, []⟩

/-- One move; an agent without a state of its own can do nothing but enter. -/
def step (st : State T S L O) : Move T A → Option (State T S L O)
  | .enter t => some { st with own := Function.update st.own t (some sys.fresh) }
  | .act t a => (st.own t).map fun l =>
      { st with
        shared := (sys.act st.shared l a).1
        own := Function.update st.own t (some (sys.act st.shared l a).2) }
  | .leave t => (st.own t).map fun l =>
      { st with
        own := Function.update st.own t none
        outs := st.outs ++ [(t, sys.leave st.shared l)] }

def run (ms : List (Move T A)) : Option (State T S L O) := ms.foldlM sys.step sys.init

/-- The shared state evolves by f, whatever the agents' own states are. -/
def Evolves (f : S → A → S) : Prop := ∀ s l a, (sys.act s l a).1 = f s a

end System

def actions (ms : List (Move T A)) : List A := ms.filterMap Move.action

def actionsOf (t : T) (ms : List (Move T A)) : List A :=
  ms.filterMap fun
    | .act u a => if u = t then some a else none
    | _ => none

def entered (ms : List (Move T A)) : List T :=
  ms.filterMap fun
    | .enter t => some t
    | _ => none

def left (ms : List (Move T A)) : List T :=
  ms.filterMap fun
    | .leave t => some t
    | _ => none

/-- What agent t has seen since it entered: its actions, each with the shared state it found. -/
def sights (f : S → A → S) (s : S) (t : T) (ms : List (Move T A)) : List (S × A) :=
  (ms.foldl (fun (v : S × List (S × A)) m =>
    match m with
    | .enter u => (v.1, if u = t then [] else v.2)
    | .act u a => (f v.1 a, if u = t then v.2 ++ [(v.1, a)] else v.2)
    | .leave _ => v) (s, [])).2

section traces
variable (f : S → A → S) (s : S) (t : T) (ms : List (Move T A))

omit [DecidableEq T] in
@[simp] theorem actions_snoc (m : Move T A) : actions (ms ++ [m]) = actions ms ++ m.action.toList := by
  cases m <;> simp [actions, Move.action]

omit [DecidableEq T] in
@[simp] theorem entered_snoc (m : Move T A) :
    entered (ms ++ [m]) = entered ms ++
      match m with
      | .enter u => [u]
      | _ => [] := by
  cases m <;> simp [entered]

omit [DecidableEq T] in
theorem mem_entered : t ∈ entered ms ↔ .enter t ∈ ms := by
  rw [entered, List.mem_filterMap]
  constructor
  · rintro ⟨m, hm, hsome⟩
    cases m <;> simp_all
  · intro h
    exact ⟨.enter t, h, rfl⟩

@[simp] theorem actionsOf_snoc (m : Move T A) :
    actionsOf t (ms ++ [m]) = actionsOf t ms ++
      match m with
      | .act u a => if u = t then [a] else []
      | _ => [] := by
  cases m with
  | enter u => simp [actionsOf]
  | leave u => simp [actionsOf]
  | act u a => by_cases hu : u = t <;> simp [actionsOf, hu]

private theorem sights_fst :
    (ms.foldl (fun (v : S × List (S × A)) m =>
      match m with
      | .enter u => (v.1, if u = t then [] else v.2)
      | .act u a => (f v.1 a, if u = t then v.2 ++ [(v.1, a)] else v.2)
      | .leave _ => v) (s, [])).1 = (actions ms).foldl f s := by
  induction ms using List.reverseRecOn with
  | nil => rfl
  | append_singleton ms m ih =>
    rw [List.foldl_append, actions_snoc, List.foldl_append, ← ih]
    cases m <;> rfl

@[simp] theorem sights_snoc (m : Move T A) :
    sights f s t (ms ++ [m]) =
      match m with
      | .enter u => if u = t then [] else sights f s t ms
      | .act u a => if u = t then sights f s t ms ++ [((actions ms).foldl f s, a)] else sights f s t ms
      | .leave _ => sights f s t ms := by
  rw [sights, List.foldl_append]
  cases m with
  | enter u => rfl
  | leave u => rfl
  | act u a =>
    rw [← sights_fst f s t ms]
    rfl

end traces

section runs
variable {sys : System S L A O} {f : S → A → S} {ms : List (Move T A)} {st : State T S L O}

theorem run_snoc (m : Move T A) : sys.run (ms ++ [m]) = (sys.run ms).bind fun st => sys.step st m := by
  simp [System.run]

/-- A run up to a move is a run, followed by a step. -/
theorem run_snoc_some {m : Move T A} :
    sys.run (ms ++ [m]) = some st ↔ ∃ pre, sys.run ms = some pre ∧ sys.step pre m = some st := by
  rw [run_snoc, Option.bind_eq_some_iff]

/-- What a step does to the own state of agent t. -/
theorem own_step {pre : State T S L O} {m : Move T A} (h : sys.step pre m = some st) (t : T) :
    (m = .enter t ∧ st.own t = some sys.fresh) ∨
      (∃ l a, m = .act t a ∧ pre.own t = some l ∧ st.own t = some (sys.act pre.shared l a).2) ∨
      (m = .leave t ∧ st.own t = none) ∨ (m.agent ≠ t ∧ st.own t = pre.own t) := by
  cases m with
  | enter u =>
    obtain rfl := Option.some.inj h
    by_cases hu : u = t
    · exact .inl ⟨by rw [hu], by simp [hu]⟩
    · exact .inr (.inr (.inr ⟨hu, Function.update_of_ne (Ne.symm hu) _ _⟩))
  | act u a =>
    obtain ⟨l, hl, rfl⟩ := Option.map_eq_some_iff.mp h
    by_cases hu : u = t
    · subst hu
      exact .inr (.inl ⟨l, a, rfl, hl, Function.update_self _ _ _⟩)
    · exact .inr (.inr (.inr ⟨hu, Function.update_of_ne (Ne.symm hu) _ _⟩))
  | leave u =>
    obtain ⟨l, hl, rfl⟩ := Option.map_eq_some_iff.mp h
    by_cases hu : u = t
    · exact .inr (.inr (.inl ⟨by rw [hu], by simp [hu]⟩))
    · exact .inr (.inr (.inr ⟨hu, Function.update_of_ne (Ne.symm hu) _ _⟩))

/-- What a step does to the shared state. -/
theorem shared_step (hf : sys.Evolves f) {pre : State T S L O} {m : Move T A}
    (h : sys.step pre m = some st) :
    st.shared = m.action.toList.foldl f pre.shared := by
  cases m with
  | enter u =>
    obtain rfl := Option.some.inj h
    rfl
  | act u a =>
    obtain ⟨l, -, rfl⟩ := Option.map_eq_some_iff.mp h
    exact hf _ _ _
  | leave u =>
    obtain ⟨l, -, rfl⟩ := Option.map_eq_some_iff.mp h
    rfl

/-- What a step puts out. -/
theorem outs_step {pre : State T S L O} {m : Move T A} (h : sys.step pre m = some st) :
    st.outs = pre.outs ∨
      ∃ t l, m = .leave t ∧ pre.own t = some l ∧ st.outs = pre.outs ++ [(t, sys.leave pre.shared l)] := by
  cases m with
  | enter u =>
    obtain rfl := Option.some.inj h
    exact .inl rfl
  | act u a =>
    obtain ⟨l, -, rfl⟩ := Option.map_eq_some_iff.mp h
    exact .inl rfl
  | leave u =>
    obtain ⟨l, hl, rfl⟩ := Option.map_eq_some_iff.mp h
    exact .inr ⟨u, l, rfl, hl, rfl⟩

/-- The shared state comes from the actions of all agents in their order. -/
theorem shared_run (hf : sys.Evolves f) (h : sys.run ms = some st) :
    st.shared = (actions ms).foldl f sys.start := by
  induction ms using List.reverseRecOn generalizing st with
  | nil =>
    obtain rfl := Option.some.inj h
    rfl
  | append_singleton ms m ih =>
    obtain ⟨pre, hpre, hstep⟩ := run_snoc_some.mp h
    rw [actions_snoc, List.foldl_append, ← ih hpre]
    exact shared_step hf hstep

/-- An agent's own state comes from what it has seen, whatever the others do in between. -/
theorem own_run (hf : sys.Evolves f) (h : sys.run ms = some st) {t : T} {l : L} (hl : st.own t = some l) :
    l = (sights f sys.start t ms).foldl (fun l p => (sys.act p.1 l p.2).2) sys.fresh := by
  induction ms using List.reverseRecOn generalizing st l with
  | nil =>
    obtain rfl := Option.some.inj h
    cases hl
  | append_singleton ms m ih =>
    obtain ⟨pre, hpre, hstep⟩ := run_snoc_some.mp h
    rw [sights_snoc]
    rcases own_step hstep t with ⟨rfl, hown⟩ | ⟨k, a, rfl, hk, hown⟩ | ⟨rfl, hown⟩ | ⟨hne, hown⟩
    · obtain rfl := Option.some.inj (hown.symm.trans hl)
      simp
    · obtain rfl := Option.some.inj (hown.symm.trans hl)
      simp [← ih hpre hk, ← shared_run hf hpre]
    · simp [hown] at hl
    · have ih := ih hpre (hown.symm.trans hl)
      cases m with
      | enter u =>
        have hu : u ≠ t := hne
        simpa [hu] using ih
      | act u a =>
        have hu : u ≠ t := hne
        simpa [hu] using ih
      | leave u => simpa using ih

/-- Whoever has a state of its own has entered. -/
theorem enter_mem (h : sys.run ms = some st) {t : T} {l : L} (hl : st.own t = some l) : .enter t ∈ ms := by
  induction ms using List.reverseRecOn generalizing st l with
  | nil =>
    obtain rfl := Option.some.inj h
    cases hl
  | append_singleton ms m ih =>
    obtain ⟨pre, hpre, hstep⟩ := run_snoc_some.mp h
    rw [List.mem_append, List.mem_singleton]
    rcases own_step hstep t with ⟨rfl, -⟩ | ⟨k, a, rfl, hk, -⟩ | ⟨-, hown⟩ | ⟨-, hown⟩
    · exact .inr rfl
    · exact .inl (ih hpre hk)
    · simp [hown] at hl
    · exact .inl (ih hpre (hown.symm.trans hl))

/-- Every agent that leaves puts out something. -/
theorem outs_left (h : sys.run ms = some st) : st.outs.map Prod.fst = left ms := by
  induction ms using List.reverseRecOn generalizing st with
  | nil =>
    obtain rfl := Option.some.inj h
    rfl
  | append_singleton ms m ih =>
    obtain ⟨pre, hpre, hstep⟩ := run_snoc_some.mp h
    have ih := ih hpre
    cases m with
    | enter u =>
      obtain rfl := Option.some.inj hstep
      simpa [left] using ih
    | act u a =>
      obtain ⟨l, -, rfl⟩ := Option.map_eq_some_iff.mp hstep
      simpa [left] using ih
    | leave u =>
      obtain ⟨l, -, rfl⟩ := Option.map_eq_some_iff.mp hstep
      have hsnoc : left (ms ++ [.leave u]) = left ms ++ [u] := by simp [left]
      rw [hsnoc, ← ih, List.map_append]
      rfl

/-- What an agent has seen are its own actions. -/
theorem act_mem_of_sights {f : S → A → S} {s : S} {t : T} {p : S × A} (hp : p ∈ sights f s t ms) :
    .act t p.2 ∈ ms := by
  induction ms using List.reverseRecOn with
  | nil => cases hp
  | append_singleton ms m ih =>
    rw [sights_snoc] at hp
    cases m with
    | enter u =>
      dsimp only at hp
      split_ifs at hp
      · cases hp
      · exact List.mem_append_left _ (ih hp)
    | leave u => exact List.mem_append_left _ (ih hp)
    | act u a =>
      dsimp only at hp
      split_ifs at hp with hu
      · rcases List.mem_append.mp hp with hp | hp
        · exact List.mem_append_left _ (ih hp)
        · obtain rfl := List.mem_singleton.mp hp
          simp [hu]
      · exact List.mem_append_left _ (ih hp)

/-- Nothing is done by an agent that has not entered. -/
theorem actionsOf_eq_nil (h : sys.run ms = some st) {t : T} (ht : .enter t ∉ ms) : actionsOf t ms = [] := by
  induction ms using List.reverseRecOn generalizing st with
  | nil => rfl
  | append_singleton ms m ih =>
    obtain ⟨pre, hpre, hstep⟩ := run_snoc_some.mp h
    rw [List.mem_append, List.mem_singleton, not_or] at ht
    rw [actionsOf_snoc, ih hpre ht.1]
    cases m with
    | enter u => rfl
    | leave u => rfl
    | act u a =>
      by_cases hu : u = t
      · subst hu
        obtain ⟨l, hl, -⟩ := Option.map_eq_some_iff.mp hstep
        exact absurd (enter_mem hpre hl) ht.1
      · simp [hu]

/-- Where agent t does nothing and no other agent moves the shared state, it stays. -/
theorem foldl_actions_quiet {t : T} (ht : actionsOf t ms = [])
    (hquiet : ∀ u a, .act u a ∈ ms → u ≠ t → ∀ s, f s a = s) (s : S) : (actions ms).foldl f s = s := by
  induction ms using List.reverseRecOn with
  | nil => rfl
  | append_singleton ms m ih =>
    rw [actionsOf_snoc, List.append_eq_nil_iff] at ht
    rw [actions_snoc, List.foldl_append, ih ht.1 fun u a hm => hquiet u a (List.mem_append_left _ hm)]
    cases m with
    | enter u => rfl
    | leave u => rfl
    | act u a =>
      have hu : u ≠ t := fun hu => by simp [hu] at ht
      exact hquiet u a (by simp) hu s

/-- Where no other agent moves the shared state, an agent that enters once finds what it would
find on its own. -/
theorem own_run_alone (hf : sys.Evolves f) (h : sys.run ms = some st) {t : T} {l : L}
    (hl : st.own t = some l) (honce : (entered ms).count t ≤ 1)
    (hquiet : ∀ u a, .act u a ∈ ms → u ≠ t → ∀ s, f s a = s) :
    (st.shared, l) = (actionsOf t ms).foldl (fun p a => sys.act p.1 p.2 a) (sys.start, sys.fresh) := by
  induction ms using List.reverseRecOn generalizing st l with
  | nil =>
    obtain rfl := Option.some.inj h
    cases hl
  | append_singleton ms m ih =>
    obtain ⟨pre, hpre, hstep⟩ := run_snoc_some.mp h
    have hshared := shared_step hf hstep
    rw [entered_snoc, List.count_append] at honce
    have hquiet' : ∀ u a, .act u a ∈ ms → u ≠ t → ∀ s, f s a = s :=
      fun u a hm => hquiet u a (List.mem_append_left _ hm)
    rw [actionsOf_snoc, List.foldl_append]
    rcases own_step hstep t with ⟨rfl, hown⟩ | ⟨k, a, rfl, hk, hown⟩ | ⟨-, hown⟩ | ⟨hne, hown⟩
    · have hnew : Move.enter t ∉ ms := fun hm => by
        have := List.count_pos_iff.mpr (mem_entered t ms |>.mpr hm)
        simp only [List.count_singleton_self] at honce
        omega
      have hstart : pre.shared = sys.start := by
        rw [shared_run hf hpre]
        exact foldl_actions_quiet (actionsOf_eq_nil hpre hnew) hquiet' _
      obtain rfl := Option.some.inj (hown.symm.trans hl)
      rw [actionsOf_eq_nil hpre hnew, hshared, hstart]
      rfl
    · obtain rfl := Option.some.inj (hown.symm.trans hl)
      have ih := ih hpre hk (by omega) hquiet'
      have hsame : st.shared = (sys.act pre.shared k a).1 := hshared.trans (hf pre.shared k a).symm
      rw [← ih, hsame]
      simp
    · simp [hown] at hl
    · have ih := ih hpre (hown.symm.trans hl) (by omega) hquiet'
      rw [← ih]
      cases m with
      | enter u => simp [hshared]
      | leave u => simp [hshared]
      | act u a =>
        have hu : u ≠ t := hne
        have hsame := hquiet u a (by simp) hu pre.shared
        simp [hshared, hu, hsame]

/-- Every output was made by an agent leaving, out of the state that the run had reached by then. -/
theorem outs_run (h : sys.run ms = some st) {t : T} {o : O} (ho : (t, o) ∈ st.outs) :
    ∃ before after mid l, ms = before ++ .leave t :: after ∧ sys.run before = some mid ∧
      mid.own t = some l ∧ o = sys.leave mid.shared l := by
  induction ms using List.reverseRecOn generalizing st with
  | nil =>
    obtain rfl := Option.some.inj h
    cases ho
  | append_singleton ms m ih =>
    obtain ⟨pre, hpre, hstep⟩ := run_snoc_some.mp h
    have hold (ho : (t, o) ∈ pre.outs) : ∃ before after mid l,
        ms ++ [m] = before ++ .leave t :: after ∧ sys.run before = some mid ∧
          mid.own t = some l ∧ o = sys.leave mid.shared l := by
      obtain ⟨before, after, mid, l, rfl, hmid⟩ := ih hpre ho
      exact ⟨before, after ++ [m], mid, l, by simp, hmid⟩
    rcases outs_step hstep with heq | ⟨u, l, rfl, hl, heq⟩
    · exact hold (heq ▸ ho)
    · rw [heq, List.mem_append, List.mem_singleton] at ho
      rcases ho with ho | ho
      · exact hold ho
      · obtain ⟨rfl, rfl⟩ := Prod.mk.inj ho
        exact ⟨ms, [], pre, l, by simp, hpre, hl, rfl⟩

end runs

end Roofline.Library.Agents
