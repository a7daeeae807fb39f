import Roofline.Library.Agents
import Mathlib.Algebra.BigOperators.Group.Finset.Basic
import Mathlib.Tactic.Abel

/-! What all agents hold together. If an action changes the holding of its agent by the cost of
the action, and an agent puts out what it holds, then the outputs and the holdings of the agents
that are still there add up to the costs of all actions. -/
namespace Roofline.Library.Agents
variable {T S L A O M : Type} [DecidableEq T] [AddCommMonoid M]

/-- The costs of actions, with the shared state evolving by f. -/
def spent (f : S → A → S) (c : S → A → M) (s : S) : List A → M
  | [] => 0
  | a :: as => c s a + spent f c (f s a) as

def held (w : L → M) (F : Finset T) (own : T → Option L) : M := ∑ t ∈ F, ((own t).map w).getD 0

def produced (W : O → M) (outs : List (T × O)) : M := (outs.map fun o => W o.2).sum

/-- The holdings w of the agents keep to the costs c, up to a relation between amounts that may be
added to on both sides. The agents' states are known to satisfy I. -/
structure Keeps (sys : System S L A O) (r : M → M → Prop) (I : S → L → Prop) (w : L → M) (W : O → M)
    (c : S → A → M) : Prop where
  refl : ∀ a, r a a
  trans : ∀ {a b c}, r a b → r b c → r a c
  add : ∀ {a b} c, r a b → r (a + c) (b + c)
  fresh : w sys.fresh = 0
  act : ∀ {s l} a, I s l → r (w (sys.act s l a).2) (w l + c s a)
  leave : ∀ {s l}, I s l → r (W (sys.leave s l)) (w l)

theorem spent_snoc (f : S → A → S) (c : S → A → M) (s : S) (as : List A) (a : A) :
    spent f c s (as ++ [a]) = spent f c s as + c (as.foldl f s) a := by
  induction as generalizing s with
  | nil => simp [spent]
  | cons b as ih => simp [spent, ih, add_assoc]

section held
variable (w : L → M) {F : Finset T} {t : T} (own : T → Option L)

private theorem held_erase (ht : t ∈ F) : held w F own = ((own t).map w).getD 0 + held w (F.erase t) own :=
  (Finset.add_sum_erase F (fun t => ((own t).map w).getD 0) ht).symm

private theorem held_update (ht : t ∈ F) (o : Option L) :
    held w F (Function.update own t o) = (o.map w).getD 0 + held w (F.erase t) own := by
  rw [held_erase w _ ht, Function.update_self]
  congr 1
  refine Finset.sum_congr rfl fun u hu => ?_
  rw [Function.update_of_ne (Finset.ne_of_mem_erase hu)]

omit [DecidableEq T] in
private theorem held_none (h : ∀ t ∈ F, own t = none) : held w F own = 0 :=
  Finset.sum_eq_zero fun t ht => by rw [h t ht]; rfl

end held

section runs
variable {sys : System S L A O} {f : S → A → S} {ms : List (Move T A)} {st : State T S L O}
  {r : M → M → Prop} {I : S → L → Prop} {w : L → M} {W : O → M} {c : S → A → M}

/-- What one move adds to the outputs and the holdings. -/
theorem Keeps.step (h : Keeps sys r I w W c) {pre : State T S L O} {m : Move T A}
    (hstep : sys.step pre m = some st) (hI : ∀ t l, pre.own t = some l → I pre.shared l)
    (hnew : ∀ t, m = .enter t → pre.own t = none) {F : Finset T} (hF : m.agent ∈ F) :
    r (produced W st.outs + held w F st.own)
      (produced W pre.outs + held w F pre.own + (m.action.map (c pre.shared)).getD 0) := by
  cases m with
  | enter t =>
    obtain rfl := Option.some.inj hstep
    have ht : t ∈ F := hF
    have hsame : held w F (Function.update pre.own t (some sys.fresh)) = held w F pre.own := by
      rw [held_update w _ ht, held_erase w pre.own ht, hnew t rfl]
      simp [h.fresh]
    rw [hsame]
    simpa using h.refl _
  | act t a =>
    obtain ⟨l, hl, rfl⟩ := Option.map_eq_some_iff.mp hstep
    have ht : t ∈ F := hF
    have hbefore : held w F pre.own = w l + held w (F.erase t) pre.own := by
      rw [held_erase w pre.own ht, hl]
      rfl
    rw [held_update w _ ht, hbefore]
    have hadd := h.add (produced W pre.outs + held w (F.erase t) pre.own) (h.act a (hI t l hl))
    have hleft : produced W pre.outs + (w (sys.act pre.shared l a).2 + held w (F.erase t) pre.own) =
        w (sys.act pre.shared l a).2 + (produced W pre.outs + held w (F.erase t) pre.own) := by abel
    have hright : produced W pre.outs + (w l + held w (F.erase t) pre.own) + c pre.shared a =
        w l + c pre.shared a + (produced W pre.outs + held w (F.erase t) pre.own) := by abel
    simp only [Move.action, Option.map_some, Option.getD_some, hleft, hright]
    exact hadd
  | leave t =>
    obtain ⟨l, hl, rfl⟩ := Option.map_eq_some_iff.mp hstep
    have ht : t ∈ F := hF
    have hbefore : held w F pre.own = w l + held w (F.erase t) pre.own := by
      rw [held_erase w pre.own ht, hl]
      rfl
    have houts : produced W (pre.outs ++ [(t, sys.leave pre.shared l)]) =
        produced W pre.outs + W (sys.leave pre.shared l) := by simp [produced]
    rw [held_update w _ ht, hbefore, houts]
    have hadd := h.add (produced W pre.outs + held w (F.erase t) pre.own) (h.leave (hI t l hl))
    have hleft : produced W pre.outs + W (sys.leave pre.shared l) + held w (F.erase t) pre.own =
        W (sys.leave pre.shared l) + (produced W pre.outs + held w (F.erase t) pre.own) := by abel
    have hright : produced W pre.outs + (w l + held w (F.erase t) pre.own) =
        w l + (produced W pre.outs + held w (F.erase t) pre.own) := by abel
    simp only [Move.action, Option.map_none, Option.getD_none, zero_add, add_zero, hleft, hright]
    exact hadd

/-- The outputs and the holdings keep to the costs of the whole run, if every agent enters once. -/
theorem Keeps.run (h : Keeps sys r I w W c) (hf : sys.Evolves f) (hrun : sys.run ms = some st)
    (hI : ∀ (ms : List (Move T A)) (st : State T S L O) (t : T) (l : L),
      sys.run ms = some st → st.own t = some l → I st.shared l)
    (honce : (entered ms).Nodup) {F : Finset T} (hF : ∀ m ∈ ms, m.agent ∈ F) :
    r (produced W st.outs + held w F st.own) (spent f c sys.start (actions ms)) := by
  induction ms using List.reverseRecOn generalizing st with
  | nil =>
    obtain rfl := Option.some.inj hrun
    have hnone : held w F (sys.init : State T S L O).own = 0 := held_none w _ fun _ _ => rfl
    rw [hnone]
    simpa [System.init, produced, spent, actions] using h.refl 0
  | append_singleton ms m ih =>
    obtain ⟨pre, hpre, hstep⟩ := run_snoc_some.mp hrun
    rw [entered_snoc] at honce
    have hnew : ∀ t, m = .enter t → pre.own t = none := by
      rintro t rfl
      by_contra hsome
      obtain ⟨l, hl⟩ := Option.ne_none_iff_exists'.mp hsome
      have hmem := (mem_entered t ms).mpr (enter_mem hpre hl)
      exact (List.disjoint_of_nodup_append honce) hmem List.mem_cons_self
    have ih := ih hpre (List.Nodup.of_append_left honce) fun m hm => hF m (List.mem_append_left _ hm)
    have hone := h.step hstep (fun t l hl => hI ms pre t l hpre hl) hnew (hF m (by simp))
    have hshared := shared_run hf hpre
    rw [actions_snoc]
    cases m with
    | enter t => exact h.trans (by simpa using hone) (by simpa using ih)
    | leave t => exact h.trans (by simpa using hone) (by simpa using ih)
    | act t a =>
      simp only [Move.action, Option.toList_some, spent_snoc, ← hshared]
      exact h.trans hone (h.add _ ih)

/-- Everything is put out once no agent is left. -/
theorem Keeps.run_done (h : Keeps sys r I w W c) (hf : sys.Evolves f) (hrun : sys.run ms = some st)
    (hI : ∀ (ms : List (Move T A)) (st : State T S L O) (t : T) (l : L),
      sys.run ms = some st → st.own t = some l → I st.shared l)
    (honce : (entered ms).Nodup) (hdone : ∀ t, st.own t = none) :
    r (produced W st.outs) (spent f c sys.start (actions ms)) := by
  have hall := h.run hf hrun hI honce (F := (ms.map Move.agent).toFinset) fun m hm => by
    rw [List.mem_toFinset]
    exact List.mem_map_of_mem hm
  rwa [held_none w _ fun t _ => hdone t, add_zero] at hall

end runs

end Roofline.Library.Agents
