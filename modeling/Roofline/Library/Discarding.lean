import Roofline.Library.Attribution
import Mathlib.Tactic.Abel

/-! Accounts in runs that may discard amounts. Whatever the order of openings and closings, the
current account holds what was posted to it after the last step that emptied it. -/
namespace Roofline.Library
variable {M : Type} [AddCommMonoid M]

/-- A change of window that empties the current account. -/
def Window.empties : Window → Bool
  | .opening => true
  | .closing => true
  | _ => false

/-- Neither change of window of this step empties the current account. -/
def Entry.keeps (e : Entry M) : Bool := !e.before.empties && !e.after.empties

namespace Ledger

/-- A posting of step k is still in the current account at the end of the run. -/
def remains (es : List (Entry M)) (k : ℕ) : Bool :=
  (owner es k).isSome && (es[k]?.all (fun e => !e.after.empties) && (es.drop (k + 1)).all Entry.keeps)

/-- The current account in terms of the steps. -/
def holding (es : List (Entry M)) : M :=
  ∑ k ∈ Finset.range es.length,
    ((if remains es k = true then postAt es k else 0) +
      if (nextPost es k).any (remains es) = true then deferAt es k else 0)

private theorem remains_snoc (es : List (Entry M)) (e : Entry M) {k : ℕ} (hk : k < es.length) :
    remains (es ++ [e]) k = (remains es k && e.keeps) := by
  rw [remains, owner_snoc es e hk, List.getElem?_append_left hk, List.drop_append_of_le_length (by omega),
    List.all_append, remains]
  simp [Bool.and_assoc]

private theorem remains_last (es : List (Entry M)) (e : Entry M) :
    remains (es ++ [e]) es.length = (((run es).turn e.before).active && !e.after.empties) := by
  rw [remains, owner_last, holder]
  cases ((run es).turn e.before).active <;> simp

private theorem deferred_run (es : List (Entry M)) : (run es).deferred = pending es := by
  induction es using List.reverseRecOn with
  | nil => rfl
  | append_singleton es e ih =>
    rw [run_snoc, pending_snoc, step]
    cases he : e.post with
    | none => simp [postpone, ih]
    | some m => simp [postpone, settle]

/-- What one more step adds to the holding of a run that goes on to keep it. -/
theorem holding_snoc (es : List (Entry M)) (e : Entry M) :
    holding (es ++ [e]) =
      (if e.keeps = true then holding es else 0) +
        if ((run es).turn e.before).active = true ∧ e.after.empties = false ∧ e.post.isSome = true
          then e.post.getD 0 + pending es else 0 := by
  rw [holding, List.length_append, List.length_singleton, Finset.sum_range_succ]
  have hlast : ((if remains (es ++ [e]) es.length = true then postAt (es ++ [e]) es.length else 0) +
      if (nextPost (es ++ [e]) es.length).any (remains (es ++ [e])) = true
        then deferAt (es ++ [e]) es.length else 0) =
      if ((run es).turn e.before).active = true ∧ e.after.empties = false ∧ e.post.isSome = true
        then e.post.getD 0 else 0 := by
    rw [nextPost_last, remains_last]
    cases he : e.post <;> simp [postAt, he]
  have hrest : ∀ k ∈ Finset.range es.length,
      ((if remains (es ++ [e]) k = true then postAt (es ++ [e]) k else 0) +
        if (nextPost (es ++ [e]) k).any (remains (es ++ [e])) = true then deferAt (es ++ [e]) k else 0) =
      (if e.keeps = true then
        ((if remains es k = true then postAt es k else 0) +
          if (nextPost es k).any (remains es) = true then deferAt es k else 0) else 0) +
      if ((run es).turn e.before).active = true ∧ e.after.empties = false ∧ e.post.isSome = true
        then (if nextPost es k = none then deferAt es k else 0) else 0 := by
    intro k hk
    have hk := Finset.mem_range.mp hk
    rw [remains_snoc es e hk, postAt_snoc es e hk, deferAt_snoc es e hk, nextPost_snoc es e hk]
    cases hc : nextPost es k with
    | none =>
      cases he : e.post with
      | none => cases e.keeps <;> simp
      | some m => cases e.keeps <;> simp [remains_last]
    | some c =>
      have hsnoc := remains_snoc es e (nextPost_lt hc).2
      cases hkeep : e.keeps <;> simp [hsnoc, hkeep]
  rw [Finset.sum_congr rfl hrest, Finset.sum_add_distrib, hlast, pending, holding]
  split_ifs
  · abel
  · simp
  · simp [add_comm]
  · simp

/-- The current account at the end of a run. -/
theorem current_run (es : List (Entry M)) : (run es).current = holding es := by
  induction es using List.reverseRecOn with
  | nil => rfl
  | append_singleton es e ih =>
    have hturn (L : Ledger M) (w : Window) : (L.turn w).current = if w.empties = true then 0 else L.current := by
      cases w <;> rfl
    have hsettle (L : Ledger M) (p : Option M) : (L.settle p).current =
        L.current + if L.active = true ∧ p.isSome = true then p.getD 0 + L.deferred else 0 := by
      cases p <;> simp [settle]
      split_ifs <;> simp
    rw [holding_snoc, run_snoc, step, postpone_current, hturn, hsettle, hturn, turn_deferred, deferred_run, ih]
    cases hb : e.before.empties <;> cases ha : e.after.empties <;> simp [Entry.keeps, hb, ha]

/-- A step closes the account that it finds after its posting. -/
theorem closed_step (L : Ledger M) {e : Entry M} (hb : e.before.empties = false) :
    (L.step e).closed = L.closed ++
      if e.after = .closing then [((L.turn e.before).settle e.post).current] else [] := by
  have hclosed : (L.turn e.before).closed = L.closed := by
    cases hw : e.before <;> simp_all [turn, Window.empties]
  have hturn (L : Ledger M) (w : Window) :
      (L.turn w).closed = L.closed ++ if w = .closing then [L.current] else [] := by
    cases w <;> simp [turn]
  rw [step, postpone_closed, hturn, settle_closed, hclosed]

end Ledger
end Roofline.Library
