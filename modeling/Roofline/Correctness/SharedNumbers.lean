import Roofline.Correctness.CallNumbers
import Roofline.Correctness.MergedThreads

/-! The numbers of separate calls when several threads run under the client. The statics of
get_label_and_assign_id are shared, so it is the callbacks of all threads that take turns: the
callbacks 2k and 2k + 1 of the process get the number k + 1, whichever threads they run on. -/
namespace Roofline.Correctness
open Client Library
variable {T τ : Type}

/-- The statics after a number of callbacks. -/
structure Numbered (opts : Options) (g : Globals) (n : ℕ) : Prop where
  id : g.id = Int32.ofNat (n / 2 + 1)
  half : g.lastSeenDelimiter = opts.traceF ++ toString g.id.toInt ↔ n % 2 = 1

def callbacks (es : List (Event τ)) : ℕ := es.countP Event.isCallback

section statics
variable [Zero τ] {opts : Options} (hsep : opts.callsAsSeparateRoi = true)

include hsep in
theorem Numbered.next {g : Globals} {n : ℕ} (h : Numbered opts g n) : Numbered opts (g.numbered opts) (n + 1) := by
  have hne : opts.traceF ++ toString g.id.toInt ≠ opts.traceF ++ toString (g.id + 1).toInt := by
    rw [Ne, int32_numeral_inj]
    exact (int32_succ_ne g.id).symm
  have hid := h.id
  rw [Globals.numbered, if_pos hsep]
  by_cases hlast : g.lastSeenDelimiter = opts.traceF ++ toString g.id.toInt
  · have hodd := h.half.mp hlast
    simp only [if_pos hlast]
    constructor
    · have hhalf : (n + 1) / 2 = n / 2 + 1 := by omega
      simp only [hid, hhalf]
      rw [Int32.ofNat_add (n / 2 + 1) 1]
      rfl
    · simp only [hlast, hne, false_iff]
      omega
  · have heven : ¬ n % 2 = 1 := fun hodd => hlast (h.half.mpr hodd)
    have hhalf : (n + 1) / 2 = n / 2 := by omega
    simp only [if_neg hlast]
    exact ⟨by simp only [hid, hhalf], by simp only [true_iff]; omega⟩

include hsep in
private theorem numbered_foldl (es : List (Event τ)) :
    Numbered opts (es.foldl (Globals.step opts) .init) (callbacks es) := by
  induction es using List.reverseRecOn with
  | nil =>
    exact ⟨by simp [Globals.init, callbacks], by simp [Globals.init, callbacks, opts.separate hsep]⟩
  | append_singleton es ev ih =>
    rw [List.foldl_append, callbacks, List.countP_append]
    have hnext := ih.next hsep
    cases ev with
    | roiInit cxt now =>
      rw [List.foldl_cons, List.foldl_nil, globals_step_roiInit]
      exact ⟨hnext.id, hnext.half⟩
    | roiEnd cxt now =>
      rw [List.foldl_cons, List.foldl_nil, globals_step_roiEnd]
      exact ⟨hnext.id, hnext.half⟩
    | saveRef r => exact ih
    | cleanCall n =>
      rw [List.foldl_cons, List.foldl_nil, globals_step_quiet opts _ rfl]
      exact ih

def withLabel (label : String) (ps : List (Point τ)) : ℕ := ps.countP fun p => p.label = label

def labelTaken (opts : Options) (label : String) (g : Globals) (ev : Event τ) : ℕ :=
  if ev.isStart = true ∧ opts.traceF ++ toString g.id.toInt = label then 1 else 0

include hsep in
/-- A label is on no more points than there were callbacks that took it. -/
theorem keeps_withLabel {label : String} (hlabel : label ≠ "") :
    Agents.Keeps (threadSystem (τ := τ) opts) (· ≤ ·) (fun _ _ => True)
      (fun data => withLabel label (data.pointList ++ [data.curPoint])) (withLabel label)
      (labelTaken opts label) where
  refl := Nat.le_refl
  trans := Nat.le_trans
  add c h := Nat.add_le_add_right h c
  fresh := by simp [threadSystem, ThreadData.new, withLabel, Point.new, hlabel.symm]
  act {g data} ev _ := by
    have hm := separate_not_merged hsep
    simp only [threadSystem, withLabel, List.countP_append, List.countP_singleton]
    cases ev with
    | roiInit cxt now =>
      have hnew : roiLabel opts (g.within data) cxt = opts.traceF ++ toString g.id.toInt := by
        rw [roiLabel, if_pos hsep]
        rfl
      simp only [step_roiInit, hm, Bool.false_and, Bool.false_eq_true, if_false, Point.opened_eq, hnew, within_data,
        labelTaken, Event.isStart, true_and]
      split_ifs <;> simp_all
    | roiEnd cxt now =>
      simp only [step_roiEnd, hm, Bool.false_eq_true, if_false, Point.ended_eq, Point.reset, within_data,
        List.countP_append, List.countP_singleton]
      simp [hlabel.symm]
    | saveRef r =>
      simp only [step_saveRef, within_data]
      exact Nat.le_add_right _ _
    | cleanCall n =>
      rw [step_cleanCall]
      cases hin : g.inRoi with
      | false => simp [hin]
      | true => simp [hin, label_drained]
  leave {g data} _ := by
    have hexit : (threadSystem opts).leave g data = data.pointList := by
      simp [threadSystem, eventThreadExit, hsep]
    rw [hexit, withLabel, withLabel, List.countP_append]
    exact Nat.le_add_right _ _

end statics

private theorem callbacks_snoc (es : List (Event τ)) (ev : Event τ) :
    callbacks (es ++ [ev]) = callbacks es + if ev.isCallback = true then 1 else 0 := by
  simp [callbacks, List.countP_append, List.countP_singleton]

/-- Where the callbacks alternate, a region is active after every other one. -/
theorem callbacks_mod_two {es : List (Event τ)} (h : Alternating false es) :
    callbacks es % 2 = (active es).toNat := by
  induction es using List.reverseRecOn with
  | nil => rfl
  | append_singleton es ev ih =>
    obtain ⟨hes, hstart, hend⟩ := (alternating_snoc_iff es ev).mp h
    have ih := ih hes
    rw [callbacks_snoc, active_snoc]
    cases ev with
    | roiInit cxt now =>
      rw [hstart rfl, Bool.toNat_false] at ih
      simp [Event.isCallback, Event.isStart, Event.isEnd]
      omega
    | roiEnd cxt now =>
      rw [hend rfl, Bool.toNat_true] at ih
      simp [Event.isCallback, Event.isStart, Event.isEnd]
      omega
    | saveRef r => simpa [Event.isCallback, Event.isStart, Event.isEnd] using ih
    | cleanCall n => simpa [Event.isCallback, Event.isStart, Event.isEnd] using ih

section numbers
variable [Zero τ] {opts : Options} (hsep : opts.callsAsSeparateRoi = true) (es : List (Event τ))

include hsep in
private theorem label_foldl (hfew : callbacks es < 2 ^ 31) :
    opts.traceF ++ toString (es.foldl (Globals.step opts) .init).id.toInt =
      opts.traceF ++ toString (callbacks es / 2 + 1) := by
  rw [(numbered_foldl hsep es).id, toString_ofNat_toInt (by omega)]

include hsep in
private theorem labelTaken_numbered (hfew : callbacks es < 2 ^ 31) (ev : Event τ) (k : ℕ) :
    labelTaken opts (opts.traceF ++ toString (k + 1)) (es.foldl (Globals.step opts) .init) ev =
      if ev.isStart = true ∧ callbacks es / 2 = k then 1 else 0 := by
  simp only [labelTaken, label_foldl hsep es hfew, numeral_inj, Nat.add_right_cancel_iff]

omit [Zero τ] in
private theorem callbacks_le_snoc (ev : Event τ) : callbacks es ≤ callbacks (es ++ [ev]) := by
  rw [callbacks_snoc]
  exact Nat.le_add_right _ _

include hsep in
/-- Only the callbacks 2k and 2k + 1 of the process take the number k + 1. -/
theorem spent_labelTaken (hfew : callbacks es < 2 ^ 31) (k : ℕ) :
    Agents.spent (Globals.step opts) (labelTaken opts (opts.traceF ++ toString (k + 1))) .init es ≤
      min 2 (callbacks es - 2 * k) := by
  induction es using List.reverseRecOn with
  | nil => simp [Agents.spent]
  | append_singleton es ev ih =>
    have hbefore := (callbacks_le_snoc es ev).trans_lt hfew
    have ih := ih hbefore
    rw [Agents.spent_snoc, labelTaken_numbered hsep es hbefore, callbacks_snoc]
    cases hs : ev.isStart with
    | false =>
      simp only [Bool.false_eq_true, false_and, if_false, Nat.add_zero]
      split_ifs <;> omega
    | true =>
      simp only [Event.isCallback, hs, true_and, Bool.true_or, if_true]
      split_ifs <;> omega

include hsep in
/-- Where the callbacks alternate, only the callback 2k begins a region under the number k + 1. -/
theorem spent_labelTaken_alternating {es : List (Event τ)} (halt : Alternating false es)
    (hfew : callbacks es < 2 ^ 31) (k : ℕ) :
    Agents.spent (Globals.step opts) (labelTaken opts (opts.traceF ++ toString (k + 1))) .init es ≤
      min 1 (callbacks es - 2 * k) := by
  induction es using List.reverseRecOn with
  | nil => simp [Agents.spent]
  | append_singleton es ev ih =>
    obtain ⟨hes, hstart, -⟩ := (alternating_snoc_iff es ev).mp halt
    have hbefore := (callbacks_le_snoc es ev).trans_lt hfew
    have ih := ih hes hbefore
    have heven := callbacks_mod_two hes
    rw [Agents.spent_snoc, labelTaken_numbered hsep es hbefore, callbacks_snoc]
    cases hs : ev.isStart with
    | false =>
      simp only [Bool.false_eq_true, false_and, if_false, Nat.add_zero]
      split_ifs <;> omega
    | true =>
      rw [hstart hs, Bool.toNat_false] at heven
      simp only [Event.isCallback, hs, true_and, Bool.true_or, if_true]
      split_ifs <;> omega

include hsep in
/-- No callback takes a label without a number. -/
theorem spent_labelTaken_other (hfew : callbacks es < 2 ^ 31) {label : String}
    (h : ∀ k, label ≠ opts.traceF ++ toString (k + 1)) :
    Agents.spent (Globals.step opts) (labelTaken opts label) .init es = 0 := by
  induction es using List.reverseRecOn with
  | nil => rfl
  | append_singleton es ev ih =>
    have hbefore := (callbacks_le_snoc es ev).trans_lt hfew
    have hne : opts.traceF ++ toString (es.foldl (Globals.step opts) .init).id.toInt ≠ label := by
      rw [label_foldl hsep es hbefore]
      exact (h _).symm
    rw [Agents.spent_snoc, ih hbefore, labelTaken, if_neg fun hboth => hne hboth.2]

end numbers

section process
variable [Zero τ] [DecidableEq T] {opts : Options} {as : List (ThreadAction T τ)} {P : Process T τ}
  (hsep : opts.callsAsSeparateRoi = true) (h : runThreads opts as = some P) (honce : (Agents.entered as).Nodup)

include hsep h honce in
private theorem withLabel_le {label : String} (hlabel : label ≠ "") :
    withLabel label (P.outs.flatMap Prod.snd) ≤
      Agents.spent (Globals.step opts) (labelTaken opts label) .init (Agents.actions as) := by
  have hkept := (keeps_withLabel hsep hlabel).run (evolves_threadSystem opts) h (fun _ _ _ _ _ _ => trivial) honce
    (F := (as.map Agents.Move.agent).toFinset) fun m hm => List.mem_toFinset.mpr (List.mem_map_of_mem hm)
  have hcount : withLabel label (P.outs.flatMap Prod.snd) = Agents.produced (withLabel label) P.outs :=
    List.countP_flatMap
  rw [hcount]
  exact (Nat.le_add_right _ _).trans hkept

include hsep h honce in
/-- With separate calls on several threads, and fewer than 2^31 callbacks, every label that is not empty
is the function with a number, given out to two consecutive callbacks of the process. Two points share
such a label if two threads begin a call one after the other; no two do if the callbacks of all threads
together alternate. -/
theorem shared_call_numbers (hfew : callbacks (Agents.actions as) < 2 ^ 31) :
    (∀ p ∈ P.outs.flatMap Prod.snd, p.label ≠ "" →
      ∃ k, p.label = opts.traceF ++ toString (k + 1) ∧ 2 * k < callbacks (Agents.actions as)) ∧
    (∀ label, label ≠ "" → withLabel label (P.outs.flatMap Prod.snd) ≤ 2) ∧
    (Alternating false (Agents.actions as) →
      ∀ label, label ≠ "" → withLabel label (P.outs.flatMap Prod.snd) ≤ 1) := by
  refine ⟨fun p hp hlabel => ?_, fun label hlabel => ?_, fun halt label hlabel => ?_⟩
  · have hle := withLabel_le hsep h honce hlabel
    have hpos : 0 < withLabel p.label (P.outs.flatMap Prod.snd) := List.countP_pos_iff.mpr ⟨p, hp, by simp⟩
    by_cases hname : ∃ k, p.label = opts.traceF ++ toString (k + 1)
    · obtain ⟨k, hk⟩ := hname
      have hspent := spent_labelTaken hsep (Agents.actions as) hfew k
      rw [← hk] at hspent
      exact ⟨k, hk, by omega⟩
    · rw [not_exists] at hname
      rw [spent_labelTaken_other hsep _ hfew hname] at hle
      omega
  · have hle := withLabel_le hsep h honce hlabel
    by_cases hname : ∃ k, label = opts.traceF ++ toString (k + 1)
    · obtain ⟨k, rfl⟩ := hname
      have hspent := spent_labelTaken hsep (Agents.actions as) hfew k
      omega
    · rw [not_exists] at hname
      rw [spent_labelTaken_other hsep _ hfew hname] at hle
      omega
  · have hle := withLabel_le hsep h honce hlabel
    by_cases hname : ∃ k, label = opts.traceF ++ toString (k + 1)
    · obtain ⟨k, rfl⟩ := hname
      have hspent := spent_labelTaken_alternating hsep halt hfew k
      omega
    · rw [not_exists] at hname
      rw [spent_labelTaken_other hsep _ hfew hname] at hle
      omega

end process

/-- Two threads call the traced function at once, then one of them calls it again. -/
def overlappingCalls : List (ThreadAction Bool ℕ) :=
  [.enter false, .enter true, .act false (.roiInit ⟨"x", 0, ""⟩ 1), .act true (.roiInit ⟨"y", 0, ""⟩ 2),
    .act true (.cleanCall 4), .act false (.roiEnd ⟨"x", 0, ""⟩ 3), .act true (.roiEnd ⟨"y", 0, ""⟩ 4),
    .act true (.roiInit ⟨"y", 0, ""⟩ 5), .act true (.roiEnd ⟨"y", 0, ""⟩ 6), .leave true, .leave false]

theorem shared_call_numbers_overlapping : ∃ P : Process Bool ℕ,
    runThreads separateOptions overlappingCalls = some P ∧
      ∀ label, label ≠ "" → withLabel label (P.outs.flatMap Prod.snd) ≤ 2 := by
  have hrun : (runThreads separateOptions overlappingCalls).map (fun P => P.outs.map Prod.fst) =
      some [true, false] := by decide
  obtain ⟨P, hP, -⟩ := Option.map_eq_some_iff.mp hrun
  exact ⟨P, hP, (shared_call_numbers rfl hP (by decide) (by decide)).2.1⟩

end Roofline.Correctness
