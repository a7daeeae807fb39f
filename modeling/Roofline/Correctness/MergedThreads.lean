import Roofline.Correctness.ThreadAccounts
import Roofline.Library.Budgets

/-! Merged function tracing when several threads run under the client. Every thread saves one point
as it exits; only the first one to enter the function gives its point a label, and no operation that
is executed while in_roi is set is lost or counted twice. -/
namespace Roofline.Correctness
open Client Library
variable {T τ : Type} [Zero τ] {opts : Options}

/-- The thread whose callback is the first to enter the function. -/
def firstToEnter (as : List (ThreadAction T τ)) : Option T :=
  as.findSome? fun
    | .act t ev => if ev.isStart then some t else none
    | _ => none

/-- The thread has found that there is no point yet. -/
def entersFirst (v : List (Globals × Event τ)) : Bool := v.any fun s => s.2.isStart && !s.1.newPointOnlyOnce

/-- The operations of all clean calls that run while in_roi is set. -/
def flopsActive (es : List (Event τ)) : ℤ :=
  ∑ k ∈ Finset.range es.length, if active (es.take k) = true then (es[k]?.map Event.fpCount).getD 0 else 0

section sights
variable (hm : opts.merged = true) (v : List (Globals × Event τ))

include hm in
private theorem startDelimiter_of_merged : opts.startDelimiter ≠ "" ∧ opts.startDelimiter = opts.traceF := by
  obtain ⟨-, hf⟩ := opts.merged_iff.mp hm
  rw [Options.startDelimiter, if_pos hf]
  exact ⟨hf, rfl⟩

omit [Zero τ] in
include hm in
private theorem roiLabel_of_merged (σ : ClientState τ) (cxt : WrapCxt) : roiLabel opts σ cxt = opts.traceF := by
  obtain ⟨hf, heq⟩ := startDelimiter_of_merged hm
  have hsep := (opts.merged_iff.mp hm).1
  rw [roiLabel, hsep, if_neg Bool.false_ne_true, getLabel, if_pos hf, heq]

include hm in
/-- In the merged mode only the very first entry labels the current point. -/
theorem label_act (g : Globals) (data : ThreadData τ) (ev : Event τ) :
    (step opts (g.within data) ev).data.curPoint.label =
      if ev.isStart && !g.newPointOnlyOnce then opts.traceF else data.curPoint.label := by
  cases ev with
  | roiInit cxt now =>
    cases hnew : g.newPointOnlyOnce with
    | false => simp [step_roiInit, hm, hnew, Event.isStart, Point.opened_eq, roiLabel_of_merged hm]
    | true => simp [step_roiInit, hm, hnew, Event.isStart, Point.stampStart_eq]
  | roiEnd cxt now => simp [step_roiEnd, hm, Event.isStart, Point.stampEnd_eq]
  | saveRef r => rfl
  | cleanCall n =>
    rw [step_cleanCall]
    cases hin : g.inRoi with
    | false => simp [hin, Event.isStart]
    | true => simp [hin, Event.isStart, label_drained]

include hm in
private theorem pointList_act (g : Globals) (data : ThreadData τ) (ev : Event τ) :
    (step opts (g.within data) ev).data.pointList = data.pointList := by
  cases ev with
  | roiInit cxt now => simp [step_roiInit]
  | roiEnd cxt now => simp [step_roiEnd, hm]
  | saveRef r => rfl
  | cleanCall n => simp [step_cleanCall]

include hm in
theorem threadRun_merged :
    (threadRun opts v).pointList = [] ∧
      (threadRun opts v).curPoint.label = if entersFirst v then opts.traceF else "" := by
  induction v using List.reverseRecOn with
  | nil => exact ⟨rfl, rfl⟩
  | append_singleton v s ih =>
    rw [threadRun_snoc, pointList_act hm, label_act hm, ih.1, ih.2]
    refine ⟨rfl, ?_⟩
    have hsnoc : entersFirst (v ++ [s]) = (entersFirst v || (s.2.isStart && !s.1.newPointOnlyOnce)) := by
      simp [entersFirst]
    rw [hsnoc]
    cases entersFirst v <;> cases s.2.isStart && !s.1.newPointOnlyOnce <;> rfl

end sights

section globals

private theorem inRoi_foldl (es : List (Event τ)) : (es.foldl (Globals.step opts) .init).inRoi = active es := by
  induction es using List.reverseRecOn with
  | nil => rfl
  | append_singleton es ev ih =>
    rw [List.foldl_append, List.foldl_cons, List.foldl_nil, active_snoc, ← ih]
    cases ev with
    | roiInit cxt now => simp [globals_step_roiInit, Event.isStart, Event.isEnd]
    | roiEnd cxt now => simp [globals_step_roiEnd, Event.isStart, Event.isEnd]
    | saveRef r => simp [globals_step_quiet, Event.isCallback, Event.isStart, Event.isEnd]
    | cleanCall n => simp [globals_step_quiet, Event.isCallback, Event.isStart, Event.isEnd]

section first
variable {as : List (ThreadAction T τ)}

omit [Zero τ] in
private theorem firstToEnter_snoc (m : ThreadAction T τ) : firstToEnter (as ++ [m]) = (firstToEnter as).or (match m with
    | .act t ev => if ev.isStart then some t else none
    | _ => none) := by
  rw [firstToEnter, List.findSome?_append, ← firstToEnter]
  cases m with
  | enter t => rfl
  | leave t => rfl
  | act t ev => cases hstart : ev.isStart <;> simp [hstart]

/-- The current point is new until some thread has entered the function. -/
theorem newPointOnlyOnce_foldl (hm : opts.merged = true) (as : List (ThreadAction T τ)) :
    ((Agents.actions as).foldl (Globals.step opts) .init).newPointOnlyOnce = (firstToEnter as).isSome := by
  induction as using List.reverseRecOn with
  | nil => rfl
  | append_singleton as m ih =>
    rw [Agents.actions_snoc, List.foldl_append, firstToEnter_snoc, Option.isSome_or, ← ih]
    cases m with
    | enter t => exact (Bool.or_false _).symm
    | leave t => exact (Bool.or_false _).symm
    | act t ev =>
      cases ev with
      | roiInit cxt now => simp [globals_step_roiInit, hm, Event.isStart]
      | roiEnd cxt now => simp [globals_step_roiEnd, Event.isStart]
      | saveRef r => simp [globals_step_quiet, Event.isCallback, Event.isStart, Event.isEnd]
      | cleanCall n => simp [globals_step_quiet, Event.isCallback, Event.isStart, Event.isEnd]

variable [DecidableEq T] {P : Process T τ} {t : T}

/-- A thread that starts once finds no point if and only if it is the first to enter. -/
theorem entersFirst_seen (hm : opts.merged = true) (h : runThreads opts as = some P)
    (honce : (Agents.entered as).count t ≤ 1) :
    entersFirst (seen opts t as) = true ↔ firstToEnter as = some t := by
  induction as using List.reverseRecOn generalizing P with
  | nil => simp [entersFirst, seen, Agents.sights, firstToEnter]
  | append_singleton as m ih =>
    obtain ⟨pre, hpre, hstep⟩ := Agents.run_snoc_some.mp h
    rw [Agents.entered_snoc, List.count_append] at honce
    have ih := ih hpre (by omega)
    rw [seen, Agents.sights_snoc, ← seen, firstToEnter_snoc]
    cases m with
    | leave u => simpa using ih
    | enter u =>
      by_cases hu : u = t
      · subst hu
        have hnew : Agents.Move.enter u ∉ as := fun hmem => by
          have hpos := List.count_pos_iff.mpr ((Agents.mem_entered u as).mpr hmem)
          simp only [List.count_singleton_self] at honce
          omega
        have hnone : firstToEnter as ≠ some u := by
          intro hfirst
          obtain ⟨a, ha, hsome⟩ := List.exists_of_findSome?_eq_some hfirst
          cases a with
          | act v ev =>
            dsimp only at hsome
            split_ifs at hsome
            obtain rfl := Option.some.inj hsome
            have hmem : ev ∈ Agents.actionsOf v as := List.mem_filterMap.mpr ⟨_, ha, by simp⟩
            rw [Agents.actionsOf_eq_nil hpre hnew] at hmem
            cases hmem
          | enter v => cases hsome
          | leave v => cases hsome
        simpa [entersFirst] using hnone
      · simpa [hu] using ih
    | act u ev =>
      have hfirst := newPointOnlyOnce_foldl hm as
      by_cases hu : u = t
      · subst hu
        have hsnoc : entersFirst (seen opts u as ++ [((Agents.actions as).foldl (Globals.step opts) .init, ev)]) =
            (entersFirst (seen opts u as) || (ev.isStart && !(firstToEnter as).isSome)) := by
          simp [entersFirst, hfirst]
        dsimp only
        rw [if_pos rfl, hsnoc, Bool.or_eq_true, ih]
        cases firstToEnter as <;> cases ev.isStart <;> simp
      · dsimp only
        rw [if_neg hu, ih]
        cases firstToEnter as with
        | some v => simp
        | none => cases ev.isStart <;> simp [hu]

end first

def flopsCost (g : Globals) (ev : Event τ) : UInt64 := if g.inRoi = true then UInt64.ofInt ev.fpCount else 0

omit [Zero τ] in
private theorem flopsCost_of_none (g : Globals) {ev : Event τ} (h : ev.fpCount = 0) : flopsCost g ev = 0 := by
  rw [flopsCost, h]
  split_ifs <;> rfl

omit [Zero τ] in
private theorem flopsActive_snoc (es : List (Event τ)) (ev : Event τ) :
    flopsActive (es ++ [ev]) = flopsActive es + if active es = true then ev.fpCount else 0 := by
  rw [flopsActive, List.length_append, List.length_singleton, Finset.sum_range_succ]
  congr 1
  · refine Finset.sum_congr rfl fun k hk => ?_
    have hk := Finset.mem_range.mp hk
    rw [List.take_append_of_le_length hk.le, List.getElem?_append_left hk]
  · simp

variable (opts) in
private theorem spent_flopsCost (es : List (Event τ)) :
    Agents.spent (Globals.step opts) flopsCost .init es = UInt64.ofInt (flopsActive es) := by
  induction es using List.reverseRecOn with
  | nil => rfl
  | append_singleton es ev ih =>
    rw [Agents.spent_snoc, ih, flopsCost, inRoi_foldl, flopsActive_snoc, UInt64.ofInt_add]
    split_ifs <;> rfl

def labelCost (g : Globals) (ev : Event τ) : ℕ := if (ev.isStart && !g.newPointOnlyOnce) = true then 1 else 0

private theorem spent_labelCost (hm : opts.merged = true) (g : Globals) (es : List (Event τ)) :
    Agents.spent (Globals.step opts) labelCost g es ≤ if g.newPointOnlyOnce = true then 0 else 1 := by
  induction es generalizing g with
  | nil => exact Nat.zero_le _
  | cons ev es ih =>
    have ih := ih (g.step opts ev)
    rw [Agents.spent]
    cases ev with
    | roiInit cxt now =>
      rw [globals_step_roiInit] at ih
      simp only [hm, Bool.or_true, if_true] at ih
      rw [globals_step_roiInit, hm]
      cases hnew : g.newPointOnlyOnce <;> simp_all [labelCost, Event.isStart]
    | roiEnd cxt now =>
      rw [globals_step_roiEnd] at ih ⊢
      simpa [labelCost, Event.isStart] using ih
    | saveRef r => simpa [labelCost, Event.isStart, globals_step_quiet, Event.isCallback, Event.isEnd] using ih
    | cleanCall n => simpa [labelCost, Event.isStart, globals_step_quiet, Event.isCallback, Event.isEnd] using ih

end globals

section runs
variable (hm : opts.merged = true)

def flopsIn (ps : List (Point τ)) : UInt64 := (ps.map (·.flops)).sum

omit [Zero τ] in
private theorem flopsIn_flatMap (outs : List (T × List (Point τ))) :
    flopsIn (outs.flatMap Prod.snd) = Agents.produced flopsIn outs := by
  induction outs with
  | nil => rfl
  | cons o outs ih =>
    have hcons : Agents.produced flopsIn (o :: outs) = flopsIn o.2 + Agents.produced flopsIn outs := rfl
    rw [hcons, ← ih, List.flatMap_cons, flopsIn, List.map_append, List.sum_append, flopsIn, flopsIn]

def labelCount (ps : List (Point τ)) : ℕ := ps.countP fun p => p.label ≠ ""

def exitPoint (data : ThreadData τ) : Point τ := (data.curPoint.setLineEnd 0).setSrcFileEnd ""

include hm in
theorem leave_merged (g : Globals) (data : ThreadData τ) :
    (threadSystem opts).leave g data = data.pointList ++ [exitPoint data] := by
  have hexit := opts.merged_iff.mp hm
  simp [threadSystem, eventThreadExit, if_pos hexit, ClientState.savePoint, ThreadData.savePoint,
    exitPoint]

include hm in
private theorem keeps_flops : Agents.Keeps (threadSystem (τ := τ) opts) (· = ·)
    (fun g data => g.newPointOnlyOnce = false → data.curPoint.flops = 0)
    (fun data => flopsIn data.pointList + data.curPoint.flops) flopsIn flopsCost where
  refl _ := rfl
  trans := Eq.trans
  add c h := by rw [h]
  fresh := rfl
  act {g data} ev hfresh := by
    have hlist := pointList_act hm g data ev
    have hpoint : (step opts (g.within data) ev).data.curPoint.flops = data.curPoint.flops + flopsCost g ev := by
      cases ev with
      | roiInit cxt now =>
        rw [flopsCost_of_none g rfl]
        cases hnew : g.newPointOnlyOnce with
        | false => simp [step_roiInit, hm, hnew, Point.opened_eq, hfresh hnew]
        | true => simp [step_roiInit, hm, hnew, Point.stampStart_eq]
      | roiEnd cxt now =>
        rw [flopsCost_of_none g rfl]
        simp [step_roiEnd, hm, Point.stampEnd_eq]
      | saveRef r =>
        rw [flopsCost_of_none g rfl]
        simp [step_saveRef]
      | cleanCall n =>
        rw [step_cleanCall]
        cases hin : g.inRoi with
        | false => simp [hin, flopsCost]
        | true => simp [hin, flopsCost, Event.fpCount, Point.drained, Point.updateFpCount]
    simp only [threadSystem, hlist, hpoint, add_assoc]
  leave {g data} _ := by
    rw [leave_merged hm]
    simp [flopsIn, exitPoint, Point.setLineEnd, Point.setSrcFileEnd]

include hm in
private theorem keeps_labels : Agents.Keeps (threadSystem (τ := τ) opts) (· ≤ ·) (fun _ _ => True)
    (fun data => labelCount (data.pointList ++ [data.curPoint])) labelCount labelCost where
  refl := Nat.le_refl
  trans := Nat.le_trans
  add c h := Nat.add_le_add_right h c
  fresh := rfl
  act {g data} ev _ := by
    have hlist := pointList_act hm g data ev
    have hlabel := label_act hm g data ev
    simp only [threadSystem, labelCount, hlist, List.countP_append, List.countP_singleton, hlabel, labelCost]
    split_ifs <;> simp_all
    omega
  leave {g data} _ := by
    rw [leave_merged hm]
    simp [labelCount, List.countP_append, exitPoint, Point.setLineEnd, Point.setSrcFileEnd]

variable [DecidableEq T] {as : List (ThreadAction T τ)} {P : Process T τ}

include hm in
/-- Under merged tracing every exiting thread saves exactly one point. It holds what its own clean
calls found while in_roi was set by any thread, and only the thread that was the first to enter the
function gives it a label: at most one point of the output has one. -/
theorem merged_threads (h : runThreads opts as = some P) (honce : (Agents.entered as).Nodup) :
    (∀ t ps, (t, ps) ∈ P.outs → ∃ before after p, as = before ++ .leave t :: after ∧ ps = [p] ∧
      p.label = (if firstToEnter before = some t then opts.traceF else "") ∧
      p.flops = UInt64.ofInt (flopsSeen opts (seen opts t before)) ∧
      p.bytes = UInt64.ofNat (bytesSeen opts (seen opts t before))) ∧
    labelCount (P.outs.flatMap Prod.snd) ≤ 1 := by
  constructor
  · intro t ps ho
    obtain ⟨before, after, mid, data, heq, hmid, hd, rfl⟩ := Agents.outs_run h ho
    have hcount : (Agents.entered before).count t ≤ 1 := by
      rw [heq, Agents.entered, List.filterMap_append] at honce
      exact List.nodup_iff_count_le_one.mp (List.nodup_append.mp honce).1 t
    have hfirst := entersFirst_seen hm hmid hcount
    have hlabel := threadRun_merged hm (seen opts t before)
    rw [← own_threadRun hmid hd, if_congr hfirst rfl rfl] at hlabel
    have hholds := (refines_thread hmid hd).current
    rw [turn_stance_current, threadLedger, Ledger.current_run] at hholds
    have hamounts := holding_sights opts (seen opts t before)
    refine ⟨before, after, exitPoint data, heq, ?_, hlabel.2, ?_, ?_⟩
    · rw [leave_merged hm, hlabel.1, List.nil_append]
    · rw [← hamounts.1]
      exact hholds.flops
    · rw [← hamounts.2]
      exact hholds.bytes
  · have hkept := (keeps_labels hm).run (evolves_threadSystem opts) h (fun _ _ _ _ _ _ => trivial) honce
      (F := (as.map Agents.Move.agent).toFinset) fun m hm => List.mem_toFinset.mpr (List.mem_map_of_mem hm)
    have hspent := spent_labelCost hm .init (Agents.actions as)
    have hcount : labelCount (P.outs.flatMap Prod.snd) = Agents.produced labelCount P.outs := List.countP_flatMap
    rw [hcount]
    exact (Nat.le_add_right _ _).trans (hkept.trans hspent)

include hm in
/-- Under merged tracing the written points add up to all the operations executed while in_roi was
set, on whatever threads and in whatever order. -/
theorem merged_conservation (h : runThreads opts as = some P) (honce : (Agents.entered as).Nodup)
    (hdone : ∀ t, P.own t = none) :
    flopsIn (P.outs.flatMap Prod.snd) = UInt64.ofInt (flopsActive (Agents.actions as)) := by
  have hfresh (as : List (ThreadAction T τ)) (P : Process T τ) (t : T) (data : ThreadData τ)
      (h : runThreads opts as = some P) (hd : P.own t = some data) (hnew : P.shared.newPointOnlyOnce = false) :
      data.curPoint.flops = 0 := by
    have hrefines := refines_thread h hd
    have hzero := (hrefines.fresh hm hnew).2
    have hholds := hrefines.current.flops
    rw [hzero] at hholds
    exact hholds
  rw [flopsIn_flatMap, ← spent_flopsCost opts]
  exact (keeps_flops hm).run_done (evolves_threadSystem opts) h hfresh honce hdone

end runs

/-- Two threads in the traced function at once; the second one enters while the first is inside. -/
def mergedActions : List (ThreadAction Bool ℕ) :=
  [.enter false, .act false (.roiInit ⟨"x", 0, ""⟩ 1), .enter true, .act true (.cleanCall 2),
    .act true (.roiInit ⟨"y", 0, ""⟩ 2), .act true (.saveRef ⟨8, 0⟩), .act false (.cleanCall 3),
    .act true (.cleanCall 4), .act false (.roiEnd ⟨"x", 0, ""⟩ 3), .act true (.cleanCall 9),
    .act true (.roiEnd ⟨"y", 0, ""⟩ 4), .leave true, .leave false]

private theorem run_mergedActions : ∃ P, runThreads { traceF := "f" } mergedActions = some P ∧
    P.outs = [(true, [⟨"", "", "", 0, 0, 6, 8, 8, 0, 0, 0⟩]), (false, [⟨"f", "", "", 0, 0, 3, 0, 0, 0, 0, 0⟩])] ∧
    ∀ t, P.own t = none := by
  have hrun : (runThreads { traceF := "f" } mergedActions).map (fun P => (P.outs, P.own false, P.own true)) =
      some ([(true, [⟨"", "", "", 0, 0, 6, 8, 8, 0, 0, 0⟩]), (false, [⟨"f", "", "", 0, 0, 3, 0, 0, 0, 0, 0⟩])],
        none, none) := by decide
  obtain ⟨P, hP, hstate⟩ := Option.map_eq_some_iff.mp hrun
  obtain ⟨houts, hown⟩ := Prod.mk.inj hstate
  obtain ⟨hfalse, htrue⟩ := Prod.mk.inj hown
  refine ⟨P, hP, houts, fun t => ?_⟩
  cases t
  · exact hfalse
  · exact htrue

private theorem mergedActions_leave {t : Bool} {before after : List (ThreadAction Bool ℕ)}
    (h : mergedActions = before ++ .leave t :: after) : before = mergedActions.take (if t then 11 else 12) := by
  have hleave : mergedActions[before.length]? = some (.leave t) := by
    rw [h, List.getElem?_append_right le_rfl, Nat.sub_self, List.getElem?_cons_zero]
  have hlt : before.length < 13 := (List.getElem?_eq_some_iff.mp hleave).1
  have honly : ∀ t : Bool, ∀ n < 13, mergedActions[n]? = some (.leave t) → n = if t then 11 else 12 := by decide
  rw [← honly t before.length hlt hleave, h, List.take_left]

theorem merged_threads_two : ∃ P : Process Bool ℕ, runThreads { traceF := "f" } mergedActions = some P ∧
    (∀ t ps, (t, ps) ∈ P.outs → ∃ p, ps = [p] ∧ p.label = (if t = false then "f" else "") ∧
      p.flops = (if t = false then 3 else 6) ∧ p.bytes = (if t = false then 0 else 8)) ∧
    labelCount (P.outs.flatMap Prod.snd) ≤ 1 := by
  obtain ⟨P, hP, -, -⟩ := run_mergedActions
  have hm : Options.merged { traceF := "f" } = true := rfl
  have hthreads := merged_threads hm hP (by decide)
  refine ⟨P, hP, fun t ps ho => ?_, hthreads.2⟩
  obtain ⟨before, after, p, heq, hps, hlabel, hflops, hbytes⟩ := hthreads.1 t ps ho
  obtain rfl := mergedActions_leave heq
  refine ⟨p, hps, ?_⟩
  rw [hlabel, hflops, hbytes]
  cases t <;> decide

theorem merged_conservation_two : ∃ P : Process Bool ℕ, runThreads { traceF := "f" } mergedActions = some P ∧
    flopsIn (P.outs.flatMap Prod.snd) = UInt64.ofInt (flopsActive (Agents.actions mergedActions)) := by
  obtain ⟨P, hP, -, hown⟩ := run_mergedActions
  have hm : Options.merged { traceF := "f" } = true := rfl
  exact ⟨P, hP, merged_conservation hm hP (by decide) hown⟩

end Roofline.Correctness
