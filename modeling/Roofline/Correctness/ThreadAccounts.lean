import Roofline.Client.Threads
import Roofline.Correctness.Isolation
import Roofline.Library.Discarding

/-! What the points of one thread hold when several threads run under the client. The threads
share in_roi, so a clean call counts if the last callback of any of them has begun a region. -/
namespace Roofline.Correctness
open Client Library
variable {T τ : Type}

/-- The change of window that brings a ledger in line with in_roi. -/
def stance (g : Globals) : Window := if g.inRoi = true then .resume else .pause

/-- The ledger entry that stands for an event and the globals it has found. -/
def sightEntry (opts : Options) (s : Globals × Event τ) : Entry Tally :=
  ⟨stance s.1, (entryOf opts s.2).post, (entryOf opts s.2).before, (entryOf opts s.2).defer⟩

/-- What a thread has found since it started. -/
def seen [Zero τ] [DecidableEq T] (opts : Options) (t : T) (as : List (ThreadAction T τ)) : List (Globals × Event τ) :=
  Agents.sights (Globals.step opts) .init t as

def threadLedger [Zero τ] [DecidableEq T] (opts : Options) (t : T) (as : List (ThreadAction T τ)) : Ledger Tally :=
  Ledger.run ((seen opts t as).map (sightEntry opts))

private theorem turn_stance_active (L : Ledger Tally) (g : Globals) : (L.turn (stance g)).active = g.inRoi := by
  unfold stance
  split_ifs with h
  · exact h.symm
  · exact (Bool.eq_false_iff.mpr h).symm

theorem turn_stance_current (L : Ledger Tally) (g : Globals) : (L.turn (stance g)).current = L.current := by
  unfold stance
  split_ifs <;> rfl

private theorem turn_stance_closed (L : Ledger Tally) (g : Globals) : (L.turn (stance g)).closed = L.closed := by
  unfold stance
  split_ifs <;> rfl

private theorem turn_stance_of_active {L : Ledger Tally} {g : Globals} (h : L.active = g.inRoi) :
    L.turn (stance g) = L := by
  obtain ⟨active, deferred, current, closed⟩ := L
  obtain rfl : active = g.inRoi := h
  unfold stance
  cases g.inRoi <;> rfl

private theorem step_sightEntry (opts : Options) (L : Ledger Tally) (g : Globals) (ev : Event τ) :
    L.step (sightEntry opts (g, ev)) = (L.turn (stance g)).step (entryOf opts ev) := by
  cases ev <;> simp [sightEntry, entryOf, Ledger.step, Entry.turning, Entry.deferring, Entry.posting]

section refinement
variable [Zero τ] {opts : Options}

/-- Before the first point of the merged mode there is no region. -/
def FreshOutside (opts : Options) (g : Globals) :
    Prop := opts.merged = true → g.newPointOnlyOnce = false → g.inRoi = false

private theorem freshOutside_step {g : Globals} (h : FreshOutside opts g) (ev : Event τ) :
    FreshOutside opts (g.step opts ev) := by
  intro hm hnew
  cases ev with
  | roiInit cxt now =>
    rw [globals_step_roiInit] at hnew
    simp [hm] at hnew
  | roiEnd cxt now => rw [globals_step_roiEnd]
  | saveRef r => exact h hm hnew
  | cleanCall n =>
    rw [globals_step_quiet opts g rfl] at hnew ⊢
    exact h hm hnew

private theorem freshOutside_foldl (evs : List (Event τ)) :
    FreshOutside opts (evs.foldl (Globals.step opts) .init) := by
  induction evs using List.reverseRecOn with
  | nil => exact fun _ _ => rfl
  | append_singleton evs ev ih =>
    rw [List.foldl_append]
    exact freshOutside_step ih ev

/-- A callback on another thread changes what in_roi tells, and nothing else. -/
theorem Refines.foreign {g : Globals} {data : ThreadData τ} {L : Ledger Tally}
    (h : Refines opts (g.within data) (L.turn (stance g))) (ev : Event τ) :
    Refines opts ((g.step opts ev).within data) (L.turn (stance (g.step opts ev))) := by
  have hcurrent := h.current
  have hclosed := h.closed
  have hfresh := h.fresh
  rw [turn_stance_current] at hcurrent
  rw [turn_stance_closed] at hclosed
  refine ⟨(turn_stance_active L _).symm, by simpa using h.deferred, by simpa [turn_stance_current] using hcurrent,
    by simpa [turn_stance_closed] using hclosed, fun hm hnew => ?_⟩
  rw [turn_stance_active, turn_stance_current]
  rw [turn_stance_active, turn_stance_current] at hfresh
  cases ev with
  | roiInit cxt now =>
    rw [within_newPointOnlyOnce, globals_step_roiInit] at hnew
    simp [hm] at hnew
  | roiEnd cxt now =>
    rw [within_newPointOnlyOnce, globals_step_roiEnd, numbered_newPointOnlyOnce] at hnew
    exact ⟨by rw [globals_step_roiEnd], (hfresh hm hnew).2⟩
  | saveRef r => exact hfresh hm hnew
  | cleanCall n =>
    rw [globals_step_quiet opts g rfl] at hnew ⊢
    exact hfresh hm hnew

variable [DecidableEq T] {as : List (ThreadAction T τ)} {P : Process T τ}

/-- In every interleaving the data of a thread stand for its ledger. -/
theorem refines_thread (h : runThreads opts as = some P) {t : T} {data : ThreadData τ}
    (hd : P.own t = some data) :
    Refines opts (P.shared.within data) ((threadLedger opts t as).turn (stance P.shared)) := by
  have hevolves := evolves_threadSystem (τ := τ) opts
  induction as using List.reverseRecOn generalizing P data with
  | nil =>
    obtain rfl := Option.some.inj h
    cases hd
  | append_singleton as a ih =>
    obtain ⟨pre, hpre, hstep⟩ := Agents.run_snoc_some.mp h
    have hshared := Agents.shared_step hevolves hstep
    have hpast := Agents.shared_run hevolves hpre
    rcases Agents.own_step hstep t with ⟨rfl, hown⟩ | ⟨old, ev, rfl, hold, hown⟩ | ⟨rfl, hown⟩ | ⟨hne, hown⟩
    · obtain rfl := Option.some.inj (hown.symm.trans hd)
      have hseen : threadLedger opts t (as ++ [.enter t]) = Ledger.blank := by simp [threadLedger, seen]
      rw [hseen, hshared]
      refine ⟨(turn_stance_active _ _).symm, by simp [Ledger.blank, threadSystem, ThreadData.new],
        ⟨by simp [turn_stance_current]; rfl, by simp [turn_stance_current]; rfl⟩,
        by simp [turn_stance_closed, Ledger.blank, threadSystem, ThreadData.new], fun hm hnew => ?_⟩
      rw [turn_stance_active, turn_stance_current]
      have houtside : FreshOutside opts pre.shared := by
        rw [hpast]
        exact freshOutside_foldl _
      exact ⟨houtside hm hnew, rfl⟩
    · obtain rfl := Option.some.inj (hown.symm.trans hd)
      have hsees : threadLedger opts t (as ++ [.act t ev]) =
          (threadLedger opts t as).step (sightEntry opts (pre.shared, ev)) := by
        have hpast : pre.shared = (Agents.actions as).foldl (Globals.step opts) .init := hpast
        simp [threadLedger, seen, ← hpast]
      have hstep := (ih hpre hold).step ev
      rw [← step_sightEntry, ← hsees] at hstep
      have hglobals : P.shared = (step opts (pre.shared.within old) ev).globals :=
        hshared.trans (hevolves pre.shared old ev).symm
      rw [hglobals, turn_stance_of_active hstep.active.symm]
      simpa [threadSystem] using hstep
    · simp [hown] at hd
    · have hsame := ih hpre (hown.symm.trans hd)
      rw [hshared]
      cases a with
      | enter u =>
        have hu : u ≠ t := hne
        simpa [threadLedger, seen, hu] using hsame
      | act u ev =>
        have hu : u ≠ t := hne
        simpa [threadLedger, seen, hu] using hsame.foreign ev
      | leave u => simpa [threadLedger, seen] using hsame

end refinement

section accounts
variable (opts : Options) (v : List (Globals × Event τ))

/-- The clean call at position c of what a thread has seen enters its current point and is still
there at the end: it finds in_roi set, and in the modes that save a point for each region no later
callback of the same thread begins or ends one. -/
def countsIn (c : ℕ) : Bool :=
  v[c]?.any (fun s => s.1.inRoi && s.2.isClean) &&
    (opts.merged || (v.drop (c + 1)).all fun s => !s.2.isCallback)

/-- The operations of the clean calls that count. -/
def flopsSeen : ℤ :=
  ∑ k ∈ Finset.range v.length, if countsIn opts v k = true then (v[k]?.map fun s => s.2.fpCount).getD 0 else 0

/-- The sizes of the references drained by a clean call that counts. -/
def bytesSeen : ℕ :=
  ∑ k ∈ Finset.range v.length,
    if (nextClean (v.map Prod.snd) k).any (countsIn opts v) = true then (v[k]?.map fun s => s.2.refSize).getD 0 else 0

private theorem nextPost_sights (k : ℕ) :
    Ledger.nextPost (v.map (sightEntry opts)) k = nextClean (v.map Prod.snd) k := by
  have h : (fun e : Entry Tally => e.post.isSome) ∘ sightEntry opts =
      Event.isClean ∘ Prod.snd (α := Globals) (β := Event τ) := by
    funext s
    obtain ⟨g, ev⟩ := s
    cases ev <;> rfl
  rw [Ledger.nextPost, nextClean, ← List.map_drop, ← List.map_drop, List.findIdx?_map, List.findIdx?_map, h]

private theorem keeps_sightEntry (s : Globals × Event τ) :
    (sightEntry opts s).keeps = (opts.merged || !s.2.isCallback) := by
  obtain ⟨g, ev⟩ := s
  have hstance : (stance g).empties = false := by
    unfold stance
    split_ifs <;> rfl
  have hkeeps : (sightEntry opts (g, ev)).keeps = !(entryOf opts ev).before.empties := by
    simp only [Entry.keeps, sightEntry, hstance, Bool.not_false, Bool.true_and]
  rw [hkeeps]
  cases ev <;> cases hm : opts.merged <;>
    simp [entryOf, hm, Entry.turning, Entry.deferring, Entry.posting, Window.empties, Event.isCallback,
      Event.isStart, Event.isEnd]

private theorem remains_sights {c : ℕ} {s : Globals × Event τ} (hc : v[c]? = some s) (hclean : s.2.isClean = true) :
    Ledger.remains (v.map (sightEntry opts)) c = countsIn opts v c := by
  obtain ⟨g, ev⟩ := s
  have hafter : (sightEntry opts (g, ev)).after.empties = false := by
    cases ev <;> simp_all [Event.isClean, sightEntry, entryOf, Entry.posting, Window.empties]
  have hbefore : (sightEntry opts (g, ev)).before = stance g := rfl
  have hall : ((v.map (sightEntry opts)).drop (c + 1)).all Entry.keeps =
      (opts.merged || (v.drop (c + 1)).all fun s => !s.2.isCallback) := by
    rw [← List.map_drop, List.all_map]
    cases hm : opts.merged <;> simp [Function.comp_def, keeps_sightEntry, hm]
  rw [Ledger.remains, hall, Ledger.owner, List.getElem?_map, hc, countsIn, hc]
  simp only [Option.map_some, Option.bind_some, hbefore, Ledger.holder, turn_stance_active, Option.all_some,
    hafter, Option.any_some, hclean]
  cases g.inRoi <;> simp

/-- The current account of a thread, in terms of what it has seen. -/
theorem holding_sights :
    (Ledger.holding (v.map (sightEntry opts))).flops = flopsSeen opts v ∧
      (Ledger.holding (v.map (sightEntry opts))).bytes = bytesSeen opts v := by
  have hpost (k : ℕ) : Ledger.postAt (v.map (sightEntry opts)) k =
      ⟨(v[k]?.map fun s => s.2.fpCount).getD 0, 0, 0, 0⟩ := by
    rw [Ledger.postAt, List.getElem?_map]
    rcases v[k]? with _ | ⟨g, ev⟩
    · rfl
    · cases ev <;> rfl
  have hdefer (k : ℕ) : (Ledger.deferAt (v.map (sightEntry opts)) k).flops = 0 ∧
      (Ledger.deferAt (v.map (sightEntry opts)) k).bytes = (v[k]?.map fun s => s.2.refSize).getD 0 := by
    rw [Ledger.deferAt, List.getElem?_map]
    rcases v[k]? with _ | ⟨g, ev⟩
    · exact ⟨rfl, rfl⟩
    · cases ev <;> exact ⟨rfl, rfl⟩
  have hremains {c : ℕ} {s : Globals × Event τ} (hc : v[c]? = some s) (hs : s.2.fpCount ≠ 0) :
      Ledger.remains (v.map (sightEntry opts)) c = countsIn opts v c := by
    refine remains_sights opts v hc ?_
    cases h : s.2 <;> simp_all [Event.fpCount, Event.isClean]
  have hdrain (k : ℕ) : (nextClean (v.map Prod.snd) k).any (Ledger.remains (v.map (sightEntry opts))) =
      (nextClean (v.map Prod.snd) k).any (countsIn opts v) := by
    cases hn : nextClean (v.map Prod.snd) k with
    | none => rfl
    | some c =>
      obtain ⟨ev, hc, hev⟩ := nextClean_isClean _ hn
      rw [List.getElem?_map, Option.map_eq_some_iff] at hc
      obtain ⟨s, hs, rfl⟩ := hc
      exact remains_sights opts v hs hev
  have hcount (k : ℕ) :
      (if Ledger.remains (v.map (sightEntry opts)) k = true then (v[k]?.map fun s => s.2.fpCount).getD 0 else 0) =
        if countsIn opts v k = true then (v[k]?.map fun s => s.2.fpCount).getD 0 else 0 := by
    cases hs : v[k]? with
    | none => simp
    | some s =>
      by_cases hz : s.2.fpCount = 0
      · simp [hz]
      · rw [hremains hs hz]
  rw [Ledger.holding, List.length_map, Tally.flops_sum, Tally.bytes_sum]
  constructor
  · refine Finset.sum_congr rfl fun k _ => ?_
    rw [Tally.flops_add, hpost, apply_ite Tally.flops, apply_ite Tally.flops, (hdefer k).1, Tally.flops_zero,
      ite_self, add_zero]
    exact hcount k
  · refine Finset.sum_congr rfl fun k _ => ?_
    rw [Tally.bytes_add, nextPost_sights, hdrain, hpost, apply_ite Tally.bytes, apply_ite Tally.bytes, (hdefer k).2,
      Tally.bytes_zero, ite_self, zero_add]

/-- The closed accounts of a thread are what it held at its ending callbacks. -/
theorem closed_sights (hm : opts.merged = false) :
    (Ledger.run (v.map (sightEntry opts))).closed =
      (ends (v.map Prod.snd)).map fun E => Ledger.holding ((v.take E.pos).map (sightEntry opts)) := by
  induction v using List.reverseRecOn with
  | nil => rfl
  | append_singleton v s ih =>
    obtain ⟨g, ev⟩ := s
    have hbefore : (sightEntry opts (g, ev)).before.empties = false := by
      rw [sightEntry, stance]
      split_ifs <;> rfl
    have hpast : (ends (v.map Prod.snd)).map
        (fun E => Ledger.holding (((v ++ [(g, ev)]).take E.pos).map (sightEntry opts))) =
          (ends (v.map Prod.snd)).map fun E => Ledger.holding ((v.take E.pos).map (sightEntry opts)) := by
      apply List.map_congr_left
      intro E hE
      have hpos := (List.getElem?_eq_some_iff.mp (mem_ends hE)).1
      rw [List.take_append_of_le_length (by simpa using hpos.le)]
    rw [List.map_append, List.map_singleton, Ledger.run_snoc, Ledger.closed_step _ hbefore, ih, List.map_append,
      List.map_singleton, ends_snoc, List.map_append, hpast]
    congr 1
    cases ev with
    | roiInit cxt now => simp [sightEntry, entryOf, hm, Entry.turning]
    | saveRef r => simp [sightEntry, entryOf, Entry.deferring]
    | cleanCall n => simp [sightEntry, entryOf, Entry.posting]
    | roiEnd cxt now =>
      simp [sightEntry, entryOf, hm, Entry.turning, turn_stance_current, Ledger.current_run]

end accounts

section labels
variable [Zero τ] (opts : Options) (v : List (Globals × Event τ))

/-- The label that a beginning callback gives to the region it begins: the traced function with the number of
the call that the process has come to, or what the options or the arguments name. -/
def labelTakenBy (g : Globals) (cxt : WrapCxt) : String :=
  if opts.callsAsSeparateRoi then opts.traceF ++ toString g.id.toInt else givenLabel opts cxt

/-- The label of the region that is open on a thread: its last callback was a beginning one; none is open
otherwise. -/
def labelSeen : String :=
  match v.reverse.find? fun s => s.2.isCallback with
  | some (g, .roiInit cxt _) => labelTakenBy opts g cxt
  | _ => ""

omit [Zero τ] in
private theorem roiLabel_within (g : Globals) (data : ThreadData τ) (cxt : WrapCxt) :
    roiLabel opts (g.within data) cxt = labelTakenBy opts g cxt := by
  rw [roiLabel, labelTakenBy, getLabel_startDelimiter]
  rfl

def threadRun : ThreadData τ :=
  v.foldl (fun data s => ((threadSystem opts).act s.1 data s.2).2) (threadSystem opts).fresh

theorem threadRun_snoc (s : Globals × Event τ) :
    threadRun opts (v ++ [s]) = (step opts (s.1.within (threadRun opts v)) s.2).data := by
  simp [threadRun, threadSystem]

omit [Zero τ] in
private theorem labelSeen_snoc (s : Globals × Event τ) :
    labelSeen opts (v ++ [s]) =
      match s.2 with
      | .roiInit cxt _ => labelTakenBy opts s.1 cxt
      | .roiEnd _ _ => ""
      | _ => labelSeen opts v := by
  obtain ⟨g, ev⟩ := s
  cases ev <;> simp [labelSeen, Event.isCallback, Event.isStart, Event.isEnd]

omit [Zero τ] in
theorem label_drained (n : Int32) (refs : List MemRef) (p : Point τ) : (p.drained n refs).label = p.label :=
  congrArg Region.label (Point.region_drained n refs p)

private theorem label_threadRun (hm : opts.merged = false) : (threadRun opts v).curPoint.label = labelSeen opts v := by
  induction v using List.reverseRecOn with
  | nil => rfl
  | append_singleton v s ih =>
    obtain ⟨g, ev⟩ := s
    rw [threadRun_snoc, labelSeen_snoc]
    cases ev with
    | roiInit cxt now => simp [step_roiInit, hm, Point.opened_eq, roiLabel_within]
    | roiEnd cxt now => simp [step_roiEnd, hm, Point.reset]
    | saveRef r => simpa [step_saveRef] using ih
    | cleanCall n =>
      rw [step_cleanCall]
      dsimp only [within_data]
      split_ifs
      · rw [label_drained]
        exact ih
      · exact ih

/-- The labels of the saved points are those of the regions that the ending callbacks close. -/
theorem labels_threadRun (hm : opts.merged = false) :
    (threadRun opts v).pointList.map (·.label) =
      (ends (v.map Prod.snd)).map fun E => labelSeen opts (v.take E.pos) := by
  induction v using List.reverseRecOn with
  | nil => rfl
  | append_singleton v s ih =>
    have hlabel := label_threadRun opts v hm
    have hpast : (ends (v.map Prod.snd)).map (fun E => labelSeen opts ((v ++ [s]).take E.pos)) =
        (ends (v.map Prod.snd)).map fun E => labelSeen opts (v.take E.pos) := by
      apply List.map_congr_left
      intro E hE
      have hpos := (List.getElem?_eq_some_iff.mp (mem_ends hE)).1
      rw [List.take_append_of_le_length (by simpa using hpos.le)]
    obtain ⟨g, ev⟩ := s
    rw [threadRun_snoc, List.map_append, List.map_singleton, ends_snoc, List.map_append, hpast, ← ih]
    cases ev with
    | roiInit cxt now => simp [step_roiInit]
    | roiEnd cxt now => simp [step_roiEnd, hm, Point.ended_eq, hlabel]
    | saveRef r => simp [step_saveRef]
    | cleanCall n => simp [step_cleanCall]

end labels

section exits
variable [Zero τ] [DecidableEq T] {opts : Options} {as : List (ThreadAction T τ)} {P : Process T τ} {t : T}

theorem own_threadRun (h : runThreads opts as = some P) {data : ThreadData τ} (hd : P.own t = some data) :
    data = threadRun opts (seen opts t as) := Agents.own_run (evolves_threadSystem opts) h hd

/-- The points of a thread in a mode that saves one for each region: one for each of its own ending
callbacks, with the label of the region that callback closes and the amounts of the clean calls that
ran on the same thread, while in_roi was set by any thread, since its last callback. -/
theorem thread_accounts (hm : opts.merged = false) (h : runThreads opts as = some P) {ps : List (Point τ)}
    (ho : (t, ps) ∈ P.outs) :
    ∃ before after, as = before ++ .leave t :: after ∧
      List.Forall₂ (fun (E : Callback τ) (p : Point τ) =>
        p.label = labelSeen opts ((seen opts t before).take E.pos) ∧
          p.flops = UInt64.ofInt (flopsSeen opts ((seen opts t before).take E.pos)) ∧
          p.bytes = UInt64.ofNat (bytesSeen opts ((seen opts t before).take E.pos)))
        (ends ((seen opts t before).map Prod.snd)) ps := by
  obtain ⟨before, after, mid, data, heq, hmid, hd, rfl⟩ := Agents.outs_run h ho
  refine ⟨before, after, heq, ?_⟩
  have hexit : (threadSystem opts).leave mid.shared data = data.pointList := by
    have hnone : ¬ (opts.callsAsSeparateRoi = false ∧ opts.traceF ≠ "") := by
      rw [← opts.merged_iff, hm]
      exact Bool.false_ne_true
    simp only [threadSystem, eventThreadExit, if_neg hnone, within_data]
  have hclosed := (refines_thread hmid hd).closed
  rw [turn_stance_closed, threadLedger, closed_sights _ _ hm, List.forall₂_map_right_iff] at hclosed
  have hlabels := labels_threadRun opts (seen opts t before) hm
  rw [← own_threadRun hmid hd] at hlabels
  rw [hexit, List.forall₂_iff_get]
  refine ⟨hclosed.length_eq.symm, fun i hi hi' => ?_⟩
  have hholds := hclosed.get hi' hi
  have hamounts := holding_sights opts ((seen opts t before).take
    ((ends ((seen opts t before).map Prod.snd)).get ⟨i, hi⟩).pos)
  have hlabel := congrArg (fun ls => ls[i]?) hlabels
  simp only [List.getElem?_map, List.getElem?_eq_getElem hi, List.getElem?_eq_getElem hi', Option.map_some] at hlabel
  exact ⟨Option.some.inj hlabel, by rw [← hamounts.1]; exact hholds.flops, by rw [← hamounts.2]; exact hholds.bytes⟩

end exits

/-- A worker runs a clean call while the region of the first thread is open, and ends no region. -/
def workerActions : List (ThreadAction ℕ ℕ) :=
  [.enter 0, .enter 1, .act 1 (.cleanCall 7), .act 0 (.roiInit ⟨"a", 3, "m.c"⟩ 1), .act 1 (.saveRef ⟨8, 0⟩),
    .act 0 (.cleanCall 5), .act 1 (.cleanCall 2), .act 0 (.saveRef ⟨4, 1⟩), .act 0 (.cleanCall 1),
    .act 0 (.roiEnd ⟨"a", 9, "m.c"⟩ 2), .leave 1, .leave 0]

theorem run_workerActions : ∃ P : Process ℕ ℕ, runThreads {} workerActions = some P ∧
    P.outs = [(1, []), (0, [⟨"a", "m.c", "m.c", 3, 9, 6, 4, 0, 4, 0, 0⟩])] := by
  have hout : (runThreads {} workerActions).map (·.outs) =
      some [(1, []), (0, [⟨"a", "m.c", "m.c", 3, 9, 6, 4, 0, 4, 0, 0⟩])] := by decide
  exact Option.map_eq_some_iff.mp hout

private theorem workerActions_leave {before after : List (ThreadAction ℕ ℕ)}
    (h : workerActions = before ++ .leave 0 :: after) :
    before = workerActions.take 11 := by
  have hleave : workerActions[before.length]? = some (.leave 0) := by
    rw [h, List.getElem?_append_right le_rfl, Nat.sub_self, List.getElem?_cons_zero]
  have hlt : before.length < 12 := (List.getElem?_eq_some_iff.mp hleave).1
  have honly : ∀ n < 12, workerActions[n]? = some (.leave 0) → n = 11 := by decide
  rw [← honly before.length hlt hleave, h, List.take_left]

theorem thread_accounts_worker : ∃ P p, runThreads {} workerActions = some P ∧ (0, [p]) ∈ P.outs ∧
    p.label = "a" ∧ p.flops = 6 ∧ p.bytes = 4 := by
  obtain ⟨P, hP, houts⟩ := run_workerActions
  obtain ⟨p, hmem⟩ : ∃ p, (0, [p]) ∈ P.outs := ⟨⟨"a", "m.c", "m.c", 3, 9, 6, 4, 0, 4, 0, 0⟩, by simp [houts]⟩
  have hm : Options.merged {} = false := rfl
  obtain ⟨before, after, heq, hall⟩ := thread_accounts hm hP hmem
  obtain rfl := workerActions_leave heq
  obtain ⟨E, hends, hpos⟩ : ∃ E, ends ((seen {} 0 (workerActions.take 11)).map Prod.snd) = [E] ∧ E.pos = 4 :=
    ⟨_, rfl, rfl⟩
  rw [hends, List.forall₂_cons] at hall
  obtain ⟨⟨hlabel, hflops, hbytes⟩, -⟩ := hall
  rw [hpos] at hlabel hflops hbytes
  exact ⟨P, p, hP, hmem, hlabel, hflops, hbytes⟩

end Roofline.Correctness
