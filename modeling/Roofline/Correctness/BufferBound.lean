import Roofline.Library.Occupancy
import Roofline.Client.Instrumentation
import Roofline.Client.StepSpec

/-! The reference buffer. No inserted code checks its end: it is enough that every block has
at most as many instructions as there are entries. -/
namespace Roofline.Correctness
open Client Library
variable {τ ι : Type}

def accessOf : Event τ → Access
  | .roiInit _ _ => .skip
  | .roiEnd _ _ => .skip
  | .saveRef _ => .put
  | .cleanCall _ => .flush

/-- The entries in the buffer depend on the accesses alone. -/
theorem length_buf_run [Zero τ] (opts : Options) (es : List (Event τ)) :
    (run opts es).data.buf.length = Access.level 0 (es.map accessOf) := by
  induction es using List.reverseRecOn with
  | nil => rfl
  | append_singleton es ev ih =>
    rw [run_snoc, List.map_append, Access.level_append, ← ih]
    cases ev with
    | roiInit cxt now =>
      rw [step_roiInit]
      rfl
    | roiEnd cxt now =>
      rw [step_roiEnd]
      cases opts.merged with
      | false => rfl
      | true => rfl
    | saveRef r =>
      rw [step_saveRef, List.length_append]
      rfl
    | cleanCall n =>
      rw [step_cleanCall]
      rfl

/-- Every append of a run finds room, the write position stays within the buffer, and a clean
call moves it back to the start. -/
structure BufferSafe [Zero τ] (opts : Options) (es : List (Event τ)) : Prop where
  room : ∀ k r, es[k]? = some (.saveRef r) → (run opts (es.take k)).data.buf.length < maxNumMemRefs
  position : ∀ k, (run opts (es.take k)).data.buf.length ≤ maxNumMemRefs
  drained : ∀ k n, es[k]? = some (.cleanCall n) → (run opts (es.take (k + 1))).data.buf = []

private theorem bufferSafe_of_bounded [Zero τ] {opts : Options} {es : List (Event τ)}
    (h : Access.Bounded maxNumMemRefs 0 (es.map accessOf)) : BufferSafe opts es := by
  have hposition (k : ℕ) : (run opts (es.take k)).data.buf.length ≤ maxNumMemRefs := by
    rw [length_buf_run, List.map_take]
    exact h k
  refine ⟨?_, hposition, ?_⟩
  · intro k r hk
    -- the entry that is appended is counted at the next position
    have hnext := hposition (k + 1)
    rw [List.take_add_one, hk, Option.toList_some, run_snoc, step_saveRef, List.length_append] at hnext
    exact hnext
  · intro k n hk
    rw [List.take_add_one, hk, Option.toList_some, run_snoc, step_cleanCall]

section rounds
variable (opts : Options) (build : Build ι) (order : WrapOrder)

private theorem map_accessOf_saveRefs (refs : List MemRef) :
    (refs.map (.saveRef : MemRef → Event τ)).map accessOf = List.replicate refs.length .put := by
  induction refs with
  | nil => rfl
  | cons r refs ih => rw [List.map_cons, List.map_cons, ih, List.length_cons, List.replicate_succ, accessOf]

private theorem accessOf_callbacks (x : Execution τ ι) {a : Access} (ha : a ∈ x.callbacks.map accessOf) :
    a = .skip := by
  obtain ⟨ev, hev, rfl⟩ := List.mem_map.mp ha
  rcases hx : x.callback with _ | ⟨ev', hcb⟩
  · simp [Execution.callbacks, hx] at hev
  · simp only [Execution.callbacks, hx, Option.map_some, Option.toList_some, List.mem_singleton] at hev
    subst hev
    cases ev with
    | roiInit cxt now => rfl
    | roiEnd cxt now => rfl
    | saveRef r => cases hcb
    | cleanCall n => cases hcb

/-- The first instruction needs room before the clean call, all the others behind it. -/
theorem length_refs {y : CutExecution τ ι} (h : y.execution.HeadCalled opts build)
    (hsize : y.execution.block.countP (·.isApp) ≤ maxNumMemRefs) :
    (y.execution.firstRefs opts).length ≤ 1 ∧ (y.restRefs opts).length ≤ maxNumMemRefs - 1 := by
  obtain ⟨-, i, hi, happ, -⟩ := h
  obtain ⟨rest, hblock⟩ := List.head?_eq_some_iff.mp hi
  constructor
  · rw [Execution.firstRefs, List.length_map]
    exact (List.length_filter_le _ _).trans (List.length_take_le 1 _)
  · have hfilter : (y.restRefs opts).length ≤ ((y.execution.block.take y.reached).drop 1).countP (·.isApp) := by
      rw [CutExecution.restRefs, List.length_map, ← List.countP_eq_length_filter]
      apply List.countP_mono_left
      intro j _ hj
      exact (Bool.and_eq_true_iff.mp hj).1
    have htail : ((y.execution.block.take y.reached).drop 1).countP (·.isApp) ≤ rest.countP (·.isApp) := by
      rw [List.drop_one, hblock]
      exact List.Sublist.countP_le (List.take_sublist y.reached (i :: rest)).tail
    rw [hblock, List.countP_cons, happ, if_pos rfl] at hsize
    omega

/-- Every execution is one round of the buffer. -/
theorem round_cutExecution {y : CutExecution τ ι} (h : y.execution.HeadCalled opts build)
    (hsize : y.execution.block.countP (·.isApp) ≤ maxNumMemRefs) :
    Access.Round 1 (maxNumMemRefs - 1) ((y.events opts build order).map accessOf) := by
  obtain ⟨hfirst, hrest⟩ := length_refs opts build h hsize
  have hskip : .put ∉ y.execution.callbacks.map accessOf := by
    intro hput
    cases accessOf_callbacks y.execution hput
  rw [CutExecution.events_eq h order, List.map_append, List.map_append, map_accessOf_saveRefs,
    map_accessOf_saveRefs]
  refine ⟨_, _, _, rfl, hfirst, hrest, ?_, ?_⟩
  · cases order with
    | afterCleanCall =>
      rw [List.map_cons, List.mem_cons, not_or]
      exact ⟨by simp [accessOf], hskip⟩
    | beforeCleanCall =>
      rw [List.map_append, List.mem_append, not_or]
      exact ⟨hskip, by simp [accessOf]⟩
  · cases order with
    | afterCleanCall => exact List.mem_cons_self
    | beforeCleanCall => simp [accessOf]

end rounds

def fullBlock (op : ι) (n : ℕ) : List (Instr ι) := List.replicate (n + 1) ⟨true, true, true, 8, false, op⟩

def fullExecution (op : ι) (n : ℕ) : CutExecution τ ι := ⟨⟨fullBlock op n, none⟩, n + 1, n.succ_pos⟩

section tight
variable (opts : Options) (build : Build ι) (order : WrapOrder) (op : ι) (n : ℕ)

private theorem headCalled_fullExecution (ht : opts.timeRun = false) :
    (fullExecution op n : CutExecution τ ι).execution.HeadCalled opts build := by
  refine ⟨ht, _, List.head?_replicate, rfl, ?_⟩
  simp

private theorem events_fullExecution (ht : opts.timeRun = false) :
    (fullExecution op n : CutExecution τ ι).events opts build order =
      [.saveRef ⟨8, 0⟩, .cleanCall (fpInstrCount build (fullBlock op n)).toInt32] ++
        List.replicate n (.saveRef ⟨8, 0⟩) := by
  have hinstrumented : instrumented opts ⟨true, true, true, 8, false, op⟩ = true := by
    simp [instrumented]
  have hcomplete : (fullBlock op n).length ≤ n + 1 := by simp [fullBlock]
  rw [CutExecution.events_complete opts build order _ hcomplete,
    Execution.events_eq (headCalled_fullExecution opts build op n ht) order]
  cases order <;>
    simp [fullExecution, fullBlock, Execution.firstRefs, Execution.restRefs, Execution.callbacks,
      Execution.fpCount, hinstrumented, instrumentInstr, List.replicate_succ]

/-- The first entry of a block stands behind those of the block before when it is appended. -/
theorem level_fullExecutions (ht : opts.timeRun = false) :
    let es := cutEvents (τ := τ) opts build order [fullExecution op n, fullExecution op n]
    es[n + 2]? = some (.saveRef ⟨8, 0⟩) ∧ (es[n + 3]?.any Event.isClean) = true ∧
      Access.level 0 ((es.take (n + 2)).map accessOf) = n := by
  intro es
  have hes : es = ([.saveRef ⟨8, 0⟩, .cleanCall (fpInstrCount build (fullBlock op n)).toInt32] ++
      List.replicate n (.saveRef ⟨8, 0⟩)) ++
        ([.saveRef ⟨8, 0⟩, .cleanCall (fpInstrCount build (fullBlock op n)).toInt32] ++
          List.replicate n (.saveRef ⟨8, 0⟩)) := by
    have hevents := events_fullExecution (τ := τ) opts build order op n ht
    simp only [es, cutEvents, List.flatMap_cons, List.flatMap_nil, hevents, List.append_nil]
  have hlen : ([.saveRef ⟨8, 0⟩, .cleanCall (fpInstrCount build (fullBlock op n)).toInt32] ++
      List.replicate n (.saveRef ⟨8, 0⟩) : List (Event τ)).length = n + 2 := by
    simp
  refine ⟨?_, ?_, ?_⟩
  · rw [hes, List.getElem?_append_right (by omega), hlen, Nat.sub_self]
    rfl
  · rw [hes, List.getElem?_append_right (by omega), hlen, Nat.add_sub_add_left]
    rfl
  · rw [hes, List.take_append_of_le_length (by omega), List.take_of_length_le (by omega),
      List.map_append, Access.level_append, List.map_replicate, accessOf, Access.level_puts]
    exact Nat.zero_add n

end tight

/-- The buffer never overflows, whatever is executed and however it is cut short; and with
blocks of the largest size the entry of the next block goes into the last slot, right before
the clean call that drains the buffer. -/
theorem buffer_bound [Zero τ] (opts : Options) (build : Build ι) (order : WrapOrder) :
    (∀ ys : List (CutExecution τ ι), (∀ y ∈ ys, y.execution.HeadCalled opts build) →
      (∀ y ∈ ys, y.execution.block.countP (·.isApp) ≤ maxNumMemRefs) →
        BufferSafe opts (cutEvents opts build order ys)) ∧
      (Nonempty ι → opts.timeRun = false → ∃ ys : List (CutExecution τ ι),
        (∀ y ∈ ys, y.execution.HeadCalled opts build) ∧
          (∀ y ∈ ys, y.execution.block.countP (·.isApp) ≤ maxNumMemRefs) ∧
          ∃ k r, (cutEvents opts build order ys)[k]? = some (.saveRef r) ∧
            ((cutEvents opts build order ys)[k + 1]?.any Event.isClean) = true ∧
            (run opts ((cutEvents opts build order ys).take k)).data.buf.length + 1 = maxNumMemRefs) := by
  constructor
  · intro ys hcalled hsize
    apply bufferSafe_of_bounded
    have hfits : maxNumMemRefs - 1 + 1 ≤ maxNumMemRefs := by decide
    have hrounds := Access.bounded_rounds hfits
      (ys.map fun y => (y.events opts build order).map accessOf) (by
        intro as has
        obtain ⟨y, hy, rfl⟩ := List.mem_map.mp has
        exact round_cutExecution opts build order (hcalled y hy) (hsize y hy))
    have hflat : (cutEvents opts build order ys).map accessOf =
        (ys.map fun y => (y.events opts build order).map accessOf).flatten := by
      rw [cutEvents, List.map_flatMap, List.flatMap_def]
    rw [hflat]
    exact hrounds.1
  · rintro ⟨op⟩ ht
    obtain ⟨n, hn⟩ : ∃ n, maxNumMemRefs = n + 1 := ⟨4095, rfl⟩
    obtain ⟨hnext, hclean, hlevel⟩ := level_fullExecutions (τ := τ) opts build order op n ht
    refine ⟨[fullExecution op n, fullExecution op n], ?_, ?_, n + 2, ⟨8, 0⟩, hnext, hclean, ?_⟩
    · intro y hy
      obtain rfl : y = fullExecution op n := by simpa using hy
      exact headCalled_fullExecution opts build op n ht
    · intro y hy
      obtain rfl : y = fullExecution op n := by simpa using hy
      rw [hn]
      exact List.countP_le_length.trans (by simp [fullExecution, fullBlock])
    · rw [length_buf_run, hlevel, hn]

def cutRun : List (CutExecution ℕ ℕ) :=
  [⟨⟨fullBlock 1 1, none⟩, 1, by decide⟩, ⟨⟨fullBlock 1 1, some ⟨.roiInit ⟨"cut", 1, "f.c"⟩ 0, rfl⟩⟩, 2, by decide⟩]

theorem buffer_bound_cutRun :
    BufferSafe {} (cutEvents {} ⟨true, UInt32.ofNat⟩ .beforeCleanCall cutRun) ∧
      ∃ ys : List (CutExecution ℕ ℕ), (∀ y ∈ ys, y.execution.HeadCalled {} ⟨true, UInt32.ofNat⟩) ∧
        (∀ y ∈ ys, y.execution.block.countP (·.isApp) ≤ maxNumMemRefs) ∧
        ∃ k r, (cutEvents {} ⟨true, UInt32.ofNat⟩ .beforeCleanCall ys)[k]? = some (.saveRef r) ∧
          ((cutEvents {} ⟨true, UInt32.ofNat⟩ .beforeCleanCall ys)[k + 1]?.any Event.isClean) = true ∧
          (run {} ((cutEvents {} ⟨true, UInt32.ofNat⟩ .beforeCleanCall ys).take k)).data.buf.length + 1 =
            maxNumMemRefs := by
  obtain ⟨hsafe, htight⟩ := buffer_bound (τ := ℕ) {} ⟨true, UInt32.ofNat⟩ .beforeCleanCall
  refine ⟨hsafe cutRun ?_ (by decide), htight ⟨0⟩ rfl⟩
  intro y hy
  have hhead : y.execution.block = fullBlock 1 1 := by
    simp only [cutRun, List.mem_cons, List.not_mem_nil, or_false] at hy
    rcases hy with rfl | rfl
    · rfl
    · rfl
  exact ⟨rfl, _, congrArg List.head? hhead, rfl, rfl⟩

end Roofline.Correctness
