import Roofline.Correctness.BytePartition
import Roofline.Correctness.Provenance

/-! Tracing a recursive function. The client keeps one flag and not a depth, so an exit
of an inner call also ends what the outer call does afterwards. -/
namespace Roofline.Correctness
open Client Library
variable {τ : Type} [Zero τ] (opts : Options) (es : List (Event τ))

/-- Every clean call made during some call finds the region active, and all that it counts
is part of one written point; no other clean call finds it active. -/
def ActivityExact : Prop :=
  ∀ (c : ℕ) (n : Int32), es[c]? = some (.cleanCall n) →
    ((run opts (es.take c)).inRoi = true ↔ 0 < depth (es.take c)) ∧
      (0 < depth (es.take c) → ∃ j < (finalPoints opts es).length,
        ∀ k, countedBy es k = some c → k ∈ origin opts es j)

private theorem run_inRoi : (run opts es).inRoi = active es := by
  rw [(refines_run opts es).active, run_entries_active]

/-- A clean call inside a region is counted there if that region is ended before another begins. -/
theorem counted_of_ended (hm : opts.merged = false) {c : ℕ} (ha : active (es.take c) = true)
    (hn : (nextCallback es c).any Event.isEnd = true) :
    ∃ j < (finalPoints opts es).length, ∀ k, countedBy es k = some c → k ∈ origin opts es j := by
  obtain ⟨ev, hev, hend⟩ := (Option.any_eq_true _ _).mp hn
  have hpos : 0 < (es.drop (c + 1)).countP Event.isEnd :=
    List.countP_pos_iff.mpr ⟨ev, List.mem_of_find?_eq_some hev, hend⟩
  refine ⟨(es.take c).countP Event.isEnd, ?_, fun k hk => ?_⟩
  · have hlt :
        (es.take c).countP Event.isEnd + (es.drop (c + 1)).countP Event.isEnd ≤ es.countP Event.isEnd := by
      conv_rhs => rw [← List.take_append_drop c es, List.countP_append]
      have hsub : (es.drop (c + 1)).countP Event.isEnd ≤ (es.drop c).countP Event.isEnd :=
        List.Sublist.countP_le (by rw [← List.drop_drop]; exact List.drop_sublist _ _)
      omega
    rw [finalPoints_length, regionCount, hm]
    simp
    omega
  · exact (mem_origin opts es _ k).mpr
      ⟨c, hk, by simp [roiAt, ha, hm], .inr fun ev' hev' => by simpa [hev'] using hn⟩

/-- The flag is right exactly where no inner call comes between a clean call and its own
call: none has ended before it and, with separate regions, none begins after it. -/
theorem activityExact_iff (hf : opts.traceF ≠ "") (h : Bracketed es) :
    ActivityExact opts es ↔ ∀ (c : ℕ) (n : Int32), es[c]? = some (.cleanCall n) → 0 < depth (es.take c) →
      (lastCallback (es.take c)).any Event.isStart = true ∧
        (opts.callsAsSeparateRoi = true → (nextCallback es c).any Event.isEnd = true) := by
  have hself {c : ℕ} {n : Int32} (hc : es[c]? = some (.cleanCall n)) : countedBy es c = some c := by
    simp [countedBy, hc, Event.isClean]
  have hmerged : opts.merged = !opts.callsAsSeparateRoi := by simp [Options.merged, hf]
  constructor
  · intro hexact c n hc hdepth
    obtain ⟨hin, hkept⟩ := hexact c n hc
    have ha := hin.mpr hdepth
    rw [run_inRoi, active_eq_lastCallback] at ha
    refine ⟨ha, fun hsep => ?_⟩
    obtain ⟨j, hj, hall⟩ := hkept hdepth
    obtain ⟨d, hd, hat, hnext⟩ := (mem_origin opts es j c).mp (hall c (hself hc))
    obtain rfl : c = d := Option.some.inj ((hself hc).symm.trans hd)
    have hm : opts.merged = false := by rw [hmerged, hsep]; rfl
    cases hn : nextCallback es c with
    | some ev => simpa using (hnext.resolve_left (by simp [hm])) ev hn
    | none =>
      -- the point that is still current at the end is never written
      have hcount := countP_isEnd_of_none es hd hn
      rw [finalPoints_length, regionCount, hm] at hj
      simp only [roiAt, hm, Option.ite_none_right_eq_some, Option.some.injEq] at hat
      simp at hj hat
      omega
  · intro hcond c n hc
    have hbr : Bracketed (es.take c) := by
      intro m
      rw [List.take_take]
      exact h _
    have hpos : active (es.take c) = true ↔ 0 < depth (es.take c) :=
      ⟨depth_pos_of_active _ hbr, fun hd => by rw [active_eq_lastCallback]; exact (hcond c n hc hd).1⟩
    refine ⟨by rw [run_inRoi]; exact hpos, fun hd => ?_⟩
    have ha := hpos.mpr hd
    cases hsep : opts.callsAsSeparateRoi with
    | true => exact counted_of_ended opts es (by rw [hmerged, hsep]; rfl) ha ((hcond c n hc hd).2 hsep)
    | false =>
      have hm : opts.merged = true := by rw [hmerged, hsep]; rfl
      refine ⟨0, by simp [finalPoints_length, regionCount, hm], fun k hk => ?_⟩
      exact (mem_origin opts es 0 k).mpr ⟨c, hk, by simp [roiAt, ha, hm], .inl hm⟩

/-- f calls itself once, and works before and after the inner call. -/
def recursiveCall : List (Event ℕ) :=
  [.roiInit ⟨"", 0, ""⟩ 0, .cleanCall 2, .roiInit ⟨"", 0, ""⟩ 0, .cleanCall 3, .roiEnd ⟨"", 0, ""⟩ 0,
    .cleanCall 5, .roiEnd ⟨"", 0, ""⟩ 0]

private theorem recursiveCall_bracketed : Bracketed recursiveCall := by
  have hprefix : ∀ n < 7,
      (recursiveCall.take n).countP Event.isEnd ≤ (recursiveCall.take n).countP Event.isStart := by
    decide
  intro n
  rcases Nat.lt_or_ge n 7 with hn | hn
  · exact hprefix n hn
  · rw [List.take_of_length_le hn]
    decide

theorem activityExact_iff_recursiveCall :
    ActivityExact { traceF := "f" } recursiveCall ↔ ∀ (c : ℕ) (n : Int32),
      recursiveCall[c]? = some (.cleanCall n) → 0 < depth (recursiveCall.take c) →
        (lastCallback (recursiveCall.take c)).any Event.isStart = true ∧
          (false = true → (nextCallback recursiveCall c).any Event.isEnd = true) :=
  activityExact_iff { traceF := "f" } recursiveCall (by decide) recursiveCall_bracketed

/-- The last clean call runs in the outer call, with the region inactive. -/
theorem recursiveCall_not_exact :
    Bracketed recursiveCall ∧ ¬ ActivityExact { traceF := "f" } recursiveCall := by
  refine ⟨recursiveCall_bracketed, fun h => ?_⟩
  exact absurd ((h 5 5 rfl).1.mpr (by decide)) (by decide)

end Roofline.Correctness
