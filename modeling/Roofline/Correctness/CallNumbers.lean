import Roofline.Correctness.Isolation
import Roofline.Correctness.UniqueNames

/-! The numbers of separate calls. The statics of get_label_and_assign_id move on at every
other callback, so a call ends under the number it has begun with. -/
namespace Roofline.Correctness
open Client Library
variable {τ : Type}

section positions
variable {es : List (Event τ)} {j : ℕ}

private theorem alternating_take (h : Alternating false es) (n : ℕ) : Alternating false (es.take n) := by
  unfold Alternating at h ⊢
  rw [← List.take_append_drop n es, List.foldlM_append] at h
  cases hb : (es.take n).foldlM alternation false with
  | none => simp [hb] at h
  | some b => rfl

/-- The callbacks before the beginning one of call j are those of the earlier calls. -/
theorem length_starts_take {S : Callback τ} (hS : (starts es)[j]? = some S) :
    (starts (es.take S.pos)).length = j := by
  induction es using List.reverseRecOn with
  | nil => simp [starts] at hS
  | append_singleton es ev ih =>
    have hold (hS : (starts es)[j]? = some S) : (starts ((es ++ [ev]).take S.pos)).length = j := by
      have hpos := (List.getElem?_eq_some_iff.mp (mem_starts (List.mem_of_getElem? hS))).1
      rw [List.take_append_of_le_length hpos.le]
      exact ih hS
    rw [starts_snoc] at hS
    cases ev with
    | roiInit cxt now =>
      rcases getElem?_snoc_eq_some.mp hS with hS | ⟨rfl, rfl⟩
      · exact hold hS
      · rw [List.take_append_of_le_length le_rfl, List.take_length]
    | roiEnd cxt now => exact hold (by simpa using hS)
    | saveRef r => exact hold (by simpa using hS)
    | cleanCall n => exact hold (by simpa using hS)

private theorem length_ends_take {E : Callback τ} (hE : (ends es)[j]? = some E) :
    (ends (es.take E.pos)).length = j := by
  induction es using List.reverseRecOn with
  | nil => simp [ends] at hE
  | append_singleton es ev ih =>
    have hold (hE : (ends es)[j]? = some E) : (ends ((es ++ [ev]).take E.pos)).length = j := by
      have hpos := (List.getElem?_eq_some_iff.mp (mem_ends (List.mem_of_getElem? hE))).1
      rw [List.take_append_of_le_length hpos.le]
      exact ih hE
    rw [ends_snoc] at hE
    cases ev with
    | roiEnd cxt now =>
      rcases getElem?_snoc_eq_some.mp hE with hE | ⟨rfl, rfl⟩
      · exact hold hE
      · rw [List.take_append_of_le_length le_rfl, List.take_length]
    | roiInit cxt now => exact hold (by simpa using hE)
    | saveRef r => exact hold (by simpa using hE)
    | cleanCall n => exact hold (by simpa using hE)

end positions

/-- The label that a callback at position k obtains from get_label_and_assign_id. -/
def obtainedLabel [Zero τ] (opts : Options) (es : List (Event τ)) (k : ℕ) : String :=
  ((run opts (es.take k)).getLabelAndAssignId opts).1

def callName (opts : Options) (k : ℕ) : String := opts.traceF ++ toString (Int32.ofNat (k + 1)).toInt

private theorem callName_eq (opts : Options) {k : ℕ} (h : k + 1 < 2 ^ 31) :
    callName opts k = opts.traceF ++ toString (k + 1) := by rw [callName, toString_ofNat_toInt h]

section numbers
variable [Zero τ] {opts : Options} {es : List (Event τ)} (hsep : opts.callsAsSeparateRoi = true)
  (halt : Alternating false es)

include hsep in
theorem separate_not_merged : opts.merged = false := by simp [Options.merged, hsep]

include hsep in
private theorem label_of_numbered (h : Alternating false es) :
    ((run opts es).getLabelAndAssignId opts).1 = callName opts (ends es).length := by
  have htraced := traced_run opts es (separate_not_merged hsep) h
  rw [ClientState.getLabelAndAssignId, callName, (htraced.numbered hsep).1]

include hsep halt in
private theorem obtainedLabel_start {k : ℕ} {S : Callback τ} (hS : (starts es)[k]? = some S) :
    obtainedLabel opts es S.pos = callName opts k := by
  have hget := mem_starts (List.mem_of_getElem? hS)
  have hsucc := alternating_take halt (S.pos + 1)
  rw [List.take_add_one, hget, Option.toList_some] at hsucc
  have hidle := ((alternating_snoc_iff _ _).mp hsucc).2.1 rfl
  have hbegun := (paired _ (alternating_take halt S.pos)).begun
  rw [hidle, Bool.toNat_false, Nat.add_zero, length_starts_take hS] at hbegun
  rw [obtainedLabel, label_of_numbered hsep (alternating_take halt S.pos), ← hbegun]

include hsep halt in
private theorem obtainedLabel_end {k : ℕ} {E : Callback τ} (hE : (ends es)[k]? = some E) :
    obtainedLabel opts es E.pos = callName opts k := by
  rw [obtainedLabel, label_of_numbered hsep (alternating_take halt E.pos), length_ends_take hE]

include hsep halt in
/-- A region is always ended under the label it has begun with. -/
theorem warnings_run : (run opts es).data.warnings = [] := by
  have hm := separate_not_merged hsep
  induction es using List.reverseRecOn with
  | nil => rfl
  | append_singleton es ev ih =>
    obtain ⟨hes, -, hend⟩ := (alternating_snoc_iff es ev).mp halt
    have ih := ih hes
    rw [run_snoc]
    cases ev with
    | saveRef r => rw [step_saveRef, ih]
    | cleanCall n => rw [step_cleanCall, ih]
    | roiInit cxt now => rw [step_roiInit, ih]
    | roiEnd cxt now =>
      have htraced := traced_run opts es hm hes
      obtain ⟨S, -, hregion⟩ := htraced.current (hend rfl)
      have hlabel : (run opts es).data.curPoint.label = roiLabel opts (run opts es) cxt := by
        have hopen := congrArg Region.label hregion
        simp only [Point.region, openRegion, ownLabel, hsep, if_true] at hopen
        rw [hopen, roiLabel, if_pos hsep, (htraced.numbered hsep).1]
      rw [step_roiEnd]
      simp [hm, hlabel, ih]

include hsep halt in
private theorem labels_finalPoints :
    (finalPoints opts es).map (·.label) = (List.range (ends es).length).map (callName opts) := by
  have hm := separate_not_merged hsep
  have htraced := traced_run opts es hm halt
  rw [finalPoints_eq, hm, if_neg Bool.false_ne_true, List.append_nil]
  apply List.ext_getElem
  · simp [htraced.count]
  · intro k hk _
    have hk : k < (run opts es).data.pointList.length := by simpa using hk
    obtain ⟨S, E, -, -, hregion⟩ := htraced.points k _ (List.getElem?_eq_getElem hk)
    have hlabel := congrArg Region.label hregion
    simp only [Point.region, regionOf, openRegion, ownLabel, hsep, if_true] at hlabel
    rw [List.getElem_map, hlabel, List.getElem_map, List.getElem_range, callName]

private theorem callNames_eq (opts : Options) {n : ℕ} (h : n < 2 ^ 31) :
    (List.range n).map (callName opts) = (List.range n).map fun k => opts.traceF ++ toString (k + 1) := by
  apply List.map_congr_left
  intro k hk
  have hlt := List.mem_range.mp hk
  exact callName_eq opts (by omega)

private theorem nodup_numbered (f : String) (n : ℕ) : ((List.range n).map fun k => f ++ toString (k + 1)).Nodup := by
  apply List.Nodup.map
  · intro i j h
    exact Nat.succ.inj ((numeral_inj f).mp h)
  · exact List.nodup_range

omit [Zero τ] in
/-- Distinct labels are written as they stand. -/
theorem names_of_nodup {ps : List (Point τ)} (h : (ps.map (·.label)).Nodup) :
    (outputNames ps).map Prod.snd = ps.map (·.label) := by
  apply List.ext_getElem?
  intro i
  rw [names_getElem]
  cases hl : (ps.map (·.label))[i]? with
  | none => rfl
  | some l =>
    have hzero : ((ps.map (·.label)).take i).count l = 0 := by
      have hlt := count_take_lt hl
      have hone := List.nodup_iff_count_le_one.mp h l
      omega
    rw [Option.map_some, hzero, nameOf]

/-- With fewer than 2^31 separate calls, call k begins and ends under the name f followed by k, no
warning is printed, and the n points are written under these n names. -/
theorem call_numbering (opts : Options) (hsep : opts.callsAsSeparateRoi = true) (es : List (Event τ))
    (halt : Alternating false es) (hdone : active es = false) (hfew : (ends es).length < 2 ^ 31) :
    (starts es).length = (ends es).length ∧
      (∀ (k : ℕ) (S E : Callback τ), (starts es)[k]? = some S → (ends es)[k]? = some E →
        obtainedLabel opts es S.pos = opts.traceF ++ toString (k + 1) ∧
          obtainedLabel opts es E.pos = opts.traceF ++ toString (k + 1)) ∧
      (eventThreadExit opts (run opts es)).data.warnings = [] ∧
      (finalPoints opts es).map (·.label) =
        (List.range (ends es).length).map (fun k => opts.traceF ++ toString (k + 1)) ∧
      (outputNames (finalPoints opts es)).map Prod.snd =
        (List.range (ends es).length).map (fun k => opts.traceF ++ toString (k + 1)) ∧
      ((outputNames (finalPoints opts es)).map Prod.snd).Nodup := by
  have hbegun := (paired es halt).begun
  rw [hdone, Bool.toNat_false, Nat.add_zero] at hbegun
  have hlabels := (labels_finalPoints hsep halt).trans (callNames_eq opts hfew)
  have hnodup : ((finalPoints opts es).map (·.label)).Nodup := by
    rw [hlabels]
    exact nodup_numbered opts.traceF _
  have hwarnings : (eventThreadExit opts (run opts es)).data.warnings = [] := by
    rw [eventThreadExit, if_neg (by simp [hsep])]
    exact warnings_run hsep halt
  refine ⟨hbegun, ?_, hwarnings, hlabels, ?_, ?_⟩
  · intro k S E hS hE
    have hlt := (List.getElem?_eq_some_iff.mp hE).1
    rw [← callName_eq opts (k := k) (by omega)]
    exact ⟨obtainedLabel_start hsep halt hS, obtainedLabel_end hsep halt hE⟩
  · rw [names_of_nodup hnodup]
    exact hlabels
  · rw [names_of_nodup hnodup]
    exact hnodup

end numbers

def separateOptions : Options := { traceF := "f1", callsAsSeparateRoi := true }

def twoSeparateCalls : List (Event ℕ) :=
  [.saveRef ⟨8, 0⟩, .roiInit ⟨"x", 0, ""⟩ 1, .cleanCall 2, .roiEnd ⟨"x", 0, ""⟩ 2, .cleanCall 1,
    .roiInit ⟨"y", 0, ""⟩ 3, .saveRef ⟨4, 1⟩, .roiEnd ⟨"y", 0, ""⟩ 4]

theorem call_numbering_twoSeparateCalls :
    obtainedLabel separateOptions twoSeparateCalls 5 = "f12" ∧
      obtainedLabel separateOptions twoSeparateCalls 7 = "f12" ∧
      (eventThreadExit separateOptions (run separateOptions twoSeparateCalls)).data.warnings = [] ∧
      (finalPoints separateOptions twoSeparateCalls).map (·.label) = ["f11", "f12"] ∧
      (outputNames (finalPoints separateOptions twoSeparateCalls)).map Prod.snd = ["f11", "f12"] := by
  obtain ⟨-, hobtained, hwarnings, hlabels, hnames, -⟩ :=
    call_numbering separateOptions rfl twoSeparateCalls (by decide) (by decide) (by decide)
  obtain ⟨hstart, hend⟩ := hobtained 1 ⟨5, ⟨"y", 0, ""⟩, 3⟩ ⟨7, ⟨"y", 0, ""⟩, 4⟩ rfl rfl
  exact ⟨hstart, hend, hwarnings, hlabels, hnames⟩

def calls : ℕ → List (Event ℕ)
  | 0 => []
  | n + 1 => calls n ++ [.roiInit ⟨"x", 0, ""⟩ 0] ++ [.roiEnd ⟨"x", 0, ""⟩ 0]

private theorem calls_pairs (n : ℕ) :
    Alternating false (calls n) ∧ active (calls n) = false ∧ (starts (calls n)).length = n := by
  induction n with
  | zero => exact ⟨rfl, rfl, rfl⟩
  | succ n ih =>
    obtain ⟨halt, hidle, hlength⟩ := ih
    have hopen : active (calls n ++ [.roiInit ⟨"x", 0, ""⟩ 0]) = true := by
      rw [active_snoc]
      simp [Event.isStart, Event.isEnd]
    rw [calls]
    refine ⟨?_, ?_, ?_⟩
    · rw [alternating_snoc_iff, alternating_snoc_iff]
      exact ⟨⟨halt, fun _ => hidle, fun h => (Bool.false_ne_true h).elim⟩,
        fun h => (Bool.false_ne_true h).elim, fun _ => hopen⟩
    · rw [active_snoc]
      simp [Event.isEnd]
    · rw [starts_snoc, starts_snoc, List.append_nil, List.length_append, hlength]
      rfl

/-- The number of call 2^31 is no longer an int. -/
theorem calls_overflow :
    Alternating false (calls (2 ^ 31)) ∧ active (calls (2 ^ 31)) = false ∧
      ∃ S, (starts (calls (2 ^ 31)))[2 ^ 31 - 1]? = some S ∧
        obtainedLabel separateOptions (calls (2 ^ 31)) S.pos = "f1-2147483648" ∧
        obtainedLabel separateOptions (calls (2 ^ 31)) S.pos ≠ separateOptions.traceF ++ toString (2 ^ 31) := by
  obtain ⟨halt, hidle, hlength⟩ := calls_pairs (2 ^ 31)
  have hlt : 2 ^ 31 - 1 < (starts (calls (2 ^ 31))).length := by
    rw [hlength]
    decide
  have hlast := List.getElem?_eq_getElem hlt
  have hsep : separateOptions.callsAsSeparateRoi = true := rfl
  have hlabel := obtainedLabel_start hsep halt hlast
  refine ⟨halt, hidle, _, hlast, ?_, ?_⟩
  · rw [hlabel]
    decide
  · rw [hlabel]
    decide

end Roofline.Correctness
