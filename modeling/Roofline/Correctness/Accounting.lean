import Roofline.Correctness.Simulation

/-! The counters of every saved point, in terms of the events alone. -/
namespace Roofline.Correctness
open Client Library
variable {τ : Type}

section trace
variable (opts : Options) (es : List (Event τ))

theorem nextPost_entries (k : ℕ) : Ledger.nextPost (entries opts es) k = nextClean es k := by
  have h : (fun e : Entry Tally => e.post.isSome) ∘ entryOf opts = Event.isClean (τ := τ) := by
    funext ev
    cases ev <;> rfl
  rw [Ledger.nextPost, nextClean, entries, ← List.map_drop, List.findIdx?_map, h]

theorem run_entries_active : (Ledger.run (entries opts es)).active = active es := by
  induction es using List.reverseRecOn with
  | nil => rfl
  | append_singleton es ev ih =>
    rw [entries_snoc, Ledger.run_snoc, active_snoc, ← ih]
    cases ev with
    | roiInit cxt now =>
      rw [entryOf, Ledger.step_turning]
      split_ifs <;> simp [Ledger.turn, Event.isStart, Event.isEnd]
    | roiEnd cxt now =>
      rw [entryOf, Ledger.step_turning]
      split_ifs <;> simp [Ledger.turn, Event.isStart, Event.isEnd]
    | saveRef r => rw [entryOf, Ledger.step_deferring]; simp [Event.isStart, Event.isEnd]
    | cleanCall n => rw [entryOf, Ledger.step_posting]; simp [Event.isStart, Event.isEnd]

theorem run_entries_closed :
    (Ledger.run (entries opts es)).closed.length = if opts.merged then 0 else es.countP Event.isEnd := by
  induction es using List.reverseRecOn with
  | nil => simp [entries, Ledger.blank]
  | append_singleton es ev ih =>
    rw [entries_snoc, Ledger.run_snoc, List.countP_append]
    cases ev with
    | roiInit cxt now =>
      rw [entryOf, Ledger.step_turning]
      cases hm : opts.merged <;> simp [Ledger.turn, ih, hm, Event.isEnd]
    | roiEnd cxt now =>
      rw [entryOf, Ledger.step_turning]
      cases hm : opts.merged <;> simp [Ledger.turn, ih, hm, Event.isEnd]
    | saveRef r => rw [entryOf, Ledger.step_deferring]; simp [ih, Event.isEnd]
    | cleanCall n => rw [entryOf, Ledger.step_posting]; simp [ih, Event.isEnd]

/-- A clean call posts to the region it falls into. -/
theorem owner_entries {c : ℕ} {ev : Event τ} (hc : es[c]? = some ev) (hev : ev.isClean = true) :
    Ledger.owner (entries opts es) c = roiAt opts es c := by
  have hstay : (entryOf opts ev).before = .stay := by
    cases ev <;> simp_all [Event.isClean, entryOf, Entry.posting]
  have htake : (entries opts es).take c = entries opts (es.take c) := by simp [entries, List.map_take]
  rw [Ledger.owner, htake, entries, List.getElem?_map, hc, Option.map_some, Option.bind_some, hstay,
    Ledger.turn_stay, Ledger.holder, run_entries_active, run_entries_closed, roiAt]

theorem nextClean_isClean {k c : ℕ} (h : nextClean es k = some c) :
    ∃ ev, es[c]? = some ev ∧ ev.isClean = true := by
  obtain ⟨i, hi, rfl⟩ := Option.map_eq_some_iff.mp h
  obtain ⟨hlt, hp, _⟩ := List.findIdx?_eq_some_iff_getElem.mp hi
  have hc : i + (k + 1) < es.length := by simp at hlt; omega
  refine ⟨es[i + (k + 1)], List.getElem?_eq_getElem hc, ?_⟩
  simpa [Nat.add_comm i] using hp

private theorem postAt_entries (k : ℕ) :
    Ledger.postAt (entries opts es) k = ⟨(es[k]?.map Event.fpCount).getD 0, 0, 0, 0⟩ := by
  rw [Ledger.postAt, entries, List.getElem?_map]
  rcases es[k]? with _ | ev
  · rfl
  · cases ev <;> rfl

theorem deferAt_entries (k : ℕ) :
    Ledger.deferAt (entries opts es) k =
      ⟨0, (es[k]?.map Event.refSize).getD 0, (es[k]?.map (Event.kindSize 0)).getD 0,
        (es[k]?.map (Event.kindSize 1)).getD 0⟩ := by
  rw [Ledger.deferAt, entries, List.getElem?_map]
  rcases es[k]? with _ | ev
  · rfl
  · cases ev <;> rfl

/-- The exact amounts of region j, summed over the positions of the run. -/
theorem account_entries (j : ℕ) :
    Ledger.account (entries opts es) j =
      ∑ k ∈ Finset.range es.length,
        ((if roiAt opts es k = some j then ⟨(es[k]?.map Event.fpCount).getD 0, 0, 0, 0⟩ else 0) +
          if (nextClean es k).bind (roiAt opts es) = some j then Ledger.deferAt (entries opts es) k
          else 0) := by
  rw [Ledger.account, show (entries opts es).length = es.length by simp [entries]]
  refine Finset.sum_congr rfl fun k hk => ?_
  have hk := Finset.mem_range.mp hk
  congr 1
  · rw [postAt_entries]
    have hget := List.getElem?_eq_getElem hk
    by_cases hev : es[k].isClean = true
    · rw [owner_entries opts es hget hev]
    · have hz : es[k].fpCount = 0 := by cases h : es[k] <;> simp_all [Event.isClean, Event.fpCount]
      simp only [hget, Option.map_some, Option.getD_some, hz]
      split_ifs <;> rfl
  · rw [nextPost_entries]
    cases hn : nextClean es k with
    | none => rfl
    | some c =>
      obtain ⟨ev, hc, hev⟩ := nextClean_isClean es hn
      rw [Option.bind_some, Option.bind_some, owner_entries opts es hc hev]

/-- What holds of every step of an alternating run holds along its ledger. -/
theorem along_entries {P : Ledger Tally → Entry Tally → Prop} {inside : Bool} (h : Alternating inside es)
    (hstep : ∀ (es : List (Event τ)) (ev : Event τ), Alternating inside (es ++ [ev]) →
      P (Ledger.run (entries opts es)) (entryOf opts ev)) :
    Ledger.Along P (entries opts es) := by
  induction es using List.reverseRecOn with
  | nil =>
    intro k e he
    simp [entries] at he
  | append_singleton es ev ih =>
    obtain ⟨b, hb, -⟩ := (alternating_snoc inside es ev).mp h
    rw [entries_snoc, Ledger.along_snoc]
    exact ⟨ih (by simp [Alternating, hb]), hstep es ev h⟩

/-- Where callbacks alternate, no new point discards an amount. -/
theorem keeps_entries {inside : Bool} (h : Alternating inside es) :
    Ledger.Along Ledger.Keeps (entries opts es) := by
  cases hm : opts.merged with
  | true =>
    intro k e he
    rw [entries, List.getElem?_map] at he
    obtain ⟨ev, _, rfl⟩ := Option.map_eq_some_iff.mp he
    cases ev <;> simp [Ledger.Keeps, entryOf, hm, Entry.turning, Entry.deferring, Entry.posting]
  | false =>
    refine (Ledger.keeps_of_separates _ (along_entries opts es h ?_)).2
    intro es ev h
    cases ev with
    | saveRef r => exact ⟨trivial, trivial⟩
    | cleanCall n => exact ⟨trivial, trivial⟩
    | roiInit cxt now =>
      obtain ⟨b, hb, hev⟩ := (alternating_snoc inside es _).mp h
      have hact := (alternation_active es hb).1
      have hidle : (Ledger.run (entries opts es)).active = false := by
        rw [run_entries_active, Bool.eq_false_iff]
        intro ha
        rw [hact ha] at hev
        cases hev
      rw [entryOf, hm]
      exact ⟨hidle, trivial⟩
    | roiEnd cxt now =>
      rw [entryOf, hm]
      exact ⟨trivial, trivial⟩

end trace

variable [Zero τ] (opts : Options) (es : List (Event τ))

/-- The points that are written: the saved ones and, in the merged mode, the current one. -/
theorem finalPoints_eq :
    finalPoints opts es = (run opts es).data.pointList ++
      if opts.merged then [((run opts es).data.curPoint.setLineEnd 0).setSrcFileEnd ""] else [] := by
  by_cases h : opts.callsAsSeparateRoi = false ∧ opts.traceF ≠ ""
  · simp [finalPoints, eventThreadExit, h, opts.merged_iff.mpr h, ClientState.savePoint,
      ThreadData.savePoint]
  · have hm : opts.merged = false := by
      rw [Bool.eq_false_iff]
      exact fun hm => h (opts.merged_iff.mp hm)
    simp [finalPoints, eventThreadExit, h, hm]

/-- Every written point holds the amounts of its account. -/
theorem finalPoints_hold {j : ℕ} {p : Point τ} (hp : (finalPoints opts es)[j]? = some p) :
    Holds p ((Ledger.run (entries opts es)).book j) := by
  have ref := refines_run opts es
  have hall : List.Forall₂ Holds (finalPoints opts es)
      ((Ledger.run (entries opts es)).closed ++
        if opts.merged then [(Ledger.run (entries opts es)).current] else []) := by
    rw [finalPoints_eq]
    refine List.rel_append ref.closed ?_
    split_ifs
    · exact .cons ⟨ref.current.flops, ref.current.bytes⟩ .nil
    · exact .nil
  have hj := (List.getElem?_eq_some_iff.mp hp).1
  have hlen := hall.length_eq
  have hbook : ((Ledger.run (entries opts es)).closed ++
      if opts.merged then [(Ledger.run (entries opts es)).current] else [])[j]? =
        some ((Ledger.run (entries opts es)).book j) := by
    cases hm : opts.merged with
    | false =>
      simp only [hm, Bool.false_eq_true, if_false, List.append_nil] at hlen ⊢
      exact Ledger.book_of_lt _ (by omega)
    | true =>
      simp only [hm, if_true] at hlen ⊢
      rw [Ledger.book, List.getElem?_eq_getElem (by omega), Option.getD_some]
  obtain ⟨hj', rfl⟩ := List.getElem?_eq_some_iff.mp hp
  obtain ⟨hj'', heq⟩ := List.getElem?_eq_some_iff.mp hbook
  rw [← heq]
  exact hall.get hj' hj''

end Roofline.Correctness
