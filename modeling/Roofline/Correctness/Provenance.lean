import Roofline.Library.Provenance
import Roofline.Correctness.Accounting
import Mathlib.Algebra.BigOperators.Group.Multiset.Basic

/-! Where the counters of a written point come from: the positions of the events that it
counts, for callbacks in any order. -/
namespace Roofline.Correctness
open Client Library
variable {τ : Type}

/-- The ledger entry of an event, with its position in place of its amount. -/
def tagOf (opts : Options) (k : ℕ) : Event τ → Entry (Multiset ℕ)
  | .roiInit _ _ => .turning (if opts.merged then .resume else .opening)
  | .roiEnd _ _ => .turning (if opts.merged then .pause else .closing)
  | .saveRef _ => .deferring {k}
  | .cleanCall _ => .posting {k}

def tags (opts : Options) (es : List (Event τ)) : List (Entry (Multiset ℕ)) :=
  es.zipIdx.map fun p => tagOf opts p.2 p.1

/-- The positions of the events that point j counts. -/
def origin (opts : Options) (es : List (Event τ)) (j : ℕ) : Multiset ℕ :=
  (Ledger.run (tags opts es)).book j

def amountOf : Event τ → Tally
  | .saveRef r => refTally r
  | .cleanCall n => fpTally n
  | _ => 0

def weigh (es : List (Event τ)) : Multiset ℕ →+ Tally :=
  Multiset.sumAddMonoidHom.comp (Multiset.mapAddMonoidHom fun k => (es[k]?.map amountOf).getD 0)

section tags
variable (opts : Options) (es : List (Event τ))

@[simp] theorem tags_snoc (ev : Event τ) :
    tags opts (es ++ [ev]) = tags opts es ++ [tagOf opts es.length ev] := by
  simp [tags, List.zipIdx_append]

private theorem entries_eq_tags : entries opts es = (tags opts es).map (Entry.map (weigh es)) := by
  apply List.ext_getElem
  · simp [entries, tags]
  intro k hk _
  have hk : k < es.length := by simpa [entries] using hk
  have hone : weigh es {k} = amountOf es[k] := by simp [weigh, List.getElem?_eq_getElem hk]
  simp only [entries, tags, List.getElem_map, List.getElem_zipIdx, Nat.zero_add]
  cases hev : es[k] <;> rw [hev] at hone <;>
    simp [entryOf, tagOf, Entry.map, Entry.turning, Entry.deferring, Entry.posting,
      amountOf] at hone ⊢ <;>
    rw [hone]

private theorem book_origin (j : ℕ) : (Ledger.run (entries opts es)).book j = weigh es (origin opts es j) := by
  rw [entries_eq_tags, ← Ledger.map_run, Ledger.map_book, origin]

/-- The counters of point j are sums over the events that it counts. -/
theorem finalPoints_origin [Zero τ] {j : ℕ} {p : Point τ} (hp : (finalPoints opts es)[j]? = some p) :
    p.flops = UInt64.ofInt ((origin opts es j).map fun k => (es[k]?.map Event.fpCount).getD 0).sum ∧
      p.bytes = UInt64.ofNat ((origin opts es j).map fun k => (es[k]?.map Event.refSize).getD 0).sum := by
  have hold := finalPoints_hold opts es hp
  have hflops (k : ℕ) : ((es[k]?.map amountOf).getD 0).flops = (es[k]?.map Event.fpCount).getD 0 := by
    rcases es[k]? with _ | ev
    · rfl
    · cases ev <;> rfl
  have hbytes (k : ℕ) : ((es[k]?.map amountOf).getD 0).bytes = (es[k]?.map Event.refSize).getD 0 := by
    rcases es[k]? with _ | ev
    · rfl
    · cases ev <;> rfl
  rw [book_origin] at hold
  constructor
  · rw [hold.flops]
    congr 1
    simpa [weigh, Multiset.map_map, Function.comp_def, hflops] using
      map_multiset_sum Tally.flopsHom ((origin opts es j).map fun k => (es[k]?.map amountOf).getD 0)
  · rw [hold.bytes]
    congr 1
    simpa [weigh, Multiset.map_map, Function.comp_def, hbytes] using
      map_multiset_sum Tally.bytesHom ((origin opts es j).map fun k => (es[k]?.map amountOf).getD 0)

/-- A clean call that counts towards the current point. -/
def CountsNow (opts : Options) (es : List (Event τ)) (c : ℕ) : Prop :=
  active (es.take c) = true ∧ (opts.merged = true ∨ nextCallback es c = none)

/-- A clean call that counts towards saved point j. -/
def CountsFor (es : List (Event τ)) (j c : ℕ) : Prop :=
  active (es.take c) = true ∧ (es.take c).countP Event.isEnd = j ∧ (nextCallback es c).any Event.isEnd = true

/-- The events behind each amount of the tagged ledger. -/
structure Origins (opts : Options) (es : List (Event τ)) (L : Ledger (Multiset ℕ)) : Prop where
  deferred : ∀ k, k ∈ L.deferred ↔ es[k]?.any Event.isRef = true ∧ countedBy es k = none
  current : ∀ k, k ∈ L.current ↔ ∃ c, countedBy es k = some c ∧ CountsNow opts es c
  closed : ∀ (j : ℕ) (x : Multiset ℕ), L.closed[j]? = some x →
    ∀ k, k ∈ x ↔ ∃ c, countedBy es k = some c ∧ CountsFor es j c

private theorem countedBy_lt {k c : ℕ} (h : countedBy es k = some c) : c < es.length ∧ k ≤ c := by
  obtain ⟨ev, hev, hc⟩ := Option.bind_eq_some_iff.mp h
  have hk := (List.getElem?_eq_some_iff.mp hev).1
  split_ifs at hc with h1 h2
  · cases hc
    exact ⟨hk, le_rfl⟩
  · rw [← nextPost_entries {}] at hc
    have hlt := Ledger.nextPost_lt hc
    simp only [entries, List.length_map] at hlt
    omega

private theorem nextClean_snoc (ev : Event τ) {k : ℕ} (hk : k < es.length) :
    nextClean (es ++ [ev]) k = (nextClean es k).or (if ev.isClean then some es.length else none) := by
  have hpost : (entryOf {} ev).post.isSome = ev.isClean := by cases ev <;> rfl
  rw [← nextPost_entries {}, entries_snoc, Ledger.nextPost_snoc _ _ (by simpa [entries] using hk),
    nextPost_entries, hpost]
  simp [entries]

private theorem countedBy_snoc (ev : Event τ) (k : ℕ) :
    countedBy (es ++ [ev]) k = (countedBy es k).or
      (if ev.isClean = true ∧ (k = es.length ∨ es[k]?.any Event.isRef = true) then some es.length else none) := by
  rcases lt_trichotomy k es.length with hk | rfl | hk
  · have hne : k ≠ es.length := by omega
    have hget := List.getElem?_eq_getElem hk
    simp only [countedBy, List.getElem?_append_left hk, hget, Option.bind_some, nextClean_snoc es ev hk,
      hne, false_or, Option.any_some]
    generalize ev.isClean = b
    cases es[k] <;> simp [Event.isClean, Event.isRef]
  · have hlast : nextClean (es ++ [ev]) es.length = none := by simp [nextClean]
    simp only [countedBy, List.getElem?_concat_length, Option.bind_some, hlast, ite_self,
      List.getElem?_eq_none le_rfl, Option.bind_none, Option.none_or]
    split_ifs <;> simp_all
  · have hne : k ≠ es.length := by omega
    have hout : (es ++ [ev])[k]? = none := List.getElem?_eq_none (by simp; omega)
    simp [countedBy, hout, List.getElem?_eq_none hk.le, hne]

private theorem nextCallback_snoc (ev : Event τ) {c : ℕ} (hc : c < es.length) :
    nextCallback (es ++ [ev]) c = (nextCallback es c).or (if ev.isCallback then some ev else none) := by
  rw [nextCallback, nextCallback, List.drop_append_of_le_length (by omega), List.find?_append]
  cases h : ev.isCallback <;> simp [h]

private theorem countsNow_snoc (ev : Event τ) {c : ℕ} (hc : c < es.length) :
    CountsNow opts (es ++ [ev]) c ↔ CountsNow opts es c ∧ (opts.merged = true ∨ ev.isCallback = false) := by
  rw [CountsNow, CountsNow, List.take_append_of_le_length hc.le, nextCallback_snoc es ev hc]
  cases nextCallback es c <;> cases ev.isCallback <;> simp

private theorem countsFor_snoc (ev : Event τ) {c : ℕ} (hc : c < es.length) (j : ℕ) :
    CountsFor (es ++ [ev]) j c ↔ CountsFor es j c ∨ (active (es.take c) = true ∧
      (es.take c).countP Event.isEnd = j ∧ nextCallback es c = none ∧ ev.isEnd = true) := by
  rw [CountsFor, CountsFor, List.take_append_of_le_length hc.le, nextCallback_snoc es ev hc]
  have hcb : ev.isEnd = true → ev.isCallback = true := fun h => by simp [Event.isCallback, h]
  cases nextCallback es c <;> cases hb : ev.isCallback <;> simp_all

private theorem nextCallback_last (ev : Event τ) : nextCallback (es ++ [ev]) es.length = none := by
  simp [nextCallback]

private theorem countedBy_isClean {k c : ℕ} (h : countedBy es k = some c) :
    ∃ ev, es[c]? = some ev ∧ ev.isClean = true := by
  obtain ⟨ev, hev, hc⟩ := Option.bind_eq_some_iff.mp h
  split_ifs at hc with h1 h2
  · cases hc
    exact ⟨ev, hev, h1⟩
  · exact nextClean_isClean es hc

private theorem countP_isEnd_split {k c : ℕ} (h : countedBy es k = some c) :
    es.countP Event.isEnd = (es.take c).countP Event.isEnd + (es.drop (c + 1)).countP Event.isEnd := by
  obtain ⟨ev, hev, hclean⟩ := countedBy_isClean es h
  have hend : ev.isEnd = false := by cases ev <;> simp_all [Event.isClean, Event.isEnd]
  have hc := (List.getElem?_eq_some_iff.mp hev).1
  conv_lhs => rw [← List.take_append_drop c es, List.drop_eq_getElem_cons hc]
  rw [List.getElem?_eq_getElem hc, Option.some.injEq] at hev
  simp [List.countP_append, hev, hend]

theorem countP_isEnd_of_none {k c : ℕ} (h : countedBy es k = some c) (hn : nextCallback es c = none) :
    (es.take c).countP Event.isEnd = es.countP Event.isEnd := by
  have hz : (es.drop (c + 1)).countP Event.isEnd = 0 := by
    rw [List.countP_eq_zero]
    intro ev hev
    have := List.find?_eq_none.mp hn ev hev
    simp_all [Event.isCallback]
  rw [countP_isEnd_split es h, hz, Nat.add_zero]

private theorem countP_isEnd_of_end {k c : ℕ} (h : countedBy es k = some c)
    (hn : (nextCallback es c).any Event.isEnd = true) :
    (es.take c).countP Event.isEnd < es.countP Event.isEnd := by
  obtain ⟨ev, hev, hend⟩ := (Option.any_eq_true _ _).mp hn
  have hpos : 0 < (es.drop (c + 1)).countP Event.isEnd :=
    List.countP_pos_iff.mpr ⟨ev, List.mem_of_find?_eq_some hev, hend⟩
  have := countP_isEnd_split es h
  omega

private theorem isRef_snoc (ev : Event τ) (k : ℕ) :
    (es ++ [ev])[k]?.any Event.isRef = (es[k]?.any Event.isRef || decide (k = es.length) && ev.isRef) := by
  rcases lt_trichotomy k es.length with hk | rfl | hk
  · simp [List.getElem?_append_left hk, hk.ne]
  · simp
  · have hout : (es ++ [ev])[k]? = none := List.getElem?_eq_none (by simp; omega)
    simp [hout, List.getElem?_eq_none hk.le, hk.ne']

private theorem countedBy_quiet {ev : Event τ} (hev : ev.isClean = false) (k : ℕ) :
    countedBy (es ++ [ev]) k = countedBy es k := by
  simp [countedBy_snoc, hev]

private theorem countsNow_quiet {ev : Event τ} (hev : ev.isCallback = false) {k c : ℕ}
    (hc : countedBy es k = some c) :
    CountsNow opts (es ++ [ev]) c ↔ CountsNow opts es c := by
  simp [countsNow_snoc opts es ev (countedBy_lt es hc).1, hev]

private theorem countsFor_quiet {ev : Event τ} (hev : ev.isEnd = false) {k c : ℕ} (hc : countedBy es k = some c)
    (j : ℕ) :
    CountsFor (es ++ [ev]) j c ↔ CountsFor es j c := by
  simp [countsFor_snoc es ev (countedBy_lt es hc).1, hev]

section step
variable {opts : Options} {es : List (Event τ)} {L : Ledger (Multiset ℕ)}

theorem Origins.saveRef (h : Origins opts es L) (r : MemRef) :
    Origins opts (es ++ [.saveRef r]) (L.postpone {es.length}) := by
  have hlast : countedBy es es.length = none := by simp [countedBy]
  refine ⟨fun k => ?_, fun k => ?_, fun j x hx k => ?_⟩
  · rw [countedBy_quiet es rfl, isRef_snoc, Ledger.postpone, Multiset.mem_add, Multiset.mem_singleton,
      h.deferred]
    by_cases hk : k = es.length
    · simp [hk, hlast, Event.isRef]
    · simp [hk]
  · rw [Ledger.postpone_current, h.current]
    refine exists_congr fun c => ?_
    rw [countedBy_quiet es rfl]
    exact and_congr_right fun hc => (countsNow_quiet opts es rfl hc).symm
  · rw [h.closed j x hx]
    refine exists_congr fun c => ?_
    rw [countedBy_quiet es rfl]
    exact and_congr_right fun hc => (countsFor_quiet es rfl hc j).symm

theorem Origins.cleanCall (h : Origins opts es L) (hact : L.active = active es) (n : Int32) :
    Origins opts (es ++ [.cleanCall n]) (L.settle (some {es.length})) := by
  have hstep (k : ℕ) : countedBy (es ++ [.cleanCall n]) k = (countedBy es k).or
      (if k = es.length ∨ es[k]?.any Event.isRef = true then some es.length else none) := by
    simp [countedBy_snoc, Event.isClean]
  refine ⟨fun k => ?_, fun k => ?_, fun j x hx k => ?_⟩
  · rw [hstep, isRef_snoc, Ledger.settle]
    cases countedBy es k <;> simp +contextual [Event.isRef]
  · rw [hstep, Ledger.settle, hact]
    cases hc : countedBy es k with
    | some c =>
      -- already counted: it is neither this clean call nor one of those it drains
      have hne : k ≠ es.length := by
        rintro rfl
        simp [countedBy] at hc
      have hcur : k ∈ L.current ↔ CountsNow opts es c := by simp [h.current, hc]
      have hdef : k ∉ L.deferred := by simp [h.deferred, hc]
      have hnow : CountsNow opts (es ++ [.cleanCall n]) c ↔ CountsNow opts es c :=
        countsNow_quiet opts es rfl hc
      cases active es <;> simp [hcur, hdef, hne, hnow]
    | none =>
      have hcur : k ∉ L.current := by simp [h.current, hc]
      have hdef : k ∈ L.deferred ↔ es[k]?.any Event.isRef = true := by simp [h.deferred, hc]
      have hlast : CountsNow opts (es ++ [.cleanCall n]) es.length ↔ active es = true := by
        simp [CountsNow, nextCallback_last]
      cases ha : active es <;> simp [hcur, hdef, hlast, ha]
  · rw [h.closed j x hx, hstep]
    cases hc : countedBy es k with
    | some c =>
      have hfor : CountsFor (es ++ [.cleanCall n]) j c ↔ CountsFor es j c := countsFor_quiet es rfl hc j
      simp [hfor]
    | none =>
      have hlast : ¬ CountsFor (es ++ [.cleanCall n]) j es.length := by
        simp [CountsFor, nextCallback_last]
      split_ifs <;> simp [hlast]

private theorem Origins.deferred_callback (h : Origins opts es L) {ev : Event τ} (hev : ev.isCallback = true)
    (k : ℕ) :
    k ∈ L.deferred ↔ (es ++ [ev])[k]?.any Event.isRef = true ∧ countedBy (es ++ [ev]) k = none := by
  have hclean : ev.isClean = false := by
    cases ev <;> simp_all [Event.isCallback, Event.isStart, Event.isEnd, Event.isClean]
  have href : ev.isRef = false := by
    cases ev <;> simp_all [Event.isCallback, Event.isStart, Event.isEnd, Event.isRef]
  rw [countedBy_quiet es hclean, isRef_snoc, href, h.deferred]
  simp

private theorem countsNow_callback {ev : Event τ} (hev : ev.isCallback = true) {k c : ℕ}
    (hc : countedBy es k = some c) :
    CountsNow opts (es ++ [ev]) c ↔ CountsNow opts es c ∧ opts.merged = true := by
  simp [countsNow_snoc opts es ev (countedBy_lt es hc).1, hev]

theorem Origins.roiInit (h : Origins opts es L) (cxt : WrapCxt) (now : τ) :
    Origins opts (es ++ [.roiInit cxt now]) (L.turn (if opts.merged then .resume else .opening)) := by
  refine ⟨fun k => ?_, fun k => ?_, fun j x hx k => ?_⟩
  · rw [Ledger.turn_deferred]
    exact h.deferred_callback rfl k
  · have hcur (c : ℕ) : countedBy (es ++ [.roiInit cxt now]) k = some c ∧
        CountsNow opts (es ++ [.roiInit cxt now]) c ↔
          countedBy es k = some c ∧ CountsNow opts es c ∧ opts.merged = true := by
      rw [countedBy_quiet es rfl]
      exact and_congr_right fun hc => countsNow_callback rfl hc
    cases hm : opts.merged <;> simp [Ledger.turn, hcur, hm, h.current]
  · have hx : L.closed[j]? = some x := by cases hm : opts.merged <;> simpa [hm, Ledger.turn] using hx
    rw [h.closed j x hx]
    refine exists_congr fun c => ?_
    rw [countedBy_quiet es rfl]
    exact and_congr_right fun hc => (countsFor_quiet es rfl hc j).symm

theorem Origins.roiEnd (h : Origins opts es L)
    (hlen : L.closed.length = if opts.merged then 0 else es.countP Event.isEnd) (cxt : WrapCxt)
    (now : τ) :
    Origins opts (es ++ [.roiEnd cxt now]) (L.turn (if opts.merged then .pause else .closing)) := by
  refine ⟨fun k => ?_, fun k => ?_, fun j x hx k => ?_⟩
  · rw [Ledger.turn_deferred]
    exact h.deferred_callback rfl k
  · have hcur (c : ℕ) : countedBy (es ++ [.roiEnd cxt now]) k = some c ∧
        CountsNow opts (es ++ [.roiEnd cxt now]) c ↔
          countedBy es k = some c ∧ CountsNow opts es c ∧ opts.merged = true := by
      rw [countedBy_quiet es rfl]
      exact and_congr_right fun hc => countsNow_callback rfl hc
    cases hm : opts.merged <;> simp [Ledger.turn, hcur, hm, h.current]
  · cases hm : opts.merged with
    | true =>
      have hnil : L.closed = [] := List.eq_nil_of_length_eq_zero (by simpa [hm] using hlen)
      simp [hm, Ledger.turn, hnil] at hx
    | false =>
      simp only [hm, Bool.false_eq_true, if_false, Ledger.turn] at hx hlen
      have hquiet (i : ℕ) : countedBy (es ++ [.roiEnd cxt now]) i = countedBy es i :=
        countedBy_quiet es rfl i
      simp only [hquiet]
      rcases getElem?_snoc_eq_some.mp hx with hx | ⟨rfl, rfl⟩
      · have hj := (List.getElem?_eq_some_iff.mp hx).1
        rw [h.closed j x hx]
        refine exists_congr fun c => and_congr_right fun hc => ?_
        rw [countsFor_snoc es _ (countedBy_lt es hc).1, iff_self_or]
        rintro ⟨-, hcount, hnone, -⟩
        have := countP_isEnd_of_none es hc hnone
        omega
      · -- the current point is saved with all that counts towards it
        rw [h.current]
        refine exists_congr fun c => and_congr_right fun hc => ?_
        rw [countsFor_snoc es _ (countedBy_lt es hc).1, hlen]
        constructor
        · rintro ⟨ha, hnone⟩
          have hnone : nextCallback es c = none := by simpa [hm] using hnone
          exact .inr ⟨ha, countP_isEnd_of_none es hc hnone, hnone, rfl⟩
        · rintro (⟨-, hcount, hend⟩ | ⟨ha, -, hnone, -⟩)
          · have := countP_isEnd_of_end es hc hend
            omega
          · exact ⟨ha, .inr hnone⟩

end step

private theorem run_tags :
    (Ledger.run (tags opts es)).active = active es ∧
      (Ledger.run (tags opts es)).closed.length = if opts.merged then 0 else es.countP Event.isEnd := by
  have hmap := Ledger.map_run (weigh es) (tags opts es)
  rw [← entries_eq_tags] at hmap
  have hlen := run_entries_closed opts es
  rw [← hmap, Ledger.map, List.length_map] at hlen
  refine ⟨?_, hlen⟩
  rw [← run_entries_active opts es, ← hmap]
  rfl

private theorem origins_run : Origins opts es (Ledger.run (tags opts es)) := by
  induction es using List.reverseRecOn with
  | nil =>
    exact ⟨by simp [tags, Ledger.blank], by simp [tags, Ledger.blank, countedBy], by simp [tags, Ledger.blank]⟩
  | append_singleton es ev ih =>
    obtain ⟨hact, hlen⟩ := run_tags opts es
    rw [tags_snoc, Ledger.run_snoc]
    cases ev with
    | roiInit cxt now => rw [tagOf, Ledger.step_turning]; exact ih.roiInit cxt now
    | roiEnd cxt now => rw [tagOf, Ledger.step_turning]; exact ih.roiEnd hlen cxt now
    | saveRef r => rw [tagOf, Ledger.step_deferring]; exact ih.saveRef r
    | cleanCall n => rw [tagOf, Ledger.step_posting]; exact ih.cleanCall hact n

/-- Point j counts exactly the events whose clean call falls into region j, unless a new
region begins before that one has ended. -/
theorem mem_origin (j k : ℕ) :
    k ∈ origin opts es j ↔ ∃ c, countedBy es k = some c ∧ roiAt opts es c = some j ∧
      (opts.merged = true ∨ ∀ ev, nextCallback es c = some ev → ev.isEnd = true) := by
  have h := origins_run opts es
  have hlen := (run_tags opts es).2
  rw [origin]
  generalize Ledger.run (tags opts es) = L at *
  rcases lt_trichotomy j L.closed.length with hj | rfl | hj
  · have hm : opts.merged = false := by
      rw [Bool.eq_false_iff]
      intro hm
      simp [hlen, hm] at hj
    rw [h.closed j _ (Ledger.book_of_lt L hj)]
    refine exists_congr fun c => and_congr_right fun hc => ?_
    simp only [hm, Bool.false_eq_true, if_false] at hlen
    simp only [CountsFor, roiAt, hm, Bool.false_eq_true, if_false, false_or]
    cases hn : nextCallback es c with
    | none =>
      have := countP_isEnd_of_none es hc hn
      simp
      omega
    | some ev => simp [and_assoc]
  · rw [Ledger.book_current, h.current]
    refine exists_congr fun c => and_congr_right fun hc => ?_
    cases hm : opts.merged with
    | true => simp [CountsNow, roiAt, hm, hlen]
    | false =>
      simp only [hm, Bool.false_eq_true, if_false] at hlen
      simp only [CountsNow, roiAt, hm, Bool.false_eq_true, if_false, false_or, hlen]
      cases hn : nextCallback es c with
      | none => simp [countP_isEnd_of_none es hc hn]
      | some ev =>
        simp only [reduceCtorEq, and_false, Option.some.injEq, forall_eq', false_iff]
        rintro ⟨hat, hend⟩
        simp only [Option.ite_none_right_eq_some, Option.some.injEq] at hat
        have hlt := countP_isEnd_of_end es hc (by simp [hn, hend])
        omega
  · have hout : L.book j = 0 := by
      have hlast : (L.closed ++ [L.current]).length ≤ j := by simp; omega
      simp [Ledger.book, List.getElem?_eq_none hlast]
    simp only [hout, Multiset.notMem_zero, false_iff]
    rintro ⟨c, hc, hat, -⟩
    have hle := countP_isEnd_split es hc
    simp only [roiAt, Option.ite_none_right_eq_some, Option.some.injEq] at hat
    split_ifs at hat hlen <;> omega

end tags
end Roofline.Correctness
