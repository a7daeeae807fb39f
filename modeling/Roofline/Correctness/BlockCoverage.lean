import Roofline.Library.Provenance
import Roofline.Correctness.BlockAccounting
import Roofline.Correctness.BytePartition
import Mathlib.Algebra.BigOperators.Group.Multiset.Basic
import Mathlib.Data.Multiset.OrderedMonoid

/-! Whether flops and bytes of a point cover the same blocks. The head of a block is
counted on entry and its other references with the next block, so a block at which the
region changes is counted in part. -/
namespace Roofline.Correctness
open Client Library
variable {τ ι : Type}

/-- What one execution of a block contributes: its operations, and its references. -/
inductive Item where
  | flops
  | first (n : ℕ)
  | rest (n : ℕ)
  deriving DecidableEq, Repr

/-- The contributions that the clean call of block k counts of the block itself. -/
def headItems (opts : Options) (build : Build ι) (k : ℕ) (x : Execution τ ι) : Multiset (ℕ × Item) :=
  (if x.fpCount build = 0 then 0 else {(k, Item.flops)}) +
    (Multiset.range (x.firstRefs opts).length).map fun n => (k, Item.first n)

/-- The contributions that block k leaves in the buffer. -/
def restItems (opts : Options) (k : ℕ) (x : Execution τ ι) : Multiset (ℕ × Item) :=
  (Multiset.range (x.restRefs opts).length).map fun n => (k, Item.rest n)

/-- The contributions that point j is made of. -/
def blockOrigin (opts : Options) (build : Build ι) (order : WrapOrder) (xs : List (Execution τ ι))
    (j : ℕ) : Multiset (ℕ × Item) :=
  (Ledger.run (blockLedger opts order (headItems opts build) (restItems opts) xs)).book j

def itemTally (opts : Options) (build : Build ι) (x : Execution τ ι) : Item → Tally
  | .flops => fpTally (x.fpCount build)
  | .first n => ((x.firstRefs opts)[n]?.map refTally).getD 0
  | .rest n => ((x.restRefs opts)[n]?.map refTally).getD 0

/-- The total amount of a collection of contributions. -/
def weighItems (opts : Options) (build : Build ι) (xs : List (Execution τ ι)) :
    Multiset (ℕ × Item) →+ Tally :=
  Multiset.sumAddMonoidHom.comp
    (Multiset.mapAddMonoidHom fun t => (xs[t.1]?.map fun x => itemTally opts build x t.2).getD 0)

section items
variable (opts : Options) (build : Build ι) (order : WrapOrder) (xs : List (Execution τ ι))

private theorem sum_range_getElem? (f : MemRef → Tally) (refs : List MemRef) :
    ((List.range refs.length).map fun n => (refs[n]?.map f).getD 0).sum = (refs.map f).sum := by
  congr 1
  apply List.ext_getElem
  · simp
  · intro n h1 h2
    have hn : n < refs.length := by simpa using h1
    simp [List.getElem?_eq_getElem hn]

private theorem weigh_headItems {k : ℕ} {x : Execution τ ι} (hx : xs[k]? = some x) :
    weighItems opts build xs (headItems opts build k x) = headTally opts build x := by
  have hfirst : weighItems opts build xs
      ((Multiset.range (x.firstRefs opts).length).map fun n => (k, Item.first n)) =
        ((x.firstRefs opts).map refTally).sum := by
    rw [← sum_range_getElem?]
    simp [weighItems, hx, itemTally, Multiset.range, Function.comp_def]
  have hflops : weighItems opts build xs (if x.fpCount build = 0 then 0 else {(k, Item.flops)}) =
      fpTally (x.fpCount build) := by
    split_ifs with hz
    · rw [map_zero, hz]
      rfl
    · simp [weighItems, hx, itemTally]
  rw [headItems, map_add, hfirst, hflops, headTally]

private theorem weigh_restItems {k : ℕ} {x : Execution τ ι} (hx : xs[k]? = some x) :
    weighItems opts build xs (restItems opts k x) = restTally opts x := by
  rw [restTally, ← sum_range_getElem?]
  simp [restItems, weighItems, hx, itemTally, Multiset.range, Function.comp_def]

/-- The counters of point j are the totals of the contributions that it is made of. -/
theorem finalPoints_blockOrigin [Zero τ] (hcalled : ∀ x ∈ xs, x.HeadCalled opts build) {j : ℕ}
    {p : Point τ} (hp : (finalPoints opts (blockEvents opts build order xs))[j]? = some p) :
    Holds p (weighItems opts build xs (blockOrigin opts build order xs j)) := by
  have hmap : (blockLedger opts order (headItems opts build) (restItems opts) xs).map
      (Entry.map (weighItems opts build xs)) =
        blockLedger opts order (fun _ => headTally opts build) (fun _ => restTally opts) xs := by
    apply List.ext_getElem?
    intro k
    rw [List.getElem?_map, blockLedger_getElem?, blockLedger_getElem?]
    cases hx : xs[k]? with
    | none => rfl
    | some x =>
      cases order <;>
        simp [Entry.map, blockEntry, weigh_headItems opts build xs hx, weigh_restItems opts build xs hx]
  have hold := finalPoints_hold opts _ hp
  rw [run_blockEvents opts build order xs hcalled, ← hmap, ← Ledger.map_run, Ledger.map_book] at hold
  exact hold

private theorem headItems_of_mem {t : ℕ × Item} {k : ℕ} {x : Execution τ ι} (h : t ∈ headItems opts build k x) :
    t.1 = k ∧ ∀ n, t.2 ≠ .rest n := by
  rw [headItems, Multiset.mem_add] at h
  rcases h with h | h
  · split_ifs at h
    · cases h
    · obtain rfl := Multiset.mem_singleton.mp h
      exact ⟨rfl, by simp⟩
  · obtain ⟨n, _, rfl⟩ := Multiset.mem_map.mp h
    exact ⟨rfl, by simp⟩

private theorem restItems_of_mem {t : ℕ × Item} {k : ℕ} {x : Execution τ ι} (h : t ∈ restItems opts k x) :
    t.1 = k ∧ ∃ n, t.2 = .rest n := by
  obtain ⟨n, _, rfl⟩ := Multiset.mem_map.mp h
  exact ⟨rfl, n, rfl⟩

variable {opts build order xs} {inside : Bool} {k : ℕ} {x : Execution τ ι} {t : ℕ × Item}

private theorem mem_blockOrigin (halt : Alternating inside (callbacksOf xs)) (j : ℕ) :
    t ∈ blockOrigin opts build order xs j ↔ ∃ k x, xs[k]? = some x ∧
      ((blockRegion opts order xs k = some j ∧ t ∈ headItems opts build k x) ∨
        (k + 1 < xs.length ∧ blockRegion opts order xs (k + 1) = some j) ∧ t ∈ restItems opts k x) := by
  rw [blockOrigin, book_blockLedger opts order _ _ xs halt, Multiset.mem_sum]
  constructor
  · rintro ⟨k, hk, ht⟩
    have hk := Finset.mem_range.mp hk
    have hget := List.getElem?_eq_getElem hk
    refine ⟨k, xs[k], hget, ?_⟩
    rw [hget, Multiset.mem_add] at ht
    refine ht.imp (fun ht => ?_) fun ht => ?_
    · split_ifs at ht with hr
      · exact ⟨hr, ht⟩
      · cases ht
    · split_ifs at ht with hr
      · exact ⟨hr, ht⟩
      · cases ht
  · rintro ⟨k, x, hx, ht⟩
    refine ⟨k, Finset.mem_range.mpr (List.getElem?_eq_some_iff.mp hx).1, ?_⟩
    rw [hx, Multiset.mem_add]
    refine ht.imp (fun ht => ?_) fun ht => ?_
    · rw [if_pos ht.1]
      exact ht.2
    · rw [if_pos ht.1]
      exact ht.2

/-- The head of a block is part of the point that its clean call falls into. -/
theorem headItems_blockOrigin (halt : Alternating inside (callbacksOf xs)) (hx : xs[k]? = some x)
    (ht : t ∈ headItems opts build k x) (j : ℕ) :
    t ∈ blockOrigin opts build order xs j ↔ blockRegion opts order xs k = some j := by
  obtain ⟨htk, hne⟩ := headItems_of_mem opts build ht
  rw [mem_blockOrigin halt]
  constructor
  · rintro ⟨k', x', hx', ⟨hr, ht'⟩ | ⟨-, ht'⟩⟩
    · obtain rfl : k' = k := (headItems_of_mem opts build ht').1.symm.trans htk
      exact hr
    · obtain ⟨-, n, hn⟩ := restItems_of_mem opts ht'
      exact absurd hn (hne n)
  · intro hr
    exact ⟨k, x, hx, .inl ⟨hr, ht⟩⟩

/-- The rest of a block is part of the point that the next clean call falls into. -/
theorem restItems_blockOrigin (halt : Alternating inside (callbacksOf xs)) (hx : xs[k]? = some x)
    (ht : t ∈ restItems opts k x) (j : ℕ) :
    t ∈ blockOrigin opts build order xs j ↔
      k + 1 < xs.length ∧ blockRegion opts order xs (k + 1) = some j := by
  obtain ⟨htk, n, hn⟩ := restItems_of_mem opts ht
  rw [mem_blockOrigin halt]
  constructor
  · rintro ⟨k', x', hx', ⟨-, ht'⟩ | ⟨hr, ht'⟩⟩
    · exact absurd hn ((headItems_of_mem opts build ht').2 n)
    · obtain rfl : k' = k := (restItems_of_mem opts ht').1.symm.trans htk
      exact hr
  · intro hr
    exact ⟨k, x, hx, .inr ⟨hr, ht⟩⟩

end items

/-- The written point that the clean call of block k counts towards, if any. -/
def savedRegion (opts : Options) (order : WrapOrder) (xs : List (Execution τ ι)) (k : ℕ) : Option ℕ :=
  if k < xs.length then
    (blockRegion opts order xs k).filter fun j => j < regionCount opts (callbacksOf xs)
  else none

/-- Every written point contains every executed block as a whole or not at all: all of its
operations and references, or none of them. -/
def BlocksWhole [Zero τ] (opts : Options) (build : Build ι) (order : WrapOrder)
    (xs : List (Execution τ ι)) : Prop :=
  ∀ j < (finalPoints opts (blockEvents opts build order xs)).length, ∀ k x, xs[k]? = some x →
    (∀ t ∈ headItems opts build k x + restItems opts k x, t ∈ blockOrigin opts build order xs j) ∨
      ∀ t ∈ headItems opts build k x + restItems opts k x, t ∉ blockOrigin opts build order xs j

section coverage
variable (opts : Options) (build : Build ι) (order : WrapOrder) (xs : List (Execution τ ι))

private theorem headItems_eq_zero (k : ℕ) (x : Execution τ ι) :
    headItems opts build k x = 0 ↔ x.fpCount build = 0 ∧ x.firstRefs opts = [] := by
  rw [headItems, add_eq_zero, Multiset.map_eq_zero]
  apply and_congr
  · split_ifs with hz <;> simp [hz]
  · rw [← Multiset.card_eq_zero, Multiset.card_range, List.length_eq_zero_iff]

private theorem restItems_eq_zero (k : ℕ) (x : Execution τ ι) : restItems opts k x = 0 ↔ x.restRefs opts = [] := by
  rw [restItems, Multiset.map_eq_zero, ← Multiset.card_eq_zero, Multiset.card_range,
    List.length_eq_zero_iff]

private theorem savedRegion_eq_some {k j : ℕ} :
    savedRegion opts order xs k = some j ↔
      (k < xs.length ∧ blockRegion opts order xs k = some j) ∧ j < regionCount opts (callbacksOf xs) := by
  rw [savedRegion]
  split_ifs with hk
  · simp [Option.filter_eq_some_iff, hk]
  · simp [hk]

private theorem headItems_written {inside : Bool} (halt : Alternating inside (callbacksOf xs)) {k j : ℕ}
    {x : Execution τ ι} (hx : xs[k]? = some x) (hj : j < regionCount opts (callbacksOf xs))
    {t : ℕ × Item} (ht : t ∈ headItems opts build k x) :
    t ∈ blockOrigin opts build order xs j ↔ savedRegion opts order xs k = some j := by
  have hk := (List.getElem?_eq_some_iff.mp hx).1
  rw [headItems_blockOrigin halt hx ht, savedRegion_eq_some]
  simp [hk, hj]

private theorem restItems_written {inside : Bool} (halt : Alternating inside (callbacksOf xs)) {k j : ℕ}
    {x : Execution τ ι} (hx : xs[k]? = some x) (hj : j < regionCount opts (callbacksOf xs))
    {t : ℕ × Item} (ht : t ∈ restItems opts k x) :
    t ∈ blockOrigin opts build order xs j ↔ savedRegion opts order xs (k + 1) = some j := by
  rw [restItems_blockOrigin halt hx ht, savedRegion_eq_some]
  simp [hj]

private theorem all_or_none {S : Multiset (ℕ × Item)} {P : ℕ × Item → Prop} {c : Prop} (h : ∀ t ∈ S, P t ↔ c) :
    (∀ t ∈ S, P t) ∨ ∀ t ∈ S, ¬ P t := by
  by_cases hc : c
  · left
    intro t ht
    exact (h t ht).mpr hc
  · right
    intro t ht hP
    exact hc ((h t ht).mp hP)

variable [Zero τ]

private theorem blockPoints_length (hcalled : ∀ x ∈ xs, x.HeadCalled opts build) :
    (finalPoints opts (blockEvents opts build order xs)).length =
      regionCount opts (callbacksOf xs) := by
  have hlen :=
    (run_blockLedger opts order (fun _ => headTally opts build) (fun _ => restTally opts) xs).2
  rw [← run_blockEvents opts build order xs hcalled, run_entries_closed] at hlen
  rw [finalPoints_length, regionCount, regionCount]
  split_ifs at hlen ⊢
  · rfl
  · exact hlen

/-- A block with a head and a rest is whole only if both fall into the same written region. -/
theorem savedRegion_eq_of_whole {inside : Bool} (hcalled : ∀ x ∈ xs, x.HeadCalled opts build)
    (halt : Alternating inside (callbacksOf xs)) (hwhole : BlocksWhole opts build order xs) {k : ℕ}
    {x : Execution τ ι} (hx : xs[k]? = some x) {h r : ℕ × Item} (hh : h ∈ headItems opts build k x)
    (hr : r ∈ restItems opts k x) : savedRegion opts order xs k = savedRegion opts order xs (k + 1) := by
  have hh' := Multiset.mem_add.mpr (.inl hh : h ∈ headItems opts build k x ∨ h ∈ restItems opts k x)
  have hr' := Multiset.mem_add.mpr (.inr hr : r ∈ headItems opts build k x ∨ r ∈ restItems opts k x)
  rw [BlocksWhole, blockPoints_length opts build order xs hcalled] at hwhole
  have hsame {j : ℕ} (hj : j < regionCount opts (callbacksOf xs)) :
      savedRegion opts order xs k = some j ↔ savedRegion opts order xs (k + 1) = some j := by
    rw [← headItems_written opts build order xs halt hx hj hh,
      ← restItems_written opts build order xs halt hx hj hr]
    rcases hwhole j hj k x hx with hall | hnone
    · exact iff_of_true (hall h hh') (hall r hr')
    · exact iff_of_false (hnone h hh') (hnone r hr')
  apply Option.ext
  intro j
  constructor
  · intro hj
    exact (hsame (savedRegion_eq_some opts order xs |>.mp hj).2).mp hj
  · intro hj
    exact (hsame (savedRegion_eq_some opts order xs |>.mp hj).2).mpr hj

/-- Flops and bytes cover the same blocks exactly if every block at which the written region
changes has nothing to count at its head or nothing behind it; what a point is made of is what its
counters add up to. -/
theorem blocksWhole_iff {inside : Bool} (hcalled : ∀ x ∈ xs, x.HeadCalled opts build)
    (halt : Alternating inside (callbacksOf xs)) :
    (BlocksWhole opts build order xs ↔ ∀ k x, xs[k]? = some x →
      savedRegion opts order xs k ≠ savedRegion opts order xs (k + 1) →
        x.restRefs opts = [] ∨ x.fpCount build = 0 ∧ x.firstRefs opts = []) ∧
    ∀ (j : ℕ) (p : Point τ), (finalPoints opts (blockEvents opts build order xs))[j]? = some p →
      Holds p (weighItems opts build xs (blockOrigin opts build order xs j)) := by
  refine ⟨⟨?_, ?_⟩, fun j p hp => finalPoints_blockOrigin opts build order xs hcalled hp⟩
  · intro hwhole k x hx hne
    rw [← headItems_eq_zero opts build k, ← restItems_eq_zero opts k]
    by_contra hnone
    obtain ⟨hr, hh⟩ := not_or.mp hnone
    obtain ⟨r, hr⟩ := Multiset.exists_mem_of_ne_zero hr
    obtain ⟨h, hh⟩ := Multiset.exists_mem_of_ne_zero hh
    exact hne (savedRegion_eq_of_whole opts build order xs hcalled halt hwhole hx hh hr)
  · intro hsides
    rw [BlocksWhole, blockPoints_length opts build order xs hcalled]
    intro j hj k x hx
    by_cases hregion : savedRegion opts order xs k = savedRegion opts order xs (k + 1)
    · apply all_or_none (c := savedRegion opts order xs k = some j)
      intro t ht
      rcases Multiset.mem_add.mp ht with ht | ht
      · exact headItems_written opts build order xs halt hx hj ht
      · rw [hregion]
        exact restItems_written opts build order xs halt hx hj ht
    -- one of the two parts is empty, and the other one is told by its own region
    · rcases hsides k x hx hregion with hnil | hnil
      · rw [(restItems_eq_zero opts k x).mpr hnil, add_zero]
        exact all_or_none fun t ht => headItems_written opts build order xs halt hx hj ht
      · rw [(headItems_eq_zero opts build k x).mpr hnil, zero_add]
        exact all_or_none fun t ht => restItems_written opts build order xs halt hx hj ht

end coverage

def entryBlock : Execution ℕ ℕ := ⟨loadBlock 3, some ⟨.roiInit ⟨"f", 1, "f.c"⟩ 0, rfl⟩⟩

/-- A call of the function and the block that it returns to. -/
def tracedCall : List (Execution ℕ ℕ) :=
  [entryBlock, ⟨loadBlock 5, some ⟨.roiEnd ⟨"f", 1, "f.c"⟩ 0, rfl⟩⟩]

def traceSeparate : Options := { traceF := "f", callsAsSeparateRoi := true }

def plainBuild : Build ℕ := ⟨false, UInt32.ofNat⟩

private theorem headCalled_tracedCall : ∀ x ∈ tracedCall, x.HeadCalled traceSeparate plainBuild := by
  simp [tracedCall, entryBlock, loadBlock, Execution.HeadCalled, traceSeparate, plainBuild]

/-- The point of this call holds 5 operations and 16 bytes. -/
theorem blocksWhole_iff_tracedCall :
    (BlocksWhole traceSeparate plainBuild .afterCleanCall tracedCall ↔
      ∀ k x, tracedCall[k]? = some x → savedRegion traceSeparate .afterCleanCall tracedCall k ≠
        savedRegion traceSeparate .afterCleanCall tracedCall (k + 1) →
          x.restRefs traceSeparate = [] ∨ x.fpCount plainBuild = 0 ∧ x.firstRefs traceSeparate = []) ∧
    ∃ p : Point ℕ, p.flops = 5 ∧ p.bytes = 16 ∧ Holds p (weighItems traceSeparate plainBuild tracedCall
      (blockOrigin traceSeparate plainBuild .afterCleanCall tracedCall 0)) := by
  have halt : Alternating false (callbacksOf tracedCall) := rfl
  obtain ⟨hiff, hholds⟩ :=
    blocksWhole_iff traceSeparate plainBuild .afterCleanCall tracedCall headCalled_tracedCall halt
  exact ⟨hiff, _, rfl, rfl, hholds 0 _ rfl⟩

/-- The point of the call has the second load of its body and none of its operations. -/
theorem tracedCall_not_whole :
    ¬ BlocksWhole traceSeparate plainBuild .afterCleanCall tracedCall ∧
      (finalPoints traceSeparate (blockEvents traceSeparate plainBuild .afterCleanCall tracedCall)).map
          (fun p => (p.flops, p.bytes)) = [(5, 16)] := by
  refine ⟨fun hwhole => ?_, rfl⟩
  have halt : Alternating false (callbacksOf tracedCall) := rfl
  have hx : tracedCall[0]? = some entryBlock := rfl
  have hflops : (0, Item.flops) ∈ headItems traceSeparate plainBuild 0 entryBlock := by decide
  have hload : (0, Item.rest 0) ∈ restItems traceSeparate 0 entryBlock := by decide
  have hin : (0, Item.rest 0) ∈ blockOrigin traceSeparate plainBuild .afterCleanCall tracedCall 0 :=
    (restItems_blockOrigin halt hx hload 0).mpr (by decide)
  have hout : (0, Item.flops) ∉ blockOrigin traceSeparate plainBuild .afterCleanCall tracedCall 0 :=
    (headItems_blockOrigin halt hx hflops 0).not.mpr (by decide)
  rcases hwhole 0 (by decide) 0 _ hx with hall | hnone
  · exact hout (hall _ (Multiset.mem_add.mpr (.inl hflops)))
  · exact hnone _ (Multiset.mem_add.mpr (.inr hload)) hin

end Roofline.Correctness
