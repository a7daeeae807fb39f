import Roofline.Correctness.Accounting
import Roofline.Client.Instrumentation

/-! Runs of executed blocks as ledgers. The head of a block posts what the clean call
counts at once and settles what the block before it has deferred. -/
namespace Roofline.Correctness
open Client Library
variable {τ ι : Type}

/-- The change of window that the callback of a block makes. -/
def windowOf (opts : Options) (x : Execution τ ι) : Window :=
  match x.callback.map Subtype.val with
  | some (.roiInit _ _) => if opts.merged then .resume else .opening
  | some (.roiEnd _ _) => if opts.merged then .pause else .closing
  | _ => .stay

def blockEntry {M : Type} (opts : Options) (order : WrapOrder) (x : Execution τ ι) (post defer : M) :
    Entry M :=
  match order with
  | .afterCleanCall => ⟨.stay, some post, windowOf opts x, defer⟩
  | .beforeCleanCall => ⟨windowOf opts x, some post, .stay, defer⟩

/-- The ledger of a run, with an amount for the head and one for the rest of each block. -/
def blockLedger {M : Type} (opts : Options) (order : WrapOrder) (post defer : ℕ → Execution τ ι → M)
    (xs : List (Execution τ ι)) : List (Entry M) :=
  xs.zipIdx.map fun p => blockEntry opts order p.1 (post p.2 p.1) (defer p.2 p.1)

def callbacksOf (xs : List (Execution τ ι)) : List (Event τ) := xs.flatMap (·.callbacks)

def regionNow (opts : Options) (es : List (Event τ)) : Option ℕ :=
  if active es then some (if opts.merged then 0 else es.countP Event.isEnd) else none

/-- The region that the clean call of block k falls into. -/
def blockRegion (opts : Options) (order : WrapOrder) (xs : List (Execution τ ι)) (k : ℕ) : Option ℕ :=
  regionNow opts (callbacksOf (xs.take (match order with
    | .afterCleanCall => k
    | .beforeCleanCall => k + 1)))

section run
variable {M : Type} [AddCommMonoid M] (opts : Options) (order : WrapOrder)
  (post defer : ℕ → Execution τ ι → M) (xs : List (Execution τ ι))

omit [AddCommMonoid M] in
@[simp] theorem blockLedger_snoc (x : Execution τ ι) :
    blockLedger opts order post defer (xs ++ [x]) = blockLedger opts order post defer xs ++
      [blockEntry opts order x (post xs.length x) (defer xs.length x)] := by
  simp [blockLedger, List.zipIdx_append]

omit [AddCommMonoid M] in
@[simp] theorem blockLedger_length : (blockLedger opts order post defer xs).length = xs.length := by
  simp [blockLedger]

omit [AddCommMonoid M] in
theorem blockLedger_getElem? (k : ℕ) :
    (blockLedger opts order post defer xs)[k]? =
      xs[k]?.map fun x => blockEntry opts order x (post k x) (defer k x) := by
  simp [blockLedger, List.getElem?_zipIdx, Option.map_map, Function.comp_def]

omit [AddCommMonoid M] in
private theorem blockLedger_take (k : ℕ) :
    (blockLedger opts order post defer xs).take k = blockLedger opts order post defer (xs.take k) := by
  apply List.ext_getElem?
  intro i
  rw [List.getElem?_take, blockLedger_getElem?, blockLedger_getElem?, List.getElem?_take]
  split_ifs <;> rfl

@[simp] theorem callbacksOf_snoc (x : Execution τ ι) :
    callbacksOf (xs ++ [x]) = callbacksOf xs ++ x.callbacks := by
  simp [callbacksOf]

/-- The windows of the ledger are those of the callbacks. -/
theorem turn_windowOf (L : Ledger M) (x : Execution τ ι) (es : List (Event τ))
    (ha : L.active = active es)
    (hc : L.closed.length = if opts.merged then 0 else es.countP Event.isEnd) :
    (L.turn (windowOf opts x)).active = active (es ++ x.callbacks) ∧
      (L.turn (windowOf opts x)).closed.length =
        if opts.merged then 0 else (es ++ x.callbacks).countP Event.isEnd := by
  rcases hx : x.callback with _ | ⟨ev, hev⟩
  · simp [windowOf, Execution.callbacks, hx, ha, hc]
  · cases ev with
    | roiInit cxt now =>
      cases hm : opts.merged <;>
        simp [windowOf, Execution.callbacks, hx, hc, hm, Ledger.turn, Event.isStart, Event.isEnd]
    | roiEnd cxt now =>
      cases hm : opts.merged <;>
        simp [windowOf, Execution.callbacks, hx, hc, hm, Ledger.turn, Event.isStart, Event.isEnd]
    | saveRef r => cases hev
    | cleanCall n => cases hev

theorem run_blockLedger :
    (Ledger.run (blockLedger opts order post defer xs)).active = active (callbacksOf xs) ∧
      (Ledger.run (blockLedger opts order post defer xs)).closed.length =
        if opts.merged then 0 else (callbacksOf xs).countP Event.isEnd := by
  induction xs using List.reverseRecOn with
  | nil => simp [blockLedger, callbacksOf, Ledger.blank, active]
  | append_singleton xs x ih =>
    rw [blockLedger_snoc, Ledger.run_snoc, callbacksOf_snoc]
    generalize Ledger.run (blockLedger opts order post defer xs) = L at *
    cases order with
    | afterCleanCall =>
      have hturn :=
        turn_windowOf opts (L.settle (some (post xs.length x))) x (callbacksOf xs) (by simp [ih.1])
        (by simp [ih.2])
      simpa [Ledger.step, blockEntry] using hturn
    | beforeCleanCall =>
      have hturn := turn_windowOf opts L x (callbacksOf xs) ih.1 ih.2
      simpa [Ledger.step, blockEntry] using hturn

/-- The clean call of a block posts to the region it falls into. -/
theorem owner_blockLedger {k : ℕ} (hk : k < xs.length) :
    Ledger.owner (blockLedger opts order post defer xs) k = blockRegion opts order xs k := by
  have hget := List.getElem?_eq_getElem hk
  rw [Ledger.owner, blockLedger_getElem?, hget, Option.map_some, Option.bind_some, blockLedger_take]
  obtain ⟨ha, hc⟩ := run_blockLedger opts order post defer (xs.take k)
  cases order with
  | afterCleanCall =>
    rw [blockEntry, Ledger.turn_stay, Ledger.holder, ha, hc]
    rfl
  | beforeCleanCall =>
    obtain ⟨ha', hc'⟩ := turn_windowOf opts _ xs[k] _ ha hc
    rw [blockEntry, Ledger.holder, ha', hc', blockRegion, regionNow, List.take_add_one, hget,
      Option.toList_some, callbacksOf_snoc]

omit [AddCommMonoid M] in
/-- What a block defers is settled by the next block. -/
theorem nextPost_blockLedger {k : ℕ} (hk : k < xs.length) :
    Ledger.nextPost (blockLedger opts order post defer xs) k =
      if k + 1 < xs.length then some (k + 1) else none := by
  have hpost : ∀ e ∈ blockLedger opts order post defer xs, e.post.isSome = true := by
    intro e he
    obtain ⟨p, _, rfl⟩ := List.mem_map.mp he
    cases order <;> rfl
  rw [Ledger.nextPost]
  split_ifs with hlt
  · rw [List.drop_eq_getElem_cons (by simpa using hlt), List.findIdx?_cons,
      if_pos (hpost _ (List.getElem_mem _))]
    simp
  · rw [List.drop_eq_nil_of_le (by simp; omega)]
    rfl

private theorem alternating_callbacks {inside : Bool} {es : List (Event τ)} {x : Execution τ ι}
    (h : Alternating inside (es ++ x.callbacks)) :
    ∃ b, es.foldlM alternation inside = some b ∧ ∀ ev ∈ x.callbacks, (alternation b ev).isSome = true := by
  rcases hx : x.callback with _ | ⟨ev, hev⟩
  · obtain ⟨b, hb⟩ := Option.isSome_iff_exists.mp h
    refine ⟨b, by simpa [Execution.callbacks, hx] using hb, by simp [Execution.callbacks, hx]⟩
  · simp only [Execution.callbacks, hx, Option.map_some, Option.toList_some] at h ⊢
    obtain ⟨b, hb, hsome⟩ := (alternating_snoc inside es ev).mp h
    exact ⟨b, hb, by simpa using hsome⟩

omit [AddCommMonoid M] in
private theorem separate_windowOf {inside : Bool} {L : Ledger M} {x : Execution τ ι} {es : List (Event τ)}
    (hm : opts.merged = false) (h : Alternating inside (es ++ x.callbacks))
    (ha : L.active = active es) :
    L.Separate (windowOf opts x) := by
  obtain ⟨b, hb, hev⟩ := alternating_callbacks h
  have hact := (alternation_active es hb).1
  rcases hx : x.callback with _ | ⟨ev, hcb⟩
  · simp [windowOf, hx, Ledger.Separate]
  · simp only [Execution.callbacks, hx, Option.map_some, Option.toList_some, List.mem_singleton,
      forall_eq] at hev
    cases ev <;> cases b <;> simp_all [windowOf, Ledger.Separate, alternation]

omit [AddCommMonoid M] in
private theorem accepts_windowOf {L : Ledger M} {x : Execution τ ι} {es : List (Event τ)}
    (hm : opts.merged = false) (h : Alternating false (es ++ x.callbacks)) (ha : L.active = active es) :
    L.Accepts (windowOf opts x) := by
  obtain ⟨b, hb, hev⟩ := alternating_callbacks h
  have hact := (alternation_active es hb).2 rfl
  rcases hx : x.callback with _ | ⟨ev, hcb⟩
  · simp [windowOf, hx, Ledger.Accepts]
  · simp only [Execution.callbacks, hx, Option.map_some, Option.toList_some, List.mem_singleton,
      forall_eq] at hev
    cases ev <;> cases b <;> simp_all [windowOf, Ledger.Accepts, alternation]

/-- What holds of every block of an alternating run holds along its ledger. -/
theorem along_blockLedger {P : Ledger M → Entry M → Prop} {inside : Bool}
    (h : Alternating inside (callbacksOf xs))
    (hstep : ∀ (xs : List (Execution τ ι)) (x : Execution τ ι),
      Alternating inside (callbacksOf xs ++ x.callbacks) → P (Ledger.run (blockLedger opts order post defer xs))
        (blockEntry opts order x (post xs.length x) (defer xs.length x))) :
    Ledger.Along P (blockLedger opts order post defer xs) := by
  induction xs using List.reverseRecOn with
  | nil =>
    intro k e he
    simp [blockLedger] at he
  | append_singleton xs x ih =>
    rw [callbacksOf_snoc] at h
    obtain ⟨b, hb, -⟩ := alternating_callbacks h
    rw [blockLedger_snoc, Ledger.along_snoc]
    exact ⟨ih (by simp [Alternating, hb]), hstep xs x h⟩

/-- Where callbacks alternate, no new point discards an amount. -/
theorem keeps_blockLedger {inside : Bool} (h : Alternating inside (callbacksOf xs)) :
    Ledger.Along Ledger.Keeps (blockLedger opts order post defer xs) := by
  cases hm : opts.merged with
  | true =>
    intro k e he
    rw [blockLedger_getElem?] at he
    obtain ⟨x, _, rfl⟩ := Option.map_eq_some_iff.mp he
    have hw : windowOf opts x ≠ .opening := by
      rcases hx : x.callback with _ | ⟨ev, hcb⟩
      · simp [windowOf, hx]
      · cases ev <;> simp [windowOf, hx, hm]
    cases order <;> simp [Ledger.Keeps, blockEntry, hw]
  | false =>
    refine (Ledger.keeps_of_separates _ (along_blockLedger opts order post defer xs h ?_)).2
    intro xs x h
    have hw := separate_windowOf opts hm h (run_blockLedger opts order post defer xs).1
    cases order with
    | afterCleanCall => exact ⟨trivial, hw⟩
    | beforeCleanCall => exact ⟨hw, trivial⟩

theorem alternates_blockLedger (hm : opts.merged = false) (h : Alternating false (callbacksOf xs)) :
    Ledger.Along Ledger.Alternates (blockLedger opts order post defer xs) := by
  refine along_blockLedger opts order post defer xs h ?_
  intro xs x h
  have hw := accepts_windowOf opts hm h (run_blockLedger opts order post defer xs).1
  cases order with
  | afterCleanCall => exact ⟨trivial, hw⟩
  | beforeCleanCall => exact ⟨hw, trivial⟩

/-- An account in terms of the blocks: the head of a block belongs to the region of its own
clean call, the rest of it to the region of the next block's. -/
theorem book_blockLedger {inside : Bool} (h : Alternating inside (callbacksOf xs)) (j : ℕ) :
    (Ledger.run (blockLedger opts order post defer xs)).book j =
      ∑ k ∈ Finset.range xs.length,
        ((if blockRegion opts order xs k = some j then (xs[k]?.map (post k)).getD 0 else 0) +
          if k + 1 < xs.length ∧ blockRegion opts order xs (k + 1) = some j then (xs[k]?.map (defer k)).getD 0
          else 0) := by
  rw [(Ledger.run_accounts _ (keeps_blockLedger opts order post defer xs h)).1, Ledger.account,
    blockLedger_length]
  refine Finset.sum_congr rfl fun k hk => ?_
  have hk := Finset.mem_range.mp hk
  have hpost :
      Ledger.postAt (blockLedger opts order post defer xs) k = (xs[k]?.map (post k)).getD 0 := by
    rw [Ledger.postAt, blockLedger_getElem?]
    cases order <;> simp [List.getElem?_eq_getElem hk, blockEntry]
  have hdefer :
      Ledger.deferAt (blockLedger opts order post defer xs) k = (xs[k]?.map (defer k)).getD 0 := by
    rw [Ledger.deferAt, blockLedger_getElem?]
    cases order <;> simp [List.getElem?_eq_getElem hk, blockEntry]
  rw [owner_blockLedger opts order post defer xs hk, nextPost_blockLedger opts order post defer xs hk,
    hpost, hdefer]
  congr 1
  by_cases hlt : k + 1 < xs.length
  · simp [hlt, owner_blockLedger opts order post defer xs hlt]
  · simp [hlt]

end run

section events
variable (opts : Options) (build : Build ι) (order : WrapOrder)

/-- What the clean call at the head of a block counts of the block itself. -/
def headTally (x : Execution τ ι) : Tally :=
  fpTally (x.fpCount build) + ((x.firstRefs opts).map refTally).sum

/-- What the block leaves in the buffer. -/
def restTally (x : Execution τ ι) : Tally := ((x.restRefs opts).map refTally).sum

private theorem foldl_saveRef (L : Ledger Tally) (refs : List MemRef) :
    (entries opts (refs.map (.saveRef : MemRef → Event τ))).foldl Ledger.step L =
      L.postpone (refs.map refTally).sum := by
  induction refs generalizing L with
  | nil => simp [entries]
  | cons r refs ih =>
    simp only [entries, List.map_cons, List.foldl_cons, entryOf, Ledger.step_deferring,
      List.sum_cons] at ih ⊢
    rw [ih]
    simp [Ledger.postpone, add_assoc]

private theorem foldl_callbacks (L : Ledger Tally) (x : Execution τ ι) :
    (entries opts x.callbacks).foldl Ledger.step L = L.turn (windowOf opts x) := by
  rcases hx : x.callback with _ | ⟨ev, hev⟩
  · simp [entries, Execution.callbacks, windowOf, hx]
  · cases ev with
    | roiInit cxt now => simp [entries, Execution.callbacks, windowOf, hx, entryOf, Ledger.step_turning]
    | roiEnd cxt now => simp [entries, Execution.callbacks, windowOf, hx, entryOf, Ledger.step_turning]
    | saveRef r => cases hev
    | cleanCall n => cases hev

/-- The events of a block make one step of the ledger. -/
theorem foldl_events {x : Execution τ ι} (h : x.HeadCalled opts build) (L : Ledger Tally) :
    (entries opts (x.events opts build order)).foldl Ledger.step L =
      L.step (blockEntry opts order x (headTally opts build x) (restTally opts x)) := by
  have happ (es fs : List (Event τ)) :
      entries opts (es ++ fs) = entries opts es ++ entries opts fs := by
    simp [entries]
  have hclean : entries opts [(.cleanCall (x.fpCount build) : Event τ)] =
      [.posting (fpTally (x.fpCount build))] := rfl
  have hsettle (L : Ledger Tally) (f r : Tally) :
      (L.postpone r).settle (some f) = L.settle (some (f + r)) := by
    simp only [Ledger.postpone, Ledger.settle]
    congr 2
    abel
  rw [Execution.events_eq h]
  cases order with
  | afterCleanCall =>
    have hcall : entries opts (.cleanCall (x.fpCount build) :: x.callbacks) =
        .posting (fpTally (x.fpCount build)) :: entries opts x.callbacks := rfl
    rw [happ, happ, hcall]
    simp only [List.foldl_append, foldl_saveRef, foldl_callbacks, List.foldl_cons, Ledger.step_posting,
      hsettle]
    rfl
  | beforeCleanCall =>
    rw [happ, happ, happ, hclean]
    simp only [List.foldl_append, foldl_saveRef, foldl_callbacks, List.foldl_cons, List.foldl_nil,
      Ledger.step_posting]
    have hturn (L : Ledger Tally) (w : Window) (m : Tally) :
        (L.postpone m).turn w = (L.turn w).postpone m := by
      cases w <;> rfl
    rw [hturn, hsettle]
    rfl

/-- A run of blocks is the run of its events. -/
theorem run_blockEvents (xs : List (Execution τ ι)) (h : ∀ x ∈ xs, x.HeadCalled opts build) :
    Ledger.run (entries opts (blockEvents opts build order xs)) =
      Ledger.run (blockLedger opts order (fun _ => headTally opts build) (fun _ => restTally opts) xs) := by
  induction xs using List.reverseRecOn with
  | nil => rfl
  | append_singleton xs x ih =>
    have hxs : ∀ y ∈ xs, y.HeadCalled opts build := fun y hy => h y (by simp [hy])
    have hflat : blockEvents opts build order (xs ++ [x]) =
        blockEvents opts build order xs ++ x.events opts build order := by
      simp [blockEvents]
    rw [hflat, entries, List.map_append, Ledger.run_append, blockLedger_snoc, Ledger.run_snoc, ← ih hxs]
    exact foldl_events opts build order (h x (by simp)) _

end events
end Roofline.Correctness
