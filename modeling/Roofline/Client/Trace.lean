import Roofline.Client.Callbacks
import Mathlib.Algebra.BigOperators.Group.Finset.Basic
import Mathlib.Order.Interval.Finset.Nat

/-! Vocabulary about event sequences. Nothing here looks at a state of the client. -/
namespace Roofline.Client
variable {τ : Type}

namespace Event

def isStart : Event τ → Bool
  | .roiInit _ _ => true
  | _ => false

def isEnd : Event τ → Bool
  | .roiEnd _ _ => true
  | _ => false

def isClean : Event τ → Bool
  | .cleanCall _ => true
  | _ => false

def isRef : Event τ → Bool
  | .saveRef _ => true
  | _ => false

def isCallback (ev : Event τ) : Bool := ev.isStart || ev.isEnd

def clock : Event τ → Option τ
  | .roiInit _ now => some now
  | .roiEnd _ now => some now
  | _ => none

def fpCount : Event τ → ℤ
  | .cleanCall n => n.toInt
  | _ => 0

def refSize : Event τ → ℕ
  | .saveRef r => r.size.toNat
  | _ => 0

def kindSize (t : UInt16) : Event τ → ℕ
  | .saveRef r => if r.type = t then r.size.toNat else 0
  | _ => 0

end Event

/-- A callback of a run: its position, its arguments and the clock it reads. -/
structure Callback (τ : Type) where
  pos : ℕ
  cxt : WrapCxt
  now : τ

def starts (es : List (Event τ)) : List (Callback τ) :=
  es.zipIdx.filterMap fun
    | (.roiInit cxt now, k) => some ⟨k, cxt, now⟩
    | _ => none

def ends (es : List (Event τ)) : List (Callback τ) :=
  es.zipIdx.filterMap fun
    | (.roiEnd cxt now, k) => some ⟨k, cxt, now⟩
    | _ => none

/-- One step of the check that callbacks alternate, given whether a region is begun. -/
def alternation (inside : Bool) : Event τ → Option Bool
  | .roiInit _ _ => if inside then none else some true
  | .roiEnd _ _ => if inside then some false else none
  | _ => some inside

/-- The callbacks alternate; the first one ends a region if one is already begun. -/
def Alternating (inside : Bool) (es : List (Event τ)) : Prop := (es.foldlM alternation inside).isSome

instance (inside : Bool) (es : List (Event τ)) : Decidable (Alternating inside es) := by
  unfold Alternating; infer_instance

/-- The last callback began a region. -/
def active (es : List (Event τ)) : Bool :=
  es.foldl (fun inside ev => (inside || ev.isStart) && !ev.isEnd) false

/-- The time between the callbacks of each completed pair. -/
def callTimes [Sub τ] (es : List (Event τ)) : List τ :=
  List.zipWith (fun S E => E.now - S.now) (starts es) (ends es)

/-- The clock never runs backwards from one callback to a later one. -/
def Clocked [LE τ] (es : List (Event τ)) : Prop := (es.filterMap Event.clock).Pairwise (· ≤ ·)

def depth (es : List (Event τ)) : ℕ := es.countP Event.isStart - es.countP Event.isEnd

/-- No call ends that has not begun. -/
def Bracketed (es : List (Event τ)) : Prop :=
  ∀ n, (es.take n).countP Event.isEnd ≤ (es.take n).countP Event.isStart

def lastCallback (es : List (Event τ)) : Option (Event τ) := es.reverse.find? Event.isCallback

/-- The position of the first clean call after position k: the one that drains a
reference appended at k. -/
def nextClean (es : List (Event τ)) (k : ℕ) : Option ℕ :=
  ((es.drop (k + 1)).findIdx? Event.isClean).map (· + (k + 1))

/-- The clean call that counts the event at position k: a clean call counts itself. -/
def countedBy (es : List (Event τ)) (k : ℕ) : Option ℕ :=
  es[k]?.bind fun ev => if ev.isClean then some k else if ev.isRef then nextClean es k else none

def nextCallback (es : List (Event τ)) (k : ℕ) : Option (Event τ) := (es.drop (k + 1)).find? Event.isCallback

/-- The region that a clean call at position c falls into: regions are numbered by
the points saved before, and merged calls all make up region 0. -/
def roiAt (opts : Options) (es : List (Event τ)) (c : ℕ) : Option ℕ :=
  if active (es.take c) then some (if opts.merged then 0 else (es.take c).countP Event.isEnd) else none

/-- The counts of the clean calls strictly between two positions. -/
def flopsBetween (es : List (Event τ)) (s e : ℕ) : ℤ :=
  ∑ k ∈ Finset.Ioo s e, (es[k]?.map Event.fpCount).getD 0

/-- The sizes of the references whose draining clean call lies strictly between two positions. -/
def bytesBetween (es : List (Event τ)) (s e : ℕ) : ℕ :=
  ∑ k ∈ Finset.range es.length,
    if (nextClean es k).any (fun c => s < c && c < e) then (es[k]?.map Event.refSize).getD 0 else 0

/-- The sizes of the references of kind t drained while some region is active. -/
def drainedActive (es : List (Event τ)) (t : UInt16) : ℕ :=
  ∑ k ∈ Finset.range es.length,
    if (nextClean es k).any (fun c => active (es.take c)) then (es[k]?.map (Event.kindSize t)).getD 0 else 0

/-- The sizes of the references of kind t drained inside region j. -/
def drainedKind (opts : Options) (es : List (Event τ)) (t : UInt16) (j : ℕ) : ℕ :=
  ∑ k ∈ Finset.range es.length,
    if (nextClean es k).bind (roiAt opts es) = some j then (es[k]?.map (Event.kindSize t)).getD 0 else 0

/-- Sums over positions are sums over events. -/
theorem sum_positions (es : List (Event τ)) (f : Event τ → ℕ) :
    ∑ k ∈ Finset.range es.length, (es[k]?.map f).getD 0 = (es.map f).sum := by
  induction es using List.reverseRecOn with
  | nil => rfl
  | append_singleton es ev ih =>
    rw [List.length_append, List.length_singleton, Finset.sum_range_succ, List.map_append,
      List.sum_append, ← ih]
    congr 1
    · refine Finset.sum_congr rfl fun k hk => ?_
      rw [List.getElem?_append_left (Finset.mem_range.mp hk)]
    · simp

/-- A reference is smaller than 2^16 bytes. -/
theorem sum_refSize_le (es : List (Event τ)) :
    (es.map Event.refSize).sum ≤ es.countP Event.isRef * (2 ^ 16 - 1) := by
  induction es with
  | nil => simp
  | cons ev es ih =>
    rw [List.map_cons, List.sum_cons, List.countP_cons]
    cases ev with
    | saveRef r =>
      have := r.size.toNat_lt
      simp only [Event.refSize, Event.isRef, if_true]
      omega
    | roiInit cxt now => simpa [Event.refSize, Event.isRef] using ih
    | roiEnd cxt now => simpa [Event.refSize, Event.isRef] using ih
    | cleanCall n => simpa [Event.refSize, Event.isRef] using ih

@[simp] theorem active_snoc (es : List (Event τ)) (ev : Event τ) :
    active (es ++ [ev]) = ((active es || ev.isStart) && !ev.isEnd) := by
  simp [active]

theorem starts_snoc (es : List (Event τ)) (ev : Event τ) :
    starts (es ++ [ev]) = starts es ++
      match ev with
      | .roiInit cxt now => [⟨es.length, cxt, now⟩]
      | _ => [] := by
  cases ev <;> simp [starts, List.zipIdx_append]

theorem ends_snoc (es : List (Event τ)) (ev : Event τ) :
    ends (es ++ [ev]) = ends es ++
      match ev with
      | .roiEnd cxt now => [⟨es.length, cxt, now⟩]
      | _ => [] := by
  cases ev <;> simp [ends, List.zipIdx_append]

theorem mem_starts {es : List (Event τ)} {S : Callback τ} (h : S ∈ starts es) :
    es[S.pos]? = some (.roiInit S.cxt S.now) := by
  obtain ⟨⟨ev, k⟩, hk, hsome⟩ := List.mem_filterMap.mp h
  rw [List.mem_zipIdx_iff_getElem?] at hk
  cases ev <;> simp at hsome
  subst hsome
  exact hk

theorem mem_ends {es : List (Event τ)} {E : Callback τ} (h : E ∈ ends es) :
    es[E.pos]? = some (.roiEnd E.cxt E.now) := by
  obtain ⟨⟨ev, k⟩, hk, hsome⟩ := List.mem_filterMap.mp h
  rw [List.mem_zipIdx_iff_getElem?] at hk
  cases ev <;> simp at hsome
  subst hsome
  exact hk

theorem countP_isEnd (es : List (Event τ)) : es.countP Event.isEnd = (ends es).length := by
  induction es using List.reverseRecOn with
  | nil => rfl
  | append_singleton es ev ih =>
    rw [List.countP_append, ends_snoc, List.length_append, ih]
    cases ev <;> rfl

theorem alternating_snoc (inside : Bool) (es : List (Event τ)) (ev : Event τ) :
    Alternating inside (es ++ [ev]) ↔
      ∃ b, es.foldlM alternation inside = some b ∧ (alternation b ev).isSome := by
  unfold Alternating
  rw [List.foldlM_append]
  cases es.foldlM alternation inside <;> simp

/-- Only callbacks matter to the alternation. -/
theorem alternating_filter (inside : Bool) (es : List (Event τ)) :
    Alternating inside (es.filter Event.isCallback) ↔ Alternating inside es := by
  have hfold : (es.filter Event.isCallback).foldlM alternation inside = es.foldlM alternation inside := by
    induction es generalizing inside with
    | nil => rfl
    | cons ev es ih =>
      cases ev with
      | roiInit cxt now =>
        cases inside with
        | true => rfl
        | false => exact ih true
      | roiEnd cxt now =>
        cases inside with
        | true => exact ih false
        | false => rfl
      | saveRef r => exact ih inside
      | cleanCall n => exact ih inside
  rw [Alternating, Alternating, hfold]

theorem countP_isEnd_filter (es : List (Event τ)) :
    (es.filter Event.isCallback).countP Event.isEnd = es.countP Event.isEnd := by
  rw [List.countP_filter]
  refine List.countP_congr fun ev _ => ?_
  cases ev <;> simp [Event.isCallback, Event.isStart, Event.isEnd]

/-- The alternation check knows whether a region is active. -/
theorem alternation_active (es : List (Event τ)) {inside b : Bool}
    (h : es.foldlM alternation inside = some b) :
    (active es = true → b = true) ∧ (inside = false → active es = b) := by
  induction es using List.reverseRecOn generalizing b with
  | nil =>
    cases h
    cases inside <;> simp [active]
  | append_singleton es ev ih =>
    rw [List.foldlM_append] at h
    cases hb : es.foldlM alternation inside with
    | none => simp [hb] at h
    | some b' =>
      obtain ⟨h1, h2⟩ := ih hb
      simp only [hb, List.foldlM_cons, List.foldlM_nil, bind_pure, Option.bind_eq_bind,
        Option.bind_some] at h
      cases ev <;> cases b' <;> simp_all [alternation, Event.isStart, Event.isEnd]

/-- Callbacks go on to alternate if the next one finds the right state of affairs. -/
theorem alternating_snoc_iff (es : List (Event τ)) (ev : Event τ) :
    Alternating false (es ++ [ev]) ↔
      Alternating false es ∧ (ev.isStart = true → active es = false) ∧
        (ev.isEnd = true → active es = true) := by
  have hcheck (b : Bool) : (alternation b ev).isSome = true ↔
      (ev.isStart = true → b = false) ∧ (ev.isEnd = true → b = true) := by
    cases ev <;> cases b <;> simp [alternation, Event.isStart, Event.isEnd]
  rw [alternating_snoc]
  constructor
  · rintro ⟨b, hb, hev⟩
    rw [(alternation_active es hb).2 rfl]
    exact ⟨by simp [Alternating, hb], (hcheck b).mp hev⟩
  · rintro ⟨h, hev⟩
    obtain ⟨b, hb⟩ := Option.isSome_iff_exists.mp h
    rw [(alternation_active es hb).2 rfl] at hev
    exact ⟨b, hb, (hcheck b).mpr hev⟩

theorem active_eq_lastCallback (es : List (Event τ)) : active es = (lastCallback es).any Event.isStart := by
  induction es using List.reverseRecOn with
  | nil => rfl
  | append_singleton es ev ih =>
    rw [active_snoc, ih, lastCallback, lastCallback, List.reverse_append, List.reverse_singleton,
      List.singleton_append, List.find?_cons]
    cases ev <;> simp [Event.isCallback, Event.isStart, Event.isEnd]

/-- A region is active only inside some call. -/
theorem depth_pos_of_active (es : List (Event τ)) (h : Bracketed es) (ha : active es = true) :
    0 < depth es := by
  induction es using List.reverseRecOn with
  | nil => cases ha
  | append_singleton es ev ih =>
    have hpre : Bracketed es := by
      intro n
      have hn := h (min n es.length)
      rwa [List.take_append_of_le_length (min_le_right _ _), ← List.take_eq_take_min] at hn
    have hle := hpre es.length
    rw [List.take_length] at hle
    rw [active_snoc] at ha
    unfold depth at ih ⊢
    rw [List.countP_append, List.countP_append]
    cases ev with
    | roiInit cxt now => simp [Event.isStart, Event.isEnd]; omega
    | roiEnd cxt now => simp [Event.isEnd] at ha
    | saveRef r =>
      simpa [Event.isStart, Event.isEnd] using ih hpre (by simpa [Event.isStart, Event.isEnd] using ha)
    | cleanCall n =>
      simpa [Event.isStart, Event.isEnd] using ih hpre (by simpa [Event.isStart, Event.isEnd] using ha)

end Roofline.Client
