import Roofline.Library.Ledger

/-! Which steps of a run an account is made of. Every account equals the sum of the
postings made while it was open and of the amounts those postings settled. -/
namespace Roofline.Library.Ledger
variable {M : Type} [AddCommMonoid M]

/-- A condition on every step of a run, given the ledger the step starts from. -/
def Along (P : Ledger M → Entry M → Prop) (es : List (Entry M)) : Prop :=
  ∀ k e, es[k]? = some e → P (run (es.take k)) e

theorem along_snoc (P : Ledger M → Entry M → Prop) (es : List (Entry M)) (e : Entry M) :
    Along P (es ++ [e]) ↔ Along P es ∧ P (run es) e := by
  constructor
  · intro h
    refine ⟨fun k f hf => ?_, ?_⟩
    · have hk : k < es.length := (List.getElem?_eq_some_iff.mp hf).1
      have := h k f (by rw [List.getElem?_append_left hk, hf])
      rwa [List.take_append_of_le_length hk.le] at this
    · simpa using h es.length e (by simp)
  · rintro ⟨h, he⟩ k f hf
    rcases getElem?_snoc_eq_some.mp hf with hf | ⟨rfl, rfl⟩
    · rw [List.take_append_of_le_length (List.getElem?_eq_some_iff.mp hf).1.le]
      exact h k f hf
    · simpa using he

/-- No opening of this step drops an amount. -/
def Keeps (L : Ledger M) (e : Entry M) : Prop :=
  (e.before = .opening → L.current = 0) ∧
    (e.after = .opening → ((L.turn e.before).settle e.post).current = 0)

def holder (L : Ledger M) : Option ℕ := if L.active then some L.closed.length else none

/-- The account that a posting of step k goes to. -/
def owner (es : List (Entry M)) (k : ℕ) : Option ℕ :=
  es[k]?.bind fun e => ((run (es.take k)).turn e.before).holder

/-- The first posting step after step k. -/
def nextPost (es : List (Entry M)) (k : ℕ) : Option ℕ :=
  ((es.drop (k + 1)).findIdx? (·.post.isSome)).map (· + (k + 1))

def postAt (es : List (Entry M)) (k : ℕ) : M := (es[k]?.bind (·.post)).getD 0
def deferAt (es : List (Entry M)) (k : ℕ) : M := (es[k]?.map (·.defer)).getD 0

/-- Account j in terms of the steps: a posting belongs to its owner, a deferred
amount to the owner of the next posting. -/
def account (es : List (Entry M)) (j : ℕ) : M :=
  ∑ k ∈ Finset.range es.length,
    ((if owner es k = some j then postAt es k else 0) +
      if (nextPost es k).bind (owner es) = some j then deferAt es k else 0)

/-- The amounts that no posting has settled yet. -/
def pending (es : List (Entry M)) : M :=
  ∑ k ∈ Finset.range es.length, if nextPost es k = none then deferAt es k else 0

theorem owner_snoc (es : List (Entry M)) (e : Entry M) {k : ℕ} (hk : k < es.length) :
    owner (es ++ [e]) k = owner es k := by
  simp [owner, List.getElem?_append_left hk, List.take_append_of_le_length hk.le]

theorem owner_last (es : List (Entry M)) (e : Entry M) :
    owner (es ++ [e]) es.length = ((run es).turn e.before).holder := by
  simp [owner]

omit [AddCommMonoid M] in
theorem nextPost_snoc (es : List (Entry M)) (e : Entry M) {k : ℕ} (hk : k < es.length) :
    nextPost (es ++ [e]) k = (nextPost es k).or (if e.post.isSome then some es.length else none) := by
  have hlen : es.length - (k + 1) + (k + 1) = es.length := by omega
  rw [nextPost, nextPost, List.drop_append_of_le_length (by omega), List.findIdx?_append]
  cases h : (es.drop (k + 1)).findIdx? (·.post.isSome) with
  | some c => simp
  | none => by_cases he : e.post.isSome = true <;> simp [he, hlen]

omit [AddCommMonoid M] in
theorem nextPost_last (es : List (Entry M)) (e : Entry M) : nextPost (es ++ [e]) es.length = none := by
  simp [nextPost]

omit [AddCommMonoid M] in
theorem nextPost_lt {es : List (Entry M)} {k c : ℕ} (h : nextPost es k = some c) :
    k < c ∧ c < es.length := by
  obtain ⟨i, hi, rfl⟩ := Option.map_eq_some_iff.mp h
  have hlt := (List.findIdx?_eq_some_iff_findIdx_eq.mp hi).1
  simp only [List.length_drop] at hlt
  omega

theorem postAt_snoc (es : List (Entry M)) (e : Entry M) {k : ℕ} (hk : k < es.length) :
    postAt (es ++ [e]) k = postAt es k := by
  simp [postAt, List.getElem?_append_left hk]

theorem deferAt_snoc (es : List (Entry M)) (e : Entry M) {k : ℕ} (hk : k < es.length) :
    deferAt (es ++ [e]) k = deferAt es k := by
  simp [deferAt, List.getElem?_append_left hk]

private theorem account_snoc_none (es : List (Entry M)) (e : Entry M) (he : e.post = none) (j : ℕ) :
    account (es ++ [e]) j = account es j := by
  rw [account, List.length_append, List.length_singleton, Finset.sum_range_succ, account]
  simp only [nextPost_last, postAt, deferAt, List.getElem?_concat_length, Option.bind_some, he,
    Option.getD_none, ite_self, Option.bind_none, reduceCtorEq, if_false, add_zero]
  refine Finset.sum_congr rfl fun k hk => ?_
  have hk := Finset.mem_range.mp hk
  have hn : nextPost (es ++ [e]) k = nextPost es k := by simp [nextPost_snoc es e hk, he]
  rw [owner_snoc es e hk, hn, List.getElem?_append_left hk]
  cases hc : nextPost es k with
  | none => simp
  | some c => simp [owner_snoc es e (nextPost_lt hc).2]

/-- A posting adds itself and all pending amounts to the account it goes to. -/
theorem account_snoc_some (es : List (Entry M)) (e : Entry M) (m : M) (he : e.post = some m) (j : ℕ) :
    account (es ++ [e]) j =
      account es j + if ((run es).turn e.before).holder = some j then m + pending es else 0 := by
  rw [account, List.length_append, List.length_singleton, Finset.sum_range_succ]
  have hlast : ((if owner (es ++ [e]) es.length = some j then postAt (es ++ [e]) es.length else 0) +
      if (nextPost (es ++ [e]) es.length).bind (owner (es ++ [e])) = some j
        then deferAt (es ++ [e]) es.length else 0) =
      if ((run es).turn e.before).holder = some j then m else 0 := by
    simp [owner_last, nextPost_last, postAt, he]
  have hrest : ∀ k ∈ Finset.range es.length,
      ((if owner (es ++ [e]) k = some j then postAt (es ++ [e]) k else 0) +
        if (nextPost (es ++ [e]) k).bind (owner (es ++ [e])) = some j then deferAt (es ++ [e]) k else 0) =
      ((if owner es k = some j then postAt es k else 0) +
        if (nextPost es k).bind (owner es) = some j then deferAt es k else 0) +
      if ((run es).turn e.before).holder = some j then (if nextPost es k = none then deferAt es k else 0)
        else 0 := by
    intro k hk
    have hk := Finset.mem_range.mp hk
    rw [owner_snoc es e hk, postAt_snoc es e hk, deferAt_snoc es e hk, nextPost_snoc es e hk]
    cases hc : nextPost es k with
    | none => simp [he, owner_last]
    | some c => simp [owner_snoc es e (nextPost_lt hc).2]
  rw [Finset.sum_congr rfl hrest, Finset.sum_add_distrib, hlast, account, pending]
  split_ifs with h
  · rw [add_assoc, add_comm m]
  · simp

theorem pending_snoc (es : List (Entry M)) (e : Entry M) :
    pending (es ++ [e]) = (if e.post = none then pending es else 0) + e.defer := by
  rw [pending, List.length_append, List.length_singleton, Finset.sum_range_succ, nextPost_last,
    if_pos rfl]
  congr 1
  · have hk : ∀ k ∈ Finset.range es.length,
        (if nextPost (es ++ [e]) k = none then deferAt (es ++ [e]) k else 0) =
          if e.post = none then (if nextPost es k = none then deferAt es k else 0) else 0 := by
      intro k hk
      have hk := Finset.mem_range.mp hk
      rw [nextPost_snoc es e hk, deferAt_snoc es e hk]
      cases he : e.post <;> cases nextPost es k <;> simp
    rw [Finset.sum_congr rfl hk]
    split_ifs <;> simp [pending]
  · simp [deferAt]

/-- Every account holds exactly the amounts attributed to it, provided no opening
drops an amount. -/
theorem run_accounts (es : List (Entry M)) (h : Along Keeps es) :
    (∀ j, (run es).book j = account es j) ∧ (run es).deferred = pending es := by
  induction es using List.reverseRecOn with
  | nil => exact ⟨fun j => by cases j <;> simp [blank, book, account], rfl⟩
  | append_singleton es e ih =>
    obtain ⟨h, hb, ha⟩ := (along_snoc Keeps es e).mp h
    obtain ⟨ihb, ihd⟩ := ih h
    have hbook (j : ℕ) :
        (run (es ++ [e])).book j = (((run es).turn e.before).settle e.post).book j := by
      rw [run_snoc, step, book_postpone, book_turn _ _ ha]
    refine ⟨fun j => ?_, ?_⟩
    · cases he : e.post with
      | none => rw [hbook, he, settle_none, book_turn _ _ hb, ihb, account_snoc_none es e he]
      | some m =>
        rw [hbook, he, book_settle, book_turn _ _ hb, ihb, account_snoc_some es e m he,
          turn_deferred, ihd]
        simp only [holder]
        split_ifs <;> simp_all
    · rw [run_snoc, pending_snoc, step]
      cases he : e.post with
      | none => simp [postpone, ihd]
      | some m => simp [postpone, settle]

end Roofline.Library.Ledger
