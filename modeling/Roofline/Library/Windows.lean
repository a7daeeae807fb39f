import Roofline.Library.Attribution

/-! Runs whose openings and closings alternate. The postings owned by account j are
then those between opening j and closing j. -/
namespace Roofline.Library.Ledger
variable {M : Type} [AddCommMonoid M]

/-- An opening follows a closing and the other way round; nothing pauses or resumes. -/
def Accepts (L : Ledger M) : Window → Prop
  | .stay => True
  | .opening => L.active = false
  | .closing => L.active = true
  | .resume => False
  | .pause => False

def Alternates (L : Ledger M) (e : Entry M) : Prop :=
  L.Accepts e.before ∧ (L.turn e.before).Accepts e.after

/-- The first step that a change of window w at time k of entry e can affect. -/
def stampsOf (w : Window) (e : Entry M) (k : ℕ) : List ℕ :=
  (if e.before = w then [k] else []) ++ if e.after = w then [k + 1] else []

/-- The times at which the window changes by w, in order. -/
def stamps (w : Window) (es : List (Entry M)) : List ℕ :=
  es.zipIdx.flatMap fun p => stampsOf w p.1 p.2

omit [AddCommMonoid M] in
theorem stamps_snoc (w : Window) (es : List (Entry M)) (e : Entry M) :
    stamps w (es ++ [e]) = stamps w es ++ stampsOf w e es.length := by
  simp [stamps, List.zipIdx_append]

/-- Step c lies in window number j, which may still be open. -/
def Within (opens closes : List ℕ) (c j : ℕ) : Prop :=
  ∃ o, opens[j]? = some o ∧ o ≤ c ∧ ∀ e, closes[j]? = some e → c < e

/-- A window opened later contains no earlier step. -/
theorem within_opens_snoc (opens closes : List ℕ) {t c : ℕ} (h : c < t) (j : ℕ) :
    Within (opens ++ [t]) closes c j ↔ Within opens closes c j := by
  have ht (o : ℕ) (hle : o ≤ c) : (opens ++ [t])[j]? = some o ↔ opens[j]? = some o := by
    rw [getElem?_snoc_eq_some]
    constructor
    · rintro (ho | ⟨-, rfl⟩)
      · exact ho
      · omega
    · exact .inl
  constructor
  · rintro ⟨o, ho, hle, he⟩
    exact ⟨o, (ht o hle).mp ho, hle, he⟩
  · rintro ⟨o, ho, hle, he⟩
    exact ⟨o, (ht o hle).mpr ho, hle, he⟩

private theorem within_closes_snoc (opens closes : List ℕ) {t c : ℕ} (h : c < t) (j : ℕ) :
    Within opens (closes ++ [t]) c j ↔ Within opens closes c j := by
  have ht : (∀ e, (closes ++ [t])[j]? = some e → c < e) ↔ ∀ e, closes[j]? = some e → c < e := by
    simp only [getElem?_snoc_eq_some]
    constructor
    · intro he e hj
      exact he e (.inl hj)
    · rintro he e (hj | ⟨-, rfl⟩)
      · exact he e hj
      · exact h
  simp only [Within, ht]

/-- How the recorded times fit the ledger after n steps. -/
structure Recorded (opens closes : List ℕ) (L : Ledger M) (n : ℕ) : Prop where
  opened : opens.length = closes.length + L.active.toNat
  closed : closes.length = L.closed.length
  opens_le : ∀ t ∈ opens, t ≤ n
  closes_le : ∀ t ∈ closes, t ≤ n
  ordered : ∀ (j o c : ℕ), opens[j]? = some o → closes[j]? = some c → o ≤ c

omit [AddCommMonoid M] in
/-- While a window is open its steps are owned by the account the ledger holds. -/
theorem Recorded.holder_iff {opens closes : List ℕ} {L : Ledger M} {n : ℕ}
    (h : Recorded opens closes L n) (j : ℕ) :
    L.holder = some j ↔ Within opens closes n j := by
  have hnone : ∀ e, closes[j]? = some e → ¬ n < e := fun e he => by
    have := h.closes_le e (List.mem_of_getElem? he)
    omega
  cases ha : L.active with
  | false =>
    simp only [holder, ha, Bool.false_eq_true, if_false, reduceCtorEq, false_iff]
    rintro ⟨o, ho, _, he⟩
    have hj : j < closes.length := by
      have := (List.getElem?_eq_some_iff.mp ho).1
      have := h.opened
      simp only [ha, Bool.toNat_false] at this
      omega
    exact hnone _ (List.getElem?_eq_getElem hj) (he _ (List.getElem?_eq_getElem hj))
  | true =>
    have hlen := h.opened
    simp only [ha, Bool.toNat_true] at hlen
    simp only [holder, ha, if_true, Option.some.injEq, ← h.closed]
    constructor
    · rintro rfl
      refine ⟨opens[closes.length], by simp, h.opens_le _ (List.getElem_mem _), fun e he => ?_⟩
      rw [List.getElem?_eq_none le_rfl] at he
      cases he
    · rintro ⟨o, ho, _, he⟩
      have hj := (List.getElem?_eq_some_iff.mp ho).1
      by_contra hne
      have hj : j < closes.length := by omega
      exact hnone _ (List.getElem?_eq_getElem hj) (he _ (List.getElem?_eq_getElem hj))

theorem Recorded.turn {opens closes : List ℕ} {L : Ledger M} {n : ℕ} (h : Recorded opens closes L n)
    (w : Window) (hw : L.Accepts w) :
    Recorded (opens ++ if w = .opening then [n] else []) (closes ++ if w = .closing then [n] else [])
      (L.turn w) n := by
  obtain ⟨ho, hc, hol, hcl, hord⟩ := h
  cases w with
  | stay => exact ⟨by simpa using ho, by simpa using hc, by simpa using hol, by simpa using hcl, by simpa using hord⟩
  | opening =>
    have ha : L.active = false := hw
    simp only [ha, Bool.toNat_false, Nat.add_zero] at ho
    refine ⟨?_, by simpa [Ledger.turn] using hc, ?_, by simpa using hcl, ?_⟩
    · simpa [Ledger.turn] using ho
    · intro t ht
      rcases List.mem_append.mp ht with ht | ht
      · exact hol t ht
      · simp at ht; omega
    · intro j o c hj hj'
      simp only [reduceCtorEq, if_false, List.append_nil] at hj'
      have hlt := (List.getElem?_eq_some_iff.mp hj').1
      rw [List.getElem?_append_left (by omega)] at hj
      exact hord j o c hj hj'
  | closing =>
    have ha : L.active = true := hw
    simp only [ha, Bool.toNat_true] at ho
    refine ⟨?_, by simpa [Ledger.turn] using hc, by simpa using hol, ?_, ?_⟩
    · simpa [Ledger.turn] using ho
    · intro t ht
      rcases List.mem_append.mp ht with ht | ht
      · exact hcl t ht
      · simp at ht; omega
    · intro j o c hj hj'
      simp only [reduceCtorEq, if_false, List.append_nil] at hj
      rw [if_pos rfl] at hj'
      rcases getElem?_snoc_eq_some.mp hj' with hj' | ⟨-, rfl⟩
      · exact hord j o c hj hj'
      · exact hol o (List.mem_of_getElem? hj)
  | resume => exact hw.elim
  | pause => exact hw.elim

private theorem Recorded.later {opens closes : List ℕ} {L : Ledger M} {n : ℕ} (h : Recorded opens closes L n)
    (p : Option M) : Recorded opens closes (L.settle p) (n + 1) :=
  ⟨by simpa using h.opened, by simpa using h.closed,
    fun t ht => (h.opens_le t ht).trans n.le_succ, fun t ht => (h.closes_le t ht).trans n.le_succ, h.ordered⟩

private theorem accepts_settle (L : Ledger M) (p : Option M) (w : Window) :
    (L.settle p).Accepts w ↔ L.Accepts w := by
  cases w <;> simp [Accepts]

private theorem within_stamp (opens closes : List ℕ) (w : Window) {t c : ℕ} (h : c < t) (j : ℕ) :
    Within (opens ++ if w = .opening then [t] else []) (closes ++ if w = .closing then [t] else []) c j ↔
      Within opens closes c j := by
  cases w <;> simp [within_opens_snoc _ _ h, within_closes_snoc _ _ h]

/-- In an alternating run the openings and closings tell the owner of every step. -/
theorem recorded_run (es : List (Entry M)) (h : Along Alternates es) :
    Recorded (stamps .opening es) (stamps .closing es) (run es) es.length ∧
      ∀ c < es.length, ∀ j,
        owner es c = some j ↔ Within (stamps .opening es) (stamps .closing es) c j := by
  induction es using List.reverseRecOn with
  | nil => exact ⟨⟨rfl, rfl, by simp [stamps], by simp [stamps], by simp [stamps]⟩, by simp⟩
  | append_singleton es e ih =>
    obtain ⟨h, hb, ha⟩ := (along_snoc Alternates es e).mp h
    obtain ⟨rec, own⟩ := ih h
    have mid := rec.turn e.before hb
    have fin := (mid.later e.post).turn e.after ((accepts_settle _ _ _).mpr ha)
    simp only [stamps_snoc, stampsOf, ← List.append_assoc]
    refine ⟨⟨?_, ?_, ?_, ?_, ?_⟩, fun c hc j => ?_⟩
    · simpa [step] using fin.opened
    · simpa [step] using fin.closed
    · simpa using fin.opens_le
    · simpa using fin.closes_le
    · simpa using fin.ordered
    · rw [List.length_append, List.length_singleton] at hc
      rw [within_stamp _ _ _ hc]
      rcases Nat.lt_or_ge c es.length with hlt | hge
      · rw [owner_snoc es e hlt, within_stamp _ _ _ hlt]
        exact own c hlt j
      · obtain rfl : c = es.length := by omega
        rw [owner_last]
        exact mid.holder_iff j

/-- Windows do not overlap: nothing pauses or resumes, and only a closed ledger opens. -/
def Separate (L : Ledger M) : Window → Prop
  | .stay => True
  | .opening => L.active = false
  | .closing => True
  | .resume => False
  | .pause => False

def Separates (L : Ledger M) (e : Entry M) : Prop :=
  L.Separate e.before ∧ (L.turn e.before).Separate e.after

omit [AddCommMonoid M] in
theorem Accepts.separate {L : Ledger M} {w : Window} (h : L.Accepts w) : L.Separate w := by
  cases w <;> trivial

private theorem Alternates.separates {L : Ledger M} {e : Entry M} (h : Alternates L e) : Separates L e :=
  ⟨h.1.separate, h.2.separate⟩

private theorem separate_settle (L : Ledger M) (p : Option M) (w : Window) :
    (L.settle p).Separate w ↔ L.Separate w := by
  cases w <;> simp [Separate]

/-- Outside the windows the current account is empty. -/
def Idle (L : Ledger M) : Prop := L.active = false → L.current = 0

theorem Idle.turn {L : Ledger M} (h : L.Idle) (w : Window) (hw : L.Separate w) : (L.turn w).Idle := by
  cases w with
  | stay => exact h
  | opening => exact fun _ => rfl
  | closing => exact fun _ => rfl
  | resume => exact hw.elim
  | pause => exact hw.elim

theorem Idle.settle {L : Ledger M} (h : L.Idle) (p : Option M) : (L.settle p).Idle := by
  intro ha
  rw [settle_active] at ha
  cases p with
  | none => exact h ha
  | some m => simpa [Ledger.settle, ha] using h ha

theorem Idle.step {L : Ledger M} (h : L.Idle) (e : Entry M) (he : Separates L e) : (L.step e).Idle :=
  ((h.turn e.before he.1).settle e.post).turn e.after ((separate_settle _ _ _).mpr he.2)

theorem Idle.keeps {L : Ledger M} (h : L.Idle) (e : Entry M) (he : Separates L e) : Keeps L e := by
  refine ⟨fun hw => h (by simpa [hw, Separate] using he.1), fun hw => ?_⟩
  exact (h.turn e.before he.1).settle e.post (by simpa [hw, Separate] using he.2)

/-- Separate windows never make an opening drop an amount. -/
theorem keeps_of_separates (es : List (Entry M)) (h : Along Separates es) :
    (run es).Idle ∧ Along Keeps es := by
  induction es using List.reverseRecOn with
  | nil => exact ⟨fun _ => rfl, fun k e he => by simp at he⟩
  | append_singleton es e ih =>
    obtain ⟨h, he⟩ := (along_snoc Separates es e).mp h
    obtain ⟨idle, keeps⟩ := ih h
    rw [run_snoc]
    exact ⟨idle.step e he, (along_snoc Keeps es e).mpr ⟨keeps, idle.keeps e he⟩⟩

theorem idle_of_alternates (es : List (Entry M)) (h : Along Alternates es) : (run es).Idle :=
  (keeps_of_separates es fun k e he => (h k e he).separates).1

end Roofline.Library.Ledger
