import Roofline.Library.Windows
import Roofline.Client.StepSpec
import Roofline.Client.Trace
import Mathlib.Algebra.BigOperators.Group.List.Basic
import Mathlib.Tactic.Abel

/-! The client simulates a ledger. References are deferred amounts, clean calls are
postings, and the counters of a point are the amounts of its account modulo 2^64. -/
namespace Roofline.Correctness
open Client Library

/-- Exact amounts: what the counters of a point hold before they wrap around. -/
@[ext] structure Tally where
  flops : ℤ
  bytes : ℕ
  reads : ℕ
  writes : ℕ
  deriving DecidableEq, Repr

namespace Tally

instance : Zero Tally := ⟨⟨0, 0, 0, 0⟩⟩
instance : Add Tally :=
  ⟨fun a b => ⟨a.flops + b.flops, a.bytes + b.bytes, a.reads + b.reads, a.writes + b.writes⟩⟩

@[simp] theorem flops_zero : (0 : Tally).flops = 0 := rfl
@[simp] theorem bytes_zero : (0 : Tally).bytes = 0 := rfl
@[simp] theorem reads_zero : (0 : Tally).reads = 0 := rfl
@[simp] theorem writes_zero : (0 : Tally).writes = 0 := rfl
@[simp] theorem flops_add (a b : Tally) : (a + b).flops = a.flops + b.flops := rfl
@[simp] theorem bytes_add (a b : Tally) : (a + b).bytes = a.bytes + b.bytes := rfl
@[simp] theorem reads_add (a b : Tally) : (a + b).reads = a.reads + b.reads := rfl
@[simp] theorem writes_add (a b : Tally) : (a + b).writes = a.writes + b.writes := rfl

instance : AddCommMonoid Tally where
  add_assoc a b c := by ext <;> simp [add_assoc]
  zero_add a := by ext <;> simp
  add_zero a := by ext <;> simp
  add_comm a b := by ext <;> simp [add_comm]
  nsmul := nsmulRec

def flopsHom : Tally →+ ℤ := ⟨⟨flops, rfl⟩, flops_add⟩
def bytesHom : Tally →+ ℕ := ⟨⟨bytes, rfl⟩, bytes_add⟩
def readsHom : Tally →+ ℕ := ⟨⟨reads, rfl⟩, reads_add⟩
def writesHom : Tally →+ ℕ := ⟨⟨writes, rfl⟩, writes_add⟩

@[simp] theorem flopsHom_apply (a : Tally) : flopsHom a = a.flops := rfl
@[simp] theorem bytesHom_apply (a : Tally) : bytesHom a = a.bytes := rfl

theorem flops_sum {ι : Type} (s : Finset ι) (f : ι → Tally) :
    (∑ i ∈ s, f i).flops = ∑ i ∈ s, (f i).flops :=
  map_sum flopsHom f s

theorem bytes_sum {ι : Type} (s : Finset ι) (f : ι → Tally) :
    (∑ i ∈ s, f i).bytes = ∑ i ∈ s, (f i).bytes :=
  map_sum bytesHom f s

theorem reads_sum {ι : Type} (s : Finset ι) (f : ι → Tally) :
    (∑ i ∈ s, f i).reads = ∑ i ∈ s, (f i).reads :=
  map_sum readsHom f s

theorem writes_sum {ι : Type} (s : Finset ι) (f : ι → Tally) :
    (∑ i ∈ s, f i).writes = ∑ i ∈ s, (f i).writes :=
  map_sum writesHom f s

end Tally

def refTally (r : MemRef) : Tally :=
  ⟨0, r.size.toNat, if r.type = 0 then r.size.toNat else 0, if r.type = 1 then r.size.toNat else 0⟩

def fpTally (n : Int32) : Tally := ⟨n.toInt, 0, 0, 0⟩

/-- The ledger entry that stands for an event. -/
def entryOf {τ : Type} (opts : Options) : Event τ → Entry Tally
  | .roiInit _ _ => .turning (if opts.merged then .resume else .opening)
  | .roiEnd _ _ => .turning (if opts.merged then .pause else .closing)
  | .saveRef r => .deferring (refTally r)
  | .cleanCall n => .posting (fpTally n)

def entries {τ : Type} (opts : Options) (es : List (Event τ)) : List (Entry Tally) :=
  es.map (entryOf opts)

@[simp] theorem entries_snoc {τ : Type} (opts : Options) (es : List (Event τ)) (ev : Event τ) :
    entries opts (es ++ [ev]) = entries opts es ++ [entryOf opts ev] := by
  simp [entries]

theorem toNat_ofInt (n : ℤ) : ((UInt64.ofInt n).toNat : ℤ) = n % 2 ^ 64 := by
  have h := Int.emod_nonneg n (by decide : (2 ^ 64 : ℤ) ≠ 0)
  have h' := Int.emod_lt_of_pos n (by decide : (0 : ℤ) < 2 ^ 64)
  simp only [UInt64.ofInt, UInt64.toNat_ofNat']
  omega

/-- The wrapping counters of a point that every new point resets. -/
structure Holds {τ : Type} (p : Point τ) (t : Tally) : Prop where
  flops : p.flops = UInt64.ofInt t.flops
  bytes : p.bytes = UInt64.ofNat t.bytes

/-- The wrapping counters of a point that no reset touches. -/
structure HoldsKinds {τ : Type} (p : Point τ) (t : Tally) : Prop where
  reads : p.readBytes = UInt64.ofNat t.reads
  writes : p.writeBytes = UInt64.ofNat t.writes

section points
variable {τ : Type}

private theorem bytes_foldl_countRef (refs : List MemRef) (p : Point τ) :
    (refs.foldl Point.countRef p).bytes = p.bytes + UInt64.ofNat (refs.map refTally).sum.bytes := by
  induction refs generalizing p with
  | nil => simp
  | cons r refs ih =>
    have hr : (p.countRef r).bytes = p.bytes + UInt64.ofNat r.size.toNat := by
      simp only [Point.countRef, Point.updateBytes, Point.updateReadBytes, Point.updateWriteBytes]
      split_ifs <;> simp
    rw [List.foldl_cons, ih, hr, List.map_cons, List.sum_cons, Tally.bytes_add, UInt64.ofNat_add,
      add_assoc]
    rfl

private theorem kinds_foldl_countRef (refs : List MemRef) (p : Point τ) :
    (refs.foldl Point.countRef p).readBytes = p.readBytes + UInt64.ofNat (refs.map refTally).sum.reads ∧
      (refs.foldl Point.countRef p).writeBytes =
        p.writeBytes + UInt64.ofNat (refs.map refTally).sum.writes := by
  induction refs generalizing p with
  | nil => simp
  | cons r refs ih =>
    have hr : (p.countRef r).readBytes = p.readBytes + UInt64.ofNat (refTally r).reads ∧
        (p.countRef r).writeBytes = p.writeBytes + UInt64.ofNat (refTally r).writes := by
      simp only [Point.countRef, Point.updateBytes, Point.updateReadBytes, Point.updateWriteBytes,
        refTally]
      split_ifs <;> simp_all
    rw [List.foldl_cons, (ih _).1, (ih _).2, hr.1, hr.2]
    simp [UInt64.ofNat_add, add_assoc]

theorem flops_sum_refTally (refs : List MemRef) : (refs.map refTally).sum.flops = 0 := by
  induction refs with
  | nil => rfl
  | cons r refs ih => simp [ih, refTally]

theorem Holds.drained {p : Point τ} {t : Tally} (h : Holds p t) (n : Int32) (refs : List MemRef) :
    Holds (p.drained n refs) (t + (fpTally n + (refs.map refTally).sum)) := by
  constructor
  · simp [Point.drained, Point.updateFpCount, h.flops, flops_sum_refTally, fpTally, UInt64.ofInt_add]
  · simp [Point.drained, bytes_foldl_countRef, Point.updateFpCount, h.bytes, fpTally, UInt64.ofNat_add]

theorem HoldsKinds.drained {p : Point τ} {t : Tally} (h : HoldsKinds p t) (n : Int32)
    (refs : List MemRef) :
    HoldsKinds (p.drained n refs) (t + (fpTally n + (refs.map refTally).sum)) := by
  obtain ⟨hr, hw⟩ := kinds_foldl_countRef refs (p.updateFpCount n)
  constructor
  · rw [Point.drained, hr]
    simp [Point.updateFpCount, h.reads, fpTally, UInt64.ofNat_add]
  · rw [Point.drained, hw]
    simp [Point.updateFpCount, h.writes, fpTally, UInt64.ofNat_add]

end points

variable {τ : Type} [Zero τ]

/-- The state of the client stands for a ledger. -/
structure Refines (opts : Options) (σ : ClientState τ) (L : Ledger Tally) : Prop where
  active : σ.inRoi = L.active
  deferred : (σ.data.buf.map refTally).sum = L.deferred
  current : Holds σ.data.curPoint L.current
  closed : List.Forall₂ Holds σ.data.pointList L.closed
  fresh : opts.merged = true → σ.newPointOnlyOnce = false → L.active = false ∧ L.current = 0

private theorem refines_init (opts : Options) : Refines opts (ClientState.init : ClientState τ) Ledger.blank :=
  ⟨rfl, rfl, ⟨rfl, rfl⟩, .nil, fun _ _ => ⟨rfl, rfl⟩⟩

theorem Refines.step {opts : Options} {σ : ClientState τ} {L : Ledger Tally} (h : Refines opts σ L)
    (ev : Event τ) : Refines opts (step opts σ ev) (L.step (entryOf opts ev)) := by
  cases ev with
  | saveRef r =>
    rw [step_saveRef, entryOf, Ledger.step_deferring]
    exact ⟨h.active, by simp [Ledger.postpone, ← h.deferred], h.current, h.closed, h.fresh⟩
  | cleanCall n =>
    rw [step_cleanCall, entryOf, Ledger.step_posting]
    refine ⟨h.active, by simp [Ledger.settle], ?_, h.closed, fun hm hn => ?_⟩
    · simp only [Ledger.settle, ← h.active, ← h.deferred]
      split_ifs
      · exact h.current.drained n _
      · exact h.current
    · obtain ⟨ha, hc⟩ := h.fresh hm hn
      simp [Ledger.settle, ha, hc]
  | roiInit cxt now =>
    rw [step_roiInit, entryOf, Ledger.step_turning]
    cases hm : opts.merged with
    | false =>
      refine ⟨rfl, h.deferred, ?_, h.closed, fun hm' => by simp [hm] at hm'⟩
      rw [Bool.false_and, if_neg Bool.false_ne_true, Point.opened_eq]
      exact ⟨rfl, rfl⟩
    | true =>
      refine ⟨rfl, h.deferred, ?_, h.closed, fun _ hn => by simp at hn⟩
      cases hn : σ.newPointOnlyOnce with
      | false =>
        have hz : L.current = 0 := (h.fresh hm hn).2
        rw [Bool.and_false, if_neg Bool.false_ne_true, if_pos rfl, Ledger.turn, hz, Point.opened_eq]
        exact ⟨rfl, rfl⟩
      | true =>
        rw [Bool.and_true, if_pos rfl, if_pos rfl, Ledger.turn, Point.stampStart_eq]
        exact ⟨h.current.flops, h.current.bytes⟩
  | roiEnd cxt now =>
    rw [step_roiEnd, entryOf, Ledger.step_turning]
    cases hm : opts.merged with
    | false =>
      refine ⟨rfl, h.deferred, ⟨rfl, rfl⟩, ?_, fun hm' => by simp [hm] at hm'⟩
      refine List.rel_append h.closed (.cons ?_ .nil)
      rw [Point.ended_eq]
      exact ⟨h.current.flops, h.current.bytes⟩
    | true =>
      refine ⟨rfl, h.deferred, ?_, h.closed, fun hm' hn => ⟨rfl, (h.fresh hm hn).2⟩⟩
      rw [if_pos rfl, if_pos rfl, Ledger.turn, Point.stampEnd_eq]
      exact ⟨h.current.flops, h.current.bytes⟩

/-- Every run of the client simulates the run of its ledger. -/
theorem refines_run (opts : Options) (es : List (Event τ)) :
    Refines opts (run opts es) (Ledger.run (entries opts es)) := by
  induction es using List.reverseRecOn with
  | nil => exact refines_init opts
  | append_singleton es ev ih =>
    rw [entries_snoc, Ledger.run_snoc, run_snoc]
    exact ih.step ev

end Roofline.Correctness
