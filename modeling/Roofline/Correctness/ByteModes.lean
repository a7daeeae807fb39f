import Roofline.Library.Provenance
import Roofline.Correctness.BytePartition
import Roofline.Correctness.BlockLedger
import Mathlib.Algebra.Group.Pi.Lemmas

/-! The recordings of the three byte modes, side by side. One predicate selects the
instructions of a mode and another one sorts their references into reads and writes. -/
namespace Roofline.Correctness
open Client Library
variable {τ ι : Type}

/-- The runs that are compared: one for each mode, and one more that looks only at the
instructions that both read and write memory. -/
inductive Recording where
  | everything
  | readBytesOnly
  | writeBytesOnly
  | readModifyWrite
  deriving DecidableEq, Repr

namespace Recording

def opts (o : Options) : Recording → Options
  | everything => { o with readBytesOnly := false, writeBytesOnly := false }
  | readBytesOnly => { o with readBytesOnly := true, writeBytesOnly := false }
  | writeBytesOnly => { o with readBytesOnly := false, writeBytesOnly := true }
  | readModifyWrite => { o with readBytesOnly := false, writeBytesOnly := false }

def view : Recording → Instr ι → Instr ι
  | readModifyWrite, i => { i with
      readsMemory := i.readsMemory && i.writesMemory
      writesMemory := i.readsMemory && i.writesMemory }
  | _, i => i

def events (r : Recording) (o : Options) (build : Build ι) (order : WrapOrder)
    (xs : List (Execution τ ι)) : List (Event τ) :=
  blockEvents (r.opts o) build order (xs.map fun x => { x with block := x.block.map r.view })

/-- The points that the run writes. -/
def points [Zero τ] (r : Recording) (o : Options) (build : Build ι) (order : WrapOrder)
    (xs : List (Execution τ ι)) : List (Point τ) :=
  finalPoints (r.opts o) (r.events o build order xs)

variable (r : Recording)

@[simp] theorem opts_merged (o : Options) : (r.opts o).merged = o.merged := by cases r <;> rfl
@[simp] theorem opts_timeRun (o : Options) : (r.opts o).timeRun = o.timeRun := by cases r <;> rfl
private theorem view_isApp (i : Instr ι) : (r.view i).isApp = i.isApp := by cases r <;> rfl
private theorem view_op (i : Instr ι) : (r.view i).op = i.op := by cases r <;> rfl

private theorem view_isExclusiveStore (i : Instr ι) :
    (r.view i).isExclusiveStore = i.isExclusiveStore := by
  cases r <;> rfl

end Recording

/-- What a block does, whatever is recorded: the instructions that are reached, and the
events that no mode changes. -/
inductive Probe (τ ι : Type) where
  | access (i : Instr ι)
  | event (ev : Event τ)

def probes (build : Build ι) (order : WrapOrder) (x : Execution τ ι) : List (Probe τ ι) :=
  match x.block with
  | [] => x.callbacks.map .event
  | i :: rest =>
    .access i ::
      (match order with
        | .afterCleanCall => cleanCallCode build x.block i ++ x.callbacks
        | .beforeCleanCall => x.callbacks ++ cleanCallCode build x.block i).map .event ++
      rest.map .access

/-- The amount that an instruction defers. -/
def share (opts : Options) (i : Instr ι) : Tally :=
  if i.isApp && instrumented opts i then refTally (instrumentInstr i) else 0

section probes
variable (r : Recording) (opts : Options) (build : Build ι) (order : WrapOrder)

def emit : Probe τ ι → List (Event τ)
  | .access i => appendCode (r.opts opts) (r.view i)
  | .event ev => [ev]

def probeEntry : Probe τ ι → Entry Tally
  | .access i => .deferring (share (r.opts opts) (r.view i))
  | .event ev => entryOf opts ev

/-- The entry of a probe in the ledgers of all runs at once. -/
def jointEntry (opts : Options) : Probe τ ι → Entry (Recording → Tally)
  | .access i => .deferring fun r => share (r.opts opts) (r.view i)
  | .event ev => (entryOf opts ev).map (Pi.constAddMonoidHom Recording Tally)

private theorem cleanCallCode_view (bb : List (Instr ι)) (i : Instr ι) :
    cleanCallCode (τ := τ) build (bb.map r.view) (r.view i) = cleanCallCode build bb i := by
  have hcount : fpInstrCount build (bb.map r.view) = fpInstrCount build bb := by
    rw [fpInstrCount, List.filter_map, List.foldl_map, fpInstrCount]
    simp only [Recording.view_op, Function.comp_def, Recording.view_isApp]
  rw [cleanCallCode, cleanCallCode, hcount, Recording.view_isApp, Recording.view_isExclusiveStore]

private theorem events_eq_probes (ht : opts.timeRun = false) (x : Execution τ ι) :
    Execution.events (r.opts opts) build order { x with block := x.block.map r.view } =
      (probes build order x).flatMap (emit r opts) := by
  have hevents (es : List (Event τ)) :
      (es.map (Probe.event : Event τ → Probe τ ι)).flatMap (emit r opts) = es := by
    induction es with
    | nil => rfl
    | cons ev es ih => rw [List.map_cons, List.flatMap_cons, ih]; rfl
  have haccesses (is : List (Instr ι)) :
      (is.map (Probe.access (τ := τ))).flatMap (emit r opts) =
        (((is.map r.view).filter fun i => i.isApp && instrumented (r.opts opts) i).map
          instrumentInstr).map .saveRef := by
    induction is with
    | nil => rfl
    | cons i is ih =>
      rw [List.map_cons, List.flatMap_cons, ih, List.map_cons]
      cases hi : (r.view i).isApp && instrumented (r.opts opts) (r.view i) <;>
        simp [emit, appendCode, hi]
  rcases x with ⟨_ | ⟨i, rest⟩, callback⟩
  · rw [Execution.events, Recording.opts_timeRun, ht, if_neg Bool.false_ne_true, probes, hevents]
    rfl
  · have hclean := cleanCallCode_view r build (i :: rest) i (τ := τ)
    rw [List.map_cons] at hclean
    rw [Execution.events_cons (by rwa [Recording.opts_timeRun]) (List.map_cons ..)]
    cases order <;>
      simp only [probes, Execution.restRefs, Execution.callbacks, hclean, List.map_cons, List.drop_succ_cons,
        List.drop_zero, List.cons_append, List.flatMap_cons, List.flatMap_append, haccesses, hevents,
        emit, List.append_assoc]

/-- The ledger of a run, probe by probe. -/
theorem run_emit (ps : List (Probe τ ι)) :
    Ledger.run (entries (r.opts opts) (ps.flatMap (emit r opts))) =
      Ledger.run (ps.map (probeEntry r opts)) := by
  have hentry (ev : Event τ) : entryOf (r.opts opts) ev = entryOf opts ev := by
    cases ev <;> simp [entryOf]
  induction ps using List.reverseRecOn with
  | nil => rfl
  | append_singleton ps p ih =>
    rw [List.flatMap_append, List.map_append, entries, List.map_append, Ledger.run_append, List.map_singleton,
      Ledger.run_snoc, ← ih]
    cases p with
    | event ev => simp [emit, probeEntry, hentry, entries]
    | access i =>
      rw [probeEntry, Ledger.step_deferring, share, List.flatMap_singleton, emit, appendCode]
      split_ifs with hi
      · rfl
      · rw [Ledger.postpone_zero]
        rfl

private theorem jointEntry_eval (p : Probe τ ι) :
    (jointEntry opts p).map (Pi.evalAddMonoidHom (fun _ => Tally) r) = probeEntry r opts p := by
  cases p with
  | access i => rfl
  | event ev => cases ev <;> rfl

/-- Each account of a run is one component of the joint account. -/
theorem book_recording (ht : opts.timeRun = false) (xs : List (Execution τ ι)) (j : ℕ) :
    (Ledger.run (entries (r.opts opts) (r.events opts build order xs))).book j =
      (Ledger.run ((xs.flatMap (probes build order)).map (jointEntry opts))).book j r := by
  have hevents : r.events opts build order xs =
      (xs.flatMap (probes build order)).flatMap (emit r opts) := by
    rw [Recording.events, blockEvents, List.flatMap_map, List.flatMap_assoc]
    exact List.flatMap_congr fun x _ => events_eq_probes r opts build order ht x
  have hproj : (xs.flatMap (probes build order)).map (probeEntry r opts) =
      ((xs.flatMap (probes build order)).map (jointEntry opts)).map
        (Entry.map (Pi.evalAddMonoidHom (fun _ => Tally) r)) := by
    rw [List.map_map]
    exact List.map_congr_left fun p _ => (jointEntry_eval r opts p).symm
  rw [hevents, run_emit, hproj, ← Ledger.map_run, Ledger.map_book]
  rfl

end probes

/-- What the runs have to do with each other, for the amounts of a single reference and thus for
all amounts. The references of the write run are the written ones of the default run and, sorted
as reads, those of the instructions that also read. -/
def agreeing : AddSubmonoid (Recording → Tally) where
  carrier := {t | (t .readBytesOnly).bytes = (t .everything).reads ∧
    (t .writeBytesOnly).bytes = (t .everything).writes + (t .writeBytesOnly).reads ∧
    (t .writeBytesOnly).writes = (t .everything).writes ∧
    (t .writeBytesOnly).reads = (t .readModifyWrite).reads}
  zero_mem' := ⟨rfl, rfl, rfl, rfl⟩
  add_mem' := by
    rintro a b ⟨ha, ha', ha'', ha'''⟩ ⟨hb, hb', hb'', hb'''⟩
    simp only [Set.mem_ofPred_eq, Pi.add_apply, Tally.bytes_add, Tally.reads_add, Tally.writes_add]
    omega

private theorem mem_agreeing {t : Recording → Tally} : t ∈ agreeing ↔
    (t .readBytesOnly).bytes = (t .everything).reads ∧
      (t .writeBytesOnly).bytes = (t .everything).writes + (t .writeBytesOnly).reads ∧
      (t .writeBytesOnly).writes = (t .everything).writes ∧
      (t .writeBytesOnly).reads = (t .readModifyWrite).reads :=
  Iff.rfl

private theorem share_mem (opts : Options) (i : Instr ι) :
    (fun r : Recording => share (r.opts opts) (r.view i)) ∈ agreeing := by
  rw [mem_agreeing]
  rcases i with ⟨isApp, reads, writes, size, ex, op⟩
  cases isApp <;> cases reads <;> cases writes <;>
    simp [share, Recording.view, Recording.opts, instrumented, instrumentInstr, refTally]

/-- No event that all modes share is a reference. -/
theorem isRef_of_mem_probes {build : Build ι} {order : WrapOrder} {x : Execution τ ι} {ev : Event τ}
    (h : .event ev ∈ probes build order x) : ev.isRef = false := by
  have hcallback : ev ∈ x.callbacks → ev.isRef = false := by
    intro hev
    have hcb := Execution.isCallback_of_mem hev
    cases ev <;> simp_all [Event.isCallback, Event.isStart, Event.isEnd, Event.isRef]
  have hclean (bb : List (Instr ι)) (i : Instr ι) : ev ∈ cleanCallCode build bb i → ev.isRef = false := by
    rw [cleanCallCode]
    intro hev
    split_ifs at hev
    · obtain rfl := List.mem_singleton.mp hev
      rfl
    · cases hev
  rw [probes] at h
  cases hblock : x.block with
  | nil => exact hcallback (by simpa [hblock] using h)
  | cons i rest =>
    have hev : ev ∈ cleanCallCode build x.block i ∨ ev ∈ x.callbacks := by
      cases order with
      | afterCleanCall => simpa [hblock] using h
      | beforeCleanCall => simpa [hblock, or_comm] using h
    exact hev.elim (hclean x.block i) hcallback

/-- The joint accounts relate the runs. -/
theorem book_mem_agreeing (opts : Options) (ps : List (Probe τ ι))
    (h : ∀ ev, .event ev ∈ ps → ev.isRef = false) (j : ℕ) :
    (Ledger.run (ps.map (jointEntry opts))).book j ∈ agreeing := by
  apply Ledger.book_mem
  intro e he
  obtain ⟨p, hp, rfl⟩ := List.mem_map.mp he
  cases p with
  | access i => exact ⟨by simp [jointEntry, Entry.deferring], share_mem opts i⟩
  | event ev =>
    cases ev with
    | roiInit cxt now => exact ⟨by simp [jointEntry, entryOf, Entry.map, Entry.turning], agreeing.zero_mem⟩
    | roiEnd cxt now => exact ⟨by simp [jointEntry, entryOf, Entry.map, Entry.turning], agreeing.zero_mem⟩
    | cleanCall n =>
      refine ⟨?_, agreeing.zero_mem⟩
      intro m hm
      obtain rfl := Option.some.inj hm
      exact ⟨rfl, rfl, rfl, rfl⟩
    | saveRef r => cases h _ hp

section points
variable (opts : Options) (build : Build ι) (order : WrapOrder) (xs : List (Execution τ ι))

private theorem filter_recording (r : Recording) :
    (r.events opts build order xs).filter Event.isCallback = callbacksOf xs := by
  rw [Recording.events, blockEvents, List.flatMap_map, callbacksOf]
  induction xs with
  | nil => rfl
  | cons x xs ih => rw [List.flatMap_cons, List.flatMap_cons, List.filter_append, Execution.filter_events, ih]; rfl

variable [Zero τ]

/-- The one point of a run holds its component of the joint account. -/
theorem points_recording (ht : opts.timeRun = false) (h : Alternating false (callbacksOf xs))
    (hone : regionCount opts (callbacksOf xs) = 1) (r : Recording) :
    ∃ p, r.points opts build order xs = [p] ∧
      Holds p ((Ledger.run ((xs.flatMap (probes build order)).map (jointEntry opts))).book 0 r) ∧
      HoldsKinds p ((Ledger.run ((xs.flatMap (probes build order)).map (jointEntry opts))).book 0 r) := by
  have halt : Alternating false (r.events opts build order xs) := by
    rwa [← alternating_filter, filter_recording]
  have hlen : (r.points opts build order xs).length = 1 := by
    rw [Recording.points, finalPoints_length, ← hone, regionCount, regionCount, Recording.opts_merged,
      ← countP_isEnd_filter, filter_recording]
  obtain ⟨p, hp⟩ := List.length_eq_one_iff.mp hlen
  have hget : (r.points opts build order xs)[0]? = some p := by rw [hp]; rfl
  refine ⟨p, hp, ?_, ?_⟩
  · rw [← book_recording r opts build order ht]
    exact finalPoints_hold _ _ hget
  · have hkinds := finalPoints_holdKinds _ _ (keeps_entries _ _ halt) hget
    rwa [Finset.sum_range_one, book_recording r opts build order ht] at hkinds

/-- The three modes agree on the one point of a run. -/
def ModesAgree : Prop :=
  ∃ p r w : Point τ,
    Recording.everything.points opts build order xs = [p] ∧
      Recording.readBytesOnly.points opts build order xs = [r] ∧
      Recording.writeBytesOnly.points opts build order xs = [w] ∧
      r.bytes = p.readBytes ∧ w.bytes = p.writeBytes ∧ w.readBytes = 0 ∧ w.writeBytes = w.bytes

omit [Zero τ] in
/-- The bytes that the instructions which both read and write memory move inside the region. -/
def readModifyWriteBytes : ℕ :=
  drainedKind opts (Recording.readModifyWrite.events opts build order xs) 0 0

/-- An instruction that both reads and writes memory is selected by either mode, but it counts
as a read: the modes agree if such instructions move nothing. -/
theorem modesAgree_iff (ht : opts.timeRun = false) (h : Alternating false (callbacksOf xs))
    (hone : regionCount opts (callbacksOf xs) = 1) :
    ModesAgree opts build order xs ↔ readModifyWriteBytes opts build order xs % 2 ^ 64 = 0 := by
  obtain ⟨p, hp, -, hpk⟩ := points_recording opts build order xs ht h hone .everything
  obtain ⟨r, hr, hrb, -⟩ := points_recording opts build order xs ht h hone .readBytesOnly
  obtain ⟨w, hw, hwb, hwk⟩ := points_recording opts build order xs ht h hone .writeBytesOnly
  have hmoved : ((Ledger.run ((xs.flatMap (probes build order)).map (jointEntry opts))).book 0
      .readModifyWrite).reads = readModifyWriteBytes opts build order xs := by
    have halt : Alternating false (Recording.readModifyWrite.events opts build order xs) := by
      rwa [← alternating_filter, filter_recording]
    rw [← book_recording .readModifyWrite opts build order ht,
      (Ledger.run_accounts _ (keeps_entries _ _ halt)).1, (account_kinds _ _ 0).1]
    rfl
  obtain ⟨h1, h2, h3, h4⟩ := book_mem_agreeing opts (xs.flatMap (probes build order)) (by
    intro ev hev
    obtain ⟨x, -, hx⟩ := List.mem_flatMap.mp hev
    exact isRef_of_mem_probes hx) 0
  generalize (Ledger.run ((xs.flatMap (probes build order)).map (jointEntry opts))).book 0 = t at *
  have hreads : w.readBytes = UInt64.ofNat (readModifyWriteBytes opts build order xs) := by
    rw [hwk.reads, h4, hmoved]
  have hzero : UInt64.ofNat (readModifyWriteBytes opts build order xs) = 0 ↔
      readModifyWriteBytes opts build order xs % 2 ^ 64 = 0 := by
    rw [← UInt64.toNat_inj, UInt64.toNat_ofNat']
    rfl
  rw [← hzero, ← hreads]
  constructor
  · rintro ⟨p', r', w', -, -, hw', -, -, hw0, -⟩
    obtain rfl := List.singleton_inj.mp (hw.symm.trans hw')
    exact hw0
  · intro hw0
    have hwbytes : w.bytes = w.writeBytes := by
      rw [hwb.bytes, hwk.writes, h2, h3, UInt64.ofNat_add, ← hwk.reads, hw0, add_zero]
    refine ⟨p, r, w, hp, hr, hw, ?_, ?_, hw0, hwbytes.symm⟩
    · rw [hrb.bytes, hpk.reads, h1]
    · rw [hwbytes, hwk.writes, hpk.writes, h3]

end points

def regionAround (i : Instr ℕ) : List (Execution ℕ ℕ) :=
  [⟨[⟨true, false, false, 0, false, 0⟩, i], some ⟨.roiInit ⟨"add", 1, "f.c"⟩ 0, rfl⟩⟩,
    ⟨[⟨true, false, false, 0, false, 0⟩], none⟩,
    ⟨[⟨true, false, false, 0, false, 0⟩], some ⟨.roiEnd ⟨"add", 2, "f.c"⟩ 0, rfl⟩⟩]

theorem modesAgree_iff_regionAround_store :
    ModesAgree {} ⟨false, UInt32.ofNat⟩ .afterCleanCall (regionAround ⟨true, false, true, 8, false, 0⟩) ↔
      readModifyWriteBytes {} ⟨false, UInt32.ofNat⟩ .afterCleanCall
        (regionAround ⟨true, false, true, 8, false, 0⟩) % 2 ^ 64 = 0 :=
  modesAgree_iff {} _ .afterCleanCall _ rfl (by decide) (by decide)

/-- An addition to memory of eight bytes: the write run counts it as a read. -/
theorem regionAround_add_not_agree :
    Alternating false (callbacksOf (regionAround ⟨true, true, true, 8, false, 0⟩)) ∧
      regionCount {} (callbacksOf (regionAround ⟨true, true, true, 8, false, 0⟩)) = 1 ∧
      ¬ ModesAgree {} ⟨false, UInt32.ofNat⟩ .afterCleanCall (regionAround ⟨true, true, true, 8, false, 0⟩) := by
  refine ⟨by decide, by decide, ?_⟩
  rintro ⟨p, r, w, -, -, hw, -, -, hreads, -⟩
  obtain rfl := List.singleton_inj.mp hw
  exact absurd hreads (by decide)

end Roofline.Correctness
