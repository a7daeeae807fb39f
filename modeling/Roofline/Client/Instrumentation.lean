import Roofline.Client.Trace

/-! The code that is inserted into a basic block, and the events of executing it
(client/main.cpp). -/
namespace Roofline.Client

/-- What the client asks about an instruction; op is what count_fp_instr looks at. -/
structure Instr (ι : Type) where
  isApp : Bool
  readsMemory : Bool
  writesMemory : Bool
  memoryReferenceSize : UInt32
  isExclusiveStore : Bool
  op : ι
  deriving DecidableEq, Repr

/-- The target that the client is built for, with its count_fp.hpp. -/
structure Build (ι : Type) where
  aarchxx : Bool
  countFpInstr : ι → UInt32

variable {τ ι : Type}

/-- The entry that the inserted code writes. Only instructions that read or write get here. -/
def instrumentInstr (i : Instr ι) : MemRef where
  size := i.memoryReferenceSize.toUInt16
  type := if i.readsMemory then 0 else 1

/-- The mode selection of event_app_instruction. -/
def instrumented (opts : Options) (i : Instr ι) : Bool :=
  if opts.readBytesOnly then i.readsMemory
  else if opts.writeBytesOnly then i.writesMemory
  else i.readsMemory || i.writesMemory

/-- The count over the application instructions of the block, as an uint32_t. -/
def fpInstrCount (build : Build ι) (bb : List (Instr ι)) : UInt32 :=
  (bb.filter (·.isApp)).foldl (fun count i => count + build.countFpInstr i.op) 0

def appendCode (opts : Options) (i : Instr ι) : List (Event τ) :=
  if i.isApp && instrumented opts i then [.saveRef (instrumentInstr i)] else []

def cleanCallCode (build : Build ι) (bb : List (Instr ι)) (i : Instr ι) : List (Event τ) :=
  if i.isApp && !(build.aarchxx && i.isExclusiveStore) then [.cleanCall (fpInstrCount build bb).toInt32] else []

/-- The code inserted before instruction number k of the block. -/
def eventAppInstruction (opts : Options) (build : Build ι) (bb : List (Instr ι)) (k : ℕ) (i : Instr ι) :
    List (Event τ) :=
  appendCode opts i ++ if k = 0 then cleanCallCode build bb i else []

/-- Where the call of a wrapped function's callback stands at the head of a block. -/
inductive WrapOrder where
  | afterCleanCall
  | beforeCleanCall
  deriving DecidableEq, Repr

/-- One execution of a basic block, with the callback attached to its head, if any. -/
structure Execution (τ ι : Type) where
  block : List (Instr ι)
  callback : Option {ev : Event τ // ev.isCallback = true}

namespace Execution

def callbacks (x : Execution τ ι) : List (Event τ) := (x.callback.map Subtype.val).toList

/-- The inserted code in the order in which it is executed; a time run inserts none. -/
def events (opts : Options) (build : Build ι) (order : WrapOrder) (x : Execution τ ι) :
    List (Event τ) :=
  if opts.timeRun then x.callbacks
  else match x.block with
    | [] => x.callbacks
    | i :: rest =>
      (match order with
        | .afterCleanCall => eventAppInstruction opts build x.block 0 i ++ x.callbacks
        | .beforeCleanCall => appendCode opts i ++ x.callbacks ++ cleanCallCode build x.block i) ++
      (rest.zipIdx 1).flatMap fun p => eventAppInstruction opts build x.block p.2 p.1

/-- The head of the block has received the clean call. -/
def HeadCalled (opts : Options) (build : Build ι) (x : Execution τ ι) : Prop :=
  opts.timeRun = false ∧ ∃ i, x.block.head? = some i ∧ i.isApp = true ∧
    (build.aarchxx && i.isExclusiveStore) = false

def fpCount (build : Build ι) (x : Execution τ ι) : Int32 := (fpInstrCount build x.block).toInt32

/-- The reference of the first instruction, appended before the clean call. -/
def firstRefs (opts : Options) (x : Execution τ ι) : List MemRef :=
  ((x.block.take 1).filter fun i => i.isApp && instrumented opts i).map instrumentInstr

def restRefs (opts : Options) (x : Execution τ ι) : List MemRef :=
  ((x.block.drop 1).filter fun i => i.isApp && instrumented opts i).map instrumentInstr

private theorem flatMap_eventAppInstruction (opts : Options) (build : Build ι) (bb is : List (Instr ι))
    (k : ℕ) :
    (is.zipIdx (k + 1)).flatMap (fun p => eventAppInstruction opts build bb p.2 p.1) =
      ((is.filter fun i => i.isApp && instrumented opts i).map instrumentInstr).map
        (.saveRef : MemRef → Event τ) := by
  induction is generalizing k with
  | nil => rfl
  | cons i is ih =>
    rw [List.zipIdx_cons, List.flatMap_cons, ih]
    cases hi : i.isApp && instrumented opts i <;> simp [eventAppInstruction, appendCode, hi]

/-- The events of a block in a run that is instrumented. -/
theorem events_cons {opts : Options} {build : Build ι} {x : Execution τ ι} {i : Instr ι}
    {rest : List (Instr ι)} (ht : opts.timeRun = false) (hblock : x.block = i :: rest) (order : WrapOrder) :
    x.events opts build order = appendCode opts i ++
      (match order with
        | .afterCleanCall => cleanCallCode build x.block i ++ x.callbacks
        | .beforeCleanCall => x.callbacks ++ cleanCallCode build x.block i) ++
      (x.restRefs opts).map .saveRef := by
  have hrest : (rest.zipIdx 1).flatMap (fun p => eventAppInstruction opts build (i :: rest) p.2 p.1) =
      (x.restRefs opts).map (.saveRef : MemRef → Event τ) := by
    rw [flatMap_eventAppInstruction opts build (i :: rest) rest 0]
    simp [restRefs, hblock]
  have hhead : eventAppInstruction (τ := τ) opts build (i :: rest) 0 i =
      appendCode opts i ++ cleanCallCode build (i :: rest) i := rfl
  simp only [events, ht, Bool.false_eq_true, if_false, hblock, hrest, hhead]
  cases order <;> simp

private theorem HeadCalled.exists_head {opts : Options} {build : Build ι} {x : Execution τ ι}
    (h : x.HeadCalled opts build) :
    ∃ i rest, x.block = i :: rest ∧ appendCode (τ := τ) opts i = (x.firstRefs opts).map .saveRef ∧
      cleanCallCode (τ := τ) build x.block i = [.cleanCall (x.fpCount build)] := by
  obtain ⟨-, i, hi, happ, hex⟩ := h
  obtain ⟨rest, hblock⟩ := List.head?_eq_some_iff.mp hi
  refine ⟨i, rest, hblock, ?_, ?_⟩
  · cases hi' : instrumented opts i <;> simp [appendCode, firstRefs, hblock, happ, hi']
  · simp [cleanCallCode, happ, hex, fpCount]

/-- The events of a block whose head has received its clean call. -/
theorem events_eq {opts : Options} {build : Build ι} {x : Execution τ ι} (h : x.HeadCalled opts build)
    (order : WrapOrder) :
    x.events opts build order = (x.firstRefs opts).map .saveRef ++
      (match order with
        | .afterCleanCall => .cleanCall (x.fpCount build) :: x.callbacks
        | .beforeCleanCall => x.callbacks ++ [.cleanCall (x.fpCount build)]) ++
      (x.restRefs opts).map .saveRef := by
  obtain ⟨i, rest, hblock, hfirst, hclean⟩ := h.exists_head
  rw [events_cons h.1 hblock, hfirst, hclean]
  rfl

theorem isCallback_of_mem {x : Execution τ ι} {ev : Event τ} (h : ev ∈ x.callbacks) :
    ev.isCallback = true := by
  obtain ⟨⟨cb, hcb⟩, -, rfl⟩ := Option.map_eq_some_iff.mp (Option.mem_toList.mp h)
  exact hcb

/-- The inserted code is no callback. -/
theorem filter_events (opts : Options) (build : Build ι) (order : WrapOrder) (x : Execution τ ι) :
    (x.events opts build order).filter Event.isCallback = x.callbacks := by
  have hkeep : x.callbacks.filter Event.isCallback = x.callbacks :=
    List.filter_eq_self.mpr fun _ => isCallback_of_mem
  have hrefs (refs : List MemRef) :
      (refs.map (.saveRef : MemRef → Event τ)).filter Event.isCallback = [] := by
    apply List.filter_eq_nil_iff.mpr
    intro ev hev
    obtain ⟨r, -, rfl⟩ := List.mem_map.mp hev
    exact Bool.false_ne_true
  cases ht : opts.timeRun with
  | true => rw [events, ht, if_pos rfl, hkeep]
  | false =>
    cases hblock : x.block with
    | nil => rw [events, ht, if_neg Bool.false_ne_true, hblock, hkeep]
    | cons i rest =>
      have hfirst : (appendCode (τ := τ) opts i).filter Event.isCallback = [] := by
        rw [appendCode]
        split_ifs <;> rfl
      have hclean : (cleanCallCode (τ := τ) build (i :: rest) i).filter Event.isCallback = [] := by
        rw [cleanCallCode]
        split_ifs <;> rfl
      rw [events_cons ht hblock, List.filter_append, List.filter_append, hrefs, hfirst, hblock]
      cases order <;> simp [hclean, hkeep]

end Execution

/-- The events of a run of executed blocks. -/
def blockEvents (opts : Options) (build : Build ι) (order : WrapOrder) (xs : List (Execution τ ι)) :
    List (Event τ) :=
  xs.flatMap (·.events opts build order)

/-- An execution of a block that may be cut short: of the instructions only some are reached,
at least the first one. -/
structure CutExecution (τ ι : Type) where
  execution : Execution τ ι
  reached : ℕ
  begun : 0 < reached

namespace CutExecution

/-- The inserted code of the instructions that are reached. -/
def events (opts : Options) (build : Build ι) (order : WrapOrder) (y : CutExecution τ ι) :
    List (Event τ) :=
  if opts.timeRun then y.execution.callbacks
  else match y.execution.block.take y.reached with
    | [] => y.execution.callbacks
    | i :: rest =>
      (match order with
        | .afterCleanCall => eventAppInstruction opts build y.execution.block 0 i ++ y.execution.callbacks
        | .beforeCleanCall =>
          appendCode opts i ++ y.execution.callbacks ++ cleanCallCode build y.execution.block i) ++
      (rest.zipIdx 1).flatMap fun p => eventAppInstruction opts build y.execution.block p.2 p.1

/-- An execution that reaches every instruction is complete. -/
theorem events_complete (opts : Options) (build : Build ι) (order : WrapOrder) (y : CutExecution τ ι)
    (h : y.execution.block.length ≤ y.reached) :
    y.events opts build order = y.execution.events opts build order := by
  unfold events Execution.events
  rw [List.take_of_length_le h]

def restRefs (opts : Options) (y : CutExecution τ ι) : List MemRef :=
  (((y.execution.block.take y.reached).drop 1).filter fun i => i.isApp && instrumented opts i).map
    instrumentInstr

/-- The events of a block that is cut short behind its clean call. -/
theorem events_eq {opts : Options} {build : Build ι} {y : CutExecution τ ι}
    (h : y.execution.HeadCalled opts build) (order : WrapOrder) :
    y.events opts build order = (y.execution.firstRefs opts).map .saveRef ++
      (match order with
        | .afterCleanCall => .cleanCall (y.execution.fpCount build) :: y.execution.callbacks
        | .beforeCleanCall => y.execution.callbacks ++ [.cleanCall (y.execution.fpCount build)]) ++
      (y.restRefs opts).map .saveRef := by
  obtain ⟨i, rest, hblock, hfirst, hclean⟩ := h.exists_head
  obtain ⟨n, hn⟩ : ∃ n, y.reached = n + 1 := Nat.exists_eq_succ_of_ne_zero y.begun.ne'
  have htaken : y.execution.block.take y.reached = i :: rest.take n := by
    rw [hblock, hn, List.take_succ_cons]
  have hrest : (((rest.take n).zipIdx 1).flatMap fun p =>
      eventAppInstruction opts build y.execution.block p.2 p.1) =
        (y.restRefs opts).map (.saveRef : MemRef → Event τ) := by
    rw [Execution.flatMap_eventAppInstruction opts build y.execution.block (rest.take n) 0, restRefs,
      htaken, List.drop_one, List.tail_cons]
  have hhead : eventAppInstruction (τ := τ) opts build y.execution.block 0 i =
      appendCode opts i ++ cleanCallCode build y.execution.block i := rfl
  simp only [events, h.1, Bool.false_eq_true, if_false, htaken, hrest, hhead, hfirst, hclean]
  cases order <;> simp

end CutExecution

def cutEvents (opts : Options) (build : Build ι) (order : WrapOrder) (ys : List (CutExecution τ ι)) :
    List (Event τ) :=
  ys.flatMap (·.events opts build order)

end Roofline.Client
