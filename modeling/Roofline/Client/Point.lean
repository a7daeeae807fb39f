import Mathlib.Data.UInt

/-! The record kept for one region of interest (client/point.hpp, client/point.cpp).
Times are generic: the client only copies clock readings until a point is written. -/
namespace Roofline.Client

/-- One entry of the memory reference buffer: a size and a kind, 0 read or 1 written. -/
structure MemRef where
  size : UInt16
  type : UInt16
  deriving DecidableEq, Repr

structure Point (τ : Type) where
  label : String
  srcFileStart : String
  srcFileEnd : String
  lineNumberStart : UInt32
  lineNumberEnd : UInt32
  flops : UInt64
  bytes : UInt64
  readBytes : UInt64
  writeBytes : UInt64
  startTime : τ
  endTime : τ
  deriving DecidableEq, Repr

namespace Point
variable {τ : Type}

def new [Zero τ] : Point τ := ⟨"", "", "", 0, 0, 0, 0, 0, 0, 0, 0⟩

def setLabel (p : Point τ) (roiLabel : String) : Point τ := { p with label := roiLabel }
def setLineStart (p : Point τ) (srcLine : UInt32) : Point τ := { p with lineNumberStart := srcLine }
def setLineEnd (p : Point τ) (srcLine : UInt32) : Point τ := { p with lineNumberEnd := srcLine }
def setSrcFileStart (p : Point τ) (srcFile : String) : Point τ := { p with srcFileStart := srcFile }
def setSrcFileEnd (p : Point τ) (srcFile : String) : Point τ := { p with srcFileEnd := srcFile }
def setStart (p : Point τ) (timeStart : τ) : Point τ := { p with startTime := timeStart }
def setEnd (p : Point τ) (timeEnd : τ) : Point τ := { p with endTime := timeEnd }

def updateReadBytes (p : Point τ) (bytesAccessed : UInt16) : Point τ :=
  { p with readBytes := p.readBytes + bytesAccessed.toUInt64 }

def updateWriteBytes (p : Point τ) (bytesAccessed : UInt16) : Point τ :=
  { p with writeBytes := p.writeBytes + bytesAccessed.toUInt64 }

def updateBytes (p : Point τ) (bytesAccessed : UInt16) : Point τ :=
  { p with bytes := p.bytes + bytesAccessed.toUInt64 }

/-- The int is converted to unsigned long long, that is, reduced modulo 2^64. -/
def updateFpCount (p : Point τ) (fpCount : Int32) : Point τ :=
  { p with flops := p.flops + UInt64.ofInt fpCount.toInt }

/-- Unlike the constructor, this leaves the read and written bytes alone. -/
def reset [Zero τ] (p : Point τ) : Point τ :=
  { p with
    startTime := 0
    endTime := 0
    label := ""
    srcFileStart := ""
    srcFileEnd := ""
    lineNumberStart := 0
    lineNumberEnd := 0
    flops := 0
    bytes := 0 }

/-- One iteration of the loop in ThreadData::save_bytes. -/
def countRef (p : Point τ) (r : MemRef) : Point τ :=
  let p := p.updateBytes r.size
  if r.type = 0 then p.updateReadBytes r.size
  else if r.type = 1 then p.updateWriteBytes r.size
  else p

def elapsed [Sub τ] (p : Point τ) : τ := p.endTime - p.startTime

end Point

/-- The part of a point that the callbacks record; no reference and no count touches it. -/
structure Region (τ : Type) where
  label : String
  srcFileStart : String
  srcFileEnd : String
  lineNumberStart : UInt32
  lineNumberEnd : UInt32
  startTime : τ
  endTime : τ
  deriving DecidableEq, Repr

namespace Point
variable {τ : Type}

def region (p : Point τ) : Region τ :=
  ⟨p.label, p.srcFileStart, p.srcFileEnd, p.lineNumberStart, p.lineNumberEnd, p.startTime, p.endTime⟩

@[simp] theorem region_updateFpCount (p : Point τ) (n : Int32) :
    (p.updateFpCount n).region = p.region := rfl

@[simp] theorem region_countRef (p : Point τ) (r : MemRef) : (p.countRef r).region = p.region := by
  simp only [countRef, updateBytes, updateReadBytes, updateWriteBytes]
  split_ifs <;> rfl

@[simp] theorem region_foldl_countRef (refs : List MemRef) (p : Point τ) :
    (refs.foldl countRef p).region = p.region := by
  induction refs generalizing p with
  | nil => rfl
  | cons r refs ih => rw [List.foldl_cons, ih, region_countRef]

@[simp] theorem flops_countRef (p : Point τ) (r : MemRef) : (p.countRef r).flops = p.flops := by
  simp only [countRef, updateBytes, updateReadBytes, updateWriteBytes]
  split_ifs <;> rfl

@[simp] theorem flops_foldl_countRef (refs : List MemRef) (p : Point τ) :
    (refs.foldl countRef p).flops = p.flops := by
  induction refs generalizing p with
  | nil => rfl
  | cons r refs ih => rw [List.foldl_cons, ih, flops_countRef]

end Point
end Roofline.Client
