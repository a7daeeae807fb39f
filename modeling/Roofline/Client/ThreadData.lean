import Roofline.Client.Point

/-! The data of the traced thread (client/thread_data.hpp, client/thread_data.cpp).
The buffer is the list of entries between buf_base and the stored write position;
the warnings are what save_point has printed, each with the two labels it names. -/
namespace Roofline.Client

def maxNumMemRefs : ℕ := 4096

structure ThreadData (τ : Type) where
  pointList : List (Point τ)
  curPoint : Point τ
  buf : List MemRef
  warnings : List (String × String)
  deriving DecidableEq, Repr

namespace ThreadData
variable {τ : Type}

def new [Zero τ] : ThreadData τ := ⟨[], .new, [], []⟩

/-- The inserted code: write an entry and advance the write position. -/
def appendRef (data : ThreadData τ) (r : MemRef) : ThreadData τ := { data with buf := data.buf ++ [r] }

def saveFloatingPoints (data : ThreadData τ) (fpCount : Int32) : ThreadData τ :=
  { data with curPoint := data.curPoint.updateFpCount fpCount }

def setTimeStart (data : ThreadData τ) (timeStart : τ) : ThreadData τ :=
  { data with curPoint := data.curPoint.setStart timeStart }

def setTimeEnd (data : ThreadData τ) (timeEnd : τ) : ThreadData τ :=
  { data with curPoint := data.curPoint.setEnd timeEnd }

def saveBytes (data : ThreadData τ) : ThreadData τ :=
  { data with
    curPoint := data.buf.foldl Point.countRef data.curPoint
    buf := [] }

def cleanBuffer (data : ThreadData τ) : ThreadData τ := { data with buf := [] }

def savePoint [Zero τ] (data : ThreadData τ) (label : String) (line : UInt32) (srcFile : String) :
    ThreadData τ :=
  let point := (data.curPoint.setLineEnd line).setSrcFileEnd srcFile
  { data with
    warnings := data.warnings ++
      if data.curPoint.label ≠ label ∧ label ≠ "" then [(data.curPoint.label, label)] else []
    pointList := data.pointList ++ [point]
    curPoint := point.reset }

def newPoint [Zero τ] (data : ThreadData τ) (label : String) (line : UInt32) (srcFile : String) :
    ThreadData τ :=
  { data with
    curPoint := ((data.curPoint.reset.setLabel label).setLineStart line).setSrcFileStart srcFile }

end ThreadData
end Roofline.Client
