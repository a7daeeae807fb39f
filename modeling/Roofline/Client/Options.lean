import Mathlib.Data.UInt

/-! The command line of the client and the arguments of its callbacks (client/main.cpp). -/
namespace Roofline.Client

/-- The options of the client. The last two fields are its own assertions: the ones
dr_client_main makes about the delimiters, and the one in get_label_and_assign_id. -/
structure Options where
  readBytesOnly : Bool := false
  writeBytesOnly : Bool := false
  timeRun : Bool := false
  roiStart : String := ""
  roiEnd : String := ""
  traceF : String := ""
  callsAsSeparateRoi : Bool := false
  delimiters : roiStart ≠ "" ∨ roiEnd ≠ "" → roiStart ≠ "" ∧ roiEnd ≠ "" ∧ traceF = "" := by decide
  separate : callsAsSeparateRoi = true → traceF ≠ "" := by decide

/-- The calls of the traced function are merged into one region. -/
def Options.merged (opts : Options) : Bool := !opts.callsAsSeparateRoi && opts.traceF != ""

/-- What drwrap_get_arg returns for the arguments 0, 1 and 2 of the wrapped function. -/
structure WrapCxt where
  arg0 : String
  arg1 : UInt64
  arg2 : String
  deriving DecidableEq, Repr

def getLabel (cxt : WrapCxt) (userDefinedDelimiter : String) : String :=
  if userDefinedDelimiter ≠ "" then userDefinedDelimiter else cxt.arg0

def getLineN (cxt : WrapCxt) (userDefinedDelimiter : String) : UInt32 :=
  if userDefinedDelimiter ≠ "" then 0 else cxt.arg1.toUInt32

def getSrcFileName (cxt : WrapCxt) (userDefinedDelimiter : String) : String :=
  if userDefinedDelimiter ≠ "" then "" else cxt.arg2

end Roofline.Client
