import Roofline.Correctness.ReportedScript

/-! Where the labels of the points end up in the script. They are meant for the place behind the
output, but they go behind every line that mentions it. -/
namespace Roofline.Correctness
open Library Report
variable {D F : Type}

section words

end words

section placed
variable (tool : Tool D F) (plotted : List (Host.Plotted F))

end placed

end Roofline.Correctness
