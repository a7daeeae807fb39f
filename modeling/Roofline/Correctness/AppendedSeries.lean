import Roofline.Library.Padding
import Roofline.Correctness.PlottedSeries

/-! The plot command of a report while references to data files are appended to it. Every
reference goes over the last byte of the file, which is the line end of the command first and
the blank that ends the reference before afterwards. -/
namespace Roofline.Correctness
open Library Report
variable {D F : Type} [DecidableEq D] {host : Host D F} {gnuplotFile : String} {x : Location D}

/-- What a reference adds to the plot command, for a name and a colour. -/
def clause (ref : String × ℤ) : String :=
  "'" ++ ref.1 ++ ".dat' title '" ++ ref.1 ++ "' with points ls " ++ toString ref.2

def continued (ref : String × ℤ) : String := ",\\\n" ++ clause ref

def addReferences (host : Host D F) (gnuplotFile : String) (refs : List (String × ℤ)) (files : Files D) :
    Except ReportError (Files D) :=
  refs.foldlM (fun files ref => host.addDatFileReference files gnuplotFile ref.1 ref.2) files

/-- The plot file behind some references; the line end of the base is its first padding. -/
def plotFile (base : String) (refs : List (String × ℤ)) : Padded :=
  refs.foldl (fun t ref => t.extend (continued ref) ' ' rfl) ⟨base, '\n', rfl⟩

private theorem plotFile_snoc (base : String) (refs : List (String × ℤ)) (ref : String × ℤ) :
    plotFile base (refs ++ [ref]) = (plotFile base refs).extend (continued ref) ' ' rfl := by
  rw [plotFile, List.foldl_append]
  rfl

private theorem plotFile_kept (base : String) (refs : List (String × ℤ)) :
    (plotFile base refs).kept = base ++ String.join (refs.map continued) := by
  induction refs using List.reverseRecOn with
  | nil => exact (String.append_empty).symm
  | append_singleton refs ref ih =>
    rw [plotFile_snoc, Padded.extend, ih, List.map_append, String.join_append, String.append_assoc]
    rfl

private theorem plotFile_pad (base : String) {refs : List (String × ℤ)} (hne : refs ≠ []) :
    (plotFile base refs).pad = ' ' := by
  induction refs using List.reverseRecOn with
  | nil => exact absurd rfl hne
  | append_singleton refs ref _ => rw [plotFile_snoc, Padded.extend]

def padding (refs : List (String × ℤ)) : String := if refs = [] then "\n" else " "

private theorem plotFile_text (base : String) (refs : List (String × ℤ)) :
    (plotFile base refs).text = base ++ String.join (refs.map continued) ++ padding refs := by
  rw [Padded.text, plotFile_kept, padding]
  by_cases hne : refs = []
  · subst hne
    rfl
  · rw [plotFile_pad base hne, if_neg hne]
    rfl

private theorem addDatFileReference_padded (hx : host.locate gnuplotFile = some x) {files : Files D} {t : Padded}
    (ht : files x = some (.file t.text)) (ref : String × ℤ) :
    host.addDatFileReference files gnuplotFile ref.1 ref.2 =
      .ok ((Write.put x (.file (t.extend (continued ref) ' ' rfl).text)).apply files) := by
  have hread : host.readFile files gnuplotFile = .ok t.text := (readFile_eq_ok hx).mpr ht
  have htext : t.kept ++ ",\\\n'" ++ ref.1 ++ ".dat' title '" ++ ref.1 ++ "' with points ls " ++
      toString ref.2 ++ " " = (t.extend (continued ref) ' ' rfl).text := by
    apply String.toList_injective
    simp [Padded.text, Padded.extend, continued, clause]
  have hfile : files x ≠ some .directory := by simp [ht]
  rw [Host.addDatFileReference, hread, ok_bind, if_neg t.text_ne_empty, t.ofList_dropLast, htext, Host.writeFile, hx]
  exact if_neg hfile

/-- The file behind all references is that of its base, extended by each of them. -/
theorem addReferences_text (hx : host.locate gnuplotFile = some x) {files : Files D} {base : String}
    (hbase : files x = some (.file (base ++ "\n"))) (refs : List (String × ℤ)) :
    ∃ files', addReferences host gnuplotFile refs files = .ok files' ∧
      files' x = some (.file (plotFile base refs).text) ∧ ∀ y, y ≠ x → files' y = files y := by
  induction refs using List.reverseRecOn with
  | nil => exact ⟨files, rfl, hbase, fun _ _ => rfl⟩
  | append_singleton refs ref ih =>
    obtain ⟨files', hrun, htext, hothers⟩ := ih
    have hstep := addDatFileReference_padded hx htext ref
    rw [← plotFile_snoc] at hstep
    refine ⟨(Write.put x (Node.file (plotFile base (refs ++ [ref])).text)).apply files', ?_, if_pos rfl, ?_⟩
    · rw [addReferences, List.foldlM_append, ← addReferences, hrun, ok_bind, List.foldlM_cons, hstep, ok_bind]
      rfl
    · intro y hy
      rw [Write.apply_of_ne (w := .put x _) files' hy, hothers y hy]

/-- Any number of references, one after the other, continue the plot command of the base. In bytes,
each of them replaces the padding that the one before it has left, and nothing else. -/
theorem addReferences_continue (hx : host.locate gnuplotFile = some x) {files : Files D} {base : String}
    (hbase : files x = some (.file (base ++ "\n"))) {refs : List (String × ℤ)} (hne : refs ≠ []) :
    ∃ files', addReferences host gnuplotFile refs files = .ok files' ∧
      files' x = some (.file (base ++ String.join (refs.map continued) ++ " ")) ∧
      (∀ y, y ≠ x → files' y = files y) ∧
      ∀ before ref after, refs = before ++ ref :: after →
        ∃ files₁ files₂ text₁ text₂, addReferences host gnuplotFile before files = .ok files₁ ∧
          host.addDatFileReference files₁ gnuplotFile ref.1 ref.2 = .ok files₂ ∧
          files₁ x = some (.file text₁) ∧ text₁ = base ++ String.join (before.map continued) ++ padding before ∧
          files₂ x = some (.file text₂) ∧
          encode text₂ = overwriteLast (encode text₁) (encode (continued ref ++ " ")) := by
  obtain ⟨files', hrun, htext, hothers⟩ := addReferences_text hx hbase refs
  rw [plotFile_text, padding, if_neg hne] at htext
  refine ⟨files', hrun, htext, hothers, ?_⟩
  rintro before ref after -
  obtain ⟨files₁, hbefore, htext₁, -⟩ := addReferences_text hx hbase before
  have hstep := addDatFileReference_padded hx htext₁ ref
  refine ⟨files₁, _, _, _, hbefore, hstep, htext₁, plotFile_text base before, if_pos rfl, ?_⟩
  rw [Padded.encode_overwrite, ← String.append_assoc]
  rfl

def plotOnly : Files String := fun x => if x = ("out/", "roofline.gnu") then some (.file "plot 1\n") else none

theorem addReferences_continue_plotOnly :
    ∃ files', addReferences plainHost "out/roofline.gnu" [("a.out", 1), ("b", 2)] plotOnly = .ok files' ∧
      files' ("out/", "roofline.gnu") = some (.file
        "plot 1,\\\n'a.out.dat' title 'a.out' with points ls 1,\\\n'b.dat' title 'b' with points ls 2 ") := by
  have hlocated : plainHost.locate "out/roofline.gnu" = some ("out/", "roofline.gnu") := by decide
  have hbase : plotOnly ("out/", "roofline.gnu") = some (.file ("plot 1" ++ "\n")) := rfl
  have hne : [("a.out", (1 : ℤ)), ("b", 2)] ≠ [] := List.cons_ne_nil _ _
  obtain ⟨files', hrun, htext, -⟩ := addReferences_continue hlocated hbase hne
  exact ⟨files', hrun, htext⟩

end Roofline.Correctness
