import Roofline.Correctness.RecordedPoints
import Roofline.Report.Ert

/-! The database of rooflines over whole sequences of record_ert: what is plotted for a line, and what show_ert
says. -/
namespace Roofline.Correctness
open Report

section folders

/-- What a directory holds behind the runs that are filed under its name; none where the last one is refused. -/
def folderOf : List ErtRun → Option (Option ErtFolder)
  | [] => some none
  | [run] => some (some ⟨run, none⟩)
  | [run, second] => some (some ⟨run, some second⟩)
  | _ => none

def filedUnder (runs : List ErtRun) (name : String) : List ErtRun := runs.filter fun run => run.folderName = name

private theorem length_filedUnder (runs : List ErtRun) (name : String) :
    (filedUnder runs name).length = (runs.map ErtRun.folderName).count name := by
  rw [filedUnder, List.count, List.countP_map, List.countP_eq_length_filter]
  congr 1

private theorem filedUnder_snoc (runs : List ErtRun) (run : ErtRun) (name : String) :
    filedUnder (runs ++ [run]) name = filedUnder runs name ++ if run.folderName = name then [run] else [] := by
  rw [filedUnder, List.filter_append, List.filter_cons]
  by_cases h : run.folderName = name
  · rw [if_pos (decide_eq_true h), if_pos h]
    rfl
  · rw [if_neg fun hd => h (of_decide_eq_true hd), if_neg h]
    rfl

/-- A database that holds what has been filed under every name. -/
def Filed (runs : List ErtRun) (db : RooflinesDb) : Prop := ∀ name, folderOf (filedUnder runs name) = some (db name)

variable {runs : List ErtRun} {run : ErtRun} {db db' : RooflinesDb}

/-- The folders of one more run: only that of its own name is another one. -/
theorem Filed.update (h : Filed runs db) {folder : Option ErtFolder}
    (hfolder : folderOf (filedUnder runs run.folderName ++ [run]) = some folder) :
    Filed (runs ++ [run]) (Function.update db run.folderName folder) := by
  intro name
  rw [filedUnder_snoc]
  by_cases hname : run.folderName = name
  · subst hname
    rw [if_pos rfl, Function.update_self, hfolder]
  · rw [if_neg hname, List.append_nil, Function.update_of_ne fun hsame => hname hsame.symm, h name]

/-- One call of record_ert: a third run of one name is refused. -/
theorem Filed.recordErt (h : Filed runs db) (run : ErtRun) :
    ((filedUnder runs run.folderName).length < 2 ∧ ∃ db', Report.recordErt db run = .ok db' ∧
        Filed (runs ++ [run]) db') ∨
      (2 ≤ (filedUnder runs run.folderName).length ∧ Report.recordErt db run = .error .osError) := by
  have hname := h run.folderName
  have hupdate {folder : Option ErtFolder} := @Filed.update runs run db h folder
  unfold Report.recordErt RooflinesDb.move
  rcases hruns : filedUnder runs run.folderName with _ | ⟨first, _ | ⟨second, _ | ⟨third, rest⟩⟩⟩
  · rw [hruns] at hname hupdate
    rw [← Option.some.inj hname]
    exact .inl ⟨Nat.zero_lt_two, _, rfl, hupdate rfl⟩
  · rw [hruns] at hname hupdate
    rw [← Option.some.inj hname]
    exact .inl ⟨Nat.one_lt_two, _, rfl, hupdate rfl⟩
  · rw [hruns] at hname
    rw [← Option.some.inj hname]
    exact .inr ⟨le_rfl, rfl⟩
  · rw [hruns] at hname
    cases hname

/-- All calls of record_ert, from an empty database. -/
theorem filed_recordErts (runs : List ErtRun) :
    (∃ db, runs.foldlM Report.recordErt (fun _ => none) = .ok db ∧ Filed runs db ∧
        ∀ name, (filedUnder runs name).length ≤ 2) ∨
      (runs.foldlM Report.recordErt (fun _ => none) = .error .osError ∧ ∃ name, 2 < (filedUnder runs name).length) := by
  induction runs using List.reverseRecOn with
  | nil => exact .inl ⟨fun _ => none, rfl, fun _ => rfl, fun _ => Nat.zero_le _⟩
  | append_singleton runs run ih =>
    rw [List.foldlM_append]
    simp only [filedUnder_snoc]
    rcases ih with ⟨db, hdb, hfiled, hle⟩ | ⟨herror, name, hname⟩
    · rw [hdb, ok_bind, List.foldlM_cons]
      rcases hfiled.recordErt run with ⟨hlt, db', hdb', hfiled'⟩ | ⟨hge, herror⟩
      · refine .inl ⟨db', ?_, hfiled', fun name => ?_⟩
        · rw [hdb', ok_bind]
          rfl
        · have hname := hle name
          split_ifs with hsame
          · subst hsame
            rw [List.length_append, List.length_singleton]
            exact hlt
          · simpa using hname
      · refine .inr ⟨?_, run.folderName, ?_⟩
        · rw [herror]
          rfl
        · rw [if_pos rfl, List.length_append, List.length_singleton]
          omega
    · refine .inr ⟨?_, name, ?_⟩
      · rw [herror]
        rfl
      · rw [List.length_append]
        omega

/-- The roofline of a line is that of the first run of the name. -/
theorem Filed.rooflineGnu (h : Filed runs db) (line : String) :
    db.rooflineGnu line = (runs.find? fun run => run.folderName = line).map (·.gnu) := by
  have hline := h line
  rw [← List.head?_filter, ← filedUnder, RooflinesDb.rooflineGnu]
  rcases hruns : filedUnder runs line with _ | ⟨first, _ | ⟨second, _ | ⟨third, rest⟩⟩⟩
  · rw [hruns] at hline
    rw [← Option.some.inj hline]
    rfl
  · rw [hruns] at hline
    rw [← Option.some.inj hline]
    rfl
  · rw [hruns] at hline
    rw [← Option.some.inj hline]
    rfl
  · rw [hruns] at hline
    cases hline

private theorem Filed.isSome_iff (h : Filed runs db) (name : String) :
    (db name).isSome = true ↔ ∃ run ∈ runs, run.folderName = name := by
  have hgnu := congrArg Option.isSome (h.rooflineGnu name)
  rw [RooflinesDb.rooflineGnu, Option.isSome_map, Option.isSome_map] at hgnu
  rw [hgnu, List.find?_isSome]
  simp only [decide_eq_true_eq]

end folders

section names

private theorem splitOn_singleton {c : Char} {cs w : List Char} (h : cs.splitOn c = [w]) : c ∉ cs ∧ w = cs := by
  have hnot : c ∉ cs := by
    intro hmem
    obtain ⟨before, after, rfl⟩ := List.append_of_mem hmem
    have hlength := congrArg List.length h
    have hbefore := List.length_pos_iff.mpr (List.splitOn_ne_nil c before)
    have hafter := List.length_pos_iff.mpr (List.splitOn_ne_nil c after)
    rw [List.splitOn_append_cons_self, List.length_append, List.length_singleton] at hlength
    omega
  rw [List.splitOn_eq_singleton hnot, List.cons.injEq] at h
  exact ⟨hnot, h.1.symm⟩

/-- The names that show_ert can take apart. -/
theorem splitRoofs_folderName (run : ErtRun) (q : String × String) : splitRoofs run.folderName = .ok q ↔
    ('_' ∉ run.hostname.toList ∧ '_' ∉ run.precision.toList) ∧ q = (run.hostname, run.precision) := by
  have hpieces : run.folderName.toList.splitOn '_' =
      run.hostname.toList.splitOn '_' ++ run.precision.toList.splitOn '_' := by
    have hname : run.folderName.toList = run.hostname.toList ++ '_' :: run.precision.toList := by
      rw [ErtRun.folderName, String.toList_append, String.toList_append, List.append_assoc]
      rfl
    rw [hname, List.splitOn_append_cons_self]
  constructor
  · intro h
    unfold splitRoofs at h
    rw [hpieces] at h
    -- neither side is without a piece, so two pieces are one of each
    rcases hhost : run.hostname.toList.splitOn '_' with _ | ⟨first, hosts⟩
    · exact absurd hhost (List.splitOn_ne_nil '_' _)
    rcases hprecision : run.precision.toList.splitOn '_' with _ | ⟨second, precisions⟩
    · exact absurd hprecision (List.splitOn_ne_nil '_' _)
    rw [hhost, hprecision] at h
    rcases hosts with _ | ⟨third, hosts⟩ <;> rcases precisions with _ | ⟨fourth, precisions⟩
    · obtain ⟨hnotHost, rfl⟩ := splitOn_singleton hhost
      obtain ⟨hnotPrecision, rfl⟩ := splitOn_singleton hprecision
      injection h with h
      rw [← h, String.ofList_toList, String.ofList_toList]
      exact ⟨⟨hnotHost, hnotPrecision⟩, rfl⟩
    · cases h
    · rcases hosts with _ | ⟨_, _⟩ <;> cases h
    · rcases hosts with _ | ⟨_, _⟩ <;> cases h
  · rintro ⟨⟨hhost, hprecision⟩, rfl⟩
    unfold splitRoofs
    rw [hpieces, List.splitOn_eq_singleton hhost, List.splitOn_eq_singleton hprecision]
    simp only [List.singleton_append, String.ofList_toList]

private theorem showRoofs_folderName (run : ErtRun) (line : String) : showRoofs run.folderName = .ok line ↔
    ('_' ∉ run.hostname.toList ∧ '_' ∉ run.precision.toList) ∧
      line = "Hostname " ++ run.hostname ++ " - Precision " ++ run.precision := by
  rw [showRoofs, bind_eq_ok]
  constructor
  · rintro ⟨q, hq, hline⟩
    obtain ⟨hclean, rfl⟩ := (splitRoofs_folderName run q).mp hq
    exact ⟨hclean, (Except.ok.inj hline).symm⟩
  · rintro ⟨hclean, rfl⟩
    exact ⟨_, (splitRoofs_folderName run _).mpr ⟨hclean, rfl⟩, rfl⟩

/-- show_ert over the directories of some runs: it returns if all of the names can be taken apart. -/
theorem showErt_iff {runs : List ErtRun} {dirList : List String}
    (hdirs : ∀ name, name ∈ dirList ↔ ∃ run ∈ runs, run.folderName = name) :
    (∃ lines, showErt dirList = .ok lines) ↔
      ∀ run ∈ runs, '_' ∉ run.hostname.toList ∧ '_' ∉ run.precision.toList := by
  unfold showErt
  rw [exists_mapM_iff]
  constructor
  · intro h run hrun
    obtain ⟨line, hline⟩ := h run.folderName ((hdirs _).mpr ⟨run, hrun, rfl⟩)
    exact ((showRoofs_folderName run line).mp hline).1
  · intro h name hname
    obtain ⟨run, hrun, rfl⟩ := (hdirs name).mp hname
    exact ⟨_, (showRoofs_folderName run _).mpr ⟨h run hrun, rfl⟩⟩

private theorem mem_showErt {runs : List ErtRun} {dirList lines : List String}
    (hdirs : ∀ name, name ∈ dirList ↔ ∃ run ∈ runs, run.folderName = name) (hlines : showErt dirList = .ok lines)
    (line : String) :
    line ∈ lines ↔ ∃ run ∈ runs, line = "Hostname " ++ run.hostname ++ " - Precision " ++ run.precision := by
  have hall := mapM_eq_ok hlines
  constructor
  · intro hline
    obtain ⟨i, hi⟩ := List.getElem?_of_mem hline
    obtain ⟨name, hname⟩ : ∃ name, dirList[i]? = some name :=
      ⟨_, List.getElem?_eq_getElem (hall.length_eq ▸ (List.getElem?_eq_some_iff.mp hi).1)⟩
    obtain ⟨run, hrun, rfl⟩ := (hdirs name).mp (List.mem_of_getElem? hname)
    exact ⟨run, hrun, ((showRoofs_folderName run line).mp (forall₂_getElem? hall hname hi)).2⟩
  · rintro ⟨run, hrun, rfl⟩
    obtain ⟨i, hi⟩ := List.getElem?_of_mem ((hdirs _).mpr ⟨run, hrun, rfl⟩)
    obtain ⟨line, hline⟩ : ∃ line, lines[i]? = some line :=
      ⟨_, List.getElem?_eq_getElem (hall.length_eq ▸ (List.getElem?_eq_some_iff.mp hi).1)⟩
    rw [← ((showRoofs_folderName run line).mp (forall₂_getElem? hall hi hline)).2]
    exact List.mem_of_getElem? hline

end names

/-- The database after any runs of record_ert. A third run of one machine and precision is refused; until then
report plots the first run of a name, and show_ert lists all of the runs unless an underscore keeps it from
taking a name apart. -/
theorem ert_database (runs : List ErtRun) :
    ((∃ db, runs.foldlM recordErt (fun _ => none) = .ok db) ↔
      ∀ name, (runs.map ErtRun.folderName).count name ≤ 2) ∧
    ∀ db, runs.foldlM recordErt (fun _ => none) = .ok db →
      (∀ run ∈ runs, db.rooflineGnu run.folderName =
        (runs.find? fun first => first.folderName = run.folderName).map (·.gnu)) ∧
      ∀ dirList : List String, (∀ name, name ∈ dirList ↔ (db name).isSome = true) →
        ((∃ lines, showErt dirList = .ok lines) ↔
          ∀ run ∈ runs, '_' ∉ run.hostname.toList ∧ '_' ∉ run.precision.toList) ∧
        ∀ lines, showErt dirList = .ok lines → ∀ line, line ∈ lines ↔
          ∃ run ∈ runs, line = "Hostname " ++ run.hostname ++ " - Precision " ++ run.precision := by
  rcases filed_recordErts runs with ⟨db, hdb, hfiled, hle⟩ | ⟨herror, name, hname⟩
  · refine ⟨iff_of_true ⟨db, hdb⟩ fun name => length_filedUnder runs name ▸ hle name, ?_⟩
    intro db' hdb'
    obtain rfl : db = db' := Except.ok.inj (hdb.symm.trans hdb')
    refine ⟨fun run _ => hfiled.rooflineGnu run.folderName, fun dirList hdirs => ?_⟩
    have hnames (name : String) := (hdirs name).trans (hfiled.isSome_iff name)
    exact ⟨showErt_iff hnames, fun lines hlines line => mem_showErt hnames hlines line⟩
  · rw [length_filedUnder] at hname
    refine ⟨iff_of_false ?_ fun hall => (hall name).not_gt hname, ?_⟩
    · rintro ⟨db, hdb⟩
      cases herror.symm.trans hdb
    · intro db hdb
      cases herror.symm.trans hdb

def firstErt : ErtRun := ⟨"node1", "FP64", "set title", by decide⟩

def secondErt : ErtRun := ⟨"node1", "FP64", "", by decide⟩

/-- Two runs on one machine: what is plotted stays that of the first. -/
theorem ert_database_again :
    ∃ db, [firstErt, secondErt].foldlM recordErt (fun _ => none) = .ok db ∧
      db.rooflineGnu "node1_FP64" = some "set title" ∧
      ∃ lines, showErt ["node1_FP64"] = .ok lines ∧ "Hostname node1 - Precision FP64" ∈ lines := by
  obtain ⟨hreturns, hdatabase⟩ := ert_database [firstErt, secondErt]
  obtain ⟨db, hdb⟩ := hreturns.mpr fun name => List.count_le_length
  obtain ⟨hplotted, hshown⟩ := hdatabase db hdb
  have hdirs (name : String) : name ∈ ["node1_FP64"] ↔ (db name).isSome = true := by
    rw [← Except.ok.inj hdb, List.mem_singleton]
    change _ ↔ (Function.update (Function.update (fun _ => none) "node1_FP64" (some ⟨firstErt, none⟩))
      "node1_FP64" (some ⟨firstErt, some secondErt⟩) name : Option ErtFolder).isSome = true
    rw [Function.update_idem, Function.update_apply]
    split_ifs with hname
    · exact iff_of_true hname rfl
    · exact iff_of_false hname Bool.false_ne_true
  obtain ⟨hlines, hmem⟩ := hshown ["node1_FP64"] hdirs
  obtain ⟨lines, hlines⟩ := hlines.mpr (by decide)
  exact ⟨db, hdb, hplotted firstErt List.mem_cons_self, lines, hlines,
    (hmem lines hlines _).mpr ⟨firstErt, List.mem_cons_self, by decide⟩⟩

end Roofline.Correctness
