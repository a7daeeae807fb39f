import Roofline.Correctness.MergedThreads
import Roofline.Correctness.RoundTrip

/-! The file of a process with several threads. A thread that alone enters and leaves regions is
recorded as if it ran by itself, but what the other threads append as they exit makes the file
unreadable. -/
namespace Roofline.Correctness
open Client Library
variable {T τ : Type}

section control
variable [Zero τ] [DecidableEq T] {opts : Options} {as : List (ThreadAction T τ)} {P : Process T τ}

/-- A thread without callbacks of its own saves no point of its own. -/
theorem leave_quiet {t : T} (h : runThreads opts as = some P) {data : ThreadData τ} (hd : P.own t = some data)
    (hquiet : ∀ ev, .act t ev ∈ as → ev.isCallback = false) :
    (opts.merged = false → (threadSystem opts).leave P.shared data = []) ∧
      (opts.merged = true → ∃ p, (threadSystem opts).leave P.shared data = [p] ∧ p.label = "") := by
  have hseen : ∀ s ∈ seen opts t as, s.2.isCallback = false := fun s hs => hquiet s.2 (Agents.act_mem_of_sights hs)
  constructor
  · intro hm
    have hexit : ¬ (opts.callsAsSeparateRoi = false ∧ opts.traceF ≠ "") := by
      rw [← opts.merged_iff, hm]
      exact Bool.false_ne_true
    have hends : ends ((seen opts t as).map Prod.snd) = [] := by
      rw [List.eq_nil_iff_forall_not_mem]
      intro E hE
      have hget := List.mem_of_getElem? (mem_ends hE)
      obtain ⟨s, hs, hev⟩ := List.mem_map.mp hget
      have hfalse := hseen s hs
      rw [hev] at hfalse
      cases hfalse
    have hlabels := labels_threadRun opts (seen opts t as) hm
    rw [hends, ← own_threadRun h hd, List.map_nil, List.map_eq_nil_iff] at hlabels
    simpa [threadSystem, eventThreadExit, if_neg hexit] using hlabels
  · intro hm
    have hfirst : entersFirst (seen opts t as) = false := by
      rw [entersFirst, List.any_eq_false]
      intro s hs
      have hfalse := hseen s hs
      cases hev : s.2 <;> simp_all [Event.isCallback, Event.isStart]
    have hrun := threadRun_merged hm (seen opts t as)
    rw [← own_threadRun h hd, hfirst] at hrun
    refine ⟨exitPoint data, ?_, hrun.2⟩
    rw [leave_merged hm, hrun.1, List.nil_append]

private theorem foldl_act_alone (es : List (Event τ)) :
    es.foldl (fun p ev => (threadSystem (τ := τ) opts).act p.1 p.2 ev)
        ((threadSystem (τ := τ) opts).start, (threadSystem opts).fresh) =
      ((run opts es).globals, (run opts es).data) := by
  induction es using List.reverseRecOn with
  | nil => rfl
  | append_singleton es ev ih =>
    rw [List.foldl_append, ih, run_snoc]
    rfl

/-- Where one thread alone begins and ends regions, whatever the others execute, it saves exactly the
points of a sequential run of its own events. The others save no point, or one without a label. -/
theorem one_thread_in_control {m : T} (h : runThreads opts as = some P)
    (honce : (Agents.entered as).count m ≤ 1)
    (hcontrol : ∀ t ev, .act t ev ∈ as → t ≠ m → ev.isCallback = false) :
    ∀ t ps, (t, ps) ∈ P.outs → ∃ before after, as = before ++ .leave t :: after ∧
      (t = m → ps = finalPoints opts (Agents.actionsOf m before)) ∧
      (t ≠ m → opts.merged = false → ps = []) ∧
      (t ≠ m → opts.merged = true → ∃ p, ps = [p] ∧ p.label = "") := by
  intro t ps ho
  obtain ⟨before, after, mid, data, heq, hmid, hd, rfl⟩ := Agents.outs_run h ho
  have hbefore {a : ThreadAction T τ} (ha : a ∈ before) : a ∈ as := by
    rw [heq]
    exact List.mem_append_left _ ha
  refine ⟨before, after, heq, ?_, ?_, ?_⟩
  · rintro rfl
    have hcount : (Agents.entered before).count t ≤ 1 := by
      rw [heq, Agents.entered, List.filterMap_append, List.count_append] at honce
      exact (Nat.le_add_right _ _).trans honce
    have hquiet : ∀ u ev, .act u ev ∈ before → u ≠ t → ∀ g, Globals.step opts g ev = g :=
      fun u ev hu hne g => globals_step_quiet opts g (hcontrol u ev (hbefore hu) hne)
    have halone := Agents.own_run_alone (evolves_threadSystem opts) hmid hd hcount hquiet
    rw [foldl_act_alone] at halone
    obtain ⟨hglobals, rfl⟩ := Prod.mk.inj halone
    rw [hglobals]
    rfl
  · intro hne
    exact (leave_quiet hmid hd fun ev hev => hcontrol t ev (hbefore hev) hne).1
  · intro hne
    exact (leave_quiet hmid hd fun ev hev => hcontrol t ev (hbefore hev) hne).2

theorem one_thread_in_control_worker : ∃ P : Process ℕ ℕ, runThreads {} workerActions = some P ∧
    ∀ t ps, (t, ps) ∈ P.outs → ∃ before after, workerActions = before ++ .leave t :: after ∧
      (t = 0 → ps = finalPoints {} (Agents.actionsOf 0 before)) ∧
      (t ≠ 0 → Options.merged {} = false → ps = []) ∧
      (t ≠ 0 → Options.merged {} = true → ∃ p, ps = [p] ∧ p.label = "") := by
  obtain ⟨P, hP, -⟩ := run_workerActions
  refine ⟨P, hP, one_thread_in_control hP (by decide) ?_⟩
  intro t ev hev hne
  simp only [workerActions, List.mem_cons, reduceCtorEq, Agents.Move.act.injEq, List.not_mem_nil, or_false,
    false_or] at hev
  rcases hev with ⟨rfl, rfl⟩ | ⟨rfl, rfl⟩ | ⟨rfl, rfl⟩ | ⟨rfl, rfl⟩ | ⟨rfl, rfl⟩ | ⟨rfl, rfl⟩ | ⟨rfl, rfl⟩ |
    ⟨rfl, rfl⟩ <;> first | rfl | exact absurd rfl hne

end control

section file
open Library.Xml
variable [Sub τ] {opts : Options} {fmtF : τ → String}

/-- A string that the reader takes as it stands, between two tags as well as in an attribute. -/
def Verbatim (s : String) : Prop := Printable s ∧ PlainContent s.toList

/-- The fields of a point are numerals, file names and the time. -/
theorem verbatim_fields (hfmt : ∀ t, Verbatim (fmtF t)) {p : Client.Point τ} (hp : PrintablePoint p)
    (hp' : UnescapedPoint p) {l : String × String} (hl : l ∈ fields opts fmtF p) : Verbatim l.2 := by
  by_cases ht : opts.timeRun = false
  · have hnumeral (n : ℕ) : Verbatim (toString n) := ⟨printable_toString n, plainContent_toString n⟩
    exact (forall_fields ht hnumeral).mpr ⟨⟨hp.fileStart, hp'.fileStart⟩, hp.fileEnd, hp'.fileEnd⟩ l hl
  · rw [fields, if_neg ht] at hl
    obtain rfl := List.mem_singleton.mp hl
    exact hfmt _

section document
variable {ps : List (Client.Point τ)} (hfmt : ∀ t, Verbatim (fmtF t))
  (hps : ∀ p ∈ ps, PrintablePoint p ∧ UnescapedPoint p)

include hfmt hps in
private theorem cleanly_written {q : Client.Point τ × String} (hq : q ∈ outputNames ps) :
    (pointNode opts fmtF q).Clean ∧ (pointNode opts fmtF q).Plain := by
  obtain ⟨hp, hp'⟩ := hps q.1 (mem_outputNames hq).1
  have hfields : ∀ l ∈ fields opts fmtF q.1, Verbatim l.2 := fun l hl => verbatim_fields hfmt hp hp' hl
  constructor
  · rw [clean_pointNode]
    exact ⟨(printable_outputNames (fun p hp => (hps p hp).1) hq).clean, fun l hl => (hfields l hl).1.clean⟩
  · rw [plain_pointNode, plainValue_outputNames hq]
    exact ⟨hp'.label, fun l hl => (hfields l hl).2⟩

include hfmt hps in
/-- Behind a document of plain strings there may be no other one. -/
theorem parse_document_append (rest : List Char) :
    parseChars ((document opts fmtF ps).toList ++ (declaration ++ rest)) = none := by
  have htag : PlainName "roofline".toList := by decide
  have hclean : (writeDocument "roofline".toList ((outputNames ps).map (pointNode opts fmtF))).all isClean = true :=
    all_isClean_writeDocument htag
      (List.forall_mem_map.mpr fun q hq => ⟨named_pointNode q, (cleanly_written hfmt hps hq).1⟩)
  rw [document_eq_write]
  exact parse_two htag.isName hclean
    (List.forall_mem_map.mpr fun q hq => ⟨named_pointNode q, (cleanly_written hfmt hps hq).2⟩) rest

end document

variable [Zero τ] [DecidableEq T] {as : List (ThreadAction T τ)} {P : Process T τ}

omit [Zero τ] [DecidableEq T] in
private theorem parse_documents (hfmt : ∀ t, Verbatim (fmtF t)) {o o' : T × List (Client.Point τ)}
    (hps : ∀ p ∈ o.2, PrintablePoint p ∧ UnescapedPoint p) (outs : List (T × List (Client.Point τ))) :
    parse (String.join ((o :: o' :: outs).map fun o => document opts fmtF o.2)) = none := by
  obtain ⟨rest, hrest⟩ : ∃ rest, (document opts fmtF o'.2).toList = declaration ++ rest := by
    rw [document_toList]
    exact ⟨_, rfl⟩
  have hnone : parseChars ((document opts fmtF o.2).toList ++ (declaration ++ (rest ++
      (String.join (outs.map fun o => document opts fmtF o.2)).toList))) = none :=
    parse_document_append hfmt hps _
  rw [parse, List.map_cons, List.map_cons, String.join_cons, String.join_cons, String.toList_append,
    String.toList_append, hrest, List.append_assoc]
  exact hnone

/-- Where no string needs escaping, the output file of a process is a document if and only if exactly one thread
has exited. The points that are read are then those of that thread, in order; and the counts of one thread are read
as they were saved if and only if no string needs escaping. -/
theorem readable_iff_one_exit (hfmt : ∀ t, Verbatim (fmtF t)) (h : runThreads opts as = some P)
    (hps : ∀ o ∈ P.outs, ∀ p ∈ o.2, PrintablePoint p) :
    ((∀ o ∈ P.outs, ∀ p ∈ o.2, UnescapedPoint p) →
      ((∃ root, parse (outFile opts fmtF P) = some root) ↔ ∃ t, Agents.left as = [t])) ∧
      ∀ t ps, P.outs = [(t, ps)] → outFile opts fmtF P = document opts fmtF ps ∧
        ((∀ p ∈ ps, UnescapedPoint p) → ∃ root, parse (outFile opts fmtF P) = some root ∧
          pointsOf root = (outputNames ps).map fun q => pointElement opts fmtF q.1 q.2) ∧
        (opts.timeRun = false → (RoundTrip opts fmtF ps ↔ ∀ p ∈ ps, UnescapedPoint p)) := by
  have hfile : outFile opts fmtF P = String.join (P.outs.map fun o => document opts fmtF o.2) := rfl
  have hone {t : T} {ps : List (Client.Point τ)} (houts : P.outs = [(t, ps)]) :
      outFile opts fmtF P = document opts fmtF ps := by simp [hfile, houts]
  have hread {t : T} {ps : List (Client.Point τ)} (houts : P.outs = [(t, ps)]) (hplain : ∀ p ∈ ps, UnescapedPoint p) :
      ∃ root, parse (outFile opts fmtF P) = some root ∧
        pointsOf root = (outputNames ps).map fun q => pointElement opts fmtF q.1 q.2 := by
    have hboth : ∀ p ∈ ps, PrintablePoint p ∧ UnescapedPoint p :=
      fun p hp => ⟨hps (t, ps) (by simp [houts]) p hp, hplain p hp⟩
    rw [hone houts]
    exact parse_document (fun q hq => (cleanly_written hfmt hboth hq).1) fun q hq => (cleanly_written hfmt hboth hq).2
  refine ⟨fun hplain => ?_, fun t ps houts => ⟨hone houts, hread houts, fun ht => ?_⟩⟩
  · rw [← Agents.outs_left h]
    constructor
    · rintro ⟨root, hroot⟩
      rw [hfile] at hroot
      rcases houts : P.outs with _ | ⟨o, _ | ⟨o', outs⟩⟩
      · rw [houts] at hroot
        cases hroot
      · exact ⟨o.1, rfl⟩
      · have ho : o ∈ P.outs := houts ▸ List.mem_cons_self
        rw [houts, parse_documents hfmt fun p hp => ⟨hps o ho p hp, hplain o ho p hp⟩] at hroot
        cases hroot
    · rintro ⟨t, ht⟩
      obtain ⟨⟨u, ps⟩, houts, -⟩ := List.map_eq_singleton_iff.mp ht
      obtain ⟨root, hroot, -⟩ := hread houts (hplain (u, ps) (by simp [houts]))
      exact ⟨root, hroot⟩
  · exact roundTrip_iff ht (hps (t, ps) (by simp [houts]))

end file

/-- The worker of workerActions, which has not exited when the process ends. -/
def aloneActions : List (ThreadAction ℕ ℕ) := workerActions.take 10 ++ [.leave 0]

theorem readable_iff_one_exit_alone : ∃ (P : Process ℕ ℕ) (ps : List (Client.Point ℕ)),
    runThreads {} aloneActions = some P ∧ P.outs = [(0, ps)] ∧
      (∃ root, Library.Xml.parse (outFile {} (fun _ : ℕ => "1.0") P) = some root) ∧
      RoundTrip {} (fun _ : ℕ => "1.0") ps := by
  have hrun : (runThreads {} aloneActions).map (·.outs) =
      some [(0, [⟨"a", "m.c", "m.c", 3, 9, 6, 4, 0, 4, 0, 0⟩])] := by decide
  obtain ⟨P, hP, houts⟩ := Option.map_eq_some_iff.mp hrun
  have hfmt : ∀ _ : ℕ, Verbatim "1.0" := fun _ =>
    ⟨rfl, Library.Xml.plainContent_of_not_mem (by decide) (by decide) (by decide)⟩
  have hpoint : ∀ p ∈ [(⟨"a", "m.c", "m.c", 3, 9, 6, 4, 0, 4, 0, 0⟩ : Client.Point ℕ)],
      PrintablePoint p ∧ UnescapedPoint p := by
    have hfile : Library.Xml.PlainContent "m.c".toList :=
      Library.Xml.plainContent_of_not_mem (by decide) (by decide) (by decide)
    rw [List.forall_mem_singleton]
    exact ⟨⟨rfl, rfl, rfl⟩, ⟨by decide, by decide, by decide⟩, hfile, hfile⟩
  have hpoints : ∀ o ∈ P.outs, ∀ p ∈ o.2, PrintablePoint p ∧ UnescapedPoint p := by
    rw [houts, List.forall_mem_singleton]
    exact hpoint
  obtain ⟨hone, hread⟩ := readable_iff_one_exit hfmt hP fun o ho p hp => (hpoints o ho p hp).1
  refine ⟨P, _, hP, houts, (hone fun o ho p hp => (hpoints o ho p hp).2).mpr ⟨0, by decide⟩, ?_⟩
  exact ((hread 0 _ houts).2.2 rfl).mpr fun p hp => (hpoint p hp).2

end Roofline.Correctness
