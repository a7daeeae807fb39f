import Roofline.Correctness.JoinedRuns

/-! What a normal return of get_points says about the two documents. The assertion of the loop
looks at one label at a time, and only at the labels that occur in the first document. -/
namespace Roofline.Correctness
open Library.Xml Report
variable {F : Type}

def pointsOf (root : Element) : List Element := root.children.filter fun e => e.tag = "point"

def labelsOf (root : Element) : List (Option String) := (pointsOf root).map fun e => e.attrib.lookup "label"

/-- The loop of get_points over two documents that are parsed. -/
def joinPoints (py : Python F) (colourN : ℤ) (name : String) (root rootTime : Element) :
    Except PyError (List (Report.Point F)) :=
  (pointsOf root).mapM (py.getPoint colourN name rootTime)

/-- Element number i of the first document is matched with element number j of the second one:
the search for its label finds this element. -/
def MatchedWith (py : Python F) (root rootTime : Element) (i j : ℕ) : Prop :=
  ∃ p t l, (pointsOf root)[i]? = some p ∧ (pointsOf rootTime)[j]? = some t ∧
    attribOf p "label" = .ok l ∧ py.findPoints rootTime l = .ok [t]

/-- Distinct elements are matched with distinct elements, and no element of the second document
is left over. -/
structure OneToOne (py : Python F) (root rootTime : Element) : Prop where
  distinct : ∀ i i' j, MatchedWith py root rootTime i j → MatchedWith py root rootTime i' j → i = i'
  complete : ∀ j < (pointsOf rootTime).length, ∃ i, MatchedWith py root rootTime i j

/-- The labels of the first document are quoted as they are, are distinct, and are all the labels
of the second one. The assertion of the loop checks neither of the last two. -/
structure Joinable (root rootTime : Element) : Prop where
  quoted : ∀ l, some l ∈ labelsOf root → apostrophe ∉ l.toList
  distinct : (labelsOf root).Nodup
  covered : ∀ l ∈ labelsOf rootTime, l ∈ labelsOf root

/-- get_points returns what its loop returns on the two documents. -/
theorem getPoints_joinPoints {py : Python F} {colourN : ℤ} {name roofline rooflineTime : String}
    {root rootTime : Element} (hcolour : colourN ≤ 5) (hroot : parse roofline = some root)
    (hrootTime : parse rooflineTime = some rootTime) :
    py.getPoints colourN name roofline rooflineTime = joinPoints py colourN name root rootTime := by
  rw [Python.getPoints, hroot, hrootTime, if_neg (not_not.mpr hcolour)]
  rfl

section join
variable {py : Python F} {colourN : ℤ} {name : String} {root rootTime : Element} {Ps : List (Report.Point F)}

/-- A search path that quotes the label finds the points of that label. -/
theorem findPoints_eq {l : String} (hl : apostrophe ∉ l.toList) :
    py.findPoints rootTime l =
      .ok ((pointsOf rootTime).filter fun e => e.attrib.lookup "label" = some l) := by
  rw [Python.findPoints, if_neg hl, pointsOf, List.filter_filter]
  simp only [Bool.and_comm]

/-- After a normal return every label of the first document stands on exactly one point of
the second one. -/
theorem filter_of_joinPoints (h : joinPoints py colourN name root rootTime = .ok Ps)
    (hquote : ∀ l, some l ∈ labelsOf root → apostrophe ∉ l.toList) {p : Element} (hp : p ∈ pointsOf root) :
    ∃ l t, p.attrib.lookup "label" = some l ∧ py.findPoints rootTime l = .ok [t] ∧
      (pointsOf rootTime).filter (fun e => e.attrib.lookup "label" = some l) = [t] := by
  obtain ⟨i, hi⟩ := List.getElem?_of_mem hp
  have hall := mapM_eq_ok h
  have hlen : i < Ps.length := hall.length_eq ▸ (List.getElem?_eq_some_iff.mp hi).1
  have hpoint := forall₂_getElem? hall hi (List.getElem?_eq_getElem hlen)
  obtain ⟨t, hjoined⟩ := getPoint_eq_ok hpoint
  have hlabel := hjoined.label
  unfold attribOf at hlabel
  cases hlookup : p.attrib.lookup "label" with
  | none => simp [hlookup] at hlabel
  | some l =>
    simp only [hlookup, Except.ok.injEq] at hlabel
    have hl : apostrophe ∉ l.toList := hquote l (List.mem_map.mpr ⟨p, hp, hlookup⟩)
    have hfound := hjoined.found
    rw [← hlabel] at hfound
    refine ⟨l, t, rfl, hfound, ?_⟩
    rw [findPoints_eq hl] at hfound
    exact Except.ok.inj hfound

/-- Elements are matched if they have the same label. -/
theorem matched_iff (h : joinPoints py colourN name root rootTime = .ok Ps)
    (hquote : ∀ l, some l ∈ labelsOf root → apostrophe ∉ l.toList) (i j : ℕ) :
    MatchedWith py root rootTime i j ↔
      ∃ l, (labelsOf root)[i]? = some l ∧ (labelsOf rootTime)[j]? = some l := by
  constructor
  · rintro ⟨p, t, l, hp, ht, hlabel, hfound⟩
    obtain ⟨l', t', hlookup, hfound', hfilter⟩ :=
      filter_of_joinPoints h hquote (List.mem_of_getElem? hp)
    rw [attribOf, hlookup, Except.ok.injEq] at hlabel
    obtain rfl := hlabel
    obtain rfl := List.singleton_inj.mp (Except.ok.inj (hfound.symm.trans hfound'))
    have hmem : t ∈ (pointsOf rootTime).filter (fun e => e.attrib.lookup "label" = some l') := by
      rw [hfilter]
      exact List.mem_singleton_self t
    refine ⟨some l', ?_, ?_⟩
    · rw [labelsOf, List.getElem?_map, hp, Option.map_some, hlookup]
    · rw [labelsOf, List.getElem?_map, ht, Option.map_some, of_decide_eq_true (List.mem_filter.mp hmem).2]
  · rintro ⟨l, hl, hl'⟩
    obtain ⟨p, hp, hlookup⟩ := Option.map_eq_some_iff.mp (List.getElem?_map .. ▸ hl)
    obtain ⟨t, ht, hlookup'⟩ := Option.map_eq_some_iff.mp (List.getElem?_map .. ▸ hl')
    obtain ⟨l', t', hsome, hfound, hfilter⟩ := filter_of_joinPoints h hquote (List.mem_of_getElem? hp)
    have hmem : t ∈ (pointsOf rootTime).filter (fun e => e.attrib.lookup "label" = some l') := by
      rw [List.mem_filter]
      exact ⟨List.mem_of_getElem? ht, decide_eq_true (by rw [hlookup', ← hlookup, hsome])⟩
    rw [hfilter, List.mem_singleton] at hmem
    refine ⟨p, t, l', hp, ht, ?_, ?_⟩
    · rw [attribOf, hsome]
    · rw [hfound, hmem]

private theorem label_found (h : joinPoints py colourN name root rootTime = .ok Ps)
    (hquote : ∀ l, some l ∈ labelsOf root → apostrophe ∉ l.toList) {l : Option String}
    (hl : l ∈ labelsOf root) : l ∈ labelsOf rootTime := by
  obtain ⟨p, hp, rfl⟩ := List.mem_map.mp hl
  obtain ⟨l', t, hsome, -, hfilter⟩ := filter_of_joinPoints h hquote hp
  have hmem : t ∈ (pointsOf rootTime).filter (fun e => e.attrib.lookup "label" = some l') := by
    rw [hfilter]
    exact List.mem_singleton_self t
  obtain ⟨ht, hlookup⟩ := List.mem_filter.mp hmem
  rw [hsome]
  exact List.mem_map.mpr ⟨t, ht, of_decide_eq_true hlookup⟩

/-- The join of joinable documents is one-to-one, and where no label ends its quotation no other
join is. A label that ends it is a path of its own, and selects what findall makes of it. -/
theorem join_oneToOne_iff (h : joinPoints py colourN name root rootTime = .ok Ps) :
    (Joinable root rootTime → OneToOne py root rootTime) ∧
      ((∀ l, some l ∈ labelsOf root → apostrophe ∉ l.toList) →
        OneToOne py root rootTime → Joinable root rootTime) := by
  constructor
  · rintro ⟨hquote, hnodup, hcover⟩
    have hmatch := matched_iff h hquote
    constructor
    · intro i i' j hi hi'
      obtain ⟨l, hl, hj⟩ := (hmatch i j).mp hi
      obtain ⟨l', hl', hj'⟩ := (hmatch i' j).mp hi'
      obtain rfl := Option.some.inj (hj.symm.trans hj')
      exact (List.getElem?_inj (List.getElem?_eq_some_iff.mp hl).1 hnodup).mp (hl.trans hl'.symm)
    · intro j hj
      have hlt : j < (labelsOf rootTime).length := by rwa [labelsOf, List.length_map]
      have hlabel := List.getElem?_eq_getElem hlt
      obtain ⟨i, hi⟩ := List.getElem?_of_mem (hcover _ (List.mem_of_getElem? hlabel))
      exact ⟨i, (hmatch i j).mpr ⟨_, hi, hlabel⟩⟩
  · intro hquote hone
    have hmatch := matched_iff h hquote
    refine ⟨hquote, ?_, ?_⟩
    · rw [List.nodup_iff_getElem?_ne_getElem?]
      intro i i' hlt hi' heq
      have hl := List.getElem?_eq_getElem hi'
      obtain ⟨j, hj⟩ := List.getElem?_of_mem (label_found h hquote (List.mem_of_getElem? hl))
      have := hone.distinct i i' j ((hmatch i j).mpr ⟨_, heq.trans hl, hj⟩) ((hmatch i' j).mpr ⟨_, hl, hj⟩)
      omega
    · intro l hl
      obtain ⟨j, hj⟩ := List.getElem?_of_mem hl
      have hlen : j < (pointsOf rootTime).length := by
        simpa [labelsOf] using (List.getElem?_eq_some_iff.mp hj).1
      obtain ⟨i, hi⟩ := hone.complete j hlen
      obtain ⟨l', hl', hj'⟩ := (hmatch i j).mp hi
      obtain rfl := Option.some.inj (hj.symm.trans hj')
      exact List.mem_of_getElem? hl'

end join

def pointWith (label : String) (leaves : List (String × String)) : Element :=
  ⟨"point", [("label", label)], some "\n", leaves.map fun l => ⟨l.1, [], some l.2, []⟩⟩

def countedPoint (label : String) : Element :=
  pointWith label [("flops", "2"), ("bytes", "8"), ("read_bytes", "8"), ("write_bytes", "0"),
    ("src_file_start", "f.c"), ("src_file_end", "f.c"), ("line_n_start", "1"), ("line_n_end", "2")]

def timedPoint (label : String) : Element := pointWith label [("time", "3")]

def documentOf (points : List Element) : Element := ⟨"data", [], some "\n", points⟩

/-- The times stand in another order than the points. -/
theorem join_oneToOne_iff_threePoints :
    ∃ Ps, joinPoints exactPython 1 "app" (documentOf (["a", "b", "c<d"].map countedPoint))
        (documentOf (["b", "c<d", "a"].map timedPoint)) = .ok Ps ∧ Ps.length = 3 ∧
      OneToOne exactPython (documentOf (["a", "b", "c<d"].map countedPoint))
        (documentOf (["b", "c<d", "a"].map timedPoint)) ∧
      Joinable (documentOf (["a", "b", "c<d"].map countedPoint))
        (documentOf (["b", "c<d", "a"].map timedPoint)) := by
  have hlength : (joinPoints exactPython 1 "app" (documentOf (["a", "b", "c<d"].map countedPoint))
      (documentOf (["b", "c<d", "a"].map timedPoint))).toOption.map List.length = some 3 := by
    decide +kernel
  have hlabels : labelsOf (documentOf (["a", "b", "c<d"].map countedPoint)) =
      [some "a", some "b", some "c<d"] := by decide +kernel
  have htimed : labelsOf (documentOf (["b", "c<d", "a"].map timedPoint)) =
      [some "b", some "c<d", some "a"] := by decide +kernel
  have hquoted : ∀ l, some l ∈ labelsOf (documentOf (["a", "b", "c<d"].map countedPoint)) →
      apostrophe ∉ l.toList := by
    rw [hlabels]
    intro l hl
    simp only [List.mem_cons, Option.some.injEq, List.not_mem_nil, or_false] at hl
    obtain rfl | rfl | rfl := hl <;> decide
  cases h : joinPoints exactPython 1 "app" (documentOf (["a", "b", "c<d"].map countedPoint))
      (documentOf (["b", "c<d", "a"].map timedPoint)) with
  | error e =>
    rw [h] at hlength
    cases hlength
  | ok Ps =>
    rw [h] at hlength
    have hone := (join_oneToOne_iff h).1 ⟨hquoted, by rw [hlabels]; decide, by rw [hlabels, htimed]; decide⟩
    exact ⟨Ps, rfl, Option.some.inj hlength, hone, (join_oneToOne_iff h).2 hquoted hone⟩

/-- Two points of one name are joined with one time, and another time is left over. -/
theorem twoPoints_not_oneToOne :
    (joinPoints exactPython 1 "app" (documentOf [countedPoint "a", countedPoint "a"])
        (documentOf [timedPoint "a", timedPoint "b"])).isOk = true ∧
      ¬ OneToOne exactPython (documentOf [countedPoint "a", countedPoint "a"])
        (documentOf [timedPoint "a", timedPoint "b"]) := by
  refine ⟨by decide +kernel, ?_⟩
  intro hone
  have hfound : exactPython.findPoints (documentOf [timedPoint "a", timedPoint "b"]) "a" =
      .ok [timedPoint "a"] := rfl
  have hmatched (i : ℕ) (hi : (pointsOf (documentOf [countedPoint "a", countedPoint "a"]))[i]? =
      some (countedPoint "a")) :
      MatchedWith exactPython (documentOf [countedPoint "a", countedPoint "a"])
        (documentOf [timedPoint "a", timedPoint "b"]) i 0 :=
    ⟨_, _, "a", hi, rfl, rfl, hfound⟩
  exact absurd (hone.distinct 0 1 0 (hmatched 0 rfl) (hmatched 1 rfl)) (by decide)

end Roofline.Correctness
