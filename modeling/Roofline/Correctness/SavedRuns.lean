import Roofline.Report.Metainfo
import Roofline.Library.XmlCharacters
import Roofline.Correctness.RoundTrip

/-! The documents of metainformation. Record writes one about a run, with strings as they are; report
reads some of them and writes one again, with its strings escaped. -/
namespace Roofline.Correctness
open Library Report
open Library.Xml (Element writeTree isChar lineEnds normalText)

/-- What record saves about a run: the command and the time. -/
structure SavedRun where
  name : String
  time : String
  deriving DecidableEq

namespace SavedRun

def application (r : SavedRun) : Element :=
  ⟨"application", [], some "\n", [⟨"name", [], textIn r.name, []⟩, ⟨"time", [], textIn r.time, []⟩]⟩

/-- The run as it is read from a file that report has written. -/
def lineEnded (r : SavedRun) : SavedRun := ⟨normalText r.name, normalText r.time⟩

/-- A run of which every character survives being written. -/
structure Kept (r : SavedRun) : Prop where
  name : '\r' ∉ r.name.toList
  time : '\r' ∉ r.time.toList

instance (r : SavedRun) : Decidable r.Kept :=
  decidable_of_iff ('\r' ∉ r.name.toList ∧ '\r' ∉ r.time.toList)
    ⟨fun h => ⟨h.1, h.2⟩, fun h => ⟨h.name, h.time⟩⟩

end SavedRun

def metainfo (runs : List SavedRun) : Element := ⟨"metainfo", [], some "\n", runs.map SavedRun.application⟩

section documents
variable {r : SavedRun} {runs : List SavedRun}

private theorem textIn_injective {s t : String} (h : textIn s = textIn t) : s = t := by
  unfold textIn at h
  split_ifs at h with hs ht ht
  · rw [hs, ht]
  · exact Option.some.inj h

theorem application_injective {r r' : SavedRun} (h : r.application = r'.application) : r = r' := by
  obtain ⟨name, time⟩ := r
  obtain ⟨name', time'⟩ := r'
  simp only [SavedRun.application, Element.mk.injEq, List.cons.injEq, true_and, and_true] at h
  rw [textIn_injective h.1, textIn_injective h.2]

private theorem cr_not_mem_normalText (s : String) : '\r' ∉ (normalText s).toList := by
  have hlines (cr : Bool) (cs : List Char) : '\r' ∉ lineEnds cr cs := by
    induction cs generalizing cr with
    | nil => exact List.not_mem_nil
    | cons c cs ih =>
      rw [lineEnds]
      split_ifs with hcr
      · exact List.not_mem_cons_of_ne_of_not_mem (by decide) (ih true)
      · exact ih false
      · exact List.not_mem_cons_of_ne_of_not_mem (Ne.symm hcr) (ih false)
  rw [normalText, String.toList_ofList]
  exact hlines false s.toList

theorem lineEnded_eq : r.lineEnded = r ↔ r.Kept := by
  constructor
  · intro h
    rw [← h]
    exact ⟨cr_not_mem_normalText r.name, cr_not_mem_normalText r.time⟩
  · rintro ⟨hname, htime⟩
    rw [SavedRun.lineEnded, normalText, normalText, Xml.lineEnds_clean hname, Xml.lineEnds_clean htime,
      String.ofList_toList, String.ofList_toList]

theorem applications_metainfo (runs : List SavedRun) :
    (metainfo runs).children.filter (fun e => e.tag = "application") = runs.map SavedRun.application := by
  rw [metainfo, List.filter_eq_self]
  intro e he
  obtain ⟨r, -, rfl⟩ := List.mem_map.mp he
  rfl

/-- Runs that are read hold characters of a document. -/
structure SavedRun.Valid (r : SavedRun) : Prop where
  name : r.name.toList.all isChar = true
  time : r.time.toList.all isChar = true

private theorem textIn_getD (s : String) : (textIn s).getD "" = s := by
  unfold textIn
  split_ifs with hs
  · exact hs.symm
  · rfl

private theorem textIn_ne (s : String) : textIn s ≠ some "" := by
  unfold textIn
  split_ifs with hs
  · exact (Option.some_ne_none "").symm
  · exact fun h => hs (Option.some.inj h)

theorem valid_of_parse {doc : String} (h : Xml.parse doc = some (metainfo runs)) : ∀ r ∈ runs, r.Valid := by
  intro r hr
  have hdata (c : Char) (hc : c ∈ r.application.charData) : isChar c = true := by
    apply Xml.isChar_charData h c
    rw [metainfo, Element.charData, List.mem_append]
    exact .inr (Xml.mem_childrenData (List.mem_map_of_mem hr) hc)
  have hboth (c : Char) (hc : c ∈ r.name.toList ∨ c ∈ r.time.toList) : isChar c = true := by
    apply hdata
    simp only [SavedRun.application, Element.charData, Xml.childrenData, textIn_getD, List.append_nil,
      List.mem_append]
    exact .inr hc
  exact ⟨List.all_eq_true.mpr fun c hc => hboth c (.inl hc), List.all_eq_true.mpr fun c hc => hboth c (.inr hc)⟩

private theorem bare_leaf {tag text : String} (htag : Xml.AsciiName tag.toList)
    (htext : text.toList.all isChar = true) :
    Element.Bare ⟨tag, [], textIn text, []⟩ := by
  refine ⟨htag, rfl, textIn_ne text, ?_, trivial⟩
  rw [textIn_getD]
  exact htext

private theorem asciiName_tags : Xml.AsciiName "metainfo".toList ∧ Xml.AsciiName "application".toList ∧
    Xml.AsciiName "name".toList ∧ Xml.AsciiName "time".toList :=
  ⟨⟨rfl, rfl⟩, ⟨rfl, rfl⟩, ⟨rfl, rfl⟩, ⟨rfl, rfl⟩⟩

private theorem bare_lines {tag : String} {children : List Element} (htag : Xml.AsciiName tag.toList)
    (hchildren : ∀ e ∈ children, e.Bare) : Element.Bare ⟨tag, [], some "\n", children⟩ :=
  ⟨htag, rfl, by decide, rfl, Xml.allBare_iff.mpr hchildren⟩

private theorem bare_metainfo (hruns : ∀ r ∈ runs, r.Valid) : (metainfo runs).Bare := by
  obtain ⟨hmetainfo, happlication, hname, htime⟩ := asciiName_tags
  apply bare_lines hmetainfo
  intro e he
  obtain ⟨r, hr, rfl⟩ := List.mem_map.mp he
  apply bare_lines happlication
  rw [List.forall_mem_cons, List.forall_mem_singleton]
  exact ⟨bare_leaf hname (hruns r hr).name, bare_leaf htime (hruns r hr).time⟩

private theorem textIn_normalText (s : String) : (textIn s).map normalText = textIn (normalText s) := by
  by_cases hs : s = ""
  · subst hs
    rfl
  · have hne : normalText s ≠ "" := by
      intro h
      rw [normalText, ← String.toList_eq_nil_iff, String.toList_ofList, Xml.lineEnds_eq_nil,
        String.toList_eq_nil_iff] at h
      exact hs h
    rw [textIn, textIn, if_neg hs, if_neg hne]
    rfl

private theorem lineEnded_application (r : SavedRun) : r.application.lineEnded = r.lineEnded.application := by
  simp only [SavedRun.application, SavedRun.lineEnded, Element.lineEnded, Xml.allLineEnded, textIn_normalText]
  rfl

theorem parse_metainfo (hruns : ∀ r ∈ runs, r.Valid) :
    Xml.parse (writeTree (metainfo runs)) = some (metainfo (runs.map SavedRun.lineEnded)) := by
  have hfun : Element.lineEnded ∘ SavedRun.application = SavedRun.application ∘ SavedRun.lineEnded :=
    funext lineEnded_application
  rw [Xml.parse_writeTree (bare_metainfo hruns), metainfo, Element.lineEnded, Xml.allLineEnded_eq_map, List.map_map,
    hfun, metainfo, List.map_map]
  rfl

end documents

section record
variable {r : SavedRun}

/-- A run whose strings record writes without loss of a character. -/
structure SavedRun.Printable (r : SavedRun) : Prop where
  name : Correctness.Printable r.name
  time : Correctness.Printable r.time

def SavedRun.leaves (r : SavedRun) : List (List Char × List Char) :=
  [("name".toList, r.name.toList), ("time".toList, r.time.toList)]

theorem forall_leaves {P : List Char × List Char → Prop} :
    (∀ l ∈ r.leaves, P l) ↔ P ("name".toList, r.name.toList) ∧ P ("time".toList, r.time.toList) := by
  rw [SavedRun.leaves, List.forall_mem_cons, List.forall_mem_singleton]

private theorem plainName_tags : Xml.PlainName "metainfo".toList ∧ Xml.PlainName "application".toList ∧
    Xml.PlainName "name".toList ∧ Xml.PlainName "time".toList := by decide

private theorem plainName_leaves : ∀ l ∈ r.leaves, Xml.PlainName l.1 := forall_leaves.mpr plainName_tags.2.2

private theorem metaText_toList (r : SavedRun) :
    (metaText r.name r.time).toList = Xml.declaration ++ (['\n'] ++ (('<' :: "metainfo".toList ++ ['>']) ++
      (['\n'] ++ (('<' :: "application".toList ++ ['>']) ++ (['\n'] ++
        (r.leaves.flatMap (fun l => Xml.leafText l.1 l.2) ++
          (Xml.closeLine "application".toList ++ Xml.closeLine "metainfo".toList))))))) := by
  have hdeclaration : "<?xml version=\"1.0\"?>\n".toList = Xml.declaration ++ ['\n'] := rfl
  have hmetainfo : "<metainfo>\n".toList = ('<' :: "metainfo".toList ++ ['>']) ++ ['\n'] := rfl
  have happlication : "<application>\n".toList = ('<' :: "application".toList ++ ['>']) ++ ['\n'] := rfl
  have hname : "<name>".toList = '<' :: "name".toList ++ ['>'] := rfl
  have hnameEnd : "</name>\n".toList = ('<' :: '/' :: "name".toList ++ ['>']) ++ ['\n'] := rfl
  have htime : "<time>".toList = '<' :: "time".toList ++ ['>'] := rfl
  have htimeEnd : "</time>\n".toList = ('<' :: '/' :: "time".toList ++ ['>']) ++ ['\n'] := rfl
  have happlicationEnd : "</application>\n".toList = Xml.closeLine "application".toList := rfl
  have hmetainfoEnd : "</metainfo>\n".toList = Xml.closeLine "metainfo".toList := rfl
  unfold metaText SavedRun.leaves
  simp only [String.toList_append, hdeclaration, hmetainfo, happlication, hname, hnameEnd, htime, htimeEnd,
    happlicationEnd, hmetainfoEnd, List.flatMap_cons, List.flatMap_nil, Xml.leafText]
  simp only [List.append_assoc, List.nil_append]

/-- The reader behind the first line of the application. -/
theorem parse_metaText (hr : r.Printable) :
    Xml.parse (metaText r.name r.time) =
      (Xml.feed ⟨.text 0, [⟨"application".toList, [], ['\n'], []⟩, ⟨"metainfo".toList, [], ['\n'], []⟩], none⟩
        (r.leaves.flatMap (fun l => Xml.leafText l.1 l.2) ++
          (Xml.closeLine "application".toList ++ Xml.closeLine "metainfo".toList))).bind Xml.Parser.finish := by
  obtain ⟨hmetainfo, happlication, hname, htime⟩ := asciiName_tags
  have hclean : (metaText r.name r.time).toList.all Xml.isClean = true := by
    have hdeclaration : Xml.declaration.all Xml.isClean = true := by decide
    have hchars : Xml.isClean '<' = true ∧ Xml.isClean '/' = true ∧ Xml.isClean '>' = true ∧
        Xml.isClean '\n' = true := by decide
    rw [metaText_toList]
    simp only [SavedRun.leaves, List.flatMap_cons, List.flatMap_nil, Xml.leafText, Xml.closeLine, List.all_append,
      List.all_cons, List.all_nil, hdeclaration, hchars, Xml.isClean_name hmetainfo.isName,
      Xml.isClean_name happlication.isName, Xml.isClean_name hname.isName, Xml.isClean_name htime.isName,
      hr.name.clean, hr.time.clean, Bool.and_self]
  have hchars := Xml.all_isChar_of_isClean hclean
  have hcr := Xml.cr_not_mem_of_isClean hclean
  have hblank : Xml.feed Xml.blank ['\n'] = some ⟨.text 0, [], none⟩ := rfl
  rw [Xml.parse, Xml.parseChars, if_pos hchars]
  rw [metaText_toList] at hcr ⊢
  rw [if_pos (List.prefix_append _ _), List.drop_left, Xml.lineEnds_clean fun h => hcr (List.mem_append_right _ h),
    Xml.feed_append, hblank, Option.bind_some, Xml.feed_append, Xml.feed_openTag hmetainfo.isName, Option.bind_some,
    Xml.feed_append, Xml.feed_lineFeed, Option.bind_some, Xml.Frame.addText_fresh, Xml.feed_append,
    Xml.feed_openTag happlication.isName, Option.bind_some, Xml.feed_append, Xml.feed_lineFeed, Option.bind_some,
    Xml.Frame.addText_fresh]
  rfl

/-- Runs that need no escaping are read as they were saved. -/
theorem parse_metaText_plain (hr : r.Printable) (hplain : ∀ l ∈ r.leaves, Xml.PlainContent l.2) :
    Xml.parse (metaText r.name r.time) = some (metainfo [r]) := by
  obtain ⟨hmetainfo, happlication, -⟩ := asciiName_tags
  have hspace : Xml.feed ⟨.text 0, [], some (metainfo [r])⟩ ['\n'] = some ⟨.text 0, [], some (metainfo [r])⟩ := rfl
  have hleaves : ∀ l ∈ r.leaves, Xml.isName l.1 = true ∧ Xml.PlainContent l.2 :=
    fun l hl => ⟨(plainName_leaves l hl).isName, hplain l hl⟩
  have helement : Xml.Frame.element (Xml.Frame.addChildren ⟨"metainfo".toList, [], ['\n'], []⟩
      [Xml.Frame.element (Xml.Frame.addChildren ⟨"application".toList, [], ['\n'], []⟩
        (r.leaves.map fun l => Xml.leaf l.1 l.2))]) = metainfo [r] := by
    simp [metainfo, SavedRun.application, SavedRun.leaves, Xml.leaf, Xml.Frame.element, Xml.Frame.addChildren, textIn]
  rw [parse_metaText hr, Xml.feed_append, Xml.feed_leafTexts_plain hleaves, Option.bind_some, Xml.feed_append,
    Xml.feed_closeLine happlication.isName (by rfl), Option.bind_some, Xml.closeLine, Xml.feed_append,
    Xml.feed_closeTag hmetainfo.isName, Xml.closeElement_root (by rfl), Option.bind_some, helement, hspace]
  rfl

private theorem weight_metainfo (hr : r.Printable) : (metainfo [r]).weight = Xml.contentLength r.leaves := by
  have htext {s : String} (hs : Correctness.Printable s) :
      (textIn s).elim 0 (fun s => Xml.textWeight s.toList) = s.toList.length := by
    rw [textIn]
    split_ifs with hempty
    · rw [hempty]
      rfl
    · exact if_neg (hs.not_mem (by decide))
  have hline : Xml.textWeight ['\n'] = 0 := rfl
  simp [metainfo, SavedRun.application, SavedRun.leaves, Element.weight, htext hr.name, htext hr.time, hline]

/-- Record writes the strings of a run as they are. What it has saved is read as that run if and only if
none of them needs to be escaped. -/
theorem parse_metaText_iff (hr : r.Printable) :
    Xml.parse (metaText r.name r.time) = some (metainfo [r]) ↔ ∀ l ∈ r.leaves, Xml.PlainContent l.2 := by
  constructor
  · intro h
    by_contra hplain
    have hmarked : ∃ l ∈ r.leaves, ¬ Xml.PlainContent l.2 := by
      by_contra hclear
      exact hplain fun l hl => by_contra fun hbad => hclear ⟨l, hl, hbad⟩
    obtain ⟨hmetainfo, happlication, -⟩ := plainName_tags
    rw [parse_metaText hr] at h
    obtain ⟨q, hq, hroot⟩ := Option.bind_eq_some_iff.mp h
    obtain ⟨m, hm, hclose⟩ := Xml.feed_append_some.mp hq
    obtain ⟨o, ho, hend⟩ := Xml.feed_append_some.mp hclose
    obtain ⟨-, hlt⟩ := Xml.weight_leafTexts_lt plainName_leaves hmarked hm
    obtain ⟨-, hle⟩ := Xml.settled_closeTag happlication ho
    obtain ⟨-, hle'⟩ := Xml.settled_closeTag hmetainfo hend
    have hstart : (⟨.text 0, [⟨"application".toList, [], ['\n'], []⟩, ⟨"metainfo".toList, [], ['\n'], []⟩],
        none⟩ : Xml.Parser).weight = 0 := rfl
    have hfinish := Xml.weight_finish hroot
    rw [weight_metainfo hr] at hfinish
    omega
  · exact parse_metaText_plain hr

end record

end Roofline.Correctness
