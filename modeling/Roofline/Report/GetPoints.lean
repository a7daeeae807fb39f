import Roofline.Library.Xml
import Roofline.Library.Numerals
import Mathlib.Data.List.Forall2
import Mathlib.Algebra.Order.Ring.Nat

/-! get_points, which joins the two files of a recording by the labels of their points
(roofline.py). Float arithmetic is a parameter, and so is the search for a label that
ends the quotation it is put in. -/
namespace Roofline.Report
open Library.Xml (Element parse)

inductive PyError where
  | parseError
  | syntaxError
  | attributeError
  | keyError (key : String)
  | typeError
  | valueError (text : String)
  | zeroDivisionError
  | assertionError (message : String)
  deriving DecidableEq, Repr

def orRaise {α : Type} (x : Option α) (e : PyError) : Except PyError α := x.elim (.error e) .ok

/-- Floats of Python, without its checks for a zero divisor, and ElementPath on any path. -/
structure Python (F : Type) where
  float : String → Option F
  isZero : F → Bool
  div : F → F → F
  /-- The literal 1e9. -/
  giga : F
  findall : Element → String → Except PyError (List Element)

structure Point (F : Type) where
  totalFlops : F
  color : ℤ
  appName : String
  totalTime : F
  totalBytes : F
  readBytes : F
  writeBytes : F
  flopsPerByte : F
  gflopsPerSec : F
  label : String
  startLine : ℤ
  endLine : ℤ
  startSrc : Option String
  endSrc : Option String
  deriving DecidableEq, Repr

/-- The digits of an int literal, with single underscores between them. -/
def intDigits (afterDigit : Bool) (n : ℕ) : List Char → Option ℕ
  | [] => if afterDigit then some n else none
  | c :: cs =>
    if c.isDigit then intDigits true (10 * n + (c.toNat - 48)) cs
    else if c = '_' ∧ afterDigit then intDigits false n cs
    else none

/-- White space of Python within ASCII. -/
def isStripped (c : Char) : Bool :=
  c = ' ' || (9 ≤ c.toNat && c.toNat ≤ 13) || (28 ≤ c.toNat && c.toNat ≤ 31)

/-- int of an ASCII string, none for a ValueError. -/
def pyInt (text : String) : Option ℤ :=
  match ((text.toList.dropWhile isStripped).reverse.dropWhile isStripped).reverse with
  | '-' :: cs => (intDigits false 0 cs).map fun n => -(n : ℤ)
  | '+' :: cs => (intDigits false 0 cs).map Int.ofNat
  | cs => (intDigits false 0 cs).map Int.ofNat

/-- p.attrib[key] -/
def attribOf (p : Element) (key : String) : Except PyError String :=
  match p.attrib.lookup key with
  | some value => .ok value
  | none => .error (.keyError key)

/-- p.find(tag).text -/
def textOf (p : Element) (tag : String) : Except PyError (Option String) :=
  match p.children.find? fun e => e.tag = tag with
  | some e => .ok e.text
  | none => .error .attributeError

/-- int(p.find(tag).text) -/
def intOf (p : Element) (tag : String) : Except PyError ℤ := do
  match ← textOf p tag with
  | none => .error .typeError
  | some text => orRaise (pyInt text) (.valueError text)

namespace Python
variable {F : Type} (py : Python F)

/-- float(p.find(tag).text) -/
def floatOf (p : Element) (tag : String) : Except PyError F := do
  match ← textOf p tag with
  | none => .error .typeError
  | some text => orRaise (py.float text) (.valueError text)

def quotient (x y : F) : Except PyError F :=
  if py.isZero y then .error .zeroDivisionError else .ok (py.div x y)

/-- root.findall("point[@label='{}']".format(label)) -/
def findPoints (root : Element) (label : String) : Except PyError (List Element) :=
  if Library.Xml.apostrophe ∈ label.toList then py.findall root ("point[@label='" ++ label ++ "']")
  else .ok (root.children.filter fun e => e.tag = "point" && e.attrib.lookup "label" = some label)

/-- One iteration of the loop in get_points. -/
def getPoint (colourN : ℤ) (name : String) (rootTime p : Element) : Except PyError (Point F) := do
  let label ← attribOf p "label"
  let appFlops ← py.floatOf p "flops"
  let appBytes ← py.floatOf p "bytes"
  let readBytes ← py.floatOf p "read_bytes"
  let writeBytes ← py.floatOf p "write_bytes"
  let srcFileStart ← textOf p "src_file_start"
  let srcFileEnd ← textOf p "src_file_end"
  let lineStart ← intOf p "line_n_start"
  let lineEnd ← intOf p "line_n_end"
  match ← py.findPoints rootTime label with
  | [t] =>
    let appTime ← py.floatOf t "time"
    if py.isZero appTime then
      throw (.assertionError "Your application runtime looks like to be zero")
    let appGflops := py.div appFlops py.giga
    let flopsPerByte ← py.quotient appFlops appBytes
    let gflopsPerSec ← py.quotient appGflops appTime
    return {
      totalFlops := appFlops
      appName := name
      color := colourN
      totalTime := appTime
      totalBytes := appBytes
      readBytes := readBytes
      writeBytes := writeBytes
      flopsPerByte := flopsPerByte
      gflopsPerSec := gflopsPerSec
      label := label
      startLine := lineStart
      endLine := lineEnd
      startSrc := srcFileStart
      endSrc := srcFileEnd }
  | _ =>
    throw (.assertionError
      ("Label " ++ label ++ " not found or present multiple times! Have you defined it correctly?"))

/-- The points of the two files, given by what is in them. -/
def getPoints (colourN : ℤ) (name roofline rooflineTime : String) :
    Except PyError (List (Point F)) := do
  if ¬ colourN ≤ 5 then
    throw (.assertionError "Please select less than 5 different files")
  let root ← orRaise (parse roofline) .parseError
  let rootTime ← orRaise (parse rooflineTime) .parseError
  (root.children.filter fun e => e.tag = "point").mapM (py.getPoint colourN name rootTime)

end Python

section numerals

private theorem intDigits_of_digits {cs : List Char} (hcs : ∀ c ∈ cs, c.isDigit = true) (n : ℕ) (b : Bool)
    (hb : b = true ∨ cs ≠ []) : intDigits b n cs = some (Nat.ofDigitChars 10 cs n) := by
  induction cs generalizing n b with
  | nil =>
    obtain rfl : b = true := by simpa using hb
    simp [intDigits]
  | cons c cs ih =>
    rw [intDigits, if_pos (hcs c (by simp)), ih (fun d hd => hcs d (by simp [hd])) _ true (.inl rfl),
      Nat.ofDigitChars_cons]
    rfl

private theorem dropWhile_isStripped {cs : List Char} (hcs : ∀ c ∈ cs, c.isDigit = true) :
    cs.dropWhile isStripped = cs := by
  cases cs with
  | nil => rfl
  | cons c cs =>
    have hc := hcs c (by simp)
    simp only [Char.isDigit, Bool.and_eq_true, decide_eq_true_eq] at hc
    have hc : 48 ≤ c.toNat := hc.1
    have hblank : c ≠ ' ' := by
      rintro rfl
      exact absurd hc (by decide)
    have hstripped : isStripped c = false := by
      simp [isStripped, hblank]
      omega
    simp [hstripped]

theorem intDigits_toString (n : ℕ) : intDigits false 0 (toString n).toList = some n := by
  rw [intDigits_of_digits (fun c hc => Library.isDigit_numeral hc) 0 false (.inr (Library.numeral_ne_nil n)),
    Nat.toString_eq_repr, Nat.toList_repr, Nat.ofDigitChars_ten_toDigits]

/-- The int of a written natural number. -/
theorem pyInt_toString (n : ℕ) : pyInt (toString n) = some (n : ℤ) := by
  have hdigits : ∀ c ∈ (toString n).toList, c.isDigit = true := fun c hc => Library.isDigit_numeral hc
  have hreverse : ∀ c ∈ (toString n).toList.reverse, c.isDigit = true := by simpa using hdigits
  have hint := intDigits_toString n
  rw [pyInt, dropWhile_isStripped hdigits, dropWhile_isStripped hreverse, List.reverse_reverse]
  generalize (toString n).toList = cs at *
  split
  · exact absurd (hdigits '-' (by simp)) (by decide)
  · exact absurd (hdigits '+' (by simp)) (by decide)
  · rw [hint]
    rfl

private theorem intDigits_lt {cs : List Char} {b : Bool} {m n : ℕ} (h : intDigits b m cs = some n) :
    n < (m + 1) * 10 ^ cs.countP Char.isDigit ∧ (b = false → 0 < cs.countP Char.isDigit) := by
  induction cs generalizing b m with
  | nil =>
    cases b with
    | false => cases h
    | true =>
      obtain rfl := Option.some.inj h
      simp
  | cons c cs ih =>
    rw [intDigits] at h
    split_ifs at h with hdigit hunderscore
    · obtain ⟨hlt, -⟩ := ih h
      have hc : c.toNat - 48 ≤ 9 := by
        simp only [Char.isDigit, Bool.and_eq_true, decide_eq_true_eq] at hdigit
        have hc : c.toNat ≤ 57 := hdigit.2
        omega
      rw [List.countP_cons_of_pos hdigit]
      refine ⟨Nat.lt_of_lt_of_le hlt ?_, fun _ => Nat.succ_pos _⟩
      calc (10 * m + (c.toNat - 48) + 1) * 10 ^ cs.countP Char.isDigit
          ≤ (10 * (m + 1)) * 10 ^ cs.countP Char.isDigit := Nat.mul_le_mul_right _ (by omega)
        _ = (m + 1) * 10 ^ (cs.countP Char.isDigit + 1) := by
          rw [Nat.pow_succ, Nat.mul_comm 10, Nat.mul_assoc, Nat.mul_comm 10]
    · obtain ⟨hlt, hpos⟩ := ih h
      rw [List.countP_cons_of_neg hdigit]
      exact ⟨hlt, fun _ => hpos rfl⟩

/-- A natural number has no more digits than a text that is read as this number. -/
theorem length_le_of_pyInt {text : String} {n : ℕ} (h : pyInt text = some (n : ℤ)) :
    (toString n).toList.length ≤ text.toList.countP Char.isDigit := by
  have hstrip : (((text.toList.dropWhile isStripped).reverse.dropWhile isStripped).reverse).countP Char.isDigit ≤
      text.toList.countP Char.isDigit := by
    have hdrop (cs : List Char) :
        (cs.dropWhile isStripped).countP Char.isDigit ≤ cs.countP Char.isDigit :=
      (List.dropWhile_sublist isStripped).countP_le
    have hback := hdrop (text.toList.dropWhile isStripped).reverse
    rw [List.countP_reverse] at hback ⊢
    exact Nat.le_trans hback (hdrop text.toList)
  have hdigits {cs : List Char} (hcs : intDigits false 0 cs = some n) :
      (toString n).toList.length ≤ cs.countP Char.isDigit := by
    obtain ⟨hlt, hpos⟩ := intDigits_lt hcs
    rw [Nat.zero_add, Nat.one_mul] at hlt
    rw [Nat.toString_eq_repr, Nat.toList_repr]
    exact (Nat.length_toDigits_le_iff (by decide) (hpos rfl)).mpr hlt
  refine Nat.le_trans ?_ hstrip
  unfold pyInt at h
  split at h
  · next cs hcs =>
    obtain ⟨x, hx, hneg⟩ := Option.map_eq_some_iff.mp h
    obtain ⟨k, hk, hkx⟩ := Option.bind_eq_some_iff.mp hx
    have hkx : (k : ℤ) = x := Option.some.inj hkx
    obtain rfl : k = n := by omega
    rw [hcs, List.countP_cons_of_neg (by decide)]
    exact hdigits hk
  · next cs hcs =>
    obtain ⟨k, hk, hpos⟩ := Option.map_eq_some_iff.mp h
    obtain rfl : k = n := Int.ofNat.inj hpos
    rw [hcs, List.countP_cons_of_neg (by decide)]
    exact hdigits hk
  · obtain ⟨k, hk, hpos⟩ := Option.map_eq_some_iff.mp h
    obtain rfl : k = n := Int.ofNat.inj hpos
    exact hdigits hk

end numerals

section results
variable {α β F : Type} {py : Python F}

theorem bind_eq_ok {ε : Type} {x : Except ε α} {f : α → Except ε β} {b : β} :
    (x >>= f) = .ok b ↔ ∃ a, x = .ok a ∧ f a = .ok b := by
  cases x with
  | error e => simp [bind, Except.bind]
  | ok a => simp [bind, Except.bind]

private theorem bind_eq_error {ε : Type} {x : Except ε α} {f : α → Except ε β} {e : ε} :
    (x >>= f) = .error e ↔ x = .error e ∨ ∃ a, x = .ok a ∧ f a = .error e := by
  cases x with
  | error e' => simp [bind, Except.bind]
  | ok a => simp [bind, Except.bind]

theorem orRaise_eq_ok {x : Option α} {e : PyError} {a : α} : orRaise x e = .ok a ↔ x = some a := by
  cases x <;> simp [orRaise]

theorem mapM_eq_ok {f : α → Except PyError β} {xs : List α} {ys : List β} (h : xs.mapM f = .ok ys) :
    List.Forall₂ (fun x y => f x = .ok y) xs ys := by
  induction xs generalizing ys with
  | nil =>
    obtain rfl := Except.ok.inj h
    exact .nil
  | cons x xs ih =>
    rw [List.mapM_cons, bind_eq_ok] at h
    obtain ⟨y, hy, h⟩ := h
    obtain ⟨ys, hys, h⟩ := bind_eq_ok.mp h
    obtain rfl := Except.ok.inj h
    exact .cons hy (ih hys)

theorem ok_bind {ε : Type} (a : α) (f : α → Except ε β) : (Except.ok a >>= f) = f a := rfl

theorem forall₂_getElem? {R : α → β → Prop} {xs : List α} {ys : List β} (h : List.Forall₂ R xs ys)
    {i : ℕ} {x : α} {y : β} (hx : xs[i]? = some x) (hy : ys[i]? = some y) : R x y := by
  obtain ⟨hi, rfl⟩ := List.getElem?_eq_some_iff.mp hx
  obtain ⟨hi', rfl⟩ := List.getElem?_eq_some_iff.mp hy
  exact h.get hi hi'

/-- The loop returns exactly if every element gives a point. -/
theorem exists_mapM_iff {f : α → Except PyError β} {xs : List α} :
    (∃ ys, xs.mapM f = .ok ys) ↔ ∀ x ∈ xs, ∃ y, f x = .ok y := by
  constructor
  · rintro ⟨ys, h⟩ x hx
    obtain ⟨i, hi⟩ := List.getElem?_of_mem hx
    have hall := mapM_eq_ok h
    have hlt : i < ys.length := hall.length_eq ▸ (List.getElem?_eq_some_iff.mp hi).1
    obtain ⟨y, hy⟩ : ∃ y, ys[i]? = some y := ⟨_, List.getElem?_eq_getElem hlt⟩
    exact ⟨y, forall₂_getElem? hall hi hy⟩
  · intro h
    induction xs with
    | nil => exact ⟨[], rfl⟩
    | cons x xs ih =>
      rw [List.forall_mem_cons] at h
      obtain ⟨⟨y, hy⟩, hxs⟩ := h
      obtain ⟨ys, hys⟩ := ih hxs
      refine ⟨y :: ys, ?_⟩
      rw [List.mapM_cons, hy, ok_bind, hys, ok_bind]
      rfl

/-- The loop raises what its first element without a value raises. -/
theorem mapM_eq_error {f : α → Except PyError β} {xs : List α} {e : PyError} :
    xs.mapM f = .error e ↔
      ∃ before x after, xs = before ++ x :: after ∧ f x = .error e ∧ ∀ y ∈ before, ∃ z, f y = .ok z := by
  constructor
  · intro h
    induction xs with
    | nil => cases h
    | cons x xs ih =>
      rw [List.mapM_cons] at h
      obtain hx | ⟨y, hy, h⟩ := bind_eq_error.mp h
      · exact ⟨[], x, xs, rfl, hx, fun y hy => absurd hy List.not_mem_nil⟩
      · obtain hxs | ⟨ys, -, h⟩ := bind_eq_error.mp h
        · obtain ⟨before, x', after, rfl, herror, hbefore⟩ := ih hxs
          exact ⟨x :: before, x', after, rfl, herror, List.forall_mem_cons.mpr ⟨⟨y, hy⟩, hbefore⟩⟩
        · cases h
  · rintro ⟨before, x, after, rfl, hx, hbefore⟩
    induction before with
    | nil =>
      rw [List.nil_append, List.mapM_cons, hx]
      rfl
    | cons y before ih =>
      rw [List.forall_mem_cons] at hbefore
      obtain ⟨⟨z, hz⟩, hbefore⟩ := hbefore
      rw [List.cons_append, List.mapM_cons, hz, ok_bind, ih hbefore]
      rfl

/-- What is known of a point that the loop appends. -/
structure Joined (py : Python F) (rootTime p : Element) (P : Point F) (t : Element) : Prop where
  label : attribOf p "label" = .ok P.label
  flops : py.floatOf p "flops" = .ok P.totalFlops
  bytes : py.floatOf p "bytes" = .ok P.totalBytes
  readBytes : py.floatOf p "read_bytes" = .ok P.readBytes
  writeBytes : py.floatOf p "write_bytes" = .ok P.writeBytes
  startSrc : textOf p "src_file_start" = .ok P.startSrc
  endSrc : textOf p "src_file_end" = .ok P.endSrc
  startLine : intOf p "line_n_start" = .ok P.startLine
  endLine : intOf p "line_n_end" = .ok P.endLine
  found : py.findPoints rootTime P.label = .ok [t]
  time : py.floatOf t "time" = .ok P.totalTime

theorem getPoint_eq_ok {colourN : ℤ} {name : String} {rootTime p : Element} {P : Point F}
    (h : py.getPoint colourN name rootTime p = .ok P) : ∃ t, Joined py rootTime p P t := by
  unfold Python.getPoint at h
  obtain ⟨label, hlabel, h⟩ := bind_eq_ok.mp h
  obtain ⟨flops, hflops, h⟩ := bind_eq_ok.mp h
  obtain ⟨bytes, hbytes, h⟩ := bind_eq_ok.mp h
  obtain ⟨reads, hreads, h⟩ := bind_eq_ok.mp h
  obtain ⟨writes, hwrites, h⟩ := bind_eq_ok.mp h
  obtain ⟨startSrc, hstartSrc, h⟩ := bind_eq_ok.mp h
  obtain ⟨endSrc, hendSrc, h⟩ := bind_eq_ok.mp h
  obtain ⟨startLine, hstartLine, h⟩ := bind_eq_ok.mp h
  obtain ⟨endLine, hendLine, h⟩ := bind_eq_ok.mp h
  obtain ⟨found, hfound, h⟩ := bind_eq_ok.mp h
  match found, hfound, h with
  | [], _, h => cases h
  | _ :: _ :: _, _, h => cases h
  | [t], hfound, h =>
    obtain ⟨time, htime, h⟩ := bind_eq_ok.mp h
    split_ifs at h with hzero
    · cases h
    · obtain ⟨perByte, -, h⟩ := bind_eq_ok.mp h
      obtain ⟨perSec, -, h⟩ := bind_eq_ok.mp h
      obtain rfl := Except.ok.inj h
      exact ⟨t, hlabel, hflops, hbytes, hreads, hwrites, hstartSrc, hendSrc, hstartLine, hendLine, hfound, htime⟩

/-- The points of a normal return are those of the first file, in order. -/
theorem getPoints_eq_ok {colourN : ℤ} {name roofline rooflineTime : String} {Ps : List (Point F)}
    (h : py.getPoints colourN name roofline rooflineTime = .ok Ps) :
    ∃ root rootTime, parse roofline = some root ∧ parse rooflineTime = some rootTime ∧
      List.Forall₂ (fun p P => ∃ t, Joined py rootTime p P t)
        (root.children.filter fun e => e.tag = "point") Ps := by
  unfold Python.getPoints at h
  by_cases hcolour : colourN ≤ 5
  · simp only [hcolour, not_true, if_false] at h
    obtain ⟨-, -, h⟩ := bind_eq_ok.mp h
    obtain ⟨root, hroot, h⟩ := bind_eq_ok.mp h
    obtain ⟨rootTime, hrootTime, h⟩ := bind_eq_ok.mp h
    refine ⟨root, rootTime, orRaise_eq_ok.mp hroot, orRaise_eq_ok.mp hrootTime, ?_⟩
    exact (mapM_eq_ok h).imp fun p P hP => getPoint_eq_ok hP
  · simp only [hcolour, not_false_iff, if_true] at h
    cases h

/-- The fields of an element that can be read. -/
structure Readings (py : Python F) (p : Element) (label : String) (flops bytes : F) : Prop where
  label : attribOf p "label" = .ok label
  flops : py.floatOf p "flops" = .ok flops
  bytes : py.floatOf p "bytes" = .ok bytes
  readBytes : ∃ x, py.floatOf p "read_bytes" = .ok x
  writeBytes : ∃ x, py.floatOf p "write_bytes" = .ok x
  startSrc : ∃ s, textOf p "src_file_start" = .ok s
  endSrc : ∃ s, textOf p "src_file_end" = .ok s
  startLine : ∃ n, intOf p "line_n_start" = .ok n
  endLine : ∃ n, intOf p "line_n_end" = .ok n

section outcome
variable (colourN : ℤ) (name : String) {label : String} {rootTime p t : Element} {flops bytes time : F}

/-- The loop stops where the label is not there exactly once. -/
theorem getPoint_ambiguous (h : Readings py p label flops bytes) {found : List Element}
    (hfound : py.findPoints rootTime label = .ok found) (hlen : found.length ≠ 1) :
    ∃ message, py.getPoint colourN name rootTime p = .error (.assertionError message) := by
  obtain ⟨reads, hreads⟩ := h.readBytes
  obtain ⟨writes, hwrites⟩ := h.writeBytes
  obtain ⟨startSrc, hstartSrc⟩ := h.startSrc
  obtain ⟨endSrc, hendSrc⟩ := h.endSrc
  obtain ⟨startLine, hstartLine⟩ := h.startLine
  obtain ⟨endLine, hendLine⟩ := h.endLine
  simp only [Python.getPoint, h.label, h.flops, h.bytes, hreads, hwrites, hstartSrc, hendSrc, hstartLine, hendLine,
    hfound, ok_bind]
  match found, hlen with
  | [], _ => exact ⟨_, rfl⟩
  | _ :: _ :: _, _ => exact ⟨_, rfl⟩

/-- Where the label is there once, the time decides whether the loop stops, and then the bytes
whether it divides by zero. -/
theorem getPoint_found (h : Readings py p label flops bytes) (hfound : py.findPoints rootTime label = .ok [t])
    (htime : py.floatOf t "time" = .ok time) :
    (py.isZero time = true → ∃ message, py.getPoint colourN name rootTime p = .error (.assertionError message)) ∧
      (py.isZero time = false → py.isZero bytes = true →
        py.getPoint colourN name rootTime p = .error .zeroDivisionError) ∧
      (py.isZero time = false → py.isZero bytes = false → ∃ P, py.getPoint colourN name rootTime p = .ok P) := by
  obtain ⟨reads, hreads⟩ := h.readBytes
  obtain ⟨writes, hwrites⟩ := h.writeBytes
  obtain ⟨startSrc, hstartSrc⟩ := h.startSrc
  obtain ⟨endSrc, hendSrc⟩ := h.endSrc
  obtain ⟨startLine, hstartLine⟩ := h.startLine
  obtain ⟨endLine, hendLine⟩ := h.endLine
  simp only [Python.getPoint, h.label, h.flops, h.bytes, hreads, hwrites, hstartSrc, hendSrc, hstartLine, hendLine,
    hfound, htime, ok_bind, Python.quotient]
  refine ⟨fun hzero => ?_, fun hzero hbytes => ?_, fun hzero hbytes => ?_⟩
  · simp only [hzero, if_true]
    exact ⟨_, rfl⟩
  · simp only [hzero, hbytes]
    rfl
  · simp only [hzero, hbytes]
    exact ⟨_, rfl⟩

variable (py) in
/-- An assertion stops the loop at an element: its fields can be read, but its label is not there
exactly once, or the time is zero. -/
def Stops (rootTime p : Element) : Prop :=
  ∃ label flops bytes found, Readings py p label flops bytes ∧ py.findPoints rootTime label = .ok found ∧
    (found.length ≠ 1 ∨ ∃ t time, found = [t] ∧ py.floatOf t "time" = .ok time ∧ py.isZero time = true)

variable (py) in
/-- The loop makes a point of an element: its fields can be read, its label is there once, and
neither the time nor the bytes are zero. -/
def Divides (rootTime p : Element) : Prop :=
  ∃ label flops bytes t time, Readings py p label flops bytes ∧ py.findPoints rootTime label = .ok [t] ∧
    py.floatOf t "time" = .ok time ∧ py.isZero time = false ∧ py.isZero bytes = false

/-- ElementPath has no assertions. -/
def NoAsserts (py : Python F) : Prop :=
  ∀ root path message, py.findall root path ≠ .error (.assertionError message)

/-- A value or an assertion. -/
def Settled (result : Except PyError α) : Prop :=
  ∀ e, result = .error e → ∃ message, e = .assertionError message

private theorem Settled.of_bind {x : Except PyError α} {f : α → Except PyError β} (h : Settled (x >>= f))
    (hx : ∀ message, x ≠ .error (.assertionError message)) : ∃ a, x = .ok a ∧ Settled (f a) := by
  cases x with
  | error e =>
    obtain ⟨message, rfl⟩ := h e rfl
    exact absurd rfl (hx message)
  | ok a => exact ⟨a, rfl, h⟩

private theorem attribOf_ne_assertion (key message : String) : attribOf p key ≠ .error (.assertionError message) := by
  unfold attribOf
  split <;> simp

private theorem textOf_ne_assertion (tag message : String) : textOf p tag ≠ .error (.assertionError message) := by
  unfold textOf
  split <;> simp

private theorem orRaise_ne_assertion (x : Option α) (text message : String) :
    orRaise x (.valueError text) ≠ .error (.assertionError message) := by
  cases x <;> simp [orRaise]

private theorem floatOf_ne_assertion (tag message : String) : py.floatOf p tag ≠ .error (.assertionError message) := by
  unfold Python.floatOf
  intro h
  obtain h | ⟨text, -, h⟩ := bind_eq_error.mp h
  · exact textOf_ne_assertion tag message h
  · cases text with
    | none => cases h
    | some text => exact orRaise_ne_assertion _ _ message h

private theorem intOf_ne_assertion (tag message : String) : intOf p tag ≠ .error (.assertionError message) := by
  unfold intOf
  intro h
  obtain h | ⟨text, -, h⟩ := bind_eq_error.mp h
  · exact textOf_ne_assertion tag message h
  · cases text with
    | none => cases h
    | some text => exact orRaise_ne_assertion _ _ message h

private theorem findPoints_ne_assertion (hfind : NoAsserts py) (message : String) :
    py.findPoints rootTime label ≠ .error (.assertionError message) := by
  unfold Python.findPoints
  split
  · exact hfind _ _ message
  · simp

private theorem getPoint_of_stops (h : Stops py rootTime p) :
    ∃ message, py.getPoint colourN name rootTime p = .error (.assertionError message) := by
  obtain ⟨label, flops, bytes, found, hreadings, hfound, hlen | ⟨t, time, rfl, htime, hzero⟩⟩ := h
  · exact getPoint_ambiguous colourN name hreadings hfound hlen
  · exact (getPoint_found colourN name hreadings hfound htime).1 hzero

private theorem getPoint_of_divides (h : Divides py rootTime p) : ∃ P, py.getPoint colourN name rootTime p = .ok P := by
  obtain ⟨label, flops, bytes, t, time, hreadings, hfound, htime, hzero, hbytes⟩ := h
  exact (getPoint_found colourN name hreadings hfound htime).2.2 hzero hbytes

/-- Whatever the loop meets otherwise is no assertion of get_points. -/
theorem getPoint_settled (hfind : NoAsserts py) (h : Settled (py.getPoint colourN name rootTime p)) :
    Stops py rootTime p ∨ Divides py rootTime p := by
  have hall := h
  unfold Python.getPoint at h
  obtain ⟨label, hlabel, h⟩ := h.of_bind (attribOf_ne_assertion "label")
  obtain ⟨flops, hflops, h⟩ := h.of_bind (floatOf_ne_assertion "flops")
  obtain ⟨bytes, hbytes, h⟩ := h.of_bind (floatOf_ne_assertion "bytes")
  obtain ⟨reads, hreads, h⟩ := h.of_bind (floatOf_ne_assertion "read_bytes")
  obtain ⟨writes, hwrites, h⟩ := h.of_bind (floatOf_ne_assertion "write_bytes")
  obtain ⟨startSrc, hstartSrc, h⟩ := h.of_bind (textOf_ne_assertion "src_file_start")
  obtain ⟨endSrc, hendSrc, h⟩ := h.of_bind (textOf_ne_assertion "src_file_end")
  obtain ⟨startLine, hstartLine, h⟩ := h.of_bind (intOf_ne_assertion "line_n_start")
  obtain ⟨endLine, hendLine, h⟩ := h.of_bind (intOf_ne_assertion "line_n_end")
  obtain ⟨found, hfound, h⟩ := h.of_bind (findPoints_ne_assertion hfind)
  have hreadings : Readings py p label flops bytes :=
    ⟨hlabel, hflops, hbytes, ⟨_, hreads⟩, ⟨_, hwrites⟩, ⟨_, hstartSrc⟩, ⟨_, hendSrc⟩, ⟨_, hstartLine⟩, ⟨_, hendLine⟩⟩
  match found, hfound, h with
  | [], hfound, _ => exact .inl ⟨label, flops, bytes, [], hreadings, hfound, .inl (by simp)⟩
  | t :: t' :: ts, hfound, _ => exact .inl ⟨label, flops, bytes, t :: t' :: ts, hreadings, hfound, .inl (by simp)⟩
  | [t], hfound, h =>
    obtain ⟨time, htime, -⟩ := h.of_bind (floatOf_ne_assertion "time")
    cases hzero : py.isZero time with
    | true => exact .inl ⟨label, flops, bytes, [t], hreadings, hfound, .inr ⟨t, time, rfl, htime, hzero⟩⟩
    | false =>
      cases hbytesZero : py.isZero bytes with
      | true =>
        have hdivides := (getPoint_found colourN name hreadings hfound htime).2.1 hzero hbytesZero
        obtain ⟨message, hmessage⟩ := hall _ hdivides
        cases hmessage
      | false => exact .inr ⟨label, flops, bytes, t, time, hreadings, hfound, htime, hzero, hbytesZero⟩

theorem getPoint_asserts_iff (hfind : NoAsserts py) :
    (∃ message, py.getPoint colourN name rootTime p = .error (.assertionError message)) ↔ Stops py rootTime p := by
  refine ⟨?_, getPoint_of_stops colourN name⟩
  rintro ⟨message, h⟩
  have hsettled : Settled (py.getPoint colourN name rootTime p) := by
    intro e he
    exact ⟨message, Except.error.inj (he.symm.trans h)⟩
  obtain hstops | hdivides := getPoint_settled colourN name hfind hsettled
  · exact hstops
  · obtain ⟨P, hP⟩ := getPoint_of_divides colourN name hdivides
    cases hP.symm.trans h

theorem getPoint_returns_iff (hfind : NoAsserts py) :
    (∃ P, py.getPoint colourN name rootTime p = .ok P) ↔ Divides py rootTime p := by
  refine ⟨?_, getPoint_of_divides colourN name⟩
  rintro ⟨P, h⟩
  have hsettled : Settled (py.getPoint colourN name rootTime p) := by
    intro e he
    cases he.symm.trans h
  obtain hstops | hdivides := getPoint_settled colourN name hfind hsettled
  · obtain ⟨message, herror⟩ := getPoint_of_stops colourN name hstops
    cases herror.symm.trans h
  · exact hdivides

end outcome
end results
end Roofline.Report
