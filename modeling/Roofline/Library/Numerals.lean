import Mathlib.Data.List.Induction
import Mathlib.Algebra.Order.Ring.Nat

/-! Decimal numerals as suffixes of names. A numeral determines its number, and every
nonempty initial part of a positive numeral is itself a positive numeral. -/
namespace Roofline.Library

theorem isDigit_numeral {n : ℕ} {c : Char} (h : c ∈ (toString n).toList) : c.isDigit = true := by
  rw [Nat.toString_eq_repr, Nat.toList_repr] at h
  exact Nat.isDigit_of_mem_toDigits (by decide) (by decide) h

theorem numeral_ne_nil (n : ℕ) : (toString n).toList ≠ [] := by
  rw [Nat.toString_eq_repr, Nat.toList_repr]
  exact Nat.toDigits_ne_nil

private theorem toDigits_injective {m n : ℕ} (h : Nat.toDigits 10 m = Nat.toDigits 10 n) : m = n := by
  simpa using congrArg (fun ds => Nat.ofDigitChars 10 ds 0) h

private theorem repr_inj {m n : ℕ} : m.repr = n.repr ↔ m = n := by
  constructor
  · intro h
    apply toDigits_injective
    rw [← Nat.toList_repr, h, Nat.toList_repr]
  · rintro rfl
    rfl

/-- Names with one stem are told apart by their numerals. -/
theorem numeral_inj (f : String) {m n : ℕ} : f ++ toString m = f ++ toString n ↔ m = n := by
  rw [String.append_right_inj, Nat.toString_eq_repr, Nat.toString_eq_repr, repr_inj]

private theorem toString_injective {i j : Int} (h : toString i = toString j) : i = j := by
  have hsign (m : ℕ) (n : ℕ) : toString m ≠ "-" ++ toString n := by
    intro h
    have hmem : '-' ∈ (toString m).toList := by
      rw [h, String.toList_append]
      exact List.mem_cons_self
    cases isDigit_numeral hmem
  cases i with
  | ofNat m =>
    cases j with
    | ofNat n => exact congrArg Int.ofNat (repr_inj.mp h)
    | negSucc n => exact absurd h (hsign m (n + 1))
  | negSucc m =>
    cases j with
    | ofNat n => exact absurd h.symm (hsign n (m + 1))
    | negSucc n => exact congrArg Int.negSucc (Nat.succ.inj (repr_inj.mp ((String.append_right_inj "-").mp h)))

/-- Names with one stem are told apart by the ints they are numbered with. -/
theorem int32_numeral_inj (f : String) {m n : Int32} :
    f ++ toString m.toInt = f ++ toString n.toInt ↔ m = n := by
  rw [String.append_right_inj]
  constructor
  · intro h
    exact Int32.toInt_inj.mp (toString_injective h)
  · rintro rfl
    rfl

theorem int32_succ_ne (n : Int32) : n + 1 ≠ n := by
  intro h
  have hbits : n.toBitVec + 1#32 = n.toBitVec := congrArg Int32.toBitVec h
  bv_omega

/-- Below 2^31 an int is numbered like a natural number. -/
theorem toString_ofNat_toInt {n : ℕ} (h : n < 2 ^ 31) : toString (Int32.ofNat n).toInt = toString n := by
  rw [Int32.toInt_ofNat_of_lt h]
  rfl

private theorem toDigits_prefix {k : ℕ} {d r : List Char} (hk : 0 < k) (hd : d ≠ [])
    (h : Nat.toDigits 10 k = d ++ r) : ∃ m, 0 < m ∧ m ≤ k ∧ Nat.toDigits 10 m = d := by
  induction r using List.reverseRecOn generalizing k with
  | nil => exact ⟨k, hk, Nat.le_refl k, by simpa using h⟩
  | append_singleton r c ih =>
    have hbig : 10 ≤ k := by
      by_contra hlt
      rw [Nat.toDigits_of_lt_base (by omega)] at h
      have hlen := congrArg List.length h
      have := List.length_pos_iff.mpr hd
      simp at hlen
      omega
    rw [Nat.toDigits_of_base_le (by decide) hbig, ← List.append_assoc] at h
    obtain ⟨m, hm, hle, he⟩ := ih (by omega) (List.append_inj_left' h rfl)
    exact ⟨m, hm, by omega, he⟩

theorem append_numeral_ne (f : String) (m : ℕ) : f ++ toString m ≠ f := by
  intro h
  have hlen := congrArg String.length h
  rw [String.length_append] at hlen
  have hpos : 0 < (toString m).toList.length := List.length_pos_iff.mpr (numeral_ne_nil m)
  rw [String.length_toList] at hpos
  omega

private theorem numeral_stem {f g : String} {m : ℕ} {r : List Char} (hm : 0 < m) (hne : f ≠ g)
    (hg : ∃ d, g.toList = f.toList ++ d ∧ Nat.toDigits 10 m = d ++ r) :
    ∃ k, 0 < k ∧ k ≤ m ∧ f ++ toString k = g := by
  obtain ⟨d, hg, hd⟩ := hg
  have hd' : d ≠ [] := by
    rintro rfl
    rw [List.append_nil] at hg
    exact hne (String.toList_inj.mp hg.symm)
  obtain ⟨k, hk, hle, rfl⟩ := toDigits_prefix hm hd' hd
  refine ⟨k, hk, hle, String.toList_inj.mp ?_⟩
  rw [String.toList_append, hg, Nat.toString_eq_repr, Nat.toList_repr]

/-- Two stems with positive numerals name the same thing only if one stem is the other
with a smaller numeral. -/
theorem numeral_collision {f g : String} {m n : ℕ} (hm : 0 < m) (hn : 0 < n) (hne : f ≠ g)
    (h : f ++ toString m = g ++ toString n) :
    (∃ k, 0 < k ∧ k ≤ m ∧ f ++ toString k = g) ∨ ∃ k, 0 < k ∧ k ≤ n ∧ g ++ toString k = f := by
  have hl := congrArg String.toList h
  rw [String.toList_append, String.toList_append, Nat.toString_eq_repr, Nat.toString_eq_repr,
    Nat.toList_repr, Nat.toList_repr] at hl
  rcases List.append_eq_append_iff.mp hl with ⟨d, hg, hd⟩ | ⟨d, hf, hd⟩
  · exact .inl (numeral_stem hm hne ⟨d, hg, hd⟩)
  · exact .inr (numeral_stem hn hne.symm ⟨d, hf, hd⟩)

end Roofline.Library
