import SharedConfig.Decimal.Shortest
import SharedConfig.Proofs.Decimal.Rounding
import SharedConfig.Yaml.Scalar

/-!
# SharedConfig.Proofs.Decimal.Text

What is written for a number is read as that number.

The digits that are written are a decimal number that is read as the binary one, whether the search
finds few of them or the exact form is taken; a layout places point and zeros so that reading the
text gives digits and exponent of the same value, and reading depends on the value alone.

* `shortest_reads`: the digits of a number are read as the number.
* `magnitude?_positional`, `magnitude?_scientific`: a layout is read as its digits.
* `ofText?_write`: the text of a finite number is read as the number.
* `intOfDigits?_toString`: the text of an integer is read as the integer.
-/

namespace SharedConfig

/-! ## Digits of a number -/

namespace Digits

/-- The number that digits and exponent stand for. -/
def value (d : Digits) : ℚ := d.digits * 10 ^ d.exponent

theorem value_trim (fuel : ℕ) (d : Digits) : (trim fuel d).value = d.value := by
  induction fuel generalizing d with
  | zero => rfl
  | succ fuel ih =>
    rw [trim]
    split
    · rename_i h
      rw [ih, value, value]
      have hdiv : (d.digits : ℚ) = (d.digits / 10 : ℕ) * 10 := by
        exact_mod_cast (Nat.div_mul_cancel (Nat.dvd_of_mod_eq_zero h.2)).symm
      rw [zpow_add_one₀ (by norm_num), hdiv]
      ring
    · rfl

theorem value_exact (significand : ℕ) (exponent : ℤ) :
    (exact significand exponent).value = significand * 2 ^ exponent := by
  unfold exact
  split
  · rename_i h
    obtain ⟨n, rfl⟩ : ∃ n : ℕ, exponent = -n := ⟨(-exponent).toNat, by omega⟩
    simp only [value, neg_neg, Int.toNat_natCast, Nat.pow_eq, zpow_neg, zpow_natCast]
    push_cast
    have hten : (10 : ℚ) = 2 * 5 := by norm_num
    rw [hten, mul_pow]
    field_simp
  · rename_i h
    obtain ⟨n, rfl⟩ : ∃ n : ℕ, exponent = n := ⟨exponent.toNat, by omega⟩
    simp [value]

theorem ofDecimal_trim (negative : Bool) (fuel : ℕ) (d : Digits) :
    Binary64.ofDecimal negative (trim fuel d).digits (trim fuel d).exponent =
      Binary64.ofDecimal negative d.digits d.exponent :=
  Binary64.ofDecimal_congr negative (value_trim fuel d)

theorem shortest_reads {significand : ℕ} {exponent : ℤ} {negative : Bool}
    (h : (Binary64.finite negative significand exponent).IsCanonical) (hpos : 0 < significand) :
    Binary64.ofDecimal negative (shortest significand exponent).digits
      (shortest significand exponent).exponent = .finite negative significand exponent := by
  dsimp only [shortest]
  split
  · rename_i c hfound
    rw [ofDecimal_trim, ← Binary64.signed_ofDecimal negative false, shortest_reads_back hfound]
    rfl
  · have hdigits : 0 < (exact significand exponent).digits := by
      unfold exact
      split
      · exact Nat.mul_pos hpos (Nat.pow_pos (by decide))
      · exact Nat.mul_pos hpos (Nat.pow_pos (by decide))
    rw [ofDecimal_trim, Binary64.ofDecimal_eq_ofRational negative hdigits, ← value, value_exact]
    exact Binary64.ofRational_of_isCanonical h hpos

end Digits

/-! ## Texts of digits -/

theorem isDecimalDigit_eq_isDigit (c : Char) : isDecimalDigit c = c.isDigit := by
  simp [isDecimalDigit, Char.isDigit, Char.le_def]

def IsNumeral (cs : List Char) : Prop := cs ≠ [] ∧ ∀ c ∈ cs, isDecimalDigit c = true

theorem isNumeral_toDigits (n : ℕ) : IsNumeral (Nat.toDigits 10 n) := by
  refine ⟨Nat.toDigits_ne_nil, fun c hc => ?_⟩
  rw [isDecimalDigit_eq_isDigit]
  exact Nat.isDigit_of_mem_toDigits (by decide) (by decide) hc

theorem digitValue?_of_isDecimalDigit {c : Char} (h : isDecimalDigit c = true) :
    digitValue? 10 c = some (c.toNat - '0'.toNat) := by
  have hc : '0' ≤ c ∧ c ≤ '9' := by simpa [isDecimalDigit] using h
  have hlt : c.toNat - '0'.toNat < 10 := by
    have hle : c.toNat ≤ '9'.toNat := hc.2
    have hnine : '9'.toNat = 57 := rfl
    have hzero : '0'.toNat = 48 := rfl
    omega
  simp only [digitValue?, if_pos hc, if_pos hlt]

theorem natOfDigitsFrom?_eq {cs : List Char} (h : ∀ c ∈ cs, isDecimalDigit c = true) (acc : ℕ) :
    natOfDigitsFrom? 10 acc cs = some (Nat.ofDigitChars 10 cs acc) := by
  induction cs generalizing acc with
  | nil => simp [natOfDigitsFrom?]
  | cons c cs ih =>
    obtain ⟨hc, hcs⟩ := List.forall_mem_cons.1 h
    rw [natOfDigitsFrom?, digitValue?_of_isDecimalDigit hc, Nat.ofDigitChars_cons, Nat.mul_comm]
    exact ih hcs _

theorem natOfDigits?_eq {cs : List Char} (h : IsNumeral cs) :
    natOfDigits? 10 cs = some (Nat.ofDigitChars 10 cs 0) := by
  rw [← natOfDigitsFrom?_eq h.2]
  cases cs with
  | nil => exact absurd rfl h.1
  | cons c cs => rfl

theorem IsNumeral.head {c : Char} {cs : List Char} (h : IsNumeral (c :: cs)) :
    isDecimalDigit c = true := h.2 c List.mem_cons_self

theorem ne_of_isDecimalDigit {c d : Char} (hc : isDecimalDigit c = true)
    (hd : isDecimalDigit d = false) : c ≠ d := by
  rintro rfl
  simp [hc] at hd

theorem intOfDigits?_of_isNumeral {cs : List Char} (h : IsNumeral cs) :
    intOfDigits? 10 cs = some (Nat.ofDigitChars 10 cs 0 : ℤ) := by
  unfold intOfDigits?
  split
  · exact absurd rfl (ne_of_isDecimalDigit h.head rfl)
  · exact absurd rfl (ne_of_isDecimalDigit h.head rfl)
  · rw [natOfDigits?_eq h]
    rfl

theorem intOfDigits?_toString (i : ℤ) : intOfDigits? 10 (toString i).toList = some i := by
  cases i with
  | ofNat n =>
    have htext : (toString (Int.ofNat n)).toList = Nat.toDigits 10 n := Nat.toList_repr
    rw [htext, intOfDigits?_of_isNumeral (isNumeral_toDigits n), Nat.ofDigitChars_ten_toDigits]
    rfl
  | negSucc n =>
    have htext : (toString (Int.negSucc n)).toList = '-' :: Nat.toDigits 10 (n + 1) := by
      have hrepr : toString (Int.negSucc n) = "-" ++ Nat.repr (n + 1) := rfl
      rw [hrepr, String.toList_append, Nat.toList_repr]
      rfl
    rw [htext, intOfDigits?, natOfDigits?_eq (isNumeral_toDigits (n + 1)),
      Nat.ofDigitChars_ten_toDigits]
    rfl

/-! ## Layouts -/

section Layout

variable {whole fraction after : List Char}

theorem takeWhile_digits (after : List Char) (h : ∀ c ∈ whole, isDecimalDigit c = true)
    (hafter : ∀ c ∈ after.head?, isDecimalDigit c = false) :
    (whole ++ after).takeWhile isDecimalDigit = whole ∧
      (whole ++ after).dropWhile isDecimalDigit = after := by
  rw [List.takeWhile_append_of_pos h, List.dropWhile_append_of_pos h]
  cases after with
  | nil => simp
  | cons c after => simp [hafter c rfl]

namespace Binary64

/-- A numeral with a point is read as its digits, a power of ten less for each one after the
point. -/
theorem magnitude?_point (negative : Bool) (whole fraction after : List Char) {e : ℤ}
    (hwhole : IsNumeral whole)
    (hfraction : ∀ c ∈ fraction, isDecimalDigit c = true)
    (hafter : ∀ c ∈ after.head?, isDecimalDigit c = false) (he : exponentPart? after = some e) :
    magnitude? negative (whole ++ '.' :: (fraction ++ after)) =
      some (ofDecimal negative (Nat.ofDigitChars 10 (whole ++ fraction) 0)
        (e - fraction.length)) := by
  obtain ⟨htake, hdrop⟩ := takeWhile_digits ('.' :: (fraction ++ after)) hwhole.2
    (by simp [isDecimalDigit])
  obtain ⟨htake', hdrop'⟩ := takeWhile_digits after hfraction hafter
  have hdigits : IsNumeral (whole ++ fraction) :=
    ⟨by simp [hwhole.1], fun c hc => (List.mem_append.1 hc).elim (hwhole.2 c) (hfraction c)⟩
  simp only [magnitude?, htake, hdrop, htake', hdrop', natOfDigits?_eq hdigits, he]

theorem magnitude?_whole (negative : Bool) {e : ℤ} (hwhole : IsNumeral whole)
    (hafter : ∀ c ∈ after.head?, isDecimalDigit c = false ∧ c ≠ '.')
    (he : exponentPart? after = some e) :
    magnitude? negative (whole ++ after) =
      some (ofDecimal negative (Nat.ofDigitChars 10 whole 0) e) := by
  obtain ⟨htake, hdrop⟩ := takeWhile_digits after hwhole.2 fun c hc => (hafter c hc).1
  cases after with
  | nil =>
    rw [List.append_nil] at htake hdrop ⊢
    simp [magnitude?, htake, hdrop, natOfDigits?_eq hwhole, he]
  | cons c after =>
    have hpoint := (hafter c rfl).2
    simp [magnitude?, htake, hdrop, natOfDigits?_eq hwhole, he, hpoint]

end Binary64

end Layout

namespace Digits

theorem isNumeral_text (d : Digits) : IsNumeral d.text := isNumeral_toDigits d.digits

theorem ofDigitChars_text (d : Digits) : Nat.ofDigitChars 10 d.text 0 = d.digits :=
  Nat.ofDigitChars_ten_toDigits

theorem magnitude?_positional (negative : Bool) (d : Digits) :
    Binary64.magnitude? negative d.positional =
      some (Binary64.ofDecimal negative d.digits d.exponent) := by
  have hdigits := d.isNumeral_text.2
  have hzero : ∀ (n : ℕ), ∀ c ∈ List.replicate n '0', isDecimalDigit c = true := fun n c hc =>
    (List.eq_of_mem_replicate hc) ▸ rfl
  by_cases hexp : 0 ≤ d.exponent
  · -- all digits stand before the point, and zeros after them
    obtain ⟨n, hn⟩ := Int.eq_ofNat_of_zero_le hexp
    have hwhole : IsNumeral (d.text ++ List.replicate n '0') :=
      ⟨by simp [d.isNumeral_text.1], fun c hc => (List.mem_append.1 hc).elim (hdigits c) (hzero n c)⟩
    have hread := Binary64.magnitude?_point negative _ ['0'] [] hwhole
      (by simp [isDecimalDigit]) (by simp) rfl
    have hlayout : d.positional = d.text ++ List.replicate n '0' ++ '.' :: (['0'] ++ []) := by
      simp [positional, hn]
    rw [hlayout, hread, hn]
    refine congrArg some (Binary64.ofDecimal_congr negative ?_)
    rw [Nat.ofDigitChars_append, Nat.ofDigitChars_append, ofDigitChars_text,
      Nat.ofDigitChars_replicate_zero]
    simp only [Nat.ofDigitChars_cons, Nat.ofDigitChars_nil, List.length_singleton, zpow_natCast,
      Nat.cast_one, zero_sub, zpow_neg_one]
    push_cast
    simp only [add_zero]
    ring
  · by_cases hplaces : (-d.exponent).toNat < d.text.length
    · -- the point stands among the digits
      have hwhole : IsNumeral (d.text.take (d.text.length - (-d.exponent).toNat)) := by
        refine ⟨?_, fun c hc => hdigits c (List.mem_of_mem_take hc)⟩
        simp only [ne_eq, List.take_eq_nil_iff, d.isNumeral_text.1, or_false]
        omega
      have hread := Binary64.magnitude?_point negative _ _ [] hwhole
        (fun c hc => hdigits c (List.mem_of_mem_drop (i := d.text.length - (-d.exponent).toNat) hc))
        (by simp) rfl
      have hlayout : d.positional = d.text.take (d.text.length - (-d.exponent).toNat) ++
          '.' :: (d.text.drop (d.text.length - (-d.exponent).toNat) ++ []) := by
        simp [positional, hexp, hplaces]
      have hlen : (0 : ℤ) - (d.text.drop (d.text.length - (-d.exponent).toNat)).length =
          d.exponent := by
        rw [List.length_drop]
        omega
      rw [hlayout, hread, hlen, List.take_append_drop, ofDigitChars_text]
    · -- all digits stand after the point, and zeros before them
      have hfraction : ∀ c ∈ List.replicate ((-d.exponent).toNat - d.text.length) '0' ++ d.text,
          isDecimalDigit c = true := fun c hc =>
        (List.mem_append.1 hc).elim (hzero _ c) (hdigits c)
      have hread := Binary64.magnitude?_point negative ['0'] _ []
        ⟨by simp, by simp [isDecimalDigit]⟩ hfraction (by simp) rfl
      have hlayout : d.positional = ['0'] ++
          '.' :: (List.replicate ((-d.exponent).toNat - d.text.length) '0' ++ d.text ++ []) := by
        simp [positional, hexp, hplaces]
      have hlen : (0 : ℤ) - (List.replicate ((-d.exponent).toNat - d.text.length) '0' ++
          d.text).length = d.exponent := by
        rw [List.length_append, List.length_replicate]
        omega
      rw [hlayout, hread, hlen, Nat.ofDigitChars_append, Nat.ofDigitChars_append,
        Nat.ofDigitChars_replicate_zero]
      simp [Nat.ofDigitChars_cons, ofDigitChars_text]

theorem magnitude?_scientific (negative : Bool) (d : Digits) :
    Binary64.magnitude? negative d.scientific =
      some (Binary64.ofDecimal negative d.digits d.exponent) := by
  have hexp : ∀ e : ℤ, Binary64.exponentPart? ('e' :: (toString e).toList) = some e := fun e =>
    intOfDigits?_toString e
  have hdigits := d.isNumeral_text
  have hvalue := d.ofDigitChars_text
  unfold scientific
  cases htext : d.text with
  | nil => exact absurd htext hdigits.1
  | cons c rest =>
    rw [htext] at hdigits hvalue
    have hwhole : IsNumeral [c] := ⟨by simp, by simpa using hdigits.head⟩
    cases rest with
    | nil =>
      have hread := Binary64.magnitude?_whole negative hwhole (by simp [isDecimalDigit])
        (hexp (d.exponent + 1 - 1))
      rw [hvalue, Int.add_sub_cancel] at hread
      simpa using hread
    | cons c' rest =>
      have hread := Binary64.magnitude?_point negative _ _ _ hwhole
        (fun x hx => hdigits.2 x (List.mem_cons_of_mem c hx)) (by simp [isDecimalDigit])
        (hexp (d.exponent + (c :: c' :: rest).length - 1))
      have hlen : d.exponent + ((c :: c' :: rest).length : ℤ) - 1 - ((c' :: rest).length : ℤ) =
          d.exponent := by
        simp only [List.length_cons]
        omega
      rw [hlen, List.singleton_append, List.singleton_append, hvalue] at hread
      simpa using hread

end Digits

/-! ## Texts of numbers -/

def StartsWithDigit (cs : List Char) : Prop := ∃ c ∈ cs.head?, isDecimalDigit c = true

theorem IsNumeral.startsWithDigit {whole : List Char} (h : IsNumeral whole) (rest : List Char) :
    StartsWithDigit (whole ++ rest) := by
  cases whole with
  | nil => exact absurd rfl h.1
  | cons c whole => exact ⟨c, rfl, h.head⟩

namespace Digits

theorem startsWithDigit_positional (d : Digits) : StartsWithDigit d.positional := by
  unfold positional
  by_cases hexp : 0 ≤ d.exponent
  · simp only [if_pos hexp, List.append_assoc]
    exact d.isNumeral_text.startsWithDigit _
  · simp only [if_neg hexp]
    split
    · rename_i hplaces
      have hwhole : IsNumeral (d.text.take (d.text.length - (-d.exponent).toNat)) := by
        refine ⟨?_, fun c hc => d.isNumeral_text.2 c (List.mem_of_mem_take hc)⟩
        simp only [ne_eq, List.take_eq_nil_iff, d.isNumeral_text.1, or_false]
        omega
      exact hwhole.startsWithDigit _
    · exact ⟨'0', rfl, rfl⟩

theorem startsWithDigit_scientific (d : Digits) : StartsWithDigit d.scientific := by
  have hdigits := d.isNumeral_text
  unfold scientific
  cases htext : d.text with
  | nil => exact absurd htext hdigits.1
  | cons c rest =>
    rw [htext] at hdigits
    cases rest with
    | nil => exact ⟨c, rfl, hdigits.head⟩
    | cons c' rest => exact ⟨c, rfl, hdigits.head⟩

end Digits

namespace Binary64

theorem toLower_of_isDecimalDigit {c : Char} (h : isDecimalDigit c = true) : c.toLower = c := by
  have hc : c.val ≤ 57 := by
    simp [isDecimalDigit] at h
    exact h.2
  have hupper : ¬ 65 ≤ c.val := fun hA => absurd (UInt32.le_trans hA hc) (by decide)
  unfold Char.toLower
  rw [dif_neg]
  exact fun hboth => hupper hboth.1

theorem unsigned?_of_startsWithDigit (negative : Bool) {cs : List Char} (h : StartsWithDigit cs) :
    unsigned? negative cs = magnitude? negative cs := by
  obtain ⟨c, hc, hdigit⟩ := h
  cases cs with
  | nil => simp at hc
  | cons d rest =>
    obtain rfl : d = c := by simpa using hc
    have hword : ∀ (x : Char) (w : List Char), isDecimalDigit x = false →
        String.ofList ((d :: rest).map Char.toLower) ≠ String.ofList (x :: w) := by
      intro x w hx heq
      rw [String.ofList_inj, List.map_cons, toLower_of_isDecimalDigit hdigit] at heq
      rw [← (List.cons.inj heq).1, hdigit] at hx
      cases hx
    have hinf : String.ofList ((d :: rest).map Char.toLower) ≠ "inf" := hword 'i' ['n', 'f'] rfl
    have hinfinity : String.ofList ((d :: rest).map Char.toLower) ≠ "infinity" :=
      hword 'i' ['n', 'f', 'i', 'n', 'i', 't', 'y'] rfl
    have hnan : String.ofList ((d :: rest).map Char.toLower) ≠ "nan" := hword 'n' ['a', 'n'] rfl
    simp only [unsigned?, hinf, hinfinity, hnan, or_self, if_false]

theorem ofText?_of_startsWithDigit {cs : List Char} (h : StartsWithDigit cs) :
    ofText? cs = magnitude? false cs := by
  rw [← unsigned?_of_startsWithDigit false h]
  obtain ⟨c, hc, hdigit⟩ := h
  unfold ofText?
  split
  · rw [← Option.some_inj.1 hc] at hdigit
    exact absurd hdigit (by decide)
  · rw [← Option.some_inj.1 hc] at hdigit
    exact absurd hdigit (by decide)
  · rfl

variable {negative : Bool} {significand : ℕ} {exponent : ℤ}

/-- The text of a finite number has a minus sign or none, and digits of its value. -/
theorem write_finite (style : NumberStyle)
    (h : (finite negative significand exponent).IsCanonical) :
    ∃ body, ((finite negative significand exponent).write style).toList =
        (if negative then '-' :: body else body) ∧ StartsWithDigit body ∧
      ∀ sign, magnitude? sign body = some (finite sign significand exponent) := by
  obtain ⟨d, hd, hread⟩ : ∃ d : Digits,
      (if significand = 0 then ⟨0, 0⟩ else Digits.shortest significand exponent) = d ∧
        ∀ sign, ofDecimal sign d.digits d.exponent = finite sign significand exponent := by
    refine ⟨_, rfl, fun sign => ?_⟩
    split
    · rename_i hzero
      subst hzero
      have hleast : exponent = minExponent := h.2.2.2.resolve_left (by decide)
      rw [ofDecimal_zero, hleast]
      rfl
    · rename_i hpos
      exact Digits.shortest_reads h (Nat.pos_of_ne_zero hpos)
  refine ⟨if style.positional (d.exponent + (d.text.length : ℤ) - 1) then d.positional
    else d.scientific, ?_, ?_, fun sign => ?_⟩
  · simp only [write, hd, String.toList_ofList]
  · split
    · exact d.startsWithDigit_positional
    · exact d.startsWithDigit_scientific
  · rw [← hread sign]
    split
    · exact Digits.magnitude?_positional sign d
    · exact Digits.magnitude?_scientific sign d

theorem ofText?_write (style : NumberStyle)
    (h : (finite negative significand exponent).IsCanonical) :
    ofText? ((finite negative significand exponent).write style).toList =
      some (finite negative significand exponent) := by
  obtain ⟨body, htext, hstart, hread⟩ := write_finite style h
  rw [htext, ← hread negative]
  cases negative with
  | true => exact unsigned?_of_startsWithDigit true hstart
  | false => exact ofText?_of_startsWithDigit hstart

end Binary64

end SharedConfig
