import ShapeCodec.Json.Lexeme
import ShapeCodec.Proofs.Json.Grammar
import ShapeCodec.Proofs.Results

/-! # Scanning strings

The scanner of strings takes exactly the strings of the grammar. A unit of four hexadecimal digits
is below 2^16, so the code of a character that is no pair is that character, and a pair of
surrogates counts from there.
-/

namespace ShapeCodec

variable {c : Char} {n : Nat} {cs mid rest s : List Char}

namespace Grammar

theorem HexDigit.lt (h : HexDigit c n) : n < 16 := by
  rcases h with h | h
  · exact (List.getElem?_eq_some_iff.mp h).1
  · exact (List.getElem?_eq_some_iff.mp h).1

theorem UnitText.lt (h : UnitText cs n rest) : n < 0x10000 := by
  obtain ⟨ha, hb, hc, hd⟩ := h
  have := ha.lt
  have := hb.lt
  have := hc.lt
  have := hd.lt
  omega

end Grammar

namespace Lexeme

open Grammar

/-! ## Units -/

theorem hexValue?_eq_some_iff : hexValue? c = some n ↔ HexDigit c n := by
  constructor
  · intro h
    have table : ∀ k : Fin 103, ∀ n ∈ hexValue? (Char.ofNat k),
        smallHexDigits[n]? = some (Char.ofNat k) ∨ capitalHexDigits[n]? = some (Char.ofNat k) := by
      decide
    have hlt : c.toNat < 103 := by
      unfold hexValue? at h
      split at h
      · rename_i hc
        exact Nat.lt_of_le_of_lt hc.2 (by decide)
      · split at h
        · rename_i hc
          exact Nat.lt_of_le_of_lt hc.2 (by decide)
        · split at h
          · rename_i hc
            exact Nat.lt_of_le_of_lt hc.2 (by decide)
          · cases h
    rw [← Char.ofNat_toNat c] at h ⊢
    exact table ⟨c.toNat, hlt⟩ n h
  · intro h
    have small : ∀ n : Fin 16, hexValue? smallHexDigits[n] = some n.val := by decide
    have capital : ∀ n : Fin 16, hexValue? capitalHexDigits[n] = some n.val := by decide
    have hn := h.lt
    rcases h with h | h
    · obtain ⟨_, rfl⟩ := List.getElem?_eq_some_iff.mp h
      exact small ⟨n, hn⟩
    · obtain ⟨_, rfl⟩ := List.getElem?_eq_some_iff.mp h
      exact capital ⟨n, hn⟩

theorem scanUnit_eq_ok_iff : scanUnit cs = .ok (n, rest) ↔ UnitText cs n rest := by
  constructor
  · intro h
    unfold scanUnit at h
    split at h
    · split at h
      · rename_i ha hb hc hd
        cases h
        exact .mk (hexValue?_eq_some_iff.mp ha) (hexValue?_eq_some_iff.mp hb)
          (hexValue?_eq_some_iff.mp hc) (hexValue?_eq_some_iff.mp hd)
      · cases h
    · cases h
  · rintro ⟨ha, hb, hc, hd⟩
    rw [scanUnit, hexValue?_eq_some_iff.mpr ha, hexValue?_eq_some_iff.mpr hb,
      hexValue?_eq_some_iff.mpr hc, hexValue?_eq_some_iff.mpr hd]

/-! ## Characters -/

theorem toNat_ofNat (h : n < 0xD800 ∨ 0xDFFF < n ∧ n < 0x110000) : (Char.ofNat n).toNat = n := by
  unfold Char.ofNat
  rw [dif_pos h]
  rfl

theorem scanTrailing_eq_ok_iff {lead : Nat} : scanTrailing lead cs = .ok (c, rest) ↔
    ∃ mid trail, cs = '\\' :: 'u' :: mid ∧ UnitText mid trail rest ∧
      (0xDC00 ≤ trail ∧ trail ≤ 0xDFFF) ∧
        c = Char.ofNat ((lead - 0xD800) * 0x400 + (trail - 0xDC00) + 0x10000) := by
  constructor
  · intro h
    unfold scanTrailing at h
    split at h
    · cases h
    · cases h
    · rename_i mid
      obtain ⟨⟨trail, r⟩, hu, h⟩ := bind_eq_ok_iff.mp h
      dsimp only at h
      split at h
      · rename_i ht
        obtain ⟨hc, rfl⟩ := Prod.mk.inj (pure_eq_ok_iff.mp h)
        exact ⟨mid, trail, rfl, scanUnit_eq_ok_iff.mp hu, ht, hc.symm⟩
      · cases h
    · cases h
    · cases h
  · rintro ⟨mid, trail, rfl, hu, ht, hc⟩
    rw [scanTrailing, bind_eq_ok_iff]
    refine ⟨_, scanUnit_eq_ok_iff.mpr hu, ?_⟩
    dsimp only
    rw [if_pos ht, pure_eq_ok_iff, hc]

theorem scanCode_eq_ok_iff :
    scanCode cs = .ok (c, rest) ↔ CharText ('\\' :: 'u' :: cs) c rest := by
  constructor
  · intro h
    unfold scanCode at h
    obtain ⟨⟨unit, mid⟩, hu, h⟩ := bind_eq_ok_iff.mp h
    have hunit := scanUnit_eq_ok_iff.mp hu
    have hlt := hunit.lt
    dsimp only at h
    split at h
    · cases h
    · rename_i htrail
      split at h
      · rename_i hlead
        obtain ⟨mid, trail, rfl, htu, ht, hc⟩ := scanTrailing_eq_ok_iff.mp h
        apply CharText.pair hunit htu hlead ht
        rw [hc, toNat_ofNat (by omega)]
        omega
      · rename_i hlead
        cases h
        apply CharText.unit
        rw [toNat_ofNat (by omega)]
        exact hunit
  · intro h
    cases h with
    | plain _ _ hb => exact (hb rfl).elim
    | letter hl => simp [letterEscapes] at hl
    | unit hc =>
      have hvalid : c.toNat < 0xD800 ∨ 0xDFFF < c.toNat := c.valid.imp id And.left
      apply bind_eq_ok_iff.mpr
      refine ⟨_, scanUnit_eq_ok_iff.mpr hc, ?_⟩
      dsimp only
      rw [if_neg (by omega), if_neg (by omega), Char.ofNat_toNat]
      rfl
    | pair hl ht hlead htrail hc =>
      apply bind_eq_ok_iff.mpr
      refine ⟨_, scanUnit_eq_ok_iff.mpr hl, ?_⟩
      dsimp only
      rw [if_neg (by omega), if_pos hlead]
      apply scanTrailing_eq_ok_iff.mpr
      refine ⟨_, _, rfl, ht, htrail, ?_⟩
      rw [Nat.add_comm, ← Nat.add_assoc, ← hc, Char.ofNat_toNat]

theorem simpleEscape?_eq_some_iff {l : Char} :
    simpleEscape? l = some c ↔ (l, c) ∈ letterEscapes := by
  constructor
  · intro h
    unfold simpleEscape? at h
    split at h <;> cases h <;> decide
  · intro h
    simp only [letterEscapes, List.mem_cons, Prod.mk.injEq, List.not_mem_nil, or_false] at h
    rcases h with ⟨rfl, rfl⟩ | ⟨rfl, rfl⟩ | ⟨rfl, rfl⟩ | ⟨rfl, rfl⟩ | ⟨rfl, rfl⟩ | ⟨rfl, rfl⟩ |
      ⟨rfl, rfl⟩ | ⟨rfl, rfl⟩ <;> rfl

theorem scanEscape_eq_ok_iff : scanEscape cs = .ok (c, rest) ↔ CharText ('\\' :: cs) c rest := by
  constructor
  · intro h
    unfold scanEscape at h
    split at h
    · cases h
    · exact scanCode_eq_ok_iff.mp h
    · split at h
      · rename_i he
        cases h
        exact .letter (simpleEscape?_eq_some_iff.mp he)
      · cases h
  · intro h
    cases h with
    | plain _ _ hb => exact (hb rfl).elim
    | @letter l _ _ hl =>
      rw [scanEscape, simpleEscape?_eq_some_iff.mpr hl]
      rintro rfl
      simp [letterEscapes] at hl
    | unit hc => exact scanCode_eq_ok_iff.mpr (.unit hc)
    | pair hl ht hlead htrail hc => exact scanCode_eq_ok_iff.mpr (.pair hl ht hlead htrail hc)

/-! ## Strings -/

theorem scanString_of_charText (hc : CharText cs c mid) (hs : scanString mid = .ok (s, rest)) :
    scanString cs = .ok (c :: s, rest) := by
  have escaped : ∀ cs, scanEscape cs = .ok (c, mid) →
      scanString ('\\' :: cs) = .ok (c :: s, rest) := by
    intro cs he
    rw [scanString]
    split
    · rename_i h
      rw [he] at h
      cases h
    · rename_i h
      rw [he] at h
      cases h
      rw [hs]
  cases hc with
  | plain hc hq hb =>
    rw [scanString, if_neg (Char.not_lt.mpr hc), hs]
    · rintro ⟨⟩
      exact hq rfl
    · rintro ⟨⟩
      exact hb rfl
  | letter hl => exact escaped _ (scanEscape_eq_ok_iff.mpr (.letter hl))
  | unit hc => exact escaped _ (scanEscape_eq_ok_iff.mpr (.unit hc))
  | pair hl ht hlead htrail hc =>
    exact escaped _ (scanEscape_eq_ok_iff.mpr (.pair hl ht hlead htrail hc))

/-- The scanner takes the strings of the grammar. -/
theorem scanString_eq_ok_iff : scanString cs = .ok (s, rest) ↔ StringText cs s rest := by
  constructor
  · intro h
    fun_induction scanString cs generalizing s rest with
    | case1 => cases h
    | case2 rest =>
      cases h
      exact .close
    | case3 => cases h
    | case4 => cases h
    | case5 _ _ _ he s after hs ih =>
      cases h
      exact .cons (scanEscape_eq_ok_iff.mp he) (ih hs)
    | case6 => cases h
    | case7 => cases h
    | case8 c rest hq hb hc s after hs ih =>
      cases h
      exact .cons (.plain (Char.not_lt.mp hc) hq hb) (ih hs)
  · intro h
    induction h with
    | close => rw [scanString]
    | cons hc _ ih => exact scanString_of_charText hc ih

end Lexeme

end ShapeCodec
