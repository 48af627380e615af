import OpenvmSim.Base.Pocklington
import OpenvmSim.Precompiles.SquareRoots

/-! The two square roots against each other.

`tonelli_shanks` of the curves raises to a power of two that it computes by a shift of a `u32`,
where `mod_sqrt` of the modular table squares again and again. The shift is too short for the
numbers whose root needs 32 squarings or more in one round, which exist only if `2 ^ 34` divides
`p - 1`. On all others the two functions find the same root up to its sign. -/
namespace OpenvmSim.Precompiles

/-- An odd number times a power of two is taken apart again. -/
theorem splitTwos_mul {odd : ℕ} (hodd : odd % 2 = 1) {fuel k : ℕ} (hfuel : odd * 2 ^ k ≤ fuel)
    (s : ℕ) : splitTwos fuel (odd * 2 ^ k) s = .ok (odd, s + k) := by
  induction k generalizing fuel s with
  | zero =>
    obtain ⟨fuel, rfl⟩ := Nat.exists_eq_add_one_of_ne_zero (show fuel ≠ 0 by omega)
    rw [pow_zero, mul_one, splitTwos, if_neg (by omega)]
    rfl
  | succ k ih =>
    have hpos : 0 < odd * 2 ^ k := Nat.mul_pos (by omega) (Nat.two_pow_pos k)
    rw [pow_succ, ← mul_assoc] at hfuel ⊢
    obtain ⟨fuel, rfl⟩ := Nat.exists_eq_add_one_of_ne_zero (show fuel ≠ 0 by omega)
    rw [splitTwos, if_pos (Nat.mul_mod_left _ 2), Nat.mul_div_cancel _ (by decide), ih (by omega),
      Nat.add_right_comm]
    rfl

theorem splitTwos_of_split {p q s : ℕ} (hsplit : p - 1 = q * 2 ^ s) (hodd : q % 2 = 1) :
    splitTwos (p - 1) (p - 1) 0 = .ok (q, s) := by
  have hmul := splitTwos_mul hodd hsplit.ge 0
  rwa [← hsplit, Nat.zero_add] at hmul

/-- The search for a root of `n` modulo `p`: with the odd part `q` of `p - 1`, its two-part
`2 ^ s` and the least non-residue `z`, the power `z ^ (q w)` takes `n ^ ((q + 1) / 2)` to a
root. -/
structure RootSearch (p n q s z w : ℕ) : Prop where
  split : p - 1 = q * 2 ^ s
  odd : q % 2 = 1
  least : IsLeastNonresidue p z
  exponent : RootExponent s ((z : ZMod p) ^ q) ((n : ZMod p) ^ q) w

/-- Both functions say that `n` is no square, or both find a root of it, and the roots are equal
up to their signs. -/
def SameRoot (host : Host) (p n z : ℕ) : Prop :=
  (¬IsSquare (n : ZMod p) ∧ tonelliShanks host n p = .ok none ∧ modSqrtOpenvm n p z = .ok none) ∨
    (IsSquare (n : ZMod p) ∧ ∃ r₁ < p, ∃ r₂ < p, tonelliShanks host n p = .ok (some r₁) ∧
      modSqrtOpenvm n p z = .ok (some r₂) ∧ r₁ * r₁ % p = n ∧ r₂ * r₂ % p = n ∧
      (r₁ = r₂ ∨ r₁ + r₂ = p))

/-- The two functions agree, and neither counts the twos in `p - 1` past the end of its `u32`.
All their other counters stay below this one. -/
structure RootsAgree (host : Host) (p n z : ℕ) : Prop where
  counts : ∀ q s, splitTwos (p - 1) (p - 1) 0 = .ok (q, s) → s < 2 ^ 32
  same : SameRoot host p n z

section Field
variable {p n q s z w : ℕ} [Fact p.Prime]

theorem RootSearch.pos (hodd : p ≠ 2) (h : RootSearch p n q s z w) : 0 < s := by
  have hp := (Fact.out : p.Prime).eq_two_or_odd.resolve_left hodd
  have hlt := one_lt_modulus (p := p)
  have hsplit := h.split
  have hq := h.odd
  rw [Nat.pos_iff_ne_zero]
  rintro rfl
  rw [pow_zero, mul_one] at hsplit
  omega

/-- Only squares other than zero have such an exponent. -/
theorem RootSearch.isSquare (hodd : p ≠ 2) (h : RootSearch p n q s z w) :
    (n : ZMod p) ≠ 0 ∧ IsSquare (n : ZMod p) := by
  have hz0 : (z : ZMod p) ≠ 0 := fun hzero => h.least.nonresidue (hzero ▸ IsSquare.zero)
  have hfermat : (z : ZMod p) ^ (q * 2 ^ s) = 1 := by
    rw [← h.split]
    exact ZMod.pow_card_sub_one_eq_one hz0
  have hexp : 2 * w * 2 ^ (s - 1) = 2 ^ s * w := by
    rw [mul_right_comm, ← pow_succ', Nat.sub_add_cancel (h.pos hodd)]
  have hpow := congrArg (· ^ 2 ^ (s - 1)) h.exponent.inverse
  simp only [mul_pow, one_pow] at hpow
  rw [← pow_mul, pow_two_part hodd h.split (h.pos hodd), ← pow_mul, ← pow_mul, hexp,
    ← mul_assoc, pow_mul, hfermat, one_pow, mul_one] at hpow
  exact (pow_half_eq_one_iff _).mp hpow

/-- Every square other than zero has one. -/
theorem exists_rootSearch (hodd : p ≠ 2) (hn0 : (n : ZMod p) ≠ 0) (hsq : IsSquare (n : ZMod p)) :
    ∃ q s z w, RootSearch p n q s z w := by
  obtain ⟨q, s, -, hsplit, hq, hpos⟩ := splitTwos_pred hodd
  obtain ⟨z, -, hz⟩ := exists_isLeastNonresidue hodd
  have hstart := tonelliShanks_start hodd hsplit hpos hq hz.nonresidue hn0 hsq
  rw [natCast_powMod, natCast_powMod] at hstart
  obtain ⟨w, hw⟩ := hstart.exists_rootExponent
  exact ⟨q, s, z, w, hsplit, hq, hz, hw⟩

/-- `tonelli_shanks` finds the root if and only if its exponent has no gap of 32 zeros. -/
theorem tonelliShanks_cases (host : Host) (hodd : p ≠ 2) (h : RootSearch p n q s z w) :
    (ShortGaps 32 w ∧ ∃ root < p,
        tonelliShanks host n p = .ok (some root) ∧ (root : ZMod p) ^ 2 = n) ∨
      (¬ShortGaps 32 w ∧ ∀ root, tonelliShanks host n p ≠ .ok (some root)) := by
  have hp0 := Nat.zero_lt_of_lt (one_lt_modulus (p := p))
  obtain ⟨hn0, hsq⟩ := h.isSquare hodd
  obtain ⟨z', hlt, hz'⟩ := exists_isLeastNonresidue hodd
  obtain rfl := hz'.unique h.least
  have hrun := splitTwos_of_split h.split h.odd
  have hexp := h.exponent
  rw [← natCast_powMod, ← natCast_powMod] at hexp
  rw [tonelliShanks_of_square host hodd hn0 hsq h.least hlt, hrun]
  exact tonelliLoop_cases host hodd
    (tonelliShanks_start hodd h.split (h.pos hodd) h.odd h.least.nonresidue hn0 hsq) hexp (by omega)
    (powMod_lt hp0 _ _) (powMod_lt hp0 _ _)

theorem mul_self_mod_of_sq {r : ℕ} (hn : n < p) (h : (r : ZMod p) ^ 2 = n) : r * r % p = n := by
  rw [pow_two, ← Nat.cast_mul, ZMod.natCast_eq_natCast_iff', Nat.mod_eq_of_lt hn] at h
  exact h

/-- Two roots of a number differ in their signs. -/
theorem eq_or_add_eq_of_sq {r₁ r₂ : ℕ} (h₁ : r₁ < p) (h₂ : r₂ < p)
    (h : (r₁ : ZMod p) ^ 2 = (r₂ : ZMod p) ^ 2) : r₁ = r₂ ∨ r₁ + r₂ = p := by
  obtain h | h := sq_eq_sq_iff_eq_or_eq_neg.mp h
  · exact .inl ((natCast_eq_iff h₁ h₂).mp h)
  · have hsum : ((r₁ + r₂ : ℕ) : ZMod p) = 0 := by rw [Nat.cast_add, h, neg_add_cancel]
    obtain ⟨k, hk⟩ := (ZMod.natCast_eq_zero_iff _ _).mp hsum
    have hlt : p * k < p * 2 := by omega
    have hk2 := Nat.lt_of_mul_lt_mul_left hlt
    obtain rfl | rfl : k = 0 ∨ k = 1 := by omega
    · exact .inl (by omega)
    · exact .inr (by omega)

end Field

/-- The two square roots agree if and only if the exponent of the root has no 32 zeros in a row
below a set bit. -/
theorem sameRoot_iff (host : Host) {p n z : ℕ} (hp : p.Prime) (hodd : p ≠ 2) (hn : n < p)
    (hz : ¬IsSquare (z : ZMod p)) :
    SameRoot host p n z ↔ ∀ q s z₀ w, RootSearch p n q s z₀ w → ShortGaps 32 w := by
  have : Fact p.Prime := ⟨hp⟩
  constructor
  · intro hagree q s z₀ w hsearch
    obtain ⟨hshort, -⟩ | ⟨-, hnone⟩ := tonelliShanks_cases host hodd hsearch
    · exact hshort
    · obtain ⟨hsq, -⟩ | ⟨-, r, -, -, -, hr, -⟩ := hagree
      · exact absurd (hsearch.isSquare hodd).2 hsq
      · exact absurd hr (hnone r)
  · intro hshort
    by_cases hsq : IsSquare (n : ZMod p)
    · obtain ⟨r₂, hr₂, hrun₂, hroot₂⟩ := modSqrtOpenvm_square hodd (fun _ => hz) hsq
      have htonelli : ∃ r₁ < p, tonelliShanks host n p = .ok (some r₁) ∧
          (r₁ : ZMod p) ^ 2 = n := by
        obtain rfl | h0 := eq_or_ne n 0
        · exact ⟨0, hp.pos, if_pos rfl, by rw [Nat.cast_zero, zero_pow two_ne_zero]⟩
        · obtain ⟨q, s, z₀, w, hsearch⟩ :=
            exists_rootSearch hodd (mt (natCast_eq_zero_iff hn).mp h0) hsq
          obtain ⟨-, hroot⟩ | ⟨hlong, -⟩ := tonelliShanks_cases host hodd hsearch
          · exact hroot
          · exact absurd (hshort _ _ _ _ hsearch) hlong
      obtain ⟨r₁, hr₁, hrun₁, hroot₁⟩ := htonelli
      exact .inr ⟨hsq, r₁, hr₁, r₂, hr₂, hrun₁, hrun₂, mul_self_mod_of_sq hn hroot₁,
        mul_self_mod_of_sq hn hroot₂, eq_or_add_eq_of_sq hr₁ hr₂ (hroot₁.trans hroot₂.symm)⟩
    · exact .inl ⟨hsq, tonelliShanks_nonsquare host hodd hsq, modSqrtOpenvm_nonsquare hodd hsq⟩

/-- **For every odd prime `p`, every `n` below it and every non-residue `z` the two square roots
agree without overflow if and only if there are fewer than `2 ^ 32` twos in `p - 1` and the
exponent of the root of `n` has no 32 zeros in a row below a set bit.** -/
theorem roots_agree_iff (host : Host) {p n z : ℕ} (hp : p.Prime) (hodd : p ≠ 2) (hn : n < p)
    (hz : ¬IsSquare (z : ZMod p)) :
    RootsAgree host p n z ↔ (∀ q s, p - 1 = q * 2 ^ s → q % 2 = 1 → s < 2 ^ 32) ∧
      ∀ q s z₀ w, RootSearch p n q s z₀ w → ShortGaps 32 w := by
  have : Fact p.Prime := ⟨hp⟩
  rw [← sameRoot_iff host hp hodd hn hz]
  constructor
  · rintro ⟨hcounts, hsame⟩
    exact ⟨fun q s hsplit hq => hcounts q s (splitTwos_of_split hsplit hq), hsame⟩
  · rintro ⟨htwos, hsame⟩
    refine ⟨fun q s hrun => ?_, hsame⟩
    obtain ⟨q', s', hrun', hsplit, hq, -⟩ := splitTwos_pred hodd
    cases hrun.symm.trans hrun'
    exact htwos q s hsplit hq

/-- The roots of two modulo seven, where no exponent is larger than zero. -/
theorem roots_agree_iff_seven : RootsAgree Host.constant 7 2 3 := by
  have hthree : ¬IsSquare ((3 : ℕ) : ZMod 7) := by decide
  have hone : ∀ q s, 7 - 1 = q * 2 ^ s → q % 2 = 1 → s = 1 := by
    intro q s hsplit hq
    obtain _ | _ | s := s
    · rw [pow_zero] at hsplit
      omega
    · rfl
    · have htwos : q * 2 ^ (s + 1 + 1) = 4 * (q * 2 ^ s) := by ring
      omega
  refine (roots_agree_iff Host.constant (by decide) (by decide) (by decide) hthree).mpr
    ⟨fun q s hsplit hq => ?_, fun q s z₀ w hsearch => ?_⟩
  · rw [hone q s hsplit hq]
    decide
  · have hlt := hsearch.exponent.lt
    rw [hone q s hsearch.split hsearch.odd] at hlt
    obtain rfl : w = 0 := Nat.lt_one_iff.mp hlt
    exact shortGaps_zero 32

/-! ### Where they differ -/

/-- A prime with `2 ^ 36` in its predecessor. -/
def longTwos : ℕ := 3 * 2 ^ 36 + 1

theorem longTwos_prime : longTwos.Prime :=
  Pocklington.prime_of_certificate [⟨longTwos, 11, List.replicate 20 2⟩] (by decide +kernel)
    ⟨_, List.mem_singleton_self _, rfl⟩

/-- Its least non-residue is eleven. -/
theorem longTwos_least : IsLeastNonresidue longTwos 11 := by
  have : Fact longTwos.Prime := ⟨longTwos_prime⟩
  have hodd : longTwos ≠ 2 := by decide
  have hsmall : ∀ k ∈ List.range' 2 9,
      powMod longTwos k ((longTwos - 1) >>> 1) ≠ longTwos - 1 := by decide +kernel
  refine ⟨by decide, (powMod_half_eq_pred_iff hodd 11).mp (by decide +kernel), fun k hk hlt => ?_⟩
  exact not_not.mp (mt (powMod_half_eq_pred_iff hodd k).mpr
    (hsmall k (List.mem_range'_1.mpr ⟨hk, by omega⟩)))

/-- The exponent of the root of minus one has a single bit, with 34 zeros below it. -/
theorem longTwos_search : RootSearch longTwos (longTwos - 1) 3 36 11 (2 ^ 34 * (2 * 0 + 1)) := by
  have : Fact longTwos.Prime := ⟨longTwos_prime⟩
  refine ⟨rfl, rfl, longTwos_least, by decide, ?_⟩
  have hpred : ((longTwos - 1 : ℕ) : ZMod longTwos) = -1 := by
    rw [Nat.cast_sub (by decide), ZMod.natCast_self, Nat.cast_one, zero_sub]
  have heleven : ((11 : ℕ) : ZMod longTwos) ^ (longTwos / 2) = -1 :=
    (pow_half_eq_neg_one_iff (by decide) _).mpr longTwos_least.nonresidue
  rw [hpred, ← pow_mul, show 3 * (2 * (2 ^ 34 * (2 * 0 + 1))) = longTwos / 2 by decide, heleven]
  norm_num

/-- Minus one has a root modulo this prime, and `tonelli_shanks` finds none in any build. -/
theorem not_roots_agree : longTwos.Prime ∧ longTwos ≠ 2 ∧ longTwos - 1 < longTwos ∧
    ¬IsSquare ((11 : ℕ) : ZMod longTwos) ∧
    ∀ host, ¬RootsAgree host longTwos (longTwos - 1) 11 := by
  have : Fact longTwos.Prime := ⟨longTwos_prime⟩
  have hodd : longTwos ≠ 2 := by decide
  refine ⟨longTwos_prime, hodd, by decide, longTwos_least.nonresidue, fun host hagree => ?_⟩
  have hlong : ¬ShortGaps 32 (2 ^ 34 * (2 * 0 + 1)) :=
    fun h => absurd (shortGaps_lowest.mp h).1 (by decide)
  obtain ⟨hshort, -⟩ | ⟨-, hnone⟩ := tonelliShanks_cases host hodd longTwos_search
  · exact hlong hshort
  · obtain ⟨hsq, -⟩ | ⟨-, r, -, -, -, hr, -⟩ := hagree.same
    · exact hsq (longTwos_search.isSquare hodd).2
    · exact hnone r hr

end OpenvmSim.Precompiles
