import OpenvmSim.Base.QuadraticResidue
import OpenvmSim.Base.RootExponent
import OpenvmSim.Precompiles.FieldArith

/-! Square roots and non-residues.

The two square-root functions run the same algorithm with different loops. Each loop is
bounded by an argument about the numbers: a positive number has fewer factors two than its
size, a non-residue lies below the modulus, and the exponent of the two-part of `t` falls
in every round. -/
namespace OpenvmSim.Precompiles

/-! ### The two-part of a number -/

/-- Every positive number is an odd number times a power of two. -/
theorem splitTwos_eq {fuel q : ℕ} (hq : 0 < q) (hfuel : q ≤ fuel) (s : ℕ) :
    ∃ odd k, splitTwos fuel q s = .ok (odd, s + k) ∧ q = odd * 2 ^ k ∧ odd % 2 = 1 := by
  induction fuel generalizing q s with
  | zero => omega
  | succ fuel ih =>
    rw [splitTwos]
    by_cases heven : q % 2 = 0
    · obtain ⟨odd, k, hrun, hsplit, hodd⟩ := ih (q := q / 2) (by omega) (by omega) (s + 1)
      refine ⟨odd, k + 1, ?_, ?_, hodd⟩
      · rw [if_pos heven, hrun, Nat.add_right_comm]
        rfl
      · rw [pow_succ, ← mul_assoc, ← hsplit]
        omega
    · refine ⟨q, 0, ?_, (mul_one q).symm, by omega⟩
      rw [if_neg heven]
      rfl

/-! ### The sampling loop -/

/-- The sampled candidate of the `k`-th round is accepted. -/
def Accepted (host : Host) (p k : ℕ) : Prop :=
  let val := LittleEndian.toNat (host.rngFill (LittleEndian.ofBig p).length k).toList.reverse
  val < p - 3 ∧ powMod p (val + 2) ((p - 1) >>> 1) = p - 1

instance (host : Host) (p k : ℕ) : Decidable (Accepted host p k) :=
  inferInstanceAs (Decidable (_ ∧ _))

/-- The sampling loop returns if one of its samples is accepted. -/
theorem nonQrLoop_returns (host : Host) {p fuel k j : ℕ} (hk : k ≤ j) (hj : j < k + fuel)
    (h : Accepted host p j) :
    ∃ z, nonQrLoop host p (p - 3) (LittleEndian.ofBig p).length ((p - 1) >>> 1) (p - 1) fuel k =
      .ok z := by
  induction fuel generalizing k with
  | zero => omega
  | succ fuel ih =>
    rw [nonQrLoop]
    dsimp only
    by_cases hacc : Accepted host p k
    · rw [if_neg (Nat.not_le.mpr hacc.1), if_pos hacc.2]
      exact ⟨_, rfl⟩
    · have hne : k ≠ j := fun heq => hacc (heq ▸ h)
      obtain ⟨z, hz⟩ := ih (k := k + 1) (by omega) (by omega)
      refine ⟨z, ?_⟩
      split
      · exact hz
      · next hlt =>
        rw [if_neg fun htest => hacc ⟨Nat.not_le.mp hlt, htest⟩]
        exact hz

theorem nonQrLoop_ne_panic (host : Host) (p range len exponent pm1 fuel k : ℕ) (message : String) :
    nonQrLoop host p range len exponent pm1 fuel k ≠ .error (.panic message) := by
  induction fuel generalizing k with
  | zero => exact fun h => by cases h
  | succ fuel ih =>
    rw [nonQrLoop]
    dsimp only
    split
    · exact ih (k + 1)
    · split
      · exact fun h => by cases h
      · exact ih (k + 1)

/-! ### The shared loops on residues -/

/-- The two-part of `p - 1` is small enough for the shift of `tonelli_shanks`. -/
def SmallTwoPart (p : ℕ) : Prop := ¬2 ^ 34 ∣ p - 1

instance (p : ℕ) : Decidable (SmallTwoPart p) := inferInstanceAs (Decidable (¬_))

theorem le_of_smallTwoPart {p q s : ℕ} (h : SmallTwoPart p) (hsplit : p - 1 = q * 2 ^ s) :
    s ≤ 33 := by
  by_contra hgt
  refine h ?_
  rw [hsplit]
  exact Dvd.dvd.mul_left (Nat.pow_dvd_pow 2 (by omega)) q

section Field
variable {p : ℕ} [Fact p.Prime]

theorem cast_sq_mod (t : ℕ) : ((t * t % p : ℕ) : ZMod p) = (t : ZMod p) * t := by
  rw [ZMod.natCast_mod, Nat.cast_mul]

theorem one_lt_modulus : 1 < p := (Fact.out : p.Prime).one_lt

theorem mod_lt_modulus (n : ℕ) : n % p < p := Nat.mod_lt n (Nat.zero_lt_of_lt one_lt_modulus)

/-- The loop that counts squarings stops at the first one, or when no rounds are left. -/
theorem orderLoop_eq {left k t i : ℕ} (ht : t < p) (hk : k ≤ left)
    (hne : ∀ j < k, (t : ZMod p) ^ 2 ^ j ≠ 1) (hend : k = left ∨ (t : ZMod p) ^ 2 ^ k = 1) :
    orderLoop p left t i = i + k := by
  induction left generalizing k t i with
  | zero =>
    obtain rfl : k = 0 := Nat.le_zero.mp hk
    rfl
  | succ left ih =>
    rw [orderLoop]
    cases k with
    | zero =>
      have hone : (t : ZMod p) = 1 := by
        have h := hend.resolve_left (Nat.succ_ne_zero left).symm
        rwa [pow_zero, pow_one] at h
      rw [if_neg (not_not.mpr ((natCast_eq_one_iff one_lt_modulus ht).mp hone))]
      rfl
    | succ k =>
      have hne0 : t ≠ 1 := by
        have h := hne 0 (Nat.succ_pos k)
        rw [pow_zero, pow_one] at h
        exact mt (natCast_eq_one_iff one_lt_modulus ht).mpr h
      have hpow : ∀ j, ((t * t % p : ℕ) : ZMod p) ^ 2 ^ j = (t : ZMod p) ^ 2 ^ (j + 1) := by
        intro j
        rw [cast_sq_mod, sq_pow_two_pow]
      rw [if_pos hne0, ih (k := k) (mod_lt_modulus _) (Nat.le_of_succ_le_succ hk), Nat.add_right_comm,
        Nat.add_assoc]
      · intro j hj
        rw [hpow]
        exact hne (j + 1) (Nat.succ_lt_succ hj)
      · rw [hpow]
        exact hend.imp_left Nat.succ.inj

theorem orderSearch_eq {fuel m k t i : ℕ} (ht : t < p) (h : SquaresToOne (t : ZMod p) k)
    (hm : i + k < m) (hfuel : k < fuel) : orderSearch p m fuel t i = .ok (some (i + k)) := by
  induction fuel generalizing k t i with
  | zero => omega
  | succ fuel ih =>
    rw [orderSearch]
    cases k with
    | zero =>
      have hone := h.one
      rw [pow_zero, pow_one] at hone
      rw [if_neg (not_not.mpr ((natCast_eq_one_iff one_lt_modulus ht).mp hone))]
      rfl
    | succ k =>
      have hne : t ≠ 1 := by
        have h0 := h.least 0 (Nat.succ_pos k)
        rw [pow_zero, pow_one] at h0
        exact mt (natCast_eq_one_iff one_lt_modulus ht).mpr h0
      have hsq : SquaresToOne ((t * t % p : ℕ) : ZMod p) k := by
        rw [cast_sq_mod]
        exact h.sq
      rw [if_pos hne, if_neg (by omega), ih (mod_lt_modulus _) hsq (by omega) (by omega),
        Nat.add_right_comm, Nat.add_assoc]

/-- The search gives up when no number of squarings below `m` gives one. -/
theorem orderSearch_none {fuel m t i : ℕ} (ht : t < p) (hi : i < m) (hfuel : m - i ≤ fuel)
    (hne : ∀ j < m - i, (t : ZMod p) ^ 2 ^ j ≠ 1) : orderSearch p m fuel t i = .ok none := by
  induction fuel generalizing t i with
  | zero => omega
  | succ fuel ih =>
    have h1 : t ≠ 1 := by
      have h0 := hne 0 (by omega)
      rw [pow_zero, pow_one] at h0
      exact mt (natCast_eq_one_iff one_lt_modulus ht).mpr h0
    rw [orderSearch, if_pos h1]
    by_cases hm : i + 1 = m
    · rw [if_pos hm]
      rfl
    · rw [if_neg hm]
      refine ih (mod_lt_modulus _) (by omega) (by omega) fun j hj => ?_
      rw [cast_sq_mod, sq_pow_two_pow]
      exact hne (j + 1) (by omega)

theorem cast_squareTimes (k b : ℕ) : (squareTimes p k b : ZMod p) = (b : ZMod p) ^ 2 ^ k := by
  induction k generalizing b with
  | zero => rw [squareTimes, pow_zero, pow_one]
  | succ k ih => rw [squareTimes, ih, cast_sq_mod, sq_pow_two_pow]

/-- The search for a non-residue finds the least one. -/
theorem nonResidueLoop_eq (hodd : p ≠ 2) {fuel z w : ℕ} (hz : z ≤ w) (hfuel : w < z + fuel)
    (hw : ¬IsSquare (w : ZMod p)) (hleast : ∀ k, z ≤ k → k < w → IsSquare (k : ZMod p)) :
    nonResidueLoop p ((p - 1) >>> 1) (p - 1) fuel z = .ok w := by
  have hpred : (p - 1) % p = p - 1 :=
    Nat.mod_eq_of_lt (Nat.sub_lt (Nat.zero_lt_of_lt one_lt_modulus) Nat.one_pos)
  induction fuel generalizing z with
  | zero => omega
  | succ fuel ih =>
    rw [nonResidueLoop, hpred]
    by_cases hzw : z = w
    · subst hzw
      rw [if_neg (not_not.mpr ((powMod_half_eq_pred_iff hodd z).mpr hw))]
      rfl
    · have hsq := hleast z le_rfl (by omega)
      rw [if_pos (mt (powMod_half_eq_pred_iff hodd z).mp (not_not.mpr hsq))]
      exact ih (by omega) (by omega) fun k hk => hleast k (by omega)

theorem nonResidueLoop_least (hodd : p ≠ 2) {z : ℕ} (hz : IsLeastNonresidue p z) (hlt : z < p) :
    nonResidueLoop p ((p - 1) >>> 1) (p - 1) p 2 = .ok z :=
  nonResidueLoop_eq hodd hz.two_le (by omega) hz.nonresidue hz.least

/-! ### The starting point -/

/-- The odd part and the two-part of `p - 1`. -/
theorem splitTwos_pred (hodd : p ≠ 2) : ∃ q s, splitTwos (p - 1) (p - 1) 0 = .ok (q, s) ∧
    p - 1 = q * 2 ^ s ∧ q % 2 = 1 ∧ 0 < s := by
  have hp := (Fact.out : p.Prime).eq_two_or_odd.resolve_left hodd
  have hpos := one_lt_modulus (p := p)
  obtain ⟨q, s, hrun, hsplit, hq⟩ := splitTwos_eq (by omega) (le_refl (p - 1)) 0
  refine ⟨q, s, by rw [hrun, Nat.zero_add], hsplit, hq, ?_⟩
  rw [Nat.pos_iff_ne_zero]
  rintro rfl
  rw [pow_zero, mul_one] at hsplit
  omega

/-- Half of the two-part takes an element to its Euler symbol. -/
theorem pow_two_part (hodd : p ≠ 2) {q s : ℕ} (h : p - 1 = q * 2 ^ s) (hs : 0 < s) :
    q * 2 ^ (s - 1) = p / 2 := by
  have hp := (Fact.out : p.Prime).eq_two_or_odd.resolve_left hodd
  have hpos := one_lt_modulus (p := p)
  have hpow : q * 2 ^ s = q * 2 ^ (s - 1) * 2 := by
    rw [mul_assoc, ← pow_succ, Nat.sub_add_cancel hs]
  omega

/-- The numbers the algorithm starts from for a residue that is not zero. -/
theorem tonelliShanks_start (hodd : p ≠ 2) {q s x z : ℕ} (h : p - 1 = q * 2 ^ s) (hs : 0 < s)
    (hq : q % 2 = 1) (hz : ¬IsSquare (z : ZMod p)) (hx0 : (x : ZMod p) ≠ 0)
    (hx : IsSquare (x : ZMod p)) :
    TonelliShanks (x : ZMod p) s (powMod p z q : ℕ) (powMod p x q : ℕ)
      (powMod p x ((q + 1) >>> 1) : ℕ) := by
  have hpart := pow_two_part hodd h hs
  rw [natCast_powMod, natCast_powMod, natCast_powMod, Nat.shiftRight_eq_div_pow, pow_one]
  refine TonelliShanks.start hs hq ?_ ?_
  · rw [hpart, pow_half_eq_neg_one_iff hodd]
    exact hz
  · rw [hpart, pow_half_eq_one_iff]
    exact ⟨hx0, hx⟩

/-! ### `mod_sqrt` -/

theorem modpow_eq (b e : ℕ) : (BigUint.modpow b e p : Calc ℕ) = .ok (powMod p b e) :=
  if_neg (Fact.out : p.Prime).ne_zero

theorem modSqrtLoop_eq {n : ZMod p} {fuel m c t r : ℕ} (h : TonelliShanks n m (c : ZMod p) t r)
    (hfuel : m < fuel) (hc : c < p) (ht : t < p) (hr : r < p) :
    ∃ root < p, modSqrtLoop p fuel m c t r = .ok (some root) ∧ (root : ZMod p) ^ 2 = n := by
  induction fuel generalizing m c t r with
  | zero => omega
  | succ fuel ih =>
    have ht0 : t ≠ 0 := by
      rintro rfl
      have hone := h.order
      rw [Nat.cast_zero, zero_pow (by positivity)] at hone
      exact zero_ne_one hone
    rw [modSqrtLoop, if_neg ht0]
    by_cases h1 : t = 1
    · refine ⟨r, hr, if_pos h1, ?_⟩
      rw [h.root, h1, Nat.cast_one, mul_one]
    · have hne : (t : ZMod p) ≠ 1 := mt (natCast_eq_one_iff one_lt_modulus ht).mp h1
      obtain ⟨k, -, hk⟩ := exists_squaresToOne h.order
      have hlt := h.lt_of_squaresToOne hk
      have horder : orderLoop p m t 0 = k := by
        rw [orderLoop_eq ht hlt.le hk.least (.inr hk.one), Nat.zero_add]
      rw [if_neg h1]
      simp only [horder]
      rw [if_neg hlt.ne]
      refine ih ?_ (by omega) (mod_lt_modulus _) (mod_lt_modulus _) (mod_lt_modulus _)
      have hstep := h.step hk hne (cast_squareTimes (m - k - 1) c)
      rw [cast_sq_mod, ZMod.natCast_mod, ZMod.natCast_mod, Nat.cast_mul, Nat.cast_mul,
        ZMod.natCast_mod, Nat.cast_mul, mul_assoc (t : ZMod p)]
      exact hstep

/-- The power that is a root, if there is one, when the modulus is three modulo four. -/
theorem sq_pow_quarter (h : p % 4 = 3) (x : ZMod p) :
    (x ^ ((p + 1) >>> 2)) ^ 2 = x ^ (p / 2) * x := by
  rw [← pow_mul, ← pow_succ, Nat.shiftRight_eq_div_pow]
  congr 1
  omega

theorem sq_pow_quarter_eq_iff (h : p % 4 = 3) (x : ZMod p) :
    (x ^ ((p + 1) >>> 2)) ^ 2 = x ↔ IsSquare x := by
  rw [sq_pow_quarter h]
  by_cases hx : x = 0
  · rw [hx, mul_zero]
    exact ⟨fun _ => IsSquare.zero, fun _ => rfl⟩
  · rw [mul_eq_right₀ hx, pow_half_eq_one_iff]
    exact ⟨fun h => h.2, fun h => ⟨hx, h⟩⟩

theorem modSqrtOpenvm_quarter (h : p % 4 = 3) (x z : ℕ) :
    modSqrtOpenvm x p z =
      .ok (if ((x : ZMod p) ^ ((p + 1) >>> 2)) ^ 2 = x then some (powMod p x ((p + 1) >>> 2))
        else none) := by
  have hiff : powMod p x ((p + 1) >>> 2) * powMod p x ((p + 1) >>> 2) % p = x % p ↔
      ((x : ZMod p) ^ ((p + 1) >>> 2)) ^ 2 = x := by
    rw [← ZMod.natCast_eq_natCast_iff', Nat.cast_mul, natCast_powMod, pow_two]
  unfold modSqrtOpenvm
  rw [if_pos h]
  simp only [modpow_eq, ok_bind, BigUint.rem_of_ne (Fact.out : p.Prime).ne_zero, hiff]
  split
  · rfl
  · rfl

/-- `mod_sqrt` of a square is a root of it. -/
theorem modSqrtOpenvm_square (hodd : p ≠ 2) {x z : ℕ} (hz : p % 4 ≠ 3 → ¬IsSquare (z : ZMod p))
    (hx : IsSquare (x : ZMod p)) :
    ∃ r < p, modSqrtOpenvm x p z = .ok (some r) ∧ (r : ZMod p) ^ 2 = x := by
  by_cases h3 : p % 4 = 3
  · have hroot := (sq_pow_quarter_eq_iff h3 (x : ZMod p)).mpr hx
    refine ⟨powMod p x ((p + 1) >>> 2), powMod_lt (Nat.zero_lt_of_lt one_lt_modulus) _ _, ?_, ?_⟩
    · rw [modSqrtOpenvm_quarter h3, if_pos hroot]
    · rw [natCast_powMod, hroot]
  · obtain ⟨q, s, hrun, hsplit, hq, hs⟩ := splitTwos_pred hodd
    have hp0 := Nat.zero_lt_of_lt (one_lt_modulus (p := p))
    have hloop : modSqrtOpenvm x p z = modSqrtLoop p (s + 1) s (powMod p z q) (powMod p x q)
        (powMod p x ((q + 1) >>> 1)) := by
      unfold modSqrtOpenvm
      rw [if_neg h3, BigUint.sub_of_le one_lt_modulus.le]
      simp only [ok_bind, hrun, modpow_eq]
    rw [hloop]
    by_cases hx0 : (x : ZMod p) = 0
    · have ht : powMod p x q = 0 := by
        rw [← natCast_eq_zero_iff (powMod_lt hp0 _ _), natCast_powMod, hx0, zero_pow (by omega)]
      refine ⟨0, hp0, ?_, ?_⟩
      · rw [modSqrtLoop, if_pos ht]
        rfl
      · rw [hx0, Nat.cast_zero, zero_pow two_ne_zero]
    · exact modSqrtLoop_eq (tonelliShanks_start hodd hsplit hs hq (hz h3) hx0 hx)
        (Nat.lt_succ_self s) (powMod_lt hp0 _ _) (powMod_lt hp0 _ _) (powMod_lt hp0 _ _)

/-- `mod_sqrt` of a number that is no square finds nothing. -/
theorem modSqrtOpenvm_nonsquare (hodd : p ≠ 2) {x z : ℕ} (hx : ¬IsSquare (x : ZMod p)) :
    modSqrtOpenvm x p z = .ok none := by
  by_cases h3 : p % 4 = 3
  · rw [modSqrtOpenvm_quarter h3, if_neg (mt (sq_pow_quarter_eq_iff h3 _).mp hx)]
  · obtain ⟨q, s, hrun, hsplit, hq, hs⟩ := splitTwos_pred hodd
    have hp0 := Nat.zero_lt_of_lt (one_lt_modulus (p := p))
    have ht : powMod p x q < p := powMod_lt hp0 _ _
    -- half of the two-part gives minus one, so that no fewer squarings give one
    have hhalf : (powMod p x q : ZMod p) ^ 2 ^ (s - 1) = -1 := by
      rw [natCast_powMod, ← pow_mul, pow_two_part hodd hsplit hs, pow_half_eq_neg_one_iff hodd]
      exact hx
    have hne : ∀ j < s, (powMod p x q : ZMod p) ^ 2 ^ j ≠ 1 := by
      intro j hj hone
      have hexp : 2 ^ (s - 1) = 2 ^ j * 2 ^ (s - 1 - j) := by
        rw [← pow_add]
        congr 1
        omega
      rw [hexp, pow_mul, hone, one_pow] at hhalf
      exact neg_one_ne_one hodd hhalf.symm
    have ht0 : powMod p x q ≠ 0 := by
      intro h
      rw [h, Nat.cast_zero, zero_pow (by positivity)] at hhalf
      exact neg_ne_zero.mpr one_ne_zero hhalf.symm
    have ht1 : powMod p x q ≠ 1 := by
      intro h
      rw [h, Nat.cast_one, one_pow] at hhalf
      exact neg_one_ne_one hodd hhalf.symm
    unfold modSqrtOpenvm
    rw [if_neg h3, BigUint.sub_of_le one_lt_modulus.le]
    simp only [ok_bind, hrun, modpow_eq]
    rw [modSqrtLoop, if_neg ht0, if_neg ht1]
    simp only [orderLoop_eq ht le_rfl hne (.inl rfl), Nat.zero_add, if_true]
    rfl

/-! ### `find_non_qr` and the square-root hint -/

/-- What the sampling loop returns has been tested. -/
theorem nonQrLoop_ok (host : Host) (hodd : p ≠ 2) {fuel k z : ℕ}
    (h : nonQrLoop host p (p - 3) (LittleEndian.ofBig p).length ((p - 1) >>> 1) (p - 1) fuel k =
      .ok z) : 2 ≤ z ∧ z < p ∧ ¬IsSquare (z : ZMod p) := by
  induction fuel generalizing k with
  | zero => cases h
  | succ fuel ih =>
    rw [nonQrLoop] at h
    dsimp only at h
    split at h
    · exact ih h
    · next hlt =>
      split at h
      · next htest =>
        obtain rfl := Except.ok.inj h
        exact ⟨Nat.le_add_left 2 _, by omega, (powMod_half_eq_pred_iff hodd _).mp htest⟩
      · exact ih h

/-- What `find_non_qr` does on a modulus that is one modulo eight. -/
theorem findNonQrOpenvm_sampled (host : Host) (hodd : p ≠ 2) (h3 : p % 4 ≠ 3) (h5 : p % 8 ≠ 5) :
    findNonQrOpenvm host p = nonQrLoop host p (p - 3) (LittleEndian.ofBig p).length
      ((p - 1) >>> 1) (p - 1) host.fuel 0 := by
  have hp := (Fact.out : p.Prime).eq_two_or_odd.resolve_left hodd
  have h1 := one_lt_modulus (p := p)
  rw [findNonQrOpenvm, if_neg h3, if_neg h5, BigUint.sub_of_le (by omega)]
  rfl

/-- Whatever `find_non_qr` returns is a non-residue. -/
theorem findNonQrOpenvm_ok (host : Host) (hodd : p ≠ 2) {z : ℕ}
    (h : findNonQrOpenvm host p = .ok z) : 2 ≤ z ∧ z < p ∧ ¬IsSquare (z : ZMod p) := by
  by_cases h3 : p % 4 = 3
  · rw [findNonQrOpenvm, if_pos h3, BigUint.sub_of_le one_lt_modulus.le] at h
    obtain rfl := Except.ok.inj h
    exact ⟨by omega, Nat.sub_lt (Nat.zero_lt_of_lt one_lt_modulus) Nat.one_pos, not_isSquare_pred h3⟩
  · by_cases h5 : p % 8 = 5
    · rw [findNonQrOpenvm, if_neg h3, if_pos h5] at h
      obtain rfl := Except.ok.inj h
      exact ⟨le_rfl, by omega, not_isSquare_two h5⟩
    · rw [findNonQrOpenvm_sampled host hodd h3 h5] at h
      exact nonQrLoop_ok host hodd h

/-- The random bytes lead to a non-residue, for a modulus that takes any. -/
def Host.Samples (host : Host) (p : ℕ) : Prop := p % 8 = 1 → ∃ k < host.fuel, Accepted host p k

theorem findNonQrOpenvm_returns {host : Host} (hodd : p ≠ 2) (h : host.Samples p) :
    ∃ z, findNonQrOpenvm host p = .ok z := by
  have hp := (Fact.out : p.Prime).eq_two_or_odd.resolve_left hodd
  by_cases h3 : p % 4 = 3
  · refine ⟨p - 1, ?_⟩
    rw [findNonQrOpenvm, if_pos h3, BigUint.sub_of_le one_lt_modulus.le]
  · by_cases h5 : p % 8 = 5
    · refine ⟨2, ?_⟩
      rw [findNonQrOpenvm, if_neg h3, if_pos h5]
      rfl
    · obtain ⟨k, hk, hacc⟩ := h (by omega)
      rw [findNonQrOpenvm_sampled host hodd h3 h5]
      exact nonQrLoop_returns host (Nat.zero_le k) (by omega) hacc

theorem findNonQrOpenvm_ne_panic (host : Host) (hodd : p ≠ 2) (message : String) :
    findNonQrOpenvm host p ≠ .error (.panic message) := by
  by_cases h3 : p % 4 = 3
  · rw [findNonQrOpenvm, if_pos h3, BigUint.sub_of_le one_lt_modulus.le]
    exact fun h => by cases h
  · by_cases h5 : p % 8 = 5
    · rw [findNonQrOpenvm, if_neg h3, if_pos h5]
      exact fun h => by cases h
    · rw [findNonQrOpenvm_sampled host hodd h3 h5]
      exact nonQrLoop_ne_panic host _ _ _ _ _ _ _ message

/-- The root the hint gives for a square. -/
theorem hintSqrtOf_square (hodd : p ≠ 2) {x z : ℕ} (hz : ¬IsSquare (z : ZMod p))
    (hx : IsSquare (x : ZMod p)) :
    ∃ r < p, hintSqrtOf x p z = .ok (true, r) ∧ (r : ZMod p) ^ 2 = x := by
  obtain ⟨r, hr, hrun, hroot⟩ := modSqrtOpenvm_square hodd (fun _ => hz) hx
  refine ⟨r, hr, ?_, hroot⟩
  rw [hintSqrtOf, hrun]
  rfl

/-- The root the hint gives for a number that is no square. -/
theorem hintSqrtOf_nonsquare (hodd : p ≠ 2) {x z : ℕ} (hz : ¬IsSquare (z : ZMod p))
    (hx : ¬IsSquare (x : ZMod p)) :
    ∃ r < p, hintSqrtOf x p z = .ok (false, r) ∧ (r : ZMod p) ^ 2 = x * z := by
  have hprod : ((x * z % p : ℕ) : ZMod p) = x * z := by rw [ZMod.natCast_mod, Nat.cast_mul]
  have hsq : IsSquare ((x * z % p : ℕ) : ZMod p) := by
    rw [hprod]
    exact isSquare_mul_of_not hodd hx hz
  obtain ⟨r, hr, hrun, hroot⟩ := modSqrtOpenvm_square hodd (fun _ => hz) hsq
  refine ⟨r, hr, ?_, hroot.trans hprod⟩
  rw [hintSqrtOf, modSqrtOpenvm_nonsquare hodd hx]
  simp only [ok_bind, BigUint.rem_of_ne (Fact.out : p.Prime).ne_zero, hrun, expect_some]
  rfl

/-! ### `tonelli_shanks` -/

theorem shiftOne_eq (host : Host) {m i : ℕ} (hi : i < m) (hm : m - i - 1 < 32) :
    shiftOne host m i = .ok (2 ^ (m - i - 1)) := if_pos ⟨hi, hm⟩

/-- Where the shift of a release build is too long it wraps around. -/
theorem shiftOne_wraps {host : Host} (hd : host.debugBuild = false) {m i v : ℕ}
    (hm : m = i + 1 + v) (hv : 32 ≤ v) : shiftOne host m i = .ok (2 ^ (v % 32)) := by
  have hexp : (m + 2 ^ 32 - (i + 1)) % 32 = v % 32 := by omega
  rw [shiftOne, if_neg (by omega), hd, hexp]
  rfl

theorem shiftOne_panics {host : Host} (hd : host.debugBuild = true) {m i v : ℕ}
    (hm : m = i + 1 + v) (hv : 32 ≤ v) :
    shiftOne host m i = .error (.panic "attempt to shift left with overflow") := by
  rw [shiftOne, if_neg (by omega), hd]
  rfl

/-- After a round whose shift wrapped around, `t` has an order that is too large. -/
theorem tonelliLoop_wrapped (host : Host) (hodd : p ≠ 2) {n : ZMod p} {fuel m i v c t r : ℕ}
    (h : TonelliShanks n m (c : ZMod p) t r) (hm : m = i + 1 + v) (hv : 32 ≤ v) (hi : 0 < i)
    (ht : (t : ZMod p) ^ 2 ^ i = 1) (c' r' : ℕ) (root : ℕ) :
    tonelliLoop host p fuel i c'
      (t * (powMod p c (2 ^ (v % 32)) * powMod p c (2 ^ (v % 32)) % p) % p) r' ≠ .ok (some root) := by
  generalize ht' : t * (powMod p c (2 ^ (v % 32)) * powMod p c (2 ^ (v % 32)) % p) % p = t'
  -- as many squarings as made `t` one leave a power of `c` below its order
  have hpow : (t' : ZMod p) ^ 2 ^ i = (c : ZMod p) ^ 2 ^ (v % 32 + 1 + i) := by
    rw [← ht', ZMod.natCast_mod, Nat.cast_mul, cast_sq_mod, natCast_powMod, mul_pow, ht, one_mul,
      ← pow_two, ← pow_mul, ← pow_mul, ← pow_succ', ← pow_add]
    congr 2
    omega
  have hlast : (t' : ZMod p) ^ 2 ^ i ≠ 1 := by
    intro hone
    have hexp : m - 1 = v % 32 + 1 + i + (m - 1 - (v % 32 + 1 + i)) := by omega
    have hgen := h.generator
    rw [hexp, pow_add 2, pow_mul, ← hpow, hone, one_pow] at hgen
    exact neg_one_ne_one hodd hgen.symm
  have hne : ∀ j < i + 1, (t' : ZMod p) ^ 2 ^ j ≠ 1 := by
    intro j hj hone
    rw [show i = j + (i - j) by omega, pow_add 2, pow_mul, hone, one_pow] at hlast
    exact hlast rfl
  have hlt : t' < p := ht' ▸ mod_lt_modulus _
  have h1 : t' ≠ 1 := by
    have h0 := hne 0 (by omega)
    rw [pow_zero, pow_one] at h0
    exact mt (natCast_eq_one_iff one_lt_modulus hlt).mpr h0
  cases fuel with
  | zero => exact fun hr => by cases hr
  | succ fuel =>
    rw [tonelliLoop, if_neg h1, orderSearch_none hlt hi (by omega) fun j hj => hne j (by omega)]
    exact fun hr => by cases hr

/-- The main loop finds a root if and only if the exponent of the root has no gap that the shift
is too short for. -/
theorem tonelliLoop_cases (host : Host) (hodd : p ≠ 2) {n : ZMod p} {fuel m c t r w : ℕ}
    (h : TonelliShanks n m (c : ZMod p) t r) (hw : RootExponent m (c : ZMod p) t w)
    (hfuel : m < fuel) (ht : t < p) (hr : r < p) :
    (ShortGaps 32 w ∧ ∃ root < p,
        tonelliLoop host p fuel m c t r = .ok (some root) ∧ (root : ZMod p) ^ 2 = n) ∨
      (¬ShortGaps 32 w ∧ ∀ root, tonelliLoop host p fuel m c t r ≠ .ok (some root)) := by
  induction fuel generalizing m c t r w with
  | zero => omega
  | succ fuel ih =>
    obtain rfl | hw0 := eq_or_ne w 0
    · have hone := rootExponent_zero.mp hw
      refine .inl ⟨shortGaps_zero 32, r, hr, ?_, ?_⟩
      · rw [tonelliLoop, if_pos ((natCast_eq_one_iff one_lt_modulus ht).mp hone)]
        rfl
      · rw [h.root, hone, mul_one]
    · obtain ⟨v, w, rfl⟩ := exists_lowest hw0
      have hv := hw.lt_order
      have hk := h.squaresToOne (neg_one_ne_one hodd) hw
      generalize hi : m - 1 - v = i at hk
      have hm : m = i + 1 + v := by omega
      have hne : (t : ZMod p) ≠ 1 := by
        have h0 := hk.least 0 (by omega)
        rwa [pow_zero, pow_one] at h0
      rw [tonelliLoop, if_neg (mt (natCast_eq_one_iff one_lt_modulus ht).mpr hne),
        orderSearch_eq ht hk (by omega) (by omega), Nat.zero_add]
      simp only [ok_bind]
      by_cases hv32 : v < 32
      · rw [shiftOne_eq host (by omega) (by omega), show m - i - 1 = v by omega]
        simp only [ok_bind]
        have hb : (powMod p c (2 ^ v) : ZMod p) = (c : ZMod p) ^ 2 ^ v := natCast_powMod c _
        have hstep := h.step hk hne (hb.trans (by rw [show m - i - 1 = v by omega]))
        have hnext := hw.step hb
        rw [hi] at hnext
        have hcast : ∀ a : ℕ, ((t * (a * a % p) % p : ℕ) : ZMod p) = t * ((a : ZMod p) * a) := by
          intro a
          rw [ZMod.natCast_mod, Nat.cast_mul, cast_sq_mod]
        rw [shortGaps_lowest, and_iff_right hv32]
        refine ih ?_ ?_ (by omega) (mod_lt_modulus _) (mod_lt_modulus _)
        · rw [hcast, cast_sq_mod, ZMod.natCast_mod, Nat.cast_mul]
          exact hstep
        · rw [hcast, cast_sq_mod]
          exact hnext
      · refine .inr ⟨fun hs => hv32 (shortGaps_lowest.mp hs).1, fun root => ?_⟩
        cases hd : host.debugBuild with
        | true =>
          rw [shiftOne_panics hd hm (Nat.le_of_not_lt hv32)]
          exact fun hr => by cases hr
        | false =>
          rw [shiftOne_wraps hd hm (Nat.le_of_not_lt hv32)]
          exact tonelliLoop_wrapped host hodd h hm (Nat.le_of_not_lt hv32) (by omega) hk.one _ _ _

theorem tonelliLoop_eq (host : Host) (hodd : p ≠ 2) {n : ZMod p} {fuel m c t r : ℕ}
    (h : TonelliShanks n m (c : ZMod p) t r) (hm : m ≤ 33) (hfuel : m < fuel) (ht : t < p)
    (hr : r < p) :
    ∃ root < p, tonelliLoop host p fuel m c t r = .ok (some root) ∧ (root : ZMod p) ^ 2 = n := by
  obtain ⟨w, hw⟩ := h.exists_rootExponent
  have hlt : w < 2 ^ 32 := hw.lt.trans_le (Nat.pow_le_pow_right (by decide) (by omega))
  obtain ⟨-, hroot⟩ | ⟨hlong, -⟩ := tonelliLoop_cases host hodd h hw hfuel ht hr
  · exact hroot
  · exact absurd (shortGaps_of_lt hlt) hlong

/-- The loop that `tonelli_shanks` reaches for a square. -/
theorem tonelliShanks_of_square (host : Host) (hodd : p ≠ 2) {n z : ℕ} (hn0 : (n : ZMod p) ≠ 0)
    (hsq : IsSquare (n : ZMod p)) (hz : IsLeastNonresidue p z) (hlt : z < p) :
    tonelliShanks host n p = (do
      let (q, s) ← splitTwos (p - 1) (p - 1) 0
      tonelliLoop host p (s + p + 2) s (powMod p z q) (powMod p n q)
        (powMod p n ((q + 1) >>> 1))) := by
  have h0 : n ≠ 0 := by
    rintro rfl
    exact hn0 Nat.cast_zero
  have heuler := (powMod_half_eq_one_iff hodd n).mpr ⟨hn0, hsq⟩
  rw [tonelliShanks, if_neg h0, BigUint.sub_of_le one_lt_modulus.le]
  simp only [ok_bind, modpow_eq]
  rw [if_neg (not_not.mpr heuler), nonResidueLoop_least hodd hz hlt]
  rfl

/-- `tonelli_shanks` of a square is a root of it. -/
theorem tonelliShanks_square (host : Host) (hodd : p ≠ 2) (hs : SmallTwoPart p) {n : ℕ}
    (hn : n < p) (hsq : IsSquare (n : ZMod p)) :
    ∃ r < p, tonelliShanks host n p = .ok (some r) ∧ (r : ZMod p) ^ 2 = n := by
  have hp0 := Nat.zero_lt_of_lt (one_lt_modulus (p := p))
  by_cases h0 : n = 0
  · refine ⟨0, hp0, if_pos h0, ?_⟩
    rw [h0, Nat.cast_zero, zero_pow two_ne_zero]
  · have hn0 : (n : ZMod p) ≠ 0 := mt (natCast_eq_zero_iff hn).mp h0
    obtain ⟨q, s, hrun, hsplit, hq, hpos⟩ := splitTwos_pred hodd
    obtain ⟨z, hzp, hz⟩ := exists_isLeastNonresidue hodd
    have hsmall := le_of_smallTwoPart hs hsplit
    obtain ⟨r, hr, hloop, hroot⟩ := tonelliLoop_eq host hodd
      (tonelliShanks_start hodd hsplit hpos hq hz.nonresidue hn0 hsq) hsmall
      (by omega : s < s + p + 2) (powMod_lt hp0 _ _) (powMod_lt hp0 _ _)
    refine ⟨r, hr, ?_, hroot⟩
    rw [tonelliShanks_of_square host hodd hn0 hsq hz hzp, hrun]
    exact hloop

/-- `tonelli_shanks` of a number that is no square finds nothing. -/
theorem tonelliShanks_nonsquare (host : Host) (hodd : p ≠ 2) {n : ℕ}
    (hsq : ¬IsSquare (n : ZMod p)) : tonelliShanks host n p = .ok none := by
  have h0 : n ≠ 0 := by
    rintro rfl
    rw [Nat.cast_zero] at hsq
    exact hsq IsSquare.zero
  have heuler : powMod p n ((p - 1) >>> 1) ≠ 1 :=
    mt (powMod_half_eq_one_iff hodd n).mp fun h => hsq h.2
  rw [tonelliShanks, if_neg h0, BigUint.sub_of_le one_lt_modulus.le]
  simp only [ok_bind, modpow_eq]
  exact if_pos heuler

/-- The numbers of the loop stay reduced and are never zero, whatever the two-part. -/
theorem tonelliLoop_some {host : Host} {fuel m c t r root : ℕ} (hc : (c : ZMod p) ≠ 0)
    (hr : r < p) (hr0 : (r : ZMod p) ≠ 0)
    (h : tonelliLoop host p fuel m c t r = .ok (some root)) :
    root < p ∧ (root : ZMod p) ≠ 0 := by
  induction fuel generalizing m c t r with
  | zero => cases h
  | succ fuel ih =>
    rw [tonelliLoop] at h
    split at h
    · cases h
      exact ⟨hr, hr0⟩
    · cases hsearch : orderSearch p m (m + p) t 0 with
      | error e =>
        rw [hsearch] at h
        cases h
      | ok order =>
        rw [hsearch] at h
        cases order with
        | none => cases h
        | some i =>
          cases hshift : shiftOne host m i with
          | error e =>
            simp only [ok_bind, hshift] at h
            cases h
          | ok e =>
            simp only [ok_bind, hshift] at h
            have hb : (powMod p c e : ZMod p) ≠ 0 := by
              rw [natCast_powMod]
              exact pow_ne_zero e hc
            refine ih ?_ (mod_lt_modulus _) ?_ h
            · rw [cast_sq_mod]
              exact mul_ne_zero hb hb
            · rw [ZMod.natCast_mod, Nat.cast_mul]
              exact mul_ne_zero hr0 hb

/-- A root that is found is reduced, and zero for zero only. -/
theorem tonelliShanks_some {host : Host} (hodd : p ≠ 2) {n r : ℕ} (hn : n < p)
    (h : tonelliShanks host n p = .ok (some r)) : r < p ∧ (r = 0 ↔ n = 0) := by
  have hp0 := Nat.zero_lt_of_lt (one_lt_modulus (p := p))
  by_cases h0 : n = 0
  · rw [tonelliShanks, if_pos h0] at h
    cases h
    exact ⟨hp0, fun _ => h0, fun _ => rfl⟩
  · have hn0 : (n : ZMod p) ≠ 0 := mt (natCast_eq_zero_iff hn).mp h0
    obtain ⟨q, s, hrun, -, -, -⟩ := splitTwos_pred hodd
    obtain ⟨z, hzp, hz⟩ := exists_isLeastNonresidue hodd
    have hz0 : (z : ZMod p) ≠ 0 := fun hzero => hz.nonresidue (hzero ▸ IsSquare.zero)
    rw [tonelliShanks, if_neg h0, BigUint.sub_of_le one_lt_modulus.le] at h
    simp only [ok_bind, modpow_eq] at h
    split at h
    · cases h
    · rw [hrun] at h
      simp only [ok_bind] at h
      rw [nonResidueLoop_least hodd hz hzp] at h
      simp only [ok_bind] at h
      have hpow : ∀ {a e : ℕ}, (a : ZMod p) ≠ 0 → (powMod p a e : ZMod p) ≠ 0 := by
        intro a e ha
        rw [natCast_powMod]
        exact pow_ne_zero e ha
      obtain ⟨hr, hr0⟩ := tonelliLoop_some (hpow hz0) (powMod_lt hp0 _ _) (hpow hn0) h
      refine ⟨hr, fun hzero => absurd ?_ hr0, fun hzero => absurd hzero h0⟩
      rw [hzero, Nat.cast_zero]

theorem leastNonQr_least (hodd : p ≠ 2) {z : ℕ} (hz : IsLeastNonresidue p z) (hlt : z < p) :
    leastNonQr p = .ok z := by
  rw [leastNonQr, BigUint.sub_of_le one_lt_modulus.le]
  exact nonResidueLoop_least hodd hz hlt

/-- The search of HintNonQr finds the least non-residue. -/
theorem leastNonQr_eq (hodd : p ≠ 2) : ∃ z, leastNonQr p = .ok z ∧ 2 ≤ z ∧ z < p ∧
    ¬IsSquare (z : ZMod p) ∧ ∀ k, 2 ≤ k → k < z → IsSquare (k : ZMod p) := by
  obtain ⟨z, hzp, hz⟩ := exists_isLeastNonresidue hodd
  exact ⟨z, leastNonQr_least hodd hz hzp, hz.two_le, hzp, hz.nonresidue, hz.least⟩

end Field

end OpenvmSim.Precompiles
