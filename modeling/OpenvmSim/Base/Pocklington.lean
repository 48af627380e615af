import Mathlib.FieldTheory.Finite.Basic
import OpenvmSim.Base.Power

/-! Primality certificates.

By Pocklington's criterion `p` is prime if some `a` has order in `(ℤ/p)ˣ` divisible by
a factor of `p - 1` beyond the square root of `p`, modulo every prime divisor of `p`.
A `Step` names `a` and the primes of that factor, and a certificate is a list of steps
that starts from the prime two and may use every prime certified before. Checking one
is a calculation on numbers. -/
namespace OpenvmSim.Pocklington

/-! ### The criterion -/

/-- If no prime of `F` can be taken out of the multiple `n` of `d` without losing `d`, then
all of `F` lies in `d`. -/
theorem dvd_of_not_dvd_div {factors : List ℕ} {n d : ℕ} (hprime : ∀ q ∈ factors, q.Prime)
    (hF : factors.prod ∣ n) (hd : d ∣ n) (hn : 0 < n) (hq : ∀ q ∈ factors, ¬d ∣ n / q) :
    factors.prod ∣ d := by
  obtain ⟨g, rfl⟩ := hd
  refine Nat.Coprime.dvd_of_dvd_mul_right ?_ hF
  refine Nat.Coprime.symm (Nat.coprime_of_dvd fun l hl hlg hlF => ?_)
  -- a common prime is one of the factors, and `d` survives its removal
  obtain ⟨q, hqm, hlq⟩ := (Prime.dvd_prod_iff hl.prime).mp hlF
  obtain rfl : l = q := (Nat.prime_dvd_prime_iff_eq hl (hprime q hqm)).mp hlq
  refine hq l hqm ?_
  rw [Nat.mul_div_assoc d hlg]
  exact dvd_mul_right _ _

/-- A prime divisor of `p` is larger than the factor. -/
theorem lt_of_prime_dvd {p a r : ℕ} {factors : List ℕ} (hp : 1 < p)
    (hprime : ∀ q ∈ factors, q.Prime) (hF : factors.prod ∣ p - 1) (ha : a ^ (p - 1) % p = 1)
    (hgcd : ∀ q ∈ factors, Nat.Coprime (a ^ ((p - 1) / q) % p + (p - 1)) p)
    (hr : r.Prime) (hrp : r ∣ p) : factors.prod < r := by
  have : Fact r.Prime := ⟨hr⟩
  have hpr : ((p : ℕ) : ZMod r) = 0 := (ZMod.natCast_eq_zero_iff p r).mpr hrp
  have hcast : ∀ k : ℕ, ((k % p : ℕ) : ZMod r) = k := by
    intro k
    have hk := congrArg (Nat.cast : ℕ → ZMod r) (Nat.div_add_mod k p)
    rwa [Nat.cast_add, Nat.cast_mul, hpr, zero_mul, zero_add] at hk
  have hb : (a : ZMod r) ^ (p - 1) = 1 := by
    rw [← Nat.cast_pow, ← hcast, ha, Nat.cast_one]
  have hb0 : (a : ZMod r) ≠ 0 := by
    intro h0
    rw [h0, zero_pow (Nat.sub_ne_zero_of_lt hp)] at hb
    exact zero_ne_one hb
  have hd : factors.prod ∣ orderOf (a : ZMod r) := by
    refine dvd_of_not_dvd_div hprime hF (orderOf_dvd_of_pow_eq_one hb) (Nat.sub_pos_of_lt hp) ?_
    intro q hq hdvd
    have hone := orderOf_dvd_iff_pow_eq_one.mp hdvd
    have hzero : ((a ^ ((p - 1) / q) % p + (p - 1) : ℕ) : ZMod r) = 0 := by
      rw [Nat.cast_add, hcast, Nat.cast_pow, hone, Nat.cast_sub hp.le, hpr, Nat.cast_one, zero_sub,
        add_neg_cancel]
    have hdvd' := (ZMod.natCast_eq_zero_iff _ r).mp hzero
    have h1 : r ∣ 1 := by
      rw [← Nat.Coprime.gcd_eq_one (hgcd q hq)]
      exact Nat.dvd_gcd hdvd' hrp
    exact hr.one_lt.ne' (Nat.dvd_one.mp h1)
  have hdr : orderOf (a : ZMod r) ∣ r - 1 :=
    orderOf_dvd_of_pow_eq_one (ZMod.pow_card_sub_one_eq_one hb0)
  have hle := Nat.le_of_dvd (Nat.sub_pos_of_lt hr.one_lt) (hd.trans hdr)
  exact Nat.lt_of_le_sub_one hr.pos hle

theorem prime_of_pocklington {p a : ℕ} {factors : List ℕ} (hp : 1 < p)
    (hprime : ∀ q ∈ factors, q.Prime) (hF : factors.prod ∣ p - 1)
    (hsq : p < factors.prod * factors.prod) (ha : a ^ (p - 1) % p = 1)
    (hgcd : ∀ q ∈ factors, Nat.Coprime (a ^ ((p - 1) / q) % p + (p - 1)) p) : p.Prime := by
  by_contra hnot
  have hr := Nat.minFac_prime hp.ne'
  have hlt := lt_of_prime_dvd hp hprime hF ha hgcd hr (Nat.minFac_dvd p)
  have hle := Nat.minFac_sq_le_self (Nat.zero_lt_of_lt hp) hnot
  rw [pow_two] at hle
  exact absurd (hsq.trans_le (Nat.mul_self_le_mul_self hlt.le)) (Nat.not_lt.mpr hle)

/-! ### Certificates -/

/-- One application of the criterion. The factors are listed with their multiplicities. -/
structure Step where
  p : ℕ
  a : ℕ
  factors : List ℕ

def Step.Valid (known : List ℕ) (c : Step) : Prop :=
  1 < c.p ∧ (c.p - 1) % c.factors.prod = 0 ∧ c.p < c.factors.prod * c.factors.prod ∧
    powMod c.p c.a (c.p - 1) = 1 ∧
    ∀ q ∈ c.factors, q ∈ known ∧ Nat.gcd (powMod c.p c.a ((c.p - 1) / q) + (c.p - 1)) c.p = 1

instance (known : List ℕ) (c : Step) : Decidable (c.Valid known) :=
  inferInstanceAs (Decidable (_ ∧ _))

/-- Every step is valid, with the primes before it. -/
def Valid : List ℕ → List Step → Prop
  | _, [] => True
  | known, c :: steps => c.Valid known ∧ Valid (c.p :: known) steps

instance decidableValid : (known : List ℕ) → (steps : List Step) → Decidable (Valid known steps)
  | _, [] => inferInstanceAs (Decidable True)
  | known, c :: steps =>
    have := decidableValid (c.p :: known) steps
    inferInstanceAs (Decidable (c.Valid known ∧ Valid (c.p :: known) steps))

theorem Step.Valid.prime {known : List ℕ} {c : Step} (h : c.Valid known)
    (hknown : ∀ q ∈ known, q.Prime) : c.p.Prime := by
  obtain ⟨hp, hF, hsq, ha, hq⟩ := h
  rw [powMod_eq] at ha
  refine prime_of_pocklington hp (fun q hm => hknown q (hq q hm).1) (Nat.dvd_of_mod_eq_zero hF) hsq
    ha fun q hm => ?_
  rw [← powMod_eq]
  exact (hq q hm).2

/-- The numbers of a valid certificate are primes. -/
theorem Valid.prime {known : List ℕ} {steps : List Step} (h : Valid known steps)
    (hknown : ∀ q ∈ known, q.Prime) : ∀ c ∈ steps, c.p.Prime := by
  induction steps generalizing known with
  | nil => exact fun _ hc => absurd hc List.not_mem_nil
  | cons c steps ih =>
    obtain ⟨hc, hsteps⟩ := h
    have hprime := hc.prime hknown
    have hrest := ih hsteps (List.forall_mem_cons.mpr ⟨hprime, hknown⟩)
    exact List.forall_mem_cons.mpr ⟨hprime, hrest⟩

theorem prime_of_certificate {p : ℕ} (steps : List Step) (h : Valid [2] steps)
    (hp : ∃ c ∈ steps, c.p = p) : p.Prime := by
  obtain ⟨c, hc, rfl⟩ := hp
  exact h.prime (fun q hq => List.mem_singleton.mp hq ▸ Nat.prime_two) c hc

end OpenvmSim.Pocklington
