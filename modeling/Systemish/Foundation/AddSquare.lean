import Mathlib

/-!
# Rounds of adding and squaring

The map `c ↦ (c + s) ^ 2` on a commutative ring in which every element is even or odd, applied over
and over to two start values. What is followed is the number of factors of two in the difference of
the two. An odd difference stays odd. An even one gains a factor in each round and a second one in
every other round, and for `s = 4 * r + 1` it gains no more than these.
-/

namespace Systemish.Foundation

variable {R : Type*} [CommRing R]

/-- One round. -/
def addSquare (s c : R) : R := (c + s) * (c + s)

theorem addSquare_sub_addSquare (s c d : R) :
    addSquare s c - addSquare s d = (c - d) * ((c - d) + 2 * (d + s)) := by
  unfold addSquare
  ring

variable {s c d : R} {k : ℕ}

/-- An odd difference stays odd. -/
theorem odd_iterate_sub (s : R) (h : Odd (c - d)) (n : ℕ) :
    Odd ((addSquare s)^[n] c - (addSquare s)^[n] d) := by
  induction n with
  | zero => exact h
  | succ n ih =>
    rw [Function.iterate_succ_apply', Function.iterate_succ_apply', addSquare_sub_addSquare]
    exact ih.mul (ih.add_even (even_two_mul _))

/-! ## Factors that are gained at least -/

theorem pow_dvd_addSquare_sub (s : R) (h : 2 ^ (k + 1) ∣ c - d) :
    2 ^ (k + 2) ∣ addSquare s c - addSquare s d := by
  rw [addSquare_sub_addSquare, pow_succ _ (k + 1)]
  apply mul_dvd_mul h
  apply dvd_add _ (dvd_mul_right _ _)
  exact (dvd_pow_self 2 (Nat.succ_ne_zero k)).trans h

/-- A second factor, if `d + s` is even. -/
theorem pow_dvd_addSquare_sub_of_even (hd : Even (d + s)) (h : 2 ^ (k + 2) ∣ c - d) :
    2 ^ (k + 4) ∣ addSquare s c - addSquare s d := by
  have hfour : (2 : R) ^ 2 ∣ 2 * (d + s) := by
    rw [pow_two]
    exact mul_dvd_mul_left 2 hd.two_dvd
  rw [addSquare_sub_addSquare, pow_add _ (k + 2) 2]
  exact mul_dvd_mul h (dvd_add ((pow_dvd_pow 2 (Nat.le_add_left 2 k)).trans h) hfour)

section Parity

variable (parity : ∀ x : R, Even x ∨ Odd x)

include parity

theorem even_mul_add_one (x : R) : Even (x * (x + 1)) := by
  rcases parity x with hx | hx
  · exact hx.mul_right _
  · exact hx.add_one.mul_left _

theorem even_addSquare_add (s : R) (hd : Even d) : Even (addSquare s d + s) := by
  have heq : addSquare s d + s = d * (d + 2 * s) + s * (s + 1) := by
    unfold addSquare
    ring
  rw [heq]
  exact (hd.mul_right _).add (even_mul_add_one parity s)

theorem even_two_rounds (s : R) (hd : Even d) : Even ((addSquare s)^[2] d) :=
  (even_addSquare_add parity s hd).mul_right _

/-- The second of two rounds gains two factors. -/
theorem pow_dvd_two_rounds (s : R) (hd : Even d) (h : 2 ^ (k + 2) ∣ c - d) :
    2 ^ (k + 5) ∣ (addSquare s)^[2] c - (addSquare s)^[2] d :=
  pow_dvd_addSquare_sub_of_even (even_addSquare_add parity s hd)
    (pow_dvd_addSquare_sub (k := k + 1) s h)

theorem pow_dvd_pairs (s : R) (hd : Even d) (h : 2 ^ (k + 2) ∣ c - d) (m : ℕ) :
    Even ((addSquare s)^[2 * m] d) ∧
      2 ^ (k + 3 * m + 2) ∣ (addSquare s)^[2 * m] c - (addSquare s)^[2 * m] d := by
  induction m with
  | zero => exact ⟨hd, h⟩
  | succ m ih =>
    rw [Nat.mul_succ, Nat.add_comm, Function.iterate_add_apply, Function.iterate_add_apply]
    exact ⟨even_two_rounds parity s ih.1, pow_dvd_two_rounds parity s ih.1 ih.2⟩

theorem pow_dvd_iterate_sub (s : R) (hd : Even d) (h : 2 ^ (k + 2) ∣ c - d) (n : ℕ) :
    2 ^ (k + 2 + n + n / 2) ∣ (addSquare s)^[n] c - (addSquare s)^[n] d := by
  obtain ⟨m, rfl | rfl⟩ := Nat.even_or_odd' n
  · have hexp : k + 2 + 2 * m + 2 * m / 2 = k + 3 * m + 2 := by omega
    rw [hexp]
    exact (pow_dvd_pairs parity s hd h m).2
  · have hexp : k + 2 + (2 * m + 1) + (2 * m + 1) / 2 = k + 3 * m + 3 := by omega
    rw [hexp, Function.iterate_succ_apply', Function.iterate_succ_apply']
    exact pow_dvd_addSquare_sub (k := k + 3 * m + 1) s (pow_dvd_pairs parity s hd h m).2

/-- From an even start value, the first two rounds gain as many factors as from a multiple of four,
except that they may gain one less for an even `s`; then each of the next two makes up for it. -/
theorem pow_dvd_four_rounds (s : R) (hc : Even c) :
    2 ^ 8 ∣ (addSquare s)^[4] c - (addSquare s)^[4] 0 := by
  have hdiff : (2 : R) ^ 1 ∣ c - 0 := by
    rw [pow_one, sub_zero]
    exact hc.two_dvd
  have hone : Even (addSquare s 0 + s) := even_addSquare_add parity s Even.zero
  have htwo : Even ((addSquare s)^[2] 0) := even_two_rounds parity s Even.zero
  rcases parity s with hs | hs
  · have hthree : Even ((addSquare s)^[3] 0 + s) := even_addSquare_add parity s htwo
    exact pow_dvd_addSquare_sub_of_even hthree <| pow_dvd_addSquare_sub_of_even (htwo.add hs) <|
      pow_dvd_addSquare_sub_of_even (k := 0) hone (pow_dvd_addSquare_sub (k := 0) s hdiff)
  · have hfirst : (2 : R) ^ 3 ∣ addSquare s c - addSquare s 0 := by
      obtain ⟨y, rfl⟩ := hc.two_dvd
      have heven : Even (y * (y + s)) := by
        rcases parity y with hy | hy
        · exact hy.mul_right _
        · exact (hy.add_odd hs).mul_left _
      obtain ⟨z, hz⟩ := heven.two_dvd
      refine ⟨z, ?_⟩
      calc
        addSquare s (2 * y) - addSquare s 0 = 4 * (y * (y + s)) := by
          unfold addSquare
          ring
        _ = 2 ^ 3 * z := by
          rw [hz]
          ring
    exact pow_dvd_two_rounds parity s htwo <| pow_dvd_addSquare_sub_of_even (k := 1) hone hfirst

end Parity

/-! ## Factors that are gained exactly -/

/-- `x` has `k` factors of two. -/
def HasTwos (k : ℕ) (x : R) : Prop := ∃ u, Odd u ∧ x = 2 ^ k * u

theorem HasTwos.mul {l : ℕ} {x y : R} (hx : HasTwos k x) (hy : HasTwos l y) :
    HasTwos (k + l) (x * y) := by
  obtain ⟨u, hu, rfl⟩ := hx
  obtain ⟨v, hv, rfl⟩ := hy
  exact ⟨u * v, hu.mul hv, by ring⟩

/-- More factors in one of two terms make no difference. -/
theorem HasTwos.add_left {l : ℕ} {x y : R} (hx : HasTwos (k + l + 1) x) (hy : HasTwos k y) :
    HasTwos k (x + y) := by
  obtain ⟨u, -, rfl⟩ := hx
  obtain ⟨v, hv, rfl⟩ := hy
  refine ⟨2 * (2 ^ l * u) + v, (even_two_mul _).add_odd hv, by ring⟩

theorem HasTwos.two_mul {x : R} (hx : HasTwos k x) : HasTwos (k + 1) (2 * x) := by
  obtain ⟨u, hu, rfl⟩ := hx
  exact ⟨u, hu, by ring⟩

theorem hasTwos_zero (h : Odd c) : HasTwos 0 c := ⟨c, h, by ring⟩

theorem HasTwos.addSquare_sub_of_odd (h : HasTwos (k + 2) (c - d)) (hd : Odd (d + s)) :
    HasTwos (k + 3) (addSquare s c - addSquare s d) := by
  rw [addSquare_sub_addSquare]
  have hfactor : HasTwos 1 ((c - d) + 2 * (d + s)) :=
    HasTwos.add_left (l := k) (by convert h using 1; omega) (hasTwos_zero hd).two_mul
  exact h.mul hfactor

theorem HasTwos.addSquare_sub_of_hasTwos (h : HasTwos (k + 3) (c - d)) (hd : HasTwos 1 (d + s)) :
    HasTwos (k + 5) (addSquare s c - addSquare s d) := by
  rw [addSquare_sub_addSquare]
  have hfactor : HasTwos 2 ((c - d) + 2 * (d + s)) :=
    HasTwos.add_left (l := k) (by convert h using 1; omega) hd.two_mul
  exact h.mul hfactor

section OneModFour

variable {r : R} (hs : s = 4 * r + 1)

include hs

theorem odd_of_eq : Odd s := ⟨2 * r, by rw [hs]; ring⟩

theorem hasTwos_addSquare_add (hd : Even d) : HasTwos 1 (addSquare s d + s) := by
  obtain ⟨y, hy⟩ := hd.add_odd (odd_of_eq hs)
  refine ⟨2 * (y * (y + 1) + r) + 1, ⟨_, rfl⟩, ?_⟩
  calc
    addSquare s d + s = (2 * y + 1) * (2 * y + 1) + (4 * r + 1) := by rw [addSquare, hy, hs]
    _ = 2 ^ 1 * (2 * (y * (y + 1) + r) + 1) := by ring

theorem even_addSquare_addSquare (hd : Even d) : Even ((addSquare s)^[2] d) := by
  obtain ⟨u, -, hu⟩ := hasTwos_addSquare_add hs hd
  have heven : Even (addSquare s d + s) := by
    rw [hu, pow_one]
    exact even_two_mul u
  exact heven.mul_right _

theorem hasTwos_pairs (hd : Even d) (h : HasTwos (k + 2) (c - d)) (m : ℕ) :
    Even ((addSquare s)^[2 * m] d) ∧
      HasTwos (k + 3 * m + 2) ((addSquare s)^[2 * m] c - (addSquare s)^[2 * m] d) := by
  induction m with
  | zero => exact ⟨hd, h⟩
  | succ m ih =>
    rw [Nat.mul_succ, Nat.add_comm, Function.iterate_add_apply, Function.iterate_add_apply]
    refine ⟨even_addSquare_addSquare hs ih.1, ?_⟩
    exact (ih.2.addSquare_sub_of_odd (ih.1.add_odd (odd_of_eq hs))).addSquare_sub_of_hasTwos
      (hasTwos_addSquare_add hs ih.1)

theorem hasTwos_iterate_sub (hd : Even d) (h : HasTwos (k + 2) (c - d)) (n : ℕ) :
    HasTwos (k + 2 + n + n / 2) ((addSquare s)^[n] c - (addSquare s)^[n] d) := by
  obtain ⟨m, rfl | rfl⟩ := Nat.even_or_odd' n
  · have hexp : k + 2 + 2 * m + 2 * m / 2 = k + 3 * m + 2 := by omega
    rw [hexp]
    exact (hasTwos_pairs hs hd h m).2
  · have hexp : k + 2 + (2 * m + 1) + (2 * m + 1) / 2 = k + 3 * m + 3 := by omega
    obtain ⟨heven, htwos⟩ := hasTwos_pairs hs hd h m
    rw [hexp, Function.iterate_succ_apply', Function.iterate_succ_apply']
    exact htwos.addSquare_sub_of_odd (heven.add_odd (odd_of_eq hs))

/-- The same where the first round was one of those that gain two factors. -/
theorem hasTwos_iterate_sub_of_hasTwos (hd : HasTwos 1 (d + s)) (heven : Even (addSquare s d))
    (h : HasTwos (k + 3) (c - d)) (n : ℕ) :
    HasTwos (k + 5 + n + n / 2) ((addSquare s)^[n + 1] c - (addSquare s)^[n + 1] d) := by
  rw [Function.iterate_succ_apply, Function.iterate_succ_apply]
  exact hasTwos_iterate_sub (k := k + 3) hs heven (h.addSquare_sub_of_hasTwos hd) n

end OneModFour

end Systemish.Foundation
