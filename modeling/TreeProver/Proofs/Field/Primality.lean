import Mathlib.Data.List.Prime
import Mathlib.NumberTheory.LucasPrimality
import Mathlib.Tactic.NormNum.Prime
import TreeProver.Field.Prime

/-!
# The modulus of the coordinate field is prime

Lucas' test shows that a number is prime from the prime factors of its predecessor and an element
whose order is the predecessor. The factors are tested in the same way, down to primes that are
small. The powers in the test are repeated operations, as those of the fields are.
-/

namespace TreeProver

/-- A map that turns an operation into multiplication turns its repetition into a power, where the
number of copies has at most `bits` binary digits. -/
theorem map_repeatedOver {α M : Type} [Monoid M] (f : α → M) {op : α → α → α} {unit : α}
    (hop : ∀ x y, f (op x y) = f x * f y) (hunit : f unit = 1) (x : α) {bits n : Nat}
    (h : n < 2 ^ bits) : f (repeatedOver op unit x bits n) = f x ^ n := by
  induction bits generalizing n with
  | zero =>
    obtain rfl : n = 0 := Nat.lt_one_iff.1 h
    rw [repeatedOver, hunit, pow_zero]
  | succ bits ih =>
    have hhalf : n / 2 < 2 ^ bits := by
      rw [Nat.pow_succ] at h
      omega
    rw [repeatedOver]
    split
    · next hodd =>
      have hn : n = n / 2 + n / 2 + 1 := by omega
      rw [hop, hop, ih hhalf, ← pow_add, ← pow_succ, ← hn]
    · next heven =>
      have hn : n = n / 2 + n / 2 := by omega
      rw [hop, ih hhalf, ← pow_add, ← hn]

/-- A map that turns an operation into multiplication turns its repetition into a power. -/
theorem map_repeated {α M : Type} [Monoid M] (f : α → M) {op : α → α → α} {unit : α}
    (hop : ∀ x y, f (op x y) = f x * f y) (hunit : f unit = 1) (x : α) (n : Nat) :
    f (repeated op unit x n) = f x ^ n := by
  rw [repeated]
  split
  · next h => rw [h, hunit, pow_zero]
  · exact map_repeatedOver f hop hunit x Nat.lt_log2_self

namespace Lucas

/-- A power modulo a number. -/
def powMod (m a n : Nat) : Nat := repeated (fun x y ↦ x * y % m) 1 a n % m

/-- A power modulo a number is one exactly when the power of the residue is. -/
theorem powMod_eq_one_iff {m : Nat} (hm : 1 < m) (a n : Nat) :
    powMod m a n = 1 ↔ (a : ZMod m) ^ n = 1 := by
  have hcast : ((repeated (fun x y ↦ x * y % m) 1 a n : Nat) : ZMod m) = (a : ZMod m) ^ n :=
    map_repeated (fun x : Nat ↦ (x : ZMod m)) (fun x y ↦ by simp) (by simp) a n
  have hone := ZMod.natCast_eq_natCast_iff' (repeated (fun x y ↦ x * y % m) 1 a n) 1 m
  rw [Nat.cast_one, Nat.mod_eq_of_lt hm] at hone
  rw [← hcast, hone, powMod]

/-- A number with a base for Lucas' test and the prime factors of its predecessor. -/
structure Candidate where
  number : Nat
  base : Nat
  factors : List Nat

/-- Lucas' test, where certain numbers are known to be prime. -/
def Candidate.test (primes : List Nat) (c : Candidate) : Bool :=
  decide (1 < c.number) && c.factors.all (fun q ↦ decide (q ∈ primes)) &&
    decide (c.factors.prod = c.number - 1) &&
    decide (powMod c.number c.base (c.number - 1) = 1) &&
    c.factors.all fun q ↦ decide (powMod c.number c.base ((c.number - 1) / q) ≠ 1)

/-- Tests candidates in order, each of which is known to be prime after its test. -/
def testAll (primes : List Nat) : List Candidate → Bool
  | [] => true
  | c :: cs => c.test primes && testAll (c.number :: primes) cs

/-- A number that passes the test is prime. -/
theorem Candidate.prime_of_test {primes : List Nat} (hprimes : ∀ q ∈ primes, q.Prime)
    {c : Candidate} (h : c.test primes = true) : c.number.Prime := by
  simp only [test, Bool.and_eq_true, decide_eq_true_eq, List.all_eq_true] at h
  obtain ⟨⟨⟨⟨hone, hknown⟩, hprod⟩, hpower⟩, hproper⟩ := h
  refine lucas_primality c.number c.base ((powMod_eq_one_iff hone _ _).1 hpower) fun q hq hdvd ↦ ?_
  have hmem : q ∈ c.factors := by
    rw [← hprod] at hdvd
    exact mem_list_primes_of_dvd_prod hq.prime (fun r hr ↦ (hprimes r (hknown r hr)).prime) hdvd
  rw [Ne, ← powMod_eq_one_iff hone]
  exact hproper q hmem

/-- All numbers that pass the test in order are prime. -/
theorem prime_of_testAll {primes : List Nat} (hprimes : ∀ q ∈ primes, q.Prime)
    {cs : List Candidate} (h : testAll primes cs = true) : ∀ c ∈ cs, c.number.Prime := by
  induction cs generalizing primes with
  | nil => exact fun c hc ↦ absurd hc List.not_mem_nil
  | cons c cs ih =>
    rw [testAll, Bool.and_eq_true] at h
    have hc := Candidate.prime_of_test hprimes h.1
    rw [List.forall_mem_cons]
    refine ⟨hc, ih ?_ h.2⟩
    rw [List.forall_mem_cons]
    exact ⟨hc, hprimes⟩

/-- Small primes that the candidates rest on. -/
def smallPrimes : List Nat :=
  [2, 3, 5, 7, 11, 13, 19, 29, 41, 67, 73, 89, 229, 311, 911, 983, 3557, 3691, 4999, 11003, 13327,
    327599, 1853641, 4562087]

/-- The candidates that lead to the modulus of the coordinate field. -/
def candidates : List Candidate :=
  [⟨405928799, 22, [2, 11, 3691, 4999]⟩,
    ⟨11465965001, 3, [2, 2, 2, 5, 5, 5, 5, 7, 327599]⟩,
    ⟨173171039, 13, [2, 73, 89, 13327]⟩,
    ⟨1263766531, 10, [2, 3, 5, 13, 911, 3557]⟩,
    ⟨35385462869, 2, [2, 2, 7, 1263766531]⟩,
    ⟨2480874801745591, 6, [2, 3, 3, 5, 19, 41, 35385462869]⟩,
    ⟨13427688667394608761327070753331941386769, 17,
      [2, 2, 2, 2, 3, 7, 11, 1853641, 4562087, 173171039, 2480874801745591]⟩,
    ⟨baseModulus, 3, [2, 3, 3, 13, 29, 67, 229, 311, 983, 11003, 405928799, 11465965001,
      13427688667394608761327070753331941386769]⟩]

end Lucas

/-- The modulus of the coordinate field is prime. -/
theorem baseModulus_prime : baseModulus.Prime := by
  have hsmall : ∀ q ∈ Lucas.smallPrimes, q.Prime := by
    norm_num [Lucas.smallPrimes]
  have htest : Lucas.testAll Lucas.smallPrimes Lucas.candidates = true := by decide +kernel
  have hlast : Lucas.candidates.getLast? = some (Lucas.candidates.getLast (by decide)) :=
    List.getLast?_eq_some_getLast _
  exact Lucas.prime_of_testAll hsmall htest _ (List.mem_of_getLast? hlast)

end TreeProver
