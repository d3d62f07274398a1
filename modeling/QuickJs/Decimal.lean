import Mathlib.Data.Nat.Digits.Lemmas

/-!
# Decimal texts
-/

namespace QuickJs.Atom

/-- The decimal text of a number, `snprintf` with `%u`. -/
def decimal (n : ℕ) : List ℕ := if n = 0 then [48] else (Nat.digits 10 n).reverse.map (· + 48)

theorem decimal_ne_nil (n : ℕ) : decimal n ≠ [] := by
  unfold decimal
  split
  · exact List.cons_ne_nil _ _
  · rename_i h0
    simpa [Nat.digits_eq_nil_iff_eq_zero] using h0

theorem decimal_of_lt {n : ℕ} (h : n < 10) : decimal n = [n + 48] := by
  unfold decimal
  split
  · subst n
    rfl
  · rename_i h0
    rw [Nat.digits_of_lt 10 n h0 h]
    rfl

theorem decimal_snoc {n d : ℕ} (hn : 0 < n) (hd : d < 10) : decimal (n * 10 + d) = decimal n ++ [d + 48] := by
  have hsum : n * 10 + d = d + 10 * n := by omega
  rw [decimal, if_neg (by omega), decimal, if_neg (by omega), hsum,
    Nat.digits_add 10 (by omega) d n hd (.inr (by omega)), List.reverse_cons, List.map_append]
  rfl

theorem decimal_injective {n m : ℕ} (h : decimal n = decimal m) : n = m := by
  have hmap : Function.Injective (List.map (· + 48) : List ℕ → List ℕ) :=
    List.map_injective_iff.mpr fun a b hab => Nat.add_right_cancel hab
  have hzero : ∀ k : ℕ, (Nat.digits 10 k).reverse.map (· + 48) = [48] → False := by
    intro k hk
    have hd : Nat.digits 10 k = [0] := by
      have hrev : (Nat.digits 10 k).reverse = [0] := hmap (by simpa using hk)
      simpa using congrArg List.reverse hrev
    have h0 : k = 0 := by
      have hof := Nat.ofDigits_digits 10 k
      rw [hd] at hof
      simpa using hof.symm
    subst h0
    simp at hd
  unfold decimal at h
  split at h <;> split at h
  · omega
  · exact (hzero m h.symm).elim
  · exact (hzero n h).elim
  · exact Nat.digits_inj_iff.mp (List.reverse_injective (hmap h))

end QuickJs.Atom
