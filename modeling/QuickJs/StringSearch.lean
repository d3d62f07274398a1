import Mathlib.Data.List.GetD
import QuickJs.JSString
import QuickJs.Occurrence

/-!
# Searching in strings

`string_indexof` looks for the first character of the one string in the other one and compares the rest there. The
strings may have different widths.
-/

namespace QuickJs.JSString

open Occurrence

/-- `string_get` -/
def stringGet : Chars → ℕ → ℕ
  | .str8 s, idx => (s.getD idx 0).toNat
  | .str16 s, idx => (s.getD idx 0).toNat

/-- `string_cmp` -/
def stringCmp (p₁ p₂ : Chars) (x₁ x₂ : ℕ) : ℕ → ℤ
  | 0 => 0
  | len + 1 =>
    let c₁ := stringGet p₁ x₁
    let c₂ := stringGet p₂ x₂
    if c₁ ≠ c₂ then (c₁ : ℤ) - c₂ else stringCmp p₁ p₂ (x₁ + 1) (x₂ + 1) len

/-- The loops of `string_indexof_char`. -/
def indexofLoop {β : Type} (eq : β → Bool) : List β → ℕ → Option ℕ
  | [], _ => none
  | x :: s, i => if eq x then some i else indexofLoop eq s (i + 1)

/-- `string_indexof_char`; -1 is `none`. -/
def stringIndexofChar (p : Chars) (c start : ℕ) : Option ℕ :=
  match p with
  | .str16 s => indexofLoop (·.toNat == c) (s.drop start) start
  | .str8 s => if c / 0x100 = 0 then indexofLoop (·.toNat == c % 0x100) (s.drop start) start else none

variable {p p₁ p₂ : Chars} {c i j start : ℕ}

theorem stringGet_eq (p : Chars) (i : ℕ) : stringGet p i = (p.units.getD i 0).toNat := by
  cases p with
  | str16 s => rfl
  | str8 s =>
    rw [stringGet, Chars.units, List.getD_eq_getElem?_getD, List.getD_eq_getElem?_getD, List.getElem?_map]
    cases s[i]? with
    | none => rfl
    | some x => exact (UInt8.toNat_toUInt16 x).symm

theorem indexofLoop_eq {β : Type} (eq : β → Bool) (s : List β) (i : ℕ) :
    indexofLoop eq s i = (s.findIdx? eq).map (· + i) := by
  induction s generalizing i with
  | nil => rfl
  | cons x s ih =>
    rw [indexofLoop, List.findIdx?_cons]
    split
    · rw [Option.map_some, Nat.zero_add]
    · rw [ih, Option.map_map]
      exact congrArg (fun f => (s.findIdx? eq).map f) (funext fun k => by
        show k + (i + 1) = k + 1 + i
        omega)

/-- Whatever the width is, the code units are searched. -/
theorem stringIndexofChar_eq (p : Chars) (c start : ℕ) :
    stringIndexofChar p c start = ((p.units.drop start).findIdx? (·.toNat == c)).map (· + start) := by
  cases p with
  | str16 s => exact indexofLoop_eq _ _ _
  | str8 s =>
    rw [stringIndexofChar, Chars.units, ← List.map_drop, List.findIdx?_map]
    split
    · have hc : c % 0x100 = c := by omega
      rw [indexofLoop_eq, hc]
      rfl
    · have hnone : (s.drop start).findIdx? ((fun u : UInt16 => u.toNat == c) ∘ UInt8.toUInt16) = none := by
        refine List.findIdx?_eq_none_iff.mpr fun x _ => ?_
        rw [Function.comp_apply, UInt8.toNat_toUInt16, beq_eq_false_iff_ne]
        have hx := x.toNat_lt
        omega
      rw [hnone]
      rfl

theorem stringIndexofChar_some (h : stringIndexofChar p c start = some j) :
    start ≤ j ∧ j < p.len ∧ stringGet p j = c ∧ ∀ k, start ≤ k → k < j → stringGet p k ≠ c := by
  rw [stringIndexofChar_eq] at h
  obtain ⟨i, hi, rfl⟩ := Option.map_eq_some_iff.mp h
  obtain ⟨hlt, hfound, hleast⟩ := List.findIdx?_eq_some_iff_getElem.mp hi
  rw [List.length_drop, length_units] at hlt
  have hget : ∀ k (hk : k < (p.units.drop start).length),
      stringGet p (start + k) = (p.units.drop start)[k].toNat := by
    intro k hk
    rw [stringGet_eq, List.getElem_drop, List.getD_eq_getElem _ _ (by rw [List.length_drop] at hk; omega)]
  refine ⟨Nat.le_add_left _ _, by omega, ?_, fun k hk hki => ?_⟩
  · rw [Nat.add_comm, hget i (by rw [List.length_drop]; exact hlt)]
    exact beq_iff_eq.mp hfound
  · have hsub : k = start + (k - start) := by omega
    have hne := hleast (k - start) (by omega)
    rw [hsub, hget (k - start) (by rw [List.length_drop]; exact Nat.lt_trans (by omega) hlt)]
    exact fun heq => hne (beq_iff_eq.mpr heq)

theorem stringIndexofChar_none (h : stringIndexofChar p c start = none) {k : ℕ} (hk : start ≤ k) (hlt : k < p.len) :
    stringGet p k ≠ c := by
  rw [stringIndexofChar_eq, Option.map_eq_none_iff, List.findIdx?_eq_none_iff] at h
  rw [← length_units] at hlt
  have hmem : p.units[k] ∈ p.units.drop start := by
    have hdrop : k - start < (p.units.drop start).length := by
      rw [List.length_drop]
      omega
    have hget : (p.units.drop start)[k - start] = p.units[k] := by
      rw [List.getElem_drop]
      congr 1
      omega
    exact hget ▸ List.getElem_mem hdrop
  rw [stringGet_eq, List.getD_eq_getElem _ _ hlt]
  exact fun heq => Bool.false_ne_true ((h _ hmem).symm.trans (beq_iff_eq.mpr heq))

theorem stringCmp_eq_zero {x₁ x₂ len : ℕ} :
    stringCmp p₁ p₂ x₁ x₂ len = 0 ↔ ∀ k < len, stringGet p₁ (x₁ + k) = stringGet p₂ (x₂ + k) := by
  induction len generalizing x₁ x₂ with
  | zero => exact ⟨fun _ k hk => absurd hk (Nat.not_lt_zero k), fun _ => rfl⟩
  | succ len ih =>
    rw [stringCmp]
    split
    · rename_i hne
      constructor
      · intro h
        exact absurd (by omega : stringGet p₁ x₁ = stringGet p₂ x₂) hne
      · intro h
        exact absurd (h 0 len.succ_pos) hne
    · rename_i heq
      rw [ih]
      constructor
      · intro h k hk
        cases k with
        | zero => exact not_not.mp heq
        | succ k =>
          have hk' := h k (by omega)
          rwa [Nat.add_assoc, Nat.add_assoc, Nat.add_comm 1 k] at hk'
      · intro h k hk
        have hk' := h (k + 1) (by omega)
        rwa [← Nat.add_assoc, ← Nat.add_assoc, Nat.add_right_comm, Nat.add_right_comm x₂] at hk'

/-- The one string stands in the other one where all the characters are the same. -/
theorem occursAt_iff (hj : j + p₂.len ≤ p₁.len) :
    OccursAt p₂.units p₁.units j ↔ ∀ k < p₂.len, stringGet p₁ (j + k) = stringGet p₂ k := by
  rw [OccursAt, List.prefix_iff_getElem?]
  have hget : ∀ k (hk : k < p₂.units.length),
      (p₁.units.drop j)[k]? = some p₂.units[k] ↔ stringGet p₁ (j + k) = stringGet p₂ k := by
    intro k hk
    have hk₁ : j + k < p₁.units.length := by
      rw [length_units] at hk ⊢
      omega
    rw [List.getElem?_drop, List.getElem?_eq_getElem hk₁, stringGet_eq, stringGet_eq, List.getD_eq_getElem _ _ hk₁,
      List.getD_eq_getElem _ _ hk, Option.some.injEq, UInt16.toNat_inj]
  exact ⟨fun h k hk => (hget k hk).mp (h k hk), fun h k hk => (hget k hk).mpr (h k hk)⟩

/-! ## `string_indexof` -/

/-- The loop of `string_indexof`. -/
def stringIndexofLoop (p₁ p₂ : Chars) (c i : ℕ) : Option ℕ :=
  if i + p₂.len ≤ p₁.len then
    match _h : stringIndexofChar p₁ c i with
    | none => none
    | some j =>
      if p₁.len < j + p₂.len then none
      else if stringCmp p₁ p₂ (j + 1) 1 (p₂.len - 1) = 0 then some j
      else stringIndexofLoop p₁ p₂ c (j + 1)
  else none
termination_by p₁.len - i
decreasing_by
  have hj := stringIndexofChar_some _h
  omega

/-- `string_indexof`; -1 is `none`. -/
def stringIndexof (p₁ p₂ : Chars) (start : ℕ) : Option ℕ :=
  if p₂.len = 0 then some start else stringIndexofLoop p₁ p₂ (stringGet p₂ 0) start

/-- What the search answers: the least position, or that there is none. -/
structure Finds (p₁ p₂ : Chars) (start : ℕ) (r : Option ℕ) : Prop where
  first : ∀ j, r = some j → First p₂.units p₁.units start j
  absent : r = none → ∀ k, start ≤ k → ¬OccursAt p₂.units p₁.units k

theorem ne_nil_of_pos (hlen : 0 < p.len) : p.units ≠ [] := List.ne_nil_of_length_pos hlen

/-- At the position of the first character, the rest is compared. -/
theorem stringCmp_rest (hlen : 0 < p₂.len) (hj : j + p₂.len ≤ p₁.len) (hget : stringGet p₁ j = stringGet p₂ 0) :
    stringCmp p₁ p₂ (j + 1) 1 (p₂.len - 1) = 0 ↔ OccursAt p₂.units p₁.units j := by
  rw [stringCmp_eq_zero, occursAt_iff hj]
  constructor
  · intro h k hk
    cases k with
    | zero => exact hget
    | succ k =>
      have hk' := h k (by omega)
      rwa [Nat.add_assoc, Nat.add_comm 1 k] at hk'
  · intro h k hk
    have hk' := h (k + 1) (by omega)
    rwa [← Nat.add_assoc, Nat.add_right_comm, Nat.add_comm k 1] at hk'

/-- Where the string stands, its first character stands. -/
theorem stringGet_of_occursAt (hlen : 0 < p₂.len) (h : OccursAt p₂.units p₁.units j) :
    j + p₂.len ≤ p₁.len ∧ stringGet p₁ j = stringGet p₂ 0 := by
  have hle := h.length_le (ne_nil_of_pos hlen)
  exact ⟨hle, (occursAt_iff hle).mp h 0 hlen⟩

theorem stringIndexofLoop_finds (hlen : 0 < p₂.len) (start : ℕ) :
    Finds p₁ p₂ start (stringIndexofLoop p₁ p₂ (stringGet p₂ 0) start) := by
  fun_induction stringIndexofLoop p₁ p₂ (stringGet p₂ 0) start with
  | case1 i hi hnone =>
    refine ⟨nofun, fun _ k hk hoccurs => ?_⟩
    obtain ⟨hle, hget⟩ := stringGet_of_occursAt hlen hoccurs
    exact stringIndexofChar_none hnone hk (by omega) hget
  | case2 i hi j hsome hlong =>
    refine ⟨nofun, fun _ k hk hoccurs => ?_⟩
    obtain ⟨hle, hget⟩ := stringGet_of_occursAt hlen hoccurs
    exact (stringIndexofChar_some hsome).2.2.2 k hk (by omega) hget
  | case3 i hi j hsome hlong hcmp =>
    obtain ⟨hij, -, hget, hleast⟩ := stringIndexofChar_some hsome
    refine ⟨fun e he => ?_, nofun⟩
    obtain rfl := Option.some.inj he
    refine ⟨hij, (stringCmp_rest hlen (by omega) hget).mp hcmp, fun k hk hkj hoccurs => ?_⟩
    exact hleast k hk hkj (stringGet_of_occursAt hlen hoccurs).2
  | case4 i hi j hsome hlong hcmp ih =>
    obtain ⟨hij, -, hget, hleast⟩ := stringIndexofChar_some hsome
    have hnot : ∀ k, i ≤ k → k < j + 1 → ¬OccursAt p₂.units p₁.units k := by
      intro k hk hkj hoccurs
      rcases Nat.eq_or_lt_of_le (Nat.le_of_lt_succ hkj) with rfl | hlt
      · exact hcmp ((stringCmp_rest hlen (by omega) hget).mpr hoccurs)
      · exact hleast k hk hlt (stringGet_of_occursAt hlen hoccurs).2
    refine ⟨fun e he => ?_, fun hnone k hk hoccurs => ?_⟩
    · have hfirst := ih.first e he
      refine ⟨by have := hfirst.le; omega, hfirst.occurs, fun k hk hke => ?_⟩
      rcases Nat.lt_or_ge k (j + 1) with hlt | hge
      · exact hnot k hk hlt
      · exact hfirst.least k hge hke
    · rcases Nat.lt_or_ge k (j + 1) with hlt | hge
      · exact hnot k hk hlt hoccurs
      · exact ih.absent hnone k hge hoccurs
  | case5 i hi =>
    refine ⟨nofun, fun _ k hk hoccurs => ?_⟩
    have hle := (stringGet_of_occursAt hlen hoccurs).1
    omega

/-- **`string_indexof` finds the least position.** -/
theorem stringIndexof_finds (p₁ p₂ : Chars) (start : ℕ) : Finds p₁ p₂ start (stringIndexof p₁ p₂ start) := by
  unfold stringIndexof
  split
  · rename_i hzero
    have hnil : p₂.units = [] := List.eq_nil_of_length_eq_zero hzero
    refine ⟨fun j hj => ?_, nofun⟩
    obtain rfl := Option.some.inj hj
    refine ⟨Nat.le_refl _, ?_, fun k hk hkj => by omega⟩
    rw [hnil]
    exact occursAt_nil _ _
  · exact stringIndexofLoop_finds (Nat.pos_of_ne_zero ‹_›) start

/-- `string_advance_index`, with the step of `string_getc`. -/
def stringAdvanceIndex (p : Chars) (index : ℕ) (unicode : Bool) : ℕ :=
  match p with
  | .str8 _ => index + 1
  | .str16 s =>
    if !unicode || s.length ≤ index then index + 1
    else
      let c := (s.getD index 0).toNat
      let c1 := (s.getD (index + 1) 0).toNat
      if 0xd800 ≤ c ∧ c < 0xdc00 ∧ index + 1 < s.length ∧ 0xdc00 ≤ c1 ∧ c1 < 0xe000 then index + 2 else index + 1

end QuickJs.JSString
