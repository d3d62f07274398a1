import QuickJs.AtomIntern
import QuickJs.Decimal
import QuickJs.Run

/-!
# Interning over whole runs

A program creates strings, duplicates and releases values and atoms, interns
strings and concatenates them, in any order. As long as no concatenation appends
to a string that is registered as an atom, interning is canonical in every state
it reaches.
-/

namespace QuickJs.Atom

open HashChain JSRuntime Run

/-! ## Numeric strings -/

theorem foldl_numStep_none (cs : List ℕ) : cs.foldl numStep none = none := by
  induction cs with
  | nil => rfl
  | cons c cs ih => exact ih

/-- The loop of `is_num_string` appends digits. -/
theorem foldl_numStep {cs : List ℕ} : ∀ {n m : ℕ}, 0 < n → n < 2 ^ 32 →
    cs.foldl numStep (some n) = some m → m < 2 ^ 32 ∧ decimal m = decimal n ++ cs := by
  induction cs with
  | nil =>
    intro n m _ hlt h
    obtain rfl := Option.some.inj h
    exact ⟨hlt, (List.append_nil _).symm⟩
  | cons c cs ih =>
    intro n m hn hlt h
    rw [List.foldl_cons] at h
    by_cases hc : isNum c && n * 10 + (c - 48) < 2 ^ 32
    · have hstep : numStep (some n) c = some (n * 10 + (c - 48)) := by
        rw [numStep, Option.bind_some, if_pos hc]
      rw [hstep] at h
      simp only [isNum, Bool.and_eq_true, decide_eq_true_eq] at hc
      obtain ⟨hmlt, hm⟩ := ih (by omega) hc.2 h
      refine ⟨hmlt, ?_⟩
      have hc48 : c - 48 + 48 = c := by omega
      rw [hm, decimal_snoc hn (by omega), hc48, List.append_assoc]
      rfl
    · have hstep : numStep (some n) c = none := by rw [numStep, Option.bind_some, if_neg hc]
      rw [hstep, foldl_numStep_none] at h
      cases h

/-- The loop of `is_num_string` reads the text of a number. -/
theorem foldl_decimal (n : ℕ) : 0 < n → n < 2 ^ 32 → ∃ c cs, decimal n = c :: cs ∧ c ≠ 48 ∧
    isNum c ∧ cs.foldl numStep (some (c - 48)) = some n := by
  induction n using Nat.strong_induction_on with
  | _ n ih =>
    intro hn hlt
    by_cases h : n < 10
    · exact ⟨n + 48, [], decimal_of_lt h, by omega, by simp [isNum]; omega, by simp⟩
    · obtain ⟨c, cs, hdec, hc, hnum, hfold⟩ := ih (n / 10) (by omega) (by omega) (by omega)
      have hsplit : n / 10 * 10 + n % 10 = n := by omega
      have hsnoc := decimal_snoc (n := n / 10) (d := n % 10) (by omega) (by omega)
      rw [hsplit, hdec] at hsnoc
      refine ⟨c, cs ++ [n % 10 + 48], hsnoc, hc, hnum, ?_⟩
      rw [List.foldl_append, hfold, List.foldl_cons, List.foldl_nil, numStep, Option.bind_some,
        if_pos, Nat.add_sub_cancel, hsplit]
      simp only [isNum, Bool.and_eq_true, decide_eq_true_eq]
      omega

variable {n a : ℕ} {str : JSString} {alloc : Alloc} {w : World}

theorem length_decimal_le (h : n < 2 ^ 32) : (decimal n).length ≤ 10 := by
  unfold decimal
  split
  · simp
  · rw [List.length_map, List.length_reverse, Nat.digits_length_le_iff (by omega)]
    omega

/-- `is_num_string` accepts the decimal texts of the 32-bit numbers. -/
theorem isNumString_eq_some {chars : List ℕ} :
    isNumString chars = some n ↔ n < 2 ^ 32 ∧ chars = decimal n := by
  constructor
  · intro h
    cases chars with
    | nil => cases h
    | cons c cs =>
      unfold isNumString at h
      dsimp only at h
      split at h
      · cases h
      split at h
      · split at h
        · split at h
          · obtain rfl := Option.some.inj h
            subst_vars
            exact ⟨by omega, rfl⟩
          · cases h
        · rename_i hnum hc
          simp only [isNum, Bool.and_eq_true, decide_eq_true_eq] at hnum
          obtain ⟨hlt, hdec⟩ := foldl_numStep (by omega) (by omega) h
          refine ⟨hlt, ?_⟩
          have hc48 : c - 48 + 48 = c := by omega
          rw [hdec, decimal_of_lt (by omega), hc48]
          rfl
      · cases h
  · rintro ⟨hlt, rfl⟩
    rcases Nat.eq_zero_or_pos n with rfl | hn
    · rfl
    · obtain ⟨c, cs, hdec, hc, hnum, hfold⟩ := foldl_decimal n hn hlt
      have hlen := length_decimal_le hlt
      rw [hdec] at hlen ⊢
      unfold isNumString
      dsimp only
      rw [if_neg (Nat.not_lt.mpr hlen), if_pos hnum, if_neg hc, hfold]

/-! ## Programs -/

/-- The runtime and the references the program holds: values, and atoms that are
counted. -/
structure World where
  rt : JSRuntime
  values : Ptr → ℕ
  atoms : ℕ → ℕ

/-- The runtime before `JS_InitAtoms`, which interns the predefined names in
order. -/
def World.empty : World where
  rt := {
    mem := fun _ => none
    atomArray := fun _ => .free 0
    atomSize := 0
    atomFreeIndex := 0
    atomHash := fun _ => 0
    atomHashSize := 256
    atomCount := 0
    atomCountResize := 256 * 2 }
  values := fun _ => 0
  atoms := fun _ => 0

/-- What a program does to strings and atoms. Addresses of new strings are the
choice of the allocator. -/
inductive Op where
  /-- a new string value -/
  | newString (p : Ptr) (chars : List ℕ) (isWideChar : Bool)
  /-- `JS_DupValue` -/
  | dupValue (p : Ptr)
  /-- `JS_FreeValue` -/
  | freeValue (p : Ptr)
  /-- `__JS_NewAtom` -/
  | newAtom (p : Ptr) (kind : AtomKind) (alloc : Alloc)
  /-- `__JS_NewAtom` without a string -/
  | newAtomNull (kind : AtomKind) (alloc : Alloc)
  /-- `JS_NewAtomStr` -/
  | newAtomStr (p : Ptr) (alloc : Alloc)
  /-- `JS_AtomToValue` -/
  | atomToValue (i : ℕ)
  /-- `JS_DupAtom` -/
  | dupAtom (i : ℕ)
  /-- `JS_FreeAtom` -/
  | freeAtom (i : ℕ)
  /-- `JS_ResizeAtomHash` -/
  | resizeAtomHash (newSize : ℕ)
  /-- `JS_ConcatString` -/
  | concat (p1 p2 : Ptr) (room : Bool) (q : Option Ptr)

/-- One reference to `a` less. -/
def drop (f : ℕ → ℕ) (a b : ℕ) : ℕ := if b = a then f b - 1 else f b

theorem bump_drop {f : ℕ → ℕ} (h : 0 < f a) : bump (drop f a) a = f := by
  funext b
  unfold bump drop
  split
  · subst b
    omega
  · rfl

/-- Does the program hold the atom? Nobody counts the constant ones. -/
def holds (predefined : ℕ) (w : World) (i : ℕ) : Bool := jsAtomIsConst predefined i || 0 < w.atoms i

/-- The effect of an operation, if the program holds the references it consumes. -/
def step (predefined : ℕ) (w : World) : Op → Option World
  | .newString p chars wide =>
    if w.rt.mem p = none then
      some ⟨w.rt.setMem p (some (.alloc chars wide)), bump w.values p, w.atoms⟩
    else none
  | .dupValue p =>
    if 0 < w.values p then some ⟨w.rt.incRef p, bump w.values p, w.atoms⟩ else none
  | .freeValue p =>
    if 0 < w.values p then some ⟨jsFreeString w.rt p, drop w.values p, w.atoms⟩ else none
  | .newAtom p kind alloc =>
    if 0 < w.values p ∧ alloc.Fresh w.rt then
      let r := newAtom predefined w.rt p kind alloc
      some ⟨r.1, drop w.values p, gain predefined w.atoms r.2⟩
    else none
  | .newAtomNull kind alloc =>
    if alloc.Fresh w.rt then
      let r := newAtomNull w.rt kind alloc
      some ⟨r.1, w.values, gain predefined w.atoms r.2⟩
    else none
  | .newAtomStr p alloc =>
    if 0 < w.values p ∧ alloc.Fresh w.rt then
      let r := jsNewAtomStr predefined w.rt p alloc
      some ⟨r.1, drop w.values p, gain predefined w.atoms r.2⟩
    else none
  | .atomToValue i =>
    match w.rt.atomArray i with
    | .used p =>
      if holds predefined w i then some ⟨w.rt.incRef p, bump w.values p, w.atoms⟩ else none
    | _ => none
  | .dupAtom i =>
    if holds predefined w i then
      some ⟨jsDupAtom predefined w.rt i, w.values, gain predefined w.atoms i⟩
    else none
  | .freeAtom i =>
    if holds predefined w i then
      some ⟨jsFreeAtom predefined w.rt i, w.values,
        if jsAtomIsConst predefined i then w.atoms else drop w.atoms i⟩
    else none
  | .resizeAtomHash newSize =>
    if 0 < newSize then some ⟨jsResizeAtomHash w.rt newSize, w.values, w.atoms⟩ else none
  | .concat p1 p2 room q =>
    if 0 < w.values p1 ∧ 0 < drop w.values p1 p2 ∧ ∀ r ∈ q, w.rt.mem r = none then
      let r := jsConcatString w.rt p1 p2 room q
      let values := drop (drop w.values p1) p2
      some ⟨r.1, r.2.elim values (bump values), w.atoms⟩
    else none

/-- The operations that leave interning canonical: no concatenation appends to a
registered string, and no numeric string that `JS_NewAtomStr` turns into a tagged
integer is passed to `__JS_NewAtom` directly. -/
def Safe (w : World) : Op → Prop
  | .concat p1 p2 room _ => concatInPlace w.rt p1 p2 room →
      ∀ str, w.rt.mem p1 = some str → str.atomType = .none
  | .newAtom p .string _ => ∀ str, w.rt.mem p = some str →
      ∀ n, isNumString str.chars = some n → jsAtomMaxInt < n
  | _ => True

/-- The invariant of a run. -/
structure Inv (predefined : ℕ) (w : World) : Prop where
  table : Table w.rt
  counted : Counted predefined w.rt w.values w.atoms

/-! ## What each operation does -/

section

variable {predefined : ℕ} {s s' : JSRuntime} {values : Ptr → ℕ} {atoms : ℕ → ℕ} {p : Ptr}

/-- The characters of a live string atom: of a tagged integer, or of a registered
string. -/
def stringAtom (s : JSRuntime) (a : ℕ) : Option (List ℕ) :=
  if jsAtomTagInt ≤ a then
    if a < jsAtomTagInt * 2 then some (decimal (a - jsAtomTagInt)) else none
  else (s.atom a).bind fun str => if str.atomType = .string then some str.chars else none

/-- **Canonicity**: string atoms are equal exactly when their characters are. -/
theorem Table.stringAtom_inj (ht : Table s) {b : ℕ} {ca cb : List ℕ}
    (ha : stringAtom s a = some ca) (hb : stringAtom s b = some cb) : a = b ↔ ca = cb := by
  refine ⟨fun h => ?_, fun h => ?_⟩
  · subst h
    exact Option.some.inj (ha.symm.trans hb)
  subst h
  -- a registered string is not the text of a tagged integer
  have hmixed : ∀ {x y : ℕ}, jsAtomTagInt ≤ x → x < jsAtomTagInt * 2 →
      ca = decimal (x - jsAtomTagInt) → ∀ str, s.atom y = some str → str.atomType = .string →
      str.chars = ca → False := by
    intro x y hx hlt hca str hstr htype hchars
    have hnum := ht.numeric y str hstr htype (x - jsAtomTagInt)
      (isNumString_eq_some.mpr ⟨by unfold jsAtomTagInt at *; omega, hchars.trans hca⟩)
    unfold jsAtomMaxInt at hnum
    omega
  have hreg : ∀ {x : ℕ}, ((s.atom x).bind fun str =>
      if str.atomType = .string then some str.chars else none) = some ca →
      ∃ str, s.atom x = some str ∧ str.atomType = .string ∧ str.chars = ca := by
    intro x hx
    obtain ⟨str, hstr, hx⟩ := Option.bind_eq_some_iff.mp hx
    split at hx
    · exact ⟨str, hstr, ‹_›, Option.some.inj hx⟩
    · cases hx
  unfold stringAtom at ha hb
  split at ha <;> split at hb
  · split at ha
    · split at hb
      · have hd := decimal_injective ((Option.some.inj ha).trans (Option.some.inj hb).symm)
        omega
      · cases hb
    · cases ha
  · split at ha
    · obtain ⟨str, hstr, htype, hchars⟩ := hreg hb
      exact (hmixed ‹_› ‹_› (Option.some.inj ha).symm str hstr htype hchars).elim
    · cases ha
  · split at hb
    · obtain ⟨str, hstr, htype, hchars⟩ := hreg ha
      exact (hmixed ‹_› ‹_› (Option.some.inj hb).symm str hstr htype hchars).elim
    · cases hb
  · obtain ⟨stra, hstra, htypea, hca⟩ := hreg ha
    obtain ⟨strb, hstrb, htypeb, hcb⟩ := hreg hb
    exact ht.canonical a b stra strb hstra hstrb (by rw [htypea]; rfl)
      (htypea.trans htypeb.symm) (hca.trans hcb.symm)

theorem stringAtom_of_atom (ht : Table s) {i : ℕ} (hi : s.atom i = some str)
    (htype : str.atomType = .string) : stringAtom s i = some str.chars := by
  have hlt := (ht.atom_lt hi).2
  have hmax := ht.sizeMax
  unfold stringAtom
  rw [if_neg (by unfold jsAtomTagInt jsAtomMax at *; omega), hi, Option.bind_some, if_pos htype]

/-- What `JS_NewAtomStr` does with a string of these characters. -/
structure InternsStr (predefined : ℕ) (new : Ptr → Prop) (s : JSRuntime) (chars : List ℕ)
    (values : Ptr → ℕ) (atoms : ℕ → ℕ) (r : JSRuntime × ℕ) : Prop where
  table : Table r.1
  counted : Counted predefined r.1 values (gain predefined atoms r.2)
  atom : r.2 ≠ 0 → stringAtom r.1 r.2 = some chars
  old : Old new s r.1

theorem jsNewAtomStr_spec (ht : Table s)
    (hp : s.mem p = some str) (hfresh : alloc.Fresh s)
    (hc : Counted predefined s (bump values p) atoms) :
    InternsStr predefined (fun q => alloc.copy = some q) s str.chars values atoms
      (jsNewAtomStr predefined s p alloc) := by
  have hnew : (∀ n, isNumString str.chars = some n → jsAtomMaxInt < n) →
      InternsStr predefined (fun q => alloc.copy = some q) s str.chars values atoms
        (newAtom predefined s p .string alloc) := by
    intro hnum
    have h := newAtom_spec .string ht hp hfresh (fun _ => hnum) hc
    refine ⟨h.table, h.counted, fun h0 => ?_, h.old⟩
    obtain ⟨a, ha, hchars, htype⟩ := h.atom h0
    rw [← hchars]
    exact stringAtom_of_atom h.table ha htype
  unfold jsNewAtomStr
  rw [hp, Option.bind_some]
  cases hnum : isNumString str.chars with
  | none => exact hnew fun n hn => by rw [hnum] at hn; cases hn
  | some n =>
    by_cases hn : n ≤ jsAtomMaxInt
    · -- a tagged integer
      simp only [if_pos hn]
      have hd := jsFreeString_spec ht hc.pending hp
      have hconst : jsAtomIsConst predefined (n + jsAtomTagInt) := by
        simp [jsAtomIsConst]
      refine ⟨hd.table, ?_, fun _ => ?_, hd.shrinks.old⟩
      · rw [gain, if_pos hconst]
        exact hd.counted
      · have hlt : n + jsAtomTagInt < jsAtomTagInt * 2 := by
          unfold jsAtomMaxInt at hn
          omega
        rw [stringAtom, if_pos (Nat.le_add_left ..), if_pos hlt, Nat.add_sub_cancel,
          (isNumString_eq_some.mp hnum).2]
    · simp only [if_neg hn]
      refine hnew fun m hm => ?_
      rw [hnum] at hm
      obtain rfl := Option.some.inj hm
      exact Nat.not_le.mp hn

theorem incRef_counted (hp : s.mem p = some str) (hc : Counted predefined s values atoms) :
    Counted predefined (s.incRef p) (bump values p) atoms := by
  have hmem : ∀ {r a}, (s.incRef p).mem r = some a →
      (r = p ∧ a = { str with refCount := str.refCount + 1 }) ∨ (r ≠ p ∧ s.mem r = some a) := by
    intro r a hr
    by_cases hrp : r = p
    · subst hrp
      simp only [incRef, JSRuntime.modify, Function.update_self, hp, Option.map_some, Option.some.injEq] at hr
      exact .inl ⟨rfl, hr.symm⟩
    · simp only [incRef, JSRuntime.modify, Function.update_of_ne hrp] at hr
      exact .inr ⟨hrp, hr⟩
  refine ⟨fun r a hr ha => ?_, fun j r a hj hr => ?_, fun r a hr => ?_, fun r hr => ?_, hc.held⟩
  · rcases hmem hr with ⟨rfl, rfl⟩ | ⟨hrp, hr⟩
    · have hcount := hc.plain r str hp ha
      rw [bump_self]
      simp only
      omega
    · rw [bump_of_ne _ hrp]
      exact hc.plain r a hr ha
  · rcases hmem hr with ⟨rfl, rfl⟩ | ⟨hrp, hr⟩
    · have hcount := hc.atom j r str hj hp
      rw [bump_self]
      simp only
      omega
    · rw [bump_of_ne _ hrp]
      exact hc.atom j r a hj hr
  · rcases hmem hr with ⟨-, rfl⟩ | ⟨-, hr⟩
    · exact Nat.succ_pos _
    · exact hc.positive r a hr
  · by_cases hrp : r = p
    · exact ⟨{ str with refCount := str.refCount + 1 }, by simp [incRef, JSRuntime.modify, hrp, hp]⟩
    · rw [bump_of_ne _ hrp] at hr
      obtain ⟨a, ha⟩ := hc.value r hr
      exact ⟨a, by simp [incRef, JSRuntime.modify, hrp, ha]⟩

theorem newAtomNull_spec (kind : AtomKind) (ht : Table s) (hfresh : alloc.Fresh s)
    (hc : Counted predefined s values atoms) :
    Interns predefined (fun q => alloc.copy = some q) s .symbol [] values atoms
      (newAtomNull s kind alloc) := by
  unfold newAtomNull
  cases hg : growAtomArray s alloc with
  | none => exact .fail ht hc (Old.refl s)
  | some s₁ =>
    have hgrown := growAtomArray_spec ht hg
    cases hcopy : alloc.copy with
    | none => exact .fail hgrown.table (hgrown.counted hc) hgrown.old
    | some q =>
      have hq₁ : s₁.mem q = none := hgrown.mem ▸ hfresh q hcopy
      obtain ⟨ht₂, hc₂⟩ := setMem_fresh [] true hgrown.table
        (hgrown.counted hc) hq₁
      have hq₂ : (s₁.setMem q (some (.alloc [] true))).mem q = some (.alloc [] true) :=
        Function.update_self ..
      have hreg := registerAtom_spec (N := fun r => some q = some r) (t := .symbol)
        (h := if kind = .priv then 1 else 0) alloc ht₂ hgrown.room hq₂ rfl
        ⟨by simp, nofun, nofun, nofun⟩ hc₂
      exact hreg.of_old (hgrown.old.trans (setMem_old rfl))

/-- The strings of `s` that are atoms keep their characters. -/
def KeepsAtoms (s s' : JSRuntime) : Prop :=
  ∀ q a b, s.mem q = some a → a.atomType ≠ .none → s'.mem q = some b → b.chars = a.chars

theorem Old.keepsAtoms {new : Ptr → Prop} (h : Old new s s') (hnew : ∀ q, new q → s.mem q = none) :
    KeepsAtoms s s' := by
  intro q a b ha _ hb
  rcases h q b hb with hn | ⟨a', ha', hchars⟩
  · rw [hnew q hn] at ha
    cases ha
  · obtain rfl := Option.some.inj (ha.symm.trans ha')
    exact hchars

/-- `JS_ConcatString`, when it does not append to an atom. -/
theorem jsConcatString_spec {p1 p2 : Ptr} {room : Bool} {q : Option Ptr} (ht : Table s)
    (hc : Counted predefined s (bump (bump values p2) p1) atoms)
    (hfresh : ∀ r ∈ q, s.mem r = none)
    (hsafe : concatInPlace s p1 p2 room → ∀ str, s.mem p1 = some str → str.atomType = .none) :
    Table (jsConcatString s p1 p2 room q).1 ∧ Counted predefined (jsConcatString s p1 p2 room q).1
        ((jsConcatString s p1 p2 room q).2.elim values (bump values)) atoms ∧
      KeepsAtoms s (jsConcatString s p1 p2 room q).1 := by
  obtain ⟨s1, hs1⟩ := hc.value p1 (by rw [bump_self]; omega)
  obtain ⟨s2, hs2⟩ := hc.value p2 (Nat.lt_of_lt_of_le (by rw [bump_self]; omega) (le_bump _ p1 p2))
  have hc' := hc
  rw [bump_comm] at hc'
  have hnone : ∀ q, (fun _ : Ptr => False) q → s.mem q = none := fun _ h => h.elim
  unfold jsConcatString
  simp only [hs1, hs2]
  by_cases hempty : s2.chars = []
  · -- the first string is the result
    rw [if_pos hempty]
    have hd := jsFreeString_spec ht hc'.pending hs2
    exact ⟨hd.table, hd.counted, (hd.shrinks.old).keepsAtoms hnone⟩
  rw [if_neg hempty]
  by_cases hplace : concatInPlace s p1 p2 room
  · -- the characters are appended to a string that is no atom
    rw [if_pos hplace]
    have htype := hsafe hplace s1 hs1
    have hrc : s1.refCount = 1 := by
      simp only [concatInPlace, hs1, hs2, Bool.and_eq_true, decide_eq_true_eq] at hplace
      exact hplace.1.1.2
    have hne : p1 ≠ p2 := by
      rintro rfl
      have hcount := hc.plain p1 s1 hs1 htype
      rw [bump_self, bump_self] at hcount
      omega
    have hsame : SameAtoms s (s.modify p1 fun str => { str with chars := str.chars ++ s2.chars }) :=
      sameAtoms_modify (fun _ _ h => h) fun str hstr hstrt => by
        obtain rfl := Option.some.inj (hs1.symm.trans hstr)
        exact absurd htype hstrt
    have ht₁ := ht.of_sameAtoms hsame
    have hc₁ : Counted predefined (s.modify p1 fun str =>
        { str with chars := str.chars ++ s2.chars }) (bump (bump values p1) p2) atoms := by
      refine hc'.congr (fun _ _ => Iff.rfl) fun r => ?_
      by_cases hr : r = p1
      · subst hr
        simp [JSRuntime.modify, hs1]
      · simp [JSRuntime.modify, hr]
    have hs2' : (s.modify p1 fun str => { str with chars := str.chars ++ s2.chars }).mem p2 = some s2 := by
      rw [← hs2]
      exact Function.update_of_ne (Ne.symm hne) ..
    have hd := jsFreeString_spec ht₁ hc₁.pending hs2'
    refine ⟨hd.table, hd.counted, fun r a b ha hat hb => ?_⟩
    obtain ⟨b', hb', hchars, -⟩ := hd.shrinks.mem r b hb
    obtain ⟨a', ha', -, hcore⟩ := hsame.symm.mem_back ha hat
    obtain rfl := Option.some.inj (hb'.symm.trans ha')
    exact hchars.trans (chars_of_core hcore)
  rw [if_neg hplace]
  cases hq : (if jsStringLenMax < (s1.chars ++ s2.chars).length then none else q) with
  | none =>
    -- an exception
    have hd := jsFreeString_spec ht hc.pending hs1
    obtain ⟨s2', hs2'⟩ := hd.counted.value p2 (by rw [bump_self]; omega)
    have hd' := jsFreeString_spec hd.table hd.counted.pending hs2'
    exact ⟨hd'.table, hd'.counted, (hd.shrinks.old.trans hd'.shrinks.old).keepsAtoms hnone⟩
  | some r =>
    -- a new string
    have hr : s.mem r = none := by
      split at hq
      · cases hq
      · exact hfresh r hq
    obtain ⟨ht₁, hc₁⟩ := setMem_fresh (s1.chars ++ s2.chars)
      (s1.isWideChar || s2.isWideChar) ht hc hr
    have hold : Old (· = r) s
        (s.setMem r (some (.alloc (s1.chars ++ s2.chars) (s1.isWideChar || s2.isWideChar)))) :=
      setMem_old rfl
    rw [bump_comm (bump values p2) p1 r, bump_comm values p2 r] at hc₁
    obtain ⟨s1', hs1'⟩ := hc₁.value p1 (by rw [bump_self]; omega)
    have hd := jsFreeString_spec ht₁ hc₁.pending hs1'
    obtain ⟨s2', hs2'⟩ := hd.counted.value p2 (by rw [bump_self]; omega)
    have hd' := jsFreeString_spec hd.table hd.counted.pending hs2'
    refine ⟨hd'.table, hd'.counted,
      (hold.trans (hd.shrinks.old.trans hd'.shrinks.old)).keepsAtoms fun x hx => ?_⟩
    obtain rfl : x = r := hx
    exact hr

/-! ## Runs -/

theorem inv_empty : Inv predefined World.empty := by
  have hatom : ∀ i, World.empty.rt.atom i = none := fun _ => rfl
  refine ⟨⟨by decide, by decide, fun b => ⟨[], rfl, List.nodup_nil, fun i => ?_⟩,
    ⟨[], rfl, List.nodup_nil, fun i hi => (by cases hi)⟩, nofun, nofun, nofun, ?_, ?_, ?_, ?_⟩,
    nofun, nofun, nofun, ?_, ?_⟩
  · simp [hatom]
  · intro i str hi
    cases hi
  · intro i str hi
    cases hi
  · intro i j a b hi
    cases hi
  · intro i str hi
    cases hi
  · intro p hp
    exact absurd hp (Nat.lt_irrefl 0)
  · intro i hi
    exact absurd hi (Nat.lt_irrefl 0)

/-- A step of a run keeps the invariant and the characters of the atoms. -/
theorem Inv.step {w' : World} {op : Op} (hi : Inv predefined w) (hsafe : Safe w op)
    (hstep : step predefined w op = some w') : Inv predefined w' ∧ KeepsAtoms w.rt w'.rt := by
  obtain ⟨ht, hc⟩ := hi
  have hkeep : ∀ {s'}, Shrinks w.rt s' → KeepsAtoms w.rt s' := fun hs =>
    (Shrinks.old (N := fun _ => False) hs).keepsAtoms fun _ h => h.elim
  have htake : ∀ {p}, 0 < w.values p →
      Counted predefined w.rt (bump (drop w.values p) p) w.atoms := fun h => by
    rwa [bump_drop h]
  cases op with
  | newString p chars wide =>
    obtain ⟨hp, hstep⟩ := Option.ite_none_right_eq_some.mp hstep
    cases hstep
    obtain ⟨ht', hc'⟩ := setMem_fresh chars wide ht hc hp
    refine ⟨⟨ht', hc'⟩, (setMem_old (N := (· = p)) rfl).keepsAtoms fun q hq => ?_⟩
    obtain rfl : q = p := hq
    exact hp
  | dupValue p =>
    obtain ⟨hp, hstep⟩ := Option.ite_none_right_eq_some.mp hstep
    cases hstep
    obtain ⟨str, hstr⟩ := hc.value p hp
    exact ⟨⟨ht.of_sameAtoms (sameAtoms_incRef p), incRef_counted hstr hc⟩, hkeep (incRef_shrinks p)⟩
  | freeValue p =>
    obtain ⟨hp, hstep⟩ := Option.ite_none_right_eq_some.mp hstep
    cases hstep
    obtain ⟨str, hstr⟩ := hc.value p hp
    have hd := jsFreeString_spec ht (htake hp).pending hstr
    exact ⟨⟨hd.table, hd.counted⟩, hkeep hd.shrinks⟩
  | newAtom p kind alloc =>
    obtain ⟨hp, hstep⟩ := Option.ite_none_right_eq_some.mp hstep
    cases hstep
    obtain ⟨str, hstr⟩ := hc.value p hp.1
    have hnum : kind.type = .string → ∀ n, isNumString str.chars = some n → jsAtomMaxInt < n := by
      intro hk
      cases kind with
      | string => exact hsafe str hstr
      | globalSymbol => cases hk
      | symbol => cases hk
      | priv => cases hk
    have h := newAtom_spec _ ht hstr hp.2 hnum (htake hp.1)
    exact ⟨⟨h.table, h.counted⟩, h.old.keepsAtoms hp.2⟩
  | newAtomNull kind alloc =>
    obtain ⟨hf, hstep⟩ := Option.ite_none_right_eq_some.mp hstep
    cases hstep
    have h := newAtomNull_spec kind ht hf hc
    exact ⟨⟨h.table, h.counted⟩, h.old.keepsAtoms hf⟩
  | newAtomStr p alloc =>
    obtain ⟨hp, hstep⟩ := Option.ite_none_right_eq_some.mp hstep
    cases hstep
    obtain ⟨str, hstr⟩ := hc.value p hp.1
    have h := jsNewAtomStr_spec ht hstr hp.2 (htake hp.1)
    exact ⟨⟨h.table, h.counted⟩, h.old.keepsAtoms hp.2⟩
  | atomToValue i =>
    simp only [Atom.step] at hstep
    split at hstep
    · rename_i p hp
      split at hstep
      · cases hstep
        obtain ⟨-, -, str, hstr, -⟩ := ht.used i p hp
        exact ⟨⟨ht.of_sameAtoms (sameAtoms_incRef p), incRef_counted hstr hc⟩, hkeep (incRef_shrinks p)⟩
      · cases hstep
    · cases hstep
  | dupAtom i =>
    obtain ⟨hh, hstep⟩ := Option.ite_none_right_eq_some.mp hstep
    cases hstep
    by_cases hconst : jsAtomIsConst predefined i
    · simp only [jsDupAtom, gain, if_pos hconst]
      exact ⟨⟨ht, hc⟩, hkeep ⟨fun q str' hq => ⟨str', hq, rfl, rfl⟩, fun _ _ h => h⟩⟩
    · simp only [holds, hconst, Bool.false_or, decide_eq_true_eq] at hh
      obtain ⟨-, q, hq⟩ := hc.held i hh
      obtain ⟨-, -, str, hstr, -⟩ := ht.used i q hq
      obtain ⟨ht', hc', hs, -⟩ := jsDupAtom_spec ht (atom_eq_some.mpr ⟨q, hq, hstr⟩) hc
      exact ⟨⟨ht', hc'⟩, hkeep hs⟩
  | freeAtom i =>
    obtain ⟨hh, hstep⟩ := Option.ite_none_right_eq_some.mp hstep
    cases hstep
    by_cases hconst : jsAtomIsConst predefined i
    · simp only [jsFreeAtom, if_pos hconst]
      exact ⟨⟨ht, hc⟩, hkeep ⟨fun q str' hq => ⟨str', hq, rfl, rfl⟩, fun _ _ h => h⟩⟩
    · simp only [holds, hconst, Bool.false_or, decide_eq_true_eq] at hh
      have hc' : Counted predefined w.rt w.values (bump (drop w.atoms i) i) := by
        rwa [bump_drop hh]
      have hd := jsFreeAtom_spec ht (by simpa using hconst) hc'
      rw [if_neg hconst]
      exact ⟨⟨hd.table, hd.counted⟩, hkeep hd.shrinks⟩
  | resizeAtomHash newSize =>
    obtain ⟨h0, hstep⟩ := Option.ite_none_right_eq_some.mp hstep
    cases hstep
    have hrel := jsResizeAtomHash_relinked ht newSize
    exact ⟨⟨ht.jsResizeAtomHash h0, hc.relinked hrel⟩,
      (hrel.old (N := fun _ => False)).keepsAtoms fun _ h => h.elim⟩
  | concat p1 p2 room q =>
    obtain ⟨hp, hstep⟩ := Option.ite_none_right_eq_some.mp hstep
    cases hstep
    have hc' : Counted predefined w.rt (bump (bump (drop (drop w.values p1) p2) p2) p1) w.atoms := by
      rw [bump_drop hp.2.1, bump_drop hp.1]
      exact hc
    obtain ⟨ht', hc', hk⟩ := jsConcatString_spec ht hc' hp.2.2 hsafe
    exact ⟨⟨ht', hc'⟩, hk⟩

/-- Interning is canonical in the state `w`. -/
structure Interned (predefined : ℕ) (w : World) : Prop where
  /-- equal string atoms are those with equal characters -/
  canonical : ∀ a b ca cb, stringAtom w.rt a = some ca → stringAtom w.rt b = some cb → (a = b ↔ ca = cb)
  /-- a value becomes the only atom with its characters -/
  converts : ∀ p str alloc, 0 < w.values p → w.rt.mem p = some str → alloc.Fresh w.rt →
    (jsNewAtomStr predefined w.rt p alloc).2 ≠ 0 →
    ∀ a, stringAtom (jsNewAtomStr predefined w.rt p alloc).1 a = some str.chars ↔
      a = (jsNewAtomStr predefined w.rt p alloc).2
  /-- no operation changes the characters of an atom -/
  stable : ∀ op w', Safe w op → step predefined w op = some w' → KeepsAtoms w.rt w'.rt

theorem Inv.interned (hi : Inv predefined w) : Interned predefined w := by
  refine ⟨fun a b ca cb ha hb => hi.table.stringAtom_inj ha hb,
    fun p str alloc hp hstr hf h0 a => ?_, fun op w' hs hw => (hi.step hs hw).2⟩
  have hc : Counted predefined w.rt (bump (drop w.values p) p) w.atoms := by
    rw [bump_drop hp]
    exact hi.counted
  have h := jsNewAtomStr_spec hi.table hstr hf hc
  exact ⟨fun ha => (h.table.stringAtom_inj ha (h.atom h0)).mpr rfl, fun ha => ha ▸ h.atom h0⟩

/-- The states a program reaches from the empty runtime by safe operations. -/
abbrev SafeRun (predefined : ℕ) : World → Prop :=
  Reachable (· = World.empty) (step predefined) Safe

theorem SafeRun.inv (h : SafeRun predefined w) : Inv predefined w :=
  h.invariant (fun _ hs => hs ▸ inv_empty) fun _ _ _ hi hs hw => (hi.step hs hw).1

end

/-- **Interning is canonical** in every state of a run whose concatenations never
append to an atom. -/
theorem atoms_interned (predefined : ℕ) (w : World) (h : SafeRun predefined w) :
    Interned predefined w := h.inv.interned

/-! ## Appending to an atom -/

/-- A string that became an atom is appended to while only its value is left. -/
def appendToAtom : List Op :=
  [.newString 9 [110] false, .newAtom 9 .string {},
   .newString 10 [97] false, .dupValue 10, .newAtomStr 10 {}, .freeAtom 2,
   .newString 11 [98] false, .concat 10 11 true none,
   .newString 12 [97, 98] false, .newAtomStr 12 {}]

/-- The string at address 10 still is the atom `2`, under the hash of its old
characters; its new characters are interned once more, as the atom `3`. -/
theorem appendToAtom_not_interned :
    ¬ ∀ predefined w, Reachable (· = World.empty) (step predefined) (fun _ _ => True) w →
      Interned predefined w := by
  intro h
  have hrun : ((exec (step 1) World.empty appendToAtom).map fun w =>
      (stringAtom w.rt 2, stringAtom w.rt 3)) = some (some [97, 98], some [97, 98]) := by decide
  obtain ⟨w, hw, hatoms⟩ := Option.map_eq_some_iff.mp hrun
  have hi := h 1 w (Reachable.exec (fun _ _ => trivial) (.init rfl) hw)
  have h23 := (hi.canonical 2 3 _ _ (Prod.mk.inj hatoms).1 (Prod.mk.inj hatoms).2).mpr rfl
  exact absurd h23 (by decide)

/-- A run that interns one string. -/
theorem atoms_interned_example : ∃ w, SafeRun 1 w ∧ Interned 1 w ∧ stringAtom w.rt 1 = some [97] := by
  have hrun : ((exec (step 1) World.empty [.newString 10 [97] false, .newAtomStr 10 {}]).map
      fun w => stringAtom w.rt 1) = some (some [97]) := by decide
  obtain ⟨w, hw, hatom⟩ := Option.map_eq_some_iff.mp hrun
  obtain ⟨w₁, hw₁, hw⟩ := Option.bind_eq_some_iff.mp hw
  obtain ⟨w₂, hw₂, hw⟩ := Option.bind_eq_some_iff.mp hw
  obtain rfl := Option.some.inj hw
  have hr₁ : SafeRun 1 w₁ :=
    .step (.init rfl) (show Safe World.empty (.newString 10 [97] false) from trivial) hw₁
  have hr : SafeRun 1 w₂ := .step hr₁ (show Safe w₁ (.newAtomStr 10 {}) from trivial) hw₂
  exact ⟨w₂, hr, atoms_interned 1 w₂ hr, hatom⟩

end QuickJs.Atom
