import QuickJs.AtomRun
import QuickJs.NewString

/-!
# Atoms from UTF-8

`JS_NewAtomLen` first looks for an atom with the bytes it was given, and only decodes them when
there is none. The look-up compares the bytes with the characters of narrow atoms, which are not
UTF-8 but Latin-1. It is therefore right exactly when no narrow atom happens to be spelled with the
bytes of another text.
-/

namespace QuickJs.Atom

open HashChain JSRuntime NewString Run

/-- The bytes of a buffer, as the decoder reads them. -/
def utf8 (bytes : List UInt8) : List Char := bytes.map fun b => Utf8.byte b.toNat

/-- The bytes of a buffer, as 8-bit characters. -/
def latin1 (bytes : List UInt8) : List ℕ := bytes.map UInt8.toNat

/-- What the allocator answers during a call of `JS_NewAtomLen`: the address of the new string, and
what `__JS_NewAtom` gets. -/
structure AllocLen where
  string : Option Ptr := none
  atom : Alloc := {}

/-- Is this an address that the allocator hands out? -/
def AllocLen.New (alloc : AllocLen) (q : Ptr) : Prop :=
  alloc.string = some q ∨ alloc.atom.copy = some q

/-- The addresses are unused, and they differ. -/
structure AllocLen.Fresh (alloc : AllocLen) (s : JSRuntime) : Prop where
  new : ∀ q, alloc.New q → s.mem q = none
  ne : ∀ q, alloc.string = some q → alloc.atom.copy ≠ some q

/-- The search of `__JS_FindAtom`. -/
def findAtom8 (s : JSRuntime) (str : List ℕ) : ℕ :=
  let h := hashString str AtomType.string.seed &&& jsAtomHashMask
  findFrom s.hashNextOf
    (fun i => (s.atom i).any fun p => p.hash = h && p.atomType = .string &&
      p.chars.length = str.length && !p.isWideChar && p.chars = str)
    s.atomSize (s.atomHash (s.bucket h))

/-- `__JS_FindAtom`. The atom it returns gets a reference unless it is constant, as `JS_ATOM_NULL`
is. -/
def jsFindAtom (predefined : ℕ) (s : JSRuntime) (str : List ℕ) : JSRuntime × ℕ :=
  let i := findAtom8 s str
  (jsDupAtom predefined s i, i)

/-- `JS_NewStringLen`. An empty text is the string of `JS_ATOM_empty_string`; `q` is the address of
another text, if its string can be allocated. Without one the result is an exception. -/
def jsNewStringLen (emptyString : ℕ) (s : JSRuntime) (bytes : List UInt8) (q : Option Ptr) :
    JSRuntime × Option Ptr :=
  let chars := decode (utf8 bytes)
  if jsStringLenMax < (bytes.takeWhile (· < 128)).length then (s, none)
  else if chars = [] then
    match s.atomArray emptyString with
    | .used p => (s.incRef p, some p)
    | _ => (s, none)
  else match q with
    | none => (s, none)
    -- the buffer is widened by the first code unit that needs it
    | some q => (s.setMem q (some (.alloc chars (chars.any (0x100 ≤ ·)))), some q)

/-- A string is made of the bytes and converted: the second half of `JS_NewAtomLen`. -/
def jsNewAtomDecoded (predefined emptyString : ℕ) (s : JSRuntime) (bytes : List UInt8)
    (alloc : AllocLen) : JSRuntime × ℕ :=
  match jsNewStringLen emptyString s bytes alloc.string with
  | (s, none) => (s, 0)
  | (s, some p) => jsNewAtomStr predefined s p alloc.atom

/-- Does `JS_NewAtomLen` look for the bytes? Numbers have no registered atoms. -/
def looksUp : List UInt8 → Bool
  | [] => true
  | c :: _ => !isNum c.toNat

/-- `JS_NewAtomLen`. -/
def jsNewAtomLen (predefined emptyString : ℕ) (s : JSRuntime) (bytes : List UInt8)
    (alloc : AllocLen) : JSRuntime × ℕ :=
  if looksUp bytes then
    let r := jsFindAtom predefined s (latin1 bytes)
    if r.2 ≠ 0 then r else jsNewAtomDecoded predefined emptyString s bytes alloc
  else jsNewAtomDecoded predefined emptyString s bytes alloc

/-- The runtime once `JS_InitAtoms` has registered `JS_ATOM_empty_string`. -/
structure Ready (predefined emptyString : ℕ) (w : World) : Prop where
  inv : Inv predefined w
  empty : stringAtom w.rt emptyString = some []

/-- Some narrow atom is spelled with the bytes of a text that is not ASCII. -/
def Misspelled (s : JSRuntime) (bytes : List UInt8) : Prop :=
  looksUp bytes ∧ (∃ b ∈ bytes, 128 ≤ b) ∧
    ∃ i a, s.atom i = some a ∧ a.atomType = .string ∧ a.isWideChar = false ∧ a.chars = latin1 bytes

/-- The atom that `JS_NewAtomLen` returns has the decoded bytes for its text, and is the one that
the string of the bytes is converted to. -/
structure Exact (predefined emptyString : ℕ) (s : JSRuntime) (bytes : List UInt8)
    (alloc : AllocLen) : Prop where
  text : (jsNewAtomLen predefined emptyString s bytes alloc).2 ≠ 0 →
    stringAtom (jsNewAtomLen predefined emptyString s bytes alloc).1
      (jsNewAtomLen predefined emptyString s bytes alloc).2 = some (decode (utf8 bytes))
  same : (jsNewAtomDecoded predefined emptyString s bytes alloc).2 ≠ 0 →
    (jsNewAtomLen predefined emptyString s bytes alloc).2 =
      (jsNewAtomDecoded predefined emptyString s bytes alloc).2

variable {predefined emptyString : ℕ} {s : JSRuntime} {values : Ptr → ℕ} {atoms : ℕ → ℕ}
  {bytes : List UInt8} {alloc : AllocLen}

/-! ## Bytes -/

theorem map_toNat_utf8 (bytes : List UInt8) : (utf8 bytes).map Char.toNat = latin1 bytes := by
  rw [utf8, List.map_map]
  refine List.map_congr_left fun b _ => ?_
  exact Utf8.toNat_byte b.toNat_lt

/-- The bytes are the text exactly when they are ASCII. -/
theorem decode_utf8_eq_iff : decode (utf8 bytes) = latin1 bytes ↔ ¬∃ b ∈ bytes, 128 ≤ b := by
  have hbyte : ∀ b : UInt8, (Utf8.byte b.toNat).toNat = b.toNat := fun b => Utf8.toNat_byte b.toNat_lt
  rw [← map_toNat_utf8, decode_eq_bytes_iff]
  · simp only [utf8, List.forall_mem_map, hbyte, not_exists, not_and, UInt8.not_le]
    rfl
  · simp only [utf8, List.forall_mem_map, hbyte]
    exact fun b _ => b.toNat_lt

variable {str : List ℕ} {i : ℕ} {s' : JSRuntime}

/-! ## The look-up -/

/-- What `__JS_FindAtom` finds is a narrow atom of the bytes. -/
theorem atom_findAtom8 (ht : Table s) (h0 : findAtom8 s str ≠ 0) :
    ∃ a, s.atom (findAtom8 s str) = some a ∧ a.atomType = .string ∧ a.isWideChar = false ∧ a.chars = str := by
  obtain ⟨l, hl⟩ := ht.buckets (s.bucket (atomHashOf .string str))
  have heq : findAtom8 s str = _ := findFrom_eq hl.chain (hl.length_le ht)
  rw [heq] at h0 ⊢
  cases hfind : l.find? fun i => (s.atom i).any fun p =>
      p.hash = atomHashOf .string str && p.atomType = .string &&
        p.chars.length = str.length && !p.isWideChar && p.chars = str with
  | none =>
    have hnone := congrArg (·.getD 0) hfind
    exact absurd hnone h0
  | some i =>
    obtain ⟨a, ha, -⟩ := (hl.mem i).mp (List.mem_of_find?_eq_some hfind)
    have hi := List.find?_some hfind
    simp only [ha, Option.any_some, Bool.and_eq_true, decide_eq_true_eq, Bool.not_eq_true'] at hi
    have hget := congrArg (·.getD 0) hfind
    refine ⟨a, ?_, hi.1.1.1.2, hi.1.2, hi.2⟩
    rw [← ha]
    exact congrArg s.atom hget

/-- A narrow atom of the bytes is found. -/
theorem findAtom8_eq {a : JSString} (ht : Table s) (hi : s.atom i = some a)
    (htype : a.atomType = .string) (hnarrow : a.isWideChar = false) (hchars : a.chars = str) :
    findAtom8 s str = i := by
  have hh : a.atomType.hashed := htype ▸ rfl
  have hhash : a.hash = atomHashOf .string str := by rw [ht.hash i a hi hh, htype, hchars]
  obtain ⟨l, hl, hil⟩ := ht.mem_bucket hi hh
  rw [hhash] at hl
  refine findFrom_unique hl.chain (hl.length_le ht) hil ?_ fun j hj hfj => ?_
  · have hhash' : a.hash = hashString str AtomType.string.seed &&& jsAtomHashMask := hhash
    simp [hi, htype, hnarrow, hchars, hhash']
  · obtain ⟨b, hb, -⟩ := (hl.mem j).mp hj
    simp only [hb, Option.any_some, Bool.and_eq_true, decide_eq_true_eq] at hfj
    have htypeb : b.atomType = .string := hfj.1.1.1.2
    exact ht.canonical j i b a hb hi (htypeb ▸ rfl) (htypeb.trans htype.symm) (hfj.2.trans hchars.symm)

/-- `__JS_FindAtom`, when it finds an atom. -/
theorem jsFindAtom_spec (alloc : AllocLen) (ht : Table s) (hc : Counted predefined s values atoms)
    (h0 : (jsFindAtom predefined s str).2 ≠ 0) :
    InternsStr predefined alloc.New s str values atoms (jsFindAtom predefined s str) := by
  obtain ⟨a, ha, htype, -, hchars⟩ := atom_findAtom8 ht h0
  obtain ⟨ht', hc', hs, harr⟩ := jsDupAtom_spec ht ha hc
  refine ⟨ht', hc', fun _ => ?_, hs.old⟩
  obtain ⟨p, hp, -⟩ := atom_eq_some.mp ha
  have hp' : (jsDupAtom predefined s (findAtom8 s str)).atomArray (findAtom8 s str) = .used p := by
    rw [harr, hp]
  obtain ⟨-, -, b, hb, -⟩ := ht'.used _ p hp'
  have hbi := atom_eq_some.mpr ⟨p, hp', hb⟩
  obtain ⟨a', ha', hbchars, hbtype⟩ := hs.atom hbi
  obtain rfl := Option.some.inj (ha.symm.trans ha')
  have htext := stringAtom_of_atom ht' hbi (hbtype.trans htype)
  rwa [hbchars, hchars] at htext

/-! ## The string of the bytes -/

theorem Old.mono {new new' : Ptr → Prop} (h : Old new s s')
    (hnew : ∀ q, new q → new' q) : Old new' s s' := fun q b hq => (h q b hq).imp_left (hnew q)

theorem registered_of_stringAtom (h : stringAtom s i = some []) :
    ∃ a, s.atom i = some a ∧ a.atomType = .string ∧ a.chars = [] := by
  unfold stringAtom at h
  split at h
  · split at h
    · exact absurd (Option.some.inj h) (decimal_ne_nil _)
    · cases h
  · obtain ⟨a, ha, h⟩ := Option.bind_eq_some_iff.mp h
    split at h
    · exact ⟨a, ha, ‹_›, Option.some.inj h⟩
    · cases h

/-- The string that `JS_NewStringLen` returns has the decoded bytes. -/
structure NewStringSpec (predefined : ℕ) (s : JSRuntime) (bytes : List UInt8) (values : Ptr → ℕ)
    (atoms : ℕ → ℕ) (alloc : AllocLen) (s' : JSRuntime) (p : Ptr) : Prop where
  same : SameAtoms s s'
  counted : Counted predefined s' (bump values p) atoms
  mem : ∃ str, s'.mem p = some str ∧ str.chars = decode (utf8 bytes)
  fresh : alloc.atom.Fresh s'
  old : Old alloc.New s s'

theorem jsNewStringLen_spec {p : Ptr} (ht : Table s)
    (hc : Counted predefined s values atoms) (hempty : stringAtom s emptyString = some [])
    (hf : alloc.Fresh s) (hr : jsNewStringLen emptyString s bytes alloc.string = (s', some p)) :
    NewStringSpec predefined s bytes values atoms alloc s' p := by
  unfold jsNewStringLen at hr
  dsimp only at hr
  split at hr
  · cases hr
  split at hr
  · -- the empty string is an atom already
    rename_i hnil
    obtain ⟨a, ha, -, hchars⟩ := registered_of_stringAtom hempty
    obtain ⟨q, hq, hmem⟩ := atom_eq_some.mp ha
    rw [hq] at hr
    cases hr
    refine ⟨sameAtoms_incRef p, incRef_counted hmem hc,
      ⟨{ a with refCount := a.refCount + 1 }, ?_, hchars.trans hnil.symm⟩, fun r hr => ?_,
      (incRef_shrinks p).old⟩
    · simp [incRef, JSRuntime.modify, hmem]
    · have hnone := hf.new r (.inr hr)
      have hne : r ≠ p := by
        rintro rfl
        rw [hmem] at hnone
        cases hnone
      simp [incRef, JSRuntime.modify, hne, hnone]
  · split at hr
    · cases hr
    · rename_i q hq
      cases hr
      have hp := hf.new p (.inl hq)
      obtain ⟨-, hc'⟩ := setMem_fresh (decode (utf8 bytes))
        ((decode (utf8 bytes)).any (0x100 ≤ ·)) ht hc hp
      refine ⟨sameAtoms_setMem ?_, hc', ⟨_, Function.update_self .., rfl⟩, fun r hr => ?_, setMem_old (.inl hq)⟩
      · simp [view, setMem, hp, JSString.alloc]
      have hne : r ≠ p := fun h => hf.ne p hq (h ▸ hr)
      rw [← hf.new r (.inr hr)]
      exact Function.update_of_ne hne ..

theorem jsNewStringLen_none {q : Option Ptr}
    (hr : jsNewStringLen emptyString s bytes q = (s', none)) : s' = s := by
  unfold jsNewStringLen at hr
  dsimp only at hr
  split at hr
  · exact (Prod.mk.inj hr).1.symm
  split at hr
  · split at hr
    · cases hr
    · exact (Prod.mk.inj hr).1.symm
  · split at hr
    · exact (Prod.mk.inj hr).1.symm
    · cases hr

section

variable (ht : Table s) (hc : Counted predefined s values atoms) (hempty : stringAtom s emptyString = some []) (hf : alloc.Fresh s)

include ht hc hempty hf

theorem jsNewAtomDecoded_spec
    :
    InternsStr predefined alloc.New s (decode (utf8 bytes)) values atoms
      (jsNewAtomDecoded predefined emptyString s bytes alloc) := by
  unfold jsNewAtomDecoded
  split
  · -- no string
    rename_i s' hr
    rw [jsNewStringLen_none hr]
    exact ⟨ht, by rw [gain_zero]; exact hc, fun h => absurd rfl h, Old.refl s⟩
  · rename_i s' p hr
    have hs := jsNewStringLen_spec ht hc hempty hf hr
    obtain ⟨str, hstr, hchars⟩ := hs.mem
    have h := jsNewAtomStr_spec (ht.of_sameAtoms hs.same) hstr hs.fresh hs.counted
    exact ⟨h.table, h.counted, by rw [← hchars]; exact h.atom, hs.old.trans (Old.mono h.old fun _ => .inr)⟩

/-! ## The atom of the bytes -/

/-- What a right look-up leads to. -/
theorem jsNewAtomLen_spec
    (hspell : ¬Misspelled s bytes) :
    InternsStr predefined alloc.New s (decode (utf8 bytes)) values atoms
      (jsNewAtomLen predefined emptyString s bytes alloc) := by
  have hdecoded : InternsStr predefined alloc.New s (decode (utf8 bytes)) values atoms
      (jsNewAtomDecoded predefined emptyString s bytes alloc) :=
    jsNewAtomDecoded_spec ht hc hempty hf
  unfold jsNewAtomLen
  split
  · rename_i hlook
    dsimp only
    split
    · rename_i h0
      -- the atom found is ASCII
      obtain ⟨a, ha, htype, hnarrow, hchars⟩ := atom_findAtom8 ht h0
      have hascii : ¬∃ b ∈ bytes, 128 ≤ b := fun hb =>
        hspell ⟨hlook, hb, _, a, ha, htype, hnarrow, hchars⟩
      rw [decode_utf8_eq_iff.mpr hascii]
      exact jsFindAtom_spec alloc ht hc h0
    · exact hdecoded
  · exact hdecoded

end

/-- The atom of a registered text is the registered one, whatever string it is asked for with. -/
theorem jsNewAtomStr_eq {a : Alloc} {p : Ptr} {str str' : JSString} (ht : Table s)
    (hi : s.atom i = some str) (htype : str.atomType = .string) (hp : s.mem p = some str')
    (hchars : str'.chars = str.chars) : (jsNewAtomStr predefined s p a).2 = i := by
  have hnew : (newAtom predefined s p .string a).2 = i := by
    unfold newAtom
    rw [hp]
    by_cases htype' : str'.atomType = .string
    · -- the string is registered
      obtain ⟨j, hj⟩ := ht.registered p str' hp (by rw [htype']; decide)
      have hji : j = i := ht.canonical j i str' str (atom_eq_some.mpr ⟨p, hj, hp⟩) hi
        (htype' ▸ rfl) (htype'.trans htype.symm) hchars
      have hindex := jsGetAtomIndex_spec ht hp hj
      simp only [AtomKind.type, htype', if_true, hindex, hji]
      split <;> rfl
    · obtain ⟨hmiss, hfound⟩ := findAtom_spec (t := .string) str'.chars ht rfl
      have hne : findAtom s .string (atomHashOf .string str'.chars) str'.chars ≠ 0 := fun hzero =>
        hmiss hzero i str hi htype hchars.symm
      obtain ⟨b, hb, hbchars, hbtype⟩ := hfound hne
      have heq := ht.canonical _ i b str hb hi (hbtype ▸ rfl) (hbtype.trans htype.symm)
        (hbchars.trans hchars)
      simp only [AtomKind.type, if_neg htype', heq]
      rw [if_pos (by rw [heq] at hne; exact hne)]
  unfold jsNewAtomStr
  rw [hp]
  split
  · rename_i n hn
    have hmax := ht.numeric i str hi htype n (hchars ▸ hn)
    rw [if_neg (Nat.not_le.mpr hmax)]
    exact hnew
  · exact hnew

section

variable (ht : Table s) (hc : Counted predefined s values atoms) (hempty : stringAtom s emptyString = some []) (hf : alloc.Fresh s)

include ht hc hempty hf

/-- The string of the bytes is converted to the atom that is registered for its text. -/
theorem jsNewAtomDecoded_eq {a : JSString}
    (hi : s.atom i = some a) (htype : a.atomType = .string)
    (hchars : a.chars = decode (utf8 bytes))
    (h0 : (jsNewAtomDecoded predefined emptyString s bytes alloc).2 ≠ 0) :
    (jsNewAtomDecoded predefined emptyString s bytes alloc).2 = i := by
  unfold jsNewAtomDecoded at h0 ⊢
  cases hr : jsNewStringLen emptyString s bytes alloc.string with
  | mk s' p =>
    rw [hr] at h0
    cases p with
    | none => exact absurd rfl h0
    | some p =>
      have hs := jsNewStringLen_spec ht hc hempty hf hr
      obtain ⟨str, hstr, hstrchars⟩ := hs.mem
      obtain ⟨b, hb, hcore⟩ := hs.same.atom_forward ht hi
      exact jsNewAtomStr_eq (ht.of_sameAtoms hs.same) hb ((type_of_core hcore).trans htype) hstr
        (hstrchars.trans (hchars.symm.trans (chars_of_core hcore).symm))

theorem Exact.of_not_misspelled
    (hspell : ¬Misspelled s bytes) : Exact predefined emptyString s bytes alloc := by
  refine ⟨(jsNewAtomLen_spec ht hc hempty hf hspell).atom, fun h0 => ?_⟩
  unfold jsNewAtomLen
  by_cases hlook : looksUp bytes
  · rw [if_pos hlook]
    by_cases hfound : findAtom8 s (latin1 bytes) ≠ 0
    · obtain ⟨a, ha, htype, hnarrow, hchars⟩ := atom_findAtom8 ht hfound
      have hascii : ¬∃ b ∈ bytes, 128 ≤ b := fun hb =>
        hspell ⟨hlook, hb, _, a, ha, htype, hnarrow, hchars⟩
      have heq := jsNewAtomDecoded_eq ht hc hempty hf ha htype
        (hchars.trans (decode_utf8_eq_iff.mpr hascii).symm) h0
      rw [heq]
      exact congrArg Prod.snd (if_pos hfound)
    · exact congrArg Prod.snd (if_neg hfound)
  · rw [if_neg hlook]

end

/-- A misspelled atom is returned for the wrong text. -/
theorem Misspelled.not_exact (ht : Table s) (hc : Counted predefined s values atoms)
    (hspell : Misspelled s bytes) : ¬Exact predefined emptyString s bytes alloc := by
  obtain ⟨hlook, hb, i, a, ha, htype, hnarrow, hchars⟩ := hspell
  intro h
  have hfind := findAtom8_eq ht ha htype hnarrow hchars
  have h0 : (jsFindAtom predefined s (latin1 bytes)).2 ≠ 0 := by
    change findAtom8 s (latin1 bytes) ≠ 0
    rw [hfind]
    exact (ht.atom_lt ha).1.ne'
  have hlen : jsNewAtomLen predefined emptyString s bytes alloc = jsFindAtom predefined s (latin1 bytes) := by
    rw [jsNewAtomLen, if_pos hlook]
    exact if_pos h0
  have htext := h.text
  rw [hlen] at htext
  have hbytes := (jsFindAtom_spec alloc ht hc h0).atom h0
  exact decode_utf8_eq_iff.mp (Option.some.inj ((htext h0).symm.trans hbytes)) hb

/-- **The atom of a UTF-8 text** is the atom of its decoding unless a narrow atom is spelled with
the bytes of the text. -/
theorem jsNewAtomLen_exact_iff {w : World} (hw : Ready predefined emptyString w)
    (bytes : List UInt8) (alloc : AllocLen) (hf : alloc.Fresh w.rt) :
    Exact predefined emptyString w.rt bytes alloc ↔ ¬Misspelled w.rt bytes :=
  ⟨fun h hspell => hspell.not_exact hw.inv.table hw.inv.counted h,
    fun h => .of_not_misspelled hw.inv.table hw.inv.counted hw.empty hf h⟩

/-! ## A misspelled atom -/

/-- The empty string is predefined, and `Ã©` is interned. -/
def internLatin1 : List Op :=
  [.newString 9 [] false, .newAtomStr 9 {}, .newString 10 [0xc3, 0xa9] false, .newAtomStr 10 {}]

/-- Operations without a condition. -/
def Op.interns : Op → Bool
  | .newString .. | .newAtomStr .. => true
  | _ => false

theorem safe_of_interns {w : World} {op : Op} (h : op.interns) : Safe w op := by
  cases op <;> trivial

/-- The atom of `Ã©` has the two bytes of `é` for its characters. -/
theorem exists_misspelled : ∃ w, Ready 1 1 w ∧ w.rt.mem 20 = none ∧ Misspelled w.rt [0xc3, 0xa9] := by
  let run := execIf (fun _ => Op.interns) (step 1) World.empty internLatin1
  have hempty : run.map (fun w => stringAtom w.rt 1) = some (some []) := by decide
  have hmem : run.map (fun w => (w.rt.mem 20).isNone) = some true := by decide
  have hatom : (run.bind fun w => w.rt.atom 2).map (fun a => (a.atomType, a.isWideChar, a.chars)) =
      some (.string, false, [0xc3, 0xa9]) := by decide
  obtain ⟨w, hw, hempty⟩ := Option.map_eq_some_iff.mp hempty
  rw [show run = some w from hw] at hmem hatom
  obtain ⟨a, ha, ha'⟩ := Option.map_eq_some_iff.mp hatom
  obtain ⟨htype, ha'⟩ := Prod.mk.inj ha'
  obtain ⟨hnarrow, hchars⟩ := Prod.mk.inj ha'
  have hreach : SafeRun 1 w := Reachable.execIf (fun _ _ => safe_of_interns) (.init rfl) hw
  exact ⟨w, ⟨hreach.inv, hempty⟩, Option.isNone_iff_eq_none.mp (Option.some.inj hmem), rfl, ⟨0xc3, by decide, by decide⟩,
    2, a, ha, htype, hnarrow, hchars⟩

/-- An allocator that hands out one address. -/
def AllocLen.single (q : Ptr) : AllocLen := { string := some q }

theorem AllocLen.fresh_single {q : Ptr} (h : s.mem q = none) : (AllocLen.single q).Fresh s := by
  refine ⟨fun r hr => ?_, fun r _ hr => by cases hr⟩
  rcases hr with hr | hr
  · obtain rfl := Option.some.inj hr
    exact h
  · cases hr

/-- `é` is looked up while `Ã©` is interned. -/
theorem misspelled_not_exact : ¬∀ (predefined emptyString : ℕ) (w : World) (bytes : List UInt8)
    (alloc : AllocLen), Ready predefined emptyString w → alloc.Fresh w.rt →
      Exact predefined emptyString w.rt bytes alloc := by
  intro h
  obtain ⟨w, hw, hmem, hspell⟩ := exists_misspelled
  exact hspell.not_exact hw.inv.table hw.inv.counted
    (h 1 1 w [0xc3, 0xa9] (.single 20) hw (AllocLen.fresh_single hmem))

/-- ASCII is never misspelled. -/
theorem ascii_exact : ∃ w, Ready 1 1 w ∧ Exact 1 1 w.rt [0x61] (.single 20) := by
  obtain ⟨w, hw, hmem, -⟩ := exists_misspelled
  exact ⟨w, hw, (jsNewAtomLen_exact_iff hw [0x61] (.single 20) (AllocLen.fresh_single hmem)).mpr fun hspell =>
    absurd hspell.2.1 (by decide)⟩

end QuickJs.Atom
