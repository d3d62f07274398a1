import QuickJs.MapTable
import QuickJs.AssocList
import QuickJs.Run
import Mathlib

/-!
# A map is an association list

Abstractly a Map or Set is an insertion-ordered association list whose keys are compared by
SameValueZero. The hash table implements it in every run that never looks up a number whose
other representation, tagged integer or double, is in the map in another bucket.
-/

namespace QuickJs.Map

open JSMapState Stamped AssocList Run

/-! ## Operations -/

/-- The operations of a map on which no iterator is open. -/
inductive MapOp
  | set (key value : JSValue) (memory : Memory)
  | get (key : JSValue)
  | has (key : JSValue)
  | delete (key : JSValue)
  | clear
  | size

/-- Perform an operation. -/
def MapOp.perform (s : JSMapState) : MapOp → Except Fault (JSMapState × Outcome)
  | set key value memory => jsMapSet s key value memory []
  | get key => jsMapGet s key
  | has key => jsMapHas s key
  | delete key => jsMapDelete s key []
  | clear => jsMapClear s fun _ => []
  | size => .ok (jsMapGetSize s)

/-- The map after an operation that returns. -/
def MapOp.step (s : JSMapState) (o : MapOp) : Option JSMapState :=
  match o.perform s with
  | .ok (s', _) => some s'
  | .error _ => none

/-- What the operations mean: the association list after an operation and the outcome. -/
def MapOp.meaning (isSet : Bool) (es : List (JSValue × JSValue)) :
    MapOp → List (JSValue × JSValue) × Outcome
  | set key value memory =>
    let key := mapNormalizeKey key
    let value := if isSet then .undefined else value
    if contains jsSameValueZero es key then (replace jsSameValueZero es key value, .this)
    else if memory.record then (es ++ [(key, value)], .this)
    else (es, .exception)
  | get key => (es, .value ((lookup jsSameValueZero es key).getD .undefined))
  | has key => (es, .value (.bool (contains jsSameValueZero es key)))
  | delete key =>
    (erase jsSameValueZero es key, .value (.bool (contains jsSameValueZero es key)))
  | clear => ([], .value .undefined)
  | size => (es, .size es.length)

/-- The association list in a map. -/
def JSMapState.entries (s : JSMapState) : List (JSValue × JSValue) :=
  s.live.map fun e => (e.key, e.value)

/-- No record under the same number as the key but in the other representation is in another
bucket than the key. -/
def OneBucket (s : JSMapState) (key : JSValue) : Prop :=
  ∀ r ∈ s.records, r.empty = false → Mixed r.key (mapNormalizeKey key) →
    jsSameValueZero r.key key = true → s.bucket r.key = s.bucket (mapNormalizeKey key)

/-- The key an operation looks up is in its bucket. -/
def MapOp.OneBucket (s : JSMapState) : MapOp → Prop
  | set key _ _ | get key | has key | delete key => Map.OneBucket s key
  | clear | size => True

variable {s s' : JSMapState} {key : JSValue} {isSet : Bool}

/-! ## Lookup -/

/-- The invariant of a map without iterators. -/
structure Refines (isSet : Bool) (s : JSMapState) : Prop where
  inv : MapInv s
  distinct : Distinct jsSameValueZero s.entries
  cursors : s.cursors = []
  isSet_eq : s.isSet = isSet

/-- A lookup finds the entry of the same key. -/
theorem MapInv.found_eq (h : MapInv s) (hkey : OneBucket s key) :
    s.found (mapNormalizeKey key) = s.live.find? fun e => jsSameValueZero e.key key := by
  refine List.find?_congr fun e he => ?_
  rw [jsSameValueZero_normalize_right]
  cases hsame : jsSameValueZero e.key key
  · rw [Bool.and_false]
  · obtain ⟨r, hr, hre, rfl⟩ := mem_live.mp he
    rw [Bool.and_true, beq_iff_eq]
    by_cases hmixed : Mixed r.key (mapNormalizeKey key)
    · exact hkey r hr hre hmixed hsame
    · rw [JSMapState.bucket, JSMapState.bucket, mapHashKey_eq (h.hashed.normal _ he)
        (normal_mapNormalizeKey key) ((jsSameValueZero_normalize_right _ _).trans hsame) hmixed]

theorem find?_entries (s : JSMapState) (key : JSValue) : (s.entries.find? fun p => jsSameValueZero p.1 key) =
      (s.live.find? fun e => jsSameValueZero e.key key).map fun e => (e.key, e.value) := by
  rw [entries, List.find?_map]
  rfl

theorem contains_entries (s : JSMapState) (key : JSValue) : contains jsSameValueZero s.entries key =
      (s.live.find? fun e => jsSameValueZero e.key key).isSome := by
  rw [contains_eq_isSome, find?_entries, Option.isSome_map]

theorem contains_normalize (es : List (JSValue × JSValue)) (key : JSValue) :
    contains jsSameValueZero es (mapNormalizeKey key) = contains jsSameValueZero es key := by
  simp only [contains, jsSameValueZero_normalize_right]

/-- Two entries of the same key are one. -/
theorem Refines.addr_eq_iff (h : Refines isSet s) {d e : Entry} (hd : d ∈ s.live)
    (he : e ∈ s.live) (hsame : jsSameValueZero e.key key = true) :
    d.addr = e.addr ↔ jsSameValueZero d.key key = true := by
  constructor
  · intro heq
    rwa [h.inv.tidy.balanced.live_increasing.eq_of_stamp hd he heq]
  · intro hsame'
    by_contra hne
    have hd' : jsSameValueZero d.key e.key = true :=
      jsSameValueZero_trans hsame' (jsSameValueZero_symm hsame)
    have hpair : s.live.Pairwise fun a b => jsSameValueZero a.key b.key = false :=
      List.pairwise_map.mp h.distinct
    have : Std.Symm fun a b : Entry => jsSameValueZero a.key b.key = false :=
      ⟨fun a b hab => Bool.eq_false_iff.mpr fun hba =>
        Bool.eq_false_iff.mp hab (jsSameValueZero_symm hba)⟩
    rw [hpair.forall hd he fun heq => hne (congrArg Entry.addr heq)] at hd'
    cases hd'

/-! ## The operations -/

theorem Refines.entries_setValue {e : Entry} (h : Refines isSet s) (he : e ∈ s.live)
    (hsame : jsSameValueZero e.key key = true) (value : JSValue) :
    (s.live.map (Entry.setValue e.addr value)).map (fun e => (e.key, e.value)) =
      replace jsSameValueZero s.entries key value := by
  rw [replace, entries, List.map_map, List.map_map]
  refine List.map_congr_left fun d hd => ?_
  have hiff := h.addr_eq_iff hd he hsame
  simp only [Function.comp_apply, Entry.setValue]
  by_cases heq : d.addr = e.addr
  · rw [if_pos heq, if_pos (hiff.mp heq)]
  · rw [if_neg heq, if_neg fun hd => heq (hiff.mpr hd)]

theorem Refines.entries_without {e : Entry} (h : Refines isSet s) (he : e ∈ s.live)
    (hsame : jsSameValueZero e.key key = true) :
    (without e.addr s.live).map (fun e => (e.key, e.value)) = erase jsSameValueZero s.entries key := by
  rw [erase, entries, List.filter_map]
  congr 1
  refine List.filter_congr fun d hd => ?_
  have hiff := h.addr_eq_iff hd he hsame
  rw [Function.comp_apply, Bool.eq_iff_iff, bne_iff_ne, ne_eq, hiff, Bool.not_eq_true', Bool.not_eq_true]

/-- Without iterators nothing but entries is linked. -/
theorem MapInv.records_live (h : MapInv s) (hcur : s.cursors = []) : s.live = s.records.map (·.entry) := by
  have hnone : ∀ r ∈ s.records, (!r.empty) = true := by
    intro r hr
    have hcount := h.tidy.balanced.refCount r hr
    have hpos := h.tidy.balanced.pos r hr
    rw [locks, hcur, List.countP_nil] at hcount
    cases he : r.empty
    · rfl
    · rw [he, if_pos rfl] at hcount
      omega
  rw [live, List.filter_eq_self.mpr hnone]

theorem Freed.cursors_nil (h : Freed [] s s') (hcur : s.cursors = []) : s'.cursors = [] := by
  refine List.ext_getElem? fun j => ?_
  rw [h.kept j List.not_mem_nil, hcur]

/-- `js_map_clear` without iterators removes the entries one by one. -/
theorem Refines.clearLoop {n : ℕ} (h : Refines isSet s) (hn : s.records.length ≤ n) :
    ∃ s', clearLoop (fun _ => []) n s s.first = .ok s' ∧ Refines isSet s' ∧ s'.live = [] := by
  induction n generalizing s with
  | zero =>
    have hnil := List.length_eq_zero_iff.mp (Nat.le_zero.mp hn)
    refine ⟨s, ?_, h, ?_⟩
    · rw [JSMapState.first, hnil]
      rfl
    · rw [h.inv.records_live h.cursors, hnil, List.map_nil]
  | succ n ih =>
    have hlive := h.inv.records_live h.cursors
    cases hrec : s.records with
    | nil =>
      refine ⟨s, ?_, h, ?_⟩
      · rw [JSMapState.first, hrec]
        rfl
      · rw [hlive, hrec, List.map_nil]
    | cons r rs =>
      have hr : r ∈ s.records := hrec ▸ List.mem_cons_self ..
      have hinc := h.inv.tidy.balanced.increasing
      have hgt : ∀ b ∈ rs, r.addr < b.addr := (List.pairwise_cons.mp (hrec ▸ hinc)).1
      have he : r.entry ∈ s.live := hlive ▸ List.mem_map_of_mem hr
      rcases h.inv.mapDeleteRecord he [] with ⟨hne, -⟩ | ⟨s', hs', hinv, hlive', hset, -, hfreed⟩
      · exact absurd rfl hne
      have hcur := hfreed.cursors_nil h.cursors
      have hrest : s'.live = rs.map (·.entry) := by
        rw [hlive', hlive, hrec, without, List.map_cons, List.filter_cons_of_neg (by simp),
          List.filter_eq_self.mpr]
        rintro _ hd
        obtain ⟨b, hb, rfl⟩ := List.mem_map.mp hd
        simpa using Nat.ne_of_gt (hgt b hb)
      have hentries : s'.records.map (·.entry) = rs.map (·.entry) :=
        (hinv.records_live hcur).symm.trans hrest
      -- the link read before the deletion is the first one after it
      have hnext : s.next r.addr = .ok s'.first := by
        have hhead := congrArg (fun es => (List.head? es).map Entry.addr) hentries
        simp only [List.head?_map, Option.map_map] at hhead
        simp only [JSMapState.next, h.inv.tidy.balanced.linked hr, ok_bind, pure_eq_ok, Except.ok.injEq, hrec]
        rw [List.filter_cons_of_neg (by simp), List.filter_eq_self.mpr fun b hb =>
          decide_eq_true (hgt b hb)]
        exact hhead.symm
      have hfirst : s.first = some r.addr := by
        rw [JSMapState.first, hrec]
        rfl
      have hdistinct : Distinct jsSameValueZero s'.entries := by
        rw [JSMapState.entries, hlive']
        exact (h.distinct.sublist (List.filter_sublist.map _))
      have hlen : s'.records.length ≤ n := by
        have hlen := congrArg List.length hentries
        rw [List.length_map, List.length_map] at hlen
        rw [hrec, List.length_cons] at hn
        omega
      obtain ⟨s'', hs'', href, hnil⟩ := ih ⟨hinv, hdistinct, hcur, hset.trans h.isSet_eq⟩ hlen
      refine ⟨s'', ?_, href, hnil⟩
      rw [hfirst, Map.clearLoop, clearStep, hnext]
      rw [show r.addr = r.entry.addr from rfl, hs']
      exact hs''

/-- Every operation on a map that refines its association list returns, and refines the
operation on the list. -/
theorem Refines.perform (h : Refines isSet s) (o : MapOp) (hok : o.OneBucket s) :
    ∃ s' out, o.perform s = .ok (s', out) ∧ Refines isSet s' ∧
      o.meaning isSet s.entries = (s'.entries, out) := by
  obtain rfl := h.isSet_eq
  have hfind : ∀ {key}, OneBucket s key → s.found (mapNormalizeKey key) =
      s.live.find? fun e => jsSameValueZero e.key key := fun hkey => h.inv.found_eq hkey
  cases o with
  | set key value memory =>
    have hcontains := contains_entries s key
    rw [← hfind hok] at hcontains
    simp only [MapOp.meaning, contains_normalize]
    rcases h.inv.jsMapSet key value memory [] with
      ⟨e, hfound, ⟨hne, -⟩ | ⟨s', hs', hinv, hlive, hset, -, hfreed⟩⟩ |
      ⟨hfound, hmem, hs'⟩ | ⟨hfound, hmem, s', hs', hinv, hlive, hset, -, hcur⟩
    · exact absurd rfl hne
    · obtain ⟨he, hsame⟩ := mem_of_found hfound
      have hentries := h.entries_setValue he hsame (if s.isSet then .undefined else value)
      rw [hfound, Option.isSome_some] at hcontains
      rw [← hlive] at hentries
      refine ⟨s', _, hs', ⟨hinv, ?_, hfreed.cursors_nil h.cursors, hset.trans h.isSet_eq⟩, ?_⟩
      · rw [JSMapState.entries, hentries]
        exact h.distinct.replace
      · rw [if_pos hcontains, JSMapState.entries, JSMapState.entries, hentries]
        rfl
    · rw [hfound] at hcontains
      refine ⟨s, _, hs', h, ?_⟩
      rw [if_neg (by simp [hcontains]), if_neg (by simp [hmem])]
    · rw [hfound] at hcontains
      have hentries : s'.entries = s.entries ++
          [(mapNormalizeKey key, if s.isSet then .undefined else value)] := by
        rw [JSMapState.entries, hlive, List.map_append]
        rfl
      refine ⟨s', _, hs', ⟨hinv, ?_, hcur.trans h.cursors, hset.trans h.isSet_eq⟩, ?_⟩
      · rw [hentries]
        exact h.distinct.concat ((contains_normalize _ _).trans hcontains)
      · rw [if_neg (by simp [hcontains]), if_pos hmem, hentries]
  | get key =>
    refine ⟨s, _, h.inv.jsMapGet key, h, ?_⟩
    rw [MapOp.meaning, lookup, find?_entries, Option.map_map, hfind hok]
    rfl
  | has key =>
    refine ⟨s, _, h.inv.jsMapHas key, h, ?_⟩
    rw [MapOp.meaning, contains_entries, hfind hok]
  | delete key =>
    have hcontains := contains_entries s key
    rw [← hfind hok] at hcontains
    rw [MapOp.meaning]
    rcases h.inv.jsMapDelete key [] with
      ⟨e, hfound, ⟨hne, -⟩ | ⟨s', hs', hinv, hlive, hset, -, hfreed⟩⟩ | ⟨hfound, hs'⟩
    · exact absurd rfl hne
    · obtain ⟨he, hsame⟩ := mem_of_found hfound
      have hentries := h.entries_without he ((jsSameValueZero_normalize_right _ _).symm.trans hsame)
      rw [← hlive] at hentries
      rw [hfound, Option.isSome_some] at hcontains
      refine ⟨s', _, hs', ⟨hinv, ?_, hfreed.cursors_nil h.cursors, hset.trans h.isSet_eq⟩, ?_⟩
      · rw [JSMapState.entries, hentries]
        exact h.distinct.erase
      · have hs : s'.entries = erase jsSameValueZero s.entries key := hentries
        rw [hcontains, hs]
    · rw [hfound, Option.isSome_none] at hcontains
      refine ⟨s, _, hs', h, ?_⟩
      rw [hcontains, erase, List.filter_eq_self.mpr]
      intro e he
      rw [contains, List.any_eq_false] at hcontains
      simpa using hcontains e he
  | clear =>
    obtain ⟨s', hs', href, hnil⟩ := h.clearLoop (Nat.le_refl _)
    refine ⟨s', .value .undefined, ?_, href, ?_⟩
    · rw [MapOp.perform, jsMapClear, hs', ok_bind, pure_eq_ok]
    · rw [MapOp.meaning, JSMapState.entries, hnil]
      rfl
  | size =>
    refine ⟨s, _, rfl, h, ?_⟩
    show (s.entries, Outcome.size s.entries.length) = (s.entries, Outcome.size s.recordCount)
    rw [h.inv.hashed.count, JSMapState.entries, List.length_map]

theorem refines_jsMapConstructor (isSet : Bool) : Refines isSet (jsMapConstructor isSet) where
  inv := mapInv_jsMapConstructor isSet
  distinct := .nil
  cursors := rfl
  isSet_eq := rfl

theorem refines_of_reachable
    (h : Reachable (· = jsMapConstructor isSet) MapOp.step (fun s o => o.OneBucket s) s) :
    Refines isSet s := by
  refine h.invariant (fun s hs => hs ▸ refines_jsMapConstructor isSet) fun s o s' hs hok hstep => ?_
  obtain ⟨s₁, out, hs₁, href, -⟩ := hs.perform o hok
  rw [MapOp.step, hs₁] at hstep
  exact Option.some.inj hstep ▸ href

/-- As long as every number that is looked up is in its own bucket, a map refines its
association list: it counts its records, a lookup finds the record of the same key, and every
operation returns what it means on the list. -/
theorem map_refines (h : Reachable (· = jsMapConstructor isSet) MapOp.step (fun s o => o.OneBucket s) s) :
    s.recordCount = (s.records.filter (!·.empty)).length ∧
      (∀ key, OneBucket s key → ∀ r ∈ s.records, r.empty = false → jsSameValueZero r.key key = true →
          mapFindRecord s (mapNormalizeKey key) = .ok (some r.addr)) ∧
      ∀ o : MapOp, o.OneBucket s → ∃ s' out, o.perform s = .ok (s', out) ∧
        o.meaning isSet s.entries = (s'.entries, out) := by
  have href := refines_of_reachable h
  refine ⟨?_, fun key hkey r hr hre hsame => ?_, fun o hok => ?_⟩
  · rw [href.inv.hashed.count, live, List.length_map]
  · have he : r.entry ∈ s.live := mem_live.mpr ⟨r, hr, hre, rfl⟩
    have hfound := href.inv.found_eq hkey
    rw [href.inv.mapFindRecord, hfound]
    cases hfind : s.live.find? fun e => jsSameValueZero e.key key with
    | none => exact absurd hsame (List.find?_eq_none.mp hfind _ he)
    | some e =>
      have heq := (href.addr_eq_iff he (List.mem_of_find?_eq_some hfind)
        (by simpa using List.find?_some hfind)).mpr hsame
      rw [Option.map_some, ← heq]
      rfl
  · obtain ⟨s', out, hs', -, hmean⟩ := href.perform o hok
    exact ⟨s', out, hs', hmean⟩

/-- One entry under the key `"a"`. -/
theorem map_refines_example : ∃ s,
    MapOp.step (jsMapConstructor false) (.set (.string [97]) (.int 1) ⟨true, some 0⟩) = some s ∧
      s.recordCount = (s.records.filter (!·.empty)).length ∧
      ∃ s' out, MapOp.perform s (.get (.string [97])) = .ok (s', out) ∧
        MapOp.meaning false s.entries (.get (.string [97])) = (s'.entries, out) := by
  have hone : OneBucket (jsMapConstructor false) (.string [97]) := fun r hr => nomatch hr
  refine ⟨_, rfl, ?_⟩
  obtain ⟨hcount, -, hperform⟩ := map_refines (.step (o := .set (.string [97]) (.int 1)
    ⟨true, some 0⟩) (.init rfl) hone rfl)
  refine ⟨hcount, hperform _ fun r hr _ hmixed => ?_⟩
  rw [List.mem_singleton.mp hr] at hmixed
  cases hmixed

/-- A map of four small integers; the table has grown to four buckets. -/
def fourIntegers : List MapOp :=
  [0, 1, 2, 3].map fun n => .set (.int n) .null ⟨true, some 0⟩

/-- The double `3.0` is the same key as the integer `3`, but it is not found: `has` returns
false where the list has the key. -/
theorem jsMapHas_integral_double : ((Run.exec MapOp.step (jsMapConstructor false) fourIntegers).map fun s =>
      let o := MapOp.has (.float64 (Double.ofInt32 3))
      ((o.perform s).toOption.map Prod.snd, (o.meaning false s.entries).2)) =
    some (some (.value (.bool false)), .value (.bool true)) := by
  decide +kernel

end QuickJs.Map
