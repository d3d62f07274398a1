import Mathlib.Data.List.Nodup

/-!
# The for-in loop

`build_for_in_iterator` collects the keys of the loop: the number of elements of a fast array, the
enumerable keys of the object if its prototypes look empty, else all string keys along the chain.
The body runs between two calls of `js_for_in_next`, which takes the next key and asks
`JS_HasProperty` whether the property was deleted. That looks along the whole chain.
-/

namespace QuickJs.ForInLoop

section Visits

variable {α ω : Type} {f g : α → ω → Bool} {x : α} {xs : List α} {ws : List ω}

/-- The items visited when item after item is checked, each visit ending the turn of a world. -/
def visited (f : α → ω → Bool) : List α → List ω → List α
  | x :: xs, w :: ws => if f x w then x :: visited f xs ws else visited f xs (w :: ws)
  | _, _ => []

/-- The checks that are made. -/
def reached (f : α → ω → Bool) : List α → List ω → List (α × ω)
  | x :: xs, w :: ws => (x, w) :: if f x w then reached f xs ws else reached f xs (w :: ws)
  | _, _ => []

theorem visited_sublist : (visited f xs ws).Sublist xs := by
  induction xs generalizing ws with
  | nil => cases ws <;> exact .slnil
  | cons y ys ih =>
    cases ws with
    | nil => exact List.nil_sublist _
    | cons w ws =>
      rw [visited]
      split
      · exact ih.cons_cons y
      · exact ih.cons y

theorem visited_eq_take (h : ∀ x ∈ xs, ∀ w ∈ ws, f x w = true) : visited f xs ws = xs.take ws.length := by
  induction xs generalizing ws with
  | nil => cases ws <;> rfl
  | cons y ys ih =>
    cases ws with
    | nil => rfl
    | cons w ws =>
      rw [visited, if_pos (h y (.head _) w (.head _)), List.length_cons, List.take_succ_cons]
      exact congrArg _ (ih fun x hx w hw => h x (.tail _ hx) w (.tail _ hw))

/-- Of distinct items the same are visited only if every check has the same answer. -/
theorem visited_eq_iff (hxs : xs.Nodup) :
    visited f xs ws = visited g xs ws ↔ ∀ r ∈ reached g xs ws, f r.1 r.2 = g r.1 r.2 := by
  induction xs generalizing ws with
  | nil => cases ws <;> simp [visited, reached]
  | cons x xs ih =>
    cases ws with
    | nil => simp [visited, reached]
    | cons w ws =>
      obtain ⟨hx, hxs⟩ := List.nodup_cons.mp hxs
      have hnot : ∀ (f : α → ω → Bool) us vs, visited f xs us ≠ x :: vs := fun f us vs h =>
        hx (visited_sublist.mem (h ▸ List.mem_cons_self : x ∈ visited f xs us))
      rw [visited, visited, reached, List.forall_mem_cons]
      cases hf : f x w <;> cases hg : g x w
      · simpa using ih hxs
      · simpa using hnot _ _ _
      · simpa using (hnot _ _ _).symm
      · simpa using ih hxs

end Visits

/-- A property key. -/
inductive Key
  | index (n : ℕ)
  | name (s : String)
  | symbol (n : ℕ)
  deriving DecidableEq

def Key.isString : Key → Bool
  | .symbol _ => false
  | _ => true

/-- `JS_AtomIsArrayIndex`. -/
def Key.isIndex : Key → Bool
  | .index _ => true
  | _ => false

def Key.num : Key → ℕ
  | .index n => n
  | _ => 0

/-- Elements that are not in the shape. -/
inductive Elements
  | none
  /-- of a fast array -/
  | array (count : ℕ)
  | typedArray (count : ℕ)
  /-- the characters of a String object -/
  | string (length : ℕ)

def Elements.size : Elements → ℕ
  | .none => 0
  | .array n | .typedArray n | .string n => n

/-- `p->fast_array`. -/
def Elements.fast : Elements → Bool
  | .array _ | .typedArray _ => true
  | _ => false

/-- Their keys. -/
def Elements.keys (s : Elements) : List (Key × Bool) :=
  (List.range s.size).map fun i => (.index i, true)

/-- An object: the keys in its shape, each with its enumerable flag. -/
structure JSObject where
  props : List (Key × Bool)
  elements : Elements
  distinct : ((props ++ elements.keys).map Prod.fst).Nodup

/-- `JS_GetOwnPropertyInternal` finds the key. -/
def JSObject.has (o : JSObject) (k : Key) : Bool := (o.props ++ o.elements.keys).any (·.1 == k)

/-- The entries of the shape that the flags of `JS_GetOwnPropertyNamesInternal` ask for. -/
def JSObject.chosen (o : JSObject) (enumOnly : Bool) : List (Key × Bool) :=
  o.props.filter fun q => (!enumOnly || q.2) && q.1.isString

/-- The array indices, in order. -/
def JSObject.numKeys (o : JSObject) (enumOnly : Bool) : List (Key × Bool) :=
  let nums := (o.chosen enumOnly).filter (·.1.isIndex)
  if nums.isEmpty then o.elements.keys
  else (nums ++ o.elements.keys).mergeSort fun a b => a.1.num ≤ b.1.num

/-- `JS_GetOwnPropertyNamesInternal` with `JS_GPN_STRING_MASK`. -/
def JSObject.names (o : JSObject) (enumOnly : Bool) : List (Key × Bool) :=
  o.numKeys enumOnly ++ (o.chosen enumOnly).filter (!·.1.isIndex)

/-- The objects, and those among them at which a lookup in the object of the loop comes by: the
object and its prototypes. There are none if the loop is over null or undefined. -/
structure World where
  obj : ℕ → JSObject
  chain : List ℕ

/-- `JS_HasProperty`, with `numeric` for the names of which `JS_AtomIsNumericIndex` says yes. -/
def jsHasProperty (numeric : String → Bool) (w : World) (k : Key) : Bool := go w.chain
where
  go : List ℕ → Bool
  | [] => false
  | p :: ps =>
    if (w.obj p).has k then true
    else
      match (w.obj p).elements, k with
      | .typedArray _, .index _ => false
      | .typedArray _, .name s => if numeric s then false else go ps
      | _, _ => go ps

structure ForInIterator where
  isArray : Bool
  arrayLength : ℕ
  /-- the shape of `enum_obj` -/
  props : List (Key × Bool)
  idx : ℕ

/-- A property is added to `enum_obj`. One that is there is neither writable with another value
nor redefined. -/
def put (props : List (Key × Bool)) (q : Key × Bool) : List (Key × Bool) :=
  if props.any (·.1 == q.1) then props else props ++ [q]

/-- `build_for_in_iterator`. -/
def buildForInIterator (w : World) : ForInIterator :=
  match w.chain with
  | [] => ⟨false, 0, [], 0⟩
  | p :: protos =>
    if protos.any fun q => !((w.obj q).names true).isEmpty then
      ⟨false, 0, (p :: protos).foldl (fun props q => ((w.obj q).names false).foldl put props) [], 0⟩
    else if (w.obj p).elements.fast && !(w.obj p).props.any (·.2) then
      ⟨true, (w.obj p).elements.size, [], 0⟩
    else ⟨false, 0, ((w.obj p).names true).foldl (fun props q => put props (q.1, true)) [], 0⟩

/-- The keys that `idx` goes through, with those that are no keys of the loop. -/
def ForInIterator.entries (it : ForInIterator) : List (Key × Bool) :=
  if it.isArray then Elements.keys (.array it.arrayLength) else it.props

/-- `js_for_in_next`. -/
def jsForInNext (numeric : String → Bool) (w : World) (it : ForInIterator) :
    Option Key × ForInIterator :=
  match _h : it.entries[it.idx]? with
  | none => (none, it)
  | some (k, visible) =>
    if visible && jsHasProperty numeric w k then (some k, { it with idx := it.idx + 1 })
    else jsForInNext numeric w { it with idx := it.idx + 1 }
termination_by it.entries.length - it.idx
decreasing_by
  have hlt := (List.getElem?_eq_some_iff.mp _h).1
  have hlength : it.entries.length = { it with idx := it.idx + 1 }.entries.length := rfl
  omega

/-- The keys the loop visits, the world of each call of `js_for_in_next` given. -/
def forInKeys (numeric : String → Bool) (it : ForInIterator) : List World → List Key
  | [] => []
  | w :: ws =>
    match jsForInNext numeric w it with
    | (none, _) => []
    | (some k, it) => k :: forInKeys numeric it ws

/-! ## What the loop should visit -/

/-- The enumerable keys of an object that none of the `nearer` objects has. -/
def World.fresh (w : World) (p : ℕ) (nearer : List ℕ) : List (Key × Bool) :=
  (((w.obj p).names false).filter (·.2)).filter fun q => !nearer.any fun n => (w.obj n).has q.1

/-- The keys of the objects `ps` that are enumerable and not shadowed. -/
def World.enumerable (w : World) : List ℕ → List ℕ → List Key
  | [], _ => []
  | p :: ps, nearer => (w.fresh p nearer).map Prod.fst ++ w.enumerable ps (p :: nearer)

/-- The keys when the loop starts. -/
def World.wanted (w : World) : List Key := w.enumerable w.chain []

/-- The property that was enumerated in `start` under this key stands in `w`. -/
def World.stands (start : World) (k : Key) (w : World) : Bool :=
  (start.chain.find? fun p => (start.obj p).has k).any fun p => (w.obj p).has k

variable {numeric : String → Bool} {w start : World} {o : JSObject} {b : Bool} {k : Key}
  {ps nearer : List ℕ} {props ks : List (Key × Bool)} {it : ForInIterator} {ws : List World}

theorem numKeys_perm : (o.numKeys b).Perm ((o.chosen b).filter (·.1.isIndex) ++ o.elements.keys) := by
  unfold JSObject.numKeys
  dsimp only
  split <;> rename_i hempty
  · rw [List.isEmpty_iff.mp hempty, List.nil_append]
  · exact List.mergeSort_perm _ _

theorem names_perm : (o.names b).Perm (o.chosen b ++ o.elements.keys) := by
  refine (numKeys_perm.append_right _).trans ?_
  rw [List.append_assoc]
  refine (List.perm_append_comm.append_left _).trans ?_
  rw [← List.append_assoc]
  exact (List.filter_append_perm _ _).append_right _

theorem names_nodup : ((o.names b).map Prod.fst).Nodup := by
  refine (names_perm.map _).nodup_iff.mpr (o.distinct.sublist ?_)
  exact (List.filter_sublist.append_right _).map _

/-- The names of an object are the string keys it has. -/
theorem any_names (hk : k.isString) : (o.names false).any (·.1 == k) = o.has k := by
  rw [names_perm.any_eq, JSObject.has, List.any_append, List.any_append, JSObject.chosen, List.any_filter]
  congr 2
  funext q
  cases hq : q.1 == k
  · simp
  · simp [eq_of_beq hq, hk]

theorem isString_of_mem_names {q : Key × Bool} (h : q ∈ o.names b) : q.1.isString := by
  rcases List.mem_append.mp (names_perm.mem_iff.mp h) with h | h
  · exact (Bool.and_eq_true_iff.mp (List.mem_filter.mp h).2).2
  · obtain ⟨i, -, rfl⟩ := List.mem_map.mp h
    rfl

theorem numKeys_sorted : (o.numKeys b).Pairwise fun p q => p.1.num < q.1.num := by
  have hle : (o.numKeys b).Pairwise fun p q => p.1.num ≤ q.1.num := by
    unfold JSObject.numKeys
    dsimp only
    split
    · exact List.pairwise_map.mpr (List.pairwise_lt_range.imp Nat.le_of_lt)
    · refine (List.pairwise_mergeSort (fun _ _ _ h h' => ?_) (fun _ _ => ?_) _).imp of_decide_eq_true
      · exact decide_eq_true (Nat.le_trans (of_decide_eq_true h) (of_decide_eq_true h'))
      · simpa using Nat.le_total _ _
  have hindex : ∀ q ∈ o.numKeys b, ∃ i, q.1 = .index i := fun q hq => by
    rcases List.mem_append.mp (numKeys_perm.mem_iff.mp hq) with h | h
    · have hq := (List.mem_filter.mp h).2
      cases hkey : q.1 <;> simp_all [Key.isIndex]
    · obtain ⟨i, -, rfl⟩ := List.mem_map.mp h
      exact ⟨i, rfl⟩
  have hne := names_nodup (o := o) (b := b)
  rw [JSObject.names, List.map_append] at hne
  refine (hle.and (List.pairwise_map.mp hne.of_append_left)).imp_of_mem fun hp hq h => ?_
  obtain ⟨⟨i, hi⟩, j, hj⟩ := hindex _ hp, hindex _ hq
  rw [hi, hj] at h ⊢
  exact Nat.lt_of_le_of_ne h.1 fun heq => h.2 (congrArg _ heq)

theorem names_true : o.names true = (o.names false).filter (·.2) := by
  have hchosen : (o.chosen false).filter (·.2) = o.chosen true := List.filter_filter
  rw [JSObject.names, JSObject.names, List.filter_append, List.filter_comm, hchosen]
  refine congrArg (· ++ _) (List.Perm.eq_of_pairwise (fun _ _ _ _ h h' => absurd h (Nat.lt_asymm h'))
    numKeys_sorted (numKeys_sorted.filter _) ?_)
  refine numKeys_perm.trans ((numKeys_perm.filter _).trans ?_).symm
  have hall : ∀ q ∈ o.elements.keys, q.2 = true := List.forall_mem_map.mpr fun _ _ => rfl
  rw [List.filter_append, List.filter_comm, hchosen, List.filter_eq_self.mpr hall]

theorem foldl_put (hks : (ks.map Prod.fst).Nodup) :
    ks.foldl put props = props ++ ks.filter fun q => !props.any (·.1 == q.1) := by
  induction ks generalizing props with
  | nil => simp
  | cons q ks ih =>
    obtain ⟨hq, hks⟩ := List.nodup_cons.mp hks
    rw [List.foldl_cons, ih hks, put]
    cases hany : props.any (·.1 == q.1)
    · rw [if_neg (by simp), List.filter_cons_of_pos (by simp [hany]), List.append_assoc]
      refine congrArg (props ++ q :: ·) (List.filter_congr fun r hr => ?_)
      have hne : q.1 ≠ r.1 := fun h => hq (h ▸ List.mem_map_of_mem hr)
      simp [hne]
    · rw [if_pos rfl, List.filter_cons_of_neg (by simp [hany])]

/-- The keys of the slow path, `props` from the `nearer` objects. -/
theorem slow_keys (h : ∀ k, k.isString → props.any (·.1 == k) = nearer.any fun n => (w.obj n).has k) :
    ((ps.foldl (fun props q => ((w.obj q).names false).foldl put props) props).filter (·.2)).map Prod.fst =
      (props.filter (·.2)).map Prod.fst ++ w.enumerable ps nearer := by
  induction ps generalizing props nearer with
  | nil => simp [World.enumerable]
  | cons p ps ih =>
    have hfresh : ((w.obj p).names false).filter (fun q => !props.any (·.1 == q.1)) =
        ((w.obj p).names false).filter fun q => !nearer.any fun n => (w.obj n).has q.1 :=
      List.filter_congr fun q hq => by rw [h _ (isString_of_mem_names hq)]
    rw [List.foldl_cons, foldl_put names_nodup, hfresh, ih, World.enumerable, World.fresh,
      List.filter_append, List.filter_comm, List.map_append, List.append_assoc]
    intro k hk
    rw [List.any_append, h k hk, List.any_cons, ← any_names hk, List.any_filter, Bool.or_comm]
    cases hany : nearer.any fun n => (w.obj n).has k
    · rw [Bool.or_false, Bool.or_false]
      refine congrArg _ (funext fun q => ?_)
      cases hq : q.1 == k
      · rw [Bool.and_false]
      · rw [eq_of_beq hq, hany]
        rfl
    · rw [Bool.or_true, Bool.or_true]

theorem enumerable_eq_nil (h : ∀ p ∈ ps, (w.obj p).names true = []) : w.enumerable ps nearer = [] := by
  induction ps generalizing nearer with
  | nil => rfl
  | cons p ps ih =>
    obtain ⟨hp, hps⟩ := List.forall_mem_cons.mp h
    rw [World.enumerable, World.fresh, ih hps, ← names_true, hp]
    rfl

/-- What `js_for_in_next` has still to look at. -/
def ForInIterator.keys (it : ForInIterator) : List Key :=
  ((it.entries.drop it.idx).filter (·.2)).map Prod.fst

theorem keys_buildForInIterator : (buildForInIterator w).keys = w.wanted := by
  unfold buildForInIterator World.wanted
  split
  case h_1 h => rw [h]; rfl
  case h_2 p protos h =>
    rw [h]
    split
    · exact slow_keys fun _ _ => rfl
    · rename_i hnone
      have hprotos : w.enumerable protos [p] = [] := enumerable_eq_nil (by simpa using hnone)
      have hown : w.enumerable (p :: protos) [] = ((w.obj p).names true).map Prod.fst := by
        simp [World.enumerable, World.fresh, hprotos, names_true]
      have hall : ((w.obj p).names true).filter (·.2) = (w.obj p).names true := by
        rw [names_true, List.filter_filter]
        simp only [Bool.and_self]
      rw [hown]
      split <;> rename_i hfast
      · have hplain := List.any_eq_false.mp ((Bool.not_eq_true' _).mp (Bool.and_eq_true_iff.mp hfast).2)
        have hnone : (w.obj p).chosen true = [] :=
          List.filter_eq_nil_iff.mpr fun q hq => by simp [hplain q hq]
        have hnames : (w.obj p).names true = Elements.keys (.array (w.obj p).elements.size) := by
          rw [JSObject.names, JSObject.numKeys, hnone]
          exact List.append_nil _
        rw [hnames] at hall ⊢
        exact congrArg _ hall
      · have hput : ((w.obj p).names true).foldl (fun props q => put props (q.1, true)) [] =
            (w.obj p).names true := by
          rw [List.foldl_ext _ put _ fun _ q hq => ?_, foldl_put names_nodup]
          · simp
          · have hq : q.2 = true := (List.mem_filter.mp (hall ▸ hq)).2
            rw [← hq]
        rw [hput]
        exact congrArg _ hall

theorem keys_of_none (h : it.entries[it.idx]? = none) : it.keys = [] := by
  rw [ForInIterator.keys, List.drop_eq_nil_of_le (List.getElem?_eq_none_iff.mp h)]
  rfl

theorem keys_of_some {e : Bool} (h : it.entries[it.idx]? = some (k, e)) :
    it.keys = (if e then [k] else []) ++ { it with idx := it.idx + 1 }.keys := by
  obtain ⟨hlt, hq⟩ := List.getElem?_eq_some_iff.mp h
  rw [ForInIterator.keys, List.drop_eq_getElem_cons hlt, hq]
  cases e <;> rfl

theorem visited_cons : visited (fun k w => jsHasProperty numeric w k) it.keys (w :: ws) =
    match jsForInNext numeric w it with
    | (none, _) => []
    | (some k, it) => k :: visited (fun k w => jsHasProperty numeric w k) it.keys ws := by
  fun_induction jsForInNext numeric w it with
  | case1 it h => rw [keys_of_none h]; rfl
  | case2 it k e h hv =>
    obtain ⟨rfl, hk⟩ := Bool.and_eq_true_iff.mp hv
    rw [keys_of_some h, if_pos rfl, List.singleton_append, visited, if_pos hk]
  | case3 it k e h hv ih =>
    rw [keys_of_some h, ← ih]
    cases e
    · rfl
    · exact if_neg hv

theorem forInKeys_eq_visited :
    forInKeys numeric it ws = visited (fun k w => jsHasProperty numeric w k) it.keys ws := by
  induction ws generalizing it with
  | nil => cases it.keys <;> rfl
  | cons w ws ih =>
    rw [visited_cons, forInKeys]
    split <;> simp_all

theorem enumerable_nodup : (w.enumerable ps nearer).Nodup ∧
    ∀ k ∈ w.enumerable ps nearer, ∀ n ∈ nearer, (w.obj n).has k = false := by
  induction ps generalizing nearer with
  | nil => simp [World.enumerable]
  | cons p ps ih =>
    obtain ⟨hnodup, hnot⟩ := @ih (p :: nearer)
    have hfresh : ∀ k ∈ (w.fresh p nearer).map Prod.fst,
        (w.obj p).has k ∧ ∀ n ∈ nearer, (w.obj n).has k = false := by
      simp only [World.fresh, List.mem_map, List.mem_filter]
      rintro k ⟨q, ⟨⟨hq, -⟩, hn⟩, rfl⟩
      rw [← any_names (isString_of_mem_names hq)]
      exact ⟨List.any_eq_true.mpr ⟨q, hq, beq_self_eq_true _⟩, by simpa using hn⟩
    rw [World.enumerable, List.nodup_append']
    refine ⟨⟨names_nodup.sublist ((List.filter_sublist.trans List.filter_sublist).map _),
      hnodup, ?_⟩, ?_⟩
    · intro k hk hk'
      exact Bool.false_ne_true ((hnot k hk' p (.head _)).symm.trans (hfresh k hk).1)
    · intro k hk n hn
      rcases List.mem_append.mp hk with hk | hk
      · exact (hfresh k hk).2 n hn
      · exact hnot k hk n (.tail _ hn)

/-- The loop visits the keys it should if and only if, whenever it comes to a key,
`JS_HasProperty` gives the answer for the property that was enumerated. -/
theorem forInKeys_eq_iff (numeric : String → Bool) (start : World) (ws : List World) :
    forInKeys numeric (buildForInIterator start) ws = visited start.stands start.wanted ws ↔
      ∀ r ∈ reached start.stands start.wanted ws,
        jsHasProperty numeric r.2 r.1 = start.stands r.1 r.2 := by
  rw [forInKeys_eq_visited, keys_buildForInIterator]
  exact visited_eq_iff enumerable_nodup.1

/-- The body deletes the key `b` of the object, and a prototype has one that is not enumerable. -/
theorem forInKeys_deleted :
    let a : Key × Bool := (.name "a", true)
    let proto : JSObject := ⟨[(.name "b", false)], .none, by decide⟩
    let start : World :=
      ⟨fun p => if p = 0 then ⟨[a, (.name "b", true)], .none, by decide⟩ else proto, [0, 1]⟩
    let later : World := ⟨fun p => if p = 0 then ⟨[a], .none, by decide⟩ else proto, [0, 1]⟩
    forInKeys (fun _ => false) (buildForInIterator start) [start, later] ≠
      visited start.stands start.wanted [start, later] := by
  intro a proto start later
  rw [forInKeys_eq_visited]
  decide

/-- Whatever the body does, the loop visits keys that were to be visited when it started, in their
order and each once; and as long as nothing is deleted it leaves none out. -/
theorem forInKeys_sublist_wanted (numeric : String → Bool) (start : World) (ws : List World) :
    (forInKeys numeric (buildForInIterator start) ws).Sublist start.wanted ∧
      (forInKeys numeric (buildForInIterator start) ws).Nodup ∧
      ((∀ k ∈ start.wanted, ∀ w ∈ ws, jsHasProperty numeric w k = true) →
        forInKeys numeric (buildForInIterator start) ws = start.wanted.take ws.length) := by
  rw [forInKeys_eq_visited, keys_buildForInIterator]
  exact ⟨visited_sublist, enumerable_nodup.1.sublist visited_sublist, visited_eq_take⟩

end QuickJs.ForInLoop
