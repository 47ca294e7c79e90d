import GameScript.Proofs.Confinement.Store
import GameScript.Proofs.Regrouping.Store

/-! # Stores whose scopes have other numbers

Two stores may hold the same scopes under different numbers, and each of them may hold empty scopes
that the other one lacks, each just inside another scope. A name is then found from scopes that stand
for each other in scopes that do, unless the first of the two searches comes too far. The second one
has to pass the empty scopes of its own store, so it needs as much more room as there are of them. -/

namespace GameScript

/-! ## Searching outward -/

namespace Store

variable {s : Store} {scope : Nat} {name : Name}

theorem search_own (h : s.owns name scope = true) (room : Nat) :
    s.search (room + 1) scope name = .found scope := by
  rw [search, chainWithin, List.find?_cons, h]

theorem search_outer {outer : Nat} {names : Fields Value Name}
    (hx : s.scopes[scope]? = some ⟨some outer, names⟩) (h : s.owns name scope = false) (room : Nat) :
    s.search (room + 1) scope name = s.search room outer name := by
  rw [search, search, chainWithin, hx, List.find?_cons, h]
  simp only [List.length_cons, Nat.add_lt_add_iff_right]

theorem search_end {names : Fields Value Name} (hx : s.scopes[scope]? = some ⟨none, names⟩)
    (h : s.owns name scope = false) (room : Nat) :
    s.search (room + 1) scope name = if 0 < room then .unbound else .tooFar := by
  rw [search, chainWithin, hx, List.find?_cons, h]
  simp only [List.find?_nil, List.length_singleton, Nat.lt_add_left_iff_pos]

/-- All scopes that the store speaks of are there, and so is the outermost one. -/
structure Closed (s : Store) : Prop where
  outermost : globals < s.scopes.size
  parents : ∀ {i outer : Nat} {names : Fields Value Name},
    s.scopes[i]? = some ⟨some outer, names⟩ → outer < s.scopes.size
  closures : ∀ {place : Nat} {closure : Closure},
    s.closures[place]? = some closure → closure.scope < s.scopes.size

end Store

/-! ## Renamings -/

/-- How the scopes of two stores stand for each other. -/
structure Renaming where
  /-- Scopes that stand for each other. From the second one outward there are at most so many more
  scopes than from the first. -/
  pairs : Nat → Nat → Nat → Prop
  /-- An empty scope of the first store only, and the scope around it. -/
  left : Nat → Nat → Prop
  /-- An empty scope of the second store only, and the scope around it. -/
  right : Nat → Nat → Prop

namespace Renaming

variable {w w' w'' : Renaming} {n k i i' p p' : Nat}

/-- Scopes from which the same can be seen: they stand for each other, but for empty scopes around
which they do. The second one has at most `k` more scopes around it. -/
inductive Alike (w : Renaming) : Nat → Nat → Nat → Prop where
  | pair {n k i i' : Nat} : w.pairs n i i' → n ≤ k → Alike w k i i'
  | left {k i i' p : Nat} : w.left i p → Alike w k p i' → Alike w k i i'
  | right {k i i' p' : Nat} : w.right i' p' → Alike w k i p' → Alike w (k + 1) i i'

/-- Every scope stands for itself. -/
def identity (s : Store) : Renaming where
  pairs _ i i' := i = i' ∧ i < s.scopes.size
  left _ _ := False
  right _ _ := False

/-- A renaming that knows of more scopes. -/
structure Extends (w w' : Renaming) : Prop where
  pairs : ∀ {n i i'}, w.pairs n i i' → w'.pairs n i i'
  left : ∀ {i p}, w.left i p → w'.left i p
  right : ∀ {i' p'}, w.right i' p' → w'.right i' p'

theorem Extends.refl (w : Renaming) : w.Extends w := ⟨id, id, id⟩

theorem Extends.trans (h : w.Extends w') (h' : w'.Extends w'') : w.Extends w'' :=
  ⟨h'.pairs ∘ h.pairs, h'.left ∘ h.left, h'.right ∘ h.right⟩

theorem Alike.extend (h : w.Alike k i i') (hw : w.Extends w') : w'.Alike k i i' := by
  induction h with
  | pair hp hn => exact .pair (hw.pairs hp) hn
  | left hl _ ih => exact .left (hw.left hl) ih
  | right hr _ ih => exact .right (hw.right hr) ih

theorem parents_extend {parent parent' : Option Nat} (h : Option.Rel (w.Alike n) parent parent')
    (hw : w.Extends w') : Option.Rel (w'.Alike n) parent parent' := by
  cases h with
  | none => exact .none
  | some ha => exact .some (ha.extend hw)

theorem alike_identity {s : Store} (h : i < s.scopes.size) (k : Nat) :
    (identity s).Alike k i i := .pair (n := k) ⟨rfl, h⟩ (Nat.le_refl k)

/-- Two more scopes that stand for each other. -/
def pair (w : Renaming) (n i i' : Nat) : Renaming :=
  { w with pairs := fun k j j' => w.pairs k j j' ∨ k = n ∧ j = i ∧ j' = i' }

/-- One more empty scope of the first store. -/
def insertLeft (w : Renaming) (i p : Nat) : Renaming :=
  { w with left := fun j q => w.left j q ∨ j = i ∧ q = p }

/-- One more empty scope of the second store. -/
def insertRight (w : Renaming) (i' p' : Nat) : Renaming :=
  { w with right := fun j' q' => w.right j' q' ∨ j' = i' ∧ q' = p' }

theorem extends_pair (w : Renaming) (n i i' : Nat) : w.Extends (w.pair n i i') := ⟨.inl, id, id⟩

theorem extends_insertLeft (w : Renaming) (i p : Nat) : w.Extends (w.insertLeft i p) :=
  ⟨id, .inl, id⟩

theorem extends_insertRight (w : Renaming) (i' p' : Nat) : w.Extends (w.insertRight i' p') :=
  ⟨id, id, .inl⟩

end Renaming

/-- The same function, declared in scopes that are alike. -/
structure Closure.Renames (extra : Nat) (w : Renaming) (c c' : Closure) : Prop where
  name : c.name = c'.name
  params : c.params = c'.params
  body : c.body = c'.body
  scope : w.Alike extra c.scope c'.scope

/-- The same store but for the numbers of scopes and for empty scopes. -/
structure Store.Renames (extra : Nat) (w : Renaming) (s s' : Store) : Prop where
  outermost : ∃ n, w.pairs n Store.globals Store.globals
  pairs : ∀ {n i i' : Nat}, w.pairs n i i' → ∃ x x', s.scopes[i]? = some x ∧
    s'.scopes[i']? = some x' ∧ x.names = x'.names ∧ Option.Rel (w.Alike n) x.parent x'.parent
  left : ∀ {i p : Nat}, w.left i p → s.scopes[i]? = some ⟨some p, []⟩ ∧ p < s.scopes.size
  right : ∀ {i' p' : Nat}, w.right i' p' → s'.scopes[i']? = some ⟨some p', []⟩
  -- A name that is bound in scopes which stand for each other is bound nowhere else.
  unique : ∀ {n k i i' j j' : Nat}, w.pairs n i i' → w.pairs k j j' → (i = j ↔ i' = j')
  apartLeft : ∀ {n i i' j p : Nat}, w.pairs n i i' → w.left j p → i ≠ j
  apartRight : ∀ {n i i' j' p' : Nat}, w.pairs n i i' → w.right j' p' → i' ≠ j'
  -- No scope of the first store is unknown to the renaming, so its parent is there.
  covers : ∀ {i : Nat}, i < s.scopes.size → (∃ n i', w.pairs n i i') ∨ ∃ p, w.left i p
  arrays : s.arrays = s'.arrays
  closures : List.Forall₂ (Closure.Renames extra w) s.closures.toList s'.closures.toList

/-- The same machine but for the numbers of scopes, empty scopes and the trace. -/
structure Machine.Renames (extra : Nat) (w : Renaming) (m m' : Machine) : Prop where
  store : m.store.Renames extra w m'.store
  input : m.input = m'.input
  output : m.output = m'.output
  clock : m.clock = m'.clock

theorem Machine.Renames.withLog {extra : Nat} {w : Renaming} {m m' : Machine}
    (h : m.Renames extra w m') (log log' : Array Trace.Entry) :
    Machine.Renames extra w { m with log } { m' with log := log' } :=
  ⟨h.store, h.input, h.output, h.clock⟩

theorem Machine.Renames.withStore {extra : Nat} {w w' : Renaming} {m m' : Machine} {s s' : Store}
    (h : m.Renames extra w m') (hs : s.Renames extra w' s') :
    Machine.Renames extra w' { m with store := s } { m' with store := s' } :=
  ⟨hs, h.input, h.output, h.clock⟩

/-- What two searches find, the first of which may come too far. -/
inductive Store.SameSearch (w : Renaming) : Store.Search → Store.Search → Prop where
  | found {n i i' : Nat} : w.pairs n i i' → SameSearch w (.found i) (.found i')
  | unbound : SameSearch w .unbound .unbound
  | tooFar {search : Store.Search} : SameSearch w .tooFar search

namespace Store.Renames

variable {extra : Nat} {w : Renaming} {s s' : Store}

theorem lt_of_pairs (h : s.Renames extra w s') {n i i' : Nat} (hp : w.pairs n i i') :
    i < s.scopes.size ∧ i' < s'.scopes.size := by
  obtain ⟨x, x', hx, hx', -⟩ := h.pairs hp
  exact ⟨(Array.getElem?_eq_some_iff.mp hx).1, (Array.getElem?_eq_some_iff.mp hx').1⟩

theorem lt_of_left (h : s.Renames extra w s') {i p : Nat} (hl : w.left i p) :
    i < s.scopes.size := (Array.getElem?_eq_some_iff.mp (h.left hl).1).1

theorem lt_of_right (h : s.Renames extra w s') {i' p' : Nat} (hr : w.right i' p') :
    i' < s'.scopes.size := (Array.getElem?_eq_some_iff.mp (h.right hr)).1

theorem lt_of_alike (h : s.Renames extra w s') {k i i' : Nat} (ha : w.Alike k i i') :
    i < s.scopes.size := by
  induction ha with
  | pair hp _ => exact (h.lt_of_pairs hp).1
  | left hl _ _ => exact h.lt_of_left hl
  | right _ _ ih => exact ih

theorem closure? (h : s.Renames extra w s') (place : Nat) :
    Option.Rel (Closure.Renames extra w) s.closures[place]? s'.closures[place]? :=
  forall₂_getElem? h.closures place

/-- The first of the stores speaks of its own scopes only. -/
theorem closed (h : s.Renames extra w s') : s.Closed := by
  refine ⟨?_, fun {i outer names} hx => ?_, fun {place closure} hc => ?_⟩
  · obtain ⟨n, hp⟩ := h.outermost
    exact (h.lt_of_pairs hp).1
  · rcases h.covers (Array.getElem?_eq_some_iff.mp hx).1 with ⟨n, i', hp⟩ | ⟨p, hl⟩
    · obtain ⟨x, x', hx₁, -, -, hparents⟩ := h.pairs hp
      cases hx.symm.trans hx₁
      generalize x'.parent = parent' at hparents
      cases hparents with
      | some ha => exact h.lt_of_alike ha
    · obtain ⟨hx₁, hlt⟩ := h.left hl
      cases hx.symm.trans hx₁
      exact hlt
  · have hrel := h.closure? place
    rw [hc] at hrel
    generalize s'.closures[place]? = closure'? at hrel
    cases hrel with
    | some hcl => exact h.lt_of_alike hcl.scope

/-- A store that speaks of its own scopes only is the same as itself. -/
theorem identity (h : s.Closed) : s.Renames extra (.identity s) s where
  outermost := ⟨0, rfl, h.outermost⟩
  pairs := by
    rintro n i i' ⟨rfl, hi⟩
    have hx : s.scopes[i]? = some s.scopes[i] := Array.getElem?_eq_getElem hi
    refine ⟨s.scopes[i], s.scopes[i], hx, hx, rfl, ?_⟩
    generalize s.scopes[i] = x at hx
    obtain ⟨_ | outer, names⟩ := x
    · exact .none
    · exact .some (Renaming.alike_identity (h.parents hx) n)
  left := nofun
  right := nofun
  unique := by
    rintro n k i i' j j' ⟨rfl, -⟩ ⟨rfl, -⟩
    exact Iff.rfl
  apartLeft := nofun
  apartRight := nofun
  covers := fun {i} hi => .inl ⟨0, i, rfl, hi⟩
  arrays := rfl
  closures := List.forall₂_same.mpr fun closure hc => by
    obtain ⟨place, hplace, rfl⟩ := Array.getElem_of_mem (Array.mem_toList_iff.mp hc)
    have hscope := h.closures (Array.getElem?_eq_getElem hplace)
    exact ⟨rfl, rfl, rfl, Renaming.alike_identity hscope extra⟩

end Store.Renames

theorem Machine.Renames.identity {extra : Nat} {m : Machine} (h : m.store.Closed) :
    m.Renames extra (.identity m.store) m := ⟨.identity h, rfl, rfl, rfl⟩

namespace Store.Renames

variable {extra : Nat} {w : Renaming} {s s' : Store}

/-! ## What the stores tell -/

theorem own? (h : s.Renames extra w s') {n i i' : Nat} (hp : w.pairs n i i') (name : Name) :
    s.own? i name = s'.own? i' name := by
  obtain ⟨x, x', hx, hx', hnames, -⟩ := h.pairs hp
  simp only [Store.own?, hx, hx', Option.bind_eq_bind, Option.bind_some, hnames]

theorem owns (h : s.Renames extra w s') {n i i' : Nat} (hp : w.pairs n i i') (name : Name) :
    s.owns name i = s'.owns name i' := by
  obtain ⟨x, x', hx, hx', hnames, -⟩ := h.pairs hp
  simp only [Store.owns, hx, hx', hnames]

theorem elements (h : s.Renames extra w s') (place : Nat) : s.elements place = s'.elements place := by
  rw [Store.elements, h.arrays]
  rfl

/-- A name is found in scopes that stand for each other. -/
theorem search (h : s.Renames extra w s') {k i i' room room' : Nat} (ha : w.Alike k i i')
    (hr : 0 < room → room + k ≤ room') (name : Name) :
    SameSearch w (s.search room i name) (s'.search room' i' name) := by
  -- An empty scope is passed by one of the searches only, so the sum of the rooms is what shrinks.
  induction hsum : room + room' using Nat.strongRecOn generalizing k i i' room room' with
  | ind sum ih =>
    cases room with
    | zero => exact .tooFar
    | succ room =>
      cases ha with
      | @pair n _ _ _ hp hn =>
        obtain ⟨room', rfl⟩ : ∃ r, room' = r + 1 := ⟨room' - 1, by omega⟩
        have hsame := h.owns hp name
        cases howns : s.owns name i with
        | true =>
          rw [search_own howns, search_own (hsame.symm.trans howns)]
          exact .found hp
        | false =>
          obtain ⟨⟨parent, names⟩, ⟨parent', names'⟩, hx, hx', -, hparents⟩ := h.pairs hp
          cases hparents with
          | none =>
            rw [search_end hx howns, search_end hx' (hsame.symm.trans howns)]
            by_cases hroom : 0 < room
            · rw [if_pos hroom, if_pos (by omega)]
              exact .unbound
            · rw [if_neg hroom]
              exact .tooFar
          | some houter =>
            rw [search_outer hx howns, search_outer hx' (hsame.symm.trans howns)]
            exact ih _ (by omega) houter (by omega) rfl
      | left hl houter =>
        have hx := (h.left hl).1
        rw [search_outer hx (by rw [Store.owns, hx]; rfl)]
        exact ih _ (by omega) houter (by omega) rfl
      | right hr' houter =>
        obtain ⟨room', rfl⟩ : ∃ r, room' = r + 1 := ⟨room' - 1, by omega⟩
        have hx' := h.right hr'
        rw [@search_outer s' _ _ _ _ hx' (by rw [Store.owns, hx']; rfl)]
        exact ih _ (by omega) houter (by omega) rfl

/-- A text that is built within some room is the same within more. -/
theorem text? (h : s.Renames extra w s') {room room' : Nat} (hr : room ≤ room') {value : Value}
    {text : String} (ht : s.text? room value = some text) : s'.text? room' value = some text :=
  Store.text?_more h.elements (closureNames_eq Closure.Renames.name h.closures) hr ht

/-- What is told of two values within some room is the same within more. -/
theorem equal? (h : s.Renames extra w s') {room room' : Nat} (hr : room ≤ room') {a b : Value}
    {result : Bool} (he : s.equal? room a b = some result) :
    s'.equal? room' a b = some result := Store.equal?_more h.elements hr he

/-! ## Changes -/

theorem newArray (h : s.Renames extra w s') (elements : Array Value) :
    (s.newArray elements).1 = (s'.newArray elements).1 ∧
      (s.newArray elements).2.Renames extra w (s'.newArray elements).2 := by
  simp only [Store.newArray, h.arrays, true_and]
  exact { h with arrays := rfl }

theorem setElement (h : s.Renames extra w s') (array index : Nat) (value : Value) :
    (s.setElement array index value).Renames extra w (s'.setElement array index value) :=
  { h with arrays := by simp only [Store.setElement, h.arrays] }

theorem pushElement (h : s.Renames extra w s') (array : Nat) (value : Value) :
    (s.pushElement array value).Renames extra w (s'.pushElement array value) :=
  { h with arrays := by simp only [Store.pushElement, h.arrays] }

/-- A name is bound in scopes that stand for each other. -/
theorem define (h : s.Renames extra w s') {n i i' : Nat} (hp : w.pairs n i i') (name : Name)
    (value : Value) : (s.define i name value).Renames extra w (s'.define i' name value) := by
  refine { h with pairs := ?_, left := ?_, right := ?_, covers := ?_ }
  · intro k j j' hj
    obtain ⟨x, x', hx, hx', hnames, hparents⟩ := h.pairs hj
    have hsame := h.unique hp hj
    by_cases hij : i = j
    · refine ⟨{ x with names := Fields.put x.names name value },
        { x' with names := Fields.put x'.names name value }, ?_, ?_, ?_, hparents⟩
      · simp [Store.define, Array.getElem?_modify, hij, hx]
      · simp [Store.define, Array.getElem?_modify, hsame.mp hij, hx']
      · simp only [hnames]
    · refine ⟨x, x', ?_, ?_, hnames, hparents⟩
      · simp [Store.define, Array.getElem?_modify, hij, hx]
      · simp [Store.define, Array.getElem?_modify, mt hsame.mpr hij, hx']
  · intro j p hj
    simpa [Store.define, Array.getElem?_modify, h.apartLeft hp hj] using h.left hj
  · intro j' p' hj
    simpa [Store.define, Array.getElem?_modify, h.apartRight hp hj] using h.right hj
  · intro j hj
    exact h.covers (by simpa [Store.define] using hj)

theorem newClosure (h : s.Renames extra w s') {c c' : Closure} (hc : c.Renames extra w c') :
    (s.newClosure c).1 = (s'.newClosure c').1 ∧
      (s.newClosure c).2.Renames extra w (s'.newClosure c').2 := by
  have hsize : s.closures.size = s'.closures.size := h.closures.length_eq
  refine ⟨by simp only [Store.newClosure, hsize], { h with closures := ?_ }⟩
  simp only [Store.newClosure, Array.toList_push]
  exact List.rel_append h.closures (.cons hc .nil)

/-! ### More scopes -/

section

variable (h : s.Renames extra w s') {w' : Renaming} (hw : w.Extends w')
include h hw

/-- What is known of scopes that stand for each other is still known when there are more. -/
theorem pairs_kept {t t' : Store} (ht : ∀ {i : Nat} {x}, s.scopes[i]? = some x → t.scopes[i]? = some x)
    (ht' : ∀ {i : Nat} {x}, s'.scopes[i]? = some x → t'.scopes[i]? = some x) {n i i' : Nat}
    (hp : w.pairs n i i') : ∃ x x', t.scopes[i]? = some x ∧ t'.scopes[i']? = some x' ∧
      x.names = x'.names ∧ Option.Rel (w'.Alike n) x.parent x'.parent := by
  obtain ⟨x, x', hx, hx', hnames, hparents⟩ := h.pairs hp
  exact ⟨x, x', ht hx, ht' hx', hnames, Renaming.parents_extend hparents hw⟩

theorem closures_kept :
    List.Forall₂ (Closure.Renames extra w') s.closures.toList s'.closures.toList :=
  h.closures.imp fun _ _ hc => ⟨hc.name, hc.params, hc.body, hc.scope.extend hw⟩

end

/-- Two new scopes stand for each other if the scopes around them do. -/
theorem newScope (h : s.Renames extra w s') {n : Nat} {parent parent' : Option Nat}
    (hparents : Option.Rel (w.Alike n) parent parent') :
    (s.newScope parent).2.Renames extra (w.pair n (s.newScope parent).1 (s'.newScope parent').1)
      (s'.newScope parent').2 where
  outermost := h.outermost.imp fun _ => .inl
  pairs := by
    rintro k j j' (hj | ⟨rfl, rfl, rfl⟩)
    · exact h.pairs_kept (w.extends_pair ..) (Grows.push_keeps · _) (Grows.push_keeps · _) hj
    · exact ⟨⟨parent, []⟩, ⟨parent', []⟩, Array.getElem?_push_size, Array.getElem?_push_size, rfl,
        Renaming.parents_extend hparents (w.extends_pair ..)⟩
  left := fun {i p} hl => by
    obtain ⟨hx, hlt⟩ := h.left hl
    exact ⟨Grows.push_keeps hx _, by simp only [Store.newScope, Array.size_push]; omega⟩
  right := fun hr => Grows.push_keeps (h.right hr) _
  unique := by
    rintro n₁ n₂ i i' j j' (hi | ⟨-, rfl, rfl⟩) (hj | ⟨-, rfl, rfl⟩)
    · exact h.unique hi hj
    · have := h.lt_of_pairs hi
      simp only [Store.newScope]
      omega
    · have := h.lt_of_pairs hj
      simp only [Store.newScope]
      omega
    · simp only
  apartLeft := by
    rintro k i i' j p (hi | ⟨-, rfl, rfl⟩) hl
    · exact h.apartLeft hi hl
    · exact Nat.ne_of_gt (h.lt_of_left hl)
  apartRight := by
    rintro k i i' j' p' (hi | ⟨-, rfl, rfl⟩) hr
    · exact h.apartRight hi hr
    · exact Nat.ne_of_gt (h.lt_of_right hr)
  covers := fun {i} hi => by
    by_cases hold : i < s.scopes.size
    · rcases h.covers hold with ⟨k, i', hp⟩ | hl
      · exact .inl ⟨k, i', .inl hp⟩
      · exact .inr hl
    · simp only [Store.newScope, Array.size_push] at hi
      exact .inl ⟨n, s'.scopes.size, .inr ⟨rfl, by simp only [Store.newScope]; omega, rfl⟩⟩
  arrays := h.arrays
  closures := h.closures_kept (w.extends_pair ..)

/-- A new scope of the first store only. -/
theorem newLeft (h : s.Renames extra w s') {p : Nat} (hp : p < s.scopes.size) :
    (s.newScope (some p)).2.Renames extra (w.insertLeft (s.newScope (some p)).1 p) s' where
  outermost := h.outermost
  pairs := h.pairs_kept (w.extends_insertLeft ..) (Grows.push_keeps · _) id
  left := by
    rintro j q (hj | ⟨rfl, rfl⟩)
    · obtain ⟨hx, hlt⟩ := h.left hj
      exact ⟨Grows.push_keeps hx _, by simp only [Store.newScope, Array.size_push]; omega⟩
    · exact ⟨Array.getElem?_push_size, by simp only [Store.newScope, Array.size_push]; omega⟩
  right := h.right
  unique := h.unique
  apartLeft := by
    rintro n i i' j q hi (hj | ⟨rfl, -⟩)
    · exact h.apartLeft hi hj
    · exact Nat.ne_of_lt (h.lt_of_pairs hi).1
  apartRight := h.apartRight
  covers := fun {i} hi => by
    by_cases hold : i < s.scopes.size
    · rcases h.covers hold with hp | ⟨q, hl⟩
      · exact .inl hp
      · exact .inr ⟨q, .inl hl⟩
    · simp only [Store.newScope, Array.size_push] at hi
      exact .inr ⟨p, .inr ⟨by simp only [Store.newScope]; omega, rfl⟩⟩
  arrays := h.arrays
  closures := h.closures_kept (w.extends_insertLeft ..)

/-- A new scope of the second store only. -/
theorem newRight (h : s.Renames extra w s') (p' : Nat) :
    s.Renames extra (w.insertRight (s'.newScope (some p')).1 p') (s'.newScope (some p')).2 where
  outermost := h.outermost
  pairs := h.pairs_kept (w.extends_insertRight ..) id (Grows.push_keeps · _)
  left := h.left
  right := by
    rintro j' q' (hj | ⟨rfl, rfl⟩)
    · exact Grows.push_keeps (h.right hj) _
    · exact Array.getElem?_push_size
  unique := h.unique
  apartLeft := h.apartLeft
  apartRight := by
    rintro n i i' j' q' hi (hj | ⟨rfl, -⟩)
    · exact h.apartRight hi hj
    · exact Nat.ne_of_lt (h.lt_of_pairs hi).2
  covers := h.covers
  arrays := h.arrays
  closures := h.closures_kept (w.extends_insertRight ..)

end Store.Renames

end GameScript
