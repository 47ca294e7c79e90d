import GameScript.Machine.Basic
import GameScript.Proofs.Confinement.Store
import GameScript.Proofs.Regrouping.Store

/-! # The spots of a store

What can be written is a spot: a name that a scope binds, or an element of an array. Writing one of
them leaves all others as they are. While a store grows, a name that was found is still found in the
same scope, and an element that was there still is. -/

namespace GameScript

/-- Something that holds a value: a name in a scope, or an element of an array. -/
inductive Spot where
  | binding (scope : Nat) (name : Name)
  | slot (array index : Nat)
  deriving DecidableEq

namespace Store

/-- The value that a spot holds. -/
def at? (s : Store) : Spot → Option Value
  | .binding scope name => s.own? scope name
  | .slot array index => (s.elements array)[index]?

/-- The store with another value in a spot. -/
def put (s : Store) (value : Value) : Spot → Store
  | .binding scope name => s.define scope name value
  | .slot array index => s.setElement array index value

theorem own?_define_self {s : Store} {scope : Nat} {name : Name} (h : (s.own? scope name).isSome)
    (value : Value) : (s.define scope name value).own? scope name = some value := by
  cases hx : s.scopes[scope]? with
  | none => simp [own?, hx] at h
  | some x => simp [own?, define, Array.getElem?_modify, hx, Fields.get?_put_self]

theorem own?_define_of_ne (s : Store) {owner scope : Nat} {name other : Name}
    (h : scope ≠ owner ∨ other ≠ name) (value : Value) :
    (s.define owner name value).own? scope other = s.own? scope other := by
  by_cases hscope : scope = owner
  · subst hscope
    have hname := h.resolve_left (fun hne => hne rfl)
    cases hx : s.scopes[scope]? with
    | none => simp [own?, define, Array.getElem?_modify, hx]
    | some x => simp [own?, define, Array.getElem?_modify, hx, Fields.get?_put_of_ne _ _ hname]
  · simp [own?, define, Array.getElem?_modify, Ne.symm hscope]

theorem elements_setElement (s : Store) (array other index : Nat) (value : Value) :
    (s.setElement array index value).elements other =
      if other = array then (s.elements array).setIfInBounds index value else s.elements other := by
  by_cases h : other = array
  · subst h
    cases hx : s.arrays[other]? <;> simp [elements, setElement, Array.getElem?_modify, hx]
  · simp [elements, setElement, Array.getElem?_modify, h, Ne.symm h]

theorem at?_put_self {s : Store} {spot : Spot} (h : (s.at? spot).isSome) (value : Value) :
    (s.put value spot).at? spot = some value := by
  cases spot with
  | binding scope name => exact own?_define_self h value
  | slot array index =>
    have hlt : index < (s.elements array).size := by simpa [at?] using h
    simp only [at?, put, elements_setElement, if_true]
    exact Array.getElem?_setIfInBounds_self_of_lt hlt

/-- Writing a spot leaves all others alone. -/
theorem at?_put_of_ne (s : Store) {spot other : Spot} (h : other ≠ spot) (value : Value) :
    (s.put value spot).at? other = s.at? other := by
  cases spot with
  | binding owner name =>
    cases other with
    | binding scope name' =>
      refine s.own?_define_of_ne ?_ value
      by_contra hsame
      exact h (by simp_all)
    | slot => rfl
  | slot array index =>
    cases other with
    | binding => rfl
    | slot array' index' =>
      simp only [at?, put, elements_setElement]
      split
      · next hsame =>
        subst hsame
        refine Array.getElem?_setIfInBounds_ne fun hi => h ?_
        rw [hi]
      · rfl

/-! ## Growing -/

theorem search_eq_found {s : Store} {room scope owner : Nat} {name : Name} :
    s.search room scope name = .found owner ↔
      (s.chainWithin room scope).find? (s.owns name) = some owner := by
  unfold search
  dsimp only
  split
  · next found hfound => rw [hfound, Search.found.injEq, Option.some.injEq]
  · next hnone =>
    rw [hnone]
    split <;> simp

/-- A scope that owns a name has a value for it. -/
theorem isSome_own? {s : Store} {scope : Nat} {name : Name} (h : s.owns name scope = true) :
    (s.own? scope name).isSome := by
  unfold owns at h
  split at h
  · next x hx => simpa [own?, hx, Fields.has] using h
  · cases h

theorem Grows.elements_size {gain : Gain} {s s' : Store} (h : s.Grows gain s') (array : Nat) :
    (s.elements array).size ≤ (s'.elements array).size := by
  unfold elements
  cases hx : s.arrays[array]? with
  | none => exact Nat.zero_le _
  | some elements =>
    obtain ⟨elements', hx', hsize⟩ := h.arrays hx
    rw [hx']
    exact hsize

namespace Grows

variable {s s' : Store} (h : s.Grows .nothing s')
include h

theorem owns_of_some {scope : Nat} {x : Scope} (hx : s.scopes[scope]? = some x) (name : Name) :
    s'.owns name scope = s.owns name scope := by
  obtain ⟨x', hx', -, gained, hnames, hnone⟩ := h.scopes hx
  have hnil : gained = [] := List.eq_nil_iff_forall_not_mem.2 hnone
  rw [hnil, List.append_nil] at hnames
  rw [owns, owns, hx, hx', Bool.eq_iff_iff, Fields.has_iff, Fields.has_iff, hnames]

/-- A name that is found stays where it is, as no scope gains one. -/
theorem found {room scope owner : Nat} {name : Name} (hs : s.search room scope name = .found owner) :
    s'.search room scope name = .found owner := by
  rw [search_eq_found] at hs ⊢
  induction room generalizing scope with
  | zero => cases hs
  | succ room ih =>
    cases hx : s.scopes[scope]? with
    | none =>
      have hnot : s.owns name scope = false := by rw [owns, hx]
      simp [chainWithin, hx, hnot] at hs
    | some x =>
      obtain ⟨x', hx', hparent, -⟩ := h.scopes hx
      obtain ⟨parent, names⟩ := x
      obtain ⟨parent', names'⟩ := x'
      cases hparent
      rw [chainWithin, hx, List.find?_cons] at hs
      rw [chainWithin, hx', List.find?_cons, h.owns_of_some hx]
      cases howns : s.owns name scope with
      | true => rwa [howns] at hs
      | false =>
        rw [howns] at hs
        cases parent with
        | none => cases hs
        | some outer => exact ih hs

end Grows

/-- A name that is found within some room is found within more; within less it can be too far. -/
theorem search_within {s : Store} {room scope owner : Nat} {name : Name}
    (hs : s.search room scope name = .found owner) (room' : Nat) :
    s.search room' scope name = .found owner ∨
      room' < room ∧ s.search room' scope name = .tooFar := by
  have same := Resembles.refl s
  by_cases hr : room ≤ room'
  · rcases same.search hr scope name with hfar | hfound
    · rw [hs] at hfar
      cases hfar
    · exact .inl (hfound.trans hs)
  · rcases same.search (Nat.le_of_not_le hr) scope name with hfar | hfound
    · exact .inr ⟨Nat.lt_of_not_le hr, hfar⟩
    · exact .inl (hfound.symm.trans hs)

end Store

/-- A machine that differs from another one in a spot and in nothing else. -/
structure Machine.Writes (spot : Spot) (value : Value) (m m' : Machine) : Prop where
  held : (m.store.at? spot).isSome
  written : m'.store.at? spot = some value
  kept : ∀ other, other ≠ spot → m'.store.at? other = m.store.at? other
  rest : m' = { m with store := m.store.put value spot }

theorem Machine.writes_put {m : Machine} {spot : Spot} (h : (m.store.at? spot).isSome)
    (value : Value) : m.Writes spot value { m with store := m.store.put value spot } :=
  ⟨h, Store.at?_put_self h value, fun _ hne => m.store.at?_put_of_ne hne value, rfl⟩

end GameScript
