import GameScript.Machine.Basic
import GameScript.Proofs.Regrouping.Tree
import GameScript.Proofs.Steps

/-! # Stores whose functions have other groupings

Such stores tell the same of all values, and stay such under every change. What one of them tells
within some room, the other one tells within the same room or more. -/

namespace GameScript

open Node (SameParts)

variable {S : Node → Node → Prop}

/-- The same function but for groupings. -/
structure Closure.Resembles (S : Node → Node → Prop) (c c' : Closure) : Prop where
  name : c.name = c'.name
  params : c.params = c'.params
  body : SameParts S c.body c'.body
  scope : c.scope = c'.scope

/-- The same store but for groupings in functions. -/
structure Store.Resembles (S : Node → Node → Prop) (s s' : Store) : Prop where
  scopes : s.scopes = s'.scopes
  arrays : s.arrays = s'.arrays
  closures : List.Forall₂ (Closure.Resembles S) s.closures.toList s'.closures.toList

/-- The same machine but for groupings in functions and the trace. -/
structure Machine.Resembles (S : Node → Node → Prop) (m m' : Machine) : Prop where
  store : m.store.Resembles S m'.store
  input : m.input = m'.input
  output : m.output = m'.output
  clock : m.clock = m'.clock

theorem Store.Resembles.refl (s : Store) : s.Resembles Eq s :=
  ⟨rfl, rfl, List.forall₂_same.mpr fun closure _ =>
    ⟨rfl, rfl, Regrouping.sameParts_same (fun _ => rfl) closure.body, rfl⟩⟩

theorem Machine.Resembles.refl (m : Machine) : m.Resembles Eq m :=
  ⟨.refl m.store, rfl, rfl, rfl⟩

section

variable {S' S'' : Node → Node → Prop} (hS : ∀ a b c, S a b → S' b c → S'' a c)
include hS

theorem Closure.Resembles.trans {c c' c'' : Closure} (h : c.Resembles S c')
    (h' : c'.Resembles S' c'') : c.Resembles S'' c'' :=
  ⟨h.name.trans h'.name, h.params.trans h'.params, h.body.trans hS h'.body, h.scope.trans h'.scope⟩

theorem Store.Resembles.trans {s s' s'' : Store} (h : s.Resembles S s')
    (h' : s'.Resembles S' s'') : s.Resembles S'' s'' :=
  ⟨h.scopes.trans h'.scopes, h.arrays.trans h'.arrays,
    forall₂_trans (fun _ _ _ hc hc' => hc.trans hS hc') h.closures h'.closures⟩

theorem Machine.Resembles.trans {m m' m'' : Machine} (h : m.Resembles S m')
    (h' : m'.Resembles S' m'') : m.Resembles S'' m'' :=
  ⟨h.store.trans hS h'.store, h.input.trans h'.input, h.output.trans h'.output,
    h.clock.trans h'.clock⟩

end

section

variable (hS : ∀ a b, S a b → S b a)
include hS

theorem Closure.Resembles.symm {c c' : Closure} (h : c.Resembles S c') : c'.Resembles S c :=
  ⟨h.name.symm, h.params.symm, h.body.symm hS, h.scope.symm⟩

theorem Store.Resembles.symm {s s' : Store} (h : s.Resembles S s') : s'.Resembles S s :=
  ⟨h.scopes.symm, h.arrays.symm, (h.closures.imp fun _ _ hc => hc.symm hS).flip⟩

theorem Machine.Resembles.symm {m m' : Machine} (h : m.Resembles S m') : m'.Resembles S m :=
  ⟨h.store.symm hS, h.input.symm, h.output.symm, h.clock.symm⟩

end

theorem Machine.Resembles.withLog {m m' : Machine} (h : m.Resembles S m')
    (log log' : Array Trace.Entry) :
    Machine.Resembles S { m with log } { m' with log := log' } :=
  ⟨h.store, h.input, h.output, h.clock⟩

/-! ## Chains of scopes -/

theorem mapM_some {α β : Type} {f g : α → Option β} (h : ∀ {a b}, f a = some b → g a = some b)
    {as : List α} {bs : List β} (hs : as.mapM f = some bs) : as.mapM g = some bs := by
  induction as generalizing bs with
  | nil => exact hs
  | cons a as ih =>
    simp only [List.mapM_cons, Option.bind_eq_bind, Option.bind_eq_some_iff] at hs ⊢
    obtain ⟨b, hb, bs', hbs, he⟩ := hs
    exact ⟨b, h hb, bs', ih hbs, he⟩

theorem Store.chainWithin_prefix (s : Store) {room room' : Nat} (h : room ≤ room') (scope : Nat) :
    s.chainWithin room scope <+: s.chainWithin room' scope := by
  induction room generalizing room' scope with
  | zero => exact List.nil_prefix
  | succ room ih =>
    obtain ⟨room', rfl⟩ : ∃ n, room' = n + 1 := ⟨room' - 1, by omega⟩
    rw [chainWithin, chainWithin, List.prefix_cons_inj]
    split
    · exact ih (by omega) _
    · exact List.prefix_rfl

/-- A chain that ends within some room is not longer within more. -/
theorem Store.chainWithin_eq (s : Store) {room room' : Nat} (h : room ≤ room') {scope : Nat}
    (hend : (s.chainWithin room scope).length < room) :
    s.chainWithin room' scope = s.chainWithin room scope := by
  induction room generalizing room' scope with
  | zero => exact absurd hend (Nat.not_lt_zero _)
  | succ room ih =>
    obtain ⟨room', rfl⟩ : ∃ n, room' = n + 1 := ⟨room' - 1, by omega⟩
    rw [chainWithin, List.length_cons] at hend
    rw [chainWithin, chainWithin]
    split at hend
    · rw [ih (by omega) (by omega)]
    · rfl

/-! ## Texts and comparisons -/

/-- Related arrays hold related items at every place. -/
theorem forall₂_getElem? {α β : Type} {R : α → β → Prop} {as : Array α} {bs : Array β}
    (h : List.Forall₂ R as.toList bs.toList) (place : Nat) :
    Option.Rel R as[place]? bs[place]? := by
  rw [← Array.getElem?_toList, ← Array.getElem?_toList]
  generalize as.toList = xs at h
  generalize bs.toList = ys at h
  induction h generalizing place with
  | nil => exact .none
  | cons hc _ ih =>
    cases place with
    | zero => exact .some hc
    | succ place => exact ih place

/-- Related functions have the same names at every place. -/
theorem closureNames_eq {R : Closure → Closure → Prop} (hR : ∀ {c c'}, R c c' → c.name = c'.name)
    {closures closures' : Array Closure} (h : List.Forall₂ R closures.toList closures'.toList)
    (place : Nat) :
    closures[place]?.map (·.name.text) = closures'[place]?.map (·.name.text) := by
  have hrel := forall₂_getElem? h place
  generalize closures[place]? = closure? at hrel
  generalize closures'[place]? = closure'? at hrel
  cases hrel with
  | none => rfl
  | some hc => simp only [Option.map_some, hR hc]

section

variable {s s' : Store} (harrays : ∀ place, s.elements place = s'.elements place)
include harrays

/-- A text that is built within some room is the same within more, from the same arrays and names of
functions. -/
theorem Store.text?_more
    (hnames : ∀ place : Nat,
      s.closures[place]?.map (·.name.text) = s'.closures[place]?.map (·.name.text))
    {room room' : Nat} (hr : room ≤ room') {value : Value} {text : String}
    (ht : s.text? room value = some text) : s'.text? room' value = some text := by
  induction room using room_induction generalizing room' value text with
  | zero | one | two => cases ht
  | more room ih =>
    obtain ⟨room', rfl⟩ : ∃ n, room' = n + 3 := ⟨room' - 3, by omega⟩
    cases value with
    | array place =>
      simp only [Store.text?, ← harrays, Option.bind_eq_bind, Option.bind_eq_some_iff] at ht ⊢
      obtain ⟨parts, hparts, he⟩ := ht
      exact ⟨parts, mapM_some (ih (by omega)) hparts, he⟩
    | function place => simpa only [Store.text?, hnames] using ht
    | _ => exact ht

/-- What is told of two values within some room is the same within more, from the same arrays. -/
theorem Store.equal?_more {room room' : Nat} (hr : room ≤ room') {a b : Value} {result : Bool}
    (he : s.equal? room a b = some result) : s'.equal? room' a b = some result := by
  induction room using room_induction generalizing room' a b result with
  | zero | one | two => cases he
  | more room ih =>
    obtain ⟨room', rfl⟩ : ∃ n, room' = n + 3 := ⟨room' - 3, by omega⟩
    have hinner {a b : Value} {result : Bool} :
        s.equal? room a b = some result → s'.equal? room' a b = some result :=
      ih (by omega)
    have hall {xs ys : List Value} {result : Bool} :
        allEqual? (s.equal? room) xs ys = some result →
          allEqual? (s'.equal? room') xs ys = some result := by
      intro hxy
      induction xs generalizing ys with
      | nil => exact hxy
      | cons x xs ihx =>
        cases ys with
        | nil => exact hxy
        | cons y ys =>
          simp only [allEqual?, Option.bind_eq_bind, Option.bind_eq_some_iff] at hxy ⊢
          obtain ⟨same, hsame, hrest⟩ := hxy
          refine ⟨same, hinner hsame, ?_⟩
          cases same with
          | true => exact ihx hrest
          | false => exact hrest
    cases a <;> cases b <;> try exact he
    simp only [Store.equal?, ← harrays] at he ⊢
    split at he
    · rwa [if_pos ‹_›]
    · rw [if_neg ‹_›]
      split at he
      · rwa [if_pos ‹_›]
      · rw [if_neg ‹_›]
        exact hall he

end

namespace Store.Resembles

variable {s s' : Store}

theorem closure? (h : s.Resembles S s') (place : Nat) :
    Option.Rel (Closure.Resembles S) s.closures[place]? s'.closures[place]? :=
  forall₂_getElem? h.closures place

theorem elements (h : s.Resembles S s') (place : Nat) : s.elements place = s'.elements place := by
  rw [Store.elements, h.arrays]
  rfl

theorem owns (h : s.Resembles S s') (name : Name) : s.owns name = s'.owns name := by
  funext scope
  rw [Store.owns, h.scopes]
  rfl

theorem own? (h : s.Resembles S s') (scope : Nat) (name : Name) :
    s.own? scope name = s'.own? scope name := by
  rw [Store.own?, h.scopes]
  rfl

theorem chainWithin (h : s.Resembles S s') (room scope : Nat) :
    s.chainWithin room scope = s'.chainWithin room scope := by
  induction room generalizing scope with
  | zero => rfl
  | succ room ih =>
    rw [Store.chainWithin, Store.chainWithin, h.scopes]
    simp only [ih]

/-- More room does not change what a search finds. -/
theorem search (h : s.Resembles S s') {room room' : Nat} (hr : room ≤ room') (scope : Nat)
    (name : Name) : s.search room scope name = .tooFar ∨
      s'.search room' scope name = s.search room scope name := by
  unfold Store.search
  rw [← h.owns, ← h.chainWithin]
  dsimp only
  cases hfind : (s.chainWithin room scope).find? (s.owns name) with
  | some owner =>
    have hfind' := (s.chainWithin_prefix hr scope).find?_eq_some hfind
    exact .inr (by rw [hfind'])
  | none =>
    by_cases hend : (s.chainWithin room scope).length < room
    · have hlong : (s.chainWithin room scope).length < room' := by omega
      exact .inr (by rw [s.chainWithin_eq hr hend, hfind, if_pos hend, if_pos hlong])
    · exact .inl (if_neg hend)

/-- A text that is built within some room is the same within more. -/
theorem text? (h : s.Resembles S s') {room room' : Nat} (hr : room ≤ room') {value : Value}
    {text : String} (ht : s.text? room value = some text) : s'.text? room' value = some text :=
  Store.text?_more h.elements (closureNames_eq Closure.Resembles.name h.closures) hr ht

/-- What is told of two values within some room is the same within more. -/
theorem equal? (h : s.Resembles S s') {room room' : Nat} (hr : room ≤ room') {a b : Value}
    {result : Bool} (he : s.equal? room a b = some result) :
    s'.equal? room' a b = some result := Store.equal?_more h.elements hr he

/-! ## Changes -/

theorem define (h : s.Resembles S s') (scope : Nat) (name : Name) (value : Value) :
    (s.define scope name value).Resembles S (s'.define scope name value) := by
  refine ⟨?_, h.arrays, h.closures⟩
  rw [Store.define, h.scopes]
  rfl

theorem newScope (h : s.Resembles S s') (parent : Option Nat) :
    (s.newScope parent).1 = (s'.newScope parent).1 ∧
      (s.newScope parent).2.Resembles S (s'.newScope parent).2 := by
  simp only [Store.newScope, h.scopes, true_and]
  exact ⟨rfl, h.arrays, h.closures⟩

theorem newArray (h : s.Resembles S s') (elements : Array Value) :
    (s.newArray elements).1 = (s'.newArray elements).1 ∧
      (s.newArray elements).2.Resembles S (s'.newArray elements).2 := by
  simp only [Store.newArray, h.arrays, true_and]
  exact ⟨h.scopes, rfl, h.closures⟩

theorem newClosure (h : s.Resembles S s') {c c' : Closure} (hc : c.Resembles S c') :
    (s.newClosure c).1 = (s'.newClosure c').1 ∧
      (s.newClosure c).2.Resembles S (s'.newClosure c').2 := by
  have hsize : s.closures.size = s'.closures.size := h.closures.length_eq
  refine ⟨by simp only [Store.newClosure, hsize], h.scopes, h.arrays, ?_⟩
  simp only [Store.newClosure, Array.toList_push]
  exact List.rel_append h.closures (.cons hc .nil)

theorem setElement (h : s.Resembles S s') (array index : Nat) (value : Value) :
    (s.setElement array index value).Resembles S (s'.setElement array index value) := by
  refine ⟨h.scopes, ?_, h.closures⟩
  rw [Store.setElement, h.arrays]
  rfl

theorem pushElement (h : s.Resembles S s') (array : Nat) (value : Value) :
    (s.pushElement array value).Resembles S (s'.pushElement array value) := by
  refine ⟨h.scopes, ?_, h.closures⟩
  rw [Store.pushElement, h.arrays]
  rfl

end Store.Resembles

end GameScript
