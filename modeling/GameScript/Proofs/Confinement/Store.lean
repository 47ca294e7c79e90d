import GameScript.Store

/-! # Stores that grow

A store that grows keeps what it has: every scope with its parent and its names, every function as it
was declared, and every array with at least as many elements. Which scope may gain which names is a
parameter. -/

namespace GameScript

/-- Which names the scopes may gain. -/
abbrev Gain := Nat → Name → Prop

/-- No scope gains a name. -/
def Gain.nothing : Gain := fun _ _ => False

/-- One scope gains any names. -/
def Gain.only (scope : Nat) : Gain := fun i _ => i = scope

/-- One store after another. All that was there is still there: scopes have the same parents, and the
same names with perhaps some after them that may be gained; functions are the same; arrays have not
got shorter. -/
structure Store.Grows (gain : Gain) (s s' : Store) : Prop where
  scopes : ∀ {i : Nat} {x : Scope}, s.scopes[i]? = some x → ∃ x', s'.scopes[i]? = some x' ∧
    x'.parent = x.parent ∧ ∃ gained, Fields.names x'.names = Fields.names x.names ++ gained ∧
      ∀ name ∈ gained, gain i name
  closures : ∀ {i : Nat} {closure : Closure}, s.closures[i]? = some closure →
    s'.closures[i]? = some closure
  arrays : ∀ {i : Nat} {array : Array Value}, s.arrays[i]? = some array →
    ∃ array', s'.arrays[i]? = some array' ∧ array.size ≤ array'.size

/-- A name is found only where it is bound. -/
theorem Store.search_found {s : Store} {room scope owner : Nat} {name : Name}
    (h : s.search room scope name = .found owner) : s.owns name owner = true := by
  unfold Store.search at h
  dsimp only at h
  split at h
  · next hfound =>
    cases h
    exact List.find?_some hfound
  · split at h <;> cases h

namespace Store.Grows

variable {gain : Gain} {s s' s'' : Store}

theorem refl (s : Store) : s.Grows gain s :=
  ⟨fun {_ x} h => ⟨x, h, rfl, [], (List.append_nil _).symm, nofun⟩, id,
    fun {_ array} h => ⟨array, h, Nat.le_refl _⟩⟩

/-- What is gained in scopes that were not there yet is not counted. -/
theorem trans {gain' gain'' : Gain} (h : s.Grows gain s') (h' : s'.Grows gain' s'')
    (hgain : ∀ i name, gain i name → gain'' i name)
    (hgain' : ∀ i name, i < s.scopes.size → gain' i name → gain'' i name) : s.Grows gain'' s'' := by
  refine ⟨fun {i x} hx => ?_, fun hc => h'.closures (h.closures hc), fun {i array} ha => ?_⟩
  · have hi : i < s.scopes.size := (Array.getElem?_eq_some_iff.mp hx).1
    obtain ⟨x', hx', hparent, gained, hnames, hall⟩ := h.scopes hx
    obtain ⟨x'', hx'', hparent', gained', hnames', hall'⟩ := h'.scopes hx'
    refine ⟨x'', hx'', hparent'.trans hparent, gained ++ gained', ?_, fun name hn => ?_⟩
    · rw [hnames', hnames, List.append_assoc]
    · rcases List.mem_append.mp hn with hn | hn
      · exact hgain i name (hall name hn)
      · exact hgain' i name hi (hall' name hn)
  · obtain ⟨array', ha', hsize⟩ := h.arrays ha
    obtain ⟨array'', ha'', hsize'⟩ := h'.arrays ha'
    exact ⟨array'', ha'', Nat.le_trans hsize hsize'⟩

theorem mono {gain' : Gain} (h : s.Grows gain s') (hgain : ∀ i name, gain i name → gain' i name) :
    s.Grows gain' s' :=
  (refl s).trans h hgain fun i name _ => hgain i name

/-! ## Changes -/

/-- Binding a name gains it, unless it is bound there already. -/
theorem define (s : Store) {scope : Nat} {name : Name} (value : Value)
    (hgain : s.owns name scope = true ∨ gain scope name) : s.Grows gain (s.define scope name value) := by
  refine ⟨fun {i x} hx => ?_, id, fun {_ array} ha => ⟨array, ha, Nat.le_refl _⟩⟩
  by_cases hi : scope = i
  · subst hi
    refine ⟨{ x with names := Fields.put x.names name value }, ?_, rfl, ?_⟩
    · simp [Store.define, Array.getElem?_modify, hx]
    · rw [Fields.names_put]
      split
      · exact ⟨[], (List.append_nil _).symm, nofun⟩
      · next hn =>
        refine ⟨[name], rfl, fun other ho => ?_⟩
        rw [List.mem_singleton.mp ho]
        refine hgain.resolve_left fun howns => hn ?_
        rw [Store.owns, hx] at howns
        exact (Fields.has_iff _ _).mp howns
  · refine ⟨x, ?_, rfl, [], (List.append_nil _).symm, nofun⟩
    simp [Store.define, Array.getElem?_modify, hi, hx]

/-- What is added at the end changes nothing before it. -/
theorem push_keeps {α : Type} {items : Array α} {i : Nat} {item : α} (h : items[i]? = some item)
    (more : α) : (items.push more)[i]? = some item := by
  obtain ⟨hi, rfl⟩ := Array.getElem?_eq_some_iff.mp h
  exact Array.getElem?_push_lt hi

theorem newScope (s : Store) (parent : Option Nat) : s.Grows gain (s.newScope parent).2 :=
  ⟨fun {_ x} hx => ⟨x, push_keeps hx _, rfl, [], (List.append_nil _).symm, nofun⟩, id,
    fun {_ array} ha => ⟨array, ha, Nat.le_refl _⟩⟩

theorem newArray (s : Store) (elements : Array Value) : s.Grows gain (s.newArray elements).2 :=
  ⟨(refl s).scopes, id, fun {_ array} ha => ⟨array, push_keeps ha _, Nat.le_refl _⟩⟩

theorem newClosure (s : Store) (closure : Closure) : s.Grows gain (s.newClosure closure).2 :=
  ⟨(refl s).scopes, fun hc => push_keeps hc _, fun {_ array} ha => ⟨array, ha, Nat.le_refl _⟩⟩

/-- An array changed in place, by an operation that does not make it shorter. -/
theorem modifyArray (s : Store) (place : Nat) {change : Array Value → Array Value}
    (h : ∀ array, array.size ≤ (change array).size) :
    s.Grows gain { s with arrays := s.arrays.modify place change } := by
  refine ⟨(refl s).scopes, id, fun {i array} ha => ?_⟩
  by_cases hi : place = i
  · exact ⟨change array, by simp [Array.getElem?_modify, hi, ha], h array⟩
  · exact ⟨array, by simp [Array.getElem?_modify, hi, ha], Nat.le_refl _⟩

theorem setElement (s : Store) (place index : Nat) (value : Value) :
    s.Grows gain (s.setElement place index value) := modifyArray s place (by simp)

theorem pushElement (s : Store) (place : Nat) (value : Value) :
    s.Grows gain (s.pushElement place value) := modifyArray s place (by simp)

end Store.Grows

end GameScript
