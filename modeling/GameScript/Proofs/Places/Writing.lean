import GameScript.Proofs.Confinement.Evaluator
import GameScript.Proofs.Places.Reading
import GameScript.Proofs.Places.Spot

/-! # Writing an element

An assignment to an element writes one spot or none. In an array it is the slot at the index. A string
is a value, so a new one goes to where the old one was read from: `Roots` follows the target of the
assignment down to the name or the slot that held the string, and to the first index applied to it.
The index and the value of the assignment can run any code in between, but the spot that was read
stays what it is, as scopes gain no names and arrays lose no elements. -/

namespace GameScript

/-- The whole number that an index is. -/
def Value.whole? : Value → Option Int
  | .number x => Decimal.integer? x
  | _ => none

namespace Eval

/-! ## Positions -/

theorem position_eq (room : Nat) (index : Value) (length : Nat) (bracket : Token) :
    position room index length bracket = match index.whole? with
      | none => (do fault (.indexNotInteger (← textOf (room - 2) index)) bracket : Eval Int)
      | some n =>
        if 0 ≤ n && n < length then pure n else fault (.indexOutOfBounds n length) bracket := rfl

section

variable {room length : Nat} {index : Value} {bracket : Token} {m : Machine}

theorem position_of_whole {p : Nat} (hi : index.whole? = some (p : Int)) (hp : p < length) :
    position room index length bracket m = .ok (p : Int) m := by
  have hrange : (decide (0 ≤ (p : Int)) && decide ((p : Int) < length)) = true := by simp [hp]
  rw [position_eq, hi]
  dsimp only
  rw [if_pos hrange]
  rfl

/-- The errors of an index or of what is stored. -/
def IsRefusal (cause : Fault) : Prop :=
  cause.name = .typeMismatch ∨ cause.name = .indexOutOfBounds

/-- An index that is no position is an error, which shows the index. -/
theorem position_refused (h : ∀ p : Nat, index.whole? = some (p : Int) → ¬ p < length) :
    (∃ cause, IsRefusal cause ∧
      position room index length bracket m = .error (.fault cause (some bracket)) m) ∨
    (position room index length bracket m = .error .overflow m ∧
      m.store.text? (room - 2) index = none) := by
  rw [position_eq]
  cases hi : index.whole? with
  | none =>
    have htext := textOf_eq (room - 2) index m
    cases ht : m.store.text? (room - 2) index with
    | none =>
      rw [ht] at htext
      exact .inr ⟨bind_eq_of_error htext, rfl⟩
    | some text =>
      rw [ht] at htext
      exact .inl ⟨.indexNotInteger text, .inl rfl, bind_eq_of_ok htext⟩
  | some n =>
    refine .inl ⟨.indexOutOfBounds n length, .inr rfl, ?_⟩
    have hrange : ¬ (decide (0 ≤ n) && decide (n < length)) = true := by
      rw [Bool.and_eq_true, decide_eq_true_iff, decide_eq_true_iff]
      rintro ⟨hn, hlt⟩
      obtain ⟨p, rfl⟩ := Int.eq_ofNat_of_zero_le hn
      exact h p hi (by omega)
    dsimp only
    rw [if_neg hrange]
    rfl

/-- What an index that is accepted is. -/
theorem position_ok {n : Int} {m' : Machine} (h : position room index length bracket m = .ok n m') :
    m' = m ∧ ∃ p : Nat, n = p ∧ index.whole? = some (p : Int) ∧ p < length := by
  by_cases hp : ∃ p : Nat, index.whole? = some (p : Int) ∧ p < length
  · obtain ⟨p, hi, hlt⟩ := hp
    rw [position_of_whole hi hlt] at h
    cases h
    exact ⟨rfl, p, rfl, hi, hlt⟩
  · replace hp : ∀ p : Nat, index.whole? = some (p : Int) → ¬ p < length :=
      fun p hi hlt => hp ⟨p, hi, hlt⟩
    rcases @position_refused room length index bracket m hp with ⟨cause, -, hr⟩ | ⟨hr, -⟩
    · rw [hr] at h
      cases h
    · rw [hr] at h
      cases h

end

/-! ## Elements -/

/-- The text of one character of a text. -/
def pick (s : String) (p : Nat) : String := String.ofList s.toList[p]?.toList

/-- What is left of a text after taking a character at one position after the other. -/
def taken (text : String) (applied : List Nat) : String := applied.foldl pick text

theorem taken_concat (text : String) (applied : List Nat) (p : Nat) :
    taken text (applied ++ [p]) = pick (taken text applied) p := by
  simp only [taken, List.foldl_append, List.foldl_cons, List.foldl_nil]

theorem length_pick_le (s : String) (p : Nat) : (pick s p).length ≤ 1 := by
  unfold pick
  cases s.toList[p]? <;> simp

theorem length_taken_cons_le (text : String) (first : Nat) (rest : List Nat) :
    (taken text (first :: rest)).length ≤ 1 := by
  rw [taken, List.foldl_cons]
  have short := length_pick_le text first
  generalize pick text first = s at short
  induction rest generalizing s with
  | nil => exact short
  | cons p rest ih => exact ih (pick s p) (length_pick_le s p)

section

variable {room p : Nat} {index : Value} {bracket : Token} {m : Machine}

theorem itemAt_of_some {α : Type} {items : Nat → Option α} {item : α} (h : items p = some item) :
    itemAt items (p : Int) m = .ok item m := by
  change itemAt items (Int.ofNat p) m = _
  rw [itemAt, h]
  rfl

theorem elementAt_array {array : Nat} {item : Value} (hi : index.whole? = some (p : Int))
    (hitem : (m.store.elements array)[p]? = some item) :
    elementAt room (.array array) index bracket m = .ok item m := by
  have hp : p < (m.store.elements array).size := (Array.getElem?_eq_some_iff.mp hitem).1
  change (position room index (m.store.elements array).size bracket >>= fun i =>
    itemAt ((m.store.elements array)[·]?) i) m = _
  rw [bind_eq_of_ok (position_of_whole hi hp)]
  exact itemAt_of_some hitem

theorem elementAt_string {s : String} (hi : index.whole? = some (p : Int)) (hp : p < s.length) :
    elementAt room (.string s) index bracket m = .ok (.string (pick s p)) m := by
  obtain ⟨c, hc⟩ : ∃ c, s.toList[p]? = some c :=
    ⟨_, List.getElem?_eq_getElem (by rwa [String.length_toList])⟩
  change (position room index s.length bracket >>= fun i =>
    itemAt (s.toList[·]?) i >>= fun c => pure (Value.string (String.ofList [c]))) m = _
  rw [bind_eq_of_ok (position_of_whole hi hp), bind_eq_of_ok (itemAt_of_some hc), pick, hc]
  rfl

theorem elementAt_ok {container value : Value} {m' : Machine}
    (h : elementAt room container index bracket m = .ok value m') :
    m' = m ∧ ∃ p : Nat, index.whole? = some (p : Int) ∧
      ((∃ array, container = .array array ∧ (m.store.elements array)[p]? = some value) ∨
        ∃ s, container = .string s ∧ p < s.length ∧ value = .string (pick s p)) := by
  cases container with
  | array array =>
    obtain ⟨n, m₁, hn, -⟩ : ∃ n m₁, position room index (m.store.elements array).size bracket m =
        .ok n m₁ ∧ itemAt ((m.store.elements array)[·]?) n m₁ = .ok value m' := bind_ok h
    obtain ⟨-, p, -, hi, hp⟩ := position_ok hn
    have hitem := Array.getElem?_eq_getElem hp
    rw [elementAt_array hi hitem] at h
    cases h
    exact ⟨rfl, p, hi, .inl ⟨array, rfl, hitem⟩⟩
  | string s =>
    obtain ⟨n, m₁, hn, -⟩ := bind_ok h
    obtain ⟨-, p, -, hi, hp⟩ := position_ok hn
    rw [elementAt_string hi hp] at h
    cases h
    exact ⟨rfl, p, hi, .inr ⟨s, rfl, hp, rfl⟩⟩
  | _ => cases h

end

/-! ## Where a string was read from -/

/-- Reading an expression from `m` finds the string `text` at a spot, takes the characters at the
positions `applied`, one after the other, and ends in `m'`. -/
inductive Roots (settings : Settings) (scope : Nat) :
    Nat → Node → Machine → Spot → String → List Nat → Machine → Prop
  | reference {room owner : Nat} {token : Token} {name : Name} {m : Machine} {text : String} :
      token.name? = some name → m.store.search room scope name = .found owner →
      m.store.own? owner name = some (.string text) →
      Roots settings scope (room + 1) (.variable token) m (.binding owner name) text [] m
  | slot {room array p : Nat} {target index : Node} {bracket : Token} {m m₁ m₂ : Machine}
      {outer : Place} {i : Value} {text : String} :
      locate settings room target scope m = .ok (.array array, outer) m₁ →
      evaluate settings room index scope m₁ = .ok i m₂ → i.whole? = some (p : Int) →
      (m₂.store.elements array)[p]? = some (.string text) →
      Roots settings scope (room + 1) (.indexGet target bracket index) m (.slot array p) text [] m₂
  | character {room p : Nat} {target index : Node} {bracket : Token} {m m₁ m₂ : Machine}
      {spot : Spot} {applied : List Nat} {i : Value} {text : String} :
      Roots settings scope room target m spot text applied m₁ →
      evaluate settings room index scope m₁ = .ok i m₂ → i.whole? = some (p : Int) →
      p < (taken text applied).length →
      Roots settings scope (room + 1) (.indexGet target bracket index) m spot text (applied ++ [p]) m₂
  | grouping {room : Nat} {inner : Node} {m m' : Machine} {spot : Spot} {applied : List Nat}
      {text : String} :
      Roots settings scope room inner m spot text applied m' →
      Roots settings scope (room + 1) (.grouping inner) m spot text applied m'

/-- A place that leads to a spot, through the characters at the positions `applied` of a text. -/
inductive Place.Holds (s : Store) (text : String) : Place → Spot → List Nat → Prop
  | reference {room scope owner : Nat} {token : Token} {name : Name} :
      token.name? = some name → s.search room scope name = .found owner →
      Holds s text (.variable scope token) (.binding owner name) []
  | slot {array p : Nat} {i : Value} {bracket : Token} {outer : Place} :
      i.whole? = some (p : Int) → p < (s.elements array).size →
      Holds s text (.element (.array array) i bracket outer) (.slot array p) []
  | character {p : Nat} {i : Value} {bracket : Token} {outer : Place} {spot : Spot}
      {applied : List Nat} :
      Holds s text outer spot applied → i.whole? = some (p : Int) →
      p < (taken text applied).length →
      Holds s text (.element (.string (taken text applied)) i bracket outer) spot (applied ++ [p])

/-- A place that leads to no spot: a computed value, or characters of one. -/
inductive Place.Unrooted : Place → Prop
  | nowhere : Unrooted .nowhere
  | character {p : Nat} {s : String} {i : Value} {bracket : Token} {outer : Place} :
      Unrooted outer → i.whole? = some (p : Int) → p < s.length →
      Unrooted (.element (.string s) i bracket outer)

namespace Place.Holds

variable {s s' : Store} {text : String} {place : Place} {spot : Spot} {applied : List Nat}

theorem grows (h : place.Holds s text spot applied) (hs : s.Grows .nothing s') :
    place.Holds s' text spot applied := by
  induction h with
  | reference hname hfound => exact .reference hname (hs.found hfound)
  | slot hi hp => exact .slot hi (Nat.lt_of_lt_of_le hp (hs.elements_size _))
  | character _ hi hp ih => exact .character ih hi hp

theorem not_unrooted (h : place.Holds s text spot applied) : ¬ place.Unrooted := by
  induction h with
  | reference => nofun
  | slot => nofun
  | character _ _ _ ih =>
    intro hu
    cases hu with
    | character houter => exact ih houter

end Place.Holds

/-- No scope gains a name while an expression is evaluated. -/
theorem evaluate_grows {settings : Settings} {room scope : Nat} {node : Node} {m m' : Machine}
    {value : Value} (h : evaluate settings room node scope m = .ok value m') :
    m.store.Grows .nothing m'.store := by
  have hgrows := ((confinedAt settings room).evaluate node scope).grows m
  unfold after at hgrows
  rwa [h] at hgrows

section

variable {room scope owner : Nat} {token : Token} {name : Name} {m : Machine}

theorem nameOf_eq (h : token.name? = some name) : nameOf token = pure name := by
  unfold nameOf
  rw [h]

theorem ownerOf_eq (room scope : Nat) (token : Token) (name : Name) (m : Machine) :
    ownerOf room scope token name m = match m.store.search room scope name with
      | .found owner => .ok owner m
      | .unbound => .error (.fault (.undefinedVariable token.text) (some token)) m
      | .tooFar => .error .overflow m := by
  unfold ownerOf
  rw [get_bind]
  cases m.store.search room scope name <;> rfl

theorem lookup_of_found {value : Value} (hname : token.name? = some name)
    (hfound : m.store.search room scope name = .found owner)
    (hown : m.store.own? owner name = some value) : lookup room scope token m = .ok value m := by
  have howner := ownerOf_eq room scope token name m
  rw [hfound] at howner
  rw [lookup, nameOf_eq hname, pure_bind, bind_eq_of_ok howner, get_bind, hown]
  rfl

theorem lookup_ok {value : Value} {m' : Machine} (h : lookup room scope token m = .ok value m') :
    m' = m ∧ ∃ name owner, token.name? = some name ∧
      m.store.search room scope name = .found owner ∧ m.store.own? owner name = some value := by
  cases hname : token.name? with
  | none =>
    rw [lookup, nameOf, hname] at h
    cases h
  | some name =>
    have howner := ownerOf_eq room scope token name m
    cases hs : m.store.search room scope name with
    | found owner =>
      obtain ⟨own, hown⟩ := Option.isSome_iff_exists.1 (Store.isSome_own? (Store.search_found hs))
      rw [lookup_of_found hname hs hown] at h
      cases h
      exact ⟨rfl, name, owner, rfl, hs, hown⟩
    | unbound =>
      rw [hs] at howner
      rw [lookup, nameOf_eq hname, pure_bind, bind_eq_of_error howner] at h
      cases h
    | tooFar =>
      rw [hs] at howner
      rw [lookup, nameOf_eq hname, pure_bind, bind_eq_of_error howner] at h
      cases h

end

section

variable {settings : Settings} {room scope : Nat} {node : Node} {m m' : Machine}

/-- A string that comes from a spot is read with a place that leads there. -/
theorem Roots.locates {spot : Spot} {text : String} {applied : List Nat}
    (h : Roots settings scope room node m spot text applied m') :
    ∃ place, locate settings room node scope m = .ok (.string (taken text applied), place) m' ∧
      place.Holds m'.store text spot applied := by
  induction h with
  | @reference room owner token name m text hname hfound hown =>
    refine ⟨.variable scope token, ?_, .reference hname hfound⟩
    rw [locate, bind_eq_of_ok (lookup_of_found hname hfound hown)]
    rfl
  | @slot room array p target index bracket m m₁ m₂ outer i text htarget hindex hi hitem =>
    have hp := (Array.getElem?_eq_some_iff.mp hitem).1
    refine ⟨.element (.array array) i bracket outer, ?_, .slot hi hp⟩
    rw [locate, bind_eq_of_ok htarget]
    dsimp only
    rw [bind_eq_of_ok hindex, bind_eq_of_ok (elementAt_array hi hitem)]
    rfl
  | @character room p target index bracket m m₁ m₂ spot applied i text _ hindex hi hp ih =>
    obtain ⟨outer, htarget, hholds⟩ := ih
    refine ⟨.element (.string (taken text applied)) i bracket outer, ?_,
      .character (hholds.grows (evaluate_grows hindex)) hi hp⟩
    rw [locate, bind_eq_of_ok htarget]
    dsimp only
    rw [bind_eq_of_ok hindex, bind_eq_of_ok (elementAt_string hi hp), taken_concat]
    rfl
  | grouping _ ih =>
    rw [locate_grouping]
    exact ih

theorem locate_room {read : Value × Place} (h : locate settings room node scope m = .ok read m') :
    ∃ n, room = n + 1 := by
  cases room with
  | zero =>
    rw [locate] at h
    cases h
  | succ n => exact ⟨n, rfl⟩

/-- A string that is read comes from a spot, or with a place that leads to none. -/
theorem locate_rooted {s : String} {place : Place}
    (h : locate settings room node scope m = .ok (.string s, place) m') :
    (∃ spot text applied, Roots settings scope room node m spot text applied m') ∨
      place.Unrooted := by
  induction node using Node.path_induction generalizing room m m' s place with
  | reference token =>
    obtain ⟨room, rfl⟩ := locate_room h
    rw [locate] at h
    obtain ⟨value, m₁, hlookup, hpure⟩ := bind_ok h
    cases hpure
    obtain ⟨rfl, name, owner, hname, hfound, hown⟩ := lookup_ok hlookup
    exact .inl ⟨_, _, _, .reference hname hfound hown⟩
  | indexGet target bracket index ih =>
    obtain ⟨room, rfl⟩ := locate_room h
    rw [locate] at h
    obtain ⟨⟨container, outer⟩, m₁, htarget, h⟩ := bind_ok h
    obtain ⟨i, m₂, hindex, h⟩ := bind_ok h
    obtain ⟨value, m₃, helement, hpure⟩ := bind_ok h
    cases hpure
    obtain ⟨rfl, p, hi, ⟨array, rfl, hitem⟩ | ⟨cur, rfl, hp, -⟩⟩ := elementAt_ok helement
    · exact .inl ⟨_, _, _, .slot htarget hindex hi hitem⟩
    · rcases ih htarget with ⟨spot, text, applied, hroots⟩ | hunrooted
      · obtain ⟨outer', htarget', -⟩ := hroots.locates
        rw [htarget'] at htarget
        cases htarget
        exact .inl ⟨_, _, _, .character hroots hindex hi hp⟩
      · exact .inr (.character hunrooted hi hp)
  | grouping inner ih =>
    obtain ⟨room, rfl⟩ := locate_room h
    rw [locate_grouping] at h
    rcases ih h with ⟨spot, text, applied, hroots⟩ | hunrooted
    · exact .inl ⟨_, _, _, .grouping hroots⟩
    · exact .inr hunrooted
  | root node hroot =>
    obtain ⟨room, rfl⟩ := locate_room h
    rw [locate_nowhere settings room scope hroot] at h
    obtain ⟨value, m₁, -, hpure⟩ := bind_ok h
    cases hpure
    exact .inr .nowhere

end

/-! ## Replacing what a place leads to -/

/-- A text with another one in place of what is left of it at the positions `applied`. -/
def rewritten (text : String) (applied : List Nat) (t : String) : String :=
  match applied with
  | [] => t
  | first :: _ => replaceAt text first t

theorem replaceAt_zero {s : String} (h : s.length ≤ 1) (t : String) : replaceAt s 0 t = t := by
  rw [← String.length_toList] at h
  simp [replaceAt, List.drop_eq_nil_of_le h]

/-- Replacing a character of what is left rewrites at the same position of the whole text. -/
theorem rewritten_replaceAt {text : String} {applied : List Nat} {p : Nat}
    (hp : p < (taken text applied).length) (t : String) :
    rewritten text applied (replaceAt (taken text applied) p t) =
      rewritten text (applied ++ [p]) t := by
  cases applied with
  | nil => rfl
  | cons first rest =>
    have short := length_taken_cons_le text first rest
    obtain rfl : p = 0 := by omega
    rw [replaceAt_zero short]
    rfl

section

variable {room p : Nat} {i : Value} {bracket : Token} {m : Machine}
  {replace : Option (Value → Eval Unit)}

theorem writeElement_array {array : Nat} (hi : i.whole? = some (p : Int))
    (hp : p < (m.store.elements array).size) (value : Value) :
    writeElement room (.array array) i value bracket replace m =
      .ok () { m with store := m.store.put value (.slot array p) } := by
  change (position room i (m.store.elements array).size bracket >>= fun i =>
    discard (itemAt ((m.store.elements array)[·]?) i) >>= fun _ =>
      modifyStore (·.setElement array i.toNat value)) m = _
  have hdiscard : discard (itemAt ((m.store.elements array)[·]?) (p : Int)) m = .ok () m :=
    bind_eq_of_ok (itemAt_of_some (Array.getElem?_eq_getElem hp))
  rw [bind_eq_of_ok (position_of_whole hi hp), bind_eq_of_ok hdiscard]
  rfl

theorem writeElement_string {s : String} (hi : i.whole? = some (p : Int)) (hp : p < s.length)
    (value : Value) :
    writeElement room (.string s) i value bracket replace m = match value, replace with
      | .string t, some replace => replace (.string (replaceAt s p t)) m
      | .string _, none => .error (.fault .noPlace (some bracket)) m
      | value, _ => .error (.fault (.storedNotString value.tag) (some bracket)) m := by
  unfold writeElement
  dsimp only
  rw [bind_eq_of_ok (position_of_whole hi hp)]
  cases value <;> cases replace <;> rfl

end

theorem rebind_of_found {room scope owner : Nat} {token : Token} {name : Name} {m : Machine}
    (hname : token.name? = some name) (hfound : m.store.search room scope name = .found owner)
    (value : Value) :
    rebind room scope token value m =
      .ok () { m with store := m.store.put value (.binding owner name) } := by
  have howner := ownerOf_eq room scope token name m
  rw [hfound] at howner
  rw [rebind, nameOf_eq hname, pure_bind, bind_eq_of_ok howner]
  rfl

theorem rebind_of_tooFar {room scope : Nat} {token : Token} {name : Name} {m : Machine}
    (hname : token.name? = some name) (hfar : m.store.search room scope name = .tooFar)
    (value : Value) : rebind room scope token value m = .error .overflow m := by
  have howner := ownerOf_eq room scope token name m
  rw [hfar] at howner
  rw [rebind, nameOf_eq hname, pure_bind, bind_eq_of_error howner]

/-- A string that is put where a place leads to is written there, given enough room. -/
theorem Place.Holds.replaces {m : Machine} {text : String} {place : Place} {spot : Spot}
    {applied : List Nat} (h : place.Holds m.store text spot applied) :
    ∃ enough, ∀ room t, ∃ replace, place.replacer room = some replace ∧
      ((room < enough ∧ replace (.string t) m = .error .overflow m) ∨
        ∃ m', replace (.string t) m = .ok () m' ∧
          m.Writes spot (.string (rewritten text applied t)) m') := by
  induction h with
  | @reference room₀ scope owner token name hname hfound =>
    refine ⟨room₀ + 1, fun room t => ⟨_, rfl, ?_⟩⟩
    have held : (m.store.at? (.binding owner name)).isSome :=
      Store.isSome_own? (Store.search_found hfound)
    rcases Store.search_within hfound (room - 1) with hthere | ⟨hless, hfar⟩
    · exact .inr ⟨_, rebind_of_found hname hthere _, Machine.writes_put held _⟩
    · exact .inl ⟨by omega, rebind_of_tooFar hname hfar _⟩
  | @slot array p i bracket outer hi hp =>
    refine ⟨2, fun room t => ⟨_, rfl, ?_⟩⟩
    have held : (m.store.at? (.slot array p)).isSome := by simpa [Store.at?] using hp
    by_cases hroom : room < 2
    · exact .inl ⟨hroom, by rw [if_pos hroom]; rfl⟩
    · refine .inr ⟨_, ?_, Machine.writes_put held _⟩
      rw [if_neg hroom]
      exact writeElement_array hi hp _
  | @character p i bracket outer spot applied _ hi hp ih =>
    obtain ⟨enough, ih⟩ := ih
    refine ⟨enough + 2, fun room t => ⟨_, rfl, ?_⟩⟩
    by_cases hroom : room < 2
    · exact .inl ⟨by omega, by rw [if_pos hroom]; rfl⟩
    · obtain ⟨replace, hreplace, hends⟩ := ih (room - 2) (replaceAt (taken text applied) p t)
      rw [if_neg hroom, writeElement_string hi hp, hreplace]
      rw [rewritten_replaceAt hp] at hends
      rcases hends with ⟨hless, hfar⟩ | hwritten
      · exact .inl ⟨by omega, hfar⟩
      · exact .inr hwritten

/-- A string that is put where a place leads to no spot is refused. -/
theorem Place.Unrooted.refuses {place : Place} (h : place.Unrooted) (m : Machine) :
    ∃ enough, ∀ room t, place.replacer room = none ∨ ∃ replace, place.replacer room = some replace ∧
      ((room < enough ∧ replace (.string t) m = .error .overflow m) ∨
        ∃ token, replace (.string t) m = .error (.fault .noPlace (some token)) m) := by
  induction h with
  | nowhere => exact ⟨0, fun _ _ => .inl rfl⟩
  | @character p s i bracket outer _ hi hp ih =>
    obtain ⟨enough, ih⟩ := ih
    refine ⟨enough + 2, fun room t => .inr ⟨_, rfl, ?_⟩⟩
    by_cases hroom : room < 2
    · exact .inl ⟨by omega, by rw [if_pos hroom]; rfl⟩
    · rw [if_neg hroom, writeElement_string hi hp]
      rcases ih (room - 2) (replaceAt s p t) with hnone | ⟨replace, hreplace, hends⟩
      · rw [hnone]
        exact .inr ⟨bracket, rfl⟩
      · rw [hreplace]
        rcases hends with ⟨hless, hfar⟩ | hfault
        · exact .inl ⟨by omega, hfar⟩
        · exact .inr hfault

/-! ## Assignments to elements -/

/-- Where an assignment to an element at an index writes, and what. The target is read from `m`, and
the element is stored in `m₃`. -/
inductive Lands (settings : Settings) (room scope : Nat) (target : Node) (m m₃ : Machine)
    (i v : Value) : Spot → Value → Prop
  | element {array p : Nat} {outer : Place} {m₁ : Machine} :
      locate settings room target scope m = .ok (.array array, outer) m₁ →
      i.whole? = some (p : Int) → p < (m₃.store.elements array).size →
      Lands settings room scope target m m₃ i v (.slot array p) v
  | character {p : Nat} {spot : Spot} {applied : List Nat} {text t : String} {m₁ : Machine} :
      Roots settings scope room target m spot text applied m₁ → i.whole? = some (p : Int) →
      p < (taken text applied).length → v = .string t →
      Lands settings room scope target m m₃ i v spot (.string (replaceAt text (applied.headD p) t))

/-- How storing can end: with one spot written, or with an error and nothing written. Only if it is
short of room it runs out of it. -/
inductive Stored (lands : Spot → Value → Prop) (short : Prop) (m : Machine) :
    EStateM.Result Stop Machine Unit → Prop
  | written {spot : Spot} {value : Value} {m' : Machine} :
      lands spot value → m.Writes spot value m' → Stored lands short m (.ok () m')
  | refused {cause : Fault} {token : Token} : (∀ spot value, ¬ lands spot value) →
      IsRefusal cause → Stored lands short m (.error (.fault cause (some token)) m)
  | exhausted : short → Stored lands short m (.error .overflow m)

theorem Stored.mono {lands : Spot → Value → Prop} {short short' : Prop} {m : Machine}
    {result : EStateM.Result Stop Machine Unit} (h : Stored lands short m result)
    (hs : short → short') : Stored lands short' m result := by
  cases h with
  | written hl hw => exact .written hl hw
  | refused hno hc => exact .refused hno hc
  | exhausted hshort => exact .exhausted (hs hshort)

/-- An index that is no position is refused, unless it has no text to show. -/
theorem Stored.noPosition {lands : Spot → Value → Prop} {m : Machine} {i : Value} {length : Nat}
    (hno : ∀ spot value, ¬ lands spot value)
    (h : ∀ p : Nat, i.whole? = some (p : Int) → ¬ p < length) (bracket : Token) :
    ∃ enough, ∀ room (f : Int → Eval Unit),
      Stored lands (room < enough ∨ ∀ r, m.store.text? r i = none) m
        ((position room i length bracket >>= f) m) := by
  have refused {short : Prop} {room : Nat} (f : Int → Eval Unit)
      (hshort : m.store.text? (room - 2) i = none → short) :
      Stored lands short m ((position room i length bracket >>= f) m) := by
    rcases @position_refused room length i bracket m h with ⟨cause, hc, hr⟩ | ⟨hr, ht⟩
    · rw [bind_eq_of_error hr]
      exact .refused hno hc
    · rw [bind_eq_of_error hr]
      exact .exhausted (hshort ht)
  by_cases ht : ∃ r text, m.store.text? r i = some text
  · obtain ⟨r, text, ht⟩ := ht
    refine ⟨r + 3, fun room f => refused f fun hnone => .inl ?_⟩
    by_contra hroom
    have hmore := (Store.Resembles.refl m.store).text? (show r ≤ room - 2 by omega) ht
    rw [hnone] at hmore
    cases hmore
  · refine ⟨0, fun room f => refused f fun _ => .inr fun r => ?_⟩
    exact Option.eq_none_iff_forall_ne_some.2 fun text hr => ht ⟨r, text, hr⟩

section

variable {settings : Settings} {room scope : Nat} {target : Node} {m m₁ m₃ : Machine} {place : Place}
  {i v : Value} {bracket : Token}

/-- Storing in an array writes the slot at the index. -/
theorem storeElement_array {array : Nat}
    (h₁ : locate settings room target scope m = .ok (.array array, place) m₁) :
    ∃ enough, ∀ room', Stored (Lands settings room scope target m m₃ i v)
      (room' < enough ∨ ∀ r, m₃.store.text? r i = none) m₃
      (storeElement room' (.array array) i v bracket place m₃) := by
  by_cases hp : ∃ p : Nat, i.whole? = some (p : Int) ∧ p < (m₃.store.elements array).size
  · obtain ⟨p, hi, hp⟩ := hp
    have held : (m₃.store.at? (.slot array p)).isSome := by simpa [Store.at?] using hp
    refine ⟨0, fun room' => ?_⟩
    rw [storeElement, writeElement_array hi hp]
    exact .written (.element h₁ hi hp) (Machine.writes_put held v)
  · refine (Stored.noPosition (fun spot value hlands => ?_) (fun p hi hlt => hp ⟨p, hi, hlt⟩)
      bracket).imp fun enough h room' => h room' _
    cases hlands with
    | element htarget hi hlt =>
      rw [h₁] at htarget
      cases htarget
      exact hp ⟨_, hi, hlt⟩
    | character hroots =>
      obtain ⟨place', htarget, -⟩ := hroots.locates
      rw [h₁] at htarget
      cases htarget

/-- What lands in a string lands in a character of it, and the string has a spot. -/
theorem Lands.of_string {s : String} {spot : Spot} {value : Value}
    (h₁ : locate settings room target scope m = .ok (.string s, place) m₁)
    (h : Lands settings room scope target m m₃ i v spot value) :
    (∃ p : Nat, i.whole? = some (p : Int) ∧ p < s.length) ∧ (∃ t, v = .string t) ∧
      ¬ place.Unrooted := by
  cases h with
  | element htarget =>
    rw [h₁] at htarget
    cases htarget
  | @character p _ _ _ t _ hroots hi hp hv =>
    obtain ⟨place', htarget, hholds⟩ := hroots.locates
    rw [h₁] at htarget
    cases htarget
    exact ⟨⟨p, hi, hp⟩, ⟨t, hv⟩, hholds.not_unrooted⟩

/-- Storing a string in one that comes from a spot writes that spot. -/
theorem storeElement_rooted {p : Nat} {spot : Spot} {text t : String} {applied : List Nat}
    (hroots : Roots settings scope room target m spot text applied m₁)
    (hholds : place.Holds m₃.store text spot applied) (hi : i.whole? = some (p : Int))
    (hp : p < (taken text applied).length) :
    ∃ enough, ∀ room', Stored (Lands settings room scope target m m₃ i (.string t))
      (room' < enough) m₃
      (storeElement room' (.string (taken text applied)) i (.string t) bracket place m₃) := by
  have hvalue : rewritten text (applied ++ [p]) t = replaceAt text (applied.headD p) t := by
    cases applied <;> rfl
  obtain ⟨enough, hends⟩ := hholds.replaces
  refine ⟨enough + 1, fun room' => ?_⟩
  obtain ⟨replace, hreplace, hends⟩ := hends (room' - 1) (replaceAt (taken text applied) p t)
  rw [storeElement, writeElement_string hi hp, hreplace]
  rw [rewritten_replaceAt hp, hvalue] at hends
  dsimp only
  rcases hends with ⟨hless, hfar⟩ | ⟨m', hok, hwrites⟩
  · rw [hfar]
    exact .exhausted (by omega)
  · rw [hok]
    exact .written (.character hroots hi hp rfl) hwrites

/-- Storing a string in one that comes from no spot is an error. -/
theorem storeElement_unrooted {p : Nat} {s t : String} {lands : Spot → Value → Prop}
    (hno : ∀ spot value, ¬ lands spot value) (hunrooted : place.Unrooted)
    (hi : i.whole? = some (p : Int)) (hp : p < s.length) :
    ∃ enough, ∀ room', Stored lands (room' < enough) m₃
      (storeElement room' (.string s) i (.string t) bracket place m₃) := by
  obtain ⟨enough, hends⟩ := hunrooted.refuses m₃
  refine ⟨enough + 1, fun room' => ?_⟩
  rw [storeElement, writeElement_string hi hp]
  rcases hends (room' - 1) (replaceAt s p t) with hnone | ⟨replace, hreplace, hends⟩
  · rw [hnone]
    exact .refused hno (.inl rfl)
  · rw [hreplace]
    dsimp only
    rcases hends with ⟨hless, hfar⟩ | ⟨token, hfault⟩
    · rw [hfar]
      exact .exhausted (by omega)
    · rw [hfault]
      exact .refused hno (.inl rfl)

/-- Storing in a string writes the spot that the string was read from. -/
theorem storeElement_string {s : String}
    (h₁ : locate settings room target scope m = .ok (.string s, place) m₁)
    (hgrows : m₁.store.Grows .nothing m₃.store) :
    ∃ enough, ∀ room', Stored (Lands settings room scope target m m₃ i v)
      (room' < enough ∨ ∀ r, m₃.store.text? r i = none) m₃
      (storeElement room' (.string s) i v bracket place m₃) := by
  by_cases hp : ∃ p : Nat, i.whole? = some (p : Int) ∧ p < s.length
  · obtain ⟨p, hi, hp⟩ := hp
    cases v with
    | string t =>
      rcases locate_rooted h₁ with ⟨spot, text, applied, hroots⟩ | hunrooted
      · obtain ⟨place', htarget, hholds⟩ := hroots.locates
        rw [h₁] at htarget
        cases htarget
        exact (storeElement_rooted hroots (hholds.grows hgrows) hi hp).imp
          fun _ h room' => (h room').mono .inl
      · refine (storeElement_unrooted (fun spot value hl => ?_) hunrooted hi hp).imp
          fun _ h room' => (h room').mono .inl
        exact (hl.of_string h₁).2.2 hunrooted
    | _ =>
      refine ⟨0, fun room' => ?_⟩
      rw [storeElement, writeElement_string hi hp]
      refine .refused (fun spot value hl => ?_) (.inl rfl)
      obtain ⟨t, ht⟩ := (hl.of_string h₁).2.1
      cases ht
  · refine (Stored.noPosition (fun spot value hl => ?_) (fun p hi hlt => hp ⟨p, hi, hlt⟩)
      bracket).imp fun enough h room' => h room' _
    exact hp (hl.of_string h₁).1

/-- Storing writes one spot, where the target leads to, or none. -/
theorem storeElement_stored {container : Value}
    (h₁ : locate settings room target scope m = .ok (container, place) m₁)
    (hgrows : m₁.store.Grows .nothing m₃.store) :
    ∃ enough, ∀ room', Stored (Lands settings room scope target m m₃ i v)
      (room' < enough ∨ ∀ r, m₃.store.text? r i = none) m₃
      (storeElement room' container i v bracket place m₃) := by
  cases container with
  | array array => exact storeElement_array h₁
  | string s => exact storeElement_string h₁ hgrows
  | _ =>
    refine ⟨0, fun room' => .refused (fun spot value hl => ?_) (.inl rfl)⟩
    cases hl with
    | element htarget =>
      rw [h₁] at htarget
      cases htarget
    | character hroots =>
      obtain ⟨place', htarget, -⟩ := hroots.locates
      rw [h₁] at htarget
      cases htarget

end

/-- An assignment to an element whose target, index and value could be evaluated writes one spot or
none. It writes where the target leads to, and it ends with an error of the index or of the value if
that is nowhere. With enough room it runs out of room only if the index is no position and has no
text. -/
theorem indexSet_stores (settings : Settings) (room scope : Nat) (target index value : Node)
    (bracket : Token) (m m₁ m₂ m₃ : Machine) (container i v : Value) (place : Place)
    (htarget : locate settings (room + 1) target scope m = .ok (container, place) m₁)
    (hindex : evaluate settings (room + 1) index scope m₁ = .ok i m₂)
    (hvalue : evaluate settings (room + 1) value scope m₂ = .ok v m₃) :
    evaluateNode settings (room + 2) (.indexSet target bracket index value) scope m =
        (storeElement (room + 1) container i v bracket place >>= fun _ => pure v) m₃ ∧
      ∃ enough, ∀ room', Stored (Lands settings (room + 1) scope target m m₃ i v)
        (room' < enough ∨ ∀ r, m₃.store.text? r i = none) m₃
        (storeElement room' container i v bracket place m₃) := by
  constructor
  · rw [evaluateNode, bind_eq_of_ok htarget]
    dsimp only
    rw [bind_eq_of_ok hindex, bind_eq_of_ok hvalue]
  · have hgrows := (evaluate_grows hindex).trans (evaluate_grows hvalue) (fun _ _ => id)
      (fun _ _ _ => id)
    exact storeElement_stored htarget hgrows

/-! ## Assignments in use -/

open Grammar (word name)

/-- Two names with the same string. -/
def twins : Machine :=
  { store := (Store.initial.define Store.globals (.text "s") (.string "abc")).define Store.globals
      (.text "t") (.string "abc") }

/-- The expression `s[1]`. -/
def letter : Node := .indexGet (.variable (name "s")) (word .leftBracket "[") (.literal (.number 1))

/-- `s[1][0] = "xy"` replaces the second letter of one of the names. -/
theorem letter_stores :
    let settings : Settings := ⟨1, some 0⟩
    let place : Place := .element (.string "abc") (.number 1) (word .leftBracket "[")
      (.variable Store.globals (name "s"))
    let done := after (evaluateNode settings 102 (.indexSet letter (word .leftBracket "[")
      (.literal (.number 0)) (.literal (.string "xy"))) Store.globals) twins
    let held (text : String) := done.store.at? (.binding Store.globals (.text text))
    ((held "s" matches some (.string "axyc")) ∧ (held "t" matches some (.string "abc"))) ∧
    ∃ enough, ∀ room, Stored
      (Lands settings 101 Store.globals letter twins twins (.number 0) (.string "xy"))
      (room < enough ∨ ∀ r, twins.store.text? r (.number 0) = none) twins
      (storeElement room (.string "b") (.number 0) (.string "xy") (word .leftBracket "[") place
        twins) := by
  intro settings place done held
  refine ⟨by decide +kernel, ?_⟩
  exact (indexSet_stores settings 100 Store.globals letter (.literal (.number 0))
    (.literal (.string "xy")) (word .leftBracket "[") twins twins twins twins (.string "b")
    (.number 0) (.string "xy") place rfl rfl rfl).2

/-- An index that is an array which contains itself has no text, so the assignment runs out of room
instead of ending with an error of the index. -/
theorem selfIndex_overflows :
    let session := ((Session.start "" 0 1).run "var a = [0]; a[0] = a;").2
    let a : Node := .variable (name "a")
    (locate session.settings 990 a Store.globals session.machine matches .ok (.array _, _) _) ∧
    (evaluate session.settings 990 a Store.globals session.machine matches .ok (.array _) _) ∧
    (evaluateNode session.settings 991 (.indexSet a (word .leftBracket "[") a (.literal (.number 1)))
      Store.globals session.machine matches .error .overflow _) ∧
    (session.run "a[a] = 1;").1 = .finished false ∧
    (session.run "a[a] = 1;").2.errors =
      "[line 0] Runtime error (StackOverflow): Expression nesting too deep.\n" := by
  decide +kernel

end Eval

end GameScript
