import GameScript.Proofs.Places.Writing
import GameScript.Proofs.Renaming.Store

/-! # What names stand for

A history is what has been done with scopes so far: which were created inside which, and where
names were defined, assigned and asked for. It tells by itself what a name stands for, seen from a
scope: the value last written to it in the innermost scope that binds it. The store that the same
operations build answers so, and assigning to a name and asking whether it is there look for it in
the same way.

Only so many scopes are passed on the way to a name as there is room for, and what lies further out
is not found. -/

namespace GameScript

/-- A token that stands for a name. -/
structure Mention where
  token : Token
  name : Name
  named : token.name? = some name

/-- What has been done with scopes, the latest last. The scopes that are there are counted, and only
these are spoken of. -/
inductive History : Nat → Type where
  | start : History 0
  | create {n : Nat} (earlier : History n) (parent : Option (Fin n)) : History (n + 1)
  | define {n : Nat} (earlier : History n) (scope : Fin n) (mention : Mention) (value : Value) :
      History n
  | assign {n : Nat} (earlier : History n) (scope : Fin n) (mention : Mention) (value : Value) :
      History n
  | get {n : Nat} (earlier : History n) (scope : Fin n) (mention : Mention) : History n

namespace History

variable {n : Nat}

/-- The machine after a history. What fails is passed over. -/
def run (room : Nat) {n : Nat} : History n → Machine
  | .start => { store := {} }
  | .create earlier parent =>
    Eval.after (Eval.create (·.newScope (parent.map Fin.val))) (earlier.run room)
  | .define earlier scope mention value =>
    Eval.after (Eval.define scope mention.token value) (earlier.run room)
  | .assign earlier scope mention value =>
    Eval.after (Eval.rebind room scope mention.token value) (earlier.run room)
  | .get earlier scope mention =>
    Eval.after (Eval.lookup room scope mention.token) (earlier.run room)

/-! ## What a history tells -/

/-- The scope that a scope was created in. -/
def parent? (scope : Nat) {n : Nat} : History n → Option Nat
  | .start => none
  | @create n earlier parent => if scope = n then parent.map Fin.val else earlier.parent? scope
  | .define earlier .. | .assign earlier .. | .get earlier .. => earlier.parent? scope

/-- A scope's own names are those that were defined in it. -/
def Binds (name : Name) (scope : Nat) {n : Nat} : History n → Prop
  | .start => False
  | .define earlier scope' mention _ =>
    (scope' = scope ∧ mention.name = name) ∨ earlier.Binds name scope
  | .create earlier _ | .assign earlier .. | .get earlier .. => earlier.Binds name scope

/-- The way outward from a scope comes to another one before any scope that binds the name, and with
it passes no more scopes than there is room for. -/
inductive Reaches (history : History n) (name : Name) : Nat → Nat → Nat → Prop
  | here {room scope : Nat} : Reaches history name (room + 1) scope scope
  | outer {room scope parent target : Nat} (hfree : ¬ history.Binds name scope)
      (hparent : history.parent? scope = some parent)
      (hrest : Reaches history name room parent target) :
      Reaches history name (room + 1) scope target

/-- The first scope on the way outward that binds the name. -/
def Innermost (history : History n) (name : Name) (room scope owner : Nat) : Prop :=
  history.Reaches name room scope owner ∧ history.Binds name owner

/-- The value that was last defined for a name in a scope or assigned to it there. -/
def LastWritten (room owner : Nat) (name : Name) (value : Value) {n : Nat} : History n → Prop
  | .start => False
  | .define earlier scope mention new =>
    (scope = owner ∧ mention.name = name → value = new) ∧
      (¬ (scope = owner ∧ mention.name = name) → earlier.LastWritten room owner name value)
  | .assign earlier scope mention new =>
    (mention.name = name ∧ earlier.Innermost name room scope owner → value = new) ∧
      (¬ (mention.name = name ∧ earlier.Innermost name room scope owner) →
        earlier.LastWritten room owner name value)
  | .create earlier _ | .get earlier .. => earlier.LastWritten room owner name value

theorem parent_lt (history : History n) {scope parent : Nat}
    (h : history.parent? scope = some parent) : parent < scope := by
  induction history with
  | start => cases h
  | @create n earlier inside ih =>
    rw [parent?] at h
    split at h
    · obtain ⟨outer, -, rfl⟩ := Option.map_eq_some_iff.mp h
      omega
    · exact ih h
  | define _ _ _ _ ih | assign _ _ _ _ ih | get _ _ _ ih => exact ih h

theorem Binds.lt {history : History n} {name : Name} {scope : Nat} (h : history.Binds name scope) :
    scope < n := by
  induction history with
  | start => exact h.elim
  | create _ _ ih => exact Nat.lt_succ_of_lt (ih h)
  | define _ scope' _ _ ih =>
    rcases h with ⟨rfl, -⟩ | h
    · exact scope'.isLt
    · exact ih h
  | assign _ _ _ _ ih | get _ _ _ ih => exact ih h

theorem Reaches.mono {history : History n} {name : Name} {room room' scope target : Nat}
    (h : history.Reaches name room scope target) (hr : room ≤ room') :
    history.Reaches name room' scope target := by
  induction h generalizing room' with
  | here =>
    obtain ⟨room', rfl⟩ := Nat.exists_eq_succ_of_ne_zero (show room' ≠ 0 by omega)
    exact .here
  | outer hfree hparent _ ih =>
    obtain ⟨room', rfl⟩ := Nat.exists_eq_succ_of_ne_zero (show room' ≠ 0 by omega)
    exact .outer hfree hparent (ih (by omega))

/-- Scopes are created after those around them, so as many steps as a scope's number are enough. -/
theorem Reaches.within {history : History n} {name : Name} {room scope target : Nat}
    (h : history.Reaches name room scope target) :
    history.Reaches name (scope + 1) scope target := by
  induction h with
  | here => exact .here
  | outer hfree hparent _ ih =>
    exact .outer hfree hparent (ih.mono (history.parent_lt hparent))

end History

/-! ## Stores -/

namespace Store

variable {s : Store}

/-- The scope around a scope. -/
def parent? (s : Store) (scope : Nat) : Option Nat := s.scopes[scope]?.bind (·.parent)

theorem owns_iff {name : Name} {scope : Nat} :
    s.owns name scope = true ↔ (s.own? scope name).isSome := by
  refine ⟨isSome_own?, fun h => ?_⟩
  cases hx : s.scopes[scope]? with
  | none => simp [own?, hx] at h
  | some x => simpa [owns, own?, hx, Fields.has] using h

theorem search_succ (s : Store) (room scope : Nat) (name : Name) :
    s.search (room + 1) scope name =
      if s.owns name scope then .found scope
      else match s.parent? scope with
        | some outer => s.search room outer name
        | none => if 0 < room then .unbound else .tooFar := by
  by_cases howns : s.owns name scope = true
  · rw [search_own howns, if_pos howns]
  · have hfree : s.owns name scope = false := by simpa using howns
    rw [if_neg howns, parent?]
    cases hx : s.scopes[scope]? with
    | none =>
      rw [search, chainWithin, hx, List.find?_cons, hfree]
      simp
    | some x =>
      obtain ⟨parent, names⟩ := x
      cases parent with
      | none => exact search_end hx hfree room
      | some outer => exact search_outer hx hfree room

/-- Where a name is found is told by which scopes bind it and how they are nested. -/
theorem search_congr {s' : Store} (howns : ∀ name scope, s'.owns name scope = s.owns name scope)
    (hparent : ∀ scope, s'.parent? scope = s.parent? scope) (room scope : Nat) (name : Name) :
    s'.search room scope name = s.search room scope name := by
  induction room generalizing scope with
  | zero => rfl
  | succ room ih =>
    rw [search_succ, search_succ, howns, hparent]
    simp only [ih]

theorem chainWithin_of_length (s : Store) {room scope : Nat} (hr : room < scope + 1)
    (h : (s.chain scope).length ≤ room) : s.chainWithin room scope = s.chain scope := by
  by_cases hend : (s.chainWithin room scope).length < room
  · exact (s.chainWithin_eq (Nat.le_of_lt hr) hend).symm
  · exact (s.chainWithin_prefix (Nat.le_of_lt hr) scope).eq_of_length_le (by rw [chain] at h; omega)

theorem own?_define {scope : Nat} (h : scope < s.scopes.size) (name : Name) (value : Value)
    (other : Nat) (name' : Name) :
    (s.define scope name value).own? other name' =
      if scope = other ∧ name = name' then some value else s.own? other name' := by
  by_cases hsame : scope = other ∧ name = name'
  · obtain ⟨rfl, rfl⟩ := hsame
    rw [if_pos ⟨rfl, rfl⟩]
    cases hx : s.scopes[scope]? with
    | none => exact absurd h (Nat.not_lt.mpr (Array.getElem?_eq_none_iff.mp hx))
    | some x => simp [own?, define, Array.getElem?_modify, hx, Fields.get?_put_self]
  · rw [if_neg hsame]
    refine s.own?_define_of_ne ?_ value
    by_contra hboth
    exact hsame (by simp_all)

theorem parent?_define (s : Store) (scope : Nat) (name : Name) (value : Value) (other : Nat) :
    (s.define scope name value).parent? other = s.parent? other := by
  by_cases h : scope = other
  · subst h
    cases hx : s.scopes[scope]? <;> simp [parent?, define, Array.getElem?_modify, hx]
  · simp [parent?, define, Array.getElem?_modify, h]

theorem size_define (s : Store) (scope : Nat) (name : Name) (value : Value) :
    (s.define scope name value).scopes.size = s.scopes.size := by simp [define]

/-- The scope around a scope and the names it binds, without their values. -/
def shapes (s : Store) : Array (Option Nat × List Name) :=
  s.scopes.map fun scope => (scope.parent, Fields.names scope.names)

/-- Binding a name that is bound already adds no name anywhere. -/
theorem shapes_define {scope : Nat} {name : Name} (h : s.owns name scope = true) (value : Value) :
    (s.define scope name value).shapes = s.shapes := by
  refine Array.ext_getElem? fun i => ?_
  simp only [shapes, define, Array.getElem?_map, Array.getElem?_modify]
  split
  · next hi =>
    subst hi
    cases hx : s.scopes[scope]? with
    | none => rfl
    | some x =>
      have hbound : name ∈ Fields.names x.names := by
        rw [owns, hx] at h
        exact (Fields.has_iff _ _).mp h
      simp [Fields.names_put, hbound]
  · rfl

theorem parent?_newScope (s : Store) (parent : Option Nat) (scope : Nat) :
    (s.newScope parent).2.parent? scope =
      if scope = s.scopes.size then parent else s.parent? scope := by
  rw [parent?, newScope, Array.getElem?_push]
  split <;> rfl

theorem own?_newScope (s : Store) (parent : Option Nat) (scope : Nat) (name : Name) :
    (s.newScope parent).2.own? scope name = s.own? scope name := by
  rw [own?, own?, newScope, Array.getElem?_push]
  split
  · next h => simp [h, Fields.get?]
  · rfl

end Store

/-! ## Asking and assigning -/

namespace Eval

/-- What a step gives or why it stops, without the machine. -/
def answer {α : Type} (p : Eval α) (m : Machine) : Except Stop α :=
  match p m with
  | .ok a _ => .ok a
  | .error stop _ => .error stop

theorem define_named (scope : Nat) (mention : Mention) (value : Value) (m : Machine) :
    define scope mention.token value m =
      .ok () { m with store := m.store.define scope mention.name value } := by
  rw [define, nameOf_eq mention.named]
  rfl

theorem lookup_named (room scope : Nat) (mention : Mention) (m : Machine) :
    lookup room scope mention.token m = match m.store.search room scope mention.name with
      | .found owner => .ok ((m.store.own? owner mention.name).getD .nil) m
      | .unbound => .error (.fault (.undefinedVariable mention.token.text) (some mention.token)) m
      | .tooFar => .error .overflow m := by
  have howner := ownerOf_eq room scope mention.token mention.name m
  rw [lookup, nameOf_eq mention.named, pure_bind]
  cases hs : m.store.search room scope mention.name <;> rw [hs] at howner
  · rw [bind_eq_of_ok howner]
    rfl
  · exact bind_eq_of_error howner
  · exact bind_eq_of_error howner

theorem rebind_named (room scope : Nat) (mention : Mention) (value : Value) (m : Machine) :
    rebind room scope mention.token value m = match m.store.search room scope mention.name with
      | .found owner => .ok () { m with store := m.store.define owner mention.name value }
      | .unbound => .error (.fault (.undefinedVariable mention.token.text) (some mention.token)) m
      | .tooFar => .error .overflow m := by
  have howner := ownerOf_eq room scope mention.token mention.name m
  rw [rebind, nameOf_eq mention.named, pure_bind]
  cases hs : m.store.search room scope mention.name <;> rw [hs] at howner
  · rw [bind_eq_of_ok howner]
    rfl
  · exact bind_eq_of_error howner
  · exact bind_eq_of_error howner

theorem answer_lookup (room scope : Nat) (mention : Mention) (m : Machine) :
    answer (lookup room scope mention.token) m = match m.store.search room scope mention.name with
      | .found owner => .ok ((m.store.own? owner mention.name).getD .nil)
      | .unbound => .error (.fault (.undefinedVariable mention.token.text) (some mention.token))
      | .tooFar => .error .overflow := by
  rw [answer, lookup_named]
  cases m.store.search room scope mention.name <;> rfl

theorem answer_rebind (room scope : Nat) (mention : Mention) (value : Value) (m : Machine) :
    answer (rebind room scope mention.token value) m =
      match m.store.search room scope mention.name with
      | .found _ => .ok ()
      | .unbound => .error (.fault (.undefinedVariable mention.token.text) (some mention.token))
      | .tooFar => .error .overflow := by
  rw [answer, rebind_named]
  cases m.store.search room scope mention.name <;> rfl

theorem after_lookup (room scope : Nat) (mention : Mention) (m : Machine) :
    after (lookup room scope mention.token) m = m := by
  rw [after, lookup_named]
  cases m.store.search room scope mention.name <;> rfl

theorem after_rebind (room scope : Nat) (mention : Mention) (value : Value) (m : Machine) :
    after (rebind room scope mention.token value) m =
      match m.store.search room scope mention.name with
        | .found owner => { m with store := m.store.define owner mention.name value }
        | _ => m := by
  rw [after, rebind_named]
  cases m.store.search room scope mention.name <;> rfl

end Eval

/-! ## Stores and their histories -/

namespace History

variable {n room : Nat} {history : History n} {s : Store} {name : Name}

/-- A store holds what a history tells. -/
structure Tracks (room : Nat) (history : History n) (s : Store) : Prop where
  size : s.scopes.size = n
  parent : ∀ scope, s.parent? scope = history.parent? scope
  owns : ∀ name scope, s.owns name scope = true ↔ history.Binds name scope
  own : ∀ scope name value,
    s.own? scope name = some value ↔ history.LastWritten room scope name value

/-- Looking for a name in the store finds the innermost scope that binds it, and nothing else. -/
theorem Tracks.search (h : Tracks room history s) {k scope owner : Nat} :
    s.search k scope name = .found owner ↔ history.Innermost name k scope owner := by
  induction k generalizing scope with
  | zero =>
    refine ⟨fun hs => ?_, fun hin => ?_⟩
    · cases hs
    · cases hin.1
  | succ k ih =>
    rw [Store.search_succ]
    by_cases howns : s.owns name scope = true
    · rw [if_pos howns, Store.Search.found.injEq]
      have hbinds := (h.owns name scope).mp howns
      constructor
      · rintro rfl
        exact ⟨.here, hbinds⟩
      · rintro ⟨hreaches, -⟩
        cases hreaches with
        | here => rfl
        | outer hfree => exact absurd hbinds hfree
    · have hfree : ¬ history.Binds name scope := fun hb => howns ((h.owns name scope).mpr hb)
      rw [if_neg howns, h.parent]
      constructor
      · intro hs
        split at hs
        · next outer hparent =>
          obtain ⟨hreaches, hbinds⟩ := ih.mp hs
          exact ⟨.outer hfree hparent hreaches, hbinds⟩
        · split at hs <;> cases hs
      · rintro ⟨hreaches, hbinds⟩
        cases hreaches with
        | here => exact absurd hbinds hfree
        | outer _ hparent hrest =>
          rw [hparent]
          exact ih.mpr ⟨hrest, hbinds⟩

/-! ## One step -/

theorem ite_eq_some_iff {P : Prop} [Decidable P] {new value : Value} {old : Option Value} :
    (if P then some new else old) = some value ↔ (P → value = new) ∧ (¬ P → old = some value) := by
  by_cases h : P <;> simp [h, eq_comm]

theorem Tracks.newScope (h : Tracks room history s) (parent : Option (Fin n)) :
    Tracks room (history.create parent) (s.newScope (parent.map Fin.val)).2 where
  size := (Array.size_push _).trans (congrArg Nat.succ h.size)
  parent scope := by
    rw [Store.parent?_newScope, h.size, h.parent]
    rfl
  owns name scope := by
    rw [Store.owns_iff, Store.own?_newScope, ← Store.owns_iff]
    exact h.owns name scope
  own scope name value := by
    rw [Store.own?_newScope]
    exact h.own scope name value

/-- The name is bound where it is defined, and has the value there. -/
theorem Tracks.define (h : Tracks room history s) (scope : Fin n) (mention : Mention)
    (value : Value) :
    Tracks room (history.define scope mention value) (s.define scope mention.name value) where
  size := by rw [Store.size_define, h.size]
  parent other := by
    rw [Store.parent?_define]
    exact h.parent other
  owns name other := by
    rw [Store.owns_iff, Store.own?_define (by rw [h.size]; exact scope.isLt), Binds, ← h.owns,
      Store.owns_iff]
    split
    · next hsame => exact ⟨fun _ => .inl hsame, fun _ => rfl⟩
    · next hother => exact ⟨.inr, fun hor => hor.resolve_left hother⟩
  own other name old := by
    rw [Store.own?_define (by rw [h.size]; exact scope.isLt), LastWritten, ← h.own]
    exact ite_eq_some_iff

/-- A name is assigned in the innermost scope that binds it. -/
theorem Tracks.assign (h : Tracks room history s) (scope : Fin n) (mention : Mention)
    (value : Value) {owner : Nat} (howner : history.Innermost mention.name room scope owner) :
    Tracks room (history.assign scope mention value) (s.define owner mention.name value) := by
  have hlt : owner < s.scopes.size := by
    rw [h.size]
    exact howner.2.lt
  have hunique : ∀ other, history.Innermost mention.name room scope other ↔ owner = other := by
    intro other
    rw [← h.search, h.search.mpr howner, Store.Search.found.injEq]
  refine ⟨by rw [Store.size_define, h.size], fun other => ?_, fun name other => ?_,
    fun other name old => ?_⟩
  · rw [Store.parent?_define]
    exact h.parent other
  · rw [Store.owns_iff, Store.own?_define hlt, Binds, ← h.owns, Store.owns_iff]
    split
    · next hsame =>
      obtain ⟨rfl, rfl⟩ := hsame
      exact ⟨fun _ => Store.owns_iff.mp ((h.owns _ _).mpr howner.2), fun _ => rfl⟩
    · rfl
  · rw [Store.own?_define hlt, LastWritten, ← h.own]
    have hsame : (mention.name = name ∧ history.Innermost name room scope other) ↔
        owner = other ∧ mention.name = name := by
      constructor
      · rintro ⟨rfl, hin⟩
        exact ⟨(hunique other).mp hin, rfl⟩
      · rintro ⟨rfl, rfl⟩
        exact ⟨rfl, howner⟩
    rw [hsame]
    exact ite_eq_some_iff

/-- An assignment that fails writes nothing. -/
theorem Tracks.assign_none (h : Tracks room history s) (scope : Fin n) (mention : Mention)
    (value : Value) (hnone : ∀ owner, ¬ history.Innermost mention.name room scope owner) :
    Tracks room (history.assign scope mention value) s := by
  refine ⟨h.size, h.parent, h.owns, fun other name old => ?_⟩
  have hother : ¬ (mention.name = name ∧ history.Innermost name room scope other) := by
    rintro ⟨rfl, hin⟩
    exact hnone other hin
  rw [LastWritten, h.own]
  exact ⟨fun hold => ⟨fun hsame => absurd hsame hother, fun _ => hold⟩, fun hboth => hboth.2 hother⟩

/-! ## The whole history -/

theorem tracks_run (room : Nat) (history : History n) :
    Tracks room history (history.run room).store := by
  induction history with
  | start => exact ⟨rfl, fun _ => rfl, fun _ _ => by simp [Store.owns, run, Binds],
      fun _ _ _ => by simp [Store.own?, run, LastWritten]⟩
  | create earlier parent ih => exact ih.newScope parent
  | define earlier scope mention value ih =>
    rw [run, Eval.after, Eval.define_named]
    exact ih.define scope mention value
  | assign earlier scope mention value ih =>
    rw [run, Eval.after_rebind]
    cases hs : (earlier.run room).store.search room scope mention.name with
    | found owner => exact ih.assign scope mention value (ih.search.mp hs)
    | unbound | tooFar =>
      refine ih.assign_none scope mention value fun owner hin => ?_
      rw [ih.search.mpr hin] at hs
      cases hs
  | get earlier scope mention ih =>
    rw [run, Eval.after_lookup]
    exact ⟨ih.size, ih.parent, ih.owns, ih.own⟩

/-! ## What one more definition changes -/

theorem Reaches.define {k scope' : Nat} {scope : Fin n} {mention : Mention}
    (h : history.Reaches mention.name k scope' scope) (value : Value) :
    (history.define scope mention value).Reaches mention.name k scope' scope := by
  generalize htarget : (scope : Nat) = target at h
  induction h with
  | here => exact .here
  | @outer k scope' parent _ hfree hparent _ ih =>
    subst htarget
    by_cases hhere : scope' = scope
    · rw [hhere]
      exact .here
    · refine .outer ?_ hparent (ih rfl)
      rintro (⟨hsame, -⟩ | hbinds)
      · exact hhere hsame.symm
      · exact hfree hbinds

/-- No scope gains a name where one is bound already, so every name is found where it was. -/
theorem Tracks.search_assign (h : Tracks room history s) {owner : Nat}
    (howner : history.Binds name owner) (value : Value) (k other : Nat) (name' : Name) :
    (s.define owner name value).search k other name' = s.search k other name' := by
  have hsize : owner < s.scopes.size := by
    rw [h.size]
    exact howner.lt
  refine Store.search_congr (fun name' other => ?_) (Store.parent?_define _ _ _ _) k other name'
  rw [Bool.eq_iff_iff, Store.owns_iff, Store.owns_iff, Store.own?_define hsize]
  split
  · next hsame =>
    obtain ⟨rfl, rfl⟩ := hsame
    exact ⟨fun _ => Store.owns_iff.mp ((h.owns _ _).mpr howner), fun _ => rfl⟩
  · rfl

theorem Tracks.search_define (h : Tracks room history s) (scope : Fin n) (mention : Mention)
    (value : Value) {k scope' : Nat}
    (hnot : ¬ (name = mention.name ∧ history.Reaches mention.name k scope' scope)) :
    (s.define scope mention.name value).search k scope' name = s.search k scope' name := by
  induction k generalizing scope' with
  | zero => rfl
  | succ k ih =>
    -- Not here, or the definition would be seen.
    have hother : ¬ ((scope : Nat) = scope' ∧ mention.name = name) := by
      rintro ⟨rfl, rfl⟩
      exact hnot ⟨rfl, .here⟩
    have howns : (s.define scope mention.name value).owns name scope' = s.owns name scope' := by
      rw [Bool.eq_iff_iff, Store.owns_iff, Store.owns_iff,
        Store.own?_define (by rw [h.size]; exact scope.isLt), if_neg hother]
    rw [Store.search_succ, Store.search_succ, howns, Store.parent?_define]
    by_cases hbound : s.owns name scope' = true
    · rw [if_pos hbound, if_pos hbound]
    · rw [if_neg hbound, if_neg hbound]
      cases hparent : s.parent? scope' with
      | none => rfl
      | some outer =>
        refine ih ?_
        rintro ⟨rfl, hreaches⟩
        exact hnot ⟨rfl, .outer (fun hb => hbound ((h.owns _ _).mpr hb))
          (by rw [← h.parent, hparent]) hreaches⟩

/-! ## What is asked -/

/-- Names are looked up, assigned and defined as a history tells. -/
structure Lexical (room : Nat) (history : History n) (m : Machine) : Prop where
  /-- A name has the value last written to it in the innermost scope that binds it. -/
  get : ∀ (scope : Nat) (mention : Mention) (value : Value),
    Eval.answer (Eval.lookup room scope mention.token) m = .ok value ↔
      ∃ owner, history.Innermost mention.name room scope owner ∧
        history.LastWritten room owner mention.name value
  /-- A name is there if some scope on the way outward binds it. -/
  contains : ∀ (scope : Nat) (name : Name), m.store.contains scope name = true ↔
    ∃ steps owner, history.Innermost name steps scope owner
  /-- The same names can be asked for and be assigned: those that are there, if there is room for
  all scopes on the way outward. -/
  agree : ∀ (scope : Nat) (mention : Mention) (value : Value),
    ((∃ old, Eval.answer (Eval.lookup room scope mention.token) m = .ok old) ↔
      Eval.answer (Eval.rebind room scope mention.token value) m = .ok ()) ∧
    ((m.store.chain scope).length ≤ room →
      (Eval.answer (Eval.rebind room scope mention.token value) m = .ok () ↔
        m.store.contains scope mention.name = true))
  /-- Asking changes nothing, and neither does an assignment that fails. -/
  unchanged : ∀ (scope : Nat) (mention : Mention) (value : Value),
    Eval.after (Eval.lookup room scope mention.token) m = m ∧
    (Eval.answer (Eval.rebind room scope mention.token value) m ≠ .ok () →
      Eval.after (Eval.rebind room scope mention.token value) m = m)
  /-- A definition is seen from the scopes that come to it before any other binding of the name, and
  nothing else is seen anew. -/
  define : ∀ (scope : Fin n) (mention : Mention) (value : Value) (scope' : Nat)
    (mention' : Mention),
    (mention'.name = mention.name ∧ history.Reaches mention.name room scope' scope →
      Eval.answer (Eval.lookup room scope' mention'.token)
        (Eval.after (Eval.define scope mention.token value) m) = .ok value) ∧
    (¬ (mention'.name = mention.name ∧ history.Reaches mention.name room scope' scope) →
      Eval.answer (Eval.lookup room scope' mention'.token)
        (Eval.after (Eval.define scope mention.token value) m) =
      Eval.answer (Eval.lookup room scope' mention'.token) m)
  /-- An assignment is seen from the scopes for which the name is the same one, and nothing else is
  seen anew. -/
  assign : ∀ (scope : Nat) (mention : Mention) (value : Value) (owner : Nat),
    history.Innermost mention.name room scope owner → ∀ (scope' : Nat) (mention' : Mention),
    (mention'.name = mention.name ∧ history.Innermost mention.name room scope' owner →
      Eval.answer (Eval.lookup room scope' mention'.token)
        (Eval.after (Eval.rebind room scope mention.token value) m) = .ok value) ∧
    (¬ (mention'.name = mention.name ∧ history.Innermost mention.name room scope' owner) →
      Eval.answer (Eval.lookup room scope' mention'.token)
        (Eval.after (Eval.rebind room scope mention.token value) m) =
      Eval.answer (Eval.lookup room scope' mention'.token) m)
  /-- An assignment adds no name to any scope. -/
  names : ∀ (scope : Nat) (mention : Mention) (value : Value),
    (Eval.after (Eval.rebind room scope mention.token value) m).store.shapes = m.store.shapes

variable {m : Machine} (h : Tracks room history m.store)
include h

theorem Tracks.answer_lookup_iff (scope : Nat) (mention : Mention) (value : Value) :
    Eval.answer (Eval.lookup room scope mention.token) m = .ok value ↔
      ∃ owner, history.Innermost mention.name room scope owner ∧
        history.LastWritten room owner mention.name value := by
  rw [Eval.answer_lookup]
  constructor
  · intro hanswer
    split at hanswer
    · next owner hfound =>
      obtain ⟨own, hown⟩ :=
        Option.isSome_iff_exists.mp (Store.owns_iff.mp (Store.search_found hfound))
      rw [hown] at hanswer
      cases hanswer
      exact ⟨owner, h.search.mp hfound, (h.own _ _ _).mp hown⟩
    · cases hanswer
    · cases hanswer
  · rintro ⟨owner, hin, hlast⟩
    simp only [h.search.mpr hin, (h.own _ _ _).mpr hlast]
    rfl

theorem Tracks.answer_rebind_iff (scope : Nat) (mention : Mention) (value : Value) :
    Eval.answer (Eval.rebind room scope mention.token value) m = .ok () ↔
      ∃ owner, history.Innermost mention.name room scope owner := by
  rw [Eval.answer_rebind]
  simp only [← h.search]
  cases m.store.search room scope mention.name <;> simp

/-- A name that a scope binds has been written there. -/
theorem Tracks.exists_lastWritten {owner : Nat} (hbinds : history.Binds name owner) :
    ∃ value, history.LastWritten room owner name value := by
  obtain ⟨value, hvalue⟩ :=
    Option.isSome_iff_exists.mp (Store.owns_iff.mp ((h.owns name owner).mpr hbinds))
  exact ⟨value, (h.own _ _ _).mp hvalue⟩

theorem Tracks.contains_iff (scope : Nat) (name : Name) :
    m.store.contains scope name = true ↔
      ∃ steps owner, history.Innermost name steps scope owner := by
  rw [Store.contains, Store.resolve?, Store.chain, Option.isSome_iff_exists]
  constructor
  · rintro ⟨owner, hfind⟩
    exact ⟨scope + 1, owner, h.search.mp (Store.search_eq_found.mpr hfind)⟩
  · rintro ⟨steps, owner, hreaches, hbinds⟩
    exact ⟨owner, Store.search_eq_found.mp (h.search.mpr ⟨hreaches.within, hbinds⟩)⟩

/-- With room for the whole way outward, a name that is there is found. -/
theorem Tracks.innermost_within {steps scope owner : Nat}
    (hin : history.Innermost name steps scope owner)
    (hroom : (m.store.chain scope).length ≤ room) : history.Innermost name room scope owner := by
  have hchain : (m.store.chain scope).find? (m.store.owns name) = some owner :=
    Store.search_eq_found.mp (h.search.mpr ⟨hin.1.within, hin.2⟩)
  by_cases hlt : room < scope + 1
  · rw [← h.search, Store.search_eq_found, m.store.chainWithin_of_length hlt hroom, hchain]
  · exact ⟨hin.1.within.mono (by omega), hin.2⟩

theorem Tracks.define_seen (scope : Fin n) (mention : Mention) (value : Value) (scope' : Nat)
    (mention' : Mention) :
    (mention'.name = mention.name ∧ history.Reaches mention.name room scope' scope →
      Eval.answer (Eval.lookup room scope' mention'.token)
        (Eval.after (Eval.define scope mention.token value) m) = .ok value) ∧
    (¬ (mention'.name = mention.name ∧ history.Reaches mention.name room scope' scope) →
      Eval.answer (Eval.lookup room scope' mention'.token)
        (Eval.after (Eval.define scope mention.token value) m) =
      Eval.answer (Eval.lookup room scope' mention'.token) m) := by
  have hsize : (scope : Nat) < m.store.scopes.size := by
    rw [h.size]
    exact scope.isLt
  rw [Eval.after, Eval.define_named, Eval.answer_lookup, Eval.answer_lookup]
  constructor
  · rintro ⟨hname, hreaches⟩
    have hfound := (h.define scope mention value).search.mpr
      ⟨hreaches.define value, .inl ⟨rfl, rfl⟩⟩
    rw [hname]
    simp only [hfound, Store.own?_define hsize, and_self, if_true]
    rfl
  · intro hnot
    simp only [h.search_define scope mention value hnot]
    cases hs : m.store.search room scope' mention'.name with
    | found owner =>
      have hother : ¬ ((scope : Nat) = owner ∧ mention.name = mention'.name) := by
        rintro ⟨rfl, hname⟩
        exact hnot ⟨hname.symm, by rw [hname]; exact (h.search.mp hs).1⟩
      simp only [Store.own?_define hsize, if_neg hother]
    | unbound => rfl
    | tooFar => rfl

theorem Tracks.assign_seen (scope : Nat) (mention : Mention) (value : Value) {owner : Nat}
    (howner : history.Innermost mention.name room scope owner) (scope' : Nat) (mention' : Mention) :
    (mention'.name = mention.name ∧ history.Innermost mention.name room scope' owner →
      Eval.answer (Eval.lookup room scope' mention'.token)
        (Eval.after (Eval.rebind room scope mention.token value) m) = .ok value) ∧
    (¬ (mention'.name = mention.name ∧ history.Innermost mention.name room scope' owner) →
      Eval.answer (Eval.lookup room scope' mention'.token)
        (Eval.after (Eval.rebind room scope mention.token value) m) =
      Eval.answer (Eval.lookup room scope' mention'.token) m) := by
  have hsize : owner < m.store.scopes.size := by
    rw [h.size]
    exact howner.2.lt
  rw [Eval.after_rebind, h.search.mpr howner, Eval.answer_lookup, Eval.answer_lookup]
  simp only [h.search_assign howner.2]
  constructor
  · rintro ⟨hname, hin⟩
    rw [hname, h.search.mpr hin]
    simp only [Store.own?_define hsize, and_self, if_true]
    rfl
  · intro hnot
    cases hs : m.store.search room scope' mention'.name with
    | found other =>
      have hother : ¬ (owner = other ∧ mention.name = mention'.name) := by
        rintro ⟨rfl, hname⟩
        exact hnot ⟨hname.symm, by rw [hname]; exact h.search.mp hs⟩
      simp only [Store.own?_define hsize, if_neg hother]
    | unbound => rfl
    | tooFar => rfl

omit h

/-- Names are looked up lexically, whatever has been done with scopes before. -/
theorem scopes_lexical (room : Nat) (history : History n) :
    Lexical room history (history.run room) := by
  have h := tracks_run room history
  refine ⟨h.answer_lookup_iff, h.contains_iff, fun scope mention value => ⟨?_, fun hroom => ?_⟩,
    fun scope mention value => ⟨Eval.after_lookup _ _ _ _, fun hfails => ?_⟩, h.define_seen,
    fun scope mention value owner howner => h.assign_seen scope mention value howner,
    fun scope mention value => ?_⟩
  · simp only [h.answer_lookup_iff, h.answer_rebind_iff]
    constructor
    · rintro ⟨_, owner, hin, -⟩
      exact ⟨owner, hin⟩
    · rintro ⟨owner, hin⟩
      obtain ⟨value, hlast⟩ := h.exists_lastWritten hin.2
      exact ⟨value, owner, hin, hlast⟩
  · rw [h.answer_rebind_iff, h.contains_iff]
    constructor
    · rintro ⟨owner, hin⟩
      exact ⟨room, owner, hin⟩
    · rintro ⟨steps, owner, hreaches, hbinds⟩
      exact ⟨owner, h.innermost_within ⟨hreaches, hbinds⟩ hroom⟩
  · rw [Eval.answer_rebind] at hfails
    rw [Eval.after_rebind]
    cases hs : (history.run room).store.search room scope mention.name with
    | found => simp [hs] at hfails
    | unbound | tooFar => rfl
  · rw [Eval.after_rebind]
    cases hs : (history.run room).store.search room scope mention.name with
    | found => exact Store.shapes_define (Store.search_found hs) value
    | unbound | tooFar => rfl

/-- The name `x`. -/
def ecks : Mention := ⟨⟨.identifier, .string "x", .null, .int 1⟩, .text "x", rfl⟩

/-- Three scopes in each other. The innermost one assigns to a name, and only then does the one in
the middle bind it. -/
def lateBinding : History 3 :=
  (((((start.create none).define 0 ecks (.bool false)).create (some 0)).create (some 1)).assign 2
    ecks (.string "outer")).define 1 ecks (.string "inner")

theorem lateBinding_lexical :
    Lexical 9 lateBinding (lateBinding.run 9) ∧
      Eval.answer (Eval.lookup 9 2 ecks.token) (lateBinding.run 9) = .ok (.string "inner") ∧
      Eval.answer (Eval.lookup 9 0 ecks.token) (lateBinding.run 9) = .ok (.string "outer") :=
  ⟨scopes_lexical 9 lateBinding, rfl, rfl⟩

end History

end GameScript
