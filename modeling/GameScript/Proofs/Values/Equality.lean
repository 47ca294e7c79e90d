import GameScript.Proofs.Steps
import GameScript.Value.Text
import Mathlib

/-! Equality of values, as equality of the trees that their arrays unfold to.

Comparing two arrays starts with a look at whether they are the same one, at every level. Numbers make
this visible: what is no number differs from itself, but an array that holds it does not. The main
result is that this is the only trace the look leaves. Where no such number is within reach the answer
is whether the unfolded trees are alike, so which arrays are shared does not matter; and symmetry and
transitivity hold everywhere, arrays that hold themselves included. -/

namespace GameScript

/-! ## Equality of numbers -/

namespace Number

open Float.Model (UnpackedFloat)

/-- What equality of numbers looks at, nothing for what is no number. Both zeros look the same. -/
def unpackedKey? : UnpackedFloat → Option (UnpackedFloat.Sign × Option (Nat × Int))
  | .notANumber => none
  | .infinity sign => some (sign, none)
  | .zero _ => some (.positive, some (0, 0))
  | .finite sign mantissa exponent _ => some (sign, some (mantissa, exponent))

def key? (x : Float) : Option (UnpackedFloat.Sign × Option (Nat × Int)) :=
  unpackedKey? x.toModel.unpack

theorem sign_compare (s t : UnpackedFloat.Sign) : compare s t = .eq ↔ s = t := by
  cases s <;> cases t <;> simp [compare]

theorem unpacked_beq (x y : UnpackedFloat) :
    x.beq y ↔ ∃ key, unpackedKey? x = some key ∧ unpackedKey? y = some key := by
  rw [UnpackedFloat.beq, beq_iff_eq]
  rcases x with s | _ | s | ⟨s, m, e, hm⟩ <;> rcases y with t | _ | t | ⟨t, n, f, hn⟩
  case infinity.infinity => simp [UnpackedFloat.compare, unpackedKey?, sign_compare, @eq_comm _ t]
  case finite.finite =>
    cases s <;> cases t <;>
      simp only [UnpackedFloat.compare, unpackedKey?, Option.some.injEq, Ordering.swap_eq_eq,
        Ordering.then_eq_eq, compare_eq_iff_eq] <;> grind
  -- The others are told apart by their form, a zero from a finite number by its mantissa.
  all_goals (try cases s) <;> (try cases t) <;> simp [UnpackedFloat.compare, unpackedKey?] <;>
    try omega

theorem beq_iff (x y : Float) : (x == y) = true ↔ ∃ key, key? x = some key ∧ key? y = some key :=
  unpacked_beq _ _

theorem isNaN_iff (x : Float) : x.isNaN = true ↔ key? x = none := by
  show x.toModel.unpack.isNaN = true ↔ unpackedKey? x.toModel.unpack = none
  cases x.toModel.unpack <;> simp [UnpackedFloat.isNaN, unpackedKey?]

theorem beq_comm (x y : Float) : (x == y) = (y == x) := by
  rw [Bool.eq_iff_iff, beq_iff, beq_iff]
  simp only [And.comm]

theorem beq_trans {x y z : Float} (hxy : (x == y) = true) (hyz : (y == z) = true) :
    (x == z) = true := by
  obtain ⟨key, hx, hy⟩ := (beq_iff x y).1 hxy
  obtain ⟨key', hy', hz⟩ := (beq_iff y z).1 hyz
  obtain rfl : key = key' := by simpa [hy] using hy'
  exact (beq_iff x z).2 ⟨key, hx, hz⟩

theorem beq_self {x : Float} (h : x.isNaN = false) : (x == x) = true := by
  obtain ⟨key, hkey⟩ : ∃ key, key? x = some key := by
    rw [← Option.ne_none_iff_exists', ne_eq, ← isNaN_iff, h]
    simp
  exact (beq_iff x x).2 ⟨key, hkey, hkey⟩

end Number

/-! ## What values hold -/

/-- A value that programs can write. -/
def Value.Ordinary (value : Value) : Prop := ∀ data, value ≠ .datum data

/-- Anything but what is no number. -/
def Value.NotNaN (value : Value) : Prop := ∀ x, value = .number x → x.isNaN = false

namespace Store

variable {store : Store}

/-- An array holds its elements; other values hold nothing. -/
def Holds (store : Store) (outer inner : Value) : Prop :=
  ∃ place, outer = .array place ∧ inner ∈ (store.elements place).toList

/-- Is something true of a value and of all that can be reached from it? -/
def Throughout (store : Store) (P : Value → Prop) (value : Value) : Prop :=
  ∀ inner, Relation.ReflTransGen store.Holds value inner → P inner

/-- No array holds itself, directly or through others. -/
def Acyclic (store : Store) : Prop := ∀ value, ¬ Relation.TransGen store.Holds value value

theorem Throughout.self {P : Value → Prop} {value : Value} (h : store.Throughout P value) : P value :=
  h value .refl

theorem Throughout.element {P : Value → Prop} {place : Nat} (h : store.Throughout P (.array place))
    {element : Value} (he : element ∈ (store.elements place).toList) : store.Throughout P element :=
  fun inner hinner => h inner (.head ⟨place, rfl, he⟩ hinner)

theorem throughout_of_elements {P : Value → Prop}
    (h : ∀ place, ∀ element ∈ (store.elements place).toList, P element) {value : Value}
    (hvalue : P value) : store.Throughout P value := by
  intro inner hinner
  cases hinner with
  | refl => exact hvalue
  | tail _ hlast =>
    obtain ⟨place, -, hmem⟩ := hlast
    exact h place inner hmem

/-- Only the arrays of the store hold something. -/
theorem Holds.array {outer inner : Value} (h : store.Holds outer inner) :
    outer ∈ Value.array '' {place | place < store.arrays.size} := by
  obtain ⟨place, rfl, hmem⟩ := h
  refine ⟨place, ?_, rfl⟩
  by_contra hlt
  simp [elements, Array.getElem?_eq_none (Nat.le_of_not_lt hlt)] at hmem

/-- A store has finitely many arrays, so without cycles every way down comes to an end. -/
theorem Acyclic.wellFounded (h : store.Acyclic) : WellFounded (flip store.Holds) := by
  have : IsStrictOrder Value (flip (Relation.TransGen store.Holds)) :=
    { irrefl := h, trans := fun _ _ _ hab hbc => Relation.TransGen.trans hbc hab }
  have harrays : (Value.array '' {place | place < store.arrays.size}).WellFoundedOn
      (flip (Relation.TransGen store.Holds)) := ((Set.finite_lt_nat _).image _).wellFoundedOn
  have hfield (value : Value) (hmem : value ∈ Value.array '' {place | place < store.arrays.size}) :
      Acc (flip store.Holds) value := by
    refine harrays.induction hmem fun outer _ ih => ⟨outer, fun inner hinner => ?_⟩
    by_cases hholds : ∃ more, store.Holds inner more
    · exact ih inner hholds.choose_spec.array (.single hinner)
    · exact ⟨inner, fun more hmore => absurd ⟨more, hmore⟩ hholds⟩
  refine ⟨fun value => ⟨value, fun inner hinner => ?_⟩⟩
  exact (hfield value (Holds.array hinner)).inv hinner

/-- How young a value is: arrays by their place, and anything else older than all of them. -/
def age : Value → Nat
  | .array place => place + 1
  | _ => 0

/-- A store in which arrays hold only older ones has no cycles. -/
theorem acyclic_of_older
    (h : ∀ place inner, Value.array inner ∈ (store.elements place).toList → inner < place) :
    store.Acyclic := by
  have hstep {outer inner : Value} (hholds : store.Holds outer inner) : age inner < age outer := by
    obtain ⟨place, rfl, hmem⟩ := hholds
    cases inner with
    | array inner => simpa [age] using h place inner hmem
    | _ => simp [age]
  have hreach {outer inner : Value} (hholds : Relation.TransGen store.Holds outer inner) :
      age inner < age outer := by
    induction hholds with
    | single hlast => exact hstep hlast
    | tail _ hlast ih => exact (hstep hlast).trans ih
  exact fun value hcycle => lt_irrefl _ (hreach hcycle)

end Store

/-! ## Unfolding -/

/-- A value with its arrays written out. -/
inductive Unfolding where
  | leaf (value : Value)
  | branch (elements : List Unfolding)

/-- Are two values that are no arrays equal? They have one tag and one value: numbers are compared as
numbers, and functions are equal only to themselves. -/
inductive Value.Alike : Value → Value → Prop
  | nil : Alike .nil .nil
  | bool (value : Bool) : Alike (.bool value) (.bool value)
  | number {x y : Float} (h : (x == y) = true) : Alike (.number x) (.number y)
  | string (value : String) : Alike (.string value) (.string value)
  | function (place : Nat) : Alike (.function place) (.function place)
  | native (which : Native) : Alike (.native which) (.native which)

namespace Unfolding

/-- Have two unfoldings one shape, with equal leaves? -/
inductive Alike : Unfolding → Unfolding → Prop
  | leaf {a b : Value} (h : a.Alike b) : Alike (.leaf a) (.leaf b)
  | branch {xs ys : List Unfolding} (h : List.Forall₂ Alike xs ys) : Alike (.branch xs) (.branch ys)

@[simp] theorem alike_leaf {a b : Value} : Alike (.leaf a) (.leaf b) ↔ a.Alike b :=
  ⟨fun | .leaf h => h, .leaf⟩

@[simp] theorem alike_branch {xs ys : List Unfolding} :
    Alike (.branch xs) (.branch ys) ↔ List.Forall₂ Alike xs ys :=
  ⟨fun | .branch h => h, .branch⟩

mutual

/-- How many values stand above one another, at most. -/
def height : Unfolding → Nat
  | .leaf _ => 1
  | .branch elements => heights elements + 1
termination_by structural unfolding => unfolding

def heights : List Unfolding → Nat
  | [] => 0
  | unfolding :: rest => max unfolding.height (heights rest)
termination_by structural unfoldings => unfoldings

end

theorem height_pos (unfolding : Unfolding) : 0 < unfolding.height := by
  cases unfolding <;> exact Nat.succ_pos _

theorem height_le_heights {unfolding : Unfolding} {unfoldings : List Unfolding}
    (h : unfolding ∈ unfoldings) : unfolding.height ≤ heights unfoldings := by
  induction h with
  | head rest => exact le_max_left ..
  | tail first _ ih => exact ih.trans (le_max_right ..)

end Unfolding

namespace Store

variable {store : Store}

/-- The unfolding of a value. -/
def unfolding (store : Store) (h : store.Acyclic) (value : Value) : Unfolding :=
  match value with
  | .array place =>
    .branch ((store.elements place).toList.attach.map fun element => store.unfolding h element.1)
  | value => .leaf value
termination_by h.wellFounded.wrap value
decreasing_by exact ⟨place, rfl, element.2⟩

@[simp] theorem unfolding_array (h : store.Acyclic) (place : Nat) :
    store.unfolding h (.array place) =
      .branch ((store.elements place).toList.map (store.unfolding h)) := by
  rw [unfolding]
  simp

@[simp] theorem unfolding_leaf (h : store.Acyclic) {value : Value}
    (hvalue : ∀ place, value ≠ .array place) : store.unfolding h value = .leaf value := by
  rw [unfolding]
  exact hvalue

/-! ## Comparing lists -/

section lists

variable {equal? : Value → Value → Option Bool} {xs ys zs : List Value}

theorem allEqual?_comm (h : ∀ x ∈ xs, ∀ y, equal? x y = equal? y x) :
    allEqual? equal? xs ys = allEqual? equal? ys xs := by
  induction xs generalizing ys with
  | nil => cases ys <;> rfl
  | cons x xs ih =>
    cases ys with
    | nil => rfl
    | cons y ys =>
      rw [allEqual?, allEqual?, h x List.mem_cons_self y,
        ih fun x hx => h x (List.mem_cons_of_mem _ hx)]

theorem allEqual?_eq_true (h : xs.length = ys.length) :
    allEqual? equal? xs ys = some true ↔ List.Forall₂ (fun x y => equal? x y = some true) xs ys := by
  induction xs generalizing ys with
  | nil => cases ys <;> simp_all [allEqual?]
  | cons x xs ih =>
    cases ys with
    | nil => cases h
    | cons y ys =>
      rw [allEqual?, List.forall₂_cons, ← ih (Nat.succ.inj h)]
      cases equal? x y with
      | none => simp
      | some same => cases same <;> simp

theorem allEqual?_trans (hxy : xs.length = ys.length) (hyz : ys.length = zs.length)
    (h : ∀ x ∈ xs, ∀ y z, equal? x y = some true → equal? y z = some true → equal? x z = some true)
    (hl : allEqual? equal? xs ys = some true) (hr : allEqual? equal? ys zs = some true) :
    allEqual? equal? xs zs = some true := by
  rw [allEqual?_eq_true hxy] at hl
  rw [allEqual?_eq_true hyz] at hr
  rw [allEqual?_eq_true (hxy.trans hyz)]
  clear hxy hyz
  induction hl generalizing zs with
  | nil => exact hr
  | cons hx _ ih =>
    cases hr with
    | cons hy hrest =>
      exact .cons (h _ List.mem_cons_self _ _ hx hy)
        (ih (fun x hx => h x (List.mem_cons_of_mem _ hx)) hrest)

/-- Where the comparison of elements decides a relation, that of lists decides it one for one. -/
theorem allEqual?_decides {R : Value → Value → Prop} (hlength : xs.length = ys.length)
    (h : ∀ x ∈ xs, ∀ y same, equal? x y = some same → (same = true ↔ R x y)) {same : Bool}
    (hsame : allEqual? equal? xs ys = some same) : same = true ↔ List.Forall₂ R xs ys := by
  induction xs generalizing ys with
  | nil => cases ys <;> simp_all [allEqual?]
  | cons x xs ih =>
    cases ys with
    | nil => cases hlength
    | cons y ys =>
      rw [allEqual?, Option.bind_eq_bind, Option.bind_eq_some_iff] at hsame
      obtain ⟨first, hfirst, hrest⟩ := hsame
      have hR := h x List.mem_cons_self y first hfirst
      rw [List.forall₂_cons]
      cases first with
      | true =>
        rw [ih (Nat.succ.inj hlength) (fun x hx => h x (List.mem_cons_of_mem _ hx)) hrest]
        simp [hR.1 rfl]
      | false =>
        cases hrest
        simp [← hR]

theorem allEqual?_isSome (h : ∀ x ∈ xs, ∀ y, (equal? x y).isSome) :
    (allEqual? equal? xs ys).isSome := by
  induction xs generalizing ys with
  | nil => rfl
  | cons x xs ih =>
    cases ys with
    | nil => rfl
    | cons y ys =>
      obtain ⟨first, hfirst⟩ := Option.isSome_iff_exists.1 (h x List.mem_cons_self y)
      rw [allEqual?, hfirst]
      cases first with
      | true => exact ih fun x hx => h x (List.mem_cons_of_mem _ hx)
      | false => rfl

end lists

/-! ## Symmetry and transitivity -/

theorem equal?_comm {a : Value} (ha : store.Throughout Value.Ordinary a) (room : Nat) (b : Value) :
    store.equal? room a b = store.equal? room b a := by
  induction room using room_induction generalizing a b with
  | zero | one | two => rfl
  | more room ih =>
    cases a <;> cases b <;> try rfl
    case bool.bool | string.string | function.function | native.native =>
      simp only [equal?, eq_comm]
    case number.number x y => simp only [equal?, Number.beq_comm x y]
    case datum.datum data _ => exact absurd rfl (ha.self data)
    case array.array p q =>
      have helements : allEqual? (store.equal? room) (store.elements p).toList
          (store.elements q).toList = _ :=
        allEqual?_comm fun x hx y => ih (ha.element hx) y
      simp only [equal?, helements, eq_comm (a := p), ne_eq,
        eq_comm (a := (store.elements p).toList.length)]

theorem equal?_array {room p q : Nat} :
    store.equal? (room + 3) (.array p) (.array q) = some true ↔
      p = q ∨ (store.elements p).toList.length = (store.elements q).toList.length ∧
        allEqual? (store.equal? room) (store.elements p).toList (store.elements q).toList =
          some true := by
  rw [equal?]
  by_cases hpq : p = q
  · simp [hpq]
  · by_cases hlength : (store.elements p).size = (store.elements q).size <;> simp [hpq, hlength]

/-- Which of the two comparisons were by identity makes four cases; in three of them the third
comparison is one of the given ones. -/
theorem equal?_trans {a : Value} (ha : store.Throughout Value.Ordinary a) {room : Nat} {b c : Value}
    (hab : store.equal? room a b = some true) (hbc : store.equal? room b c = some true) :
    store.equal? room a c = some true := by
  induction room using room_induction generalizing a b c with
  | zero | one | two => cases hab
  | more room ih =>
    cases a <;> cases b <;> try cases hab
    case nil.nil.refl => exact hbc
    case array.array p q =>
      cases c <;> try cases hbc
      case array r =>
        rw [equal?_array] at hab hbc ⊢
        obtain rfl | ⟨hpq, hab⟩ := hab
        · exact hbc
        · obtain rfl | ⟨hqr, hbc⟩ := hbc
          · exact .inr ⟨hpq, hab⟩
          · refine .inr ⟨hpq.trans hqr, allEqual?_trans hpq hqr ?_ hab hbc⟩
            exact fun x hx y z hxy hyz => ih (ha.element hx) hxy hyz
    case datum.datum data _ => exact absurd rfl (ha.self data)
    all_goals cases c <;> try cases hbc
    case number.number.number x y z =>
      simp only [equal?, Option.some.injEq] at hab hbc ⊢
      exact Number.beq_trans hab hbc
    all_goals simp_all [equal?]

/-! ## Structure -/

/-- Away from arrays the comparison is by tag and value. -/
theorem equal?_leaf {a b : Value} (ha : a.Ordinary) (room : Nat)
    (hab : ∀ p q, a = .array p → b ≠ .array q) :
    ∃ same, store.equal? (room + 3) a b = some same ∧ (same = true ↔ a.Alike b) := by
  cases a <;> cases b <;> try exact ⟨false, rfl, nofun, nofun⟩
  case nil.nil => exact ⟨true, rfl, by simp [Value.Alike.nil]⟩
  case number.number x y => exact ⟨x == y, rfl, .number, fun | .number h => h⟩
  case array.array p q => exact absurd rfl (hab p q rfl)
  case datum.datum data _ => exact absurd rfl (ha data)
  all_goals
    refine ⟨_, rfl, ?_⟩
    rw [decide_eq_true_iff]
    constructor
    · rintro rfl
      constructor
    · rintro ⟨⟩
      rfl

theorem alike_iff_leaves (h : store.Acyclic) {a b : Value} (hab : ∀ p q, a = .array p → b ≠ .array q) :
    (store.unfolding h a).Alike (store.unfolding h b) ↔ a.Alike b := by
  by_cases ha : ∃ p, a = .array p
  · obtain ⟨p, rfl⟩ := ha
    rw [unfolding_array, unfolding_leaf h (hab p · rfl)]
    exact iff_of_false nofun nofun
  · rw [unfolding_leaf h (not_exists.1 ha)]
    by_cases hb : ∃ q, b = .array q
    · obtain ⟨q, rfl⟩ := hb
      rw [unfolding_array]
      exact iff_of_false nofun nofun
    · rw [unfolding_leaf h (not_exists.1 hb), Unfolding.alike_leaf]

/-- A value without what is no number unfolds to something that is like itself. -/
theorem alike_refl (h : store.Acyclic) {a : Value} (ha : store.Throughout Value.Ordinary a)
    (hnan : store.Throughout Value.NotNaN a) : (store.unfolding h a).Alike (store.unfolding h a) := by
  induction a using h.wellFounded.induction with
  | _ a ih =>
    cases a with
    | array place =>
      rw [unfolding_array, Unfolding.alike_branch, List.forall₂_same, List.forall_mem_map]
      exact fun element he => ih element ⟨place, rfl, he⟩ (ha.element he) (hnan.element he)
    | number x => simpa using Value.Alike.number (Number.beq_self (hnan.self x rfl))
    | datum data => exact absurd rfl (ha.self data)
    | _ => simp; constructor

/-- Whenever there is an answer, it is whether the unfoldings are alike. -/
theorem equal?_iff_alike (h : store.Acyclic) {a : Value} (ha : store.Throughout Value.Ordinary a)
    (hnan : store.Throughout Value.NotNaN a) {room : Nat} {b : Value} {same : Bool}
    (hsame : store.equal? room a b = some same) :
    same = true ↔ (store.unfolding h a).Alike (store.unfolding h b) := by
  induction room using room_induction generalizing a b same with
  | zero | one | two => cases hsame
  | more room ih =>
    by_cases harrays : ∃ p q, a = .array p ∧ b = .array q
    · obtain ⟨p, q, rfl, rfl⟩ := harrays
      simp only [equal?] at hsame
      split at hsame
      next hpq =>
        subst hpq
        obtain rfl : true = same := by simpa using hsame
        exact iff_of_true rfl (alike_refl h ha hnan)
      split at hsame
      next hlength =>
        obtain rfl : false = same := by simpa using hsame
        rw [unfolding_array, unfolding_array, Unfolding.alike_branch]
        exact iff_of_false nofun fun hall => hlength (by simpa using hall.length_eq)
      next hlength =>
        rw [unfolding_array, unfolding_array, Unfolding.alike_branch, List.forall₂_map_left_iff,
          List.forall₂_map_right_iff]
        refine allEqual?_decides (not_not.1 hlength) (fun x hx y same hxy => ?_) hsame
        exact ih (ha.element hx) (hnan.element hx) hxy
    · obtain ⟨same', hsame', hiff⟩ := store.equal?_leaf ha.self room (b := b) (by grind)
      obtain rfl : same' = same := by simpa [hsame'] using hsame
      rw [hiff, alike_iff_leaves h (by grind)]

/-- There is an answer within three steps for each level of an unfolding. -/
theorem equal?_isSome (h : store.Acyclic) {a : Value} {room : Nat}
    (hroom : 3 * (store.unfolding h a).height ≤ room) (b : Value) : (store.equal? room a b).isSome := by
  induction room using Nat.strongRecOn generalizing a b with
  | ind room ih =>
    have hpos := (store.unfolding h a).height_pos
    obtain ⟨room, rfl⟩ : ∃ n, room = n + 3 := ⟨room - 3, by omega⟩
    cases a <;> cases b <;> try rfl
    case array.array p q =>
      have helements : (allEqual? (store.equal? room) (store.elements p).toList
          (store.elements q).toList).isSome := by
        refine allEqual?_isSome fun x hx y => ih room (by omega) ?_ y
        have hle := Unfolding.height_le_heights (List.mem_map_of_mem (f := store.unfolding h) hx)
        rw [unfolding_array, Unfolding.height] at hroom
        omega
      simp only [equal?]
      split
      · rfl
      · split
        · rfl
        · exact helements

theorem equal?_self (h : store.Acyclic) {a : Value} (ha : store.Throughout Value.Ordinary a)
    (hnan : store.Throughout Value.NotNaN a) {room : Nat}
    (hroom : 3 * (store.unfolding h a).height ≤ room) : store.equal? room a a = some true := by
  obtain ⟨same, hsame⟩ := Option.isSome_iff_exists.1 (equal?_isSome h hroom a)
  rw [hsame, (equal?_iff_alike h ha hnan hsame).2 (alike_refl h ha hnan)]

/-- The way through the elements finds an array equal to itself, as the look at its place does. -/
theorem allEqual?_self (h : store.Acyclic) {place : Nat}
    (ha : store.Throughout Value.Ordinary (.array place))
    (hnan : store.Throughout Value.NotNaN (.array place)) {room : Nat}
    (hroom : 3 * (store.unfolding h (.array place)).height ≤ room + 3) :
    allEqual? (store.equal? room) (store.elements place).toList (store.elements place).toList =
      some true := by
  rw [allEqual?_eq_true rfl, List.forall₂_same]
  intro element he
  refine equal?_self h (ha.element he) (hnan.element he) ?_
  have hle := Unfolding.height_le_heights (List.mem_map_of_mem (f := store.unfolding h) he)
  rw [unfolding_array, Unfolding.height] at hroom
  omega

/-- Equality is a matter of structure. On a store without cycles, from values that reach only numbers
that are numbers: any answer is whether the unfoldings are alike, an answer comes within three steps
for each level, and the way through an array's elements says of the array and itself what the look at
its place says. Symmetry and transitivity need neither. -/
theorem equal?_structural (store : Store) :
    (∀ a, store.Throughout Value.Ordinary a → ∀ room b,
      store.equal? room a b = store.equal? room b a ∧
      ∀ c, store.equal? room a b = some true → store.equal? room b c = some true →
        store.equal? room a c = some true) ∧
    ∀ (h : store.Acyclic) (a : Value), store.Throughout Value.Ordinary a →
      store.Throughout Value.NotNaN a → ∀ room,
      (∀ b same, store.equal? room a b = some same →
        (same = true ↔ (store.unfolding h a).Alike (store.unfolding h b))) ∧
      (3 * (store.unfolding h a).height ≤ room →
        (∀ b, (store.equal? room a b).isSome) ∧ store.equal? room a a = some true ∧
        ∀ place, a = .array place →
          allEqual? (store.equal? (room - 3)) (store.elements place).toList
            (store.elements place).toList = some true) := by
  refine ⟨fun a ha room b => ⟨equal?_comm ha room b, fun c => equal?_trans ha⟩, ?_⟩
  intro h a ha hnan room
  refine ⟨fun b same => equal?_iff_alike h ha hnan, fun hroom => ?_⟩
  refine ⟨equal?_isSome h hroom, equal?_self h ha hnan hroom, ?_⟩
  rintro place rfl
  exact allEqual?_self h ha hnan (by omega)

/-- The one pair is an array twice, the other that array and a copy of it. -/
def pairs : Store where
  arrays := #[#[.number 1.5, .string "a"], #[.number 1.5, .string "a"], #[.array 0, .array 0],
    #[.array 0, .array 1]]

theorem pairs_acyclic : pairs.Acyclic :=
  acyclic_of_older fun
    | 0, _, h | 1, _, h | _ + 4, _, h => by simp [pairs, elements] at h
    | 2, _, h | 3, _, h => by simp [pairs, elements] at h; omega

theorem pairs_elements {P : Value → Prop} (hnumber : P (.number 1.5)) (hstring : P (.string "a"))
    (harray : ∀ place, P (.array place)) (place : Nat) :
    pairs.Throughout P (.array place) := by
  refine throughout_of_elements (fun
    | 0, _, h | 1, _, h | 2, _, h | 3, _, h => ?_
    | _ + 4, _, h => by simp [pairs, elements] at h) (harray place)
  all_goals
    simp [pairs, elements] at h
    obtain rfl | rfl := h <;> simp [*]

theorem pairs_structural :
    ∃ h : pairs.Acyclic, pairs.Throughout Value.Ordinary (.array 2) ∧
      pairs.Throughout Value.NotNaN (.array 2) ∧
      pairs.equal? 9 (.array 2) (.array 3) = some true ∧
      (pairs.unfolding h (.array 2)).Alike (pairs.unfolding h (.array 3)) := by
  have hordinary : pairs.Throughout Value.Ordinary (.array 2) :=
    pairs_elements nofun nofun (fun _ => nofun) 2
  have hnan : pairs.Throughout Value.NotNaN (.array 2) :=
    pairs_elements (fun | _, rfl => by decide) nofun (fun _ => nofun) 2
  have hequal : pairs.equal? 9 (.array 2) (.array 3) = some true := by decide
  have halike := ((equal?_structural pairs).2 pairs_acyclic _ hordinary hnan 9).1 _ true hequal
  exact ⟨pairs_acyclic, hordinary, hnan, hequal, halike.1 rfl⟩

end Store

end GameScript
