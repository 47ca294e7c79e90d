import GameScript.Proofs.Json.Equality
import GameScript.Proofs.Json.Scalars

/-! # JSON text is read back

Every datum is read back from its text if its numbers are, no object has two members of one name and
it nests no deeper than is read. Each part of a text is read with an arbitrary text after it. -/

namespace GameScript.Json

variable {rest : List Char}

/-! ## Pieces of arrays and objects -/

section Pieces

variable {fuel room : Nat} {gap : List Char}

theorem datum_gap (h : ∀ c ∈ gap, c ∈ blanks) (cs : List Char) :
    datum fuel room (gap ++ cs) = datum fuel room cs := by
  cases fuel with
  | zero => rfl
  | succ fuel => rw [datum, datum, skipBlanks_append h]

theorem itemsFrom_gap (h : ∀ c ∈ gap, c ∈ blanks) (items : List Json) (cs : List Char) :
    itemsFrom fuel room items (gap ++ cs) = itemsFrom fuel room items cs := by
  cases fuel with
  | zero => rfl
  | succ fuel => rw [itemsFrom, itemsFrom, datum_gap h]

theorem membersFrom_gap (h : ∀ c ∈ gap, c ∈ blanks) (members : Fields Json) (cs : List Char) :
    membersFrom fuel room members (gap ++ cs) = membersFrom fuel room members cs := by
  cases fuel with
  | zero => rfl
  | succ fuel => rw [membersFrom, membersFrom, skipBlanks_append h]

/-- The blanks that are skipped, and the rest. -/
theorem exists_gap (cs : List Char) :
    ∃ gap, (∀ c ∈ gap, c ∈ blanks) ∧ cs = gap ++ skipBlanks cs := by
  refine ⟨_, fun c hc => ?_, List.takeWhile_append_dropWhile.symm⟩
  simpa [blanks, or_assoc] using List.mem_takeWhile_imp hc

theorem datum_closing (cs : List Char) : datum fuel room (']' :: cs) = .error .malformed := by
  cases fuel with
  | zero => rfl
  | succ fuel =>
    have hbegins : BeginsScalar ']' := by
      unfold BeginsScalar
      decide
    rw [datum_scalar hbegins]
    rfl

theorem datum_bracket (cs : List Char) : datum (fuel + 1) (room + 1) ('[' :: cs) =
    (match skipBlanks cs with
    | ']' :: rest => pure (.array [], rest)
    | rest => do
      let (items, rest) ← itemsFrom fuel room [] rest
      pure (.array items, rest)) := by
  rw [datum, skipBlanks_cons (by decide)]
  rfl

theorem datum_brace (cs : List Char) : datum (fuel + 1) (room + 1) ('\x7b' :: cs) =
    (match skipBlanks cs with
    | '\x7d' :: rest => pure (.object [], rest)
    | rest => do
      let (members, rest) ← membersFrom fuel room [] rest
      pure (.object members, rest)) := by
  rw [datum, skipBlanks_cons (by decide)]
  rfl

/-- If there are items to be read, the array is not empty. -/
theorem datum_array {cs : List Char} {items : List Json}
    (h : itemsFrom fuel room [] cs = .ok (items, rest)) :
    datum (fuel + 1) (room + 1) ('[' :: cs) = .ok (.array items, rest) := by
  obtain ⟨gap, hgap, hcs⟩ := exists_gap cs
  rw [hcs, itemsFrom_gap hgap] at h
  rw [datum_bracket]
  split
  · next hclosing =>
    rw [hclosing] at h
    cases fuel with
    | zero => cases h
    | succ fuel =>
      rw [itemsFrom, datum_closing] at h
      cases h
  · rw [h]
    rfl

theorem datum_object {cs : List Char} {members : Fields Json}
    (h : membersFrom fuel room [] cs = .ok (members, rest)) :
    datum (fuel + 1) (room + 1) ('\x7b' :: cs) = .ok (.object members, rest) := by
  obtain ⟨gap, hgap, hcs⟩ := exists_gap cs
  rw [hcs, membersFrom_gap hgap] at h
  rw [datum_brace]
  split
  · next hclosing =>
    rw [hclosing] at h
    cases fuel with
    | zero => cases h
    | succ fuel =>
      rw [membersFrom, skipBlanks_cons (by decide)] at h
      cases h
  · rw [h]
    rfl

end Pieces

/-! ## Data -/

mutual

/-- Is a datum read back from its text, if so many arrays and objects may be open at once? Its integers
must be short enough, its other numbers be read back, and the members of an object have different
names. -/
def legible : Json → Nat → Bool
  | .null, _ | .bool _, _ | .string _, _ => true
  | .int n, _ => Decimal.width n.natAbs ≤ maxDigits
  | .number x, _ => scalar (numbers.write x).toList = .ok (.number x, [])
  | .array items, room => 0 < room && legibleItems items (room - 1)
  | .object members, room =>
    0 < room && decide (Fields.names members).Nodup && legibleMembers members (room - 1)
termination_by structural datum => datum

def legibleItems : List Json → Nat → Bool
  | [], _ => true
  | item :: rest, room => legible item room && legibleItems rest room
termination_by structural items => items

def legibleMembers : List (String × Json) → Nat → Bool
  | [], _ => true
  | (_, value) :: rest, room => legible value room && legibleMembers rest room
termination_by structural members => members

end

/-- The text after the first of some parts between brackets. -/
def partsAfter (closing : Char) (level : Nat) (parts : List String) : List Char :=
  (parts.flatMap fun part => ',' :: ((newline (level + 1)).toList ++ part.toList)) ++
    ((newline level).toList ++ [closing])

theorem toList_bracketed (opening closing : Char) (level : Nat) (first : String)
    (rest : List String) :
    (bracketed opening.toString closing.toString level (first :: rest)).toList =
      opening :: ((newline (level + 1)).toList ++
        (first.toList ++ partsAfter closing level rest)) := by
  have hcomma (s : String) : ("," ++ s).toList = ',' :: s.toList := String.toList_append
  have hsingle (c : Char) : c.toString.toList = [c] := by simp
  unfold bracketed partsAfter
  rw [if_neg (by simp)]
  simp only [String.toList_append, Text.toList_intercalate, hcomma, hsingle, List.append_assoc,
    List.cons_append, List.nil_append]

theorem partsAfter_nil (closing : Char) (level : Nat) :
    partsAfter closing level [] = (newline level).toList ++ [closing] := rfl

theorem partsAfter_cons (closing : Char) (level : Nat) (part : String) (parts : List String) :
    partsAfter closing level (part :: parts) =
      ',' :: ((newline (level + 1)).toList ++ (part.toList ++ partsAfter closing level parts)) := by
  simp [partsAfter]

theorem endsNumber_partsAfter (closing : Char) (level : Nat) (parts : List String) :
    EndsNumber (partsAfter closing level parts ++ rest) := by
  cases parts with
  | nil =>
    rw [partsAfter_nil, newline, String.toList_ofList]
    rintro c ⟨⟩
    decide
  | cons part parts =>
    rw [partsAfter_cons]
    rintro c ⟨⟩
    decide

theorem separator_comma (closing : Char) (cs : List Char) :
    separator closing (',' :: cs) = .ok (true, cs) := by
  rw [separator, skipBlanks_cons (by decide)]
  rfl

theorem separator_closing {closing : Char} (hb : closing ∉ ',' :: blanks) (level : Nat) :
    separator closing ((newline level).toList ++ [closing] ++ rest) = .ok (false, rest) := by
  obtain ⟨hcomma, hblank⟩ : closing ≠ ',' ∧ closing ∉ blanks := by simpa using hb
  rw [List.append_assoc, separator, skipBlanks_append (newline_blanks level), List.singleton_append,
    skipBlanks_cons hblank]
  dsimp only
  rw [if_neg hcomma, if_pos rfl]
  rfl

variable {ascii : Bool}

theorem datum_quote (fuel room : Nat) (cs : List Char) : datum (fuel + 1) room ('"' :: cs) =
    (do
      let (text, rest) ← stringRest [] cs
      pure (.string text, rest)) := by
  rw [datum, skipBlanks_cons (by decide)]
  rfl

theorem datum_string (s : String) {fuel room : Nat}
    (hf : 2 * (stringText ascii s).toList.length ≤ fuel) :
    datum fuel room ((stringText ascii s).toList ++ rest) = .ok (.string s, rest) := by
  obtain ⟨less, rfl⟩ : ∃ less, fuel = less + 1 := ⟨fuel - 1, by simp [stringText] at hf; omega⟩
  rw [toList_stringText, datum_quote, stringRest_written]
  rfl

/-- A datum that can be read back is read from its text, whatever follows it. Two steps for each
character are enough: an array takes a step for each item before those for the item itself. -/
def ReadsBack (ascii : Bool) (value : Json) : Prop :=
  ∀ (level fuel room : Nat) (rest : List Char), value.legible room = true →
    2 * (value.indented ascii level).toList.length ≤ fuel → EndsNumber rest →
      datum fuel room ((value.indented ascii level).toList ++ rest) = .ok (value, rest)

/-- So are the items of an array after some item. -/
def ItemsReadBack (ascii : Bool) (items : List Json) : Prop :=
  ∀ first, ReadsBack ascii first → ∀ (level fuel room : Nat) (done : List Json) (rest : List Char),
    legibleItems (first :: items) room = true →
      2 * ((first.indented ascii (level + 1)).toList ++
        partsAfter ']' level (indentedItems ascii items (level + 1))).length ≤ fuel →
      itemsFrom fuel room done ((first.indented ascii (level + 1)).toList ++
        (partsAfter ']' level (indentedItems ascii items (level + 1)) ++ rest)) =
          .ok (done.reverse ++ first :: items, rest)

theorem readsBack_constant {name : String} {value : Json} (h : (name, value) ∈ constants)
    (htext : ∀ level, value.indented ascii level = name) : ReadsBack ascii value := by
  intro level fuel room rest _ hf hr
  rw [htext] at hf ⊢
  exact datum_of_scalar (fun _ _ => scalar_constant h) hf hr

theorem readsBack_int (n : Int) : ReadsBack ascii (.int n) := by
  intro level fuel room rest hlegible hf hr
  rw [indented] at hf ⊢
  rw [legible, decide_eq_true_eq] at hlegible
  exact datum_of_scalar (fun _ => scalar_integer hlegible) hf hr

theorem readsBack_number (x : Float) : ReadsBack ascii (.number x) := by
  intro level fuel room rest hlegible hf hr
  rw [indented] at hf ⊢
  rw [legible, decide_eq_true_eq] at hlegible
  exact datum_of_scalar (fun _ => scalar_number hlegible) hf hr

theorem readsBack_string (s : String) : ReadsBack ascii (.string s) := by
  intro level fuel room rest _ hf _
  rw [indented] at hf ⊢
  exact datum_string s hf

theorem readsBack_emptyArray : ReadsBack ascii (.array []) := by
  intro level fuel room rest hlegible hf _
  have htext : (indented ascii (.array []) level).toList = ['[', ']'] := by
    simp [indented, indentedItems, bracketed]
  rw [legible, Bool.and_eq_true, decide_eq_true_eq] at hlegible
  rw [htext] at hf
  obtain ⟨less, rfl⟩ := Nat.exists_eq_add_one.mpr (Nat.lt_of_lt_of_le (by decide) hf)
  obtain ⟨inner, rfl⟩ := Nat.exists_eq_add_one.mpr hlegible.1
  rw [htext, List.cons_append, datum_bracket, List.singleton_append, skipBlanks_cons (by decide)]
  rfl

theorem readsBack_array {item : Json} {items : List Json} (h : ReadsBack ascii item)
    (hitems : ItemsReadBack ascii items) : ReadsBack ascii (.array (item :: items)) := by
  intro level fuel room rest hlegible hf _
  have htext : (indented ascii (.array (item :: items)) level).toList =
      '[' :: ((newline (level + 1)).toList ++ ((item.indented ascii (level + 1)).toList ++
        partsAfter ']' level (indentedItems ascii items (level + 1)))) :=
    toList_bracketed '[' ']' level _ _
  rw [legible, Bool.and_eq_true, decide_eq_true_eq] at hlegible
  obtain ⟨hroom, hlegible⟩ := hlegible
  rw [htext, List.length_cons, List.length_append] at hf
  obtain ⟨less, rfl⟩ : ∃ less, fuel = less + 1 := ⟨fuel - 1, by omega⟩
  obtain ⟨inner, rfl⟩ := Nat.exists_eq_add_one.mpr hroom
  rw [htext, List.cons_append]
  apply datum_array
  rw [List.append_assoc, itemsFrom_gap (newline_blanks _), List.append_assoc]
  exact hitems item h level less inner [] rest hlegible (by omega)

theorem itemsFrom_first {first : Json} (h : ReadsBack ascii first) {level fuel room : Nat}
    (hlegible : first.legible room = true)
    (hf : 2 * (first.indented ascii level).toList.length ≤ fuel) (done : List Json)
    {cs : List Char} (hcs : EndsNumber cs) :
    itemsFrom (fuel + 1) room done ((first.indented ascii level).toList ++ cs) = (do
      let (more, rest) ← separator ']' cs
      if more then itemsFrom fuel room (first :: done) rest
      else pure ((first :: done).reverse, rest)) := by
  rw [itemsFrom, h level fuel room cs hlegible hf hcs]
  rfl

theorem itemsReadBack_nil : ItemsReadBack ascii [] := by
  intro first h level fuel room done rest hlegible hf
  rw [legibleItems, Bool.and_eq_true] at hlegible
  rw [indentedItems, List.length_append] at hf
  obtain ⟨less, rfl⟩ : ∃ less, fuel = less + 1 := ⟨fuel - 1, by simp [partsAfter_nil] at hf; omega⟩
  rw [itemsFrom_first h hlegible.1 (by simp [partsAfter_nil] at hf; omega) done
    (endsNumber_partsAfter _ _ _), indentedItems, partsAfter_nil, separator_closing (by decide)]
  exact congrArg (fun items => Except.ok (items, rest)) List.reverse_cons

theorem itemsReadBack_cons {second : Json} {items : List Json} (h : ReadsBack ascii second)
    (hitems : ItemsReadBack ascii items) : ItemsReadBack ascii (second :: items) := by
  intro first hfirst level fuel room done rest hlegible hf
  rw [legibleItems, Bool.and_eq_true] at hlegible
  rw [indentedItems, partsAfter_cons, List.length_append, List.length_cons, List.length_append] at hf
  obtain ⟨less, rfl⟩ : ∃ less, fuel = less + 1 := ⟨fuel - 1, by omega⟩
  rw [itemsFrom_first hfirst hlegible.1 (by omega) done (endsNumber_partsAfter _ _ _), indentedItems,
    partsAfter_cons, List.cons_append, separator_comma]
  show itemsFrom less room (first :: done) _ = _
  rw [List.append_assoc, itemsFrom_gap (newline_blanks _), List.append_assoc,
    hitems second h level less room (first :: done) rest hlegible.2 (by omega), List.reverse_cons,
    List.append_assoc]
  rfl

/-! ## Members -/

/-- A member of an object, with a blank after the colon. -/
def memberText (ascii : Bool) (level : Nat) (key : String) (value : Json) : List Char :=
  (stringText ascii key ++ ": " ++ value.indented ascii level).toList

/-- The members of an object after some member are read back. -/
def MembersReadBack (ascii : Bool) (members : Fields Json) : Prop :=
  ∀ key first, ReadsBack ascii first →
    ∀ (level fuel room : Nat) (done : Fields Json) (rest : List Char),
    legibleMembers ((key, first) :: members) room = true →
      (Fields.names (done ++ (key, first) :: members)).Nodup →
      2 * (memberText ascii (level + 1) key first ++
        partsAfter '\x7d' level (indentedMembers ascii members (level + 1))).length ≤ fuel →
      membersFrom fuel room done (memberText ascii (level + 1) key first ++
        (partsAfter '\x7d' level (indentedMembers ascii members (level + 1)) ++ rest)) =
          .ok (done ++ (key, first) :: members, rest)

theorem membersFrom_member {key : String} {value : Json} {fuel room : Nat}
    {cs after rest : List Char} (hkey : stringRest [] cs = .ok (key, ':' :: after))
    (hvalue : datum fuel room after = .ok (value, rest)) (done : Fields Json) :
    membersFrom (fuel + 1) room done ('"' :: cs) = (do
      let (more, rest) ← separator '\x7d' rest
      if more then membersFrom fuel room (Fields.put done key value) rest
      else pure (Fields.put done key value, rest)) := by
  rw [membersFrom, skipBlanks_cons (by decide)]
  change (stringRest [] cs >>= _) = _
  simp only [hkey, skipBlanks_cons (by decide : ':' ∉ blanks), hvalue, bind, Except.bind]

theorem membersFrom_first {key : String} {first : Json} (h : ReadsBack ascii first)
    {level fuel room : Nat} (hlegible : first.legible room = true)
    (hf : 2 * (memberText ascii level key first).length ≤ fuel) {done : Fields Json}
    (hnew : key ∉ Fields.names done) {cs : List Char} (hcs : EndsNumber cs) :
    membersFrom (fuel + 1) room done (memberText ascii level key first ++ cs) = (do
      let (more, rest) ← separator '\x7d' cs
      if more then membersFrom fuel room (done ++ [(key, first)]) rest
      else pure (done ++ [(key, first)], rest)) := by
  have htext : memberText ascii level key first ++ cs =
      '"' :: (key.toList.flatMap (stringChar ascii) ++
        '"' :: ':' :: ([' '] ++ ((first.indented ascii level).toList ++ cs))) := by
    simp [memberText, stringText]
  have hvalue : datum fuel room ([' '] ++ ((first.indented ascii level).toList ++ cs)) =
      .ok (first, cs) := by
    rw [datum_gap (by simp [blanks])]
    refine h level fuel room cs hlegible ?_ hcs
    simp [memberText] at hf
    omega
  rw [htext, membersFrom_member (stringRest_written ascii key) hvalue, Fields.put_new hnew]

theorem new_of_nodup {done members : Fields Json} {key : String} {value : Json}
    (h : (Fields.names (done ++ (key, value) :: members)).Nodup) : key ∉ Fields.names done := by
  rw [Fields.names, List.map_append, List.map_cons, List.nodup_append] at h
  exact fun hmem => h.2.2 key hmem key List.mem_cons_self rfl

theorem membersReadBack_nil : MembersReadBack ascii [] := by
  intro key first h level fuel room done rest hlegible hkeys hf
  rw [legibleMembers, Bool.and_eq_true] at hlegible
  rw [indentedMembers, List.length_append] at hf
  obtain ⟨less, rfl⟩ : ∃ less, fuel = less + 1 := ⟨fuel - 1, by simp [partsAfter_nil] at hf; omega⟩
  rw [membersFrom_first h hlegible.1 (by simp [partsAfter_nil] at hf; omega) (new_of_nodup hkeys)
    (endsNumber_partsAfter _ _ _), indentedMembers, partsAfter_nil, separator_closing (by decide)]
  rfl

theorem membersReadBack_cons {second : String} {value : Json} {members : Fields Json}
    (h : ReadsBack ascii value) (hmembers : MembersReadBack ascii members) :
    MembersReadBack ascii ((second, value) :: members) := by
  intro key first hfirst level fuel room done rest hlegible hkeys hf
  rw [legibleMembers, Bool.and_eq_true] at hlegible
  rw [indentedMembers, partsAfter_cons, ← memberText, List.length_append, List.length_cons,
    List.length_append] at hf
  obtain ⟨less, rfl⟩ : ∃ less, fuel = less + 1 := ⟨fuel - 1, by omega⟩
  rw [membersFrom_first hfirst hlegible.1 (by omega) (new_of_nodup hkeys)
    (endsNumber_partsAfter _ _ _), indentedMembers, partsAfter_cons, ← memberText, List.cons_append,
    separator_comma]
  show membersFrom less room (done ++ [(key, first)]) _ = _
  have hnext : (done ++ [(key, first)]) ++ (second, value) :: members =
      done ++ (key, first) :: (second, value) :: members := List.append_assoc _ _ _
  rw [List.append_assoc, membersFrom_gap (newline_blanks _), List.append_assoc,
    hmembers second value h level less room _ rest hlegible.2 (by rwa [hnext]) (by omega), hnext]

theorem readsBack_emptyObject : ReadsBack ascii (.object []) := by
  intro level fuel room rest hlegible hf _
  have htext : (indented ascii (.object []) level).toList = ['\x7b', '\x7d'] := by
    simp [indented, indentedMembers, bracketed]
  rw [legible, Bool.and_eq_true, Bool.and_eq_true, decide_eq_true_eq] at hlegible
  rw [htext] at hf
  obtain ⟨less, rfl⟩ := Nat.exists_eq_add_one.mpr (Nat.lt_of_lt_of_le (by decide) hf)
  obtain ⟨inner, rfl⟩ := Nat.exists_eq_add_one.mpr hlegible.1.1
  rw [htext, List.cons_append, datum_brace, List.singleton_append, skipBlanks_cons (by decide)]
  rfl

theorem readsBack_object {key : String} {value : Json} {members : Fields Json}
    (h : ReadsBack ascii value) (hmembers : MembersReadBack ascii members) :
    ReadsBack ascii (.object ((key, value) :: members)) := by
  intro level fuel room rest hlegible hf _
  have htext : (indented ascii (.object ((key, value) :: members)) level).toList =
      '\x7b' :: ((newline (level + 1)).toList ++ (memberText ascii (level + 1) key value ++
        partsAfter '\x7d' level (indentedMembers ascii members (level + 1)))) :=
    toList_bracketed '\x7b' '\x7d' level _ _
  rw [legible, Bool.and_eq_true, Bool.and_eq_true, decide_eq_true_eq, decide_eq_true_eq] at hlegible
  obtain ⟨⟨hroom, hkeys⟩, hlegible⟩ := hlegible
  rw [htext, List.length_cons, List.length_append] at hf
  obtain ⟨less, rfl⟩ : ∃ less, fuel = less + 1 := ⟨fuel - 1, by omega⟩
  obtain ⟨inner, rfl⟩ := Nat.exists_eq_add_one.mpr hroom
  rw [htext, List.cons_append]
  apply datum_object
  rw [List.append_assoc, membersFrom_gap (newline_blanks _), List.append_assoc]
  exact hmembers key value h level less inner [] rest hlegible hkeys (by omega)

/-! ## All data -/

mutual

theorem readsBack : ∀ value : Json, ReadsBack ascii value
  | .null => readsBack_constant (by simp [constants]) fun _ => rfl
  | .bool true => readsBack_constant (by simp [constants]) fun _ => rfl
  | .bool false => readsBack_constant (by simp [constants]) fun _ => rfl
  | .int n => readsBack_int n
  | .number x => readsBack_number x
  | .string s => readsBack_string s
  | .array [] => readsBack_emptyArray
  | .array (item :: items) => readsBack_array (readsBack item) (itemsReadBack items)
  | .object [] => readsBack_emptyObject
  | .object ((_, value) :: members) => readsBack_object (readsBack value) (membersReadBack members)

theorem itemsReadBack : ∀ items : List Json, ItemsReadBack ascii items
  | [] => itemsReadBack_nil
  | item :: items => itemsReadBack_cons (readsBack item) (itemsReadBack items)

theorem membersReadBack : ∀ members : List (String × Json), MembersReadBack ascii members
  | [] => membersReadBack_nil
  | (_, value) :: members => membersReadBack_cons (readsBack value) (membersReadBack members)

end

/-- The text of a datum is read as the datum. -/
theorem read_indented {value : Json} {room : Nat} (h : value.legible room = true) (level : Nat) :
    read room (value.indented ascii level) = .ok value := by
  have hdatum := @readsBack ascii value level (2 * (value.indented ascii level).toList.length + 1)
    room [] h (by omega) nofun
  rw [List.append_nil] at hdatum
  rw [read]
  dsimp only
  rw [hdatum]
  rfl

end GameScript.Json
