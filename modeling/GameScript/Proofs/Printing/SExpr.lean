import GameScript.Proofs.Text.Quoted

/-! # Forms and their text

A form is a word, a text in quotes, or forms in parentheses with a blank between them. Words hold
neither blanks nor parentheses nor quotes and texts in quotes end by themselves, so what was written
can be taken apart in one way only. -/

namespace GameScript

/-- A text in prefix form, taken apart. -/
inductive SExpr where
  | atom (text : String)
  | list (items : List SExpr)

namespace SExpr

mutual

/-- The characters of a form. -/
def write : SExpr → List Char
  | .atom text => text.toList
  | .list [] => ['(', ')']
  | .list (first :: rest) => '(' :: (first.write ++ writeRest rest)
termination_by structural form => form

/-- The items behind the first one, up to the closing parenthesis. -/
def writeRest : List SExpr → List Char
  | [] => [')']
  | item :: rest => ' ' :: (item.write ++ writeRest rest)
termination_by structural items => items

end

/-- The text of a form. -/
def text (form : SExpr) : String := String.ofList form.write

@[simp] theorem text_atom (word : String) : (atom word).text = word := by
  rw [text, write, String.ofList_toList]

@[simp] theorem toList_text (form : SExpr) : form.text.toList = form.write := String.toList_ofList

theorem writeRest_eq (items : List SExpr) :
    writeRest items = items.flatMap (fun item => ' ' :: item.write) ++ [')'] := by
  induction items with
  | nil => rfl
  | cons item rest ih => simp [writeRest, ih]

theorem toList_intercalate (separator : String) (first : SExpr) (rest : List SExpr) :
    (String.intercalate separator ((first :: rest).map text)).toList =
      first.write ++ rest.flatMap fun item => separator.toList ++ item.write := by
  rw [List.map_cons, Text.toList_intercalate, List.flatMap_map, toList_text]
  simp only [toList_text]

/-- A list is its items with blanks between them, in parentheses. -/
theorem text_list (items : List SExpr) :
    (list items).text = "(" ++ String.intercalate " " (items.map text) ++ ")" := by
  refine String.toList_inj.mp ?_
  cases items with
  | nil => rfl
  | cons first rest =>
    rw [toList_text, write, writeRest_eq, String.toList_append, String.toList_append,
      toList_intercalate]
    simp

/-! ## Words and quotes -/

/-- The characters at which a word ends. -/
def breaks : List Char := [' ', '(', ')', '\n', '\'', '"']

def isBreak (c : Char) : Bool := breaks.contains c

/-- No character of a sort ends a word if none of those that do is of this sort. -/
theorem isBreak_eq_false {c : Char} {sort : Char → Bool} (hc : sort c = true)
    (h : breaks.any sort = false) : isBreak c = false := by
  by_contra hbreak
  rw [isBreak, Bool.not_eq_false, List.contains_iff_mem] at hbreak
  exact absurd hc (List.any_eq_false.mp h c hbreak)

/-- Nothing in a word ends it. -/
def Unbroken (cs : List Char) : Prop := ∀ c ∈ cs, isBreak c = false

-- goes through the list: there is also an instance that goes through all characters
instance (cs : List Char) : Decidable (Unbroken cs) :=
  decidable_of_iff (cs.any isBreak = false) (by simp [Unbroken])

/-- What can stand alone: a word or a text in quotes. -/
inductive IsAtom : String → Prop where
  | word {text : String} (hne : text.toList ≠ []) (hchars : Unbroken text.toList) : IsAtom text
  | quoted (value : String) : IsAtom (Text.quoted value)

/-- A form whose atoms can stand alone. -/
inductive Clean : SExpr → Prop where
  | atom {text : String} (h : IsAtom text) : Clean (.atom text)
  | list {items : List SExpr} (h : ∀ item ∈ items, Clean item) : Clean (.list items)

/-- What may follow a form: nothing, or something at which a word ends. -/
def Ends (rest : List Char) : Prop := ∀ c ∈ rest.head?, isBreak c = true

theorem IsAtom.head {text : String} (h : IsAtom text) :
    ∃ c more, text.toList = c :: more ∧ c ≠ '(' ∧ c ≠ ')' := by
  cases h with
  | word hne hchars =>
    obtain ⟨c, more, htext⟩ := List.exists_cons_of_ne_nil hne
    have hc := hchars c (by simp [htext])
    refine ⟨c, more, htext, ?_, ?_⟩ <;> rintro rfl <;> cases hc
  | quoted value =>
    obtain ⟨quote, more, hquote, htext⟩ := Text.quoted_head value
    refine ⟨quote, more, htext, ?_⟩
    rcases hquote with rfl | rfl <;> decide

theorem takeWhile_word {cs rest : List Char} (h : Unbroken cs) (hrest : Ends rest) :
    (cs ++ rest).takeWhile (fun c => !isBreak c) = cs := by
  rw [List.takeWhile_append_of_pos fun c hc => by rw [h c hc]; rfl]
  cases rest with
  | nil => simp
  | cons c more => simp [hrest c rfl]

theorem word_ne_quoted {word value : String} {rest rest' : List Char} (hne : word.toList ≠ [])
    (hchars : Unbroken word.toList) :
    word.toList ++ rest ≠ (Text.quoted value).toList ++ rest' := by
  obtain ⟨c, more, hword⟩ := List.exists_cons_of_ne_nil hne
  obtain ⟨quote, more', hquote, htext⟩ := Text.quoted_head value
  rw [hword, htext]
  intro h
  obtain ⟨rfl, -⟩ := List.cons.inj h
  have hplain := hchars c (by simp [hword])
  rcases hquote with rfl | rfl <;> exact absurd hplain (by decide)

theorem IsAtom.append_inj {text text' : String} (h : IsAtom text) (h' : IsAtom text')
    {rest rest' : List Char} (hrest : Ends rest) (hrest' : Ends rest')
    (he : text.toList ++ rest = text'.toList ++ rest') : text = text' ∧ rest = rest' := by
  cases h with
  | word hne hchars =>
    cases h' with
    | word hne' hchars' =>
      have hword := takeWhile_word hchars hrest
      rw [he, takeWhile_word hchars' hrest'] at hword
      rw [← hword] at he
      exact ⟨String.toList_inj.mp hword.symm, List.append_cancel_left he⟩
    | quoted value => exact absurd he (word_ne_quoted hne hchars)
  | quoted value =>
    cases h' with
    | word hne' hchars' => exact absurd he.symm (word_ne_quoted hne' hchars')
    | quoted value' =>
      obtain ⟨rfl, hrest⟩ := Text.quoted_append_inj he
      exact ⟨rfl, hrest⟩

/-! ## Forms -/

theorem ends_writeRest (items : List SExpr) (rest : List Char) :
    Ends (writeRest items ++ rest) := by
  cases items <;> rintro c ⟨⟩ <;> rfl

theorem IsAtom.write_ne_list {word : String} (h : IsAtom word) (items : List SExpr)
    (rest rest' : List Char) : word.toList ++ rest ≠ (list items).write ++ rest' := by
  obtain ⟨c, more, hword, hc, -⟩ := h.head
  intro he
  rw [hword] at he
  cases items with
  | nil => exact hc (List.cons.inj he).1
  | cons first items => exact hc (List.cons.inj he).1

/-- No form begins with what ends a list. -/
theorem Clean.head {form : SExpr} (h : form.Clean) :
    ∃ c more, form.write = c :: more ∧ c ≠ ')' := by
  cases h with
  | atom h =>
    obtain ⟨c, more, hword, -, hc⟩ := h.head
    exact ⟨c, more, hword, hc⟩
  | @list items h =>
    cases items with
    | nil => exact ⟨'(', _, rfl, by decide⟩
    | cons first rest => exact ⟨'(', _, rfl, by decide⟩

theorem Clean.write_ne_close {form : SExpr} (h : form.Clean) (rest rest' : List Char) :
    form.write ++ rest ≠ ')' :: rest' := by
  obtain ⟨c, more, hform, hc⟩ := h.head
  rw [hform]
  exact fun he => hc (List.cons.inj he).1

mutual

/-- What was written can be taken apart in one way only. -/
theorem write_append_inj : ∀ {form form' : SExpr}, form.Clean → form'.Clean →
    ∀ {rest rest' : List Char}, Ends rest → Ends rest' →
      form.write ++ rest = form'.write ++ rest' → form = form' ∧ rest = rest'
  | .atom word, .atom word', .atom h, .atom h', rest, rest', hrest, hrest', he => by
    obtain ⟨rfl, hrest⟩ := h.append_inj h' hrest hrest' he
    exact ⟨rfl, hrest⟩
  | .atom word, .list items, .atom h, _, rest, rest', _, _, he =>
    absurd he (h.write_ne_list items rest rest')
  | .list items, .atom word, _, .atom h, rest, rest', _, _, he =>
    absurd he.symm (h.write_ne_list items rest' rest)
  | .list [], .list [], _, _, rest, rest', _, _, he => by
    simpa [write] using he
  | .list [], .list (first :: items), _, .list h, rest, rest', _, _, he => by
    simp only [write, List.cons_append, List.append_assoc] at he
    exact absurd (List.cons.inj he).2.symm ((h first (by simp)).write_ne_close _ _)
  | .list (first :: items), .list [], .list h, _, rest, rest', _, _, he => by
    simp only [write, List.cons_append, List.append_assoc] at he
    exact absurd (List.cons.inj he).2 ((h first (by simp)).write_ne_close _ _)
  | .list (first :: items), .list (first' :: items'), .list h, .list h', rest, rest', _, _, he => by
    simp only [write, List.cons_append, List.append_assoc] at he
    obtain ⟨hfirst, hmore⟩ := write_append_inj (h first (by simp)) (h' first' (by simp))
      (ends_writeRest items rest) (ends_writeRest items' rest') (List.cons.inj he).2
    obtain ⟨hitems, hrest⟩ := writeRest_append_inj (fun item hi => h item (by simp [hi]))
      (fun item hi => h' item (by simp [hi])) hmore
    exact ⟨by rw [hfirst, hitems], hrest⟩

theorem writeRest_append_inj : ∀ {items items' : List SExpr}, (∀ item ∈ items, item.Clean) →
    (∀ item ∈ items', item.Clean) → ∀ {rest rest' : List Char},
      writeRest items ++ rest = writeRest items' ++ rest' → items = items' ∧ rest = rest'
  | [], [], _, _, rest, rest', he => by simpa [writeRest] using he
  | [], item :: items, _, _, rest, rest', he => by simp [writeRest] at he
  | item :: items, [], _, _, rest, rest', he => by simp [writeRest] at he
  | item :: items, item' :: items', h, h', rest, rest', he => by
    rw [writeRest, writeRest, List.cons_append, List.cons_append, List.append_assoc,
      List.append_assoc] at he
    obtain ⟨hitem, hmore⟩ := write_append_inj (h item (by simp)) (h' item' (by simp))
      (ends_writeRest items rest) (ends_writeRest items' rest') (List.cons.inj he).2
    obtain ⟨hitems, hrest⟩ := writeRest_append_inj (fun item hi => h item (by simp [hi]))
      (fun item hi => h' item (by simp [hi])) hmore
    exact ⟨by rw [hitem, hitems], hrest⟩

end

/-! ## Lines -/

theorem ends_lines (forms : List SExpr) :
    Ends (forms.flatMap fun form => '\n' :: form.write) := by
  cases forms with
  | nil => nofun
  | cons form rest =>
    rintro c ⟨⟩
    rfl

theorem lines_inj {forms forms' : List SExpr} (h : ∀ form ∈ forms, form.Clean)
    (h' : ∀ form ∈ forms', form.Clean)
    (he : (forms.flatMap fun form => '\n' :: form.write) =
      forms'.flatMap fun form => '\n' :: form.write) : forms = forms' := by
  induction forms generalizing forms' with
  | nil =>
    cases forms' with
    | nil => rfl
    | cons form' rest' => simp at he
  | cons form rest ih =>
    cases forms' with
    | nil => simp at he
    | cons form' rest' =>
      rw [List.flatMap_cons, List.flatMap_cons, List.cons_append, List.cons_append] at he
      obtain ⟨hform, hmore⟩ := write_append_inj (h form (by simp)) (h' form' (by simp))
        (ends_lines rest) (ends_lines rest') (List.cons.inj he).2
      rw [hform, ih (fun item hi => h item (by simp [hi])) (fun item hi => h' item (by simp [hi]))
        hmore]

/-- Forms on lines of their own can be told from their text. -/
theorem intercalate_inj {forms forms' : List SExpr} (h : ∀ form ∈ forms, form.Clean)
    (h' : ∀ form ∈ forms', form.Clean)
    (he : String.intercalate "\n" (forms.map text) = String.intercalate "\n" (forms'.map text)) :
    forms = forms' := by
  have hlines : ∀ {first : SExpr} {rest : List SExpr},
      '\n' :: (String.intercalate "\n" ((first :: rest).map text)).toList =
        (first :: rest).flatMap fun form => '\n' :: form.write := by
    intro first rest
    rw [toList_intercalate]
    rfl
  have hempty : ∀ {first : SExpr} {rest : List SExpr}, first.Clean →
      String.intercalate "\n" ((first :: rest).map text) ≠ "" := by
    intro first rest hfirst hnil
    obtain ⟨c, more, hc, -⟩ := hfirst.head
    have hlist := congrArg String.toList hnil
    rw [toList_intercalate, hc] at hlist
    cases hlist
  cases forms with
  | nil =>
    cases forms' with
    | nil => rfl
    | cons first' rest' => exact absurd he.symm (hempty (h' first' (by simp)))
  | cons first rest =>
    cases forms' with
    | nil => exact absurd he (hempty (h first (by simp)))
    | cons first' rest' =>
      exact lines_inj h h' (by rw [← hlines, ← hlines, he])

end SExpr

end GameScript
