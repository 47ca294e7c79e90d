import GameScript.Proofs.Config.Rearrangement

/-! # Sections in any order

The object of a game lists the kinds of its sections in an order of their own. Of each kind the last
section counts, so nothing depends on how sections of different kinds stand among each other. -/

namespace GameScript.Config

open Blueprint (LaidOut)

/-! ## The object of a game -/

section Lookup

variable {α κ : Type}

/-- The fields of those keys that have a value. -/
def fieldsOf (lookup : κ → Option α) (keys : List κ) : Fields α κ :=
  keys.filterMap fun key => (lookup key).map fun value => (key, value)

theorem names_fieldsOf (lookup : κ → Option α) (keys : List κ) :
    Fields.names (fieldsOf lookup keys) = keys.filter fun key => (lookup key).isSome := by
  induction keys with
  | nil => rfl
  | cons key keys ih =>
    unfold fieldsOf at ih ⊢
    cases h : lookup key <;> simp_all [Fields.names]

theorem get?_fieldsOf [DecidableEq κ] (lookup : κ → Option α) {keys : List κ} {name : κ}
    (h : name ∈ keys) :
    Fields.get? (fieldsOf lookup keys) name = lookup name := by
  induction keys with
  | nil => cases h
  | cons key keys ih =>
    by_cases hkey : key = name
    · subst hkey
      cases hvalue : lookup key with
      | none =>
        refine Fields.get?_eq_none ?_
        rw [names_fieldsOf]
        simp [hvalue]
      | some value => simp [fieldsOf, hvalue, Fields.get?]
    · have hrest := ih ((List.mem_cons.mp h).resolve_left (Ne.symm hkey))
      unfold fieldsOf at hrest ⊢
      cases hvalue : lookup key <;> simp [hvalue, Fields.get?, hkey, hrest]

end Lookup

/-- The members of a game's object behind its name. -/
def sectionMembers (fields : Fields Json) : Fields Json :=
  fieldsOf (Fields.get? fields.reverse) sectionKeys

theorem isSome_last (fields : Fields Json) (key : String) :
    (Fields.get? fields.reverse key).isSome = decide (key ∈ Fields.names fields) := by
  have hiff := Fields.has_iff fields.reverse key
  simp only [Fields.names, List.map_reverse, List.mem_reverse] at hiff
  exact Bool.eq_iff_iff.mpr (hiff.trans decide_eq_true_iff.symm)

/-- The kinds that there are, in an order that does not depend on the source. -/
theorem names_sectionMembers (fields : Fields Json) :
    Fields.names (sectionMembers fields) = sectionKeys.filter (· ∈ Fields.names fields) := by
  rw [sectionMembers, names_fieldsOf]
  exact List.filter_congr fun key _ => isSome_last fields key

theorem key_mem_sectionKeys (part : Section) : part.key ∈ sectionKeys := by
  cases part <;> simp [Section.key, sectionKeys]

/-- The last section of a kind is the one that counts. -/
theorem get?_sectionMembers {before after : Fields Json} {part : Section} {datum : Json}
    (h : part.key ∉ Fields.names after) :
    Fields.get? (sectionMembers (before ++ (part.key, datum) :: after)) part.key = some datum :=
  (get?_fieldsOf _ (key_mem_sectionKeys part)).trans (Fields.get?_last h)

/-- Only the sections of each kind by itself matter. -/
theorem sectionMembers_congr {fields others : Fields Json}
    (h : ∀ key, fields.filter (·.1 = key) = others.filter (·.1 = key)) :
    sectionMembers fields = sectionMembers others := by
  have hlast (fields : Fields Json) (key : String) :
      Fields.get? (fields.filter (·.1 = key)).reverse key = Fields.get? fields.reverse key := by
    rw [← List.filter_reverse]
    exact @Fields.get?_filter _ _ _ (fun name => decide (name = key)) key (decide_eq_true rfl) _
  unfold sectionMembers
  congr 1
  funext key
  rw [← hlast fields, h, hlast]

/-! ## The loop over all kinds -/

section Loop

variable {α κ : Type} [DecidableEq κ]

/-- The fields with one key, each of which takes the place of the one before. -/
def overwrite (fields result : Fields α κ) (key : κ) : Fields α κ :=
  fields.foldl (fun result field => if field.1 = key then Fields.put result key field.2 else result)
    result

theorem overwrite_eq (fields result : Fields α κ) (key : κ) :
    overwrite fields result key =
      ((Fields.get? fields.reverse key).map (Fields.put result key)).getD result := by
  induction fields generalizing result with
  | nil => rfl
  | cons field rest ih =>
    obtain ⟨name, value⟩ := field
    rw [overwrite, List.foldl_cons]
    change overwrite rest _ key = _
    rw [ih, List.reverse_cons, Fields.get?_append]
    by_cases hname : name = key
    · cases Fields.get? rest.reverse key <;> simp [Fields.get?, hname, Fields.put_put_self]
    · cases Fields.get? rest.reverse key <;> simp [Fields.get?, hname]

theorem foldl_overwrite {fields result : Fields α κ} {keys : List κ} (hkeys : keys.Nodup)
    (hnew : ∀ key ∈ keys, key ∉ Fields.names result) :
    keys.foldl (overwrite fields) result = result ++ fieldsOf (Fields.get? fields.reverse) keys := by
  induction keys generalizing result with
  | nil => simp [fieldsOf]
  | cons key keys ih =>
    obtain ⟨hkey, hkeys⟩ := List.nodup_cons.mp hkeys
    obtain ⟨hfirst, hrest⟩ := List.forall_mem_cons.mp hnew
    rw [List.foldl_cons, overwrite_eq]
    cases hlast : Fields.get? fields.reverse key with
    | none =>
      rw [Option.map_none, Option.getD_none, ih hkeys hrest]
      simp [fieldsOf, hlast]
    | some value =>
      rw [Option.map_some, Option.getD_some, Fields.put_new hfirst, ih hkeys]
      · simp [fieldsOf, hlast]
      · intro other hother hmem
        rw [Fields.names, List.map_append, List.mem_append] at hmem
        rcases hmem with hmem | hmem
        · exact hrest other hother hmem
        · obtain rfl : other = key := by simpa using hmem
          exact hkey hother

end Loop

/-- The members are what is left when, kind by kind, every section is put under its key. -/
theorem gameObject_loop (name : String) (fields : Fields Json) :
    gameObject name fields =
      .object (sectionKeys.foldl (overwrite fields) [("game_name", .string name)]) := by
  rw [foldl_overwrite (by decide) (by simp [sectionKeys, Fields.names])]
  rfl

/-! ## Sources with the same sections of each kind -/

/-- A section under its key. -/
def Section.Field (room : Nat) (part : Section) (field : String × Json) : Prop :=
  part.key = field.1 ∧ part.Denotes room field.2

section Sections

variable {room : Nat} {sections : List Section} {fields : Fields Json}

theorem sectionFields_of {data : List Json} (h : List.Forall₂ (Section.Denotes room) sections data) :
    List.Forall₂ (Section.Field room) sections (sectionFields sections data) := by
  unfold sectionFields
  induction h with
  | nil => exact .nil
  | cons hpart _ ih => exact .cons ⟨rfl, hpart⟩ ih

theorem names_sectionFields {data : List Json} (h : List.Forall₂ (Section.Denotes room) sections data) :
    Fields.names (sectionFields sections data) = sections.map Section.key :=
  List.map_fst_zip (by simp [h.length_eq])

theorem fields_filter (h : List.Forall₂ (Section.Field room) sections fields) (key : String) :
    List.Forall₂ (Section.Field room) (sections.filter (·.key = key)) (fields.filter (·.1 = key)) :=
  List.rel_filter (fun _ _ hfield => by simp [hfield.1]) h

theorem Section.field_rightUnique : Relator.RightUnique (Section.Field room) := by
  intro part field other h h'
  have hdatum := (toJson_eq_ok_iff.mpr h.2).symm.trans (toJson_eq_ok_iff.mpr h'.2)
  exact Prod.ext (h.1.symm.trans h'.1) (Except.ok.inj hdatum)

end Sections

/-- Two documents with the same sections of each kind. -/
structure Document.Shuffled (document other : Document) : Prop where
  name : document.name = other.name
  kinds : ∀ key, List.Forall₂ Section.Alike (document.sections.filter (·.key = key))
    (other.sections.filter (·.key = key))

theorem Document.Alike.shuffled {document other : Document} (h : document.Alike other) :
    document.Shuffled other where
  name := h.name
  kinds _ := List.rel_filter (fun _ _ halike => by simp [halike.key]) h.sections

/-- Neighbours of different kinds may change places. -/
theorem Document.Shuffled.swap {document other : Document} (hname : document.name = other.name)
    (before after : List Section) {part next : Section} (hkeys : part.key ≠ next.key)
    (h : document.sections = before ++ part :: next :: after)
    (h' : other.sections = before ++ next :: part :: after) : document.Shuffled other where
  name := hname
  kinds key := by
    have hsame : document.sections.filter (·.key = key) = other.sections.filter (·.key = key) := by
      rw [h, h', List.filter_append, List.filter_append]
      by_cases hpart : part.key = key <;> by_cases hnext : next.key = key <;> simp_all
    rw [hsame]
    exact List.forall₂_same.mpr fun part _ => .refl part

/-- Sections of which each one stands for something have data. -/
theorem fields_exist {room : Nat} {sections : List Section}
    (h : ∀ part ∈ sections, ∃ datum, part.Denotes room datum) :
    ∃ data, List.Forall₂ (Section.Denotes room) sections data := by
  induction sections with
  | nil => exact ⟨[], .nil⟩
  | cons part sections ih =>
    obtain ⟨hpart, hrest⟩ := List.forall_mem_cons.mp h
    obtain ⟨datum, hdatum⟩ := hpart
    obtain ⟨data, hdata⟩ := ih hrest
    exact ⟨datum :: data, .cons hdatum hdata⟩

/-- How many sections there are is told kind by kind. -/
theorem length_eq_kinds (sections : List Section) :
    sections.length = (sectionKeys.flatMap fun key => sections.filter (·.key = key)).length := by
  induction sections with
  | nil => rfl
  | cons part sections ih =>
    rw [List.length_cons, ih]
    cases part <;> simp [sectionKeys, Section.key] <;> omega

namespace Document.Shuffled

variable {document other : Document} {room : Nat} {datum : Json}

theorem sections_length (h : document.Shuffled other) :
    document.sections.length = other.sections.length := by
  rw [length_eq_kinds document.sections, length_eq_kinds other.sections]
  rw [List.length_flatMap, List.length_flatMap]
  exact congrArg List.sum (List.map_congr_left fun key _ => (h.kinds key).length_eq)

theorem denotes (h : document.Shuffled other) (hdocument : document.Denotes room datum) :
    other.Denotes room datum := by
  obtain @⟨data, hdata⟩ := hdocument
  have hexist : ∀ part ∈ other.sections, ∃ datum, part.Denotes room datum := by
    intro part hpart
    obtain ⟨mate, hmate, halike⟩ := exists_of_mem_left (h.kinds part.key).flip
      (List.mem_filter.mpr ⟨hpart, decide_eq_true rfl⟩)
    obtain ⟨datum, -, hdatum⟩ := exists_of_mem_left hdata (List.mem_of_mem_filter hmate)
    exact ⟨datum, halike.denotes hdatum⟩
  obtain ⟨others, hothers⟩ := fields_exist hexist
  have hfields := sectionFields_of hdata
  have hfields' := sectionFields_of hothers
  -- Alike sections stand for the same, so of each kind the fields of both documents are equal.
  have hkinds (key : String) : (sectionFields document.sections data).filter (·.1 = key) =
      (sectionFields other.sections others).filter (·.1 = key) := by
    have hsame : List.Forall₂ (Section.Field room) (other.sections.filter (·.key = key))
        ((sectionFields document.sections data).filter (·.1 = key)) :=
      forall₂_transfer (h.kinds key) (fields_filter hfields key)
        fun _ _ _ halike hfield => ⟨halike.key ▸ hfield.1, halike.denotes hfield.2⟩
    exact Section.field_rightUnique.forall₂ hsame (fields_filter hfields' key)
  have hobject : gameObject document.name (sectionFields document.sections data) =
      gameObject other.name (sectionFields other.sections others) := by
    rw [h.name]
    exact congrArg (fun members => Json.object (("game_name", .string other.name) :: members))
      (sectionMembers_congr hkinds)
  rw [hobject]
  exact .game hothers

/-- Nothing changes if the sections themselves are replaced by alike ones. -/
theorem alike (h : document.Shuffled other) {third : Document} (h' : other.Alike third) :
    document.Shuffled third where
  name := h.name.trans h'.name
  kinds key :=
    have hback : List.Forall₂ Section.Alike (other.sections.filter (·.key = key))
        (document.sections.filter (·.key = key)) :=
      ((h.kinds key).imp fun _ _ halike => halike.cross (.refl _)).flip
    forall₂_transfer hback (h'.shuffled.kinds key) fun _ _ _ halike halike' => halike.cross halike'

end Document.Shuffled

/-- A source with the same sections of each kind compiles to the same game. -/
theorem compile_shuffled {limits : Limits} {document other : Document} {datum : Json}
    (h : document.Shuffled other) (hdatum : document.Denotes limits.listing datum) {source : String}
    (hparse : Document.parse source = .ok other) :
    compile limits source = .ok ⟨document.name, document.sections.length, datum⟩ :=
  compile_eq_ok_iff.mpr ⟨other, hparse, h.denotes hdatum, h.name.symm, h.sections_length.symm⟩

/-- What the last section of its kind stands for is what the game has under the key of that kind. -/
theorem members_of_last {room : Nat} {document : Document} {data : List Json}
    (h : List.Forall₂ (Section.Denotes room) document.sections data) {before after : List Section}
    {part : Section} (hsections : document.sections = before ++ part :: after)
    (hlast : part.key ∉ after.map Section.key) :
    ∃ value, part.toJson room = .ok value ∧
      Fields.get? (sectionMembers (sectionFields document.sections data)) part.key = some value := by
  rw [hsections] at h
  obtain ⟨first, rest, hfirst, hrest, rfl⟩ := forall₂_append_left_iff.mp h
  obtain ⟨value, others, hvalue, hothers, rfl⟩ := List.forall₂_cons_left_iff.mp hrest
  refine ⟨value, Section.toJson_eq_ok_iff.mpr hvalue, ?_⟩
  have hfields : sectionFields document.sections (first ++ value :: others) =
      sectionFields before first ++ (part.key, value) :: sectionFields after others := by
    have hlength : (before.map Section.key).length = first.length := by
      rw [List.length_map, hfirst.length_eq]
    rw [hsections]
    simp only [sectionFields, List.map_append, List.map_cons]
    rw [List.zip_append hlength, List.zip_cons_cons]
  rw [hfields]
  exact get?_sectionMembers (names_sectionFields hothers ▸ hlast)

/-- The object of a game holds its name and then the kinds of sections that there are, in an order of
their own, with what the last section of each kind stands for. Every source with the same sections of
each kind compiles to that object, however the kinds alternate. -/
theorem compile_interleaved {limits : Limits} {document : Document} {datum : Json}
    (hdatum : document.toJson limits.listing = .ok datum) :
    (∃ members, datum = .object (("game_name", .string document.name) :: members) ∧
      Fields.names members = sectionKeys.filter (· ∈ document.sections.map Section.key) ∧
      ∀ before part after, document.sections = before ++ part :: after →
        part.key ∉ after.map Section.key →
          ∃ value, part.toJson limits.listing = .ok value ∧
            Fields.get? members part.key = some value) ∧
    (∀ other source, document.Shuffled other → Document.parse source = .ok other →
      compile limits source = .ok ⟨document.name, document.sections.length, datum⟩) ∧
    (∀ other words (source : String), document.Shuffled other → other.Spelled words →
      LaidOut words source.toList →
        compile limits source = .ok ⟨document.name, document.sections.length, datum⟩) := by
  have hdenotes := Document.toJson_eq_ok_iff.mp hdatum
  refine ⟨?_, fun other source hshuffled hparse => compile_shuffled hshuffled hdenotes hparse,
    fun other words source hshuffled hspelled hlaid => ?_⟩
  · obtain @⟨data, hdata⟩ := hdenotes
    refine ⟨sectionMembers (sectionFields document.sections data), rfl, ?_,
      fun before part after => members_of_last hdata⟩
    rw [names_sectionMembers, names_sectionFields hdata]
  · obtain ⟨found, hparse, hfound⟩ := parse_spelled hspelled hlaid
    exact compile_shuffled (hshuffled.alike hfound) hdenotes hparse

/-- The economy stands between two sections of one kind. -/
def economyBetween : Document :=
  ⟨health.text, [.config [statOf '1'], .economy [statOf '3'], .config [statOf '2']]⟩

def betweenSource : String := "GAME hp [ CONFIG [ hp :: 1 ] ECONOMY [ hp :: 3 ] CONFIG [ hp :: 2 ] ] "

/-- It stands in front of both. -/
def economyFirst : Document :=
  ⟨health.text, [.economy [statOf '3'], .config [statOf '1'], .config [statOf '2']]⟩

def firstSource : String := "GAME hp [ ECONOMY [ hp :: 3 ] CONFIG [ hp :: 1 ] CONFIG [ hp :: 2 ] ] "

theorem economyFirst_compiled : ∃ game, compile .standard betweenSource = .ok game ∧
    compile .standard firstSource = .ok game := by
  have hconfig (digit : Char) (h : Lexeme.numeral [digit] = [digit]) :
      Section.Spelled (.config [statOf digit]) _ :=
    .config ⟨[statWords digit h], .cons (stat_spelled h) .nil, rfl⟩
  have heconomy : Section.Spelled (.economy [statOf '3']) _ :=
    .economy ⟨[statWords '3'], .cons (stat_spelled _) .nil, rfl⟩
  have hbetween : economyBetween.Spelled _ := .document health
    ⟨[_, _, _], .cons (hconfig '1' (by decide)) (.cons heconomy (.cons (hconfig '2' (by decide)) .nil)),
      rfl⟩
  have hfirst : economyFirst.Spelled _ := .document health
    ⟨[_, _, _], .cons heconomy (.cons (hconfig '1' (by decide)) (.cons (hconfig '2' (by decide)) .nil)),
      rfl⟩
  have hshuffled : economyBetween.Shuffled economyFirst := by
    have hkeys : (Section.config [statOf '1']).key ≠ (Section.economy [statOf '3']).key := by decide
    exact .swap rfl [] [.config [statOf '2']] hkeys rfl rfl
  obtain ⟨-, -, hspelled⟩ := @compile_interleaved .standard economyBetween _ rfl
  exact ⟨_, hspelled _ _ betweenSource (Document.Alike.refl _).shuffled hbetween
      (laidOut_source (by decide +kernel)),
    hspelled _ _ firstSource hshuffled hfirst (laidOut_source (by decide +kernel))⟩

end GameScript.Config
