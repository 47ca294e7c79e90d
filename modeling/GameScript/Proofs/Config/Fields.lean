import GameScript.Fields
import Mathlib.Data.List.Induction

/-! # Values set one after the other

Setting named values one after the other leaves each name once, in the place where it first came and
with the value that came last. Setting them in groups that are gathered first comes to the same. -/

namespace GameScript.Fields

variable {α κ : Type} [DecidableEq κ]

/-- Each name once, where it first stands, with the value that stands last. -/
def latest : Fields α κ → Fields α κ
  | [] => []
  | (name, value) :: rest =>
    (name, (get? rest.reverse name).getD value) :: (latest rest).filter (·.1 ≠ name)

/-- Fields are gathered by their first name: what is left does not have it. -/
@[elab_as_elim]
theorem gathering_induction {P : Fields α κ → Prop} (nil : P [])
    (cons : ∀ name value rest, P (rest.filter (·.1 ≠ name)) → P ((name, value) :: rest))
    (fields : Fields α κ) : P fields := by
  generalize hn : fields.length = n
  induction n using Nat.strongRecOn generalizing fields with
  | ind n ih =>
    cases fields with
    | nil => exact nil
    | cons field rest =>
      have hle := List.length_filter_le (fun other => decide (other.1 ≠ field.1)) rest
      simp only [List.length_cons] at hn
      exact cons field.1 field.2 rest (ih _ (by omega) _ rfl)

/-! ## Setting values in turn -/

theorem get?_append (fields more : Fields α κ) (name : κ) :
    get? (fields ++ more) name = (get? fields name).or (get? more name) := by
  induction fields with
  | nil => simp [get?]
  | cons field rest ih =>
    obtain ⟨key, value⟩ := field
    by_cases h : key = name
    · simp [get?, h]
    · simp [get?, h, ih]

theorem get?_filter {keep : κ → Bool} {name : κ} (h : keep name) (fields : Fields α κ) :
    get? (fields.filter (keep ·.1)) name = get? fields name := by
  induction fields with
  | nil => rfl
  | cons field rest ih =>
    obtain ⟨key, value⟩ := field
    by_cases hk : key = name
    · subst hk
      simp [get?, h]
    · by_cases hkeep : keep key
      · simp [get?, hk, hkeep, ih]
      · simp [get?, hk, hkeep, ih]

theorem latest_filter (keep : κ → Bool) (fields : Fields α κ) :
    latest (fields.filter (keep ·.1)) = (latest fields).filter (keep ·.1) := by
  induction fields with
  | nil => rfl
  | cons field rest ih =>
    obtain ⟨key, value⟩ := field
    by_cases hkeep : keep key
    · have hvalue : get? (rest.filter (keep ·.1)).reverse key = get? rest.reverse key := by
        rw [← List.filter_reverse, get?_filter hkeep]
      simp only [List.filter_cons, hkeep, if_true, latest, hvalue, ih, List.filter_filter]
      congr 2
      funext field
      exact Bool.and_comm _ _
    · have hdrop : ∀ (value : α) (more : Fields α κ),
          ((key, value) :: more).filter (keep ·.1) = more.filter (keep ·.1) := by simp [hkeep]
      rw [latest, hdrop, hdrop, ih, List.filter_filter]
      refine List.filter_congr fun field _ => ?_
      by_cases hf : field.1 = key
      · simp [hf, hkeep]
      · simp [hf]

theorem putAll_cons (fields : Fields α κ) (name : κ) (value : α) (more : Fields α κ) :
    putAll fields ((name, value) :: more) = putAll (put fields name value) more := rfl

theorem putAll_append (fields more others : Fields α κ) :
    putAll fields (more ++ others) = putAll (putAll fields more) others :=
  List.foldl_append

/-- The first name keeps its place, whatever comes after it. -/
theorem putAll_first (name : κ) (value : α) (fields more : Fields α κ) :
    putAll ((name, value) :: fields) more =
      (name, (get? more.reverse name).getD value) :: putAll fields (more.filter (·.1 ≠ name)) := by
  induction more generalizing value fields with
  | nil => rfl
  | cons field rest ih =>
    obtain ⟨key, new⟩ := field
    by_cases h : key = name
    · subst h
      rw [putAll_cons, put, if_pos rfl, ih]
      simp [get?_append, get?]
    · rw [putAll_cons, put, if_neg (Ne.symm h), ih]
      simp [get?_append, get?, h, putAll_cons]

theorem putAll_nil (fields : Fields α κ) : putAll [] fields = latest fields := by
  induction fields using gathering_induction with
  | nil => rfl
  | cons name value rest ih =>
    rw [putAll_cons, put, putAll_first, ih, latest]
    exact congrArg _ (latest_filter (fun key => decide (key ≠ name)) rest)

/-! ## Setting values in groups -/

theorem mem_names_put {fields : Fields α κ} {name key : κ} (value : α) (h : name ∈ names fields) :
    name ∈ names (put fields key value) := by
  rw [names_put]
  split
  · exact h
  · exact List.mem_append_left _ h

theorem names_put_self (fields : Fields α κ) (name : κ) (value : α) :
    name ∈ names (put fields name value) := by
  rw [names_put]
  split
  · assumption
  · simp

theorem put_put_self (fields : Fields α κ) (name : κ) (old value : α) :
    put (put fields name old) name value = put fields name value := by
  induction fields with
  | nil => simp [put]
  | cons field rest ih =>
    obtain ⟨key, other⟩ := field
    by_cases h : key = name <;> simp [put, h, ih]

/-- A name that is there can be set before or after another one. -/
theorem put_comm {fields : Fields α κ} {name key : κ} (hne : name ≠ key) (h : name ∈ names fields)
    (value other : α) :
    put (put fields key other) name value = put (put fields name value) key other := by
  induction fields with
  | nil => cases h
  | cons field rest ih =>
    obtain ⟨first, old⟩ := field
    by_cases hk : first = key
    · subst hk
      simp [put, Ne.symm hne]
    · by_cases hn : first = name
      · subst hn
        simp [put, hk]
      · have hmem : name ∈ names rest := by
          simpa [names, Ne.symm hn] using h
        simp [put, hk, hn, ih hmem]

theorem put_putAll {fields more : Fields α κ} {name : κ} (value : α) (h : name ∈ names fields)
    (hmore : name ∉ names more) :
    put (putAll fields more) name value = putAll (put fields name value) more := by
  induction more generalizing fields with
  | nil => rfl
  | cons field rest ih =>
    obtain ⟨key, other⟩ := field
    obtain ⟨hne, hrest⟩ : name ≠ key ∧ name ∉ names rest := by simpa [names] using hmore
    rw [putAll_cons, putAll_cons, ih (mem_names_put _ h) hrest, put_comm hne h]

theorem putAll_put {more : Fields α κ} (hmore : (names more).Nodup) (fields : Fields α κ) (name : κ)
    (value : α) : putAll fields (put more name value) = put (putAll fields more) name value := by
  induction more generalizing fields with
  | nil => rfl
  | cons field rest ih =>
    obtain ⟨key, other⟩ := field
    obtain ⟨hkey, hrest⟩ := List.nodup_cons.mp hmore
    by_cases h : key = name
    · subst h
      rw [put, if_pos rfl, putAll_cons, putAll_cons, put_putAll _ (names_put_self _ _ _) hkey,
        put_put_self]
    · rw [put, if_neg h, putAll_cons, putAll_cons, ih hrest]

theorem nodup_putAll {fields : Fields α κ} (h : (names fields).Nodup) (more : Fields α κ) :
    (names (putAll fields more)).Nodup := by
  induction more generalizing fields with
  | nil => exact h
  | cons field rest ih =>
    obtain ⟨key, value⟩ := field
    refine ih ?_
    rw [names_put]
    split
    · exact h
    · next hkey => exact List.nodup_append.mpr ⟨h, by simp, by rintro a ha b hb rfl; simp_all⟩

/-- Values that were gathered first set the same as one by one. -/
theorem putAll_latest (fields more : Fields α κ) :
    putAll fields (latest more) = putAll fields more := by
  rw [← putAll_nil]
  -- From the end: what is set last comes last on both sides, gathered or not.
  induction more using List.reverseRecOn with
  | nil => rfl
  | append_singleton rest field ih =>
    have hnodup : (names (putAll [] rest)).Nodup := nodup_putAll (by simp [names]) rest
    rw [putAll_append, putAll_append]
    exact (putAll_put hnodup _ _ _).trans (congrArg (put · field.1 field.2) ih)

/-! ## What is kept -/

theorem get?_eq_none {fields : Fields α κ} {name : κ} (h : name ∉ names fields) :
    get? fields name = none := by
  rw [← Option.not_isSome_iff_eq_none]
  exact fun hsome => h ((has_iff _ _).mp hsome)

/-- Read backwards, the value of a name is the one that stands last. -/
theorem get?_last {before after : Fields α κ} {name : κ} {value : α} (h : name ∉ names after) :
    get? (before ++ (name, value) :: after).reverse name = some value := by
  have hafter : get? after.reverse name = none :=
    get?_eq_none (by simpa [names, List.map_reverse] using h)
  simp [get?_append, hafter, get?]

theorem get?_latest (fields : Fields α κ) (name : κ) :
    get? (latest fields) name = get? fields.reverse name := by
  induction fields with
  | nil => rfl
  | cons field rest ih =>
    obtain ⟨key, value⟩ := field
    rw [latest, List.reverse_cons, get?_append, ← ih]
    by_cases h : key = name
    · subst h
      rw [ih]
      cases get? rest.reverse key <;> simp [get?]
    · have hkeep : decide (name ≠ key) = true := decide_eq_true (Ne.symm h)
      have hother := @get?_filter _ _ _ (fun other => decide (other ≠ key)) name hkeep (latest rest)
      rw [get?, if_neg h, hother]
      simp [get?, h]

omit [DecidableEq κ] in
theorem names_filter (keep : κ → Bool) (fields : Fields α κ) :
    names (fields.filter (keep ·.1)) = (names fields).filter keep := by
  simp [names, List.filter_map, Function.comp_def]

theorem names_latest (fields : Fields α κ) : names (latest fields) = (names fields).eraseDups := by
  induction fields using gathering_induction with
  | nil => rfl
  | cons name value rest ih =>
    have hrest : names (latest (rest.filter (·.1 ≠ name))) =
        ((names rest).filter (· ≠ name)).eraseDups := by
      rw [ih]
      exact congrArg _ (names_filter (fun key => decide (key ≠ name)) rest)
    have hothers : (names rest).filter (fun key => !key == name) = (names rest).filter (· ≠ name) :=
      List.filter_congr fun key _ => (decide_not ..).symm
    have hlatest : names (latest ((name, value) :: rest)) =
        name :: names (latest (rest.filter (·.1 ≠ name))) :=
      congrArg (fun fields => name :: names fields)
        (latest_filter (fun key => decide (key ≠ name)) rest).symm
    rw [hlatest, hrest, ← hothers]
    exact List.eraseDups_cons.symm

/-- What is kept of named values: each name once, where it first stands, with the value that stands
last. -/
structure Gathers (written kept : Fields α κ) : Prop where
  once : (names kept).Nodup
  places : names kept = (names written).eraseDups
  values : ∀ name, get? kept name = get? written.reverse name

/-- Names that stand once tell the fields together with their values. -/
theorem eq_of_names {fields others : Fields α κ} (h : names fields = names others)
    (hnodup : (names fields).Nodup) (hvalues : ∀ name, get? fields name = get? others name) :
    fields = others := by
  induction fields generalizing others with
  | nil => simpa [names] using h.symm
  | cons field rest ih =>
    obtain ⟨name, value⟩ := field
    cases others with
    | nil => cases h
    | cons other others =>
      obtain ⟨other, value'⟩ := other
      obtain ⟨rfl, hnames⟩ : name = other ∧ names rest = names others := List.cons.inj h
      obtain ⟨hname, hrest⟩ := List.nodup_cons.mp hnodup
      obtain rfl : value = value' := by simpa [get?] using hvalues name
      have hothers : rest = others := ih hnames hrest fun key => by
        by_cases hkey : name = key
        · -- the first name stands in neither of the rests
          subst hkey
          rw [get?_eq_none hname, get?_eq_none (hnames ▸ hname)]
        · simpa [get?, hkey] using hvalues key
      rw [hothers]

theorem gathers_iff {written kept : Fields α κ} : Gathers written kept ↔ kept = putAll [] written := by
  have hnodup : (names (putAll [] written)).Nodup := nodup_putAll (by simp [names]) written
  rw [putAll_nil] at hnodup ⊢
  constructor
  · intro h
    refine eq_of_names (h.places.trans (names_latest written).symm) h.once fun name => ?_
    rw [h.values, get?_latest]
  · rintro rfl
    exact ⟨hnodup, names_latest written, get?_latest written⟩

theorem putAll_gathers (written : Fields α κ) : Gathers written (putAll [] written) :=
  gathers_iff.mpr rfl

end GameScript.Fields
