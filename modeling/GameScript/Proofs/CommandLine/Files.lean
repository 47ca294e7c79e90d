import Mathlib.Data.List.Induction
import GameScript.CommandLine.Files

/-! # What is written to a file can be read from it

A file can only be written where no directory is and where the directory around it is there already,
so writing makes no new directory. The path leads to the same place afterwards. -/

namespace GameScript.Files

variable {files : Files} {place place' : Location}

theorem text?_put (files : Files) (place : Location) (text : String) :
    (files.put place text).text? place = some text := by
  unfold put
  split
  · rename_i h
    unfold text? at h ⊢
    dsimp only
    generalize files.files = entries at h
    induction entries with
    | nil => cases h
    | cons entry rest ih =>
      by_cases he : entry.1 = place
      · simp [he]
      · rw [List.find?_cons_of_neg (by simpa using he)] at h
        rw [List.map_cons, if_neg he, List.find?_cons_of_neg (by simpa using he)]
        exact ih h
  · rename_i h
    have hnone : files.files.find? (·.1 = place) = none := by
      rw [text?, Option.isSome_map, Bool.not_eq_true, Option.isSome_eq_false_iff] at h
      exact Option.isNone_iff_eq_none.mp h
    rw [text?, List.find?_append, hnone]
    simp

theorem text?_put_of_ne (text : String) (h : place' ≠ place) :
    (files.put place text).text? place' = files.text? place' := by
  unfold put
  split
  · simp only [text?]
    induction files.files with
    | nil => rfl
    | cons entry rest ih =>
      by_cases he : entry.1 = place
      · have hne : entry.1 ≠ place' := fun h' => h (h'.symm.trans he)
        simp only [List.map_cons, if_pos he, List.find?_cons, hne, Ne.symm h, decide_false]
        exact ih
      · simp only [List.map_cons, if_neg he, List.find?_cons]
        split
        · rfl
        · exact ih
  · simp [text?, List.find?_append, Ne.symm h]

/-- A location is a directory if it is always one, if a file lies in it or if it was made. -/
theorem isDirectory_iff : files.isDirectory place ↔
    (place.all (· = "..") ∨ place = ["/"]) ∨
    (∃ location, (∃ entry ∈ files.files, entry.1 = location) ∧ place <+: location ∧
      place ≠ location) ∨ ∃ other ∈ files.directories, place <+: other := by
  simp only [isDirectory, Bool.or_eq_true, decide_eq_true_eq, List.any_eq_true, Bool.and_eq_true,
    List.isPrefixOf_iff_prefix, or_assoc]
  simp

/-- What leads to a directory is one. -/
theorem isDirectory_of_append {part : String} (h : files.isDirectory (place ++ [part])) :
    files.isDirectory place := by
  have hpre : place <+: place ++ [part] := List.prefix_append place [part]
  rcases isDirectory_iff.mp h with (hall | hroot) | ⟨location, hfile, hp, hne⟩ | ⟨other, ho, hp⟩
  · rw [List.all_append, Bool.and_eq_true] at hall
    exact isDirectory_iff.mpr (.inl (.inl hall.1))
  · cases place with
    | nil => exact isDirectory_iff.mpr (.inl (.inl rfl))
    | cons => simp at hroot
  · refine isDirectory_iff.mpr (.inr (.inl ⟨location, hfile, hpre.trans hp, ?_⟩))
    intro h
    obtain rfl := h
    have := hp.length_le
    rw [List.length_append, List.length_singleton] at this
    omega
  · exact isDirectory_iff.mpr (.inr (.inr ⟨other, ho, hpre.trans hp⟩))

theorem isDirectory_of_prefix (rest : List String) (h : files.isDirectory (place ++ rest)) :
    files.isDirectory place := by
  induction rest generalizing place with
  | nil => simpa using h
  | cons part rest ih =>
    rw [List.append_cons] at h
    exact isDirectory_of_append (ih h)

theorem mem_put {location : Location} (text : String) :
    (∃ entry ∈ (files.put place text).files, entry.1 = location) ↔
      location = place ∨ ∃ entry ∈ files.files, entry.1 = location := by
  unfold put
  split
  · rename_i h
    obtain ⟨entry, he⟩ := Option.isSome_iff_exists.mp (by simpa [text?] using h :
      (files.files.find? (·.1 = place)).isSome)
    have hplace : entry.1 = place := by simpa using List.find?_some he
    constructor
    · intro h
      obtain ⟨entry', he', rfl⟩ := h
      obtain ⟨old, ho, rfl⟩ := List.mem_map.mp he'
      by_cases hp : old.1 = place
      · exact .inl (by simp [hp])
      · exact .inr ⟨old, ho, by simp [hp]⟩
    · intro h
      rcases h with rfl | ⟨old, ho, rfl⟩
      · exact ⟨_, List.mem_map.mpr ⟨entry, List.mem_of_find?_eq_some he, rfl⟩, by simp [hplace]⟩
      · refine ⟨_, List.mem_map.mpr ⟨old, ho, rfl⟩, ?_⟩
        by_cases hp : old.1 = place
        · simp [hp]
        · simp [hp]
  · simp only [List.mem_append, List.mem_singleton]
    constructor
    · intro h
      obtain ⟨entry, he | rfl, rfl⟩ := h
      · exact .inr ⟨entry, he, rfl⟩
      · exact .inl rfl
    · intro h
      rcases h with rfl | ⟨entry, he, rfl⟩
      · exact ⟨_, .inr rfl, rfl⟩
      · exact ⟨entry, .inl he, rfl⟩

/-- A file in a directory that is there makes no new directory. -/
theorem isDirectory_put (text : String) (h : files.isDirectory place.dropLast) (place' : Location) :
    (files.put place text).isDirectory place' = files.isDirectory place' := by
  have hold : (files.put place text).directories = files.directories := by
    unfold put
    split <;> rfl
  rw [Bool.eq_iff_iff, isDirectory_iff, hold]
  simp only [mem_put]
  constructor
  · intro h
    rcases h with hall | ⟨location, rfl | hold, hp, hne⟩ | hmade
    · exact isDirectory_iff.mpr (.inl hall)
    · obtain ⟨rest, rfl⟩ := hp
      cases rest using List.reverseRecOn with
      | nil => simp at hne
      | append_singleton rest part =>
        rw [← List.append_assoc, List.dropLast_concat] at h
        exact isDirectory_of_prefix rest h
    · exact isDirectory_iff.mpr (.inr (.inl ⟨location, hold, hp, hne⟩))
    · exact isDirectory_iff.mpr (.inr (.inr hmade))
  · intro hd
    rcases isDirectory_iff.mp hd with hall | ⟨location, hold, hp, hne⟩ | hmade
    · exact .inl hall
    · exact .inr (.inl ⟨location, .inr hold, hp, hne⟩)
    · exact .inr (.inr hmade)

/-! ## Paths -/

/-- From a place that is no directory a path leads only further away. -/
theorem follow_of_not_directory {final : Location} {parts : List String}
    (h : ¬ files.isDirectory place) (hf : files.follow place parts = .ok final) :
    final = place ++ parts := by
  induction parts generalizing place with
  | nil =>
    cases hf
    simp
  | cons part rest ih =>
    simp only [follow] at hf
    split at hf
    · cases hf
    · split at hf
      · cases hf
      · rename_i hup
        have hpart : part ≠ ".." := by
          intro he
          simp [he, h] at hup
        split at hf
        · cases hf
        · rw [Location.step, if_neg hpart] at hf
          rw [List.append_cons]
          exact ih (fun hd => h (isDirectory_of_append hd)) hf

theorem follow_put {final : Location} {parts : List String} (text : String)
    (hd : ¬ files.isDirectory final) (habove : files.isDirectory final.dropLast)
    (hf : files.follow place parts = .ok final) :
    (files.put final text).follow place parts = .ok final := by
  induction parts generalizing place with
  | nil => exact hf
  | cons part rest ih =>
    -- The path would not come back to the new file.
    have hne : place ≠ final := by
      intro h
      obtain rfl := h
      have := follow_of_not_directory hd hf
      simp at this
    simp only [follow, text?_put_of_ne text hne, isDirectory_put text habove] at hf ⊢
    split at hf
    · cases hf
    · rename_i hfile
      rw [if_neg hfile]
      split at hf
      · cases hf
      · rename_i hup
        rw [if_neg hup]
        split at hf
        · cases hf
        · rename_i hlong
          rw [if_neg hlong]
          exact ih hf

/-! ## Writing -/

theorem write_eq {path : Path} (text : String) (h : files.locate path = .ok place) :
    files.write path text =
      if files.isDirectory place then .error .isDirectory
      else if files.isDirectory place.dropLast then .ok (files.put place text)
      else .error .missing := by
  unfold write
  rw [h]
  by_cases hd : files.isDirectory place = true
  · rw [if_pos hd]
    exact if_pos hd
  · rw [if_neg hd]
    exact if_neg hd

theorem write_ok {path : Path} {text : String} {files' : Files}
    (h : files.write path text = .ok files') :
    ∃ place, files.locate path = .ok place ∧ ¬ files.isDirectory place ∧
      files.isDirectory place.dropLast ∧ files' = files.put place text := by
  cases hl : files.locate path with
  | error e =>
    unfold write at h
    rw [hl] at h
    cases h
  | ok place =>
    rw [write_eq text hl] at h
    split at h
    · cases h
    · split at h
      · cases h
        exact ⟨place, rfl, ‹_›, ‹_›, rfl⟩
      · cases h

theorem locate_put {path : Path} (text : String) (h : files.locate path = .ok place)
    (hd : ¬ files.isDirectory place) (ha : files.isDirectory place.dropLast) :
    (files.put place text).locate path = .ok place := by
  unfold locate at h ⊢
  split at h
  · cases h
  · rename_i hlong
    rw [if_neg hlong]
    exact follow_put text hd ha h

/-- A file that was written can be written again, and then it holds the new text. -/
theorem write_again {path : Path} {text : String} {files' : Files}
    (h : files.write path text = .ok files') (text' : String) :
    ∃ files'', files'.write path text' = .ok files'' ∧ files''.entry path = .file text' := by
  obtain ⟨place, hl, hd, ha, rfl⟩ := write_ok h
  have hl' := locate_put text hl hd ha
  have hd' : ¬ (files.put place text).isDirectory place := by rwa [isDirectory_put text ha]
  have ha' : (files.put place text).isDirectory place.dropLast := by rwa [isDirectory_put text ha]
  refine ⟨(files.put place text).put place text', ?_, ?_⟩
  · rw [write_eq text' hl', if_neg hd', if_pos ha']
  · simp [entry, locate_put text' hl' hd' ha', text?_put]

end GameScript.Files
