import Mathlib.Data.List.DropRight
import GameScript.Config.Compile
import GameScript.Proofs.Config.Positions
import GameScript.Proofs.Config.Blueprint

/-! # Telling game configurations from programs

A source is taken for a game configuration by its first line that is neither blank nor a comment.
The grammar knows no such lines: it skips blanks and comments up to its first word. The two agree
where every comment before this word ends with its line and a blank stands behind the word. They can
differ elsewhere, because a line of text has more ways to end than a comment has, and because a word
of the grammar may end at any character. -/

namespace GameScript

/-! ## Lines of text -/

namespace Text

theorem isBlank_of_isLineBreak {c : Char} (h : isLineBreak c) : isBlank c := by
  simp only [isLineBreak, isBlank, Bool.or_eq_true, Bool.and_eq_true, decide_eq_true_eq] at h ⊢
  omega

/-- Blanks behind a text are no part of its first word. -/
theorem firstWord_append {kept blanks : List Char} (h : ∀ c ∈ blanks, isBlank c) :
    firstWord (kept ++ blanks) = firstWord kept := by
  have hnone : blanks.takeWhile (!isBlank ·) = [] := by
    cases blanks with
    | nil => rfl
    | cons c rest => simp [h c List.mem_cons_self]
  unfold firstWord
  rw [List.takeWhile_append, hnone, List.append_nil]
  split
  · next hall => exact (List.takeWhile_prefix _).eq_of_length hall |>.symm
  · rfl

/-- The first word of a line is the same without the blanks around the line. -/
theorem firstWord_strip (line : List Char) :
    firstWord (strip line) = firstWord (line.dropWhile isBlank) := by
  unfold strip
  generalize line.dropWhile isBlank = cs
  have hcs : cs =
      (cs.reverse.dropWhile isBlank).reverse ++ (cs.reverse.takeWhile isBlank).reverse := by
    rw [← List.reverse_append, List.takeWhile_append_dropWhile, List.reverse_reverse]
  have hblanks : ∀ c ∈ (cs.reverse.takeWhile isBlank).reverse, isBlank c := by
    intro c hc
    exact List.mem_takeWhile_imp (List.mem_reverse.mp hc)
  calc firstWord (cs.reverse.dropWhile isBlank).reverse
      = firstWord ((cs.reverse.dropWhile isBlank).reverse ++
          (cs.reverse.takeWhile isBlank).reverse) := (firstWord_append hblanks).symm
    _ = firstWord cs := by rw [← hcs]

theorem dropWhile_blanks {blanks : List Char} (h : ∀ c ∈ blanks, isBlank c) (cs : List Char) :
    (blanks ++ cs).dropWhile isBlank = cs.dropWhile isBlank := by
  rw [List.dropWhile_append, List.dropWhile_eq_nil_iff.mpr h]
  rfl

theorem dropWhile_word {word : List Char} (hne : word ≠ []) (hword : ∀ c ∈ word, ¬ isBlank c)
    (more : List Char) : (word ++ more).dropWhile isBlank = word ++ more := by
  cases word with
  | nil => exact absurd rfl hne
  | cons c word => simp [hword c List.mem_cons_self]

/-- A line begins with the word that comes after its first blanks. -/
theorem strip_word {blanks word : List Char} (hblanks : ∀ c ∈ blanks, isBlank c) (hne : word ≠ [])
    (hword : ∀ c ∈ word, ¬ isBlank c) (more : List Char) :
    ∃ kept, strip (blanks ++ (word ++ more)) = word ++ kept := by
  have hback : word.reverse.dropWhile isBlank = word.reverse := by
    cases hrev : word.reverse with
    | nil => rfl
    | cons c rest =>
      have hc : c ∈ word := List.mem_reverse.mp (hrev ▸ List.mem_cons_self)
      simp [hword c hc]
  rw [strip, dropWhile_blanks hblanks, dropWhile_word hne hword, List.reverse_append,
    List.dropWhile_append, hback]
  split
  · exact ⟨[], by simp⟩
  · exact ⟨_, by rw [List.reverse_append, List.reverse_reverse]⟩

theorem linesFrom_break {c : Char} (h : isLineBreak c) (line cs : List Char) :
    ∃ rest, linesFrom line (c :: cs) = line.reverse :: linesFrom [] rest ∧
      (rest = cs ∨ cs = '\n' :: rest) := by
  by_cases hpair : c = '\r' ∧ cs.head? = some '\n'
  · obtain ⟨rfl, hnext⟩ := hpair
    obtain ⟨rest, rfl⟩ : ∃ rest, cs = '\n' :: rest := List.head?_eq_some_iff.mp hnext
    exact ⟨rest, rfl, .inr rfl⟩
  · refine ⟨cs, ?_, .inl rfl⟩
    rw [linesFrom, if_pos h]
    rintro rest rfl rfl
    exact hpair ⟨rfl, rfl⟩

theorem linesFrom_other {c : Char} (h : ¬ isLineBreak c) (line cs : List Char) :
    linesFrom line (c :: cs) = linesFrom (c :: line) cs := by
  have hreturn : c ≠ '\r' := by
    rintro rfl
    exact h rfl
  rw [linesFrom, if_neg h]
  exact fun rest hc => absurd hc hreturn

theorem linesFrom_append {text : List Char} (h : ∀ c ∈ text, ¬ isLineBreak c) (line cs : List Char) :
    linesFrom line (text ++ cs) = linesFrom (text.reverse ++ line) cs := by
  induction text generalizing line with
  | nil => rfl
  | cons c text ih =>
    obtain ⟨hc, htext⟩ := List.forall_mem_cons.mp h
    rw [List.cons_append, linesFrom_other hc, ih htext, List.reverse_cons, List.append_assoc]
    rfl

/-- The first line of a text, after what has been read of it already. -/
theorem linesFrom_head (line cs : List Char) (h : line ≠ []) :
    (linesFrom line cs).head? = some (line.reverse ++ cs.takeWhile (!isLineBreak ·)) := by
  induction cs generalizing line with
  | nil => simp [linesFrom, h]
  | cons c cs ih =>
    by_cases hc : isLineBreak c
    · obtain ⟨rest, hlines, -⟩ := linesFrom_break hc line cs
      simp [hlines, hc]
    · rw [linesFrom_other hc, ih _ (List.cons_ne_nil c line)]
      simp [hc]

end Text

namespace Config

/-! ## The line that decides -/

/-- Is a line that is stripped of blanks neither empty nor a comment? -/
def isCode (line : List Char) : Bool :=
  !(line.isEmpty || ['/', '/'].isPrefixOf line || ['#'].isPrefixOf line)

/-- The first line that is neither blank nor a comment. -/
def firstCode? (lines : List (List Char)) : Option (List Char) := (lines.map Text.strip).find? isCode

theorem isGame_eq (source : String) :
    isGame source = match firstCode? (Text.lines source.toList) with
      | some line => decide (Text.firstWord line = "GAME".toList)
      | none => false := rfl

theorem firstCode?_cons_of_not {line : List Char} (h : ¬ isCode (Text.strip line))
    (lines : List (List Char)) : firstCode? (line :: lines) = firstCode? lines := by
  simp [firstCode?, h]

theorem firstCode?_cons_of_code {line : List Char} (h : isCode (Text.strip line))
    (lines : List (List Char)) : firstCode? (line :: lines) = some (Text.strip line) := by
  simp [firstCode?, h]

/-- A line that does not decide is passed, whatever ends it. -/
theorem firstCode?_break {c : Char} (hc : Text.isLineBreak c) {line : List Char}
    (h : ¬ isCode (Text.strip line.reverse)) (cs : List Char) :
    firstCode? (Text.linesFrom line (c :: cs)) = firstCode? (Text.linesFrom [] cs) := by
  obtain ⟨rest, hlines, hrest⟩ := Text.linesFrom_break hc line cs
  rw [hlines, firstCode?_cons_of_not h]
  rcases hrest with rfl | rfl
  · rfl
  · -- what is left of a pair of line breaks is an empty line
    rfl

theorem not_isCode_blank {line : List Char} (h : ∀ c ∈ line, Text.isBlank c) :
    ¬ isCode (Text.strip line) := by
  have hnothing : line.dropWhile Text.isBlank = [] := List.dropWhile_eq_nil_iff.mpr h
  rw [Text.strip, hnothing]
  decide

/-- A line with blanks before the sign that begins a comment. -/
theorem not_isCode_comment {blanks opening : List Char} (hblanks : ∀ c ∈ blanks, Text.isBlank c)
    (hopening : opening ∈ Blueprint.openings) (body : List Char) :
    ¬ isCode (Text.strip (blanks ++ (opening ++ body))) := by
  have hsigns : ∀ opening ∈ Blueprint.openings, opening ≠ [] ∧ ∀ c ∈ opening, ¬ Text.isBlank c := by
    simp [Blueprint.openings, Text.isBlank]
  obtain ⟨hne, hsign⟩ := hsigns opening hopening
  obtain ⟨kept, hkept⟩ := Text.strip_word hblanks hne hsign body
  rw [hkept]
  rcases List.mem_pair.mp hopening with rfl | rfl
  · simp [isCode]
  · simp [isCode]

/-! ## Before the first word -/

/-- Blanks and comments, each of which lies on a line of its own in the text. -/
inductive Heading : List Char → Prop
  | nil : Heading []
  | blank {c : Char} {rest : List Char} (hc : Lexeme.isBlank c) (hrest : Heading rest) :
      Heading (c :: rest)
  | comment {opening body ending rest : List Char} (hopening : opening ∈ Blueprint.openings)
      (hbody : ∀ c ∈ body, ¬ Text.isLineBreak c) (hending : ending ∈ [['\n'], ['\r', '\n']])
      (hrest : Heading rest) : Heading (opening ++ (body ++ (ending ++ rest)))

theorem isBlank_of_lexeme {c : Char} (h : Lexeme.isBlank c) : Text.isBlank c := by
  have hcases : c = ' ' ∨ c = '\t' ∨ c.toNat = 12 ∨ c = '\r' ∨ c = '\n' := by
    simpa [Lexeme.isBlank, or_assoc] using h
  rcases hcases with rfl | rfl | hform | rfl | rfl
  · decide
  · decide
  · simp [Text.isBlank, hform]
  · decide
  · decide

/-- Nothing before the first word decides. -/
theorem Heading.passed {gap : List Char} (h : Heading gap) {line : List Char}
    (hline : ∀ c ∈ line, Text.isBlank c) (cs : List Char) :
    ∃ blanks, (∀ c ∈ blanks, Text.isBlank c) ∧
      firstCode? (Text.linesFrom line (gap ++ cs)) = firstCode? (Text.linesFrom blanks cs) := by
  have hempty : ∀ c ∈ ([] : List Char), Text.isBlank c := nofun
  induction h generalizing line with
  | nil => exact ⟨line, hline, rfl⟩
  | @blank c gap hc _ ih =>
    by_cases hbreak : Text.isLineBreak c
    · have hpass := firstCode?_break hbreak
        (not_isCode_blank fun c hc => hline c (List.mem_reverse.mp hc)) (gap ++ cs)
      obtain ⟨blanks, hblanks, hrest⟩ := ih hempty
      exact ⟨blanks, hblanks, hpass.trans hrest⟩
    · have hall : ∀ d ∈ c :: line, Text.isBlank d :=
        List.forall_mem_cons.mpr ⟨isBlank_of_lexeme hc, hline⟩
      obtain ⟨blanks, hblanks, hrest⟩ := ih hall
      refine ⟨blanks, hblanks, ?_⟩
      rw [List.cons_append, Text.linesFrom_other hbreak, hrest]
  | @comment opening body ending gap hopening hbody hending _ ih =>
    obtain ⟨blanks, hblanks, hrest⟩ := ih hempty
    refine ⟨blanks, hblanks, ?_⟩
    have hsigns : ∀ opening ∈ Blueprint.openings, ∀ c ∈ opening, ¬ Text.isLineBreak c := by
      simp [Blueprint.openings, Text.isLineBreak]
    have hcomment : ¬ isCode (Text.strip (body.reverse ++ (opening.reverse ++ line)).reverse) := by
      rw [List.reverse_append, List.reverse_append, List.reverse_reverse, List.reverse_reverse,
        List.append_assoc]
      exact not_isCode_comment (fun c hc => hline c (List.mem_reverse.mp hc)) hopening body
    rw [List.append_assoc, List.append_assoc, List.append_assoc,
      Text.linesFrom_append (hsigns opening hopening), Text.linesFrom_append hbody, ← hrest]
    rcases List.mem_pair.mp hending with rfl | rfl
    · exact firstCode?_break (by decide) hcomment _
    · refine (firstCode?_break (by decide) hcomment _).trans ?_
      exact firstCode?_break (by decide) (by decide) _

/-- A word and the rest of a text make one word, unless the rest is empty or begins with a blank. -/
theorem firstWord_eq_iff {word : List Char} (hword : ∀ c ∈ word, ¬ Text.isBlank c)
    (rest : List Char) : Text.firstWord (word ++ rest) = word ↔ ∀ c ∈ rest.head?, Text.isBlank c := by
  rw [Text.firstWord, List.takeWhile_append_of_pos fun c hc => by simpa using hword c hc]
  cases rest with
  | nil => simp
  | cons c rest =>
    by_cases hc : Text.isBlank c
    · simp [hc]
    · simp [hc]

/-- Behind a heading, the first word decides together with the character behind it. -/
theorem isGame_of_heading {source : String} {gap rest : List Char}
    (hsource : source.toList = gap ++ ("GAME".toList ++ rest)) (h : Heading gap) :
    isGame source ↔ ∀ c ∈ rest.head?, Text.isBlank c := by
  have hempty : ∀ c ∈ ([] : List Char), Text.isBlank c := nofun
  have hword : ∀ c ∈ "GAME".toList, ¬ Text.isBlank c := by simp [Text.isBlank]
  have hunbroken : ∀ c ∈ "GAME".toList, ¬ Text.isLineBreak c := by simp [Text.isLineBreak]
  obtain ⟨blanks, hblanks, hpassed⟩ := h.passed hempty ("GAME".toList ++ rest)
  have hfront : ∀ c ∈ blanks.reverse, Text.isBlank c := fun c hc => hblanks c (List.mem_reverse.mp hc)
  -- the line of the word goes on to the next line break
  generalize hend : rest.takeWhile (!Text.isLineBreak ·) = behind
  have hline := Text.linesFrom_head ("GAME".toList.reverse ++ blanks) rest (by simp)
  rw [← Text.linesFrom_append hunbroken, List.reverse_append, List.reverse_reverse, List.append_assoc,
    hend] at hline
  obtain ⟨more, hlines⟩ := List.head?_eq_some_iff.mp hline
  obtain ⟨kept, hkept⟩ := Text.strip_word hfront (by simp) hword behind
  have hcode : isCode (Text.strip (blanks.reverse ++ ("GAME".toList ++ behind))) := by
    rw [hkept]
    rfl
  rw [isGame_eq, hsource, Text.lines, hpassed, hlines, firstCode?_cons_of_code hcode]
  dsimp only
  rw [decide_eq_true_iff, Text.firstWord_strip, Text.dropWhile_blanks hfront,
    Text.dropWhile_word (by simp) hword, firstWord_eq_iff hword, ← hend]
  cases rest with
  | nil => rfl
  | cons c rest =>
    by_cases hc : Text.isLineBreak c
    · simp [hc, Text.isBlank_of_isLineBreak hc]
    · simp [hc]

/-! ## What the grammar accepts -/

theorem spacing_opening {d : Char} {body gap : List Char}
    (h : d = '#' ∨ d = '/' ∧ (body ++ '\n' :: gap).head? = some '/') (hbody : '\n' ∉ body)
    (hgap : Blueprint.Spacing gap) : Blueprint.Spacing (d :: (body ++ '\n' :: gap)) := by
  rcases h with rfl | ⟨rfl, hnext⟩
  · show Blueprint.Spacing (['#'] ++ (body ++ '\n' :: gap))
    exact .comment (by decide) hbody hgap
  · cases body with
    | nil => exact absurd hnext (by simp)
    | cons e body =>
      obtain rfl : e = '/' := by simpa using hnext
      show Blueprint.Spacing (['/', '/'] ++ (body ++ '\n' :: gap))
      exact .comment (by decide) (fun hmem => hbody (List.mem_cons_of_mem _ hmem)) hgap

/-- What is skipped are blanks and comments. Within a comment, the first line end is the end of it. -/
theorem skip_spacing {inComment : Bool} {position position' : Position} {cs rest : List Char}
    {c : Char} (h : Lexeme.skip inComment position cs = (position', c :: rest)) :
    ∃ skipped, skipped ++ c :: rest = cs ∧ (inComment = false → Blueprint.Spacing skipped) ∧
      (inComment = true → ∃ body gap, skipped = body ++ '\n' :: gap ∧ '\n' ∉ body ∧
        Blueprint.Spacing gap) := by
  induction cs generalizing inComment position with
  | nil => cases h
  | cons d cs ih =>
    unfold Lexeme.skip at h
    dsimp only at h
    split at h
    · next hin =>
      obtain ⟨skipped, rfl, hout, hcomment⟩ := ih h
      refine ⟨d :: skipped, rfl, fun hno => by simp [hin] at hno, fun _ => ?_⟩
      by_cases hd : d = '\n'
      · exact ⟨[], skipped, by rw [hd]; rfl, List.not_mem_nil, hout (by simp [hd])⟩
      · obtain ⟨body, gap, rfl, hbody, hgap⟩ := hcomment (by simp [hd])
        exact ⟨d :: body, gap, rfl, by simp [hbody, Ne.symm hd], hgap⟩
    · next hin =>
      split at h
      · next hblank =>
        obtain ⟨skipped, rfl, hout, -⟩ := ih h
        exact ⟨d :: skipped, rfl, fun _ => .blank hblank (hout rfl), fun hyes => absurd hyes hin⟩
      · split at h
        · next hopening =>
          obtain ⟨skipped, rfl, -, hcomment⟩ := ih h
          obtain ⟨body, gap, rfl, hbody, hgap⟩ := hcomment rfl
          refine ⟨d :: (body ++ '\n' :: gap), rfl, fun _ => ?_, fun hyes => absurd hyes hin⟩
          exact spacing_opening (by simpa using hopening) hbody hgap
        · cases h
          exact ⟨[], rfl, fun _ => .nil, fun hyes => absurd hyes hin⟩

/-- Where only the first word of the grammar may stand, only it is read. -/
theorem read_game {cs text : List Char} {terminal : Terminal}
    (h : Lexeme.read [.word .game] cs = some (terminal, text)) : text = "GAME".toList := by
  have hnumber : Lexeme.readNumber [.word .game] cs = none := by
    unfold Lexeme.readNumber
    dsimp only
    split
    · rfl
    · split <;> rfl
  have hmark : Lexeme.readMark [.word .game] cs = none := by
    simp [Lexeme.readMark]
  have hkeyword : Lexeme.readKeyword [.word .game] cs = some (terminal, text) := by
    rw [Lexeme.read, hnumber, hmark] at h
    simpa using h
  obtain ⟨keyword, hfound, he⟩ := Option.map_eq_some_iff.mp hkeyword
  cases he
  rcases Lexeme.foldl_longer_mem _ _ _ hfound with hmem | hnone
  · obtain rfl : keyword = .game := List.mem_singleton.mp (List.mem_filter.mp hmem).1
    rfl
  · cases hnone

/-- The next lexeme stands behind blanks and comments. -/
theorem fetch_next {cs : List Char} {position last : Position} {expected : Expected} {reader : Reader}
    {lexeme : Lexeme} (h : Reader.fetch cs position last expected = .ok reader)
    (hnext : reader.next = some lexeme) :
    ∃ gap text, cs = gap ++ (text ++ reader.rest) ∧ Blueprint.Spacing gap ∧
      Lexeme.read expected (text ++ reader.rest) = some (lexeme.terminal, text) := by
  unfold Reader.fetch at h
  split at h
  · cases h
    cases hnext
  · next position' c rest hskip =>
    obtain ⟨gap, rfl, hgap, -⟩ := skip_spacing hskip
    split at h
    · next terminal text hread =>
      obtain ⟨after, hafter⟩ := Lexeme.read_begins hread
      cases h
      cases hnext
      have hrest : text ++ (c :: rest).drop text.length = c :: rest := by
        rw [← hafter, List.drop_left]
      refine ⟨gap, text, ?_, hgap rfl, ?_⟩
      · exact congrArg (gap ++ ·) hrest.symm
      · exact (congrArg (Lexeme.read expected) hrest).trans hread
    · split at h <;> cases h

theorem expect_ok {terminal : Terminal} {expected : Expected} {reader reader' : Reader}
    {lexeme : Lexeme} (h : Read.expect terminal expected reader = .ok lexeme reader') :
    reader.next.map (·.terminal) = some terminal := by
  unfold Read.expect at h
  obtain ⟨found, _, hpeek, h⟩ := bind_ok h
  cases hpeek
  split at h
  · assumption
  · cases h

theorem parse_ok {source : String} {document : Document}
    (h : Document.parse source = .ok document) :
    ∃ reader reader', Reader.fetch source.toList .start .start [.word .game] = .ok reader ∧
      Read.document reader = .ok document reader' := by
  unfold Document.parse at h
  cases hfetch : Reader.fetch source.toList .start .start [.word .game] with
  | error =>
    rw [hfetch] at h
    cases h
  | ok reader =>
    rw [hfetch] at h
    simp only [bind, Except.bind] at h
    split at h
    · next hdocument =>
      cases h
      exact ⟨reader, _, rfl, hdocument⟩
    · cases h

/-- A source that is accepted begins with the first word, but for blanks and comments. -/
theorem parse_begins {source : String} {document : Document}
    (h : Document.parse source = .ok document) :
    ∃ gap rest, source.toList = gap ++ ("GAME".toList ++ rest) ∧ Blueprint.Spacing gap := by
  obtain ⟨reader, _, hfetch, hdocument⟩ := parse_ok h
  obtain ⟨_, _, hfirst, -⟩ := bind_ok hdocument
  change (Read.expect (.word .game) Expected.names >>= fun _ => pure ()) reader = _ at hfirst
  obtain ⟨_, _, hexpect, -⟩ := bind_ok hfirst
  obtain ⟨lexeme, hnext, -⟩ := Option.map_eq_some_iff.mp (expect_ok hexpect)
  obtain ⟨gap, text, hsource, hgap, hread⟩ := fetch_next hfetch hnext
  obtain rfl := read_game hread
  exact ⟨gap, reader.rest, hsource, hgap⟩

end Config

end GameScript
