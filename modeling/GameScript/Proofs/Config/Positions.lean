import GameScript.Config.Parser
import GameScript.Proofs.Steps
import Mathlib.Data.List.Basic

/-! # Where reading stands

Every lexeme is the beginning of the text still to be read, so the position of a reader is the one
after the text that has been read. Whatever is wrong with a source is reported on one of its lines. -/

namespace GameScript.Config

/-! ## Positions in a source -/

namespace Position

variable {source : List Char}

theorem afterAll_append (p : Position) (text more : List Char) :
    p.afterAll (text ++ more) = (p.afterAll text).afterAll more := List.foldl_append

theorem afterAll_line (p : Position) (text : List Char) :
    (p.afterAll text).line = p.line + text.count '\n' := by
  induction text generalizing p with
  | nil => rfl
  | cons c text ih =>
    change ((p.after c).afterAll text).line = _
    rw [ih, List.count_cons]
    by_cases hc : c = '\n'
    · simp [after, hc]
      omega
    · simp [after, hc]

/-- The position after some of a source. -/
def In (source : List Char) (p : Position) : Prop := ∃ text, text <+: source ∧ p = start.afterAll text

theorem start_in (source : List Char) : start.In source := ⟨[], List.nil_prefix, rfl⟩

/-- A line of a source. -/
def IsLine (source : List Char) (line : Nat) : Prop := 1 ≤ line ∧ line ≤ 1 + source.count '\n'

theorem In.line {p : Position} (h : p.In source) : IsLine source p.line := by
  obtain ⟨text, hbegins, rfl⟩ := h
  have hcount := hbegins.sublist.count_le '\n'
  rw [afterAll_line]
  constructor
  · exact Nat.le_add_right 1 _
  · exact Nat.add_le_add_left hcount 1

end Position

/-- An error that is reported on a line of the source. -/
def Error.Located (source : List Char) (error : Error) : Prop :=
  ∃ line, error.line? = some line ∧ Position.IsLine source line

/-! ## Lexemes begin the text -/

namespace Lexeme

theorem skip_eq (inComment : Bool) (position : Position) (cs : List Char) :
    ∃ skipped, skipped ++ (skip inComment position cs).2 = cs ∧
      (skip inComment position cs).1 = position.afterAll skipped := by
  induction cs generalizing inComment position with
  | nil => exact ⟨[], rfl, rfl⟩
  | cons c rest ih =>
    have further (inComment : Bool) : ∃ skipped,
        skipped ++ (skip inComment (position.after c) rest).2 = c :: rest ∧
          (skip inComment (position.after c) rest).1 = position.afterAll skipped := by
      obtain ⟨skipped, htext, hposition⟩ := ih inComment (position.after c)
      exact ⟨c :: skipped, congrArg (c :: ·) htext, hposition⟩
    unfold skip
    dsimp only
    split
    · exact further _
    · split
      · exact further _
      · split
        · exact further _
        · exact ⟨[], rfl, rfl⟩

variable {expected : Expected} {cs text : List Char} {terminal : Terminal}

theorem unsignedNumeral_begins (cs : List Char) : unsignedNumeral cs <+: cs := by
  have hwhole : cs.takeWhile Text.isDigit <+: cs := List.takeWhile_prefix _
  unfold unsignedNumeral
  dsimp only
  split
  · exact List.nil_prefix
  · split
    · next d rest hrest =>
      split
      · -- the fraction goes on where the whole part has ended
        have hcs := List.prefix_iff_eq_append.mp hwhole
        rw [hrest] at hcs
        have hfraction : '.' :: d :: rest.takeWhile Text.isDigit <+: '.' :: d :: rest := by
          simpa using List.takeWhile_prefix Text.isDigit
        have hall := (List.prefix_append_right_inj (cs.takeWhile Text.isDigit)).mpr hfraction
        rwa [hcs] at hall
      · exact hwhole
    · exact hwhole

theorem numeral_begins (cs : List Char) : numeral cs <+: cs := by
  unfold numeral
  split
  · next rest =>
    dsimp only
    split
    · exact List.nil_prefix
    · exact (List.prefix_cons_inj '-').mpr (unsignedNumeral_begins rest)
  · exact unsignedNumeral_begins cs

theorem readNumber_begins (h : readNumber expected cs = some (terminal, text)) : text <+: cs := by
  have hdigits := numeral_begins cs
  have hcs := List.prefix_iff_eq_append.mp hdigits
  have hplain (h : (if Terminal.number ∈ expected then some (Terminal.number, numeral cs) else none) =
      some (terminal, text)) : text <+: cs := by
    split at h
    · cases h
      exact hdigits
    · cases h
  have hunit {unit : Char} {rest : List Char} (hrest : cs.drop (numeral cs).length = unit :: rest) :
      numeral cs ++ [unit] <+: cs := by
    rw [hrest] at hcs
    exact ⟨rest, by simpa using hcs⟩
  unfold readNumber at h
  dsimp only at h
  split at h
  · cases h
  · split at h
    · next rest hrest =>
      split at h
      · cases h
        exact hunit hrest
      · exact hplain h
    · next rest hrest =>
      split at h
      · cases h
        exact hunit hrest
      · exact hplain h
    · exact hplain h

theorem nameText_begins (cs : List Char) : nameText cs <+: cs := by
  unfold nameText
  split
  · exact List.takeWhile_prefix _
  · exact List.nil_prefix

theorem readName_begins (h : readName expected cs = some (terminal, text)) : text <+: cs := by
  unfold readName at h
  dsimp only at h
  split at h
  · cases h
  · split at h <;> cases h <;> exact nameText_begins cs

theorem foldl_longer_mem (found : List Keyword) (first : Option Keyword) (keyword : Keyword)
    (h : found.foldl longer first = some keyword) : keyword ∈ found ∨ first = some keyword := by
  induction found generalizing first with
  | nil => exact .inr h
  | cons other found ih =>
    have hlonger : longer first other = some other ∨ longer first other = first := by
      cases first with
      | none => exact .inl rfl
      | some a =>
        unfold longer
        dsimp only
        split
        · exact .inl rfl
        · exact .inr rfl
    rcases ih _ h with hmem | hfirst
    · exact .inl (List.mem_cons_of_mem _ hmem)
    · rcases hlonger with hother | hsame
      · rw [hother] at hfirst
        cases hfirst
        exact .inl List.mem_cons_self
      · exact .inr (hsame ▸ hfirst)

theorem readKeyword_begins (h : readKeyword expected cs = some (terminal, text)) : text <+: cs := by
  unfold readKeyword at h
  dsimp only at h
  obtain ⟨keyword, hfound, he⟩ := Option.map_eq_some_iff.mp h
  cases he
  rcases foldl_longer_mem _ _ _ hfound with hmem | hnone
  · have hbegins := (List.mem_filter.mp hmem).2
    exact List.isPrefixOf_iff_prefix.mp hbegins
  · cases hnone

theorem untilQuote_begins {escaped : Bool} (h : untilQuote escaped cs = some text) : text <+: cs := by
  induction cs generalizing escaped text with
  | nil => cases h
  | cons c rest ih =>
    unfold untilQuote at h
    split at h
    · cases h
    · split at h
      · cases h
        simp
      · obtain ⟨more, hmore, rfl⟩ := Option.map_eq_some_iff.mp h
        exact (List.prefix_cons_inj c).mpr (ih hmore)

theorem quotedText_begins (h : quotedText cs = some text) : text <+: cs := by
  unfold quotedText at h
  split at h
  · obtain ⟨more, hmore, rfl⟩ := Option.map_eq_some_iff.mp h
    exact (List.prefix_cons_inj '"').mpr (untilQuote_begins hmore)
  · cases h

theorem readMark_begins (h : readMark expected cs = some (terminal, text)) : text <+: cs := by
  obtain ⟨mark, hfound, he⟩ := Option.map_eq_some_iff.mp h
  cases he
  have hmark := List.find?_some hfound
  rw [Bool.and_eq_true] at hmark
  exact List.isPrefixOf_iff_prefix.mp hmark.2

/-- The text of a lexeme is what the text to be read begins with. -/
theorem read_begins (h : read expected cs = some (terminal, text)) : text <+: cs := by
  rcases Option.or_eq_some_iff.mp h with hnumber | ⟨-, h⟩
  · exact readNumber_begins hnumber
  · rcases Option.or_eq_some_iff.mp h with hword | ⟨-, h⟩
    · split at hword
      · exact readName_begins hword
      · exact readKeyword_begins hword
    · rcases Option.or_eq_some_iff.mp h with hquoted | ⟨-, hmark⟩
      · split at hquoted
        · obtain ⟨_, hquoted, he⟩ := Option.map_eq_some_iff.mp hquoted
          cases he
          exact quotedText_begins hquoted
        · cases hquoted
      · exact readMark_begins hmark

end Lexeme

/-! ## Readers -/

/-- A reader of a source: its position is the one after the text that it has read. -/
structure Reader.Within (source : List Char) (reader : Reader) : Prop where
  reached : ∃ before, before ++ reader.rest = source ∧
    reader.position = Position.start.afterAll before
  next : ∀ lexeme ∈ reader.next, lexeme.position.In source
  last : reader.last.In source

variable {source : List Char}

theorem Reader.Within.unexpected {reader : Reader} (h : reader.Within source) :
    reader.unexpected.Located source := by
  unfold Reader.unexpected
  split
  · next lexeme hnext => exact ⟨_, rfl, (h.next lexeme hnext).line⟩
  · exact ⟨_, rfl, h.last.line⟩

/-- What a result that may be an error satisfies. -/
def Settles {ε α : Type} (P : α → Prop) (E : ε → Prop) : Except ε α → Prop
  | .ok a => P a
  | .error e => E e

theorem fetch_within (before : List Char) {rest : List Char} {last : Position} (expected : Expected)
    (hsource : before ++ rest = source) (hlast : last.In source) :
    Settles (Reader.Within source) (Error.Located source)
      (Reader.fetch rest (Position.start.afterAll before) last expected) := by
  obtain ⟨skipped, hskipped, hposition⟩ :=
    Lexeme.skip_eq false (Position.start.afterAll before) rest
  rw [← Position.afterAll_append] at hposition
  unfold Reader.fetch
  split
  · next position hskip =>
    rw [hskip] at hskipped hposition
    refine ⟨⟨before ++ skipped, ?_, hposition⟩, nofun, hlast⟩
    rw [List.append_assoc, hskipped, hsource]
  · next position c text hskip =>
    rw [hskip] at hskipped hposition
    dsimp only at hskipped hposition
    have hin : position.In source := by
      refine ⟨before ++ skipped, ⟨c :: text, ?_⟩, hposition⟩
      rw [List.append_assoc, hskipped, hsource]
    split
    · next terminal lexeme hread =>
      obtain ⟨after, hafter⟩ := Lexeme.read_begins hread
      refine ⟨⟨before ++ skipped ++ lexeme, ?_, ?_⟩, ?_, hin⟩
      · rw [← hafter, List.drop_left, List.append_assoc, hafter, List.append_assoc, hskipped, hsource]
      · rw [hposition, ← Position.afterAll_append]
      · intro _ h
        cases h
        exact hin
    · split
      · exact ⟨_, rfl, hin.line⟩
      · exact ⟨_, rfl, hin.line⟩

/-! ## Rules -/

/-- What holds of readers and stays true when a lexeme is taken, with what it says of lexemes and of
errors. -/
structure Invariant where
  reader : Reader → Prop
  lexeme : Lexeme → Prop
  error : Error → Prop
  next {r : Reader} {l : Lexeme} : reader r → r.next = some l → lexeme l
  fetch {r : Reader} {l : Lexeme} (expected : Expected) : reader r → r.next = some l →
    Settles reader error (Reader.fetch r.rest r.position r.last expected)
  unexpected {r : Reader} : reader r → error r.unexpected

/-- Lexemes and errors have places in the source. -/
def Invariant.located (source : List Char) : Invariant where
  reader := Reader.Within source
  lexeme l := l.position.In source
  error := Error.Located source
  next hr h := hr.next _ h
  fetch expected hr _ := by
    obtain ⟨before, hsource, hposition⟩ := hr.reached
    exact hposition ▸ fetch_within before expected hsource hr.last
  unexpected hr := hr.unexpected

variable {inv : Invariant}

/-- Something with a property where the invariant holds of the reader, or an error of which it holds. -/
def Kept {α : Type} (inv : Invariant) (P : α → Prop) : EStateM.Result Error Reader α → Prop
  | .ok a reader => P a ∧ inv.reader reader
  | .error e _ => inv.error e

/-- The rule keeps the invariant and gives something with a property, unless it fails. -/
def Keeps {α : Type} (inv : Invariant) (rule : Read α) (P : α → Prop) : Prop :=
  ∀ reader, inv.reader reader → Kept inv P (rule reader)

namespace Keeps

variable {α β : Type} {rule : Read α} {P P' : α → Prop} {next : α → Read β} {Q : β → Prop}

theorem pure {a : α} (h : P a) : Keeps inv (Pure.pure a) P := fun _ hr => ⟨h, hr⟩

theorem mono (h : Keeps inv rule P) (hP : ∀ a, P a → P' a) : Keeps inv rule P' := by
  intro reader hr
  have hkept := h reader hr
  generalize rule reader = result at hkept
  cases result with
  | ok a reader' => exact ⟨hP a hkept.1, hkept.2⟩
  | error => exact hkept

theorem bind (h : Keeps inv rule P) (hn : ∀ a, P a → Keeps inv (next a) Q) :
    Keeps inv (rule >>= next) Q := by
  intro reader hr
  have hrule := h reader hr
  cases he : rule reader with
  | ok a reader' =>
    rw [he] at hrule
    rw [bind_eq_of_ok he]
    exact hn a hrule.1 reader' hrule.2
  | error e reader' =>
    rw [he] at hrule
    rw [bind_eq_of_error he]
    exact hrule

/-- A rule whose result does not matter, and what follows. -/
theorem andThen {rest : Read β} (h : Keeps inv rule P) (hn : Keeps inv rest Q) :
    Keeps inv (rule >>= fun _ => rest) Q := h.bind fun _ _ => hn

theorem unexpected : Keeps inv (Read.unexpected : Read α) P := fun _ hr => inv.unexpected hr

theorem peek : Keeps inv Read.peek fun _ => True := fun _ hr => ⟨trivial, hr⟩

theorem get : Keeps inv MonadState.get inv.reader := fun _ hr => ⟨hr, hr⟩

theorem remaining : Keeps inv Read.remaining fun _ => True := fun _ hr => ⟨trivial, hr⟩

theorem take (expected : Expected) : Keeps inv (Read.take expected) inv.lexeme := by
  intro reader hr
  unfold Read.take
  split
  · exact inv.unexpected hr
  · next lexeme hnext =>
    have hfetch := inv.fetch expected hr hnext
    split
    · next h =>
      rw [h] at hfetch
      exact ⟨inv.next hr hnext, hfetch⟩
    · next h =>
      rw [h] at hfetch
      exact hfetch

theorem discard (h : Keeps inv rule P) : Keeps inv (Functor.discard rule) fun _ => True :=
  h.bind fun _ _ => pure trivial

theorem ite {c : Prop} [Decidable c] {other : Read α} (h : Keeps inv rule P)
    (ho : Keeps inv other P) : Keeps inv (if c then rule else other) P := by
  split
  · exact h
  · exact ho

theorem expect (terminal : Terminal) (expected : Expected) :
    Keeps inv (Read.expect terminal expected) inv.lexeme :=
  peek.bind fun _ _ => ite (take expected) unexpected

theorem name (expected : Expected) : Keeps inv (Read.name expected) fun _ => True :=
  (expect .name expected).bind fun _ _ => pure trivial

theorem itemsFrom {after : Expected} (h : Keeps inv rule P) (fuel : Nat) {done : List α}
    (hdone : ∀ a ∈ done, P a) :
    Keeps inv (Read.itemsFrom rule after fuel done) fun found => ∀ a ∈ found, P a := by
  induction fuel generalizing done with
  | zero => exact unexpected
  | succ fuel ih =>
    refine peek.bind fun _ _ => ite ?_ ?_
    · exact (take after).discard.andThen (pure (by simpa using hdone))
    · exact h.bind fun a ha => ih (by simpa [ha] using hdone)

theorem block {items after : Expected} (h : Keeps inv rule P) :
    Keeps inv (Read.block items after rule) fun found => ∀ a ∈ found, P a :=
  (expect _ items).discard.andThen (remaining.bind fun _ _ => h.itemsFrom _ nofun)

theorem listFrom {closing : Mark} {items after : Expected} (h : Keeps inv rule P) (fuel : Nat)
    {done : List α} (hdone : ∀ a ∈ done, P a) :
    Keeps inv (Read.listFrom rule closing items after fuel done) fun found =>
      ∀ a ∈ found, P a := by
  induction fuel generalizing done with
  | zero => exact unexpected
  | succ fuel ih =>
    refine h.bind fun a ha => peek.bind fun next _ => ?_
    have hall : ∀ b ∈ a :: done, P b := by simpa [ha] using hdone
    split
    · refine ite ?_ (ite ?_ unexpected)
      · exact (take items).discard.andThen (ih hall)
      · exact (take after).discard.andThen (pure (by simpa [or_comm] using hall))
    · exact unexpected

theorem list {closing : Mark} {items after : Expected} (h : Keeps inv rule P) :
    Keeps inv (Read.list rule closing items after) fun found => ∀ a ∈ found, P a := by
  refine peek.bind fun _ _ => ite ?_ ?_
  · exact (take after).discard.andThen (pure nofun)
  · exact remaining.bind fun _ _ => h.listFrom _ nofun

end Keeps

end GameScript.Config
