import GameScript.Proofs.CommandLine.Writing
import GameScript.Proofs.Config.Detection
import GameScript.Proofs.Config.Failures

/-! # Compiling the game configuration in a file

What is wrong with a game configuration decides how its compilation ends: with a message that names a
line, or without one if a literal stands for nothing. -/

namespace GameScript.CommandLine

/-! ## Endings -/

/-- The directory for a game can be made, and a file can be written there. -/
def Writable (files : Files) (path : Path) (destination : Destination) : Prop :=
  ∃ directory made written, gameDirectory? path destination = some directory ∧
    files.makeDirectory directory = .ok made ∧ made.write (gameFile path directory) "" = .ok written

/-- Where files can be written, only the source decides how its compilation ends. -/
theorem Compiled.ending_of_writable {limits : Limits} {path : Path} {source : String}
    {destination : Destination} {before after : Files} {ending : Ending}
    (h : Compiled limits path source destination before ending after)
    (hw : Writable before path destination) :
    (ending = .exit 0 ∧ ∃ game, Config.compile limits source = .ok game) ∨
      ∃ error, Config.compile limits source = .error error ∧
        ending = if error.line?.isSome then .exit 65 else .failed (.literal error) := by
  obtain ⟨directory, made, written, hd, hm, hwritten⟩ := hw
  cases h with
  | noDirectory hd' =>
    rw [hd] at hd'
    cases hd'
  | unmade hd' hm' =>
    rw [hd] at hd'
    cases hd'
    rw [hm] at hm'
    cases hm'
  | reported hd' hm' hc hl => exact .inr ⟨_, hc, by rw [hl]; rfl⟩
  | unusable hd' hm' hc hl => exact .inr ⟨_, hc, by rw [hl]; rfl⟩
  | unwritten hd' hm' hc hw' =>
    rw [hd] at hd'
    cases hd'
    rw [hm] at hm'
    cases hm'
    rw [Files.write_error hw' ""] at hwritten
    cases hwritten
  | written hd' hm' hc => exact .inl ⟨rfl, _, hc⟩

/-- A game configuration compiles, or its error is on one of its lines, or it is a document in which
a list nests too deeply or a literal stands for nothing. Told to compile it, a command that can write
its file ends well in the first case, with its message in the second, and breaks off in the third. -/
theorem compile_ends (source : String) :
    (∀ limits : Limits, (∃ game, Config.compile limits source = .ok game) ∨
      ∃ error, Config.compile limits source = .error error ∧
        (error.Located source.toList ∨ ∃ document, Config.Document.parse source = .ok document ∧
          document.Unusable limits error)) ∧
    ∀ (options : Options) (files before : Files) (input : String) (clock : Float) (path : String)
      (destination : Destination), options.command = .compile path destination →
      opened options files = .ok before → Holds before (.ofString path) source →
      Writable before (.ofString path) destination →
      let ending := (carryOut options files input clock).ending
      (ending = .exit 0 ∧ ∃ game, Config.compile .standard source = .ok game) ∨
      ∃ error, Config.compile .standard source = .error error ∧
        ((ending = .exit 65 ∧ error.Located source.toList) ∨
          (ending = .failed (.literal error) ∧
            ∃ document, Config.Document.parse source = .ok document ∧
              document.Unusable .standard error)) := by
  constructor
  · intro limits
    have hsettles := Config.compile_settles limits source
    cases hc : Config.compile limits source with
    | ok game => exact .inl ⟨game, rfl⟩
    | error error =>
      rw [hc] at hsettles
      exact .inr ⟨error, rfl, hsettles⟩
  · intro options files before input clock path destination hcommand hopened hh hw
    have hcompiled := perform_compile destination hh (.start input options.verbosity clock)
    rw [Session.start_limits] at hcompiled
    rw [carryOut_of_opened input clock hopened, hcommand]
    dsimp only at hcompiled ⊢
    generalize (Work.perform _).ends _ = result at hcompiled
    rcases hcompiled.ending_of_writable hw with hok | ⟨error, hc, hending⟩
    · exact .inl hok
    · have hsettles := Config.compile_settles .standard source
      rw [hc] at hsettles
      refine .inr ⟨error, hc, ?_⟩
      rcases hsettles with ⟨line, hline, hin⟩ | ⟨document, hparse, hunusable⟩
      · rw [hline] at hending
        exact .inl ⟨hending, line, hline, hin⟩
      · rw [hunusable.line] at hending
        exact .inr ⟨hending, document, hparse, hunusable⟩

/-- A directory with a game configuration. -/
def loneGame (source : String) : Files := { files := [(["g.game"], source)] }

/-- The command to compile it. -/
def compileLone : Options := { mode := some .config, subject := "g.game" }

theorem loneGame_holds (source : String) (h : '\r' ∉ source.toList) :
    Holds (loneGame source) (.ofString "g.game") source := by
  refine ⟨source, rfl, ?_⟩
  rw [Text.unifyLineEnds_of_notMem h, String.ofList_toList]

theorem loneGame_writable (source : String) :
    Writable (loneGame source) (.ofString "g.game") .besideSource := ⟨_, _, _, rfl, rfl, rfl⟩

/-- A source with an error on its second line. -/
theorem brokenLine_ends :
    (carryOut compileLone (loneGame "GAME g\n]") "" 1).ending = .exit 65 ∧
      ∃ error, Config.compile .standard "GAME g\n]" = .error error ∧
        error.Located "GAME g\n]".toList := by
  have hending : (carryOut compileLone (loneGame "GAME g\n]") "" 1).ending = .exit 65 := by
    decide +kernel
  have hends := (compile_ends "GAME g\n]").2 compileLone _ (loneGame "GAME g\n]") "" 1 "g.game"
    .besideSource rfl rfl (loneGame_holds _ (by decide)) (loneGame_writable _)
  dsimp only at hends
  rw [hending] at hends
  rcases hends with ⟨hok, -⟩ | ⟨error, hc, ⟨-, hlocated⟩ | ⟨hfailed, -⟩⟩
  · cases hok
  · exact ⟨hending, error, hc, hlocated⟩
  · cases hfailed

/-- A game with a text that ends within an escape. -/
def cutEscape : String := "GAME g [ CONFIG [ a :: \"\\x\" ] ]"

/-- It is a document, its error has no line, and the command breaks off. -/
theorem cutEscape_fails :
    (match Config.compile .standard cutEscape with
      | .ok _ => none
      | .error error => some (error, error.line?)) = some (.badText, none) ∧
    (carryOut compileLone (loneGame cutEscape) "" 1).ending = .failed (.literal .badText) := by
  constructor <;> decide +kernel

/-! ## Detection -/

theorem finished_congr {options options' : Options} (h : options.verbosity = options'.verbosity)
    (ending : Ending) (desk : Desk) :
    finished options ending desk = finished options' ending desk := by
  unfold finished
  rw [h]

/-- A file that is found to hold a game configuration is treated as if that had been said. -/
theorem carryOut_run {options options' : Options} {files before : Files} {path source : String}
    {destination : Destination} (hv : options.verbosity = options'.verbosity)
    (hrun : options.command = .run path destination)
    (hcompile : options'.command = .compile path destination)
    (hopened : opened options files = .ok before) (hh : Holds before (.ofString path) source)
    (hg : Config.isGame source) (input : String) (clock : Float) :
    carryOut options files input clock = carryOut options' files input clock := by
  have hopened' : opened options' files = .ok before := by
    rw [← hopened, opened, opened, hv]
  rw [carryOut_of_opened input clock hopened, carryOut_of_opened input clock hopened', hrun, hcompile,
    ← hv, perform_run destination hh hg]
  exact finished_congr hv _ _

/-- A source that compiles begins with the word for games behind blanks and comments. If each of these
comments lies on one line of text, the source is found to be a game exactly if a blank stands behind
the word, and then a command to run it does the same as one to compile it. -/
theorem compiled_detected {limits : Limits} {source : String} {game : Config.Game}
    (hc : Config.compile limits source = .ok game) :
    (∃ gap rest, source.toList = gap ++ ("GAME".toList ++ rest) ∧ Config.Blueprint.Spacing gap) ∧
    (∀ gap rest, source.toList = gap ++ ("GAME".toList ++ rest) → Config.Heading gap →
      (Config.isGame source ↔ ∀ c ∈ rest.head?, Text.isBlank c)) ∧
    (Config.isGame source → ∀ (options options' : Options) (files before : Files) (input : String)
      (clock : Float) (path : String) (destination : Destination),
      options.verbosity = options'.verbosity → options.command = .run path destination →
      options'.command = .compile path destination → opened options files = .ok before →
      Holds before (.ofString path) source →
      carryOut options files input clock = carryOut options' files input clock) := by
  refine ⟨?_, fun gap rest hsource hgap => Config.isGame_of_heading hsource hgap, ?_⟩
  · cases hparse : Config.Document.parse source with
    | error error =>
      rw [Config.compile, hparse] at hc
      cases hc
    | ok document => exact Config.parse_begins hparse
  · intro hg options options' files before input clock path destination hv hrun hcompile hopened hh
    exact carryOut_run hv hrun hcompile hopened hh hg input clock

theorem commentedGame_detected :
    ∃ game, Config.compile .standard "// two teams\nGAME duel []" = .ok game ∧
      Config.isGame "// two teams\nGAME duel []" := by
  have hok : (Config.compile .standard "// two teams\nGAME duel []").isOk := by decide +kernel
  cases hc : Config.compile .standard "// two teams\nGAME duel []" with
  | error error =>
    rw [hc] at hok
    cases hok
  | ok game =>
    have hheading : Config.Heading (['/', '/'] ++ (" two teams".toList ++ (['\n'] ++ []))) :=
      .comment (by decide) (by simp [Text.isLineBreak]) (by decide) .nil
    have hbehind : ∀ c ∈ " duel []".toList.head?, Text.isBlank c := by simp [Text.isBlank]
    exact ⟨game, rfl, ((compiled_detected hc).2.1 _ _ rfl hheading).mpr hbehind⟩

/-- A game with a comment right behind the word compiles and is not detected. The same goes for one
with its name there, and for one behind a comment with a line break in it. -/
theorem gluedGames_undetected :
    ["GAME// duel\nX []", "GAMEX []", "// a\u2028b\nGAME X []"].map (fun source =>
      ((Config.compile .standard source).isOk, Config.isGame source)) =
        [(true, false), (true, false), (true, false)] := by
  decide +kernel

end GameScript.CommandLine
