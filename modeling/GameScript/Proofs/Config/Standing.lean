import GameScript.Proofs.Config.Detection
import GameScript.Proofs.Config.Failures

/-! # Where triggers stand

The triggers of a document stand in its source in the order of the document. The line of each is the
line on which its name stands. -/

namespace GameScript.Config

open Blueprint (Spacing)

/-- Triggers stand in a text one behind the other: the name of each on its line, and behind the name,
but for blanks and comments, the mark that begins its pipeline. -/
inductive Standing : Position → List Char → List Trigger → Prop
  | nil {position : Position} {text : List Char} : Standing position text []
  | trigger {position : Position} {before gap rest : List Char} {trigger : Trigger}
      {triggers : List Trigger} (hline : trigger.line = (position.afterAll before).line)
      (hgap : Spacing gap)
      (hrest : Standing (position.afterAll (before ++ (trigger.name.toList ++ (gap ++
        Mark.then.text.toList)))) rest triggers) :
      Standing position (before ++ (trigger.name.toList ++ (gap ++ (Mark.then.text.toList ++ rest))))
        (trigger :: triggers)

namespace Standing

variable {position : Position} {text more : List Char} {triggers others : List Trigger}

theorem behind (before : List Char) (h : Standing (position.afterAll before) text triggers) :
    Standing position (before ++ text) triggers := by
  cases h with
  | nil => exact .nil
  | @trigger _ first _ _ _ _ hline hgap hrest =>
    rw [← Position.afterAll_append] at hline hrest
    rw [← List.append_assoc]
    exact .trigger hline hgap (by rwa [List.append_assoc])

theorem append (h : Standing position text triggers)
    (h' : Standing (position.afterAll text) more others) :
    Standing position (text ++ more) (triggers ++ others) := by
  induction h with
  | nil => exact h'.behind _
  | trigger hline hgap hrest ih =>
    have htail := ih (by simpa only [← Position.afterAll_append, List.append_assoc] using h')
    simpa only [List.append_assoc, List.cons_append] using Standing.trigger hline hgap htail

end Standing

/-! ## The text ahead -/

namespace Lexeme

variable {expected : Expected} {cs text : List Char}

theorem readNumber_noMark {mark : Mark} : readNumber expected cs ≠ some (.mark mark, text) := by
  unfold readNumber
  grind

/-- The text of a mark is its own. -/
theorem read_mark {mark : Mark} (h : read expected cs = some (.mark mark, text)) :
    text = mark.text.toList := by
  rcases Option.or_eq_some_iff.mp h with hnumber | ⟨-, h⟩
  · exact absurd hnumber readNumber_noMark
  · rcases Option.or_eq_some_iff.mp h with hword | ⟨-, h⟩
    · split at hword
      · unfold readName at hword
        dsimp only at hword
        split_ifs at hword
        split at hword <;> cases hword
      · obtain ⟨_, -, he⟩ := Option.map_eq_some_iff.mp hword
        cases he
    · rcases Option.or_eq_some_iff.mp h with hquoted | ⟨-, hmark⟩
      · split at hquoted
        · obtain ⟨_, -, he⟩ := Option.map_eq_some_iff.mp hquoted
          cases he
        · cases hquoted
      · obtain ⟨_, -, he⟩ := Option.map_eq_some_iff.mp hmark
        cases he
        rfl

end Lexeme

namespace Reader

/-- The text that is not taken yet: it begins with the next lexeme. -/
def ahead (reader : Reader) : List Char :=
  match reader.next with
  | some lexeme => lexeme.text.toList ++ reader.rest
  | none => reader.rest

/-- Where the text ahead begins. -/
def here (reader : Reader) : Position :=
  match reader.next with
  | some lexeme => lexeme.position
  | none => reader.position

/-- The position is the one behind the next lexeme, and a mark has its own text. -/
structure Sound (reader : Reader) : Prop where
  position : ∀ lexeme ∈ reader.next, reader.position = lexeme.position.afterAll lexeme.text.toList
  mark : ∀ lexeme ∈ reader.next, ∀ mark, lexeme.terminal = .mark mark → lexeme.text = mark.text

/-- A text is taken between two readers. -/
structure Passed (reader : Reader) (text : List Char) (reader' : Reader) : Prop where
  sound : reader'.Sound
  ahead : reader.ahead = text ++ reader'.ahead
  here : reader'.here = reader.here.afterAll text

variable {reader reader' reader'' : Reader} {text more : List Char}

theorem Passed.refl (h : reader.Sound) : reader.Passed [] reader := ⟨h, rfl, rfl⟩

theorem Passed.trans (h : reader.Passed text reader') (h' : reader'.Passed more reader'') :
    reader.Passed (text ++ more) reader'' where
  sound := h'.sound
  ahead := by rw [h.ahead, h'.ahead, List.append_assoc]
  here := by rw [h'.here, h.here, Position.afterAll_append]

/-- What is skipped in front of a lexeme are blanks and comments. -/
theorem fetch_sound {rest : List Char} {position last : Position} {expected : Expected}
    (h : fetch rest position last expected = .ok reader) :
    reader.Sound ∧ ∃ gap, rest = gap ++ reader.ahead ∧ reader.here = position.afterAll gap ∧
      (reader.next.isSome → Spacing gap) := by
  obtain ⟨skipped, hskipped, hposition⟩ := Lexeme.skip_eq false position rest
  unfold fetch at h
  split at h
  · next hskip =>
    cases h
    rw [hskip] at hskipped hposition
    exact ⟨⟨nofun, nofun⟩, skipped, hskipped.symm, hposition, nofun⟩
  · next position' c text hskip =>
    obtain ⟨gap, hgap, hspacing, -⟩ := skip_spacing hskip
    rw [hskip] at hskipped hposition
    obtain rfl : skipped = gap := List.append_cancel_right (hskipped.trans hgap.symm)
    split at h
    · next terminal lexeme hread =>
      obtain ⟨after, hafter⟩ := Lexeme.read_begins hread
      cases h
      refine ⟨⟨?_, ?_⟩, skipped, ?_, hposition, fun _ => hspacing rfl⟩
      · rintro _ ⟨⟩
        rw [String.toList_ofList]
      · rintro _ ⟨⟩ mark hmark
        cases hmark
        rw [Lexeme.read_mark hread, String.ofList_toList]
      · change rest = skipped ++ ((String.ofList lexeme).toList ++ (c :: text).drop lexeme.length)
        rw [String.toList_ofList, ← hafter, List.drop_left, hafter]
        exact hskipped.symm
    · split at h <;> cases h

/-- Behind the next lexeme the text goes on with blanks and comments. -/
theorem fetch_passed {lexeme : Lexeme} (hreader : reader.Sound) (hnext : reader.next = some lexeme)
    {expected : Expected}
    (h : fetch reader.rest reader.position reader.last expected = .ok reader') :
    ∃ gap, reader.Passed (lexeme.text.toList ++ gap) reader' ∧
      (reader'.next.isSome → Spacing gap) := by
  obtain ⟨hsound, gap, hrest, hhere, hspacing⟩ := fetch_sound h
  refine ⟨gap, ⟨hsound, ?_, ?_⟩, hspacing⟩
  · rw [ahead, hnext, List.append_assoc, ← hrest]
  · rw [hhere, hreader.position _ hnext, here, hnext, Position.afterAll_append]

theorem expect_take {terminal : Terminal} {expected : Expected} {lexeme : Lexeme}
    (h : Read.expect terminal expected reader = .ok lexeme reader') :
    Read.take expected reader = .ok lexeme reader' := by
  unfold Read.expect at h
  obtain ⟨_, _, hpeek, h⟩ := bind_ok h
  cases hpeek
  split at h
  · exact h
  · cases h

theorem take_passed {expected : Expected} {lexeme : Lexeme} (hreader : reader.Sound)
    (h : Read.take expected reader = .ok lexeme reader') :
    reader.next = some lexeme ∧ ∃ gap, reader.Passed (lexeme.text.toList ++ gap) reader' ∧
      (reader'.next.isSome → Spacing gap) := by
  unfold Read.take at h
  split at h
  · cases h
  · next hnext =>
    split at h
    · next hfetch =>
      cases h
      exact ⟨hnext, fetch_passed hreader hnext hfetch⟩
    · cases h

end Reader

/-- Some text has been passed since a reader. -/
def Invariant.passed (reader : Reader) : Invariant where
  reader r := ∃ text, reader.Passed text r
  lexeme _ := True
  error _ := True
  next _ _ := trivial
  unexpected _ := trivial
  fetch {r _} expected hr hnext := by
    obtain ⟨text, hpassed⟩ := hr
    cases hfetch : Reader.fetch r.rest r.position r.last expected with
    | error => trivial
    | ok r' =>
      obtain ⟨gap, hgap, -⟩ := Reader.fetch_passed hpassed.sound hnext hfetch
      exact ⟨_, hpassed.trans hgap⟩

/-! ## Rules that find triggers -/

/-- What the rule gives belongs to the triggers that stand in the text it takes. -/
def Finds {α : Type} (rule : Read α) (P : α → List Trigger → Prop) : Prop :=
  ∀ reader a reader', reader.Sound → rule reader = .ok a reader' →
    ∃ text triggers, reader.Passed text reader' ∧ Standing reader.here text triggers ∧ P a triggers

namespace Finds

variable {α β : Type} {rule : Read α} {next : α → Read β} {P P' : α → List Trigger → Prop}
  {Q : β → List Trigger → Prop}

theorem mono (h : Finds rule P) (hP : ∀ a triggers, P a triggers → P' a triggers) :
    Finds rule P' := by
  intro reader a reader' hreader hrule
  obtain ⟨text, triggers, hpassed, hstanding, ha⟩ := h reader a reader' hreader hrule
  exact ⟨text, triggers, hpassed, hstanding, hP a triggers ha⟩

theorem pure {a : α} (h : P a []) : Finds (Pure.pure a) P := by
  intro reader _ _ hreader hrule
  obtain ⟨rfl, rfl⟩ := pure_ok hrule
  exact ⟨[], [], .refl hreader, .nil, h⟩

theorem unexpected : Finds (Read.unexpected : Read α) P := fun _ _ _ _ => nofun

/-- Behind the triggers of a rule are those of what follows. -/
theorem bind (h : Finds rule P)
    (hn : ∀ a triggers, P a triggers → Finds (next a) fun b more => Q b (triggers ++ more)) :
    Finds (rule >>= next) Q := by
  intro reader b reader'' hreader hrule
  obtain ⟨a, reader', hfirst, hsecond⟩ := bind_ok hrule
  obtain ⟨text, triggers, hpassed, hstanding, ha⟩ := h reader a reader' hreader hfirst
  obtain ⟨more, others, hpassed', hstanding', hb⟩ :=
    hn a triggers ha reader' b reader'' hpassed.sound hsecond
  rw [hpassed.here] at hstanding'
  exact ⟨_, _, hpassed.trans hpassed', hstanding.append hstanding', hb⟩

theorem ite {c : Prop} [Decidable c] {other : Read α} (h : Finds rule P) (ho : Finds other P) :
    Finds (if c then rule else other) P := by
  split
  · exact h
  · exact ho

/-- A rule that knows of no triggers passes some text. -/
theorem none {K : Invariant → α → Prop} (h : ∀ inv, Keeps inv rule (K inv)) :
    Finds rule fun _ triggers => triggers = [] := by
  intro reader a reader' hreader hrule
  have hkept := h (.passed reader) reader ⟨[], .refl hreader⟩
  rw [hrule] at hkept
  obtain ⟨-, text, hpassed⟩ := hkept
  exact ⟨text, [], hpassed, .nil, rfl⟩

/-- A rule that knows of no triggers, and what follows. -/
theorem behind {K : Invariant → α → Prop} (h : ∀ inv, Keeps inv rule (K inv))
    (hn : ∀ a, Finds (next a) Q) : Finds (rule >>= next) Q :=
  (none h).bind fun a triggers ha => by
    rw [ha]
    exact hn a

variable {marks : α → List Trigger}

theorem itemsFrom {after : Expected} (h : Finds rule fun a triggers => triggers = marks a)
    (fuel : Nat) (done : List α) :
    Finds (Read.itemsFrom rule after fuel done) fun found triggers =>
      found.flatMap marks = done.reverse.flatMap marks ++ triggers := by
  induction fuel generalizing done with
  | zero => exact unexpected
  | succ fuel ih =>
    refine behind (fun _ => .peek) fun _ => ite ?_ ?_
    · refine behind (fun _ => (Keeps.take after).discard) fun _ => pure ?_
      rw [List.append_nil]
    · refine h.bind fun a triggers ha => (ih (a :: done)).mono fun found more hfound => ?_
      rw [hfound, ha, List.reverse_cons, List.flatMap_append, List.flatMap_singleton,
        List.append_assoc]

/-- The triggers of a block are those of its items. -/
theorem block {items after : Expected} (h : Finds rule fun a triggers => triggers = marks a) :
    Finds (Read.block items after rule) fun found triggers => triggers = found.flatMap marks := by
  refine behind (fun _ => (Keeps.expect _ items).discard) fun _ => behind (fun _ => .remaining) fun _ => ?_
  exact (h.itemsFrom _ []).mono fun found triggers hfound => hfound.symm

end Finds

/-! ## The triggers of each part -/

def BehaviourItem.triggers : BehaviourItem → List Trigger
  | .trigger t => [t]
  | _ => []

theorem Behaviour.triggers_eq (behaviour : Behaviour) :
    behaviour.triggers = behaviour.items.flatMap BehaviourItem.triggers := by
  unfold Behaviour.triggers
  induction behaviour.items with
  | nil => rfl
  | cons item items ih => cases item <;> simp [BehaviourItem.triggers, ih]

def AgentItem.triggers (item : AgentItem) : List Trigger := item.behaviours.flatMap Behaviour.triggers

def Section.triggers (part : Section) : List Trigger :=
  part.behaviours.flatMap (·.2.triggers)

/-- The triggers of a document, in order, with what each of them belongs to. -/
def Document.triggers (document : Document) : List (Owner × Trigger) :=
  document.behaviours.flatMap fun found => found.2.triggers.map (found.1, ·)

theorem Document.map_triggers (document : Document) :
    document.triggers.map (·.2) = document.sections.flatMap Section.triggers := by
  simp only [triggers, behaviours, List.map_flatMap, List.flatMap_assoc, List.map_map,
    Function.comp_def, List.map_id_fun', id]
  rfl

namespace Finds

/-- A trigger is found where its name stands: the name is taken first and then the mark behind it. -/
theorem behaviourItem :
    Finds Read.behaviourItem fun item triggers => triggers = item.triggers := by
  refine behind (fun _ => .peek) fun _ => ite ?_ ?_
  · exact behind (fun _ => (Keeps.take _).discard) fun _ => behind (fun _ => .name _) fun _ => pure rfl
  · intro reader item reader' hreader h
    obtain ⟨first, reader₁, hfirst, h⟩ := bind_ok h
    obtain ⟨hnext, gap, hpassed, hgap⟩ := Reader.take_passed hreader (Reader.expect_take hfirst)
    obtain ⟨_, _, hpeek, h⟩ := bind_ok h
    cases hpeek
    split at h
    · next hthen =>
      obtain ⟨lexeme, hlexeme, hterminal⟩ := Option.map_eq_some_iff.mp hthen
      obtain ⟨_, reader₂, hmark, h⟩ := bind_ok h
      obtain ⟨taken, _, htake, hdiscard⟩ := bind_ok hmark
      cases hdiscard
      obtain ⟨hsame, gap', hpassed', -⟩ := Reader.take_passed hpassed.sound htake
      cases hlexeme.symm.trans hsame
      have hsteps : Finds (do
          return BehaviourItem.trigger ⟨first.text, first.position.line,
            ← Read.stepsFrom ((← Read.remaining) + 1) []⟩) fun item _ =>
          ∃ steps, item = .trigger ⟨first.text, first.position.line, steps⟩ :=
        behind (fun _ => .remaining) fun _ => behind (fun _ => .stepsFrom _ _) fun steps =>
          pure ⟨steps, rfl⟩
      obtain ⟨text, _, hpassed'', -, steps, rfl⟩ := hsteps reader₂ item reader' hpassed'.sound h
      refine ⟨_, _, (hpassed.trans hpassed').trans hpassed'', ?_, rfl⟩
      have hspacing := hgap (by rw [hlexeme]; rfl)
      have htext := hpassed.sound.mark _ hlexeme _ hterminal
      have hline : first.position.line = (reader.here.afterAll []).line := by
        rw [Reader.here, hnext]
        rfl
      have hstanding : Standing reader.here _
          (BehaviourItem.trigger ⟨first.text, first.position.line, steps⟩).triggers :=
        @Standing.trigger _ _ _ (gap' ++ text) _ _ hline hspacing .nil
      simpa only [htext, List.nil_append, List.append_assoc] using hstanding
    · have hproperty : Finds (do return BehaviourItem.property ⟨first.text, ← Read.valueAfterHas⟩)
          fun item triggers => triggers = item.triggers :=
        behind (fun _ => .valueAfterHas) fun _ => pure rfl
      obtain ⟨text, triggers, hpassed', hstanding, ha⟩ :=
        hproperty reader₁ item reader' hpassed.sound h
      rw [hpassed.here] at hstanding
      exact ⟨_, _, hpassed.trans hpassed', hstanding.behind _, ha⟩

theorem behaviour (keyword : Keyword) :
    Finds (Read.behaviour keyword) fun behaviour triggers => triggers = behaviour.triggers := by
  refine behind (fun _ => (Keeps.expect _ _).discard) fun _ => behind (fun _ => .name _) fun _ => ?_
  refine behaviourItem.block.bind fun items triggers h => pure ?_
  rw [List.append_nil, h, Behaviour.triggers_eq]

theorem agentItem : Finds Read.agentItem fun item triggers => triggers = item.triggers := by
  refine behind (fun _ => .peek) fun _ => ?_
  split
  · exact behind (fun _ => (Keeps.take _).discard) fun _ => behind (fun _ => .tagRest) fun _ => pure rfl
  · refine behind (fun _ => (Keeps.take _).discard) fun _ => ?_
    exact behind (fun _ => .properties _) fun _ => pure rfl
  · refine behind (fun _ => (Keeps.take _).discard) fun _ => ?_
    refine (behaviour _).block.bind fun blocks triggers h => pure ?_
    rw [List.append_nil, h]
    rfl
  · exact unexpected

/-- The triggers of an agent. -/
theorem agent : Finds Read.agent fun agent triggers =>
    triggers = agent.items.flatMap AgentItem.triggers := by
  refine behind (fun _ => (Keeps.expect _ _).discard) fun _ => behind (fun _ => .name _) fun _ => ?_
  refine agentItem.block.bind fun items triggers h => pure ?_
  rw [List.append_nil, h]

theorem sectionBlock : Finds Read.sectionBlock fun part triggers => triggers = part.triggers := by
  have hproperties (make : List Property → Section) (h : ∀ properties, (make properties).triggers = [])
      (expected after : Expected) : Finds (do
        discard <| Read.take expected
        return make (← Read.properties after)) fun part triggers => triggers = part.triggers :=
    behind (fun _ => (Keeps.take _).discard) fun _ => behind (fun _ => .properties _) fun _ =>
      pure (h _).symm
  refine behind (fun _ => .peek) fun _ => ?_
  split
  · exact hproperties .config (fun _ => rfl) _ _
  · exact hproperties .economy (fun _ => rfl) _ _
  · exact hproperties .match (fun _ => rfl) _ _
  · refine behind (fun _ => (Keeps.take _).discard) fun _ => ?_
    refine agent.block.bind fun blocks triggers h => pure ?_
    rw [List.append_nil, h]
    simp only [Section.triggers, Section.behaviours, List.flatMap_assoc, List.flatMap_map]
    rfl
  · refine behind (fun _ => (Keeps.take _).discard) fun _ => ?_
    exact behind (fun _ => Keeps.weapon.block) fun _ => pure rfl
  · refine behind (fun _ => (Keeps.take _).discard) fun _ => ?_
    refine (behaviour _).block.bind fun blocks triggers h => pure ?_
    rw [List.append_nil, h]
    rw [Section.triggers, Section.behaviours, List.flatMap_map]
  · refine behind (fun _ => (Keeps.take _).discard) fun _ => behind (fun _ => .name _) fun _ => ?_
    exact behind (fun _ => Keeps.mapItem.block) fun _ => pure rfl
  · exact unexpected

theorem document : Finds Read.document fun document triggers =>
    triggers = document.triggers.map (·.2) := by
  refine behind (fun _ => (Keeps.expect _ _).discard) fun _ => behind (fun _ => .name _) fun _ => ?_
  refine sectionBlock.block.bind fun sections triggers h => ?_
  refine behind (fun _ => .peek) fun _ => ite unexpected (pure ?_)
  rw [List.append_nil, h, Document.map_triggers]

end Finds

/-- The triggers of a document stand in its source, in order, each name on its line. -/
theorem parse_standing {source : String} {document : Document}
    (h : Document.parse source = .ok document) :
    Standing .start source.toList (document.triggers.map (·.2)) := by
  obtain ⟨reader, reader', hfetch, hdocument⟩ := parse_ok h
  obtain ⟨hsound, gap, hsource, hhere, -⟩ := Reader.fetch_sound hfetch
  obtain ⟨text, _, hpassed, hstanding, rfl⟩ := Finds.document reader document reader' hsound hdocument
  rw [hhere] at hstanding
  rw [hsource, hpassed.ahead]
  have hall := (hstanding.behind gap).append (@Standing.nil _ reader'.ahead)
  simpa only [List.append_nil, List.append_assoc] using hall

end GameScript.Config
