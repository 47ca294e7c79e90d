import GameScript.Proofs.Printing.Reading

/-! # Printing is unambiguous

Two programs with the same printed text are the same program, as far as trees are shown: they differ
at most in the lines of their tokens and in tokens that are not printed. -/

namespace GameScript

namespace Node

/-! ## The leaves of a source -/

/-- A leaf as a source gives it. -/
def Leaf.Written : Leaf → Prop
  | .name token => token.Scanned ∧ token.kind = .identifier
  | .constant value => IsRead value

/-- A leaf that is no number too large to be told from others. -/
def Leaf.isFinite : Leaf → Bool
  | .constant (.number x) => !x.isInf
  | _ => true

theorem Leaf.Written.shown {leaf : Leaf} (h : leaf.Written) (hfinite : leaf.isFinite = true) :
    leaf.Shown := by
  cases leaf with
  | name token => exact h
  | constant value =>
    refine IsRead.isShown h fun x hx => ?_
    subst hx
    exact Bool.not_eq_true' _ ▸ hfinite

/-- A tree whose leaves are those of a source. -/
def HasLeaves (node : Node) : Prop := ∀ leaf ∈ node.leaves, leaf.Written

theorem hasLeaves_sequence {nodes : List Node} (h : ∀ node ∈ nodes, node.HasLeaves) :
    HasLeaves (.sequence nodes) := by
  rw [HasLeaves, leaves, leavesAll_eq]
  intro leaf hl
  obtain ⟨node, hn, hl⟩ := List.mem_flatMap.mp hl
  exact h node hn leaf hl

theorem HasLeaves.pair {left right : Node} (hl : left.HasLeaves) (hr : right.HasLeaves) :
    ∀ leaf ∈ left.leaves ++ right.leaves, leaf.Written := List.forall_mem_append.mpr ⟨hl, hr⟩

theorem hasLeaves_maybe {node : Node} (h : node = .absent ∨ node.HasLeaves) : node.HasLeaves := by
  rcases h with rfl | h
  · nofun
  · exact h

theorem related_assignTo_leaves {target equals value : _} (ht : HasLeaves target)
    (he : Only Token.Scanned equals equals) (hv : HasLeaves value) :
    Parse.Related (Only Token.Scanned) (Only HasLeaves) (Parse.assignTo target equals value)
      (Parse.assignTo target equals value) := by
  unfold Parse.assignTo
  split
  · exact .pure ⟨List.forall_mem_cons.mpr ⟨ht _ (List.mem_singleton_self _), hv⟩, rfl⟩
  · obtain ⟨hcontainer, hindex⟩ := List.forall_mem_append.mp ht
    exact .pure ⟨List.forall_mem_append.mpr
      ⟨hcontainer, List.forall_mem_append.mpr ⟨hindex, hv⟩⟩, rfl⟩
  · exact (Parse.Related.complain he _).bind fun _ => .pure ⟨ht, rfl⟩

/-- Having such leaves goes along with how the parser builds trees. -/
theorem respects_leaves :
    Parse.Respects (Only Token.Scanned) (Only HasLeaves) (Only HasLeaves) where
  kind := by
    rintro token _ ⟨-, rfl⟩
    rfl
  truth b := ⟨List.forall_mem_singleton.mpr trivial, rfl⟩
  nothing := ⟨List.forall_mem_singleton.mpr trivial, rfl⟩
  constant := by
    rintro token _ ⟨ht, rfl⟩
    exact ⟨List.forall_mem_singleton.mpr ht.isRead, rfl⟩
  reference := by
    rintro name _ ⟨hn, rfl⟩ hk
    exact ⟨List.forall_mem_singleton.mpr ⟨hn, hk⟩, rfl⟩
  grouping := by
    rintro inner _ ⟨hi, rfl⟩
    exact ⟨hi, rfl⟩
  array := by
    rintro bracket _ elements elements' ⟨-, rfl⟩ hs
    obtain ⟨hall, rfl⟩ := forall₂_only.mp hs
    exact ⟨hasLeaves_sequence hall, rfl⟩
  call := by
    rintro callee _ paren _ arguments arguments' ⟨hc, rfl⟩ ⟨-, rfl⟩ - hs
    obtain ⟨hall, rfl⟩ := forall₂_only.mp hs
    exact ⟨hc.pair (hasLeaves_sequence hall), rfl⟩
  indexGet := by
    rintro target _ bracket _ index _ ⟨ht, rfl⟩ ⟨-, rfl⟩ ⟨hi, rfl⟩
    exact ⟨ht.pair hi, rfl⟩
  sign := by
    rintro operator _ right _ ⟨-, rfl⟩ - ⟨hr, rfl⟩
    exact ⟨hr, rfl⟩
  operator := by
    rintro level operator _ left _ right _ ⟨-, rfl⟩ - ⟨hl, rfl⟩ ⟨hr, rfl⟩
    cases level <;> exact ⟨hl.pair hr, rfl⟩
  assign := by
    rintro target _ equals _ value _ ⟨ht, rfl⟩ ⟨he, rfl⟩ ⟨hv, rfl⟩
    exact related_assignTo_leaves ht ⟨he, rfl⟩ hv
  simple := by
    rintro inner _ ⟨hi, rfl⟩
    exact ⟨hi, rfl⟩
  print := by
    rintro inner _ ⟨hi, rfl⟩
    exact ⟨hi, rfl⟩
  var := by
    rintro name _ value value' ⟨hn, rfl⟩ hk hv
    obtain ⟨hvalue, rfl⟩ := maybe_only hv
    exact ⟨List.forall_mem_cons.mpr ⟨⟨hn, hk⟩, hasLeaves_maybe hvalue⟩, rfl⟩
  block := by
    intro body body' hb
    obtain ⟨hall, rfl⟩ := forall₂_only.mp hb
    exact ⟨hasLeaves_sequence hall, rfl⟩
  conditional := by
    rintro condition _ thenBranch _ elseBranch elseBranch' ⟨hc, rfl⟩ ⟨ht, rfl⟩ he
    obtain ⟨helse, rfl⟩ := maybe_only he
    exact ⟨List.forall_mem_append.mpr ⟨hc, ht.pair (hasLeaves_maybe helse)⟩, rfl⟩
  whileLoop := by
    rintro condition _ body _ ⟨hc, rfl⟩ ⟨hb, rfl⟩
    exact ⟨hc.pair hb, rfl⟩
  function := by
    rintro name _ params params' body body' ⟨hn, rfl⟩ hk hp hb
    obtain ⟨hbody, rfl⟩ := forall₂_only.mp hb
    have hnames : List.Forall₂ (Only fun param => (Leaf.name param).Written) params params' :=
      hp.imp fun _ _ h => ⟨⟨h.1.1, h.2⟩, h.1.2⟩
    obtain ⟨hparams, rfl⟩ := forall₂_only.mp hnames
    exact ⟨List.forall_mem_cons.mpr ⟨⟨hn, hk⟩, List.forall_mem_append.mpr
      ⟨List.forall_mem_map.mpr hparams, hasLeaves_sequence hbody⟩⟩, rfl⟩
  giveBack := by
    rintro keyword _ value value' ⟨-, rfl⟩ hv
    obtain ⟨hvalue, rfl⟩ := maybe_only hv
    have hleaves : value.HasLeaves := hasLeaves_maybe hvalue
    exact ⟨hleaves, rfl⟩

/-- The leaves of a source are what its tokens spell. -/
theorem parseSource_hasLeaves (limits : Limits) (source : String) :
    ∀ node ∈ (parseSource limits source).statements, node.HasLeaves := by
  have h := parseTokens_related respects_leaves limits
    (forall₂_only.mpr ⟨Scan.ofSource_scanned source, rfl⟩)
    ⟨Token.finish_scanned (Scan.ofSource source).lastLine, rfl⟩
  exact (forall₂_only.mp h.1).1

theorem parseSource_scanned (limits : Limits) (source : String) :
    ∀ node ∈ (parseSource limits source).statements, IsStatement Token.Scanned node :=
  parseTokens_isStatement (fun _ h => h.written) limits (Scan.ofSource_scanned source)
    (Token.finish_scanned _)

/-! ## The text of a program -/

/-- No number of these statements is too large. -/
def Finite (statements : List Node) : Prop :=
  ∀ node ∈ statements, ∀ leaf ∈ node.leaves, leaf.isFinite = true

instance (statements : List Node) : Decidable (Finite statements) :=
  inferInstanceAs (Decidable (∀ node ∈ statements, ∀ leaf ∈ node.leaves, leaf.isFinite = true))

/-- The text of a program. -/
def programText (limits : Limits) (statements : List Node) : Except Defect String := do
  return String.intercalate "\n" (← renderProgram limits statements)

/-- None of these statements nests too deeply to be printed. -/
def Shallow (limits : Limits) (statements : List Node) : Prop :=
  ∀ node ∈ statements, node.depth 2 0 ≤ limits.printing

instance (limits : Limits) (statements : List Node) : Decidable (Shallow limits statements) :=
  inferInstanceAs (Decidable (∀ node ∈ statements, node.depth 2 0 ≤ limits.printing))

theorem shallow_cons {limits : Limits} {node : Node} {rest : List Node} :
    Shallow limits (node :: rest) ↔ node.depth 2 0 ≤ limits.printing ∧ Shallow limits rest :=
  List.forall_mem_cons

theorem mapM_renderWithin {limits : Limits} {nodes : List Node} (h : ∀ node ∈ nodes, node.Prints) :
    nodes.mapM (renderWithin limits) =
      if Shallow limits nodes then .ok ((nodes.map form).map fun part => .string part.text)
      else .error .tooDeep := by
  induction nodes with
  | nil => rfl
  | cons node rest ih =>
    obtain ⟨hnode, hrest⟩ := List.forall_mem_cons.mp h
    rw [List.mapM_cons, ih hrest, renderWithin, hnode]
    by_cases hdepth : node.depth 2 0 ≤ limits.printing
    · by_cases hall : Shallow limits rest
      · rw [if_pos hdepth, if_pos hall, if_pos (shallow_cons.mpr ⟨hdepth, hall⟩)]
        rfl
      · have hcons : ¬ Shallow limits (node :: rest) := fun hcons => hall (shallow_cons.mp hcons).2
        rw [if_pos hdepth, if_neg hall, if_neg hcons]
        rfl
    · have hcons : ¬ Shallow limits (node :: rest) := fun hcons => hdepth (shallow_cons.mp hcons).1
      rw [if_neg hdepth, if_neg hcons]
      rfl

/-- Statements are printed as their forms unless one of them nests too deeply. -/
theorem programText_form {limits : Limits} {nodes : List Node} (h : ∀ node ∈ nodes, node.Prints) :
    programText limits nodes =
      if Shallow limits nodes then .ok (String.intercalate "\n" ((nodes.map form).map SExpr.text))
      else .error .tooDeep := by
  rw [programText, renderProgram, mapM_renderWithin h]
  split
  · have hpieces := mapM_pieceText ((nodes.map form).map SExpr.text)
    rw [List.map_map] at hpieces
    exact congrArg (Except.map (String.intercalate "\n")) hpieces
  · rfl

theorem prints_source (limits : Limits) (source : String) :
    ∀ node ∈ (parseSource limits source).statements, node.Prints := fun node hn =>
  prints_statement (fun _ h => h) (parseSource_isStatement limits source node hn)

theorem reads_source (limits : Limits) (source : String)
    (hfinite : Finite (parseSource limits source).statements) :
    ∀ node ∈ (parseSource limits source).statements, node.Reads := fun node hn =>
  reads_statement (parseSource_scanned limits source node hn) fun leaf hl =>
    (parseSource_hasLeaves limits source node hn leaf hl).shown (hfinite node hn leaf hl)

/-- Sources that are printed alike are the same program: their trees differ at most in the lines of
tokens and in the tokens that are not printed. No number may be too large, since all such numbers
are shown alike. It does not matter whether the sources have errors, nor how deep trees may be. -/
theorem programText_unambiguous {limits limits' printing printing' : Limits}
    {source source' text : String}
    (hfinite : Finite (parseSource limits source).statements)
    (hfinite' : Finite (parseSource limits' source').statements)
    (htext : programText printing (parseSource limits source).statements = .ok text)
    (htext' : programText printing' (parseSource limits' source').statements = .ok text) :
    (parseSource limits source).statements.map bare =
      (parseSource limits' source').statements.map bare := by
  have hreads := reads_source limits source hfinite
  have hreads' := reads_source limits' source' hfinite'
  have hforms : (parseSource limits source).statements.map form =
      (parseSource limits' source').statements.map form := by
    rw [programText_form (prints_source limits source)] at htext
    rw [programText_form (prints_source limits' source')] at htext'
    split at htext
    · split at htext'
      · exact SExpr.intercalate_inj (clean_map hreads) (clean_map hreads')
          (Except.ok.inj (htext.trans htext'.symm))
      · cases htext'
    · cases htext
  rw [← ofForms_map hreads, ← ofForms_map hreads', hforms]

/-- The words of a language, line breaks and how a number is written do not show: two sources are
printed as `(return (index a 0))` and `(print (call f 'x'))`. -/
theorem programText_respelled :
    let english := (parseSource .standard "return a[0];\nprint f(\"x\");").statements
    let hiligaynon := (parseSource .standard "balik a\n[0.0]; sulat f(\n\"x\");").statements
    (Finite english ∧ Finite hiligaynon ∧
      programText .standard english = .ok "(return (index a 0))\n(print (call f 'x'))" ∧
      programText .standard hiligaynon = .ok "(return (index a 0))\n(print (call f 'x'))") ∧
      english.map bare = hiligaynon.map bare := by
  intro english hiligaynon
  have hfinite : Finite english := by decide +kernel
  have hfinite' : Finite hiligaynon := by decide +kernel
  have htext :
      programText .standard english = .ok "(return (index a 0))\n(print (call f 'x'))" := by
    decide +kernel
  have htext' :
      programText .standard hiligaynon = .ok "(return (index a 0))\n(print (call f 'x'))" := by
    decide +kernel
  exact ⟨⟨hfinite, hfinite', htext, htext'⟩,
    programText_unambiguous hfinite hfinite' htext htext'⟩

end Node

end GameScript
