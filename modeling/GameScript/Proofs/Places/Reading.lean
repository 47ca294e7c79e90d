import GameScript.Proofs.Grammar.Exactness
import GameScript.Proofs.Regrouping.Evaluator
import GameScript.Session.Basic

/-! # Reading a place

The container of an element that is stored is read by `locate`, which keeps where it came from; any
other expression is read by `evaluate`. Both do what `walk` does, which has no recursion over the
tree: it reads what stands at the root, and then for each indexing, from the innermost outward,
evaluates the index and takes the element. They differ in the room that they take on the way: two
steps for an indexing or a grouping in `evaluate`, one in `locate`. -/

namespace GameScript

namespace Node

/-- Is the value of a node computed, and not read from a name, an element or a grouping of these? -/
def isRoot : Node → Bool
  | .variable _ | .indexGet _ _ _ | .grouping _ => false
  | _ => true

/-- The expression that a place starts from, and the indexings after it, innermost first. -/
def path : Node → Node × List (Token × Node)
  | .indexGet target bracket index => (target.path.1, target.path.2 ++ [(bracket, index)])
  | .grouping inner => inner.path
  | node => (node, [])

/-- How many indexings and groupings stand around the start of a place. -/
def pathDepth : Node → Nat
  | .indexGet target _ _ => target.pathDepth + 1
  | .grouping inner => inner.pathDepth + 1
  | _ => 0

/-- Induction along the path to the start of a place. -/
theorem path_induction {motive : Node → Prop} (reference : ∀ name, motive (.variable name))
    (indexGet : ∀ target bracket index, motive target → motive (.indexGet target bracket index))
    (grouping : ∀ inner, motive inner → motive (.grouping inner))
    (root : ∀ node, node.isRoot → motive node) (node : Node) : motive node := by
  match node with
  | .variable name => exact reference name
  | .indexGet target bracket index =>
    exact indexGet target bracket index (path_induction reference indexGet grouping root target)
  | .grouping inner => exact grouping inner (path_induction reference indexGet grouping root inner)
  | .literal _ | .unary _ _ | .binary _ _ _ | .logical _ _ _ | .assign _ _ | .call _ _ _
  | .array _ _ | .indexSet _ _ _ _ | .expression _ | .print _ | .var _ _ | .block _
  | .ifElse _ _ _ | .whileLoop _ _ | .function _ _ _ | .giveBack _ _ | .absent | .sequence _ =>
    exact root _ rfl

theorem path_of_isRoot {node : Node} (h : node.isRoot) : node.path = (node, []) := by
  cases node <;> first | rfl | cases h

end Node

namespace Eval

/-- Reads what a place starts from. -/
def walkRoot (settings : Settings) (room scope : Nat) : Node → Eval Value
  | .variable name => lookup room scope name
  | node => evaluate settings room node scope

/-- Applies an indexing. -/
def walkStep (settings : Settings) (room scope : Nat) (container : Value) (step : Token × Node) :
    Eval Value := do
  let index ← evaluate settings room step.2 scope
  elementAt room container index step.1

/-- Reads a place: its start once, and then each index once. -/
def walk (settings : Settings) (room : Nat) (node : Node) (scope : Nat) : Eval Value := do
  let first ← walkRoot settings room scope node.path.1
  node.path.2.foldlM (walkStep settings room scope) first

/-! ## Equations -/

section

variable (settings : Settings) (room scope : Nat)

theorem walk_reference (name : Token) :
    walk settings room (.variable name) scope = lookup room scope name := by
  simp only [walk, Node.path, walkRoot, List.foldlM_nil, bind_pure]

theorem walk_indexGet (target : Node) (bracket : Token) (index : Node) :
    walk settings room (.indexGet target bracket index) scope =
      walk settings room target scope >>= fun container =>
        walkStep settings room scope container (bracket, index) := by
  simp only [walk, Node.path, List.foldlM_append, List.foldlM_cons, List.foldlM_nil, bind_pure,
    bind_assoc]

theorem walk_root {node : Node} (h : node.isRoot) :
    walk settings room node scope = evaluate settings room node scope := by
  simp only [walk, Node.path_of_isRoot h, List.foldlM_nil, bind_pure]
  cases node <;> first | rfl | cases h

theorem locate_reference (name : Token) :
    (·.1) <$> locate settings (room + 1) (.variable name) scope = lookup room scope name := by
  simp only [locate, map_bind, map_pure, bind_pure]

theorem locate_indexGet (target : Node) (bracket : Token) (index : Node) :
    (·.1) <$> locate settings (room + 1) (.indexGet target bracket index) scope =
      (·.1) <$> locate settings room target scope >>= fun container =>
        walkStep settings room scope container (bracket, index) := by
  simp only [locate, walkStep, map_bind, map_pure, bind_pure, bind_map_left]

theorem locate_grouping (inner : Node) :
    locate settings (room + 1) (.grouping inner) scope = locate settings room inner scope := by
  rw [locate]

theorem locate_nowhere {node : Node} (h : node.isRoot) :
    locate settings (room + 1) node scope = do
      return (← evaluate settings room node scope, .nowhere) := by
  cases node <;> first | (simp only [locate]; done) | cases h

theorem locate_root {node : Node} (h : node.isRoot) :
    (·.1) <$> locate settings (room + 1) node scope = evaluate settings room node scope := by
  simp only [locate_nowhere settings room scope h, map_bind, map_pure, bind_pure]

theorem evaluateNode_indexGet (target : Node) (bracket : Token) (index : Node) :
    evaluateNode settings (room + 2) (.indexGet target bracket index) scope =
      evaluate settings (room + 1) target scope >>= fun container =>
        walkStep settings (room + 1) scope container (bracket, index) := by
  rw [evaluateNode]
  rfl

/-- Only at the highest level are the values of expressions traced. -/
theorem evaluate_quiet {settings : Settings}
    (hquiet : ∀ verbosity ∈ settings.tracing, verbosity < 4) (room : Nat) (node : Node) (scope : Nat) :
    evaluate settings (room + 1) node scope = evaluateNode settings room node scope := by
  have untraced (value : Value) : traceExpression settings room node value = pure () := by
    unfold traceExpression
    split
    · next verbosity hv => rw [if_neg (Nat.not_le.2 (hquiet verbosity hv))]
    · rfl
  rw [evaluate]
  simp only [untraced, pure_bind, bind_pure]

end

/-! ## The walks compared -/

namespace Follows

variable {settings : Settings} {room room' : Nat}

/-- A step that ends well is followed by one that does. -/
theorem ok {α : Type} {p p' : Eval α} (h : Follows Eq p p') {m m' m₁ : Machine} {a : α}
    (hm : m.Resembles Eq m') (hp : p m = .ok a m₁) : ∃ m₂, p' m' = .ok a m₂ ∧ m₁.Resembles Eq m₂ := by
  have hend := h.ends hm
  rw [hp] at hend
  generalize p' m' = r at hend
  cases hend with
  | ok hsame => exact ⟨_, rfl, hsame⟩

/-- With more room an expression does the same. -/
theorem more (h : room ≤ room') (node : Node) (scope : Nat) :
    Follows Eq (evaluate settings room node scope) (Eval.evaluate settings room' node scope) :=
  (followsAt .equal ⟨rfl, .inr rfl⟩ room room').evaluate scope (.of_le (by omega)) rfl

theorem walkStep (h : room ≤ room') (scope : Nat) (container : Value) (step : Token × Node) :
    Follows Eq (walkStep settings room scope container step)
      (Eval.walkStep settings room' scope container step) :=
  (more h _ scope).bind fun index => elementAt h container index step.1

/-- The value of an expression is traced after the expression is done. -/
theorem untraced {node : Node} {scope : Nat} {p : Eval Value}
    (h : Follows Eq (evaluateNode settings room node scope) p) :
    Follows Eq (evaluate settings (room + 1) node scope) p := by
  have traced (value : Value) :
      Follows Eq (Eval.traceExpression settings room node value) (Pure.pure ()) := by
    unfold Eval.traceExpression
    split
    · split
      · exact textOf_aside fun _ => trace_aside settings 4 _
      · exact pure ()
    · exact pure ()
  have whole := h.bind fun value => (traced value).bind fun _ => pure value
  simp only [pure_bind, bind_pure] at whole
  rw [Eval.evaluate]
  exact whole

/-- An expression that has no room for a step is followed by any other. -/
theorem short {node : Node} {scope : Nat} {p : Eval Value}
    (h : ∀ more, room = more + 3 → Follows Eq (evaluateNode settings (more + 2) node scope) p) :
    Follows Eq (evaluate settings room node scope) p := by
  match room with
  | 0 => rw [Eval.evaluate]; exact overflow
  | 1 | 2 => exact untraced overflow
  | room + 3 => exact untraced (h room rfl)

theorem locate_of_evaluate (h : room < room') (node : Node) (scope : Nat) :
    Follows Eq (evaluate settings room node scope)
      ((·.1) <$> Eval.locate settings room' node scope) := by
  induction node using Node.path_induction generalizing room room' with
  | reference name =>
    refine short fun more hmore => ?_
    obtain ⟨room', rfl⟩ : ∃ n, room' = n + 1 := ⟨room' - 1, by omega⟩
    rw [locate_reference, evaluateNode]
    exact lookup (by omega) scope name
  | indexGet target bracket index ih =>
    refine short fun more hmore => ?_
    obtain ⟨room', rfl⟩ : ∃ n, room' = n + 1 := ⟨room' - 1, by omega⟩
    rw [locate_indexGet, evaluateNode_indexGet]
    exact (ih (by omega)).bind fun container => walkStep (by omega) scope container _
  | grouping inner ih =>
    refine short fun more hmore => ?_
    obtain ⟨room', rfl⟩ : ∃ n, room' = n + 1 := ⟨room' - 1, by omega⟩
    rw [locate_grouping, evaluateNode]
    exact ih (by omega)
  | root node hroot =>
    obtain ⟨room', rfl⟩ : ∃ n, room' = n + 1 := ⟨room' - 1, by omega⟩
    rw [locate_root settings room' scope hroot]
    exact more (by omega) node scope

/-- A place that there is no room to read is followed by any step. -/
theorem shortPlace {node : Node} {scope : Nat} {p : Eval Value}
    (h : ∀ more, room = more + 1 →
      Follows Eq ((·.1) <$> Eval.locate settings (more + 1) node scope) p) :
    Follows Eq ((·.1) <$> Eval.locate settings room node scope) p := by
  match room with
  | 0 => rw [Eval.locate]; exact overflow
  | room + 1 => exact h room rfl

theorem evaluate_of_locate (hquiet : ∀ verbosity ∈ settings.tracing, verbosity < 4)
    (h : 2 * room < room') (node : Node) (scope : Nat) :
    Follows Eq ((·.1) <$> locate settings room node scope)
      (Eval.evaluate settings room' node scope) := by
  induction node using Node.path_induction generalizing room room' with
  | reference name =>
    refine shortPlace fun more hmore => ?_
    obtain ⟨room', rfl⟩ : ∃ n, room' = n + 3 := ⟨room' - 3, by omega⟩
    rw [locate_reference, evaluate_quiet hquiet, evaluateNode]
    exact lookup (by omega) scope name
  | indexGet target bracket index ih =>
    refine shortPlace fun more hmore => ?_
    obtain ⟨room', rfl⟩ : ∃ n, room' = n + 3 := ⟨room' - 3, by omega⟩
    rw [locate_indexGet, evaluate_quiet hquiet, evaluateNode_indexGet]
    exact (ih (by omega)).bind fun container => walkStep (by omega) scope container _
  | grouping inner ih =>
    refine shortPlace fun more hmore => ?_
    obtain ⟨room', rfl⟩ : ∃ n, room' = n + 3 := ⟨room' - 3, by omega⟩
    rw [locate_grouping, evaluate_quiet hquiet, evaluateNode]
    exact ih (by omega)
  | root node hroot =>
    refine shortPlace fun more hmore => ?_
    rw [locate_root settings more scope hroot]
    exact Follows.more (by omega) node scope

theorem walk_of_locate (h : room ≤ room') (node : Node) (scope : Nat) :
    Follows Eq ((·.1) <$> locate settings room node scope)
      (Eval.walk settings room' node scope) := by
  induction node using Node.path_induction generalizing room with
  | reference name =>
    refine shortPlace fun more hmore => ?_
    rw [locate_reference, walk_reference]
    exact lookup (by omega) scope name
  | indexGet target bracket index ih =>
    refine shortPlace fun more hmore => ?_
    rw [locate_indexGet, walk_indexGet]
    exact (ih (by omega)).bind fun container => walkStep (by omega) scope container _
  | grouping inner ih =>
    refine shortPlace fun more hmore => ?_
    rw [locate_grouping]
    exact ih (by omega)
  | root node hroot =>
    refine shortPlace fun more hmore => ?_
    rw [locate_root settings more scope hroot, walk_root settings room' scope hroot]
    exact Follows.more (by omega) node scope

theorem locate_of_walk (node : Node) (h : room + node.pathDepth < room') (scope : Nat) :
    Follows Eq (walk settings room node scope)
      ((·.1) <$> Eval.locate settings room' node scope) := by
  obtain ⟨room', rfl⟩ : ∃ n, room' = n + 1 := ⟨room' - 1, by omega⟩
  induction node using Node.path_induction generalizing room' with
  | reference name =>
    rw [locate_reference, walk_reference]
    exact lookup (by omega) scope name
  | indexGet target bracket index ih =>
    rw [Node.pathDepth] at h
    obtain ⟨room', rfl⟩ : ∃ n, room' = n + 1 := ⟨room' - 1, by omega⟩
    rw [locate_indexGet, walk_indexGet]
    exact (ih room' (by omega)).bind fun container => walkStep (by omega) scope container _
  | grouping inner ih =>
    rw [Node.pathDepth] at h
    obtain ⟨room', rfl⟩ : ∃ n, room' = n + 1 := ⟨room' - 1, by omega⟩
    rw [locate_grouping]
    exact ih room' (by omega)
  | root node hroot =>
    rw [locate_root settings room' scope hroot, walk_root settings room scope hroot]
    exact Follows.more (by omega) node scope

end Follows

/-- A place is read as the expression is evaluated, with the same value, effects and errors, by a walk
that reads the start of the place and every index once. Each step follows the other if it has more
room, unless that one runs out of room; texts for the trace can take room in evaluation only. -/
theorem locate_reads (settings : Settings) (node : Node) (scope room room' : Nat) :
    (room < room' → Follows Eq (evaluate settings room node scope)
      ((·.1) <$> locate settings room' node scope)) ∧
    (2 * room < room' → (∀ verbosity ∈ settings.tracing, verbosity < 4) →
      Follows Eq ((·.1) <$> locate settings room node scope)
        (evaluate settings room' node scope)) ∧
    (room ≤ room' → Follows Eq ((·.1) <$> locate settings room node scope)
      (walk settings room' node scope)) ∧
    (room + node.pathDepth < room' → Follows Eq (walk settings room node scope)
      ((·.1) <$> locate settings room' node scope)) :=
  ⟨fun h => .locate_of_evaluate h node scope, fun h hquiet => .evaluate_of_locate hquiet h node scope,
    fun h => .walk_of_locate h node scope, fun h => .locate_of_walk node h scope⟩

/-! ## Expressions to read -/

open Grammar (word name)

/-- The expression `(a[f()])[0]`. -/
def calledIndex : Node :=
  .indexGet
    (.grouping (.indexGet (.variable (name "a")) (word .leftBracket "[")
      (.call (.variable (name "f")) (word .rightParen ")") (.sequence []))))
    (word .leftBracket "[") (.literal (.number 0))

/-- The call in an index is made once, however the place is read. -/
theorem calledIndex_reads :
    let session := ((Session.start "" 0 1).run
      "var a = [[\"x\"]]; fun f() \x7b print \"f\"; return 0; \x7d").2
    let reads (p : Eval Value) : Prop :=
      ∃ m, p session.machine = .ok (.string "x") m ∧ m.output = "f\n"
    let evaluated (room : Nat) := evaluate session.settings room calledIndex Store.globals
    let located (room : Nat) := (·.1) <$> locate session.settings room calledIndex Store.globals
    reads (evaluated 100) ∧ reads (located 101) ∧ reads (evaluated 203) ∧
      reads (walk session.settings 101 calledIndex Store.globals) ∧ reads (located 105) := by
  intro session reads evaluated located
  have hrun : (match evaluated 100 session.machine with
      | .ok (.string text) m => text == "x" && m.output == "f\n"
      | .ok .nil _ | .ok (.bool _) _ | .ok (.number _) _ | .ok (.array _) _ | .ok (.function _) _
      | .ok (.native _) _ | .ok (.datum _) _ | .error _ _ => false) = true := by decide +kernel
  have hquiet : ∀ verbosity ∈ session.settings.tracing, verbosity < 4 := by decide +kernel
  have next {p p' : Eval Value} (h : Follows Eq p p') (hp : reads p) : reads p' := by
    obtain ⟨m, hm, hout⟩ := hp
    obtain ⟨m', hm', hsame⟩ := h.ok (.refl session.machine) hm
    exact ⟨m', hm', hsame.output ▸ hout⟩
  have first : reads (evaluated 100) := by
    split at hrun
    · next text m heq =>
      simp only [Bool.and_eq_true, beq_iff_eq] at hrun
      obtain ⟨rfl, hout⟩ := hrun
      exact ⟨m, heq, hout⟩
    all_goals cases hrun
  have walks := locate_reads session.settings calledIndex Store.globals
  have located101 := next ((walks 100 101).1 (by decide)) first
  have walked := next ((walks 101 101).2.2.1 (by decide)) located101
  exact ⟨first, located101, next ((walks 101 203).2.1 (by decide) hquiet) located101, walked,
    next ((walks 101 105).2.2.2 (by decide)) walked⟩

/-- The variable `a` with a number of indexings `[0]` after it. -/
def selfIndexed : Nat → Node
  | 0 => .variable (name "a")
  | n + 1 => .indexGet (selfIndexed n) (word .leftBracket "[") (.literal (.number 0))

/-- There can be room to read a place where there is none to evaluate the expression: here with the
room that the container has in an assignment. -/
theorem selfIndexed_unlike :
    let session := ((Session.start "" 0 1).run "var a = [0]; a[0] = a;").2
    (evaluate session.settings 991 (selfIndexed 600) Store.globals session.machine
      matches .error .overflow _) ∧
    (locate session.settings 991 (selfIndexed 600) Store.globals session.machine
      matches .ok _ _) := by
  decide +kernel

end Eval

end GameScript
