import GameScript.Text.Digit

/-! The options of the command line.

An option may be given by the start of its long name if no other begins so. Options that take a
value take it from after an equals sign, from the rest of a short option, or from the next argument.
Short options without a value may stand together. After two dashes everything is an argument. -/

namespace GameScript.CommandLine

/-- The options. -/
inductive Switch where
  | help | verbose | tokens | printTree | emitTree | runTree | config | outputDirectory
  deriving Repr, DecidableEq

namespace Switch

/-- The spellings of options. -/
def spellings : List (String × Switch) :=
  [("-h", .help), ("--help", .help), ("-v", .verbose), ("--tokens", .tokens),
   ("--print-ast", .printTree), ("--emit-ast", .emitTree), ("--ast", .runTree),
   ("--config", .config), ("-o", .outputDirectory), ("--output-dir", .outputDirectory)]

/-- Does it take a value? -/
def takesValue : Switch → Bool
  | .help | .verbose => false
  | _ => true

/-- Options of which only one may be given. -/
def isMode : Switch → Bool
  | .tokens | .printTree | .emitTree | .runTree | .config => true
  | _ => false

end Switch

/-- Why the command line is not carried out. -/
inductive Refusal where
  | usage
  | help
  deriving Repr, DecidableEq

/-- An option as given: with an equals sign or the rest of a short option, something is attached. -/
structure Given where
  switch : Switch
  /-- Spelled with a single dash, so that others may follow in the same argument. -/
  short : Bool
  attached : Option String := none

/-- What an argument is. -/
inductive Item where
  | argument (text : String)
  | separator
  | option (given : Given)
  | unknown

/-! ## Recognizing options -/

/-- The text before the first equals sign, and the text after it if there is one. -/
def splitEquals (arg : String) : String × Option String :=
  let before := arg.toList.takeWhile (· ≠ '=')
  let after := (arg.toList.drop before.length).drop 1
  (String.ofList before,
    if before.length < arg.length then some (String.ofList after) else none)

/-- A text without the line end after it. -/
def dropLineEnd (cs : List Char) : List Char :=
  match cs.reverse with
  | '\n' :: before => before.reverse
  | _ => cs

/-- Does a text look like a negative number? One line end may follow it. -/
def isNegativeNumber (arg : String) : Bool :=
  match dropLineEnd arg.toList with
  | '-' :: rest =>
    let whole := rest.takeWhile Text.isDigit
    match rest.drop whole.length with
    | [] => !whole.isEmpty
    | '.' :: fraction => !fraction.isEmpty && fraction.all Text.isDigit
    | _ => false
  | _ => false

/-- Does a spelling begin with two dashes? -/
def isLong (arg : String) : Bool := ['-', '-'].isPrefixOf arg.toList

/-- The options that a long name, cut short or not, may mean. -/
def longMatches (name : String) : List Switch :=
  (Switch.spellings.filter fun entry => name.toList.isPrefixOf entry.1.toList).map (·.2)

/-- An argument that begins with a dash and is no full spelling. -/
def abbreviated (arg : String) : Except Refusal Item :=
  let (name, value?) := splitEquals arg
  if isLong arg then
    match longMatches name with
    | [switch] => .ok (.option { switch, short := false, attached := value? })
    | [] => .ok (if arg.toList.contains ' ' then .argument arg else .unknown)
    | _ => .error .usage
  else
    match Switch.spellings.lookup (String.ofList (arg.toList.take 2)) with
    | some switch =>
      .ok (.option { switch, short := true, attached := some (String.ofList (arg.toList.drop 2)) })
    | none =>
      .ok (if isNegativeNumber arg || arg.toList.contains ' ' then .argument arg else .unknown)

/-- What an argument before any separator is. -/
def classify (arg : String) : Except Refusal Item :=
  match arg.toList with
  | '-' :: _ :: _ =>
    match Switch.spellings.lookup arg, splitEquals arg with
    | some switch, _ => .ok (.option { switch, short := !isLong arg })
    | none, (name, some value) =>
      match Switch.spellings.lookup name with
      | some switch =>
        .ok (.option { switch, short := !isLong name, attached := some value })
      | none => abbreviated arg
    | none, (_, none) => abbreviated arg
  | _ => .ok (.argument arg)

/-- What all arguments are. -/
def classifyAll : List String → Except Refusal (List Item)
  | [] => .ok []
  | arg :: rest =>
    if arg = "--" then .ok (.separator :: rest.map .argument)
    else do return (← classify arg) :: (← classifyAll rest)

/-! ## Collecting options -/

/-- Where compiled game configurations go. -/
inductive Destination where
  | besideSource
  | directory (path : String)
  /-- A value was given that names no directory. -/
  | unusable
  deriving Repr, DecidableEq

/-- The options of a command line. -/
structure Options where
  verbosity : Nat := 0
  mode : Option Switch := none
  /-- The value of the mode. -/
  subject : String := ""
  destination : Destination := .besideSource
  program : Option String := none
  /-- The place for a program has been passed. -/
  programPassed : Bool := false
  /-- Something was given that means nothing. -/
  unrecognized : Bool := false

/-- An option to be carried out, with its value if it has one. -/
structure Action where
  switch : Switch
  value : Option String := none

/-- The option with an attached value. Two dashes are no value, even there. -/
def Action.attached (switch : Switch) (value : String) : Action :=
  ⟨switch, if value = "--" then none else some value⟩

/-- The option with the next argument for its value. -/
def Action.next (switch : Switch) : List Item → Except Refusal (Action × List Item)
  | .argument value :: rest => .ok (⟨switch, some value⟩, rest)
  | _ => .error .usage

/-- Options that stand together in one argument: `switch`, which takes no value, and those named by the
characters after it. The last one may take a value: the characters after it, or else the next
argument. -/
def clustered (switch : Switch) (rest : List Item) :
    List Char → Except Refusal (List Action × List Item)
  | [] => .ok ([⟨switch, none⟩], rest)
  | c :: cluster =>
    match Switch.spellings.lookup (String.ofList ['-', c]) with
    | none => .error .usage
    | some following =>
      if following.takesValue then do
        let (action, rest) ←
          if cluster.isEmpty then Action.next following rest
          else pure (Action.attached following (String.ofList cluster), rest)
        return ([⟨switch, none⟩, action], rest)
      else do
        let (actions, rest) ← clustered following rest cluster
        return (⟨switch, none⟩ :: actions, rest)

/-- The options that an argument gives, and what follows it and their values. Only short options can
stand together, and nothing else may be attached to an option that takes no value. -/
def Given.actions (given : Given) (rest : List Item) : Except Refusal (List Action × List Item) :=
  match given.attached with
  | none =>
    if given.switch.takesValue then do
      let (action, rest) ← Action.next given.switch rest
      return ([action], rest)
    else .ok ([⟨given.switch, none⟩], rest)
  | some value =>
    if given.switch.takesValue then .ok ([Action.attached given.switch value], rest)
    else if !given.short || value = "" then .error .usage
    else clustered given.switch rest value.toList

namespace Options

/-- Carries out an option. A mode without a value is given all the same. -/
def take (options : Options) (action : Action) : Except Refusal Options :=
  match action.switch with
  | .help => .error .help
  | .verbose => .ok { options with verbosity := options.verbosity + 1 }
  | .outputDirectory =>
    .ok { options with
      destination := match action.value with
        | some path => .directory path
        | none => .unusable }
  | mode =>
    if options.mode.isSome && options.mode ≠ some mode then .error .usage
    else .ok { options with mode := some mode, subject := action.value.getD "" }

/-- Carries out options, once all of one argument are known to fit. -/
def takeGiven (options : Options) (given : Given) (rest : List Item) :
    Except Refusal (Options × List Item) := do
  let (actions, rest) ← given.actions rest
  return (← actions.foldlM take options, rest)

/-- Collects options from items, at most `fuel` times. -/
def collect : Nat → Options → List Item → Except Refusal Options
  | 0, options, _ => .ok options
  | _, options, [] => .ok options
  | fuel + 1, options, .option given :: rest => do
    let (options, rest) ← options.takeGiven given rest
    collect fuel options rest
  | fuel + 1, options, .unknown :: rest => collect fuel { options with unrecognized := true } rest
  | fuel + 1, options, .argument text :: rest =>
    if options.programPassed then collect fuel { options with unrecognized := true } rest
    else
      let rest := match rest with
        | .separator :: rest => rest
        | rest => rest
      collect fuel { options with program := some text, programPassed := true } rest
  | fuel + 1, options, .separator :: rest =>
    if options.programPassed then collect fuel { options with unrecognized := true } rest
    else
      match rest with
      | .argument text :: rest =>
        collect fuel { options with program := some text, programPassed := true } rest
      | rest => collect fuel { options with programPassed := true } rest

/-- The options of a command line. -/
def parse (args : List String) : Except Refusal Options := do
  let items ← classifyAll args
  let options ← collect items.length {} items
  if options.unrecognized then throw .usage else pure options

end Options

/-! ## Commands -/

/-- What to do. -/
inductive Command where
  | showTokens (path : String)
  | showTree (path : String)
  | emitTree (path : String)
  | runTree (path : String)
  | compile (path : String) (destination : Destination)
  | run (path : String) (destination : Destination)
  | prompt
  deriving Repr, DecidableEq

/-- The command that options ask for. An empty path counts as none. -/
def Options.command (options : Options) : Command :=
  let program := match options.program with
    | some path => if path = "" then .prompt else .run path options.destination
    | none => .prompt
  if options.subject = "" then program
  else
    match options.mode with
    | some .tokens => .showTokens options.subject
    | some .printTree => .showTree options.subject
    | some .emitTree => .emitTree options.subject
    | some .runTree => .runTree options.subject
    | some .config => .compile options.subject options.destination
    | _ => program

end GameScript.CommandLine
